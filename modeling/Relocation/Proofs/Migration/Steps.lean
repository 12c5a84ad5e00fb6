import Relocation.Migration.Basic

/-!
# What a step of a migration can do

Each step is refused, fails and rolls back, or succeeds; the lemmas here say with what outcome, and
carry an invariant of the volume through the loops over moves and edits.
-/

namespace Relocation

def Failure.isCorruption : Failure → Bool
  | .corruption .. => true
  | _ => false

def MigrationState.isFinal : MigrationState → Bool
  | .committed | .rolledBack | .failed => true
  | _ => false

namespace Migration

theorem step_cases (m : Migration) (s : MigrationStep) (expected : MigrationState)
    (act : Migration → Outcome) : (m.state ≠ expected ∧
      m.step s expected act = (.error (m.misplaced s), m)) ∨
    (m.state = expected ∧ (m.step s expected act = m.fail .cancelled ∨
      m.step s expected act = act m)) := by
  unfold step
  split
  · rename_i other
    exact Or.inl ⟨other, rfl⟩
  · rename_i same
    refine Or.inr ⟨by simpa using same, ?_⟩
    split
    · exact Or.inl rfl
    · exact Or.inr rfl

/-! ### Rolling back -/

def corrupted (m : Migration) (report : RestoreReport) : Failure :=
  .corruption (report.failures.map (·.1)) m.snapshotPath (guidance m.snapshotPath)

def restored (m : Migration) (s : Snapshot) : Migration := { m with volume := (s.restore m.volume).2 }

variable {m : Migration} {s : Snapshot} {f : Failure}

theorem rollback_clean (pending : m.state.isPending = true) (held : m.snapshot = some s)
    (clean : (s.restore m.volume).1.isClean = true) :
    m.rollback = (.ok (), (m.restored s).discardSnapshot.transition .rolledBack) := by
  unfold rollback
  split
  · rename_i snapshot _ found
    cases found.symm.trans held
    simp only [clean, if_true]
    rfl
  · rename_i other
    exact (other s pending held).elim

theorem rollback_corrupted (pending : m.state.isPending = true) (held : m.snapshot = some s)
    (unclean : (s.restore m.volume).1.isClean = false) :
    m.rollback = (.error (m.corrupted (s.restore m.volume).1), (m.restored s).transition .failed) := by
  unfold rollback
  split
  · rename_i snapshot _ found
    cases found.symm.trans held
    simp only [unclean, Bool.false_eq_true, if_false]
    rfl
  · rename_i other
    exact (other s pending held).elim

theorem fail_early (early : m.state.isPending = false) :
    m.fail f = (.error f, (m.record f).transition .failed) := by
  have same : (m.record f).state.isPending = false := early
  unfold fail
  simp only [same, Bool.false_eq_true, if_false]

theorem fail_clean (pending : m.state.isPending = true) (held : m.snapshot = some s)
    (clean : (s.restore m.volume).1.isClean = true) :
    m.fail f = (.error f,
      (((m.record f).restored s).discardSnapshot.transition .rolledBack).transition .failed) := by
  have same : (m.record f).state.isPending = true := pending
  unfold fail
  simp only [same, if_true, rollback_clean (m := m.record f) pending held clean]

theorem fail_corrupted (pending : m.state.isPending = true) (held : m.snapshot = some s)
    (unclean : (s.restore m.volume).1.isClean = false) :
    m.fail f = (.error (m.corrupted (s.restore m.volume).1),
      (((m.record f).restored s).transition .failed).record (m.corrupted (s.restore m.volume).1)) := by
  have same : (m.record f).state.isPending = true := pending
  unfold fail
  simp only [same, if_true, rollback_corrupted (m := m.record f) pending held unclean]
  rfl

theorem fail_uncommitted (m : Migration) (f : Failure) :
    ∃ g after, m.fail f = (.error g, after) ∧ after.state ≠ .committed := by
  cases pending : m.state.isPending with
  | false => exact ⟨f, _, fail_early pending, by simp [transition]⟩
  | true =>
    cases held : m.snapshot with
    | some s =>
      cases clean : (s.restore m.volume).1.isClean with
      | true => exact ⟨f, _, fail_clean pending held clean, by simp [transition]⟩
      | false => exact ⟨_, _, fail_corrupted pending held clean, by simp [transition, record]⟩
    | none =>
      have refused : (m.record f).rollback = (.error ((m.record f).misplaced .rollBack),
          m.record f) := by
        unfold rollback
        split
        · rename_i found
          cases found.symm.trans held
        · rfl
      have same : (m.record f).state.isPending = true := pending
      refine ⟨(m.record f).misplaced .rollBack, (m.record f).record
        ((m.record f).misplaced .rollBack), ?_, ?_⟩
      · unfold fail
        simp only [same, if_true, refused]
      · change m.state ≠ .committed
        intro committed
        rw [committed] at pending
        cases pending

/-! ### Taking the snapshot -/

def touched (m : Migration) : List Path := m.plan.moves.map (·.source) ++ m.targets

inductive Unstored (m : Migration) : Volume → Prop
  | untouched : Unstored m m.volume
  | unread {e v} (read : Snapshot.capture m.stamp m.root m.touched m.plan m.volume =
    (.error e, v)) : Unstored m v
  | unwritten {s v e disk}
      (read : Snapshot.capture m.stamp m.root m.touched m.plan m.volume = (.ok s, v))
      (stored : s.persist m.snapshotDir v.disk = (.error e, disk)) : Unstored m { v with disk }

def withSnapshot (m : Migration) (s : Snapshot) (path : Path) (v : Volume) : Migration :=
  { m with volume := v, snapshot := some s, snapshotPath := some path }.transition .snapshotted

theorem takeSnapshot_cases (idle : m.state = .idle) :
    (∃ v f, m.Unstored v ∧ f.isCorruption = false ∧ m.takeSnapshot = { m with volume := v }.fail f) ∨
    ∃ s v path disk, Snapshot.capture m.stamp m.root m.touched m.plan m.volume = (.ok s, v) ∧
      s.persist m.snapshotDir v.disk = (.ok path, disk) ∧
      m.takeSnapshot = (.ok (), m.withSnapshot s path { v with disk }) := by
  unfold takeSnapshot
  rcases m.step_cases .snapshot .idle _ with ⟨other, _⟩ | ⟨_, cancelled | acts⟩
  · exact (other idle).elim
  · rw [cancelled]
    exact Or.inl ⟨m.volume, .cancelled, .untouched, rfl, rfl⟩
  · rw [acts]
    simp only
    cases read : Snapshot.capture m.stamp m.root (m.plan.moves.map (·.source) ++ m.targets) m.plan
      m.volume with
    | mk outcome v =>
      cases outcome with
      | error e => exact Or.inl ⟨v, .io e, .unread read, rfl, rfl⟩
      | ok s =>
        simp only
        cases stored : s.persist m.snapshotDir v.disk with
        | mk outcome disk =>
          cases outcome with
          | error e => exact Or.inl ⟨{ v with disk }, .io e, .unwritten read stored, rfl, rfl⟩
          | ok path => exact Or.inr ⟨s, v, path, disk, read, stored, rfl⟩

/-! ### Moves and edits -/

/-- Moves, with an invariant that knows which of them are done. -/
theorem moveAll_spec (Inv : List Move → Volume → Prop) (Safe : Volume → Prop)
    (done moves : List Move) (m : Migration)
    (step : ∀ before move after v, done ++ moves = before ++ move :: after → Inv before v →
      match moveFile (m.root.join move.source) (m.root.join move.target) v with
      | (.ok (), v') => Inv (before ++ [move]) v'
      | (.error _, v') => Safe v')
    (inv : Inv done m.volume) :
    (∃ v k f, Safe v ∧ f.isCorruption = false ∧
      m.moveAll moves = { m with volume := v, filesMoved := k }.fail f) ∨
    ∃ v, Inv (done ++ moves) v ∧ m.moveAll moves =
      (.ok (), { m with volume := v, filesMoved := m.filesMoved + moves.length }.transition
        .moved) := by
  induction moves generalizing done m with
  | nil => exact Or.inr ⟨m.volume, by simpa using inv, rfl⟩
  | cons move rest ih =>
    have first := step done move rest m.volume rfl inv
    unfold moveAll
    cases result : moveFile (m.root.join move.source) (m.root.join move.target) m.volume with
    | mk outcome v =>
      rw [result] at first
      cases outcome with
      | error e =>
        exact Or.inl ⟨v, m.filesMoved, .move move.source move.target e.message, first,
          rfl, rfl⟩
      | ok _ =>
        have split : done ++ [move] ++ rest = done ++ move :: rest := by simp
        rcases ih (done ++ [move]) { m with volume := v, filesMoved := m.filesMoved + 1 }
          (fun before other after w shape => step before other after w (split ▸ shape)) first with
          ⟨w, k, f, safe, harmless, same⟩ | ⟨w, final, same⟩
        · exact Or.inl ⟨w, k, f, safe, harmless, same⟩
        · refine Or.inr ⟨w, split ▸ final, ?_⟩
          simp only
          rw [same, List.length_cons, Nat.add_assoc, Nat.add_comm 1]

def Revision.count : Revision → Nat
  | .changed => 1
  | .unchanged | .aborted => 0

/-- How a loop over edits may end: one of them fails, one of them aborts the run, or all are made.
`Inv` knows which of them are done and how many were counted. -/
inductive EditsEnd (m : Migration) (Inv : List Path → Nat → Volume → Prop) (Safe : Volume → Prop)
    (paths : List Path) : Outcome → Prop
  | failed {v : Volume} {k : Nat} {f : Failure} (safe : Safe v) (harmless : f.isCorruption = false) :
    EditsEnd m Inv Safe paths ({ m with volume := v, filesEdited := k }.fail f)
  | aborted {before after : List Path} {path : Path} {v w : Volume} {k : Nat}
    (shape : paths = before ++ path :: after) (inv : Inv before k v)
    (stopped : m.editFile path v = (.ok .aborted, w)) :
    EditsEnd m Inv Safe paths (.error (.io .aborted), { m with volume := w, filesEdited := k })
  | done {v : Volume} {k : Nat} (inv : Inv paths k v) :
    EditsEnd m Inv Safe paths (.ok (), { m with volume := v, filesEdited := k }.transition .edited)

theorem editAll_ends (Inv : List Path → Nat → Volume → Prop) (Safe : Volume → Prop)
    (done paths : List Path) (m : Migration)
    (step : ∀ before path after k v, done ++ paths = before ++ path :: after → Inv before k v →
      match m.editFile path v with
      | (.ok .aborted, _) => True
      | (.ok revision, v') => Inv (before ++ [path]) (k + revision.count) v'
      | (.error _, v') => Safe v')
    (inv : Inv done m.filesEdited m.volume) :
    m.EditsEnd Inv Safe (done ++ paths) (m.editAll paths) := by
  induction paths generalizing done m with
  | nil => exact .done (v := m.volume) (k := m.filesEdited) (by simpa using inv)
  | cons path rest ih =>
    have first := step done path rest m.filesEdited m.volume rfl inv
    have split : done ++ [path] ++ rest = done ++ path :: rest := by simp
    have further : ∀ (k : Nat) (v : Volume), Inv (done ++ [path]) k v →
        m.EditsEnd Inv Safe (done ++ path :: rest)
          ({ m with volume := v, filesEdited := k }.editAll rest) := by
      intro k v next
      have others := ih (done ++ [path]) { m with volume := v, filesEdited := k }
        (fun before other after k w shape => step before other after k w (split ▸ shape)) next
      rw [split] at others
      generalize ({ m with volume := v, filesEdited := k } : Migration).editAll rest = result
        at others ⊢
      cases others with
      | failed safe harmless => exact .failed safe harmless
      | aborted shape inv stopped => exact .aborted shape inv stopped
      | done inv => exact .done inv
    unfold editAll
    cases result : m.editFile path m.volume with
    | mk outcome v =>
      rw [result] at first
      cases outcome with
      | error e => exact .failed first rfl
      | ok revision =>
        cases revision with
        | aborted => exact .aborted rfl inv result
        | unchanged => exact further _ v first
        | changed => exact further _ v first

/-! ### Verifying and committing -/

def probed (m : Migration) (probe : Probe) (seconds : Nat) : Migration :=
  { m with
    volume := { m.volume with disk := (probe m.root seconds m.volume.disk).2 }
    verification := some (probe m.root seconds m.volume.disk).1 }

theorem verify_cases (edited : m.state = .edited) (probe : Probe) (seconds : Nat) :
    m.verify probe seconds = m.fail .cancelled ∨
    (∃ f, f.isCorruption = false ∧ m.verify probe seconds = (m.probed probe seconds).fail f) ∨
    m.verify probe seconds = (.ok (), (m.probed probe seconds).transition .verified) := by
  unfold verify
  rcases m.step_cases .verify .edited _ with ⟨other, _⟩ | ⟨_, cancelled | acts⟩
  · exact (other edited).elim
  · exact Or.inl cancelled
  · rw [acts]
    simp only
    split
    · exact Or.inr (Or.inr rfl)
    · exact Or.inr (Or.inl ⟨_, rfl, rfl⟩)

theorem commit_cases (verified : m.state = .verified) :
    m.commit = m.fail .cancelled ∨ m.commit = (.ok (), m.discardSnapshot.transition .committed) := by
  unfold commit
  rcases m.step_cases .commit .verified _ with ⟨other, _⟩ | ⟨_, cancelled | acts⟩
  · exact (other verified).elim
  · exact Or.inl cancelled
  · exact Or.inr acts

end Migration

end Relocation
