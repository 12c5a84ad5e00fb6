import Relocation.Proofs.Migration.Prepared
import Relocation.Proofs.Rules.Splicing

/-!
# All or nothing

A run that comes to its end does so in one of three ways: everything was done; or the tree is what
it was; or the tree could not be put back, which is on record, and the snapshot with the original
bytes is still in the store. It is always exactly one of them. A run that does not come to its end
was aborted by an edit that has no place in its text, and keeps the snapshot too.
-/

namespace Relocation.Migration

open Disk

def outcome (m : Migration) (p : Path) (bytes : Text.Bytes) : Text.Bytes :=
  if p ∈ m.targets then m.rewritten p bytes else bytes

/-- Everything was done: every file is at its final path, with its rules applied if it was to be
edited, and there is no other file. -/
structure Commits (m after : Migration) (top store : Location) : Prop where
  state : after.state = .committed
  success : after.result.success = true
  errors : after.result.errors = []
  filesMoved : after.result.filesMoved = m.plan.moves.length
  revised : ∀ p ∈ m.targets, ∃ b, m.volume.disk.at? (spot top p) = some (.file b) ∧ m.Revises p b
  image : ∀ l c, top <+: l → ¬ store <+: l → (after.volume.disk.at? l = some (.file c) ↔
    ∃ p ∈ m.volume.disk.filesBelow top store, ∃ b, m.volume.disk.at? (spot top p) = some (.file b) ∧
      spot top (m.plan.finalPath p) = l ∧ m.outcome p b = c)
  elsewhere : ∀ l, ¬ top <+: l → ¬ store <+: l → after.volume.disk.at? l = m.volume.disk.at? l

/-- The tree is what it was: all files with their bytes and all directories are there. Only
directories for the moves may be left over, and none if directories can be removed. -/
structure Recovers (m after : Migration) (top store : Location) : Prop where
  state : after.state = .failed
  success : after.result.success = false
  failed : after.result.errors ≠ []
  errors : ∀ f ∈ after.result.errors, f.isCorruption = false
  kept : ∀ l n, ¬ store <+: l → m.volume.disk.at? l = some n → after.volume.disk.at? l = some n
  extra : ∀ l n, ¬ store <+: l → m.volume.disk.at? l = none → after.volume.disk.at? l = some n →
    n = .dir ∧ ∃ move ∈ m.plan.moves, l <+: spot top move.target
  exact : m.volume.Sweeps → ∀ l, ¬ store <+: l → after.volume.disk.at? l = m.volume.disk.at? l

/-- The snapshot is still held. Its file is in the store and has the original bytes of every file
that was to be touched, and no other file was changed. -/
structure Keeps (m after : Migration) (top store : Location) (s : Snapshot) (path : Path) : Prop where
  held : after.snapshot = some s
  named : after.result.snapshotPath = some path
  readable : after.volume.disk.read path = .ok s.encode
  covers : ∀ p ∈ m.touched, ∃ f ∈ s.files, f.path = p
  original : ∀ f ∈ s.files, m.volume.disk.at? (spot top f.path) = some (.file f.content)
  untouched : ∀ p ∈ m.volume.disk.filesBelow top store, p ∉ m.touched →
    after.volume.disk.at? (spot top p) = m.volume.disk.at? (spot top p)

/-- The tree could not be put back, and the failure names the snapshot file. -/
structure Corrupts (m after : Migration) (top store : Location) : Prop where
  state : after.state = .failed
  success : after.result.success = false
  available : ∃ s path, m.Keeps after top store s path ∧
    ∃ paths guidance, .corruption paths (some path) guidance ∈ after.result.errors

/-- The run was aborted behind its moves: a module that was to be edited holds a text in which an
edit has no place. -/
structure Aborts (m after : Migration) (top store : Location) : Prop where
  state : after.state = .moved
  errors : after.result.errors = []
  cause : ∃ p ∈ m.targets, ∃ b content, m.volume.disk.at? (spot top p) = some (.file b) ∧
    Text.decode b = .ok content ∧ m.rules.apply m.extract p (m.plan.finalPath p) content = .aborted
  available : ∃ s path, m.Keeps after top store s path

def ExactlyOne (a b c : Prop) : Prop := (a ∧ ¬ b ∧ ¬ c) ∨ (¬ a ∧ b ∧ ¬ c) ∨ (¬ a ∧ ¬ b ∧ c)

variable {m : Migration} {top store : Location} {s : Snapshot} {start : Disk} {loc : Location}

/-! ### Failures -/

section
variable (prepared : m.Prepared top store) (stored : m.Stored top store s loc start) {n : Migration}
  {f : Failure} (path : n.snapshotPath = some (pathOf loc))
  (repairs : s.Repairs top start m.volume.hazards n.volume)
include prepared stored path repairs

theorem recovers_of_clean (errors : n.errors = []) (harmless : f.isCorruption = false)
    (clean : (s.restore n.volume).1.isClean = true) :
    m.Recovers ((((n.record f).restored s).discardSnapshot.transition .rolledBack).transition
      .failed) top store := by
  have described := stored.fits.described
  obtain ⟨within, single, hazards⟩ := repairs
  have back := Snapshot.restore_clean described within single clean
  have gone : ∀ l, ¬ store <+: l → ((n.record f).restored s).discardSnapshot.volume.disk.at? l =
      (s.restore n.volume).2.disk.at? l := fun l outside => by
    rw [prepared.discardSnapshot_disk stored (n := (n.record f).restored s) path
      (Snapshot.restore_within described within single).1, stored.at?_erase outside]
    rfl
  constructor
  · rfl
  · rfl
  · change n.errors ++ [f] ≠ []
    simp
  · intro g member
    change g ∈ n.errors ++ [f] at member
    rw [errors, List.nil_append, List.mem_singleton] at member
    exact member ▸ harmless
  · intro l node outside there
    exact (gone l outside).trans (back.kept l node ((stored.same l outside).trans there))
  · intro l node outside absent there
    obtain ⟨dir, p, member, rfl⟩ := back.extra l node ((stored.same l outside).trans absent)
      ((gone l outside).symm.trans there)
    obtain ⟨_, move, listed, inside, _⟩ := (described.created _).mp ⟨p, member, rfl⟩
    exact ⟨dir, move, stored.fits.planned ▸ listed, inside⟩
  · intro sweeps l outside
    have same := Snapshot.restore_exact described within single
      (by rw [Volume.Sweeps, hazards]; exact sweeps) clean l
    exact (gone l outside).trans (same.trans (stored.same l outside))

omit repairs in
theorem keeps_of_within (held : n.snapshot = some s) (within : s.Within top start n.volume.disk) :
    m.Keeps n top store s (pathOf loc) := by
  have described := stored.fits.described
  have file := prepared.snapshot_file stored within
  refine ⟨held, ?_, (read_pathOf within.tree stored.valid).mpr file, stored.covers,
    fun g member => ?_, ?_⟩
  · change n.snapshotPath.filter n.volume.disk.exists? = _
    rw [path, Option.filter_some, exists?_pathOf within.tree stored.valid, file]
    rfl
  · rw [← stored.same _ (prepared.touched_outside (stored.held g member))]
    exact described.holds g member
  · intro p known free
    obtain ⟨plain, ⟨c, there⟩, outside⟩ := (mem_filesBelow prepared.tree prepared.here).mp known
    rw [there]
    refine within.files _ c ((stored.same _ outside).trans there) fun g member same => free ?_
    rw [← spot_inj (described.plainFiles g member) plain same]
    exact stored.held g member

theorem corrupts_of_failed (held : n.snapshot = some s) :
    m.Corrupts ((((n.record f).restored s).transition .failed).record
      (n.corrupted (s.restore n.volume).1)) top store := by
  have kept := (Snapshot.restore_within stored.fits.described repairs.within repairs.single).1
  have keeps := keeps_of_within prepared stored
    (n := (((n.record f).restored s).transition .failed).record
      (n.corrupted (s.restore n.volume).1)) path held kept
  refine ⟨rfl, rfl, s, pathOf loc, keeps, (s.restore n.volume).1.failures.map (·.1), guidance
    (some (pathOf loc)), ?_⟩
  change _ ∈ (n.errors ++ [f]) ++ [n.corrupted (s.restore n.volume).1]
  rw [corrupted, path]
  exact List.mem_append_right _ List.mem_cons_self

/-- A failure once the snapshot is stored: the tree is put back, or it is on record that it is not. -/
theorem fail_outcome (pending : n.state.isPending = true) (held : n.snapshot = some s)
    (errors : n.errors = []) (harmless : f.isCorruption = false) :
    ∃ g after, n.fail f = (.error g, after) ∧ after.errors ≠ [] ∧
      (m.Recovers after top store ∨ m.Corrupts after top store) := by
  cases clean : (s.restore n.volume).1.isClean with
  | true =>
    refine ⟨f, _, fail_clean pending held clean, ?_,
      Or.inl (recovers_of_clean prepared stored path repairs errors harmless clean)⟩
    change n.errors ++ [f] ≠ []
    simp
  | false =>
    refine ⟨_, _, fail_corrupted pending held clean, ?_,
      Or.inr (corrupts_of_failed prepared stored path repairs held)⟩
    change (n.errors ++ [f]) ++ [_] ≠ []
    simp

end

/-! ### Success -/

theorem image_of_edited (prepared : m.Prepared top store) (stored : m.Stored top store s loc start)
    {moved d : Disk} (moves : Moved top start m.plan.moves moved)
    (edits : m.Edited top moved m.targets d) {l : Location} {c : Text.Bytes}
    (below : top <+: l) (outside : ¬ store <+: l) :
    d.at? l = some (.file c) ↔
      ∃ p ∈ m.volume.disk.filesBelow top store, ∃ b, m.volume.disk.at? (spot top p) = some (.file b) ∧
        spot top (m.plan.finalPath p) = l ∧ m.outcome p b = c := by
  have fits := stored.fits
  -- A file of the tree before the snapshot is one since then, and the other way round.
  have known : ∀ p : Path, p ∈ m.volume.disk.filesBelow top store → ∀ b,
      m.volume.disk.at? (spot top p) = some (.file b) → p.IsPlain ∧ start.at? (spot top p) = some
        (.file b) := by
    intro p member b file
    obtain ⟨plain, _, apart⟩ := (mem_filesBelow prepared.tree prepared.here).mp member
    exact ⟨plain, (stored.same _ apart).trans file⟩
  have back : ∀ (p : Path) b, p.IsPlain → start.at? (spot top p) = some (.file b) →
      spot top (m.plan.finalPath p) = l →
      p ∈ m.volume.disk.filesBelow top store ∧ m.volume.disk.at? (spot top p) = some (.file b) := by
    intro p b plain file final
    have apart : ¬ store <+: spot top p := by
      rcases final_cases fits plain with ⟨move, member, source, _⟩ | ⟨_, stays⟩
      · obtain ⟨f, held, same⟩ := fits.described.covers move member
        rw [← source, ← same]
        exact prepared.touched_outside (stored.held f held)
      · rw [stays] at final
        exact final ▸ outside
    have there := (stored.same _ apart).symm.trans file
    exact ⟨(mem_filesBelow prepared.tree prepared.here).mpr ⟨plain, ⟨b, there⟩, apart⟩, there⟩
  -- Only the module itself is edited at its final path.
  have edited : ∀ (p q : Path) b, p.IsPlain → start.at? (spot top p) = some (.file b) → q ∈ m.targets →
      spot top (m.plan.finalPath q) = spot top (m.plan.finalPath p) → q = p := by
    intro p q b plain file target same
    obtain ⟨f, held, path⟩ := fits.edits q target
    exact final_inj fits (path ▸ fits.described.plainFiles f held) plain
      (path ▸ fits.described.holds f held) file same
  rw [edits.files]
  constructor
  · rintro (⟨q, target, final, b, file, result⟩ | ⟨file, unedited⟩)
    · obtain ⟨p, plain, origin, same⟩ := moves.origin fits below file
      obtain ⟨member, there⟩ := back p b plain origin same
      refine ⟨p, member, b, there, same, ?_⟩
      rw [outcome, ← edited p q b plain origin target (final.trans same.symm), if_pos target]
      exact result
    · obtain ⟨p, plain, origin, same⟩ := moves.origin fits below file
      obtain ⟨member, there⟩ := back p c plain origin same
      refine ⟨p, member, c, there, same, ?_⟩
      rw [outcome, if_neg fun target => unedited p target same]
  · rintro ⟨p, member, b, there, final, rfl⟩
    obtain ⟨plain, origin⟩ := known p member b there
    have file := moves.final fits plain origin
    rw [final] at file
    by_cases target : p ∈ m.targets
    · exact Or.inl ⟨p, target, final, b, file, by rw [outcome, if_pos target]⟩
    · rw [outcome, if_neg target]
      refine Or.inr ⟨file, fun q other same => target ?_⟩
      rwa [← edited p q b plain origin other (same.trans final.symm)]

/-- What all files hold once they are moved, they held at the start. -/
theorem final_start (prepared : m.Prepared top store) (stored : m.Stored top store s loc start)
    {moved : Disk} (moves : Moved top start m.plan.moves moved) {p : Path} (target : p ∈ m.targets)
    {b : Text.Bytes} (file : moved.at? (spot top (m.plan.finalPath p)) = some (.file b)) :
    m.volume.disk.at? (spot top p) = some (.file b) := by
  have fits := stored.fits
  obtain ⟨f, held, rfl⟩ := fits.edits p target
  have origin := fits.described.holds f held
  rw [moves.final fits (fits.described.plainFiles f held) origin] at file
  rw [← stored.same _ (prepared.touched_outside (stored.held f held)), origin]
  exact file

theorem elsewhere_of_within (stored : m.Stored top store s loc start) {d : Disk}
    (within : s.Within top start d) {l : Location} (beside : ¬ top <+: l) : d.at? l = start.at? l := by
  have below : ∀ p, spot top p ≠ l := fun p same => beside (same ▸ List.prefix_append _ _)
  cases there : start.at? l with
  | some n =>
    cases n with
    | dir => exact within.dirs l there
    | file c => exact within.files l c there fun f _ => below f.path
    | link target => exact (stored.fits.described.tree.linkless _ _ there).elim
  | none =>
    cases found : d.at? l with
    | none => rfl
    | some n =>
      rcases within.others l n there found with ⟨_, p, _, same⟩ | ⟨_, move, _, same⟩
      · exact (below p same).elim
      · exact (below move.target same).elim

/-! ### Runs -/

def Fails (m : Migration) (top store : Location) (result : Outcome) : Prop :=
  (∃ g after, result = (.error g, after) ∧ after.errors ≠ [] ∧
    (m.Recovers after top store ∨ m.Corrupts after top store)) ∨
  ∃ after, result = (.error (.io .aborted), after) ∧ m.Aborts after top store

def Ends (m : Migration) (top store : Location) (result : Outcome) : Prop :=
  (∃ after, result = (.ok (), after) ∧ m.Commits after top store) ∨ m.Fails top store result

def signalled (m : Migration) (signal : Bool) : Migration :=
  { m with cancelled := signal || m.cancelled }

theorem signal_eq (m : Migration) (signal : Bool) :
    (if signal = true then m.cancel else m) = m.signalled signal := by
  cases signal <;> rfl

theorem Ends.andThen {result : Outcome} {next : Migration → Outcome}
    (first : (∃ n, result = (.ok (), n) ∧ m.Ends top store (next n)) ∨ m.Fails top store result) :
    m.Ends top store (Migration.andThen result next) := by
  rcases first with ⟨n, rfl, ends⟩ | ⟨g, after, rfl, rest⟩ | ⟨after, rfl, aborts⟩
  · exact ends
  · exact Or.inr (Or.inl ⟨g, after, rfl, rest⟩)
  · exact Or.inr (Or.inr ⟨after, rfl, aborts⟩)

section
variable {n : Migration} (prepared : m.Prepared top store)
    (underway : m.Underway n top store s loc start)
include prepared underway

theorem Underway.fail (pending : n.state.isPending = true) {f : Failure}
    (harmless : f.isCorruption = false) : m.Fails top store (n.fail f) :=
  Or.inl (fail_outcome prepared underway.stored underway.path underway.repairs pending underway.held
    underway.errors harmless)

theorem Underway.abort (state : n.state = .moved) {moved : Disk}
    (moves : Moved top start m.plan.moves moved)
    (stuck : n.Stuck top moved) : m.Fails top store (.error (.io .aborted), n) := by
  have stored := underway.stored
  obtain ⟨p, target, b, content, file, text, aborted⟩ := stuck
  rw [underway.targets] at target
  rw [underway.plan] at file
  rw [underway.rules, underway.extract, underway.plan] at aborted
  refine Or.inr ⟨n, rfl, state, underway.errors, ?_, s, pathOf loc, ?_⟩
  · exact ⟨p, target, b, content, final_start prepared stored moves target file, text, aborted⟩
  · exact keeps_of_within prepared stored underway.path underway.held underway.repairs.within

theorem commit_ends (state : n.state = .verified) (count : n.filesMoved = m.plan.moves.length)
    {moved : Disk} (moves : Moved top start m.plan.moves moved)
    (edits : m.Edited top moved m.targets n.volume.disk) : m.Ends top store n.commit := by
  rcases commit_cases state with cancelled | committed
  · rw [cancelled]
    exact Or.inr (underway.fail prepared (by rw [state]; rfl) rfl)
  · rw [committed]
    have within := underway.repairs.within
    have stored := underway.stored
    have gone : ∀ l, ¬ store <+: l → n.discardSnapshot.volume.disk.at? l = n.volume.disk.at? l :=
      fun l outside => by
      rw [prepared.discardSnapshot_disk stored underway.path within, stored.at?_erase outside]
    refine Or.inl ⟨_, rfl, rfl, rfl, underway.errors, count, fun p target => ?_,
      fun l c below outside => ?_, fun l beside outside => ?_⟩
    · obtain ⟨b, file, revises⟩ := edits.revised p target
      exact ⟨b, final_start prepared stored moves target file, revises⟩
    · exact (congrArg (· = some (.file c)) (gone l outside)).to_iff.trans
        (image_of_edited prepared stored moves edits below outside)
    · exact (gone l outside).trans ((elsewhere_of_within stored within beside).trans
        (stored.same l outside))

variable {probe : Probe} (spares : ∀ root seconds d, (probe root seconds d).2 = d) (seconds : Nat)
  (signals : MigrationStep → Bool)
include spares

theorem verify_ends (state : n.state = .edited) (count : n.filesMoved = m.plan.moves.length)
    {moved : Disk} (moves : Moved top start m.plan.moves moved)
    (edits : m.Edited top moved m.targets n.volume.disk) :
    m.Ends top store (andThen (n.verify probe seconds) fun n =>
      (n.signalled (signals .commit)).commit) := by
  have probed : n.probed probe seconds =
      { n with verification := some (probe n.root seconds n.volume.disk).1 } := by
    unfold Migration.probed
    rw [spares]
  refine Ends.andThen ?_
  rcases verify_cases state probe seconds with cancelled | ⟨f, harmless, failed⟩ | passed
  · rw [cancelled]
    exact Or.inr (underway.fail prepared (by rw [state]; rfl) rfl)
  · rw [failed, probed]
    have still : m.Underway { n with verification := some (probe n.root seconds n.volume.disk).1 }
        top store s loc start :=
      { underway with }
    exact Or.inr (still.fail prepared (by change n.state.isPending = true; rw [state]; rfl) harmless)
  · rw [passed, probed]
    have still : m.Underway
        (({ n with verification := some (probe n.root seconds n.volume.disk).1 } :
          Migration).transition .verified |>.signalled (signals .commit)) top store s loc start :=
      { underway with }
    exact Or.inl ⟨_, rfl, commit_ends prepared still rfl count moves edits⟩

variable (honest : m.volume.Honest)
include honest

theorem edits_end (state : n.state = .moved) (count : n.filesMoved = m.plan.moves.length)
    (moves : Moved top start m.plan.moves n.volume.disk) :
    m.Ends top store (andThen n.applyEdits fun n =>
      andThen ((n.signalled (signals .verify)).verify probe seconds) fun n =>
      (n.signalled (signals .commit)).commit) := by
  have distinct : n.targets.Nodup := underway.targets ▸ prepared.distinct
  refine Ends.andThen ?_
  rcases applyEdits_cases state underway.fits (underway.root.trans underway.stored.root) distinct
    underway.repairs with
    ⟨v, k, f, repairs, harmless, failed⟩ | ⟨v, k, repairs, stuck, aborted⟩
      | ⟨v, k, repairs, edits, done⟩
  · have still : m.Underway { n with volume := v, filesEdited := k } top store s loc start :=
      { underway with repairs := repairs }
    rw [failed]
    exact Or.inr (still.fail prepared (by change n.state.isPending = true; rw [state]; rfl) harmless)
  · have still : m.Underway { n with volume := v, filesEdited := k } top store s loc start :=
      { underway with repairs := repairs }
    rw [aborted]
    exact Or.inr (still.abort prepared state moves
      (stuck (by rw [Volume.Honest, repairs.hazards]; exact honest)))
  · have still : m.Underway
        (({ n with volume := v, filesEdited := k } : Migration).transition .edited
          |>.signalled (signals .verify)) top store s loc start :=
      { underway with repairs := repairs }
    have edits := (edits (by rw [Volume.Honest, repairs.hazards]; exact honest)).congr underway.plan
      underway.rules underway.extract
    rw [underway.targets] at edits
    rw [done]
    exact Or.inl ⟨_, rfl, verify_ends prepared still spares seconds signals rfl count moves edits⟩

theorem moves_end (state : n.state = .snapshotted) (count : n.filesMoved = 0)
    (disk : n.volume.disk = start) : m.Ends top store (andThen n.applyMoves fun n =>
      andThen (n.signalled (signals .applyEdits)).applyEdits fun n =>
      andThen ((n.signalled (signals .verify)).verify probe seconds) fun n =>
      (n.signalled (signals .commit)).commit) := by
  refine Ends.andThen ?_
  rcases applyMoves_cases state underway.fits (underway.root.trans underway.stored.root)
    underway.repairs (disk ▸ moved_start) with ⟨v, k, f, repairs, harmless, failed⟩
    | ⟨v, repairs, moves, done⟩
  · have still : m.Underway { n with volume := v, filesMoved := k } top store s loc start :=
      { underway with repairs := repairs }
    rw [failed]
    exact Or.inr (still.fail prepared (by change n.state.isPending = true; rw [state]; rfl) harmless)
  · have still : m.Underway
        (({ n with volume := v, filesMoved := n.filesMoved + n.plan.moves.length } :
          Migration).transition .moved |>.signalled (signals .applyEdits)) top store s loc start :=
      { underway with repairs := repairs }
    have all : n.filesMoved + n.plan.moves.length = m.plan.moves.length := by
      rw [count, Nat.zero_add, underway.plan]
    rw [underway.plan] at moves
    rw [done]
    exact Or.inl ⟨_, rfl, edits_end prepared still spares seconds signals honest rfl all moves⟩

end

theorem runSteps_ends (prepared : m.Prepared top store) (fresh : m.Fresh) (honest : m.volume.Honest)
    {probe : Probe} (spares : ∀ root seconds d, (probe root seconds d).2 = d) (seconds : Nat)
    (signals : MigrationStep → Bool) : m.Ends top store (m.runSteps probe seconds signals) := by
  unfold runSteps
  simp only [signal_eq]
  have ready : (m.signalled (signals .snapshot)).Prepared top store :=
    { prepared with }
  refine Ends.andThen ?_
  rcases takeSnapshot_cases (m := m.signalled (signals .snapshot))
    fresh.state with
    ⟨v, f, unstored, harmless, failed⟩ | ⟨s, v, path, disk, read, written, taken⟩
  · have same := ready.unstored unstored
    rw [failed, fail_early (by change m.state.isPending = false; rw [fresh.state]; rfl)]
    refine Or.inr (Or.inl ⟨f, _, rfl, ?_, Or.inl ⟨rfl, rfl, ?_, ?_, ?_, ?_, fun _ => same⟩⟩)
    · change m.errors ++ [f] ≠ []
      simp
    · change m.errors ++ [f] ≠ []
      simp
    · intro g member
      change g ∈ m.errors ++ [f] at member
      rw [fresh.errors, List.nil_append, List.mem_singleton] at member
      exact member ▸ harmless
    · exact fun l n outside there => (same l outside).trans there
    · intro l n outside absent there
      cases (same l outside).symm.trans there |>.symm.trans absent
  · obtain ⟨loc, rfl, stored, repairs⟩ := prepared.stored read written
    have underway :
        m.Underway (((m.signalled (signals .snapshot)).withSnapshot s (pathOf loc)
          { v with disk }).signalled (signals .applyMoves)) top store s loc disk :=
      { stored := stored, root := rfl, plan := rfl, rules := rfl, targets := rfl, extract := rfl
        held := rfl, path := rfl, errors := fresh.errors, repairs := repairs }
    rw [taken]
    exact Or.inl ⟨_, rfl, moves_end prepared underway spares seconds signals honest rfl
      fresh.filesMoved rfl⟩

theorem run_of_ends {probe : Probe} {seconds : Nat} {signals : MigrationStep → Bool}
    (ends : m.Ends top store (m.runSteps probe seconds signals)) :
    m.Commits (m.run probe seconds signals) top store ∨
    m.Recovers (m.run probe seconds signals) top store ∨
      m.Corrupts (m.run probe seconds signals) top store ∨
      m.Aborts (m.run probe seconds signals) top store := by
  unfold run
  rcases ends with ⟨after, result, commits⟩ | ⟨g, after, result, recorded, rest⟩
    | ⟨after, result, aborts⟩
  · rw [result]
    exact Or.inl commits
  · have filled : after.errors.isEmpty = false := by
      rw [← Bool.not_eq_true, List.isEmpty_iff]
      exact recorded
    rw [result]
    refine Or.inr ?_
    split
    · rename_i same
      cases same
    · rename_i same
      cases same
      exact rest.imp_right Or.inl
    · rename_i same
      cases same
      rw [filled]
      exact rest.imp_right Or.inl
  · rw [result]
    exact Or.inr (Or.inr (Or.inr aborts))

/-- The three ends exclude each other, and a run that is aborted has come to none of them. -/
theorem run_ends {after : Migration} (ends : m.Commits after top store ∨ m.Recovers after top store ∨
    m.Corrupts after top store ∨ m.Aborts after top store) :
    (after.state.isFinal = true ∧
      ExactlyOne (m.Commits after top store) (m.Recovers after top store)
        (m.Corrupts after top store)) ∨
    (after.state.isFinal = false ∧ m.Aborts after top store) := by
  have apart : m.Commits after top store → ¬ after.state = .failed := by
    intro commits failed
    rw [commits.state] at failed
    cases failed
  have clear : m.Recovers after top store → ¬ m.Corrupts after top store := by
    intro recovers corrupts
    obtain ⟨_, _, _, _, _, listed⟩ := corrupts.available
    cases recovers.errors _ listed
  rcases ends with commits | recovers | corrupts | aborts
  · refine Or.inl ⟨by rw [commits.state]; rfl, Or.inl ⟨commits, ?_, ?_⟩⟩
    · exact fun other => apart commits other.state
    · exact fun other => apart commits other.state
  · refine Or.inl ⟨by rw [recovers.state]; rfl, Or.inr (Or.inl ⟨?_, recovers, clear recovers⟩)⟩
    exact fun other => apart other recovers.state
  · refine Or.inl ⟨by rw [corrupts.state]; rfl, Or.inr (Or.inr
      ⟨?_, fun other => clear other corrupts, corrupts⟩)⟩
    exact fun other => apart other corrupts.state
  · exact Or.inr ⟨by rw [aborts.state]; rfl, aborts⟩

theorem Aborts.misfit {after : Migration} (aborts : m.Aborts after top store) :
    ¬ Extractor.SpansFit m.extract := by
  intro fits
  obtain ⟨p, _, _, content, _, _, aborted⟩ := aborts.cause
  obtain ⟨_, done, _⟩ := m.rules.apply_of_spansFit fits p (m.plan.finalPath p) content
  cases aborted.symm.trans done

/-- Whatever fails and whenever it is cancelled, a run that comes to its end does everything, or
leaves the tree as it was, or says that it could not and keeps the snapshot. Only an edit that has
no place in its text keeps a run from its end, and never if all that an extractor would have edited
are stretches of the text. -/
theorem run_all_or_nothing (m : Migration) (top store : Location) (probe : Probe) (seconds : Nat)
    (signals : MigrationStep → Bool) (prepared : m.Prepared top store) (fresh : m.Fresh)
    (honest : m.volume.Honest) (spares : ∀ root seconds d, (probe root seconds d).2 = d) :
    let after := m.run probe seconds signals
    (after.state.isFinal = true →
      ExactlyOne (m.Commits after top store) (m.Recovers after top store)
        (m.Corrupts after top store)) ∧
    (after.state.isFinal = false → m.Aborts after top store) ∧
    (Extractor.SpansFit m.extract → after.state.isFinal = true) := by
  intro after
  rcases run_ends (run_of_ends (runSteps_ends prepared fresh honest spares seconds signals)) with
    ⟨final, one⟩ | ⟨stopped, aborts⟩
  · refine ⟨fun _ => one, fun stopped => ?_, fun _ => final⟩
    cases final.symm.trans stopped
  · refine ⟨fun final => ?_, fun _ => aborts, fun fits => (aborts.misfit fits).elim⟩
    cases final.symm.trans stopped

/-- A reference that lies behind the end of the text aborts the run. -/
example :
    ({ specimen (fun _ _ => .none) with
        extract := fun path _ => ⟨path, [⟨path, "./a", .static, ⟨5, 8⟩, 1, false⟩], {}, 0⟩ }.run
      lenient 60).state = .moved := by
  decide +kernel

theorem run_all_or_nothing_brittle :
    (specimen brittle).Prepared ["project"] ["store"] ∧ (specimen brittle).volume.Honest ∧
      Extractor.SpansFit (specimen brittle).extract ∧
      ExactlyOne
        ((specimen brittle).Commits ((specimen brittle).run lenient 60 fun _ => false) ["project"]
          ["store"])
        ((specimen brittle).Recovers ((specimen brittle).run lenient 60 fun _ => false) ["project"]
          ["store"])
        ((specimen brittle).Corrupts ((specimen brittle).run lenient 60 fun _ => false) ["project"]
          ["store"]) := by
  have honest : (specimen brittle).volume.Honest := by
    intro past c content
    change brittle past c ≠ .garble content
    unfold brittle
    split <;> simp
  have fits : Extractor.SpansFit (specimen brittle).extract := fun _ _ r found => nomatch found
  obtain ⟨one, _, ended⟩ := run_all_or_nothing (specimen brittle) ["project"] ["store"] lenient 60
    (fun _ => false) (specimen_prepared brittle) (specimen_fresh brittle) honest fun _ _ _ => rfl
  exact ⟨specimen_prepared brittle, honest, fits, one (ended fits)⟩

end Relocation.Migration
