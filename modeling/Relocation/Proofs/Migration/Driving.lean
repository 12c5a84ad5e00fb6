import Relocation.Proofs.Migration.Prepared

/-!
# Driving a migration

The steps of a migration can be asked for in any order and any number of times. Whatever is asked
for and whatever the disk and the probes do, a migration climbs from state to state, or leaves the
climb once for good. Its history shows which, and until then it holds what a rollback needs.
-/

namespace Relocation

inductive Request where
  | snapshot
  | applyMoves
  | applyEdits
  | verify (probe : Probe) (seconds : Nat)
  | commit
  | rollBack
  | cancel

def Request.Spares (store : Location) : Request → Prop
  | .verify probe _ => ∀ root seconds d l, store <+: l → (probe root seconds d).2.at? l = d.at? l
  | _ => True

/-- Cancelling is no step: it only raises a flag. -/
def Request.step? : Request → Option MigrationStep
  | .snapshot => some .snapshot
  | .applyMoves => some .applyMoves
  | .applyEdits => some .applyEdits
  | .verify _ _ => some .verify
  | .commit => some .commit
  | .rollBack => some .rollBack
  | .cancel => none

def MigrationStep.accepts : MigrationStep → MigrationState → Bool
  | .snapshot, s => s = .idle
  | .applyMoves, s => s = .snapshotted
  | .applyEdits, s => s = .moved
  | .verify, s => s = .edited
  | .commit, s => s = .verified
  | .rollBack, s => s.isPending

namespace MigrationState

def ladder : List MigrationState := [.idle, .snapshotted, .moved, .edited, .verified, .committed]

def track (s : MigrationState) : List MigrationState := ladder.take (ladder.idxOf s + 1)

theorem track_start (s : MigrationState) : track s <+: ladder := List.take_prefix _ _

theorem track_ne_nil (s : MigrationState) : track s ≠ [] := by cases s <;> decide

theorem getLast?_track {s : MigrationState} (on : s ∈ ladder) : (track s).getLast? = some s := by
  revert s
  decide

theorem ladder_of_pending {s : MigrationState} (pending : s.isPending = true) : s ∈ ladder := by
  cases s <;> first | decide | cases pending

theorem not_pending_of_final {s : MigrationState} (final : s.isFinal = true) :
    s.isPending = false := by
  cases s <;> first | rfl | cases final

theorem accepts_final {s : MigrationState} (final : s.isFinal = true) (step : MigrationStep) :
    step.accepts s = false := by
  cases s <;> cases step <;> first | rfl | cases final

end MigrationState

namespace Migration

open MigrationState

def perform (m : Migration) : Request → Outcome
  | .snapshot => m.takeSnapshot
  | .applyMoves => m.applyMoves
  | .applyEdits => m.applyEdits
  | .verify probe seconds => m.verify probe seconds
  | .commit => m.commit
  | .rollBack => m.rollback
  | .cancel => (.ok (), m.cancel)

def drive (m : Migration) (requests : List Request) : Migration :=
  requests.foldl (fun m request => (m.perform request).2) m

/-- The last thing that happened to the tree was a restore that left something undone. -/
def Unrestored (m : Migration) : Prop :=
  ∃ s v, m.snapshot = some s ∧ (s.restore v).1.isClean = false ∧ m.volume = (s.restore v).2

/-- How a history can go on behind the part that climbed the ladder. -/
inductive Ending (unrestored : Prop) (front : List MigrationState) : List MigrationState → Prop where
  | climbing : Ending unrestored front []
  | unstarted (idle : front = [.idle]) : Ending unrestored front [.failed]
  | undone {s : MigrationState} (last : front.getLast? = some s) (pending : s.isPending = true) :
    Ending unrestored front [.rolledBack]
  | abandoned {s : MigrationState} (last : front.getLast? = some s) (pending : s.isPending = true) :
    Ending unrestored front [.rolledBack, .failed]
  | corrupted {s : MigrationState} (last : front.getLast? = some s) (pending : s.isPending = true)
    (left : unrestored) : Ending unrestored front [.failed]

def Course (m : Migration) : Prop :=
  ∃ front tail, front ≠ [] ∧ front <+: ladder ∧ m.history = front ++ tail ∧
    Ending m.Unrestored front tail

/-! ### What a request can do -/

variable {m n : Migration} {request : Request} {step : MigrationStep}

theorem perform_misplaced (asked : request.step? = some step)
    (refused : step.accepts m.state = false) :
    m.perform request = (.error (m.misplaced step), m) := by
  have stepped : ∀ {s expected act}, decide (m.state = expected) = false →
      m.step s expected act = (.error (m.misplaced s), m) := by
    intro s expected act different
    rcases m.step_cases s expected act with ⟨_, same⟩ | ⟨same, _⟩
    · exact same
    · simp [same] at different
  cases request with
  | cancel => cases asked
  | rollBack =>
    cases asked
    change m.rollback = _
    unfold rollback
    rw [show m.state.isPending = false from refused]
  | snapshot =>
    cases asked
    unfold perform takeSnapshot
    exact stepped refused
  | applyMoves =>
    cases asked
    unfold perform applyMoves
    exact stepped refused
  | applyEdits =>
    cases asked
    unfold perform applyEdits
    exact stepped refused
  | verify probe seconds =>
    cases asked
    unfold perform verify
    exact stepped refused
  | commit =>
    cases asked
    unfold perform commit
    exact stepped refused

/-- The two migrations stand at the same point, whatever has become of the tree. -/
structure Alike (m n : Migration) : Prop where
  state : n.state = m.state
  history : n.history = m.history
  snapshot : n.snapshot = m.snapshot
  snapshotPath : n.snapshotPath = m.snapshotPath

inductive Granted (m : Migration) : Outcome → Prop where
  | failed {n : Migration} {f : Failure} (alike : Alike m n) (climbing : m.state = .idle ∨
    m.state.isPending = true) :
    Granted m (n.fail f)
  | stored {s : Snapshot} {path : Path} {v : Volume} (idle : m.state = .idle) :
    Granted m (.ok (), m.withSnapshot s path v)
  | advanced {n : Migration} {next : MigrationState} (alike : Alike m n)
    (pending : m.state.isPending = true) (climbs : track m.state ++ [next] = track next)
      (later : next.isPending = true) :
    Granted m (.ok (), n.transition next)
  | aborted {n : Migration} (alike : Alike m n) : Granted m (.error (.io .aborted), n)
  | committed (verified : m.state = .verified) : Granted m
    (.ok (), m.discardSnapshot.transition .committed)
  | rolledBack (pending : m.state.isPending = true) : Granted m m.rollback

theorem applyMoves_granted (state : m.state = .snapshotted) : Granted m m.applyMoves := by
  have pending : m.state.isPending = true := by rw [state]; rfl
  unfold applyMoves
  rcases m.step_cases .applyMoves .snapshotted _ with ⟨other, _⟩ | ⟨_, cancelled | acts⟩
  · exact (other state).elim
  · rw [cancelled]
    exact .failed ⟨rfl, rfl, rfl, rfl⟩ (Or.inr pending)
  · rw [acts]
    rcases moveAll_spec (fun _ _ => True) (fun _ => True) [] m.plan.moves m
      (fun _ _ _ _ _ _ => by split <;> trivial) trivial with ⟨v, k, f, _, _, failed⟩ | ⟨v, _, done⟩
    · rw [failed]
      exact .failed ⟨rfl, rfl, rfl, rfl⟩ (Or.inr pending)
    · rw [done]
      exact .advanced ⟨rfl, rfl, rfl, rfl⟩ pending (by rw [state]; rfl) rfl

theorem applyEdits_granted (state : m.state = .moved) : Granted m m.applyEdits := by
  have pending : m.state.isPending = true := by rw [state]; rfl
  unfold applyEdits
  rcases m.step_cases .applyEdits .moved _ with ⟨other, _⟩ | ⟨_, cancelled | acts⟩
  · exact (other state).elim
  · rw [cancelled]
    exact .failed ⟨rfl, rfl, rfl, rfl⟩ (Or.inr pending)
  · rw [acts]
    have ends := editAll_ends (fun _ _ _ => True) (fun _ => True) [] m.targets m
      (fun _ _ _ _ _ _ _ => by split <;> trivial) trivial
    generalize m.editAll m.targets = result at ends ⊢
    cases ends with
    | failed => exact .failed ⟨rfl, rfl, rfl, rfl⟩ (Or.inr pending)
    | aborted => exact .aborted ⟨rfl, rfl, rfl, rfl⟩
    | done => exact .advanced ⟨rfl, rfl, rfl, rfl⟩ pending (by rw [state]; rfl) rfl

theorem perform_granted (asked : request.step? = some step) (accepted : step.accepts m.state = true) :
    Granted m (m.perform request) := by
  cases request with
  | cancel => cases asked
  | snapshot =>
    cases asked
    have state : m.state = .idle := by simpa [MigrationStep.accepts] using accepted
    change Granted m m.takeSnapshot
    rcases takeSnapshot_cases state with ⟨v, f, _, _, failed⟩ | ⟨s, v, path, disk, _, _, stored⟩
    · rw [failed]
      exact .failed ⟨rfl, rfl, rfl, rfl⟩ (Or.inl state)
    · rw [stored]
      exact .stored state
  | applyMoves =>
    cases asked
    exact applyMoves_granted (by simpa [MigrationStep.accepts] using accepted)
  | applyEdits =>
    cases asked
    exact applyEdits_granted (by simpa [MigrationStep.accepts] using accepted)
  | verify probe seconds =>
    cases asked
    have state : m.state = .edited := by simpa [MigrationStep.accepts] using accepted
    have pending : m.state.isPending = true := by rw [state]; rfl
    change Granted m (m.verify probe seconds)
    rcases verify_cases state probe seconds with cancelled | ⟨f, _, failed⟩ | passed
    · rw [cancelled]
      exact .failed ⟨rfl, rfl, rfl, rfl⟩ (Or.inr pending)
    · rw [failed]
      exact .failed ⟨rfl, rfl, rfl, rfl⟩ (Or.inr pending)
    · rw [passed]
      exact .advanced ⟨rfl, rfl, rfl, rfl⟩ pending (by rw [state]; rfl) rfl
  | commit =>
    cases asked
    have state : m.state = .verified := by simpa [MigrationStep.accepts] using accepted
    change Granted m m.commit
    rcases commit_cases state with cancelled | done
    · rw [cancelled]
      exact .failed ⟨rfl, rfl, rfl, rfl⟩ (Or.inr (by rw [state]; rfl))
    · rw [done]
      exact .committed state
  | rollBack =>
    cases asked
    exact .rolledBack accepted

/-! ### What a request keeps -/

/-- The migration is on the ladder and can be rolled back where it has to be. -/
structure Climbing (m : Migration) : Prop where
  on : m.state ∈ ladder
  history : m.history = track m.state
  held : m.state.isPending = true → ∃ s path, m.snapshot = some s ∧ m.snapshotPath = some path

structure Over (m : Migration) : Prop where
  final : m.state.isFinal = true
  left : ∃ front tail, m.history = track front ++ tail ∧ tail.getLast? = some m.state ∧
    Ending m.Unrestored (track front) tail

theorem Climbing.alike (climbing : m.Climbing) (alike : Alike m n) : n.Climbing := by
  obtain ⟨state, history, snapshot, path⟩ := alike
  refine ⟨by rw [state]; exact climbing.on, by rw [history, state]; exact climbing.history, ?_⟩
  rw [state, snapshot, path]
  exact climbing.held

theorem Climbing.rollback (climbing : m.Climbing) (pending : m.state.isPending = true) :
    m.rollback.2.Over := by
  obtain ⟨s, _, held, _⟩ := climbing.held pending
  have last := getLast?_track climbing.on
  cases clean : (s.restore m.volume).1.isClean with
  | true =>
    rw [rollback_clean pending held clean]
    exact ⟨rfl, m.state, [.rolledBack], congrArg (· ++ _) climbing.history, rfl, .undone last pending⟩
  | false =>
    rw [rollback_corrupted pending held clean]
    exact ⟨rfl, m.state, [.failed], congrArg (· ++ _) climbing.history, rfl,
      .corrupted last pending ⟨s, m.volume, held, clean, rfl⟩⟩

theorem Climbing.fail (climbing : m.Climbing)
    (stoppable : m.state = .idle ∨ m.state.isPending = true) (f : Failure) : (m.fail f).2.Over := by
  rcases stoppable with idle | pending
  · rw [fail_early (by rw [idle]; rfl)]
    refine ⟨rfl, .idle, [.failed], ?_, rfl, .unstarted rfl⟩
    change m.history ++ _ = _
    rw [climbing.history, idle]
  · obtain ⟨s, _, held, _⟩ := climbing.held pending
    have last := getLast?_track climbing.on
    cases clean : (s.restore m.volume).1.isClean with
    | true =>
      rw [fail_clean pending held clean]
      refine ⟨rfl, m.state, [.rolledBack, .failed], ?_, rfl, .abandoned last pending⟩
      change m.history ++ [.rolledBack] ++ [.failed] = _
      rw [climbing.history, List.append_assoc]
      rfl
    | false =>
      rw [fail_corrupted pending held clean]
      exact ⟨rfl, m.state, [.failed], congrArg (· ++ _) climbing.history, rfl,
        .corrupted last pending ⟨s, m.volume, held, clean, rfl⟩⟩

theorem Granted.kept {result : Outcome} (granted : Granted m result) (climbing : m.Climbing) :
    result.2.Climbing ∨ result.2.Over := by
  cases granted with
  | failed alike stoppable => exact Or.inr ((climbing.alike alike).fail (alike.state ▸ stoppable) _)
  | stored idle =>
    refine Or.inl ⟨show MigrationState.snapshotted ∈ ladder by decide, ?_, fun _ => ⟨_, _, rfl, rfl⟩⟩
    change m.history ++ _ = _
    rw [climbing.history, idle]
    rfl
  | advanced alike pending climbs later =>
    obtain ⟨s, path, held, known⟩ := climbing.held pending
    refine Or.inl ⟨ladder_of_pending later, ?_, fun _ => ⟨s, path, alike.snapshot.trans held,
      alike.snapshotPath.trans known⟩⟩
    exact (congrArg (· ++ _) (alike.history.trans climbing.history)).trans climbs
  | aborted alike => exact Or.inl (climbing.alike alike)
  | committed verified =>
    refine Or.inl ⟨show MigrationState.committed ∈
      ladder by decide, ?_, fun pending => by cases pending⟩
    change m.history ++ _ = _
    rw [climbing.history, verified]
    rfl
  | rolledBack pending => exact Or.inr (climbing.rollback pending)

/-- What is granted is not refused: the state changes, or the run is aborted. -/
theorem Granted.not_misplaced {result : Outcome} (granted : Granted m result) (climbing : m.Climbing)
    (step : MigrationStep) : result ≠ (.error (m.misplaced step), m) := by
  have leaves : ∀ {after : Migration}, after.Over → (m.state = .idle ∨ m.state.isPending = true) →
      after ≠ m := by
    rintro after ended stoppable rfl
    have final := ended.final
    rcases stoppable with idle | pending
    · rw [idle] at final
      cases final
    · rw [MigrationState.not_pending_of_final final] at pending
      cases pending
  intro same
  cases granted with
  | failed alike stoppable =>
    exact leaves ((climbing.alike alike).fail (alike.state ▸ stoppable) _) stoppable
      (congrArg Prod.snd same)
  | rolledBack pending =>
    exact leaves (climbing.rollback pending) (Or.inr pending) (congrArg Prod.snd same)
  | stored | advanced | committed => cases congrArg Prod.fst same
  | aborted => cases congrArg Prod.fst same

theorem perform_kept (request : Request) (placed : m.Climbing ∨ m.Over) :
    (m.perform request).2.Climbing ∨ (m.perform request).2.Over := by
  cases asked : request.step? with
  | none =>
    cases request <;> cases asked
    rcases placed with ⟨on, history, held⟩ | ⟨final, left⟩
    · exact Or.inl ⟨on, history, held⟩
    · exact Or.inr ⟨final, left⟩
  | some step =>
    cases accepted : step.accepts m.state with
    | false =>
      rw [perform_misplaced asked accepted]
      exact placed
    | true =>
      rcases placed with climbing | ended
      · exact (perform_granted asked accepted).kept climbing
      · rw [accepts_final ended.final] at accepted
        cases accepted

theorem drive_kept (placed : m.Climbing ∨ m.Over) (requests : List Request) :
    (m.drive requests).Climbing ∨ (m.drive requests).Over := by
  induction requests generalizing m with
  | nil => exact placed
  | cons request rest ih => exact ih (perform_kept request placed)

theorem drive_final (final : m.state.isFinal = true) (requests : List Request) :
    ∃ flag, m.drive requests = { m with cancelled := flag } := by
  induction requests generalizing m with
  | nil => exact ⟨m.cancelled, rfl⟩
  | cons request rest ih =>
    cases asked : request.step? with
    | none =>
      cases request <;> cases asked
      obtain ⟨flag, same⟩ := ih (m := m.cancel) final
      exact ⟨flag, same⟩
    | some step =>
      have same := perform_misplaced asked (accepts_final final step)
      unfold drive
      rw [List.foldl_cons, same]
      exact ih final

/-! ### The snapshot file -/

section
variable {top store : Location}

/-- The file of the snapshot is in its place as long as it may be needed. -/
structure Guarded (m n : Migration) (top store : Location) : Prop where
  untouched : n.state = .idle → n = { m with cancelled := n.cancelled }
  pending : n.state.isPending = true → ∃ s loc start, n.snapshot = some s ∧ n.snapshotPath = some
    (Disk.pathOf loc) ∧ n.volume.disk.at? loc = some (.file s.encode) ∧
    (n.state ≠ .verified → m.Underway n top store s loc start ∧
      (n.state = .snapshotted → n.volume.disk = start))

theorem guarded_final (final : n.state.isFinal = true) : Guarded m n top store := by
  constructor
  · intro idle
    rw [idle] at final
    cases final
  · intro pending
    rw [MigrationState.not_pending_of_final final] at pending
    cases pending

theorem Guarded.cancel (guarded : Guarded m n top store) : Guarded m n.cancel top store := by
  constructor
  · intro idle
    have same := guarded.untouched idle
    rw [same]
    rfl
  · intro pending
    obtain ⟨s, loc, start, held, path, file, rest⟩ := guarded.pending pending
    refine ⟨s, loc, start, held, path, file, fun open' => ?_⟩
    obtain ⟨underway, disk⟩ := rest open'
    exact ⟨{ underway with }, disk⟩

variable (prepared : m.Prepared top store) (guarded : Guarded m n top store) (climbing : n.Climbing)
include prepared guarded climbing

theorem Guarded.takeSnapshot (fresh : m.Fresh) (idle : n.state = .idle) :
    Guarded m n.takeSnapshot.2 top store := by
  rcases takeSnapshot_cases idle with ⟨v, f, _, _, failed⟩ | ⟨s, v, path, disk, read, written, stored⟩
  · rw [failed]
    exact guarded_final ((climbing.alike (n := { n with volume := v }) ⟨rfl, rfl, rfl, rfl⟩).fail
      (Or.inl idle) f).final
  · have same := guarded.untouched idle
    generalize n.cancelled = flag at same
    subst same
    rw [stored]
    obtain ⟨loc, rfl, kept, repairs⟩ := prepared.stored read written
    refine ⟨fun other => (by cases other), fun _ => ⟨s, loc, disk, rfl, rfl, kept.file,
      fun _ => ⟨?_, fun _ => rfl⟩⟩⟩
    exact { stored := kept, root := rfl, plan := rfl, rules := rfl, targets := rfl, extract := rfl,
            held := rfl, path := rfl, errors := fresh.errors, repairs := repairs }

theorem Guarded.applyMoves (state : n.state = .snapshotted) : Guarded m n.applyMoves.2 top store := by
  have pending : n.state.isPending = true := by rw [state]; rfl
  obtain ⟨s, loc, start, held, path, _, rest⟩ := guarded.pending pending
  obtain ⟨underway, disk⟩ := rest (by rw [state]; decide)
  rcases applyMoves_cases state underway.fits (underway.root.trans underway.stored.root)
    underway.repairs (by rw [disk state]; exact moved_start) with ⟨v, k, f, _, _, failed⟩
    | ⟨v, repairs, _, done⟩
  · rw [failed]
    exact guarded_final
      ((climbing.alike (n := { n with volume := v, filesMoved := k }) ⟨rfl, rfl, rfl, rfl⟩).fail
      (Or.inr pending) f).final
  · rw [done]
    refine ⟨fun other => (by cases other), fun _ => ⟨s, loc, start, held, path, ?_,
      fun _ => ⟨?_, fun other => (by cases other)⟩⟩⟩
    · exact prepared.snapshot_file underway.stored repairs.within
    · exact { underway with repairs := repairs }

theorem Guarded.applyEdits (state : n.state = .moved) : Guarded m n.applyEdits.2 top store := by
  have pending : n.state.isPending = true := by rw [state]; rfl
  obtain ⟨s, loc, start, held, path, _, rest⟩ := guarded.pending pending
  obtain ⟨underway, _⟩ := rest (by rw [state]; decide)
  rcases applyEdits_cases state underway.fits (underway.root.trans underway.stored.root)
    (underway.targets ▸ prepared.distinct) underway.repairs with ⟨v, k, f, _, _, failed⟩
    | ⟨v, k, repairs, _, aborted⟩ | ⟨v, k, repairs, _, done⟩
  · rw [failed]
    exact guarded_final
      ((climbing.alike (n := { n with volume := v, filesEdited := k }) ⟨rfl, rfl, rfl, rfl⟩).fail
      (Or.inr pending) f).final
  · rw [aborted]
    refine ⟨fun other => ?_, fun _ => ⟨s, loc, start, held, path, ?_, fun _ => ⟨?_, fun other => ?_⟩⟩⟩
    · cases state.symm.trans other
    · exact prepared.snapshot_file underway.stored repairs.within
    · exact { underway with repairs := repairs }
    · cases state.symm.trans other
  · rw [done]
    refine ⟨fun other => (by cases other), fun _ => ⟨s, loc, start, held, path, ?_,
      fun _ => ⟨?_, fun other => (by cases other)⟩⟩⟩
    · exact prepared.snapshot_file underway.stored repairs.within
    · exact { underway with repairs := repairs }

omit prepared in
theorem Guarded.verify (state : n.state = .edited) {probe : Probe} {seconds : Nat}
    (spares : (Request.verify probe seconds).Spares store) :
    Guarded m (n.verify probe seconds).2 top store := by
  have pending : n.state.isPending = true := by rw [state]; rfl
  obtain ⟨s, loc, start, held, path, file, rest⟩ := guarded.pending pending
  obtain ⟨underway, _⟩ := rest (by rw [state]; decide)
  rcases verify_cases state probe seconds with cancelled | ⟨f, _, failed⟩ | passed
  · rw [cancelled]
    exact guarded_final (climbing.fail (Or.inr pending) _).final
  · rw [failed]
    exact guarded_final
      ((climbing.alike (n := n.probed probe seconds) ⟨rfl, rfl, rfl, rfl⟩).fail
        (Or.inr pending) f).final
  · rw [passed]
    refine ⟨fun other => (by cases other), fun _ => ⟨s, loc, start, held, path, ?_, fun other =>
      (other rfl).elim⟩⟩
    exact (spares n.root seconds n.volume.disk loc underway.stored.inside).trans file

theorem Guarded.perform (fresh : m.Fresh) {request : Request} (spares : request.Spares store) :
    Guarded m (n.perform request).2 top store := by
  cases asked : request.step? with
  | none =>
    cases request <;> cases asked
    exact guarded.cancel
  | some step =>
    cases accepted : step.accepts n.state with
    | false =>
      rw [perform_misplaced asked accepted]
      exact guarded
    | true =>
      cases request with
      | cancel => cases asked
      | snapshot =>
        cases asked
        exact guarded.takeSnapshot prepared climbing fresh
          (by simpa [MigrationStep.accepts] using accepted)
      | applyMoves =>
        cases asked
        exact guarded.applyMoves prepared climbing (by simpa [MigrationStep.accepts] using accepted)
      | applyEdits =>
        cases asked
        exact guarded.applyEdits prepared climbing (by simpa [MigrationStep.accepts] using accepted)
      | verify probe seconds =>
        cases asked
        exact guarded.verify climbing (by simpa [MigrationStep.accepts] using accepted) spares
      | commit =>
        cases asked
        have state : n.state = .verified := by simpa [MigrationStep.accepts] using accepted
        change Guarded m n.commit.2 top store
        rcases commit_cases state with cancelled | done
        · rw [cancelled]
          exact guarded_final (climbing.fail (Or.inr (by rw [state]; rfl)) _).final
        · rw [done]
          exact ⟨fun other => (by cases other), fun other => (by cases other)⟩
      | rollBack =>
        cases asked
        exact guarded_final (climbing.rollback accepted).final

omit guarded climbing in
theorem drive_guarded (fresh : m.Fresh) (placed : n.Climbing ∨ n.Over)
    (guarded : Guarded m n top store) {requests : List Request}
    (spares : ∀ request ∈ requests, request.Spares store) :
    Guarded m (n.drive requests) top store := by
  induction requests generalizing n with
  | nil => exact guarded
  | cons request rest ih =>
    refine ih (perform_kept request placed) ?_ fun other member => spares other
      (List.mem_cons_of_mem _ member)
    rcases placed with climbing | ended
    · exact guarded.perform prepared climbing fresh (spares request List.mem_cons_self)
    · obtain ⟨flag, same⟩ := drive_final ended.final [request]
      have unchanged : (n.perform request).2 = { n with cancelled := flag } := same
      refine guarded_final ?_
      change (n.perform request).2.state.isFinal = true
      rw [unchanged]
      exact ended.final

end

/-! ### Any order of requests -/

/-- What is true of a migration after any requests, however they ended. -/
structure Conforms (m : Migration) (requests : List Request) (after : Migration) : Prop where
  last : after.history.getLast? = some after.state
  course : after.Course
  /-- Exactly the steps that the state does not accept are refused, and a refusal changes nothing. -/
  refuses : ∀ request step, request.step? = some step →
    (step.accepts after.state = false ↔ after.perform request = (.error (after.misplaced step), after))
  final : after.state.isFinal = true →
    ∀ more, ∃ flag, after.drive more = { after with cancelled := flag }
  /-- As long as the tree may differ from the snapshot, the migration can roll back. -/
  undoable : after.state.isPending = true → ∃ s path, after.snapshot = some s ∧
    after.snapshotPath = some path ∧
    (after.rollback.1 = .ok () ∧ after.rollback.2.state = .rolledBack ∨
      ∃ f, f.isCorruption = true ∧ after.rollback.1 = .error f ∧ after.rollback.2.state = .failed) ∧
    ∀ top store, m.Prepared top store → (∀ request ∈ requests, request.Spares store) →
      ∃ loc, path = Disk.pathOf loc ∧ after.volume.disk.at? loc = some (.file s.encode)

theorem course_of_placed (placed : m.Climbing ∨ m.Over) :
    m.history.getLast? = some m.state ∧ m.Course := by
  rcases placed with climbing | ended
  · refine ⟨by rw [climbing.history]; exact getLast?_track climbing.on, track m.state, [], track_ne_nil _,
      track_start _, ?_, .climbing⟩
    rw [climbing.history, List.append_nil]
  · obtain ⟨front, tail, history, last, ending⟩ := ended.left
    refine ⟨?_, track front, tail, track_ne_nil _, track_start _, history, ending⟩
    rw [history, List.getLast?_append, last]
    rfl

theorem refuses_of_placed (placed : m.Climbing ∨ m.Over) (asked : request.step? = some step) :
    step.accepts m.state = false ↔ m.perform request = (.error (m.misplaced step), m) := by
  refine ⟨perform_misplaced asked, fun same => ?_⟩
  cases accepted : step.accepts m.state with
  | false => rfl
  | true =>
    rcases placed with climbing | ended
    · exact ((perform_granted asked accepted).not_misplaced climbing step same).elim
    · rw [accepts_final ended.final] at accepted
      cases accepted

theorem Climbing.rollback_ends (climbing : m.Climbing) (pending : m.state.isPending = true) :
    m.rollback.1 = .ok () ∧ m.rollback.2.state = .rolledBack ∨
      ∃ f, f.isCorruption = true ∧ m.rollback.1 = .error f ∧ m.rollback.2.state = .failed := by
  obtain ⟨s, _, held, _⟩ := climbing.held pending
  cases clean : (s.restore m.volume).1.isClean with
  | true =>
    rw [rollback_clean pending held clean]
    exact Or.inl ⟨rfl, rfl⟩
  | false =>
    rw [rollback_corrupted pending held clean]
    exact Or.inr ⟨_, rfl, rfl, rfl⟩

theorem drive_conforms (m : Migration) (fresh : m.Fresh) (requests : List Request) :
    m.Conforms requests (m.drive requests) := by
  have start : m.Climbing ∨ m.Over := by
    refine Or.inl ⟨by rw [fresh.state]; decide, by rw [fresh.history, fresh.state]; rfl,
      fun pending => ?_⟩
    rw [fresh.state] at pending
    cases pending
  have placed := drive_kept start requests
  obtain ⟨last, course⟩ := course_of_placed placed
  refine ⟨last, course, fun request step asked => refuses_of_placed placed asked, drive_final,
    fun pending => ?_⟩
  rcases placed with climbing | ended
  · obtain ⟨s, path, held, known⟩ := climbing.held pending
    refine ⟨s, path, held, known, climbing.rollback_ends pending, fun top store prepared spares => ?_⟩
    have initial : Guarded m m top store := by
      refine ⟨fun _ => rfl, fun pending => ?_⟩
      rw [fresh.state] at pending
      cases pending
    have guarded := drive_guarded prepared fresh start initial spares
    obtain ⟨s', loc, _, held', path', file, _⟩ := guarded.pending pending
    cases held.symm.trans held'
    cases known.symm.trans path'
    exact ⟨loc, rfl, file⟩
  · rw [MigrationState.not_pending_of_final ended.final] at pending
    cases pending

/-- A migration that is verified too early, loses the call of a move and is asked to go on. -/
theorem drive_conforms_brittle :
    (specimen brittle).Fresh ∧ (specimen brittle).Conforms
      [.snapshot, .verify lenient 60, .applyMoves, .rollBack, .applyEdits, .cancel, .commit]
      ((specimen brittle).drive [.snapshot, .verify lenient 60, .applyMoves, .rollBack, .applyEdits,
        .cancel, .commit]) :=
  ⟨specimen_fresh brittle, drive_conforms (specimen brittle) (specimen_fresh brittle) _⟩

end Migration

end Relocation
