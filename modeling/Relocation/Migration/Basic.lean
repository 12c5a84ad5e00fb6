import Relocation.Migration.State
import Relocation.Snapshot.Restore

/-!
# Migrations

A migration takes a snapshot, moves files, edits specifiers, verifies the result and commits. A step
that fails after the snapshot restores it. `Migration.run` takes all steps in order. An edit that has
no place in its text is no failure of a step: it aborts the run, which leaves everything as it is.
-/

namespace Relocation

structure ProbeOutcome where
  passed : Bool
  timedOut : Bool := false
  output : String
  deriving DecidableEq, Repr

/-- A check of the tree at a root within some seconds. It may change the disk. -/
abbrev Probe := Path → Nat → Disk → ProbeOutcome × Disk

structure Migration where
  root : Path
  plan : MovePlan
  rules : Rules
  /-- Modules to edit, by their paths before the move, in path order. -/
  targets : List Path
  extract : Path → String → Extraction
  snapshotDir : Path
  stamp : Stamp
  volume : Volume
  cancelled : Bool := false
  state : MigrationState := .idle
  history : List MigrationState := [.idle]
  snapshot : Option Snapshot := none
  snapshotPath : Option Path := none
  filesMoved : Nat := 0
  filesEdited : Nat := 0
  verification : Option ProbeOutcome := none
  errors : List Failure := []

structure MigrationResult where
  success : Bool
  state : MigrationState
  filesMoved : Nat
  filesEdited : Nat
  errors : List Failure
  /-- The snapshot file, if it is still there. -/
  snapshotPath : Option Path
  verification : Option ProbeOutcome
  history : List MigrationState

namespace Migration

/-- How a step ends: the migration is left behind either way. -/
abbrev Outcome := Except Failure Unit × Migration

def transition (m : Migration) (s : MigrationState) : Migration :=
  { m with state := s, history := m.history ++ [s] }

def record (m : Migration) (f : Failure) : Migration := { m with errors := m.errors ++ [f] }

def misplaced (m : Migration) (step : MigrationStep) : Failure :=
  .transition m.state.label step.label

def discardSnapshot (m : Migration) : Migration :=
  let disk :=
    match m.snapshotPath with
    | none => m.volume.disk
    | some path =>
      match m.volume.disk.removeFile path with
      | .ok d => d
      | .error _ => m.volume.disk
  { m with snapshot := none, volume := { m.volume with disk } }

def guidance (snapshotPath : Option Path) : String :=
  match snapshotPath with
  | some path =>
    "Restore manually with \x60restructure restore " ++ path.text ++
      "\x60; the snapshot holds the original bytes."
  | none => "No snapshot file was persisted."

def rollback (m : Migration) : Outcome :=
  match m.state.isPending, m.snapshot with
  | true, some snapshot =>
    let (report, volume) := snapshot.restore m.volume
    let m := { m with volume }
    if report.isClean then (.ok (), m.discardSnapshot.transition .rolledBack)
    else
      (.error (.corruption (report.failures.map (·.1)) m.snapshotPath (guidance m.snapshotPath)),
        m.transition .failed)
  | _, _ => (.error (m.misplaced .rollBack), m)

/-- Records a failure, rolls back if the tree may have changed, and ends as failed. The failure of
the rollback takes the place of the first one. -/
def fail (m : Migration) (f : Failure) : Outcome :=
  let m := m.record f
  if m.state.isPending then
    match m.rollback with
    | (.ok (), m) => (.error f, m.transition .failed)
    | (.error g, m) => (.error g, m.record g)
  else (.error f, m.transition .failed)

/-- Goes on if the migration is in the right state and not cancelled. -/
def step (m : Migration) (s : MigrationStep) (expected : MigrationState)
    (act : Migration → Outcome) : Outcome :=
  if m.state ≠ expected then (.error (m.misplaced s), m)
  else if m.cancelled then m.fail .cancelled
  else act m

/-- Captures and stores every file that the migration may touch. -/
def takeSnapshot (m : Migration) : Outcome :=
  m.step .snapshot .idle fun m =>
    let paths := m.plan.moves.map (·.source) ++ m.targets
    match Snapshot.capture m.stamp m.root paths m.plan m.volume with
    | (.error e, volume) => { m with volume }.fail (.io e)
    | (.ok snapshot, volume) =>
      match snapshot.persist m.snapshotDir volume.disk with
      | (.error e, disk) => { m with volume := { volume with disk } }.fail (.io e)
      | (.ok path, disk) =>
        (.ok (), { m with
          volume := { volume with disk }
          snapshot := some snapshot
          snapshotPath := some path }.transition .snapshotted)

def moveFile (source target : Path) : Volume.Op Unit := fun v =>
  if v.disk.exists? target then (.error (.other "destination already exists"), v)
  else
    Volume.andThen
      (match target.parent? with
        | some parent => Volume.createDirs parent
        | none => fun v => (.ok (), v))
      (fun () => Volume.rename source target) v

def moveAll (m : Migration) : List Move → Outcome
  | [] => (.ok (), m.transition .moved)
  | move :: rest =>
    match moveFile (m.root.join move.source) (m.root.join move.target) m.volume with
    | (.error e, volume) =>
      { m with volume }.fail (.move move.source move.target e.message)
    | (.ok (), volume) => { m with volume, filesMoved := m.filesMoved + 1 }.moveAll rest

def applyMoves (m : Migration) : Outcome :=
  m.step .applyMoves .snapshotted fun m => m.moveAll m.plan.moves

/-- What editing does to a module. -/
inductive Revision where
  | unchanged
  | changed
  | aborted
  deriving DecidableEq, Repr

/-- Edits one module where it is now. -/
def editFile (m : Migration) (before : Path) : Volume.Op Revision :=
  let current := m.plan.finalPath before
  let path := m.root.join current
  Volume.andThen (Volume.read path) fun bytes v =>
    match Text.decode bytes with
    | .error e => (.error (.other e.message), v)
    | .ok content =>
      match m.rules.apply m.extract before current content with
      | .aborted => (.ok .aborted, v)
      | .done edited replacements =>
        if replacements = 0 then (.ok .unchanged, v)
        else Volume.andThen (Volume.write path (Text.encode edited)) (fun () v => (.ok .changed, v)) v

def editAll (m : Migration) : List Path → Outcome
  | [] => (.ok (), m.transition .edited)
  | before :: rest =>
    match m.editFile before m.volume with
    | (.error e, volume) => { m with volume }.fail (.edit (m.plan.finalPath before) e.message)
    | (.ok .unchanged, volume) => { m with volume }.editAll rest
    | (.ok .changed, volume) => { m with volume, filesEdited := m.filesEdited + 1 }.editAll rest
    -- Nothing is recorded and nothing rolled back: the call does not return.
    | (.ok .aborted, volume) => (.error (.io .aborted), { m with volume })

def applyEdits (m : Migration) : Outcome := m.step .applyEdits .moved fun m => m.editAll m.targets

def verify (m : Migration) (probe : Probe) (seconds : Nat) : Outcome :=
  m.step .verify .edited fun m =>
    let (outcome, disk) := probe m.root seconds m.volume.disk
    let m := { m with volume := { m.volume with disk }, verification := some outcome }
    if outcome.passed then (.ok (), m.transition .verified)
    else
      let reason :=
        if outcome.timedOut then s!"probe timed out after {seconds}s" else "probe reported failure"
      m.fail (.verification reason outcome.output)

/-- Keeps the result and discards the snapshot. -/
def commit (m : Migration) : Outcome :=
  m.step .commit .verified fun m => (.ok (), m.discardSnapshot.transition .committed)

def cancel (m : Migration) : Migration := { m with cancelled := true }

/-- One step after another; the second is left out if the first fails. -/
def andThen (first : Outcome) (next : Migration → Outcome) : Outcome :=
  match first with
  | (.ok (), m) => next m
  | failed => failed

/-- Takes all steps. `signals` tells before which of them the migration gets cancelled. -/
def runSteps (m : Migration) (probe : Probe) (seconds : Nat)
    (signals : MigrationStep → Bool := fun _ => false) : Outcome :=
  let signal (s : MigrationStep) (m : Migration) : Migration := if signals s then m.cancel else m
  andThen (signal .snapshot m).takeSnapshot fun m =>
  andThen (signal .applyMoves m).applyMoves fun m =>
  andThen (signal .applyEdits m).applyEdits fun m =>
  andThen ((signal .verify m).verify probe seconds) fun m =>
  (signal .commit m).commit

/-- Takes all steps and makes sure that a failure is on record, unless the run is aborted. -/
def run (m : Migration) (probe : Probe) (seconds : Nat)
    (signals : MigrationStep → Bool := fun _ => false) : Migration :=
  match m.runSteps probe seconds signals with
  | (.ok (), m) => m
  | (.error (.io .aborted), m) => m
  | (.error f, m) => if m.errors.isEmpty then m.record f else m

def result (m : Migration) : MigrationResult :=
  { success := m.state = .committed
    state := m.state
    filesMoved := m.filesMoved
    filesEdited := m.filesEdited
    errors := m.errors
    snapshotPath := m.snapshotPath.filter m.volume.disk.exists?
    verification := m.verification
    history := m.history }

end Migration

end Relocation
