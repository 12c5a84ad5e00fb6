import Relocation.Disk.Volume
import Relocation.Failure
import Relocation.Snapshot.Codec

/-!
# Taking and restoring snapshots
-/

namespace Relocation

structure RestoreReport where
  restored : Nat := 0
  removed : Nat := 0
  prunedDirs : Nat := 0
  /-- Paths that could not be put back, and why. -/
  failures : List (Path × String) := []
  deriving DecidableEq, Repr

def RestoreReport.isClean (r : RestoreReport) : Bool := r.failures.isEmpty

/-- The name and time of a new snapshot. -/
structure Stamp where
  id : Text.Bytes
  time : Timestamp
  deriving DecidableEq, Repr

namespace Snapshot

def readFiles (root : Path) : List Path → Volume.Op (List SnapshotFile)
  | [] => fun v => (.ok [], v)
  | p :: rest =>
    Volume.andThen (Volume.read (root.join p)) fun content =>
      Volume.andThen (readFiles root rest) fun files v =>
        (.ok ({ path := p, content } :: files), v)

/-- Directories below the root that the moves of a plan create, in path order. -/
def newDirsOf (d : Disk) (root : Path) (plan : MovePlan) : List Path :=
  Keys.ofList (plan.moves.flatMap fun m =>
    match (root.join m.target).parent? with
    | some parent => (missingDirs d root parent).filterMap (·.relativeTo? root)
    | none => [])

/-- Captures files and what a plan is going to do. -/
def capture (stamp : Stamp) (root : Path) (paths : List Path) (plan : MovePlan) :
    Volume.Op Snapshot :=
  Volume.andThen (readFiles root (Keys.ofListLast paths)) fun files v =>
    (.ok { version := currentVersion, id := stamp.id, createdAt := stamp.time, root, files
           moves := plan.moves, newDirs := newDirsOf v.disk root plan }, v)

/-- Writes a snapshot into a directory, first under another name, and tells its path. -/
def persist (s : Snapshot) (dir : Path) (d : Disk) : Except IoFault Path × Disk :=
  match d.createDirs dir with
  | .error e => (.error e, d)
  | .ok d =>
    let path := dir.join ⟨s.fileName⟩
    let temporary := dir.join ⟨s.fileName ++ ".tmp"⟩
    match d.write temporary s.encode with
    | .error e => (.error e, d)
    | .ok d =>
      match d.rename temporary path with
      | .error e => (.error e, d)
      | .ok d => (.ok path, d)

def load (d : Disk) (path : Path) : Except Failure Snapshot := do
  if !d.exists? path then .error (.notFound path)
  else
    match d.read path with
    | .error e => .error (.io e)
    | .ok bytes =>
      match decode? bytes with
      | none => .error .encoding
      | some s =>
        if s.version = currentVersion then .ok s
        else .error (.corruption [] (some path)
          s!"snapshot format {s.version} is not supported (expected {currentVersion})")

/-- Removes the destination of a move that took place: its source is gone and its destination is
there. -/
def undoMove (root : Path) (m : Move) (report : RestoreReport) (v : Volume) :
    RestoreReport × Volume :=
  let target := root.join m.target
  if !v.disk.exists? target || v.disk.exists? (root.join m.source) then (report, v)
  else
    match Volume.removeFile target v with
    | (.ok (), v) => ({ report with removed := report.removed + 1 }, v)
    | (.error e, v) =>
      ({ report with failures := report.failures ++ [(m.target, e.message)] }, v)

/-- Writes a file with the directories above it and reads it back. -/
def writeBack (path : Path) (content : Text.Bytes) : Volume.Op Text.Bytes :=
  Volume.andThen
    (match path.parent? with
      | some parent => Volume.createDirs parent
      | none => fun v => (.ok (), v))
    fun () => Volume.andThen (Volume.write path content) fun () => Volume.read path

def restoreFile (root : Path) (f : SnapshotFile) (report : RestoreReport) (v : Volume) :
    RestoreReport × Volume :=
  match writeBack (root.join f.path) f.content v with
  | (.ok bytes, v) =>
    if bytes = f.content then ({ report with restored := report.restored + 1 }, v)
    else
      ({ report with failures := report.failures ++ [(f.path, "content differs after restore")] }, v)
  | (.error e, v) => ({ report with failures := report.failures ++ [(f.path, e.message)] }, v)

/-- Removes a directory that the migration made, if it is empty. -/
def pruneDir (root dir : Path) (report : RestoreReport) (v : Volume) : RestoreReport × Volume :=
  let path := root.join dir
  if v.disk.isDir path then
    match Volume.removeDir path v with
    | (.ok (), v) => ({ report with prunedDirs := report.prunedDirs + 1 }, v)
    | (.error _, v) => (report, v)
  else (report, v)

/-- One item after another, whatever fails. -/
def forEach (items : List α) (act : α → RestoreReport → Volume → RestoreReport × Volume)
    (report : RestoreReport) (v : Volume) : RestoreReport × Volume :=
  items.foldl (fun (report, v) a => act a report v) (report, v)

/-- Puts the tree back: destinations of moves are removed, last move first, every file is written,
and directories that are empty again are removed, innermost first. -/
def restore (s : Snapshot) (v : Volume) : RestoreReport × Volume :=
  let (report, v) := forEach s.moves.reverse (undoMove s.root) {} v
  let (report, v) := forEach s.files (restoreFile s.root) report v
  forEach s.newDirs.reverse (pruneDir s.root) report v

end Snapshot

end Relocation
