import Relocation.Plan
import Relocation.Timestamp

/-!
# Snapshots

What a migration needs to undo itself: the bytes of every file that it may touch, its moves, and the
directories that it will create.
-/

namespace Relocation

structure SnapshotFile where
  /-- Relative to the root. -/
  path : Path
  content : Text.Bytes
  deriving DecidableEq, Repr

structure Snapshot where
  version : Nat
  /-- Sixteen bytes. -/
  id : Text.Bytes
  createdAt : Timestamp
  root : Path
  /-- In path order. -/
  files : List SnapshotFile
  moves : List Move
  /-- Directories that the moves create, relative to the root, outermost first. -/
  newDirs : List Path
  deriving DecidableEq, Repr

namespace Snapshot

/-- The version that this library writes and reads. -/
def currentVersion : Nat := 1

def totalBytes (s : Snapshot) : Nat := s.files.foldr (fun file n => file.content.length + n) 0

def byteText (b : UInt8) : List Char :=
  [Nat.digitChar (b.toNat / 16), Nat.digitChar (b.toNat % 16)]

/-- Bytes in hexadecimal, in groups of four, two, two, two and six bytes. -/
def idText (id : Text.Bytes) : String :=
  let group (first count : Nat) := ((id.drop first).take count).flatMap byteText
  String.ofList (group 0 4 ++ '-' :: group 4 2 ++ '-' :: group 6 2 ++ '-' :: group 8 2 ++
    '-' :: group 10 6)

def fileName (s : Snapshot) : String := idText s.id ++ ".snapshot"

end Snapshot

end Relocation
