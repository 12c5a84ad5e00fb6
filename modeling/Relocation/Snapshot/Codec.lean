import Relocation.Snapshot.Basic

/-!
# Snapshot files

Numbers are little-endian, the version four bytes wide and lengths eight. A text, a list of bytes or
a list of records is its length followed by its items, and a record is its fields in order. Bytes
behind the snapshot are ignored.
-/

namespace Relocation

open Text (Bytes)

namespace Binary

/-- A value read from the front of some bytes, and the rest of them. -/
abbrev Reader (α : Type) := StateT Bytes Option α

/-- The `width` lowest bytes of `n`, lowest first. -/
def putNat : Nat → Nat → Bytes
  | 0, _ => []
  | width + 1, n => UInt8.ofNat n :: putNat width (n / 256)

def getByte : Reader UInt8
  | [] => none
  | b :: bs => some (b, bs)

def getNat : Nat → Reader Nat
  | 0 => pure 0
  | width + 1 => do
    let low ← getByte
    let high ← getNat width
    return low.toNat + 256 * high

def putLength (n : Nat) : Bytes := putNat 8 n

def getLength : Reader Nat := getNat 8

def putBytes (bs : Bytes) : Bytes := putLength bs.length ++ bs

def take (n : Nat) : Reader Bytes := fun bs => if n ≤ bs.length then some (bs.take n, bs.drop n) else none

def getBytes : Reader Bytes := do
  let n ← getLength
  take n

def putText (s : String) : Bytes := putBytes (Text.encode s)

def getText : Reader String := do
  let bytes ← getBytes
  StateT.lift (Text.decode? bytes)

def putPath (p : Path) : Bytes := putText p.text

def getPath : Reader Path := do
  let text ← getText
  return ⟨text⟩

def putList (put : α → Bytes) (items : List α) : Bytes :=
  putLength items.length ++ items.flatMap put

def getItems (get : Reader α) : Nat → Reader (List α)
  | 0 => pure []
  | n + 1 => do
    let a ← get
    let as ← getItems get n
    return a :: as

/-- Reads `n` items. Every item takes at least one byte, so more of them than there are bytes cannot be read. -/
def getAtMost (get : Reader α) (n : Nat) : Reader (List α) := fun bs =>
  if n ≤ bs.length then getItems get n bs else none

def getList (get : Reader α) : Reader (List α) := do
  let n ← getLength
  getAtMost get n

end Binary

open Binary

namespace Snapshot

def putFile (f : SnapshotFile) : Bytes := putPath f.path ++ putBytes f.content

def getFile : Reader SnapshotFile := do
  let path ← getPath
  let content ← getBytes
  return { path, content }

def putMove (m : Move) : Bytes := putPath m.source ++ putPath m.target

def getMove : Reader Move := do
  let source ← getPath
  let target ← getPath
  return { source, target }

def encode (s : Snapshot) : Bytes :=
  putNat 4 s.version ++ putBytes s.id ++ putText s.createdAt.toText ++ putPath s.root ++
    putList putFile s.files ++ putList putMove s.moves ++ putList putPath s.newDirs

/-- Reads a snapshot of any version. -/
def get : Reader Snapshot := do
  let version ← getNat 4
  let id ← getBytes
  let created ← getText
  let root ← getPath
  let files ← getList getFile
  let moves ← getList getMove
  let newDirs ← getList getPath
  let createdAt ← StateT.lift (Timestamp.parse? created)
  if id.length = 16 then return { version, id, createdAt, root, files, moves, newDirs } else failure

def decode? (bs : Bytes) : Option Snapshot := (get bs).map (·.1)

end Snapshot

end Relocation
