import Relocation.CommandLine

/-!
# The program

Reads the directories that a request is about into a disk, carries the request out there, and writes
what changed back. Symbolic links and the contents of directories that are never scanned are left
alone.
-/

namespace Relocation.Main

def locationOf (text : String) : Location :=
  (Path.components ⟨text⟩).filterMap fun
    | .normal name => some name
    | _ => none

/-- Adds a directory and those above it. -/
def addDir (d : Disk) (loc : Location) : Disk :=
  (List.range loc.length).foldl (fun d n => d.put (loc.take (n + 1)) .dir) d

/-- The contents of a directory with this name are read. -/
def isEntered (name : String) : Bool := name = ".restructure" || !builtinIgnored.contains name

def loadFile (d : Disk) (text : String) : IO Disk := do
  let base ← IO.currentDir
  try
    let bytes ← IO.FS.readBinFile (base / text)
    let loc := locationOf text
    return (addDir d loc.dropLast).put loc (.file bytes.toList)
  catch _ => return d

partial def loadTree (d : Disk) (text : String) : IO Disk := do
  let base ← IO.currentDir
  let mut d := addDir d (locationOf text)
  for entry in ← (base / text).readDir do
    let name := entry.fileName
    let path := text ++ "/" ++ name
    match (← entry.path.symlinkMetadata).type with
    | .dir => d ← if isEntered name then loadTree d path else pure (addDir d (locationOf path))
    | .file => d ← loadFile d path
    | _ => pure ()
  return d

/-- Reads the ignore files in the directories above one. -/
def loadIgnoreFiles (d : Disk) (text : String) : IO Disk := do
  let loc := locationOf text
  let mut d := d
  for n in List.range (loc.length + 1) do
    for file in Disk.ignoreFiles do
      d ← loadFile d (Disk.pathOf (loc.take n ++ file)).text
  return d

/-- Reads a directory, if it is one, with the ignore files that bear on it. -/
def load (d : Disk) (text : String) : IO Disk := do
  let base ← IO.currentDir
  try
    let real ← IO.FS.realPath (base / text)
    loadIgnoreFiles (← loadTree d real.toString) real.toString
  catch _ => return d

/-- The directories that a request is about, beside the working directory. -/
def directories : CommandLine.Request → List String
  | .run dir (.restore path) => [dir.text, (Path.directory path).text]
  | .run dir _ => [dir.text]
  | _ => []

def isDirNode : Disk.Node → Bool
  | .dir => true
  | _ => false

/-- Writes the differences between two disks. -/
def store (before after : Disk) : IO Unit := do
  let base ← IO.currentDir
  let text (loc : Location) : String := (Disk.pathOf loc).text
  for (loc, n) in before.nodes.entries do
    if !isDirNode n && (after.at? loc).isNone then IO.FS.removeFile (base / text loc)
  for (loc, n) in after.nodes.entries do
    if before.at? loc ≠ some n then
      match n with
      | .dir => IO.FS.createDirAll (base / text loc)
      | .file content => IO.FS.writeBinFile (base / text loc) (ByteArray.mk content.toArray)
      | .link _ => pure ()
  for (loc, n) in before.nodes.entries.reverse do
    if isDirNode n && (after.at? loc).isNone then IO.FS.removeDirAll (base / text loc)

/-- The time at which a new file is made. -/
def now : IO Timestamp := do
  let (_, path) ← IO.FS.createTempFile
  let modified := (← path.metadata).modified
  IO.FS.removeFile path
  match Timestamp.ofSeconds? modified.sec modified.nsec.toNat with
  | some t => return t
  | none => throw (IO.userError "the clock is outside the calendar")

/-- A random name for a snapshot and the time. -/
def newStamp : IO Stamp := do
  let bytes := (← IO.getRandomBytes 16).toList
  let id := bytes.mapIdx fun i b =>
    if i = 6 then (b &&& 0x0F) ||| 0x40 else if i = 8 then (b &&& 0x3F) ||| 0x80 else b
  return { id, time := ← now }

end Relocation.Main

open Relocation Relocation.Main in
def main (args : List String) : IO UInt32 := do
  let request := CommandLine.parse args
  let here := (← IO.currentDir).toString
  let mut disk : Disk := { here := locationOf here }
  for text in here :: directories request do
    disk ← load disk text
  let (response, after) := CommandLine.perform (← newStamp) disk request
  store disk after
  if let some report := response.report then IO.println report.pretty
  if let some complaint := response.complaint then IO.eprintln complaint
  return UInt32.ofNat response.code
