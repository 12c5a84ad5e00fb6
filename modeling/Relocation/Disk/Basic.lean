import Relocation.Path.Basic
import Relocation.Table
import Relocation.Text.Utf8

/-!
# Disks

A tree of directories, files and symbolic links, as a list of nodes by their absolute location. Paths
are looked up one step at a time; a path that is not absolute starts at the working directory.
-/

namespace Relocation

inductive IoFault where
  | notFound
  | alreadyExists
  | notDirectory
  | isDirectory
  | invalid
  | notEmpty
  | tooManyLinks
  /-- Bytes that should be text are not valid UTF-8. -/
  | notText
  /-- An operation failed for reasons outside the disk. -/
  | other (message : String)
  /-- The program ended in the middle of the operation. -/
  | aborted
  deriving DecidableEq, Repr

def IoFault.message : IoFault → String
  | .notFound => "No such file or directory (os error 2)"
  | .alreadyExists => "File exists (os error 17)"
  | .notDirectory => "Not a directory (os error 20)"
  | .isDirectory => "Is a directory (os error 21)"
  | .invalid => "Invalid argument (os error 22)"
  | .notEmpty => "Directory not empty (os error 39)"
  | .tooManyLinks => "Too many levels of symbolic links (os error 40)"
  | .notText => "stream did not contain valid UTF-8"
  | .other message => message
  | .aborted => "operation aborted"

/-- Names on the way from the top of the disk. -/
abbrev Location := List String

namespace Disk

inductive Node where
  | file (content : Text.Bytes)
  | dir
  | link (target : String)
  deriving DecidableEq, Repr

end Disk

structure Disk where
  /-- Everything but the top directory. -/
  nodes : Table Location Disk.Node := ∅
  here : Location := []
  deriving DecidableEq, Repr

namespace Disk

def at? (d : Disk) (loc : Location) : Option Node :=
  if loc = [] then some .dir else d.nodes.find? loc

def put (d : Disk) (loc : Location) (n : Node) : Disk := { d with nodes := d.nodes.insert loc n }

def erase (d : Disk) (loc : Location) : Disk :=
  { d with nodes := d.nodes.filter fun (l, _) => l ≠ loc }

inductive Step where
  | stay
  | up
  | into (name : String)
  deriving DecidableEq, Repr

def stepOf (s : List Char) : Step :=
  if s = [] ∨ s = ['.'] then .stay
  else if s = ['.', '.'] then .up
  else .into (String.ofList s)

def stepsOf (text : String) : List Step := (text.toList.splitOn '/').map stepOf

/-- Where a path leads: to a node, or to a free name in a directory. -/
inductive Place where
  | taken (loc : Location) (n : Node)
  | free (loc : Location)
  deriving DecidableEq, Repr

/-- Most links that are followed for one path. -/
def maxLinks : Nat := 40

/-- Takes the steps of a path from a directory. A link at the very end is followed only if `follow`
says so, and `hop` goes on from a link that is followed. -/
def advance (d : Disk) (follow : Bool) (hop : Location → List Step → Except IoFault Place) :
    Location → List Step → Except IoFault Place
  | loc, [] =>
    match d.at? loc with
    | some n => .ok (.taken loc n)
    | none => .error .notFound
  | loc, .stay :: rest => advance d follow hop loc rest
  | loc, .up :: rest => advance d follow hop loc.dropLast rest
  | loc, .into name :: rest =>
    let next := loc ++ [name]
    match d.at? next with
    | none => if rest.isEmpty then .ok (.free next) else .error .notFound
    | some .dir => advance d follow hop next rest
    | some (.file content) =>
      if rest.isEmpty then .ok (.taken next (.file content)) else .error .notDirectory
    | some (.link target) =>
      if rest.isEmpty && !follow then .ok (.taken next (.link target))
      else
        let start := if Path.isAbsoluteText target.toList then [] else loc
        hop start (stepsOf target ++ rest)

def walk (d : Disk) (follow : Bool) : Nat → Location → List Step → Except IoFault Place
  | 0 => d.advance follow fun _ _ => .error .tooManyLinks
  | links + 1 => d.advance follow (walk d follow links)

def locate (d : Disk) (follow : Bool) (p : Path) : Except IoFault Place :=
  if p.text = "" then .error .notFound
  else
    let start := if p.isAbsolute then [] else d.here
    walk d follow maxLinks start (stepsOf p.text)

def exists? (d : Disk) (p : Path) : Bool :=
  match d.locate true p with
  | .ok (.taken _ _) => true
  | _ => false

def isDir (d : Disk) (p : Path) : Bool :=
  match d.locate true p with
  | .ok (.taken _ .dir) => true
  | _ => false

def isFile (d : Disk) (p : Path) : Bool :=
  match d.locate true p with
  | .ok (.taken _ (.file _)) => true
  | _ => false

def pathOf (loc : Location) : Path := ⟨"/" ++ "/".intercalate loc⟩

/-- The path with every link resolved. -/
def canonical (d : Disk) (p : Path) : Except IoFault Path := do
  match ← d.locate true p with
  | .taken loc _ => .ok (pathOf loc)
  | .free _ => .error .notFound

def read (d : Disk) (p : Path) : Except IoFault Text.Bytes := do
  match ← d.locate true p with
  | .taken _ (.file content) => .ok content
  | .taken _ .dir => .error .isDirectory
  | .taken _ (.link _) => .error .tooManyLinks
  | .free _ => .error .notFound

def readText (d : Disk) (p : Path) : Except IoFault String := do
  match Text.decode? (← d.read p) with
  | some text => .ok text
  | none => .error .notText

/-- Replaces the content of a file, or makes one in a directory that exists. -/
def write (d : Disk) (p : Path) (content : Text.Bytes) : Except IoFault Disk := do
  match ← d.locate true p with
  | .taken loc (.file _) => .ok (d.put loc (.file content))
  | .taken _ _ => .error .isDirectory
  | .free loc => .ok (d.put loc (.file content))

def isBelow (loc top : Location) : Bool := top.isPrefixOf loc && top.length < loc.length

def isEmptyDir (d : Disk) (loc : Location) : Bool := !d.nodes.entries.any fun (l, _) => isBelow l loc

/-- Takes a node and everything below it to another location. -/
def relocate (d : Disk) (source target : Location) : Disk :=
  let moved := d.nodes.filterMap fun (l, n) =>
    if source.isPrefixOf l then some (target ++ l.drop source.length, n) else none
  let kept := d.nodes.filter fun (l, _) => !(source.isPrefixOf l || target.isPrefixOf l)
  { d with nodes := kept.insertAll moved }

def rename (d : Disk) (p q : Path) : Except IoFault Disk := do
  match ← d.locate false p with
  | .free _ => .error .notFound
  | .taken source n =>
    match ← d.locate false q with
    | .free target =>
      if isBelow target source then .error .invalid else .ok (d.relocate source target)
    | .taken target old =>
      if source = target then .ok d
      else if isBelow target source then .error .invalid
      else if isBelow source target then .error .notEmpty
      else
        match n, old with
        | .dir, .dir =>
          if d.isEmptyDir target then .ok (d.relocate source target) else .error .notEmpty
        | .dir, _ => .error .notDirectory
        | _, .dir => .error .isDirectory
        | _, _ => .ok (d.relocate source target)

/-- A path without the slashes at its end. -/
def unslashed (p : Path) : Path :=
  match (p.text.toList.reverse.dropWhile (· == '/')).reverse with
  | [] => p
  | cs => ⟨String.ofList cs⟩

def createDir (d : Disk) (p : Path) : Except IoFault Disk := do
  match ← d.locate false (unslashed p) with
  | .taken _ _ => .error .alreadyExists
  | .free loc => .ok (d.put loc .dir)

/-- Creates a directory; one that is there already is fine. -/
def ensureDir (d : Disk) (p : Path) : Except IoFault Disk :=
  match d.createDir p with
  | .ok d => .ok d
  | .error e => if d.isDir p then .ok d else .error e

/-- Creates a directory and those above it that are missing. `depth` bounds how far up it goes. -/
def createDirsUpTo (d : Disk) (p : Path) : Nat → Except IoFault Disk
  | 0 => .error .notFound
  | depth + 1 =>
    if p.text = "" then .ok d
    else
      match d.ensureDir p with
      | .error .notFound =>
        match p.parent? with
        | none => .error .notFound
        | some parent => do
          let d ← d.createDirsUpTo parent depth
          d.ensureDir p
      | result => result

def createDirs (d : Disk) (p : Path) : Except IoFault Disk :=
  d.createDirsUpTo p (p.components.length + 1)

def removeFile (d : Disk) (p : Path) : Except IoFault Disk := do
  match ← d.locate false p with
  | .free _ => .error .notFound
  | .taken _ .dir => .error .isDirectory
  | .taken loc _ => .ok (d.erase loc)

def removeDir (d : Disk) (p : Path) : Except IoFault Disk := do
  match ← d.locate false p with
  | .free _ => .error .notFound
  | .taken loc .dir => if d.isEmptyDir loc then .ok (d.erase loc) else .error .notEmpty
  | .taken _ _ => .error .notDirectory

def removeAll (d : Disk) (p : Path) : Except IoFault Disk := do
  match ← d.locate false p with
  | .free _ => .error .notFound
  | .taken loc _ => .ok { d with nodes := d.nodes.filter fun (l, _) => !loc.isPrefixOf l }

/-- Names in a directory with their nodes, in ascending order. -/
def children (d : Disk) (loc : Location) : List (String × Node) :=
  d.nodes.filterMap fun (l, n) =>
    match l.getLast? with
    | some name => if l.dropLast = loc then some (name, n) else none
    | none => none

end Disk

end Relocation
