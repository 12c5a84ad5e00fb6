import Relocation.Disk.Basic
import Relocation.Glob.Match
import Relocation.Text.Class
import Relocation.Text.Slice

/-!
# Ignore files

A line of an ignore file is a glob that hides entries below its directory, or keeps them if it starts
with `!`. The last line that matches decides.
-/

namespace Relocation

/-- What an ignore file says of an entry. -/
inductive Verdict where
  | hide
  | keep
  deriving DecidableEq, Repr

structure IgnoreLine where
  glob : Glob
  verdict : Verdict
  /-- The line ends in a slash and holds for directories only. -/
  dirsOnly : Bool

namespace IgnoreLine

def endsWith (tail s : List Char) : Bool := tail.isSuffixOf s

/-- A line without the blanks at its end, unless a backslash keeps the last one. -/
def trimmed (line : List Char) : List Char :=
  if endsWith ['\\', ' '] line then line else Text.trimEnd line

/-- Splits `!` and a leading slash off: the verdict, whether the glob is tied to the directory of the
file, and the rest. -/
def splitFront (line : List Char) : Verdict × Bool × List Char :=
  match line with
  | '\\' :: '!' :: rest => (.hide, false, '!' :: rest)
  | '\\' :: '#' :: rest => (.hide, false, '#' :: rest)
  | '!' :: '/' :: rest => (.keep, true, rest)
  | '!' :: rest => (.keep, false, rest)
  | '/' :: rest => (.hide, true, rest)
  | line => (.hide, false, line)

/-- Splits off a slash at the end, with a backslash before it. -/
def splitBack (line : List Char) : Bool × List Char :=
  match line.reverse with
  | '/' :: '\\' :: rest => (true, rest.reverse)
  | '/' :: rest => (true, rest.reverse)
  | _ => (false, line)

/-- The glob to match: without a slash inside, the line holds at any depth, and `/**` at the end
stands for what is inside the directory. -/
def pattern (tied : Bool) (body : List Char) : List Char :=
  let deep := "**/".toList
  let anywhere :=
    if tied || body.contains '/' || body = "**".toList then body else deep ++ body
  if endsWith "/**".toList anywhere then anywhere ++ "/*".toList else anywhere

/-- Comments, empty lines and lines that are no globs say nothing. -/
def parse? (line : List Char) : Option IgnoreLine :=
  if line.head? = some '#' then none
  else
    let line := trimmed line
    if line.isEmpty then none
    else
      let (verdict, tied, body) := splitFront line
      let (dirsOnly, body) := splitBack body
      match Glob.parse (String.ofList (pattern tied body)) with
      | .ok glob => some { glob, verdict, dirsOnly }
      | .error _ => none

def applies (isDir : Bool) (relative : Text.Bytes) (l : IgnoreLine) : Bool :=
  (isDir || !l.dirsOnly) && l.glob.matchesBytes relative

end IgnoreLine

def linesOf (bs : Text.Bytes) : List Text.Bytes :=
  let lines := (bs.splitOn 10).map fun line =>
    if line.getLast? = some 13 then line.dropLast else line
  if lines.getLast? = some [] then lines.dropLast else lines

/-- The text lines up to the first that is not valid UTF-8. -/
def textLines (bs : Text.Bytes) : List (List Char) :=
  (((linesOf bs).map Text.decode?).takeWhile Option.isSome).filterMap fun line =>
    line.map String.toList

/-- The lines of an ignore file. A byte order mark in front is skipped. -/
def ignoreLines (bs : Text.Bytes) : List IgnoreLine :=
  match textLines bs with
  | [] => []
  | first :: rest =>
    let mark := Char.ofNat 0xFEFF
    (first.dropWhile (· == mark) :: rest).filterMap IgnoreLine.parse?

/-- The last line that applies decides. -/
def verdictOf (lines : List IgnoreLine) (isDir : Bool) (relative : String) : Option Verdict :=
  (lines.reverse.find? (·.applies isDir (Text.encode relative))).map (·.verdict)

namespace Disk

def ignoreFiles : List (List String) := [[".ignore"], [".gitignore"], [".git", "info", "exclude"]]

def ignoreLinesAt (d : Disk) (dir : Location) (file : List String) : List IgnoreLine :=
  match d.read (pathOf (dir ++ file)) with
  | .ok bs => ignoreLines bs
  | .error _ => []

/-- What files of one name say of an entry, the one in the nearest directory first. -/
def verdictFrom (d : Disk) (file : List String) (isDir : Bool) (entry : Location) : Option Verdict :=
  ((List.range entry.length).reverse).findSome? fun n =>
    verdictOf (d.ignoreLinesAt (entry.take n) file) isDir ("/".intercalate (entry.drop n))

/-- Ignore files decide; else an entry whose name starts with a dot is hidden. -/
def isHidden (d : Disk) (isDir : Bool) (entry : Location) : Bool :=
  match ignoreFiles.findSome? fun file => d.verdictFrom file isDir entry with
  | some .hide => true
  | some .keep => false
  | none => (entry.getLast?.getD "").toList.head? = some '.'

/-- Locations of the files below a directory that are not hidden. Hidden directories are not entered,
and neither are links. `depth` bounds how deep it goes. -/
def visibleFiles (d : Disk) (dir : Location) : Nat → List Location
  | 0 => []
  | depth + 1 =>
    (d.children dir).flatMap fun (name, n) =>
      let entry := dir ++ [name]
      match n with
      | .file _ => if d.isHidden false entry then [] else [entry]
      | .dir => if d.isHidden true entry then [] else d.visibleFiles entry depth
      | .link _ => []

def depth (d : Disk) : Nat := d.nodes.entries.foldl (fun n (l, _) => max n l.length) 0

end Disk

end Relocation
