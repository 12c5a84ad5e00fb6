import Relocation.Disk.Basic
import Relocation.Text.Slice

/-!
# Shell tools

The commands that read and change files, and the tests on them. A tool gets its arguments and its
input and says what it writes; status zero means success.
-/

namespace Relocation.Shell

open Text (Bytes)

structure Effect where
  status : Nat := 0
  out : Bytes := []
  err : Bytes := []
  disk : Disk

abbrev Tool := List String → Bytes → Disk → Effect

def octalDigit? (c : Char) : Option Nat :=
  if '0' ≤ c ∧ c ≤ '7' then some (c.toNat - '0'.toNat) else none

/-- Up to three octal digits as a byte. -/
def octal (s : List Char) : Option (UInt8 × List Char) :=
  let ds := (s.take 3).takeWhile fun c => (octalDigit? c).isSome
  if ds.isEmpty then none
  else
    let n := ds.foldl (fun n c => n * 8 + (octalDigit? c).getD 0) 0
    some (UInt8.ofNat n, s.drop ds.length)

/-- What an escape stands for, given the text behind the backslash. -/
def escaped (s : List Char) : Bytes × List Char :=
  match s with
  | 'n' :: rest => ([10], rest)
  | 't' :: rest => ([9], rest)
  | 'r' :: rest => ([13], rest)
  | 'a' :: rest => ([7], rest)
  | 'b' :: rest => ([8], rest)
  | 'f' :: rest => ([12], rest)
  | 'v' :: rest => ([11], rest)
  | '\\' :: rest => ([92], rest)
  | s =>
    match octal s with
    | some (b, rest) => ([b], rest)
    | none => ([92], s)

def withEscapes : Nat → List Char → Bytes
  | 0, _ => []
  | fuel + 1, s =>
    match s with
    | [] => []
    | '\\' :: rest =>
      let (bs, rest) := escaped rest
      bs ++ withEscapes fuel rest
    | c :: rest => String.utf8EncodeChar c ++ withEscapes fuel rest

def unescape (s : String) : Bytes := withEscapes (s.length + 1) s.toList

def echo : Tool := fun args _ disk =>
  let (newline, args) := match args with
    | "-n" :: rest => (([] : Bytes), rest)
    | args => ([10], args)
  { out := unescape (" ".intercalate args) ++ newline, disk }

/-- Writes a format once; gives back the arguments that it did not use. -/
def formatOnce : Nat → List Char → List String → Bytes × List String
  | 0, _, args => ([], args)
  | fuel + 1, s, args =>
    match s with
    | [] => ([], args)
    | '%' :: '%' :: rest =>
      let (bs, args) := formatOnce fuel rest args
      (37 :: bs, args)
    | '%' :: c :: rest =>
      let arg := args.head?.getD (if c = 'd' then "0" else "")
      let here := if c = 'b' then unescape arg else Text.encode arg
      let (bs, args) := formatOnce fuel rest (args.drop 1)
      (here ++ bs, args)
    | '\\' :: rest =>
      let (here, rest) := escaped rest
      let (bs, args) := formatOnce fuel rest args
      (here ++ bs, args)
    | c :: rest =>
      let (bs, args) := formatOnce fuel rest args
      (String.utf8EncodeChar c ++ bs, args)

/-- Writes a format until the arguments are used up. -/
def formatAll (format : String) : Nat → List String → Bytes
  | 0, _ => []
  | fuel + 1, args =>
    let (bs, rest) := formatOnce (format.length + 1) format.toList args
    if rest.isEmpty || rest.length = args.length then bs else bs ++ formatAll format fuel rest

def printf : Tool := fun args _ disk =>
  match args with
  | [] => { status := 2, err := Text.encode "sh: 1: printf: usage: printf format [arg ...]\n", disk }
  | format :: args => { out := formatAll format (args.length + 1) args, disk }

def complain (tool : String) (disk : Disk) (message : String) : Effect :=
  { status := 1, err := Text.encode (tool ++ ": " ++ message ++ "\n"), disk }

/-- The words of a fault without its number. -/
def words (e : IoFault) : String :=
  match e with
  | .notFound => "No such file or directory"
  | .alreadyExists => "File exists"
  | .notDirectory => "Not a directory"
  | .isDirectory => "Is a directory"
  | .notEmpty => "Directory not empty"
  | e => e.message

def cat : Tool := fun args input disk =>
  if args.isEmpty then { out := input, disk }
  else args.foldl (fun acc name =>
    match disk.read ⟨name⟩ with
    | .ok content => { acc with out := acc.out ++ content }
    | .error e =>
      { acc with status := 1
                 err := acc.err ++ Text.encode ("cat: " ++ name ++ ": " ++ words e ++ "\n") })
    { disk }

def size? (disk : Disk) (name : String) : Option Nat :=
  match disk.read ⟨name⟩ with
  | .ok content => some content.length
  | .error _ => none

def isLink (disk : Disk) (name : String) : Bool :=
  match disk.locate false ⟨name⟩ with
  | .ok (.taken _ (.link _)) => true
  | _ => false

def unary? (disk : Disk) (op arg : String) : Option Bool :=
  match op with
  | "-e" | "-r" | "-w" => some (disk.exists? ⟨arg⟩)
  | "-f" => some (disk.isFile ⟨arg⟩)
  | "-d" | "-x" => some (disk.isDir ⟨arg⟩)
  | "-s" => some ((size? disk arg).any (0 < ·) || disk.isDir ⟨arg⟩)
  | "-h" | "-L" => some (isLink disk arg)
  | "-n" => some (arg != "")
  | "-z" => some (arg == "")
  | _ => none

def binary? (a op b : String) : Option Bool :=
  match op, a.toInt?, b.toInt? with
  | "=", _, _ => some (a == b)
  | "!=", _, _ => some (a != b)
  | "-eq", some m, some n => some (m == n)
  | "-ne", some m, some n => some (m != n)
  | "-lt", some m, some n => some (m < n)
  | "-le", some m, some n => some (m ≤ n)
  | "-gt", some m, some n => some (n < m)
  | "-ge", some m, some n => some (n ≤ m)
  | _, _, _ => none

/-- A condition; none if it is malformed. -/
def condition? (disk : Disk) : List String → Option Bool
  | [] => some false
  | [a] => some (a != "")
  | "!" :: rest => (condition? disk rest).map (!·)
  | [op, a] => unary? disk op a
  | [a, op, b] =>
    match op with
    | "-a" => some (a != "" && b != "")
    | "-o" => some (a != "" || b != "")
    | _ => binary? a op b
  | op :: a :: "-a" :: rest => do
    let x ← unary? disk op a
    let y ← condition? disk rest
    some (x && y)
  | op :: a :: "-o" :: rest => do
    let x ← unary? disk op a
    let y ← condition? disk rest
    some (x || y)
  | a :: op :: b :: "-a" :: rest => do
    let x ← binary? a op b
    let y ← condition? disk rest
    some (x && y)
  | a :: op :: b :: "-o" :: rest => do
    let x ← binary? a op b
    let y ← condition? disk rest
    some (x || y)
  | _ => none

def test : Tool := fun args _ disk =>
  match condition? disk args with
  | some b => { status := if b then 0 else 1, disk }
  | none => { status := 2, err := Text.encode "sh: 1: test: unexpected operator\n", disk }

def bracket : Tool := fun args input disk =>
  if args.getLast? = some "]" then test args.dropLast input disk
  else { status := 2, err := Text.encode "sh: 1: [: missing ]\n", disk }

/-- Letters of the options in front, and the other arguments. -/
def options (args : List String) : List Char × List String :=
  let isOption (a : String) : Bool := 1 < a.length && a.toList.head? = some '-'
  ((args.takeWhile isOption).flatMap (·.toList.drop 1), args.dropWhile isOption)

/-- Applies a change to each argument; one that fails is reported and the others go on. -/
def eachPath (tool verb : String) (act : Disk → Path → Except IoFault Disk) (args : List String)
    (disk : Disk) : Effect :=
  args.foldl (fun acc name =>
    match act acc.disk ⟨name⟩ with
    | .ok disk => { acc with disk }
    | .error e =>
      { acc with status := 1
                 err := acc.err ++
                   Text.encode (tool ++ ": " ++ verb ++ " '" ++ name ++ "': " ++ words e ++ "\n") })
    { disk }

def touch : Tool := fun args _ disk =>
  eachPath "touch" "cannot touch" (fun d p => if d.exists? p then .ok d else d.write p []) args disk

def remove : Tool := fun args _ disk =>
  let (flags, names) := options args
  let recursive := flags.contains 'r' || flags.contains 'R'
  let forced := flags.contains 'f'
  eachPath "rm" "cannot remove" (fun d p =>
    match if recursive then d.removeAll p else d.removeFile p with
    | .error .notFound => if forced then .ok d else .error .notFound
    | result => result) names disk

def makeDirs : Tool := fun args _ disk =>
  let (flags, names) := options args
  eachPath "mkdir" "cannot create directory"
    (fun d p => if flags.contains 'p' then d.createDirs p else d.createDir p) names disk

def removeDirs : Tool := fun args _ disk =>
  eachPath "rmdir" "failed to remove" Disk.removeDir args disk

/-- The path to which a file of that name goes: into `target` if that is a directory. -/
def landing (disk : Disk) (name target : String) : Path :=
  if disk.isDir ⟨target⟩ then (⟨target⟩ : Path).join ⟨((⟨name⟩ : Path).fileName?).getD name⟩
  else ⟨target⟩

def move : Tool := fun args _ disk =>
  match (options args).2 with
  | [name, target] =>
    match disk.rename ⟨name⟩ (landing disk name target) with
    | .ok disk => { disk }
    | .error e => complain "mv" disk ("cannot stat '" ++ name ++ "': " ++ words e)
  | _ => complain "mv" disk "missing file operand"

def copy : Tool := fun args _ disk =>
  match (options args).2 with
  | [name, target] =>
    match disk.read ⟨name⟩ with
    | .error e => complain "cp" disk ("cannot stat '" ++ name ++ "': " ++ words e)
    | .ok content =>
      match disk.write (landing disk name target) content with
      | .ok disk => { disk }
      | .error e => complain "cp" disk ("cannot create regular file '" ++ target ++ "': " ++ words e)
  | _ => complain "cp" disk "missing file operand"

def grep : Tool := fun args input disk =>
  let (flags, rest) := options args
  match rest with
  | [] => { status := 2, disk }
  | pattern :: names =>
    let hits (bytes : Bytes) : List Bytes :=
      ((bytes.splitOn 10).filter fun line => line != []).filter fun line =>
        Text.isInfix pattern.toList (Text.decodeLossy line).toList != flags.contains 'v'
    let sources := if names.isEmpty then [("", some input)] else names.map fun n =>
      (n, (disk.read ⟨n⟩).toOption)
    let missing := sources.filter fun (_, content) => content.isNone
    let found := sources.map fun (n, content) => (n, (content.map hits).getD [])
    let lines := found.flatMap fun (n, ls) => ls.map fun l =>
      (if 1 < names.length then Text.encode (n ++ ":") else []) ++ l ++ [10]
    { status := if !missing.isEmpty then 2 else if lines.isEmpty then 1 else 0
      out := if flags.contains 'q' then [] else lines.flatten
      err := missing.flatMap fun (n, _) =>
        Text.encode ("grep: " ++ n ++ ": No such file or directory\n")
      disk }

def listDir : Tool := fun args _ disk =>
  let (flags, names) := options args
  let names := if names.isEmpty then ["."] else names
  names.foldl (fun acc name =>
    match disk.locate true ⟨name⟩ with
    | .ok (.taken loc .dir) =>
      let shown := ((disk.children loc).map (·.1)).filter fun n =>
        flags.contains 'a' || n.toList.head? != some '.'
      { acc with out := acc.out ++ shown.flatMap fun n => Text.encode (n ++ "\n") }
    | .ok (.taken _ _) => { acc with out := acc.out ++ Text.encode (name ++ "\n") }
    | _ =>
      { acc with status := 2
                 err := acc.err ++
                   Text.encode ("ls: cannot access '" ++ name ++ "': No such file or directory\n") })
    { disk }

def workingDir : Tool := fun _ _ disk =>
  { out := Text.encode ((Disk.pathOf disk.here).text ++ "\n"), disk }

def always (status : Nat) : Tool := fun _ _ disk => { status, disk }

def tool? : String → Option Tool
  | "echo" => some echo
  | "printf" => some printf
  | "cat" => some cat
  | "test" => some test
  | "[" => some bracket
  | "true" | ":" => some (always 0)
  | "false" => some (always 1)
  | "touch" => some touch
  | "rm" => some remove
  | "mkdir" => some makeDirs
  | "rmdir" => some removeDirs
  | "mv" => some move
  | "cp" => some copy
  | "grep" => some grep
  | "ls" => some listDir
  | "pwd" => some workingDir
  | _ => none

end Relocation.Shell
