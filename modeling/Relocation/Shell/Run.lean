import Relocation.Shell.Script
import Relocation.Shell.Tools

/-!
# Running shell scripts

Time passes only in `sleep`. A script that is still asleep when its time is up is cut off there.
-/

namespace Relocation.Shell

open Text (Bytes)

/-- Why nothing more is run. -/
inductive Halt where
  | exited
  | killed
  | timedOut
  deriving DecidableEq, Repr

structure State where
  disk : Disk
  input : Bytes := []
  out : Bytes := []
  err : Bytes := []
  status : Nat := 0
  /-- Milliseconds slept and allowed. -/
  elapsed : Nat := 0
  limit : Nat
  halt : Option Halt := none

def processId : String := "4242"

def paramValue (s : State) : String → String
  | "?" => toString s.status
  | "$" => processId
  | "PWD" => (Disk.pathOf s.disk.here).text
  | _ => ""

def pieceText (s : State) : Piece → String
  | .text t => t
  | .param name => paramValue s name

def isParam : Piece → Bool
  | .param _ => true
  | .text _ => false

/-- The text of a word; none if it stands for nothing at all. -/
def expand? (s : State) (w : Word) : Option String :=
  let text := String.join (w.map (pieceText s))
  if text = "" && w.all isParam then none else some text

/-- Milliseconds of a duration such as `2`, `0.5` or `1m`. -/
def duration (text : String) : Nat :=
  let cs := text.toList
  let whole := cs.takeWhile Char.isDigit
  let rest := cs.dropWhile Char.isDigit
  let (places, unit) := match rest with
    | '.' :: more => (more.takeWhile Char.isDigit, more.dropWhile Char.isDigit)
    | more => ([], more)
  let value (ds : List Char) : Nat := ds.foldl (fun n d => n * 10 + (d.toNat - '0'.toNat)) 0
  let thousandths := (places ++ ['0', '0', '0']).take 3
  let seconds := match unit with
    | ['m'] => 60
    | ['h'] => 3600
    | _ => 1
  (value whole * 1000 + value thousandths) * seconds

def sleep (args : List String) (s : State) : State :=
  let elapsed := args.foldl (fun total arg => total + duration arg) s.elapsed
  if s.limit < elapsed then { s with elapsed, halt := some .timedOut }
  else { s with elapsed, status := 0 }

def changeDir (args : List String) (s : State) : State :=
  match s.disk.locate true ⟨args.head?.getD ""⟩ with
  | .ok (.taken loc .dir) => { s with disk := { s.disk with here := loc }, status := 0 }
  | _ =>
    { s with status := 2
             err := s.err ++ Text.encode ("sh: 1: cd: can't cd to " ++ args.head?.getD "" ++ "\n") }

def invoke (name : String) (args : List String) (s : State) : State :=
  match name with
  | "exit" =>
    { s with status := ((args.head?.bind String.toNat?).getD s.status) % 256, halt := some .exited }
  | "kill" =>
    if args.contains processId then { s with status := 137, halt := some .killed }
    else { s with status := 1, err := s.err ++ Text.encode "sh: 1: kill: No such process\n" }
  | "sleep" => sleep args s
  | "cd" => changeDir args s
  | name =>
    match tool? name with
    | some tool =>
      let e := tool args s.input s.disk
      { s with disk := e.disk, out := s.out ++ e.out, err := s.err ++ e.err, status := e.status }
    | none =>
      { s with status := 127, err := s.err ++ Text.encode ("sh: 1: " ++ name ++ ": not found\n") }

/-- Where the bytes of a stream end up. -/
inductive Target where
  | out
  | err
  | file (path : Path)
  | nowhere

/-- Opens a redirection: a file is emptied unless it is appended to. -/
def openSink (s : State) (first second : Target) : Sink → Option (Target × Disk)
  | .copy 1 => some (first, s.disk)
  | .copy _ => some (second, s.disk)
  | .file append w =>
    let name := (expand? s w).getD ""
    if name = "/dev/null" then some (.nowhere, s.disk)
    else if append && s.disk.exists? ⟨name⟩ then some (.file ⟨name⟩, s.disk)
    else
      match s.disk.write ⟨name⟩ [] with
      | .ok disk => some (.file ⟨name⟩, disk)
      | .error _ => none

def openSinks (s : State) (first second : Target) :
    List (Nat × Sink) → Option (Target × Target × Disk)
  | [] => some (first, second, s.disk)
  | (stream, sink) :: rest =>
    match openSink s first second sink with
    | none => none
    | some (target, disk) =>
      let s := { s with disk }
      if stream = 1 then openSinks s target second rest else openSinks s first target rest

def emit (bytes : Bytes) (t : Target) (s : State) : State :=
  match t with
  | .out => { s with out := s.out ++ bytes }
  | .err => { s with err := s.err ++ bytes }
  | .nowhere => s
  | .file p =>
    let old := match s.disk.read p with
      | .ok content => content
      | .error _ => []
    match s.disk.write p (old ++ bytes) with
    | .ok disk => { s with disk }
    | .error _ => s

/-- Runs an action on fresh streams and sends what it writes where the redirections say. -/
def redirected (outputs : List (Nat × Sink)) (act : State → State) (s : State) : State :=
  match openSinks s .out .err outputs with
  | none =>
    { s with status := 2, err := s.err ++ Text.encode "sh: 1: cannot create file\n" }
  | some (first, second, disk) =>
    let t := act { s with disk, out := [], err := [] }
    emit t.err second (emit t.out first { t with out := s.out, err := s.err })

/-- The bytes that a command reads. -/
def inputFor (input : Option Word) (s : State) : Option Bytes :=
  match input with
  | none => some s.input
  | some w => (s.disk.read ⟨(expand? s w).getD ""⟩).toOption

def isAssignment (t : String) : Bool :=
  let name := t.toList.takeWhile isNameChar
  !name.isEmpty && (t.toList.drop name.length).head? = some '='

def exec : Script → State → State
  | .skip, s => s
  | .simple ws outputs input, s =>
    if s.halt.isSome then s
    else
      match inputFor input s with
      | none => { s with status := 2, err := s.err ++ Text.encode "sh: 1: cannot open file\n" }
      | some bytes =>
        match (ws.filterMap (expand? s)).dropWhile isAssignment with
        | [] => redirected outputs (fun s => { s with status := 0 }) s
        | name :: args =>
          let t := redirected outputs (invoke name args) { s with input := bytes }
          { t with input := s.input }
  | .not a, s =>
    let t := exec a s
    if t.halt.isSome then t else { t with status := if t.status = 0 then 1 else 0 }
  | .both a b, s =>
    let t := exec a s
    if t.halt.isSome || t.status != 0 then t else exec b t
  | .either a b, s =>
    let t := exec a s
    if t.halt.isSome || t.status == 0 then t else exec b t
  | .seq a b, s =>
    let t := exec a s
    if t.halt.isSome then t else exec b t
  | .pipe a b, s =>
    let t := exec a { s with out := [] }
    if t.halt = some .timedOut then t
    else
      let u := exec b { t with out := s.out, input := t.out, halt := none }
      { u with input := s.input }
  | .choose test yes no, s =>
    let t := exec test s
    if t.halt.isSome then t
    else if t.status = 0 then exec yes t
    else exec no { t with status := 0 }
  | .sub a, s =>
    let t := exec a s
    let halt := if t.halt = some .exited then none else t.halt
    { t with disk := { t.disk with here := s.disk.here }, halt }

/-- Runs the text of a script; one that cannot be read fails. -/
def run (text : String) (s : State) : State :=
  match parse? text with
  | some script => exec script s
  | none => { s with status := 2, err := s.err ++ Text.encode "sh: 1: Syntax error\n" }

end Relocation.Shell
