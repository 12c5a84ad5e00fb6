import Relocation.Json.Printer
import Relocation.Probe
import Relocation.Report.Migration

/-!
# The command line

`[-p DIR] analyze [--graph]`, `plan`, `migrate [--verify COMMAND] [--timeout SECONDS]` and
`restore SNAPSHOT`. Reports are JSON; a failure is one line, and the exit code is 1. A migration that
does not succeed exits with 2, and so does a command that cannot be understood.
-/

namespace Relocation.CommandLine

inductive Command where
  | analyze (full : Bool)
  | plan
  | migrate (verify : Option String) (seconds : Option Nat)
  | restore (snapshot : Path)
  deriving DecidableEq, Repr

inductive Request where
  | run (dir : Path) (command : Command)
  | help
  | unclear
  deriving DecidableEq, Repr

inductive Arg where
  | option (name : String) (value : Option String)
  | operand (text : String)
  | separator
  deriving DecidableEq, Repr

/-- Splits `--name=value` and `-nvalue`. -/
def Arg.read (text : String) : Arg :=
  match text.toList with
  | ['-', '-'] => .separator
  | '-' :: '-' :: rest =>
    let name := String.ofList (rest.takeWhile (· != '='))
    match rest.dropWhile (· != '=') with
    | [] => .option name none
    | _ :: value => .option name (some (String.ofList value))
  | ['-'] => .operand text
  | '-' :: c :: rest =>
    let name := String.ofList [c]
    match rest with
    | [] => .option name none
    | '=' :: value => .option name (some (String.ofList value))
    | value => .option name (some (String.ofList value))
  | _ => .operand text

/-- Options that were given, by name, and operands. -/
structure Parts where
  values : List (String × String) := []
  flags : List String := []
  operands : List String := []

/-- The value of an option: its own, or the next argument unless that looks like an option. -/
def valueOf (own : Option String) (rest : List String) : Option (String × List String) :=
  match own, rest with
  | some v, rest => some (v, rest)
  | none, v :: rest =>
    match Arg.read v with
    | .operand v => some (v, rest)
    | _ => none
  | none, [] => none

inductive Stop where
  | help
  | unclear

/-- Reads options and operands. `canonical` names the options that are known; an option may be given
once. Reading stops at the first operand if `leading` says so. -/
def readParts (canonical : String → Option String) (takesValue : String → Bool) (leading : Bool) :
    Nat → Parts → List String → Except Stop (Parts × List String)
  | 0, _, _ => .error .unclear
  | _ + 1, parts, [] => .ok (parts, [])
  | fuel + 1, parts, text :: rest =>
    match Arg.read text with
    | .separator =>
      if leading then .ok (parts, rest) else .ok ({ parts with operands := parts.operands ++ rest }, [])
    | .operand text =>
      if leading then .ok (parts, text :: rest)
      else
        readParts canonical takesValue leading fuel
          { parts with operands := parts.operands ++ [text] } rest
    | .option name own =>
      if name = "h" ∨ name = "help" then .error .help
      else
        match canonical name with
        | none => .error .unclear
        | some name =>
          if parts.flags.contains name || parts.values.any (·.1 = name) then .error .unclear
          else if takesValue name then
            match valueOf own rest with
            | none => .error .unclear
            | some (v, rest) =>
              readParts canonical takesValue leading fuel
                { parts with values := parts.values ++ [(name, v)] } rest
          else if own.isSome then .error .unclear
          else
            readParts canonical takesValue leading fuel
              { parts with flags := parts.flags ++ [name] } rest

def readAll (canonical : String → Option String) (takesValue : String → Bool)
    (args : List String) : Except Stop Parts :=
  (readParts canonical takesValue false (args.length + 1) {} args).map (·.1)

/-- A number of seconds below `2 ^ 64`. -/
def seconds? (text : String) : Option Nat :=
  let ds := match text.toList with
    | '+' :: rest => rest
    | cs => cs
  if ds.isEmpty || !ds.all Char.isDigit then none
  else
    let n := ds.foldl (fun n d => n * 10 + (d.toNat - '0'.toNat)) 0
    if n < Nat.pow 2 64 then some n else none

def value? (parts : Parts) (name : String) : Option String :=
  (parts.values.find? (·.1 = name)).map (·.2)

/-- Reads what follows the name of a command. -/
def readCommand (name : String) (args : List String) : Except Stop Command :=
  let none? : String → Option String := fun _ => none
  match name with
  | "analyze" => do
    let parts ← readAll (fun n => if n = "graph" then some n else none) (fun _ => false) args
    if parts.operands.isEmpty then .ok (.analyze (parts.flags.contains "graph")) else .error .unclear
  | "plan" => do
    let parts ← readAll none? (fun _ => false) args
    if parts.operands.isEmpty then .ok .plan else .error .unclear
  | "migrate" => do
    let known (n : String) : Option String := if n = "verify" ∨ n = "timeout" then some n else none
    let parts ← readAll known (fun _ => true) args
    if !parts.operands.isEmpty then .error .unclear
    else
      match value? parts "timeout" with
      | none => .ok (.migrate (value? parts "verify") none)
      | some text =>
        match seconds? text with
        | some n => .ok (.migrate (value? parts "verify") (some n))
        | none => .error .unclear
  | "restore" => do
    let parts ← readAll none? (fun _ => false) args
    match parts.operands with
    | [path] => if path = "" then .error .unclear else .ok (.restore ⟨path⟩)
    | _ => .error .unclear
  | "help" => .error .help
  | _ => .error .unclear

def readRequest (args : List String) : Except Stop Request := do
  let known (n : String) : Option String := if n = "p" ∨ n = "path" then some "path" else none
  let (parts, rest) ← readParts known (fun _ => true) true (args.length + 1) {} args
  let dir := (value? parts "path").getD "."
  match rest with
  | [] => .error .unclear
  | name :: args =>
    let command ← readCommand name args
    if dir = "" then .error .unclear else .ok (.run ⟨dir⟩ command)

def parse (args : List String) : Request :=
  match readRequest args with
  | .ok request => request
  | .error .help => .help
  | .error .unclear => .unclear

def usage : String :=
  "Usage: restructure [OPTIONS] <COMMAND>\n\n" ++
  "Commands:\n" ++
  "  analyze  Build the reference graph and classify every module in scope\n" ++
  "  plan     Show the move plan and rewrite rules the grouping rules imply\n" ++
  "  migrate  Plan, then run the migration to commit or roll back\n" ++
  "  restore  Restore a persisted snapshot\n\n" ++
  "Options:\n" ++
  "  -p, --path <PATH>  Project directory holding restructure.toml [default: .]\n" ++
  "  -h, --help         Print help"

structure Response where
  code : Nat := 0
  report : Option Json := none
  /-- A line for the error stream. -/
  complaint : Option String := none

/-- The message of a failure and of what caused it. -/
def chain : Failure → List String
  | .io fault => [Failure.message (.io fault), fault.message]
  | f => [f.message]

def complain (context : List String) (f : Failure) : Response :=
  { code := 1, complaint := some ("Error: " ++ ": ".intercalate (context ++ chain f)) }

def opening (dir : Path) : List String := ["opening project at " ++ dir.text]

def planning : List String := ["planning failed; nothing was changed"]

/-- Used when no command verifies a migration. -/
def noVerification : Probe :=
  Probe.fixed { passed := true, output := "no verification command configured" }

/-- The project in a directory and its analysis. -/
def analysed (dir : Path) (d : Disk) : Except Response (Project × Analysis) :=
  match Project.openAt d dir with
  | .error e => .error (complain (opening dir) e)
  | .ok project =>
    match project.analyze d with
    | .error e => .error (complain [] e)
    | .ok analysis => .ok (project, analysis)

/-- The same with the plan of its grouping rules. -/
def planned (dir : Path) (d : Disk) : Except Response (Project × MigrationPlan) := do
  let (project, analysis) ← analysed dir d
  match project.plan analysis with
  | .error e => .error (complain planning e)
  | .ok plan => .ok (project, plan)

def migrate (dir : Path) (verify : Option String) (seconds : Option Nat) (stamp : Stamp) (d : Disk) :
    Response × Disk :=
  match planned dir d with
  | .error response => (response, d)
  | .ok (project, plan) =>
    if plan.moves.moves.isEmpty then
      ({ code := 1, complaint := some "Error: no grouping rule moves any module" }, d)
    else
      let probe := match verify.or project.config.verifyCommand with
        | some command => Probe.shell command
        | none => noVerification
      let m := (project.migration plan stamp { disk := d }).run probe
        (seconds.getD project.config.verifySeconds)
      let result := m.result
      ({ code := if result.success then 0 else 2, report := some result.toJson }, m.volume.disk)

/-- Carries out a request. A migration takes `stamp` for its snapshot. -/
def perform (stamp : Stamp) (d : Disk) : Request → Response × Disk
  | .help => ({ complaint := some usage }, d)
  | .unclear => ({ code := 2, complaint := some usage }, d)
  | .run dir (.analyze full) =>
    match analysed dir d with
    | .error response => (response, d)
    | .ok (_, a) => ({ report := some (if full then a.toFullJson else a.toJson) }, d)
  | .run dir .plan =>
    match planned dir d with
    | .error response => (response, d)
    | .ok (_, plan) => ({ report := some plan.toJson }, d)
  | .run dir (.migrate verify seconds) => migrate dir verify seconds stamp d
  | .run _ (.restore path) =>
    match Project.restore path d with
    | (.error e, d) => (complain ["restoring " ++ path.text] e, d)
    | (.ok report, d) => ({ report := some report.toJson }, d)

end Relocation.CommandLine
