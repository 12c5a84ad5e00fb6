import Relocation.Config.Basic
import Relocation.Toml.Reader

/-!
# Reading the configuration

Unknown keys are ignored. A section is a table or an array with the fields in order; a field may not
be given twice, and a field without default must be there. A date in place of a section counts as a
section without known fields.
-/

namespace Relocation.Config

open Toml (Value)

/-- The known fields of a section; none if it is no section or gives one twice. -/
def fields? (names : List String) (v : Value) : Option (List (Option Value)) :=
  match v with
  | .table _ entries =>
    if names.any fun name => 1 < entries.countP (·.1 = name) then none
    else some (names.map fun name => (entries.find? (·.1 = name)).map (·.2))
  | .array items =>
    if names.length < items.length then none
    else some ((List.range names.length).map fun i => items[i]?)
  | .date => some (names.map fun _ => none)
  | _ => none

def string? : Value → Option String
  | .string s => some s
  | _ => none

def natural? : Value → Option Nat
  | .integer n => if 0 ≤ n then some n.toNat else none
  | _ => none

def list? (item? : Value → Option α) : Value → Option (List α)
  | .array items => items.mapM item?
  | _ => none

/-- One of some names: a string, or a table in braces that holds an empty one under the name. -/
def name? : Value → Option String
  | .string s => some s
  | .table true [(name, .table _ [])] => some name
  | _ => none

/-- A field, or its default if it is left out. -/
def orDefault (read? : Value → Option α) (dflt : α) : Option Value → Option α
  | none => some dflt
  | some v => read? v

def optional? (read? : Value → Option α) : Option Value → Option (Option α)
  | none => some none
  | some v => (read? v).map some

def alias? (v : Value) : Option Alias :=
  match fields? ["prefix", "dir"] v with
  | some [some lead, some dir] => do
    let lead ← string? lead
    let dir ← string? dir
    some ⟨lead, ⟨dir⟩⟩
  | _ => none

def group? (v : Value) : Option GroupRule :=
  match fields? ["pattern", "category", "destination"] v with
  | some [some pattern, category, some destination] => do
    let pattern ← string? pattern
    let category ← optional? (fun v => (name? v).bind Category.ofName?) category
    let destination ← string? destination
    some { pattern, category, destination }
  | _ => none

def readProject (c : Config) (v : Value) : Option Config :=
  match fields? ["root", "exclude", "extensions"] v with
  | some [root, exclude, extensions] => do
    let root ← orDefault string? c.root root
    let exclude ← orDefault (list? string?) c.exclude exclude
    let extensions ← orDefault (list? string?) c.extensions extensions
    some { c with root, exclude, extensions }
  | _ => none

def readExtract (c : Config) (v : Value) : Option Config :=
  match fields? ["backend", "workers"] v with
  | some [backend, workers] => do
    let backend ← orDefault (fun v => (name? v).bind Backend.ofName?) c.backend backend
    let workers ← optional? natural? workers
    some { c with backend, workers }
  | _ => none

def readClassify (c : Config) (v : Value) : Option Config :=
  match fields? ["small_threshold", "large_threshold", "scope"] v with
  | some [small, large, scope] => do
    let small ← orDefault natural? c.thresholds.small small
    let large ← orDefault natural? c.thresholds.large large
    let scope ← orDefault (list? string?) c.scope scope
    some { c with thresholds := { small, large }, scope }
  | _ => none

def readVerify (c : Config) (v : Value) : Option Config :=
  match fields? ["command", "timeout_secs"] v with
  | some [command, seconds] => do
    let verifyCommand ← optional? string? command
    let verifySeconds ← orDefault natural? c.verifySeconds seconds
    some { c with verifyCommand, verifySeconds }
  | _ => none

def readSnapshot (c : Config) (v : Value) : Option Config :=
  match fields? ["dir"] v with
  | some [dir] => do
    let snapshotDir ← orDefault string? c.snapshotDir dir
    some { c with snapshotDir }
  | _ => none

def withSection (read : Config → Value → Option Config) (v : Option Value) (c : Config) :
    Option Config :=
  match v with
  | none => some c
  | some v => read c v

def ofEntries? (entries : Toml.Entries) : Option Config :=
  let sections := ["project", "aliases", "extract", "classify", "group", "verify", "snapshot"]
  match fields? sections (.table false entries) with
  | some [project, aliases, extract, classify, group, verify, snapshot] => do
    let aliases ← orDefault (list? alias?) [] aliases
    let groups ← orDefault (list? group?) [] group
    let c ← withSection readProject project { aliases, groups }
    let c ← withSection readExtract extract c
    let c ← withSection readClassify classify c
    let c ← withSection readVerify verify c
    withSection readSnapshot snapshot c
  | _ => none

/-- The settings in a configuration file; none if it is malformed. -/
def parse? (text : String) : Option Config := (Toml.read? text).bind ofEntries?

end Relocation.Config
