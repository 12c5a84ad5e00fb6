import Relocation.Config.Basic
import Relocation.Json.Parser

/-!
# Aliases in compiler settings

A `tsconfig.json` names aliases under `compilerOptions.paths`. Each of its two sections is an object,
or an array with the fields in order.
-/

namespace Relocation.Compiler

def fileName : Path := ⟨"tsconfig.json"⟩

structure Options where
  baseUrl : Option String := none
  /-- Patterns and their targets. -/
  paths : Table String (List String) := ∅

def fields? (names : List String) (j : Json) : Option (List (Option Json)) :=
  match j with
  | .obj members =>
    if names.any fun name => 1 < members.countP (·.1 = name) then none
    else some (names.map fun name => j.get? name)
  | .arr items =>
    if names.length < items.length then none
    else some ((List.range names.length).map fun i => items[i]?)
  | _ => none

def strings? : Json → Option (List String)
  | .arr items => items.mapM Json.asString?
  | _ => none

def baseUrl? : Option Json → Option (Option String)
  | none => some none
  | some .null => some none
  | some (.str s) => some (some s)
  | some _ => none

def paths? : Option Json → Option (Table String (List String))
  | none => some ∅
  | some (.obj members) =>
    members.foldlM (fun t (key, v) => (strings? v).map fun targets => t.insert key targets) ∅
  | some _ => none

def options? (j : Json) : Option Options :=
  match fields? ["baseUrl", "paths"] j with
  | some [baseUrl, paths] => do
    let baseUrl ← baseUrl? baseUrl
    let paths ← paths? paths
    some { baseUrl, paths }
  | _ => none

def settings? (j : Json) : Option Options :=
  match fields? ["compilerOptions"] j with
  | some [none] => some {}
  | some [some options] => options? options
  | _ => none

/-- A text without the star at its end. -/
def beforeStar? (s : String) : Option (List Char) := Text.dropTail? ['*'] s.toList

/-- A pattern and its first target make an alias if both end in a star and the target lies inside
the project. -/
def alias? (base : Path) (key : String) (targets : List String) : Option Alias := do
  let lead ← beforeStar? key
  let target ← targets.head?.bind beforeStar?
  let dir := (base.join ⟨String.ofList (target.reverse.dropWhile (· == '/')).reverse⟩).clean
  if !dir.staysInside then none
  else some ⟨String.ofList lead, if dir.same ⟨"."⟩ then ⟨""⟩ else dir⟩

def Options.aliases (o : Options) : List Alias :=
  o.paths.filterMap fun (key, targets) => alias? ⟨o.baseUrl.getD "."⟩ key targets

/-- The aliases of a settings file; none if it cannot be read. -/
def aliasesOf (text : String) : List Alias :=
  (((Json.parse? text).bind settings?).map Options.aliases).getD []

end Relocation.Compiler
