import Relocation.Graph.Alias
import Relocation.Source

/-!
# Resolving references

A path specifier names a base path: relative to its referrer, or below the directory of an alias.
The base stands for itself, for the module with an extension added, or for the index module of the
directory, in this order. A markup name stands for every module of that name or with such an
export.
-/

namespace Relocation

inductive SpecifierForm where
  | relative
  | alias
  /-- A package name. -/
  | bare
  deriving DecidableEq, Repr

def SpecifierForm.name : SpecifierForm → String
  | .relative => "relative"
  | .alias => "alias"
  | .bare => "bare"

inductive Unresolved where
  | external
  | notFound
  | computed
  | noExportMatch
  deriving DecidableEq, Repr

def Unresolved.name : Unresolved → String
  | .external => "external"
  | .notFound => "not_found"
  | .computed => "computed"
  | .noExportMatch => "no_export_match"

inductive Resolution where
  | resolved (targets : List Path)
  | unresolved (reason : Unresolved)
  deriving DecidableEq, Repr

namespace Resolution

def targets : Resolution → List Path
  | .resolved targets => targets
  | .unresolved _ => []

/-- The only target. -/
def target? (r : Resolution) : Option Path :=
  match r.targets with
  | [t] => some t
  | _ => none

end Resolution

/-- A module as other modules see it. -/
structure Exporter where
  path : Path
  exports : ExportSet
  deriving DecidableEq, Repr

structure Resolver where
  /-- Modules in path order. -/
  modules : List Exporter
  files : List Path
  aliases : List Alias
  extensions : List String

namespace Resolver

/-- Equality of names up to the case of ASCII letters. -/
def sameName (a b : String) : Bool := a.toList.map Char.toLower = b.toList.map Char.toLower

/-- Aliases with the longest text first, in their given order among equals. -/
def byLead (aliases : List Alias) : List Alias :=
  aliases.mergeSort fun a b => b.lead.utf8ByteSize ≤ a.lead.utf8ByteSize

def aliasFor? (r : Resolver) (specifier : String) : Option Alias :=
  (byLead r.aliases).find? fun a => a.lead.toList.isPrefixOf specifier.toList

def form (r : Resolver) (specifier : String) : SpecifierForm :=
  if isRelativeSpecifier specifier then .relative
  else if (r.aliasFor? specifier).isSome then .alias
  else .bare

/-- What an alias specifier says behind its alias, without leading slashes. -/
def aliasRest (a : Alias) (specifier : String) : Path :=
  ⟨String.ofList ((specifier.toList.drop a.lead.toList.length).dropWhile (· == '/'))⟩

/-- The path that a specifier names before extensions are tried; none for a package name. -/
def basePath? (r : Resolver) (referrer : Path) (specifier : String) : Option Path :=
  if isRelativeSpecifier specifier then some (referrer.directory.join ⟨specifier⟩).clean
  else (r.aliasFor? specifier).map fun a => (a.dir.join (aliasRest a specifier)).clean

def hasModule (r : Resolver) (p : Path) : Bool := r.modules.any (·.path.same p)

def hasFile (r : Resolver) (p : Path) : Bool := r.files.any (·.same p)

/-- The first index module of a directory. -/
def probeIndex? (r : Resolver) (dir : Path) : Option Path :=
  (r.extensions.map fun ext => dir.join ⟨"index" ++ ext⟩).find? r.hasModule

def probe? (r : Resolver) (base : Path) : Option Path :=
  if base.text = "" ∨ base.same ⟨"."⟩ then r.probeIndex? ⟨""⟩
  else if r.hasModule base || r.hasFile base then some base
  else
    match (r.extensions.map fun ext => (⟨base.text ++ ext⟩ : Path)).find? r.hasModule with
    | some p => some p
    | none => r.probeIndex? base

def resolvePath (r : Resolver) (referrer : Path) (specifier : String) : Resolution :=
  match r.basePath? referrer specifier with
  | none => .unresolved .external
  | some base =>
    if base.staysInside then
      match r.probe? base with
      | some p => .resolved [p]
      | none => .unresolved .notFound
    else .unresolved .notFound

/-- The module goes by that name and exports something, or exports that name. -/
def answersTo (m : Exporter) (ident : String) : Bool :=
  ((m.path.moduleName?.map (sameName · ident)).getD false && !m.exports.isEmpty) ||
    m.exports.names.toList.any (sameName · ident)

def resolveName (r : Resolver) (source : Path) (ident : String) : Resolution :=
  match (r.modules.filter fun m => !m.path.same source && answersTo m ident).map (·.path) with
  | [] => .unresolved .noExportMatch
  | targets => .resolved targets

def resolve (r : Resolver) (ref : Reference) : Resolution :=
  if ref.computed then .unresolved .computed
  else if ref.kind.hasPath then r.resolvePath ref.source ref.specifier
  else r.resolveName ref.source ref.specifier

end Resolver

end Relocation
