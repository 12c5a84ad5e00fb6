import Relocation.Graph.Alias

/-!
# Spelling specifiers

A specifier spells its target with the full file name, without the extension, or as the directory
of an index module. `SpecifierStyle.detect?` finds the style and `render` writes another target in
it.
-/

namespace Relocation

inductive SpecifierStyle where
  | explicit
  /-- With the extension that the target has. -/
  | extensionless (extension : String)
  | directoryIndex
  deriving DecidableEq, Repr

namespace SpecifierStyle

def name : SpecifierStyle → String
  | .explicit => "explicit"
  | .extensionless _ => "extensionless"
  | .directoryIndex => "directory_index"

def extension? : SpecifierStyle → Option String
  | .extensionless ext => some ext
  | _ => none

/-- A text without an extension that it ends in. -/
def withoutTail? (ext s : String) : Option String :=
  (Text.dropTail? ext.toList s.toList).map String.ofList

/-- The style in which `base` spells `target`. -/
def detect? (base target : Path) (extensions : List String) : Option SpecifierStyle :=
  if base.same target then some .explicit
  else
    match extensions.find? fun ext => withoutTail? ext target.slash = some base.slash with
    | some ext => some (.extensionless ext)
    | none =>
      let dir : Path := if base.same ⟨"."⟩ then ⟨""⟩ else base
      if target.stem? = some "index" && target.directory.same dir then some .directoryIndex
      else none

/-- The path that a specifier of this style names for a target. -/
def render (style : SpecifierStyle) (target : Path) : Path :=
  match style with
  | .explicit => target
  | .extensionless ext => ⟨(withoutTail? ext target.slash).getD target.slash⟩
  | .directoryIndex => target.directory

end SpecifierStyle

/-- The later of two aliases unless the earlier one has the deeper directory. -/
def deeperAlias (a b : Alias) : Alias :=
  if b.dir.components.length < a.dir.components.length then a else b

/-- The alias with the deepest directory that holds `p`; the last one among equals. -/
def deepestAlias? (aliases : List Alias) (p : Path) : Option Alias :=
  match aliases.filter fun a => p.startsWith a.dir with
  | [] => none
  | a :: rest => some (rest.foldl deeperAlias a)

def Alias.spell (a : Alias) (rest : String) : String :=
  let lead := a.lead.toList
  if rest = "" then String.ofList (lead.reverse.dropWhile (· == '/')).reverse
  else if lead.getLast? = some '/' then a.lead ++ rest
  else a.lead ++ "/" ++ rest

def aliasSpecifier? (aliases : List Alias) (p : Path) : Option String :=
  match deepestAlias? aliases p with
  | none => none
  | some a => (p.below? a.dir).map fun rest => a.spell (Path.slashed rest)

def normalNames (p : Path) : List String :=
  p.components.filterMap fun
    | .normal name => some name
    | _ => none

/-- Both lists without the names that they start with in common. -/
def dropCommon : List String → List String → List String × List String
  | a :: as, b :: bs => if a = b then dropCommon as bs else (a :: as, b :: bs)
  | as, bs => (as, bs)

/-- Spells `target` as seen from the directory `dir`. -/
def relativeSpecifier (dir target : Path) : String :=
  let (up, down) := dropCommon (normalNames dir) (normalNames target)
  let joined := "/".intercalate (up.map (fun _ => "..") ++ down)
  if joined = "" then "."
  else if "..".toList.isPrefixOf joined.toList then joined
  else "./" ++ joined

end Relocation
