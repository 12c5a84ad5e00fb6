import Relocation.Extraction.Basic
import Relocation.Text.Utf8

/-!
# Source trees

The modules of a tree, sorted by path, and every file seen there. Paths are relative to the root.
-/

namespace Relocation

theorem Module.blank_of_decoded (content : String) (undecoded : true = false) : content = "" :=
  Bool.noConfusion undecoded

/-- A source file. One that is not valid UTF-8 has no content but keeps its size. -/
structure Module where
  path : Path
  content : String
  size : Nat
  decoded : Bool := true
  blank : decoded = false → content = "" := by
    first
      | exact fun _ => rfl
      | exact Module.blank_of_decoded _
  deriving DecidableEq, Repr

namespace Module

def ofBytes (path : Path) (bytes : Text.Bytes) : Module :=
  match Text.decode? bytes with
  | some content => { path, content, size := bytes.length, decoded := true }
  | none => { path, content := "", size := bytes.length, decoded := false }

end Module

structure SourceTree where
  root : Path
  /-- In path order. -/
  modules : List Module
  /-- Every file, modules included. -/
  files : Keys Path
  deriving DecidableEq, Repr

namespace SourceTree

def pathAtOrBefore (a b : Module) : Bool := (compare a.path b.path).isLE

def ofModules (root : Path) (modules : List Module) : SourceTree :=
  let modules := modules.mergeSort pathAtOrBefore
  { root, modules, files := Keys.ofListLast (modules.map (·.path)) }

/-- Adds files that are not modules. -/
def withFiles (t : SourceTree) (files : List Path) : SourceTree :=
  { t with files := t.files.insertAll files }

def contains (t : SourceTree) (path : Path) : Bool := t.modules.any (·.path.same path)

end SourceTree

def builtinIgnored : List String :=
  ["node_modules", "vendor", "dist", "build", "out", ".git", ".svn", ".hg", ".next", ".nuxt",
    ".turbo", ".output", ".cache", ".nyc_output", "coverage", ".restructure"]

/-- The path passes through an ignored name or one of `extra`. -/
def isExcluded (extra : List String) (path : Path) : Bool :=
  path.components.any fun
    | .normal name => builtinIgnored.contains name || extra.contains name
    | _ => false

def hasExtension (extensions : List String) (path : Path) : Bool :=
  let name := (path.fileName?.getD "").toList
  extensions.any fun ext => ext.toList.isSuffixOf name

end Relocation
