import Relocation.Glob.Match
import Relocation.Path.Basic

/-!
# Scopes

A scope selects paths by globs. Without globs it selects every path.
-/

namespace Relocation

def Glob.selects (g : Glob) (path : Path) : Bool := g.matchesText path.slash

structure Scope where
  globs : Option (List Glob)

namespace Scope

def all : Scope := ⟨none⟩

def ofPatterns (patterns : List String) : Except Glob.Invalid Scope :=
  if patterns.isEmpty then .ok all
  else (patterns.mapM Glob.parse).map fun globs => ⟨some globs⟩

def contains (s : Scope) (path : Path) : Bool :=
  match s.globs with
  | none => true
  | some globs => globs.any (·.selects path)

end Scope

end Relocation
