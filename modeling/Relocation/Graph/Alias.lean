import Relocation.Path.Basic
import Relocation.Text.Slice

/-!
# Aliases

An alias stands at the front of a specifier for a directory of the tree.
-/

namespace Relocation

structure Alias where
  /-- The text that a specifier starts with. -/
  lead : String
  dir : Path
  deriving DecidableEq, Repr

/-- `.`, `..` or a specifier that starts with `./` or `../`. -/
def isRelativeSpecifier (specifier : String) : Bool :=
  specifier = "." || specifier = ".." || "./".toList.isPrefixOf specifier.toList ||
    "../".toList.isPrefixOf specifier.toList

end Relocation
