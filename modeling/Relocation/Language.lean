import Relocation.Path.Basic

/-!
# Source languages

The language of a module is read off the extension of its file name, case included.
-/

namespace Relocation

inductive Language where
  | javaScript
  | typeScript
  | tsx
  deriving DecidableEq, Repr

namespace Language

def ofExtension? : String → Option Language
  | "js" | "jsx" | "mjs" | "cjs" => some .javaScript
  | "ts" | "mts" | "cts" => some .typeScript
  | "tsx" => some .tsx
  | _ => none

def ofPath? (p : Path) : Option Language := p.extension?.bind ofExtension?

/-- In plain TypeScript `<Name>` is a type assertion, elsewhere a markup element. -/
def allowsMarkup : Language → Bool
  | .typeScript => false
  | _ => true

/-- The language has type annotations. -/
def isTyped : Language → Bool
  | .javaScript => false
  | _ => true

def name : Language → String
  | .javaScript => "JavaScript"
  | .typeScript => "TypeScript"
  | .tsx => "Tsx"

end Language

end Relocation
