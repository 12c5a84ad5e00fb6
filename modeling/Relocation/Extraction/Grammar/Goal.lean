import Relocation.Extraction.Grammar.Lexeme
import Relocation.Language

/-!
# Goals

The recursive places of the grammar. A rule may ask for any goal through `Reader.self`; tying the
rules together is left to the module that holds them all, so each family of rules stands alone.
-/

namespace Relocation.Grammar

inductive Goal where
  /-- Statements up to a closing brace or the end of the text. -/
  | statements
  | statement
  /-- Statements between braces. An open end lets the end of the text close them. -/
  | block (openEnd : Bool)
  /-- The cases of a `switch` behind the opening brace. -/
  | cases
  /-- The statements of one case. -/
  | caseBody
  | declaration
  | declarators
  | exportSpecifiers
  | importSpecifiers
  | decorators
  | expression
  | assignment
  /-- What may follow an operand: operators with their operands. -/
  | operators
  | unary
  | operand
  /-- What may follow a primary expression: members, calls, templates. -/
  | suffixes
  | primary
  /-- Arguments behind the opening parenthesis. -/
  | arguments
  /-- Array elements behind the opening bracket. -/
  | elements
  /-- Object members behind the opening brace. -/
  | members
  /-- The key of a member with its modifiers. -/
  | memberKey
  /-- A template behind its opening quote; in a type its substitutions are types. -/
  | template (ofTypes : Bool)
  /-- Parameters, result type and body of a function. -/
  | functionTail (openEnd : Bool)
  /-- Parameters behind the opening parenthesis. -/
  | parameters
  /-- A class behind its name. -/
  | classTail (openEnd : Bool)
  /-- Class members behind the opening brace. -/
  | classMembers (openEnd : Bool)
  /-- Names joined by dots, behind the first. -/
  | dotted
  | typeExpr
  /-- What may follow a type operand. -/
  | typeOperators
  | typeOperand
  | typeSuffixes
  | typeList
  /-- Type arguments behind the opening angle bracket. -/
  | typeArguments
  /-- Type parameters behind the opening angle bracket. -/
  | typeParameters
  /-- Tuple elements behind the opening bracket. -/
  | typeElements
  /-- Members of an object type behind the opening brace. -/
  | typeMembers
  /-- A markup element from its opening angle bracket on. -/
  | element
  /-- Attributes up to the end of the opening tag. -/
  | attributes
  /-- Children up to the start of the closing tag. -/
  | children
  deriving DecidableEq, Repr

structure Reader where
  language : Language
  self : Goal → Rule

namespace Reader

variable (g : Reader)

def isTyped : Bool := g.language.isTyped

/-- A rule of the typed languages only. -/
def typed (a : Rule) : Rule := fun s => if g.isTyped then a s else none

/-- `: T`, in the typed languages. -/
def annotation : Rule := maybe (g.typed (andThen (punct ":") (g.self .typeExpr)))

def typeParameters? : Rule := maybe (g.typed (andThen (punct "<") (g.self .typeParameters)))

def typeArguments? : Rule := maybe (g.typed (andThen (punct "<") (g.self .typeArguments)))

end Reader

/-- A single `=`, not the start of a longer sign. -/
def equals : Rule := fun s =>
  if s.sees "==" || s.sees "=>" then none else punct "=" s

end Relocation.Grammar
