import Relocation.Extraction.Grammar.Statement

/-!
# A parser for modules

Takes a module's text apart by the grammar of its language, so comments and strings are known for
what they are. The tree holds the nodes that name modules or export, the strings and the errors;
operators, blocks and other nodes are left out, and what they hold stands in the node around them.
-/

namespace Relocation.Grammar

open Text

def rule (g : Reader) : Goal → Rule
  | .statements => g.statements
  | .statement => g.statement
  | .block openEnd => g.block openEnd
  | .cases => g.cases
  | .caseBody => g.caseBody
  | .declaration => g.declaration
  | .declarators => g.declarators
  | .exportSpecifiers => g.exportSpecifiers
  | .importSpecifiers => g.importSpecifiers
  | .decorators => g.decorators
  | .expression => g.expression
  | .assignment => g.assignment
  | .operators => g.operators
  | .unary => g.unary
  | .operand => g.operand
  | .suffixes => g.suffixes
  | .primary => g.primary
  | .arguments => g.arguments
  | .elements => g.elements
  | .members => g.members
  | .memberKey => g.memberKey
  | .template ofTypes => g.template ofTypes
  | .functionTail openEnd => g.functionTail openEnd
  | .parameters => g.parameters
  | .classTail openEnd => g.classTail openEnd
  | .classMembers openEnd => g.classMembers openEnd
  | .dotted => g.dotted
  | .typeExpr => g.typeExpr
  | .typeOperators => g.typeOperators
  | .typeOperand => g.typeOperand
  | .typeSuffixes => g.typeSuffixes
  | .typeList => g.typeList
  | .typeArguments => g.typeArguments
  | .typeParameters => g.typeParameters
  | .typeElements => g.typeElements
  | .typeMembers => g.typeMembers
  | .element => g.element
  | .attributes => g.attributes
  | .children => g.children

/-- Reads a goal with rules nested at most `depth` deep. -/
def read (language : Language) : Nat → Goal → Rule
  | 0, _ => fun _ => none
  | depth + 1, goal => rule { language, self := read language depth } goal

/-- A first line that names an interpreter is no source text. -/
def skipInterpreter (c : Cursor) : Cursor :=
  match c.rest with
  | '#' :: '!' :: _ => c.dropWhile (· != '\n')
  | _ => c

/-- Statements up to the end of the text. A closing brace out of place is an error. -/
def program (language : Language) (depth : Nat) : Nat → State → State
  | 0, s => s
  | fuel + 1, s =>
    match read language depth .statements s with
    | none => s.skipTo s.peek
    | some s =>
      if s.atEnd then s else program language depth fuel (s.skipTo s.peek.step)

/-- The tree of a text. A nesting of sixteen rules per character is never reached. -/
def tree (language : Language) (text : List Char) : Tree :=
  let start : State := { cur := skipInterpreter (Cursor.ofList text), nodes := [] }
  let last := program language (16 * text.length + 64) (text.length + 1) start
  .node { kind := "program", start := 0, stop := byteLength text } last.nodes.reverse

def parser : Parser where
  parse? language text := (some (tree language text.toList)).filter (·.isWithin (byteLength text.toList))
  within := fun found => (Option.filter_eq_some_iff.mp found).2

end Relocation.Grammar
