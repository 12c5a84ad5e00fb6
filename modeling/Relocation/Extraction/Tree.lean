import Relocation.Language
import Relocation.Text.Utf8

/-!
# Trees

A module's text as a parser takes it apart. A node has a kind and a place; it may fill a field of its
parent. What a parser cannot accept stands in an error node, and what it had to add is missing.
-/

namespace Relocation

open Text

structure Label where
  kind : String
  /-- First byte, and the byte behind the last one. -/
  start : Nat
  stop : Nat
  /-- The field of its parent that the node fills. -/
  field : Option String := none
  /-- Neither a keyword nor a sign. -/
  isNamed : Bool := true
  /-- A stretch of the text that the parser does not accept. -/
  isError : Bool := false
  /-- Not in the text, though the parser went on as if it were. -/
  isMissing : Bool := false
  deriving DecidableEq, Repr

inductive Tree where
  | node (label : Label) (children : List Tree)

namespace Tree

def label : Tree → Label
  | node label _ => label

def children : Tree → List Tree
  | node _ children => children

@[simp] theorem label_node (label : Label) (children : List Tree) : (node label children).label = label := rfl

@[simp] theorem children_node (label : Label) (children : List Tree) : (node label children).children = children := rfl

def kind (t : Tree) : String := t.label.kind

@[simp] theorem kind_node (label : Label) (children : List Tree) : (node label children).kind = label.kind := rfl

/-- The first child that fills a field. -/
def field? (t : Tree) (name : String) : Option Tree := t.children.find? (·.label.field == some name)

def namedChildren (t : Tree) : List Tree := t.children.filter (·.label.isNamed)

def inField (name : String) : Tree → Tree
  | node label children => node { label with field := some name } children

@[simp] theorem inField_node (name : String) (label : Label) (children : List Tree) :
    (node label children).inField name = node { label with field := some name } children := rfl

mutual

/-- No node of the tree starts behind its end or ends behind byte `size`. -/
def isWithin (size : Nat) : Tree → Bool
  | node label children => label.start ≤ label.stop && label.stop ≤ size && areWithin size children

def areWithin (size : Nat) : List Tree → Bool
  | [] => true
  | t :: rest => t.isWithin size && areWithin size rest

end

end Tree

/-- A way to take texts apart. It may fail to give a tree, but no node of a tree lies outside the text. -/
structure Parser where
  parse? : Language → String → Option Tree
  within : ∀ {language text tree}, parse? language text = some tree →
    tree.isWithin (byteLength text.toList) = true

end Relocation
