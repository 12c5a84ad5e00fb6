import Relocation.Extraction.Lexical
import Relocation.Extraction.Tree

/-!
# Extraction from trees

Visits the nodes of a module's tree, each before its children, and takes down what they say to the
outside. An error node counts once and is not looked into; the rest of the module is still read. A
module without a tree is read by text patterns.
-/

namespace Relocation

open Text

/-- What a node says to the outside. -/
inductive Finding where
  | reference (r : Reference)
  /-- A name that is exported as it stands. -/
  | declared (name : String)
  /-- A name that a clause exports. -/
  | exported (name : String)
  | exportsDefault
  | exportsAll
  | unparsable
  deriving DecidableEq, Repr

namespace Finding

def reference? : Finding → Option Reference
  | .reference r => some r
  | _ => none

def addTo (e : ExportSet) : Finding → ExportSet
  | .declared name => e.addName name
  | .exported name => e.addExported name
  | .exportsDefault => { e with hasDefault := true }
  | .exportsAll => { e with reexportsAll := true }
  | _ => e

def isUnparsable : Finding → Bool
  | .unparsable => true
  | _ => false

end Finding

/-- A walk through the tree of a module's text. -/
structure Walk where
  path : Path
  text : List Char
  /-- Elements of markup refer to components. -/
  markup : Bool

namespace Walk

variable (w : Walk)

/-- The text of a node; none where the node starts or ends inside a character. -/
def textOf (n : Tree) : String := ((slice? n.label.start n.label.stop w.text).map String.ofList).getD ""

/-- A reference that stands on the line of a node. -/
def referenceAt (n : Tree) (kind : ReferenceKind) (specifier : String) (span : Span) (computed : Bool) :
    Reference :=
  { source := w.path, specifier, kind, span, line := lineAt w.text n.label.start, computed }

/-- The reference that a quoted string spells. -/
def literal (kind : ReferenceKind) (n : Tree) : Finding :=
  let start := n.label.start + 1
  let stop := max (n.label.stop - 1) start
  match slice? start stop w.text with
  | none => .unparsable
  | some specifier => .reference (w.referenceAt n kind (String.ofList specifier) ⟨start, stop⟩ false)

/-- The string of an import. `import x = require('…')` keeps it in its clause. -/
def importSource? (n : Tree) : Option Tree :=
  (n.field? "source").or
    ((n.children.find? (·.kind == "import_require_clause")).bind (·.field? "source"))

/-- A string, or a template without substitutions. -/
def isLiteral (n : Tree) : Bool :=
  match n.kind with
  | "string" => true
  | "template_string" => !n.children.any (·.kind == "template_substitution")
  | _ => false

/-- What `import(…)` refers to. The first argument decides, and a comment counts as an argument. -/
def lazyCall (n : Tree) : List Finding :=
  match (n.field? "arguments").bind (·.namedChildren.head?) with
  | none => []
  | some argument =>
    if isLiteral argument then [w.literal .lazy argument]
    else [.reference (w.referenceAt argument .lazy (w.textOf argument)
      ⟨argument.label.start, argument.label.stop⟩ true)]

def isComponentName (name : String) : Bool := name.toList.head?.any Char.isUpper

def element (n : Tree) : List Finding :=
  match n.field? "name" with
  | none => []
  | some name =>
    if name.kind == "identifier" && isComponentName (w.textOf name) then
      [.reference (w.referenceAt name .structural (w.textOf name) ⟨name.label.start, name.label.stop⟩ false)]
    else []

/-! ### Exports -/

/-- The exported name of a specifier: its alias, or else its name. -/
def specifierName (n : Tree) : List Finding :=
  if n.kind == "export_specifier" then
    (((n.field? "alias").or (n.field? "name")).map fun name =>
      Finding.exported (String.ofList (strip isQuote (w.textOf name).toList))).toList
  else []

def exportPart (n : Tree) : List Finding :=
  match n.kind with
  | "default" => [.exportsDefault]
  | "namespace_export" => (n.namedChildren.getLast?.map fun name => Finding.declared (w.textOf name)).toList
  | "export_clause" => n.namedChildren.flatMap w.specifierName
  | _ => []

/-- A bare star stands among some nodes, with no `* as n` behind it. -/
def hasStar (ns : List Tree) : Bool :=
  ns.foldl (fun star n => if n.kind == "*" then true else if n.kind == "namespace_export" then false else star)
    false

def declaratorName (n : Tree) : List Finding :=
  match n.field? "name" with
  | none => []
  | some name =>
    if n.kind == "variable_declarator" && name.kind == "identifier" then [.declared (w.textOf name)] else []

/-- The names that a declaration declares. Those of a pattern are not looked for. -/
def declarationNames (n : Tree) : List Finding :=
  match n.kind with
  | "lexical_declaration" | "variable_declaration" => n.namedChildren.flatMap w.declaratorName
  | _ =>
    match n.field? "name" with
    | none => []
    | some name => if w.textOf name = "" then [] else [.declared (w.textOf name)]

def exports (n : Tree) : List Finding :=
  n.children.flatMap w.exportPart ++
    (if hasStar n.children && (n.field? "source").isSome then [.exportsAll] else []) ++
    (n.field? "declaration").toList.flatMap w.declarationNames

/-! ### The walk -/

/-- What a node says by itself. -/
def findings (n : Tree) : List Finding :=
  match n.kind with
  | "import_statement" => (importSource? n).toList.map (w.literal .static)
  | "export_statement" => w.exports n ++ (n.field? "source").toList.map (w.literal .static)
  | "call_expression" => if (n.field? "function").any (·.kind == "import") then w.lazyCall n else []
  | "jsx_opening_element" | "jsx_self_closing_element" => if w.markup then w.element n else []
  | _ => []

mutual

/-- What a node and all below it say. -/
def visit : Tree → List Finding
  | .node label children =>
    if label.isError then [.unparsable]
    else
      (if label.isMissing then [.unparsable] else []) ++ w.findings (.node label children) ++
        visitAll children

def visitAll : List Tree → List Finding
  | [] => []
  | n :: rest => visit n ++ visitAll rest

end

def extraction (root : Tree) : Extraction :=
  let found := w.visit root
  { path := w.path
    references := Reference.arrange (found.filterMap Finding.reference?)
    exports := found.foldl Finding.addTo {}
    unparsable := found.countP Finding.isUnparsable }

end Walk

/-- Reads a module by its tree. Where the language has no parser or the parser gives no tree, text
patterns take its place. -/
def Parser.extract (parser : Parser) (path : Path) (content : String) : Extraction :=
  match Language.ofPath? path with
  | none => Lexical.extract path content
  | some language =>
    match parser.parse? language content with
    | none => Lexical.extract path content
    | some tree => Walk.extraction ⟨path, content.toList, language.allowsMarkup⟩ tree

end Relocation
