import Relocation.Extraction.Basic
import Relocation.Language
import Relocation.Text.Pattern
import Relocation.Text.Slice

/-!
# Extraction by text patterns

Reads references and exports off the raw text with patterns, without knowing what is a comment or
a string. Works on any text, and an import that no pattern covers counts as unparsable.
-/

namespace Relocation.Lexical

open Text Text.Pattern

def isIndent (c : Char) : Bool := c == ' ' || c == '\t'

def isIdentStart (c : Char) : Bool := c.isAlpha || c == '_' || c == '$'

def isIdentPart (c : Char) : Bool := isWord c || c == '$'

def ident : Pattern := .seq (.one isIdentStart) (.greedy isIdentPart)

def space : Pattern := .greedy isBlank

def space1 : Pattern := greedy1 isBlank

/-- The start of a line, indented or not. -/
def lineHead : Pattern := .seq .lineStart (.greedy isIndent)

def quotedBy (q : Char) : Pattern :=
  all [.one (· == q), .group (.greedy fun c => c != q && c != '\n'), .one (· == q)]

def quoted : Pattern := .alt (quotedBy '\'') (quotedBy '"')

def template : Pattern := all [.one (· == '`'), .group (.greedy (· != '`')), .one (· == '`')]

/-- Characters between `import` or `export` and its `from`. -/
def inClause (c : Char) : Bool := !(['\'', '"', '`', ';', '(', ')', '='].contains c)

/-- `import … from '…'` and `export … from '…'`, possibly over several lines. -/
def staticFrom : Pattern :=
  all [lineHead, any [lit "import", lit "export"], .edge, .reluctant inClause, .edge, lit "from",
    space, quoted]

/-- `import '…'`. -/
def sideEffect : Pattern := all [lineHead, lit "import", space, quoted]

/-- `import x = require('…')`. -/
def importRequire : Pattern :=
  all [lineHead, lit "import", space1, ident, space, lit "=", space, lit "require", space, lit "(",
    space, quoted, space, lit ")"]

/-- `import('…')` with a string or a template. -/
def lazyLiteral : Pattern :=
  all [.edge, lit "import", space, lit "(", space, any [quotedBy '\'', quotedBy '"', template],
    space, lit ")"]

/-- `import(…)` with anything else, up to the first closing parenthesis. -/
def lazyComputed : Pattern :=
  all [.edge, lit "import", space, lit "(", space,
    .group (.seq (.one fun c => !(c == '\'' || c == '"' || c == '`' || c == ')' || isBlank c))
      (.greedy (· != ')'))),
    lit ")"]

def isNameChar (c : Char) : Bool := c.isAlphanum || c == '_'

/-- `<Name`, not directly behind a name. -/
def markup : Pattern :=
  all [.alt .textStart (.one fun c => !(isNameChar c || c == '$' || c == '.')), lit "<",
    .group (.seq (.one Char.isUpper) (.greedy isNameChar))]

def importLine : Pattern := all [lineHead, lit "import", .edge]

def exportDefault : Pattern :=
  all [lineHead, lit "export", space1, lit "default", .edge,
    opt (all [space1, opt (.seq (lit "async") space1),
      any [all [lit "function", space, opt (lit "*")], lit "class"], space, .group ident])]

def exportDeclaration : Pattern :=
  all [lineHead, lit "export", space1, opt (.seq (lit "declare") space1),
    opt (.seq (lit "async") space1),
    any [lit "const", lit "let", lit "var", all [lit "function", space, opt (lit "*")],
      all [lit "abstract", space1, lit "class"], lit "class", lit "interface", lit "type",
      lit "enum", lit "namespace"],
    space1, .group ident]

def exportClause : Pattern :=
  all [lineHead, lit "export", space1, opt (.seq (lit "type") space1), lit "\x7b",
    .group (.greedy (· != '\x7d')), lit "\x7d"]

def exportStar : Pattern :=
  all [lineHead, lit "export", space1, opt (.seq (lit "type") space1), lit "*", space,
    opt (all [lit "as", space1, .group ident, space]), lit "from", .edge]

/-- Exported names of a clause body such as `a, b as c, type D`. -/
def clauseNames (body : List Char) : List String :=
  (body.splitOn ',').filterMap fun item =>
    let item := trim item
    let item := trim ((dropLead? "type ".toList item).getD item)
    let exported := trim ((afterLast? " as ".toList item).getD item)
    let exported := strip (fun c => c == '"' || c == '\'') exported
    if exported.isEmpty then none else some (String.ofList exported)

def exports (text : List Char) : ExportSet :=
  let e := (exportDefault.scan text).foldl
    (fun e m => (m.groups.map (String.ofList ·.text)).foldl ExportSet.addName
      { e with hasDefault := true }) {}
  let e := (exportDeclaration.scan text).foldl
    (fun e m => (m.groups.map (String.ofList ·.text)).foldl ExportSet.addName e) e
  let e := (exportClause.scan text).foldl
    (fun e m => (m.groups.flatMap (clauseNames ·.text)).foldl ExportSet.addExported e) e
  (exportStar.scan text).foldl
    (fun e m =>
      match m.groups with
      | [] => { e with reexportsAll := true }
      | g :: _ => e.addName (String.ofList g.text)) e

def reference (path : Path) (lines : List Nat) (kind : ReferenceKind) (computed : Bool)
    (specifier : List Char) (span : Span) : Reference :=
  { source := path, specifier := String.ofList specifier, kind, span, line := lineOf lines span.start, computed }

/-- The reference that a stretch of the text spells. -/
def spelt (path : Path) (lines : List Nat) (kind : ReferenceKind) (computed : Bool) (g : Piece) : Reference :=
  reference path lines kind computed g.text ⟨g.start.pos, g.stop.pos⟩

def staticFound (text : List Char) : List Found :=
  [staticFrom, sideEffect, importRequire].flatMap (·.scan text)

def staticReferences (path : Path) (lines : List Nat) (text : List Char) : List Reference :=
  (staticFound text).filterMap fun m => m.groups.head?.map (spelt path lines .static false)

/-- An expression, without the blanks behind it. -/
def lazyExpression (path : Path) (lines : List Nat) (g : Piece) : Reference :=
  let specifier := trimEnd g.text
  reference path lines .lazy true specifier ⟨g.start.pos, g.start.pos + byteLength specifier⟩

def lazyReferences (path : Path) (lines : List Nat) (text : List Char) : List Reference :=
  let literal := (lazyLiteral.scan text).filterMap fun m =>
    m.groups.head?.map fun g => spelt path lines .lazy (isInfix ['$', '\x7b'] g.text) g
  let computed := (lazyComputed.scan text).filterMap fun m =>
    m.groups.head?.map (lazyExpression path lines)
  literal ++ computed

/-- A name followed by a dot is a member of something else. -/
def structuralReferences (path : Path) (lines : List Nat) (text : List Char) : List Reference :=
  (markup.scan text).filterMap fun m =>
    m.groups.head?.bind fun g =>
      if g.stop.next? = some '.' then none else some (spelt path lines .structural false g)

/-- Imports at the start of a line that no static pattern covers, calls and `import.meta` apart. -/
def unparsable (text : List Char) : Nat :=
  let covered := (staticFound text).map fun m => (m.start.pos, m.stop.pos)
  ((importLine.scan text).filter fun m =>
    !(covered.any fun (s, e) => s ≤ m.start.pos && m.start.pos < e) &&
    match (trimStart m.stop.rest).head? with
    | some c => !(c == '(' || c == '.')
    | none => true).length

def extract (path : Path) (content : String) : Extraction :=
  let text := content.toList
  let lines := lineStarts text
  let allowsMarkup := ((Language.ofPath? path).map Language.allowsMarkup).getD true
  { path
    references := Reference.arrange (staticReferences path lines text ++ lazyReferences path lines text ++
      if allowsMarkup then structuralReferences path lines text else [])
    exports := exports text
    unparsable := unparsable text }

end Relocation.Lexical
