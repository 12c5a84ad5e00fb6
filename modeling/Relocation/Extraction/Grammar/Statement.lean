import Relocation.Extraction.Grammar.Markup

/-!
# Statements and declarations

A statement that cannot be read is an error and is skipped up to the end of its line or its
semicolon; what comes after it is read as usual. A bracket or value that is merely left out is
missing, but the statement around it is kept.
-/

namespace Relocation.Grammar.Reader

open Text

variable (g : Reader)

/-- Behind the first semicolon or line end. -/
def pastStatement (c : Cursor) : Cursor := (c.dropWhile fun x => x != ';' && x != '\n').step

/-- A statement, or an error in its place. -/
def statementOrSkip : Rule := fun s =>
  match g.self .statement s with
  | some t => if s.cur.pos < t.cur.pos then some t else some (s.skipTo (pastStatement s.peek))
  | none => some (s.skipTo (pastStatement s.peek))

def statements : Rule := fun s =>
  if s.atEnd || s.sees "\x7d" then some s
  else andThen g.statementOrSkip (g.self .statements) s

def block (openEnd : Bool) : Rule := fun s => do
  let s ← punct "\x7b" s
  let s ← g.self .statements s
  closingBrace openEnd s

/-- A condition in parentheses, of which the second may be left out before a block. -/
def condition : Rule := fun s => do
  let s ← punct "(" s
  let s ← g.self .expression s
  if s.sees "\x7b" then some (s.addMissing ")") else punct ")" s

def ifStatement : Rule := fun s => do
  let s ← keyword "if" s
  let s ← g.condition s
  let s ← g.self .statement s
  whenever (keyword "else") (g.self .statement) s

def whileStatement : Rule := fun s => do
  let s ← word s
  let s ← g.condition s
  g.self .statement s

def doStatement : Rule := fun s => do
  let s ← keyword "do" s
  let s ← g.self .statement s
  let s ← keyword "while" s
  let s ← g.condition s
  maybe (punct ";") s

/-- An expression, unless the given character comes first. -/
def expressionBefore (close : String) : Rule := fun s =>
  if s.sees close then punct close s else andThen (g.self .expression) (punct close) s

/-- The start of a `for` header: a declaration, an expression or nothing. -/
def forStart : Rule := fun s =>
  if s.sees ";" then some s
  else if s.seesWordIn ["var", "let", "const"] then
    orElse (andThen word (g.self .declarators)) (g.self .expression) s
  else g.self .expression s

def forStatement : Rule := fun s => do
  let s ← keyword "for" s
  let s ← maybe (keyword "await") s
  let s ← punct "(" s
  let s ← g.forStart s
  let s ←
    if s.seesWordIn ["of", "in"] then do
      let s ← word s
      let s ← g.self .expression s
      punct ")" s
    else if s.sees ")" then punct ")" s
    else do
      let s ← punct ";" s
      let s ← g.expressionBefore ";" s
      g.expressionBefore ")" s
  g.self .statement s

def switchStatement : Rule := fun s => do
  let s ← keyword "switch" s
  let s ← g.condition s
  let s ← punct "\x7b" s
  g.self .cases s

def cases : Rule := fun s =>
  if s.sees "\x7d" then punct "\x7d" s
  else do
    let s ← orElse (keyword "default") (andThen (keyword "case") (g.self .expression)) s
    let s ← punct ":" s
    let s ← g.self .caseBody s
    g.self .cases s

def caseBody : Rule := fun s =>
  if s.atEnd || s.sees "\x7d" || s.seesWordIn ["case", "default"] then some s
  else andThen g.statementOrSkip (g.self .caseBody) s

def tryStatement : Rule := fun s => do
  let s ← keyword "try" s
  let s ← g.self (.block true) s
  let s ← whenever (keyword "catch")
    (fun s => do
      let s ← if s.sees "(" then andThen (punct "(") (g.self .parameters) s else some s
      g.self (.block true) s) s
  whenever (keyword "finally") (g.self (.block true)) s

def resultStatement : Rule := fun s => do
  let s ← word s
  let s ← if s.sees ";" || s.sees "\x7d" || s.atEnd || s.lineEnds then some s
    else g.self .expression s
  semicolon s

def jumpStatement : Rule := fun s => do
  let s ← word s
  let s ← if s.lineEnds then some s else maybe word s
  semicolon s

def labelled : Rule := fun s => do
  let s ← word s
  let s ← punct ":" s
  g.self .statement s

def expressionStatement : Rule := andThen (g.self .expression) semicolon

/-! ### Declarations -/

def declaredName : Rule := inField "name" identifier

def functionDeclaration : Rule := node "function_declaration" fun s => do
  let s ← if s.seesWord "async" then word s else some s
  let s ← keyword "function" s
  let s ← maybe (punct "*") s
  let s ← declaredName s
  g.self (.functionTail true) s

def classDeclaration : Rule := node "class_declaration" fun s => do
  let s ← if s.seesWord "abstract" then word s else some s
  let s ← keyword "class" s
  if s.seesWordIn ["extends", "implements"] then none
  else
    let s ← declaredName s
    g.self (.classTail true) s

/-- The value of a declared name, which may be missing. -/
def initialValue : Rule := fun s =>
  if s.sees ";" then some (s.addMissing "identifier") else g.self .assignment s

def declarator : Rule := node "variable_declarator" fun s => do
  let s ← if s.sees "\x7b" || s.sees "[" then
      inField "name" (node "destructuring_pattern" (g.self .primary)) s
    else declaredName s
  let s ← if g.isTyped then maybe (punct "!") s else some s
  let s ← g.annotation s
  whenever equals g.initialValue s

def declarators : Rule := fun s => do
  let s ← g.declarator s
  if s.sees "," then andThen (punct ",") (g.self .declarators) s else some s

def variableDeclaration (kind : String) : Rule := node kind fun s => do
  let s ← word s
  let s ← g.self .declarators s
  semicolon s

def enumDeclaration : Rule := node "enum_declaration" fun s => do
  let s ← maybe (keyword "const") s
  let s ← keyword "enum" s
  let s ← declaredName s
  let s ← punct "\x7b" s
  g.self .members s

def interfaceDeclaration : Rule := node "interface_declaration" fun s => do
  let s ← keyword "interface" s
  let s ← declaredName s
  let s ← g.typeParameters? s
  let s ← whenever (keyword "extends") (g.self .typeList) s
  let s ← punct "\x7b" s
  g.self .typeMembers s

def typeDeclaration : Rule := node "type_alias_declaration" fun s => do
  let s ← keyword "type" s
  if s.lineEnds then none
  else
    let s ← declaredName s
    let s ← g.typeParameters? s
    let s ← equals s
    let s ← g.self .typeExpr s
    semicolon s

/-- `namespace A.B { … }` or `module 'm' { … }`. -/
def namespaceDeclaration : Rule := node "internal_module" fun s => do
  let s ← orElse (keyword "namespace") (keyword "module") s
  if s.lineEnds then none
  else
    let s ← inField "name"
      (orElse (node "nested_identifier" (andThen word (g.self .dotted))) stringLexeme) s
    if s.sees "\x7b" then g.self (.block true) s else semicolon s

/-- A declaration behind `declare`, whose names are not those of the node. -/
def ambientDeclaration : Rule := node "ambient_declaration" fun s => do
  let s ← keyword "declare" s
  if s.lineEnds then none
  else if s.seesWord "global" then andThen word (g.self (.block true)) s
  else g.self .declaration s

def declaration : Rule := fun s =>
  match s.word? with
  | some "function" | some "async" => g.functionDeclaration s
  | some "class" => g.classDeclaration s
  | some "const" => orElse (g.typed g.enumDeclaration) (g.variableDeclaration "lexical_declaration") s
  | some "let" => g.variableDeclaration "lexical_declaration" s
  | some "var" => g.variableDeclaration "variable_declaration" s
  | some "abstract" => g.typed g.classDeclaration s
  | some "enum" => g.typed g.enumDeclaration s
  | some "interface" => g.typed g.interfaceDeclaration s
  | some "type" => g.typed g.typeDeclaration s
  | some "namespace" | some "module" => g.typed g.namespaceDeclaration s
  | some "declare" => g.typed g.ambientDeclaration s
  | _ => none

/-! ### Imports -/

/-- The string of a `from` clause or of a bare import. -/
def sourceString : Rule := inField "source" stringLexeme

def fromClause : Rule := andThen (keyword "from") sourceString

/-- A name or a string that stands for one. -/
def exportName : Rule := orElse identifier stringLexeme

def importSpecifier : Rule := fun s => do
  let s ← exportName s
  whenever (keyword "as") identifier s

/-- A specifier that is a type. -/
def typeSpecifier : Rule := andThen (orElse (keyword "type") (keyword "typeof")) importSpecifier

/-- A specifier with a comma or the closing brace behind it. -/
def closedSpecifier (a : Rule) : Rule := fun s => do
  let s ← a s
  if s.sees "," || s.sees "\x7d" then some s else none

def importSpecifiers : Rule := fun s =>
  if s.sees "\x7d" then punct "\x7d" s
  else do
    let s ← orElse (closedSpecifier importSpecifier) (g.typed (closedSpecifier typeSpecifier)) s
    if s.sees "," then andThen (punct ",") (g.self .importSpecifiers) s else punct "\x7d" s

def namespaceImport : Rule := fun s => do
  let s ← punct "*" s
  let s ← keyword "as" s
  identifier s

def namedImports : Rule := andThen (punct "\x7b") (g.self .importSpecifiers)

def importClause : Rule := fun s =>
  if s.sees "*" then namespaceImport s
  else if s.sees "\x7b" then g.namedImports s
  else do
    let s ← identifier s
    whenever (punct ",") (orElse namespaceImport g.namedImports) s

/-- `with { … }` behind the string of an import. -/
def importAttributes : Rule :=
  maybe fun s => do
    let s ← orElse (keyword "with") (keyword "assert") s
    let s ← punct "\x7b" s
    g.self .members s

def importFrom : Rule := fun s => do
  let s ← if (string? s.peek).isSome then sourceString s else andThen g.importClause fromClause s
  let s ← g.importAttributes s
  semicolon s

/-- `x = require('…')`. -/
def requireClause : Rule := node "import_require_clause" fun s => do
  let s ← word s
  let s ← equals s
  let s ← keyword "require" s
  let s ← punct "(" s
  let s ← sourceString s
  punct ")" s

/-- `x = a.b`. -/
def importAlias : Rule := fun s => do
  let s ← word s
  let s ← equals s
  let s ← word s
  let s ← g.self .dotted s
  semicolon s

def importBody : Rule := orElse g.importFrom (g.typed (orElse (andThen requireClause semicolon) g.importAlias))

/-- The first string on the line of `c`. -/
def stringOnLine? (c : Cursor) : Nat → Option Piece
  | 0 => none
  | fuel + 1 =>
    match c.next? with
    | none => none
    | some x =>
      if x = ';' || isLineEnd x then none
      else if isQuote x then string? c
      else stringOnLine? c.step fuel

/-- An import whose clause is an error still names its source. -/
def brokenImport : Rule := fun s => do
  let literal ← stringOnLine? s.cur s.cur.rest.length
  let s ← sourceString (s.skipTo literal.start)
  some (s.moveTo (pastStatement s.cur))

def importStatement : Rule := node "import_statement" fun s => do
  let s ← keyword "import" s
  orElse g.importBody
    (orElse (g.typed (andThen (orElse (keyword "type") (keyword "typeof")) g.importBody))
      brokenImport) s

/-! ### Exports -/

def exportSpecifier : Rule := node "export_specifier" fun s => do
  let s ← if g.isTyped then maybe (orElse (keyword "type") (keyword "typeof")) s else some s
  let s ← inField "name" exportName s
  whenever (keyword "as") (inField "alias" exportName) s

def exportSpecifiers : Rule := fun s =>
  if s.sees "\x7d" then punct "\x7d" s
  else do
    let s ← g.exportSpecifier s
    if s.sees "," then andThen (punct ",") (g.self .exportSpecifiers) s else punct "\x7d" s

/-- `* as n`, where the keyword `default` is no name. -/
def namespaceExport : Rule := node "namespace_export" fun s => do
  let s ← punct "*" s
  let s ← keyword "as" s
  if s.seesWord "default" then token "default" word s else exportName s

/-- `* from '…'` and `* as n from '…'`. -/
def exportStar : Rule :=
  andThen (orElse namespaceExport (token "*" (punct "*"))) fromClause

/-- Attributes are not accepted behind an export: neither they nor the export can be read. -/
def exportFromEnd : Rule := fun s =>
  if s.seesWord "with" && !s.lineEnds then do
    let t ← g.importAttributes s
    let t ← semicolon t
    some ((s.enter.skipTo s.cur).skipTo t.cur)
  else semicolon s

def exportClause : Rule := fun s => do
  let s ← node "export_clause" (andThen (punct "\x7b") (g.self .exportSpecifiers)) s
  if s.seesWord "from" then andThen fromClause g.exportFromEnd s else semicolon s

def exportedDeclaration : Rule := inField "declaration" (g.self .declaration)

def exportDefault : Rule := fun s => do
  let s ← token "default" (keyword "default") s
  let s ← g.self .decorators s
  orElse g.exportedDeclaration g.expressionStatement s

/-- A star behind `type` is read, but the keyword is not. -/
def exportType : Rule := fun s => do
  let t ← keyword "type" s
  if t.sees "*" then andThen exportStar g.exportFromEnd (s.skipTo t.cur)
  else if t.sees "\x7b" then g.exportClause t
  else none

/-- `import a = b.c` behind `export`. -/
def exportImport : Rule := andThen (keyword "import") g.importAlias

def exportAssignment : Rule := fun s => do
  let s ← equals s
  g.expressionStatement s

def exportNamespace : Rule := fun s => do
  let s ← keyword "as" s
  let s ← keyword "namespace" s
  let s ← word s
  semicolon s

/-- Signs at the start of a line that carry on the line before. -/
def continuationSigns : List Char :=
  ['\x60', ',', ':', ';', '*', '%', '>', '<', '=', '[', '(', '?', '^', '|', '&', '/', '.']

/-- A line that ends behind `export` ends the statement there, unless what follows goes on. -/
def endsAtExport (s : State) : Bool :=
  s.atEnd || s.sees "\x7d" ||
    (s.lineEnds && s.peek.next?.all fun c => !continuationSigns.contains c)

def exportBody : Rule := fun s =>
  match s.peek.next? with
  | some '*' => andThen exportStar g.exportFromEnd s
  | some '\x7b' => g.exportClause s
  | some '=' => g.typed g.exportAssignment s
  | some ';' => punct ";" s
  | some '@' => andThen (g.self .decorators) g.exportedDeclaration s
  | _ =>
    match s.word? with
    | some "default" => g.exportDefault s
    | some "type" => orElse (g.typed g.exportType) g.exportedDeclaration s
    | some "import" => g.typed g.exportImport s
    | some "as" => g.typed exportNamespace s
    | _ => g.exportedDeclaration s

def exportStatement : Rule := node "export_statement" fun s => do
  let s ← keyword "export" s
  if endsAtExport s then some s else g.exportBody s

/-! ### Dispatch -/

/-- `import` starts an expression where a call or `import.meta` follows. -/
def importOrExpression : Rule := fun s => do
  let t ← keyword "import" s
  if t.sees "(" || t.sees "." then g.expressionStatement s else g.importStatement s

/-- A declaration, or else an expression that starts with the same word. -/
def declarationOrExpression : Rule :=
  orElse (g.self .declaration) (orElse g.labelled g.expressionStatement)

def statementWord (w : String) : Rule :=
  match w with
  | "import" => g.importOrExpression
  | "export" => g.exportStatement
  | "function" | "class" | "const" | "var" => g.self .declaration
  | "if" => g.ifStatement
  | "for" => g.forStatement
  | "while" | "with" => g.whileStatement
  | "do" => g.doStatement
  | "switch" => g.switchStatement
  | "try" => g.tryStatement
  | "return" | "throw" => g.resultStatement
  | "break" | "continue" => jumpStatement
  | "debugger" => andThen word semicolon
  | _ => g.declarationOrExpression

def statement : Rule := fun s =>
  match s.word? with
  | some w => g.statementWord w s
  | none =>
    match s.peek.next? with
    | some '\x7b' => g.self (.block true) s
    | some ';' => punct ";" s
    | some '@' => do
      let s ← g.self .decorators s
      if s.seesWordIn ["class", "abstract", "export", "declare"] then g.self .statement s else none
    | _ => g.expressionStatement s

end Relocation.Grammar.Reader
