import Relocation.Extraction.Grammar.Types

/-!
# Expressions

Operators are read in a row, since precedence does not change what an expression contains. An
arrow function is tried before anything else that could start the same way.
-/

namespace Relocation.Grammar.Reader

open Text

variable (g : Reader)

def expression : Rule := fun s => do
  let s ← g.self .assignment s
  if s.sees "," then andThen (punct ",") (g.self .expression) s else some s

def arrowBody : Rule := fun s => do
  let s ← punct "=>" s
  if s.sees "\x7b" then g.self (.block false) s else g.self .assignment s

/-- `(a, b): T => …`, with or without type parameters. -/
def arrowWithList : Rule := fun s => do
  let s ← g.typeParameters? s
  let s ← punct "(" s
  let s ← g.self .parameters s
  let s ← g.annotation s
  g.arrowBody s

def arrow : Rule := fun s =>
  if s.sees "(" || s.sees "<" then g.arrowWithList s
  else if s.seesWord "async" then
    orElse (andThen word g.arrowBody)
      (fun s => do
        let s ← keyword "async" s
        if s.lineEnds then none
        else if s.sees "(" || s.sees "<" then g.arrowWithList s
        else andThen word g.arrowBody s) s
  else andThen word g.arrowBody s

def assignment : Rule :=
  orElse g.arrow fun s => do
    let s ← g.self .unary s
    g.self .operators s

def assignmentSigns : List String :=
  [">>>=", "**=", "<<=", ">>=", "&&=", "||=", "??=", "+=", "-=", "*=", "/=", "%=", "&=", "|=", "^="]

def binarySigns : List String :=
  ["===", "!==", ">>>", "==", "!=", "<=", ">=", "&&", "||", "??", "<<", ">>", "**", "+", "-", "*",
    "/", "%", "&", "|", "^", "<", ">"]

/-- The first of some signs that comes next. -/
def firstSign? (s : State) (signs : List String) : Option String := signs.find? s.sees

def ternary : Rule := fun s => do
  let s ← punct "?" s
  let s ← g.self .assignment s
  let s ← punct ":" s
  g.self .assignment s

def wordOperator (w : String) (s : State) : Option State :=
  match w with
  | "in" | "instanceof" => do
    let s ← word s
    let s ← g.self .unary s
    g.self .operators s
  | "as" | "satisfies" =>
    if g.isTyped && !s.lineEnds then do
      let s ← word s
      let s ← g.self .typeExpr s
      g.self .operators s
    else some s
  | _ => some s

def operators : Rule := fun s =>
  match s.word? with
  | some w => g.wordOperator w s
  | none =>
    if s.sees "=>" || s.sees "++" || s.sees "--" then some s
    else
      match firstSign? s assignmentSigns with
      | some sign => andThen (punct sign) (g.self .assignment) s
      | none =>
        match firstSign? s binarySigns with
        | some sign => do
          let s ← punct sign s
          let s ← g.self .unary s
          g.self .operators s
        | none =>
          if s.sees "=" then andThen (punct "=") (g.self .assignment) s
          else if s.sees "?" then g.ternary s
          else some s

/-- `<T>e`, where angle brackets are not markup. -/
def assertion : Rule := fun s => do
  let s ← punct "<" s
  let s ← g.self .typeExpr s
  let s ← punct ">" s
  g.self .unary s

def yieldExpression : Rule := fun s => do
  let s ← keyword "yield" s
  let s ← maybe (punct "*") s
  g.self .assignment s

def newExpression : Rule := fun s => do
  let s ← keyword "new" s
  if s.sees "." then none else g.self .unary s

def unary : Rule := fun s =>
  match s.word? with
  | some "typeof" | some "void" | some "delete" => andThen word (g.self .unary) s
  | some "await" => orElse (andThen word (g.self .unary)) (g.self .operand) s
  | some "yield" => orElse g.yieldExpression (g.self .operand) s
  | some "new" => orElse g.newExpression (g.self .operand) s
  | some _ => g.self .operand s
  | none =>
    match s.peek.next? with
    | some '!' => andThen (punct "!") (g.self .unary) s
    | some '~' => andThen (punct "~") (g.self .unary) s
    | some '+' => andThen (punct "+") (g.self .unary) s
    | some '-' => andThen (punct "-") (g.self .unary) s
    | some '<' => if g.language.allowsMarkup then g.self .operand s else g.assertion s
    | _ => g.self .operand s

def operand : Rule := andThen (g.self .primary) (g.self .suffixes)

def templateString : Rule := node "template_string" (andThen (punct "\x60") (g.self (.template false)))

/-- A name or a private name. -/
def memberName : Rule := orElse word (andThen (punct "#") word)

/-- The name, call, index or template behind `?.`. -/
def optionalMember : Rule := fun s =>
  match s.peek.next? with
  | some '(' => andThen (punct "(") (g.self .arguments) s
  | some '[' => andThen (andThen (punct "[") (g.self .expression)) (punct "]") s
  | some '\x60' => g.templateString s
  | _ => memberName s

/-- `?.` is a sign only if no digit follows. -/
def seesOptionalChain (s : State) : Bool :=
  match s.peek.rest with
  | '?' :: '.' :: c :: _ => !c.isDigit
  | '?' :: '.' :: [] => true
  | _ => false

/-- Type arguments that can only be those of a call or of a finished operand. -/
def callTypeArguments : Rule := g.typed fun s => do
  let s ← punct "<" s
  let s ← g.self .typeArguments s
  match s.peek.next? with
  | some c => if ['(', '\x60', ')', ',', ';', ']', '.'].contains c then some s else none
  | none => some s

def suffixes : Rule := fun s =>
  match s.peek.rest with
  | '.' :: '.' :: _ => some s
  | '.' :: _ => andThen (andThen (punct ".") memberName) (g.self .suffixes) s
  | '(' :: _ => andThen (andThen (punct "(") (g.self .arguments)) (g.self .suffixes) s
  | '[' :: _ =>
    andThen (andThen (andThen (punct "[") (g.self .expression)) (punct "]")) (g.self .suffixes) s
  | '\x60' :: _ => andThen g.templateString (g.self .suffixes) s
  | '?' :: _ =>
    if seesOptionalChain s then andThen (andThen (punct "?.") g.optionalMember) (g.self .suffixes) s
    else some s
  | '!' :: '=' :: _ => some s
  | '!' :: _ =>
    if g.isTyped && !s.lineEnds then andThen (punct "!") (g.self .suffixes) s else some s
  | '+' :: '+' :: _ => if s.lineEnds then some s else andThen (punct "++") (g.self .suffixes) s
  | '-' :: '-' :: _ => if s.lineEnds then some s else andThen (punct "--") (g.self .suffixes) s
  | '<' :: _ => whenever g.callTypeArguments (g.self .suffixes) s
  | _ => some s

def functionExpression : Rule := fun s => do
  let s ← keyword "function" s
  let s ← maybe (punct "*") s
  let s ← maybe word s
  g.self (.functionTail false) s

/-- A class behind its decorators; it may have a name. -/
def classExpression : Rule := fun s => do
  let s ← keyword "class" s
  let s ← if s.seesWordIn ["extends", "implements"] then some s else maybe word s
  g.self (.classTail false) s

def primaryWord (w : String) : Rule :=
  match w with
  | "function" => g.functionExpression
  | "class" => g.classExpression
  | "async" =>
    orElse (fun s => do
      let s ← keyword "async" s
      if s.lineEnds then none else g.functionExpression s) word
  | "import" => orElse g.importCall fun s => do
      let s ← word s
      if s.sees "." then some s else none
  | _ => word

def primary : Rule := fun s =>
  match s.word? with
  | some w => g.primaryWord w s
  | none =>
    match s.peek.next? with
    | some '(' => andThen (andThen (punct "(") (g.self .expression)) (closing ")") s
    | some '[' => andThen (punct "[") (g.self .elements) s
    | some '\x7b' => andThen (punct "\x7b") (g.self .members) s
    | some '\x60' => g.templateString s
    | some '/' => (regex? s.peek).map s.moveTo
    | some '<' => if g.language.allowsMarkup then g.self .element s else none
    | some '#' => andThen (punct "#") word s
    | some '@' => andThen (g.self .decorators) g.classExpression s
    | some c => if isQuote c then stringLexeme s else numberLexeme s
    | none => none

def arguments : Rule := fun s =>
  if s.sees ")" then punct ")" s
  else do
    let s ← maybe (punct "...") s
    let s ← g.self .assignment s
    if s.sees "," then andThen (punct ",") (g.self .arguments) s else closing ")" s

def elements : Rule := fun s =>
  if s.sees "]" then punct "]" s
  else if s.sees "," then andThen (punct ",") (g.self .elements) s
  else do
    let s ← maybe (punct "...") s
    let s ← g.self .assignment s
    if s.sees "," then andThen (punct ",") (g.self .elements) s else closing "]" s

/-- One part of a key: a modifier, a name, a literal or an expression in brackets. -/
def keyPart : Rule := fun s =>
  match s.peek.next? with
  | some '[' =>
    orElse (g.typed g.indexKey)
      (andThen (andThen (punct "[") (g.self .expression)) (punct "]")) s
  | some '#' => andThen (punct "#") word s
  | some '*' => punct "*" s
  | _ => orElse word (orElse stringLexeme numberLexeme) s

def memberKey : Rule := fun s => do
  let s ← g.keyPart s
  if s.word?.isSome then g.self .memberKey s
  else
    match s.peek.next? with
    | some c =>
      if c == '[' || c == '#' || c == '*' || isQuote c || c.isDigit then g.self .memberKey s
      else some s
    | none => some s

def member : Rule := fun s =>
  if s.sees "..." then andThen (punct "...") (g.self .assignment) s
  else do
    let s ← g.self .memberKey s
    if s.sees "(" || s.sees "<" then g.self (.functionTail false) s
    else if s.sees ":" then andThen (punct ":") (g.self .assignment) s
    else whenever equals (g.self .assignment) s

def members : Rule := fun s =>
  if s.sees "\x7d" then punct "\x7d" s
  else do
    let s ← g.member s
    if s.sees "," then andThen (punct ",") (g.self .members) s else punct "\x7d" s

/-- The end of a template, or the start of its next substitution. -/
inductive TemplateStop where
  | ending (c : Cursor)
  | substitution (c : Cursor)

def templateStop? (c : Cursor) : Option TemplateStop := go c.pos c.rest
where
  go (pos : Nat) : List Char → Option TemplateStop
    | [] => none
    | '\\' :: x :: rest => go (pos + 1 + x.utf8Size) rest
    | '$' :: '\x7b' :: rest => some (.substitution { prev := some '\x7b', rest, pos := pos + 2 })
    | x :: rest =>
      if x = '\x60' then some (.ending { prev := some x, rest, pos := pos + 1 })
      else go (pos + x.utf8Size) rest

def template (ofTypes : Bool) : Rule := fun s =>
  match templateStop? s.cur with
  | none => none
  | some (.ending c) => some (s.moveTo c)
  | some (.substitution c) => do
    let s ← node "template_substitution"
      (andThen (g.self (if ofTypes then .typeExpr else .expression)) (punct "\x7d")) (s.moveTo c)
    g.self (.template ofTypes) s

def functionTail (openEnd : Bool) : Rule := fun s => do
  let s ← g.typeParameters? s
  let s ← punct "(" s
  let s ← g.self .parameters s
  let s ← g.annotation s
  if s.sees "\x7b" then g.self (.block openEnd) s else g.typed semicolon s

/-- A bound name with its modifiers, or a pattern. -/
def binding : Rule := fun s =>
  if s.sees "\x7b" || s.sees "[" then g.self .primary s
  else do
    let s ← word s
    let s ← maybe word s
    let s ← maybe word s
    let s ← maybe word s
    if s.sees "\x7b" || s.sees "[" then g.self .primary s else some s

def parameters : Rule := fun s =>
  if s.sees ")" then punct ")" s
  else do
    let s ← g.self .decorators s
    let s ← maybe (punct "...") s
    let s ← g.binding s
    let s ← if g.isTyped then maybe (punct "?") s else some s
    let s ← g.annotation s
    let s ← whenever equals (g.self .assignment) s
    if s.sees "," then andThen (punct ",") (g.self .parameters) s else punct ")" s

def decorators : Rule := fun s =>
  if s.sees "@" then andThen (andThen (punct "@") (g.self .operand)) (g.self .decorators) s else some s

def classTail (openEnd : Bool) : Rule := fun s => do
  let s ← g.typeParameters? s
  let s ← whenever (keyword "extends") (andThen (g.self .operand) g.typeArguments?) s
  let s ← whenever (g.typed (keyword "implements")) (g.self .typeList) s
  let s ← punct "\x7b" s
  g.self (.classMembers openEnd) s

/-- A field behind its key. -/
def fieldTail : Rule := fun s => do
  let s ← maybe (orElse (punct "?") (punct "!")) s
  if s.sees "(" || s.sees "<" then g.self (.functionTail false) s
  else do
    let s ← g.annotation s
    let s ← whenever equals (g.self .assignment) s
    semicolon s

def classMembers (openEnd : Bool) : Rule := fun s =>
  if s.atEnd || s.sees "\x7d" then closingBrace openEnd s
  else if s.sees ";" then andThen (punct ";") (g.self (.classMembers openEnd)) s
  else do
    let s ← g.self .decorators s
    let s ← g.self .memberKey s
    let s ← if s.sees "\x7b" then g.self (.block false) s else g.fieldTail s
    g.self (.classMembers openEnd) s

end Relocation.Grammar.Reader
