import Relocation.Extraction.Grammar.Goal

/-!
# Type expressions

Types are read for what they contain: `import('…')` may stand inside them.
-/

namespace Relocation.Grammar.Reader

open Text

variable (g : Reader)

/-- The arguments of `import(…)`. A comment in front is one of them. -/
def importArguments : Rule := fun s => do
  let s ← punct "(" s
  let start := s.cur.dropWhile isSpace
  match comment? start with
  | some note =>
    g.self .arguments
      (s.add (.node { kind := "comment", start := note.start.pos, stop := note.stop.pos } []))
  | none =>
    if start.next? = some ')' then punct ")" s
    else
      let s ← whole "expression" (andThen (maybe (punct "...")) (g.self .assignment)) s
      if s.sees "," then andThen (punct ",") (g.self .arguments) s else closing ")" s

/-- `import(…)`. -/
def importCall : Rule := node "call_expression" fun s => do
  let s ← inField "function" (node "import" (keyword "import")) s
  inField "arguments" (node "arguments" g.importArguments) s

def dotted : Rule := fun s =>
  if s.sees "." && !s.sees "..." then andThen (andThen (punct ".") word) (g.self .dotted) s else some s

def typeExpr : Rule := fun s => do
  let s ← maybe (orElse (punct "|") (punct "&")) s
  let s ← g.self .typeOperand s
  g.self .typeOperators s

/-- `extends A ? B : C` behind the checked type. -/
def conditional : Rule := fun s => do
  let s ← keyword "extends" s
  let s ← g.self .typeExpr s
  let s ← punct "?" s
  let s ← g.self .typeExpr s
  let s ← punct ":" s
  g.self .typeExpr s

def typeOperators : Rule := fun s =>
  if (s.sees "|" && !s.sees "||") || (s.sees "&" && !s.sees "&&") then do
    let s ← orElse (punct "|") (punct "&") s
    let s ← g.self .typeOperand s
    g.self .typeOperators s
  else if s.seesWord "extends" then maybe g.conditional s
  else if s.seesWord "is" && !s.lineEnds then andThen (keyword "is") (g.self .typeExpr) s
  else some s

/-- A function type behind its type parameters. -/
def functionType : Rule := fun s => do
  let s ← punct "(" s
  let s ← g.self .parameters s
  let s ← punct "=>" s
  g.self .typeExpr s

/-- A name with what may follow it in a type. -/
def typeName : Rule := fun s => do
  let s ← word s
  let s ← g.self .dotted s
  let s ← g.typeArguments? s
  g.self .typeSuffixes s

def typeQuery : Rule := fun s => do
  let s ← keyword "typeof" s
  let s ← if s.seesWord "import" then g.importCall s else word s
  let s ← g.self .dotted s
  let s ← g.typeArguments? s
  g.self .typeSuffixes s

def importType : Rule := fun s => do
  let s ← g.importCall s
  let s ← g.self .dotted s
  let s ← g.typeArguments? s
  g.self .typeSuffixes s

def constructorType : Rule := fun s => do
  let s ← maybe (keyword "abstract") s
  let s ← keyword "new" s
  let s ← g.typeParameters? s
  g.functionType s

/-- A word that stands before a type, with its type on the same line. -/
def typeModifier (w : String) : Rule := fun s => do
  let s ← keyword w s
  if s.lineEnds then none else g.self .typeOperand s

/-- `infer T`, with the bound that `T` must meet. -/
def inferredType : Rule := fun s => do
  let s ← keyword "infer" s
  let s ← if s.lineEnds then none else word s
  if s.seesWord "extends" then maybe (andThen (keyword "extends") (g.self .typeExpr)) s else some s

def typeWord (w : String) : Rule :=
  match w with
  | "typeof" => g.typeQuery
  | "import" => g.importType
  | "new" => orElse g.constructorType g.typeName
  | "abstract" => orElse g.constructorType g.typeName
  | "infer" => orElse g.inferredType g.typeName
  | "keyof" | "unique" | "readonly" | "asserts" => orElse (g.typeModifier w) g.typeName
  | _ => g.typeName

def typeOperand : Rule := fun s =>
  match s.word? with
  | some w => g.typeWord w s
  | none =>
    match s.peek.next? with
    | some '(' =>
      orElse g.functionType
        (fun s => do
          let s ← punct "(" s
          let s ← g.self .typeExpr s
          let s ← punct ")" s
          g.self .typeSuffixes s) s
    | some '<' => andThen (andThen (punct "<") (g.self .typeParameters)) g.functionType s
    | some '[' => andThen (andThen (punct "[") (g.self .typeElements)) (g.self .typeSuffixes) s
    | some '\x7b' =>
      andThen (andThen (punct "\x7b") (g.self .typeMembers)) (g.self .typeSuffixes) s
    | some '\x60' =>
      andThen (node "template_literal_type" (andThen (punct "\x60") (g.self (.template true))))
        (g.self .typeSuffixes) s
    | some c =>
      if isQuote c then andThen stringLexeme (g.self .typeSuffixes) s
      else if c = '-' then andThen (punct "-") numberLexeme s
      else andThen numberLexeme (g.self .typeSuffixes) s
    | none => none

def typeSuffixes : Rule := fun s =>
  if s.sees "[" && !s.lineEnds then do
    let s ← punct "[" s
    let s ← if s.sees "]" then some s else g.self .typeExpr s
    let s ← punct "]" s
    g.self .typeSuffixes s
  else some s

def typeList : Rule := fun s => do
  let s ← g.self .typeExpr s
  if s.sees "," then andThen (punct ",") (g.self .typeList) s else some s

def typeArguments : Rule := fun s => do
  let s ← g.self .typeExpr s
  if s.sees "," then andThen (punct ",") (g.self .typeArguments) s else punct ">" s

def typeParameters : Rule := fun s =>
  if s.sees ">" then punct ">" s
  else do
    let s ← word s
    let s ← if s.seesWord "extends" then some s else maybe word s
    let s ← if s.seesWord "extends" then some s else maybe word s
    let s ← whenever (keyword "extends") (g.self .typeExpr) s
    let s ← whenever equals (g.self .typeExpr) s
    if s.sees "," then andThen (punct ",") (g.self .typeParameters) s else punct ">" s

/-- The label of a tuple element. -/
def tupleLabel : Rule := fun s => do
  let s ← word s
  let s ← maybe (punct "?") s
  punct ":" s

def typeElements : Rule := fun s =>
  if s.sees "]" then punct "]" s
  else do
    let s ← maybe (punct "...") s
    let s ← maybe tupleLabel s
    let s ← g.self .typeExpr s
    let s ← maybe (punct "?") s
    if s.sees "," then andThen (punct ",") (g.self .typeElements) s else punct "]" s

/-- `[key: T]` or `[key in T as U]`. -/
def indexKey : Rule := fun s => do
  let s ← punct "[" s
  let s ← word s
  let s ← orElse (punct ":") (keyword "in") s
  let s ← g.self .typeExpr s
  let s ← whenever (keyword "as") (g.self .typeExpr) s
  punct "]" s

/-- `?`, `+?`, `-?` or `!` behind a key. -/
def optionality : Rule := fun s => do
  let s ← if s.sees "+?" || s.sees "-?" then orElse (punct "+") (punct "-") s else some s
  maybe (orElse (punct "?") (punct "!")) s

def typeMember : Rule := fun s => do
  let s ← maybe (orElse (punct "+") (punct "-")) s
  let s ← if s.sees "(" || s.sees "<" then some s else g.self .memberKey s
  let s ← optionality s
  let s ← g.typeParameters? s
  let s ← if s.sees "(" then andThen (punct "(") (g.self .parameters) s else some s
  g.annotation s

def typeMembers : Rule := fun s =>
  if s.sees "\x7d" then punct "\x7d" s
  else if s.sees ";" || s.sees "," then
    andThen (orElse (punct ";") (punct ",")) (g.self .typeMembers) s
  else do
    let s ← g.typeMember s
    if s.sees ";" || s.sees "," || s.sees "\x7d" || s.lineEnds then g.self .typeMembers s else none

end Relocation.Grammar.Reader
