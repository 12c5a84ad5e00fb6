import Relocation.Text.Class

/-!
# Shell scripts

Lists of commands joined by `;`, `&&`, `||` and `|`, with `!`, groups, `if`, quoting, redirection and
the parameters `$?`, `$$` and `$NAME`.
-/

namespace Relocation.Shell

inductive Piece where
  | text (s : String)
  | param (name : String)
  deriving DecidableEq, Repr

abbrev Word := List Piece

inductive Sink where
  | copy (stream : Nat)
  | file (append : Bool) (name : Word)
  deriving DecidableEq, Repr

inductive Token where
  | word (w : Word)
  | op (s : String)
  /-- A redirection: the stream, and what stands behind it. -/
  | output (stream : Nat) (append : Bool)
  | duplicate (stream source : Nat)
  | input
  deriving DecidableEq, Repr

inductive Script where
  | simple (words : List Word) (outputs : List (Nat × Sink)) (input : Option Word)
  | not (s : Script)
  | both (a b : Script)
  | either (a b : Script)
  | seq (a b : Script)
  | pipe (a b : Script)
  | choose (test yes no : Script)
  /-- A group whose changes of directory stay inside. -/
  | sub (s : Script)
  | skip
  deriving Repr

def isNameChar (c : Char) : Bool := c.isAlphanum || c == '_'

/-- The parameter behind a dollar sign. -/
def param (s : List Char) : Piece × List Char :=
  match s with
  | '$' :: rest => (.param "$", rest)
  | '?' :: rest => (.param "?", rest)
  | '\x7b' :: rest =>
    (.param (String.ofList (rest.takeWhile isNameChar)), (rest.dropWhile isNameChar).drop 1)
  | s =>
    match s.takeWhile isNameChar with
    | [] => (.text "$", s)
    | name => (.param (String.ofList name), s.dropWhile isNameChar)

def lit (c : Char) : Piece := .text (String.ofList [c])

/-- The inside of double quotes, up to and including the closing one. -/
def quoted : Nat → List Char → Option (Word × List Char)
  | 0, _ => none
  | fuel + 1, s =>
    match s with
    | [] => none
    | '\x22' :: rest => some ([], rest)
    | '\\' :: c :: rest =>
      let here := if ['$', '\\', '\x22', '\x60'].contains c then [lit c] else [lit '\\', lit c]
      (quoted fuel rest).map fun (w, rest) => (here ++ w, rest)
    | '$' :: rest =>
      let (p, rest) := param rest
      (quoted fuel rest).map fun (w, rest) => (p :: w, rest)
    | c :: rest => (quoted fuel rest).map fun (w, rest) => (lit c :: w, rest)

def isBreak (c : Char) : Bool := Text.isBlank c || [';', '&', '|', '(', ')', '<', '>'].contains c

/-- A word up to the next blank or operator. -/
def word : Nat → List Char → Option (Word × List Char)
  | 0, _ => none
  | fuel + 1, s =>
    match s with
    | [] => some ([], [])
    | '\x27' :: rest =>
      match rest.dropWhile (· != '\x27') with
      | [] => none
      | _ :: after =>
        (word fuel after).map fun (w, after) =>
          (.text (String.ofList (rest.takeWhile (· != '\x27'))) :: w, after)
    | '\x22' :: rest => do
      let (inner, rest) ← quoted fuel rest
      let (w, rest) ← word fuel rest
      some (.text "" :: inner ++ w, rest)
    | '\\' :: c :: rest => (word fuel rest).map fun (w, rest) => (lit c :: w, rest)
    | '$' :: rest =>
      let (p, rest) := param rest
      (word fuel rest).map fun (w, rest) => (p :: w, rest)
    | c :: rest =>
      if isBreak c then some ([], s) else (word fuel rest).map fun (w, rest) => (lit c :: w, rest)

/-- A redirection of a stream, behind its `>`. -/
def redirection (stream : Nat) (s : List Char) : Token × List Char :=
  match s with
  | '>' :: rest => (.output stream true, rest)
  | '&' :: '1' :: rest => (.duplicate stream 1, rest)
  | '&' :: '2' :: rest => (.duplicate stream 2, rest)
  | rest => (.output stream false, rest)

def tokens : Nat → List Char → Option (List Token)
  | 0, _ => none
  | fuel + 1, s =>
    match s with
    | [] => some []
    | '\n' :: rest => (tokens fuel rest).map (.op ";" :: ·)
    | '#' :: rest => tokens fuel (rest.dropWhile (· != '\n'))
    | '&' :: '&' :: rest => (tokens fuel rest).map (.op "&&" :: ·)
    | '|' :: '|' :: rest => (tokens fuel rest).map (.op "||" :: ·)
    | ';' :: rest | '&' :: rest => (tokens fuel rest).map (.op ";" :: ·)
    | '|' :: rest => (tokens fuel rest).map (.op "|" :: ·)
    | '(' :: rest => (tokens fuel rest).map (.op "(" :: ·)
    | ')' :: rest => (tokens fuel rest).map (.op ")" :: ·)
    | '<' :: rest => (tokens fuel rest).map (.input :: ·)
    | '>' :: rest | '1' :: '>' :: rest =>
      let (t, rest) := redirection 1 rest
      (tokens fuel rest).map (t :: ·)
    | '2' :: '>' :: rest =>
      let (t, rest) := redirection 2 rest
      (tokens fuel rest).map (t :: ·)
    | c :: rest =>
      if Text.isBlank c then tokens fuel rest
      else do
        let (w, rest) ← word (s.length + 1) s
        let more ← tokens fuel rest
        some (.word w :: more)

def plain? (w : Word) : Option String :=
  w.foldlM (fun acc p => match p with
    | .text s => if s = "" then none else some (acc ++ s)
    | .param _ => none) ""

def isWord (s : String) : Token → Bool
  | .word w => plain? w = some s
  | _ => false

def isOp (s : String) : Token → Bool
  | .op o => o = s
  | _ => false

/-- Words that end a list of commands. -/
def closesList (t : Token) : Bool :=
  isOp ")" t || ["then", "elif", "else", "fi", "\x7d"].any fun s => isWord s t

/-- Words and redirections of one command. -/
def simple : List Token → Option (Script × List Token)
  | .word w :: rest => (simple rest).map fun (s, rest) => (addWord w s, rest)
  | .output stream append :: .word w :: rest =>
    (simple rest).map fun (s, rest) => (addOutput (stream, .file append w) s, rest)
  | .duplicate stream source :: rest =>
    (simple rest).map fun (s, rest) => (addOutput (stream, .copy source) s, rest)
  | .input :: .word w :: rest => (simple rest).map fun (s, rest) => (addInput w s, rest)
  | .output _ _ :: _ => none
  | .input :: _ => none
  | rest => some (.simple [] [] none, rest)
where
  addWord (w : Word) : Script → Script
    | .simple ws os i => .simple (w :: ws) os i
    | s => s
  addOutput (o : Nat × Sink) : Script → Script
    | .simple ws os i => .simple ws (o :: os) i
    | s => s
  addInput (w : Word) : Script → Script
    | .simple ws os i => .simple ws os (i.or (some w))
    | s => s

def expect (p : Token → Bool) : List Token → Option (List Token)
  | t :: rest => if p t then some rest else none
  | [] => none

mutual

/-- Commands up to the end of the list. -/
def list : Nat → List Token → Option (Script × List Token)
  | 0, _ => none
  | fuel + 1, ts =>
    match ts with
    | [] => some (.skip, [])
    | t :: rest =>
      if isOp ";" t then list fuel rest
      else if closesList t then some (.skip, ts)
      else do
        let (a, rest) ← andOr fuel ts
        match rest with
        | .op ";" :: rest =>
          let (b, rest) ← list fuel rest
          some (.seq a b, rest)
        | rest => some (a, rest)

def andOr : Nat → List Token → Option (Script × List Token)
  | 0, _ => none
  | fuel + 1, ts => do
    let (a, rest) ← pipeline fuel ts
    andOrRest fuel a rest

def andOrRest : Nat → Script → List Token → Option (Script × List Token)
  | 0, _, _ => none
  | fuel + 1, a, ts =>
    match ts with
    | .op "&&" :: rest => do
      let (b, rest) ← pipeline fuel rest
      andOrRest fuel (.both a b) rest
    | .op "||" :: rest => do
      let (b, rest) ← pipeline fuel rest
      andOrRest fuel (.either a b) rest
    | ts => some (a, ts)

def pipeline : Nat → List Token → Option (Script × List Token)
  | 0, _ => none
  | fuel + 1, ts =>
    match ts with
    | [] => none
    | t :: rest =>
      if isWord "!" t then (pipeline fuel rest).map fun (s, rest) => (.not s, rest)
      else do
        let (a, rest) ← command fuel ts
        match rest with
        | .op "|" :: rest =>
          let (b, rest) ← pipeline fuel rest
          some (.pipe a b, rest)
        | rest => some (a, rest)

def command : Nat → List Token → Option (Script × List Token)
  | 0, _ => none
  | fuel + 1, ts =>
    match ts with
    | [] => none
    | t :: rest =>
      if isOp "(" t then do
        let (s, rest) ← list fuel rest
        let rest ← expect (isOp ")") rest
        some (.sub s, rest)
      else if isWord "\x7b" t then do
        let (s, rest) ← list fuel rest
        let rest ← expect (isWord "\x7d") rest
        some (s, rest)
      else if isWord "if" t then branches fuel rest
      else
        match simple ts with
        | some (.simple [] [] none, _) => none
        | other => other

/-- The rest of a conditional behind `if` or `elif`. -/
def branches : Nat → List Token → Option (Script × List Token)
  | 0, _ => none
  | fuel + 1, ts => do
    let (test, rest) ← list fuel ts
    let rest ← expect (isWord "then") rest
    let (yes, rest) ← list fuel rest
    match rest with
    | t :: rest =>
      if isWord "fi" t then some (.choose test yes .skip, rest)
      else if isWord "elif" t then do
        let (no, rest) ← branches fuel rest
        some (.choose test yes no, rest)
      else if isWord "else" t then do
        let (no, rest) ← list fuel rest
        let rest ← expect (isWord "fi") rest
        some (.choose test yes no, rest)
      else none
    | [] => none

end

/-- Reads a script; none if it is malformed. -/
def parse? (text : String) : Option Script := do
  let ts ← tokens (text.length + 1) text.toList
  let (s, rest) ← list (8 * ts.length + 8) ts
  if rest.isEmpty then some s else none

end Relocation.Shell
