import Relocation.Extraction.Tree
import Relocation.Text.Class
import Relocation.Text.Cursor

/-!
# Lexemes

Blanks and comments, names, numbers, strings and regular expressions. Which lexeme may come next
depends on the place in the grammar, so each is a function of its own from a cursor to the cursor
behind the lexeme.
-/

namespace Relocation.Grammar

open Text

def isSpace (c : Char) : Bool :=
  let n := c.toNat
  (9 ≤ n && n ≤ 13) || n == 0x20 || n == 0xA0 || n == 0x1680 || (0x2000 ≤ n && n ≤ 0x200B) ||
    n == 0x2028 || n == 0x2029 || n == 0x202F || n == 0x205F || n == 0x2060 || n == 0x3000 ||
    n == 0xFEFF

def isLineEnd (c : Char) : Bool := c == '\n' || c == '\u2028' || c == '\u2029'

def endsComment (c : Char) : Bool := isLineEnd c || c == '\r'

/-- Characters that end a name. -/
def punctuation : List Char :=
  [':', ';', '\x60', '\x22', '\x27', '@', '#', '.', ',', '|', '^', '&', '<', '=', '>', '+', '-', '*',
    '/', '\\', '%', '?', '!', '~', '(', ')', '[', ']', '\x7b', '\x7d']

def isNamePart (c : Char) : Bool := 32 ≤ c.toNat && !isSpace c && !punctuation.contains c

def isNameStart (c : Char) : Bool := isNamePart c && !c.isDigit

inductive TriviaMode where
  | blank
  | lineComment
  /-- The star that opens a block comment comes next. -/
  | blockOpening (start : Cursor)
  /-- A block comment that starts at the given cursor. -/
  | blockComment (start : Cursor)
  /-- The slash that closes a block comment comes next. -/
  | blockClosing

/-- The cursor past blanks and comments. A block comment without an end is not skipped. -/
def trivia (mode : TriviaMode) (prev : Option Char) (pos : Nat) : List Char → Cursor
  | [] =>
    match mode with
    | .blockOpening start | .blockComment start => start
    | _ => { prev, rest := [], pos }
  | c :: rest =>
    match mode with
    | .blank =>
      if isSpace c then trivia .blank (some c) (pos + c.utf8Size) rest
      else if c = '/' ∧ rest.head? = some '/' then trivia .lineComment (some c) (pos + c.utf8Size) rest
      else if c = '/' ∧ rest.head? = some '*' then
        trivia (.blockOpening { prev, rest := c :: rest, pos }) (some c) (pos + c.utf8Size) rest
      else { prev, rest := c :: rest, pos }
    | .lineComment =>
      trivia (if endsComment c then .blank else .lineComment) (some c) (pos + c.utf8Size) rest
    | .blockOpening start => trivia (.blockComment start) (some c) (pos + c.utf8Size) rest
    | .blockComment start =>
      let ends := c = '*' ∧ rest.head? = some '/'
      trivia (if ends then .blockClosing else .blockComment start) (some c) (pos + c.utf8Size) rest
    | .blockClosing => trivia .blank (some c) (pos + c.utf8Size) rest

def skipTrivia (c : Cursor) : Cursor := trivia .blank c.prev c.pos c.rest

def lineEnds (c : Cursor) : Bool := (c.upTo (skipTrivia c)).any isLineEnd

/-- The comment that starts at `c`. -/
def comment? (c : Cursor) : Option Piece :=
  match c.rest with
  | '/' :: '/' :: _ => some ⟨c, c.dropWhile (!endsComment ·)⟩
  | '/' :: '*' :: rest => (close (c.pos + 2) rest).map (⟨c, ·⟩)
  | _ => none
where
  close (pos : Nat) : List Char → Option Cursor
    | '*' :: '/' :: rest => some { prev := some '/', rest, pos := pos + 2 }
    | x :: rest => close (pos + x.utf8Size) rest
    | [] => none

def name? (c : Cursor) : Option Piece :=
  match c.next? with
  | some x => if isNameStart x then some ⟨c, c.dropWhile isNamePart⟩ else none
  | none => none

/-- A name of a markup element or attribute, which may hold dashes. -/
def markupName? (c : Cursor) : Option Piece :=
  match c.next? with
  | some x => if isNameStart x then some ⟨c, c.dropWhile fun x => isNamePart x || x == '-'⟩ else none
  | none => none

/-- A string in either quotes, which may not run over the end of a line. -/
def string? (c : Cursor) : Option Piece :=
  match c.rest with
  | q :: rest => if isQuote q then (go q (c.pos + 1) rest).map (⟨c, ·⟩) else none
  | [] => none
where
  go (q : Char) (pos : Nat) : List Char → Option Cursor
    | [] => none
    | '\\' :: x :: rest => go q (pos + 1 + x.utf8Size) rest
    | x :: rest =>
      if x = q then some { prev := some x, rest, pos := pos + 1 }
      else if x = '\n' ∨ x = '\r' then none
      else go q (pos + x.utf8Size) rest

/-- An attribute value in quotes: anything up to the same quote. -/
def attributeString? (c : Cursor) : Option Cursor :=
  match c.next? with
  | some q =>
    if isQuote q then
      let d := c.step.dropWhile (· != q)
      if d.next? = some q then some d.step else none
    else none
  | none => none

/-- A number. What follows its first digit is taken as long as it can belong to a number. -/
def number? (c : Cursor) : Option Cursor :=
  match c.rest with
  | '.' :: x :: _ => if x.isDigit then some (go false c.prev c.pos c.rest) else none
  | x :: _ => if x.isDigit then some (go false c.prev c.pos c.rest) else none
  | [] => none
where
  go (afterExponent : Bool) (prev : Option Char) (pos : Nat) : List Char → Cursor
    | [] => { prev, rest := [], pos }
    | x :: rest =>
      if x.isAlphanum || x == '_' || x == '.' || (afterExponent && (x == '+' || x == '-')) then
        go (x == 'e' || x == 'E') (some x) (pos + x.utf8Size) rest
      else { prev, rest := x :: rest, pos }

def regex? (c : Cursor) : Option Cursor :=
  match c.rest with
  | '/' :: rest => (go false (c.pos + 1) rest).map (·.dropWhile Char.isAlpha)
  | _ => none
where
  go (inClass : Bool) (pos : Nat) : List Char → Option Cursor
    | [] => none
    | '\\' :: x :: rest =>
      if x = '\n' then none else go inClass (pos + 1 + x.utf8Size) rest
    | x :: rest =>
      if x = '\n' then none
      else if x = '/' ∧ !inClass then some { prev := some x, rest, pos := pos + 1 }
      else go ((inClass || x == '[') && x != ']') (pos + x.utf8Size) rest

/-- How far a reading has come: the end of the last lexeme, and the children so far of the node that
is being read, last first. -/
structure State where
  cur : Cursor
  nodes : List Tree

abbrev Rule := State → Option State

namespace State

def peek (s : State) : Cursor := skipTrivia s.cur

def moveTo (s : State) (c : Cursor) : State := { s with cur := c }

/-- The start of a node at the next lexeme. -/
def enter (s : State) : State := { s with nodes := [] }

/-- The end of a node that `s` started and `t` ends. -/
def close (s t : State) (kind : String) : State :=
  ⟨t.cur, .node { kind, start := s.peek.pos, stop := t.cur.pos } t.nodes.reverse :: s.nodes⟩

def add (s : State) (n : Tree) : State := { s with nodes := n :: s.nodes }

/-- What is left out goes down as missing. -/
def addMissing (s : State) (kind : String) : State :=
  s.add (.node { kind, start := s.cur.pos, stop := s.cur.pos, isMissing := true } [])

/-- What stands before `c` goes down as an error. -/
def skipTo (s : State) (c : Cursor) : State :=
  (s.moveTo c).add
    (.node { kind := "ERROR", start := min s.peek.pos c.pos, stop := c.pos, isError := true } [])

def atEnd (s : State) : Bool := s.peek.rest.isEmpty

def sees (s : State) (p : String) : Bool := p.toList.isPrefixOf s.peek.rest

def lineEnds (s : State) : Bool := Grammar.lineEnds s.cur

/-- The next lexeme, if it is a name or a keyword. -/
def word? (s : State) : Option String := (name? s.peek).map (String.ofList ·.text)

def seesWord (s : State) (w : String) : Bool := s.word? = some w

def seesWordIn (s : State) (ws : List String) : Bool :=
  match s.word? with
  | some w => ws.contains w
  | none => false

end State

def punct (p : String) : Rule := fun s => (s.peek.take? p.toList).map s.moveTo

def keyword (w : String) : Rule := fun s =>
  match name? s.peek with
  | some n => if n.text = w.toList then some (s.moveTo n.stop) else none
  | none => none

def word : Rule := fun s => (name? s.peek).map (s.moveTo ·.stop)

def numberLexeme : Rule := fun s => (number? s.peek).map s.moveTo

/-- `b`, where `a` does not apply. -/
def orElse (a b : Rule) : Rule := fun s =>
  match a s with
  | some s' => some s'
  | none => b s

def maybe (a : Rule) : Rule := fun s => some ((a s).getD s)

def andThen (a b : Rule) : Rule := fun s => (a s).bind b

/-- `b` behind `a`, or nothing where `a` does not apply. -/
def whenever (a b : Rule) : Rule := fun s =>
  match a s with
  | some s' => b s'
  | none => some s

/-- What a rule reads, as one node. -/
def node (kind : String) (a : Rule) : Rule := fun s => (a s.enter).map fun t => s.close t kind

/-- A keyword or sign, as a node. -/
def token (kind : String) (a : Rule) : Rule := fun s =>
  (a s).map fun t =>
    t.add (.node { kind, start := s.peek.pos, stop := t.cur.pos, isNamed := false } [])

/-- What a rule reads, as one node: the one that it adds, if that takes up all of it. -/
def whole (kind : String) (a : Rule) : Rule := fun s =>
  (a s.enter).map fun t =>
    match t.nodes with
    | [n] =>
      if n.label.start = s.peek.pos && n.label.stop = t.cur.pos then ⟨t.cur, n :: s.nodes⟩
      else s.close t kind
    | _ => s.close t kind

/-- The nodes that a rule adds fill a field. -/
def inField (name : String) (a : Rule) : Rule := fun s =>
  (a s.enter).map fun t => ⟨t.cur, t.nodes.map (Tree.inField name) ++ s.nodes⟩

def identifier : Rule := node "identifier" word

def stringLexeme : Rule := node "string" fun s => (string? s.peek).map (s.moveTo ·.stop)

/-- A closing bracket. One that is left out before a semicolon is missing. -/
def closing (p : String) : Rule := fun s =>
  match punct p s with
  | some s' => some s'
  | none => if s.sees ";" then some (s.addMissing p) else none

/-- A closing brace. Where the end is open, it may be missing at the end of the text. -/
def closingBrace (openEnd : Bool) : Rule := fun s =>
  if openEnd && s.atEnd then some (s.addMissing "\x7d") else punct "\x7d" s

/-- A semicolon, or a place where one may be left out. -/
def semicolon : Rule := fun s =>
  match punct ";" s with
  | some s' => some s'
  | none => if s.atEnd || s.sees "\x7d" || s.lineEnds then some s else none

end Relocation.Grammar
