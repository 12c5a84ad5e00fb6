import Relocation.Toml.Number

/-!
# Reading TOML

`Toml.read?` reads a document into the entries of its top table.
-/

namespace Relocation.Toml

def isSpace (c : Char) : Bool := c == ' ' || c == '\t'

def skipSpace (s : List Char) : List Char := s.dropWhile isSpace

/-- Line ends are `\n` or `\r\n`; both become `\n`. -/
def foldLineEnds : List Char → List Char
  | [] => []
  | '\r' :: '\n' :: rest => '\n' :: foldLineEnds rest
  | c :: rest => c :: foldLineEnds rest

/-- The rest behind a line end; the end of the text counts as one. -/
def lineEnd? : List Char → Option (List Char)
  | [] => some []
  | '\n' :: rest => some rest
  | _ => none

def isCommentChar (c : Char) : Bool := c == '\t' || ' ' ≤ c

/-- The rest behind the blanks, the comment and the end of a line. -/
def endOfLine? (s : List Char) : Option (List Char) :=
  match skipSpace s with
  | '#' :: rest => lineEnd? (rest.dropWhile isCommentChar)
  | s => lineEnd? s

/-- Characters that may stand in a string as they are. -/
def isPlain (c : Char) : Bool := c == '\t' || (' ' ≤ c && c.toNat != 0x7F)

def hex? (radix : Nat) (s : List Char) : Option Nat :=
  s.foldlM (fun n c => (digitValue? radix c).map (n * radix + ·)) 0

def scalar? (n : Nat) : Option Char :=
  if h : n.isValidChar then some (Char.ofNatAux n h) else none

/-- The rest behind an escaped line end of a string with several lines: blanks up to the line end,
and all blanks and line ends that follow. -/
def lineBreak? (s : List Char) : Option (List Char) :=
  match skipSpace s with
  | [] => some []
  | '\n' :: rest => some (rest.dropWhile fun c => isSpace c || c == '\n')
  | _ => none

/-- What an escape stands for, given the text behind the backslash. -/
def escape? (lines : Bool) : List Char → Option (List Char × List Char)
  | '\x22' :: rest => some (['\x22'], rest)
  | '\\' :: rest => some (['\\'], rest)
  | 'b' :: rest => some ([Char.ofNat 8], rest)
  | 'f' :: rest => some ([Char.ofNat 12], rest)
  | 'n' :: rest => some (['\n'], rest)
  | 'r' :: rest => some (['\r'], rest)
  | 't' :: rest => some (['\t'], rest)
  | 'u' :: rest => point 4 rest
  | 'U' :: rest => point 8 rest
  | s =>
    if lines && (s.head?.any fun c => isSpace c || c == '\n') then (lineBreak? s).map ([], ·)
    else none
where
  point (n : Nat) (rest : List Char) : Option (List Char × List Char) :=
    if rest.length < n then none
    else ((hex? 16 (rest.take n)).bind scalar?).map fun c => ([c], rest.drop n)

/-- Reads a string up to and including its closing quote, given what it holds so far, last first.
Only strings in double quotes have escapes. -/
def oneLine? (quote : Char) : Nat → List Char → List Char → Option (String × List Char)
  | 0, _, _ => none
  | fuel + 1, acc, s =>
    match s with
    | [] => none
    | c :: rest =>
      if c = quote then some (String.ofList acc.reverse, rest)
      else if c = '\\' ∧ quote = '\x22' then
        match escape? false rest with
        | some (cs, rest) => oneLine? quote fuel (cs.reverse ++ acc) rest
        | none => none
      else if isPlain c then oneLine? quote fuel (c :: acc) rest
      else none

/-- The same for a string in three quotes. One or two quotes do not end it, and up to two more may
stand before the closing ones. -/
def manyLines? (quote : Char) : Nat → List Char → List Char → Option (String × List Char)
  | 0, _, _ => none
  | fuel + 1, acc, s =>
    match s with
    | [] => none
    | c :: rest =>
      if c = quote then
        let run := s.takeWhile (· == quote)
        if run.length < 3 then manyLines? quote fuel (run ++ acc) (s.drop run.length)
        else
          let more := min (run.length - 3) 2
          some (String.ofList (acc.reverse ++ run.take more), s.drop (3 + more))
      else if c = '\n' then manyLines? quote fuel (c :: acc) rest
      else if c = '\\' ∧ quote = '\x22' then
        match escape? true rest with
        | some (cs, rest) => manyLines? quote fuel (cs.reverse ++ acc) rest
        | none => none
      else if isPlain c then manyLines? quote fuel (c :: acc) rest
      else none

/-- Reads a string behind its first quote. The flag tells a string in three quotes, which drops a
line end right behind them. -/
def string? (quote : Char) (s : List Char) : Option (String × Bool × List Char) :=
  match s with
  | a :: b :: rest =>
    if a = quote ∧ b = quote then
      let body := (eat? '\n' rest).getD rest
      (manyLines? quote (body.length + 1) [] body).map fun (t, rest) => (t, true, rest)
    else (oneLine? quote (s.length + 1) [] s).map fun (t, rest) => (t, false, rest)
  | s => (oneLine? quote (s.length + 1) [] s).map fun (t, rest) => (t, false, rest)

/-- A key: bare, or a string on one line. -/
def key? (s : List Char) : Option (String × List Char) :=
  match s with
  | c :: rest =>
    if c = '\x22' ∨ c = '\x27' then
      match string? c rest with
      | some (t, false, rest) => some (t, rest)
      | _ => none
    else (bare? s).map fun (word, rest) => (String.ofList word, rest)
  | [] => none

/-- Keys with points between them, and the blanks behind. -/
def keys? : Nat → List Char → Option (List String × List Char)
  | 0, _ => none
  | fuel + 1, s => do
    let (k, s) ← key? s
    let s := skipSpace s
    match eat? '.' s with
    | none => some ([k], s)
    | some s =>
      let (ks, s) ← keys? fuel (skipSpace s)
      some (k :: ks, s)

/-- Skips blanks, line ends and comments inside an array. -/
def gap? : Nat → List Char → Option (List Char)
  | 0, _ => none
  | fuel + 1, s =>
    match skipSpace s with
    | '\n' :: rest => gap? fuel rest
    | '#' :: rest =>
      match lineEnd? (rest.dropWhile isCommentChar) with
      | some rest => gap? fuel rest
      | none => none
    | s => some s

def addKeys (keys : List String) (v : Value) (entries : Entries) : Option Entries :=
  match keys with
  | [] => none
  | k :: below => addDotted k below v entries

mutual

def value? : Nat → List Char → Option (Value × List Char)
  | 0, _ => none
  | fuel + 1, s =>
    match s with
    | '\x22' :: rest => (string? '\x22' rest).map fun (t, _, rest) => (.string t, rest)
    | '\x27' :: rest => (string? '\x27' rest).map fun (t, _, rest) => (.string t, rest)
    | '[' :: rest => (items? fuel rest).map fun (items, rest) => (.array items, rest)
    | '\x7b' :: rest =>
      match skipSpace rest with
      | '\x7d' :: rest => some (.table true [], rest)
      | rest => (pairs? fuel [] rest).map fun (entries, rest) => (.table true entries, rest)
    | '+' :: rest =>
      match bare? rest with
      | some (word, rest) => number? word rest
      | none => none
    | s =>
      match bare? s with
      | none => none
      | some (word, rest) =>
        if word = "true".toList then some (.boolean true, rest)
        else if word = "false".toList then some (.boolean false, rest)
        else if word = "inf".toList ∨ word = "nan".toList ∨
            (word.head?.any fun c => c == '-' || c.isDigit) then numberOrDate? word rest
        else none

/-- Items of an array up to and including its bracket. -/
def items? : Nat → List Char → Option (List Value × List Char)
  | 0, _ => none
  | fuel + 1, s => do
    let s ← gap? (s.length + 1) s
    match s with
    | ']' :: rest => some ([], rest)
    | s =>
      let (v, s) ← value? fuel s
      let s ← gap? (s.length + 1) s
      match s with
      | ',' :: rest =>
        let (vs, rest) ← items? fuel rest
        some (v :: vs, rest)
      | ']' :: rest => some ([v], rest)
      | _ => none

/-- Pairs of a table in braces up to and including its brace. -/
def pairs? : Nat → Entries → List Char → Option (Entries × List Char)
  | 0, _, _ => none
  | fuel + 1, entries, s => do
    let (keys, s) ← keys? (s.length + 1) s
    let s ← eat? '=' s
    let (v, s) ← value? fuel (skipSpace s)
    let entries ← addKeys keys v entries
    match skipSpace s with
    | '\x7d' :: rest => some (entries, rest)
    | ',' :: rest => pairs? fuel entries (skipSpace rest)
    | _ => none

end

/-- The keys of a header behind its opening bracket, and the rest behind its line. -/
def header? (s : List Char) : Option (List String × Bool × List Char) := do
  let (isElement, s) := match eat? '[' s with
    | some s => (true, s)
    | none => (false, s)
  let (keys, s) ← keys? (s.length + 1) (skipSpace s)
  let s ← eat? ']' s
  let s ← if isElement then eat? ']' s else some s
  let s ← endOfLine? s
  some (keys, isElement, s)

/-- One line `key = value`. -/
def pair? (entries : Entries) (s : List Char) : Option (Entries × List Char) := do
  let (keys, s) ← keys? (s.length + 1) s
  let s ← eat? '=' s
  let (v, s) ← value? (s.length + 1) (skipSpace s)
  let entries ← addKeys keys v entries
  let s ← endOfLine? s
  some (entries, s)

/-- Sections of a text, the first of which has begun. -/
def sections? : Nat → Section → List Char → Option (List Section)
  | 0, _, _ => none
  | fuel + 1, current, s => do
    let s ← gap? (s.length + 1) s
    match s with
    | [] => some [current]
    | '[' :: rest =>
      let (header, isElement, rest) ← header? rest
      let later ← sections? fuel ⟨header, isElement, []⟩ rest
      some (current :: later)
    | s =>
      let (entries, rest) ← pair? current.entries s
      sections? fuel { current with entries } rest

/-- The entries of a document. A byte order mark in front is skipped. -/
def read? (text : String) : Option Entries := do
  let s := foldLineEnds text.toList
  let s := (eat? (Char.ofNat 0xFEFF) s).getD s
  let sections ← sections? (s.length + 1) ⟨[], false, []⟩ s
  Section.assemble true sections

end Relocation.Toml
