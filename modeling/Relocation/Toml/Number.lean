import Relocation.Toml.Basic

/-!
# TOML numbers and dates

Numbers and dates start with a run of letters, digits, `-` and `_`, the `word`; a point, plus or
colon may follow it. Underscores stand between digits, and decimal numbers have no leading zeros.
-/

namespace Relocation.Toml

def isBare (c : Char) : Bool := c.isAlphanum || c == '-' || c == '_'

def bare? (s : List Char) : Option (List Char × List Char) :=
  match s.takeWhile isBare with
  | [] => none
  | word => some (word, s.dropWhile isBare)

/-- The rest behind `c`, if the text starts with it. -/
def eat? (c : Char) : List Char → Option (List Char)
  | [] => none
  | d :: rest => if c = d then some rest else none

def digitValue? (radix : Nat) (c : Char) : Option Nat :=
  let v :=
    if c.isDigit then c.toNat - '0'.toNat
    else if 'a' ≤ c ∧ c ≤ 'f' then c.toNat - 'a'.toNat + 10
    else if 'A' ≤ c ∧ c ≤ 'F' then c.toNat - 'A'.toNat + 10
    else radix
  if v < radix then some v else none

/-- Digits that have been read: how many, their value, and whether an underscore came last. -/
structure Digits where
  count : Nat := 0
  value : Nat := 0
  leadingZero : Bool := false
  unfinished : Bool := false

namespace Digits

def scan (radix : Nat) (zeros : Bool) : Digits → List Char → Option (Digits × List Char)
  | d, [] => some (d, [])
  | d, c :: rest =>
    match digitValue? radix c with
    | some v =>
      if 0 < d.count ∧ d.leadingZero ∧ !zeros then none
      else
        let leadingZero := if d.count = 0 then v == 0 else d.leadingZero
        scan radix zeros ⟨d.count + 1, d.value * radix + v, leadingZero, false⟩ rest
    | none =>
      if c = '_' then
        if d.count = 0 then none
        else if d.unfinished then some (d, c :: rest)
        else scan radix zeros { d with unfinished := true } rest
      else some (d, c :: rest)

/-- Reads at least one digit; an underscore may not come last. -/
def read? (radix : Nat) (zeros : Bool) (s : List Char) : Option (Digits × List Char) :=
  match scan radix zeros {} s with
  | some (d, rest) => if d.count = 0 ∨ d.unfinished then none else some (d, rest)
  | none => none

end Digits

/-- Takes a minus sign off. -/
def signed (s : List Char) : Bool × List Char :=
  match s with
  | '-' :: rest => (true, rest)
  | s => (false, s)

/-- A whole number that takes up the whole word and fits in 64 bits. -/
def integer? (radix : Nat) (word : List Char) : Option Value :=
  let (negative, ds) := if radix = 10 then signed word else (false, word)
  match Digits.read? radix (radix != 10) ds with
  | some (d, []) =>
    let n : Int := if negative then -d.value else d.value
    if -(Nat.pow 2 63 : Nat) ≤ n ∧ n < Nat.pow 2 63 then some (.integer n) else none
  | _ => none

/-- A decimal with these digits and exponent rounds to a finite double. -/
def isFinite (digits : Nat) (exponent : Int) : Bool :=
  let bound := Nat.pow 2 1024 - Nat.pow 2 970
  let size : Int := (Nat.toDigits 10 digits).length + exponent
  if digits = 0 ∨ size < 300 then true
  else if 320 < size then false
  else if 0 ≤ exponent then digits * Nat.pow 10 exponent.toNat < bound
  else digits < bound * Nat.pow 10 (-exponent).toNat

def float? (digits : Nat) (exponent : Int) : Option Value :=
  if isFinite digits exponent then some .float else none

/-- Reads what follows the digits of a float: nothing, or an exponent. An exponent with a plus sign
goes on behind the word. `places` is the number of digits behind the point. -/
def exponent? (digits places : Nat) (suffix rest : List Char) : Option (Value × List Char) :=
  match suffix with
  | [] => (float? digits (-places)).map (·, rest)
  | e :: more =>
    if e = 'e' ∨ e = 'E' then
      let (negative, ds, rest) :=
        if more.isEmpty then
          let rest := (eat? '+' rest).getD rest
          match bare? rest with
          | some (word, rest) => (false, word, rest)
          | none => (false, [], rest)
        else
          let (negative, ds) := signed more
          (negative, ds, rest)
      match Digits.read? 10 true ds with
      | some (x, []) =>
        let exponent : Int := if negative then -x.value else x.value
        (float? digits (exponent - places)).map (·, rest)
      | _ => none
    else none

/-- A number that starts with `word`. -/
def number? (word rest : List Char) : Option (Value × List Char) :=
  match word with
  | '0' :: 'x' :: ds => (integer? 16 ds).map (·, rest)
  | '0' :: 'o' :: ds => (integer? 8 ds).map (·, rest)
  | '0' :: 'b' :: ds => (integer? 2 ds).map (·, rest)
  | _ =>
    if word.contains 'e' || word.contains 'E' then
      match Digits.read? 10 false (signed word).2 with
      | some (d, suffix) => exponent? d.value 0 suffix rest
      | none => none
    else
      match eat? '.' rest with
      | some rest =>
        match bare? rest with
        | none => none
        | some (after, rest) =>
          match Digits.read? 10 false (signed word).2, Digits.read? 10 true after with
          | some (d, []), some (f, suffix) =>
            exponent? (d.value * Nat.pow 10 f.count + f.value) f.count suffix rest
          | _, _ => none
      | none =>
        let (_, plain) := signed word
        if plain = "inf".toList ∨ plain = "nan".toList then some (.float, rest)
        else (integer? 10 word).map (·, rest)

def looksLikeDate (word : List Char) : Bool :=
  let text := word.drop 1
  let exponents := (word.zip text).any fun (a, b) => (a == 'e' || a == 'E') && b == '-'
  word.contains 'T' || (text.contains '-' && !exponents)

/-- Skips a colon, or what `sep` stands for, and the word behind it. -/
def skipPart? (sep : Char) (s : List Char) : Option (List Char) :=
  match eat? sep s with
  | none => some s
  | some s => (bare? s).map (·.2)

/-- The rest behind a time of day whose hour and first colon have been read. -/
def time? (s : List Char) : Option (List Char) := do
  let (_, s) ← bare? s
  let s ← eat? ':' s
  let (_, s) ← bare? s
  let s ← skipPart? '.' s
  let s ← skipPart? '+' s
  skipPart? ':' s

/-- The hour behind a date, set off by one space. -/
def skipHour (s : List Char) : List Char :=
  match s with
  | ' ' :: s' =>
    match bare? s' with
    | some (_, rest) => rest
    | none => s
  | s => s

/-- A number or a date that starts with `word`. -/
def numberOrDate? (word rest : List Char) : Option (Value × List Char) :=
  if looksLikeDate word then
    let rest := skipHour rest
    match eat? ':' rest with
    | some rest => (time? rest).map (.date, ·)
    | none => some (.date, rest)
  else
    match eat? ':' rest with
    | some rest => (time? (skipHour rest)).map (.date, ·)
    | none => number? word rest

end Relocation.Toml
