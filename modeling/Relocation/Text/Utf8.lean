/-!
# UTF-8

Characters to bytes and back. `decode` names the first ill-formed sequence by its index and, when
the sequence was cut short by another byte rather than by the end of the input, by its length;
`decodeLossy` puts U+FFFD in its place and goes on.
-/

namespace Relocation.Text

abbrev Bytes := List UInt8

/-- Number of bytes that a run of characters takes. -/
def byteLength : List Char → Nat
  | [] => 0
  | c :: rest => c.utf8Size + byteLength rest

@[simp] theorem byteLength_nil : byteLength [] = 0 := rfl

@[simp] theorem byteLength_cons (c : Char) (rest : List Char) :
    byteLength (c :: rest) = c.utf8Size + byteLength rest := rfl

@[simp] theorem byteLength_append (a b : List Char) :
    byteLength (a ++ b) = byteLength a + byteLength b := by
  induction a with
  | nil => simp
  | cons c rest ih => simp [ih, Nat.add_assoc]

def encode (s : String) : Bytes := s.toList.flatMap String.utf8EncodeChar

/-- An ill-formed sequence. `length` is `none` when the input ends inside the sequence. -/
structure Malformed where
  index : Nat
  length : Option Nat
  deriving DecidableEq, Repr

def Malformed.message (m : Malformed) : String :=
  match m.length with
  | some n => s!"invalid utf-8 sequence of {n} bytes from index {m.index}"
  | none => s!"incomplete utf-8 byte sequence from index {m.index}"

/-- A character whose last bytes are still to come: `need` of them, the next in `low ..= high`. -/
structure Pending where
  start : Nat
  seen : Nat
  need : Nat
  low : UInt8
  high : UInt8
  code : Nat

inductive Lead where
  | char (c : Char)
  | pending (p : Pending)
  | bad

/-- What a byte in first position begins. The range of the second byte excludes overlong forms,
surrogates and code points past U+10FFFF. -/
def lead (index : Nat) (b : UInt8) : Lead :=
  let n := b.toNat
  let wait (need : Nat) (low high : UInt8) (code : Nat) : Lead :=
    .pending { start := index, seen := 1, need, low, high, code }
  if n < 0x80 then .char (Char.ofNat n)
  else if n < 0xC2 then .bad
  else if n < 0xE0 then wait 1 0x80 0xBF (n - 0xC0)
  else if n = 0xE0 then wait 2 0xA0 0xBF 0
  else if n = 0xED then wait 2 0x80 0x9F 0xD
  else if n < 0xF0 then wait 2 0x80 0xBF (n - 0xE0)
  else if n = 0xF0 then wait 3 0x90 0xBF 0
  else if n < 0xF4 then wait 3 0x80 0xBF (n - 0xF0)
  else if n = 0xF4 then wait 3 0x80 0x8F 4
  else .bad

/-- `p` with one more continuation byte, unless `b` cannot continue it. -/
def Pending.feed (p : Pending) (b : UInt8) : Lead :=
  if b < p.low || p.high < b then .bad
  else
    let code := p.code * 64 + (b.toNat - 0x80)
    if p.need ≤ 1 then .char (Char.ofNat code)
    else .pending { p with seen := p.seen + 1, need := p.need - 1, low := 0x80, high := 0xBF, code }

/-- Decodes from `index` on, `held` being the character under way. -/
def decodeFrom (index : Nat) (held : Option Pending) : Bytes → Except Malformed (List Char)
  | [] =>
    match held with
    | none => .ok []
    | some p => .error { index := p.start, length := none }
  | b :: rest =>
    match held with
    | none =>
      match lead index b with
      | .char c => (decodeFrom (index + 1) none rest).map (c :: ·)
      | .pending p => decodeFrom (index + 1) (some p) rest
      | .bad => .error { index, length := some 1 }
    | some p =>
      match p.feed b with
      | .char c => (decodeFrom (index + 1) none rest).map (c :: ·)
      | .pending p => decodeFrom (index + 1) (some p) rest
      | .bad => .error { index := p.start, length := some p.seen }

def decode (bytes : Bytes) : Except Malformed String :=
  (decodeFrom 0 none bytes).map String.ofList

def decode? (bytes : Bytes) : Option String := (decode bytes).toOption

/-- `held` abandoned (if any) and `b` read in first position. -/
def restart (held : Option Pending) (b : UInt8) : List Char × Option Pending :=
  let before := if held.isSome then ['�'] else []
  match lead 0 b with
  | .char c => (before ++ [c], none)
  | .pending p => (before, some p)
  | .bad => (before ++ ['�'], none)

def decodeLossyFrom (held : Option Pending) : Bytes → List Char
  | [] => if held.isSome then ['�'] else []
  | b :: rest =>
    match held with
    | none =>
      let (cs, next) := restart none b
      cs ++ decodeLossyFrom next rest
    | some p =>
      match p.feed b with
      | .char c => c :: decodeLossyFrom none rest
      | .pending p => decodeLossyFrom (some p) rest
      | .bad =>
        let (cs, next) := restart held b
        cs ++ decodeLossyFrom next rest

def decodeLossy (bytes : Bytes) : String := String.ofList (decodeLossyFrom none bytes)

end Relocation.Text
