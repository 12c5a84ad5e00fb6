/-!
# Globs

The tokens of a glob and their reader. `**` is special only as a whole component; elsewhere it is
two stars.
-/

namespace Relocation

namespace Glob

inductive Token where
  | literal (c : Char)
  /-- `?` -/
  | one
  /-- `*` -/
  | star
  /-- `**/` in front. -/
  | deepFront
  /-- `/**` at the end. -/
  | deepBack
  /-- `/**/` in between. -/
  | deepBetween
  | charClass (negated : Bool) (ranges : List (Char × Char))
  | oneOf (branches : List (List Token))
  deriving Repr

inductive Fault where
  | unclosedClass
  | invalidRange (low high : Char)
  | unclosedGroup
  | unopenedGroup
  | danglingEscape
  deriving DecidableEq, Repr

def Fault.message : Fault → String
  | .unclosedClass => "unclosed character class; missing ']'"
  | .invalidRange low high => "invalid range; '" ++ low.toString ++ "' > '" ++ high.toString ++ "'"
  | .unclosedGroup =>
    "unclosed alternate group; missing '\x7d' (maybe escape '\x7b' with '[\x7b]'?)"
  | .unopenedGroup =>
    "unopened alternate group; missing '\x7b' (maybe escape '\x7d' with '[\x7d]'?)"
  | .danglingEscape => "dangling '\\'"

/-- A pattern that cannot be read, with the reason. -/
structure Invalid where
  pattern : String
  fault : Fault
  deriving DecidableEq, Repr

def Invalid.message (e : Invalid) : String :=
  "error parsing glob '" ++ e.pattern ++ "': " ++ e.fault.message

/-! ### Character classes -/

/-- A class under way: its ranges, last first, and whether a `-` waits for its upper end. -/
structure ClassState where
  ranges : List (Char × Char)
  first : Bool
  inRange : Bool

/-- Extends the last range to `high`. -/
def extendLast (high : Char) : List (Char × Char) → Except Fault (List (Char × Char))
  | [] => .ok []
  | (low, _) :: rest =>
    if high < low then .error (.invalidRange low high) else .ok ((low, high) :: rest)

/-- Whether a class is negated, and its body. -/
def classStart : List Char → Bool × List Char
  | '!' :: body => (true, body)
  | '^' :: body => (true, body)
  | body => (false, body)

theorem classStart_length (s : List Char) : (classStart s).2.length ≤ s.length := by
  unfold classStart; split <;> simp

/-- One character of a class that does not close it. -/
def classStep (st : ClassState) (c : Char) : Except Fault ClassState :=
  if c = '-' ∧ !st.first ∧ !st.inRange then .ok { st with inRange := true }
  else if st.inRange then
    (extendLast c st.ranges).map fun ranges => { ranges, first := false, inRange := false }
  else .ok { ranges := (c, c) :: st.ranges, first := false, inRange := false }

/-- Ranges of a class and what follows its closing bracket. A bracket in first place is literal,
and so is a `-` in last place. -/
def classBody (st : ClassState) : List Char → Except Fault (List (Char × Char) × List Char)
  | [] => .error .unclosedClass
  | c :: rest =>
    if c = ']' ∧ !st.first then
      let ranges := if st.inRange then ('-', '-') :: st.ranges else st.ranges
      .ok (ranges.reverse, rest)
    else
      match classStep st c with
      | .error e => .error e
      | .ok st => classBody st rest

theorem classBody_length {st : ClassState} {s : List Char} {ranges : List (Char × Char)}
    {rest : List Char} (h : classBody st s = .ok (ranges, rest)) : rest.length < s.length := by
  induction s generalizing st with
  | nil => simp [classBody] at h
  | cons c s ih =>
    unfold classBody at h
    split at h
    · simp only [Except.ok.injEq, Prod.mk.injEq] at h
      simp [← h.2]
    · split at h
      · cases h
      · exact Nat.lt_succ_of_lt (ih h)

/-! ### Patterns -/

/-- An open group: its finished branches, last first, and the tokens around it, last first. -/
structure Frame where
  branches : List (List Token)
  outer : List Token

/-- A reading under way: open groups, innermost first, the tokens of the current branch, last
first, and the character before. -/
structure State where
  frames : List Frame
  tokens : List Token
  prev : Option Char

def State.push (st : State) (t : Token) (prev : Char) : State :=
  { st with tokens := t :: st.tokens, prev := some prev }

/-- What `**` becomes, given the character before it and what comes after it, and how many
characters it takes beyond the two stars. -/
def doubleStar (st : State) (next : Option Char) : List Token × Nat :=
  let stars := (.star :: .star :: st.tokens, 0)
  if st.tokens.isEmpty then
    match next with
    | none => ([.deepFront], 0)
    | some '/' => ([.deepFront], 1)
    | some _ => stars
  else if st.prev = some '/' then
    let become (t : Token) (taken : Nat) : List Token × Nat :=
      match st.tokens with
      | .deepFront :: rest => (.deepFront :: rest, taken)
      | .deepBack :: rest => (.deepBack :: rest, taken)
      | _ :: rest => (t :: rest, taken)
      | [] => ([t], taken)
    match next with
    | none => become .deepBack 0
    | some '/' => become .deepBetween 1
    | some c => if (c = ',' ∨ c = '\x7d') ∧ !st.frames.isEmpty then become .deepBack 0 else stars
  else stars

def finish (st : State) : Except Fault (List Token) :=
  if st.frames.isEmpty then .ok st.tokens.reverse else .error .unclosedGroup

/-- Reads the tokens of a pattern. -/
def tokensFrom (st : State) (s : List Char) : Except Fault (List Token) :=
  match s with
  | [] => finish st
  | '?' :: rest => tokensFrom (st.push .one '?') rest
  | '*' :: '*' :: rest =>
    match doubleStar st rest.head? with
    | (tokens, 0) => tokensFrom { st with tokens, prev := some '*' } rest
    | (tokens, _) =>
      match rest with
      | [] => finish { st with tokens }
      | c :: rest => tokensFrom { st with tokens, prev := some c } rest
  | '*' :: rest => tokensFrom (st.push .star '*') rest
  | '[' :: rest =>
    match h : classBody { ranges := [], first := true, inRange := false } (classStart rest).2 with
    | .error e => .error e
    | .ok (ranges, rest') =>
      have : rest'.length < rest.length :=
        Nat.lt_of_lt_of_le (classBody_length h) (classStart_length rest)
      tokensFrom (st.push (.charClass (classStart rest).1 ranges) ']') rest'
  | '\x7b' :: rest =>
    tokensFrom { frames := ⟨[], st.tokens⟩ :: st.frames, tokens := [], prev := some '\x7b' } rest
  | '\x7d' :: rest =>
    match st.frames with
    | [] => .error .unopenedGroup
    | f :: frames =>
      let group := .oneOf (st.tokens.reverse :: f.branches).reverse
      tokensFrom { frames, tokens := group :: f.outer, prev := some '\x7d' } rest
  | ',' :: rest =>
    match st.frames with
    | [] => tokensFrom (st.push (.literal ',') ',') rest
    | f :: frames =>
      tokensFrom
        { frames := { f with branches := st.tokens.reverse :: f.branches } :: frames, tokens := []
          prev := some ',' } rest
  | ['\\'] => .error .danglingEscape
  | '\\' :: c :: rest => tokensFrom (st.push (.literal c) c) rest
  | c :: rest => tokensFrom (st.push (.literal c) c) rest
termination_by s.length
decreasing_by all_goals (simp_all; try omega)

end Glob

/-- A readable pattern. -/
structure Glob where
  pattern : String
  tokens : List Glob.Token
  deriving Repr

namespace Glob

def parse (pattern : String) : Except Invalid Glob :=
  match tokensFrom { frames := [], tokens := [], prev := none } pattern.toList with
  | .ok tokens => .ok { pattern, tokens }
  | .error fault => .error { pattern, fault }

end Glob

end Relocation
