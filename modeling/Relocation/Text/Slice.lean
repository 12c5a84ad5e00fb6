import Relocation.Text.Utf8

/-!
# Runs of characters inside others
-/

namespace Relocation.Text

def isInfix (needle : List Char) : List Char → Bool
  | [] => needle.isEmpty
  | c :: rest => needle.isPrefixOf (c :: rest) || isInfix needle rest

/-- What follows the last occurrence of `needle`. -/
def afterLast? (needle : List Char) : List Char → Option (List Char)
  | [] => none
  | c :: rest =>
    match afterLast? needle rest with
    | some tail => some tail
    | none => if needle.isPrefixOf (c :: rest) then some ((c :: rest).drop needle.length) else none

/-- `s` without a leading `head`, if it has one. -/
def dropLead? (head s : List Char) : Option (List Char) :=
  if head.isPrefixOf s then some (s.drop head.length) else none

/-- `s` without a trailing `tail`, if it has one. -/
def dropTail? (tail s : List Char) : Option (List Char) :=
  (dropLead? tail.reverse s.reverse).map List.reverse

/-- Drops characters of a class from both ends. -/
def strip (p : Char → Bool) (s : List Char) : List Char :=
  ((s.dropWhile p).reverse.dropWhile p).reverse

/-- The first `n` bytes of a text, and the rest. There are none past the end of the text, nor where
`n` falls inside a character. -/
def splitBytes? : Nat → List Char → Option (List Char × List Char)
  | 0, text => some ([], text)
  | _ + 1, [] => none
  | n + 1, c :: rest =>
    if n + 1 < c.utf8Size then none
    else (splitBytes? (n + 1 - c.utf8Size) rest).map fun (front, back) => (c :: front, back)

/-- The characters between two byte offsets, if both are places of the text in this order. -/
def slice? (start stop : Nat) (text : List Char) : Option (List Char) :=
  (splitBytes? stop text).bind fun (front, _) => (splitBytes? start front).map (·.2)

theorem splitBytes?_append (a b : List Char) : splitBytes? (byteLength a) (a ++ b) = some (a, b) := by
  induction a with
  | nil => cases b <;> rfl
  | cons c a ih =>
    have filled : 0 < c.utf8Size := c.utf8Size_pos
    obtain ⟨n, size⟩ : ∃ n, c.utf8Size + byteLength a = n + 1 := ⟨_, (Nat.succ_pred (by omega)).symm⟩
    have rest : n + 1 - c.utf8Size = byteLength a := by omega
    rw [List.cons_append, byteLength_cons, size, splitBytes?, if_neg (by omega), rest, ih]
    rfl

theorem splitBytes?_eq_some_iff {n : Nat} {text a b : List Char} :
    splitBytes? n text = some (a, b) ↔ text = a ++ b ∧ byteLength a = n := by
  refine ⟨fun split => ?_, fun ⟨whole, size⟩ => by rw [whole, ← size, splitBytes?_append]⟩
  induction text generalizing n a b with
  | nil =>
    cases n with
    | zero => cases split; exact ⟨rfl, rfl⟩
    | succ n => cases split
  | cons c rest ih =>
    cases n with
    | zero => cases split; exact ⟨rfl, rfl⟩
    | succ n =>
      rw [splitBytes?] at split
      split at split
      · cases split
      · obtain ⟨⟨front, back⟩, later, same⟩ := Option.map_eq_some_iff.mp split
        cases same
        obtain ⟨whole, size⟩ := ih later
        refine ⟨by rw [whole]; rfl, ?_⟩
        rw [byteLength_cons]
        omega

theorem slice?_eq_some_iff {start stop : Nat} {text w : List Char} :
    slice? start stop text = some w ↔
      ∃ a b, text = a ++ w ++ b ∧ byteLength a = start ∧ byteLength (a ++ w) = stop := by
  constructor
  · intro found
    obtain ⟨⟨front, back⟩, whole, inner⟩ := Option.bind_eq_some_iff.mp found
    obtain ⟨⟨a, w'⟩, cut, same⟩ := Option.map_eq_some_iff.mp inner
    cases same
    obtain ⟨rfl, last⟩ := splitBytes?_eq_some_iff.mp whole
    obtain ⟨rfl, first⟩ := splitBytes?_eq_some_iff.mp cut
    exact ⟨a, back, rfl, first, last⟩
  · rintro ⟨a, b, rfl, rfl, rfl⟩
    rw [slice?, splitBytes?_append]
    simp [splitBytes?_append]

end Relocation.Text
