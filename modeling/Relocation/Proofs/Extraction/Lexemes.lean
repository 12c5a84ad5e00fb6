import Relocation.Extraction.Grammar
import Relocation.Proofs.Text.Matching

/-!
# Lexemes in place

What each lexeme takes when it comes next, and when it does not come next.
-/

namespace Relocation.Grammar

open Text Text.Cursor

/-! ### Blanks -/

/-- A lexeme comes at once: neither a blank nor a comment. -/
def Starts (r : List Char) : Prop := ∀ x ∈ r.head?, isSpace x = false ∧ x ≠ '/'

section
variable {c : Cursor} {w r : List Char}

theorem skipTrivia_of_starts (starts : Starts c.rest) : skipTrivia c = c := by
  obtain ⟨prev, rest, pos⟩ := c
  cases rest with
  | nil => rfl
  | cons x rest =>
    obtain ⟨filled, other⟩ := starts x rfl
    simp only [skipTrivia, trivia, filled, other, Bool.false_eq_true, false_and, if_false]

theorem skipTrivia_space {x : Char} (next : c.rest = x :: r) (space : isSpace x = true)
    (starts : Starts r) : skipTrivia c = c.past [x] r := by
  have rest := skipTrivia_of_starts (c := c.past [x] r) starts
  obtain ⟨prev, rest', pos⟩ := c
  obtain rfl : rest' = x :: r := next
  rw [skipTrivia, trivia, if_pos space]
  exact rest

theorem dropWhile_past {p : Char → Bool} (next : c.rest = w ++ r) (all : ∀ x ∈ w, p x = true)
    (ends : ∀ x ∈ r.head?, p x = false) : c.dropWhile p = c.past w r := by
  have run : ∀ (w : List Char) (c : Cursor), c.rest = w ++ r → (∀ x ∈ w, p x = true) →
      dropWhile.go p c.prev c.pos c.rest = c.past w r := by
    intro w
    induction w with
    | nil =>
      intro c next _
      rw [eq_past_nil (show c.rest = r from next), show c.rest = r from next]
      obtain ⟨prev, rest, pos⟩ := c
      obtain rfl : rest = r := next
      cases rest with
      | nil => rfl
      | cons x rest => simp only [dropWhile.go, ends x rfl, Bool.false_eq_true, if_false]
    | cons x w ih =>
      intro c next all
      have rest := ih (c.past [x] (w ++ r)) rfl fun y member => all y (List.mem_cons_of_mem _ member)
      rw [past_past] at rest
      rw [next, List.cons_append, dropWhile.go, if_pos (all x List.mem_cons_self)]
      exact rest
  exact run w c next all

/-! ### Names -/

def IsWord (w : List Char) :
    Prop := (∃ x ∈ w.head?, isNameStart x = true) ∧ ∀ x ∈ w, isNamePart x = true

instance (w : List Char) : Decidable (IsWord w) :=
  inferInstanceAs (Decidable ((∃ x ∈ w.head?, isNameStart x = true) ∧ ∀ x ∈ w, isNamePart x = true))

def Ends (r : List Char) : Prop := ∀ x ∈ r.head?, isNamePart x = false

theorem name?_eq (named : IsWord w) (ends : Ends r) (next : c.rest = w ++ r) :
    name? c = some ⟨c, c.past w r⟩ := by
  obtain ⟨x, head, start⟩ := named.1
  have first : c.next? = some x := by rw [next?, next, List.head?_append, head]; rfl
  rw [name?, first]
  simp only [start, if_true, dropWhile_past next named.2 ends]

theorem name?_none {x : Char} (next : c.rest.head? = some x) (sign : isNameStart x = false) :
    name? c = none := by
  rw [name?, next?, next]
  simp only [sign, Bool.false_eq_true, if_false]

theorem word_text (next : c.rest = w ++ r) : Piece.text ⟨c, c.past w r⟩ = w := by
  rw [Piece.text, upTo, past_pos, Nat.add_sub_cancel_left, next]
  exact takeBytes_append w r

end

section
variable {s : State} {w r : List Char} {x : Char}

theorem word?_eq (named : IsWord w) (ends : Ends r) (next : s.peek.rest = w ++ r) :
    s.word? = some (String.ofList w) := by
  rw [State.word?, name?_eq named ends next, Option.map_some, word_text next]

theorem word?_none (next : s.peek.rest.head? = some x) (sign : isNameStart x = false) :
    s.word? = none := by
  rw [State.word?, name?_none next sign]
  rfl

theorem word_eq (named : IsWord w) (ends : Ends r) (next : s.peek.rest = w ++ r) :
    word s = some ⟨s.peek.past w r, s.nodes⟩ := by
  rw [word, name?_eq named ends next]
  rfl

theorem word_none (next : s.peek.rest.head? = some x) (sign : isNameStart x = false) :
    word s = none := by
  rw [word, name?_none next sign]
  rfl

theorem keyword_eq {k : String} (named : IsWord k.toList) (ends : Ends r)
    (next : s.peek.rest = k.toList ++ r) : keyword k s = some ⟨s.peek.past k.toList r, s.nodes⟩ := by
  rw [keyword, name?_eq named ends next]
  simp only [word_text next, if_true]
  rfl

theorem keyword_other {k : String} (named : IsWord w) (ends : Ends r) (next : s.peek.rest = w ++ r)
    (other : w ≠ k.toList) : keyword k s = none := by
  rw [keyword, name?_eq named ends next]
  simp only [word_text next, if_neg other]

theorem keyword_none {k : String} (next : s.peek.rest.head? = some x) (sign : isNameStart x = false) :
    keyword k s = none := by
  rw [keyword, name?_none next sign]

/-! ### Signs -/

theorem punct_eq {p : String} (next : s.peek.rest = p.toList ++ r) :
    punct p s = some ⟨s.peek.past p.toList r, s.nodes⟩ := by
  rw [punct, take?_append next]
  rfl

theorem punct_none {p : String} (unseen : s.sees p = false) : punct p s = none := by
  rw [punct, Option.map_eq_none_iff]
  cases taken : s.peek.take? p.toList with
  | none => rfl
  | some d =>
    have same := (take?_some taken).1
    have seen : s.sees p = true := by
      rw [State.sees, List.isPrefixOf_iff_prefix, same]
      exact List.prefix_append _ _
    rw [seen] at unseen
    cases unseen

end

/-! ### Strings and numbers -/

section
variable {c : Cursor} {s r : List Char} {q : Char}

theorem quote_cases (quote : isQuote q = true) : q = '"' ∨ q = '\'' := by
  simpa [isQuote] using quote

theorem string?_go {x : Char} (plain : x ≠ '\\') (pos : Nat) (rest : List Char) :
    string?.go q pos (x :: rest) =
    if x = q then some ⟨some x, rest, pos + 1⟩ else if x = '\n' ∨ x = '\r' then none
    else string?.go q (pos + x.utf8Size) rest := by
  rw [string?.go.eq_def]
  split
  · rename_i same
    cases same
  · rename_i same
    cases same
    exact absurd rfl plain
  · rename_i same
    cases same
    rfl

theorem string?_eq (quote : isQuote q = true) (apart : q ∉ s) (escape : '\\' ∉ s) (newline : '\n' ∉ s)
    (return' : '\r' ∉ s) (next : c.rest = q :: s ++ q :: r) :
    string? c = some ⟨c, c.past (q :: s ++ [q]) r⟩ := by
  have known := quote_cases quote
  have size : q.utf8Size = 1 := by rcases known with rfl | rfl <;> rfl
  have plain : q ≠ '\\' := by rcases known with rfl | rfl <;> decide
  have run : ∀ (s : List Char) (pos : Nat), q ∉ s → '\\' ∉ s → '\n' ∉ s → '\r' ∉ s →
      string?.go q pos (s ++ q :: r) = some ⟨some q, r, pos + byteLength s + 1⟩ := by
    intro s
    induction s with
    | nil =>
      intro pos _ _ _ _
      rw [List.nil_append, string?_go plain, if_pos rfl]
      rfl
    | cons x s ih =>
      intro pos apart escape newline return'
      simp only [List.mem_cons, not_or] at apart escape newline return'
      have single : ¬ (x = '\n' ∨ x = '\r') := by
        rintro (rfl | rfl)
        · exact newline.1 rfl
        · exact return'.1 rfl
      rw [List.cons_append, string?_go (Ne.symm escape.1), if_neg (Ne.symm apart.1), if_neg single,
        ih _ apart.2 escape.2 newline.2 return'.2, byteLength_cons, Nat.add_assoc pos]
  have last : (q :: s ++ [q]).getLast? = some q := by rw [List.getLast?_append]; rfl
  rw [string?, next]
  simp only [List.cons_append, quote, if_true, run s (c.pos + 1) apart escape newline return',
    Option.map_some]
  rw [past, ← List.cons_append, last]
  simp [size, Nat.add_assoc, Nat.add_comm 1]

theorem string?_none {x : Char} (next : c.rest.head? = some x) (other : isQuote x = false) :
    string? c = none := by
  obtain ⟨rest, shape⟩ := List.head?_eq_some_iff.mp next
  rw [string?, shape]
  simp only [other, Bool.false_eq_true, if_false]

end

end Relocation.Grammar
