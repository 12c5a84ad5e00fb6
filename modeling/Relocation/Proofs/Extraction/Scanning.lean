import Relocation.Extraction.Lexical
import Relocation.Proofs.Extraction.Arrangement
import Relocation.Proofs.Extraction.Program

/-!
# Patterns on import programs

No pattern reaches from one line of an import program into another: what each of them finds is said
line by line.
-/

namespace Relocation

open Text Text.Pattern Text.Cursor Lexical

/-! ### Characters -/

theorem ascii_cases {P : Char → Prop} {c : Char} (small : c.toNat < 128)
    (each : ∀ n < 128, P (Char.ofNat n)) : P c := by
  rw [← Char.ofNat_toNat c]
  exact each c.toNat small

theorem IsSpecifier.free {s : String} (valid : IsSpecifier s) {x : Char}
    (other : isSpecifierChar x = false) : x ∉ s.toList := by
  intro member
  rw [valid x member] at other
  cases other

theorem IsIdentifier.free {x : String} (valid : IsIdentifier x) {c : Char}
    (other : isIdentPart c = false) : c ∉ x.toList := by
  intro member
  rw [valid.2 c member] at other
  cases other

theorem IsIdentifier.split {x : String} (valid : IsIdentifier x) :
    ∃ c rest, x.toList = c :: rest ∧ isIdentStart c = true ∧ ∀ d ∈ rest, isIdentPart d = true := by
  obtain ⟨c, head, start⟩ := valid.1
  obtain ⟨rest, shape⟩ := List.head?_eq_some_iff.mp head
  exact ⟨c, rest, shape, start, fun d inside => valid.2 d
    (by rw [shape]; exact List.mem_cons_of_mem _ inside)⟩

theorem Line.Valid.specifier_of {s : Statement} (valid : (Line.refers s).Valid) :
    IsSpecifier s.specifier :=
  valid.specifier s rfl

/-- A character that stands in no name, no specifier and nowhere else in a line. -/
theorem Line.Valid.free {l : Line} (valid : l.Valid) {x : Char} (part : isIdentPart x = false)
    (other : isSpecifierChar x = false)
    (fixed : x ∉ "import export const from *=1;'\"()\x7b\x7d".toList) : x ∉ l.body := by
  have names : ∀ name ∈ l.name?, x ∉ name.toList := fun name member =>
    (valid.name name member).free part
  simp only [String.reduceToList, List.mem_cons, not_or] at fixed
  cases l with
  | declares name =>
    have named := names name rfl
    simp [named, fixed]
  | refers s =>
    have quoted := valid.specifier_of.free other
    obtain ⟨form, specifier⟩ := s
    cases form with
    | plain name | braced name | lazy name =>
      have named := names name rfl
      simp [Statement.body, Form.quote, Form.closing, named, quoted, fixed]
    | bare | star => simp [Statement.body, Form.quote, Form.closing, quoted, fixed]

theorem Line.Valid.single {l : Line} (valid : l.Valid) :
    '\n' ∉ l.body := valid.free rfl rfl (by decide)

/-! ### Line by line -/

/-- What a pattern finds in a program is what it finds in each line. -/
structure Reads (p : Pattern) (find : Line → Cursor → List Char → List Found) : Prop where
  line : ∀ {l : Line} {c : Cursor} {more : List Char}, l.Valid → atLineStart c = true →
    c.rest = l.body ++ '\n' :: more → p.finds c = find l c more ++ p.finds (c.past l.text more)
  last : ∀ c : Cursor, c.rest = [] → p.finds c = []

/-- What is found on all lines, where `find` says it for a line, the place where it starts and the
lines behind it. -/
def founds {α : Type} (find : Line → Cursor → List Char → List α) : List Line → Cursor → List α
  | [], _ => []
  | l :: rest, c => find l c (programText rest) ++ founds find rest (c.past l.text (programText rest))

theorem Line.text_start (l : Line) (c : Cursor) (more : List Char) :
    atLineStart (c.past l.text more) = true := by
  rw [Line.text, atLineStart_concat]
  rfl

theorem programText_cons (l : Line) (rest : List Line) :
    programText (l :: rest) = l.body ++ '\n' :: programText rest := by
  simp [programText, Line.text]

theorem Reads.program {p : Pattern} {find : Line → Cursor → List Char → List Found}
    (reads : Reads p find) {lines : List Line} (valid : ∀ l ∈ lines, l.Valid) {c : Cursor}
    (start : atLineStart c = true) (next : c.rest = programText lines) :
    p.finds c = founds find lines c := by
  induction lines generalizing c with
  | nil => exact reads.last c next
  | cons l rest ih =>
    rw [programText_cons] at next
    have others := ih (fun l inside => valid l (List.mem_cons_of_mem _ inside))
      (l.text_start c (programText rest)) rfl
    rw [reads.line (valid l List.mem_cons_self) start next, founds, others]

/-- Patterns for the start of a line are settled there. -/
theorem reads_of_start {b : Pattern} {find : Line → Cursor → List Char → List Found}
    (proper : b.nullable = false)
    (local' : ∀ {l : Line} {c : Cursor} {more : List Char}, l.Valid → atLineStart c = true →
      c.rest = l.body ++ '\n' :: more → (find l c more = [] ∧ (seq lineHead b).Misses c) ∨
        ∃ w line groups, l.body = w ++ line ∧ w ≠ [] ∧
        (seq lineHead b).Takes c ⟨c.past w (line ++ '\n' :: more), groups⟩ ∧
          find l c more = [⟨c, c.past w (line ++ '\n' :: more), groups⟩]) : Reads
            (seq lineHead b) find where
  line := by
    intro l c more valid start next
    rcases local' valid start next with ⟨none, misses⟩ | ⟨w, line, groups, shape, filled, taken, found⟩
    · rw [none, List.nil_append, Line.text]
      exact finds_line_miss next valid.single misses
    · have single := valid.single
      rw [found, Line.text, shape]
      rw [shape] at next single
      exact finds_line_hit next filled single taken
  last := by
    intro c next
    refine finds_end (misses_of_opens ?_ ?_) next
    · change ((true && true) && b.nullable) = false
      rw [proper]
      rfl
    · rw [next]
      intro x none
      cases none

/-! ### Parts of patterns -/

section
variable {c : Cursor} {b : Pattern} {r : List Char}

theorem takes_lineHead (start : atLineStart c = true)
    (plain : ∀ x ∈ c.rest.head?, isIndent x = false) : lineHead.Takes c ⟨c, []⟩ :=
  takes_seq (takes_lineStart start) (takes_greedy (w := []) rfl (by simp) plain)

theorem misses_lineHead (plain : ∀ x ∈ c.rest.head?, isIndent x = false)
    (none : ∀ w r, c.rest = w ++ r → ¬ b.Accepts w) : (seq lineHead b).Misses c := by
  refine misses_of_accepts fun w r same taken => ?_
  obtain ⟨u, v, rfl, ⟨_, indent, rfl, rfl, indented⟩, rest⟩ := taken
  cases indent with
  | nil => exact none v r (by rw [same]; rfl) rest
  | cons x indent =>
    have outdented := plain x (by rw [same]; rfl)
    rw [indented x List.mem_cons_self] at outdented
    cases outdented

theorem takes_space (next : c.rest = ' ' :: r) (ends : ∀ x ∈ r.head?, isBlank x = false) :
    space.Takes c ⟨c.past [' '] r, []⟩ :=
  takes_greedy next (by decide) ends

theorem takes_space1 (next : c.rest = ' ' :: r) (ends : ∀ x ∈ r.head?, isBlank x = false) :
    space1.Takes c ⟨c.past [' '] r, []⟩ := by
  have run := takes_greedy (c := c.past [' '] r) (w := []) rfl (q := isBlank) (by simp) ends
  rw [past_past] at run
  exact takes_seq (takes_one next (by decide)) run

theorem takes_unspaced (ends : ∀ x ∈ c.rest.head?, isBlank x = false) : space.Takes c ⟨c, []⟩ :=
  takes_greedy (w := []) rfl (by simp) ends

theorem takes_quotedBy {q : Char} {s : List Char} (next : c.rest = q :: s ++ q :: r) (apart : q ∉ s)
    (single : '\n' ∉ s) : (quotedBy q).Takes c ⟨c.past (q :: s ++ [q]) r,
      [⟨c.past [q] (s ++ q :: r), c.past (q :: s) (q :: r)⟩]⟩ := by
  have inner := takes_greedy (c := c.past [q] (s ++ q :: r)) (w := s) (r := q :: r)
    (q := fun x => x != q && x != '\n') rfl
    (fun x member => by
      simp only [Bool.and_eq_true, bne_iff_ne]
      exact ⟨fun same => apart (same ▸ member), fun same => single (same ▸ member)⟩)
    (fun x same => by
      cases same
      simp)
  have close := takes_one (c := c.past (q :: s) (q :: r)) (q := (· == q)) (r := r) rfl (by simp)
  rw [past_past] at inner close
  exact takes_seq (takes_one next (by simp)) (takes_seq (takes_group inner) close)

theorem takes_quoted {q : Char} {s : List Char} (quote : isQuote q = true)
    (next : c.rest = q :: s ++ q :: r) (apart : q ∉ s) (single : '\n' ∉ s) :
    quoted.Takes c ⟨c.past (q :: s ++ [q]) r,
      [⟨c.past [q] (s ++ q :: r), c.past (q :: s) (q :: r)⟩]⟩ := by
  have taken := takes_quotedBy next apart single
  simp only [isQuote, Bool.or_eq_true, beq_iff_eq] at quote
  rcases quote with rfl | rfl
  · refine takes_alt_right (misses_of_opens rfl fun x same => ?_) taken
    rw [next] at same
    cases same
    decide
  · exact takes_alt_left taken

theorem quoted_shape {w : List Char} (taken : quoted.Accepts w) :
    ∃ q v, isQuote q = true ∧ w = q :: v := by
  rcases accepts_opens taken with ⟨_, empty⟩ | ⟨x, v, rfl, opened⟩
  · cases empty
  · refine ⟨x, v, ?_, rfl⟩
    simpa [quoted, quotedBy, all, opens, Pattern.nullable, isQuote, or_comm] using opened

/-- A keyword and blanks, and then something that the pattern cannot begin with. -/
theorem misses_behind {k : List Char} {x : Char} {blanks : Pattern}
    (blank : ∀ u, blanks.Accepts u → ∀ z ∈ u, isBlank z = true) (next : k ++ [' ', x] <+: c.rest)
    (outdented : ∃ y ∈ k.head?, isIndent y = false) (filled : isBlank x = false)
    (proper : b.nullable = false) (closed : b.opens x = false) (spaced : b.opens ' ' = false) :
    (seq lineHead (seq (word k) (seq blanks b))).Misses c := by
  obtain ⟨t, next⟩ := next
  rw [List.append_assoc] at next
  refine misses_lineHead (fun z head => ?_) fun w r same taken => ?_
  · obtain ⟨y, begins, outdented⟩ := outdented
    rw [← next, List.head?_append, begins] at head
    cases head
    exact outdented
  · obtain ⟨_, _, rfl, rfl, u, v, rfl, run, rest⟩ := taken
    rw [← next, List.append_assoc] at same
    have tail := List.append_cancel_left same
    rcases accepts_opens rest with ⟨_, empty⟩ | ⟨z, v, rfl, opened⟩
    · rw [proper] at empty
      cases empty
    cases u with
    | nil =>
      obtain ⟨rfl, _⟩ := List.cons.inj tail
      rw [spaced] at opened
      cases opened
    | cons _ u =>
      obtain ⟨_, tail⟩ := List.cons.inj tail
      cases u with
      | nil =>
        obtain ⟨rfl, _⟩ := List.cons.inj tail
        rw [closed] at opened
        cases opened
      | cons z' u =>
        obtain ⟨rfl, _⟩ := List.cons.inj tail
        rw [blank _ run x (by simp)] at filled
        cases filled

theorem space_blank (u : List Char) (run : space.Accepts u) : ∀ z ∈ u, isBlank z = true := run

theorem space1_blank (u : List Char) (run : space1.Accepts u) : ∀ z ∈ u, isBlank z = true := by
  obtain ⟨_, v, rfl, ⟨x, rfl, holds⟩, others⟩ := run
  intro z member
  rcases List.mem_cons.mp member with rfl | later
  · exact holds
  · exact others z later

end

end Relocation
