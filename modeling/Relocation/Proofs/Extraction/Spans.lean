import Relocation.Extraction.Lexical
import Relocation.Proofs.Extraction.Arrangement
import Relocation.Proofs.Extraction.Lines
import Relocation.Proofs.Text.Matching

/-!
# Spans of references

Whatever the text, a pattern cuts its groups out of it between two characters, and a reference is
what its span says (`Lexical.extract_quotes`).
-/

namespace Relocation

open Text Text.Pattern Text.Cursor

/-! ### Cursors in a text -/

namespace Text.Cursor

def StandsIn (text : List Char) (c : Cursor) :
    Prop := ∃ front, text = front ++ c.rest ∧ c.pos = byteLength front

variable {text : List Char} {c : Cursor}

theorem StandsIn.past (stands : c.StandsIn text) {w r : List Char} (next : c.rest = w ++ r) :
    (c.past w r).StandsIn text := by
  obtain ⟨front, whole, here⟩ := stands
  refine ⟨front ++ w, ?_, ?_⟩
  · rw [whole, next, past_rest, List.append_assoc]
  · rw [past_pos, here, byteLength_append]

theorem StandsIn.step (stands : c.StandsIn text) : c.step.StandsIn text := by
  cases next : c.rest with
  | nil =>
    have stays : c.step = c := by
      unfold Cursor.step
      rw [next]
    rwa [stays]
  | cons x rest =>
    rw [step_past next]
    exact stands.past next

end Text.Cursor

namespace Text.Pattern

variable {text : List Char} {p : Pattern} {c : Cursor} {m : Found}

/-- All that is found from a place on is a hit somewhere in the text. -/
theorem scanFrom_hits {fuel : Nat} (stands : c.StandsIn text) (member : m ∈ scanFrom p fuel c) :
    ∃ d h, d.StandsIn text ∧ h ∈ hits p d ∧ m.groups = h.groups := by
  induction fuel generalizing c with
  | zero => cases member
  | succ fuel ih =>
    rw [scanFrom] at member
    split at member
    · rename_i h first
      have hit : h ∈ hits p c := List.mem_of_mem_head? first
      rcases List.mem_cons.mp member with rfl | later
      · exact ⟨c, h, stands, hit, rfl⟩
      · split at later
        · cases later
        · refine ih ?_ later
          split
          · exact stands.step
          · obtain ⟨w, _, rest, stop⟩ := hits_accepts hit
            rw [stop]
            exact stands.past rest
    · split at member
      · cases member
      · exact ih stands.step member

theorem scan_groups (member : m ∈ p.scan text) {g : Piece} (taken : g ∈ m.groups) :
    ∃ front back, text = front ++ (g.text ++ back) ∧ g.start.pos = byteLength front ∧
      g.stop.pos = byteLength front + byteLength g.text := by
  have begins : (ofList text).StandsIn text := ⟨[], rfl, rfl⟩
  obtain ⟨d, h, ⟨front, whole, here⟩, hit, same⟩ := scanFrom_hits begins member
  rw [same] at taken
  obtain ⟨u, w, r, rest, rfl⟩ := hits_groups hit taken
  rw [past_text]
  refine ⟨front ++ u, r, ?_, ?_, ?_⟩
  · rw [whole, rest, List.append_assoc]
  · rw [past_pos, here, byteLength_append]
  · rw [past_pos, here, byteLength_append, byteLength_append, Nat.add_assoc]

end Text.Pattern

/-! ### References -/

/-- The specifier is what the text has in the span, and the line is that of its start. -/
def Reference.Quotes (r : Reference) (text : List Char) : Prop :=
  ∃ front back, text = front ++ (r.specifier.toList ++ back) ∧ r.span.start = byteLength front ∧
    r.span.stop = byteLength front + byteLength r.specifier.toList ∧ r.line = 1 + front.count '\n'

namespace Lexical

variable {path : Path} {text : List Char} {p : Pattern} {m : Found} {g : Piece}

theorem reference_quotes {kind : ReferenceKind} {computed : Bool} {specifier front back : List Char}
    {span : Span} (whole : text = front ++ (specifier ++ back)) (start : span.start = byteLength front)
    (stop : span.stop = byteLength front + byteLength specifier) :
    (reference path (lineStarts text) kind computed specifier span).Quotes text := by
  refine ⟨front, back, ?_, start, ?_, ?_⟩
  · rw [reference, String.toList_ofList, whole]
  · rw [reference, String.toList_ofList, stop]
  · rw [reference, start, whole, lineOf_append]

theorem spelt_quotes (member : m ∈ p.scan text) (taken : g ∈ m.groups) (kind : ReferenceKind)
    (computed : Bool) : (spelt path (lineStarts text) kind computed g).Quotes text := by
  obtain ⟨front, back, whole, start, stop⟩ := scan_groups member taken
  exact reference_quotes whole start stop

theorem lazyExpression_quotes (member : m ∈ p.scan text) (taken : g ∈ m.groups) :
    (lazyExpression path (lineStarts text) g).Quotes text := by
  obtain ⟨front, back, whole, start, _⟩ := scan_groups member taken
  obtain ⟨blanks, trimmed⟩ : trimEnd g.text <+: g.text := by
    have turned := List.reverse_prefix.mpr (List.dropWhile_suffix (l := g.text.reverse) isBlank)
    rwa [List.reverse_reverse] at turned
  have rest : text = front ++ (trimEnd g.text ++ (blanks ++ back)) := by
    rw [← List.append_assoc (trimEnd g.text), trimmed, whole]
  exact reference_quotes rest start (by rw [start])

theorem extract_quotes {content : String} {r : Reference}
    (member : r ∈ (extract path content).references) : r.Quotes content.toList := by
  rcases List.mem_append.mp (Reference.mem_arrange member) with pathed | structural
  · rcases List.mem_append.mp pathed with static | lazy
    · obtain ⟨m, found, read⟩ := List.mem_filterMap.mp static
      obtain ⟨g, first, rfl⟩ := Option.map_eq_some_iff.mp read
      obtain ⟨q, _, scanned⟩ := List.mem_flatMap.mp found
      exact spelt_quotes scanned (List.mem_of_mem_head? first) _ _
    · rcases List.mem_append.mp lazy with literal | computed
      · obtain ⟨m, found, read⟩ := List.mem_filterMap.mp literal
        obtain ⟨g, first, rfl⟩ := Option.map_eq_some_iff.mp read
        exact spelt_quotes found (List.mem_of_mem_head? first) _ _
      · obtain ⟨m, found, read⟩ := List.mem_filterMap.mp computed
        obtain ⟨g, first, rfl⟩ := Option.map_eq_some_iff.mp read
        exact lazyExpression_quotes found (List.mem_of_mem_head? first)
  · split at structural
    · obtain ⟨m, found, read⟩ := List.mem_filterMap.mp structural
      obtain ⟨g, first, named⟩ := Option.bind_eq_some_iff.mp read
      obtain ⟨_, same⟩ := Option.ite_none_left_eq_some.mp named
      cases same
      exact spelt_quotes found (List.mem_of_mem_head? first) _ _
    · cases structural

end Lexical

end Relocation
