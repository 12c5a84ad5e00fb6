import Relocation.Proofs.Text.Matching

/-!
# What a scan quotes, line by line

The hits of a compound pattern are those of its parts, in order. `quotes` keeps the texts of the
groups of a scan and `Yields` states them for one line, wherever it stands; where lines stand one
below the other, a pattern quotes what it quotes of each (`quotes_lines`).
-/

namespace Relocation.Text.Pattern

open Cursor

variable {a b p : Pattern} {c d : Cursor} {h : Hit} {q : Char → Bool} {w r : List Char} {x : Char}

/-! ### Hits of compound patterns -/

theorem hits_word (next : c.rest = w ++ r) : hits (word w) c = [⟨c.past w r, []⟩] := by
  rw [hits, take?_append next]
  rfl

theorem misses_lit {s : String} (other : ¬ s.toList <+: c.rest) : (lit s).Misses c :=
  misses_of_accepts fun _ r same taken => other ⟨r, by rw [same, show _ = s.toList from taken]⟩

theorem hits_greedy_none (ends : ∀ x ∈ c.rest.head?, q x = false) : hits (greedy q) c = [⟨c, []⟩] := by
  rw [hits, extents_none ends]
  rfl

theorem hits_greedy_one (next : c.rest = x :: r) (holds : q x = true)
    (ends : ∀ x ∈ r.head?, q x = false) : hits (greedy q) c = [⟨c.past [x] r, []⟩, ⟨c, []⟩] := by
  rw [hits, next, extents, if_pos holds, extents_none ends, ← next]
  rfl

theorem hits_seq_of_sole (sole : hits a c = [⟨d, []⟩]) : hits (seq a b) c = hits b d := by
  rw [hits, sole, List.flatMap_singleton]
  exact List.map_id' _

theorem hits_seq_of_pair {e : Cursor} (pair : hits a c = [⟨d, []⟩, ⟨e, []⟩]) :
    hits (seq a b) c = hits b d ++ hits b e := by
  rw [hits, pair, List.flatMap_cons, List.flatMap_singleton]
  exact congr (congrArg _ (List.map_id' _)) (List.map_id' _)

theorem misses_seq (first : a.Misses c) : (seq a b).Misses c := by
  rw [Misses, hits, show hits a c = [] from first, List.flatMap_nil]

theorem hits_seq_alt : hits (seq (alt a b) p) c = hits (seq a p) c ++ hits (seq b p) c := by
  simp only [hits, List.flatMap_append]

theorem hits_seq_alt_right (first : a.Misses c) : hits (seq (alt a b) p) c = hits (seq b p) c := by
  rw [hits_seq_alt, show hits (seq a p) c = [] from misses_seq first, List.nil_append]

theorem takes_seq_alt_left (first : (seq a p).Takes c h) : (seq (alt a b) p).Takes c h := by
  rw [Takes, hits_seq_alt, List.head?_append, show (hits (seq a p) c).head? = _ from first]
  rfl

theorem takes_seq_alt_right (first : a.Misses c) (second : (seq b p).Takes c h) :
    (seq (alt a b) p).Takes c h := by
  rw [Takes, hits_seq_alt_right first]
  exact second

theorem hits_seq_opt (first : a.Misses c) : hits (seq (opt a) p) c = hits p c := by
  rw [opt, hits_seq_alt_right first, hits_seq_of_sole rfl]

theorem hits_seq_assoc : hits (seq (seq a b) p) c = hits (seq a (seq b p)) c := by
  simp only [hits, List.flatMap_assoc, List.map_flatMap, List.flatMap_map, List.map_map]
  simp only [Function.comp_def, List.append_assoc]

/-! ### Quotes -/

/-- The texts of the groups of each hit, up to the end of the text. -/
def quotes (p : Pattern) (c : Cursor) :
    List (List (List Char)) := (p.finds c).map fun m => m.groups.map Piece.text

def Yields (p : Pattern) (line : List Char) (found : List (List (List Char))) : Prop :=
  ∀ ⦃c : Cursor⦄ ⦃more : List Char⦄, atLineStart c = true → c.rest = line ++ more →
    (∀ x ∈ more.head?, x = '\n') →
    p.quotes c = found ++ p.quotes (c.past line more)

section
variable {v : List Char}

theorem yields_nothing (single : '\n' ∉ v)
    (misses : ∀ {c : Cursor} {more : List Char}, atLineStart c = true → c.rest = v ++ more →
      (∀ x ∈ more.head?, x = '\n') → (seq (seq lineStart (greedy q)) b).Misses c) :
    Yields (seq (seq lineStart (greedy q)) b) v [] := by
  intro c more start next ends
  rw [quotes, finds_inline next single (misses start next ends)]
  rfl

theorem yields_one {texts : List (List Char)} (single : '\n' ∉ w ++ v) (filled : w ≠ [])
    (taken : ∀ {c : Cursor} {more : List Char}, atLineStart c = true → c.rest = w ++ (v ++ more) →
      ∃ groups, (seq (seq lineStart (greedy q)) b).Takes c ⟨c.past w (v ++ more), groups⟩ ∧
        groups.map Piece.text = texts) :
    Yields (seq (seq lineStart (greedy q)) b) (w ++ v) [texts] := by
  intro c more start next _
  rw [List.append_assoc] at next
  obtain ⟨groups, hit, rfl⟩ := taken start next
  have inside : atLineStart (c.past w (v ++ more)) = false :=
    inline_of_line (fun member => single (List.mem_append_left _ member)) filled _
  rw [quotes, finds_hit hit next filled, finds_inline (c := c.past w (v ++ more)) rfl
    (fun member => single (List.mem_append_right _ member)) (misses_inline inside b q), past_past]
  rfl

end

/-- A pattern that no line break begins quotes line by line. -/
theorem quotes_lines {α : Type} (proper : p.nullable = false) (closed : p.opens '\n' = false)
    {body : α → List Char} {found : α → List (List (List Char))} {lines : List α}
    (each : ∀ l ∈ lines, p.Yields (body l) (found l))
    (start : atLineStart c = true) (next : c.rest = ['\n'].intercalate (lines.map body)) :
    p.quotes c = lines.flatMap found := by
  have final : ∀ {c : Cursor}, c.rest = [] → p.quotes c = [] := by
    intro c next
    rw [quotes, finds_end (misses_of_opens proper (by rw [next]; simp)) next]
    rfl
  induction lines generalizing c with
  | nil => exact final next
  | cons l rest ih =>
    have first := each l List.mem_cons_self
    have later : ∀ l ∈ rest, p.Yields (body l) (found l) := fun l inside =>
      each l (List.mem_cons_of_mem _ inside)
    cases rest with
    | nil =>
      rw [List.map_singleton, List.intercalate_singleton, ← List.append_nil (body l)] at next
      rw [first start next (by simp), final rfl]
      rfl
    | cons l' rest =>
      rw [List.map_cons, List.map_cons, List.intercalate_cons_cons, ← List.map_cons,
        List.append_assoc] at next
      -- The line break itself belongs to no hit.
      have ending : p.Misses
        (c.past (body l) (['\n'] ++ ['\n'].intercalate ((l' :: rest).map body))) :=
        misses_of_opens proper (by simpa using closed)
      have below : atLineStart
          (c.past (body l ++ ['\n']) (['\n'].intercalate ((l' :: rest).map body))) = true := by
        rw [atLineStart_concat]
        rfl
      rw [first start next (by simp), List.flatMap_cons, ← ih later below rfl, quotes,
        finds_miss ending rfl, past_past]
      rfl

end Relocation.Text.Pattern
