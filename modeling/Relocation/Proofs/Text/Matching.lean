import Relocation.Text.Pattern

/-!
# What patterns match

`Accepts` is the language of a pattern. Every hit takes a word of it, so a pattern misses where no
word of its language comes next (`misses_of_accepts`). `Takes` builds up the preferred hit from
those of the parts, and `finds` follows a scan over a text from hit to hit.
-/

namespace Relocation.Text

/-! ### Deciding what holds of a text -/

section
variable (p : Char → Prop) [DecidablePred p]

-- A decision over all characters, where there is one in scope, would be taken first and go through
-- every one of them.
instance decidableForallMem (w : List Char) : Decidable (∀ x ∈ w, p x) := List.decidableBAll p w

instance decidableExistsMem (o : Option Char) : Decidable (∃ x ∈ o, p x) := Option.decidableExistsMem o

end

namespace Cursor

/-- The cursor behind a word, with `rest` still to come. -/
def past (c : Cursor) (w rest : List Char) : Cursor :=
  { prev := w.getLast?.or c.prev, rest, pos := c.pos + byteLength w }

variable {c d : Cursor} {w v r : List Char}

@[simp] theorem past_rest (c : Cursor) (w r : List Char) : (c.past w r).rest = r := rfl

@[simp] theorem past_pos (c : Cursor) (w r : List Char) :
    (c.past w r).pos = c.pos + byteLength w := rfl

@[simp] theorem past_nil (c : Cursor) : c.past [] c.rest = c := rfl

@[simp] theorem past_past (c : Cursor) (w v r r' : List Char) :
    (c.past w r').past v r = c.past (w ++ v) r := by
  simp only [past, List.getLast?_append, byteLength_append, Nat.add_assoc, Option.or_assoc]

theorem past_concat_prev (c : Cursor) (w : List Char) (x : Char) (r : List Char) :
    (c.past (w ++ [x]) r).prev = some x := by
  simp [past]

theorem eq_past_nil (same : c.rest = r) : c.past [] r = c := by
  rw [← same, past_nil]

theorem step_past {x : Char} (next : c.rest = x :: r) : c.step = c.past [x] r := by
  unfold step
  rw [next]
  rfl

theorem past_text (c : Cursor) (a w r : List Char) :
    Piece.text ⟨c.past a (w ++ r), c.past (a ++ w) r⟩ = w := by
  rw [Piece.text, upTo, past_pos, past_pos, byteLength_append]
  rw [show c.pos + (byteLength a + byteLength w) - (c.pos + byteLength a) = byteLength w by omega]
  exact takeBytes_append w r

theorem take?_append (next : c.rest = w ++ r) : c.take? w = some (c.past w r) := by
  induction w generalizing c with
  | nil => rw [take?, eq_past_nil (show c.rest = r from next)]
  | cons x w ih =>
    rw [take?, if_pos (by rw [next?, next]; rfl), step_past next, ih rfl, past_past]
    rfl

theorem take?_some (taken : c.take? w = some d) : c.rest = w ++ d.rest ∧ d = c.past w d.rest := by
  induction w generalizing c with
  | nil =>
    cases taken
    exact ⟨rfl, rfl⟩
  | cons x w ih =>
    rw [take?] at taken
    split at taken
    · rename_i next
      obtain ⟨tail, rest⟩ := List.head?_eq_some_iff.mp next
      obtain ⟨same, stop⟩ := ih taken
      rw [step_past rest] at same stop
      refine ⟨by rw [rest, List.cons_append, ← same]; rfl, ?_⟩
      rw [stop, past_past]
      rfl
    · cases taken

theorem mem_extents {p : Char → Bool} {prev : Option Char} {pos : Nat} {rest : List Char} :
    d ∈ extents p prev pos rest ↔
      ∃ w r, rest = w ++ r ∧ (∀ x ∈ w, p x = true) ∧ d = Cursor.past ⟨prev, rest, pos⟩ w r := by
  induction rest generalizing prev pos with
  | nil =>
    rw [extents, List.mem_singleton]
    constructor
    · rintro rfl
      exact ⟨[], [], rfl, by simp, rfl⟩
    · rintro ⟨w, r, same, _, rfl⟩
      obtain ⟨rfl, rfl⟩ := List.append_eq_nil_iff.mp same.symm
      rfl
  | cons x rest ih =>
    rw [extents, List.mem_cons]
    constructor
    · rintro (rfl | later)
      · exact ⟨[], x :: rest, rfl, by simp, rfl⟩
      · split at later
        · rename_i holds
          obtain ⟨w, r, rfl, all, rfl⟩ := ih.mp later
          refine ⟨x :: w, r, rfl, ?_, ?_⟩
          · intro y member
            rcases List.mem_cons.mp member with rfl | inner
            · exact holds
            · exact all y inner
          · exact past_past ⟨prev, x :: (w ++ r), pos⟩ [x] w r (w ++ r)
        · cases later
    · rintro ⟨w, r, same, all, rfl⟩
      cases w with
      | nil =>
        cases same
        exact Or.inl rfl
      | cons y w =>
        cases same
        refine Or.inr ?_
        rw [if_pos (all x List.mem_cons_self)]
        refine ih.mpr ⟨w, r, rfl, fun y inner => all y (List.mem_cons_of_mem _ inner), ?_⟩
        exact (past_past ⟨prev, x :: (w ++ r), pos⟩ [x] w r (w ++ r)).symm

theorem extents_none {p : Char → Bool} {prev : Option Char} {pos : Nat}
    (ends : ∀ x ∈ r.head?, p x = false) : extents p prev pos r = [⟨prev, r, pos⟩] := by
  cases r with
  | nil => rfl
  | cons x r =>
    rw [extents, ends x rfl]
    rfl

/-- The runs of a class come in the order of their lengths. -/
theorem extents_append {p : Char → Bool} (next : c.rest = w ++ r) (all : ∀ x ∈ w, p x = true) :
    ∃ before, extents p c.prev c.pos c.rest = before ++ extents p (c.past w r).prev
      (c.past w r).pos r ∧ ∀ d ∈ before, ∃ v u, w = v ++ u ∧ u ≠ [] ∧ d = c.past v (u ++ r) := by
  induction w generalizing c with
  | nil =>
    refine ⟨[], ?_, by simp⟩
    rw [show r = c.rest from next.symm, past_nil, List.nil_append]
  | cons x w ih =>
    obtain ⟨before, same, earlier⟩ := ih (c := c.past [x] (w ++ r)) rfl
      (fun y inner => all y (List.mem_cons_of_mem _ inner))
    rw [past_past] at same
    refine ⟨c :: before, ?_, ?_⟩
    · rw [next, List.cons_append, extents, if_pos (all x List.mem_cons_self), List.cons_append,
        ← List.cons_append, ← next]
      exact congrArg (c :: ·) same
    · intro d member
      rcases List.mem_cons.mp member with rfl | later
      · exact ⟨[], x :: w, rfl, by simp, (eq_past_nil next).symm⟩
      · obtain ⟨v, u, rfl, filled, rfl⟩ := earlier d later
        exact ⟨x :: v, u, rfl, filled, past_past ..⟩

end Cursor

namespace Pattern

open Cursor

/-! ### The language of a pattern -/

/-- The words that a pattern can take; where it stands plays no part. -/
def Accepts : Pattern → List Char → Prop
  | .one p, w => ∃ x, w = [x] ∧ p x = true
  | .greedy p, w => ∀ x ∈ w, p x = true
  | .reluctant p, w => ∀ x ∈ w, p x = true
  | .word cs, w => w = cs
  | .seq a b, w => ∃ u v, w = u ++ v ∧ a.Accepts u ∧ b.Accepts v
  | .alt a b, w => a.Accepts w ∨ b.Accepts w
  | .group a, w => a.Accepts w
  | .empty, w | .textStart, w | .lineStart, w | .edge, w => w = []

variable {p a b : Pattern} {c : Cursor} {h k : Hit} {w r : List Char}

theorem extents_accepts {q : Char → Bool} {d : Cursor} (member : d ∈ extents q c.prev c.pos c.rest) :
    ∃ w, (∀ x ∈ w, q x = true) ∧ c.rest = w ++ d.rest ∧ d = c.past w d.rest := by
  obtain ⟨w, r, same, all, rfl⟩ := mem_extents.mp member
  exact ⟨w, all, same, rfl⟩

/-- A hit takes a word of the pattern's language. -/
theorem hits_accepts (hit : h ∈ hits p c) :
    ∃ w, p.Accepts w ∧ c.rest = w ++ h.stop.rest ∧ h.stop = c.past w h.stop.rest := by
  induction p generalizing c h with
  | one q =>
    unfold hits at hit
    split at hit
    · cases hit
    · rename_i x rest next
      split at hit
      · rename_i holds
        obtain rfl := List.mem_singleton.mp hit
        rw [step_past next]
        exact ⟨[x], ⟨x, rfl, holds⟩, next, rfl⟩
      · cases hit
  | greedy q =>
    obtain ⟨d, member, rfl⟩ := List.mem_map.mp hit
    exact extents_accepts (List.mem_reverse.mp member)
  | reluctant q =>
    obtain ⟨d, member, rfl⟩ := List.mem_map.mp hit
    exact extents_accepts member
  | word cs =>
    obtain ⟨d, member, rfl⟩ := List.mem_map.mp hit
    obtain ⟨same, stop⟩ := take?_some (Option.mem_toList.mp member)
    exact ⟨cs, rfl, same, stop⟩
  | seq a b first second =>
    obtain ⟨f, left, onward⟩ := List.mem_flatMap.mp hit
    obtain ⟨g, right, rfl⟩ := List.mem_map.mp onward
    obtain ⟨u, taken, rest, stop⟩ := first left
    obtain ⟨v, taken', rest', stop'⟩ := second right
    refine ⟨u ++ v, ⟨u, v, rfl, taken, taken'⟩, by rw [rest, rest', List.append_assoc], ?_⟩
    change g.stop = _
    rw [stop', stop, past_past]
    rfl
  | alt a b first second =>
    rcases List.mem_append.mp hit with left | right
    · obtain ⟨w, taken, same⟩ := first left
      exact ⟨w, Or.inl taken, same⟩
    · obtain ⟨w, taken, same⟩ := second right
      exact ⟨w, Or.inr taken, same⟩
  | group a inner =>
    obtain ⟨f, member, rfl⟩ := List.mem_map.mp hit
    exact inner (h := f) member
  | empty =>
    obtain rfl := List.mem_singleton.mp hit
    exact ⟨[], rfl, rfl, rfl⟩
  | textStart =>
    unfold hits at hit
    split at hit
    · obtain rfl := List.mem_singleton.mp hit
      exact ⟨[], rfl, rfl, rfl⟩
    · cases hit
  | lineStart =>
    unfold hits at hit
    split at hit
    · obtain rfl := List.mem_singleton.mp hit
      exact ⟨[], rfl, rfl, rfl⟩
    · cases hit
  | edge =>
    unfold hits at hit
    split at hit
    · obtain rfl := List.mem_singleton.mp hit
      exact ⟨[], rfl, rfl, rfl⟩
    · cases hit

/-- The groups of a hit are stretches of what the cursor has before it. -/
theorem hits_groups (hit : h ∈ hits p c) {g : Piece} (member : g ∈ h.groups) :
    ∃ u w r, c.rest = u ++ (w ++ r) ∧ g = ⟨c.past u (w ++ r), c.past (u ++ w) r⟩ := by
  induction p generalizing c h with
  | one q =>
    unfold hits at hit
    split at hit
    · cases hit
    · split at hit
      · obtain rfl := List.mem_singleton.mp hit
        cases member
      · cases hit
  | greedy q | reluctant q | word cs =>
    obtain ⟨d, _, rfl⟩ := List.mem_map.mp hit
    cases member
  | seq a b first second =>
    obtain ⟨f, left, onward⟩ := List.mem_flatMap.mp hit
    obtain ⟨k, right, rfl⟩ := List.mem_map.mp onward
    rcases List.mem_append.mp member with early | late
    · exact first left early
    · -- The second part starts behind the word that the first one takes.
      obtain ⟨v, _, rest, stop⟩ := hits_accepts left
      obtain ⟨u, w, r, rest', same⟩ := second right late
      refine ⟨v ++ u, w, r, by rw [rest, rest', List.append_assoc], ?_⟩
      rw [same, stop, past_past, past_past, List.append_assoc]
  | alt a b first second =>
    rcases List.mem_append.mp hit with left | right
    · exact first left member
    · exact second right member
  | group a inner =>
    obtain ⟨f, taken, rfl⟩ := List.mem_map.mp hit
    rcases List.mem_cons.mp member with rfl | deeper
    · obtain ⟨w, _, rest, stop⟩ := hits_accepts taken
      refine ⟨[], w, f.stop.rest, rest, ?_⟩
      rw [List.nil_append, ← stop, eq_past_nil rest]
    · exact inner taken deeper
  | empty =>
    obtain rfl := List.mem_singleton.mp hit
    cases member
  | textStart | lineStart | edge =>
    unfold hits at hit
    split at hit
    · obtain rfl := List.mem_singleton.mp hit
      cases member
    · cases hit

def Misses (p : Pattern) (c : Cursor) : Prop := hits p c = []

theorem misses_of_accepts (none : ∀ w r, c.rest = w ++ r → ¬ p.Accepts w) : p.Misses c := by
  rw [Misses, List.eq_nil_iff_forall_not_mem]
  intro h hit
  obtain ⟨w, taken, same, _⟩ := hits_accepts hit
  exact none w _ same taken

def nullable : Pattern → Bool
  | .one _ => false
  | .greedy _ | .reluctant _ => true
  | .word cs => cs.isEmpty
  | .seq a b => a.nullable && b.nullable
  | .alt a b => a.nullable || b.nullable
  | .group a => a.nullable
  | .empty | .textStart | .lineStart | .edge => true

def opens (x : Char) : Pattern → Bool
  | .one p | .greedy p | .reluctant p => p x
  | .word cs => cs.head? == some x
  | .seq a b => a.opens x || (a.nullable && b.opens x)
  | .alt a b => a.opens x || b.opens x
  | .group a => a.opens x
  | .empty | .textStart | .lineStart | .edge => false

theorem accepts_opens (taken : p.Accepts w) :
    (w = [] ∧ p.nullable = true) ∨ ∃ x v, w = x :: v ∧ p.opens x = true := by
  induction p generalizing w with
  | one q =>
    obtain ⟨x, rfl, holds⟩ := taken
    exact Or.inr ⟨x, [], rfl, holds⟩
  | greedy q | reluctant q =>
    cases w with
    | nil => exact Or.inl ⟨rfl, rfl⟩
    | cons x v => exact Or.inr ⟨x, v, rfl, taken x List.mem_cons_self⟩
  | word cs =>
    obtain rfl : w = cs := taken
    cases w with
    | nil => exact Or.inl ⟨rfl, rfl⟩
    | cons x v => exact Or.inr ⟨x, v, rfl, by simp [opens]⟩
  | seq a b first second =>
    obtain ⟨u, v, rfl, left, right⟩ := taken
    rcases first left with ⟨rfl, empty⟩ | ⟨x, u, rfl, open'⟩
    · rcases second right with ⟨rfl, empty'⟩ | ⟨x, v, rfl, open'⟩
      · exact Or.inl ⟨rfl, by rw [nullable, empty, empty']; rfl⟩
      · exact Or.inr ⟨x, v, rfl, by rw [opens, empty, open']; simp⟩
    · exact Or.inr ⟨x, u ++ v, rfl, by rw [opens, open']; rfl⟩
  | alt a b first second =>
    rcases taken with left | right
    · rcases first left with ⟨rfl, empty⟩ | ⟨x, v, rfl, open'⟩
      · exact Or.inl ⟨rfl, by rw [nullable, empty]; rfl⟩
      · exact Or.inr ⟨x, v, rfl, by rw [opens, open']; rfl⟩
    · rcases second right with ⟨rfl, empty⟩ | ⟨x, v, rfl, open'⟩
      · exact Or.inl ⟨rfl, by rw [nullable, empty]; simp⟩
      · exact Or.inr ⟨x, v, rfl, by rw [opens, open']; simp⟩
  | group a inner => exact inner taken
  | empty | textStart | lineStart | edge => exact Or.inl ⟨taken, rfl⟩

theorem misses_of_opens (proper : p.nullable = false)
    (closed : ∀ x ∈ c.rest.head?, p.opens x = false) : p.Misses c := by
  refine misses_of_accepts fun w r same taken => ?_
  rcases accepts_opens taken with ⟨_, empty⟩ | ⟨x, v, rfl, opened⟩
  · rw [proper] at empty
    cases empty
  · rw [closed x (by rw [same]; rfl)] at opened
    cases opened

/-! ### Preferred hits -/

def Takes (p : Pattern) (c : Cursor) (h : Hit) : Prop := (hits p c).head? = some h

theorem takes_iff : p.Takes c h ↔ ∃ others, hits p c = h :: others := List.head?_eq_some_iff

theorem takes_one {q : Char → Bool} {x : Char} (next : c.rest = x :: r) (holds : q x = true) :
    (one q).Takes c ⟨c.past [x] r, []⟩ := by
  rw [Takes, hits, next]
  simp only [holds, if_true, step_past next]
  rfl

theorem takes_word (next : c.rest = w ++ r) : (word w).Takes c ⟨c.past w r, []⟩ := by
  change ((c.take? w).toList.map _).head? = _
  rw [take?_append next]
  rfl

theorem takes_greedy {q : Char → Bool} (next : c.rest = w ++ r) (all : ∀ x ∈ w, q x = true)
    (ends : ∀ x ∈ r.head?, q x = false) : (greedy q).Takes c ⟨c.past w r, []⟩ := by
  obtain ⟨before, same, _⟩ := extents_append next all
  change ((extents q c.prev c.pos c.rest).reverse.map _).head? = _
  rw [same, extents_none ends, List.reverse_append]
  rfl

theorem takes_seq (first : a.Takes c h) (second : b.Takes h.stop k) :
    (seq a b).Takes c ⟨k.stop, h.groups ++ k.groups⟩ := by
  obtain ⟨others, left⟩ := takes_iff.mp first
  obtain ⟨others', right⟩ := takes_iff.mp second
  change ((hits a c).flatMap _).head? = _
  rw [left, List.flatMap_cons, right]
  rfl

theorem takes_alt_left (first : a.Takes c h) : (alt a b).Takes c h := by
  obtain ⟨others, left⟩ := takes_iff.mp first
  change (hits a c ++ hits b c).head? = _
  rw [left]
  rfl

theorem takes_alt_right (first : a.Misses c) (second : b.Takes c h) : (alt a b).Takes c h := by
  change (hits a c ++ hits b c).head? = _
  rw [show hits a c = [] from first]
  exact second

theorem takes_group (inner : a.Takes c h) : (group a).Takes c ⟨h.stop, ⟨c, h.stop⟩ :: h.groups⟩ := by
  obtain ⟨others, left⟩ := takes_iff.mp inner
  change ((hits a c).map _).head? = _
  rw [left]
  rfl

theorem takes_empty (c : Cursor) : empty.Takes c ⟨c, []⟩ := rfl

theorem takes_lineStart (start : atLineStart c = true) : lineStart.Takes c ⟨c, []⟩ := by
  change (if atLineStart c then _ else _ : List Hit).head? = _
  rw [if_pos start]
  rfl

theorem takes_edge (here : atEdge c = true) : edge.Takes c ⟨c, []⟩ := by
  change (if atEdge c then _ else _ : List Hit).head? = _
  rw [if_pos here]
  rfl

/-- A reluctant run is the first one behind which the rest of the pattern hits. -/
theorem takes_reluctant {q : Char → Bool} (next : c.rest = w ++ r) (all : ∀ x ∈ w, q x = true)
    (early : ∀ v u, w = v ++ u → u ≠ [] → b.Misses (c.past v (u ++ r)))
    (here : b.Takes (c.past w r) k) : (seq (reluctant q) b).Takes c k := by
  obtain ⟨before, same, earlier⟩ := extents_append next all
  obtain ⟨others, right⟩ := takes_iff.mp here
  have nothing : (before.map fun d => (⟨d, []⟩ : Hit)).flatMap (fun h => (hits b h.stop).map fun k =>
      (⟨k.stop, h.groups ++ k.groups⟩ : Hit)) = [] := by
    rw [List.flatMap_eq_nil_iff]
    intro h member
    obtain ⟨d, inside, rfl⟩ := List.mem_map.mp member
    obtain ⟨v, u, split, filled, rfl⟩ := earlier d inside
    rw [show hits b (c.past v (u ++ r)) = [] from early v u split filled]
    rfl
  have first : ∃ later, extents q (c.past w r).prev (c.past w r).pos r = c.past w r :: later := by
    cases r with
    | nil => exact ⟨[], rfl⟩
    | cons x r => exact ⟨_, rfl⟩
  obtain ⟨later, split⟩ := first
  change (((extents q c.prev c.pos c.rest).map _).flatMap _).head? = _
  rw [same, List.map_append, List.flatMap_append, nothing, split, List.map_cons,
    List.flatMap_cons, right]
  rfl

/-! ### Scanning -/

def finds (p : Pattern) (c : Cursor) : List Found := scanFrom p (c.rest.length + 1) c

theorem scan_eq (p : Pattern) (text : List Char) : p.scan text = p.finds (Cursor.ofList text) := rfl

theorem scanFrom_enough {fuel : Nat} (enough : c.rest.length < fuel) :
    scanFrom p fuel c = p.finds c := by
  have stable : ∀ n m (c : Cursor), c.rest.length < n → c.rest.length < m →
      scanFrom p n c = scanFrom p m c := by
    intro n
    induction n with
    | zero => intro m c small; omega
    | succ n ih =>
      intro m c small small'
      obtain ⟨m, rfl⟩ : ∃ m', m = m' + 1 := ⟨m - 1, by omega⟩
      cases next : c.rest with
      | nil => simp only [scanFrom, next, List.isEmpty_nil, if_true]
      | cons x rest =>
        have steps : c.step.rest.length < c.rest.length := by
          rw [step_past next, next]
          simp
        simp only [scanFrom, next, List.isEmpty_cons, Bool.false_eq_true, if_false]
        cases taken : (hits p c).head? with
        | none => exact ih m c.step (by omega) (by omega)
        | some h =>
          obtain ⟨w, _, same, stop⟩ := hits_accepts (List.mem_of_mem_head? taken)
          simp only
          congr 1
          split
          · exact ih m c.step (by omega) (by omega)
          · rename_i moved
            have filled : w ≠ [] := by
              rintro rfl
              rw [stop] at moved
              exact moved rfl
            have shorter : h.stop.rest.length < c.rest.length := by
              rw [same, List.length_append]
              have := List.length_pos_iff.mpr filled
              omega
            exact ih m h.stop (by omega) (by omega)
  exact stable _ _ c enough (Nat.lt_succ_self _)

theorem finds_miss {x : Char} (misses : p.Misses c) (next : c.rest = x :: r) :
    p.finds c = p.finds (c.past [x] r) := by
  have enough : (c.past [x] r).rest.length < c.rest.length := by
    rw [next]
    simp
  rw [finds, scanFrom, show hits p c = [] from misses]
  simp only [List.head?_nil, next, List.isEmpty_cons, Bool.false_eq_true, if_false]
  rw [step_past next, ← next, scanFrom_enough enough]

theorem finds_end (misses : p.Misses c) (next : c.rest = []) : p.finds c = [] := by
  rw [finds, scanFrom, show hits p c = [] from misses]
  simp [next]

theorem finds_skip (next : c.rest = w ++ r)
    (none : ∀ v u, w = v ++ u → u ≠ [] → p.Misses (c.past v (u ++ r))) :
    p.finds c = p.finds (c.past w r) := by
  induction w generalizing c with
  | nil => rw [eq_past_nil (show c.rest = r from next)]
  | cons x w ih =>
    have here : p.Misses c := by
      have missed := none [] (x :: w) rfl (by simp)
      rwa [eq_past_nil next] at missed
    rw [finds_miss here next, ih rfl, past_past]
    · rfl
    · intro v u split filled
      rw [past_past]
      exact none (x :: v) u (by rw [split]; rfl) filled

theorem byteLength_pos (filled : w ≠ []) : 0 < byteLength w := by
  cases w with
  | nil => exact (filled rfl).elim
  | cons x w =>
    have := x.utf8Size_pos
    rw [byteLength_cons]
    omega

theorem finds_hit (taken : p.Takes c ⟨c.past w r, groups⟩) (next : c.rest = w ++ r) (filled : w ≠ []) :
    p.finds c = ⟨c, c.past w r, groups⟩ :: p.finds (c.past w r) := by
  have more : c.rest.isEmpty = false := by
    rw [next]
    simp [filled]
  have enough : (c.past w r).rest.length < c.rest.length := by
    rw [next, List.length_append, past_rest]
    have := List.length_pos_iff.mpr filled
    omega
  have moved : ¬ (c.past w r).pos = c.pos := by
    have := byteLength_pos filled
    rw [past_pos]
    omega
  rw [finds, scanFrom, show (hits p c).head? = _ from taken]
  simp only [more, Bool.false_eq_true, if_false, if_neg moved]
  rw [scanFrom_enough enough]

theorem finds_nothing (none : ∀ v w r, c.rest = v ++ w ++ r → ¬ p.Accepts w) : p.finds c = [] := by
  have skipped := finds_skip (p := p) (c := c) (w := c.rest) (r := []) (by simp) fun v u split _ =>
    misses_of_accepts fun w r same => none v w r (by rw [split, List.append_assoc, ← same]; simp)
  rw [skipped]
  refine finds_end (misses_of_accepts fun w r same => none c.rest w r ?_) rfl
  obtain ⟨rfl, rfl⟩ := List.append_eq_nil_iff.mp same.symm
  simp

/-! ### Patterns at the start of a line -/

theorem misses_inline (inside : atLineStart c = false) (b : Pattern) (q : Char → Bool) :
    (seq (seq lineStart (greedy q)) b).Misses c := by
  simp only [Misses, hits, inside, Bool.false_eq_true, if_false, List.flatMap_nil]

theorem atLineStart_concat (c : Cursor) (w : List Char) (x : Char) (r : List Char) :
    atLineStart (c.past (w ++ [x]) r) = (x == '\n') := by
  rw [atLineStart, past_concat_prev]

theorem inline_of_line (line : '\n' ∉ w) (filled : w ≠ []) (r : List Char) :
    atLineStart (c.past w r) = false := by
  obtain ⟨front, last, rfl⟩ := (List.eq_nil_or_concat w).resolve_left filled
  rw [List.concat_eq_append] at line ⊢
  rw [atLineStart_concat, beq_eq_false_iff_ne]
  rintro rfl
  exact line (by simp)

/-- Behind the start of a line there is no hit before the next line. -/
theorem finds_inline {q : Char → Bool} {line : List Char} (next : c.rest = line ++ r)
    (single : '\n' ∉ line) (misses : (seq (seq lineStart (greedy q)) b).Misses c) :
    (seq (seq lineStart (greedy q)) b).finds c = (seq (seq lineStart (greedy q)) b).finds
      (c.past line r) := by
  refine finds_skip next fun v u split filled => ?_
  cases v with
  | nil =>
    rw [eq_past_nil (by rw [next, split]; rfl)]
    exact misses
  | cons x v =>
    refine misses_inline (inline_of_line (fun member => single ?_) (by simp) _) b q
    rw [split]
    exact List.mem_append_left _ member

/-- A line on which the pattern has no hit at the start. -/
theorem finds_line_miss {q : Char → Bool} {line : List Char} (next : c.rest = line ++ '\n' :: r)
    (single : '\n' ∉ line) (misses : (seq (seq lineStart (greedy q)) b).Misses c) :
    (seq (seq lineStart (greedy q)) b).finds c =
      (seq (seq lineStart (greedy q)) b).finds (c.past (line ++ ['\n']) r) := by
  have ending : (seq (seq lineStart (greedy q)) b).Misses (c.past line ('\n' :: r)) := by
    cases line with
    | nil =>
      rw [eq_past_nil (show c.rest = '\n' :: r from next)]
      exact misses
    | cons x line => exact misses_inline (inline_of_line single (by simp) _) b q
  rw [finds_inline next single misses, finds_miss ending rfl, past_past]

/-- A line on which the pattern has a hit at the start that ends before the line does. -/
theorem finds_line_hit {q : Char → Bool} {line : List Char} (next : c.rest = w ++ line ++ '\n' :: r)
    (filled : w ≠ []) (single : '\n' ∉ w ++ line)
    (taken : (seq (seq lineStart (greedy q)) b).Takes c ⟨c.past w (line ++ '\n' :: r), groups⟩) :
    (seq (seq lineStart (greedy q)) b).finds c = ⟨c, c.past w (line ++ '\n' :: r), groups⟩ ::
      (seq (seq lineStart (greedy q)) b).finds (c.past (w ++ line ++ ['\n']) r) := by
  have inline : atLineStart (c.past w (line ++ '\n' :: r)) = false :=
    inline_of_line (fun member => single (List.mem_append_left _ member)) filled _
  rw [finds_hit taken (by rw [next, List.append_assoc]) filled]
  rw [finds_line_miss (c := c.past w (line ++ '\n' :: r)) rfl
    (fun member => single (List.mem_append_right _ member))
    (misses_inline inline b q), past_past, List.append_assoc]

end Pattern

end Relocation.Text
