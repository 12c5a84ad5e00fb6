import Mathlib.Data.List.Nodup
import Mathlib.Data.List.Perm.Subperm
import Relocation.Proofs.Rules.Splicing

/-!
# Edits that overlap

Edits are made from the end of a text on, and one that reaches over the start of one already made is
left out. What comes out is a splice that runs forward: the stretches that are replaced lie apart,
and every byte between them is kept (`apply_splices`).
-/

namespace Relocation

open Text

def Span.Apart (a b : Span) : Prop := a.stop ≤ b.start ∨ b.stop ≤ a.start

namespace Edit

/-! ### Splicing forward -/

/-- The bytes from a position on, with edits that are listed in text order made. -/
def splice (bytes : Bytes) : Nat → List Edit → Bytes
  | pos, [] => bytes.drop pos
  | pos, e :: rest =>
    (bytes.take e.span.start).drop pos ++ (encode e.new ++ splice bytes e.span.stop rest)

/-- Edits that lie apart are made from the back as in a splice. What stands before the first of them
is untouched. -/
theorem foldr_splice {bytes : Bytes} {es : List Edit}
    (apart : es.Pairwise fun a b => a.span.stop ≤ b.span.start)
    (ordered : ∀ e ∈ es, e.span.start ≤ e.span.stop) (within : ∀ e ∈ es, e.span.stop ≤ bytes.length)
    {pos : Nat} (after : ∀ e ∈ es, pos ≤ e.span.start) :
    es.foldr (fun e bytes => overwrite bytes e) bytes = bytes.take pos ++ splice bytes pos es := by
  induction es generalizing pos with
  | nil => exact (List.take_append_drop pos bytes).symm
  | cons e rest ih =>
    obtain ⟨before, others⟩ := List.pairwise_cons.mp apart
    have first := ordered e List.mem_cons_self
    have bound := within e List.mem_cons_self
    have cut : ∀ {n m : Nat}, n ≤ m → bytes.take m = bytes.take n ++ (bytes.take m).drop n := by
      intro n m le
      have whole := (List.take_append_drop n (bytes.take m)).symm
      rwa [List.take_take, Nat.min_eq_left le] at whole
    have start : e.span.start = (bytes.take e.span.start).length := by
      rw [List.length_take]
      omega
    have stop : e.span.stop =
        (bytes.take e.span.start ++ (bytes.take e.span.stop).drop e.span.start).length := by
      rw [← cut first, List.length_take]
      omega
    rw [List.foldr_cons, ih others (fun e member => ordered e (List.mem_cons_of_mem _ member))
      (fun e member => within e (List.mem_cons_of_mem _ member)) before, cut first]
    have made := overwrite_append _ _ (splice bytes e.span.stop rest) start stop
    rw [made, splice, List.append_assoc, ← List.append_assoc (bytes.take pos),
      ← cut (after e List.mem_cons_self)]

/-! ### Choosing -/

theorem choose_sublist (limit : Option Nat) (es : List Edit) : (choose limit es).Sublist es := by
  induction es generalizing limit with
  | nil => exact List.Sublist.refl _
  | cons e rest ih =>
    rw [choose]
    split
    · exact (ih limit).cons e
    · exact (ih _).cons_cons e

theorem choose_below {limit : Option Nat} {es : List Edit}
    (ordered : ∀ e ∈ es, e.span.start ≤ e.span.stop) {n : Nat}
    (limited : limit = some n) {e : Edit} (member : e ∈ choose limit es) : e.span.stop ≤ n := by
  induction es generalizing limit n with
  | nil => cases member
  | cons first rest ih =>
    have others : ∀ e ∈ rest, e.span.start ≤ e.span.stop :=
      fun e later => ordered e (List.mem_cons_of_mem _ later)
    rw [choose] at member
    split at member
    · exact ih others limited member
    · rename_i free
      simp only [limited, Option.any_some, decide_eq_true_eq, Nat.not_lt] at free
      rcases List.mem_cons.mp member with rfl | later
      · exact free
      · have := ih others rfl later
        have := ordered first List.mem_cons_self
        omega

theorem choose_apart (limit : Option Nat) {es : List Edit}
    (ordered : ∀ e ∈ es, e.span.start ≤ e.span.stop) :
    (choose limit es).Pairwise fun a b => b.span.stop ≤ a.span.start := by
  induction es generalizing limit with
  | nil => exact List.Pairwise.nil
  | cons e rest ih =>
    have others : ∀ e ∈ rest, e.span.start ≤ e.span.stop :=
      fun e later => ordered e (List.mem_cons_of_mem _ later)
    rw [choose]
    split
    · exact ih limit others
    · exact List.pairwise_cons.mpr ⟨fun f later => choose_below others rfl later, ih _ others⟩

/-- An edit is left out because it reaches over the limit or over the start of one that was chosen
before it. -/
theorem left_out {limit : Option Nat} {es : List Edit}
    (descending : es.Pairwise fun a b => b.span.start < a.span.start)
    {e : Edit} (member : e ∈ es) (out : e ∉ choose limit es) :
    limit.any (· < e.span.stop) = true ∨
      ∃ f ∈ choose limit es, e.span.start < f.span.start ∧ f.span.start < e.span.stop := by
  induction es generalizing limit with
  | nil => cases member
  | cons first rest ih =>
    obtain ⟨before, others⟩ := List.pairwise_cons.mp descending
    rw [choose] at out ⊢
    split at out
    · rename_i beyond
      rw [if_pos beyond]
      rcases List.mem_cons.mp member with rfl | later
      · exact Or.inl beyond
      · exact ih others later out
    · rename_i free
      rw [if_neg free]
      obtain ⟨different, out⟩ := not_or.mp (fun inside => out (List.mem_cons.mpr inside))
      have later := (List.mem_cons.mp member).resolve_left different
      rcases ih others later out with beyond | ⟨f, chosen, reached⟩
      · exact Or.inr ⟨first, List.mem_cons_self, before e later, by simpa using beyond⟩
      · exact Or.inr ⟨f, List.mem_cons_of_mem _ chosen, reached⟩

theorem mergeSort_descending {es : List Edit}
    (distinct : es.Pairwise fun a b => a.span.start ≠ b.span.start) :
    (es.mergeSort laterFirst).Pairwise fun a b => b.span.start < a.span.start := by
  have sorted := List.pairwise_mergeSort laterFirst_trans laterFirst_total es
  have apart := (List.mergeSort_perm es laterFirst).symm.pairwise distinct (fun different =>
    different.symm)
  refine (sorted.and apart).imp fun {a b} ordered => ?_
  have notBefore : b.span.start ≤ a.span.start := by simpa [laterFirst] using ordered.1
  exact Nat.lt_of_le_of_ne notBefore ordered.2.symm

end Edit

/-! ### Spans of a text -/

theorem Edit.Cuts.within {content : String} {e : Edit} (cuts : e.Cuts content.toList) :
    e.span.stop ≤ (encode content).length := by
  obtain ⟨front, inside, back, whole, _, stop⟩ := cuts
  rw [encode_pieces whole, encodeChars_append, List.length_append, List.length_append,
    length_encodeChars, length_encodeChars]
  omega

namespace Rules

variable {R : Rules} {referrer : Path} {refs : List Reference} {content : String}

def rewritable (R : Rules) (referrer : Path) (refs : List Reference) : List Reference :=
  refs.filter (R.touches referrer)

def editFor (R : Rules) (referrer : Path) (ref : Reference) : Edit :=
  ⟨ref.span, (R.lookup referrer ref.specifier).getD ref.specifier⟩

theorem editsOf_eq_map (R : Rules) (referrer : Path) (refs : List Reference) :
    R.editsOf referrer refs = (R.rewritable referrer refs).map (R.editFor referrer) := by
  rw [editsOf, rewritable, ← List.filterMap_eq_map, List.filterMap_filter]
  refine List.filterMap_congr fun ref _ => ?_
  cases rule : R.lookup referrer ref.specifier <;> simp [touches, editFor, rule]

/-- What is edited are some of the references, listed here in text order. -/
theorem exists_picked (R : Rules) (referrer : Path) (refs : List Reference) :
    ∃ picked : List Reference, picked.Subperm (R.rewritable referrer refs) ∧
      R.chosen referrer refs = (picked.map (R.editFor referrer)).reverse := by
  let later (a b : Reference) : Bool := Edit.laterFirst (R.editFor referrer a) (R.editFor referrer b)
  have edits : (R.editsOf referrer refs).mergeSort Edit.laterFirst =
      ((R.rewritable referrer refs).mergeSort later).map (R.editFor referrer) := by
    rw [editsOf_eq_map]
    refine (List.map_mergeSort ?_).symm
    intro a _ b _
    rfl
  have part := Edit.choose_sublist none ((R.editsOf referrer refs).mergeSort Edit.laterFirst)
  nth_rewrite 2 [edits] at part
  obtain ⟨kept, within, same⟩ := List.sublist_map_iff.mp part
  refine ⟨kept.reverse, ?_, ?_⟩
  · exact (List.reverse_perm kept).subperm.trans
      (within.subperm.trans (List.mergeSort_perm _ later).subperm)
  · rw [List.map_reverse, List.reverse_reverse]
    exact same

section
variable (fits : ∀ ref ∈ refs, R.touches referrer ref = true → ref.span.Fits content)
variable (distinct : ((R.rewritable referrer refs).map fun ref => ref.span.start).Nodup)
include distinct

theorem descending :
    ((R.editsOf referrer refs).mergeSort Edit.laterFirst).Pairwise fun a b => b.span.start <
      a.span.start := by
  apply Edit.mergeSort_descending
  rw [editsOf_eq_map]
  exact List.pairwise_map.mpr (List.pairwise_map.mp distinct)

include fits

theorem chosen_before : (R.chosen referrer refs).reverse.Pairwise Edit.Before := by
  have ordered : ∀ e ∈ (R.editsOf referrer refs).mergeSort Edit.laterFirst,
    e.span.start ≤ e.span.stop :=
    fun e member => (editsOf_fit fits (List.mem_mergeSort.mp member)).ordered
  have starts := (descending distinct).sublist (Edit.choose_sublist none _)
  exact List.pairwise_reverse.mpr (starts.and (Edit.choose_apart none ordered))

theorem foldl_chosen : (R.chosen referrer refs).foldl Edit.overwrite (encode content) =
    Edit.splice (encode content) 0 (R.chosen referrer refs).reverse := by
  have fit : ∀ e ∈ (R.chosen referrer refs).reverse, e.span.Fits content := by
    intro e member
    have sorted := (Edit.choose_sublist none _).subset (List.mem_reverse.mp member)
    exact editsOf_fit fits (List.mem_mergeSort.mp sorted)
  have apart := (chosen_before fits distinct).imp And.right
  have spliced := Edit.foldr_splice apart (fun e member => (fit e member).ordered)
    (fun e member => (Edit.Cuts.of_fits (fit e member)).within) (fun e _ => Nat.zero_le e.span.start)
  rwa [List.foldr_reverse] at spliced

theorem length_chosen (apart : (R.rewritable referrer refs).Pairwise fun a b => a.span.Apart b.span) :
    (R.chosen referrer refs).length = (R.rewritable referrer refs).length := by
  have edits : (R.editsOf referrer refs).Pairwise fun a b => a.span.Apart b.span := by
    rw [editsOf_eq_map]
    exact List.pairwise_map.mpr apart
  have sorted := (List.mergeSort_perm (R.editsOf referrer refs) Edit.laterFirst).symm.pairwise
    edits Or.symm
  have below : ((R.editsOf referrer refs).mergeSort Edit.laterFirst).Pairwise fun a b =>
      b.span.stop ≤ a.span.start := by
    refine (sorted.and (descending distinct)).imp_of_mem fun {a b} first _ both => ?_
    have := (editsOf_fit fits (List.mem_mergeSort.mp first)).ordered
    rcases both.1 with before | after
    · have := both.2
      omega
    · exact after
  rw [chosen, Edit.choose_all none below (by simp), List.length_mergeSort, editsOf_eq_map,
    List.length_map]

end

/-- Edits made from the back are a forward splice. Of the references that have a rule, some that lie
apart are replaced; every edit finds its stretch, and all else stays byte for byte. One is left out
only if it reaches over the start of a later one that is replaced. -/
theorem apply_splices (extract : Path → String → Extraction) (R : Rules) (referrer language : Path)
    (content : String) (fits : ∀ ref ∈ R.rewritable referrer (extract language content).references,
      ref.span.Fits content)
    (distinct : ((R.rewritable referrer (extract language content).references).map fun ref =>
      ref.span.start).Nodup) :
    ∃ (picked : List Reference) (u : String),
      picked.Subperm (R.rewritable referrer (extract language content).references) ∧
      (picked.map (R.editFor referrer)).Pairwise Edit.Before ∧
      R.chosen referrer (extract language content).references =
        (picked.map (R.editFor referrer)).reverse ∧
      R.apply extract referrer language content = .done u picked.length ∧
      Edit.Runs content (R.chosen referrer (extract language content).references) u ∧
      encode u = Edit.splice (encode content) 0 (picked.map (R.editFor referrer)) ∧
      (∀ ref ∈ R.rewritable referrer (extract language content).references, ref ∉ picked →
        ∃ later ∈ picked, ref.span.start < later.span.start ∧ later.span.start < ref.span.stop) ∧
      ((R.rewritable referrer (extract language content).references).Pairwise
          (fun a b => a.span.Apart b.span) →
        picked.Perm (R.rewritable referrer (extract language content).references)) := by
  obtain ⟨picked, part, chosen⟩ := R.exists_picked referrer (extract language content).references
  have fits : ∀ ref ∈ (extract language content).references, R.touches referrer ref = true →
      ref.span.Fits content := fun ref found touched => fits ref (List.mem_filter.mpr ⟨found, touched⟩)
  obtain ⟨u, done, runs⟩ := apply_eq_done fits
  have spliced := runs.encode_eq.trans (foldl_chosen fits distinct)
  have before := chosen_before fits distinct
  have inOrder : (R.chosen referrer (extract language content).references).reverse =
      picked.map (R.editFor referrer) := by
    rw [chosen, List.reverse_reverse]
  have length : (R.chosen referrer (extract language content).references).length = picked.length := by
    rw [chosen, List.length_reverse, List.length_map]
  rw [inOrder] at spliced before
  rw [length] at done
  refine ⟨picked, u, part, before, chosen, done, runs, spliced, ?_, ?_⟩
  · intro ref found out
    have edit : R.editFor referrer ref ∉ R.chosen referrer (extract language content).references := by
      intro inside
      rw [chosen, List.mem_reverse] at inside
      obtain ⟨other, member, same⟩ := List.mem_map.mp inside
      have starts : other.span.start = ref.span.start := congrArg (fun e : Edit => e.span.start) same
      exact out (List.inj_on_of_nodup_map distinct (part.subset member) found starts ▸ member)
    have listed : R.editFor referrer ref ∈
        (R.editsOf referrer (extract language content).references).mergeSort Edit.laterFirst := by
      rw [List.mem_mergeSort, editsOf_eq_map]
      exact List.mem_map_of_mem found
    rcases Edit.left_out (descending distinct) listed edit with beyond | ⟨e, made, reached⟩
    · cases beyond
    · have made : e ∈ R.chosen referrer (extract language content).references := made
      rw [chosen, List.mem_reverse] at made
      obtain ⟨later, member, rfl⟩ := List.mem_map.mp made
      exact ⟨later, member, reached⟩
  · intro apart
    have all := length_chosen fits distinct apart
    exact part.perm_of_length_le (by omega)

/-- A call in a template that is a specifier itself: the call is replaced, what is around it is not. -/
theorem apply_splices_nested :
    let content := "export * from 'é import(`b`)'\nimport 'c'"
    let around : Reference :=
      { source := ⟨"a.ts"⟩, specifier := "é import(`b`)", kind := .static, span := ⟨15, 29⟩,
        line := 1, computed := false }
    let call : Reference :=
      { source := ⟨"a.ts"⟩, specifier := "b", kind := .lazy, span := ⟨26, 27⟩, line := 1,
        computed := false }
    let last : Reference :=
      { source := ⟨"a.ts"⟩, specifier := "c", kind := .static, span := ⟨39, 40⟩, line := 2,
        computed := false }
    let R : Rules := { shared := ⟨[("b", "./bé"), ("c", ""), ("é import(`b`)", "x")], by decide⟩ }
    let extract : Path → String → Extraction := fun path _ =>
      { path, references := [around, call, last], exports := {}, unparsable := 0 }
    R.rewritable ⟨"a.ts"⟩ [around, call, last] = [around, call, last] ∧
      (∀ ref ∈ [around, call, last], ref.span.Fits content) ∧
      R.apply extract ⟨"a.ts"⟩ ⟨"a.ts"⟩ content =
        .done "export * from 'é import(`./bé`)'\nimport ''" 2 := by
  intro content around call last R extract
  have all : R.rewritable ⟨"a.ts"⟩ [around, call, last] = [around, call, last] := by decide +kernel
  have fits : ∀ ref ∈ [around, call, last], ref.span.Fits content := by
    intro ref member
    simp only [List.mem_cons, List.not_mem_nil, or_false] at member
    rcases member with rfl | rfl | rfl <;> exact ⟨by decide, by decide +kernel, by decide +kernel⟩
  have sorted : (R.editsOf ⟨"a.ts"⟩ [around, call, last]).mergeSort Edit.laterFirst =
      [R.editFor ⟨"a.ts"⟩ last, R.editFor ⟨"a.ts"⟩ call, R.editFor ⟨"a.ts"⟩ around] := by
    rw [editsOf_eq_map, all]
    exact mergeSort_eq_of_strict Edit.laterFirst_trans Edit.laterFirst_total
      (List.reverse_perm _).symm (by decide)
  have made : R.chosen ⟨"a.ts"⟩ [around, call, last] = [⟨⟨39, 40⟩, ""⟩, ⟨⟨26, 27⟩, "./bé"⟩] := by
    rw [chosen, sorted]
    decide +kernel
  obtain ⟨picked, u, _, _, chosen, done, _, spliced, _⟩ :=
    apply_splices extract R ⟨"a.ts"⟩ ⟨"a.ts"⟩ content
    (all.symm ▸ fits) (all.symm ▸ by decide)
  have edits : picked.map (R.editFor ⟨"a.ts"⟩) = [⟨⟨26, 27⟩, "./bé"⟩, ⟨⟨39, 40⟩, ""⟩] :=
    List.reverse_injective (chosen.symm.trans made)
  have count : picked.length = 2 := by
    rw [← List.length_map (f := R.editFor ⟨"a.ts"⟩), edits]
    rfl
  have bytes : Edit.splice (encode content) 0 (picked.map (R.editFor ⟨"a.ts"⟩)) =
      encode "export * from 'é import(`./bé`)'\nimport ''" := by
    rw [edits]
    decide +kernel
  have same := congrArg decode (spliced.trans bytes)
  rw [decode_encode, decode_encode] at same
  rw [done, count, Except.ok.inj same]
  exact ⟨all, fits, rfl⟩

end Rules

end Relocation
