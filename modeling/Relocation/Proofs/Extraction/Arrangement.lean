import Relocation.Extraction.Basic
import Relocation.Proofs.Lists

/-!
# References in order

Whatever order references were found in, they are listed by position; where all positions differ,
none is lost.
-/

namespace Relocation

namespace Reference

theorem dropRepeats_cons (r : Reference) {rest : List Reference} {next : Reference}
    {later : List Reference} (shape : dropRepeats rest = next :: later) : dropRepeats (r :: rest) =
      if r.position = next.position then r :: later else r :: next :: later := by
  rw [dropRepeats, shape]

theorem mem_dropRepeats {r : Reference} {rs : List Reference} (member : r ∈ dropRepeats rs) :
    r ∈ rs := by
  induction rs generalizing r with
  | nil => cases member
  | cons first rest ih =>
    cases shape : dropRepeats rest with
    | nil =>
      rw [dropRepeats, shape] at member
      exact List.mem_cons.mpr (Or.inl (List.mem_singleton.mp member))
    | cons next later =>
      rw [dropRepeats_cons first shape] at member
      rw [shape] at ih
      split at member
      · rcases List.mem_cons.mp member with same | old
        · exact same ▸ List.mem_cons_self
        · exact List.mem_cons_of_mem _ (ih (List.mem_cons_of_mem _ old))
      · rcases List.mem_cons.mp member with same | old
        · exact same ▸ List.mem_cons_self
        · exact List.mem_cons_of_mem _ (ih old)

theorem mem_arrange {r : Reference} {rs : List Reference} (member : r ∈ arrange rs) : r ∈ rs :=
  List.mem_mergeSort.mp (mem_dropRepeats member)

def Precedes (a b : Reference) : Prop := a.span.start < b.span.start

theorem atOrBefore_iff {a b : Reference} : a.atOrBefore b = true ↔ a.span.start < b.span.start ∨
    a.span.start = b.span.start ∧ (a.span.stop < b.span.stop ∨
      a.span.stop = b.span.stop ∧ a.kind.rank ≤ b.kind.rank) := by
  change (decide (a.span.start < b.span.start) || (a.span.start == b.span.start &&
    (decide (a.span.stop < b.span.stop) || (a.span.stop == b.span.stop && decide
      (a.kind.rank ≤ b.kind.rank))))) = true ↔ _
  simp

theorem dropRepeats_of_precedes {rs : List Reference} (ordered : rs.Pairwise Precedes) :
    dropRepeats rs = rs := by
  induction rs with
  | nil => rfl
  | cons first rest ih =>
    obtain ⟨before, others⟩ := List.pairwise_cons.mp ordered
    cases rest with
    | nil => rfl
    | cons next later =>
      have apart : first.position ≠ next.position := by
        intro same
        have starts : first.span.start = next.span.start := congrArg Prod.fst same
        have less : first.span.start < next.span.start := before next List.mem_cons_self
        omega
      rw [dropRepeats_cons first (ih others), if_neg apart]

theorem atOrBefore_trans (a b c : Reference) (first : a.atOrBefore b = true)
    (second : b.atOrBefore c = true) : a.atOrBefore c = true := by
  rw [atOrBefore_iff] at first second ⊢
  omega

theorem atOrBefore_total (a b : Reference) : (a.atOrBefore b || b.atOrBefore a) = true := by
  rw [Bool.or_eq_true, atOrBefore_iff, atOrBefore_iff]
  omega

theorem arrange_eq {rs ordered : List Reference} (found : rs.Perm ordered)
    (sorted : ordered.Pairwise Precedes) : arrange rs = ordered := by
  have strict : ordered.Pairwise fun a b => a.atOrBefore b = true ∧ b.atOrBefore a = false := by
    refine sorted.imp fun {a b} first => ⟨atOrBefore_iff.mpr (Or.inl first), ?_⟩
    have first : a.span.start < b.span.start := first
    rw [← Bool.not_eq_true, atOrBefore_iff]
    omega
  have arranged := mergeSort_eq_of_strict atOrBefore_trans atOrBefore_total found strict
  rw [arrange, arranged, dropRepeats_of_precedes sorted]

def Earlier (a b : Reference) : Prop :=
  a.span.start < b.span.start ∨ a.span.start = b.span.start ∧
    (a.span.stop < b.span.stop ∨ a.span.stop = b.span.stop ∧ a.kind.rank < b.kind.rank)

theorem earlier_of_apart {a b : Reference} (ordered : a.atOrBefore b = true)
    (apart : a.position ≠ b.position) : a.Earlier b := by
  rw [atOrBefore_iff] at ordered
  unfold position at apart
  simp only [ne_eq, Prod.mk.injEq, not_and] at apart
  unfold Earlier
  omega

theorem earlier_of_same {a b c : Reference} (same : a.position = b.position)
    (before : b.Earlier c) : a.Earlier c := by
  simp only [position, Prod.mk.injEq] at same
  unfold Earlier at before ⊢
  omega

theorem Earlier.trans {a b c : Reference} (first : a.Earlier b) (second : b.Earlier c) :
    a.Earlier c := by
  unfold Earlier at first second ⊢
  omega

theorem Earlier.apart {a b : Reference} (before : a.Earlier b) :
    (a.span, a.kind) ≠ (b.span, b.kind) := by
  intro same
  obtain ⟨spans, kinds⟩ := Prod.mk.inj same
  unfold Earlier at before
  rw [spans, kinds] at before
  omega

theorem dropRepeats_earlier {rs : List Reference}
    (sorted : rs.Pairwise fun a b => a.atOrBefore b = true) :
    (dropRepeats rs).Pairwise Earlier := by
  induction rs with
  | nil => exact List.Pairwise.nil
  | cons r rest ih =>
    obtain ⟨before, others⟩ := List.pairwise_cons.mp sorted
    have strict := ih others
    cases shape : dropRepeats rest with
    | nil =>
      rw [dropRepeats, shape]
      exact List.pairwise_singleton _ _
    | cons next later =>
      rw [shape] at strict
      obtain ⟨after, apart⟩ := List.pairwise_cons.mp strict
      rw [dropRepeats_cons r shape]
      split
      · rename_i same
        exact List.pairwise_cons.mpr ⟨fun b member => earlier_of_same same (after b member), apart⟩
      · rename_i different
        have listed : next ∈ rest := mem_dropRepeats (by rw [shape]; exact List.mem_cons_self)
        have first := earlier_of_apart (before next listed) different
        refine List.pairwise_cons.mpr ⟨fun b member => ?_, strict⟩
        rcases List.mem_cons.mp member with rfl | further
        · exact first
        · exact first.trans (after b further)

theorem exists_mem_dropRepeats {r : Reference} {rs : List Reference} (member : r ∈ rs) :
    ∃ q ∈ dropRepeats rs, q.position = r.position := by
  induction rs with
  | nil => cases member
  | cons first rest ih =>
    cases shape : dropRepeats rest with
    | nil =>
      rw [dropRepeats, shape]
      rcases List.mem_cons.mp member with rfl | later
      · exact ⟨r, List.mem_singleton.mpr rfl, rfl⟩
      · obtain ⟨q, listed, _⟩ := ih later
        rw [shape] at listed
        cases listed
    | cons next others =>
      rw [dropRepeats_cons first shape]
      rcases List.mem_cons.mp member with rfl | later
      · refine ⟨r, ?_, rfl⟩
        split <;> exact List.mem_cons_self
      · obtain ⟨q, listed, same⟩ := ih later
        rw [shape] at listed
        split
        · rename_i repeated
          rcases List.mem_cons.mp listed with rfl | further
          · exact ⟨first, List.mem_cons_self, repeated.trans same⟩
          · exact ⟨q, List.mem_cons_of_mem _ further, same⟩
        · exact ⟨q, List.mem_cons_of_mem _ listed, same⟩

theorem exists_mem_arrange {r : Reference} {rs : List Reference} (member : r ∈ rs) :
    ∃ q ∈ arrange rs, q.position = r.position :=
  exists_mem_dropRepeats (List.mem_mergeSort.mpr member)

theorem arrange_earlier (rs : List Reference) : (arrange rs).Pairwise Earlier :=
  dropRepeats_earlier (List.pairwise_mergeSort atOrBefore_trans atOrBefore_total rs)

end Reference

end Relocation
