import Relocation.Extraction.Basic
import Relocation.Proofs.Table
import Relocation.Text.Utf8

/-!
# Lines

Counting line ends from the start of a text and searching the places where its lines start give the
same line.
-/

namespace Relocation

open Text

theorem lineAt_append (a b : List Char) : lineAt (a ++ b) (byteLength a) = 1 + a.count '\n' := by
  have counted : lineAt.go (a ++ b) (byteLength a) = a.count '\n' := by
    induction a with
    | nil => cases b <;> simp [lineAt.go]
    | cons x a ih =>
      have positive := x.utf8Size_pos
      rw [List.cons_append, lineAt.go, byteLength_cons, if_neg (by omega), Nat.add_sub_cancel_left,
        ih, List.count_cons]
      by_cases same : x = '\n' <;> simp [same, Nat.add_comm]
  rw [lineAt, counted]

/-! ### Places where lines start -/

theorem lineStarts_go_append (pos : Nat) (a b : List Char) :
    lineStarts.go pos (a ++ b) = lineStarts.go pos a ++ lineStarts.go (pos + byteLength a) b := by
  induction a generalizing pos with
  | nil => rfl
  | cons x a ih =>
    simp only [List.cons_append, lineStarts.go, ih, byteLength_cons, Nat.add_assoc]
    split <;> rfl

theorem length_lineStarts_go (pos : Nat) (a : List Char) :
    (lineStarts.go pos a).length = a.count '\n' := by
  induction a generalizing pos with
  | nil => rfl
  | cons x a ih =>
    simp only [lineStarts.go, List.count_cons]
    split
    · rename_i same
      rw [List.length_cons, ih, same]
      rfl
    · rename_i other
      rw [ih, beq_false_of_ne other]
      rfl

theorem mem_lineStarts_go {pos start : Nat} {a : List Char} (member : start ∈ lineStarts.go pos a) :
    pos < start ∧ start ≤ pos + byteLength a := by
  induction a generalizing pos with
  | nil => cases member
  | cons x a ih =>
    have positive := x.utf8Size_pos
    simp only [lineStarts.go] at member
    rw [byteLength_cons]
    split at member
    · rcases List.mem_cons.mp member with rfl | later
      · omega
      · have bounds := ih later
        omega
    · have bounds := ih member
      omega

/-- The search stops at the last line that starts at or before the place. -/
theorem lineOf_split {early late : List Nat} {pos : Nat} (filled : early ≠ [])
    (before : ∀ s ∈ early, s ≤ pos) (behind : ∀ s ∈ late, pos < s) :
    lineOf (early ++ late) pos = early.length := by
  obtain ⟨front, last, rfl⟩ := (List.eq_nil_or_concat early).resolve_left filled
  rw [List.concat_eq_append] at before ⊢
  have entries : (front ++ [last] ++ late).zipIdx =
      front.zipIdx ++ (last, front.length) :: late.zipIdx (front.length + 1) := by
    rw [List.append_assoc, List.zipIdx_append, List.singleton_append, List.zipIdx_cons, Nat.zero_add]
  have here : last ≤ pos := before last (by simp)
  have kept : (last, front.length) ∈ narrow (fun entry : Nat × Nat => compare entry.1 pos)
      (front ++ [last] ++ late).length (front ++ [last] ++ late).zipIdx := by
    rw [entries]
    refine mem_narrow_last ?_ ?_ ?_ _
    · intro entry inside
      exact Nat.compare_ne_gt.mpr
        (before _ (List.mem_append_left _ (List.fst_mem_of_mem_zipIdx inside)))
    · exact Nat.compare_ne_gt.mpr here
    · intro entry inside
      exact Nat.compare_eq_gt.mpr (behind _ (List.fst_mem_of_mem_zipIdx inside))
  have short : (narrow (fun entry : Nat × Nat => compare entry.1 pos) (front ++ [last] ++ late).length
      (front ++ [last] ++ late).zipIdx).length ≤ 1 := length_narrow _ (by simp)
  unfold lineOf
  cases found : narrow (fun entry : Nat × Nat => compare entry.1 pos) (front ++ [last] ++ late).length
      (front ++ [last] ++ late).zipIdx with
  | nil =>
    rw [found] at kept
    cases kept
  | cons entry others =>
    rw [found, List.length_cons] at short
    rw [found, List.eq_nil_of_length_eq_zero (show others.length = 0 by omega),
      List.mem_singleton] at kept
    rw [← kept]
    simp only [if_pos here, List.length_append, List.length_singleton]

theorem lineOf_append (a b : List Char) :
    lineOf (lineStarts (a ++ b)) (byteLength a) = 1 + a.count '\n' := by
  rw [lineStarts, lineStarts_go_append, ← List.cons_append, lineOf_split (List.cons_ne_nil _ _),
    List.length_cons, length_lineStarts_go, Nat.add_comm]
  · intro start member
    rcases List.mem_cons.mp member with rfl | later
    · exact Nat.zero_le _
    · have bounds := mem_lineStarts_go later
      omega
  · intro start member
    have bounds := mem_lineStarts_go member
    omega

section
variable (pre b : List Char) {a : List Char} (single : '\n' ∉ a)
include single

/-- A line break before a place counts, one on the same line does not. -/
theorem lineAt_within :
    lineAt (pre ++ (a ++ b)) (byteLength pre + byteLength a) = 1 + pre.count '\n' := by
  rw [← byteLength_append, ← List.append_assoc, lineAt_append, List.count_append,
    List.count_eq_zero.mpr single, Nat.add_zero]

theorem lineOf_within :
    lineOf (lineStarts (pre ++ (a ++ b))) (byteLength pre + byteLength a) = 1 + pre.count '\n' := by
  rw [← byteLength_append, ← List.append_assoc, lineOf_append, List.count_append,
    List.count_eq_zero.mpr single, Nat.add_zero]

end

end Relocation
