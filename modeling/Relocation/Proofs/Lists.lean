import Mathlib.Data.List.Pairwise

/-!
# Lists

Facts about sorting, splitting and cutting lists, and about runs of steps that can fail.
-/

namespace Relocation

/-! ### Sorting -/

/-- Sorting by an order that tells all members of a list apart has only one result. -/
theorem mergeSort_eq_of_strict {α : Type} {le : α → α → Bool}
    (transitive : ∀ a b c, le a b = true → le b c = true → le a c = true)
    (total : ∀ a b, (le a b || le b a) = true) {found ordered : List α} (perm : found.Perm ordered)
    (strict : ordered.Pairwise fun a b => le a b = true ∧ le b a = false) :
    found.mergeSort le = ordered := by
  have sorted := (List.mergeSort_perm found le).trans perm
  refine sorted.eq_of_pairwise ?_ (List.pairwise_mergeSort transitive total found)
    (strict.imp And.left)
  -- Two members that come before each other are one.
  intro a b left right first second
  have apart : ordered.Pairwise fun c d => le c d = false ∨ le d c = false := strict.imp fun less =>
    Or.inr less.2
  have : Std.Symm fun c d => le c d = false ∨ le d c = false := ⟨fun _ _ => Or.symm⟩
  by_contra different
  rcases apart.forall (sorted.mem_iff.mp left) right different with no | no
  · rw [first] at no
    cases no
  · rw [second] at no
    cases no

/-- Sorting leaves those that it does not tell apart in their order. -/
theorem filter_mergeSort {α : Type} {le : α → α → Bool}
    (transitive : ∀ a b c, le a b = true → le b c = true → le a c = true)
    (total : ∀ a b, (le a b || le b a) = true)
    {keep : α → Bool} {xs : List α} (alike : (xs.filter keep).Pairwise fun a b => le a b = true) :
    (xs.mergeSort le).filter keep = xs.filter keep := by
  have inside := (List.sublist_mergeSort transitive total alike List.filter_sublist).filter keep
  rw [List.filter_filter] at inside
  simp only [Bool.and_self] at inside
  exact (inside.eq_of_length ((List.mergeSort_perm xs le).filter keep).length_eq.symm).symm

/-! ### Splitting at a separator -/

section
variable {α : Type} [BEq α] [LawfulBEq α] {a : α}

theorem not_mem_of_mem_splitOn {xs part : List α}
    (member : part ∈ xs.splitOn a) : a ∉ part := by
  induction xs generalizing part with
  | nil =>
    rw [List.splitOn_nil, List.mem_singleton] at member
    simp [member]
  | cons x rest ih =>
    rw [List.splitOn_cons_eq_if_modifyHead] at member
    split at member
    · rcases List.mem_cons.mp member with rfl | member
      · simp
      · exact ih member
    · rename_i different
      cases parts : rest.splitOn a with
      | nil => simp [parts] at member
      | cons head tail =>
        rw [parts] at ih
        rw [parts, List.modifyHead_cons] at member
        rcases List.mem_cons.mp member with rfl | member
        · simp only [List.mem_cons, not_or]
          exact ⟨fun same => different (by simp [← same]), ih List.mem_cons_self⟩
        · exact ih (List.mem_cons_of_mem _ member)

theorem splitOn_append {front : List α} (free : a ∉ front) (rest : List α) :
    (front ++ rest).splitOn a = (rest.splitOn a).modifyHead (front ++ ·) := by
  induction front with
  | nil =>
    rw [List.nil_append]
    cases rest.splitOn a <;> rfl
  | cons x front ih =>
    rw [List.mem_cons, not_or] at free
    rw [List.cons_append, List.splitOn_cons_eq_if_modifyHead, if_neg
      (by simpa using Ne.symm free.1), ih free.2]
    cases rest.splitOn a <;> rfl

/-- A first component that starts with `front` leaves a text behind `front`. -/
theorem eq_append_of_splitOn {text front head : List α} {tail : List (List α)}
    (parts : text.splitOn a = (front ++ head) :: tail) :
    ∃ rest, a ∉ front ∧ text = front ++ rest ∧ rest.splitOn a = head :: tail := by
  have free : ∀ part ∈ (front ++ head) :: tail, a ∉ part := fun part member =>
    not_mem_of_mem_splitOn (parts ▸ member)
  obtain ⟨start, others⟩ := List.forall_mem_cons.mp free
  rw [List.mem_append, not_or] at start
  refine ⟨[a].intercalate (head :: tail), start.1, ?_, ?_⟩
  · have joined : [a].intercalate (text.splitOn a) = text := List.intercalate_splitOn a
    rw [← joined, parts]
    cases tail <;> simp [List.intercalate_cons_cons]
  · exact List.splitOn_intercalate a (List.forall_mem_cons.mpr ⟨start.2, others⟩) (by simp)

/-- An empty first component that is not the only one ends at a separator. -/
theorem eq_cons_of_splitOn {text : List α} {tail : List (List α)} (parts : text.splitOn a = [] :: tail)
    (more : tail ≠ []) : ∃ rest, text = a :: rest ∧ rest.splitOn a = tail := by
  cases text with
  | nil =>
    rw [List.splitOn_nil] at parts
    exact absurd (List.cons.inj parts).2.symm more
  | cons x rest =>
    rw [List.splitOn_cons_eq_if_modifyHead] at parts
    split at parts
    · rename_i same
      exact ⟨rest, by rw [eq_of_beq same], (List.cons.inj parts).2⟩
    · cases others : rest.splitOn a <;> simp [others] at parts

omit [LawfulBEq α] in
theorem length_splitOn (cs : List α) : (cs.splitOn a).length = cs.count a + 1 := by
  induction cs with
  | nil => rfl
  | cons c rest ih =>
    rw [List.splitOn_cons_eq_if_modifyHead, List.count_cons]
    split
    · rw [List.length_cons, ih]
    · rw [List.length_modifyHead, ih, Nat.add_zero]

end

theorem intercalate_concat {α : Type} (a : α) (front : List (List α)) (last : List α) :
    [a].intercalate (front ++ [last]) = (front.flatMap fun s => s ++ [a]) ++ last := by
  induction front with
  | nil => simp
  | cons s rest ih =>
    rw [List.cons_append, List.intercalate_cons_of_ne_nil (by simp), ih, List.flatMap_cons]
    simp

/-! ### Cutting -/

theorem takeWhile_agree {α : Type} {p q : α → Bool} {l : List α} (agree : ∀ x ∈ l, p x = q x) :
    l.takeWhile p = l.takeWhile q := by
  induction l with
  | nil => rfl
  | cons first rest ih =>
    rw [List.takeWhile_cons, List.takeWhile_cons, agree first List.mem_cons_self,
      ih fun x member => agree x (List.mem_cons_of_mem _ member)]

theorem prefix_before {α : Type} {k w r : List α} {z : α} (free : z ∉ k)
    (starts : k <+: w ++ z :: r) : k <+: w := by
  rcases Nat.lt_or_ge w.length k.length with short | long
  · have longer : w ++ [z] <+: k :=
      List.prefix_of_prefix_length_le ⟨r, by simp⟩ starts (by rw [List.length_append]; exact short)
    exact absurd (longer.subset (by simp)) free
  · exact List.prefix_of_prefix_length_le starts (List.prefix_append _ _) long

/-- Where the first member of a class stands is settled by the list. -/
theorem split_unique {α : Type} {p : α → Bool} {a b v w : List α} {x y : α}
    (left : ∀ z ∈ a, p z = false) (right : ∀ z ∈ b, p z = false) (first : p x = true)
    (second : p y = true) (same : a ++ x :: v = b ++ y :: w) : a = b ∧ x = y ∧ v = w := by
  induction a generalizing b with
  | nil =>
    cases b with
    | nil =>
      cases same
      exact ⟨rfl, rfl, rfl⟩
    | cons z b =>
      cases same
      rw [right x List.mem_cons_self] at first
      cases first
  | cons z a ih =>
    cases b with
    | nil =>
      cases same
      rw [left y List.mem_cons_self] at second
      cases second
    | cons z' b =>
      obtain ⟨rfl, tails⟩ := List.cons.inj same
      obtain ⟨rfl, rest⟩ := ih (fun z inside => left z (List.mem_cons_of_mem _ inside))
        (fun z inside => right z (List.mem_cons_of_mem _ inside)) tails
      exact ⟨rfl, rest⟩

/-- A word with a last letter, put further to the right, has its letter behind the first word. -/
theorem mem_of_shift {α : Type} {x : α} {u k t v : List α} (filled : u ≠ [])
    (same : u ++ (k ++ x :: t) = k ++ [x] ++ v) : x ∈ v := by
  have reach : (k ++ [x]).length ≤ (u ++ k).length := by
    have := List.length_pos_iff.mpr filled
    simp only [List.length_append, List.length_singleton]
    omega
  have dropped := congrArg (List.drop (k ++ [x]).length) same
  rw [List.drop_left, ← List.append_assoc, List.drop_append_of_le_length reach] at dropped
  rw [← dropped]
  simp

/-! ### Steps that can fail -/

theorem bind_ok {ε α β : Type} {x : Except ε α} {f : α → Except ε β} {b : β} (ran : x >>= f = .ok b) :
    ∃ a, x = .ok a ∧ f a = .ok b := by
  cases x with
  | error e => cases ran
  | ok a => exact ⟨a, rfl, ran⟩

/-- A run of steps that each keep a property under some condition keeps it under all of them. -/
theorem foldlM_iff {α β ε : Type} {Q : β → Prop} {condition : α → Prop} {step : β → α → Except ε β}
    {xs : List α} (steps : ∀ x ∈ xs, ∀ b b', step b x = .ok b' → (Q b' ↔ Q b ∧ condition x)) {b b' : β}
    (ran : xs.foldlM step b = .ok b') : Q b' ↔ Q b ∧ ∀ x ∈ xs, condition x := by
  induction xs generalizing b with
  | nil =>
    cases ran
    simp
  | cons x rest ih =>
    obtain ⟨next, first, ran⟩ := bind_ok ran
    rw [ih (fun x member => steps x (List.mem_cons_of_mem _ member)) ran,
      steps x List.mem_cons_self b next first, List.forall_mem_cons, and_assoc]

end Relocation
