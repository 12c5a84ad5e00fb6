import Mathlib.Data.List.Pairwise
import Relocation.Table

/-!
# Looking up entries of tables

What `find?` sees after an entry is put in, which entries a set of keys holds, and that `bisect?`
finds what is in a list that is in order.
-/

namespace Relocation

namespace Table

section
variable {κ α : Type} [Ord κ]

theorem findIn_mem {k : κ} {v : α} {es : List (κ × α)} (found : findIn k es = some v) :
    ∃ k', compare k k' = .eq ∧ (k', v) ∈ es := by
  induction es with
  | nil => cases found
  | cons e rest ih =>
    obtain ⟨k', v'⟩ := e
    unfold findIn at found
    split at found
    · rename_i same
      cases found
      exact ⟨k', same, List.mem_cons_self⟩
    · obtain ⟨k'', same, member⟩ := ih found
      exact ⟨k'', same, List.mem_cons_of_mem _ member⟩

theorem mem_insertIn_fresh {k : κ} {v : α} {es : List (κ × α)}
    (fresh : ∀ e ∈ es, compare k e.1 ≠ .eq) {e : κ × α} :
    e ∈ insertIn k v es ↔ e = (k, v) ∨ e ∈ es := by
  induction es with
  | nil => simp [insertIn]
  | cons head rest ih =>
    have others := ih fun e member => fresh e (List.mem_cons_of_mem _ member)
    unfold insertIn
    split
    · exact List.mem_cons
    · rename_i same
      exact (fresh head List.mem_cons_self same).elim
    · rw [List.mem_cons, others, List.mem_cons]
      exact or_left_comm

theorem mem_keys_insertIn {k k' : κ} {v : α} {es : List (κ × α)}
    (member : k' ∈ (insertIn k v es).map (·.1)) : k' = k ∨ k' ∈ es.map (·.1) := by
  induction es with
  | nil => exact Or.inl (List.mem_singleton.mp member)
  | cons head rest ih =>
    obtain ⟨k'', w⟩ := head
    unfold insertIn at member
    split at member
    · exact List.mem_cons.mp member
    · exact Or.inr member
    · rcases List.mem_cons.mp member with rfl | old
      · exact Or.inr List.mem_cons_self
      · exact (ih old).imp_right (List.mem_cons_of_mem _)

theorem findIn_filter [Std.LawfulEqOrd κ] (keep : κ → Bool) (es : List (κ × α)) (k : κ) :
    findIn k (es.filter fun e => keep e.1) = if keep k = true then findIn k es else none := by
  induction es with
  | nil => simp [findIn]
  | cons e rest ih =>
    obtain ⟨k', v⟩ := e
    by_cases same : k = k'
    · subst same
      by_cases kept : keep k = true
      · rw [List.filter_cons_of_pos (by simpa using kept), if_pos kept]
        simp [findIn, Std.ReflCmp.compare_self]
      · rw [List.filter_cons_of_neg (by simpa using kept), ih, if_neg kept, if_neg kept]
    · have different : compare k k' ≠ .eq := by
        rw [Ne, Std.compare_eq_iff_eq]
        exact same
      by_cases kept : keep k' = true
      · rw [List.filter_cons_of_pos (by simpa using kept), findIn, findIn, ih]
        simp only [if_neg different]
      · rw [List.filter_cons_of_neg (by simpa using kept), ih]
        simp only [findIn, if_neg different]

variable [Std.TransOrd κ]

theorem findIn_insertIn_self {k k' : κ} (same : compare k k' = .eq) (v : α) (es : List (κ × α)) :
    findIn k (insertIn k' v es) = some v := by
  induction es with
  | nil => simp [insertIn, findIn, same]
  | cons e rest ih =>
    obtain ⟨k'', w⟩ := e
    unfold insertIn
    split
    · simp [findIn, same]
    · rename_i equal
      simp [findIn, Std.TransCmp.eq_trans same equal]
    · rename_i greater
      have different : compare k k'' ≠ .eq := by
        rw [Std.TransCmp.congr_left same, greater]
        decide
      rw [findIn, if_neg different, ih]

theorem findIn_insertIn_of_ne {k k' : κ} (different : compare k k' ≠ .eq) (v : α) (es : List (κ × α)) :
    findIn k (insertIn k' v es) = findIn k es := by
  induction es with
  | nil => simp [insertIn, findIn, different]
  | cons e rest ih =>
    obtain ⟨k'', w⟩ := e
    unfold insertIn
    split
    · rw [findIn, if_neg different]
    · rename_i equal
      have other : compare k k'' ≠ .eq := by
        rw [← Std.TransCmp.congr_right equal]
        exact different
      simp [findIn, other]
    · rw [findIn, findIn, ih]

theorem findIn_congr {k k' : κ} (same : compare k k' = .eq) (es : List (κ × α)) :
    findIn k es = findIn k' es := by
  induction es with
  | nil => rfl
  | cons e rest ih =>
    obtain ⟨k'', w⟩ := e
    unfold findIn
    rw [ih, Std.TransCmp.congr_left same]

theorem findIn_of_mem {es : List (κ × α)} (sorted : es.Pairwise fun a b => compare a.1 b.1 = .lt)
    {k : κ} {v : α} (member : (k, v) ∈ es) : findIn k es = some v := by
  induction es with
  | nil => cases member
  | cons head rest ih =>
    obtain ⟨k', w⟩ := head
    obtain ⟨first, others⟩ := List.pairwise_cons.mp sorted
    unfold findIn
    rcases List.mem_cons.mp member with same | old
    · cases same
      rw [if_pos Std.ReflCmp.compare_self]
    · have less := first (k, v) old
      have different : compare k k' ≠ .eq := by
        intro same
        have back := Std.OrientedCmp.eq_comm.mp same
        simp [back] at less
      rw [if_neg different, ih others old]

/-- A key behind all others goes to the end. -/
theorem insertIn_last {es : List (κ × α)} {k : κ} (behind : ∀ e ∈ es, compare e.1 k = .lt) (v : α) :
    insertIn k v es = es ++ [(k, v)] := by
  induction es with
  | nil => rfl
  | cons head rest ih =>
    have greater : compare k head.1 = .gt :=
      Std.OrientedCmp.gt_iff_lt.mpr (behind head List.mem_cons_self)
    rw [insertIn, greater]
    exact congrArg (head :: ·) (ih fun e member => behind e (List.mem_cons_of_mem _ member))

end

section
variable {κ α : Type} [Ord κ] {t : Table κ α} {k k' : κ} {v : α} {e : κ × α}

@[simp] theorem entries_empty : (∅ : Table κ α).entries = [] := rfl

theorem eq_empty_iff : t = ∅ ↔ t.entries = [] := Table.ext_iff

@[simp] theorem find?_empty (k : κ) : (∅ : Table κ α).find? k = none := rfl

theorem find?_mem (found : t.find? k = some v) :
    ∃ k', compare k k' = .eq ∧ (k', v) ∈ t.entries := findIn_mem found

theorem find?_filter [Std.LawfulEqOrd κ] (keep : κ → Bool) (t : Table κ α) (k : κ) :
    (t.filter fun e => keep e.1).find? k = if keep k = true then t.find? k else none :=
  findIn_filter keep t.entries k

variable [Std.TransOrd κ]

theorem mem_insert (member : e ∈ (t.insert k v).entries) :
    e ∈ t.entries ∨ (compare k e.1 = .eq ∨ e.1 = k) ∧ e.2 = v := mem_insertIn member

theorem mem_insert_fresh (fresh : ∀ e ∈ t.entries, compare k e.1 ≠ .eq) :
    e ∈ (t.insert k v).entries ↔ e = (k, v) ∨ e ∈ t.entries := mem_insertIn_fresh fresh

theorem mem_keys_insert (member : k' ∈ (t.insert k v).keys) :
    k' = k ∨ k' ∈ t.keys := mem_keys_insertIn member

theorem find?_congr (same : compare k k' = .eq) (t : Table κ α) :
    t.find? k = t.find? k' := findIn_congr same t.entries

theorem find?_of_mem (member : (k, v) ∈ t.entries) :
    t.find? k = some v := findIn_of_mem t.ascending member

theorem find?_insert (k k' : κ) (v : α) (t : Table κ α) :
    (t.insert k' v).find? k = if compare k k' = .eq then some v else t.find? k := by
  split
  · rename_i same
    exact findIn_insertIn_self same v t.entries
  · rename_i different
    exact findIn_insertIn_of_ne different v t.entries

theorem find?_insert_self (same : compare k k' = .eq) (v : α) (t : Table κ α) :
    (t.insert k' v).find? k = some v := by
  rw [find?_insert, if_pos same]

theorem insert_ne_empty (k : κ) (v : α) (t : Table κ α) : t.insert k v ≠ ∅ := by
  intro empty
  have held := find?_insert_self (Std.compare_self (a := k)) v t
  rw [empty] at held
  cases held

theorem ofListLast_spec {entries : List (κ × α)} (member : e ∈ (ofListLast entries).entries) :
    ∃ source ∈ entries, compare source.1 e.1 = .eq ∧ source.2 = e.2 := by
  have folded : ∀ (more : List (κ × α)) (t : Table κ α), (∀ e ∈ more, e ∈ entries) →
      (∀ e ∈ t.entries, ∃ source ∈ entries, compare source.1 e.1 = .eq ∧ source.2 = e.2) →
      ∀ e ∈ (more.foldl (fun t e => if t.contains e.1 then t else t.insert e.1 e.2) t).entries,
        ∃ source ∈ entries, compare source.1 e.1 = .eq ∧ source.2 = e.2 := by
    intro more
    induction more with
    | nil => exact fun t _ known => known
    | cons e rest ih =>
      intro t listed known
      obtain ⟨k, v⟩ := e
      rw [List.foldl_cons]
      have others : ∀ e ∈ rest, e ∈ entries := fun e member => listed e (List.mem_cons_of_mem _ member)
      by_cases held : t.contains k = true
      · simp only [held, if_true]
        exact ih t others known
      · simp only [held, Bool.false_eq_true, if_false]
        refine ih _ others ?_
        intro e member
        rcases mem_insert member with old | ⟨key, value⟩
        · exact known e old
        · refine ⟨(k, v), listed _ List.mem_cons_self, ?_, value.symm⟩
          rcases key with same | same
          · exact same
          · rw [same]
            exact Std.compare_self
  exact folded entries.reverse ∅ (fun e member => List.mem_reverse.mp member) (by simp) e member

theorem find?_insertAll {entries : List (κ × α)} (found : (t.insertAll entries).find? k = some v) :
    t.find? k = some v ∨ ∃ e ∈ entries, compare k e.1 = .eq ∧ e.2 = v := by
  induction entries generalizing t with
  | nil => exact Or.inl found
  | cons e rest ih =>
    obtain ⟨k', v'⟩ := e
    rcases ih found with old | ⟨e, member, same⟩
    · rw [find?_insert] at old
      split at old
      · rename_i same
        exact Or.inr ⟨(k', v'), List.mem_cons_self, same, Option.some.inj old⟩
      · exact Or.inl old
    · exact Or.inr ⟨e, List.mem_cons_of_mem _ member, same⟩

theorem insertAll_of_ascending {entries : List (κ × α)}
    (sorted : (t.entries ++ entries).Pairwise fun a b => compare a.1 b.1 = .lt) :
    (t.insertAll entries).entries = t.entries ++ entries := by
  induction entries generalizing t with
  | nil => exact (List.append_nil t.entries).symm
  | cons e rest ih =>
    obtain ⟨k, v⟩ := e
    have behind : ∀ e ∈ t.entries, compare e.1 k = .lt := fun e member =>
      (List.pairwise_append.mp sorted).2.2 e member (k, v) List.mem_cons_self
    have put : (t.insert k v).entries = t.entries ++ [(k, v)] := insertIn_last behind v
    change ((t.insert k v).insertAll rest).entries = _
    rw [ih (by rw [put]; simpa using sorted), put, List.append_assoc]
    rfl

theorem contains_ofListLast {entries : List (κ × α)} (member : e ∈ entries) :
    (ofListLast entries).contains e.1 = true := by
  have kept : ∀ (more : List (κ × α)) (t : Table κ α), t.contains e.1 = true ∨ e ∈ more →
      (more.foldl (fun t e => if t.contains e.1 then t else t.insert e.1 e.2) t).contains e.1 =
        true := by
    intro more
    induction more with
    | nil => exact fun t held => held.resolve_right (by simp)
    | cons next rest ih =>
      obtain ⟨k, v⟩ := next
      intro t held
      refine ih _ ?_
      rcases held with held | listed
      · refine Or.inl ?_
        by_cases known : t.contains k = true
        · simp only [known, if_true]
          exact held
        · simp only [known, Bool.false_eq_true, if_false]
          rw [contains, find?_insert]
          split
          · rfl
          · exact held
      · rcases List.mem_cons.mp listed with rfl | later
        · refine Or.inl ?_
          by_cases known : t.contains k = true
          · simp only [known, if_true]
          · simp only [known, Bool.false_eq_true, if_false]
            rw [contains, find?_insert, if_pos Std.compare_self]
            rfl
        · exact Or.inr later
  exact kept entries.reverse ∅ (Or.inr (List.mem_reverse.mpr member))

/-- A table is known by what it finds. -/
theorem eq_of_find? [Std.LawfulEqOrd κ] {t t' : Table κ α} (same : ∀ k, t.find? k = t'.find? k) :
    t = t' := by
  have entries : ∀ {t t' : Table κ α}, (∀ k, t.find? k = t'.find? k) →
      ∀ e ∈ t.entries, e ∈ t'.entries := by
    intro t t' same e member
    obtain ⟨k, v⟩ := e
    obtain ⟨k', equal, inside⟩ := find?_mem ((same k).symm.trans (find?_of_mem member))
    rwa [Std.LawfulEqOrd.eq_of_compare equal]
  have nodup : ∀ t : Table κ α, t.entries.Nodup := fun t =>
    t.ascending.imp fun less equal => by rw [equal, Std.compare_self] at less; cases less
  have perm : t.entries.Perm t'.entries :=
    (List.perm_ext_iff_of_nodup (nodup t) (nodup t')).mpr fun e =>
    ⟨entries same e, entries (fun k => (same k).symm) e⟩
  refine Table.ext (perm.eq_of_pairwise (fun a b _ _ less greater => ?_) t.ascending t'.ascending)
  rw [Std.OrientedCmp.gt_iff_lt.mpr greater] at less
  cases less

end

end Table

namespace Keys

section
variable {κ : Type} [Ord κ] {s : Keys κ} {k k' : κ} {ks : List κ}

@[simp] theorem toList_empty : (∅ : Keys κ).toList = [] := rfl

theorem contains_iff : contains k ks = true ↔ ∃ k' ∈ ks, compare k k' = .eq := by
  simp [contains]

variable [Std.TransOrd κ]

theorem contains_insertIn : contains k' (insertIn k ks) = true ↔ compare k' k = .eq ∨
    contains k' ks = true := by
  induction ks with
  | nil => simp [insertIn, contains]
  | cons head rest ih =>
    unfold insertIn
    split
    · simp [contains]
    · rename_i equal
      simp only [contains, List.any_cons, Bool.or_eq_true, decide_eq_true_eq] at ih ⊢
      constructor
      · exact Or.inr
      · rintro (same | old)
        · exact Or.inl (Std.TransCmp.eq_trans same equal)
        · exact old
    · simp only [contains, List.any_cons, Bool.or_eq_true, decide_eq_true_eq] at ih ⊢
      rw [ih]
      exact or_left_comm

theorem mem_insert (member : k' ∈ (s.insert k).toList) : k' = k ∨ k' ∈ s.toList := mem_insertIn member

theorem contains_insert : contains k' (s.insert k).toList = true ↔ compare k' k = .eq ∨
    contains k' s.toList = true :=
  contains_insertIn

theorem contains_insertAll :
    contains k (s.insertAll ks).toList = true ↔ contains k ks = true ∨ contains k s.toList = true := by
  induction ks generalizing s with
  | nil => simp [insertAll, contains]
  | cons head rest ih =>
    change contains k ((s.insert head).insertAll rest).toList = true ↔ _
    rw [ih, contains_insert]
    simp only [contains, List.any_cons, Bool.or_eq_true, decide_eq_true_eq]
    exact ⟨fun h => by rcases h with h | h | h <;> simp [h],
      fun h => by rcases h with (h | h) | h <;> simp [h]⟩

theorem mem_insertAll (member : k ∈ (s.insertAll ks).toList) : k ∈ ks ∨ k ∈ s.toList := by
  induction ks generalizing s with
  | nil => exact Or.inr member
  | cons head rest ih =>
    rcases ih member with inner | outer
    · exact Or.inl (List.mem_cons_of_mem _ inner)
    · rcases mem_insert outer with rfl | old
      · exact Or.inl List.mem_cons_self
      · exact Or.inr old

theorem mem_ofList (member : k ∈ (ofList ks).toList) : k ∈ ks :=
  (mem_insertAll member).resolve_right (List.not_mem_nil)

theorem contains_ofList : contains k (ofList ks).toList = true ↔ contains k ks = true := by
  rw [ofList, contains_insertAll]
  exact or_iff_left (by simp [contains])

end

end Keys

/-! ### Searching by halves -/

section
variable {α : Type} {order : α → Ordering}

theorem narrow_sublist (order : α → Ordering) (rounds : Nat) (xs : List α) :
    (narrow order rounds xs).Sublist xs := by
  induction rounds generalizing xs with
  | zero => exact List.Sublist.refl xs
  | succ rounds ih =>
    unfold narrow
    simp only
    split
    · split
      · exact (ih _).trans (List.take_sublist _ _)
      · exact (ih _).trans (List.drop_sublist _ _)
    · exact List.Sublist.refl xs

/-- Behind an entry that does not come before the sought one, all entries come after it. -/
def Oriented (order : α → Ordering) (xs : List α) :
    Prop := xs.Pairwise fun a b => order a ≠ .lt → order b = .gt

theorem Oriented.unique {xs : List α} (oriented : Oriented order xs) {a b : α} (left : a ∈ xs)
    (right : b ∈ xs) (first : order a = .eq) (second : order b = .eq) : a = b := by
  have apart : xs.Pairwise fun a b => ¬ (order a = .eq ∧ order b = .eq) := by
    refine oriented.imp fun {a b} behind both => ?_
    have after := behind (by rw [both.1]; decide)
    rw [both.2] at after
    cases after
  have : Std.Symm fun a b => ¬ (order a = .eq ∧ order b = .eq) :=
    ⟨fun a b apart both => apart both.symm⟩
  by_contra different
  exact apart.forall left right different ⟨first, second⟩

/-- Halving keeps the last entry that does not come after the sought one. -/
theorem mem_narrow_last {front back : List α} {x : α} (before : ∀ y ∈ front, order y ≠ .gt)
    (here : order x ≠ .gt) (behind : ∀ y ∈ back, order y = .gt) (rounds : Nat) :
    x ∈ narrow order rounds (front ++ x :: back) := by
  induction rounds generalizing front back with
  | zero => simp [narrow]
  | succ rounds ih =>
    unfold narrow
    simp only
    split
    · rename_i long
      have size : (front ++ x :: back).length = front.length + back.length + 1 := by simp; omega
      generalize half : (front ++ x :: back).length / 2 = n
      by_cases early : n ≤ front.length
      · -- The middle is `x` or stands before it.
        have rest : (front ++ x :: back).drop n = front.drop n ++ x :: back :=
          List.drop_append_of_le_length early
        have middle : (front ++ x :: back)[n]?.map order ≠ some .gt := by
          rw [← List.head?_drop, rest]
          cases tail : front.drop n with
          | nil => simpa using here
          | cons y others =>
            have inside : y ∈ front := List.mem_of_mem_drop (by rw [tail]; exact List.mem_cons_self)
            simpa using before y inside
        rw [if_neg middle, rest]
        exact ih (fun y inside => before y (List.mem_of_mem_drop inside)) behind
      · have rest : (front ++ x :: back).drop n = back.drop (n - front.length - 1) := by
          rw [List.drop_append, List.drop_of_length_le (by omega), List.nil_append]
          obtain ⟨k, same⟩ : ∃ k, n - front.length = k + 1 := ⟨n - front.length - 1, by omega⟩
          rw [same, List.drop_succ_cons, Nat.add_sub_cancel]
        have middle : (front ++ x :: back)[n]?.map order = some .gt := by
          rw [← List.head?_drop, rest, List.head?_drop]
          have bound : n - front.length - 1 < back.length := by omega
          rw [List.getElem?_eq_getElem bound, Option.map_some, behind _ (List.getElem_mem bound)]
        have kept : (front ++ x :: back).take ((front ++ x :: back).length - n) =
            front ++ x :: back.take ((front ++ x :: back).length - n - front.length - 1) := by
          obtain ⟨k, same⟩ : ∃ k, (front ++ x :: back).length - n - front.length = k + 1 :=
            ⟨(front ++ x :: back).length - n - front.length - 1, by omega⟩
          rw [List.take_append, List.take_of_length_le (by omega), same, List.take_succ_cons,
            Nat.add_sub_cancel]
        rw [if_pos middle, kept]
        exact ih before fun y inside => behind y (List.mem_of_mem_take inside)
    · simp

theorem mem_narrow {xs : List α} (oriented : Oriented order xs) {x : α} (member : x ∈ xs)
    (hit : order x = .eq) (rounds : Nat) : x ∈ narrow order rounds xs := by
  obtain ⟨front, back, rfl⟩ := List.append_of_mem member
  obtain ⟨_, later, across⟩ := List.pairwise_append.mp oriented
  refine mem_narrow_last (fun y early greater => ?_) (by simp [hit]) (fun y late => ?_) rounds
  · have after := across y early x List.mem_cons_self (by simp [greater])
    rw [hit] at after
    cases after
  · exact (List.pairwise_cons.mp later).1 y late (by simp [hit])

theorem length_narrow (order : α → Ordering) {xs : List α} {rounds : Nat}
    (enough : xs.length ≤ rounds + 1) : (narrow order rounds xs).length ≤ 1 := by
  induction rounds generalizing xs with
  | zero => exact enough
  | succ rounds ih =>
    unfold narrow
    simp only
    split
    · split
      · exact ih (by rw [List.length_take]; omega)
      · exact ih (by rw [List.length_drop]; omega)
    · omega

theorem bisect?_some {xs : List α} {x : α} (found : bisect? order xs = some x) :
    x ∈ xs ∧ order x = .eq := by
  have hit := List.find?_some found
  exact ⟨(narrow_sublist order _ xs).subset (List.mem_of_find?_eq_some found), by simpa using hit⟩

theorem bisect?_of_mem {xs : List α} (oriented : Oriented order xs) {x : α} (member : x ∈ xs)
    (hit : order x = .eq) : bisect? order xs = some x := by
  have there := mem_narrow oriented member hit xs.length
  cases found : bisect? order xs with
  | none => exact (List.find?_eq_none.mp found x there (by simpa using hit)).elim
  | some other =>
    obtain ⟨inside, same⟩ := bisect?_some found
    rw [oriented.unique inside member same hit]

end

end Relocation
