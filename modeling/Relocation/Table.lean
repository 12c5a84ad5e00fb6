/-!
# Ordered tables

Entries by key and sets of keys. Both carry the proof that they are in strictly ascending order, so that
there is at most one entry for a key. A second entry for a key keeps the spelling of the first one.
`bisect?` searches any list that is in order.
-/

namespace Relocation

@[ext] structure Table (κ α : Type) [Ord κ] where
  entries : List (κ × α)
  ascending : entries.Pairwise fun a b => compare a.1 b.1 = .lt
  deriving DecidableEq, Repr

namespace Table

section
variable {κ α : Type} [Ord κ]

def findIn (k : κ) : List (κ × α) → Option α
  | [] => none
  | (k', v) :: rest => if compare k k' = .eq then some v else findIn k rest

def insertIn (k : κ) (v : α) : List (κ × α) → List (κ × α)
  | [] => [(k, v)]
  | (k', v') :: rest =>
    match compare k k' with
    | .lt => (k, v) :: (k', v') :: rest
    | .eq => (k', v) :: rest
    | .gt => (k', v') :: insertIn k v rest

theorem mem_insertIn {k : κ} {v : α} {es : List (κ × α)} {e : κ × α} (member : e ∈ insertIn k v es) :
    e ∈ es ∨ (compare k e.1 = .eq ∨ e.1 = k) ∧ e.2 = v := by
  induction es with
  | nil =>
    rw [insertIn, List.mem_singleton] at member
    subst member
    exact Or.inr ⟨Or.inr rfl, rfl⟩
  | cons head rest ih =>
    obtain ⟨k', w⟩ := head
    unfold insertIn at member
    split at member
    · rcases List.mem_cons.mp member with rfl | old
      · exact Or.inr ⟨Or.inr rfl, rfl⟩
      · exact Or.inl old
    · rename_i equal
      rcases List.mem_cons.mp member with rfl | old
      · exact Or.inr ⟨Or.inl equal, rfl⟩
      · exact Or.inl (List.mem_cons_of_mem _ old)
    · rcases List.mem_cons.mp member with rfl | old
      · exact Or.inl List.mem_cons_self
      · exact (ih old).imp_left (List.mem_cons_of_mem _)

theorem insertIn_ascending [Std.TransOrd κ] {es : List (κ × α)}
    (sorted : es.Pairwise fun a b => compare a.1 b.1 = .lt) (k : κ) (v : α) :
    (insertIn k v es).Pairwise fun a b => compare a.1 b.1 = .lt := by
  induction es with
  | nil => exact List.pairwise_singleton _ _
  | cons head rest ih =>
    obtain ⟨k', w⟩ := head
    obtain ⟨first, others⟩ := List.pairwise_cons.mp sorted
    unfold insertIn
    split
    · rename_i less
      refine List.pairwise_cons.mpr ⟨?_, sorted⟩
      intro e member
      rcases List.mem_cons.mp member with rfl | old
      · exact less
      · exact Std.TransCmp.lt_trans less (first e old)
    · exact List.pairwise_cons.mpr ⟨first, others⟩
    · rename_i greater
      refine List.pairwise_cons.mpr ⟨?_, ih others⟩
      intro e member
      have above : compare k' k = .lt := Std.OrientedCmp.gt_iff_lt.mp greater
      rcases mem_insertIn member with old | ⟨same | same, _⟩
      · exact first e old
      · exact Std.TransCmp.lt_of_lt_of_eq above same
      · exact same ▸ above

end

section
variable {κ α β : Type} [Ord κ]

instance : EmptyCollection (Table κ α) := ⟨⟨[], List.Pairwise.nil⟩⟩

def single (k : κ) (v : α) : Table κ α := ⟨[(k, v)], List.pairwise_singleton _ _⟩

def find? (k : κ) (t : Table κ α) : Option α := findIn k t.entries

def contains (k : κ) (t : Table κ α) : Bool := (t.find? k).isSome

def keys (t : Table κ α) : List κ := t.entries.map (·.1)

def values (t : Table κ α) : List α := t.entries.map (·.2)

def filter (keep : κ × α → Bool) (t : Table κ α) : Table κ α :=
  ⟨t.entries.filter keep, t.ascending.filter keep⟩

def filterMap (f : κ × α → Option β) (t : Table κ α) : List β := t.entries.filterMap f

variable [Std.TransOrd κ]

def insert (k : κ) (v : α) (t : Table κ α) : Table κ α :=
  ⟨insertIn k v t.entries, insertIn_ascending t.ascending k v⟩

def insertAll (entries : List (κ × α)) (t : Table κ α) : Table κ α :=
  entries.foldl (fun t (k, v) => t.insert k v) t

/-- Changes the value at `k`, which counts as `init` when there is none. -/
def modify (k : κ) (init : α) (f : α → α) (t : Table κ α) : Table κ α :=
  t.insert k (f ((t.find? k).getD init))

/-- The entries of a list; the last entry for a key wins, spelling included. -/
def ofListLast (entries : List (κ × α)) : Table κ α :=
  entries.reverse.foldl (fun t (k, v) => if t.contains k then t else t.insert k v) ∅

end

end Table

abbrev Keys.Ascending {κ : Type} [Ord κ] (ks : List κ) : Prop := ks.Pairwise fun a b => compare a b = .lt

@[ext] structure Keys (κ : Type) [Ord κ] where
  toList : List κ
  ascending : Keys.Ascending toList
  deriving DecidableEq, Repr

namespace Keys

section
variable {κ : Type} [Ord κ]

def insertIn (k : κ) : List κ → List κ
  | [] => [k]
  | k' :: rest =>
    match compare k k' with
    | .lt => k :: k' :: rest
    | .eq => k' :: rest
    | .gt => k' :: insertIn k rest

theorem mem_insertIn {k k' : κ} {ks : List κ} (member : k' ∈ insertIn k ks) : k' = k ∨ k' ∈ ks := by
  induction ks with
  | nil => exact Or.inl (List.mem_singleton.mp member)
  | cons head rest ih =>
    unfold insertIn at member
    split at member
    · rcases List.mem_cons.mp member with same | old
      · exact Or.inl same
      · exact Or.inr old
    · exact Or.inr member
    · rcases List.mem_cons.mp member with same | old
      · exact Or.inr (same ▸ List.mem_cons_self)
      · exact (ih old).imp_right (List.mem_cons_of_mem _)

theorem insertIn_ascending [Std.TransOrd κ] {ks : List κ} (sorted : Ascending ks) (k : κ) :
    Ascending (insertIn k ks) := by
  induction ks with
  | nil => exact List.pairwise_singleton _ _
  | cons head rest ih =>
    obtain ⟨first, others⟩ := List.pairwise_cons.mp sorted
    unfold insertIn
    split
    · rename_i less
      refine List.pairwise_cons.mpr ⟨?_, sorted⟩
      intro other member
      rcases List.mem_cons.mp member with rfl | old
      · exact less
      · exact Std.TransCmp.lt_trans less (first other old)
    · exact sorted
    · rename_i greater
      refine List.pairwise_cons.mpr ⟨?_, ih others⟩
      intro other member
      rcases mem_insertIn member with rfl | old
      · exact Std.OrientedCmp.gt_iff_lt.mp greater
      · exact first other old

end

section
variable {κ : Type} [Ord κ]

instance : EmptyCollection (Keys κ) := ⟨⟨[], List.Pairwise.nil⟩⟩

instance : Coe (Keys κ) (List κ) := ⟨toList⟩

def contains (k : κ) (ks : List κ) : Bool := ks.any fun k' => compare k k' = .eq

variable [Std.TransOrd κ]

/-- Adds a key in its place, unless it is there. -/
def insert (k : κ) (s : Keys κ) : Keys κ := ⟨insertIn k s.toList, insertIn_ascending s.ascending k⟩

def insertAll (ks : List κ) (s : Keys κ) : Keys κ := ks.foldl (fun s k => s.insert k) s

/-- The keys of a list, each as it was spelt first. -/
def ofList (ks : List κ) : Keys κ := insertAll ks ∅

/-- The keys of a list, each as it was spelt last. -/
def ofListLast (ks : List κ) : Keys κ := ofList ks.reverse

end

end Keys

/-- Halves a list, at most `rounds` times, towards an entry that is sought. `order` tells on which
side of it another entry lies. -/
def narrow {α : Type} (order : α → Ordering) : Nat → List α → List α
  | 0, xs => xs
  | rounds + 1, xs =>
    if 1 < xs.length then
      let half := xs.length / 2
      if xs[half]?.map order = some .gt then narrow order rounds (xs.take (xs.length - half))
      else narrow order rounds (xs.drop half)
    else xs

/-- Looks an entry up in a list that is in order. -/
def bisect? {α : Type} (order : α → Ordering) (xs : List α) : Option α :=
  (narrow order xs.length xs).find? fun x => order x = .eq

end Relocation
