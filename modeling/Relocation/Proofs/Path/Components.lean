import Relocation.Path.Basic
import Relocation.Proofs.Lists

/-!
# Names on a path

The stretches between the slashes of a path decide its components. `Spells` says that a path is
relative and made of given names only; joining, taking the directory and cleaning act on these names
whatever the spelling is.
-/

namespace Relocation

namespace Path

def IsName (name : String) : Prop :=
  '/' ∉ name.toList ∧ name ≠ "" ∧ name ≠ "." ∧ name ≠ ".."

instance (name : String) : Decidable (IsName name) := inferInstanceAs (Decidable (_ ∧ _))

def segments (p : Path) : List (List Char) := p.text.toList.splitOn '/'

/-- What the stretches of a path stand for, whatever the path starts with. -/
def inner (p : Path) : List Component := p.segments.filterMap segment?

/-- The component that only the start of a path can have. -/
def opening (p : Path) : List Component :=
  if p.isAbsolute then [.root] else if p.segments.head? = some ['.'] then [.current] else []

def Spells (p : Path) (names : List String) : Prop := p.components = names.map Component.normal

instance (p : Path) (names : List String) : Decidable (p.Spells names) :=
  inferInstanceAs (Decidable (_ = _))

/-! ### Stretches and components -/

theorem segment?_name {name : String} (valid : IsName name) :
    segment? name.toList = some (.normal name) := by
  obtain ⟨_, filled, dot, dots⟩ := valid
  have first : ¬ (name.toList = [] ∨ name.toList = ['.']) := by
    rintro (empty | single)
    · exact filled (String.toList_eq_nil_iff.mp empty)
    · exact dot (String.toList_inj.mp (single.trans (by decide)))
  have second : name.toList ≠ ['.', '.'] := fun double =>
    dots (String.toList_inj.mp (double.trans (by decide)))
  rw [segment?, if_neg first, if_neg second, String.ofList_toList]

theorem segment?_normal {s : List Char} {name : String} (slash : '/' ∉ s)
    (read : segment? s = some (.normal name)) : s = name.toList ∧ IsName name := by
  unfold segment? at read
  split at read
  · cases read
  · rename_i plain
    split at read
    · cases read
    · rename_i double
      simp only [Option.some.injEq, Component.normal.injEq] at read
      subst read
      have same : (String.ofList s).toList = s := String.toList_ofList
      refine ⟨same.symm, by rw [same]; exact slash, ?_, ?_, ?_⟩
      · intro empty
        exact plain (Or.inl (by rw [← same, empty]; rfl))
      · intro dot
        exact plain (Or.inr (by rw [← same, dot]; decide))
      · intro dots
        exact double (by rw [← same, dots]; decide)

theorem segments_slash_free (p : Path) {s : List Char} (member : s ∈ p.segments) : '/' ∉ s :=
  not_mem_of_mem_splitOn member

theorem intercalate_segments (p : Path) : ['/'].intercalate p.segments = p.text.toList :=
  List.intercalate_splitOn '/'

theorem go_fst (offset : Nat) (segments : List (List Char)) :
    (placed.go offset segments).map (·.1) = segments.filterMap segment? := by
  induction segments generalizing offset with
  | nil => rfl
  | cons s rest ih =>
    rw [placed.go, List.map_append, ih, List.filterMap_cons]
    cases segment? s <;> simp

theorem components_eq (p : Path) : p.components = p.opening ++ p.inner := by
  unfold components placed opening inner isAbsolute segments
  simp only [List.map_append, go_fst]
  split
  · rfl
  · split <;> rfl

theorem inner_ne_root {p : Path} {c : Component} (member : c ∈ p.inner) :
    c ≠ .root ∧ c ≠ .current := by
  obtain ⟨s, _, read⟩ := List.mem_filterMap.mp member
  unfold segment? at read
  split at read
  · cases read
  · split at read <;> (cases read; exact ⟨by simp, by simp⟩)

theorem spells_iff {p : Path} {names : List String} :
    p.Spells names ↔ p.opening = [] ∧ p.inner = names.map Component.normal := by
  unfold Spells
  rw [components_eq]
  constructor
  · intro spelt
    have clear : p.opening = [] := by
      unfold opening at spelt ⊢
      split at spelt
      · cases names <;> simp at spelt
      · split at spelt
        · cases names <;> simp at spelt
        · rename_i relative plain
          simp [relative, plain]
    exact ⟨clear, by simpa [clear] using spelt⟩
  · rintro ⟨clear, same⟩
    rw [clear, same, List.nil_append]

theorem Spells.inner {p : Path} {names : List String} (spelt : p.Spells names) :
    p.inner = names.map Component.normal := (spells_iff.mp spelt).2

theorem Spells.isRelative {p : Path} {names : List String} (spelt : p.Spells names) :
    p.isAbsolute = false := by
  have clear := (spells_iff.mp spelt).1
  unfold opening at clear
  split at clear
  · cases clear
  · rename_i relative
    simpa using relative

theorem inner_isName {p : Path} {name : String} (present : .normal name ∈ p.inner) : IsName name := by
  obtain ⟨s, inside, read⟩ := List.mem_filterMap.mp present
  exact (segment?_normal (segments_slash_free p inside) read).2

theorem Spells.isName {p : Path} {names : List String} (spelt : p.Spells names) :
    ∀ name ∈ names, IsName name := by
  intro name member
  have present : Component.normal name ∈ p.inner := by
    rw [spelt.inner]
    exact List.mem_map.mpr ⟨name, member, rfl⟩
  exact inner_isName present

theorem Spells.unique {p : Path} {names others : List String} (spelt : p.Spells names)
    (other : p.Spells others) : names = others :=
  (List.map_inj_right (fun _ _ same => Component.normal.inj same)).mp (spelt.symm.trans other)

theorem same_iff {p q : Path} : p.same q = true ↔ p.components = q.components := by
  simp [same]

theorem Spells.same_iff {p q : Path} {names : List String} (spelt : p.Spells names) :
    p.same q = true ↔ q.Spells names := by
  rw [Path.same_iff, Spells, show p.components = _ from spelt]
  exact eq_comm

theorem same_of_spells {p q : Path} {names others : List String} (left : p.Spells names)
    (right : q.Spells others) : p.same q = true ↔ names = others := by
  rw [left.same_iff]
  exact ⟨fun spelt => spelt.unique right, fun equal => equal ▸ right⟩

theorem names_of_normal {cs : List Component} (normal : ∀ c ∈ cs, c.isNormal = true) :
    ∃ names : List String, cs = names.map Component.normal := by
  induction cs with
  | nil => exact ⟨[], rfl⟩
  | cons c rest ih =>
    obtain ⟨names, rfl⟩ := ih fun c member => normal c (List.mem_cons_of_mem _ member)
    cases c with
    | normal name => exact ⟨name :: names, rfl⟩
    | _ => cases normal _ List.mem_cons_self

theorem spells_of_normal {p : Path} (normal : ∀ c ∈ p.components, c.isNormal = true) :
    ∃ names, p.Spells names :=
  names_of_normal normal

theorem compare_eq_iff {p q : Path} : compare p q = .eq ↔ p.components = q.components := by
  change compare p.components q.components = .eq ↔ _
  exact Std.LawfulEqOrd.compare_eq_iff_eq

theorem components_ne_of_lt {p q : Path} (less : compare p q = .lt) : p.components ≠ q.components := by
  intro same
  rw [compare_eq_iff.mpr same] at less
  cases less

end Path

end Relocation
