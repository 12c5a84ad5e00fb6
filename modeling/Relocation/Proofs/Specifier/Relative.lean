import Relocation.Proofs.Specifier.Reading

/-!
# Relative specifiers

From the directory that it was written for, a relative specifier leads to its target and nowhere
else, with no more steps than the two paths call for (`relativeSpecifier_inverse`). It is taken for
a relative one unless it starts with a name that starts with two dots
(`isRelative_relativeSpecifier_iff`).
-/

namespace Relocation

def LongestCommon {α : Type} (common a b : List α) : Prop :=
  common <+: a ∧ common <+: b ∧ ∀ other, other <+: a → other <+: b → other.length ≤ common.length

theorem dropCommon_differ {a b : List String} {x y : String} {as bs : List String}
    (split : dropCommon a b = (x :: as, y :: bs)) : x ≠ y := by
  fun_induction dropCommon a b with
  | case1 as bs y ih => exact ih split
  | case2 x as y bs different =>
    cases split
    exact different
  | case3 as bs none =>
    obtain ⟨rfl, rfl⟩ := Prod.mk.inj split
    exact (none x as y bs rfl rfl).elim

theorem dropCommon_longest (a b : List String) :
    ∃ common, LongestCommon common a b ∧ a = common ++ (dropCommon a b).1 ∧
    b = common ++ (dropCommon a b).2 := by
  obtain ⟨common, left, right⟩ := dropCommon_spec a b
  refine ⟨common, ⟨⟨_, left.symm⟩, ⟨_, right.symm⟩, fun other first second => ?_⟩, left, right⟩
  -- A longer one would go on with the name on which both lists differ.
  refine Nat.le_of_not_lt fun longer => ?_
  obtain ⟨more, rfl⟩ : common <+: other :=
    List.prefix_of_prefix_length_le ⟨_, left.symm⟩ first (by omega)
  rw [left, List.prefix_append_right_inj] at first
  rw [right, List.prefix_append_right_inj] at second
  cases more with
  | nil => simp at longer
  | cons name rest =>
    obtain ⟨as, up⟩ := first
    obtain ⟨bs, down⟩ := second
    exact dropCommon_differ (Prod.ext up.symm down.symm) rfl

theorem LongestCommon.map {α β : Type} {f : α → β} (injective : ∀ x y, f x = f y → x = y)
    {common a b : List α} (longest : LongestCommon common a b) :
    LongestCommon (common.map f) (a.map f) (b.map f) := by
  obtain ⟨left, right, most⟩ := longest
  refine ⟨left.map f, right.map f, fun other first second => ?_⟩
  obtain ⟨few, start, rfl⟩ := List.prefix_map_iff.mp first
  obtain ⟨few', start', same⟩ := List.prefix_map_iff.mp second
  obtain rfl := (List.map_inj_right injective).mp same
  rw [List.length_map, List.length_map]
  exact most few start start'

theorem climb_dots (name : String) (up down : List String) :
    "..".toList <+: (Path.plain (steps (name :: up) down)).text.toList := by
  have first : (steps (name :: up) down).map String.toList = "..".toList ::
    (steps up down).map String.toList := rfl
  rw [Path.toList_plain, first]
  cases (steps up down).map String.toList with
  | nil => exact List.prefix_rfl
  | cons next others =>
    rw [List.intercalate_cons_cons, List.append_assoc]
    exact List.prefix_append _ _

/-- Only a specifier that does not climb is marked by a dot. -/
theorem opening_relativeSpecifier {dir target : Path} {front back : List String}
    (left : dir.Spells front) (right : target.Spells back) :
    (⟨relativeSpecifier dir target⟩ : Path).opening = [] ∨
      (⟨relativeSpecifier dir target⟩ : Path).opening = [.current] ∧
      (dropCommon front back).1 = [] := by
  have relative := isAbsolute_relativeSpecifier dir target
  have valid := dropCommon_isName front right
  cases climb : (dropCommon front back).1 with
  | nil =>
    rw [Path.opening, relative, if_neg Bool.false_ne_true]
    split
    · exact Or.inr ⟨rfl, rfl⟩
    · exact Or.inl rfl
  | cons name rest =>
    have dots := climb_dots name rest (dropCommon front back).2
    have filled : (Path.plain (steps (name :: rest) (dropCommon front back).2)).text ≠ "" := by
      intro empty
      rw [empty] at dots
      simp at dots
    rw [relativeSpecifier_eq left right, climb, if_neg filled, if_pos
      (List.isPrefixOf_iff_prefix.mpr dots)]
    have filled : steps (name :: rest) (dropCommon front back).2 ≠ [] := by simp [steps]
    exact Or.inl (Path.opening_eq_nil (segments_steps valid filled) (by simp) (by simp))

/-- A relative specifier and relative joining are inverse: from its directory the specifier leads to
its target, and it takes one step up for each name of the directory behind those that both start
with, then the other names of the target, behind a dot at most. -/
theorem relativeSpecifier_inverse (d t : Path) (left : ∀ c ∈ d.components, c.isNormal = true)
    (right : ∀ c ∈ t.components, c.isNormal = true) :
    (d.join ⟨relativeSpecifier d t⟩).clean.same (if t.components = [] then ⟨"."⟩ else t) = true ∧
      ∃ common, LongestCommon common d.components t.components ∧
        ∃ mark, (mark = [] ∨ mark = [Component.current] ∧ d.components.length = common.length) ∧
          (⟨relativeSpecifier d t⟩ : Path).components =
            mark ++ List.replicate (d.components.length - common.length) .parent ++
              t.components.drop common.length := by
  obtain ⟨front, source⟩ := Path.spells_of_normal left
  obtain ⟨back, target⟩ := Path.spells_of_normal right
  obtain ⟨common, longest, up, down⟩ := dropCommon_longest front back
  have inner := inner_relativeSpecifier source target
  have opening := opening_relativeSpecifier source target
  have cleaned := clean_join_relativeSpecifier source target
  constructor
  · rw [cleaned, show t.components = _ from target]
    cases back with
    | nil =>
      rw [List.map_nil, if_pos rfl]
      decide
    | cons name rest =>
      rw [if_neg (by simp), Path.tidy_of_ne_nil (by simp)]
      exact (Path.spells_plain target.isName).same_iff.mpr target
  · refine ⟨common.map .normal, ?_, (⟨relativeSpecifier d t⟩ : Path).opening, ?_, ?_⟩
    · rw [show d.components = _ from source, show t.components = _ from target]
      exact longest.map fun _ _ => Component.normal.inj
    · refine opening.imp_right fun ⟨dot, level⟩ => ⟨dot, ?_⟩
      rw [level, List.append_nil] at up
      rw [show d.components = _ from source, List.length_map, List.length_map, ← up]
    · have climbed : front.length - common.length = (dropCommon front back).1.length := by
        have lengths := congrArg List.length up
        rw [List.length_append] at lengths
        omega
      have named : back.drop common.length = (dropCommon front back).2 :=
        (congrArg (List.drop common.length) down).trans List.drop_left
      rw [Path.components_eq, inner, show d.components = _ from source,
        show t.components = _ from target, List.append_assoc, List.length_map, List.length_map,
        ← List.map_drop, climbed, named]

/-- Names that start with two dots are names, and a doubled slash is one. -/
theorem relativeSpecifier_inverse_dotted :
    (∀ c ∈ (⟨"src//..pages/deep"⟩ : Path).components, c.isNormal = true) ∧
      (∀ c ∈ (⟨"src/..lib"⟩ : Path).components, c.isNormal = true) ∧
      relativeSpecifier ⟨"src//..pages/deep"⟩ ⟨"src/..lib"⟩ = "../../..lib" ∧
      ((⟨"src//..pages/deep"⟩ : Path).join ⟨"../../..lib"⟩).clean.same ⟨"src/..lib"⟩ = true := by
  have left : ∀ c ∈ (⟨"src//..pages/deep"⟩ : Path).components, c.isNormal = true := by decide
  have right : ∀ c ∈ (⟨"src/..lib"⟩ : Path).components, c.isNormal = true := by decide
  have written : relativeSpecifier ⟨"src//..pages/deep"⟩ ⟨"src/..lib"⟩ = "../../..lib" := by decide
  have read := (relativeSpecifier_inverse ⟨"src//..pages/deep"⟩ ⟨"src/..lib"⟩ left right).1
  rw [if_neg (by decide), written] at read
  exact ⟨left, right, written, read⟩

/-- What is written as a relative specifier is read as one, with one exception: two dots at the
start of a name, where the target lies below the directory and that name comes first, are taken for
a step up and left without a mark. -/
theorem isRelative_relativeSpecifier_iff (d t : Path) (left : ∀ c ∈ d.components, c.isNormal = true)
    (right : ∀ c ∈ t.components, c.isNormal = true) :
    isRelativeSpecifier (relativeSpecifier d t) = true ↔
      ∀ name rest, t.components = d.components ++ .normal name :: rest →
      ¬ "..".toList <+: name.toList := by
  obtain ⟨front, source⟩ := Path.spells_of_normal left
  obtain ⟨back, target⟩ := Path.spells_of_normal right
  rw [isRelative_iff source target, show d.components = _ from source,
    show t.components = _ from target]
  constructor
  · intro plain name rest below
    obtain ⟨others, rfl⟩ : ∃ others : List String, rest = others.map .normal := by
      refine Path.names_of_normal fun c member => right c ?_
      rw [show t.components = _ from target, below]
      simp [member]
    refine plain name others ((List.map_inj_right fun _ _ => Component.normal.inj).mp ?_)
    rw [below, List.map_append, List.map_cons]
  · rintro plain first others rfl
    exact plain first (others.map .normal) (by rw [List.map_append, List.map_cons])

/-- Behind a step up the dots do no harm. -/
theorem isRelative_relativeSpecifier_beside :
    (∀ c ∈ (⟨"src/..pages"⟩ : Path).components, c.isNormal = true) ∧
      (∀ c ∈ (⟨"src/..lib/x"⟩ : Path).components, c.isNormal = true) ∧
      isRelativeSpecifier (relativeSpecifier ⟨"src/..pages"⟩ ⟨"src/..lib/x"⟩) = true := by
  have left : ∀ c ∈ (⟨"src/..pages"⟩ : Path).components, c.isNormal = true := by decide
  have right : ∀ c ∈ (⟨"src/..lib/x"⟩ : Path).components, c.isNormal = true := by decide
  refine ⟨left, right, (isRelative_relativeSpecifier_iff _ _ left right).mpr fun name rest below => ?_⟩
  rw [show (⟨"src/..lib/x"⟩ : Path).components = [.normal "src", .normal "..lib",
    .normal "x"] by decide, show (⟨"src/..pages"⟩ : Path).components = [.normal "src",
    .normal "..pages"] by decide] at below
  simp at below

theorem relativeSpecifier_unmarked :
    (∀ c ∈ (⟨"src"⟩ : Path).components, c.isNormal = true) ∧
      (∀ c ∈ (⟨"src/..ui/x"⟩ : Path).components, c.isNormal = true) ∧
      relativeSpecifier ⟨"src"⟩ ⟨"src/..ui/x"⟩ = "..ui/x" ∧ isRelativeSpecifier "..ui/x" = false := by
  decide

end Relocation
