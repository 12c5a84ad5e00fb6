import Relocation.Graph.Resolution
import Relocation.Proofs.Specifier.Style

/-!
# Reading specifiers back

A specifier that `relativeSpecifier` or `aliasSpecifier?` writes for a path names that path again:
from the directory it was written for, or, with an alias, from anywhere.
-/

namespace Relocation

namespace Path

theorem cleanComponents_join {p q : Path} (relative : q.isAbsolute = false) :
    cleanComponents (p.join q).components = cleanComponents (p.components ++ q.inner) := by
  by_cases filled : p.text = ""
  · have path : p = ⟨""⟩ := by cases p; simp_all
    have empty : (⟨""⟩ : Path).components = [] := by decide
    rw [path, join_empty, components_eq, empty, List.nil_append]
    -- A leading dot is dropped.
    unfold opening
    rw [relative]
    split
    · contradiction
    · split <;> rfl
  · rw [components_join relative filled]

theorem text_plain_ne {names : List String} (valid : ∀ name ∈ names, IsName name)
    (filled : names ≠ []) : (plain names).text ≠ "" := by
  intro empty
  have spelt := spells_plain valid
  rw [show plain names = ⟨""⟩ from congrArg Path.mk empty] at spelt
  exact filled (spelt.unique (by decide))

theorem dropWhile_plain {names : List String} (valid : ∀ name ∈ names, IsName name) :
    (plain names).text.toList.dropWhile (· == '/') = (plain names).text.toList := by
  have relative := isAbsolute_plain valid
  unfold isAbsolute isAbsoluteText at relative
  cases chars : (plain names).text.toList with
  | nil => rfl
  | cons c cs =>
    rw [chars] at relative
    exact List.dropWhile_cons_of_neg (by simpa using relative)

theorem first_prefix (first : String) (others : List String) :
    first.toList <+: (plain (first :: others)).text.toList := by
  rw [toList_plain, List.map_cons]
  cases others with
  | nil => simp
  | cons other rest =>
    rw [List.map_cons, List.intercalate_cons_cons, List.append_assoc]
    exact List.prefix_append _ _

end Path

/-! ### Relative specifiers -/

theorem head?_relative {specifier : String} (relative : isRelativeSpecifier specifier = true) :
    specifier.toList.head? = some '.' := by
  unfold isRelativeSpecifier at relative
  simp only [Bool.or_eq_true, decide_eq_true_eq, List.isPrefixOf_iff_prefix] at relative
  rcases relative with ((rfl | rfl) | ⟨rest, text⟩) | ⟨rest, text⟩
  · rfl
  · rfl
  · rw [← text]
    rfl
  · rw [← text]
    rfl

theorem isAbsolute_relative {specifier : String} (relative : isRelativeSpecifier specifier = true) :
    (⟨specifier⟩ : Path).isAbsolute = false := by
  unfold Path.isAbsolute Path.isAbsoluteText
  rw [head?_relative relative]
  rfl

theorem dropCommon_spec (a b : List String) :
    ∃ common, a = common ++ (dropCommon a b).1 ∧ b = common ++ (dropCommon a b).2 := by
  induction a generalizing b with
  | nil => exact ⟨[], by simp [dropCommon], by simp [dropCommon]⟩
  | cons name rest ih =>
    cases b with
    | nil => exact ⟨[], by simp [dropCommon], by simp [dropCommon]⟩
    | cons other others =>
      unfold dropCommon
      split
      · rename_i same
        subst same
        obtain ⟨common, left, right⟩ := ih others
        exact ⟨name :: common, congrArg _ left, congrArg _ right⟩
      · exact ⟨[], rfl, rfl⟩

theorem dropCommon_append (front rest : List String) :
    dropCommon front (front ++ rest) = ([], rest) := by
  induction front with
  | nil => cases rest <;> rfl
  | cons name front ih => rw [List.cons_append, dropCommon, if_pos rfl, ih]

def steps (up down : List String) : List String := up.map (fun _ => "..") ++ down

theorem segments_steps {up down : List String} (valid : ∀ name ∈ down, Path.IsName name)
    (filled : steps up down ≠ []) : (Path.plain (steps up down)).segments =
      (steps up down).map String.toList := by
  rw [Path.segments, Path.toList_plain]
  apply List.splitOn_intercalate
  · intro s member
    obtain ⟨name, inside, rfl⟩ := List.mem_map.mp member
    rcases List.mem_append.mp inside with climb | named
    · obtain ⟨_, _, rfl⟩ := List.mem_map.mp climb
      decide
    · exact (valid name named).1
  · simpa using filled

theorem filterMap_steps (up : List String) {down : List String}
    (valid : ∀ name ∈ down, Path.IsName name) :
    ((steps up down).map String.toList).filterMap Path.segment? =
      List.replicate up.length .parent ++ down.map Component.normal := by
  rw [steps, List.map_append, List.filterMap_append, Path.filterMap_names valid]
  congr 1
  induction up with
  | nil => rfl
  | cons name rest ih =>
    rw [List.map_cons, List.map_cons, List.filterMap_cons, ih, List.length_cons, List.replicate_succ]
    rfl

theorem inner_steps (up : List String) {down : List String} (valid : ∀ name ∈ down, Path.IsName name) :
    (Path.plain (steps up down)).inner = List.replicate up.length .parent ++
      down.map Component.normal := by
  rw [← filterMap_steps up valid]
  by_cases filled : steps up down = []
  · rw [filled]
    decide
  · rw [Path.inner, segments_steps valid filled]

theorem inner_dotted (s : String) : (⟨"./" ++ s⟩ : Path).inner = (⟨s⟩ : Path).inner := by
  have split := Path.segments_append (p := ⟨"./" ++ s⟩) ['.'] s.toList (by simp)
  rw [Path.inner, split, List.filterMap_append]
  rfl

/-- What starts with two dots without a step up starts with a name that does. -/
theorem dotted_iff {first : String} (proper : Path.IsName first) (others : List String) :
    ['.', '.'] <+: (Path.plain (first :: others)).text.toList ↔ ['.', '.'] <+: first.toList := by
  obtain ⟨behind, text⟩ := Path.first_prefix first others
  rw [← text]
  cases chars : first.toList with
  | nil => exact (proper.toList_ne.1 chars).elim
  | cons c cs =>
    cases cs with
    | nil =>
      have other : '.' ≠ c := fun same => proper.toList_ne.2 (by rw [chars, same])
      simp [other]
    | cons c' cs => simp

theorem isRelative_dotted {first : String} (proper : Path.IsName first) (others : List String)
    (dots : ['.', '.'] <+: first.toList) :
    isRelativeSpecifier (Path.plain (first :: others)).text = false := by
  obtain ⟨behind, text⟩ := Path.first_prefix first others
  obtain ⟨tail, chars⟩ := dots
  rw [← Bool.not_eq_true]
  intro relative
  cases tail with
  | nil => exact proper.2.2.2 (String.toList_inj.mp chars.symm)
  | cons c cs =>
    have name : '/' ≠ c := fun same => proper.1 (by rw [← chars, same]; simp)
    rw [← chars] at text
    unfold isRelativeSpecifier at relative
    simp only [Bool.or_eq_true, decide_eq_true_eq, List.isPrefixOf_iff_prefix, ← text] at relative
    rcases relative with ((dot | up) | dot) | up
    · simp [dot] at text
    · simp [up] at text
    · simp at dot
    · simp [name] at up

theorem isRelative_climb (name : String) (up down : List String) :
    isRelativeSpecifier (Path.plain (steps (name :: up) down)).text = true := by
  have first : steps (name :: up) down = [".."] ++ steps up down := rfl
  by_cases filled : steps up down = []
  · rw [first, filled]
    decide
  · have text : (Path.plain (steps (name :: up) down)).text.toList =
        "../".toList ++ (Path.plain (steps up down)).text.toList := by
      rw [first, Path.text_plain_append (by simp) filled]
      simp [Path.plain]
    unfold isRelativeSpecifier
    rw [text]
    simp [List.isPrefixOf]

theorem relativeSpecifier_eq {dir target : Path} {front back : List String} (left : dir.Spells front)
    (right : target.Spells back) : relativeSpecifier dir target =
      (if (Path.plain (steps (dropCommon front back).1 (dropCommon front back).2)).text = "" then "."
      else if "..".toList.isPrefixOf
        (Path.plain (steps (dropCommon front back).1 (dropCommon front back).2)).text.toList
        then (Path.plain (steps (dropCommon front back).1 (dropCommon front back).2)).text
      else "./" ++ (Path.plain (steps (dropCommon front back).1 (dropCommon front back).2)).text) := by
  unfold relativeSpecifier
  rw [left.normalNames, right.normalNames]
  rfl

theorem dropCommon_isName {target : Path} (front : List String) {back : List String}
    (right : target.Spells back) : ∀ name ∈ (dropCommon front back).2, Path.IsName name := by
  obtain ⟨common, _, parts⟩ := dropCommon_spec front back
  exact fun name member => right.isName name (by rw [parts]; exact List.mem_append_right _ member)

/-- The steps of a relative specifier: up from the directory, then down to the target. -/
theorem inner_relativeSpecifier {dir target : Path} {front back : List String}
    (left : dir.Spells front) (right : target.Spells back) :
    (⟨relativeSpecifier dir target⟩ : Path).inner =
      List.replicate (dropCommon front back).1.length .parent ++
        (dropCommon front back).2.map Component.normal := by
  have inner := inner_steps (dropCommon front back).1 (dropCommon_isName front right)
  rw [relativeSpecifier_eq left right]
  generalize (dropCommon front back).1 = up at inner ⊢
  generalize (dropCommon front back).2 = down at inner ⊢
  rw [← inner]
  split
  · rename_i empty
    have path : Path.plain (steps up down) = ⟨""⟩ := by
      cases whole : Path.plain (steps up down)
      simp_all
    rw [path]
    decide
  · split
    · rfl
    · exact inner_dotted _

theorem isAbsolute_relativeSpecifier (dir target : Path) :
    (⟨relativeSpecifier dir target⟩ : Path).isAbsolute = false := by
  have dot : (relativeSpecifier dir target).toList.head? = some '.' := by
    unfold relativeSpecifier
    simp only
    split
    · rfl
    · split
      · rename_i dots
        obtain ⟨rest, text⟩ := List.isPrefixOf_iff_prefix.mp dots
        rw [← text]
        rfl
      · simp
  unfold Path.isAbsolute Path.isAbsoluteText
  rw [dot]
  rfl

/-- Going down only, a specifier is relative unless its first name starts with two dots. -/
theorem isRelative_down {first : String} {others : List String}
    (valid : ∀ name ∈ first :: others, Path.IsName name) :
    isRelativeSpecifier (if (Path.plain (first :: others)).text = "" then "."
      else if "..".toList.isPrefixOf (Path.plain (first :: others)).text.toList then (Path.plain
        (first :: others)).text
      else "./" ++ (Path.plain (first :: others)).text) = true ↔ ¬ ['.', '.'] <+: first.toList := by
  have proper := valid first List.mem_cons_self
  rw [if_neg (Path.text_plain_ne valid (by simp)), ← dotted_iff proper others]
  split
  · rename_i dots
    rw [List.isPrefixOf_iff_prefix] at dots
    rw [isRelative_dotted proper others ((dotted_iff proper others).mp dots)]
    exact iff_of_false Bool.false_ne_true (not_not_intro dots)
  · rename_i plain
    rw [List.isPrefixOf_iff_prefix] at plain
    exact iff_of_true (by simp [isRelativeSpecifier, List.isPrefixOf]) plain

theorem isRelative_iff {dir target : Path} {front back : List String} (left : dir.Spells front)
    (right : target.Spells back) : isRelativeSpecifier (relativeSpecifier dir target) = true ↔
      ∀ first others, back = front ++ first :: others → ¬ ['.', '.'] <+: first.toList := by
  obtain ⟨common, up, down⟩ := dropCommon_spec front back
  have valid := dropCommon_isName front right
  rw [relativeSpecifier_eq left right]
  cases climb : (dropCommon front back).1 with
  | cons name rest =>
    have written := isRelative_climb name rest (dropCommon front back).2
    refine iff_of_true ?_ fun first others below => ?_
    · split
      · rfl
      · split
        · exact written
        · simp [isRelativeSpecifier, List.isPrefixOf]
    · rw [below, dropCommon_append] at climb
      cases climb
  | nil =>
    rw [climb, List.append_nil] at up
    subst up
    cases names : (dropCommon front back).2 with
    | nil =>
      rw [names, List.append_nil] at down
      refine iff_of_true rfl fun first others below => ?_
      simp [down] at below
    | cons first others =>
      rw [names] at down valid
      refine (isRelative_down valid).trans ⟨fun plain first' others' below => ?_, fun plain =>
        plain first others down⟩
      obtain ⟨rfl, _⟩ := List.cons.inj (List.append_cancel_left (down.symm.trans below))
      exact plain

theorem isRelative_relativeSpecifier {dir target : Path} {front back : List String}
    (left : dir.Spells front) (right : target.Spells back)
    (undotted : ∀ name ∈ back, ¬ ['.', '.'] <+: name.toList) :
    isRelativeSpecifier (relativeSpecifier dir target) = true :=
  (isRelative_iff left right).mpr fun first others below => undotted first (by simp [below])

theorem clean_join_relativeSpecifier {dir target : Path} {front back : List String}
    (left : dir.Spells front) (right : target.Spells back) :
    (dir.join ⟨relativeSpecifier dir target⟩).clean = Path.tidy back := by
  obtain ⟨common, frontParts, backParts⟩ := dropCommon_spec front back
  refine Path.clean_eq_tidy ?_ right.isName
  rw [Path.cleanComponents_join (isAbsolute_relativeSpecifier dir target),
    show dir.components = _ from left, inner_relativeSpecifier left right, ← List.append_assoc]
  generalize (dropCommon front back).1 = up at *
  generalize (dropCommon front back).2 = down at *
  have enough : up.length ≤ front.length := by rw [frontParts, List.length_append]; omega
  have taken : front.take (front.length - up.length) = common := by
    rw [frontParts, List.length_append, Nat.add_sub_cancel, List.take_left]
  rw [Path.cleanComponents_climb enough, taken, backParts]

theorem basePath?_relative (r : Resolver) {referrer target : Path} {names back : List String}
    (left : referrer.Spells names) (right : target.Spells back)
    (undotted : ∀ name ∈ back, ¬ ['.', '.'] <+: name.toList) :
    r.basePath? referrer (relativeSpecifier referrer.directory target) = some (Path.tidy back) := by
  unfold Resolver.basePath?
  rw [if_pos (isRelative_relativeSpecifier left.directory right undotted),
    clean_join_relativeSpecifier left.directory right]

/-! ### Alias specifiers -/

/-- Aliases that a specifier can be read with in one way only. -/
structure Alias.Clear (aliases : List Alias) : Prop where
  ending : ∀ a ∈ aliases, a.lead.toList.getLast? = some '/'
  undotted : ∀ a ∈ aliases, a.lead.toList.head? ≠ some '.'
  apart : ∀ a ∈ aliases, ∀ b ∈ aliases, a.lead.toList <+: b.lead.toList → a = b
  named : ∀ a ∈ aliases, ∃ names, a.dir.Spells names

theorem Alias.spell_not_relative (a : Alias) (undotted : a.lead.toList.head? ≠ some '.')
    (rest : String) : isRelativeSpecifier (a.spell rest) = false := by
  rw [← Bool.not_eq_true]
  intro relative
  have dot := head?_relative relative
  apply undotted
  unfold Alias.spell at dot
  simp only at dot
  split at dot
  · obtain ⟨more, whole⟩ :=
      List.reverse_prefix.mpr (List.dropWhile_suffix (l := a.lead.toList.reverse) (· == '/'))
    rw [String.toList_ofList] at dot
    rw [List.reverse_reverse] at whole
    rw [← whole, List.head?_append, dot]
    rfl
  · split at dot
    · rename_i ending
      rw [String.toList_append] at dot
      cases lead : a.lead.toList with
      | nil => rw [lead] at ending; cases ending
      | cons c cs => rwa [lead] at dot
    · rw [String.append_assoc, String.toList_append] at dot
      cases lead : a.lead.toList with
      | nil => simp [lead] at dot
      | cons c cs => rwa [lead] at dot

/-- For the directory itself the alias is written without the slash at its end. -/
theorem Alias.spell_nothing (a : Alias) {front : List Char} (text : a.lead.toList = front ++ ['/']) :
    (a.spell "").toList <+: front := by
  have trimmed : (a.spell "").toList = (a.lead.toList.reverse.dropWhile (· == '/')).reverse := by
    simp [Alias.spell]
  have turned : a.lead.toList.reverse = '/' :: front.reverse := by simp [text]
  rw [trimmed, turned, List.dropWhile_cons_of_pos (by simp), ← List.reverse_reverse front]
  exact List.reverse_prefix.mpr (by simpa using List.dropWhile_suffix _)

theorem deepestAlias?_mem {aliases : List Alias} {p : Path} {a : Alias}
    (found : deepestAlias? aliases p = some a) : a ∈ aliases ∧ p.startsWith a.dir = true := by
  have folded : ∀ (rest : List Alias) (first : Alias), rest.foldl deeperAlias first ∈ first ::
      rest := by
    intro rest
    induction rest with
    | nil => simp
    | cons other others ih =>
      intro first
      rw [List.foldl_cons]
      rcases List.mem_cons.mp (ih (deeperAlias first other)) with chosen | later
      · rw [chosen, deeperAlias]
        split <;> simp
      · exact List.mem_cons_of_mem _ (List.mem_cons_of_mem _ later)
  unfold deepestAlias? at found
  split at found
  · cases found
  · rename_i first rest holds
    cases found
    have member := folded rest first
    rw [← holds] at member
    exact List.mem_filter.mp member

theorem aliasSpecifier?_not_relative {aliases : List Alias}
    (undotted : ∀ a ∈ aliases, a.lead.toList.head? ≠ some '.')
    {p : Path} {token : String} (written : aliasSpecifier? aliases p = some token) :
    isRelativeSpecifier token = false := by
  unfold aliasSpecifier? at written
  split at written
  · cases written
  · rename_i a deepest
    obtain ⟨rest, _, rfl⟩ := Option.map_eq_some_iff.mp written
    exact a.spell_not_relative (undotted a (deepestAlias?_mem deepest).1) _

/-- The specifier that is written for names: those behind the directory of the alias, spelt out. -/
theorem aliasSpecifier?_spelt {aliases : List Alias} {p : Path} {names : List String} {token : String}
    (spelt : p.Spells names) (named : ∀ a ∈ aliases, ∃ names, a.dir.Spells names)
    (written : aliasSpecifier? aliases p = some token) :
    ∃ a outer rest, deepestAlias? aliases p = some a ∧ a.dir.Spells outer ∧ names = outer ++ rest ∧
      token = a.spell ("/".intercalate rest) := by
  unfold aliasSpecifier? at written
  split at written
  · cases written
  · rename_i a deepest
    obtain ⟨known, within⟩ := deepestAlias?_mem deepest
    obtain ⟨outer, dir⟩ := named a known
    obtain ⟨rest, rfl⟩ : outer <+: names := by
      rw [Path.startsWith, List.isPrefixOf_iff_prefix, show a.dir.components = _ from dir,
        show p.components = _ from spelt] at within
      obtain ⟨few, start, same⟩ := List.prefix_map_iff.mp within
      rwa [(List.map_inj_right (fun _ _ equal => Component.normal.inj equal)).mp same]
    have valid : ∀ name ∈ rest, Path.IsName name := fun name member =>
      spelt.isName name (List.mem_append_right _ member)
    have below : p.below? a.dir = some (rest.map Component.normal) := by
      rw [Path.below?, if_pos within, show p.components = _ from spelt,
        show a.dir.components = _ from dir, List.map_append, List.length_map,
        ← List.length_map Component.normal, List.drop_left]
    have text : Path.slashed (rest.map Component.normal) = "/".intercalate rest := by
      rw [← (Path.spells_plain valid).slash, Path.slash,
        show (Path.plain rest).components = _ from Path.spells_plain valid]
    rw [below, Option.map_some, text] at written
    exact ⟨a, outer, rest, deepest, dir, rfl, (Option.some.inj written).symm⟩

theorem aliasSpecifier?_congr {aliases : List Alias} {p q : Path}
    (same : p.components = q.components) : aliasSpecifier? aliases p = aliasSpecifier? aliases q := by
  unfold aliasSpecifier? deepestAlias? Path.below? Path.startsWith
  rw [same]

namespace Alias.Clear

variable {r : Resolver} {a : Alias} {specifier : String} (clear : Alias.Clear r.aliases)
include clear

/-- No alias but the one that a specifier starts with can read it. -/
theorem aliasFor?_eq (known : a ∈ r.aliases) (starts : a.lead.toList <+: specifier.toList) :
    r.aliasFor? specifier = some a := by
  unfold Resolver.aliasFor?
  cases found : (Resolver.byLead r.aliases).find? fun a => a.lead.toList.isPrefixOf specifier.toList
    with
  | none =>
    have missed := List.find?_eq_none.mp found a (List.mem_mergeSort.mpr known)
    exact (missed (List.isPrefixOf_iff_prefix.mpr starts)).elim
  | some other =>
    have starts' := List.find?_some found
    have fits := List.isPrefixOf_iff_prefix.mp starts'
    have listed : other ∈ r.aliases := List.mem_mergeSort.mp (List.mem_of_find?_eq_some found)
    rcases List.prefix_or_prefix_of_prefix fits starts with shorter | longer
    · rw [clear.apart other listed a known shorter]
    · rw [clear.apart a known other listed longer]

/-- Without the slash at its end the text of an alias names nothing. -/
theorem aliasFor?_bare (known : a ∈ r.aliases) : r.aliasFor? (a.spell "") = none := by
  obtain ⟨front, text⟩ := List.getLast?_eq_some_iff.mp (clear.ending a known)
  have within := a.spell_nothing text
  unfold Resolver.aliasFor?
  refine List.find?_eq_none.mpr fun other member starts => ?_
  have listed : other ∈ r.aliases := List.mem_mergeSort.mp member
  have shorter := (List.isPrefixOf_iff_prefix.mp starts).trans within
  have same := clear.apart other listed a known (shorter.trans ⟨['/'], text.symm⟩)
  have bound := shorter.length_le
  rw [same, text, List.length_append, List.length_singleton] at bound
  omega

theorem not_relative (known : a ∈ r.aliases) (rest : String) :
    isRelativeSpecifier (a.spell rest) = false :=
  a.spell_not_relative (clear.undotted a known) rest

theorem aliasRest_spell (known : a ∈ r.aliases) {rest : List String}
    (valid : ∀ name ∈ rest, Path.IsName name) (filled : rest ≠ []) :
    a.spell ("/".intercalate rest) = a.lead ++ "/".intercalate rest ∧
      Resolver.aliasRest a (a.lead ++ "/".intercalate rest) = Path.plain rest := by
  constructor
  · have nonempty : "/".intercalate rest ≠ "" := Path.text_plain_ne valid filled
    unfold Alias.spell
    simp only [if_neg nonempty, clear.ending a known, if_true]
  · have text : ("/".intercalate rest).toList.dropWhile (· == '/') = ("/".intercalate rest).toList :=
      Path.dropWhile_plain valid
    unfold Resolver.aliasRest Path.plain
    rw [String.toList_append, List.drop_left, text, String.ofList_toList]

/-- A specifier with an alias names its path again, unless the path is the directory of the alias. -/
theorem aliasSpecifier?_reads {p : Path} {names : List String} (spelt : p.Spells names)
    (written : aliasSpecifier? r.aliases p = some specifier) :
    isRelativeSpecifier specifier = false ∧
      ((∃ a ∈ r.aliases, p.same a.dir = true) ∧ r.aliasFor? specifier = none ∨
        (r.aliasFor? specifier).isSome = true ∧ ∀ referrer, r.basePath? referrer specifier = some
          (Path.tidy names)) := by
  obtain ⟨a, outer, rest, deepest, dir, rfl, rfl⟩ := aliasSpecifier?_spelt spelt clear.named written
  obtain ⟨known, _⟩ := deepestAlias?_mem deepest
  have valid : ∀ name ∈ rest, Path.IsName name := fun name member =>
    spelt.isName name (List.mem_append_right _ member)
  refine ⟨clear.not_relative known _, ?_⟩
  by_cases filled : rest = []
  · subst filled
    refine Or.inl ⟨⟨a, known, ?_⟩, clear.aliasFor?_bare known⟩
    rw [List.append_nil] at spelt
    exact (Path.same_of_spells spelt dir).mpr rfl
  · obtain ⟨whole, behind⟩ := clear.aliasRest_spell known valid filled
    have relative := clear.not_relative known ("/".intercalate rest)
    rw [whole] at relative ⊢
    have found : r.aliasFor? (a.lead ++ "/".intercalate rest) = some a :=
      clear.aliasFor?_eq known (by rw [String.toList_append]; exact List.prefix_append _ _)
    refine Or.inr ⟨by rw [found]; rfl, fun referrer => ?_⟩
    unfold Resolver.basePath?
    rw [relative, found, Option.map_some, behind, (dir.join (Path.spells_plain valid)).clean_tidy]
    rfl

end Alias.Clear

end Relocation
