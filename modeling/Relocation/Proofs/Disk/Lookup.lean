import Mathlib.Data.List.Infix
import Relocation.Proofs.Path.Cleaning
import Relocation.Proofs.Table
import Relocation.Disk.Basic

/-!
# Trees without links

A disk is a tree if its nodes are in order, lie in directories that exist, have proper names and are
no links. There an absolute path leads where its names say: `locate_pathOf`.
-/

namespace Relocation

namespace Disk

/-! ### Absolute paths -/

theorem pathOf_eq (loc : Location) : pathOf loc = ⟨"/" ++ (Path.plain loc).text⟩ := rfl

theorem toList_pathOf (loc : Location) :
    (pathOf loc).text.toList = '/' :: (Path.plain loc).text.toList := by
  rw [pathOf_eq, String.toList_append]
  rfl

theorem text_pathOf_ne (loc : Location) : (pathOf loc).text ≠ "" := by
  intro empty
  have chars := toList_pathOf loc
  rw [empty] at chars
  cases chars

theorem segments_pathOf (loc : Location) :
    (pathOf loc).segments = [] :: (Path.plain loc).segments := by
  rw [Path.segments, toList_pathOf, List.splitOn_cons_eq_if_modifyHead, if_pos (by decide)]
  rfl

theorem isAbsolute_pathOf (loc : Location) : (pathOf loc).isAbsolute = true := by
  rw [Path.isAbsolute, toList_pathOf]
  rfl

theorem components_pathOf {loc : Location} (valid : ∀ name ∈ loc, Path.IsName name) :
    (pathOf loc).components = .root :: loc.map .normal := by
  rw [Path.components_eq, Path.opening, isAbsolute_pathOf, Path.inner, segments_pathOf]
  exact congrArg (Component.root :: ·) (Path.spells_plain valid).inner

theorem join_pathOf {top names : List String} (left : ∀ name ∈ top, Path.IsName name)
    (right : ∀ name ∈ names, Path.IsName name) (filled : names ≠ []) :
    (pathOf top).join (Path.plain names) = pathOf (top ++ names) := by
  by_cases empty : top = []
  · subst empty
    unfold Path.join
    rw [Path.isAbsolute_plain right]
    rfl
  · obtain ⟨c, last, different⟩ := Path.getLast?_plain left empty
    have ending : (pathOf top).text.toList.getLast? = some c := by
      rw [toList_pathOf, List.getLast?_cons, last]
      rfl
    have text : pathOf (top ++ names) = ⟨(pathOf top).text ++ "/" ++ (Path.plain names).text⟩ := by
      rw [pathOf_eq, Path.text_plain_append empty filled, pathOf_eq]
      simp only [String.append_assoc]
    rw [text]
    unfold Path.join
    rw [Path.isAbsolute_plain right, ending, if_neg (by decide)]
    split
    · rename_i absent
      cases absent
    · rename_i same
      exact (different (Option.some.inj same)).elim
    · rfl

theorem placed_pathOf (loc : Location) :
    Path.placed (pathOf loc).text.toList = (.root, 1) ::
      Path.placed.go 1 (Path.plain loc).segments := by
  have split := segments_pathOf loc
  have absolute := isAbsolute_pathOf loc
  rw [Path.segments] at split
  rw [Path.isAbsolute] at absolute
  unfold Path.placed
  simp only [split, absolute, if_true]
  rfl

theorem parent?_pathOf {loc : Location} {name : String}
    (valid : ∀ other ∈ loc ++ [name], Path.IsName other) :
    (pathOf (loc ++ [name])).parent? = some (pathOf loc) := by
  have split := Path.segments_plain valid (by simp)
  have comps : (Path.placed.go 1 (Path.plain (loc ++ [name])).segments).map (·.1) =
      loc.map Component.normal ++ [.normal name] := by
    rw [Path.go_fst, split, Path.filterMap_names valid, List.map_append]
    rfl
  obtain ⟨front, entries, parts, frontComps, entryComps⟩ := List.map_eq_append_iff.mp comps
  obtain ⟨⟨c, stop⟩, rest, rfl, _, tail⟩ := List.map_eq_cons_iff.mp entryComps
  rw [List.map_eq_nil_iff.mp tail] at parts
  unfold Path.parent?
  rw [placed_pathOf, parts, List.reverse_cons, List.reverse_append, List.reverse_singleton,
    List.singleton_append, List.cons_append]
  rename_i head
  simp only at head
  subst head
  rcases List.eq_nil_or_concat loc with rfl | ⟨outer, last, rfl⟩
  · rw [List.map_eq_nil_iff.mp frontComps, toList_pathOf]
    rfl
  · rw [List.concat_eq_append] at valid split parts frontComps ⊢
    rw [List.map_append] at frontComps
    obtain ⟨before, entries, rfl, beforeComps, entryComps⟩ := List.map_eq_append_iff.mp frontComps
    obtain ⟨⟨c, cut⟩, rest, rfl, head, tail⟩ := List.map_eq_cons_iff.mp entryComps
    rw [List.map_eq_nil_iff.mp tail] at parts ⊢
    obtain ⟨kept, filled, inside, keptComps, bound, text, _⟩ :=
      Path.go_cut (parts.trans (List.append_assoc before [(c, cut)] _))
    -- All stretches are names, so the ones that are kept are the names of the directory.
    have names : kept = (outer ++ [last]).map String.toList := by
      rw [split] at inside
      obtain ⟨few, within, rfl⟩ := List.prefix_map_iff.mp inside
      have proper : ∀ other ∈ few, Path.IsName other := fun other member =>
        valid other (within.subset member)
      rw [Path.filterMap_names proper, beforeComps, show c = .normal last from head,
        ← List.map_singleton, ← List.map_append] at keptComps
      rw [(List.map_inj_right (fun _ _ same => Component.normal.inj same)).mp keptComps]
    rw [List.reverse_append, List.reverse_singleton, List.singleton_append, toList_pathOf]
    simp only [List.cons_append]
    rw [Path.intercalate_segments, names] at text
    obtain ⟨cut, rfl⟩ : ∃ n, cut = n + 1 := ⟨cut - 1, by omega⟩
    rw [List.take_succ_cons]
    rw [Nat.add_sub_cancel] at text
    rw [text, pathOf_eq, ← Path.toList_plain]
    congr 2
    apply String.toList_inj.mp
    simp

/-! ### Trees -/

/-- Directories and files, each in a directory, and no links. -/
structure IsTree (d : Disk) : Prop where
  topless : ∀ entry ∈ d.nodes.entries, entry.1 ≠ []
  named : ∀ loc n, d.at? loc = some n → ∀ name ∈ loc, Path.IsName name
  closed : ∀ loc n, d.at? loc = some n → d.at? loc.dropLast = some .dir
  linkless : ∀ loc target, d.at? loc ≠ some (.link target)

@[simp] theorem at?_nil (d : Disk) : d.at? [] = some .dir := rfl

theorem at?_of_mem {d : Disk} (tree : d.IsTree) {loc : Location} {n : Node}
    (member : (loc, n) ∈ d.nodes.entries) : d.at? loc = some n := by
  have proper := tree.topless _ member
  rw [at?, if_neg proper]
  exact Table.find?_of_mem member

theorem mem_of_at? {d : Disk} {loc : Location} {n : Node} (there : d.at? loc = some n)
    (proper : loc ≠ []) : (loc, n) ∈ d.nodes.entries := by
  rw [at?, if_neg proper] at there
  obtain ⟨key, same, member⟩ := Table.find?_mem there
  rw [Std.compare_eq_iff_eq] at same
  exact same ▸ member

theorem IsTree.eq_of_at? {d d' : Disk} (left : d.IsTree) (right : d'.IsTree) (here : d.here = d'.here)
    (same : ∀ loc, d.at? loc = d'.at? loc) : d = d' := by
  have nodes : d.nodes = d'.nodes := by
    refine Table.eq_of_find? fun loc => ?_
    by_cases top : loc = []
    · have none : ∀ {d : Disk}, d.IsTree → d.nodes.find? loc = none := by
        intro d tree
        cases found : d.nodes.find? loc with
        | none => rfl
        | some n =>
          obtain ⟨key, equal, member⟩ := Table.find?_mem found
          rw [Std.compare_eq_iff_eq] at equal
          exact (tree.topless _ member (equal.symm.trans top)).elim
      rw [none left, none right]
    · have found := same loc
      rwa [at?, at?, if_neg top, if_neg top] at found
  cases d
  cases d'
  rw [Disk.mk.injEq]
  exact ⟨nodes, here⟩

def Node.isLink : Node → Bool
  | .link _ => true
  | _ => false

/-- A tree can be checked node by node. -/
theorem isTree_iff {d : Disk} : d.IsTree ↔ ∀ entry ∈ d.nodes.entries, entry.1 ≠ [] ∧
    (∀ name ∈ entry.1, Path.IsName name) ∧ d.at? entry.1.dropLast = some .dir ∧
    entry.2.isLink = false := by
  constructor
  · intro tree entry member
    have there := at?_of_mem tree member
    refine ⟨tree.topless entry member, tree.named _ _ there, tree.closed _ _ there, ?_⟩
    cases node : entry.2 with
    | link target => exact (tree.linkless _ target (node ▸ there)).elim
    | _ => rfl
  · intro checked
    have entries : ∀ loc n, d.at? loc = some n → loc = [] ∧ n = .dir ∨ (loc, n) ∈ d.nodes.entries := by
      intro loc n there
      by_cases top : loc = []
      · subst top
        cases there
        exact Or.inl ⟨rfl, rfl⟩
      · exact Or.inr (mem_of_at? there top)
    constructor
    · exact fun entry member => (checked entry member).1
    · intro loc n there
      rcases entries loc n there with ⟨rfl, _⟩ | member
      · simp
      · exact (checked _ member).2.1
    · intro loc n there
      rcases entries loc n there with ⟨rfl, _⟩ | member
      · rfl
      · exact (checked _ member).2.2.1
    · intro loc target there
      rcases entries loc _ there with ⟨_, same⟩ | member
      · cases same
      · cases (checked _ member).2.2.2

instance (d : Disk) : Decidable d.IsTree := decidable_of_iff _ isTree_iff.symm

theorem IsTree.above {d : Disk} (tree : d.IsTree) {loc above : Location} {n : Node}
    (there : d.at? loc = some n) (within : above <+: loc) (proper : above ≠ loc) :
    d.at? above = some .dir := by
  induction hl : loc.length generalizing loc n with
  | zero =>
    have empty : loc = [] := List.length_eq_zero_iff.mp hl
    subst empty
    exact (proper (List.prefix_nil.mp within)).elim
  | succ k ih =>
    obtain ⟨front, last, rfl⟩ := (List.eq_nil_or_concat loc).resolve_left (by rintro rfl; simp at hl)
    rw [List.concat_eq_append] at there within proper hl
    have parent : d.at? front = some .dir := by simpa using tree.closed _ _ there
    rcases List.prefix_concat_iff.mp within with same | inside
    · exact (proper same).elim
    · by_cases equal : above = front
      · rw [equal]
        exact parent
      · exact ih parent inside equal (by simpa using hl)

theorem IsTree.way {d : Disk} (tree : d.IsTree) {loc above : Location} (dir : d.at? loc = some .dir)
    (within : above <+: loc) : d.at? above = some .dir := by
  by_cases same : above = loc
  · rw [same, dir]
  · exact tree.above dir within same

def IsBlocked (d : Disk) (loc : Location) :
    Prop := ∃ above c, above <+: loc ∧ d.at? above = some (.file c)

def Finds (d : Disk) (loc : Location) : Except IoFault Place → Prop
  | .ok (.taken found n) => found = loc ∧ d.at? loc = some n
  | .ok (.free found) => found = loc ∧ loc ≠ [] ∧ d.at? loc = none ∧ d.at? loc.dropLast = some .dir
  | .error .notFound => d.at? loc = none ∧ d.at? loc.dropLast ≠ some .dir ∧ ¬ d.IsBlocked loc
  | .error _ => d.at? loc = none ∧ d.at? loc.dropLast ≠ some .dir ∧ d.IsBlocked loc

theorem IsTree.below_none {d : Disk} (tree : d.IsTree) {loc below : Location} (gone : d.at? loc = none)
    (within : loc <+: below) : d.at? below = none := by
  cases there : d.at? below with
  | none => rfl
  | some n =>
    by_cases same : loc = below
    · rw [same, there] at gone
      cases gone
    · rw [tree.above there within same] at gone
      cases gone

theorem IsTree.below_file {d : Disk} (tree : d.IsTree) {loc below : Location} {c : Text.Bytes}
    (file : d.at? loc = some (.file c)) (within : loc <+: below) (proper : loc ≠ below) :
    d.at? below = none := by
  cases there : d.at? below with
  | none => rfl
  | some n =>
    rw [tree.above there within proper] at file
    cases file

theorem IsTree.finds_nothing {d : Disk} (tree : d.IsTree) {loc : Location}
    (here : d.at? loc = some .dir) {name : String}
    (next : d.at? (loc ++ [name]) = none) {rest : List String} (filled : rest ≠ []) :
    d.Finds (loc ++ [name] ++ rest) (.error .notFound) := by
  have under : loc ++ [name] <+: loc ++ [name] ++ rest := List.prefix_append _ _
  refine ⟨tree.below_none next under, ?_, ?_⟩
  · rw [List.dropLast_append_of_ne_nil filled, tree.below_none next (List.prefix_append _ _)]
    simp
  · rintro ⟨above, c, within, file⟩
    rcases List.prefix_or_prefix_of_prefix within under with shorter | longer
    · by_cases same : above = loc ++ [name]
      · rw [same, next] at file
        cases file
      · have outer : above <+: loc := (List.prefix_concat_iff.mp shorter).resolve_left same
        rw [tree.way here outer] at file
        cases file
    · rw [tree.below_none next longer] at file
      cases file

theorem IsTree.finds_blocked {d : Disk} (tree : d.IsTree) {loc : Location} {c : Text.Bytes}
    (file : d.at? loc = some (.file c)) {rest : List String} (filled : rest ≠ []) :
    d.Finds (loc ++ rest) (.error .notDirectory) := by
  refine ⟨tree.below_file file (List.prefix_append _ _) (by simpa using filled), ?_,
    ⟨loc, c, List.prefix_append _ _, file⟩⟩
  rw [List.dropLast_append_of_ne_nil filled]
  intro dir
  rw [tree.way dir (List.prefix_append _ _)] at file
  cases file

theorem advance_finds {d : Disk} (tree : d.IsTree) (follow : Bool)
    (hop : Location → List Step → Except IoFault Place)
    {loc : Location} (names : List String) (here : d.at? loc = some .dir) :
    d.Finds (loc ++ names) (d.advance follow hop loc (names.map .into)) := by
  induction names generalizing loc with
  | nil =>
    rw [List.map_nil, advance, here, List.append_nil]
    exact ⟨rfl, here⟩
  | cons name rest ih =>
    have last : (rest.map Step.into).isEmpty = true ↔ rest = [] := by simp
    rw [List.map_cons, advance, show loc ++ name :: rest = loc ++ [name] ++ rest by simp]
    cases next : d.at? (loc ++ [name]) with
    | none =>
      simp only [last]
      split
      · rename_i final
        subst final
        rw [List.append_nil]
        exact ⟨rfl, by simp, next, by simpa using here⟩
      · rename_i filled
        exact tree.finds_nothing here next filled
    | some n =>
      cases n with
      | dir => exact ih next
      | file c =>
        simp only [last]
        split
        · rename_i final
          subst final
          rw [List.append_nil]
          exact ⟨rfl, next⟩
        · rename_i filled
          exact tree.finds_blocked next filled
      | link target => exact (tree.linkless _ _ next).elim

theorem stepOf_name {name : String} (valid : Path.IsName name) : stepOf name.toList = .into name := by
  have proper := valid.toList_ne
  have dots : name.toList ≠ ['.', '.'] := fun double =>
    valid.2.2.2 (String.toList_inj.mp (double.trans (by decide)))
  rw [stepOf, if_neg (by simpa using ⟨valid.2.1, proper.2⟩), if_neg dots, String.ofList_toList]

theorem stepsOf_pathOf {loc : Location} (valid : ∀ name ∈ loc, Path.IsName name) :
    ∃ stays, stepsOf (pathOf loc).text = List.replicate stays .stay ++ loc.map .into := by
  have split := segments_pathOf loc
  rw [Path.segments] at split
  rw [stepsOf, split]
  by_cases empty : loc = []
  · subst empty
    exact ⟨2, rfl⟩
  · refine ⟨1, ?_⟩
    rw [Path.segments_plain valid empty, List.map_cons, List.map_map]
    congr 1
    apply List.map_congr_left
    intro name member
    exact stepOf_name (valid name member)

theorem advance_stays (d : Disk) (follow : Bool) (hop : Location → List Step → Except IoFault Place)
    (loc : Location) (stays : Nat) (steps : List Step) :
    d.advance follow hop loc (List.replicate stays .stay ++ steps) =
      d.advance follow hop loc steps := by
  induction stays with
  | zero => rfl
  | succ n ih => rw [List.replicate_succ, List.cons_append, advance, ih]

theorem walk_advances (d : Disk) (follow : Bool) (links : Nat) :
    ∃ hop, d.walk follow links = d.advance follow hop := by
  cases links with
  | zero => exact ⟨_, rfl⟩
  | succ links => exact ⟨_, rfl⟩

theorem locate_pathOf {d : Disk} (tree : d.IsTree) (follow : Bool) {loc : Location}
    (valid : ∀ name ∈ loc, Path.IsName name) : d.Finds loc (d.locate follow (pathOf loc)) := by
  obtain ⟨stays, steps⟩ := stepsOf_pathOf valid
  obtain ⟨hop, same⟩ := walk_advances d follow maxLinks
  rw [locate, if_neg (text_pathOf_ne loc), isAbsolute_pathOf, steps, if_pos rfl, same, advance_stays]
  exact advance_finds tree follow hop loc (at?_nil d)

end Disk

end Relocation
