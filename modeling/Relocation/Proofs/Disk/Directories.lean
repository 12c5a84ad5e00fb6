import Relocation.Proofs.Disk.Operations
import Relocation.Disk.Volume

/-!
# Creating directories

`createDirs` makes the directories on the way to a location that are absent, outermost first, unless
a file is in the way. Stopping it on the way leaves what it would have made for an outer location.
-/

namespace Relocation.Disk

variable {d : Disk} {loc : Location}

def absent (d : Disk) (loc : Location) : List Location := loc.inits.filter fun l => (d.at? l).isNone

/-- The disk with every directory on the way to a location. -/
def makeDirs (d : Disk) (loc : Location) : Disk := (d.absent loc).foldl (fun d l => d.put l .dir) d

theorem mem_absent {l : Location} : l ∈ d.absent loc ↔ l <+: loc ∧ d.at? l = none := by
  simp [absent]

theorem absent_concat (front : Location) (name : String) : d.absent (front ++ [name]) =
    d.absent front ++ if d.at? (front ++ [name]) = none then [front ++ [name]] else [] := by
  unfold absent
  rw [List.inits_append, List.filter_append]
  congr 1
  split
  · rename_i gone
    simp [gone]
  · rename_i there
    obtain ⟨n, found⟩ := Option.ne_none_iff_exists'.mp there
    simp [found]

theorem at?_foldl_put (ls : List Location) (proper : [] ∉ ls) (d : Disk) (l : Location) :
    (ls.foldl (fun d l => d.put l .dir) d).at? l = if l ∈ ls then some .dir else d.at? l := by
  induction ls generalizing d with
  | nil => simp
  | cons first rest ih =>
    have filled : first ≠ [] := fun empty => proper (by simp [empty])
    rw [List.foldl_cons, ih (fun member => proper (List.mem_cons_of_mem _ member)), at?_put filled]
    by_cases inside : l ∈ rest
    · simp [inside]
    · simp [inside]

theorem nil_notMem_absent : [] ∉ d.absent loc := by
  rw [mem_absent]
  rintro ⟨_, gone⟩
  cases gone

theorem at?_makeDirs (l : Location) :
    (d.makeDirs loc).at? l = if l <+: loc ∧ d.at? l = none then some .dir else d.at? l := by
  rw [makeDirs, at?_foldl_put _ nil_notMem_absent]
  simp only [mem_absent]

theorem makeDirs_concat (front : Location) (name : String) (gone : d.at? (front ++ [name]) = none) :
    d.makeDirs (front ++ [name]) = (d.makeDirs front).put (front ++ [name]) .dir := by
  rw [makeDirs, absent_concat, if_pos gone, List.foldl_append]
  rfl

theorem IsTree.absent_nil (tree : d.IsTree) {n : Node} (there : d.at? loc = some n) :
    d.absent loc = [] := by
  apply List.eq_nil_iff_forall_not_mem.mpr
  intro l member
  obtain ⟨within, gone⟩ := mem_absent.mp member
  rw [tree.below_none gone within] at there
  cases there

theorem IsTree.makeDirs_self (tree : d.IsTree) {n : Node} (there : d.at? loc = some n) :
    d.makeDirs loc = d := by
  rw [makeDirs, tree.absent_nil there]
  rfl

theorem IsBlocked.mono {outer : Location} (within : outer <+: loc) (blocked : d.IsBlocked outer) :
    d.IsBlocked loc := by
  obtain ⟨above, c, inside, file⟩ := blocked
  exact ⟨above, c, inside.trans within, file⟩

theorem IsTree.at?_of_clear (tree : d.IsTree) (clear : ¬ d.IsBlocked loc) {l : Location}
    (within : l <+: loc) {n : Node} (there : d.at? l = some n) : n = .dir := by
  cases n with
  | dir => rfl
  | file c => exact (clear ⟨l, c, within, there⟩).elim
  | link target => exact (tree.linkless _ _ there).elim

theorem IsTree.makeDirs_dir (tree : d.IsTree) (clear : ¬ d.IsBlocked loc) {l : Location}
    (within : l <+: loc) : (d.makeDirs loc).at? l = some .dir := by
  rw [at?_makeDirs]
  split
  · rfl
  · rename_i there
    obtain ⟨n, found⟩ := Option.ne_none_iff_exists'.mp fun gone => there ⟨within, gone⟩
    rw [found, tree.at?_of_clear clear within found]

theorem IsTree.makeDirs (tree : d.IsTree) (valid : ∀ name ∈ loc, Path.IsName name)
    (clear : ¬ d.IsBlocked loc) : (d.makeDirs loc).IsTree := by
  induction hl : loc.length generalizing loc with
  | zero =>
    have empty : loc = [] := List.length_eq_zero_iff.mp hl
    subst empty
    rw [tree.makeDirs_self (at?_nil d)]
    exact tree
  | succ n ih =>
    obtain ⟨front, last, rfl⟩ := (List.eq_nil_or_concat loc).resolve_left (by rintro rfl; simp at hl)
    rw [List.concat_eq_append] at hl valid clear ⊢
    cases there : d.at? (front ++ [last]) with
    | some n =>
      rw [tree.makeDirs_self there]
      exact tree
    | none =>
      have outer : ¬ d.IsBlocked front := fun blocked => clear (blocked.mono (List.prefix_append _ _))
      have inner := ih (fun name member => valid name (List.mem_append_left _ member)) outer
        (by simpa using hl)
      rw [makeDirs_concat front last there]
      refine inner.put (by simp) valid ?_ (by simp) (Or.inl rfl)
      rw [List.dropLast_concat]
      exact tree.makeDirs_dir outer (List.prefix_refl _)

theorem IsTree.takes_makeDirs (tree : d.IsTree) (proper : loc ≠ [])
    (clear : ¬ d.IsBlocked loc.dropLast) (open' : d.at? loc ≠ some .dir) :
    (d.makeDirs loc.dropLast).Takes loc := by
  have parent := tree.makeDirs_dir clear (List.prefix_refl loc.dropLast)
  have same : (d.makeDirs loc.dropLast).at? loc = d.at? loc := by
    rw [at?_makeDirs, if_neg]
    rintro ⟨within, _⟩
    exact dropLast_ne proper (within.eq_of_length_le (List.dropLast_prefix loc).length_le).symm
  cases there : d.at? loc with
  | none => exact Or.inr ⟨same.trans there, parent⟩
  | some n =>
    cases n with
    | dir => exact (open' there).elim
    | link target => exact (tree.linkless _ _ there).elim
    | file c => exact Or.inl ⟨c, same.trans there⟩

/-! ### `createDirs` -/

theorem unslashed_of_last {p : Path} {c : Char} (last : p.text.toList.getLast? = some c)
    (different : c ≠ '/') : unslashed p = p := by
  obtain ⟨front, text⟩ := List.getLast?_eq_some_iff.mp last
  have kept : (p.text.toList.reverse.dropWhile (· == '/')).reverse = p.text.toList := by
    rw [text, List.reverse_append, List.reverse_singleton, List.singleton_append,
      List.dropWhile_cons_of_neg (by simpa using different)]
    simp
  unfold unslashed
  rw [kept]
  split
  · rfl
  · rw [String.ofList_toList]

theorem unslashed_pathOf (valid : ∀ name ∈ loc, Path.IsName name) :
    unslashed (pathOf loc) = pathOf loc := by
  by_cases empty : loc = []
  · subst empty
    decide
  · obtain ⟨c, last, different⟩ := Path.getLast?_plain valid empty
    refine unslashed_of_last ?_ different
    rw [toList_pathOf, List.getLast?_cons, last]
    rfl

section EnsureDir

variable (tree : d.IsTree) (valid : ∀ name ∈ loc, Path.IsName name)
include tree valid

theorem ensureDir_taken {n : Node} (there : d.at? loc = some n) :
    (n = .dir ∧ d.ensureDir (pathOf loc) = .ok d) ∨
      (n ≠ .dir ∧ d.ensureDir (pathOf loc) = .error .alreadyExists) := by
  have created : d.createDir (pathOf loc) = .error .alreadyExists := by
    rw [createDir, unslashed_pathOf valid, locate_taken tree valid false there]
    rfl
  unfold ensureDir
  rw [created]
  by_cases dir : n = .dir
  · subst dir
    exact Or.inl ⟨rfl, if_pos ((isDir_pathOf tree valid).mpr there)⟩
  · refine Or.inr ⟨dir, if_neg ?_⟩
    rw [isDir_pathOf tree valid, there]
    simpa using dir

theorem ensureDir_free (gone : d.at? loc = none) (parent : d.at? loc.dropLast = some .dir) :
    d.ensureDir (pathOf loc) = .ok (d.put loc .dir) := by
  rw [ensureDir, createDir, unslashed_pathOf valid, locate_free tree valid false gone parent]
  rfl

theorem ensureDir_lost (gone : d.at? loc = none) (parent : d.at? loc.dropLast ≠ some .dir) :
    ∃ e, d.ensureDir (pathOf loc) = .error e ∧ (e = .notFound ↔ ¬ d.IsBlocked loc) := by
  obtain ⟨e, lost, kind⟩ := locate_lost tree valid false gone parent
  have created : d.createDir (pathOf loc) = .error e := by
    rw [createDir, unslashed_pathOf valid, lost]
    rfl
  refine ⟨e, ?_, kind⟩
  rw [ensureDir, created]
  refine if_neg ?_
  rw [isDir_pathOf tree valid, gone]
  simp

end EnsureDir

theorem createDirsUpTo_pathOf (tree : d.IsTree) (valid : ∀ name ∈ loc, Path.IsName name) {depth : Nat}
    (enough : loc.length < depth) :
    (¬ d.IsBlocked loc ∧ d.createDirsUpTo (pathOf loc) depth = .ok (d.makeDirs loc)) ∨
      (d.IsBlocked loc ∧ ∃ e, d.createDirsUpTo (pathOf loc) depth = .error e) := by
  induction depth generalizing loc with
  | zero => simp at enough
  | succ depth ih =>
    rw [createDirsUpTo, if_neg (text_pathOf_ne loc)]
    cases there : d.at? loc with
    | some n =>
      rcases ensureDir_taken tree valid there with ⟨rfl, done⟩ | ⟨file, failed⟩
      · refine Or.inl ⟨?_, by rw [done, tree.makeDirs_self there]⟩
        rintro ⟨above, c, within, blocked⟩
        rw [tree.way there within] at blocked
        cases blocked
      · refine Or.inr ⟨?_, .alreadyExists, by rw [failed]⟩
        cases n with
        | dir => exact (file rfl).elim
        | file c => exact ⟨loc, c, List.prefix_refl _, there⟩
        | link target => exact (tree.linkless _ _ there).elim
    | none =>
      obtain ⟨front, last, rfl⟩ := (List.eq_nil_or_concat loc).resolve_left
        (by rintro rfl; cases there)
      rw [List.concat_eq_append] at *
      by_cases parent : d.at? (front ++ [last]).dropLast = some .dir
      · have above : d.at? front = some .dir := by simpa using parent
        refine Or.inl ⟨?_, ?_⟩
        · rintro ⟨outer, c, within, blocked⟩
          rcases List.prefix_concat_iff.mp within with same | inside
          · rw [same, there] at blocked
            cases blocked
          · rw [tree.way above inside] at blocked
            cases blocked
        · rw [ensureDir_free tree valid there parent, makeDirs_concat front last there,
            tree.makeDirs_self above]
      · obtain ⟨e, lost, kind⟩ := ensureDir_lost tree valid there parent
        by_cases blocked : d.IsBlocked (front ++ [last])
        · refine Or.inr ⟨blocked, e, ?_⟩
          rw [lost]
          have other : e ≠ .notFound := fun same => kind.mp same blocked
          cases e <;> first | rfl | exact (other rfl).elim
        · have outerValid : ∀ name ∈ front, Path.IsName name := fun name member =>
            valid name (List.mem_append_left _ member)
          have outer : ¬ d.IsBlocked front := fun b => blocked (b.mono (List.prefix_append _ _))
          rcases ih outerValid (by simpa using enough) with ⟨_, made⟩ | ⟨stuck, _⟩
          · refine Or.inl ⟨blocked, ?_⟩
            rw [lost, kind.mpr blocked, parent?_pathOf valid]
            simp only [made, bind, Except.bind]
            have inner := tree.makeDirs outerValid outer
            rw [makeDirs_concat front last there]
            apply ensureDir_free inner valid
            · rw [at?_makeDirs, if_neg, there]
              rintro ⟨within, _⟩
              have short := within.length_le
              rw [List.length_append, List.length_singleton] at short
              omega
            · rw [List.dropLast_concat]
              exact tree.makeDirs_dir outer (List.prefix_refl _)
          · exact (outer stuck).elim

theorem createDirs_pathOf (tree : d.IsTree) (valid : ∀ name ∈ loc, Path.IsName name) {d' : Disk} :
    d.createDirs (pathOf loc) = .ok d' ↔ ¬ d.IsBlocked loc ∧ d' = d.makeDirs loc := by
  have enough : loc.length < (pathOf loc).components.length + 1 := by
    rw [components_pathOf valid, List.length_cons, List.length_map]
    omega
  rw [createDirs]
  rcases createDirsUpTo_pathOf tree valid enough with ⟨clear, made⟩ | ⟨blocked, e, failed⟩
  · rw [made]
    constructor
    · intro same
      exact ⟨clear, (Except.ok.inj same).symm⟩
    · rintro ⟨_, rfl⟩
      rfl
  · rw [failed]
    constructor
    · intro same
      cases same
    · rintro ⟨clear, _⟩
      exact (clear blocked).elim

/-! ### Directories that are missing -/

theorem ancestors_pathOf (valid : ∀ name ∈ loc, Path.IsName name) :
    (pathOf loc).ancestors = loc.inits.reverse.map pathOf := by
  have climb : ∀ (depth : Nat) (loc : Location), (∀ name ∈ loc, Path.IsName name) →
      loc.length < depth → Path.ancestors.go depth (pathOf loc) = loc.inits.reverse.map pathOf := by
    intro depth
    induction depth with
    | zero => intro loc _ enough; simp at enough
    | succ depth ih =>
      intro loc valid enough
      rw [Path.ancestors.go]
      rcases List.eq_nil_or_concat loc with rfl | ⟨front, last, rfl⟩
      · rfl
      · rw [List.concat_eq_append] at valid enough ⊢
        rw [parent?_pathOf valid]
        simp only
        rw [ih front (fun name member => valid name (List.mem_append_left _ member))
          (by simpa using enough), List.inits_append]
        simp
  rw [Path.ancestors, components_pathOf valid]
  exact climb _ loc valid (by rw [List.length_cons, List.length_map]; omega)

/-- Stopping on the way makes the directories above an outer location. -/
theorem createDirs_partway (tree : d.IsTree) (valid : ∀ name ∈ loc, Path.IsName name) (levels : Nat)
    {d' : Disk} (made : d.createDirs ((pathOf loc).ancestors.getD levels ⟨""⟩) = .ok d') :
    ∃ outer, outer <+: loc ∧ ¬ d.IsBlocked outer ∧ d' = d.makeDirs outer := by
  rw [ancestors_pathOf valid, List.getD_eq_getElem?_getD, List.getElem?_map] at made
  cases found : loc.inits.reverse[levels]? with
  | some outer =>
    rw [found] at made
    have inside : outer <+: loc :=
      (List.mem_inits _ _).mp (List.mem_reverse.mp (List.mem_of_getElem? found))
    have outerValid : ∀ name ∈ outer, Path.IsName name := fun name member =>
      valid name (inside.subset member)
    exact ⟨outer, inside, (createDirs_pathOf tree outerValid).mp made⟩
  | none =>
    rw [found] at made
    have same : d' = d := (Except.ok.inj made).symm
    refine ⟨[], List.nil_prefix, ?_, by rw [same, tree.makeDirs_self (at?_nil d)]⟩
    rintro ⟨outer, c, inside, file⟩
    rw [List.prefix_nil.mp inside, at?_nil] at file
    cases file

theorem takeWhile_absent (tree : d.IsTree) (loc : Location) :
    (loc.inits.reverse.takeWhile fun l => (d.at? l).isNone).reverse = d.absent loc := by
  induction hl : loc.length generalizing loc with
  | zero =>
    have empty : loc = [] := List.length_eq_zero_iff.mp hl
    subst empty
    simp [absent]
  | succ n ih =>
    obtain ⟨front, last, rfl⟩ := (List.eq_nil_or_concat loc).resolve_left (by rintro rfl; simp at hl)
    rw [List.concat_eq_append] at hl ⊢
    have split : (front ++ [last]).inits.reverse = (front ++ [last]) :: front.inits.reverse := by
      rw [List.inits_append]
      simp
    rw [split]
    cases there : d.at? (front ++ [last]) with
    | some n =>
      rw [List.takeWhile_cons_of_neg (by simp [there]), tree.absent_nil there]
      rfl
    | none =>
      rw [List.takeWhile_cons_of_pos (by simp [there]), List.reverse_cons, ih front
        (by simpa using hl), absent_concat, if_pos there]

theorem startsWith_pathOf {top l : Location} (left : ∀ name ∈ top, Path.IsName name)
    (right : ∀ name ∈ l, Path.IsName name) :
    (pathOf l).startsWith (pathOf top) = true ↔ top <+: l := by
  rw [Path.startsWith, components_pathOf left, components_pathOf right, List.isPrefixOf_iff_prefix,
    List.cons_prefix_cons]
  constructor
  · rintro ⟨_, inside⟩
    obtain ⟨few, within, same⟩ := List.prefix_map_iff.mp inside
    rw [(List.map_inj_right (fun _ _ equal => Component.normal.inj equal)).mp same]
    exact within
  · intro within
    exact ⟨rfl, within.map _⟩

theorem missingDirs_pathOf (tree : d.IsTree) {top : Location} {names : List String}
    (valid : ∀ name ∈ top ++ names, Path.IsName name) {n : Node} (here : d.at? top = some n) :
    missingDirs d (pathOf top) (pathOf (top ++ names)) = (d.absent (top ++ names)).map pathOf := by
  have topValid : ∀ name ∈ top, Path.IsName name := fun name member =>
    valid name (List.mem_append_left _ member)
  rw [missingDirs, ancestors_pathOf valid, List.takeWhile_map, ← List.map_reverse,
    ← takeWhile_absent tree]
  congr 2
  refine takeWhile_agree fun l member => ?_
  have within : l <+: top ++ names := (List.mem_inits _ _).mp (List.mem_reverse.mp member)
  have lValid : ∀ name ∈ l, Path.IsName name := fun name inside => valid name (within.subset inside)
  rw [Function.comp_apply, exists?_pathOf tree lValid]
  cases there : d.at? l with
  | some n => simp
  | none =>
    -- What is absent is no part of the way to `top`, so it lies below.
    have below : top <+: l ∧ top ≠ l := by
      have apart : ∀ outer, outer <+: top → outer ≠ l := by
        rintro outer inside rfl
        rw [tree.below_none there inside] at here
        cases here
      rcases List.prefix_or_prefix_of_prefix (List.prefix_append top names) within with inner | outer
      · exact ⟨inner, apart top (List.prefix_refl _)⟩
      · exact (apart l outer rfl).elim
    have different : (pathOf l).same (pathOf top) = false := by
      rw [← Bool.not_eq_true, Path.same_iff, components_pathOf lValid, components_pathOf topValid]
      intro same
      exact below.2 ((List.map_inj_right (fun _ _ equal => Component.normal.inj equal)).mp
        (List.cons.inj same).2).symm
    rw [different, (startsWith_pathOf topValid lValid).mpr below.1]
    rfl

/-- Names behind others: the positions at which they stand. -/
theorem go_drop {top : List String} {name : String} {rest : List String} (offset : Nat)
    (valid : ∀ other ∈ top ++ name :: rest, Path.IsName other) :
    ∃ start more, (Path.placed.go offset ((top ++ name :: rest).map String.toList)).drop top.length =
        (.normal name, offset + start + name.toList.length) :: more ∧
      (['/'].intercalate ((top ++ name :: rest).map String.toList)).drop start =
        ['/'].intercalate ((name :: rest).map String.toList) := by
  induction top generalizing offset with
  | nil =>
    have proper := valid name (by simp)
    refine ⟨0, Path.placed.go (offset + name.toList.length + 1) (rest.map String.toList), ?_, rfl⟩
    rw [List.nil_append, List.map_cons, Path.placed.go, Path.segment?_name proper]
    rfl
  | cons first others ih =>
    have proper := valid first (by simp)
    obtain ⟨start, more, entries, text⟩ := ih (offset + first.toList.length + 1)
      fun other member => valid other (List.mem_cons_of_mem _ member)
    refine ⟨first.toList.length + 1 + start, more, ?_, ?_⟩
    · rw [List.cons_append, List.map_cons, Path.placed.go, Path.segment?_name proper, List.length_cons]
      change List.drop others.length (Path.placed.go _ _) = _
      rw [entries]
      congr 2
      omega
    · rw [List.cons_append, List.map_cons, List.intercalate_cons_of_ne_nil (by simp),
        List.append_assoc,
        show first.toList.length + 1 + start = first.toList.length + (start + 1) by omega,
        ← List.drop_drop, List.drop_left', List.singleton_append, List.drop_succ_cons]
      · exact text
      · rfl

theorem relativeTo?_pathOf {top names : List String} (valid : ∀ name ∈ top ++ names, Path.IsName name)
    (filled : names ≠ []) :
    (pathOf (top ++ names)).relativeTo? (pathOf top) = some (Path.plain names) := by
  have topValid : ∀ name ∈ top, Path.IsName name := fun name member =>
    valid name (List.mem_append_left _ member)
  have inside := (startsWith_pathOf topValid valid).mpr (List.prefix_append top names)
  obtain ⟨name, rest, rfl⟩ := List.exists_cons_of_ne_nil filled
  have split := Path.segments_plain valid (by simp)
  obtain ⟨start, more, entries, text⟩ := go_drop 1 valid
  have dropped : (Path.placed (pathOf (top ++ name :: rest)).text.toList).drop
      (pathOf top).components.length = (.normal name, 1 + start + name.toList.length) :: more := by
    rw [placed_pathOf, components_pathOf topValid, List.length_cons, List.length_map,
      List.drop_succ_cons, split, entries]
  -- The last component ends with the text.
  have whole : ∀ c last,
      (Path.placed.go 1 ((top ++ name :: rest).map String.toList)).getLast? = some (c, last) →
      1 ≤ last ∧ (['/'].intercalate ((top ++ name :: rest).map String.toList)).take (last - 1) =
        ['/'].intercalate ((top ++ name :: rest).map String.toList) := by
    intro c last ending
    obtain ⟨before, parts⟩ := List.getLast?_eq_some_iff.mp ending
    obtain ⟨kept, _, within, comps, bound, cut, _⟩ := Path.go_cut parts
    obtain ⟨few, fewer, rfl⟩ := List.prefix_map_iff.mp within
    have all : few = top ++ name :: rest := by
      have total := (congrArg (List.map (·.1)) parts).trans List.map_append
      rw [Path.go_fst, Path.filterMap_names valid] at total
      rw [Path.filterMap_names fun other member => valid other (fewer.subset member)] at comps
      exact (List.map_inj_right (fun _ _ equal => Component.normal.inj equal)).mp
        (comps.trans total.symm)
    exact ⟨bound, by rw [cut, all]⟩
  rw [Path.relativeTo?, if_pos inside]
  simp only [dropped]
  cases ending : ((Component.normal name, 1 + start + name.toList.length) :: more).getLast? with
  | none => simp at ending
  | some entry =>
    obtain ⟨c, last⟩ := entry
    have final : (Path.placed.go 1 ((top ++ name :: rest).map String.toList)).getLast? =
        some (c, last) := by
      rw [← entries, List.getLast?_drop] at ending
      split at ending
      · cases ending
      · exact ending
    obtain ⟨bound, complete⟩ := whole c last final
    have length : (Component.normal name).text.length = name.toList.length := by
      rw [String.length_toList]
      rfl
    obtain ⟨last, rfl⟩ : ∃ n, last = n + 1 := ⟨last - 1, by omega⟩
    rw [Nat.add_sub_cancel] at complete
    simp only
    rw [length, Nat.add_sub_cancel, toList_pathOf, Path.toList_plain, List.take_succ_cons, complete,
      Nat.add_comm 1 start, List.drop_succ_cons, text, ← Path.toList_plain, String.ofList_toList]

end Relocation.Disk
