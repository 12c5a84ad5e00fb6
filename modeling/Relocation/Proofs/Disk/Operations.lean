import Relocation.Proofs.Disk.Lookup

/-!
# Operations on trees

When an operation on an absolute path succeeds in a tree, and what the tree is afterwards. Each
keeps the disk a tree, and each is described by what `at?` then finds at every location.
-/

namespace Relocation.Disk

variable {d : Disk} {loc : Location}

/-! ### Putting and erasing nodes -/

theorem at?_put (proper : loc ≠ []) (n : Node) (l : Location) :
    (d.put loc n).at? l = if l = loc then some n else d.at? l := by
  unfold at? put
  by_cases top : l = []
  · subst top
    rw [if_pos rfl, if_pos rfl, if_neg (Ne.symm proper)]
  · rw [if_neg top, if_neg top, Table.find?_insert]
    simp only [Std.compare_eq_iff_eq]

theorem at?_erase (proper : loc ≠ []) (l : Location) :
    (d.erase loc).at? l = if l = loc then none else d.at? l := by
  unfold at? erase
  by_cases top : l = []
  · subst top
    rw [if_pos rfl, if_pos rfl, if_neg (Ne.symm proper)]
  · rw [if_neg top, if_neg top]
    refine (Table.find?_filter (fun k => k ≠ loc) d.nodes l).trans ?_
    by_cases same : l = loc <;> simp [same]

theorem dropLast_ne (proper : loc ≠ []) : loc.dropLast ≠ loc := by
  intro same
  have length := congrArg List.length same
  rw [List.length_dropLast] at length
  have := List.length_pos_iff.mpr proper
  omega

/-- A new node, or another one in the place of a leaf. -/
theorem IsTree.put (tree : d.IsTree) (proper : loc ≠ []) (valid : ∀ name ∈ loc, Path.IsName name)
    (parent : d.at? loc.dropLast = some .dir) {n : Node} (linkless : ∀ target, n ≠ .link target)
    (leaf : n = .dir ∨ ∀ below, loc <+: below → loc ≠ below → d.at? below = none) :
    (d.put loc n).IsTree where
  topless := by
    intro entry member
    rcases Table.mem_insert member with old | ⟨key, _⟩
    · exact tree.topless entry old
    · rcases key with same | same
      · rw [Std.compare_eq_iff_eq] at same
        exact same ▸ proper
      · exact same ▸ proper
  named := by
    intro l m there
    rw [at?_put proper] at there
    split at there
    · rename_i same
      exact same ▸ valid
    · exact tree.named l m there
  closed := by
    intro l m there
    rw [at?_put proper] at there ⊢
    split at there
    · rename_i same
      rw [same, if_neg (dropLast_ne proper)]
      exact parent
    · have above := tree.closed l m there
      split
      · rename_i same
        rcases leaf with dir | nothing
        · rw [dir]
        · by_cases equal : loc = l
          · rw [← equal] at same
            exact (dropLast_ne proper same).elim
          · rw [nothing l (same ▸ List.dropLast_prefix l) equal] at there
            cases there
      · exact above
  linkless := by
    intro l target there
    rw [at?_put proper] at there
    split at there
    · exact linkless target (Option.some.inj there)
    · exact tree.linkless l target there

theorem IsTree.erase (tree : d.IsTree) (proper : loc ≠ [])
    (leaf : ∀ below, loc <+: below → loc ≠ below → d.at? below = none) : (d.erase loc).IsTree where
  topless := fun entry member => tree.topless entry (List.mem_of_mem_filter member)
  named := by
    intro l m there
    rw [at?_erase proper] at there
    split at there
    · cases there
    · exact tree.named l m there
  closed := by
    intro l m there
    rw [at?_erase proper] at there ⊢
    split at there
    · cases there
    · rename_i other
      have above := tree.closed l m there
      split
      · rename_i same
        rw [leaf l (same ▸ List.dropLast_prefix l) (Ne.symm other)] at there
        cases there
      · exact above
  linkless := by
    intro l target there
    rw [at?_erase proper] at there
    split at there
    · cases there
    · exact tree.linkless l target there

/-! ### Looking and reading -/

section Lookups

variable (tree : d.IsTree) (valid : ∀ name ∈ loc, Path.IsName name)
include tree valid

theorem locate_taken (follow : Bool) {n : Node} (there : d.at? loc = some n) :
    d.locate follow (pathOf loc) = .ok (.taken loc n) := by
  have found := locate_pathOf tree follow valid
  revert found
  generalize d.locate follow (pathOf loc) = result
  intro found
  match result with
  | .ok (.taken l m) =>
    obtain ⟨rfl, same⟩ := found
    rw [there] at same
    rw [Option.some.inj same]
  | .ok (.free l) => rw [found.2.2.1] at there; cases there
  | .error e => cases e <;> (rw [found.1] at there; cases there)

theorem locate_free (follow : Bool) (gone : d.at? loc = none)
    (parent : d.at? loc.dropLast = some .dir) : d.locate follow (pathOf loc) = .ok (.free loc) := by
  have found := locate_pathOf tree follow valid
  revert found
  generalize d.locate follow (pathOf loc) = result
  intro found
  match result with
  | .ok (.taken l m) => rw [found.2] at gone; cases gone
  | .ok (.free l) => rw [found.1]
  | .error e => cases e <;> exact (found.2.1 parent).elim

theorem locate_lost (follow : Bool) (gone : d.at? loc = none)
    (parent : d.at? loc.dropLast ≠ some .dir) :
    ∃ e, d.locate follow (pathOf loc) = .error e ∧ (e = .notFound ↔ ¬ d.IsBlocked loc) := by
  have found := locate_pathOf tree follow valid
  revert found
  generalize d.locate follow (pathOf loc) = result
  intro found
  match result with
  | .ok (.taken l m) => rw [found.2] at gone; cases gone
  | .ok (.free l) => exact (parent found.2.2.2).elim
  | .error .notFound => exact ⟨_, rfl, fun _ => found.2.2, fun _ => rfl⟩
  | .error .alreadyExists | .error .notDirectory | .error .isDirectory | .error .invalid
  | .error .notEmpty | .error .tooManyLinks | .error .notText | .error (.other _) | .error .aborted =>
    exact ⟨_, rfl, by simp, fun clear => (clear found.2.2).elim⟩

theorem locate_cases (follow : Bool) :
    (∃ n, d.at? loc = some n ∧ d.locate follow (pathOf loc) = .ok (.taken loc n)) ∨
    (d.at? loc = none ∧ d.at? loc.dropLast = some .dir ∧ loc ≠ [] ∧
      d.locate follow (pathOf loc) = .ok (.free loc)) ∨
    (d.at? loc = none ∧ d.at? loc.dropLast ≠ some .dir ∧
      ∃ e, d.locate follow (pathOf loc) = .error e) := by
  cases there : d.at? loc with
  | some n => exact Or.inl ⟨n, rfl, locate_taken tree valid follow there⟩
  | none =>
    by_cases parent : d.at? loc.dropLast = some .dir
    · refine Or.inr (Or.inl ⟨rfl, parent, ?_, locate_free tree valid follow there parent⟩)
      rintro rfl
      cases there
    · obtain ⟨e, lost, _⟩ := locate_lost tree valid follow there parent
      exact Or.inr (Or.inr ⟨rfl, parent, e, lost⟩)

theorem exists?_pathOf : d.exists? (pathOf loc) = (d.at? loc).isSome := by
  unfold exists?
  rcases locate_cases tree valid true with ⟨n, there, found⟩ | ⟨gone, _, _, found⟩
    | ⟨gone, _, e, found⟩
  · rw [found, there]; rfl
  · rw [found, gone]; rfl
  · rw [found, gone]; rfl

theorem isDir_pathOf : d.isDir (pathOf loc) = true ↔ d.at? loc = some .dir := by
  unfold isDir
  rcases locate_cases tree valid true with ⟨n, there, found⟩ | ⟨gone, _, _, found⟩
    | ⟨gone, _, e, found⟩
  · rw [found, there]
    cases n <;> simp
  · simp [found, gone]
  · simp [found, gone]

theorem read_pathOf {c : Text.Bytes} : d.read (pathOf loc) = .ok c ↔ d.at? loc = some (.file c) := by
  unfold read
  rcases locate_cases tree valid true with ⟨n, there, found⟩ | ⟨gone, _, _, found⟩
    | ⟨gone, _, e, found⟩
  · rw [found, there]
    cases n <;> simp [bind, Except.bind]
  · simp [found, gone, bind, Except.bind]
  · simp [found, gone, bind, Except.bind]

/-! ### Changing -/

theorem write_pathOf {c : Text.Bytes} {d' : Disk} : d.write (pathOf loc) c = .ok d' ↔
    ((∃ old, d.at? loc = some (.file old)) ∨ (d.at? loc = none ∧ d.at? loc.dropLast = some .dir)) ∧
      d' = d.put loc (.file c) := by
  unfold write
  rcases locate_cases tree valid true with ⟨n, there, found⟩ | ⟨gone, parent, _, found⟩
    | ⟨gone, parent, e, found⟩
  · rw [found, there]
    cases n with
    | link target => exact (tree.linkless _ _ there).elim
    | _ => simp [bind, Except.bind, eq_comm]
  · simp [found, gone, parent, bind, Except.bind, eq_comm]
  · simp [found, gone, parent, bind, Except.bind]

theorem removeFile_pathOf {d' : Disk} : d.removeFile (pathOf loc) = .ok d' ↔
    (∃ c, d.at? loc = some (.file c)) ∧ d' = d.erase loc := by
  unfold removeFile
  rcases locate_cases tree valid false with ⟨n, there, found⟩ | ⟨gone, _, _, found⟩
    | ⟨gone, _, e, found⟩
  · rw [found, there]
    cases n with
    | link target => exact (tree.linkless _ _ there).elim
    | _ => simp [bind, Except.bind, eq_comm]
  · simp [found, gone, bind, Except.bind]
  · simp [found, gone, bind, Except.bind]

theorem removeDir_pathOf {d' : Disk} : d.removeDir (pathOf loc) = .ok d' ↔
    d.at? loc = some .dir ∧ d.isEmptyDir loc = true ∧ d' = d.erase loc := by
  unfold removeDir
  rcases locate_cases tree valid false with ⟨n, there, found⟩ | ⟨gone, _, _, found⟩
    | ⟨gone, _, e, found⟩
  · rw [found, there]
    cases n with
    | link target => exact (tree.linkless _ _ there).elim
    | file c => simp [bind, Except.bind]
    | dir =>
      by_cases empty : d.isEmptyDir loc = true
      · simp [bind, Except.bind, empty, eq_comm]
      · simp [bind, Except.bind, empty]
  · simp [found, gone, bind, Except.bind]
  · simp [found, gone, bind, Except.bind]

end Lookups

theorem isEmptyDir_iff (tree : d.IsTree) :
    d.isEmptyDir loc = true ↔ ∀ below, loc <+: below → loc ≠ below → d.at? below = none := by
  have under : ∀ l, isBelow l loc = true ↔ loc <+: l ∧ loc ≠ l := by
    intro l
    rw [isBelow, Bool.and_eq_true, List.isPrefixOf_iff_prefix, decide_eq_true_eq]
    constructor
    · rintro ⟨within, longer⟩
      exact ⟨within, by rintro rfl; exact absurd longer (Nat.lt_irrefl _)⟩
    · rintro ⟨within, proper⟩
      refine ⟨within, ?_⟩
      rcases Nat.lt_or_ge loc.length l.length with longer | short
      · exact longer
      · exact (proper (within.eq_of_length_le short)).elim
  rw [isEmptyDir, Bool.not_eq_true', List.any_eq_false]
  constructor
  · intro clear below within proper
    cases there : d.at? below with
    | none => rfl
    | some n =>
      have filled : below ≠ [] := by
        rintro rfl
        exact proper (List.prefix_nil.mp within)
      exact (clear _ (mem_of_at? there filled) ((under below).mpr ⟨within, proper⟩)).elim
  · intro clear entry member below
    obtain ⟨within, proper⟩ := (under entry.1).mp below
    have there := at?_of_mem tree member
    rw [clear entry.1 within proper] at there
    cases there

/-! ### Room for a file -/

/-- A file can be written: there is one, or a free name in a directory. -/
def Takes (d : Disk) (loc : Location) : Prop :=
  (∃ old, d.at? loc = some (.file old)) ∨ (d.at? loc = none ∧ d.at? loc.dropLast = some .dir)

theorem Takes.ne_nil (takes : d.Takes loc) : loc ≠ [] := by
  rintro rfl
  rcases takes with ⟨old, file⟩ | ⟨gone, _⟩
  · cases file
  · cases gone

theorem Takes.not_dir (takes : d.Takes loc) : d.at? loc ≠ some .dir := by
  rcases takes with ⟨old, file⟩ | ⟨gone, _⟩
  · simp [file]
  · simp [gone]

theorem Takes.parent (tree : d.IsTree) (takes : d.Takes loc) : d.at? loc.dropLast = some .dir := by
  rcases takes with ⟨old, file⟩ | ⟨_, parent⟩
  · exact tree.closed _ _ file
  · exact parent

theorem Takes.leaf (tree : d.IsTree) (takes : d.Takes loc) {below : Location} (within : loc <+: below)
    (strict : loc ≠ below) : d.at? below = none := by
  rcases takes with ⟨old, file⟩ | ⟨gone, _⟩
  · exact tree.below_file file within strict
  · exact tree.below_none gone within

theorem IsTree.putFile (tree : d.IsTree) (valid : ∀ name ∈ loc, Path.IsName name) (takes : d.Takes loc)
    (c : Text.Bytes) : (d.put loc (.file c)).IsTree :=
  tree.put takes.ne_nil valid (takes.parent tree) (by simp)
    (Or.inr fun _ within strict => takes.leaf tree within strict)

/-! ### Renaming a file -/

section Renaming

variable {source target : Location} {c : Text.Bytes}

theorem moved_eq (tree : d.IsTree) (file : d.at? source = some (.file c)) {entry : Location × Node}
    (member : entry ∈ d.nodes.filterMap fun (l, n) =>
      if source.isPrefixOf l then some (target ++ l.drop source.length, n) else none) :
    entry = (target, .file c) := by
  obtain ⟨⟨l, n⟩, inside, read⟩ := List.mem_filterMap.mp member
  simp only at read
  split at read
  · rename_i within
    cases read
    have there := at?_of_mem tree inside
    by_cases same : source = l
    · subst same
      rw [file] at there
      rw [← Option.some.inj there, List.drop_length, List.append_nil]
    · rw [tree.below_file file (List.isPrefixOf_iff_prefix.mp within) same] at there
      cases there
  · cases read

theorem find?_insertAll {v : Node} (entries : List (Location × Node)) (t : Table Location Node)
    (all : ∀ entry ∈ entries, entry = (target, v)) (filled : entries ≠ []) (l : Location) :
    (t.insertAll entries).find? l = if l = target then some v else t.find? l := by
  induction entries generalizing t with
  | nil => exact (filled rfl).elim
  | cons entry rest ih =>
    have step : (t.insert target v).find? l = if l = target then some v else t.find? l := by
      rw [Table.find?_insert]
      simp only [Std.compare_eq_iff_eq]
    rw [all entry List.mem_cons_self]
    change ((t.insert target v).insertAll rest).find? l = _
    by_cases more : rest = []
    · rw [more]
      exact step
    · rw [ih _ (fun e member => all e (List.mem_cons_of_mem _ member)) more, step]
      split <;> rfl

theorem at?_relocate (tree : d.IsTree) (file : d.at? source = some (.file c)) (takes : d.Takes target)
    (l : Location) : (d.relocate source target).at? l =
      if l = target then some (.file c) else if l = source then none else d.at? l := by
  have proper := takes.ne_nil
  have filled : source ≠ [] := by rintro rfl; cases file
  unfold at?
  by_cases top : l = []
  · subst top
    rw [if_pos rfl, if_neg (Ne.symm proper), if_neg (Ne.symm filled), if_pos rfl]
  · rw [if_neg top, if_neg top]
    unfold relocate
    simp only
    rw [find?_insertAll _ _ (fun entry member => moved_eq tree file member) ?_]
    · split
      · rfl
      · rename_i other
        rw [Table.find?_filter fun l => !(source.isPrefixOf l || target.isPrefixOf l)]
        have same : d.nodes.find? l = d.at? l := by rw [at?, if_neg top]
        rw [same]
        by_cases inSource : source <+: l
        · rw [if_neg (by simp [List.isPrefixOf_iff_prefix.mpr inSource])]
          split
          · rfl
          · rename_i different
            exact (tree.below_file file inSource (Ne.symm different)).symm
        · have different : l ≠ source := by rintro rfl; exact inSource (List.prefix_refl _)
          rw [if_neg different]
          by_cases inTarget : target <+: l
          · rw [if_neg (by simp [List.isPrefixOf_iff_prefix.mpr inTarget])]
            exact (takes.leaf tree inTarget (Ne.symm other)).symm
          · rw [if_pos]
            rw [Bool.not_eq_true', Bool.or_eq_false_iff]
            exact ⟨by rw [← Bool.not_eq_true, List.isPrefixOf_iff_prefix]; exact inSource,
              by rw [← Bool.not_eq_true, List.isPrefixOf_iff_prefix]; exact inTarget⟩
    · apply List.ne_nil_of_mem (a := (target, .file c))
      apply List.mem_filterMap.mpr
      refine ⟨(source, .file c), mem_of_at? file filled, ?_⟩
      simp [List.isPrefixOf_iff_prefix.mpr (List.prefix_refl source)]

theorem mem_insertAll {entries : List (Location × Node)} {t : Table Location Node}
    {entry : Location × Node} (member : entry ∈ (t.insertAll entries).entries) :
    entry ∈ t.entries ∨ ∃ other ∈ entries, other.1 = entry.1 := by
  induction entries generalizing t with
  | nil => exact Or.inl member
  | cons head rest ih =>
    rcases ih member with old | ⟨other, inside, same⟩
    · rcases Table.mem_insert old with older | ⟨key, _⟩
      · exact Or.inl older
      · rw [Std.compare_eq_iff_eq] at key
        exact Or.inr ⟨head, List.mem_cons_self, by rcases key with same | same <;> rw [same]⟩
    · exact Or.inr ⟨other, List.mem_cons_of_mem _ inside, same⟩

theorem IsTree.relocate (tree : d.IsTree) (valid : ∀ name ∈ target, Path.IsName name)
    (file : d.at? source = some (.file c)) (takes : d.Takes target) :
    (d.relocate source target).IsTree where
  topless := by
    intro entry member
    rcases mem_insertAll member with old | ⟨other, inside, same⟩
    · exact tree.topless entry (List.mem_of_mem_filter old)
    · rw [moved_eq tree file inside] at same
      rw [← same]
      exact takes.ne_nil
  named := by
    intro l m there
    rw [at?_relocate tree file takes] at there
    split at there
    · rename_i same
      exact same ▸ valid
    · split at there
      · cases there
      · exact tree.named l m there
  closed := by
    intro l m there
    rw [at?_relocate tree file takes] at there ⊢
    have apart : ∀ l, d.at? l = some .dir → l ≠ target ∧ l ≠ source := by
      intro l dir
      constructor
      · rintro rfl
        exact takes.not_dir dir
      · rintro rfl
        rw [file] at dir
        cases dir
    have above : d.at? l.dropLast = some .dir := by
      split at there
      · rename_i same
        rw [same]
        exact takes.parent tree
      · split at there
        · cases there
        · exact tree.closed l m there
    rw [if_neg (apart _ above).1, if_neg (apart _ above).2]
    exact above
  linkless := by
    intro l link there
    rw [at?_relocate tree file takes] at there
    split at there
    · cases there
    · split at there
      · cases there
      · exact tree.linkless l link there

theorem isBelow_false {below : Location} (tree : d.IsTree) (file : d.at? source = some (.file c))
    (parent : d.at? below.dropLast = some .dir) : isBelow below source = false := by
  rw [isBelow, ← Bool.not_eq_true, Bool.and_eq_true, List.isPrefixOf_iff_prefix, decide_eq_true_eq]
  rintro ⟨within, longer⟩
  have inner : source <+: below.dropLast := by
    apply List.prefix_of_prefix_length_le within (List.dropLast_prefix below)
    rw [List.length_dropLast]
    omega
  rw [tree.way parent inner] at file
  cases file

theorem rename_pathOf (tree : d.IsTree) (sourceValid : ∀ name ∈ source, Path.IsName name)
    (valid : ∀ name ∈ target, Path.IsName name) (file : d.at? source = some (.file c))
    (different : source ≠ target) {d' : Disk} : d.rename (pathOf source) (pathOf target) = .ok d' ↔
      d.Takes target ∧ d' = d.relocate source target := by
  unfold rename
  rw [locate_taken tree sourceValid false file]
  rcases locate_cases tree valid false with ⟨n, there, found⟩ | ⟨gone, parent, _, found⟩
    | ⟨gone, parent, e, found⟩
  · rw [found]
    have outside := isBelow_false tree file (tree.closed _ _ there)
    cases n with
    | link link => exact (tree.linkless _ _ there).elim
    | dir =>
      have full : ¬ d.Takes target := fun takes => takes.not_dir there
      simp only [bind, Except.bind, different, if_false, outside, Bool.false_eq_true, full,
        false_and, iff_false]
      cases isBelow source target <;> simp
    | file old =>
      have takes : d.Takes target := Or.inl ⟨old, there⟩
      have inside := isBelow_false tree there (tree.closed _ _ file)
      simp [bind, Except.bind, different, outside, inside, takes, eq_comm]
  · have takes : d.Takes target := Or.inr ⟨gone, parent⟩
    rw [found]
    simp [bind, Except.bind, isBelow_false tree file parent, takes, eq_comm]
  · have full : ¬ d.Takes target := by
      rintro (⟨old, there⟩ | ⟨_, there⟩)
      · rw [gone] at there; cases there
      · exact parent there
    rw [found]
    simp [bind, Except.bind, full]

end Renaming

end Relocation.Disk
