import Relocation.Proofs.Disk.Directories
import Relocation.Proofs.Path.Climbing

/-!
# Where components lead

In a tree a path leads where its components say, if it ends with one of them. One that goes on by
names from a path that exists is therefore as good as the absolute path of its location:
`locate_below`, `createDirs_below`.
-/

namespace Relocation

def Component.step? : Component → Option Disk.Step
  | .parent => some .up
  | .normal name => some (.into name)
  | .root | .current => none

namespace Disk

variable {d : Disk} {p q root : Path} {loc top : Location} {n : Node}

def origin (d : Disk) (cs : List Component) : Location := if cs.head? = some .root then [] else d.here

theorem filter_stepsOf (p : Path) :
    (stepsOf p.text).filter (· ≠ .stay) = p.components.filterMap Component.step? := by
  have opened : p.opening.filterMap Component.step? = [] := by
    unfold Path.opening
    split
    · rfl
    · split <;> rfl
  rw [Path.components_eq, List.filterMap_append, opened, List.nil_append, Path.inner,
    List.filterMap_filterMap, stepsOf, ← List.filterMap_eq_filter, List.filterMap_map]
  refine List.filterMap_congr fun s _ => ?_
  simp only [Function.comp_apply, stepOf, Path.segment?]
  split
  · rfl
  · split <;> rfl

theorem origin_components (d : Disk) (p : Path) :
    d.origin p.components = if p.isAbsolute then [] else d.here := by
  have starts : p.components.head? = some .root ↔ p.isAbsolute = true := by
    rw [Path.components_eq]
    unfold Path.opening
    split
    · rename_i absolute
      simp [absolute]
    · rename_i relative
      split
      · simp [relative]
      · rw [List.nil_append]
        constructor
        · intro head
          exact ((Path.inner_ne_root (List.mem_of_mem_head? head)).1 rfl).elim
        · intro absolute
          exact (relative absolute).elim
  unfold origin
  simp only [starts]

theorem origin_append {cs : List Component} (filled : cs ≠ []) (d : Disk) (more : List Component) :
    d.origin (cs ++ more) = d.origin cs := by
  rw [origin, origin, List.head?_append_of_ne_nil _ filled]

/-! ### Steps -/

/-- The steps lead from one location to another, where a node is found. Only the last of them may
lead to a file. -/
inductive Leads (d : Disk) : Location → List Step → Location → Node → Prop
  | here {loc : Location} {n : Node} (there : d.at? loc = some n) : Leads d loc [] loc n
  | stay {loc top : Location} {n : Node} {rest : List Step} (others : Leads d loc rest top n) :
    Leads d loc (.stay :: rest) top n
  | up {loc top : Location} {n : Node} {rest : List Step} (others : Leads d loc.dropLast rest top n) :
    Leads d loc (.up :: rest) top n
  | into {loc top : Location} {n : Node} {name : String} {rest : List Step}
    (dir : d.at? (loc ++ [name]) = some .dir)
    (others : Leads d (loc ++ [name]) rest top n) : Leads d loc (.into name :: rest) top n
  | file {loc : Location} {name : String} {c : Text.Bytes} {rest : List Step}
    (file : d.at? (loc ++ [name]) = some (.file c)) (last : rest = []) :
    Leads d loc (.into name :: rest) (loc ++ [name]) (.file c)

section
variable (tree : d.IsTree) {follow : Bool} {hop : Location → List Step → Except IoFault Place}
include tree

theorem advance_iff {steps : List Step} :
    d.advance follow hop loc steps = .ok (.taken top n) ↔ d.Leads loc steps top n := by
  constructor
  · intro found
    induction steps generalizing loc with
    | nil =>
      rw [advance] at found
      cases there : d.at? loc with
      | none => rw [there] at found; cases found
      | some m =>
        rw [there] at found
        cases found
        exact .here there
    | cons s rest ih =>
      cases s with
      | stay => exact .stay (ih found)
      | up => exact .up (ih found)
      | into name =>
        rw [advance] at found
        cases next : d.at? (loc ++ [name]) with
        | none =>
          simp only [next] at found
          split at found <;> cases found
        | some m =>
          simp only [next] at found
          cases m with
          | dir => exact .into next (ih found)
          | file c =>
            simp only at found
            split at found
            · rename_i last
              cases found
              exact .file next (List.isEmpty_iff.mp last)
            · cases found
          | link target => exact (tree.linkless _ _ next).elim
  · intro leads
    induction leads with
    | here there => rw [advance, there]
    | stay _ ih => rw [advance, ih]
    | up _ ih => rw [advance, ih]
    | into dir _ ih => simp only [advance, dir, ih]
    | file file last => simp [advance, file, last]

/-- Steps that stay in place can be left out, if something else comes last. -/
theorem advance_filter {steps : List Step} (ends : steps.getLast? ≠ some .stay) (loc : Location) :
    d.advance follow hop loc steps = d.advance follow hop loc (steps.filter (· ≠ .stay)) := by
  induction steps generalizing loc with
  | nil => rfl
  | cons s rest ih =>
    by_cases last : rest = []
    · subst last
      have moving : s ≠ .stay := fun same => ends (by rw [same]; rfl)
      rw [List.filter_cons_of_pos (by simpa using moving)]
      rfl
    · rw [List.getLast?_cons_of_ne_nil last] at ends
      have more : (rest.filter (· ≠ .stay)).isEmpty = false := by
        rw [← Bool.not_eq_true, List.isEmpty_iff, List.filter_eq_nil_iff]
        intro stays
        obtain ⟨final, found⟩ := Option.ne_none_iff_exists'.mp fun none =>
          last (List.getLast?_eq_none_iff.mp none)
        have still := stays final (List.mem_of_getLast? found)
        exact ends (by rw [found]; simpa using still)
      cases s with
      | stay => rw [advance, ih ends, List.filter_cons_of_neg (by simp)]
      | up => rw [advance, ih ends, List.filter_cons_of_pos (by simp), advance]
      | into name =>
        rw [List.filter_cons_of_pos (by simp), advance, advance]
        simp only [more, List.isEmpty_eq_false_iff.mpr last]
        cases next : d.at? (loc ++ [name]) with
        | none => rfl
        | some n =>
          cases n with
          | dir => exact ih ends _
          | file c => rfl
          | link target => exact (tree.linkless _ _ next).elim

end

namespace Leads

theorem advance_append {follow : Bool} {hop : Location → List Step → Except IoFault Place}
    {steps more : List Step} (leads : d.Leads loc steps top .dir) :
    d.advance follow hop loc (steps ++ more) = d.advance follow hop top more := by
  generalize node : Node.dir = n at leads
  induction leads with
  | here _ => rfl
  | stay _ ih => exact ih node
  | up _ ih => exact ih node
  | into dir _ ih =>
    rw [List.cons_append, advance]
    simp only [dir]
    exact ih node
  | file _ _ => cases node

theorem found {steps : List Step} (leads : d.Leads loc steps top n) : d.at? top = some n := by
  induction leads with
  | here there => exact there
  | stay _ ih => exact ih
  | up _ ih => exact ih
  | into _ _ ih => exact ih
  | file file _ => exact file

theorem filter {steps : List Step} (leads : d.Leads loc steps top n) :
    d.Leads loc (steps.filter (· ≠ .stay)) top n := by
  induction leads with
  | here there => exact .here there
  | stay _ ih => exact ih
  | up _ ih => exact .up ih
  | into dir _ ih => exact .into dir ih
  | file file last => exact .file file (by rw [last]; rfl)

theorem mono {d' : Disk} (kept : ∀ l n, d.at? l = some n → d'.at? l = some n) {steps : List Step}
    (leads : d.Leads loc steps top n) : d'.Leads loc steps top n := by
  induction leads with
  | here there => exact .here (kept _ _ there)
  | stay _ ih => exact .stay ih
  | up _ ih => exact .up ih
  | into dir _ ih => exact .into (kept _ _ dir) ih
  | file file last => exact .file (kept _ _ file) last

theorem front (tree : d.IsTree) {before after : List Step} (start : ∃ m, d.at? loc = some m)
    (leads : d.Leads loc (before ++ after) top n) : ∃ top' n', d.Leads loc before top' n' := by
  induction before generalizing loc with
  | nil =>
    obtain ⟨m, there⟩ := start
    exact ⟨loc, m, .here there⟩
  | cons s rest ih =>
    rw [List.cons_append] at leads
    cases leads with
    | stay others =>
      obtain ⟨top', n', outer⟩ := ih start others
      exact ⟨top', n', .stay outer⟩
    | up others =>
      obtain ⟨m, there⟩ := start
      obtain ⟨top', n', outer⟩ := ih ⟨_, tree.closed loc m there⟩ others
      exact ⟨top', n', .up outer⟩
    | into dir others =>
      obtain ⟨top', n', outer⟩ := ih ⟨_, dir⟩ others
      exact ⟨top', n', .into dir outer⟩
    | file file last => exact ⟨_, _, .file file (List.append_eq_nil_iff.mp last).1⟩

theorem between (tree : d.IsTree) {before middle after : List Step} {top' : Location} {n' : Node}
    (first : d.Leads loc before top n) (whole : d.Leads loc (before ++ (middle ++ after)) top' n') :
    ∃ top' n', d.Leads loc (before ++ middle) top' n' := by
  induction first with
  | here there => exact whole.front tree ⟨_, there⟩
  | stay _ ih =>
    cases whole with
    | stay others =>
      obtain ⟨top', n', leads⟩ := ih others
      exact ⟨top', n', .stay leads⟩
  | up _ ih =>
    cases whole with
    | up others =>
      obtain ⟨top', n', leads⟩ := ih others
      exact ⟨top', n', .up leads⟩
  | into dir _ ih =>
    cases whole with
    | into _ others =>
      obtain ⟨top', n', leads⟩ := ih others
      exact ⟨top', n', .into dir leads⟩
    | file file _ =>
      rw [dir] at file
      cases file
  | file file last =>
    cases whole with
    | into dir _ =>
      rw [file] at dir
      cases dir
    | file _ nothing =>
      have short := (List.append_eq_nil_iff.mp (List.append_eq_nil_iff.mp nothing).2).1
      exact ⟨_, _, .file file (List.append_eq_nil_iff.mpr ⟨last, short⟩)⟩

end Leads

/-! ### Paths -/

theorem leads_of_locate (tree : d.IsTree) {follow : Bool}
    (found : d.locate follow p = .ok (.taken top n)) :
    p.components ≠ [] ∧ d.Leads (d.origin p.components) (p.components.filterMap Component.step?)
      top n := by
  obtain ⟨hop, walks⟩ := walk_advances d follow maxLinks
  rw [locate] at found
  split at found
  · cases found
  · rename_i filled
    rw [walks] at found
    refine ⟨fun nothing => filled (Path.components_eq_nil.mp nothing), ?_⟩
    rw [← filter_stepsOf, origin_components]
    exact ((advance_iff tree).mp found).filter

theorem locate_trim (tree : d.IsTree) (trim : p.IsTrim) (filled : p.text ≠ "") (follow : Bool) :
    d.locate follow p = d.walk follow maxLinks (d.origin p.components)
      (p.components.filterMap Component.step?) := by
  obtain ⟨hop, walks⟩ := walk_advances d follow maxLinks
  rw [locate, if_neg filled, walks, origin_components, ← filter_stepsOf]
  rcases Path.trim_cases trim filled with slash | dot | ⟨c, ends⟩
  · rw [slash]
    rfl
  · rw [dot]
    rfl
  · refine advance_filter tree ?_ _
    obtain ⟨s, last, read⟩ := Option.bind_eq_some_iff.mp ends
    have steps : (stepsOf p.text).getLast? = some (stepOf s) := by
      rw [stepsOf, List.getLast?_map]
      exact congrArg _ last
    rw [steps]
    unfold Path.segment? at read
    unfold stepOf
    split at read
    · cases read
    · rename_i filled
      rw [if_neg filled]
      split <;> simp

theorem locate_mono {d' : Disk} (tree : d.IsTree) (tree' : d'.IsTree) (here : d'.here = d.here)
    (kept : ∀ l n, d.at? l = some n → d'.at? l = some n) {follow : Bool}
    (found : d.locate follow p = .ok (.taken top n)) : d'.locate follow p = .ok (.taken top n) := by
  obtain ⟨hop, walks⟩ := walk_advances d follow maxLinks
  obtain ⟨hop', walks'⟩ := walk_advances d' follow maxLinks
  rw [locate] at found ⊢
  split at found
  · cases found
  · rename_i filled
    rw [walks, advance_iff tree] at found
    rw [if_neg filled, walks', here, advance_iff tree']
    exact found.mono kept

theorem unslashed_trim (trim : p.IsTrim) (filled : p.text ≠ "") : unslashed p = p := by
  have paths : ∀ text : String, p.text = text → p = ⟨text⟩ := fun text same => congrArg Path.mk same
  rcases Path.trim_cases trim filled with slash | dot | ⟨c, ends⟩
  · rw [paths _ slash]
    decide
  · rw [paths _ dot]
    decide
  · obtain ⟨c, last⟩ := Option.ne_none_iff_exists'.mp fun none =>
      filled (String.toList_eq_nil_iff.mp (List.getLast?_eq_none_iff.mp none))
    refine unslashed_of_last last ?_
    -- Behind a slash at the end stands an empty stretch.
    rintro rfl
    obtain ⟨front, text⟩ := List.getLast?_eq_some_iff.mp last
    rw [Path.segments_append front [] text] at ends
    simp [Path.segment?] at ends

/-! ### Below a directory -/

section
variable {names : List String} (tree : d.IsTree) (rooted : d.locate true root = .ok (.taken top .dir))
variable (below : root.Below names p)
include tree rooted below

theorem walk_below (follow : Bool) :
    d.locate follow p = d.walk follow maxLinks top (names.map .into) := by
  obtain ⟨based, leads⟩ := leads_of_locate tree rooted
  obtain ⟨hop, walks⟩ := walk_advances d follow maxLinks
  rw [locate_trim tree below.trim (below.filled based), walks, below.components, origin_append based,
    List.filterMap_append, leads.advance_append, List.filterMap_map]
  exact congrArg _ (congrFun List.filterMap_eq_map names)

theorem valid_below : ∀ name ∈ top ++ names, Path.IsName name := by
  intro name member
  rcases List.mem_append.mp member with outer | inner
  · exact tree.named top .dir (leads_of_locate tree rooted).2.found name outer
  · exact below.isName name inner

theorem locate_below (follow : Bool) :
    d.locate follow p = d.locate follow (pathOf (top ++ names)) := by
  have there := (leads_of_locate tree rooted).2.found
  have valid := valid_below tree rooted below
  have topValid := tree.named top .dir there
  have plain : (pathOf top).Below names (pathOf (top ++ names)) := by
    refine ⟨?_, ?_⟩
    · rw [components_pathOf valid, components_pathOf topValid, List.map_append, List.cons_append]
    · have longer : (pathOf (top ++ names ++ ["x"])).parent? = some (pathOf (top ++ names)) := by
        refine parent?_pathOf fun other member => ?_
        rcases List.mem_append.mp member with inner | last
        · exact valid other inner
        · rw [List.mem_singleton.mp last]
          decide
      exact Path.parent?_trim longer
  rw [walk_below tree rooted below, walk_below tree (locate_taken tree topValid true there) plain]

theorem exists?_below : d.exists? p = (d.at? (top ++ names)).isSome := by
  rw [← exists?_pathOf tree (valid_below tree rooted below)]
  unfold exists?
  rw [locate_below tree rooted below]

theorem ensureDir_below : d.ensureDir p = d.ensureDir (pathOf (top ++ names)) := by
  have based := (leads_of_locate tree rooted).1
  unfold ensureDir createDir isDir
  rw [unslashed_trim below.trim (below.filled based), unslashed_pathOf (valid_below tree rooted below),
    locate_below tree rooted below, locate_below tree rooted below]

end

theorem here_makeDirs (d : Disk) (loc : Location) : (d.makeDirs loc).here = d.here := by
  unfold makeDirs
  generalize d.absent loc = ls
  induction ls generalizing d with
  | nil => rfl
  | cons l rest ih => rw [List.foldl_cons, ih]; rfl

theorem makeDirs_kept (d : Disk) (loc : Location) {l : Location} {n : Node}
    (there : d.at? l = some n) : (d.makeDirs loc).at? l = some n := by
  rw [at?_makeDirs, if_neg, there]
  rintro ⟨_, gone⟩
  rw [gone] at there
  cases there

theorem rooted_makeDirs (tree : d.IsTree) (valid : ∀ name ∈ loc, Path.IsName name)
    (clear : ¬ d.IsBlocked loc) (rooted : d.locate true root = .ok (.taken top n)) :
    (d.makeDirs loc).locate true root = .ok (.taken top n) :=
  locate_mono tree (tree.makeDirs valid clear) (here_makeDirs d loc)
    (fun _ _ there => makeDirs_kept d loc there) rooted

/-- Making directories for a path below another is the same for every spelling: `ensureDir` is, on
the disk as it is and on the one that has the directories above, and nothing above `root` is ever
asked for. -/
theorem createDirsUpTo_below (tree : d.IsTree) (rooted : d.locate true root = .ok (.taken top .dir))
    {names : List String} (below : root.Below names p) {depth depth' : Nat}
    (enough : names.length < depth) (enough' : (top ++ names).length < depth') :
    d.createDirsUpTo p depth = d.createDirsUpTo (pathOf (top ++ names)) depth' := by
  induction depth generalizing names p depth' with
  | zero => cases enough
  | succ depth ih =>
    obtain ⟨depth', rfl⟩ : ∃ n, depth' = n + 1 := ⟨depth' - 1, by omega⟩
    have valid := valid_below tree rooted below
    obtain ⟨based, leads⟩ := leads_of_locate tree rooted
    have filled := below.filled based
    rw [createDirsUpTo, createDirsUpTo, if_neg filled, if_neg (text_pathOf_ne _),
      ensureDir_below tree rooted below]
    split
    · rename_i lost
      rcases List.eq_nil_or_concat names with rfl | ⟨front, last, rfl⟩
      · -- The root is there.
        rw [List.append_nil] at lost valid
        rcases ensureDir_taken tree valid leads.found with ⟨_, done⟩ | ⟨file, _⟩
        · rw [done] at lost
          cases lost
        · exact (file rfl).elim
      · rw [List.concat_eq_append] at below enough enough' valid ⊢
        rw [← List.append_assoc] at enough' valid ⊢
        rw [List.length_append, List.length_singleton] at enough enough'
        obtain ⟨q, parent, above⟩ := below.parent
        have outerValid : ∀ name ∈ top ++ front, Path.IsName name := fun name member =>
          valid name (List.mem_append_left _ member)
        rw [parent, parent?_pathOf valid]
        simp only
        have outer : (top ++ front).length < depth' := by omega
        rw [ih above (by omega) outer]
        rcases createDirsUpTo_pathOf tree outerValid outer with ⟨clear, made⟩ | ⟨_, e, failed⟩
        · have step := ensureDir_below (tree.makeDirs outerValid clear)
            (rooted_makeDirs tree outerValid clear rooted) below
          rw [← List.append_assoc] at step
          rw [made]
          exact step
        · rw [failed]
          rfl
    · rfl

theorem createDirs_below (tree : d.IsTree) (rooted : d.locate true root = .ok (.taken top .dir))
    {names : List String} (below : root.Below names p) :
    d.createDirs p = d.createDirs (pathOf (top ++ names)) := by
  refine createDirsUpTo_below tree rooted below ?_ ?_
  · rw [below.components, List.length_append, List.length_map]
    omega
  · rw [components_pathOf (valid_below tree rooted below), List.length_cons, List.length_map]
    omega

/-! ### Going up -/

theorem exists?_parent (tree : d.IsTree) (rooted : d.locate true root = .ok (.taken top n))
    (above : p.parent? = some q) (inside : q.startsWith root = true) (there : d.exists? p = true) :
    d.exists? q = true := by
  obtain ⟨based, first⟩ := leads_of_locate tree rooted
  obtain ⟨filled, comps⟩ := Path.parent?_components above
  obtain ⟨front, c, split⟩ := (List.eq_nil_or_concat p.components).resolve_left filled
  rw [split, List.concat_eq_append, List.dropLast_concat] at comps
  rw [Path.startsWith, List.isPrefixOf_iff_prefix, comps] at inside
  obtain ⟨more, rfl⟩ := inside
  unfold exists? at there
  split at there
  · rename_i found
    obtain ⟨_, whole⟩ := leads_of_locate tree found
    rw [split, List.concat_eq_append, List.append_assoc, origin_append based, List.filterMap_append,
      List.filterMap_append] at whole
    obtain ⟨top', n', leads⟩ := first.between tree whole
    have text : q.text ≠ "" := by
      intro empty
      have nothing := comps.symm.trans (Path.components_eq_nil.mpr empty)
      exact based (List.append_eq_nil_iff.mp nothing).1
    obtain ⟨hop, walks⟩ := walk_advances d true maxLinks
    have located : d.locate true q = .ok (.taken top' n') := by
      rw [locate_trim tree (Path.parent?_trim above) text, comps, origin_append based,
        List.filterMap_append, walks, advance_iff tree]
      exact leads
    rw [exists?, located]
  · cases there

theorem takeWhile_ancestors {keep : Path → Bool} (climbs : ∀ {p q}, p.parent? = some q →
    keep q = true → keep p = true)
    (p : Path) : p.ancestors.takeWhile keep = p.ancestors.filter keep := by
  have climb : ∀ (depth : Nat) (p : Path), (Path.ancestors.go depth p).takeWhile keep =
      (Path.ancestors.go depth p).filter keep ∧
      (keep p = false → (Path.ancestors.go depth p).filter keep = []) := by
    intro depth
    induction depth with
    | zero => exact fun p => ⟨rfl, fun _ => rfl⟩
    | succ depth ih =>
      intro p
      rw [Path.ancestors.go]
      cases above : p.parent? with
      | none => cases kept : keep p <;> simp [kept]
      | some q =>
        cases kept : keep p with
        | true => simp [kept, (ih q).1]
        | false =>
          have outside : keep q = false := by
            rw [← Bool.not_eq_true]
            intro inside
            rw [climbs above inside] at kept
            cases kept
          simp [kept, (ih q).2 outside]
  exact (climb _ p).1

/-- The directories that are missing: all on the way that do not exist, below a root that does. -/
theorem missingDirs_eq (tree : d.IsTree) (rooted : d.locate true root = .ok (.taken top n))
    (dir : Path) : missingDirs d root dir =
      (dir.ancestors.filter fun p => !p.same root && p.startsWith root && !d.exists? p).reverse := by
  rw [missingDirs, takeWhile_ancestors]
  intro p q above kept
  simp only [Bool.and_eq_true, Bool.not_eq_true'] at kept ⊢
  obtain ⟨⟨_, inside⟩, gone⟩ := kept
  obtain ⟨filled, comps⟩ := Path.parent?_components above
  have within : q.components <+: p.components := comps ▸ List.dropLast_prefix _
  have onWay : root.components <+: q.components := by
    rwa [Path.startsWith, List.isPrefixOf_iff_prefix] at inside
  refine ⟨⟨?_, ?_⟩, ?_⟩
  · rw [← Bool.not_eq_true, Path.same_iff]
    intro same
    have long := onWay.length_le
    rw [comps, ← same, List.length_dropLast] at long
    have := List.length_pos_iff.mpr filled
    omega
  · rw [Path.startsWith, List.isPrefixOf_iff_prefix]
    exact onWay.trans within
  · rw [← Bool.not_eq_true]
    intro there
    rw [exists?_parent tree rooted above inside there] at gone
    cases gone

end Disk

end Relocation
