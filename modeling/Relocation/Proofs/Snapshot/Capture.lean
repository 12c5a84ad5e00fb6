import Relocation.Proofs.Plan
import Relocation.Proofs.Snapshot.Destinations

/-!
# Taking a snapshot

A snapshot of files below a directory, taken for a plan that was made with these files in mind,
describes the disk. Storing it changes nothing outside the store.
-/

namespace Relocation

namespace Disk

/-- The files below a directory, by their paths from there. What lies in the store is left out. -/
def filesBelow (d : Disk) (top store : Location) : List Path :=
  d.nodes.filterMap fun (l, n) =>
    match n with
    | .file _ =>
      if top.isPrefixOf l && !store.isPrefixOf l then some (Path.plain (l.drop top.length)) else none
    | _ => none

variable {d : Disk} {top store : Location} {p : Path}

theorem mem_filesBelow (tree : d.IsTree) (here : d.at? top = some .dir) :
    p ∈ d.filesBelow top store ↔
      p.IsPlain ∧ (∃ c, d.at? (spot top p) = some (.file c)) ∧ ¬ store <+: spot top p := by
  constructor
  · intro member
    obtain ⟨⟨l, n⟩, inside, read⟩ := List.mem_filterMap.mp member
    cases n with
    | dir => cases read
    | link target => cases read
    | file c =>
      simp only [Option.ite_none_right_eq_some, Bool.and_eq_true, Bool.not_eq_true',
        List.isPrefixOf_iff_prefix] at read
      obtain ⟨⟨within, outside⟩, same⟩ := read
      cases same
      obtain ⟨names, rfl⟩ := within
      have there := at?_of_mem tree inside
      rw [List.drop_left]
      have valid : ∀ name ∈ names, Path.IsName name := fun name known =>
        tree.named _ _ there name (List.mem_append_right _ known)
      have filled : names ≠ [] := by
        rintro rfl
        rw [List.append_nil, here] at there
        cases there
      have same : spot top (Path.plain names) = top ++ names := by
        rw [spot, (Path.spells_plain valid).normalNames]
      rw [same]
      refine ⟨⟨names, filled, valid, rfl⟩, ⟨c, there⟩, ?_⟩
      rw [← List.isPrefixOf_iff_prefix, outside]
      simp
  · rintro ⟨plain, ⟨c, there⟩, outside⟩
    refine List.mem_filterMap.mpr ⟨(spot top p, .file c), mem_of_at? there (spot_ne_nil top plain), ?_⟩
    have inside : top.isPrefixOf (spot top p) = true :=
      List.isPrefixOf_iff_prefix.mpr (List.prefix_append _ _)
    have elsewhere : store.isPrefixOf (spot top p) = false := by
      rwa [← Bool.not_eq_true, List.isPrefixOf_iff_prefix]
    simp only [inside, elsewhere]
    rw [spot, List.drop_left, ← plain.eq_plain]
    rfl

end Disk

namespace Snapshot

open Disk

variable {d : Disk} {top store : Location}

/-! ### Reading -/

theorem read_disk (p : Path) (v : Volume) :
    (Volume.read p v).2.disk = v.disk ∧ (Volume.read p v).2.hazards = v.hazards := by
  rcases Volume.call_cases (.read p) (fun _ d => (d.read p).map (·, d)) v with
    ⟨befallen, _⟩ | ⟨refused, _⟩ | ⟨c, d, acted, v', result, disk, hazards⟩
  · obtain ⟨e, v', result, disk, hazards⟩ := befallen.refuses
    rw [Volume.read, result]
    exact ⟨disk, hazards⟩
  · obtain ⟨e, v', result, disk, hazards⟩ := refused
    rw [Volume.read, result]
    exact ⟨disk, hazards⟩
  · rw [Volume.read, result]
    refine ⟨?_, hazards⟩
    rw [disk]
    cases read : v.disk.read p with
    | error e => rw [read] at acted; cases acted
    | ok bytes => rw [read] at acted; cases acted; rfl

theorem readFiles_disk (root : Path) (paths : List Path) (v : Volume) :
    (readFiles root paths v).2.disk = v.disk ∧ (readFiles root paths v).2.hazards = v.hazards := by
  induction paths generalizing v with
  | nil => exact ⟨rfl, rfl⟩
  | cons p rest ih =>
    unfold readFiles Volume.andThen
    have first := read_disk (root.join p) v
    cases result : Volume.read (root.join p) v with
    | mk outcome v₁ =>
      rw [result] at first
      cases outcome with
      | error e => exact first
      | ok content =>
        have second := ih v₁
        simp only
        cases others : readFiles root rest v₁ with
        | mk outcome v₂ =>
          rw [others] at second
          cases outcome with
          | error e => exact ⟨second.1.trans first.1, second.2.trans first.2⟩
          | ok files => exact ⟨second.1.trans first.1, second.2.trans first.2⟩

theorem readFiles_ok {v v' : Volume} (tree : v.disk.IsTree) (above : ∀ name ∈ top, Path.IsName name)
    {paths : List Path} (plain : ∀ p ∈ paths, p.IsPlain) {files : List SnapshotFile}
    (result : readFiles (pathOf top) paths v = (.ok files, v')) :
    files.map (·.path) = paths ∧ ∀ f ∈ files, v.disk.at? (spot top f.path) = some
      (.file f.content) := by
  induction paths generalizing v v' files with
  | nil =>
    cases result
    exact ⟨rfl, by simp⟩
  | cons p rest ih =>
    have proper := plain p List.mem_cons_self
    unfold readFiles at result
    rw [join_spot above proper] at result
    rcases Volume.read_cases tree (spot_valid above proper) with
      ⟨e, v₁, read, _, _⟩ | ⟨c, there, v₁, read, disk, _⟩
    · rw [Volume.andThen_error read] at result
      cases result
    · rw [Volume.andThen_ok read] at result
      cases others : readFiles (pathOf top) rest v₁ with
      | mk outcome v₂ =>
        cases outcome with
        | error e =>
          rw [Volume.andThen_error others] at result
          cases result
        | ok more =>
          rw [Volume.andThen_ok others] at result
          cases result
          obtain ⟨paths, contents⟩ :=
            ih (disk ▸ tree) (fun q later => plain q (List.mem_cons_of_mem _ later)) others
          refine ⟨by rw [List.map_cons, paths], fun f member => ?_⟩
          rcases List.mem_cons.mp member with rfl | later
          · exact there
          · exact disk ▸ contents f later

/-! ### Directories to come -/

theorem missing_below (tree : d.IsTree) (here : d.at? top = some .dir) {p : Path} (plain : p.IsPlain) :
    (missingDirs d (pathOf top) (pathOf (spot top p).dropLast)).filterMap
      (·.relativeTo? (pathOf top)) = (d.absent (spot top p).dropLast).map fun l =>
        Path.plain (l.drop top.length) := by
  have above := tree.named top .dir here
  have valid := spot_valid above plain
  have split : (spot top p).dropLast = top ++ (normalNames p).dropLast :=
    List.dropLast_append_of_ne_nil plain.filled
  have parentValid : ∀ name ∈ top ++ (normalNames p).dropLast, Path.IsName name := by
    intro name member
    rw [← split] at member
    exact valid name (List.dropLast_subset _ member)
  rw [split, missingDirs_pathOf tree parentValid here, List.filterMap_map]
  have relative : ∀ l ∈ d.absent (top ++ (normalNames p).dropLast),
      ((fun q : Path => q.relativeTo? (pathOf top)) ∘ pathOf) l = some
        (Path.plain (l.drop top.length)) := by
    intro l member
    obtain ⟨within, gone⟩ := mem_absent.mp member
    rcases List.prefix_or_prefix_of_prefix (List.prefix_append top _) within with ⟨names, rfl⟩ | outer
    · have filled : names ≠ [] := by
        rintro rfl
        rw [List.append_nil, here] at gone
        cases gone
      rw [Function.comp_apply, List.drop_left,
        relativeTo?_pathOf (fun name known => parentValid name (within.subset known)) filled]
    · rw [tree.below_none gone outer] at here
      cases here
  rw [← List.filterMap_eq_map]
  exact List.filterMap_congr relative

variable {plan : MovePlan}

section
variable (tree : d.IsTree) (here : d.at? top = some .dir) (plain : ∀ m ∈ plan.moves, m.target.IsPlain)
include tree here plain

theorem newDirsOf_eq : newDirsOf d (pathOf top) plan = Keys.ofList (plan.moves.flatMap fun m =>
    (d.absent (spot top m.target).dropLast).map fun l => Path.plain (l.drop top.length)) := by
  unfold newDirsOf
  refine congrArg (fun ps => (Keys.ofList ps).toList) (List.flatMap_congr fun m member => ?_)
  have above := tree.named top .dir here
  rw [join_spot above (plain m member), parent?_spot above (plain m member)]
  exact missing_below tree here (plain m member)

theorem mem_newDirs {p : Path} (member : p ∈ newDirsOf d (pathOf top) plan) :
    p.IsPlain ∧ d.at? (spot top p) = none ∧
      ∃ m ∈ plan.moves, spot top p <+: spot top m.target ∧ spot top p ≠ spot top m.target := by
  have above := tree.named top .dir here
  have rooted := locate_taken tree above true here
  obtain ⟨spelt, gone, m, inside, within⟩ :=
    mem_newDirsOf tree rooted (fun m move => (plain m move).normal) member
  refine ⟨⟨normalNames p, ?_, spelt.isName, ?_⟩, gone, m, inside, within.trans
    (List.dropLast_prefix _), ?_⟩
  · intro empty
    rw [spot, empty, List.append_nil, here] at gone
    cases gone
  · rw [newDirsOf_eq tree here plain] at member
    obtain ⟨m, move, listed⟩ := List.mem_flatMap.mp (Keys.mem_ofList member)
    obtain ⟨l, absent, rfl⟩ := List.mem_map.mp listed
    have onWay := (mem_absent.mp absent).1.trans (List.dropLast_prefix _)
    have valid : ∀ name ∈ l.drop top.length, Path.IsName name := fun name known =>
      spot_valid above (plain m move) name (onWay.subset (List.mem_of_mem_drop known))
    rw [(Path.spells_plain valid).normalNames]
  · intro equal
    have short := within.length_le
    rw [equal, List.length_dropLast] at short
    have long := List.length_pos_iff.mpr (spot_ne_nil top (plain m inside))
    omega

theorem newDirs_complete {l : Location} (gone : d.at? l = none) {m : Move} (member : m ∈ plan.moves)
    (within : l <+: spot top m.target) (strict : l ≠ spot top m.target) :
    ∃ p ∈ newDirsOf d (pathOf top) plan, spot top p = l := by
  have inner : l <+: (spot top m.target).dropLast := by
    apply List.prefix_of_prefix_length_le within (List.dropLast_prefix _)
    have shorter := within.length_le
    have different : l.length ≠ (spot top m.target).length :=
      fun same => strict (within.eq_of_length same)
    rw [List.length_dropLast]
    omega
  have rooted := locate_taken tree (tree.named top .dir here) true here
  exact newDirsOf_complete tree rooted (fun m move => (plain m move).normal) gone member inner

end

/-! ### The snapshot describes the disk -/

theorem plain_of_components {p q : Path} (left : p.IsPlain) (right : q.IsPlain)
    (same : p.components = q.components) : p = q := by
  have names : normalNames p = normalNames q :=
    left.spells.unique (show p.components = _ from same ▸ right.spells)
  rw [left.eq_plain, right.eq_plain, names]

theorem capture_disk (stamp : Stamp) (root : Path) (paths : List Path) (plan : MovePlan) (v : Volume) :
    (capture stamp root paths plan v).2.disk = v.disk ∧
    (capture stamp root paths plan v).2.hazards = v.hazards := by
  have kept := readFiles_disk root (Keys.ofListLast paths) v
  unfold capture
  cases result : readFiles root (Keys.ofListLast paths) v with
  | mk outcome v' =>
    rw [result] at kept
    cases outcome with
    | error e => rw [Volume.andThen_error result]; exact kept
    | ok files => rw [Volume.andThen_ok result]; exact kept

theorem newDirs_capture {stamp : Stamp} {root : Path} {paths : List Path} {v : Volume} {s : Snapshot}
    (captured : (capture stamp root paths plan v).1 = .ok s) :
    s.newDirs = newDirsOf v.disk root plan := by
  have kept := (readFiles_disk root (Keys.ofListLast paths) v).1
  unfold capture at captured
  cases read : readFiles root (Keys.ofListLast paths) v with
  | mk outcome v' =>
    rw [read] at kept
    cases outcome with
    | error e => rw [Volume.andThen_error read] at captured; cases captured
    | ok files =>
      rw [Volume.andThen_ok read] at captured
      cases captured
      rw [← kept]

theorem mem_ofListLast {paths : List Path} (plain : ∀ p ∈ paths, p.IsPlain) {p : Path}
    (member : p ∈ paths) : p ∈ (Keys.ofListLast paths).toList := by
  obtain ⟨q, known, same⟩ := Keys.contains_iff.mp (Keys.contains_ofList.mpr
    (Keys.contains_iff.mpr ⟨p, List.mem_reverse.mpr member, Std.compare_self⟩))
  have listed := List.mem_reverse.mp (Keys.mem_ofList known)
  rwa [plain_of_components (plain p member) (plain q listed) (Path.compare_eq_iff.mp same)]

variable {candidates : List Candidate} {targets : List Path}

theorem target_plain {existing : List Path} (sound : plan.Sound candidates existing) {m : Move}
    (member : m ∈ plan.moves) : m.target.IsPlain := by
  obtain ⟨names, name, _, target, valid⟩ := sound.spelt m member
  exact ⟨names ++ [name], by simp, valid, target⟩

theorem captured_known {existing : List Path} (sound : plan.Sound candidates existing)
    (candidatesKnown : ∀ c ∈ candidates, c.path ∈ existing)
    (targetsKnown : ∀ p ∈ targets, p ∈ existing) {p : Path}
    (member : p ∈ plan.moves.map (·.source) ++ targets) : p ∈ existing := by
  rcases List.mem_append.mp member with source | target
  · obtain ⟨m, move, rfl⟩ := List.mem_map.mp source
    obtain ⟨c, known, same⟩ := sound.known m move
    exact same ▸ candidatesKnown c known
  · exact targetsKnown p target

theorem capture_describes (tree : d.IsTree) (here : d.at? top = some .dir)
    (sound : plan.Sound candidates (d.filesBelow top store))
    (candidatesKnown : ∀ c ∈ candidates, c.path ∈ d.filesBelow top store)
    (targetsKnown : ∀ p ∈ targets, p ∈ d.filesBelow top store)
    {stamp : Stamp} {v v' : Volume} {s : Snapshot} (disk : v.disk = d)
    (outside : ∀ m ∈ plan.moves, ¬ store <+: spot top m.target)
    (result : capture stamp (pathOf top) (plan.moves.map (·.source) ++ targets) plan v = (.ok s, v')) :
    s.Describes top d ∧ s.moves = plan.moves ∧
      (∀ f ∈ s.files, f.path ∈ plan.moves.map (·.source) ++ targets) ∧
      ∀ p ∈ plan.moves.map (·.source) ++ targets, ∃ f ∈ s.files, f.path = p := by
  have above := tree.named top .dir here
  have known : ∀ p ∈ plan.moves.map (·.source) ++ targets, p ∈ d.filesBelow top store :=
    fun p member => captured_known sound candidatesKnown targetsKnown member
  have plain : ∀ p ∈ plan.moves.map (·.source) ++ targets, p.IsPlain := fun p member =>
    ((mem_filesBelow tree here).mp (known p member)).1
  have listed : ∀ p ∈ (Keys.ofListLast (plan.moves.map (·.source) ++ targets)).toList,
      p ∈ plan.moves.map (·.source) ++ targets := fun p member => List.mem_reverse.mp
        (Keys.mem_ofList member)
  have plainTargets : ∀ m ∈ plan.moves, m.target.IsPlain := fun m member => target_plain sound member
  unfold capture at result
  cases read : readFiles (pathOf top) (Keys.ofListLast (plan.moves.map (·.source) ++ targets)) v with
  | mk outcome w =>
    cases outcome with
    | error e => rw [Volume.andThen_error read] at result; cases result
    | ok files =>
      have kept := (readFiles_disk (pathOf top) (Keys.ofListLast (plan.moves.map (·.source) ++
        targets)) v).1
      rw [read, disk] at kept
      rw [Volume.andThen_ok read, kept] at result
      cases result
      obtain ⟨paths, contents⟩ := readFiles_ok (disk ▸ tree) above (fun p member =>
        plain p (listed p member)) read
      have taken : ∀ f ∈ files, f.path ∈ plan.moves.map (·.source) ++ targets := fun f member =>
        listed _ (paths ▸ List.mem_map.mpr ⟨f, member, rfl⟩)
      have covered : ∀ p ∈ plan.moves.map (·.source) ++ targets, ∃ f ∈ files, f.path = p := by
        intro p member
        have inside := mem_ofListLast plain member
        rw [← paths] at inside
        exact List.mem_map.mp inside
      refine ⟨?_, rfl, taken, covered⟩
      constructor
      · exact tree
      · exact here
      · rfl
      · exact fun m member => ⟨plain _ (List.mem_append_left _ (List.mem_map.mpr ⟨m, member, rfl⟩)),
          plainTargets m member⟩
      · exact fun f member => plain _ (taken f member)
      · exact fun p member => (mem_newDirs tree here plainTargets member).1
      · exact disk ▸ contents
      · exact fun m member => covered _ (List.mem_append_left _ (List.mem_map.mpr ⟨m, member, rfl⟩))
      · intro m member c file
        have exists' := (mem_filesBelow tree here).mpr ⟨plainTargets m member, ⟨c, file⟩,
          outside m member⟩
        have different := sound.fresh m member _ exists'
        rw [Path.same_iff.mpr rfl] at different
        cases different
      · intro a left b right same
        have paths := spot_inj (plain _ (List.mem_append_left _ (List.mem_map.mpr ⟨a, left, rfl⟩)))
          (plain _ (List.mem_append_left _ (List.mem_map.mpr ⟨b, right, rfl⟩))) same
        exact sound.source_inj left right (by rw [paths])
      · intro a left b right same
        exact sound.target_inj left right (by rw [spot_inj (plainTargets a left)
          (plainTargets b right) same])
      · intro l
        constructor
        · rintro ⟨p, member, rfl⟩
          exact (mem_newDirs tree here plainTargets member).2
        · rintro ⟨gone, m, member, within, strict⟩
          exact newDirs_complete tree here plainTargets gone member within strict
      · exact newDirsOf_ordered tree (locate_taken tree above true here) fun m member =>
          (plainTargets m member).normal

theorem Describes.frame {s : Snapshot} {d' : Disk} (described : s.Describes top d) (tree : d'.IsTree)
    (same : ∀ l, ¬ store <+: l → d'.at? l = d.at? l) (apart : ¬ store <+: top)
    (files : ∀ f ∈ s.files, ¬ store <+: spot top f.path)
    (moves : ∀ m ∈ s.moves, ¬ store <+: spot top m.target) : s.Describes top d' := by
  refine { described with
    tree := tree
    here := (same top apart).trans described.here
    holds := fun f member => (same _ (files f member)).trans (described.holds f member)
    vacant := fun m member c => by rw [same _ (moves m member)]; exact described.vacant m member c
    created := fun l => ?_ }
  rw [described.created l]
  have outside : ∀ m ∈ s.moves, l <+: spot top m.target → d'.at? l = d.at? l := fun m member within =>
    same l fun inside => moves m member (inside.trans within)
  constructor
  · rintro ⟨gone, m, member, within, strict⟩
    exact ⟨(outside m member within).trans gone, m, member, within, strict⟩
  · rintro ⟨gone, m, member, within, strict⟩
    exact ⟨(outside m member within).symm.trans gone, m, member, within, strict⟩

/-! ### Storing -/

theorem digit_ne_slash {n : Nat} (small : n < 16) : Nat.digitChar n ≠ '/' := by
  have all : ∀ n < 16, Nat.digitChar n ≠ '/' := by decide
  exact all n small

theorem byteText_slash_free (b : UInt8) : '/' ∉ byteText b := by
  have first : b.toNat / 16 < 16 := by
    have := b.toNat_lt
    omega
  have second : b.toNat % 16 < 16 := Nat.mod_lt _ (by decide)
  simp only [byteText, List.mem_cons, List.not_mem_nil, or_false, not_or]
  exact ⟨(digit_ne_slash first).symm, (digit_ne_slash second).symm⟩

theorem idText_slash_free (id : Text.Bytes) : '/' ∉ (idText id).toList := by
  simp [idText, byteText_slash_free]

theorem fileName_isName (s : Snapshot) :
    Path.IsName s.fileName ∧ Path.IsName (s.fileName ++ ".tmp") := by
  have clear := idText_slash_free s.id
  have long : ∀ suffix : String, '/' ∉ suffix.toList → 2 < suffix.toList.length →
      Path.IsName (idText s.id ++ suffix) := by
    intro suffix free enough
    have length : 2 < (idText s.id ++ suffix).toList.length := by
      rw [String.toList_append, List.length_append]
      omega
    refine ⟨by simp [clear, free], ?_, ?_, ?_⟩
    all_goals
      intro same
      rw [same] at length
      revert length
      decide
  constructor
  · exact long ".snapshot" (by decide) (by decide)
  · have same : s.fileName ++ ".tmp" = idText s.id ++ (".snapshot" ++ ".tmp") := String.append_assoc
    rw [same]
    exact long _ (by decide) (by decide)

theorem join_name {loc : Location} (valid : ∀ name ∈ loc, Path.IsName name) {name : String}
    (proper : Path.IsName name) : (pathOf loc).join ⟨name⟩ = pathOf (loc ++ [name]) ∧
    ∀ other ∈ loc ++ [name], Path.IsName other := by
  constructor
  · rw [← Path.plain_singleton]
    exact join_pathOf valid (by simpa using proper) (by simp)
  · intro other member
    rcases List.mem_append.mp member with inner | last
    · exact valid other inner
    · exact List.mem_singleton.mp last ▸ proper

theorem temporary_ne (s : Snapshot) (loc : Location) :
    loc ++ [s.fileName ++ ".tmp"] ≠ loc ++ [s.fileName] := by
  intro same
  have names := List.cons.inj (List.append_cancel_left same)
  have lengths := congrArg (fun name : String => name.toList.length) names.1
  rw [String.toList_append, List.length_append] at lengths
  have : ".tmp".toList.length = 4 := by decide
  omega

/-- The directories above the store are there, so making those for a snapshot stays inside. -/
theorem makeDirs_frame (tree : d.IsTree) {below : Location}
    (shelf : d.at? store.dropLast = some .dir) {l : Location}
    (outside : ¬ store <+: l) : (d.makeDirs (store ++ below)).at? l = d.at? l := by
  rw [at?_makeDirs]
  split
  · rename_i made
    obtain ⟨within, gone⟩ := made
    have outer : l <+: store.dropLast := by
      rcases List.prefix_or_prefix_of_prefix (List.prefix_append store below) within with inner | outer
      · exact (outside inner).elim
      · apply List.prefix_of_prefix_length_le outer (List.dropLast_prefix _)
        have different : l.length ≠ store.length :=
          fun same => outside (outer.eq_of_length same ▸ List.prefix_refl _)
        have shorter := outer.length_le
        rw [List.length_dropLast]
        omega
    rw [tree.below_none gone outer] at shelf
    cases shelf
  · rfl

theorem persist_spec (s : Snapshot) (tree : d.IsTree) {below : Location}
    (valid : ∀ name ∈ store ++ below, Path.IsName name) (shelf : d.at? store.dropLast = some .dir) :
    (s.persist (pathOf (store ++ below)) d).2.IsTree ∧
      (∀ l, ¬ store <+: l → (s.persist (pathOf (store ++ below)) d).2.at? l = d.at? l) ∧
      ∀ path, (s.persist (pathOf (store ++ below)) d).1 = .ok path →
        ∃ loc, path = pathOf loc ∧ store <+: loc ∧ (∀ name ∈ loc, Path.IsName name) ∧
          (s.persist (pathOf (store ++ below)) d).2.at? loc = some (.file s.encode) := by
  obtain ⟨join, pathValid⟩ := join_name valid (fileName_isName s).1
  obtain ⟨joinTemporary, temporaryValid⟩ := join_name valid (fileName_isName s).2
  have different := temporary_ne s (store ++ below)
  have inside : ∀ name, store <+: store ++ below ++ [name] := fun name =>
    (List.prefix_append _ _).trans (List.prefix_append _ _)
  unfold persist
  rw [join, joinTemporary]
  cases made : d.createDirs (pathOf (store ++ below)) with
  | error e => exact ⟨tree, fun _ _ => rfl, by simp⟩
  | ok d₁ =>
    obtain ⟨clear, rfl⟩ := (createDirs_pathOf tree valid).mp made
    have tree₁ := tree.makeDirs valid clear
    have frame₁ : ∀ l, ¬ store <+: l → (d.makeDirs (store ++ below)).at? l = d.at? l :=
      fun l outside => makeDirs_frame tree shelf outside
    simp only
    cases written : (d.makeDirs (store ++ below)).write
      (pathOf (store ++ below ++ [s.fileName ++ ".tmp"])) s.encode with
    | error e => exact ⟨tree₁, frame₁, by simp⟩
    | ok d₂ =>
      obtain ⟨takes, rfl⟩ := (write_pathOf tree₁ temporaryValid).mp written
      have takes : Takes _ _ := takes
      have tree₂ := tree₁.putFile temporaryValid takes s.encode
      have file := at?_put (d := d.makeDirs (store ++ below)) takes.ne_nil
        (.file s.encode) _ |>.trans (if_pos rfl)
      have frame₂ : ∀ l, ¬ store <+: l → ((d.makeDirs (store ++ below)).put
          (store ++ below ++ [s.fileName ++ ".tmp"]) (.file s.encode)).at? l = d.at? l := by
        intro l outside
        rw [at?_put takes.ne_nil, if_neg (by rintro rfl; exact outside (inside _))]
        exact frame₁ l outside
      simp only
      cases renamed : ((d.makeDirs (store ++ below)).put (store ++ below ++ [s.fileName ++ ".tmp"])
          (.file s.encode)).rename (pathOf (store ++ below ++ [s.fileName ++ ".tmp"]))
          (pathOf (store ++ below ++ [s.fileName])) with
      | error e => exact ⟨tree₂, frame₂, by simp⟩
      | ok d₃ =>
        obtain ⟨free, rfl⟩ := (rename_pathOf tree₂ temporaryValid pathValid file different).mp renamed
        have moved := at?_relocate tree₂ file free
        refine ⟨tree₂.relocate pathValid file free, fun l outside => ?_, fun path same => ?_⟩
        · rw [moved, if_neg (by rintro rfl; exact outside (inside _)),
            if_neg (by rintro rfl; exact outside (inside _))]
          exact frame₂ l outside
        · cases same
          exact ⟨_, rfl, inside _, pathValid, by rw [moved, if_pos rfl]⟩

/-- A snapshot can be stored unless a file stands in the way of the directory or a directory has one
of the two names. -/
theorem persist_succeeds (s : Snapshot) (tree : d.IsTree) {loc : Location}
    (valid : ∀ name ∈ loc, Path.IsName name)
    (clear : ¬ d.IsBlocked loc) (open' : d.at? (loc ++ [s.fileName]) ≠ some .dir)
    (temporary : d.at? (loc ++ [s.fileName ++ ".tmp"]) ≠ some .dir) :
    (s.persist (pathOf loc) d).1 = .ok (pathOf (loc ++ [s.fileName])) := by
  obtain ⟨join, pathValid⟩ := join_name valid (fileName_isName s).1
  obtain ⟨joinTemporary, temporaryValid⟩ := join_name valid (fileName_isName s).2
  have different := temporary_ne s loc
  have made := (createDirs_pathOf tree valid).mpr ⟨clear, rfl⟩
  have tree₁ := tree.makeDirs valid clear
  have takes : ∀ name, d.at? (loc ++ [name]) ≠ some .dir → (d.makeDirs loc).Takes (loc ++ [name]) := by
    intro name free
    have room : (d.makeDirs (loc ++ [name]).dropLast).Takes (loc ++ [name]) :=
      tree.takes_makeDirs (by simp) (by rwa [List.dropLast_concat]) free
    rwa [List.dropLast_concat] at room
  have written := (write_pathOf tree₁ temporaryValid (c := s.encode)).mpr ⟨takes _ temporary, rfl⟩
  have tree₂ := tree₁.putFile temporaryValid (takes _ temporary) s.encode
  have proper := (takes _ temporary).ne_nil
  have file := (at?_put (d := d.makeDirs loc) proper (.file s.encode) _).trans (if_pos rfl)
  have room : ((d.makeDirs loc).put (loc ++ [s.fileName ++ ".tmp"]) (.file s.encode)).Takes
      (loc ++ [s.fileName]) := by
    have outer : loc ≠ loc ++ [s.fileName ++ ".tmp"] := by simp
    have free := takes _ open'
    unfold Takes at free ⊢
    rw [List.dropLast_concat] at free ⊢
    rwa [at?_put proper, at?_put proper, if_neg different.symm, if_neg outer]
  have renamed := (rename_pathOf tree₂ temporaryValid pathValid file different).mpr ⟨room, rfl⟩
  unfold persist
  rw [join, joinTemporary, made]
  simp only [written, renamed]

end Snapshot

end Relocation
