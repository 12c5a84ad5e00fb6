import Relocation.Project
import Relocation.Proofs.Migration.Atomicity
import Relocation.Proofs.Rules.Affected

/-!
# Counting edits

A migration counts the modules that it edits. If its tree is on the disk as it was read, every
module that it was to edit changes, so that a migration that commits has counted all of them
(`affected_counted`).
-/

namespace Relocation

open Disk

namespace MovePlan

theorem finalPath_snoc {done : List Move} {move : Move}
    (ordered : (done ++ [move]).Pairwise fun a b => compare a.source b.source = .lt) (p : Path) :
    (⟨done ++ [move]⟩ : MovePlan).finalPath p =
      if move.source.components =
        p.components then move.target else (⟨done⟩ : MovePlan).finalPath p := by
  have all : (⟨done ++ [move]⟩ : MovePlan).moves.Pairwise fun a b => compare a.source b.source =
    .lt := ordered
  have some : (⟨done⟩ : MovePlan).moves.Pairwise fun a b => compare a.source b.source = .lt :=
    (List.pairwise_append.mp ordered).1
  unfold finalPath
  split
  · rename_i same
    rw [destination?_of_ordered all (List.mem_append_right _ List.mem_cons_self) same]
    rfl
  · rename_i different
    by_cases earlier : ∃ m ∈ done, m.source.components = p.components
    · obtain ⟨m, member, same⟩ := earlier
      rw [destination?_of_ordered all (List.mem_append_left _ member) same,
        destination?_of_ordered some member same]
    · have stays : ∀ m ∈ done, m.source.components ≠ p.components := fun m member same =>
        earlier ⟨m, member, same⟩
      rw [destination?_none stays, destination?_none]
      intro m member
      rcases List.mem_append.mp member with old | new
      · exact stays m old
      · rw [List.mem_singleton.mp new]
        exact different

end MovePlan

namespace Migration

/-- The modules of a source tree lie below `top` as they were read, and snapshots are stored
elsewhere. -/
structure Holds (m : Migration) (tree : SourceTree) (top store : Location) : Prop where
  disk : m.volume.disk.IsTree
  here : m.volume.disk.at? top = some .dir
  root : m.root = pathOf top
  shelf : m.volume.disk.at? store.dropLast = some .dir
  shelved : ∃ below, (∀ name ∈ store ++ below, Path.IsName name) ∧ m.snapshotDir = pathOf
    (store ++ below)
  modules : ∀ module ∈ tree.modules, module.path ∈ m.volume.disk.filesBelow top store ∧
    ∃ bytes, m.volume.disk.at? (spot top module.path) = some (.file bytes) ∧
    Module.ofBytes module.path bytes = module

/-! ### Files while modules move -/

/-- The files at some paths are where the moves so far have taken them, each in a place of its own. -/
structure Tracked (top : Location) (start : Disk) (paths : List Path) (done : List Move)
    (d : Disk) : Prop where
  tree : d.IsTree
  there : ∀ p ∈ paths, ∃ b, start.at? (spot top p) = some (.file b) ∧
    d.at? (spot top ((⟨done⟩ : MovePlan).finalPath p)) = some (.file b)
  apart : ∀ p ∈ paths, ∀ q ∈ paths,
    spot top ((⟨done⟩ : MovePlan).finalPath p) = spot top ((⟨done⟩ : MovePlan).finalPath q) → p = q

/-- What a migration counts with: plain paths, and changes in every module that it edits. -/
structure Countable (m : Migration) (top : Location) (start : Disk) (paths : List Path) : Prop where
  root : m.root = pathOf top
  above : ∀ name ∈ top, Path.IsName name
  plain : ∀ p ∈ paths, p.IsPlain
  ordered : m.plan.moves.Pairwise fun a b => compare a.source b.source = .lt
  sources : ∀ move ∈ m.plan.moves, move.source ∈ paths
  landings : ∀ move ∈ m.plan.moves, move.target.IsPlain
  distinct : m.targets.Nodup
  edits : ∀ p ∈ m.targets, p ∈ paths ∧ ∀ b, start.at? (spot top p) = some (.file b) →
    0 < (m.rules.apply m.extract p (m.plan.finalPath p) (Module.ofBytes p b).content).replacements

variable {m n : Migration} {top : Location} {start : Disk} {paths : List Path} {done : List Move}
    {d : Disk}

theorem Tracked.makeDirs (tracked : Tracked top start paths done d) {outer : Location}
    (valid : ∀ name ∈ outer, Path.IsName name) (clear : ¬ d.IsBlocked outer) :
    Tracked top start paths done (d.makeDirs outer) := by
  refine ⟨tracked.tree.makeDirs valid clear, fun p member => ?_, tracked.apart⟩
  obtain ⟨b, origin, there⟩ := tracked.there p member
  exact ⟨b, origin, (file_makeDirs outer).mpr there⟩

theorem Countable.final_plain (countable : m.Countable top start paths) {p : Path}
    (member : p ∈ paths) : (m.plan.finalPath p).IsPlain := by
  rcases m.plan.finalPath_cases p with stays | ⟨move, listed, _, moved⟩
  · rw [stays]
    exact countable.plain p member
  · rw [moved]
    exact countable.landings move listed

section
variable (countable : m.Countable top start paths) {move : Move} {after : List Move}
  (shape : m.plan.moves = done ++ move :: after)
include countable shape

theorem Tracked.waiting (tracked : Tracked top start paths done d) :
    (⟨done⟩ : MovePlan).finalPath move.source = move.source ∧
      ∃ b, start.at? (spot top move.source) = some (.file b) ∧
      d.at? (spot top move.source) = some (.file b) := by
  have still : (⟨done⟩ : MovePlan).finalPath move.source = move.source := by
    have ordered := countable.ordered
    rw [shape] at ordered
    exact MovePlan.finalPath_stays fun earlier member =>
      Path.components_ne_of_lt ((List.pairwise_append.mp ordered).2.2 earlier member move
        List.mem_cons_self)
  have file := tracked.there move.source (countable.sources move (by rw [shape]; simp))
  rw [still] at file
  exact ⟨still, file⟩

theorem Tracked.relocate (tracked : Tracked top start paths done d)
    (free : d.at? (spot top move.target) = none) (takes : d.Takes (spot top move.target)) :
    Tracked top start paths (done ++ [move]) (d.relocate (spot top move.source)
      (spot top move.target)) := by
  have listed : move ∈ m.plan.moves := by rw [shape]; simp
  have known := countable.sources move listed
  have ordered : (done ++ [move]).Pairwise fun a b => compare a.source b.source = .lt := by
    have whole := countable.ordered
    rw [shape, List.append_cons] at whole
    exact (List.pairwise_append.mp whole).1
  obtain ⟨still, b, origin, file⟩ := tracked.waiting countable shape
  have final : ∀ p ∈ paths, (⟨done ++ [move]⟩ : MovePlan).finalPath p =
      if p = move.source then move.target else (⟨done⟩ : MovePlan).finalPath p := by
    intro p member
    rw [MovePlan.finalPath_snoc ordered]
    by_cases same : p = move.source
    · rw [if_pos same, if_pos (by rw [same])]
    · rw [if_neg same, if_neg]
      exact fun equal => same
        (Snapshot.plain_of_components (countable.plain p member) (countable.plain _ known) equal.symm)
  -- No file that is tracked lies at the target.
  have clear : ∀ p ∈ paths, spot top ((⟨done⟩ : MovePlan).finalPath p) ≠ spot top move.target := by
    intro p member same
    obtain ⟨_, _, there⟩ := tracked.there p member
    rw [same, free] at there
    cases there
  constructor
  · exact tracked.tree.relocate (spot_valid countable.above (countable.landings move listed))
      file takes
  · intro p member
    rw [final p member, at?_relocate tracked.tree file takes]
    split
    · rename_i same
      exact ⟨b, same ▸ origin, if_pos rfl⟩
    · rename_i other
      have elsewhere : spot top ((⟨done⟩ : MovePlan).finalPath p) ≠ spot top move.source := by
        intro same
        rw [← still] at same
        exact other (tracked.apart p member _ known same)
      rw [if_neg (clear p member), if_neg elsewhere]
      exact tracked.there p member
  · intro p left q right same
    rw [final p left, final q right] at same
    split at same
    · rename_i first
      split at same
      · rename_i second
        rw [first, second]
      · exact (clear q right same.symm).elim
    · split at same
      · exact (clear p left same).elim
      · exact tracked.apart p left q right same

theorem moveFile_tracked {v v' : Volume} (tracked : Tracked top start paths done v.disk)
    (moved : moveFile (m.root.join move.source) (m.root.join move.target) v = (.ok (), v')) :
    Tracked top start paths (done ++ [move]) v'.disk := by
  have listed : move ∈ m.plan.moves := by rw [shape]; simp
  have source := countable.plain _ (countable.sources move listed)
  have target := countable.landings move listed
  have valid := spot_valid countable.above target
  rw [countable.root, join_spot countable.above source, join_spot countable.above target] at moved
  have free : v.disk.at? (spot top move.target) = none := by
    have vacant : v.disk.exists? (pathOf (spot top move.target)) = false := by
      unfold moveFile at moved
      split at moved
      · cases moved
      · rename_i free
        simpa using free
    rw [exists?_pathOf tracked.tree valid] at vacant
    simpa using vacant
  obtain ⟨_, b, _, file⟩ := tracked.waiting countable shape
  rcases moveFile_cases tracked.tree (spot_valid countable.above source) valid
    (spot_ne_nil top target) file with
    ⟨e, w, failed, _⟩ | ⟨w, done, _, outer, inside, clear, takes, disk⟩
  · cases moved.symm.trans failed
  · cases moved.symm.trans done
    have made := tracked.makeDirs
      (fun name member => valid name (List.dropLast_subset _ (inside.subset member))) clear
    rw [disk]
    refine made.relocate countable shape ?_ takes
    rcases takes with ⟨old, there⟩ | ⟨gone, _⟩
    · rw [file_makeDirs, free] at there
      cases there
    · exact gone

end

/-! ### Edits -/

structure Unedited (plan : MovePlan) (top : Location) (start : Disk) (paths edited : List Path)
    (d : Disk) : Prop where
  tree : d.IsTree
  there : ∀ p ∈ paths, p ∉ edited → ∃ b, start.at? (spot top p) = some (.file b) ∧
    d.at? (spot top (plan.finalPath p)) = some (.file b)

theorem editFile_changed (m : Migration) (root : m.root = pathOf top)
    (above : ∀ name ∈ top, Path.IsName name) {p : Path}
    (plain : (m.plan.finalPath p).IsPlain) {v v' : Volume} (tree : v.disk.IsTree) {b : Text.Bytes}
    (there : v.disk.at? (spot top (m.plan.finalPath p)) = some (.file b))
    (changes : 0 <
      (m.rules.apply m.extract p (m.plan.finalPath p) (Module.ofBytes p b).content).replacements)
    {revision : Revision} (done : m.editFile p v = (.ok revision, v')) : revision = .changed := by
  unfold editFile at done
  rw [root, join_spot above plain] at done
  rcases Volume.read_cases tree (spot_valid above plain) with ⟨e, v₁, read, _⟩
    | ⟨c, found, v₁, read, _⟩
  · rw [Volume.andThen_error read] at done
    cases done
  · cases found.symm.trans there
    rw [Volume.andThen_ok read] at done
    cases decoded : Text.decode b with
    | error e =>
      rw [decoded] at done
      cases done
    | ok content =>
      have same : (Module.ofBytes p b).content = content := by
        rw [Module.ofBytes, Text.decode?, decoded]
        rfl
      rw [same] at changes
      rw [decoded] at done
      simp only at done
      cases result : m.rules.apply m.extract p (m.plan.finalPath p) content with
      | aborted =>
        rw [result] at changes
        cases changes
      | done edited replacements =>
        rw [result] at changes done
        simp only [if_neg (Nat.ne_of_gt (show 0 < replacements from changes))] at done
        unfold Volume.andThen at done
        split at done
        · cases done
          rfl
        · cases done

theorem editFile_unedited (countable : m.Countable top start paths)
    (apart : ∀ p ∈ paths, ∀ q ∈ paths, spot top (m.plan.finalPath p) = spot top
      (m.plan.finalPath q) → p = q)
    {edited after : List Path} {p : Path} (shape : m.targets = edited ++ p :: after) {v v' : Volume}
    (unedited : Unedited m.plan top start paths edited v.disk) {revision : Revision}
    (done : m.editFile p v = (.ok revision, v')) :
    revision = .changed ∧ Unedited m.plan top start paths (edited ++ [p]) v'.disk := by
  have fresh : p ∉ edited := by
    have distinct := countable.distinct
    rw [shape] at distinct
    exact fun inside => (List.nodup_append.mp distinct).2.2 p inside p List.mem_cons_self rfl
  obtain ⟨known, changes⟩ := countable.edits p (by rw [shape]; simp)
  obtain ⟨b, origin, there⟩ := unedited.there p known fresh
  have plain := countable.final_plain known
  refine ⟨editFile_changed m countable.root countable.above plain unedited.tree there
    (changes b origin) done, ?_⟩
  rcases editFile_cases m countable.root countable.above plain unedited.tree with
    ⟨e, w, failed, _⟩ | ⟨w, _, _, result, _, disk, _⟩ | ⟨_, w, _, c, result, _, _, _, ⟨disk, _⟩
      | disk, _⟩
  · cases done.symm.trans failed
  · cases done.symm.trans result
    rw [disk]
    exact ⟨unedited.tree, fun q member other => unedited.there q member fun old => other
      (List.mem_append_left _ old)⟩
  · cases done.symm.trans result
    rw [disk]
    exact ⟨unedited.tree, fun q member other => unedited.there q member fun old => other
      (List.mem_append_left _ old)⟩
  · cases done.symm.trans result
    rw [disk]
    refine ⟨unedited.tree.putFile (spot_valid countable.above plain) (Or.inl ⟨b, there⟩) c,
      fun q member other => ?_⟩
    obtain ⟨bytes, source, file⟩ := unedited.there q member fun old =>
      other (List.mem_append_left _ old)
    refine ⟨bytes, source, ?_⟩
    rw [at?_put (spot_ne_nil top plain), if_neg, file]
    intro same
    exact other (List.mem_append_right _ (List.mem_singleton.mpr (apart q member p known same)))

/-! ### Runs -/

def Tallies (count : Nat) (result : Outcome) :
    Prop := result.2.state = .committed → result.2.filesEdited = count

variable {count : Nat}

theorem tallies_fail (m : Migration) (f : Failure) : Tallies count (m.fail f) := by
  obtain ⟨g, after, failed, uncommitted⟩ := m.fail_uncommitted f
  rw [failed]
  exact fun committed => (uncommitted committed).elim

theorem Tallies.andThen {first : Outcome} {next : Migration → Outcome}
    (ends : (∃ (m : Migration) (f : Failure), first = m.fail f) ∨ ∃ n, first = (.ok (), n) ∧
      Tallies count (next n)) :
    Tallies count (Migration.andThen first next) := by
  rcases ends with ⟨m, f, rfl⟩ | ⟨n, rfl, tallies⟩
  · have failed : Tallies count (m.fail f) := tallies_fail m f
    obtain ⟨g, after, result, _⟩ := m.fail_uncommitted f
    rw [result] at failed ⊢
    exact failed
  · exact tallies

theorem commit_tallies (state : n.state = .verified) (edited : n.filesEdited = count) :
    Tallies count n.commit := by
  rcases commit_cases state with cancelled | committed
  · rw [cancelled]
    exact tallies_fail _ _
  · rw [committed]
    exact fun _ => edited

variable (probe : Probe) (seconds : Nat) (signals : MigrationStep → Bool)

theorem verify_tallies (state : n.state = .edited) (edited : n.filesEdited = count) :
    Tallies count (andThen (n.verify probe seconds) fun n =>
      (n.signalled (signals .commit)).commit) := by
  refine Tallies.andThen ?_
  rcases verify_cases state probe seconds with cancelled | ⟨f, _, failed⟩ | passed
  · exact Or.inl ⟨_, _, cancelled⟩
  · exact Or.inl ⟨_, _, failed⟩
  · exact Or.inr ⟨_, passed, commit_tallies rfl edited⟩

theorem edits_tally (countable : n.Countable top start paths) (state : n.state = .moved)
    (none : n.filesEdited = 0) (tracked : Tracked top start paths n.plan.moves n.volume.disk) :
    Tallies n.targets.length (andThen n.applyEdits fun n =>
      andThen ((n.signalled (signals .verify)).verify probe seconds) fun n =>
      (n.signalled (signals .commit)).commit) := by
  refine Tallies.andThen ?_
  unfold applyEdits
  rcases n.step_cases .applyEdits .moved _ with ⟨other, _⟩ | ⟨_, cancelled | acts⟩
  · exact (other state).elim
  · exact Or.inl ⟨_, _, cancelled⟩
  · rw [acts]
    have ends := editAll_ends
      (fun edited k v => k = edited.length ∧ Unedited n.plan top start paths edited v.disk)
      (fun _ => True) [] n.targets n ?_ ⟨none, tracked.tree, fun p member _ => tracked.there p member⟩
    · rw [List.nil_append] at ends
      generalize n.editAll n.targets = result at ends ⊢
      cases ends with
      | failed _ _ => exact Or.inl ⟨_, _, rfl⟩
      | aborted shape inv stopped =>
        cases (editFile_unedited countable tracked.apart shape inv.2 stopped).1
      | done inv => exact Or.inr ⟨_, rfl, verify_tallies probe seconds signals rfl inv.1⟩
    · rintro edited p after k v shape ⟨counted, unedited⟩
      cases result : n.editFile p v with
      | mk outcome v' =>
        cases outcome with
        | error e => trivial
        | ok revision =>
          obtain ⟨rfl, next⟩ := editFile_unedited countable tracked.apart shape unedited result
          exact ⟨by simp [counted, Revision.count], next⟩

theorem moves_tally (countable : n.Countable top start paths) (state : n.state = .snapshotted)
    (none : n.filesEdited = 0) (tracked : Tracked top start paths [] n.volume.disk) :
    Tallies n.targets.length (andThen n.applyMoves fun n =>
      andThen (n.signalled (signals .applyEdits)).applyEdits fun n =>
      andThen ((n.signalled (signals .verify)).verify probe seconds) fun n =>
      (n.signalled (signals .commit)).commit) := by
  refine Tallies.andThen ?_
  unfold applyMoves
  rcases n.step_cases .applyMoves .snapshotted _ with ⟨other, _⟩ | ⟨_, cancelled | acts⟩
  · exact (other state).elim
  · exact Or.inl ⟨_, _, cancelled⟩
  · rw [acts]
    have spec := moveAll_spec (fun done v => Tracked top start paths done v.disk) (fun _ => True)
      [] n.plan.moves n ?_ tracked
    · rcases spec with ⟨v, k, f, _, _, failed⟩ | ⟨v, arrived, moved⟩
      · exact Or.inl ⟨_, _, failed⟩
      · exact Or.inr ⟨_, moved, edits_tally probe seconds signals { countable with } rfl none arrived⟩
    · intro done move after v shape tracked
      cases result : moveFile (n.root.join move.source) (n.root.join move.target) v with
      | mk outcome v' =>
        cases outcome with
        | error e => trivial
        | ok _ => exact moveFile_tracked countable shape tracked result

theorem Holds.tracked {tree : SourceTree} {store : Location} (holds : m.Holds tree top store)
    {d : Disk} (tree' : d.IsTree) (same : ∀ l, ¬ store <+: l → d.at? l = m.volume.disk.at? l) :
    Tracked top m.volume.disk (tree.modules.map (·.path)) [] d := by
  have known : ∀ p ∈ tree.modules.map (·.path), p.IsPlain ∧
      (∃ b, m.volume.disk.at? (spot top p) = some (.file b)) ∧ ¬ store <+: spot top p := by
    intro p member
    obtain ⟨module, inside, rfl⟩ := List.mem_map.mp member
    exact (mem_filesBelow holds.disk holds.here).mp (holds.modules module inside).1
  refine ⟨tree', fun p member => ?_, fun p left q right equal => spot_inj (known p left).1
    (known q right).1 equal⟩
  obtain ⟨_, ⟨b, there⟩, outside⟩ := known p member
  exact ⟨b, there, (same _ outside).trans there⟩

theorem runSteps_tallies {tree : SourceTree} {store : Location} (holds : m.Holds tree top store)
    (countable : m.Countable top m.volume.disk (tree.modules.map (·.path))) (state : m.state = .idle)
    (none : m.filesEdited = 0) : Tallies m.targets.length (m.runSteps probe seconds signals) := by
  unfold runSteps
  simp only [signal_eq]
  refine Tallies.andThen ?_
  rcases takeSnapshot_cases (m := m.signalled (signals .snapshot)) state with
    ⟨v, f, _, _, failed⟩ | ⟨s, v, path, disk, read, written, taken⟩
  · exact Or.inl ⟨_, _, failed⟩
  · refine Or.inr ⟨_, taken, moves_tally probe seconds signals { countable with } rfl none ?_⟩
    have kept := Snapshot.capture_disk m.stamp m.root m.touched m.plan m.volume
    obtain ⟨below, valid, shelved⟩ := holds.shelved
    obtain ⟨tree', same, _⟩ := Snapshot.persist_spec s holds.disk valid holds.shelf
    change Snapshot.capture m.stamp m.root m.touched m.plan m.volume = (.ok s, v) at read
    change s.persist m.snapshotDir v.disk = (.ok path, disk) at written
    rw [read] at kept
    rw [shelved, kept.1] at written
    rw [written] at tree' same
    exact holds.tracked tree' same

theorem run_tallies (tallies : Tallies count (m.runSteps probe seconds signals))
    (committed : (m.run probe seconds signals).state = .committed) :
    (m.run probe seconds signals).result.filesEdited = count := by
  -- At most a failure is put on record behind the steps.
  have kept : (m.run probe seconds signals).state = (m.runSteps probe seconds signals).2.state ∧
      (m.run probe seconds signals).filesEdited =
        (m.runSteps probe seconds signals).2.filesEdited := by
    unfold run
    split
    · rename_i result
      rw [result]
      exact ⟨rfl, rfl⟩
    · rename_i result
      rw [result]
      exact ⟨rfl, rfl⟩
    · rename_i result
      rw [result]
      split <;> exact ⟨rfl, rfl⟩
  exact kept.2.trans (tallies (kept.1.symm.trans committed))

/-- The modules that have a rule are the ones that change: no other module has anything replaced,
whether it could be read or not, and a migration that commits has edited all of them. -/
theorem affected_counted (reader : Extractor) (byLanguage : reader.ByLanguage)
    (fits : Extractor.SpansFit reader.extract) (tree : SourceTree)
    (distinct : tree.modules.Pairwise fun a b => a.path.same b.path = false) (project : Project)
    (aliases : List Alias) (g : Graph)
    (built : g = Graph.build tree (Graph.extractAll reader.extract tree.modules) aliases
      project.config.extensions)
    (candidates : List Candidate) (policy : Policy) (existing : List Path) (plan : MovePlan)
    (made : MovePlan.make candidates policy existing = .ok plan) (rules : Rules) :
    (∀ module ∈ tree.modules, module.path ∈ rules.affected g ↔ 0 < (rules.apply reader.extract
      module.path (plan.finalPath module.path) module.content).replacements) ∧
    (∀ p ∈ rules.affected g, ∃ module ∈ tree.modules, module.path = p) ∧
    (∀ module ∈ tree.modules, module.path ∉ rules.affected g → rules.apply reader.extract
      module.path (plan.finalPath module.path) module.content = .done module.content 0) ∧
    ∀ (m : Migration) (stamp : Stamp) (volume : Volume) (top store : Location) (probe : Probe)
      (seconds : Nat) (signals : MigrationStep → Bool),
      m = { project.migration ⟨plan, rules, rules.affected g⟩ stamp volume
        with extract := reader.extract } →
      (∀ c ∈ candidates, ∃ module ∈ tree.modules, module.path = c.path) → m.Holds tree top store →
      (m.run probe seconds signals).state = .committed →
      (m.run probe seconds signals).result.filesEdited = (rules.affected g).length := by
  have sound := MovePlan.sound_of_make made
  have changes : ∀ module ∈ tree.modules, module.path ∈ rules.affected g ↔ 0 < (rules.apply
      reader.extract module.path (plan.finalPath module.path) module.content).replacements := by
    rw [built]
    exact fun module member => Rules.mem_affected_iff distinct byLanguage aliases _ fits sound member
  have listed : ∀ p ∈ rules.affected g, ∃ module ∈ tree.modules, module.path = p := by
    rw [built]
    exact fun p member => Rules.affected_module member
  refine ⟨changes, listed, fun module member outside => ?_, ?_⟩
  · rw [changes module member] at outside
    obtain ⟨edited, done, _⟩ :=
      rules.apply_of_spansFit fits module.path (plan.finalPath module.path) module.content
    rw [done] at outside ⊢
    have none := Nat.eq_zero_of_not_pos outside
    change List.length _ = 0 at none
    rw [none] at done ⊢
    rw [Rules.apply_unchanged done]
  · rintro m stamp volume top store probe seconds signals rfl known holds committed
    refine run_tallies probe seconds signals
      (runSteps_tallies probe seconds signals holds ?_ rfl rfl) committed
    constructor
    · exact holds.root
    · exact holds.disk.named top .dir holds.here
    · intro p member
      obtain ⟨module, inside, rfl⟩ := List.mem_map.mp member
      exact ((mem_filesBelow holds.disk holds.here).mp (holds.modules module inside).1).1
    · exact sound.ordered
    · intro move member
      obtain ⟨c, candidate, source⟩ := sound.known move member
      obtain ⟨module, inside, same⟩ := known c candidate
      exact List.mem_map.mpr ⟨module, inside, same.trans source⟩
    · exact fun move member => Snapshot.target_plain sound member
    · have ascending : Keys.Ascending (rules.affected g) :=
        built ▸ rules.affected_ascending tree reader aliases _
      exact ascending.imp fun less same => Path.components_ne_of_lt less
        (congrArg Path.components same)
    · intro p target
      obtain ⟨module, inside, rfl⟩ := listed p target
      refine ⟨List.mem_map.mpr ⟨module, inside, rfl⟩, fun b file => ?_⟩
      obtain ⟨_, bytes, there, read⟩ := holds.modules module inside
      cases there.symm.trans file
      rw [read]
      exact (changes module inside).mp target

def rawTree : SourceTree :=
  { root := pathOf ["project"]
    modules := [{ path := ⟨"a.ts"⟩, content := "import './b'", size := 12 },
      { path := ⟨"b.ts"⟩, content := "", size := 1, decoded := false }]
    files := .ofList [⟨"a.ts"⟩, ⟨"b.ts"⟩] }

def rawVolume : Volume :=
  { disk.nodes := ⟨[(["project"], .dir), (["project", "a.ts"], .file (Text.encode "import './b'")),
      (["project", "b.ts"], .file [255])], by decide⟩ }

def rawPolicy : Policy := fun p _ => if p = ⟨"b.ts"⟩ then some ⟨"lib"⟩ else none

def rawStamp : Stamp := ⟨List.replicate 16 0, .epoch⟩

/-- The one that is no text moves, and the other one is edited. -/
theorem affected_counted_raw :
    let project : Project := ⟨pathOf ["project"], {}⟩
    let g := Project.graphOf project.config [] rawTree
    let plan : MovePlan := ⟨[⟨⟨"b.ts"⟩, ⟨"lib/b.ts"⟩⟩]⟩
    let rules : Rules := { byReferrer := .single ⟨"a.ts"⟩ (.single "./b" "./lib/b") }
    let m := project.migration ⟨plan, rules, rules.affected g⟩ rawStamp rawVolume
    Rules.derive plan g = .ok rules ∧ rules.affected g = [⟨"a.ts"⟩] ∧
      rules.apply project.config.backend.extract ⟨"b.ts"⟩ (plan.finalPath ⟨"b.ts"⟩) "" = .done "" 0 ∧
      m.Holds rawTree ["project"] ["project", ".restructure"] ∧ (m.run lenient 60).state = .committed ∧
      (m.run lenient 60).result.filesEdited = 1 := by
  intro project g plan rules m
  have derived : Rules.derive plan g = .ok rules := by decide +kernel
  have affected : rules.affected g = [⟨"a.ts"⟩] := by decide +kernel
  have made : MovePlan.make [⟨⟨"a.ts"⟩, none⟩, ⟨⟨"b.ts"⟩, none⟩] rawPolicy rawTree.files =
      .ok plan := by
    decide +kernel
  have holds : m.Holds rawTree ["project"] ["project", ".restructure"] := by
    refine ⟨show
      rawVolume.disk.IsTree by decide, rfl, rfl, rfl, ⟨["snapshots"], by decide, by decide⟩, ?_⟩
    intro module member
    rcases List.mem_cons.mp member with rfl | member
    · exact ⟨show _ ∈ rawVolume.disk.filesBelow _
        _ by decide, Text.encode "import './b'", rfl, by decide⟩
    · rw [List.mem_singleton.mp member]
      exact ⟨show _ ∈ rawVolume.disk.filesBelow _ _ by decide, [255], rfl, by decide⟩
  have same : m = project.migration ⟨plan, rules, [⟨"a.ts"⟩]⟩ rawStamp rawVolume := by rw [← affected]
  have committed : (m.run lenient 60).state = .committed := by
    rw [same]
    decide +kernel
  obtain ⟨_, _, others, counts⟩ := affected_counted project.config.backend.extractor
    (Backend.byLanguage _) (Backend.spansFit _) rawTree (by decide) project
      [] g rfl _ rawPolicy _ plan made rules
  refine ⟨derived, affected, ?_, holds, committed, ?_⟩
  · exact others { path := ⟨"b.ts"⟩, content := "", size := 1, decoded := false } (by decide)
      (by rw [affected]; decide)
  · rw [counts m rawStamp rawVolume _ _ lenient 60 (fun _ => false) rfl (by decide) holds committed,
      affected]
    rfl

end Migration

end Relocation
