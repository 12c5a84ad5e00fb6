import Relocation.Proofs.Snapshot.Capture
import Relocation.Proofs.Snapshot.Clean

/-!
# Restoring again

A restore may meet a tree that others have changed since the snapshot was taken. Whatever the tree
is, a restore leaves every file alone that the snapshot neither holds nor expects at a destination,
and a file at a destination goes only if its source is not there. Once a restore has ended without
failures, another one changes nothing.
-/

namespace Relocation

namespace Volume

variable {v : Volume}

theorem Calm.halting (calm : v.Calm) : v.Halting := by
  intro past c message failed
  rw [calm past c] at failed
  cases failed

theorem Calm.not_stopped (calm : v.Calm) : ¬ v.Stopped := by
  intro stopped
  obtain ⟨message, failed⟩ := stopped (.read ⟨""⟩)
  rw [calm] at failed
  cases failed

theorem Calm.sweeps (calm : v.Calm) : v.Sweeps := by
  intro past p message failed
  rw [calm] at failed
  cases failed

end Volume

namespace Snapshot

open Disk

/-- The snapshot holds the files that its moves take away and none of their destinations, which are
all different, and it lists directories in ascending order. -/
structure Coherent (s : Snapshot) (top : Location) : Prop extends s.Placed top where
  covers : ∀ m ∈ s.moves, ∃ f ∈ s.files, f.path = m.source
  distinct : s.moves.Pairwise fun a b => a.target ≠ b.target
  vacant : ∀ m ∈ s.moves, ∀ f ∈ s.files, f.path ≠ m.target
  ordered : s.newDirs.Pairwise fun a b => (compare a b).isLE = true

variable {s : Snapshot} {top : Location} {v w : Volume}

theorem capture_coherent {d : Disk} {store : Location} {plan : MovePlan} {candidates : List Candidate}
    {targets : List Path} (tree : d.IsTree) (here : d.at? top = some .dir)
    (sound : plan.Sound candidates (d.filesBelow top store))
    (candidatesKnown : ∀ c ∈ candidates, c.path ∈ d.filesBelow top store)
    (targetsKnown : ∀ p ∈ targets, p ∈ d.filesBelow top store) {stamp : Stamp} (disk : v.disk = d)
    (outside : ∀ m ∈ plan.moves, ¬ store <+: spot top m.target)
    (result : capture stamp (pathOf top) (plan.moves.map (·.source) ++ targets) plan v = (.ok s, w)) :
    s.Coherent top := by
  obtain ⟨described, moves, _⟩ :=
    capture_describes tree here sound candidatesKnown targetsKnown disk outside result
  refine ⟨described.placed, described.covers, ?_, fun m member f held same => ?_, ?_⟩
  · rw [moves]
    refine sound.distinct.imp fun {a b} different same => ?_
    rw [Path.same_iff.mpr (congrArg Path.components same)] at different
    cases different
  · exact described.vacant m member f.content (same ▸ described.holds f held)
  · have sorted : Keys.Ascending (newDirsOf v.disk (pathOf top) plan) := Keys.ascending _
    rw [newDirs_capture (congrArg Prod.fst result)]
    exact sorted.imp fun {a b} (less : compare a b = .lt) => by rw [less]; rfl

theorem forEach_append (act : α → RestoreReport → Volume → RestoreReport × Volume)
    (front back : List α) (report : RestoreReport) (v : Volume) :
    forEach (front ++ back) act report v =
      forEach back act (forEach front act report v).1 (forEach front act report v).2 := by
  rw [forEach, List.foldl_append]
  rfl

/-! ### Files that a restore leaves alone -/

structure Spares (Concerned : Location → Prop) (v w : Volume) : Prop where
  tree : w.disk.IsTree
  hazards : w.hazards = v.hazards
  files : ∀ l, ¬ Concerned l → ∀ c, w.disk.at? l = some (.file c) ↔ v.disk.at? l = some (.file c)

theorem Spares.of_disk {Concerned : Location → Prop} (tree : v.disk.IsTree)
    (hazards : w.hazards = v.hazards) (disk : w.disk = v.disk) : Spares Concerned v w :=
  ⟨disk ▸ tree, hazards, fun l _ c => by rw [disk]⟩

theorem Spares.trans {First Second : Location → Prop} {u : Volume} (first : Spares First u v)
    (second : Spares Second v w) : Spares (fun l => First l ∨ Second l) u w where
  tree := second.tree
  hazards := second.hazards.trans first.hazards
  files := fun l free c => (second.files l (fun concerned => free (Or.inr concerned)) c).trans
    (first.files l (fun concerned => free (Or.inl concerned)) c)

theorem forEach_spares {Concerned : Location → Prop}
    (act : α → RestoreReport → Volume → RestoreReport × Volume)
    {items : List α} (step : ∀ a ∈ items, ∀ report (w : Volume), w.Calm → w.disk.IsTree →
      Spares Concerned w (act a report w).2) (calm :
      v.Calm) (tree : v.disk.IsTree) (report : RestoreReport) :
    Spares Concerned v (forEach items act report v).2 := by
  refine (forEach_spec act items (Spares Concerned v) (fun _ _ => True) (fun _ => True) ?_
    (fun a member => member) report (.of_disk tree rfl rfl)).1
  intro a member report w spared
  refine ⟨?_, by simp⟩
  have next := spared.trans (step a member report w (calm.of_hazards spared.hazards) spared.tree)
  exact ⟨next.tree, next.hazards, fun l free => next.files l (by simpa using free)⟩

section
variable (placed : s.Placed top)
include placed

theorem undoMove_spares {Concerned : Location → Prop} {m : Move} (member : m ∈ s.moves)
    (concerned : Concerned (spot top m.target)) (report : RestoreReport) (tree : v.disk.IsTree) :
    Spares Concerned v (undoMove s.root m report v).2 := by
  obtain ⟨report', v', result, hazards, ⟨same, _⟩ | ⟨⟨c, file⟩, _, erased, _⟩ | ⟨same, _⟩⟩ :=
    undoMove_cases placed tree member report
  · rw [result]
    exact .of_disk tree hazards (by rw [same])
  · have proper := spot_ne_nil top (placed.plainMoves m member).2
    rw [result]
    refine ⟨?_, hazards, fun l free c => ?_⟩
    · rw [erased]
      exact tree.erase proper fun below inside strict => tree.below_file file inside strict
    · rw [erased, at?_erase proper, if_neg (by rintro rfl; exact free concerned)]
  · rw [result]
    exact .of_disk tree hazards same

theorem restoreFile_spares {Concerned : Location → Prop} {f : SnapshotFile} (member : f ∈ s.files)
    (concerned : Concerned (spot top f.path)) (report : RestoreReport) (calm : v.Calm)
    (tree : v.disk.IsTree) : Spares Concerned v (restoreFile s.root f report v).2 := by
  have plain := placed.plainFiles f member
  have proper := spot_ne_nil top plain
  have valid := spot_valid placed.above plain
  by_cases shut : v.disk.IsBlocked (spot top f.path).dropLast ∨
    v.disk.at? (spot top f.path) = some .dir
  · obtain ⟨report', v', result, hazards, disk, _⟩ :=
      restoreFile_shut calm placed tree member shut report
    rw [result]
    exact .of_disk tree hazards disk
  · obtain ⟨clear, open'⟩ := not_or.mp shut
    obtain ⟨v', result, hazards, disk⟩ := restoreFile_open calm placed tree member clear open' report
    have made := tree.makeDirs (fun name inside => valid name (List.dropLast_subset _ inside)) clear
    rw [result]
    refine ⟨?_, hazards, fun l free c => ?_⟩
    · rw [disk]
      exact made.putFile valid (tree.takes_makeDirs proper clear open') f.content
    · rw [disk, at?_put proper, if_neg (by rintro rfl; exact free concerned), at?_makeDirs]
      split
      · rename_i new
        simp [new.2]
      · rfl

variable (calm : v.Calm) (tree : v.disk.IsTree)
include calm tree

theorem undoMoves_spares {items : List Move} (inside : ∀ m ∈ items, m ∈ s.moves)
    (report : RestoreReport) : Spares (fun l => ∃ m ∈ items, spot top m.target = l) v
      (forEach items.reverse (undoMove s.root) report v).2 := by
  refine forEach_spares _ (fun m listed report w _ tree => ?_) calm tree report
  have member := List.mem_reverse.mp listed
  exact undoMove_spares placed (inside m member) ⟨m, member, rfl⟩ report tree

theorem restoreFiles_spares {items : List SnapshotFile} (inside : ∀ f ∈ items, f ∈ s.files)
    (report : RestoreReport) : Spares (fun l => ∃ f ∈ items, spot top f.path = l) v
      (forEach items (restoreFile s.root) report v).2 := by
  refine forEach_spares _ (fun f member report w calm tree => ?_) calm tree report
  exact restoreFile_spares placed (inside f member) ⟨f, member, rfl⟩ report calm tree

end

/-! ### Directories that go -/

structure Pruned (top : Location) (items : List Path) (v w : Volume) : Prop where
  tree : w.disk.IsTree
  hazards : w.hazards = v.hazards
  nodes : ∀ l, w.disk.at? l = v.disk.at? l ∨
    (v.disk.at? l = some .dir ∧ w.disk.at? l = none ∧ ∃ p ∈ items, spot top p = l)

theorem Pruned.file_iff {items : List Path} (pruned : Pruned top items v w) (l : Location)
    (c : Text.Bytes) : w.disk.at? l = some (.file c) ↔ v.disk.at? l = some (.file c) := by
  rcases pruned.nodes l with same | ⟨dir, gone, _⟩
  · rw [same]
  · rw [dir, gone]
    simp

theorem Pruned.dir {items : List Path} (pruned : Pruned top items v w) {l : Location}
    (dir : w.disk.at? l = some .dir) : v.disk.at? l = some .dir := by
  rcases pruned.nodes l with same | ⟨still, _, _⟩
  · rw [← same, dir]
  · exact still

theorem Pruned.cons {p : Path} {rest : List Path} {u : Volume} (first : Pruned top [p] u v)
    (second : Pruned top rest v w) : Pruned top (p :: rest) u w where
  tree := second.tree
  hazards := second.hazards.trans first.hazards
  nodes := by
    intro l
    rcases second.nodes l with same | ⟨dir, gone, q, listed, here⟩
    · rw [same]
      rcases first.nodes l with still | ⟨dir, gone, q, listed, here⟩
      · exact Or.inl still
      · exact Or.inr ⟨dir, gone, q, by simp [List.mem_singleton.mp listed], here⟩
    · exact Or.inr ⟨first.dir dir, gone, q, List.mem_cons_of_mem _ listed, here⟩

/-- A directory that is not empty stays so unless one below it goes. -/
theorem Pruned.full {items : List Path} (pruned : Pruned top items v w) (tree : v.disk.IsTree)
    {l : Location} (full : v.disk.isEmptyDir l = false) (apart : ∀ p ∈ items, l <+: spot top p →
      l = spot top p) :
    w.disk.isEmptyDir l = false := by
  rw [← Bool.not_eq_true, isEmptyDir_iff tree] at full
  rw [← Bool.not_eq_true, isEmptyDir_iff pruned.tree]
  refine fun empty => full fun below within strict => ?_
  rcases pruned.nodes below with same | ⟨_, _, p, listed, here⟩
  · rw [← same, empty below within strict]
  · exact (strict (here ▸ apart p listed (here ▸ within))).elim

section
variable (placed : s.Placed top)
include placed

theorem pruneDir_pruned {p : Path} (member : p ∈ s.newDirs) (report : RestoreReport)
    (tree : v.disk.IsTree) : Pruned top [p] v (pruneDir s.root p report v).2 ∧
    (pruneDir s.root p report v).1.failures = report.failures := by
  obtain ⟨report', v', result, hazards, failures, ⟨same, _⟩ | ⟨empty, dir, erased⟩⟩ :=
    pruneDir_cases placed tree member report
  · rw [result]
    exact ⟨⟨same ▸ tree, hazards, fun l => Or.inl (by rw [same])⟩, failures⟩
  · have proper := spot_ne_nil top (placed.plainDirs p member)
    rw [result]
    refine ⟨⟨?_, hazards, fun l => ?_⟩, failures⟩
    · rw [erased]
      exact tree.erase proper ((isEmptyDir_iff tree).mp empty)
    · rw [erased, at?_erase proper]
      split
      · rename_i same
        exact Or.inr ⟨same ▸ dir, rfl, p, List.mem_singleton_self p, same.symm⟩
      · exact Or.inl rfl

theorem pruneDirs_pruned (tree : v.disk.IsTree) {items : List Path}
    (inside : ∀ p ∈ items, p ∈ s.newDirs) (report : RestoreReport) :
    Pruned top items v (forEach items (pruneDir s.root) report v).2 ∧
      (forEach items (pruneDir s.root) report v).1.failures = report.failures := by
  induction items generalizing report v with
  | nil => exact ⟨⟨tree, rfl, fun _ => Or.inl rfl⟩, rfl⟩
  | cons p rest ih =>
    obtain ⟨first, same⟩ := pruneDir_pruned placed (inside p List.mem_cons_self) report tree
    obtain ⟨second, others⟩ := ih first.tree (fun q later => inside q (List.mem_cons_of_mem _ later)) _
    rw [forEach_cons]
    exact ⟨first.cons second, others.trans same⟩

theorem pruneDir_full {p : Path} (member : p ∈ s.newDirs) (report : RestoreReport) (calm : v.Calm)
    (tree : v.disk.IsTree) (dir : (pruneDir s.root p report v).2.disk.at? (spot top p) = some .dir) :
    (pruneDir s.root p report v).2.disk.isEmptyDir (spot top p) = false := by
  obtain ⟨report', v', result, _, _, ⟨same, _, full⟩ | ⟨_, _, erased⟩⟩ :=
    pruneDir_cases placed tree member report
  · rw [result, same] at dir ⊢
    exact full calm.sweeps dir
  · rw [result, erased, at?_erase (spot_ne_nil top (placed.plainDirs p member)), if_pos rfl] at dir
    cases dir

/-- Innermost directories first, all that are empty go. -/
theorem pruneDirs_full (calm : v.Calm) (tree : v.disk.IsTree) {items : List Path}
    (inside : ∀ p ∈ items, p ∈ s.newDirs)
    (ordered : items.Pairwise fun a b => spot top a <+: spot top b → spot top a = spot top b)
    (report : RestoreReport) : ∀ p ∈ items, (forEach items (pruneDir s.root) report v).2.disk.at?
      (spot top p) = some .dir → (forEach items (pruneDir s.root) report v).2.disk.isEmptyDir
        (spot top p) = false := by
  induction items generalizing report v with
  | nil => simp
  | cons p rest ih =>
    obtain ⟨apart, ordered⟩ := List.pairwise_cons.mp ordered
    have member := inside p List.mem_cons_self
    have others : ∀ q ∈ rest, q ∈ s.newDirs := fun q later => inside q (List.mem_cons_of_mem _ later)
    have first := (pruneDir_pruned placed member report tree).1
    have second := (pruneDirs_pruned placed first.tree others (pruneDir s.root p report v).1).1
    rw [forEach_cons]
    intro q listed dir
    rcases List.mem_cons.mp listed with rfl | later
    · exact second.full first.tree (pruneDir_full placed member report calm tree
        (second.dir dir)) apart
    · exact ih (calm.of_hazards first.hazards) first.tree others ordered _ q later dir

end

/-! ### The parts of a restore -/

def undone (s : Snapshot) (v : Volume) :
    RestoreReport × Volume := forEach s.moves.reverse (undoMove s.root) {} v

def refilled (s : Snapshot) (v : Volume) : RestoreReport × Volume :=
  forEach s.files (restoreFile s.root) (s.undone v).1 (s.undone v).2

theorem restore_eq (s : Snapshot) (v : Volume) :
    s.restore v = forEach s.newDirs.reverse (pruneDir s.root) (s.refilled v).1 (s.refilled v).2 := rfl

def IsTarget (s : Snapshot) (top l : Location) : Prop := ∃ m ∈ s.moves, spot top m.target = l

def IsHeld (s : Snapshot) (top l : Location) : Prop := ∃ f ∈ s.files, spot top f.path = l

section
variable (placed : s.Placed top) (calm : v.Calm) (tree : v.disk.IsTree)
include placed calm tree

theorem undone_spares : Spares (s.IsTarget top) v (s.undone v).2 :=
  undoMoves_spares placed calm tree (fun _ member => member) {}

theorem refilled_spares : Spares (s.IsHeld top) (s.undone v).2 (s.refilled v).2 := by
  have before := undone_spares placed calm tree
  exact restoreFiles_spares placed (calm.of_hazards before.hazards) before.tree
    (fun _ member => member) _

theorem restore_pruned :
    Pruned top s.newDirs (s.refilled v).2 (s.restore v).2 ∧
    (s.restore v).1.failures = (s.refilled v).1.failures := by
  have before := (undone_spares placed calm tree).trans (refilled_spares placed calm tree)
  obtain ⟨pruned, same⟩ := pruneDirs_pruned placed before.tree
    (fun p (member : p ∈ s.newDirs.reverse) => List.mem_reverse.mp member) (s.refilled v).1
  rw [restore_eq]
  exact ⟨⟨pruned.tree, pruned.hazards, fun l => by simpa using pruned.nodes l⟩, same⟩

theorem restore_spares : Spares (fun l => s.IsTarget top l ∨ s.IsHeld top l) v (s.restore v).2 :=
  have before := (undone_spares placed calm tree).trans (refilled_spares placed calm tree)
  ⟨(restore_pruned placed calm tree).1.tree, (restore_pruned placed calm tree).1.hazards.trans
    before.hazards, fun l free c => ((restore_pruned placed calm tree).1.file_iff l c).trans
      (before.files l free c)⟩

end

/-- The volume when the turn of a move comes: the moves behind it have been dealt with. -/
def atTurn (s : Snapshot) (later : List Move) (v : Volume) : Volume :=
  (forEach later.reverse (undoMove s.root) {} v).2

theorem atTurn_spares (placed : s.Placed top) (calm : v.Calm) (tree : v.disk.IsTree)
    {earlier later : List Move} {m : Move} (split : s.moves = earlier ++ m :: later) :
    Spares (fun l => ∃ other ∈ later, spot top other.target = l) v (s.atTurn later v) :=
  undoMoves_spares placed calm tree (fun other late => by simp [split, late]) {}

/-- A file at the destination of a move goes when the move is undone, unless its source is there. -/
theorem undoMove_target (placed : s.Placed top) (calm : v.Calm) (tree : v.disk.IsTree) {m : Move}
    (member : m ∈ s.moves) {c : Text.Bytes} (file : v.disk.at? (spot top m.target) = some (.file c))
    (report : RestoreReport) : (v.disk.at? (spot top m.source) ≠ none ∧
        (undoMove s.root m report v).2.disk.at? (spot top m.target) = some (.file c)) ∨
      (v.disk.at? (spot top m.source) = none ∧
        (undoMove s.root m report v).2.disk.at? (spot top m.target) = none) := by
  obtain ⟨report', w, result, hazards, ⟨same, _, skipped⟩ | ⟨_, gone, erased, _⟩ | ⟨_, _, reason⟩⟩ :=
    undoMove_cases placed tree member report
  · refine Or.inl ⟨skipped.resolve_left (by rw [file]; simp), ?_⟩
    rw [result, same]
    exact file
  · refine Or.inr ⟨gone, ?_⟩
    rw [result, erased, at?_erase (spot_ne_nil top (placed.plainMoves m member).2), if_pos rfl]
  · rcases reason with clear | stops
    · exact (clear c file).elim
    · exact ((calm.of_hazards hazards).not_stopped (stops calm.halting)).elim

theorem Coherent.target_free (coherent : s.Coherent top) {m : Move} (member : m ∈ s.moves) :
    ¬ s.IsHeld top (spot top m.target) := by
  rintro ⟨f, held, place⟩
  exact coherent.vacant m member f held
    (spot_inj (coherent.plainFiles f held) (coherent.plainMoves m member).2 place)

section
variable (coherent : s.Coherent top) (calm : v.Calm) (tree : v.disk.IsTree)
include coherent

theorem target_apart {earlier later : List Move} {m : Move} (split : s.moves = earlier ++ m :: later) :
    ∀ other ∈ earlier ++ later, spot top other.target ≠ spot top m.target := by
  have distinct := coherent.distinct
  rw [split] at distinct
  obtain ⟨_, behind, across⟩ := List.pairwise_append.mp distinct
  have listed : ∀ other ∈ earlier ++ m :: later, other.target.IsPlain := fun other inside =>
    (coherent.plainMoves other (split ▸ inside)).2
  intro other member same
  have equal := spot_inj (listed other (by simp at member ⊢; tauto)) (listed m (by simp)) same
  rcases List.mem_append.mp member with early | late
  · exact across other early m List.mem_cons_self equal
  · exact (List.pairwise_cons.mp behind).1 other late equal.symm

include calm tree

/-- A file at a destination is removed if, and only if, its source is not there when the turn of the
move comes. -/
theorem undone_target {earlier later : List Move} {m : Move} (split : s.moves = earlier ++ m :: later)
    {c : Text.Bytes} (file : v.disk.at? (spot top m.target) = some (.file c)) :
    ((s.atTurn later v).disk.at? (spot top m.source) ≠ none ∧
        (s.undone v).2.disk.at? (spot top m.target) = some (.file c)) ∨
      ((s.atTurn later v).disk.at? (spot top m.source) = none ∧
        ∀ b, (s.undone v).2.disk.at? (spot top m.target) ≠ some (.file b)) := by
  have placed := coherent.toPlaced
  have apart := target_apart coherent split
  have member : ∀ other ∈ earlier ++ m :: later, other ∈ s.moves := fun other inside => split ▸ inside
  have before := atTurn_spares placed calm tree split
  have there := (before.files (spot top m.target) (by
    rintro ⟨other, late, same⟩
    exact apart other (List.mem_append_right _ late) same) c).mpr file
  obtain ⟨report, parts⟩ : ∃ report, s.undone v = forEach earlier.reverse (undoMove s.root)
      (undoMove s.root m report (s.atTurn later v)).1
        (undoMove s.root m report (s.atTurn later v)).2 := by
    refine ⟨(forEach later.reverse (undoMove s.root) {} v).1, ?_⟩
    rw [undone, split, List.reverse_append, List.reverse_cons, List.append_assoc, forEach_append]
    rfl
  have calmNow := calm.of_hazards before.hazards
  have acted : Spares (fun _ => True) (s.atTurn later v) _ :=
    undoMove_spares placed (member m (by simp)) trivial report before.tree
  have after := undoMoves_spares placed (calmNow.of_hazards acted.hazards) acted.tree
    (fun other (early : other ∈ earlier) => member other (by simp [early]))
      (undoMove s.root m report (s.atTurn later v)).1
  rw [← parts] at after
  have kept := after.files (spot top m.target) (by
    rintro ⟨other, early, same⟩
    exact apart other (List.mem_append_left _ early) same)
  rcases undoMove_target placed calmNow before.tree (member m (by simp)) there report
    with ⟨source, stays⟩ | ⟨gone, goes⟩
  · exact Or.inl ⟨source, (kept c).mpr stays⟩
  · refine Or.inr ⟨gone, fun b still => ?_⟩
    have left := (kept b).mp still
    rw [goes] at left
    cases left

end

/-! ### What a restore without failures leaves -/

/-- Every file that the snapshot holds is there as it was held last, and no directory that it lists
is empty. -/
structure Settled (s : Snapshot) (top : Location) (d : Disk) : Prop where
  last : ∀ before f after, s.files = before ++ f :: after → (∀ g ∈ after, g.path ≠ f.path) →
    d.at? (spot top f.path) = some (.file f.content)
  full : ∀ p ∈ s.newDirs, d.at? (spot top p) = some .dir → d.isEmptyDir (spot top p) = false

theorem exists_last {files : List SnapshotFile} {f : SnapshotFile} (member : f ∈ files) :
    ∃ before g after, files = before ++ g :: after ∧ g.path = f.path ∧
    ∀ h ∈ after, h.path ≠ g.path := by
  have found : (files.reverse.find? fun g => g.path = f.path).isSome = true :=
    List.find?_isSome.mpr ⟨f, List.mem_reverse.mpr member, by simp⟩
  obtain ⟨g, first⟩ := Option.isSome_iff_exists.mp found
  obtain ⟨same, after, before, parts, others⟩ := List.find?_eq_some_iff_append.mp first
  have path : g.path = f.path := by simpa using same
  refine ⟨before.reverse, g, after.reverse, ?_, path, fun h later => ?_⟩
  · rw [← List.reverse_reverse files, parts]
    simp
  · simpa [path] using others h (List.mem_reverse.mp later)

theorem Settled.file {d : Disk} (settled : s.Settled top d) {f : SnapshotFile} (member : f ∈ s.files) :
    ∃ g ∈ s.files, g.path = f.path ∧ d.at? (spot top f.path) = some (.file g.content) := by
  obtain ⟨before, g, after, split, same, final⟩ := exists_last member
  exact ⟨g, by simp [split], same, same ▸ settled.last before g after split final⟩

section
variable (placed : s.Placed top)
include placed

theorem restoreFiles_last (calm : v.Calm) (tree : v.disk.IsTree) {items : List SnapshotFile}
    (inside : ∀ f ∈ items, f ∈ s.files) (report : RestoreReport)
    (clean : (forEach items (restoreFile s.root) report v).1.failures = []) :
    report.failures = [] ∧ ∀ before f after, items = before ++ f :: after →
    (∀ g ∈ after, g.path ≠ f.path) →
      (forEach items (restoreFile s.root) report v).2.disk.at? (spot top f.path) =
        some (.file f.content) := by
  induction items generalizing report v with
  | nil => exact ⟨clean, by simp⟩
  | cons f rest ih =>
    have member := inside f List.mem_cons_self
    have others : ∀ g ∈ rest, g ∈ s.files := fun g later => inside g (List.mem_cons_of_mem _ later)
    have next : Spares (fun _ => True) v _ := restoreFile_spares placed member trivial report calm tree
    have calm' := calm.of_hazards next.hazards
    rw [forEach_cons] at clean ⊢
    obtain ⟨sofar, later⟩ := ih calm' next.tree others _ clean
    by_cases shut : v.disk.IsBlocked (spot top f.path).dropLast ∨
      v.disk.at? (spot top f.path) = some .dir
    · obtain ⟨report', v', result, _, _, failed⟩ :=
        restoreFile_shut calm placed tree member shut report
      rw [result] at sofar
      exact (failed sofar).elim
    · obtain ⟨clear, open'⟩ := not_or.mp shut
      obtain ⟨v', result, _, disk⟩ := restoreFile_open calm placed tree member clear open' report
      refine ⟨by rw [result] at sofar; exact sofar, fun before g after split final => ?_⟩
      cases before with
      | nil =>
        -- The file just written is not written again.
        cases split
        have proper := spot_ne_nil top (placed.plainFiles f member)
        have written : (restoreFile s.root f report v).2.disk.at? (spot top f.path) =
            some (.file f.content) := by
          rw [result, disk, at?_put proper, if_pos rfl]
        refine ((restoreFiles_spares placed calm' next.tree others _).files _ ?_ _).mpr written
        rintro ⟨g, later, same⟩
        exact final g later (spot_inj (placed.plainFiles g (others g later))
          (placed.plainFiles f member) same)
      | cons first front =>
        cases split
        exact later front g after rfl final

end

/-- Listed directories, last first, come before those that they lie in. -/
theorem Coherent.innermost (coherent : s.Coherent top) :
    s.newDirs.reverse.Pairwise fun a b => spot top a <+: spot top b → spot top a = spot top b := by
  refine List.pairwise_reverse.mpr (coherent.ordered.imp_of_mem fun {a b} left right order
    within => ?_)
  have plainLeft := coherent.plainDirs a left
  have plainRight := coherent.plainDirs b right
  have comps : b.components <+: a.components := by
    rw [show a.components = _ from plainLeft.spells, show b.components = _ from plainRight.spells]
    exact ((List.prefix_append_right_inj top).mp within).map _
  have notLess := compare_prefix comps
  have equal : compare a b = .eq := by
    cases known : compare a b with
    | lt => exact (notLess known).elim
    | eq => rfl
    | gt => rw [known] at order; cases order
  rw [plain_of_components plainLeft plainRight (Path.compare_eq_iff.mp equal)]

section
variable (coherent : s.Coherent top) (calm : v.Calm) (tree : v.disk.IsTree)
include coherent calm tree

theorem restore_settled (clean : (s.restore v).1.failures = []) :
    s.Settled top (s.restore v).2.disk := by
  have placed := coherent.toPlaced
  have first := undone_spares placed calm tree
  have second := refilled_spares placed calm tree
  obtain ⟨pruned, same⟩ := restore_pruned placed calm tree
  have written := (restoreFiles_last placed (calm.of_hazards first.hazards) first.tree
    (fun f member => member) (s.undone v).1 (same ▸ clean)).2
  constructor
  · exact fun before f after split final => (pruned.file_iff _ _).mpr
      (written before f after split final)
  · exact fun p member => pruneDirs_full placed (calm.of_hazards (first.trans second).hazards)
      second.tree (fun q listed => List.mem_reverse.mp listed) coherent.innermost (s.refilled v).1 p
        (List.mem_reverse.mpr member)

end

/-! ### A settled tree -/

structure Pending (top : Location) (d : Disk) (items : List SnapshotFile) (w : Disk) : Prop where
  tree : w.IsTree
  here : w.here = d.here
  nodes : ∀ l, w.at? l = d.at? l ∨ ∃ f ∈ items, spot top f.path = l ∧ ∃ c, w.at? l = some (.file c)

theorem Pending.file {d w : Disk} {items : List SnapshotFile} (pending : Pending top d items w)
    (settled : s.Settled top d) {f : SnapshotFile} (member : f ∈ s.files) :
    ∃ b, w.at? (spot top f.path) = some (.file b) := by
  rcases pending.nodes (spot top f.path) with same | ⟨_, _, _, there⟩
  · obtain ⟨g, _, _, there⟩ := settled.file member
    exact ⟨g.content, same.trans there⟩
  · exact there

/-- A file once written is as it should be, or will be written again. -/
theorem Pending.written {d w w' : Disk} {f : SnapshotFile} {front rest : List SnapshotFile}
    (pending : Pending top d (f :: rest) w) (settled : s.Settled top d)
    (split : s.files = front ++ f :: rest) (tree : w'.IsTree) (here : w'.here = w.here)
    (nodes : ∀ l, w'.at? l = if l = spot top f.path then some (.file f.content) else w.at? l) :
    Pending top d rest w' := by
  refine ⟨tree, here.trans pending.here, fun l => ?_⟩
  rw [nodes]
  split
  · rename_i same
    by_cases again : ∃ g ∈ rest, g.path = f.path
    · obtain ⟨g, later, path⟩ := again
      exact Or.inr ⟨g, later, by rw [path, same], f.content, rfl⟩
    · refine Or.inl ?_
      rw [same, settled.last front f rest split fun g later path => again ⟨g, later, path⟩]
  · rename_i other
    rcases pending.nodes l with same | ⟨g, listed, place, there⟩
    · exact Or.inl same
    · rcases List.mem_cons.mp listed with rfl | later
      · exact (other place.symm).elim
      · exact Or.inr ⟨g, later, place, there⟩

section
variable (placed : s.Placed top)
include placed

theorem undoMove_skip {m : Move} (member : m ∈ s.moves) (tree : v.disk.IsTree)
    (there : v.disk.at? (spot top m.source) ≠ none) (report : RestoreReport) :
    undoMove s.root m report v = (report, v) := by
  have plain := (placed.plainMoves m member).1
  have known : v.disk.exists? (s.root.join m.source) = true := by
    rw [placed.root, join_spot placed.above plain, exists?_pathOf tree (spot_valid placed.above plain)]
    exact Option.isSome_iff_ne_none.mpr there
  rw [undoMove, known, Bool.or_true]
  rfl

theorem restoreFile_over {f : SnapshotFile} (member : f ∈ s.files) (calm : v.Calm)
    (tree : v.disk.IsTree) {b : Text.Bytes} (file : v.disk.at? (spot top f.path) = some (.file b))
    (report : RestoreReport) :
      ∃ v', restoreFile s.root f report v = ({ report with restored := report.restored + 1 }, v') ∧
      v'.hazards = v.hazards ∧ v'.disk.here = v.disk.here ∧ v'.disk.IsTree ∧
      ∀ l, v'.disk.at? l = if l = spot top f.path then some (.file f.content) else v.disk.at? l := by
  have plain := placed.plainFiles f member
  have proper := spot_ne_nil top plain
  have parent := tree.closed _ _ file
  have clear : ¬ v.disk.IsBlocked (spot top f.path).dropLast := by
    rintro ⟨above, c, within, blocking⟩
    rw [tree.way parent within] at blocking
    cases blocking
  obtain ⟨v', result, hazards, disk⟩ := restoreFile_open calm placed tree member clear
    (by rw [file]; simp) report
  have spared : Spares (fun _ => True) v _ := restoreFile_spares placed member trivial report calm tree
  rw [result] at spared
  rw [makeDirs, tree.absent_nil parent, List.foldl_nil] at disk
  refine ⟨v', result, hazards, ?_, spared.tree, fun l => ?_⟩
  · rw [disk]
    rfl
  · rw [disk, at?_put proper]

theorem restoreFiles_settled {d : Disk} (settled : s.Settled top d) {front items : List SnapshotFile}
    (split : s.files = front ++ items) (calm : v.Calm) (pending : Pending top d items v.disk)
    (report : RestoreReport) : (forEach items (restoreFile s.root) report v).1 =
      { report with restored := report.restored + items.length } ∧
      (forEach items (restoreFile s.root) report v).2.hazards = v.hazards ∧
      Pending top d [] (forEach items (restoreFile s.root) report v).2.disk := by
  induction items generalizing front report v with
  | nil => exact ⟨rfl, rfl, pending⟩
  | cons f rest ih =>
    have member : f ∈ s.files := by simp [split]
    obtain ⟨b, file⟩ := pending.file settled member
    obtain ⟨v', result, hazards, here, tree, nodes⟩ :=
      restoreFile_over placed member calm pending.tree file report
    have next := pending.written settled split tree here nodes
    have shifted : s.files = (front ++ [f]) ++ rest := by simp [split]
    obtain ⟨tally, still, final⟩ := ih shifted (calm.of_hazards hazards) next
      { report with restored := report.restored + 1 }
    rw [forEach_cons, result]
    refine ⟨tally.trans ?_, still.trans hazards, final⟩
    rw [List.length_cons, Nat.add_right_comm, Nat.add_assoc]

theorem pruneDirs_settled (tree : v.disk.IsTree) {items : List Path}
    (inside : ∀ p ∈ items, p ∈ s.newDirs) (full : ∀ p ∈ items, v.disk.at? (spot top p) = some .dir →
      v.disk.isEmptyDir (spot top p) = false)
    (report : RestoreReport) : (forEach items (pruneDir s.root) report v).1 = report ∧
      (forEach items (pruneDir s.root) report v).2.disk = v.disk := by
  induction items generalizing report v with
  | nil => exact ⟨rfl, rfl⟩
  | cons p rest ih =>
    obtain ⟨report', v', result, _, _, ⟨same, unchanged, _⟩ | ⟨empty, dir, _⟩⟩ :=
      pruneDir_cases placed tree (inside p List.mem_cons_self) report
    · obtain ⟨tally, disk⟩ :=
        ih (v := v') (same ▸ tree) (fun q later => inside q (List.mem_cons_of_mem _ later))
        (fun q later => same ▸ full q (List.mem_cons_of_mem _ later)) report'
      rw [forEach_cons, result]
      exact ⟨tally.trans unchanged, disk.trans same⟩
    · rw [full p List.mem_cons_self dir] at empty
      cases empty

end

theorem forEach_skip {act : α → RestoreReport → Volume → RestoreReport × Volume} {items : List α}
    (step : ∀ a ∈ items, ∀ report, act a report v = (report, v)) (report : RestoreReport) :
    forEach items act report v = (report, v) := by
  induction items with
  | nil => rfl
  | cons a rest ih =>
    rw [forEach_cons, step a List.mem_cons_self]
    exact ih fun b later => step b (List.mem_cons_of_mem _ later)

section
variable (coherent : s.Coherent top) (calm : v.Calm) (tree : v.disk.IsTree)
include coherent calm tree

/-- A restore of a settled tree writes every file as it is and does nothing else. -/
theorem Settled.restore_eq (settled : s.Settled top v.disk) :
    (s.restore v).1 = { restored := s.files.length } ∧ (s.restore v).2.disk = v.disk := by
  have placed := coherent.toPlaced
  have first : s.undone v = ({}, v) := by
    refine forEach_skip (fun m listed => ?_) {}
    have member := List.mem_reverse.mp listed
    obtain ⟨f, held, source⟩ := coherent.covers m member
    obtain ⟨g, _, _, there⟩ := settled.file held
    exact undoMove_skip placed member tree (by rw [← source, there]; simp)
  have whole : s.files = [] ++ s.files := rfl
  obtain ⟨tally, _, final⟩ := restoreFiles_settled placed settled whole calm ⟨tree, rfl,
    fun _ => Or.inl rfl⟩ {}
  have second : (s.refilled v).1 = { restored := s.files.length } ∧
      (s.refilled v).2.disk = v.disk := by
    rw [refilled, first]
    refine ⟨tally.trans (by rw [Nat.zero_add]), final.tree.eq_of_at? tree final.here fun l => ?_⟩
    exact (final.nodes l).resolve_right (by simp)
  obtain ⟨last, disk⟩ := pruneDirs_settled placed (second.2 ▸ tree) (fun p listed =>
    List.mem_reverse.mp listed)
    (fun p listed => second.2 ▸ settled.full p (List.mem_reverse.mp listed)) (s.refilled v).1
  exact ⟨last.trans second.1, disk.trans second.2⟩

end

/-- Whatever the tree: files that the snapshot neither holds nor expects at a destination stay as
they are, and a file at a destination stays, unless its source is not there when the turn of the
move comes. After a restore without failures every path that the snapshot holds has the bytes that
it holds last for it, and another restore writes them again, removes nothing and leaves the disk as
it is. -/
theorem restore_repeats (coherent : s.Coherent top) (tree : v.disk.IsTree) (calm : v.Calm) :
    (∀ l, (∀ f ∈ s.files, spot top f.path ≠ l) → (∀ m ∈ s.moves, spot top m.target ≠ l) → ∀ c,
      ((s.restore v).2.disk.at? l = some (.file c) ↔ v.disk.at? l = some (.file c))) ∧
    (∀ earlier m later c, s.moves = earlier ++ m :: later →
      v.disk.at? (spot top m.target) = some (.file c) →
      if (s.atTurn later v).disk.exists? (s.root.join m.source) then
        (s.restore v).2.disk.at? (spot top m.target) = some (.file c)
      else ∀ b, (s.restore v).2.disk.at? (spot top m.target) ≠ some (.file b)) ∧
    ((s.restore v).1.isClean = true →
      (∀ before f after, s.files = before ++ f :: after → (∀ g ∈ after, g.path ≠ f.path) →
        (s.restore v).2.disk.at? (spot top f.path) = some (.file f.content)) ∧
      (s.restore (s.restore v).2).1 = { restored := s.files.length, removed := 0, prunedDirs := 0,
                                        failures := [] } ∧
      (s.restore (s.restore v).2).2.disk = (s.restore v).2.disk) := by
  have placed := coherent.toPlaced
  have spared := restore_spares placed calm tree
  refine ⟨fun l free clear c => ?_, fun earlier m later c split file => ?_, fun clean => ?_⟩
  · refine spared.files l ?_ c
    rintro (⟨m, member, place⟩ | ⟨f, member, place⟩)
    · exact clear m member place
    · exact free f member place
  · have member : m ∈ s.moves := by simp [split]
    have plain := (placed.plainMoves m member).1
    have turn := atTurn_spares placed calm tree split
    -- After the destinations have been dealt with, nothing more happens to this one.
    have kept := fun b => ((restore_pruned placed calm tree).1.file_iff (spot top m.target) b).trans
      ((refilled_spares placed calm tree).files _ (coherent.target_free member) b)
    rw [placed.root, join_spot placed.above plain, exists?_pathOf turn.tree
      (spot_valid placed.above plain)]
    rcases undone_target coherent calm tree split file with ⟨there, stays⟩ | ⟨gone, goes⟩
    · rw [if_pos (Option.isSome_iff_ne_none.mpr there)]
      exact (kept c).mpr stays
    · rw [gone]
      exact fun b still => goes b ((kept b).mp still)
  · have settled := restore_settled coherent calm tree (List.isEmpty_iff.mp clean)
    exact ⟨settled.last, settled.restore_eq coherent (calm.of_hazards spared.hazards) spared.tree⟩

def scattered : Snapshot :=
  { version := currentVersion, id := List.replicate 16 0, createdAt := .epoch, root := pathOf ["p"]
    files := [⟨⟨"a.ts"⟩, [1]⟩, ⟨⟨"b.ts"⟩, [2]⟩, ⟨⟨"c.ts"⟩, [3]⟩]
    moves := [⟨⟨"a.ts"⟩, ⟨"lib/a.ts"⟩⟩, ⟨⟨"b.ts"⟩, ⟨"lib/deep/b.ts"⟩⟩, ⟨⟨"c.ts"⟩, ⟨"spare/c.ts"⟩⟩]
    newDirs := [⟨"lib"⟩, ⟨"lib/deep"⟩, ⟨"spare"⟩] }

/-- Two of them have moved. Since then one came back with other bytes, the other changed where it is
now, and a file of someone else is beside it. -/
def disturbed : Volume :=
  { disk.nodes := ⟨[(["p"], .dir), (["p", "b.ts"], .file [20]), (["p", "c.ts"], .file [3]),
      (["p", "lib"], .dir), (["p", "lib", "a.ts"], .file [10]), (["p", "lib", "deep"], .dir),
      (["p", "lib", "deep", "b.ts"], .file [2]),
      (["p", "lib", "own.ts"], .file [5]), (["p", "spare"], .dir)], by decide⟩ }

theorem restore_repeats_disturbed :
    scattered.Coherent ["p"] ∧ disturbed.disk.IsTree ∧
      (scattered.restore disturbed).1 = { restored := 3, removed := 1, prunedDirs := 1 } ∧
      (scattered.restore (scattered.restore disturbed).2).1 = { restored := 3 } ∧
      (scattered.restore (scattered.restore disturbed).2).2.disk =
        (scattered.restore disturbed).2.disk ∧
      (scattered.restore disturbed).2.disk.at? ["p", "lib", "own.ts"] = some (.file [5]) ∧
      (scattered.restore disturbed).2.disk.at? ["p", "lib", "deep", "b.ts"] = some (.file [2]) := by
  have coherent : scattered.Coherent ["p"] :=
    ⟨⟨rfl, by decide, by decide, by decide, by decide⟩, by decide, by decide, by decide, by decide⟩
  have tree : disturbed.disk.IsTree := by decide
  have report : (scattered.restore disturbed).1 = { restored := 3, removed := 1,
                                                    prunedDirs := 1 } := by
    decide +kernel
  obtain ⟨others, destinations, again⟩ := restore_repeats coherent tree fun _ _ => rfl
  obtain ⟨_, second, disk⟩ := again (by rw [report]; rfl)
  have kept := destinations _ ⟨⟨"b.ts"⟩, ⟨"lib/deep/b.ts"⟩⟩ [⟨⟨"c.ts"⟩, ⟨"spare/c.ts"⟩⟩] [2]
    (show scattered.moves = [_] ++ _ from rfl) (by decide)
  rw [if_pos (by decide +kernel)] at kept
  exact ⟨coherent, tree, report, second, disk, (others _ (by decide) (by decide) _).mpr
    (by decide), kept⟩

end Snapshot

end Relocation
