import Relocation.Proofs.Snapshot.Restoration

/-!
# When a restore succeeds

On a volume where nothing befalls a call, a restore reports no failure exactly if no directory has
taken the place of a file that the snapshot holds: `restore_clean_iff`.
-/

namespace Relocation

namespace Volume

open Disk

def Calm (v : Volume) : Prop := ∀ past c, v.hazards past c = .none

variable {v : Volume} {loc : Location}

theorem Calm.of_hazards {w : Volume} (calm : v.Calm) (same : w.hazards = v.hazards) : w.Calm := by
  intro past c
  rw [same]
  exact calm past c

theorem call_calm (calm : v.Calm) (c : Call) {act : Hazard → Disk → Except IoFault (α × Disk)}
    {a : α} {d : Disk} (acted : act .none v.disk = .ok (a, d)) : Yields (call c act) v a d := by
  refine ⟨{ v with past := c :: v.past, disk := d }, ?_, rfl, rfl⟩
  simp only [call, calm v.past c, acted]

theorem call_refused (calm : v.Calm) (c : Call) {act : Hazard → Disk → Except IoFault (α × Disk)}
    {e : IoFault} (failed : act .none v.disk = .error e) : Refuses (call c act) v := by
  refine ⟨e, { v with past := c :: v.past }, ?_, rfl, rfl⟩
  simp only [call, calm v.past c, failed]

theorem effect_error (act : Disk → Except IoFault Disk) (d : Disk) (never : ∀ d', act d ≠ .ok d') :
    ∃ e, effect act d = .error e := by
  cases result : act d with
  | ok d' => exact (never d' result).elim
  | error e => exact ⟨e, by rw [effect, result]; rfl⟩

section
variable (calm : v.Calm) (tree : v.disk.IsTree) (valid : ∀ name ∈ loc, Path.IsName name)
include calm tree valid

theorem read_calm {c : Text.Bytes} (file : v.disk.at? loc = some (.file c)) :
    Yields (read (pathOf loc)) v c v.disk := by
  apply call_calm calm
  rw [(read_pathOf tree valid).mpr file]
  rfl

theorem write_calm (takes : v.disk.Takes loc) (content : Text.Bytes) :
    Yields (write (pathOf loc) content) v () (v.disk.put loc (.file content)) := by
  apply call_calm calm
  exact effect_ok.mpr ((write_pathOf tree valid).mpr ⟨takes, rfl⟩)

theorem createDirs_calm (clear : ¬ v.disk.IsBlocked loc) :
    Yields (createDirs (pathOf loc)) v () (v.disk.makeDirs loc) := by
  apply call_calm calm
  exact effect_ok.mpr ((createDirs_pathOf tree valid).mpr ⟨clear, rfl⟩)

theorem createDirs_refused (blocked : v.disk.IsBlocked loc) : Refuses (createDirs (pathOf loc)) v := by
  obtain ⟨e, failed⟩ := effect_error (·.createDirs (pathOf loc)) v.disk
    fun d' made => ((createDirs_pathOf tree valid).mp made).1 blocked
  exact call_refused calm _ failed

theorem write_refused (dir : v.disk.at? loc = some .dir) (content : Text.Bytes) :
    Refuses (write (pathOf loc) content) v := by
  obtain ⟨e, failed⟩ := effect_error (·.write (pathOf loc) content) v.disk
    fun d' written => Takes.not_dir ((write_pathOf tree valid).mp written).1 dir
  exact call_refused calm _ failed

theorem removeFile_calm {c : Text.Bytes} (file : v.disk.at? loc = some (.file c)) :
    Yields (removeFile (pathOf loc)) v () (v.disk.erase loc) := by
  apply call_calm calm
  exact effect_ok.mpr ((removeFile_pathOf tree valid).mpr ⟨⟨c, file⟩, rfl⟩)

end

end Volume

namespace Snapshot

open Disk

variable {s : Snapshot} {top : Location} {start : Disk} {v : Volume}

/-! ### Steps without a failure -/

section
variable (calm : v.Calm) (tree : v.disk.IsTree) {loc : Location} (proper : loc ≠ [])
  (valid : ∀ name ∈ loc, Path.IsName name) (content : Text.Bytes)
include calm tree proper valid

/-- A file is written, and the directories above it are made, unless a file is in their way or a
directory in its own place. -/
theorem writeBack_calm (clear : ¬ v.disk.IsBlocked loc.dropLast) (open' : v.disk.at? loc ≠ some .dir) :
    Volume.Yields (writeBack (pathOf loc) content) v content
      ((v.disk.makeDirs loc.dropLast).put loc (.file content)) := by
  have parentValid : ∀ name ∈ loc.dropLast, Path.IsName name := fun name inside =>
    valid name (List.dropLast_subset _ inside)
  have takes := tree.takes_makeDirs proper clear open'
  have tree₁ := tree.makeDirs parentValid clear
  obtain ⟨v₁, made, disk₁, hazards₁⟩ := Volume.createDirs_calm calm tree parentValid clear
  have calm₁ := calm.of_hazards hazards₁
  obtain ⟨v₂, written, disk₂, hazards₂⟩ := Volume.write_calm calm₁ (disk₁ ▸ tree₁) valid
    (disk₁ ▸ takes) content
  rw [disk₁] at disk₂
  have there : v₂.disk.at? loc = some (.file content) := by rw [disk₂, at?_put proper, if_pos rfl]
  obtain ⟨v₃, read, disk₃, hazards₃⟩ := Volume.read_calm (calm₁.of_hazards hazards₂)
    (disk₂ ▸ tree₁.putFile valid takes content) valid there
  refine ⟨v₃, ?_, disk₃.trans disk₂, hazards₃.trans (hazards₂.trans hazards₁)⟩
  rw [writeBack_eq proper valid, Volume.andThen_ok made, Volume.andThen_ok written, read]

theorem writeBack_refused (shut : v.disk.IsBlocked loc.dropLast ∨ v.disk.at? loc = some .dir) :
    Volume.Refuses (writeBack (pathOf loc) content) v := by
  have parentValid : ∀ name ∈ loc.dropLast, Path.IsName name := fun name inside =>
    valid name (List.dropLast_subset _ inside)
  rw [writeBack_eq proper valid]
  by_cases blocked : v.disk.IsBlocked loc.dropLast
  · obtain ⟨e, v', failed, disk, hazards⟩ := Volume.createDirs_refused calm tree parentValid blocked
    exact ⟨e, v', Volume.andThen_error failed _, disk, hazards⟩
  · have dir := shut.resolve_left blocked
    obtain ⟨v₁, made, disk₁, hazards₁⟩ := Volume.createDirs_calm calm tree parentValid blocked
    rw [tree.makeDirs_self (tree.closed _ _ dir)] at disk₁
    obtain ⟨e, v', failed, disk, hazards⟩ := Volume.write_refused (calm.of_hazards hazards₁)
      (disk₁ ▸ tree) valid (disk₁ ▸ dir) content
    refine ⟨e, v', ?_, disk.trans disk₁, hazards.trans hazards₁⟩
    rw [Volume.andThen_ok made, Volume.andThen_error failed]

end

section
variable (calm : v.Calm) (placed : s.Placed top) (tree : v.disk.IsTree) {f : SnapshotFile}
    (member : f ∈ s.files)
include calm placed tree member

theorem restoreFile_open (clear : ¬ v.disk.IsBlocked (spot top f.path).dropLast)
    (open' : v.disk.at? (spot top f.path) ≠ some .dir) (report : RestoreReport) :
    ∃ v', restoreFile s.root f report v = ({ report with restored := report.restored + 1 }, v') ∧
      v'.hazards = v.hazards ∧
      v'.disk = (v.disk.makeDirs (spot top f.path).dropLast).put (spot top f.path)
        (.file f.content) := by
  have plain := placed.plainFiles f member
  obtain ⟨v', written, disk, hazards⟩ := writeBack_calm calm tree (spot_ne_nil top plain)
    (spot_valid placed.above plain) f.content clear open'
  refine ⟨v', ?_, hazards, disk⟩
  unfold restoreFile
  rw [placed.root, join_spot placed.above plain, written]
  simp only [if_true]

theorem restoreFile_shut
    (shut : v.disk.IsBlocked (spot top f.path).dropLast ∨ v.disk.at? (spot top f.path) = some .dir)
    (report : RestoreReport) :
    ∃ report' v', restoreFile s.root f report v = (report', v') ∧ v'.hazards = v.hazards ∧
    v'.disk = v.disk ∧
      report'.failures ≠ [] := by
  have plain := placed.plainFiles f member
  obtain ⟨e, v', failed, disk, hazards⟩ := writeBack_refused calm tree (spot_ne_nil top plain)
    (spot_valid placed.above plain) f.content shut
  refine ⟨{ report with failures := report.failures ++ [(f.path, e.message)] }, v', ?_, hazards,
    disk, by simp⟩
  unfold restoreFile
  rw [placed.root, join_spot placed.above plain, failed]

end

section
variable (calm : v.Calm) (described : s.Describes top start) (within : s.Within top start v.disk)
include calm described within

theorem undoMove_calm {m : Move} (member : m ∈ s.moves)
    (settled : v.disk.at? (spot top m.source) = none → v.disk.at? (spot top m.target) ≠ some .dir)
    (report : RestoreReport) : (undoMove s.root m report v).1.failures = report.failures := by
  obtain ⟨sourcePlain, targetPlain⟩ := described.plainMoves m member
  have sourceValid := spot_valid described.above sourcePlain
  have targetValid := spot_valid described.above targetPlain
  unfold undoMove
  simp only [described.root, join_spot described.above sourcePlain,
    join_spot described.above targetPlain, exists?_pathOf within.tree sourceValid,
    exists?_pathOf within.tree targetValid]
  split
  · rfl
  · rename_i happened
    obtain ⟨there, gone⟩ : (v.disk.at? (spot top m.target)).isSome = true ∧
        v.disk.at? (spot top m.source) = none := by
      simpa [Option.isSome_iff_ne_none] using happened
    obtain ⟨n, found⟩ := Option.isSome_iff_exists.mp there
    cases n with
    | dir => exact (settled gone found).elim
    | link target => exact (within.tree.linkless _ _ found).elim
    | file c =>
      obtain ⟨v', removed, _, _⟩ := Volume.removeFile_calm calm within.tree targetValid found
      rw [removed]

theorem restoreFile_calm {f : SnapshotFile} (member : f ∈ s.files)
    (open' : v.disk.at? (spot top f.path) ≠ some .dir) (report : RestoreReport) :
    (restoreFile s.root f report v).1.failures = report.failures := by
  have parent := within.dirs _ (described.tree.closed _ _ (described.holds f member))
  have clear : ¬ v.disk.IsBlocked (spot top f.path).dropLast := by
    rintro ⟨above, c, inside, file⟩
    rw [within.tree.way parent inside] at file
    cases file
  obtain ⟨v', written, _, _⟩ := restoreFile_open calm described.placed within.tree member clear
    open' report
  rw [written]

end

/-! ### The whole restore -/

/-- No directory is in the place of a file that the snapshot holds, and none is at the destination
of a file that is gone. -/
structure Open (s : Snapshot) (top : Location) (d : Disk) : Prop where
  files : ∀ f ∈ s.files, d.at? (spot top f.path) ≠ some .dir
  moves : ∀ m ∈ s.moves, d.at? (spot top m.source) = none → d.at? (spot top m.target) ≠ some .dir

section
variable (described : s.Describes top start)
include described

theorem Open.erase {d : Disk} (opened : s.Open top d) {m : Move} (member : m ∈ s.moves) :
    s.Open top (d.erase (spot top m.target)) := by
  have proper := spot_ne_nil top (described.plainMoves m member).2
  constructor
  · intro f held
    rw [at?_erase proper, if_neg (described.file_ne_target held member)]
    exact opened.files f held
  · intro other inside gone
    rw [at?_erase proper, if_neg (described.apart inside member)] at gone
    rw [at?_erase proper]
    split
    · simp
    · exact opened.moves other inside gone

theorem undoMoves_calm (calm : v.Calm) (within : s.Within top start v.disk)
    (single : s.Single top v.disk) (opened : s.Open top v.disk) {items : List Move}
    (inside : ∀ m ∈ items, m ∈ s.moves) (report : RestoreReport) :
    (forEach items (undoMove s.root) report v).1.failures = report.failures ∧
      s.Open top (forEach items (undoMove s.root) report v).2.disk := by
  induction items generalizing report v with
  | nil => exact ⟨rfl, opened⟩
  | cons m rest ih =>
    have member := inside m List.mem_cons_self
    have same := undoMove_calm calm described within member (opened.moves m member) report
    obtain ⟨within', single', hazards⟩ := undoMove_keeps described ⟨within, single, rfl⟩ member report
    have opened' : s.Open top (undoMove s.root m report v).2.disk := by
      obtain ⟨report', v', result, _, skipped | ⟨_, _, erased, _⟩ | ⟨disk, _⟩⟩ :=
        undoMove_cases described.placed within.tree member report
      · rw [result, skipped.1]
        exact opened
      · rw [result]
        exact erased ▸ opened.erase described member
      · rw [result]
        exact disk ▸ opened
    obtain ⟨failures, still⟩ := ih (calm.of_hazards hazards) within' single' opened'
      (fun other later => inside other (List.mem_cons_of_mem _ later)) (undoMove s.root m report v).1
    rw [forEach_cons]
    exact ⟨failures.trans same, still⟩

theorem restoreFiles_calm (calm : v.Calm) (within : s.Within top start v.disk)
    (opened : ∀ f ∈ s.files, v.disk.at? (spot top f.path) ≠ some .dir) {items : List SnapshotFile}
    (inside : ∀ f ∈ items, f ∈ s.files) (report : RestoreReport) :
    (forEach items (restoreFile s.root) report v).1.failures = report.failures := by
  induction items generalizing report v with
  | nil => rfl
  | cons f rest ih =>
    have member := inside f List.mem_cons_self
    have same := restoreFile_calm calm described within member (opened f member) report
    have plain := described.plainFiles f member
    have others : ∀ g ∈ rest, g ∈ s.files := fun g later => inside g (List.mem_cons_of_mem _ later)
    obtain ⟨report', v', result, hazards, disk | ⟨c, takes, disk⟩, _⟩ :=
      restoreFile_cases described within member report
    · rw [forEach_cons, ← same, result]
      exact ih (calm.of_hazards hazards) (disk ▸ within) (disk ▸ opened) others report'
    · rw [forEach_cons, ← same, result]
      refine ih (calm.of_hazards hazards) ?_ ?_ others report'
      · rw [disk]
        exact within.put described plain (Or.inl ⟨f, member, rfl⟩) takes c
      · intro g held
        rw [disk, at?_put (spot_ne_nil top plain)]
        split
        · simp
        · exact opened g held

theorem pruneDirs_failures (within : s.Within top start v.disk) {items : List Path}
    (inside : ∀ p ∈ items, p ∈ s.newDirs) (report : RestoreReport) :
    (forEach items (pruneDir s.root) report v).1.failures = report.failures := by
  induction items generalizing report v with
  | nil => rfl
  | cons p rest ih =>
    have member := inside p List.mem_cons_self
    have kept := (pruneDir_keeps described ⟨within, rfl, fun single => single, fun restored =>
      restored⟩ member report).1
    obtain ⟨report', v', result, _, same, _⟩ :=
      pruneDir_cases described.placed within.tree member report
    rw [result] at kept
    rw [forEach_cons, result, ih kept (fun q later => inside q (List.mem_cons_of_mem _ later))
      report', same]

theorem restore_of_open (calm : v.Calm) (within : s.Within top start v.disk)
    (single : s.Single top v.disk) (opened : s.Open top v.disk) : (s.restore v).1.isClean = true := by
  obtain ⟨⟨within₁, _, hazards₁⟩, _⟩ := undoMoves_clean described within single {}
  obtain ⟨moves, opened₁⟩ := undoMoves_calm described calm within single opened
    (fun m member => List.mem_reverse.mp member) {}
  have files := restoreFiles_calm described (calm.of_hazards hazards₁) within₁ opened₁.files
    (fun f member => member) (forEach s.moves.reverse (undoMove s.root) {} v).1
  obtain ⟨⟨within₂, _, _⟩, _⟩ := restoreFiles_spec described within₁
    (forEach s.moves.reverse (undoMove s.root) {} v).1
  have dirs := pruneDirs_failures described within₂ (fun p member => List.mem_reverse.mp member)
    (forEach s.files (restoreFile s.root) (forEach s.moves.reverse (undoMove s.root) {} v).1
      (forEach s.moves.reverse (undoMove s.root) {} v).2).1
  rw [RestoreReport.isClean, List.isEmpty_iff]
  exact dirs.trans (files.trans moves)

/-- A directory in the place of a file outlasts the removal of destinations and the writing of files. -/
theorem dir_outlasts (within : s.Within top start v.disk) (single : s.Single top v.disk) {l : Location}
    (dir : v.disk.at? l = some .dir) :
    (forEach s.files (restoreFile s.root) (forEach s.moves.reverse (undoMove s.root) {} v).1
      (forEach s.moves.reverse (undoMove s.root) {} v).2).2.disk.at? l = some .dir := by
  have undone := forEach_spec (undoMove s.root) s.moves
    (fun w => s.Undoing top start v.hazards w ∧ w.disk.at? l = some .dir) (fun _ _ => True)
      (fun _ => True) ?_
    (fun m member => List.mem_reverse.mp member) {} (v := v) ⟨⟨within, single, rfl⟩, dir⟩
  · have refilled := forEach_spec (restoreFile s.root) s.files
      (fun w => s.Within top start w.disk ∧ w.disk.at? l = some .dir) (fun _ _ => True)
        (fun _ => True) ?_
      (fun f member => member) (forEach s.moves.reverse (undoMove s.root) {} v).1
        ⟨undone.1.1.1, undone.1.2⟩
    · exact refilled.1.2
    · intro f member report w kept
      obtain ⟨within, dir⟩ := kept
      refine ⟨?_, by simp⟩
      obtain ⟨report', w', result, _, disk | ⟨c, takes, disk⟩, _⟩ :=
        restoreFile_cases described within member report
      · rw [result]
        exact ⟨disk ▸ within, disk ▸ dir⟩
      · have plain := described.plainFiles f member
        rw [result]
        refine ⟨disk ▸ within.put described plain (Or.inl ⟨f, member, rfl⟩) takes c, ?_⟩
        rw [disk, at?_put (spot_ne_nil top plain), if_neg]
        · exact dir
        · rintro rfl
          exact takes.not_dir dir
  · intro m member report w kept
    obtain ⟨undoing, dir⟩ := kept
    refine ⟨⟨undoMove_keeps described undoing member report, ?_⟩, by simp⟩
    obtain ⟨report', w', result, _, skipped | ⟨⟨c, file⟩, _, erased, _⟩ | ⟨disk, _⟩⟩ :=
      undoMove_cases described.placed undoing.1.tree member report
    · rw [result, skipped.1]
      exact dir
    · rw [result, erased, at?_erase (spot_ne_nil top (described.plainMoves m member).2), if_neg]
      · exact dir
      · rintro rfl
        rw [file] at dir
        cases dir
    · rw [result, disk]
      exact dir

theorem restore_of_dir (within : s.Within top start v.disk) (single : s.Single top v.disk)
    {f : SnapshotFile} (member : f ∈ s.files) (dir : v.disk.at? (spot top f.path) = some .dir) :
    (s.restore v).1.isClean = false := by
  rw [← Bool.not_eq_true]
  intro clean
  have stays := dir_outlasts described within single dir
  obtain ⟨⟨within₁, _, _⟩, _⟩ := undoMoves_clean described within single {}
  obtain ⟨⟨within₂, _, _⟩, right⟩ := restoreFiles_spec described within₁
    (forEach s.moves.reverse (undoMove s.root) {} v).1
  have before := (pruneDirs_spec described within₂
    (forEach s.files (restoreFile s.root) (forEach s.moves.reverse (undoMove s.root) {} v).1
      (forEach s.moves.reverse (undoMove s.root) {} v).2).1).2 (List.isEmpty_iff.mp clean)
  rw [(right before).2 f member] at stays
  cases stays

theorem restore_clean_iff (calm : v.Calm) (within : s.Within top start v.disk)
    (single : s.Single top v.disk) (settled : ∀ m ∈ s.moves, v.disk.at? (spot top m.source) = none →
      v.disk.at? (spot top m.target) ≠ some .dir) :
    (s.restore v).1.isClean = true ↔ ∀ f ∈ s.files, v.disk.at? (spot top f.path) ≠ some .dir := by
  constructor
  · intro clean f member dir
    rw [restore_of_dir described within single member dir] at clean
    cases clean
  · exact fun free => restore_of_open described calm within single ⟨free, settled⟩

end

end Snapshot

end Relocation
