import Relocation.Proofs.Snapshot.Invariant
import Relocation.Snapshot.Restore

/-!
# Restoring a snapshot

A restore that reports no failure puts every file and directory of the start back, whatever befell
its calls. It leaves at most some of the directories that the moves were to create, and none of them
if no attempt to remove a directory failed for reasons outside the disk.
-/

namespace Relocation.Snapshot

open Disk

/-- What was there at the start is there again; besides, some directories for the moves may be left. -/
structure Restored (s : Snapshot) (top : Location) (start d : Disk) : Prop where
  tree : d.IsTree
  kept : ∀ l n, start.at? l = some n → d.at? l = some n
  extra : ∀ l n, start.at? l = none → d.at? l = some n → n = .dir ∧ ∃ p ∈ s.newDirs, spot top p = l

variable {s : Snapshot} {top : Location} {start : Disk} {v : Volume}

theorem Restored.of_undone {d : Disk} (described : s.Describes top start)
    (within : s.Within top start d) (undone : ∀ m ∈ s.moves, Undone top m d)
    (right : ∀ f ∈ s.files, d.at? (spot top f.path) = some (.file f.content)) :
    s.Restored top start d where
  tree := within.tree
  kept := by
    intro l n there
    cases n with
    | dir => exact within.dirs l there
    | link target => exact (described.tree.linkless _ _ there).elim
    | file c =>
      by_cases held : ∃ f ∈ s.files, spot top f.path = l
      · obtain ⟨f, member, rfl⟩ := held
        rw [right f member, ← described.holds f member, there]
      · exact within.files l c there fun f member same => held ⟨f, member, same⟩
  extra := by
    intro l n gone there
    rcases within.others l n gone there with new | ⟨⟨c, rfl⟩, m, member, rfl⟩
    · exact new
    · rcases undone m member with clear | dir
      · exact (clear c there).elim
      · obtain ⟨f, inside, same⟩ := described.covers m member
        rw [← same, right f inside] at dir
        cases dir

theorem forEach_cons (act : α → RestoreReport → Volume → RestoreReport × Volume) (a : α)
    (rest : List α) (report : RestoreReport) (v : Volume) :
    forEach (a :: rest) act report v = forEach rest act (act a report v).1 (act a report v).2 := rfl

/-- One step after another: what every step keeps, and what each of them achieves if the report
turns out good. -/
theorem forEach_spec (act : α → RestoreReport → Volume → RestoreReport × Volume) (all : List α)
    (Inv : Volume → Prop) (Done : α → Volume → Prop) (Good : RestoreReport → Prop)
    (step : ∀ a ∈ all, ∀ report v, Inv v → Inv (act a report v).2 ∧
      (Good (act a report v).1 → Good report ∧ Done a (act a report v).2 ∧
        ∀ b ∈ all, Done b v → Done b (act a report v).2))
    {items : List α} (inside : ∀ a ∈ items, a ∈ all) (report : RestoreReport) {v : Volume}
    (inv : Inv v) : Inv (forEach items act report v).2 ∧
      (Good (forEach items act report v).1 → Good report ∧
        (∀ a ∈ items, Done a (forEach items act report v).2) ∧
        ∀ b ∈ all, Done b v → Done b (forEach items act report v).2) := by
  induction items generalizing report v with
  | nil => exact ⟨inv, fun good => ⟨good, by simp, fun _ _ done => done⟩⟩
  | cons a rest ih =>
    have member := inside a List.mem_cons_self
    obtain ⟨kept, achieved⟩ := step a member report v inv
    obtain ⟨final, good⟩ := ih (fun b member => inside b (List.mem_cons_of_mem _ member)) _ kept
    refine ⟨final, fun clean => ?_⟩
    obtain ⟨before, others, stays⟩ := good clean
    obtain ⟨earlier, done, lasts⟩ := achieved before
    refine ⟨earlier, fun b listed => ?_, fun b known done => stays b known (lasts b known done)⟩
    rcases List.mem_cons.mp listed with rfl | later
    · exact stays b member done
    · exact others b later

/-! ### Moves -/

/-- A move is passed over, its destination is removed, or the removal fails. -/
theorem undoMove_cases (placed : s.Placed top) (tree : v.disk.IsTree) {m : Move} (member : m ∈ s.moves)
    (report : RestoreReport) :
    ∃ report' v', undoMove s.root m report v = (report', v') ∧ v'.hazards = v.hazards ∧
      ((v' = v ∧ report' = report ∧
          (v.disk.at? (spot top m.target) = none ∨ v.disk.at? (spot top m.source) ≠ none)) ∨
        ((∃ c, v.disk.at? (spot top m.target) = some (.file c)) ∧
          v.disk.at? (spot top m.source) = none ∧
          v'.disk = v.disk.erase (spot top m.target) ∧ report'.failures = report.failures) ∨
        (v'.disk = v.disk ∧ report'.failures ≠ [] ∧
          ((∀ c, v.disk.at? (spot top m.target) ≠ some (.file c)) ∨ (v.Halting → v'.Stopped)))) := by
  obtain ⟨sourcePlain, targetPlain⟩ := placed.plainMoves m member
  have sourceValid := spot_valid placed.above sourcePlain
  have targetValid := spot_valid placed.above targetPlain
  unfold undoMove
  simp only [placed.root, join_spot placed.above sourcePlain, join_spot placed.above targetPlain,
    exists?_pathOf tree sourceValid, exists?_pathOf tree targetValid]
  split
  · rename_i skipped
    refine ⟨report, v, rfl, rfl, Or.inl ⟨rfl, rfl, ?_⟩⟩
    rcases Bool.or_eq_true_iff.mp skipped with gone | there
    · exact Or.inl (by simpa using gone)
    · exact Or.inr (by simpa [Option.isSome_iff_ne_none] using there)
  · rename_i happened
    rw [Bool.or_eq_true, not_or] at happened
    have gone := Option.not_isSome_iff_eq_none.mp happened.2
    rcases Volume.removeFile_cases tree targetValid with
      ⟨e, v', result, disk, hazards, stops⟩ | ⟨⟨e, v', result, disk, hazards⟩, clear⟩
        | ⟨file, v', result, disk, hazards⟩
    · exact ⟨_, v', by rw [result], hazards, Or.inr (Or.inr ⟨disk, by simp, Or.inr stops⟩)⟩
    · exact ⟨_, v', by rw [result], hazards, Or.inr (Or.inr ⟨disk, by simp, Or.inl clear⟩)⟩
    · exact ⟨{ report with removed := report.removed + 1 }, v', by rw [result], hazards,
        Or.inr (Or.inl ⟨file, gone, disk, rfl⟩)⟩

theorem undone_of_skipped {d : Disk} (tree : d.IsTree) (single : s.Single top d) {m : Move}
    (member : m ∈ s.moves) (skipped : d.at? (spot top m.target) = none ∨
      d.at? (spot top m.source) ≠ none) : Undone top m d := by
  rcases skipped with gone | there
  · exact Or.inl fun c file => by rw [gone] at file; cases file
  · obtain ⟨n, found⟩ := Option.ne_none_iff_exists'.mp there
    cases n with
    | dir => exact Or.inr found
    | file b => exact Or.inl fun c => single m member b c found
    | link target => exact (tree.linkless _ _ found).elim

/-- Removing the destination of a move undoes it, and no other move is affected. -/
theorem undone_erase (described : s.Describes top start) {d : Disk} {m other : Move}
    (member : m ∈ s.moves) (inside : other ∈ s.moves) (done : other = m ∨ Undone top other d) :
    Undone top other (d.erase (spot top m.target)) := by
  have proper := spot_ne_nil top (described.plainMoves m member).2
  rcases done with rfl | undone
  · exact Or.inl fun c file => by rw [at?_erase proper, if_pos rfl] at file; cases file
  · apply undone.of_files
    · intro c file
      rw [at?_erase proper] at file
      split at file
      · cases file
      · exact ⟨c, file⟩
    · intro dir
      rwa [at?_erase proper, if_neg (described.apart inside member)]

theorem single_erase {d : Disk} (single : s.Single top d) {loc : Location} (proper : loc ≠ []) :
    s.Single top (d.erase loc) := by
  apply single.of_files
  intro l c file
  rw [at?_erase proper] at file
  split at file
  · cases file
  · exact ⟨c, file⟩

def Undoing (s : Snapshot) (top : Location) (start : Disk) (hazards : List Call → Call → Hazard)
    (v : Volume) : Prop :=
  s.Within top start v.disk ∧ s.Single top v.disk ∧ v.hazards = hazards

theorem undoMove_keeps (described : s.Describes top start) {hazards : List Call → Call → Hazard}
    (undoing : s.Undoing top start hazards v) {m : Move} (member : m ∈ s.moves)
    (report : RestoreReport) : s.Undoing top start hazards (undoMove s.root m report v).2 := by
  obtain ⟨within, single, same⟩ := undoing
  obtain ⟨report', v', result, kept, skipped | ⟨⟨c, file⟩, _, erased, _⟩ | ⟨disk, _⟩⟩ :=
    undoMove_cases described.placed within.tree member report
  · rw [result, skipped.1]
    exact ⟨within, single, same⟩
  · rw [result]
    refine ⟨?_, ?_, kept.trans same⟩
    · rw [erased]
      exact within.erase_target described member file
    · rw [erased]
      exact single_erase single (spot_ne_nil top (described.plainMoves m member).2)
  · rw [result]
    refine ⟨?_, ?_, kept.trans same⟩
    · rwa [disk]
    · rwa [disk]

theorem undoMoves_clean (described : s.Describes top start) (within : s.Within top start v.disk)
    (single : s.Single top v.disk) (report : RestoreReport) :
    s.Undoing top start v.hazards (forEach s.moves.reverse (undoMove s.root) report v).2 ∧
      ((forEach s.moves.reverse (undoMove s.root) report v).1.failures = [] →
        ∀ m ∈ s.moves, Undone top m (forEach s.moves.reverse (undoMove s.root) report v).2.disk) := by
  have spec := forEach_spec (undoMove s.root) s.moves (s.Undoing top start v.hazards)
    (fun m v => Undone top m v.disk) (fun report => report.failures = []) ?_
    (fun m member => List.mem_reverse.mp member) report ⟨within, single, rfl⟩
  · exact ⟨spec.1, fun clean m member => (spec.2 clean).2.1 m (List.mem_reverse.mpr member)⟩
  · intro m member report v undoing
    refine ⟨undoMove_keeps described undoing member report, ?_⟩
    obtain ⟨within, single, _⟩ := undoing
    obtain ⟨report', v', result, _, ⟨rfl, rfl, skipped⟩ | ⟨_, _, erased, same⟩ | ⟨disk, failed, _⟩⟩ :=
      undoMove_cases described.placed within.tree member report
    · rw [result]
      exact fun clean => ⟨clean, undone_of_skipped within.tree single member skipped,
        fun _ _ undone => undone⟩
    · rw [result]
      simp only [erased]
      exact fun clean => ⟨same ▸ clean, undone_erase described member member (Or.inl rfl),
        fun other inside undone => undone_erase described member inside (Or.inr undone)⟩
    · rw [result]
      exact fun clean => (failed clean).elim

/-- On a volume that stops, every move has been undone after the first part, or nothing reaches the
disk any more. -/
theorem undoMoves_halting (described : s.Describes top start) (within : s.Within top start v.disk)
    (single : s.Single top v.disk) (halting : v.Halting) (report : RestoreReport) :
    (∀ m ∈ s.moves, Undone top m (forEach s.moves.reverse (undoMove s.root) report v).2.disk) ∨
      (forEach s.moves.reverse (undoMove s.root) report v).2.Stopped := by
  have spec := forEach_spec (undoMove s.root) s.moves (s.Undoing top start v.hazards)
    (fun m v => Undone top m v.disk ∨ v.Stopped) (fun _ => True) ?_
    (fun m member => List.mem_reverse.mp member) report ⟨within, single, rfl⟩
  · by_cases stopped : (forEach s.moves.reverse (undoMove s.root) report v).2.Stopped
    · exact Or.inr stopped
    · left
      intro m member
      exact ((spec.2 trivial).2.1 m (List.mem_reverse.mpr member)).resolve_right stopped
  · intro m member report v undoing
    refine ⟨undoMove_keeps described undoing member report, ?_⟩
    obtain ⟨within, single, same⟩ := undoing
    have stays : v.Stopped → (undoMove s.root m report v).2.Stopped := by
      intro stopped
      unfold undoMove
      simp only
      split
      · exact stopped
      · obtain ⟨e, v', result, _, _, still⟩ :=
          Volume.call_stalls (.removeFile (s.root.join m.target)) _ v
          (by rw [Volume.Halting, same]; exact halting) stopped
        rw [Volume.removeFile, result]
        exact still
    obtain ⟨report', v', result, _, ⟨rfl, rfl, skipped⟩ | ⟨_, _, erased, _⟩ | ⟨disk, _, reason⟩⟩ :=
      undoMove_cases described.placed within.tree member report
    · rw [result] at stays ⊢
      exact fun _ => ⟨trivial, Or.inl (undone_of_skipped within.tree single member skipped),
        fun _ _ done => done⟩
    · rw [result] at stays ⊢
      simp only [erased]
      exact fun _ => ⟨trivial, Or.inl (undone_erase described member member (Or.inl rfl)),
        fun other inside => Or.imp (fun undone => undone_erase described member inside
          (Or.inr undone)) stays⟩
    · rw [result] at stays ⊢
      simp only [disk]
      refine fun _ => ⟨trivial, ?_, fun _ _ => Or.imp_right stays⟩
      rcases reason with clear | stops
      · exact Or.inl (Or.inl clear)
      · exact Or.inr (stops (by rw [Volume.Halting, same]; exact halting))

/-! ### Files -/

theorem writeBack_eq {loc : Location} (proper : loc ≠ []) (valid : ∀ name ∈ loc, Path.IsName name)
    (content : Text.Bytes) :
    writeBack (pathOf loc) content = Volume.andThen (Volume.createDirs (pathOf loc.dropLast))
      fun () => Volume.andThen (Volume.write (pathOf loc) content) fun () =>
        Volume.read (pathOf loc) := by
  obtain ⟨front, last, rfl⟩ := (List.eq_nil_or_concat loc).resolve_left proper
  rw [List.concat_eq_append] at valid ⊢
  rw [writeBack, parent?_pathOf valid, List.dropLast_concat]

/-- A file in a directory that exists is written with some content, or not at all. -/
theorem writeBack_cases (tree : v.disk.IsTree) {loc : Location} (proper : loc ≠ [])
    (valid : ∀ name ∈ loc, Path.IsName name) (parent : v.disk.at? loc.dropLast = some .dir)
    (content : Text.Bytes) : (∃ e v', writeBack (pathOf loc) content v = (.error e, v') ∧
      v'.hazards = v.hazards ∧
      (v'.disk = v.disk ∨ ∃ c, v.disk.Takes loc ∧ v'.disk = v.disk.put loc (.file c))) ∨
    ∃ c v', writeBack (pathOf loc) content v = (.ok c, v') ∧ v'.hazards = v.hazards ∧
      v.disk.Takes loc ∧ v'.disk = v.disk.put loc (.file c) := by
  have parentValid : ∀ name ∈ loc.dropLast, Path.IsName name := fun name inside =>
    valid name (List.dropLast_subset _ inside)
  rw [writeBack_eq proper valid]
  rcases Volume.createDirs_cases tree parentValid with
    ⟨e, v₁, made, disk, hazards⟩ | ⟨outer, inside, _, v₁, made, disk, hazards⟩
  · exact Or.inl ⟨e, v₁, Volume.andThen_error made _, hazards, Or.inl disk⟩
  rw [Volume.andThen_ok made]
  rw [tree.makeDirs_self (tree.way parent inside)] at disk
  rcases Volume.write_cases (disk ▸ tree) valid content with
    ⟨e, v₂, written, disk₂, hazards₂⟩ | ⟨c, takes, ⟨v₂, written, disk₂, hazards₂⟩, _⟩
  · exact Or.inl ⟨e, v₂, Volume.andThen_error written _, hazards₂.trans hazards, Or.inl
      (disk₂.trans disk)⟩
  rw [Volume.andThen_ok written]
  rw [disk] at takes disk₂
  rcases Volume.read_cases (disk₂ ▸ tree.putFile valid takes c) valid with
    ⟨e, v₃, read, disk₃, hazards₃⟩ | ⟨b, there, v₃, read, disk₃, hazards₃⟩
  · exact Or.inl ⟨e, v₃, read, hazards₃.trans (hazards₂.trans hazards),
      Or.inr ⟨c, takes, disk₃.trans disk₂⟩⟩
  · rw [disk₂, at?_put proper, if_pos rfl] at there
    cases there
    exact Or.inr ⟨c, v₃, read, hazards₃.trans (hazards₂.trans hazards), takes, disk₃.trans disk₂⟩

/-- A file that the snapshot holds is written, or not; if no failure is reported, with its own bytes. -/
theorem restoreFile_cases (described : s.Describes top start) (within : s.Within top start v.disk)
    {f : SnapshotFile} (member : f ∈ s.files) (report : RestoreReport) :
    ∃ report' v', restoreFile s.root f report v = (report', v') ∧ v'.hazards = v.hazards ∧
      (v'.disk = v.disk ∨ ∃ c, v.disk.Takes (spot top f.path) ∧
        v'.disk = v.disk.put (spot top f.path) (.file c)) ∧
      (report'.failures = [] → report.failures = [] ∧
        v'.disk.at? (spot top f.path) = some (.file f.content)) := by
  have plain := described.plainFiles f member
  have proper := spot_ne_nil top plain
  have parent := within.dirs _ (described.tree.closed _ _ (described.holds f member))
  unfold restoreFile
  rw [described.root, join_spot described.above plain]
  rcases writeBack_cases within.tree proper (spot_valid described.above plain) parent f.content with
    ⟨e, v', result, hazards, disk⟩ | ⟨c, v', result, hazards, takes, disk⟩
  · rw [result]
    exact ⟨_, v', rfl, hazards, disk, by simp⟩
  · rw [result]
    simp only
    split
    · rename_i same
      refine ⟨_, v', rfl, hazards, Or.inr ⟨c, takes, disk⟩, fun clean => ⟨clean, ?_⟩⟩
      rw [disk, at?_put proper, if_pos rfl, same]
    · exact ⟨_, v', rfl, hazards, Or.inr ⟨c, takes, disk⟩, by simp⟩

theorem undone_put (described : s.Describes top start) {d : Disk} {f : SnapshotFile}
    (member : f ∈ s.files) (takes : d.Takes (spot top f.path)) {m : Move} (move : m ∈ s.moves)
    (undone : Undone top m d) (c : Text.Bytes) :
    Undone top m (d.put (spot top f.path) (.file c)) := by
  have proper := spot_ne_nil top (described.plainFiles f member)
  apply undone.of_files
  · intro b file
    rw [at?_put proper, if_neg (described.file_ne_target member move).symm] at file
    exact ⟨b, file⟩
  · intro dir
    rwa [at?_put proper, if_neg]
    intro same
    exact takes.not_dir (same ▸ dir)

def Refilling (s : Snapshot) (top : Location) (start : Disk) (first v : Volume) : Prop :=
  s.Within top start v.disk ∧ v.hazards = first.hazards ∧
    ((∀ m ∈ s.moves, Undone top m first.disk) → ∀ m ∈ s.moves, Undone top m v.disk)

theorem restoreFiles_spec (described : s.Describes top start) (within : s.Within top start v.disk)
    (report : RestoreReport) :
    s.Refilling top start v (forEach s.files (restoreFile s.root) report v).2 ∧
      ((forEach s.files (restoreFile s.root) report v).1.failures = [] → report.failures = [] ∧
        ∀ f ∈ s.files, (forEach s.files (restoreFile s.root) report v).2.disk.at? (spot top f.path) =
          some (.file f.content)) := by
  have spec := forEach_spec (restoreFile s.root) s.files (s.Refilling top start v)
    (fun f v => v.disk.at? (spot top f.path) = some (.file f.content))
      (fun report => report.failures = []) ?_
    (fun f member => member) report ⟨within, rfl, fun undone => undone⟩
  · exact ⟨spec.1, fun clean => ⟨(spec.2 clean).1, (spec.2 clean).2.1⟩⟩
  · intro f member report v refilling
    obtain ⟨within, same, undone⟩ := refilling
    obtain ⟨report', v', result, hazards, disk | ⟨c, takes, disk⟩, achieved⟩ :=
      restoreFile_cases described within member report
    · rw [result]
      refine ⟨⟨by rwa [disk], hazards.trans same, by rwa [disk]⟩, fun clean => ?_⟩
      exact ⟨(achieved clean).1, (achieved clean).2, by simp only [disk]; exact fun _ _ right => right⟩
    · have plain := described.plainFiles f member
      rw [result]
      refine ⟨⟨?_, hazards.trans same, ?_⟩, fun clean => ⟨(achieved clean).1, (achieved clean).2, ?_⟩⟩
      · rw [disk]
        exact within.put described plain (Or.inl ⟨f, member, rfl⟩) takes c
      · intro first m move
        rw [disk]
        exact undone_put described member takes move (undone first m move) c
      · intro other known right
        by_cases equal : spot top other.path = spot top f.path
        · rw [equal, (achieved clean).2, ← described.holds f member, ← equal,
            described.holds other known]
        · rwa [disk, at?_put (spot_ne_nil top plain), if_neg equal]

theorem writeBack_stalls (path : Path) (content : Text.Bytes) :
    Volume.Stalls (writeBack path content) := by
  unfold writeBack
  cases path.parent? with
  | some parent => exact (Volume.call_stalls _ _).andThen _
  | none => exact (Volume.call_stalls _ _).andThen _

theorem restoreFiles_stopped (halting : v.Halting) (stopped : v.Stopped) (root : Path)
    (files : List SnapshotFile) (report : RestoreReport) :
    (forEach files (restoreFile root) report v).2.disk = v.disk := by
  have spec := forEach_spec (restoreFile root) files
    (fun w => w.disk = v.disk ∧ w.hazards = v.hazards ∧ w.Stopped) (fun _ _ => True) (fun _ => True) ?_
    (fun f member => member) report ⟨rfl, rfl, stopped⟩
  · exact spec.1.1
  · intro f _ report w kept
    obtain ⟨disk, same, stopped⟩ := kept
    refine ⟨?_, by simp⟩
    obtain ⟨e, w', result, disk', same', still⟩ := writeBack_stalls (root.join f.path) f.content w
      (by rw [Volume.Halting, same]; exact halting) stopped
    unfold restoreFile
    rw [result]
    exact ⟨disk'.trans disk, same'.trans same, still⟩

/-! ### Directories -/

theorem pruneDir_cases (placed : s.Placed top) (tree : v.disk.IsTree) {p : Path}
    (member : p ∈ s.newDirs) (report : RestoreReport) :
    ∃ report' v', pruneDir s.root p report v = (report', v') ∧ v'.hazards = v.hazards ∧
      report'.failures = report.failures ∧
      ((v'.disk = v.disk ∧ report' = report ∧
          (v.Sweeps → v.disk.at? (spot top p) = some .dir → v.disk.isEmptyDir (spot top p) = false)) ∨
        (v.disk.isEmptyDir (spot top p) = true ∧ v.disk.at? (spot top p) = some .dir ∧
          v'.disk = v.disk.erase (spot top p))) := by
  have plain := placed.plainDirs p member
  have valid := spot_valid placed.above plain
  unfold pruneDir
  simp only [placed.root, join_spot placed.above plain]
  split
  · rename_i there
    have dir := (isDir_pathOf tree valid).mp there
    rcases Volume.removeDir_cases tree valid dir with
      ⟨⟨e, v', result, disk, hazards⟩, full⟩ | ⟨empty, v', result, disk, hazards⟩
    · exact ⟨report, v', by rw [result], hazards, rfl, Or.inl ⟨disk, rfl, fun sweeps _ => full sweeps⟩⟩
    · exact ⟨{ report with prunedDirs := report.prunedDirs + 1 }, v', by rw [result], hazards, rfl,
        Or.inr ⟨empty, dir, disk⟩⟩
  · rename_i other
    refine ⟨report, v, rfl, rfl, rfl, Or.inl ⟨rfl, rfl, fun _ dir => ?_⟩⟩
    exact (other ((isDir_pathOf tree valid).mpr dir)).elim

theorem Restored.erase {d : Disk} (described : s.Describes top start)
    (restored : s.Restored top start d) {p : Path}
    (member : p ∈ s.newDirs) (empty : d.isEmptyDir (spot top p) = true) :
    s.Restored top start (d.erase (spot top p)) := by
  have proper := spot_ne_nil top (described.plainDirs p member)
  have absent := ((described.created _).mp ⟨p, member, rfl⟩).1
  constructor
  · exact restored.tree.erase proper ((isEmptyDir_iff restored.tree).mp empty)
  · intro l n there
    rw [at?_erase proper, if_neg (by rintro rfl; rw [absent] at there; cases there)]
    exact restored.kept l n there
  · intro l n gone there
    rw [at?_erase proper] at there
    split at there
    · cases there
    · exact restored.extra l n gone there

def Pruning (s : Snapshot) (top : Location) (start : Disk) (first v : Volume) : Prop :=
  s.Within top start v.disk ∧ v.hazards = first.hazards ∧
    (s.Single top first.disk → s.Single top v.disk) ∧
    (s.Restored top start first.disk → s.Restored top start v.disk)

theorem pruneDir_keeps (described : s.Describes top start) {first : Volume}
    (pruning : s.Pruning top start first v) {p : Path} (member : p ∈ s.newDirs)
    (report : RestoreReport) : s.Pruning top start first (pruneDir s.root p report v).2 := by
  obtain ⟨within, same, single, restored⟩ := pruning
  obtain ⟨report', v', result, hazards, _, ⟨disk, _⟩ | ⟨empty, _, disk⟩⟩ :=
    pruneDir_cases described.placed within.tree member report
  · rw [result]
    exact ⟨by rwa [disk], hazards.trans same, by rwa [disk], by rwa [disk]⟩
  · rw [result, Pruning, disk]
    exact ⟨within.erase_dir described member empty, hazards.trans same,
      fun first => single_erase (single first) (spot_ne_nil top (described.plainDirs p member)),
      fun first => (restored first).erase described member empty⟩

theorem pruneDirs_spec (described : s.Describes top start) (within : s.Within top start v.disk)
    (report : RestoreReport) :
    s.Pruning top start v (forEach s.newDirs.reverse (pruneDir s.root) report v).2 ∧
      ((forEach s.newDirs.reverse (pruneDir s.root) report v).1.failures = [] →
        report.failures = []) := by
  have spec := forEach_spec (pruneDir s.root) s.newDirs (s.Pruning top start v) (fun _ _ => True)
    (fun report => report.failures = []) ?_ (fun p member => List.mem_reverse.mp member) report
    ⟨within, rfl, fun single => single, fun restored => restored⟩
  · exact ⟨spec.1, fun clean => (spec.2 clean).1⟩
  · intro p member report v pruning
    refine ⟨pruneDir_keeps described pruning member report, fun clean =>
      ⟨?_, trivial, fun _ _ _ => trivial⟩⟩
    obtain ⟨report', v', result, _, same, _⟩ :=
      pruneDir_cases described.placed pruning.1.tree member report
    rw [result] at clean
    exact same ▸ clean

/-- An empty directory goes when its turn comes, if directories can be removed, and nothing else does. -/
theorem pruneDir_sweeps (described : s.Describes top start) {p : Path} (member : p ∈ s.newDirs)
    (restored : s.Restored top start v.disk) (sweeps : v.Sweeps)
    (empty : v.disk.isEmptyDir (spot top p) = true) (report : RestoreReport) :
    ∃ report' v', pruneDir s.root p report v = (report', v') ∧ v'.hazards = v.hazards ∧
      s.Restored top start v'.disk ∧
      ∀ l, v'.disk.at? l = if l = spot top p then none else v.disk.at? l := by
  have absent := ((described.created _).mp ⟨p, member, rfl⟩).1
  obtain ⟨report', v', result, hazards, _, ⟨same, _, full⟩ | ⟨_, _, erased⟩⟩ :=
    pruneDir_cases described.placed restored.tree member report
  · refine ⟨report', v', result, hazards, same ▸ restored, fun l => ?_⟩
    rw [same]
    split
    · rename_i equal
      subst equal
      cases there : v.disk.at? (spot top p) with
      | none => rfl
      | some n =>
        rw [(restored.extra _ n absent there).1] at there
        rw [full sweeps there] at empty
        cases empty
    · rfl
  · refine ⟨report', v', result, hazards, ?_⟩
    rw [erased]
    exact ⟨restored.erase described member empty, at?_erase
      (spot_ne_nil top (described.plainDirs p member))⟩

/-- Innermost first, every directory is empty when its turn comes. -/
theorem pruneDirs_sweep (described : s.Describes top start) {items : List Path}
    (inside : ∀ p ∈ items, p ∈ s.newDirs)
    (ordered : items.Pairwise fun inner outer => ¬ spot top inner <+: spot top outer)
    (restored : s.Restored top start v.disk) (sweeps : v.Sweeps)
    (left : ∀ l n, start.at? l = none → v.disk.at? l = some n → ∃ p ∈ items, spot top p = l)
    (report : RestoreReport) :
    ∀ l, start.at? l = none → (forEach items (pruneDir s.root) report v).2.disk.at? l = none := by
  induction items generalizing report v with
  | nil =>
    intro l gone
    cases there : v.disk.at? l with
    | none => exact there
    | some n =>
      obtain ⟨p, member, _⟩ := left l n gone there
      cases member
  | cons p rest ih =>
    have member := inside p List.mem_cons_self
    obtain ⟨first, others⟩ := List.pairwise_cons.mp ordered
    have absent := ((described.created _).mp ⟨p, member, rfl⟩).1
    -- What lies below is one of the directories that come later, which do not lie below.
    have empty : v.disk.isEmptyDir (spot top p) = true := by
      refine (isEmptyDir_iff restored.tree).mpr fun below within strict => ?_
      cases there : v.disk.at? below with
      | none => rfl
      | some n =>
        obtain ⟨q, listed, rfl⟩ := left below n (described.tree.below_none absent within) there
        rcases List.mem_cons.mp listed with rfl | later
        · exact (strict rfl).elim
        · exact (first q later within).elim
    obtain ⟨report', v', result, hazards, still, disk⟩ :=
      pruneDir_sweeps described member restored sweeps empty report
    rw [forEach_cons, result]
    refine ih (fun q later => inside q (List.mem_cons_of_mem _ later)) others still
      (by rw [Volume.Sweeps, hazards]; exact sweeps) ?_ report'
    intro l n gone there
    rw [disk] at there
    split at there
    · cases there
    · rename_i different
      obtain ⟨q, listed, equal⟩ := left l n gone there
      rcases List.mem_cons.mp listed with rfl | later
      · exact (different equal.symm).elim
      · exact ⟨q, later, equal⟩

/-! ### The whole restore -/

section
variable (described : s.Describes top start) (within : s.Within top start v.disk)
    (single : s.Single top v.disk)
include described within single

/-- What holds when only the directories are left to be removed. -/
theorem restore_pruning :
    ∃ report w, s.restore v = forEach s.newDirs.reverse (pruneDir s.root) report w ∧
    s.Within top start w.disk ∧ w.hazards = v.hazards ∧ (v.Halting → s.Single top w.disk) ∧
    (report.failures = [] → s.Restored top start w.disk) := by
  obtain ⟨⟨within₁, single₁, hazards₁⟩, moves⟩ := undoMoves_clean described within single {}
  obtain ⟨⟨within₂, hazards₂, undone₂⟩, files⟩ := restoreFiles_spec described within₁
    (forEach s.moves.reverse (undoMove s.root) {} v).1
  refine ⟨_, _, rfl, within₂, hazards₂.trans hazards₁, fun halting => ?_, fun clean => ?_⟩
  · rcases undoMoves_halting described within single halting {} with undone | stopped
    · exact Single.of_undone (undone₂ undone)
    · have same := restoreFiles_stopped (by rw [Volume.Halting, hazards₁]; exact halting) stopped
        s.root s.files (forEach s.moves.reverse (undoMove s.root) {} v).1
      exact (congrArg (s.Single top) same).mpr single₁
  · obtain ⟨before, right⟩ := files clean
    exact Restored.of_undone described within₂ (undone₂ (moves before)) right

theorem restore_within :
    s.Within top start (s.restore v).2.disk ∧ (s.restore v).2.hazards = v.hazards := by
  obtain ⟨report, w, same, within, hazards, _, _⟩ := restore_pruning described within single
  obtain ⟨⟨final, kept, _, _⟩, _⟩ := pruneDirs_spec described within report
  rw [same]
  exact ⟨final, kept.trans hazards⟩

/-- After a restore that may be stopped, no file is at two places. -/
theorem restore_single (halting : v.Halting) : s.Single top (s.restore v).2.disk := by
  obtain ⟨report, w, same, within, _, alone, _⟩ := restore_pruning described within single
  obtain ⟨⟨_, _, final, _⟩, _⟩ := pruneDirs_spec described within report
  rw [same]
  exact final (alone halting)

theorem restore_clean (clean : (s.restore v).1.isClean = true) :
    s.Restored top start (s.restore v).2.disk := by
  obtain ⟨report, w, same, within, _, _, restored⟩ := restore_pruning described within single
  obtain ⟨⟨_, _, _, final⟩, before⟩ := pruneDirs_spec described within report
  rw [same] at clean ⊢
  exact final (restored (before (List.isEmpty_iff.mp clean)))

/-- If directories can be removed, a restore without failures gives back the disk of the start. -/
theorem restore_exact (sweeps : v.Sweeps) (clean : (s.restore v).1.isClean = true) :
    ∀ l, (s.restore v).2.disk.at? l = start.at? l := by
  have kept := (restore_clean described within single clean).kept
  obtain ⟨report, w, same, within, hazards, _, restored⟩ := restore_pruning described within single
  have before := (pruneDirs_spec described within report).2
  rw [same] at clean kept ⊢
  have almost := restored (before (List.isEmpty_iff.mp clean))
  intro l
  cases there : start.at? l with
  | some n => exact kept l n there
  | none =>
    refine pruneDirs_sweep described (fun p member => List.mem_reverse.mp member)
      (List.pairwise_reverse.mpr described.ordered) almost
        (by rw [Volume.Sweeps, hazards]; exact sweeps) ?_ _ l there
    intro l n gone found
    obtain ⟨_, p, member, equal⟩ := almost.extra l n gone found
    exact ⟨p, List.mem_reverse.mpr member, equal⟩

end

end Relocation.Snapshot
