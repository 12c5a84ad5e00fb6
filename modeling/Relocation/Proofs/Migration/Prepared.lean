import Relocation.Proofs.Migration.Progress
import Relocation.Proofs.Snapshot.Restoration

/-!
# Migrations of a tree

A migration is prepared for a tree if its plan was made for the files of the tree and its snapshots
go to a store that is held apart. Then its snapshot describes the disk, and moves, edits and the
rollback keep to what the snapshot can repair.
-/

namespace Relocation.Migration

open Disk

/-- The tree at `top` is to be migrated; what lies in the store does not belong to it. -/
structure Prepared (m : Migration) (top store : Location) : Prop where
  tree : m.volume.disk.IsTree
  here : m.volume.disk.at? top = some .dir
  root : m.root = pathOf top
  apart : ¬ store <+: top
  shelf : m.volume.disk.at? store.dropLast = some .dir
  shelved : ∃ below, (∀ name ∈ store ++ below, Path.IsName name) ∧ m.snapshotDir = pathOf
    (store ++ below)
  planned : ∃ candidates policy, (∀ c ∈ candidates, c.path ∈ m.volume.disk.filesBelow top store) ∧
    MovePlan.make candidates policy (m.volume.disk.filesBelow top store) = .ok m.plan
  outside : ∀ move ∈ m.plan.moves, ¬ store <+: spot top move.target
  edits : ∀ p ∈ m.targets, p ∈ m.volume.disk.filesBelow top store
  distinct : m.targets.Nodup

structure Fresh (m : Migration) : Prop where
  state : m.state = .idle
  history : m.history = [.idle]
  snapshot : m.snapshot = none
  errors : m.errors = []
  filesMoved : m.filesMoved = 0

/-- A snapshot of the migration is in the store, at `loc`, and `start` is the disk since then. -/
structure Stored (m : Migration) (top store : Location) (s : Snapshot) (loc : Location)
    (start : Disk) : Prop where
  fits : s.Fits m.plan m.targets top start
  root : m.root = s.root
  same : ∀ l, ¬ store <+: l → start.at? l = m.volume.disk.at? l
  inside : store <+: loc
  valid : ∀ name ∈ loc, Path.IsName name
  file : start.at? loc = some (.file s.encode)
  held : ∀ f ∈ s.files, f.path ∈ m.touched
  covers : ∀ p ∈ m.touched, ∃ f ∈ s.files, f.path = p

structure Underway (m n : Migration) (top store : Location) (s : Snapshot) (loc : Location)
    (start : Disk) : Prop where
  stored : m.Stored top store s loc start
  root : n.root = m.root
  plan : n.plan = m.plan
  rules : n.rules = m.rules
  targets : n.targets = m.targets
  extract : n.extract = m.extract
  held : n.snapshot = some s
  path : n.snapshotPath = some (pathOf loc)
  errors : n.errors = []
  repairs : s.Repairs top start m.volume.hazards n.volume

variable {m : Migration} {top store : Location} {s : Snapshot} {start : Disk} {loc : Location}

/-! ### The snapshot -/

theorem Prepared.touched_known (prepared : m.Prepared top store) {p : Path} (member : p ∈ m.touched) :
    p ∈ m.volume.disk.filesBelow top store := by
  obtain ⟨candidates, policy, known, made⟩ := prepared.planned
  exact Snapshot.captured_known (MovePlan.sound_of_make made) known prepared.edits member

theorem Prepared.touched_outside (prepared : m.Prepared top store) {p : Path}
    (member : p ∈ m.touched) : ¬ store <+: spot top p :=
  ((mem_filesBelow prepared.tree prepared.here).mp (prepared.touched_known member)).2.2

theorem Prepared.stored (prepared : m.Prepared top store) {v : Volume} {path : Path} {disk : Disk}
    (read : Snapshot.capture m.stamp m.root m.touched m.plan m.volume = (.ok s, v))
    (written : s.persist m.snapshotDir v.disk = (.ok path, disk)) :
    ∃ loc, path = pathOf loc ∧ m.Stored top store s loc disk ∧
      s.Repairs top disk m.volume.hazards { v with disk } := by
  obtain ⟨candidates, policy, known, made⟩ := prepared.planned
  have sound := MovePlan.sound_of_make made
  have kept := Snapshot.capture_disk m.stamp m.root m.touched m.plan m.volume
  rw [read] at kept
  obtain ⟨below, valid, shelved⟩ := prepared.shelved
  rw [shelved, kept.1] at written
  obtain ⟨tree, same, found⟩ := Snapshot.persist_spec s prepared.tree valid prepared.shelf
  rw [written] at tree same found
  obtain ⟨loc, rfl, inside, names, file⟩ := found path rfl
  rw [prepared.root] at read
  obtain ⟨described, moves, held, covers⟩ :=
    Snapshot.capture_describes prepared.tree prepared.here sound known
    prepared.edits rfl prepared.outside read
  have later := described.frame tree same prepared.apart
    (fun f member => prepared.touched_outside (held f member))
    (fun move member => prepared.outside move (moves ▸ member))
  refine ⟨loc, rfl, ⟨⟨later, moves, ⟨candidates, _, sound⟩, ?_⟩, ?_, same, inside, names, file,
    held, covers⟩, ?_⟩
  · exact fun p member => covers p (List.mem_append_right _ member)
  · rw [prepared.root, later.root]
  · exact ⟨later.within_start, later.single_start, kept.2⟩

theorem Prepared.unstored (prepared : m.Prepared top store) {v : Volume} (unstored : m.Unstored v) :
    ∀ l, ¬ store <+: l → v.disk.at? l = m.volume.disk.at? l := by
  have kept := Snapshot.capture_disk m.stamp m.root m.touched m.plan m.volume
  cases unstored with
  | untouched => exact fun _ _ => rfl
  | unread read =>
    rw [read] at kept
    exact fun l _ => by rw [kept.1]
  | unwritten read stored =>
    rename_i s w e disk
    rw [read] at kept
    obtain ⟨below, valid, shelved⟩ := prepared.shelved
    rw [shelved, kept.1] at stored
    obtain ⟨_, same, _⟩ := Snapshot.persist_spec s prepared.tree valid prepared.shelf
    rw [stored] at same
    exact same

theorem Prepared.snapshot_file (prepared : m.Prepared top store)
    (stored : m.Stored top store s loc start)
    {d : Disk} (within : s.Within top start d) : d.at? loc = some (.file s.encode) :=
  within.files loc _ stored.file fun _ member same =>
    prepared.touched_outside (stored.held _ member) (same ▸ stored.inside)

theorem Prepared.discardSnapshot_disk (prepared : m.Prepared top store)
    (stored : m.Stored top store s loc start)
    {n : Migration} (path : n.snapshotPath = some (pathOf loc))
    (within : s.Within top start n.volume.disk) :
    n.discardSnapshot.volume.disk = n.volume.disk.erase loc := by
  have removed := (removeFile_pathOf within.tree stored.valid).mpr
    ⟨⟨_, prepared.snapshot_file stored within⟩, rfl⟩
  unfold discardSnapshot
  simp only [path, removed]

theorem Stored.proper (stored : m.Stored top store s loc start) : loc ≠ [] := by
  rintro rfl
  cases stored.file

theorem Stored.at?_erase (stored : m.Stored top store s loc start) {d : Disk} {l : Location}
    (outside : ¬ store <+: l) : (d.erase loc).at? l = d.at? l := by
  rw [Disk.at?_erase stored.proper, if_neg]
  rintro rfl
  exact outside stored.inside

theorem Underway.fits {n : Migration} (underway : m.Underway n top store s loc start) :
    s.Fits n.plan n.targets top start := by
  rw [underway.plan, underway.targets]
  exact underway.stored.fits

/-! ### Moves and edits -/

theorem applyMoves_cases {hazards : List Call → Call → Hazard} (state : m.state = .snapshotted)
    (fits : s.Fits m.plan m.targets top start) (root : m.root = s.root)
    (repairs : s.Repairs top start hazards m.volume) (moved : Moved top start [] m.volume.disk) :
    (∃ v k f, s.Repairs top start hazards v ∧ f.isCorruption = false ∧
      m.applyMoves = { m with volume := v, filesMoved := k }.fail f) ∨
    ∃ v, s.Repairs top start hazards v ∧ Moved top start m.plan.moves v.disk ∧
      m.applyMoves = (.ok (), { m with
        volume := v, filesMoved := m.filesMoved + m.plan.moves.length }.transition .moved) := by
  unfold applyMoves
  rcases m.step_cases .applyMoves .snapshotted _ with ⟨other, _⟩ | ⟨_, cancelled | acts⟩
  · exact (other state).elim
  · rw [cancelled]
    exact Or.inl ⟨m.volume, m.filesMoved, .cancelled, repairs, rfl, rfl⟩
  · rw [acts]
    have spec := moveAll_spec
      (fun done v => s.Repairs top start hazards v ∧ Moved top start done v.disk)
      (s.Repairs top start hazards) [] m.plan.moves m ?_ ⟨repairs, moved⟩
    · rcases spec with failed | ⟨v, ⟨kept, done⟩, same⟩
      · exact Or.inl failed
      · exact Or.inr ⟨v, kept, done, same⟩
    · rintro before move after v shape ⟨kept, done⟩
      have progress := moveFile_progress fits kept shape done
      rw [← root] at progress
      exact progress

/-- Some module that is to be edited holds a text in which an edit has no place. -/
def Stuck (m : Migration) (top : Location) (moved : Disk) : Prop :=
  ∃ p ∈ m.targets, ∃ b content, moved.at? (spot top (m.plan.finalPath p)) = some (.file b) ∧
    Text.decode b = .ok content ∧ m.rules.apply m.extract p (m.plan.finalPath p) content = .aborted

theorem editFile_stuck (fits : s.Fits m.plan m.targets top start) (root : m.root = s.root)
    (distinct : m.targets.Nodup) {before after : List Path} {p : Path}
    (shape : m.targets = before ++ p :: after) {v w : Volume} (tree : v.disk.IsTree) {moved : Disk}
    (edited : m.Edited top moved before v.disk) (stopped : m.editFile p v = (.ok .aborted, w)) :
    m.Stuck top moved := by
  rcases editFile_cases m (root.trans fits.described.root) fits.described.above
      (target_plain m fits shape) tree with
    ⟨e, v', result, _⟩ | ⟨v', b, content, _, _, _, there, text, result⟩
      | ⟨revision, v', b, c, result, going, _⟩
  · cases stopped.symm.trans result
  · exact ⟨p, by rw [shape]; simp, b, content,
      edited.unedited (target_fresh m fits shape distinct) there, text, result⟩
  · cases stopped.symm.trans result
    exact (going rfl).elim

theorem applyEdits_cases {hazards : List Call → Call → Hazard} (state : m.state = .moved)
    (fits : s.Fits m.plan m.targets top start) (root : m.root = s.root) (distinct : m.targets.Nodup)
    (repairs : s.Repairs top start hazards m.volume) :
    (∃ v k f, s.Repairs top start hazards v ∧ f.isCorruption = false ∧
      m.applyEdits = { m with volume := v, filesEdited := k }.fail f) ∨
    (∃ v k, s.Repairs top start hazards v ∧ (v.Honest → m.Stuck top m.volume.disk) ∧
      m.applyEdits = (.error (.io .aborted), { m with volume := v, filesEdited := k })) ∨
    ∃ v k, s.Repairs top start hazards v ∧ (v.Honest → m.Edited top m.volume.disk m.targets v.disk) ∧
      m.applyEdits = (.ok (), { m with volume := v, filesEdited := k }.transition .edited) := by
  unfold applyEdits
  rcases m.step_cases .applyEdits .moved _ with ⟨other, _⟩ | ⟨_, cancelled | acts⟩
  · exact (other state).elim
  · rw [cancelled]
    exact Or.inl ⟨m.volume, m.filesEdited, .cancelled, repairs, rfl, rfl⟩
  · rw [acts]
    have ends := editAll_ends
      (fun done _ v => s.Repairs top start hazards v ∧
        (v.Honest → m.Edited top m.volume.disk done v.disk))
      (s.Repairs top start hazards) [] m.targets m ?_ ⟨repairs, fun _ => m.edited_start _⟩
    · rw [List.nil_append] at ends
      generalize m.editAll m.targets = result at ends ⊢
      cases ends with
      | @failed v k f kept harmless => exact Or.inl ⟨v, k, f, kept, harmless, rfl⟩
      | @aborted before after p v w k shape inv stopped =>
        obtain ⟨kept, done⟩ := inv
        have progress := editFile_progress m fits shape root distinct kept done
        rw [stopped] at progress
        refine Or.inr (Or.inl ⟨w, k, progress, fun honest => ?_, rfl⟩)
        have faithful : v.Honest := by
          rw [Volume.Honest, kept.hazards, ← progress.hazards]
          exact honest
        exact editFile_stuck fits root distinct shape kept.within.tree (done faithful) stopped
      | @done v k inv => exact Or.inr (Or.inr ⟨v, k, inv.1, inv.2, rfl⟩)
    · rintro before p after k v shape ⟨kept, done⟩
      have progress := editFile_progress m fits shape root distinct kept done
      cases result : m.editFile p v with
      | mk outcome v' =>
        rw [result] at progress
        cases outcome with
        | error e => exact progress
        | ok revision =>
          cases revision with
          | aborted => trivial
          | unchanged => exact progress
          | changed => exact progress

/-! ### A small migration -/

/-- Two files, of which `a.ts` goes to `lib` and `b.ts` is to be edited. -/
def specimen (hazards : List Call → Call → Hazard) : Migration where
  root := pathOf ["project"]
  plan := ⟨[⟨⟨"a.ts"⟩, ⟨"lib/a.ts"⟩⟩]⟩
  rules := { shared := .single "./a" "./lib/a" }
  targets := [⟨"b.ts"⟩]
  extract := fun path _ => ⟨path, [], {}, 0⟩
  snapshotDir := pathOf ["store"]
  stamp := ⟨List.replicate 16 0, .epoch⟩
  volume :=
    { disk.nodes :=
        ⟨[(["project"], .dir), (["project", "a.ts"], .file [97]),
          (["project", "b.ts"], .file [98])], by decide⟩
      hazards }

def brittle : List Call → Call → Hazard :=
  fun past _ => if past.length = 3 then .fail "no space left" else .none

def lenient : Probe := fun _ _ d => ({ passed := true, output := "" }, d)

theorem specimen_files (hazards : List Call → Call → Hazard) :
    (specimen hazards).volume.disk.filesBelow ["project"] ["store"] = [⟨"a.ts"⟩, ⟨"b.ts"⟩] := by
  simp only [specimen]
  decide

theorem specimen_planned : MovePlan.make [⟨⟨"a.ts"⟩, none⟩, ⟨⟨"b.ts"⟩, none⟩]
    (fun p _ => if p = ⟨"a.ts"⟩ then some ⟨"lib"⟩ else none) [⟨"a.ts"⟩, ⟨"b.ts"⟩] =
      .ok ⟨[⟨⟨"a.ts"⟩, ⟨"lib/a.ts"⟩⟩]⟩ := by
  rfl

theorem specimen_prepared (hazards : List Call → Call → Hazard) :
    (specimen hazards).Prepared ["project"] ["store"] where
  tree := by simp only [specimen]; decide
  here := by simp only [specimen]; decide
  root := rfl
  apart := by decide
  shelf := rfl
  shelved := ⟨[], by decide, rfl⟩
  planned := by
    rw [specimen_files]
    exact ⟨[⟨⟨"a.ts"⟩, none⟩, ⟨⟨"b.ts"⟩, none⟩], _, by decide, specimen_planned⟩
  outside := by simp only [specimen]; decide
  edits := by
    rw [specimen_files]
    simp only [specimen]
    decide
  distinct := by simp only [specimen]; decide

theorem specimen_fresh (hazards : List Call → Call → Hazard) : (specimen hazards).Fresh :=
  ⟨rfl, rfl, rfl, rfl, rfl⟩

end Relocation.Migration
