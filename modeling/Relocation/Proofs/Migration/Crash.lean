import Relocation.Proofs.Migration.Prepared

/-!
# Crashes

A crash lets some calls through, may spoil the next one and keeps all later ones from the disk.
However often a migration, and then the restores of its snapshot, crash, the snapshot can still
repair the disk: a restore that reaches its end without failures gives back the tree as it was.
-/

namespace Relocation

open Disk

namespace Volume

/-- Some calls go through, the next one meets a hazard, and no later one reaches the disk. -/
def crashAfter (count : Nat) (last : Hazard) : List Call → Call → Hazard := fun past _ =>
  if past.length < count then .none else if past.length = count then last else .fail "crashed"

/-- The disk that is left if work on a disk crashes. The call during which it does so may have been
made in full or in part: a write may have left any bytes, and of several directories only the outer
ones may be there. -/
def CrashesInto (work : Volume → Volume) (d d' : Disk) : Prop :=
  ∃ count last, (work { disk := d, hazards := crashAfter count last }).disk = d'

theorem crashAfter_halting (d : Disk) (count : Nat) (last : Hazard) :
    Halting { disk := d, hazards := crashAfter count last } := by
  intro past c message failed c'
  change crashAfter count last past c = .fail message at failed
  have late : count ≤ past.length := by
    by_contra early
    rw [crashAfter, if_pos (by omega)] at failed
    cases failed
  refine ⟨"crashed", ?_⟩
  change crashAfter count last (c :: past) c' = .fail "crashed"
  rw [crashAfter, List.length_cons, if_neg (by omega), if_neg (by omega)]

end Volume

namespace Snapshot

open Volume

inductive Retried (s : Snapshot) (d : Disk) : Disk → Prop
  | never : Retried s d d
  | again {mid d' : Disk} (earlier : Retried s d mid)
    (crash : CrashesInto (fun v => (s.restore v).2) mid d') :
      Retried s d d'

/-- The snapshot can turn the disk into one that is like `origin` outside the store. -/
def Repairable (s : Snapshot) (top store : Location) (origin d : Disk) : Prop :=
  ∃ start, s.Describes top start ∧ (∀ l, ¬ store <+: l → start.at? l = origin.at? l) ∧
    s.Within top start d ∧ s.Single top d

variable {s : Snapshot} {top store : Location} {origin start d d' : Disk}

theorem Repairable.restore_crash (repairable : s.Repairable top store origin d)
    (crash : CrashesInto (fun v => (s.restore v).2) d d') : s.Repairable top store origin d' := by
  obtain ⟨start, described, same, within, single⟩ := repairable
  obtain ⟨count, last, rfl⟩ := crash
  have halting := crashAfter_halting d count last
  exact ⟨start, described, same, (restore_within described within single).1,
    restore_single described within single halting⟩

theorem Repairable.retried (repairable : s.Repairable top store origin d) (retried : s.Retried d d') :
    s.Repairable top store origin d' := by
  induction retried with
  | never => exact repairable
  | again _ crash ih => exact ih.restore_crash crash

theorem Repairable.repaired (repairable : s.Repairable top store origin d)
    (clean : (s.restore { disk := d }).1.isClean = true) {l : Location} (outside : ¬ store <+: l) :
    (s.restore { disk := d }).2.disk.at? l = origin.at? l := by
  obtain ⟨start, described, same, within, single⟩ := repairable
  have sweeps : Volume.Sweeps { disk := d } := by
    intro past p message failed
    cases failed
  exact (restore_exact described within single sweeps clean l).trans (same l outside)

/-- A file that is no concern of the snapshot may be taken away, before and after. -/
theorem Within.erase_beside (within : s.Within top start d) {loc : Location} {b c : Text.Bytes}
    (before : start.at? loc = some (.file b)) (after : d.at? loc = some (.file c)) :
    s.Within top (start.erase loc) (d.erase loc) := by
  have proper : loc ≠ [] := by
    rintro rfl
    cases before
  constructor
  · exact within.tree.erase proper fun below inside strict => within.tree.below_file after
      inside strict
  · intro l dir
    rw [at?_erase proper] at dir ⊢
    split at dir
    · cases dir
    · rename_i other
      rw [if_neg other]
      exact within.dirs l dir
  · intro l b file free
    rw [at?_erase proper] at file ⊢
    split at file
    · cases file
    · rename_i other
      rw [if_neg other]
      exact within.files l b file free
  · intro l n gone there
    rw [at?_erase proper] at gone there
    split at there
    · cases there
    · rename_i other
      rw [if_neg other] at gone
      exact within.others l n gone there

end Snapshot

namespace Migration

open Volume

variable {m n : Migration} {top store loc : Location} {s : Snapshot} {start : Disk}

/-- Moves the files and edits them on a volume, as far as that succeeds. -/
def rearrange (m : Migration) (v : Volume) : Volume :=
  (andThen ({ m with volume := v } : Migration).applyMoves applyEdits).2.volume

section
variable (prepared : m.Prepared top store) (stored : m.Stored top store s loc start)
include prepared stored

/-- Taking the snapshot file away changes the store only. -/
theorem Prepared.erase_repairable {d : Disk} (within : s.Within top start d)
    (single : s.Single top d) : s.Repairable top store m.volume.disk (d.erase loc) := by
  have described := stored.fits.described
  have file := prepared.snapshot_file stored within
  have tree := described.tree.erase stored.proper fun below inside strict =>
    described.tree.below_file stored.file inside strict
  refine ⟨start.erase loc, ?_, fun l outside => ?_, within.erase_beside stored.file file,
    single.of_files ?_⟩
  · exact described.frame tree (fun l outside => stored.at?_erase outside) prepared.apart
      (fun f member => prepared.touched_outside (stored.held f member))
      (fun move member => prepared.outside move (stored.fits.planned ▸ member))
  · exact (stored.at?_erase outside).trans (stored.same l outside)
  · intro l c there
    rw [at?_erase stored.proper] at there
    split at there
    · cases there
    · exact ⟨c, there⟩

/-- A failure starts a rollback, which may crash as well. -/
theorem fail_repairable (pending : n.state.isPending = true) (held : n.snapshot = some s)
    (path : n.snapshotPath = some (pathOf loc)) {hazards : List Call → Call → Hazard}
    (repairs : s.Repairs top start hazards n.volume) (halting : n.volume.Halting) (f : Failure) :
    ∃ g after, n.fail f = (.error g, after) ∧
    s.Repairable top store m.volume.disk after.volume.disk := by
  have described := stored.fits.described
  have within := (Snapshot.restore_within described repairs.within repairs.single).1
  have single := Snapshot.restore_single described repairs.within repairs.single halting
  cases clean : (s.restore n.volume).1.isClean with
  | true =>
    refine ⟨f, _, fail_clean pending held clean, ?_⟩
    change s.Repairable top store m.volume.disk ((n.record f).restored s).discardSnapshot.volume.disk
    rw [prepared.discardSnapshot_disk stored (n := (n.record f).restored s) path within]
    exact prepared.erase_repairable stored within single
  | false =>
    exact ⟨_, _, fail_corrupted pending held clean, start, described, stored.same, within, single⟩

theorem rearrange_repairable (state : n.state = .snapshotted) (root : n.root = m.root)
    (plan : n.plan = m.plan) (targets : n.targets = m.targets) (held : n.snapshot = some s)
    (path : n.snapshotPath = some (pathOf loc))
    {v : Volume} (disk : v.disk = start) (halting : v.Halting) :
    s.Repairable top store m.volume.disk (n.rearrange v).disk := by
  have fits : s.Fits n.plan n.targets top start := by
    rw [plan, targets]
    exact stored.fits
  have described := stored.fits.described
  have repairs : s.Repairs top start v.hazards v :=
    ⟨disk ▸ described.within_start, disk ▸ described.single_start, rfl⟩
  have still : ∀ {w : Volume}, s.Repairs top start v.hazards w → w.Halting := fun kept => by
    rw [Halting, kept.hazards]
    exact halting
  unfold rearrange
  rcases applyMoves_cases (m := { n with volume := v }) state fits (root.trans stored.root) repairs
    (disk ▸ moved_start) with ⟨w, k, f, kept, _, failed⟩ | ⟨w, kept, _, done⟩
  · obtain ⟨g, after, ended, repairable⟩ := fail_repairable prepared stored
      (n := { n with volume := w, filesMoved := k })
      (by change n.state.isPending = true; rw [state]; rfl) held path kept (still kept) f
    rw [failed, ended]
    exact repairable
  rw [done]
  rcases applyEdits_cases
      (m := ({ n with volume := w, filesMoved := n.filesMoved + n.plan.moves.length } :
        Migration).transition .moved)
      rfl fits (root.trans stored.root) (targets ▸ prepared.distinct) kept with
    ⟨u, k, f, kept', _, failed⟩ | ⟨u, k, kept', _, stopped⟩ | ⟨u, k, kept', _, stopped⟩
  · obtain ⟨g, after, ended, repairable⟩ := fail_repairable prepared stored
      (n := { ({ n with volume := w, filesMoved := n.filesMoved + n.plan.moves.length } :
          Migration).transition .moved with volume := u, filesEdited := k })
      rfl held path kept' (still kept') f
    change s.Repairable top store m.volume.disk (applyEdits _).2.volume.disk
    rw [failed, ended]
    exact repairable
  all_goals
    change s.Repairable top store m.volume.disk (applyEdits _).2.volume.disk
    rw [stopped]
    exact ⟨start, described, stored.same, kept'.within, kept'.single⟩

end

/-- A migration may crash at any point once its snapshot is taken, and so may any number of
restores. If a restore then reaches its end without failures, the tree is what it was. -/
theorem restore_after_crashes (m : Migration) (top store : Location) (s : Snapshot)
    (crashed later : Disk) (prepared : m.Prepared top store) (fresh : m.Fresh)
    (taken : m.takeSnapshot.1 = .ok ()) (held : m.takeSnapshot.2.snapshot = some s)
    (crash : CrashesInto m.takeSnapshot.2.rearrange m.takeSnapshot.2.volume.disk crashed)
    (retried : s.Retried crashed later) (clean : (s.restore { disk := later }).1.isClean = true) :
    ∀ l, ¬ store <+: l → (s.restore { disk := later }).2.disk.at? l = m.volume.disk.at? l := by
  have repairable : s.Repairable top store m.volume.disk crashed := by
    rcases takeSnapshot_cases fresh.state with ⟨v, f, _, _, failed⟩ | ⟨s', v, path, disk, read,
      written, done⟩
    · rw [failed, fail_early (by change m.state.isPending = false; rw [fresh.state]; rfl)] at taken
      cases taken
    · obtain ⟨loc, rfl, stored, _⟩ := prepared.stored read written
      rw [done] at held crash
      cases held
      obtain ⟨count, last, rfl⟩ := crash
      exact rearrange_repairable prepared stored (n := m.withSnapshot s (pathOf loc)
        { v with disk }) rfl rfl rfl rfl rfl rfl rfl (crashAfter_halting _ count last)
  exact fun l outside => (repairable.retried retried).repaired clean outside

def calm : List Call → Call → Hazard := fun _ _ => .none

def specimenSnapshot : Snapshot where
  version := 1
  id := List.replicate 16 0
  createdAt := .epoch
  root := pathOf ["project"]
  files := [⟨⟨"a.ts"⟩, [97]⟩, ⟨⟨"b.ts"⟩, [98]⟩]
  moves := [⟨⟨"a.ts"⟩, ⟨"lib/a.ts"⟩⟩]
  newDirs := [⟨"lib"⟩]

def besideStore (project : Table Location Disk.Node) : Disk where
  nodes := project.insertAll [(["store"], .dir),
    (["store", "00000000-0000-0000-0000-000000000000.snapshot"], .file specimenSnapshot.encode)]

def movedDisk : Disk := besideStore
  ⟨[(["project"], .dir), (["project", "b.ts"], .file [98]), (["project", "lib"], .dir),
    (["project", "lib", "a.ts"], .file [97])], by decide⟩

def tornDisk : Disk := besideStore
  ⟨[(["project"], .dir), (["project", "a.ts"], .file [0, 255]), (["project", "b.ts"], .file [98]),
    (["project", "lib"], .dir)], by decide⟩

theorem specimen_taken :
    (specimen calm).takeSnapshot.1 = .ok () ∧
    (specimen calm).takeSnapshot.2.snapshot = some specimenSnapshot ∧
      (specimen calm).takeSnapshot.2.volume.disk = besideStore (specimen calm).volume.disk.nodes := by
  decide +kernel

theorem restore_after_crashes_torn :
    CrashesInto (specimen calm).takeSnapshot.2.rearrange (specimen calm).takeSnapshot.2.volume.disk
      movedDisk ∧ specimenSnapshot.Retried movedDisk tornDisk ∧
      (specimenSnapshot.restore { disk := tornDisk }).1.isClean = true ∧
      ∀ l, ¬ ["store"] <+: l → (specimenSnapshot.restore { disk := tornDisk }).2.disk.at? l =
        (specimen calm).volume.disk.at? l := by
  obtain ⟨taken, held, disk⟩ := specimen_taken
  have crash : CrashesInto (specimen calm).takeSnapshot.2.rearrange
      (specimen calm).takeSnapshot.2.volume.disk movedDisk := by
    rw [disk]
    exact ⟨1, .none, by decide +kernel⟩
  have retried : specimenSnapshot.Retried movedDisk tornDisk :=
    .again .never ⟨2, .garble [0, 255], by decide +kernel⟩
  have clean : (specimenSnapshot.restore { disk := tornDisk }).1.isClean = true := by decide +kernel
  exact ⟨crash, retried, clean, restore_after_crashes (specimen calm) ["project"]
    ["store"] specimenSnapshot movedDisk tornDisk (specimen_prepared calm)
      (specimen_fresh calm) taken held crash retried clean⟩

end Migration

end Relocation
