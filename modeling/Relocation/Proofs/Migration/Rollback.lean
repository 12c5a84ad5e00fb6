import Relocation.Proofs.Migration.Crash
import Relocation.Proofs.Migration.Driving
import Relocation.Proofs.Snapshot.Clean

/-!
# When a rollback succeeds

Where nothing befalls the disk, a rollback can only be kept from its end by the plan itself: if one
destination lies below the source of another move, that source is a directory once the files are
moved, and its file cannot be put back. Every other plan can be undone in every state.
-/

namespace Relocation

open Disk

def MovePlan.Nests (p : MovePlan) :
    Prop := ∃ a ∈ p.moves, ∃ b ∈ p.moves, b.target.startsWith a.source = true

instance (p : MovePlan) : Decidable p.Nests :=
  inferInstanceAs (Decidable (∃ a ∈ p.moves, ∃ b ∈ p.moves, b.target.startsWith a.source = true))

theorem startsWith_spot (top : Location) {p q : Path} (left : p.IsPlain) (right : q.IsPlain) :
    p.startsWith q = true ↔ spot top q <+: spot top p := by
  have injective : Function.Injective Component.normal := fun _ _ same => by cases same; rfl
  rw [Path.startsWith, left.spells, right.spells, List.isPrefixOf_iff_prefix,
    List.prefix_map_iff_of_injective injective, spot, spot, List.prefix_append_right_inj]

namespace Snapshot

variable {s : Snapshot} {top : Location} {start d : Disk}

/-- Every file that the snapshot holds is in its place or at its destination. If a directory is in
its place, a destination lies below. -/
def Traced (s : Snapshot) (top : Location) (d : Disk) : Prop :=
  ∀ f ∈ s.files, (∃ c, d.at? (spot top f.path) = some (.file c)) ∨
    (∃ a ∈ s.moves, a.source = f.path ∧ ∃ c, d.at? (spot top a.target) = some (.file c)) ∧
      (d.at? (spot top f.path) = some .dir → ∃ b ∈ s.moves, spot top f.path <+: spot top b.target)

def Landed (s : Snapshot) (top : Location) (d : Disk) : Prop :=
  ∀ a ∈ s.moves, ∃ c, d.at? (spot top a.target) = some (.file c)

theorem traced_start (described : s.Describes top start) : s.Traced top start :=
  fun f member => Or.inl ⟨f.content, described.holds f member⟩

theorem Traced.makeDirs (traced : s.Traced top d) {b : Move} (member : b ∈ s.moves) {outer : Location}
    (inside : outer <+: (spot top b.target).dropLast) : s.Traced top (d.makeDirs outer) := by
  intro f held
  rcases traced f held with ⟨c, file⟩ | ⟨⟨a, listed, source, c, file⟩, below⟩
  · exact Or.inl ⟨c, (Migration.file_makeDirs outer).mpr file⟩
  · refine Or.inr ⟨⟨a, listed, source, c, (Migration.file_makeDirs outer).mpr file⟩, fun dir => ?_⟩
    rw [at?_makeDirs] at dir
    split at dir
    · rename_i made
      exact ⟨b, member, made.1.trans (inside.trans (List.dropLast_prefix _))⟩
    · exact below dir

theorem Traced.relocate (described : s.Describes top start) (tree : d.IsTree)
    (traced : s.Traced top d) {m : Move} (member : m ∈ s.moves) {c : Text.Bytes}
    (file : d.at? (spot top m.source) = some (.file c)) (takes : d.Takes (spot top m.target)) :
    s.Traced top (d.relocate (spot top m.source) (spot top m.target)) := by
  have after := at?_relocate tree file takes
  intro f held
  by_cases own : spot top f.path = spot top m.source
  · have source : m.source = f.path :=
      (spot_inj (described.plainFiles f held) (described.plainMoves m member).1 own).symm
    refine Or.inr ⟨⟨m, member, source, c, by rw [after, if_pos rfl]⟩, fun dir => ?_⟩
    rw [own, after, if_neg (described.apart member member), if_pos rfl] at dir
    cases dir
  · have unchanged : (d.relocate (spot top m.source) (spot top m.target)).at? (spot top f.path) =
        d.at? (spot top f.path) := by
      rw [after, if_neg (described.file_ne_target held member), if_neg own]
    rw [unchanged]
    rcases traced f held with inPlace | ⟨⟨a, listed, source, b, there⟩, below⟩
    · exact Or.inl inPlace
    · refine Or.inr ⟨⟨a, listed, source, ?_⟩, below⟩
      rw [after]
      split
      · exact ⟨c, rfl⟩
      · rw [if_neg fun same => described.apart member listed same.symm]
        exact ⟨b, there⟩

theorem file_put {l : Location} (proper : l ≠ []) (c : Text.Bytes) {l' : Location}
    (file : ∃ b, d.at? l' = some (.file b)) : ∃ b, (d.put l (.file c)).at? l' = some (.file b) := by
  rw [at?_put proper]
  split
  · exact ⟨c, rfl⟩
  · exact file

theorem Traced.put (traced : s.Traced top d) {l : Location} (proper : l ≠ []) (c : Text.Bytes) :
    s.Traced top (d.put l (.file c)) := by
  intro f held
  rcases traced f held with inPlace | ⟨⟨a, listed, source, file⟩, below⟩
  · exact Or.inl (file_put proper c inPlace)
  · refine Or.inr ⟨⟨a, listed, source, file_put proper c file⟩, fun dir => below ?_⟩
    rw [at?_put proper] at dir
    split at dir
    · cases dir
    · exact dir

/-! ### Restoring a traced disk -/

variable {plan : MovePlan} {modules : List Path} {v : Volume} (fits : s.Fits plan modules top start)
include fits

theorem Fits.nests_iff :
    plan.Nests ↔ ∃ a ∈ s.moves, ∃ b ∈ s.moves, spot top a.source <+: spot top b.target := by
  rw [MovePlan.Nests, ← fits.planned]
  constructor
  · rintro ⟨a, left, b, right, below⟩
    exact ⟨a, left, b, right, (startsWith_spot top (fits.described.plainMoves b right).2
      (fits.described.plainMoves a left).1).mp below⟩
  · rintro ⟨a, left, b, right, below⟩
    exact ⟨a, left, b, right, (startsWith_spot top (fits.described.plainMoves b right).2
      (fits.described.plainMoves a left).1).mpr below⟩

theorem Traced.settled (traced : s.Traced top d) {m : Move} (member : m ∈ s.moves)
    (gone : d.at? (spot top m.source) = none) : d.at? (spot top m.target) ≠ some .dir := by
  obtain ⟨f, held, path⟩ := fits.described.covers m member
  rw [← path] at gone
  rcases traced f held with ⟨c, file⟩ | ⟨⟨a, listed, source, c, file⟩, _⟩
  · rw [gone] at file
    cases file
  · obtain rfl : a = m := fits.described.sources a listed m member (by rw [source, path])
    rw [file]
    simp

theorem Traced.restore_clean (calm : v.Calm) (within : s.Within top start v.disk)
    (single : s.Single top v.disk) (traced : s.Traced top v.disk) (flat : ¬ plan.Nests) :
    (s.restore v).1.isClean = true := by
  refine (restore_clean_iff fits.described calm within single fun m => traced.settled fits).mpr
    fun f held dir => ?_
  rcases traced f held with ⟨c, file⟩ | ⟨⟨a, listed, source, _⟩, below⟩
  · rw [dir] at file
    cases file
  · obtain ⟨b, member, nested⟩ := below dir
    exact flat ((fits.nests_iff).mpr ⟨a, listed, b, member, source ▸ nested⟩)

theorem Landed.restore_unclean (within : s.Within top start v.disk) (single : s.Single top v.disk)
    (landed : s.Landed top v.disk) (nests : plan.Nests) : (s.restore v).1.isClean = false := by
  obtain ⟨a, left, b, right, below⟩ := fits.nests_iff.mp nests
  obtain ⟨c, file⟩ := landed b right
  obtain ⟨f, held, path⟩ := fits.described.covers a left
  have dir := within.tree.above file below (fits.described.apart left right)
  rw [← path] at dir
  exact restore_of_dir fits.described within single held dir

end Snapshot

/-! ### Moves and edits -/

namespace Migration

variable {m n : Migration} {s : Snapshot} {top store loc : Location} {start : Disk}

theorem Moved.landed {plan : MovePlan} {modules : List Path} {d : Disk}
    (fits : s.Fits plan modules top start) (moved : Moved top start plan.moves d) :
    s.Landed top d := by
  intro a member
  obtain ⟨c, origin⟩ := fits.described.source_file member
  exact ⟨c, (moved _ c).mpr (Or.inl ⟨a, fits.planned ▸ member, rfl, origin⟩)⟩

theorem moveFile_traced {plan : MovePlan} {modules : List Path}
    (fits : s.Fits plan modules top start) {v : Volume}
    (within : s.Within top start v.disk) (traced : s.Traced top v.disk) {before after : List Move}
    {move : Move} (shape : plan.moves = before ++ move :: after)
    (moved : Moved top start before v.disk) :
    s.Traced top (moveFile (s.root.join move.source) (s.root.join move.target) v).2.disk := by
  obtain ⟨member, _, c, _, file, ⟨e, v', result, _, disk | ⟨outer, inside, _, disk⟩⟩ |
    ⟨v', result, _, outer, inside, clear, takes, disk⟩⟩ := moveFile_planned fits within shape moved
  · rw [result, disk]
    exact traced
  · rw [result, disk]
    exact traced.makeDirs member inside
  · rw [result, disk]
    exact (traced.makeDirs member inside).relocate fits.described
      (within.makeDirs fits.described member inside clear).tree member
        ((file_makeDirs outer).mpr file) takes

theorem editFile_traced (m : Migration) (fits : s.Fits m.plan m.targets top start)
    (root : m.root = s.root) {before after : List Path} {p : Path}
    (shape : m.targets = before ++ p :: after) {v : Volume}
    (tree : v.disk.IsTree) (traced : s.Traced top v.disk) (landed : s.Landed top v.disk) :
    s.Traced top (m.editFile p v).2.disk ∧ s.Landed top (m.editFile p v).2.disk := by
  have plain := target_plain m fits shape
  rcases editFile_cases m (root.trans fits.described.root) fits.described.above plain tree with
    ⟨e, v', result, _, disk⟩ | ⟨v', b, content, result, _, disk, _⟩ |
      ⟨revision, v', b, c, result, _, _, _, ⟨disk, _⟩ | disk, _⟩
  · rw [result, disk]
    exact ⟨traced, landed⟩
  · rw [result, disk]
    exact ⟨traced, landed⟩
  · rw [result, disk]
    exact ⟨traced, landed⟩
  · rw [result, disk]
    have proper := spot_ne_nil top plain
    exact ⟨traced.put proper c, fun a listed => Snapshot.file_put proper c (landed a listed)⟩

theorem applyMoves_traced {hazards : List Call → Call → Hazard} (state : m.state = .snapshotted)
    (fits : s.Fits m.plan m.targets top start) (root : m.root = s.root)
    (repairs : s.Repairs top start hazards m.volume) (disk : m.volume.disk = start) :
    (∃ v k f, s.Repairs top start hazards v ∧ s.Traced top v.disk ∧ f.isCorruption = false ∧
      m.applyMoves = { m with volume := v, filesMoved := k }.fail f) ∨
    ∃ v, s.Repairs top start hazards v ∧ s.Traced top v.disk ∧ s.Landed top v.disk ∧ m.applyMoves =
      (.ok (), { m with volume := v, filesMoved := m.filesMoved + m.plan.moves.length }.transition
        .moved) := by
  have traced : s.Traced top m.volume.disk := disk ▸ Snapshot.traced_start fits.described
  have moved : Moved top start [] m.volume.disk := disk ▸ moved_start
  unfold applyMoves
  rcases m.step_cases .applyMoves .snapshotted _ with ⟨other, _⟩ | ⟨_, cancelled | acts⟩
  · exact (other state).elim
  · rw [cancelled]
    exact Or.inl ⟨m.volume, m.filesMoved, .cancelled, repairs, traced, rfl, rfl⟩
  · rw [acts]
    have spec := moveAll_spec
      (fun done v => s.Repairs top start hazards v ∧ s.Traced top v.disk ∧ Moved top start done v.disk)
      (fun v => s.Repairs top start hazards v ∧ s.Traced top v.disk) [] m.plan.moves m ?_
        ⟨repairs, traced, moved⟩
    · rcases spec with ⟨v, k, f, ⟨kept, traced⟩, harmless, failed⟩ | ⟨v, ⟨kept, traced, done⟩, same⟩
      · exact Or.inl ⟨v, k, f, kept, traced, harmless, failed⟩
      · exact Or.inr ⟨v, kept, traced, Moved.landed fits done, same⟩
    · rintro before move after v shape ⟨kept, traced, done⟩
      have progress := moveFile_progress fits kept shape done
      have traced' := moveFile_traced fits kept.within traced shape done
      rw [← root] at progress traced'
      revert progress traced'
      generalize moveFile (m.root.join move.source) (m.root.join move.target) v = result
      obtain ⟨outcome, v'⟩ := result
      cases outcome with
      | ok _ => exact fun progress traced' => ⟨progress.1, traced', progress.2⟩
      | error e => exact fun progress traced' => ⟨progress, traced'⟩

theorem applyEdits_traced {hazards : List Call → Call → Hazard} (state : m.state = .moved)
    (fits : s.Fits m.plan m.targets top start) (root : m.root = s.root) (distinct : m.targets.Nodup)
    (repairs : s.Repairs top start hazards m.volume) (traced : s.Traced top m.volume.disk)
    (landed : s.Landed top m.volume.disk) :
    (∃ v k f, s.Repairs top start hazards v ∧ s.Traced top v.disk ∧ f.isCorruption = false ∧
      m.applyEdits = { m with volume := v, filesEdited := k }.fail f) ∨
    ∃ v k, s.Repairs top start hazards v ∧ s.Traced top v.disk ∧ s.Landed top v.disk ∧
      (m.applyEdits = (.error (.io .aborted), { m with volume := v, filesEdited := k }) ∨
        m.applyEdits = (.ok (), { m with volume := v, filesEdited := k }.transition .edited)) := by
  unfold applyEdits
  rcases m.step_cases .applyEdits .moved _ with ⟨other, _⟩ | ⟨_, cancelled | acts⟩
  · exact (other state).elim
  · rw [cancelled]
    exact Or.inl ⟨m.volume, m.filesEdited, .cancelled, repairs, traced, rfl, rfl⟩
  · rw [acts]
    have ends := editAll_ends
      (fun done _ v => s.Repairs top start hazards v ∧
        (v.Honest → m.Edited top m.volume.disk done v.disk) ∧
        s.Traced top v.disk ∧ s.Landed top v.disk)
      (fun v => s.Repairs top start hazards v ∧ s.Traced top v.disk) [] m.targets m ?_
      ⟨repairs, fun _ => m.edited_start _, traced, landed⟩
    · rw [List.nil_append] at ends
      generalize m.editAll m.targets = result at ends ⊢
      cases ends with
      | @failed v k f safe harmless => exact Or.inl ⟨v, k, f, safe.1, safe.2, harmless, rfl⟩
      | @aborted before after p v w k shape inv stopped =>
        obtain ⟨kept, edited, traced, landed⟩ := inv
        have progress := editFile_progress m fits shape root distinct kept edited
        have shapes := editFile_traced m fits root shape kept.within.tree traced landed
        rw [stopped] at progress shapes
        exact Or.inr ⟨w, k, progress, shapes.1, shapes.2, Or.inl rfl⟩
      | @done v k inv => exact Or.inr ⟨v, k, inv.1, inv.2.2.1, inv.2.2.2, Or.inr rfl⟩
    · rintro before p after k v shape ⟨kept, edited, traced, landed⟩
      have progress := editFile_progress m fits shape root distinct kept edited
      have shapes := editFile_traced m fits root shape kept.within.tree traced landed
      revert progress shapes
      generalize m.editFile p v = result
      obtain ⟨outcome, v'⟩ := result
      cases outcome with
      | error e => exact fun progress shapes => ⟨progress, shapes.1⟩
      | ok revision =>
        cases revision with
        | aborted => exact fun _ _ => trivial
        | unchanged => exact fun progress shapes => ⟨progress.1, progress.2, shapes⟩
        | changed => exact fun progress shapes => ⟨progress.1, progress.2, shapes⟩

end Migration

def Request.Observes : Request → Prop
  | .verify probe _ => ∀ root seconds d, (probe root seconds d).2 = d
  | _ => True

namespace Migration

variable {m n : Migration} {s : Snapshot} {top store loc : Location} {start : Disk}

structure Steady (m n : Migration) (top store : Location) : Prop where
  untouched : n.state = .idle → n = { m with cancelled := n.cancelled }
  pending : n.state.isPending = true → ∃ s loc start, m.Underway n top store s loc start ∧
    s.Traced top n.volume.disk ∧ (n.state = .snapshotted → n.volume.disk = start) ∧
    (n.state ≠ .snapshotted → s.Landed top n.volume.disk)
  errors : ¬ m.plan.Nests → ∀ f ∈ n.errors, f.isCorruption = false

theorem steady_final (final : n.state.isFinal = true)
    (errors : ¬ m.plan.Nests → ∀ f ∈ n.errors, f.isCorruption = false) : Steady m n top store where
  untouched := by
    intro idle
    rw [idle] at final
    cases final
  pending := by
    intro pending
    rw [MigrationState.not_pending_of_final final] at pending
    cases pending
  errors := errors

theorem Steady.cancel (steady : Steady m n top store) : Steady m n.cancel top store where
  untouched := by
    intro idle
    rw [steady.untouched idle]
    rfl
  pending := by
    intro pending
    obtain ⟨s, loc, start, underway, rest⟩ := steady.pending pending
    exact ⟨s, loc, start, { underway with }, rest⟩
  errors := steady.errors

/-- A failure that is no corruption brings none about, unless destinations lie below sources. -/
theorem Underway.fail_steady (underway : m.Underway n top store s loc start) (calm : m.volume.Calm)
    (climbing : n.Climbing) (pending : n.state.isPending = true)
    (traced : s.Traced top n.volume.disk) {f : Failure}
    (harmless : f.isCorruption = false) : Steady m (n.fail f).2 top store := by
  refine steady_final (climbing.fail (Or.inr pending) f).final fun flat => ?_
  obtain ⟨within, single, hazards⟩ := underway.repairs
  have clean := traced.restore_clean underway.fits (calm.of_hazards hazards) within single
    (by rw [underway.plan]; exact flat)
  rw [fail_clean pending underway.held clean]
  change ∀ g ∈ n.errors ++ [f], _
  rw [underway.errors]
  intro g member
  rwa [List.mem_singleton.mp member]

section
variable (prepared : m.Prepared top store) (calm : m.volume.Calm) (steady : Steady m n top store)
    (climbing : n.Climbing)
include prepared calm steady climbing

omit calm in
theorem Steady.takeSnapshot (fresh : m.Fresh) (idle : n.state = .idle) :
    Steady m n.takeSnapshot.2 top store := by
  have same := steady.untouched idle
  rcases takeSnapshot_cases idle with ⟨v, f, _, harmless, failed⟩ | ⟨s, v, path, disk, read,
    written, stored⟩
  · rw [failed]
    refine steady_final ((climbing.alike (n := { n with volume := v }) ⟨rfl, rfl, rfl, rfl⟩).fail
      (Or.inl idle) f).final fun _ => ?_
    rw [fail_early (show { n with volume := v }.state.isPending = false by rw [idle]; rfl)]
    change ∀ g ∈ n.errors ++ [f], _
    rw [same]
    change ∀ g ∈ m.errors ++ [f], _
    rw [fresh.errors]
    intro g member
    rwa [List.mem_singleton.mp member]
  · generalize n.cancelled = flag at same
    subst same
    rw [stored]
    obtain ⟨loc, rfl, kept, repairs⟩ := prepared.stored read written
    refine ⟨fun other => (by cases other),
      fun _ => ⟨s, loc, disk, ?_, Snapshot.traced_start kept.fits.described,
      fun _ => rfl, fun other => (other rfl).elim⟩, steady.errors⟩
    exact { stored := kept, root := rfl, plan := rfl, rules := rfl, targets := rfl, extract := rfl,
            held := rfl, path := rfl, errors := fresh.errors, repairs := repairs }

omit prepared in
theorem Steady.applyMoves (state : n.state = .snapshotted) : Steady m n.applyMoves.2 top store := by
  have pending : n.state.isPending = true := by rw [state]; rfl
  obtain ⟨s, loc, start, underway, _, disk, _⟩ := steady.pending pending
  rcases applyMoves_traced state underway.fits (underway.root.trans underway.stored.root)
    underway.repairs (disk state) with ⟨v, k, f, repairs, traced, harmless, failed⟩
    | ⟨v, repairs, traced, landed, done⟩
  · rw [failed]
    have later : m.Underway { n with volume := v, filesMoved := k } top store s loc start :=
      { underway with repairs := repairs }
    exact later.fail_steady calm (climbing.alike ⟨rfl, rfl, rfl, rfl⟩) pending traced harmless
  · rw [done]
    exact ⟨fun other => (by cases other),
      fun _ => ⟨s, loc, start, { underway with repairs := repairs }, traced,
      fun other => (by cases other), fun _ => landed⟩, steady.errors⟩

theorem Steady.applyEdits (state : n.state = .moved) : Steady m n.applyEdits.2 top store := by
  have pending : n.state.isPending = true := by rw [state]; rfl
  obtain ⟨s, loc, start, underway, traced, _, landed⟩ := steady.pending pending
  rcases applyEdits_traced state underway.fits (underway.root.trans underway.stored.root)
    (underway.targets ▸ prepared.distinct) underway.repairs traced (landed (by rw [state]; decide))
    with ⟨v, k, f, repairs, traced, harmless, failed⟩ | ⟨v, k, repairs, traced, landed, aborted | done⟩
  · rw [failed]
    have later : m.Underway { n with volume := v, filesEdited := k } top store s loc start :=
      { underway with repairs := repairs }
    exact later.fail_steady calm (climbing.alike ⟨rfl, rfl, rfl, rfl⟩) pending traced harmless
  · rw [aborted]
    refine ⟨fun other => ?_, fun _ => ⟨s, loc, start, { underway with repairs := repairs }, traced,
      fun other => ?_, fun _ => landed⟩, steady.errors⟩
    · cases state.symm.trans other
    · cases state.symm.trans other
  · rw [done]
    exact ⟨fun other => (by cases other),
      fun _ => ⟨s, loc, start, { underway with repairs := repairs }, traced,
      fun other => (by cases other), fun _ => landed⟩, steady.errors⟩

omit prepared in
theorem Steady.verify (state : n.state = .edited) {probe : Probe} {seconds : Nat}
    (observes : (Request.verify probe seconds).Observes) :
    Steady m (n.verify probe seconds).2 top store := by
  have pending : n.state.isPending = true := by rw [state]; rfl
  obtain ⟨s, loc, start, underway, traced, _, landed⟩ := steady.pending pending
  have volume : (n.probed probe seconds).volume = n.volume := by
    change { n.volume with disk := (probe n.root seconds n.volume.disk).2 } = n.volume
    rw [observes n.root seconds n.volume.disk]
  have later : m.Underway (n.probed probe seconds) top store s loc start :=
    { underway with repairs := volume ▸ underway.repairs }
  rcases verify_cases state probe seconds with cancelled | ⟨f, harmless, failed⟩ | passed
  · rw [cancelled]
    exact underway.fail_steady calm climbing pending traced rfl
  · rw [failed]
    exact later.fail_steady calm (climbing.alike ⟨rfl, rfl, rfl, rfl⟩) pending
      (volume ▸ traced) harmless
  · rw [passed]
    refine ⟨fun other => (by cases other), fun _ => ⟨s, loc, start, { later with }, ?_, fun other =>
      (by cases other), fun _ => ?_⟩,
      steady.errors⟩
    · change s.Traced top (n.probed probe seconds).volume.disk
      rw [volume]
      exact traced
    · change s.Landed top (n.probed probe seconds).volume.disk
      rw [volume]
      exact landed (by rw [state]; decide)

omit prepared in
theorem Steady.commit (state : n.state = .verified) : Steady m n.commit.2 top store := by
  have pending : n.state.isPending = true := by rw [state]; rfl
  obtain ⟨s, loc, start, underway, traced, _⟩ := steady.pending pending
  rcases commit_cases state with cancelled | done
  · rw [cancelled]
    exact underway.fail_steady calm climbing pending traced rfl
  · rw [done]
    exact ⟨fun other => (by cases other), fun other => (by cases other), steady.errors⟩

omit prepared calm in
theorem Steady.rollback (pending : n.state.isPending = true) : Steady m n.rollback.2 top store := by
  obtain ⟨s, loc, start, underway, _⟩ := steady.pending pending
  refine steady_final (climbing.rollback pending).final ?_
  cases clean : (s.restore n.volume).1.isClean with
  | true =>
    rw [rollback_clean pending underway.held clean]
    exact steady.errors
  | false =>
    rw [rollback_corrupted pending underway.held clean]
    exact steady.errors

theorem Steady.perform (fresh : m.Fresh) {request : Request} (observes : request.Observes) :
    Steady m (n.perform request).2 top store := by
  cases asked : request.step? with
  | none =>
    cases request <;> cases asked
    exact steady.cancel
  | some step =>
    cases accepted : step.accepts n.state with
    | false =>
      rw [perform_misplaced asked accepted]
      exact steady
    | true =>
      cases request with
      | cancel => cases asked
      | snapshot =>
        cases asked
        exact steady.takeSnapshot prepared climbing fresh
          (by simpa [MigrationStep.accepts] using accepted)
      | applyMoves =>
        cases asked
        exact steady.applyMoves calm climbing (by simpa [MigrationStep.accepts] using accepted)
      | applyEdits =>
        cases asked
        exact steady.applyEdits prepared calm climbing
          (by simpa [MigrationStep.accepts] using accepted)
      | verify probe seconds =>
        cases asked
        exact steady.verify calm climbing (by simpa [MigrationStep.accepts] using accepted) observes
      | commit =>
        cases asked
        exact steady.commit calm climbing (by simpa [MigrationStep.accepts] using accepted)
      | rollBack =>
        cases asked
        exact steady.rollback climbing accepted

omit steady climbing in
theorem drive_steady (fresh : m.Fresh) (placed : n.Climbing ∨ n.Over) (steady : Steady m n top store)
    {requests : List Request} (observes : ∀ request ∈ requests, request.Observes) :
    Steady m (n.drive requests) top store := by
  induction requests generalizing n with
  | nil => exact steady
  | cons request rest ih =>
    refine ih (perform_kept request placed) ?_ fun other member => observes other
      (List.mem_cons_of_mem _ member)
    rcases placed with climbing | ended
    · exact steady.perform prepared calm climbing fresh (observes request List.mem_cons_self)
    · obtain ⟨flag, same⟩ := drive_final ended.final [request]
      have unchanged : (n.perform request).2 = { n with cancelled := flag } := same
      change Steady m (n.perform request).2 top store
      rw [unchanged]
      exact steady_final ended.final steady.errors

omit prepared climbing in
theorem Steady.rollback_iff (pending : n.state.isPending = true) :
    n.rollback.1 = .ok () ↔ n.state = .snapshotted ∨ ¬ m.plan.Nests := by
  obtain ⟨s, loc, start, underway, traced, disk, landed⟩ := steady.pending pending
  obtain ⟨within, single, hazards⟩ := underway.repairs
  have described := underway.fits.described
  have calm' : n.volume.Calm := calm.of_hazards hazards
  have clean_iff : (s.restore n.volume).1.isClean = true ↔ n.state = .snapshotted ∨
      ¬ m.plan.Nests := by
    constructor
    · intro clean
      by_cases early : n.state = .snapshotted
      · exact Or.inl early
      · refine Or.inr fun nests => ?_
        rw [(landed early).restore_unclean underway.fits within single
          (by rw [underway.plan]; exact nests)] at clean
        cases clean
    · rintro (early | flat)
      · refine (Snapshot.restore_clean_iff described calm' within single fun m =>
          traced.settled underway.fits).mpr ?_
        intro f held dir
        rw [disk early, described.holds f held] at dir
        cases dir
      · exact traced.restore_clean underway.fits calm' within single
          (by rw [underway.plan]; exact flat)
  rw [← clean_iff]
  cases clean : (s.restore n.volume).1.isClean with
  | true =>
    rw [rollback_clean pending underway.held clean]
    simp
  | false =>
    rw [rollback_corrupted pending underway.held clean]
    simp

end

theorem Fresh.climbing (fresh : m.Fresh) : m.Climbing := by
  refine ⟨by rw [fresh.state]; decide, by rw [fresh.history, fresh.state]; rfl, fun pending => ?_⟩
  rw [fresh.state] at pending
  cases pending

/-- On a volume where nothing befalls a call, a rollback succeeds exactly if nothing was moved yet
or no destination lies below a source; without such a destination no step ever ends in a corruption. -/
theorem rollback_succeeds_iff (m : Migration) (prepared : m.Prepared top store) (fresh : m.Fresh)
    (calm : m.volume.Calm) (requests : List Request)
    (observes : ∀ request ∈ requests, request.Observes) :
    (¬ m.plan.Nests → ∀ f ∈ (m.drive requests).errors, f.isCorruption = false) ∧
      ((m.drive requests).state.isPending = true → ((m.drive requests).rollback.1 = .ok () ↔
        (m.drive requests).state = .snapshotted ∨ ¬ m.plan.Nests)) := by
  have idle : ¬ m.state.isPending = true := by
    rw [fresh.state]
    simp [MigrationState.isPending]
  have initial : Steady m m top store := by
    refine ⟨fun _ => rfl, fun pending => (idle pending).elim, fun _ f member => ?_⟩
    rw [fresh.errors] at member
    cases member
  have steady := drive_steady prepared calm fresh (Or.inl fresh.climbing) initial observes
  exact ⟨steady.errors, steady.rollback_iff calm⟩

/-- A plan without such destinations can be undone once it is verified. -/
theorem rollback_succeeds_verified :
    let n := (specimen calm).drive [.snapshot, .applyMoves, .applyEdits, .verify lenient 60]
    (specimen calm).Prepared ["project"] ["store"] ∧ (specimen calm).Fresh ∧
    (specimen calm).volume.Calm ∧
      n.state = .verified ∧ n.rollback.1 = .ok () ∧ ∀ f ∈ n.errors, f.isCorruption = false := by
  have flat : ¬ (specimen calm).plan.Nests := by decide +kernel
  have state : ((specimen calm).drive
      [.snapshot, .applyMoves, .applyEdits, .verify lenient 60]).state = .verified := by
    decide +kernel
  have observes : ∀ request ∈ [Request.snapshot, .applyMoves, .applyEdits, .verify lenient 60],
      request.Observes := by
    intro request member
    simp only [List.mem_cons, List.not_mem_nil, or_false] at member
    obtain rfl | rfl | rfl | rfl := member
    · trivial
    · trivial
    · trivial
    · exact fun _ _ _ => rfl
  obtain ⟨errors, succeeds⟩ := rollback_succeeds_iff (specimen calm) (specimen_prepared calm)
    (specimen_fresh calm) (fun _ _ => rfl) _ observes
  exact ⟨specimen_prepared calm, specimen_fresh calm, fun _ _ => rfl, state,
    (succeeds (by rw [state]; rfl)).mpr (Or.inr flat), errors flat⟩

def tangled : Migration where
  root := pathOf ["project"]
  plan := ⟨[⟨⟨"a.ts"⟩, ⟨"b/a.ts"⟩⟩, ⟨⟨"z.ts"⟩, ⟨"a.ts/z.ts"⟩⟩]⟩
  rules := {}
  targets := []
  extract := fun path _ => ⟨path, [], {}, 0⟩
  snapshotDir := pathOf ["store"]
  stamp := ⟨List.replicate 16 0, .epoch⟩
  volume :=
    { disk.nodes :=
        ⟨[(["project"], .dir), (["project", "a.ts"], .file [97]),
          (["project", "z.ts"], .file [122])], by decide⟩
      hazards := calm }

theorem tangled_files :
    tangled.volume.disk.filesBelow ["project"] ["store"] = [⟨"a.ts"⟩, ⟨"z.ts"⟩] := by
  simp only [tangled]
  decide

theorem tangled_prepared : tangled.Prepared ["project"] ["store"] where
  tree := by simp only [tangled]; decide
  here := by simp only [tangled]; decide
  root := rfl
  apart := by decide
  shelf := rfl
  shelved := ⟨[], by decide, rfl⟩
  planned := by
    rw [tangled_files]
    exact ⟨[⟨⟨"a.ts"⟩, none⟩, ⟨⟨"z.ts"⟩, none⟩],
      fun p _ => if p = ⟨"a.ts"⟩ then some ⟨"b"⟩ else some ⟨"a.ts"⟩, by decide, rfl⟩
  outside := by simp only [tangled]; decide
  edits := by simp [tangled]
  distinct := List.nodup_nil

/-- Though nothing befalls a call, this plan cannot be undone once its files are moved. -/
theorem rollback_fails_tangled :
    tangled.Prepared ["project"] ["store"] ∧ tangled.Fresh ∧ tangled.volume.Calm ∧
      (tangled.drive [.snapshot, .applyMoves]).state = .moved ∧
      ∃ f, f.isCorruption = true ∧ (tangled.drive [.snapshot, .applyMoves]).rollback.1 = .error f := by
  have fresh : tangled.Fresh := ⟨rfl, rfl, rfl, rfl, rfl⟩
  have state : (tangled.drive [.snapshot, .applyMoves]).state = .moved := by decide +kernel
  have refused : (tangled.drive [.snapshot, .applyMoves]).rollback.1.toOption = none := by
    decide +kernel
  refine ⟨tangled_prepared, fresh, fun _ _ => rfl, state, ?_⟩
  rcases drive_kept (Or.inl fresh.climbing) [.snapshot, .applyMoves] with climbing | ended
  · rcases climbing.rollback_ends (by rw [state]; rfl) with ⟨succeeds, _⟩ | ⟨f, corrupts, failed, _⟩
    · rw [succeeds] at refused
      cases refused
    · exact ⟨f, corrupts, failed⟩
  · have final := ended.final
    rw [state] at final
    cases final

end Migration

end Relocation
