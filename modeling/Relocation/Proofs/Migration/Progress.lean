import Relocation.Proofs.Migration.Steps
import Relocation.Proofs.Snapshot.Capture
import Relocation.Proofs.Text.Utf8

/-!
# How far a migration has come

While files are moved, each file of the start is at its destination if its move is done and where it
was otherwise; while modules are edited, each of them holds the text that its rules give. A move or
an edit that fails leaves a disk that the snapshot can repair.
-/

namespace Relocation

open Disk

/-- The snapshot belongs to the plan and holds the modules that are going to be edited. -/
structure Snapshot.Fits (s : Snapshot) (plan : MovePlan) (modules : List Path) (top : Location)
    (start : Disk) : Prop where
  described : s.Describes top start
  planned : s.moves = plan.moves
  sound : ∃ candidates existing, plan.Sound candidates existing
  edits : ∀ p ∈ modules, ∃ f ∈ s.files, f.path = p

/-- What a migration keeps true of its volume until it ends. -/
structure Snapshot.Repairs (s : Snapshot) (top : Location) (start : Disk)
    (hazards : List Call → Call → Hazard) (v : Volume) : Prop where
  within : s.Within top start v.disk
  single : s.Single top v.disk
  hazards : v.hazards = hazards

theorem Rules.apply_unchanged {rules : Rules} {referrer : Path} {extract : Path → String → Extraction}
    {language : Path} {content edited : String}
    (done : rules.apply extract referrer language content = .done edited 0) : edited = content := by
  unfold apply at done
  simp only at done
  split at done
  · rename_i text made
    obtain ⟨same, none⟩ := Edited.done.inj done
    rw [List.length_eq_zero_iff.mp none] at made
    rw [← same, ← Option.some.inj made, String.ofList_toList]
  · cases done

namespace Migration

variable {s : Snapshot} {plan : MovePlan} {modules : List Path} {top : Location} {start d : Disk}

/-! ### Moves -/

theorem file_makeDirs (loc : Location) {l : Location} {c : Text.Bytes} :
    (d.makeDirs loc).at? l = some (.file c) ↔ d.at? l = some (.file c) := by
  rw [at?_makeDirs]
  split
  · rename_i made
    simp [made.2]
  · rfl

/-- A move makes directories, or makes them and takes the file to its destination, or does nothing. -/
theorem moveFile_cases {v : Volume} (tree : v.disk.IsTree) {source target : Location}
    (sourceValid : ∀ name ∈ source, Path.IsName name) (targetValid : ∀ name ∈ target, Path.IsName name)
    (proper : target ≠ []) {c : Text.Bytes} (file : v.disk.at? source = some (.file c)) :
    (∃ e v', moveFile (pathOf source) (pathOf target) v = (.error e, v') ∧ v'.hazards = v.hazards ∧
      (v'.disk = v.disk ∨ ∃ outer, outer <+: target.dropLast ∧ ¬ v.disk.IsBlocked outer ∧
        v'.disk = v.disk.makeDirs outer)) ∨
    ∃ v', moveFile (pathOf source) (pathOf target) v = (.ok (), v') ∧ v'.hazards = v.hazards ∧
      ∃ outer, outer <+: target.dropLast ∧ ¬ v.disk.IsBlocked outer ∧
      (v.disk.makeDirs outer).Takes target ∧
        v'.disk = (v.disk.makeDirs outer).relocate source target := by
  have parentValid : ∀ name ∈ target.dropLast, Path.IsName name := fun name inside =>
    targetValid name (List.dropLast_subset _ inside)
  have parent : (pathOf target).parent? = some (pathOf target.dropLast) := by
    obtain ⟨front, last, rfl⟩ := (List.eq_nil_or_concat target).resolve_left proper
    rw [List.concat_eq_append] at targetValid ⊢
    rw [parent?_pathOf targetValid, List.dropLast_concat]
  unfold moveFile
  rw [exists?_pathOf tree targetValid, parent]
  cases there : v.disk.at? target with
  | some n => exact Or.inl ⟨.other "destination already exists", v, rfl, rfl, Or.inl rfl⟩
  | none =>
    simp only [Option.isSome_none, Bool.false_eq_true, if_false]
    rcases Volume.createDirs_cases tree parentValid with
      ⟨e, v₁, made, disk, hazards⟩ | ⟨outer, inside, clear, v₁, made, disk, hazards⟩
    · exact Or.inl ⟨e, v₁, Volume.andThen_error made _, hazards, Or.inl disk⟩
    · rw [Volume.andThen_ok made]
      have tree₁ : v₁.disk.IsTree := disk ▸
        tree.makeDirs (fun name member => parentValid name (inside.subset member)) clear
      have file₁ : v₁.disk.at? source = some (.file c) := disk ▸ (file_makeDirs _).mpr file
      have different : source ≠ target := by
        rintro rfl
        rw [there] at file
        cases file
      rcases Volume.rename_cases tree₁ sourceValid targetValid file₁ different with
        ⟨e, v₂, renamed, disk₂, hazards₂⟩ | ⟨takes, v₂, renamed, disk₂, hazards₂⟩
      · exact Or.inl ⟨e, v₂, renamed, hazards₂.trans hazards,
          Or.inr ⟨outer, inside, clear, disk₂.trans disk⟩⟩
      · refine Or.inr ⟨v₂, renamed, hazards₂.trans hazards, outer, inside, clear, ?_, ?_⟩
        · rwa [disk] at takes
        · rw [disk₂, disk]

def Moved (top : Location) (start : Disk) (done : List Move) (d : Disk) : Prop :=
  ∀ l c, d.at? l = some (.file c) ↔
    (∃ m ∈ done, spot top m.target = l ∧ start.at? (spot top m.source) = some (.file c)) ∨
      (start.at? l = some (.file c) ∧ ∀ m ∈ done, spot top m.source ≠ l)

theorem moved_start : Moved top start [] start := by
  intro l c
  simp

theorem Moved.makeDirs {done : List Move} (moved : Moved top start done d) (loc : Location) :
    Moved top start done (d.makeDirs loc) := fun l c => (file_makeDirs loc).trans (moved l c)

theorem Moved.waiting {done : List Move} (described : s.Describes top start)
    (moved : Moved top start done d) (known : ∀ m ∈ done, m ∈ s.moves) {m : Move}
    (member : m ∈ s.moves) (fresh : m ∉ done) {c : Text.Bytes}
    (file : start.at? (spot top m.source) = some (.file c)) :
    d.at? (spot top m.source) = some (.file c) := by
  refine (moved _ c).mpr (Or.inr ⟨file, fun other inside same => fresh ?_⟩)
  rwa [← described.sources other (known other inside) m member same]

theorem Moved.relocate {done : List Move} (described : s.Describes top start) (tree : d.IsTree)
    (moved : Moved top start done d) (known : ∀ m ∈ done, m ∈ s.moves) {m : Move}
    (member : m ∈ s.moves) {c : Text.Bytes} (origin : start.at? (spot top m.source) = some (.file c))
    (file : d.at? (spot top m.source) = some (.file c)) (takes : d.Takes (spot top m.target)) :
    Moved top start (done ++ [m]) (d.relocate (spot top m.source) (spot top m.target)) := by
  intro l b
  rw [at?_relocate tree file takes]
  simp only [List.mem_append, List.mem_singleton]
  by_cases atTarget : l = spot top m.target
  · subst atTarget
    rw [if_pos rfl]
    constructor
    · intro same
      cases same
      exact Or.inl ⟨m, Or.inr rfl, rfl, origin⟩
    · rintro (⟨other, inside, same, there⟩ | ⟨there, _⟩)
      · have listed : other ∈ s.moves := inside.elim (known other) fun same => same ▸ member
        rw [described.targets other listed m member same, origin] at there
        exact there
      · exact (described.vacant m member b there).elim
  rw [if_neg atTarget]
  by_cases atSource : l = spot top m.source
  · subst atSource
    rw [if_pos rfl]
    constructor
    · intro none
      cases none
    · rintro (⟨other, inside, same, _⟩ | ⟨_, stays⟩)
      · have listed : other ∈ s.moves := inside.elim (known other) fun same => same ▸ member
        exact (described.apart member listed same.symm).elim
      · exact (stays m (Or.inr rfl) rfl).elim
  rw [if_neg atSource, moved l b]
  constructor
  · rintro (⟨other, inside, same, there⟩ | ⟨there, stays⟩)
    · exact Or.inl ⟨other, Or.inl inside, same, there⟩
    · refine Or.inr ⟨there, fun other inside same => ?_⟩
      rcases inside with old | rfl
      · exact stays other old same
      · exact atSource same.symm
  · rintro (⟨other, old | rfl, same, there⟩ | ⟨there, stays⟩)
    · exact Or.inl ⟨other, old, same, there⟩
    · exact (atTarget same.symm).elim
    · exact Or.inr ⟨there, fun other old => stays other (Or.inl old)⟩

section
variable (fits : s.Fits plan modules top start)
include fits

theorem moves_distinct : plan.moves.Nodup := by
  obtain ⟨candidates, existing, sound⟩ := fits.sound
  refine sound.ordered.imp fun less same => ?_
  rw [same, Std.compare_self] at less
  cases less

theorem moveFile_planned {v : Volume} (within : s.Within top start v.disk)
    {before after : List Move} {move : Move}
    (shape : plan.moves = before ++ move :: after) (moved : Moved top start before v.disk) :
    move ∈ s.moves ∧ (∀ m ∈ before, m ∈ s.moves) ∧ ∃ c, start.at? (spot top move.source) = some
      (.file c) ∧ v.disk.at? (spot top move.source) = some (.file c) ∧
      ((∃ e v', moveFile (s.root.join move.source) (s.root.join move.target) v = (.error e, v') ∧
        v'.hazards = v.hazards ∧
        (v'.disk = v.disk ∨ ∃ outer, outer <+: (spot top move.target).dropLast ∧
          ¬ v.disk.IsBlocked outer ∧ v'.disk = v.disk.makeDirs outer)) ∨
      ∃ v', moveFile (s.root.join move.source) (s.root.join move.target) v = (.ok (), v') ∧
      v'.hazards = v.hazards ∧
        ∃ outer, outer <+: (spot top move.target).dropLast ∧ ¬ v.disk.IsBlocked outer ∧
          (v.disk.makeDirs outer).Takes (spot top move.target) ∧
          v'.disk = (v.disk.makeDirs outer).relocate (spot top move.source)
            (spot top move.target)) := by
  have described := fits.described
  have known : ∀ m ∈ before, m ∈ s.moves := fun m inside => by
    rw [fits.planned, shape]
    exact List.mem_append_left _ inside
  have member : move ∈ s.moves := by
    rw [fits.planned, shape]
    exact List.mem_append_right _ List.mem_cons_self
  have fresh : move ∉ before := by
    have distinct := moves_distinct fits
    rw [shape] at distinct
    exact fun inside => (List.nodup_append.mp distinct).2.2 move inside move List.mem_cons_self rfl
  obtain ⟨c, origin⟩ := described.source_file member
  have file := moved.waiting described known member fresh origin
  obtain ⟨sourcePlain, targetPlain⟩ := described.plainMoves move member
  rw [described.root, join_spot described.above sourcePlain, join_spot described.above targetPlain]
  exact ⟨member, known, c, origin, file, moveFile_cases within.tree
    (spot_valid described.above sourcePlain)
    (spot_valid described.above targetPlain) (spot_ne_nil top targetPlain) file⟩

/-- What one move does to a migration that can be repaired. -/
theorem moveFile_progress {hazards : List Call → Call → Hazard} {v : Volume}
    (repairs : s.Repairs top start hazards v)
    {before after : List Move} {move : Move} (shape : plan.moves = before ++ move :: after)
    (moved : Moved top start before v.disk) :
    match moveFile (s.root.join move.source) (s.root.join move.target) v with
    | (.ok (), v') => s.Repairs top start hazards v' ∧ Moved top start (before ++ [move]) v'.disk
    | (.error _, v') => s.Repairs top start hazards v' := by
  have described := fits.described
  obtain ⟨within, single, same⟩ := repairs
  have single' : ∀ loc, s.Single top (v.disk.makeDirs loc) := fun loc =>
    single.of_files fun l c there => ⟨c, (file_makeDirs loc).mp there⟩
  obtain ⟨member, known, c, origin, file,
    ⟨e, v', result, hazards', disk | ⟨outer, inside, clear, disk⟩⟩ |
    ⟨v', result, hazards', outer, inside, clear, takes, disk⟩⟩ :=
    moveFile_planned fits within shape moved
  · rw [result]
    exact ⟨by rwa [disk], by rwa [disk], hazards'.trans same⟩
  · rw [result]
    refine ⟨?_, ?_, hazards'.trans same⟩
    · rw [disk]
      exact within.makeDirs described member inside clear
    · rw [disk]
      exact single' _
  · rw [result]
    have within₁ := within.makeDirs described member inside clear
    have file₁ := (file_makeDirs outer).mpr file
    refine ⟨⟨?_, ?_, hazards'.trans same⟩, ?_⟩
    · rw [disk]
      exact within₁.relocate described member file₁ takes
    · rw [disk]
      exact (single' _).relocate described within₁.tree member file₁ takes
    · rw [disk]
      exact (moved.makeDirs _).relocate described within₁.tree known member origin file₁ takes

/-! ### Final paths -/

theorem final_cases {p : Path} (plain : p.IsPlain) :
    (∃ m ∈ s.moves, m.source = p ∧ plan.finalPath p = m.target) ∨
      (∀ m ∈ s.moves, spot top m.source ≠ spot top p) ∧ plan.finalPath p = p := by
  obtain ⟨candidates, existing, sound⟩ := fits.sound
  by_cases moves : ∃ m ∈ s.moves, m.source = p
  · obtain ⟨m, member, rfl⟩ := moves
    exact Or.inl ⟨m, member, rfl, sound.finalPath_moved (fits.planned ▸ member) rfl⟩
  · refine Or.inr ⟨fun m member same => ?_, MovePlan.finalPath_stays fun m member same => ?_⟩
    · exact moves ⟨m, member, spot_inj (fits.described.plainMoves m member).1 plain same⟩
    · rw [← fits.planned] at member
      exact moves ⟨m, member, Snapshot.plain_of_components (fits.described.plainMoves m member).1
        plain same⟩

theorem final_plain {p : Path} (plain : p.IsPlain) : (plan.finalPath p).IsPlain := by
  rcases final_cases fits plain with ⟨m, member, _, final⟩ | ⟨_, final⟩
  · rw [final]
    exact (fits.described.plainMoves m member).2
  · rw [final]
    exact plain

theorem final_inj {p q : Path} (left : p.IsPlain) (right : q.IsPlain) {b c : Text.Bytes}
    (first : start.at? (spot top p) = some (.file b))
    (second : start.at? (spot top q) = some (.file c))
    (same : spot top (plan.finalPath p) = spot top (plan.finalPath q)) : p = q := by
  rcases final_cases fits left with ⟨m, member, source, final⟩ | ⟨_, final⟩
  · rcases final_cases fits right with ⟨m', member', source', final'⟩ | ⟨_, final'⟩
    · rw [final, final'] at same
      rw [← source, ← source', fits.described.targets m member m' member' same]
    · rw [final, final'] at same
      exact (fits.described.vacant m member c (same ▸ second)).elim
  · rcases final_cases fits right with ⟨m', member', source', final'⟩ | ⟨_, final'⟩
    · rw [final, final'] at same
      exact (fits.described.vacant m' member' b (same ▸ first)).elim
    · rw [final, final'] at same
      exact spot_inj left right same

/-- Once all moves are done, every file is at its final path, and there are no others. -/
theorem Moved.final (moved : Moved top start plan.moves d) {p : Path} (plain : p.IsPlain)
    {b : Text.Bytes} (file : start.at? (spot top p) = some (.file b)) :
    d.at? (spot top (plan.finalPath p)) = some (.file b) := by
  rw [moved, ← fits.planned]
  rcases final_cases fits plain with ⟨m, member, rfl, final⟩ | ⟨stays, final⟩
  · rw [final]
    exact Or.inl ⟨m, member, rfl, file⟩
  · rw [final]
    exact Or.inr ⟨file, stays⟩

theorem Moved.origin (moved : Moved top start plan.moves d) {l : Location} (below : top <+: l)
    {b : Text.Bytes} (file : d.at? l = some (.file b)) :
    ∃ p : Path, p.IsPlain ∧ start.at? (spot top p) = some (.file b) ∧
    spot top (plan.finalPath p) = l := by
  have described := fits.described
  rw [moved, ← fits.planned] at file
  rcases file with ⟨m, member, rfl, there⟩ | ⟨there, stays⟩
  · obtain ⟨candidates, existing, sound⟩ := fits.sound
    refine ⟨m.source, (described.plainMoves m member).1, there, ?_⟩
    rw [sound.finalPath_moved (fits.planned ▸ member) rfl]
  · obtain ⟨names, rfl⟩ := below
    have valid : ∀ name ∈ names, Path.IsName name := fun name inside =>
      described.tree.named _ _ there name (List.mem_append_right _ inside)
    have filled : names ≠ [] := by
      rintro rfl
      rw [List.append_nil, described.here] at there
      cases there
    have plain : (Path.plain names).IsPlain := ⟨names, filled, valid, rfl⟩
    have same : spot top (Path.plain names) = top ++ names := by
      rw [spot, (Path.spells_plain valid).normalNames]
    refine ⟨Path.plain names, plain, same ▸ there, ?_⟩
    rcases final_cases fits plain with ⟨m, member, source, _⟩ | ⟨_, final⟩
    · exact (stays m member (by rw [source, same])).elim
    · rw [final, same]

end

/-! ### Edits -/

/-- The bytes are a text, and every edit of it that the rules ask for has its place. -/
def Revises (m : Migration) (p : Path) (bytes : Text.Bytes) : Prop :=
  ∃ content edited replacements, Text.decode bytes = .ok content ∧
    m.rules.apply m.extract p (m.plan.finalPath p) content = .done edited replacements

/-- The bytes of a module once its rules have been applied. Bytes that cannot be edited stay. -/
def rewritten (m : Migration) (p : Path) (bytes : Text.Bytes) : Text.Bytes :=
  match Text.decode bytes with
  | .ok content =>
    match m.rules.apply m.extract p (m.plan.finalPath p) content with
    | .done edited _ => Text.encode edited
    | .aborted => bytes
  | .error _ => bytes

theorem rewritten_done {m : Migration} {p : Path} {bytes : Text.Bytes}
    {content edited : String} {n : Nat} (read : Text.decode bytes = .ok content)
    (done : m.rules.apply m.extract p (m.plan.finalPath p) content = .done edited n) :
    m.rewritten p bytes = Text.encode edited := by
  simp only [rewritten, read, done]

/-- What editing a file can do. It fails and leaves the disk alone; it aborts the run, because an
edit of the text has no place; or it writes what the rules give, if the volume is honest. -/
theorem editFile_cases (m : Migration) {p : Path} (root : m.root = pathOf top)
    (above : ∀ name ∈ top, Path.IsName name) (plain : (m.plan.finalPath p).IsPlain) {v : Volume}
    (tree : v.disk.IsTree) :
    (∃ e v', m.editFile p v = (.error e, v') ∧ v'.hazards = v.hazards ∧ v'.disk = v.disk) ∨
    (∃ v' b content, m.editFile p v = (.ok .aborted, v') ∧ v'.hazards = v.hazards ∧ v'.disk = v.disk ∧
      v.disk.at? (spot top (m.plan.finalPath p)) = some (.file b) ∧ Text.decode b = .ok content ∧
      m.rules.apply m.extract p (m.plan.finalPath p) content = .aborted) ∨
    ∃ revision v' b c, m.editFile p v = (.ok revision, v') ∧ revision ≠ .aborted ∧
      v'.hazards = v.hazards ∧ v.disk.at? (spot top (m.plan.finalPath p)) = some (.file b) ∧
      (v'.disk = v.disk ∧ c = b ∨ v'.disk = v.disk.put (spot top (m.plan.finalPath p)) (.file c)) ∧
      m.Revises p b ∧ (v.Honest → c = m.rewritten p b) := by
  have valid := spot_valid above plain
  unfold editFile
  rw [root, join_spot above plain]
  rcases Volume.read_cases tree valid with ⟨e, v₁, read, disk, hazards⟩
    | ⟨b, there, v₁, read, disk, hazards⟩
  · exact Or.inl ⟨e, v₁, Volume.andThen_error read _, hazards, disk⟩
  rw [Volume.andThen_ok read]
  cases decoded : Text.decode b with
  | error e => exact Or.inl ⟨.other e.message, v₁, rfl, hazards, disk⟩
  | ok content =>
    simp only
    cases result : m.rules.apply m.extract p (m.plan.finalPath p) content with
    | aborted => exact Or.inr (Or.inl ⟨v₁, b, content, rfl, hazards, disk, there, decoded, result⟩)
    | done edited replacements =>
      have revises : m.Revises p b := ⟨content, edited, replacements, decoded, result⟩
      have outcome := rewritten_done decoded result
      simp only
      split
      · rename_i none
        refine Or.inr (Or.inr ⟨.unchanged, v₁, b, b, rfl, Revision.noConfusion, hazards, there,
          Or.inl ⟨disk, rfl⟩, revises, fun _ => ?_⟩)
        rw [none] at result
        rw [outcome, Rules.apply_unchanged result, Text.encode_decode decoded]
      · rcases Volume.write_cases (disk ▸ tree) valid (Text.encode edited) with
          ⟨e, v₂, written, disk₂, hazards₂⟩ | ⟨c, _, ⟨v₂, written, disk₂, hazards₂⟩, honest⟩
        · exact Or.inl ⟨e, v₂, Volume.andThen_error written _, hazards₂.trans hazards,
            disk₂.trans disk⟩
        · refine Or.inr (Or.inr ⟨.changed, v₂, b, c, Volume.andThen_ok written _, Revision.noConfusion,
            hazards₂.trans hazards, there, Or.inr (by rw [disk₂, disk]), revises, fun faithful => ?_⟩)
          rw [outcome]
          exact honest (by rw [Volume.Honest, hazards]; exact faithful)

structure Edited (m : Migration) (top : Location) (moved : Disk) (done : List Path) (d : Disk) :
    Prop where
  files : ∀ l c, d.at? l = some (.file c) ↔
    (∃ p ∈ done, spot top (m.plan.finalPath p) = l ∧ ∃ b, moved.at? l = some (.file b) ∧
      m.rewritten p b = c) ∨
      (moved.at? l = some (.file c) ∧ ∀ p ∈ done, spot top (m.plan.finalPath p) ≠ l)
  revised : ∀ p ∈ done, ∃ b, moved.at? (spot top (m.plan.finalPath p)) = some (.file b) ∧ m.Revises p b

theorem Edited.congr {m n : Migration} (plan : n.plan = m.plan) (rules : n.rules = m.rules)
    (extract : n.extract = m.extract) {moved : Disk} {done : List Path}
    (edited : n.Edited top moved done d) : m.Edited top moved done d := by
  obtain ⟨files, revised⟩ := edited
  unfold rewritten at files
  unfold Revises at revised
  rw [plan, rules, extract] at files revised
  exact ⟨files, revised⟩

theorem edited_start (m : Migration) (d : Disk) : m.Edited top d [] d :=
  ⟨fun l c => by simp, fun p member => nomatch member⟩

/-- A module that is still to be edited holds what it did when all files had been moved. -/
theorem Edited.unedited {m : Migration} {moved : Disk} {done : List Path}
    (edited : m.Edited top moved done d) {p : Path}
    (fresh : ∀ q ∈ done, spot top (m.plan.finalPath q) ≠ spot top (m.plan.finalPath p))
    {b : Text.Bytes} (file : d.at? (spot top (m.plan.finalPath p)) = some (.file b)) :
    moved.at? (spot top (m.plan.finalPath p)) = some (.file b) := by
  rcases (edited.files _ b).mp file with ⟨q, inside, same, _⟩ | ⟨there, _⟩
  · exact (fresh q inside same).elim
  · exact there

theorem Edited.put {m : Migration} {moved : Disk} {done : List Path}
    (edited : m.Edited top moved done d) {p : Path} (plain : (m.plan.finalPath p).IsPlain)
    (fresh : ∀ q ∈ done, spot top (m.plan.finalPath q) ≠ spot top (m.plan.finalPath p))
    {b : Text.Bytes} (file : d.at? (spot top (m.plan.finalPath p)) = some (.file b))
    (revises : m.Revises p b) {d' : Disk}
    (after : ∀ l, d'.at? l =
      (d.put (spot top (m.plan.finalPath p)) (.file (m.rewritten p b))).at? l) :
    m.Edited top moved (done ++ [p]) d' := by
  have before := edited.unedited fresh file
  refine ⟨fun l c => ?_, fun q inside => ?_⟩
  rotate_left
  · rcases List.mem_append.mp inside with old | new
    · exact edited.revised q old
    · rw [List.mem_singleton.mp new]
      exact ⟨b, before, revises⟩
  rw [after]
  rw [at?_put (spot_ne_nil top plain)]
  simp only [List.mem_append, List.mem_singleton]
  by_cases here : l = spot top (m.plan.finalPath p)
  · subst here
    rw [if_pos rfl]
    constructor
    · intro same
      cases same
      exact Or.inl ⟨p, Or.inr rfl, rfl, b, before, rfl⟩
    · rintro (⟨q, inside | rfl, same, b', there, rfl⟩ | ⟨_, stays⟩)
      · exact (fresh q inside same).elim
      · cases before.symm.trans there
        rfl
      · exact (stays p (Or.inr rfl) rfl).elim
  rw [if_neg here, edited.files l c]
  constructor
  · rintro (⟨q, inside, rest⟩ | ⟨there, stays⟩)
    · exact Or.inl ⟨q, Or.inl inside, rest⟩
    · refine Or.inr ⟨there, fun q inside same => ?_⟩
      rcases inside with old | rfl
      · exact stays q old same
      · exact here same.symm
  · rintro (⟨q, inside | rfl, same, rest⟩ | ⟨there, stays⟩)
    · exact Or.inl ⟨q, inside, same, rest⟩
    · exact (here same.symm).elim
    · exact Or.inr ⟨there, fun q old => stays q (Or.inl old)⟩

section
variable (m : Migration) (fits : s.Fits m.plan m.targets top start) {before after : List Path}
  {p : Path} (shape : m.targets = before ++ p :: after)
include fits shape

theorem target_file : ∃ f ∈ s.files, f.path = p := fits.edits p (by rw [shape]; simp)

theorem target_plain : (m.plan.finalPath p).IsPlain := by
  obtain ⟨f, member, rfl⟩ := target_file m fits shape
  exact final_plain fits (fits.described.plainFiles f member)

/-- No module that was edited before is at the final path of the next one. -/
theorem target_fresh (distinct : m.targets.Nodup) :
    ∀ q ∈ before, spot top (m.plan.finalPath q) ≠ spot top (m.plan.finalPath p) := by
  intro q inside same
  obtain ⟨f, member, path⟩ := target_file m fits shape
  obtain ⟨g, held, other⟩ := fits.edits q (by rw [shape]; exact List.mem_append_left _ inside)
  have described := fits.described
  have equal : q = p := final_inj fits (other ▸ described.plainFiles g held)
    (path ▸ described.plainFiles f member) (other ▸ described.holds g held)
      (path ▸ described.holds f member) same
  rw [shape] at distinct
  exact (List.nodup_append.mp distinct).2.2 q inside p List.mem_cons_self equal

/-- What one edit does to a migration that can be repaired. On a volume that is not honest the text
may be another one, but it can still be repaired. -/
theorem editFile_progress (root : m.root = s.root) (distinct : m.targets.Nodup)
    {hazards : List Call → Call → Hazard} {v : Volume} (repairs : s.Repairs top start hazards v)
    {moved : Disk} (edited : v.Honest → m.Edited top moved before v.disk) :
    match m.editFile p v with
    | (.ok .aborted, v') => s.Repairs top start hazards v'
    | (.ok _, v') =>
      s.Repairs top start hazards v' ∧ (v'.Honest → m.Edited top moved (before ++ [p]) v'.disk)
    | (.error _, v') => s.Repairs top start hazards v' := by
  have described := fits.described
  obtain ⟨f, member, path⟩ := target_file m fits shape
  have own : p.IsPlain := path ▸ described.plainFiles f member
  have plain := target_plain m fits shape
  have fresh := target_fresh m fits shape distinct
  have marked : (∃ f ∈ s.files, f.path = m.plan.finalPath p) ∨
      ∃ mv ∈ s.moves, mv.target = m.plan.finalPath p := by
    rcases final_cases fits own with ⟨mv, inside, _, final⟩ | ⟨_, final⟩
    · exact Or.inr ⟨mv, inside, final.symm⟩
    · exact Or.inl ⟨f, member, path.trans final.symm⟩
  obtain ⟨within, single, same⟩ := repairs
  rcases editFile_cases m (root.trans described.root) described.above plain within.tree with
    ⟨e, v', result, hazards', disk⟩ | ⟨v', b, content, result, hazards', disk, _⟩ |
      ⟨revision, v', b, c, result, going, hazards', there, written, revises, honest⟩
  · rw [result]
    exact ⟨by rwa [disk], by rwa [disk], hazards'.trans same⟩
  · rw [result]
    exact ⟨by rwa [disk], by rwa [disk], hazards'.trans same⟩
  · have faithful : v'.Honest → v.Honest := fun trusty => by
      rw [Volume.Honest, ← hazards']
      exact trusty
    -- Writing what is there already makes no difference.
    have after : ∀ l, v'.disk.at? l =
        (v.disk.put (spot top (m.plan.finalPath p)) (.file c)).at? l := by
      intro l
      rcases written with ⟨disk, rfl⟩ | disk
      · rw [disk, at?_put (spot_ne_nil top plain)]
        split
        · rename_i here
          rw [here, there]
        · rfl
      · rw [disk]
    have next : s.Repairs top start hazards v' ∧
        (v'.Honest → m.Edited top moved (before ++ [p]) v'.disk) := by
      refine ⟨⟨?_, ?_, hazards'.trans same⟩, fun trusty => ?_⟩
      · rcases written with ⟨disk, _⟩ | disk
        · rwa [disk]
        · rw [disk]
          exact within.put described plain marked (Or.inl ⟨b, there⟩) c
      · refine single.of_files fun l c' file => ?_
        rw [after, at?_put (spot_ne_nil top plain)] at file
        split at file
        · rename_i here
          exact ⟨b, here ▸ there⟩
        · exact ⟨c', file⟩
      · rw [honest (faithful trusty)] at after
        exact (edited (faithful trusty)).put plain fresh there revises after
    rw [result]
    cases revision with
    | aborted => exact (going rfl).elim
    | unchanged => exact next
    | changed => exact next

end

end Migration

end Relocation
