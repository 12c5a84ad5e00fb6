import Relocation.Proofs.Disk.Calls
import Relocation.Snapshot.Basic
import Relocation.Specifier

/-!
# Disks that a snapshot can repair

While a migration is under way, and while it is being undone, the disk differs from the one that the
snapshot was taken of only at the files that the snapshot holds, at the destinations of its moves
and at the directories that it lists. `Within` says so, and every change that a migration makes keeps it.
-/

namespace Relocation

def Path.IsPlain (p : Path) : Prop :=
  ∃ names, names ≠ [] ∧ (∀ name ∈ names, IsName name) ∧ p = plain names

theorem Path.IsPlain.spells {p : Path} (plain : p.IsPlain) : p.Spells (normalNames p) := by
  obtain ⟨names, _, valid, rfl⟩ := plain
  rw [(spells_plain valid).normalNames]
  exact spells_plain valid

theorem Path.IsPlain.eq_plain {p : Path} (plain : p.IsPlain) : p = Path.plain (normalNames p) := by
  obtain ⟨names, _, valid, rfl⟩ := plain
  rw [(spells_plain valid).normalNames]

theorem Path.IsPlain.filled {p : Path} (plain : p.IsPlain) : normalNames p ≠ [] := by
  obtain ⟨names, filled, valid, rfl⟩ := plain
  rwa [(spells_plain valid).normalNames]

theorem Path.isPlain_iff {p : Path} : p.IsPlain ↔
    normalNames p ≠ [] ∧ (∀ name ∈ normalNames p, IsName name) ∧ p = Path.plain (normalNames p) :=
  ⟨fun plain => ⟨plain.filled, plain.spells.isName, plain.eq_plain⟩, fun checked => ⟨_, checked⟩⟩

instance (p : Path) : Decidable p.IsPlain := decidable_of_iff _ Path.isPlain_iff.symm

namespace Disk

/-- Where a path leads from a directory. -/
def spot (top : Location) (p : Path) : Location := top ++ normalNames p

variable {top : Location} {p q : Path}

theorem spot_ne_nil (top : Location) (plain : p.IsPlain) : spot top p ≠ [] := by
  simp [spot, plain.filled]

theorem spot_valid (above : ∀ name ∈ top, Path.IsName name) (plain : p.IsPlain) :
    ∀ name ∈ spot top p, Path.IsName name := by
  intro name member
  rcases List.mem_append.mp member with outer | inner
  · exact above name outer
  · exact plain.spells.isName name inner

theorem spot_inj (left : p.IsPlain) (right : q.IsPlain) (same : spot top p = spot top q) : p = q := by
  rw [left.eq_plain, right.eq_plain, List.append_cancel_left same]

theorem join_spot (above : ∀ name ∈ top, Path.IsName name) (plain : p.IsPlain) :
    (pathOf top).join p = pathOf (spot top p) := by
  have joined := join_pathOf above plain.spells.isName plain.filled
  rwa [← plain.eq_plain] at joined

theorem parent?_spot (above : ∀ name ∈ top, Path.IsName name) (plain : p.IsPlain) :
    (pathOf (spot top p)).parent? = some (pathOf (spot top p).dropLast) := by
  obtain ⟨front, last, split⟩ := (List.eq_nil_or_concat (spot top p)).resolve_left
    (spot_ne_nil top plain)
  have valid := spot_valid above plain
  rw [split, List.concat_eq_append] at valid ⊢
  rw [parent?_pathOf valid, List.dropLast_concat]

end Disk

namespace Snapshot

open Disk

/-- The snapshot is of a directory, and its paths lead to locations below it. -/
structure Placed (s : Snapshot) (top : Location) : Prop where
  root : s.root = pathOf top
  above : ∀ name ∈ top, Path.IsName name
  plainMoves : ∀ m ∈ s.moves, m.source.IsPlain ∧ m.target.IsPlain
  plainFiles : ∀ f ∈ s.files, f.path.IsPlain
  plainDirs : ∀ p ∈ s.newDirs, p.IsPlain

/-- The snapshot was taken of this disk: it holds the files that its moves take away, no destination
is a file, and it lists the directories that are missing above the destinations, outermost first. -/
structure Describes (s : Snapshot) (top : Location) (start : Disk) : Prop where
  tree : start.IsTree
  here : start.at? top = some .dir
  root : s.root = pathOf top
  plainMoves : ∀ m ∈ s.moves, m.source.IsPlain ∧ m.target.IsPlain
  plainFiles : ∀ f ∈ s.files, f.path.IsPlain
  plainDirs : ∀ p ∈ s.newDirs, p.IsPlain
  holds : ∀ f ∈ s.files, start.at? (spot top f.path) = some (.file f.content)
  covers : ∀ m ∈ s.moves, ∃ f ∈ s.files, f.path = m.source
  vacant : ∀ m ∈ s.moves, ∀ c, start.at? (spot top m.target) ≠ some (.file c)
  sources : ∀ a ∈ s.moves, ∀ b ∈ s.moves, spot top a.source = spot top b.source → a = b
  targets : ∀ a ∈ s.moves, ∀ b ∈ s.moves, spot top a.target = spot top b.target → a = b
  created : ∀ l, (∃ p ∈ s.newDirs, spot top p = l) ↔
    start.at? l = none ∧ ∃ m ∈ s.moves, l <+: spot top m.target ∧ l ≠ spot top m.target
  ordered : s.newDirs.Pairwise fun outer inner => ¬ spot top inner <+: spot top outer

/-- The disk differs from the start only where the migration may change it. -/
structure Within (s : Snapshot) (top : Location) (start d : Disk) : Prop where
  tree : d.IsTree
  dirs : ∀ l, start.at? l = some .dir → d.at? l = some .dir
  files : ∀ l c, start.at? l = some (.file c) → (∀ f ∈ s.files, spot top f.path ≠ l) →
    d.at? l = some (.file c)
  others : ∀ l n, start.at? l = none → d.at? l = some n →
    (n = .dir ∧ ∃ p ∈ s.newDirs, spot top p = l) ∨
    ((∃ c, n = .file c) ∧ ∃ m ∈ s.moves, spot top m.target = l)

def Single (s : Snapshot) (top : Location) (d : Disk) : Prop :=
  ∀ m ∈ s.moves, ∀ b c, d.at? (spot top m.source) = some (.file b) →
    d.at? (spot top m.target) ≠ some (.file c)

/-- Nothing is left of a move that could be taken for the file itself: the destination is no file,
or the source is a directory and cannot be put back. -/
def Undone (top : Location) (m : Move) (d : Disk) : Prop :=
  (∀ c, d.at? (spot top m.target) ≠ some (.file c)) ∨ d.at? (spot top m.source) = some .dir

variable {s : Snapshot} {top : Location} {start d : Disk}

theorem Describes.above (described : s.Describes top start) : ∀ name ∈ top, Path.IsName name :=
  described.tree.named top .dir described.here

theorem Describes.placed (described : s.Describes top start) : s.Placed top where
  root := described.root
  above := described.above
  plainMoves := described.plainMoves
  plainFiles := described.plainFiles
  plainDirs := described.plainDirs

theorem Describes.source_file (described : s.Describes top start) {m : Move} (member : m ∈ s.moves) :
    ∃ c, start.at? (spot top m.source) = some (.file c) := by
  obtain ⟨f, inside, same⟩ := described.covers m member
  exact ⟨f.content, same ▸ described.holds f inside⟩

theorem Describes.apart (described : s.Describes top start) {a b : Move} (left : a ∈ s.moves)
    (right : b ∈ s.moves) : spot top a.source ≠ spot top b.target := by
  intro same
  obtain ⟨c, file⟩ := described.source_file left
  exact described.vacant b right c (same ▸ file)

theorem Describes.file_ne_target (described : s.Describes top start) {f : SnapshotFile}
    (member : f ∈ s.files) {m : Move} (move : m ∈ s.moves) : spot top f.path ≠ spot top m.target := by
  intro same
  exact described.vacant m move f.content (same ▸ described.holds f member)

theorem Describes.within_start (described : s.Describes top start) : s.Within top start start where
  tree := described.tree
  dirs := fun _ there => there
  files := fun _ _ there _ => there
  others := fun l n gone there => by rw [gone] at there; cases there

theorem Describes.single_start (described : s.Describes top start) : s.Single top start :=
  fun m member _ c _ => described.vacant m member c

theorem Single.of_undone (undone : ∀ m ∈ s.moves, Undone top m d) : s.Single top d := by
  intro m member b c file
  rcases undone m member with clear | dir
  · exact clear c
  · rw [dir] at file
    cases file

/-! ### Changes -/

section
variable (described : s.Describes top start) (within : s.Within top start d)
include described within

theorem Within.erase_target {m : Move} (member : m ∈ s.moves) {c : Text.Bytes}
    (file : d.at? (spot top m.target) = some (.file c)) :
    s.Within top start (d.erase (spot top m.target)) := by
  have proper := spot_ne_nil top (described.plainMoves m member).2
  constructor
  · exact within.tree.erase proper fun below inside strict => within.tree.below_file file inside strict
  · intro l dir
    have there := within.dirs l dir
    rwa [at?_erase proper, if_neg (by rintro rfl; rw [file] at there; cases there)]
  · intro l b there free
    rw [at?_erase proper, if_neg (by rintro rfl; exact described.vacant m member b there)]
    exact within.files l b there free
  · intro l n gone there
    rw [at?_erase proper] at there
    split at there
    · cases there
    · exact within.others l n gone there

theorem Within.erase_dir {p : Path} (member : p ∈ s.newDirs)
    (empty : d.isEmptyDir (spot top p) = true) : s.Within top start (d.erase (spot top p)) := by
  have proper := spot_ne_nil top (described.plainDirs p member)
  have absent := ((described.created _).mp ⟨p, member, rfl⟩).1
  constructor
  · exact within.tree.erase proper ((isEmptyDir_iff within.tree).mp empty)
  · intro l dir
    rw [at?_erase proper, if_neg (by rintro rfl; rw [absent] at dir; cases dir)]
    exact within.dirs l dir
  · intro l b there free
    rw [at?_erase proper, if_neg (by rintro rfl; rw [absent] at there; cases there)]
    exact within.files l b there free
  · intro l n gone there
    rw [at?_erase proper] at there
    split at there
    · cases there
    · exact within.others l n gone there

/-- A file that the snapshot holds, or the destination of a move, may get any content. -/
theorem Within.put {p : Path} (plain : p.IsPlain)
    (marked : (∃ f ∈ s.files, f.path = p) ∨ ∃ m ∈ s.moves, m.target = p)
    (takes : d.Takes (spot top p)) (c : Text.Bytes) :
    s.Within top start (d.put (spot top p) (.file c)) := by
  have proper := spot_ne_nil top plain
  constructor
  · exact within.tree.putFile (spot_valid described.above plain) takes c
  · intro l dir
    have there := within.dirs l dir
    rwa [at?_put proper, if_neg]
    rintro rfl
    exact takes.not_dir there
  · intro l b there free
    rw [at?_put proper, if_neg]
    · exact within.files l b there free
    · rintro rfl
      rcases marked with ⟨f, inside, rfl⟩ | ⟨m, inside, rfl⟩
      · exact free f inside rfl
      · exact described.vacant m inside b there
  · intro l n gone there
    rw [at?_put proper] at there
    split at there
    · rename_i same
      subst same
      cases there
      rcases marked with ⟨f, inside, rfl⟩ | ⟨m, inside, rfl⟩
      · rw [described.holds f inside] at gone; cases gone
      · exact Or.inr ⟨⟨c, rfl⟩, m, inside, rfl⟩
    · exact within.others l n gone there

/-- Directories above a destination. A source that has been moved away may become one of them. -/
theorem Within.makeDirs {m : Move} (member : m ∈ s.moves) {outer : Location}
    (inside : outer <+: (spot top m.target).dropLast) (clear : ¬ d.IsBlocked outer) :
    s.Within top start (d.makeDirs outer) := by
  have plain := (described.plainMoves m member).2
  have onWay : outer <+: spot top m.target := inside.trans (List.dropLast_prefix _)
  have valid : ∀ name ∈ outer, Path.IsName name := fun name present =>
    spot_valid described.above plain name (onWay.subset present)
  constructor
  · exact within.tree.makeDirs valid clear
  · intro l dir
    have there := within.dirs l dir
    rw [at?_makeDirs, if_neg (by rintro ⟨_, gone⟩; rw [there] at gone; cases gone)]
    exact there
  · intro l b there free
    have kept := within.files l b there free
    rw [at?_makeDirs, if_neg (by rintro ⟨_, gone⟩; rw [kept] at gone; cases gone)]
    exact kept
  · intro l n gone there
    rw [at?_makeDirs] at there
    split at there
    · rename_i new
      cases there
      refine Or.inl ⟨rfl, (described.created l).mpr ⟨gone, m, member, new.1.trans onWay, ?_⟩⟩
      rintro rfl
      have short := (new.1.trans inside).length_le
      have long := List.length_pos_iff.mpr (spot_ne_nil top plain)
      rw [List.length_dropLast] at short
      omega
    · exact within.others l n gone there

theorem Within.relocate {m : Move} (member : m ∈ s.moves) {c : Text.Bytes}
    (file : d.at? (spot top m.source) = some (.file c)) (takes : d.Takes (spot top m.target)) :
    s.Within top start (d.relocate (spot top m.source) (spot top m.target)) := by
  have plain := (described.plainMoves m member).2
  have moved := at?_relocate within.tree file takes
  obtain ⟨f, inside, same⟩ := described.covers m member
  constructor
  · exact within.tree.relocate (spot_valid described.above plain) file takes
  · intro l dir
    have there := within.dirs l dir
    rw [moved, if_neg (by rintro rfl; exact takes.not_dir there),
      if_neg (by rintro rfl; rw [file] at there; cases there)]
    exact there
  · intro l b there unheld
    rw [moved, if_neg (by rintro rfl; exact described.vacant m member b there),
      if_neg (by rintro rfl; exact unheld f inside (by rw [same]))]
    exact within.files l b there unheld
  · intro l n gone there
    rw [moved] at there
    split at there
    · rename_i same
      cases there
      exact Or.inr ⟨⟨c, rfl⟩, m, member, same.symm⟩
    · split at there
      · cases there
      · exact within.others l n gone there

end

/-! ### Changes and single files -/

theorem Single.of_files {d' : Disk} (single : s.Single top d)
    (fewer : ∀ l c, d'.at? l = some (.file c) → ∃ b, d.at? l = some (.file b)) : s.Single top d' := by
  intro m member b c source target
  obtain ⟨b', old⟩ := fewer _ _ source
  obtain ⟨c', also⟩ := fewer _ _ target
  exact single m member b' c' old also

theorem Single.relocate (described : s.Describes top start) (tree : d.IsTree)
    (single : s.Single top d) {m : Move} (member : m ∈ s.moves) {c : Text.Bytes}
    (file : d.at? (spot top m.source) = some (.file c)) (takes : d.Takes (spot top m.target)) :
    s.Single top (d.relocate (spot top m.source) (spot top m.target)) := by
  have moved := at?_relocate tree file takes
  intro other inside b b' source target
  rw [moved, if_neg (described.apart inside member)] at source
  split at source
  · cases source
  · rename_i different
    rw [moved, if_neg (fun same => different ?_), if_neg (described.apart member inside).symm]
      at target
    · exact single other inside b b' source target
    · rw [described.targets other inside m member same]

theorem Undone.of_files {m : Move} {d' : Disk} (undone : Undone top m d)
    (target : ∀ c, d'.at? (spot top m.target) = some (.file c) →
      ∃ b, d.at? (spot top m.target) = some (.file b))
    (source : d.at? (spot top m.source) = some .dir → d'.at? (spot top m.source) = some .dir) :
    Undone top m d' := by
  rcases undone with clear | dir
  · left
    intro c file
    obtain ⟨b, old⟩ := target c file
    exact clear b old
  · exact Or.inr (source dir)

end Snapshot

end Relocation
