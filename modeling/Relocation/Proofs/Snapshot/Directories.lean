import Relocation.Proofs.Snapshot.Capture

/-!
# Directories that a plan adds

A snapshot lists the directories that are missing above the destinations of a plan. However the
destinations are spelt, and in whatever order the moves are made, these are the directories that
come into being (`capture_newDirs_added`).
-/

namespace Relocation

open Disk

def Disk.makeParents (root : Path) (d : Disk) (moves : List Move) : Except IoFault Disk :=
  moves.foldlM (fun d m =>
    match (root.join m.target).parent? with
    | some dir => d.createDirs dir
    | none => .ok d) d

namespace Snapshot

variable {d : Disk} {root : Path} {top : Location}

/-- The directories above all destinations can be made, and nothing else changes. -/
theorem makeParents_spec {moves : List Move} (tree : d.IsTree)
    (rooted : d.locate true root = .ok (.taken top .dir))
    (normal : ∀ m ∈ moves, m.target.IsNormal)
    (clear : ∀ m ∈ moves, ¬ d.IsBlocked (spot top m.target).dropLast) :
    ∃ d', d.makeParents root moves = .ok d' ∧ ∀ l, d'.at? l =
      if d.at? l = none ∧
      ∃ m ∈ moves, l <+: (spot top m.target).dropLast then some .dir else d.at? l := by
  induction moves generalizing d with
  | nil => exact ⟨d, rfl, by simp⟩
  | cons m rest ih =>
    obtain ⟨names, dir, place, found, below⟩ :=
      parent?_join (leads_of_locate tree rooted).1 (normal m List.mem_cons_self)
    have valid := valid_below tree rooted below
    have free := clear m List.mem_cons_self
    rw [place] at free
    have made : d.createDirs dir = .ok (d.makeDirs (top ++ names)) := by
      rw [createDirs_below tree rooted below, createDirs_pathOf tree valid]
      exact ⟨free, rfl⟩
    have others : ∀ m ∈ rest, ¬ (d.makeDirs (top ++ names)).IsBlocked
        (spot top m.target).dropLast := by
      rintro m later ⟨above, c, within, file⟩
      refine clear m (List.mem_cons_of_mem _ later) ⟨above, c, within, ?_⟩
      rw [at?_makeDirs] at file
      split at file
      · cases file
      · exact file
    obtain ⟨d', result, nodes⟩ :=
      ih (tree.makeDirs valid free) (rooted_makeDirs tree valid free rooted)
      (fun m later => normal m (List.mem_cons_of_mem _ later)) others
    refine ⟨d', ?_, fun l => ?_⟩
    · unfold makeParents at result ⊢
      rw [List.foldlM_cons, found]
      simp only [made]
      exact result
    · rw [nodes, at?_makeDirs, ← place]
      by_cases gone : d.at? l = none
      · by_cases onWay : l <+: (spot top m.target).dropLast
        · simp [gone, onWay]
        · simp [gone, onWay]
      · simp [gone]

/-- In a tree where the root exists, the directories that are missing on the way to another are all
that do not exist strictly below the root. With no file in the way of a destination, a snapshot
lists, outer ones first and none twice, exactly the directories that making the parents of all
destinations adds, in whatever order. -/
theorem capture_newDirs_added (v : Volume) (tree : v.disk.IsTree) (root : Path) (top : Location)
    (n : Disk.Node) (rooted : v.disk.locate true root = .ok (.taken top n)) :
    (∀ dir, missingDirs v.disk root dir =
        (dir.ancestors.filter fun p => !p.same root && p.startsWith root &&
          !v.disk.exists? p).reverse ∧
      (dir.ancestors.filter (·.startsWith root)).map Path.components =
        (dir.components.inits.filter root.components.isPrefixOf).reverse) ∧
    ∀ (plan : MovePlan) (stamp : Stamp) (paths : List Path) (s : Snapshot),
    (∀ m ∈ plan.moves, m.target.IsNormal) →
      (∀ m ∈ plan.moves, ¬ v.disk.IsBlocked (spot top m.target).dropLast) →
      (capture stamp root paths plan v).1 = .ok s →
      (∀ p ∈ s.newDirs, p.Spells (normalNames p) ∧ v.disk.at? (spot top p) = none) ∧
      (s.newDirs.map (spot top)).Nodup ∧
      s.newDirs.Pairwise (fun outer inner => ¬ spot top inner <+: spot top outer) ∧
      ∀ order : List Move, order.Perm plan.moves → ∃ d', v.disk.makeParents root order = .ok d' ∧
        ∀ l, d'.at? l = if l ∈ s.newDirs.map (spot top) then some .dir else v.disk.at? l := by
  obtain ⟨based, leads⟩ := leads_of_locate tree rooted
  refine ⟨fun dir => ⟨missingDirs_eq tree rooted dir, Path.filter_ancestors based dir⟩, ?_⟩
  intro plan stamp paths s normal clear captured
  rw [newDirs_capture captured]
  by_cases still : plan.moves = []
  · have nothing : newDirsOf v.disk root plan = [] := by
      simp [newDirsOf, still, Keys.ofList, Keys.insertAll]
    rw [nothing, still]
    refine ⟨by simp, by simp, List.Pairwise.nil, fun order perm => ⟨v.disk, ?_, by simp⟩⟩
    rw [List.perm_nil.mp perm]
    rfl
  · obtain ⟨m, known⟩ := List.exists_mem_of_ne_nil _ still
    obtain ⟨names, _, place, _, _⟩ := parent?_join based (normal m known)
    obtain rfl : n = .dir :=
      tree.at?_of_clear (clear m known) (place ▸ List.prefix_append top names) leads.found
    have ordered := newDirsOf_ordered tree rooted normal
    refine ⟨fun p member => ?_, ?_, ordered, fun order perm => ?_⟩
    · have spec := mem_newDirsOf tree rooted normal member
      exact ⟨spec.1, spec.2.1⟩
    · refine List.pairwise_map.mpr (ordered.imp fun {a b} apart same => apart ⟨[], ?_⟩)
      rw [List.append_nil, same]
    · obtain ⟨d', made, nodes⟩ :=
        makeParents_spec tree rooted (fun m inside => normal m (perm.mem_iff.mp inside))
        (fun m inside => clear m (perm.mem_iff.mp inside))
      refine ⟨d', made, fun l => ?_⟩
      have added : l ∈ (newDirsOf v.disk root plan).map (spot top) ↔
          v.disk.at? l = none ∧ ∃ m ∈ order, l <+: (spot top m.target).dropLast := by
        constructor
        · intro member
          obtain ⟨p, inside, rfl⟩ := List.mem_map.mp member
          obtain ⟨_, gone, m, move, within⟩ := mem_newDirsOf tree rooted normal inside
          exact ⟨gone, m, perm.mem_iff.mpr move, within⟩
        · rintro ⟨gone, m, move, within⟩
          obtain ⟨q, inside, same⟩ := newDirsOf_complete tree rooted normal gone
            (perm.mem_iff.mp move) within
          exact List.mem_map.mpr ⟨q, inside, same⟩
      rw [nodes]
      simp only [added]

/-- Two destinations that share a directory, spelt in two ways, from a root that is the working
directory. -/
theorem capture_newDirs_respelt :
    let d : Disk :=
      { nodes := ⟨[(["w"], .dir), (["w", "a.ts"], .file []), (["w", "s"], .dir)], by decide⟩,
        here := ["w"] }
    let plan : MovePlan := ⟨[⟨⟨"a.ts"⟩, ⟨"s/u//v/./a.ts"⟩⟩, ⟨⟨"b.ts"⟩, ⟨"s/u/v/x/b.ts"⟩⟩]⟩
    ∃ s, (capture ⟨[], .epoch⟩ ⟨"."⟩ [] plan { disk := d }).1 = .ok s ∧
      s.newDirs = [⟨"s/u"⟩, ⟨"s/u//v"⟩, ⟨"s/u/v/x"⟩] ∧
      ∃ d', d.makeParents ⟨"."⟩ plan.moves.reverse = .ok d' ∧
      d'.at? ["w", "s", "u", "v", "x"] = some .dir := by
  intro d plan
  have tree : d.IsTree := by decide +kernel
  have rooted : d.locate true ⟨"."⟩ = .ok (.taken ["w"] .dir) := by decide +kernel
  have normal : ∀ m ∈ plan.moves, m.target.IsNormal := by decide +kernel
  have clear : ∀ m ∈ plan.moves, ¬ d.IsBlocked (spot ["w"] m.target).dropLast := by
    rintro m known ⟨above, c, within, file⟩
    have member := mem_of_at? file (by rintro rfl; cases file)
    obtain ⟨rfl, _⟩ : above = ["w", "a.ts"] ∧ c = [] := by simpa [d] using member
    revert m
    decide +kernel
  obtain ⟨s, captured⟩ : ∃ s, (capture ⟨[], .epoch⟩ ⟨"."⟩ [] plan { disk := d }).1 = .ok s := ⟨_, rfl⟩
  have listed : newDirsOf d ⟨"."⟩ plan = [⟨"s/u"⟩, ⟨"s/u//v"⟩, ⟨"s/u/v/x"⟩] := by decide +kernel
  have dirs : s.newDirs = [⟨"s/u"⟩, ⟨"s/u//v"⟩, ⟨"s/u/v/x"⟩] := (newDirs_capture captured).trans listed
  obtain ⟨_, snapshots⟩ := capture_newDirs_added { disk := d } tree ⟨"."⟩ ["w"] .dir rooted
  obtain ⟨_, _, _, added⟩ := snapshots plan _ _ s normal clear captured
  obtain ⟨d', made, nodes⟩ := added plan.moves.reverse (List.reverse_perm _)
  refine ⟨s, captured, dirs, d', made, ?_⟩
  rw [nodes, dirs]
  decide +kernel

end Snapshot

end Relocation
