import Relocation.Proofs.Disk.Traversal
import Relocation.Proofs.Snapshot.Invariant
import Relocation.Snapshot.Restore

/-!
# Directories of destinations

A destination asks for the directory that holds it. Whatever the spelling, the directories that are
missing on the way there are the locations where nothing is, and a snapshot lists them once each,
outer ones first.
-/

namespace Relocation

open Disk

def Path.IsNormal (p : Path) : Prop := p.components ≠ [] ∧ ∀ c ∈ p.components, c.isNormal = true

theorem Path.IsPlain.normal {p : Path} (plain : p.IsPlain) : p.IsNormal := by
  have comps : p.components = (normalNames p).map .normal := plain.spells
  constructor
  · rw [comps]
    simpa using plain.filled
  · intro c member
    rw [comps] at member
    obtain ⟨name, _, rfl⟩ := List.mem_map.mp member
    rfl

instance (p : Path) : Decidable p.IsNormal := inferInstanceAs (Decidable (_ ∧ _))

namespace Snapshot

variable {d : Disk} {root p : Path} {top : Location} {names : List String}

/-! ### One destination -/

theorem parent?_join (based : root.components ≠ []) (normal : p.IsNormal) :
    ∃ names dir, (spot top p).dropLast = top ++ names ∧ (root.join p).parent? = some dir ∧
    root.Below names dir := by
  obtain ⟨all, spelt⟩ := Path.spells_of_normal normal.2
  obtain ⟨names, name, rfl⟩ := (List.eq_nil_or_concat all).resolve_left fun none =>
    normal.1 (by rw [show p.components = _ from spelt, none]; rfl)
  rw [List.concat_eq_append] at spelt
  have filled : root.text ≠ "" := fun empty => based (Path.components_eq_nil.mpr empty)
  have comps : (root.join p).components = (root.components ++ names.map .normal) ++
      [.normal name] := by
    rw [Path.components_join spelt.isRelative filled, spelt.inner, List.map_append, List.append_assoc]
    rfl
  obtain ⟨dir, found, above, trim⟩ := Path.exists_parent? comps
  refine ⟨names, dir, ?_, found, above, trim⟩
  rw [spot, spelt.normalNames, ← List.append_assoc, List.dropLast_concat]

section
variable (tree : d.IsTree) (rooted : d.locate true root = .ok (.taken top .dir)) {dir : Path}
variable (below : root.Below names dir)
include tree rooted below

theorem mem_missing {q : Path} (member : q ∈ (missingDirs d root dir).filterMap (·.relativeTo? root)) :
    ∃ outer, outer <+: names ∧ q.Spells outer ∧ d.at? (top ++ outer) = none := by
  obtain ⟨p, missing, relative⟩ := List.mem_filterMap.mp member
  rw [missingDirs_eq tree rooted, List.mem_reverse, List.mem_filter] at missing
  simp only [Bool.and_eq_true, Bool.not_eq_true'] at missing
  obtain ⟨onWay, ⟨_, inside⟩, gone⟩ := missing
  obtain ⟨outer, within, above⟩ := below.of_ancestor (leads_of_locate tree rooted).1 onWay inside
  obtain ⟨q', found, spelt⟩ := Path.relativeTo?_spells above.components
  cases found.symm.trans relative
  rw [exists?_below tree rooted above] at gone
  exact ⟨outer, within, spelt, by simpa using gone⟩

theorem missing_complete {outer : List String} (within : outer <+: names)
    (gone : d.at? (top ++ outer) = none) : ∃ q ∈ (missingDirs d root dir).filterMap
      (·.relativeTo? root), q.Spells outer := by
  obtain ⟨based, leads⟩ := leads_of_locate tree rooted
  obtain ⟨p, onWay, above⟩ := below.exists_ancestor based within
  obtain ⟨q, relative, spelt⟩ := Path.relativeTo?_spells above.components
  refine ⟨q, List.mem_filterMap.mpr ⟨p, ?_, relative⟩, spelt⟩
  rw [missingDirs_eq tree rooted, List.mem_reverse, List.mem_filter]
  simp only [Bool.and_eq_true, Bool.not_eq_true']
  refine ⟨onWay, ⟨?_, ?_⟩, ?_⟩
  · rw [← Bool.not_eq_true, Path.same_iff, above.components]
    intro same
    have nothing : outer = [] := by simpa using same
    rw [nothing, List.append_nil, leads.found] at gone
    cases gone
  · rw [Path.startsWith, above.components, List.isPrefixOf_iff_prefix]
    exact List.prefix_append _ _
  · rw [exists?_below tree rooted above, gone]
    rfl

end

/-! ### All destinations -/

theorem compare_prefix {l r : List Component} (within : l <+: r) : compare r l ≠ .lt := by
  change List.compareLex compare r l ≠ .lt
  obtain ⟨rest, rfl⟩ := within
  induction l with
  | nil => cases rest <;> simp [List.compareLex]
  | cons c l ih =>
    rw [List.cons_append, List.compareLex_cons_cons, Std.compare_self]
    exact ih

section
variable {plan : MovePlan} (tree : d.IsTree) (rooted : d.locate true root = .ok (.taken top .dir))
variable (normal : ∀ m ∈ plan.moves, m.target.IsNormal)
include tree rooted normal

theorem mem_newDirsOf {q : Path} (member : q ∈ newDirsOf d root plan) :
    q.Spells (normalNames q) ∧ d.at? (spot top q) = none ∧
      ∃ m ∈ plan.moves, spot top q <+: (spot top m.target).dropLast := by
  obtain ⟨m, known, listed⟩ := List.mem_flatMap.mp (Keys.mem_ofList member)
  obtain ⟨names, dir, place, found, below⟩ := parent?_join (leads_of_locate tree rooted).1
    (normal m known)
  rw [found] at listed
  obtain ⟨outer, within, spelt, gone⟩ := mem_missing tree rooted below listed
  rw [spot, spelt.normalNames]
  refine ⟨spelt, gone, m, known, ?_⟩
  rw [place]
  exact (List.prefix_append_right_inj top).mpr within

theorem newDirsOf_complete {l : Location} (gone : d.at? l = none) {m : Move} (known : m ∈ plan.moves)
    (within : l <+: (spot top m.target).dropLast) : ∃ q ∈ newDirsOf d root plan, spot top q = l := by
  obtain ⟨based, leads⟩ := leads_of_locate tree rooted
  obtain ⟨names, dir, place, found, below⟩ := parent?_join based (normal m known)
  rw [place] at within
  rcases List.prefix_or_prefix_of_prefix (List.prefix_append top names) within
    with ⟨outer, rfl⟩ | shorter
  · obtain ⟨q, listed, spelt⟩ :=
      missing_complete tree rooted below ((List.prefix_append_right_inj top).mp within) gone
    have offered : Keys.contains q (newDirsOf d root plan) = true := by
      rw [newDirsOf, Keys.contains_ofList, Keys.contains_iff]
      exact ⟨q, List.mem_flatMap.mpr ⟨m, known, by rw [found]; exact listed⟩, Std.compare_self⟩
    obtain ⟨q', kept, same⟩ := Keys.contains_iff.mp offered
    have spelt' : q'.Spells outer := (Path.compare_eq_iff.mp same).symm.trans spelt
    exact ⟨q', kept, by rw [spot, spelt'.normalNames]⟩
  · have there := leads.found
    rw [tree.below_none gone shorter] at there
    cases there

theorem newDirsOf_ordered :
    (newDirsOf d root plan).Pairwise fun outer inner => ¬ spot top inner <+: spot top outer := by
  have sorted : Keys.Ascending (newDirsOf d root plan) := Keys.ascending _
  refine List.Pairwise.imp_of_mem ?_ sorted
  intro a b left right less within
  have comps : b.components <+: a.components := by
    rw [show a.components = _ from (mem_newDirsOf tree rooted normal left).1,
      show b.components = _ from (mem_newDirsOf tree rooted normal right).1]
    exact ((List.prefix_append_right_inj top).mp within).map _
  exact compare_prefix comps less

end

end Snapshot

end Relocation
