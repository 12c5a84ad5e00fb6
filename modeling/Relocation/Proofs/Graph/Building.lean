import Mathlib.Data.List.Nodup
import Relocation.Graph.Basic
import Relocation.Proofs.Graph.Probing
import Relocation.Proofs.Table

/-!
# Built graphs

A graph that was built has one node for each module path, every node is a file, and what it records
for a reference is what its resolver answers.
-/

namespace Relocation

namespace Graph

section
variable (tree : SourceTree) (extractions : List Extraction) (aliases : List Alias)
    (extensions : List String)

omit extractions aliases extensions in
theorem entry_module {entry : Path × Module}
    (inside : entry ∈ (Table.ofListLast (tree.modules.map fun m => (m.path, m))).entries) :
    entry.2 ∈ tree.modules ∧ entry.2.path.components = entry.1.components := by
  obtain ⟨source, listed, same, equal⟩ := Table.ofListLast_spec inside
  obtain ⟨m, module, rfl⟩ := List.mem_map.mp listed
  exact ⟨equal ▸ module, equal ▸ Path.compare_eq_iff.mp same⟩

theorem nodesOf_module {n : Node} (member : n ∈ nodesOf tree extractions) :
    ∃ m ∈ tree.modules, m.path = n.path := by
  obtain ⟨m, value, rfl⟩ := List.mem_map.mp member
  obtain ⟨entry, inside, rfl⟩ := List.mem_map.mp value
  exact ⟨entry.2, (entry_module tree inside).1, rfl⟩

theorem nodesOf_ascending :
    (nodesOf tree extractions).Pairwise fun a b => compare a.path b.path = .lt := by
  have sorted := (Table.ofListLast (tree.modules.map fun m => (m.path, m))).ascending
  refine List.pairwise_map.mpr
    (List.pairwise_map.mpr (sorted.imp_of_mem fun {a b} left right less => ?_))
  have first := Path.compare_eq_iff.mpr (entry_module tree left).2
  have second := Path.compare_eq_iff.mpr (entry_module tree right).2
  exact Std.TransCmp.lt_of_eq_of_lt first (Std.TransCmp.lt_of_lt_of_eq less
    (Std.OrientedCmp.eq_comm.mp second))

theorem nodesOf_distinct {a b : Node} (left : a ∈ nodesOf tree extractions)
    (right : b ∈ nodesOf tree extractions) (same : a.path.components = b.path.components) : a = b := by
  have distinct : ((nodesOf tree extractions).map (·.path.components)).Nodup :=
    List.pairwise_map.mpr ((nodesOf_ascending tree extractions).imp Path.components_ne_of_lt)
  exact List.inj_on_of_nodup_map distinct left right same

/-- What is recorded of a module are the references that were extracted from it, resolved. -/
theorem mem_referencesFrom {p : Path} {found : ResolvedReference}
    (inside : found ∈ (build tree extractions aliases extensions).referencesFrom p) :
    ∃ e ∈ extractions, ∃ ref ∈ e.references, p.components = e.path.components ∧
      found = ⟨ref, (build tree extractions aliases extensions).resolver.resolve ref⟩ := by
  unfold referencesFrom at inside
  cases recorded : (build tree extractions aliases extensions).forward.find? p with
  | none => rw [recorded] at inside; cases inside
  | some refs =>
    rw [recorded, Option.getD_some] at inside
    rcases Table.find?_insertAll recorded with empty | ⟨entry, listed, same, rfl⟩
    · cases empty
    · obtain ⟨e, extracted, rfl⟩ := List.mem_map.mp listed
      obtain ⟨ref, own, rfl⟩ := List.mem_map.mp inside
      exact ⟨e, (List.mem_filter.mp extracted).1, ref, own, Path.compare_eq_iff.mp same, rfl⟩

end

/-- How a graph came about: from a tree and from what was read in its modules. -/
structure Origin (g : Graph) where
  tree : SourceTree
  extractions : List Extraction
  aliases : List Alias
  extensions : List String
  built : g = build tree extractions aliases extensions
  sourced : ∀ e ∈ extractions, ∀ ref ∈ e.references, ref.source = e.path

namespace Origin

variable {g : Graph} (origin : g.Origin)

def Complete : Prop := ∀ m ∈ origin.tree.modules, ∃ p ∈ origin.tree.files.toList, p.same m.path = true

instance decidableComplete : Decidable origin.Complete :=
  inferInstanceAs
    (Decidable (∀ m ∈ origin.tree.modules, ∃ p ∈ origin.tree.files.toList, p.same m.path = true))

include origin

theorem distinct {a b : Node} (left : a ∈ g.nodes) (right : b ∈ g.nodes)
    (same : a.path.components = b.path.components) : a = b := by
  obtain ⟨tree, extractions, aliases, extensions, rfl, _⟩ := origin
  exact nodesOf_distinct tree extractions left right same

theorem listed (complete : origin.Complete) {n : Node} (node : n ∈ g.nodes) :
    g.resolver.hasFile n.path = true := by
  obtain ⟨tree, extractions, aliases, extensions, rfl, _⟩ := origin
  obtain ⟨m, module, path⟩ := nodesOf_module tree extractions node
  obtain ⟨p, file, same⟩ := complete m module
  exact List.any_eq_true.mpr ⟨p, file, path ▸ same⟩

theorem recorded {p : Path} {found : ResolvedReference} (inside : found ∈ g.referencesFrom p) :
    found.resolution = g.resolver.resolve found.reference ∧
    p.components = found.reference.source.components := by
  obtain ⟨tree, extractions, aliases, extensions, rfl, sourced⟩ := origin
  obtain ⟨e, extracted, ref, own, same, rfl⟩ :=
    mem_referencesFrom tree extractions aliases extensions inside
  exact ⟨rfl, by rw [same, sourced e extracted ref own]⟩

theorem resolved {p : Path} {found : ResolvedReference} (inside : found ∈ g.referencesFrom p)
    (hasPath : found.reference.kind.hasPath = true) (literal : found.reference.computed = false) :
    found.resolution = g.resolver.resolvePath p found.reference.specifier := by
  obtain ⟨answer, same⟩ := origin.recorded inside
  rw [answer, Resolver.resolvePath_congr (Resolver.basePath?_same same found.reference.specifier)]
  unfold Resolver.resolve
  rw [literal, hasPath]
  rfl

end Origin

end Graph

end Relocation
