import Relocation.Proofs.Graph.Reverse
import Relocation.Project
import Relocation.Report.Graph

/-!
# Order of work

Modules with different paths may be listed, and their extractions may arrive, in any order: the
tree, the extractions and the graph are the same.
-/

namespace Relocation

theorem Path.mergeSort_perm {α : Type} (path : α → Path) {shuffled items : List α}
    (perm : shuffled.Perm items)
    (distinct : items.Pairwise fun a b => (path a).same (path b) = false) :
    (shuffled.mergeSort fun a b => (compare (path a) (path b)).isLE) =
      items.mergeSort fun a b => (compare (path a) (path b)).isLE := by
  refine mergeSort_eq_of_strict (isLE_trans path) (isLE_total path)
    (perm.trans (List.mergeSort_perm _ _).symm) ?_
  refine (mergeSort_ascending path distinct).imp fun {a b} less => ?_
  rw [Std.OrientedCmp.gt_iff_lt.mpr less, less]
  exact ⟨rfl, rfl⟩

/-- Extractions are put in path order once all of them have arrived. -/
def Graph.collect (finished : List Extraction) : List Extraction :=
  finished.mergeSort fun a b => (compare a.path b.path).isLE

section
variable {shuffled modules : List Module} (perm : shuffled.Perm modules)
variable (distinct : modules.Pairwise fun a b => a.path.same b.path = false)
include perm distinct

theorem SourceTree.ofModules_perm (root : Path) :
    ofModules root shuffled = ofModules root modules := by
  have sorted : shuffled.mergeSort pathAtOrBefore = modules.mergeSort pathAtOrBefore :=
    Path.mergeSort_perm Module.path perm distinct
  rw [ofModules, ofModules, sorted]

namespace Graph

theorem collect_perm (reader : Extractor) {finished : List Extraction}
    (arrived : finished.Perm ((shuffled.filter (·.decoded)).map fun m =>
      reader.extract m.path m.content)) :
    collect finished = extractAll reader.extract modules :=
  Path.mergeSort_perm Extraction.path (arrived.trans ((perm.filter _).map _))
    (extracted_distinct distinct reader)

/-- From modules in another order, with the same files besides, come the same record, diagnostics,
incoming kinds and referrers; from extractions that arrive in any order comes the same graph. The
graph of a project is made in this way. -/
theorem graphOf_perm (reader : Extractor) (aliases : List Alias) (extensions : List String)
    (root : Path) (files : List Path) :
    let tree := (SourceTree.ofModules root modules).withFiles files
    let other := (SourceTree.ofModules root shuffled).withFiles files
    let g := build tree (extractAll reader.extract tree.modules) aliases extensions
    let g' := build other (extractAll reader.extract other.modules) aliases extensions
    (g'.toJson = g.toJson ∧ g'.diagnostics = g.diagnostics ∧ ∀ p, g'.incoming p = g.incoming p ∧
      g'.referrersOf p = g.referrersOf p) ∧
    extractAll reader.extract shuffled = extractAll reader.extract modules ∧
    (∀ finished : List Extraction,
      finished.Perm ((shuffled.filter (·.decoded)).map fun m => reader.extract m.path m.content) →
        collect finished = extractAll reader.extract modules ∧
        build other (collect finished) aliases extensions = g) ∧
    ∀ c : Config, Project.graphOf c aliases other = Project.graphOf c aliases tree ∧
      (c.backend.extractor = reader → c.extensions = extensions →
        Project.graphOf c aliases tree = g) := by
  intro tree other g g'
  have trees : other = tree := by
    change (SourceTree.ofModules root shuffled).withFiles files = _
    rw [SourceTree.ofModules_perm perm distinct root]
  have graphs : g' = g := by
    change build other (extractAll reader.extract other.modules) aliases extensions = _
    rw [trees]
  have sorted : extractAll reader.extract tree.modules = extractAll reader.extract modules :=
    collect_perm (List.mergeSort_perm modules _) distinct reader (List.Perm.refl _)
  refine ⟨⟨congrArg toJson graphs, congrArg diagnostics graphs, fun p => ?_⟩,
    collect_perm perm distinct reader (List.Perm.refl _), fun finished arrived => ?_,
    fun c => ⟨by rw [trees], ?_⟩⟩
  · rw [graphs]
    exact ⟨rfl, rfl⟩
  · have collected := collect_perm perm distinct reader arrived
    refine ⟨collected, ?_⟩
    rw [collected, trees, ← sorted]
  · rintro rfl rfl
    rfl

end Graph

end

namespace Graph

def pair : List Module :=
  [{ path := ⟨"src/a.ts"⟩, content := "import { b } from './b'", size := 23 },
    { path := ⟨"src/b.ts"⟩, content := "export const b = 1", size := 18 }]

theorem graphOf_perm_pair :
    let c : Config := {}
    let tree := (SourceTree.ofModules ⟨"/p"⟩ pair).withFiles [⟨"src/b.css"⟩]
    let other := (SourceTree.ofModules ⟨"/p"⟩ pair.reverse).withFiles [⟨"src/b.css"⟩]
    pair.reverse.Perm pair ∧ pair.Pairwise (fun a b => a.path.same b.path = false) ∧
      (Project.graphOf c [] other).toJson = (Project.graphOf c [] tree).toJson ∧
      (Project.graphOf c [] other).referrersOf ⟨"src/b.ts"⟩ =
        (Project.graphOf c [] tree).referrersOf ⟨"src/b.ts"⟩ ∧
      build other (collect ((pair.filter (·.decoded)).map fun m =>
        c.backend.extract m.path m.content)) [] c.extensions =
        Project.graphOf c [] tree := by
  intro c tree other
  have perm := List.reverse_perm pair
  have distinct : pair.Pairwise (fun a b => a.path.same b.path = false) := by decide
  obtain ⟨⟨record, _, same⟩, _, arrived, _⟩ :=
    graphOf_perm perm distinct c.backend.extractor [] c.extensions ⟨"/p"⟩ [⟨"src/b.css"⟩]
  exact ⟨perm, distinct, record, (same _).2, (arrived _ ((perm.symm.filter _).map _)).2⟩

end Graph

end Relocation
