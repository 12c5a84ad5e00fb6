import Relocation.Proofs.Graph.Reverse
import Relocation.Usage

/-!
# Sound classification

Every module in scope is classified once. It counts as unused exactly if no other module of the
tree, in scope or not, has a reference that leads to it, and only a module that is unused and
exports nothing is to be deleted. A summary counts every record once, under its category.
-/

namespace Relocation

/-! ### Grounds -/

theorem IncomingKinds.any_iff (k : IncomingKinds) : k.any = true ↔ ∃ kind, k.has kind = true := by
  constructor
  · intro some'
    rcases Bool.or_eq_true_iff.mp some' with first | structurally
    · rcases Bool.or_eq_true_iff.mp first with statically | lazily
      · exact ⟨.static, statically⟩
      · exact ⟨.lazy, lazily⟩
    · exact ⟨.structural, structurally⟩
  · rintro ⟨kind, there⟩
    cases kind <;> simp_all [any, has]

theorem Category.compare_eq_iff {c c' : Category} : compare c c' = .eq ↔ c = c' := by
  cases c <;> cases c' <;> decide

def Category.IsUnused (c : Category) : Prop := c = .unreachable ∨ c = .orphanedSubstantial

section
variable (t : Thresholds) (incoming : IncomingKinds) (exported : Bool) (size : Nat)

theorem assess_cases :
    (incoming.any = true ∧ (assess t incoming exported size = .usedLarge size ∨
      assess t incoming exported size = .used incoming)) ∨
    (incoming.any = false ∧ exported = false ∧ assess t incoming exported size = .unused) ∨
    (incoming.any = false ∧ exported = true ∧
      (assess t incoming exported size = .unusedSmall size ∨
        assess t incoming exported size = .unusedSubstantial size)) := by
  unfold assess
  cases incoming.any with
  | true =>
    rw [if_pos rfl]
    split
    · exact Or.inl ⟨rfl, Or.inl rfl⟩
    · exact Or.inl ⟨rfl, Or.inr rfl⟩
  | false =>
    rw [if_neg (by decide)]
    cases exported with
    | false => exact Or.inr (Or.inl ⟨rfl, rfl, rfl⟩)
    | true =>
      rw [if_neg (by decide)]
      split
      · exact Or.inr (Or.inr ⟨rfl, rfl, Or.inl rfl⟩)
      · exact Or.inr (Or.inr ⟨rfl, rfl, Or.inr rfl⟩)

theorem assess_isUnused :
    (assess t incoming exported size).category.IsUnused ↔ incoming.any = false := by
  unfold Category.IsUnused
  rcases assess_cases t incoming exported size with ⟨any, used | used⟩ | ⟨any, _, unused⟩
    | ⟨any, _, unused | unused⟩
  · simp [used, any, Ground.category]
  · simp [used, any, Ground.category]
  · simp [unused, any, Ground.category]
  · simp [unused, any, Ground.category]
  · simp [unused, any, Ground.category]

theorem assess_delete : (assess t incoming exported size).action = .delete ↔ incoming.any = false ∧
    exported = false := by
  rcases assess_cases t incoming exported size with ⟨any, used | used⟩ | ⟨any, bare, unused⟩
    | ⟨any, bare, unused | unused⟩
  · simp [used, any, Ground.action]
  · simp [used, any, Ground.action]
  · rw [unused]
    simp [any, bare, Ground.action]
  · rw [unused]
    simp [bare, Ground.action]
  · rw [unused]
    simp [bare, Ground.action]

end

namespace Graph

/-! ### References to a module -/

def LeadsTo (reader : Extractor) (resolver : Resolver) (q m : Module) : Prop :=
  q.path.same m.path = false ∧ q.decoded = true ∧
    ∃ ref ∈ (reader.extract q.path q.content).references, (resolver.resolve ref).targets.any
      (·.same m.path) = true

/-- What a module exports. Nothing is known of one that is no text. -/
def exportsIn (reader : Extractor) (m : Module) : ExportSet :=
  if m.decoded then (reader.extract m.path m.content).exports else {}

section
variable {tree : SourceTree} (distinct : tree.modules.Pairwise fun a b => a.path.same b.path = false)
variable (reader : Extractor) (aliases : List Alias) (extensions : List String)
include distinct

theorem refers_iff {q m : Module} (member : q ∈ tree.modules) :
    (∃ kind, (ofTree reader tree aliases extensions).Refers q.path m.path kind) ↔
      LeadsTo reader (ofTree reader tree aliases extensions).resolver q m := by
  unfold Refers LeadsTo
  rw [referencesFrom_module distinct reader aliases extensions member]
  constructor
  · rintro ⟨kind, apart, r, found, _, hit⟩
    split at found
    · rename_i decoded
      obtain ⟨ref, own, rfl⟩ := List.mem_map.mp found
      exact ⟨apart, decoded, ref, own, hit⟩
    · cases found
  · rintro ⟨apart, decoded, ref, own, hit⟩
    rw [if_pos decoded]
    exact ⟨ref.kind, apart, _, List.mem_map.mpr ⟨ref, own, rfl⟩, rfl, hit⟩

theorem incoming_none {m : Module} (member : m ∈ tree.modules) :
    ((ofTree reader tree aliases extensions).incoming m.path).any = false ↔
      ∀ q ∈ tree.modules, ¬ LeadsTo reader (ofTree reader tree aliases extensions).resolver q m := by
  rw [← Bool.not_eq_true, IncomingKinds.any_iff]
  constructor
  · intro none q other leads
    obtain ⟨kind, refers⟩ := (refers_iff distinct reader aliases extensions other).mpr leads
    exact none ⟨kind, (incoming_iff distinct reader aliases extensions member kind).mpr
      ⟨q, other, refers⟩⟩
  · rintro none ⟨kind, there⟩
    obtain ⟨q, other, refers⟩ := (incoming_iff distinct reader aliases extensions member kind).mp there
    exact none q other ((refers_iff distinct reader aliases extensions other).mp ⟨kind, refers⟩)

theorem exportsOf_module {m : Module} (member : m ∈ tree.modules) :
    exportsOf (extractAll reader.extract tree.modules) m.path = exportsIn reader m := by
  unfold exportsOf exportsIn
  cases found : (extractAll reader.extract tree.modules).reverse.find? (·.path.same m.path) with
  | none =>
    split
    · rename_i decoded
      have listed : reader.extract m.path m.content ∈
        (extractAll reader.extract tree.modules).reverse :=
        List.mem_reverse.mpr ((mem_extractAll reader).mpr ⟨m, member, decoded, rfl⟩)
      have missed := List.find?_eq_none.mp found _ listed
      rw [reader.path, Path.same_self] at missed
      exact (missed rfl).elim
    · rfl
  | some e =>
    have listed := List.mem_reverse.mp (List.mem_of_find?_eq_some found)
    obtain ⟨other, module, decoded, rfl⟩ := (mem_extractAll reader).mp listed
    have same := List.find?_some found
    rw [reader.path, Path.same_iff] at same
    obtain rfl := module_unique distinct module member same
    rw [if_pos decoded]
    rfl

/-! ### Records -/

omit distinct in
theorem usage_ascending (scope : Scope) (thresholds : Thresholds) :
    ((ofTree reader tree aliases extensions).usage scope thresholds).Pairwise fun a b =>
      compare a.path b.path = .lt :=
  List.pairwise_map.mpr ((nodesOf_ascending tree _).filter _)

theorem nodes_paths :
    ((ofTree reader tree aliases extensions).nodes.map (·.path)).Perm
      (tree.modules.map (·.path)) := by
  have left : ((ofTree reader tree aliases extensions).nodes.map (·.path)).Nodup :=
    List.pairwise_map.mpr ((nodesOf_ascending tree _).imp fun less same =>
      Path.components_ne_of_lt less (congrArg Path.components same))
  have right : (tree.modules.map (·.path)).Nodup := by
    refine List.pairwise_map.mpr (distinct.imp fun {a b} apart same => ?_)
    rw [same, Path.same_self] at apart
    cases apart
  refine (List.perm_ext_iff_of_nodup left right).mpr fun p => ?_
  rw [List.mem_map, List.mem_map]
  exact mem_nodes distinct

theorem usage_paths (scope : Scope) (thresholds : Thresholds) :
    (((ofTree reader tree aliases extensions).usage scope thresholds).map (·.path)).Perm
      ((tree.modules.filter fun m => scope.contains m.path).map (·.path)) := by
  have inScope := (nodes_paths distinct reader aliases extensions).filter scope.contains
  rw [List.filter_map, List.filter_map] at inScope
  rw [usage, List.map_map]
  exact inScope

theorem usage_module (scope : Scope) (thresholds : Thresholds) {m : Module}
    (member : m ∈ tree.modules) {r : UsageRecord}
    (record : r ∈ (ofTree reader tree aliases extensions).usage scope thresholds)
    (same : r.path = m.path) : r.ground =
      assess thresholds ((ofTree reader tree aliases extensions).incoming m.path)
      (!(exportsIn reader m).isEmpty) m.size := by
  obtain ⟨n, kept, rfl⟩ := List.mem_map.mp record
  obtain ⟨other, value, rfl⟩ := List.mem_map.mp (List.mem_filter.mp kept).1
  obtain ⟨entry, inside, rfl⟩ := List.mem_map.mp value
  have path : entry.2.path = m.path := same
  obtain rfl := module_unique distinct (entry_module tree inside).1 member
    (congrArg Path.components path)
  rw [← exportsOf_module distinct reader member]
  rfl

end

end Graph

/-! ### Summaries -/

namespace Table

variable {κ : Type} [Ord κ]

def tallyIn (es : List (κ × Nat)) : Nat := es.foldr (fun entry n => entry.2 + n) 0

def tally (t : Table κ Nat) : Nat := tallyIn t.entries

theorem tallyIn_insertIn [Std.TransOrd κ] {es : List (κ × Nat)}
    (sorted : es.Pairwise fun a b => compare a.1 b.1 = .lt) (k : κ) (v : Nat) :
    tallyIn (insertIn k v es) + (findIn k es).getD 0 = tallyIn es + v := by
  induction es with
  | nil => simp [insertIn, tallyIn, findIn]
  | cons entry rest ih =>
    obtain ⟨k', w⟩ := entry
    obtain ⟨behind, sorted⟩ := List.pairwise_cons.mp sorted
    have whole : tallyIn ((k', w) :: rest) = w + tallyIn rest := rfl
    cases order : compare k k' with
    | lt =>
      have gone : findIn k rest = none := by
        cases found : findIn k rest with
        | none => rfl
        | some u =>
          obtain ⟨other, same, member⟩ := findIn_mem found
          rw [Std.TransCmp.lt_trans order (behind _ member)] at same
          cases same
      have added : tallyIn ((k, v) :: (k', w) :: rest) = v + (w + tallyIn rest) := rfl
      simp only [insertIn, findIn, order, gone, added, whole, reduceCtorEq, if_false, Option.getD_none]
      omega
    | eq =>
      have changed : tallyIn ((k', v) :: rest) = v + tallyIn rest := rfl
      simp only [insertIn, findIn, order, changed, whole, if_true, Option.getD_some]
      omega
    | gt =>
      have step := ih sorted
      have kept : tallyIn ((k', w) :: insertIn k v rest) = w + tallyIn (insertIn k v rest) := rfl
      simp only [insertIn, findIn, order, kept, whole, reduceCtorEq, if_false]
      omega

theorem tally_modify [Std.TransOrd κ] (t : Table κ Nat) (k : κ) :
    (t.modify k 0 (· + 1)).tally = t.tally + 1 := by
  have step : (t.insert k ((t.find? k).getD 0 + 1)).tally + (t.find? k).getD 0 =
      t.tally + ((t.find? k).getD 0 + 1) := tallyIn_insertIn t.ascending k _
  rw [modify]
  omega

end Table

namespace UsageSummary

/-- The summary is right about some records: every category that occurs has its number. -/
structure Counts (s : UsageSummary) (records : List UsageRecord) : Prop where
  found : ∀ c, s.byCategory.find? c =
    if records.countP (·.category = c) = 0 then none else some (records.countP (·.category = c))
  tally : s.byCategory.tally = records.length

theorem Counts.count {s : UsageSummary} {records : List UsageRecord} (counts : s.Counts records)
    (c : Category) : s.count c = records.countP (·.category = c) := by
  rw [UsageSummary.count, counts.found]
  split
  · rename_i none
    rw [none]
    rfl
  · rfl

theorem add_counts {s : UsageSummary} {records : List UsageRecord} (counts : s.Counts records)
    (r : UsageRecord) : (s.add r).Counts (records ++ [r]) := by
  constructor
  · intro c
    have step : (s.add r).byCategory.find? c =
        if compare c r.category = .eq then some (s.count r.category + 1) else s.byCategory.find? c :=
      Table.find?_insert _ _ _ _
    rw [step, counts.count, counts.found, List.countP_append, List.countP_singleton]
    by_cases same : r.category = c
    · rw [same, if_pos (Category.compare_eq_iff.mpr rfl)]
      simp
    · rw [if_neg fun equal => same (Category.compare_eq_iff.mp equal).symm]
      simp [same]
  · rw [List.length_append]
    exact (Table.tally_modify _ _).trans (congrArg (· + 1) counts.tally)

theorem ofRecords_counts (records : List UsageRecord) : (ofRecords records).Counts records := by
  have folded : ∀ (later earlier : List UsageRecord) (s : UsageSummary), s.Counts earlier →
      (later.foldl add s).Counts (earlier ++ later) := by
    intro later
    induction later with
    | nil => intro earlier s counts; rwa [List.append_nil]
    | cons r rest ih =>
      intro earlier s counts
      rw [List.append_cons]
      exact ih _ _ (add_counts counts r)
  exact folded records [] _ ⟨fun _ => rfl, rfl⟩

theorem foldl_add_total (records : List UsageRecord) (s : UsageSummary) :
    (records.foldl add s).total = s.total := by
  induction records generalizing s with
  | nil => rfl
  | cons r rest ih => exact ih (s.add r)

end UsageSummary

namespace Graph

/-- Each module in scope has one record, in path order. It is unused exactly if no other module of
the tree has a reference that leads to it, and to be deleted exactly if it exports nothing besides.
The summary has as many records as its categories have together, and each category as many as have it. -/
theorem usage_sound (reader : Extractor) (tree : SourceTree)
    (distinct : tree.modules.Pairwise fun a b => a.path.same b.path = false) (aliases : List Alias)
    (extensions : List String) (scope : Scope) (thresholds : Thresholds) :
    let g := build tree (extractAll reader.extract tree.modules) aliases extensions
    let records := g.usage scope thresholds
    let summary := UsageSummary.ofRecords records
    (records.map (·.path)).Perm ((tree.modules.filter fun m => scope.contains m.path).map (·.path)) ∧
      records.Pairwise (fun a b => compare a.path b.path = .lt) ∧
      (∀ m ∈ tree.modules, ∀ r ∈ records, r.path = m.path →
        ((r.category = .unreachable ∨ r.category = .orphanedSubstantial) ↔
          ∀ q ∈ tree.modules, ¬ LeadsTo reader g.resolver q m) ∧
        (r.ground.action = .delete ↔
          (∀ q ∈ tree.modules, ¬ LeadsTo reader g.resolver q m) ∧
          (exportsIn reader m).isEmpty = true)) ∧
      summary.total = records.length ∧ summary.byCategory.tally = summary.total ∧
      (∀ c, summary.count c = records.countP (·.category = c)) := by
  intro g records summary
  have counts := UsageSummary.ofRecords_counts records
  have total : summary.total = records.length := UsageSummary.foldl_add_total records _
  refine ⟨usage_paths distinct reader aliases extensions scope thresholds,
    usage_ascending reader aliases extensions scope thresholds,
    fun m member r record same => ?_, total, counts.tally.trans total.symm, counts.count⟩
  have ground := usage_module distinct reader aliases extensions scope thresholds member record same
  have unused := incoming_none distinct reader aliases extensions member
  constructor
  · change r.ground.category.IsUnused ↔ _
    rw [ground, assess_isUnused]
    exact unused
  · rw [ground, assess_delete, unused, Bool.not_eq_false']
    rfl

def stray (name : String) : Module := { path := ⟨name⟩, content := "", size := 1, decoded := false }

def strayTree : SourceTree :=
  { root := ⟨"/p"⟩
    modules := [{ path := ⟨"a.ts"⟩, content := "import './b'", size := 12 }, stray "b.ts",
      stray "c.ts"]
    files := .ofList [⟨"a.ts"⟩, ⟨"b.ts"⟩, ⟨"c.ts"⟩] }

theorem usage_sound_stray :
    let g := build strayTree (extractAll Backend.lexical.extract strayTree.modules) [] [".ts"]
    strayTree.modules.Pairwise (fun a b => a.path.same b.path = false) ∧
      (∃ r ∈ g.usage .all {}, r.path = ⟨"b.ts"⟩ ∧ r.category = .active) ∧
      (∃ q ∈ strayTree.modules, LeadsTo Backend.lexical.extractor g.resolver q (stray "b.ts")) ∧
      (∃ r ∈ g.usage .all {}, r.path = ⟨"c.ts"⟩ ∧ r.ground.action = .delete) ∧
      ∀ q ∈ strayTree.modules, ¬ LeadsTo Backend.lexical.extractor g.resolver q (stray "c.ts") := by
  intro g
  have distinct : strayTree.modules.Pairwise (fun a b => a.path.same b.path = false) := by decide
  have kept : ∃ r ∈ g.usage .all {}, r.path = ⟨"b.ts"⟩ ∧ r.category = .active := by decide +kernel
  have deleted : ∃ r ∈ g.usage .all {}, r.path = ⟨"c.ts"⟩ ∧ r.ground.action = .delete := by
    decide +kernel
  obtain ⟨_, _, sound, _⟩ := usage_sound Backend.lexical.extractor strayTree distinct []
    [".ts"] .all {}
  refine ⟨distinct, kept, ?_, deleted, ?_⟩
  · obtain ⟨r, record, path, active⟩ := kept
    by_contra none
    have unused := (sound (stray "b.ts") (by decide) r record path).1.mpr
      fun q member leads => none ⟨q, member, leads⟩
    rw [active] at unused
    rcases unused with other | other <;> cases other
  · obtain ⟨r, record, path, delete⟩ := deleted
    exact ((sound (stray "c.ts") (by decide) r record path).2.mp delete).1

end Graph

end Relocation
