import Mathlib.Data.Set.Card
import Relocation.Proofs.Extraction.Laws
import Relocation.Proofs.Extraction.Reading
import Relocation.Proofs.Graph.Building

/-!
# Both directions of a graph

A graph holds the references of each module and, apart from them, the edges between modules. The two
agree: what the edges say of a module is what the references of the other modules say, each kind
once, and every reference is either resolved or on record as unresolved.
-/

namespace Relocation

namespace Path

theorem same_comm (p q : Path) : p.same q = q.same p := by
  rw [Bool.eq_iff_iff, same_iff, same_iff]
  exact eq_comm

theorem same_self (p : Path) : p.same p = true := same_iff.mpr rfl

section
variable {α : Type} (path : α → Path)

theorem isLE_trans (a b c : α) (first : (compare (path a) (path b)).isLE = true)
    (second : (compare (path b) (path c)).isLE = true) : (compare (path a) (path c)).isLE = true :=
  Std.TransCmp.isLE_trans first second

theorem isLE_total (a b : α) :
    ((compare (path a) (path b)).isLE || (compare (path b) (path a)).isLE) = true := by
  have swapped : compare (path b) (path a) = (compare (path a) (path b)).swap :=
    Std.OrientedCmp.eq_swap
  rw [swapped]
  cases compare (path a) (path b) <;> rfl

theorem mergeSort_ascending {items : List α}
    (distinct : items.Pairwise fun a b => (path a).same (path b) = false) :
    (items.mergeSort fun a b => (compare (path a) (path b)).isLE).Pairwise
      fun a b => compare (path a) (path b) = .lt := by
  have sorted := List.pairwise_mergeSort (isLE_trans path) (isLE_total path) items
  have apart := (List.mergeSort_perm items fun a b =>
    (compare (path a) (path b)).isLE).symm.pairwise distinct
    fun {a b} different => (same_comm _ _).trans different
  refine (sorted.and apart).imp fun {a b} both => ?_
  obtain ⟨le, different⟩ := both
  cases compared : compare (path a) (path b) with
  | lt => rfl
  | eq =>
    rw [same_iff.mpr (compare_eq_iff.mp compared)] at different
    cases different
  | gt =>
    rw [compared] at le
    cases le

end

end Path

def IncomingKinds.has (k : IncomingKinds) : ReferenceKind → Bool
  | .static => k.statically
  | .lazy => k.lazily
  | .structural => k.structurally

namespace ResolvedReference

def isResolved (r : ResolvedReference) : Bool :=
  match r.resolution with
  | .resolved _ => true
  | .unresolved _ => false

def diagnostic? (r : ResolvedReference) : Option Diagnostic :=
  match r.resolution with
  | .resolved _ => none
  | .unresolved reason =>
    some (.unresolved r.reference.source r.reference.specifier r.reference.kind
      r.reference.line reason)

end ResolvedReference

/-! ### Edges without repetition -/

namespace Edge

theorem same_iff {a b : Edge} : a.same b = true ↔ a.source.components = b.source.components ∧
    a.target.components = b.target.components ∧ a.kind = b.kind := by
  simp [same, Path.same_iff, and_assoc]

theorem mem_of_distinct {e : Edge} {es : List Edge} (member : e ∈ distinct es) : e ∈ es := by
  induction es with
  | nil => cases member
  | cons first rest ih =>
    rcases List.mem_cons.mp member with same | later
    · exact same ▸ List.mem_cons_self
    · exact List.mem_cons_of_mem _ (ih (List.mem_filter.mp later).1)

theorem distinct_covers {e : Edge} {es : List Edge} (member : e ∈ es) :
    ∃ f ∈ distinct es, f.same e = true := by
  induction es with
  | nil => cases member
  | cons first rest ih =>
    by_cases alike : first.same e = true
    · exact ⟨first, List.mem_cons_self, alike⟩
    · rcases List.mem_cons.mp member with rfl | later
      · exact (alike (same_iff.mpr ⟨rfl, rfl, rfl⟩)).elim
      · obtain ⟨f, kept, same⟩ := ih later
        refine ⟨f, List.mem_cons_of_mem _ (List.mem_filter.mpr ⟨kept, ?_⟩), same⟩
        rw [Bool.not_eq_true', ← Bool.not_eq_true]
        intro repeated
        refine alike (same_iff.mpr ?_)
        rw [same_iff] at same repeated
        exact ⟨repeated.1.symm.trans same.1, repeated.2.1.symm.trans same.2.1,
          repeated.2.2.symm.trans same.2.2⟩

theorem distinct_nodup (es : List Edge) : (distinct es).Nodup := by
  induction es with
  | nil => exact List.nodup_nil
  | cons first rest ih =>
    refine List.nodup_cons.mpr ⟨fun repeated => ?_, ih.filter _⟩
    have unlike := (List.mem_filter.mp repeated).2
    rw [same_iff.mpr ⟨rfl, rfl, rfl⟩] at unlike
    cases unlike

end Edge

namespace Graph

def Refers (g : Graph) (referrer module : Path) (kind : ReferenceKind) : Prop :=
  referrer.same module = false ∧
    ∃ r ∈ g.referencesFrom referrer, r.reference.kind = kind ∧ r.resolution.targets.any
      (·.same module) = true

/-! ### Nodes and references of a tree -/

theorem extracted_distinct {modules : List Module}
    (distinct : modules.Pairwise fun a b => a.path.same b.path = false)
    (reader : Extractor) :
    ((modules.filter (·.decoded)).map fun m => reader.extract m.path m.content).Pairwise
      fun a b => a.path.same b.path = false := by
  refine List.pairwise_map.mpr ((distinct.filter _).imp fun {a b} apart => ?_)
  rw [reader.path, reader.path]
  exact apart

section
variable {tree : SourceTree} (distinct : tree.modules.Pairwise fun a b => a.path.same b.path = false)
include distinct

theorem module_unique {a b : Module} (left : a ∈ tree.modules) (right : b ∈ tree.modules)
    (same : a.path.components = b.path.components) : a = b := by
  have : Std.Symm fun a b : Module => a.path.same b.path = false :=
    ⟨fun a b apart => (Path.same_comm b.path a.path).trans apart⟩
  by_contra different
  have apart := distinct.forall left right different
  rw [Path.same_iff.mpr same] at apart
  cases apart

theorem mem_nodes {extractions : List Extraction} {p : Path} :
    (∃ n ∈ nodesOf tree extractions, n.path = p) ↔ ∃ m ∈ tree.modules, m.path = p := by
  constructor
  · rintro ⟨n, member, rfl⟩
    exact nodesOf_module tree extractions member
  · rintro ⟨m, member, rfl⟩
    have held := Table.contains_ofListLast (List.mem_map.mpr ⟨m, member, rfl⟩ :
      (m.path, m) ∈ tree.modules.map fun m => (m.path, m))
    obtain ⟨other, found⟩ := Option.isSome_iff_exists.mp held
    obtain ⟨key, same, inside⟩ := Table.find?_mem found
    obtain ⟨module, keyed⟩ := entry_module tree inside
    obtain rfl : other = m := module_unique distinct module member
      (keyed.trans (Path.compare_eq_iff.mp same).symm)
    exact ⟨_, List.mem_map.mpr ⟨other, List.mem_map.mpr ⟨_, inside, rfl⟩, rfl⟩, rfl⟩

variable (reader : Extractor)

theorem extractAll_ascending :
    (extractAll reader.extract tree.modules).Pairwise fun a b => compare a.path b.path = .lt :=
  Path.mergeSort_ascending Extraction.path (extracted_distinct distinct reader)

variable (aliases : List Alias) (extensions : List String)

def ofTree (reader : Extractor) (tree : SourceTree) (aliases : List Alias)
    (extensions : List String) : Graph :=
  build tree (extractAll reader.extract tree.modules) aliases extensions

omit distinct in
theorem mem_extractAll {e : Extraction} : e ∈ extractAll reader.extract tree.modules ↔
    ∃ m ∈ tree.modules, m.decoded = true ∧ reader.extract m.path m.content = e := by
  rw [extractAll, List.mem_mergeSort, List.mem_map]
  simp only [List.mem_filter, and_assoc]

/-- Every extraction is known, and the references of each are in its place. -/
theorem resolved_ofTree : (extractAll reader.extract tree.modules).filter (fun e =>
    (nodesOf tree (extractAll reader.extract tree.modules)).any (·.path.same e.path)) =
      extractAll reader.extract tree.modules := by
  rw [List.filter_eq_self]
  intro e member
  obtain ⟨m, module, _, rfl⟩ := (mem_extractAll reader).mp member
  obtain ⟨n, node, same⟩ := (mem_nodes distinct).mpr ⟨m, module, rfl⟩
  rw [reader.path]
  exact List.any_eq_true.mpr ⟨n, node, by rw [same]; exact Path.same_self _⟩

theorem forward_ofTree : (ofTree reader tree aliases extensions).forward.entries =
    (extractAll reader.extract tree.modules).map fun e =>
      (e.path, resolveAll (ofTree reader tree aliases extensions).resolver e) := by
  have sorted : ((∅ : Table Path (List ResolvedReference)).entries ++
      (extractAll reader.extract tree.modules).map fun e =>
        (e.path, resolveAll (ofTree reader tree aliases extensions).resolver e)).Pairwise
          fun a b => compare a.1 b.1 = .lt := List.pairwise_map.mpr
            (extractAll_ascending distinct reader)
  change (Table.insertAll (List.map _ (List.filter _ _)) ∅).entries = _
  rw [resolved_ofTree distinct]
  exact Table.insertAll_of_ascending sorted

theorem mem_forward {p : Path} {refs : List ResolvedReference} :
    (p, refs) ∈ (ofTree reader tree aliases extensions).forward.entries ↔
    ∃ m ∈ tree.modules, m.decoded = true ∧ m.path = p ∧
      resolveAll (ofTree reader tree aliases extensions).resolver
        (reader.extract m.path m.content) = refs := by
  rw [forward_ofTree distinct, List.mem_map]
  constructor
  · rintro ⟨e, found, same⟩
    obtain ⟨m, module, decoded, rfl⟩ := (mem_extractAll reader).mp found
    cases same
    exact ⟨m, module, decoded, (reader.path _ _).symm, rfl⟩
  · rintro ⟨m, module, decoded, rfl, rfl⟩
    exact ⟨_, (mem_extractAll reader).mpr ⟨m, module, decoded, rfl⟩, by rw [reader.path]⟩

theorem referencesFrom_module {m : Module} (member : m ∈ tree.modules) :
    (ofTree reader tree aliases extensions).referencesFrom m.path =
      if m.decoded then resolveAll (ofTree reader tree aliases extensions).resolver
        (reader.extract m.path m.content)
      else [] := by
  unfold referencesFrom
  split
  · rename_i decoded
    rw [Table.find?_of_mem ((mem_forward distinct reader _ _).mpr ⟨m, member, decoded, rfl, rfl⟩)]
    rfl
  · rename_i undecoded
    cases found : (ofTree reader tree aliases extensions).forward.find? m.path with
    | none => rfl
    | some refs =>
      obtain ⟨key, same, inside⟩ := Table.find?_mem found
      obtain ⟨other, module, decoded, rfl, _⟩ := (mem_forward distinct reader _ _).mp inside
      rw [module_unique distinct module member (Path.compare_eq_iff.mp same).symm] at decoded
      exact (undecoded decoded).elim

/-! ### Edges -/

omit distinct in
/-- The edges that the references draw, before repetitions are dropped. -/
def drawn (g : Graph) : List Edge :=
  g.forward.entries.flatMap fun (p, refs) => (g.nodes.filter (·.path.same p)).flatMap fun n =>
    edgesFrom g.nodes n refs

omit distinct in
theorem mem_drawn {g : Graph} {e : Edge} : e ∈ g.drawn ↔ ∃ p refs, (p, refs) ∈ g.forward.entries ∧
    ∃ n ∈ g.nodes, n.path.same p = true ∧ n.path = e.source ∧ ∃ r ∈ refs, r.reference.kind = e.kind ∧
      ∃ t ∈ g.nodes, t.path = e.target ∧ t.path.same n.path = false ∧
        r.resolution.targets.any (·.same t.path) = true := by
  unfold drawn edgesFrom
  simp only [List.mem_flatMap, List.mem_filter, List.mem_map, Bool.and_eq_true, Bool.not_eq_true',
    Prod.exists]
  constructor
  · rintro ⟨p, refs, entry, n, ⟨source, same⟩, r, member, t, ⟨target, apart, hit⟩, rfl⟩
    exact ⟨p, refs, entry, n, source, same, rfl, r, member, rfl, t, target, rfl, apart, hit⟩
  · rintro ⟨p, refs, entry, n, source, same, leaves, r, member, kind, t, target, enters, apart, hit⟩
    refine ⟨p, refs, entry, n, ⟨source, same⟩, r, member, t, ⟨target, apart, hit⟩, ?_⟩
    rw [leaves, enters, kind]

theorem edges_ofTree : (ofTree reader tree aliases extensions).edges =
    Edge.distinct (ofTree reader tree aliases extensions).drawn := by
  have forward := forward_ofTree distinct reader aliases extensions
  change Edge.distinct (List.flatMap _ (List.map _ (List.filter _ _))) = _
  rw [resolved_ofTree distinct, drawn, forward]
  rfl

theorem mem_drawn_ofTree {e : Edge} : e ∈ (ofTree reader tree aliases extensions).drawn ↔
    (∃ m ∈ tree.modules, m.path = e.source) ∧ (∃ m ∈ tree.modules, m.path = e.target) ∧
      (ofTree reader tree aliases extensions).Refers e.source e.target e.kind := by
  have nodes : ∀ {p}, (∃ n ∈ (ofTree reader tree aliases extensions).nodes, n.path = p) ↔
      ∃ m ∈ tree.modules, m.path = p := mem_nodes distinct
  rw [mem_drawn]
  constructor
  · rintro ⟨p, refs, entry, n, source, same, leaves, r, member, kind, t, target, enters, apart, hit⟩
    have home := nodes.mp ⟨n, source, leaves⟩
    refine ⟨home, nodes.mp ⟨t, target, enters⟩, ?_⟩
    obtain ⟨m, module, path⟩ := home
    obtain ⟨other, listed, decoded, rfl, rfl⟩ := (mem_forward distinct reader _ _).mp entry
    rw [leaves, ← path, Path.same_iff] at same
    obtain rfl := module_unique distinct module listed same
    refine ⟨by rw [Path.same_comm, ← leaves, ← enters]; exact apart, r, ?_, kind, enters ▸ hit⟩
    rw [← path, referencesFrom_module distinct reader _ _ module, if_pos decoded]
    exact member
  · rintro ⟨home, away, apart, r, member, kind, hit⟩
    obtain ⟨n, source, leaves⟩ := nodes.mpr home
    obtain ⟨t, target, enters⟩ := nodes.mpr away
    obtain ⟨m, module, path⟩ := home
    rw [← path, referencesFrom_module distinct reader _ _ module] at member
    split at member
    · rename_i decoded
      refine ⟨m.path, _, (mem_forward distinct reader _ _).mpr ⟨m, module, decoded, rfl, rfl⟩, n,
        source, ?_, leaves, r, member, kind, t, target, enters, ?_, enters ▸ hit⟩
      · rw [leaves, ← path]
        exact Path.same_self _
      · rw [Path.same_comm, leaves, enters]
        exact apart
    · cases member

/-- The edges of a graph are exactly the triples that its references make. -/
theorem mem_edges {e : Edge} : e ∈ (ofTree reader tree aliases extensions).edges ↔
    (∃ m ∈ tree.modules, m.path = e.source) ∧ (∃ m ∈ tree.modules, m.path = e.target) ∧
      (ofTree reader tree aliases extensions).Refers e.source e.target e.kind := by
  rw [← mem_drawn_ofTree distinct, edges_ofTree distinct]
  refine ⟨Edge.mem_of_distinct, fun member => ?_⟩
  obtain ⟨f, kept, same⟩ := Edge.distinct_covers member
  -- Ends are spelt as the modules are, so edges that count as one are equal.
  obtain ⟨⟨a, left, source⟩, ⟨b, right, target⟩, _⟩ := (mem_drawn_ofTree distinct reader _ _).mp member
  obtain ⟨⟨c, left', source'⟩, ⟨d, right', target'⟩, _⟩ :=
    (mem_drawn_ofTree distinct reader _ _).mp (Edge.mem_of_distinct kept)
  obtain ⟨sources, targets, kinds⟩ := Edge.same_iff.mp same
  rw [← source, ← source'] at sources
  rw [← target, ← target'] at targets
  have equal : f = e := by
    cases f
    cases e
    simp only at source source' target target' kinds
    rw [← source, ← source', ← target, ← target', module_unique distinct left' left sources,
      module_unique distinct right' right targets, kinds]
  exact equal ▸ kept

theorem incoming_iff {p : Module} (member : p ∈ tree.modules) (kind : ReferenceKind) :
    ((ofTree reader tree aliases extensions).incoming p.path).has kind = true ↔
      ∃ q ∈ tree.modules, (ofTree reader tree aliases extensions).Refers q.path p.path kind := by
  have read : ((ofTree reader tree aliases extensions).incoming p.path).has kind =
      (((ofTree reader tree aliases extensions).edges.filter (·.target.same p.path)).map
        (·.kind)).contains kind := by
    cases kind <;> rfl
  rw [read, List.contains_iff_mem, List.mem_map]
  constructor
  · rintro ⟨e, inside, rfl⟩
    obtain ⟨edge, same⟩ := List.mem_filter.mp inside
    obtain ⟨⟨q, referrer, source⟩, ⟨t, module, target⟩, refers⟩ :=
      (mem_edges distinct reader _ _).mp edge
    rw [← target, Path.same_iff] at same
    rw [← source, ← target, module_unique distinct module member same] at refers
    exact ⟨q, referrer, refers⟩
  · rintro ⟨q, referrer, refers⟩
    exact ⟨⟨q.path, p.path, kind⟩, List.mem_filter.mpr ⟨(mem_edges distinct reader _ _).mpr
      ⟨⟨q, referrer, rfl⟩, ⟨p, member, rfl⟩, refers⟩, Path.same_self _⟩, rfl⟩

theorem mem_referrersOf {p : Module} (member : p ∈ tree.modules) (q : Path) :
    q ∈ (ofTree reader tree aliases extensions).referrersOf p.path ↔
      ∃ m ∈ tree.modules, m.path = q ∧
      ∃ kind, (ofTree reader tree aliases extensions).Refers q p.path kind := by
  have sources : ∀ {q}, q ∈ ((ofTree reader tree aliases extensions).edges.filter
      (·.target.same p.path)).map (·.source) ↔ ∃ m ∈ tree.modules, m.path = q ∧
        ∃ kind, (ofTree reader tree aliases extensions).Refers q p.path kind := by
    intro q
    rw [List.mem_map]
    constructor
    · rintro ⟨e, inside, rfl⟩
      obtain ⟨edge, same⟩ := List.mem_filter.mp inside
      obtain ⟨⟨m, referrer, source⟩, ⟨t, module, target⟩, refers⟩ :=
        (mem_edges distinct reader _ _).mp edge
      rw [← target, Path.same_iff] at same
      rw [← target, module_unique distinct module member same] at refers
      exact ⟨m, referrer, source, e.kind, refers⟩
    · rintro ⟨m, referrer, source, kind, refers⟩
      exact ⟨⟨q, p.path, kind⟩, List.mem_filter.mpr ⟨(mem_edges distinct reader _ _).mpr
        ⟨⟨m, referrer, source⟩, ⟨p, member, rfl⟩, refers⟩, Path.same_self _⟩, rfl⟩
  constructor
  · exact fun inside => sources.mp (Keys.mem_ofList inside)
  · intro referrer
    have held : Keys.contains q ((ofTree reader tree aliases extensions).referrersOf p.path) = true :=
      Keys.contains_ofList.mpr (Keys.contains_iff.mpr ⟨q, sources.mpr referrer, Std.compare_self⟩)
    obtain ⟨other, inside, same⟩ := Keys.contains_iff.mp held
    obtain ⟨m, module, path, _⟩ := referrer
    obtain ⟨m', module', path', _⟩ := sources.mp (Keys.mem_ofList inside)
    rw [← path, ← path', Path.compare_eq_iff] at same
    rw [← path, module_unique distinct module module' same, path']
    exact inside

/-! ### Resolved and unresolved references -/

def allReferences (g : Graph) (modules : List Module) : List ResolvedReference :=
  modules.flatMap fun m => g.referencesFrom m.path

theorem forward_perm : ((ofTree reader tree aliases extensions).forward.entries.flatMap (·.2)).Perm
    ((ofTree reader tree aliases extensions).allReferences tree.modules) := by
  have listed : (ofTree reader tree aliases extensions).allReferences tree.modules =
      ((tree.modules.filter (·.decoded)).map fun m => reader.extract m.path m.content).flatMap
        (resolveAll (ofTree reader tree aliases extensions).resolver) := by
    rw [List.flatMap_map, allReferences, List.flatMap_congr fun m member =>
      referencesFrom_module distinct reader aliases extensions member]
    generalize (ofTree reader tree aliases extensions).resolver = resolver
    induction tree.modules with
    | nil => rfl
    | cons m rest ih =>
      rw [List.flatMap_cons, ih]
      cases decoded : m.decoded <;> simp [decoded]
  rw [forward_ofTree distinct, List.flatMap_map, listed]
  exact (List.mergeSort_perm _ _).flatMap_right _

theorem diagnostics_ofTree : (ofTree reader tree aliases extensions).diagnostics =
    ((ofTree reader tree aliases extensions).nodes.filter (!·.decoded)).map (.undecodable ·.path) ++
      ((extractAll reader.extract tree.modules).filter (0 < ·.unparsable)).map
        (fun e => .unparsable e.path e.unparsable) ++
      (ofTree reader tree aliases extensions).forward.entries.flatMap fun entry =>
        unresolvedIn entry.1 entry.2 := by
  have forward := forward_ofTree distinct reader aliases extensions
  change _ ++ List.map _ (List.filter _ (List.filter _ _)) ++ List.flatMap _
    (List.map _ (List.filter _ _)) = _
  rw [resolved_ofTree distinct, forward]
  rfl

theorem unresolved_perm :
    ((ofTree reader tree aliases extensions).diagnostics.filter isUnresolved).Perm
    (((ofTree reader tree aliases extensions).allReferences tree.modules).filterMap
      ResolvedReference.diagnostic?) := by
  have own : ∀ entry ∈ (ofTree reader tree aliases extensions).forward.entries,
      unresolvedIn entry.1 entry.2 = entry.2.filterMap ResolvedReference.diagnostic? := by
    intro entry inside
    obtain ⟨m, _, _, home, refs⟩ := (mem_forward distinct reader _ _).mp inside
    rw [← home, ← refs]
    refine List.filterMap_congr fun r member => ?_
    obtain ⟨reference, found, rfl⟩ := List.mem_map.mp member
    rw [← reader.sources _ found]
    rfl
  have recorded : ∀ d ∈ (ofTree reader tree aliases extensions).forward.entries.flatMap
        fun entry => unresolvedIn entry.1 entry.2,
      isUnresolved d = true := by
    intro d member
    obtain ⟨entry, _, inside⟩ := List.mem_flatMap.mp member
    obtain ⟨r, _, shown⟩ := List.mem_filterMap.mp inside
    split at shown
    · cases shown
    · cases shown
      rfl
  rw [diagnostics_ofTree distinct, List.filter_append, List.filter_append,
    List.filter_eq_self.mpr recorded, List.flatMap_congr own]
  have others : ∀ {α : Type} (xs : List α) (f : α → Diagnostic),
      (∀ x ∈ xs, isUnresolved (f x) = false) →
      (xs.map f).filter isUnresolved = [] := by
    intro α xs f none
    rw [List.filter_eq_nil_iff]
    rintro d member
    obtain ⟨x, inside, rfl⟩ := List.mem_map.mp member
    simp [none x inside]
  rw [others _ _ fun _ _ => rfl, others _ _ fun _ _ => rfl, List.nil_append, List.nil_append,
    ← List.filterMap_flatMap]
  exact (forward_perm distinct reader aliases extensions).filterMap _

omit distinct in
theorem length_resolved (refs : List ResolvedReference) : refs.length =
    refs.countP ResolvedReference.isResolved +
      (refs.filterMap ResolvedReference.diagnostic?).length := by
  induction refs with
  | nil => rfl
  | cons r rest ih =>
    cases found : r.resolution with
    | resolved targets =>
      have shown : r.diagnostic? = none := by rw [ResolvedReference.diagnostic?, found]
      have counted : r.isResolved = true := by rw [ResolvedReference.isResolved, found]
      rw [List.countP_cons_of_pos counted, List.filterMap_cons_none shown, List.length_cons]
      omega
    | unresolved reason =>
      have counted : ¬ r.isResolved = true := by rw [ResolvedReference.isResolved, found]; simp
      obtain ⟨d, shown⟩ : ∃ d, r.diagnostic? = some d :=
        ⟨_, by rw [ResolvedReference.diagnostic?, found]⟩
      rw [List.countP_cons_of_neg counted, List.filterMap_cons_some shown, List.length_cons,
        List.length_cons]
      omega

end

structure Agrees (g : Graph) (modules : List Module) : Prop where
  incoming : ∀ p ∈ modules, ∀ kind, (g.incoming p.path).has kind = true ↔
    ∃ q ∈ modules, g.Refers q.path p.path kind
  ascending : ∀ p ∈ modules, Keys.Ascending (g.referrersOf p.path)
  referrers : ∀ p ∈ modules, ∀ q, q ∈ g.referrersOf p.path ↔
    ∃ m ∈ modules, m.path = q ∧ ∃ kind, g.Refers q p.path kind
  edges : g.stats.edges = Set.ncard {e : Edge | (∃ m ∈ modules, m.path = e.source) ∧
    (∃ m ∈ modules, m.path = e.target) ∧ g.Refers e.source e.target e.kind}
  references : g.stats.references = (g.allReferences modules).length
  resolved : g.stats.references = (g.allReferences modules).countP ResolvedReference.isResolved +
    g.stats.unresolved
  /-- Each unresolved reference is on record, and nothing else is. -/
  unresolved : (g.diagnostics.filter isUnresolved).Perm
    ((g.allReferences modules).filterMap ResolvedReference.diagnostic?)

theorem stats_references (g : Graph) :
    g.stats.references = (g.forward.values.map List.length).sum := by
  rw [List.sum_eq_foldr, List.foldr_map]
  rfl

/-- What comes in at a module is what others refer to it with, its referrers are those others in
order, each triple counts as one edge, and every reference is resolved or on record as unresolved. -/
theorem indexes_agree (reader : Extractor) (tree : SourceTree) (aliases : List Alias)
    (extensions : List String)
    (distinct : tree.modules.Pairwise fun a b => a.path.same b.path = false) :
    (build tree (extractAll reader.extract tree.modules) aliases extensions).Agrees tree.modules := by
  change (ofTree reader tree aliases extensions).Agrees tree.modules
  have counted : (ofTree reader tree aliases extensions).stats.references =
      ((ofTree reader tree aliases extensions).allReferences tree.modules).length := by
    rw [← (forward_perm distinct reader aliases extensions).length_eq, List.length_flatMap,
      stats_references, Table.values, List.map_map]
    rfl
  have unresolved := unresolved_perm distinct reader aliases extensions
  constructor
  · exact fun p member kind => incoming_iff distinct reader aliases extensions member kind
  · exact fun p member => Keys.ascending _
  · exact fun p member => mem_referrersOf distinct reader aliases extensions member
  · have edges : {e : Edge | (∃ m ∈ tree.modules, m.path = e.source) ∧
        (∃ m ∈ tree.modules, m.path = e.target) ∧
        (ofTree reader tree aliases extensions).Refers e.source e.target e.kind} =
          ↑(ofTree reader tree aliases extensions).edges.toFinset := by
      ext e
      rw [List.coe_toFinset]
      exact (mem_edges distinct reader aliases extensions).symm
    have nodup : (ofTree reader tree aliases extensions).edges.Nodup := by
      rw [edges_ofTree distinct]
      exact Edge.distinct_nodup _
    rw [edges, Set.ncard_coe_finset, List.toFinset_card_of_nodup nodup]
    rfl
  · exact counted
  · rw [counted, length_resolved, ← unresolved.length_eq, ← List.countP_eq_length_filter]
    rfl
  · exact unresolved

/-- Of two modules, one refers to the other twice, to itself and to a file that is missing. -/
def couple : SourceTree where
  root := ⟨"/project"⟩
  modules := [
    { path := ⟨"a.ts"⟩,
      content := "import b from './b';\nimport './b';\nimport './a';\nimport './c';\n",
      size := 63 },
    { path := ⟨"b.ts"⟩, content := "export const b = 1;\n", size := 20 }]
  files := .ofList [⟨"a.ts"⟩, ⟨"b.ts"⟩]

theorem indexes_agree_couple :
    let g := build couple (extractAll Backend.lexical.extract couple.modules) [] [".ts"]
    couple.modules.Pairwise (fun a b => a.path.same b.path = false) ∧ g.Agrees couple.modules ∧
      g.referrersOf ⟨"b.ts"⟩ = [⟨"a.ts"⟩] ∧ g.referrersOf ⟨"a.ts"⟩ = [] ∧
      g.stats.edges = 1 ∧ g.stats.references = 4 ∧ g.stats.unresolved = 1 := by
  intro g
  have distinct : couple.modules.Pairwise fun a b => a.path.same b.path = false := by decide
  let lines : List Line :=
    [.refers ⟨.plain "b", "./b"⟩, .refers ⟨.bare, "./b"⟩, .refers ⟨.bare, "./a"⟩,
      .refers ⟨.bare, "./c"⟩]
  have first : Lexical.extract ⟨"a.ts"⟩ (String.ofList (programText lines)) =
    programExtraction ⟨"a.ts"⟩ lines :=
    extract_program (by decide) _
  have second : Lexical.extract ⟨"b.ts"⟩ (String.ofList (programText [.declares "b"])) =
      programExtraction ⟨"b.ts"⟩ [.declares "b"] := extract_program (by decide) _
  have read : extractAll Backend.lexical.extract couple.modules =
      [programExtraction ⟨"a.ts"⟩ lines, programExtraction ⟨"b.ts"⟩ [.declares "b"]] := by
    rw [← first, ← second]
    exact List.mergeSort_of_pairwise (by decide)
  have agrees := indexes_agree Backend.lexical.extractor couple [] [".ts"] distinct
  have shape : g = build couple [programExtraction ⟨"a.ts"⟩ lines,
      programExtraction ⟨"b.ts"⟩ [.declares "b"]]
      [] [".ts"] := congrArg (build couple · [] [".ts"]) read
  refine ⟨distinct, agrees, ?_⟩
  rw [shape]
  decide +kernel

end Graph

end Relocation
