import Relocation.Proofs.Rules.Consistency

/-!
# Rules keep meaning

After a plan has run, each reference, with the token that the rules put in its place, names the same
file as before, at the place where that file is now.
-/

namespace Relocation

open SpecifierStyle

/-- The path is made of names, none of which starts with two dots. -/
def Path.IsTame (p : Path) : Prop :=
  ∃ names, p.Spells names ∧ ∀ name ∈ names, ¬ ['.', '.'] <+: name.toList

theorem Path.IsTame.congr {p q : Path} (tame : p.IsTame) (same : p.components = q.components) :
    q.IsTame := by
  obtain ⟨names, spelt, undotted⟩ := tame
  exact ⟨names, same.symm.trans spelt, undotted⟩

theorem Path.IsTame.undotted {p : Path} {names : List String} (tame : p.IsTame)
    (spelt : p.Spells names) : ∀ name ∈ names, ¬ ['.', '.'] <+: name.toList := by
  obtain ⟨others, spelt', undotted⟩ := tame
  rwa [spelt.unique spelt']

/-- The resolver of the tree that a plan leads to. -/
def Resolver.after (r : Resolver) (plan : MovePlan) : Resolver :=
  { r with
    modules := r.modules.map fun m => { m with path := plan.finalPath m.path }
    files := r.files.map plan.finalPath }

/-- What the paths, aliases and extensions of a graph must be like for references to be told apart,
before and after a plan. Modules are files and need no condition of their own. -/
structure Graph.Orderly (g : Graph) (plan : MovePlan) : Prop where
  files : ∀ p ∈ g.files, p.IsTame
  targets : ∀ move ∈ plan.moves, move.target.IsTame
  aliases : Alias.Clear g.aliases
  extensions : ∀ ext ∈ g.extensions, IsExtension ext
  single : Resolver.Unambiguous (g.files.map plan.finalPath) g.extensions
  /-- No alias reference comes to name the directory of an alias. -/
  inner : ∀ n ∈ g.nodes, ∀ found ∈ g.referencesFrom n.path, found.reference.kind.hasPath = true →
    found.reference.computed = false → g.resolver.form found.reference.specifier = .alias →
    ∀ target base style,
      (g.resolver.resolvePath n.path found.reference.specifier).target? = some target →
      g.resolver.basePath? n.path found.reference.specifier = some base →
      detect? base target g.extensions = some style →
      ∀ a ∈ g.aliases, (style.render (plan.finalPath target)).same a.dir = false

theorem Graph.Orderly.flat {g : Graph} {plan : MovePlan} (orderly : g.Orderly plan) :
    ∀ ext ∈ g.resolver.extensions, '/' ∉ ext.toList := fun ext known =>
      (orderly.extensions ext known).flat

namespace Resolver

variable {r : Resolver} {plan : MovePlan}

theorem hasFile_after {p : Path} (there : r.hasFile p = true) :
    (r.after plan).hasFile (plan.finalPath p) = true := by
  obtain ⟨f, file, same⟩ := List.any_eq_true.mp there
  refine List.any_eq_true.mpr ⟨plan.finalPath f, List.mem_map.mpr ⟨f, file, rfl⟩, ?_⟩
  exact Path.same_iff.mpr (MovePlan.finalPath_congr (Path.same_iff.mp same))

theorem hasModule_after {p : Path} (there : r.hasModule p = true) :
    (r.after plan).hasModule (plan.finalPath p) = true := by
  obtain ⟨m, module, same⟩ := List.any_eq_true.mp there
  refine List.any_eq_true.mpr ⟨_, List.mem_map.mpr ⟨m, module, rfl⟩, ?_⟩
  exact Path.same_iff.mpr (MovePlan.finalPath_congr (Path.same_iff.mp same))

theorem offers_after {style : SpecifierStyle} {p : Path} (offers : r.Offers style p) :
    (r.after plan).Offers style (plan.finalPath p) :=
  offers.imp hasModule_after fun named => ⟨named.1, hasFile_after named.2⟩

theorem listed_after (listed : ∀ m ∈ r.modules, r.hasFile m.path = true) (p : Path)
    (there : (r.after plan).hasModule p = true) : (r.after plan).hasFile p = true := by
  obtain ⟨m, moved, same⟩ := List.any_eq_true.mp there
  obtain ⟨m, module, rfl⟩ := List.mem_map.mp moved
  rw [← hasFile_congr (Path.same_iff.mp same)]
  exact hasFile_after (listed m module)

end Resolver

namespace Rules

variable {plan : MovePlan} {g : Graph} {candidates : List Candidate}

variable {origin : g.Origin} (complete : origin.Complete) (orderly : g.Orderly plan)

include complete orderly in
theorem tame_of_offers {style : SpecifierStyle} {p : Path} (offers : g.resolver.Offers style p) :
    p.IsTame := by
  have file : g.resolver.hasFile p = true := by
    rcases offers with module | ⟨_, file⟩
    · obtain ⟨m, listed, same⟩ := List.any_eq_true.mp module
      obtain ⟨n, node, rfl⟩ := List.mem_map.mp listed
      rw [← Resolver.hasFile_congr (Path.same_iff.mp same)]
      exact origin.listed complete node
    · exact file
  obtain ⟨f, listed, same⟩ := List.any_eq_true.mp file
  exact (orderly.files f listed).congr (Path.same_iff.mp same)

include orderly in
theorem tame_final {p : Path} (tame : p.IsTame) : (plan.finalPath p).IsTame := by
  unfold MovePlan.finalPath
  cases destined : plan.destination? p with
  | none => exact tame
  | some target =>
    obtain ⟨move, member, _, rfl⟩ := MovePlan.destination?_some destined
    exact orderly.targets move member

include complete orderly in
theorem resolves_after {style : SpecifierStyle} {p referrer : Path} {base moved : List String}
    {token : String} (valid : ∀ name ∈ base, Path.IsName name)
    (proper : ∀ name ∈ moved, Path.IsName name) (final : plan.finalPath p = Path.plain moved)
    (links : Links g.extensions style base moved) (offers : g.resolver.Offers style p)
    (read : (g.resolver.after plan).basePath? referrer token = some (Path.tidy base)) :
    (g.resolver.after plan).resolvePath referrer token = .resolved [plan.finalPath p] := by
  have there : (g.resolver.after plan).Offers style (Path.plain moved) :=
    final ▸ Resolver.offers_after offers
  have listed : ∀ m ∈ g.resolver.modules, g.resolver.hasFile m.path = true := by
    intro m module
    obtain ⟨n, node, rfl⟩ := List.mem_map.mp module
    exact origin.listed complete node
  rw [final]
  exact Resolver.resolvePath_of_probe valid read (Resolver.probe?_only orderly.flat valid proper
    (Resolver.listed_after listed) orderly.single links there)

include complete orderly in
/-- The token that is wanted for a reference names, in the tree that the plan leads to, what the
reference named before. -/
theorem wanted_resolves (sound : plan.Sound candidates g.files) {referrer target : Path}
    {token : String} {names : List String} (spelt : referrer.Spells names)
    (resolved : g.resolver.resolvePath referrer token = .resolved [target])
    (inner : g.resolver.form token = .alias →
      ∀ base style, g.resolver.basePath? referrer token = some base →
      detect? base target g.extensions = some style →
      ∀ a ∈ g.aliases, (style.render (plan.finalPath target)).same a.dir = false) :
    (g.resolver.after plan).resolvePath (plan.finalPath referrer)
      (((wanted? plan g referrer token).map (·.new)).getD token) =
        .resolved [plan.finalPath target] := by
  obtain ⟨base, valid, read, probed⟩ := Resolver.resolvePath_resolved resolved
  obtain ⟨style, own, rfl, proper, links, offers⟩ := Resolver.probe?_links orderly.flat valid probed
  have detected := detect?_links orderly.extensions valid proper links
  obtain ⟨moved, final, movedValid, named⟩ := sound.finalPath_plain proper
  have spelling : (plan.finalPath (Path.plain own)).Spells moved :=
    final ▸ Path.spells_plain movedValid
  obtain ⟨base', links', rendered, parts⟩ := render_links valid links spelling named
  have undotted : ∀ name ∈ base', ¬ ['.', '.'] <+: name.toList := by
    intro name member dots
    obtain ⟨whole, inside, front⟩ := parts name member
    exact (tame_final orderly (tame_of_offers complete orderly offers)).undotted spelling whole
      inside (dots.trans front)
  obtain ⟨place, located⟩ := sound.finalPath_spells spelt
  -- The token stays, and so does what it names.
  have kept : plan.isMoved (Path.plain own) = false →
      (g.resolver.after plan).basePath? (plan.finalPath referrer) token = some (Path.tidy base) →
      (g.resolver.after plan).resolvePath (plan.finalPath referrer) token = .resolved
        [plan.finalPath (Path.plain own)] := by
    intro stays read
    have same := MovePlan.finalPath_of_stays stays
    exact resolves_after complete orderly valid proper same links offers read
  have relative := resolves_after complete orderly rendered.isName movedValid final links' offers
    (basePath?_relative (g.resolver.after plan) located rendered undotted)
  unfold wanted?
  rw [Resolver.target?_eq_some.mpr resolved, read]
  simp only [detected]
  split
  · rename_i unmoved
    simp only [Bool.and_eq_true, Bool.not_eq_true'] at unmoved
    refine kept unmoved.1 ?_
    rw [MovePlan.finalPath_of_stays unmoved.2]
    exact read
  · match form : g.resolver.form token with
    | .relative =>
      simp only [Option.map_some, Option.getD_some]
      exact relative
    | .bare =>
      rw [Resolver.basePath?_of_bare form] at read
      cases read
    | .alias =>
      simp only
      split
      · cases written : aliasSpecifier? g.aliases (style.render (plan.finalPath (Path.plain own))) with
        | none =>
          simp only [Option.map_some, Option.getD_some]
          exact relative
        | some new =>
          obtain ⟨_, ⟨⟨a, known, same⟩, _⟩ | ⟨_, back⟩⟩ :=
            Alias.Clear.aliasSpecifier?_reads (r := g.resolver) orderly.aliases rendered written
          · rw [inner form _ style read detected a known] at same
            cases same
          · simp only [Option.map_some, Option.getD_some]
            exact resolves_after complete orderly rendered.isName movedValid final links'
              offers (back _)
      · rename_i stays
        simp only [Option.map_none, Option.getD_none]
        refine kept (by simpa using stays) ?_
        exact (Resolver.basePath?_anywhere (r := g.resolver) (Resolver.absolute_of_form form) _
          referrer).trans read

/-- Every reference to a path means the same after a migration: what the rules put in its place
resolves, from where its module is now and in the tree as it is now, to where its target is now. -/
theorem lookup_keeps_meaning (g : Graph) (origin : g.Origin) (complete : origin.Complete)
    (candidates : List Candidate) (policy : Policy) (plan : MovePlan)
    (made : MovePlan.make candidates policy g.files = .ok plan) (rules : Rules)
    (derived : derive plan g = .ok rules) (orderly : g.Orderly plan) (n : Node) (node : n ∈ g.nodes)
    (found : ResolvedReference) (member : found ∈ g.referencesFrom n.path)
    (hasPath : found.reference.kind.hasPath = true)
    (literal : found.reference.computed = false) (target : Path)
    (resolved : g.resolver.resolvePath n.path found.reference.specifier = .resolved [target]) :
    (g.resolver.after plan).resolvePath (plan.finalPath n.path)
      ((rules.lookup n.path found.reference.specifier).getD found.reference.specifier) =
        .resolved [plan.finalPath target] := by
  have sound := MovePlan.sound_of_make made
  obtain ⟨names, spelt, _⟩ : n.path.IsTame := by
    obtain ⟨f, file, same⟩ := List.any_eq_true.mp (origin.listed complete node)
    exact (orderly.files f file).congr (Path.same_iff.mp same)
  have added := derive_requests origin derived
  have shares : ∀ m ∈ plan.moves, ∀ old new, canonical? g.aliases g.resolver m = some (old, new) →
      ∃ p, wanted? plan g p old = some ⟨old, new, .shared⟩ := fun m move old new named =>
    ⟨m.source, wanted?_canonical sound orderly.aliases orderly.flat move named⟩
  rw [lookup_wanted origin shares added node member hasPath literal]
  exact wanted_resolves complete orderly sound spelt resolved fun form base style =>
    orderly.inner n node found member hasPath literal form target base style
      (Resolver.target?_eq_some.mpr resolved)

/-! ### A small graph -/

def pairTree : SourceTree :=
  { root := ⟨"/project"⟩
    modules := [{ path := ⟨"src/a.ts"⟩, content := "import '@/b'", size := 12 },
      { path := ⟨"src/b.ts"⟩, content := "", size := 0 }]
    files := .ofList [⟨"src/a.ts"⟩, ⟨"src/b.ts"⟩] }

def pairReference : Reference :=
  { source := ⟨"src/a.ts"⟩, specifier := "@/b", kind := .static, span := ⟨8, 11⟩, line := 1,
    computed := false }

def pairExtractions : List Extraction :=
  [{ path := ⟨"src/a.ts"⟩, references := [pairReference], exports := {}, unparsable := 0 },
    { path := ⟨"src/b.ts"⟩, references := [], exports := {}, unparsable := 0 }]

def pairGraph : Graph := Graph.build pairTree pairExtractions [⟨"@/", ⟨"src"⟩⟩] [".ts"]

def pairOrigin : pairGraph.Origin := ⟨pairTree, pairExtractions, _, _, rfl, by decide⟩

def pairPlan : MovePlan := ⟨[⟨⟨"src/b.ts"⟩, ⟨"src/lib/deep/b.ts"⟩⟩]⟩

def pairPolicy : Policy := fun p _ => if p = ⟨"src/b.ts"⟩ then some ⟨"src/lib/deep"⟩ else none

def pairRules : Rules := { shared := .single "@/b" "@/lib/deep/b" }

theorem pairGraph_nodes : pairGraph.nodes =
    [⟨⟨"src/a.ts"⟩, 12, true, {}⟩, ⟨⟨"src/b.ts"⟩, 0, true, {}⟩] := by decide

theorem pairGraph_references : pairGraph.referencesFrom ⟨"src/a.ts"⟩ =
      [⟨pairReference, .resolved [⟨"src/b.ts"⟩]⟩] ∧ pairGraph.referencesFrom ⟨"src/b.ts"⟩ = [] := by
  decide +kernel

theorem pairPlan_made :
    MovePlan.make [{ path := ⟨"src/a.ts"⟩ }, { path := ⟨"src/b.ts"⟩ }] pairPolicy pairGraph.files =
      .ok pairPlan := by
  decide +kernel

/-- A base has at most one name less than what it can stand for. -/
theorem candidate_length {base : List String} (valid : ∀ name ∈ base, Path.IsName name) {p : Path}
    (among : (Resolver.candidates [".ts"] (Path.plain base)).any p.same = true) :
    p.components.length = base.length ∨ p.components.length = base.length + 1 := by
  have flat : '/' ∉ ".ts".toList := by decide
  obtain ⟨c, candidate, same⟩ := List.any_eq_true.mp among
  rw [Path.same_iff.mp same]
  simp only [Resolver.candidates, List.map_cons, List.map_nil, List.cons_append, List.nil_append,
    List.mem_cons, List.not_mem_nil, or_false] at candidate
  rcases candidate with rfl | rfl | rfl
  · exact Or.inl (by rw [show (Path.plain base).components = _ from Path.spells_plain valid,
      List.length_map])
  · rcases List.eq_nil_or_concat base with rfl | ⟨front, last, rfl⟩
    · exact Or.inr (by decide)
    · rw [List.concat_eq_append] at valid ⊢
      have longer : ∀ name ∈ front ++ [last ++ ".ts"], Path.IsName name := by
        intro name member
        rcases List.mem_append.mp member with outer | new
        · exact valid name (List.mem_append_left _ outer)
        · rw [List.mem_singleton.mp new]
          exact (valid last (by simp)).append flat
      refine Or.inl ?_
      rw [Path.text_append, show (Path.plain (front ++ [last ++ ".ts"])).components = _
        from Path.spells_plain longer]
      simp
  · have longer : (Path.plain base).join ⟨"index" ++ ".ts"⟩ =
      Path.plain (base ++ ["index" ++ ".ts"]) :=
      Resolver.join_index flat valid
    refine Or.inr ?_
    rw [longer, show (Path.plain (base ++ ["index" ++ ".ts"])).components = _
      from Path.spells_plain ?_]
    · simp
    · intro name member
      rcases List.mem_append.mp member with outer | new
      · exact valid name outer
      · rw [List.mem_singleton.mp new]
        exact Path.index_isName flat

theorem pairGraph_orderly : pairGraph.Orderly pairPlan := by
  have tame : (⟨"src/a.ts"⟩ : Path).IsTame ∧ (⟨"src/b.ts"⟩ : Path).IsTame ∧
    (⟨"src/lib/deep/b.ts"⟩ : Path).IsTame :=
    ⟨⟨["src", "a.ts"], by decide, by decide⟩, ⟨["src", "b.ts"], by decide, by decide⟩,
      ⟨["src", "lib", "deep", "b.ts"], by decide, by decide⟩⟩
  constructor
  · intro p member
    rcases List.mem_cons.mp member with rfl | member
    · exact tame.1
    · rw [List.mem_singleton.mp member]
      exact tame.2.1
  · intro move member
    rw [List.mem_singleton.mp member]
    exact tame.2.2
  · constructor
    · decide
    · decide
    · intro a left b right _
      rw [List.mem_singleton.mp left, List.mem_singleton.mp right]
    · intro a member
      rw [List.mem_singleton.mp member]
      exact ⟨["src"], by decide⟩
  · decide
  · intro base valid p left q right among among'
    have files : pairGraph.files.map pairPlan.finalPath =
      [⟨"src/a.ts"⟩, ⟨"src/lib/deep/b.ts"⟩] := by decide +kernel
    rw [files] at left right
    have lengths : (⟨"src/a.ts"⟩ : Path).components.length = 2 ∧
        (⟨"src/lib/deep/b.ts"⟩ : Path).components.length = 4 := by decide
    have first := candidate_length valid among
    have second := candidate_length valid among'
    simp only [List.mem_cons, List.not_mem_nil, or_false] at left right
    rcases left with rfl | rfl <;> rcases right with rfl | rfl
    · exact Path.same_iff.mpr rfl
    · omega
    · omega
    · exact Path.same_iff.mpr rfl
  · intro n node found member _ _ _ target base style resolved read detected a known
    rw [pairGraph_nodes] at node
    rw [List.mem_singleton.mp known]
    rcases List.mem_cons.mp node with rfl | node
    · rw [pairGraph_references.1, List.mem_singleton] at member
      subst member
      have answer : (pairGraph.resolver.resolvePath ⟨"src/a.ts"⟩ pairReference.specifier).target? =
          some ⟨"src/b.ts"⟩ ∧
          pairGraph.resolver.basePath? ⟨"src/a.ts"⟩ pairReference.specifier = some ⟨"src/b"⟩ := by
        decide +kernel
      obtain rfl := Option.some.inj (answer.1.symm.trans resolved)
      obtain rfl := Option.some.inj (answer.2.symm.trans read)
      have style' : detect? ⟨"src/b"⟩ ⟨"src/b.ts"⟩ [".ts"] = some (.extensionless ".ts") := by decide
      obtain rfl := Option.some.inj (style'.symm.trans detected)
      decide +kernel
    · rw [List.mem_singleton.mp node, pairGraph_references.2] at member
      cases member

/-- The reference by alias follows the module that moves. -/
theorem lookup_keeps_meaning_pair :
    derive pairPlan pairGraph = .ok pairRules ∧ pairGraph.Orderly pairPlan ∧
      (pairGraph.resolver.after pairPlan).resolvePath (pairPlan.finalPath ⟨"src/a.ts"⟩)
        ((pairRules.lookup ⟨"src/a.ts"⟩ "@/b").getD "@/b") =
          .resolved [pairPlan.finalPath ⟨"src/b.ts"⟩] := by
  have derived : derive pairPlan pairGraph = .ok pairRules := by decide +kernel
  refine ⟨derived, pairGraph_orderly, ?_⟩
  exact lookup_keeps_meaning pairGraph pairOrigin (by decide) _ pairPolicy pairPlan pairPlan_made
    pairRules derived pairGraph_orderly ⟨⟨"src/a.ts"⟩, 12, true, {}⟩
    (by rw [pairGraph_nodes]; exact List.mem_cons_self) ⟨pairReference, .resolved [⟨"src/b.ts"⟩]⟩
    (by rw [pairGraph_references.1]; exact List.mem_cons_self) rfl rfl ⟨"src/b.ts"⟩ (by decide +kernel)

end Rules

end Relocation
