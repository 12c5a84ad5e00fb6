import Relocation.Proofs.Rules.Affected
import Relocation.Proofs.Rules.Meaning

/-!
# Markup names after a plan

A markup name stands for every other module that goes by it or exports it. Moving keeps file names
apart from one another, so a name stands for the same modules as before, wherever they are now, if
index modules, which go by the name of their directory, keep that name too.
-/

namespace Relocation

/-- The name of a module hangs on its file name and, for an index module, on its directory. -/
theorem Path.moduleName?_congr {p q : Path} (file : p.fileName? = q.fileName?)
    (directory : q.stem? = some "index" → p.directory.fileName? = q.directory.fileName?) :
    p.moduleName? = q.moduleName? := by
  have parent : ∀ path : Path, path.parent?.bind fileName? = path.directory.fileName? := by
    intro path
    unfold Path.directory
    cases path.parent? with
    | none => decide
    | some _ => rfl
  have stem : p.stem? = q.stem? := by rw [Path.stem?, Path.stem?, file]
  unfold moduleName?
  rw [stem, parent, parent]
  split
  · rfl
  · rename_i index
    exact directory index
  · rfl

namespace MovePlan

def KeepsIndexNames (plan : MovePlan) : Prop :=
  ∀ move ∈ plan.moves, move.source.stem? = some "index" →
    move.target.directory.fileName? = move.source.directory.fileName?

instance (plan : MovePlan) : Decidable plan.KeepsIndexNames :=
  inferInstanceAs (Decidable (∀ move ∈ plan.moves, _))

variable {plan : MovePlan} {candidates : List Candidate} {existing : List Path}

theorem Sound.finalPath_inj (sound : plan.Sound candidates existing) {p q : Path}
    (left : ∃ f ∈ existing, f.same p = true) (right : ∃ f ∈ existing, f.same q = true)
    (same : (plan.finalPath p).components = (plan.finalPath q).components) :
    p.components = q.components := by
  have apart : ∀ {p : Path}, (∃ f ∈ existing, f.same p = true) → ∀ move ∈ plan.moves,
      move.target.components ≠ p.components := by
    rintro p ⟨f, file, here⟩ move member taken
    have free := sound.fresh move member f file
    rw [← Bool.not_eq_true, Path.same_iff] at free
    exact free ((Path.same_iff.mp here).trans taken.symm)
  rcases finalPath_cases plan p with stays | ⟨a, first, source, moved⟩
  · rcases finalPath_cases plan q with stays' | ⟨b, second, source', moved'⟩
    · rwa [stays, stays'] at same
    · rw [stays, moved'] at same
      exact (apart left b second same.symm).elim
  · rcases finalPath_cases plan q with stays' | ⟨b, second, source', moved'⟩
    · rw [moved, stays'] at same
      exact (apart right a first same).elim
    · rw [moved, moved'] at same
      rw [← source, ← source', sound.target_inj first second same]

theorem Sound.moduleName?_finalPath (sound : plan.Sound candidates existing)
    (keeps : plan.KeepsIndexNames) (p : Path) : (plan.finalPath p).moduleName? = p.moduleName? := by
  refine Path.moduleName?_congr (sound.fileName?_finalPath p) fun index => ?_
  rcases finalPath_cases plan p with stays | ⟨move, member, source, moved⟩
  · rw [stays]
  · have stem : move.source.stem? = some "index" := by
      rw [← index, Path.stem?, Path.stem?, Path.fileName?, Path.fileName?, source]
    rw [moved, keeps move member stem, Path.fileName?, Path.fileName?, Path.components_directory,
      Path.components_directory, source]

end MovePlan

namespace Resolver

variable {r : Resolver} {source : Path} {ident : String}

theorem answersTo_congr {a b : Exporter} (name : a.path.moduleName? = b.path.moduleName?)
    (exports : a.exports = b.exports) (ident : String) : answersTo a ident = answersTo b ident := by
  unfold answersTo
  rw [name, exports]

theorem resolve_computed {ref : Reference} (computed : ref.computed = true) :
    r.resolve ref = .unresolved .computed := by
  rw [resolve, if_pos computed]

theorem resolve_structural {ref : Reference} (plain : ref.computed = false)
    (structural : ref.kind = .structural) : r.resolve ref =
      r.resolveName ref.source ref.specifier := by
  rw [resolve, plain, structural]
  rfl

theorem targets_resolveName : (r.resolveName source ident).targets =
    (r.modules.filter fun m => !m.path.same source && answersTo m ident).map (·.path) := by
  unfold resolveName
  split
  · rename_i none
    exact none.symm
  · rfl

theorem resolveName_eq_unresolved_iff {reason : Unresolved} :
    r.resolveName source ident = .unresolved reason ↔
    reason = .noExportMatch ∧ (r.resolveName source ident).targets = [] := by
  rw [targets_resolveName]
  unfold resolveName
  split
  · rename_i none
    simp [none, eq_comm]
  · rename_i filled
    refine iff_of_false (fun same => ?_) fun none => filled none.2
    cases same

theorem resolveName_congr {p q : Path} (same : p.components = q.components) (ident : String) :
    r.resolveName p ident = r.resolveName q ident := by
  unfold resolveName Path.same
  rw [same]

/-- A name stands afterwards, for the module that uses it, for the same modules at their new paths. -/
theorem resolveName_after {plan : MovePlan} {candidates : List Candidate} {existing : List Path}
    (sound : plan.Sound candidates existing) (keeps : plan.KeepsIndexNames)
    (listed : ∀ m ∈ r.modules, ∃ f ∈ existing, f.same m.path = true)
    (user : ∃ f ∈ existing, f.same source = true)
    {after : Resolver} (moved : after.modules.Perm (r.after plan).modules) (ident : String) :
    (after.resolveName (plan.finalPath source) ident).targets.Perm
      ((r.resolveName source ident).targets.map plan.finalPath) := by
  have chosen : ∀ m ∈ r.modules,
      (!(plan.finalPath m.path).same (plan.finalPath source) &&
        answersTo { m with path := plan.finalPath m.path } ident) = (!m.path.same source &&
          answersTo m ident) := by
    intro m member
    have others : (plan.finalPath m.path).same (plan.finalPath source) = m.path.same source := by
      rw [Bool.eq_iff_iff, Path.same_iff, Path.same_iff]
      exact ⟨sound.finalPath_inj (listed m member) user, MovePlan.finalPath_congr⟩
    have name := answersTo_congr (a := { m with path := plan.finalPath m.path }) (b := m)
      (sound.moduleName?_finalPath keeps m.path) rfl ident
    rw [others, name]
  rw [targets_resolveName, targets_resolveName]
  refine ((moved.filter _).map _).trans ?_
  have same := List.filter_congr chosen
  unfold Resolver.after
  rw [List.filter_map, List.map_map, List.map_map, ← same]
  exact List.Perm.refl _

end Resolver

namespace Graph

/-- Every markup name means the same after a migration: in the modules as they are now, in whatever
order they are listed, it stands for where the modules that it stood for are now, and it stands for
none if it stood for none. -/
theorem structural_follows (g : Graph) (origin : g.Origin) (complete : origin.Complete)
    (candidates : List Candidate) (policy : Policy) (plan : MovePlan)
    (made : MovePlan.make candidates policy g.files = .ok plan) (keeps : plan.KeepsIndexNames)
    (after : Resolver) (moved : after.modules.Perm (g.resolver.after plan).modules) (n : Node)
    (node : n ∈ g.nodes) (found : ResolvedReference) (member : found ∈ g.referencesFrom n.path)
    (structural : found.reference.kind = .structural) :
    let again := after.resolve { found.reference with source := plan.finalPath n.path }
    again.targets.Perm (found.resolution.targets.map plan.finalPath) ∧
      ∀ reason, again = .unresolved reason ↔ found.resolution = .unresolved reason := by
  intro again
  have listed : ∀ n ∈ g.nodes, ∃ f ∈ g.files, f.same n.path = true := fun n node =>
    List.any_eq_true.mp (origin.listed complete node)
  obtain ⟨answer, same⟩ := origin.recorded member
  rw [answer]
  cases computed : found.reference.computed with
  | true =>
    have later : again = .unresolved .computed := Resolver.resolve_computed computed
    rw [later, Resolver.resolve_computed computed]
    exact ⟨List.Perm.refl _, fun _ => Iff.rfl⟩
  | false =>
    have before : g.resolver.resolve found.reference =
        g.resolver.resolveName n.path found.reference.specifier := by
      rw [Resolver.resolve_structural computed structural, Resolver.resolveName_congr same]
    have later : again = after.resolveName (plan.finalPath n.path) found.reference.specifier :=
      Resolver.resolve_structural computed structural
    have known : ∀ m ∈ g.resolver.modules, ∃ f ∈ g.resolver.files, f.same m.path = true := by
      intro m module
      obtain ⟨other, inside, rfl⟩ := List.mem_map.mp module
      exact listed other inside
    have targets := Resolver.resolveName_after (MovePlan.sound_of_make made) keeps known
      (listed n node) moved found.reference.specifier
    simp only [before, later]
    refine ⟨targets, fun reason => ?_⟩
    rw [Resolver.resolveName_eq_unresolved_iff, Resolver.resolveName_eq_unresolved_iff,
      ← List.length_eq_zero_iff, targets.length_eq, List.length_map, List.length_eq_zero_iff]

def markupTree : SourceTree :=
  { root := ⟨"/project"⟩
    modules := [⟨"src/Card/index.tsx"⟩, ⟨"src/kit.ts"⟩, ⟨"src/page.tsx"⟩].map fun p =>
      { path := p, content := "", size := 0 }
    files := .ofList [⟨"src/Card/index.tsx"⟩, ⟨"src/kit.ts"⟩, ⟨"src/page.tsx"⟩] }

def markupReference : Reference :=
  { source := ⟨"src/page.tsx"⟩, specifier := "Card", kind := .structural, span := ⟨1, 5⟩, line := 1,
    computed := false }

def markupExtractions : List Extraction :=
  [{ path := ⟨"src/Card/index.tsx"⟩, references := [],
     exports := { hasDefault := true }, unparsable := 0 },
    { path := ⟨"src/kit.ts"⟩, references := [],
      exports := { names := .ofList ["card"] }, unparsable := 0 },
    { path := ⟨"src/page.tsx"⟩, references := [markupReference], exports := {}, unparsable := 0 }]

def markupGraph : Graph := build markupTree markupExtractions [] [".ts", ".tsx"]

def markupOrigin : markupGraph.Origin := ⟨markupTree, markupExtractions, _, _, rfl, by decide⟩

def markupPolicy :
    Policy := fun p _ => if p = ⟨"src/Card/index.tsx"⟩ then some ⟨"ui/Card"⟩ else some ⟨"app"⟩

def markupPlan : MovePlan :=
  ⟨[⟨⟨"src/Card/index.tsx"⟩, ⟨"ui/Card/index.tsx"⟩⟩, ⟨⟨"src/kit.ts"⟩, ⟨"app/kit.ts"⟩⟩,
    ⟨⟨"src/page.tsx"⟩, ⟨"app/page.tsx"⟩⟩]⟩

theorem structural_follows_markup :
    markupGraph.referencesFrom ⟨"src/page.tsx"⟩ =
        [⟨markupReference, .resolved [⟨"src/Card/index.tsx"⟩, ⟨"src/kit.ts"⟩]⟩] ∧
      markupPlan.KeepsIndexNames ∧
      ((markupGraph.resolver.after markupPlan).resolve { markupReference
        with source := ⟨"app/page.tsx"⟩ }).targets.Perm
        [⟨"ui/Card/index.tsx"⟩, ⟨"app/kit.ts"⟩] := by
  have made : MovePlan.make [{ path := ⟨"src/Card/index.tsx"⟩ }, { path := ⟨"src/kit.ts"⟩ },
      { path := ⟨"src/page.tsx"⟩ }] markupPolicy markupGraph.files =
        .ok markupPlan := by decide +kernel
  have keeps : markupPlan.KeepsIndexNames := by decide +kernel
  have nodes : (⟨⟨"src/page.tsx"⟩, 0, true, {}⟩ : Node) ∈ markupGraph.nodes := by decide +kernel
  have references : markupGraph.referencesFrom ⟨"src/page.tsx"⟩ =
      [⟨markupReference, .resolved [⟨"src/Card/index.tsx"⟩, ⟨"src/kit.ts"⟩]⟩] := by decide +kernel
  have follows :=
    (structural_follows markupGraph markupOrigin (by decide) _ markupPolicy markupPlan made keeps
      (markupGraph.resolver.after markupPlan) (List.Perm.refl _) _ nodes _
    (by rw [references]; exact List.mem_cons_self) rfl).1
  have final : markupPlan.finalPath ⟨"src/page.tsx"⟩ = ⟨"app/page.tsx"⟩ ∧
      [⟨"src/Card/index.tsx"⟩, ⟨"src/kit.ts"⟩].map markupPlan.finalPath = [⟨"ui/Card/index.tsx"⟩,
        ⟨"app/kit.ts"⟩] := by
    decide +kernel
  simp only [final.1] at follows
  exact ⟨references, keeps, final.2 ▸ follows⟩

end Graph

end Relocation
