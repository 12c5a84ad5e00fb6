import Relocation.Proofs.Plan
import Relocation.Proofs.Rules.Derivation

/-!
# What rules leave alone

A shared rule holds in every module, so its token must not mean anything else anywhere. Tokens that
are replaced name a module that moves, from wherever they stand (`resolvePath_canonical`), and a
reference that keeps its meaning has no rule (`lookup_unaffected`).
-/

namespace Relocation

theorem MovePlan.Sound.isMoved {plan : MovePlan} {candidates : List Candidate} {existing : List Path}
    (sound : plan.Sound candidates existing) {m : Move} (member : m ∈ plan.moves) {p : Path}
    (same : m.source.components = p.components) : plan.isMoved p = true := by
  rw [MovePlan.isMoved, sound.destination?_eq member same]
  rfl

namespace Rules

variable {plan : MovePlan} {g : Graph} {rules : Rules}

theorem canonical?_cases {aliases : List Alias} {resolver : Resolver} {m : Move} {old new : String}
    (named : canonical? aliases resolver m = some (old, new)) :
    aliasSpecifier? aliases m.source.withoutExtension = some old ∧
      aliasSpecifier? aliases m.target.withoutExtension = some new ∧
      ∃ p : Path, resolver.resolvePath m.source old = .resolved [p] ∧ p.same m.source = true := by
  unfold canonical? at named
  split at named
  · rename_i before after spelt spelt'
    split at named
    · rename_i p answer
      split at named
      · rename_i same
        cases named
        exact ⟨spelt, spelt', p, Resolver.target?_eq_some.mp answer, same⟩
      · cases named
    · cases named
  · cases named

/-- The name that a module has by its alias stands for it everywhere. -/
theorem resolvePath_canonical (undotted : ∀ a ∈ g.aliases, a.lead.toList.head? ≠ some '.')
    {m : Move} {old new : String} (named : canonical? g.aliases g.resolver m = some (old, new)) :
    ∃ p : Path, p.same m.source = true ∧ ∀ q, g.resolver.resolvePath q old = .resolved [p] := by
  obtain ⟨spelt, _, p, answer, same⟩ := canonical?_cases named
  have written := aliasSpecifier?_not_relative undotted spelt
  refine ⟨p, same, fun q => ?_⟩
  rw [Resolver.resolvePath_congr (Resolver.basePath?_anywhere written q m.source)]
  exact answer

/-! ### References that want no rule -/

theorem wanted?_unresolved {referrer : Path} {token : String} {reason : Unresolved}
    (answer : g.resolver.resolvePath referrer token = .unresolved reason) :
    wanted? plan g referrer token = none := by
  unfold wanted?
  rw [answer]
  rfl

theorem wanted?_unmoved {referrer target : Path} {token : String}
    (answer : g.resolver.resolvePath referrer token = .resolved [target])
    (stays : plan.isMoved target = false) (free : plan.isMoved referrer = false ∨
      g.resolver.form token = .alias) : wanted? plan g referrer token = none := by
  cases wanted : wanted? plan g referrer token with
  | none => rfl
  | some rule =>
    unfold wanted? at wanted
    rw [answer] at wanted
    split at wanted
    · rename_i other base found _
      obtain rfl : target = other := Option.some.inj found
      split at wanted
      · cases wanted
      · rename_i moves
        split at wanted
        · cases wanted
        · rcases free with still | form
          · simp [stays, still] at moves
          · simp only [form, stays] at wanted
            cases wanted
    · cases wanted

section
variable (added : (requests plan g).foldlM add {} = .ok rules)
  (origin : g.Origin)
  {candidates : List Candidate} {existing : List Path} (sound : plan.Sound candidates existing)
  (undotted : ∀ a ∈ g.aliases, a.lead.toList.head? ≠ some '.')
  {n : Node} (node : n ∈ g.nodes) {token : String} (unwanted : wanted? plan g n.path token = none)
include added unwanted

include sound undotted in
/-- A shared rule that a module did not want is the canonical one for what the token names there. -/
theorem find?_shared_moved {new : String} (held : (rules.table .shared).find? token = some new) :
    ∃ p, g.resolver.resolvePath n.path token = .resolved [p] ∧ plan.isMoved p = true := by
  rcases (find?_addAll added _ _ _).mp held with empty | ⟨⟨old, new, scope⟩, asked, same, rfl, rfl, _⟩
  · cases empty
  · rcases mem_requests asked with ⟨m, move, named, _⟩ | ⟨other, _, wanted⟩
    · obtain ⟨p, same, everywhere⟩ := resolvePath_canonical undotted named
      exact ⟨p, everywhere n.path, sound.isMoved move (Path.same_iff.mp same).symm⟩
    · cases scope with
      | shared => cases unwanted.symm.trans (wanted?_anywhere wanted n.path)
      | referrer p => exact same.elim

include origin node in
theorem find?_own_none : (rules.table (.referrer n.path)).find? token = none := by
  have requested : ∀ rule, wanted? plan g n.path token = some rule → rule ∈ requests plan g := by
    intro rule wanted
    cases unwanted.symm.trans wanted
  refine Option.eq_none_iff_forall_ne_some.mpr fun new held => ?_
  cases unwanted.symm.trans ((find?_own added requested origin node new).mp held).1

end

/-- A reference that was not resolved has no rule, nor has one to a module that stays, if its own
module stays as well or the reference is by alias. -/
theorem lookup_unaffected (g : Graph) (origin : g.Origin)
    (undotted : ∀ a ∈ g.aliases, a.lead.toList.head? ≠ some '.')
    (candidates : List Candidate) (policy : Policy) (existing : List Path) (plan : MovePlan)
    (made : MovePlan.make candidates policy existing = .ok plan) (rules : Rules)
    (derived : derive plan g = .ok rules) (n : Node) (node : n ∈ g.nodes)
    (found : ResolvedReference) (member : found ∈ g.referencesFrom n.path)
    (hasPath : found.reference.kind.hasPath = true) (literal : found.reference.computed = false)
    (settled : (∃ reason, found.resolution = .unresolved reason) ∨
      ∃ target, found.resolution = .resolved [target] ∧ plan.isMoved target = false ∧
        (plan.isMoved n.path = false ∨ g.resolver.form found.reference.specifier = .alias)) :
    rules.lookup n.path found.reference.specifier = none := by
  have sound := MovePlan.sound_of_make made
  have added := derive_requests origin derived
  have answer := origin.resolved member hasPath literal
  have unwanted : wanted? plan g n.path found.reference.specifier = none := by
    rcases settled with ⟨reason, unresolved⟩ | ⟨target, resolved, stays, free⟩
    · exact wanted?_unresolved (answer.symm.trans unresolved)
    · exact wanted?_unmoved (answer.symm.trans resolved) stays free
  have shared : (rules.table .shared).find? found.reference.specifier = none := by
    refine Option.eq_none_iff_forall_ne_some.mpr fun new held => ?_
    obtain ⟨p, there, moved⟩ := find?_shared_moved added sound undotted unwanted held
    rcases settled with ⟨reason, unresolved⟩ | ⟨target, resolved, stays, _⟩
    · cases there.symm.trans (answer.symm.trans unresolved)
    · cases there.symm.trans (answer.symm.trans resolved)
      rw [stays] at moved
      cases moved
  have own := find?_own_none added origin node unwanted
  exact Option.or_eq_none_iff.mpr ⟨own, shared⟩

def fanTree : SourceTree :=
  { root := ⟨"/project"⟩
    modules := [
      { path := ⟨"src/a.ts"⟩, content := "import '@/b'\nimport './b'\nimport 'react'", size := 41 },
      { path := ⟨"src/b.ts"⟩, content := "", size := 0 }]
    files := .ofList [⟨"src/a.ts"⟩, ⟨"src/b.ts"⟩] }

def fanReference (specifier : String) (start line : Nat) : Reference :=
  { source := ⟨"src/a.ts"⟩, specifier, kind := .static, span := ⟨start, start + specifier.length⟩, line
    computed := false }

def fanExtractions : List Extraction :=
  [{ path := ⟨"src/a.ts"⟩, exports := {}, unparsable := 0
     references := [fanReference "@/b" 8 1, fanReference "./b" 21 2, fanReference "react" 34 3] },
    { path := ⟨"src/b.ts"⟩, references := [], exports := {}, unparsable := 0 }]

def fanGraph : Graph := Graph.build fanTree fanExtractions [⟨"@/", ⟨"src"⟩⟩] [".ts"]

def fanOrigin : fanGraph.Origin := ⟨fanTree, fanExtractions, _, _, rfl, by decide⟩

def fanPolicy : Policy := fun p _ => if p = ⟨"src/a.ts"⟩ then some ⟨"src/lib"⟩ else none

/-- The module that refers moves away. Only its relative reference has a rule. -/
theorem lookup_unaffected_fan :
    let plan : MovePlan := ⟨[⟨⟨"src/a.ts"⟩, ⟨"src/lib/a.ts"⟩⟩]⟩
    let rules : Rules := ⟨.single "@/a" "@/lib/a", .single ⟨"src/a.ts"⟩ (.single "./b" "../b")⟩
    derive plan fanGraph = .ok rules ∧ rules.lookup ⟨"src/a.ts"⟩ "@/b" = none ∧
      rules.lookup ⟨"src/a.ts"⟩ "react" = none := by
  intro plan rules
  have derived : derive plan fanGraph = .ok rules := by decide +kernel
  have made : MovePlan.make [{ path := ⟨"src/a.ts"⟩ }, { path := ⟨"src/b.ts"⟩ }] fanPolicy
      fanGraph.files = .ok plan := by
    decide +kernel
  have recorded : fanGraph.referencesFrom ⟨"src/a.ts"⟩ =
      [⟨fanReference "@/b" 8 1, .resolved [⟨"src/b.ts"⟩]⟩,
        ⟨fanReference "./b" 21 2, .resolved [⟨"src/b.ts"⟩]⟩,
        ⟨fanReference "react" 34 3, .unresolved .external⟩] := by decide +kernel
  have frame := lookup_unaffected fanGraph fanOrigin (by decide) _ fanPolicy _ plan made rules derived
    ⟨⟨"src/a.ts"⟩, 41, true, {}⟩ (by decide)
  refine ⟨derived, ?_, ?_⟩
  · exact frame _ (by rw [recorded]; exact List.mem_cons_self) rfl rfl
      (Or.inr ⟨⟨"src/b.ts"⟩, rfl, by decide +kernel, Or.inr (by decide +kernel)⟩)
  · exact frame ⟨fanReference "react" 34 3, .unresolved .external⟩ (by rw [recorded]; simp) rfl rfl
      (Or.inl ⟨_, rfl⟩)

end Rules

end Relocation
