import Relocation.Proofs.Rules.Chaining
import Relocation.Proofs.Rules.Meaning

/-!
# What a shared rule produces

A shared rule is made for one target. `shared_resolves_iff` says when the new token leads to where
that target is after the plan has run: no other path that is tried before it may be there.
-/

namespace Relocation

namespace Rules

open SpecifierStyle

variable {plan : MovePlan} {g : Graph} {rules : Rules} {candidates : List Candidate} {old new : String}

/-- A shared rule is the one for a moved module or one that a reference wants. -/
theorem shared_origin (added : (requests plan g).foldlM add {} = .ok rules)
    (rule : (⟨old, new, .shared⟩ : Rule) ∈ rules.toList) :
    (∃ m ∈ plan.moves, canonical? g.aliases g.resolver m = some (old, new)) ∨
      ∃ referrer, wanted? plan g referrer old = some ⟨old, new, .shared⟩ := by
  have listed : (old, new) ∈ rules.shared.entries := by
    rcases List.mem_append.mp rule with shared | own
    · obtain ⟨entry, member, same⟩ := List.mem_map.mp shared
      cases same
      exact member
    · obtain ⟨entry, _, member⟩ := List.mem_flatMap.mp own
      obtain ⟨_, _, same⟩ := List.mem_map.mp member
      cases same
  have held := Table.find?_of_mem listed
  rcases (find?_addAll added .shared old new).mp held with empty | ⟨⟨_, _, scope⟩, asked, same,
    rfl, rfl, _⟩
  · cases empty
  · rcases mem_requests asked with ⟨m, move, named, _⟩ | ⟨n, _, wanted⟩
    · exact .inl ⟨m, move, named⟩
    · cases scope with
      | shared => exact .inr ⟨n.path, wanted⟩
      | referrer p => exact same.elim

section
variable (sound : plan.Sound candidates g.files) (flat : ∀ ext ∈ g.extensions, '/' ∉ ext.toList)
include sound flat

theorem canonical_links {m : Move} (move : m ∈ plan.moves)
    (named : canonical? g.aliases g.resolver m = some (old, new))
    (left : g.resolver.Legible old) (right : g.resolver.Legible new) {referrer target : Path}
    (resolved : g.resolver.resolvePath referrer old = .resolved [target]) :
    ∃ style base moved, (∀ name ∈ base, Path.IsName name) ∧ plan.finalPath target = Path.plain moved ∧
      Links g.extensions style base moved ∧ g.resolver.Offers style target ∧
      ∀ referrer, g.resolver.basePath? referrer new = some (Path.tidy base) := by
  unfold canonical? at named
  split at named
  · rename_i first second written written'
    split at named
    · rename_i p answer
      obtain ⟨same, equal⟩ := Option.ite_none_right_eq_some.mp named
      cases equal
      obtain ⟨base, valid, read, probed⟩ :=
        Resolver.resolvePath_resolved (Resolver.target?_eq_some.mp answer)
      obtain ⟨style, own, rfl, proper, links, offers⟩ := Resolver.probe?_links flat valid probed
      have source : m.source.Spells own := (Path.spells_plain proper).same_iff.mp same
      have anywhere := left _ (Path.isAbsolute_withoutExtension source.isRelative) written
      rw [anywhere m.source, Option.some.injEq] at read
      -- The old token names the moved module from everywhere.
      have only : Path.plain own = target := by
        rw [Resolver.target?_eq_some, Resolver.resolvePath_congr
          ((anywhere m.source).trans (anywhere referrer).symm), resolved] at answer
        cases answer
        rfl
      obtain ⟨front, name, rfl⟩ := (List.eq_nil_or_concat own).resolve_left links.filled
      rw [List.concat_eq_append] at *
      obtain ⟨place, name', stays, placed, placedValid⟩ := sound.spelt m move
      rw [source.fileName?, List.getLast?_concat] at stays
      obtain rfl := Option.some.inj stays
      have spelt : m.target.Spells (place ++ [name]) := placed ▸ Path.spells_plain placedValid
      obtain ⟨base', short, links'⟩ := withoutExtension_links source spelt valid read links
      refine ⟨style, base', place ++ [name], short.isName, ?_, links', only ▸ offers,
        fun referrer => ?_⟩
      · rw [← only, sound.finalPath_moved move (Path.same_iff.mp same).symm, placed]
      · rw [right _ short.isRelative written' referrer, short.clean_tidy]
    · cases named
  · cases named

theorem wanted_links {other : Path} (wanted : wanted? plan g other old = some ⟨old, new, .shared⟩)
    (right : g.resolver.Legible new) {referrer target : Path}
    (resolved : g.resolver.resolvePath referrer old = .resolved [target]) :
    ∃ style base moved, (∀ name ∈ base, Path.IsName name) ∧ plan.finalPath target = Path.plain moved ∧
      Links g.extensions style base moved ∧ g.resolver.Offers style target ∧
      ∀ referrer, g.resolver.basePath? referrer new = some (Path.tidy base) := by
  obtain ⟨base, valid, read, probed⟩ := Resolver.resolvePath_resolved resolved
  obtain ⟨found, own, rfl, proper, links, offers⟩ := Resolver.probe?_links flat valid probed
  obtain ⟨moved, final, movedValid, named⟩ := sound.finalPath_plain proper
  have spelling : (plan.finalPath (Path.plain own)).Spells moved :=
    final ▸ Path.spells_plain movedValid
  obtain ⟨target, base', style, answer, read', detected, ⟨token, form, _, written, equal⟩ | own⟩ :=
    wanted?_cases wanted
  · cases equal
    have everywhere := Resolver.basePath?_anywhere (r := g.resolver)
      (Resolver.absolute_of_form form) other referrer
    rw [Resolver.resolvePath_congr everywhere, resolved] at answer
    rw [everywhere, read] at read'
    cases answer
    cases read'
    obtain ⟨names, rendered, links'⟩ := detect?_render flat valid proper links detected spelling named
    refine ⟨found, names, moved, rendered.isName, final, links', offers, fun referrer => ?_⟩
    rw [right _ rendered.isRelative written referrer, rendered.clean_tidy]
  · have scopes := congrArg Rule.scope own
    cases scopes

end

/-- The new token of a shared rule, wherever it stands, leads to where the target of the old one is
afterwards, exactly if nothing that is tried before that path is there. Both tokens have to be read
as they were written. -/
theorem shared_resolves_iff (g : Graph) (origin : g.Origin)
    (flat : ∀ ext ∈ g.extensions, '/' ∉ ext.toList) (candidates : List Candidate) (policy : Policy)
    (plan : MovePlan) (made : MovePlan.make candidates policy g.files = .ok plan) (rules : Rules)
    (derived : derive plan g = .ok rules) (old new : String)
    (rule : (⟨old, new, .shared⟩ : Rule) ∈ rules.toList)
    (legible : g.resolver.Legible old ∧ g.resolver.Legible new) (referrer target : Path)
    (resolved : g.resolver.resolvePath referrer old = .resolved [target]) :
    ∃ base before after, Resolver.probes g.extensions base = before ++ plan.finalPath target :: after ∧
      plan.finalPath target ∉ before ∧
      ∀ referrer, (g.resolver.after plan).basePath? referrer new = some base ∧
        ((g.resolver.after plan).resolvePath referrer new = .resolved [plan.finalPath target] ↔
          ∀ p ∈ before, (g.resolver.after plan).answers base p = false) := by
  have sound := MovePlan.sound_of_make made
  have added := derive_requests origin derived
  obtain ⟨style, base, moved, valid, final, links, offers, read⟩ :
      ∃ style base moved, (∀ name ∈ base, Path.IsName name) ∧
      plan.finalPath target = Path.plain moved ∧
        Links g.extensions style base moved ∧ g.resolver.Offers style target ∧
        ∀ referrer, g.resolver.basePath? referrer new = some (Path.tidy base) := by
    rcases shared_origin added rule with ⟨m, move, named⟩ | ⟨other, wanted⟩
    · exact canonical_links sound flat move named legible.1 legible.2 resolved
    · exact wanted_links sound flat wanted legible.2 resolved
  obtain ⟨before, after, order, first⟩ :=
    List.eq_append_cons_of_mem (Resolver.mem_probes flat valid links)
  have there : (g.resolver.after plan).answers (Path.tidy base) (Path.plain moved) = true :=
    Resolver.answers_of_offers links (final ▸ Resolver.offers_after offers)
  rw [final]
  exact ⟨Path.tidy base, before, after, order, first, fun referrer => ⟨read referrer,
    Resolver.resolvePath_iff_first flat valid (read referrer) order first there⟩⟩

/-! ### A crowded directory -/

def shiftTree (beside : List Path) : SourceTree :=
  { root := ⟨"/project"⟩
    modules := (⟨"src/lib/x.js"⟩ :: ⟨"src/main.ts"⟩ :: beside).map fun p =>
      { path := p, content := "", size := 0 }
    files := .ofList (⟨"src/lib/x.js"⟩ :: ⟨"src/main.ts"⟩ :: beside) }

def shiftReference : Reference :=
  { source := ⟨"src/main.ts"⟩, specifier := "@/lib/x", kind := .static, span := ⟨19, 26⟩, line := 1,
    computed := false }

def shiftExtractions : List Extraction :=
  [{ path := ⟨"src/main.ts"⟩, references := [shiftReference], exports := {}, unparsable := 0 }]

def shiftGraph (beside : List Path) : Graph :=
  Graph.build (shiftTree beside) shiftExtractions [⟨"@/", ⟨"src"⟩⟩] [".ts", ".js"]

def shiftOrigin (beside : List Path) : (shiftGraph beside).Origin :=
  ⟨shiftTree beside, shiftExtractions, _, _, rfl, by decide⟩

def shiftPolicy : Policy := fun p _ => if p = ⟨"src/lib/x.js"⟩ then some ⟨"src/api"⟩ else none

def shiftPlan : MovePlan := ⟨[⟨⟨"src/lib/x.js"⟩, ⟨"src/api/x.js"⟩⟩]⟩

def shiftRules : Rules := { shared := .single "@/lib/x" "@/api/x" }

theorem shared_resolves_iff_alone :
    derive shiftPlan (shiftGraph []) = .ok shiftRules ∧
      ((shiftGraph []).resolver.after shiftPlan).resolvePath ⟨"src/main.ts"⟩ "@/api/x" =
        .resolved [shiftPlan.finalPath ⟨"src/lib/x.js"⟩] := by
  have made : MovePlan.make [{ path := ⟨"src/lib/x.js"⟩ }, { path := ⟨"src/main.ts"⟩ }] shiftPolicy
      (shiftGraph []).files = .ok shiftPlan := by decide +kernel
  have derived : derive shiftPlan (shiftGraph []) = .ok shiftRules := by decide +kernel
  have clear : Alias.Clear (shiftGraph []).resolver.aliases := by
    refine ⟨by decide, by decide, ?_, ?_⟩
    · intro a left b right _
      rw [List.mem_singleton.mp left, List.mem_singleton.mp right]
    · intro a member
      rw [List.mem_singleton.mp member]
      exact ⟨["src"], by decide⟩
  obtain ⟨base, before, after, order, first, outcome⟩ := shared_resolves_iff (shiftGraph [])
    (shiftOrigin []) (by decide) _ shiftPolicy shiftPlan made shiftRules derived "@/lib/x" "@/api/x"
      (by decide)
    ⟨clear.legible (by decide +kernel), clear.legible (by decide +kernel)⟩ ⟨"src/main.ts"⟩
      ⟨"src/lib/x.js"⟩ (by decide +kernel)
  obtain ⟨read, exactly⟩ := outcome ⟨"src/main.ts"⟩
  have named : ((shiftGraph []).resolver.after shiftPlan).basePath? ⟨"src/main.ts"⟩ "@/api/x" =
      some ⟨"src/api/x"⟩ := by
    decide +kernel
  obtain rfl := Option.some.inj (named.symm.trans read)
  have absent : ∀ p ∈ Resolver.probes [".ts", ".js"] ⟨"src/api/x"⟩,
      p = shiftPlan.finalPath ⟨"src/lib/x.js"⟩ ∨
      ((shiftGraph []).resolver.after shiftPlan).answers ⟨"src/api/x"⟩ p = false := by decide +kernel
  refine ⟨derived, exactly.mpr fun p early => (absent p ?_).resolve_left ?_⟩
  · exact order ▸ List.mem_append_left _ early
  · rintro rfl
    exact first early

/-- A module of the same stem with an earlier extension takes the new token for itself. -/
theorem shared_resolves_shadowed :
    let g := shiftGraph [⟨"src/api/x.ts"⟩]
    MovePlan.make [{ path := ⟨"src/lib/x.js"⟩ }, { path := ⟨"src/main.ts"⟩ },
      { path := ⟨"src/api/x.ts"⟩ }]
        shiftPolicy g.files = .ok shiftPlan ∧ derive shiftPlan g = .ok shiftRules ∧
      (⟨"@/lib/x", "@/api/x", .shared⟩ : Rule) ∈ shiftRules.toList ∧
      g.resolver.resolvePath ⟨"src/main.ts"⟩ "@/lib/x" = .resolved [⟨"src/lib/x.js"⟩] ∧
      shiftPlan.finalPath ⟨"src/lib/x.js"⟩ = ⟨"src/api/x.js"⟩ ∧
      (g.resolver.after shiftPlan).resolvePath ⟨"src/main.ts"⟩ "@/api/x" =
        .resolved [⟨"src/api/x.ts"⟩] := by
  decide +kernel

end Rules

end Relocation
