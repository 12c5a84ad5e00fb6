import Relocation.Proofs.Graph.Precedence
import Relocation.Proofs.Rules.Frame

/-!
# Rules that agree

Rules are asked for twice, for each moved module by its alias and for each reference that is met,
and by many modules. If aliases keep apart, all that is asked for one token in one scope is the same
(`requests_agree`), so that no rule contradicts another (`derive_unconflicted`).
-/

namespace Relocation

theorem Path.isAbsolute_withoutExtension {p : Path} (relative : p.isAbsolute = false) :
    p.withoutExtension.isAbsolute = false := by
  unfold withoutExtension
  split
  · unfold isAbsolute isAbsoluteText at relative ⊢
    rw [String.toList_ofList, List.head?_take]
    split
    · rfl
    · exact relative
  · exact relative

namespace SpecifierStyle

open Relocation.Path (IsName tidy plain)

variable {extensions : List String} {found : SpecifierStyle} {base other target : List String}

theorem Links.unique (left : Links extensions found base target)
    (right : Links extensions found other target) : base = other := by
  cases left with
  | explicit => cases right with | explicit => rfl
  | @extensionless front last ext =>
    generalize whole : front ++ [last ++ ext] = target at right
    cases right with
    | extensionless =>
      obtain ⟨rfl, lasts⟩ := List.append_inj' whole rfl
      rw [(String.append_left_inj ext).mp (List.singleton_inj.mp lasts)]
  | @directoryIndex _ ext =>
    generalize whole : base ++ ["index" ++ ext] = target at right
    cases right with
    | directoryIndex => exact (List.append_inj' whole rfl).1

/-- Only the directory of an index module can go unrecognised. -/
theorem detect?_linked (left : ∀ name ∈ base, IsName name) (right : ∀ name ∈ target, IsName name)
    (links : Links extensions found base target) (inside : found ≠ .directoryIndex) :
    ∃ style, detect? (tidy base) (plain target) extensions = some style := by
  have same := Path.tidy_same_plain left right links.filled
  unfold detect?
  split
  · exact ⟨_, rfl⟩
  · rename_i different
    cases links with
    | explicit => exact (different (same.mpr rfl)).elim
    | extensionless known =>
      rw [(Path.spells_plain right).slash, Path.slash_tidy left, text_slash, text_slash,
        ← Path.text_append, find?_extension known]
      exact ⟨_, rfl⟩
    | directoryIndex => exact (inside rfl).elim

end SpecifierStyle

namespace Rules

open SpecifierStyle

variable {plan : MovePlan} {g : Graph}

/-! ### Adding rules that agree -/

def Agree (rules : List Rule) : Prop :=
  ∀ a ∈ rules, ∀ b ∈ rules, SameScope a.scope b.scope → a.old = b.old → a.new = b.new

theorem addTo_ok (referrer : Option Path) {t : Table String String} {old new : String}
    (free : ∀ first, t.find? old = some first → first = new) :
    ∃ t', addTo referrer t old new = .ok t' := by
  unfold addTo
  split
  · exact ⟨_, rfl⟩
  · split
    · rename_i first held
      rw [if_pos (free first held)]
      exact ⟨_, rfl⟩
    · exact ⟨_, rfl⟩

theorem add_ok {r : Rules} {rule : Rule}
    (free : ∀ first, (r.table rule.scope).find? rule.old = some first → first = rule.new) :
    ∃ r', r.add rule = .ok r' := by
  obtain ⟨old, new, scope⟩ := rule
  cases scope with
  | shared =>
    obtain ⟨t, added⟩ := addTo_ok none free
    refine ⟨{ r with shared := t }, ?_⟩
    simp only [add, addShared, show r.shared = r.table .shared from rfl, added]
    rfl
  | referrer p =>
    obtain ⟨t, added⟩ := addTo_ok (some p) free
    refine ⟨{ r with byReferrer := r.byReferrer.insert p t }, ?_⟩
    simp only [add, addScoped, show (r.byReferrer.find? p).getD ∅ = r.table (.referrer p) from rfl,
      added]
    rfl

theorem addAll_ok {rules : List Rule} (agree : Agree rules) {r : Rules}
    (free : ∀ rule ∈ rules, ∀ first, (r.table rule.scope).find? rule.old = some first →
      first = rule.new) :
    ∃ r', rules.foldlM add r = .ok r' := by
  induction rules generalizing r with
  | nil => exact ⟨r, rfl⟩
  | cons rule rest ih =>
    obtain ⟨next, added⟩ := add_ok (free rule List.mem_cons_self)
    rw [List.foldlM_cons, added]
    refine ih (fun a left b right => agree a (List.mem_cons_of_mem _ left) b
      (List.mem_cons_of_mem _ right)) ?_
    intro other member first held
    rcases (find?_add added other.scope other.old first).mp held with before | ⟨scope, old, rfl, _⟩
    · exact free other (List.mem_cons_of_mem _ member) first before
    · exact (agree other (List.mem_cons_of_mem _ member) rule List.mem_cons_self scope old.symm).symm

/-! ### Requests agree -/

section
variable {candidates : List Candidate} {existing : List Path} (sound : plan.Sound candidates existing)
variable (clear : Alias.Clear g.aliases) (flat : ∀ ext ∈ g.extensions, '/' ∉ ext.toList)
include sound clear flat

/-- The shared rule for a moved module is the one that any reference with its token wants. -/
theorem wanted?_canonical {m : Move} (move : m ∈ plan.moves) {old new : String}
    (named : canonical? g.aliases g.resolver m = some (old, new)) :
    wanted? plan g m.source old = some ⟨old, new, .shared⟩ := by
  obtain ⟨written, written', p, answer, same⟩ := canonical?_cases named
  obtain ⟨base, valid, read, probed⟩ := Resolver.resolvePath_resolved answer
  obtain ⟨found, own, rfl, proper, links, _⟩ := Resolver.probe?_links flat valid probed
  have source : m.source.Spells own := (Path.spells_plain proper).same_iff.mp same
  have absolute := aliasSpecifier?_not_relative clear.undotted written
  have known : (g.resolver.aliasFor? old).isSome = true := by
    unfold Resolver.basePath? at read
    rw [if_neg (by simp [absolute])] at read
    obtain ⟨a, reader, _⟩ := Option.map_eq_some_iff.mp read
    rw [reader]
    rfl
  have form : g.resolver.form old = .alias := by
    rw [Resolver.form, if_neg (by simp [absolute]), if_pos known]
  have cleaned : m.source.withoutExtension.clean = Path.tidy base := by
    have legible : g.resolver.Legible old := Alias.Clear.legible clear known
    exact Option.some.inj
      ((legible _ (Path.isAbsolute_withoutExtension source.isRelative) written _).symm.trans read)
  obtain ⟨front, name, rfl⟩ := (List.eq_nil_or_concat own).resolve_left links.filled
  rw [List.concat_eq_append] at *
  obtain ⟨place, name', stays, target, targetValid⟩ := sound.spelt m move
  rw [source.fileName?, List.getLast?_concat] at stays
  obtain rfl := Option.some.inj stays
  have placed : m.target.Spells (place ++ [name]) := target ▸ Path.spells_plain targetValid
  obtain ⟨stem, rfl⟩ := base_of_withoutExtension source valid cleaned links
  have inside : found ≠ .directoryIndex := by
    rintro rfl
    generalize whole : front ++ [name] = names at links
    have lengths := congrArg List.length whole
    cases links
    simp at lengths
  obtain ⟨style, detected⟩ : ∃ style, detect? (Path.tidy (front ++ [Path.stemOf name]))
      (Path.plain (front ++ [name])) g.extensions = some style :=
    detect?_linked valid proper links inside
  -- Both leave the same name behind the new directory.
  obtain ⟨base', rendered, links'⟩ := detect?_render flat valid proper links detected placed (by simp)
  have spelt : aliasSpecifier? g.aliases (style.render m.target) = some new := by
    rw [← written', aliasSpecifier?_congr]
    rw [links'.unique links.elsewhere] at rendered
    exact rendered.trans (placed.withoutExtension stem).symm
  have moved := sound.isMoved move (Path.same_iff.mp same).symm
  have final := sound.finalPath_moved move (Path.same_iff.mp same).symm
  unfold wanted?
  rw [answer, read]
  simp only [Resolution.target?, Resolution.targets, detected, form, moved, final, spelt,
    Bool.not_true, Bool.false_and, Bool.false_eq_true, if_false, if_true]

/-- A request is what the modules of its scope want for its token. -/
theorem wanted?_request {rule : Rule} (asked : rule ∈ requests plan g) :
    rule.scope = .shared ∧ (∀ p, wanted? plan g p rule.old = some rule) ∨
      ∃ n ∈ g.nodes, rule.scope = .referrer n.path ∧ wanted? plan g n.path rule.old = some rule := by
  obtain ⟨old, new, scope⟩ := rule
  rcases mem_requests asked with ⟨m, move, named, shared⟩ | ⟨n, node, wanted⟩
  · cases shared
    exact Or.inl ⟨rfl, wanted?_anywhere (wanted?_canonical sound clear flat move named)⟩
  · rcases (wanted?_scope wanted).2 with shared | own
    · cases shared
      exact Or.inl ⟨rfl, wanted?_anywhere wanted⟩
    · exact Or.inr ⟨n, node, own, wanted⟩

theorem requests_agree (origin : g.Origin) : Agree (requests plan g) := by
  intro a left b right scopes tokens
  rcases wanted?_request sound clear flat left with ⟨shared, wanted⟩ | ⟨n, node, own, wanted⟩
  · rcases wanted?_request sound clear flat right with ⟨_, wanted'⟩ | ⟨n', _, own', _⟩
    · have both := wanted default
      rw [tokens, wanted' default] at both
      rw [Option.some.inj both]
    · rw [shared, own'] at scopes
      exact scopes.elim
  · rcases wanted?_request sound clear flat right with ⟨shared', _⟩ | ⟨n', node', own', wanted'⟩
    · rw [own, shared'] at scopes
      exact scopes.elim
    · rw [own, own'] at scopes
      obtain rfl := origin.distinct node node' scopes
      rw [tokens, wanted'] at wanted
      rw [Option.some.inj wanted]

end

theorem chained?_chained {r : Rules} {fault : RuleFault} (found : r.chained? = some fault) :
    ∃ token referrer, fault = .chained token referrer := by
  unfold chained? at found
  split at found
  · cases found
    exact ⟨_, _, rfl⟩
  · obtain ⟨entry, _, inside⟩ := List.exists_of_findSome?_eq_some found
    obtain ⟨token, _, rfl⟩ := Option.map_eq_some_iff.mp inside
    exact ⟨_, _, rfl⟩

/-- With aliases that keep apart, the rules that a plan implies never contradict one another,
whatever the modules are called: they are derived, unless one of them produces what another
replaces. -/
theorem derive_unconflicted (g : Graph) (origin : g.Origin) (clear : Alias.Clear g.aliases)
    (flat : ∀ ext ∈ g.extensions, '/' ∉ ext.toList) (candidates : List Candidate) (policy : Policy)
    (existing : List Path) (plan : MovePlan)
    (made : MovePlan.make candidates policy existing = .ok plan) :
    (∃ rules, derive plan g = .ok rules) ∨
    ∃ token referrer, derive plan g = .error (.chained token referrer) := by
  have sound := MovePlan.sound_of_make made
  have empty : ∀ rule ∈ requests plan g, ∀ first,
      (({} : Rules).table rule.scope).find? rule.old = some first → first = rule.new := by
    rintro ⟨_, _, scope⟩ _ first held
    cases scope <;> cases held
  obtain ⟨rules, added⟩ := addAll_ok (requests_agree sound clear flat origin) empty
  have outcome : derive plan g = rules.chained?.elim (Except.ok rules) Except.error := by
    rw [derive_eq origin, added]
    rfl
  rw [outcome]
  cases chained : rules.chained? with
  | none => exact Or.inl ⟨rules, rfl⟩
  | some fault =>
    obtain ⟨token, referrer, rfl⟩ := chained?_chained chained
    exact Or.inr ⟨token, referrer, rfl⟩

/-! ### A token that is asked for three times -/

def sharedTree : SourceTree :=
  { root := ⟨"/project"⟩
    modules := [⟨"src/app.ts"⟩, ⟨"src/lib/x.test.ts"⟩, ⟨"src/main.ts"⟩].map fun p =>
      { path := p, content := "", size := 0 }
    files := .ofList [⟨"src/app.ts"⟩, ⟨"src/lib/x.test.ts"⟩, ⟨"src/main.ts"⟩] }

def sharedExtractions : List Extraction :=
  [⟨"src/app.ts"⟩, ⟨"src/main.ts"⟩].map fun p =>
    { path := p, references := [⟨p, "~/x.test", .static, ⟨8, 16⟩, 1, false⟩], exports := {},
      unparsable := 0 }

def sharedGraph : Graph :=
  Graph.build sharedTree sharedExtractions [⟨"@/", ⟨"src"⟩⟩, ⟨"~/", ⟨"src/lib"⟩⟩] [".ts", ".test.ts"]

def sharedOrigin : sharedGraph.Origin := ⟨sharedTree, sharedExtractions, _, _, rfl, by decide⟩

def sharedPolicy : Policy := fun p _ => if p = ⟨"src/lib/x.test.ts"⟩ then some ⟨"src/api"⟩ else none

def sharedPlan : MovePlan := ⟨[⟨⟨"src/lib/x.test.ts"⟩, ⟨"src/api/x.test.ts"⟩⟩]⟩

theorem derive_unconflicted_shared :
    Alias.Clear sharedGraph.aliases ∧
      MovePlan.make (sharedTree.files.toList.map fun p => { path := p }) sharedPolicy
        sharedGraph.files = .ok sharedPlan ∧
      ((∃ rules, derive sharedPlan sharedGraph = .ok rules) ∨
        ∃ token referrer, derive sharedPlan sharedGraph = .error (.chained token referrer)) := by
  have clear : Alias.Clear sharedGraph.aliases := by
    refine ⟨by decide, by decide, by decide, fun a member => ?_⟩
    rcases List.mem_cons.mp member with rfl | member
    · exact ⟨["src"], by decide⟩
    · rw [List.mem_singleton.mp member]
      exact ⟨["src", "lib"], by decide⟩
  have made : MovePlan.make (sharedTree.files.toList.map fun p => { path := p }) sharedPolicy
      sharedGraph.files = .ok sharedPlan := by decide +kernel
  exact ⟨clear, made, derive_unconflicted sharedGraph sharedOrigin clear (by decide) _ sharedPolicy
    _ sharedPlan made⟩

end Rules

end Relocation
