import Relocation.Proofs.Graph.Building
import Relocation.Rules

/-!
# Deriving rules

The rules that a plan implies are a list of requests, one for each moved module with a name of its
own and one for each reference that has to change. Deriving adds them one by one. What is looked up
afterwards for a reference is what was requested for it.
-/

namespace Relocation.Rules

open SpecifierStyle

/-! ### Adding rules -/

def table (r : Rules) : RuleScope → Table String String
  | .shared => r.shared
  | .referrer p => (r.byReferrer.find? p).getD ∅

/-- Both scopes are the same, however the referrer is spelt. -/
def SameScope : RuleScope → RuleScope → Prop
  | .shared, .shared => True
  | .referrer p, .referrer q => p.components = q.components
  | _, _ => False

def add (r : Rules) (rule : Rule) : Except RuleFault Rules :=
  match rule.scope with
  | .shared => r.addShared rule.old rule.new
  | .referrer p => r.addScoped p rule.old rule.new

theorem addShared_ok {r r' : Rules} {old new : String} (added : r.addShared old new = .ok r') :
    ∃ t, addTo none r.shared old new = .ok t ∧ r' = { r with shared := t } := by
  obtain ⟨t, put, done⟩ := bind_ok added
  cases done
  exact ⟨t, put, rfl⟩

theorem addScoped_ok {r r' : Rules} {p : Path} {old new : String}
    (added : r.addScoped p old new = .ok r') :
    ∃ t, addTo (some p) ((r.byReferrer.find? p).getD ∅) old new = .ok t ∧
      r' = { r with byReferrer := r.byReferrer.insert p t } := by
  obtain ⟨t, put, done⟩ := bind_ok added
  cases done
  exact ⟨t, put, rfl⟩

theorem find?_addTo {referrer : Option Path} {t t' : Table String String} {old new : String}
    (added : addTo referrer t old new = .ok t') (k v : String) :
    t'.find? k = some v ↔ t.find? k = some v ∨ old = k ∧ new = v ∧ k ≠ v := by
  unfold addTo at added
  split at added
  · rename_i same
    cases added
    refine ⟨Or.inl, ?_⟩
    rintro (held | ⟨rfl, rfl, different⟩)
    · exact held
    · exact (different same).elim
  · rename_i different
    split at added
    · rename_i first held
      split at added
      · rename_i same
        cases added
        refine ⟨Or.inl, ?_⟩
        rintro (held | ⟨rfl, rfl, _⟩)
        · exact held
        · rw [held, same]
      · cases added
    · rename_i absent
      cases added
      rw [Table.find?_insert]
      split
      · rename_i same
        have equal := Std.LawfulEqCmp.eq_of_compare same
        subst equal
        constructor
        · intro held
          have value := Option.some.inj held
          exact Or.inr ⟨rfl, value, fun unchanged => different (unchanged.trans value.symm)⟩
        · rintro (held | ⟨_, value, _⟩)
          · rw [absent] at held
            cases held
          · rw [value]
      · rename_i other
        constructor
        · exact Or.inl
        · rintro (held | ⟨rfl, _⟩)
          · exact held
          · exact (other Std.ReflCmp.compare_self).elim

theorem find?_add {r r' : Rules} {rule : Rule} (added : r.add rule = .ok r') (scope : RuleScope)
    (k v : String) : (r'.table scope).find? k = some v ↔ (r.table scope).find? k = some v ∨
      SameScope scope rule.scope ∧ rule.old = k ∧ rule.new = v ∧ k ≠ v := by
  obtain ⟨old, new, place⟩ := rule
  cases place with
  | shared =>
    obtain ⟨t, put, rfl⟩ := addShared_ok added
    cases scope with
    | shared => simpa [table, SameScope] using find?_addTo put k v
    | referrer p => simp [table, SameScope]
  | referrer q =>
    obtain ⟨t, put, rfl⟩ := addScoped_ok added
    cases scope with
    | shared => simp [table, SameScope]
    | referrer p =>
      simp only [table, SameScope, Table.find?_insert, Path.compare_eq_iff]
      split
      · rename_i same
        have own := find?_addTo put k v
        rw [Table.find?_congr (Path.compare_eq_iff.mpr same)]
        simpa [same] using own
      · rename_i different
        simp [different]

theorem find?_addAll {rules : List Rule} {r r' : Rules} (added : rules.foldlM add r = .ok r')
    (scope : RuleScope) (k v : String) :
    (r'.table scope).find? k = some v ↔ (r.table scope).find? k = some v ∨
      ∃ rule ∈ rules, SameScope scope rule.scope ∧ rule.old = k ∧ rule.new = v ∧ k ≠ v := by
  induction rules generalizing r with
  | nil =>
    cases added
    simp
  | cons rule rest ih =>
    obtain ⟨next, put, added⟩ := bind_ok added
    rw [ih added, find?_add put]
    simp only [List.mem_cons, exists_eq_or_imp, or_assoc]

/-! ### Requests -/

/-- The rule for a token in a module, if the module or what the token names moves. -/
def wanted? (plan : MovePlan) (g : Graph) (referrer : Path) (token : String) : Option Rule :=
  match (g.resolver.resolvePath referrer token).target?, g.resolver.basePath? referrer token with
  | some target, some base =>
    if !plan.isMoved target && !plan.isMoved referrer then none
    else
      match detect? base target g.extensions with
      | none => none
      | some style =>
        let base' := style.render (plan.finalPath target)
        let relative := relativeSpecifier (plan.finalPath referrer).directory base'
        match g.resolver.form token with
        | .relative => some ⟨token, relative, .referrer referrer⟩
        | .alias =>
          if plan.isMoved target then
            match aliasSpecifier? g.aliases base' with
            | some new => some ⟨token, new, .shared⟩
            | none => some ⟨token, relative, .referrer referrer⟩
          else none
        | .bare => none
  | _, _ => none

def observed? (plan : MovePlan) (g : Graph) (referrer : Path) (ref : Reference) : Option Rule :=
  if ref.kind.hasPath && !ref.computed then wanted? plan g referrer ref.specifier else none

def requests (plan : MovePlan) (g : Graph) : List Rule :=
  plan.moves.flatMap (fun m =>
      ((canonical? g.aliases g.resolver m).map fun (old, new) =>
        (⟨old, new, .shared⟩ : Rule)).toList) ++
    g.nodes.flatMap fun n =>
      (g.referencesFrom n.path).flatMap fun found => (observed? plan g n.path found.reference).toList

theorem addAll_toList (rule? : Option Rule) (r : Rules) :
    rule?.toList.foldlM add r = match rule? with | some rule => r.add rule | none => .ok r := by
  cases rule? with
  | none => rfl
  | some rule => simp

theorem addObserved_eq {plan : MovePlan} {g : Graph} {referrer : Path} {found : ResolvedReference}
    (resolved : found.reference.kind.hasPath = true → found.reference.computed = false →
      found.resolution = g.resolver.resolvePath referrer found.reference.specifier) (r : Rules) :
    addObserved plan g referrer r found = (observed? plan g referrer found.reference).toList.foldlM
      add r := by
  rw [addAll_toList]
  unfold addObserved observed?
  cases hasPath : found.reference.kind.hasPath with
  | false => rfl
  | true =>
    cases computed : found.reference.computed with
    | true => rfl
    | false =>
      simp only [Bool.not_true, Bool.or_self, Bool.false_eq_true, if_false, Bool.not_false,
        Bool.and_self, if_true]
      unfold wanted? ResolvedReference.target?
      rw [resolved hasPath computed]
      cases (g.resolver.resolvePath referrer found.reference.specifier).target? with
      | none => rfl
      | some target =>
        cases g.resolver.basePath? referrer found.reference.specifier with
        | none => rfl
        | some base =>
          simp only
          split
          · rfl
          · cases detect? base target g.extensions with
            | none => rfl
            | some style =>
              simp only
              generalize style.render (plan.finalPath target) = spelt
              generalize relativeSpecifier (plan.finalPath referrer).directory spelt = relative
              cases g.resolver.form found.reference.specifier with
              | relative => rfl
              | bare => rfl
              | _ =>
                simp only
                split
                · cases aliasSpecifier? g.aliases spelt <;> rfl
                · rfl

theorem addAll_flatMap {α : Type} {step : Rules → α → Except RuleFault Rules} {ask : α → List Rule}
    {xs : List α} (same : ∀ x ∈ xs, ∀ r, step r x = (ask x).foldlM add r) (r : Rules) :
    xs.foldlM step r = (xs.flatMap ask).foldlM add r := by
  induction xs generalizing r with
  | nil => rfl
  | cons x rest ih =>
    rw [List.foldlM_cons, List.flatMap_cons, List.foldlM_append, same x List.mem_cons_self]
    congr 1
    funext r
    exact ih (fun x member => same x (List.mem_cons_of_mem _ member)) r

variable {plan : MovePlan} {g : Graph} {rules : Rules}

/-- Deriving adds all requests and refuses rules of which one produces what another replaces. -/
theorem derive_eq (origin : g.Origin) :
    derive plan g = (requests plan g).foldlM add {} >>= fun r => r.chained?.elim (.ok r) .error := by
  have canonical : ∀ m ∈ plan.moves, ∀ r, addCanonical g.aliases g.resolver r m =
      ((canonical? g.aliases g.resolver m).map fun (old, new) =>
        (⟨old, new, .shared⟩ : Rule)).toList.foldlM add r := by
    intro m _ r
    rw [addAll_toList]
    unfold addCanonical
    cases canonical? g.aliases g.resolver m <;> rfl
  have observed : ∀ n ∈ g.nodes, ∀ r, addModule plan g r n =
      ((g.referencesFrom n.path).flatMap fun found =>
        (observed? plan g n.path found.reference).toList).foldlM add r := fun n _ r =>
    addAll_flatMap (fun found inside r => addObserved_eq (origin.resolved inside) r) r
  unfold derive requests
  rw [addAll_flatMap canonical, List.foldlM_append, bind_assoc]
  congr 1
  funext first
  rw [addAll_flatMap observed]
  congr 1
  funext r
  cases r.chained? <;> rfl

theorem derive_requests (origin : g.Origin) (derived : derive plan g = .ok rules) :
    (requests plan g).foldlM add {} = .ok rules := by
  rw [derive_eq origin] at derived
  cases added : (requests plan g).foldlM add {} with
  | error fault =>
    rw [added] at derived
    cases derived
  | ok r =>
    rw [added] at derived
    have kept : r.chained?.elim (Except.ok r) Except.error = .ok rules := derived
    cases chained : r.chained? with
    | none => rwa [chained] at kept
    | some fault =>
      rw [chained] at kept
      cases kept

/-- All that a request can be. -/
theorem wanted?_cases {referrer : Path} {token : String} {rule : Rule}
    (wanted : wanted? plan g referrer token = some rule) :
    ∃ target base style, (g.resolver.resolvePath referrer token).target? = some target ∧
      g.resolver.basePath? referrer token = some base ∧ detect? base target g.extensions = some style ∧
      ((∃ new, g.resolver.form token = .alias ∧ plan.isMoved target = true ∧
          aliasSpecifier? g.aliases (style.render (plan.finalPath target)) = some new ∧
          rule = ⟨token, new, .shared⟩) ∨
        rule = ⟨token, relativeSpecifier (plan.finalPath referrer).directory
          (style.render (plan.finalPath target)), .referrer referrer⟩) := by
  unfold wanted? at wanted
  split at wanted
  · rename_i target base found read
    split at wanted
    · cases wanted
    · split at wanted
      · cases wanted
      · rename_i style detected
        refine ⟨target, base, style, found, read, detected, ?_⟩
        simp only at wanted
        split at wanted
        · exact Or.inr (Option.some.inj wanted).symm
        · rename_i form
          split at wanted
          · rename_i moved
            split at wanted
            · rename_i new spelt
              exact Or.inl ⟨new, form, moved, spelt, (Option.some.inj wanted).symm⟩
            · exact Or.inr (Option.some.inj wanted).symm
          · cases wanted
        · cases wanted
  · cases wanted

theorem wanted?_scope {referrer : Path} {token : String} {rule : Rule}
    (wanted : wanted? plan g referrer token = some rule) :
    rule.old = token ∧ (rule.scope = .shared ∨ rule.scope = .referrer referrer) := by
  obtain ⟨_, _, _, _, _, _, ⟨new, _, _, _, rfl⟩ | rfl⟩ := wanted?_cases wanted
  · exact ⟨rfl, Or.inl rfl⟩
  · exact ⟨rfl, Or.inr rfl⟩

/-- A rule that is shared is wanted wherever its token stands. -/
theorem wanted?_anywhere {p : Path} {token new : String}
    (wanted : wanted? plan g p token = some ⟨token, new, .shared⟩) (q : Path) :
    wanted? plan g q token = some ⟨token, new, .shared⟩ := by
  obtain ⟨target, base, style, found, read, detected, ⟨other, form, moved, spelt, same⟩ | other⟩ :=
    wanted?_cases wanted
  · have everywhere := Resolver.basePath?_anywhere (r := g.resolver)
      (Resolver.absolute_of_form form) q p
    unfold wanted?
    rw [Resolver.resolvePath_congr everywhere, everywhere, found, read]
    simp only [moved, detected, form, spelt, Bool.not_true, Bool.false_and, Bool.false_eq_true,
      if_false, if_true, same]
  · have scopes := congrArg Rule.scope other
    cases scopes

/-! ### Looking up -/

theorem mem_requests {rule : Rule} (member : rule ∈ requests plan g) :
    (∃ m ∈ plan.moves, canonical? g.aliases g.resolver m = some (rule.old, rule.new) ∧
      rule.scope = .shared) ∨
      ∃ n ∈ g.nodes, wanted? plan g n.path rule.old = some rule := by
  rcases List.mem_append.mp member with canonical | observed
  · obtain ⟨m, inside, asked⟩ := List.mem_flatMap.mp canonical
    obtain ⟨⟨old, new⟩, named, rfl⟩ := Option.map_eq_some_iff.mp (Option.mem_toList.mp asked)
    exact Or.inl ⟨m, inside, named, rfl⟩
  · obtain ⟨n, inside, asked⟩ := List.mem_flatMap.mp observed
    obtain ⟨found, _, asked⟩ := List.mem_flatMap.mp asked
    have wanted := Option.mem_toList.mp asked
    unfold observed? at wanted
    split at wanted
    · have scope := wanted?_scope wanted
      rw [scope.1]
      exact Or.inr ⟨n, inside, by rw [← scope.1] at wanted ⊢; exact wanted⟩
    · cases wanted

theorem wanted_requested {n : Node} (node : n ∈ g.nodes) {found : ResolvedReference}
    (member : found ∈ g.referencesFrom n.path) (hasPath : found.reference.kind.hasPath = true)
    (literal : found.reference.computed = false) {rule : Rule}
    (wanted : wanted? plan g n.path found.reference.specifier = some rule) :
    rule ∈ requests plan g := by
  refine List.mem_append_right _
    (List.mem_flatMap.mpr ⟨n, node, List.mem_flatMap.mpr ⟨found, member, ?_⟩⟩)
  rw [Option.mem_toList, observed?, hasPath, literal, ← wanted]
  rfl

section
variable (added : (requests plan g).foldlM add {} = .ok rules) {n : Node} {token : String}
  (requested : ∀ rule, wanted? plan g n.path token = some rule → rule ∈ requests plan g)
include added requested

/-- Rules of a module come from its own references only. -/
theorem find?_own (origin : g.Origin) (node : n ∈ g.nodes) (new : String) :
    (rules.table (.referrer n.path)).find? token = some new ↔
      wanted? plan g n.path token = some ⟨token, new, .referrer n.path⟩ ∧ token ≠ new := by
  rw [find?_addAll added]
  constructor
  · rintro (empty | ⟨⟨old, new, scope⟩, asked, same, rfl, rfl, different⟩)
    · cases empty
    · rcases mem_requests asked with ⟨_, _, _, shared⟩ | ⟨other, inside, wanted⟩
      · rw [shared] at same
        exact same.elim
      · obtain ⟨_, shared | owned⟩ := wanted?_scope wanted
        · rw [shared] at same
          exact same.elim
        · rw [owned] at same
          obtain rfl := origin.distinct node inside same
          simp only at owned
          subst owned
          exact ⟨wanted, different⟩
  · rintro ⟨wanted, different⟩
    exact Or.inr ⟨_, requested _ wanted, rfl, rfl, rfl, different⟩

/-- Shared rules are what every module wants. -/
theorem find?_shared (shares : ∀ m ∈ plan.moves, ∀ old new, canonical? g.aliases g.resolver m = some
      (old, new) → ∃ p, wanted? plan g p old = some ⟨old, new, .shared⟩) (new : String) :
    (rules.table .shared).find? token = some new ↔
      wanted? plan g n.path token = some ⟨token, new, .shared⟩ ∧ token ≠ new := by
  rw [find?_addAll added]
  constructor
  · rintro (empty | ⟨⟨old, new, scope⟩, asked, same, rfl, rfl, different⟩)
    · cases empty
    · refine ⟨?_, different⟩
      rcases mem_requests asked with ⟨m, inside, named, _⟩ | ⟨other, inside, wanted⟩
      · obtain ⟨p, wanted⟩ := shares m inside old new named
        exact wanted?_anywhere wanted n.path
      · cases scope with
        | shared => exact wanted?_anywhere wanted n.path
        | referrer p => exact same.elim
  · rintro ⟨wanted, different⟩
    exact Or.inr ⟨_, requested _ wanted, trivial, rfl, rfl, different⟩

end

/-- What stands for a token in a module afterwards: what was requested for it, or the token itself. -/
theorem lookup_wanted (origin : g.Origin)
      (shares : ∀ m ∈ plan.moves, ∀ old new, canonical? g.aliases g.resolver m = some (old, new) →
      ∃ p, wanted? plan g p old = some ⟨old, new, .shared⟩)
    (added : (requests plan g).foldlM add {} = .ok rules) {n : Node} (node : n ∈ g.nodes)
    {found : ResolvedReference} (member : found ∈ g.referencesFrom n.path)
    (hasPath : found.reference.kind.hasPath = true) (literal : found.reference.computed = false) :
    (rules.lookup n.path found.reference.specifier).getD found.reference.specifier =
      ((wanted? plan g n.path found.reference.specifier).map (·.new)).getD
        found.reference.specifier := by
  have requested : ∀ rule, wanted? plan g n.path found.reference.specifier = some rule →
      rule ∈ requests plan g :=
    fun _ => wanted_requested node member hasPath literal
  have own := find?_own added requested origin node
  have shared := find?_shared added requested shares
  generalize found.reference.specifier = token at own shared ⊢
  have looked : rules.lookup n.path token =
      ((rules.table (.referrer n.path)).find? token).or ((rules.table .shared).find? token) := rfl
  rw [looked]
  cases first : (rules.table (.referrer n.path)).find? token with
  | some v =>
    rw [((own v).mp first).1]
    rfl
  | none =>
    rw [Option.none_or]
    cases second : (rules.table .shared).find? token with
    | some v =>
      rw [((shared v).mp second).1]
      rfl
    | none =>
      cases wanted : wanted? plan g n.path token with
      | none => rfl
      | some rule =>
        -- The request changes nothing, or it would have been found.
        obtain ⟨old, new, scope⟩ := rule
        obtain ⟨same, place⟩ := wanted?_scope wanted
        simp only at same place
        subst same
        by_cases unchanged : old = new
        · simp [unchanged]
        · rcases place with rfl | rfl
          · have held := (shared new).mpr ⟨wanted, unchanged⟩
            rw [second] at held
            cases held
          · have held := (own new).mpr ⟨wanted, unchanged⟩
            rw [first] at held
            cases held

end Relocation.Rules
