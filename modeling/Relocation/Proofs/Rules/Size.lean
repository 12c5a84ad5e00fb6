import Relocation.Proofs.Rules.Derivation

/-!
# How many rules there are

The number of rules is the length of their list. Whether there are any is told by the tables alone,
and a module that asked for a rule of its own has a table, even if nothing was entered there. The
two disagree exactly if something was asked for one module alone and nothing that was asked for
changes its token (`isEmpty_iff_size`).
-/

namespace Relocation.Rules

open SpecifierStyle

variable {plan : MovePlan} {g : Graph} {rules r r' : Rules}

/-! ### Counting -/

theorem size_eq_length (r : Rules) : r.size = r.toList.length := by
  have own : ∀ es : List (Path × Table String String),
      (es.map (·.2)).foldr (fun rules n => rules.entries.length + n) r.shared.entries.length =
        r.shared.entries.length + (es.flatMap fun entry => entry.2.entries.map fun rule =>
          (⟨rule.1, rule.2, .referrer entry.1⟩ : Rule)).length := by
    intro es
    induction es with
    | nil => rfl
    | cons entry rest ih =>
      rw [List.map_cons, List.foldr_cons, ih, List.flatMap_cons, List.length_append, List.length_map]
      omega
  rw [size, Table.values, own, toList, List.length_append, List.length_map]

theorem size_eq_zero : r.size = 0 ↔ r.shared = ∅ ∧ ∀ entry ∈ r.byReferrer.entries, entry.2 = ∅ := by
  rw [size_eq_length, List.length_eq_zero_iff, toList, List.append_eq_nil_iff, List.map_eq_nil_iff,
    List.flatMap_eq_nil_iff]
  simp only [List.map_eq_nil_iff, Table.eq_empty_iff]

theorem isEmpty_iff : r.isEmpty = true ↔ r.size = 0 ∧ r.byReferrer = ∅ := by
  rw [isEmpty, Bool.and_eq_true, List.isEmpty_iff, List.isEmpty_iff, ← Table.eq_empty_iff,
    ← Table.eq_empty_iff, size_eq_zero]
  constructor
  · rintro ⟨shared, bare⟩
    exact ⟨⟨shared, by simp [bare]⟩, bare⟩
  · rintro ⟨⟨shared, _⟩, bare⟩
    exact ⟨shared, bare⟩

/-! ### Adding a rule -/

theorem addTo_eq_empty {referrer : Option Path} {t t' : Table String String} {old new : String}
    (added : addTo referrer t old new = .ok t') : t' = ∅ ↔ t = ∅ ∧ old = new := by
  unfold addTo at added
  split at added
  · rename_i same
    cases added
    exact ⟨fun empty => ⟨empty, same⟩, And.left⟩
  · rename_i different
    refine ⟨fun empty => ?_, fun both => (different both.2).elim⟩
    split at added
    · rename_i first held
      split at added
      · cases added
        rw [empty] at held
        cases held
      · cases added
    · cases added
      exact (Table.insert_ne_empty old new t empty).elim

/-- All tables are empty after one was replaced by a table that is empty only if the first one was. -/
theorem insertIn_all_empty {es : List (Path × Table String String)} {k : Path}
    {own : Table String String} {unchanged : Prop}
    (grown : own = ∅ ↔ (Table.findIn k es).getD ∅ = ∅ ∧ unchanged) :
    (∀ entry ∈ Table.insertIn k own es, entry.2 = ∅) ↔ (∀ entry ∈ es, entry.2 = ∅) ∧ unchanged := by
  induction es with
  | nil => simpa [Table.insertIn, Table.findIn] using grown
  | cons entry rest ih =>
    obtain ⟨k', old⟩ := entry
    unfold Table.insertIn
    unfold Table.findIn at grown
    cases order : compare k k' with
    | lt =>
      simp only [order, reduceCtorEq, if_false] at grown
      have first : (∀ entry ∈ rest, entry.2 = ∅) → (Table.findIn k rest).getD ∅ = ∅ := by
        intro empty
        cases found : Table.findIn k rest with
        | none => rfl
        | some t =>
          obtain ⟨key, _, member⟩ := Table.findIn_mem found
          exact empty _ member
      simp only [List.forall_mem_cons, grown]
      constructor
      · rintro ⟨⟨_, same⟩, others⟩
        exact ⟨others, same⟩
      · rintro ⟨others, same⟩
        exact ⟨⟨first others.2, same⟩, others⟩
    | eq =>
      simp only [order, if_true, Option.getD_some] at grown
      simp only [List.forall_mem_cons, grown, and_right_comm]
    | gt =>
      simp only [order, reduceCtorEq, if_false] at grown
      simp only [List.forall_mem_cons, ih grown, and_assoc]

theorem size_add {rule : Rule} (added : r.add rule = .ok r') :
    r'.size = 0 ↔ r.size = 0 ∧ rule.old = rule.new := by
  obtain ⟨old, new, scope⟩ := rule
  cases scope with
  | shared =>
    obtain ⟨t, put, rfl⟩ := addShared_ok added
    rw [size_eq_zero, size_eq_zero, addTo_eq_empty put, and_right_comm]
  | referrer p =>
    obtain ⟨t, put, rfl⟩ := addScoped_ok added
    rw [size_eq_zero, size_eq_zero]
    exact (and_congr_right fun _ => insertIn_all_empty (addTo_eq_empty put)).trans and_assoc.symm

/-- A rule for one module leaves a table for it, whether it was entered or not. -/
theorem byReferrer_add {rule : Rule} (added : r.add rule = .ok r') :
    r'.byReferrer = ∅ ↔ r.byReferrer = ∅ ∧ rule.scope = .shared := by
  obtain ⟨old, new, scope⟩ := rule
  cases scope with
  | shared =>
    obtain ⟨t, _, rfl⟩ := addShared_ok added
    simp
  | referrer p =>
    obtain ⟨t, _, rfl⟩ := addScoped_ok added
    simp [Table.insert_ne_empty]

/-! ### What is asked for -/

/-- The reference is the literal path of `target`, and one of its ends moves. In its style it has to
lead to `spelt` afterwards. -/
structure Concerns (plan : MovePlan) (g : Graph) (referrer : Path) (found : ResolvedReference)
    (target spelt : Path) : Prop where
  pathed : found.reference.kind.hasPath = true
  literal : found.reference.computed = false
  resolved : found.target? = some target
  moved : plan.isMoved target = true ∨ plan.isMoved referrer = true
  styled : ∃ base style, g.resolver.basePath? referrer found.reference.specifier = some base ∧
    detect? base target g.extensions = some style ∧ spelt = style.render (plan.finalPath target)

/-- The rule that a reference of a module asks for: one for the module alone if the reference is
relative or no alias leads to where its target goes, and a shared one otherwise. -/
inductive Asks (plan : MovePlan) (g : Graph) (referrer : Path) (found : ResolvedReference) :
    Rule → Prop
  | relative {target spelt : Path} (concerns : Concerns plan g referrer found target spelt)
    (form : g.resolver.form found.reference.specifier = .relative) :
    Asks plan g referrer found
      ⟨found.reference.specifier, relativeSpecifier (plan.finalPath referrer).directory spelt,
        .referrer referrer⟩
  | unaliased {target spelt : Path} (concerns : Concerns plan g referrer found target spelt)
    (form : g.resolver.form found.reference.specifier = .alias) (moved : plan.isMoved target = true)
    (outside : aliasSpecifier? g.aliases spelt = none) :
    Asks plan g referrer found
      ⟨found.reference.specifier, relativeSpecifier (plan.finalPath referrer).directory spelt,
        .referrer referrer⟩
  | aliased {target spelt : Path} {new : String}
    (concerns : Concerns plan g referrer found target spelt)
    (form : g.resolver.form found.reference.specifier = .alias) (moved : plan.isMoved target = true)
    (inside : aliasSpecifier? g.aliases spelt = some new) :
    Asks plan g referrer found ⟨found.reference.specifier, new, .shared⟩

def Asked (plan : MovePlan) (g : Graph) (rule : Rule) : Prop :=
  (∃ m ∈ plan.moves, canonical? g.aliases g.resolver m = some (rule.old, rule.new) ∧
    rule.scope = .shared) ∨
    ∃ n ∈ g.nodes, ∃ found ∈ g.referencesFrom n.path, Asks plan g n.path found rule

theorem Concerns.unique {referrer : Path} {found : ResolvedReference}
    {target target' spelt spelt' : Path} (left : Concerns plan g referrer found target spelt)
    (right : Concerns plan g referrer found target' spelt') :
    target = target' ∧ spelt = spelt' := by
  obtain rfl : target = target' := Option.some.inj (left.resolved.symm.trans right.resolved)
  obtain ⟨base, style, read, detected, rfl⟩ := left.styled
  obtain ⟨base', style', read', detected', rfl⟩ := right.styled
  obtain rfl : base = base' := Option.some.inj (read.symm.trans read')
  obtain rfl : style = style' := Option.some.inj (detected.symm.trans detected')
  exact ⟨rfl, rfl⟩

theorem Asks.concerns {referrer : Path} {found : ResolvedReference} {rule : Rule}
    (asks : Asks plan g referrer found rule) :
    ∃ target spelt, Concerns plan g referrer found target spelt := by
  cases asks with
  | relative concerns => exact ⟨_, _, concerns⟩
  | unaliased concerns => exact ⟨_, _, concerns⟩
  | aliased concerns => exact ⟨_, _, concerns⟩

/-- What is asked for depends on the form of the reference and on the aliases. -/
theorem Concerns.asks_iff {referrer : Path} {found : ResolvedReference} {target spelt : Path}
    (concerns : Concerns plan g referrer found target spelt) {rule : Rule} :
    Asks plan g referrer found rule ↔
      ((g.resolver.form found.reference.specifier = .relative ∨
          g.resolver.form found.reference.specifier = .alias ∧ plan.isMoved target = true ∧
            aliasSpecifier? g.aliases spelt = none) ∧
        rule = ⟨found.reference.specifier, relativeSpecifier (plan.finalPath referrer).directory spelt,
          .referrer referrer⟩) ∨
      g.resolver.form found.reference.specifier = .alias ∧ plan.isMoved target = true ∧
        ∃ new, aliasSpecifier? g.aliases spelt = some new ∧
        rule = ⟨found.reference.specifier, new, .shared⟩ := by
  constructor
  · intro asks
    cases asks with
    | relative other form =>
      obtain ⟨rfl, rfl⟩ := concerns.unique other
      exact Or.inl ⟨Or.inl form, rfl⟩
    | unaliased other form moved outside =>
      obtain ⟨rfl, rfl⟩ := concerns.unique other
      exact Or.inl ⟨Or.inr ⟨form, moved, outside⟩, rfl⟩
    | aliased other form moved inside =>
      obtain ⟨rfl, rfl⟩ := concerns.unique other
      exact Or.inr ⟨form, moved, _, inside, rfl⟩
  · rintro (⟨form | ⟨form, moved, outside⟩, rfl⟩ | ⟨form, moved, new, inside, rfl⟩)
    · exact .relative concerns form
    · exact .unaliased concerns form moved outside
    · exact .aliased concerns form moved inside

theorem addObserved_unconcerned {referrer : Path} {found : ResolvedReference}
    (unconcerned : ∀ target spelt, ¬ Concerns plan g referrer found target spelt) (r : Rules) :
    addObserved plan g referrer r found = .ok r := by
  unfold addObserved
  simp only
  split
  · rfl
  · rename_i included
    split
    · rename_i target base resolved read
      split
      · rfl
      · rename_i moves
        split
        · rfl
        · rename_i style detected
          simp only [Bool.or_eq_true, Bool.not_eq_true', not_or, Bool.not_eq_false,
            Bool.not_eq_true] at included
          refine (unconcerned target _ ⟨included.1, included.2, resolved, ?_, base, style, read,
            detected, rfl⟩).elim
          simpa [or_iff_not_imp_left] using moves
    · rfl

/-- A reference that is concerned asks for one rule at most, and that one is added. -/
theorem Concerns.added {referrer : Path} {found : ResolvedReference} {target spelt : Path}
    (concerns : Concerns plan g referrer found target spelt)
    (added : addObserved plan g referrer r found = .ok r') :
    (r' = r ∧ ∀ rule, ¬ Asks plan g referrer found rule) ∨
      ∃ rule, r.add rule = .ok r' ∧ ∀ other, Asks plan g referrer found other ↔ other = rule := by
  obtain ⟨base, style, read, detected, rfl⟩ := concerns.styled
  have moves : ¬ (!plan.isMoved target && !plan.isMoved referrer) = true := by
    rcases concerns.moved with moved | moved <;> simp [moved]
  simp only [addObserved, concerns.pathed, concerns.literal, concerns.resolved, read, detected,
    if_neg moves, Bool.not_true, Bool.or_self, Bool.false_eq_true, if_false] at added
  simp only [concerns.asks_iff]
  generalize style.render (plan.finalPath target) = spelt at added ⊢
  generalize relativeSpecifier (plan.finalPath referrer).directory spelt = relative at added ⊢
  generalize found.reference.specifier = token at added ⊢
  split at added
  · rename_i form
    exact Or.inr ⟨⟨token, relative, .referrer referrer⟩, added, by simp [form]⟩
  · rename_i form
    split at added
    · rename_i moved
      split at added
      · rename_i new inside
        exact Or.inr ⟨⟨token, new, .shared⟩, added, by simp [form, moved, inside]⟩
      · rename_i outside
        exact Or.inr ⟨⟨token, relative, .referrer referrer⟩, added, by simp [form, moved, outside]⟩
    · rename_i stays
      cases added
      exact Or.inl ⟨rfl, by simp [form, stays]⟩
  · rename_i form
    cases added
    exact Or.inl ⟨rfl, by simp [form]⟩

/-! ### What deriving adds -/

section
variable {Q : Rules → Prop} {condition : Rule → Prop}
  (adds : ∀ r r' rule, r.add rule = .ok r' → (Q r' ↔ Q r ∧ condition rule))
include adds

theorem addCanonical_iff {m : Move} (added : addCanonical g.aliases g.resolver r m = .ok r') :
    Q r' ↔ Q r ∧ ∀ rule : Rule, canonical? g.aliases g.resolver m = some (rule.old, rule.new) →
    rule.scope = .shared →
      condition rule := by
  unfold addCanonical at added
  split at added
  · rename_i old new named
    have step := adds r r' ⟨old, new, .shared⟩ added
    rw [step, named]
    constructor
    · rintro ⟨before, holds⟩
      refine ⟨before, ?_⟩
      rintro ⟨_, _, _⟩ same rfl
      cases same
      exact holds
    · rintro ⟨before, holds⟩
      exact ⟨before, holds ⟨old, new, .shared⟩ rfl rfl⟩
  · rename_i unnamed
    cases added
    simp [unnamed]

theorem addObserved_iff {referrer : Path} {found : ResolvedReference}
    (added : addObserved plan g referrer r found = .ok r') :
    Q r' ↔ Q r ∧ ∀ rule, Asks plan g referrer found rule → condition rule := by
  by_cases concerned : ∃ target spelt, Concerns plan g referrer found target spelt
  · obtain ⟨target, spelt, concerns⟩ := concerned
    rcases concerns.added added with ⟨rfl, silent⟩ | ⟨rule, put, only⟩
    · simp [silent]
    · simp [adds r r' rule put, only]
  · have unconcerned : ∀ target spelt, ¬ Concerns plan g referrer found target spelt :=
      fun target spelt concerns =>
      concerned ⟨target, spelt, concerns⟩
    rw [addObserved_unconcerned unconcerned] at added
    cases added
    have silent : ∀ rule, ¬ Asks plan g referrer found rule := fun rule asks => concerned asks.concerns
    simp [silent]

theorem addModule_iff {n : Node} (added : addModule plan g r n = .ok r') :
    Q r' ↔ Q r ∧ ∀ found ∈ g.referencesFrom n.path, ∀ rule, Asks plan g n.path found rule →
    condition rule := by
  unfold addModule at added
  exact foldlM_iff (fun found _ r r' step => addObserved_iff adds step) added

/-- What holds of derived rules, if it depends on the rules that were added one by one: all that was
asked for was added, and nothing else. -/
theorem derive_iff (derived : derive plan g = .ok rules) :
    Q rules ↔ Q {} ∧ ∀ rule, Asked plan g rule → condition rule := by
  obtain ⟨first, named, derived⟩ := bind_ok derived
  obtain ⟨last, seen, derived⟩ := bind_ok derived
  split at derived
  · cases derived
  · cases derived
    have moves : Q first ↔ Q {} ∧ ∀ m ∈ plan.moves, ∀ rule : Rule,
        canonical? g.aliases g.resolver m = some (rule.old, rule.new) → rule.scope = .shared →
        condition rule :=
      foldlM_iff (fun m _ r r' step => addCanonical_iff adds step) named
    have references : Q rules ↔ Q first ∧ ∀ n ∈ g.nodes, ∀ found ∈ g.referencesFrom n.path,
        ∀ rule, Asks plan g n.path found rule → condition rule :=
      foldlM_iff (fun n _ r r' step => addModule_iff adds step) seen
    rw [references, moves, and_assoc]
    refine and_congr_right fun _ => ?_
    constructor
    · rintro ⟨canonical, observed⟩ rule (⟨m, member, names, scope⟩ | ⟨n, node, found, member, asks⟩)
      · exact canonical m member rule names scope
      · exact observed n node found member rule asks
    · intro all
      exact ⟨fun m member rule names scope => all rule (Or.inl ⟨m, member, names, scope⟩),
        fun n node found member rule asks => all rule (Or.inr ⟨n, node, found, member, asks⟩)⟩

end

theorem size_derived (derived : derive plan g = .ok rules) :
    rules.size = 0 ↔ ∀ rule, Asked plan g rule → rule.old = rule.new := by
  rw [derive_iff (Q := fun r => r.size = 0) (fun r r' rule => size_add) derived]
  exact and_iff_right rfl

theorem byReferrer_derived (derived : derive plan g = .ok rules) :
    rules.byReferrer = ∅ ↔ ∀ rule, Asked plan g rule → rule.scope = .shared := by
  rw [derive_iff (Q := fun r => r.byReferrer = ∅) (fun r r' rule => byReferrer_add) derived]
  exact and_iff_right rfl

/-- The size of derived rules is the length of their list, and rules that are empty have size zero.
Rules of size zero are empty unless one was asked for, for a single module, and left out because it
changes nothing. -/
theorem isEmpty_iff_size (plan : MovePlan) (g : Graph) (rules : Rules)
    (derived : derive plan g = .ok rules) : rules.size = rules.toList.length ∧
    (rules.isEmpty = true → rules.size = 0) ∧
    ((rules.size = 0 → rules.isEmpty = true) ↔
      (∃ rule, Asked plan g rule ∧ rule.old ≠ rule.new) ∨ ∀ rule, Asked plan g rule →
      rule.scope = .shared) := by
  refine ⟨size_eq_length rules, fun empty => (isEmpty_iff.mp empty).1, ?_⟩
  rw [isEmpty_iff, byReferrer_derived derived, size_derived derived]
  constructor
  · intro full
    by_cases changed : ∃ rule, Asked plan g rule ∧ rule.old ≠ rule.new
    · exact Or.inl changed
    · refine Or.inr (full fun rule asked => ?_).2
      by_contra changes
      exact changed ⟨rule, asked, changes⟩
  · rintro (⟨rule, asked, changes⟩ | shared) unchanged
    · exact (changes (unchanged rule asked)).elim
    · exact ⟨unchanged, shared⟩

def neighbourTree : SourceTree :=
  { root := ⟨"/project"⟩
    modules := [{ path := ⟨"lib/a.ts"⟩, content := "import './b'", size := 12 },
      { path := ⟨"lib/b.ts"⟩, content := "", size := 0 }]
    files := .ofList [⟨"lib/a.ts"⟩, ⟨"lib/b.ts"⟩] }

def neighbourExtractions : List Extraction :=
  [{ path := ⟨"lib/a.ts"⟩, references := [⟨⟨"lib/a.ts"⟩, "./b", .static, ⟨8, 11⟩, 1, false⟩],
     exports := {}, unparsable := 0 },
    { path := ⟨"lib/b.ts"⟩, references := [], exports := {}, unparsable := 0 }]

def neighbourGraph (dir : String) : Graph :=
  Graph.build neighbourTree neighbourExtractions [⟨"@/", ⟨dir⟩⟩] [".ts"]

def neighbourPlan : MovePlan := ⟨[⟨⟨"lib/a.ts"⟩, ⟨"api/a.ts"⟩⟩, ⟨⟨"lib/b.ts"⟩, ⟨"api/b.ts"⟩⟩]⟩

/-- The reference stays as it is and leaves an empty table. The rules for the names by alias are
counted. -/
theorem isEmpty_iff_size_neighbours :
    let rules : Rules := ⟨⟨[("@/lib/a", "@/api/a"), ("@/lib/b", "@/api/b")], by decide⟩,
      .single ⟨"lib/a.ts"⟩ ∅⟩
    derive neighbourPlan (neighbourGraph "") = .ok rules ∧ rules.size = 2 ∧
    rules.size = rules.toList.length ∧
      ((∃ rule, Asked neighbourPlan (neighbourGraph "") rule ∧ rule.old ≠ rule.new) ∨
        ∀ rule, Asked neighbourPlan (neighbourGraph "") rule → rule.scope = .shared) := by
  intro rules
  have derived : derive neighbourPlan (neighbourGraph "") = .ok rules := by decide +kernel
  obtain ⟨counted, _, agree⟩ := isEmpty_iff_size neighbourPlan (neighbourGraph "") rules derived
  exact ⟨derived, rfl, counted, agree.mp (fun zero => by cases zero)⟩

/-- Outside of all aliases nothing else is asked for: no rules are listed, yet they do not count as
empty. -/
theorem derive_unlisted :
    let rules : Rules := ⟨∅, .single ⟨"lib/a.ts"⟩ ∅⟩
    MovePlan.make ((neighbourGraph "src").nodes.map fun n => { path := n.path })
        (fun _ _ => some ⟨"api"⟩) (neighbourGraph "src").files = .ok neighbourPlan ∧
      derive neighbourPlan (neighbourGraph "src") = .ok rules ∧ rules.size = 0 ∧
      rules.isEmpty = false := by
  intro rules
  exact ⟨by decide +kernel, by decide +kernel, rfl, rfl⟩

end Relocation.Rules
