import Relocation.Proofs.Graph.Precedence

/-!
# Where specifiers lead

`resolvePath_confined` says what each answer of the resolver means: a package, a path of names
inside the tree, which is the first that is there of those tried, or nothing.
-/

namespace Relocation.Resolver

variable {r : Resolver} {referrer base p : Path} {specifier : String}

/-- Of the paths that are tried for a base, this is the first that is there. -/
def Prefers (r : Resolver) (base p : Path) : Prop :=
  ∃ before after, probes r.extensions base = before ++ p :: after ∧ r.answers base p = true ∧
    ∀ q ∈ before, r.answers base q = false

theorem aliasFor?_eq_none_iff :
    r.aliasFor? specifier = none ↔ ∀ a ∈ r.aliases, ¬ a.lead.toList <+: specifier.toList := by
  simp only [aliasFor?, byLead, List.find?_eq_none, List.mem_mergeSort, List.isPrefixOf_iff_prefix]

theorem basePath?_eq_none_iff : r.basePath? referrer specifier = none ↔
    isRelativeSpecifier specifier = false ∧ ∀ a ∈ r.aliases, ¬ a.lead.toList <+: specifier.toList := by
  rw [← aliasFor?_eq_none_iff]
  unfold basePath?
  split
  · rename_i relative
    simp [relative]
  · rename_i absolute
    simp [absolute]

theorem basePath?_tidy (read : r.basePath? referrer specifier = some base)
    (inside : base.staysInside = true) : ∃ names, (∀ name ∈ names, Path.IsName name) ∧
    base = Path.tidy names := by
  obtain ⟨path, rfl⟩ := basePath?_clean read
  obtain ⟨names, cleaned, valid⟩ := Path.clean_spells inside
  exact ⟨names, valid, Path.clean_eq_tidy cleaned valid⟩

section
variable (flat : ∀ ext ∈ r.extensions, '/' ∉ ext.toList)
variable (read : r.basePath? referrer specifier = some base) (inside : base.staysInside = true)
include flat read inside

theorem probe?_eq_some_iff : r.probe? base = some p ↔ r.Prefers base p := by
  obtain ⟨names, valid, rfl⟩ := basePath?_tidy read inside
  rw [probe?_eq_find? flat valid, List.find?_eq_some_iff_append]
  simp only [Bool.not_eq_true']
  constructor
  · rintro ⟨there, before, after, order, absent⟩
    exact ⟨before, after, order, there, absent⟩
  · rintro ⟨before, after, order, there, absent⟩
    exact ⟨there, before, after, order, absent⟩

theorem probe?_eq_none_iff :
    r.probe? base = none ↔ ∀ p ∈ probes r.extensions base, r.answers base p = false := by
  obtain ⟨names, valid, rfl⟩ := basePath?_tidy read inside
  rw [probe?_eq_find? flat valid, List.find?_eq_none]
  simp only [Bool.not_eq_true]

theorem probe?_inside (found : r.probe? base = some p) :
    (∃ names, p.Spells names) ∧ (r.hasModule p = true ∨ r.hasFile p = true) := by
  obtain ⟨names, valid, rfl⟩ := basePath?_tidy read inside
  obtain ⟨_, target, rfl, proper, _, offers⟩ := probe?_links flat valid found
  exact ⟨⟨target, Path.spells_plain proper⟩, offers.imp id (·.2)⟩

end

theorem resolvePath_eq_external_iff :
    r.resolvePath referrer specifier = .unresolved .external ↔
    r.basePath? referrer specifier = none := by
  unfold resolvePath
  split
  · rename_i unread
    simp [unread]
  · rename_i base read
    rw [read]
    split
    · split <;> simp
    · simp

section
variable (flat : ∀ ext ∈ r.extensions, '/' ∉ ext.toList)
include flat

theorem resolvePath_eq_resolved_iff {targets : List Path} :
    r.resolvePath referrer specifier = .resolved targets ↔
      ∃ base p, r.basePath? referrer specifier = some base ∧ base.staysInside = true ∧ targets = [p] ∧
        r.Prefers base p := by
  constructor
  · intro resolved
    unfold resolvePath at resolved
    split at resolved
    · cases resolved
    · rename_i base read
      split at resolved
      · rename_i inside
        split at resolved
        · rename_i p found
          cases resolved
          exact ⟨base, p, read, inside, rfl, (probe?_eq_some_iff flat read inside).mp found⟩
        · cases resolved
      · cases resolved
  · rintro ⟨base, p, read, inside, rfl, first⟩
    have found := (probe?_eq_some_iff flat read inside).mpr first
    simp only [resolvePath, read, inside, if_true, found]

theorem resolvePath_eq_notFound_iff :
    r.resolvePath referrer specifier = .unresolved .notFound ↔
      ∃ base, r.basePath? referrer specifier = some base ∧
        (base.staysInside = false ∨ ∀ p ∈ probes r.extensions base, r.answers base p = false) := by
  constructor
  · intro missed
    unfold resolvePath at missed
    split at missed
    · cases missed
    · rename_i base read
      refine ⟨base, read, ?_⟩
      split at missed
      · rename_i inside
        split at missed
        · cases missed
        · rename_i absent
          exact Or.inr ((probe?_eq_none_iff flat read inside).mp absent)
      · rename_i outside
        exact Or.inl (by simpa using outside)
  · rintro ⟨base, read, reason⟩
    unfold resolvePath
    rw [read]
    simp only
    split
    · rename_i inside
      have absent := reason.resolve_left (by simp [inside])
      rw [(probe?_eq_none_iff flat read inside).mpr absent]
    · rfl

end

/-- A specifier is a package exactly if it is not relative and starts with no alias. It resolves
exactly to the first path that is there of those that its base can stand for, which lies inside the
tree, and to nothing exactly if the base leaves the tree or none of them is there. With an alias it
means the same everywhere. -/
theorem resolvePath_confined (r : Resolver) (flat : ∀ ext ∈ r.extensions, '/' ∉ ext.toList)
    (referrer : Path) (specifier : String) :
    (r.resolvePath referrer specifier = .unresolved .external ↔
      isRelativeSpecifier specifier = false ∧ ∀ a ∈ r.aliases, ¬ a.lead.toList <+: specifier.toList) ∧
    (∀ targets, r.resolvePath referrer specifier = .resolved targets ↔
      ∃ base p, r.basePath? referrer specifier = some base ∧ base.staysInside = true ∧ targets = [p] ∧
        r.Prefers base p) ∧
    (∀ p, r.resolvePath referrer specifier = .resolved [p] →
      p.isAbsolute = false ∧ (∀ c ∈ p.components, c.isNormal = true) ∧
      (r.hasModule p = true ∨ r.hasFile p = true)) ∧
    (r.resolvePath referrer specifier = .unresolved .notFound ↔
      ∃ base, r.basePath? referrer specifier = some base ∧
        (base.staysInside = false ∨ ∀ p ∈ probes r.extensions base, r.answers base p = false)) ∧
    (r.form specifier = .alias →
      ∀ other, r.resolvePath other specifier = r.resolvePath referrer specifier) := by
  refine ⟨resolvePath_eq_external_iff.trans basePath?_eq_none_iff, fun targets =>
    resolvePath_eq_resolved_iff flat,
    fun p resolved => ?_, resolvePath_eq_notFound_iff flat, fun form other => ?_⟩
  · obtain ⟨base, _, read, inside, same, first⟩ := (resolvePath_eq_resolved_iff flat).mp resolved
    cases same
    have found := (probe?_eq_some_iff flat read inside).mpr first
    obtain ⟨⟨names, spelt⟩, there⟩ := probe?_inside flat read inside found
    refine ⟨spelt.isRelative, fun c member => ?_, there⟩
    rw [show p.components = _ from spelt] at member
    obtain ⟨name, _, rfl⟩ := List.mem_map.mp member
    rfl
  · exact resolvePath_congr (basePath?_anywhere (absolute_of_form form) other referrer)

/-- Two modules of one stem, below the directory that an alias reaches in a roundabout way. -/
def roundabout : Resolver :=
  { modules := [⟨⟨"src/a.js"⟩, {}⟩, ⟨⟨"src/a.ts"⟩, {}⟩]
    files := [⟨"src/a.js"⟩, ⟨"src/a.ts"⟩]
    aliases := [⟨"~", ⟨"lib/../src/ui"⟩⟩]
    extensions := [".ts", ".js"] }

theorem resolvePath_confined_roundabout :
    (∀ ext ∈ roundabout.extensions, '/' ∉ ext.toList) ∧
      roundabout.resolvePath ⟨"main.ts"⟩ "~/../a" = .resolved [⟨"src/a.ts"⟩] ∧
      (∃ base, roundabout.basePath? ⟨"main.ts"⟩ "~/../a" = some base ∧
        roundabout.Prefers base ⟨"src/a.ts"⟩) ∧
      roundabout.resolvePath ⟨"main.ts"⟩ "~/../../../a" = .unresolved .notFound := by
  have flat : ∀ ext ∈ roundabout.extensions, '/' ∉ ext.toList := by decide
  have resolved : roundabout.resolvePath ⟨"main.ts"⟩ "~/../a" = .resolved [⟨"src/a.ts"⟩] := by
    decide +kernel
  have climbs : roundabout.basePath? ⟨"main.ts"⟩ "~/../../../a" = some ⟨"../a"⟩ := by decide +kernel
  obtain ⟨_, found, _, _, _⟩ := resolvePath_confined roundabout flat ⟨"main.ts"⟩ "~/../a"
  obtain ⟨_, _, _, missed, _⟩ := resolvePath_confined roundabout flat ⟨"main.ts"⟩ "~/../../../a"
  obtain ⟨base, p, read, _, same, first⟩ := (found _).mp resolved
  cases same
  exact ⟨flat, resolved, ⟨base, read, first⟩, missed.mpr ⟨_, climbs, Or.inl (by decide)⟩⟩

end Relocation.Resolver
