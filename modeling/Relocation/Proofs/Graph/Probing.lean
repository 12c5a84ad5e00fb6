import Relocation.Proofs.Specifier.Reading

/-!
# Probing

What probing finds stands in one of the styles to the base, and a target that stands so is found if
no other file can be meant.
-/

namespace Relocation.Resolver

open SpecifierStyle

variable {r : Resolver} {style : SpecifierStyle} {base target : List String}

def candidates (extensions : List String) (base : Path) : List Path :=
  base :: (extensions.map (fun ext => ⟨base.text ++ ext⟩) ++ extensions.map fun ext => base.join
    ⟨"index" ++ ext⟩)

def Unambiguous (files : List Path) (extensions : List String) : Prop :=
  ∀ base : List String, (∀ name ∈ base, Path.IsName name) → ∀ p ∈ files, ∀ q ∈ files,
    (candidates extensions (Path.plain base)).any p.same = true →
    (candidates extensions (Path.plain base)).any q.same = true → p.same q = true

def Offers (r : Resolver) (style : SpecifierStyle) (target : Path) : Prop :=
  r.hasModule target = true ∨ style = .explicit ∧ r.hasFile target = true

theorem hasFile_congr {p q : Path} (same : p.components = q.components) :
    r.hasFile p = r.hasFile q := by
  unfold hasFile Path.same
  rw [same]

theorem join_index {ext : String} (flat : '/' ∉ ext.toList) (valid : ∀ name ∈ base, Path.IsName name) :
    (Path.plain base).join ⟨"index" ++ ext⟩ = Path.plain (base ++ ["index" ++ ext]) := by
  rw [← Path.plain_singleton]
  exact Path.join_plain valid (by simpa using Path.index_isName flat) (by simp)

theorem mem_candidates {extensions : List String} (flat : ∀ ext ∈ extensions, '/' ∉ ext.toList)
    (valid : ∀ name ∈ base, Path.IsName name) (links : Links extensions style base target) :
    Path.plain target ∈ candidates extensions (Path.plain base) := by
  cases links with
  | explicit => exact List.mem_cons_self
  | @extensionless front last ext known =>
    refine List.mem_cons_of_mem _ (List.mem_append_left _ (List.mem_map.mpr ⟨ext, known, ?_⟩))
    rw [Path.text_append]
  | directoryIndex known =>
    refine List.mem_cons_of_mem _ (List.mem_append_right _ (List.mem_map.mpr ⟨_, known, ?_⟩))
    exact join_index (flat _ known) valid

theorem tidy_isRoot (valid : ∀ name ∈ base, Path.IsName name) :
    ((Path.tidy base).text = "" ∨ (Path.tidy base).same ⟨"."⟩ = true) ↔ base = [] := by
  constructor
  · intro root
    by_cases filled : base = []
    · exact filled
    · rw [Path.tidy_of_ne_nil filled] at root
      have spelt := Path.spells_plain valid
      rcases root with empty | dot
      · have path : Path.plain base = ⟨""⟩ := by rw [← empty]
        rw [path] at spelt
        exact spelt.unique (by decide)
      · have other := spelt.same_iff.mp dot
        have current : (⟨"."⟩ : Path).components = [.current] := by decide
        rw [Path.Spells, current] at other
        cases base <;> simp at other
  · rintro rfl
    decide

theorem probeIndex?_links (flat : ∀ ext ∈ r.extensions, '/' ∉ ext.toList)
    (valid : ∀ name ∈ base, Path.IsName name) {p : Path}
    (found : r.probeIndex? (Path.plain base) = some p) :
    ∃ ext ∈ r.extensions, p = Path.plain (base ++ ["index" ++ ext]) ∧ r.hasModule p = true := by
  unfold probeIndex? at found
  obtain ⟨ext, known, rfl⟩ := List.mem_map.mp (List.mem_of_find?_eq_some found)
  have there := List.find?_some found
  rw [join_index (flat ext known) valid] at there ⊢
  exact ⟨ext, known, rfl, there⟩

theorem probeIndex?_isSome (flat : ∀ ext ∈ r.extensions, '/' ∉ ext.toList)
    (valid : ∀ name ∈ base, Path.IsName name) {ext : String} (known : ext ∈ r.extensions)
    (there : r.hasModule (Path.plain (base ++ ["index" ++ ext])) = true) :
    (r.probeIndex? (Path.plain base)).isSome = true := by
  refine List.find?_isSome.mpr ⟨_, List.mem_map.mpr ⟨ext, known, rfl⟩, ?_⟩
  rw [join_index (flat ext known) valid]
  exact there

theorem probe?_links (flat : ∀ ext ∈ r.extensions, '/' ∉ ext.toList)
    (valid : ∀ name ∈ base, Path.IsName name) {p : Path} (found : r.probe? (Path.tidy base) = some p) :
    ∃ style target, p = Path.plain target ∧ (∀ name ∈ target, Path.IsName name) ∧
      Links r.extensions style base target ∧ r.Offers style p := by
  -- The index of the base, wherever the search for it starts.
  have index : r.probeIndex? (Path.plain base) = some p → ∃ style target, p = Path.plain target ∧
      (∀ name ∈ target, Path.IsName name) ∧ Links r.extensions style base target ∧
      r.Offers style p := by
    intro found
    obtain ⟨ext, known, same, there⟩ := probeIndex?_links flat valid found
    refine ⟨.directoryIndex, _, same, ?_, .directoryIndex known, Or.inl there⟩
    intro name member
    rcases List.mem_append.mp member with outer | last
    · exact valid name outer
    · rw [List.mem_singleton.mp last]
      exact Path.index_isName (flat ext known)
  have root := tidy_isRoot valid
  unfold probe? at found
  split at found
  · rename_i top
    have empty := root.mp top
    subst empty
    exact index found
  · rename_i deeper
    have filled : base ≠ [] := mt root.mpr deeper
    rw [Path.tidy_of_ne_nil filled] at found
    split at found
    · rename_i there
      cases found
      refine ⟨.explicit, base, rfl, valid, .explicit filled, ?_⟩
      rcases Bool.or_eq_true _ _ ▸ there with module | file
      · exact Or.inl module
      · exact Or.inr ⟨rfl, file⟩
    · split at found
      · rename_i other added
        cases found
        obtain ⟨ext, known, same⟩ := List.mem_map.mp (List.mem_of_find?_eq_some added)
        have there := List.find?_some added
        obtain ⟨front, last, rfl⟩ := (List.eq_nil_or_concat base).resolve_left filled
        rw [List.concat_eq_append] at valid same ⊢
        rw [Path.text_append] at same
        refine ⟨.extensionless ext, front ++ [last ++ ext], same.symm, ?_, .extensionless known,
          Or.inl there⟩
        intro name member
        rcases List.mem_append.mp member with outer | new
        · exact valid name (List.mem_append_left _ outer)
        · rw [List.mem_singleton.mp new]
          exact (valid last (by simp)).append (flat ext known)
      · exact index found

theorem probe?_isSome (flat : ∀ ext ∈ r.extensions, '/' ∉ ext.toList)
    (valid : ∀ name ∈ base, Path.IsName name) (links : Links r.extensions style base target)
    (offers : r.Offers style (Path.plain target)) : ∃ p, r.probe? (Path.tidy base) = some p := by
  have root := tidy_isRoot valid
  have module : style ≠ .explicit → r.hasModule (Path.plain target) = true := fun different =>
    offers.resolve_right fun named => different named.1
  refine Option.isSome_iff_exists.mp ?_
  unfold probe?
  split
  · rename_i top
    cases links with
    | explicit filled => exact (filled (root.mp top)).elim
    | extensionless =>
      have empty := root.mp top
      simp at empty
    | directoryIndex known =>
      have empty := root.mp top
      subst empty
      have found := probeIndex?_isSome flat valid known (module (by simp))
      exact found
  · rename_i deeper
    have filled : base ≠ [] := mt root.mpr deeper
    rw [Path.tidy_of_ne_nil filled]
    split
    · rfl
    · rename_i absent
      split
      · rfl
      · rename_i missed
        cases links with
        | explicit =>
          refine (absent ?_).elim
          rw [Bool.or_eq_true]
          exact offers.imp id (·.2)
        | extensionless known =>
          refine (List.find?_eq_none.mp missed _ (List.mem_map.mpr ⟨_, known, rfl⟩) ?_).elim
          rw [Path.text_append]
          exact module (by simp)
        | directoryIndex known => exact probeIndex?_isSome flat valid known (module (by simp))

/-- A target that is there and stands to the base in some style is what probing finds. -/
theorem probe?_only (flat : ∀ ext ∈ r.extensions, '/' ∉ ext.toList)
    (valid : ∀ name ∈ base, Path.IsName name) (proper : ∀ name ∈ target, Path.IsName name)
    (listed : ∀ p, r.hasModule p = true → r.hasFile p = true)
    (single : Unambiguous r.files r.extensions)
    (links : Links r.extensions style base target) (offers : r.Offers style (Path.plain target)) :
    r.probe? (Path.tidy base) = some (Path.plain target) := by
  have filed : ∀ {style names}, Links r.extensions style base names →
      r.Offers style (Path.plain names) →
      ∃ p ∈ r.files, p.same (Path.plain names) = true ∧
        (candidates r.extensions (Path.plain base)).any p.same = true := by
    intro style names links offers
    have file : r.hasFile (Path.plain names) = true := offers.elim (listed _) (·.2)
    obtain ⟨p, known, same⟩ := List.any_eq_true.mp file
    exact ⟨p, known, same, List.any_eq_true.mpr ⟨_, mem_candidates flat valid links, same⟩⟩
  obtain ⟨found, probed⟩ := probe?_isSome flat valid links offers
  obtain ⟨style', names, rfl, proper', links', offers'⟩ := probe?_links flat valid probed
  obtain ⟨p, left, same, among⟩ := filed links offers
  obtain ⟨q, right, same', among'⟩ := filed links' offers'
  have equal := Path.same_iff.mp (single base valid p left q right among among')
  have paths : (Path.plain target).same (Path.plain names) = true := Path.same_iff.mpr
    ((Path.same_iff.mp same).symm.trans (equal.trans (Path.same_iff.mp same')))
  rw [probed, (Path.same_of_spells (Path.spells_plain proper) (Path.spells_plain proper')).mp paths]

/-! ### Resolving -/

theorem basePath?_clean {referrer p : Path} {token : String}
    (read : r.basePath? referrer token = some p) : ∃ q : Path, p = q.clean := by
  unfold basePath? at read
  split at read
  · exact ⟨_, (Option.some.inj read).symm⟩
  · obtain ⟨a, _, same⟩ := Option.map_eq_some_iff.mp read
    exact ⟨_, same.symm⟩

theorem resolvePath_resolved {referrer p : Path} {token : String}
    (resolved : r.resolvePath referrer token = .resolved [p]) :
    ∃ base : List String, (∀ name ∈ base, Path.IsName name) ∧
    r.basePath? referrer token = some (Path.tidy base) ∧
      r.probe? (Path.tidy base) = some p := by
  unfold resolvePath at resolved
  split at resolved
  · cases resolved
  · rename_i q read
    split at resolved
    · rename_i inside
      split at resolved
      · rename_i found probed
        cases resolved
        obtain ⟨path, rfl⟩ := basePath?_clean read
        obtain ⟨base, cleaned, valid⟩ := Path.clean_spells inside
        rw [Path.clean_eq_tidy cleaned valid] at read probed
        exact ⟨base, valid, read, probed⟩
      · cases resolved
    · cases resolved

theorem resolvePath_of_probe {referrer p : Path} {token : String}
    (valid : ∀ name ∈ base, Path.IsName name)
    (read : r.basePath? referrer token = some (Path.tidy base))
    (probed : r.probe? (Path.tidy base) = some p) :
    r.resolvePath referrer token = .resolved [p] := by
  unfold resolvePath
  rw [read]
  simp only [Path.tidy_staysInside valid, if_true, probed]

/-- The path of the referrer counts by its components only, and only for a relative specifier. -/
theorem basePath?_same {p q : Path} (same : p.components = q.components) (token : String) :
    r.basePath? p token = r.basePath? q token := by
  unfold basePath?
  split
  · rename_i relative
    have cleaned : (p.directory.join ⟨token⟩).clean = (q.directory.join ⟨token⟩).clean := by
      unfold Path.clean
      rw [Path.cleanComponents_join (isAbsolute_relative relative), Path.cleanComponents_join
        (isAbsolute_relative relative), Path.components_directory, Path.components_directory, same]
    rw [cleaned]
  · rfl

theorem basePath?_anywhere {token : String} (written : isRelativeSpecifier token = false)
    (p q : Path) : r.basePath? p token = r.basePath? q token := by
  unfold basePath?
  simp only [written, Bool.false_eq_true, if_false]

theorem absolute_of_form {token : String} (form : r.form token = .alias) :
    isRelativeSpecifier token = false := by
  unfold Resolver.form at form
  split at form
  · cases form
  · rename_i absolute
    simpa using absolute

theorem basePath?_of_bare {referrer : Path} {token : String} (form : r.form token = .bare) :
    r.basePath? referrer token = none := by
  unfold Resolver.form at form
  unfold basePath?
  split at form
  · cases form
  · rename_i absolute
    rw [if_neg absolute]
    split at form
    · cases form
    · rename_i unknown
      rw [Option.not_isSome_iff_eq_none.mp unknown, Option.map_none]

theorem resolvePath_congr {p q : Path} {token : String}
    (same : r.basePath? p token = r.basePath? q token) :
    r.resolvePath p token = r.resolvePath q token := by
  unfold resolvePath
  rw [same]

theorem target?_eq_some {resolution : Resolution} {p : Path} :
    resolution.target? = some p ↔ resolution = .resolved [p] := by
  unfold Resolution.target?
  constructor
  · intro found
    split at found
    · rename_i only
      cases found
      cases resolution with
      | resolved targets => rw [show targets = [p] from only]
      | unresolved reason => cases only
    · cases found
  · rintro rfl
    rfl

end Relocation.Resolver
