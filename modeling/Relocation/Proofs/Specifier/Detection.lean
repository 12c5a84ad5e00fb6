import Relocation.Proofs.Graph.Probing

/-!
# Detecting styles

A target that moves under its file name is spelt in the style that it was spelt in before
(`detect?_moved`). What a specifier resolves to is recognised in a style that leads back to the base
of the specifier, index modules behind an extension with a second dot apart (`detect?_resolved`).
-/

namespace Relocation

/-- The directory that a base path names; the root has no name. -/
def Path.asDirectory (base : Path) : Path := if base.same ⟨"."⟩ then ⟨""⟩ else base

theorem Path.asDirectory_tidy {names : List String} (valid : ∀ name ∈ names, Path.IsName name) :
    (Path.tidy names).asDirectory = Path.plain names := by
  by_cases root : names = []
  · subst root
    rfl
  · rw [Path.asDirectory, Path.tidy_of_ne_nil root, if_neg]
    intro dot
    exact root ((Resolver.tidy_isRoot valid).mp (Or.inr (by rwa [Path.tidy_of_ne_nil root])))

namespace SpecifierStyle

variable {extensions : List String} {base front : List String}

/-! ### Moved targets -/

/-- An extension that is not the whole file name is cut off the file name. -/
theorem extension_cut {name ext : String} (flat : '/' ∉ ext.toList) (apart : name ≠ ext)
    (left : ∀ name ∈ base, Path.IsName name) (right : ∀ other ∈ front ++ [name], Path.IsName other)
    (text : "/".intercalate (front ++ [name]) = "/".intercalate base ++ ext) :
    ∃ stem, base = front ++ [stem] ∧ name = stem ++ ext := by
  rcases List.eq_nil_or_concat base with rfl | ⟨outer, last, rfl⟩
  · by_cases top : front = []
    · subst top
      exact (apart (by simpa using text)).elim
    · rw [text_slash, Path.text_plain_append top (by simp)] at text
      refine (flat ?_).elim
      rw [← show _ = ext by simpa using text]
      simp
  · rw [List.concat_eq_append] at left text ⊢
    rw [text_slash, text_slash, Path.text_append] at text
    have longer : ∀ other ∈ outer ++ [last ++ ext], Path.IsName other := by
      intro other member
      rcases List.mem_append.mp member with old | new
      · exact left other (List.mem_append_left _ old)
      · rw [List.mem_singleton.mp new]
        exact (left last (by simp)).append flat
    have spelt := Path.spells_plain right
    rw [show Path.plain (front ++ [name]) = Path.plain (outer ++ [last ++ ext])
      from congrArg Path.mk text] at spelt
    obtain ⟨rfl, names⟩ := List.append_inj' (spelt.unique (Path.spells_plain longer)) rfl
    exact ⟨last, rfl, List.singleton_inj.mp names⟩

/-- A target that goes elsewhere under its file name is spelt there in the same style. -/
theorem detect?_moved (dotted : ∀ ext ∈ extensions, IsDotted ext) (b t t' : Path)
    (left : ∀ c ∈ b.components, c.isNormal = true) (right : ∀ c ∈ t.components, c.isNormal = true)
    (right' : ∀ c ∈ t'.components, c.isNormal = true) (name : String) (named : t.fileName? = some name)
    (named' : t'.fileName? = some name) (apart : name ∉ extensions) (style : SpecifierStyle)
    (detected : detect? b t extensions = some style) :
    detect? (style.render t') t' extensions = some style := by
  obtain ⟨base, source⟩ := Path.spells_of_normal left
  obtain ⟨target, before⟩ := Path.spells_of_normal right
  obtain ⟨moved, after⟩ := Path.spells_of_normal right'
  rw [before.fileName?] at named
  rw [after.fileName?] at named'
  obtain ⟨front, rfl⟩ := List.getLast?_eq_some_iff.mp named
  obtain ⟨place, rfl⟩ := List.getLast?_eq_some_iff.mp named'
  cases style with
  | explicit => exact (detect?_explicit_iff after after).mpr rfl
  | extensionless ext =>
    obtain ⟨known, text⟩ := (detect?_extensionless_iff source before dotted).mp detected
    have whole : name ≠ ext := fun same => apart (same ▸ known)
    rw [source.slash, before.slash] at text
    obtain ⟨stem, rfl, rfl⟩ :=
      extension_cut (dotted ext known).2 whole source.isName before.isName text
    have cut := render_extensionless after (source.isName stem (by simp))
    refine (detect?_extensionless_iff cut after dotted).mpr ⟨known, ?_⟩
    rw [cut.slash, after.slash, text_slash, text_slash, Path.text_append]
  | directoryIndex =>
    obtain ⟨other, parts, index⟩ := (detect?_directoryIndex_iff source before dotted).mp detected
    obtain ⟨_, names⟩ := List.append_inj' parts rfl
    rw [← List.singleton_inj.mp names] at index
    have parent := after.directory
    rw [List.dropLast_concat] at parent
    exact (detect?_directoryIndex_iff parent after dotted).mpr ⟨name, rfl, index⟩

/-- Two extensions fit the file name, and the target moves to the root. -/
theorem detect?_moved_declarations :
    (∀ ext ∈ [".ts", ".d.ts"], IsDotted ext) ∧
      (∀ c ∈ (⟨"src/lib/types"⟩ : Path).components, c.isNormal = true) ∧
      (∀ c ∈ (⟨"src/lib/types.d.ts"⟩ : Path).components, c.isNormal = true) ∧
      (∀ c ∈ (⟨"types.d.ts"⟩ : Path).components, c.isNormal = true) ∧
      detect? ⟨"src/lib/types"⟩ ⟨"src/lib/types.d.ts"⟩ [".ts", ".d.ts"] =
        some (.extensionless ".d.ts") ∧
      detect? (render (.extensionless ".d.ts") ⟨"types.d.ts"⟩) ⟨"types.d.ts"⟩ [".ts", ".d.ts"] =
        some (.extensionless ".d.ts") := by
  have dotted : ∀ ext ∈ [".ts", ".d.ts"], IsDotted ext := by decide
  have left : ∀ c ∈ (⟨"src/lib/types"⟩ : Path).components, c.isNormal = true := by decide
  have right : ∀ c ∈ (⟨"src/lib/types.d.ts"⟩ : Path).components, c.isNormal = true := by decide
  have right' : ∀ c ∈ (⟨"types.d.ts"⟩ : Path).components, c.isNormal = true := by decide
  have detected : detect? ⟨"src/lib/types"⟩ ⟨"src/lib/types.d.ts"⟩ [".ts", ".d.ts"] =
      some (.extensionless ".d.ts") := by
    decide
  exact ⟨dotted, left, right, right', detected, detect?_moved dotted _ _ _ left right right'
    "types.d.ts" (by decide) (by decide) (by decide) _ detected⟩

/-! ### Resolved targets -/

section
variable {target : List String} {b t : Path} (left : b.Spells base)
include left

theorem render_detected (dotted : ∀ ext ∈ extensions, IsDotted ext) (right : t.Spells target)
    {style : SpecifierStyle} (detected : detect? b t extensions = some style) :
    (style.render t).Spells base := by
  cases style with
  | explicit =>
    obtain rfl := (detect?_explicit_iff left right).mp detected
    exact right
  | extensionless ext =>
    obtain ⟨_, text⟩ := (detect?_extensionless_iff left right dotted).mp detected
    rw [render, withoutTail?_eq_some.mpr text, Option.getD_some, left.slash]
    exact Path.spells_plain left.isName
  | directoryIndex =>
    obtain ⟨name, rfl, _⟩ := (detect?_directoryIndex_iff left right dotted).mp detected
    have parent := right.directory
    rwa [List.dropLast_concat] at parent

/-- An index module is not recognised by the name of its directory if its extension has a second dot. -/
theorem detect?_index_eq_none_iff (dotted : ∀ ext ∈ extensions, IsDotted ext) {ext : String}
    (known : ext ∈ extensions) (right : t.Spells (base ++ ["index" ++ ext])) :
    detect? b t extensions = none ↔ '.' ∈ ext.toList.tail := by
  have stem : Path.stemOf ("index" ++ ext) = "index" ↔ '.' ∉ ext.toList.tail :=
    Path.stemOf_append_iff (by decide) (dotted ext known)
  have index := detect?_directoryIndex_iff left right dotted
  constructor
  · intro missed
    refine Decidable.byContradiction fun single => ?_
    rw [index.mpr ⟨_, rfl, stem.mpr single⟩] at missed
    cases missed
  · intro double
    cases detected : detect? b t extensions with
    | none => rfl
    | some style =>
      cases style with
      | explicit =>
        have same := (detect?_explicit_iff left right).mp detected
        simp at same
      | extensionless other =>
        obtain ⟨listed, text⟩ := (detect?_extensionless_iff left right dotted).mp detected
        rw [left.slash, right.slash] at text
        obtain ⟨_, rfl⟩ := extension_below (dotted other listed).2 text
        have first := (dotted _ listed).1
        simp at first
      | directoryIndex =>
        obtain ⟨name, parts, named⟩ := index.mp detected
        rw [← List.singleton_inj.mp (List.append_cancel_left parts)] at named
        exact (stem.mp named double).elim

end

/-- The style of a specifier that resolves is recognised and leads back to the base that the
specifier names, with one exception: of an extension with a second dot only what follows the last
one is taken off, so that no style is found for an index module with such an extension. -/
theorem detect?_resolved (r : Resolver) (dotted : ∀ ext ∈ r.extensions, IsDotted ext)
    (referrer b t : Path) (token : String) (resolved : r.resolvePath referrer token = .resolved [t])
    (read : r.basePath? referrer token = some b) :
    (∀ style, detect? b t r.extensions = some style → (style.render t).same b.asDirectory = true) ∧
      (detect? b t r.extensions = none ↔
        ∃ ext ∈ r.extensions, '.' ∈ ext.toList.tail ∧
        t.same (b.asDirectory.join ⟨"index" ++ ext⟩) = true) := by
  have flat : ∀ ext ∈ r.extensions, '/' ∉ ext.toList := fun ext known => (dotted ext known).2
  obtain ⟨base, valid, again, probed⟩ := Resolver.resolvePath_resolved resolved
  obtain rfl := Option.some.inj (again.symm.trans read)
  obtain ⟨found, target, rfl, proper, links, _⟩ := Resolver.probe?_links flat valid probed
  have left := Path.spells_plain valid
  have right := Path.spells_plain proper
  have stands : ∀ ext ∈ r.extensions, (Path.plain target).same
      ((Path.plain base).join ⟨"index" ++ ext⟩) = true ↔ target = base ++ ["index" ++ ext] := by
    intro ext known
    have names : ∀ name ∈ base ++ ["index" ++ ext], Path.IsName name := by
      intro name member
      rcases List.mem_append.mp member with outer | last
      · exact valid name outer
      · rw [List.mem_singleton.mp last]
        exact Path.index_isName (flat ext known)
    rw [Resolver.join_index (flat ext known) valid,
      Path.same_of_spells right (Path.spells_plain names)]
  rw [Path.asDirectory_tidy valid, detect?_tidy right links.filled]
  refine ⟨fun style detected => (render_detected left dotted right detected).same_iff.mpr left, ?_⟩
  cases links with
  | explicit filled =>
    rw [(detect?_explicit_iff left right).mpr rfl]
    refine iff_of_false (by simp) fun ⟨ext, known, _, same⟩ => ?_
    have names := (stands ext known).mp same
    simp at names
  | @extensionless front last ext known =>
    have text : (Path.plain (front ++ [last ++ ext])).slash =
        (Path.plain (front ++ [last])).slash ++ ext := by
      rw [left.slash, right.slash, text_slash, text_slash, Path.text_append]
    rw [(detect?_extensionless_iff left right dotted).mpr ⟨known, text⟩]
    refine iff_of_false (by simp) fun ⟨other, listed, _, same⟩ => ?_
    have lengths := congrArg List.length ((stands other listed).mp same)
    simp at lengths
  | @directoryIndex _ ext known =>
    rw [detect?_index_eq_none_iff left dotted known right]
    constructor
    · intro double
      exact ⟨ext, known, double, (stands ext known).mpr rfl⟩
    · rintro ⟨other, listed, double, same⟩
      have names := List.singleton_inj.mp (List.append_cancel_left ((stands other listed).mp same))
      rw [String.append_right_inj] at names
      rwa [names]

/-- The second dot does no harm where the extension is left off. -/
theorem detect?_resolved_declarations :
    let r : Resolver := ⟨[⟨⟨"src/types.d.ts"⟩, {}⟩], [], [], [".ts", ".d.ts"]⟩
    (∀ ext ∈ r.extensions, IsDotted ext) ∧ r.resolvePath ⟨"src/main.ts"⟩ "./types" = .resolved
      [⟨"src/types.d.ts"⟩] ∧ r.basePath? ⟨"src/main.ts"⟩ "./types" = some ⟨"src/types"⟩ ∧
      detect? ⟨"src/types"⟩ ⟨"src/types.d.ts"⟩ r.extensions = some (.extensionless ".d.ts") ∧
      (render (.extensionless ".d.ts") ⟨"src/types.d.ts"⟩).same (⟨"src/types"⟩ : Path).asDirectory =
        true := by
  intro r
  have dotted : ∀ ext ∈ r.extensions, IsDotted ext := by decide
  have resolved : r.resolvePath ⟨"src/main.ts"⟩ "./types" = .resolved [⟨"src/types.d.ts"⟩] := by decide
  have read : r.basePath? ⟨"src/main.ts"⟩ "./types" = some ⟨"src/types"⟩ := by decide
  have detected : detect? ⟨"src/types"⟩ ⟨"src/types.d.ts"⟩ r.extensions =
    some (.extensionless ".d.ts") := by decide
  exact ⟨dotted, resolved, read, detected, (detect?_resolved r dotted _ _ _ _ resolved read).1
    _ detected⟩

theorem detect?_misses_index :
    let r : Resolver := ⟨[⟨⟨"src/lib/index.d.ts"⟩, {}⟩], [], [], [".ts", ".d.ts"]⟩
    (∀ ext ∈ r.extensions, IsDotted ext) ∧
      r.resolvePath ⟨"src/main.ts"⟩ "./lib" = .resolved [⟨"src/lib/index.d.ts"⟩] ∧
      r.basePath? ⟨"src/main.ts"⟩ "./lib" = some ⟨"src/lib"⟩ ∧
      detect? ⟨"src/lib"⟩ ⟨"src/lib/index.d.ts"⟩ r.extensions = none := by
  decide

end SpecifierStyle

end Relocation
