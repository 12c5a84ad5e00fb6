import Relocation.Proofs.Graph.Probing
import Relocation.Proofs.Specifier.Aliased

/-!
# What probing prefers

Probing tries the paths that a base can stand for one after the other and takes the first that is
there. When a target moves, its base moves with it: `detect?_render` for a base in the style of a
reference and `withoutExtension_links` for one without extension say that it stands to the target as
it did before.
-/

namespace Relocation

namespace Resolver

open SpecifierStyle

variable {r : Resolver} {style : SpecifierStyle} {base target : List String}

/-- The paths that a base path can stand for, in the order in which they are tried. -/
def probes (extensions : List String) (base : Path) : List Path :=
  if base.text = "" ∨ base.same ⟨"."⟩ then extensions.map fun ext => (⟨""⟩ : Path).join
    ⟨"index" ++ ext⟩
  else candidates extensions base

def answers (r : Resolver) (base p : Path) : Bool := r.hasModule p || (p.same base && r.hasFile p)

theorem find?_answers {b : Path} {ps : List Path}
    (others : ∀ p ∈ ps, (p.same b && r.hasFile p) = false) :
    ps.find? (r.answers b) = ps.find? r.hasModule := by
  rw [← List.head?_filter, ← List.head?_filter]
  congr 1
  refine List.filter_congr fun p member => ?_
  rw [answers, others p member, Bool.or_false]

theorem probe?_eq_find? (flat : ∀ ext ∈ r.extensions, '/' ∉ ext.toList)
    (valid : ∀ name ∈ base, Path.IsName name) :
    r.probe? (Path.tidy base) = (probes r.extensions (Path.tidy base)).find?
      (r.answers (Path.tidy base)) := by
  have root := tidy_isRoot valid
  unfold probe? probes
  split
  · rename_i top
    obtain rfl := root.mp top
    rw [find?_answers, probeIndex?]
    intro p member
    obtain ⟨ext, known, rfl⟩ := List.mem_map.mp member
    have named : (⟨"index" ++ ext⟩ : Path).Spells ["index" ++ ext] := by
      rw [← Path.plain_singleton]
      exact Path.spells_plain (by simpa using Path.index_isName (flat ext known))
    have apart : (⟨"index" ++ ext⟩ : Path).same (Path.tidy []) = false := by
      rw [← Bool.not_eq_true, named.same_iff, Path.Spells,
        show (Path.tidy []).components = [.current] by decide]
      simp
    rw [Path.join_empty, apart, Bool.false_and]
  · rw [candidates, List.find?_cons]
    have first : r.answers (Path.tidy base) (Path.tidy base) =
        (r.hasModule (Path.tidy base) || r.hasFile (Path.tidy base)) := by
      rw [answers, Path.same_iff.mpr rfl, Bool.true_and]
    rw [first]
    split
    · rename_i there
      rw [there]
    · rename_i absent
      rw [Bool.not_eq_true] at absent
      rw [absent, find?_answers, List.find?_append, probeIndex?]
      · split
        · rename_i p found
          rw [found, Option.some_or]
        · rename_i missed
          rw [missed, Option.none_or]
      · intro p _
        cases same : p.same (Path.tidy base) with
        | false => rfl
        | true =>
          rw [hasFile_congr (Path.same_iff.mp same), (Bool.or_eq_false_iff.mp absent).2]
          rfl

theorem mem_probes {extensions : List String} (flat : ∀ ext ∈ extensions, '/' ∉ ext.toList)
    (valid : ∀ name ∈ base, Path.IsName name) (links : Links extensions style base target) :
    Path.plain target ∈ probes extensions (Path.tidy base) := by
  have root := tidy_isRoot valid
  unfold probes
  split
  · rename_i top
    obtain rfl := root.mp top
    generalize none : ([] : List String) = base at links
    cases links with
    | explicit filled => exact (filled none.symm).elim
    | extensionless => simp at none
    | @directoryIndex _ ext known =>
      subst none
      exact List.mem_map.mpr ⟨ext, known, by rw [Path.join_empty, List.nil_append,
        Path.plain_singleton]⟩
  · rename_i deeper
    rw [Path.tidy_of_ne_nil (mt root.mpr deeper)]
    exact mem_candidates flat valid links

theorem answers_of_offers (links : Links r.extensions style base target)
    (offers : r.Offers style (Path.plain target)) :
    r.answers (Path.tidy base) (Path.plain target) = true := by
  rw [answers, Bool.or_eq_true]
  refine offers.imp id ?_
  rintro ⟨rfl, file⟩
  cases links with
  | explicit filled => rw [Path.tidy_of_ne_nil filled, Path.same_iff.mpr rfl, file, Bool.and_self]

/-- A path that would be found is found exactly if none that is tried before is there. -/
theorem resolvePath_iff_first {referrer p : Path} {token : String} {before after : List Path}
    (flat : ∀ ext ∈ r.extensions, '/' ∉ ext.toList) (valid : ∀ name ∈ base, Path.IsName name)
    (read : r.basePath? referrer token = some (Path.tidy base))
    (order : probes r.extensions (Path.tidy base) = before ++ p :: after) (first : p ∉ before)
    (there : r.answers (Path.tidy base) p = true) :
    r.resolvePath referrer token = .resolved [p] ↔
    ∀ q ∈ before, r.answers (Path.tidy base) q = false := by
  have found : r.probe? (Path.tidy base) = some p ↔
      ∀ q ∈ before, r.answers (Path.tidy base) q = false := by
    rw [probe?_eq_find? flat valid, order, List.find?_append, List.find?_cons_of_pos there]
    cases early : before.find? (r.answers (Path.tidy base)) with
    | none => simpa using early
    | some q =>
      have member := List.mem_of_find?_eq_some early
      have answered := List.find?_some early
      constructor
      · intro same
        exact (first (Option.some.inj same ▸ member)).elim
      · intro absent
        rw [absent q member] at answered
        cases answered
  rw [← found]
  refine ⟨fun resolved => ?_, resolvePath_of_probe valid read⟩
  obtain ⟨names, proper, again, probed⟩ := resolvePath_resolved resolved
  rw [Option.some.inj (read.symm.trans again)]
  exact probed

end Resolver

namespace SpecifierStyle

open Relocation.Path (IsName tidy plain)

variable {extensions : List String} {style found : SpecifierStyle} {base target moved : List String}
    {p : Path}

theorem Links.elsewhere {outer place : List String} {stem name : String}
    (links : Links extensions found (outer ++ [stem]) (outer ++ [name])) :
    Links extensions found (place ++ [stem]) (place ++ [name]) := by
  generalize left : outer ++ [stem] = base at links
  generalize right : outer ++ [name] = target at links
  cases links with
  | explicit =>
    rw [List.singleton_inj.mp (List.append_cancel_left (left.trans right.symm))]
    exact .explicit (by simp)
  | extensionless known =>
    obtain ⟨rfl, lasts⟩ := List.append_inj' left rfl
    rw [List.singleton_inj.mp (List.append_cancel_left right), List.singleton_inj.mp lasts]
    exact .extensionless known
  | directoryIndex =>
    subst left
    have lengths := congrArg List.length right
    simp at lengths

/-- The directory of an index module is left where the whole name counts as its extension. -/
theorem render_index {outer : List String} {ext : String}
    (spelt : p.Spells (outer ++ ["index" ++ ext])) :
    (render (.extensionless ("index" ++ ext)) p).Spells outer := by
  have names := spelt.isName
  have valid : ∀ name ∈ outer, IsName name := fun name member =>
    names name (List.mem_append_left _ member)
  by_cases filled : outer = []
  · subst filled
    have cut : withoutTail? ("index" ++ ext) p.slash = some "" := by
      rw [withoutTail?_eq_some, spelt.slash]
      simp
    rw [render, cut, Option.getD_some]
    decide
  · have cut : withoutTail? ("index" ++ ext) p.slash = some ((plain outer).text ++ "/") := by
      rw [withoutTail?_eq_some, spelt.slash, text_slash, Path.text_plain_append filled (by simp),
        Path.plain_singleton]
    have joined := (Path.spells_plain valid).join (show (⟨""⟩ : Path).Spells [] by decide)
    rw [Path.join_text_plain valid filled rfl, String.append_empty, List.append_nil] at joined
    rwa [render, cut, Option.getD_some]

/-- A target that moves under its name takes its base with it, in whichever style it was found. -/
theorem detect?_render (flat : ∀ ext ∈ extensions, '/' ∉ ext.toList)
    (left : ∀ name ∈ base, IsName name) (right : ∀ name ∈ target, IsName name)
    (links : Links extensions found base target)
    (detected : detect? (tidy base) (plain target) extensions = some style) (spelt : p.Spells moved)
    (named : moved.getLast? = target.getLast?) :
    ∃ base', (style.render p).Spells base' ∧ Links extensions found base' moved := by
  have slashes : (plain target).slash = "/".intercalate target := (Path.spells_plain right).slash
  have same := Path.tidy_same_plain left right links.filled
  unfold detect? at detected
  rw [slashes, Path.slash_tidy left] at detected
  cases links with
  | explicit filled =>
    rw [if_pos (same.mpr rfl)] at detected
    cases detected
    refine ⟨moved, spelt, .explicit ?_⟩
    rintro rfl
    exact filled (List.getLast?_eq_none_iff.mp named.symm)
  | @extensionless front last ext known =>
    rw [List.getLast?_concat] at named
    obtain ⟨outer, rfl⟩ := List.getLast?_eq_some_iff.mp named
    refine ⟨outer ++ [last], ?_, .extensionless known⟩
    split at detected
    · rename_i equal
      cases detected
      have lasts := List.singleton_inj.mp (List.append_cancel_left (same.mp equal))
      rwa [← lasts] at spelt
    · rw [text_slash, text_slash, ← Path.text_append, find?_extension known] at detected
      cases detected
      exact render_extensionless spelt (left last (by simp))
  | @directoryIndex _ ext known =>
    rw [List.getLast?_concat] at named
    obtain ⟨outer, rfl⟩ := List.getLast?_eq_some_iff.mp named
    refine ⟨outer, ?_, .directoryIndex known⟩
    rw [if_neg (mt same.mp (by simp))] at detected
    split at detected
    · rename_i other taken
      cases detected
      have fits := List.find?_some taken
      simp only [withoutTail?_eq_some, decide_eq_true_eq] at fits
      obtain ⟨rfl, rfl⟩ := extension_below (flat other (List.mem_of_find?_eq_some taken)) fits
      exact render_index spelt
    · obtain ⟨_, same⟩ := Option.ite_none_right_eq_some.mp detected
      cases same
      have parent := spelt.directory
      rwa [List.dropLast_concat] at parent

theorem count_withoutExtension {names : List String} {name : String}
    (spelt : p.Spells (names ++ [name])) (short : ¬ IsName (Path.stemOf name)) :
    p.withoutExtension.components.countP Component.isNormal ≤ names.length := by
  obtain ⟨front, rest, parted, comps, cut⟩ := spelt.segments_withoutExtension
  have stem : (Path.segment? (Path.stemOf name).toList).toList.countP Component.isNormal = 0 := by
    refine List.countP_eq_zero.mpr fun c member => ?_
    cases c with
    | normal other =>
      have slash : '/' ∉ (Path.stemOf name).toList := fun slash =>
        (spelt.isName name (by simp)).1 ((Path.stemOf_start name).subset slash)
      obtain ⟨same, proper⟩ := Path.segment?_normal slash (Option.mem_toList.mp member)
      rw [String.toList_inj.mp same] at short
      exact (short proper).elim
    | _ => exact Bool.false_ne_true
  have opening : p.withoutExtension.opening.countP Component.isNormal = 0 := by
    unfold Path.opening
    split
    · rfl
    · split <;> rfl
  have inner : p.withoutExtension.inner = names.map Component.normal ++
      (Path.segment? (Path.stemOf name).toList).toList := by
    rw [Path.inner, cut, List.filterMap_append, comps]
    cases found : Path.segment? (Path.stemOf name).toList <;> simp [found]
  rw [Path.components_eq, inner, List.countP_append, List.countP_append, stem, opening,
    Path.countP_names]
  omega

/-- A name whose stem is no name is never found without its extension. -/
theorem base_of_withoutExtension {source : Path} {front : List String} {name : String}
    (spelt : source.Spells (front ++ [name])) (valid : ∀ name ∈ base, IsName name)
    (cleaned : source.withoutExtension.clean = tidy base)
    (links : Links extensions found base (front ++ [name])) :
    IsName (Path.stemOf name) ∧ base = front ++ [Path.stemOf name] := by
  by_cases proper : IsName (Path.stemOf name)
  · have short := spelt.withoutExtension proper
    rw [short.clean_tidy] at cleaned
    exact ⟨proper, (Path.tidy_inj short.isName valid cleaned).symm⟩
  · have few : base.length ≤ front.length := by
      have components := Path.cleanComponents_of_tidy valid cleaned
      have kept := Path.countP_cleaned source.withoutExtension.components []
      rw [← List.countP_reverse, ← Path.cleanComponents, components, Path.countP_names,
        List.countP_nil] at kept
      have bound := count_withoutExtension spelt proper
      omega
    generalize whole : front ++ [name] = target at links
    have lengths := congrArg List.length whole
    cases links with
    | explicit =>
      rw [List.length_append, List.length_singleton] at lengths
      omega
    | extensionless =>
      simp only [List.length_append, List.length_singleton] at lengths few
      omega
    | @directoryIndex _ ext =>
      obtain ⟨_, last⟩ := List.append_inj' whole rfl
      rw [List.singleton_inj.mp last] at proper spelt
      refine (proper (Path.stemOf_isName (spelt.isName _ (by simp)) ?_)).elim
      rw [String.toList_append]
      simp

/-- A file name that loses nothing but its extension does so in every directory. -/
theorem withoutExtension_links {source : Path} {front place : List String} {name : String}
    (source_spelt : source.Spells (front ++ [name])) (spelt : p.Spells (place ++ [name]))
    (valid : ∀ name ∈ base, IsName name) (cleaned : source.withoutExtension.clean = tidy base)
    (links : Links extensions found base (front ++ [name])) :
    ∃ base', p.withoutExtension.Spells base' ∧ Links extensions found base' (place ++ [name]) := by
  obtain ⟨proper, rfl⟩ := base_of_withoutExtension source_spelt valid cleaned links
  exact ⟨place ++ [Path.stemOf name], spelt.withoutExtension proper, links.elsewhere⟩

end SpecifierStyle

end Relocation
