import Relocation.Proofs.Graph.Reverse
import Relocation.Proofs.Plan
import Relocation.Proofs.Rules.Splicing

/-!
# Modules that rules change

A module is read twice: at its old path, when the graph is built, and at its new one, when it is
edited. A move keeps the file name and with it the language, so both readings find the same
references. The modules that have a rule are therefore the ones that change (`mem_affected_iff`).
-/

namespace Relocation

theorem MovePlan.Sound.fileName?_finalPath {plan : MovePlan} {candidates : List Candidate}
    {existing : List Path} (sound : plan.Sound candidates existing) (p : Path) :
    (plan.finalPath p).fileName? = p.fileName? := by
  cases found : plan.destination? p with
  | none => rw [finalPath, found, Option.getD_none]
  | some target =>
    obtain ⟨m, member, same, rfl⟩ := destination?_some found
    obtain ⟨names, name, named, target, valid⟩ := sound.spelt m member
    have own : p.fileName? = some name := by
      rw [← named, Path.fileName?, Path.fileName?, same]
    rw [finalPath, found, Option.getD_some, own, target, (Path.spells_plain valid).fileName?,
      List.getLast?_concat]

theorem MovePlan.Sound.language_finalPath {plan : MovePlan} {candidates : List Candidate}
    {existing : List Path} (sound : plan.Sound candidates existing) (p : Path) :
    Language.ofPath? (plan.finalPath p) = Language.ofPath? p := by
  unfold Language.ofPath? Path.extension?
  rw [sound.fileName?_finalPath]

namespace Rules

variable {R : Rules} {referrer : Path}

/-! ### Edits -/

theorem editsOf_ne_nil_iff {refs : List Reference} :
    R.editsOf referrer refs ≠ [] ↔ refs.any (R.touches referrer) = true := by
  rw [List.any_eq_true]
  constructor
  · intro filled
    obtain ⟨e, member⟩ := List.exists_mem_of_ne_nil _ filled
    obtain ⟨ref, found, made⟩ := List.mem_filterMap.mp member
    refine ⟨ref, found, ?_⟩
    split at made
    · rename_i literal
      obtain ⟨new, rule, _⟩ := Option.map_eq_some_iff.mp made
      rw [touches, literal, rule]
      rfl
    · cases made
  · rintro ⟨ref, found, touched⟩
    obtain ⟨literal, ruled⟩ := (Bool.and_eq_true _ _).mp touched
    obtain ⟨new, rule⟩ := Option.isSome_iff_exists.mp ruled
    refine List.ne_nil_of_mem (a := ⟨ref.span, new⟩) (List.mem_filterMap.mpr ⟨ref, found, ?_⟩)
    rw [if_pos literal, rule]
    rfl

/-- The last edit is always made, so a text changes if it has any. -/
theorem replacements_pos_iff {extract : Path → String → Extraction} (fits : Extractor.SpansFit extract)
    {language : Path} {content : String} :
    0 < (R.apply extract referrer language content).replacements ↔
      (extract language content).references.any (R.touches referrer) = true := by
  obtain ⟨u, done, _⟩ := R.apply_of_spansFit fits referrer language content
  rw [← editsOf_ne_nil_iff, done]
  change 0 < (R.chosen referrer (extract language content).references).length ↔ _
  unfold chosen
  generalize R.editsOf referrer (extract language content).references = edits
  rw [← List.length_pos_iff, ← List.length_mergeSort edits]
  cases edits.mergeSort Edit.laterFirst with
  | nil => simp [Edit.choose]
  | cons e rest => simp [Edit.choose]

/-! ### Modules of a tree -/

theorem affected_module {tree : SourceTree} {reader : Extractor} {aliases : List Alias}
    {extensions : List String} {p : Path}
    (member : p ∈ R.affected (Graph.ofTree reader tree aliases extensions)) :
    ∃ m ∈ tree.modules, m.path = p := by
  obtain ⟨n, kept, rfl⟩ := List.mem_map.mp member
  exact Graph.nodesOf_module tree _ (List.mem_filter.mp kept).1

theorem affected_ascending (R : Rules) (tree : SourceTree) (reader : Extractor) (aliases : List Alias)
    (extensions : List String) :
    Keys.Ascending (R.affected (Graph.ofTree reader tree aliases extensions)) :=
  List.pairwise_map.mpr ((Graph.nodesOf_ascending tree _).filter _)

section
variable {tree : SourceTree} (distinct : tree.modules.Pairwise fun a b => a.path.same b.path = false)
  {reader : Extractor} (byLanguage : reader.ByLanguage) (aliases : List Alias)
  (extensions : List String)
include distinct byLanguage

/-- A module has a rule if one of the references in its text has one. -/
theorem mem_affected {m : Module} (member : m ∈ tree.modules) :
    m.path ∈ R.affected (Graph.ofTree reader tree aliases extensions) ↔
      (reader.extract m.path m.content).references.any (R.touches m.path) = true := by
  have found : ((Graph.ofTree reader tree aliases extensions).referencesFrom m.path).any
      (fun found => R.touches m.path found.reference) =
        (reader.extract m.path m.content).references.any (R.touches m.path) := by
    rw [Graph.referencesFrom_module distinct reader aliases extensions member]
    split
    · rw [Graph.resolveAll, List.any_map]
      rfl
    · rename_i undecoded
      rw [m.blank (by simpa using undecoded)]
      refine (List.any_eq_false.mpr fun ref found touched => ?_).symm
      have editable := touches_editable touched
      rw [byLanguage.empty m.path ref found] at editable
      cases editable
  rw [← found, affected, List.mem_map]
  constructor
  · rintro ⟨n, kept, same⟩
    have touched := (List.mem_filter.mp kept).2
    rwa [same] at touched
  · intro touched
    obtain ⟨n, node, same⟩ := (Graph.mem_nodes distinct).mpr ⟨m, member, rfl⟩
    refine ⟨n, List.mem_filter.mpr ⟨node, ?_⟩, same⟩
    rwa [same]

theorem mem_affected_iff (fits : Extractor.SpansFit reader.extract) {plan : MovePlan}
    {candidates : List Candidate} {existing : List Path} (sound : plan.Sound candidates existing)
    {m : Module} (member : m ∈ tree.modules) :
    m.path ∈ R.affected (Graph.ofTree reader tree aliases extensions) ↔
      0 < (R.apply reader.extract m.path (plan.finalPath m.path) m.content).replacements := by
  rw [mem_affected distinct byLanguage aliases extensions member, replacements_pos_iff fits,
    byLanguage.elsewhere (sound.language_finalPath m.path), List.any_map]
  rfl

end

end Rules

end Relocation
