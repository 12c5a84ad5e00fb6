import Relocation.Extraction.Backend
import Relocation.Proofs.Extraction.Spans
import Relocation.Proofs.Text.Utf8

/-!
# Laws of extractors

What is found in a module belongs to that module, depends on its path through the language alone and
lies between characters of its text. Patterns keep to these laws, and so does a walk through any tree.
-/

namespace Relocation

open Text

structure Span.Fits (content : String) (span : Span) : Prop where
  ordered : span.start ≤ span.stop
  start : String.Pos.Raw.IsValid content ⟨span.start⟩
  stop : String.Pos.Raw.IsValid content ⟨span.stop⟩

theorem Span.fits_of_append {content : String} {front inside back : List Char}
    (whole : content.toList = front ++ (inside ++ back)) {span : Span}
    (start : span.start = byteLength front)
    (stop : span.stop = byteLength front + byteLength inside) : span.Fits content := by
  refine ⟨by omega, ?_, ?_⟩
  · rw [start]
    exact isValid_front whole
  · rw [stop, ← byteLength_append]
    exact isValid_front (whole.trans (List.append_assoc _ _ _).symm)

namespace Reference

def isEditable (r : Reference) : Bool := r.kind.hasPath && !r.computed

def withSource (path : Path) (r : Reference) : Reference := { r with source := path }

theorem dropRepeats_withSource (path : Path) (rs : List Reference) :
    dropRepeats (rs.map (withSource path)) = (dropRepeats rs).map (withSource path) := by
  induction rs with
  | nil => rfl
  | cons r rest ih =>
    rw [List.map_cons]
    cases shape : dropRepeats rest with
    | nil =>
      rw [shape] at ih
      rw [dropRepeats, ih, dropRepeats, shape]
      rfl
    | cons next later =>
      rw [shape, List.map_cons] at ih
      rw [dropRepeats_cons _ ih, dropRepeats_cons r shape]
      change (if r.position = next.position then _ else _) = _
      split <;> rfl

theorem arrange_withSource (path : Path) (rs : List Reference) :
    arrange (rs.map (withSource path)) = (arrange rs).map (withSource path) := by
  have sorted : (rs.mergeSort atOrBefore).map (withSource path) =
      (rs.map (withSource path)).mergeSort atOrBefore := List.map_mergeSort fun _ _ _ _ => rfl
  rw [arrange, ← sorted, dropRepeats_withSource, arrange]

end Reference

/-- A way to read modules. What it yields belongs to the module that is read. -/
structure Extractor where
  extract : Path → String → Extraction
  path : ∀ path content, (extract path content).path = path
  sources : ∀ {path content}, ∀ r ∈ (extract path content).references, r.source = path

namespace Extractor

/-- A module is read by its language, and in an empty one there is nothing to edit. -/
structure ByLanguage (e : Extractor) : Prop where
  elsewhere {p q : Path} (same : Language.ofPath? q = Language.ofPath? p) (content : String) :
    (e.extract q content).references = (e.extract p content).references.map (Reference.withSource q)
  empty (p : Path) : ∀ r ∈ (e.extract p "").references, r.isEditable = false

def SpansFit (extract : Path → String → Extraction) : Prop :=
  ∀ path content, ∀ r ∈ (extract path content).references, r.isEditable = true → r.span.Fits content

end Extractor

/-! ### Patterns -/

namespace Lexical

theorem extract_sources {path : Path} {content : String} {r : Reference}
    (member : r ∈ (Lexical.extract path content).references) : r.source = path := by
  rcases List.mem_append.mp (Reference.mem_arrange member) with pathed | structural
  · rcases List.mem_append.mp pathed with static | lazy
    · obtain ⟨found, _, read⟩ := List.mem_filterMap.mp static
      obtain ⟨group, _, rfl⟩ := Option.map_eq_some_iff.mp read
      rfl
    · rcases List.mem_append.mp lazy with literal | computed
      · obtain ⟨found, _, read⟩ := List.mem_filterMap.mp literal
        obtain ⟨group, _, rfl⟩ := Option.map_eq_some_iff.mp read
        rfl
      · obtain ⟨found, _, read⟩ := List.mem_filterMap.mp computed
        obtain ⟨group, _, rfl⟩ := Option.map_eq_some_iff.mp read
        rfl
  · split at structural
    · obtain ⟨found, _, read⟩ := List.mem_filterMap.mp structural
      obtain ⟨group, _, named⟩ := Option.bind_eq_some_iff.mp read
      split at named
      · cases named
      · cases named
        rfl
    · cases structural

theorem references_elsewhere {p q : Path} (same : Language.ofPath? q = Language.ofPath? p)
    (content : String) : (Lexical.extract q content).references =
      (Lexical.extract p content).references.map (Reference.withSource q) := by
  have static (lines : List Nat) : staticReferences q lines content.toList =
      (staticReferences p lines content.toList).map (Reference.withSource q) := by
    simp only [staticReferences, List.map_filterMap, Option.map_map]
    rfl
  have deferred (lines : List Nat) : lazyReferences q lines content.toList =
      (lazyReferences p lines content.toList).map (Reference.withSource q) := by
    simp only [lazyReferences, List.map_append, List.map_filterMap, Option.map_map]
    rfl
  have structural (lines : List Nat) : structuralReferences q lines content.toList =
      (structuralReferences p lines content.toList).map (Reference.withSource q) := by
    simp only [structuralReferences, List.map_filterMap]
    congr 1
    funext m
    cases m.groups.head? with
    | none => rfl
    | some g =>
      simp only [Option.bind_some]
      split <;> rfl
  unfold Lexical.extract
  simp only [same, ← Reference.arrange_withSource, List.map_append, static, deferred]
  split
  · rw [structural]
  · rfl

theorem references_empty (p : Path) : (Lexical.extract p "").references = [] := by
  have none : Reference.arrange [] = [] := by
    rw [Reference.arrange, List.mergeSort_nil]
    rfl
  refine Eq.trans ?_ none
  unfold Lexical.extract
  simp only
  split <;> rfl

def extractor : Extractor where
  extract := Lexical.extract
  path _ _ := rfl
  sources _ := extract_sources

theorem byLanguage : extractor.ByLanguage where
  elsewhere := references_elsewhere
  empty p r member := by
    change r ∈ (Lexical.extract p "").references at member
    rw [references_empty] at member
    cases member

theorem spansFit : Extractor.SpansFit Lexical.extract := by
  intro path content r member _
  obtain ⟨front, back, whole, start, stop, _⟩ := extract_quotes member
  exact Span.fits_of_append whole start stop

end Lexical

/-! ### Trees -/

namespace Walk

variable {w : Walk} {n : Tree} {r : Reference}

/-- A reference to take down: it is of the walk's module, and a path that can be edited stands in
the text, behind a quote. -/
structure Takes (w : Walk) (r : Reference) : Prop where
  source : r.source = w.path
  editable : r.isEditable = true → 0 < r.span.start ∧ ∃ front inside back,
    w.text = front ++ (inside ++ back) ∧ r.span.start = byteLength front ∧
      r.span.stop = byteLength front + byteLength inside

theorem takes_literal {kind : ReferenceKind} (found : .reference r = w.literal kind n) :
    w.Takes r := by
  unfold literal at found
  simp only at found
  split at found
  · cases found
  · rename_i specifier slice
    cases found
    obtain ⟨front, back, whole, start, stop⟩ := slice?_eq_some_iff.mp slice
    refine ⟨rfl, fun _ => ⟨Nat.succ_pos _, front, specifier, back, ?_, start.symm, ?_⟩⟩
    · rw [whole, List.append_assoc]
    · rw [← byteLength_append]
      exact stop.symm

theorem reference?_specifierName {f : Finding} (member : f ∈ w.specifierName n) :
    f.reference? = none := by
  unfold specifierName at member
  split at member
  · obtain ⟨name, _, rfl⟩ := Option.map_eq_some_iff.mp (Option.mem_toList.mp member)
    rfl
  · cases member

theorem reference?_exportPart {f : Finding} (member : f ∈ w.exportPart n) :
    f.reference? = none := by
  unfold exportPart at member
  split at member
  · cases List.mem_singleton.mp member
    rfl
  · obtain ⟨name, _, rfl⟩ := Option.map_eq_some_iff.mp (Option.mem_toList.mp member)
    rfl
  · obtain ⟨c, _, inside⟩ := List.mem_flatMap.mp member
    exact reference?_specifierName inside
  · cases member

theorem reference?_declaratorName {f : Finding} (member : f ∈ w.declaratorName n) :
    f.reference? = none := by
  unfold declaratorName at member
  split at member
  · cases member
  · split at member
    · cases List.mem_singleton.mp member
      rfl
    · cases member

theorem reference?_declarationNames {f : Finding} (member : f ∈ w.declarationNames n) :
    f.reference? = none := by
  unfold declarationNames at member
  split at member
  · obtain ⟨c, _, inside⟩ := List.mem_flatMap.mp member
    exact reference?_declaratorName inside
  · obtain ⟨c, _, inside⟩ := List.mem_flatMap.mp member
    exact reference?_declaratorName inside
  · split at member
    · cases member
    · split at member
      · cases member
      · cases List.mem_singleton.mp member
        rfl

theorem reference?_exports {f : Finding} (member : f ∈ w.exports n) : f.reference? = none := by
  rcases List.mem_append.mp member with front | names
  · rcases List.mem_append.mp front with parts | star
    · obtain ⟨c, _, inside⟩ := List.mem_flatMap.mp parts
      exact reference?_exportPart inside
    · split at star
      · cases List.mem_singleton.mp star
        rfl
      · cases star
  · obtain ⟨c, _, inside⟩ := List.mem_flatMap.mp names
    exact reference?_declarationNames inside

theorem takes_lazyCall (found : .reference r ∈ w.lazyCall n) : w.Takes r := by
  unfold lazyCall at found
  split at found
  · cases found
  · split at found
    · exact takes_literal (List.mem_singleton.mp found)
    · cases List.mem_singleton.mp found
      exact ⟨rfl, fun editable => absurd editable (by simp [Reference.isEditable, referenceAt])⟩

theorem takes_element (found : .reference r ∈ w.element n) : w.Takes r := by
  unfold element at found
  split at found
  · cases found
  · split at found
    · cases List.mem_singleton.mp found
      refine ⟨rfl, fun editable => absurd editable ?_⟩
      simp [Reference.isEditable, referenceAt, ReferenceKind.hasPath]
    · cases found

theorem takes_findings (found : .reference r ∈ w.findings n) : w.Takes r := by
  unfold findings at found
  split at found
  · obtain ⟨q, _, same⟩ := List.mem_map.mp found
    exact takes_literal same.symm
  · rcases List.mem_append.mp found with exported | source
    · cases reference?_exports exported
    · obtain ⟨q, _, same⟩ := List.mem_map.mp source
      exact takes_literal same.symm
  · split at found
    · exact takes_lazyCall found
    · cases found
  · split at found
    · exact takes_element found
    · cases found
  · split at found
    · exact takes_element found
    · cases found
  · cases found

mutual

theorem takes_visit (n : Tree) (found : .reference r ∈ w.visit n) : w.Takes r := by
  cases n with
  | node label children =>
    rw [visit] at found
    split at found
    · cases List.mem_singleton.mp found
    · rcases List.mem_append.mp found with here | below
      · rcases List.mem_append.mp here with missing | own
        · split at missing
          · cases List.mem_singleton.mp missing
          · cases missing
        · exact takes_findings own
      · exact takes_visitAll children below

theorem takes_visitAll (ns : List Tree) (found : .reference r ∈ w.visitAll ns) : w.Takes r := by
  cases ns with
  | nil => cases found
  | cons n rest =>
    rw [visitAll] at found
    rcases List.mem_append.mp found with here | later
    · exact takes_visit n here
    · exact takes_visitAll rest later

end

theorem takes_extraction {root : Tree} (found : r ∈ (w.extraction root).references) : w.Takes r := by
  obtain ⟨f, visited, read⟩ := List.mem_filterMap.mp (Reference.mem_arrange found)
  cases f with
  | reference q =>
    cases read
    exact takes_visit root visited
  | _ => cases read

/-! ### Walks of another module -/

def moved (w : Walk) (path : Path) : Walk := { w with path }

theorem markup_moved (path : Path) : (w.moved path).markup = w.markup := rfl

theorem literal_moved (path : Path) (kind : ReferenceKind) (n : Tree) :
    ((w.moved path).literal kind n).reference? =
      ((w.literal kind n).reference?).map (Reference.withSource path) := by
  unfold literal
  simp only [moved]
  split <;> rfl

theorem lazyCall_moved (path : Path) (n : Tree) :
    ((w.moved path).lazyCall n).filterMap Finding.reference? =
      ((w.lazyCall n).filterMap Finding.reference?).map (Reference.withSource path) := by
  unfold lazyCall
  cases (n.field? "arguments").bind (·.namedChildren.head?) with
  | none => rfl
  | some argument =>
    simp only
    split
    · have read := literal_moved (w := w) path .lazy argument
      cases found : (w.literal .lazy argument).reference? <;> simp_all
    · rfl

theorem element_moved (path : Path) (n : Tree) :
    ((w.moved path).element n).filterMap Finding.reference? =
      ((w.element n).filterMap Finding.reference?).map (Reference.withSource path) := by
  unfold element
  cases n.field? "name" with
  | none => rfl
  | some name =>
    have text : (w.moved path).textOf name = w.textOf name := rfl
    by_cases named : (name.kind == "identifier" && isComponentName (w.textOf name)) = true
    · simp only [text, if_pos named]
      rfl
    · simp only [text, if_neg named]
      rfl

theorem findings_moved (path : Path) (n : Tree) :
    ((w.moved path).findings n).filterMap Finding.reference? =
      ((w.findings n).filterMap Finding.reference?).map (Reference.withSource path) := by
  have sources : ∀ q : Option Tree,
      (q.toList.map ((w.moved path).literal .static)).filterMap Finding.reference? =
        ((q.toList.map (w.literal .static)).filterMap Finding.reference?).map
          (Reference.withSource path) := by
    intro q
    cases q with
    | none => rfl
    | some q =>
      have read := literal_moved (w := w) path .static q
      cases found : (w.literal .static q).reference? <;> simp_all
  have silent : ∀ v : Walk, (v.exports n).filterMap Finding.reference? = [] :=
    fun v => List.filterMap_eq_nil_iff.mpr fun f => reference?_exports
  unfold findings
  generalize n.kind = kind
  split
  · exact sources _
  · simp only [List.filterMap_append, silent, List.nil_append]
    exact sources _
  · split
    · exact lazyCall_moved path n
    · rfl
  · rw [markup_moved]
    split
    · exact element_moved path n
    · rfl
  · rw [markup_moved]
    split
    · exact element_moved path n
    · rfl
  · rfl

mutual

theorem visit_moved (path : Path) (n : Tree) :
    ((w.moved path).visit n).filterMap Finding.reference? =
      ((w.visit n).filterMap Finding.reference?).map (Reference.withSource path) := by
  cases n with
  | node label children =>
    rw [visit, visit]
    split
    · rfl
    · simp only [List.filterMap_append, List.map_append, findings_moved, visitAll_moved path children]
      split <;> rfl

theorem visitAll_moved (path : Path) (ns : List Tree) :
    ((w.moved path).visitAll ns).filterMap Finding.reference? =
      ((w.visitAll ns).filterMap Finding.reference?).map (Reference.withSource path) := by
  cases ns with
  | nil => rfl
  | cons n rest =>
    rw [visitAll, visitAll, List.filterMap_append, List.filterMap_append, List.map_append,
      visit_moved path n, visitAll_moved path rest]

end

theorem extraction_moved (path : Path) (root : Tree) : ((w.moved path).extraction root).references =
    (w.extraction root).references.map (Reference.withSource path) := by
  simp only [extraction, visit_moved, Reference.arrange_withSource]

end Walk

namespace Parser

variable (parser : Parser)

/-- A parser is asked for a tree; patterns take its place if it has none. -/
theorem extract_cases (path : Path) (content : String) :
    parser.extract path content = Lexical.extract path content ∨
    ∃ (w : Walk) (root : Tree), w.path = path ∧ w.text = content.toList ∧
      parser.extract path content = w.extraction root := by
  unfold extract
  split
  · exact Or.inl rfl
  · split
    · exact Or.inl rfl
    · exact Or.inr ⟨_, _, rfl, rfl, rfl⟩

def extractor : Extractor where
  extract := parser.extract
  path path content := by
    rcases parser.extract_cases path content with same | ⟨w, root, own, _, same⟩
    · rw [same]
      rfl
    · rw [same, ← own]
      rfl
  sources {path content} r found := by
    rcases parser.extract_cases path content with same | ⟨w, root, own, _, same⟩
    · rw [same] at found
      exact Lexical.extract_sources found
    · rw [same] at found
      exact (Walk.takes_extraction found).source.trans own

theorem byLanguage : parser.extractor.ByLanguage where
  elsewhere {p q} same content := by
    change (parser.extract q content).references = (parser.extract p content).references.map _
    unfold extract
    rw [same]
    cases Language.ofPath? p with
    | none => exact Lexical.references_elsewhere same content
    | some language =>
      simp only
      split
      · exact Lexical.references_elsewhere same content
      · exact Walk.extraction_moved (w := ⟨p, _, _⟩) q _
  empty p r found := by
    change r ∈ (parser.extract p "").references at found
    rcases parser.extract_cases p "" with same | ⟨w, root, _, text, same⟩
    · rw [same, Lexical.references_empty] at found
      cases found
    · rw [same] at found
      refine Bool.eq_false_iff.mpr fun editable => ?_
      -- Behind a quote no place is left in an empty text.
      obtain ⟨after, front, inside, back, whole, start, _⟩ :=
        (Walk.takes_extraction found).editable editable
      have none : front = [] := by
        rw [text] at whole
        exact (List.append_eq_nil_iff.mp whole.symm).1
      rw [start, none] at after
      exact absurd after (Nat.lt_irrefl 0)

theorem spansFit : Extractor.SpansFit parser.extract := by
  intro path content r found editable
  rcases parser.extract_cases path content with same | ⟨w, root, _, text, same⟩
  · rw [same] at found
    exact Lexical.spansFit path content r found editable
  · rw [same] at found
    obtain ⟨_, front, inside, back, whole, start, stop⟩ :=
      (Walk.takes_extraction found).editable editable
    exact Span.fits_of_append (text.symm.trans whole) start stop

end Parser

namespace Backend

def extractor (backend : Backend) : Extractor where
  extract := backend.extract
  path := match backend with
    | .grammar => Grammar.parser.extractor.path
    | .lexical => Lexical.extractor.path
  sources := match backend with
    | .grammar => Grammar.parser.extractor.sources
    | .lexical => Lexical.extractor.sources

theorem byLanguage (backend : Backend) : backend.extractor.ByLanguage := by
  cases backend with
  | grammar => exact Grammar.parser.byLanguage
  | lexical => exact Lexical.byLanguage

theorem spansFit (backend : Backend) : Extractor.SpansFit backend.extract := by
  cases backend with
  | grammar => exact Grammar.parser.spansFit
  | lexical => exact Lexical.spansFit

end Backend

end Relocation
