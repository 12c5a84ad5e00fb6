import Relocation.Proofs.Extraction.Laws
import Relocation.Proofs.Rules.Rewriting

/-!
# Edits of any text

Spans that patterns find lie between characters of the text, and edits are made from its end on.
What is still to be edited is then as it was read, so that every edit finds its stretch
(`Edit.choose_makes`).
-/

namespace Relocation

open Text

/-! ### Bytes of pieces -/

def encodeChars (cs : List Char) : Bytes := cs.flatMap String.utf8EncodeChar

theorem length_encodeChars (cs : List Char) : (encodeChars cs).length = byteLength cs := by
  induction cs with
  | nil => rfl
  | cons c cs ih =>
    rw [encodeChars, List.flatMap_cons, List.length_append, String.length_utf8EncodeChar,
      byteLength_cons, ← ih]
    rfl

theorem encodeChars_append (a b : List Char) : encodeChars (a ++ b) = encodeChars a ++ encodeChars b :=
  List.flatMap_append

theorem encode_pieces {s : String} {a b : List Char} (whole : s.toList = a ++ b) :
    encode s = encodeChars a ++ encodeChars b := by
  rw [encode, whole, ← encodeChars_append, encodeChars]

theorem count_encodeChars (cs : List Char) : (encodeChars cs).count 10 = cs.count '\n' := by
  induction cs with
  | nil => rfl
  | cons c cs ih =>
    rw [← List.singleton_append, encodeChars_append, List.count_append, List.count_append, ih]
    congr 1
    rw [encodeChars, List.flatMap_singleton, count_utf8EncodeChar]

/-! ### What a reference marks -/

/-- The reference marks its specifier in the text: a stretch between characters, on the line that it
starts on. -/
structure Reference.Marks (content : String) (r : Reference) : Prop where
  ordered : r.span.start ≤ r.span.stop
  within : r.span.stop ≤ (encode content).length
  start : String.Pos.Raw.IsValid content ⟨r.span.start⟩
  stop : String.Pos.Raw.IsValid content ⟨r.span.stop⟩
  slice : ((encode content).take r.span.stop).drop r.span.start = encode r.specifier
  line : r.line = 1 + ((encode content).take r.span.start).count 10

theorem Reference.Quotes.marks {r : Reference} {content : String} (quotes : r.Quotes content.toList) :
    r.Marks content := by
  obtain ⟨front, back, whole, start, stop, line⟩ := quotes
  have whole' : content.toList = (front ++ r.specifier.toList) ++ back := by
    rw [whole, List.append_assoc]
  have stop' : r.span.stop = (encodeChars (front ++ r.specifier.toList)).length := by
    rw [stop, length_encodeChars, byteLength_append]
  have start' : r.span.start = (encodeChars front).length := by rw [start, length_encodeChars]
  refine ⟨by omega, ?_, ?_, ?_, ?_, ?_⟩
  · rw [encode_pieces whole', List.length_append]
    omega
  · rw [start]
    exact isValid_front whole
  · rw [stop, ← byteLength_append]
    exact isValid_front whole'
  · rw [encode_pieces whole', stop', List.take_left, encodeChars_append, start', List.drop_left]
    rfl
  · rw [encode_pieces whole, start', List.take_left, count_encodeChars, line]

/-! ### Edits -/

namespace Edit

def overwrite (bytes : Bytes) (e : Edit) : Bytes :=
  bytes.take e.span.start ++ encode e.new ++ bytes.drop e.span.stop

theorem overwrite_append {e : Edit} (a m b : Bytes) (start : e.span.start = a.length)
    (stop : e.span.stop = (a ++ m).length) : overwrite (a ++ m ++ b) e = a ++ encode e.new ++ b := by
  rw [overwrite, start, stop, List.drop_left, List.append_assoc a m b, List.take_left]

/-- The edits can be made one after the other: each replaces a stretch between characters of the
text that the ones before it have left. -/
inductive Runs : String → List Edit → String → Prop
  | done (s : String) : Runs s [] s
  | next {s t u : String} {e : Edit} {rest : List Edit} (ordered : e.span.start ≤ e.span.stop)
    (start : String.Pos.Raw.IsValid s ⟨e.span.start⟩) (stop : String.Pos.Raw.IsValid s ⟨e.span.stop⟩)
    (made : encode t = e.overwrite (encode s)) (others : Runs t rest u) : Runs s (e :: rest) u

theorem Runs.encode_eq {s u : String} {es : List Edit} (runs : Runs s es u) :
    encode u = es.foldl overwrite (encode s) := by
  induction runs with
  | done s => rfl
  | next _ _ _ made _ ih => rw [List.foldl_cons, ← made, ih]

theorem runs_of_make? {text t : List Char} {e : Edit} (made : make? text e = some t) {rest : List Edit}
    {u : String} (others : Runs (String.ofList t) rest u) :
    Runs (String.ofList text) (e :: rest) u := by
  obtain ⟨front, inside, back, whole, start, stop, rfl⟩ := make?_eq_some_iff.mp made
  have first : (String.ofList text).toList = front ++ (inside ++ back) := by
    rw [String.toList_ofList, whole]
  have second : (String.ofList text).toList = (front ++ inside) ++ back := by
    rw [first, List.append_assoc]
  have edited := overwrite_append (e := e) (encodeChars front) (encodeChars inside) (encodeChars back)
    (start.trans (length_encodeChars front).symm)
    (by rw [stop, List.length_append, length_encodeChars, length_encodeChars])
  refine .next (by omega) ?_ ?_ ?_ others
  · rw [start]
    exact isValid_front first
  · rw [stop, ← byteLength_append]
    exact isValid_front second
  · rw [encode_pieces second, encodeChars_append, edited, encode_pieces (String.toList_ofList),
      encodeChars_append, List.append_assoc]
    rfl

theorem runs_of_foldlM {text t : List Char} {es : List Edit} (made : es.foldlM make? text = some t) :
    Runs (String.ofList text) es (String.ofList t) := by
  induction es generalizing text with
  | nil =>
    cases made
    exact .done _
  | cons e rest ih =>
    obtain ⟨next, first, others⟩ := Option.bind_eq_some_iff.mp made
    exact runs_of_make? first (ih others)

def Cuts (text : List Char) (e : Edit) : Prop :=
  ∃ front inside back, text = front ++ (inside ++ back) ∧ e.span.start = byteLength front ∧
    e.span.stop = byteLength front + byteLength inside

theorem Cuts.of_fits {content : String} {e : Edit} (fits : e.span.Fits content) :
    Cuts content.toList e := by
  obtain ⟨front, back, whole, start⟩ := String.Pos.Raw.isValid_iff_exists_append.mp fits.start
  obtain ⟨front', back', whole', stop⟩ := String.Pos.Raw.isValid_iff_exists_append.mp fits.stop
  have start : e.span.start = byteLength front.toList := by
    rw [byteLength_toList]
    exact congrArg String.Pos.Raw.byteIdx start
  have stop : e.span.stop = byteLength front'.toList := by
    rw [byteLength_toList]
    exact congrArg String.Pos.Raw.byteIdx stop
  have first : front.toList <+: content.toList := ⟨back.toList, by rw [whole, String.toList_append]⟩
  have second : front'.toList <+: content.toList :=
    ⟨back'.toList, by rw [whole', String.toList_append]⟩
  obtain ⟨inside, same⟩ := prefix_of_byteLength_le first second
    (by rw [← start, ← stop]; exact fits.ordered)
  refine ⟨front.toList, inside, back'.toList, ?_, start, ?_⟩
  · rw [whole', String.toList_append, ← same, List.append_assoc]
  · rw [stop, ← same, byteLength_append]

theorem Cuts.of_append {kept old : List Char} {e : Edit} (cuts : Cuts (kept ++ old) e)
    (ends : e.span.stop ≤ byteLength kept) : Cuts kept e := by
  obtain ⟨front, inside, back, whole, start, stop⟩ := cuts
  have beginning : front ++ inside <+: kept ++ old := ⟨back, by rw [whole, List.append_assoc]⟩
  obtain ⟨rest, same⟩ := prefix_of_byteLength_le beginning (List.prefix_append kept old)
    (by rw [byteLength_append]; omega)
  exact ⟨front, inside, rest, by rw [← same, List.append_assoc], start, stop⟩

/-- The edits that are chosen can be made. The text is as it was read up to where the last one began
(`kept`), and no further edit reaches over that place. -/
theorem choose_makes {text kept old : List Char} (new : List Char) {limit : Option Nat}
    {es : List Edit} (whole : text = kept ++ old) (cuts : ∀ e ∈ es, Cuts text e)
    (free : ∀ e, Cuts text e → ¬ limit.any (· < e.span.stop) = true → Cuts kept e) :
    ∃ t, (choose limit es).foldlM make? (kept ++ new) = some t := by
  induction es generalizing kept old new limit with
  | nil => exact ⟨_, rfl⟩
  | cons e rest ih =>
    have others : ∀ e ∈ rest, Cuts text e := fun e member => cuts e (List.mem_cons_of_mem _ member)
    rw [choose]
    split
    · exact ih new whole others free
    · rename_i apart
      obtain ⟨front, inside, back, parts, start, stop⟩ := free e (cuts e List.mem_cons_self) apart
      have made : make? (kept ++ new) e = some (front ++ (e.new.toList ++ (back ++ new))) := by
        refine make?_eq_some_iff.mpr ⟨front, inside, back ++ new, ?_, start, stop, rfl⟩
        rw [parts, List.append_assoc, List.append_assoc]
      have remaining : text = front ++ (inside ++ back ++ old) := by
        rw [whole, parts, List.append_assoc front]
      have further : ∀ d, Cuts text d → ¬ (some e.span.start).any (· < d.span.stop) = true →
          Cuts front d := by
        intro d cut below
        rw [remaining] at cut
        apply cut.of_append
        simp only [Option.any_some, decide_eq_true_eq] at below
        omega
      rw [List.foldlM_cons, made]
      exact ih (e.new.toList ++ (back ++ new)) remaining others further

end Edit

namespace Rules

variable {R : Rules} {referrer : Path} {refs : List Reference} {content : String}

def chosen (R : Rules) (referrer : Path) (refs : List Reference) : List Edit :=
  Edit.choose none ((R.editsOf referrer refs).mergeSort Edit.laterFirst)

theorem touches_editable {ref : Reference} (touched : R.touches referrer ref = true) :
    ref.isEditable = true := ((Bool.and_eq_true _ _).mp touched).1

theorem editsOf_fit (fits : ∀ ref ∈ refs, R.touches referrer ref = true → ref.span.Fits content)
    {e : Edit} (member : e ∈ R.editsOf referrer refs) : e.span.Fits content := by
  obtain ⟨ref, listed, made⟩ := List.mem_filterMap.mp member
  split at made
  · rename_i editable
    obtain ⟨new, rule, rfl⟩ := Option.map_eq_some_iff.mp made
    exact fits ref listed (by rw [touches, editable, rule]; rfl)
  · cases made

theorem apply_eq_done {extract : Path → String → Extraction} {language : Path}
    (fits : ∀ ref ∈ (extract language content).references, R.touches referrer ref = true →
      ref.span.Fits content) :
    ∃ u, R.apply extract referrer language content =
        .done u (R.chosen referrer (extract language content).references).length ∧
      Edit.Runs content (R.chosen referrer (extract language content).references) u := by
  obtain ⟨t, made⟩ : ∃ t, (R.chosen referrer (extract language content).references).foldlM Edit.make?
      (content.toList ++ []) = some t :=
    Edit.choose_makes [] (List.append_nil _).symm
      (fun e member => .of_fits (editsOf_fit fits (List.mem_mergeSort.mp member))) fun e cut _ => cut
  rw [List.append_nil] at made
  have runs := Edit.runs_of_foldlM made
  rw [String.ofList_toList] at runs
  refine ⟨String.ofList t, ?_, runs⟩
  unfold chosen at made ⊢
  simp only [Rules.apply, made]

/-- With an extractor whose spans fit, all edits that are chosen are made. -/
theorem apply_of_spansFit {extract : Path → String → Extraction} (fits : Extractor.SpansFit extract)
    (R : Rules) (referrer language : Path) (content : String) :
    ∃ u, R.apply extract referrer language content =
        .done u (R.chosen referrer (extract language content).references).length ∧
      Edit.Runs content (R.chosen referrer (extract language content).references) u :=
  apply_eq_done fun ref found touched => fits language content ref found (touches_editable touched)

end Rules

/-- On any text, the references that the patterns find are in strict order of span and kind, and
each marks its specifier. All edits that rules ask for can therefore be made. -/
theorem Lexical.extract_spans_sound (path : Path) (content : String) :
    (ReferenceKind.static.rank < ReferenceKind.lazy.rank ∧
      ReferenceKind.lazy.rank < ReferenceKind.structural.rank) ∧
    (Lexical.extract path content).references.Pairwise Reference.Earlier ∧
    ((Lexical.extract path content).references.map fun r => (r.span, r.kind)).Nodup ∧
    (∀ r ∈ (Lexical.extract path content).references, r.Marks content) ∧
    (∀ r ∈ Lexical.staticReferences path (lineStarts content.toList) content.toList ++
        Lexical.lazyReferences path (lineStarts content.toList) content.toList,
      ∃ q ∈ (Lexical.extract path content).references, q.position = r.position) ∧
    ∀ (R : Rules) (referrer : Path), ∃ u,
      R.apply Lexical.extract referrer path content =
        .done u (R.chosen referrer (Lexical.extract path content).references).length ∧
      Edit.Runs content (R.chosen referrer (Lexical.extract path content).references) u := by
  have strict : (Lexical.extract path content).references.Pairwise Reference.Earlier :=
    Reference.arrange_earlier _
  refine ⟨by decide, strict, ?_, fun r member => (extract_quotes
    member).marks, ?_, fun R referrer => ?_⟩
  · exact List.pairwise_map.mpr (strict.imp fun before => before.apart)
  · intro r found
    exact Reference.exists_mem_arrange (List.mem_append_left _ found)
  · exact R.apply_of_spansFit Lexical.spansFit referrer path content

/-- Two characters of two bytes each, one before the span and one in it. -/
theorem Lexical.extract_spans_sound_accented :
    let content := "// é\nimport 'ñ';"
    let r : Reference :=
      { source := ⟨"a.ts"⟩, specifier := "ñ", kind := .static, span := ⟨14, 16⟩, line := 2,
        computed := false }
    let R : Rules := { shared := .single "ñ" "./é" }
    (Lexical.extract ⟨"a.ts"⟩ content).references = [r] ∧ r.Marks content ∧
      R.apply Lexical.extract ⟨"a.ts"⟩ ⟨"a.ts"⟩ content = .done "// é\nimport './é';" 1 ∧
      Edit.Runs content (R.chosen ⟨"a.ts"⟩ [r]) "// é\nimport './é';" := by
  intro content r R
  have found : (Lexical.extract ⟨"a.ts"⟩ content).references = [r] := by decide +kernel
  have result : R.apply Lexical.extract ⟨"a.ts"⟩ ⟨"a.ts"⟩ content = .done "// é\nimport './é';" 1 := by
    decide +kernel
  obtain ⟨_, _, _, marks, _, edits⟩ := Lexical.extract_spans_sound ⟨"a.ts"⟩ content
  obtain ⟨u, made, runs⟩ := edits R ⟨"a.ts"⟩
  rw [result] at made
  rw [← (Edited.done.inj made).1, found] at runs
  exact ⟨found, marks r (by rw [found]; exact List.mem_singleton.mpr rfl), result, runs⟩

end Relocation
