import Relocation.Proofs.Extraction.Reading
import Relocation.Proofs.Table
import Relocation.Proofs.Text.Utf8
import Relocation.Rules

/-!
# Rewriting import programs

Edits of stretches that lie apart are all made, however they were listed. On an import program there
is one for each statement with a rule, so that applying rules is replacing specifiers
(`apply_statements`).
-/

namespace Relocation

open Text

/-! ### Edits that lie apart -/

namespace Edit

def Before (a b : Edit) : Prop := a.span.start < b.span.start ∧ a.span.stop ≤ b.span.start

theorem laterFirst_trans (a b c : Edit) (first : laterFirst a b = true)
    (second : laterFirst b c = true) : laterFirst a c = true := by
  simp only [laterFirst, decide_eq_true_eq] at first second ⊢
  omega

theorem laterFirst_total (a b : Edit) : (laterFirst a b || laterFirst b a) = true := by
  simp only [laterFirst, Bool.or_eq_true, decide_eq_true_eq]
  omega

theorem mergeSort_laterFirst {es : List Edit} (ordered : es.Pairwise Before) :
    es.mergeSort laterFirst = es.reverse := by
  refine mergeSort_eq_of_strict laterFirst_trans laterFirst_total (List.reverse_perm es).symm
    (List.pairwise_reverse.mpr ?_)
  refine ordered.imp fun {a b} before => ?_
  have before : a.span.start < b.span.start := before.1
  simp only [laterFirst, decide_eq_true_eq, decide_eq_false_iff_not]
  omega

theorem choose_all (limit : Option Nat) {es : List Edit}
    (apart : es.Pairwise fun a b => b.span.stop ≤ a.span.start)
    (below : ∀ n ∈ limit, ∀ e ∈ es, e.span.stop ≤ n) : choose limit es = es := by
  induction es generalizing limit with
  | nil => rfl
  | cons e rest ih =>
    obtain ⟨before, others⟩ := List.pairwise_cons.mp apart
    have free : ¬ limit.any (· < e.span.stop) = true := by
      cases limit with
      | none => exact Bool.false_ne_true
      | some n =>
        have := below n rfl e List.mem_cons_self
        simp only [Option.any_some, decide_eq_true_eq]
        omega
    rw [choose, if_neg free, ih _ others]
    intro n same
    cases same
    exact before

/-- An edit is made where its span is a stretch of the text. -/
theorem make?_eq_some_iff {text t : List Char} {e : Edit} :
    make? text e = some t ↔ ∃ front inside back, text = front ++ (inside ++ back) ∧
      e.span.start = byteLength front ∧ e.span.stop = byteLength front + byteLength inside ∧
      t = front ++ (e.new.toList ++ back) := by
  constructor
  · intro made
    obtain ⟨⟨first, back⟩, cut, made⟩ := Option.bind_eq_some_iff.mp made
    obtain ⟨⟨front, inside⟩, inner, same⟩ := Option.map_eq_some_iff.mp made
    obtain ⟨rfl, stop⟩ := splitBytes?_eq_some_iff.mp cut
    obtain ⟨rfl, start⟩ := splitBytes?_eq_some_iff.mp inner
    refine ⟨front, inside, back, List.append_assoc _ _ _, start.symm, ?_, ?_⟩
    · rw [← stop, byteLength_append]
    · exact same.symm.trans (List.append_assoc _ _ _)
  · rintro ⟨front, inside, back, rfl, start, stop, rfl⟩
    have outer : splitBytes? e.span.stop (front ++ (inside ++ back)) = some (front ++ inside, back) :=
      splitBytes?_eq_some_iff.mpr ⟨(List.append_assoc _ _ _).symm, by rw [stop, byteLength_append]⟩
    have inner : splitBytes? e.span.start (front ++ inside) = some (front, inside) :=
      splitBytes?_eq_some_iff.mpr ⟨rfl, start.symm⟩
    simp [make?, outer, inner]

end Edit

/-! ### Edits of a program -/

def Statement.rewrite (R : Rules) (referrer : Path) (s : Statement) : Statement :=
  { s with specifier := (R.lookup referrer s.specifier).getD s.specifier }

theorem Statement.rewrite_of_none {R : Rules} {referrer : Path} {s : Statement}
    (none : R.lookup referrer s.specifier = none) : s.rewrite R referrer = s := by
  rw [rewrite, none]
  rfl

def statementsText (P : List Statement) : String := String.ofList (programText (P.map .refers))

theorem Statement.text_pieces (s : Statement) :
    (Line.refers s).text = (s.form.opening ++ [s.form.quote]) ++
    s.specifier.toList ++ (s.form.quote :: s.form.closing ++ ['\n']) := by
  simp [Line.text, Statement.body]

theorem programText_text (l : Line) (rest : List Line) :
    programText (l :: rest) = l.text ++ programText rest :=
  List.flatMap_cons

section
variable {R : Rules} {referrer path : Path} {pos line : Nat} {s : Statement} {P : List Statement}

theorem editsOf_cons (R : Rules) (referrer path : Path) (pos line : Nat) (s : Statement)
    (lines : List Line) : R.editsOf referrer (programReferences (fun _ => true) path pos line
      (.refers s :: lines)) = ((R.lookup referrer s.specifier).map fun new =>
        ⟨s.span pos, new⟩).toList ++
        R.editsOf referrer (programReferences (fun _ => true) path
          (pos + byteLength (Line.refers s).text) (line + 1) lines) := by
  have pathed : s.form.kind.hasPath = true := by cases s.form <;> rfl
  rw [programReferences, Line.references_refers, if_pos rfl, Rules.editsOf, List.filterMap_append]
  congr 1
  cases rule : R.lookup referrer s.specifier <;> simp [Statement.reference, pathed, rule]

theorem programReferences_statements (path : Path) (pos line : Nat) (P : List Statement) :
    programReferences (fun _ => true) path pos line (P.map .refers) = P.mapIdx fun i s =>
      s.reference path (pos + byteLength (programText ((P.take i).map .refers))) (line + i) := by
  induction P generalizing pos line with
  | nil => rfl
  | cons s P ih =>
    rw [List.map_cons, programReferences, Line.references_refers, ih, List.mapIdx_cons]
    simp [programText, Nat.add_assoc, Nat.add_comm 1]

theorem span_start (s : Statement) (pos : Nat) : pos < (s.span pos).start ∧
    (s.span pos).stop < pos + byteLength (Line.refers s).text := by
  have quote := s.form.byteLength_quote
  rw [s.text_pieces]
  simp only [Statement.span, byteLength_append, byteLength_cons, byteLength_nil] at quote ⊢
  omega

theorem editsOf_after {e : Edit}
    (member : e ∈ R.editsOf referrer (programReferences (fun _ => true) path pos line
      (P.map .refers))) :
    pos < e.span.start := by
  obtain ⟨ref, found, made⟩ := List.mem_filterMap.mp member
  have after := programReferences_after found
  split at made
  · obtain ⟨new, _, rfl⟩ := Option.map_eq_some_iff.mp made
    exact after
  · cases made

theorem editsOf_ordered (R : Rules) (referrer path : Path) (pos line : Nat) (P : List Statement) :
    (R.editsOf referrer (programReferences (fun _ => true) path pos line (P.map .refers))).Pairwise
      Edit.Before := by
  induction P generalizing pos line with
  | nil => exact List.Pairwise.nil
  | cons s P ih =>
    rw [List.map_cons, editsOf_cons, List.pairwise_append]
    refine ⟨?_, ih _ _, fun a here b later => ?_⟩
    · cases R.lookup referrer s.specifier with
      | none => exact List.Pairwise.nil
      | some new => exact List.pairwise_singleton _ _
    · obtain ⟨new, _, rfl⟩ := Option.map_eq_some_iff.mp (Option.mem_toList.mp here)
      have after := editsOf_after later
      have inside := span_start s pos
      have span : (s.span pos).start ≤ (s.span pos).stop := Nat.le_add_right _ _
      exact ⟨by simp only; omega, by simp only; omega⟩

theorem length_editsOf (R : Rules) (referrer path : Path) (pos line : Nat) (P : List Statement) :
    (R.editsOf referrer (programReferences (fun _ => true) path pos line (P.map .refers))).length =
      P.countP fun s => (R.lookup referrer s.specifier).isSome := by
  induction P generalizing pos line with
  | nil => rfl
  | cons s P ih =>
    rw [List.map_cons, editsOf_cons, List.length_append, ih, List.countP_cons]
    cases R.lookup referrer s.specifier <;> simp [Nat.add_comm]

theorem make?_statement (s : Statement) (before after : List Char) (new : String) :
    Edit.make? (before ++ (Line.refers s).text ++ after) ⟨s.span (byteLength before), new⟩ =
      some (before ++ (Line.refers { s with specifier := new }).text ++ after) := by
  have quote := s.form.byteLength_quote
  refine Edit.make?_eq_some_iff.mpr ⟨before ++ (s.form.opening ++ [s.form.quote]), s.specifier.toList,
    s.form.quote :: s.form.closing ++ ['\n'] ++ after, ?_, ?_, ?_, ?_⟩
  · simp only [s.text_pieces, List.append_assoc]
  · simp only [byteLength_append, quote, Statement.span]
    omega
  · simp only [byteLength_append, quote, Statement.span]
    omega
  · simp only [Statement.text_pieces, List.append_assoc]

/-- Making the edits of a program from the back gives the program with other specifiers. -/
theorem foldrM_edits (R : Rules) (referrer path : Path) (before : List Char) (line : Nat)
    (P : List Statement) :
    (R.editsOf referrer (programReferences (fun _ => true) path (byteLength before) line
        (P.map .refers))).foldrM (fun e text => Edit.make? text e)
      (before ++ programText (P.map .refers)) =
      some (before ++ programText ((P.map (·.rewrite R referrer)).map .refers)) := by
  induction P generalizing before line with
  | nil => rfl
  | cons s P ih =>
    have others := ih (before ++ (Line.refers s).text) (line + 1)
    rw [byteLength_append] at others
    rw [List.map_cons, editsOf_cons, List.foldrM_append, programText_text, ← List.append_assoc, others,
      List.map_cons, List.map_cons, programText_text, Option.bind_eq_bind, Option.bind_some]
    cases rule : R.lookup referrer s.specifier with
    | none =>
      rw [Statement.rewrite_of_none rule, ← List.append_assoc]
      rfl
    | some new =>
      have changed : s.rewrite R referrer = { s with specifier := new } := by
        simp [Statement.rewrite, rule]
      have made := make?_statement s before
        (programText ((P.map (·.rewrite R referrer)).map .refers)) new
      rw [changed, ← List.append_assoc, Option.map_some, Option.toList_some, List.foldrM_cons,
        List.foldrM_nil, pure_bind, made]

end

/-! ### Rules that are applied twice -/

namespace Rules

variable {R : Rules} {referrer : Path} {token new : String}

theorem lookup_rule (found : R.lookup referrer token = some new) :
    ∃ rule ∈ R.toList, rule.new = new := by
  rcases Option.or_eq_some_iff.mp found with own | ⟨_, shared⟩
  · cases listed : R.byReferrer.find? referrer with
    | none =>
      rw [listed] at own
      cases own
    | some t =>
      rw [listed] at own
      obtain ⟨p, _, member⟩ := Table.find?_mem listed
      obtain ⟨old, _, entry⟩ := Table.find?_mem own
      refine ⟨⟨old, new, .referrer p⟩, List.mem_append_right _ ?_, rfl⟩
      exact List.mem_flatMap.mpr ⟨(p, t), member, List.mem_map_of_mem entry⟩
  · obtain ⟨old, _, entry⟩ := Table.find?_mem shared
    exact ⟨⟨old, new, .shared⟩, List.mem_append_left _ (List.mem_map_of_mem entry), rfl⟩

theorem chainedIn?_none (apart : R.chained? = none) (referrer : Path) :
    chainedIn? R.shared ((R.byReferrer.find? referrer).getD ∅) = none := by
  unfold chained? at apart
  split at apart
  · cases apart
  · rename_i first
    cases listed : R.byReferrer.find? referrer with
    | none => exact first
    | some own =>
      obtain ⟨p, _, member⟩ := Table.find?_mem listed
      exact Option.map_eq_none_iff.mp (List.findSome?_eq_none_iff.mp apart (p, own) member)

theorem mem_produced {shared own : Table String String}
    (found : (own.find? token).or (shared.find? token) = some new) : new ∈ produced shared own := by
  rcases Option.or_eq_some_iff.mp found with replaced | ⟨absent, replaced⟩
  · obtain ⟨old, _, entry⟩ := Table.find?_mem replaced
    exact List.mem_append_left _ (List.mem_map_of_mem (f := Prod.snd) entry)
  · obtain ⟨old, same, entry⟩ := Table.find?_mem replaced
    rw [Table.find?_congr same] at absent
    refine List.mem_append_right _ (List.mem_map_of_mem (f := Prod.snd)
      (List.mem_filter.mpr ⟨entry, ?_⟩))
    simp [Table.contains, absent]

theorem lookup_settled (apart : R.chained? = none) (found : R.lookup referrer token = some new) :
    R.lookup referrer new = none := by
  have settled := List.find?_eq_none.mp (chainedIn?_none apart referrer) new (mem_produced found)
  simp only [Bool.not_eq_true, Bool.or_eq_false_iff, Table.contains, Option.isSome_eq_false_iff,
    Option.isNone_iff_eq_none] at settled
  rw [lookup, settled.1, settled.2]
  rfl

theorem apply_of_ordered {extract : Path → String → Extraction} {language : Path} {content : String}
    {text : List Char}
    (ordered : (R.editsOf referrer (extract language content).references).Pairwise Edit.Before)
    (made : (R.editsOf referrer (extract language content).references).foldrM
      (fun e text => Edit.make? text e) content.toList = some text) :
    R.apply extract referrer language content =
      .done (String.ofList text)
        (R.editsOf referrer (extract language content).references).length := by
  have chosen := Edit.choose_all none (List.pairwise_reverse.mpr (ordered.imp And.right)) (by simp)
  simp only [apply, Edit.mergeSort_laterFirst ordered, chosen, List.foldlM_reverse, made,
    List.length_reverse]

theorem apply_program {P : List Statement} (valid : ∀ s ∈ P, (Line.refers s).Valid) (R : Rules)
    (referrer path : Path) :
    R.apply Lexical.extract referrer path (statementsText P) =
      .done (statementsText (P.map (·.rewrite R referrer)))
        (P.countP fun s => (R.lookup referrer s.specifier).isSome) := by
  have read : (Lexical.extract path (statementsText P)).references =
      programReferences (fun _ => true) path 0 1 (P.map .refers) := by
    rw [statementsText, extract_program (by simpa using valid) path, programExtraction]
  have ordered := editsOf_ordered R referrer path 0 1 P
  have made := foldrM_edits R referrer path [] 1 P
  rw [← length_editsOf R referrer path 0 1 P, ← read]
  rw [← read] at ordered
  refine apply_of_ordered ordered ?_
  rw [read, statementsText, String.toList_ofList]
  exact made

theorem lookup_rewrite (apart : R.chained? = none) (referrer : Path) (s : Statement) :
    R.lookup referrer (s.rewrite R referrer).specifier = none := by
  cases rule : R.lookup referrer s.specifier with
  | none => simp [Statement.rewrite, rule]
  | some new => simpa [Statement.rewrite, rule] using lookup_settled apart rule

theorem rewrite_valid {s : Statement} (valid : (Line.refers s).Valid)
    (new : ∀ rule ∈ R.toList, IsSpecifier rule.new)
    (referrer : Path) : (Line.refers (s.rewrite R referrer)).Valid where
  name := valid.name
  specifier := by
    intro _ same
    cases same
    cases rule : R.lookup referrer s.specifier with
    | none => simpa [Statement.rewrite, rule] using valid.specifier_of
    | some token =>
      obtain ⟨entry, listed, rfl⟩ := lookup_rule rule
      simpa [Statement.rewrite, rule] using new entry listed

/-- An import program has one reference a statement. Applying rules replaces the specifiers that
have one and changes nothing else, and rules that do not chain have nothing left to replace after that. -/
theorem apply_statements (P : List Statement) (valid : ∀ s ∈ P, (Line.refers s).Valid) (R : Rules)
    (referrer path : Path) :
    (Lexical.extract path (statementsText P)).references = P.mapIdx (fun i s =>
      s.reference path (byteLength (statementsText (P.take i)).toList) (i + 1)) ∧
    (Lexical.extract path (statementsText P)).unparsable = 0 ∧
    R.apply Lexical.extract referrer path (statementsText P) =
      .done (statementsText (P.map (·.rewrite R referrer)))
        (P.countP fun s => (R.lookup referrer s.specifier).isSome) ∧
    (R.chained? = none → (∀ rule ∈ R.toList, IsSpecifier rule.new) →
      R.apply Lexical.extract referrer path (statementsText (P.map (·.rewrite R referrer))) =
        .done (statementsText (P.map (·.rewrite R referrer))) 0) := by
  have read : Lexical.extract path (statementsText P) = programExtraction path (P.map .refers) :=
    extract_program (by simpa using valid) path
  refine ⟨?_, ?_, apply_program valid R referrer path, fun apart new => ?_⟩
  · rw [read, programExtraction, programReferences_statements]
    simp [statementsText, Nat.add_comm]
  · rw [read, programExtraction]
  · have second := apply_program (P := P.map (·.rewrite R referrer)) (by
      intro s member
      obtain ⟨s, inside, rfl⟩ := List.mem_map.mp member
      exact rewrite_valid (valid s inside) new referrer) R referrer path
    have unchanged : (P.map (·.rewrite R referrer)).map (·.rewrite R referrer) =
        P.map (·.rewrite R referrer) := by
      rw [List.map_map]
      refine List.map_congr_left fun s _ => ?_
      exact Statement.rewrite_of_none (lookup_rewrite apart referrer s)
    have none : (P.map (·.rewrite R referrer)).countP
        (fun s => (R.lookup referrer s.specifier).isSome) = 0 := by
      rw [List.countP_eq_zero]
      intro s member
      obtain ⟨s, inside, rfl⟩ := List.mem_map.mp member
      rw [lookup_rewrite apart]
      simp
    rw [second, unchanged, none]

/-- Names that look like keywords, a shared rule and one for the referrer alone. -/
theorem apply_statements_moved :
    let P : List Statement := [⟨.plain "from", "@/a"⟩, ⟨.star, "import"⟩, ⟨.lazy "$import", "./b"⟩,
      ⟨.bare, ""⟩]
    let R : Rules := ⟨.single "@/a" "@/c/a", .single ⟨"/p/x.ts"⟩ (.single "./b" "../b")⟩
    (∀ s ∈ P, (Line.refers s).Valid) ∧ R.chained? = none ∧ (∀ rule ∈ R.toList, IsSpecifier rule.new) ∧
    R.apply Lexical.extract ⟨"/p/x.ts"⟩ ⟨"/q/x.ts"⟩ (statementsText P) = .done (statementsText
      [⟨.plain "from", "@/c/a"⟩, ⟨.star, "import"⟩, ⟨.lazy "$import", "../b"⟩, ⟨.bare, ""⟩]) 2 ∧
    R.apply Lexical.extract ⟨"/p/x.ts"⟩ ⟨"/q/x.ts"⟩
      (statementsText (P.map (·.rewrite R ⟨"/p/x.ts"⟩))) =
      .done (statementsText (P.map (·.rewrite R ⟨"/p/x.ts"⟩))) 0 := by
  intro P R
  have valid : ∀ s ∈ P, (Line.refers s).Valid := by decide
  have apart : R.chained? = none := by decide
  have new : ∀ rule ∈ R.toList, IsSpecifier rule.new := by decide
  have spec := apply_statements P valid R ⟨"/p/x.ts"⟩ ⟨"/q/x.ts"⟩
  refine ⟨valid, apart, new, ?_, spec.2.2.2 apart new⟩
  rw [spec.2.2.1]
  decide

end Rules

end Relocation
