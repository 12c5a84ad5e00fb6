import Relocation.Proofs.Extraction.Lines
import Relocation.Proofs.Extraction.Patterns

/-!
# Reading an import program

The patterns together find one reference a statement, and nothing that they cannot read.
-/

namespace Relocation

open Text Text.Pattern Text.Cursor Lexical

/-! ### Places in a text -/

theorem Line.count_text {l : Line} (valid : l.Valid) : l.text.count '\n' = 1 := by
  rw [Line.text, List.count_append, List.count_eq_zero.mpr valid.single]
  rfl

section
variable {text pre more : List Char} {s : Statement} {c : Cursor}

theorem Statement.piece_text (s : Statement) (c : Cursor) (more : List Char) :
    (s.piece c more).text = s.specifier.toList := by
  have text := past_text c (s.form.opening ++ [s.form.quote]) s.specifier.toList
    (s.form.quote :: s.form.closing ++ '\n' :: more)
  simpa [Statement.piece] using text

theorem Form.byteLength_quote (f : Form) : byteLength [f.quote] = 1 := by
  cases f <;> rfl

theorem Statement.reference_eq (path : Path) (valid : (Line.refers s).Valid)
    (whole : text = pre ++ (s.body ++ '\n' :: more))
    (here : c.pos = byteLength pre) (kind : ReferenceKind) (same : kind = s.form.kind) :
    Lexical.spelt path (lineStarts text) kind false (s.piece c more) =
      s.reference path (byteLength pre) (1 + pre.count '\n') := by
  have start : (s.piece c more).start.pos = byteLength pre +
      byteLength (s.form.opening ++ [s.form.quote]) := by
    simp [Statement.piece, here]
  have shape : text = pre ++ ((s.form.opening ++ [s.form.quote]) ++
      (s.specifier.toList ++ s.form.quote :: s.form.closing ++ '\n' :: more)) := by
    simp [whole, Statement.body]
  have single : '\n' ∉ s.form.opening ++ [s.form.quote] := by
    intro member
    refine valid.single ?_
    simp only [Line.body_refers, Statement.body, List.mem_append, List.mem_cons] at member ⊢
    grind
  have stop : (s.piece c more).stop.pos = byteLength pre +
      byteLength (s.form.opening ++ [s.form.quote]) +
      byteLength s.specifier.toList := by
    simp [Statement.piece, here, Nat.add_assoc]
  rw [Lexical.spelt, Lexical.reference, s.piece_text, start, stop, shape,
    lineOf_within pre _ single, byteLength_append, s.form.byteLength_quote]
  simp [Statement.reference, Statement.span, same, Nat.add_assoc]

end

theorem isInfix_of_not_mem {x : Char} {needle t : List Char} (absent : x ∉ t) :
    isInfix (x :: needle) t = false := by
  induction t with
  | nil => rfl
  | cons y t ih =>
    simp only [List.mem_cons, not_or] at absent
    rw [isInfix, ih absent.2, List.isPrefixOf_cons_cons, beq_eq_false_iff_ne.mpr absent.1]
    rfl

/-! ### References -/

section
variable {path : Path} {lines : List Line}

theorem Line.references_refers (keep : Form → Bool) (path : Path) (pos line : Nat) (s : Statement) :
    (Line.refers s).references keep path pos line =
      if keep s.form then [s.reference path pos line] else [] := by
  by_cases kept : keep s.form = true <;> simp [Line.references, Line.statement?, Option.filter, kept]

theorem Line.references_start {l : Line} {keep : Form → Bool} {pos line : Nat} {r : Reference}
    (member : r ∈ l.references keep path pos line) :
    pos < r.span.start ∧ r.span.start < pos + byteLength l.text := by
  cases l with
  | declares x => cases member
  | refers s =>
    rw [Line.references_refers] at member
    split at member
    · obtain rfl := List.mem_singleton.mp member
      have quote := s.form.byteLength_quote
      simp only [Statement.reference, Statement.span, Line.text, Line.body_refers, Statement.body,
        byteLength_append, byteLength_cons, byteLength_nil] at quote ⊢
      have ending : '\n'.utf8Size = 1 := rfl
      omega
    · cases member

theorem founds_references {α : Type} (text : List Char) {find : Line → Cursor → List Char → List α}
    {value : α → Option Reference} {keep : Form → Bool}
    (each : ∀ {l : Line} {pre more : List Char} {c : Cursor}, l.Valid →
      text = pre ++ (l.body ++ '\n' :: more) →
      c.pos = byteLength pre → (find l c more).filterMap value =
        l.references keep path (byteLength pre) (1 + pre.count '\n'))
    (pre : List Char) {c : Cursor} (valid : ∀ l ∈ lines, l.Valid)
    (whole : text = pre ++ programText lines)
    (here : c.pos = byteLength pre) : (founds find lines c).filterMap value =
      programReferences keep path (byteLength pre) (1 + pre.count '\n') lines := by
  induction lines generalizing pre c with
  | nil => rfl
  | cons l rest ih =>
    have first := valid l List.mem_cons_self
    have others := ih (pre ++ l.text) (c := c.past l.text (programText rest))
      (fun l inside => valid l (List.mem_cons_of_mem _ inside)) (by simp [whole, programText])
        (by simp [here])
    rw [byteLength_append, List.count_append, Line.count_text first, ← Nat.add_assoc] at others
    rw [founds, List.filterMap_append, others, each first (by rw [whole, programText_cons]) here,
      programReferences]

theorem staticFind_references (path : Path) {keep : Form → Bool}
    (static : ∀ f, keep f = true → f.kind = .static)
    (valid : ∀ l ∈ lines, l.Valid) :
    (founds (staticFind keep) lines (ofList (programText lines))).filterMap
      (fun m => m.groups.head?.map
        (Lexical.spelt path (lineStarts (programText lines)) .static false)) =
      programReferences keep path 0 1 lines := by
  refine founds_references (programText lines) (fun {l pre more c} first whole here => ?_)
    [] valid rfl rfl
  cases l with
  | declares x => rfl
  | refers s =>
    by_cases kept : keep s.form = true
    · have same := Statement.reference_eq path first whole here .static (static _ kept).symm
      simp [staticFind, kept, Line.references_refers, same]
    · simp [staticFind, kept, Line.references_refers]

theorem lazyFind_references (path : Path) (valid : ∀ l ∈ lines, l.Valid) :
    (founds lazyFind lines (ofList (programText lines))).filterMap
      (fun m => m.groups.head?.map fun g =>
        Lexical.spelt path (lineStarts (programText lines)) .lazy (isInfix ['$', '\x7b'] g.text) g) =
      programReferences Form.isLazy path 0 1 lines := by
  refine founds_references (programText lines) (fun {l pre more c} first whole here => ?_)
    [] valid rfl rfl
  cases l with
  | declares x => rfl
  | refers s =>
    obtain ⟨form, s⟩ := s
    cases form with
    | plain x | braced x | bare | star => rfl
    | lazy x =>
      have same := Statement.reference_eq path first whole here .lazy rfl
      have plain : isInfix ['$', '\x7b'] s.toList = false :=
        isInfix_of_not_mem (first.specifier_of.free rfl)
      have literal := Statement.piece_text ⟨.lazy x, s⟩ c more
      simp only [lazyFind, List.filterMap_cons, List.head?_cons, Option.map_some, List.filterMap_nil]
      rw [literal, plain, same]
      rfl

theorem staticReferences_program (valid : ∀ l ∈ lines, l.Valid) :
    staticReferences path (lineStarts (programText lines)) (programText lines) =
    programReferences Form.hasFrom path 0 1 lines ++ programReferences Form.isBare path 0 1 lines ++
      programReferences (fun _ => false) path 0 1 lines := by
  have read {p : Pattern} {keep : Form → Bool} (reads : Reads p (staticFind keep))
      (static : ∀ f, keep f = true → f.kind = .static) := by
    have found := staticFind_references path static valid
    rw [← reads.program valid rfl rfl, ← scan_eq] at found
    exact found
  simp only [staticReferences, staticFound, List.flatMap_cons, List.flatMap_nil,
    List.filterMap_append, List.append_nil]
  rw [read staticFrom_reads (fun f => by cases f <;> simp [Form.hasFrom, Form.kind]),
    read sideEffect_reads (fun f => by cases f <;> simp [Form.isBare, Form.kind]),
    read importRequire_reads (fun f => by simp), List.append_assoc]

theorem lazyReferences_program (valid : ∀ l ∈ lines, l.Valid) :
    lazyReferences path (lineStarts (programText lines)) (programText lines) =
      programReferences Form.isLazy path 0 1 lines := by
  have literal := lazyFind_references path valid
  rw [← lazyLiteral_reads.program valid rfl rfl, ← scan_eq] at literal
  simp only [lazyReferences]
  rw [literal, scan_eq, lazyComputed_finds valid, List.filterMap_nil, List.append_nil]

theorem structuralReferences_program (valid : ∀ l ∈ lines, l.Valid) :
    structuralReferences path (lineStarts (programText lines)) (programText lines) = [] := by
  rw [structuralReferences, scan_eq, markup_finds valid, List.filterMap_nil]

theorem programReferences_none (path : Path) (pos line : Nat) (lines : List Line) :
    programReferences (fun _ => false) path pos line lines = [] := by
  induction lines generalizing pos line with
  | nil => rfl
  | cons l rest ih =>
    rw [programReferences, ih]
    cases l <;> rfl

theorem programReferences_perm (k₁ k₂ : Form → Bool) (disjoint : ∀ f, k₁ f = true → k₂ f = false)
    (path : Path) (pos line : Nat) (lines : List Line) : (programReferences k₁ path pos line lines ++
      programReferences k₂ path pos line lines).Perm (programReferences (fun f => k₁ f ||
        k₂ f) path pos line lines) := by
  induction lines generalizing pos line with
  | nil => exact List.Perm.refl _
  | cons l rest ih =>
    have own : l.references (fun f => k₁ f || k₂ f) path pos line =
        l.references k₁ path pos line ++ l.references k₂ path pos line := by
      cases l with
      | declares x => rfl
      | refers s =>
        simp only [Line.references_refers]
        by_cases first : k₁ s.form = true
        · simp [first, disjoint _ first]
        · simp [first]
    rw [programReferences, programReferences, programReferences, own, List.append_assoc,
      List.append_assoc]
    refine List.Perm.append_left _ ((List.perm_append_comm_assoc _ _ _).trans
      (List.Perm.append_left _ ?_))
    exact ih (pos + byteLength l.text) (line + 1)

theorem programReferences_after {keep : Form → Bool} {pos line : Nat} {r : Reference}
    (member : r ∈ programReferences keep path pos line lines) : pos < r.span.start := by
  induction lines generalizing pos line with
  | nil => cases member
  | cons l rest ih =>
    rcases List.mem_append.mp member with here | later
    · exact (Line.references_start here).1
    · have := ih later
      omega

theorem programReferences_sorted (keep : Form → Bool) (path : Path) (pos line : Nat)
    (lines : List Line) :
    (programReferences keep path pos line lines).Pairwise Reference.Precedes := by
  induction lines generalizing pos line with
  | nil => exact List.Pairwise.nil
  | cons l rest ih =>
    rw [programReferences, List.pairwise_append]
    refine ⟨?_, ih _ _, fun a here b later => ?_⟩
    · cases l with
      | declares x => exact List.Pairwise.nil
      | refers s =>
        rw [Line.references_refers]
        split
        · exact List.pairwise_singleton _ _
        · exact List.Pairwise.nil
    · have first := Line.references_start here
      have second := programReferences_after later
      change a.span.start < b.span.start
      omega

end

/-! ### Imports that cannot be read -/

theorem staticFind_here {keep : Form → Bool} {s : Statement} (kept : keep s.form = true)
    (c : Cursor) (more : List Char) : ∃ m ∈ staticFind keep (.refers s) c more,
    m.start.pos = c.pos ∧ c.pos < m.stop.pos := by
  have long := byteLength_pos (w := s.form.opening ++ s.form.quote :: s.specifier.toList ++
    [s.form.quote]) (by simp)
  rw [staticFind, if_pos kept]
  refine ⟨_, List.mem_singleton_self _, rfl, ?_⟩
  simp only [past_pos]
  omega

/-- Where an import starts, a static pattern finds it. -/
theorem importFind_covered {lines : List Line} {c : Cursor} {m : Found}
    (member : m ∈ founds importFind lines c) :
    ∃ m' ∈ founds (staticFind Form.hasFrom) lines c ++ founds (staticFind Form.isBare) lines c,
      m'.start.pos = m.start.pos ∧ m.start.pos < m'.stop.pos := by
  induction lines generalizing c with
  | nil => cases member
  | cons l rest ih =>
    simp only [founds, List.mem_append] at member ⊢
    rcases member with here | later
    · cases l with
      | declares x => cases here
      | refers s =>
        rw [importFind] at here
        split at here
        · rename_i imports
          obtain rfl := List.mem_singleton.mp here
          by_cases clause : s.form.hasFrom = true
          · obtain ⟨m', found, rest⟩ := staticFind_here clause c (programText rest)
            exact ⟨m', Or.inl (Or.inl found), rest⟩
          · have bare : s.form.isBare = true := by
              revert imports clause
              cases s.form <;> simp [Form.isImport, Form.hasFrom, Form.isBare]
            obtain ⟨m', found, rest⟩ := staticFind_here bare c (programText rest)
            exact ⟨m', Or.inr (Or.inl found), rest⟩
        · cases here
    · obtain ⟨m', covers, rest⟩ := ih later
      refine ⟨m', ?_, rest⟩
      rcases List.mem_append.mp covers with clause | bare
      · exact Or.inl (Or.inr clause)
      · exact Or.inr (Or.inr bare)

theorem unparsable_program {lines : List Line} (valid : ∀ l ∈ lines, l.Valid) :
    unparsable (programText lines) = 0 := by
  have covered : ∀ m ∈ importLine.scan (programText lines), ∃ m' ∈ staticFound (programText lines),
      m'.start.pos = m.start.pos ∧ m.start.pos < m'.stop.pos := by
    intro m member
    rw [scan_eq, importLine_reads.program valid rfl rfl] at member
    obtain ⟨m', covers, rest⟩ := importFind_covered member
    refine ⟨m', ?_, rest⟩
    simp only [staticFound, List.flatMap_cons, List.mem_append]
    rw [scan_eq, scan_eq, staticFrom_reads.program valid rfl rfl,
      sideEffect_reads.program valid rfl rfl]
    rcases List.mem_append.mp covers with clause | bare
    · exact Or.inl clause
    · exact Or.inr (Or.inl bare)
  unfold unparsable
  simp only [List.length_eq_zero_iff, List.filter_eq_nil_iff]
  intro m member
  obtain ⟨m', inside, starts, stops⟩ := covered m member
  have hit : (((staticFound (programText lines)).map fun m => (m.start.pos, m.stop.pos)).any
      fun span => span.1 ≤ m.start.pos && m.start.pos < span.2) = true := by
    refine List.any_eq_true.mpr ⟨_, List.mem_map_of_mem inside, ?_⟩
    simp [starts, stops]
  simp [hit]

/-! ### Exports -/

def Line.declared? : Line → Option String
  | .declares x => some x
  | .refers _ => none

def Line.isStar : Line → Bool
  | .refers ⟨.star, _⟩ => true
  | _ => false

theorem founds_noFind (lines : List Line) (c : Cursor) : founds noFind lines c = [] := by
  induction lines generalizing c with
  | nil => rfl
  | cons l rest ih => exact ih _

theorem declareFind_exports (lines : List Line) (c : Cursor) (e : ExportSet) :
    (founds declareFind lines c).foldl
      (fun e m => (m.groups.map (String.ofList ·.text)).foldl ExportSet.addName e) e =
      (lines.filterMap Line.declared?).foldl ExportSet.addName e := by
  induction lines generalizing c e with
  | nil => rfl
  | cons l rest ih =>
    rw [founds, List.foldl_append, ih]
    cases l with
    | refers s => rfl
    | declares x =>
      have name := past_text c "export const ".toList x.toList (" = 1;\n".toList ++ programText rest)
      simp only [declareFind, List.foldl_cons, List.foldl_nil, List.map_cons, List.map_nil, name,
        String.ofList_toList]
      rfl

theorem starFind_exports {add : ExportSet → Found → ExportSet}
    (bare : ∀ e m, m.groups = [] → add e m = { e with reexportsAll := true }) (lines : List Line)
    (c : Cursor) (e : ExportSet) : (founds starFind lines c).foldl add e =
      { e with reexportsAll := e.reexportsAll || lines.any Line.isStar } := by
  induction lines generalizing c e with
  | nil => simp [founds]
  | cons l rest ih =>
    rw [founds, List.foldl_append, ih, List.any_cons]
    cases l with
    | declares x => rfl
    | refers s =>
      obtain ⟨form, s⟩ := s
      cases form with
      | star => simp [starFind, Line.isStar, bare]
      | plain x | braced x | bare | lazy x => rfl

theorem foldl_addName (names : List String) (e : ExportSet) : names.foldl ExportSet.addName e =
    { e with names := names.foldl (fun known x => Keys.insert x known) e.names } := by
  induction names generalizing e with
  | nil => rfl
  | cons x names ih => exact ih (e.addName x)

theorem foldl_exports (lines : List Line) (e : ExportSet) : lines.foldl Line.exports e =
    { (lines.filterMap Line.declared?).foldl ExportSet.addName e with
      reexportsAll := e.reexportsAll || lines.any Line.isStar } := by
  induction lines generalizing e with
  | nil => simp
  | cons l rest ih =>
    rw [List.foldl_cons, ih, List.any_cons]
    cases l with
    | declares x => rfl
    | refers s =>
      obtain ⟨form, s⟩ := s
      cases form with
      | star =>
        have names : (Line.refers ⟨.star, s⟩ :: rest).filterMap Line.declared? =
          rest.filterMap Line.declared? := rfl
        simp [Line.exports, Line.isStar, foldl_addName, names]
      | plain x | braced x | bare | lazy x => rfl

theorem exports_program {lines : List Line} (valid : ∀ l ∈ lines, l.Valid) :
    exports (programText lines) = lines.foldl Line.exports {} := by
  simp only [exports, scan_eq]
  rw [exportDefault_reads.program valid rfl rfl, exportDeclaration_reads.program valid rfl rfl,
    exportClause_reads.program valid rfl rfl, exportStar_reads.program valid rfl rfl, founds_noFind,
    List.foldl_nil, List.foldl_nil, declareFind_exports, starFind_exports
      (by intro e m none; simp only [none]), foldl_exports,
    foldl_addName]

/-- Reading an import program gives what it says. -/
theorem extract_program {lines : List Line} (valid : ∀ l ∈ lines, l.Valid) (path : Path) :
    Lexical.extract path (String.ofList (programText lines)) = programExtraction path lines := by
  have pathed : (staticReferences path (lineStarts (programText lines)) (programText lines) ++
      lazyReferences path (lineStarts (programText lines)) (programText lines)).Perm
      (programReferences (fun _ => true) path 0 1 lines) := by
    have clauses := programReferences_perm Form.hasFrom Form.isBare
      (fun f => by cases f <;> simp [Form.hasFrom, Form.isBare]) path 0 1 lines
    have calls := programReferences_perm (fun f => f.hasFrom || f.isBare) Form.isLazy
      (fun f => by cases f <;> simp [Form.hasFrom, Form.isBare, Form.isLazy]) path 0 1 lines
    have every : (fun f : Form => (f.hasFrom || f.isBare) || f.isLazy) = fun _ => true := by
      funext f
      cases f <;> rfl
    rw [staticReferences_program valid, lazyReferences_program valid, programReferences_none,
      List.append_nil]
    rw [every] at calls
    exact (clauses.append_right _).trans calls
  have found : (staticReferences path (lineStarts (programText lines)) (programText lines) ++
      lazyReferences path (lineStarts (programText lines)) (programText lines) ++
      if ((Language.ofPath? path).map Language.allowsMarkup).getD true then
        structuralReferences path (lineStarts (programText lines)) (programText lines) else []).Perm
      (programReferences (fun _ => true) path 0 1 lines) := by
    rw [structuralReferences_program valid, ite_self, List.append_nil]
    exact pathed
  rw [Lexical.extract, programExtraction]
  simp only [String.toList_ofList]
  rw [Reference.arrange_eq found (programReferences_sorted _ _ _ _ _), exports_program valid,
    unparsable_program valid]

end Relocation
