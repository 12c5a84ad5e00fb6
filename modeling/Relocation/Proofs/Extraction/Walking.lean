import Relocation.Extraction.Walk
import Relocation.Proofs.Extraction.Reading

/-!
# Trees of import programs

What a tree has to show of an import program: one node a line, of the kind that the line's statement
has, with its string or its name in place. A walk finds in such a tree what the lines state,
whichever parser has made it.
-/

namespace Relocation

open Text

namespace Tree

def speakingKinds : List String :=
  ["import_statement", "export_statement", "call_expression", "jsx_opening_element",
    "jsx_self_closing_element"]

mutual

/-- The node and all below it are in the text as the grammar has them and say nothing. -/
def isSilent : Tree → Bool
  | node label children =>
    !label.isError && !label.isMissing && !speakingKinds.contains label.kind && areSilent children

def areSilent : List Tree → Bool
  | [] => true
  | n :: rest => n.isSilent && areSilent rest

end

structure Sound (n : Tree) : Prop where
  accepted : n.label.isError = false
  present : n.label.isMissing = false

/-- Some node below, or the tree itself, is of a sort; all else is silent. -/
inductive Holds (P : Tree → Prop) : Tree → Prop
  | here {n : Tree} : P n → Holds P n
  | inside {label : Label} {before after : List Tree} {n : Tree} :
    Sound (node label (before ++ n :: after)) → label.kind ∉ speakingKinds →
    areSilent before = true → areSilent after = true → Holds P n →
    Holds P (node label (before ++ n :: after))

end Tree

/-! ### What a tree shows -/

structure Statement.Spelt (s : Statement) (pos : Nat) (n : Tree) : Prop where
  kind : n.kind = "string"
  start : n.label.start = pos + byteLength s.form.opening
  stop : n.label.stop = n.label.start + byteLength s.specifier.toList + 2

structure Statement.Imports (s : Statement) (pos : Nat) (n : Tree) : Prop where
  sound : n.Sound
  kind : n.kind = "import_statement"
  source : ∃ q, n.field? "source" = some q ∧ s.Spelt pos q
  silent : Tree.areSilent n.children = true

structure Statement.Reexports (s : Statement) (pos : Nat) (n : Tree) : Prop where
  sound : n.Sound
  kind : n.kind = "export_statement"
  source : ∃ q, n.field? "source" = some q ∧ s.Spelt pos q
  star : ∃ c ∈ n.children, c.kind = "*"
  bare : ∀ c ∈ n.children, c.kind ∉ ["default", "namespace_export", "export_clause"]
  declaration : n.field? "declaration" = none
  silent : Tree.areSilent n.children = true

structure Statement.Calls (s : Statement) (pos : Nat) (n : Tree) : Prop where
  sound : n.Sound
  kind : n.kind = "call_expression"
  function : ∃ f, n.field? "function" = some f ∧ f.kind = "import"
  argument : ∃ a q, n.field? "arguments" = some a ∧ a.namedChildren.head? = some q ∧ s.Spelt pos q
  silent : Tree.areSilent n.children = true

def Statement.Shown (s : Statement) (pos : Nat) (n : Tree) : Prop :=
  match s.form with
  | .plain _ | .braced _ | .bare => s.Imports pos n
  | .star => s.Reexports pos n
  | .lazy _ => n.kind = "lexical_declaration" ∧ n.Holds (s.Calls pos)

structure Named (x : String) (pos : Nat) (n : Tree) : Prop where
  kind : n.kind = "identifier"
  start : n.label.start = pos + byteLength "export const ".toList
  stop : n.label.stop = n.label.start + byteLength x.toList

structure Exports (x : String) (pos : Nat) (n : Tree) : Prop where
  sound : n.Sound
  kind : n.kind = "export_statement"
  source : n.field? "source" = none
  bare : ∀ c ∈ n.children, c.kind ∉ ["default", "namespace_export", "export_clause"]
  declaration : ∃ d v i, n.field? "declaration" = some d ∧ d.kind = "lexical_declaration" ∧
    d.namedChildren = [v] ∧ v.kind = "variable_declarator" ∧ v.field? "name" = some i ∧ Named x pos i
  silent : Tree.areSilent n.children = true

def Line.Shown (pos : Nat) (n : Tree) : Line → Prop
  | .refers s => s.Shown pos n
  | .declares x => Exports x pos n

def LinesShown : Nat → List Line → List Tree → Prop
  | _, [], [] => True
  | pos, l :: lines, n :: ns => l.Shown pos n ∧ LinesShown (pos + byteLength l.text) lines ns
  | _, _, _ => False

structure ProgramShown (lines : List Line) (root : Tree) : Prop where
  sound : root.Sound
  kind : root.kind = "program"
  lines : LinesShown 0 lines root.children

/-- What is asked of a parser: it takes an import program apart without error, each line into the
statement or the declaration that it is. -/
def Parser.ReadsPrograms (parser : Parser) : Prop :=
  ∀ (language : Language) (lines : List Line), (∀ l ∈ lines, l.Plain) →
    ∃ root, parser.parse? language (String.ofList (programText lines)) = some root ∧
      ProgramShown lines root

/-! ### What a walk finds -/

namespace Walk

section
variable (w : Walk)

theorem visit_node (label : Label) (children : List Tree) (sound : (Tree.node label children).Sound) :
    w.visit (.node label children) = w.findings (.node label children) ++ w.visitAll children := by
  have accepted : label.isError = false := sound.accepted
  have present : label.isMissing = false := sound.present
  simp only [visit, accepted, present, Bool.false_eq_true, if_false, List.nil_append]

/-- A node of another kind says what its children say. -/
theorem visit_other {label : Label} {children : List Tree} (sound : (Tree.node label children).Sound)
    (other : label.kind ∉ Tree.speakingKinds) :
    w.visit (.node label children) = w.visitAll children := by
  have nothing : w.findings (.node label children) = [] := by
    have other : (Tree.node label children).kind ∉ Tree.speakingKinds := other
    unfold findings
    split
    all_goals first
      | rfl
      | rename_i same; rw [same] at other; exact absurd other (by decide)
  rw [w.visit_node label children sound, nothing, List.nil_append]

theorem visitAll_append (a b : List Tree) : w.visitAll (a ++ b) = w.visitAll a ++ w.visitAll b := by
  induction a with
  | nil => rfl
  | cons n a ih => rw [List.cons_append, visitAll, visitAll, ih, List.append_assoc]

mutual

theorem visit_of_silent (n : Tree) (silent : n.isSilent = true) : w.visit n = [] := by
  cases n with
  | node label children =>
    simp only [Tree.isSilent, Bool.and_eq_true, Bool.not_eq_true', List.contains_eq_mem,
      decide_eq_false_iff_not] at silent
    obtain ⟨⟨⟨accepted, present⟩, other⟩, below⟩ := silent
    rw [w.visit_other ⟨accepted, present⟩ other, visitAll_of_silent children below]

theorem visitAll_of_silent (ns : List Tree) (silent : Tree.areSilent ns = true) :
    w.visitAll ns = [] := by
  cases ns with
  | nil => rfl
  | cons n rest =>
    obtain ⟨first, others⟩ := Bool.and_eq_true_iff.mp silent
    rw [visitAll, visit_of_silent n first, visitAll_of_silent rest others]
    rfl

end

theorem visit_of_silent_children {n : Tree} (sound : n.Sound)
    (silent : Tree.areSilent n.children = true) : w.visit n = w.findings n := by
  obtain ⟨label, children⟩ := n
  rw [w.visit_node label children sound, w.visitAll_of_silent children silent, List.append_nil]

/-- A walk finds in a tree what it finds in the one node that is not silent. -/
theorem visit_of_holds {P : Tree → Prop} {found : List Finding} (each : ∀ n, P n → w.visit n = found)
    {n : Tree} (holds : n.Holds P) : w.visit n = found := by
  induction holds with
  | here sort => exact each _ sort
  | inside sound other before after _ ih =>
    rw [w.visit_other sound other, w.visitAll_append, visitAll, w.visitAll_of_silent _ before,
      w.visitAll_of_silent _ after, ih, List.append_nil, List.nil_append]

end

/-! ### Lines -/

section
variable {w : Walk} {pre more : List Char} {s : Statement} {x : String} {n : Tree}

theorem literal_of_spelt (valid : (Line.refers s).Valid)
    (whole : w.text = pre ++ (s.body ++ '\n' :: more)) (spelt : s.Spelt (byteLength pre) n) :
    w.literal s.form.kind n =
      .reference (s.reference w.path (byteLength pre) (1 + pre.count '\n')) := by
  have quote := s.form.byteLength_quote
  have start := spelt.start
  have stop := spelt.stop
  have last : max (n.label.stop - 1) (n.label.start + 1) =
      n.label.start + 1 + byteLength s.specifier.toList := by omega
  have single : '\n' ∉ s.form.opening := by
    intro member
    refine valid.single ?_
    simp only [Line.body_refers, Statement.body, List.mem_append]
    exact Or.inl (Or.inl member)
  have line : lineAt w.text n.label.start = 1 + pre.count '\n' := by
    have shape : w.text = pre ++ (s.form.opening ++
        (s.form.quote :: s.specifier.toList ++ s.form.quote :: s.form.closing ++ '\n' :: more)) := by
      simp [whole, Statement.body]
    rw [shape, start]
    exact lineAt_within pre _ single
  have slice : slice? (n.label.start + 1) (n.label.start + 1 + byteLength s.specifier.toList) w.text =
      some s.specifier.toList := by
    refine slice?_eq_some_iff.mpr ⟨pre ++ s.form.opening ++ [s.form.quote],
      s.form.quote :: s.form.closing ++ '\n' :: more, ?_, ?_, ?_⟩
    · simp [whole, Statement.body]
    · rw [byteLength_append, byteLength_append, quote, start]
    · rw [byteLength_append, byteLength_append, byteLength_append, quote, start]
  simp only [literal, last, slice, referenceAt, line, String.ofList_toList]
  rw [start]
  rfl

theorem visit_imports (valid : (Line.refers s).Valid) (static : s.form.kind = .static)
    (whole : w.text = pre ++ (s.body ++ '\n' :: more)) (imports : s.Imports (byteLength pre) n) :
    w.visit n = [.reference (s.reference w.path (byteLength pre) (1 + pre.count '\n'))] := by
  obtain ⟨q, source, spelt⟩ := imports.source
  have found := literal_of_spelt valid whole spelt
  rw [static] at found
  rw [w.visit_of_silent_children imports.sound imports.silent, findings, imports.kind]
  simp [importSource?, source, found]

theorem exports_of_bare
    (bare : ∀ c ∈ n.children, c.kind ∉ ["default", "namespace_export", "export_clause"]) :
    n.children.flatMap w.exportPart = [] := by
  refine List.flatMap_eq_nil_iff.mpr fun c member => ?_
  have other := bare c member
  unfold exportPart
  split
  all_goals first
    | rfl
    | rename_i same; rw [same] at other; exact absurd other (by decide)

theorem hasStar_of_bare {ns : List Tree} (bare : ∀ c ∈ ns, c.kind ≠ "namespace_export")
    (star : ∃ c ∈ ns, c.kind = "*") : hasStar ns = true := by
  -- Nothing resets the flag, so it stays set behind the first star.
  have run : ∀ (ns : List Tree) (seen : Bool), (∀ c ∈ ns, c.kind ≠ "namespace_export") →
      (seen = true ∨ ∃ c ∈ ns, c.kind = "*") →
      ns.foldl (fun star c => if c.kind == "*" then true
        else if c.kind == "namespace_export" then false else star) seen = true := by
    intro ns
    induction ns with
    | nil => rintro seen _ (set | ⟨c, member, _⟩); exacts [set, nomatch member]
    | cons c ns ih =>
      intro seen bare star
      rw [List.foldl_cons]
      refine ih _ (fun c member => bare c (List.mem_cons_of_mem _ member)) ?_
      have other := bare c List.mem_cons_self
      by_cases here : c.kind = "*"
      · exact Or.inl (by simp [here])
      · rcases star with set | ⟨d, member, same⟩
        · exact Or.inl (by simp [here, other, set])
        · rcases List.mem_cons.mp member with rfl | later
          · exact absurd same here
          · exact Or.inr ⟨d, later, same⟩
  exact run ns false bare (Or.inr star)

theorem visit_reexports (valid : (Line.refers s).Valid) (static : s.form.kind = .static)
    (whole : w.text = pre ++ (s.body ++ '\n' :: more)) (exported : s.Reexports (byteLength pre) n) :
    w.visit n = [.exportsAll,
      .reference (s.reference w.path (byteLength pre) (1 + pre.count '\n'))] := by
  obtain ⟨q, source, spelt⟩ := exported.source
  have found := literal_of_spelt valid whole spelt
  rw [static] at found
  have star : hasStar n.children = true :=
    hasStar_of_bare (fun c member same => exported.bare c member (by simp [same])) exported.star
  rw [w.visit_of_silent_children exported.sound exported.silent, findings, exported.kind]
  simp [exports, exports_of_bare exported.bare, star, source, exported.declaration, found]

theorem visit_calls (valid : (Line.refers s).Valid) (late : s.form.kind = .lazy)
    (whole : w.text = pre ++ (s.body ++ '\n' :: more)) (calls : s.Calls (byteLength pre) n) :
    w.visit n = [.reference (s.reference w.path (byteLength pre) (1 + pre.count '\n'))] := by
  obtain ⟨f, function, known⟩ := calls.function
  obtain ⟨a, q, arguments, first, spelt⟩ := calls.argument
  have found := literal_of_spelt valid whole spelt
  rw [late] at found
  have quoted : isLiteral q = true := by
    rw [isLiteral, spelt.kind]
    rfl
  rw [w.visit_of_silent_children calls.sound calls.silent, findings, calls.kind]
  simp [function, known, lazyCall, arguments, first, quoted, found]

theorem visit_exports (whole : w.text = pre ++ ((Line.declares x).body ++ '\n' :: more))
    (exported : Exports x (byteLength pre) n) : w.visit n = [.declared x] := by
  obtain ⟨d, v, i, declaration, lexical, single, declarator, name, place⟩ := exported.declaration
  have start := place.start
  have text : w.textOf i = x := by
    have slice : slice? i.label.start i.label.stop w.text = some x.toList := by
      refine slice?_eq_some_iff.mpr ⟨pre ++ "export const ".toList, " = 1;".toList ++ '\n' :: more,
        ?_, ?_, ?_⟩
      · rw [whole, Line.body_declares]
        simp
      · rw [byteLength_append, start]
      · rw [byteLength_append, byteLength_append, place.stop, start]
    rw [textOf, slice, Option.map_some, Option.getD_some, String.ofList_toList]
  have names : w.declarationNames d = [.declared x] := by
    rw [declarationNames, lexical]
    simp [single, declaratorName, name, declarator, place.kind, text]
  rw [w.visit_of_silent_children exported.sound exported.silent, findings, exported.kind]
  simp [exports, exports_of_bare exported.bare, exported.source, declaration, names]

end

end Walk

/-! ### Programs -/

def Line.findings (path : Path) (pos line : Nat) : Line → List Finding
  | .refers ⟨.star, s⟩ => [.exportsAll, .reference (Statement.reference path pos line ⟨.star, s⟩)]
  | .refers s => [.reference (s.reference path pos line)]
  | .declares x => [.declared x]

def programFindings (path : Path) : Nat → Nat → List Line → List Finding
  | _, _, [] => []
  | pos, line, l :: rest =>
    l.findings path pos line ++ programFindings path (pos + byteLength l.text) (line + 1) rest

section
variable {w : Walk} {path : Path} {lines : List Line}

theorem Walk.visit_line {l : Line} {n : Tree} {pre more : List Char} (valid : l.Valid)
    (whole : w.text = pre ++ (l.body ++ '\n' :: more)) (shown : l.Shown (byteLength pre) n) :
    w.visit n = l.findings w.path (byteLength pre) (1 + pre.count '\n') := by
  cases l with
  | declares x => exact visit_exports whole shown
  | refers s =>
    obtain ⟨form, t⟩ := s
    cases form with
    | plain x | braced x | bare => exact visit_imports valid rfl whole shown
    | star => exact visit_reexports valid rfl whole shown
    | lazy x => exact w.visit_of_holds (fun _ calls => visit_calls valid rfl whole calls) shown.2

theorem Walk.visit_lines {ns : List Tree} (pre : List Char) (valid : ∀ l ∈ lines, l.Valid)
    (whole : w.text = pre ++ programText lines) (shown : LinesShown (byteLength pre) lines ns) :
    w.visitAll ns = programFindings w.path (byteLength pre) (1 + pre.count '\n') lines := by
  induction lines generalizing pre ns with
  | nil =>
    cases ns with
    | nil => rfl
    | cons n ns => exact shown.elim
  | cons l rest ih =>
    cases ns with
    | nil => exact shown.elim
    | cons n ns =>
      have first := valid l List.mem_cons_self
      have here := visit_line first (by rw [whole, programText_cons]) shown.1
      have others := ih (pre ++ l.text) (fun l inside => valid l (List.mem_cons_of_mem _ inside))
        (by simp [whole, programText]) (by rw [byteLength_append]; exact shown.2)
      rw [byteLength_append, List.count_append, Line.count_text first, ← Nat.add_assoc] at others
      rw [visitAll, here, others]
      rfl

theorem Line.findings_references (l : Line) (pos line : Nat) :
    (l.findings path pos line).filterMap Finding.reference? =
      l.references (fun _ => true) path pos line := by
  cases l with
  | declares x => rfl
  | refers s =>
    obtain ⟨form, t⟩ := s
    cases form <;> rfl

theorem Line.findings_exports (l : Line) (pos line : Nat) (e : ExportSet) :
    (l.findings path pos line).foldl Finding.addTo e = l.exports e := by
  cases l with
  | declares x => rfl
  | refers s =>
    obtain ⟨form, t⟩ := s
    cases form <;> rfl

theorem Line.findings_parsable (l : Line) (pos line : Nat) :
    (l.findings path pos line).countP Finding.isUnparsable = 0 := by
  cases l with
  | declares x => rfl
  | refers s =>
    obtain ⟨form, t⟩ := s
    cases form <;> rfl

theorem programFindings_references (pos line : Nat) (lines : List Line) :
    (programFindings path pos line lines).filterMap Finding.reference? =
      programReferences (fun _ => true) path pos line lines := by
  induction lines generalizing pos line with
  | nil => rfl
  | cons l rest ih =>
    rw [programFindings, List.filterMap_append, l.findings_references, ih, programReferences]

theorem programFindings_exports (pos line : Nat) (lines : List Line) (e : ExportSet) :
    (programFindings path pos line lines).foldl Finding.addTo e = lines.foldl Line.exports e := by
  induction lines generalizing pos line e with
  | nil => rfl
  | cons l rest ih =>
    rw [programFindings, List.foldl_append, l.findings_exports, ih, List.foldl_cons]

theorem programFindings_parsable (pos line : Nat) (lines : List Line) :
    (programFindings path pos line lines).countP Finding.isUnparsable = 0 := by
  induction lines generalizing pos line with
  | nil => rfl
  | cons l rest ih => rw [programFindings, List.countP_append, l.findings_parsable, ih]

theorem Walk.extraction_program {root : Tree} (valid : ∀ l ∈ lines, l.Valid)
    (whole : w.text = programText lines) (shown : ProgramShown lines root) :
    w.extraction root = programExtraction w.path lines := by
  have visited : w.visit root = programFindings w.path 0 1 lines := by
    obtain ⟨label, children⟩ := root
    have other : label.kind ∉ Tree.speakingKinds := by
      have kind : label.kind = "program" := shown.kind
      rw [kind]
      decide
    rw [w.visit_other shown.sound other]
    exact visit_lines [] valid whole shown.lines
  rw [extraction, visited, programFindings_references, programFindings_exports,
    programFindings_parsable,
    Reference.arrange_eq (List.Perm.refl _) (programReferences_sorted _ _ _ _ _)]
  rfl

end

end Relocation
