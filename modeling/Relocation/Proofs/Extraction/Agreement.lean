import Relocation.Extraction.Backend
import Relocation.Proofs.Extraction.Parsing
import Relocation.Proofs.Extraction.Walking

/-!
# Trees and patterns agree

A parser that takes import programs apart without error leads to what the patterns say of them. The
grammar is such a parser: it makes of each line the node that its statement has.
-/

namespace Relocation

open Text Text.Cursor Grammar

/-! ### Plain names -/

theorem IsPlainName.isWord {x : String} (plain : IsPlainName x) : IsWord x.toList := by
  refine ⟨⟨'x', plain.1, rfl⟩, fun c member => ?_⟩
  have holds := plain.2 c member
  exact ascii_cases (P := fun y => (y.isLower || y.isDigit) = true → isNamePart y = true)
    (plain_small holds) (by decide) holds

theorem IsPlainName.isIdentifier {x : String} (plain : IsPlainName x) : IsIdentifier x := by
  refine ⟨⟨'x', plain.1, rfl⟩, fun c member => ?_⟩
  have holds := plain.2 c member
  exact ascii_cases (P := fun y => (y.isLower || y.isDigit) = true → Lexical.isIdentPart y = true)
    (plain_small holds) (by decide) holds

theorem IsPlainName.not_enum {x : String} (plain : IsPlainName x) : x.toList ≠ "enum".toList := by
  intro same
  have head := plain.1
  rw [same] at head
  cases head

theorem Line.Plain.valid {l : Line} (plain : l.Plain) : l.Valid :=
  ⟨plain.specifier, fun x named => (plain.name x named).isIdentifier⟩

/-! ### Nodes of lines -/

def Statement.quoted (s : Statement) : List Char :=
  s.form.quote :: s.specifier.toList ++ [s.form.quote]

def Statement.source (s : Statement) (p : Cursor) : Tree :=
  (leaf "string" p s.form.opening s.quoted).inField "source"

def Line.node (l : Line) (p : Cursor) (kind : String) (children : List Tree) : Tree :=
  .node { kind, start := p.pos, stop := p.pos + byteLength l.body } children

/-- The node that the grammar makes of a line which starts at `p`. -/
def Line.tree (p : Cursor) : Line → Tree
  | .refers ⟨.plain x, t⟩ => Line.node (.refers ⟨.plain x, t⟩) p "import_statement"
    [leaf "identifier" p "import ".toList x.toList, Statement.source ⟨.plain x, t⟩ p]
  | .refers ⟨.braced x, t⟩ => Line.node (.refers ⟨.braced x, t⟩) p "import_statement"
    [leaf "identifier" p "import \x7b ".toList x.toList, Statement.source ⟨.braced x, t⟩ p]
  | .refers ⟨.bare, t⟩ => Line.node (.refers ⟨.bare, t⟩) p "import_statement"
    [Statement.source ⟨.bare, t⟩ p]
  | .refers ⟨.star, t⟩ => Line.node (.refers ⟨.star, t⟩) p "export_statement"
    [starTree p "export ".toList, Statement.source ⟨.star, t⟩ p]
  | .refers ⟨.lazy x, t⟩ =>
    let u := "const ".toList ++ x.toList ++ " = ".toList
    constTree p [] (u ++ "import(".toList ++ Statement.quoted ⟨.lazy x, t⟩ ++ [')']) x.toList
      [callTree p u t.toList]
  | .declares x => Line.node (.declares x) p "export_statement"
    [(constTree p "export ".toList ("export const ".toList ++ x.toList ++ " = 1".toList) x.toList
      []).inField "declaration"]

theorem Line.head (l : Line) (r : List Char) :
    ∃ x ∈ ['i', 'e', 'c'], (l.body ++ r).head? = some x := by
  cases l with
  | declares x => exact ⟨'e', by decide, rfl⟩
  | refers s =>
    obtain ⟨form, s⟩ := s
    cases form with
    | plain x | braced x | bare => exact ⟨'i', by decide, rfl⟩
    | star => exact ⟨'e', by decide, rfl⟩
    | lazy x => exact ⟨'c', by decide, rfl⟩

theorem Line.filled (l : Line) : l.body ≠ [] := by
  obtain ⟨x, _, head⟩ := l.head []
  intro empty
  rw [empty] at head
  cases head

theorem Line.starts (l : Line) (r : List Char) : Starts (l.body ++ r) := by
  obtain ⟨x, known, head⟩ := l.head r
  have lexeme : ∀ x ∈ ['i', 'e', 'c'], isSpace x = false ∧ x ≠ '/' := by decide
  exact starts_of_head head (lexeme x known).1 (lexeme x known).2

def programTrees : List Line → Cursor → List Tree
  | [], _ => []
  | l :: rest, p => l.tree p :: programTrees rest (p.past l.text (programText rest))

/-! ### Reading a line -/

def Line.after (l : Line) (s : State) (more : List Char) : State :=
  ⟨s.peek.past l.body ('\n' :: more), l.tree s.peek :: s.nodes⟩

section
variable {language : Language} {d : Nat} {s : State} {more : List Char} {x t : String}

theorem read_plain (named : IsWord x.toList) (valid : IsSpecifier t)
    (next : s.peek.rest = (Line.refers ⟨.plain x, t⟩).body ++ '\n' :: more) :
    read language (d + 1) .statement s = some ((Line.refers ⟨.plain x, t⟩).after s more) := by
  let clause := "from".toList ++ ' ' :: ('\'' :: t.toList ++ '\'' :: ';' :: '\n' :: more)
  have here : s.peek = s.peek.past [] ("import".toList ++ ' ' :: (x.toList ++ ' ' :: clause)) := by
    refine (eq_past_nil (next.trans ?_)).symm
    simp [clause, Statement.body, Form.quote, Form.closing]
  have starts : Starts (x.toList ++ ' ' :: clause) := named.starts _
  obtain ⟨y, head, _, other⟩ := named.head (' ' :: clause)
  have unquoted : isQuote y = false := by
    simp [isQuote, (other '"' (by decide)).symm, (other '\'' (by decide)).symm]
  have source : Starts clause := starts_of_head rfl rfl (by decide)
  refine (read_import here starts head (other _ (by decide)) (other _ (by decide))
    (importFrom_clause rfl valid (string?_none (peek_head (peek_space starts) head) unquoted)
      (importClause_plain (x := 'f') named (peek_space starts) source rfl (by decide)))).trans ?_
  simp [Line.after, Line.tree, Line.node, Statement.source, Statement.quoted, Statement.body, leaf,
    Tree.inField, Form.quote, Form.closing, sourced]

theorem read_braced (named : IsWord x.toList) (valid : IsSpecifier t)
    (next : s.peek.rest = (Line.refers ⟨.braced x, t⟩).body ++ '\n' :: more) :
    read language (d + 2) .statement s = some ((Line.refers ⟨.braced x, t⟩).after s more) := by
  let clause := "from".toList ++ ' ' :: ('"' :: t.toList ++ '"' :: ';' :: '\n' :: more)
  have here : s.peek = s.peek.past [] ("import".toList ++
      ' ' :: '\x7b' :: ' ' :: (x.toList ++ ' ' :: '\x7d' :: ' ' :: clause)) := by
    refine (eq_past_nil (next.trans ?_)).symm
    simp [clause, Statement.body, Form.quote, Form.closing]
  have starts (r : List Char) : Starts ('\x7b' :: r) := starts_of_head rfl rfl (by decide)
  refine (read_import here (starts _) rfl (by decide) (by decide)
    (importFrom_clause rfl valid (string?_none (peek_head (peek_space (starts _)) rfl) rfl)
      (importClause_braced named (peek_space (starts _))))).trans ?_
  simp [Line.after, Line.tree, Line.node, Statement.source, Statement.quoted, Statement.body, leaf,
    Tree.inField, Form.quote, Form.closing, sourced]

theorem read_bare (valid : IsSpecifier t)
    (next : s.peek.rest = (Line.refers ⟨.bare, t⟩).body ++ '\n' :: more) :
    read language (d + 1) .statement s = some ((Line.refers ⟨.bare, t⟩).after s more) := by
  have here : s.peek =
      s.peek.past [] ("import".toList ++ ' ' :: ('\'' :: t.toList ++ '\'' :: ';' :: '\n' ::
        more)) := by
    refine (eq_past_nil (next.trans ?_)).symm
    simp [Statement.body, Form.quote, Form.closing]
  have starts (r : List Char) : Starts ('\'' :: r) := starts_of_head rfl rfl (by decide)
  refine (read_import here (starts _) rfl (by decide) (by decide)
    (importFrom_bare rfl valid (peek_space (starts _)))).trans ?_
  simp [Line.after, Line.tree, Line.node, Statement.source, Statement.quoted, Statement.body, leaf,
    Tree.inField, Form.quote, Form.closing, sourced]

theorem read_star (valid : IsSpecifier t)
    (next : s.peek.rest = (Line.refers ⟨.star, t⟩).body ++ '\n' :: more) :
    read language (d + 1) .statement s = some ((Line.refers ⟨.star, t⟩).after s more) := by
  have here : s.peek = s.peek.past [] ("export".toList ++
      ' ' :: '*' :: ' ' :: ("from".toList ++ ' ' :: ('"' :: t.toList ++ '"' :: ';' :: '\n' ::
        more))) := by
    refine (eq_past_nil (next.trans ?_)).symm
    simp [Statement.body, Form.quote, Form.closing]
  have starts (r : List Char) : Starts ('*' :: r) := starts_of_head rfl rfl (by decide)
  refine (read_export here (starts _) rfl (by decide)
    (exportBody_star rfl valid (peek_space (starts _)))).trans ?_
  simp [Line.after, Line.tree, Line.node, Statement.source, Statement.quoted, Statement.body, leaf,
    Tree.inField, Form.quote, Form.closing, sourced]

theorem read_lazy (named : IsWord x.toList) (other : x.toList ≠ "enum".toList) (valid : IsSpecifier t)
    (next : s.peek.rest = (Line.refers ⟨.lazy x, t⟩).body ++ '\n' :: more) :
    read language (d + 11) .statement s = some ((Line.refers ⟨.lazy x, t⟩).after s more) := by
  let call := "import".toList ++ '(' :: ('\'' :: t.toList ++ '\'' :: ')' :: ';' :: '\n' :: more)
  have here : s.peek = s.peek.past [] ("const".toList ++ ' ' :: (x.toList ++ ' ' :: '=' :: ' ' ::
      call)) := by
    refine (eq_past_nil (next.trans ?_)).symm
    simp [call, Statement.body, Form.quote, Form.closing]
  have starts : Starts call := starts_of_head rfl rfl (by decide)
  have keyed : s.word? = some "const" := word?_at here (by decide) (ends_cons rfl _)
  rw [read_statement keyed, Reader.statementWord]
  refine (read_declaration (x := 'i') (c := [_]) named other here starts rfl (by decide)
    (read_importExpression valid (peek_space starts))).trans ?_
  simp [Line.after, Line.tree, constTree, declaratorTree, Statement.quoted, Statement.body,
    Form.quote, Form.closing]

theorem read_declares (named : IsWord x.toList) (other : x.toList ≠ "enum".toList)
    (next : s.peek.rest = (Line.declares x).body ++ '\n' :: more) :
    read language (d + 7) .statement s = some ((Line.declares x).after s more) := by
  have here : s.peek = s.peek.past [] ("export".toList ++
      ' ' :: ("const".toList ++ ' ' :: (x.toList ++ ' ' :: '=' :: ' ' :: '1' :: ';' :: '\n' ::
        more))) := by
    refine (eq_past_nil (next.trans ?_)).symm
    simp
  have starts (r : List Char) : Starts ("const".toList ++ r) := starts_of_head rfl rfl (by decide)
  have digit : Starts ('1' :: ';' :: '\n' :: more) := starts_of_head rfl rfl (by decide)
  have declaration : read language (d + 6) .declaration ⟨s.peek.past "export".toList
      (' ' :: ("const".toList ++ ' ' :: (x.toList ++ ' ' :: '=' :: ' ' :: '1' :: ';' ::
        '\n' :: more))), []⟩ = _ :=
    read_declaration (c := []) named other (peek_space (starts _)) digit rfl (by decide)
      (read_number (peek_space digit))
  refine (read_export (x := 'c') here (starts _) rfl (by decide)
    ((exportBody_const (peek_space (starts _))).trans (inField_at declaration))).trans ?_
  simp [Line.after, Line.tree, Line.node, constTree, declaratorTree]

theorem read_line {l : Line} (plain : l.Plain) (next : s.peek.rest = l.body ++ '\n' :: more) :
    read language (d + 11) .statement s = some (l.after s more) := by
  cases l with
  | declares x => exact read_declares (plain.name x rfl).isWord (plain.name x rfl).not_enum next
  | refers s =>
    obtain ⟨form, t⟩ := s
    have valid : IsSpecifier t := plain.specifier _ rfl
    cases form with
    | plain x => exact read_plain (plain.name x rfl).isWord valid next
    | braced x => exact read_braced (plain.name x rfl).isWord valid next
    | bare => exact read_bare valid next
    | star => exact read_star valid next
    | lazy x => exact read_lazy (plain.name x rfl).isWord (plain.name x rfl).not_enum valid next

/-! ### Reading a program -/

theorem programText_starts (lines : List Line) : Starts (programText lines) := by
  cases lines with
  | nil => simp [programText, Starts]
  | cons l rest =>
    rw [programText_cons]
    exact l.starts _

theorem statementOrSkip_eq {g : Reader} {t : State} (first : g.self .statement s = some t)
    (ahead : s.cur.pos < t.cur.pos) : g.statementOrSkip s = some t := by
  rw [Reader.statementOrSkip, first]
  exact if_pos ahead

theorem Line.peek_after {l : Line} (starts : Starts more) :
    (l.after s more).peek = s.peek.past l.text more := by
  have step := skipTrivia_space (c := (l.after s more).cur) rfl rfl starts
  rwa [Line.after, past_past] at step

theorem read_statements_line {l : Line} (plain : l.Plain) (before : s.cur.pos ≤ s.peek.pos)
    (next : s.peek.rest = l.body ++ '\n' :: more) :
    read language (d + 12) .statements s = read language (d + 11) .statements (l.after s more) := by
  obtain ⟨x, known, head⟩ := l.head ('\n' :: more)
  have brace : ∀ x ∈ ['i', 'e', 'c'], '\x7d' ≠ x := by decide
  have unended : (s.atEnd || s.sees "\x7d") = false := by
    rw [sees_other (by rw [next]; exact head) rfl (brace x known), State.atEnd, next]
    simp
  have ahead : s.cur.pos < (l.after s more).cur.pos := by
    have long := Pattern.byteLength_pos l.filled
    have place : (l.after s more).cur.pos = s.peek.pos + byteLength l.body := rfl
    omega
  change Reader.statements _ s = _
  rw [Reader.statements, unended]
  change (Reader.statementOrSkip ⟨language, read language (d + 11)⟩ s).bind _ = _
  rw [statementOrSkip_eq (read_line plain next) ahead]
  rfl

theorem read_lines {lines : List Line} (plain : ∀ l ∈ lines, l.Plain) (before : s.cur.pos ≤ s.peek.pos)
    (next : s.peek.rest = programText lines) :
    ∃ t, read language (d + lines.length + 12) .statements s = some t ∧
      t.atEnd = true ∧ t.nodes = (programTrees lines s.peek).reverse ++ s.nodes := by
  induction lines generalizing s with
  | nil =>
    have ended : s.atEnd = true := by
      rw [State.atEnd, next]
      rfl
    refine ⟨s, ?_, ended, rfl⟩
    change Reader.statements _ s = _
    rw [Reader.statements, ended]
    rfl
  | cons l rest ih =>
    rw [programText_cons] at next
    have later := l.peek_after (s := s) (programText_starts rest)
    have step : read language (d + rest.length + 13) .statements s = _ :=
      read_statements_line (plain l List.mem_cons_self) before next
    obtain ⟨t, run, ended, nodes⟩ := ih (s := l.after s (programText rest))
      (fun l inside => plain l (List.mem_cons_of_mem _ inside))
        (by rw [later]; simp [Line.after, Line.text])
      (by rw [later]; rfl)
    refine ⟨t, step.trans run, ended, ?_⟩
    rw [nodes, later, programTrees, List.reverse_cons, List.append_assoc]
    rfl

end

/-! ### The tree of a program -/

section
variable {lines : List Line}

theorem length_le_programText (lines : List Line) : lines.length ≤ (programText lines).length := by
  induction lines with
  | nil => exact Nat.le_refl _
  | cons l rest ih =>
    rw [programText_cons, List.length_append, List.length_cons, List.length_cons]
    omega

theorem skipInterpreter_program (lines : List Line) :
    skipInterpreter (ofList (programText lines)) = ofList (programText lines) := by
  cases lines with
  | nil => rfl
  | cons l rest =>
    obtain ⟨x, known, head⟩ := l.head ('\n' :: programText rest)
    obtain ⟨r, shape⟩ := List.head?_eq_some_iff.mp head
    rw [programText_cons, shape]
    simp only [List.mem_cons, List.not_mem_nil, or_false] at known
    rcases known with rfl | rfl | rfl <;> rfl

theorem tree_program (plain : ∀ l ∈ lines, l.Plain) (language : Language) :
    Grammar.tree language (programText lines) =
      .node { kind := "program", start := 0, stop := byteLength (programText lines) }
        (programTrees lines (ofList (programText lines))) := by
  let start : State := ⟨ofList (programText lines), []⟩
  have here : start.peek = ofList (programText lines) :=
    skipTrivia_of_starts (programText_starts lines)
  have short := length_le_programText lines
  have deep : 16 * (programText lines).length + 64 =
      (16 * (programText lines).length + 52 - lines.length) + lines.length + 12 := by omega
  obtain ⟨t, run, ended, nodes⟩ :=
    read_lines (s := start) plain (Nat.le_of_eq (by rw [here])) (by rw [here]; rfl)
  simp only [Grammar.tree, skipInterpreter_program, deep, Grammar.program]
  rw [show read language _ .statements ⟨ofList (programText lines), []⟩ = some t from run]
  simp only [ended, if_true]
  rw [nodes, here, List.append_nil, List.reverse_reverse]

end

/-! ### What the tree shows -/

theorem Statement.spelt_leaf (s : Statement) (p : Cursor) :
    s.Spelt p.pos (leaf "string" p s.form.opening s.quoted) := by
  refine ⟨rfl, rfl, ?_⟩
  have quote := s.form.byteLength_quote
  simp only [leaf, Tree.label, Statement.quoted, byteLength_append, byteLength_cons, byteLength_nil]
    at quote ⊢
  omega

theorem Statement.spelt_source (s : Statement) (p : Cursor) : s.Spelt p.pos (s.source p) :=
  ⟨rfl, (s.spelt_leaf p).start, (s.spelt_leaf p).stop⟩

theorem callTree_arguments (p : Cursor) (u w : List Char) :
    ∃ a, (callTree p u w).field? "arguments" = some a ∧ a.namedChildren.head? =
      some (leaf "string" p (u ++ "import(".toList) ('\'' :: w ++ ['\''])) := by
  simp [callTree, leaf, Tree.field?, Tree.namedChildren]

theorem callTree_calls (s : Statement) (p : Cursor) (quote : s.form.quote = '\'') {u : List Char}
    (place : u ++ "import(".toList = s.form.opening) :
    s.Calls p.pos (callTree p u s.specifier.toList) := by
  have spelt := s.spelt_leaf p
  rw [← place, Statement.quoted, quote] at spelt
  obtain ⟨a, arguments, first⟩ := callTree_arguments p u s.specifier.toList
  refine ⟨⟨rfl, rfl⟩, rfl, ⟨(leaf "import" p u "import".toList).inField "function", ?_, rfl⟩,
    ⟨a, _, arguments, first, spelt⟩, ?_⟩
  all_goals simp [callTree, leaf, Tree.field?, Tree.areSilent, Tree.isSilent, Tree.speakingKinds]

theorem Line.shown_tree (l : Line) (p : Cursor) : l.Shown p.pos (l.tree p) := by
  cases l with
  | declares x =>
    let v := "export const ".toList ++ x.toList ++ " = 1".toList
    let declaration := (constTree p "export ".toList v x.toList []).inField "declaration"
    let declarator := declaratorTree p ("export ".toList ++ "const ".toList) v x.toList []
    let name := (leaf "identifier" p ("export ".toList ++ "const ".toList) x.toList).inField "name"
    have named : Named x p.pos name := by
      refine ⟨rfl, rfl, ?_⟩
      simp [name, leaf, Nat.add_assoc]
    refine ⟨⟨rfl, rfl⟩, rfl, ?_, ?_,
      ⟨declaration, declarator, name, ?_, rfl, ?_, rfl, ?_, named⟩, ?_⟩
    all_goals simp [Line.tree, Line.node, declaration, constTree, declarator, declaratorTree, name, v,
      leaf, Tree.field?, Tree.namedChildren, Tree.areSilent, Tree.isSilent, Tree.speakingKinds]
  | refers s =>
    obtain ⟨form, t⟩ := s
    cases form with
    | plain x | braced x | bare =>
      refine ⟨⟨rfl, rfl⟩, rfl, ⟨_, ?_, Statement.spelt_source _ p⟩, ?_⟩
      all_goals simp [Line.tree, Line.node, Statement.source, leaf, Tree.field?, Tree.areSilent,
        Tree.isSilent, Tree.speakingKinds]
    | star =>
      refine ⟨⟨rfl, rfl⟩, rfl, ⟨_, ?_, Statement.spelt_source _ p⟩,
        ⟨_, List.mem_cons_self, rfl⟩, ?_, ?_, ?_⟩
      all_goals simp [Line.tree, Line.node, starTree, Statement.source, leaf, Tree.field?,
        Tree.areSilent, Tree.isSilent, Tree.speakingKinds]
    | lazy x =>
      let u := "const ".toList ++ x.toList ++ " = ".toList
      let name := (leaf "identifier" p ([] ++ "const ".toList) x.toList).inField "name"
      have calls : Statement.Calls ⟨.lazy x, t⟩ p.pos (callTree p u t.toList) :=
        callTree_calls ⟨.lazy x, t⟩ p rfl (by simp [u])
      have silent : Tree.areSilent [name] = true := by
        simp [name, leaf, Tree.areSilent, Tree.isSilent, Tree.speakingKinds]
      have none : Tree.areSilent [] = true := rfl
      have other : "lexical_declaration" ∉ Tree.speakingKinds ∧
        "variable_declarator" ∉ Tree.speakingKinds := by decide
      exact ⟨rfl, .inside ⟨rfl, rfl⟩ other.1 none none
        (.inside ⟨rfl, rfl⟩ other.2 silent none (.here calls))⟩

theorem programTrees_shown {lines : List Line} (p : Cursor) :
    LinesShown p.pos lines (programTrees lines p) := by
  induction lines generalizing p with
  | nil => trivial
  | cons l rest ih => exact ⟨l.shown_tree p, ih (p.past l.text (programText rest))⟩

theorem Line.within_tree {l : Line} {p : Cursor} {size : Nat}
    (fits : p.pos + byteLength l.body ≤ size) : (l.tree p).isWithin size = true := by
  cases l with
  | declares x =>
    simp [Line.tree, Line.node, constTree, declaratorTree, leaf, Tree.isWithin, Tree.areWithin]
      at fits ⊢
    omega
  | refers s =>
    obtain ⟨form, t⟩ := s
    cases form with
    | plain x | braced x | bare | star | lazy x =>
      simp [Line.tree, Line.node, Statement.source, Statement.quoted, Statement.body, starTree,
        constTree, declaratorTree, callTree, leaf, Tree.isWithin, Tree.areWithin, Form.quote,
        Form.closing] at fits ⊢
      omega

theorem programTrees_within {lines : List Line} {p : Cursor} {size : Nat}
    (fits : p.pos + byteLength (programText lines) ≤ size) :
    Tree.areWithin size (programTrees lines p) = true := by
  induction lines generalizing p with
  | nil => rfl
  | cons l rest ih =>
    have ending : '\n'.utf8Size = 1 := rfl
    rw [programText_cons, byteLength_append, byteLength_cons] at fits
    rw [programTrees, Tree.areWithin, Line.within_tree (by omega), ih, Bool.and_self]
    simp only [past_pos, Line.text, byteLength_append, byteLength_cons, byteLength_nil]
    omega

theorem Grammar.parser_readsPrograms : Grammar.parser.ReadsPrograms := by
  intro language lines plain
  have whole := tree_program plain language
  refine ⟨Grammar.tree language (programText lines), ?_, ?_⟩
  · have inside : Tree.areWithin (byteLength (programText lines))
        (programTrees lines (ofList (programText lines))) = true :=
      programTrees_within (Nat.le_of_eq (Nat.zero_add _))
    have fits : (Grammar.tree language (programText lines)).isWithin
        (byteLength (programText lines)) = true := by
      rw [whole, Tree.isWithin, inside]
      simp
    simp only [Grammar.parser, String.toList_ofList]
    exact Option.filter_eq_some_iff.mpr ⟨rfl, fits⟩
  · rw [whole]
    exact ⟨⟨rfl, rfl⟩, rfl, programTrees_shown (ofList (programText lines))⟩

/-! ### Agreement -/

namespace Parser

/-- A parser that takes import programs apart leads on them to what the patterns say, whichever
language the path names, and to what the lines state; all of the program can be read. -/
theorem extract_agree {parser : Parser} (reads : parser.ReadsPrograms) {lines : List Line}
    (plain : ∀ l ∈ lines, l.Plain) (path : Path) :
    let text := String.ofList (programText lines)
    parser.extract path text = Lexical.extract path text ∧
    parser.extract path text = programExtraction path lines ∧
    (parser.extract path text).unparsable = 0 := by
  intro text
  have valid : ∀ l ∈ lines, l.Valid := fun l member => (plain l member).valid
  have lexical : Lexical.extract path text = programExtraction path lines := extract_program valid path
  have walked : parser.extract path text = programExtraction path lines := by
    cases known : Language.ofPath? path with
    | none =>
      rw [Parser.extract, known]
      exact lexical
    | some language =>
      obtain ⟨root, parsed, shown⟩ := reads language lines plain
      rw [Parser.extract, known]
      simp only [text, parsed, String.toList_ofList]
      exact Walk.extraction_program valid rfl shown
  exact ⟨walked.trans lexical.symm, walked, by rw [walked]; rfl⟩

theorem extract_agree_forms :
    let lines : List Line := [.refers ⟨.plain "x1", "@/a-b"⟩, .refers ⟨.braced "xfrom", "../c.d"⟩,
      .refers ⟨.bare, "e"⟩, .refers ⟨.star, "~/f"⟩, .declares "xy", .refers ⟨.lazy "x", "./g_h"⟩]
    let text := String.ofList (programText lines)
    Grammar.parser.ReadsPrograms ∧ (∀ l ∈ lines, l.Plain) ∧
    (∀ named ∈ [("s/a.js", Language.javaScript), ("s/a.ts", .typeScript), ("s/a.tsx", .tsx)],
      Language.ofPath? ⟨named.1⟩ = some named.2 ∧
      Backend.grammar.extract ⟨named.1⟩ text = Backend.lexical.extract ⟨named.1⟩ text) ∧
    (Backend.grammar.extract ⟨"s/a.ts"⟩ text).references.map
        (fun r => (r.specifier, r.kind, r.span, r.line)) =
      [("@/a-b", .static, ⟨16, 21⟩, 1), ("../c.d", .static, ⟨47, 53⟩, 2), ("e", .static, ⟨64, 65⟩, 3),
        ("~/f", .static, ⟨83, 86⟩, 4), ("./g_h", .lazy, ⟨128, 133⟩, 6)] := by
  intro lines text
  have reads := Grammar.parser_readsPrograms
  have plain : ∀ l ∈ lines, l.Plain := by decide
  refine ⟨reads, plain, ?_, ?_⟩
  · have known : ∀ named ∈
        [("s/a.js", Language.javaScript), ("s/a.ts", .typeScript), ("s/a.tsx", .tsx)],
        Language.ofPath? ⟨named.1⟩ = some named.2 := by decide
    intro named member
    exact ⟨known named member, (extract_agree reads plain ⟨named.1⟩).1⟩
  · have stated : Backend.grammar.extract ⟨"s/a.ts"⟩ text = _ :=
      (extract_agree reads plain ⟨"s/a.ts"⟩).2.1
    rw [stated]
    decide

end Parser

end Relocation
