import Relocation.Proofs.Extraction.Scanning
import Relocation.Proofs.Text.Quoting

/-!
# What each pattern finds in an import program
-/

namespace Relocation

open Text Text.Pattern Text.Cursor Lexical

/-! ### Finds -/

namespace Form

def hasFrom : Form → Bool
  | .plain _ | .braced _ | .star => true
  | _ => false

def isBare : Form → Bool
  | .bare => true
  | _ => false

def isLazy : Form → Bool
  | .lazy _ => true
  | _ => false

def isImport : Form → Bool
  | .plain _ | .braced _ | .bare => true
  | _ => false

end Form

def Statement.piece (s : Statement) (c : Cursor) (more : List Char) : Piece :=
  let tail := s.form.quote :: s.form.closing ++ '\n' :: more
  ⟨c.past (s.form.opening ++ [s.form.quote]) (s.specifier.toList ++ tail),
    c.past (s.form.opening ++ s.form.quote :: s.specifier.toList) tail⟩

/-- Statements of certain forms, taken up to the closing quote. -/
def staticFind (keep : Form → Bool) : Line → Cursor → List Char → List Found
  | .declares _, _, _ => []
  | .refers s, c, more =>
    if keep s.form then
      [⟨c, c.past (s.form.opening ++ s.form.quote :: s.specifier.toList ++ [s.form.quote])
        (s.form.closing ++ '\n' :: more), [s.piece c more]⟩]
    else []

def lazyFind : Line → Cursor → List Char → List Found
  | .refers ⟨.lazy x, s⟩, c, more =>
    let call := "import('".toList ++ s.toList ++ "')".toList
    let before := "const ".toList ++ x.toList ++ " = ".toList
    let tail := ';' :: '\n' :: more
    [⟨c.past before (call ++ tail), c.past (before ++ call) tail,
      [Statement.piece ⟨.lazy x, s⟩ c more]⟩]
  | _, _, _ => []

def importFind : Line → Cursor → List Char → List Found
  | .declares _, _, _ => []
  | .refers s, c, more =>
    if s.form.isImport then [⟨c, c.past "import".toList (s.body.drop 6 ++ '\n' :: more), []⟩] else []

def declareFind : Line → Cursor → List Char → List Found
  | .declares x, c, more =>
    let words := "export const ".toList
    let tail := " = 1;\n".toList ++ more
    [⟨c, c.past (words ++ x.toList) tail,
      [⟨c.past words (x.toList ++ tail), c.past (words ++ x.toList) tail⟩]⟩]
  | _, _, _ => []

def starFind : Line → Cursor → List Char → List Found
  | .refers ⟨.star, s⟩, c, more =>
    [⟨c, c.past "export * from".toList (" \"".toList ++ s.toList ++ "\";\n".toList ++ more), []⟩]
  | _, _, _ => []

def noFind : Line → Cursor → List Char → List Found := fun _ _ _ => []

section
variable {c : Cursor} {more : List Char} {x : Char}

theorem misses_first {p : Pattern} (first : c.rest.head? = some x) (proper : p.nullable = false)
    (closed : p.opens x = false) : p.Misses c := by
  refine misses_of_opens proper fun y same => ?_
  rw [first] at same
  cases same
  exact closed

/-! ### Characters of names -/

theorem isIdentStart_small (start : isIdentStart x = true) : x.toNat < 128 := by
  -- Stated with the bounds of the letters in place of their classes.
  have known : ((decide (x.val ≥ 'A'.val ∧ x.val ≤ 'Z'.val) ||
    decide (x.val ≥ 'a'.val) && decide (x.val ≤ 'z'.val)) || x == '_' || x == '$') = true := start
  simp only [Bool.or_eq_true, Bool.and_eq_true, decide_eq_true_eq, UInt32.le_iff_toNat_le,
    beq_iff_eq] at known
  rcases known with ((upper | lower) | rfl) | rfl
  · exact Nat.lt_of_le_of_lt upper.2 (by decide)
  · exact Nat.lt_of_le_of_lt lower.2 (by decide)
  · decide
  · decide

theorem isBlank_of_start (start : isIdentStart x = true) : isBlank x = false :=
  ascii_cases (P := fun y => isIdentStart y = true → isBlank y = false) (isIdentStart_small start)
    (by decide) start

theorem isIdentPart_of_start (start : isIdentStart x = true) : isIdentPart x = true :=
  ascii_cases (P := fun y => isIdentStart y = true → isIdentPart y = true)
    (isIdentStart_small start) (by decide) start

theorem not_quote_of_start (start : isIdentStart x = true) : isQuote x = false :=
  ascii_cases (P := fun y => isIdentStart y = true → isQuote y = false) (isIdentStart_small start)
    (by decide) start

theorem quoted_opens (x : Char) : quoted.opens x = isQuote x := by
  simp [quoted, quotedBy, all, opens, Pattern.nullable, isQuote, Bool.or_comm]

end

/-! ### Static references -/

section
variable {c : Cursor} {more : List Char} {b : Pattern} {s : Statement} {keep : Form → Bool}

theorem static_hit (kept : keep s.form = true)
    (taken : (seq lineHead b).Takes c ⟨c.past (s.form.opening ++ s.form.quote ::
      s.specifier.toList ++ [s.form.quote])
      (s.form.closing ++ '\n' :: more), [s.piece c more]⟩) :
    ∃ w line groups, (Line.refers s).body = w ++ line ∧ w ≠ [] ∧
      (seq lineHead b).Takes c ⟨c.past w (line ++ '\n' :: more), groups⟩ ∧
        staticFind keep (.refers s) c more = [⟨c, c.past w (line ++ '\n' :: more), groups⟩] := by
  refine ⟨s.form.opening ++ s.form.quote :: s.specifier.toList ++ [s.form.quote], s.form.closing,
    [s.piece c more], ?_, ?_, taken, ?_⟩
  · simp [Statement.body]
  · simp
  · simp [staticFind, kept]

end

theorem sideEffect_reads : Reads sideEffect (staticFind Form.isBare) := by
  change Reads (seq lineHead (seq (lit "import") (seq space quoted))) _
  refine reads_of_start rfl fun {l c more} valid start next => ?_
  cases l with
  | declares x => exact Or.inl ⟨rfl, misses_first (x := 'e') (by simp [next]) rfl (by decide)⟩
  | refers s =>
    obtain ⟨form, s⟩ := s
    cases form with
    | plain x =>
      obtain ⟨d, rest, shape, begins, _⟩ := (valid.name x rfl).split
      exact Or.inl ⟨rfl, misses_behind (x := d) space_blank (by simp [next, Statement.body, shape])
        ⟨'i', rfl, rfl⟩ (isBlank_of_start begins) rfl
          (by rw [quoted_opens, not_quote_of_start begins]) rfl⟩
    | braced x =>
      exact Or.inl ⟨rfl, misses_behind (x := '\x7b') space_blank (by simp [next, Statement.body])
        ⟨'i', rfl, rfl⟩ rfl rfl rfl rfl⟩
    | bare =>
      have body : c.rest = "import".toList ++ (' ' :: '\'' :: s.toList ++ '\'' :: ';' :: '\n' ::
          more) := by
        simp [next, Statement.body, Form.quote, Form.closing]
      have taken := takes_seq (takes_lineHead start (by simp [body, isIndent]))
        (takes_seq (takes_word body) (takes_seq (takes_space rfl (by simp; decide))
          (takes_quoted (s := s.toList) rfl rfl (valid.specifier_of.free rfl)
            (valid.specifier_of.free rfl))))
      refine Or.inr (static_hit rfl ?_)
      simpa [lit, Statement.piece, Form.quote, Form.closing] using taken
    | star =>
      exact Or.inl ⟨rfl, misses_first (x := 'e') (by simp [next, Statement.body]) rfl (by decide)⟩
    | lazy x =>
      exact Or.inl ⟨rfl, misses_first (x := 'c') (by simp [next, Statement.body]) rfl (by decide)⟩

def fromQuoted : Pattern := .seq .edge (.seq (lit "from") (.seq space quoted))

theorem staticFrom_eq : staticFrom = seq lineHead (seq (alt (lit "import") (lit "export"))
    (seq edge (seq (reluctant inClause) fromQuoted))) := rfl

section
variable {c : Cursor} {w k r s : List Char} {x q : Char}

theorem inClause_of {p : Char → Bool} (holds : p x = true)
    (none : ∀ y ∈ ['\'', '"', '\x60', ';', '(', ')', '='], p y = false) : inClause x = true := by
  simp only [inClause, Bool.not_eq_true', List.contains_eq_mem, decide_eq_false_iff_not]
  intro member
  rw [none x member] at holds
  cases holds

theorem not_inClause_of_quote (quote : isQuote x = true) : inClause x = false := by
  simp only [isQuote, Bool.or_eq_true, beq_iff_eq] at quote
  rcases quote with rfl | rfl <;> rfl

theorem fromQuoted_shape (taken : fromQuoted.Accepts w) :
    ∃ blanks q v, (∀ x ∈ blanks, isBlank x = true) ∧ isQuote q = true ∧ w = "from".toList ++
      blanks ++ q :: v := by
  obtain ⟨_, _, rfl, rfl, _, _, rfl, rfl, blanks, _, rfl, run, string⟩ := taken
  obtain ⟨q, v, quote, rfl⟩ := quoted_shape string
  exact ⟨blanks, q, v, run, quote, by simp⟩

/-- Between the keyword and the string there is nothing but a clause, and `from` at its end. -/
theorem staticFrom_shape (taken : (seq (alt (lit "import") (lit "export"))
    (seq edge (seq (reluctant inClause) fromQuoted))).Accepts w) :
    ∃ a q v, (∀ x ∈ a, inClause x = true) ∧ isQuote q = true ∧ 10 ≤ a.length ∧ w = a ++ q :: v := by
  obtain ⟨k, _, rfl, keyword, _, _, rfl, rfl, clause, _, rfl, inside, string⟩ := taken
  obtain ⟨blanks, q, v, blank, quote, rfl⟩ := fromQuoted_shape string
  have keyword : k = "import".toList ∨ k = "export".toList := keyword
  refine ⟨k ++ clause ++ "from".toList ++ blanks, q, v, fun x member => ?_, quote, ?_, by simp⟩
  · simp only [List.mem_append] at member
    rcases member with ((inK | inClause') | inFrom) | inBlanks
    · rcases keyword with rfl | rfl
      · revert x
        decide
      · revert x
        decide
    · exact inside x inClause'
    · revert x
      decide
    · exact inClause_of (blank x inBlanks) (by decide)
  · have length : k.length = 6 := by rcases keyword with rfl | rfl <;> rfl
    have from' : "from".toList.length = 4 := rfl
    simp only [List.length_append, length, from']
    omega

theorem atEdge_of {y : Char} (last : c.prev = some x) (first : c.rest.head? = some y)
    (apart : (isWord x != isWord y) = true) : atEdge c = true := by
  simpa [atEdge, next?, last, first] using apart

theorem past_prev {w : List Char} (last : w.getLast? = some x) : (c.past w r).prev = some x := by
  simp [past, last]

theorem isBlank_of_quote (quote : isQuote x = true) : isBlank x = false := by
  simp only [isQuote, Bool.or_eq_true, beq_iff_eq] at quote
  rcases quote with rfl | rfl <;> rfl

theorem not_quote_of_inClause (inside : inClause x = true) : isQuote x = false := by
  by_contra quote
  rw [not_inClause_of_quote (Bool.not_eq_false _ ▸ quote)] at inside
  cases inside

theorem takes_fromQuoted (behind : c.prev = some ' ')
    (next : c.rest = "from".toList ++ (' ' :: (q :: s ++ q :: r)))
    (quote : isQuote q = true) (apart : q ∉ s) (single : '\n' ∉ s) :
    fromQuoted.Takes c ⟨c.past ("from ".toList ++ q :: s ++ [q]) r,
      [⟨c.past ("from ".toList ++ [q]) (s ++ q :: r),
      c.past ("from ".toList ++ q :: s) (q :: r)⟩]⟩ := by
  have opening : ∀ x ∈ (q :: s ++ q :: r).head?, isBlank x = false := by
    intro x same
    cases same
    exact isBlank_of_quote quote
  have taken := takes_seq (takes_edge (atEdge_of behind (y := 'f') (by rw [next]; rfl) rfl))
    (takes_seq (takes_word next) (takes_seq (takes_space rfl opening)
      (takes_quoted quote rfl apart single)))
  simpa [fromQuoted, lit] using taken

/-- Before the last `from` of a line, what follows a `from` is no string. -/
theorem misses_fromQuoted {u t : List Char} (filled : u ≠ []) (inside : ∀ x ∈ u, inClause x = true)
    (quote : isQuote q = true) (next : c.rest = u ++ ("from".toList ++ ' ' :: q :: t)) :
    fromQuoted.Misses c := by
  refine misses_of_accepts fun w r same taken => ?_
  obtain ⟨blanks, q', v, blank, quote', rfl⟩ := fromQuoted_shape taken
  have left : ∀ x ∈ u ++ ("from".toList ++ [' ']), isQuote x = false := by
    intro x member
    rcases List.mem_append.mp member with inU | inFrom
    · exact not_quote_of_inClause (inside x inU)
    · exact (by decide : ∀ x ∈ "from".toList ++ [' '], isQuote x = false) x inFrom
  have right : ∀ x ∈ "from".toList ++ blanks, isQuote x = false := by
    intro x member
    rcases List.mem_append.mp member with inFrom | inBlanks
    · exact (by decide : ∀ x ∈ "from".toList, isQuote x = false) x inFrom
    · exact not_quote_of_inClause (inClause_of (blank x inBlanks) (by decide))
  rw [next] at same
  obtain ⟨cut, _⟩ := split_unique (v := t) (w := v ++ r) left right quote quote' (by simpa using same)
  have late := blank 'm' (mem_of_shift (k := "fro".toList) (t := [' ']) filled cut)
  cases late

theorem takes_staticFrom (clause : List Char) (start : atLineStart c = true)
    (keyword : k = "import".toList ∨ k = "export".toList) (front : clause.head? = some ' ')
    (back : clause.getLast? = some ' ') (inside : ∀ x ∈ clause, inClause x = true)
    (quote : isQuote q = true) (apart : q ∉ s) (single : '\n' ∉ s)
    (next : c.rest = k ++ (clause ++ ("from".toList ++ (' ' :: (q :: s ++ q :: r))))) :
    staticFrom.Takes c ⟨c.past (k ++ clause ++ "from ".toList ++ q :: s ++ [q]) r,
      [⟨c.past (k ++ clause ++ "from ".toList ++ [q]) (s ++ q :: r),
        c.past (k ++ clause ++ "from ".toList ++ q :: s) (q :: r)⟩]⟩ := by
  have head : ∀ x ∈ c.rest.head?, isIndent x = false := by
    rw [next]
    rcases keyword with rfl | rfl <;> simp [isIndent]
  have word' : (alt (lit "import") (lit "export")).Takes c
      ⟨c.past k (clause ++ ("from".toList ++ (' ' :: (q :: s ++ q :: r)))), []⟩ := by
    rcases keyword with rfl | rfl
    · exact takes_alt_left (takes_word next)
    · exact takes_alt_right (misses_first (x := 'e') (by rw [next]; rfl) rfl (by decide))
        (takes_word next)
  have boundary :
      edge.Takes (c.past k (clause ++ ("from".toList ++ (' ' :: (q :: s ++ q :: r))))) ⟨_, []⟩ :=
    takes_edge (atEdge_of (past_prev (x := 't') (by rcases keyword with rfl | rfl <;> rfl)) (y := ' ')
      (by rw [past_rest, List.head?_append, front]; rfl) rfl)
  have clauseTaken := takes_reluctant (b := fromQuoted) (c := c.past k _) rfl inside
    (fun v u split filled => misses_fromQuoted filled
      (fun x member => inside x (by rw [split]; simp [member])) quote rfl)
    (takes_fromQuoted (r := r) (past_prev back) rfl quote apart single)
  have taken := takes_seq (takes_lineHead start head)
    (takes_seq word' (takes_seq boundary clauseTaken))
  rw [staticFrom_eq]
  simpa using taken

end

theorem inClause_around {x : String} (valid : IsIdentifier x) (front back : List Char)
    (before : ∀ y ∈ front, inClause y = true) (after : ∀ y ∈ back, inClause y = true) :
    ∀ y ∈ front ++ x.toList ++ back, inClause y = true := by
  have name : ∀ y ∈ x.toList, inClause y = true := fun y member => inClause_of (valid.2 y member)
    (by decide)
  exact List.forall_mem_append.mpr ⟨List.forall_mem_append.mpr ⟨before, name⟩, after⟩

theorem staticFrom_reads : Reads staticFrom (staticFind Form.hasFrom) := by
  rw [staticFrom_eq]
  refine reads_of_start rfl fun {l c more} valid start next => ?_
  cases l with
  | declares x =>
    refine Or.inl ⟨rfl, misses_lineHead (by simp [next, isIndent]) fun w r same taken => ?_⟩
    obtain ⟨a, q, v, inside, quote, _, rfl⟩ := staticFrom_shape taken
    have front := inClause_around (valid.name x rfl) "export const ".toList " ".toList (by decide)
      (by decide)
    have cut := split_unique (p := fun y => !inClause y) (x := '=') (y := q)
      (v := " 1;\n".toList ++ more) (w := v ++ r) (fun y member => by rw [front y member]; rfl)
        (fun y member => by rw [inside y member]; rfl) rfl
      (by rw [not_inClause_of_quote quote]; rfl) (by rw [next] at same; simpa using same)
    rw [← cut.2.1] at quote
    cases quote
  | refers s =>
    have single : '\n' ∉ s.specifier.toList := valid.specifier_of.free rfl
    obtain ⟨form, s⟩ := s
    cases form with
    | plain x =>
      have inside := inClause_around (valid.name x rfl) " ".toList " ".toList (by decide) (by decide)
      have taken := takes_staticFrom _ (q := '\'') (s := s.toList) (r := ';' :: '\n' :: more) start
        (Or.inl rfl) rfl (by rw [List.getLast?_append]; rfl) inside rfl
          (valid.specifier_of.free rfl) single
        (by simp [next, Statement.body, Form.quote, Form.closing])
      refine Or.inr (static_hit rfl ?_)
      simpa [staticFrom_eq, Statement.piece, Form.quote, Form.closing] using taken
    | braced x =>
      have inside := inClause_around (valid.name x rfl) " \x7b ".toList " \x7d ".toList (by decide)
        (by decide)
      have taken := takes_staticFrom _ (q := '"') (s := s.toList) (r := ';' :: '\n' :: more) start
        (Or.inl rfl) rfl (by rw [List.getLast?_append]; rfl) inside rfl
          (valid.specifier_of.free rfl) single
        (by simp [next, Statement.body, Form.quote, Form.closing])
      refine Or.inr (static_hit rfl ?_)
      simpa [staticFrom_eq, Statement.piece, Form.quote, Form.closing] using taken
    | bare =>
      refine Or.inl ⟨rfl, misses_lineHead (by simp [next, Statement.body, isIndent])
        fun w r same taken => ?_⟩
      obtain ⟨a, q, v, inside, quote, long, rfl⟩ := staticFrom_shape taken
      have cut := split_unique (p := fun y => !inClause y) (a := "import ".toList) (x := '\'') (y := q)
        (v := s.toList ++ "';\n".toList ++ more) (w := v ++ r) (by decide)
          (fun y member => by rw [inside y member]; rfl)
        rfl (by rw [not_inClause_of_quote quote]; rfl)
        (by rw [next] at same; simpa [Statement.body, Form.quote, Form.closing] using same)
      rw [← cut.1] at long
      simp at long
    | star =>
      have taken := takes_staticFrom " * ".toList (q := '"') (s := s.toList)
        (r := ';' :: '\n' :: more) start (Or.inr rfl) rfl rfl (by decide) rfl
        (valid.specifier_of.free rfl) single
        (by simp [next, Statement.body, Form.quote, Form.closing])
      refine Or.inr (static_hit rfl ?_)
      simpa [staticFrom_eq, Statement.piece, Form.quote, Form.closing] using taken
    | lazy x =>
      exact Or.inl ⟨rfl, misses_first (x := 'c') (by simp [next, Statement.body]) rfl (by decide)⟩

/-! ### Imports that are neither -/

/-- Names and blanks, up to the equals sign. -/
theorem importRequire_shape {b : Pattern} {w : List Char}
    (taken : (seq (lit "import") (seq space1 (seq ident (seq space (seq (lit "=") b))))).Accepts w) :
    ∃ a v, (∀ x ∈ a, (isIdentPart x || isBlank x) = true) ∧ w = a ++ '=' :: v := by
  obtain ⟨_, _, rfl, rfl, gap, _, rfl, gapped, name, _, rfl, named, gap', _, rfl, gapped', _, v,
    rfl, rfl, _⟩ := taken
  obtain ⟨_, others, rfl, ⟨first, rfl, begins⟩, parts⟩ := named
  refine ⟨"import".toList ++ gap ++ (first :: others) ++ gap', v, fun x member => ?_, by simp⟩
  simp only [List.mem_append, List.mem_cons] at member
  rw [Bool.or_eq_true]
  rcases member with ((inWord | inGap) | rfl | inName) | inGap
  · exact Or.inl ((by decide : ∀ x ∈ "import".toList, isIdentPart x = true) x inWord)
  · exact Or.inr (space1_blank gap gapped x inGap)
  · exact Or.inl (isIdentPart_of_start begins)
  · exact Or.inl (parts x inName)
  · exact Or.inr (gapped' x inGap)

/-- Behind names and blanks comes a character that is no equals sign. -/
theorem misses_importRequire {c : Cursor} (front : List Char) {t : List Char} {y : Char}
    (names : ∀ x ∈ front, (isIdentPart x || isBlank x) = true)
    (stop : (isIdentPart y || isBlank y) = false)
    (other : y ≠ '=') (next : c.rest = 'i' :: front ++ y :: t) : importRequire.Misses c := by
  refine misses_lineHead (by simp [next, isIndent]) fun w r same taken => ?_
  obtain ⟨a, v, inside, rfl⟩ := importRequire_shape taken
  have cut := split_unique (p := fun x => !(isIdentPart x || isBlank x)) (a := 'i' :: front)
    (x := y) (y := '=') (v := t) (w := v ++ r) (fun x member => ?_)
      (fun x member => by rw [inside x member]; rfl) (by rw [stop]; rfl) rfl
    (by rw [next] at same; simpa using same)
  · exact other cut.2.1
  · rcases List.mem_cons.mp member with rfl | later
    · rfl
    · rw [names x later]
      rfl

/-- No import of a program assigns. -/
theorem importRequire_reads : Reads importRequire (staticFind fun _ => false) := by
  change Reads (seq lineHead _) _
  refine reads_of_start rfl fun {l c more} valid start next => ?_
  have nothing : staticFind (fun _ => false) l c more = [] := by cases l <;> rfl
  refine Or.inl ⟨nothing, ?_⟩
  cases l with
  | declares x => exact misses_first (x := 'e') (by simp [next]) rfl rfl
  | refers s =>
    obtain ⟨form, s⟩ := s
    cases form with
    | plain x =>
      refine misses_importRequire ("mport ".toList ++ x.toList ++ " from ".toList) (y := '\'')
        (fun y member => ?_) rfl (by decide)
          (by simp [next, Statement.body, Form.quote, Form.closing]; rfl)
      simp only [List.mem_append] at member
      rcases member with (inWord | inName) | inFrom
      · exact (by decide : ∀ y ∈ "mport ".toList, (isIdentPart y || isBlank y) = true) y inWord
      · rw [(valid.name x rfl).2 y inName]
        rfl
      · exact (by decide : ∀ y ∈ " from ".toList, (isIdentPart y || isBlank y) = true) y inFrom
    | braced x =>
      exact misses_importRequire "mport ".toList (y := '\x7b') (by decide) rfl (by decide)
        (by simp [next, Statement.body]; rfl)
    | bare =>
      exact misses_importRequire "mport ".toList (y := '\'') (by decide) rfl (by decide)
        (by simp [next, Statement.body, Form.quote]; rfl)
    | star => exact misses_first (x := 'e') (by simp [next, Statement.body]) rfl rfl
    | lazy x => exact misses_first (x := 'c') (by simp [next, Statement.body]) rfl rfl

theorem Statement.body_import {s : Statement} (imports : s.form.isImport = true) :
    ∃ t, s.body = "import".toList ++ ' ' :: t := by
  obtain ⟨form, s⟩ := s
  cases form with
  | plain x | braced x | bare => exact ⟨_, by simp [Statement.body]; rfl⟩
  | star | lazy x => cases imports

theorem importLine_reads : Reads importLine importFind := by
  change Reads (seq lineHead (seq (lit "import") edge)) _
  refine reads_of_start rfl fun {l c more} valid start next => ?_
  cases l with
  | declares x => exact Or.inl ⟨rfl, misses_first (x := 'e') (by simp [next]) rfl rfl⟩
  | refers s =>
    by_cases imports : s.form.isImport = true
    · obtain ⟨t, shape⟩ := s.body_import imports
      have body : c.rest = "import".toList ++ (' ' :: t ++ '\n' :: more) := by simp [next, shape]
      have taken := takes_seq (takes_lineHead start (by simp [body, isIndent]))
        (takes_seq (takes_word body)
          (takes_edge (atEdge_of (past_prev (x := 't') rfl) (y := ' ') rfl rfl)))
      refine Or.inr ⟨"import".toList, ' ' :: t, [], shape, by simp, taken, ?_⟩
      simp [importFind, imports, shape]
    · refine Or.inl ⟨by simp [importFind, imports], ?_⟩
      obtain ⟨form, s⟩ := s
      cases form with
      | plain x | braced x | bare => exact absurd rfl imports
      | star => exact misses_first (x := 'e') (by simp [next, Statement.body]) rfl rfl
      | lazy x => exact misses_first (x := 'c') (by simp [next, Statement.body]) rfl rfl

/-! ### Exports -/

theorem takes_ident {c : Cursor} {x : String} {r : List Char} (valid : IsIdentifier x)
    (next : c.rest = x.toList ++ r) (ends : ∀ y ∈ r.head?, isIdentPart y = false) :
    ident.Takes c ⟨c.past x.toList r, []⟩ := by
  obtain ⟨first, others, shape, begins, parts⟩ := valid.split
  rw [shape] at next ⊢
  have rest := takes_greedy (c := c.past [first] (others ++ r)) rfl parts ends
  rw [past_past] at rest
  exact takes_seq (takes_one next begins) rest

section
variable {b : Pattern} {c : Cursor} {x : String} {r t : List Char}

theorem IsIdentifier.first (valid : IsIdentifier x) (r : List Char) :
    ∀ y ∈ (x.toList ++ r).head?, isIdentStart y = true := by
  obtain ⟨first, others, shape, begins, _⟩ := valid.split
  rw [shape]
  intro y same
  cases same
  exact begins

theorem hits_space1 (next : c.rest = ' ' :: r) (ends : ∀ x ∈ r.head?, isBlank x = false) :
    hits space1 c = [⟨c.past [' '] r, []⟩] := by
  have first : hits (one isBlank) c = [⟨c.past [' '] r, []⟩] := by
    rw [hits, next]
    exact congrArg (fun d => [(⟨d, []⟩ : Hit)]) (step_past next)
  rw [space1, greedy1, hits_seq_of_sole first]
  exact hits_greedy_none ends

def exportOf (b : Pattern) : Pattern := seq lineHead (seq (lit "export") (seq space1 b))

theorem hits_exportOf (start : atLineStart c = true) (next : c.rest = "export ".toList ++ t)
    (filled : ∀ x ∈ t.head?, isBlank x = false) :
    hits (exportOf b) c = hits b (c.past "export ".toList t) := by
  have head : hits lineHead c = [⟨c, []⟩] := by
    have first : hits lineStart c = [⟨c, []⟩] := by rw [hits, if_pos start]
    rw [lineHead, hits_seq_of_sole first]
    exact hits_greedy_none (by simp [next, isIndent])
  have keyword : c.rest = "export".toList ++ ' ' :: t := by simp [next]
  rw [exportOf, hits_seq_of_sole head, lit, hits_seq_of_sole (hits_word keyword), hits_seq_of_sole
    (hits_space1 rfl filled), past_past]
  rfl

def named : Pattern := seq space1 (group ident)

theorem takes_named (valid : IsIdentifier x) (ends : ∀ y ∈ r.head?, isIdentPart y = false)
    (next : c.rest = ' ' :: (x.toList ++ r)) : named.Takes c
    ⟨c.past (' ' :: x.toList) r, [⟨c.past [' '] (x.toList ++ r), c.past (' ' :: x.toList) r⟩]⟩ := by
  have name := takes_group (takes_ident (c := c.past [' '] (x.toList ++ r)) valid rfl ends)
  rw [past_past] at name
  exact takes_seq (takes_space1 next fun y same => isBlank_of_start (valid.first r y same)) name

end

/-- Behind `export` comes a star or the word `const`. -/
theorem export_misses {b : Pattern} {l : Line} {c : Cursor} {more : List Char}
    (next : c.rest = l.body ++ '\n' :: more)
    (proper : b.nullable = false) (spaced : b.opens ' ' = false)
    (star : ∀ s, l = .refers ⟨.star, s⟩ → b.opens '*' = false)
    (const : ∀ x, l = .declares x → b.opens 'c' = false) : (exportOf b).Misses c := by
  have first : ∀ {x : Char}, c.rest.head? = some x → isIndent x = false → x ≠ 'e' →
      (exportOf b).Misses c := by
    intro x head outdented other
    refine misses_first head rfl ?_
    change ((false || true && isIndent x) || (true && true) && ((lit "export").opens x || false &&
      _)) = false
    rw [outdented]
    simp [lit, opens, other.symm]
  cases l with
  | declares x =>
    exact misses_behind (x := 'c') space1_blank (by simp [next]) ⟨'e', rfl, rfl⟩ rfl proper
      (const x rfl) spaced
  | refers s =>
    obtain ⟨form, s⟩ := s
    cases form with
    | star =>
      exact misses_behind (x := '*') space1_blank (by simp [next, Statement.body])
        ⟨'e', rfl, rfl⟩ rfl proper (star s rfl) spaced
    | plain x | braced x | bare =>
      exact first (x := 'i') (by simp [next, Statement.body]) rfl (by decide)
    | lazy x => exact first (x := 'c') (by simp [next, Statement.body]) rfl (by decide)

theorem exportDefault_reads : Reads exportDefault noFind := by
  change Reads (exportOf _) _
  exact reads_of_start rfl fun valid start next =>
    Or.inl ⟨rfl, export_misses next rfl rfl (fun _ _ => rfl) (fun _ _ => rfl)⟩

theorem exportClause_reads : Reads exportClause noFind := by
  change Reads (exportOf _) _
  exact reads_of_start rfl fun valid start next =>
    Or.inl ⟨rfl, export_misses next rfl rfl (fun _ _ => rfl) (fun _ _ => rfl)⟩

theorem takes_constant {b : Pattern} {c : Cursor} {x : String} {r : List Char}
    (start : atLineStart c = true) (valid : IsIdentifier x)
    (next : c.rest = "export ".toList ++ ("const".toList ++ (' ' :: (x.toList ++ (' ' :: r))))) :
    (exportOf (seq (opt (seq (lit "declare") space1)) (seq (opt (seq (lit "async") space1))
      (seq (alt (lit "const") b) named)))).Takes c
      ⟨c.past ("export const ".toList ++ x.toList) (' ' :: r),
        [⟨c.past "export const ".toList (x.toList ++ ' ' :: r),
        c.past ("export const ".toList ++ x.toList) (' ' :: r)⟩]⟩ := by
  -- Neither `declare` nor `async` stands before `const`.
  rw [Takes, hits_exportOf start next (by simp; rfl), hits_seq_opt
    (misses_first (x := 'c') rfl rfl rfl), hits_seq_opt (misses_first (x := 'c') rfl rfl rfl)]
  have word' := takes_word (c := c.past "export ".toList _) (w := "const".toList) (r := ' ' ::
    (x.toList ++ ' ' :: r)) rfl
  have taken := takes_seq (takes_alt_left (b := b) word')
    (takes_named valid (fun y same => by cases same; rfl) rfl)
  simpa [Takes, lit] using taken

theorem exportDeclaration_reads : Reads exportDeclaration declareFind := by
  change Reads (exportOf _) _
  refine reads_of_start rfl fun {l c more} valid start next => ?_
  cases l with
  | refers s =>
    exact Or.inl ⟨rfl, export_misses next rfl rfl (fun _ _ => rfl) (fun _ same => by cases same)⟩
  | declares x =>
    exact Or.inr ⟨"export const ".toList ++ x.toList, " = 1;".toList, _, by simp, by simp,
      takes_constant (r := "= 1;".toList ++ '\n' :: more) start (valid.name x rfl)
        (by simp [next]), rfl⟩

def starName : Pattern := seq (lit "as") (seq space1 (seq (group ident) space))

theorem exportStar_eq : exportStar = exportOf (seq (opt (seq (lit "type") space1))
    (seq (lit "*") (seq space (seq (opt starName) (seq (lit "from") edge))))) := rfl

theorem takes_exportStar {c : Cursor} {r : List Char} (start : atLineStart c = true)
    (next : c.rest = "export ".toList ++ ("*".toList ++ (' ' :: ("from".toList ++ ' ' :: r)))) :
    exportStar.Takes c ⟨c.past "export * from".toList (' ' :: r), []⟩ := by
  -- Neither `type` nor `as` stands before or behind the star.
  rw [exportStar_eq, Takes, hits_exportOf start next (by simp; rfl), hits_seq_opt
    (misses_first (x := '*') rfl rfl rfl)]
  have taken := takes_seq (takes_word (c := c.past "export ".toList _) (w := "*".toList) rfl)
    (takes_seq (takes_space rfl (fun y same => by cases same; rfl))
      (takes_seq (takes_alt_right (a := starName) (misses_first (x := 'f') rfl rfl rfl)
        (takes_empty _)) (takes_seq (takes_word (w := "from".toList) (r := ' ' :: r) rfl)
          (takes_edge (atEdge_of (past_prev (x := 'm') rfl) (y := ' ') rfl rfl)))))
  simpa [Takes, lit, opt] using taken

theorem exportStar_reads : Reads exportStar starFind := by
  change Reads (exportOf _) _
  refine reads_of_start rfl fun {l c more} valid start next => ?_
  cases l with
  | declares x =>
    exact Or.inl ⟨rfl, export_misses next rfl rfl (fun _ same => by cases same) (fun _ _ => rfl)⟩
  | refers s =>
    obtain ⟨form, s⟩ := s
    cases form with
    | plain x | braced x | bare | lazy x =>
      exact Or.inl ⟨rfl, export_misses next rfl rfl (fun _ same => by cases same) (fun _ _ => rfl)⟩
    | star =>
      refine Or.inr ⟨"export * from".toList, " \"".toList ++ s.toList ++ "\";".toList, [],
        ?_, by simp, ?_, ?_⟩
      · simp [Statement.body, Form.quote, Form.closing]
      · exact takes_exportStar (r := "\"".toList ++ s.toList ++ "\";".toList ++ '\n' :: more) start
          (by simp [next, Statement.body, Form.quote, Form.closing])
      · simp [starFind]

/-! ### Calls -/

def callOf (b : Pattern) : Pattern := seq edge (seq (lit "import") (seq space (seq (lit "(") b)))

def isCallStop (x : Char) : Bool := x == '(' || x == ';'

section
variable {c : Cursor} {b : Pattern} {a t : List Char}

theorem isCallStop_of {p : Char → Bool} {x : Char} (holds : p x = true) (opening : p '(' = false)
    (ending : p ';' = false) : isCallStop x = false := by
  rw [isCallStop, Bool.or_eq_false_iff, beq_eq_false_iff_ne, beq_eq_false_iff_ne]
  constructor
  · rintro rfl
    rw [opening] at holds
    cases holds
  · rintro rfl
    rw [ending] at holds
    cases holds

theorem callOf_shape {w : List Char} (taken : (callOf b).Accepts w) :
    ∃ blanks v, (∀ x ∈ blanks, isBlank x = true) ∧ w = "import".toList ++ blanks ++ '(' :: v := by
  obtain ⟨_, _, rfl, rfl, _, _, rfl, rfl, blanks, _, rfl, run, _, v, rfl, rfl, _⟩ := taken
  exact ⟨blanks, v, run, by simp⟩

/-- The first parenthesis or semicolon to come is the parenthesis of the call. -/
theorem call_comes_first {x : Char} (free : ∀ y ∈ a, isCallStop y = false) (stop : isCallStop x = true)
    (next : c.rest = a ++ x :: t) {w r : List Char} (same : c.rest = w ++ r)
    (taken : (callOf b).Accepts w) : x = '(' ∧ ∃ blanks, (∀ x ∈ blanks, isBlank x = true) ∧
    a = "import".toList ++ blanks := by
  obtain ⟨blanks, v, blank, rfl⟩ := callOf_shape taken
  have clear : ∀ y ∈ "import".toList ++ blanks, isCallStop y = false :=
    List.forall_mem_append.mpr ⟨by decide, fun y member => isCallStop_of (blank y member) rfl rfl⟩
  obtain ⟨front, head, _⟩ := split_unique (w := v ++ r) free clear stop
    (show isCallStop '(' = true from rfl) (by rw [← next, same]; simp)
  exact ⟨head, blanks, blank, front⟩

theorem callOf_skips_statement {r : List Char} (free : ∀ y ∈ a, isCallStop y = false)
    (next : c.rest = a ++ ';' :: '\n' :: r) :
    (callOf b).finds c = (callOf b).finds (c.past (a ++ [';', '\n']) r) := by
  refine finds_skip (by simp [next]) fun v u split filled => ?_
  have inside : ∀ a', (∀ y ∈ a', y ∈ a) → u = a' ++ [';', '\n'] →
      (callOf b).Misses (c.past v (u ++ r)) := by
    rintro a' part rfl
    refine misses_of_accepts fun w r' same taken => ?_
    have first := call_comes_first (x := ';') (a := a') (fun y member => free y (part y member)) rfl
      (t := '\n' :: r) (by simp) same taken
    cases first.1
  rcases List.append_eq_append_iff.mp split with ⟨a', rfl, tail⟩ | ⟨a', rfl, tail⟩
  · cases a' with
    | nil => exact inside [] (by simp) tail.symm
    | cons y a' =>
      -- What is left is the end of the line.
      obtain ⟨rfl, end'⟩ := List.cons.inj tail
      obtain ⟨rfl, rfl⟩ : a' = [] ∧ u = ['\n'] := by
        rcases List.singleton_eq_append_iff.mp end' with ⟨rfl, rfl⟩ | ⟨_, rfl⟩
        · exact ⟨rfl, rfl⟩
        · exact absurd rfl filled
      exact misses_first (x := '\n') rfl rfl rfl
  · exact inside a' (fun y member => List.mem_append_right _ member) tail

/-- Nothing in front of the word `import` is part of its call. -/
theorem callOf_skips_front (free : ∀ y ∈ a, isCallStop y = false)
    (next : c.rest = a ++ ("import".toList ++ '(' :: t)) :
    (callOf b).finds c = (callOf b).finds (c.past a ("import".toList ++ '(' :: t)) := by
  refine finds_skip next fun v u split filled => misses_of_accepts fun w r same taken => ?_
  have clear : ∀ y ∈ u ++ "import".toList, isCallStop y = false :=
    List.forall_mem_append.mpr
      ⟨fun y member => free y (by rw [split]; exact List.mem_append_right _ member), by decide⟩
  obtain ⟨_, blanks, blank, shift⟩ := call_comes_first (x := '(') (t := t) clear rfl
    (by simp) same taken
  have late := blank 't' (mem_of_shift (k := "impor".toList) (t := []) filled shift)
  cases late

end

theorem takes_lazyLiteral {c : Cursor} {s r : List Char} (behind : c.prev = some ' ')
    (apart : '\'' ∉ s) (single : '\n' ∉ s)
    (next : c.rest = "import".toList ++ ("(".toList ++ ('\'' :: s ++ '\'' :: (")".toList ++ r)))) :
    lazyLiteral.Takes c ⟨c.past ("import('".toList ++ s ++ "')".toList) r,
      [⟨c.past "import('".toList (s ++ '\'' :: ')' :: r),
        c.past ("import('".toList ++ s) ('\'' :: ')' :: r)⟩]⟩ := by
  have taken := takes_seq (takes_edge (atEdge_of behind (y := 'i') (by rw [next]; rfl) rfl))
    (takes_seq (takes_word next) (takes_seq (takes_unspaced (fun y same => by cases same; rfl))
      (takes_seq (takes_word rfl) (takes_seq (takes_unspaced (fun y same => by cases same; rfl))
        (takes_seq (takes_alt_left (b := alt (quotedBy '"') template)
          (takes_quotedBy (s := s) rfl apart single))
          (takes_seq (takes_unspaced (fun y same => by cases same; rfl)) (takes_word rfl)))))))
  simpa [lazyLiteral, all, any, lit] using taken

theorem IsIdentifier.clear {x : String} (valid : IsIdentifier x) :
    ∀ y ∈ x.toList, isCallStop y = false :=
  fun y member => isCallStop_of (valid.2 y member) rfl rfl

/-- Only a call has a parenthesis. -/
theorem Line.Valid.ends {l : Line} (valid : l.Valid) (plain : ∀ x s, l ≠ .refers ⟨.lazy x, s⟩) :
    ∃ a, l.body = a ++ [';'] ∧ ∀ y ∈ a, isCallStop y = false := by
  cases l with
  | declares x =>
    refine ⟨"export const ".toList ++ x.toList ++ " = 1".toList, by simp, ?_⟩
    exact List.forall_mem_append.mpr
      ⟨List.forall_mem_append.mpr ⟨by decide, (valid.name x rfl).clear⟩, by decide⟩
  | refers s =>
    have specifier : ∀ y ∈ s.specifier.toList, isCallStop y = false := fun y member =>
      isCallStop_of (valid.specifier_of y member) rfl rfl
    have opening : ∀ y ∈ s.form.opening, isCallStop y = false := by
      obtain ⟨form, s⟩ := s
      cases form with
      | plain x | braced x =>
        exact List.forall_mem_append.mpr
          ⟨List.forall_mem_append.mpr ⟨by decide, (valid.name x rfl).clear⟩, by decide⟩
      | bare | star =>
        change ∀ y ∈ String.toList _, _
        decide
      | lazy x => exact absurd rfl (plain x s)
    have quote : isCallStop s.form.quote = false := by cases s.form <;> rfl
    have closing : s.form.closing = [';'] := by
      obtain ⟨form, s⟩ := s
      cases form with
      | lazy x => exact absurd rfl (plain x s)
      | plain x | braced x | bare | star => rfl
    refine ⟨s.form.opening ++ s.form.quote :: s.specifier.toList ++
      [s.form.quote], by simp [Statement.body, closing], ?_⟩
    simp only [List.forall_mem_append, List.forall_mem_cons]
    exact ⟨⟨opening, quote, specifier⟩, quote, by simp⟩

theorem lazyLiteral_eq :
    lazyLiteral = callOf (all [space, any [quotedBy '\'', quotedBy '"', template], space,
      lit ")"]) :=
  rfl

theorem lazyLiteral_finds_call {c : Cursor} {front s r : List Char}
    (clear : ∀ y ∈ front, isCallStop y = false)
    (behind : front.getLast? = some ' ') (apart : '\'' ∉ s) (single : '\n' ∉ s)
    (next : c.rest = front ++ ("import('".toList ++ s ++ "')".toList ++ ';' :: '\n' :: r)) :
    lazyLiteral.finds c =
      ⟨c.past front ("import('".toList ++ s ++ "')".toList ++ ';' :: '\n' :: r),
        c.past (front ++ ("import('".toList ++ s ++ "')".toList)) (';' :: '\n' :: r),
        [⟨c.past (front ++ "import('".toList) (s ++ "')".toList ++ ';' :: '\n' :: r),
          c.past (front ++ "import('".toList ++ s) ("')".toList ++ ';' :: '\n' :: r)⟩]⟩ ::
      lazyLiteral.finds (c.past (front ++ ("import('".toList ++ s ++ "')".toList) ++
        [';', '\n']) r) := by
  have skipped : lazyLiteral.finds c =
      lazyLiteral.finds
        (c.past front ("import('".toList ++ s ++ "')".toList ++ ';' :: '\n' :: r)) := by
    rw [lazyLiteral_eq, callOf_skips_front clear (t := '\'' :: s ++ "')".toList ++ ';' :: '\n' :: r)
      (by simp [next])]
    simp
  have taken := takes_lazyLiteral
    (c := c.past front ("import('".toList ++ s ++ "')".toList ++ ';' :: '\n' :: r))
    (r := ';' :: '\n' :: r) (past_prev behind) apart single (by simp)
  have rest : lazyLiteral.finds (c.past (front ++ ("import('".toList ++ s ++ "')".toList))
      (';' :: '\n' :: r)) = lazyLiteral.finds (c.past
        (front ++ ("import('".toList ++ s ++ "')".toList) ++ [';', '\n']) r) := by
    rw [lazyLiteral_eq, callOf_skips_statement (a := []) (by simp) rfl, past_past]
    rfl
  rw [skipped, finds_hit taken (by simp) (by simp), past_past, rest]
  simp

theorem lazyLiteral_reads : Reads lazyLiteral lazyFind where
  last c next := finds_end (misses_of_opens rfl (by rw [next]; intro x none; cases none)) next
  line := by
    intro l c more valid start next
    by_cases plain : ∀ x s, l ≠ .refers ⟨.lazy x, s⟩
    · obtain ⟨a, shape, free⟩ := valid.ends plain
      have nothing : lazyFind l c more = [] := by
        unfold lazyFind
        split
        · exact absurd rfl (plain _ _)
        · rfl
      rw [nothing, lazyLiteral_eq, callOf_skips_statement free (r := more) (by simp [next, shape]),
        Line.text, shape]
      simp
    · obtain ⟨x, s, rfl⟩ : ∃ x s, l = .refers ⟨.lazy x, s⟩ := by simpa using plain
      have front : ∀ y ∈ "const ".toList ++ x.toList ++ " = ".toList, isCallStop y = false :=
        List.forall_mem_append.mpr
          ⟨List.forall_mem_append.mpr ⟨by decide, (valid.name x rfl).clear⟩, by decide⟩
      rw [lazyLiteral_finds_call (r := more) front (by rw [List.getLast?_append]; rfl)
        (valid.specifier_of.free rfl) (valid.specifier_of.free rfl)
          (by simp [next, Statement.body, Form.quote, Form.closing])]
      simp [lazyFind, Line.text, Statement.body, Statement.piece, Form.quote, Form.closing]

/-! ### Patterns that find nothing anywhere -/

def OpensQuoted (t : List Char) : Prop := ∀ a x b, t = a ++ '(' :: x :: b → x = '\''

theorem OpensQuoted.behind {a t : List Char} (quotes : OpensQuoted t) (free : '(' ∉ a) :
    OpensQuoted (a ++ t) := by
  intro front x b same
  rcases List.append_eq_append_iff.mp same with ⟨z, rfl, tail⟩ | ⟨z, rfl, tail⟩
  · exact quotes z x b tail
  · cases z with
    | nil => exact quotes [] x b tail.symm
    | cons y z =>
      obtain ⟨rfl, _⟩ := List.cons.inj tail
      simp at free

theorem OpensQuoted.call {t : List Char} (quotes : OpensQuoted t) :
    OpensQuoted ('(' :: '\'' :: t) := by
  intro front x b same
  cases front with
  | nil =>
    cases same
    rfl
  | cons y front =>
    refine (quotes.behind (a := ['\'']) (by decide)) front x b ?_
    exact (List.cons.inj same).2

theorem programText_opensQuoted {lines : List Line} (valid : ∀ l ∈ lines, l.Valid) :
    OpensQuoted (programText lines) := by
  induction lines with
  | nil =>
    intro a x b same
    cases List.append_eq_nil_iff.mp same.symm |>.2
  | cons l rest ih =>
    have others := ih fun l inside => valid l (List.mem_cons_of_mem _ inside)
    have here := valid l List.mem_cons_self
    rw [programText_cons]
    by_cases plain : ∀ x s, l ≠ .refers ⟨.lazy x, s⟩
    · obtain ⟨a, shape, free⟩ := here.ends plain
      have outside : '(' ∉ l.body ++ ['\n'] := by
        rw [shape]
        simp only [List.mem_append, List.mem_singleton, not_or]
        exact ⟨⟨fun member => Bool.noConfusion (free '(' member), by decide⟩, by decide⟩
      have behind := others.behind outside
      rwa [List.append_assoc] at behind
    · obtain ⟨x, s, rfl⟩ : ∃ x s, l = .refers ⟨.lazy x, s⟩ := by simpa using plain
      have name : '(' ∉ x.toList := (here.name x rfl).free rfl
      have specifier : '(' ∉ s.toList := here.specifier_of.free rfl
      have argument := (others.behind (a := s.toList ++ "');\n".toList) (by simp [specifier])).call
      have behind := argument.behind (a := "const ".toList ++ x.toList ++ " = import".toList)
        (by simp [name])
      simpa [Statement.body, Form.quote, Form.closing] using behind

section
variable {lines : List Line} (valid : ∀ l ∈ lines, l.Valid)
include valid

theorem lazyComputed_finds : lazyComputed.finds (ofList (programText lines)) = [] := by
  refine finds_nothing fun v w r same taken => ?_
  obtain ⟨_, _, rfl, rfl, _, _, rfl, rfl, gap, _, rfl, _, _, _, rfl, rfl, gap', _, rfl, blank, _, z,
    rfl, argument, _⟩ := taken
  obtain ⟨_, others, rfl, ⟨x, rfl, plain⟩, _⟩ := argument
  have quotes := programText_opensQuoted valid (v ++ "import".toList ++ gap)
  simp only [Bool.not_eq_true', Bool.or_eq_false_iff, beq_eq_false_iff_ne] at plain
  cases gap' with
  | nil =>
    have quote := quotes x (others ++ z ++ r) (by simpa [ofList] using same)
    exact plain.1.1.1.1 quote
  | cons y gap' =>
    have quote := quotes y (gap' ++ x :: others ++ z ++ r) (by simpa [ofList] using same)
    have spaced := blank y List.mem_cons_self
    rw [quote] at spaced
    cases spaced

theorem no_angle : '<' ∉ programText lines := by
  intro member
  obtain ⟨l, inside, member⟩ := List.mem_flatMap.mp member
  rcases List.mem_append.mp member with inBody | ending
  · exact (valid l inside).free rfl rfl (by decide) inBody
  · cases List.mem_singleton.mp ending

theorem markup_finds : markup.finds (ofList (programText lines)) = [] := by
  refine finds_nothing fun v w r same taken => ?_
  obtain ⟨before, _, rfl, _, _, z, rfl, rfl, _⟩ := taken
  refine no_angle valid ?_
  rw [show programText lines = _ from same]
  simp

end

end Relocation
