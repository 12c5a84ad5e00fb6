import Relocation.Proofs.Extraction.Lexemes
import Relocation.Proofs.Extraction.Program

/-!
# The grammar on import programs

What the rules of the grammar do with the parts of a line. A state inside a line is
`⟨p.past u r, nodes⟩`: the line starts at `p`, the text `u` of it has been read and `r` comes next.
Each rule is stated for such a state, so that the rules of a line compose.
-/

namespace Relocation.Grammar

open Text Text.Cursor Reader

/-! ### States inside a line -/

section
variable {p : Cursor} {u w r : List Char} {nodes : List Tree} {s : State} {x q : Char}

theorem peek_past (starts : Starts r) : State.peek ⟨p.past u r, nodes⟩ = p.past u r :=
  skipTrivia_of_starts starts

theorem peek_space (starts : Starts r) :
    State.peek ⟨p.past u (' ' :: r), nodes⟩ = p.past (u ++ [' ']) r := by
  rw [← past_past p u [' '] r (' ' :: r)]
  exact skipTrivia_space rfl rfl starts

theorem ends_cons (ends : isNamePart x = false) (r : List Char) : Ends (x :: r) := by
  intro y same
  cases same
  exact ends

theorem rest_past (starts : Starts r) : (State.peek ⟨p.past u r, nodes⟩).rest = r := by
  rw [peek_past starts]
  rfl

theorem starts_of_head (head : r.head? = some x) (filled : isSpace x = false) (other : x ≠ '/') :
    Starts r := by
  intro y same
  rw [head] at same
  cases same
  exact ⟨filled, other⟩

theorem peek_head (here : s.peek = p.past u r) (head : r.head? = some x) :
    s.peek.rest.head? = some x := by
  rw [here]
  exact head

theorem sees_other {k : String} {y : Char} (next : s.peek.rest.head? = some x)
    (first : k.toList.head? = some y) (other : y ≠ x) : s.sees k = false := by
  obtain ⟨r, shape⟩ := List.head?_eq_some_iff.mp next
  obtain ⟨w, sign⟩ := List.head?_eq_some_iff.mp first
  rw [State.sees, shape, sign, List.isPrefixOf_cons_cons, beq_eq_false_iff_ne.mpr other]
  rfl

theorem firstSign?_none (signs : List String) (next : s.peek.rest.head? = some x)
    (other : ∀ k ∈ signs, ∃ y ∈ k.toList.head?, y ≠ x) : firstSign? s signs = none := by
  rw [firstSign?, List.find?_eq_none]
  intro k member
  obtain ⟨y, first, apart⟩ := other k member
  rw [sees_other next first apart]
  exact Bool.false_ne_true

theorem keyword_at {k : String} (here : s.peek = p.past u (k.toList ++ r)) (named : IsWord k.toList)
    (ends : Ends r) : keyword k s = some ⟨p.past (u ++ k.toList) r, s.nodes⟩ := by
  rw [keyword_eq named ends (by rw [here]; rfl), here, past_past]

theorem word?_at {k : String} (here : s.peek = p.past u (k.toList ++ r)) (named : IsWord k.toList)
    (ends : Ends r) : s.word? = some k := by
  rw [word?_eq named ends (by rw [here]; rfl), String.ofList_toList]

theorem word_at (here : s.peek = p.past u (w ++ r)) (named : IsWord w) (ends : Ends r) :
    word s = some ⟨p.past (u ++ w) r, s.nodes⟩ := by
  rw [word_eq named ends (by rw [here]; rfl), here, past_past]

theorem punct_at {k : String} (here : s.peek = p.past u (k.toList ++ r)) :
    punct k s = some ⟨p.past (u ++ k.toList) r, s.nodes⟩ := by
  rw [punct_eq (by rw [here]; rfl), here, past_past]

theorem sign_at {k : String} (here : s.peek = p.past u (x :: r)) (sign : k.toList = [x]) :
    punct k s = some ⟨p.past (u ++ [x]) r, s.nodes⟩ := by
  rw [punct_at (k := k) (by rw [sign]; exact here), sign]

theorem semicolon_at (here : s.peek = p.past u (';' :: r)) :
    semicolon s = some ⟨p.past (u ++ [';']) r, s.nodes⟩ := by
  rw [semicolon, sign_at here rfl]

theorem maybe_none {a : Rule} (first : a s = none) : maybe a s = some s := by
  rw [maybe, first]
  rfl

theorem maybe_punct {k : String} (unseen : s.sees k = false) : maybe (punct k) s = some s :=
  maybe_none (punct_none unseen)

theorem string?_at (quote : isQuote q = true) (valid : ∀ x ∈ w, isSpecifierChar x = true)
    (next : p.rest = q :: w ++ q :: r) : string? p = some ⟨p, p.past (q :: w ++ [q]) r⟩ := by
  have free : ∀ x : Char, isSpecifierChar x = false → x ∉ w := by
    intro x other member
    rw [valid x member] at other
    cases other
  refine string?_eq quote ?_ (free _ rfl) (free _ rfl) (free _ rfl) next
  rcases quote_cases quote with rfl | rfl
  · exact free _ rfl
  · exact free _ rfl

theorem orElse_left {a b : Rule} {t : State} (first : a s = some t) : orElse a b s = some t := by
  rw [orElse, first]

theorem orElse_right {a b : Rule} (first : a s = none) : orElse a b s = b s := by
  rw [orElse, first]

theorem bind_some {α β : Type} {o : Option α} {a : α} {f : α → Option β} {b : Option β}
    (first : o = some a) (rest : f a = b) : o >>= f = b := by
  rw [first]
  exact rest

variable {kind field : String} {a : Rule} {v r' : List Char} {c : List Tree}

theorem node_at (here : s.peek = p.past u r) (run : a s.enter = some ⟨p.past v r', c⟩) :
    node kind a s = some ⟨p.past v r', .node
      { kind, start := p.pos + byteLength u, stop := p.pos + byteLength v } c.reverse :: s.nodes⟩ := by
  rw [node, run, Option.map_some, State.close, here]
  rfl

theorem inField_at (run : a s.enter = some ⟨p.past v r', c⟩) :
    inField field a s = some ⟨p.past v r', c.map (Tree.inField field) ++ s.nodes⟩ := by
  rw [inField, run]
  rfl

/-- The node of a lexeme `w` behind the text `u` of a line. -/
def leaf (kind : String) (p : Cursor) (u w : List Char) : Tree :=
  .node { kind, start := p.pos + byteLength u, stop := p.pos + byteLength (u ++ w) } []

theorem identifier_at (here : s.peek = p.past u (w ++ r)) (named : IsWord w) (ends : Ends r) :
    identifier s = some ⟨p.past (u ++ w) r, leaf "identifier" p u w :: s.nodes⟩ :=
  node_at here (word_at (s := s.enter) here named ends)

theorem stringLexeme_at (quote : isQuote q = true) (valid : ∀ x ∈ w, isSpecifierChar x = true)
    (here : s.peek = p.past u (q :: w ++ q :: r)) : stringLexeme s =
      some ⟨p.past (u ++ (q :: w ++ [q])) r, leaf "string" p u (q :: w ++ [q]) :: s.nodes⟩ := by
  have entered : s.enter.peek = p.past u (q :: w ++ q :: r) := here
  refine node_at (c := []) here ?_
  rw [entered, string?_at quote valid rfl, past_past]
  rfl

end

/-! ### Expressions -/

def isClosing (x : Char) : Bool := x == ';' || x == ')'

section
variable {language : Language} {d : Nat} {p : Cursor} {s t : State} {u w r : List Char} {x : Char}

theorem closing_cases (closing : isClosing x = true) : x = ';' ∨ x = ')' := by
  simpa [isClosing] using closing

theorem read_suffixes (next : t.peek.rest = x :: r) (closing : isClosing x = true) :
    read language (d + 1) .suffixes t = some t := by
  change Reader.suffixes _ t = some t
  rw [Reader.suffixes, next]
  rcases closing_cases closing with rfl | rfl <;> rfl

theorem read_operators (next : t.peek.rest = x :: r) (closing : isClosing x = true) :
    read language (d + 1) .operators t = some t := by
  have head : t.peek.rest.head? = some x := by rw [next]; rfl
  change Reader.operators _ t = some t
  rcases closing_cases closing with rfl | rfl
  all_goals
    rw [Reader.operators, word?_none head rfl]
    simp only [sees_other (k := "=>") (y := '=') head rfl (by decide),
      sees_other (k := "++") (y := '+') head rfl (by decide), sees_other (k := "--")
        (y := '-') head rfl (by decide),
      sees_other (k := "=") (y := '=') head rfl (by decide), sees_other (k := "?")
        (y := '?') head rfl (by decide),
      firstSign?_none assignmentSigns head (by decide), firstSign?_none binarySigns head (by decide),
      Bool.or_self, Bool.false_eq_true, if_false]

theorem read_operand (first : read language (d + 1) .primary s = some t) (next : t.peek.rest = x :: r)
    (closing : isClosing x = true) : read language (d + 2) .operand s = some t := by
  change ((read language (d + 1) .primary s).bind (read language (d + 1) .suffixes)) = some t
  rw [first]
  exact read_suffixes next closing

theorem read_assignment (noArrow : Reader.arrow ⟨language, read language (d + 3)⟩ s = none)
    (plain : Reader.unary ⟨language, read language (d + 2)⟩ s = read language (d + 2) .operand s)
    (first : read language (d + 1) .primary s = some t) (next : t.peek.rest = x :: r)
    (closing : isClosing x = true) : read language (d + 4) .assignment s = some t := by
  have operand : read language (d + 3) .unary s = some t :=
    plain.trans (read_operand first next closing)
  have operators : read language (d + 3) .operators t = some t := read_operators next closing
  change Reader.assignment ⟨language, read language (d + 3)⟩ s = some t
  unfold Reader.assignment orElse
  rw [noArrow]
  exact bind_some operand operators

theorem arrowBody_none {g : Reader} (unseen : s.sees "=>" = false) : g.arrowBody s = none := by
  rw [Reader.arrowBody, punct_none unseen]
  rfl

theorem arrow_none {g : Reader} {y : Char} (head : s.peek.rest.head? = some y) (list : '(' ≠ y)
    (angle : '<' ≠ y) (plain : s.seesWord "async" = false)
    (single : andThen word g.arrowBody s = none) : g.arrow s = none := by
  rw [Reader.arrow, sees_other (y := '(') head rfl list, sees_other (y := '<') head rfl angle, plain]
  exact single

theorem read_literal {y : Char} (head : s.peek.rest.head? = some y) (literal : y = '1' ∨ y = '\'')
    (first : read language (d + 1) .primary s = some t) (next : t.peek.rest = x :: r)
    (closing : isClosing x = true) : read language (d + 4) .assignment s = some t := by
  have sign : isNameStart y = false := by rcases literal with rfl | rfl <;> rfl
  refine read_assignment (arrow_none head ?_ ?_ ?_ ?_) ?_ first next closing
  · rcases literal with rfl | rfl <;> decide
  · rcases literal with rfl | rfl <;> decide
  · rw [State.seesWord, word?_none head sign]
    rfl
  · rw [andThen, word_none head sign]
    rfl
  · rw [Reader.unary, word?_none head sign, next?, head]
    rcases literal with rfl | rfl <;> rfl

theorem read_number (here : s.peek = p.past u ('1' :: ';' :: r)) :
    read language (d + 4) .assignment s = some ⟨p.past (u ++ ['1']) (';' :: r), s.nodes⟩ := by
  have head := peek_head here rfl
  refine read_literal head (Or.inl rfl) ?_
    (rest_past (starts_of_head (x := ';') rfl rfl (by decide))) rfl
  change Reader.primary _ s = _
  rw [Reader.primary, word?_none head rfl, next?, head]
  change numberLexeme s = _
  rw [numberLexeme, number?, here, ← past_past p u ['1'] (';' :: r) ('1' :: ';' :: r)]
  rfl

theorem read_string (valid : ∀ x ∈ w, isSpecifierChar x = true)
    (here : s.peek = p.past u ('\'' :: w ++ '\'' :: ')' :: r)) :
    read language (d + 4) .assignment s = some ⟨p.past (u ++ ('\'' :: w ++ ['\''])) (')' :: r),
      leaf "string" p u ('\'' :: w ++ ['\'']) :: s.nodes⟩ := by
  have head := peek_head here rfl
  refine read_literal head (Or.inr rfl) ?_
    (rest_past (starts_of_head (x := ')') rfl rfl (by decide))) rfl
  change Reader.primary _ s = _
  rw [Reader.primary, word?_none head rfl, next?, head]
  exact stringLexeme_at rfl valid here

/-- A node that takes up all that a rule reads stands for it. -/
theorem whole_at {kind : String} {a : Rule} {v r' : List Char} {n : Tree} (here : s.peek = p.past u r)
    (run : a s.enter = some ⟨p.past v r', [n]⟩) (start : n.label.start = p.pos + byteLength u)
    (stop : n.label.stop = p.pos + byteLength v) :
    whole kind a s = some ⟨p.past v r', n :: s.nodes⟩ := by
  rw [whole, run]
  simp [here, start, stop]

/-- `import('…')` behind the text `u` of a line. -/
def callTree (p : Cursor) (u w : List Char) : Tree :=
  let quoted := '\'' :: w ++ ['\'']
  let stop := p.pos + byteLength (u ++ "import(".toList ++ quoted ++ [')'])
  .node { kind := "call_expression", start := p.pos + byteLength u, stop }
    [(leaf "import" p u "import".toList).inField "function",
      .node { kind := "arguments", start := p.pos + byteLength (u ++ "import".toList), stop
              field := some "arguments" } [leaf "string" p (u ++ "import(".toList) quoted]]

theorem importArguments_at (valid : ∀ x ∈ w, isSpecifierChar x = true)
    (here : s.peek = p.past u ('(' :: ('\'' :: w ++ '\'' :: ')' :: r))) (nodes : s.nodes = []) :
    Reader.importArguments ⟨language, read language (d + 4)⟩ s =
      some ⟨p.past (u ++ ['('] ++ ('\'' :: w ++ ['\'']) ++ [')']) r,
        [leaf "string" p (u ++ ['(']) ('\'' :: w ++ ['\''])]⟩ := by
  -- The places behind the parenthesis and behind the string.
  let a := p.past (u ++ ['(']) ('\'' :: w ++ '\'' :: ')' :: r)
  let b := p.past (u ++ ['('] ++ ('\'' :: w ++ ['\''])) (')' :: r)
  let string := leaf "string" p (u ++ ['(']) ('\'' :: w ++ ['\''])
  have inside : State.peek ⟨a, []⟩ = a := peek_past (starts_of_head rfl rfl (by decide))
  have behind : State.peek ⟨b, [string]⟩ = b := peek_past (starts_of_head rfl rfl (by decide))
  have opened : punct "(" s = some ⟨a, []⟩ := by rw [sign_at here rfl, nodes]
  have start : a.dropWhile isSpace = a :=
    dropWhile_past (w := []) rfl (by simp) (fun x same => by cases same; rfl)
  have spread : State.sees ⟨a, []⟩ "..." = false :=
    sees_other (y := '.') (peek_head inside rfl) rfl (by decide)
  have argument : whole "expression"
      (andThen (maybe (punct "...")) (read language (d + 4) .assignment)) ⟨a, []⟩ =
        some ⟨b, [string]⟩ := by
    refine whole_at inside ?_ rfl rfl
    rw [andThen, State.enter, maybe_punct spread]
    exact read_string valid inside
  have last : State.sees ⟨b, [string]⟩ "," = false :=
    sees_other (y := ',') (peek_head behind rfl) rfl (by decide)
  refine bind_some opened ?_
  simp only [start, show comment? a = none from rfl, show a.next? = some '\'' from rfl,
    Option.some.injEq, Char.reduceEq, if_false]
  refine bind_some argument ?_
  rw [last, closing, sign_at behind rfl]
  rfl

theorem read_importCall (valid : ∀ x ∈ w, isSpecifierChar x = true)
    (here : s.peek = p.past u ("import".toList ++ '(' :: ('\'' :: w ++ '\'' :: ')' :: r))) :
    Reader.importCall ⟨language, read language (d + 4)⟩ s =
      some ⟨p.past (u ++ "import(".toList ++ ('\'' :: w ++ ['\'']) ++ [')']) r,
        callTree p u w :: s.nodes⟩ := by
  let a := p.past (u ++ "import".toList) ('(' :: ('\'' :: w ++ '\'' :: ')' :: r))
  let function := (leaf "import" p u "import".toList).inField "function"
  have behind : State.peek ⟨a, [function]⟩ = a := peek_past (starts_of_head rfl rfl (by decide))
  have called : inField "function" (node "import" (keyword "import")) s.enter = some ⟨a, [function]⟩ :=
    inField_at (s := s.enter) (node_at (s := s.enter) here
      (keyword_at (s := s.enter) (k := "import") here (by decide) (ends_cons rfl _)))
  have arguments : Reader.importArguments ⟨language, read language (d + 4)⟩ ⟨a, []⟩ = _ :=
    importArguments_at valid behind rfl
  have joined : u ++ "import".toList ++ ['('] = u ++ "import(".toList := by
    rw [List.append_assoc]
    rfl
  rw [joined] at arguments
  have listed : inField "arguments"
      (node "arguments" (Reader.importArguments ⟨language, read language (d + 4)⟩))
      ⟨a, [function]⟩ = _ := inField_at (s := ⟨a, [function]⟩)
        (node_at (s := ⟨a, []⟩) behind arguments)
  exact node_at (c := (callTree p u w).children.reverse) here (bind_some called listed)

theorem read_importExpression (valid : ∀ x ∈ w, isSpecifierChar x = true)
    (here : s.peek = p.past u ("import".toList ++ '(' :: ('\'' :: w ++ '\'' :: ')' :: ';' :: r))) :
    read language (d + 8) .assignment s =
      some ⟨p.past (u ++ "import(".toList ++ ('\'' :: w ++ ['\'']) ++ [')']) (';' :: r),
        callTree p u w :: s.nodes⟩ := by
  have head : s.peek.rest.head? = some 'i' := peek_head here rfl
  have next : s.word? = some "import" := word?_at here (by decide) (ends_cons rfl _)
  have call : Reader.importCall ⟨language, read language (d + 4)⟩ s = _ := read_importCall valid here
  -- No arrow stands behind the word, so it is no parameter.
  let a : State :=
    ⟨p.past (u ++ "import".toList) ('(' :: ('\'' :: w ++ '\'' :: ')' :: ';' :: r)), s.nodes⟩
  have behind : a.peek = a.cur := peek_past (starts_of_head rfl rfl (by decide))
  have body : a.sees "=>" = false := sees_other (y := '=') (peek_head behind rfl) rfl (by decide)
  refine read_assignment (arrow_none head (by decide) (by decide) ?_ ?_) ?_ ?_
    (rest_past (starts_of_head (x := ';') rfl rfl (by decide))) rfl
  · rw [State.seesWord, next]
    rfl
  · rw [andThen, word_at here (by decide) (ends_cons rfl _)]
    exact arrowBody_none body
  · rw [Reader.unary, next]
    rfl
  · change Reader.primary _ s = _
    rw [Reader.primary, next]
    change Reader.primaryWord _ "import" s = _
    rw [Reader.primaryWord]
    exact orElse_left call

end

/-! ### Declarations -/

section
variable {language : Language} {d : Nat} {p : Cursor} {s t : State} {u w r : List Char} {x : Char}

theorem declaredName_at (here : s.peek = p.past u (w ++ r)) (named : IsWord w) (ends : Ends r) :
    declaredName s =
      some ⟨p.past (u ++ w) r, (leaf "identifier" p u w).inField "name" :: s.nodes⟩ :=
  inField_at (identifier_at (s := s.enter) here named ends)

theorem IsWord.head (named : IsWord w) (r : List Char) :
    ∃ x, (w ++ r).head? = some x ∧ isSpace x = false ∧ ∀ y ∈ punctuation, y ≠ x := by
  obtain ⟨x, head, start⟩ := named.1
  simp only [isNameStart, isNamePart, Bool.and_eq_true, Bool.not_eq_true', List.contains_eq_mem,
    decide_eq_false_iff_not] at start
  refine ⟨x, by rw [List.head?_append, head]; rfl, start.1.1.2, ?_⟩
  rintro y sign rfl
  exact start.1.2 sign

theorem IsWord.starts (named : IsWord w) (r : List Char) : Starts (w ++ r) := by
  obtain ⟨x, head, filled, other⟩ := named.head r
  exact starts_of_head head filled (other '/' (by decide)).symm

theorem IsWord.sees_sign {k : String} {y : Char} (named : IsWord w) (here : s.peek = p.past u (w ++ r))
    (first : k.toList.head? = some y) (sign : y ∈ punctuation) : s.sees k = false := by
  obtain ⟨x, head, filled, other⟩ := named.head r
  exact sees_other (peek_head here head) first (other y sign)

theorem equals_at (here : s.peek = p.past u ('=' :: ' ' :: r)) :
    equals s = some ⟨p.past (u ++ ['=']) (' ' :: r), s.nodes⟩ := by
  have longer : s.sees "==" = false := by rw [State.sees, here]; rfl
  have arrow : s.sees "=>" = false := by rw [State.sees, here]; rfl
  rw [equals, longer, arrow, sign_at here rfl]
  rfl

theorem annotation_none {g : Reader} (unseen : s.sees ":" = false) : g.annotation s = some s := by
  refine maybe_none ?_
  rw [Reader.typed, andThen, punct_none unseen]
  exact ite_self _

variable {v r' : List Char} {c : List Tree}

theorem declarator_at (named : IsWord w) (here : s.peek = p.past u (w ++ ' ' :: '=' :: ' ' :: r))
    (filled : Starts r) (head : r.head? = some x) (given : ';' ≠ x)
    (value : read language d .assignment ⟨p.past (u ++ w ++ [' '] ++ ['=']) (' ' :: r),
      [(leaf "identifier" p u w).inField "name"]⟩ = some ⟨p.past v (';' :: r'), c⟩) :
    Reader.declarator ⟨language, read language d⟩ s = some ⟨p.past v (';' :: r'), .node
      { kind := "variable_declarator", start := p.pos + byteLength u, stop := p.pos + byteLength v }
        c.reverse :: s.nodes⟩ := by
  let g : Reader := ⟨language, read language d⟩
  let name := (leaf "identifier" p u w).inField "name"
  -- Behind the name and behind the sign.
  let a : State := ⟨p.past (u ++ w) (' ' :: '=' :: ' ' :: r), [name]⟩
  let b : State := ⟨p.past (u ++ w ++ [' '] ++ ['=']) (' ' :: r), [name]⟩
  have sign : a.peek = p.past (u ++ w ++ [' ']) ('=' :: ' ' :: r) :=
    peek_space (starts_of_head rfl rfl (by decide))
  have brace : s.enter.sees "\x7b" = false := named.sees_sign here rfl (by decide)
  have bracket : s.enter.sees "[" = false := named.sees_sign here rfl (by decide)
  have mark : a.sees "!" = false := sees_other (y := '!') (peek_head sign rfl) rfl (by decide)
  have colon : a.sees ":" = false := sees_other (y := ':') (peek_head sign rfl) rfl (by decide)
  have missing : b.sees ";" = false :=
    sees_other (y := ';') (peek_head (peek_space filled) head) rfl given
  have valued : whenever equals g.initialValue a = some ⟨p.past v (';' :: r'), c⟩ := by
    rw [whenever, equals_at sign]
    change (if b.sees ";" then _ else _) = _
    rw [missing]
    exact value
  refine node_at here ?_
  rw [brace, bracket]
  refine bind_some (declaredName_at (s := s.enter) here named (ends_cons rfl _)) ?_
  have ended := bind_some (annotation_none (g := g) colon) valued
  dsimp only
  split
  · exact bind_some (maybe_punct mark) ended
  · exact bind_some rfl ended

/-- `w = …` behind the text `u` of a line, where `v` is all up to its end. -/
def declaratorTree (p : Cursor) (u v w : List Char) (value : List Tree) : Tree :=
  .node { kind := "variable_declarator", start := p.pos + byteLength u, stop := p.pos + byteLength v }
    ((leaf "identifier" p u w).inField "name" :: value)

/-- `const w = …;` behind the text `u` of a line, where `v` is all before the semicolon. -/
def constTree (p : Cursor) (u v w : List Char) (value : List Tree) : Tree :=
  .node { kind := "lexical_declaration", start := p.pos + byteLength u
          stop := p.pos + byteLength (v ++ [';']) }
    [declaratorTree p (u ++ "const ".toList) v w value]

theorem read_declaration (named : IsWord w) (other : w ≠ "enum".toList)
    (here : s.peek = p.past u ("const".toList ++ ' ' :: (w ++ ' ' :: '=' :: ' ' :: r)))
    (filled : Starts r) (head : r.head? = some x) (given : ';' ≠ x)
    (value : read language d .assignment
      ⟨p.past (u ++ "const ".toList ++ w ++ [' '] ++ ['=']) (' ' :: r),
        [(leaf "identifier" p (u ++ "const ".toList) w).inField "name"]⟩ =
        some ⟨p.past v (';' :: r'),
          c ++ [(leaf "identifier" p (u ++ "const ".toList) w).inField "name"]⟩) :
    read language (d + 2) .declaration s =
      some ⟨p.past (v ++ [';']) r', constTree p u v w c.reverse :: s.nodes⟩ := by
  let g : Reader := ⟨language, read language (d + 1)⟩
  have next : s.word? = some "const" := word?_at here (by decide) (ends_cons rfl _)
  let a : State := ⟨p.past (u ++ "const".toList) (' ' :: (w ++ ' ' :: '=' :: ' ' :: r)), []⟩
  have behind : a.peek = p.past (u ++ "const ".toList) (w ++ ' ' :: '=' :: ' ' :: r) := by
    rw [peek_space (named.starts _), List.append_assoc]
    rfl
  have opened : keyword "const" s.enter = some a :=
    keyword_at (s := s.enter) (k := "const") here (by decide) (ends_cons rfl _)
  have listed : keyword "enum" a = none :=
    keyword_other named (ends_cons rfl _) (by rw [behind]; rfl) other
  have plain : g.typed g.enumDeclaration s = none := by
    have unread : g.enumDeclaration s = none := by
      refine Option.map_eq_none_iff.mpr ?_
      refine bind_some (a := a) ?_ ?_
      · rw [maybe, opened]
        rfl
      · rw [listed]
        rfl
    rw [Reader.typed, unread]
    exact ite_self _
  have declarators : read language (d + 1) .declarators a =
      some ⟨p.past v (';' :: r'), (constTree p u v w c.reverse).children⟩ := by
    rw [constTree, Tree.children, declaratorTree, ← List.reverse_concat]
    refine bind_some (declarator_at named behind filled head given value) ?_
    rw [sees_other (y := ',')
      (peek_head (peek_past (starts_of_head rfl rfl (by decide))) (x := ';') rfl) rfl (by decide)]
    rfl
  have declares : g.variableDeclaration "lexical_declaration" s =
      some ⟨p.past (v ++ [';']) r', constTree p u v w c.reverse :: s.nodes⟩ := by
    refine node_at (c := (constTree p u v w c.reverse).children) here ?_
    refine bind_some (word_at (s := s.enter) here (by decide) (ends_cons rfl _)) ?_
    refine bind_some declarators ?_
    exact semicolon_at (peek_past (starts_of_head rfl rfl (by decide)))
  change g.declaration s = _
  rw [Reader.declaration, next]
  exact (orElse_right plain).trans declares

end

/-! ### Imports and exports -/

section
variable {language : Language} {d : Nat} {g : Reader} {p : Cursor} {s t : State} {u v w r : List Char}
  {nodes : List Tree} {x q : Char}

def sourced (p : Cursor) (u w : List Char) (q : Char) (r : List Char) (nodes : List Tree) : State :=
  ⟨p.past (u ++ (q :: w ++ [q])) r,
    (leaf "string" p u (q :: w ++ [q])).inField "source" :: nodes⟩

theorem quote_starts (quote : isQuote q = true) (r : List Char) : Starts (q :: r) := by
  rcases quote_cases quote with rfl | rfl
  · exact starts_of_head rfl rfl (by decide)
  · exact starts_of_head rfl rfl (by decide)

theorem sourceString_at (quote : isQuote q = true) (valid : ∀ x ∈ w, isSpecifierChar x = true)
    (here : s.peek = p.past u (q :: w ++ q :: r)) :
    sourceString s = some (sourced p u w q r s.nodes) :=
  inField_at (stringLexeme_at (s := s.enter) quote valid here)

theorem fromClause_at (quote : isQuote q = true) (valid : ∀ x ∈ w, isSpecifierChar x = true)
    (here : s.peek = p.past u ("from".toList ++ ' ' :: (q :: w ++ q :: r))) :
    fromClause s = some (sourced p (u ++ "from".toList ++ [' ']) w q r s.nodes) := by
  rw [fromClause, andThen, keyword_at here (by decide) (ends_cons rfl _)]
  exact sourceString_at quote valid (peek_space (quote_starts quote _))

theorem importAttributes_none (here : s.peek = p.past u (';' :: r)) :
    g.importAttributes s = some s := by
  refine maybe_none ?_
  simp only [orElse, keyword_none (peek_head here rfl) rfl]
  rfl

/-- A semicolon right behind the specifier ends an import. -/
theorem import_end : (g.importAttributes (sourced p u w q (';' :: r) nodes) >>= semicolon) =
    some ⟨p.past (u ++ (q :: w ++ [q]) ++ [';']) r, (sourced p u w q (';' :: r) nodes).nodes⟩ := by
  have last : State.peek (sourced p u w q (';' :: r) nodes) =
      p.past (u ++ (q :: w ++ [q])) (';' :: r) :=
    peek_past (starts_of_head rfl rfl (by decide))
  exact bind_some (importAttributes_none last) (semicolon_at last)

theorem importFrom_bare (quote : isQuote q = true) (valid : ∀ x ∈ w, isSpecifierChar x = true)
    (here : s.peek = p.past u (q :: w ++ q :: ';' :: r)) :
    g.importFrom s = some ⟨p.past (u ++ (q :: w ++ [q]) ++ [';']) r,
      (sourced p u w q (';' :: r) s.nodes).nodes⟩ := by
  have quoted : (string? s.peek).isSome = true := by
    rw [here, string?_at quote valid rfl]
    rfl
  rw [Reader.importFrom, quoted]
  exact bind_some (sourceString_at quote valid here) import_end

theorem importFrom_clause (quote : isQuote q = true) (valid : ∀ x ∈ w, isSpecifierChar x = true)
    (unquoted : string? s.peek = none)
    (clause : g.importClause s =
      some ⟨p.past u (' ' :: ("from".toList ++ ' ' :: (q :: w ++ q :: ';' :: r))), nodes⟩) :
    g.importFrom s = some ⟨p.past (u ++ [' '] ++ "from".toList ++ [' '] ++ (q :: w ++ [q]) ++ [';']) r,
      (sourced p (u ++ [' '] ++ "from".toList ++ [' ']) w q (';' :: r) nodes).nodes⟩ := by
  rw [Reader.importFrom, unquoted]
  refine bind_some (a := sourced p (u ++ [' '] ++ "from".toList ++ [' ']) w q (';' :: r) nodes) ?_
    import_end
  rw [andThen, clause]
  exact fromClause_at quote valid (peek_space (starts_of_head rfl rfl (by decide)))

theorem importClause_plain (named : IsWord v) (here : s.peek = p.past u (v ++ ' ' :: r))
    (starts : Starts r) (head : r.head? = some x) (single : ',' ≠ x) :
    g.importClause s =
      some ⟨p.past (u ++ v) (' ' :: r), leaf "identifier" p u v :: s.nodes⟩ := by
  have star : s.sees "*" = false := named.sees_sign here rfl (by decide)
  have brace : s.sees "\x7b" = false := named.sees_sign here rfl (by decide)
  rw [Reader.importClause, star, brace]
  refine bind_some (identifier_at here named (ends_cons rfl _)) ?_
  have last : State.sees ⟨p.past (u ++ v) (' ' :: r), leaf "identifier" p u v :: s.nodes⟩ "," =
      false :=
    sees_other (y := ',') (peek_head (peek_space starts) head) rfl single
  rw [whenever, punct_none last]

theorem read_importSpecifiers (named : IsWord v) (here : s.peek = p.past u (v ++ ' ' :: '\x7d' :: r)) :
    read language (d + 1) .importSpecifiers s =
      some ⟨p.past (u ++ v ++ [' '] ++ ['\x7d']) r, leaf "identifier" p u v :: s.nodes⟩ := by
  let a : State := ⟨p.past (u ++ v) (' ' :: '\x7d' :: r), leaf "identifier" p u v :: s.nodes⟩
  have behind : a.peek = p.past (u ++ v ++ [' ']) ('\x7d' :: r) :=
    peek_space (starts_of_head rfl rfl (by decide))
  have brace : s.sees "\x7d" = false := named.sees_sign here rfl (by decide)
  have comma : a.sees "," = false := sees_other (y := ',') (peek_head behind rfl) rfl (by decide)
  have closed : a.sees "\x7d" = true := by rw [State.sees, behind]; rfl
  have specifier : closedSpecifier importSpecifier s = some a := by
    refine bind_some (a := a) ?_ ?_
    · refine bind_some (orElse_left (identifier_at here named (ends_cons rfl _))) ?_
      rw [whenever, keyword_none (peek_head behind rfl) rfl]
    · rw [comma, closed]
      rfl
  change Reader.importSpecifiers _ s = _
  rw [Reader.importSpecifiers, brace]
  refine bind_some (orElse_left specifier) ?_
  rw [comma]
  exact sign_at behind rfl

theorem importClause_braced (named : IsWord v)
    (here : s.peek = p.past u ('\x7b' :: ' ' :: (v ++ ' ' :: '\x7d' :: r))) :
    Reader.importClause ⟨language, read language (d + 1)⟩ s =
      some ⟨p.past (u ++ ['\x7b'] ++ [' '] ++ v ++ [' '] ++ ['\x7d']) r,
        leaf "identifier" p (u ++ ['\x7b'] ++ [' ']) v :: s.nodes⟩ := by
  have star : s.sees "*" = false := sees_other (y := '*') (peek_head here rfl) rfl (by decide)
  have brace : s.sees "\x7b" = true := by rw [State.sees, here]; rfl
  rw [Reader.importClause, star, brace]
  change (andThen (punct "\x7b") (read language (d + 1) .importSpecifiers)) s = _
  rw [andThen, sign_at here rfl]
  exact read_importSpecifiers named (peek_space (named.starts _))

theorem read_statement {k : String} (next : s.word? = some k) :
    read language (d + 1) .statement s = Reader.statementWord ⟨language, read language d⟩ k s := by
  change Reader.statement _ s = _
  rw [Reader.statement, next]

/-- `import` and a blank start an import. -/
theorem read_import {v r' : List Char} {ns : List Tree}
    (here : s.peek = p.past u ("import".toList ++ ' ' :: r)) (starts : Starts r)
    (head : r.head? = some x) (call : '(' ≠ x) (dot : '.' ≠ x)
    (body : Reader.importFrom ⟨language, read language d⟩
      ⟨p.past (u ++ "import".toList) (' ' :: r), []⟩ = some ⟨p.past v r', ns⟩) :
    read language (d + 1) .statement s = some ⟨p.past v r', .node
      { kind := "import_statement", start := p.pos + byteLength u, stop := p.pos + byteLength v }
        ns.reverse :: s.nodes⟩ := by
  let a : State := ⟨p.past (u ++ "import".toList) (' ' :: r), s.nodes⟩
  have behind : a.peek = p.past (u ++ "import".toList ++ [' ']) r := peek_space starts
  have next : s.word? = some "import" := word?_at here (by decide) (ends_cons rfl _)
  have opened : keyword "import" s = some a := keyword_at here (by decide) (ends_cons rfl _)
  have paren : a.sees "(" = false := sees_other (y := '(') (peek_head behind head) rfl call
  have member : a.sees "." = false := sees_other (y := '.') (peek_head behind head) rfl dot
  rw [read_statement next, Reader.statementWord]
  refine bind_some opened ?_
  rw [paren, member]
  change Reader.importStatement _ s = _
  unfold Reader.importStatement
  refine node_at here ?_
  exact bind_some (keyword_at (s := s.enter) here (by decide) (ends_cons rfl _))
    (orElse_left (orElse_left body))

theorem lineEnds_space (starts : Starts r) : State.lineEnds ⟨p.past u (' ' :: r), nodes⟩ = false := by
  have blank : (p.past u (' ' :: r)).upTo ((p.past u (' ' :: r)).past [' '] r) = [' '] := word_text rfl
  have next : skipTrivia (p.past u (' ' :: r)) = (p.past u (' ' :: r)).past [' '] r :=
    skipTrivia_space rfl rfl starts
  rw [State.lineEnds, lineEnds, next, blank]
  rfl

theorem endsAtExport_space (starts : Starts r) (head : r.head? = some x) (brace : '\x7d' ≠ x) :
    endsAtExport ⟨p.past u (' ' :: r), nodes⟩ = false := by
  have here : State.peek ⟨p.past u (' ' :: r), nodes⟩ = p.past (u ++ [' ']) r := peek_space starts
  have seen : State.sees ⟨p.past u (' ' :: r), nodes⟩ "\x7d" = false :=
    sees_other (y := '\x7d') (peek_head here head) rfl brace
  obtain ⟨tail, rfl⟩ := List.head?_eq_some_iff.mp head
  rw [endsAtExport, State.atEnd, here, seen, lineEnds_space starts]
  rfl

/-- `export` and a blank before what is exported. -/
theorem read_export {v r' : List Char} {ns : List Tree}
    (here : s.peek = p.past u ("export".toList ++ ' ' :: r)) (starts : Starts r)
    (head : r.head? = some x) (brace : '\x7d' ≠ x)
    (body : Reader.exportBody ⟨language, read language d⟩
      ⟨p.past (u ++ "export".toList) (' ' :: r), []⟩ = some ⟨p.past v r', ns⟩) :
    read language (d + 1) .statement s = some ⟨p.past v r', .node
      { kind := "export_statement", start := p.pos + byteLength u, stop := p.pos + byteLength v }
        ns.reverse :: s.nodes⟩ := by
  have next : s.word? = some "export" := word?_at here (by decide) (ends_cons rfl _)
  rw [read_statement next, Reader.statementWord]
  unfold Reader.exportStatement
  refine node_at here ?_
  refine bind_some (keyword_at (s := s.enter) here (by decide) (ends_cons rfl _)) ?_
  rw [State.enter, endsAtExport_space starts head brace]
  exact body

def starTree (p : Cursor) (u : List Char) : Tree :=
  .node { kind := "*", start := p.pos + byteLength u, stop := p.pos + byteLength (u ++ ['*'])
          isNamed := false } []

theorem exportBody_star (quote : isQuote q = true) (valid : ∀ x ∈ w, isSpecifierChar x = true)
    (here : s.peek = p.past u ('*' :: ' ' :: ("from".toList ++ ' ' :: (q :: w ++ q :: ';' :: r)))) :
    g.exportBody s =
      some ⟨p.past (u ++ ['*'] ++ [' '] ++ "from".toList ++ [' '] ++ (q :: w ++ [q]) ++ [';']) r,
        (sourced p (u ++ ['*'] ++ [' '] ++ "from".toList ++ [' ']) w q (';' :: r)
          (starTree p u :: s.nodes)).nodes⟩ := by
  let more := "from".toList ++ ' ' :: (q :: w ++ q :: ';' :: r)
  let a : State := ⟨p.past (u ++ ['*']) (' ' :: more), s.nodes⟩
  let b := sourced p (u ++ ['*'] ++ [' '] ++ "from".toList ++ [' ']) w q (';' :: r)
    (starTree p u :: s.nodes)
  have starred {nodes : List Tree} :
      State.peek ⟨p.past (u ++ ['*']) (' ' :: more), nodes⟩ = p.past (u ++ ['*'] ++ [' ']) more :=
    peek_space (starts_of_head rfl rfl (by decide))
  have last : b.peek =
      p.past (u ++ ['*'] ++ [' '] ++ "from".toList ++ [' '] ++ (q :: w ++ [q])) (';' :: r) :=
    peek_past (starts_of_head rfl rfl (by decide))
  have unnamed : namespaceExport s = none := by
    refine Option.map_eq_none_iff.mpr (bind_some (sign_at (s := s.enter) here rfl) ?_)
    rw [keyword_other (k := "as") (w := "from".toList) (by decide) (ends_cons rfl _)
      (by rw [starred]; rfl) (by decide)]
    rfl
  have attributes : b.seesWord "with" = false := by
    rw [State.seesWord, word?_none (peek_head last rfl) rfl]
    rfl
  have star : exportStar s = some b := by
    have sign : token "*" (punct "*") s = some (a.add (starTree p u)) := by
      rw [token, sign_at here rfl, here]
      rfl
    rw [exportStar, andThen, orElse_right unnamed, sign]
    exact fromClause_at (s := a.add (starTree p u)) quote valid starred
  rw [Reader.exportBody, next?, peek_head here rfl]
  change (exportStar s).bind g.exportFromEnd = _
  rw [star]
  change g.exportFromEnd b = _
  rw [Reader.exportFromEnd, attributes]
  exact semicolon_at last

theorem exportBody_const (here : s.peek = p.past u ("const".toList ++ ' ' :: r)) :
    g.exportBody s = g.exportedDeclaration s := by
  rw [Reader.exportBody, next?, peek_head (x := 'c') here rfl,
    word?_at (k := "const") here (by decide) (ends_cons rfl _)]
  rfl

end

end Relocation.Grammar
