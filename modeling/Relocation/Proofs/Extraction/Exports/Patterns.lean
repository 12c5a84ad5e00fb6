import Relocation.Proofs.Extraction.Exports.Lines
import Relocation.Proofs.Text.Quoting

/-!
# What each pattern finds in an export program

One pattern finds something on a line, and that is its name, its clause or its star. Behind
`default` the identifier may be taken for a keyword and a name (`strayName?`).
-/

namespace Relocation

open Text Text.Pattern Text.Cursor Lexical

/-! ### Behind the word -/

section
variable {b : Pattern} {w line : List Char} {x : Char}

theorem yields_blank : Yields (exportOf b) [] [] := by
  refine yields_nothing (by simp) fun {c more} _ next ends => misses_of_opens rfl fun x head => ?_
  rw [next] at head
  rw [ends x head]
  rfl

theorem yields_none (single : '\n' ∉ "export ".toList ++ line) (first : line.head? = some x)
    (filled : isBlank x = false) (misses : ∀ {d : Cursor} {more : List Char}, d.rest = line ++
      more → b.Misses d) :
    Yields (exportOf b) ("export ".toList ++ line) [] := by
  refine yields_nothing single fun {c more} start next _ => ?_
  rw [List.append_assoc] at next
  have behind :=
    hits_exportOf (b := b) start next (by rw [List.head?_append, first]; simpa using filled)
  exact behind.trans (misses rfl)

theorem yields_other (single : '\n' ∉ "export ".toList ++ line) (first : line.head? = some x)
    (filled : isBlank x = false) (proper : b.nullable = false) (closed : b.opens x = false) :
    Yields (exportOf b) ("export ".toList ++ line) [] :=
  yields_none single first filled fun {d more} next =>
    misses_first (x := x) (by rw [next, List.head?_append, first]; rfl) proper closed

theorem yields_export {texts : List (List Char)} (single : '\n' ∉ "export ".toList ++ (w ++ line))
    (first : w.head? = some x) (filled : isBlank x = false)
    (taken : ∀ {d : Cursor} {more : List Char}, d.rest = w ++ (line ++ more) →
      ∃ groups, b.Takes d ⟨d.past w (line ++ more), groups⟩ ∧ groups.map Piece.text = texts) :
    Yields (exportOf b) ("export ".toList ++ (w ++ line)) [texts] := by
  rw [← List.append_assoc] at single ⊢
  refine yields_one single (by simp) fun {c more} start next => ?_
  rw [List.append_assoc] at next
  obtain ⟨groups, hit, same⟩ := taken (d := c.past "export ".toList (w ++ (line ++ more))) rfl
  rw [past_past] at hit
  refine ⟨groups, ?_, same⟩
  have behind :=
    hits_exportOf (b := b) start next (by rw [List.head?_append, first]; simpa using filled)
  rw [Takes]
  exact (congrArg List.head? behind).trans hit

end

/-! ### Declarations -/

def functions : Pattern := seq (lit "function") (seq space (opt (lit "*")))

def declarators : Pattern :=
  any [lit "const", lit "let", lit "var", functions, all [lit "abstract", space1, lit "class"],
    lit "class", lit "interface", lit "type", lit "enum", lit "namespace"]

theorem exportDeclaration_eq : exportDeclaration =
    exportOf (seq (opt (seq (lit "declare") space1)) (seq (opt (seq (lit "async") space1))
      (seq declarators named))) := rfl

section
variable {c : Cursor} {x : String} {r : List Char} (valid : IsIdentifier x)
    (ends : ∀ y ∈ r.head?, isIdentPart y = false)
include valid ends

/-- The blank behind `function` is given back to the name. -/
theorem takes_function (next : c.rest = "function".toList ++ ' ' :: (x.toList ++ r)) :
    (seq functions named).Takes c
    ⟨c.past ("function ".toList ++ x.toList) r,
      [⟨c.past "function ".toList (x.toList ++ r), c.past ("function ".toList ++ x.toList) r⟩]⟩ := by
  have run : hits space (c.past "function".toList (' ' :: (x.toList ++ r))) = _ :=
    hits_greedy_one rfl rfl fun y same => isBlank_of_start (valid.first r y same)
  have late : hits (seq (opt (lit "*")) named) (c.past "function ".toList (x.toList ++ r)) = [] := by
    obtain ⟨first, others, shape, begins, _⟩ := valid.split
    have unstarred : ('*' == first) = false := by
      refine beq_eq_false_iff_ne.mpr ?_
      rintro rfl
      cases begins
    rw [hits_seq_opt (misses_first (x := first) (by simp [shape]) rfl
      (by simpa [lit, opens] using unstarred))]
    exact misses_first (x := first) (by simp [shape]) rfl
      (by simp [named, space1, greedy1, opens, nullable, isBlank_of_start begins])
  have back : hits (seq (opt (lit "*")) named) (c.past "function".toList (' ' :: (x.toList ++ r))) =
      hits named _ :=
    hits_seq_opt (misses_first (x := ' ') rfl rfl rfl)
  have name := takes_named (c := c.past "function".toList (' ' :: (x.toList ++ r))) valid ends rfl
  rw [Takes, functions, hits_seq_assoc, lit, hits_seq_of_sole (hits_word next), hits_seq_assoc,
    hits_seq_of_pair run, past_past]
  rw [show "function".toList ++ [' '] = "function ".toList from rfl, late, List.nil_append, back]
  simpa [Takes] using name

/-- Each keyword is found behind those that come before it in the pattern. -/
theorem takes_declarator (kind : Declarator)
    (next : c.rest = kind.word.toList ++ ' ' :: (x.toList ++ r)) :
    (seq declarators named).Takes c ⟨c.past (kind.word.toList ++ ' ' :: x.toList) r,
      [⟨c.past (kind.word.toList ++ [' ']) (x.toList ++ r),
        c.past (kind.word.toList ++ ' ' :: x.toList) r⟩]⟩ := by
  have name := takes_named (c := c.past kind.word.toList (' ' :: (x.toList ++ r))) valid ends rfl
  rw [past_past, past_past] at name
  cases kind with
  | const => exact takes_seq (takes_alt_left (takes_word next)) name
  | function =>
    have first : c.rest.head? = some 'f' := by rw [next]; rfl
    refine takes_seq_alt_right (misses_first first rfl rfl)
      (takes_seq_alt_right (misses_first first rfl rfl) ?_)
    refine takes_seq_alt_right (misses_first first rfl rfl) ?_
    exact takes_seq_alt_left (takes_function valid ends next)
  | classes =>
    have first : c.rest.head? = some 'c' := by rw [next]; rfl
    refine takes_seq_alt_right (misses_lit (by rw [next]; simp [Declarator.word])) ?_
    refine takes_seq_alt_right (misses_first first rfl rfl)
      (takes_seq_alt_right (misses_first first rfl rfl) ?_)
    refine takes_seq_alt_right (misses_first first rfl rfl)
      (takes_seq_alt_right (misses_first first rfl rfl) ?_)
    exact takes_seq (takes_alt_left (takes_word next)) name

theorem takes_declaration (kind : Declarator)
    (next : c.rest = kind.word.toList ++ ' ' :: (x.toList ++ r)) :
    (seq (opt (seq (lit "declare") space1)) (seq (opt (seq (lit "async") space1))
      (seq declarators named))).Takes c ⟨c.past (kind.word.toList ++ ' ' :: x.toList) r,
        [⟨c.past (kind.word.toList ++ [' ']) (x.toList ++ r),
          c.past (kind.word.toList ++ ' ' :: x.toList) r⟩]⟩ := by
  have unmodified {k : String} (other : ¬ k.toList <+: kind.word.toList ++ ' ' :: (x.toList ++ r)) :
      (seq (lit k) space1).Misses c := misses_seq (misses_lit (by rw [next]; exact other))
  rw [Takes, hits_seq_opt (unmodified (by cases kind <;> simp [Declarator.word])),
    hits_seq_opt (unmodified (by cases kind <;> simp [Declarator.word]))]
  exact takes_declarator valid ends kind next

end

theorem ExportLine.between_free {items : List ClauseItem} (valid : ∀ i ∈ items, i.Valid) {x : Char}
    (part : isIdentPart x = false) (fixed : x ∉ " as,".toList) : x ∉ between items := by
  have apart : x ≠ ' ' ∧ x ≠ ',' ∧ x ∉ " as ".toList := by
    simp only [String.reduceToList, List.mem_cons, List.not_mem_nil, or_false, not_or] at fixed ⊢
    exact ⟨fixed.1, fixed.2.2.2, fixed.1, fixed.2.1, fixed.2.2.1, fixed.1⟩
  induction items with
  | nil => simp [between, apart]
  | cons i rest ih =>
    have first := (valid i List.mem_cons_self).free part apart.2.2
    have others := ih fun i member => valid i (List.mem_cons_of_mem _ member)
    cases rest with
    | nil => simp [between, first, apart]
    | cons i' rest =>
      rw [between_cons_cons]
      simp [first, others, apart]

theorem ExportLine.Valid.single {l : ExportLine} (valid : l.Valid) : '\n' ∉ l.body := by
  cases l with
  | blank => simp
  | declares kind x =>
    have name : '\n' ∉ x.toList := IsIdentifier.free valid rfl
    cases kind <;> simp [Declarator.word, Declarator.closing, name]
  | byDefault x =>
    have name : '\n' ∉ x.toList := IsIdentifier.free valid rfl
    simp [name]
  | clause items =>
    have inner : '\n' ∉ between items := between_free valid rfl (by decide)
    simp [inner]
  | star s =>
    have inner : '\n' ∉ s.toList := valid
    simp [inner]
  | starAs n s =>
    have name : '\n' ∉ n.toList := valid.1.free rfl
    simp [name, valid.2.2]

/-- The first character behind `export`. -/
def ExportLine.opening? : ExportLine → Option Char
  | .blank => none
  | .declares kind _ => kind.word.toList.head?
  | .byDefault _ => 'd'
  | .clause _ => '\x7b'
  | .star _ | .starAs _ _ => '*'

theorem yields_unless {b : Pattern} {l : ExportLine} (valid : l.Valid) (proper : b.nullable = false)
    (closed : l.opening?.any (fun x => b.opens x) = false) : Yields (exportOf b) l.body [] := by
  have single := valid.single
  cases l with
  | blank => exact yields_blank
  | declares kind x =>
    cases kind with
    | const | classes => exact yields_other single (x := 'c') rfl rfl proper closed
    | function => exact yields_other single (x := 'f') rfl rfl proper closed
  | byDefault x => exact yields_other single (x := 'd') rfl rfl proper closed
  | clause items => exact yields_other single (x := '\x7b') rfl rfl proper closed
  | star s | starAs n s => exact yields_other single (x := '*') rfl rfl proper closed

def ExportLine.declared : ExportLine → List (List (List Char))
  | .declares _ x => [[x.toList]]
  | _ => []

theorem exportDeclaration_yields {l : ExportLine} (valid : l.Valid) :
    exportDeclaration.Yields l.body l.declared := by
  rw [exportDeclaration_eq]
  have single := valid.single
  cases l with
  | declares kind x =>
    obtain ⟨first, head, filled⟩ :
        ∃ first, (kind.word.toList ++ ' ' :: x.toList).head? = some first ∧ isBlank first = false := by
      cases kind
      · exact ⟨'c', rfl, rfl⟩
      · exact ⟨'f', rfl, rfl⟩
      · exact ⟨'c', rfl, rfl⟩
    refine yields_export single head filled fun {d more} next => ?_
    have name := past_text d (kind.word.toList ++ [' ']) x.toList (kind.closing.toList ++ more)
    refine ⟨_, takes_declaration valid ?_ kind (by simpa using next), by simpa using name⟩
    cases kind <;> simp [Declarator.closing] <;> rfl
  | byDefault x =>
    refine yields_none single (x := 'd') rfl rfl fun {d more} next => ?_
    have first : d.rest.head? = some 'd' := by rw [next]; rfl
    rw [Misses, hits_seq_opt (misses_seq (misses_lit (by rw [next]; simp))),
      hits_seq_opt (misses_first first rfl rfl)]
    exact misses_first first rfl rfl
  | blank | clause items | star s | starAs n s => exact yields_unless valid rfl rfl

/-! ### Defaults -/

def defaultName : Pattern :=
  seq space1 (seq (opt (seq (lit "async") space1)) (seq (alt functions (lit "class"))
    (seq space (group ident))))

theorem exportDefault_eq :
    exportDefault = exportOf (seq (lit "default") (seq edge (opt defaultName))) := rfl

/-- The identifier behind a keyword that an identifier starts with. -/
def strayName? (x : String) : Option String :=
  ((dropLead? "function".toList x.toList).or (dropLead? "class".toList x.toList)).bind fun y =>
    if IsIdentifier (String.ofList y) then some (String.ofList y) else none

theorem strayName?_eq_some {x y : String} :
    strayName? x = some y ↔ IsIdentifier y ∧ (x = "function" ++ y ∨ x = "class" ++ y) := by
  have whole {k : String} {t : List Char} : dropLead? k.toList x.toList = some t ↔
      x = k ++ String.ofList t := by
    rw [dropLead?_eq_some, ← String.toList_inj, String.toList_append, String.toList_ofList]
  rw [strayName?, Option.bind_eq_some_iff]
  constructor
  · rintro ⟨t, found, kept⟩
    split at kept
    · cases kept
      rename_i valid
      refine ⟨valid, ?_⟩
      rcases Option.or_eq_some_iff.mp found with early | ⟨_, late⟩
      · exact Or.inl (whole.mp early)
      · exact Or.inr (whole.mp late)
    · cases kept
  · rintro ⟨valid, starts⟩
    refine ⟨y.toList, ?_, by rw [String.ofList_toList, if_pos valid]⟩
    rcases starts with rfl | rfl
    · rw [dropLead?_eq_some.mpr (String.toList_append ..)]
      rfl
    · have other : dropLead? "function".toList ("class" ++ y).toList = none := by
        rw [String.toList_append]
        rfl
      rw [other, dropLead?_eq_some.mpr (String.toList_append ..)]
      rfl

section
variable {c : Cursor} {y r : List Char} (parts : ∀ z ∈ y, isIdentPart z = true)
include parts

/-- Neither a blank nor a star stands before the end of a name. -/
theorem name_head {p : Char → Bool} (none : ∀ z, isIdentPart z = true → p z = false)
    (ends : p ';' = false) : ∀ z ∈ (y ++ ';' :: r).head?, p z = false := by
  cases y with
  | nil =>
    intro z same
    cases same
    exact ends
  | cons first others =>
    intro z same
    cases same
    exact none _ (parts _ List.mem_cons_self)

theorem hits_unspaced (next : c.rest = y ++ ';' :: r) {b : Pattern} :
    hits (seq space b) c = hits b c := by
  refine hits_seq_of_sole (hits_greedy_none ?_)
  rw [next]
  exact name_head parts (fun _ => isBlank_of_part) rfl

theorem hits_class (next : c.rest = "class".toList ++ (y ++ ';' :: r)) :
    hits (seq (lit "class") (seq space (group ident))) c =
      hits (group ident) (c.past "class".toList (y ++ ';' :: r)) := by
  rw [lit, hits_seq_of_sole (hits_word next), hits_unspaced parts rfl]

theorem hits_function (next : c.rest = "function".toList ++ (y ++ ';' :: r)) :
    hits (seq functions (seq space (group ident))) c =
      hits (group ident) (c.past "function".toList (y ++ ';' :: r)) := by
  have unstarred : (lit "*").Misses (c.past "function".toList (y ++ ';' :: r)) := by
    refine misses_of_opens rfl (name_head parts (fun z part => ?_) rfl)
    change (some '*' == some z) = false
    rw [beq_eq_false_iff_ne]
    rintro ⟨⟩
    cases part
  rw [functions, hits_seq_assoc, lit, hits_seq_of_sole (hits_word next), hits_seq_assoc,
    hits_unspaced parts rfl, hits_seq_opt unstarred, hits_unspaced parts rfl]

theorem misses_ident (other : ¬ IsIdentifier (String.ofList y)) (next : c.rest = y ++ ';' :: r) :
    (group ident).Misses c := by
  refine misses_of_opens rfl ?_
  rw [next]
  change ∀ z ∈ (y ++ ';' :: r).head?, (isIdentStart z || false && isIdentPart z) = false
  cases y with
  | nil =>
    intro z same
    cases same
    rfl
  | cons first others =>
    intro z same
    cases same
    rw [Bool.false_and, Bool.or_false]
    refine Bool.eq_false_iff.mpr fun begins => other ⟨⟨first, ?_, begins⟩, ?_⟩
    · rw [String.toList_ofList]
      rfl
    · rw [String.toList_ofList]
      exact parts

end

section
variable {c : Cursor} {x y : String} {r : List Char} (valid : IsIdentifier x)
include valid

/-- Unless it is followed by an identifier, a keyword at the start of a name is not taken for one. -/
theorem misses_keyword {b : Pattern} {k : String} (next : c.rest = x.toList ++ ';' :: r)
    (free : ';' ∉ k.toList) (reads : ∀ y, (∀ z ∈ y, isIdentPart z = true) →
      c.rest = k.toList ++ (y ++ ';' :: r) →
      hits (seq b (seq space (group ident))) c = hits (group ident) (c.past k.toList (y ++ ';' :: r)))
    (needs : (lit k).Misses c → b.Misses c) (none : ∀ y, IsIdentifier y → x ≠ k ++ y) :
    (seq b (seq space (group ident))).Misses c := by
  by_cases starts : k.toList <+: x.toList
  · obtain ⟨y, split⟩ := starts
    have parts : ∀ z ∈ y, isIdentPart z = true := fun z member =>
      valid.2 z (by rw [← split]; exact List.mem_append_right _ member)
    have other : ¬ IsIdentifier (String.ofList y) := fun named => none _ named (by
      rw [← String.toList_inj, String.toList_append, String.toList_ofList, split])
    rw [Misses, reads y parts (by rw [next, ← split, List.append_assoc])]
    exact misses_ident parts other rfl
  · refine misses_seq (needs (misses_lit ?_))
    rw [next]
    exact fun longer => starts (prefix_before free longer)

/-- Behind `default` and a blank, what counts is a keyword. -/
theorem hits_defaultName (next : c.rest = ' ' :: (x.toList ++ ';' :: r)) : hits defaultName c =
    hits (seq (alt functions (lit "class")) (seq space (group ident)))
      (c.past [' '] (x.toList ++ ';' :: r)) := by
  have filled : ∀ z ∈ (x.toList ++ ';' :: r).head?, isBlank z = false := fun z same =>
    isBlank_of_start (valid.first _ z same)
  have plain : (seq (lit "async") space1).Misses (c.past [' '] (x.toList ++ ';' :: r)) := by
    refine misses_of_accepts fun w t same taken => ?_
    obtain ⟨_, _, rfl, rfl, _, v, rfl, ⟨z, rfl, blank⟩, _⟩ := taken
    -- The first character that is no part of a name is the semicolon.
    have cut := split_unique (p := fun z => !isIdentPart z) (a := x.toList) (b := "async".toList)
      (x := ';') (y := z) (v := r) (w := v ++ t) (fun z member => by rw [valid.2 z member]; rfl)
        (by decide) rfl
      (by rw [isIdentPart_of_blank blank]; rfl) (by simpa using same)
    rw [← cut.2.1] at blank
    cases blank
  rw [defaultName, hits_seq_of_sole (hits_space1 next filled), hits_seq_opt plain]

theorem misses_defaultName (none : strayName? x = none)
    (next : c.rest = ' ' :: (x.toList ++ ';' :: r)) : defaultName.Misses c := by
  have plain {k : String} (keyword : k = "function" ∨ k = "class") (y : String)
      (named : IsIdentifier y) : x ≠ k ++ y := by
    rintro rfl
    have stray : strayName? (k ++ y) = some y :=
      strayName?_eq_some.mpr ⟨named, keyword.imp (congrArg (· ++ y)) (congrArg (· ++ y))⟩
    rw [stray] at none
    cases none
  have functions' :=
    misses_keyword (b := functions) (c := c.past [' '] (x.toList ++ ';' :: r)) valid rfl
    (by decide) (fun y parts => hits_function parts) misses_seq (plain (Or.inl rfl))
  have classes :=
    misses_keyword (b := lit "class") (c := c.past [' '] (x.toList ++ ';' :: r)) valid rfl
    (by decide) (fun y parts => hits_class parts) id (plain (Or.inr rfl))
  rw [Misses, hits_defaultName valid next, hits_seq_alt]
  exact List.append_eq_nil_iff.mpr ⟨functions', classes⟩

theorem takes_defaultName (stray : strayName? x = some y)
    (next : c.rest = ' ' :: (x.toList ++ ';' :: r)) :
    ∃ groups, defaultName.Takes c ⟨c.past (' ' :: x.toList) (';' :: r), groups⟩ ∧
    groups.map Piece.text = [y.toList] := by
  obtain ⟨named, starts⟩ := strayName?_eq_some.mp stray
  obtain ⟨k, rfl, taken⟩ : ∃ k, x = k ++ y ∧
      (seq (alt functions (lit "class")) (seq space (group ident))).Takes
      (c.past [' '] (k.toList ++ (y.toList ++ ';' :: r))) ⟨c.past (' ' :: k.toList ++ y.toList)
        (';' :: r), [⟨c.past (' ' :: k.toList) (y.toList ++ ';' :: r), c.past
          (' ' :: k.toList ++ y.toList) (';' :: r)⟩]⟩ := by
    have name (w : List Char) :=
      takes_group (takes_ident (c := c.past (' ' :: w) (y.toList ++ ';' :: r)) (r := ';' :: r)
      named rfl (fun z same => by cases same; rfl))
    simp only [past_past] at name
    rcases starts with rfl | rfl
    · have behind := hits_function (c := c.past [' '] ("function".toList ++ (y.toList ++ ';' :: r)))
        named.2 rfl
      rw [past_past] at behind
      exact ⟨"function", rfl, takes_seq_alt_left ((congrArg List.head? behind).trans (name _))⟩
    · have behind := hits_class (c := c.past [' '] ("class".toList ++ (y.toList ++ ';' :: r)))
        named.2 rfl
      rw [past_past] at behind
      exact ⟨"class", rfl, takes_seq_alt_right (misses_first (x := 'c') rfl rfl rfl)
        ((congrArg List.head? behind).trans (name _))⟩
  have hits := hits_defaultName valid next
  rw [String.toList_append, List.append_assoc] at hits
  have text := past_text c (' ' :: k.toList) y.toList (';' :: r)
  rw [String.toList_append]
  exact ⟨_, (congrArg List.head? hits).trans taken, congrArg (fun w => [w]) text⟩

end

def ExportLine.defaulted : ExportLine → List (List (List Char))
  | .byDefault x => [(strayName? x).toList.map String.toList]
  | _ => []

theorem exportDefault_yields {l : ExportLine} (valid : l.Valid) :
    exportDefault.Yields l.body l.defaulted := by
  rw [exportDefault_eq]
  have single := valid.single
  cases l with
  | blank | clause items | star s | starAs n s => exact yields_unless valid rfl rfl
  | declares kind x => exact yields_unless valid rfl (by cases kind <;> rfl)
  | byDefault x =>
    have opening {d : Cursor} {t : List Char} :
        edge.Takes (d.past "default".toList (' ' :: t)) ⟨_, []⟩ :=
      takes_edge (atEdge_of (past_prev (x := 't') rfl) (y := ' ') rfl rfl)
    cases stray : strayName? x with
    | none =>
      rw [ExportLine.body_byDefault, ExportLine.defaulted, stray]
      refine yields_export single (x := 'd') rfl rfl fun {d more} next => ⟨[], ?_, rfl⟩
      have plain := misses_defaultName
        (c := d.past "default".toList (' ' :: (x.toList ++ ';' :: more))) valid stray rfl
      have taken := takes_seq (takes_word (r := ' ' :: (x.toList ++ ';' :: more)) (by simp [next]))
        (takes_seq opening (takes_alt_right plain (takes_empty _)))
      simpa [lit, opt] using taken
    | some y =>
      have whole : (ExportLine.byDefault x).body = "export ".toList ++
          (("default".toList ++ ' ' :: x.toList) ++ ";".toList) := by
        simp
      rw [whole] at single ⊢
      rw [ExportLine.defaulted, stray]
      refine yields_export single (x := 'd') rfl rfl fun {d more} next => ?_
      obtain ⟨groups, name, texts⟩ :=
        takes_defaultName (c := d.past "default".toList (' ' :: (x.toList ++ ';' :: more))) valid
        stray rfl
      have taken := takes_seq (takes_word (r := ' ' :: (x.toList ++ ';' :: more)) (by simp [next]))
        (takes_seq opening (takes_alt_left (b := .empty) name))
      exact ⟨groups, by simpa [lit, opt] using taken, texts⟩

/-! ### Clauses and stars -/

theorem exportClause_eq : exportClause = exportOf (seq (opt (seq (lit "type") space1))
    (seq (lit "\x7b") (seq (group (greedy (· != '\x7d'))) (lit "\x7d")))) := rfl

namespace ExportLine

def clauses : ExportLine → List (List (List Char))
  | .clause items => [[between items]]
  | _ => []

def stars : ExportLine → List (List (List Char))
  | .star _ => [[]]
  | .starAs n _ => [[n.toList]]
  | _ => []

end ExportLine

theorem exportClause_yields {l : ExportLine} (valid : l.Valid) :
    exportClause.Yields l.body l.clauses := by
  rw [exportClause_eq]
  have single := valid.single
  cases l with
  | blank | byDefault x | star s | starAs n s => exact yields_unless valid rfl rfl
  | declares kind x => exact yields_unless valid rfl (by cases kind <;> rfl)
  | clause items =>
    refine yields_export single (x := '\x7b') rfl rfl fun {d more} next => ?_
    have open' : '\x7d' ∉ ExportLine.between items := ExportLine.between_free valid rfl (by decide)
    have inner := takes_greedy
      (c := d.past "\x7b".toList (ExportLine.between items ++ ('\x7d' :: ';' :: more)))
      (q := (· != '\x7d')) rfl (fun x member => bne_iff_ne.mpr fun same => open'
        (by rwa [same] at member))
      (fun x same => by cases same; rfl)
    -- No `type` stands before the brace.
    have taken := takes_seq (takes_alt_right (a := seq (lit "type") space1) (c := d)
        (misses_first (x := '\x7b') (by rw [next]; rfl) rfl rfl) (takes_empty d))
      (takes_seq (takes_word (w := "\x7b".toList) (by simp [next])) (takes_seq (takes_group inner)
        (takes_word (w := "\x7d".toList) rfl)))
    have text := past_text d "\x7b".toList (ExportLine.between items) ('\x7d' :: ';' :: more)
    exact ⟨[_], by simpa [lit, opt] using taken, by simpa using text⟩

theorem takes_starName {c : Cursor} {n : String} {r : List Char} (valid : IsIdentifier n)
    (next : c.rest = "as".toList ++ ' ' :: (n.toList ++ ' ' :: ("from".toList ++ r))) :
    starName.Takes c ⟨c.past ("as ".toList ++ n.toList ++ " ".toList) ("from".toList ++ r),
      [⟨c.past "as ".toList (n.toList ++ ' ' :: ("from".toList ++ r)),
        c.past ("as ".toList ++ n.toList) (' ' :: ("from".toList ++ r))⟩]⟩ := by
  have taken := takes_seq (takes_word next) (takes_seq
    (takes_space1 rfl fun y same => isBlank_of_start (valid.first _ y same))
    (takes_seq (takes_group (takes_ident valid rfl (fun y same => by cases same; rfl)))
      (takes_space rfl (fun y same => by cases same; rfl))))
  simpa [starName, lit] using taken

theorem exportStar_yields {l : ExportLine} (valid : l.Valid) : exportStar.Yields l.body l.stars := by
  have single := valid.single
  cases l with
  | blank | byDefault x | clause items => exact yields_unless valid rfl rfl
  | declares kind x => exact yields_unless valid rfl (by cases kind <;> rfl)
  | star s =>
    refine yields_one (w := "export * from".toList) (v := " '".toList ++ s.toList ++ "';".toList)
      single (by simp) fun {c more} start next => ⟨[], ?_, rfl⟩
    exact takes_exportStar start next
  | starAs n s =>
    rw [exportStar_eq]
    refine yields_export single (x := '*') rfl rfl fun {d more} next => ?_
    have name := takes_starName (c := d.past "* ".toList _) (r := " '".toList ++ s.toList ++
      "';".toList ++ more) valid.1 rfl
    have taken := takes_seq (takes_alt_right (a := seq (lit "type") space1) (c := d)
        (misses_first (x := '*') (by rw [next]; rfl) rfl rfl) (takes_empty d))
      (takes_seq (takes_word (w := "*".toList) (by simp [next]))
        (takes_seq (takes_space rfl (fun y same => by cases same; rfl))
        (takes_seq (takes_alt_left (b := .empty) name) (takes_seq (takes_word rfl)
          (takes_edge (atEdge_of (past_prev (x := 'm') rfl) (y := ' ') rfl rfl))))))
    have text := past_text d "* as ".toList n.toList (" from '".toList ++ s.toList ++
      "';".toList ++ more)
    exact ⟨[_], by simpa [lit, opt] using taken, by simpa using text⟩

end Relocation
