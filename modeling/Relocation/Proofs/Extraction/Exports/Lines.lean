import Relocation.Proofs.Extraction.Patterns

/-!
# Export programs

Texts of one export a line, with the names that each line exports. What stands between the braces of
a clause is read name by name (`clauseNames_between`).
-/

namespace Relocation

open Text Text.Pattern Text.Cursor Lexical

/-! ### Lines -/

inductive Declarator where
  | const
  | function
  | classes
  deriving DecidableEq

namespace Declarator

def word : Declarator → String
  | .const => "const"
  | .function => "function"
  | .classes => "class"

def closing : Declarator → String
  | .const => " = 1;"
  | .function => "() \x7b\x7d"
  | .classes => " \x7b\x7d"

end Declarator

inductive ClauseItem where
  /-- `A` -/
  | plain (name : String)
  /-- `B as C` -/
  | renamed (name exported : String)
  deriving DecidableEq

namespace ClauseItem

def text : ClauseItem → List Char
  | .plain a => a.toList
  | .renamed b c => b.toList ++ (" as ".toList ++ c.toList)

def exported : ClauseItem → String
  | .plain a => a
  | .renamed _ c => c

/-- In front of a name, `type` is a keyword. -/
def Valid : ClauseItem → Prop
  | .plain a => IsIdentifier a
  | .renamed b c => IsIdentifier b ∧ b ≠ "type" ∧ IsIdentifier c

instance : (i : ClauseItem) → Decidable i.Valid
  | .plain a => inferInstanceAs (Decidable (IsIdentifier a))
  | .renamed b c => inferInstanceAs (Decidable (IsIdentifier b ∧ b ≠ "type" ∧ IsIdentifier c))

end ClauseItem

inductive ExportLine where
  | blank
  /-- `export const X = 1;`, `export function X() {}` and `export class X {}` -/
  | declares (kind : Declarator) (name : String)
  /-- `export default X;` -/
  | byDefault (name : String)
  /-- `export { A, B as C };` -/
  | clause (items : List ClauseItem)
  /-- `export * from 'S';` -/
  | star (specifier : String)
  /-- `export * as N from 'S';` -/
  | starAs (name specifier : String)
  deriving DecidableEq

namespace ExportLine

def between (items : List ClauseItem) : List Char :=
  ' ' :: ((", ".toList.intercalate (items.map ClauseItem.text)) ++ [' '])

theorem between_cons_cons (i i' : ClauseItem) (rest : List ClauseItem) :
    between (i :: i' :: rest) = ' ' :: i.text ++ ',' :: between (i' :: rest) := by
  simp [between, List.intercalate_cons_cons]

def body : ExportLine → List Char
  | .blank => []
  | .declares kind x =>
    "export ".toList ++ (kind.word.toList ++ ' ' :: x.toList ++ kind.closing.toList)
  | .byDefault x => "export ".toList ++ ("default".toList ++ ' ' :: (x.toList ++ ";".toList))
  | .clause items => "export ".toList ++ ('\x7b' :: between items ++ "\x7d".toList ++ ";".toList)
  | .star s => "export ".toList ++ ("* from".toList ++ (" '".toList ++ s.toList ++ "';".toList))
  | .starAs n s =>
    "export ".toList ++ ("* as ".toList ++ n.toList ++ " from".toList ++
      (" '".toList ++ s.toList ++ "';".toList))

-- As for the lines of import programs, the cases are stated: unfolding by equations evaluates the
-- literals.
section
variable (kind : Declarator) (x s : String) (items : List ClauseItem)

@[simp] theorem body_blank : blank.body = [] := rfl

@[simp] theorem body_declares : (declares kind x).body =
    "export ".toList ++ (kind.word.toList ++ ' ' :: x.toList ++ kind.closing.toList) := rfl

@[simp] theorem body_byDefault : (byDefault x).body =
    "export ".toList ++ ("default".toList ++ ' ' :: (x.toList ++ ";".toList)) := rfl

@[simp] theorem body_clause : (clause items).body =
    "export ".toList ++ ('\x7b' :: between items ++ "\x7d".toList ++ ";".toList) := rfl

@[simp] theorem body_star : (star s).body =
    "export ".toList ++ ("* from".toList ++ (" '".toList ++ s.toList ++ "';".toList)) := rfl

@[simp] theorem body_starAs : (starAs x s).body = "export ".toList ++
    ("* as ".toList ++ x.toList ++ " from".toList ++ (" '".toList ++ s.toList ++ "';".toList)) := rfl

end

def Valid : ExportLine → Prop
  | .blank => True
  | .declares _ x | .byDefault x => IsIdentifier x
  | .clause items => ∀ i ∈ items, i.Valid
  | .star s => '\n' ∉ s.toList
  | .starAs n s => IsIdentifier n ∧ n ≠ "default" ∧ '\n' ∉ s.toList

instance : (l : ExportLine) → Decidable l.Valid
  | .blank => inferInstanceAs (Decidable True)
  | .declares _ x | .byDefault x => inferInstanceAs (Decidable (IsIdentifier x))
  | .clause items => inferInstanceAs (Decidable (∀ i ∈ items, i.Valid))
  | .star s => inferInstanceAs (Decidable ('\n' ∉ s.toList))
  | .starAs n s => inferInstanceAs (Decidable (IsIdentifier n ∧ n ≠ "default" ∧ '\n' ∉ s.toList))

/-- The names that a line exports, a default apart. -/
def names : ExportLine → List String
  | .declares _ x => [x]
  | .clause items => (items.map ClauseItem.exported).filter (· ≠ "default")
  | .starAs n _ => [n]
  | .blank | .byDefault _ | .star _ => []

def isDefault : ExportLine → Bool
  | .byDefault _ => true
  | .clause items => items.any (·.exported = "default")
  | _ => false

def isStar : ExportLine → Bool
  | .star _ => true
  | _ => false

/-- A default export of an identifier that starts with a keyword, with another identifier behind it. -/
def Strays (l : ExportLine) (y : String) : Prop :=
  IsIdentifier y ∧ (l = .byDefault ("function" ++ y) ∨ l = .byDefault ("class" ++ y))

instance (l : ExportLine) (y : String) : Decidable (l.Strays y) :=
  inferInstanceAs
    (Decidable (IsIdentifier y ∧ (l = .byDefault ("function" ++ y) ∨
      l = .byDefault ("class" ++ y))))

end ExportLine

def exportText (lines : List ExportLine) : List Char := ['\n'].intercalate (lines.map ExportLine.body)

/-! ### Items of a clause -/

section
variable {p : Char → Bool} {u s v : List Char}

theorem strip_around (before : ∀ x ∈ u, p x = true) (after : ∀ x ∈ v, p x = true)
    (first : ∃ x ∈ s.head?, p x = false) (last : ∃ x ∈ s.getLast?, p x = false) :
    strip p (u ++ s ++ v) = s := by
  obtain ⟨x, head, outside⟩ := first
  obtain ⟨y, final, outside'⟩ := last
  obtain ⟨tail, rfl⟩ := List.head?_eq_some_iff.mp head
  have front : (u ++ (x :: tail) ++ v).dropWhile p = (x :: tail) ++ v := by
    rw [List.append_assoc, List.dropWhile_append_of_pos before, List.cons_append,
      List.dropWhile_cons, outside]
    rfl
  have back : ((x :: tail) ++ v).reverse.dropWhile p = (x :: tail).reverse := by
    rw [List.reverse_append, List.dropWhile_append_of_pos (by simpa using after)]
    rw [← List.head?_reverse] at final
    obtain ⟨others, shape⟩ := List.head?_eq_some_iff.mp final
    rw [shape, List.dropWhile_cons, outside']
    rfl
  rw [strip, front, back, List.reverse_reverse]

theorem afterLast?_eq_none {x : Char} {needle : List Char} (few : s.count x < needle.count x) :
    afterLast? needle s = none := by
  induction s with
  | nil => rfl
  | cons y s ih =>
    have fewer : s.count x ≤ (y :: s).count x := List.count_le_count_cons
    have apart : ¬ needle.isPrefixOf (y :: s) = true := by
      intro starts
      have most := (List.isPrefixOf_iff_prefix.mp starts).sublist.count_le x
      omega
    rw [afterLast?, ih (by omega), if_neg apart]

theorem afterLast?_append {needle tail : List Char} (found : afterLast? needle s = some tail)
    (u : List Char) : afterLast? needle (u ++ s) = some tail := by
  induction u with
  | nil => exact found
  | cons y u ih => rw [List.cons_append, afterLast?, ih]

theorem dropLead?_eq_some {head s t : List Char} : dropLead? head s = some t ↔ s = head ++ t := by
  rw [dropLead?]
  constructor
  · intro cut
    split at cut
    · rename_i starts
      obtain ⟨r, rfl⟩ := List.isPrefixOf_iff_prefix.mp starts
      rw [List.drop_left, Option.some_inj] at cut
      rw [cut]
    · cases cut
  · rintro rfl
    rw [if_pos (List.isPrefixOf_iff_prefix.mpr (List.prefix_append _ _)), List.drop_left]

end

def blankCodes : List Nat :=
  [9, 10, 11, 12, 13, 0x20, 0x85, 0xA0, 0x1680, 0x2000, 0x2001, 0x2002, 0x2003, 0x2004, 0x2005,
    0x2006, 0x2007, 0x2008, 0x2009, 0x200A, 0x2028, 0x2029, 0x202F, 0x205F, 0x3000]

theorem blankCodes_complete {x : Char} (blank : isBlank x = true) : x.toNat ∈ blankCodes := by
  simp only [isBlank, Bool.or_eq_true, Bool.and_eq_true, decide_eq_true_eq, beq_iff_eq] at blank
  simp only [blankCodes, List.mem_cons, List.not_mem_nil, or_false]
  omega

theorem isIdentPart_of_blank {x : Char} (blank : isBlank x = true) : isIdentPart x = false := by
  have apart : ∀ n ∈ blankCodes, isIdentPart (Char.ofNat n) = false := by decide +kernel
  rw [← Char.ofNat_toNat x]
  exact apart _ (blankCodes_complete blank)

theorem isBlank_of_part {x : Char} (part : isIdentPart x = true) : isBlank x = false := by
  refine Bool.eq_false_iff.mpr fun blank => ?_
  rw [isIdentPart_of_blank blank] at part
  cases part

theorem IsIdentifier.last {x : String} (valid : IsIdentifier x) :
    ∃ y ∈ x.toList.getLast?, isIdentPart y = true := by
  obtain ⟨first, others, shape, _⟩ := valid.split
  have filled : x.toList ≠ [] := by simp [shape]
  exact ⟨_, List.getLast?_eq_some_getLast filled, valid.2 _ (List.getLast_mem filled)⟩

theorem IsIdentifier.strip {x : String} (valid : IsIdentifier x) {p : Char → Bool}
    (none : ∀ y, isIdentPart y = true → p y = false) : strip p x.toList = x.toList := by
  obtain ⟨first, others, shape, begins, _⟩ := valid.split
  obtain ⟨last, final, part⟩ := valid.last
  have stripped := strip_around (p := p) (u := []) (v := []) (s := x.toList) (by simp) (by simp)
    ⟨first, by rw [shape]; rfl, none _ (isIdentPart_of_start begins)⟩ ⟨last, final, none _ part⟩
  simpa using stripped

namespace ClauseItem
variable {i : ClauseItem}

theorem Valid.exported (valid : i.Valid) : IsIdentifier i.exported := by
  cases i with
  | plain a => exact valid
  | renamed b c => exact valid.2.2

theorem Valid.free (valid : i.Valid) {x : Char} (part : isIdentPart x = false)
    (fixed : x ∉ " as ".toList) : x ∉ i.text := by
  cases i with
  | plain a => exact IsIdentifier.free valid part
  | renamed b c =>
    simp only [text, List.mem_append, not_or]
    exact ⟨valid.1.free part, fixed, valid.2.2.free part⟩

theorem Valid.ends (valid : i.Valid) :
    (∃ x ∈ i.text.head?, isBlank x = false) ∧ ∃ x ∈ i.text.getLast?, isBlank x = false := by
  have first {x : String} (named : IsIdentifier x) (r : List Char) : ∃ y ∈ (x.toList ++ r).head?,
      isBlank y = false := by
    obtain ⟨y, others, shape, begins, _⟩ := named.split
    exact ⟨y, by rw [shape]; rfl, isBlank_of_start begins⟩
  cases i with
  | plain a =>
    obtain ⟨y, final, part⟩ := IsIdentifier.last valid
    have head := first valid []
    rw [List.append_nil] at head
    exact ⟨head, y, final, isBlank_of_part part⟩
  | renamed b c =>
    obtain ⟨y, final, part⟩ := valid.2.2.last
    refine ⟨first valid.1 _, y, ?_, isBlank_of_part part⟩
    simp only [text, List.getLast?_append, show c.toList.getLast? = some y from final,
      Option.mem_def, Option.some_or]

theorem Valid.untyped (valid : i.Valid) : dropLead? "type ".toList i.text = none := by
  refine Option.eq_none_iff_forall_ne_some.mpr fun r lead => ?_
  have same := dropLead?_eq_some.mp lead
  cases i with
  | plain a =>
    refine IsIdentifier.free valid (c := ' ') rfl ?_
    rw [show a.toList = _ from same]
    simp
  | renamed b c =>
    have cut := split_unique (p := isBlank) (a := b.toList) (b := "type".toList) (x := ' ') (y := ' ')
      (v := "as ".toList ++ c.toList) (w := r) (fun y member => isBlank_of_part
        (valid.1.2 y member)) (by decide) rfl rfl
      (by simpa [text] using same)
    exact valid.2.1 (String.toList_inj.mp cut.1)

theorem Valid.afterLast? (valid : i.Valid) :
    (afterLast? " as ".toList i.text).getD i.text = i.exported.toList := by
  cases i with
  | plain a =>
    have single : a.toList.count ' ' = 0 := List.count_eq_zero.mpr (IsIdentifier.free valid rfl)
    rw [text, afterLast?_eq_none (x := ' ') (by rw [single]; decide)]
    rfl
  | renamed b c =>
    have single : c.toList.count ' ' = 0 := List.count_eq_zero.mpr (valid.2.2.free rfl)
    have none : Text.afterLast? " as ".toList ("as ".toList ++ c.toList) = none :=
      afterLast?_eq_none (x := ' ') (by rw [List.count_append, single]; decide)
    have found : Text.afterLast? " as ".toList (" as ".toList ++ c.toList) = some c.toList := by
      rw [show " as ".toList ++ c.toList = ' ' :: ("as ".toList ++ c.toList) from rfl,
        Text.afterLast?, none]
      rfl
    rw [text, afterLast?_append found]
    rfl

theorem Valid.trim (valid : i.Valid) {u v : List Char} (before : ∀ x ∈ u, x = ' ')
    (after : ∀ x ∈ v, x = ' ') : trim (u ++ i.text ++ v) = i.text :=
  strip_around (p := isBlank) (fun x member => by rw [before x member]; rfl)
    (fun x member => by rw [after x member]; rfl) valid.ends.1 valid.ends.2

theorem Valid.clauseNames (valid : i.Valid) {v : List Char} (after : ∀ x ∈ v, x = ' ') :
    clauseNames (' ' :: (i.text ++ v)) = [i.exported] := by
  have single : ',' ∉ ' ' :: (i.text ++ v) := by
    simp only [List.mem_cons, List.mem_append, not_or]
    exact ⟨by decide, valid.free rfl (by decide), fun member => absurd (after _ member) (by decide)⟩
  have padded : Text.trim (' ' :: (i.text ++ v)) = i.text := valid.trim (u := [' ']) (by simp) after
  have alone : Text.trim i.text = i.text := by
    simpa using valid.trim (u := []) (v := []) (by simp) (by simp)
  have named : Text.trim i.exported.toList = i.exported.toList := valid.exported.strip fun _ =>
    isBlank_of_part
  have bare : Text.strip (fun c => c == '"' || c == '\'') i.exported.toList = i.exported.toList := by
    refine valid.exported.strip fun y part => ?_
    rw [Bool.or_eq_false_iff, beq_eq_false_iff_ne, beq_eq_false_iff_ne]
    constructor
    · rintro rfl
      cases part
    · rintro rfl
      cases part
  have filled : i.exported.toList.isEmpty = false := by
    obtain ⟨_, _, shape, _⟩ := valid.exported.split
    rw [shape]
    rfl
  rw [Lexical.clauseNames, List.splitOn_eq_singleton single]
  simp only [List.filterMap_cons, padded, valid.untyped, Option.getD_none, alone, valid.afterLast?,
    named, bare, filled, Bool.false_eq_true, if_false, List.filterMap_nil, String.ofList_toList]

end ClauseItem

theorem clauseNames_append (a b : List Char) :
    clauseNames (a ++ ',' :: b) = clauseNames a ++ clauseNames b := by
  rw [clauseNames, List.splitOn_append_cons_self, List.filterMap_append]
  rfl

theorem clauseNames_between {items : List ClauseItem} (valid : ∀ i ∈ items, i.Valid) :
    clauseNames (ExportLine.between items) = items.map ClauseItem.exported := by
  induction items with
  | nil => decide
  | cons i rest ih =>
    have first := valid i List.mem_cons_self
    have others := ih fun i member => valid i (List.mem_cons_of_mem _ member)
    cases rest with
    | nil =>
      have single := first.clauseNames (v := [' ']) (by simp)
      simpa [ExportLine.between] using single
    | cons i' rest =>
      have single := first.clauseNames (v := []) (by simp)
      rw [List.append_nil] at single
      rw [ExportLine.between_cons_cons, clauseNames_append, single, others]
      rfl

end Relocation
