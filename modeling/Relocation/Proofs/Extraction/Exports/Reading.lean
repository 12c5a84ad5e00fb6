import Relocation.Proofs.Extraction.Exports.Patterns
import Relocation.Proofs.Table

/-!
# Reading an export program

The exports of a program are those of its lines, and the names that are read off some of its
defaults (`extract_exports`).
-/

namespace Relocation

open Text Text.Pattern Text.Cursor Lexical

/-! ### Growing a set of exports -/

/-- What one set of exports has beyond another. -/
structure ExportSet.Grows (e e' : ExportSet) (isDefault all : Prop) (names : String → Prop) :
    Prop where
  hasDefault : e'.hasDefault = true ↔ e.hasDefault = true ∨ isDefault
  reexportsAll : e'.reexportsAll = true ↔ e.reexportsAll = true ∨ all
  names : ∀ x, x ∈ e'.names.toList ↔ x ∈ e.names.toList ∨ names x

namespace ExportSet.Grows
variable {e e' e'' : ExportSet} {D D' A A' : Prop} {N N' : String → Prop}

theorem refl (e : ExportSet) : Grows e e False False fun _ => False :=
  ⟨by simp, by simp, by simp⟩

theorem trans (first : Grows e e' D A N) (second : Grows e' e'' D' A' N') :
    Grows e e'' (D ∨ D') (A ∨ A') fun x => N x ∨ N' x where
  hasDefault := by rw [second.hasDefault, first.hasDefault, or_assoc]
  reexportsAll := by rw [second.reexportsAll, first.reexportsAll, or_assoc]
  names x := by rw [second.names, first.names, or_assoc]

theorem congr (grows : Grows e e' D A N) (isDefault : D ↔ D') (all : A ↔ A')
    (names : ∀ x, N x ↔ N' x) : Grows e e' D' A' N' where
  hasDefault := by rw [grows.hasDefault, isDefault]
  reexportsAll := by rw [grows.reexportsAll, all]
  names x := by rw [grows.names, names]

theorem foldl {α : Type} {step : ExportSet → α → ExportSet} {D A : α → Prop} {N : α → String → Prop}
    {xs : List α} (each : ∀ a ∈ xs, ∀ e, Grows e (step e a) (D a) (A a) (N a)) (e : ExportSet) :
    Grows e (xs.foldl step e) (∃ a ∈ xs, D a) (∃ a ∈ xs, A a) fun x => ∃ a ∈ xs, N a x := by
  induction xs generalizing e with
  | nil => exact (refl e).congr (by simp) (by simp) (by simp)
  | cons a xs ih =>
    have first := each a List.mem_cons_self e
    have later := ih (fun a member => each a (List.mem_cons_of_mem _ member)) (step e a)
    exact (first.trans later).congr (by simp) (by simp) (by simp)

theorem addName (e : ExportSet) (name : String) : Grows e (e.addName name) False False (· = name) where
  hasDefault := by simp [ExportSet.addName]
  reexportsAll := by simp [ExportSet.addName]
  names x := by
    have known {s : List String} : Keys.contains x s = true ↔ x ∈ s := by
      simp [Keys.contains_iff, Std.LawfulEqCmp.compare_eq_iff_eq]
    rw [← known, ExportSet.addName, Keys.contains_insert, known, Std.LawfulEqCmp.compare_eq_iff_eq,
      or_comm]

theorem byDefault (e : ExportSet) : Grows e { e with hasDefault := true } True False fun _ => False :=
  ⟨by simp, by simp, by simp⟩

theorem star (e : ExportSet) : Grows e { e with reexportsAll := true } False True fun _ => False :=
  ⟨by simp, by simp, by simp⟩

theorem addNames (e : ExportSet) (names : List String) :
    Grows e (names.foldl ExportSet.addName e) False False (· ∈ names) :=
  (foldl (fun name _ e => addName e name) e).congr (by simp) (by simp) (by simp)

theorem addExported (e : ExportSet) {name : String} (filled : name ≠ "") :
    Grows e (e.addExported name) (name = "default") False fun x => x = name ∧ name ≠ "default" := by
  by_cases special : name = "default"
  · rw [ExportSet.addExported, if_pos special]
    exact (byDefault e).congr (by simp [special]) Iff.rfl (by simp [special])
  · rw [ExportSet.addExported, if_neg special, if_neg filled]
    exact (addName e name).congr (by simp [special]) Iff.rfl (by simp [special])

theorem addExporteds (e : ExportSet) {names : List String} (filled : "" ∉ names) :
    Grows e (names.foldl ExportSet.addExported e) ("default" ∈ names) False fun x => x ∈ names ∧
    x ≠ "default" := by
  have each : ∀ name ∈ names, ∀ e, Grows e (e.addExported name) (name = "default") False
      fun x => x = name ∧ name ≠ "default" :=
    fun name member e => addExported e fun empty => filled (empty ▸ member)
  refine (foldl each e).congr (by simp) (by simp) fun x => ?_
  constructor
  · rintro ⟨name, member, rfl, other⟩
    exact ⟨member, other⟩
  · rintro ⟨member, other⟩
    exact ⟨x, member, rfl, other⟩

end ExportSet.Grows

/-! ### From quotes to exports -/

def addNamed (e : ExportSet) (texts : List (List Char)) :
    ExportSet := (texts.map String.ofList).foldl ExportSet.addName e

def addDefault (e : ExportSet) (texts : List (List Char)) :
    ExportSet := addNamed { e with hasDefault := true } texts

def addClause (e : ExportSet) (texts : List (List Char)) : ExportSet :=
  (texts.flatMap clauseNames).foldl ExportSet.addExported e

def addStar (e : ExportSet) : List (List Char) → ExportSet
  | [] => { e with reexportsAll := true }
  | name :: _ => e.addName (String.ofList name)

theorem exports_quotes (text : List Char) : exports text =
    (exportStar.quotes (ofList text)).foldl addStar
      ((exportClause.quotes (ofList text)).foldl addClause
      ((exportDeclaration.quotes (ofList text)).foldl addNamed
        ((exportDefault.quotes (ofList text)).foldl addDefault {}))) := by
  simp only [exports, scan_eq, quotes, List.foldl_map, addDefault, addNamed, addClause,
    List.map_map, List.flatMap_map]
  congr 1
  funext e m
  cases m.groups with
  | nil => rfl
  | cons g rest => rfl

namespace ExportLine

section
variable {l : ExportLine} (e : ExportSet)

theorem grows_defaulted :
    ExportSet.Grows e (l.defaulted.foldl addDefault e) (∃ x, l = .byDefault x) False l.Strays := by
  cases l with
  | byDefault x =>
    refine ((ExportSet.Grows.byDefault e).trans (ExportSet.Grows.addNames _ _)).congr (by simp)
      (by simp) fun y => ?_
    have read : y ∈ ((strayName? x).toList.map String.toList).map String.ofList ↔
      strayName? x = some y := by simp
    rw [false_or, read, strayName?_eq_some, Strays]
    simp
  | blank | declares kind x | clause items | star s | starAs n s =>
    exact (ExportSet.Grows.refl e).congr (by simp) Iff.rfl (by simp [Strays])

theorem grows_declared :
    ExportSet.Grows e (l.declared.foldl addNamed e) False False
      (fun x => ∃ kind, l = .declares kind x) := by
  cases l with
  | declares kind x =>
    exact (ExportSet.Grows.addNames e _).congr Iff.rfl Iff.rfl (by simp [eq_comm])
  | blank | byDefault x | clause items | star s | starAs n s =>
    exact (ExportSet.Grows.refl e).congr Iff.rfl Iff.rfl (by simp)

theorem grows_clauses (valid : l.Valid) : ExportSet.Grows e (l.clauses.foldl addClause e)
    (∃ items, l = .clause items ∧ "default" ∈ items.map ClauseItem.exported) False
    (fun x => ∃ items, l = .clause items ∧ x ∈ items.map ClauseItem.exported ∧ x ≠ "default") := by
  cases l with
  | clause items =>
    have filled : "" ∉ items.map ClauseItem.exported := by
      intro member
      obtain ⟨i, inside, empty⟩ := List.mem_map.mp member
      obtain ⟨_, _, shape, _⟩ := (ClauseItem.Valid.exported (valid i inside)).split
      rw [empty] at shape
      cases shape
    have read : [between items].flatMap clauseNames = items.map ClauseItem.exported := by
      rw [List.flatMap_singleton, clauseNames_between valid]
    have grows := ExportSet.Grows.addExporteds e filled
    rw [← read] at grows
    exact grows.congr (by simp [read]) Iff.rfl fun x => by simp [read]
  | blank | declares kind x | byDefault x | star s | starAs n s =>
    exact (ExportSet.Grows.refl e).congr (by simp) Iff.rfl (by simp)

theorem grows_stars :
    ExportSet.Grows e (l.stars.foldl addStar e) False (l.isStar = true)
      (fun x => ∃ s, l = .starAs x s) := by
  cases l with
  | star s => exact (ExportSet.Grows.star e).congr Iff.rfl (by simp [isStar]) (by simp)
  | starAs n s =>
    refine (ExportSet.Grows.addName e _).congr Iff.rfl (by simp [isStar]) fun x => ?_
    simp [eq_comm]
  | blank | declares kind x | byDefault x | clause items =>
    exact (ExportSet.Grows.refl e).congr Iff.rfl (by simp [isStar]) (by simp)

end

section
variable {l : ExportLine}

theorem isDefault_iff : l.isDefault = true ↔
    (∃ x, l = .byDefault x) ∨ ∃ items, l = .clause items ∧
    "default" ∈ items.map ClauseItem.exported := by
  cases l <;> simp [isDefault]

theorem mem_names_iff {x : String} : x ∈ l.names ↔ (∃ kind, l = .declares kind x) ∨
    (∃ items, l = .clause items ∧ x ∈ items.map ClauseItem.exported ∧ x ≠ "default") ∨
    ∃ s, l = .starAs x s := by
  cases l with
  | declares kind y | starAs y s => simpa [names] using eq_comm
  | blank | byDefault y | clause items | star s => simp [names]

end

end ExportLine

section
variable {lines : List ExportLine} (valid : ∀ l ∈ lines, l.Valid)
include valid

theorem grows_lines {p : Pattern} {found : ExportLine → List (List (List Char))}
    {step : ExportSet → List (List Char) → ExportSet} {D A : ExportLine → Prop}
    {N : ExportLine → String → Prop} (proper : p.nullable = false) (closed : p.opens '\n' = false)
    (yields : ∀ {l : ExportLine}, l.Valid → p.Yields l.body (found l))
    (each : ∀ l : ExportLine, l.Valid → ∀ e, ExportSet.Grows e ((found l).foldl step e) (D l) (A l)
      (N l)) (e : ExportSet) :
    ExportSet.Grows e ((p.quotes (ofList (exportText lines))).foldl step e) (∃ l ∈ lines, D l)
      (∃ l ∈ lines, A l) fun x => ∃ l ∈ lines, N l x := by
  rw [quotes_lines proper closed (fun l member => yields (valid l member)) rfl rfl, List.foldl_flatMap]
  exact ExportSet.Grows.foldl (fun l member e => each l (valid l member) e) e

theorem exports_grows :
    ExportSet.Grows {} (exports (exportText lines)) (∃ l ∈ lines, l.isDefault = true)
    (∃ l ∈ lines, l.isStar = true) fun x => ∃ l ∈ lines, x ∈ l.names ∨ l.Strays x := by
  have defaults := grows_lines valid rfl rfl exportDefault_yields (fun _ _ e =>
    ExportLine.grows_defaulted e) {}
  have declarations := grows_lines valid rfl rfl exportDeclaration_yields (fun _ _ e =>
    ExportLine.grows_declared e)
  have clauses := grows_lines valid rfl rfl exportClause_yields (fun _ valid e =>
    ExportLine.grows_clauses e valid)
  have stars := grows_lines valid rfl rfl exportStar_yields (fun _ _ e => ExportLine.grows_stars e)
  rw [exports_quotes]
  refine (((defaults.trans (declarations _)).trans (clauses _)).trans (stars _)).congr ?_ ?_
    fun x => ?_
  · simp only [ExportLine.isDefault_iff]
    grind
  · grind
  · simp only [ExportLine.mem_names_iff]
    grind

end

/-- Reading an export program gives the names, the default and the stars of its lines, each name
once. Nothing else is added, unless a default export is an identifier that starts with a keyword:
then the identifier behind the keyword is. -/
theorem extract_exports (path : Path) (lines : List ExportLine) (valid : ∀ l ∈ lines, l.Valid) :
    let e := (Lexical.extract path (String.ofList (exportText lines))).exports
    (e.hasDefault = true ↔ ∃ l ∈ lines, l.isDefault = true) ∧
      (e.reexportsAll = true ↔ ∃ l ∈ lines, l.isStar = true) ∧
      (∀ x, x ∈ e.names.toList ↔ ∃ l ∈ lines, x ∈ l.names ∨ l.Strays x) ∧
      Keys.Ascending e.names.toList := by
  have read : (Lexical.extract path (String.ofList (exportText lines))).exports =
      exports (exportText lines) := by
    rw [Lexical.extract, String.toList_ofList]
  rw [read]
  have grows := exports_grows valid
  exact ⟨by simpa using grows.hasDefault, by simpa using grows.reexportsAll, by simpa using grows.names,
    Keys.ascending _⟩

theorem extract_exports_mixed :
    let lines : List ExportLine := [.byDefault "main", .declares .function "functional",
      .clause [.plain "a", .renamed "b" "default"], .starAs "n" "./y", .blank]
    let text := "export default main;\nexport function functional() \x7b\x7d\n" ++
      "export \x7b a, b as default \x7d;\nexport * as n from './y';\n"
    (∀ l ∈ lines, l.Valid) ∧ String.ofList (exportText lines) = text ∧
      let e := (Lexical.extract ⟨"src/a.ts"⟩ text).exports
      e.hasDefault = true ∧ e.reexportsAll = false ∧
      (∀ x ∈ ["a", "functional", "n"], x ∈ e.names.toList) ∧
        ∀ x ∈ ["b", "default", "main"], x ∉ e.names.toList := by
  intro lines text
  have valid : ∀ l ∈ lines, l.Valid := by decide
  have written : String.ofList (exportText lines) = text := by decide
  obtain ⟨isDefault, all, names, _⟩ := extract_exports ⟨"src/a.ts"⟩ lines valid
  rw [written] at isDefault all names
  refine ⟨valid, written, isDefault.mpr (by decide), Bool.eq_false_iff.mpr
    (mt all.mp (by decide)), ?_, ?_⟩
  · intro x member
    rw [names]
    revert x
    decide
  · intro x member
    rw [names]
    revert x
    decide

/-- Part of a name is read as the name of a class. -/
theorem extract_exports_stray :
    let lines : List ExportLine := [.byDefault "className", .blank]
    (∀ l ∈ lines, l.Valid) ∧ String.ofList (exportText lines) = "export default className;\n" ∧
      (∀ l ∈ lines, "Name" ∉ l.names) ∧
      (Lexical.extract ⟨"src/a.ts"⟩ "export default className;\n").exports.names.toList =
        ["Name"] := by
  decide

end Relocation
