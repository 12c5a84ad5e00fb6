/-!
# TOML values

A table lists its entries as they were written, so a key may occur twice. A document is read as a
list of sections, each with the header above it; `Section.assemble` folds them into one table.
-/

namespace Relocation.Toml

inductive Value where
  | string (s : String)
  | integer (n : Int)
  /-- Floats and dates are recognised; their value is not kept. -/
  | float
  | date
  | boolean (b : Bool)
  | array (items : List Value)
  /-- `inline` tells a table in braces from the others. -/
  | table (inline : Bool) (entries : List (String × Value))
  deriving Repr

abbrev Entries := List (String × Value)

/-- Puts a value below the keys of a dotted path. Only a table that dotted keys made can grow. -/
def addDotted (key : String) (below : List String) (v : Value) (entries : Entries) :
    Option Entries :=
  match below with
  | [] => some (entries ++ [(key, v)])
  | next :: more =>
    match entries with
    | [] => (addDotted next more v []).map fun inner => [(key, .table false inner)]
    | (k, old) :: rest =>
      if k = key then
        match old with
        | .table false inner => (addDotted next more v inner).map fun inner =>
            (k, .table false inner) :: rest
        | _ => none
      else (addDotted key (next :: more) v rest).map ((k, old) :: ·)
termination_by (below.length, entries.length)

/-- The lines below one header. `[a.b]` has the header `a`, `b`; `[[a.b]]` adds an element to the
array of that name. -/
structure Section where
  header : List String
  isElement : Bool
  entries : Entries

namespace Section

def weight (sections : List Section) : Nat := sections.foldr (fun s n => s.header.length + 1 + n) 0

/-- Sections whose header starts with `key`, with that key taken off. -/
def under (key : String) (sections : List Section) : List Section :=
  sections.filterMap fun s =>
    match s.header with
    | k :: rest => if k = key then some { s with header := rest } else none
    | [] => none

def startsWith (key : String) (s : Section) : Bool := s.header.head? = some key

theorem weight_cons (s : Section) (rest : List Section) :
    weight (s :: rest) = s.header.length + 1 + weight rest := by
  simp [weight]

theorem weight_filter_le (p : Section → Bool) (sections : List Section) :
    weight (sections.filter p) ≤ weight sections := by
  induction sections with
  | nil => simp
  | cons s rest ih =>
    simp only [List.filter_cons, weight_cons]
    split
    · rw [weight_cons]; omega
    · omega

theorem weight_under_le (key : String) (sections : List Section) :
    weight (under key sections) ≤ weight sections := by
  induction sections with
  | nil => simp [under]
  | cons s rest ih =>
    rw [weight_cons]
    unfold under at ih ⊢
    rw [List.filterMap_cons]
    split
    · omega
    · rename_i s' h
      have : s'.header.length ≤ s.header.length := by
        revert h
        split
        · rename_i heq
          split
          · rintro ⟨rfl⟩; simp [heq]
          · simp
        · simp
      rw [weight_cons]
      omega

/-- Sections up to the next element of the same array, and the rest. -/
def untilElement : List Section → List Section × List Section
  | [] => ([], [])
  | s :: rest =>
    if s.isElement && s.header.isEmpty then ([], s :: rest)
    else
      let (inner, later) := untilElement rest
      (s :: inner, later)

theorem weight_untilElement (sections : List Section) :
    weight (untilElement sections).1 + weight (untilElement sections).2 = weight sections := by
  induction sections with
  | nil => simp [untilElement, weight]
  | cons s rest ih =>
    rw [untilElement]
    split
    · simp [weight]
    · simp only [weight_cons]; omega

mutual

/-- Folds sections into the entries of one table. A header may be repeated only for elements of an
array, and `own` tells whether lines of the table itself may still come. -/
def assemble (own : Bool) (sections : List Section) : Option Entries :=
  match sections with
  | [] => some []
  | ⟨[], isElement, entries⟩ :: rest =>
    if isElement || !own then none
    else (assemble false rest).map (entries ++ ·)
  | ⟨key :: below, isElement, entries⟩ :: rest =>
    let here := under key rest
    let value :=
      if isElement && below.isEmpty then (elements entries here).map Value.array
      else (assemble true (⟨below, isElement, entries⟩ :: here)).map (Value.table false)
    match value, assemble own (rest.filter fun s => !s.startsWith key) with
    | some v, some others => some ((key, v) :: others)
    | _, _ => none
termination_by (weight sections, 0)
decreasing_by
  · simp only [weight_cons, Prod.lex_def]; left; simp
  · have := weight_under_le key rest
    simp only [weight_cons, Prod.lex_def, List.length_cons]; left; omega
  · have := weight_under_le key rest
    simp only [weight_cons, Prod.lex_def, List.length_cons]; left; omega
  · have := weight_filter_le (fun s => !s.startsWith key) rest
    simp only [weight_cons, Prod.lex_def, List.length_cons]; left; omega

/-- Elements of an array of tables: the first has `entries`. -/
def elements (entries : Entries) (sections : List Section) : Option (List Value) :=
  match _parts : untilElement sections with
  | (inner, later) =>
    match assemble false inner with
    | none => none
    | some more =>
      let first := Value.table false (entries ++ more)
      match later with
      | [] => some [first]
      | s :: rest => (elements s.entries rest).map (first :: ·)
termination_by (weight sections, 1)
decreasing_by
  · have := weight_untilElement sections
    rw [_parts] at this
    simp only at this
    simp only [Prod.lex_def]
    omega
  · have := weight_untilElement sections
    rw [_parts] at this
    simp only [weight_cons] at this
    simp only [Prod.lex_def]
    omega

end

end Section

end Relocation.Toml
