import Relocation.Proofs.Path.Components
import Relocation.Specifier

/-!
# Spelling out names

`plain` is the usual spelling of a list of names. What `join`, `parent?`, `fileName?`, `slash` and
`clean` do to a path that spells names is stated on the names.
-/

namespace Relocation.Path

def plain (names : List String) : Path := ⟨"/".intercalate names⟩

theorem plain_singleton (name : String) : plain [name] = ⟨name⟩ := by simp [plain]

theorem toList_plain (names : List String) :
    (plain names).text.toList = ['/'].intercalate (names.map String.toList) := by
  rw [plain, String.toList_intercalate]
  rfl

theorem segments_plain {names : List String} (valid : ∀ name ∈ names, IsName name)
    (filled : names ≠ []) : (plain names).segments = names.map String.toList := by
  rw [segments, toList_plain]
  apply List.splitOn_intercalate
  · intro s member
    obtain ⟨name, inside, rfl⟩ := List.mem_map.mp member
    exact (valid name inside).1
  · simpa using filled

theorem filterMap_names {names : List String} (valid : ∀ name ∈ names, IsName name) :
    (names.map String.toList).filterMap segment? = names.map Component.normal := by
  induction names with
  | nil => rfl
  | cons name rest ih =>
    rw [List.map_cons, List.filterMap_cons, segment?_name (valid name List.mem_cons_self),
      ih fun other member => valid other (List.mem_cons_of_mem _ member)]
    rfl

theorem head?_of_slash_free {s rest : List Char} (clear : '/' ∉ s) (filled : s ≠ []) :
    (s ++ rest).head? ≠ some '/' := by
  cases s with
  | nil => exact (filled rfl).elim
  | cons c s =>
    intro same
    simp only [List.cons_append, List.head?_cons, Option.some.injEq] at same
    exact clear (by simp [same])

theorem opening_eq_nil {p : Path} {s : List Char} {rest : List (List Char)}
    (split : p.segments = s :: rest) (filled : s ≠ []) (dot : s ≠ ['.']) : p.opening = [] := by
  have clear := segments_slash_free p (s := s) (by rw [split]; exact List.mem_cons_self)
  have text : p.text.toList.head? ≠ some '/' := by
    rw [← intercalate_segments, split]
    cases rest with
    | nil =>
      rw [List.intercalate_singleton, ← List.append_nil s]
      exact head?_of_slash_free clear filled
    | cons t rest =>
      rw [List.intercalate_cons_cons, List.append_assoc]
      exact head?_of_slash_free clear filled
  have relative : p.isAbsolute = false := by
    simpa [isAbsolute, isAbsoluteText] using text
  rw [opening, relative, split]
  simpa using dot

theorem IsName.toList_ne {name : String} (valid : IsName name) :
    name.toList ≠ [] ∧ name.toList ≠ ['.'] :=
  ⟨fun empty => valid.2.1 (String.toList_eq_nil_iff.mp empty),
    fun dot => valid.2.2.1 (String.toList_inj.mp (dot.trans (by decide)))⟩

theorem spells_plain {names : List String} (valid : ∀ name ∈ names, IsName name) :
    (plain names).Spells names := by
  cases names with
  | nil => decide
  | cons name rest =>
    have split := segments_plain valid (List.cons_ne_nil name rest)
    have proper := (valid name List.mem_cons_self).toList_ne
    refine spells_iff.mpr ⟨opening_eq_nil split proper.1 proper.2, ?_⟩
    rw [inner, split, filterMap_names valid]

/-! ### Joining -/

theorem join_empty (q : Path) : (⟨""⟩ : Path).join q = q := by
  unfold join
  split
  · rfl
  · rfl

theorem segments_append {p : Path} (front back : List Char)
    (text : p.text.toList = front ++ '/' :: back) :
    p.segments = front.splitOn '/' ++ back.splitOn '/' := by
  rw [segments, text]
  exact List.splitOn_append_cons_self front back

/-- The text of a join runs through a slash, in front of which the first path ends. -/
theorem join_text {p q : Path} (relative : q.isAbsolute = false) (filled : p.text ≠ "") :
    ∃ front, (p.join q).text.toList = front ++ '/' :: q.text.toList ∧
      (p.text.toList = front ++ ['/'] ∨ p.text.toList = front) := by
  unfold join
  simp only [relative, Bool.false_eq_true, if_false]
  split
  · rename_i empty
    exact (filled (String.toList_eq_nil_iff.mp (List.getLast?_eq_none_iff.mp empty))).elim
  · rename_i last
    obtain ⟨front, text⟩ := List.getLast?_eq_some_iff.mp last
    exact ⟨front, by simp [text], Or.inl text⟩
  · exact ⟨p.text.toList, by simp, Or.inr rfl⟩

theorem inner_join {p q : Path} (relative : q.isAbsolute = false) (filled : p.text ≠ "") :
    (p.join q).inner = p.inner ++ q.inner := by
  obtain ⟨front, text, ends⟩ := join_text relative filled
  have split := segments_append front q.text.toList text
  have own : p.inner = (front.splitOn '/').filterMap segment? := by
    rcases ends with slashed | bare
    · have parts := segments_append front [] slashed
      rw [inner, parts, List.filterMap_append]
      simp [segment?]
    · rw [inner, segments, bare]
  rw [inner, split, List.filterMap_append, own]
  rfl

theorem head?_segments_join {p q : Path} (relative : q.isAbsolute = false) (filled : p.text ≠ "") :
    (p.join q).segments.head? = p.segments.head? := by
  obtain ⟨front, text, ends⟩ := join_text relative filled
  have head : ∀ rest : List (List Char), (front.splitOn '/' ++ rest).head? =
      (front.splitOn '/').head? := by
    intro rest
    cases parts : front.splitOn '/' with
    | nil => exact (List.splitOn_ne_nil _ _ parts).elim
    | cons first others => rfl
  rw [segments_append front q.text.toList text, head]
  rcases ends with slashed | bare
  · rw [segments_append front [] slashed, head]
  · rw [segments, bare]

theorem isAbsolute_join {p q : Path} (relative : q.isAbsolute = false) (filled : p.text ≠ "") :
    (p.join q).isAbsolute = p.isAbsolute := by
  obtain ⟨front, text, ends⟩ := join_text relative filled
  unfold isAbsolute isAbsoluteText
  rw [text]
  rcases ends with slashed | bare
  · rw [slashed]
    cases front <;> rfl
  · have nonempty : front ≠ [] := fun empty => filled (String.toList_eq_nil_iff.mp (bare.trans empty))
    rw [bare]
    cases front with
    | nil => exact (nonempty rfl).elim
    | cons c front => rfl

theorem components_join {p q : Path} (relative : q.isAbsolute = false) (filled : p.text ≠ "") :
    (p.join q).components = p.components ++ q.inner := by
  rw [components_eq, components_eq p, inner_join relative filled, List.append_assoc]
  unfold opening
  rw [isAbsolute_join relative filled, head?_segments_join relative filled]

theorem Spells.join {p q : Path} {front back : List String} (left : p.Spells front)
    (right : q.Spells back) : (p.join q).Spells (front ++ back) := by
  by_cases filled : p.text = ""
  · have path : p = ⟨""⟩ := by cases p; simp_all
    subst path
    have empty : front = [] := left.unique (by decide)
    rw [join_empty, empty]
    exact right
  · rw [Spells, components_join right.isRelative filled, show p.components = _ from left, right.inner,
      List.map_append]

/-! ### Directories and file names -/

/-- Cutting a text off behind a component leaves the stretches up to that component. -/
theorem go_cut {segments : List (List Char)} {offset stop : Nat} {c : Component}
    {before after : List (Component × Nat)}
    (read : placed.go offset segments = before ++ (c, stop) :: after) :
    ∃ kept, kept ≠ [] ∧ kept <+: segments ∧ kept.filterMap segment? = before.map (·.1) ++ [c] ∧
      offset ≤ stop ∧ (['/'].intercalate segments).take (stop - offset) = ['/'].intercalate kept ∧
      (['/'].intercalate kept).length = stop - offset ∧ kept.getLast?.bind segment? = some c := by
  induction segments generalizing offset before with
  | nil => simp [placed.go] at read
  | cons s rest ih =>
    -- The component lies behind `s`: what is kept starts with `s`.
    have later : ∀ (earlier : List (Component × Nat)), ((segment? s).toList = earlier.map (·.1)) →
        ∀ {others}, placed.go (offset + s.length + 1) rest = others ++ (c, stop) :: after →
        before.map (·.1) = earlier.map (·.1) ++ others.map (·.1) →
        ∃ kept, kept ≠ [] ∧ kept <+: s :: rest ∧ kept.filterMap segment? = before.map (·.1) ++ [c] ∧
          offset ≤ stop ∧ (['/'].intercalate (s :: rest)).take (stop - offset) =
            ['/'].intercalate kept ∧
          (['/'].intercalate kept).length = stop - offset ∧ kept.getLast?.bind segment? = some c := by
      intro earlier head others tail parts
      obtain ⟨kept, filled, inside, comps, bound, text, size, ending⟩ := ih tail
      have nonempty : rest ≠ [] := by
        rintro rfl
        exact filled (List.prefix_nil.mp inside)
      refine ⟨s :: kept, List.cons_ne_nil _ _, List.cons_prefix_cons.mpr ⟨rfl, inside⟩,
        ?_, by omega, ?_, ?_, ?_⟩
      · rw [List.filterMap_cons, parts, ← head]
        cases segment? s <;> simp [comps]
      · have length : stop - offset = s.length + (1 + (stop - (offset + s.length + 1))) := by omega
        rw [List.intercalate_cons_of_ne_nil nonempty, List.intercalate_cons_of_ne_nil filled, length,
          List.append_assoc, List.take_length_add_append, List.singleton_append, Nat.add_comm 1,
          List.take_succ_cons, text]
        simp
      · rw [List.intercalate_cons_of_ne_nil filled, List.length_append, List.length_append, size]
        simp only [List.length_singleton]
        omega
      · rw [List.getLast?_cons_of_ne_nil filled, ending]
    rw [placed.go] at read
    cases found : segment? s with
    | none =>
      simp only [found, Option.map_none, Option.toList_none, List.nil_append] at read
      exact later [] (by simp [found]) read rfl
    | some first =>
      simp only [found, Option.map_some, Option.toList_some, List.singleton_append] at read
      cases before with
      | nil =>
        simp only [List.nil_append, List.cons.injEq, Prod.mk.injEq] at read
        obtain ⟨⟨rfl, rfl⟩, _⟩ := read
        refine ⟨[s], by simp, by simp, by simp [found], by omega, ?_, by simp, by simp [found]⟩
        cases rest with
        | nil => simp
        | cons t rest => simp [List.intercalate_cons_cons]
      | cons entry others =>
        simp only [List.cons_append, List.cons.injEq] at read
        obtain ⟨rfl, tail⟩ := read
        exact later [(first, offset + s.length)] (by simp [found]) tail rfl

section
variable {p : Path} {c : Component} {stop : Nat} {before after : List (Component × Nat)}

/-- The stretches of a path that is cut off behind a component: all up to that component. -/
theorem segments_cut (read : placed.go 0 p.segments = before ++ (c, stop) :: after) :
    (⟨String.ofList (p.text.toList.take stop)⟩ : Path).segments <+: p.segments ∧
      (⟨String.ofList (p.text.toList.take stop)⟩ : Path).inner = before.map (·.1) ++ [c] ∧
      (p.text.toList.take stop).length = stop ∧
      (⟨String.ofList (p.text.toList.take stop)⟩ : Path).segments.getLast?.bind segment? = some c := by
  obtain ⟨kept, filled, inside, comps, _, text, size, ending⟩ := go_cut read
  rw [intercalate_segments, Nat.sub_zero] at text
  have split : (⟨String.ofList (p.text.toList.take stop)⟩ : Path).segments = kept := by
    rw [segments, String.toList_ofList, text]
    apply List.splitOn_intercalate
    · intro s member
      exact segments_slash_free p (inside.subset member)
    · exact filled
  rw [inner, split, text]
  exact ⟨inside, comps, by simpa using size, ending⟩

theorem opening_cut (read : placed.go 0 p.segments = before ++ (c, stop) :: after) :
    (⟨String.ofList (p.text.toList.take stop)⟩ : Path).opening = p.opening := by
  obtain ⟨inside, _, _, ending⟩ := segments_cut read
  have filled : (⟨String.ofList (p.text.toList.take stop)⟩ : Path).segments ≠ [] :=
    List.splitOn_ne_nil _ _
  have head : (⟨String.ofList (p.text.toList.take stop)⟩ : Path).segments.head? =
      p.segments.head? := by
    obtain ⟨tail, same⟩ := inside
    obtain ⟨first, rest, split⟩ := List.exists_cons_of_ne_nil filled
    rw [← same, split]
    rfl
  have absolute : (⟨String.ofList (p.text.toList.take stop)⟩ : Path).isAbsolute = p.isAbsolute := by
    cases stop with
    | succ n =>
      unfold isAbsolute isAbsoluteText
      rw [String.toList_ofList]
      cases p.text.toList <;> rfl
    | zero =>
      -- An empty stretch has no component.
      rw [List.take_zero] at ending
      cases ending
  rw [opening, opening, absolute, head]

theorem components_cut (read : placed.go 0 p.segments = before ++ (c, stop) :: after) :
    (⟨String.ofList (p.text.toList.take stop)⟩ : Path).components = p.opening ++
      (before.map (·.1) ++ [c]) := by
  rw [components_eq, opening_cut read, (segments_cut read).2.1]

end

theorem placed_eq (p : Path) :
    placed p.text.toList = p.opening.map (·, 1) ++ placed.go 0 p.segments := by
  unfold placed opening isAbsolute segments
  simp only
  split
  · rfl
  · split <;> rfl

theorem placed_of_opening {p : Path} (clear : p.opening = []) :
    placed p.text.toList = placed.go 0 p.segments := by
  rw [placed_eq, clear]
  rfl

theorem opening_length (p : Path) : p.opening.length ≤ 1 := by
  unfold opening
  split
  · exact Nat.le_refl 1
  · split <;> decide

/-- The first character of a path is all of its opening. -/
theorem take_opening {p : Path} {c : Component} (starts : p.opening = [c]) :
    c = .root ∧ p.text.toList.take 1 = ['/'] ∨ c = .current ∧ p.text.toList.take 1 = ['.'] := by
  unfold opening at starts
  split at starts
  · rename_i absolute
    cases starts
    refine Or.inl ⟨rfl, ?_⟩
    rw [List.take_one, show p.text.toList.head? = some '/' by simpa [isAbsolute,
      isAbsoluteText] using absolute]
    rfl
  · split at starts
    · rename_i dot
      cases starts
      obtain ⟨rest, split⟩ := List.head?_eq_some_iff.mp dot
      refine Or.inr ⟨rfl, ?_⟩
      rw [← intercalate_segments, split]
      cases rest <;> simp [List.intercalate_cons_cons]
    · cases starts

theorem components_opening {p : Path} {c : Component} (starts : p.opening = [c]) :
    (⟨String.ofList (p.text.toList.take 1)⟩ : Path).components = [c] := by
  rcases take_opening starts with ⟨rfl, first⟩ | ⟨rfl, first⟩
  · rw [first]
    decide
  · rw [first]
    decide

theorem directory_of_two {p : Path} {front : List (Component × Nat)} {c last : Component}
    {stop stop' : Nat} (read : placed p.text.toList = front ++ [(c, stop), (last, stop')])
    (named : last ≠ .root) : p.directory = ⟨String.ofList (p.text.toList.take stop)⟩ := by
  unfold directory parent?
  rw [read, List.reverse_append]
  cases last with
  | root => exact (named rfl).elim
  | _ => rfl

theorem directory_of_one {p : Path} {rest : List (Component × Nat)}
    (read : placed p.text.toList = rest) (short : rest.length ≤ 1) : p.directory = ⟨""⟩ := by
  unfold directory parent?
  rw [read]
  cases rest with
  | nil => rfl
  | cons entry others =>
    obtain ⟨c, stop⟩ := entry
    cases others with
    | nil => cases c <;> rfl
    | cons other others => simp at short

theorem components_directory (p : Path) : p.directory.components = p.components.dropLast := by
  have empty : (⟨""⟩ : Path).components = [] := by decide
  have whole : p.components = p.opening ++ (placed.go 0 p.segments).map (·.1) := by
    rw [components_eq, go_fst, inner]
  have short := p.opening_length
  have parts := p.placed_eq
  rcases List.eq_nil_or_concat (placed.go 0 p.segments) with none | ⟨front, ⟨last, stop'⟩, read⟩
  · rw [none, List.append_nil] at parts
    rw [directory_of_one parts (by simpa using short), empty, whole, none, List.map_nil,
      List.append_nil]
    exact (List.eq_nil_of_length_eq_zero (by rw [List.length_dropLast]; omega)).symm
  · rw [List.concat_eq_append] at read
    have named : last ≠ .root := by
      refine (inner_ne_root (p := p) ?_).1
      rw [inner, ← go_fst 0, read]
      simp
    rw [whole, read, List.map_append, ← List.append_assoc, List.map_singleton, List.dropLast_concat]
    rcases List.eq_nil_or_concat front with rfl | ⟨before, ⟨c, stop⟩, rfl⟩
    · rw [List.map_nil, List.append_nil]
      cases starts : p.opening with
      | nil =>
        rw [starts, read] at parts
        rw [directory_of_one parts (by simp), empty]
      | cons c others =>
        have done : others = [] := by
          rw [starts] at short
          simpa using short
        subst done
        rw [starts, read] at parts
        have two : placed p.text.toList = [] ++ [(c, 1), (last, stop')] := parts
        rw [directory_of_two two named, components_opening starts]
    · rw [List.concat_eq_append] at read ⊢
      rw [read, List.append_assoc, ← List.append_assoc (p.opening.map _)] at parts
      rw [directory_of_two parts named, components_cut (read.trans (List.append_assoc _ _ _)),
        List.map_append, List.map_singleton]

theorem Spells.directory {p : Path} {names : List String} (spelt : p.Spells names) :
    p.directory.Spells names.dropLast := by
  rw [Spells, components_directory, show p.components = _ from spelt, List.map_dropLast]

theorem Spells.fileName? {p : Path} {names : List String} (spelt : p.Spells names) :
    p.fileName? = names.getLast? := by
  unfold Path.fileName?
  rw [show p.components = _ from spelt, List.getLast?_map]
  cases names.getLast? <;> rfl

theorem Spells.normalNames {p : Path} {names : List String} (spelt : p.Spells names) :
    normalNames p = names := by
  unfold Relocation.normalNames
  rw [show p.components = _ from spelt, List.filterMap_map]
  exact List.filterMap_some

theorem Spells.slash {p : Path} {names : List String} (spelt : p.Spells names) :
    p.slash = "/".intercalate names := by
  unfold Path.slash slashed
  rw [show p.components = _ from spelt, List.filterMap_map]
  exact congrArg _ List.filterMap_some

end Relocation.Path
