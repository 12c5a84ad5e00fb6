import Relocation.Proofs.Path.Cleaning

/-!
# Styles of spelling

`Links` relates the names of a base path to those of the target that it stands for, one case for
each style. `detect?` finds the case from the two paths, for which there is one equivalence a style,
and `render` leads from any other target with the same file name back to a base that is linked to it.
-/

namespace Relocation

def IsExtension (ext : String) : Prop :=
  ext.toList.head? = some '.' ∧ '.' ∉ ext.toList.tail ∧ '/' ∉ ext.toList.tail

instance (ext : String) : Decidable (IsExtension ext) := inferInstanceAs (Decidable (_ ∧ _))

theorem IsExtension.chars {ext : String} (extension : IsExtension ext) :
    ∃ rest, ext.toList = '.' :: rest ∧ '.' ∉ rest ∧ '/' ∉ rest := by
  obtain ⟨head, dots, slashes⟩ := extension
  cases chars : ext.toList with
  | nil => simp [chars] at head
  | cons c rest =>
    simp only [chars, List.head?_cons, Option.some.injEq] at head
    rw [chars] at dots slashes
    exact ⟨rest, by rw [head], dots, slashes⟩

theorem IsExtension.flat {ext : String} (extension : IsExtension ext) : '/' ∉ ext.toList := by
  obtain ⟨rest, chars, _, slashes⟩ := extension.chars
  rw [chars, List.mem_cons, not_or]
  exact ⟨by decide, slashes⟩

def IsDotted (ext : String) : Prop := ext.toList.head? = some '.' ∧ '/' ∉ ext.toList

instance (ext : String) : Decidable (IsDotted ext) := inferInstanceAs (Decidable (_ ∧ _))

theorem IsExtension.dotted {ext : String} (extension : IsExtension ext) : IsDotted ext :=
  ⟨extension.1, extension.flat⟩

theorem IsDotted.filled {ext : String} (dotted : IsDotted ext) : ext ≠ "" := by
  rintro rfl
  cases dotted.1

namespace Path

/-- What cleaning makes of a path with these names. -/
def tidy (names : List String) : Path := if names = [] then ⟨"."⟩ else plain names

theorem tidy_of_ne_nil {names : List String} (filled : names ≠ []) :
    tidy names = plain names := if_neg filled

theorem clean_eq_tidy {p : Path} {names : List String}
    (cleaned : cleanComponents p.components = names.map Component.normal)
    (valid : ∀ name ∈ names, IsName name) : p.clean = tidy names := by
  by_cases filled : names = []
  · subst filled
    exact clean_of_nothing cleaned
  · rw [tidy_of_ne_nil filled, clean_of_names cleaned valid filled]

theorem Spells.clean_tidy {p : Path} {names : List String} (spelt : p.Spells names) :
    p.clean = tidy names := by
  refine clean_eq_tidy ?_ spelt.isName
  rw [show p.components = _ from spelt, cleanComponents_names]

theorem tidy_staysInside {names : List String} (valid : ∀ name ∈ names, IsName name) :
    (tidy names).staysInside = true := by
  cases names with
  | nil => decide
  | cons name rest =>
    rw [tidy_of_ne_nil (by simp), staysInside,
      show (plain (name :: rest)).components = _ from spells_plain valid]
    rfl

theorem slash_tidy {names : List String} (valid : ∀ name ∈ names, IsName name) :
    (tidy names).slash = "/".intercalate names := by
  by_cases filled : names = []
  · subst filled
    decide
  · rw [tidy_of_ne_nil filled, (spells_plain valid).slash]

/-- The cleaned root spells no names, so only a path with names is the same as another spelling. -/
theorem tidy_same_plain {base target : List String} (left : ∀ name ∈ base, IsName name)
    (right : ∀ name ∈ target, IsName name) (filled : target ≠ []) :
    (tidy base).same (plain target) = true ↔ base = target := by
  by_cases empty : base = []
  · subst empty
    have different : (tidy []).components ≠ (plain target).components := by
      rw [show (plain target).components = _ from spells_plain right]
      intro same
      cases target with
      | nil => exact filled rfl
      | cons name rest =>
        have root : (tidy []).components = [.current] := by decide
        rw [root] at same
        simp at same
    exact ⟨fun same => (different (same_iff.mp same)).elim, fun same => (filled same.symm).elim⟩
  · rw [tidy_of_ne_nil empty, same_of_spells (spells_plain left) (spells_plain right)]

theorem tidy_inj {a b : List String} (left : ∀ name ∈ a, IsName name) (right : ∀ name ∈ b, IsName name)
    (same : tidy a = tidy b) : a = b := by
  by_cases empty : a = []
  · by_cases filled : b = []
    · rw [empty, filled]
    · rw [tidy_of_ne_nil filled] at same
      exact (tidy_same_plain left right filled).mp (same_iff.mpr (congrArg components same))
  · rw [tidy_of_ne_nil empty] at same
    exact ((tidy_same_plain right left empty).mp (same_iff.mpr (congrArg components same.symm))).symm

theorem IsName.append {name ext : String} (valid : IsName name) (flat : '/' ∉ ext.toList) :
    IsName (name ++ ext) := by
  obtain ⟨clear, filled, dot, dots⟩ := valid
  cases front : name.toList with
  | nil => exact (filled (String.toList_eq_nil_iff.mp front)).elim
  | cons c cs =>
    have text : (name ++ ext).toList = c :: (cs ++ ext.toList) := by
      rw [String.toList_append, front, List.cons_append]
    refine ⟨?_, ?_, ?_, ?_⟩
    · rw [String.toList_append, List.mem_append, not_or]
      exact ⟨clear, flat⟩
    · intro same
      simp [same] at text
    · intro same
      simp only [same, String.reduceToList, List.cons.injEq] at text
      have nothing := List.append_eq_nil_iff.mp text.2.symm
      exact dot (String.toList_inj.mp (by rw [front, nothing.1, ← text.1]; rfl))
    · intro same
      simp only [same, String.reduceToList, List.cons.injEq] at text
      rcases List.append_eq_singleton_iff.mp text.2.symm with ⟨nothing, _⟩ | ⟨more, _⟩
      · exact dot (String.toList_inj.mp (by rw [front, nothing, ← text.1]; rfl))
      · exact dots (String.toList_inj.mp (by rw [front, more, ← text.1]; rfl))

theorem index_isName {ext : String} (flat : '/' ∉ ext.toList) : IsName ("index" ++ ext) :=
  IsName.append (by decide) flat

theorem text_append (front : List String) (last ext : String) :
    (plain (front ++ [last])).text ++ ext = (plain (front ++ [last ++ ext])).text := by
  by_cases filled : front = []
  · subst filled
    simp [plain]
  · rw [text_plain_append filled (by simp), text_plain_append filled (by simp), plain_singleton,
      plain_singleton, String.append_assoc]

/-! ### Splitting file names -/

theorem splitName_append {stem rest : List Char} (filled : stem ≠ []) (dots : '.' ∉ rest) :
    splitName (stem ++ '.' :: rest) = (stem, some rest) := by
  have apart : ∀ c ∈ rest.reverse, (decide (c ≠ '.')) = true := by
    intro c member
    simpa using fun (same : c = '.') => dots (same ▸ List.mem_reverse.mp member)
  have turned : (stem ++ '.' :: rest).reverse = rest.reverse ++ '.' :: stem.reverse := by simp
  unfold splitName
  simp only [turned, List.takeWhile_append_of_pos apart, List.dropWhile_append_of_pos apart]
  simp only [ne_eq, not_true_eq_false, decide_false, Bool.false_eq_true, not_false_eq_true,
    List.takeWhile_cons_of_neg, List.append_nil, List.reverse_reverse, List.dropWhile_cons_of_neg,
    List.reverse_cons, List.dropLast_concat]

/-- The stem is the whole name or what stands before its last dot. -/
theorem splitName_cases (name : List Char) :
    (splitName name).1 = name ∨ (splitName name).1 ≠ [] ∧ ∃ rest, '.' ∉ rest ∧
    name = (splitName name).1 ++ '.' :: rest := by
  have halves : (name.reverse.takeWhile (· ≠ '.')) ++ name.reverse.dropWhile (· ≠ '.') =
      name.reverse :=
    List.takeWhile_append_dropWhile
  unfold splitName
  simp only
  cases tail : name.reverse.dropWhile (· ≠ '.') with
  | nil => exact Or.inl rfl
  | cons c rest =>
    have dot : c = '.' := by
      have first := List.head?_dropWhile_not (fun c => decide (c ≠ '.')) name.reverse
      rw [tail] at first
      simpa using first
    rw [List.reverse_cons, List.dropLast_concat]
    rw [tail, dot] at halves
    have whole : name = rest.reverse ++ '.' :: (name.reverse.takeWhile (· ≠ '.')).reverse := by
      simpa using (congrArg List.reverse halves).symm
    split
    · exact Or.inl rfl
    · rename_i filled
      refine Or.inr ⟨fun empty => filled empty, _, fun member => ?_, whole⟩
      simpa using List.all_eq_true.mp List.all_takeWhile _ (List.mem_reverse.mp member)

def stemOf (name : String) : String := String.ofList (splitName name.toList).1

theorem toList_stemOf (name : String) :
    (stemOf name).toList = (splitName name.toList).1 := String.toList_ofList

theorem stemOf_start (name : String) : (stemOf name).toList <+: name.toList := by
  rw [toList_stemOf]
  rcases splitName_cases name.toList with same | ⟨_, rest, _, same⟩
  · exact ⟨[], by rw [same, List.append_nil]⟩
  · exact ⟨'.' :: rest, same.symm⟩

/-- Only a name that starts with two dots can lose its meaning without its extension. -/
theorem stemOf_isName {name : String} (valid : IsName name) (undotted : ¬ ['.', '.'] <+: name.toList) :
    IsName (stemOf name) := by
  have front := stemOf_start name
  rcases splitName_cases name.toList with same | ⟨filled, rest, _, same⟩
  · have whole : stemOf name = name := String.toList_inj.mp ((toList_stemOf name).trans same)
    rwa [whole]
  · rw [← toList_stemOf] at filled same
    refine ⟨fun slash => valid.1 (front.subset slash), ?_, ?_, ?_⟩
    · exact fun empty => filled (String.toList_eq_nil_iff.mpr empty)
    · intro dot
      rw [dot] at same
      exact undotted ⟨rest, same.symm⟩
    · intro dots
      rw [dots] at front
      exact undotted front

/-- An extension is taken off whole unless it has a second dot. -/
theorem stemOf_append_iff {stem ext : String} (filled : stem ≠ "") (dotted : IsDotted ext) :
    stemOf (stem ++ ext) = stem ↔ '.' ∉ ext.toList.tail := by
  obtain ⟨tail, chars⟩ := List.head?_eq_some_iff.mp dotted.1
  have front : stem.toList ≠ [] := fun empty => filled (String.toList_eq_nil_iff.mp empty)
  rw [← String.toList_inj, toList_stemOf, String.toList_append, chars, List.tail_cons]
  constructor
  · intro short
    rcases splitName_cases (stem.toList ++ '.' :: tail) with same | ⟨_, rest, single, same⟩
    · rw [short] at same
      simp at same
    · rw [short] at same
      have tails := List.append_cancel_left same
      rw [(List.cons.inj tails).2]
      exact single
  · intro single
    rw [splitName_append front single]

/-- Changing the last stretch of a path to a name leaves what stands before it. -/
theorem Spells.change_last {p q : Path} {front : List (List Char)} {old new : String}
    {names : List String} {rest : List (List Char)} (clear : p.opening = [])
    (before : p.segments = front ++ old.toList :: rest)
    (spelt : front.filterMap segment? = names.map Component.normal)
    (after : q.segments = front ++ [new.toList])
    (valid : IsName new) : q.Spells (names ++ [new]) := by
  refine spells_iff.mpr ⟨?_, ?_⟩
  · cases front with
    | nil => exact opening_eq_nil after valid.toList_ne.1 valid.toList_ne.2
    | cons first others =>
      refine opening_eq_nil after ?_ ?_
      · rintro rfl
        have absolute : p.isAbsolute = true := by
          unfold isAbsolute isAbsoluteText
          rw [← intercalate_segments, before, List.cons_append, List.intercalate_cons_of_ne_nil
            (by simp)]
          rfl
        rw [opening, if_pos absolute] at clear
        cases clear
      · rintro rfl
        unfold opening at clear
        rw [before] at clear
        split at clear
        · cases clear
        · simp at clear
  · rw [Path.inner, after, List.filterMap_append, spelt, List.map_append, List.filterMap_cons,
      segment?_name valid]
    rfl

/-- The extension is cut off the last stretch that counts, and what follows is cut off with it. -/
theorem Spells.segments_withoutExtension {p : Path} {names : List String} {name : String}
    (spelt : p.Spells (names ++ [name])) : ∃ front rest, p.segments = front ++ name.toList :: rest ∧
      front.filterMap segment? = names.map Component.normal ∧
      p.withoutExtension.segments = front ++ [(stemOf name).toList] := by
  have clear := (spells_iff.mp spelt).1
  have comps : (placed.go 0 p.segments).map (·.1) = (names ++ [name]).map Component.normal := by
    rw [go_fst]
    exact spelt.inner
  obtain ⟨before, entries, parts, beforeComps, entryComps⟩ := List.map_eq_append_iff.mp
    (comps.trans List.map_append)
  obtain ⟨⟨c, stop⟩, rest, rfl, head, tail⟩ := List.map_eq_cons_iff.mp entryComps
  rw [List.map_eq_nil_iff.mp tail] at parts
  obtain ⟨kept, filled, inside, keptComps, _, text, size, ending⟩ := go_cut parts
  obtain ⟨front, last, rfl⟩ := (List.eq_nil_or_concat kept).resolve_left filled
  rw [List.concat_eq_append] at inside keptComps text size ending
  simp only [List.getLast?_concat, Option.bind_some] at ending
  rw [show c = .normal name from head] at ending keptComps
  obtain ⟨rfl, _⟩ := segment?_normal (segments_slash_free p (inside.subset (by simp))) ending
  rw [List.filterMap_append, List.filterMap_cons, ending, beforeComps] at keptComps
  have frontComps := List.append_cancel_right keptComps
  obtain ⟨more, joined⟩ := inside
  have parted : p.segments = front ++ name.toList :: more := by rw [← joined, List.append_assoc]; rfl
  -- The cut falls into the last stretch, behind its stem.
  have cut : p.text.toList.take (stop - (name.toList.length - (stemOf name).toList.length)) =
      ['/'].intercalate (front ++ [(stemOf name).toList]) := by
    have short := (stemOf_start name).length_le
    rw [intercalate_segments, Nat.sub_zero] at text
    rw [Nat.sub_zero, intercalate_concat, List.length_append] at size
    have left : stop - (name.toList.length - (stemOf name).toList.length) -
        (front.flatMap fun s => s ++ ['/']).length = (stemOf name).toList.length := by omega
    calc p.text.toList.take (stop - (name.toList.length - (stemOf name).toList.length))
        = (p.text.toList.take stop).take
          (stop - (name.toList.length - (stemOf name).toList.length)) := by
          rw [List.take_take, Nat.min_eq_left (Nat.sub_le _ _)]
      _ = (front.flatMap fun s => s ++ ['/']) ++ (stemOf name).toList := by
          rw [text, intercalate_concat, List.take_append, List.take_of_length_le (by omega), left,
            ← List.prefix_iff_eq_take.mp (stemOf_start name)]
      _ = ['/'].intercalate (front ++ [(stemOf name).toList]) := (intercalate_concat _ _ _).symm
  have path : p.withoutExtension =
      ⟨String.ofList (['/'].intercalate (front ++ [(stemOf name).toList]))⟩ := by
    unfold Path.withoutExtension
    rw [spelt.fileName?, List.getLast?_concat, placed_of_opening clear, parts, List.getLast?_concat]
    simp only
    rw [← toList_stemOf, cut]
  refine ⟨front, more, parted, frontComps, ?_⟩
  rw [path, Path.segments, String.toList_ofList]
  apply List.splitOn_intercalate
  · intro s member
    rcases List.mem_append.mp member with old | new
    · exact segments_slash_free p (by rw [parted]; exact List.mem_append_left _ old)
    · rw [List.mem_singleton.mp new]
      exact fun slash => (spelt.isName name (by simp)).1 ((stemOf_start name).subset slash)
  · simp

theorem Spells.withoutExtension {p : Path} {names : List String} {name : String}
    (spelt : p.Spells (names ++ [name])) (valid : IsName (stemOf name)) :
    p.withoutExtension.Spells (names ++ [stemOf name]) := by
  obtain ⟨front, rest, parted, comps, cut⟩ := spelt.segments_withoutExtension
  exact Spells.change_last (spells_iff.mp spelt).1 parted comps cut valid

end Path

namespace SpecifierStyle

/-- The style in which base names stand for target names. -/
inductive Links (extensions : List String) : SpecifierStyle → List String → List String → Prop where
  | explicit {names : List String} (filled : names ≠ []) : Links extensions .explicit names names
  | extensionless {front : List String} {last ext : String} (known : ext ∈ extensions) :
    Links extensions (.extensionless ext) (front ++ [last]) (front ++ [last ++ ext])
  | directoryIndex {front : List String} {ext : String} (known : ext ∈ extensions) :
    Links extensions .directoryIndex front (front ++ ["index" ++ ext])

variable {extensions : List String} {style : SpecifierStyle} {base target : List String} {b t : Path}

theorem Links.filled (links : Links extensions style base target) : target ≠ [] := by
  cases links with
  | explicit filled => exact filled
  | extensionless => simp
  | directoryIndex => simp

theorem withoutTail?_eq_some {ext s b : String} : withoutTail? ext s = some b ↔ s = b ++ ext := by
  unfold withoutTail? Text.dropTail? Text.dropLead?
  rw [← String.toList_inj, String.toList_append]
  constructor
  · intro found
    split at found
    · rename_i tail
      obtain ⟨front, whole⟩ := List.reverse_prefix.mp (List.isPrefixOf_iff_prefix.mp tail)
      simp only [Option.map_some, Option.some.injEq] at found
      rw [← found, String.toList_ofList, ← whole]
      simp
    · cases found
  · intro whole
    have tail : ext.toList.reverse.isPrefixOf s.toList.reverse = true := by
      rw [List.isPrefixOf_iff_prefix, List.reverse_prefix]
      exact ⟨b.toList, whole.symm⟩
    rw [if_pos tail, whole]
    simp

theorem text_slash (names : List String) : "/".intercalate names = (Path.plain names).text := rfl

/-- Only the right extension can be taken off. -/
theorem find?_extension {ext b : String} (known : ext ∈ extensions) :
    (extensions.find? fun other => withoutTail? other (b ++ ext) = some b) = some ext := by
  cases found : extensions.find? fun other => withoutTail? other (b ++ ext) = some b with
  | none =>
    have missed := List.find?_eq_none.mp found ext known
    simp [withoutTail?_eq_some] at missed
  | some other =>
    have fits := List.find?_some found
    simp only [withoutTail?_eq_some, decide_eq_true_eq] at fits
    rw [String.append_right_inj] at fits
    rw [fits]

/-- What lies in a directory is the directory with an extension added only where the extension is
the whole name. -/
theorem extension_below {name ext : String} (flat : '/' ∉ ext.toList)
    (text : "/".intercalate (base ++ [name]) = "/".intercalate base ++ ext) :
    base = [] ∧ name = ext := by
  by_cases filled : base = []
  · subst filled
    exact ⟨rfl, by simpa using text⟩
  · rw [text_slash, text_slash, Path.text_plain_append filled (by simp), Path.plain_singleton,
      String.append_assoc, String.append_right_inj] at text
    refine (flat ?_).elim
    rw [← text]
    simp

/-! ### When each style is found -/

section
variable (left : b.Spells base) (right : t.Spells target)
include left right

theorem detect?_explicit_iff : detect? b t extensions = some .explicit ↔ base = target := by
  rw [← Path.same_of_spells left right]
  unfold detect?
  split
  · rename_i same
    exact iff_of_true rfl same
  · rename_i different
    refine iff_of_false (fun found => ?_) different
    split at found
    · cases found
    · simp at found

theorem detect?_extensionless_iff (dotted : ∀ ext ∈ extensions, IsDotted ext) {ext : String} :
    detect? b t extensions = some (.extensionless ext) ↔ ext ∈ extensions ∧
    t.slash = b.slash ++ ext := by
  unfold detect?
  constructor
  · intro found
    split at found
    · cases found
    · split at found
      · rename_i other taken
        cases found
        refine ⟨List.mem_of_find?_eq_some taken, ?_⟩
        simpa [withoutTail?_eq_some] using List.find?_some taken
      · simp at found
  · rintro ⟨known, text⟩
    have different : b.same t = false := by
      rw [← Bool.not_eq_true, Path.same_of_spells left right]
      rintro rfl
      rw [left.slash, right.slash] at text
      exact (dotted ext known).filled (String.append_eq_left_iff.mp text.symm)
    rw [different, text, find?_extension known]
    rfl

theorem detect?_directoryIndex_iff (dotted : ∀ ext ∈ extensions, IsDotted ext) :
    detect? b t extensions = some .directoryIndex ↔
      ∃ name, target = base ++ [name] ∧ Path.stemOf name = "index" := by
  have root : b.same ⟨"."⟩ = false := by
    rw [← Bool.not_eq_true, left.same_iff, Path.Spells,
      show (⟨"."⟩ : Path).components = [.current] by decide]
    cases base <;> simp
  have parent := right.directory
  constructor
  · intro found
    unfold detect? at found
    split at found
    · cases found
    · split at found
      · cases found
      · simp only [root, Bool.false_eq_true, if_false] at found
        obtain ⟨index, _⟩ := Option.ite_none_right_eq_some.mp found
        rw [Bool.and_eq_true, decide_eq_true_eq, Path.same_of_spells parent left] at index
        obtain ⟨stem, above⟩ := index
        rw [Path.stem?, right.fileName?] at stem
        obtain ⟨name, last, index⟩ := Option.map_eq_some_iff.mp stem
        obtain ⟨front, rfl⟩ := List.getLast?_eq_some_iff.mp last
        rw [List.dropLast_concat] at above
        exact ⟨name, by rw [above], index⟩
  · rintro ⟨name, rfl, index⟩
    have first : name.toList.head? = some 'i' := by
      obtain ⟨rest, chars⟩ := Path.stemOf_start name
      rw [← chars, index]
      rfl
    have unlike : (extensions.find? fun ext => withoutTail? ext t.slash = some b.slash) = none := by
      refine List.find?_eq_none.mpr fun ext known => ?_
      rw [decide_eq_true_eq, withoutTail?_eq_some, left.slash, right.slash]
      intro text
      obtain ⟨_, rfl⟩ := extension_below (dotted ext known).2 text
      rw [(dotted name known).1] at first
      cases first
    have different : b.same t = false := by
      rw [← Bool.not_eq_true, Path.same_of_spells left right]
      simp
    rw [List.dropLast_concat] at parent
    have held : t.directory.same b = true := (Path.same_of_spells parent left).mpr rfl
    have named : t.stem? = some "index" := by
      rw [Path.stem?, right.fileName?, List.getLast?_concat, Option.map_some]
      exact congrArg some index
    unfold detect?
    rw [different, unlike]
    simp [root, held, named]

end

theorem detect?_root (right : t.Spells target) (filled : target ≠ []) :
    detect? ⟨"."⟩ t extensions = detect? ⟨""⟩ t extensions := by
  have current : (⟨"."⟩ : Path).same t = false := by
    rw [← Bool.not_eq_true, Path.same_iff, show t.components = _ from right,
      show (⟨"."⟩ : Path).components = [.current] by decide]
    cases target <;> simp
  have empty : (⟨""⟩ : Path).same t = false := by
    rw [← Bool.not_eq_true, Path.same_of_spells (show (⟨""⟩ : Path).Spells [] by decide) right]
    exact filled.symm
  unfold detect?
  rw [current, empty,
    show (⟨"."⟩ : Path).slash = "" by decide, show (⟨""⟩ : Path).slash = "" by decide]
  rfl

theorem detect?_tidy (right : t.Spells target) (filled : target ≠ []) (base : List String) :
    detect? (Path.tidy base) t extensions = detect? (Path.plain base) t extensions := by
  by_cases top : base = []
  · subst top
    exact detect?_root right filled
  · rw [Path.tidy_of_ne_nil top]

theorem detect?_links (extension : ∀ ext ∈ extensions, IsExtension ext)
    (left : ∀ name ∈ base, Path.IsName name) (right : ∀ name ∈ target, Path.IsName name)
    (links : Links extensions style base target) :
    detect? (Path.tidy base) (Path.plain target) extensions = some style := by
  have spelt := Path.spells_plain left
  have spelt' := Path.spells_plain right
  have dotted : ∀ ext ∈ extensions, IsDotted ext := fun ext known => (extension ext known).dotted
  rw [detect?_tidy spelt' links.filled]
  cases links with
  | explicit => exact (detect?_explicit_iff spelt spelt').mpr rfl
  | extensionless known =>
    refine (detect?_extensionless_iff spelt spelt' dotted).mpr ⟨known, ?_⟩
    rw [spelt.slash, spelt'.slash, text_slash, text_slash, Path.text_append]
  | directoryIndex known =>
    refine (detect?_directoryIndex_iff spelt spelt' dotted).mpr ⟨_, rfl, ?_⟩
    exact (Path.stemOf_append_iff (by decide) (dotted _ known)).mpr (extension _ known).2.1

theorem render_extensionless {p : Path} {outer : List String} {last ext : String}
    (spelt : p.Spells (outer ++ [last ++ ext])) (proper : Path.IsName last) :
    (render (.extensionless ext) p).Spells (outer ++ [last]) := by
  have cut : withoutTail? ext p.slash = some (Path.plain (outer ++ [last])).text := by
    rw [withoutTail?_eq_some, spelt.slash, Path.text_append]
    rfl
  rw [render, cut]
  apply Path.spells_plain
  intro name member
  rcases List.mem_append.mp member with old | new
  · exact spelt.isName name (List.mem_append_left _ old)
  · rwa [List.mem_singleton.mp new]

/-- Another target of the same file name has a base in the same style. -/
theorem render_links (left : ∀ name ∈ base, Path.IsName name)
    (links : Links extensions style base target) {p : Path}
    {moved : List String} (spelt : p.Spells moved) (named : moved.getLast? = target.getLast?) :
    ∃ names, Links extensions style names moved ∧ (style.render p).Spells names ∧
      ∀ name ∈ names, ∃ whole ∈ moved, name.toList <+: whole.toList := by
  cases links with
  | explicit filled =>
    have nonempty : moved ≠ [] := by
      rintro rfl
      exact filled (List.getLast?_eq_none_iff.mp named.symm)
    exact ⟨moved, .explicit nonempty, spelt, fun name member => ⟨name, member, List.prefix_rfl⟩⟩
  | @extensionless front last ext known =>
    rw [List.getLast?_concat] at named
    obtain ⟨outer, rfl⟩ := List.getLast?_eq_some_iff.mp named
    refine ⟨outer ++ [last], .extensionless known, render_extensionless spelt
      (left last (by simp)), ?_⟩
    intro name member
    rcases List.mem_append.mp member with old | new
    · exact ⟨name, List.mem_append_left _ old, List.prefix_rfl⟩
    · refine ⟨last ++ ext, by simp, ?_⟩
      rw [List.mem_singleton.mp new, String.toList_append]
      exact List.prefix_append _ _
  | directoryIndex known =>
    rw [List.getLast?_concat] at named
    obtain ⟨outer, rfl⟩ := List.getLast?_eq_some_iff.mp named
    have parent := spelt.directory
    rw [List.dropLast_concat] at parent
    exact ⟨outer, .directoryIndex known, parent, fun name member =>
      ⟨name, List.mem_append_left _ member, List.prefix_rfl⟩⟩

end SpecifierStyle

end Relocation
