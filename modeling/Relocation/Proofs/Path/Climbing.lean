import Mathlib.Data.List.Infix
import Relocation.Proofs.Path.Spelling

/-!
# Going up a path

`parent?` cuts a path off right behind a component, so that nothing is left at its end that stands
for none (`IsTrim`). Going up takes the components off one by one, whatever stands between them, and
what `relativeTo?` leaves spells the names that are below.
-/

namespace Relocation.Path

variable {p q : Path}

/-! ### Cutting -/

def IsTrim (p : Path) :
    Prop := ∀ entry ∈ (placed p.text.toList).getLast?, entry.2 = p.text.toList.length

theorem go_append (offset : Nat) (a b : List (List Char)) :
    ∃ offset', placed.go offset (a ++ b) = placed.go offset a ++ placed.go offset' b := by
  induction a generalizing offset with
  | nil => exact ⟨offset, rfl⟩
  | cons s rest ih =>
    obtain ⟨offset', same⟩ := ih (offset + s.length + 1)
    refine ⟨offset', ?_⟩
    rw [List.cons_append, placed.go, same, placed.go, List.append_assoc]

theorem go_take {c : Component} {stop : Nat} {before after : List (Component × Nat)}
    (read : placed.go 0 p.segments = before ++ (c, stop) :: after) :
    placed (p.text.toList.take stop) = p.opening.map (·, 1) ++ (before ++ [(c, stop)]) := by
  obtain ⟨⟨rest, whole⟩, comps, _, _⟩ := segments_cut read
  obtain ⟨offset, parts⟩ :=
    go_append 0 (⟨String.ofList (p.text.toList.take stop)⟩ : Path).segments rest
  rw [whole, read, ← List.singleton_append, ← List.append_assoc] at parts
  have count : (before ++ [(c, stop)]).length =
      (placed.go 0 (⟨String.ofList (p.text.toList.take stop)⟩ : Path).segments).length := by
    have read := congrArg List.length
      (go_fst 0 (⟨String.ofList (p.text.toList.take stop)⟩ : Path).segments)
    rw [← inner, comps, List.length_map, List.length_append, List.length_map] at read
    rw [read, List.length_append]
    rfl
  have cut := placed_eq ⟨String.ofList (p.text.toList.take stop)⟩
  rw [String.toList_ofList] at cut
  rw [cut, opening_cut read, (List.append_inj parts count).1]

theorem placed_take {c : Component} {stop : Nat} {front back : List (Component × Nat)}
    (read : placed p.text.toList = front ++ (c, stop) :: back) :
    placed (p.text.toList.take stop) = front ++ [(c, stop)] ∧
    (p.text.toList.take stop).length = stop := by
  rw [placed_eq] at read
  rcases List.append_eq_append_iff.mp read with ⟨before, rfl, inside⟩ | ⟨start, opened, others⟩
  · rw [go_take inside, List.append_assoc]
    exact ⟨rfl, (segments_cut inside).2.2.1⟩
  · cases start with
    | nil =>
      have inside : placed.go 0 p.segments = [] ++ (c, stop) :: back := others.symm
      rw [List.append_nil] at opened
      rw [go_take inside, opened]
      exact ⟨rfl, (segments_cut inside).2.2.1⟩
    | cons entry start =>
      -- The cut is behind the opening, which is one character.
      have short := p.opening_length
      have count := congrArg List.length opened
      rw [List.length_map, List.length_append, List.length_cons] at count
      obtain rfl : front = [] := List.eq_nil_of_length_eq_zero (by omega)
      obtain rfl : start = [] := List.eq_nil_of_length_eq_zero (by omega)
      obtain ⟨first, rest, starts, named, done⟩ := List.map_eq_cons_iff.mp opened
      cases named.trans (List.cons.inj others).1.symm
      rw [List.map_eq_nil_iff.mp done] at starts
      rcases take_opening starts with ⟨rfl, first⟩ | ⟨rfl, first⟩
      · rw [first]
        decide
      · rw [first]
        decide

/-! ### The path above -/

theorem parent?_cases (found : p.parent? = some q) :
    (∃ entry, placed p.text.toList = [entry]) ∧ q = ⟨""⟩ ∨
      ∃ front c stop last, placed p.text.toList = front ++ (c, stop) :: [last] ∧
        q = ⟨String.ofList (p.text.toList.take stop)⟩ := by
  unfold parent? at found
  split at found
  · cases found
  · cases found
  · rename_i entry _ read
    cases found
    exact Or.inl ⟨⟨entry, by simpa using congrArg List.reverse read⟩, rfl⟩
  · rename_i last c stop rest _ read
    cases found
    refine Or.inr ⟨rest.reverse, c, stop, last, ?_, rfl⟩
    simpa using congrArg List.reverse read

theorem parent?_components (found : p.parent? = some q) :
    p.components ≠ [] ∧ q.components = p.components.dropLast := by
  have above : p.directory = q := by rw [directory, found]; rfl
  refine ⟨?_, by rw [← above, components_directory]⟩
  rw [components]
  rcases parent?_cases found with ⟨⟨entry, read⟩, _⟩ | ⟨front, c, stop, last, read, _⟩
  · simp [read]
  · simp [read]

theorem parent?_trim (found : p.parent? = some q) : q.IsTrim := by
  rcases parent?_cases found with ⟨_, rfl⟩ | ⟨front, c, stop, last, read, rfl⟩
  · exact fun entry member => by cases member
  · intro entry member
    obtain ⟨placed, length⟩ := placed_take read
    rw [String.toList_ofList] at member ⊢
    rw [placed, List.getLast?_concat] at member
    cases member
    exact length.symm

theorem parent?_none (none : p.parent? = none) : p.components = [] ∨ p.components = [.root] := by
  unfold parent? at none
  split at none
  · rename_i read
    exact Or.inl (by rw [components, List.reverse_eq_nil_iff.mp read]; rfl)
  · rename_i stop rest read
    -- A root comes first, so it is all there is.
    have last : p.components.getLast? = some .root := by
      rw [components, List.getLast?_map, ← List.head?_reverse, read]
      rfl
    have nothing : p.inner = [] := by
      rcases List.eq_nil_or_concat p.inner with nothing | ⟨front, c, split⟩
      · exact nothing
      · rw [components_eq, split, List.concat_eq_append, ← List.append_assoc, List.getLast?_concat]
          at last
        exact ((inner_ne_root (p := p) (by rw [split]; simp)).1 (Option.some.inj last)).elim
    have short := p.opening_length
    rw [components_eq, nothing, List.append_nil] at last ⊢
    obtain ⟨front, whole⟩ := List.getLast?_eq_some_iff.mp last
    rw [whole, List.length_append] at short
    rw [whole, List.eq_nil_of_length_eq_zero (show front.length = 0 by simpa using short)]
    exact Or.inr rfl
  · cases none
  · cases none

theorem exists_parent? {cs : List Component} {name : String}
    (comps : p.components = cs ++ [.normal name]) :
    ∃ q, p.parent? = some q ∧ q.components = cs ∧ q.IsTrim := by
  cases found : p.parent? with
  | none =>
    have last : p.components.getLast? = some (.normal name) := by rw [comps, List.getLast?_concat]
    rcases parent?_none found with empty | root
    · rw [empty] at last
      cases last
    · rw [root] at last
      cases last
  | some q =>
    refine ⟨q, rfl, ?_, parent?_trim found⟩
    rw [(parent?_components found).2, comps, List.dropLast_concat]

theorem ancestors_trim (trim : p.IsTrim) : ∀ q ∈ p.ancestors, q.IsTrim := by
  have climb : ∀ (depth : Nat) (p : Path), p.IsTrim → ∀ q ∈ ancestors.go depth p, q.IsTrim := by
    intro depth
    induction depth with
    | zero => exact fun p _ q member => by cases member
    | succ depth ih =>
      intro p trim q member
      rw [ancestors.go] at member
      rcases List.mem_cons.mp member with rfl | above
      · exact trim
      · cases found : p.parent? with
        | none => rw [found] at above; cases above
        | some outer => rw [found] at above; exact ih outer (parent?_trim found) q above
  exact climb _ p trim

/-- Going up visits every beginning of the components once, as far as they are below another path. -/
theorem filter_ancestors {base : Path} (based : base.components ≠ []) (p : Path) :
    (p.ancestors.filter (·.startsWith base)).map components =
      (p.components.inits.filter base.components.isPrefixOf).reverse := by
  have nothing : base.components.isPrefixOf [] = false := by
    cases split : base.components with
    | nil => exact (based split).elim
    | cons c cs => rfl
  have climb : ∀ (depth : Nat) (p : Path), p.components.length < depth →
      ((ancestors.go depth p).map components).filter base.components.isPrefixOf =
        p.components.inits.reverse.filter base.components.isPrefixOf := by
    intro depth
    induction depth with
    | zero => intro p enough; cases enough
    | succ depth ih =>
      intro p enough
      rw [ancestors.go]
      cases found : p.parent? with
      | none =>
        rcases parent?_none found with empty | root
        · simp [empty]
        · simp [root, List.filter_cons, nothing]
      | some outer =>
        obtain ⟨filled, above⟩ := parent?_components found
        obtain ⟨front, c, split⟩ := (List.eq_nil_or_concat p.components).resolve_left filled
        rw [split, List.concat_eq_append, List.dropLast_concat] at above
        rw [split, List.concat_eq_append, List.length_append] at enough
        have rest := ih outer (by rw [above]; exact Nat.lt_of_succ_lt_succ enough)
        have steps : (front ++ [c]).inits.reverse = (front ++ [c]) :: front.inits.reverse := by
          rw [List.inits_append]
          simp
        simp only
        rw [split, List.concat_eq_append, steps, List.map_cons, List.filter_cons, List.filter_cons,
          rest, above, split, List.concat_eq_append]
  have whole := climb _ p (Nat.lt_succ_self _)
  rw [← List.filter_reverse, ← whole, List.filter_map]
  rfl

/-! ### Texts without an end to drop -/

theorem text_of_components_nil (none : p.components = []) : p.text = "" := by
  rw [components_eq, List.append_eq_nil_iff] at none
  obtain ⟨closed, empty⟩ := none
  unfold opening at closed
  split at closed
  · cases closed
  · rename_i relative
    split at closed
    · cases closed
    · rename_i plain
      obtain ⟨s, rest, split⟩ := List.exists_cons_of_ne_nil (List.splitOn_ne_nil '/' p.text.toList)
      have split : p.segments = s :: rest := split
      have silent := List.filterMap_eq_nil_iff.mp empty s (by rw [split]; exact List.mem_cons_self)
      have text := p.intercalate_segments
      rw [split] at plain text
      have blank : s = [] := by
        unfold segment? at silent
        split at silent
        · rename_i blank
          exact blank.resolve_right fun dot => plain (by rw [dot]; rfl)
        · split at silent <;> cases silent
      subst blank
      cases rest with
      | nil => exact String.toList_eq_nil_iff.mp text.symm
      | cons t rest =>
        rw [List.intercalate_cons_cons] at text
        exact (relative (by rw [isAbsolute, ← text]; rfl)).elim

theorem components_eq_nil : p.components = [] ↔ p.text = "" := by
  constructor
  · exact text_of_components_nil
  · intro empty
    rw [show p = ⟨""⟩ from congrArg Path.mk empty]
    decide

/-- A text that ends with its last component is a slash, a dot, or ends in a stretch that is a
component. -/
theorem trim_cases (trim : p.IsTrim) (filled : p.text ≠ "") :
    p.text = "/" ∨ p.text = "." ∨ ∃ c, p.segments.getLast?.bind segment? = some c := by
  unfold IsTrim at trim
  rw [placed_eq] at trim
  rcases List.eq_nil_or_concat (placed.go 0 p.segments) with nothing | ⟨before, ⟨c, stop⟩, read⟩
  · rw [nothing, List.append_nil] at trim
    have comps : p.components = p.opening := by rw [components_eq, inner, ← go_fst 0, nothing]; simp
    cases starts : p.opening with
    | nil => exact (filled (text_of_components_nil (comps.trans starts))).elim
    | cons c others =>
      have short := p.opening_length
      rw [starts, List.length_cons] at short
      obtain rfl : others = [] := List.eq_nil_of_length_eq_zero (by omega)
      have length := trim (c, 1) (by rw [starts]; rfl)
      have first : p.text.toList.take 1 = p.text.toList := List.take_of_length_le (by rw [← length])
      rcases take_opening starts with ⟨_, same⟩ | ⟨_, same⟩
      · exact Or.inl (String.toList_inj.mp (first.symm.trans same))
      · exact Or.inr (Or.inl (String.toList_inj.mp (first.symm.trans same)))
  · rw [List.concat_eq_append] at read
    have length := trim (c, stop) (by rw [read, ← List.append_assoc, List.getLast?_concat]; rfl)
    have ending := (segments_cut read).2.2.2
    have whole : p.text.toList.take stop = p.text.toList :=
      List.take_of_length_le (Nat.le_of_eq length.symm)
    rw [whole, String.ofList_toList] at ending
    exact Or.inr (Or.inr ⟨c, ending⟩)

/-! ### The rest below another path -/

/-- The text from a name on, and where its components stand. -/
theorem go_from {segments : List (List Char)} {offset stop : Nat} {name : String}
    {before after : List (Component × Nat)} (clear : ∀ s ∈ segments, '/' ∉ s)
    (read : placed.go offset segments = before ++ (.normal name, stop) :: after) :
    IsName name ∧ ∃ start back, stop = offset + start + name.toList.length ∧
    name.toList :: back <:+ segments ∧
      placed.go (offset + start) (name.toList :: back) = (.normal name, stop) :: after ∧
      (['/'].intercalate segments).drop start = ['/'].intercalate (name.toList :: back) := by
  induction segments generalizing offset before with
  | nil => simp [placed.go] at read
  | cons s rest ih =>
    -- The name stands behind `s`.
    have later : ∀ {others}, placed.go (offset + s.length + 1) rest = others ++
        (.normal name, stop) :: after →
        IsName name ∧ ∃ start back, stop = offset + start + name.toList.length ∧
        name.toList :: back <:+ s :: rest ∧
          placed.go (offset + start) (name.toList :: back) = (.normal name, stop) :: after ∧
          (['/'].intercalate (s :: rest)).drop start = ['/'].intercalate (name.toList :: back) := by
      intro others tail
      obtain ⟨proper, start, back, position, inside, entries, text⟩ :=
        ih (fun t member => clear t (List.mem_cons_of_mem _ member)) tail
      have nonempty : rest ≠ [] := by
        rintro rfl
        simp at inside
      refine ⟨proper, s.length + 1 + start,
        back, by omega, inside.trans (List.suffix_cons _ _), ?_, ?_⟩
      · rw [← entries]
        congr 1
        omega
      · rw [List.intercalate_cons_of_ne_nil nonempty, List.append_assoc, ← text, List.singleton_append,
          show s.length + 1 + start = s.length + (start + 1) by
          omega, ← List.drop_drop, List.drop_left,
          List.drop_succ_cons]
    have read' := read
    rw [placed.go] at read'
    cases found : segment? s with
    | none =>
      simp only [found, Option.map_none, Option.toList_none, List.nil_append] at read'
      exact later read'
    | some first =>
      simp only [found, Option.map_some, Option.toList_some, List.singleton_append] at read'
      cases before with
      | nil =>
        obtain ⟨entry, _⟩ := List.cons.inj read'
        cases entry
        obtain ⟨rfl, proper⟩ := segment?_normal (clear s List.mem_cons_self) found
        exact ⟨proper, 0, rest, rfl, List.suffix_refl _, read, rfl⟩
      | cons entry others => exact later (List.cons.inj read').2

theorem normal_notMem_opening (p : Path) (name : String) : .normal name ∉ p.opening := by
  unfold opening
  split
  · simp
  · split <;> simp

theorem go_of_placed {name : String} {stop : Nat} {front after : List (Component × Nat)}
    (read : placed p.text.toList = front ++ (.normal name, stop) :: after) :
    ∃ before, placed.go 0 p.segments = before ++ (.normal name, stop) :: after := by
  rw [placed_eq] at read
  rcases List.append_eq_append_iff.mp read with ⟨before, _, inside⟩ | ⟨start, opened, others⟩
  · exact ⟨before, inside⟩
  · cases start with
    | nil => exact ⟨[], others.symm⟩
    | cons entry start =>
      have member : entry ∈ p.opening.map (·, 1) := by simp [opened]
      obtain ⟨c, known, same⟩ := List.mem_map.mp member
      cases same.trans (List.cons.inj others).1.symm
      exact (p.normal_notMem_opening name known).elim

theorem spells_intercalate {name : String} {others : List (List Char)} {names : List String}
    (proper : IsName name) (clear : ∀ s ∈ name.toList :: others, '/' ∉ s)
    (comps : (name.toList :: others).filterMap segment? = names.map Component.normal) :
    (⟨String.ofList (['/'].intercalate (name.toList :: others))⟩ : Path).Spells names := by
  have split : (⟨String.ofList (['/'].intercalate (name.toList :: others))⟩ : Path).segments =
      name.toList :: others := by
    rw [segments, String.toList_ofList]
    exact List.splitOn_intercalate _ clear (List.cons_ne_nil _ _)
  refine spells_iff.mpr ⟨opening_eq_nil split proper.toList_ne.1 proper.toList_ne.2, ?_⟩
  rw [inner, split, comps]

/-- What is left of a path below another one spells the names that it has more. -/
theorem relativeTo?_spells {base : Path} {names : List String}
    (comps : p.components = base.components ++ names.map .normal) :
    ∃ q, p.relativeTo? base = some q ∧ q.Spells names := by
  have inside : p.startsWith base = true := by
    rw [startsWith, comps, List.isPrefixOf_iff_prefix]
    exact List.prefix_append _ _
  obtain ⟨front, entries, read, frontComps, entryComps⟩ := List.map_eq_append_iff.mp comps
  have dropped : (placed p.text.toList).drop base.components.length = entries := by
    rw [read, ← frontComps, List.length_map, List.drop_left]
  rw [relativeTo?, if_pos inside]
  simp only [dropped]
  cases names with
  | nil =>
    obtain rfl := List.map_eq_nil_iff.mp entryComps
    exact ⟨⟨""⟩, rfl, by decide⟩
  | cons name more =>
    obtain ⟨⟨c, stop⟩, after, rfl, head, afterComps⟩ := List.map_eq_cons_iff.mp entryComps
    obtain rfl : c = .normal name := head
    obtain ⟨before, within⟩ := go_of_placed read
    obtain ⟨proper, start, back, position, behind, placed, text⟩ :=
      go_from (fun s member => p.segments_slash_free member) within
    rw [Nat.zero_add] at position placed
    rw [intercalate_segments] at text
    obtain ⟨front', ⟨c, last⟩, ending⟩ :=
      (List.eq_nil_or_concat ((Component.normal name, stop) :: after)).resolve_left
        (List.cons_ne_nil _ _)
    rw [List.concat_eq_append] at ending
    obtain ⟨kept, filled, within', keptComps, _, cut, _⟩ := go_cut (placed.trans ending)
    have rest : (p.text.toList.take last).drop (stop - (Component.normal name).text.length) =
        ['/'].intercalate kept := by
      have first : stop - (Component.normal name).text.length = start := by
        rw [Component.text, ← String.length_toList]
        omega
      rw [first, List.drop_take, text, cut]
    refine ⟨⟨String.ofList (['/'].intercalate kept)⟩, ?_, ?_⟩
    · rw [ending, List.getLast?_concat, ← ending]
      simp only
      rw [rest]
    · obtain ⟨others, rfl⟩ : ∃ others, kept = name.toList :: others := by
        cases kept with
        | nil => exact (filled rfl).elim
        | cons s others => exact ⟨others, by rw [(List.cons_prefix_cons.mp within').1]⟩
      refine spells_intercalate proper ?_ ?_
      · exact fun s member => p.segments_slash_free (behind.subset (within'.subset member))
      · have all := congrArg (List.map (·.1)) ending
        rw [List.map_append, List.map_cons, afterComps] at all
        rw [keptComps]
        exact all.symm

/-! ### Paths that go on by names -/

/-- The path goes on from another one by names, and its text ends with the last of them. -/
structure Below (root : Path) (names : List String) (p : Path) : Prop where
  components : p.components = root.components ++ names.map .normal
  trim : p.IsTrim

namespace Below

variable {root : Path} {names : List String}

theorem isName (below : root.Below names p) : ∀ name ∈ names, IsName name := by
  intro name member
  have present : Component.normal name ∈ p.components := by
    rw [below.components]
    exact List.mem_append_right _ (List.mem_map_of_mem member)
  rw [components_eq, List.mem_append] at present
  exact inner_isName (present.resolve_left (p.normal_notMem_opening name))

theorem filled (below : root.Below names p) (based : root.components ≠ []) : p.text ≠ "" := by
  intro empty
  have nothing := components_eq_nil.mpr empty
  rw [below.components] at nothing
  exact based (List.append_eq_nil_iff.mp nothing).1

theorem parent {name : String} (below : root.Below (names ++ [name]) p) :
    ∃ q, p.parent? = some q ∧ root.Below names q := by
  have comps := below.components
  rw [List.map_append, ← List.append_assoc] at comps
  obtain ⟨q, found, above, trim⟩ := exists_parent? comps
  exact ⟨q, found, above, trim⟩

theorem exists_ancestor (below : root.Below names p) (based : root.components ≠ [])
    {outer : List String} (within : outer <+: names) : ∃ q ∈ p.ancestors, root.Below outer q := by
  have listed : root.components ++ outer.map .normal ∈
      (p.ancestors.filter (·.startsWith root)).map Path.components := by
    rw [filter_ancestors based, List.mem_reverse, List.mem_filter, List.mem_inits, below.components,
      List.isPrefixOf_iff_prefix]
    exact ⟨(List.prefix_append_right_inj _).mpr (within.map _), List.prefix_append _ _⟩
  obtain ⟨q, known, comps⟩ := List.mem_map.mp listed
  have member := List.mem_of_mem_filter known
  exact ⟨q, member, comps, ancestors_trim below.trim q member⟩

theorem of_ancestor (below : root.Below names p) (based : root.components ≠ [])
    (member : q ∈ p.ancestors) (inside : q.startsWith root = true) :
    ∃ outer, outer <+: names ∧ root.Below outer q := by
  have listed : q.components ∈ (p.ancestors.filter (·.startsWith root)).map Path.components :=
    List.mem_map_of_mem (List.mem_filter.mpr ⟨member, inside⟩)
  rw [filter_ancestors based, List.mem_reverse, List.mem_filter, List.mem_inits,
    List.isPrefixOf_iff_prefix] at listed
  obtain ⟨onWay, more, comps⟩ := listed
  rw [below.components, ← comps] at onWay
  obtain ⟨outer, within, same⟩ := List.prefix_map_iff.mp ((List.prefix_append_right_inj _).mp onWay)
  exact ⟨outer, within, by rw [← comps, same], ancestors_trim below.trim q member⟩

end Below

end Relocation.Path
