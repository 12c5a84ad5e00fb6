import Relocation.Proofs.Path.Spelling

/-!
# Cleaning

Cleaning drops `.` and lets every `..` cancel the name before it. What is left are `..` steps or a
root, followed by names; a path that stays inside the tree has names only, and cleaning gives them
their usual spelling.
-/

namespace Relocation.Path

theorem text_plain_append {front back : List String} (left : front ≠ []) (right : back ≠ []) :
    (plain (front ++ back)).text = (plain front).text ++ "/" ++ (plain back).text :=
  String.intercalate_append_of_ne_nil left right

theorem getLast?_plain {names : List String} (valid : ∀ name ∈ names, IsName name)
    (filled : names ≠ []) : ∃ c, (plain names).text.toList.getLast? = some c ∧ c ≠ '/' := by
  obtain ⟨front, last, rfl⟩ := (List.eq_nil_or_concat names).resolve_left filled
  rw [List.concat_eq_append] at valid ⊢
  have proper := valid last (by simp)
  obtain ⟨c, found⟩ := Option.ne_none_iff_exists'.mp fun none =>
    proper.toList_ne.1 (List.getLast?_eq_none_iff.mp none)
  refine ⟨c, ?_, fun slash => proper.1 (slash ▸ List.mem_of_getLast? found)⟩
  cases front with
  | nil => exact found
  | cons first others =>
    rw [text_plain_append (by simp) (by simp), String.toList_append, List.getLast?_append]
    change Option.or last.toList.getLast? _ = some c
    rw [found, Option.some_or]

theorem isAbsolute_plain {names : List String} (valid : ∀ name ∈ names, IsName name) :
    (plain names).isAbsolute = false := (spells_plain valid).isRelative

theorem join_text_plain {front : List String} {q : Path} (valid : ∀ name ∈ front, IsName name)
    (filled : front ≠ []) (relative : q.isAbsolute = false) :
    (plain front).join q = ⟨(plain front).text ++ "/" ++ q.text⟩ := by
  obtain ⟨c, last, different⟩ := getLast?_plain valid filled
  unfold join
  rw [relative, last, if_neg (by decide)]
  split
  · rename_i absent
    cases absent
  · rename_i same
    exact (different (Option.some.inj same)).elim
  · rfl

theorem join_plain {front back : List String} (left : ∀ name ∈ front, IsName name)
    (right : ∀ name ∈ back, IsName name) (filled : back ≠ []) :
    (plain front).join (plain back) = plain (front ++ back) := by
  by_cases empty : front = []
  · subst empty
    exact join_empty _
  · rw [join_text_plain left empty (isAbsolute_plain right), ← text_plain_append empty filled]

theorem ofComponents_names {names : List String} (valid : ∀ name ∈ names, IsName name) :
    ofComponents (names.map Component.normal) = plain names := by
  have folded : ∀ (back front : List String), (∀ name ∈ front ++ back, IsName name) →
      (back.map Component.normal).foldl (fun p c => p.join ⟨c.text⟩) (plain front) = plain
        (front ++ back) := by
    intro back
    induction back with
    | nil => intro front _; simp
    | cons name rest ih =>
      intro front valid
      have step : (plain front).join ⟨name⟩ = plain (front ++ [name]) := by
        rw [← plain_singleton]
        apply join_plain
        · exact fun other member => valid other (List.mem_append_left _ member)
        · intro other member
          rw [List.mem_singleton.mp member]
          exact valid name (by simp)
        · simp
      rw [List.map_cons, List.foldl_cons]
      change List.foldl _ ((plain front).join ⟨name⟩) _ = _
      rw [step, ih (front ++ [name]) (by simpa using valid)]
      simp
  exact folded names [] (by simpa using valid)

/-! ### Cancelling -/

theorem cleanStep_names (done : List Component) (names : List String) :
    (names.map Component.normal).foldl cleanStep done = (names.map Component.normal).reverse ++
      done := by
  induction names generalizing done with
  | nil => rfl
  | cons name rest ih =>
    rw [List.map_cons, List.foldl_cons, ih]
    simp [cleanStep]

/-- Every `..` takes one name away. -/
theorem cleanStep_climb (names : List String) (steps : Nat) (enough : steps ≤ names.length) :
    (List.replicate steps Component.parent).foldl cleanStep (names.map Component.normal).reverse =
      ((names.take (names.length - steps)).map Component.normal).reverse := by
  induction steps generalizing names with
  | zero => simp
  | succ steps ih =>
    rcases List.eq_nil_or_concat names with rfl | ⟨front, last, rfl⟩
    · simp at enough
    · rw [List.concat_eq_append] at enough ⊢
      rw [List.length_append, List.length_singleton] at enough ⊢
      rw [List.replicate_succ, List.foldl_cons, List.map_append, List.reverse_append]
      change List.foldl cleanStep (front.map Component.normal).reverse _ = _
      rw [ih front (by omega), show front.length + 1 - (steps + 1) = front.length - steps by omega,
        List.take_append_of_le_length (by omega)]

/-- Names, a climb within them, and names again. -/
theorem cleanComponents_climb {names down : List String} {steps : Nat}
    (enough : steps ≤ names.length) : cleanComponents (names.map Component.normal ++
      List.replicate steps Component.parent ++
        down.map Component.normal) =
      (names.take (names.length - steps) ++ down).map Component.normal := by
  unfold cleanComponents
  rw [List.foldl_append, List.foldl_append, cleanStep_names [] names, List.append_nil,
    cleanStep_climb names steps enough, cleanStep_names]
  simp

theorem cleanComponents_names (names : List String) :
    cleanComponents (names.map Component.normal) = names.map Component.normal := by
  unfold cleanComponents
  rw [cleanStep_names, List.append_nil, List.reverse_reverse]

theorem clean_of_names {p : Path} {names : List String}
    (cleaned : cleanComponents p.components = names.map Component.normal)
    (valid : ∀ name ∈ names, IsName name) (filled : names ≠ []) : p.clean = plain names := by
  unfold clean
  rw [cleaned]
  split
  · rename_i empty
    exact (filled (List.map_eq_nil_iff.mp empty)).elim
  · exact ofComponents_names valid

theorem clean_of_nothing {p : Path} (cleaned : cleanComponents p.components = []) :
    p.clean = ⟨"."⟩ := by
  unfold clean
  rw [cleaned]

/-! ### Paths that stay inside -/

/-- A cleaned list, kept last first: names on top of a root or of `..` steps. -/
def Cleaned (done : List Component) : Prop :=
  ∃ (names : List String) (below : List Component), done = (names.map Component.normal).reverse ++
    below ∧ (∀ name ∈ names, IsName name) ∧
    (below = [.root] ∨ ∃ steps, below = List.replicate steps .parent)

theorem cleanStep_cleaned {done : List Component} {c : Component} (cleaned : Cleaned done)
    (named : ∀ name, c = .normal name → IsName name) (rootless : c ≠ .root) :
    Cleaned (cleanStep done c) := by
  obtain ⟨names, below, rfl, valid, base⟩ := cleaned
  cases c with
  | root => exact (rootless rfl).elim
  | current => exact ⟨names, below, rfl, valid, base⟩
  | normal name =>
    refine ⟨names ++ [name], below, by simp [cleanStep], ?_, base⟩
    intro other member
    rcases List.mem_append.mp member with old | new
    · exact valid other old
    · rw [List.mem_singleton.mp new]
      exact named name rfl
  | parent =>
    rcases List.eq_nil_or_concat names with rfl | ⟨front, last, rfl⟩
    · rcases base with rfl | ⟨steps, rfl⟩
      · exact ⟨[], [.root], rfl, by simp, Or.inl rfl⟩
      · refine ⟨[], List.replicate (steps + 1) .parent, ?_, by simp, Or.inr ⟨steps + 1, rfl⟩⟩
        cases steps <;> rfl
    · rw [List.concat_eq_append] at valid ⊢
      refine ⟨front, below, by simp [cleanStep], ?_, base⟩
      exact fun name member => valid name (List.mem_append_left _ member)

theorem foldl_cleaned {cs done : List Component} (cleaned : Cleaned done)
    (named : ∀ name, .normal name ∈ cs → IsName name) (rootless : .root ∉ cs) :
    Cleaned (cs.foldl cleanStep done) := by
  induction cs generalizing done with
  | nil => exact cleaned
  | cons c rest ih =>
    rw [List.foldl_cons]
    apply ih
    · apply cleanStep_cleaned cleaned
      · intro name same
        exact named name (by simp [same])
      · intro same
        exact rootless (by simp [same])
    · exact fun name member => named name (List.mem_cons_of_mem _ member)
    · exact fun member => rootless (List.mem_cons_of_mem _ member)

theorem components_cleaned (p : Path) : Cleaned (p.components.foldl cleanStep []) := by
  rw [components_eq, List.foldl_append]
  apply foldl_cleaned
  · unfold opening
    split
    · exact ⟨[], [.root], rfl, by simp, Or.inl rfl⟩
    · split <;> exact ⟨[], [], rfl, by simp, Or.inr ⟨0, rfl⟩⟩
  · exact fun name member => inner_isName member
  · exact fun member => (inner_ne_root member).1 rfl

theorem components_foldl_join {p : Path} (filled : p.text ≠ "") {cs : List Component}
    (relative : ∀ c ∈ cs, (⟨c.text⟩ : Path).isAbsolute = false) :
    ∃ rest, (cs.foldl (fun p c => p.join ⟨c.text⟩) p).components = p.components ++ rest := by
  induction cs generalizing p with
  | nil => exact ⟨[], by simp⟩
  | cons c others ih =>
    have first := relative c List.mem_cons_self
    have text : (p.join ⟨c.text⟩).text ≠ "" := by
      obtain ⟨front, text, _⟩ := join_text first filled
      intro empty
      rw [empty] at text
      simp at text
    obtain ⟨rest, same⟩ := ih text fun c member => relative c (List.mem_cons_of_mem _ member)
    exact ⟨(⟨c.text⟩ : Path).inner ++ rest, by
      rw [List.foldl_cons, same, components_join first filled, List.append_assoc]⟩

theorem isAbsolute_name {name : String} (valid : IsName name) :
    (⟨name⟩ : Path).isAbsolute = false := by
  rw [← plain_singleton]
  exact isAbsolute_plain (by simpa using valid)

theorem clean_spells {p : Path} (inside : p.clean.staysInside = true) :
    ∃ names : List String, cleanComponents p.components = names.map Component.normal ∧
    ∀ name ∈ names, IsName name := by
  obtain ⟨names, below, done, valid, base⟩ := components_cleaned p
  have cleaned : cleanComponents p.components = below.reverse ++ names.map Component.normal := by
    rw [cleanComponents, done]
    simp
  have relative : ∀ c ∈ names.map Component.normal, (⟨c.text⟩ : Path).isAbsolute = false := by
    intro c member
    obtain ⟨name, present, rfl⟩ := List.mem_map.mp member
    exact isAbsolute_name (valid name present)
  have outside : ∀ first others, cleanComponents p.components = first :: others → first.text ≠ "" →
      (∀ c ∈ others, (⟨c.text⟩ : Path).isAbsolute = false) →
      ∃ rest, p.clean.components = (⟨first.text⟩ : Path).components ++ rest := by
    intro first others cleaned filled relative
    have text : p.clean = others.foldl (fun p c => p.join ⟨c.text⟩) ⟨first.text⟩ := by
      unfold clean
      rw [cleaned]
      change List.foldl _ _ (first :: others) = _
      rw [List.foldl_cons, join_empty]
    rw [text]
    exact components_foldl_join filled relative
  rcases base with rfl | ⟨steps, rfl⟩
  · obtain ⟨rest, comps⟩ := outside .root _ cleaned (by decide) relative
    have root : (⟨Component.root.text⟩ : Path).components = [.root] := by decide
    rw [staysInside, comps, root] at inside
    cases inside
  · cases steps with
    | zero => exact ⟨names, by simpa using cleaned, valid⟩
    | succ steps =>
      rw [List.reverse_replicate, List.replicate_succ, List.cons_append] at cleaned
      have climbing : ∀ c ∈ List.replicate steps Component.parent ++ names.map Component.normal,
          (⟨c.text⟩ : Path).isAbsolute = false := by
        intro c member
        rcases List.mem_append.mp member with parent | named
        · rw [List.eq_of_mem_replicate parent]
          decide
        · exact relative c named
      obtain ⟨rest, comps⟩ := outside .parent _ cleaned (by decide) climbing
      have parent : (⟨Component.parent.text⟩ : Path).components = [.parent] := by decide
      rw [staysInside, comps, parent] at inside
      cases inside

/-- A name below a directory, cleaned: the name comes last. -/
theorem clean_join_name {dir : Path} {name : String} (valid : IsName name)
    (inside : (dir.join ⟨name⟩).clean.staysInside = true) :
    ∃ names, (dir.join ⟨name⟩).clean = plain (names ++ [name]) ∧
    ∀ other ∈ names ++ [name], IsName other := by
  obtain ⟨names, cleaned, proper⟩ := clean_spells inside
  have single : (⟨name⟩ : Path).Spells [name] := by
    rw [← plain_singleton]
    exact spells_plain (by simpa using valid)
  have comps : ∃ front, (dir.join ⟨name⟩).components = front ++ [.normal name] := by
    by_cases filled : dir.text = ""
    · have path : dir = ⟨""⟩ := by cases dir; simp_all
      exact ⟨[], by rw [path, join_empty]; exact single⟩
    · exact ⟨dir.components, by rw [components_join (isAbsolute_name valid) filled, single.inner]; rfl⟩
  obtain ⟨front, comps⟩ := comps
  have last : ∃ others, cleanComponents (dir.join ⟨name⟩).components = others ++ [.normal name] := by
    rw [comps, cleanComponents, List.foldl_append]
    exact ⟨(front.foldl cleanStep []).reverse, by simp [cleanStep]⟩
  obtain ⟨others, last⟩ := last
  obtain ⟨names, rest, rfl, _, tail⟩ := List.map_eq_append_iff.mp (cleaned.symm.trans last)
  obtain ⟨final, more, rfl, same, done⟩ := List.map_eq_cons_iff.mp tail
  rw [List.map_eq_nil_iff.mp done, Component.normal.inj same] at cleaned proper
  exact ⟨names, clean_of_names cleaned proper (by simp), proper⟩

end Relocation.Path
