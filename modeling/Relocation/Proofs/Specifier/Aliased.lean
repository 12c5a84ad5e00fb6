import Relocation.Proofs.Specifier.Reading

/-!
# Alias specifiers

A specifier is written with the alias whose directory is deepest and read with the longest alias
that it starts with. Both are the same one only if no other alias comes in between:
`aliasSpecifier?_read_iff` says when a specifier names its path again.
-/

namespace Relocation

/-! ### The alias that reads -/

/-- No alias that the specifier starts with is longer, and none of this length is listed before. -/
def Alias.Reads (a : Alias) (aliases : List Alias) (specifier : String) : Prop :=
  a.lead.toList <+: specifier.toList ∧ ∃ before after, aliases = before ++ a :: after ∧
    (∀ b ∈ before, b.lead.toList <+: specifier.toList → b.lead.utf8ByteSize < a.lead.utf8ByteSize) ∧
    ∀ b ∈ after, b.lead.toList <+: specifier.toList → b.lead.utf8ByteSize ≤ a.lead.utf8ByteSize

def Alias.rivals (a : Alias) (specifier : String) (b : Alias) : Bool :=
  b.lead.toList.isPrefixOf specifier.toList && b.lead.utf8ByteSize == a.lead.utf8ByteSize

namespace Alias.Reads

variable {a b : Alias} {aliases : List Alias} {specifier : String}

theorem mem (read : a.Reads aliases specifier) : a ∈ aliases := by
  obtain ⟨_, before, after, rfl, _⟩ := read
  simp

theorem iff_first : a.Reads aliases specifier ↔ a.lead.toList <+: specifier.toList ∧
    (∀ b ∈ aliases, b.lead.toList <+: specifier.toList → b.lead.utf8ByteSize ≤ a.lead.utf8ByteSize) ∧
    ∃ rest, aliases.filter (a.rivals specifier) = a :: rest := by
  constructor
  · rintro ⟨starts, before, after, rfl, shorter, bounded⟩
    refine ⟨starts, ?_, after.filter (a.rivals specifier), List.filter_eq_cons_iff.mpr
      ⟨before, after, rfl, ?_, ?_, rfl⟩⟩
    · intro b member fits
      rcases List.mem_append.mp member with early | late
      · exact Nat.le_of_lt (shorter b early fits)
      · rcases List.mem_cons.mp late with rfl | later
        · exact Nat.le_refl _
        · exact bounded b later fits
    · intro b early rival
      simp only [rivals, Bool.and_eq_true, List.isPrefixOf_iff_prefix, beq_iff_eq] at rival
      have less := shorter b early rival.1
      omega
    · simp [rivals, starts]
  · rintro ⟨starts, bounded, rest, first⟩
    obtain ⟨before, after, rfl, none, _⟩ := List.filter_eq_cons_iff.mp first
    refine ⟨starts, before, after, rfl, fun b early fits => ?_, fun b late => bounded b
      (by simp [late])⟩
    have most := bounded b (List.mem_append_left _ early) fits
    have other := none b early
    simp only [rivals, Bool.and_eq_true, List.isPrefixOf_iff_prefix, beq_iff_eq, not_and] at other
    have different := other fits
    omega

theorem unique (left : a.Reads aliases specifier) (right : b.Reads aliases specifier) : a = b := by
  obtain ⟨starts, bounded, rest, first⟩ := iff_first.mp left
  obtain ⟨starts', bounded', rest', first'⟩ := iff_first.mp right
  have sizes : a.lead.utf8ByteSize = b.lead.utf8ByteSize :=
    Nat.le_antisymm (bounded' a left.mem starts) (bounded b right.mem starts')
  have same : a.rivals specifier = b.rivals specifier := by
    funext c
    rw [rivals, rivals, sizes]
  rw [same, first'] at first
  exact (List.cons.inj first).1.symm

end Alias.Reads

theorem Resolver.aliasFor?_of_starts (r : Resolver) {specifier : String} {a : Alias}
    (known : a ∈ r.aliases) (starts : a.lead.toList <+: specifier.toList) :
    ∃ b, r.aliasFor? specifier = some b := by
  cases found : r.aliasFor? specifier with
  | none =>
    have missed := List.find?_eq_none.mp found a (List.mem_mergeSort.mpr known)
    exact (missed (List.isPrefixOf_iff_prefix.mpr starts)).elim
  | some b => exact ⟨b, rfl⟩

theorem Resolver.aliasFor?_eq_some_iff {r : Resolver} {specifier : String} {a : Alias} :
    r.aliasFor? specifier = some a ↔ a.Reads r.aliases specifier := by
  have transitive : ∀ a b c : Alias, decide (b.lead.utf8ByteSize ≤ a.lead.utf8ByteSize) = true →
      decide (c.lead.utf8ByteSize ≤ b.lead.utf8ByteSize) = true →
      decide (c.lead.utf8ByteSize ≤ a.lead.utf8ByteSize) = true := by
    intro a b c
    simp only [decide_eq_true_eq]
    omega
  have total : ∀ a b : Alias, (decide (b.lead.utf8ByteSize ≤ a.lead.utf8ByteSize) ||
      decide (a.lead.utf8ByteSize ≤ b.lead.utf8ByteSize)) = true := by
    intro a b
    simp only [Bool.or_eq_true, decide_eq_true_eq]
    omega
  have sorted := List.pairwise_mergeSort transitive total r.aliases
  have reads : ∀ {a}, r.aliasFor? specifier = some a → a.Reads r.aliases specifier := by
    intro a found
    obtain ⟨starts, front, back, whole, none⟩ := List.find?_eq_some_iff_append.mp found
    rw [Resolver.byLead] at whole
    have misses : ∀ b ∈ front, ¬ b.lead.toList <+: specifier.toList := by
      intro b early fits
      have missed := none b early
      rw [List.isPrefixOf_iff_prefix.mpr fits] at missed
      cases missed
    refine Alias.Reads.iff_first.mpr ⟨List.isPrefixOf_iff_prefix.mp starts, fun b known fits => ?_,
      back.filter (a.rivals specifier), ?_⟩
    · have member : b ∈ front ++ a :: back := whole ▸ List.mem_mergeSort.mpr known
      rw [whole, List.pairwise_append, List.pairwise_cons] at sorted
      rcases List.mem_append.mp member with early | late
      · exact (misses b early fits).elim
      · rcases List.mem_cons.mp late with rfl | later
        · exact Nat.le_refl _
        · exact of_decide_eq_true (sorted.2.1.1 b later)
    · have alike : (r.aliases.filter (a.rivals specifier)).Pairwise fun b c =>
          decide (c.lead.utf8ByteSize ≤ b.lead.utf8ByteSize) = true := by
        refine List.pairwise_of_forall_mem_list fun b left c right => ?_
        have first := (List.mem_filter.mp left).2
        have second := (List.mem_filter.mp right).2
        simp only [Alias.rivals, Bool.and_eq_true, beq_iff_eq] at first second
        simp only [decide_eq_true_eq]
        omega
      rw [← filter_mergeSort transitive total alike, whole, List.filter_append,
        List.filter_cons_of_pos, List.filter_eq_nil_iff.mpr, List.nil_append]
      · intro b early rival
        simp only [Alias.rivals, Bool.and_eq_true, List.isPrefixOf_iff_prefix] at rival
        exact misses b early rival.1
      · simpa [Alias.rivals] using starts
  refine ⟨reads, fun read => ?_⟩
  obtain ⟨b, found⟩ := r.aliasFor?_of_starts read.mem read.1
  rw [found, (reads found).unique read]

theorem deepestAlias?_deepest {aliases : List Alias} {p : Path} {a b : Alias}
    (found : deepestAlias? aliases p = some a)
    (known : b ∈ aliases) (holds : p.startsWith b.dir = true) :
    b.dir.components.length ≤ a.dir.components.length := by
  have folded : ∀ (rest : List Alias) (first : Alias), ∀ b ∈ first :: rest,
      b.dir.components.length ≤ (rest.foldl deeperAlias first).dir.components.length := by
    intro rest
    induction rest with
    | nil =>
      intro first b member
      rw [List.mem_singleton.mp member]
      exact Nat.le_refl _
    | cons other others ih =>
      intro first b member
      have most := ih (deeperAlias first other)
      have chosen := most _ List.mem_cons_self
      have both : first.dir.components.length ≤ (deeperAlias first other).dir.components.length ∧
          other.dir.components.length ≤ (deeperAlias first other).dir.components.length := by
        unfold deeperAlias
        split <;> omega
      rw [List.foldl_cons]
      rcases List.mem_cons.mp member with rfl | later
      · omega
      · rcases List.mem_cons.mp later with rfl | last
        · omega
        · exact most b (List.mem_cons_of_mem _ last)
  have listed : b ∈ aliases.filter fun a => p.startsWith a.dir := List.mem_filter.mpr ⟨known, holds⟩
  unfold deepestAlias? at found
  split at found
  · cases found
  · rename_i first rest held
    cases found
    rw [held] at listed
    exact folded rest first b listed

/-! ### Names in a text -/

namespace Path

theorem stretches_eq {stretches : List (List Char)} {names : List String}
    (clear : ∀ s ∈ stretches, '/' ∉ s)
    (read : stretches.filterMap segment? = names.map Component.normal)
    (full : stretches.length ≤ names.length) : stretches = names.map String.toList := by
  induction stretches generalizing names with
  | nil => rw [List.map_eq_nil_iff.mp read.symm]; rfl
  | cons s rest ih =>
    rw [List.filterMap_cons] at read
    cases found : segment? s with
    | none =>
      simp only [found] at read
      have few := List.length_filterMap_le segment? rest
      rw [read, List.length_map] at few
      rw [List.length_cons] at full
      omega
    | some c =>
      simp only [found] at read
      obtain ⟨name, others, rfl, rfl, same⟩ := List.map_eq_cons_iff.mp read.symm
      obtain ⟨rfl, _⟩ := segment?_normal (clear s List.mem_cons_self) found
      rw [ih (fun s member => clear s (List.mem_cons_of_mem _ member)) same.symm (by simpa using full)]
      rfl

section
variable {names : List String} {q : Path} (valid : ∀ name ∈ names, IsName name)
  (ending : q.text.toList <:+ (plain names).text.toList)
include valid ending

theorem length_segments_ending (filled : names ≠ []) : q.segments.length ≤ names.length := by
  have whole := congrArg List.length (segments_plain valid filled)
  have fewer := ending.sublist.count_le '/'
  rw [segments, length_splitOn, List.length_map] at whole
  rw [segments, length_splitOn]
  omega

/-- The end of a text of names holds no more of them. -/
theorem length_inner_ending : q.inner.length ≤ names.length := by
  cases names with
  | nil =>
    have empty : q = ⟨""⟩ := by
      rw [toList_plain, List.map_nil, List.intercalate_nil] at ending
      exact congrArg Path.mk (String.toList_eq_nil_iff.mp (List.suffix_nil.mp ending))
    rw [empty]
    decide
  | cons name rest =>
    have segments := length_segments_ending valid ending (List.cons_ne_nil name rest)
    exact Nat.le_trans (List.length_filterMap_le _ _) segments

theorem eq_plain_of_inner (same : q.inner = names.map Component.normal) : q = plain names := by
  cases names with
  | nil =>
    rw [toList_plain, List.map_nil, List.intercalate_nil] at ending
    exact congrArg Path.mk (String.toList_eq_nil_iff.mp (List.suffix_nil.mp ending))
  | cons name rest =>
    have full := length_segments_ending valid ending (List.cons_ne_nil name rest)
    have stretches := stretches_eq (fun s member => segments_slash_free _ member) same full
    have text : q.text.toList = (plain (name :: rest)).text.toList := by
      rw [toList_plain, ← stretches, intercalate_segments]
    exact congrArg Path.mk (String.toList_inj.mp text)

end

theorem countP_cleaned (cs done : List Component) :
    (cs.foldl cleanStep done).countP Component.isNormal ≤ done.countP Component.isNormal +
      cs.countP Component.isNormal := by
  induction cs generalizing done with
  | nil => exact Nat.le_refl _
  | cons c rest ih =>
    have step : (cleanStep done c).countP Component.isNormal ≤
        done.countP Component.isNormal + (if c.isNormal = true then 1 else 0) := by
      cases c with
      | root | normal name => exact Nat.le_of_eq List.countP_cons
      | current => exact Nat.le_refl _
      | parent =>
        cases done with
        | nil => exact Nat.le_refl _
        | cons last above =>
          cases last with
          | normal name =>
            exact Nat.le_trans (List.sublist_cons_self _ above).countP_le (Nat.le_add_right _ _)
          | _ => exact Nat.le_refl _
    have later := ih (cleanStep done c)
    rw [List.foldl_cons, List.countP_cons]
    omega

theorem countP_names (names : List String) :
    (names.map Component.normal).countP Component.isNormal = names.length := by
  rw [List.countP_eq_length.mpr, List.length_map]
  intro c member
  obtain ⟨name, _, rfl⟩ := List.mem_map.mp member
  rfl

/-- Where no name is lost in cleaning, nothing but names was there. -/
theorem cleanComponents_tight {front outer rest : List String} {cs : List Component}
    (cleaned : cleanComponents (front.map Component.normal ++ cs) =
      (outer ++ rest).map Component.normal)
    (shallow : front.length ≤ outer.length) (few : cs.length ≤ rest.length) :
    front = outer ∧ cs = rest.map Component.normal := by
  have counted := countP_cleaned (front.map Component.normal ++ cs) []
  have total : (outer ++ rest).length = ((front.map Component.normal ++ cs).foldl cleanStep
      []).countP Component.isNormal := by
    rw [← countP_names, ← cleaned, cleanComponents, List.countP_reverse]
  have bound := List.countP_le_length (p := Component.isNormal) (l := cs)
  rw [← total, List.countP_nil, List.countP_append, countP_names, List.length_append] at counted
  have full : cs.countP Component.isNormal = cs.length := by omega
  obtain ⟨names, rfl⟩ := names_of_normal (List.countP_eq_length.mp full)
  rw [← List.map_append, cleanComponents_names] at cleaned
  have same := (List.map_inj_right (fun _ _ equal => Component.normal.inj equal)).mp cleaned
  obtain ⟨rfl, rfl⟩ := List.append_inj same (by omega)
  exact ⟨rfl, rfl⟩

theorem cleanComponents_of_tidy {q : Path} {names : List String} (valid : ∀ name ∈ names, IsName name)
    (cleaned : q.clean = tidy names) : cleanComponents q.components = names.map Component.normal := by
  obtain ⟨found, spelt, proper⟩ := clean_spells (by rw [cleaned]; exact tidy_staysInside valid)
  have same : tidy found = tidy names := by rw [← cleaned, clean_eq_tidy spelt proper]
  rw [spelt, tidy_inj proper valid same]

end Path

/-! ### Reading back -/

theorem utf8ByteSize_lt_of_append {x y : String} {more : List Char}
    (whole : y.toList = x.toList ++ more) (filled : more ≠ []) : x.utf8ByteSize < y.utf8ByteSize := by
  have parts : y = x ++ String.ofList more :=
    String.toList_inj.mp (by rw [whole, String.toList_append, String.toList_ofList])
  have size : (String.ofList more).utf8ByteSize ≠ 0 := by
    intro nothing
    exact filled (by simpa using String.utf8ByteSize_eq_zero_iff.mp nothing)
  rw [parts, String.utf8ByteSize_append]
  omega

theorem Alias.Reads.longest {a b : Alias} {aliases : List Alias} {specifier : String}
    (read : b.Reads aliases specifier) (known : a ∈ aliases)
    (starts : a.lead.toList <+: specifier.toList) : a.lead.toList <+: b.lead.toList := by
  obtain ⟨fits, bounded, _⟩ := Alias.Reads.iff_first.mp read
  rcases List.prefix_or_prefix_of_prefix starts fits with shorter | ⟨more, whole⟩
  · exact shorter
  · by_cases nothing : more = []
    · rw [nothing, List.append_nil] at whole
      exact ⟨[], by rw [List.append_nil, whole]⟩
    · have less := utf8ByteSize_lt_of_append whole.symm nothing
      have most := bounded a known starts
      omega

theorem Resolver.basePath?_reads {r : Resolver} {b : Alias} {specifier : String}
    (read : b.Reads r.aliases specifier) (placed : isRelativeSpecifier specifier = false)
    (referrer : Path) : r.basePath? referrer specifier =
      some (b.dir.join (aliasRest b specifier)).clean := by
  unfold basePath?
  rw [placed, aliasFor?_eq_some_iff.mpr read]
  rfl

theorem Resolver.isAbsolute_aliasRest (a : Alias) (specifier : String) :
    (aliasRest a specifier).isAbsolute = false := by
  have head := List.head?_dropWhile_not (fun c => c == '/')
    (specifier.toList.drop a.lead.toList.length)
  unfold aliasRest Path.isAbsolute Path.isAbsoluteText
  rw [String.toList_ofList]
  split at head
  · rename_i c first
    rw [first]
    simpa using head
  · rename_i first
    rw [first]
    rfl

/-- A slash may have to be put between the alias and the names. -/
theorem Alias.spell_starts (a : Alias) {rest : List String} (valid : ∀ name ∈ rest, Path.IsName name)
    (proper : rest = [] → a.lead.toList.getLast? ≠ some '/') : ∃ gap, (gap = [] ∨ gap = ['/']) ∧
      (a.spell ("/".intercalate rest)).toList = a.lead.toList ++
        (gap ++ (Path.plain rest).text.toList) := by
  by_cases filled : rest = []
  · subst filled
    refine ⟨[], .inl rfl, ?_⟩
    have ends := proper rfl
    rw [← List.head?_reverse] at ends
    have kept : a.lead.toList.reverse.dropWhile (· == '/') = a.lead.toList.reverse := by
      cases turned : a.lead.toList.reverse with
      | nil => rfl
      | cons c cs =>
        rw [turned] at ends
        exact List.dropWhile_cons_of_neg (by simpa using ends)
    have spelt : (a.spell "").toList = (a.lead.toList.reverse.dropWhile (· == '/')).reverse := by
      simp [Alias.spell]
    rw [show "/".intercalate [] = "" from rfl, spelt, kept, List.reverse_reverse]
    simp [Path.plain]
  · have text := Path.text_plain_ne valid filled
    rw [Path.plain] at text
    unfold Alias.spell Path.plain
    simp only [if_neg text]
    split
    · exact ⟨[], .inl rfl, by rw [String.toList_append, List.nil_append]⟩
    · exact ⟨['/'], .inr rfl, by simp⟩

section
variable {a b : Alias} {specifier : String} {rest : List String} {gap : List Char}
  (valid : ∀ name ∈ rest, Path.IsName name) (small : gap = [] ∨ gap = ['/'])
  (whole : specifier.toList = a.lead.toList ++ (gap ++ (Path.plain rest).text.toList))
  (longer : a.lead.toList <+: b.lead.toList) (starts : b.lead.toList <+: specifier.toList)
include valid small whole longer starts

/-- What a longer alias leaves of the names. -/
theorem Resolver.aliasRest_ending :
    (aliasRest b specifier).text.toList <:+ (Path.plain rest).text.toList := by
  obtain ⟨more, lead⟩ := longer
  obtain ⟨behind, split⟩ := starts
  have parts : more ++ behind = gap ++ (Path.plain rest).text.toList := by
    rw [← split, ← lead, List.append_assoc] at whole
    exact List.append_cancel_left whole
  have text : (aliasRest b specifier).text.toList = behind.dropWhile (· == '/') := by
    rw [aliasRest, ← split, List.drop_left, String.toList_ofList]
  rw [text]
  rcases small with rfl | rfl
  · exact (List.dropWhile_suffix _).trans ⟨more, parts⟩
  · cases more with
    | nil =>
      rw [List.nil_append] at parts
      have kept : behind.dropWhile (· == '/') = (Path.plain rest).text.toList := by
        rw [parts, List.singleton_append, List.dropWhile_cons_of_pos (by rfl),
          Path.dropWhile_plain valid]
      exact ⟨[], kept⟩
    | cons c more => exact (List.dropWhile_suffix _).trans ⟨more, (List.cons.inj parts).2⟩

/-- It leaves all of them only if it is longer by the slash. -/
theorem Resolver.aliasRest_eq_plain_iff :
    aliasRest b specifier = Path.plain rest ↔ b.lead = a.lead ∨ b.lead = a.lead ++ "/" := by
  obtain ⟨more, lead⟩ := longer
  obtain ⟨behind, split⟩ := starts
  have parts : more ++ behind = gap ++ (Path.plain rest).text.toList := by
    rw [← split, ← lead, List.append_assoc] at whole
    exact List.append_cancel_left whole
  have text : aliasRest b specifier = ⟨String.ofList (behind.dropWhile (· == '/'))⟩ := by
    rw [aliasRest, ← split, List.drop_left]
  have added : (b.lead = a.lead ∨ b.lead = a.lead ++ "/") ↔ (more = [] ∨ more = ['/']) := by
    rw [← String.toList_inj, ← String.toList_inj, String.toList_append, ← lead]
    simp
  rw [added, text]
  constructor
  · intro same
    have left : behind.dropWhile (· == '/') = (Path.plain rest).text.toList := by
      rw [← congrArg Path.text same, String.toList_ofList]
    rw [← List.takeWhile_append_dropWhile (p := (· == '/')) (l := behind), left,
      ← List.append_assoc] at parts
    have cut := List.append_cancel_right parts
    rcases small with rfl | rfl
    · exact .inl (List.append_eq_nil_iff.mp cut).1
    · rcases List.append_eq_singleton_iff.mp cut with ⟨nothing, _⟩ | ⟨slash, _⟩
      · exact .inl nothing
      · exact .inr slash
  · intro few
    have left : behind.dropWhile (· == '/') = (Path.plain rest).text.toList := by
      have both := congrArg (List.dropWhile (· == '/')) parts
      have dropped : (gap ++ (Path.plain rest).text.toList).dropWhile (· == '/') =
          (Path.plain rest).text.toList := by
        rcases small with rfl | rfl
        · exact Path.dropWhile_plain valid
        · exact Path.dropWhile_plain valid
      rw [dropped] at both
      rcases few with rfl | rfl
      · exact both
      · exact both
    rw [left, String.ofList_toList]

end

/-- A specifier is written with the deepest alias `a` that holds its path. Unless the path is the
very directory of `a` and `a` ends in a slash, some alias `b` reads the specifier, and it finds the
path from its own directory only where it leads to the same directory and differs from `a` by a
slash at most. -/
theorem aliasSpecifier?_read_iff (r : Resolver)
    (undotted : ∀ a ∈ r.aliases, a.lead.toList.head? ≠ some '.')
    (normal : ∀ a ∈ r.aliases, ∀ c ∈ a.dir.components, c.isNormal = true) (p : Path)
    (named : ∀ c ∈ p.components, c.isNormal = true) (specifier : String)
    (written : aliasSpecifier? r.aliases p = some specifier) :
    ∃ a, deepestAlias? r.aliases p = some a ∧
      if p.same a.dir = true ∧ a.lead.toList.getLast? = some '/' then
        ∀ referrer base, r.basePath? referrer specifier = some base →
          ∃ b : Alias, b.Reads r.aliases specifier ∧
          b.lead.utf8ByteSize < a.lead.utf8ByteSize ∧
          base = (b.dir.join (Resolver.aliasRest b specifier)).clean
      else ∃ b : Alias, b.Reads r.aliases specifier ∧ ∀ referrer,
        (r.basePath? referrer specifier = some p.clean ∧ p.startsWith b.dir = true ↔
          b.dir.same a.dir = true ∧ (b.lead = a.lead ∨ b.lead = a.lead ++ "/")) := by
  have dirs : ∀ a ∈ r.aliases, ∃ names, a.dir.Spells names := fun a known => Path.spells_of_normal
    (normal a known)
  obtain ⟨names, spelt⟩ := Path.spells_of_normal named
  have placed := aliasSpecifier?_not_relative undotted written
  obtain ⟨a, outer, rest, deepest, dir, rfl, rfl⟩ := aliasSpecifier?_spelt spelt dirs written
  obtain ⟨known, _⟩ := deepestAlias?_mem deepest
  have itself : p.same a.dir = true ↔ rest = [] := by
    rw [Path.same_of_spells spelt dir]
    simp
  refine ⟨a, deepest, ?_⟩
  split
  · rename_i bare
    obtain ⟨front, text⟩ := List.getLast?_eq_some_iff.mp bare.2
    rw [itself.mp bare.1] at placed ⊢
    intro referrer base found
    unfold Resolver.basePath? at found
    rw [show "/".intercalate [] = "" from rfl] at placed found ⊢
    rw [placed] at found
    obtain ⟨b, reader, rfl⟩ := Option.map_eq_some_iff.mp found
    have read := Resolver.aliasFor?_eq_some_iff.mp reader
    obtain ⟨more, shorter⟩ := read.1.trans (a.spell_nothing text)
    refine ⟨b, read, utf8ByteSize_lt_of_append ?_ (List.append_ne_nil_of_right_ne_nil more
      (List.cons_ne_nil '/' [])), rfl⟩
    rw [text, ← shorter, List.append_assoc]
  · rename_i proper
    have valid : ∀ name ∈ rest, Path.IsName name := fun name member =>
      spelt.isName name (List.mem_append_right _ member)
    obtain ⟨gap, small, whole⟩ := a.spell_starts valid fun nothing slash =>
      proper ⟨itself.mpr nothing, slash⟩
    have starts : a.lead.toList <+: (a.spell ("/".intercalate rest)).toList := ⟨_, whole.symm⟩
    obtain ⟨b, found⟩ := r.aliasFor?_of_starts known starts
    have read := Resolver.aliasFor?_eq_some_iff.mp found
    have member := read.mem
    have longer := read.longest known starts
    have ending := Resolver.aliasRest_ending valid small whole longer read.1
    have exactly := Resolver.aliasRest_eq_plain_iff valid small whole longer read.1
    obtain ⟨front, reader⟩ := dirs b member
    refine ⟨b, read, fun referrer => ?_⟩
    rw [Resolver.basePath?_reads read placed, Option.some.injEq, spelt.clean_tidy, ← exactly,
      Path.same_of_spells reader dir]
    constructor
    · rintro ⟨cleaned, within⟩
      have depth := deepestAlias?_deepest deepest member within
      rw [show b.dir.components = _ from reader, show a.dir.components = _ from dir,
        List.length_map, List.length_map] at depth
      have components := Path.cleanComponents_of_tidy spelt.isName cleaned
      rw [Path.cleanComponents_join (Resolver.isAbsolute_aliasRest b _),
        show b.dir.components = _ from reader] at components
      obtain ⟨same, inner⟩ := Path.cleanComponents_tight components depth
        (Path.length_inner_ending valid ending)
      exact ⟨same, Path.eq_plain_of_inner valid ending inner⟩
    · rintro ⟨rfl, behind⟩
      rw [behind]
      refine ⟨(reader.join (Path.spells_plain valid)).clean_tidy, ?_⟩
      rw [Path.startsWith, List.isPrefixOf_iff_prefix, show b.dir.components = _ from reader,
        show p.components = _ from spelt, List.map_append]
      exact List.prefix_append _ _

theorem aliasSpecifier?_read_iff_slashed :
    aliasSpecifier? [⟨"@/", ⟨"src"⟩⟩, ⟨"@", ⟨"src"⟩⟩] ⟨"src/ui/Card"⟩ = some "@/ui/Card" ∧
      ∀ referrer, (⟨[], [], [⟨"@/", ⟨"src"⟩⟩, ⟨"@", ⟨"src"⟩⟩], []⟩ : Resolver).basePath? referrer
        "@/ui/Card" = some (⟨"src/ui/Card"⟩ : Path).clean := by
  have written : aliasSpecifier? [⟨"@/", ⟨"src"⟩⟩, ⟨"@", ⟨"src"⟩⟩] ⟨"src/ui/Card"⟩ =
    some "@/ui/Card" := by decide +kernel
  refine ⟨written, fun referrer => ?_⟩
  obtain ⟨a, deepest, outcome⟩ := aliasSpecifier?_read_iff ⟨[], [],
    [⟨"@/", ⟨"src"⟩⟩, ⟨"@", ⟨"src"⟩⟩], []⟩ (by decide) (by decide) ⟨"src/ui/Card"⟩
      (by decide) "@/ui/Card" written
  have first : deepestAlias? [⟨"@/", ⟨"src"⟩⟩, ⟨"@", ⟨"src"⟩⟩] ⟨"src/ui/Card"⟩ =
    some ⟨"@", ⟨"src"⟩⟩ := by decide +kernel
  obtain rfl : ⟨"@", ⟨"src"⟩⟩ = a := Option.some.inj (first.symm.trans deepest)
  rw [if_neg (by decide)] at outcome
  obtain ⟨b, read, back⟩ := outcome
  have reader : Alias.Reads ⟨"@/", ⟨"src"⟩⟩ [⟨"@/", ⟨"src"⟩⟩, ⟨"@", ⟨"src"⟩⟩] "@/ui/Card" :=
    ⟨by decide, [], [⟨"@", ⟨"src"⟩⟩], rfl, by decide, by decide⟩
  obtain rfl := reader.unique read
  exact ((back referrer).mpr (by decide)).1

/-- Another alias takes the specifier over, or none reads it. -/
theorem aliasSpecifier?_read_elsewhere :
    let r : Resolver := ⟨[], [], [⟨"@/", ⟨"src"⟩⟩, ⟨"@/ui/", ⟨"lib/ui"⟩⟩], []⟩
    (∀ a ∈ r.aliases, a.lead ≠ "" ∧ a.lead.toList.head? ≠ some '.' ∧
      ∀ c ∈ a.dir.components, c.isNormal = true) ∧
      aliasSpecifier? r.aliases ⟨"src/ui/Card"⟩ = some "@/ui/Card" ∧
      r.basePath? ⟨"src/main.ts"⟩ "@/ui/Card" = some ⟨"lib/ui/Card"⟩ ∧
      aliasSpecifier? r.aliases ⟨"src"⟩ = some "@" ∧ r.basePath? ⟨"src/main.ts"⟩ "@" = none := by
  intro r
  have reader : Alias.Reads ⟨"@/ui/", ⟨"lib/ui"⟩⟩ r.aliases "@/ui/Card" :=
    ⟨by decide, [⟨"@/", ⟨"src"⟩⟩], [], rfl, by decide, by decide⟩
  have unread : r.aliasFor? "@" = none := by
    cases found : r.aliasFor? "@" with
    | none => rfl
    | some b =>
      have read := Resolver.aliasFor?_eq_some_iff.mp found
      have longer : ∀ a ∈ r.aliases, ¬ a.lead.toList <+: "@".toList := by decide
      exact (longer b read.mem read.1).elim
  refine ⟨by decide, by decide +kernel, ?_, by decide +kernel, ?_⟩
  · rw [Resolver.basePath?_reads reader (by decide)]
    decide +kernel
  · unfold Resolver.basePath?
    rw [unread]
    decide +kernel

/-! ### Aliases that keep apart -/

/-- Whatever is written as this specifier is read back. -/
def Resolver.Legible (r : Resolver) (specifier : String) : Prop :=
  ∀ p : Path, p.isAbsolute = false → aliasSpecifier? r.aliases p = some specifier →
    ∀ referrer, r.basePath? referrer specifier = some p.clean

namespace Path

theorem mem_components {p : Path} (relative : p.isAbsolute = false) {c : Component}
    (member : c ∈ p.components) : c ≠ .root ∧ ∀ name, c = .normal name → IsName name := by
  rw [components_eq] at member
  rcases List.mem_append.mp member with first | inside
  · have dot : c = .current := by
      unfold opening at first
      rw [relative] at first
      split at first
      · contradiction
      · split at first
        · exact List.mem_singleton.mp first
        · cases first
    rw [dot]
    exact ⟨by decide, by simp⟩
  · refine ⟨(inner_ne_root inside).1, ?_⟩
    rintro name rfl
    exact inner_isName inside

/-- What is written between slashes is read as the components, without dots that stand for nothing. -/
theorem slashed_texts {cs : List Component}
    (proper : ∀ c ∈ cs, c ≠ .root ∧ ∀ name, c = .normal name → IsName name) :
    ∃ texts : List String, slashed cs = "/".intercalate texts ∧
      (∀ text ∈ texts, text.toList ≠ [] ∧ '/' ∉ text.toList) ∧
      (texts.map String.toList).filterMap segment? = cs.filter (· ≠ .current) := by
  refine ⟨_, rfl, ?_⟩
  induction cs with
  | nil => simp
  | cons c rest ih =>
    obtain ⟨clear, read⟩ := ih fun c member => proper c (List.mem_cons_of_mem _ member)
    obtain ⟨unrooted, named⟩ := proper c List.mem_cons_self
    cases c with
    | root => exact (unrooted rfl).elim
    | current => exact ⟨clear, read⟩
    | parent =>
      refine ⟨List.forall_mem_cons.mpr ⟨by decide, clear⟩, ?_⟩
      rw [List.filter_cons_of_pos (by decide), ← read]
      rfl
    | normal name =>
      have valid := named name rfl
      refine ⟨List.forall_mem_cons.mpr ⟨⟨valid.toList_ne.1, valid.1⟩, clear⟩, ?_⟩
      rw [List.filter_cons_of_pos (by simp), ← read]
      exact List.filterMap_cons_some (segment?_name valid)

theorem plain_start {first : String} (proper : first.toList ≠ [] ∧ '/' ∉ first.toList)
    (others : List String) : ∃ c more, (plain (first :: others)).text.toList = c :: more ∧
    c ≠ '/' := by
  cases chars : first.toList with
  | nil => exact (proper.1 chars).elim
  | cons c cs =>
    rw [chars, List.mem_cons, not_or] at proper
    rw [toList_plain, List.map_cons, chars]
    cases others with
    | nil => exact ⟨c, cs, by simp, Ne.symm proper.2.1⟩
    | cons other rest => exact ⟨c, _, rfl, Ne.symm proper.2.1⟩

theorem cleanComponents_current (front cs : List Component) :
    cleanComponents (front ++ cs.filter (· ≠ .current)) = cleanComponents (front ++ cs) := by
  unfold cleanComponents
  rw [List.foldl_append, List.foldl_append, List.foldl_filter]
  congr 2
  funext done c
  cases c <;> rfl

end Path

theorem Alias.Clear.legible {r : Resolver} (clear : Alias.Clear r.aliases) {specifier : String}
    (read : (r.aliasFor? specifier).isSome = true) : r.Legible specifier := by
  intro p relative written referrer
  unfold aliasSpecifier? at written
  split at written
  · cases written
  · rename_i a deepest
    obtain ⟨known, within⟩ := deepestAlias?_mem deepest
    obtain ⟨cs, below, rfl⟩ := Option.map_eq_some_iff.mp written
    obtain ⟨rest, whole⟩ := List.isPrefixOf_iff_prefix.mp within
    obtain rfl : rest = cs := by
      rw [Path.below?, if_pos within, ← whole, List.drop_left] at below
      exact Option.some.inj below
    have proper : ∀ c ∈ rest, c ≠ .root ∧ ∀ name, c = .normal name → Path.IsName name :=
      fun c member => Path.mem_components relative (by rw [← whole]; exact List.mem_append_right _ member)
    obtain ⟨texts, spelt, proper, inner⟩ := Path.slashed_texts proper
    rw [spelt] at read ⊢
    cases texts with
    | nil =>
      rw [show "/".intercalate [] = "" from rfl, clear.aliasFor?_bare known] at read
      cases read
    | cons first others =>
      obtain ⟨c, more, chars, slash⟩ := Path.plain_start (proper first List.mem_cons_self) others
      have segments : (Path.plain (first :: others)).segments =
          (first :: others).map String.toList := by
        rw [Path.segments, Path.toList_plain]
        refine List.splitOn_intercalate _ (fun s member => ?_) (by simp)
        obtain ⟨text, inside, rfl⟩ := List.mem_map.mp member
        exact (proper text inside).2
      have absolute : (Path.plain (first :: others)).isAbsolute = false := by
        unfold Path.isAbsolute Path.isAbsoluteText
        rw [chars]
        simpa using slash
      have filled : "/".intercalate (first :: others) ≠ "" := by
        intro empty
        rw [Path.plain, empty] at chars
        cases chars
      have token : a.spell ("/".intercalate (first :: others)) = a.lead ++
          "/".intercalate (first :: others) := by
        unfold Alias.spell
        simp only [if_neg filled, clear.ending a known, if_true]
      have starts : a.lead.toList <+: (a.lead ++ "/".intercalate (first :: others)).toList := by
        rw [String.toList_append]
        exact List.prefix_append _ _
      have behind : Resolver.aliasRest a (a.lead ++ "/".intercalate (first :: others)) =
          Path.plain (first :: others) := by
        have kept : (Path.plain (first :: others)).text.toList.dropWhile (· == '/') =
            (Path.plain (first :: others)).text.toList := by
          rw [chars]
          exact List.dropWhile_cons_of_neg (by simpa using slash)
        unfold Resolver.aliasRest
        rw [String.toList_append, List.drop_left,
          show "/".intercalate (first :: others) = (Path.plain (first :: others)).text from rfl,
          kept, String.ofList_toList]
      have form := clear.not_relative known ("/".intercalate (first :: others))
      rw [token] at form ⊢
      unfold Resolver.basePath?
      rw [form, clear.aliasFor?_eq known starts, if_neg Bool.false_ne_true, Option.map_some, behind]
      unfold Path.clean
      rw [Path.cleanComponents_join absolute, Path.inner, segments, inner,
        Path.cleanComponents_current, whole]

end Relocation
