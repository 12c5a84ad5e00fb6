import Mathlib.Data.List.Nodup
import Relocation.Proofs.Path.Cleaning
import Relocation.Proofs.Table
import Relocation.Plan

/-!
# What a plan guarantees

A plan that was made moves candidates only, each once and under its own name, to destinations that
are cleaned, lie inside the tree, differ from one another and are no file that exists.
-/

namespace Relocation

theorem Path.fileName?_isName {p : Path} {name : String} (named : p.fileName? = some name) :
    Path.IsName name := by
  unfold fileName? at named
  split at named
  · rename_i last found
    cases named
    have member := List.mem_of_getLast? found
    rw [components_eq] at member
    rcases List.mem_append.mp member with start | inside
    · unfold opening at start
      split at start
      · simp at start
      · split at start <;> simp at start
    · exact inner_isName inside
  · cases named

namespace MovePlan

/-- What is true of every plan that was made. -/
structure Sound (plan : MovePlan) (candidates : List Candidate) (existing : List Path) : Prop where
  known : ∀ move ∈ plan.moves, ∃ c ∈ candidates, c.path = move.source
  spelt : ∀ move ∈ plan.moves, ∃ names name, move.source.fileName? = some name ∧
    move.target = Path.plain (names ++ [name]) ∧ ∀ other ∈ names ++ [name], Path.IsName other
  ordered : plan.moves.Pairwise fun a b => compare a.source b.source = .lt
  distinct : plan.moves.Pairwise fun a b => a.target.same b.target = false
  fresh : ∀ move ∈ plan.moves, ∀ p ∈ existing, p.same move.target = false

/-! ### Destinations by source -/

theorem place_moves {policy : Policy} {c : Candidate} {target : Path}
    (placed : place policy c = .moves target) :
    ∃ names name, c.path.fileName? = some name ∧ target = Path.plain (names ++ [name]) ∧
      ∀ other ∈ names ++ [name], Path.IsName other := by
  unfold place at placed
  split at placed
  · rename_i dir name _ named
    simp only at placed
    split at placed
    · cases placed
    · rename_i inside
      split at placed
      · cases placed
      · cases placed
        obtain ⟨names, cleaned, valid⟩ := Path.clean_join_name (Path.fileName?_isName named)
          (by simpa using inside)
        exact ⟨names, name, named, cleaned, valid⟩
  · cases placed

/-- Keys are paths of candidates, and each destination is that of a candidate with the path of the key. -/
theorem targets_entries {policy : Policy} {all : List Candidate} {candidates : List Candidate}
    {t result : Table Path Path} (made : targets policy candidates t = .ok result)
    (listed : ∀ c ∈ candidates, c ∈ all) (keyed : ∀ k ∈ t.keys, ∃ c ∈ all, c.path = k)
    (valued : ∀ entry ∈ t.entries, ∃ c ∈ all, c.path.components = entry.1.components ∧
      place policy c = .moves entry.2) :
    (∀ k ∈ result.keys, ∃ c ∈ all, c.path = k) ∧
      ∀ entry ∈ result.entries, ∃ c ∈ all, c.path.components = entry.1.components ∧
      place policy c = .moves entry.2 := by
  induction candidates generalizing t with
  | nil =>
    cases made
    exact ⟨keyed, valued⟩
  | cons c rest ih =>
    have others : ∀ c ∈ rest, c ∈ all := fun c member => listed c (List.mem_cons_of_mem _ member)
    have present := listed c List.mem_cons_self
    unfold targets at made
    split at made
    · exact ih made others keyed valued
    · cases made
    · rename_i target placed
      refine ih made others ?_ ?_
      · intro k member
        rcases Table.mem_keys_insert member with rfl | old
        · exact ⟨c, present, rfl⟩
        · exact keyed k old
      · intro entry member
        rcases Table.mem_insert member with old | ⟨key, value⟩
        · exact valued entry old
        · refine ⟨c, present, ?_, by rw [value]; exact placed⟩
          rcases key with same | same
          · exact Path.compare_eq_iff.mp same
          · rw [same]

/-! ### Sources by destination -/

/-- Grouping keeps, for each destination, the sources in their order. -/
theorem find?_byDestination (t : Table Path Path) (q : Path) :
    ((byDestination t).find? q).getD [] = (t.entries.filter fun entry => compare q entry.2 =
      .eq).map (·.1) := by
  have folded : ∀ (entries : List (Path × Path)) (acc : Table Path (List Path)),
      ((entries.foldl (fun acc entry => acc.modify entry.2 [] (· ++ [entry.1])) acc).find? q).getD [] =
        (acc.find? q).getD [] ++ (entries.filter fun entry => compare q entry.2 = .eq).map (·.1) := by
    intro entries
    induction entries with
    | nil => intro acc; simp
    | cons entry rest ih =>
      intro acc
      obtain ⟨source, target⟩ := entry
      rw [List.foldl_cons, ih, List.filter_cons]
      simp only [Table.modify, Table.find?_insert]
      by_cases same : compare q target = .eq
      · have equal : acc.find? target = acc.find? q :=
          Table.find?_congr (Std.OrientedCmp.eq_symm same) acc
        simp [same, equal]
      · simp [same]
  exact (folded t.entries ∅).trans (by simp)

theorem byDestination_filled (t : Table Path Path) :
    ∀ entry ∈ (byDestination t).entries, entry.2 ≠ [] := by
  have folded : ∀ (entries : List (Path × Path)) (acc : Table Path (List Path)),
      (∀ entry ∈ acc.entries, entry.2 ≠ []) →
      ∀ entry ∈ (entries.foldl (fun acc entry => acc.modify entry.2 [] (· ++ [entry.1])) acc).entries,
        entry.2 ≠ [] := by
    intro entries
    induction entries with
    | nil => exact fun acc filled => filled
    | cons entry rest ih =>
      intro acc filled
      refine ih _ fun other member => ?_
      rcases Table.mem_insert member with old | ⟨_, value⟩
      · exact filled other old
      · rw [value]
        simp
  exact folded t.entries ∅ (by simp)

theorem mem_byDestination {t : Table Path Path} {d : Path} {sources : List Path}
    (member : (d, sources) ∈ (byDestination t).entries) :
    sources = (t.entries.filter fun entry => compare d entry.2 = .eq).map (·.1) := by
  rw [← find?_byDestination, Table.find?_of_mem member]
  rfl

theorem byDestination_covers {t : Table Path Path} {entry : Path × Path} (member : entry ∈ t.entries) :
    ∃ d sources, (d, sources) ∈ (byDestination t).entries ∧ d.components = entry.2.components := by
  have grouped := find?_byDestination t entry.2
  cases found : (byDestination t).find? entry.2 with
  | none =>
    rw [found] at grouped
    have empty := List.map_eq_nil_iff.mp grouped.symm
    have inside : entry ∈ t.entries.filter fun other => compare entry.2 other.2 = .eq :=
      List.mem_filter.mpr ⟨member, by simp⟩
    rw [empty] at inside
    cases inside
  | some sources =>
    obtain ⟨d, same, listed⟩ := Table.find?_mem found
    exact ⟨d, sources, listed, (Path.compare_eq_iff.mp same).symm⟩

theorem collision?_none {existing : List Path} {d : Path} {sources : List Path}
    (clear : collision? existing (d, sources) = none) :
    (∃ source, sources = [source]) ∧ ∀ p ∈ existing, p.same d = false := by
  unfold collision? at clear
  split at clear
  · rename_i source same
    cases same
    split at clear
    · cases clear
    · rename_i absent
      refine ⟨⟨_, rfl⟩, fun p known => ?_⟩
      rw [← Bool.not_eq_true, Path.same_iff]
      exact fun equal => absent (Keys.contains_iff.mpr ⟨p, known, Path.compare_eq_iff.mpr equal.symm⟩)
  · cases clear

theorem filter_single {t : Table Path Path} {existing : List Path}
    (clear : (byDestination t).filterMap (collision? existing) = []) {entry : Path × Path}
    (member : entry ∈ t.entries) :
    (t.entries.filter fun other => compare entry.2 other.2 = .eq).length = 1 ∧
      ∀ p ∈ existing, p.same entry.2 = false := by
  obtain ⟨d, sources, listed, same⟩ := byDestination_covers member
  obtain ⟨⟨source, only⟩, absent⟩ := collision?_none (List.filterMap_eq_nil_iff.mp clear _ listed)
  have alike : ∀ other, compare d other = compare entry.2 other := fun other =>
    Std.TransCmp.congr_left (Path.compare_eq_iff.mpr same)
  have grouped := mem_byDestination listed
  simp only [alike] at grouped
  refine ⟨by rw [← List.length_map (·.1), ← grouped, only]; rfl, fun p known => ?_⟩
  rw [← absent p known, Path.same, Path.same, same]

theorem sound_of_make {candidates : List Candidate} {policy : Policy} {existing : List Path}
    {plan : MovePlan} (made : make candidates policy existing = .ok plan) :
    plan.Sound candidates existing := by
  unfold make at made
  cases read : targets policy candidates ∅ with
  | error fault => rw [read] at made; cases made
  | ok t =>
    rw [read] at made
    simp only [bind, Except.bind] at made
    split at made
    · rename_i clear
      cases made
      obtain ⟨keyed, valued⟩ := targets_entries read (fun c member => member)
        (by simp [Table.keys]) (by simp)
      have entries : ∀ move ∈ t.entries.map fun entry => (⟨entry.1, entry.2⟩ : Move),
          (move.source, move.target) ∈ t.entries := by
        intro move member
        obtain ⟨entry, inside, rfl⟩ := List.mem_map.mp member
        exact inside
      constructor
      · intro move member
        exact keyed _ (List.mem_map.mpr ⟨_, entries move member, rfl⟩)
      · intro move member
        obtain ⟨c, _, same, placed⟩ := valued _ (entries move member)
        obtain ⟨names, name, named, target, valid⟩ := place_moves placed
        refine ⟨names, name, ?_, target, valid⟩
        rw [Path.fileName?, ← same]
        exact named
      · exact List.pairwise_map.mpr t.ascending
      · refine List.pairwise_map.mpr ((List.pairwise_iff_forall_sublist).mpr ?_)
        intro a b pair
        rw [← Bool.not_eq_true, Path.same_iff]
        intro same
        have single := (filter_single clear (pair.subset List.mem_cons_self)).1
        have both := (pair.filter fun other => compare a.2 other.2 = .eq).length_le
        simp only at same
        rw [single, List.filter_cons_of_pos (by simp), List.filter_cons_of_pos
          (by simpa using Path.compare_eq_iff.mpr same)] at both
        simp at both
      · intro move member
        exact (filter_single clear (entries move member)).2
    · cases made

/-! ### Final paths -/

variable {plan : MovePlan} {candidates : List Candidate} {existing : List Path}

theorem Sound.source_inj (sound : plan.Sound candidates existing) {a b : Move} (left : a ∈ plan.moves)
    (right : b ∈ plan.moves) (same : a.source.components = b.source.components) : a = b := by
  have distinct : (plan.moves.map (·.source.components)).Nodup := by
    refine List.pairwise_map.mpr (sound.ordered.imp fun less equal => ?_)
    rw [Path.compare_eq_iff.mpr equal] at less
    cases less
  exact List.inj_on_of_nodup_map distinct left right same

theorem Sound.target_inj (sound : plan.Sound candidates existing) {a b : Move} (left : a ∈ plan.moves)
    (right : b ∈ plan.moves) (same : a.target.components = b.target.components) : a = b := by
  have distinct : (plan.moves.map (·.target.components)).Nodup := by
    refine List.pairwise_map.mpr (sound.distinct.imp fun different equal => ?_)
    rw [Path.same_iff.mpr equal] at different
    cases different
  exact List.inj_on_of_nodup_map distinct left right same

theorem oriented_of_ordered {moves : List Move}
    (ordered : moves.Pairwise fun a b => compare a.source b.source = .lt)
    (p : Path) : Oriented (fun m => compare m.source p) moves := by
  refine ordered.imp fun {a b} less notBefore => ?_
  have swapped : compare p a.source = (compare a.source p).swap := Std.OrientedCmp.eq_swap
  have reached : (compare p a.source).isLE = true := by
    rw [swapped]
    cases compared : compare a.source p with
    | lt => exact (notBefore compared).elim
    | eq => rfl
    | gt => rfl
  exact Std.OrientedCmp.gt_iff_lt.mpr (Std.TransCmp.lt_of_isLE_of_lt reached less)

theorem destination?_some {p target : Path} (found : plan.destination? p = some target) :
    ∃ move ∈ plan.moves, move.source.components = p.components ∧ move.target = target := by
  obtain ⟨move, hit, rfl⟩ := Option.map_eq_some_iff.mp found
  obtain ⟨member, same⟩ := bisect?_some hit
  exact ⟨move, member, Path.compare_eq_iff.mp same, rfl⟩

theorem destination?_of_ordered
    (ordered : plan.moves.Pairwise fun a b => compare a.source b.source = .lt)
    {move : Move} (member : move ∈ plan.moves) {p : Path}
    (same : move.source.components = p.components) : plan.destination? p = some move.target := by
  rw [destination?, bisect?_of_mem (oriented_of_ordered ordered p) member
    (Path.compare_eq_iff.mpr same)]
  rfl

theorem Sound.destination?_eq (sound : plan.Sound candidates existing) {move : Move}
    (member : move ∈ plan.moves) {p : Path} (same : move.source.components = p.components) :
    plan.destination? p = some move.target :=
  destination?_of_ordered sound.ordered member same

theorem Sound.finalPath_moved (sound : plan.Sound candidates existing) {move : Move}
    (member : move ∈ plan.moves) {p : Path} (same : move.source.components = p.components) :
    plan.finalPath p = move.target := by
  rw [finalPath, sound.destination?_eq member same]
  rfl

theorem destination?_none {p : Path}
    (stays : ∀ move ∈ plan.moves, move.source.components ≠ p.components) :
    plan.destination? p = none := by
  cases found : plan.destination? p with
  | none => rfl
  | some target =>
    obtain ⟨move, member, same, _⟩ := destination?_some found
    exact (stays move member same).elim

theorem finalPath_stays {p : Path}
    (stays : ∀ move ∈ plan.moves, move.source.components ≠ p.components) :
    plan.finalPath p = p := by
  rw [finalPath, destination?_none stays]
  rfl

theorem finalPath_cases (plan : MovePlan) (p : Path) :
    plan.finalPath p = p ∨ ∃ m ∈ plan.moves, m.source.components = p.components ∧
    plan.finalPath p = m.target := by
  unfold finalPath
  cases found : plan.destination? p with
  | none => exact Or.inl rfl
  | some target =>
    obtain ⟨m, member, same, rfl⟩ := destination?_some found
    exact Or.inr ⟨m, member, same, rfl⟩

theorem destination?_congr {p q : Path} (same : p.components = q.components) :
    plan.destination? p = plan.destination? q := by
  have order : (fun m : Move => compare m.source p) = fun m => compare m.source q := by
    funext m
    exact Std.TransCmp.congr_right (Path.compare_eq_iff.mpr same)
  unfold destination?
  rw [order]

theorem finalPath_congr {p q : Path} (same : p.components = q.components) :
    (plan.finalPath p).components = (plan.finalPath q).components := by
  unfold finalPath
  rw [destination?_congr same]
  cases plan.destination? q with
  | none => exact same
  | some target => rfl

theorem finalPath_of_stays {p : Path} (stays : plan.isMoved p = false) : plan.finalPath p = p := by
  unfold isMoved at stays
  rw [finalPath, Option.isSome_eq_false_iff.mp stays |> Option.isNone_iff_eq_none.mp]
  rfl

theorem Sound.finalPath_names (sound : plan.Sound candidates existing) {p : Path} {names : List String}
    (spelt : p.Spells names) :
    plan.isMoved p = false ∧ plan.finalPath p = p ∨
      ∃ moved, plan.finalPath p = Path.plain moved ∧ (∀ name ∈ moved, Path.IsName name) ∧
        moved.getLast? = names.getLast? := by
  cases destined : plan.isMoved p with
  | false => exact Or.inl ⟨rfl, finalPath_of_stays destined⟩
  | true =>
    obtain ⟨target, destination⟩ := Option.isSome_iff_exists.mp destined
    obtain ⟨move, found, same, rfl⟩ := destination?_some destination
    obtain ⟨outer, name, named, target, valid⟩ := sound.spelt move found
    refine Or.inr ⟨outer ++ [name], ?_, valid, ?_⟩
    · rw [finalPath, destination, ← target]
      rfl
    · have own : move.source.Spells names := same.trans spelt
      rw [List.getLast?_concat, ← named, own.fileName?]

theorem Sound.finalPath_plain (sound : plan.Sound candidates existing) {names : List String}
    (valid : ∀ name ∈ names, Path.IsName name) :
    ∃ moved, plan.finalPath (Path.plain names) = Path.plain moved ∧
    (∀ name ∈ moved, Path.IsName name) ∧
      moved.getLast? = names.getLast? := by
  rcases sound.finalPath_names (Path.spells_plain valid) with ⟨_, stays⟩ | moved
  · exact ⟨names, stays, valid, rfl⟩
  · exact moved

theorem Sound.finalPath_spells (sound : plan.Sound candidates existing) {p : Path}
    {names : List String} (spelt : p.Spells names) : ∃ moved, (plan.finalPath p).Spells moved := by
  rcases sound.finalPath_names spelt with ⟨_, stays⟩ | ⟨moved, same, valid, _⟩
  · exact ⟨names, by rw [stays]; exact spelt⟩
  · exact ⟨moved, same ▸ Path.spells_plain valid⟩

end MovePlan

end Relocation
