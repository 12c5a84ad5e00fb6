import Relocation.Proofs.Plan

/-!
# What making a plan answers

A policy aims each candidate at a path. The answer is a fault if an aim leaves the tree, else the
list of all contested destinations if there are any, else the plan with exactly the candidates that
do not stay (`make_exact`).
-/

namespace Relocation

def Collision.destination : Collision → Path
  | .shared destination _ => destination
  | .existing destination _ => destination

namespace MovePlan

/-- Where a policy has a candidate live: in the directory that it names, under the candidate's own
name. -/
def aim? (policy : Policy) (c : Candidate) : Option Path :=
  match policy c.path c.category, c.path.fileName? with
  | some dir, some name => some (dir.join ⟨name⟩).clean
  | _, _ => none

def Leaves (p : Path) : Prop := p.isAbsolute = true ∨ p.components.head? = some .parent

def Heads (policy : Policy) (destination : Path) (c : Candidate) : Prop :=
  ∃ target, aim? policy c = some target ∧ target.same c.path = false ∧ target.same destination = true

section
variable (policy : Policy) (candidates : List Candidate) (existing : List Path)

/-- Two candidates head for the destination, or one does and a file is there. -/
def Contested (destination : Path) : Prop :=
  (∃ a ∈ candidates, ∃ b ∈ candidates, a.path.same b.path = false ∧ Heads policy destination a ∧
    Heads policy destination b) ∨
  (∃ a ∈ candidates, Heads policy destination a) ∧ ∃ p ∈ existing, p.same destination = true

def Reports : Collision → Prop
  | .shared destination sources => 1 < sources.length ∧ Keys.Ascending sources ∧
      ∀ p, p ∈ sources ↔ ∃ c ∈ candidates, c.path = p ∧ Heads policy destination c
  | .existing destination source => (∃ p ∈ existing, p.same destination = true) ∧
      ∀ p, p = source ↔ ∃ c ∈ candidates, c.path = p ∧ Heads policy destination c

/-- The collisions are those of the contested destinations, one for each and in order. -/
structure Lists (all : List Collision) : Prop where
  ascending : all.Pairwise fun a b => compare a.destination b.destination = .lt
  contested : ∀ d, Contested policy candidates existing d ↔ ∃ x ∈ all, x.destination.same d = true
  reports : ∀ x ∈ all, Reports policy candidates existing x

/-- The plan moves exactly the candidates that do not stay, each to its aim. -/
structure Realises (plan : MovePlan) : Prop where
  moves : ∀ m, m ∈ plan.moves ↔
    ∃ c ∈ candidates, c.path = m.source ∧ aim? policy c = some m.target ∧ m.target.same c.path = false
  ordered : plan.moves.Pairwise fun a b => compare a.source b.source = .lt
  distinct : plan.moves.Pairwise fun a b => a.target.same b.target = false
  fresh : ∀ m ∈ plan.moves, ∀ p ∈ existing, p.same m.target = false
  lookup : ∀ p target, plan.destination? p = some target ↔
    ∃ m ∈ plan.moves, m.source.same p = true ∧ m.target = target
  apart : (∀ c ∈ candidates, ∃ p ∈ existing, p.same c.path = true) →
    ∀ a ∈ plan.moves, ∀ b ∈ plan.moves, a.source.same b.target = false

end

variable {policy : Policy} {candidates : List Candidate} {existing : List Path} {c : Candidate}

/-! ### Aims -/

theorem leaves_iff {p : Path} : Leaves p ↔ p.staysInside = false := by
  unfold Leaves Path.staysInside
  rw [Path.components_eq]
  cases absolute : p.isAbsolute with
  | true => simp [Path.opening, absolute]
  | false =>
    by_cases dot : p.segments.head? = some ['.']
    · simp [Path.opening, absolute, dot]
    · cases parts : p.inner with
      | nil => simp [Path.opening, absolute, dot]
      | cons first rest =>
        have rootless := Path.inner_ne_root (p := p) (c := first)
          (by rw [parts]; exact List.mem_cons_self)
        cases first <;> simp_all [Path.opening]

theorem place_moves_iff {target : Path} : place policy c = .moves target ↔
    aim? policy c = some target ∧ ¬ Leaves target ∧ target.same c.path = false := by
  unfold place aim?
  cases policy c.path c.category with
  | none => simp
  | some dir =>
    cases c.path.fileName? with
    | none => simp
    | some name =>
      simp only [Option.some.injEq, leaves_iff]
      generalize (dir.join ⟨name⟩).clean = aim
      constructor
      · intro placed
        split at placed
        · cases placed
        · rename_i inside
          split at placed
          · cases placed
          · rename_i moved
            cases placed
            exact ⟨rfl, by simpa using inside, by simpa using moved⟩
      · rintro ⟨rfl, inside, moved⟩
        simp [moved, inside]

theorem place_outside_iff {dir : Path} : place policy c = .outside dir ↔
    policy c.path c.category = some dir ∧ ∃ target, aim? policy c = some target ∧ Leaves target := by
  unfold place aim?
  cases policy c.path c.category with
  | none => simp
  | some dir =>
    cases c.path.fileName? with
    | none => simp
    | some name =>
      simp only [Option.some.injEq, leaves_iff, exists_eq_left']
      generalize (dir.join ⟨name⟩).clean = aim
      cases aim.staysInside with
      | true =>
        simp only [Bool.not_true, Bool.false_eq_true, if_false, Bool.true_eq_false, and_false,
          iff_false]
        split <;> simp
      | false => simp

/-! ### Destinations by source -/

theorem targets_cases (policy : Policy) (candidates : List Candidate) (t : Table Path Path) :
    (∃ c ∈ candidates, ∃ dir, place policy c = .outside dir ∧
      targets policy candidates t = .error (.invalidDestination c.path dir)) ∨
    (∀ c ∈ candidates, ∀ dir, place policy c ≠ .outside dir) ∧
    ∃ result, targets policy candidates t = .ok result := by
  induction candidates generalizing t with
  | nil => exact Or.inr ⟨by simp, t, rfl⟩
  | cons c rest ih =>
    -- What the rest answers is the answer unless this candidate leaves.
    have later : ∀ t', (∀ dir, place policy c ≠ .outside dir) →
        targets policy (c :: rest) t = targets policy rest t' →
        (∃ d ∈ c :: rest, ∃ dir, place policy d = .outside dir ∧
          targets policy (c :: rest) t = .error (.invalidDestination d.path dir)) ∨
        (∀ d ∈ c :: rest, ∀ dir, place policy d ≠ .outside dir) ∧ ∃ result, targets policy
          (c :: rest) t = .ok result := by
      intro t' stays same
      rw [same]
      rcases ih t' with ⟨d, member, dir, placed, fault⟩ | ⟨inside, result, read⟩
      · exact Or.inl ⟨d, List.mem_cons_of_mem _ member, dir, placed, fault⟩
      · refine Or.inr ⟨fun d member => ?_, result, read⟩
        rcases List.mem_cons.mp member with rfl | other
        · exact stays
        · exact inside d other
    cases placed : place policy c with
    | stays => exact later t (by simp [placed]) (by rw [targets, placed])
    | moves target => exact later (t.insert c.path target) (by simp [placed]) (by rw [targets, placed])
    | outside dir => exact Or.inl ⟨c, List.mem_cons_self, dir, placed, by rw [targets, placed]⟩

theorem mem_targets {t result : Table Path Path} (read : targets policy candidates t = .ok result)
    (distinct : candidates.Pairwise fun a b => a.path.same b.path = false)
    (fresh : ∀ c ∈ candidates, ∀ entry ∈ t.entries, compare c.path entry.1 ≠ .eq)
    (entry : Path × Path) : entry ∈ result.entries ↔ entry ∈ t.entries ∨
    ∃ c ∈ candidates, c.path = entry.1 ∧ place policy c = .moves entry.2 := by
  induction candidates generalizing t with
  | nil =>
    cases read
    simp
  | cons c rest ih =>
    obtain ⟨apart, others⟩ := List.pairwise_cons.mp distinct
    have rested : ∀ d ∈ rest, ∀ entry ∈ t.entries, compare d.path entry.1 ≠ .eq := fun d member =>
      fresh d (List.mem_cons_of_mem _ member)
    unfold targets at read
    split at read
    · rename_i placed
      rw [ih read others rested]
      simp [placed]
    · cases read
    · rename_i target placed
      have added : ∀ entry, entry ∈ (t.insert c.path target).entries ↔ entry = (c.path, target) ∨
          entry ∈ t.entries := fun _ =>
        Table.mem_insert_fresh (fresh c List.mem_cons_self)
      rw [ih read others ?_, added]
      · simp only [List.mem_cons, exists_eq_or_imp, placed, Placement.moves.injEq]
        constructor
        · rintro ((rfl | old) | later)
          · exact Or.inr (Or.inl ⟨rfl, rfl⟩)
          · exact Or.inl old
          · exact Or.inr (Or.inr later)
        · rintro (old | ⟨key, value⟩ | later)
          · exact Or.inl (Or.inr old)
          · exact Or.inl (Or.inl (Prod.ext key.symm value.symm))
          · exact Or.inr later
      · intro d member entry inside
        rcases (added entry).mp inside with rfl | old
        · rw [Ne, Path.compare_eq_iff, ← Path.same_iff]
          intro same
          have different := apart d member
          rw [Path.same_iff.mpr (Path.same_iff.mp same).symm] at different
          cases different
        · exact rested d member entry old

/-! ### Sources by destination -/

theorem collision?_destination {group : Path × List Path} {x : Collision}
    (collides : collision? existing group = some x) : x.destination = group.1 := by
  unfold collision? at collides
  split at collides
  · split at collides
    · cases collides
      rfl
    · cases collides
  · cases collides
    rfl

theorem collision?_some {d : Path} {sources : List Path} (filled : sources ≠ []) {x : Collision}
    (collides : collision? existing (d, sources) = some x) :
    1 < sources.length ∧ x = .shared d sources ∨
      ∃ source, sources = [source] ∧ x = .existing d source ∧ ∃ p ∈ existing, p.same d = true := by
  unfold collision? at collides
  split at collides
  · rename_i source same
    cases same
    split at collides
    · rename_i held
      cases collides
      obtain ⟨p, known, equal⟩ := Keys.contains_iff.mp held
      exact Or.inr ⟨_, rfl, rfl, p, known, Path.same_iff.mpr (Path.compare_eq_iff.mp equal).symm⟩
    · cases collides
  · rename_i several same
    cases same
    cases collides
    refine Or.inl ⟨?_, rfl⟩
    cases sources with
    | nil => exact (filled rfl).elim
    | cons source rest =>
      cases rest with
      | nil => exact (several source rfl).elim
      | cons other rest => simp

theorem sources_ascending {t : Table Path Path} {d : Path} {sources : List Path}
    (member : (d, sources) ∈ (byDestination t).entries) : Keys.Ascending sources := by
  rw [mem_byDestination member]
  exact List.pairwise_map.mpr (t.ascending.filter _)

section
variable (inside : ∀ c ∈ candidates, ∀ target, aim? policy c = some target → ¬ Leaves target)
  (distinct : candidates.Pairwise fun a b => a.path.same b.path = false) {t : Table Path Path}
  (read : targets policy candidates ∅ = .ok t)
include inside distinct read

theorem mem_table (p target : Path) : (p, target) ∈ t.entries ↔
    ∃ c ∈ candidates, c.path = p ∧ aim? policy c = some target ∧ target.same c.path = false := by
  rw [mem_targets read distinct (by simp)]
  simp only [Table.entries_empty, List.not_mem_nil, false_or, place_moves_iff]
  constructor
  · rintro ⟨c, member, path, aimed, _, moved⟩
    exact ⟨c, member, path, aimed, moved⟩
  · rintro ⟨c, member, path, aimed, moved⟩
    exact ⟨c, member, path, aimed, inside c member target aimed, moved⟩

/-- The sources that are grouped under a destination are the candidates that head for it. -/
theorem mem_sources {d : Path} {sources : List Path}
    (member : (d, sources) ∈ (byDestination t).entries) (p : Path) :
    p ∈ sources ↔ ∃ c ∈ candidates, c.path = p ∧ Heads policy d c := by
  have table := mem_table inside distinct read
  rw [mem_byDestination member, List.mem_map]
  constructor
  · rintro ⟨entry, listed, rfl⟩
    obtain ⟨known, same⟩ := List.mem_filter.mp listed
    obtain ⟨c, candidate, path, aimed, moved⟩ := (table entry.1 entry.2).mp known
    refine ⟨c, candidate, path, entry.2, aimed, moved, Path.same_iff.mpr ?_⟩
    exact (Path.compare_eq_iff.mp (by simpa using same)).symm
  · rintro ⟨c, candidate, rfl, target, aimed, moved, same⟩
    refine ⟨(c.path, target), List.mem_filter.mpr
      ⟨(table _ _).mpr ⟨c, candidate, rfl, aimed, moved⟩, ?_⟩, rfl⟩
    simpa using Path.compare_eq_iff.mpr (Path.same_iff.mp same).symm

theorem reports_collision {x : Collision}
    (listed : x ∈ (byDestination t).filterMap (collision? existing)) :
    Reports policy candidates existing x := by
  obtain ⟨⟨d, sources⟩, member, collides⟩ := List.mem_filterMap.mp listed
  have heads := mem_sources inside distinct read member
  obtain ⟨several, rfl⟩ | ⟨source, rfl, rfl, known⟩ :=
    collision?_some (byDestination_filled t _ member) collides
  · exact ⟨several, sources_ascending member, heads⟩
  · refine ⟨known, fun p => ?_⟩
    rw [← heads, List.mem_singleton]

theorem collision_of_contested {d : Path} (contested : Contested policy candidates existing d) :
    ∃ x ∈ (byDestination t).filterMap (collision? existing), x.destination.same d = true := by
  have heading : ∃ a ∈ candidates, Heads policy d a := by
    rcases contested with ⟨a, member, _, _, _, heads, _⟩ | ⟨heading, _⟩
    · exact ⟨a, member, heads⟩
    · exact heading
  obtain ⟨a, candidate, target, aimed, moved, same⟩ := heading
  obtain ⟨d', sources, member, equal⟩ :=
    byDestination_covers ((mem_table inside distinct read a.path target).mpr ⟨a, candidate, rfl,
      aimed, moved⟩)
  have alike : d'.components = d.components := equal.trans (Path.same_iff.mp same)
  cases collides : collision? existing (d', sources) with
  | some x =>
    refine ⟨x, List.mem_filterMap.mpr ⟨_, member, collides⟩, ?_⟩
    rw [collision?_destination collides]
    exact Path.same_iff.mpr alike
  | none =>
    obtain ⟨⟨source, rfl⟩, absent⟩ := collision?_none collides
    rcases contested with ⟨b, left, c, right, apart, first, second⟩ | ⟨_, p, known, there⟩
    · have single : ∀ b ∈ candidates, Heads policy d b → b.path = source := by
        rintro b listed ⟨target, aimed, moved, same⟩
        exact List.mem_singleton.mp ((mem_sources inside distinct read member b.path).mpr
          ⟨b, listed, rfl, target, aimed, moved, Path.same_iff.mpr
            ((Path.same_iff.mp same).trans alike.symm)⟩)
      rw [single b left first, single c right second, Path.same_iff.mpr rfl] at apart
      cases apart
    · have free := absent p known
      rw [Path.same_iff.mpr ((Path.same_iff.mp there).trans alike.symm)] at free
      cases free

end

theorem Heads.congr {d d' : Path} (heads : Heads policy d c) (same : d.components = d'.components) :
    Heads policy d' c := by
  obtain ⟨target, aimed, moved, equal⟩ := heads
  exact ⟨target, aimed, moved, Path.same_iff.mpr ((Path.same_iff.mp equal).trans same)⟩

theorem Reports.contested {x : Collision} (reports : Reports policy candidates existing x) {d : Path}
    (same : x.destination.components = d.components) : Contested policy candidates existing d := by
  cases x with
  | shared destination sources =>
    obtain ⟨several, ascending, heads⟩ := reports
    cases sources with
    | nil => simp at several
    | cons first rest =>
      cases rest with
      | nil => simp at several
      | cons second rest =>
        obtain ⟨a, left, rfl, leads⟩ := (heads first).mp (by simp)
        obtain ⟨b, right, rfl, leads'⟩ := (heads second).mp (by simp)
        have less := (List.pairwise_cons.mp ascending).1 b.path List.mem_cons_self
        refine Or.inl ⟨a, left, b, right, ?_, leads.congr same, leads'.congr same⟩
        rw [← Bool.not_eq_true, Path.same_iff]
        exact Path.components_ne_of_lt less
  | existing destination source =>
    obtain ⟨⟨p, known, there⟩, heads⟩ := reports
    obtain ⟨a, candidate, _, leads⟩ := (heads source).mp rfl
    exact Or.inr ⟨⟨a, candidate, leads.congr same⟩, p, known,
      Path.same_iff.mpr ((Path.same_iff.mp there).trans same)⟩

/-! ### The answer -/

theorem make_eq {t : Table Path Path} (read : targets policy candidates ∅ = .ok t) :
    make candidates policy existing =
      if (byDestination t).filterMap (collision? existing) = [] then .ok ⟨t.entries.map fun entry =>
        ⟨entry.1, entry.2⟩⟩
      else .error (.collisions ((byDestination t).filterMap (collision? existing))) := by
  rw [make, read]
  simp only [bind, Except.bind]
  split
  · rename_i clear
    rw [if_pos clear]
  · rename_i found
    rw [if_neg found]

section
variable (inside : ∀ c ∈ candidates, ∀ target, aim? policy c = some target → ¬ Leaves target)
  (distinct : candidates.Pairwise fun a b => a.path.same b.path = false) {t : Table Path Path}
  (read : targets policy candidates ∅ = .ok t)
include inside distinct read

theorem lists_collisions :
    Lists policy candidates existing ((byDestination t).filterMap (collision? existing)) := by
  constructor
  · refine (byDestination t).ascending.filterMap _ fun a b less x first y second => ?_
    rw [collision?_destination first, collision?_destination second]
    exact less
  · refine fun d => ⟨collision_of_contested inside distinct read, ?_⟩
    rintro ⟨x, listed, same⟩
    exact (reports_collision inside distinct read listed).contested (Path.same_iff.mp same)
  · exact fun x listed => reports_collision inside distinct read listed

theorem realises_table (clear : (byDestination t).filterMap (collision? existing) = []) :
    Realises policy candidates existing ⟨t.entries.map fun entry => ⟨entry.1, entry.2⟩⟩ := by
  have sound : Sound ⟨t.entries.map fun entry => ⟨entry.1, entry.2⟩⟩ candidates existing :=
    sound_of_make ((make_eq read).trans (if_pos clear))
  have table := mem_table inside distinct read
  have moves : ∀ m : Move, m ∈ t.entries.map (fun entry => (⟨entry.1, entry.2⟩ : Move)) ↔
      ∃ c ∈ candidates, c.path = m.source ∧ aim? policy c = some m.target ∧
      m.target.same c.path = false := by
    intro m
    rw [← table, List.mem_map]
    constructor
    · rintro ⟨entry, listed, rfl⟩
      exact listed
    · exact fun listed => ⟨_, listed, rfl⟩
  refine ⟨moves, sound.ordered, sound.distinct, sound.fresh, fun p target => ?_,
    fun known a left b right => ?_⟩
  · constructor
    · intro found
      obtain ⟨m, listed, same, target⟩ := destination?_some found
      exact ⟨m, listed, Path.same_iff.mpr same, target⟩
    · rintro ⟨m, listed, same, rfl⟩
      exact destination?_of_ordered sound.ordered listed (Path.same_iff.mp same)
  · obtain ⟨c, candidate, source, _⟩ := (moves a).mp left
    obtain ⟨p, there, same⟩ := known c candidate
    rw [← sound.fresh b right p there, Path.same, Path.same, Path.same_iff.mp same, source]

end

/-- A plan is refused because an aim leaves the tree; or else because of all contested destinations;
or else it is made, and moves what does not stay. -/
theorem make_exact (candidates : List Candidate) (policy : Policy) (existing : List Path)
    (distinct : candidates.Pairwise fun a b => a.path.same b.path = false) :
    ((∃ module dir, make candidates policy existing = .error (.invalidDestination module dir)) ↔
      ∃ c ∈ candidates, ∃ target, aim? policy c = some target ∧ Leaves target) ∧
    (∀ module dir, make candidates policy existing = .error (.invalidDestination module dir) →
      ∃ c ∈ candidates, c.path = module ∧ policy c.path c.category = some dir ∧
        ∃ target, aim? policy c = some target ∧ Leaves target) ∧
    ((∀ c ∈ candidates, ∀ target, aim? policy c = some target → ¬ Leaves target) →
      ((∃ all, make candidates policy existing = .error (.collisions all)) ↔
        ∃ d, Contested policy candidates existing d) ∧
      (∀ all, make candidates policy existing = .error (.collisions all) →
        Lists policy candidates existing all) ∧
      ((∀ d, ¬ Contested policy candidates existing d) →
        ∃ plan, make candidates policy existing = .ok plan ∧
        Realises policy candidates existing plan)) := by
  rcases targets_cases policy candidates ∅ with ⟨c, member, dir, placed, fault⟩ | ⟨stays, t, read⟩
  · obtain ⟨named, target, aimed, leaves⟩ := place_outside_iff.mp placed
    have refused : make candidates policy existing = .error (.invalidDestination c.path dir) := by
      rw [make, fault]
      rfl
    refine ⟨⟨fun _ => ⟨c, member, target, aimed, leaves⟩, fun _ => ⟨_, _, refused⟩⟩, ?_,
      fun inside => (inside c member target aimed leaves).elim⟩
    intro module dir' answer
    cases refused.symm.trans answer
    exact ⟨c, member, rfl, named, target, aimed, leaves⟩
  · have inside : ∀ c ∈ candidates, ∀ target, aim? policy c = some target → ¬ Leaves target := by
      intro c member target aimed leaves
      cases directed : policy c.path c.category with
      | none => simp [aim?, directed] at aimed
      | some dir => exact stays c member dir (place_outside_iff.mpr ⟨directed, target, aimed, leaves⟩)
    have answer : make candidates policy existing = _ := make_eq read
    have lists : Lists policy candidates existing _ := lists_collisions inside distinct read
    have kept : ∀ module dir, make candidates policy existing ≠ .error
        (.invalidDestination module dir) := by
      intro module dir refused
      rw [refused] at answer
      split at answer <;> cases answer
    refine ⟨⟨fun ⟨module, dir, refused⟩ => (kept module dir refused).elim, ?_⟩,
      fun module dir refused => (kept module dir refused).elim, fun _ => ?_⟩
    · rintro ⟨c, member, target, aimed, leaves⟩
      exact (inside c member target aimed leaves).elim
    by_cases clear : (byDestination t).filterMap (collision? existing) = []
    · have made := answer.trans (if_pos clear)
      have peace : ∀ d, ¬ Contested policy candidates existing d := by
        intro d contested
        obtain ⟨x, listed, _⟩ := (lists.contested d).mp contested
        rw [clear] at listed
        cases listed
      refine ⟨⟨fun ⟨all, refused⟩ => ?_, fun ⟨d, contested⟩ => (peace d contested).elim⟩,
        fun all refused => ?_, fun _ => ⟨_, made, realises_table inside distinct read clear⟩⟩
      · cases made.symm.trans refused
      · cases made.symm.trans refused
    · have refused := answer.trans (if_neg clear)
      obtain ⟨x, listed⟩ := List.exists_mem_of_ne_nil _ clear
      have contested := (lists.contested x.destination).mpr ⟨x, listed, Path.same_iff.mpr rfl⟩
      refine ⟨⟨fun _ => ⟨_, contested⟩, fun _ => ⟨_, refused⟩⟩, fun all other => ?_,
        fun peace => (peace _ contested).elim⟩
      cases refused.symm.trans other
      exact lists

/-- Of three candidates for one directory, two have the same name and the third meets a file. -/
theorem make_exact_crowded :
    let candidates : List Candidate := [⟨⟨"y/one.ts"⟩, none⟩, ⟨⟨"x/one.ts"⟩, none⟩,
      ⟨⟨"z/two.ts"⟩, none⟩]
    let policy : Policy := fun _ _ => some ⟨"shared"⟩
    let existing : List Path := [⟨"shared/two.ts"⟩, ⟨"x/one.ts"⟩, ⟨"y/one.ts"⟩, ⟨"z/two.ts"⟩]
    let all : List Collision := [.shared ⟨"shared/one.ts"⟩ [⟨"x/one.ts"⟩, ⟨"y/one.ts"⟩],
      .existing ⟨"shared/two.ts"⟩ ⟨"z/two.ts"⟩]
    candidates.Pairwise (fun a b => a.path.same b.path = false) ∧
      make candidates policy existing = .error (.collisions all) ∧
      Lists policy candidates existing all := by
  intro candidates policy existing all
  have distinct : candidates.Pairwise fun a b => a.path.same b.path = false := by decide
  have refused : make candidates policy existing = .error (.collisions all) := by decide +kernel
  obtain ⟨leaving, _, answers⟩ := make_exact candidates policy existing distinct
  refine ⟨distinct, refused, (answers fun c member target aimed leaves => ?_).2.1 all refused⟩
  obtain ⟨module, dir, other⟩ := leaving.mpr ⟨c, member, target, aimed, leaves⟩
  cases refused.symm.trans other

end MovePlan

end Relocation
