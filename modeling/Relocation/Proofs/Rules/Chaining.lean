import Mathlib.Data.Set.Finite.Basic
import Relocation.Proofs.Rules.Derivation
import Relocation.Proofs.Rules.Rewriting

/-!
# Rules that chain

The rules in force for a referrer are its own, laid over the shared ones. They chain if they produce
a token that they replace. `chained?` finds a chain exactly if there is a referrer with one
(`chained?_eq_none_iff`).
-/

namespace Relocation

theorem Path.exists_other (paths : List Path) : ∃ p : Path, ∀ q ∈ paths, compare p q ≠ .eq := by
  let deep (n : Nat) : Path := Path.plain (List.replicate n "a")
  have spelt : ∀ n, (deep n).components = (List.replicate n "a").map Component.normal := fun n =>
    Path.spells_plain fun name member => (List.eq_of_mem_replicate member) ▸ by decide
  have different : Function.Injective fun n => (deep n).components := by
    intro n m same
    have lengths := congrArg List.length same
    simpa [spelt] using lengths
  obtain ⟨_, ⟨n, rfl⟩, unlisted⟩ := (Set.infinite_range_of_injective different).exists_notMem_finite
    (paths.map Path.components).finite_toSet
  refine ⟨deep n, fun q member same => unlisted ?_⟩
  exact List.mem_map.mpr ⟨q, member, (Path.compare_eq_iff.mp same).symm⟩

namespace Rules

variable {r : Rules} {shared own : Table String String} {token : String}

/-! ### The rules of one referrer -/

theorem replaced_of_produced (made : token ∈ produced shared own) :
    ∃ old, (own.find? old).or (shared.find? old) = some token := by
  rcases List.mem_append.mp made with inOwn | inShared
  · obtain ⟨entry, member, rfl⟩ := List.mem_map.mp inOwn
    refine ⟨entry.1, ?_⟩
    rw [Table.find?_of_mem member]
    rfl
  · obtain ⟨entry, member, rfl⟩ := List.mem_map.mp inShared
    obtain ⟨listed, open_⟩ := List.mem_filter.mp member
    have absent : own.find? entry.1 = none := by simpa [Table.contains] using open_
    refine ⟨entry.1, ?_⟩
    rw [absent, Table.find?_of_mem listed]
    rfl

theorem chainedIn?_some (chained : chainedIn? shared own = some token) :
    (∃ old, (own.find? old).or (shared.find? old) = some token) ∧
      ((own.find? token).or (shared.find? token)).isSome = true := by
  have made := List.mem_of_find?_eq_some chained
  have replaced := List.find?_some chained
  refine ⟨replaced_of_produced made, ?_⟩
  simpa [Table.contains, Option.isSome_or] using replaced

/-! ### All referrers -/

/-- A chain that is found is one for some referrer, and the fault names its token. -/
theorem chained?_some {fault : RuleFault} (found : r.chained? = some fault) :
    ∃ token scope p old, fault = .chained token scope ∧ r.lookup p old = some token ∧
      (r.lookup p token).isSome = true := by
  unfold chained? at found
  split at found
  · rename_i token first
    cases found
    -- A referrer without rules of its own sees the shared rules alone.
    obtain ⟨p, other⟩ := Path.exists_other r.byReferrer.keys
    have absent : r.byReferrer.find? p = none := by
      refine Option.eq_none_iff_forall_ne_some.mpr fun own listed => ?_
      obtain ⟨q, same, member⟩ := Table.find?_mem listed
      exact other q (List.mem_map_of_mem member) same
    obtain ⟨⟨old, replaced⟩, again⟩ := chainedIn?_some first
    refine ⟨token, none, p, old, rfl, ?_, ?_⟩
    · rw [lookup, absent]
      exact replaced
    · rw [lookup, absent]
      exact again
  · obtain ⟨entry, member, chained⟩ := List.exists_of_findSome?_eq_some found
    obtain ⟨token, first, rfl⟩ := Option.map_eq_some_iff.mp chained
    have own : r.byReferrer.find? entry.1 = some entry.2 := Table.find?_of_mem member
    obtain ⟨⟨old, replaced⟩, again⟩ := chainedIn?_some first
    refine ⟨token, some entry.1, entry.1, old, rfl, ?_, ?_⟩
    · rw [lookup, own]
      exact replaced
    · rw [lookup, own]
      exact again

/-- Rules are accepted exactly if no referrer, whether it has rules of its own or not, has a token
produced that is replaced as well. -/
theorem chained?_eq_none_iff (r : Rules) :
    r.chained? = none ↔ ∀ p old new, r.lookup p old = some new → r.lookup p new = none := by
  constructor
  · exact fun apart p old new replaced => lookup_settled apart replaced
  · intro settled
    cases found : r.chained? with
    | none => rfl
    | some fault =>
      obtain ⟨token, _, p, old, _, replaced, again⟩ := chained?_some found
      rw [settled p old token replaced] at again
      cases again

/-- A referrer replaces what a shared rule produces, but that rule is covered by one of its own. -/
theorem chained?_shadowed :
    let r : Rules := ⟨⟨[("@/a", "@/b"), ("@/c", "@/d")], by decide⟩,
      .single ⟨"x.ts"⟩ ⟨[("@/a", "./e"), ("@/b", "./f")], by decide⟩⟩
    r.chained? = none ∧ r.lookup ⟨"x.ts"⟩ "@/b" = some "./f" ∧ r.lookup ⟨"x.ts"⟩ "./f" = none ∧
      r.lookup ⟨"y.ts"⟩ "@/a" = some "@/b" ∧ r.lookup ⟨"y.ts"⟩ "@/b" = none := by
  intro r
  have apart : r.chained? = none := by decide
  have settled := (chained?_eq_none_iff r).mp apart
  exact ⟨apart, by decide, settled ⟨"x.ts"⟩ "@/b" "./f" (by decide), by decide,
    settled ⟨"y.ts"⟩ "@/a" "@/b" (by decide)⟩

end Rules

end Relocation
