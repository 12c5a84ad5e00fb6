import Mathlib.Data.List.Forall2
import Mathlib.Data.List.Induction
import Relocation.Plan
import Relocation.Proofs.Path.Components
import Relocation.Proofs.Text.Matching
import Relocation.Proofs.Text.Utf8

/-!
# Globs that match component by component

Without groups, classes and escapes, and without a component `**`, a pattern is read character by
character (`parse_shallow`). The matcher then eats a text one character of the pattern at a time,
and `componentwise_cons` says that each step is one step of matching the components pairwise. Hence
a scope and a grouping rule with such a pattern select a path exactly if its components match those
of the pattern (`selects_by_component`).
-/

namespace Relocation.Glob

open Text

/-! ### What a component of a pattern stands for -/

inductive StandsFor : Char → Bytes → Prop
  | star (run : Bytes) : StandsFor '*' run
  | one (b : UInt8) : StandsFor '?' [b]
  | literal (c : Char) (many : c ≠ '*') (one : c ≠ '?') : StandsFor c (String.utf8EncodeChar c)

inductive Fits : List Char → Bytes → Prop
  | nil : Fits [] []
  | cons {c : Char} {w : List Char} {piece s : Bytes} (first : StandsFor c piece) (rest : Fits w s) :
      Fits (c :: w) (piece ++ s)

/-- A text has as many components as a pattern, and each matches the one in its place. -/
def MatchesByComponent (pattern text : String) : Prop :=
  List.Forall₂ (fun w component => Fits w (component.flatMap String.utf8EncodeChar))
    (pattern.toList.splitOn '/') (text.toList.splitOn '/')

def IsShallow (pattern : String) : Prop :=
  (∀ c ∈ pattern.toList, c ∉ ['[', '\x7b', '\x7d', '\\']) ∧ ['*', '*'] ∉ pattern.toList.splitOn '/'

instance (pattern : String) : Decidable (IsShallow pattern) := inferInstanceAs (Decidable (_ ∧ _))

theorem fits_cons_iff {c : Char} {w : List Char} {s : Bytes} :
    Fits (c :: w) s ↔ ∃ piece t, StandsFor c piece ∧ Fits w t ∧ s = piece ++ t := by
  constructor
  · rintro (_ | ⟨first, rest⟩)
    exact ⟨_, _, first, rest, rfl⟩
  · rintro ⟨piece, t, first, rest, rfl⟩
    exact .cons first rest

theorem fits_nil_iff {s : Bytes} : Fits [] s ↔ s = [] := by
  constructor
  · rintro ⟨⟩
    rfl
  · rintro rfl
    exact .nil

theorem Fits.literal {w : List Char} (plain : ∀ c ∈ w, c ≠ '*' ∧ c ≠ '?') :
    Fits w (w.flatMap String.utf8EncodeChar) := by
  induction w with
  | nil => exact .nil
  | cons c w ih =>
    obtain ⟨many, one⟩ := plain c List.mem_cons_self
    exact .cons (.literal c many one) (ih fun d member => plain d (List.mem_cons_of_mem _ member))

/-! ### Reading a pattern -/

def tokenOf (c : Char) : Token := if c = '*' then .star else if c = '?' then .one else .literal c

theorem tokenOf_ne_deepFront (c : Char) : tokenOf c ≠ .deepFront := by
  unfold tokenOf
  repeat' split
  all_goals simp

section
variable {st : State} {c : Char} {done rest : List Char}

theorem tokensFrom_plain (closed : st.frames = []) (plain : c ∉ ['[', '\x7b', '\x7d', '\\'])
    (single : c = '*' → rest.head? ≠ some '*') :
    tokensFrom st (c :: rest) = tokensFrom (st.push (tokenOf c) c) rest := by
  simp only [List.mem_cons, List.not_mem_nil, or_false, not_or] at plain
  rw [tokensFrom.eq_def]
  -- Any other way to read the character is out by one of the hypotheses.
  split
  all_goals simp_all [tokenOf]

theorem tokensFrom_stars (stars : doubleStar st rest.head? = (.star :: .star :: st.tokens, 0)) :
    tokensFrom st ('*' :: '*' :: rest) = tokensFrom ((st.push .star '*').push .star '*') rest := by
  rw [tokensFrom, stars]
  rfl

/-- Two stars with nothing but a slash on their right start with a component `**`. -/
theorem stars_mem (bounded : ∀ c ∈ rest.head?, c = '/') :
    ['*', '*'] ∈ ('*' :: '*' :: rest).splitOn '/' := by
  cases rest with
  | nil => decide
  | cons c rest =>
    rw [bounded c rfl, show '*' :: '*' :: '/' :: rest = ['*', '*'] ++ '/' :: rest from rfl,
      List.splitOn_append_cons_self_of_not_mem (by decide)]
    exact List.mem_cons_self

/-- The reader behind characters that it has read one by one. -/
def reading (done : List Char) : State :=
  { frames := [], tokens := (done.map tokenOf).reverse, prev := done.getLast? }

theorem reading_concat (done : List Char) (c : Char) :
    reading (done ++ [c]) = (reading done).push (tokenOf c) c := by
  simp [reading, State.push]

theorem doubleStar_reading (shallow : ['*', '*'] ∉ (done ++ '*' :: '*' :: rest).splitOn '/') :
    doubleStar (reading done) rest.head? = (.star :: .star :: (reading done).tokens, 0) := by
  -- The two stars are special only between slashes or ends, where they would be a component.
  have bounded (start : done = [] ∨ done.getLast? = some '/') : ∃ c, rest.head? = some c ∧
      c ≠ '/' := by
    by_contra unbounded
    have component : ['*', '*'] ∈ ('*' :: '*' :: rest).splitOn '/' :=
      stars_mem fun c next => by_contra fun other => unbounded ⟨c, next, other⟩
    rcases start with rfl | last
    · exact shallow component
    · obtain ⟨front, rfl⟩ := List.getLast?_eq_some_iff.mp last
      rw [List.append_assoc, List.singleton_append, List.splitOn_append_cons_self] at shallow
      exact shallow (List.mem_append_right _ component)
  unfold doubleStar
  by_cases start : done = []
  · obtain ⟨c, next, other⟩ := bounded (.inl start)
    simp [reading, start, next]
  · by_cases slash : done.getLast? = some '/'
    · obtain ⟨c, next, other⟩ := bounded (.inr slash)
      simp [reading, start, slash, next]
    · simp [reading, start, slash]

theorem tokensFrom_reading (done : List Char) (plain : ∀ c ∈ rest, c ∉ ['[', '\x7b', '\x7d', '\\'])
    (shallow : ['*', '*'] ∉ (done ++ rest).splitOn '/') :
    tokensFrom (reading done) rest = .ok ((done ++ rest).map tokenOf) := by
  induction rest using List.twoStepInduction generalizing done with
  | nil => simp [tokensFrom, finish, reading]
  | singleton c =>
    rw [tokensFrom_plain rfl (plain c List.mem_cons_self) (by simp), ← reading_concat]
    simp [tokensFrom, finish, reading]
  | cons_cons c d rest two one =>
    by_cases stars : c = '*' ∧ d = '*'
    · obtain ⟨rfl, rfl⟩ := stars
      rw [tokensFrom_stars (doubleStar_reading shallow)]
      rw [List.append_cons done, List.append_cons (done ++ _)] at shallow ⊢
      change tokensFrom (((reading done).push (tokenOf '*') '*').push (tokenOf '*') '*') rest = _
      rw [← reading_concat, ← reading_concat]
      exact two _ (fun c member => plain c (by simp [member])) shallow
    · have single : c = '*' → (d :: rest).head? ≠ some '*' := fun star next =>
        stars ⟨star, Option.some.inj next⟩
      rw [List.append_cons done] at shallow ⊢
      rw [tokensFrom_plain rfl (plain c List.mem_cons_self) single, ← reading_concat]
      exact one d _ (fun c member => plain c (List.mem_cons_of_mem _ member)) shallow

end

theorem parse_shallow {pattern : String} (shallow : IsShallow pattern) :
    parse pattern = .ok ⟨pattern, pattern.toList.map tokenOf⟩ := by
  unfold parse
  have read : tokensFrom ⟨[], [], none⟩ pattern.toList = .ok (pattern.toList.map tokenOf) :=
    tokensFrom_reading [] shallow.1 shallow.2
  rw [read]

/-! ### Splitting texts -/

theorem splitOn_encode (text : String) :
    (encode text).splitOn slashByte = (text.toList.splitOn '/').map
      (·.flatMap String.utf8EncodeChar) := by
  unfold encode
  induction text.toList with
  | nil => rfl
  | cons c cs ih =>
    rw [List.flatMap_cons, List.splitOn_cons_eq_if_modifyHead]
    split
    · rename_i same
      rw [eq_of_beq same,
        show String.utf8EncodeChar '/' = [slashByte] by decide, List.singleton_append,
        List.splitOn_cons_eq_if_modifyHead, if_pos (by simp), ih]
      rfl
    · rename_i other
      have free : slashByte ∉ String.utf8EncodeChar c := fun member =>
        other (by simp [eq_of_mem_utf8EncodeChar (d := '/') rfl (by decide) member])
      rw [splitOn_append free, ih]
      cases cs.splitOn '/' <;> rfl

/-! ### One step of the matcher -/

def Componentwise (w : List Char) (s : Bytes) : Prop :=
  List.Forall₂ Fits (w.splitOn '/') (s.splitOn slashByte)

theorem componentwise_nil {s : Bytes} : Componentwise [] s ↔ s = [] := by
  unfold Componentwise
  constructor
  · intro all
    rw [List.splitOn_nil, List.forall₂_cons_left_iff] at all
    obtain ⟨part, parts, fits, none, split⟩ := all
    rw [List.forall₂_nil_left_iff.mp none, fits_nil_iff.mp fits] at split
    have joined : [slashByte].intercalate (s.splitOn slashByte) = s :=
      List.intercalate_splitOn slashByte
    rw [← joined, split]
    rfl
  · rintro rfl
    exact .cons .nil .nil

theorem mem_runRests {p : UInt8 → Bool} {s t : Bytes} :
    t ∈ runRests p s ↔ ∃ run, (∀ b ∈ run, p b = true) ∧ s = run ++ t := by
  induction s with
  | nil =>
    constructor
    · intro member
      exact ⟨[], by simp, by simpa [runRests, eq_comm] using member⟩
    · rintro ⟨run, _, split⟩
      simp [runRests, (List.append_eq_nil_iff.mp split.symm).2]
  | cons b s ih =>
    rw [runRests, List.mem_cons]
    constructor
    · rintro (rfl | member)
      · exact ⟨[], by simp, rfl⟩
      · split at member
        · rename_i holds
          obtain ⟨run, all, rfl⟩ := ih.mp member
          exact ⟨b :: run, List.forall_mem_cons.mpr ⟨holds, all⟩, rfl⟩
        · cases member
    · rintro ⟨run, all, split⟩
      cases run with
      | nil => exact .inl split.symm
      | cons c run =>
        obtain ⟨rfl, rfl⟩ := List.cons.inj split
        obtain ⟨holds, all⟩ := List.forall_mem_cons.mp all
        rw [if_pos holds]
        exact .inr (ih.mpr ⟨run, all, rfl⟩)

theorem mem_rests_one {s t : Bytes} : t ∈ rests .one s ↔ ∃ b, b ≠ slashByte ∧ s = b :: t := by
  cases s with
  | nil => simp [rests]
  | cons b s =>
    rw [rests]
    split
    · rename_i slash
      simp [slash]
    · rename_i other
      simp [other, eq_comm]

theorem mem_rests_literal {c : Char} {s t : Bytes} :
    t ∈ rests (.literal c) s ↔ s = String.utf8EncodeChar c ++ t := by
  rw [rests]
  constructor
  · intro member
    split at member
    · rename_i here
      obtain ⟨rest, rfl⟩ := List.isPrefixOf_iff_prefix.mp here
      rw [List.drop_left, List.mem_singleton] at member
      rw [member]
    · cases member
  · rintro rfl
    rw [if_pos (List.isPrefixOf_iff_prefix.mpr (List.prefix_append _ _)), List.drop_left,
      List.mem_singleton]

/-- What a character of a pattern leaves of a text: it takes what it stands for, and no slash but
its own. -/
theorem mem_rests_tokenOf {c : Char} {s t : Bytes} :
    t ∈ rests (tokenOf c) s ↔ ∃ piece, StandsFor c piece ∧ (c ≠ '/' → slashByte ∉ piece) ∧
    s = piece ++ t := by
  constructor
  · intro member
    unfold tokenOf at member
    split at member
    · rename_i star
      rw [rests, mem_runRests] at member
      obtain ⟨run, all, rfl⟩ := member
      exact ⟨run, star ▸ .star run, fun _ inside => by simpa using all _ inside, rfl⟩
    split at member
    · rename_i one
      obtain ⟨b, other, rfl⟩ := mem_rests_one.mp member
      exact ⟨[b], one ▸ .one b, fun _ inside => other (List.mem_singleton.mp inside).symm, rfl⟩
    · rename_i many one
      refine ⟨_, .literal c many one, fun other inside => other ?_, mem_rests_literal.mp member⟩
      exact eq_of_mem_utf8EncodeChar rfl (by decide) inside
  · rintro ⟨piece, stands, free, rfl⟩
    cases stands with
    | star =>
      refine mem_runRests.mpr ⟨piece, fun b inside => ?_, rfl⟩
      rw [bne_iff_ne]
      rintro rfl
      exact free (by decide) inside
    | one b => exact mem_rests_one.mpr ⟨b, fun slash => free (by decide) (by simp [slash]), rfl⟩
    | literal _ many one =>
      rw [tokenOf, if_neg many, if_neg one]
      exact mem_rests_literal.mpr rfl

/-- Matching component by component goes through the pattern character by character. -/
theorem componentwise_cons {c : Char} {w : List Char} {s : Bytes} :
    Componentwise (c :: w) s ↔ ∃ t ∈ rests (tokenOf c) s, Componentwise w t := by
  unfold Componentwise
  rw [List.splitOn_cons_eq_if_modifyHead]
  split
  · rename_i slash
    obtain rfl := eq_of_beq slash
    have leaves {t : Bytes} : t ∈ rests (tokenOf '/') s ↔ s = slashByte :: t := mem_rests_literal
    constructor
    · intro all
      obtain ⟨part, parts, empty, others, split⟩ := List.forall₂_cons_left_iff.mp all
      have more : parts ≠ [] := fun none =>
        List.splitOn_ne_nil '/' w (List.forall₂_nil_right_iff.mp (none ▸ others))
      rw [fits_nil_iff.mp empty] at split
      obtain ⟨t, rfl, behind⟩ := eq_cons_of_splitOn split more
      exact ⟨t, leaves.mpr rfl, behind ▸ others⟩
    · rintro ⟨t, member, all⟩
      rw [leaves.mp member, List.splitOn_cons_eq_if_modifyHead, if_pos (by simp)]
      exact .cons .nil all
  · rename_i other
    have plain : c ≠ '/' := fun same => other (by simp [same])
    obtain ⟨word, words, parts⟩ := List.exists_cons_of_ne_nil (List.splitOn_ne_nil '/' w)
    rw [parts, List.modifyHead_cons]
    constructor
    · intro all
      obtain ⟨part, others, fits, rest, split⟩ := List.forall₂_cons_left_iff.mp all
      obtain ⟨piece, head, stands, fit, rfl⟩ := fits_cons_iff.mp fits
      obtain ⟨t, free, rfl, behind⟩ := eq_append_of_splitOn split
      exact ⟨t, mem_rests_tokenOf.mpr ⟨piece, stands, fun _ => free, rfl⟩, behind ▸ .cons fit rest⟩
    · rintro ⟨t, member, all⟩
      obtain ⟨piece, stands, free, rfl⟩ := mem_rests_tokenOf.mp member
      obtain ⟨part, others, fits, rest, split⟩ := List.forall₂_cons_left_iff.mp all
      rw [splitOn_append (free plain), split, List.modifyHead_cons]
      exact .cons (.cons stands fits) rest

/-! ### Whole patterns -/

theorem mem_of_mem_distinct {ss : List Bytes} {t : Bytes} (member : t ∈ distinct ss) : t ∈ ss := by
  induction ss with
  | nil => cases member
  | cons s ss ih =>
    rcases List.mem_cons.mp member with rfl | later
    · exact List.mem_cons_self
    · exact List.mem_cons_of_mem _ (ih (List.mem_of_mem_filter later))

theorem mem_distinct {ss : List Bytes} {text t : Bytes} (ends : ∀ s ∈ ss, s <:+ text) :
    t ∈ distinct ss ↔ t ∈ ss := by
  refine ⟨mem_of_mem_distinct, fun member => ?_⟩
  induction ss with
  | nil => cases member
  | cons s ss ih =>
    obtain ⟨front, behind⟩ := List.forall_mem_cons.mp ends
    by_cases same : t.length = s.length
    · have whole := List.suffix_of_suffix_length_le (ends t member) front (Nat.le_of_eq same)
      rw [whole.eq_of_length same]
      exact List.mem_cons_self
    · rcases List.mem_cons.mp member with rfl | later
      · exact absurd rfl same
      · exact List.mem_cons_of_mem _ (List.mem_filter.mpr ⟨ih behind later, by simpa using same⟩)

theorem restsAll_map {w : List Char} {ss : List Bytes} {text : Bytes} (ends : ∀ s ∈ ss, s <:+ text) :
    [] ∈ restsAll (w.map tokenOf) ss ↔ ∃ s ∈ ss, Componentwise w s := by
  induction w generalizing ss with
  | nil => simp [restsAll, componentwise_nil]
  | cons c w ih =>
    have behind : ∀ t ∈ ss.flatMap (rests (tokenOf c)), t <:+ text := by
      intro t member
      obtain ⟨s, here, left⟩ := List.mem_flatMap.mp member
      obtain ⟨piece, _, _, rfl⟩ := mem_rests_tokenOf.mp left
      exact (List.suffix_append piece t).trans (ends _ here)
    rw [List.map_cons, restsAll, ih fun t member => behind t (mem_of_mem_distinct member)]
    simp only [mem_distinct behind, List.mem_flatMap, componentwise_cons]
    constructor
    · rintro ⟨t, ⟨s, here, left⟩, rest⟩
      exact ⟨s, here, t, left, rest⟩
    · rintro ⟨s, here, t, left, rest⟩
      exact ⟨t, ⟨s, here, left⟩, rest⟩

theorem matchesText_iff (pattern text : String) :
    matchesText ⟨pattern, pattern.toList.map tokenOf⟩ text = true ↔
    MatchesByComponent pattern text := by
  have read : Componentwise pattern.toList (encode text) ↔ MatchesByComponent pattern text := by
    rw [Componentwise, splitOn_encode, List.forall₂_map_right_iff, MatchesByComponent]
  rw [← read, matchesText, matchesBytes]
  split
  · rename_i deep
    have front : Token.deepFront ∈ pattern.toList.map tokenOf := by
      rw [show pattern.toList.map tokenOf = [.deepFront] from deep]
      exact List.mem_singleton_self _
    obtain ⟨c, _, same⟩ := List.mem_map.mp front
    exact absurd same (tokenOf_ne_deepFront c)
  · rw [List.any_eq_true]
    have matched : [] ∈ restsAll (pattern.toList.map tokenOf) [encode text] ↔
        ∃ s ∈ [encode text], Componentwise pattern.toList s :=
      restsAll_map (List.forall_mem_singleton.mpr List.suffix_rfl)
    simpa [List.isEmpty_iff] using matched

theorem selects_iff {pattern : String} {glob : Glob} (shallow : IsShallow pattern)
    (read : parse pattern = .ok glob) (path : Path) :
    glob.selects path = true ↔ MatchesByComponent pattern path.slash := by
  rw [parse_shallow shallow] at read
  rw [← Except.ok.inj read, selects, matchesText_iff]

end Relocation.Glob

namespace Relocation.Grouping

variable {before after : List GroupRule} {earlier later : Grouping} {rule : GroupRule} {glob : Glob}

def readRule (r : GroupRule) : Except Glob.Invalid (Glob × GroupRule) := do
  let glob ← Glob.parse r.pattern
  pure (glob, r)

theorem ofRules_eq_ok_iff {rules : List GroupRule} {grouping : Grouping} :
    ofRules rules = .ok grouping ↔ rules.mapM readRule = .ok grouping.rules := by
  have unfolded : ofRules rules = (rules.mapM readRule).bind fun read => .ok ⟨read⟩ := rfl
  rw [unfolded]
  cases rules.mapM readRule with
  | error fault => simp [Except.bind]
  | ok read =>
    simp only [Except.bind, Except.ok.injEq]
    constructor
    · rintro rfl
      rfl
    · rintro rfl
      rfl

theorem ofRules_between (front : ofRules before = .ok earlier)
    (read : Glob.parse rule.pattern = .ok glob) (back : ofRules after = .ok later) :
    ofRules (before ++ rule :: after) = .ok ⟨earlier.rules ++ (glob, rule) :: later.rules⟩ := by
  rw [ofRules_eq_ok_iff] at front back ⊢
  have one : readRule rule = .ok (glob, rule) := by
    rw [readRule, read]
    rfl
  rw [List.mapM_append, List.mapM_cons, front, one, back]
  rfl

/-- A rule in the middle decides where no earlier one does and it applies itself. -/
theorem policy_between (path : Path) (category : Option Category) :
    policy ⟨earlier.rules ++ (glob, rule) :: later.rules⟩ path category =
      (earlier.policy path category).or
        (if applies path category glob rule then some ⟨rule.destination⟩ else later.policy path
          category) := by
  unfold policy
  simp only
  rw [List.find?_append, List.find?_cons, Option.map_or]
  congr 1
  cases applies path category glob rule <;> rfl

theorem applies_iff (rule : GroupRule) (shallow : Glob.IsShallow rule.pattern)
    (read : Glob.parse rule.pattern = .ok glob) (path : Path) (category : Option Category) :
    applies path category glob rule = true ↔
      Glob.MatchesByComponent rule.pattern path.slash ∧
      (rule.category = none ∨ rule.category = category) := by
  rw [applies, Bool.and_eq_true, Glob.selects_iff shallow read]
  cases rule.category with
  | none => simp
  | some wanted => simp [eq_comm]

end Relocation.Grouping

namespace Relocation.Glob

/-- A pattern without `**` selects a path, in a scope and in a grouping alike, exactly if the path
has as many components and each matches the one in its place. -/
theorem selects_by_component {pattern : String} (shallow : IsShallow pattern) :
    (∃ scope, Scope.ofPatterns [pattern] = .ok scope ∧
      ∀ path, scope.contains path = true ↔ MatchesByComponent pattern path.slash) ∧
    ∀ {before after : List GroupRule} {earlier later : Grouping} (wanted : Option Category)
      (destination : String), Grouping.ofRules before = .ok earlier →
      Grouping.ofRules after = .ok later →
      ∃ grouping, Grouping.ofRules (before ++ ⟨pattern, wanted, destination⟩ :: after) = .ok grouping ∧
        ∀ path category,
          (MatchesByComponent pattern path.slash ∧ (wanted = none ∨ wanted = category) →
            grouping.policy path category = (earlier.policy path category).or (some ⟨destination⟩)) ∧
          (¬ (MatchesByComponent pattern path.slash ∧ (wanted = none ∨ wanted = category)) →
            grouping.policy path category = (earlier.policy path category).or
              (later.policy path category)) := by
  have read := parse_shallow shallow
  constructor
  · refine ⟨⟨some [⟨pattern, pattern.toList.map tokenOf⟩]⟩, ?_, fun path => ?_⟩
    · rw [Scope.ofPatterns, if_neg (by simp), List.mapM_cons, read]
      rfl
    · rw [← selects_iff shallow read]
      simp [Scope.contains]
  · intro before after earlier later wanted destination front back
    refine ⟨_, Grouping.ofRules_between front read back, fun path category => ?_⟩
    rw [Grouping.policy_between, ← Grouping.applies_iff ⟨pattern, wanted, destination⟩ shallow read]
    constructor
    · intro holds
      rw [if_pos holds]
    · intro fails
      rw [if_neg fails]

/-- Two stars inside a component reach no further than it. -/
theorem selects_by_component_nested :
    IsShallow "src/lib/a**.ts" ∧
      (∃ scope, Scope.ofPatterns ["src/lib/a**.ts"] = .ok scope ∧
        scope.contains ⟨"./src/lib/api.ts"⟩ = true ∧ scope.contains ⟨"src/lib/api/list.ts"⟩ = false) ∧
      ∃ grouping, Grouping.ofRules [⟨"src/lib/a**.ts", none, "src/api"⟩] = .ok grouping ∧
        grouping.policy ⟨"./src/lib/api.ts"⟩ none = some ⟨"src/api"⟩ ∧
        grouping.policy ⟨"src/lib/api/list.ts"⟩ none = none := by
  have shallow : IsShallow "src/lib/a**.ts" := by decide
  have direct : MatchesByComponent "src/lib/a**.ts" (Path.slash ⟨"./src/lib/api.ts"⟩) := by
    rw [show Path.slash ⟨"./src/lib/api.ts"⟩ = "src/lib/api.ts" by decide +kernel]
    have name : Fits ['a', '*', '*', '.', 't', 's'] (String.utf8EncodeChar 'a' ++
      ([112, 105] ++ ([] ++ _))) :=
      .cons (.literal 'a' (by decide) (by decide))
        (.cons (.star _) (.cons (.star _) (.literal (by decide))))
    exact .cons (.literal (by decide)) (.cons (.literal (by decide)) (.cons name .nil))
  have nested : ¬ MatchesByComponent "src/lib/a**.ts" (Path.slash ⟨"src/lib/api/list.ts"⟩) :=
    fun all => absurd all.length_eq (by decide +kernel)
  obtain ⟨⟨scope, built, contains⟩, grouped⟩ := selects_by_component shallow
  have empty : Grouping.ofRules [] = .ok ⟨[]⟩ := rfl
  obtain ⟨grouping, formed, policy⟩ := grouped none "src/api" empty empty
  refine ⟨shallow, ⟨scope, built, (contains _).mpr direct, ?_⟩, grouping, formed, ?_, ?_⟩
  · exact Bool.eq_false_iff.mpr fun selected => nested ((contains _).mp selected)
  · exact (policy _ _).1 ⟨direct, .inl rfl⟩
  · exact (policy _ _).2 fun applies => nested applies.1

end Relocation.Glob
