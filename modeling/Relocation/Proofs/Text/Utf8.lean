import Relocation.Text.Utf8

/-!
# Text that was read from bytes

Bytes that can be decoded are the encoding of the text that they decode to, and what was encoded can
be decoded.
-/

namespace Relocation.Text

/-! ### One character -/

theorem val_ofNat {n : Nat} (valid : n.isValidChar) : (Char.ofNat n).val.toNat = n := by
  rw [Char.ofNat, dif_pos valid]
  rfl

theorem ofNat_eq {n : Nat} (b : UInt8) (same : n = b.toNat) : UInt8.ofNat n = b := by
  rw [same, UInt8.ofNat_toNat]

theorem encode_one {b : UInt8} (small : b.toNat < 0x80) :
    String.utf8EncodeChar (Char.ofNat b.toNat) = [b] := by
  have value := val_ofNat (n := b.toNat) (Or.inl (by omega))
  unfold String.utf8EncodeChar
  simp only [value]
  rw [if_pos (by omega), ofNat_eq b rfl]

theorem encode_two {b₁ b₂ : UInt8} (first : 0xC2 ≤ b₁.toNat ∧ b₁.toNat < 0xE0)
    (second : 0x80 ≤ b₂.toNat ∧ b₂.toNat ≤ 0xBF) :
    String.utf8EncodeChar (Char.ofNat ((b₁.toNat - 0xC0) * 64 + (b₂.toNat - 0x80))) = [b₁, b₂] := by
  have value := val_ofNat (n := (b₁.toNat - 0xC0) * 64 + (b₂.toNat - 0x80)) (Or.inl (by omega))
  unfold String.utf8EncodeChar
  simp only [value]
  rw [if_neg (by omega), if_pos (by omega), ofNat_eq b₁ (by omega), ofNat_eq b₂ (by omega)]

theorem encode_three {b₁ b₂ b₃ : UInt8} (first : 0xE0 ≤ b₁.toNat ∧ b₁.toNat < 0xF0)
    (second : 0x80 ≤ b₂.toNat ∧ b₂.toNat ≤ 0xBF) (third : 0x80 ≤ b₃.toNat ∧ b₃.toNat ≤ 0xBF)
    (short : b₁.toNat = 0xE0 → 0xA0 ≤ b₂.toNat) (surrogate : b₁.toNat = 0xED → b₂.toNat ≤ 0x9F) :
    String.utf8EncodeChar (Char.ofNat (((b₁.toNat - 0xE0) * 64 + (b₂.toNat - 0x80)) * 64 +
      (b₃.toNat - 0x80))) = [b₁, b₂, b₃] := by
  have value := val_ofNat (n := ((b₁.toNat - 0xE0) * 64 + (b₂.toNat - 0x80)) * 64 + (b₃.toNat - 0x80))
    (by unfold Nat.isValidChar; omega)
  unfold String.utf8EncodeChar
  simp only [value]
  rw [if_neg (by omega), if_neg (by omega), if_pos (by omega), ofNat_eq b₁ (by omega),
    ofNat_eq b₂ (by omega), ofNat_eq b₃ (by omega)]

theorem encode_four {b₁ b₂ b₃ b₄ : UInt8} (first : 0xF0 ≤ b₁.toNat ∧ b₁.toNat ≤ 0xF4)
    (second : 0x80 ≤ b₂.toNat ∧ b₂.toNat ≤ 0xBF) (third : 0x80 ≤ b₃.toNat ∧ b₃.toNat ≤ 0xBF)
    (fourth : 0x80 ≤ b₄.toNat ∧ b₄.toNat ≤ 0xBF) (short : b₁.toNat = 0xF0 → 0x90 ≤ b₂.toNat)
    (long : b₁.toNat = 0xF4 → b₂.toNat ≤ 0x8F) :
    String.utf8EncodeChar
      (Char.ofNat ((((b₁.toNat - 0xF0) * 64 + (b₂.toNat - 0x80)) * 64 + (b₃.toNat - 0x80)) * 64 +
      (b₄.toNat - 0x80))) = [b₁, b₂, b₃, b₄] := by
  have value := val_ofNat
    (n := (((b₁.toNat - 0xF0) * 64 + (b₂.toNat - 0x80)) * 64 + (b₃.toNat - 0x80)) * 64 +
      (b₄.toNat - 0x80)) (by unfold Nat.isValidChar; omega)
  unfold String.utf8EncodeChar
  simp only [value]
  rw [if_neg (by omega), if_neg (by omega), if_neg (by omega), ofNat_eq b₁ (by omega),
    ofNat_eq b₂ (by omega), ofNat_eq b₃ (by omega), ofNat_eq b₄ (by omega)]

/-! ### Characters under way -/

def Lead.Reads (bytes : Bytes) (underWay : Pending → Prop) : Lead → Prop
  | .char c => String.utf8EncodeChar c = bytes
  | .pending p => underWay p
  | .bad => True

/-- The bytes `front` have been read of a character that at most `left` more bytes complete;
encoding it gives all of them back. -/
def Completes : Nat → Pending → Bytes → Prop
  | 0, _, _ => False
  | left + 1, p, front => ∀ b, (p.feed b).Reads (front ++ [b]) fun q => Completes left q (front ++ [b])

theorem completes_last {p : Pending} {front : Bytes} {left : Nat} (last : p.need = 1)
    (whole : ∀ b, p.low.toNat ≤ b.toNat → b.toNat ≤ p.high.toNat →
      String.utf8EncodeChar (Char.ofNat (p.code * 64 + (b.toNat - 0x80))) = front ++ [b]) :
    Completes (left + 1) p front := by
  intro b
  unfold Pending.feed
  by_cases outside : (b < p.low || p.high < b) = true
  · rw [if_pos outside]
    trivial
  · rw [if_neg outside, if_pos (by omega)]
    simp only [Bool.or_eq_true, decide_eq_true_eq, not_or, UInt8.lt_iff_toNat_lt] at outside
    exact whole b (by omega) (by omega)

theorem completes_more {p : Pending} {front : Bytes} {left : Nat} (more : 1 < p.need)
    (rest : ∀ b, p.low.toNat ≤ b.toNat → b.toNat ≤ p.high.toNat →
      Completes left ⟨p.start, p.seen + 1, p.need - 1, 0x80, 0xBF, p.code * 64 + (b.toNat - 0x80)⟩
        (front ++ [b])) :
    Completes (left + 1) p front := by
  intro b
  unfold Pending.feed
  by_cases outside : (b < p.low || p.high < b) = true
  · rw [if_pos outside]
    trivial
  · rw [if_neg outside, if_neg (by omega)]
    simp only [Bool.or_eq_true, decide_eq_true_eq, not_or, UInt8.lt_iff_toNat_lt] at outside
    exact rest b (by omega) (by omega)

theorem completes_three (index : Nat) (b₁ low high : UInt8) (first : 0xE0 ≤ b₁.toNat ∧ b₁.toNat < 0xF0)
    (range : 0x80 ≤ low.toNat ∧ high.toNat ≤ 0xBF) (short : b₁.toNat = 0xE0 → 0xA0 ≤ low.toNat)
    (surrogate : b₁.toNat = 0xED → high.toNat ≤ 0x9F) :
    Completes 3 ⟨index, 1, 2, low, high, b₁.toNat - 0xE0⟩ [b₁] := by
  refine completes_more (by simp) fun b₂ above below => completes_last rfl fun b₃ above₃ below₃ => ?_
  simp only at above below above₃ below₃
  exact encode_three first ⟨by omega, by omega⟩ ⟨above₃, below₃⟩
    (fun same => by have := short same; omega) (fun same => by have := surrogate same; omega)

theorem completes_four (index : Nat) (b₁ low high : UInt8) (first : 0xF0 ≤ b₁.toNat ∧ b₁.toNat ≤ 0xF4)
    (range : 0x80 ≤ low.toNat ∧ high.toNat ≤ 0xBF) (short : b₁.toNat = 0xF0 → 0x90 ≤ low.toNat)
    (long : b₁.toNat = 0xF4 → high.toNat ≤ 0x8F) :
    Completes 3 ⟨index, 1, 3, low, high, b₁.toNat - 0xF0⟩ [b₁] := by
  refine completes_more (by simp) fun b₂ above below => completes_more (by simp)
      fun b₃ above₃ below₃ =>
    completes_last rfl fun b₄ above₄ below₄ => ?_
  simp only at above below above₃ below₃ above₄ below₄
  exact encode_four first ⟨by omega, by omega⟩ ⟨above₃, below₃⟩ ⟨above₄, below₄⟩
    (fun same => by have := short same; omega) (fun same => by have := long same; omega)

/-- What a first byte begins is completed by what it announces. -/
theorem lead_reads (index : Nat) (b : UInt8) :
    (lead index b).Reads [b] fun p => Completes 3 p [b] := by
  unfold lead
  simp only
  split
  · rename_i small
    exact encode_one small
  split
  · trivial
  split
  · refine completes_last rfl fun b₂ above below => ?_
    simp only at above below
    exact encode_two ⟨by omega, by omega⟩ ⟨above, below⟩
  split
  · rename_i same
    have spec := completes_three index b 0xA0 0xBF ⟨by omega, by omega⟩ (by decide)
      (fun _ => by decide) (fun other => by omega)
    rwa [same] at spec
  split
  · rename_i same
    have spec := completes_three index b 0x80 0x9F ⟨by omega, by omega⟩ (by decide)
      (fun other => by omega) (fun _ => by decide)
    rwa [same] at spec
  split
  · exact completes_three index b 0x80 0xBF ⟨by omega, by omega⟩ (by decide) (fun other => by omega)
      (fun other => by omega)
  split
  · rename_i same
    have spec := completes_four index b 0x90 0xBF ⟨by omega, by omega⟩ (by decide) (fun _ => by decide)
      (fun other => by omega)
    rwa [same] at spec
  split
  · exact completes_four index b 0x80 0xBF ⟨by omega, by omega⟩ (by decide) (fun other => by omega)
      (fun other => by omega)
  split
  · rename_i same
    have spec := completes_four index b 0x80 0x8F ⟨by omega, by omega⟩ (by decide)
      (fun other => by omega) (fun _ => by decide)
    rwa [same] at spec
  · trivial

/-! ### Whole texts -/

theorem encode_decodeFrom {bytes : Bytes} {index : Nat} {cs : List Char} :
    (decodeFrom index none bytes = .ok cs → cs.flatMap String.utf8EncodeChar = bytes) ∧
    ∀ p front left, Completes left p front → decodeFrom index (some p) bytes = .ok cs →
      cs.flatMap String.utf8EncodeChar = front ++ bytes := by
  induction bytes generalizing index cs with
  | nil =>
    constructor
    · intro read
      cases read
      rfl
    · intro p front left _ read
      cases read
  | cons b rest ih =>
    -- A character that is complete is followed by the text of the rest.
    have complete : ∀ (c : Char) (front : Bytes), String.utf8EncodeChar c = front ++ [b] →
        (decodeFrom (index + 1) none rest).map (c :: ·) = .ok cs →
        cs.flatMap String.utf8EncodeChar = front ++ b :: rest := by
      intro c front whole read
      cases result : decodeFrom (index + 1) none rest with
      | error e => rw [result] at read; cases read
      | ok others =>
        rw [result] at read
        cases read
        rw [List.flatMap_cons, ih.1 result, whole, List.append_assoc]
        rfl
    constructor
    · intro read
      have spec := lead_reads index b
      unfold decodeFrom at read
      simp only at read
      cases first : lead index b with
      | bad => rw [first] at read; cases read
      | char c =>
        rw [first] at read spec
        exact complete c [] spec read
      | pending p =>
        rw [first] at read spec
        exact ih.2 p [b] 3 spec read
    · intro p front left completes read
      cases left with
      | zero => exact completes.elim
      | succ left =>
        have spec := completes b
        unfold decodeFrom at read
        simp only at read
        cases next : p.feed b with
        | bad => rw [next] at read; cases read
        | char c =>
          rw [next] at read spec
          exact complete c front spec read
        | pending q =>
          rw [next] at read spec
          have text := ih.2 q (front ++ [b]) left spec read
          rwa [List.append_assoc] at text

theorem encode_decode {bytes : Bytes} {s : String} (read : decode bytes = .ok s) :
    encode s = bytes := by
  unfold decode at read
  cases result : decodeFrom 0 none bytes with
  | error e => rw [result] at read; cases read
  | ok cs =>
    rw [result] at read
    cases read
    rw [encode, String.toList_ofList]
    exact encode_decodeFrom.1 result

/-! ### Reading what was written -/

section
variable {p : Pending} {index start seen need code : Nat} {b : UInt8} {rest : Bytes}

theorem feed_last (low high : UInt8) (range : low.toNat ≤ b.toNat ∧ b.toNat ≤ high.toNat) :
    Pending.feed ⟨start, seen, 1, low, high, code⟩ b =
      .char (Char.ofNat (code * 64 + (b.toNat - 0x80))) := by
  have inside : ¬ (b < low || high < b) = true := by
    simp only [Bool.or_eq_true, decide_eq_true_eq, UInt8.lt_iff_toNat_lt]
    omega
  rw [Pending.feed, if_neg inside, if_pos (Nat.le_refl 1)]

theorem feed_more (low high : UInt8) (range : low.toNat ≤ b.toNat ∧ b.toNat ≤ high.toNat) :
    Pending.feed ⟨start, seen, need + 2, low, high, code⟩ b =
      .pending ⟨start, seen + 1, need + 1, 0x80, 0xBF, code * 64 + (b.toNat - 0x80)⟩ := by
  have inside : ¬ (b < low || high < b) = true := by
    simp only [Bool.or_eq_true, decide_eq_true_eq, UInt8.lt_iff_toNat_lt]
    omega
  rw [Pending.feed, if_neg inside, if_neg (by simp)]
  rfl

theorem decodeFrom_char {c : Char} (first : lead index b = .char c) :
    decodeFrom index none (b :: rest) = (decodeFrom (index + 1) none rest).map (c :: ·) := by
  rw [decodeFrom]
  simp only [first]

theorem decodeFrom_pending (first : lead index b = .pending p) :
    decodeFrom index none (b :: rest) = decodeFrom (index + 1) (some p) rest := by
  rw [decodeFrom]
  simp only [first]

theorem decodeFrom_last {c : Char} (next : p.feed b = .char c) :
    decodeFrom index (some p) (b :: rest) = (decodeFrom (index + 1) none rest).map (c :: ·) := by
  rw [decodeFrom]
  simp only [next]

theorem decodeFrom_more {q : Pending} (next : p.feed b = .pending q) :
    decodeFrom index (some p) (b :: rest) = decodeFrom (index + 1) (some q) rest := by
  rw [decodeFrom]
  simp only [next]

theorem lead_two (index : Nat) (range : 0xC2 ≤ b.toNat ∧ b.toNat < 0xE0) :
    lead index b = .pending ⟨index, 1, 1, 0x80, 0xBF, b.toNat - 0xC0⟩ := by
  simp only [lead]
  rw [if_neg (by omega), if_neg (by omega), if_pos (by omega)]

/-- Every second byte that makes up a character is in the range that the first one announces. -/
theorem lead_three (index : Nat) (range : 0xE0 ≤ b.toNat ∧ b.toNat < 0xF0) :
    ∃ low high, lead index b = .pending ⟨index, 1, 2, low, high, b.toNat - 0xE0⟩ ∧
      ∀ n, 0x80 ≤ n ∧ n ≤ 0xBF → (b.toNat = 0xE0 → 0xA0 ≤ n) → (b.toNat = 0xED → n ≤ 0x9F) →
        low.toNat ≤ n ∧ n ≤ high.toNat := by
  simp only [lead]
  rw [if_neg (by omega), if_neg (by omega), if_neg (by omega)]
  split
  · rename_i same
    exact ⟨0xA0, 0xBF, by rw [same], fun n inside short _ => ⟨short same, inside.2⟩⟩
  split
  · rename_i same
    exact ⟨0x80, 0x9F, by rw [same], fun n inside _ surrogate => ⟨inside.1, surrogate same⟩⟩
  · rw [if_pos (by omega)]
    exact ⟨0x80, 0xBF, rfl, fun n inside _ _ => inside⟩

theorem lead_four (index : Nat) (range : 0xF0 ≤ b.toNat ∧ b.toNat ≤ 0xF4) :
    ∃ low high, lead index b = .pending ⟨index, 1, 3, low, high, b.toNat - 0xF0⟩ ∧
      ∀ n, 0x80 ≤ n ∧ n ≤ 0xBF → (b.toNat = 0xF0 → 0x90 ≤ n) → (b.toNat = 0xF4 → n ≤ 0x8F) →
        low.toNat ≤ n ∧ n ≤ high.toNat := by
  simp only [lead]
  rw [if_neg (by omega), if_neg (by omega), if_neg (by omega), if_neg (by omega), if_neg (by omega),
    if_neg (by omega)]
  split
  · rename_i same
    exact ⟨0x90, 0xBF, by rw [same], fun n inside short _ => ⟨short same, inside.2⟩⟩
  split
  · exact ⟨0x80, 0xBF, rfl, fun n inside _ _ => inside⟩
  · have same : b.toNat = 0xF4 := by omega
    rw [if_pos same]
    exact ⟨0x80, 0x8F, by rw [same], fun n inside _ long => ⟨inside.1, long same⟩⟩

theorem decodeFrom_two (index : Nat) (b₁ b₂ : UInt8) (first : 0xC2 ≤ b₁.toNat ∧ b₁.toNat < 0xE0)
    (second : 0x80 ≤ b₂.toNat ∧ b₂.toNat ≤ 0xBF) (rest : Bytes) :
    decodeFrom index none (b₁ :: b₂ :: rest) = (decodeFrom (index + 1 + 1) none rest).map
      (Char.ofNat ((b₁.toNat - 0xC0) * 64 + (b₂.toNat - 0x80)) :: ·) := by
  rw [decodeFrom_pending (lead_two index first), decodeFrom_last (feed_last 0x80 0xBF second)]

theorem decodeFrom_three (index : Nat) (b₁ b₂ b₃ : UInt8) (first : 0xE0 ≤ b₁.toNat ∧ b₁.toNat < 0xF0)
    (second : 0x80 ≤ b₂.toNat ∧ b₂.toNat ≤ 0xBF) (third : 0x80 ≤ b₃.toNat ∧ b₃.toNat ≤ 0xBF)
    (short : b₁.toNat = 0xE0 → 0xA0 ≤ b₂.toNat) (surrogate : b₁.toNat = 0xED → b₂.toNat ≤ 0x9F)
    (rest : Bytes) : decodeFrom index none (b₁ :: b₂ :: b₃ :: rest) =
      (decodeFrom (index + 1 + 1 + 1) none rest).map
      (Char.ofNat (((b₁.toNat - 0xE0) * 64 + (b₂.toNat - 0x80)) * 64 + (b₃.toNat - 0x80)) :: ·) := by
  obtain ⟨low, high, begins, announced⟩ := lead_three index first
  rw [decodeFrom_pending begins, decodeFrom_more (feed_more _ _ (announced _ second short surrogate)),
    decodeFrom_last (feed_last 0x80 0xBF third)]

theorem decodeFrom_four (index : Nat) (b₁ b₂ b₃ b₄ : UInt8) (first : 0xF0 ≤ b₁.toNat ∧ b₁.toNat ≤ 0xF4)
    (second : 0x80 ≤ b₂.toNat ∧ b₂.toNat ≤ 0xBF) (third : 0x80 ≤ b₃.toNat ∧ b₃.toNat ≤ 0xBF)
    (fourth : 0x80 ≤ b₄.toNat ∧ b₄.toNat ≤ 0xBF) (short : b₁.toNat = 0xF0 → 0x90 ≤ b₂.toNat)
    (long : b₁.toNat = 0xF4 → b₂.toNat ≤ 0x8F) (rest : Bytes) :
    decodeFrom index none (b₁ :: b₂ :: b₃ :: b₄ :: rest) =
      (decodeFrom (index + 1 + 1 + 1 + 1) none rest).map
      (Char.ofNat ((((b₁.toNat - 0xF0) * 64 + (b₂.toNat - 0x80)) * 64 + (b₃.toNat - 0x80)) * 64 +
        (b₄.toNat - 0x80)) :: ·) := by
  obtain ⟨low, high, begins, announced⟩ := lead_four index first
  rw [decodeFrom_pending begins, decodeFrom_more (feed_more _ _ (announced _ second short long)),
    decodeFrom_more (feed_more 0x80 0xBF third),
    decodeFrom_last (feed_last 0x80 0xBF fourth)]

end

theorem decodeFrom_encode (index : Nat) (c : Char) (rest : Bytes) :
    ∃ next, decodeFrom index none (String.utf8EncodeChar c ++ rest) =
      (decodeFrom next none rest).map (c :: ·) := by
  have valid : c.val.toNat < 0xD800 ∨ 0xDFFF < c.val.toNat ∧ c.val.toNat < 0x110000 := c.valid
  have same : ∀ n, n = c.val.toNat → Char.ofNat n = c := by
    rintro n rfl
    exact Char.ofNat_toNat c
  have byte : ∀ n, n < 256 → (UInt8.ofNat n).toNat = n := fun n small => by
    rw [UInt8.toNat_ofNat', Nat.mod_eq_of_lt small]
  unfold String.utf8EncodeChar
  generalize c.val.toNat = v at valid same
  simp only
  split
  · have first := byte v (by omega)
    refine ⟨_, decodeFrom_char ?_⟩
    simp only [lead]
    rw [first, if_pos (by omega), same v rfl]
  split
  · have first := byte (v / 64 % 32 + 192) (by omega)
    have second := byte (v % 64 + 128) (by omega)
    have read := decodeFrom_two index (UInt8.ofNat (v / 64 % 32 + 192)) (UInt8.ofNat (v % 64 + 128))
      (by omega) (by omega) rest
    rw [same _ (by omega)] at read
    exact ⟨_, read⟩
  split
  · have first := byte (v / 4096 % 16 + 224) (by omega)
    have second := byte (v / 64 % 64 + 128) (by omega)
    have third := byte (v % 64 + 128) (by omega)
    have read := decodeFrom_three index (UInt8.ofNat (v / 4096 % 16 + 224))
      (UInt8.ofNat (v / 64 % 64 + 128)) (UInt8.ofNat (v % 64 + 128)) (by omega) (by omega) (by omega)
      (by omega) (by omega) rest
    rw [same _ (by omega)] at read
    exact ⟨_, read⟩
  · have first := byte (v / 262144 % 8 + 240) (by omega)
    have second := byte (v / 4096 % 64 + 128) (by omega)
    have third := byte (v / 64 % 64 + 128) (by omega)
    have fourth := byte (v % 64 + 128) (by omega)
    have read := decodeFrom_four index (UInt8.ofNat (v / 262144 % 8 + 240))
      (UInt8.ofNat (v / 4096 % 64 + 128)) (UInt8.ofNat (v / 64 % 64 + 128))
      (UInt8.ofNat (v % 64 + 128)) (by omega) (by omega) (by omega) (by omega) (by omega)
        (by omega) rest
    rw [same _ (by omega)] at read
    exact ⟨_, read⟩

/-- A character that takes several bytes has none of those that stand for a character alone. -/
theorem utf8EncodeChar_large {c : Char} (long : 127 < c.val.toNat) {b : UInt8}
    (member : b ∈ String.utf8EncodeChar c) : 128 ≤ b.toNat := by
  have byte : ∀ n, 128 ≤ n → n < 256 → 128 ≤ (UInt8.ofNat n).toNat := fun n large small => by
    rwa [UInt8.toNat_ofNat', Nat.mod_eq_of_lt small]
  unfold String.utf8EncodeChar at member
  generalize c.val.toNat = v at long member
  simp only at member
  rw [if_neg (by omega)] at member
  split at member
  · simp only [List.mem_cons, List.not_mem_nil, or_false] at member
    rcases member with rfl | rfl <;> exact byte _ (by omega) (by omega)
  split at member
  · simp only [List.mem_cons, List.not_mem_nil, or_false] at member
    rcases member with rfl | rfl | rfl <;> exact byte _ (by omega) (by omega)
  · simp only [List.mem_cons, List.not_mem_nil, or_false] at member
    rcases member with rfl | rfl | rfl | rfl <;> exact byte _ (by omega) (by omega)

/-- A byte below 128 stands for its own character and occurs in no other. -/
theorem eq_of_mem_utf8EncodeChar {c d : Char} {b : UInt8} (value : d.val.toNat = b.toNat)
    (small : b.toNat < 128) (member : b ∈ String.utf8EncodeChar c) : c = d := by
  by_cases long : 127 < c.val.toNat
  · exact absurd (utf8EncodeChar_large long member) (by omega)
  · unfold String.utf8EncodeChar at member
    simp only at member
    rw [if_pos (by omega), List.mem_singleton] at member
    have own := congrArg UInt8.toNat member
    rw [UInt8.toNat_ofNat', Nat.mod_eq_of_lt (by omega)] at own
    exact Char.ext (UInt32.toNat_inj.mp (own.symm.trans value.symm))

theorem count_utf8EncodeChar (c : Char) : (String.utf8EncodeChar c).count 10 = [c].count '\n' := by
  by_cases same : c = '\n'
  · rw [same]
    decide
  · rw [List.count_eq_zero.mpr fun member => same (eq_of_mem_utf8EncodeChar (d := '\n') rfl
      (by decide) member)]
    exact (List.count_eq_zero.mpr fun member => same (List.mem_singleton.mp member).symm).symm

theorem encode_length_le (s : String) : (encode s).length ≤ 4 * s.toList.length := by
  unfold encode
  induction s.toList with
  | nil => simp
  | cons c rest ih =>
    have first := c.utf8Size_le_four
    rw [List.flatMap_cons, List.length_append, String.length_utf8EncodeChar, List.length_cons]
    omega

theorem decode_encode (s : String) : decode (encode s) = .ok s := by
  have read : ∀ (cs : List Char) (index : Nat), decodeFrom index none
      (cs.flatMap String.utf8EncodeChar) = .ok cs := by
    intro cs
    induction cs with
    | nil => intro index; rfl
    | cons c cs ih =>
      intro index
      obtain ⟨next, first⟩ := decodeFrom_encode index c (cs.flatMap String.utf8EncodeChar)
      rw [List.flatMap_cons, first, ih]
      rfl
  rw [decode, encode, read]
  simp [Except.map]

/-! ### Places between characters -/

theorem byteLength_toList (s : String) : byteLength s.toList = s.utf8ByteSize := by
  have chars : ∀ cs : List Char, byteLength cs = (String.ofList cs).utf8ByteSize := by
    intro cs
    induction cs with
    | nil => rfl
    | cons c cs ih =>
      rw [byteLength_cons, ih, String.ofList_cons, String.utf8ByteSize_append,
        String.utf8ByteSize_singleton]
  rw [chars, String.ofList_toList]

theorem isValid_front {s : String} {front back : List Char} (whole : s.toList = front ++ back) :
    String.Pos.Raw.IsValid s ⟨byteLength front⟩ := by
  refine String.Pos.Raw.isValid_iff_exists_append.mpr ⟨String.ofList front, String.ofList back, ?_, ?_⟩
  · rw [← String.ofList_append, ← whole, String.ofList_toList]
  · rw [← String.toList_ofList (l := front), byteLength_toList, String.toList_ofList]
    rfl

/-- Of two beginnings of a text, the one of fewer bytes is a beginning of the other. -/
theorem prefix_of_byteLength_le {a b text : List Char} (first : a <+: text) (second : b <+: text)
    (shorter : byteLength a ≤ byteLength b) : a <+: b := by
  rcases List.prefix_or_prefix_of_prefix first second with within | ⟨more, rfl⟩
  · exact within
  · cases more with
    | nil => exact ⟨[], by rw [List.append_nil, List.append_nil]⟩
    | cons c more =>
      have := c.utf8Size_pos
      rw [byteLength_append, byteLength_cons] at shorter
      omega

end Relocation.Text
