import Relocation.Timestamp

/-!
# The text of a timestamp

Every moment of the calendar is read back from its text.
-/

namespace Relocation.Timestamp

/-! ### Digits -/

theorem digitsValue_eq (ds : List Char) : digitsValue ds = Nat.ofDigitChars 10 ds 0 := by
  simp [digitsValue, Nat.ofDigitChars_eq_foldl, Nat.mul_comm]

theorem toNat_of_isDigit {c : Char} (digit : c.isDigit = true) : 48 ≤ c.toNat ∧ c.toNat ≤ 57 := by
  have bounds : decide (48 ≤ c.val) && decide (c.val ≤ 57) := digit
  simpa [UInt32.le_iff_toNat_le] using bounds

theorem isBlank_of_isDigit {c : Char} (digit : c.isDigit = true) : Text.isBlank c = false := by
  have bounds := toNat_of_isDigit digit
  simp [Text.isBlank]
  omega

section
variable {width n : Nat}

theorem padded_isDigit : ∀ c ∈ padded width n, c.isDigit = true := by
  intro c member
  rcases List.mem_append.mp member with zero | digit
  · rw [(List.mem_replicate.mp zero).2]
    rfl
  · exact Nat.isDigit_of_mem_toDigits (by decide) (by decide) digit

theorem digitsValue_padded : digitsValue (padded width n) = n := by
  rw [digitsValue_eq, padded, Nat.ofDigitChars_append, Nat.ofDigitChars_replicate_zero, Nat.mul_zero,
    Nat.ofDigitChars_ten_toDigits]

theorem padded_length (wide : 0 < width) (small : n < Nat.pow 10 width) :
    (padded width n).length = width := by
  have fits : (Nat.toDigits 10 n).length ≤ width :=
    (Nat.length_toDigits_le_iff (by decide) wide).mpr small
  rw [padded, List.length_append, List.length_replicate]
  omega

theorem padded_length_le {most : Nat} (narrow : width ≤ most) (some' : 0 < most)
    (small : n < Nat.pow 10 most) : (padded width n).length ≤ most := by
  have fits : (Nat.toDigits 10 n).length ≤ most :=
    (Nat.length_toDigits_le_iff (by decide) some').mpr small
  rw [padded, List.length_append, List.length_replicate]
  omega

theorem padded_cons (width n : Nat) : ∃ d ds, padded width n = d :: ds ∧ d.isDigit = true := by
  have filled : padded width n ≠ [] := by
    rw [padded]
    simp [Nat.toDigits_ne_nil]
  obtain ⟨d, ds, split⟩ := List.exists_cons_of_ne_nil filled
  exact ⟨d, ds, split, padded_isDigit d (split ▸ List.mem_cons_self)⟩

theorem trimStart_padded (rest : List Char) :
    Text.trimStart (padded width n ++ rest) = padded width n ++ rest := by
  obtain ⟨d, ds, split, digit⟩ := padded_cons width n
  rw [split, List.cons_append, Text.trimStart, List.dropWhile_cons_of_neg
    (by simp [isBlank_of_isDigit digit])]

theorem takeWhile_padded {rest : List Char} (ends : rest.takeWhile Char.isDigit = []) :
    (padded width n ++ rest).takeWhile Char.isDigit = padded width n := by
  rw [List.takeWhile_append_of_pos padded_isDigit, ends, List.append_nil]

theorem digits?_padded (wide : 0 < width) (small : n < Nat.pow 10 width) (rest : List Char) :
    digits? (some width) (padded width n ++ rest) = some (n, rest) := by
  obtain ⟨d, ds, split, _⟩ := padded_cons width n
  have taken : ((padded width n ++ rest).takeWhile Char.isDigit).take width = padded width n := by
    rw [List.takeWhile_append_of_pos padded_isDigit, List.take_left' (padded_length wide small)]
  have filled : (padded width n).isEmpty = false := by rw [split]; rfl
  simp only [digits?, taken, filled, digitsValue_padded, List.drop_left]
  rfl

theorem digits?_padded_all {rest : List Char} (ends : rest.takeWhile Char.isDigit = []) :
    digits? none (padded width n ++ rest) = some (n, rest) := by
  obtain ⟨d, ds, split, _⟩ := padded_cons width n
  have filled : (padded width n).isEmpty = false := by rw [split]; rfl
  simp only [digits?, takeWhile_padded ends, filled, digitsValue_padded, List.drop_left]
  rfl

theorem part?_padded (small : n < 100) (rest : List Char) :
    part? (padded 2 n ++ rest) = some (n, rest) := by
  rw [part?, trimStart_padded]
  exact digits?_padded (by decide) small rest

theorem mark?_cons {c : Char} (plain : Text.isBlank c = false) (rest : List Char) :
    mark? c (c :: rest) = some rest := by
  simp [mark?, Text.trimStart, plain]

end

/-! ### Fields -/

theorem year?_yearText (year : Int) (rest : List Char) :
    year? (yearText year ++ '-' :: rest) = some (year, '-' :: rest) := by
  unfold yearText
  split
  · rename_i four
    obtain ⟨d, ds, split, digit⟩ := padded_cons 4 year.toNat
    have read : digits? (some 4) (padded 4 year.toNat ++ '-' :: rest) =
      some (year.toNat, '-' :: rest) :=
      digits?_padded (by decide) (show year.toNat < 10000 by omega) _
    rw [year?, trimStart_padded]
    rw [split] at read ⊢
    split
    · rename_i same
      cases (List.cons.inj same).1
      cases digit
    · rename_i same
      cases (List.cons.inj same).1
      cases digit
    · simp only [read, Option.map_some, Int.toNat_of_nonneg four.1]
  · rename_i outside
    have read : digits? none (padded 4 year.natAbs ++ '-' :: rest) = some (year.natAbs, '-' :: rest) :=
      digits?_padded_all rfl
    split
    · rename_i negative
      have value : -(year.natAbs : Int) = year := by omega
      rw [List.cons_append, year?, Text.trimStart, List.dropWhile_cons_of_neg (by decide)]
      simp only [read, Option.map_some, value]
    · rename_i positive
      have value : (year.natAbs : Int) = year := by omega
      rw [List.cons_append, year?, Text.trimStart, List.dropWhile_cons_of_neg (by decide)]
      simp only [read, Option.map_some, value]

theorem fraction?_padded {width n : Nat} (wide : 0 < width) (narrow : width ≤ 9)
    (small : n < Nat.pow 10 width) : fraction? ('.' :: padded width n ++ ['Z']) =
      some (n * Nat.pow 10 (9 - width), ['Z']) := by
  obtain ⟨d, ds, split, _⟩ := padded_cons width n
  have run : (padded width n ++ ['Z']).takeWhile Char.isDigit = padded width n := takeWhile_padded rfl
  have filled : (padded width n).isEmpty = false := by rw [split]; rfl
  have length := padded_length wide small
  have whole : (padded width n).take 9 = padded width n := List.take_of_length_le (by omega)
  have left : (padded width n ++ ['Z']).drop width = ['Z'] := List.drop_left' length
  rw [List.cons_append]
  simp only [fraction?, run, filled, whole, length, left, digitsValue_padded]
  rfl

theorem fractionText_cases {nano : Nat} (small : nano < Nat.pow 10 9) :
    (nano = 0 ∧ fractionText nano = []) ∨ ∃ width n, 0 < width ∧ width ≤ 9 ∧ n < Nat.pow 10 width ∧
      nano = n * Nat.pow 10 (9 - width) ∧ fractionText nano = '.' :: padded width n := by
  have bound : nano < 1000000000 := small
  unfold fractionText
  split
  · exact Or.inl ⟨‹_›, rfl⟩
  · refine Or.inr ?_
    split
    · exact ⟨3, nano / 1000000, by decide, by decide, show _ < 1000 by omega,
        show _ = _ * 1000000 by omega, rfl⟩
    · split
      · exact ⟨6, nano / 1000, by decide, by decide, show _ < 1000000 by omega,
          show _ = _ * 1000 by omega, rfl⟩
      · exact ⟨9, nano, by decide, by decide, small, (Nat.mul_one nano).symm, rfl⟩

theorem fraction?_fractionText {nano : Nat} (small : nano < Nat.pow 10 9) :
    fraction? (fractionText nano ++ ['Z']) = some (nano, ['Z']) := by
  rcases fractionText_cases small with ⟨none, text⟩ | ⟨width, n, wide, narrow, fits, value, text⟩
  · rw [text, none]
    rfl
  · rw [text, value, fraction?_padded wide narrow fits]

theorem make?_parts (t : Timestamp) :
    make? t.date t.hour t.minute t.second t.nano = some t := dif_pos t.valid

theorem ofLocal?_zero (t : Timestamp) : t.ofLocal? 0 = some t := by
  have valid := t.valid
  simp only [inRange, Bool.and_eq_true, decide_eq_true_eq] at valid
  obtain ⟨⟨⟨⟨_, hour⟩, minute⟩, _⟩, _⟩ := valid
  have first : ¬ ((t.hour : Int) * 60 + t.minute - 0 < 0) := by omega
  have second : ¬ (24 * 60 ≤ (t.hour : Int) * 60 + t.minute - 0) := by omega
  have hours : ((t.hour : Int) * 60 + t.minute - 0).toNat / 60 = t.hour := by omega
  have minutes : ((t.hour : Int) * 60 + t.minute - 0).toNat % 60 = t.minute := by omega
  unfold ofLocal?
  simp only [if_neg first, if_neg second, hours, minutes, make?_parts]

/-- No part of a date or a time of day has more than two digits. -/
theorem bounds (t : Timestamp) :
    t.date.year.natAbs < 1000000 ∧ t.date.month < 100 ∧ t.date.day < 100 ∧ t.hour < 100 ∧
    t.minute < 100 ∧
      t.second < 100 ∧ t.nano < Nat.pow 10 9 := by
  have valid := t.valid
  simp only [inRange, Date.isValid, Date.isCovered, Bool.and_eq_true, decide_eq_true_eq] at valid
  obtain ⟨⟨⟨⟨⟨⟨⟨⟨⟨low, high⟩, _⟩, month⟩, _⟩, day⟩, hour⟩, minute⟩, second⟩, nano⟩ := valid
  have days : Date.daysIn t.date.year t.date.month ≤ 31 := by
    unfold Date.daysIn
    repeat' split
    all_goals decide
  refine ⟨by omega, by omega, by omega, by omega, by omega, by omega, nano⟩

theorem toText_length (t : Timestamp) : t.toText.toList.length ≤ 40 := by
  obtain ⟨year, month, day, hour, minute, second, nano⟩ := t.bounds
  have two : ∀ {n}, n < 100 → (padded 2 n).length = 2 := fun small => padded_length (by decide) small
  have first : (yearText t.date.year).length ≤ 7 := by
    unfold yearText
    split
    · rename_i four
      rw [padded_length (by decide)
        (show t.date.year.toNat < Nat.pow 10 4 from show _ < 10000 by omega)]
      decide
    · have digits : (padded 4 t.date.year.natAbs).length ≤ 6 :=
        padded_length_le (by decide) (by decide) year
      rw [List.length_cons]
      omega
  have last : (fractionText t.nano).length ≤ 10 := by
    rcases fractionText_cases nano with ⟨_, text⟩ | ⟨width, n, wide, narrow, fits, _, text⟩
    · simp [text]
    · rw [text, List.length_cons, padded_length wide fits]
      omega
  rw [toText, String.toList_ofList]
  simp only [List.length_append, List.length_cons, List.length_nil, two month, two day, two hour,
    two minute, two second]
  omega

theorem parse?_toText (t : Timestamp) : parse? t.toText = some t := by
  obtain ⟨_, month, day, hour, minute, second, nano⟩ := t.bounds
  have dash : Text.isBlank '-' = false := rfl
  have colon : Text.isBlank ':' = false := rfl
  have shape : t.toText.toList =
      yearText t.date.year ++ '-' :: (padded 2 t.date.month ++ '-' :: (padded 2 t.date.day ++
      'T' :: (padded 2 t.hour ++ ':' :: (padded 2 t.minute ++ ':' :: (padded 2 t.second ++
        (fractionText t.nano ++ ['Z'])))))) := by
    rw [toText, String.toList_ofList]
    simp only [List.append_assoc, List.cons_append]
  unfold parse?
  rw [shape]
  refine Option.bind_eq_some_iff.mpr ⟨_, year?_yearText _ _, ?_⟩
  refine Option.bind_eq_some_iff.mpr ⟨_, mark?_cons dash _, ?_⟩
  refine Option.bind_eq_some_iff.mpr ⟨_, part?_padded month _, ?_⟩
  refine Option.bind_eq_some_iff.mpr ⟨_, mark?_cons dash _, ?_⟩
  refine Option.bind_eq_some_iff.mpr ⟨_, part?_padded day _, ?_⟩
  refine Option.bind_eq_some_iff.mpr ⟨_, rfl, ?_⟩
  refine Option.bind_eq_some_iff.mpr ⟨_, part?_padded hour _, ?_⟩
  refine Option.bind_eq_some_iff.mpr ⟨_, mark?_cons colon _, ?_⟩
  refine Option.bind_eq_some_iff.mpr ⟨_, part?_padded minute _, ?_⟩
  refine Option.bind_eq_some_iff.mpr ⟨_, mark?_cons colon _, ?_⟩
  refine Option.bind_eq_some_iff.mpr ⟨_, part?_padded second _, ?_⟩
  refine Option.bind_eq_some_iff.mpr ⟨_, fraction?_fractionText nano, ?_⟩
  refine Option.bind_eq_some_iff.mpr ⟨(0, []), rfl, ?_⟩
  refine Option.bind_eq_some_iff.mpr ⟨t, t.make?_parts, ?_⟩
  exact Option.bind_eq_some_iff.mpr ⟨t, t.ofLocal?_zero, rfl⟩

end Relocation.Timestamp
