import HpcToolkit.MetaDb.FormulaText

/-! # Constants with six digits

A constant keeps its value in a formula exactly if six digits can write it.
-/

open List

namespace HpcToolkit.MetaDb

open Prof Sources.Formula

/-! ## Digits -/

lemma digitsValue_eq (digits : List Char) : digitsValue digits = Nat.ofDigitChars 10 digits 0 := by
  have steps : (fun (n : ℕ) (c : Char) => n * 10 + (c.toNat - '0'.toNat)) = fun n c => 10 * n + (c.toNat - '0'.toNat) := by
    funext n c
    rw [mul_comm]
  rw [digitsValue, Nat.ofDigitChars_eq_foldl, steps]

lemma digitsValue_append (first second : List Char) :
    digitsValue (first ++ second) = digitsValue first * 10 ^ second.length + digitsValue second := by
  rw [digitsValue_eq, digitsValue_eq, digitsValue_eq, Nat.ofDigitChars_append, Nat.ofDigitChars_eq_ofDigitChars_zero,
    mul_comm]

lemma digitsValue_zeros (n : ℕ) : digitsValue (replicate n '0') = 0 := by
  rw [digitsValue_eq, Nat.ofDigitChars_replicate_zero, mul_zero]

lemma digitsValue_toDigits (n : ℕ) : digitsValue (Nat.toDigits 10 n) = n := by
  rw [digitsValue_eq, Nat.ofDigitChars_ten_toDigits]

lemma digitsValue_exponentDigits (n : ℕ) : digitsValue (exponentDigits n) = n := by
  unfold exponentDigits
  split
  · rw [← singleton_append, digitsValue_append, digitsValue_toDigits]
    exact (congrArg (· + n) (zero_mul _)).trans (zero_add n)
  · exact digitsValue_toDigits n

lemma length_six {n : ℕ} (least : 10 ^ 5 ≤ n) (most : n < 10 ^ 6) : (Nat.toDigits 10 n).length = 6 := by
  refine le_antisymm ((Nat.length_toDigits_le_iff (by decide) (by decide)).mpr most) ?_
  by_contra short
  have few : (Nat.toDigits 10 n).length ≤ 5 := by omega
  exact absurd ((Nat.length_toDigits_le_iff (by decide) (by decide)).mp few) (not_lt.mpr least)

lemma fraction_getD (digits : List Char) : (fraction digits).getD [] = digits.rdropWhile (· = '0') := by
  unfold fraction
  split
  · rename_i nothing
    exact nothing.symm
  · rfl

section Values

variable {K : Type} [Field K] [LinearOrder K] [IsStrictOrderedRing K]

lemma fraction_value (whole digits : List Char) :
    (digitsValue (whole ++ (fraction digits).getD []) : K) * 10 ^ (-(((fraction digits).getD []).length : ℤ)) =
      digitsValue (whole ++ digits) * 10 ^ (-(digits.length : ℤ)) := by
  rw [fraction_getD]
  obtain ⟨zeros, rest⟩ : ∃ zeros, digits.rtakeWhile (· = '0') = replicate zeros '0' :=
    ⟨_, eq_replicate_of_mem fun c member => by simpa using mem_rtakeWhile_imp member⟩
  have split : digits.rdropWhile (· = '0') ++ digits.rtakeWhile (· = '0') = digits := rdropWhile_append_rtakeWhile
  rw [rest] at split
  generalize digits.rdropWhile (· = '0') = kept at split ⊢
  subst split
  have shift : (10 : K) ^ (-(kept.length : ℤ)) = 10 ^ zeros * 10 ^ (-((kept.length + zeros : ℕ) : ℤ)) := by
    rw [← zpow_natCast, ← zpow_add₀ (by norm_num)]
    congr 1
    push_cast
    ring
  rw [← append_assoc, digitsValue_append _ (replicate _ _), digitsValue_zeros, length_append,
    length_replicate, shift]
  push_cast
  ring

lemma magnitude_fraction (sign : Option Char) (whole digits : List Char) (exponent : Option (Char × Option Char × List Char)) :
    magnitude (K := K) ⟨sign, whole, fraction digits, exponent⟩ =
      digitsValue (whole ++ digits) * 10 ^ (exponentValue exponent - digits.length) := by
  rw [magnitude, sub_eq_add_neg, sub_eq_add_neg, zpow_add₀ (by norm_num), zpow_add₀ (by norm_num), mul_left_comm,
    fraction_value, mul_left_comm]

end Values

/-! ## Rounding to six digits -/

section Rounding

variable {K : Type} [Field K] [LinearOrder K] [IsStrictOrderedRing K] [FloorRing K]

lemma roundHalfEven_intCast (n : ℤ) : roundHalfEven (n : K) = n := by
  simp [roundHalfEven]

omit [IsStrictOrderedRing K] in
lemma roundHalfEven_near (q : K) : roundHalfEven q = ⌊q⌋ ∨ roundHalfEven q = ⌊q⌋ + 1 := by
  unfold roundHalfEven
  dsimp only
  split_ifs
  · exact .inl rfl
  · exact .inr rfl
  · exact .inl rfl
  · exact .inr rfl

omit [IsStrictOrderedRing K] in
lemma roundHalfEven_bounds {q : K} {least most : ℤ} (low : least ≤ q) (high : q < most) :
    least ≤ roundHalfEven q ∧ roundHalfEven q ≤ most := by
  have floor_low : least ≤ ⌊q⌋ := Int.le_floor.mpr low
  have floor_high : ⌊q⌋ < most := Int.floor_lt.mpr high
  rcases roundHalfEven_near q with near | near <;> omega

lemma scaled_bounds {a : K} (positive : 0 < a) :
    10 ^ 5 ≤ a / 10 ^ (Int.log 10 a - 5) ∧ a / 10 ^ (Int.log 10 a - 5) < 10 ^ 6 := by
  have ten : (0 : K) < 10 ^ (Int.log 10 a - 5) := zpow_pos (by norm_num) _
  have scale (k : ℕ) : (10 : K) ^ k * 10 ^ (Int.log 10 a - 5) = 10 ^ (Int.log 10 a + (k - 5)) := by
    rw [← zpow_natCast, ← zpow_add₀ (by norm_num)]
    congr 1
    ring
  have low : (10 : K) ^ Int.log 10 a ≤ a := by exact_mod_cast Int.zpow_log_le_self (b := 10) (by decide) positive
  have high : a < (10 : K) ^ (Int.log 10 a + 1) := by exact_mod_cast Int.lt_zpow_succ_log_self (b := 10) (by decide) a
  rw [le_div_iff₀ ten, div_lt_iff₀ ten, scale, scale]
  exact ⟨by simpa using low, by simpa using high⟩

lemma sixDigits_bounds {a : K} (positive : 0 < a) : 10 ^ 5 ≤ (sixDigits a).1 ∧ (sixDigits a).1 < 10 ^ 6 := by
  obtain ⟨low, high⟩ := scaled_bounds positive
  obtain ⟨least, most⟩ : 10 ^ 5 ≤ roundHalfEven (a / 10 ^ (Int.log 10 a - 5)) ∧
      roundHalfEven (a / 10 ^ (Int.log 10 a - 5)) ≤ 10 ^ 6 :=
    roundHalfEven_bounds (by exact_mod_cast low) (by exact_mod_cast high)
  unfold sixDigits
  dsimp only
  split_ifs with carry
  · exact ⟨le_rfl, Nat.pow_lt_pow_right (by decide) (by decide)⟩
  · omega

end Rounding

/-! ## What is written -/

section Written

variable {K : Type} [Field K] [LinearOrder K] [IsStrictOrderedRing K] [FloorRing K] {v : K}

lemma magnitude_streamed (nonzero : v ≠ 0) :
    magnitude (streamed v) = (sixDigits |v|).1 * (10 : K) ^ ((sixDigits |v|).2 - 5) := by
  obtain ⟨least, most⟩ := sixDigits_bounds (abs_pos.mpr nonzero)
  have six := length_six least most
  unfold streamed
  rw [if_neg nonzero]
  generalize sixDigits |v| = digits at least most six ⊢
  obtain ⟨number, exponent⟩ := digits
  dsimp only at least most six ⊢
  split
  · rename_i scientific
    have signed : exponentValue (some ('e', some (if exponent < 0 then '-' else '+'), exponentDigits exponent.natAbs)) =
        exponent := by
      rw [exponentValue, digitsValue_exponentDigits]
      split_ifs <;> grind
    rw [magnitude_fraction, take_append_drop, digitsValue_toDigits, length_drop, six, signed]
    rfl
  · rename_i plain
    split
    · rename_i small
      have zeros : digitsValue (['0'] ++ (replicate (exponent.natAbs - 1) '0' ++ Nat.toDigits 10 number)) = number := by
        rw [← append_assoc, ← replicate_one, replicate_append_replicate, digitsValue_append,
          digitsValue_zeros, digitsValue_toDigits, zero_mul, zero_add]
      rw [magnitude_fraction, zeros, length_append, length_replicate, six]
      congr 2
      rw [exponentValue]
      omega
    · rename_i large
      rw [magnitude_fraction, take_append_drop, digitsValue_toDigits, length_drop, six]
      congr 2
      rw [exponentValue]
      omega

omit [IsStrictOrderedRing K] in
lemma streamed_sign (v : K) : (streamed v).sign = if v < 0 then some '-' else none := by
  unfold streamed
  split
  · rename_i zero
    rw [zero, if_neg (lt_irrefl 0)]
  · dsimp only
    split_ifs <;> rfl

lemma writtenExactly_iff_magnitude (v : K) : WrittenExactly v ↔ magnitude (streamed v) = |v| := by
  rw [WrittenExactly, decimalValue, streamed_sign]
  rcases lt_or_ge v 0 with negative | positive
  · rw [if_pos negative, if_pos rfl, abs_of_neg negative, neg_eq_iff_eq_neg]
  · rw [if_neg (not_lt.mpr positive), if_neg nofun, abs_of_nonneg positive]

lemma sixDigits_exact {m : ℕ} (positive : 0 < m) (few : m < 10 ^ 6) (k : ℤ) :
    ((sixDigits ((m : K) * 10 ^ k)).1 : K) * 10 ^ ((sixDigits ((m : K) * 10 ^ k)).2 - 5) = m * 10 ^ k := by
  have ten : (10 : K) ≠ 0 := by norm_num
  have above : (0 : K) < m * 10 ^ k := mul_pos (by exact_mod_cast positive) (zpow_pos (by norm_num) _)
  obtain ⟨-, high⟩ := scaled_bounds above
  have below : (m : K) * 10 ^ k < 10 ^ (k + 6) := by
    rw [zpow_add₀ ten, mul_comm]
    exact mul_lt_mul_of_pos_left (by exact_mod_cast few) (zpow_pos (by norm_num) _)
  have log : Int.log 10 ((m : K) * 10 ^ k) < k + 6 :=
    (Int.lt_zpow_iff_log_lt (by decide) above).mp (by exact_mod_cast below)
  obtain ⟨j, shift⟩ : ∃ j : ℕ, k = Int.log 10 ((m : K) * 10 ^ k) - 5 + j :=
    ⟨(k - (Int.log 10 ((m : K) * 10 ^ k) - 5)).toNat, by omega⟩
  have scaled : (m : K) * 10 ^ k / 10 ^ (Int.log 10 ((m : K) * 10 ^ k) - 5) = ((m * 10 ^ j : ℕ) : ℤ) := by
    rw [div_eq_iff (zpow_ne_zero _ ten)]
    nth_rewrite 1 [shift]
    rw [zpow_add₀ ten]
    push_cast
    rw [zpow_natCast]
    ring
  unfold sixDigits
  dsimp only
  rw [scaled] at high
  have noCarry : m * 10 ^ j ≠ 10 ^ 6 := Nat.ne_of_lt (by exact_mod_cast high)
  have value : ((m * 10 ^ j : ℕ) : K) * 10 ^ (Int.log 10 ((m : K) * 10 ^ k) - 5) = m * 10 ^ k := by
    rw [← Int.cast_natCast, ← scaled, div_mul_cancel₀ _ (zpow_ne_zero _ ten)]
  rw [scaled, roundHalfEven_intCast, Int.toNat_natCast, if_neg noCarry]
  exact value

lemma writtenExactly_iff (v : K) : WrittenExactly v ↔ HasSixDigits v := by
  rcases eq_or_ne v 0 with rfl | nonzero
  · have zero : streamed (0 : K) = ⟨none, ['0'], none, none⟩ := if_pos rfl
    refine iff_of_true ?_ ⟨0, 0, by decide, by simp⟩
    rw [writtenExactly_iff_magnitude, zero, magnitude, abs_zero]
    exact mul_eq_zero_of_left Nat.cast_zero _
  rw [writtenExactly_iff_magnitude, magnitude_streamed nonzero]
  constructor
  · intro written
    obtain ⟨-, most⟩ := sixDigits_bounds (abs_pos.mpr nonzero)
    rcases lt_or_ge v 0 with negative | positive
    · refine ⟨-(sixDigits |v|).1, (sixDigits |v|).2 - 5, ?_, ?_⟩
      · rw [abs_neg, Nat.abs_cast]
        exact_mod_cast most
      · rw [abs_of_neg negative] at written ⊢
        push_cast
        rw [neg_mul, written, neg_neg]
    · refine ⟨(sixDigits |v|).1, (sixDigits |v|).2 - 5, ?_, ?_⟩
      · rw [Nat.abs_cast]
        exact_mod_cast most
      · rw [abs_of_nonneg positive] at written ⊢
        exact_mod_cast written.symm
  · rintro ⟨n, k, few, rfl⟩
    have digits : |(n : K) * 10 ^ k| = (n.natAbs : K) * 10 ^ k := by
      rw [abs_mul, abs_of_pos (zpow_pos (by norm_num : (0 : K) < 10) k), Nat.cast_natAbs, Int.cast_abs]
    have positive : 0 < n.natAbs := Int.natAbs_pos.mpr fun zero => nonzero (by rw [zero, Int.cast_zero, zero_mul])
    rw [Int.abs_eq_natAbs] at few
    rw [digits]
    exact sixDigits_exact positive (by exact_mod_cast few) k

end Written

end HpcToolkit.MetaDb
