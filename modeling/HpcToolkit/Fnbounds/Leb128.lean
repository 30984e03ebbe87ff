import HpcToolkit.Fnbounds.EncodedPointers

/-! # LEB128 numbers written and read back

The shortest encodings of numbers, and what the decoders make of them. The decoders shift the groups of a number as an
`int`, so that they end with numbers that fit in one.
-/

open List
open BitVec (ofNat)

namespace HpcToolkit.Fnbounds

open Lib

/-! ## Encodings -/

/-- The shortest encoding of an unsigned number. -/
def encodeULEB128 (v : ℕ) : List (BitVec 8) :=
  if v < 128 then [ofNat 8 v] else ofNat 8 (v % 128 + 128) :: encodeULEB128 (v / 128)
termination_by v
decreasing_by omega

/-- The shortest encoding of a signed number. -/
def encodeSLEB128 (v : ℤ) : List (BitVec 8) :=
  if -64 ≤ v ∧ v < 64 then [ofNat 8 (v % 128).toNat]
  else ofNat 8 ((v % 128).toNat + 128) :: encodeSLEB128 (v / 128)
termination_by v.natAbs
decreasing_by omega

/-- The bytes stand at a place of the memory. What follows them may be anything. -/
def Stored (mem : ℕ → BitVec 8) (stream : ℕ) (bytes : List (BitVec 8)) : Prop := bytesAt mem stream bytes.length = bytes

instance (mem : ℕ → BitVec 8) (stream : ℕ) (bytes : List (BitVec 8)) : Decidable (Stored mem stream bytes) :=
  inferInstanceAs (Decidable (_ = _))

/-- No byte ends the number. -/
def Endless (mem : ℕ → BitVec 8) (stream : ℕ) : Prop := ∀ i, mem (stream + i) &&& 0x80 ≠ 0

variable {mem : ℕ → BitVec 8} {stream size : ℕ}

lemma bytesAt_cons (mem : ℕ → BitVec 8) (stream size : ℕ) :
    bytesAt mem stream (size + 1) = mem stream :: bytesAt mem (stream + 1) size := by
  simp [bytesAt, range_succ_eq_map, Function.comp_def, Nat.add_assoc, Nat.add_comm 1]

lemma groupsAt_cons (mem : ℕ → BitVec 8) (stream size : ℕ) :
    groupsAt mem stream (size + 1) = (mem stream &&& 0x7f).toNat :: groupsAt mem (stream + 1) size := by
  simp [groupsAt, range_succ_eq_map, Function.comp_def, Nat.add_assoc, Nat.add_comm 1]

lemma stored_cons {byte : BitVec 8} {bytes : List (BitVec 8)} :
    Stored mem stream (byte :: bytes) ↔ mem stream = byte ∧ Stored mem (stream + 1) bytes := by
  rw [Stored, length_cons, bytesAt_cons, cons.injEq, Stored]

lemma lebEnds_one (last : mem stream &&& 0x80 = 0) : LebEnds mem stream 1 where
  positive := Nat.one_pos
  more := nofun
  last := last

lemma LebEnds.cons (more : mem stream &&& 0x80 ≠ 0) (ends : LebEnds mem (stream + 1) size) :
    LebEnds mem stream (size + 1) where
  positive := Nat.succ_pos size
  more i inside := by
    cases i with
    | zero => exact more
    | succ i =>
      rw [show stream + (i + 1) = stream + 1 + i by omega]
      exact ends.more i (by omega)
  last := by
    rw [show stream + (size + 1 - 1) = stream + 1 + (size - 1) by have := ends.positive; omega]
    exact ends.last

lemma low_group {n : ℕ} (small : n < 128) : (ofNat 8 n &&& 0x7f).toNat = n ∧ ofNat 8 n &&& 0x80 = 0 := by
  revert n
  decide

lemma high_group {n : ℕ} (small : n < 128) :
    (ofNat 8 (n + 128) &&& 0x7f).toNat = n ∧ ofNat 8 (n + 128) &&& 0x80 ≠ 0 := by
  revert n
  decide

/-! ## Unsigned numbers -/

lemma encodeULEB128_stored {v : ℕ} (stored : Stored mem stream (encodeULEB128 v)) :
    LebEnds mem stream (encodeULEB128 v).length ∧
      Nat.ofDigits 128 (groupsAt mem stream (encodeULEB128 v).length) = v := by
  induction v using encodeULEB128.induct generalizing stream with
  | case1 v small =>
    rw [encodeULEB128, if_pos small] at stored ⊢
    obtain ⟨byte, -⟩ := stored_cons.mp stored
    obtain ⟨group, last⟩ := low_group small
    rw [← byte] at group last
    refine ⟨lebEnds_one last, ?_⟩
    rw [length_singleton, groupsAt_cons, group]
    exact Nat.ofDigits_singleton
  | case2 v large ih =>
    rw [encodeULEB128, if_neg large] at stored ⊢
    obtain ⟨byte, rest⟩ := stored_cons.mp stored
    obtain ⟨group, more⟩ := high_group (Nat.mod_lt v (by decide : 0 < 128))
    rw [← byte] at group more
    obtain ⟨ends, value⟩ := ih rest
    refine ⟨ends.cons more, ?_⟩
    rw [length_cons, groupsAt_cons, group, Nat.ofDigits_cons, value]
    exact Nat.mod_add_div v 128

lemma length_encodeULEB128_le (v n : ℕ) : (encodeULEB128 v).length ≤ n + 1 ↔ v < 128 ^ (n + 1) := by
  induction n generalizing v with
  | zero =>
    rw [encodeULEB128]
    split
    · simpa using ‹v < 128›
    · rename_i large
      have nonempty : 0 < (encodeULEB128 (v / 128)).length := by
        rw [encodeULEB128]
        split <;> exact Nat.succ_pos _
      simp only [length_cons]
      omega
  | succ n ih =>
    rw [encodeULEB128]
    split
    · rename_i small
      refine iff_of_true (by simp) (small.trans_le ?_)
      exact Nat.le_self_pow (Nat.succ_ne_zero _) 128
    · rw [length_cons, Nat.add_le_add_iff_right, ih, Nat.div_lt_iff_lt_mul (by decide), ← pow_succ]

lemma fitsInt_unsigned_iff {v : ℕ} (stored : Stored mem stream (encodeULEB128 v)) :
    FitsInt mem stream (encodeULEB128 v).length ↔ v < 2 ^ 31 := by
  obtain ⟨-, value⟩ := encodeULEB128_stored stored
  have four := length_encodeULEB128_le v 3
  have five := length_encodeULEB128_le v 4
  have low := ofDigits_groupsAt_lt mem stream 4
  generalize (encodeULEB128 v).length = size at *
  have fifth (same : size = 5) :
      Nat.ofDigits 128 (groupsAt mem stream 4) + 128 ^ 4 * (mem (stream + 4) &&& 0x7f).toNat = v := by
    subst same
    rwa [groupsAt_succ, Nat.ofDigits_append, Nat.ofDigits_singleton, length_groupsAt] at value
  rw [FitsInt]
  constructor
  · rintro (short | ⟨same, small⟩)
    · omega
    · have := fifth same
      omega
  · intro small
    rcases Nat.lt_or_ge v (128 ^ 4) with less | more
    · exact .inl (four.mpr less)
    · have same : size = 5 := by omega
      have := fifth same
      exact .inr ⟨same, by omega⟩

/-! ## Signed numbers -/

lemma signed_cons {d : ℕ} {digits : List ℕ} (digit : d < 128) (proper : ∀ x ∈ digits, x < 128)
    (nonempty : digits ≠ []) : Digits.signed 128 (d :: digits) = d + 128 * Digits.signed 128 digits := by
  obtain ⟨low, last, rfl⟩ := eq_nil_or_concat digits |>.resolve_left nonempty
  rw [concat_eq_append] at proper ⊢
  have whole : ∀ x ∈ (d :: low) ++ [last], x < 128 := forall_mem_cons.mpr ⟨digit, proper⟩
  have first := Digits.signed_append (c := 64) rfl (by decide) whole
  rw [cons_append] at first
  rw [first, Digits.signed_append (c := 64) rfl (by decide) proper, Nat.ofDigits_cons, length_cons, pow_succ _ (_ + 1)]
  split_ifs <;> push_cast <;> ring

lemma encodeSLEB128_stored {v : ℤ} (stored : Stored mem stream (encodeSLEB128 v)) :
    LebEnds mem stream (encodeSLEB128 v).length ∧
      Digits.signed 128 (groupsAt mem stream (encodeSLEB128 v).length) = v := by
  induction v using encodeSLEB128.induct generalizing stream with
  | case1 v small =>
    rw [encodeSLEB128, if_pos small] at stored ⊢
    obtain ⟨byte, -⟩ := stored_cons.mp stored
    obtain ⟨group, last⟩ := low_group (n := (v % 128).toNat) (by omega)
    rw [← byte] at group last
    refine ⟨lebEnds_one last, ?_⟩
    have one : Digits.signed 128 ([] ++ [(v % 128).toNat]) = _ := Digits.signed_append (c := 64) rfl (by decide)
      (by simp only [nil_append, mem_singleton, forall_eq]; omega)
    have empty : groupsAt mem (stream + 1) 0 = [] := rfl
    rw [length_singleton, groupsAt_cons, group, empty, ← nil_append [(v % 128).toNat], one, nil_append,
      Nat.ofDigits_singleton]
    have size : 128 ^ (([] : List ℕ).length + 1) = 128 := rfl
    rw [size]
    split_ifs <;> omega
  | case2 v large ih =>
    rw [encodeSLEB128, if_neg large] at stored ⊢
    obtain ⟨byte, rest⟩ := stored_cons.mp stored
    obtain ⟨group, more⟩ := high_group (n := (v % 128).toNat) (by omega)
    rw [← byte] at group more
    obtain ⟨ends, value⟩ := ih rest
    refine ⟨ends.cons more, ?_⟩
    have nonempty : groupsAt mem (stream + 1) (encodeSLEB128 (v / 128)).length ≠ [] := by
      rw [← length_pos_iff, length_groupsAt]
      exact ends.positive
    rw [length_cons, groupsAt_cons, group, signed_cons (by omega) (group_lt mem _ _) nonempty, value]
    omega

lemma length_encodeSLEB128_le (v : ℤ) (n : ℕ) :
    (encodeSLEB128 v).length ≤ n + 1 ↔ -(64 * 128 ^ n) ≤ v ∧ v < 64 * 128 ^ n := by
  induction n generalizing v with
  | zero =>
    rw [encodeSLEB128]
    split
    · simpa using ‹-64 ≤ v ∧ v < 64›
    · rename_i large
      have nonempty : 0 < (encodeSLEB128 (v / 128)).length := by
        rw [encodeSLEB128]
        split <;> exact Nat.succ_pos _
      simp only [length_cons]
      omega
  | succ n ih =>
    have least : (1 : ℤ) ≤ 128 ^ n := one_le_pow₀ (by decide)
    rw [encodeSLEB128, pow_succ]
    split
    · simp only [length_singleton]
      omega
    · rw [length_cons, Nat.add_le_add_iff_right, ih]
      omega

lemma fitsInt_signed_iff {v : ℤ} (stored : Stored mem stream (encodeSLEB128 v)) :
    FitsInt mem stream (encodeSLEB128 v).length ↔ -2 ^ 27 ≤ v ∧ v < 2 ^ 31 := by
  obtain ⟨-, value⟩ := encodeSLEB128_stored stored
  have four := length_encodeSLEB128_le v 3
  have five := length_encodeSLEB128_le v 4
  have low := ofDigits_groupsAt_lt mem stream 4
  generalize (encodeSLEB128 v).length = size at *
  have fifth (same : size = 5) :
      v = if (mem (stream + 4) &&& 0x7f).toNat < 64
        then ((Nat.ofDigits 128 (groupsAt mem stream 4) + 128 ^ 4 * (mem (stream + 4) &&& 0x7f).toNat : ℕ) : ℤ)
        else ((Nat.ofDigits 128 (groupsAt mem stream 4) + 128 ^ 4 * (mem (stream + 4) &&& 0x7f).toNat : ℕ) : ℤ) -
          (128 ^ 5 : ℕ) := by
    subst same
    have proper := group_lt mem stream 5
    rw [groupsAt_succ] at value proper
    rw [Digits.signed_append (c := 64) rfl (by decide) proper, Nat.ofDigits_append, Nat.ofDigits_singleton,
      length_groupsAt] at value
    exact value.symm
  have bits := low_bits (mem (stream + 4))
  rw [FitsInt]
  constructor
  · rintro (short | ⟨same, small⟩)
    · omega
    · have := fifth same
      rw [if_pos (by omega)] at this
      omega
  · intro bounds
    rcases lt_or_ge v (64 * 128 ^ 3) with less | more
    · exact .inl (four.mpr ⟨by omega, less⟩)
    · have same : size = 5 := by omega
      have := fifth same
      refine .inr ⟨same, ?_⟩
      split_ifs at this <;> omega

/-! ## Numbers that do not end, or are too large -/

variable {fuel i : ℕ}

lemma slebLoop_endless (more : ∀ j < 6, mem (stream + j) &&& 0x80 ≠ 0) (rounds : i + fuel = 6)
    (result : BitVec 64) : slebLoop mem fuel (stream + i) result (7 * i) i = none := by
  induction fuel generalizing i result with
  | zero => rfl
  | succ fuel ih =>
    rw [slebLoop, shifted_eq]
    split
    · rw [Option.bind_some, if_pos (more i (by omega))]
      exact ih (i := i + 1) (by omega) _
    · rfl

lemma ulebLoop_endless (more : ∀ j < 6, mem (stream + j) &&& 0x80 ≠ 0) (rounds : i + fuel = 9)
    (few : i ≤ 5) (result : BitVec 64) : ulebLoop mem fuel (stream + i) result (7 * i) i = none := by
  induction fuel generalizing i result with
  | zero => omega
  | succ fuel ih =>
    rw [ulebLoop, if_pos (by omega)]
    dsimp only
    rw [shifted_eq]
    split
    · rw [Option.bind_some, if_neg (more i (by omega))]
      exact ih (i := i + 1) (by omega) (by omega) _
    · rfl

lemma not_fitsInt_of_large (large : 2 ^ 35 ≤ Nat.ofDigits 128 (groupsAt mem stream size)) :
    ¬ FitsInt mem stream size := by
  intro fits
  have bound := ofDigits_groupsAt_lt mem stream size
  have few : 7 * size ≤ 35 := Nat.mul_le_mul_left 7 fits.le
  exact absurd (bound.trans_le (Nat.pow_le_pow_right (by decide) few)) (not_lt.mpr large)

/-! ## The decoders -/

/-- The number in the bytes is larger than 64 bits. -/
def TooLarge (f : Format) (mem : ℕ → BitVec 8) (stream : ℕ) : Prop :=
  ∃ size value, f.NumberAt mem stream size value ∧
    if f.isSigned then ¬ (-2 ^ 63 ≤ value ∧ value < 2 ^ 63) else 2 ^ 64 ≤ value

lemma decodeULEB128_undefined (wrong : Endless mem stream ∨ TooLarge .uleb128 mem stream) :
    decodeULEB128 mem stream = none := by
  rcases wrong with endless | ⟨size, value, ⟨ends, rfl⟩, large⟩
  · rw [decodeULEB128]
    have loop := ulebLoop_endless (fun j _ => endless j) (Nat.zero_add 9) (Nat.zero_le 5) 0
    exact congrArg (Option.map _) loop
  · have many : (2 : ℤ) ^ 64 ≤ (Nat.ofDigits 128 (groupsAt mem stream size) : ℕ) := large
    rw [decodeULEB128_eq ends, if_neg (not_fitsInt_of_large (by omega))]

lemma decodeSLEB128_undefined (wrong : Endless mem stream ∨ TooLarge .sleb128 mem stream) :
    decodeSLEB128 mem stream = none := by
  rcases wrong with endless | ⟨size, value, ⟨ends, rfl⟩, large⟩
  · rw [decodeSLEB128]
    have loop := slebLoop_endless (fun j _ => endless j) (Nat.zero_add 6) 0
    exact congrArg (Option.map _) loop
  · have many : ¬ (-2 ^ 63 ≤ Digits.signed 128 (groupsAt mem stream size) ∧
        Digits.signed 128 (groupsAt mem stream size) < 2 ^ 63) := large
    have bounds := Digits.signed_bounds (by decide : 0 < 128) (groupsAt mem stream size)
    rw [length_groupsAt] at bounds
    rw [decodeSLEB128_eq ends, if_neg]
    intro fits
    have few : 128 ^ size ≤ 128 ^ 5 := Nat.pow_le_pow_right (by decide) fits.le
    exact many (by omega)

/-- The decoders return the numbers whose groups an `int` can hold. The error value is returned for no number that does
not end or is too large. -/
theorem decodeLEB128_iff (mem : ℕ → BitVec 8) (stream : ℕ) :
    (∀ v : BitVec 64, v ≠ ehfUleb128Error → Stored mem stream (encodeULEB128 v.toNat) →
      (decodeULEB128 mem stream = some (v, (encodeULEB128 v.toNat).length) ↔ v.toNat < 2 ^ 31)) ∧
    (∀ v : BitVec 64, v ≠ ehfSleb128Error → Stored mem stream (encodeSLEB128 v.toInt) →
      (decodeSLEB128 mem stream = some (v, (encodeSLEB128 v.toInt).length) ↔ -2 ^ 27 ≤ v.toInt ∧ v.toInt < 2 ^ 31)) ∧
    (Endless mem stream ∨ TooLarge .uleb128 mem stream → decodeULEB128 mem stream ≠ some (ehfUleb128Error, 0)) ∧
    (Endless mem stream ∨ TooLarge .sleb128 mem stream → decodeSLEB128 mem stream ≠ some (ehfSleb128Error, 0)) := by
  refine ⟨fun v _ stored => ?_, fun v _ stored => ?_, fun wrong => ?_, fun wrong => ?_⟩
  · obtain ⟨ends, value⟩ := encodeULEB128_stored stored
    rw [decodeULEB128_eq ends, ← fitsInt_unsigned_iff stored, collected, value, BitVec.ofNat_toNat, BitVec.setWidth_eq]
    split <;> simp_all
  · obtain ⟨ends, value⟩ := encodeSLEB128_stored stored
    rw [decodeSLEB128_eq ends, ← fitsInt_signed_iff stored, value, BitVec.ofInt_toInt]
    split <;> simp_all
  · rw [decodeULEB128_undefined wrong]
    simp
  · rw [decodeSLEB128_undefined wrong]
    simp

/-- The number `300` in front of other bytes. -/
theorem three_hundred_decoded :
    decodeULEB128 (fun i => [0xac, 0x02, 0x7f].getD i 0x80) 0 = some (300, (encodeULEB128 300).length) := by
  have encoded : encodeULEB128 300 = [0xac, 0x02] := by simp [encodeULEB128]
  refine ((decodeLEB128_iff _ 0).1 300 (by decide) ?_).mpr (by decide)
  change Stored _ 0 (encodeULEB128 300)
  rw [encoded]
  decide

/-- `2 ^ 31` is not read back, and bytes that go on for ever are not an error. -/
theorem large_not_decoded :
    Stored (fun i => [0x80, 0x80, 0x80, 0x80, 0x08].getD i 0) 0 (encodeULEB128 (2 ^ 31)) ∧
      decodeULEB128 (fun i => [0x80, 0x80, 0x80, 0x80, 0x08].getD i 0) 0 ≠ some (0x80000000, 5) ∧
      Endless (fun _ => 0x80) 0 ∧ decodeULEB128 (fun _ => 0x80) 0 ≠ some (ehfUleb128Error, 0) ∧
      decodeSLEB128 (fun _ => 0x80) 0 ≠ some (ehfSleb128Error, 0) := by
  have encoded : encodeULEB128 (2 ^ 31) = [0x80, 0x80, 0x80, 0x80, 0x08] := by simp [encodeULEB128]
  refine ⟨?_, by decide, fun _ => (by decide : (0x80 : BitVec 8) &&& 0x80 ≠ 0), by decide, by decide⟩
  rw [encoded]
  decide

end HpcToolkit.Fnbounds
