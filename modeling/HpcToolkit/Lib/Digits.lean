import Mathlib.Data.Nat.Digits.Defs
import Mathlib.Tactic.Common
import Mathlib.Tactic.Ring

/-! # Signed numbers from digits

A number of some digits in an even base, of which the upper half of the numbers is negative.
-/

open List

namespace HpcToolkit.Lib.Digits

variable {b c d k : ℕ} {digits low : List ℕ}

/-- The digits as a number in complement form, the least one first. -/
def signed (b : ℕ) (digits : List ℕ) : ℤ := ((Nat.ofDigits b digits : ℕ) : ℤ).bmod (b ^ digits.length)

lemma ofDigits_append_lt_iff (even : b = 2 * c) (proper : ∀ x ∈ low, x < b) (positive : 0 < c) :
    2 * Nat.ofDigits b (low ++ [d]) < b ^ (low.length + 1) ↔ d < c := by
  have bound := Nat.ofDigits_lt_base_pow_length (by omega) proper
  have whole : Nat.ofDigits b (low ++ [d]) = Nat.ofDigits b low + b ^ low.length * d := by
    rw [Nat.ofDigits_append, Nat.ofDigits_singleton]
  rw [whole, pow_succ]
  generalize b ^ low.length = m at bound
  have twice : m * b = 2 * (m * c) := by rw [even]; ring
  constructor
  · intro less
    by_contra above
    have scaled := Nat.mul_le_mul_left m (not_lt.mp above)
    omega
  · intro less
    have scaled := Nat.mul_le_mul_left m (Nat.succ_le_of_lt less)
    rw [Nat.mul_succ] at scaled
    omega

lemma signed_append (even : b = 2 * c) (positive : 0 < c) (proper : ∀ x ∈ low ++ [d], x < b) :
    signed b (low ++ [d]) = if d < c then ((Nat.ofDigits b (low ++ [d]) : ℕ) : ℤ)
      else ((Nat.ofDigits b (low ++ [d]) : ℕ) : ℤ) - (b ^ (low.length + 1) : ℕ) := by
  have bound := Nat.ofDigits_lt_base_pow_length (by omega) proper
  have half := ofDigits_append_lt_iff (d := d) even (fun x member => proper x (mem_append_left _ member)) positive
  have divisible : 2 ∣ b ^ (low.length + 1) := Dvd.dvd.pow ⟨c, even⟩ (Nat.succ_ne_zero _)
  rw [length_append, length_singleton] at bound
  rw [signed, length_append, length_singleton, Int.bmod_def]
  generalize Nat.ofDigits b (low ++ [d]) = u at bound half ⊢
  generalize b ^ (low.length + 1) = m at bound half divisible ⊢
  have same : (u : ℤ) % m = u := Int.emod_eq_of_lt (by omega) (by omega)
  rw [same]
  split_ifs <;> omega

lemma signed_bounds (positive : 0 < b) (digits : List ℕ) :
    -(b ^ digits.length : ℕ) ≤ 2 * signed b digits ∧ 2 * signed b digits ≤ (b ^ digits.length : ℕ) := by
  have modulus := Nat.pow_pos (n := digits.length) positive
  have lower := Int.le_bmod (x := (Nat.ofDigits b digits : ℕ)) modulus
  have upper := Int.bmod_lt (x := (Nat.ofDigits b digits : ℕ)) modulus
  rw [signed]
  omega

lemma ofDigits_replicate_pred (positive : 0 < b) (k : ℕ) : Nat.ofDigits b (replicate k (b - 1)) = b ^ k - 1 := by
  induction k with
  | zero => rfl
  | succ k ih =>
    rw [replicate_succ, Nat.ofDigits_cons, ih, Nat.mul_sub, ← pow_succ', mul_one]
    have := Nat.one_le_pow k b positive
    have := Nat.le_mul_of_pos_left b this
    rw [pow_succ]
    omega

end HpcToolkit.Lib.Digits
