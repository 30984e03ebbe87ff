import Mathlib.Data.Finset.Card
import Mathlib.Data.Finset.Dedup
import Mathlib.Data.List.TakeWhile

/-! # Recently used keys

The keys of a sequence of uses, each at the place of its last use.
-/

open List

namespace HpcToolkit.Lib.RecentKeys

variable {K : Type*} [DecidableEq K] {past : List K} {k : K} {n : ℕ}

/-- The distinct keys of some uses, of which the last one comes first. -/
def recency : List K → List K
  | [] => []
  | k :: past => k :: (recency past).erase k

/-- The key is among the `n` distinct keys that were used last: there are fewer others since its last use. -/
def Recent (n : ℕ) (past : List K) (k : K) : Prop := k ∈ past ∧ (past.takeWhile (· ≠ k)).toFinset.card < n

instance (n : ℕ) (past : List K) (k : K) : Decidable (Recent n past k) := inferInstanceAs (Decidable (_ ∧ _))

lemma nodup_recency (past : List K) : (recency past).Nodup := by
  induction past with
  | nil => exact .nil
  | cons k past ih => exact nodup_cons.mpr ⟨ih.not_mem_erase, ih.erase k⟩

lemma mem_recency : k ∈ recency past ↔ k ∈ past := by
  induction past with
  | nil => rfl
  | cons first past ih =>
    rw [recency, mem_cons, mem_cons, (nodup_recency past).mem_erase_iff, ih]
    tauto

lemma takeWhile_erase {first : K} (differ : first ≠ k) (l : List K) :
    (l.erase first).takeWhile (· ≠ k) = (l.takeWhile (· ≠ k)).erase first := by
  induction l with
  | nil => rfl
  | cons a l ih =>
    rcases eq_or_ne a first with rfl | other
    · rw [erase_cons_head, takeWhile_cons_of_pos (by simpa using differ), erase_cons_head]
    · rw [erase_cons_tail (by simpa using other)]
      rcases eq_or_ne a k with rfl | differ'
      · simp
      · rw [takeWhile_cons_of_pos (by simpa using differ'), takeWhile_cons_of_pos (by simpa using differ'),
          erase_cons_tail (by simpa using other), ih]

lemma toFinset_takeWhile_recency (past : List K) (k : K) :
    ((recency past).takeWhile (· ≠ k)).toFinset = (past.takeWhile (· ≠ k)).toFinset := by
  induction past with
  | nil => rfl
  | cons first past ih =>
    rw [recency]
    rcases eq_or_ne first k with rfl | differ
    · simp
    · have distinct := (nodup_recency past).sublist (takeWhile_sublist (· ≠ k))
      rw [takeWhile_cons_of_pos (by simpa using differ), takeWhile_cons_of_pos (by simpa using differ),
        takeWhile_erase differ, toFinset_cons, toFinset_cons, ← ih]
      ext x
      simp only [Finset.mem_insert, mem_toFinset, distinct.mem_erase_iff]
      tauto

lemma mem_take_iff (l : List K) (n : ℕ) : k ∈ l.take n ↔ k ∈ l ∧ (l.takeWhile (· ≠ k)).length < n := by
  induction l generalizing n with
  | nil => simp
  | cons a l ih =>
    cases n with
    | zero => simp
    | succ n =>
      rcases eq_or_ne a k with rfl | differ
      · simp
      · rw [take_succ_cons, mem_cons, ih, takeWhile_cons_of_pos (by simpa using differ)]
        simp [differ.symm]

lemma recent_iff : Recent n past k ↔ k ∈ (recency past).take n := by
  have distinct := (nodup_recency past).sublist (takeWhile_sublist (· ≠ k))
  rw [Recent, mem_take_iff, mem_recency, ← toFinset_takeWhile_recency, toFinset_card_of_nodup distinct]

lemma take_recency_of_not_recent (positive : 0 < n) (absent : ¬ Recent n past k) :
    (recency (k :: past)).take n = k :: ((recency past).take n).take (n - 1) := by
  obtain ⟨n, rfl⟩ := Nat.exists_eq_add_one_of_ne_zero (Nat.ne_of_gt positive)
  rw [recent_iff] at absent
  have parts := take_append_drop (n + 1) (recency past)
  have erased : (recency past).erase k = (recency past).take (n + 1) ++ ((recency past).drop (n + 1)).erase k := by
    rw [← erase_append_right _ absent, parts]
  rw [recency, take_succ_cons, erased, take_append, Nat.add_sub_cancel, cons_inj_right,
    append_right_eq_self]
  rcases le_or_gt (recency past).length n with short | long
  · rw [drop_eq_nil_of_le (by omega), erase_nil, take_nil]
  · rw [length_take, Nat.sub_eq_zero_of_le (by omega), take_zero]

lemma recency_cons_head {others : List K} (first : recency past = k :: others) :
    recency (k :: past) = recency past := by
  rw [recency, first, erase_cons_head]

lemma recency_of_one_key (used : k ∈ past) (only : ∀ k' ∈ past, k' = k) : recency past = [k] := by
  have distinct := nodup_recency past
  have same : ∀ k' ∈ recency past, k' = k := fun k' member => only k' (mem_recency.mp member)
  cases list : recency past with
  | nil => exact absurd (mem_recency.mpr used) (list ▸ not_mem_nil)
  | cons first others =>
    rw [list] at distinct same
    obtain rfl := same first mem_cons_self
    refine congrArg (first :: ·) (eq_nil_iff_forall_not_mem.mpr fun k' member => ?_)
    rw [same k' (mem_cons_of_mem first member)] at member
    exact (nodup_cons.mp distinct).1 member

end HpcToolkit.Lib.RecentKeys
