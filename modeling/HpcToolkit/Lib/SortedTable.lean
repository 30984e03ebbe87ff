import Mathlib

/-! # Sorted tables

The equal neighbours of a sorted array are removed in place, and a place where a property ends is found by halving.
-/

open List

namespace HpcToolkit.Lib.SortedTable

/-! ## Equal neighbours -/

section Compaction

variable {α : Type} [DecidableEq α] [Inhabited α]

/-- The entry at `i` is moved behind the last one that stays, unless it is the same. -/
def compactRound (s : List α × ℕ) (i : ℕ) : List α × ℕ :=
  if s.1.getD s.2 default ≠ s.1.getD i default then (s.1.set (s.2 + 1) (s.1.getD i default), s.2 + 1) else s

/-- The array when the entries below `n` have been looked at, and the place of the last one that stays. -/
def compact (entries : List α) (n : ℕ) : List α × ℕ := (range' 1 (n - 1)).foldl compactRound (entries, 0)

variable [LE α] [LT α] [Std.IsLinearOrder α] [Std.LawfulOrderLT α]

/-- After the entry at `k` the entries that stay are increasing, and are those up to `k`. -/
structure Compacted (entries : List α) (k : ℕ) (s : List α × ℕ) : Prop where
  length : s.1.length = entries.length
  behind : s.2 ≤ k
  increasing : ∀ a b, a < b → b ≤ s.2 → s.1.getD a default < s.1.getD b default
  found : ∀ j ≤ k, ∃ a ≤ s.2, s.1.getD a default = entries.getD j default
  kept : ∀ a ≤ s.2, ∃ j ≤ k, s.1.getD a default = entries.getD j default
  ahead : ∀ j, k < j → s.1.getD j default = entries.getD j default
  last : s.1.getD s.2 default = entries.getD k default

variable {entries : List α} {k n : ℕ} {s : List α × ℕ}

section
omit [DecidableEq α] [LE α] [LT α] [Std.IsLinearOrder α] [Std.LawfulOrderLT α]

lemma getD_set_self {i : ℕ} (bound : i < entries.length) (x : α) : (entries.set i x).getD i default = x := by
  simp [getD_eq_getElem?_getD, bound]

lemma getD_set_of_ne {i j : ℕ} (apart : i ≠ j) (x : α) :
    (entries.set i x).getD j default = entries.getD j default := by
  simp [getD_eq_getElem?_getD, apart]

end

omit [DecidableEq α] [LE α] [Std.IsLinearOrder α] [Std.LawfulOrderLT α] in
lemma Compacted.start (entries : List α) : Compacted entries 0 (entries, 0) where
  length := rfl
  behind := le_rfl
  increasing a _ less most := absurd (less.trans_le most) (Nat.not_lt_zero a)
  found j least := ⟨j, least, rfl⟩
  kept a least := ⟨a, least, rfl⟩
  ahead _ _ := rfl
  last := rfl

lemma Compacted.round (compacted : Compacted entries k s) (sorted : entries.getD k default ≤ entries.getD (k + 1) default)
    (bound : k + 1 < entries.length) : Compacted entries (k + 1) (compactRound s (k + 1)) := by
  have next : s.1.getD (k + 1) default = entries.getD (k + 1) default := compacted.ahead _ (Nat.lt_succ_self k)
  have behind := compacted.behind
  rw [compactRound, next, compacted.last]
  split
  · rename_i differs
    have inside : s.2 + 1 < s.1.length := by
      rw [compacted.length]
      omega
    have self := getD_set_self inside (entries.getD (k + 1) default)
    have others (a : ℕ) (apart : s.2 + 1 ≠ a) :
        (s.1.set (s.2 + 1) (entries.getD (k + 1) default)).getD a default = s.1.getD a default := getD_set_of_ne apart _
    refine ⟨(length_set ..).trans compacted.length, Nat.succ_le_succ behind, ?_, ?_, ?_, ?_, self⟩
    · intro a b less most
      rcases Nat.lt_or_eq_of_le most with before | rfl
      · rw [others a (by omega), others b (by omega)]
        exact compacted.increasing a b less (Nat.le_of_lt_succ before)
      · rw [others a (by omega), self]
        refine Std.lt_of_le_of_lt ?_ (Std.lt_of_le_of_ne sorted differs)
        rw [← compacted.last]
        rcases Nat.lt_or_eq_of_le (Nat.le_of_lt_succ less) with before | rfl
        · exact Std.le_of_lt (compacted.increasing a s.2 before le_rfl)
        · exact Std.le_refl _
    · intro j least
      rcases Nat.lt_or_eq_of_le least with before | rfl
      · obtain ⟨a, most, same⟩ := compacted.found j (Nat.le_of_lt_succ before)
        exact ⟨a, Nat.le_succ_of_le most, (others a (by omega)).trans same⟩
      · exact ⟨s.2 + 1, le_rfl, self⟩
    · intro a most
      rcases Nat.lt_or_eq_of_le most with before | rfl
      · obtain ⟨j, least, same⟩ := compacted.kept a (Nat.le_of_lt_succ before)
        exact ⟨j, Nat.le_succ_of_le least, (others a (by omega)).trans same⟩
      · exact ⟨k + 1, le_rfl, self⟩
    · intro j after
      exact (others j (by omega)).trans (compacted.ahead j (by omega))
  · rename_i same
    have equal := not_not.mp same
    refine ⟨compacted.length, Nat.le_succ_of_le behind, compacted.increasing, ?_, ?_, ?_, compacted.last.trans equal⟩
    · intro j least
      rcases Nat.lt_or_eq_of_le least with before | rfl
      · exact compacted.found j (Nat.le_of_lt_succ before)
      · exact ⟨s.2, le_rfl, compacted.last.trans equal⟩
    · intro a most
      obtain ⟨j, least, entry⟩ := compacted.kept a most
      exact ⟨j, Nat.le_succ_of_le least, entry⟩
    · exact fun j after => compacted.ahead j (by omega)

lemma compacted_of_sorted (sorted : ∀ j, j + 1 < n → entries.getD j default ≤ entries.getD (j + 1) default)
    (bound : n ≤ entries.length) (rounds : k < n) :
    Compacted entries k ((range' 1 k).foldl compactRound (entries, 0)) := by
  induction k with
  | zero => exact .start entries
  | succ k ih =>
    rw [range'_concat, foldl_append, one_mul, Nat.add_comm 1 k]
    exact (ih (Nat.lt_of_succ_lt rounds)).round (sorted k rounds) (rounds.trans_le bound)

lemma compact_spec (sorted : (entries.take n).Pairwise (· ≤ ·)) (bound : n ≤ entries.length) (positive : 0 < n) :
    ((compact entries n).1.take ((compact entries n).2 + 1)).Pairwise (· < ·) ∧
      (∀ x, x ∈ (compact entries n).1.take ((compact entries n).2 + 1) ↔ x ∈ entries.take n) ∧
      (compact entries n).2 < (compact entries n).1.length := by
  have ascending (j : ℕ) (inside : j + 1 < n) : entries.getD j default ≤ entries.getD (j + 1) default := by
    have := pairwise_iff_getElem.mp sorted j (j + 1) (by simp; omega) (by simp; omega) (Nat.lt_succ_self j)
    rwa [getElem_take, getElem_take, ← getD_eq_getElem _ default, ← getD_eq_getElem _ default] at this
  have compacted : Compacted entries (n - 1) (compact entries n) := compacted_of_sorted ascending bound (by omega)
  generalize compact entries n = s at compacted ⊢
  have behind := compacted.behind
  have inside : s.2 < s.1.length := by
    rw [compacted.length]
    omega
  refine ⟨?_, fun x => ?_, inside⟩
  · rw [pairwise_iff_getElem]
    intro a b first second less
    rw [length_take] at first second
    rw [getElem_take, getElem_take, ← getD_eq_getElem _ default, ← getD_eq_getElem _ default]
    exact compacted.increasing a b less (by omega)
  · rw [mem_take_iff_getElem, mem_take_iff_getElem]
    constructor
    · rintro ⟨a, place, rfl⟩
      obtain ⟨j, least, same⟩ := compacted.kept a (by omega)
      refine ⟨j, by omega, ?_⟩
      rw [← getD_eq_getElem _ default, ← getD_eq_getElem _ default, same]
    · rintro ⟨j, place, rfl⟩
      obtain ⟨a, most, same⟩ := compacted.found j (by omega)
      refine ⟨a, by omega, ?_⟩
      rw [← getD_eq_getElem _ default, ← getD_eq_getElem _ default, same]

end Compaction

/-! ## Halving -/

/-- The place is moved to the half at the end of which the property does not hold, until there is nothing between. -/
def bisect (p : ℕ → Bool) : ℕ → ℕ → ℕ → ℕ → Option ℕ
  | 0, _, _, _ => none
  | fuel + 1, lo, high, mid =>
    if lo ≠ mid then
      if p mid then bisect p fuel mid high ((mid + high) / 2) else bisect p fuel lo mid ((lo + mid) / 2)
    else some lo

lemma bisect_spec {p : ℕ → Bool} (fuel lo high : ℕ) (less : lo < high) (first : p lo) (last : ¬ p high)
    (enough : high - lo ≤ fuel) :
    ∃ r, bisect p fuel lo high ((lo + high) / 2) = some r ∧ lo ≤ r ∧ r < high ∧ p r ∧ ¬ p (r + 1) := by
  induction fuel generalizing lo high with
  | zero => omega
  | succ fuel ih =>
    rw [bisect]
    split
    · rename_i apart
      split
      · rename_i holds
        obtain ⟨r, found, least, most, facts⟩ := ih ((lo + high) / 2) high (by omega) holds last (by omega)
        exact ⟨r, found, by omega, most, facts⟩
      · rename_i fails
        obtain ⟨r, found, least, most, facts⟩ := ih lo ((lo + high) / 2) (by omega) first fails (by omega)
        exact ⟨r, found, least, by omega, facts⟩
    · rename_i same
      have next : high = lo + 1 := by omega
      exact ⟨lo, rfl, le_rfl, less, first, next ▸ last⟩

end HpcToolkit.Lib.SortedTable
