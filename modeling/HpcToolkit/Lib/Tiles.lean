import Mathlib

/-! # Ranges that tile an interval

Ranges are half open. They tile an interval if each one starts where the one before it ends; then every number of the
interval lies in exactly one of them.
-/

open List

namespace HpcToolkit.Lib

def Tiles : List (ℕ × ℕ) → ℕ → ℕ → Prop
  | [], a, b => a = b
  | r :: ranges, a, b => r.1 = a ∧ a ≤ r.2 ∧ Tiles ranges r.2 b

/-- The number lies in the range. -/
def covers (c : ℕ) (r : ℕ × ℕ) : Bool := r.1 ≤ c && c < r.2

namespace Tiles

variable {ranges ranges' : List (ℕ × ℕ)} {a b c : ℕ}

section
variable (tiles : Tiles ranges a b)
include tiles

lemma le : a ≤ b := by
  induction ranges generalizing a with
  | nil => exact tiles.le
  | cons r ranges ih => exact tiles.2.1.trans (ih tiles.2.2)

lemma append (more : Tiles ranges' b c) : Tiles (ranges ++ ranges') a c := by
  induction ranges generalizing a with
  | nil =>
    obtain rfl : a = b := tiles
    exact more
  | cons r ranges ih => exact ⟨tiles.1, tiles.2.1, ih tiles.2.2⟩

lemma snoc (le : b ≤ c) : Tiles (ranges ++ [(b, c)]) a c :=
  tiles.append ⟨rfl, le, rfl⟩

lemma flatMap {f : ℕ × ℕ → List (ℕ × ℕ)}
    (each : ∀ r ∈ ranges, r.1 ≤ r.2 → Tiles (f r) r.1 r.2) : Tiles (ranges.flatMap f) a b := by
  induction ranges generalizing a with
  | nil => exact tiles
  | cons r ranges ih =>
    obtain ⟨rfl, le, rest⟩ := tiles
    rw [flatMap_cons]
    exact (each r mem_cons_self le).append (ih rest fun r member => each r (mem_cons_of_mem _ member))

lemma countP (c : ℕ) : ranges.countP (covers c) = if a ≤ c ∧ c < b then 1 else 0 := by
  induction ranges generalizing a with
  | nil =>
    obtain rfl : a = b := tiles
    rw [countP_nil, if_neg (by omega)]
  | cons r ranges ih =>
    obtain ⟨rfl, le, rest⟩ := tiles
    have above := rest.le
    rw [countP_cons, ih rest]
    simp only [covers, Bool.and_eq_true, decide_eq_true_eq]
    split_ifs <;> omega

end

lemma of_cuts {cut : ℕ → ℕ} {n : ℕ} (ordered : ∀ i < n, cut i ≤ cut (i + 1)) :
    Tiles ((range n).map fun i => (cut i, cut (i + 1))) (cut 0) (cut n) := by
  induction n with
  | zero => exact rfl
  | succ n ih =>
    rw [range_succ, map_append, map_singleton]
    exact (ih fun i less => ordered i (Nat.lt_succ_of_lt less)).snoc (ordered n (Nat.lt_succ_self n))

end Tiles

end HpcToolkit.Lib

/-! # Id spaces one behind the other

A counter gives every member of a list a base and moves on by the member's stride. The ids of a member are at some
offsets from its base.
-/

namespace HpcToolkit.Lib.IdSpaces

variable {M : Type*} {stride : M → ℕ} {offsets : M → List ℕ} {base : ℕ} {ms ms' : List M}

/-- The numbers that the members take up. -/
def space (stride : M → ℕ) (ms : List M) : ℕ := (ms.map stride).sum

/-- The ids of all members, from the first base on. -/
def ids (stride : M → ℕ) (offsets : M → List ℕ) : ℕ → List M → List ℕ
  | _, [] => []
  | base, m :: ms => (offsets m).map (base + ·) ++ ids stride offsets (base + stride m) ms

@[simp] lemma space_cons (m : M) : space stride (m :: ms) = stride m + space stride ms := by simp [space]

@[simp] lemma space_replicate (n : ℕ) (m : M) : space stride (replicate n m) = n * stride m := by simp [space]

lemma ids_append :
    ids stride offsets base (ms ++ ms') = ids stride offsets base ms ++ ids stride offsets (base + space stride ms) ms' := by
  induction ms generalizing base with
  | nil => simp [ids, space]
  | cons m ms ih => simp [ids, ih, Nat.add_assoc]

lemma mem_ids (within : ∀ m, ∀ o ∈ offsets m, o < stride m) {id : ℕ} (member : id ∈ ids stride offsets base ms) :
    base ≤ id ∧ id < base + space stride ms := by
  induction ms generalizing base with
  | nil => exact absurd member not_mem_nil
  | cons m ms ih =>
    rw [space_cons]
    rcases mem_append.mp member with own | later
    · obtain ⟨o, offset, rfl⟩ := mem_map.mp own
      have below := within m o offset
      omega
    · have bounds := ih later
      omega

lemma nodup_ids (within : ∀ m, ∀ o ∈ offsets m, o < stride m) (distinct : ∀ m, (offsets m).Nodup) :
    (ids stride offsets base ms).Nodup := by
  induction ms generalizing base with
  | nil => exact .nil
  | cons m ms ih =>
    refine nodup_append'.mpr ⟨(distinct m).map fun o o' => Nat.add_left_cancel, ih, ?_⟩
    intro id own later
    obtain ⟨o, offset, rfl⟩ := mem_map.mp own
    have below := within m o offset
    have above := (mem_ids within later).1
    omega

end HpcToolkit.Lib.IdSpaces
