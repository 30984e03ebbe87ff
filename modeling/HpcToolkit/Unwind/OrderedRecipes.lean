import HpcToolkit.Unwind.RecipeMap

/-! # What the skip list operations do while the intervals lie one behind the other

As long as the stored intervals are nonempty and disjoint, a search by address finds the interval around the address, the
bulk deletions take out what they are meant for, and the layers of the skip list make no difference.
-/

namespace HpcToolkit.Unwind

open Lib

def Interval.Contains (interval : Interval) (address : Nat) : Prop :=
  interval.start ≤ address ∧ address < interval.stop

instance (interval : Interval) (address : Nat) : Decidable (interval.Contains address) :=
  inferInstanceAs (Decidable (_ ∧ _))

/-- The keys of the skip list ascend. -/
def StartSorted (stored : RecipeList) : Prop :=
  stored.Pairwise fun a b => a.interval.start < b.interval.start

/-- One of the two intervals ends before the other starts. -/
def Apart (a b : Interval) : Prop :=
  a.stop ≤ b.start ∨ b.stop ≤ a.start

instance (a b : Interval) : Decidable (Apart a b) :=
  inferInstanceAs (Decidable (_ ∨ _))

/-- Nonempty intervals below the right sentinel, each behind the one before it. -/
structure Ordered (stored : RecipeList) : Prop where
  apart : stored.Pairwise fun a b => a.interval.stop ≤ b.interval.start
  proper : ∀ pair ∈ stored, pair.interval.start < pair.interval.stop ∧ pair.interval.stop ≤ uintptrMax

variable {stored : RecipeList} {pair other key : Pair} {address lo hi : Nat}

variable {lhs rhs : Interval}

lemma intervalCmp_lt_iff : intervalCmp lhs rhs = .lt ↔ lhs.start < rhs.start := by
  unfold intervalCmp
  split_ifs <;> simp_all

lemma intervalCmp_eq_iff : intervalCmp lhs rhs = .eq ↔ lhs.start = rhs.start := by
  unfold intervalCmp
  split_ifs <;> simp_all
  omega

lemma intervalCmp_gt_iff : intervalCmp lhs rhs = .gt ↔ rhs.start < lhs.start := by
  unfold intervalCmp
  split_ifs <;> simp_all <;> omega

section Inrange

variable {interval : Interval} (address : Nat) (below : interval.start < uintptrMax)
include below

lemma intervalInrange_eq_of_below : intervalInrange interval address =
    if address < interval.start then .gt else if address < interval.stop then .eq else .lt := by
  rw [intervalInrange, if_neg (fun boundary => below.ne boundary.2)]

lemma intervalInrange_eq_iff : intervalInrange interval address = .eq ↔ interval.Contains address := by
  rw [intervalInrange_eq_of_below address below, Interval.Contains]
  split_ifs <;> simp <;> omega

lemma intervalInrange_gt_iff : intervalInrange interval address = .gt ↔ address < interval.start := by
  rw [intervalInrange_eq_of_below address below]
  split_ifs <;> simp <;> omega

lemma intervalInrange_lt_iff :
    intervalInrange interval address = .lt ↔ interval.start ≤ address ∧ interval.stop ≤ address := by
  rw [intervalInrange_eq_of_below address below]
  split_ifs <;> simp <;> omega

end Inrange

section Keys

variable (sorted : StartSorted stored)
include sorted

lemma StartSorted.graded : Graded (pairCmp · key) stored := by
  apply sorted.imp
  intro a b behind
  rcases Nat.lt_or_ge a.interval.start key.interval.start with before | after
  · exact .inl (intervalCmp_lt_iff.mpr before)
  · exact .inr (intervalCmp_gt_iff.mpr (by omega))

lemma StartSorted.eq_of_start (there : pair ∈ stored) (otherThere : other ∈ stored)
    (same : pair.interval.start = other.interval.start) : pair = other := by
  by_contra ne
  have distinct : stored.Pairwise fun a b => a.interval.start ≠ b.interval.start := sorted.imp fun behind => behind.ne
  have symmetric : Std.Symm fun a b : Pair => a.interval.start ≠ b.interval.start := ⟨fun _ _ => Ne.symm⟩
  exact distinct.forall there otherThere ne same

lemma mem_cmpDelBulk :
    pair ∈ cmpDelBulk key stored ↔ pair ∈ stored ∧ pair.interval.start ≠ key.interval.start := by
  rw [cmpDelBulk, mem_splice sorted.graded sorted.graded]
  simp only [pairCmp, ne_eq, intervalCmp_lt_iff, intervalCmp_gt_iff]
  apply and_congr_right
  intro _
  omega

lemma StartSorted.cmpDelBulk : StartSorted (cmpDelBulk key stored) :=
  List.Pairwise.sublist splice_sublist sorted

lemma csklInsert_present (there : other ∈ stored) (same : other.interval.start = pair.interval.start) :
    csklInsert pair stored = some (other, stored) := by
  have found : seek (pairCmp · pair) stored = some other :=
    seek_of_mem sorted.graded there (intervalCmp_eq_iff.mpr same)
  rw [csklInsert, found]

omit sorted in
lemma csklInsert_absent (absent : ∀ other ∈ stored, other.interval.start ≠ pair.interval.start) :
    csklInsert pair stored =
      if pair.interval.start = uintptrMax then none else some (pair, place (pairCmp · pair) pair stored) := by
  have missed : seek (pairCmp · pair) stored = none := by
    rw [Option.eq_none_iff_forall_ne_some]
    intro other found
    obtain ⟨there, matched⟩ := seek_sound found
    exact absent other there (intervalCmp_eq_iff.mp matched)
  rw [csklInsert, missed]

lemma csklInsert_cases {stored' : RecipeList} (inserted : csklInsert pair stored = some (other, stored')) :
    (other ∈ stored ∧ other.interval.start = pair.interval.start ∧ stored' = stored) ∨
      (∀ old ∈ stored, old.interval.start ≠ pair.interval.start) ∧ pair.interval.start ≠ uintptrMax ∧
        other = pair ∧ stored' = Lib.place (pairCmp · pair) pair stored := by
  rcases em (∃ old ∈ stored, old.interval.start = pair.interval.start) with ⟨old, there, same⟩ | absent
  · rw [csklInsert_present sorted there same] at inserted
    obtain ⟨rfl, rfl⟩ := Prod.mk.inj (Option.some.inj inserted)
    exact .inl ⟨there, same, rfl⟩
  · have fresh : ∀ old ∈ stored, old.interval.start ≠ pair.interval.start :=
      fun old there same => absent ⟨old, there, same⟩
    rw [csklInsert_absent fresh] at inserted
    split_ifs at inserted with boundary
    obtain ⟨rfl, rfl⟩ := Prod.mk.inj (Option.some.inj inserted)
    exact .inr ⟨fresh, boundary, rfl, rfl⟩

lemma StartSorted.place (absent : ∀ other ∈ stored, other.interval.start ≠ pair.interval.start) :
    StartSorted (place (pairCmp · pair) pair stored) := by
  apply pairwise_place sorted
  · intro other _ before
    exact intervalCmp_lt_iff.mp before
  · intro other behind
    obtain ⟨there, notBefore⟩ := (mem_dropWhile_of_graded sorted.graded).mp behind
    have ge : ¬ other.interval.start < pair.interval.start := fun before => notBefore (intervalCmp_lt_iff.mpr before)
    have ne := absent other there
    omega

end Keys

namespace Ordered

variable (ordered : Ordered stored)
include ordered

lemma below (there : pair ∈ stored) : pair.interval.start < uintptrMax := by
  have proper := ordered.proper pair there
  omega

lemma startSorted : StartSorted stored := by
  apply ordered.apart.imp_of_mem
  intro a b there _ behind
  have proper := ordered.proper a there
  omega

lemma sublist {fewer : RecipeList} (sub : fewer.Sublist stored) : Ordered fewer :=
  ⟨ordered.apart.sublist sub, fun pair there => ordered.proper pair (sub.mem there)⟩

lemma apart_of_ne (there : pair ∈ stored) (otherThere : other ∈ stored) (ne : pair ≠ other) :
    Apart pair.interval other.interval := by
  have symmetric : Std.Symm fun a b : Pair => Apart a.interval b.interval := ⟨fun _ _ => Or.symm⟩
  have all : stored.Pairwise fun a b => Apart a.interval b.interval := ordered.apart.imp Or.inl
  exact all.forall there otherThere ne

lemma graded_inrange : Graded (pairInrange · address) stored := by
  apply ordered.apart.imp_of_mem
  intro a b aThere bThere behind
  have proper := ordered.proper a aThere
  rcases Nat.lt_or_ge address b.interval.start with before | after
  · exact .inr ((intervalInrange_gt_iff address (ordered.below bThere)).mpr before)
  · exact .inl ((intervalInrange_lt_iff address (ordered.below aThere)).mpr (by omega))

lemma csklInrangeFind_eq_some_iff :
    csklInrangeFind address stored = some pair ↔ pair ∈ stored ∧ pair.interval.Contains address := by
  rw [csklInrangeFind, seek_eq_some_iff ordered.graded_inrange]
  apply and_congr_right
  intro there
  exact intervalInrange_eq_iff address (ordered.below there)

/-- The search from the top layer down finds what a scan of the stored pairs finds. -/
theorem csklInrangeFind_layers {layers : Nat} (towers : List (Tower Pair)) (some_layer : 0 < layers)
    (linked : ∀ tower ∈ towers, 0 < tower.height) (bottom : towers.map Tower.value = stored) :
    seekLayers (pairInrange · address) layers towers = csklInrangeFind address stored := by
  subst bottom
  exact seekLayers_eq some_layer linked ordered.graded_inrange

omit ordered in
theorem upper_layer_finds :
    seekLayers (pairInrange · 25) 2 [⟨pairInit 0 .ready none 10 20, 1⟩, ⟨pairInit 1 .ready none 20 30, 2⟩] =
      csklInrangeFind 25 [pairInit 0 .ready none 10 20, pairInit 1 .ready none 20 30] :=
  csklInrangeFind_layers ⟨by decide, by decide⟩ _ (by decide) (by decide) rfl

lemma mem_inrangeDelBulk (upward : lo ≤ hi) :
    pair ∈ inrangeDelBulk lo hi stored ↔
      pair ∈ stored ∧ (pair.interval.stop ≤ lo ∨ hi < pair.interval.start) := by
  rw [inrangeDelBulk, mem_splice ordered.graded_inrange ordered.graded_inrange]
  apply and_congr_right
  intro there
  have proper := ordered.proper pair there
  have before := intervalInrange_lt_iff lo (ordered.below there)
  have behind := intervalInrange_gt_iff hi (ordered.below there)
  simp only [pairInrange, ne_eq, before, behind]
  omega

lemma place (proper : pair.interval.start < pair.interval.stop ∧ pair.interval.stop ≤ uintptrMax)
    (away : ∀ other ∈ stored, Apart pair.interval other.interval) :
    Ordered (place (pairCmp · pair) pair stored) := by
  constructor
  · apply pairwise_place ordered.apart
    · intro other there before
      have ahead := intervalCmp_lt_iff.mp before
      have off := away other there
      have otherProper := ordered.proper other there
      rw [Apart] at off
      omega
    · intro other behind
      obtain ⟨there, notBefore⟩ := (mem_dropWhile_of_graded ordered.startSorted.graded).mp behind
      have ge : ¬ other.interval.start < pair.interval.start := fun before => notBefore (intervalCmp_lt_iff.mpr before)
      have off := away other there
      have otherProper := ordered.proper other there
      rw [Apart] at off
      omega
  · intro other there
    rcases mem_place.mp there with rfl | there
    · exact proper
    · exact ordered.proper other there

lemma csklInsert (proper : pair.interval.start < pair.interval.stop ∧ pair.interval.stop ≤ uintptrMax)
    (away : ∀ other ∈ stored, Apart pair.interval other.interval) :
    csklInsert pair stored = some (pair, Lib.place (pairCmp · pair) pair stored) := by
  have absent : ∀ other ∈ stored, other.interval.start ≠ pair.interval.start := by
    intro other there same
    have otherProper := ordered.proper other there
    have off := away other there
    rw [Apart] at off
    omega
  rw [csklInsert_absent absent, if_neg (by omega)]

end Ordered

end HpcToolkit.Unwind
