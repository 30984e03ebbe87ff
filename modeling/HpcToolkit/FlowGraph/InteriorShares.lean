import HpcToolkit.FlowGraph.InteriorGroups

/-! # Shares of a group

A group stands for the templates with a common suffix as long as there are several of them and the suffix has a
factor, and these are the templates whose next callers are asked for. Its factor is shared out among the classes with
one more caller.
-/

open List

namespace HpcToolkit.FlowGraph

variable {Scope Metric Sibling Key : Type} [LinearOrder Scope] {g : ContextFlowGraph Scope Metric Sibling}

def groupMembers (hasEC : List Bool) (group : Group) : List ℕ :=
  members (possible hasEC) (group.first, group.last)

section Spec

variable (d : SiblingData g Key) (hasEC : List Bool)

/-- The calls of the next caller of a template. -/
def callsAt (k i : ℕ) : ℚ :=
  (g.rAtIdx k i).elim 0 d.calls

/-- The next caller has calls, or no alternative to it has. -/
def Weighted (k i : ℕ) : Prop :=
  callsAt d k i ≠ 0 ∨ ∀ j ∈ alike g hasEC k i, callsAt d k j = 0

/-- The next caller of the template is asked for: it is one of several possible templates with its last callers, and
all of these callers have a share. -/
def Considered : ℕ → ℕ → Prop
  | 0, i => i ∈ alike g hasEC 0 i ∧ ∃ j ∈ alike g hasEC 0 i, j ≠ i
  | k + 1, i => Considered k i ∧ Weighted d hasEC k i ∧ ∃ j ∈ alike g hasEC (k + 1) i, j ≠ i

/-- The factors are a distribution among the possible templates. Templates whose last caller has no calls have no
share where another one has calls. -/
structure IsDistribution (factors : List ℚ) : Prop where
  size : factors.length = g.templates.length
  nonneg : ∀ factor ∈ factors, 0 ≤ factor
  impossible : ∀ i, ¬ possible hasEC i → factors.getD i 0 = 0
  uncalled : ∀ i j, possible hasEC j → callsAt d 0 i = 0 → callsAt d 0 j ≠ 0 → factors.getD i 0 = 0
  total : (∃ i, possible hasEC i) → factors.sum = 1

/-- With enough fuel the calculation returns a distribution. -/
def Distributed [DecidableEq Metric] : Prop :=
  ∃ bound factors, (∀ fuel, bound ≤ fuel → interiorFactors d hasEC fuel = .ok factors) ∧
    IsDistribution d hasEC factors

def parts (g : ContextFlowGraph Scope Metric Sibling) (k : ℕ) (group : Group) : List (ℕ × ℕ) :=
  subGroups (g.rAtIdx k) (possible hasEC) none (range' group.first (group.last - group.first))

def totalCalls (k : ℕ) (group : Group) : ℚ :=
  ((parts hasEC g k group).map fun part => callsAt d k part.1).sum

/-- The groups that a group is split into. -/
def shares (k : ℕ) (group : Group) : List Group :=
  (parts hasEC g k group).map fun part =>
    { first := part.1
      last := part.2
      factor := if 0 < totalCalls d hasEC k group
        then group.factor * callsAt d k part.1 / totalCalls d hasEC k group
        else group.factor / (parts hasEC g k group).length }

/-- A group at the start of a round. -/
structure Live (k : ℕ) (group : Group) : Prop where
  positive : 0 < group.factor
  nonempty : ∃ i, i ∈ groupMembers hasEC group
  considered : ∀ i ∈ groupMembers hasEC group, Considered d hasEC k i
  whole : ∀ i ∈ groupMembers hasEC group, alike g hasEC k i = groupMembers hasEC group

end Spec

variable {d : SiblingData g Key} {hasEC : List Bool} {k i j : ℕ} {group : Group}

lemma mem_groupMembers : i ∈ groupMembers hasEC group ↔ group.first ≤ i ∧ i < group.last ∧ possible hasEC i :=
  mem_members

lemma callsAt_nonneg (d : SiblingData g Key) (k i : ℕ) : 0 ≤ callsAt d k i := by
  rw [callsAt]
  cases g.rAtIdx k i with
  | none => exact le_rfl
  | some s => exact d.calls_nonneg s

lemma totalCalls_nonneg : 0 ≤ totalCalls d hasEC k group := by
  apply sum_nonneg
  intro v member
  obtain ⟨part, -, rfl⟩ := mem_map.mp member
  exact callsAt_nonneg d k part.1

lemma Considered.of_succ (considered : Considered d hasEC (k + 1) i) : Considered d hasEC k i :=
  considered.1

lemma Considered.mono {l : ℕ} (considered : Considered d hasEC l i) (le : k ≤ l) : Considered d hasEC k i := by
  induction l with
  | zero => rwa [Nat.le_zero.mp le]
  | succ l ih =>
    rcases Nat.of_le_succ le with earlier | rfl
    · exact ih considered.of_succ earlier
    · exact considered

lemma Considered.self (considered : Considered d hasEC k i) : i ∈ alike g hasEC k i := by
  have start := considered.mono (Nat.zero_le k)
  obtain ⟨inside, here, -⟩ := mem_alike.mp start.1
  exact mem_alike.mpr ⟨inside, here, rfl⟩

lemma Considered.other (considered : Considered d hasEC k i) : ∃ j ∈ alike g hasEC k i, j ≠ i := by
  cases k with
  | zero => exact considered.2
  | succ k => exact considered.2.2

lemma Considered.weighted_zero (considered : Considered d hasEC (k + 1) i) : Weighted d hasEC 0 i :=
  (considered.mono (Nat.succ_le_succ (Nat.zero_le k))).2.1

lemma Considered.longer (considered : Considered d hasEC k i) : k < (g.rpathAt i).length := by
  obtain ⟨j, member, differ⟩ := considered.other
  obtain ⟨left, -, -⟩ := mem_alike.mp considered.self
  obtain ⟨right, -, common⟩ := mem_alike.mp member
  exact longer_of_common left right differ.symm common.symm

lemma Considered.caller (considered : Considered d hasEC k i) : ∃ s, g.rAtIdx k i = some s :=
  ⟨_, getElem?_eq_getElem considered.longer⟩

namespace Live

variable (live : Live d hasEC k group)

include live

lemma callers {c : ℕ} (member : c ∈ groupMembers hasEC group) :
    ∀ m ∈ alike g hasEC k c, (g.rAtIdx k m).isSome := by
  intro m alike
  rw [live.whole c member] at alike
  obtain ⟨s, caller⟩ := (live.considered m alike).caller
  rw [caller]
  rfl

lemma parts_spec : (parts hasEC g k group).flatMap (members (possible hasEC)) = groupMembers hasEC group ∧
    ∀ part ∈ parts hasEC g k group, IsPart (g.rAtIdx k) (possible hasEC) part ∧
      members (possible hasEC) part = alike g hasEC (k + 1) part.1 ∧ part.1 ∈ groupMembers hasEC group := by
  obtain ⟨c, member⟩ := live.nonempty
  have spec := FlowGraph.parts_spec (group.first, group.last) (live.whole c member).symm (live.callers member)
  rw [live.whole c member] at spec
  exact spec

lemma totalCalls_eq_zero_iff : totalCalls d hasEC k group = 0 ↔ ∀ i ∈ groupMembers hasEC group, callsAt d k i = 0 := by
  obtain ⟨flat, classes⟩ := live.parts_spec
  have values : ∀ v ∈ (parts hasEC g k group).map (fun part => callsAt d k part.1), 0 ≤ v := by
    intro v member
    obtain ⟨part, -, rfl⟩ := mem_map.mp member
    exact callsAt_nonneg d k part.1
  constructor
  · intro none i member
    rw [← flat] at member
    obtain ⟨part, listed, inside⟩ := mem_flatMap.mp member
    have same := (classes part listed).1.one i inside
    rw [callsAt, same]
    exact all_zero_of_le_zero_le_of_sum_eq_zero values none (mem_map.mpr ⟨part, listed, rfl⟩)
  · intro zero
    apply sum_eq_zero
    intro v member
    obtain ⟨part, listed, rfl⟩ := mem_map.mp member
    exact zero part.1 (classes part listed).2.2

lemma parts_ne_nil : parts hasEC g k group ≠ [] := by
  intro empty
  obtain ⟨c, member⟩ := live.nonempty
  rw [← live.parts_spec.1, empty] at member
  exact absurd member not_mem_nil

lemma sum_shares : ((shares d hasEC k group).map Group.factor).sum = group.factor := by
  rw [shares, map_map]
  change ((parts hasEC g k group).map fun part => if 0 < totalCalls d hasEC k group
    then group.factor * callsAt d k part.1 / totalCalls d hasEC k group
    else group.factor / (parts hasEC g k group).length).sum = group.factor
  by_cases some : 0 < totalCalls d hasEC k group
  · simp only [if_pos some, mul_div_assoc]
    rw [sum_map_mul_left]
    have ones : ((parts hasEC g k group).map fun part => callsAt d k part.1 / totalCalls d hasEC k group).sum = 1 := by
      simp only [div_eq_mul_inv]
      rw [sum_map_mul_right]
      exact mul_inv_cancel₀ some.ne'
    rw [ones, mul_one]
  · simp only [if_neg some, map_const', sum_replicate, nsmul_eq_mul]
    have several : ((parts hasEC g k group).length : ℚ) ≠ 0 :=
      Nat.cast_ne_zero.mpr (length_pos_iff.mpr live.parts_ne_nil).ne'
    exact mul_div_cancel₀ _ several

variable {share : Group}

lemma share_spec (member : share ∈ shares d hasEC k group) :
    (share.first, share.last) ∈ parts hasEC g k group ∧ 0 ≤ share.factor ∧
      (0 < share.factor ↔ Weighted d hasEC k share.first) := by
  obtain ⟨part, listed, rfl⟩ := mem_map.mp member
  have inside := (live.parts_spec.2 part listed).2.2
  have several : 0 < ((parts hasEC g k group).length : ℚ) :=
    Nat.cast_pos.mpr (length_pos_iff.mpr live.parts_ne_nil)
  refine ⟨listed, ?_⟩
  rw [Weighted, live.whole part.1 inside, ← live.totalCalls_eq_zero_iff]
  dsimp only
  by_cases some : 0 < totalCalls d hasEC k group
  · rw [if_pos some]
    refine ⟨div_nonneg (mul_nonneg live.positive.le (callsAt_nonneg d k part.1)) some.le, ?_⟩
    rw [div_pos_iff_of_pos_right some, mul_pos_iff_of_pos_left live.positive, or_iff_left some.ne']
    exact (callsAt_nonneg d k part.1).lt_iff_ne'
  · rw [if_neg some]
    have none : totalCalls d hasEC k group = 0 := le_antisymm (not_lt.mp some) totalCalls_nonneg
    have positive := div_pos live.positive several
    exact ⟨positive.le, fun _ => Or.inr none, fun _ => positive⟩

lemma share_members (member : share ∈ shares d hasEC k group) :
    share.first < share.last ∧ possible hasEC share.first ∧ possible hasEC (share.last - 1) ∧
      groupMembers hasEC share = alike g hasEC (k + 1) share.first ∧ share.first ∈ groupMembers hasEC group ∧
      ∀ i ∈ groupMembers hasEC share, i ∈ groupMembers hasEC group ∧ g.rAtIdx k i = g.rAtIdx k share.first := by
  obtain ⟨flat, classes⟩ := live.parts_spec
  obtain ⟨listed, -⟩ := live.share_spec member
  obtain ⟨isPart, whole, inside⟩ := classes _ listed
  refine ⟨isPart.nonempty, isPart.first, isPart.last, whole, inside, fun i inner => ⟨?_, isPart.one i inner⟩⟩
  rw [← flat]
  exact mem_flatMap.mpr ⟨_, listed, inner⟩

lemma shares_flat : (shares d hasEC k group).flatMap (groupMembers hasEC) = groupMembers hasEC group := by
  rw [← live.parts_spec.1, shares, flatMap_map]
  rfl

section
variable (member : share ∈ shares d hasEC k group)
include member

lemma weighted_of_share
    (inner : i ∈ groupMembers hasEC share) : Weighted d hasEC k i ↔ 0 < share.factor := by
  obtain ⟨-, -, -, -, inside, all⟩ := live.share_members member
  obtain ⟨within, same⟩ := all i inner
  rw [(live.share_spec member).2.2, Weighted, Weighted, live.whole i within, live.whole _ inside, callsAt, callsAt, same]

lemma share_live (open_ : ¬ finished g k share) :
    Live d hasEC (k + 1) share := by
  obtain ⟨ordered, first, last, whole, inside, all⟩ := live.share_members member
  obtain ⟨-, nonneg, -⟩ := live.share_spec member
  rw [finished, Bool.or_eq_true, Bool.or_eq_true, decide_eq_true_iff, decide_eq_true_iff, decide_eq_true_iff,
    not_or, not_or] at open_
  obtain ⟨⟨factor, -⟩, several⟩ := open_
  have positive : 0 < share.factor := lt_of_le_of_ne nonneg (Ne.symm factor)
  have start : share.first ∈ groupMembers hasEC share := mem_groupMembers.mpr ⟨le_rfl, ordered, first⟩
  have stop : share.last - 1 ∈ groupMembers hasEC share := mem_groupMembers.mpr ⟨by omega, by omega, last⟩
  have same : ∀ i ∈ groupMembers hasEC share, alike g hasEC (k + 1) i = groupMembers hasEC share := by
    intro i inner
    rw [whole] at inner
    exact (alike_congr inner).trans whole.symm
  refine ⟨positive, ⟨_, start⟩, fun i inner => ?_, same⟩
  refine ⟨live.considered i (all i inner).1, (live.weighted_of_share member inner).mpr positive, ?_⟩
  rw [same i inner]
  rcases eq_or_ne i share.first with rfl | other
  · exact ⟨_, stop, by omega⟩
  · exact ⟨_, start, other.symm⟩

lemma share_finished (closed : finished g k share) :
    share.factor = 0 ∨ groupMembers hasEC share = [share.first] := by
  obtain ⟨ordered, first, last, whole, inside, all⟩ := live.share_members member
  rw [finished, Bool.or_eq_true, Bool.or_eq_true, decide_eq_true_iff, decide_eq_true_iff, decide_eq_true_iff] at closed
  have start : share.first ∈ groupMembers hasEC share := mem_groupMembers.mpr ⟨le_rfl, ordered, first⟩
  have alone : (∀ i ∈ groupMembers hasEC share, i = share.first) → groupMembers hasEC share = [share.first] := by
    intro same
    exact perm_singleton.mp ((perm_ext_iff_of_nodup (members_nodup _) (nodup_singleton _)).mpr fun i =>
      ⟨fun inner => mem_singleton.mpr (same i inner), fun single => (mem_singleton.mp single).symm ▸ start⟩)
  rcases closed with (factor | short) | one
  · exact Or.inl factor
  · refine Or.inr (alone fun i inner => ?_)
    by_contra differ
    rw [whole] at inner
    obtain ⟨left, -, common⟩ := mem_alike.mp inner
    obtain ⟨right, -, -⟩ := mem_alike.mp (whole ▸ start)
    have longer := longer_of_common right left (Ne.symm differ) common.symm
    omega
  · refine Or.inr (alone fun i inner => ?_)
    obtain ⟨lower, upper, -⟩ := mem_groupMembers.mp inner
    omega

end

lemma share_of_considered (inner : i ∈ groupMembers hasEC group) (considered : Considered d hasEC (k + 1) i) :
    ∃ share ∈ shares d hasEC k group, i ∈ groupMembers hasEC share ∧ ¬ finished g k share := by
  rw [← live.shares_flat] at inner
  obtain ⟨share, member, inner⟩ := mem_flatMap.mp inner
  refine ⟨share, member, inner, fun closed => ?_⟩
  obtain ⟨-, -, -, whole, -, -⟩ := live.share_members member
  have positive := (live.weighted_of_share member inner).mp considered.2.1
  rcases live.share_finished member closed with factor | single
  · exact absurd factor positive.ne'
  · obtain ⟨j, other, differ⟩ := considered.other
    have same : alike g hasEC (k + 1) i = groupMembers hasEC share := (alike_congr (whole ▸ inner)).trans whole.symm
    rw [same, single, mem_singleton] at other
    rw [single, mem_singleton] at inner
    exact differ (other.trans inner.symm)

end Live

end HpcToolkit.FlowGraph
