import HpcToolkit.FlowGraph.InteriorShares

/-! # Interior factors as a distribution

In each round the factors of the groups and those that are assigned already sum to one. The calculation ends with a
distribution exactly if no sibling that is asked for its calls has other values only.
-/

open List hiding getElem?_eq_some_iff

namespace HpcToolkit.FlowGraph

variable {Scope Metric Sibling Key : Type} [LinearOrder Scope] {g : ContextFlowGraph Scope Metric Sibling}
  {d : SiblingData g Key} {hasEC : List Bool} {k i j : ℕ} {group : Group}

/-! ## Rounds -/

section Assign

lemma assign_apply (factors : ℕ → ℚ) (group : Group) (i : ℕ) : assign hasEC factors group i =
    if i ∈ groupMembers hasEC group then group.factor else factors i := by
  rw [assign]
  simp only [mem_groupMembers]

variable {finished : List Group}

lemma foldl_assign (disjoint : (finished.flatMap (groupMembers hasEC)).Nodup) :
    ∀ factors : ℕ → ℚ, (∀ i, i ∉ finished.flatMap (groupMembers hasEC) → finished.foldl (assign hasEC) factors i = factors i) ∧
      ∀ group ∈ finished, ∀ i ∈ groupMembers hasEC group, finished.foldl (assign hasEC) factors i = group.factor := by
  induction finished with
  | nil => exact fun factors => ⟨fun _ _ => rfl, fun group absent => absurd absent not_mem_nil⟩
  | cons first rest ih =>
    intro factors
    rw [flatMap_cons, nodup_append'] at disjoint
    obtain ⟨-, nodup, apart⟩ := disjoint
    obtain ⟨outside, inside⟩ := ih nodup (assign hasEC factors first)
    refine ⟨fun i absent => ?_, fun group member i inner => ?_⟩
    · rw [flatMap_cons, mem_append, not_or] at absent
      rw [foldl_cons, outside i absent.2, assign_apply, if_neg absent.1]
    · rw [foldl_cons]
      rcases mem_cons.mp member with rfl | later
      · rw [outside i fun again => apart inner again, assign_apply, if_pos inner]
      · exact inside group later i inner

lemma sum_assign {factors : ℕ → ℚ} {count : ℕ} {group : Group} (within : ∀ i ∈ groupMembers hasEC group, i < count)
    (unassigned : ∀ i ∈ groupMembers hasEC group, factors i = 0)
    (single : group.factor = 0 ∨ groupMembers hasEC group = [group.first]) :
    ∑ i ∈ Finset.range count, assign hasEC factors group i = ∑ i ∈ Finset.range count, factors i + group.factor := by
  rcases single with none | single
  · rw [none, add_zero]
    refine Finset.sum_congr rfl fun i _ => ?_
    rw [assign_apply]
    split
    · rename_i inner
      rw [none, unassigned i inner]
    · rfl
  · have inner : group.first ∈ groupMembers hasEC group := single ▸ mem_singleton_self _
    have update : assign hasEC factors group = Function.update factors group.first group.factor := by
      funext i
      rw [assign_apply, single, Function.update_apply]
      simp only [mem_singleton]
    have inside : group.first ∈ Finset.range count := Finset.mem_range.mpr (within _ inner)
    rw [update, Finset.sum_update_of_mem inside, add_comm, ← Finset.sum_sdiff (Finset.singleton_subset_iff.mpr inside),
      Finset.sum_singleton, unassigned _ inner, add_zero]

lemma sum_foldl_assign (count : ℕ)
    (disjoint : (finished.flatMap (groupMembers hasEC)).Nodup)
    (within : ∀ group ∈ finished, ∀ i ∈ groupMembers hasEC group, i < count)
    (single : ∀ group ∈ finished, group.factor = 0 ∨ groupMembers hasEC group = [group.first]) :
    ∀ factors : ℕ → ℚ, (∀ group ∈ finished, ∀ i ∈ groupMembers hasEC group, factors i = 0) →
      ∑ i ∈ Finset.range count, finished.foldl (assign hasEC) factors i =
        ∑ i ∈ Finset.range count, factors i + (finished.map Group.factor).sum := by
  induction finished with
  | nil => intro factors _; simp
  | cons first rest ih =>
    intro factors unassigned
    rw [flatMap_cons, nodup_append'] at disjoint
    obtain ⟨-, nodup, apart⟩ := disjoint
    rw [foldl_cons, ih nodup (fun group member => within group (mem_cons_of_mem _ member))
      (fun group member => single group (mem_cons_of_mem _ member)) (assign hasEC factors first) ?_,
      sum_assign (within first mem_cons_self) (unassigned first mem_cons_self)
        (single first mem_cons_self), map_cons, sum_cons, add_assoc]
    intro group member i inner
    have outside : i ∉ groupMembers hasEC first := fun again =>
      apart again (mem_flatMap.mpr ⟨group, member, inner⟩)
    rw [assign_apply, if_neg outside]
    exact unassigned group (mem_cons_of_mem _ member) i inner

end Assign

/-- The state between two rounds. -/
structure RoundInv (d : SiblingData g Key) (hasEC : List Bool) (k : ℕ) (groups : List Group) (factors : ℕ → ℚ) :
    Prop where
  live : ∀ group ∈ groups, Live d hasEC k group
  disjoint : (groups.flatMap (groupMembers hasEC)).Nodup
  complete : ∀ i, Considered d hasEC k i → ∃ group ∈ groups, i ∈ groupMembers hasEC group
  unassigned : ∀ group ∈ groups, ∀ i ∈ groupMembers hasEC group, factors i = 0
  nonneg : ∀ i, 0 ≤ factors i
  impossible : ∀ i, ¬ possible hasEC i → factors i = 0
  weighted : ∀ i, factors i ≠ 0 → Weighted d hasEC 0 i
  total : ∑ i ∈ Finset.range g.templates.length, factors i + (groups.map Group.factor).sum = 1

/-- No lookup of the round finds a sibling with other values only. -/
def Answered (d : SiblingData g Key) (hasEC : List Bool) (k : ℕ) : Prop :=
  ∀ i, Considered d hasEC k i → ∀ s, g.rAtIdx k i = some s → ¬ d.Missing s

variable {A B : Type}

lemma eq_of_shared {l : List A} {f : A → List B} (nodup : (l.flatMap f).Nodup) {a b : A} {x : B}
    (left : a ∈ l) (right : b ∈ l) (inLeft : x ∈ f a) (inRight : x ∈ f b) : a = b := by
  induction l with
  | nil => exact absurd left not_mem_nil
  | cons c l ih =>
    rw [flatMap_cons, nodup_append'] at nodup
    obtain ⟨-, nodup, apart⟩ := nodup
    rcases mem_cons.mp left with rfl | leftTail
    · rcases mem_cons.mp right with rfl | rightTail
      · rfl
      · exact (apart inLeft (mem_flatMap.mpr ⟨b, rightTail, inRight⟩)).elim
    · rcases mem_cons.mp right with rfl | rightTail
      · exact (apart inRight (mem_flatMap.mpr ⟨a, leftTail, inLeft⟩)).elim
      · exact ih nodup leftTail rightTail

lemma sum_map_flatMap (l : List A) (f : A → List B) (value : B → ℚ) :
    ((l.flatMap f).map value).sum = (l.map fun a => ((f a).map value).sum).sum := by
  induction l with
  | nil => rfl
  | cons a l ih => rw [flatMap_cons, map_append, sum_append, ih, map_cons, sum_cons]

lemma sum_filter_split {A : Type} (l : List A) (p : A → Bool) (value : A → ℚ) :
    ((l.filter p).map value).sum + ((l.filter fun a => !p a).map value).sum = (l.map value).sum := by
  have split := ((filter_append_perm p l).map value).sum_eq
  rw [map_append, sum_append] at split
  exact split

section Round

variable {groups : List Group} {factors : ℕ → ℚ} (inv : RoundInv d hasEC k groups factors)

include inv

lemma RoundInv.share_of {share : Group} (member : share ∈ groups.flatMap (shares d hasEC k)) :
    ∃ group ∈ groups, Live d hasEC k group ∧ share ∈ shares d hasEC k group := by
  obtain ⟨group, listed, member⟩ := mem_flatMap.mp member
  exact ⟨group, listed, inv.live group listed, member⟩

lemma RoundInv.next_flat :
    (groups.flatMap (shares d hasEC k)).flatMap (groupMembers hasEC) = groups.flatMap (groupMembers hasEC) := by
  rw [flatMap_assoc]
  exact flatMap_congr fun group member => (inv.live group member).shares_flat

lemma RoundInv.next : RoundInv d hasEC (k + 1)
    ((groups.flatMap (shares d hasEC k)).filter fun group => !finished g k group)
    (((groups.flatMap (shares d hasEC k)).filter (finished g k)).foldl (assign hasEC) factors) := by
  let next := groups.flatMap (shares d hasEC k)
  have nodup : (next.flatMap (groupMembers hasEC)).Nodup := by
    rw [inv.next_flat]
    exact inv.disjoint
  have part : ∀ p : Group → Bool, ((next.filter p).flatMap (groupMembers hasEC)).Sublist
      (next.flatMap (groupMembers hasEC)) := fun p => filter_sublist.flatMap _
  have zero : ∀ share ∈ next, ∀ i ∈ groupMembers hasEC share, factors i = 0 := by
    intro share member i inner
    obtain ⟨group, listed, live, shared⟩ := inv.share_of member
    exact inv.unassigned group listed i ((live.share_members shared).2.2.2.2.2 i inner).1
  obtain ⟨outside, inside⟩ := foldl_assign (nodup.sublist (part (finished g k))) factors
  have cases : ∀ i, ((next.filter (finished g k)).foldl (assign hasEC) factors i = factors i) ∨
      ∃ share ∈ next, i ∈ groupMembers hasEC share ∧
        (next.filter (finished g k)).foldl (assign hasEC) factors i = share.factor := by
    intro i
    by_cases assigned : i ∈ (next.filter (finished g k)).flatMap (groupMembers hasEC)
    · obtain ⟨share, member, inner⟩ := mem_flatMap.mp assigned
      exact Or.inr ⟨share, (mem_filter.mp member).1, inner, inside share member i inner⟩
    · exact Or.inl (outside i assigned)
  refine ⟨?_, nodup.sublist (part _), ?_, ?_, ?_, ?_, ?_, ?_⟩
  · intro share member
    obtain ⟨member, waits⟩ := mem_filter.mp member
    obtain ⟨group, -, live, shared⟩ := inv.share_of member
    exact live.share_live shared (by simpa using waits)
  · intro i considered
    obtain ⟨group, listed, inner⟩ := inv.complete i considered.of_succ
    obtain ⟨share, shared, inner, waits⟩ := (inv.live group listed).share_of_considered inner considered
    exact ⟨share, mem_filter.mpr ⟨mem_flatMap.mpr ⟨group, listed, shared⟩, by simpa using waits⟩, inner⟩
  · intro share member i inner
    obtain ⟨member, waits⟩ := mem_filter.mp member
    rw [outside i ?_]
    · exact zero share member i inner
    · intro again
      obtain ⟨other, listed, also⟩ := mem_flatMap.mp again
      obtain ⟨listed, closed⟩ := mem_filter.mp listed
      rw [eq_of_shared nodup member listed inner also, closed] at waits
      cases waits
  · intro i
    rcases cases i with same | ⟨share, member, -, same⟩
    · exact same ▸ inv.nonneg i
    · obtain ⟨group, -, live, shared⟩ := inv.share_of member
      exact same ▸ (live.share_spec shared).2.1
  · intro i absent
    rw [outside i ?_]
    · exact inv.impossible i absent
    · intro assigned
      obtain ⟨share, -, inner⟩ := mem_flatMap.mp assigned
      exact absent (mem_groupMembers.mp inner).2.2
  · intro i nonzero
    rcases cases i with same | ⟨share, member, inner, same⟩
    · exact inv.weighted i (same ▸ nonzero)
    · obtain ⟨group, listed, live, shared⟩ := inv.share_of member
      rw [same] at nonzero
      have positive : 0 < share.factor := lt_of_le_of_ne (live.share_spec shared).2.1 nonzero.symm
      have weighted := (live.weighted_of_share shared inner).mpr positive
      have considered := live.considered i ((live.share_members shared).2.2.2.2.2 i inner).1
      cases k with
      | zero => exact weighted
      | succ k => exact considered.weighted_zero
  · have sums : (next.map Group.factor).sum = (groups.map Group.factor).sum := by
      rw [sum_map_flatMap]
      exact congrArg sum (map_congr_left fun group listed => (inv.live group listed).sum_shares)
    have assigned : ∑ i ∈ Finset.range g.templates.length,
          (next.filter (finished g k)).foldl (assign hasEC) factors i =
        ∑ i ∈ Finset.range g.templates.length, factors i + ((next.filter (finished g k)).map Group.factor).sum :=
      sum_foldl_assign g.templates.length (nodup.sublist (part (finished g k)))
      (fun share member i inner => by
        obtain ⟨group, -, live, shared⟩ := inv.share_of (mem_filter.mp member).1
        rw [(live.share_members shared).2.2.2.1] at inner
        exact (mem_alike.mp inner).1)
      (fun share member => by
        obtain ⟨member, closed⟩ := mem_filter.mp member
        obtain ⟨group, -, live, shared⟩ := inv.share_of member
        exact live.share_finished shared closed)
      factors (fun share member => zero share (mem_filter.mp member).1)
    have halves := sum_filter_split next (finished g k) Group.factor
    have total := inv.total
    linarith

end Round

section Run

variable [DecidableEq Metric] {metric : Option Metric}

omit [DecidableEq Metric] in
lemma Live.asserts (live : Live d hasEC k group) :
    ¬ (range' group.first (group.last - group.first)).any fun it =>
      possible hasEC it && (g.rAtIdx k it).isNone := by
  intro fails
  obtain ⟨i, member, both⟩ := any_eq_true.mp fails
  rw [Bool.and_eq_true] at both
  rw [mem_range'_1] at member
  have inner : i ∈ groupMembers hasEC group := mem_groupMembers.mpr ⟨member.1, by omega, both.1⟩
  obtain ⟨s, caller⟩ := (live.considered i inner).caller
  rw [caller] at both
  cases both.2

lemma splitGroup_ok (searched : IsSearched d metric) (live : Live d hasEC k group)
    (answered : Answered d hasEC k) : splitGroup d hasEC metric k group = .ok (shares d hasEC k group) := by
  have values : ∀ part ∈ parts hasEC g k group,
      callerValue d metric (g.rAtIdx k part.1) = .ok (callsAt d k part.1) := by
    intro part listed
    have considered := live.considered part.1 (live.parts_spec.2 part listed).2.2
    obtain ⟨s, caller⟩ := considered.caller
    rw [callsAt, caller]
    exact callerValue_eq searched (rAtIdx_mem_siblings caller) (answered part.1 considered s caller)
  have zipped : ∀ l : List (ℕ × ℕ), l.zip (l.map fun part => callsAt d k part.1) =
      l.map fun part => (part, callsAt d k part.1) := by
    intro l
    induction l with
    | nil => rfl
    | cons part l ih => rw [map_cons, zip_cons_cons, ih, map_cons]
  unfold splitGroup
  dsimp only
  rw [if_neg live.asserts]
  change ((parts hasEC g k group).mapM _ >>= _) = _
  rw [mapM_ok values]
  change Except.ok _ = Except.ok _
  rw [shares, ← parts, zipped, map_map]
  rfl

lemma answered_of_split (searched : IsSearched d metric) (live : Live d hasEC k group) {result : List Group}
    (run : splitGroup d hasEC metric k group = .ok result) (inner : i ∈ groupMembers hasEC group) {s : Scope}
    (caller : g.rAtIdx k i = some s) : ¬ d.Missing s := by
  intro missing
  unfold splitGroup at run
  dsimp only at run
  rw [if_neg live.asserts] at run
  change ((parts hasEC g k group).mapM _ >>= _) = _ at run
  obtain ⟨flat, classes⟩ := live.parts_spec
  rw [← flat] at inner
  obtain ⟨part, listed, inside⟩ := mem_flatMap.mp inner
  have same := (classes part listed).1.one i inside
  cases values : (parts hasEC g k group).mapM fun part => callerValue d metric (g.rAtIdx k part.1) with
  | error failure => rw [values] at run; cases run
  | ok vs =>
    obtain ⟨v, value⟩ := ok_of_mapM values part listed
    rw [← same, caller, callerValue_error searched (rAtIdx_mem_siblings caller) missing] at value
    cases value

lemma rounds_cons (fuel : ℕ) {groups : List Group} (factors : ℕ → ℚ) (some : groups ≠ []) :
    rounds d hasEC metric (fuel + 1) k groups factors = (do
      let next ← groups.mapM (splitGroup d hasEC metric k)
      rounds d hasEC metric fuel (k + 1) (next.flatten.filter fun group => !finished g k group)
        ((next.flatten.filter (finished g k)).foldl (assign hasEC) factors)) := by
  cases groups with
  | nil => exact absurd rfl some
  | cons first rest => rfl

lemma rounds_ok (searched : IsSearched d metric) (answered : ∀ k, Answered d hasEC k) (rest : ℕ) :
    ∀ k groups factors, RoundInv d hasEC k groups factors → (∀ i, (g.rpathAt i).length ≤ k + rest) →
      ∃ result l, (∀ fuel, rest ≤ fuel → rounds d hasEC metric fuel k groups factors = .ok result) ∧
        RoundInv d hasEC l [] result := by
  induction rest with
  | zero =>
    intro k groups factors inv short
    cases groups with
    | nil => exact ⟨factors, k, fun fuel _ => by rw [rounds], inv⟩
    | cons first rest =>
      have live := inv.live first mem_cons_self
      obtain ⟨i, inner⟩ := live.nonempty
      exact absurd (live.considered i inner).longer (Nat.not_lt.mpr (short i))
  | succ rest ih =>
    intro k groups factors inv short
    by_cases none : groups = []
    · subst none
      exact ⟨factors, k, fun fuel _ => by rw [rounds], inv⟩
    obtain ⟨result, l, run, final⟩ := ih (k + 1) _ _ inv.next (fun i => (short i).trans (by omega))
    refine ⟨result, l, fun fuel enough => ?_, final⟩
    obtain ⟨fuel, rfl⟩ : ∃ more, fuel = more + 1 := ⟨fuel - 1, by omega⟩
    rw [rounds_cons fuel factors none,
      mapM_ok fun group member => splitGroup_ok searched (inv.live group member) (answered k)]
    change rounds d hasEC metric fuel (k + 1) ((groups.map _).flatten.filter _) _ = _
    rw [← flatMap_def]
    exact run fuel (by omega)

lemma answered_of_rounds (searched : IsSearched d metric) (fuel : ℕ) : ∀ k groups factors result,
    RoundInv d hasEC k groups factors → rounds d hasEC metric fuel k groups factors = .ok result →
      ∀ l, k ≤ l → Answered d hasEC l := by
  induction fuel with
  | zero =>
    intro k groups factors result inv run l later i considered
    cases groups with
    | nil =>
      obtain ⟨group, absent, -⟩ := inv.complete i (considered.mono later)
      exact absurd absent not_mem_nil
    | cons first rest => rw [rounds] at run; cases run
  | succ fuel ih =>
    intro k groups factors result inv run l later
    by_cases none : groups = []
    · subst none
      intro i considered
      obtain ⟨group, absent, -⟩ := inv.complete i (considered.mono later)
      exact absurd absent not_mem_nil
    rw [rounds_cons fuel factors none] at run
    cases split : groups.mapM (splitGroup d hasEC metric k) with
    | error failure => rw [split] at run; cases run
    | ok next =>
      have answered : Answered d hasEC k := by
        intro i considered s caller
        obtain ⟨group, member, inner⟩ := inv.complete i considered
        obtain ⟨parts, ok⟩ := ok_of_mapM split group member
        exact answered_of_split searched (inv.live group member) ok inner caller
      rcases Nat.eq_or_lt_of_le later with rfl | later
      · exact answered
      · rw [mapM_ok fun group member => splitGroup_ok searched (inv.live group member) answered] at run
        change rounds d hasEC metric fuel (k + 1) ((groups.map _).flatten.filter _) _ = _ at run
        rw [← flatMap_def] at run
        exact ih (k + 1) _ _ result inv.next run l later

end Run

/-! ## The distribution -/

variable (g hasEC) in
/-- The templates that are entered at all. -/
def entered : List ℕ :=
  (range g.templates.length).filter (possible hasEC)

lemma mem_entered (sizes : hasEC.length = g.templates.length) : i ∈ entered g hasEC ↔ possible hasEC i := by
  rw [entered, mem_filter, mem_range]
  refine ⟨And.right, fun here => ⟨?_, here⟩⟩
  by_contra outside
  rw [possible, getD_eq_getElem?_getD, getElem?_eq_none (by omega)] at here
  cases here

lemma alike_zero : alike g hasEC 0 i = entered g hasEC := by
  simp [alike, entered]

lemma Considered.entered (considered : Considered d hasEC k i) :
    ∃ a ∈ entered g hasEC, ∃ b ∈ entered g hasEC, a ≠ b := by
  obtain ⟨self, j, other, differ⟩ := considered.mono (Nat.zero_le k)
  rw [alike_zero] at self other
  exact ⟨j, other, i, self, differ⟩

lemma answered_of_single {a : ℕ} (single : ∀ i ∈ entered g hasEC, i = a) (k : ℕ) : Answered d hasEC k := by
  intro i considered
  obtain ⟨b, left, c, right, differ⟩ := considered.entered
  exact absurd ((single b left).trans (single c right).symm) differ

section
variable (sizes : hasEC.length = g.templates.length)
include sizes

lemma isDistribution_single {a : ℕ}
    (single : entered g hasEC = [a]) : IsDistribution d hasEC ((replicate g.templates.length 0).set a 1) := by
  have only : ∀ i, possible hasEC i ↔ i = a := fun i => by rw [← mem_entered sizes, single, mem_singleton]
  have inside : a < g.templates.length := by
    have member : a ∈ entered g hasEC := single ▸ mem_singleton_self a
    exact mem_range.mp (mem_filter.mp member).1
  have elsewhere : ∀ i, i ≠ a → ((replicate g.templates.length (0 : ℚ)).set a 1).getD i 0 = 0 := by
    intro i differ
    rw [getD_eq_getElem?_getD, getElem?_set_ne differ.symm, getElem?_replicate]
    split <;> rfl
  refine ⟨by simp, fun factor member => ?_, fun i absent => elsewhere i (mt (only i).mpr absent), ?_, fun _ => ?_⟩
  · rcases mem_or_eq_of_mem_set member with zero | rfl
    · exact (eq_of_mem_replicate zero).ge
    · exact zero_le_one
  · intro i j here zero nonzero
    apply elsewhere i
    rintro rfl
    exact nonzero ((only j).mp here ▸ zero)
  · rw [sum_set]
    simp [inside]

lemma isDistribution_none (none : entered g hasEC = []) :
    IsDistribution d hasEC (replicate g.templates.length 0) := by
  have never : ∀ i, ¬ possible hasEC i := fun i here =>
    not_mem_nil (none ▸ (mem_entered sizes).mpr here)
  refine ⟨length_replicate, fun factor member => (eq_of_mem_replicate member).ge, fun i _ => ?_,
    fun _ j here => absurd here (never j), fun ⟨i, here⟩ => absurd here (never i)⟩
  rw [getD_eq_getElem?_getD, getElem?_replicate]
  split <;> rfl

lemma RoundInv.isDistribution {result : ℕ → ℚ}
    (inv : RoundInv d hasEC k [] result) : IsDistribution d hasEC ((range g.templates.length).map result) := by
  have getD : ∀ i, result i = 0 → ((range g.templates.length).map result).getD i 0 = 0 := by
    intro i zero
    rw [getD_eq_getElem?_getD, getElem?_map]
    cases at_i : (range g.templates.length)[i]? with
    | none => rfl
    | some j =>
      obtain ⟨inside, rfl⟩ := List.getElem?_eq_some_iff.mp at_i
      simpa using zero
  refine ⟨by simp, fun factor member => ?_, fun i absent => getD i (inv.impossible i absent), ?_, fun _ => ?_⟩
  · obtain ⟨i, -, rfl⟩ := mem_map.mp member
    exact inv.nonneg i
  · intro i j here zero nonzero
    apply getD i
    by_contra assigned
    rcases inv.weighted i assigned with weight | none
    · exact weight zero
    · apply nonzero (none j _)
      rw [alike_zero]
      exact (mem_entered sizes).mpr here
  · have total := inv.total
    rw [map_nil, sum_nil, add_zero] at total
    exact total

end

lemma roundInv_initial {a b : ℕ} (left : a ∈ entered g hasEC) (right : b ∈ entered g hasEC) (differ : a ≠ b) :
    RoundInv d hasEC 0 [⟨0, g.templates.length, 1⟩] fun _ => 0 := by
  have all : groupMembers hasEC ⟨0, g.templates.length, 1⟩ = entered g hasEC := by
    rw [groupMembers, members, entered, range_eq_range']
    rfl
  have considered : ∀ i ∈ entered g hasEC, Considered d hasEC 0 i := by
    intro i member
    rw [Considered, alike_zero]
    rcases eq_or_ne a i with rfl | other
    · exact ⟨member, b, right, differ.symm⟩
    · exact ⟨member, a, left, other⟩
  refine ⟨fun group member => ?_, ?_, fun i asked => ?_, fun _ _ _ _ => rfl, fun _ => le_rfl, fun _ _ => rfl,
    fun _ nonzero => absurd rfl nonzero, by simp⟩
  · obtain rfl := mem_singleton.mp member
    refine ⟨zero_lt_one, ⟨a, all ▸ left⟩, fun i inner => considered i (all ▸ inner), fun i _ => ?_⟩
    rw [all, alike_zero]
  · rw [flatMap_singleton]
    exact members_nodup _
  · have member := asked.self
    rw [alike_zero] at member
    exact ⟨_, mem_singleton_self _, all ▸ member⟩

lemma exists_longest (g : ContextFlowGraph Scope Metric Sibling) : ∃ bound, ∀ i, (g.rpathAt i).length ≤ bound := by
  refine ⟨(g.templates.map fun t => t.rpath.length).sum, fun i => ?_⟩
  rw [ContextFlowGraph.rpathAt]
  cases at_i : g.templates[i]? with
  | none => exact Nat.zero_le _
  | some t => exact le_sum_of_mem (mem_map.mpr ⟨t, mem_of_getElem? at_i, rfl⟩)

/-- The interior factors are a distribution if and only if every sibling whose calls are asked for has the interior
metric, no values at all, or no sibling has that metric. -/
theorem interior_factors_iff [DecidableEq Metric] (d : SiblingData g Key) (hasEC : List Bool)
    (sizes : hasEC.length = g.templates.length) : Distributed d hasEC ↔ ∀ k, Answered d hasEC k := by
  by_cases one : g.templates.length = 1
  · have single : ∀ i ∈ entered g hasEC, i = 0 := by
      intro i member
      have inside := mem_range.mp (mem_filter.mp member).1
      omega
    refine ⟨fun _ => answered_of_single single, fun _ => ⟨0, [if possible hasEC 0 then 1 else 0], fun fuel _ => ?_, ?_⟩⟩
    · rw [interiorFactors, if_pos one]
    · by_cases here : possible hasEC 0
      · have alone : entered g hasEC = [0] := by simp [entered, one, here]
        simpa [one, here] using isDistribution_single (d := d) sizes alone
      · have none : entered g hasEC = [] := by simp [entered, one, here]
        simpa [one, here] using isDistribution_none (d := d) sizes none
  · unfold Distributed
    cases several : entered g hasEC with
    | nil =>
      have run : ∀ fuel, interiorFactors d hasEC fuel = .ok (replicate g.templates.length 0) := by
        intro fuel
        rw [interiorFactors, if_neg one, ← entered, several]
      simp only [run]
      have single : ∀ i ∈ entered g hasEC, i = 0 := fun i member => absurd (several ▸ member) not_mem_nil
      exact ⟨fun _ => answered_of_single single, fun _ => ⟨0, _, fun _ _ => rfl, isDistribution_none sizes several⟩⟩
    | cons a rest =>
      cases rest with
      | nil =>
        have run : ∀ fuel, interiorFactors d hasEC fuel = .ok ((replicate g.templates.length 0).set a 1) := by
          intro fuel
          rw [interiorFactors, if_neg one, ← entered, several]
        simp only [run]
        have single : ∀ i ∈ entered g hasEC, i = a := fun i member => mem_singleton.mp (several ▸ member)
        exact ⟨fun _ => answered_of_single single, fun _ => ⟨0, _, fun _ _ => rfl, isDistribution_single sizes several⟩⟩
      | cons b rest =>
        have run : ∀ fuel, interiorFactors d hasEC fuel = (do
            let metric ← metricInterior d
            let factors ← rounds d hasEC metric fuel 0 [⟨0, g.templates.length, 1⟩] fun _ => 0
            return (range g.templates.length).map factors) := by
          intro fuel
          rw [interiorFactors, if_neg one, ← entered, several]
        simp only [run]
        have nodup : (a :: b :: rest).Nodup := several ▸ nodup_range.filter _
        have differ : a ≠ b := fun same => (nodup_cons.mp nodup).1 (same ▸ mem_cons_self)
        have initial : RoundInv d hasEC 0 [⟨0, g.templates.length, 1⟩] fun _ => 0 :=
          roundInv_initial (several ▸ mem_cons_self) (several ▸ mem_cons_of_mem _ mem_cons_self) differ
        obtain ⟨metric, searched, -⟩ := metricInterior_spec d
        rw [searched]
        constructor
        · rintro ⟨bound, factors, returns, -⟩ l
          specialize returns bound le_rfl
          cases ended : rounds d hasEC metric bound 0 [⟨0, g.templates.length, 1⟩] (fun _ => 0) with
          | error failure =>
            change (rounds d hasEC metric bound 0 [⟨0, g.templates.length, 1⟩] (fun _ => 0) >>= _) = _ at returns
            rw [ended] at returns
            cases returns
          | ok result => exact answered_of_rounds searched bound 0 _ _ result initial ended l (Nat.zero_le l)
        · intro answered
          obtain ⟨bound, long⟩ : ∃ bound, ∀ i, (g.rpathAt i).length ≤ bound := exists_longest g
          obtain ⟨result, l, ended, final⟩ := rounds_ok searched answered bound 0 _ _ initial fun i =>
            (long i).trans (by omega)
          refine ⟨bound, _, fun fuel enough => ?_, final.isDistribution sizes⟩
          change (rounds d hasEC metric fuel 0 [⟨0, g.templates.length, 1⟩] (fun _ => 0) >>= _) = _
          rw [ended fuel enough]
          rfl

/-- A function with two callers. -/
def twoCallers : ContextFlowGraph ℕ String ℕ where
  scope := 1
  templates := [⟨10, [3]⟩, ⟨11, [4]⟩]
  handler := structFileHandler
  entries := [10, 11]
  siblings := [(3, 3), (4, 4)]
  sorted := pairwise_pair.mpr (by decide)
  no_suffix := pairwise_pair.mpr (by decide)
  entries_nodup := by decide
  mem_entries := by simp [eq_comm]
  siblings_nodup := by decide
  mem_siblings := by simp
  not_recursive := by decide

def executed : MetricValues String where
  cells := [("GINS", 1)]
  distinct := nodup_singleton _
  nonneg := by simp

def onlyStalled : MetricValues String where
  cells := [("GINS:STL_ANY", 1)]
  distinct := nodup_singleton _
  nonneg := by simp

/-- One call instruction has been executed, the other one has stalls only. -/
def stalledCaller : SiblingData twoCallers ℕ :=
  twoCallers.siblingData fun s => if s = 3 then some executed else some onlyStalled

theorem stalledCaller_iff : Distributed stalledCaller [true, true] ↔ ∀ k, Answered stalledCaller [true, true] k :=
  interior_factors_iff stalledCaller [true, true] rfl

/-- `at` throws for the call instruction that has stalls only. -/
theorem stalledCaller_not_distributed : ¬ Distributed stalledCaller [true, true] := by
  rintro ⟨bound, factors, returns, -⟩
  have throws : interiorFactors stalledCaller [true, true] (bound + 1) = .error .lookup := by rfl
  rw [returns (bound + 1) (Nat.le_succ bound)] at throws
  cases throws

end HpcToolkit.FlowGraph
