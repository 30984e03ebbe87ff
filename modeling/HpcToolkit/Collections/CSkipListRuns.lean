import HpcToolkit.Collections.CSkipListInsert
import HpcToolkit.Collections.CSkipListDelete

/-! # Runs of skip list operations

Along a run the list stays a skip list and every operation does what it promises, as long as no item reaches the right
sentinel or the addresses of another item and no range is turned around or reaches the right sentinel.
-/

open List hiding Chain
open UInt64 (lt_iff_toNat_lt toNat_inj)

namespace HpcToolkit.Collections.CSkipList

open Lib

variable {N V A : Type} [DecidableEq N] [DecidableEq A]

/-! ## What is promised -/

/-- The nodes of the layers: each layer is linked, sorted and part of the one below. -/
structure Layers (c : Comparators V A) (s : CSkl N V) (layers : ℕ → List N) : Prop where
  linked : ∀ layer < s.maxHeight,
    Chain (s.next layer) (layers layer) (s.next layer s.leftSentinel) (some s.rightSentinel)
  sorted : ∀ layer < s.maxHeight, (layers layer).Pairwise fun m n =>
    ∃ v w, s.val m = some v ∧ s.val n = some w ∧ c.compare v w < 0
  sublist : ∀ layer, layer + 1 < s.maxHeight → (layers (layer + 1)).Sublist (layers layer)

/-- The item of the node is in the range. -/
def CSkl.inRange (c : Comparators V A) (s : CSkl N V) (lo hi : A) (n : N) : Bool :=
  (s.val n).any (CSkipList.inRange c.inrange lo hi)

/-- A search succeeds exactly on what is in the list. -/
def Finds {K : Type} (cmpfn : V → K → ℤ) (key : K) (s : CSkl N V) (nodes : List N) (result : Option (Result N V)) : Prop :=
  ∃ found, result = some (.found found) ∧
    ∀ v, found = some v ↔ ∃ n ∈ nodes, s.val n = some v ∧ cmpfn v key = 0

/-- What an operation returns and does to the layers of a skip list, which stays one. -/
def Correct (c : Comparators V A) (s : CSkl N V) (op : Op N V A) (result : Option (Result N V)) (s' : CSkl N V) : Prop :=
  ∃ earlier later : ℕ → List N, Layers c s earlier ∧ Layers c s' later ∧
    (∀ n ∈ earlier 0, n ∈ later 0 → s'.val n = s.val n) ∧
    match op with
    | .cmpFind value => s' = s ∧ Finds c.compare value s (earlier 0) result
    | .inrangeFind address => s' = s ∧ Finds c.inrange address s (earlier 0) result
    | .insert newNode height value =>
      (∀ n ∈ earlier 0, ∀ v, s.val n = some v → c.compare v value = 0 → result = some (.inserted n) ∧ s' = s) ∧
      ((∀ n ∈ earlier 0, ∀ v, s.val n = some v → c.compare v value ≠ 0) →
        result = some (.inserted newNode) ∧ s'.val newNode = some value ∧
        ∀ layer < s.maxHeight, ∀ n, n ∈ later layer ↔ n ∈ earlier layer ∨ n = newNode ∧ layer < height)
    | .inrangeDelBulk lo hi =>
      result = some (.deleted ((earlier 0).any (s.inRange c lo hi))) ∧
      ∀ layer < s.maxHeight, later layer = (earlier layer).filter fun n => !s.inRange c lo hi n

/-! ## What is needed -/

/-- The item is in the list. -/
def Present (s : CSkl N V) (v : V) : Prop :=
  ∃ nodes, Chain (s.next 0) nodes (s.next 0 s.leftSentinel) (some s.rightSentinel) ∧ ∃ n ∈ nodes, s.val n = some v

/-- Every address is behind the one or before the other. -/
def Apart (c : Comparators V A) (v w : V) : Prop := ∀ address, c.inrange v address < 0 ∨ 0 < c.inrange w address

/-- What `csklnode_malloc` and `random_level` give. -/
def Allowed (s : CSkl N V) : Op N V A → Prop
  | .insert newNode height _ => s.heap newNode = none ∧ 0 < height ∧ height ≤ s.maxHeight
  | _ => True

/-- An item that is inserted is before the right sentinel and apart from the items before and behind it; the bounds of a
range are in order, and the upper one is before the right sentinel. -/
def Meets (c : Comparators V A) (s : CSkl N V) : Op N V A → Prop
  | .insert _ _ value =>
    c.compare value c.rsentinel < 0 ∧
    ∀ v, Present s v → (c.compare v value < 0 → Apart c v value) ∧ (c.compare value v < 0 → Apart c value v)
  | .inrangeDelBulk lo hi =>
    0 < c.inrange c.rsentinel hi ∧ ∀ v, Present s v → c.inrange v lo < 0 → c.inrange v hi < 0
  | _ => True

/-! ## The invariant -/

/-- The items of a list share no address. -/
def Disjoint (c : Comparators V A) (es : List (Entry N V)) : Prop := es.Pairwise fun a b => Apart c a.val b.val

section
variable {c : Comparators V A} {s : CSkl N V} {es : List (Entry N V)}

section
omit [DecidableEq N] [DecidableEq A]

lemma Disjoint.graded (disjoint : Disjoint c es) (ordered : Ordered c es) (address : A) :
    Graded c.inrange address (es ++ [s.sentinel c.rsentinel]) := by
  refine pairwise_append.mpr ⟨disjoint.imp fun apart => apart address, pairwise_singleton _ _, ?_⟩
  rintro e member _ (_ | ⟨_, ⟨⟩⟩)
  exact c.apart_rsentinel address (ordered.below e member)

lemma Rep.layers (rep : Rep c.rsentinel s es) (ordered : Ordered c es) :
    Layers c s fun layer => (level es layer).map Entry.node where
  linked layer below := by
    have linked := rep.linked layer below
    rw [CSkl.row, map_append] at linked
    obtain ⟨m, chain, rfl, -⟩ := Chain.append.mp linked
    exact chain
  sorted layer _ := by
    refine pairwise_map.mpr ((ordered.sorted.sublist filter_sublist).imp_of_mem ?_)
    intro a b inFront behind less
    exact ⟨a.val, b.val, (rep.entries a (mem_filter.mp inFront).1).val,
      (rep.entries b (mem_filter.mp behind).1).val, less⟩
  sublist layer _ := by
    refine (monotone_filter_right es fun e high => ?_).map _
    exact decide_eq_true ((Nat.lt_succ_self layer).trans (of_decide_eq_true high))

lemma Rep.level_bottom (rep : Rep c.rsentinel s es) : level es 0 = es :=
  level_zero fun e member => (rep.heights e member).1

lemma Rep.mem_bottom (rep : Rep c.rsentinel s es) {P : V → Prop} :
    (∃ n ∈ (level es 0).map Entry.node, ∃ v, s.val n = some v ∧ P v) ↔ ∃ e ∈ es, P e.val := by
  rw [rep.level_bottom]
  constructor
  · rintro ⟨n, member, v, value, holds⟩
    obtain ⟨e, there, rfl⟩ := mem_map.mp member
    rw [(rep.entries e there).val] at value
    exact ⟨e, there, Option.some.inj value ▸ holds⟩
  · rintro ⟨e, member, holds⟩
    exact ⟨e.node, mem_map_of_mem member, e.val, (rep.entries e member).val, holds⟩

end

variable {e : Entry N V}

section
omit [DecidableEq N] [DecidableEq A]

lemma Rep.present (rep : Rep c.rsentinel s es) (ordered : Ordered c es) (member : e ∈ es) :
    Present s e.val := by
  refine ⟨_, (rep.layers ordered).linked 0 rep.positive, e.node, ?_, (rep.entries e member).val⟩
  rw [rep.level_bottom]
  exact mem_map_of_mem member

lemma Rep.entry_of_present (rep : Rep c.rsentinel s es) {v : V} (present : Present s v) : ∃ e ∈ es, e.val = v := by
  obtain ⟨nodes, chain, n, member, value⟩ := present
  obtain ⟨nexts, right⟩ := rep.right
  have stops : s.next 0 s.rightSentinel = none := by simp [CSkl.next, right]
  have linked := rep.linked 0 rep.positive
  have whole : Chain (s.next 0) (nodes ++ [s.rightSentinel]) (s.next 0 s.leftSentinel) none :=
    Chain.append.mpr ⟨_, chain, rfl, stops⟩
  have same := whole.unique linked
  rw [CSkl.row, rep.level_bottom, map_append] at same
  rw [append_cancel_right same] at member
  obtain ⟨e, there, rfl⟩ := mem_map.mp member
  exact ⟨e, there, Option.some.inj ((rep.entries e there).val.symm.trans value)⟩

lemma Rep.inRange_node (rep : Rep c.rsentinel s es) (member : e ∈ es) (lo hi : A) :
    s.inRange c lo hi e.node = CSkipList.inRange c.inrange lo hi e.val := by
  rw [CSkl.inRange, (rep.entries e member).val, Option.any_some]

end

end

/-- The list with a number of operations to come, each of which may add an entry. -/
def Good (c : Comparators V A) (fuel n : ℕ) (s : CSkl N V) : Prop :=
  ∃ es, Rep c.rsentinel s es ∧ Ordered c es ∧ Disjoint c es ∧ es.length + n < fuel

/-! ## The operations -/

section
variable {c : Comparators V A} {s : CSkl N V} {es : List (Entry N V)} {fuel : ℕ} (rep : Rep c.rsentinel s es)
  (ordered : Ordered c es) (enough : es.length < fuel)
include rep ordered enough

omit [DecidableEq N] [DecidableEq A] ordered in
lemma finds {K : Type} {cmpfn : V → K → ℤ} {key : K} (graded : Graded cmpfn key (es ++ [s.sentinel c.rsentinel]))
    (sentinel : 0 ≤ cmpfn c.rsentinel key) :
    Finds cmpfn key s ((level es 0).map Entry.node) ((cskiplistFind cmpfn key s fuel).map .found) := by
  obtain ⟨found, searched, finds⟩ := rep.cskiplistFind_eq graded sentinel enough
  refine ⟨found, by rw [searched]; rfl, fun v => (finds v).trans ?_⟩
  have bottom := rep.mem_bottom (P := fun w => w = v ∧ cmpfn v key = 0)
  simpa using bottom.symm

variable {height : ℕ} {newNode : N} {value : V}

omit [DecidableEq A] in
lemma insert_present (fresh : s.heap newNode = none) {e : Entry N V}
    (member : e ∈ es) (equal : c.compare e.val value = 0) :
    Correct c s (.insert newNode height value) (some (.inserted e.node)) s := by
  refine ⟨_, _, rep.layers ordered, rep.layers ordered, fun _ _ _ => rfl, ?_, ?_⟩
  · intro n there v read equal'
    rw [rep.level_bottom] at there
    obtain ⟨a, inList, rfl⟩ := mem_map.mp there
    obtain rfl := Option.some.inj ((rep.entries a inList).val.symm.trans read)
    have result : csklInsert c.compare fuel s newNode height value = some (a.node, s) :=
      csklInsert_present c rep ordered fresh inList equal' enough
    have result' : csklInsert c.compare fuel s newNode height value = some (e.node, s) :=
      csklInsert_present c rep ordered fresh member equal enough
    obtain ⟨same, -⟩ := Prod.mk.inj (Option.some.inj (result'.symm.trans result))
    exact ⟨by rw [same], rfl⟩
  · intro absent
    refine absurd equal (absent e.node ?_ e.val (rep.entries e member).val)
    rw [rep.level_bottom]
    exact mem_map_of_mem member

section
omit [DecidableEq N] [DecidableEq A] enough

lemma insert_new {s' : CSkl N V}
    (after : Rep c.rsentinel s' (inserted c newNode height value es))
    (ordered' : Ordered c (inserted c newNode height value es))
    (missed : ∀ e ∈ es, c.compare e.val value ≠ 0) :
    Correct c s (.insert newNode height value) (some (.inserted newNode)) s' := by
  have kept : ∀ e ∈ es, e ∈ inserted c newNode height value es := fun e member => (mem_inserted c).mpr (.inl member)
  refine ⟨_, _, rep.layers ordered, after.layers ordered', ?_, ?_, fun _ => ⟨rfl, ?_, ?_⟩⟩
  · intro n there _
    rw [rep.level_bottom] at there
    obtain ⟨e, member, rfl⟩ := mem_map.mp there
    rw [(after.entries e (kept e member)).val, (rep.entries e member).val]
  · intro n there v read equal
    rw [rep.level_bottom] at there
    obtain ⟨e, member, rfl⟩ := mem_map.mp there
    obtain rfl := Option.some.inj ((rep.entries e member).val.symm.trans read)
    exact absurd equal (missed e member)
  · exact (after.entries ⟨newNode, value, height⟩ ((mem_inserted c).mpr (.inr rfl))).val
  · intro layer _ n
    simp only [level, mem_map, mem_filter, mem_inserted, decide_eq_true_eq]
    constructor
    · rintro ⟨e, ⟨member | rfl, high⟩, rfl⟩
      · exact .inl ⟨e, ⟨member, high⟩, rfl⟩
      · exact .inr ⟨rfl, high⟩
    · rintro (⟨e, ⟨member, high⟩, rfl⟩ | ⟨rfl, high⟩)
      · exact ⟨e, ⟨.inl member, high⟩, rfl⟩
      · exact ⟨⟨n, value, height⟩, ⟨.inr rfl, high⟩, rfl⟩

lemma disjoint_inserted (disjoint : Disjoint c es)
    (missed : ∀ e ∈ es, c.compare e.val value ≠ 0)
    (apart : ∀ v, Present s v → (c.compare v value < 0 → Apart c v value) ∧ (c.compare value v < 0 → Apart c value v)) :
    Disjoint c (inserted c newNode height value es) := by
  have split := (c.graded ordered.sorted value).before_append_rest
  unfold Disjoint at disjoint ⊢
  rw [← split] at disjoint
  obtain ⟨front, back, across⟩ := pairwise_append.mp disjoint
  refine pairwise_append.mpr ⟨front, pairwise_cons.mpr ⟨?_, back⟩, ?_⟩
  · intro e member
    obtain ⟨there, notBefore⟩ := mem_rest.mp member
    refine (apart e.val (rep.present ordered there)).2 ?_
    rw [c.compare_eq_neg_one (lt_of_le_of_ne notBefore (missed e there).symm)]
    decide
  · rintro a member b (_ | ⟨_, later⟩)
    · obtain ⟨there, low⟩ := mem_before.mp member
      exact (apart a.val (rep.present ordered there)).1 low
    · exact across a member b later

end

lemma insert_correct (disjoint : Disjoint c es)
    (allowed : Allowed (A := A) s (.insert newNode height value)) (meets : Meets c s (.insert newNode height value)) :
    Correct c s (.insert newNode height value) (exec c fuel s (.insert newNode height value)).1
        (exec c fuel s (.insert newNode height value)).2 ∧
      ∃ es', Rep c.rsentinel (exec c fuel s (.insert newNode height value)).2 es' ∧ Ordered c es' ∧ Disjoint c es' ∧
        es'.length ≤ es.length + 1 := by
  obtain ⟨fresh, positive, high⟩ := allowed
  obtain ⟨belongs, apart⟩ := meets
  by_cases present : ∃ e ∈ es, c.compare e.val value = 0
  · obtain ⟨e, member, equal⟩ := present
    simp only [exec, csklInsert_present c rep ordered fresh member equal enough]
    exact ⟨insert_present rep ordered enough fresh member equal, es, rep, ordered, disjoint, Nat.le_succ _⟩
  · push Not at present
    obtain ⟨s', inserted, after⟩ := csklInsert_new c rep ordered fresh positive high belongs present enough
    have ordered' : Ordered c (CSkipList.inserted c newNode height value es) :=
      ordered_inserted c ordered belongs present
    simp only [exec, inserted]
    refine ⟨insert_new rep ordered after ordered' present, _, after, ordered',
      disjoint_inserted rep ordered disjoint present apart, ?_⟩
    rw [(inserted_perm c ordered).length_eq, length_cons]

lemma delete_correct {lo hi : A} (disjoint : Disjoint c es) (meets : Meets (N := N) c s (.inrangeDelBulk lo hi)) :
    Correct c s (.inrangeDelBulk lo hi) (exec c fuel s (.inrangeDelBulk lo hi)).1
        (exec c fuel s (.inrangeDelBulk lo hi)).2 ∧
      ∃ es', Rep c.rsentinel (exec c fuel s (.inrangeDelBulk lo hi)).2 es' ∧ Ordered c es' ∧ Disjoint c es' ∧
        es'.length ≤ es.length := by
  obtain ⟨sentinel, bounds⟩ := meets
  obtain ⟨s', deleted, after, -⟩ := delBulk_range rep (disjoint.graded ordered lo) (disjoint.graded ordered hi)
    (c.inrange_rsentinel lo) sentinel (fun e member => bounds e.val (rep.present ordered member)) enough
  have ordered' : Ordered c (es.filter fun e => !CSkipList.inRange c.inrange lo hi e.val) :=
    ⟨ordered.sorted.sublist filter_sublist, fun e member => ordered.below e (mem_filter.mp member).1⟩
  simp only [exec, deleted]
  refine ⟨⟨_, _, rep.layers ordered, after.layers ordered', ?_, ?_, ?_⟩, _, after, ordered',
    disjoint.sublist filter_sublist, length_filter_le ..⟩
  · intro n there stays
    rw [after.level_bottom] at stays
    obtain ⟨e, member, rfl⟩ := mem_map.mp stays
    rw [(after.entries e member).val, (rep.entries e (mem_filter.mp member).1).val]
  · rw [rep.level_bottom, any_map]
    refine congrArg (fun any => some (Result.deleted any)) ?_
    rw [Bool.eq_iff_iff, any_eq_true, any_eq_true]
    refine exists_congr fun e => and_congr_right fun member => ?_
    rw [Function.comp_apply, rep.inRange_node member]
  · intro layer _
    rw [filter_map, level, filter_comm, ← level]
    refine congrArg _ (filter_congr fun e member => ?_)
    rw [Function.comp_apply, rep.inRange_node (mem_filter.mp member).1]

end

/-! ## Runs -/

section
variable {c : Comparators V A} {left right : N} {lsentinel : V} {maxHeight fuel : ℕ}

omit [DecidableEq A] in
lemma rep_new (distinct : left ≠ right) (positive : 0 < maxHeight) :
    Rep c.rsentinel (csklNew left right lsentinel c.rsentinel maxHeight) [] where
  positive := positive
  left := ⟨lsentinel, false, _, if_pos rfl⟩
  right := ⟨fun _ => none, by simp [csklNew, distinct.symm]⟩
  entries := by simp
  heights := by simp
  distinct := by simpa [CSkl.sentinel, csklNew] using distinct
  linked layer below := by
    have high : layer < maxHeight := below
    simp [CSkl.row, level, CSkl.sentinel, Chain, CSkl.next, csklNew, high, distinct.symm]

lemma good_step {s : CSkl N V} {n : ℕ} {op : Op N V A} (good : Good c fuel (n + 1) s) (allowed : Allowed s op)
    (meets : Meets c s op) :
    Good c fuel n (exec c fuel s op).2 ∧ Correct c s op (exec c fuel s op).1 (exec c fuel s op).2 := by
  obtain ⟨es, rep, ordered, disjoint, room⟩ := good
  have enough : es.length < fuel := by omega
  cases op with
  | insert newNode height value =>
    obtain ⟨correct, es', rep', ordered', disjoint', longer⟩ := insert_correct rep ordered enough disjoint allowed meets
    exact ⟨⟨es', rep', ordered', disjoint', by omega⟩, correct⟩
  | cmpFind value =>
    have found := finds rep enough (ordered.graded s value) (c.compare_rsentinel value)
    exact ⟨⟨es, rep, ordered, disjoint, by omega⟩,
      ⟨_, _, rep.layers ordered, rep.layers ordered, fun _ _ _ => rfl, rfl, found⟩⟩
  | inrangeFind address =>
    have found := finds rep enough (disjoint.graded ordered address) (c.inrange_rsentinel address)
    exact ⟨⟨es, rep, ordered, disjoint, by omega⟩,
      ⟨_, _, rep.layers ordered, rep.layers ordered, fun _ _ _ => rfl, rfl, found⟩⟩
  | inrangeDelBulk lo hi =>
    obtain ⟨correct, es', rep', ordered', disjoint', shorter⟩ := delete_correct rep ordered enough disjoint meets
    exact ⟨⟨es', rep', ordered', disjoint', by omega⟩, correct⟩

/-- Along a run from an empty list, whose loops are long enough for the items that it can insert, each operation leaves a
skip list and does what it promises, if every insertion and every deletion meets its condition. -/
theorem stays_skip_list (distinct : left ≠ right) (positive : 0 < maxHeight) (ops : List (Op N V A))
    (enough : ops.length < fuel)
    (met : EachStep (exec c fuel) (fun s op _ _ => Allowed s op ∧ Meets c s op)
      (csklNew left right lsentinel c.rsentinel maxHeight) ops) :
    EachStep (exec c fuel) (Correct c) (csklNew left right lsentinel c.rsentinel maxHeight) ops := by
  refine eachStep_of_meets (Good c fuel) ?_ ?_ ?_ met
  · exact fun n s op good meets => (good_step good meets.1 meets.2).1
  · exact fun n s op good meets => (good_step good meets.1 meets.2).2
  · exact ⟨[], rep_new distinct positive, ⟨.nil, by simp⟩, .nil, by simpa using enough⟩

end

/-! ## Intervals of addresses -/

structure Interval where
  start : UInt64
  stop : UInt64

def uintptrMax : UInt64 := 0xffffffffffffffff

/-- `interval_t_cmp` -/
def intervalCmp (lhs rhs : Interval) : ℤ :=
  if lhs.start < rhs.start then -1 else if lhs.start = rhs.start then 0 else 1

/-- `interval_t_inrange` -/
def intervalInrange (interval : Interval) (address : UInt64) : ℤ :=
  if address = uintptrMax ∧ interval.start = uintptrMax then 0
  else if address < interval.start then 1
  else if address < interval.stop then 0
  else -1

lemma le_uintptrMax (address : UInt64) : address.toNat ≤ uintptrMax.toNat :=
  Nat.le_of_lt_succ address.toNat_lt

/-- The lists of the recipe map, which end with the interval `[UINTPTR_MAX, UINTPTR_MAX)`. -/
def intervals : Comparators Interval UInt64 where
  compare := intervalCmp
  inrange := intervalInrange
  three a b := by
    rw [intervalCmp]
    split_ifs <;> simp
  swap a b := by
    simp only [intervalCmp, lt_iff_toNat_lt, ← toNat_inj]
    split_ifs <;> omega
  trans {a b c} := by
    simp only [intervalCmp, lt_iff_toNat_lt, ← toNat_inj]
    split_ifs <;> omega
  rsentinel := ⟨uintptrMax, uintptrMax⟩
  compare_rsentinel a := by
    have bound := le_uintptrMax a.start
    simp only [intervalCmp, lt_iff_toNat_lt]
    split_ifs <;> omega
  inrange_rsentinel address := by
    have bound := le_uintptrMax address
    simp only [intervalInrange, lt_iff_toNat_lt, ← toNat_inj, and_true]
    split_ifs <;> omega
  apart_rsentinel {a} address := by
    have bound := le_uintptrMax address
    have bound' := le_uintptrMax a.stop
    simp only [intervalCmp, intervalInrange, lt_iff_toNat_lt, ← toNat_inj]
    split_ifs <;> omega

lemma intervalInrange_lt {interval : Interval} {lo hi : UInt64} (ordered : lo ≤ hi)
    (low : intervalInrange interval lo < 0) : intervalInrange interval hi < 0 := by
  have bound := le_uintptrMax hi
  have bound' := le_uintptrMax interval.stop
  revert low
  rw [UInt64.le_iff_toNat_le] at ordered
  simp only [intervalInrange, lt_iff_toNat_lt, ← toNat_inj]
  split_ifs <;> omega

/-- An interval is inserted, found by one of its addresses, and deleted. -/
theorem interval_comes_and_goes : EachStep (exec intervals 4) (Correct intervals)
    (csklNew 0 1 ⟨0, 0⟩ intervals.rsentinel 4) [.insert 2 1 ⟨16, 32⟩, .inrangeFind 20, .inrangeDelBulk 16 31] := by
  refine stays_skip_list (by decide) (by decide) _ (by decide) ⟨⟨⟨rfl, by decide, by decide⟩, by decide, ?_⟩,
    ⟨trivial, trivial⟩, ⟨trivial, by decide, ?_⟩, trivial⟩
  · intro v present
    have empty : Rep intervals.rsentinel (csklNew 0 1 ⟨0, 0⟩ intervals.rsentinel 4) [] := rep_new (by decide) (by decide)
    obtain ⟨e, member, -⟩ := empty.entry_of_present present
    cases member
  · intro v _ low
    have ordered : (16 : UInt64) ≤ 31 := by decide
    exact intervalInrange_lt ordered low

/-- An interval is inserted, and a range that begins with it and ends with the last address is deleted. -/
def lastRange : List (Op ℕ Interval UInt64) := [.insert 2 1 ⟨16, 32⟩, .inrangeDelBulk 16 uintptrMax]

/-- The deletion follows the right sentinel, which has no links, and does not return. -/
theorem lastRange_fails :
    (∀ fuel, EachStep (exec intervals (fuel + 3)) (fun s op _ _ => Allowed s op)
      (csklNew 0 1 ⟨0, 0⟩ intervals.rsentinel 4) lastRange) ∧
    ∀ fuel, ¬ EachStep (exec intervals (fuel + 3)) (Correct intervals)
      (csklNew 0 1 ⟨0, 0⟩ intervals.rsentinel 4) lastRange := by
  constructor
  · intro fuel
    exact ⟨⟨rfl, by decide, by decide⟩, trivial, trivial⟩
  · rintro fuel ⟨-, ⟨earlier, later, -, -, -, result, -⟩, -⟩
    have stuck : (exec intervals (fuel + 3) (exec intervals (fuel + 3) (csklNew 0 1 ⟨0, 0⟩ intervals.rsentinel 4)
        (.insert 2 1 ⟨16, 32⟩)).2 (.inrangeDelBulk 16 uintptrMax)).1 = none := rfl
    rw [stuck] at result
    cases result

end HpcToolkit.Collections.CSkipList
