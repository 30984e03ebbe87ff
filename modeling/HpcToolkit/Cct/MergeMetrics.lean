import HpcToolkit.Cct.MergeTree

/-! # Measurements under a merge

The merge operation runs on a common pair of nodes only when both are leaves at that moment. So the
calls are the common pairs of leaves, each once, and the totals of the metrics survive when there are
no other common pairs.
-/

open Function List
open Multiset (nodup_of_le singleton_add sum_add)

namespace HpcToolkit.Cct

open Lib CctNode

section
variable {a b : CctNode}

lemma mem_callsAt {a y : CctNode} {pair : ℕ × ℕ} :
    pair ∈ callsAt a.children y ↔ ∃ x, a.child? y.addr = some x ∧ pair ∈ mergeCalls x y := by
  rw [callsAt, ← child?]
  cases a.child? y.addr <;> simp

lemma mem_mergeCalls (b : CctNode) : ∀ {a}, Joinable a b → ∀ {i j : ℕ}, (i, j) ∈ mergeCalls a b ↔
    ∃ x y, Common a b x y ∧ x.isLeaf ∧ y.isLeaf ∧ x.id = i ∧ y.id = j := by
  induction b using inductionOn with
  | step info children ih =>
    intro a input i j
    rw [mergeCalls_eq input.orderedA input.orderedB, mem_append, mem_flatMap]
    constructor
    · rintro (own | ⟨y, member, call⟩)
      · split at own
        · next leaves =>
          rw [Bool.and_eq_true] at leaves
          cases mem_singleton.mp own
          exact ⟨a, _, common_iff.mpr (.inl ⟨rfl, rfl⟩), leaves.1, leaves.2, rfl, rfl⟩
        · cases own
      · obtain ⟨x, atA, call⟩ := mem_callsAt.mp call
        have memberY := STree.mem_postorder.mp member
        have atB : (node info children).child? y.addr = some y :=
          (input.orderedB.find?_eq_some addr).mpr ⟨memberY, rfl⟩
        obtain ⟨u, v, common, rest⟩ := (ih y memberY (input.child atA atB)).mp call
        exact ⟨u, v, common_iff.mpr (.inr ⟨y.addr, x, y, atA, atB, common⟩), rest⟩
    · rintro ⟨u, v, common, leafU, leafV, rfl, rfl⟩
      rcases common_iff.mp common with ⟨rfl, rfl⟩ | ⟨k, x, y, atA, atB, below⟩
      · rw [if_pos (by rw [leafU, leafV]; rfl)]
        exact .inl (mem_singleton.mpr rfl)
      · have memberY := STree.mem_of_find? addr atB
        refine .inr ⟨y, STree.mem_postorder.mpr memberY, mem_callsAt.mpr ⟨x, ?_, ?_⟩⟩
        · rw [addr_of_child? atB, atA]
        · exact (ih y memberY (input.child atA atB)).mpr ⟨u, v, below, leafU, leafV, rfl, rfl⟩

/-- The multiset of the nodes of a tree. -/
def idsOf (c : CctNode) : Multiset ℕ := (c.nodes.map CctNode.id : List ℕ)

/-- The multiset of the nodes consumed by a list of calls. -/
def consumed (pairs : List (ℕ × ℕ)) : Multiset ℕ := (pairs.map Prod.snd : List ℕ)

lemma idsOf_eq (c : CctNode) : idsOf c = c.id ::ₘ (c.children.toList.map idsOf).sum := by
  rw [idsOf, nodes_eq, map_cons, map_flatMap, ← Multiset.cons_coe]
  congr 1
  induction c.children.toList with
  | nil => rfl
  | cons y rest ih =>
    rw [flatMap_cons, map_cons, sum_cons, ← ih]
    rfl

@[simp] lemma idsOf_setParent (c : CctNode) (targ : ℕ) : idsOf (c.setParent targ) = idsOf c := by
  rw [idsOf_eq, idsOf_eq, children_setParent, id_setParent]

lemma consumed_append (pairs pairs' : List (ℕ × ℕ)) :
    consumed (pairs ++ pairs') = consumed pairs + consumed pairs' := by
  simp [consumed]

lemma consumed_flatMap (t : STree CctNode) (f : CctNode → List (ℕ × ℕ)) :
    consumed (t.postorder.flatMap f) = (t.toList.map fun y => consumed (f y)).sum := by
  rw [← (t.postorder_perm.map _).sum_eq]
  induction t.postorder with
  | nil => rfl
  | cons y rest ih => rw [flatMap_cons, consumed_append, ih, map_cons, sum_cons]

lemma sum_children {c : CctNode} (ordered : c.children.Ordered addr) (f : CctNode → Multiset ℕ)
    (keys : Finset CctAddr) (cover : ∀ k x, c.child? k = some x → k ∈ keys) :
    (c.children.toList.map f).sum = ∑ k ∈ keys, (c.child? k).elim 0 f :=
  ordered.sum_map addr f keys fun x member =>
    cover x.addr x ((ordered.find?_eq_some addr).mpr ⟨member, rfl⟩)

mutual
/-- The nodes of a second tree that a node of `a` meets on its path: the merge leaves them behind. -/
def met (a : CctNode) : CctNode → Multiset ℕ
  | node info children => info.id ::ₘ metTree a.children children

def metTree (as : STree CctNode) : STree CctNode → Multiset ℕ
  | .nil => 0
  | .node l n r =>
    metTree as l + ((match STree.find? addr as n.addr with
      | some x => met x n
      | none => 0) + metTree as r)
end

/-- What a child `y` of the second tree leaves behind. -/
def metAt (a y : CctNode) : Multiset ℕ := (a.child? y.addr).elim 0 (met · y)

lemma metTree_eq (a : CctNode) (t : STree CctNode) : metTree a.children t = (t.toList.map (metAt a)).sum := by
  induction t with
  | nil => rfl
  | node l n r ihl ihr =>
    rw [metTree, ihl, ihr, STree.toList_node, map_append, sum_append, map_cons, sum_cons,
      metAt, child?]
    cases STree.find? addr a.children n.addr <;> rfl

lemma met_eq (a b : CctNode) : met a b = b.id ::ₘ (b.children.toList.map (metAt a)).sum := by
  cases b
  rw [met, metTree_eq, children_node, id_node]

variable {n : ℕ}

lemma mem_sum_children {t : STree CctNode} {f : CctNode → Multiset ℕ} :
    n ∈ (t.toList.map f).sum ↔ ∃ y ∈ t.toList, n ∈ f y := by
  induction t.toList with
  | nil => simp
  | cons y rest ih => simp [ih]

lemma mem_met (b : CctNode) : ∀ {a}, b.AllOrdered → ∀ {n : ℕ}, n ∈ met a b ↔
    ∃ x y, Common a b x y ∧ y.id = n := by
  induction b using inductionOn with
  | step info children ih =>
    intro a ordered n
    rw [met_eq, Multiset.mem_cons, mem_sum_children]
    constructor
    · rintro (rfl | ⟨y, member, below⟩)
      · exact ⟨a, _, common_iff.mpr (.inl ⟨rfl, rfl⟩), rfl⟩
      · have atB : (node info children).child? y.addr = some y :=
          ((ordered _ .refl).find?_eq_some addr).mpr ⟨member, rfl⟩
        cases atA : a.child? y.addr with
        | none =>
          rw [metAt, atA] at below
          exact absurd below (Multiset.notMem_zero n)
        | some x =>
          rw [metAt, atA] at below
          obtain ⟨u, v, common, same⟩ := (ih y member (ordered.child atB)).mp below
          exact ⟨u, v, common_iff.mpr (.inr ⟨y.addr, x, y, atA, atB, common⟩), same⟩
    · rintro ⟨u, v, common, rfl⟩
      rcases common_iff.mp common with ⟨rfl, rfl⟩ | ⟨k, x, y, atA, atB, below⟩
      · exact .inl rfl
      · have member := STree.mem_of_find? addr atB
        refine .inr ⟨y, member, ?_⟩
        rw [metAt, addr_of_child? atB, atA]
        exact (ih y member (ordered.child atB)).mpr ⟨u, v, below, rfl⟩

lemma idsOf_merged (b : CctNode) : ∀ {a}, Joinable a b → idsOf (merged a b) + met a b = idsOf a + idsOf b := by
  induction b using inductionOn with
  | step info children ih =>
    intro a input
    set b := node info children with isB
    have orderedM := ordered_children_merged input.orderedA input.orderedB
    let keys := (a.children.toList.map addr).toFinset ∪ (b.children.toList.map addr).toFinset
    have coverA : ∀ k x, a.child? k = some x → k ∈ keys := by
      intro k x found
      refine Finset.mem_union_left _ (mem_toFinset.mpr (mem_map.mpr ⟨x, ?_⟩))
      exact ⟨STree.mem_of_find? addr found, addr_of_child? found⟩
    have coverB : ∀ k x, b.child? k = some x → k ∈ keys := by
      intro k x found
      refine Finset.mem_union_right _ (mem_toFinset.mpr (mem_map.mpr ⟨x, ?_⟩))
      exact ⟨STree.mem_of_find? addr found, addr_of_child? found⟩
    have coverM : ∀ k c, (merged a b).child? k = some c → k ∈ keys := by
      intro k c found
      rcases input.child_cases found with ⟨x, y, atA, -⟩ | atA | ⟨y, atB, -⟩
      · exact coverA k x atA
      · exact coverA k c atA
      · exact coverB k y atB
    have pointwise : ∀ k ∈ keys, ((merged a b).child? k).elim 0 idsOf + (b.child? k).elim 0 (metAt a) =
          (a.child? k).elim 0 idsOf + (b.child? k).elim 0 idsOf := by
      intro k _
      rw [child?_merged input.orderedA input.orderedB]
      cases atB : b.child? k with
      | none => cases a.child? k <;> rfl
      | some y =>
        rw [Option.elim_some, Option.elim_some, metAt, addr_of_child? atB]
        cases atA : a.child? k with
        | none =>
          simp only [Option.elim_some, Option.elim_none, zero_add]
          split <;> simp
        | some x => exact ih y (STree.mem_of_find? addr atB) (input.child atA atB)
    rw [met_eq, idsOf_eq (merged a b), idsOf_eq a, idsOf_eq b, id_merged,
      sum_children orderedM _ keys coverM, sum_children input.orderedB _ keys coverB,
      sum_children input.orderedA _ keys coverA, sum_children input.orderedB _ keys coverB]
    have total := Finset.sum_congr rfl pointwise
    rw [Finset.sum_add_distrib, Finset.sum_add_distrib] at total
    simp only [← singleton_add]
    calc _ = {a.id} + {b.id} + (∑ k ∈ keys, ((merged a b).child? k).elim 0 idsOf +
          ∑ k ∈ keys, (b.child? k).elim 0 (metAt a)) := by abel
      _ = _ := by
        rw [total]
        abel

lemma consumed_le_met (b : CctNode) : ∀ {a}, Joinable a b → consumed (mergeCalls a b) ≤ met a b := by
  induction b using inductionOn with
  | step info children ih =>
    intro a input
    rw [mergeCalls_eq input.orderedA input.orderedB, consumed_append, consumed_flatMap, met_eq,
      ← singleton_add]
    refine add_le_add ?_ (sum_le_sum fun y member => ?_)
    · split
      · exact le_rfl
      · exact zero_le
    · have atB : (node info children).child? y.addr = some y :=
        (input.orderedB.find?_eq_some addr).mpr ⟨member, rfl⟩
      rw [callsAt, ← child?, metAt]
      cases atA : a.child? y.addr with
      | none => exact zero_le
      | some x => exact ih y member (input.child atA atB)

lemma consumed_eq_met (b : CctNode) : ∀ {a}, Joinable a b →
    (∀ x y, Common a b x y → x.isLeaf ∧ y.isLeaf) → consumed (mergeCalls a b) = met a b := by
  induction b using inductionOn with
  | step info children ih =>
    intro a input leaves
    obtain ⟨⟨leafA, leafB⟩, below⟩ := forall_common_iff.mp leaves
    rw [mergeCalls_eq input.orderedA input.orderedB, if_pos (by rw [leafA, leafB]; rfl), consumed_append,
      consumed_flatMap, met_eq, ← singleton_add]
    refine congrArg₂ (· + ·) rfl (congrArg sum (map_congr_left fun y member => ?_))
    have atB : (node info children).child? y.addr = some y :=
      (input.orderedB.find?_eq_some addr).mpr ⟨member, rfl⟩
    rw [callsAt, ← child?, metAt]
    cases atA : a.child? y.addr with
    | none => rfl
    | some x => exact ih y member (input.child atA atB) (below y.addr x y atA atB)

lemma met_le (b : CctNode) : ∀ {a : CctNode}, b.AllOrdered → met a b ≤ idsOf b := by
  induction b using inductionOn with
  | step info children ih =>
    intro a ordered
    rw [met_eq, idsOf_eq, ← singleton_add, ← singleton_add]
    refine add_le_add le_rfl (sum_le_sum fun y member => ?_)
    have atB : (node info children).child? y.addr = some y :=
      ((ordered _ .refl).find?_eq_some addr).mpr ⟨member, rfl⟩
    rw [metAt]
    cases a.child? y.addr with
    | none => exact zero_le
    | some x => exact ih y member (ordered.child atB)

lemma consumed_le (input : Joinable a b) : consumed (mergeCalls a b) ≤ idsOf b :=
  (consumed_le_met b input).trans (met_le b input.right)

lemma nodup_mergeCalls (input : Mergeable a b) : (mergeCalls a b).Nodup := by
  have distinct : (idsOf b).Nodup := input.right.distinct
  have nodup : (consumed (mergeCalls a b)).Nodup := nodup_of_le (consumed_le input.joinable) distinct
  exact List.Nodup.of_map _ nodup

/-! ## A merge operation that adds metrics -/

variable {ι M : Type*} [AddCommMonoid M]

/-- One call of a metric-adding operation on the table of all metrics of all nodes. -/
def addMetrics (table : ℕ → ι → M) (call : ℕ × ℕ) : ℕ → ι → M :=
  update table call.1 (table call.1 + table call.2)

/-- The total of one metric over a tree. -/
def total (c : CctNode) (table : ℕ → ι → M) (metric : ι) : M := (c.nodes.map fun x => table x.id metric).sum

lemma total_eq (c : CctNode) (table : ℕ → ι → M) (metric : ι) :
    total c table metric = ((idsOf c).map fun n => table n metric).sum := by
  rw [total, idsOf, Multiset.map_coe, Multiset.sum_coe, map_map]
  rfl

variable {i j : ℕ} {nodes : Multiset ℕ}

lemma sum_addMetrics (distinct : nodes.Nodup) (table : ℕ → ι → M) (metric : ι)
    (member : i ∈ nodes) :
    (nodes.map fun n => addMetrics table (i, j) n metric).sum =
      (nodes.map fun n => table n metric).sum + table j metric := by
  obtain ⟨rest, rfl⟩ := Multiset.exists_cons_of_mem member
  have fresh : i ∉ rest := (Multiset.nodup_cons.mp distinct).1
  have others : rest.map (fun n => addMetrics table (i, j) n metric) = rest.map fun n => table n metric := by
    refine Multiset.map_congr rfl fun n memberN => ?_
    have differ : n ≠ i := fun same => fresh (same ▸ memberN)
    simp [addMetrics, differ]
  rw [Multiset.map_cons, Multiset.map_cons, Multiset.sum_cons, Multiset.sum_cons, others]
  simp only [addMetrics, update_self, Pi.add_apply]
  abel

lemma sum_foldl_addMetrics (distinct : nodes.Nodup) (metric : ι)
    (pairs : List (ℕ × ℕ)) (table : ℕ → ι → M) (into : ∀ pair ∈ pairs, pair.1 ∈ nodes)
    (separate : ∀ pair ∈ pairs, ∀ other ∈ pairs, pair.1 ≠ other.2) :
    (nodes.map fun n => pairs.foldl addMetrics table n metric).sum =
      (nodes.map fun n => table n metric).sum + ((consumed pairs).map fun n => table n metric).sum := by
  induction pairs generalizing table with
  | nil => simp [consumed]
  | cons pair rest ih =>
    obtain ⟨i, j⟩ := pair
    rw [foldl_cons, ih (addMetrics table (i, j)) (fun p member => into p (.tail _ member))
      (fun p memberP q memberQ => separate p (.tail _ memberP) q (.tail _ memberQ)),
      sum_addMetrics distinct table metric (into (i, j) (.head _))]
    have unread : (consumed rest).map (fun n => addMetrics table (i, j) n metric) =
        (consumed rest).map fun n => table n metric := by
      refine Multiset.map_congr rfl fun n memberN => ?_
      obtain ⟨other, memberO, rfl⟩ := mem_map.mp (Multiset.mem_coe.mp memberN)
      have differ : other.2 ≠ i := (separate (i, j) (.head _) other (.tail _ memberO)).symm
      simp [addMetrics, differ]
    have consumedCons : consumed ((i, j) :: rest) = j ::ₘ consumed rest := rfl
    rw [unread, consumedCons, Multiset.map_cons, Multiset.sum_cons, add_assoc]

lemma foldl_addMetrics_of_ne (pairs : List (ℕ × ℕ)) (table : ℕ → ι → M)
    (other : ∀ pair ∈ pairs, n ≠ pair.1) : pairs.foldl addMetrics table n = table n := by
  induction pairs generalizing table with
  | nil => rfl
  | cons pair rest ih =>
    rw [foldl_cons, ih _ fun p member => other p (.tail _ member), addMetrics,
      update_of_ne (other pair (.head _))]

lemma foldl_addMetrics_of_mem (pairs : List (ℕ × ℕ)) (table : ℕ → ι → M) (once : (pairs.map Prod.fst).Nodup)
    (separate : ∀ pair ∈ pairs, ∀ other ∈ pairs, pair.1 ≠ other.2) (call : (i, j) ∈ pairs) :
    pairs.foldl addMetrics table i = table i + table j := by
  induction pairs generalizing table with
  | nil => cases call
  | cons pair rest ih =>
    rw [map_cons, nodup_cons] at once
    rw [foldl_cons]
    rcases mem_cons.mp call with rfl | later
    · rw [foldl_addMetrics_of_ne rest, addMetrics, update_self]
      exact fun p member same => once.1 (mem_map.mpr ⟨p, member, same.symm⟩)
    · rw [ih _ once.2 (fun p memberP q memberQ => separate p (.tail _ memberP) q (.tail _ memberQ)) later, addMetrics,
        update_of_ne, update_of_ne]
      · exact (separate pair (.head _) (i, j) (.tail _ later)).symm
      · exact fun same => once.1 (mem_map.mpr ⟨(i, j), later, same⟩)

lemma Mergeable.disjoint (input : Mergeable a b) (memberA : n ∈ idsOf a) : n ∉ idsOf b := by
  intro memberB
  obtain ⟨x, inA, rfl⟩ := mem_map.mp (Multiset.mem_coe.mp memberA)
  obtain ⟨y, inB, same⟩ := mem_map.mp (Multiset.mem_coe.mp memberB)
  exact input.separate x y (mem_nodes.mp inA) (mem_nodes.mp inB) same.symm

lemma Mergeable.nodup (input : Mergeable a b) : (idsOf a + idsOf b).Nodup := by
  refine (Multiset.nodup_add).mpr ⟨input.left.distinct, input.right.distinct, ?_⟩
  exact Multiset.disjoint_left.mpr fun memberA => input.disjoint memberA

lemma mem_idsOf {c x : CctNode} (below : Reach c x) : x.id ∈ idsOf c :=
  Multiset.mem_coe.mpr (mem_map.mpr ⟨x, mem_nodes.mpr below, rfl⟩)

lemma mem_of_call (input : Mergeable a b) {pair : ℕ × ℕ} (call : pair ∈ mergeCalls a b) :
    pair.1 ∈ idsOf a ∧ pair.2 ∈ idsOf b := by
  obtain ⟨x, y, ⟨p, atA, atB⟩, -, -, sameX, sameY⟩ := (mem_mergeCalls b input.joinable).mp call
  rw [← sameX, ← sameY]
  exact ⟨mem_idsOf (reach_of_at? atA), mem_idsOf (reach_of_at? atB)⟩

lemma total_merged (input : Mergeable a b) (leaves : ∀ x y, Common a b x y → x.isLeaf ∧ y.isLeaf)
    (table : ℕ → ι → M) (metric : ι) :
    total (merged a b) ((mergeCalls a b).foldl addMetrics table) metric =
      total a table metric + total b table metric := by
  have ids := idsOf_merged b input.joinable
  rw [← consumed_eq_met b input.joinable leaves] at ids
  have distinct : (idsOf (merged a b)).Nodup :=
    nodup_of_le (ids ▸ Multiset.le_add_right _ _) input.nodup
  have into : ∀ pair ∈ mergeCalls a b, pair.1 ∈ idsOf (merged a b) := by
    intro pair call
    obtain ⟨inA, -⟩ := mem_of_call input call
    have either : pair.1 ∈ idsOf (merged a b) + consumed (mergeCalls a b) :=
      ids ▸ Multiset.mem_add.mpr (.inl inA)
    rcases Multiset.mem_add.mp either with here | gone
    · exact here
    · exact absurd (Multiset.mem_of_le (consumed_le input.joinable) gone) (input.disjoint inA)
  have separate : ∀ pair ∈ mergeCalls a b, ∀ other ∈ mergeCalls a b, pair.1 ≠ other.2 := by
    intro pair call other call' same
    exact input.disjoint (mem_of_call input call).1 (same ▸ (mem_of_call input call').2)
  rw [total_eq, total_eq, total_eq, sum_foldl_addMetrics distinct metric _ table into separate,
    ← sum_add, ← Multiset.map_add, ids, Multiset.map_add, sum_add]

/-- The merge operation is applied to every common pair exactly once, and with a metric-adding operation
every total is preserved, exactly when all common nodes are leaves in both trees. -/
theorem hpcrunCctMerge_calls_iff (a b : CctNode) (left right : STree CctNode) (input : Mergeable a b) :
    let out := hpcrunCctMerge a left b right
    ((calls out.trace).Nodup ∧
      (∀ i j, (i, j) ∈ calls out.trace ↔ ∃ p x y, a.at? p = some x ∧ b.at? p = some y ∧ x.id = i ∧ y.id = j) ∧
      ∀ (table : ℕ → ι → M) (metric : ι), total out.dest ((calls out.trace).foldl addMetrics table) metric =
        total a table metric + total b table metric) ↔
      ∀ p x y, a.at? p = some x → b.at? p = some y → x.isLeaf ∧ y.isLeaf := by
  simp only [dest_hpcrunCctMerge, calls_hpcrunCctMerge]
  constructor
  · rintro ⟨-, members, -⟩ p x y atA atB
    obtain ⟨x', y', ⟨q, atA', atB'⟩, leafX, leafY, sameX, sameY⟩ :=
      (mem_mergeCalls b input.joinable).mp ((members x.id y.id).mpr ⟨p, x, y, atA, atB, rfl, rfl⟩)
    have eqX := inj_on_of_nodup_map input.left.distinct (mem_nodes.mpr (reach_of_at? atA'))
      (mem_nodes.mpr (reach_of_at? atA)) sameX
    have eqY := inj_on_of_nodup_map input.right.distinct (mem_nodes.mpr (reach_of_at? atB'))
      (mem_nodes.mpr (reach_of_at? atB)) sameY
    exact ⟨eqX ▸ leafX, eqY ▸ leafY⟩
  · intro leaves
    have leaves' : ∀ x y, Common a b x y → x.isLeaf ∧ y.isLeaf := fun x y ⟨p, atA, atB⟩ => leaves p x y atA atB
    refine ⟨nodup_mergeCalls input, fun i j => ?_, total_merged input leaves'⟩
    rw [mem_mergeCalls b input.joinable]
    constructor
    · rintro ⟨x, y, ⟨p, atA, atB⟩, -, -, same⟩
      exact ⟨p, x, y, atA, atB, same⟩
    · rintro ⟨p, x, y, atA, atB, same⟩
      exact ⟨x, y, ⟨p, atA, atB⟩, (leaves p x y atA atB).1, (leaves p x y atA atB).2, same⟩

end

theorem hpcrunCctMerge_calls_leaves :
    let a := plainNode 0 10 none .nil
    let b := plainNode 2 10 none .nil
    let out := hpcrunCctMerge a .nil b .nil
    (calls out.trace).Nodup ∧
      (∀ i j, (i, j) ∈ calls out.trace ↔ ∃ p x y, a.at? p = some x ∧ b.at? p = some y ∧ x.id = i ∧ y.id = j) ∧
      ∀ (table : ℕ → Unit → ℕ) (metric : Unit),
        total out.dest ((calls out.trace).foldl addMetrics table) metric =
          total a table metric + total b table metric := by
  refine (hpcrunCctMerge_calls_iff (plainNode 0 10 none .nil) (plainNode 2 10 none .nil) .nil .nil
    (by decide)).mpr fun p x y atA atB => ?_
  rcases p with _ | ⟨k, rest⟩
  · cases atA
    cases atB
    exact ⟨rfl, rfl⟩
  · cases atA

/-- The roots of two trees with children are a common pair the operation never sees. -/
theorem interior_pair_is_skipped :
    let a := rootWithChild 0 1 20
    let b := rootWithChild 2 3 30
    Mergeable a b ∧ a.at? [] = some a ∧ b.at? [] = some b ∧
      (a.id, b.id) ∉ calls (hpcrunCctMerge a .nil b .nil).trace := by
  exact ⟨by decide, rfl, rfl, by decide⟩

end HpcToolkit.Cct
