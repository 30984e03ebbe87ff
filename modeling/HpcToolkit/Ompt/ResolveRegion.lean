import HpcToolkit.Ompt.Placeholder

/-! # What a resolution conserves

Where a node of the placeholder's subtree meets a node that is there already, its metrics move only when
both are leaves and the older one has a metric list. Nodes without a counterpart keep theirs. So a
resolution conserves the metrics exactly when nothing but empty metrics is at the other meetings, provided
that the placeholder can be deleted at all: for that the path has to lead to a node with children.
-/

open Function List
open Multiset (mem_add mem_coe mem_map nodup_add sum_add)

namespace HpcToolkit.Ompt

open Lib Cct CctNode

variable {ι M : Type*} [AddCancelCommMonoid M]

/-- The metrics of a node, zero without a list. -/
def valueOf (metrics : ℕ → Option (ι → M)) (n : ℕ) : ι → M := (metrics n).getD 0

def Thread.value (t : Thread ι M) (c : CctNode) (m : ι) : M := valueOf t.metrics c.id m

def Thread.total (t : Thread ι M) (m : ι) : M := Cct.total t.tree (valueOf t.metrics) m

/-! ## The calls of the merge operation -/

section
variable {metrics : ℕ → Option (ι → M)}

lemma mergeMetrics_cases (metrics : ℕ → Option (ι → M)) (call : ℕ × ℕ) :
    (mergeMetrics metrics call = metrics ∧
      (call.1 = call.2 ∨ metrics call.1 = none ∨ metrics call.2 = none)) ∨
    ∃ msetA msetB, metrics call.1 = some msetA ∧ metrics call.2 = some msetB ∧
      mergeMetrics metrics call = update metrics call.1 (some (msetA + msetB)) := by
  rw [mergeMetrics]
  rcases eq_or_ne call.1 call.2 with same | differ
  · rw [if_pos same]
    exact .inl ⟨rfl, .inl same⟩
  · rw [if_neg differ]
    cases metrics call.1 with
    | none => exact .inl ⟨rfl, .inr (.inl rfl)⟩
    | some msetA =>
      cases metrics call.2 with
      | none => exact .inl ⟨rfl, .inr (.inr rfl)⟩
      | some msetB => exact .inr ⟨msetA, msetB, rfl, rfl, rfl⟩

variable {n : ℕ} {call : ℕ × ℕ}

lemma mergeMetrics_of_ne (metrics : ℕ → Option (ι → M)) (other : n ≠ call.1) :
    mergeMetrics metrics call n = metrics n := by
  rcases mergeMetrics_cases metrics call with ⟨same, -⟩ | ⟨msetA, msetB, -, -, updated⟩
  · rw [same]
  · rw [updated, update_of_ne other]

lemma isSome_mergeMetrics (list : (metrics n).isSome) (call : ℕ × ℕ) :
    (mergeMetrics metrics call n).isSome := by
  rcases mergeMetrics_cases metrics call with ⟨same, -⟩ | ⟨msetA, msetB, -, -, updated⟩
  · rwa [same]
  · rw [updated, update_apply]
    split
    · rfl
    · exact list

lemma foldl_mergeMetrics_of_ne (pairs : List (ℕ × ℕ)) (metrics : ℕ → Option (ι → M))
    (other : ∀ call ∈ pairs, n ≠ call.1) : pairs.foldl mergeMetrics metrics n = metrics n := by
  induction pairs generalizing metrics with
  | nil => rfl
  | cons call rest ih =>
    rw [foldl_cons, ih _ fun c member => other c (.tail _ member), mergeMetrics_of_ne _ (other call (.head _))]

lemma mergeMetrics_of_none (absent : metrics call.1 = none) : mergeMetrics metrics call = metrics := by
  rcases mergeMetrics_cases metrics call with ⟨same, -⟩ | ⟨msetA, msetB, present, -⟩
  · exact same
  · rw [absent] at present
    cases present

lemma valueOf_mergeMetrics (differ : call.1 ≠ call.2)
    (kept : valueOf metrics call.2 = 0 ∨ (metrics call.1).isSome) :
    valueOf (mergeMetrics metrics call) = addMetrics (valueOf metrics) call := by
  rcases mergeMetrics_cases metrics call with ⟨same, reason⟩ | ⟨msetA, msetB, listA, listB, updated⟩
  · have nothing : valueOf metrics call.2 = 0 := by
      rcases reason with equal | noA | noB
      · exact absurd equal differ
      · exact kept.resolve_right (by simp [noA])
      · rw [valueOf, noB, Option.getD_none]
    rw [same, addMetrics, nothing, add_zero, update_eq_self]
  · funext n
    rw [valueOf, updated, addMetrics, update_apply, update_apply]
    split
    · rw [Option.getD_some, valueOf, valueOf, listA, listB, Option.getD_some, Option.getD_some]
    · rfl

lemma valueOf_foldl_mergeMetrics (pairs : List (ℕ × ℕ)) (metrics : ℕ → Option (ι → M))
    (separate : ∀ call ∈ pairs, ∀ other ∈ pairs, call.1 ≠ other.2)
    (kept : ∀ call ∈ pairs, valueOf metrics call.2 = 0 ∨ (metrics call.1).isSome) :
    valueOf (pairs.foldl mergeMetrics metrics) = pairs.foldl addMetrics (valueOf metrics) := by
  induction pairs generalizing metrics with
  | nil => rfl
  | cons call rest ih =>
    have differ : call.1 ≠ call.2 := separate call (.head _) call (.head _)
    rw [foldl_cons, foldl_cons, ih, valueOf_mergeMetrics differ (kept call (.head _))]
    · exact fun c member d memberD => separate c (.tail _ member) d (.tail _ memberD)
    · intro c member
      have source : c.2 ≠ call.1 := (separate call (.head _) c (.tail _ member)).symm
      rw [valueOf, mergeMetrics_of_ne metrics source]
      exact (kept c (.tail _ member)).imp id fun list => isSome_mergeMetrics list call

lemma foldl_mergeMetrics_of_none (pairs : List (ℕ × ℕ)) (metrics : ℕ → Option (ι → M))
    (absent : metrics n = none) : pairs.foldl mergeMetrics metrics n = none := by
  induction pairs generalizing metrics with
  | nil => exact absent
  | cons call rest ih =>
    refine ih _ ?_
    rcases eq_or_ne n call.1 with rfl | other
    · rw [mergeMetrics_of_none absent, absent]
    · rw [mergeMetrics_of_ne metrics other, absent]

end

/-! ## Below the parent of the placeholder -/

section
variable {metrics : ℕ → Option (ι → M)} {path : List PathNode} {region : CctAddr} {parent cct leaf : CctNode}

/-- The meeting of `x` with the placeholder's `y` loses nothing. -/
def Kept (metrics : ℕ → Option (ι → M)) (x y : CctNode) : Prop :=
  valueOf metrics y.id = 0 ∨ x.isLeaf ∧ y.isLeaf ∧ (metrics x.id).isSome

/-- The metrics after the calls of a merge. -/
abbrev afterMerge (metrics : ℕ → Option (ι → M)) (leaf cct : CctNode) : ℕ → Option (ι → M) :=
  (mergeCalls leaf cct).foldl mergeMetrics metrics

lemma valueOf_afterMerge (reaches : Reaches path region parent cct leaf)
    (kept : ∀ x y, Common leaf cct x y → Kept metrics x y) :
    valueOf (afterMerge metrics leaf cct) = (mergeCalls leaf cct).foldl addMetrics (valueOf metrics) := by
  refine valueOf_foldl_mergeMetrics _ metrics reaches.separate_calls fun call member => ?_
  obtain ⟨x, y, common, -, -, sameX, sameY⟩ := reaches.mem_calls.mp member
  rw [← sameX, ← sameY]
  exact (kept x y common).imp id fun both => both.2.2

variable {x y : CctNode}

section
variable (reaches : Reaches path region parent cct leaf)
include reaches

lemma value_of_meeting
    (kept : ∀ x y, Common leaf cct x y → Kept metrics x y) (common : Common leaf cct x y) :
    valueOf (afterMerge metrics leaf cct) x.id = valueOf metrics x.id + valueOf metrics y.id := by
  rw [valueOf_afterMerge reaches kept]
  rcases em ((x.id, y.id) ∈ mergeCalls leaf cct) with call | noCall
  · exact foldl_addMetrics_of_mem _ _ reaches.nodup_targets reaches.separate_calls call
  · have nothing : valueOf metrics y.id = 0 := by
      refine (kept x y common).resolve_right fun both => noCall ?_
      exact reaches.mem_calls.mpr ⟨x, y, common, both.1, both.2.1, rfl, rfl⟩
    rw [nothing, add_zero]
    refine foldl_addMetrics_of_ne _ _ fun call member same => noCall ?_
    obtain ⟨x', y', common', leafX, leafY, sameX, sameY⟩ := reaches.mem_calls.mp member
    obtain ⟨rfl, rfl⟩ := reaches.meeting_unique common common' (same.trans sameX.symm)
    exact reaches.mem_calls.mpr ⟨x, y, common, leafX, leafY, rfl, rfl⟩

lemma kept_of_value (common : Common leaf cct x y)
    (adds : valueOf (afterMerge metrics leaf cct) x.id = valueOf metrics x.id + valueOf metrics y.id) :
    Kept metrics x y := by
  rcases em (x.isLeaf ∧ y.isLeaf ∧ (metrics x.id).isSome) with moved | lost
  · exact .inr moved
  · refine .inl ?_
    have unchanged : afterMerge metrics leaf cct x.id = metrics x.id := by
      cases list : metrics x.id with
      | none => exact foldl_mergeMetrics_of_none _ metrics list
      | some mset =>
        rw [← list]
        refine foldl_mergeMetrics_of_ne _ metrics fun call member same => lost ?_
        obtain ⟨x', y', common', leafX, leafY, sameX, -⟩ := reaches.mem_calls.mp member
        obtain ⟨rfl, rfl⟩ := reaches.meeting_unique common common' (same.trans sameX.symm)
        exact ⟨leafX, leafY, by rw [list]; rfl⟩
    rw [valueOf, unchanged, ← valueOf] at adds
    exact left_eq_add.mp adds

lemma value_of_moved {q : List CctAddr} {y : CctNode}
    (below : cct.at? q = some y) : valueOf (afterMerge metrics leaf cct) y.id = valueOf metrics y.id := by
  have unchanged : afterMerge metrics leaf cct y.id = metrics y.id := by
    refine foldl_mergeMetrics_of_ne _ metrics fun call member same => ?_
    obtain ⟨x, y', common, -, -, sameX, -⟩ := reaches.mem_calls.mp member
    exact reaches.separate common below (sameX.trans same.symm)
  rw [valueOf, unchanged, ← valueOf]

lemma sum_afterMerge
    (kept : ∀ x y, Common leaf cct x y → Kept metrics x y) {nodes : Multiset ℕ}
    (distinct : (nodes + met leaf cct).Nodup) (into : idsOf leaf ≤ nodes + met leaf cct) (m : ι) :
    (nodes.map fun n => valueOf (afterMerge metrics leaf cct) n m).sum =
      ((nodes + met leaf cct).map fun n => valueOf metrics n m).sum := by
  have apart := (nodup_add.mp distinct).2.2
  have targets : ∀ call ∈ mergeCalls leaf cct, call.1 ∈ nodes := by
    intro call member
    obtain ⟨x, y, ⟨p, atX, atY⟩, -, -, sameX, -⟩ := reaches.mem_calls.mp member
    have inLeaf : call.1 ∈ idsOf leaf := sameX ▸ mem_idsOf (reach_of_at? atX)
    refine (mem_add.mp (Multiset.mem_of_le into inLeaf)).resolve_right fun inMet => ?_
    obtain ⟨x', y', ⟨q, -, atY'⟩, sameY⟩ := (mem_met cct reaches.joinable.right).mp inMet
    exact reaches.separate ⟨p, atX, atY⟩ atY' (sameX.trans sameY.symm)
  obtain ⟨idle, split⟩ := Multiset.le_iff_exists_add.mp (consumed_le_met cct reaches.joinable)
  have nothing : (idle.map fun n => valueOf metrics n m).sum = 0 := by
    refine Multiset.sum_eq_zero fun value member => ?_
    obtain ⟨n, inIdle, rfl⟩ := mem_map.mp member
    have inMet : n ∈ met leaf cct := split ▸ mem_add.mpr (.inr inIdle)
    obtain ⟨x, y, common, rfl⟩ := (mem_met cct reaches.joinable.right).mp inMet
    refine congrFun ((kept x y common).resolve_right fun both => ?_) m
    have once : (consumed (mergeCalls leaf cct) + idle).Nodup := split ▸ (nodup_add.mp distinct).2.1
    refine Multiset.disjoint_left.mp (nodup_add.mp once).2.2 ?_ inIdle
    refine mem_coe.mpr (mem_map.mpr ⟨(x.id, y.id), ?_, rfl⟩)
    exact reaches.mem_calls.mpr ⟨x, y, common, both.1, both.2.1, rfl, rfl⟩
  rw [valueOf_afterMerge reaches kept,
    sum_foldl_addMetrics (nodup_add.mp distinct).1 m _ _ targets reaches.separate_calls, split,
    Multiset.map_add, Multiset.map_add, sum_add, sum_add, nothing, add_zero]

end

end

/-! ## The thread's tree -/

/-- `cct` is the placeholder of a region, a child of `parent`; a region is not nested in itself. -/
structure Placeholder (t : Thread ι M) (parentPath : List CctAddr) (region : CctAddr) (parent cct : CctNode) : Prop where
  wellFormed : t.tree.WellFormed
  isUnresolved : region.lmId = unresolved
  atParent : t.tree.at? parentPath = some parent
  atRegion : parent.child? region = some cct
  unnested : cct.child? region = none

/-- Where the region path goes below the parent. -/
def insertedPath (t : Thread ι M) (path : RegionPath) (parent : CctNode) : List PathNode :=
  path.toInsert (parent.id == t.threadRoot)

/-- The resolution of a placeholder conserves: every total is as before, each of its nodes has what it had, added
to what was there, below the resolved path, the subtrees of the other placeholders are as they were, and
the placeholder is gone. -/
structure Conserves (t t' : Thread ι M) (parentPath path : List CctAddr) (region : CctAddr) (cct : CctNode) : Prop where
  totals : ∀ m, t'.total m = t.total m
  below : ∀ q y, cct.at? q = some y → ∃ z, t'.tree.at? (parentPath ++ (path ++ q)) = some z ∧
    ∀ m, t'.value z m = (t.tree.at? (parentPath ++ (path ++ q))).elim 0 (t.value · m) + t.value y m
  others : ∀ q v, t.tree.at? q = some v → v.addr.lmId = unresolved → ¬q <+: parentPath →
    ¬parentPath ++ [region] <+: q → (∀ s, q = parentPath ++ (path ++ s) → cct.at? s = none) →
    t'.tree.at? q = some v ∧ ∀ x, Reach v x → t'.metrics x.id = t.metrics x.id
  deleted : t'.tree.at? (parentPath ++ [region]) = none

/-- The path leads to a node with children, and the nodes of the placeholder that meet others lose nothing. -/
def Absorbed (t : Thread ι M) (parentPath path : List CctAddr) (cct : CctNode) : Prop :=
  ∃ leaf, t.tree.at? (parentPath ++ path) = some leaf ∧ leaf.children ≠ .nil ∧
    ∀ q x y, leaf.at? q = some x → cct.at? q = some y →
      (∀ m, t.value y m = 0) ∨ x.isLeaf ∧ y.isLeaf ∧ (t.metrics x.id).isSome

section
variable {t : Thread ι M} {parentPath : List CctAddr} {region : CctAddr} {parent cct leaf : CctNode}

lemma RegionPath.not_mem_toInsert (path : RegionPath) (atRoot : Bool) (isUnresolved : region.lmId = unresolved) :
    region ∉ addrs (path.toInsert atRoot) := by
  intro member
  obtain ⟨n, inPath, rfl⟩ := mem_map.mp member
  rw [RegionPath.toInsert] at inPath
  split at inPath
  · exact path.resolved n (mem_of_mem_tail inPath) isUnresolved
  · obtain ⟨n', inNodes, rfl⟩ := mem_map.mp inPath
    exact path.resolved n' inNodes isUnresolved

namespace Placeholder
variable (placeholder : Placeholder t parentPath region parent cct) (alloc : ℕ → ℕ) (path : RegionPath)
include placeholder

omit [AddCancelCommMonoid M] in
lemma parent_wellFormed : parent.WellFormed := placeholder.wellFormed.at? placeholder.atParent

omit [AddCancelCommMonoid M] in
lemma apart : region ∉ addrs (insertedPath t path parent) :=
  path.not_mem_toInsert _ placeholder.isUnresolved

lemma tree_resolved : (tryResolveOneRegionContext alloc path parentPath region t).tree =
    updateAt (fun c => (resolveUnder alloc (insertedPath t path parent) region c).1) parentPath t.tree := by
  simp only [tryResolveOneRegionContext, placeholder.atParent]
  rfl

lemma at?_tree_resolved (q : List CctAddr) :
    (tryResolveOneRegionContext alloc path parentPath region t).tree.at? (parentPath ++ q) =
      (resolveUnder alloc (insertedPath t path parent) region parent).1.at? q := by
  rw [placeholder.tree_resolved alloc path,
    at?_updateAt_append (fun c => info_resolveUnder alloc _ region c), placeholder.atParent]
  rfl

omit [AddCancelCommMonoid M] in
lemma at?_tree (q : List CctAddr) : t.tree.at? (parentPath ++ q) = parent.at? q := by
  rw [at?_append, placeholder.atParent, Option.bind_some]

lemma reaches_of_deleted
    (deleted : (tryResolveOneRegionContext alloc path parentPath region t).tree.at? (parentPath ++ [region]) = none) :
    ∃ leaf, Reaches (insertedPath t path parent) region parent cct leaf := by
  by_contra missing
  have childless : ∀ x, parent.at? (addrs (insertedPath t path parent)) = some x → x.children = .nil := by
    intro x found
    by_contra children
    exact missing ⟨x, placeholder.parent_wellFormed, placeholder.atRegion, placeholder.unnested,
      placeholder.apart path, found, children⟩
  have stays := child?_resolveUnder_of_childless alloc placeholder.parent_wellFormed placeholder.atRegion
    (placeholder.apart path) childless
  rw [placeholder.at?_tree_resolved alloc path, at?] at deleted
  obtain ⟨x, found⟩ := Option.ne_none_iff_exists'.mp stays
  rw [found] at deleted
  cases deleted

/-! ### A path that leads to a node with children -/

variable {path}
variable (reaches : Reaches (insertedPath t path parent) region parent cct leaf)
include reaches

lemma metrics_resolved : (tryResolveOneRegionContext alloc path parentPath region t).metrics =
    afterMerge t.metrics leaf cct := by
  simp only [tryResolveOneRegionContext, placeholder.atParent]
  rw [← insertedPath, reaches.resolveUnder_eq alloc]

variable {q : List CctAddr}

omit [AddCancelCommMonoid M] in
lemma common_of_at? {x : CctNode} (found : leaf.at? q = some x) :
    t.tree.at? (parentPath ++ (addrs (insertedPath t path parent) ++ q)) = some x := by
  rw [placeholder.at?_tree, at?_append, reaches.atLeaf, Option.bind_some, found]

lemma exists_below {y : CctNode} (below : cct.at? q = some y) :
    ∃ z, (tryResolveOneRegionContext alloc path parentPath region t).tree.at?
        (parentPath ++ (addrs (insertedPath t path parent) ++ q)) = some z ∧
      z.id = (leaf.at? q).elim y.id CctNode.id := by
  rw [placeholder.at?_tree_resolved alloc path]
  have merges : ∃ z, (merged leaf cct).at? q = some z ∧ z.id = (leaf.at? q).elim y.id CctNode.id := by
    cases atLeaf : leaf.at? q with
    | some x => exact ⟨merged x y, at?_merged_common q reaches.joinable atLeaf below, id_merged x y⟩
    | none => exact at?_merged_right q reaches.joinable atLeaf below
  have nonRegion : ∀ s, q ≠ region :: s := by
    rintro s rfl
    rw [at?, reaches.unnested] at below
    cases below
  cases list : addrs (insertedPath t path parent) ++ q with
  | nil =>
    obtain ⟨empty, rfl⟩ := append_eq_nil_iff.mp list
    obtain ⟨z, found, same⟩ := reaches.at?_resolved_leaf alloc
    rw [empty] at found
    exact ⟨z, found, same⟩
  | cons j s =>
    rw [← list, reaches.at?_resolved_below alloc list]
    · exact merges
    · rintro rfl
      cases inserted : addrs (insertedPath t path parent) with
      | nil => exact nonRegion s (by rw [← list, inserted, nil_append])
      | cons k ks =>
        rw [inserted, cons_append] at list
        exact reaches.apart (by rw [inserted, (cons.inj list).1]; exact .head _)

lemma totals_resolved (kept : ∀ x y, Common leaf cct x y → Kept t.metrics x y) (m : ι) :
    (tryResolveOneRegionContext alloc path parentPath region t).total m = t.total m := by
  set t' := tryResolveOneRegionContext alloc path parentPath region t with isResolved
  have exchanged : idsOf t'.tree + idsOf parent =
      idsOf t.tree + idsOf (resolveUnder alloc (insertedPath t path parent) region parent).1 := by
    rw [isResolved, placeholder.tree_resolved alloc path]
    exact idsOf_updateAt parentPath placeholder.wellFormed.ordered placeholder.atParent
  have lost := reaches.idsOf_resolved alloc
  have nodes : idsOf t'.tree + met leaf cct = idsOf t.tree := by
    refine add_right_cancel (b := idsOf (resolveUnder alloc (insertedPath t path parent) region parent).1) ?_
    rw [← exchanged, ← lost]
    abel
  have distinct : (idsOf t'.tree + met leaf cct).Nodup := nodes ▸ placeholder.wellFormed.distinct
  have into : idsOf leaf ≤ idsOf t'.tree + met leaf cct := by
    rw [nodes]
    refine (Multiset.le_iff_subset ?_).mpr fun n member => ?_
    · exact (placeholder.parent_wellFormed.at? reaches.atLeaf).distinct
    · obtain ⟨x, inLeaf, rfl⟩ := mem_map.mp (mem_coe.mp member)
      have reached : Reach t.tree leaf := reach_of_at? (placeholder.common_of_at? reaches (q := []) rfl)
      exact mem_idsOf (reached.trans (mem_nodes.mp inLeaf))
  rw [Thread.total, Thread.total, total_eq, total_eq, isResolved, placeholder.metrics_resolved alloc reaches,
    ← isResolved, sum_afterMerge reaches kept distinct into, nodes]

lemma below_resolved (kept : ∀ x y, Common leaf cct x y → Kept t.metrics x y) {y : CctNode}
    (below : cct.at? q = some y) :
    ∃ z, (tryResolveOneRegionContext alloc path parentPath region t).tree.at?
        (parentPath ++ (addrs (insertedPath t path parent) ++ q)) = some z ∧
      ∀ m, (tryResolveOneRegionContext alloc path parentPath region t).value z m =
        (t.tree.at? (parentPath ++ (addrs (insertedPath t path parent) ++ q))).elim 0 (t.value · m) +
          t.value y m := by
  obtain ⟨z, found, same⟩ := placeholder.exists_below alloc reaches below
  refine ⟨z, found, fun m => ?_⟩
  rw [Thread.value, same, placeholder.metrics_resolved alloc reaches, placeholder.at?_tree, at?_append,
    reaches.atLeaf, Option.bind_some]
  cases atLeaf : leaf.at? q with
  | some x => exact congrFun (value_of_meeting reaches kept ⟨q, atLeaf, below⟩) m
  | none =>
    rw [Option.elim_none, Option.elim_none, zero_add, value_of_moved reaches below]
    rfl

lemma kept_of_below
    (adds : ∀ q y, cct.at? q = some y → ∃ z,
      (tryResolveOneRegionContext alloc path parentPath region t).tree.at?
        (parentPath ++ (addrs (insertedPath t path parent) ++ q)) = some z ∧
      ∀ m, (tryResolveOneRegionContext alloc path parentPath region t).value z m =
        (t.tree.at? (parentPath ++ (addrs (insertedPath t path parent) ++ q))).elim 0 (t.value · m) + t.value y m)
    {x y : CctNode} (common : Common leaf cct x y) : Kept t.metrics x y := by
  obtain ⟨q, atLeaf, below⟩ := common
  obtain ⟨z, found, sum⟩ := adds q y below
  obtain ⟨z', found', same⟩ := placeholder.exists_below alloc reaches below
  obtain rfl := Option.some.inj (found.symm.trans found')
  refine kept_of_value reaches ⟨q, atLeaf, below⟩ (funext fun m => ?_)
  have here := sum m
  rw [Thread.value, same, placeholder.metrics_resolved alloc reaches, placeholder.common_of_at? reaches atLeaf,
    atLeaf] at here
  exact here

lemma deleted_resolved :
    (tryResolveOneRegionContext alloc path parentPath region t).tree.at? (parentPath ++ [region]) = none := by
  rw [placeholder.at?_tree_resolved alloc path, at?, reaches.child?_resolved alloc, if_pos rfl]
  rfl

lemma others_resolved {v : CctNode} (found : t.tree.at? q = some v)
    (isPlaceholder : v.addr.lmId = unresolved) (notAbove : ¬q <+: parentPath)
    (notInside : ¬parentPath ++ [region] <+: q)
    (notMet : ∀ s, q = parentPath ++ (addrs (insertedPath t path parent) ++ s) → cct.at? s = none) :
    (tryResolveOneRegionContext alloc path parentPath region t).tree.at? q = some v ∧
      ∀ x, Reach v x → (tryResolveOneRegionContext alloc path parentPath region t).metrics x.id = t.metrics x.id := by
  have offPath : v.addr ∉ addrs (insertedPath t path parent) := path.not_mem_toInsert _ isPlaceholder
  constructor
  · rcases em (parentPath <+: q) with ⟨s, rfl⟩ | apart
    · cases s with
      | nil => exact absurd (by rw [append_nil]) notAbove
      | cons j s =>
        have other : j ≠ region := by
          rintro rfl
          exact notInside ⟨s, by rw [append_assoc, singleton_append]⟩
        rw [placeholder.at?_tree] at found
        have before : ¬j :: s <+: addrs (insertedPath t path parent) := fun onPath =>
          offPath (onPath.subset (addr_mem_of_at? _ found (cons_ne_nil j s)))
        rw [placeholder.at?_tree_resolved alloc path]
        rcases em (addrs (insertedPath t path parent) <+: j :: s) with ⟨r, shape⟩ | after
        · have notBelow := notMet r (by rw [shape])
          rw [← shape, at?_append, reaches.atLeaf, Option.bind_some] at found
          rw [← shape, reaches.at?_resolved_below alloc shape other]
          exact at?_merged_left r reaches.joinable found notBelow
        · rw [reaches.at?_resolved_off alloc s other before after, found]
    · rw [placeholder.tree_resolved alloc path,
        at?_updateAt_off (fun c => info_resolveUnder alloc _ region c) _ _ _ notAbove apart, found]
  · intro x below
    rw [placeholder.metrics_resolved alloc reaches]
    refine foldl_mergeMetrics_of_ne _ _ fun call member same => ?_
    obtain ⟨x', y, ⟨p, atX', atY⟩, -, -, sameX, -⟩ := reaches.mem_calls.mp member
    obtain ⟨r, atX⟩ := (placeholder.wellFormed.at? found).ordered.exists_at? below
    have inTree : t.tree.at? (q ++ r) = some x := by rw [at?_append, found, Option.bind_some, atX]
    have position := at?_injective _ placeholder.wellFormed inTree (placeholder.common_of_at? reaches atX')
      (same.trans sameX.symm)
    rcases prefix_or_prefix_of_prefix ⟨r, position⟩ ⟨_, rfl⟩ with above | ⟨s, rfl⟩
    · exact notAbove above
    · rw [append_assoc, append_cancel_left_eq] at position
      have nonempty : s ≠ [] := by
        rintro rfl
        exact notAbove (by rw [append_nil])
      rw [placeholder.at?_tree] at found
      rcases prefix_or_prefix_of_prefix ⟨r, position⟩ ⟨p, rfl⟩ with onPath | ⟨u, rfl⟩
      · exact offPath (onPath.subset (addr_mem_of_at? _ found nonempty))
      · rw [append_assoc, append_cancel_left_eq] at position
        rw [← position, at?_append, notMet u rfl] at atY
        cases atY

end Placeholder

end

/-- The address of the placeholder for a region. -/
def regionAddr (regionId : UInt64) : CctAddr := ⟨unresolved, regionId⟩

/-- A placeholder with one sampled context below it. -/
def placeholderNode (id : ℕ) (regionId : UInt64) (sample : ℕ) (lmIp : UInt64) : CctNode :=
  node ⟨id, regionAddr regionId, false, true, some 0⟩ (.node .nil (plainNode sample lmIp (some id) .nil) .nil)

/-- The path of a region called at 20 from the thread root. -/
def oneCall : RegionPath where
  nodes := [⟨⟨1, 10⟩, true⟩, ⟨⟨1, 20⟩, true⟩]
  nonempty := cons_ne_nil _ _
  resolved := by decide

/-- A thread whose calling context tree has the call at 20 with a context below it, and a placeholder. -/
def calledThread : Thread Unit ℕ where
  tree := plainNode 0 10 none (.node
    (.node .nil (plainNode 1 20 (some 0) (.node .nil (plainNode 2 30 (some 1) .nil) .nil)) .nil)
    (placeholderNode 3 7 4 40) .nil)
  metrics := fun n => if n = 4 then some fun _ => 5 else none
  threadRoot := 0

/-- A thread that knows nothing but two placeholders. -/
def waitingThread : Thread Unit ℕ where
  tree := plainNode 0 10 none (.node .nil (placeholderNode 1 7 2 40) (.node .nil (placeholderNode 3 9 4 50) .nil))
  metrics := fun n => if n = 2 then some fun _ => 3 else if n = 4 then some fun _ => 5 else none
  threadRoot := 0

end HpcToolkit.Ompt
