import HpcToolkit.Cct.Edit

/-! # Resolving the placeholder of a deferred region

A thread that samples inside a parallel region whose call path is not known yet hangs its contexts below
a placeholder. When the region's path arrives, `try_resolve_one_region_context` inserts it next to the
placeholder, merges the placeholder's subtree into the node the path leads to, and deletes the
placeholder. The deletion goes through the parent pointer of the placeholder. The merge leaves that
pointer alone when the node reached has children, and redirects it to that node when it has none.
-/

open List

namespace HpcToolkit.Ompt

open Lib Cct CctNode

def unresolved : UInt16 := 65436

/-- `region_data->call_path`, outermost node first, when it is there and resolved. -/
structure RegionPath where
  nodes : List PathNode
  nonempty : nodes ≠ []
  resolved : ∀ n ∈ nodes, n.addr.lmId ≠ unresolved

/-- What is inserted below the placeholder's parent: `hpcrun_cct_insert_path_return_leaf` leaves out the top of
the path, `hpcrun_cct_insert_path_return_leaf_tmp` inserts all of it as unwound. -/
def RegionPath.toInsert (path : RegionPath) (parentIsThreadRoot : Bool) : List PathNode :=
  if parentIsThreadRoot then path.nodes.tail else path.nodes.map fun n => { n with unwound := true }

variable {ι M : Type*}

/-- A thread's calling context tree, the metrics of its nodes where they have a list, and the node its
contexts start from. -/
structure Thread (ι M : Type*) where
  tree : CctNode
  metrics : ℕ → Option (ι → M)
  threadRoot : ℕ

/-- `merge_metrics`, on integers and on reals. -/
def mergeMetrics [Add M] (metrics : ℕ → Option (ι → M)) (call : ℕ × ℕ) : ℕ → Option (ι → M) :=
  if call.1 = call.2 then metrics
  else
    match metrics call.1, metrics call.2 with
    | some msetA, some msetB => Function.update metrics call.1 (some (msetA + msetB))
    | _, _ => metrics

/-- `hpcrun_cct_delete_self` on the child `cct` of `parent`, after a merge into the node at `path`. -/
def hpcrunCctDeleteSelf (path : List CctAddr) (cct parent : CctNode) : CctNode :=
  match path with
  | [] => parent.setChildren (hpcrunCctDeleteAddr parent.children cct.addr)
  | k :: rest =>
    -- `cct->parent` is the node merged into: nothing is unlinked from `parent`, but the sibling links go
    if (parent.at? (k :: rest)).map CctNode.id = cct.info.parent then
      let parent := updateAt (fun c => c.setChildren (hpcrunCctDeleteAddr c.children cct.addr)) (k :: rest) parent
      parent.setChildren (STree.replaceAt addr cct.addr
        (.node .nil (.node { cct.info with parent := none } cct.children) .nil) parent.children)
    else parent.setChildren (hpcrunCctDeleteAddr parent.children cct.addr)

/-- The resolving part on the subtree of the placeholder's parent: the tree and the calls of the merge
operation. -/
def resolveUnder (alloc : ℕ → ℕ) (path : List PathNode) (region : CctAddr) (parent : CctNode) :
    CctNode × List (ℕ × ℕ) :=
  let grown := hpcrunCctInsertPath alloc path parent
  match STree.subtreeAt addr region grown.children with
  | .nil => (grown, [])
  | .node left cct right =>
    match grown.at? (addrs path) with
    | none => (grown, [])
    | some leaf =>
      if leaf.id = cct.id then (grown, [])
      else
        let out := hpcrunCctMerge leaf left cct right
        let joined := updateAt (fun c => (hpcrunCctMerge c left cct right).dest) (addrs path) grown
        match out.remaining with
        | .nil => (joined, calls out.trace)
        | .node _ cct _ => (hpcrunCctDeleteSelf (addrs path) cct joined, calls out.trace)

/-- The resolving part of `try_resolve_one_region_context`, for the placeholder with address `region` below the
node at `parentPath`. -/
def tryResolveOneRegionContext [Add M] (alloc : ℕ → ℕ) (path : RegionPath) (parentPath : List CctAddr)
    (region : CctAddr) (t : Thread ι M) : Thread ι M :=
  match t.tree.at? parentPath with
  | none => t
  | some parent =>
    let nodes := path.toInsert (parent.id == t.threadRoot)
    { t with
      tree := updateAt (fun c => (resolveUnder alloc nodes region c).1) parentPath t.tree
      metrics := (resolveUnder alloc nodes region parent).2.foldl mergeMetrics t.metrics }

@[simp] lemma info_hpcrunCctDeleteSelf (path : List CctAddr) (cct parent : CctNode) :
    (hpcrunCctDeleteSelf path cct parent).info = parent.info := by
  unfold hpcrunCctDeleteSelf
  split
  · rfl
  · split <;> rfl

@[simp] lemma info_resolveUnder (alloc : ℕ → ℕ) (path : List PathNode) (region : CctAddr) (parent : CctNode) :
    (resolveUnder alloc path region parent).1.info = parent.info := by
  have keeps : ∀ left cct right, ∀ c : CctNode, (hpcrunCctMerge c left cct right).dest.info = c.info := by
    intro left cct right c
    rw [dest_hpcrunCctMerge, info_merged]
  simp only [resolveUnder]
  split
  · exact info_hpcrunCctInsertPath alloc path parent
  · split
    · exact info_hpcrunCctInsertPath alloc path parent
    · split
      · exact info_hpcrunCctInsertPath alloc path parent
      · split
        · rw [info_updateAt (keeps _ _ _), info_hpcrunCctInsertPath]
        · rw [info_hpcrunCctDeleteSelf, info_updateAt (keeps _ _ _), info_hpcrunCctInsertPath]

/-! ## The placeholder after the merge -/

section
variable {a b : CctNode} {left right : STree CctNode}

variable (b left right) in
lemma remaining_of_children (children : a.children ≠ .nil) :
    ∃ rest, (hpcrunCctMerge a left b right).remaining = .node left (node b.info rest) right := by
  obtain ⟨info, own⟩ := b
  cases shape : a.children with
  | nil => exact absurd shape children
  | node l x r =>
    simp only [hpcrunCctMerge, shape]
    exact ⟨_, rfl⟩

lemma remaining_of_childless (childless : a.children = .nil) :
    (hpcrunCctMerge a left b right).remaining =
      (STree.node left (node b.info .nil) right).map (setParent a.id) := by
  obtain ⟨info, own⟩ := b
  simp only [hpcrunCctMerge, childless, info_node]

end

/-! ## Below the parent -/

section
variable {parent cct leaf : CctNode} {region : CctAddr} {path : List PathNode} (alloc : ℕ → ℕ)

lemma info_merge (left right : STree CctNode) (b c : CctNode) : (hpcrunCctMerge c left b right).dest.info = c.info := by
  rw [dest_hpcrunCctMerge, info_merged]

lemma region_ne_head {frm : PathNode} {rest : List PathNode} (apart : region ∉ addrs (frm :: rest)) :
    region ≠ frm.addr := by
  rintro rfl
  exact apart (by simp [addrs])

lemma child?_grown (ordered : parent.children.Ordered addr) (atRegion : parent.child? region = some cct)
    (apart : region ∉ addrs path) :
    (hpcrunCctInsertPath alloc path parent).children.Ordered addr ∧
      (hpcrunCctInsertPath alloc path parent).child? region = some cct := by
  cases path with
  | nil => exact ⟨ordered, atRegion⟩
  | cons frm rest =>
    obtain ⟨orderedG, child⟩ := child?_hpcrunCctInsertPath ordered alloc frm rest
    rw [child, if_neg (region_ne_head apart)]
    exact ⟨orderedG, atRegion⟩

/-- The region path is there already and leads to a node with children. -/
structure Reaches (path : List PathNode) (region : CctAddr) (parent cct leaf : CctNode) : Prop where
  wellFormed : parent.WellFormed
  atRegion : parent.child? region = some cct
  unnested : cct.child? region = none
  apart : region ∉ addrs path
  atLeaf : parent.at? (addrs path) = some leaf
  children : leaf.children ≠ .nil

/-- The tree below the parent before the placeholder is deleted. -/
def joined (path : List PathNode) (cct parent : CctNode) : CctNode :=
  updateAt (fun c => merged c cct) (addrs path) (hpcrunCctInsertPath alloc path parent)

namespace Reaches
variable (reaches : Reaches path region parent cct leaf)
include reaches

lemma joinable : Joinable leaf cct :=
  ⟨(reaches.wellFormed.at? reaches.atLeaf).ordered, reaches.wellFormed.ordered.child reaches.atRegion⟩

lemma at?_joined (q : List CctAddr) :
    (joined alloc path cct parent).at? (addrs path ++ q) = (merged leaf cct).at? q := by
  have atLeaf := (at?_hpcrunCctInsertPath_of_some path alloc reaches.wellFormed.ordered reaches.atLeaf).1 []
  rw [append_nil] at atLeaf
  rw [joined, at?_updateAt_append (fun c => info_merged c cct), atLeaf]
  rfl

lemma child?_joined : (joined alloc path cct parent).children.Ordered addr ∧
    (joined alloc path cct parent).child? region = some cct := by
  obtain ⟨ordered, atRegion⟩ := child?_grown alloc (reaches.wellFormed.ordered _ .refl) reaches.atRegion reaches.apart
  have apart := reaches.apart
  have atLeaf := reaches.atLeaf
  have joinable := reaches.joinable
  cases path with
  | nil =>
    cases atLeaf
    refine ⟨ordered_children_merged joinable.orderedA joinable.orderedB, ?_⟩
    rw [joined, addrs, map_nil, updateAt, hpcrunCctInsertPath,
      child?_merged joinable.orderedA joinable.orderedB, reaches.atRegion, reaches.unnested]
  | cons frm rest =>
    have keeps : ∀ c, (merged c cct).info = c.info := fun c => info_merged c cct
    refine ⟨?_, ?_⟩
    · exact ordered_updateAt keeps _ _ ordered
    · rw [joined, addrs, map_cons, child?_updateAt_cons keeps, if_neg (region_ne_head apart), atRegion]

lemma resolveUnder_eq : resolveUnder alloc path region parent =
    ((joined alloc path cct parent).setChildren
      (hpcrunCctDeleteAddr (joined alloc path cct parent).children region), mergeCalls leaf cct) := by
  obtain ⟨wf, atRegion, unnested, apart, atLeaf, children⟩ := reaches
  obtain ⟨orderedG, atRegionG⟩ := child?_grown alloc (wf.ordered _ .refl) atRegion apart
  obtain ⟨left, right, subtree⟩ := STree.root_subtreeAt addr region orderedG atRegionG
  have atLeafG := (at?_hpcrunCctInsertPath_of_some path alloc wf.ordered atLeaf).1 []
  rw [append_nil] at atLeafG
  have atCct : parent.at? [region] = some cct := by rw [at?, atRegion]; rfl
  have differ : leaf.id ≠ cct.id := by
    intro same
    refine apart ?_
    rw [at?_injective _ wf atLeaf atCct same]
    exact mem_singleton_self region
  have mergeEq : (fun c => (hpcrunCctMerge c left cct right).dest) = fun c => merged c cct :=
    funext fun c => dest_hpcrunCctMerge c cct left right
  obtain ⟨rest, remaining⟩ := remaining_of_children cct left right children
  have atParent : cct.info.parent = some parent.id :=
    (parentsOk_iff.mp wf.parents cct (STree.mem_of_find? addr atRegion)).1
  have addrCct : (node cct.info rest).addr = region := show cct.addr = region from addr_of_child? atRegion
  simp only [resolveUnder, subtree, atLeafG, at?, if_neg differ, mergeEq, remaining, calls_hpcrunCctMerge]
  refine Prod.ext ?_ rfl
  cases path with
  | nil => simp only [hpcrunCctDeleteSelf, addrs, map_nil, addrCct, joined]
  | cons frm frms =>
    have keeps : ∀ c, (merged c cct).info = c.info := fun c => info_merged c cct
    have reached := at?_updateAt_append keeps (addrs (frm :: frms)) []
      (hpcrunCctInsertPath alloc (frm :: frms) parent)
    rw [append_nil, atLeafG] at reached
    have notParent : leaf.id ≠ parent.id := fun same =>
      cons_ne_nil _ _ (at?_injective (q := []) _ wf atLeaf rfl same)
    simp only [addrs, map_cons] at reached ⊢
    rw [hpcrunCctDeleteSelf, reached, if_neg, addrCct]
    · rfl
    · simpa [at?, atParent] using notParent

lemma child?_resolved (q : CctAddr) : (resolveUnder alloc path region parent).1.child? q =
    if q = region then none else (joined alloc path cct parent).child? q := by
  rw [reaches.resolveUnder_eq alloc, child?, children_setChildren,
    find?_hpcrunCctDeleteAddr (reaches.child?_joined alloc).1]
  rfl

variable {j : CctAddr}

lemma at?_resolved (q : List CctAddr) (other : j ≠ region) :
    (resolveUnder alloc path region parent).1.at? (j :: q) = (joined alloc path cct parent).at? (j :: q) := by
  rw [at?, reaches.child?_resolved alloc, if_neg other, at?]

lemma at?_resolved_below {q s : List CctAddr} (shape : addrs path ++ q = j :: s) (other : j ≠ region) :
    (resolveUnder alloc path region parent).1.at? (addrs path ++ q) = (merged leaf cct).at? q := by
  rw [← reaches.at?_joined alloc, shape]
  exact reaches.at?_resolved alloc s other

lemma at?_resolved_leaf :
    ∃ z, (resolveUnder alloc path region parent).1.at? (addrs path) = some z ∧ z.id = leaf.id := by
  have atJoined := reaches.at?_joined alloc []
  have apart := reaches.apart
  have atLeaf := reaches.atLeaf
  rw [append_nil] at atJoined
  cases path with
  | nil =>
    cases atLeaf
    exact ⟨_, rfl, congrArg NodeInfo.id (info_resolveUnder alloc [] region parent)⟩
  | cons frm rest =>
    refine ⟨merged leaf cct, ?_, id_merged leaf cct⟩
    rw [addrs, map_cons, reaches.at?_resolved alloc _ (region_ne_head apart).symm]
    exact atJoined

lemma at?_resolved_off (q : List CctAddr) (other : j ≠ region) (before : ¬j :: q <+: addrs path)
    (after : ¬addrs path <+: j :: q) :
    (resolveUnder alloc path region parent).1.at? (j :: q) = parent.at? (j :: q) := by
  rw [reaches.at?_resolved alloc q other, joined,
    at?_updateAt_off (fun c => info_merged c cct) _ _ _ before after]
  exact (at?_hpcrunCctInsertPath_of_some path alloc reaches.wellFormed.ordered reaches.atLeaf).2.1 _ before

lemma idsOf_resolved : idsOf (resolveUnder alloc path region parent).1 + met leaf cct = idsOf parent := by
  obtain ⟨atLeaf, -, ids, orderedG⟩ :=
    at?_hpcrunCctInsertPath_of_some path alloc reaches.wellFormed.ordered reaches.atLeaf
  have atLeafG := atLeaf []
  rw [append_nil] at atLeafG
  have exchanged : idsOf (joined alloc path cct parent) + idsOf leaf = idsOf parent + idsOf (merged leaf cct) :=
    ids ▸ idsOf_updateAt (f := fun c => merged c cct) (addrs path) orderedG atLeafG
  obtain ⟨ordered, atRegion⟩ := reaches.child?_joined alloc
  have deleted := idsOf_hpcrunCctDeleteAddr ordered atRegion
  have mergedIds := idsOf_merged cct reaches.joinable
  rw [reaches.resolveUnder_eq alloc]
  refine add_right_cancel (b := idsOf leaf + idsOf cct) ?_
  rw [← mergedIds]
  calc _ = (idsOf ((joined alloc path cct parent).setChildren
        (hpcrunCctDeleteAddr (joined alloc path cct parent).children region)) + idsOf cct) + idsOf leaf +
        met leaf cct := by
        rw [mergedIds]
        abel
    _ = _ := by
        rw [deleted, exchanged]
        abel

lemma separate {x y z : CctNode} {q : List CctAddr} (common : Common leaf cct x y) (below : cct.at? q = some z) :
    x.id ≠ z.id := by
  obtain ⟨s, atX, atY⟩ := common
  intro same
  have fromLeaf : parent.at? (addrs path ++ s) = some x := by rw [at?_append, reaches.atLeaf, Option.bind_some, atX]
  have fromRegion : parent.at? (region :: q) = some z := by rw [at?, reaches.atRegion, Option.bind_some, below]
  have position := at?_injective _ reaches.wellFormed fromLeaf fromRegion same
  have apart := reaches.apart
  cases path with
  | nil =>
    have head : s = region :: q := position
    rw [head, at?, reaches.unnested] at atY
    cases atY
  | cons frm rest => exact region_ne_head apart (cons.inj position).1.symm

lemma meeting_unique {x y x' y' : CctNode} (common : Common leaf cct x y) (common' : Common leaf cct x' y')
    (same : x.id = x'.id) : x = x' ∧ y = y' := by
  obtain ⟨p, atX, atY⟩ := common
  obtain ⟨q, atX', atY'⟩ := common'
  obtain rfl := at?_injective p (reaches.wellFormed.at? reaches.atLeaf) atX atX' same
  exact ⟨Option.some.inj (atX.symm.trans atX'), Option.some.inj (atY.symm.trans atY')⟩

lemma mem_calls {i j : ℕ} : (i, j) ∈ mergeCalls leaf cct ↔
    ∃ x y, Common leaf cct x y ∧ x.isLeaf ∧ y.isLeaf ∧ x.id = i ∧ y.id = j :=
  mem_mergeCalls cct reaches.joinable

lemma separate_calls : ∀ call ∈ mergeCalls leaf cct, ∀ other ∈ mergeCalls leaf cct, call.1 ≠ other.2 := by
  intro call memberC other memberO
  obtain ⟨x, y, common, -, -, sameX, -⟩ := reaches.mem_calls.mp memberC
  obtain ⟨x', y', ⟨q, -, atY'⟩, -, -, -, sameY⟩ := reaches.mem_calls.mp memberO
  rw [← sameX, ← sameY]
  exact reaches.separate common atY'

lemma nodup_targets : ((mergeCalls leaf cct).map Prod.fst).Nodup := by
  have distinct : (idsOf cct).Nodup := (reaches.wellFormed.child reaches.atRegion).distinct
  have consumedOnce : ((mergeCalls leaf cct).map Prod.snd).Nodup :=
    Multiset.nodup_of_le (consumed_le reaches.joinable) distinct
  refine (nodup_map_iff_inj_on consumedOnce.of_map).mpr fun call memberC other memberO same => ?_
  obtain ⟨x, y, common, -, -, sameX, sameY⟩ := reaches.mem_calls.mp memberC
  obtain ⟨x', y', common', -, -, sameX', sameY'⟩ := reaches.mem_calls.mp memberO
  obtain ⟨-, rfl⟩ := reaches.meeting_unique common common' (by rw [sameX, sameX', same])
  exact Prod.ext same (sameY.symm.trans sameY')

end Reaches

lemma child?_resolveUnder_of_childless (wf : parent.WellFormed) (atRegion : parent.child? region = some cct)
    (apart : region ∉ addrs path) (childless : ∀ x, parent.at? (addrs path) = some x → x.children = .nil) :
    (resolveUnder alloc path region parent).1.child? region ≠ none := by
  obtain ⟨orderedG, atRegionG⟩ := child?_grown alloc (wf.ordered _ .refl) atRegion apart
  obtain ⟨left, right, subtree⟩ := STree.root_subtreeAt addr region orderedG atRegionG
  obtain ⟨leaf, atLeaf, origin⟩ := at?_hpcrunCctInsertPath path alloc wf.ordered
  have none : leaf.children = .nil := by
    rcases origin with old | ⟨-, new⟩
    · exact childless leaf old
    · exact new
  cases path with
  | nil =>
    rw [child?, childless parent rfl] at atRegion
    cases atRegion
  | cons frm frms =>
    have differ := region_ne_head apart
    simp only [resolveUnder, subtree, atLeaf]
    split
    · rw [atRegionG]
      exact Option.some_ne_none cct
    · simp only [remaining_of_childless none, STree.map]
      have keeps : ∀ c, (hpcrunCctMerge c left cct right).dest.info = c.info := info_merge left right cct
      have reached := at?_updateAt_append keeps (addrs (frm :: frms)) [] (hpcrunCctInsertPath alloc (frm :: frms) parent)
      rw [append_nil, atLeaf, Option.bind_some, at?] at reached
      have idDest : (hpcrunCctMerge leaf left cct right).dest.id = leaf.id := congrArg NodeInfo.id (keeps leaf)
      have keepsDelete : ∀ c : CctNode, (c.setChildren (hpcrunCctDeleteAddr c.children region)).info = c.info :=
        fun c => rfl
      have addrCct : (node cct.info .nil).addr = region := show cct.addr = region from addr_of_child? atRegion
      simp only [addrs, map_cons] at reached ⊢
      rw [hpcrunCctDeleteSelf, reached, Option.map_some, idDest, if_pos (parent_setParent _ _).symm,
        addr_setParent, addrCct, child?, children_setChildren, STree.find?_replaceAt addr region]
      · exact Option.some_ne_none _
      · exact ordered_updateAt keepsDelete _ _ (ordered_updateAt keeps _ _ orderedG)
      · rw [← child?, child?_updateAt_cons keepsDelete, if_neg differ, child?_updateAt_cons keeps, if_neg differ,
          atRegionG]
        exact Option.some_ne_none cct
      · exact show cct.addr = region from addr_of_child? atRegion

end

end HpcToolkit.Ompt
