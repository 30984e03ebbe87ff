import HpcToolkit.Cct.MergeMetrics

/-! # Changing a tree in one place

The code writes through pointers, so the ancestors of a changed node stay where they are. Here a change
is a function applied to the node at a path. What the change does not reach keeps its nodes, and a node
is at one path only.
-/

open Option
open List

namespace HpcToolkit.Cct.CctNode

open Lib

/-- Apply `f` to the node at a path. -/
def updateAt (f : CctNode → CctNode) : List CctAddr → CctNode → CctNode
  | [], c => f c
  | k :: rest, c => c.setChildren (c.children.map fun x => if x.addr = k then updateAt f rest x else x)

section
variable {f : CctNode → CctNode}

section
variable (keeps : ∀ c, (f c).info = c.info)
include keeps

@[simp] lemma info_updateAt (path : List CctAddr) (c : CctNode) :
    (updateAt f path c).info = c.info := by
  cases path with
  | nil => exact keeps c
  | cons => rfl

lemma addr_updateAt (path : List CctAddr) (c : CctNode) :
    (updateAt f path c).addr = c.addr :=
  congrArg NodeInfo.addr (info_updateAt keeps path c)

lemma child?_updateAt_cons (k : CctAddr) (rest : List CctAddr)
    (c : CctNode) (q : CctAddr) :
    (updateAt f (k :: rest) c).child? q = if q = k then (c.child? k).map (updateAt f rest) else c.child? q := by
  have keepsAddr : ∀ x : CctNode, (if x.addr = k then updateAt f rest x else x).addr = x.addr := by
    intro x
    split
    · exact addr_updateAt keeps rest x
    · rfl
  rw [child?, updateAt, children_setChildren, STree.find?_map addr keepsAddr, ← child?]
  split
  · next same =>
    rw [same]
    cases found : c.child? k with
    | none => rfl
    | some x => rw [map_some, if_pos (addr_of_child? found), map_some]
  · next differ =>
    cases found : c.child? q with
    | none => rfl
    | some x => rw [map_some, if_neg (addr_of_child? found ▸ differ)]

lemma at?_updateAt_append (path q : List CctAddr) (c : CctNode) :
    (updateAt f path c).at? (path ++ q) = (c.at? path).bind fun x => (f x).at? q := by
  induction path generalizing c with
  | nil => rfl
  | cons k rest ih =>
    rw [cons_append, at?, at?, child?_updateAt_cons keeps, if_pos rfl]
    cases c.child? k with
    | none => rfl
    | some x => exact ih x

lemma at?_updateAt_off (path : List CctAddr) :
    ∀ (q : List CctAddr) (c : CctNode), ¬q <+: path → ¬path <+: q → (updateAt f path c).at? q = c.at? q := by
  induction path with
  | nil => exact fun q c _ after => absurd nil_prefix after
  | cons k rest ih =>
    intro q c before after
    cases q with
    | nil => exact absurd nil_prefix before
    | cons j q =>
      rw [at?, at?, child?_updateAt_cons keeps]
      split
      · next same =>
        subst same
        cases c.child? j with
        | none => rfl
        | some x =>
          refine ih q x (fun below => before ?_) (fun below => after ?_)
          · exact cons_prefix_cons.mpr ⟨rfl, below⟩
          · exact cons_prefix_cons.mpr ⟨rfl, below⟩
      · rfl

lemma ordered_updateAt (k : CctAddr)
    (rest : List CctAddr) {c : CctNode} (ordered : c.children.Ordered addr) :
    (updateAt f (k :: rest) c).children.Ordered addr := by
  rw [updateAt, children_setChildren]
  refine STree.map_ordered addr (fun x => ?_) ordered
  split
  · exact addr_updateAt keeps _ x
  · rfl

end

lemma split_children {c x : CctNode} {k : CctAddr} (ordered : c.children.Ordered addr)
    (found : c.child? k = some x) : ∃ before after, c.children.toList = before ++ x :: after ∧
      ∀ y ∈ before ++ after, y.addr ≠ k := by
  obtain ⟨before, after, list⟩ := append_of_mem (STree.mem_of_find? addr found)
  refine ⟨before, after, list, fun y member same => ?_⟩
  have strict := ordered
  rw [STree.Ordered, list, pairwise_append, pairwise_cons] at strict
  have atX := addr_of_child? found
  rcases mem_append.mp member with inB | inA
  · exact (strict.2.2 y inB x (.head _)).ne (same.trans atX.symm)
  · exact (strict.2.1.1 y inA).ne (atX.trans same.symm)

lemma idsOf_updateAt (path : List CctAddr) :
    ∀ {c x : CctNode}, c.AllOrdered → c.at? path = some x → idsOf (updateAt f path c) + idsOf x = idsOf c + idsOf (f x) := by
  induction path with
  | nil =>
    intro c x _ found
    cases found
    rw [updateAt, add_comm]
  | cons k rest ih =>
    intro c x ordered found
    obtain ⟨y, child, found⟩ := bind_eq_some_iff.mp found
    obtain ⟨before, after, list, others⟩ := split_children (ordered c .refl) child
    have same : ∀ z ∈ before ++ after, (if z.addr = k then updateAt f rest z else z) = z :=
      fun z member => if_neg (others z member)
    have inner := ih (ordered.child child) found
    have mapB : before.map (fun z => if z.addr = k then updateAt f rest z else z) = before :=
      (map_congr_left fun z member => same z (mem_append_left _ member)).trans (map_id' _)
    have mapA : after.map (fun z => if z.addr = k then updateAt f rest z else z) = after :=
      (map_congr_left fun z member => same z (mem_append_right _ member)).trans (map_id' _)
    rw [idsOf_eq (updateAt f (k :: rest) c), idsOf_eq c, updateAt, children_setChildren, id_setChildren,
      STree.toList_map, list, map_append, map_cons, mapB, mapA, if_pos (addr_of_child? child)]
    simp only [map_append, map_cons, sum_append, sum_cons, ← Multiset.singleton_add]
    calc _ = {c.id} + (before.map idsOf).sum + (after.map idsOf).sum + (idsOf (updateAt f rest y) + idsOf x) := by abel
      _ = _ := by
        rw [inner]
        abel

end

/-! ## Positions -/

lemma at?_append (p q : List CctAddr) (c : CctNode) : c.at? (p ++ q) = (c.at? p).bind (·.at? q) := by
  induction p generalizing c with
  | nil => rfl
  | cons k rest ih =>
    rw [cons_append, at?, at?]
    cases c.child? k with
    | none => rfl
    | some x => exact ih x

lemma WellFormed.at? {c x : CctNode} {p : List CctAddr} (wf : c.WellFormed) (found : c.at? p = some x) :
    x.WellFormed := by
  induction p generalizing c with
  | nil =>
    cases found
    exact wf
  | cons k rest ih =>
    obtain ⟨y, child, found⟩ := bind_eq_some_iff.mp found
    exact ih (wf.child child) found

lemma AllOrdered.exists_at? {c x : CctNode} (ordered : c.AllOrdered) (below : Reach c x) : ∃ p, c.at? p = some x := by
  induction below with
  | refl => exact ⟨[], rfl⟩
  | @child y z reach member ih =>
    obtain ⟨p, found⟩ := ih
    have own : y.children.Ordered addr := ordered y reach
    refine ⟨p ++ [z.addr], ?_⟩
    rw [at?_append, found, bind_some, CctNode.at?, child?, (own.find?_eq_some addr).mpr ⟨member, rfl⟩]
    rfl

lemma at?_injective (p : List CctAddr) : ∀ {q : List CctAddr} {c x y : CctNode}, c.WellFormed →
    c.at? p = some x → c.at? q = some y → x.id = y.id → p = q := by
  have notRoot : ∀ {c x : CctNode} {k : CctAddr} {rest : List CctAddr}, c.WellFormed →
      c.at? (k :: rest) = some x → x.id ≠ c.id := by
    intro c x k rest wf found same
    obtain ⟨y, child, found⟩ := bind_eq_some_iff.mp found
    have distinct := wf.distinct
    rw [nodes_eq, map_cons, nodup_cons] at distinct
    refine distinct.1 (same ▸ mem_map_of_mem (mem_flatMap.mpr ⟨y, STree.mem_of_find? addr child, ?_⟩))
    exact mem_nodes.mpr (reach_of_at? found)
  induction p with
  | nil =>
    intro q c x y wf atP atQ same
    cases atP
    cases q with
    | nil => rfl
    | cons j s => exact absurd same.symm (notRoot wf atQ)
  | cons k rest ih =>
    intro q c x y wf atP atQ same
    cases q with
    | nil =>
      cases atQ
      exact absurd same (notRoot wf atP)
    | cons j s =>
      obtain ⟨u, childU, atU⟩ := bind_eq_some_iff.mp atP
      obtain ⟨v, childV, atV⟩ := bind_eq_some_iff.mp atQ
      have memberU := STree.mem_of_find? addr childU
      have memberV := STree.mem_of_find? addr childV
      have distinct := wf.distinct
      rw [nodes_eq, map_cons, nodup_cons, map_flatMap, nodup_flatMap] at distinct
      rcases eq_or_ne u v with rfl | differ
      · have sameKey : k = j := (addr_of_child? childU).symm.trans (addr_of_child? childV)
        rw [sameKey, ih (wf.child childU) atU atV same]
      · have symmetric : Std.Symm (Function.onFun List.Disjoint fun c : CctNode => c.nodes.map CctNode.id) :=
          ⟨fun _ _ apart => apart.symm⟩
        have apart := distinct.2.2.forall memberU memberV differ
        refine absurd (mem_map_of_mem (mem_nodes.mpr (reach_of_at? atU))) fun inU => apart inU ?_
        exact same ▸ mem_map_of_mem (mem_nodes.mpr (reach_of_at? atV))

lemma addr_mem_of_at? (p : List CctAddr) : ∀ {c x : CctNode}, c.at? p = some x → p ≠ [] → x.addr ∈ p := by
  induction p with
  | nil => exact fun _ nonempty => absurd rfl nonempty
  | cons k rest ih =>
    intro c x found _
    obtain ⟨y, child, found⟩ := bind_eq_some_iff.mp found
    cases rest with
    | nil =>
      cases found
      exact addr_of_child? child ▸ .head _
    | cons j s => exact .tail _ (ih found (cons_ne_nil j s))

end HpcToolkit.Cct.CctNode

/-! # Inserting paths and deleting nodes

`hpcrun_cct_insert_addr` splays the child set and leaves the child it returns at the root, so inserting a
path walks down a spine of roots. Existing nodes are kept, and a path that is there already only changes
shapes. `hpcrun_cct_delete_addr` removes one child.
-/

namespace HpcToolkit.Cct

open Lib CctNode

/-- What a path contributes at each node: the address and the `unwound` flag. -/
structure PathNode where
  addr : CctAddr
  unwound : Bool

def addrs (path : List PathNode) : List CctAddr := path.map PathNode.addr

/-- `cct_node_create` in the memory `alloc`. -/
def cctNodeCreate (alloc : ℕ) (frm : PathNode) (parent : ℕ) : CctNode :=
  node ⟨alloc, frm.addr, false, frm.unwound, some parent⟩ .nil

/-- `hpcrun_cct_insert_addr`: the child set afterwards, whose root is the node returned. -/
def hpcrunCctInsertAddr (alloc : ℕ) (c : CctNode) (frm : PathNode) : STree CctNode :=
  match STree.splay addr frm.addr c.children with
  | .nil => .node .nil (cctNodeCreate alloc frm c.id) .nil
  | .node l found r =>
    if frm.addr = found.addr then .node l found r
    else STree.insertRoot addr (cctNodeCreate alloc frm c.id) (.node l found r)

/-- The insertion of a path, from its outermost node inwards; `alloc i` is the memory the allocator has for
the `i`-th node of the path. -/
def hpcrunCctInsertPath (alloc : ℕ → ℕ) : List PathNode → CctNode → CctNode
  | [], c => c
  | frm :: rest, c =>
    match hpcrunCctInsertAddr (alloc 0) c frm with
    | .nil => c
    | .node l x r => c.setChildren (.node l (hpcrunCctInsertPath (fun i => alloc (i + 1)) rest x) r)

/-- `hpcrun_cct_delete_addr`: the child set afterwards. -/
def hpcrunCctDeleteAddr (children : STree CctNode) (frm : CctAddr) : STree CctNode :=
  match STree.splay addr frm children with
  | .nil => .nil
  | .node l found r =>
    if frm = found.addr then
      match STree.splay addr frm l with
      | .nil => r
      | .node l' last _ => .node l' last r
    else .node l found r

lemma hpcrunCctDeleteAddr_eq (children : STree CctNode) (frm : CctAddr) :
    hpcrunCctDeleteAddr children frm = STree.removeRoot addr frm (STree.splay addr frm children) := by
  rw [hpcrunCctDeleteAddr]
  cases STree.splay addr frm children with
  | nil => rfl
  | node l found r =>
    simp only [STree.removeRoot]
    rcases eq_or_ne frm found.addr with same | differ
    · rw [if_pos same, if_pos same.symm]
      cases STree.splay addr frm l <;> rfl
    · rw [if_neg differ, if_neg differ.symm]

/-! ## Insertion -/

section
variable {c : CctNode}

lemma hpcrunCctInsertAddr_spec (ordered : c.children.Ordered addr) (alloc : ℕ) (frm : PathNode) :
    ∃ l r, hpcrunCctInsertAddr alloc c frm = .node l ((c.child? frm.addr).getD (cctNodeCreate alloc frm c.id)) r ∧
      (hpcrunCctInsertAddr alloc c frm).Ordered addr ∧
      (∀ q, q ≠ frm.addr → STree.find? addr (hpcrunCctInsertAddr alloc c frm) q = c.child? q) ∧
      (c.child? frm.addr ≠ none → (hpcrunCctInsertAddr alloc c frm).toList = c.children.toList) := by
  have splayed := ordered.splay addr frm.addr
  have atRoot := ordered.find?_eq_root? addr frm.addr
  have listed := STree.toList_splay addr frm.addr c.children
  have finds := STree.find?_splay addr frm.addr c.children
  have inserted := STree.find?_insertRoot addr (x := cctNodeCreate alloc frm c.id) ordered
  have splits := STree.splits_splay addr frm.addr ordered
  rw [hpcrunCctInsertAddr, child?]
  cases root : STree.splay addr frm.addr c.children with
  | nil =>
    rw [root] at atRoot listed finds
    simp only [STree.root?, filter_none] at atRoot
    rw [atRoot]
    refine ⟨.nil, .nil, rfl, by simp [STree.Ordered], fun q differ => ?_, fun present => absurd rfl present⟩
    rw [child?, ← finds q, STree.find?_nil, STree.find?_eq_none]
    simpa [cctNodeCreate] using differ.symm
  | node l found r =>
    rw [root] at atRoot listed finds splayed splits
    simp only [STree.root?, filter_some, decide_eq_true_eq] at atRoot
    rcases eq_or_ne frm.addr found.addr with same | differ
    · rw [if_pos same.symm] at atRoot
      simp only [if_pos same, atRoot, getD_some]
      exact ⟨l, r, rfl, splayed, fun q _ => finds q, fun _ => listed⟩
    · rw [if_neg differ.symm] at atRoot
      have fresh : ∀ y ∈ (STree.node l found r).toList, y.addr ≠ (cctNodeCreate alloc frm c.id).addr := by
        rw [listed]
        exact (STree.find?_eq_none addr).mp atRoot
      have result := STree.insertRoot_ordered addr (x := cctNodeCreate alloc frm c.id) splayed splits fresh
      have lookup := inserted atRoot
      simp only [if_neg differ, atRoot, getD_none]
      have isRoot : ∃ l' r', STree.insertRoot addr (cctNodeCreate alloc frm c.id) (.node l found r) =
          .node l' (cctNodeCreate alloc frm c.id) r' := by
        rw [STree.insertRoot]
        split
        · exact ⟨_, _, rfl⟩
        · exact ⟨_, _, rfl⟩
      obtain ⟨l', r', shape⟩ := isRoot
      refine ⟨l', r', shape, result, fun q other => ?_, fun present => absurd rfl present⟩
      have at_q := lookup q
      rw [show (cctNodeCreate alloc frm c.id).addr = frm.addr from rfl, root, if_neg other] at at_q
      exact at_q

@[simp] lemma info_hpcrunCctInsertPath (alloc : ℕ → ℕ) (path : List PathNode) (c : CctNode) :
    (hpcrunCctInsertPath alloc path c).info = c.info := by
  cases path with
  | nil => rfl
  | cons frm rest =>
    rw [hpcrunCctInsertPath]
    split <;> rfl

lemma child?_hpcrunCctInsertPath (ordered : c.children.Ordered addr) (alloc : ℕ → ℕ) (frm : PathNode)
    (rest : List PathNode) :
    (hpcrunCctInsertPath alloc (frm :: rest) c).children.Ordered addr ∧
      ∀ q, (hpcrunCctInsertPath alloc (frm :: rest) c).child? q = if q = frm.addr
        then some (hpcrunCctInsertPath (fun i => alloc (i + 1)) rest
          ((c.child? frm.addr).getD (cctNodeCreate (alloc 0) frm c.id)))
        else c.child? q := by
  obtain ⟨l, r, shape, result, others, -⟩ := hpcrunCctInsertAddr_spec ordered (alloc 0) frm
  set x := (c.child? frm.addr).getD (cctNodeCreate (alloc 0) frm c.id)
  have atX : x.addr = frm.addr := by
    cases found : c.child? frm.addr with
    | none => simp only [x, found]; rfl
    | some y => simpa only [x, found, getD_some] using addr_of_child? found
  have same : (hpcrunCctInsertPath (fun i => alloc (i + 1)) rest x).addr = x.addr :=
    congrArg NodeInfo.addr (info_hpcrunCctInsertPath _ _ _)
  rw [shape] at result others
  simp only [hpcrunCctInsertPath, shape, children_setChildren, child?]
  refine ⟨STree.replaceRoot_ordered addr result same, fun q => ?_⟩
  rw [STree.find?_replaceRoot addr result same, atX]
  split
  · rfl
  · next other => exact others q other

lemma at?_hpcrunCctInsertPath (path : List PathNode) : ∀ {c : CctNode} (alloc : ℕ → ℕ), c.AllOrdered →
    ∃ x, (hpcrunCctInsertPath alloc path c).at? (addrs path) = some x ∧
      (c.at? (addrs path) = some x ∨ c.at? (addrs path) = none ∧ x.children = .nil) := by
  induction path with
  | nil => exact fun {c} _ _ => ⟨c, rfl, .inl rfl⟩
  | cons frm rest ih =>
    intro c alloc ordered
    obtain ⟨-, child⟩ := child?_hpcrunCctInsertPath (ordered c .refl) alloc frm rest
    have head := child frm.addr
    rw [if_pos rfl] at head
    simp only [addrs, map_cons, at?, head, bind_some]
    cases found : c.child? frm.addr with
    | some y => exact ih _ (ordered.child found)
    | none =>
      rw [getD_none]
      have created : (cctNodeCreate (alloc 0) frm c.id).AllOrdered := by
        refine allOrdered_iff.mpr ⟨List.Pairwise.nil, fun y member => ?_⟩
        cases member
      obtain ⟨x, reached, origin⟩ := ih (fun i => alloc (i + 1)) created
      refine ⟨x, reached, .inr ⟨rfl, ?_⟩⟩
      rcases origin with same | ⟨-, childless⟩
      · cases rest with
        | nil =>
          cases same
          rfl
        | cons => cases same
      · exact childless

lemma at?_hpcrunCctInsertPath_of_some (path : List PathNode) : ∀ {c x : CctNode} (alloc : ℕ → ℕ), c.AllOrdered →
    c.at? (addrs path) = some x → (∀ q, (hpcrunCctInsertPath alloc path c).at? (addrs path ++ q) = x.at? q) ∧
      (∀ q, ¬q <+: addrs path → (hpcrunCctInsertPath alloc path c).at? q = c.at? q) ∧
      idsOf (hpcrunCctInsertPath alloc path c) = idsOf c ∧ (hpcrunCctInsertPath alloc path c).AllOrdered := by
  induction path with
  | nil =>
    intro c x alloc ordered found
    cases found
    exact ⟨fun q => rfl, fun q _ => rfl, rfl, ordered⟩
  | cons frm rest ih =>
    intro c x alloc ordered found
    obtain ⟨y, head, found⟩ := bind_eq_some_iff.mp found
    obtain ⟨orderedRoot, child⟩ := child?_hpcrunCctInsertPath (ordered c .refl) alloc frm rest
    obtain ⟨inner, off, ids, orderedY⟩ := ih (fun i => alloc (i + 1)) (ordered.child head) found
    rw [head, getD_some] at child
    have atHead := child frm.addr
    rw [if_pos rfl] at atHead
    refine ⟨fun q => ?_, fun q before => ?_, ?_, allOrdered_iff.mpr ⟨orderedRoot, fun z member => ?_⟩⟩
    · simp only [addrs, map_cons, cons_append, at?, atHead, bind_some]
      exact inner q
    · cases q with
      | nil => exact absurd nil_prefix before
      | cons j q =>
        rw [at?, at?, child]
        rcases eq_or_ne j frm.addr with same | differ
        · rw [if_pos same, same, head]
          exact off q fun below => before (same ▸ cons_prefix_cons.mpr ⟨rfl, below⟩)
        · rw [if_neg differ]
    · obtain ⟨l, r, shape, -, -, kept⟩ := hpcrunCctInsertAddr_spec (ordered c .refl) (alloc 0) frm
      rw [head, getD_some] at shape
      have list := kept (by rw [head]; exact some_ne_none y)
      rw [shape, STree.toList_node] at list
      simp only [hpcrunCctInsertPath, shape]
      rw [idsOf_eq, idsOf_eq c, children_setChildren, id_setChildren, ← list, STree.toList_node]
      simp only [map_append, map_cons, ids]
    · obtain ⟨k, atZ⟩ : ∃ k, (hpcrunCctInsertPath alloc (frm :: rest) c).child? k = some z :=
        ⟨z.addr, (orderedRoot.find?_eq_some addr).mpr ⟨member, rfl⟩⟩
      rw [child] at atZ
      split at atZ
      · cases atZ
        exact orderedY
      · exact ordered.child atZ

end

/-! ## Deletion -/

lemma find?_hpcrunCctDeleteAddr {t : STree CctNode} (ordered : t.Ordered addr) (frm q : CctAddr) :
    STree.find? addr (hpcrunCctDeleteAddr t frm) q = if q = frm then none else STree.find? addr t q := by
  rw [hpcrunCctDeleteAddr_eq]
  rw [STree.find?_removeRoot addr frm ordered q]
  rcases eq_or_ne q frm with same | differ
  · rw [if_pos same, if_pos same]
  · rw [if_neg differ, if_neg differ]

lemma idsOf_hpcrunCctDeleteAddr {c x : CctNode} {k : CctAddr} (ordered : c.children.Ordered addr)
    (found : c.child? k = some x) :
    idsOf (c.setChildren (hpcrunCctDeleteAddr c.children k)) + idsOf x = idsOf c := by
  obtain ⟨before, after, list, others⟩ := split_children ordered found
  rw [idsOf_eq, idsOf_eq c, children_setChildren, id_setChildren, hpcrunCctDeleteAddr_eq,
    STree.toList_removeRoot_split addr k ordered list (addr_of_child? found) others, list]
  simp only [map_append, map_cons, sum_append, sum_cons, ← Multiset.singleton_add]
  abel

end HpcToolkit.Cct
