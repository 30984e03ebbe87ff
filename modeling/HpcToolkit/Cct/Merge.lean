import HpcToolkit.Cct.Basic

/-! # Merging calling context trees

`hpcrun_cct_merge` adds the paths of one tree to another. The walk over the children of `cct_b` is a
postorder of their splay tree: a child whose address `cct_a` knows is merged and stays in the old
tree, any other child is unlinked and becomes the root of the children of `cct_a`. What the walk does
besides is recorded as a trace of the calls of the merge operation and of the nodes it frees.
-/

open List

namespace HpcToolkit.Cct

open Lib CctNode
open STree hiding nil node

inductive MergeEvent where
  /-- `merge(cct_a, cct_b, arg)`. -/
  | op (a b : ℕ)
  /-- `hpcrun_cct_node_free` on a splay tree of siblings. -/
  | free (siblings : STree CctNode)

/-- What is left in the destination, what stays behind in the old tree, and the events in order. -/
structure MergeResult (α : Type) where
  dest : α
  remaining : STree CctNode
  trace : List MergeEvent

/-- `hpcrun_cct_node_free`, which ignores `NULL`. -/
def hpcrunCctNodeFree : STree CctNode → List MergeEvent
  | .nil => []
  | .node l n r => [.free (.node l n r)]

/-- `hpcrun_cct_find_addr`: the splayed children and the child found. -/
def hpcrunCctFindAddr (children : STree CctNode) (k : CctAddr) : STree CctNode × Option CctNode :=
  match splay addr k children with
  | .nil => (.nil, none)
  | .node l x r => (.node l x r, if k = x.addr then some x else none)

/-- `cct_disjoint_union_cached`; `left` and `right` are the sibling links of `src`. -/
def cctDisjointUnionCached (targ : ℕ) (children left : STree CctNode) (src : CctNode)
    (right : STree CctNode) : STree CctNode :=
  match splay addr src.addr children with
  | .nil => .node left (src.setParent targ) right
  | .node l x r => insertRoot addr (src.setParent targ) (.node l x r)

/-- The node found is the root of the splayed children, so writing through it replaces the root. -/
def replaceRoot (x : CctNode) : STree CctNode → STree CctNode
  | .nil => .nil
  | .node l _ r => .node l x r

/-- `merge_or_join` on the node `n` with sibling links `left` and `right`. -/
def mergeOrJoin (merge : CctNode → MergeResult CctNode) (targ : ℕ) (children left : STree CctNode)
    (n : CctNode) (right : STree CctNode) : MergeResult (STree CctNode) :=
  match hpcrunCctFindAddr children n.addr with
  | (children, some tmp) =>
    { dest := replaceRoot (merge tmp).dest children
      remaining := (merge tmp).remaining
      trace := (merge tmp).trace }
  | (children, none) =>
    { dest := cctDisjointUnionCached targ children left n right
      remaining := .nil
      trace := hpcrunCctNodeFree left ++ hpcrunCctNodeFree right }

mutual
/-- `hpcrun_cct_merge`; `left` and `right` are the sibling links of `cct_b`, and the part remaining is
the splay tree rooted at `cct_b`. With no children in `cct_a`, `hpcrun_walk_children(cct_b, attach_to_a)`
visits the splay tree rooted at `cct_b`. -/
def hpcrunCctMerge (a : CctNode) (left : STree CctNode) :
    CctNode → STree CctNode → MergeResult CctNode
  | .node info children, right =>
    let called : List MergeEvent :=
      if a.isLeaf && (node info children).isLeaf then [.op a.id info.id] else []
    match a.children with
    | .nil =>
      { dest := a.setChildren children
        remaining := (STree.node left (node info .nil) right).map (setParent a.id)
        trace := called }
    | .node l x r =>
      let walk := walksetLMerge a.id (.node l x r) children
      { dest := a.setChildren walk.dest
        remaining := .node left (node info walk.remaining) right
        trace := called ++ walk.trace }

/-- `walkset_l_merge` with `merge_or_join`. -/
def walksetLMerge (targ : ℕ) (children : STree CctNode) : STree CctNode → MergeResult (STree CctNode)
  | .nil => { dest := children, remaining := .nil, trace := [] }
  | .node l n r =>
    let walkL := walksetLMerge targ children l
    let walkR := walksetLMerge targ walkL.dest r
    let here := mergeOrJoin (fun tmp => hpcrunCctMerge tmp walkL.remaining n walkR.remaining) targ
      walkR.dest walkL.remaining n walkR.remaining
    { here with trace := walkL.trace ++ walkR.trace ++ here.trace }
end

/-- The pairs of nodes the merge operation is applied to, in order. -/
def calls (trace : List MergeEvent) : List (ℕ × ℕ) :=
  trace.filterMap fun
    | .op a b => some (a, b)
    | .free _ => none

@[simp] lemma calls_append (trace trace' : List MergeEvent) :
    calls (trace ++ trace') = calls trace ++ calls trace' := filterMap_append

@[simp] lemma calls_hpcrunCctNodeFree (t : STree CctNode) : calls (hpcrunCctNodeFree t) = [] := by
  cases t <;> rfl

/-- The destination after merging a tree without siblings. -/
def merged (a b : CctNode) : CctNode := (hpcrunCctMerge a .nil b .nil).dest

/-- The calls of the merge operation while merging a tree without siblings. -/
def mergeCalls (a b : CctNode) : List (ℕ × ℕ) := calls (hpcrunCctMerge a .nil b .nil).trace

/-! ## Siblings of `cct_b` have no influence on the destination -/

lemma dest_hpcrunCctMerge (a b : CctNode) (left right : STree CctNode) :
    (hpcrunCctMerge a left b right).dest = merged a b := by
  cases b
  simp only [merged, hpcrunCctMerge]
  split <;> rfl

lemma calls_hpcrunCctMerge (a b : CctNode) (left right : STree CctNode) :
    calls (hpcrunCctMerge a left b right).trace = mergeCalls a b := by
  cases b
  simp only [mergeCalls, hpcrunCctMerge]
  split <;> rfl

@[simp] lemma info_merged (a b : CctNode) : (merged a b).info = a.info := by
  cases b
  simp only [merged, hpcrunCctMerge]
  split <;> rfl

@[simp] lemma id_merged (a b : CctNode) : (merged a b).id = a.id := congrArg NodeInfo.id (info_merged a b)

@[simp] lemma addr_merged (a b : CctNode) : (merged a b).addr = a.addr :=
  congrArg NodeInfo.addr (info_merged a b)

/-! ## One level of the merge -/

/-- What a destination with children makes of two child maps at one address. -/
def joinAt (targ : ℕ) : Option CctNode → Option CctNode → Option CctNode
  | some x, some y => some (merged x y)
  | some x, none => some x
  | none, some y => some (y.setParent targ)
  | none, none => none

@[simp] lemma joinAt_none (targ : ℕ) (x : Option CctNode) : joinAt targ x none = x := by
  cases x <;> rfl

/-- The calls a child `y` of `cct_b` causes. -/
def callsAt (children : STree CctNode) (y : CctNode) : List (ℕ × ℕ) :=
  match find? addr children y.addr with
  | some x => mergeCalls x y
  | none => []

variable {children : STree CctNode}

lemma hpcrunCctFindAddr_eq (ordered : children.Ordered addr) (k : CctAddr) :
    hpcrunCctFindAddr children k = (splay addr k children, find? addr children k) := by
  rw [hpcrunCctFindAddr, ordered.find?_eq_root? addr k]
  split
  · next splayed =>
    rw [splayed]
    rfl
  · next l x r splayed =>
    rw [splayed, root?, Option.filter_some]
    by_cases same : k = x.addr
    · simp [same]
    · simp [same, Ne.symm same]

lemma cctDisjointUnionCached_eq (nonempty : children ≠ .nil) (targ : ℕ)
    (left : STree CctNode) (src : CctNode) (right : STree CctNode) :
    cctDisjointUnionCached targ children left src right =
      insertRoot addr (src.setParent targ) (splay addr src.addr children) := by
  rw [cctDisjointUnionCached]
  split
  · next splayed => exact absurd ((splay_eq_nil addr _).mp splayed) nonempty
  · next splayed => rw [splayed]

lemma mergeOrJoin_spec (left : STree CctNode) (n : CctNode)
    (right : STree CctNode) (targ : ℕ) (ordered : children.Ordered addr) (nonempty : children ≠ .nil) :
    let out := mergeOrJoin (fun tmp => hpcrunCctMerge tmp left n right) targ children left n right
    out.dest ≠ .nil ∧ out.dest.Ordered addr ∧
      (∀ q, find? addr out.dest q = if q = n.addr
        then joinAt targ (find? addr children q) (some n) else find? addr children q) ∧
      calls out.trace = callsAt children n := by
  have splayed := ordered.splay addr n.addr
  have splits := splits_splay addr n.addr ordered
  obtain ⟨l, x, r, root⟩ : ∃ l x r, splay addr n.addr children = .node l x r := by
    cases shape : splay addr n.addr children with
    | nil => exact absurd ((splay_eq_nil addr n.addr).mp shape) nonempty
    | node l x r => exact ⟨l, x, r, rfl⟩
  simp only [mergeOrJoin, hpcrunCctFindAddr_eq ordered, callsAt]
  cases found : find? addr children n.addr with
  | some tmp =>
    have isRoot : tmp = x := by
      rw [ordered.find?_eq_root? addr n.addr, root] at found
      exact (Option.some.inj (Option.filter_eq_some_iff.mp found).1).symm
    have addrX : x.addr = n.addr := isRoot ▸ key_of_find? addr found
    subst isRoot
    rw [root] at splayed
    simp only [root, replaceRoot, dest_hpcrunCctMerge, calls_hpcrunCctMerge]
    refine ⟨by simp, replaceRoot_ordered addr splayed (addr_merged tmp n), fun q => ?_, trivial⟩
    rw [find?_replaceRoot addr splayed (addr_merged tmp n), ← root, find?_splay, addrX]
    split
    · next same => rw [same, found, joinAt]
    · rfl
  | none =>
    have nonempty' : splay addr n.addr children ≠ .nil := by
      rwa [Ne, splay_eq_nil]
    have absent : find? addr (splay addr n.addr children) (n.setParent targ).addr = none := by
      rw [find?_splay, addr_setParent, found]
    simp only [cctDisjointUnionCached_eq nonempty', calls_append, calls_hpcrunCctNodeFree, append_nil]
    refine ⟨?_, ?_, fun q => ?_, trivial⟩
    · intro empty
      have member := (mem_insertRoot addr (x := n.setParent targ)
        (t := splay addr n.addr (splay addr n.addr children))).mpr (.inl rfl)
      rw [empty] at member
      simp at member
    · refine insertRoot_ordered addr (splayed.splay addr _) (splits_splay addr _ splayed) ?_
      rw [toList_splay]
      exact (find?_eq_none addr).mp absent
    · have inserted := find?_insertRoot addr splayed absent q
      rw [addr_setParent, find?_splay] at inserted
      rw [inserted]
      split
      · next same => rw [same, found, joinAt]
      · rfl

lemma walksetLMerge_spec (targ : ℕ) (t children : STree CctNode) (ordered : children.Ordered addr)
    (nonempty : children ≠ .nil) (orderedT : t.Ordered addr) :
    let out := walksetLMerge targ children t
    out.dest ≠ .nil ∧ out.dest.Ordered addr ∧
      (∀ q, find? addr out.dest q =
        joinAt targ (find? addr children q) (find? addr t q)) ∧
      calls out.trace = t.postorder.flatMap (callsAt children) := by
  induction t generalizing children with
  | nil =>
    simp only [walksetLMerge]
    exact ⟨nonempty, ordered, fun q => by simp, rfl⟩
  | node l n r ihl ihr =>
    obtain ⟨orderedL, orderedR, below, above⟩ := (ordered_node addr).mp orderedT
    obtain ⟨nonemptyL, destL, findL, callsL⟩ := ihl children ordered nonempty orderedL
    obtain ⟨nonemptyR, destR, findR, callsR⟩ := ihr _ destL nonemptyL orderedR
    obtain ⟨nonemptyN, destN, findN, callsN⟩ := mergeOrJoin_spec (walksetLMerge targ children l).remaining n
      (walksetLMerge targ (walksetLMerge targ children l).dest r).remaining targ destR nonemptyR
    have untouched : ∀ q, find? addr l q = none →
        find? addr (walksetLMerge targ children l).dest q = find? addr children q := by
      intro q absent
      rw [findL, absent, joinAt_none]
    refine ⟨nonemptyN, destN, fun q => ?_, ?_⟩
    · simp only [walksetLMerge]
      rw [findN, findR]
      rcases orderedT.find?_node addr q with ⟨less, here, noR⟩ | ⟨same, here, noL, noR⟩ | ⟨greater, here, noL⟩
      · rw [if_neg less.ne, here, noR, joinAt_none, findL]
      · rw [if_pos same, here, noR, joinAt_none, untouched q noL]
      · rw [if_neg greater.ne', here, untouched q noL]
    · have agreeR : ∀ y ∈ r.postorder, callsAt (walksetLMerge targ children l).dest y = callsAt children y := by
        intro y member
        rw [callsAt, callsAt, untouched]
        exact (find?_eq_none addr).mpr fun z memberZ =>
          ((below z memberZ).trans (above y (mem_postorder.mp member))).ne
      have agreeN : callsAt (walksetLMerge targ (walksetLMerge targ children l).dest r).dest n =
          callsAt children n := by
        rcases orderedT.find?_node addr n.addr with ⟨less, -⟩ | ⟨-, -, noL, noR⟩ | ⟨less, -⟩
        · exact absurd less (lt_irrefl _)
        · rw [callsAt, callsAt, findR, noR, joinAt_none, untouched _ noL]
        · exact absurd less (lt_irrefl _)
      simp only [walksetLMerge, calls_append, callsL, callsR, callsN, agreeN, postorder,
        flatMap_append, flatMap_singleton, flatMap_congr agreeR]

/-! ## The merged tree by address -/

variable {a b : CctNode}

lemma child?_merged (orderedA : a.children.Ordered addr) (orderedB : b.children.Ordered addr)
    (k : CctAddr) : (merged a b).child? k =
      match a.child? k, b.child? k with
      | some x, some y => some (merged x y)
      | some x, none => some x
      | none, some y => some (if a.children.isEmpty then y else y.setParent a.id)
      | none, none => none := by
  obtain ⟨info, children⟩ := b
  cases shape : a.children with
  | nil =>
    simp only [merged, hpcrunCctMerge, shape, child?, children_setChildren, children_node, find?_nil]
    cases find? addr children k <;> rfl
  | node l x r =>
    have spec := walksetLMerge_spec a.id children (.node l x r) (shape ▸ orderedA) (by simp) orderedB
    simp only [merged, hpcrunCctMerge, shape, child?, children_setChildren, children_node, spec.2.2.1 k]
    cases find? addr (STree.node l x r) k <;> cases find? addr children k <;> rfl

lemma ordered_children_merged (orderedA : a.children.Ordered addr)
    (orderedB : b.children.Ordered addr) : (merged a b).children.Ordered addr := by
  obtain ⟨info, children⟩ := b
  cases shape : a.children with
  | nil => simpa only [merged, hpcrunCctMerge, shape, children_setChildren, children_node] using orderedB
  | node l x r =>
    have spec := walksetLMerge_spec a.id children (.node l x r) (shape ▸ orderedA) (by simp) orderedB
    simpa only [merged, hpcrunCctMerge, shape, children_setChildren] using spec.2.1

lemma mergeCalls_eq (orderedA : a.children.Ordered addr) (orderedB : b.children.Ordered addr) :
    mergeCalls a b = (if a.isLeaf && b.isLeaf then [(a.id, b.id)] else []) ++
      b.children.postorder.flatMap (callsAt a.children) := by
  obtain ⟨info, children⟩ := b
  have own : calls (if a.isLeaf && (node info children).isLeaf then [.op a.id info.id] else []) =
      if a.isLeaf && (node info children).isLeaf then [(a.id, info.id)] else [] := by
    split <;> rfl
  cases shape : a.children with
  | nil =>
    simp only [mergeCalls, hpcrunCctMerge, shape, own, children_node, id_node]
    have none : ∀ y ∈ children.postorder, callsAt .nil y = [] := fun y _ => rfl
    rw [flatMap_congr none]
    simp
  | node l x r =>
    have spec := walksetLMerge_spec a.id children (.node l x r) (shape ▸ orderedA) (by simp) orderedB
    simp only [mergeCalls, hpcrunCctMerge, shape, calls_append, own, spec.2.2.2, children_node, id_node]

end HpcToolkit.Cct
