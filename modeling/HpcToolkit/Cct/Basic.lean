import Mathlib.Data.Prod.Lex
import Mathlib.Data.Multiset.Basic
import Mathlib.Data.Set.Basic
import HpcToolkit.Lib.Splay

/-! # Calling context trees

A `cct_node_t` carries an address, its flags and a parent pointer; its children are the nodes of a
splay tree ordered by address. Nodes are named by `id`, standing for the C pointer, so a parent
pointer can be stale. The sibling links `left` and `right` of a node are the shape of the splay
tree that contains it.
-/

open Option
open List

namespace HpcToolkit.Cct

open Lib

/-- `ip_normalized_t`, the only component of `cct_addr_t`. -/
structure CctAddr where
  lmId : UInt16
  lmIp : UInt64
deriving DecidableEq

/-- `ip_normalized_lt` on two non-null addresses. -/
def ipNormalizedLt (a b : CctAddr) : Bool :=
  if a.lmId < b.lmId then true
  else if a.lmId > b.lmId then false
  else if a.lmIp < b.lmIp then true
  else if a.lmIp > b.lmIp then false
  else false

def cctAddrLt (a b : CctAddr) : Bool :=
  if ipNormalizedLt a b then true
  else if ipNormalizedLt b a then false
  else false

/-- The two components, most significant first. -/
def CctAddr.toPair (a : CctAddr) : ℕ ×ₗ ℕ := toLex (a.lmId.toNat, a.lmIp.toNat)

lemma CctAddr.toPair_injective : Function.Injective CctAddr.toPair := by
  rintro ⟨lmId, lmIp⟩ ⟨lmId', lmIp'⟩ same
  have parts := Prod.ext_iff.mp (toLex.injective same)
  simp only [UInt16.toNat_inj, UInt64.toNat_inj] at parts
  rw [parts.1, parts.2]

instance : LinearOrder CctAddr := LinearOrder.lift' CctAddr.toPair CctAddr.toPair_injective

lemma cctAddrLt_iff (a b : CctAddr) : cctAddrLt a b = true ↔ a < b := by
  have order : a < b ↔ a.lmId.toNat < b.lmId.toNat ∨
      a.lmId.toNat = b.lmId.toNat ∧ a.lmIp.toNat < b.lmIp.toNat :=
    Prod.Lex.toLex_lt_toLex
  rw [order]
  simp only [cctAddrLt, ipNormalizedLt, UInt16.lt_iff_toNat_lt, UInt64.lt_iff_toNat_lt, gt_iff_lt]
  grind

/-- The fields of `cct_node_t` other than its links to children and siblings, and other than
`persistent_id` and `display`, which are kept by node in a store of their own. -/
structure NodeInfo where
  id : ℕ
  addr : CctAddr
  isLeaf : Bool
  unwound : Bool
  parent : Option ℕ

/-- A node with the splay tree of its children. -/
inductive CctNode where
  | node (info : NodeInfo) (children : STree CctNode)

namespace CctNode

def info : CctNode → NodeInfo
  | node info _ => info

def children : CctNode → STree CctNode
  | node _ children => children

def id (c : CctNode) : ℕ := c.info.id

def addr (c : CctNode) : CctAddr := c.info.addr

@[simp] lemma info_node (info : NodeInfo) (children : STree CctNode) : (node info children).info = info := rfl

@[simp] lemma children_node (info : NodeInfo) (children : STree CctNode) :
    (node info children).children = children := rfl
@[simp] lemma id_node (info : NodeInfo) (children : STree CctNode) : (node info children).id = info.id := rfl

@[simp] lemma addr_node (info : NodeInfo) (children : STree CctNode) :
    (node info children).addr = info.addr := rfl

def isLeaf (c : CctNode) : Bool := c.info.isLeaf || c.children.isEmpty

mutual
variable {motive : CctNode → Prop}

lemma inductionOn
    (step : ∀ info children, (∀ c ∈ children.toList, motive c) → motive (node info children)) :
    ∀ c, motive c
  | node info children => step info children (inductTree step children)

lemma inductTree
    (step : ∀ info children, (∀ c ∈ children.toList, motive c) → motive (node info children)) :
    ∀ (t : STree CctNode), ∀ c ∈ t.toList, motive c
  | .nil, c, member => by simp at member
  | .node l n r, c, member => by
    simp only [STree.toList_node, mem_append, mem_cons] at member
    rcases member with left | same | right
    · exact inductTree step l c left
    · exact same ▸ inductionOn step n
    · exact inductTree step r c right

end

/-- The child with a given address. -/
def child? (c : CctNode) (k : CctAddr) : Option CctNode := STree.find? addr c.children k

/-- The node reached from `c` along the addresses of a path. -/
def at? : CctNode → List CctAddr → Option CctNode
  | c, [] => some c
  | c, k :: rest => (c.child? k).bind (at? · rest)

/-- Root-to-node address paths, the root's address first. -/
def paths (c : CctNode) : Set (List CctAddr) :=
  {p | ∃ rest, p = c.addr :: rest ∧ (c.at? rest).isSome}

/-- `x` is `c` or lies below it. -/
inductive Reach (c : CctNode) : CctNode → Prop
  | refl : Reach c c
  | child {x y : CctNode} : Reach c x → y ∈ x.children.toList → Reach c y

lemma Reach.trans {c x y : CctNode} (below : Reach c x) (further : Reach x y) : Reach c y := by
  induction further with
  | refl => exact below
  | child _ member ih => exact ih.child member

lemma reach_iff {c x : CctNode} : Reach c x ↔ x = c ∨ ∃ y ∈ c.children.toList, Reach y x := by
  constructor
  · intro below
    induction below with
    | refl => exact .inl rfl
    | child _ member ih =>
      rcases ih with rfl | ⟨y, memberY, below⟩
      · exact .inr ⟨_, member, .refl⟩
      · exact .inr ⟨y, memberY, below.child member⟩
  · rintro (rfl | ⟨y, member, below⟩)
    · exact .refl
    · exact (Reach.refl.child member).trans below

/-- Every child set below `c` is strictly ordered by address. -/
def AllOrdered (c : CctNode) : Prop := ∀ x, Reach c x → x.children.Ordered addr

/-- Every node below `c` points to the node whose child set contains it. -/
def ParentsOk (c : CctNode) : Prop := ∀ x, Reach c x → ∀ y ∈ x.children.toList, y.info.parent = some x.id

lemma allOrdered_iff {c : CctNode} :
    c.AllOrdered ↔ c.children.Ordered addr ∧ ∀ y ∈ c.children.toList, y.AllOrdered := by
  constructor
  · intro ordered
    refine ⟨ordered c .refl, fun y member x below => ordered x ?_⟩
    exact reach_iff.mpr (.inr ⟨y, member, below⟩)
  · rintro ⟨own, below⟩ x reach
    rcases reach_iff.mp reach with rfl | ⟨y, member, further⟩
    · exact own
    · exact below y member x further

lemma parentsOk_iff {c : CctNode} :
    c.ParentsOk ↔ ∀ y ∈ c.children.toList, y.info.parent = some c.id ∧ y.ParentsOk := by
  constructor
  · intro ok y member
    refine ⟨ok c .refl y member, fun x below => ok x ?_⟩
    exact reach_iff.mpr (.inr ⟨y, member, below⟩)
  · intro ok x reach
    rcases reach_iff.mp reach with rfl | ⟨y, member, further⟩
    · exact fun z memberZ => (ok z memberZ).1
    · exact (ok y member).2 x further

mutual
/-- All nodes of a tree, a node before its children. -/
def nodes : CctNode → List CctNode
  | node info children => node info children :: nodesTree children

def nodesTree : STree CctNode → List CctNode
  | .nil => []
  | .node l n r => nodesTree l ++ (nodes n ++ nodesTree r)
end

lemma nodesTree_eq (t : STree CctNode) : nodesTree t = t.toList.flatMap nodes := by
  induction t with
  | nil => rfl
  | node l n r ihl ihr => simp [nodesTree, ihl, ihr]

lemma nodes_eq (c : CctNode) : c.nodes = c :: c.children.toList.flatMap nodes := by
  cases c
  rw [nodes, nodesTree_eq, children_node]

lemma mem_nodes {c x : CctNode} : x ∈ c.nodes ↔ Reach c x := by
  induction c using inductionOn with
  | step info children ih =>
    rw [nodes_eq, reach_iff]
    simp only [mem_cons, mem_flatMap, children_node] at ih ⊢
    refine or_congr_right (exists_congr fun y => and_congr_right fun member => ih y member)

/-- A tree as the profiler builds it: ordered child sets, parent pointers in place, no node twice. -/
structure WellFormed (c : CctNode) : Prop where
  ordered : c.AllOrdered
  parents : c.ParentsOk
  distinct : (c.nodes.map id).Nodup

lemma wellFormed_iff {c : CctNode} : c.WellFormed ↔ (∀ x ∈ c.nodes, x.children.Ordered addr) ∧
    (∀ x ∈ c.nodes, ∀ y ∈ x.children.toList, y.info.parent = some x.id) ∧ (c.nodes.map id).Nodup := by
  simp only [mem_nodes]
  exact ⟨fun wf => ⟨wf.ordered, wf.parents, wf.distinct⟩, fun ⟨ordered, parents, distinct⟩ =>
    ⟨ordered, parents, distinct⟩⟩

instance (c : CctNode) : Decidable c.WellFormed := decidable_of_iff' _ wellFormed_iff

/-! ## Field updates -/

/-- `node->parent = targ`. -/
def setParent (targ : ℕ) (c : CctNode) : CctNode := node { c.info with parent := some targ } c.children

/-- `node->children = children`. -/
def setChildren (c : CctNode) (children : STree CctNode) : CctNode := node c.info children

section
variable (c : CctNode) (targ : ℕ) (children : STree CctNode)

@[simp] lemma id_setParent : (c.setParent targ).id = c.id := rfl
@[simp] lemma addr_setParent : (c.setParent targ).addr = c.addr := rfl
@[simp] lemma parent_setParent : (c.setParent targ).info.parent = some targ := rfl
@[simp] lemma children_setParent : (c.setParent targ).children = c.children := rfl
@[simp] lemma isLeaf_setParent : (c.setParent targ).isLeaf = c.isLeaf := rfl
@[simp] lemma info_setChildren : (c.setChildren children).info = c.info := rfl
@[simp] lemma id_setChildren : (c.setChildren children).id = c.id := rfl
@[simp] lemma addr_setChildren : (c.setChildren children).addr = c.addr := rfl
@[simp] lemma children_setChildren : (c.setChildren children).children = children := rfl

end

lemma parentsOk_setParent {c : CctNode} {targ : ℕ} : (c.setParent targ).ParentsOk ↔ c.ParentsOk := by
  rw [parentsOk_iff, parentsOk_iff, children_setParent, id_setParent]

lemma allOrdered_setParent {c : CctNode} {targ : ℕ} : (c.setParent targ).AllOrdered ↔ c.AllOrdered := by
  rw [allOrdered_iff, allOrdered_iff, children_setParent]

variable {k : CctAddr}

lemma AllOrdered.child {c x : CctNode} (ordered : c.AllOrdered) (found : c.child? k = some x) :
    x.AllOrdered :=
  (allOrdered_iff.mp ordered).2 x (STree.mem_of_find? addr found)

lemma WellFormed.child {c x : CctNode} (wf : c.WellFormed) (found : c.child? k = some x) :
    x.WellFormed := by
  have member := STree.mem_of_find? addr found
  refine ⟨wf.ordered.child found, (parentsOk_iff.mp wf.parents x member).2, ?_⟩
  have distinct := wf.distinct
  rw [nodes_eq, map_cons, nodup_cons, map_flatMap, nodup_flatMap] at distinct
  exact distinct.2.1 x member

lemma addr_of_child? {c x : CctNode} (found : c.child? k = some x) : x.addr = k :=
  STree.key_of_find? addr found

lemma ids_setParent (c : CctNode) (targ : ℕ) :
    (c.setParent targ).nodes.map CctNode.id = c.nodes.map CctNode.id := by
  rw [nodes_eq, nodes_eq c, children_setParent, map_cons, map_cons, id_setParent]

lemma reach_of_child? {c x : CctNode} (found : c.child? k = some x) : Reach c x :=
  Reach.refl.child (STree.mem_of_find? addr found)

lemma AllOrdered.mem_children_iff {c x : CctNode} (ordered : c.AllOrdered) :
    x ∈ c.children.toList ↔ ∃ k, c.child? k = some x := by
  have own := (allOrdered_iff.mp ordered).1
  constructor
  · intro member
    exact ⟨x.addr, (own.find?_eq_some addr).mpr ⟨member, rfl⟩⟩
  · rintro ⟨k, found⟩
    exact STree.mem_of_find? addr found

/-! ## Nodes of two trees on the same path -/

/-- `x` and `y` are reached from `a` and `b` along the same addresses. -/
def Common (a b x y : CctNode) : Prop := ∃ p, a.at? p = some x ∧ b.at? p = some y

lemma common_iff {a b x y : CctNode} : Common a b x y ↔ (x = a ∧ y = b) ∨
    ∃ k x' y', a.child? k = some x' ∧ b.child? k = some y' ∧ Common x' y' x y := by
  constructor
  · rintro ⟨_ | ⟨k, rest⟩, atA, atB⟩
    · cases atA
      cases atB
      exact .inl ⟨rfl, rfl⟩
    · obtain ⟨x', foundA, atA⟩ := bind_eq_some_iff.mp atA
      obtain ⟨y', foundB, atB⟩ := bind_eq_some_iff.mp atB
      exact .inr ⟨k, x', y', foundA, foundB, rest, atA, atB⟩
  · rintro (⟨rfl, rfl⟩ | ⟨k, x', y', foundA, foundB, rest, atA, atB⟩)
    · exact ⟨[], rfl, rfl⟩
    · refine ⟨k :: rest, ?_, ?_⟩
      · simp only [at?, foundA, bind_some, atA]
      · simp only [at?, foundB, bind_some, atB]

lemma forall_common_iff {a b : CctNode} {P : CctNode → CctNode → Prop} :
    (∀ x y, Common a b x y → P x y) ↔ P a b ∧ ∀ k x' y', a.child? k = some x' → b.child? k = some y' →
      ∀ x y, Common x' y' x y → P x y := by
  constructor
  · intro all
    refine ⟨all a b (common_iff.mpr (.inl ⟨rfl, rfl⟩)), fun k x' y' foundA foundB x y below => ?_⟩
    exact all x y (common_iff.mpr (.inr ⟨k, x', y', foundA, foundB, below⟩))
  · rintro ⟨root, children⟩ x y common
    rcases common_iff.mp common with ⟨rfl, rfl⟩ | ⟨k, x', y', foundA, foundB, below⟩
    · exact root
    · exact children k x' y' foundA foundB x y below

lemma reach_of_at? {c x : CctNode} {p : List CctAddr} (found : c.at? p = some x) : Reach c x := by
  induction p generalizing c with
  | nil =>
    cases found
    exact .refl
  | cons k rest ih =>
    obtain ⟨y, child, below⟩ := bind_eq_some_iff.mp found
    exact (reach_of_child? child).trans (ih below)

end CctNode

open CctNode

/-- A node without flags, for small trees. -/
def plainNode (id : ℕ) (lmIp : UInt64) (parent : Option ℕ) (children : STree CctNode) : CctNode :=
  node ⟨id, ⟨1, lmIp⟩, false, false, parent⟩ children

/-- A root with one child below it. -/
def rootWithChild (id child : ℕ) (lmIp : UInt64) : CctNode :=
  plainNode id 10 none (.node .nil (plainNode child lmIp (some id) .nil) .nil)

end HpcToolkit.Cct
