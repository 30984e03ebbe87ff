import HpcToolkit.HpcStruct.StmtMap

/-! # Inline trees

A node of an inline tree has a statement map, the loops found at this level, and a map from call sites to the trees of
the functions inlined there. The operations on such trees only move statements and loops around: each of them adds to a
tree what it is given, wherever in the tree it puts it.
-/

open List
open Multiset (add_bind coe_add coe_bind cons_coe map_coe mem_coe sum_add sum_coe)
open Prod (fst_add mk_add_mk snd_add)

namespace HpcToolkit.HpcStruct

/-! ## Call sites -/

/-- File, line and pretty name of an inlined call. -/
structure FLPIndex where
  fileIndex : ℤ
  baseIndex : ℤ
  lineNum : ℤ
  prettyIndex : ℤ

namespace FLPIndex

/-- `operator ==`. -/
def same (t₁ t₂ : FLPIndex) : Bool :=
  t₁.fileIndex = t₂.fileIndex && t₁.lineNum = t₂.lineNum && t₁.prettyIndex = t₂.prettyIndex

/-- `FLPCompare`. -/
def less (t₁ t₂ : FLPIndex) : Bool :=
  if t₁.fileIndex < t₂.fileIndex then true
  else if t₁.fileIndex > t₂.fileIndex then false
  else if t₁.lineNum < t₂.lineNum then true
  else if t₁.lineNum > t₂.lineNum then false
  else t₁.prettyIndex < t₂.prettyIndex

end FLPIndex

abbrev FLPSeqn := List FLPIndex

/-! ## Trees -/

/-- What a `LoopInfo` says about its loop; the tree of the loop stands beside it. -/
structure LoopAttrs where
  path : FLPSeqn
  name : String
  entryVma : ℕ
  fileIndex : ℤ
  baseIndex : ℤ
  lineNum : ℤ
  irred : Bool

inductive TreeNode where
  | mk (nodeMap : List (FLPIndex × TreeNode)) (stmtMap : StmtMap) (loopList : List (LoopAttrs × TreeNode))

abbrev LoopInfo := LoopAttrs × TreeNode

namespace TreeNode

def nodeMap : TreeNode → List (FLPIndex × TreeNode)
  | mk nodes _ _ => nodes

def stmtMap : TreeNode → StmtMap
  | mk _ stmts _ => stmts

def loopList : TreeNode → List LoopInfo
  | mk _ _ loops => loops

/-- `new TreeNode`. -/
def empty : TreeNode := mk [] .empty []

/-- `stmtMap.insert`. -/
def insertStmt (sinfo : StmtInfo) : TreeNode → TreeNode
  | mk nodes stmts loops => mk nodes (stmts.insert sinfo) loops

/-- `loopList.push_back`. -/
def pushLoop (info : LoopInfo) : TreeNode → TreeNode
  | mk nodes stmts loops => mk nodes stmts (loops ++ [info])

/-- The node map with the subtree of an edge changed, or with a new subtree if there is no such edge. The map is ordered
by `FLPCompare`, so the edge is there or its place is before the first greater one. -/
def atEdge (flp : FLPIndex) (found : TreeNode → TreeNode) (absent : TreeNode) :
    List (FLPIndex × TreeNode) → List (FLPIndex × TreeNode)
  | [] => [(flp, absent)]
  | (key, node) :: rest =>
    if key.same flp then (key, found node) :: rest
    else if flp.less key then (flp, absent) :: (key, node) :: rest
    else (key, node) :: atEdge flp found absent rest

/-- Follow a path down the tree, inserting the edges that do not exist, and change the node at its end. -/
def followPath (f : TreeNode → TreeNode) : FLPSeqn → TreeNode → TreeNode
  | [], node => f node
  | flp :: rest, mk nodes stmts loops =>
    mk (atEdge flp (followPath f rest) (followPath f rest empty) nodes) stmts loops

mutual

/-- Merge the statements and loops of the second tree into the first, then its subtrees. -/
def mergeInlineTree (dest : TreeNode) : TreeNode → TreeNode
  | mk nodes stmts loops =>
    mergeInlineEdges (mk dest.nodeMap (stmts.stmts.foldl StmtMap.insert dest.stmtMap) (dest.loopList ++ loops)) nodes

/-- `mergeInlineEdge` for each of some edges. -/
def mergeInlineEdges (dest : TreeNode) : List (FLPIndex × TreeNode) → TreeNode
  | [] => dest
  | (flp, src) :: rest =>
    mergeInlineEdges
      (mk (atEdge flp (fun node => mergeInlineTree node src) src dest.nodeMap) dest.stmtMap dest.loopList) rest

end

/-- The part of a source path that is not common to a path above the destination. -/
def dropCommon : FLPSeqn → FLPSeqn → FLPSeqn
  | d :: path, s :: source => if d.same s then dropCommon path source else s :: source
  | _, source => source

def mergeInlineLoop (dest : TreeNode) (path : FLPSeqn) (info : LoopInfo) : TreeNode :=
  followPath (pushLoop info) (dropCommon path info.1.path) dest

/-! ## The nodes of a tree -/

mutual

/-- The nodes of a tree that are not inside its loops. -/
def inlineNodes : TreeNode → List TreeNode
  | mk nodes stmts loops => mk nodes stmts loops :: inlineNodesOfEdges nodes

def inlineNodesOfEdges : List (FLPIndex × TreeNode) → List TreeNode
  | [] => []
  | (_, node) :: rest => inlineNodes node ++ inlineNodesOfEdges rest

end

mutual

/-- The nodes of a tree, those inside its loops among them. -/
def allNodes : TreeNode → List TreeNode
  | mk nodes stmts loops => mk nodes stmts loops :: (allNodesOfEdges nodes ++ allNodesOfLoops loops)

def allNodesOfEdges : List (FLPIndex × TreeNode) → List TreeNode
  | [] => []
  | (_, node) :: rest => allNodes node ++ allNodesOfEdges rest

def allNodesOfLoops : List (LoopAttrs × TreeNode) → List TreeNode
  | [] => []
  | (_, node) :: rest => allNodes node ++ allNodesOfLoops rest

end

/-- The statement maps of a tree. -/
def stmtMaps (t : TreeNode) : List StmtMap := t.allNodes.map stmtMap

/-- The loops of a tree, nested ones among them. -/
def loopInfos (t : TreeNode) : List LoopInfo := t.allNodes.flatMap loopList

lemma inlineNodesOfEdges_eq (edges : List (FLPIndex × TreeNode)) :
    inlineNodesOfEdges edges = edges.flatMap fun e => e.2.inlineNodes := by
  induction edges with
  | nil => rfl
  | cons e rest ih => rw [inlineNodesOfEdges, ih, flatMap_cons]

lemma allNodesOfEdges_eq (edges : List (FLPIndex × TreeNode)) :
    allNodesOfEdges edges = edges.flatMap fun e => e.2.allNodes := by
  induction edges with
  | nil => rfl
  | cons e rest ih => rw [allNodesOfEdges, ih, flatMap_cons]

lemma allNodesOfLoops_eq (loops : List LoopInfo) :
    allNodesOfLoops loops = loops.flatMap fun l => l.2.allNodes := by
  induction loops with
  | nil => rfl
  | cons l rest ih => rw [allNodesOfLoops, ih, flatMap_cons]

lemma inductionOn {P : TreeNode → Prop}
    (node : ∀ nodes stmts loops, (∀ e ∈ nodes, P e.2) → (∀ l ∈ loops, P l.2) → P (mk nodes stmts loops)) :
    ∀ t, P t := by
  intro t
  apply @TreeNode.rec P (fun es => ∀ e ∈ es, P e.2) (fun ls => ∀ l ∈ ls, P l.2) (fun e => P e.2) (fun l => P l.2)
  · exact fun nodes stmts loops edges inner => node nodes stmts loops edges inner
  · exact fun e he => absurd he not_mem_nil
  · exact fun e rest first others => forall_mem_cons.mpr ⟨first, others⟩
  · exact fun l hl => absurd hl not_mem_nil
  · exact fun l rest first others => forall_mem_cons.mpr ⟨first, others⟩
  · exact fun _ _ h => h
  · exact fun _ _ h => h

/-! ## What a tree holds -/

/-- The addresses of the statements of a tree that are not inside its loops, and these loops. -/
def held (t : TreeNode) : Multiset ℕ × Multiset LoopInfo :=
  (t.inlineNodes.map fun n => (n.stmtMap.addresses, (n.loopList : Multiset LoopInfo))).sum

def heldByEdges (edges : List (FLPIndex × TreeNode)) : Multiset ℕ × Multiset LoopInfo :=
  (edges.map fun e => e.2.held).sum

/-- The statement maps of a tree that are not inside its loops are proper. -/
def Proper (t : TreeNode) : Prop := ∀ n ∈ t.inlineNodes, n.stmtMap.Proper

lemma held_mk (nodes : List (FLPIndex × TreeNode)) (stmts : StmtMap) (loops : List LoopInfo) :
    (mk nodes stmts loops).held = (stmts.addresses, (loops : Multiset LoopInfo)) + heldByEdges nodes := by
  have edges : (mk nodes stmts loops).inlineNodes = mk nodes stmts loops :: nodes.flatMap fun e => e.2.inlineNodes := by
    rw [inlineNodes, inlineNodesOfEdges_eq]
  rw [held, edges, map_cons, sum_cons, heldByEdges, map_flatMap, flatMap,
    sum_flatten, map_map]
  rfl

variable {stmts : StmtMap} {loops : List LoopInfo} {nodes : List (FLPIndex × TreeNode)}

lemma proper_mk :
    (mk nodes stmts loops).Proper ↔ stmts.Proper ∧ ∀ e ∈ nodes, e.2.Proper := by
  simp only [Proper, inlineNodes, inlineNodesOfEdges_eq, forall_mem_cons, mem_flatMap]
  constructor
  · rintro ⟨here, below⟩
    exact ⟨here, fun e he n hn => below n ⟨e, he, hn⟩⟩
  · rintro ⟨here, below⟩
    exact ⟨here, fun n ⟨e, he, hn⟩ => below e he n hn⟩

lemma held_empty : empty.held = 0 := rfl

lemma proper_empty : empty.Proper := by
  rw [empty, proper_mk]
  exact ⟨fun s hs => absurd hs not_mem_nil, fun e he => absurd he not_mem_nil⟩

lemma heldByEdges_cons (e : FLPIndex × TreeNode) (rest : List (FLPIndex × TreeNode)) :
    heldByEdges (e :: rest) = e.2.held + heldByEdges rest := by
  rw [heldByEdges, map_cons, sum_cons, heldByEdges]

/-- The operation adds these addresses and loops to any tree that has none of the addresses. -/
def Adds (f : TreeNode → TreeNode) (x : Multiset ℕ × Multiset LoopInfo) : Prop :=
  ∀ t : TreeNode, t.Proper → MeasuredByInt (t.held + x).1 → (f t).Proper ∧ (f t).held = t.held + x

variable {f : TreeNode → TreeNode} {x : Multiset ℕ × Multiset LoopInfo}

lemma Adds.foldl {α : Type} {op : TreeNode → α → TreeNode} {y : α → Multiset ℕ × Multiset LoopInfo} (l : List α)
    (adds : ∀ a ∈ l, Adds (op · a) (y a)) : Adds (l.foldl op) (l.map y).sum := by
  induction l with
  | nil => exact fun t proper _ => ⟨proper, (add_zero _).symm⟩
  | cons a rest ih =>
    intro t proper measurable
    rw [map_cons, sum_cons, ← add_assoc] at measurable ⊢
    have first := measurable.mono (Multiset.le_add_right _ _)
    obtain ⟨properNext, heldNext⟩ := adds a mem_cons_self t proper first
    rw [← heldNext] at measurable ⊢
    exact ih (fun b hb => adds b (mem_cons_of_mem a hb)) _ properNext measurable

lemma foldl_insert_top (proper : (mk nodes stmts loops).Proper) (new : List StmtInfo) (properNew : ∀ s ∈ new, s.Proper)
    (measurable : MeasuredByInt ((mk nodes stmts loops).held.1 + (new.map StmtInfo.addresses).sum)) :
    (mk nodes (new.foldl StmtMap.insert stmts) loops).Proper ∧
      (mk nodes (new.foldl StmtMap.insert stmts) loops).held =
        (mk nodes stmts loops).held + ((new.map StmtInfo.addresses).sum, 0) := by
  obtain ⟨properStmts, properEdges⟩ := proper_mk.mp proper
  rw [held_mk, fst_add, add_right_comm] at measurable
  obtain ⟨properMap, addresses⟩ :=
    StmtMap.foldl_insert_spec new properStmts properNew (measurable.mono (Multiset.le_add_right _ _))
  refine ⟨proper_mk.mpr ⟨properMap, properEdges⟩, ?_⟩
  rw [held_mk, held_mk, addresses, add_right_comm]
  simp only [mk_add_mk, add_zero]

lemma adds_insertStmt {sinfo : StmtInfo} (new : sinfo.Proper) : Adds (insertStmt sinfo) (sinfo.addresses, 0) := by
  rintro ⟨nodes, stmts, loops⟩ proper measurable
  have inserted := foldl_insert_top proper [sinfo] (forall_mem_singleton.mpr new)
  rw [map_singleton, sum_singleton] at inserted
  exact inserted measurable

/-- Loops alone. -/
def ofLoops (loops : List LoopInfo) : Multiset ℕ × Multiset LoopInfo := (0, ↑loops)

@[simp] lemma ofLoops_nil : ofLoops [] = 0 := rfl

lemma ofLoops_append (loops more : List LoopInfo) : ofLoops (loops ++ more) = ofLoops loops + ofLoops more := rfl

lemma ofLoops_cons (l : LoopInfo) (rest : List LoopInfo) : ofLoops (l :: rest) = ofLoops [l] + ofLoops rest := rfl

lemma held_append_loops (nodes : List (FLPIndex × TreeNode)) (stmts : StmtMap) (loops more : List LoopInfo) :
    (mk nodes stmts (loops ++ more)).held = (mk nodes stmts loops).held + ofLoops more := by
  rw [held_mk, held_mk, add_right_comm, ← coe_add]
  simp only [ofLoops, mk_add_mk, add_zero]

lemma adds_pushLoop (info : LoopInfo) : Adds (pushLoop info) (ofLoops [info]) := by
  rintro ⟨nodes, stmts, loops⟩ proper _
  exact ⟨proper_mk.mpr (proper_mk.mp proper), held_append_loops nodes stmts loops [info]⟩

variable {absent : TreeNode}

lemma atEdge_spec (flp : FLPIndex) (adds : Adds f x) (properAbsent : absent.Proper)
    (heldAbsent : absent.held = x) (proper : ∀ e ∈ nodes, e.2.Proper)
    (measurable : MeasuredByInt (heldByEdges nodes + x).1) :
    (∀ e ∈ atEdge flp f absent nodes, e.2.Proper) ∧ heldByEdges (atEdge flp f absent nodes) = heldByEdges nodes + x := by
  induction nodes with
  | nil =>
    refine ⟨forall_mem_singleton.mpr properAbsent, ?_⟩
    rw [atEdge, heldByEdges_cons, heldAbsent, add_comm]
  | cons e rest ih =>
    obtain ⟨properFirst, properRest⟩ := forall_mem_cons.mp proper
    rw [heldByEdges_cons] at measurable ⊢
    rw [atEdge]
    split_ifs with found before
    · rw [add_right_comm] at measurable
      obtain ⟨properNext, heldNext⟩ := adds e.2 properFirst (measurable.mono (Multiset.le_add_right _ _))
      refine ⟨forall_mem_cons.mpr ⟨properNext, properRest⟩, ?_⟩
      rw [heldByEdges_cons, heldNext, add_right_comm]
    · refine ⟨forall_mem_cons.mpr ⟨properAbsent, proper⟩, ?_⟩
      rw [heldByEdges_cons, heldByEdges_cons, heldAbsent, add_comm]
    · rw [add_assoc] at measurable
      obtain ⟨properNext, heldNext⟩ := ih properRest (measurable.mono (Multiset.le_add_left _ _))
      refine ⟨forall_mem_cons.mpr ⟨properFirst, properNext⟩, ?_⟩
      rw [heldByEdges_cons, heldNext, add_assoc]

lemma adds_atEdge (flp : FLPIndex) (adds : Adds f x) (properAbsent : absent.Proper)
    (heldAbsent : absent.held = x) :
    Adds (fun t => mk (atEdge flp f absent t.nodeMap) t.stmtMap t.loopList) x := by
  rintro ⟨nodes, stmts, loops⟩ proper measurable
  obtain ⟨properStmts, properEdges⟩ := proper_mk.mp proper
  rw [held_mk, add_assoc] at measurable
  obtain ⟨properNext, heldNext⟩ :=
    atEdge_spec flp adds properAbsent heldAbsent properEdges (measurable.mono (Multiset.le_add_left _ _))
  refine ⟨proper_mk.mpr ⟨properStmts, properNext⟩, ?_⟩
  rw [held_mk, held_mk nodes, add_assoc, ← heldNext]
  rfl

lemma adds_followPath (adds : Adds f x) (path : FLPSeqn) : Adds (followPath f path) x := by
  induction path with
  | nil => exact adds
  | cons flp rest ih =>
    rintro ⟨nodes, stmts, loops⟩ proper measurable
    have alone : MeasuredByInt (empty.held + x).1 := by
      rw [held_empty, zero_add]
      exact measurable.mono (Multiset.le_add_left _ _)
    obtain ⟨properAbsent, heldAbsent⟩ := ih empty proper_empty alone
    rw [held_empty, zero_add] at heldAbsent
    exact adds_atEdge flp ih properAbsent heldAbsent _ proper measurable

lemma adds_mergeInlineLoop (path : FLPSeqn) (info : LoopInfo) :
    Adds (fun dest => mergeInlineLoop dest path info) (ofLoops [info]) :=
  adds_followPath (adds_pushLoop info) _

variable {t : TreeNode}

lemma mergeInlineLoops_spec (path : FLPSeqn) (list : List LoopInfo) (proper : t.Proper)
    (measurable : MeasuredByInt t.held.1) :
    (list.foldl (fun dest info => mergeInlineLoop dest path info) t).Proper ∧
      (list.foldl (fun dest info => mergeInlineLoop dest path info) t).held = t.held + ofLoops list := by
  have sum : (list.map fun l => ofLoops [l]).sum = ofLoops list := by
    induction list with
    | nil => rfl
    | cons l rest ih => rw [map_cons, sum_cons, ih, ← ofLoops_cons]
  have adds := Adds.foldl list (fun l _ => adds_mergeInlineLoop path l)
  rw [sum] at adds
  apply adds t proper
  rw [ofLoops, fst_add, add_zero]
  exact measurable

lemma mergeInlineEdges_eq (dest : TreeNode) (nodes : List (FLPIndex × TreeNode)) :
    mergeInlineEdges dest nodes = nodes.foldl (fun dest e =>
      mk (atEdge e.1 (fun node => mergeInlineTree node e.2) e.2 dest.nodeMap) dest.stmtMap dest.loopList) dest := by
  induction nodes generalizing dest with
  | nil => rw [mergeInlineEdges, foldl_nil]
  | cons e rest ih => rw [mergeInlineEdges, ih, foldl_cons]

lemma adds_mergeInlineEdges_of (nodes : List (FLPIndex × TreeNode)) (proper : ∀ e ∈ nodes, e.2.Proper)
    (adds : ∀ e ∈ nodes, Adds (fun dest => mergeInlineTree dest e.2) e.2.held) :
    Adds (fun dest => mergeInlineEdges dest nodes) (heldByEdges nodes) := by
  simp only [mergeInlineEdges_eq]
  apply Adds.foldl
  intro e he
  exact adds_atEdge e.1 (adds e he) (proper e he) rfl

lemma adds_mergeInlineTree (src : TreeNode) (proper : src.Proper) :
    Adds (fun dest => mergeInlineTree dest src) src.held := by
  induction src using inductionOn with
  | node nodes stmts loops edges _ =>
    obtain ⟨properStmts, properEdges⟩ := proper_mk.mp proper
    have below := adds_mergeInlineEdges_of nodes properEdges fun e he => edges e he (properEdges e he)
    rintro ⟨destNodes, destStmts, destLoops⟩ properDest measurable
    rw [held_mk nodes, ← add_assoc] at measurable ⊢
    have top := measurable.mono (Multiset.le_add_right _ _)
    obtain ⟨properTop, heldTop⟩ := foldl_insert_top properDest stmts.stmts properStmts top
    have moved : (mk destNodes (stmts.stmts.foldl StmtMap.insert destStmts) (destLoops ++ loops)).held =
        (mk destNodes destStmts destLoops).held + (stmts.addresses, (loops : Multiset LoopInfo)) := by
      rw [held_append_loops, heldTop, add_assoc]
      congr 1
      rw [ofLoops, mk_add_mk, add_zero, zero_add]
      rfl
    rw [← moved] at measurable ⊢
    exact below _ (proper_mk.mpr (proper_mk.mp properTop)) measurable

lemma adds_mergeInlineEdges (nodes : List (FLPIndex × TreeNode)) (proper : ∀ e ∈ nodes, e.2.Proper) :
    Adds (fun dest => mergeInlineEdges dest nodes) (heldByEdges nodes) :=
  adds_mergeInlineEdges_of nodes proper fun e he => adds_mergeInlineTree e.2 (proper e he)

/-! ## Trees with the insides of their loops -/

lemma allNodes_mk (nodes : List (FLPIndex × TreeNode)) (stmts : StmtMap) (loops : List LoopInfo) :
    (mk nodes stmts loops).allNodes = mk nodes stmts loops ::
      ((nodes.flatMap fun e => e.2.allNodes) ++ loops.flatMap fun l => l.2.allNodes) := by
  rw [allNodes, allNodesOfEdges_eq, allNodesOfLoops_eq]

/-- The nodes inside the loops that a tree holds. -/
def loopNodes (loops : Multiset LoopInfo) : Multiset TreeNode := loops.bind fun l => (l.2.allNodes : Multiset TreeNode)

lemma loopNodes_coe (loops : List LoopInfo) : loopNodes loops = ↑(loops.flatMap fun l => l.2.allNodes) :=
  coe_bind loops _

lemma loopNodes_add (loops more : Multiset LoopInfo) : loopNodes (loops + more) = loopNodes loops + loopNodes more :=
  add_bind _ _ _

lemma edges_allNodes_eq {edges : List (FLPIndex × TreeNode)}
    (each : ∀ e ∈ edges, (e.2.allNodes : Multiset TreeNode) = ↑e.2.inlineNodes + loopNodes e.2.held.2) :
    (edges.flatMap (fun e => e.2.allNodes) : Multiset TreeNode) =
      ↑(edges.flatMap fun e => e.2.inlineNodes) + loopNodes (heldByEdges edges).2 := by
  induction edges with
  | nil => rfl
  | cons e rest ih =>
    obtain ⟨first, others⟩ := forall_mem_cons.mp each
    rw [flatMap_cons, flatMap_cons, ← coe_add, ← coe_add, first, ih others,
      heldByEdges_cons, snd_add, loopNodes_add]
    exact add_add_add_comm _ _ _ _

lemma allNodes_eq (t : TreeNode) :
    (t.allNodes : Multiset TreeNode) = (t.inlineNodes : Multiset TreeNode) + loopNodes t.held.2 := by
  induction t using inductionOn with
  | node nodes stmts loops edges _ =>
    rw [allNodes_mk, held_mk, snd_add, loopNodes_add, loopNodes_coe, inlineNodes, inlineNodesOfEdges_eq,
      ← cons_coe, ← cons_coe, ← coe_add, edges_allNodes_eq edges, Multiset.cons_add]
    congr 1
    rw [add_assoc, add_comm (loopNodes _)]

/-- The addresses of all statements of a tree. -/
def addresses (t : TreeNode) : Multiset ℕ := (t.stmtMaps.map StmtMap.addresses).sum

def AllProper (t : TreeNode) : Prop := ∀ n ∈ t.allNodes, n.stmtMap.Proper

lemma allProper_iff (t : TreeNode) : t.AllProper ↔ t.Proper ∧ ∀ l ∈ t.held.2, l.2.AllProper := by
  have member : ∀ n, n ∈ t.allNodes ↔ n ∈ t.inlineNodes ∨ n ∈ loopNodes t.held.2 := by
    intro n
    rw [← mem_coe, allNodes_eq, Multiset.mem_add, mem_coe]
  simp only [AllProper, member, Proper, loopNodes, Multiset.mem_bind, mem_coe]
  constructor
  · intro all
    exact ⟨fun n hn => all n (.inl hn), fun l hl n hn => all n (.inr ⟨l, hl, hn⟩)⟩
  · rintro ⟨outside, inside⟩ n (hn | ⟨l, hl, hn⟩)
    · exact outside n hn
    · exact inside l hl n hn

lemma held_fst (t : TreeNode) :
    t.held.1 = ((t.inlineNodes : Multiset TreeNode).map fun n => n.stmtMap.addresses).sum := by
  rw [held, ← AddMonoidHom.coe_fst, map_list_sum, map_map, map_coe, sum_coe]
  rfl

lemma held_snd (t : TreeNode) :
    t.held.2 = (t.inlineNodes : Multiset TreeNode).bind fun n => (n.loopList : Multiset LoopInfo) := by
  rw [held, ← AddMonoidHom.coe_snd, map_list_sum, map_map, Multiset.bind, Multiset.join, map_coe,
    sum_coe]
  rfl

lemma addresses_eq (t : TreeNode) : t.addresses = t.held.1 + (t.held.2.map fun l => l.2.addresses).sum := by
  have sum : ∀ t : TreeNode, t.addresses = ((t.allNodes : Multiset TreeNode).map fun n => n.stmtMap.addresses).sum := by
    intro t
    rw [addresses, stmtMaps, map_map, map_coe, sum_coe]
    rfl
  rw [sum, allNodes_eq, Multiset.map_add, sum_add, held_fst, loopNodes, Multiset.map_bind, Multiset.sum_bind]
  simp only [sum]

lemma loopInfos_eq (t : TreeNode) :
    (t.loopInfos : Multiset LoopInfo) = t.held.2 + t.held.2.bind fun l => (l.2.loopInfos : Multiset LoopInfo) := by
  have bind : ∀ t : TreeNode, (t.loopInfos : Multiset LoopInfo) =
      (t.allNodes : Multiset TreeNode).bind fun n => (n.loopList : Multiset LoopInfo) := by
    intro t
    rw [coe_bind, loopInfos]
  rw [bind, allNodes_eq, add_bind, ← held_snd, loopNodes, Multiset.bind_assoc]
  simp only [bind]

variable {l : LoopInfo}

lemma mem_held_of_mem_loopList (hl : l ∈ t.loopList) : l ∈ t.held.2 := by
  obtain ⟨nodes, stmts, loops⟩ := t
  rw [held_mk, snd_add]
  exact Multiset.mem_add.mpr (.inl hl)

lemma held_le_addresses (t : TreeNode) : t.held.1 ≤ t.addresses := by
  rw [addresses_eq]
  exact Multiset.le_add_right _ _

lemma held_loopList_le (t : TreeNode) :
    (t.held + (t.loopList.map fun l : LoopInfo => l.2.held).sum).1 ≤ t.addresses := by
  obtain ⟨nodes, stmts, loops⟩ := t
  have inside : (map (fun l : LoopInfo => l.2.held) loops).sum.1 ≤
      (loops.map fun l : LoopInfo => l.2.addresses).sum := by
    rw [← AddMonoidHom.coe_fst, map_list_sum, map_map]
    apply sum_le_sum
    intro l _
    exact held_le_addresses l.2
  rw [addresses_eq, fst_add]
  apply add_le_add_right
  rw [held_mk, snd_add, Multiset.map_add, sum_add, map_coe, sum_coe]
  exact inside.trans (Multiset.le_add_right _ _)

lemma allNodes_subset {t n : TreeNode} (hn : n ∈ t.allNodes) : n.allNodes ⊆ t.allNodes := by
  induction t using inductionOn with
  | node nodes stmts loops edges inner =>
    rw [allNodes_mk] at hn ⊢
    obtain rfl | below := mem_cons.mp hn
    · rw [allNodes_mk]
      exact List.Subset.refl _
    · apply subset_cons_of_subset
      obtain byEdge | byLoop := mem_append.mp below
      · obtain ⟨e, he, member⟩ := mem_flatMap.mp byEdge
        apply subset_append_of_subset_left
        exact fun k hk => mem_flatMap.mpr ⟨e, he, edges e he member hk⟩
      · obtain ⟨l, hl, member⟩ := mem_flatMap.mp byLoop
        apply subset_append_of_subset_right
        exact fun k hk => mem_flatMap.mpr ⟨l, hl, inner l hl member hk⟩

lemma stmtMaps_subset_of_mem_loopInfos (hl : l ∈ t.loopInfos) :
    l.2.stmtMaps ⊆ t.stmtMaps := by
  obtain ⟨n, hn, member⟩ := mem_flatMap.mp hl
  apply map_subset
  obtain ⟨nodes, stmts, loops⟩ := n
  refine List.Subset.trans ?_ (allNodes_subset hn)
  rw [allNodes_mk]
  apply subset_cons_of_subset
  apply subset_append_of_subset_right
  exact fun k hk => mem_flatMap.mpr ⟨l, member, hk⟩

end TreeNode

end HpcToolkit.HpcStruct
