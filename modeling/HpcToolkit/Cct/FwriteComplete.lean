import HpcToolkit.Cct.Fwrite

/-! # Written trees are complete and well founded

The children-first walk never returns to a node or to a child of a visited node, so the flags it leaves
at the visited nodes are final and the count of displayed nodes is the number of records. A displayed
node has displayed its parent, and the node-first walk visits the parent earlier.
-/

open List

namespace HpcToolkit.Cct

open Lib CctNode
open STree hiding nil node

/-! ## Walking orders -/

variable {t : STree CctNode}

lemma childFirstTree_perm (children : ∀ n ∈ t.toList, (childFirst n).Perm n.nodes) :
    (childFirstTree t).Perm (nodesTree t) := by
  induction t with
  | nil => exact .nil
  | node l n r ihl ihr =>
    simp only [toList_node, mem_append, mem_cons] at children
    rw [childFirstTree, nodesTree]
    refine (ihl fun x member => children x (.inl member)).append ?_
    exact perm_append_comm.trans ((children n (.inr (.inl rfl))).append
      (ihr fun x member => children x (.inr (.inr member))))

lemma childFirst_perm (c : CctNode) : (childFirst c).Perm c.nodes := by
  induction c using inductionOn with
  | step info children ih =>
    rw [childFirst, nodes]
    exact perm_append_comm.trans ((childFirstTree_perm ih).cons _)

lemma nodeFirstTree_perm (children : ∀ n ∈ t.toList, (nodeFirst n).Perm n.nodes) :
    (nodeFirstTree t).Perm (nodesTree t) := by
  induction t with
  | nil => exact .nil
  | node l n r ihl ihr =>
    simp only [toList_node, mem_append, mem_cons] at children
    rw [nodeFirstTree, nodesTree]
    refine (ihl fun x member => children x (.inl member)).append ?_
    exact perm_append_comm.trans ((children n (.inr (.inl rfl))).append
      (ihr fun x member => children x (.inr (.inr member))))

lemma nodeFirst_perm (c : CctNode) : (nodeFirst c).Perm c.nodes := by
  induction c using inductionOn with
  | step info children ih =>
    rw [nodeFirst, nodes]
    exact (nodeFirstTree_perm ih).cons _

/-- A later visit is neither to an earlier node nor to a child of one. -/
def Settled (earlier later : CctNode) : Prop :=
  later.id ≠ earlier.id ∧ later.info.parent ≠ some earlier.id

lemma parent_of_mem_nodes {c x : CctNode} (parents : c.ParentsOk) (member : x ∈ c.nodes) :
    x.info.parent = c.info.parent ∨ ∃ y ∈ c.nodes, x.info.parent = some y.id := by
  cases mem_nodes.mp member with
  | refl => exact .inl rfl
  | child further inside => exact .inr ⟨_, mem_nodes.mpr further, parents _ further x inside⟩

variable {parent : ℕ} {x : CctNode}

lemma parent_of_mem_nodesTree (parents : ∀ n ∈ t.toList, n.info.parent = some parent ∧ n.ParentsOk)
    (member : x ∈ nodesTree t) : x.info.parent = some parent ∨ ∃ y ∈ nodesTree t, x.info.parent = some y.id := by
  rw [nodesTree_eq] at member ⊢
  obtain ⟨n, inT, inN⟩ := mem_flatMap.mp member
  rcases parent_of_mem_nodes (parents n inT).2 inN with own | ⟨y, inside, isParent⟩
  · exact .inl (own.trans (parents n inT).1)
  · exact .inr ⟨y, mem_flatMap.mpr ⟨n, inT, inside⟩, isParent⟩

private lemma settled_of_separate {earlier later : List CctNode} (parent : ℕ)
    (separate : ∀ y ∈ earlier, ∀ x ∈ later, x.id ≠ y.id) (fresh : ∀ y ∈ earlier, parent ≠ y.id)
    (parents : ∀ x ∈ later, x.info.parent = some parent ∨ ∃ y ∈ later, x.info.parent = some y.id) :
    ∀ y ∈ earlier, ∀ x ∈ later, Settled y x := by
  intro y memberY x memberX
  refine ⟨separate y memberY x memberX, fun isParent => ?_⟩
  rcases parents x memberX with own | ⟨z, memberZ, inside⟩
  · exact fresh y memberY (Option.some.inj (own.symm.trans isParent))
  · exact separate y memberY z memberZ (Option.some.inj (inside.symm.trans isParent))

lemma settled_childFirstTree (parents : ∀ n ∈ t.toList, n.info.parent = some parent ∧ n.ParentsOk)
    (distinct : ((nodesTree t).map CctNode.id).Nodup) (fresh : ∀ y ∈ nodesTree t, parent ≠ y.id)
    (children : ∀ n ∈ t.toList, (childFirst n).Pairwise Settled) : (childFirstTree t).Pairwise Settled := by
  induction t with
  | nil => exact .nil
  | node l n r ihl ihr =>
    simp only [toList_node, mem_append, mem_cons] at parents children
    simp only [nodesTree, map_append, nodup_append, mem_append] at distinct fresh
    obtain ⟨distinctL, ⟨distinctN, distinctR, separateNR⟩, separateL⟩ := distinct
    have parentsL := fun x member => parents x (.inl member)
    have parentsR := fun x member => parents x (.inr (.inr member))
    have parentsN := parents n (.inr (.inl rfl))
    have inL : ∀ {x}, x ∈ childFirstTree l ↔ x ∈ nodesTree l :=
      (childFirstTree_perm fun x _ => childFirst_perm x).mem_iff
    have inR : ∀ {x}, x ∈ childFirstTree r ↔ x ∈ nodesTree r :=
      (childFirstTree_perm fun x _ => childFirst_perm x).mem_iff
    have inN : ∀ {x}, x ∈ childFirst n ↔ x ∈ n.nodes := (childFirst_perm n).mem_iff
    have idMem : ∀ {x : CctNode} {l : List CctNode}, x ∈ l → x.id ∈ l.map CctNode.id :=
      fun member => mem_map.mpr ⟨_, member, rfl⟩
    rw [childFirstTree, pairwise_append, pairwise_append]
    refine ⟨ihl parentsL distinctL (fun y member => fresh y (.inl member)) fun x member => children x (.inl member),
      ⟨ihr parentsR distinctR (fun y member => fresh y (.inr (.inr member)))
        fun x member => children x (.inr (.inr member)), children n (.inr (.inl rfl)), ?_⟩, ?_⟩
    · refine settled_of_separate parent ?_ ?_ ?_
      · exact fun y memberY x memberX same =>
          separateNR x.id (idMem (inN.mp memberX)) y.id (idMem (inR.mp memberY)) same
      · exact fun y memberY => fresh y (.inr (.inr (inR.mp memberY)))
      · intro x memberX
        simp only [inN] at memberX ⊢
        exact parentsN.1 ▸ parent_of_mem_nodes parentsN.2 memberX
    · refine settled_of_separate parent ?_ ?_ ?_
      · intro y memberY x memberX same
        refine separateL y.id (idMem (inL.mp memberY)) x.id ?_ same.symm
        rcases mem_append.mp memberX with right | own
        · exact .inr (idMem (inR.mp right))
        · exact .inl (idMem (inN.mp own))
      · exact fun y memberY => fresh y (.inl (inL.mp memberY))
      · intro x memberX
        simp only [mem_append, inR, inN] at memberX ⊢
        rcases memberX with right | own
        · rcases parent_of_mem_nodesTree parentsR right with outer | ⟨y, inside, isParent⟩
          · exact .inl outer
          · exact .inr ⟨y, .inl inside, isParent⟩
        · rcases parent_of_mem_nodes parentsN.2 own with outer | ⟨y, inside, isParent⟩
          · exact .inl (outer.trans parentsN.1)
          · exact .inr ⟨y, .inr inside, isParent⟩

lemma settled_childFirst (c : CctNode) (parents : c.ParentsOk) (distinct : (c.nodes.map CctNode.id).Nodup)
    (outside : ∀ y ∈ c.nodes, c.info.parent ≠ some y.id) : (childFirst c).Pairwise Settled := by
  induction c using inductionOn with
  | step info children ih =>
    rw [nodes, map_cons, nodup_cons] at distinct
    have ok := parentsOk_iff.mp parents
    have fresh : ∀ y ∈ nodesTree children, info.id ≠ y.id := fun y member same =>
      distinct.1 (mem_map.mpr ⟨y, member, same.symm⟩)
    have inTree : ∀ {x}, x ∈ childFirstTree children ↔ x ∈ nodesTree children :=
      (childFirstTree_perm fun x _ => childFirst_perm x).mem_iff
    rw [childFirst, pairwise_append]
    refine ⟨settled_childFirstTree ok distinct.2 fresh fun n member => ?_, pairwise_singleton _ _, ?_⟩
    · have inside : ∀ y ∈ n.nodes, y ∈ nodesTree children := fun y memberY => by
        rw [nodesTree_eq]
        exact mem_flatMap.mpr ⟨n, member, memberY⟩
      refine ih n member (ok n member).2 ?_ fun y memberY same => ?_
      · have whole := distinct.2
        rw [nodesTree_eq, map_flatMap, nodup_flatMap] at whole
        exact whole.1 n member
      · rw [(ok n member).1] at same
        exact fresh y (inside y memberY) (Option.some.inj same)
    · intro y memberY x memberX
      rw [mem_singleton] at memberX
      subst memberX
      refine ⟨fresh y (inTree.mp memberY), outside y ?_⟩
      rw [nodes]
      exact .tail _ (inTree.mp memberY)

/-- Each node has its parent among the nodes seen so far, which grow along the list. -/
def Grounded (seen : List CctNode) : List CctNode → Prop
  | [] => True
  | x :: rest => (∃ y ∈ seen, x ∈ y.children.toList) ∧ Grounded (x :: seen) rest

variable {l : List CctNode}

lemma Grounded.mono {seen seen' : List CctNode} (subset : seen ⊆ seen')
    (grounded : Grounded seen l) : Grounded seen' l := by
  induction l generalizing seen seen' with
  | nil => trivial
  | cons x rest ih =>
    obtain ⟨⟨y, member, child⟩, later⟩ := grounded
    exact ⟨⟨y, subset member, child⟩, ih (cons_subset_cons x subset) later⟩

lemma Grounded.append {seen l l' : List CctNode} (first : Grounded seen l) (second : Grounded seen l') :
    Grounded seen (l ++ l') := by
  induction l generalizing seen with
  | nil => exact second
  | cons x rest ih => exact ⟨first.1, ih first.2 (second.mono (subset_cons_self x seen))⟩

lemma grounded_nodeFirstTree {seen : List CctNode} {c : CctNode} (here : c ∈ seen)
    (inside : ∀ n ∈ t.toList, n ∈ c.children.toList)
    (children : ∀ n ∈ t.toList, ∀ seen, n ∈ seen → ∃ rest, nodeFirst n = n :: rest ∧ Grounded seen rest) :
    Grounded seen (nodeFirstTree t) := by
  induction t with
  | nil => trivial
  | node l n r ihl ihr =>
    simp only [toList_node, mem_append, mem_cons] at inside children
    rw [nodeFirstTree]
    refine (ihl (fun x member => inside x (.inl member)) fun x member => children x (.inl member)).append ?_
    refine (ihr (fun x member => inside x (.inr (.inr member)))
      fun x member => children x (.inr (.inr member))).append ?_
    obtain ⟨rest, visits, grounded⟩ := children n (.inr (.inl rfl)) (n :: seen) (.head _)
    rw [visits]
    exact ⟨⟨c, here, inside n (.inr (.inl rfl))⟩, grounded⟩

lemma grounded_nodeFirst (c : CctNode) :
    ∀ seen, c ∈ seen → ∃ rest, nodeFirst c = c :: rest ∧ Grounded seen rest := by
  induction c using inductionOn with
  | step info children ih =>
    intro seen here
    refine ⟨nodeFirstTree children, by rw [nodeFirst], ?_⟩
    exact grounded_nodeFirstTree here (fun n member => member) ih

lemma Grounded.filter {keep : CctNode → Bool} {seen l : List CctNode} (grounded : Grounded seen l)
    (closed : ∀ x ∈ l, ∀ y, x ∈ y.children.toList → (y ∈ seen ∨ y ∈ l) → keep x → keep y) :
    Grounded (seen.filter keep) (l.filter keep) := by
  induction l generalizing seen with
  | nil => trivial
  | cons x rest ih =>
    obtain ⟨⟨y, member, child⟩, later⟩ := grounded
    have tail := ih later fun z memberZ w childW source kept => by
      refine closed z (.tail _ memberZ) w childW ?_ kept
      simp only [mem_cons] at source ⊢
      tauto
    rw [filter_cons] at tail ⊢
    split
    · next kept =>
      rw [if_pos kept] at tail
      exact ⟨⟨y, mem_filter.mpr ⟨member, closed x (.head _) y child (.inl member) kept⟩, child⟩, tail⟩
    · next dropped => rwa [if_neg dropped] at tail

lemma Grounded.split {seen before after : List CctNode}
    (grounded : Grounded seen (before ++ x :: after)) : ∃ y, (y ∈ seen ∨ y ∈ before) ∧ x ∈ y.children.toList := by
  induction before generalizing seen with
  | nil =>
    obtain ⟨⟨y, member, child⟩, -⟩ := grounded
    exact ⟨y, .inl member, child⟩
  | cons z rest ih =>
    obtain ⟨y, source, child⟩ := ih grounded.2
    refine ⟨y, ?_, child⟩
    simp only [mem_cons] at source ⊢
    tauto

/-! ## The counting walk -/

section
variable (kinds : List KindInfo) (persistentId : ℕ → UInt32)

/-- The number of non-zero values of a node. -/
def nonzeroOf (map : Cct2Metrics) (node : CctNode) : ℕ :=
  hpcrunMetricSparseCount kinds (map.metricsOf node.id)

/-- What makes the walk display a node by itself. -/
def marks (map : Cct2Metrics) (node : CctNode) : Bool :=
  nonzeroOf kinds map node != 0 || hpcrunCctRetained persistentId node

lemma markDisplay_iff {display : ℕ → Bool} {node : CctNode} {mark : Bool} {i : ℕ} :
    markDisplay display node mark i = true ↔ display i = true ∨ (i = node.id ∧ mark = true) ∨
      (node.info.parent = some i ∧ (display node.id = true ∨ mark = true)) := by
  unfold markDisplay
  cases node.info.parent with
  | none =>
    cases mark
    · simp
    · by_cases self : i = node.id <;> simp [self]
  | some parent =>
    cases mark
    · cases shown : display node.id
      · simp [shown]
      · by_cases above : i = parent
        · simp [shown, above]
        · simp [shown, above, Ne.symm above]
    · by_cases self : i = node.id
      · by_cases above : i = parent <;> simp [← self, Function.update_apply]
      · by_cases above : i = parent
        · simp [above]
        · simp [self, above, Ne.symm above, Function.update_of_ne]

variable {arg : CountArg}

lemma lCountMark_spec (keepDummy : arg.countDummy = true) (node : CctNode) :
    let arg' := lCountMark kinds persistentId arg node
    arg'.countDummy = true ∧ (∀ i, arg'.map.metricsOf i = arg.map.metricsOf i) ∧
      arg'.display = markDisplay arg.display node (marks kinds persistentId arg.map node) ∧
      arg'.n = (if arg'.display node.id then arg.n + 1 else arg.n) ∧
      arg'.numNzval = arg.numNzval + nonzeroOf kinds arg.map node ∧
      arg'.numNzCctNodes = if nonzeroOf kinds arg.map node ≠ 0 then arg.numNzCctNodes + 1 else arg.numNzCctNodes := by
  have notSkipped : (hpcrunCctIsDummy node && !arg.countDummy) = false := by simp [keepDummy]
  simp only [lCountMark, notSkipped, Bool.false_eq_true, if_false, hpcrunGetMetricDataListSpecific_snd]
  exact ⟨keepDummy, metricsOf_hpcrunGetMetricDataListSpecific arg.map node.id, rfl, trivial, rfl, rfl⟩

lemma nonzeroOf_congr {map map' : Cct2Metrics} (same : ∀ i, map'.metricsOf i = map.metricsOf i) :
    nonzeroOf kinds map' = nonzeroOf kinds map := by
  funext node
  rw [nonzeroOf, nonzeroOf, same]

lemma metricsOf_foldl_lCountMark (l : List CctNode) (keepDummy : arg.countDummy = true) :
    ∀ i, (l.foldl (lCountMark kinds persistentId) arg).map.metricsOf i = arg.map.metricsOf i := by
  induction l generalizing arg with
  | nil => exact fun i => rfl
  | cons x rest ih =>
    obtain ⟨keepDummy', same, -⟩ := lCountMark_spec kinds persistentId keepDummy x
    exact fun i => (ih keepDummy' i).trans (same i)

lemma display_mono_foldl (l : List CctNode) (keepDummy : arg.countDummy = true) {i : ℕ}
    (shown : arg.display i) : (l.foldl (lCountMark kinds persistentId) arg).display i := by
  induction l generalizing arg with
  | nil => exact shown
  | cons x rest ih =>
    obtain ⟨keepDummy', -, display, -⟩ := lCountMark_spec kinds persistentId keepDummy x
    refine ih keepDummy' ?_
    rw [display]
    exact markDisplay_iff.mpr (.inl shown)

lemma display_frame_foldl (keepDummy : arg.countDummy = true)
    {y : CctNode} (settled : ∀ x ∈ l, Settled y x) :
    (l.foldl (lCountMark kinds persistentId) arg).display y.id = arg.display y.id := by
  induction l generalizing arg with
  | nil => rfl
  | cons x rest ih =>
    obtain ⟨keepDummy', -, display, -⟩ := lCountMark_spec kinds persistentId keepDummy x
    obtain ⟨notSelf, notParent⟩ := settled x (.head _)
    rw [foldl_cons, ih keepDummy' fun z member => settled z (.tail _ member), display, Bool.eq_iff_iff,
      markDisplay_iff]
    simp only [Ne.symm notSelf, notParent, false_and, or_false]

lemma n_foldl_lCountMark (settled : l.Pairwise Settled)
    (keepDummy : arg.countDummy = true) :
    let arg' := l.foldl (lCountMark kinds persistentId) arg
    arg'.n = arg.n + l.countP fun x => arg'.display x.id := by
  induction l generalizing arg with
  | nil => rfl
  | cons x rest ih =>
    obtain ⟨keepDummy', -, -, counted, -⟩ := lCountMark_spec kinds persistentId keepDummy x
    obtain ⟨ahead, settled⟩ := pairwise_cons.mp settled
    have final := display_frame_foldl kinds persistentId keepDummy' ahead
    simp only [foldl_cons, countP_cons]
    rw [ih settled keepDummy', final, counted]
    split <;> omega

lemma marked_foldl_lCountMark (keepDummy : arg.countDummy = true)
    (member : x ∈ l) (mark : marks kinds persistentId arg.map x) :
    (l.foldl (lCountMark kinds persistentId) arg).display x.id := by
  induction l generalizing arg with
  | nil => cases member
  | cons y rest ih =>
    obtain ⟨keepDummy', same, display, -⟩ := lCountMark_spec kinds persistentId keepDummy y
    rcases mem_cons.mp member with rfl | later
    · refine display_mono_foldl kinds persistentId rest keepDummy' ?_
      rw [display]
      exact markDisplay_iff.mpr (.inr (.inl ⟨rfl, mark⟩))
    · refine ih keepDummy' later ?_
      rwa [marks, nonzeroOf_congr kinds same]

lemma parent_foldl_lCountMark (settled : l.Pairwise Settled)
    (keepDummy : arg.countDummy = true) (member : x ∈ l)
    (isParent : x.info.parent = some parent) (shown : (l.foldl (lCountMark kinds persistentId) arg).display x.id) :
    (l.foldl (lCountMark kinds persistentId) arg).display parent := by
  induction l generalizing arg with
  | nil => cases member
  | cons y rest ih =>
    obtain ⟨keepDummy', same, display, -⟩ := lCountMark_spec kinds persistentId keepDummy y
    obtain ⟨ahead, settled⟩ := pairwise_cons.mp settled
    rcases mem_cons.mp member with rfl | later
    · rw [foldl_cons, display_frame_foldl kinds persistentId keepDummy' ahead, display, markDisplay_iff] at shown
      refine display_mono_foldl kinds persistentId rest keepDummy' ?_
      rw [display]
      refine markDisplay_iff.mpr (.inr (.inr ⟨isParent, ?_⟩))
      rcases shown with already | ⟨-, mark⟩ | ⟨-, either⟩
      · exact .inl already
      · exact .inr mark
      · exact either
    · exact ih settled keepDummy' later shown

lemma numNzval_foldl_lCountMark (l : List CctNode) (keepDummy : arg.countDummy = true) :
    (l.foldl (lCountMark kinds persistentId) arg).numNzval =
      arg.numNzval + (l.map (nonzeroOf kinds arg.map)).sum := by
  induction l generalizing arg with
  | nil => rfl
  | cons x rest ih =>
    obtain ⟨keepDummy', same, -, -, total, -⟩ := lCountMark_spec kinds persistentId keepDummy x
    rw [foldl_cons, ih keepDummy', nonzeroOf_congr kinds same, total, map_cons, sum_cons, add_assoc]

lemma numNzCctNodes_foldl_lCountMark (l : List CctNode) (keepDummy : arg.countDummy = true) :
    (l.foldl (lCountMark kinds persistentId) arg).numNzCctNodes =
      arg.numNzCctNodes + .ofNat (l.countP fun x => nonzeroOf kinds arg.map x ≠ 0) := by
  induction l generalizing arg with
  | nil => simp
  | cons x rest ih =>
    obtain ⟨keepDummy', same, -, -, -, total⟩ := lCountMark_spec kinds persistentId keepDummy x
    rw [foldl_cons, ih keepDummy', nonzeroOf_congr kinds same, total, countP_cons]
    split
    · next nonzero => simp [nonzero, UInt32.ofNat_add, UInt32.add_assoc, UInt32.add_comm]
    · next zero => simp [zero]

/-! ## The writing walk -/

variable (display : ℕ → Bool)

lemma lwrite_spec (arg : WriteArg) (node : CctNode) :
    let arg' := lwrite kinds persistentId display arg node
    let count := nonzeroOf kinds arg.map node
    (∀ i, arg'.map.metricsOf i = arg.map.metricsOf i) ∧
      arg'.records = arg.records ++ (if display node.id then [fmtCctNode persistentId node] else []) ∧
      arg'.sparse.numVals = arg.sparse.numVals ∧
      arg'.sparse.curCctNodeIdx = arg.sparse.curCctNodeIdx + count ∧
      arg'.sparse.valueStores.length = arg.sparse.valueStores.length + count ∧
      arg'.sparse.numNzCctNodes = arg.sparse.numNzCctNodes + (if count ≠ 0 then 1 else 0) ∧
      arg'.sparse.indexStores.length = arg.sparse.indexStores.length + (if count ≠ 0 then 1 else 0) := by
  have copied : ∀ idx, (hpcrunMetricSetSparseCopy kinds (hpcrunGetMetricDataListSpecific arg.map node.id).2 idx).length =
      nonzeroOf kinds arg.map node := by
    intro idx
    rw [length_hpcrunMetricSetSparseCopy, hpcrunGetMetricDataListSpecific_snd, nonzeroOf]
  simp only [lwrite, copied]
  refine ⟨metricsOf_hpcrunGetMetricDataListSpecific arg.map node.id, ?_, ?_, trivial, ?_, ?_, ?_⟩
  · split <;> simp
  all_goals split <;> simp [copied]

lemma foldl_lwrite_spec (l : List CctNode) (arg : WriteArg) :
    let arg' := l.foldl (lwrite kinds persistentId display) arg
    let total := (l.map (nonzeroOf kinds arg.map)).sum
    let nodes := l.countP fun x => nonzeroOf kinds arg.map x ≠ 0
    arg'.records = arg.records ++ (l.filter fun x => display x.id).map (fmtCctNode persistentId) ∧
      arg'.sparse.numVals = arg.sparse.numVals ∧
      arg'.sparse.curCctNodeIdx = arg.sparse.curCctNodeIdx + total ∧
      arg'.sparse.valueStores.length = arg.sparse.valueStores.length + total ∧
      arg'.sparse.numNzCctNodes = arg.sparse.numNzCctNodes + .ofNat nodes ∧
      arg'.sparse.indexStores.length = arg.sparse.indexStores.length + nodes := by
  induction l generalizing arg with
  | nil => simp
  | cons x rest ih =>
    obtain ⟨same, records, numVals, idx, values, numNz, indices⟩ := lwrite_spec kinds persistentId display arg x
    obtain ⟨records', numVals', idx', values', numNz', indices'⟩ := ih (lwrite kinds persistentId display arg x)
    rw [nonzeroOf_congr kinds same] at idx' values' numNz' indices'
    simp only [foldl_cons, map_cons, sum_cons, countP_cons, filter_cons]
    refine ⟨?_, numVals'.trans numVals, ?_, ?_, ?_, ?_⟩
    · rw [records', records]
      split <;> simp
    · rw [idx', idx, add_assoc]
    · rw [values', values, add_assoc]
    · rw [numNz', numNz]
      split
      · next nonzero => simp [nonzero, UInt32.ofNat_add, UInt32.add_assoc, UInt32.add_comm]
      · next zero => simp [zero]
    · rw [indices', indices]
      split
      · next nonzero => simp [nonzero, add_assoc, add_comm]
      · next zero => simp [zero]

end

/-! ## The written tree -/

/-- The flags after the counting walk. -/
def finalDisplay (kinds : List KindInfo) (persistentId : ℕ → UInt32) (display : ℕ → Bool) (map : Cct2Metrics)
    (cct : CctNode) : ℕ → Bool :=
  (hpcrunCctNumNzNodesAndMarkDisplay kinds persistentId display cct true map).display

/-- The nodes that get a record, in the order of the records. -/
def writtenNodes (kinds : List KindInfo) (persistentId : ℕ → UInt32) (display : ℕ → Bool) (map : Cct2Metrics)
    (cct : CctNode) : List CctNode :=
  (nodeFirst cct).filter fun x => finalDisplay kinds persistentId display map cct x.id

section
variable (kinds : List KindInfo) (persistentId : ℕ → UInt32) (display : ℕ → Bool) (map : Cct2Metrics)
  {cct : CctNode}

lemma parent_before_written (wf : cct.WellFormed) (outside : ∀ y ∈ cct.nodes, cct.info.parent ≠ some y.id)
    {before after : List CctNode}
    (split : writtenNodes kinds persistentId display map cct = before ++ x :: after) :
    x = cct ∨ ∃ y ∈ before, x ∈ y.children.toList := by
  have settled := settled_childFirst cct wf.parents wf.distinct outside
  have inWalk : ∀ {z}, z ∈ nodeFirst cct ↔ z ∈ childFirst cct := fun {z} =>
    ((nodeFirst_perm cct).trans (childFirst_perm cct).symm).mem_iff
  have reached : ∀ {z}, z ∈ nodeFirst cct → Reach cct z := fun member =>
    mem_nodes.mp ((nodeFirst_perm cct).mem_iff.mp member)
  obtain ⟨rest, visits, grounded⟩ := grounded_nodeFirst cct [cct] (.head _)
  have closed : ∀ z ∈ rest, ∀ y, z ∈ y.children.toList → (y ∈ [cct] ∨ y ∈ rest) →
      finalDisplay kinds persistentId display map cct z.id → finalDisplay kinds persistentId display map cct y.id := by
    intro z memberZ y child source shown
    have walkY : y ∈ nodeFirst cct := by
      rw [visits, mem_cons]
      exact source.imp_left mem_singleton.mp
    have isParent := wf.parents y (reached walkY) z child
    refine parent_foldl_lCountMark kinds persistentId settled rfl ?_ isParent shown
    exact inWalk.mp (visits ▸ .tail _ memberZ)
  have filtered := grounded.filter closed
  rw [writtenNodes, visits, filter_cons] at split
  split at split
  · next shown =>
    rw [filter_cons_of_pos (by simpa using shown), filter_nil] at filtered
    rcases before with _ | ⟨first, before⟩
    · exact .inl (cons.inj split).1.symm
    · obtain ⟨rfl, tail⟩ := cons.inj split
      rw [tail] at filtered
      obtain ⟨y, source, child⟩ := filtered.split
      refine .inr ⟨y, ?_, child⟩
      rcases source with root | earlier
      · exact mem_singleton.mp root ▸ .head _
      · exact .tail _ earlier
  · next hidden =>
    rw [filter_cons_of_neg (by simpa using hidden), filter_nil, split] at filtered
    obtain ⟨y, source, child⟩ := filtered.split
    exact .inr ⟨y, source.resolve_left not_mem_nil, child⟩

lemma mem_writtenNodes (member : x ∈ cct.nodes)
    (keep : HasNonzero kinds (map.metricsOf x.id) ∨ hpcrunCctRetained persistentId x) :
    x ∈ writtenNodes kinds persistentId display map cct := by
  refine mem_filter.mpr ⟨(nodeFirst_perm cct).mem_iff.mpr member, ?_⟩
  refine marked_foldl_lCountMark kinds persistentId rfl ((childFirst_perm cct).mem_iff.mpr member) ?_
  rw [marks, Bool.or_eq_true, bne_iff_ne]
  exact keep.imp_left fun carries => (count_pos_of_hasNonzero carries).ne'

end

end HpcToolkit.Cct
