import HpcToolkit.HpcStruct.InlineTree

/-! # Loop headers, merged loops and deleted call sites

The passes of hpcstruct that move statements and loops from one level of an inline tree to another. The tree of a loop
starts at the level where the loop seems to be, and the statements above this level are put back there. An irreducible
loop takes in its irreducible subloops at the same line. A function that was split off another one loses the call
sites it shares with it.
-/

open List

namespace HpcToolkit.HpcStruct

/-! ## The program -/

structure InlineNode where
  filenm : String
  prettynm : String
  lineno : ℕ

/-- A range of the line map, with the real path of its file. -/
structure Statement where
  file : String
  line : ℕ
  startAddr : ℕ
  endAddr : ℕ

/-- What symbol and string tables say. The string table only grows, so an index is a function of the string. The first
statement of the line map at an address is the only one that is looked at. -/
structure WorkEnv where
  str2index : String → ℤ
  analyzeAddr : ℕ → List InlineNode
  getStatement : ℕ → Option Statement
  device : String

def basename (fName : String) : String := String.ofList (fName.toList.reverse.takeWhile (· ≠ '/')).reverse

def WorkEnv.flpIndex (env : WorkEnv) (node : InlineNode) : FLPIndex where
  fileIndex := env.str2index node.filenm
  baseIndex := env.str2index (basename node.filenm)
  lineNum := node.lineno
  prettyIndex := env.str2index node.prettynm

inductive EdgeType where
  | call
  | callFt
  | other
deriving DecidableEq

structure Edge (B : Type) where
  type : EdgeType
  trg : B
  sinkEdge : Bool

/-- An instruction has an address, and its end is a word. -/
structure Instruction where
  vma : ℕ
  size : ℕ
  nonempty : 0 < size
  fits : vma + size < 2 ^ 64

/-- The instructions of a block are a `std::map` from their addresses. -/
structure Block (B : Type) where
  start : ℕ
  last : ℕ
  insns : List Instruction
  sorted : insns.Pairwise fun i j => i.vma < j.vma
  targets : List (Edge B)

structure Loop (B : Type) where
  basicBlocks : List B
  entries : List B

/-! ## Loop headers -/

/-- Info on candidates for loop header. -/
structure HeaderInfo where
  depth : ℕ
  fileIndex : ℤ
  baseIndex : ℤ
  lineNum : ℤ
  flpPath : FLPSeqn

section
variable {B : Type} [DecidableEq B] (env : WorkEnv) (cfg : B → Block B)

/-- A block ends with a loop exit condition if it has edges to blocks both inside and outside the loop, calls apart. -/
def isExit (loop : Loop B) (b : B) : Bool :=
  let outEdges := (cfg b).targets.filter fun e => e.type ≠ .call ∧ e.type ≠ .callFt
  (outEdges.any fun e => e.trg ∈ loop.basicBlocks) && outEdges.any fun e => e.trg ∉ loop.basicBlocks

def headerInfo (srcVma : ℕ) : HeaderInfo :=
  let seqn := env.analyzeAddr srcVma
  let filenm := (env.getStatement srcVma).elim "" Statement.file
  { depth := seqn.length
    fileIndex := env.str2index filenm
    baseIndex := env.str2index (basename filenm)
    lineNum := (env.getStatement srcVma).elim 0 fun s => (s.line : ℤ)
    flpPath := seqn.map env.flpIndex }

/-- Step 1, the loop exit conditions in the order of their addresses. -/
def exitConds (loop : Loop B) : List (ℕ × HeaderInfo) :=
  let vmas := ((loop.basicBlocks.filter (isExit cfg loop)).map fun b => (cfg b).last).dedup
  (vmas.mergeSort (· ≤ ·)).map fun vma => (vma, headerInfo env vma)

/-- Is there an exit condition at this level, or among the statements from above that are in the file of the call
site? -/
def foundLevel (clist : List (ℕ × HeaderInfo)) (flp : FLPIndex) (here above : StmtMap) : Bool :=
  clist.any fun c => here.member c.1 || (above.findStmt c.1).any fun s => s.baseIndex = flp.baseIndex

/-- Step 2, find the right inline depth. A branch or a subloop is an absolute stopping point, and so is an exit
condition. Returns the tree at this depth, the statements above it, and the path to it. -/
def findDepth (clist : List (ℕ × HeaderInfo)) (stmts : StmtMap) : TreeNode → TreeNode × StmtMap × FLPSeqn
  | .mk [(flp, subtree)] here [] =>
    if foundLevel clist flp here stmts then (.mk [(flp, subtree)] here [], stmts, [])
    else
      let (root, above, path) := findDepth clist (here.stmts.foldl StmtMap.insert stmts) subtree
      (root, above, flp :: path)
  | root => (root, stmts, [])

/-- Step 3, reattach statements into this level. -/
def reattach (stmts : StmtMap) : TreeNode → TreeNode
  | .mk nodes here loops => .mk nodes (stmts.stmts.foldl StmtMap.insert here) loops

/-- Step 4, the file of the loop, with a line only if it is that of a statement. -/
def chooseFile (fileName : String) (clist : List (ℕ × HeaderInfo)) (depth : ℕ) (root : TreeNode) : ℤ × ℤ × ℤ :=
  let empty := env.str2index ""
  let procFile := env.str2index fileName
  let procBase := env.str2index (basename fileName)
  let conds := (clist.map Prod.snd).filter fun info => info.depth = depth ∧ info.baseIndex ≠ empty
  let proc := some (procFile, procBase, (0 : ℤ))
  let enclosing := if depth = 0 ∧ conds.any (fun info => info.baseIndex = procBase) then proc else none
  let matching := (root.nodeMap.find? fun e => conds.any fun info => info.baseIndex = e.1.baseIndex).map
    fun e => (e.1.fileIndex, e.1.baseIndex, (0 : ℤ))
  let unmatched := conds.head?.map fun info => (info.fileIndex, info.baseIndex, (0 : ℤ))
  let noCond := if depth = 0 ∧ procFile ≠ empty then proc else none
  let subtree := (root.nodeMap.find? fun e => e.1.fileIndex ≠ empty).map
    fun e => (e.1.fileIndex, e.1.baseIndex, (0 : ℤ))
  let subloop := (root.loopList.find? fun l => l.1.fileIndex ≠ empty).map
    fun l => (l.1.fileIndex, l.1.baseIndex, (0 : ℤ))
  let stmt := (root.stmtMap.stmts.find? fun s => s.fileIndex ≠ empty).map
    fun s => (s.fileIndex, s.baseIndex, s.lineNum)
  (enclosing <|> matching <|> unmatched <|> noCond <|> subtree <|> subloop <|> stmt).getD (empty, empty, 0)

/-- The least of the lines so far, where 0 is none. -/
def minLine (lineAns line : ℤ) : ℤ := if lineAns = 0 ∨ line < lineAns then line else lineAns

/-- Step 4, the least line of an exit condition at this level, of the call site on the way to one below it, or of a
subloop, in the file of the loop. -/
def chooseLine (clist : List (ℕ × HeaderInfo)) (depth : ℕ) (root : TreeNode) (fileAns baseAns lineAns : ℤ) : ℤ :=
  if fileAns = env.str2index "" then 0
  else
    let infos := clist.map Prod.snd
    let conds := infos.filter fun info => info.depth = depth ∧ info.baseIndex = baseAns ∧ 0 < info.lineNum
    let steps := (infos.filterMap fun info => info.flpPath[depth]?).filter
      fun flp => flp.baseIndex = baseAns ∧ 0 < flp.lineNum
    let subloops := root.loopList.filter fun l => l.1.baseIndex = baseAns ∧ 0 < l.1.lineNum
    let lines := conds.map HeaderInfo.lineNum ++ steps.map FLPIndex.lineNum ++ subloops.map fun l => l.1.lineNum
    lines.foldl minLine lineAns

/-- The least entry address, `VMA_MAX` if there is none. -/
def minEntry (loop : Loop B) : ℕ := (loop.entries.map fun b => (cfg b).start).foldl min (2 ^ 64 - 1)

def findLoopHeader (fileName : String) (root : TreeNode) (loop : Loop B) (loopName : String) : LoopInfo :=
  let clist := exitConds env cfg loop
  let (level, stmts, path) := findDepth clist .empty root
  let node := reattach stmts level
  let ans := chooseFile env fileName clist path.length node
  ({ path := path
     name := loopName
     entryVma := minEntry cfg loop
     fileIndex := ans.1
     baseIndex := ans.2.1
     lineNum := chooseLine env clist path.length node ans.1 ans.2.1 ans.2.2
     irred := 1 < loop.entries.length }, node)

end

/-! ## Irreducible loops -/

/-- May the second loop be merged into the first? -/
def sameHeader (l₁ l₂ : LoopAttrs) : Bool := l₂.irred && l₁.baseIndex = l₂.baseIndex && l₁.lineNum = l₂.lineNum

/-- The subloops of a loop one after the other: one that is merged leaves its subloops on the new list and its other
contents in the tree, others stay on the list. -/
def mergeSubloops (l₁ : LoopAttrs) : List LoopInfo → List LoopInfo → TreeNode → List LoopInfo × TreeNode
  | [], newList, node₁ => (newList, node₁)
  | (l₂, .mk nodes stmts list₂) :: rest, newList, node₁ =>
    if sameHeader l₁ l₂ then
      mergeSubloops l₁ rest (newList ++ list₂) (node₁.mergeInlineTree (.mk nodes stmts []))
    else mergeSubloops l₁ rest (newList ++ [(l₂, .mk nodes stmts list₂)]) node₁

/-- Returns the loop and the subloops that were deleted. -/
def mergeIrredLoops (L₁ : LoopInfo) : LoopInfo × List LoopInfo :=
  if !L₁.1.irred then (L₁, [])
  else if !(L₁.2.loopList.any fun L₂ => L₂.1.irred) then (L₁, [])
  else
    let (newList, node₁) := mergeSubloops L₁.1 L₁.2.loopList [] L₁.2
    ((L₁.1, .mk node₁.nodeMap node₁.stmtMap (newList.mergeSort fun l₁ l₂ => l₁.1.entryVma ≤ l₂.1.entryVma)),
      L₁.2.loopList.filter fun L₂ => sameHeader L₁.1 L₂.1)

/-! ## Call site prefixes -/

/-- Walk a sequence of call sites down the tree, collecting statements and loops on the way. A call site that is not
there is passed over. -/
def walkPrefix : FLPSeqn → TreeNode → StmtMap → List LoopInfo → TreeNode × StmtMap × List LoopInfo
  | [], root, stmts, loops => (root, stmts, loops)
  | flp :: rest, .mk nodes here list, stmts, loops =>
    match nodes.find? fun e => e.1.same flp with
    | none => walkPrefix rest (.mk nodes here list) stmts loops
    | some (_, subtree) =>
      walkPrefix rest (subtree.mergeInlineEdges (nodes.eraseP fun e => e.1.same flp))
        (here.stmts.foldl StmtMap.insert stmts) (loops ++ list)

def deleteInlinePrefix (env : WorkEnv) (root : TreeNode) (seqn : List InlineNode) : TreeNode :=
  let (.mk nodes here list, stmts, loops) := walkPrefix (seqn.map env.flpIndex) root .empty []
  .mk nodes (stmts.stmts.foldl StmtMap.insert here) (list ++ loops)

/-! ## What these passes keep -/

open TreeNode

lemma findDepth_spec (clist : List (ℕ × HeaderInfo)) (stmts : StmtMap) (root : TreeNode) (proper : root.Proper)
    (properStmts : stmts.Proper) (measurable : MeasuredByInt (stmts.addresses + root.held.1)) :
    (findDepth clist stmts root).1.Proper ∧ (findDepth clist stmts root).2.1.Proper ∧
      ((findDepth clist stmts root).2.1.addresses, 0) + (findDepth clist stmts root).1.held =
        (stmts.addresses, 0) + root.held := by
  fun_induction findDepth clist stmts root with
  | case1 stmts flp subtree here found => exact ⟨proper, properStmts, rfl⟩
  | case2 stmts flp subtree here below root above path equation ih =>
    obtain ⟨properHere, properBelow⟩ := proper_mk.mp proper
    have heldRoot : (mk [(flp, subtree)] here []).held = (here.addresses, 0) + subtree.held := by
      rw [held_mk, heldByEdges_cons]
      exact congrArg _ (add_zero _)
    rw [heldRoot, Prod.fst_add, ← add_assoc] at measurable
    obtain ⟨properMoved, addresses⟩ :=
      StmtMap.foldl_insert_spec here.stmts properStmts properHere (measurable.mono (Multiset.le_add_right _ _))
    have moved := ih (properBelow _ mem_cons_self) properMoved (by rwa [addresses])
    rw [equation, addresses] at moved
    refine ⟨moved.1, moved.2.1, moved.2.2.trans ?_⟩
    rw [heldRoot, ← add_assoc]
    rfl
  | case3 stmts root other => exact ⟨proper, properStmts, rfl⟩

variable {root : TreeNode}

lemma findLoopHeader_spec {B : Type} [DecidableEq B] (env : WorkEnv) (cfg : B → Block B) (fileName : String)
    (loop : Loop B) (loopName : String) (proper : root.Proper) (measurable : MeasuredByInt root.held.1) :
    (findLoopHeader env cfg fileName root loop loopName).2.Proper ∧
      (findLoopHeader env cfg fileName root loop loopName).2.held = root.held := by
  have none : StmtMap.empty.Proper := fun s hs => absurd hs not_mem_nil
  obtain ⟨properLevel, properStmts, held⟩ :=
    findDepth_spec (exitConds env cfg loop) .empty root proper none (by rwa [← zero_add root.held.1] at measurable)
  rw [findLoopHeader]
  generalize findDepth (exitConds env cfg loop) .empty root = found at properLevel properStmts held ⊢
  obtain ⟨⟨nodes, here, loops⟩, stmts, path⟩ := found
  have total : (mk nodes here loops).held + (stmts.addresses, 0) = root.held := by
    rw [add_comm]
    exact held.trans (zero_add _)
  obtain ⟨properNode, heldNode⟩ := foldl_insert_top properLevel stmts.stmts properStmts (by
    rw [← total] at measurable
    exact measurable)
  exact ⟨properNode, heldNode.trans total⟩

lemma mergeInlineEdges_loopList (dest : TreeNode) (nodes : List (FLPIndex × TreeNode)) :
    (dest.mergeInlineEdges nodes).loopList = dest.loopList := by
  rw [mergeInlineEdges_eq]
  induction nodes generalizing dest with
  | nil => rfl
  | cons e rest ih =>
    rw [foldl_cons, ih]
    rfl

lemma mergeInlineTree_loopList (dest src : TreeNode) :
    (dest.mergeInlineTree src).loopList = dest.loopList ++ src.loopList := by
  obtain ⟨nodes, stmts, loops⟩ := src
  rw [mergeInlineTree, mergeInlineEdges_loopList]
  rfl

lemma mergeSubloops_spec (l₁ : LoopAttrs) (list newList : List LoopInfo) (node₁ : TreeNode) (proper : node₁.Proper)
    (properLoops : ∀ l ∈ list, l.2.Proper) (measurable : MeasuredByInt (node₁.held + (list.map fun l => l.2.held).sum).1) :
    (mergeSubloops l₁ list newList node₁).2.Proper ∧
      (mergeSubloops l₁ list newList node₁).2.loopList = node₁.loopList ∧
      (mergeSubloops l₁ list newList node₁).2.held + ofLoops (mergeSubloops l₁ list newList node₁).1 +
          ofLoops (list.filter fun l => sameHeader l₁ l.1) =
        node₁.held + ofLoops newList + ofLoops list +
          ((list.filter fun l => sameHeader l₁ l.1).map fun l => l.2.held).sum := by
  fun_induction mergeSubloops l₁ list newList node₁ with
  | case1 newList node₁ => exact ⟨proper, rfl, by simp [ofLoops]⟩
  | case2 l₂ nodes stmts list₂ rest newList node₁ merges ih =>
    obtain ⟨properFirst, properRest⟩ := forall_mem_cons.mp properLoops
    have apart : (mk nodes stmts list₂).held = (mk nodes stmts []).held + ofLoops list₂ :=
      held_append_loops nodes stmts [] list₂
    have properStripped : (mk nodes stmts []).Proper := proper_mk.mpr (proper_mk.mp properFirst)
    have filter_pos := filter_cons_of_pos (p := fun l : LoopInfo => sameHeader l₁ l.1)
      (a := (l₂, mk nodes stmts list₂)) (l := rest) merges
    have stripped : MeasuredByInt (node₁.held + (mk nodes stmts []).held + (rest.map fun l => l.2.held).sum).1 := by
      rw [map_cons, sum_cons, apart] at measurable
      apply measurable.mono
      simp [ofLoops, add_assoc]
    obtain ⟨properMerged, heldMerged⟩ :=
      adds_mergeInlineTree _ properStripped node₁ proper (stripped.mono (Multiset.le_add_right _ _))
    dsimp only at properMerged heldMerged
    obtain ⟨properAll, loops, held⟩ := ih properMerged properRest (by rwa [heldMerged])
    refine ⟨properAll, ?_, ?_⟩
    · rw [loops, mergeInlineTree_loopList]
      exact append_nil _
    · rw [filter_pos, map_cons, sum_cons, ofLoops_cons, ofLoops_cons _ rest, add_left_comm, held,
        ofLoops_append, heldMerged, apart]
      abel
  | case3 l₂ nodes stmts list₂ rest newList node₁ stays ih =>
    have filter_neg := filter_cons_of_neg (p := fun l : LoopInfo => sameHeader l₁ l.1)
      (a := (l₂, mk nodes stmts list₂)) (l := rest) stays
    obtain ⟨properAll, loops, held⟩ := ih proper (forall_mem_cons.mp properLoops).2 (by
      rw [map_cons, sum_cons, add_left_comm] at measurable
      exact measurable.mono (Multiset.le_add_left _ _))
    refine ⟨properAll, loops, ?_⟩
    rw [filter_neg, held, ofLoops_append, ofLoops_cons _ rest]
    abel

lemma mergeIrredLoops_spec (L₁ : LoopInfo) (proper : L₁.2.AllProper) (measurable : MeasuredByInt L₁.2.addresses) :
    (mergeIrredLoops L₁).1.1 = L₁.1 ∧ (mergeIrredLoops L₁).2.Sublist L₁.2.loopList ∧ (mergeIrredLoops L₁).1.2.Proper ∧
      (mergeIrredLoops L₁).1.2.held + ofLoops (mergeIrredLoops L₁).2 =
        L₁.2.held + ((mergeIrredLoops L₁).2.map fun l => l.2.held).sum := by
  obtain ⟨properHere, properLoops⟩ := (allProper_iff L₁.2).mp proper
  have unchanged : L₁.1 = L₁.1 ∧ ([] : List LoopInfo).Sublist L₁.2.loopList ∧ L₁.2.Proper ∧
      L₁.2.held + ofLoops [] = L₁.2.held + (([] : List LoopInfo).map fun l => l.2.held).sum :=
    ⟨rfl, nil_sublist _, properHere, rfl⟩
  rw [mergeIrredLoops]
  split_ifs
  · exact unchanged
  · exact unchanged
  · have properList : ∀ l ∈ L₁.2.loopList, l.2.Proper := fun l hl =>
      ((allProper_iff l.2).mp (properLoops l (mem_held_of_mem_loopList hl))).1
    obtain ⟨properNode, list, held⟩ := mergeSubloops_spec L₁.1 L₁.2.loopList [] L₁.2 properHere properList
      (measurable.mono (held_loopList_le L₁.2))
    generalize mergeSubloops L₁.1 L₁.2.loopList [] L₁.2 = merged at properNode list held ⊢
    obtain ⟨newList, nodes, stmts, loops⟩ := merged
    dsimp only at list held ⊢
    have sorted : ofLoops (newList.mergeSort fun l₁ l₂ => l₁.1.entryVma ≤ l₂.1.entryVma) = ofLoops newList := by
      rw [ofLoops, ofLoops, Multiset.coe_eq_coe.mpr (mergeSort_perm newList _)]
    refine ⟨rfl, filter_sublist, proper_mk.mpr (proper_mk.mp properNode), ?_⟩
    apply add_right_cancel (b := ofLoops L₁.2.loopList)
    have apart : (mk nodes stmts loops).held = (mk nodes stmts []).held + ofLoops L₁.2.loopList := by
      rw [← list]
      exact held_append_loops nodes stmts [] loops
    have put : ∀ l, (mk nodes stmts l).held = (mk nodes stmts []).held + ofLoops l := held_append_loops nodes stmts []
    rw [apart] at held
    change (mk nodes stmts _).held + _ + _ = _
    rw [put, sorted]
    calc
      _ = (mk nodes stmts []).held + ofLoops L₁.2.loopList + ofLoops newList +
          ofLoops (L₁.2.loopList.filter fun l => sameHeader L₁.1 l.1) := by abel
      _ = _ := by
        rw [held, ofLoops_nil, add_zero, add_right_comm]

/-- Statements and loops that were collected. -/
def collected (stmts : StmtMap) (loops : List LoopInfo) : Multiset ℕ × Multiset LoopInfo := (stmts.addresses, ↑loops)

lemma heldByEdges_eraseP {p : FLPIndex × TreeNode → Bool} {nodes : List (FLPIndex × TreeNode)}
    {e : FLPIndex × TreeNode} (found : nodes.find? p = some e) :
    heldByEdges nodes = e.2.held + heldByEdges (nodes.eraseP p) := by
  obtain ⟨here, before, after, rfl, others⟩ := find?_eq_some_iff_append.mp found
  have erased : (before ++ e :: after).eraseP p = before ++ after := by
    rw [eraseP_append_right _ (by simpa using others), eraseP_cons_of_pos here]
  rw [erased, ← heldByEdges_cons, heldByEdges, heldByEdges]
  exact (perm_middle.map _).sum_eq

lemma walkPrefix_spec (path : FLPSeqn) (root : TreeNode) (stmts : StmtMap) (loops : List LoopInfo)
    (proper : root.Proper) (properStmts : stmts.Proper) (measurable : MeasuredByInt (stmts.addresses + root.held.1)) :
    (walkPrefix path root stmts loops).1.Proper ∧ (walkPrefix path root stmts loops).2.1.Proper ∧
      collected (walkPrefix path root stmts loops).2.1 (walkPrefix path root stmts loops).2.2 +
          (walkPrefix path root stmts loops).1.held =
        collected stmts loops + root.held := by
  fun_induction walkPrefix path root stmts loops with
  | case1 root stmts loops => exact ⟨proper, properStmts, rfl⟩
  | case2 flp rest nodes here list stmts loops absent ih => exact ih proper properStmts measurable
  | case3 flp rest nodes here list stmts loops key subtree found ih =>
    obtain ⟨properHere, properEdges⟩ := proper_mk.mp proper
    have edges := heldByEdges_eraseP found
    have properOthers : ∀ e ∈ nodes.eraseP fun e => e.1.same flp, e.2.Proper := fun e he =>
      properEdges e (mem_of_mem_eraseP he)
    have total : stmts.addresses + (mk nodes here list).held.1 =
        stmts.addresses + here.addresses + (subtree.held + heldByEdges (nodes.eraseP fun e => e.1.same flp)).1 := by
      rw [held_mk, edges, Prod.fst_add, add_assoc]
    rw [total] at measurable
    obtain ⟨properMoved, addresses⟩ :=
      StmtMap.foldl_insert_spec here.stmts properStmts properHere (measurable.mono (Multiset.le_add_right _ _))
    obtain ⟨properMerged, heldMerged⟩ := adds_mergeInlineEdges _ properOthers subtree
      (properEdges _ (mem_of_find?_eq_some found)) (measurable.mono (Multiset.le_add_left _ _))
    dsimp only at properMerged heldMerged
    obtain ⟨properAll, properStmts, held⟩ := ih properMerged properMoved (by rwa [addresses, heldMerged])
    refine ⟨properAll, properStmts, held.trans ?_⟩
    rw [heldMerged, held_mk, edges, ← add_assoc (collected stmts loops)]
    congr 1
    rw [collected, addresses]
    rfl

lemma deleteInlinePrefix_spec (env : WorkEnv) (seqn : List InlineNode) (proper : root.Proper)
    (measurable : MeasuredByInt root.held.1) :
    (deleteInlinePrefix env root seqn).Proper ∧ (deleteInlinePrefix env root seqn).held = root.held := by
  have none : StmtMap.empty.Proper := fun s hs => absurd hs not_mem_nil
  obtain ⟨properEnd, properStmts, held⟩ := walkPrefix_spec (seqn.map env.flpIndex) root .empty [] proper none
    (by rwa [← zero_add root.held.1] at measurable)
  rw [deleteInlinePrefix]
  generalize walkPrefix (seqn.map env.flpIndex) root .empty [] = found at properEnd properStmts held ⊢
  obtain ⟨⟨nodes, here, list⟩, stmts, loops⟩ := found
  dsimp only at properEnd properStmts held ⊢
  have total : (mk nodes here list).held + (stmts.addresses, 0) + ofLoops loops = root.held := by
    have parts : (stmts.addresses, 0) + ofLoops loops = collected stmts loops := by
      rw [ofLoops, Prod.mk_add_mk, add_zero, zero_add, collected]
    rw [add_assoc, add_comm, parts]
    exact held.trans (zero_add _)
  have short : MeasuredByInt ((mk nodes here list).held.1 + stmts.addresses) := by
    rw [← total, Prod.fst_add] at measurable
    exact measurable.mono (Multiset.le_add_right _ _)
  obtain ⟨properTop, heldTop⟩ := foldl_insert_top properEnd stmts.stmts properStmts short
  refine ⟨proper_mk.mpr (proper_mk.mp properTop), ?_⟩
  rw [held_append_loops, heldTop, ← total]
  rfl

end HpcToolkit.HpcStruct

/-! # The inline tree of a function

The loops of a function are visited in post-order. Each collects the blocks that no subloop has taken, gets the trees
of its subloops, and is put at the level where its header seems to be. Blocks outside of all loops come last. No pass
loses or repeats an instruction or a loop, apart from the subloops that are merged into irreducible loops.
-/

namespace HpcToolkit.HpcStruct

open TreeNode

/-! ## Blocks -/

structure LineMapCache where
  cacheFilenm : String
  cacheLine : ℕ
  start : ℕ
  stop : ℕ

def LineMapCache.init : LineMapCache := ⟨"", 0, 1, 0⟩

/-- The cache after a lookup, and the file and line of an address. -/
def getLineInfo (env : WorkEnv) (cache : LineMapCache) (vma : ℕ) : LineMapCache × String × ℕ :=
  if cache.start ≤ vma ∧ vma < cache.stop then (cache, cache.cacheFilenm, cache.cacheLine)
  else
    match env.getStatement vma with
    | some s => (⟨s.file, s.line, s.startAddr, s.endAddr⟩, s.file, s.line)
    | none => (cache, "", 0)

/-- A call with its target, and whether it is a sink. -/
structure Call where
  target : ℕ
  isSink : Bool

def addStmtToTree (env : WorkEnv) (root : TreeNode) (insn : Instruction) (filenm : String) (line : ℕ)
    (call : Option Call) : TreeNode :=
  let info : StmtInfo :=
    { vma := insn.vma
      len := Int.bmod insn.size (2 ^ 32)
      fileIndex := env.str2index filenm
      baseIndex := env.str2index (basename filenm)
      lineNum := line
      target := call.elim 0 Call.target
      isCall := call.isSome
      isSink := call.elim false Call.isSink
      device := env.device }
  followPath (insertStmt info) ((env.analyzeAddr insn.vma).map env.flpIndex) root

/-- The instructions of a block. A call must be the last one. -/
def doInsns (env : WorkEnv) (call : Option Call) : List Instruction → LineMapCache → TreeNode → TreeNode
  | [], _, root => root
  | insn :: rest, cache, root =>
    let (cache, filenm, line) := getLineInfo env cache insn.vma
    doInsns env call rest cache (addStmtToTree env root insn filenm line (if rest.isEmpty then call else none))

section
variable {B : Type} [DecidableEq B] (env : WorkEnv) (cfg : B → Block B)

/-- Does the block end with a call edge? -/
def callOf (b : B) : Option Call :=
  ((cfg b).targets.find? fun e => e.type = .call).map fun e => ⟨(cfg e.trg).start, e.sinkEdge⟩

/-- The visited blocks and the tree after a block. -/
def doBlock (state : List B × TreeNode) (b : B) : List B × TreeNode :=
  if b ∈ state.1 then state else (b :: state.1, doInsns env (callOf cfg b) (cfg b).insns .init state.2)

/-! ## Loops -/

def doLoopLate (visited : List B) (loop : Loop B) : List B × TreeNode :=
  loop.basicBlocks.foldl (doBlock env cfg) (visited, .empty)

/-- A node of the loop tree; the root has no loop. Children and blocks stand in the order in which `std::sort` leaves
them. -/
inductive LoopTreeNode (B : Type) where
  | mk (loop : Option (Loop B)) (name : String) (children : List (LoopTreeNode B))

/-- Blocks visited, loops found, and the names of the loops merged away with those of the loops they were merged
into. -/
structure LoopResult (B : Type) where
  visited : List B
  list : List LoopInfo
  merged : List (String × String)

/-- Finish a loop whose children are done, and put it into the `LoopInfo` format. -/
def doLoop (fileName : String) (children : LoopResult B) (loop : Loop B) (name : String) : LoopResult B :=
  let late := doLoopLate env cfg children.visited loop
  let myLoop := children.list.foldl (fun tree info => tree.mergeInlineLoop [] info) late.2
  let result := mergeIrredLoops (findLoopHeader env cfg fileName myLoop loop name)
  ⟨late.1, [result.1], children.merged ++ result.2.map fun l => (l.1.name, name)⟩

mutual

def doLoopTree (fileName : String) : LoopTreeNode B → List B → LoopResult B
  | .mk loop name children, visited =>
    let sub := doLoopTrees fileName children visited
    match loop with
    | none => sub
    | some loop => doLoop env cfg fileName sub loop name

def doLoopTrees (fileName : String) : List (LoopTreeNode B) → List B → LoopResult B
  | [], visited => ⟨visited, [], []⟩
  | node :: rest, visited =>
    let first := doLoopTree fileName node visited
    let others := doLoopTrees fileName rest first.visited
    ⟨others.visited, first.list ++ others.list, first.merged ++ others.merged⟩

end

/-- The inline tree of a function with its blocks and its loop tree, if it has one, and the call site it was split
off; and the loops that were merged away. -/
def doFunction (fileName : String) (blocks : List B) (loopTree : Option (LoopTreeNode B)) (callSite : List InlineNode) :
    TreeNode × List (String × String) :=
  let loops := loopTree.elim ⟨[], [], []⟩ fun node => doLoopTree env cfg fileName node []
  let rest := blocks.foldl (doBlock env cfg) (loops.visited, .empty)
  let root := loops.list.foldl (fun tree info => tree.mergeInlineLoop [] info) rest.2
  (if callSite.isEmpty then root else deleteInlinePrefix env root callSite, loops.merged)

end

/-! ## Blocks add their instructions -/

namespace Instruction

def addresses (i : Instruction) : Multiset ℕ := Multiset.Ico i.vma (i.vma + i.size)

end Instruction

def Block.addresses {B : Type} (b : Block B) : Multiset ℕ := (b.insns.map Instruction.addresses).sum

lemma adds_addStmtToTree (env : WorkEnv) (insn : Instruction) (filenm : String) (line : ℕ) (call : Option Call) :
    Adds (fun root => addStmtToTree env root insn filenm line call) (insn.addresses, 0) := by
  intro root proper measurable
  have card := (measurable.mono (Multiset.le_add_left insn.addresses root.held.1)).short
  rw [Instruction.addresses, Multiset.Ico, Finset.card_val, Nat.card_Ico] at card
  have nonempty := insn.nonempty
  have fits := insn.fits
  have len : Int.bmod insn.size (2 ^ 32) = insn.size := by
    rw [Int.bmod_eq_of_le] <;> omega
  simp only [addStmtToTree, len]
  apply adds_followPath (x := (insn.addresses, 0)) _ _ root proper measurable
  apply adds_insertStmt
  constructor
  · exact Int.natCast_pos.mpr nonempty
  · exact fits

lemma adds_doInsns (env : WorkEnv) (call : Option Call) (insns : List Instruction) (cache : LineMapCache) :
    Adds (doInsns env call insns cache) ((insns.map Instruction.addresses).sum, 0) := by
  induction insns generalizing cache with
  | nil => exact fun root proper _ => ⟨proper, (add_zero _).symm⟩
  | cons insn rest ih =>
    intro root proper measurable
    have parts : (((insn :: rest).map Instruction.addresses).sum, (0 : Multiset LoopInfo)) =
        (insn.addresses, 0) + ((rest.map Instruction.addresses).sum, 0) := rfl
    rw [parts, ← add_assoc] at measurable ⊢
    obtain ⟨properNext, heldNext⟩ := adds_addStmtToTree env insn (getLineInfo env cache insn.vma).2.1
      (getLineInfo env cache insn.vma).2.2 (if rest.isEmpty then call else none) root proper
      (measurable.mono (Multiset.le_add_right _ _))
    rw [← heldNext] at measurable ⊢
    exact ih (getLineInfo env cache insn.vma).1 _ properNext measurable

section
variable {B : Type} {cfg : B → Block B}

/-- The addresses of some blocks. -/
def covered (cfg : B → Block B) (blocks : List B) : Multiset ℕ := (blocks.map fun b => (cfg b).addresses).sum

lemma covered_nil : covered cfg [] = 0 := rfl

lemma covered_cons (b : B) (blocks : List B) : covered cfg (b :: blocks) = (cfg b).addresses + covered cfg blocks := by
  rw [covered, map_cons, sum_cons, covered]

lemma covered_append (blocks more : List B) :
    covered cfg (blocks ++ more) = covered cfg blocks + covered cfg more := by
  rw [covered, map_append, sum_append, covered, covered]

lemma covered_le {blocks more : List B} (nodup : blocks.Nodup) (subset : blocks ⊆ more) :
    covered cfg blocks ≤ covered cfg more := by
  obtain ⟨l, perm, sublist⟩ := subperm_of_subset nodup subset
  rw [covered, ← (perm.map _).sum_eq]
  exact (sublist.map _).sum_le_sum fun _ _ => Multiset.zero_le _

variable [DecidableEq B]

/-- Blocks that are visited one after the other are those not visited before, each once, and their instructions are
what the tree gains. -/
lemma doBlocks_spec (env : WorkEnv) {scope : List B} (measurable : MeasuredByInt (covered cfg scope))
    {blocks visited : List B} {root : TreeNode} (known : visited ⊆ scope) (inScope : blocks ⊆ scope) (nodup : visited.Nodup)
    (proper : root.Proper) (apart : root.held.1 ≤ covered cfg visited) :
    ∃ new, (blocks.foldl (doBlock env cfg) (visited, root)).1 = new ++ visited ∧ (new ++ visited).Nodup ∧
      (∀ b, b ∈ new ++ visited ↔ b ∈ visited ∨ b ∈ blocks) ∧
      (blocks.foldl (doBlock env cfg) (visited, root)).2.Proper ∧
      (blocks.foldl (doBlock env cfg) (visited, root)).2.held = root.held + (covered cfg new, 0) := by
  induction blocks generalizing visited root with
  | nil => exact ⟨[], rfl, nodup, by simp, proper, (add_zero _).symm⟩
  | cons b rest ih =>
    obtain ⟨bKnown, restKnown⟩ := cons_subset.mp inScope
    rw [foldl_cons]
    rcases em (b ∈ visited) with seen | fresh
    · rw [doBlock, if_pos seen]
      obtain ⟨new, visits, nodupAll, members, rest⟩ := ih known restKnown nodup proper apart
      refine ⟨new, visits, nodupAll, fun c => ?_, rest⟩
      rw [members, mem_cons]
      constructor
      · exact Or.imp_right .inr
      · rintro (old | rfl | later)
        · exact .inl old
        · exact .inl seen
        · exact .inr later
    · rw [doBlock, if_neg fresh]
      have nodupNext : (b :: visited).Nodup := nodup_cons.mpr ⟨fresh, nodup⟩
      have knownNext : b :: visited ⊆ scope := cons_subset.mpr ⟨bKnown, known⟩
      have room : root.held.1 + (cfg b).addresses ≤ covered cfg (b :: visited) := by
        rw [covered_cons, add_comm]
        exact add_le_add_right apart _
      obtain ⟨properNext, heldNext⟩ := adds_doInsns env (callOf cfg b) (cfg b).insns .init root proper
        (measurable.mono (room.trans (covered_le nodupNext knownNext)))
      obtain ⟨new, visits, nodupAll, members, properAll, heldAll⟩ :=
        ih knownNext restKnown nodupNext properNext (by rwa [heldNext])
      refine ⟨new ++ [b], ?_, ?_, ?_, properAll, ?_⟩
      · rw [visits, append_assoc, singleton_append]
      · rwa [append_assoc, singleton_append]
      · intro c
        rw [append_assoc, singleton_append, members, mem_cons, mem_cons, or_assoc]
        exact or_left_comm
      · have parts : ((cfg b).addresses, (0 : Multiset LoopInfo)) + (covered cfg new, 0) =
            (covered cfg (new ++ [b]), 0) := by
          rw [covered_append, covered_cons, covered_nil, add_zero, Prod.mk_add_mk, add_zero, add_comm]
        rw [heldAll, heldNext, add_assoc, ← parts]
        rfl

end

end HpcToolkit.HpcStruct
