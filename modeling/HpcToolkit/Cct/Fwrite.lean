import HpcToolkit.Cct.Basic
import HpcToolkit.Cct.Metrics

/-! # Writing a calling context tree

`hpcrun_cct_fwrite` walks the tree twice: a children-first walk counts the non-zero metric values and
decides which nodes are displayed, and a node-first walk writes the records and copies the values.
`HPCRUN_CCT_KEEP_DUMMY` is 1, so the branches that skip dummy nodes are not part of the write walk.
`num_nz_cct_nodes` is a 32-bit counter and wraps.
-/

namespace HpcToolkit.Cct

open Lib CctNode

/-! ## The two walking orders -/

mutual
/-- The visits of `hpcrun_cct_walk_child_1st`; siblings are visited in postorder of their splay tree. -/
def childFirst : CctNode → List CctNode
  | node info children => childFirstTree children ++ [node info children]

def childFirstTree : STree CctNode → List CctNode
  | .nil => []
  | .node l n r => childFirstTree l ++ (childFirstTree r ++ childFirst n)
end

mutual
/-- The visits of `hpcrun_cct_walk_node_1st`. -/
def nodeFirst : CctNode → List CctNode
  | node info children => node info children :: nodeFirstTree children

def nodeFirstTree : STree CctNode → List CctNode
  | .nil => []
  | .node l n r => nodeFirstTree l ++ (nodeFirstTree r ++ nodeFirst n)
end

/-! ## Counting and marking -/

def hpcrunCctRetained (persistentId : ℕ → UInt32) (n : CctNode) : Bool := persistentId n.id &&& 1 != 0

def hpcrunDummyNode : UInt16 := 65534

def hpcrunCctIsDummy (n : CctNode) : Bool := n.addr.lmId == hpcrunDummyNode

/-- `count_arg_t`, with the `display` flags of the nodes. -/
structure CountArg where
  countDummy : Bool
  n : ℕ
  map : Cct2Metrics
  numNzval : ℕ
  numNzCctNodes : UInt32
  display : ℕ → Bool

/-- The flags after the two assignments of `l_count_mark`. -/
def markDisplay (display : ℕ → Bool) (node : CctNode) (mark : Bool) : ℕ → Bool :=
  let display := if mark then Function.update display node.id true else display
  match node.info.parent with
  | some parent => if display node.id then Function.update display parent true else display
  | none => display

def lCountMark (kinds : List KindInfo) (persistentId : ℕ → UInt32) (arg : CountArg) (node : CctNode) :
    CountArg :=
  if hpcrunCctIsDummy node && !arg.countDummy then arg
  else
    let lookup := hpcrunGetMetricDataListSpecific arg.map node.id
    let numNzval := hpcrunMetricSparseCount kinds lookup.2
    let display := markDisplay arg.display node (numNzval != 0 || hpcrunCctRetained persistentId node)
    { arg with
      n := if display node.id then arg.n + 1 else arg.n
      map := lookup.1
      numNzval := arg.numNzval + numNzval
      numNzCctNodes := if numNzval ≠ 0 then arg.numNzCctNodes + 1 else arg.numNzCctNodes
      display := display }

/-- `hpcrun_cct_num_nz_nodes_and_mark_display` with the counters at zero, as its caller passes them. -/
def hpcrunCctNumNzNodesAndMarkDisplay (kinds : List KindInfo) (persistentId : ℕ → UInt32)
    (display : ℕ → Bool) (cct : CctNode) (countDummy : Bool) (map : Cct2Metrics) : CountArg :=
  (childFirst cct).foldl (lCountMark kinds persistentId) ⟨countDummy, 0, map, 0, 0, display⟩

/-! ## Writing -/

structure FmtCctNode where
  id : UInt32
  idParent : UInt32
  lmId : UInt16
  lmIp : UInt64
  unwound : Bool
deriving DecidableEq

/-- A store `cct_node_ids[slot] = id; cct_node_idxs[slot] = idx`. -/
structure IndexStore where
  slot : UInt32
  id : UInt32
  idx : ℕ
deriving DecidableEq

/-- `hpcrun_fmt_sparse_metrics_t`; the arrays are given by the stores into them. -/
structure SparseMetrics where
  numVals : ℕ
  numCctNodes : ℕ
  valueStores : List ValueStore
  curCctNodeIdx : ℕ
  indexStores : List IndexStore
  numNzCctNodes : UInt32

/-- `write_arg_t`, with the records written so far. -/
structure WriteArg where
  map : Cct2Metrics
  sparse : SparseMetrics
  records : List FmtCctNode

/-- `tmp_node` as filled in for a node. -/
def fmtCctNode (persistentId : ℕ → UInt32) (node : CctNode) : FmtCctNode where
  id := persistentId node.id
  idParent := match node.info.parent with
    | some parent => persistentId parent
    | none => 0
  lmId := node.addr.lmId
  lmIp := node.addr.lmIp
  unwound := node.info.unwound

/-- `lwrite`; the index of the first value is passed on as an `int`. -/
def lwrite (kinds : List KindInfo) (persistentId : ℕ → UInt32) (display : ℕ → Bool) (arg : WriteArg)
    (node : CctNode) : WriteArg :=
  let lookup := hpcrunGetMetricDataListSpecific arg.map node.id
  let idx := arg.sparse.curCctNodeIdx
  let copied := hpcrunMetricSetSparseCopy kinds lookup.2 (Int.bmod idx (2 ^ 32))
  let sparse : SparseMetrics := if copied.length ≠ 0
    then { arg.sparse with
      indexStores := arg.sparse.indexStores ++ [⟨arg.sparse.numNzCctNodes, persistentId node.id, idx⟩]
      numNzCctNodes := arg.sparse.numNzCctNodes + 1 }
    else arg.sparse
  { map := lookup.1
    sparse := { sparse with
      valueStores := sparse.valueStores ++ copied
      curCctNodeIdx := idx + copied.length }
    records := if display node.id then arg.records ++ [fmtCctNode persistentId node] else arg.records }

inductive HpcrunStatus where
  | ok
  | err
deriving DecidableEq

/-- What `hpcrun_cct_fwrite` leaves behind. -/
structure CctFwriteResult where
  /-- The node count written ahead of the records. -/
  header : ℕ
  records : List FmtCctNode
  sparse : SparseMetrics
  /-- The counters of the first walk. -/
  numNzval : ℕ
  numNzCctNodes : UInt32
  status : HpcrunStatus

def lastNodeEnd : UInt32 := 0x656E6421

/-- `hpcrun_cct_fwrite` on an open stream. -/
def hpcrunCctFwrite (kinds : List KindInfo) (persistentId : ℕ → UInt32) (display : ℕ → Bool)
    (map : Cct2Metrics) (cct : CctNode) : CctFwriteResult :=
  let count := hpcrunCctNumNzNodesAndMarkDisplay kinds persistentId display cct true map
  let start : WriteArg :=
    { map := count.map
      sparse := ⟨count.numNzval, count.n, [], 0, [], 0⟩
      records := [] }
  let arg := (nodeFirst cct).foldl (lwrite kinds persistentId count.display) start
  let sparse := { arg.sparse with
    indexStores := arg.sparse.indexStores ++ [⟨count.numNzCctNodes, lastNodeEnd, arg.sparse.curCctNodeIdx⟩] }
  { header := count.n
    records := arg.records
    sparse := sparse
    numNzval := count.numNzval
    numNzCctNodes := count.numNzCctNodes
    status :=
      if sparse.numNzCctNodes ≠ count.numNzCctNodes then .err
      else if sparse.curCctNodeIdx ≠ sparse.numVals then .err
      else .ok }

/-! ## Bundles -/

/-- `hpcrun_cct_insert_node` on a node without siblings. -/
def hpcrunCctInsertNode (target src : CctNode) : CctNode :=
  target.setChildren (STree.insertRoot addr (src.setParent target.id)
    (STree.splay addr src.addr target.children))

/-- `hpcrun_cct_bundle_fwrite` for a bundle whose `tree_root` is its `top`, as `hpcrun_cct_bundle_init`
sets it. -/
def hpcrunCctBundleFwrite (kinds : List KindInfo) (persistentId : ℕ → UInt32) (display : ℕ → Bool)
    (map : Cct2Metrics) (top partialUnwRoot : CctNode) : CctFwriteResult :=
  hpcrunCctFwrite kinds persistentId display map (hpcrunCctInsertNode top partialUnwRoot)

end HpcToolkit.Cct
