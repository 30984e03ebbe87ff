import HpcToolkit.Lib.Splay

/-! # Metrics of calling context tree nodes

A node's metrics are a list of arrays, one for each kind of metrics, found through a splay tree keyed by
node. The sparse count and the sparse copy run over the kinds in the same way: the copy makes exactly as
many stores as the count announces. The 64-bit counters count words in memory and are naturals.
-/

open List

namespace HpcToolkit.Cct

open Lib

/-- `kind_info_t`, by identity, with the number of its metrics. -/
structure KindInfo where
  id : ℕ
  idx : ℕ

/-- A link of `metric_data_list_t`: the kind and the words `v1.i` of its metrics. -/
structure MetricData where
  kind : ℕ
  metrics : List UInt64
deriving DecidableEq

/-- `NULL` is the empty list. -/
abbrev MetricDataList := List MetricData

/-- The link of a kind, searched from the head of the list. -/
def findKind (list : MetricDataList) (k : KindInfo) : Option MetricData :=
  list.find? fun curr => curr.kind == k.id

/-- The words `actual[0], …, actual[idx - 1]` of a kind. -/
def MetricData.actual (curr : MetricData) (k : KindInfo) : List UInt64 :=
  (range k.idx).map fun i => curr.metrics.getD i 0

/-! ## Counting -/

def countWord (numNzval : ℕ) (m : UInt64) : ℕ := if m ≠ 0 then numNzval + 1 else numNzval

def countKind (list : MetricDataList) (numNzval : ℕ) (k : KindInfo) : ℕ :=
  match findKind list k with
  | some curr => (curr.actual k).foldl countWord numNzval
  | none => numNzval

/-- `hpcrun_metric_sparse_count`; `kinds` is the list at `first_kind`. -/
def hpcrunMetricSparseCount (kinds : List KindInfo) (list : MetricDataList) : ℕ :=
  kinds.foldl (countKind list) 0

/-- A non-zero metric of some kind. -/
def HasNonzero (kinds : List KindInfo) (list : MetricDataList) : Prop :=
  ∃ k ∈ kinds, ∃ curr, findKind list k = some curr ∧ ∃ m ∈ curr.actual k, m ≠ 0

lemma le_foldl_countWord (words : List UInt64) (start : ℕ) : start ≤ words.foldl countWord start := by
  induction words generalizing start with
  | nil => exact le_rfl
  | cons m rest ih =>
    refine le_trans ?_ (ih (countWord start m))
    rw [countWord]
    split <;> omega

lemma lt_foldl_countWord {words : List UInt64} {m : UInt64} (member : m ∈ words) (nonzero : m ≠ 0)
    (start : ℕ) : start < words.foldl countWord start := by
  induction words generalizing start with
  | nil => cases member
  | cons head rest ih =>
    rw [foldl_cons]
    rcases mem_cons.mp member with rfl | later
    · refine lt_of_lt_of_le ?_ (le_foldl_countWord rest _)
      rw [countWord, if_pos nonzero]
      omega
    · refine lt_of_le_of_lt ?_ (ih later (countWord start head))
      exact le_foldl_countWord [head] start

lemma le_countKind (list : MetricDataList) (start : ℕ) (k : KindInfo) : start ≤ countKind list start k := by
  rw [countKind]
  split
  · exact le_foldl_countWord _ start
  · exact le_rfl

lemma le_foldl_countKind (list : MetricDataList) (kinds : List KindInfo) (start : ℕ) :
    start ≤ kinds.foldl (countKind list) start := by
  induction kinds generalizing start with
  | nil => exact le_rfl
  | cons k rest ih => exact (le_countKind list start k).trans (ih _)

lemma count_pos_of_hasNonzero {kinds : List KindInfo} {list : MetricDataList}
    (carries : HasNonzero kinds list) : 0 < hpcrunMetricSparseCount kinds list := by
  obtain ⟨k, member, curr, found, m, inActual, nonzero⟩ := carries
  obtain ⟨before, after, rfl⟩ := append_of_mem member
  rw [hpcrunMetricSparseCount, foldl_append, foldl_cons]
  refine lt_of_lt_of_le ?_ (le_foldl_countKind list after _)
  refine lt_of_le_of_lt (Nat.zero_le (before.foldl (countKind list) 0)) ?_
  rw [countKind, found]
  exact lt_foldl_countWord inActual nonzero _

/-! ## Copying -/

/-- A store `val[index] = value; metric_ids[index] = mid`. -/
structure ValueStore where
  index : ℤ
  value : UInt64
  mid : UInt16

/-- The local variables of the copy: the global metric id and the stores made so far. -/
structure SparseCopy where
  currId : ℕ
  stores : List ValueStore

def SparseCopy.word (initializingIdx : ℤ) (copy : SparseCopy) (currM : UInt64) : SparseCopy where
  currId := copy.currId + 1
  stores := if currM ≠ 0
    then copy.stores ++ [⟨initializingIdx + copy.stores.length, currM, .ofNat copy.currId⟩]
    else copy.stores

def SparseCopy.kind (list : MetricDataList) (initializingIdx : ℤ) (copy : SparseCopy) (k : KindInfo) :
    SparseCopy :=
  match findKind list k with
  | some curr => (curr.actual k).foldl (word initializingIdx) copy
  | none => { copy with currId := copy.currId + k.idx }

/-- `hpcrun_metric_set_sparse_copy`, by its stores in order; their number is the value returned. -/
def hpcrunMetricSetSparseCopy (kinds : List KindInfo) (list : MetricDataList) (initializingIdx : ℤ) :
    List ValueStore :=
  (kinds.foldl (SparseCopy.kind list initializingIdx) ⟨0, []⟩).stores

lemma length_foldl_word (initializingIdx : ℤ) (words : List UInt64) (copy : SparseCopy) :
    (words.foldl (SparseCopy.word initializingIdx) copy).stores.length =
      words.foldl countWord copy.stores.length := by
  induction words generalizing copy with
  | nil => rfl
  | cons m rest ih =>
    rw [foldl_cons, ih, foldl_cons, SparseCopy.word, countWord]
    split <;> simp

lemma length_kind (list : MetricDataList) (initializingIdx : ℤ) (copy : SparseCopy) (k : KindInfo) :
    (copy.kind list initializingIdx k).stores.length = countKind list copy.stores.length k := by
  rw [SparseCopy.kind, countKind]
  split
  · exact length_foldl_word _ _ _
  · rfl

@[simp] lemma length_hpcrunMetricSetSparseCopy (kinds : List KindInfo) (list : MetricDataList)
    (initializingIdx : ℤ) :
    (hpcrunMetricSetSparseCopy kinds list initializingIdx).length = hpcrunMetricSparseCount kinds list := by
  suffices general : ∀ copy : SparseCopy, (kinds.foldl (SparseCopy.kind list initializingIdx) copy).stores.length =
      kinds.foldl (countKind list) copy.stores.length from general ⟨0, []⟩
  induction kinds with
  | nil => exact fun copy => rfl
  | cons k rest ih =>
    intro copy
    rw [foldl_cons, ih, length_kind, foldl_cons]

/-! ## The map from nodes to metrics -/

structure MetricsEntry where
  node : ℕ
  kindMetrics : MetricDataList

/-- `cct2metrics_t`, a splay tree ordered by node. -/
structure Cct2Metrics where
  tree : STree MetricsEntry
  ordered : tree.Ordered MetricsEntry.node

/-- `hpcrun_get_metric_data_list_specific` with a map given. -/
def hpcrunGetMetricDataListSpecific (map : Cct2Metrics) (node : ℕ) : Cct2Metrics × MetricDataList :=
  (⟨STree.splay MetricsEntry.node node map.tree, map.ordered.splay MetricsEntry.node node⟩,
    match STree.splay MetricsEntry.node node map.tree with
    | .nil => []
    | .node _ entry _ => if entry.node = node then entry.kindMetrics else [])

/-- The metrics the map associates with a node. -/
def Cct2Metrics.metricsOf (map : Cct2Metrics) (node : ℕ) : MetricDataList :=
  ((STree.find? MetricsEntry.node map.tree node).map MetricsEntry.kindMetrics).getD []

lemma hpcrunGetMetricDataListSpecific_snd (map : Cct2Metrics) (node : ℕ) :
    (hpcrunGetMetricDataListSpecific map node).2 = map.metricsOf node := by
  simp only [hpcrunGetMetricDataListSpecific, Cct2Metrics.metricsOf,
    map.ordered.find?_eq_root? MetricsEntry.node node]
  cases STree.splay MetricsEntry.node node map.tree with
  | nil => rfl
  | node l entry r =>
    simp only [STree.root?, Option.filter_some, decide_eq_true_eq]
    split <;> rfl

lemma metricsOf_hpcrunGetMetricDataListSpecific (map : Cct2Metrics) (node other : ℕ) :
    (hpcrunGetMetricDataListSpecific map node).1.metricsOf other = map.metricsOf other := by
  simp only [hpcrunGetMetricDataListSpecific, Cct2Metrics.metricsOf, STree.find?_splay]

end HpcToolkit.Cct
