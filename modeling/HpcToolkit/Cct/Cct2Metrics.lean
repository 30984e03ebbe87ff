import HpcToolkit.Cct.Metrics
import HpcToolkit.Lib.Reachable

/-! # The maps from nodes to metrics

Every thread has a map of its own, to which all associations go. Lookups and moves take a map as well, and `NULL` for that
of the thread. A lookup splays the tree before it asks the root, a move asks the root as it is. No two maps share entries
here, and `NULL` is the node 0.
-/

open Option
open Function

namespace HpcToolkit.Cct

open Lib
open Cct2Metrics
open STree hiding nil node

namespace Cct2Metrics

variable {map : Cct2Metrics} {node dest source n : ℕ} {kindMetrics : MetricDataList}

/-- `hpcrun_cct2metrics_init` -/
def empty : Cct2Metrics := ⟨.nil, by simp [STree.Ordered]⟩

/-- The node has an entry, with metrics or without. -/
def Has (map : Cct2Metrics) (node : ℕ) : Prop := (find? MetricsEntry.node map.tree node).isSome

instance : Decidable (map.Has node) := inferInstanceAs (Decidable (_ = true))

def AtRoot (map : Cct2Metrics) (node : ℕ) : Prop := ∃ e ∈ map.tree.root?, e.node = node

instance : Decidable (map.AtRoot node) := inferInstanceAs (Decidable (∃ e ∈ _, _))

def assocTree (node : ℕ) (kindMetrics : MetricDataList) (tree : STree MetricsEntry) : STree MetricsEntry :=
  match splay MetricsEntry.node node tree with
  | .nil => .node .nil ⟨node, kindMetrics⟩ .nil
  | .node l x r =>
    -- "CCT2METRICS map assoc invariant violated"
    if x.node = node then .node l x r
    else insertRoot MetricsEntry.node ⟨node, kindMetrics⟩ (.node l x r)

variable {tree : STree MetricsEntry}

section
variable (ordered : tree.Ordered MetricsEntry.node)
include ordered

lemma assocTree_of_absent
    (absent : find? MetricsEntry.node tree node = none) : assocTree node kindMetrics tree =
      insertRoot MetricsEntry.node ⟨node, kindMetrics⟩ (splay MetricsEntry.node node tree) := by
  rw [assocTree]
  cases root : splay MetricsEntry.node node tree with
  | nil => rfl
  | node l x r =>
    have differ : x.node ≠ node := by
      intro same
      rw [ordered.find?_eq_root? MetricsEntry.node node, root, root?, filter_some,
        if_pos (decide_eq_true same)] at absent
      cases absent
    exact if_neg differ

lemma assocTree_of_present
    (present : find? MetricsEntry.node tree node ≠ none) :
    assocTree node kindMetrics tree = splay MetricsEntry.node node tree := by
  rw [assocTree]
  cases root : splay MetricsEntry.node node tree with
  | nil =>
    rw [splay_eq_nil] at root
    exact absurd (by rw [root]; rfl) present
  | node l x r =>
    have same : x.node = node := by
      by_contra differ
      exact present (find?_of_splay_ne MetricsEntry.node node ordered root differ)
    exact if_pos same

lemma assocTree_ordered :
    (assocTree node kindMetrics tree).Ordered MetricsEntry.node := by
  by_cases absent : find? MetricsEntry.node tree node = none
  · rw [assocTree_of_absent ordered absent]
    refine insertRoot_ordered _ (ordered.splay _ _) (splits_splay _ _ ordered) ?_
    rw [toList_splay]
    exact (find?_eq_none MetricsEntry.node).mp absent
  · rw [assocTree_of_present ordered absent]
    exact ordered.splay _ _

end

/-- `cct2metrics_assoc` on the map of the thread. -/
def assoc (map : Cct2Metrics) (node : ℕ) (kindMetrics : MetricDataList) : Cct2Metrics :=
  ⟨assocTree node kindMetrics map.tree, assocTree_ordered map.ordered⟩

lemma metricsOf_of_not_has (absent : ¬ map.Has node) : map.metricsOf node = [] := by
  rw [Has, not_isSome_iff_eq_none] at absent
  rw [metricsOf, absent]
  rfl

lemma metricsOf_assoc : (map.assoc node kindMetrics).metricsOf =
    if map.Has node then map.metricsOf else update map.metricsOf node kindMetrics := by
  funext q
  split
  · rename_i present
    have some_entry : find? MetricsEntry.node map.tree node ≠ none := isSome_iff_ne_none.mp present
    change ((find? MetricsEntry.node (assocTree node kindMetrics map.tree) q).map _).getD [] = _
    rw [assocTree_of_present map.ordered some_entry, find?_splay]
    rfl
  · rename_i absent
    have no_entry := not_isSome_iff_eq_none.mp absent
    change ((find? MetricsEntry.node (assocTree node kindMetrics map.tree) q).map _).getD [] = _
    rw [assocTree_of_absent map.ordered no_entry,
      find?_insertRoot MetricsEntry.node (x := ⟨node, kindMetrics⟩) map.ordered no_entry]
    by_cases same : q = node
    · rw [if_pos same, same, update_self]
      rfl
    · rw [if_neg same, update_of_ne same]
      rfl

/-- The metrics at the root, if it is the node, and the map without them. -/
def takeRoot (map : Cct2Metrics) (source : ℕ) : Option (MetricDataList × Cct2Metrics) :=
  match map with
  | ⟨.nil, _⟩ => none
  | ⟨.node l x r, ordered⟩ =>
    if x.node = source then
      some (x.kindMetrics, ⟨.node l { x with kindMetrics := [] } r, replaceRoot_ordered _ ordered rfl⟩)
    else none

lemma takeRoot_of_atRoot (root : map.AtRoot source) : ∃ rest, map.takeRoot source = some (map.metricsOf source, rest) ∧
    rest.metricsOf = update map.metricsOf source [] ∧ ∀ n, rest.Has n ↔ map.Has n := by
  obtain ⟨tree, ordered⟩ := map
  cases tree with
  | nil =>
    obtain ⟨e, member, -⟩ := root
    cases member
  | node l x r =>
    obtain ⟨e, member, rfl⟩ := root
    cases member
    have here : find? MetricsEntry.node (.node l x r) x.node = some x :=
      (ordered.find?_eq_some MetricsEntry.node).mpr ⟨by simp, rfl⟩
    have replaced := find?_replaceRoot MetricsEntry.node (y := { x with kindMetrics := [] }) ordered rfl
    refine ⟨⟨.node l { x with kindMetrics := [] } r, replaceRoot_ordered _ ordered rfl⟩, ?_, ?_, ?_⟩
    · rw [takeRoot, if_pos rfl, metricsOf, here]
      rfl
    · funext q
      rw [metricsOf, replaced]
      by_cases same : q = x.node
      · rw [if_pos same, same, update_self]
        rfl
      · rw [if_neg same, update_of_ne same]
        rfl
    · intro n
      rw [Has, Has, replaced]
      by_cases same : n = x.node
      · rw [if_pos same, same, here]
        exact Iff.rfl
      · rw [if_neg same]

lemma takeRoot_of_not_atRoot (elsewhere : ¬ map.AtRoot source) : map.takeRoot source = none := by
  obtain ⟨tree, ordered⟩ := map
  cases tree with
  | nil => rfl
  | node l x r => exact if_neg fun same => elsewhere ⟨x, rfl, same⟩

end Cct2Metrics

/-! ## Operations on the maps -/

inductive MapOp (V : Type) where
  | assoc (node : ℕ) (kindMetrics : MetricDataList)
  | get (map : Option V) (node : ℕ)
  | move (map : Option V) (dest source : ℕ)

section
variable {V : Type} [DecidableEq V] (own : V) (maps : V → Cct2Metrics)

/-- `map ? *map : THREAD_LOCAL_MAP()`; `own` holds the map of the thread. -/
def target (map : Option V) : V := map.getD own

def cct2metricsAssoc (node : ℕ) (kindMetrics : MetricDataList) : V → Cct2Metrics :=
  update maps own ((maps own).assoc node kindMetrics)

def hpcrunMoveMetricDataListSpecific (map : Option V) (dest source : ℕ) : MetricDataList × (V → Cct2Metrics) :=
  if dest = 0 ∨ source = 0 then ([], maps)
  else
    match (maps (target own map)).takeRoot source with
    | some (metricDataList, rest) =>
      (metricDataList, cct2metricsAssoc own (update maps (target own map) rest) dest metricDataList)
    | none => ([], maps)

def execMap : MapOp V → MetricDataList × (V → Cct2Metrics)
  | .assoc node kindMetrics => ([], cct2metricsAssoc own maps node kindMetrics)
  | .get map node =>
    let (found, kindMetrics) := hpcrunGetMetricDataListSpecific (maps (target own map)) node
    (kindMetrics, update maps (target own map) found)
  | .move map dest source => hpcrunMoveMetricDataListSpecific own maps map dest source

/-- What an operation promises about the metrics of all nodes in all maps. -/
def MapPromised (before after : V → ℕ → MetricDataList) : MapOp V → MetricDataList → Prop
  | .assoc node kindMetrics, _ =>
    after = update before own (update (before own) node kindMetrics)
  | .get map node, result => result = before (target own map) node ∧ after = before
  | .move map dest source, _ =>
    let v := target own map
    if dest = 0 ∨ source = 0 ∨ before v source = [] then after = before
    else after v dest = before v source ∧
      ∀ u n, ¬ (u = v ∧ n = dest) → ¬ (u = v ∧ n = source) → after u n = before u n

/-- The operations that keep their promise. A destination may also have the very metrics that are to be moved. -/
def MapMeets : MapOp V → Prop
  | .assoc node kindMetrics => ¬ (maps own).Has node ∨ (maps own).metricsOf node = kindMetrics
  | .get _ _ => True
  | .move map dest source =>
    let v := target own map
    let moved := (maps v).metricsOf source
    dest = 0 ∨ source = 0 ∨ moved = [] ∨
      if (maps v).AtRoot source then
        dest ≠ source ∧
          if v = own then ¬ (maps own).Has dest ∨ (maps own).metricsOf dest = moved
          else (maps own).Has dest ∧ (maps v).metricsOf dest = moved
      else (maps v).metricsOf dest = moved

variable {own maps} {node dest source : ℕ} {kindMetrics : MetricDataList} {map : Option V}

lemma metricsOf_update (v : V) (m : Cct2Metrics) : (fun u => (update maps v m u).metricsOf) =
    update (fun u => (maps u).metricsOf) v m.metricsOf := by
  funext u
  by_cases same : u = v
  · subst same
    rw [update_self, update_self]
  · rw [update_of_ne same, update_of_ne same]

lemma metricsOf_cct2metricsAssoc : (fun u => (cct2metricsAssoc own maps node kindMetrics u).metricsOf) =
    if (maps own).Has node then fun u => (maps u).metricsOf
    else update (fun u => (maps u).metricsOf) own (update (maps own).metricsOf node kindMetrics) := by
  rw [cct2metricsAssoc, metricsOf_update, metricsOf_assoc]
  split
  · exact update_eq_self own fun u => (maps u).metricsOf
  · rfl

lemma promised_assoc_iff : MapPromised own (fun u => (maps u).metricsOf)
      (fun u => (cct2metricsAssoc own maps node kindMetrics u).metricsOf) (.assoc node kindMetrics) [] ↔
    MapMeets own maps (.assoc node kindMetrics) := by
  rw [MapPromised, MapMeets, metricsOf_cct2metricsAssoc]
  by_cases present : (maps own).Has node
  · rw [if_pos present]
    constructor
    · intro unchanged
      have here := congrFun (congrFun unchanged own) node
      rw [update_self, update_self] at here
      exact .inr here
    · rintro (absent | same)
      · exact absurd present absent
      · rw [← same, update_eq_self, update_eq_self]
  · rw [if_neg present]
    exact iff_of_true rfl (.inl present)

lemma promised_get (result : MetricDataList × (V → Cct2Metrics)) (run : execMap own maps (.get map node) = result) :
    MapPromised own (fun u => (maps u).metricsOf) (fun u => (result.2 u).metricsOf) (.get map node) result.1 := by
  subst run
  refine ⟨hpcrunGetMetricDataListSpecific_snd _ _, ?_⟩
  change (fun u => (update maps _ _ u).metricsOf) = _
  rw [metricsOf_update]
  have same : (hpcrunGetMetricDataListSpecific (maps (target own map)) node).1.metricsOf =
      (maps (target own map)).metricsOf :=
    funext fun other => metricsOf_hpcrunGetMetricDataListSpecific _ _ _
  exact (congrArg (update _ _) same).trans (update_eq_self (target own map) fun u => (maps u).metricsOf)

lemma Cct2Metrics.AtRoot.has {map : Cct2Metrics} (root : map.AtRoot source) : map.Has source := by
  obtain ⟨e, member, rfl⟩ := root
  refine isSome_iff_ne_none.mpr fun absent => ?_
  refine (find?_eq_none MetricsEntry.node).mp absent e ?_ rfl
  cases tree : map.tree with
  | nil => rw [tree] at member; cases member
  | node l x r =>
    rw [tree] at member
    cases member
    simp

lemma move_of_not_atRoot (elsewhere : ¬ (maps (target own map)).AtRoot source) :
    hpcrunMoveMetricDataListSpecific own maps map dest source = ([], maps) := by
  rw [hpcrunMoveMetricDataListSpecific, takeRoot_of_not_atRoot elsewhere]
  exact ite_self _

section
variable (nonnull : ¬ (dest = 0 ∨ source = 0))
include nonnull

lemma metricsOf_move (root : (maps (target own map)).AtRoot source) :
    let v := target own map
    let emptied := update (fun u => (maps u).metricsOf) v (update (maps v).metricsOf source [])
    (fun u => ((hpcrunMoveMetricDataListSpecific own maps map dest source).2 u).metricsOf) =
      if (maps own).Has dest then emptied
      else update emptied own (update (emptied own) dest ((maps v).metricsOf source)) := by
  intro v emptied
  obtain ⟨rest, taken, without, has⟩ := takeRoot_of_atRoot root
  have between : (fun u => (update maps v rest u).metricsOf) = emptied := by
    rw [metricsOf_update, without]
  have same_keys : (update maps v rest own).Has dest ↔ (maps own).Has dest := by
    by_cases mine : own = v
    · rw [mine, update_self]
      exact has dest
    · rw [update_of_ne mine]
  rw [hpcrunMoveMetricDataListSpecific, if_neg nonnull, taken]
  change (fun u => (cct2metricsAssoc own (update maps v rest) dest _ u).metricsOf) = _
  rw [metricsOf_cct2metricsAssoc, between]
  have at_own : (update maps v rest own).metricsOf = emptied own := congrFun between own
  rw [at_own]
  by_cases present : (maps own).Has dest
  · rw [if_pos present, if_pos (same_keys.mpr present)]
  · rw [if_neg present, if_neg (mt same_keys.mp present)]

lemma promised_move_own_iff (root : (maps own).AtRoot source)
    (mine : target own map = own) (some_metrics : (maps own).metricsOf source ≠ []) :
    MapPromised own (fun u => (maps u).metricsOf)
        (fun u => ((hpcrunMoveMetricDataListSpecific own maps map dest source).2 u).metricsOf) (.move map dest source) [] ↔
      dest ≠ source ∧ (¬ (maps own).Has dest ∨ (maps own).metricsOf dest = (maps own).metricsOf source) := by
  have trivial_move : ¬ (dest = 0 ∨ source = 0 ∨ (maps own).metricsOf source = []) := by tauto
  simp only [MapPromised, mine, if_neg trivial_move]
  have root' : (maps (target own map)).AtRoot source := by rw [mine]; exact root
  have after := metricsOf_move nonnull root'
  simp only [mine, update_self] at after
  rw [funext_iff] at after
  by_cases present : (maps own).Has dest
  · simp only [if_pos present] at after
    simp only [after, update_self]
    constructor
    · rintro ⟨moved, -⟩
      by_cases same : dest = source
      · rw [same, update_self] at moved
        exact absurd moved.symm some_metrics
      · rw [update_of_ne same] at moved
        exact ⟨same, .inr moved⟩
    · rintro ⟨differ, absent | already⟩
      · exact absurd present absent
      · refine ⟨(update_of_ne differ ..).trans already, fun u n _ notSource => ?_⟩
        by_cases here : u = own
        · subst here
          rw [update_self, update_of_ne fun same => notSource ⟨rfl, same⟩]
        · rw [update_of_ne here]
  · simp only [if_neg present] at after
    simp only [after, update_self, true_and]
    refine iff_of_true ?_ ⟨fun same => present (same ▸ root.has), .inl present⟩
    intro u n notDest notSource
    by_cases here : u = own
    · subst here
      rw [update_self, update_of_ne fun same => notDest ⟨rfl, same⟩,
        update_of_ne fun same => notSource ⟨rfl, same⟩]
    · rw [update_of_ne here, update_of_ne here]

lemma promised_move_other_iff (root : (maps (target own map)).AtRoot source)
    (other : target own map ≠ own) (some_metrics : (maps (target own map)).metricsOf source ≠ []) :
    MapPromised own (fun u => (maps u).metricsOf)
        (fun u => ((hpcrunMoveMetricDataListSpecific own maps map dest source).2 u).metricsOf) (.move map dest source) [] ↔
      dest ≠ source ∧ (maps own).Has dest ∧
        (maps (target own map)).metricsOf dest = (maps (target own map)).metricsOf source := by
  have trivial_move : ¬ (dest = 0 ∨ source = 0 ∨ (maps (target own map)).metricsOf source = []) := by tauto
  simp only [MapPromised, if_neg trivial_move]
  have after := metricsOf_move nonnull root
  simp only [update_of_ne (Ne.symm other)] at after
  rw [funext_iff] at after
  by_cases present : (maps own).Has dest
  · simp only [if_pos present] at after
    simp only [after, update_self, present, true_and]
    constructor
    · rintro ⟨moved, -⟩
      by_cases same : dest = source
      · rw [same, update_self] at moved
        exact absurd moved.symm some_metrics
      · rw [update_of_ne same] at moved
        exact ⟨same, moved⟩
    · rintro ⟨differ, already⟩
      refine ⟨(update_of_ne differ ..).trans already, fun u n _ notSource => ?_⟩
      by_cases here : u = target own map
      · subst here
        rw [update_self, update_of_ne fun same => notSource ⟨rfl, same⟩]
      · rw [update_of_ne here]
  · simp only [if_neg present] at after
    refine iff_of_false ?_ fun both => present both.2.1
    rintro ⟨-, others⟩
    have changed := others own dest (fun both => other both.1.symm) fun both => other both.1.symm
    simp only [after, update_self, metricsOf_of_not_has present] at changed
    exact some_metrics changed

end

lemma promised_move_iff : MapPromised own (fun u => (maps u).metricsOf)
      (fun u => ((hpcrunMoveMetricDataListSpecific own maps map dest source).2 u).metricsOf) (.move map dest source) [] ↔
    MapMeets own maps (.move map dest source) := by
  by_cases null : dest = 0 ∨ source = 0
  · have unmoved : hpcrunMoveMetricDataListSpecific own maps map dest source = ([], maps) := if_pos null
    rw [unmoved]
    refine iff_of_true ?_ (null.imp_right .inl)
    exact (if_pos (null.imp_right .inl)).mpr rfl
  · by_cases root : (maps (target own map)).AtRoot source
    · by_cases empty : (maps (target own map)).metricsOf source = []
      · refine iff_of_true ?_ (.inr (.inr (.inl empty)))
        rw [metricsOf_move null root]
        have unchanged : update (fun u => (maps u).metricsOf) (target own map)
            (update (maps (target own map)).metricsOf source []) = fun u => (maps u).metricsOf := by
          rw [← empty, update_eq_self]
          exact update_eq_self (target own map) fun u => (maps u).metricsOf
        simp only [MapPromised, empty, or_true, if_true, unchanged]
        split
        · rfl
        · rename_i absent
          rw [← metricsOf_of_not_has absent, update_eq_self]
          exact update_eq_self own fun u => (maps u).metricsOf
      · simp only [MapMeets, if_pos root, empty, false_or]
        rw [not_or] at null
        simp only [null.1, null.2, false_or]
        by_cases mine : target own map = own
        · rw [if_pos mine, promised_move_own_iff (not_or.mpr null) (by rw [← mine]; exact root) mine
            (by rw [← mine]; exact empty), mine]
        · rw [if_neg mine, promised_move_other_iff (not_or.mpr null) root mine empty]
    · rw [move_of_not_atRoot root]
      rw [not_or] at null
      simp only [MapPromised, MapMeets, if_neg root, null.1, null.2, false_or]
      by_cases empty : (maps (target own map)).metricsOf source = []
      · simp [empty]
      · simp [empty]

lemma promised_iff_meets (op : MapOp V) : MapPromised own (fun u => (maps u).metricsOf)
      (fun u => ((execMap own maps op).2 u).metricsOf) op (execMap own maps op).1 ↔ MapMeets own maps op := by
  cases op with
  | assoc node kindMetrics => exact promised_assoc_iff
  | get map node => exact iff_of_true (promised_get _ rfl) trivial
  | move map dest source => exact promised_move_iff

/-- Along any run from empty maps, lookups, associations and moves keep their promises just in case every association is
for a node without an entry and every move is, in the map of the thread, from the root to a node without an entry. -/
theorem cct2metrics_is_map_iff (own : V) (ops : List (MapOp V)) :
    EachStep (execMap own) (fun maps op result maps' =>
        MapPromised own (fun u => (maps u).metricsOf) (fun u => (maps' u).metricsOf) op result)
      (fun _ => empty) ops ↔
    EachStep (execMap own) (fun maps op _ _ => MapMeets own maps op) (fun _ => empty) ops :=
  eachStep_iff (fun _ => True) (fun _ _ _ _ => trivial) (fun _ op _ => promised_iff_meets op) trivial ops

end

/-- Two nodes are associated, and the metrics of the first, which is not the root any more, are moved to a third. -/
def movedFromBelow : List (MapOp Unit) :=
  [.assoc 1 [⟨0, [7]⟩], .assoc 2 [⟨0, [8]⟩], .move none 3 1]

theorem move_from_below_lost :
    ¬ EachStep (execMap ()) (fun maps op result maps' =>
        MapPromised () (fun u => (maps u).metricsOf) (fun u => (maps' u).metricsOf) op result)
      (fun _ => empty) movedFromBelow := by
  rintro ⟨-, -, moved, -⟩
  exact absurd (moved.1) (by decide)

end HpcToolkit.Cct
