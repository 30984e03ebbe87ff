import HpcToolkit.Cct.Metrics

/-! # Merging the metrics of two nodes

The words of a source list are added to those of a destination list, kind by kind; a kind that the destination does not
have is appended with zeros first. The addition is one of integers for every metric, while a single update of a metric
asks for its format.
-/

open List

namespace HpcToolkit.Cct

/-- `MetricFlags_ValFmt_t` of a metric that has values. -/
inductive ValFmt where
  | int
  | real

/-- `hpcrun_metric_std` with the operation `+`; `addReal` adds doubles, given and returned by their words. -/
def hpcrunMetricStdInc (addReal : UInt64 → UInt64 → UInt64) : ValFmt → UInt64 → UInt64 → UInt64
  | .int, loc, incr => loc + incr
  | .real, loc, incr => addReal loc incr

/-- The loop `curr_dest->metrics[i].v1.i += curr_source->metrics[i].v1.i`. -/
def addWords (nMetrics : ℕ) (dest source : List UInt64) : List UInt64 :=
  (range nMetrics).foldl (fun dest i => dest.set i (dest.getD i 0 + source.getD i 0)) dest

/-- One link of the source list; `numMetrics` is `hpcrun_get_num_metrics`. -/
def mergeLink (numMetrics : ℕ → ℕ) (source : MetricData) : MetricDataList → MetricDataList
  | [] =>
    let nMetrics := numMetrics source.kind
    [{ kind := source.kind, metrics := addWords nMetrics (replicate nMetrics 0) source.metrics }]
  | dest :: rest =>
    if dest.kind = source.kind then
      { dest with metrics := addWords (numMetrics source.kind) dest.metrics source.metrics } :: rest
    else dest :: mergeLink numMetrics source rest

/-- A destination that is `NULL` is dereferenced. -/
def hpcrunMergeCctMetrics (numMetrics : ℕ → ℕ) (destList sourceList : MetricDataList) : Option MetricDataList :=
  if destList = [] ∧ sourceList ≠ [] then none
  else some (sourceList.foldl (fun dest source => mergeLink numMetrics source dest) destList)

/-- The word of metric `i` of a kind. -/
def value (list : MetricDataList) (k i : ℕ) : Option UInt64 :=
  (list.find? fun curr => curr.kind == k).bind fun curr => curr.metrics[i]?

/-- No kind twice, and a word for each metric of the kind. -/
structure WellFormed (numMetrics : ℕ → ℕ) (list : MetricDataList) : Prop where
  kinds : (list.map MetricData.kind).Nodup
  sizes : ∀ link ∈ list, link.metrics.length = numMetrics link.kind

variable {numMetrics : ℕ → ℕ} {dest source rest : MetricDataList} {link : MetricData}

lemma WellFormed.tail (formed : WellFormed numMetrics (link :: rest)) : WellFormed numMetrics rest :=
  ⟨(nodup_cons.mp formed.kinds).2, fun other member => formed.sizes other (mem_cons_of_mem _ member)⟩

@[simp] lemma value_nil (k i : ℕ) : value [] k i = none := rfl

lemma value_cons (link : MetricData) (rest : MetricDataList) (k i : ℕ) :
    value (link :: rest) k i = if link.kind = k then link.metrics[i]? else value rest k i := by
  rw [value, find?_cons]
  by_cases same : link.kind = k
  · rw [beq_iff_eq.mpr same, if_pos same]
    rfl
  · rw [beq_false_of_ne same, if_neg same]
    rfl

lemma value_eq_none {k : ℕ} (absent : ∀ link ∈ rest, link.kind ≠ k) (i : ℕ) : value rest k i = none := by
  induction rest with
  | nil => rfl
  | cons link rest ih =>
    rw [value_cons, if_neg (absent link mem_cons_self)]
    exact ih fun other member => absent other (mem_cons_of_mem _ member)

/-! ## Adding the words of a kind -/

lemma length_addWords (n : ℕ) (dest source : List UInt64) : (addWords n dest source).length = dest.length := by
  induction n with
  | zero => rfl
  | succ n ih =>
    rw [addWords, range_succ, foldl_append]
    exact length_set.trans ih

lemma getElem?_addWords (dest source : List UInt64) (n i : ℕ) :
    (addWords n dest source)[i]? = if i < n then dest[i]?.map (· + source.getD i 0) else dest[i]? := by
  induction n generalizing i with
  | zero => rfl
  | succ n ih =>
    have step : addWords (n + 1) dest source =
        (addWords n dest source).set n ((addWords n dest source).getD n 0 + source.getD n 0) := by
      rw [addWords, range_succ, foldl_append]
      rfl
    rw [step, getElem?_set, length_addWords]
    by_cases here : n = i
    · subst here
      rw [if_pos rfl, if_pos (Nat.lt_succ_self n), getD_eq_getElem?_getD, ih, if_neg (lt_irrefl n)]
      by_cases inside : n < dest.length
      · simp [inside]
      · simp [inside]
    · rw [if_neg here, ih]
      by_cases before : i < n
      · rw [if_pos before, if_pos (before.trans (Nat.lt_succ_self n))]
      · rw [if_neg before, if_neg (by omega)]

lemma getElem?_addWords_all {dest : List UInt64} (source : List UInt64) (i : ℕ) :
    (addWords dest.length dest source)[i]? = dest[i]?.map (· + source.getD i 0) := by
  rw [getElem?_addWords dest source]
  split
  · rfl
  · rename_i outside
    rw [getElem?_eq_none (not_lt.mp outside)]
    rfl

lemma getElem?_addWords_zero {n : ℕ} {source : List UInt64} (size : source.length = n) (i : ℕ) :
    (addWords n (replicate n 0) source)[i]? = source[i]? := by
  rw [getElem?_addWords, getElem?_replicate]
  by_cases inside : i < n
  · rw [if_pos inside, if_pos inside, getD_eq_getElem?_getD, getElem?_eq_getElem (size ▸ inside)]
    simp
  · rw [if_neg inside, if_neg inside, getElem?_eq_none (size ▸ not_lt.mp inside)]

/-! ## Merging lists -/

lemma mem_kinds_mergeLink {k : ℕ} : k ∈ (mergeLink numMetrics link dest).map MetricData.kind ↔
    k = link.kind ∨ k ∈ dest.map MetricData.kind := by
  induction dest with
  | nil => simp [mergeLink]
  | cons first rest ih =>
    rw [mergeLink]
    split
    · rename_i same
      simp [same]
    · rw [map_cons, mem_cons, ih, map_cons, mem_cons]
      tauto

lemma WellFormed.mergeLink (formed : WellFormed numMetrics dest) :
    WellFormed numMetrics (mergeLink numMetrics link dest) := by
  induction dest with
  | nil =>
    refine ⟨nodup_singleton _, fun other member => ?_⟩
    obtain rfl := mem_singleton.mp member
    exact (length_addWords ..).trans length_replicate
  | cons first rest ih =>
    rw [Cct.mergeLink]
    split
    · refine ⟨formed.kinds, fun other member => ?_⟩
      rcases mem_cons.mp member with rfl | member
      · exact (length_addWords ..).trans (formed.sizes first mem_cons_self)
      · exact formed.sizes other (mem_cons_of_mem _ member)
    · rename_i other_kind
      have merged := ih formed.tail
      refine ⟨?_, fun other member => ?_⟩
      · rw [map_cons, nodup_cons, mem_kinds_mergeLink, not_or]
        exact ⟨⟨other_kind, (nodup_cons.mp formed.kinds).1⟩, merged.kinds⟩
      · rcases mem_cons.mp member with rfl | member
        · exact formed.sizes other mem_cons_self
        · exact merged.sizes other member

/-- How the word of a metric is put together from those of the two lists. -/
def joinWords (add : UInt64 → UInt64 → UInt64) : Option UInt64 → Option UInt64 → Option UInt64
  | some x, some y => some (add x y)
  | some x, none => some x
  | none, y => y

lemma value_mergeLink (formed : WellFormed numMetrics dest) (size : link.metrics.length = numMetrics link.kind)
    (k i : ℕ) : value (mergeLink numMetrics link dest) k i =
      if link.kind = k then joinWords (· + ·) (value dest k i) link.metrics[i]? else value dest k i := by
  induction dest with
  | nil =>
    rw [mergeLink, value_cons, getElem?_addWords_zero size]
    rfl
  | cons first rest ih =>
    rw [mergeLink]
    by_cases here : first.kind = link.kind
    · have sizes : first.metrics.length = numMetrics link.kind := here ▸ formed.sizes first mem_cons_self
      rw [if_pos here, value_cons, value_cons, ← here]
      by_cases same : first.kind = k
      · rw [if_pos same, if_pos same, if_pos same, here, ← sizes, getElem?_addWords_all,
          getD_eq_getElem?_getD]
        by_cases inside : i < first.metrics.length
        · have both : i < link.metrics.length := by omega
          rw [getElem?_eq_getElem inside, getElem?_eq_getElem both]
          rfl
        · have both : link.metrics.length ≤ i := by omega
          rw [getElem?_eq_none (not_lt.mp inside), getElem?_eq_none both]
          rfl
      · rw [if_neg same, if_neg same, if_neg same]
    · rw [if_neg here, value_cons, value_cons, ih formed.tail]
      by_cases same : first.kind = k
      · rw [if_pos same, if_pos same, if_neg (same ▸ Ne.symm here)]
      · rw [if_neg same, if_neg same]

lemma value_foldl_mergeLink (formedDest : WellFormed numMetrics dest) (formedSource : WellFormed numMetrics source)
    (k i : ℕ) : value (source.foldl (fun dest link => mergeLink numMetrics link dest) dest) k i =
      joinWords (· + ·) (value dest k i) (value source k i) := by
  induction source generalizing dest with
  | nil => cases h : value dest k i <;> simp [h, joinWords]
  | cons link rest ih =>
    rw [foldl_cons, ih formedDest.mergeLink formedSource.tail,
      value_mergeLink formedDest (formedSource.sizes link mem_cons_self), value_cons]
    split
    · rename_i same
      have later : value rest k i = none := by
        apply value_eq_none
        intro other member equal
        exact (nodup_cons.mp formedSource.kinds).1 (mem_map.mpr ⟨other, member, equal.trans same.symm⟩)
      rw [later]
      cases joinWords (· + ·) (value dest k i) link.metrics[i]? <;> rfl
    · rfl

/-- Each metric of either list ends up as its old word updated by the word of the source, by its own format. -/
def AddsLikeWithLike (addReal : UInt64 → UInt64 → UInt64) (fmt : ℕ → ℕ → ValFmt) (dest source : MetricDataList)
    (result : Option MetricDataList) : Prop :=
  ∃ list, result = some list ∧
    ∀ k i, value list k i = joinWords (hpcrunMetricStdInc addReal (fmt k i)) (value dest k i) (value source k i)

/-- The merge is right just in case the words of every real metric that both lists have add up, as integers, to the
word of their sum. -/
theorem merge_adds_iff (addReal : UInt64 → UInt64 → UInt64) (fmt : ℕ → ℕ → ValFmt)
    (formedDest : WellFormed numMetrics dest) (formedSource : WellFormed numMetrics source) (nonnull : dest ≠ []) :
    AddsLikeWithLike addReal fmt dest source (hpcrunMergeCctMetrics numMetrics dest source) ↔
      ∀ k i, fmt k i = .real → ∀ x ∈ value dest k i, ∀ y ∈ value source k i, x + y = addReal x y := by
  have merged : hpcrunMergeCctMetrics numMetrics dest source =
      some (source.foldl (fun dest link => mergeLink numMetrics link dest) dest) :=
    if_neg fun both => nonnull both.1
  rw [AddsLikeWithLike, merged]
  constructor
  · rintro ⟨_, ⟨⟩, right⟩ k i real x old y new
    have same := right k i
    rw [value_foldl_mergeLink formedDest formedSource, old, new, real] at same
    exact Option.some.inj same
  · intro sums
    refine ⟨_, rfl, fun k i => ?_⟩
    rw [value_foldl_mergeLink formedDest formedSource]
    cases old : value dest k i with
    | none => rfl
    | some x =>
      cases new : value source k i with
      | none => rfl
      | some y =>
        cases format : fmt k i with
        | int => rfl
        | real => exact congrArg some (sums k i format x old y new)

/-- One kind with a real metric of the value 1.0. -/
def oneReal : MetricDataList := [⟨0, [0x3ff0000000000000]⟩]

/-- Addition of doubles as far as it is needed: 1.0 + 1.0 is 2.0. -/
def addOnes (x y : UInt64) : UInt64 :=
  if x = 0x3ff0000000000000 ∧ y = 0x3ff0000000000000 then 0x4000000000000000 else x + y

theorem merge_adds_zero : AddsLikeWithLike addOnes (fun _ _ => .real) [⟨0, [0]⟩] oneReal
    (hpcrunMergeCctMetrics (fun _ => 1) [⟨0, [0]⟩] oneReal) := by
  have one : ∀ {word : UInt64}, WellFormed (fun _ => 1) [⟨0, [word]⟩] := by
    intro word
    exact ⟨nodup_singleton _, fun link member => by rw [mem_singleton.mp member]; rfl⟩
  refine (merge_adds_iff addOnes (fun _ _ => .real) one one (cons_ne_nil _ _)).mpr ?_
  rintro k i - x old y new
  cases k with
  | zero =>
    cases i with
    | zero =>
      cases old
      cases new
      decide
    | succ i => cases old
  | succ k => cases old

theorem real_metrics_merged_as_integers : ¬ AddsLikeWithLike addOnes (fun _ _ => .real) oneReal oneReal
    (hpcrunMergeCctMetrics (fun _ => 1) oneReal oneReal) := by
  rintro ⟨list, merged, right⟩
  cases merged
  exact absurd (right 0 0) (by decide)

end HpcToolkit.Cct
