import HpcToolkit.Prof.CriticalSubtree

/-! # What metric propagation computes

The point, function and execution values of each context are the sums that `MetricScope` prescribes. The
lexically aware value is, too, except at a loop that has no accumulator of its own for a metric: the one
made for the values of its children is never marked as a loop's and reports the function value.
-/

open Function List
open Option (getD_none)

namespace HpcToolkit.Prof

open Lib

variable {Ctx Metric R : Type} [DecidableEq Ctx] [AddCommMonoid R]

/-! ## The documented scopes -/

/-- The point values of a thread before propagation; `contexts` are the keys of `c_data` in iteration order. -/
structure RawData (Ctx Metric R : Type) where
  contexts : List Ctx
  points : Ctx → Metric → Option R
  inside : ∀ {c m v}, points c m = some v → c ∈ contexts

/-- `c_data` before propagation. -/
def RawData.cData (raw : RawData Ctx Metric R) : CData Ctx Metric R := fun c m =>
  (raw.points c m).map fun v => { point := v }

def RawData.point (raw : RawData Ctx Metric R) (m : Metric) (c : Ctx) : R := (raw.points c m).getD 0

/-- The sum over what a context reaches along edges that pass a test. -/
noncomputable def RawData.scopeSum (raw : RawData Ctx Metric R) (t : Contexts Ctx) (ok : Ctx → Prop) (m : Metric)
    (c : Ctx) : R := t.reachSum ok raw.contexts.toFinset (raw.point m) c

/-- `execution`: the context and all descendants. -/
noncomputable def RawData.executionSum (raw : RawData Ctx Metric R) (t : Contexts Ctx) : Metric → Ctx → R :=
  raw.scopeSum t fun _ => True

/-- `function`: descendants not connected by a call. -/
noncomputable def RawData.functionSum (raw : RawData Ctx Metric R) (t : Contexts Ctx) : Metric → Ctx → R :=
  raw.scopeSum t fun e => isCall (t.relation e) = false

/-- `function` without what lies in loops below the context. -/
noncomputable def RawData.noloopsSum (raw : RawData Ctx Metric R) (t : Contexts Ctx) : Metric → Ctx → R :=
  raw.scopeSum t fun e => isCall (t.relation e) = false ∧ t.isLoop e = false

/-- `lex_aware`: as `function`, but on a loop without the loops below it. -/
noncomputable def RawData.lexAwareSum (raw : RawData Ctx Metric R) (t : Contexts Ctx) (m : Metric) (c : Ctx) : R :=
  if t.isLoop c then raw.noloopsSum t m c else raw.functionSum t m c

/-! ## One context -/

section
variable {t : Contexts Ctx} {cData : CData Ctx Metric R} {m : Metric} {c : Ctx}

lemma pull_default (pullFunc pullNoLoops : Bool) (a : MetricAccumulator R) : pull pullFunc pullNoLoops a {} = a := by
  cases pullFunc <;> cases pullNoLoops <;> simp [pull]

omit [DecidableEq Ctx] in
lemma pullChild_getD (data : Metric → Option (MetricAccumulator R)) (e : Ctx) :
    (pullChild t cData data e m).getD {} =
      pull (!isCall (t.relation e)) (!t.isLoop e) ((data m).getD {}) ((cData e m).getD {}) := by
  rw [pullChild]
  cases cData e m with
  | none => rw [getD_none, pull_default]
  | some x => rfl

omit [DecidableEq Ctx] in
lemma pullChild_isSome (data : Metric → Option (MetricAccumulator R)) (e : Ctx) :
    (pullChild t cData data e m).isSome ↔ (data m).isSome ∨ (cData e m).isSome := by
  rw [pullChild]
  cases cData e m <;> simp

/-- The accumulator after the values of some children have been summed into `a`. -/
def summed (t : Contexts Ctx) (cData : CData Ctx Metric R) (m : Metric) (a : MetricAccumulator R) (l : List Ctx) :
    MetricAccumulator R where
  isLoop := a.isLoop
  point := a.point
  function := a.function +
    (l.map fun e => if isCall (t.relation e) = false then ((cData e m).getD {}).function else 0).sum
  functionNoloops := a.functionNoloops +
    (l.map fun e => if isCall (t.relation e) = false ∧ t.isLoop e = false
      then ((cData e m).getD {}).functionNoloops else 0).sum
  execution := a.execution + (l.map fun e => ((cData e m).getD {}).execution).sum

omit [DecidableEq Ctx] in
lemma foldl_pullChild_getD (data : Metric → Option (MetricAccumulator R)) (l : List Ctx) :
    (l.foldl (pullChild t cData) data m).getD {} = summed t cData m ((data m).getD {}) l := by
  induction l generalizing data with
  | nil => simp [summed]
  | cons e rest ih =>
    rw [foldl_cons, ih, pullChild_getD]
    cases call : isCall (t.relation e) <;> cases loop : t.isLoop e <;> simp [summed, pull, call, loop, add_assoc]

omit [DecidableEq Ctx] in
lemma foldl_pullChild_isSome (data : Metric → Option (MetricAccumulator R)) (l : List Ctx) :
    (l.foldl (pullChild t cData) data m).isSome ↔ (data m).isSome ∨ ∃ e ∈ l, (cData e m).isSome := by
  induction l generalizing data with
  | nil => simp
  | cons e rest ih =>
    rw [foldl_cons, ih, pullChild_isSome]
    simp [or_assoc]

variable {raw : RawData Ctx Metric R}

/-- The accumulator that propagation leaves at a context; only one that was there before is marked as a loop's. -/
noncomputable def finalAccum (raw : RawData Ctx Metric R) (t : Contexts Ctx) (m : Metric) (c : Ctx) :
    MetricAccumulator R where
  isLoop := t.isLoop c && (raw.points c m).isSome
  point := raw.point m c
  function := raw.functionSum t m c
  functionNoloops := raw.noloopsSum t m c
  execution := raw.executionSum t m c

/-- A metric has a value at or below a context. -/
def HasBelow (raw : RawData Ctx Metric R) (t : Contexts Ctx) (m : Metric) (c : Ctx) : Prop :=
  ∃ d, t.Below c d ∧ (raw.points d m).isSome

/-- Data as propagation leaves it: an accumulator where a metric has a value at or below the context. -/
structure IsFinal (raw : RawData Ctx Metric R) (t : Contexts Ctx) (c : Ctx)
    (data : Metric → Option (MetricAccumulator R)) : Prop where
  getD : ∀ m, (data m).getD {} = finalAccum raw t m c
  isSome : ∀ m, (data m).isSome ↔ HasBelow raw t m c

variable {ok : Ctx → Prop}

lemma RawData.scopeSum_eq_zero (none : ¬HasBelow raw t m c) : raw.scopeSum t ok m c = 0 := by
  apply ParentTree.reachSum_eq_zero
  intro d _ below
  have absent : raw.points d m = Option.none := by
    by_contra present
    exact none ⟨d, below, Option.isSome_iff_ne_none.mpr present⟩
  rw [RawData.point, absent, getD_none]

lemma isFinal_of_untouched (none : ∀ m, ¬HasBelow raw t m c) : IsFinal raw t c (raw.cData c) := by
  have absent (m : Metric) : raw.points c m = Option.none := by
    by_contra present
    exact none m ⟨c, .self, Option.isSome_iff_ne_none.mpr present⟩
  constructor
  · intro m
    rw [RawData.cData, absent, Option.map_none, getD_none, finalAccum, RawData.functionSum, RawData.noloopsSum,
      RawData.executionSum, RawData.scopeSum_eq_zero (none m), RawData.scopeSum_eq_zero (none m),
      RawData.scopeSum_eq_zero (none m), RawData.point, absent, Option.isSome_none, Bool.and_false]
    rfl
  · intro m
    rw [RawData.cData, absent]
    simp [none m]

variable {l : List Ctx}

lemma RawData.scopeSum_children [DecidablePred ok] (nodup : l.Nodup)
    (mem : ∀ e, e ∈ l ↔ t.parent e = some c ∧ ∃ d ∈ raw.contexts, t.Below e d) :
    raw.scopeSum t ok m c = raw.point m c + (l.map fun e => if ok e then raw.scopeSum t ok m e else 0).sum := by
  have outside : c ∉ raw.contexts.toFinset → raw.point m c = 0 := by
    intro absent
    cases value : raw.points c m with
    | none => rw [RawData.point, value, getD_none]
    | some v => exact absurd (mem_toFinset.mpr (raw.inside value)) absent
  have mem' : ∀ e, e ∈ l.toFinset ↔ t.parent e = some c ∧ ∃ d ∈ raw.contexts.toFinset, t.Below e d := by
    simpa using mem
  rw [RawData.scopeSum, ParentTree.reachSum_eq outside mem', sum_toFinset _ nodup]
  congr 2
  apply map_congr_left
  intro e _
  split_ifs <;> rfl

lemma propagate_isFinal (own : cData c = raw.cData c) (nodup : l.Nodup)
    (mem : ∀ e, e ∈ l ↔ t.parent e = some c ∧ ∃ d ∈ raw.contexts, t.Below e d)
    (final : ∀ e ∈ l, IsFinal raw t e (cData e)) : IsFinal raw t c (propagate t cData c l) := by
  constructor
  · intro m
    have ownAccum : (propagateOwn t c (cData c) m).getD {} =
        { isLoop := t.isLoop c && (raw.points c m).isSome, point := raw.point m c, function := raw.point m c,
          functionNoloops := raw.point m c, execution := raw.point m c } := by
      rw [propagateOwn, own, RawData.cData, RawData.point]
      cases raw.points c m <;> simp
    have function : (l.map fun e => if isCall (t.relation e) = false then ((cData e m).getD {}).function else 0) =
        l.map fun e => if isCall (t.relation e) = false then raw.functionSum t m e else 0 :=
      map_congr_left fun e member => by rw [(final e member).getD m]; rfl
    have noloops : (l.map fun e => if isCall (t.relation e) = false ∧ t.isLoop e = false
        then ((cData e m).getD {}).functionNoloops else 0) =
        l.map fun e => if isCall (t.relation e) = false ∧ t.isLoop e = false then raw.noloopsSum t m e else 0 :=
      map_congr_left fun e member => by rw [(final e member).getD m]; rfl
    have execution : (l.map fun e => ((cData e m).getD {}).execution) =
        l.map fun e => if True then raw.executionSum t m e else 0 :=
      map_congr_left fun e member => by rw [(final e member).getD m, if_pos trivial]; rfl
    rw [propagate, foldl_pullChild_getD, ownAccum, summed, function, noloops, execution, finalAccum,
      RawData.functionSum, RawData.noloopsSum, RawData.executionSum, RawData.scopeSum_children nodup mem,
      RawData.scopeSum_children nodup mem, RawData.scopeSum_children nodup mem]
  · intro m
    have ownSome : (propagateOwn t c (cData c) m).isSome ↔ (raw.points c m).isSome := by
      rw [propagateOwn, own, RawData.cData]
      cases raw.points c m <;> simp
    rw [propagate, foldl_pullChild_isSome, ownSome]
    constructor
    · rintro (present | ⟨e, member, present⟩)
      · exact ⟨c, .self, present⟩
      · obtain ⟨d, below, present⟩ := ((final e member).isSome m).mp present
        exact ⟨d, (ParentTree.Reaches.step ((mem e).mp member).1 trivial .self).trans below, present⟩
    · rintro ⟨d, below, present⟩
      rcases ParentTree.reaches_iff.mp below with rfl | ⟨e, parent, -, below⟩
      · exact .inl present
      · obtain ⟨v, value⟩ := Option.isSome_iff_exists.mp present
        have member := (mem e).mpr ⟨parent, d, raw.inside value, below⟩
        exact .inr ⟨e, member, ((final e member).isSome m).mpr ⟨d, below, present⟩⟩

end

/-! ## The whole traversal -/

section
variable {t : Contexts Ctx} {children : Children Ctx} {ord : IterationOrder Ctx} {raw : RawData Ctx Metric R} {c : Ctx}

/-- Rounds of the traversal lead from one state to the other. -/
def Evolves (t : Contexts Ctx) (children : Children Ctx) (ord : IterationOrder Ctx) (s s' : Traversal Ctx Metric R) :
    Prop := ∃ n, (step t children ord)^[n] s = s'

lemma Evolves.trans {s s' s'' : Traversal Ctx Metric R} (first : Evolves t children ord s s')
    (second : Evolves t children ord s' s'') : Evolves t children ord s s'' := by
  obtain ⟨n, rfl⟩ := first
  obtain ⟨n', rfl⟩ := second
  exact ⟨n' + n, iterate_add_apply _ n' n s⟩

lemma Evolves.single (s : Traversal Ctx Metric R) : Evolves t children ord s (step t children ord s) := ⟨1, rfl⟩

lemma runTraversal_done (fuel : ℕ) (data : CData Ctx Metric R) :
    runTraversal t children ord fuel ⟨data, []⟩ = some data := by
  cases fuel <;> rfl

lemma runTraversal_iterate (n fuel : ℕ) (s : Traversal Ctx Metric R) :
    runTraversal t children ord (n + fuel) s = runTraversal t children ord fuel ((step t children ord)^[n] s) := by
  induction n generalizing s with
  | zero => rw [Nat.zero_add, iterate_zero_apply]
  | succ n ih =>
    rw [iterate_succ_apply, ← ih, Nat.succ_add]
    obtain ⟨data, stack⟩ := s
    cases stack with
    | nil =>
      have still : step t children ord ⟨data, []⟩ = ⟨data, []⟩ := rfl
      rw [still, runTraversal_done, runTraversal_done]
    | cons top rest => rfl

/-- From the frame of a context on, the traversal makes everything at or below the context final, leaves the rest
alone and returns to the frames below it. -/
def Handles (t : Contexts Ctx) (children : Children Ctx) (ord : IterationOrder Ctx) (raw : RawData Ctx Metric R)
    (c : Ctx) : Prop :=
  ∀ (rest : List (Frame Ctx)) (data : CData Ctx Metric R), (∀ d, t.Below c d → data d = raw.cData d) →
    ∃ data', Evolves t children ord ⟨data, newFrame children ord c :: rest⟩ ⟨data', noteChild c rest⟩ ∧
      (∀ d, t.Below c d → IsFinal raw t d (data' d)) ∧ ∀ d, ¬t.Below c d → data' d = data d

lemma handles_pending {pending : List Ctx} (handled : ∀ e ∈ pending, Handles t children ord raw e)
    (nodup : pending.Nodup) (child : ∀ e ∈ pending, t.parent e = some c) (submds : List Ctx) (rest : List (Frame Ctx))
    (data : CData Ctx Metric R) (fresh : ∀ e ∈ pending, ∀ d, t.Below e d → data d = raw.cData d) :
    ∃ data', Evolves t children ord ⟨data, ⟨c, pending, submds⟩ :: rest⟩ ⟨data', ⟨c, [], submds ++ pending⟩ :: rest⟩ ∧
      (∀ e ∈ pending, ∀ d, t.Below e d → IsFinal raw t d (data' d)) ∧
      ∀ d, (∀ e ∈ pending, ¬t.Below e d) → data' d = data d := by
  induction pending generalizing submds data with
  | nil => exact ⟨data, ⟨0, by rw [append_nil]; rfl⟩, by simp, fun _ _ => rfl⟩
  | cons e pending ih =>
    obtain ⟨data₁, first, final₁, same₁⟩ := handled e (.head _) (⟨c, pending, submds⟩ :: rest) data (fresh e (.head _))
    have apart : ∀ e' ∈ pending, ∀ d, t.Below e' d → ¬t.Below e d := by
      intro e' member d below below'
      have same := ParentTree.child_unique (child e (.head _)) (child e' (.tail _ member)) below' below
      exact (nodup_cons.mp nodup).1 (same ▸ member)
    have fresh₁ : ∀ e' ∈ pending, ∀ d, t.Below e' d → data₁ d = raw.cData d := by
      intro e' member d below
      rw [same₁ d (apart e' member d below)]
      exact fresh e' (.tail _ member) d below
    obtain ⟨data₂, second, final₂, same₂⟩ := ih (fun e' member => handled e' (.tail _ member))
      (nodup_cons.mp nodup).2 (fun e' member => child e' (.tail _ member)) (submds ++ [e]) data₁ fresh₁
    refine ⟨data₂, ?_, ?_, ?_⟩
    · have push : Evolves t children ord ⟨data, ⟨c, e :: pending, submds⟩ :: rest⟩
          ⟨data, newFrame children ord e :: ⟨c, pending, submds⟩ :: rest⟩ := .single _
      rw [append_assoc] at second
      exact (push.trans first).trans second
    · intro e' member d below
      rcases mem_cons.mp member with rfl | member
      · rw [same₂ d fun e'' member'' below'' => apart e'' member'' d below'' below]
        exact final₁ d below
      · exact final₂ e' member d below
    · intro d outside
      rw [same₂ d fun e' member => outside e' (.tail _ member), same₁ d (outside e (.head _))]

variable {global : Option Ctx}

lemma handles_of_children (covered : Covered t raw.contexts children global)
    (handled : ∀ e ∈ children.of c, Handles t children ord raw e) : Handles t children ord raw c := by
  intro rest data fresh
  obtain ⟨pending, frame, perm⟩ : ∃ pending, newFrame children ord c = ⟨c, pending, []⟩ ∧
      pending.Perm (children.of c) := by
    cases entry : children c with
    | none => exact ⟨[], by rw [newFrame, entry], by rw [Children.of, entry, getD_none]⟩
    | some l => exact ⟨ord.order c l, by rw [newFrame, entry], by rw [Children.of, entry]; exact ord.perm c l⟩
  have nodup : pending.Nodup := perm.nodup_iff.mpr (covered.kept.nodup c)
  have mem : ∀ e, e ∈ pending ↔ t.parent e = some c ∧ ∃ d ∈ raw.contexts, t.Below e d := by
    intro e
    rw [perm.mem_iff, covered.mem]
  have down {e d : Ctx} (parent : t.parent e = some c) (below : t.Below e d) : t.Below c d :=
    (ParentTree.Reaches.step parent trivial .self).trans below
  obtain ⟨data₁, evolves, final₁, same₁⟩ := handles_pending (c := c)
    (fun e member => handled e (perm.mem_iff.mp member)) nodup (fun e member => ((mem e).mp member).1) [] rest data
    (fun e member d below => fresh d (down ((mem e).mp member).1 below))
  have own : data₁ c = raw.cData c := by
    rw [same₁ c fun e member => ParentTree.not_below_child ((mem e).mp member).1]
    exact fresh c .self
  have final : IsFinal raw t c (propagate t data₁ c pending) :=
    propagate_isFinal own nodup mem fun e member => final₁ e member e .self
  refine ⟨update data₁ c (propagate t data₁ c pending), ?_, ?_, ?_⟩
  · rw [frame]
    exact evolves.trans (.single _)
  · intro d below
    by_cases same : d = c
    · rw [same, update_self]
      exact final
    · rw [update_of_ne same]
      obtain ⟨e, parent, -, lower⟩ := (ParentTree.reaches_iff.mp below).resolve_left same
      by_cases leads : ∃ d ∈ raw.contexts, t.Below e d
      · exact final₁ e ((mem e).mpr ⟨parent, leads⟩) d lower
      · have outside : ∀ e' ∈ pending, ¬t.Below e' d := by
          intro e' member lower'
          have same := ParentTree.child_unique parent ((mem e').mp member).1 lower lower'
          exact leads (same ▸ ((mem e').mp member).2)
        rw [same₁ d outside, fresh d below]
        apply isFinal_of_untouched
        rintro m ⟨d', below', present⟩
        obtain ⟨v, value⟩ := Option.isSome_iff_exists.mp present
        exact leads ⟨d', raw.inside value, lower.trans below'⟩
  · intro d outside
    have other : d ≠ c := by
      rintro rfl
      exact outside .self
    rw [update_of_ne other, same₁ d fun e member below => outside (down ((mem e).mp member).1 below)]

lemma handles (covered : Covered t raw.contexts children global) {bound : ℕ}
    (deepest : ∀ d ∈ raw.contexts, t.depth d ≤ bound) (n : ℕ) :
    ∀ c, bound < t.depth c + n → Handles t children ord raw c := by
  induction n with
  | zero =>
    intro c deep
    apply handles_of_children covered
    intro e member
    obtain ⟨parent, d, inside, below⟩ := covered.mem.mp member
    have depth := t.depth_parent parent
    have le := below.depth_le
    have bounded := deepest d inside
    omega
  | succ n ih =>
    intro c deep
    apply handles_of_children covered
    intro e member
    have depth := t.depth_parent (covered.mem.mp member).1
    exact ih e (by omega)

lemma finalize_isFinal (t : Contexts Ctx) (ord : IterationOrder Ctx) (raw : RawData Ctx Metric R) :
    ∃ n data, (∀ fuel, n ≤ fuel → finalize t ord raw.contexts raw.cData fuel = some data) ∧
      ∀ c, IsFinal raw t c (data c) := by
  have covered := criticalSubtree_covered (t := t) raw.contexts
  cases found : (criticalSubtree t raw.contexts).2 with
  | none =>
    obtain ⟨empty, -⟩ := covered.empty found
    refine ⟨0, raw.cData, fun fuel _ => ?_, fun c => isFinal_of_untouched ?_⟩
    · rw [finalize, ← Prod.mk.eta (p := criticalSubtree t raw.contexts), found]
    · rintro m ⟨d, below, present⟩
      obtain ⟨v, value⟩ := Option.isSome_iff_exists.mp present
      have inside := raw.inside value
      rw [empty] at inside
      cases inside
  | some global =>
    have everywhere (d : Ctx) : t.Below global d := by
      obtain ⟨r, root, below⟩ := t.exists_root d
      rwa [← t.oneRoot root (covered.root global found)]
    obtain ⟨bound, deepest⟩ : ∃ bound, ∀ d ∈ raw.contexts, t.depth d ≤ bound :=
      ⟨(raw.contexts.map t.depth).sum, fun d member => le_sum_of_mem (mem_map_of_mem member)⟩
    obtain ⟨data, ⟨n, evolves⟩, final, -⟩ := handles covered deepest (bound + 1) global (by omega) [] raw.cData
      (fun _ _ => rfl)
    refine ⟨n, data, fun fuel enough => ?_, fun c => final c (everywhere c)⟩
    obtain ⟨more, rfl⟩ := Nat.exists_eq_add_of_le enough
    rw [finalize, ← Prod.mk.eta (p := criticalSubtree t raw.contexts), found]
    show runTraversal t _ ord (n + more) _ = some data
    rw [runTraversal_iterate, evolves]
    exact runTraversal_done more data

/-! ## The reported values -/

/-- The value that is reported for a metric at a context; none stands for zero. -/
def reported [DecidableEq R] (data : CData Ctx Metric R) (c : Ctx) (m : Metric) (scope : MetricScope) : R :=
  ((data c m).bind fun a => a.get scope).getD 0

lemma opt0_getD [DecidableEq R] (d : R) : (opt0 d).getD 0 = d := by
  rw [opt0]
  split
  · rename_i zero
    rw [zero, getD_none]
  · rfl

omit [DecidableEq Ctx] in
lemma reported_eq [DecidableEq R] (data : CData Ctx Metric R) (c : Ctx) (m : Metric) (scope : MetricScope) :
    reported data c m scope = (((data c m).getD {}).get scope).getD 0 := by
  rw [reported]
  cases data c m with
  | none => cases scope <;> simp [MetricAccumulator.get, opt0]
  | some a => rfl

lemma IsFinal.reported_lexAware [DecidableEq R] {data : CData Ctx Metric R} (final : IsFinal raw t c (data c))
    (m : Metric) : reported data c m .lexAware =
      if t.isLoop c && (raw.points c m).isSome then raw.noloopsSum t m c else raw.functionSum t m c := by
  rw [reported_eq, final.getD m, MetricAccumulator.get, opt0_getD]
  rfl

/-- The values of a thread are those that `MetricScope` prescribes. -/
structure Prescribed [DecidableEq R] (raw : RawData Ctx Metric R) (t : Contexts Ctx) (data : CData Ctx Metric R) :
    Prop where
  execution : ∀ c m, reported data c m .execution = raw.executionSum t m c
  function : ∀ c m, reported data c m .function = raw.functionSum t m c
  lexAware : ∀ c m, reported data c m .lexAware = raw.lexAwareSum t m c

/-- Propagation computes the values that `MetricScope` prescribes exactly when each loop has an accumulator of its own
for a metric or spends nothing of it in loops below it in the same function. -/
theorem finalize_prescribed_iff [DecidableEq R] (t : Contexts Ctx) (ord : IterationOrder Ctx)
    (raw : RawData Ctx Metric R) :
    (∃ n data, (∀ fuel, n ≤ fuel → finalize t ord raw.contexts raw.cData fuel = some data) ∧ Prescribed raw t data) ↔
      ∀ c m, t.isLoop c → (raw.points c m).isSome ∨ raw.functionSum t m c = raw.noloopsSum t m c := by
  obtain ⟨n, data, ends, final⟩ := finalize_isFinal t ord raw
  constructor
  · rintro ⟨n', data', ends', prescribed⟩ c m loop
    obtain rfl : data = data' :=
      Option.some.inj ((ends (n + n') (by omega)).symm.trans (ends' (n + n') (by omega)))
    have value := prescribed.lexAware c m
    rw [(final c).reported_lexAware, RawData.lexAwareSum, if_pos loop] at value
    by_cases present : (raw.points c m).isSome
    · exact .inl present
    · rw [loop, Bool.true_and, if_neg present] at value
      exact .inr value
  · intro condition
    refine ⟨n, data, ends, ?_, ?_, ?_⟩
    · intro c m
      rw [reported_eq, (final c).getD m, MetricAccumulator.get, opt0_getD]
      rfl
    · intro c m
      rw [reported_eq, (final c).getD m, MetricAccumulator.get, opt0_getD]
      rfl
    · intro c m
      rw [(final c).reported_lexAware, RawData.lexAwareSum]
      cases loop : t.isLoop c with
      | false => rw [Bool.false_and]
      | true =>
        rcases condition c m loop with present | same
        · rw [present, Bool.true_and]
        · rw [same, ite_self, if_pos rfl]

/-- A root with a loop in a loop below it. -/
def nestedLoops : Contexts (Fin 3) where
  parent := ![none, some 0, some 1]
  depth := ![0, 1, 2]
  depth_parent := by decide
  relation := ![.global, .enclosure, .enclosure]
  type := ![.global, .lexicalLoop, .lexicalLoop]
  oneRoot := by decide

/-- Five units of a metric in the inner loop. -/
def innerLoopOnly : RawData (Fin 3) Unit ℤ where
  contexts := [2]
  points := fun c _ => if c = 2 then some 5 else none
  inside := by
    intro c m v found
    split at found
    · rename_i same
      rw [same]
      exact .head _
    · cases found

def insertionOrder : IterationOrder (Fin 3) := ⟨fun _ l => l, fun _ _ => .refl _⟩

/-- The outer loop reports the cost of the inner one as its own. -/
theorem loop_without_own_data_reports_inner_loop :
    ¬∃ n data, (∀ fuel, n ≤ fuel →
      finalize nestedLoops insertionOrder innerLoopOnly.contexts innerLoopOnly.cData fuel = some data) ∧
      Prescribed innerLoopOnly nestedLoops data := by
  rintro ⟨n', data', ends', prescribed⟩
  obtain ⟨n, data, ends, final⟩ := finalize_isFinal nestedLoops insertionOrder innerLoopOnly
  obtain rfl : data = data' :=
    Option.some.inj ((ends (n + n') (by omega)).symm.trans (ends' (n + n') (by omega)))
  have value := prescribed.lexAware 1 ()
  rw [(final 1).reported_lexAware, RawData.lexAwareSum, if_neg (by decide), if_pos (by decide)] at value
  have function : innerLoopOnly.functionSum nestedLoops () 1 = 5 := by
    have reaches : nestedLoops.Reaches (fun e => isCall (nestedLoops.relation e) = false) 1 2 :=
      .step rfl rfl .self
    simp [RawData.functionSum, RawData.scopeSum, ParentTree.reachSum, innerLoopOnly, RawData.point, reaches]
  have noloops : innerLoopOnly.noloopsSum nestedLoops () 1 = 0 := by
    have stops : ¬nestedLoops.Reaches
        (fun e => isCall (nestedLoops.relation e) = false ∧ nestedLoops.isLoop e = false) 1 2 := by
      intro reaches
      cases reaches with
      | step parent pass above => exact absurd pass.2 (by decide)
    simp [RawData.noloopsSum, RawData.scopeSum, ParentTree.reachSum, innerLoopOnly, stops]
  rw [function, noloops] at value
  cases value

end

end HpcToolkit.Prof
