import HpcToolkit.FlowGraph.Template

/-! # Exterior factors

The value of a flow graph is shared among the reconstructions of a group in proportion to the calls of the entries.
The metric of the calls is found while the totals are summed up: a metric that is not logical replaces a logical one,
but what has been added to the totals before stays there. Values are exact and nonnegative; where a total is zero the
quotient is zero here and not a number in the code.
-/

open List

namespace HpcToolkit.FlowGraph

variable {Scope Metric Sibling Recon Context : Type} [LinearOrder Scope] [DecidableEq Metric]

/-- A reconstruction group: the reconstructions of the graph and their entry contexts, both in the order of the hash
containers, and the values of the contexts. -/
structure ReconstructionGroup (g : ContextFlowGraph Scope Metric Sibling) (Recon Context : Type) where
  reconsts : List Recon
  entries : Recon → List (Scope × Context)
  cData : Context → Option (MetricValues Metric)
  reconsts_nodup : reconsts.Nodup
  entries_perm : ∀ r, ((entries r).map Prod.fst).Perm g.entries

/-- The state of the search for the denominators. -/
structure Denominators (Scope Metric : Type) where
  queried : List Metric
  metricExterior : Option Metric
  exteriorIsAlsoLogical : Bool
  entryTotals : Scope → Option ℚ

namespace Denominators

def initial : Denominators Scope Metric :=
  ⟨[], none, false, fun _ => none⟩

/-- Each metric is asked about once. -/
def query (handler : Handler Metric) (d : Denominators Scope Metric) (m : Metric) :
    Except Failure (Denominators Scope Metric) :=
  if m ∈ d.queried then .ok d
  else if (handler.handling m).exterior then
    if d.metricExterior.isSome ∧ d.exteriorIsAlsoLogical = (handler.handling m).exteriorLogical then .error .fatal
    else if d.metricExterior.isNone ∨ d.exteriorIsAlsoLogical then
      .ok { d with
        queried := m :: d.queried
        metricExterior := some m
        exteriorIsAlsoLogical := (handler.handling m).exteriorLogical }
    else .ok { d with queried := m :: d.queried }
  else .ok { d with queried := m :: d.queried }

def addTotal (entry : Scope) (mvs : MetricValues Metric) (d : Denominators Scope Metric) : Denominators Scope Metric :=
  match d.metricExterior.bind mvs.find with
  | none => d
  | some v => { d with
      entryTotals := Function.update d.entryTotals entry (some ((d.entryTotals entry).elim v (· + v))) }

/-- The first loop at one entry context. -/
def visit (handler : Handler Metric) (cData : Context → Option (MetricValues Metric))
    (d : Denominators Scope Metric) (entry : Scope × Context) : Except Failure (Denominators Scope Metric) :=
  match cData entry.2 with
  | none => .ok d
  | some mvs => (addTotal entry.1 mvs) <$> mvs.metrics.foldlM (query handler) d

end Denominators

section Model

variable {g : ContextFlowGraph Scope Metric Sibling}

def ReconstructionGroup.visits (o : ReconstructionGroup g Recon Context) : List (Scope × Context) :=
  o.reconsts.flatMap o.entries

/-- The second loop at one reconstruction and template: the value of the entry and its total. -/
def shareOf (o : ReconstructionGroup g Recon Context) (m : Metric) (entryTotals : Scope → Option ℚ) (r : Recon)
    (t : Template Scope) : Except Failure (Option (ℚ × ℚ)) :=
  match atKey (o.entries r) t.entry with
  | none => .error .lookup
  | some c => match (o.cData c).bind (·.find m) with
    | none => .ok none
    | some v => match entryTotals t.entry with
      | none => .error .lookup
      | some total => .ok (some (v, total))

def factorOf (share : Option (ℚ × ℚ)) : ℚ :=
  share.elim 0 fun vt => vt.1 / vt.2

structure ExteriorFactors (Recon : Type) where
  factors : List (Recon × List ℚ)
  hasEC : List Bool

/-- Factors for the reconstructions with some share, and whether a template has entry calls at all. -/
def ExteriorFactors.ofRows (count : ℕ) (rows : List (Recon × List (Option (ℚ × ℚ)))) : ExteriorFactors Recon where
  factors := (rows.filter fun row => row.2.any Option.isSome).map fun row => (row.1, row.2.map factorOf)
  hasEC := (range count).map fun idx => rows.any fun row => (row.2[idx]?.join).any fun vt => vt.1 ≠ 0

def exteriorFactors (o : ReconstructionGroup g Recon Context) : Except Failure (ExteriorFactors Recon) := do
  let d ← o.visits.foldlM (Denominators.visit g.handler o.cData) Denominators.initial
  match d.metricExterior with
  | none => .error .fatal
  | some m =>
    let rows ← o.reconsts.mapM fun r => (r, ·) <$> g.templates.mapM (shareOf o m d.entryTotals r)
    return ExteriorFactors.ofRows g.templates.length rows

end Model

/-! ## The metric of the calls -/

/-- The metric for exterior factors among those seen: one that is not logical if there is any. -/
def Chosen (handler : Handler Metric) (seen : List Metric) (m : Metric) : Prop :=
  m ∈ seen ∧ (handler.handling m).exterior ∧
    ((handler.handling m).exteriorLogical → ∀ n ∈ seen, (handler.handling n).exterior →
      (handler.handling n).exteriorLogical)

variable {handler : Handler Metric} {seen : List Metric} {m n : Metric}

omit [DecidableEq Metric] in
lemma Chosen.unique (left : Chosen handler seen m) (right : Chosen handler seen n) : m = n := by
  obtain ⟨leftSeen, leftExterior, leftLogical⟩ := left
  obtain ⟨rightSeen, rightExterior, rightLogical⟩ := right
  apply handler.exterior_unique m n leftExterior rightExterior
  rw [Bool.eq_iff_iff]
  exact ⟨fun logical => leftLogical logical n rightSeen rightExterior,
    fun logical => rightLogical logical m leftSeen leftExterior⟩

omit [DecidableEq Metric] in
lemma Chosen.restrict {fewer : List Metric} (chosen : Chosen handler seen m) (within : fewer ⊆ seen)
    (member : m ∈ fewer) : Chosen handler fewer m :=
  ⟨member, chosen.2.1, fun logical n known => chosen.2.2 logical n (within known)⟩

namespace Denominators

variable {d d' : Denominators Scope Metric}

structure Knows (handler : Handler Metric) (d : Denominators Scope Metric) : Prop where
  nothing : d.metricExterior = none → ∀ n ∈ d.queried, ¬ (handler.handling n).exterior
  chosen : ∀ m, d.metricExterior = some m → Chosen handler d.queried m
  logical : ∀ m, d.metricExterior = some m → d.exteriorIsAlsoLogical = (handler.handling m).exteriorLogical

omit [LinearOrder Scope] [DecidableEq Metric] in
lemma Knows.of_some (current : d.metricExterior = some m) (chosen : Chosen handler d.queried m)
    (logical : d.exteriorIsAlsoLogical = (handler.handling m).exteriorLogical) : d.Knows handler := by
  refine ⟨fun absent => ?_, fun n same => ?_, fun n same => ?_⟩
  · cases current.symm.trans absent
  · exact Option.some.inj (current.symm.trans same) ▸ chosen
  · exact Option.some.inj (current.symm.trans same) ▸ logical

omit [LinearOrder Scope] in
lemma query_spec (known : d.Knows handler) (m : Metric) : ∃ d', query handler d m = .ok d' ∧ d'.Knows handler ∧
    d'.entryTotals = d.entryTotals ∧ ∀ n, n ∈ d'.queried ↔ n ∈ d.queried ∨ n = m := by
  unfold query
  by_cases asked : m ∈ d.queried
  · rw [if_pos asked]
    exact ⟨d, rfl, known, rfl, fun n => ⟨Or.inl, fun either => either.elim id fun same => same ▸ asked⟩⟩
  rw [if_neg asked]
  have members : ∀ n, n ∈ m :: d.queried ↔ n ∈ d.queried ∨ n = m := fun n => mem_cons.trans or_comm
  by_cases exterior : (handler.handling m).exterior
  · rw [if_pos exterior]
    cases current : d.metricExterior with
    | none =>
      have others := known.nothing current
      rw [if_neg (by simp), if_pos (by simp)]
      refine ⟨_, rfl, Knows.of_some rfl ?_ rfl, rfl, members⟩
      refine ⟨mem_cons_self, exterior, fun logical n member kind => ?_⟩
      rcases mem_cons.mp member with rfl | old
      · exact logical
      · exact absurd kind (others n old)
    | some k =>
      have chosen := known.chosen k current
      have logical := known.logical k current
      have differs : (handler.handling k).exteriorLogical ≠ (handler.handling m).exteriorLogical := by
        intro same
        exact asked (handler.exterior_unique k m chosen.2.1 exterior same ▸ chosen.1)
      rw [if_neg (by rintro ⟨-, same⟩; exact differs (logical ▸ same))]
      by_cases replaced : d.exteriorIsAlsoLogical
      · have physical : ¬ (handler.handling m).exteriorLogical := by
          intro both
          rw [← logical, replaced, both] at differs
          exact differs rfl
        rw [if_pos (Or.inr replaced)]
        refine ⟨_, rfl, Knows.of_some rfl ?_ rfl, rfl, members⟩
        exact ⟨mem_cons_self, exterior, fun both => absurd both physical⟩
      · rw [if_neg (by simp [replaced])]
        refine ⟨_, rfl, Knows.of_some rfl ?_ logical, rfl, members⟩
        exact ⟨mem_cons_of_mem _ chosen.1, chosen.2.1, fun both => absurd (logical ▸ both) replaced⟩
  · rw [if_neg exterior]
    refine ⟨_, rfl, ⟨?_, ?_, known.logical⟩, rfl, members⟩
    · intro absent n member
      rcases mem_cons.mp member with rfl | old
      · exact exterior
      · exact known.nothing absent n old
    · intro n same
      obtain ⟨member, kind, preferred⟩ := known.chosen n same
      refine ⟨mem_cons_of_mem _ member, kind, fun logical k asked kExterior => ?_⟩
      rcases mem_cons.mp asked with rfl | old
      · exact absurd kExterior exterior
      · exact preferred logical k old kExterior

omit [LinearOrder Scope] in
lemma queries_spec (ms : List Metric) : ∀ d : Denominators Scope Metric, d.Knows handler →
    ∃ d', ms.foldlM (query handler) d = .ok d' ∧ d'.Knows handler ∧ d'.entryTotals = d.entryTotals ∧
      ∀ n, n ∈ d'.queried ↔ n ∈ d.queried ∨ n ∈ ms := by
  induction ms with
  | nil => exact fun d known => ⟨d, rfl, known, rfl, by simp⟩
  | cons m ms ih =>
    intro d known
    obtain ⟨middle, asked, known, keeps, members⟩ := query_spec known m
    obtain ⟨d', run, known', keeps', members'⟩ := ih middle known
    refine ⟨d', ?_, known', keeps'.trans keeps, fun n => ?_⟩
    · rw [foldlM_cons, asked]
      exact run
    · rw [members', members, mem_cons, or_assoc]

end Denominators

/-! ## The totals -/

section Totals

variable (cData : Context → Option (MetricValues Metric))

def metricsAt (c : Context) : List Metric :=
  (cData c).elim [] MetricValues.metrics

def pointAt (c : Context) (m : Metric) : ℚ :=
  (cData c).elim 0 (·.point m)

/-- The value of the entry in all these contexts. -/
def entryTotal (visits : List (Scope × Context)) (m : Metric) (s : Scope) : ℚ :=
  (visits.map fun v => if v.1 = s then pointAt cData v.2 m else 0).sum

/-- Where the metric of the calls is absent another exterior metric is zero. -/
def Clean (handler : Handler Metric) (m : Metric) (c : Context) : Prop :=
  m ∉ metricsAt cData c → ∀ n, (handler.handling n).exterior → pointAt cData c n = 0

variable {cData} {c : Context}

lemma pointAt_nonneg (c : Context) (m : Metric) : 0 ≤ pointAt cData c m := by
  rw [pointAt]
  cases cData c with
  | none => exact le_rfl
  | some mvs => exact mvs.point_nonneg m

lemma pointAt_eq_zero (absent : m ∉ metricsAt cData c) : pointAt cData c m = 0 := by
  rw [metricsAt] at absent
  rw [pointAt]
  cases data : cData c with
  | none => rfl
  | some mvs => exact MetricValues.point_eq_zero (by simpa [data] using absent)

namespace Denominators

variable {d d' : Denominators Scope Metric}

@[simp] lemma addTotal_queried (entry : Scope) (mvs : MetricValues Metric) :
    (d.addTotal entry mvs).queried = d.queried := by
  unfold addTotal
  split <;> rfl

@[simp] lemma addTotal_metricExterior (entry : Scope) (mvs : MetricValues Metric) :
    (d.addTotal entry mvs).metricExterior = d.metricExterior := by
  unfold addTotal
  split <;> rfl

@[simp] lemma addTotal_exteriorIsAlsoLogical (entry : Scope) (mvs : MetricValues Metric) :
    (d.addTotal entry mvs).exteriorIsAlsoLogical = d.exteriorIsAlsoLogical := by
  unfold addTotal
  split <;> rfl

lemma Knows.addTotal (known : d.Knows handler) (entry : Scope) (mvs : MetricValues Metric) :
    (d.addTotal entry mvs).Knows handler :=
  ⟨by simpa using known.nothing, by simpa using known.chosen, by simpa using known.logical⟩

lemma addTotal_entryTotals (d : Denominators Scope Metric) (entry s : Scope) (mvs : MetricValues Metric) :
    ((d.addTotal entry mvs).entryTotals s).getD 0 =
      (d.entryTotals s).getD 0 + if entry = s then d.metricExterior.elim 0 mvs.point else 0 := by
  unfold addTotal
  cases current : d.metricExterior with
  | none => simp
  | some m =>
    cases found : mvs.find m with
    | none => simp [found, MetricValues.point]
    | some v =>
      rcases eq_or_ne entry s with rfl | other
      · cases d.entryTotals entry <;> simp [found, MetricValues.point]
      · simp [found, other, Function.update_of_ne other.symm]

lemma addTotal_isSome {s : Scope} {entry : Scope} {mvs : MetricValues Metric}
    (either : (d.entryTotals s).isSome ∨ entry = s ∧ ∃ m ∈ mvs.metrics, d.metricExterior = some m) :
    ((d.addTotal entry mvs).entryTotals s).isSome := by
  unfold addTotal
  rcases either with already | ⟨rfl, m, member, current⟩
  · cases d.metricExterior.bind mvs.find with
    | none => exact already
    | some v => rcases eq_or_ne s entry with rfl | other <;> simp_all
  · obtain ⟨v, found⟩ := Option.isSome_iff_exists.mp (MetricValues.find_isSome_iff.mpr member)
    simp [current, found]

lemma visit_spec (cData : Context → Option (MetricValues Metric)) (known : d.Knows handler)
    (entry : Scope × Context) :
    ∃ d', visit handler cData d entry = .ok d' ∧ d'.Knows handler ∧
      (∀ n, n ∈ d'.queried ↔ n ∈ d.queried ∨ n ∈ metricsAt cData entry.2) ∧
      (∀ s, (d'.entryTotals s).getD 0 = (d.entryTotals s).getD 0 +
        if entry.1 = s then d'.metricExterior.elim 0 (pointAt cData entry.2) else 0) ∧
      ∀ s, ((d.entryTotals s).isSome ∨ entry.1 = s ∧ ∃ m ∈ metricsAt cData entry.2, d'.metricExterior = some m) →
        (d'.entryTotals s).isSome := by
  unfold visit metricsAt pointAt
  cases data : cData entry.2 with
  | none =>
    refine ⟨d, rfl, known, by simp, fun s => ?_, fun s either => by simpa using either⟩
    cases d.metricExterior <;> simp
  | some mvs =>
    obtain ⟨d', run, known', keeps, members⟩ := queries_spec mvs.metrics d known
    refine ⟨d'.addTotal entry.1 mvs, ?_, known'.addTotal entry.1 mvs, fun n => ?_, fun s => ?_, fun s either => ?_⟩
    · change Denominators.addTotal entry.1 mvs <$> mvs.metrics.foldlM (query handler) d = _
      rw [run]
      rfl
    · rw [addTotal_queried, members]
      rfl
    · rw [addTotal_entryTotals, keeps, addTotal_metricExterior]
      rfl
    · apply addTotal_isSome
      rw [addTotal_metricExterior] at either
      rw [keeps]
      exact either

variable {all : List Metric}

omit [LinearOrder Scope] [DecidableEq Metric] in
lemma Knows.current_of_mem (known : d.Knows handler) (within : d.queried ⊆ all)
    (chosen : Chosen handler all m) (member : m ∈ d.queried) : d.metricExterior = some m := by
  have early := chosen.restrict within member
  cases current : d.metricExterior with
  | none => exact absurd early.2.1 (known.nothing current m member)
  | some k => rw [(known.chosen k current).unique early]

omit [LinearOrder Scope] in
lemma Knows.contribution (known : d.Knows handler) (within : d.queried ⊆ all)
    (chosen : Chosen handler all m) (asked : metricsAt cData c ⊆ d.queried) :
    pointAt cData c m ≤ d.metricExterior.elim 0 (pointAt cData c) ∧
      (Clean cData handler m c → d.metricExterior.elim 0 (pointAt cData c) = pointAt cData c m) := by
  by_cases here : m ∈ metricsAt cData c
  · rw [known.current_of_mem within chosen (asked here)]
    exact ⟨le_rfl, fun _ => rfl⟩
  · rw [pointAt_eq_zero here]
    cases current : d.metricExterior with
    | none => exact ⟨le_rfl, fun _ => rfl⟩
    | some k =>
      exact ⟨pointAt_nonneg c k, fun clean => clean here k (known.chosen k current).2.1⟩

lemma visits_spec (cData : Context → Option (MetricValues Metric)) (visits : List (Scope × Context)) :
    ∀ d : Denominators Scope Metric, d.Knows handler →
    ∃ d', visits.foldlM (visit handler cData) d = .ok d' ∧ d'.Knows handler ∧
      (∀ n, n ∈ d'.queried ↔ n ∈ d.queried ∨ ∃ v ∈ visits, n ∈ metricsAt cData v.2) ∧
      ∀ m, Chosen handler d'.queried m → ∀ s,
        (d.entryTotals s).getD 0 + entryTotal cData visits m s ≤ (d'.entryTotals s).getD 0 ∧
        ((∀ v ∈ visits, v.1 = s → Clean cData handler m v.2) →
          (d'.entryTotals s).getD 0 = (d.entryTotals s).getD 0 + entryTotal cData visits m s) ∧
        ((d.entryTotals s).isSome ∨ (∃ v ∈ visits, v.1 = s ∧ m ∈ metricsAt cData v.2) →
          (d'.entryTotals s).isSome) := by
  induction visits with
  | nil => exact fun d known => ⟨d, rfl, known, by simp, fun m _ s => by simp [entryTotal]⟩
  | cons v visits ih =>
    intro d known
    obtain ⟨middle, step, known, members, totals, present⟩ := visit_spec cData known v
    obtain ⟨d', run, known', members', rest⟩ := ih middle known
    refine ⟨d', ?_, known', fun n => ?_, fun m chosen s => ?_⟩
    · rw [foldlM_cons, step]
      exact run
    · rw [members', members, or_assoc, exists_mem_cons_iff]
    obtain ⟨least, exact, isSome⟩ := rest m chosen s
    have within : middle.queried ⊆ d'.queried := fun n member => (members' n).mpr (Or.inl member)
    have asked : metricsAt cData v.2 ⊆ middle.queried := fun n member => (members n).mpr (Or.inr member)
    obtain ⟨atLeast, equal⟩ := known.contribution within chosen asked
    have split : entryTotal cData (v :: visits) m s =
        (if v.1 = s then pointAt cData v.2 m else 0) + entryTotal cData visits m s := by
      rw [entryTotal, map_cons, sum_cons]
      rfl
    refine ⟨?_, fun clean => ?_, fun either => isSome ?_⟩
    · rw [totals s] at least
      rw [split]
      by_cases here : v.1 = s
      · rw [if_pos here] at least ⊢
        linarith
      · rw [if_neg here] at least ⊢
        linarith
    · rw [exact fun u member => clean u (mem_cons_of_mem _ member), totals s, split, add_assoc]
      by_cases here : v.1 = s
      · rw [if_pos here, if_pos here, equal (clean v mem_cons_self here)]
      · rw [if_neg here, if_neg here]
    · rcases either with already | found
      · exact Or.inl (present s (Or.inl already))
      · rcases (exists_mem_cons_iff ..).mp found with ⟨here, member⟩ | later
        · exact Or.inl (present s (Or.inr ⟨here, m, member, known.current_of_mem within chosen (asked member)⟩))
        · exact Or.inr later

end Denominators

end Totals

end HpcToolkit.FlowGraph
