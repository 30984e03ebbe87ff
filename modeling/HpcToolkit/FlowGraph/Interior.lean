import HpcToolkit.FlowGraph.Template

/-! # Interior factors

The templates that are entered share one factor. Round by round, from the ends of the paths, a group of templates with
a common suffix is split by its next callers, in proportion to the calls that their siblings have or evenly where there
are none. Values are exact and nonnegative.
-/

open List
open Prod (fst snd)

namespace HpcToolkit.FlowGraph

variable {Scope Metric Sibling Key : Type} [LinearOrder Scope] [DecidableEq Metric]

/-- The siblings of the graph or of a reconstruction of it, and the values attributed to them. -/
structure SiblingData (g : ContextFlowGraph Scope Metric Sibling) (Key : Type) where
  siblings : List (Scope × Key)
  data : Key → Option (MetricValues Metric)
  keys_perm : (siblings.map fst).Perm (g.siblings.map fst)

def ContextFlowGraph.siblingData (g : ContextFlowGraph Scope Metric Sibling)
    (data : Sibling → Option (MetricValues Metric)) : SiblingData g Sibling :=
  ⟨g.siblings, data, List.Perm.refl _⟩

/-- A range of templates and the factor that they share. -/
structure Group where
  first : ℕ
  last : ℕ
  factor : ℚ

/-- The range split at changes of the next caller. The cursor is the first and the last possible template of the
current part; impossible templates are skipped. -/
def subGroups (caller : ℕ → Option Scope) (possible : ℕ → Bool) : Option (ℕ × ℕ) → List ℕ → List (ℕ × ℕ)
  | none, [] => []
  | some (first, ilast), [] => [(first, ilast + 1)]
  | none, it :: rest =>
    if possible it then subGroups caller possible (some (it, it)) rest
    else subGroups caller possible none rest
  | some (first, ilast), it :: rest =>
    if possible it then
      if caller first = caller it then subGroups caller possible (some (first, it)) rest
      else (first, ilast + 1) :: subGroups caller possible (some (it, it)) rest
    else subGroups caller possible (some (first, ilast)) rest

section Model

variable {g : ContextFlowGraph Scope Metric Sibling} (d : SiblingData g Key) (hasEC : List Bool)

/-- `find`, where the sibling itself comes from `m_siblings.at`. -/
def SiblingData.find (s : Scope) : Except Failure (Option (MetricValues Metric)) :=
  match atKey d.siblings s with
  | none => .error .lookup
  | some sibling => .ok (d.data sibling)

/-- The metrics of one sibling, each asked about once: a second interior metric is fatal. -/
def queryInterior (handler : Handler Metric) (state : List Metric × Option Metric) (m : Metric) :
    Except Failure (List Metric × Option Metric) :=
  if m ∈ state.1 then .ok state
  else if (handler.handling m).interior then
    if state.2.isSome then .error .fatal else .ok (m :: state.1, some m)
  else .ok (m :: state.1, state.2)

def querySibling (state : List Metric × Option Metric) (s : Scope) :
    Except Failure (List Metric × Option Metric) := do
  match ← d.find s with
  | none => .ok state
  | some mvs => mvs.metrics.foldlM (queryInterior g.handler) state

def metricInterior : Except Failure (Option Metric) :=
  snd <$> (g.siblings.map fst).foldlM (querySibling d) ([], none)

variable (g) in
def ContextFlowGraph.rpathAt (it : ℕ) : List Scope :=
  g.templates[it]?.elim [] Template.rpath

variable (g) in
/-- `path[path.size() - ridx - 1]` -/
def ContextFlowGraph.rAtIdx (ridx it : ℕ) : Option Scope :=
  (g.rpathAt it)[ridx]?

def possible (it : ℕ) : Bool :=
  hasEC.getD it false

/-- The value of the interior metric at a caller. `at` throws where the sibling has other values only. -/
def callerValue (metric : Option Metric) (caller : Option Scope) : Except Failure ℚ :=
  match metric with
  | none => .ok 0
  | some m => match caller with
    | none => .error .lookup
    | some s => do
      match ← d.find s with
      | none => .ok 0
      | some mvs => match mvs.find m with
        | none => .error .lookup
        | some v => .ok v

/-- The first pass at one group. -/
def splitGroup (metric : Option Metric) (ridx : ℕ) (group : Group) : Except Failure (List Group) :=
  let range := range' group.first (group.last - group.first)
  if range.any fun it => possible hasEC it && (g.rAtIdx ridx it).isNone then .error .lookup
  else do
    let parts := subGroups (g.rAtIdx ridx) (possible hasEC) none range
    let values ← parts.mapM fun part => callerValue d metric (g.rAtIdx ridx part.1)
    return (parts.zip values).map fun (part, v) =>
      { first := part.1
        last := part.2
        factor := if 0 < values.sum then group.factor * v / values.sum else group.factor / parts.length }

variable (g) in
/-- Whether the second pass assigns the factor of the group. -/
def finished (ridx : ℕ) (group : Group) : Bool :=
  group.factor = 0 || (g.rpathAt group.first).length = ridx + 1 || group.last - group.first = 1

def assign (factors : ℕ → ℚ) (group : Group) : ℕ → ℚ := fun idx =>
  if group.first ≤ idx ∧ idx < group.last ∧ possible hasEC idx then group.factor else factors idx

def rounds (metric : Option Metric) : ℕ → ℕ → List Group → (ℕ → ℚ) → Except Failure (ℕ → ℚ)
  | _, _, [], factors => .ok factors
  | 0, _, _ :: _, _ => .error .fuel
  | fuel + 1, ridx, groups, factors => do
    let next ← groups.mapM (splitGroup d hasEC metric ridx)
    rounds metric fuel (ridx + 1) (next.flatten.filter fun group => !finished g ridx group)
      ((next.flatten.filter (finished g ridx)).foldl (assign hasEC) factors)

def interiorFactors (fuel : ℕ) : Except Failure (List ℚ) :=
  let count := g.templates.length
  if count = 1 then .ok [if possible hasEC 0 then 1 else 0]
  else match (range count).filter (possible hasEC) with
    | [] => .ok (replicate count 0)
    | [single] => .ok ((replicate count 0).set single 1)
    | _ => do
      let metric ← metricInterior d
      let factors ← rounds d hasEC metric fuel 0 [⟨0, count, 1⟩] fun _ => 0
      return (range count).map factors

end Model

/-! ## The values of the siblings -/

/-- The value of the interior metric. -/
def MetricValues.counted (handler : Handler Metric) (mvs : MetricValues Metric) : Option ℚ :=
  (mvs.cells.find? fun cell => (handler.handling cell.1).interior).map snd

variable {handler : Handler Metric}

lemma MetricValues.counted_eq_find {m : Metric} (interior : (handler.handling m).interior)
    (mvs : MetricValues Metric) : mvs.counted handler = mvs.find m := by
  rw [counted, find, atKey]
  congr 2
  funext cell
  rw [Bool.eq_iff_iff, decide_eq_true_iff]
  exact ⟨fun also => handler.interior_unique _ _ also interior, fun same => same ▸ interior⟩

omit [DecidableEq Metric] in
lemma MetricValues.counted_isSome_iff {mvs : MetricValues Metric} :
    (mvs.counted handler).isSome ↔ ∃ m ∈ mvs.metrics, (handler.handling m).interior := by
  simp [counted, metrics]

section Values

variable {g : ContextFlowGraph Scope Metric Sibling}

namespace SiblingData

variable (d : SiblingData g Key)

def values (s : Scope) : Option (MetricValues Metric) :=
  (atKey d.siblings s).bind d.data

/-- The calls that a call instruction makes, as far as they are known. -/
def calls (s : Scope) : ℚ :=
  ((d.values s).bind (·.counted g.handler)).getD 0

/-- The sibling has values but not the interior metric, which another sibling has. -/
def Missing (s : Scope) : Prop :=
  (∃ r ∈ g.siblings.map fst, ∃ mvs, d.values r = some mvs ∧ (mvs.counted g.handler).isSome) ∧
    ∃ mvs, d.values s = some mvs ∧ mvs.counted g.handler = none

omit [DecidableEq Metric] in
lemma find_eq {s : Scope} (known : s ∈ g.siblings.map fst) : d.find s = .ok (d.values s) := by
  obtain ⟨sibling, found⟩ := Option.isSome_iff_exists.mp (atKey_isSome_iff.mpr (d.keys_perm.mem_iff.mpr known))
  rw [find, values, found]
  rfl

omit [DecidableEq Metric] in
lemma calls_nonneg (s : Scope) : 0 ≤ d.calls s := by
  rw [calls]
  cases d.values s with
  | none => exact le_rfl
  | some mvs =>
    cases counted : mvs.counted g.handler with
    | none => simp [counted]
    | some v =>
      obtain ⟨cell, found, rfl⟩ := Option.map_eq_some_iff.mp counted
      simpa [counted] using mvs.nonneg cell (mem_of_find?_eq_some found)

end SiblingData

/-- The interior metric is found if one of the queried ones is interior. -/
structure FoundInterior (handler : Handler Metric) (state : List Metric × Option Metric) : Prop where
  nothing : state.2 = none → ∀ n ∈ state.1, ¬ (handler.handling n).interior
  found : ∀ m, state.2 = some m → m ∈ state.1 ∧ (handler.handling m).interior

lemma queryInterior_spec {state : List Metric × Option Metric}
    (known : FoundInterior handler state) (m : Metric) : ∃ state', queryInterior handler state m = .ok state' ∧
      FoundInterior handler state' ∧ ∀ n, n ∈ state'.1 ↔ n ∈ state.1 ∨ n = m := by
  obtain ⟨queried, metric⟩ := state
  have members : ∀ n, n ∈ m :: queried ↔ n ∈ queried ∨ n = m := fun n => mem_cons.trans or_comm
  unfold queryInterior
  by_cases asked : m ∈ queried
  · rw [if_pos asked]
    exact ⟨_, rfl, known, fun n => ⟨Or.inl, fun either => either.elim id fun same => same ▸ asked⟩⟩
  rw [if_neg asked]
  by_cases interior : (handler.handling m).interior
  · have fresh : metric = none := by
      cases current : metric with
      | none => rfl
      | some k =>
        obtain ⟨member, also⟩ := known.found k current
        exact absurd (handler.interior_unique k m also interior ▸ member) asked
    rw [if_pos interior, fresh, if_neg (by simp)]
    refine ⟨_, rfl, ⟨?_, ?_⟩, members⟩
    · rintro ⟨⟩
    · rintro n ⟨⟩
      exact ⟨mem_cons_self, interior⟩
  · rw [if_neg interior]
    refine ⟨_, rfl, ⟨fun absent n member => ?_, fun n same => ?_⟩, members⟩
    · rcases mem_cons.mp member with rfl | old
      · exact interior
      · exact known.nothing absent n old
    · exact ⟨mem_cons_of_mem _ (known.found n same).1, (known.found n same).2⟩

lemma queryInteriors_spec (ms : List Metric) : ∀ state, FoundInterior handler state →
    ∃ state', ms.foldlM (queryInterior handler) state = .ok state' ∧ FoundInterior handler state' ∧
      ∀ n, n ∈ state'.1 ↔ n ∈ state.1 ∨ n ∈ ms := by
  induction ms with
  | nil => exact fun state known => ⟨state, rfl, known, by simp⟩
  | cons m ms ih =>
    intro state known
    obtain ⟨middle, asked, known, members⟩ := queryInterior_spec known m
    obtain ⟨state', run, known', members'⟩ := ih middle known
    refine ⟨state', ?_, known', fun n => ?_⟩
    · rw [foldlM_cons, asked]
      exact run
    · rw [members', members, mem_cons, or_assoc]

lemma querySiblings_spec (d : SiblingData g Key) (keys : List Scope) : keys ⊆ g.siblings.map fst →
    ∀ state, FoundInterior g.handler state → ∃ state', keys.foldlM (querySibling d) state = .ok state' ∧
      FoundInterior g.handler state' ∧
      ∀ n, n ∈ state'.1 ↔ n ∈ state.1 ∨ ∃ s ∈ keys, ∃ mvs, d.values s = some mvs ∧ n ∈ mvs.metrics := by
  induction keys with
  | nil => exact fun _ state known => ⟨state, rfl, known, by simp⟩
  | cons s keys ih =>
    intro within state known
    obtain ⟨first, rest⟩ := cons_subset.mp within
    obtain ⟨middle, step, known, members⟩ : ∃ middle, querySibling d state s = .ok middle ∧
        FoundInterior g.handler middle ∧
        ∀ n, n ∈ middle.1 ↔ n ∈ state.1 ∨ ∃ mvs, d.values s = some mvs ∧ n ∈ mvs.metrics := by
      unfold querySibling
      rw [d.find_eq first]
      cases d.values s with
      | none => exact ⟨state, rfl, known, by simp⟩
      | some mvs =>
        obtain ⟨middle, run, known, members⟩ := queryInteriors_spec mvs.metrics state known
        exact ⟨middle, run, known, by simpa using members⟩
    obtain ⟨state', run, known', members'⟩ := ih rest middle known
    refine ⟨state', ?_, known', fun n => ?_⟩
    · rw [foldlM_cons, step]
      exact run
    · rw [members', members, or_assoc, exists_mem_cons_iff]

lemma metricInterior_spec (d : SiblingData g Key) : ∃ metric, metricInterior d = .ok metric ∧
    (metric = none → ∀ s ∈ g.siblings.map fst, ∀ mvs, d.values s = some mvs → mvs.counted g.handler = none) ∧
    ∀ m, metric = some m → (g.handler.handling m).interior ∧
      ∃ s ∈ g.siblings.map fst, ∃ mvs, d.values s = some mvs ∧ (mvs.counted g.handler).isSome := by
  obtain ⟨⟨queried, metric⟩, run, known, members⟩ := querySiblings_spec d _ (List.Subset.refl _) ([], none)
    ⟨fun _ n absent => absurd absent not_mem_nil, by rintro m ⟨⟩⟩
  refine ⟨metric, ?_, fun absent s listed mvs values => ?_, fun m found => ?_⟩
  · rw [metricInterior, run]
    rfl
  · apply Option.not_isSome_iff_eq_none.mp
    intro counted
    obtain ⟨m, member, interior⟩ := MetricValues.counted_isSome_iff.mp counted
    exact known.nothing absent m ((members m).mpr (Or.inr ⟨s, listed, mvs, values, member⟩)) interior
  · obtain ⟨asked, interior⟩ := known.found m found
    refine ⟨interior, ?_⟩
    rcases (members m).mp asked with absent | ⟨s, listed, mvs, values, member⟩
    · exact absurd absent not_mem_nil
    · exact ⟨s, listed, mvs, values, MetricValues.counted_isSome_iff.mpr ⟨m, member, interior⟩⟩

/-- The metric that the search has found. -/
def IsSearched (d : SiblingData g Key) (metric : Option Metric) : Prop :=
  metricInterior d = .ok metric

variable {s : Scope} {metric : Option Metric}

lemma callerValue_eq {d : SiblingData g Key} (searched : IsSearched d metric)
    (known : s ∈ g.siblings.map fst) (there : ¬ d.Missing s) : callerValue d metric (some s) = .ok (d.calls s) := by
  obtain ⟨metric', run, nothing, found⟩ := metricInterior_spec d
  obtain rfl : metric = metric' := Except.ok.inj (searched.symm.trans run)
  unfold callerValue SiblingData.calls
  cases current : metric with
  | none =>
    cases values : d.values s with
    | none => rfl
    | some mvs => simp [nothing current s known mvs values]
  | some m =>
    obtain ⟨interior, other⟩ := found m current
    change (d.find s >>= _) = _
    rw [d.find_eq known]
    cases values : d.values s with
    | none => rfl
    | some mvs =>
      have counted : mvs.counted g.handler ≠ none := fun absent => there ⟨other, mvs, values, absent⟩
      obtain ⟨v, value⟩ := Option.ne_none_iff_exists'.mp counted
      change (match mvs.find m with | none => _ | some v => _) = _
      rw [Option.bind_some, value, ← MetricValues.counted_eq_find interior mvs, value]
      rfl

lemma callerValue_error {d : SiblingData g Key} (searched : IsSearched d metric)
    (known : s ∈ g.siblings.map fst) (missing : d.Missing s) :
    callerValue d metric (some s) = .error .lookup := by
  obtain ⟨metric', run, nothing, found⟩ := metricInterior_spec d
  obtain rfl : metric = metric' := Except.ok.inj (searched.symm.trans run)
  obtain ⟨⟨r, listed, other, values, counted⟩, mvs, here, absent⟩ := missing
  unfold callerValue
  cases current : metric with
  | none =>
    rw [nothing current r listed other values] at counted
    cases counted
  | some m =>
    obtain ⟨interior, -⟩ := found m current
    change (d.find s >>= _) = _
    rw [d.find_eq known, here]
    change (match mvs.find m with | none => _ | some v => _) = _
    rw [← MetricValues.counted_eq_find interior mvs, absent]

end Values

end HpcToolkit.FlowGraph
