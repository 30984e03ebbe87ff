import HpcToolkit.FlowGraph.Exterior

/-! # Exterior factors as a distribution

The factors of a template sum to one in every order of the reconstructions and of their entries exactly if no context
of its entry has calls of a logical metric only while another context has those of the metric that replaces it.
-/

open Function
open List hiding getElem?_eq_some_iff

namespace HpcToolkit.FlowGraph

open ReconstructionGroup Denominators

variable {Scope Metric Sibling Recon Context : Type} [LinearOrder Scope] [DecidableEq Metric]
  {g : ContextFlowGraph Scope Metric Sibling}

namespace ReconstructionGroup

variable (o : ReconstructionGroup g Recon Context)

def seen : List Metric :=
  o.visits.flatMap fun v => metricsAt o.cData v.2

/-- The same group with another order of its hash containers. -/
structure Reordered (o o' : ReconstructionGroup g Recon Context) : Prop where
  reconsts : o.reconsts.Perm o'.reconsts
  entries : ∀ r, (o.entries r).Perm (o'.entries r)
  cData : o.cData = o'.cData

def value (m : Metric) (r : Recon) (s : Scope) : ℚ :=
  (atKey (o.entries r) s).elim 0 fun c => pointAt o.cData c m

/-- Whether a value of the metric is found for the entry. -/
def found (m : Metric) (r : Recon) (s : Scope) : Bool :=
  (atKey (o.entries r) s).any fun c => m ∈ metricsAt o.cData c

end ReconstructionGroup

/-- The factors of one template by reconstruction. -/
def ExteriorFactors.column (result : ExteriorFactors Recon) (idx : ℕ) : List (Recon × ℚ) :=
  result.factors.map fun row => (row.1, row.2.getD idx 0)

/-- In every order the factors of the template are a distribution, and the same one. -/
structure Distributes (o : ReconstructionGroup g Recon Context) (idx : ℕ) : Prop where
  sums_to_one : ∀ o', o.Reordered o' → ∃ result, exteriorFactors o' = .ok result ∧
    (∀ factor ∈ result.column idx, 0 ≤ factor.2) ∧ ((result.column idx).map Prod.snd).sum = 1
  any_order : ∀ o', o.Reordered o' → ∀ result result', exteriorFactors o = .ok result →
    exteriorFactors o' = .ok result' →
    (result.column idx).Perm (result'.column idx) ∧ result.hasEC[idx]? = result'.hasEC[idx]?

variable {o o' : ReconstructionGroup g Recon Context} {m n : Metric} {r : Recon} {s : Scope} {c : Context}

/-! ## Entries -/

section Entries

omit [DecidableEq Metric]

lemma entries_nodup (o : ReconstructionGroup g Recon Context) (r : Recon) :
    ((o.entries r).map Prod.fst).Nodup :=
  (o.entries_perm r).nodup_iff.mpr g.entries_nodup

lemma exists_entry (o : ReconstructionGroup g Recon Context) (r : Recon) {t : Template Scope}
    (member : t ∈ g.templates) : ∃ c, atKey (o.entries r) t.entry = some c := by
  apply Option.isSome_iff_exists.mp
  apply atKey_isSome_iff.mpr
  exact (o.entries_perm r).mem_iff.mpr ((g.mem_entries _).mpr ⟨t, member, rfl⟩)

lemma atKey_reordered (same : o.Reordered o') (r : Recon) (s : Scope) :
    atKey (o.entries r) s = atKey (o'.entries r) s := by
  ext c
  rw [atKey_eq_some_iff (entries_nodup o r), atKey_eq_some_iff (entries_nodup o' r)]
  exact (same.entries r).mem_iff

lemma visits_perm (same : o.Reordered o') : o.visits.Perm o'.visits :=
  same.reconsts.flatMap fun r _ => same.entries r

lemma mem_visits : (s, c) ∈ o.visits ↔ ∃ r ∈ o.reconsts, (s, c) ∈ o.entries r :=
  mem_flatMap

end Entries

lemma sum_at_key {K V : Type} [DecidableEq K] (value : V → ℚ) (cells : List (K × V)) (k : K)
    (distinct : (cells.map Prod.fst).Nodup) :
    (cells.map fun cell => if cell.1 = k then value cell.2 else 0).sum = (atKey cells k).elim 0 value := by
  induction cells with
  | nil => rfl
  | cons cell cells ih =>
    rw [map_cons, nodup_cons] at distinct
    rw [map_cons, sum_cons, ih distinct.2, atKey_cons]
    by_cases here : cell.1 = k
    · have absent : atKey cells k = none := by
        apply Option.not_isSome_iff_eq_none.mp
        rw [atKey_isSome_iff, ← here]
        exact distinct.1
      rw [if_pos here, if_pos here, absent]
      exact add_zero _
    · rw [if_neg here, if_neg here, zero_add]

lemma entryTotal_eq (o : ReconstructionGroup g Recon Context) (m : Metric) (s : Scope) :
    entryTotal o.cData o.visits m s = (o.reconsts.map fun r => o.value m r s).sum := by
  rw [entryTotal, visits]
  induction o.reconsts with
  | nil => rfl
  | cons r rest ih =>
    rw [flatMap_cons, map_append, sum_append, ih, map_cons, sum_cons,
      sum_at_key (fun c => pointAt o.cData c m) (o.entries r) s (entries_nodup o r)]
    rfl

lemma entryTotal_reordered (same : o.Reordered o') (m : Metric) (s : Scope) :
    entryTotal o.cData o.visits m s = entryTotal o'.cData o'.visits m s := by
  rw [same.cData]
  exact ((visits_perm same).map _).sum_eq

lemma value_reordered (same : o.Reordered o') (m : Metric) (r : Recon) (s : Scope) :
    o.value m r s = o'.value m r s := by
  rw [value, value, atKey_reordered same, same.cData]

lemma found_reordered (same : o.Reordered o') (m : Metric) (r : Recon) (s : Scope) :
    o.found m r s = o'.found m r s := by
  rw [found, found, atKey_reordered same, same.cData]

lemma value_eq_zero (absent : ¬ o.found m r s) : o.value m r s = 0 := by
  rw [found] at absent
  rw [value]
  cases entry : atKey (o.entries r) s with
  | none => rfl
  | some c => exact pointAt_eq_zero (by simpa [entry] using absent)

omit [DecidableEq Metric] in
lemma chosen_reordered (same : o.Reordered o') (calls : Chosen g.handler o.seen m) :
    Chosen g.handler o'.seen m := by
  have members : ∀ n, n ∈ o.seen ↔ n ∈ o'.seen := by
    intro n
    rw [seen, seen, mem_flatMap, mem_flatMap, same.cData]
    simp only [(visits_perm same).mem_iff]
  exact calls.restrict (fun n => (members n).mpr) ((members m).mp calls.1)

/-! ## The two loops -/

variable {handler : Handler Metric}

omit [LinearOrder Scope] [DecidableEq Metric] in
lemma initial_knows : (initial : Denominators Scope Metric).Knows handler :=
  ⟨fun _ n member => absurd member not_mem_nil, by rintro m ⟨⟩, by rintro m ⟨⟩⟩

lemma totals_spec (o : ReconstructionGroup g Recon Context) (calls : Chosen g.handler o.seen m) :
    ∃ d, o.visits.foldlM (visit g.handler o.cData) initial = .ok d ∧
      d.metricExterior = some m ∧
      ∀ s, ((∀ v ∈ o.visits, v.1 = s → Clean o.cData g.handler m v.2) →
          (d.entryTotals s).getD 0 = entryTotal o.cData o.visits m s) ∧
        ((∃ v ∈ o.visits, v.1 = s ∧ m ∈ metricsAt o.cData v.2) → (d.entryTotals s).isSome) := by
  obtain ⟨d, run, known, members, totals⟩ :=
    visits_spec o.cData o.visits initial initial_knows
  have same : ∀ n, n ∈ d.queried ↔ n ∈ o.seen := by
    intro n
    rw [members, seen, mem_flatMap]
    exact or_iff_right not_mem_nil
  have chosen : Chosen g.handler d.queried m :=
    calls.restrict (fun n => (same n).mp) ((same m).mpr calls.1)
  refine ⟨d, run, known.current_of_mem (List.Subset.refl _) chosen chosen.1, fun s => ?_⟩
  obtain ⟨-, exact, isSome⟩ := totals m chosen s
  refine ⟨fun clean => ?_, fun found => isSome (Or.inr found)⟩
  rw [exact clean]
  exact zero_add _

/-- What the second loop finds. -/
def share (o : ReconstructionGroup g Recon Context) (m : Metric) (entryTotals : Scope → Option ℚ) (r : Recon)
    (t : Template Scope) : Option (ℚ × ℚ) :=
  if o.found m r t.entry then some (o.value m r t.entry, (entryTotals t.entry).getD 0) else none

variable {t : Template Scope}

section
variable (o : ReconstructionGroup g Recon Context)

lemma shareOf_spec {entryTotals : Scope → Option ℚ}
    (present : ∀ s, (∃ v ∈ o.visits, v.1 = s ∧ m ∈ metricsAt o.cData v.2) → (entryTotals s).isSome)
    (member : r ∈ o.reconsts) (template : t ∈ g.templates) :
    shareOf o m entryTotals r t = .ok (share o m entryTotals r t) := by
  obtain ⟨c, entry⟩ := exists_entry o r template
  have visited : (t.entry, c) ∈ o.visits :=
    mem_visits.mpr ⟨r, member, (atKey_eq_some_iff (entries_nodup o r)).mp entry⟩
  have asked := present t.entry
  unfold shareOf share found value
  rw [entry]
  cases data : o.cData c with
  | none => simp [data, metricsAt]
  | some mvs =>
    cases value : mvs.find m with
    | none =>
      have absent : m ∉ mvs.metrics := by
        rw [← MetricValues.find_isSome_iff, value]
        exact Bool.false_ne_true
      simp [data, metricsAt, value, absent]
    | some v =>
      have here : m ∈ mvs.metrics := by
        rw [← MetricValues.find_isSome_iff, value]
        rfl
      obtain ⟨total, known⟩ := Option.isSome_iff_exists.mp
        (asked ⟨_, visited, rfl, by simpa [metricsAt, data] using here⟩)
      simp [data, metricsAt, pointAt, MetricValues.point, value, here, known]

lemma factorOf_share (entryTotals : Scope → Option ℚ) (r : Recon)
    (t : Template Scope) :
    factorOf (share o m entryTotals r t) = o.value m r t.entry / (entryTotals t.entry).getD 0 := by
  rw [share]
  by_cases here : o.found m r t.entry
  · rw [if_pos here]
    rfl
  · rw [if_neg here, value_eq_zero here, zero_div]
    rfl

lemma any_share (entryTotals : Scope → Option ℚ) (r : Recon)
    (t : Template Scope) :
    ((share o m entryTotals r t).any fun vt => vt.1 ≠ 0) = decide (o.value m r t.entry ≠ 0) := by
  rw [share]
  by_cases here : o.found m r t.entry
  · rw [if_pos here]
    rfl
  · rw [if_neg here, value_eq_zero here]
    rfl

lemma share_isSome (entryTotals : Scope → Option ℚ) (r : Recon)
    (t : Template Scope) : (share o m entryTotals r t).isSome = o.found m r t.entry := by
  rw [share]
  cases o.found m r t.entry <;> rfl

end

/-- The reconstructions that have factors. -/
def sharing (o : ReconstructionGroup g Recon Context) (m : Metric) : List Recon :=
  o.reconsts.filter fun r => g.templates.any fun t => o.found m r t.entry

lemma exteriorFactors_spec (o : ReconstructionGroup g Recon Context) (calls : Chosen g.handler o.seen m) :
    ∃ d result, o.visits.foldlM (visit g.handler o.cData) initial = .ok d ∧
      exteriorFactors o = .ok result ∧ ∀ idx t, g.templates[idx]? = some t →
        result.column idx =
          (sharing o m).map (fun r => (r, o.value m r t.entry / (d.entryTotals t.entry).getD 0)) ∧
        result.hasEC[idx]? = some (o.reconsts.any fun r => decide (o.value m r t.entry ≠ 0)) := by
  obtain ⟨d, run, current, totals⟩ := totals_spec o calls
  let row : Recon → Recon × List (Option (ℚ × ℚ)) := fun r => (r, g.templates.map (share o m d.entryTotals r))
  have rows : ∀ r ∈ o.reconsts, (r, ·) <$> g.templates.mapM (shareOf o m d.entryTotals r) =
      (.ok (row r) : Except Failure (Recon × List (Option (ℚ × ℚ)))) := by
    intro r member
    rw [mapM_ok fun t template => shareOf_spec o (fun s => (totals s).2) member template]
    rfl
  refine ⟨d, ExteriorFactors.ofRows g.templates.length (o.reconsts.map row), run, ?_, fun idx t atIdx => ⟨?_, ?_⟩⟩
  · unfold exteriorFactors
    simp only [run, bind, Except.bind, current]
    rw [mapM_ok rows]
    rfl
  · have filtered : (fun row : Recon × List (Option (ℚ × ℚ)) => row.2.any Option.isSome) ∘ row =
        fun r => g.templates.any fun t => o.found m r t.entry := by
      funext r
      simp only [row, comp_apply, any_map]
      congr 1
      funext t
      exact share_isSome o d.entryTotals r t
    rw [ExteriorFactors.column, ExteriorFactors.ofRows, filter_map, map_map, map_map, filtered]
    apply map_congr_left
    intro r _
    simp [row, getD_eq_getElem?_getD, atIdx, factorOf_share]
  · have inside : idx < g.templates.length := (List.getElem?_eq_some_iff.mp atIdx).1
    rw [ExteriorFactors.ofRows, getElem?_map, getElem?_range inside, Option.map_some, any_map]
    congr 2
    funext r
    rw [← any_share o d.entryTotals r t]
    simp [row, atIdx]

/-! ## Distribution -/

lemma sum_shares {A : Type} (l : List A) (counted : A → Bool) (value : A → ℚ) (total : ℚ)
    (rest : ∀ a ∈ l, ¬ counted a → value a = 0) :
    ((l.filter counted).map fun a => value a / total).sum = (l.map value).sum / total := by
  induction l with
  | nil => simp
  | cons a l ih =>
    have tail := ih fun b member => rest b (mem_cons_of_mem _ member)
    rw [map_cons, sum_cons, add_div, ← tail]
    by_cases here : counted a
    · rw [filter_cons_of_pos here, map_cons, sum_cons]
    · rw [filter_cons_of_neg here, rest a mem_cons_self here, zero_div, zero_add]

lemma sum_sharing (o : ReconstructionGroup g Recon Context) (m : Metric)
    (template : t ∈ g.templates) (total : ℚ) :
    ((sharing o m).map fun r => o.value m r t.entry / total).sum = entryTotal o.cData o.visits m t.entry / total := by
  rw [entryTotal_eq]
  refine sum_shares o.reconsts _ _ total fun r _ uncounted => value_eq_zero fun found => uncounted ?_
  exact any_eq_true.mpr ⟨t, template, found⟩

lemma entryTotal_nonneg (cData : Context → Option (MetricValues Metric)) (visits : List (Scope × Context))
    (m : Metric) (s : Scope) : 0 ≤ entryTotal cData visits m s := by
  apply sum_nonneg
  intro v member
  obtain ⟨visit, -, rfl⟩ := mem_map.mp member
  split
  · exact pointAt_nonneg visit.2 m
  · exact le_rfl

lemma value_nonneg (o : ReconstructionGroup g Recon Context) (m : Metric) (r : Recon) (s : Scope) :
    0 ≤ o.value m r s := by
  rw [value]
  cases atKey (o.entries r) s with
  | none => exact le_rfl
  | some c => exact pointAt_nonneg c m

/-- Every context of the entry is clean. -/
def EntryClean (o : ReconstructionGroup g Recon Context) (m : Metric) (s : Scope) : Prop :=
  ∀ r ∈ o.reconsts, ∀ c, (s, c) ∈ o.entries r → Clean o.cData g.handler m c

lemma entryClean_visits (clean : EntryClean o m s) : ∀ v ∈ o.visits, v.1 = s → Clean o.cData g.handler m v.2 := by
  rintro ⟨s', c⟩ member rfl
  obtain ⟨r, listed, entry⟩ := mem_visits.mp member
  exact clean r listed c entry

lemma entryClean_reordered (same : o.Reordered o') (clean : EntryClean o m s) : EntryClean o' m s := by
  intro r listed c entry
  rw [← same.cData]
  exact clean r (same.reconsts.mem_iff.mpr listed) c ((same.entries r).mem_iff.mpr entry)

lemma column_of_clean (calls : Chosen g.handler o.seen m) {idx : ℕ}
    (atIdx : g.templates[idx]? = some t) (clean : EntryClean o m t.entry) :
    ∃ result, exteriorFactors o = .ok result ∧
      result.column idx = (sharing o m).map
        (fun r => (r, o.value m r t.entry / entryTotal o.cData o.visits m t.entry)) ∧
      result.hasEC[idx]? = some (o.reconsts.any fun r => decide (o.value m r t.entry ≠ 0)) := by
  obtain ⟨d, result, run, returns, columns⟩ := exteriorFactors_spec o calls
  obtain ⟨d', run', -, totals⟩ := totals_spec o calls
  obtain rfl : d = d' := Except.ok.inj (run.symm.trans run')
  refine ⟨result, returns, ?_, (columns idx t atIdx).2⟩
  rw [(columns idx t atIdx).1, (totals t.entry).1 (entryClean_visits clean)]

lemma sharing_reordered (same : o.Reordered o') (m : Metric) : (sharing o m).Perm (sharing o' m) := by
  rw [sharing, sharing]
  have counted : (fun r => g.templates.any fun t => o.found m r t.entry) =
      fun r => g.templates.any fun t => o'.found m r t.entry := by
    funext r
    congr 1
    funext t
    exact found_reordered same m r t.entry
  rw [counted]
  exact same.reconsts.filter _

lemma replaced_of_not_clean {cData : Context → Option (MetricValues Metric)}
    {seen : List Metric} (calls : Chosen handler seen m) (polluted : ¬ Clean cData handler m c) :
    m ∉ metricsAt cData c ∧ ∃ n, 0 < pointAt cData c n ∧ Chosen handler (metricsAt cData c) n := by
  rw [Clean] at polluted
  push Not at polluted
  obtain ⟨absent, n, exterior, nonzero⟩ := polluted
  have positive : 0 < pointAt cData c n := lt_of_le_of_ne (pointAt_nonneg c n) nonzero.symm
  have here : n ∈ metricsAt cData c := by
    by_contra missing
    exact nonzero (pointAt_eq_zero missing)
  have differs : (handler.handling n).exteriorLogical ≠ (handler.handling m).exteriorLogical := by
    intro same
    exact absent (handler.exterior_unique n m exterior calls.2.1 same ▸ here)
  refine ⟨absent, n, positive, here, exterior, fun logical k member kind => ?_⟩
  by_contra physical
  have same : (handler.handling k).exteriorLogical = (handler.handling m).exteriorLogical := by
    rw [logical] at differs
    simp_all
  exact absent (handler.exterior_unique k m kind calls.2.1 same ▸ member)

omit [DecidableEq Metric] in
lemma exists_order_first (listed : r ∈ o.reconsts) (entry : (s, c) ∈ o.entries r) :
    ∃ o', o.Reordered o' ∧ ∃ rest, o'.visits = (s, c) :: rest := by
  classical
  obtain ⟨before, after, reconsts⟩ := append_of_mem listed
  obtain ⟨left, right, entries⟩ := append_of_mem entry
  have sameReconsts : o.reconsts.Perm (r :: (before ++ after)) := reconsts ▸ perm_middle
  have sameEntries : ∀ q, (o.entries q).Perm (update o.entries r ((s, c) :: (left ++ right)) q) := by
    intro q
    rcases eq_or_ne q r with rfl | other
    · rw [update_self, entries]
      exact perm_middle
    · rw [update_of_ne other]
  let o' : ReconstructionGroup g Recon Context :=
    { reconsts := r :: (before ++ after)
      entries := update o.entries r ((s, c) :: (left ++ right))
      cData := o.cData
      reconsts_nodup := sameReconsts.nodup_iff.mp o.reconsts_nodup
      entries_perm := fun q => ((sameEntries q).map Prod.fst).symm.trans (o.entries_perm q) }
  refine ⟨o', ⟨sameReconsts, sameEntries, rfl⟩, left ++ right ++ (before ++ after).flatMap o'.entries, ?_⟩
  have front : o'.entries r = (s, c) :: (left ++ right) := update_self r _ o.entries
  rw [visits, flatMap_cons, front]
  rfl

lemma total_of_polluted_first (calls : Chosen g.handler o.seen m) {rest : List (Scope × Context)}
    (first : o.visits = (s, c) :: rest) (polluted : ¬ Clean o.cData g.handler m c) {d : Denominators Scope Metric}
    (run : o.visits.foldlM (visit g.handler o.cData) initial = .ok d) :
    entryTotal o.cData o.visits m s < (d.entryTotals s).getD 0 := by
  obtain ⟨absent, n, positive, here⟩ := replaced_of_not_clean calls polluted
  obtain ⟨middle, step, known, members, totals, -⟩ := visit_spec o.cData initial_knows (s, c)
  have asked : ∀ k, k ∈ middle.queried ↔ k ∈ metricsAt o.cData c := fun k => by
    rw [members]
    exact or_iff_right not_mem_nil
  have current : middle.metricExterior = some n :=
    known.current_of_mem (fun k => (asked k).mp) here ((asked n).mpr here.1)
  obtain ⟨d', run', known', members', least⟩ := visits_spec o.cData rest middle known
  have same : d = d' := by
    rw [first, foldlM_cons, step] at run
    exact Except.ok.inj (run.symm.trans run')
  have chosen : Chosen g.handler d'.queried m := by
    have whole : ∀ k, k ∈ d'.queried ↔ k ∈ o.seen := by
      intro k
      rw [members', asked, seen, first, flatMap_cons, mem_append, mem_flatMap]
    exact calls.restrict (fun k => (whole k).mp) ((whole m).mpr calls.1)
  have lower := (least m chosen s).1
  rw [totals s, if_pos rfl, current] at lower
  have zero : entryTotal o.cData o.visits m s = entryTotal o.cData rest m s := by
    rw [first, entryTotal, map_cons, sum_cons, if_pos rfl, pointAt_eq_zero absent, zero_add]
    rfl
  rw [zero, same]
  change 0 + pointAt o.cData c n + _ ≤ _ at lower
  linarith

/-- The exterior factors of a template with calls are a distribution, the same one in every order, if and only if each
context of its entry that lacks the metric of the calls has no calls of another metric. -/
theorem exterior_factors_iff {idx : ℕ} {t : Template Scope} (atIdx : g.templates[idx]? = some t)
    (calls : Chosen g.handler o.seen m) (nonzero : entryTotal o.cData o.visits m t.entry ≠ 0) :
    Distributes o idx ↔ EntryClean o m t.entry := by
  constructor
  · intro distributes r listed c entry
    by_contra polluted
    obtain ⟨o', same, rest, first⟩ := exists_order_first listed entry
    have calls' := chosen_reordered same calls
    obtain ⟨result, returns, -, one⟩ := distributes.sums_to_one o' same
    obtain ⟨d, result', run, returns', columns⟩ := exteriorFactors_spec o' calls'
    obtain rfl : result = result' := Except.ok.inj (returns.symm.trans returns')
    have larger := total_of_polluted_first calls' first (same.cData ▸ polluted) run
    have template : t ∈ g.templates := mem_of_getElem? atIdx
    rw [(columns idx t atIdx).1, map_map] at one
    have sum := sum_sharing o' m template ((d.entryTotals t.entry).getD 0)
    have positive : 0 < (d.entryTotals t.entry).getD 0 := lt_of_le_of_lt (entryTotal_nonneg _ _ _ _) larger
    have equal : entryTotal o'.cData o'.visits m t.entry = (d.entryTotals t.entry).getD 0 :=
      (div_eq_one_iff_eq positive.ne').mp (sum.symm.trans one)
    exact absurd larger equal.not_lt
  · intro clean
    have template : t ∈ g.templates := mem_of_getElem? atIdx
    refine ⟨fun o' same => ?_, fun o' same result result' returns returns' => ?_⟩
    · obtain ⟨result, returns, column, -⟩ :=
        column_of_clean (chosen_reordered same calls) atIdx (entryClean_reordered same clean)
      refine ⟨result, returns, fun factor member => ?_, ?_⟩
      · rw [column] at member
        obtain ⟨r, -, rfl⟩ := mem_map.mp member
        exact div_nonneg (value_nonneg o' m r t.entry) (entryTotal_nonneg _ _ _ _)
      · rw [column, map_map]
        apply (sum_sharing o' m template _).trans
        exact div_self (entryTotal_reordered same m t.entry ▸ nonzero)
    · obtain ⟨left, leftReturns, leftColumn, leftEC⟩ := column_of_clean calls atIdx clean
      obtain ⟨right, rightReturns, rightColumn, rightEC⟩ :=
        column_of_clean (chosen_reordered same calls) atIdx (entryClean_reordered same clean)
      obtain rfl := Except.ok.inj (returns.symm.trans leftReturns)
      obtain rfl := Except.ok.inj (returns'.symm.trans rightReturns)
      rw [leftColumn, rightColumn, leftEC, rightEC]
      constructor
      · rw [← entryTotal_reordered same]
        simp only [← value_reordered same]
        exact (sharing_reordered same m).map _
      · simp only [← value_reordered same]
        exact congrArg some (Bool.eq_iff_iff.mpr (by
          rw [any_eq_true, any_eq_true]
          simp only [same.reconsts.mem_iff]))

/-- A kernel that is an entry point itself. -/
def kernelGraph : ContextFlowGraph ℕ String Unit where
  scope := 1
  templates := [⟨7, []⟩]
  handler := structFileHandler
  entries := [7]
  siblings := []
  sorted := pairwise_singleton _ _
  no_suffix := pairwise_singleton _ _
  entries_nodup := nodup_singleton 7
  mem_entries := by simp [eq_comm]
  siblings_nodup := nodup_nil
  mem_siblings := by simp
  not_recursive := by simp

def onlyCounted : MetricValues String where
  cells := [("GKER:COUNT", 1)]
  distinct := nodup_singleton _
  nonneg := by simp

def alsoSampled : MetricValues String where
  cells := [("GKER:COUNT", 1), ("GKER:SAMPLED_COUNT", 1)]
  distinct := by simp
  nonneg := by simp

/-- The kernel is launched from two contexts, and the second launch is sampled. -/
def sampledOnce : ReconstructionGroup kernelGraph ℕ ℕ where
  reconsts := [1, 2]
  entries r := [(7, r)]
  cData c := if c = 1 then some onlyCounted else some alsoSampled
  reconsts_nodup := by simp
  entries_perm _ := List.Perm.refl [7]

lemma sampledOnce_chosen : Chosen kernelGraph.handler sampledOnce.seen "GKER:SAMPLED_COUNT" := by
  unfold Chosen
  decide

lemma sampledOnce_results : entryTotal sampledOnce.cData sampledOnce.visits "GKER:SAMPLED_COUNT" 7 ≠ 0 ∧
    (exteriorFactors sampledOnce).toOption.map (fun result => ((result.column 0).map Prod.snd).sum) = some (1 / 2) := by
  decide +kernel

theorem sampledOnce_iff : Distributes sampledOnce 0 ↔ EntryClean sampledOnce "GKER:SAMPLED_COUNT" 7 :=
  exterior_factors_iff (t := ⟨7, []⟩) rfl sampledOnce_chosen sampledOnce_results.1

/-- The only factor is a half. -/
theorem sampledOnce_not_distributes : Chosen kernelGraph.handler sampledOnce.seen "GKER:SAMPLED_COUNT" ∧
    entryTotal sampledOnce.cData sampledOnce.visits "GKER:SAMPLED_COUNT" 7 ≠ 0 ∧ ¬ Distributes sampledOnce 0 := by
  refine ⟨sampledOnce_chosen, sampledOnce_results.1, fun distributes => ?_⟩
  have same : sampledOnce.Reordered sampledOnce := ⟨List.Perm.refl _, fun _ => List.Perm.refl _, rfl⟩
  obtain ⟨result, returns, -, one⟩ := distributes.sums_to_one sampledOnce same
  have half := sampledOnce_results.2
  rw [returns] at half
  have equal : ((result.column 0).map Prod.snd).sum = 1 / 2 := Option.some.inj half
  rw [one] at equal
  norm_num at equal

end HpcToolkit.FlowGraph
