import HpcToolkit.Lib.PrefixFree

/-! # Flow graphs of missing callers

A template is a way from an entry function to the scope of the graph: the entry and the call instructions on the way.
When a graph is frozen its templates are sorted by their reversed paths, and no path may be a suffix of another one.
-/

open List hiding getElem?_eq_some_iff
open Prod (fst)

namespace HpcToolkit.FlowGraph

/-- What ends a calculation: `util::log::fatal`, an `at` that finds nothing, or the fuel of the model. -/
inductive Failure where
  | fatal
  | lookup
  | fuel

variable {A B : Type} {l : List A} {f : A → Except Failure B}

lemma mapM_ok {value : A → B}
    (each : ∀ a ∈ l, f a = .ok (value a)) : l.mapM f = .ok (l.map value) := by
  induction l with
  | nil => rfl
  | cons a l ih =>
    rw [mapM_cons, each a mem_cons_self, ih fun b member => each b (mem_cons_of_mem _ member)]
    rfl

lemma ok_of_mapM {results : List B}
    (run : l.mapM f = .ok results) : ∀ a ∈ l, ∃ b, f a = .ok b := by
  induction l generalizing results with
  | nil => exact fun a absent => absurd absent not_mem_nil
  | cons a l ih =>
    rw [mapM_cons] at run
    cases first : f a with
    | error failure => rw [first] at run; cases run
    | ok b =>
      cases rest : l.mapM f with
      | error failure => rw [first, rest] at run; cases run
      | ok bs =>
        intro c member
        rcases mem_cons.mp member with rfl | later
        · exact ⟨b, first⟩
        · exact ih rest c later

structure Template (Scope : Type) where
  entry : Scope
  path : List Scope

structure MetricHandling where
  exterior : Bool
  exteriorLogical : Bool
  interior : Bool

/-- The handler of a graph. Up to two metrics may be exterior if `exteriorLogical` differs, one may be interior. -/
structure Handler (Metric : Type) where
  handling : Metric → MetricHandling
  exterior_unique : ∀ m n, (handling m).exterior → (handling n).exterior →
    (handling m).exteriorLogical = (handling n).exteriorLogical → m = n
  interior_unique : ∀ m n, (handling m).interior → (handling n).interior → m = n

/-- The handler that the structure files set: instruction counts are interior, kernel launches exterior. -/
def structFileHandler : Handler String where
  handling name :=
    if name = "GINS" then ⟨false, false, true⟩
    else if name = "GKER:COUNT" then ⟨true, true, false⟩
    else if name = "GKER:SAMPLED_COUNT" then ⟨true, false, false⟩
    else ⟨false, false, false⟩
  exterior_unique m n := by
    split_ifs <;> simp_all
  interior_unique m n := by
    split_ifs <;> simp_all

section HashMap

variable {K V : Type} [DecidableEq K]

/-- `find` of a hash map with these cells in its order. -/
def atKey (cells : List (K × V)) (k : K) : Option V :=
  (cells.find? (·.1 = k)).map Prod.snd

@[simp] lemma atKey_nil (k : K) : atKey ([] : List (K × V)) k = none := rfl

lemma atKey_cons (cell : K × V) (cells : List (K × V)) (k : K) :
    atKey (cell :: cells) k = if cell.1 = k then some cell.2 else atKey cells k := by
  by_cases here : cell.1 = k <;> simp [atKey, here]

variable {cells : List (K × V)}

lemma atKey_eq_some_iff (distinct : (cells.map fst).Nodup) {k : K} {v : V} :
    atKey cells k = some v ↔ (k, v) ∈ cells := by
  rw [atKey, Option.map_eq_some_iff]
  constructor
  · rintro ⟨⟨j, w⟩, found, rfl⟩
    obtain rfl : j = k := by simpa using find?_some found
    exact mem_of_find?_eq_some found
  · intro member
    obtain ⟨cell, found⟩ : ∃ cell, cells.find? (·.1 = k) = some cell :=
      Option.isSome_iff_exists.mp (find?_isSome.mpr ⟨_, member, by simp⟩)
    have key : cell.1 = k := by simpa using find?_some found
    have same := inj_on_of_nodup_map distinct (mem_of_find?_eq_some found) member key
    exact ⟨cell, found, by rw [same]⟩

lemma atKey_isSome_iff {k : K} : (atKey cells k).isSome ↔ k ∈ cells.map fst := by
  simp [atKey]

end HashMap

/-- The values of one context by metric, in the order of the hash map. -/
structure MetricValues (Metric : Type) where
  cells : List (Metric × ℚ)
  distinct : (cells.map fst).Nodup
  nonneg : ∀ cell ∈ cells, 0 ≤ cell.2

namespace MetricValues

variable {Metric : Type} [DecidableEq Metric]

def find (mvs : MetricValues Metric) (m : Metric) : Option ℚ :=
  atKey mvs.cells m

def metrics (mvs : MetricValues Metric) : List Metric :=
  mvs.cells.map fst

variable {m : Metric} {mvs : MetricValues Metric}

lemma find_isSome_iff : (mvs.find m).isSome ↔ m ∈ mvs.metrics :=
  atKey_isSome_iff

lemma nonneg_of_find {v : ℚ} (found : mvs.find m = some v) : 0 ≤ v :=
  mvs.nonneg _ ((atKey_eq_some_iff mvs.distinct).mp found)

/-- `get(MetricScope::point).value_or(0)` of what `find` gives. -/
def point (mvs : MetricValues Metric) (m : Metric) : ℚ :=
  (mvs.find m).getD 0

lemma point_eq_zero (absent : m ∉ mvs.metrics) : mvs.point m = 0 := by
  rw [point, Option.not_isSome_iff_eq_none.mp (mt find_isSome_iff.mp absent)]
  rfl

lemma point_nonneg (mvs : MetricValues Metric) (m : Metric) : 0 ≤ mvs.point m := by
  rw [point]
  cases found : mvs.find m with
  | none => exact le_rfl
  | some v => exact nonneg_of_find found

end MetricValues

variable {Scope Metric Sibling : Type}

/-- The path from its end, the direction in which templates are sorted. -/
def Template.rpath (t : Template Scope) : List Scope :=
  t.path.reverse

section Freeze

variable [LinearOrder Scope]

/-- A frozen graph. The hash containers `m_entries` and `m_siblings` are in any order. -/
structure ContextFlowGraph (Scope Metric Sibling : Type) [LinearOrder Scope] where
  scope : Scope
  templates : List (Template Scope)
  handler : Handler Metric
  entries : List Scope
  siblings : List (Scope × Sibling)
  sorted : templates.Pairwise fun a b => a.rpath ≤ b.rpath
  no_suffix : templates.Pairwise fun a b => ¬ a.rpath <+: b.rpath
  entries_nodup : entries.Nodup
  mem_entries : ∀ s, s ∈ entries ↔ ∃ t ∈ templates, t.entry = s
  siblings_nodup : (siblings.map fst).Nodup
  mem_siblings : ∀ s, s ∈ siblings.map fst ↔ ∃ t ∈ templates, s ∈ t.path
  not_recursive : scope ∉ siblings.map fst

def sortTemplates (ts : List (Template Scope)) : List (Template Scope) :=
  ts.insertionSort fun a b => a.rpath ≤ b.rpath

omit [LinearOrder Scope] in
/-- The check of neighbours: no longer than the next path, and without a mismatch from the end. -/
def isSuffix [DecidableEq Scope] (a b : Template Scope) : Bool :=
  decide (a.path.length ≤ b.path.length) && decide (a.rpath <+: b.rpath)

/-- `m_siblings`, with a sibling created for every new scope on a path. -/
def addSibling (create : Scope → Option Sibling) (siblings : List (Scope × Sibling)) (s : Scope) :
    Except Failure (List (Scope × Sibling)) :=
  if s ∈ siblings.map fst then .ok siblings
  else match create s with
    | none => .error .fatal
    | some sib => .ok (siblings ++ [(s, sib)])

lemma addSiblings_spec (create : Scope → Option Sibling) (scopes : List Scope) :
    ∀ siblings result, scopes.foldlM (addSibling create) siblings = .ok result →
      (siblings.map Prod.fst).Nodup → (result.map Prod.fst).Nodup ∧
        ∀ s, s ∈ result.map Prod.fst ↔ s ∈ siblings.map Prod.fst ∨ s ∈ scopes := by
  induction scopes with
  | nil =>
    intro siblings result run nodup
    obtain rfl : siblings = result := Except.ok.inj run
    exact ⟨nodup, by simp⟩
  | cons first scopes ih =>
    intro siblings result run nodup
    rw [foldlM_cons] at run
    unfold addSibling at run
    split at run
    · rename_i known
      obtain ⟨nodup, members⟩ := ih siblings result run nodup
      refine ⟨nodup, fun s => ?_⟩
      rw [members, mem_cons]
      constructor
      · exact Or.imp_right Or.inr
      · rintro (old | rfl | new)
        · exact Or.inl old
        · exact Or.inl known
        · exact Or.inr new
    · rename_i fresh
      cases created : create first with
      | none => rw [created] at run; cases run
      | some sib =>
        rw [created] at run
        obtain ⟨nodup, members⟩ := ih (siblings ++ [(first, sib)]) result run (by
          rw [map_append, nodup_append']
          exact ⟨nodup, nodup_singleton _, by simpa using fresh⟩)
        refine ⟨nodup, fun s => ?_⟩
        rw [members, map_append, mem_append, mem_cons, or_assoc]
        simp

lemma sortTemplates_sorted (ts : List (Template Scope)) :
    (sortTemplates ts).Pairwise fun a b => a.rpath ≤ b.rpath := by
  have total : Std.Total fun a b : Template Scope => a.rpath ≤ b.rpath := ⟨fun a b => le_total a.rpath b.rpath⟩
  have trans_le : IsTrans (Template Scope) fun a b => a.rpath ≤ b.rpath := ⟨fun _ _ _ => le_trans⟩
  exact pairwise_insertionSort _ ts

lemma no_suffix_of_neighbours {ts : List (Template Scope)} (sorted : ts.Pairwise fun a b => a.rpath ≤ b.rpath)
    (neighbours : ts.IsChain fun a b => ¬ isSuffix a b) : ts.Pairwise fun a b => ¬ a.rpath <+: b.rpath := by
  have words : (ts.map Template.rpath).Pairwise fun a b => ¬ a <+: b := by
    apply Lib.pairwise_not_prefix (pairwise_map.mpr sorted)
    apply (isChain_map _).mpr
    refine neighbours.imp fun a b free initial => free ?_
    have short := initial.length_le
    rw [Template.rpath, Template.rpath, length_reverse, length_reverse] at short
    simp [isSuffix, short, initial]
  exact pairwise_map.mp words

def freeze (scope : Scope) (added : List (Template Scope)) (handler : Handler Metric)
    (create : Scope → Option Sibling) : Except Failure (ContextFlowGraph Scope Metric Sibling) :=
  if neighbours : (sortTemplates added).IsChain fun a b => ¬ isSuffix a b then
    match filled : ((sortTemplates added).flatMap Template.path).foldlM (addSibling create) [] with
    | .error failure => .error failure
    | .ok siblings =>
      if recursive : scope ∈ siblings.map fst then .error .fatal
      else .ok
        { scope, handler, siblings
          templates := sortTemplates added
          entries := ((sortTemplates added).map Template.entry).dedup
          sorted := sortTemplates_sorted added
          no_suffix := no_suffix_of_neighbours (sortTemplates_sorted added) neighbours
          entries_nodup := nodup_dedup _
          mem_entries := fun s => by simp
          siblings_nodup := (addSiblings_spec create _ _ _ filled nodup_nil).1
          mem_siblings := fun s => by simpa using (addSiblings_spec create _ _ _ filled nodup_nil).2 s
          not_recursive := recursive }
  else .error .fatal

end Freeze

namespace ContextFlowGraph

variable [LinearOrder Scope] (g : ContextFlowGraph Scope Metric Sibling)

lemma rpath_prefix_iff {i j : ℕ} {a b : Template Scope} (left : g.templates[i]? = some a)
    (right : g.templates[j]? = some b) : a.rpath <+: b.rpath ↔ i = j := by
  obtain ⟨inLeft, rfl⟩ := List.getElem?_eq_some_iff.mp left
  obtain ⟨inRight, rfl⟩ := getElem?_eq_some_iff.mp right
  constructor
  · intro initial
    rcases lt_trichotomy i j with before | same | after
    · exact absurd initial (pairwise_iff_getElem.mp g.no_suffix i j inLeft inRight before)
    · exact same
    · have below := pairwise_iff_getElem.mp g.sorted j i inRight inLeft after
      have free := pairwise_iff_getElem.mp g.no_suffix j i inRight inLeft after
      have same := le_antisymm below (Lib.le_of_prefix initial)
      exact absurd (same ▸ prefix_rfl) free
  · rintro rfl
    exact prefix_rfl

end ContextFlowGraph

end HpcToolkit.FlowGraph
