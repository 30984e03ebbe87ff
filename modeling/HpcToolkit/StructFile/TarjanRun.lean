import HpcToolkit.StructFile.Tarjan

/-! # Tarjan's algorithm finds the components

A first visit adds a segment to the stack and lowers the index of its function to that of everything below the segment
that is called from it. The lambda `scc` returns with this for every function as long as its fuel exceeds the number of
functions that are still to visit, so that the loop over all functions ends with the components of the graph.
-/

open List

namespace HpcToolkit.StructFile

open Lib Relation

variable {F : Type} [DecidableEq F]

namespace Tarjan

/-- What the first visit of a function has done. -/
structure Visit (graph : CallGraph F) (path : List F) (t : Tarjan F) (func : F) (t' : Tarjan F) : Prop where
  inv : Inv graph t' path
  kept : ∀ x, t.Visited x → t'.Visited x ∧ t'.num x = t.num x
  states : ∀ x ∈ t.active, t'.states x = t.states x
  visited : t'.Visited func
  fresh : t.numEncountered ≤ t'.num func
  stack : ∃ new, t'.active = new ++ t.active ∧
    ∀ x ∈ new, ∀ y ∈ t.active, graph.CalledBy x y → t'.low func ≤ t.num y
  lowest : t'.low func = t'.num func ∨
    ∃ y ∈ t'.active, t'.low func = t'.num y ∧ ReflTransGen graph.CalledBy func y

/-- What the loop over the callers of a function has done, with those that it is done with. -/
structure Scan (graph : CallGraph F) (path : List F) (t : Tarjan F) (func : F) (done : List F) (u : Tarjan F) :
    Prop where
  inv : Inv graph u (func :: path)
  kept : ∀ x, t.Visited x → u.Visited x ∧ u.num x = t.num x
  states : ∀ x ∈ t.active, u.states x = t.states x
  num : u.num func = t.numEncountered
  stack : ∃ new, u.active = new ++ [func] ++ t.active ∧
    ∀ x ∈ new, ∀ y ∈ t.active, graph.CalledBy x y → u.low func ≤ t.num y
  callers : ∀ caller ∈ done, u.Visited caller ∧ (caller ∈ t.active → u.low func ≤ t.num caller)
  low_le : u.low func ≤ u.num func
  lowest : ∃ y ∈ u.active, u.low func = u.num y ∧ ReflTransGen graph.CalledBy func y

variable {graph : CallGraph F} {path done : List F} {t u u' : Tarjan F} {func caller x y : F}

lemma Scan.enter (inv : Inv graph t path) (fresh : ¬ t.Visited func)
    (reach : ∀ x ∈ t.active, ReflTransGen graph.CalledBy x func) :
    Scan graph path t func [] (t.enter func) := by
  have other : ∀ x, t.Visited x → x ≠ func := by
    rintro x visited rfl
    exact fresh visited
  constructor
  case inv => exact inv.enter fresh reach
  case kept =>
    intro x visited
    exact ⟨(enter_visited t func x).mpr (.inr visited), num_congr (enter_states t func x (other x visited))⟩
  case states => exact fun x here => enter_states t func x (other x (inv.visited x here))
  case num => exact enter_num t func
  case stack => exact ⟨[], rfl, by simp⟩
  case callers => simp
  case low_le => rw [enter_low, enter_num]
  case lowest => exact ⟨func, mem_cons_self, by rw [enter_low, enter_num], .refl⟩

section
variable (scan : Scan graph path t func done u)
include scan

lemma Scan.mem_active : func ∈ u.active :=
  scan.inv.onStack func mem_cons_self

lemma Scan.visited : u.Visited func :=
  scan.inv.visited func scan.mem_active

lemma Scan.active_mono (here : x ∈ t.active) : x ∈ u.active := by
  obtain ⟨new, stack, -⟩ := scan.stack
  rw [stack]
  exact mem_append_right _ here

lemma Scan.num_below (here : x ∈ t.active) : u.num x = t.num x :=
  num_congr (scan.states x here)

lemma Scan.not_mem : func ∉ t.active := by
  obtain ⟨new, stack, -⟩ := scan.stack
  intro here
  exact lt_irrefl _ (scan.inv.above_rest stack (x := func) (by simp) here)

end

lemma lower_eq (first : Bool) (visited : u.Visited func) (visitedCaller : u.Visited caller) :
    u.lower func caller first = some (u.setLow func
      (if first then min (u.low func) (u.low caller)
        else if u.flag caller then min (u.low func) (u.num caller) else u.low func)) := by
  obtain ⟨state, here⟩ := Option.ne_none_iff_exists'.mp visited
  obtain ⟨callerState, there⟩ := Option.ne_none_iff_exists'.mp visitedCaller
  simp [lower, setLow, low, flag, num, here, there]

lemma Scan.lower_old (scan : Scan graph path t func done u) (edge : graph.CalledBy func caller)
    (old : u.Visited caller) :
    Scan graph path t func (done ++ [caller])
      (u.setLow func (if u.flag caller then min (u.low func) (u.num caller) else u.low func)) := by
  generalize lowered : (if u.flag caller then min (u.low func) (u.num caller) else u.low func) = root
  have le : root ≤ u.low func := by
    rw [← lowered]
    split <;> omega
  have low : (u.setLow func root).low func = root := setLow_low u func root scan.visited
  constructor
  case inv => exact scan.inv.setLow func root
  case kept => simpa using scan.kept
  case states =>
    intro x here
    rw [setLow_states _ _ _ _ (ne_of_mem_of_not_mem here scan.not_mem), scan.states x here]
  case num => simpa using scan.num
  case stack =>
    obtain ⟨new, stack, bound⟩ := scan.stack
    rw [low]
    exact ⟨new, stack, fun x here y below edge => le.trans (bound x here y below edge)⟩
  case callers =>
    intro c mem
    rw [low, setLow_visited]
    rcases mem_append.mp mem with before | last
    · obtain ⟨visited, bound⟩ := scan.callers c before
      exact ⟨visited, fun below => le.trans (bound below)⟩
    · obtain rfl := mem_singleton.mp last
      refine ⟨old, fun below => ?_⟩
      have flagged := (scan.inv.flagged c).mpr (scan.active_mono below)
      rw [← lowered, if_pos flagged, ← scan.num_below below]
      exact min_le_right _ _
  case low_le =>
    rw [low, setLow_num]
    exact le.trans scan.low_le
  case lowest =>
    simp only [low, setLow_num, setLow_active]
    obtain ⟨y, here, same, reach⟩ := scan.lowest
    split at lowered
    · rename_i flagged
      rcases min_choice (u.low func) (u.num caller) with left | right
      · exact ⟨y, here, by omega, reach⟩
      · exact ⟨caller, (scan.inv.flagged caller).mp flagged, by omega, .single edge⟩
    · exact ⟨y, here, by omega, reach⟩

lemma Scan.lower_new (scan : Scan graph path t func done u) (edge : graph.CalledBy func caller)
    (fresh : ¬ u.Visited caller) (visit : Visit graph (func :: path) u caller u') :
    Scan graph path t func (done ++ [caller]) (u'.setLow func (min (u'.low func) (u'.low caller))) := by
  have sameStates : u'.states func = u.states func := visit.states func scan.mem_active
  have sameLow : u'.low func = u.low func := low_congr sameStates
  have sameNum : u'.num func = u.num func := num_congr sameStates
  have visited : u'.Visited func := (visit.kept func scan.visited).1
  have low := setLow_low u' func (min (u.low func) (u'.low caller)) visited
  rw [sameLow]
  obtain ⟨deep, stack', bound'⟩ := visit.stack
  have up : ∀ x ∈ u.active, x ∈ u'.active := by
    intro x here
    rw [stack']
    exact mem_append_right _ here
  constructor
  case inv => exact visit.inv.setLow func _
  case kept =>
    intro x old
    obtain ⟨visitedX, numX⟩ := scan.kept x old
    rw [setLow_visited, setLow_num, (visit.kept x visitedX).2, numX]
    exact ⟨(visit.kept x visitedX).1, rfl⟩
  case states =>
    intro x here
    rw [setLow_states _ _ _ _ (ne_of_mem_of_not_mem here scan.not_mem), visit.states x (scan.active_mono here),
      scan.states x here]
  case num => rw [setLow_num, sameNum, scan.num]
  case stack =>
    obtain ⟨new, stack, bound⟩ := scan.stack
    refine ⟨deep ++ new, ?_, ?_⟩
    · rw [setLow_active, stack', stack]
      simp
    · intro x here y below called
      rw [low]
      rcases mem_append.mp here with inDeep | inNew
      · have := bound' x inDeep y (scan.active_mono below) called
        rw [scan.num_below below] at this
        exact (min_le_right _ _).trans this
      · exact (min_le_left _ _).trans (bound x inNew y below called)
  case callers =>
    intro c mem
    rw [low, setLow_visited]
    rcases mem_append.mp mem with before | last
    · obtain ⟨visitedC, bound⟩ := scan.callers c before
      exact ⟨(visit.kept c visitedC).1, fun below => (min_le_left _ _).trans (bound below)⟩
    · obtain rfl := mem_singleton.mp last
      exact ⟨visit.visited, fun below => absurd (scan.inv.visited c (scan.active_mono below)) fresh⟩
  case low_le =>
    rw [low, setLow_num, sameNum]
    exact (min_le_left _ _).trans scan.low_le
  case lowest =>
    simp only [low, setLow_num, setLow_active]
    have numbered := scan.inv.numbered func scan.visited
    have le := scan.low_le
    rcases min_choice (u.low func) (u'.low caller) with left | right
    · obtain ⟨y, here, same, reach⟩ := scan.lowest
      refine ⟨y, up y here, ?_, reach⟩
      rw [left, same, (visit.kept y (scan.inv.visited y here)).2]
    · rw [right]
      rcases visit.lowest with itself | ⟨y, here, same, reach⟩
      · have := visit.fresh
        omega
      · exact ⟨y, here, same, reach.head edge⟩

lemma close_eq (visited : u.Visited func) :
    u.close func = if u.num func = u.low func then popComponent func u.active u else some u := by
  obtain ⟨state, here⟩ := Option.ne_none_iff_exists'.mp visited
  simp [close, num, low, here]

lemma Scan.inside (scan : Scan graph path t func (graph.callers func) u) {new : List F}
    (stack : u.active = new ++ [func] ++ t.active)
    (bound : ∀ x ∈ new, ∀ y ∈ t.active, graph.CalledBy x y → u.low func ≤ t.num y)
    (isRoot : u.num func = u.low func) (here : x ∈ new ++ [func]) (below : y ∈ t.active) :
    ¬ graph.CalledBy x y := by
  intro edge
  have under : t.num y < u.num func := by
    rw [← scan.num_below below]
    exact scan.inv.above_rest stack (by simp) below
  have le : u.low func ≤ t.num y := by
    rcases mem_append.mp here with inNew | last
    · exact bound x inNew y below edge
    · rw [mem_singleton.mp last] at edge
      exact (scan.callers y edge).2 below
  omega

lemma Scan.close (scan : Scan graph path t func (graph.callers func) u) :
    ∃ t', u.close func = some t' ∧ Visit graph path t func t' := by
  rw [close_eq scan.visited]
  obtain ⟨new, stack, bound⟩ := scan.stack
  have callers : ∀ y, graph.CalledBy func y → u.Visited y := fun y edge => (scan.callers y edge).1
  split
  case isTrue isRoot =>
    have nodup := scan.inv.nodup_segment stack
    have visited : ∀ x ∈ new ++ [func], u.Visited x := by
      intro x here
      apply scan.inv.visited
      rw [stack]
      exact mem_append_left _ here
    obtain ⟨t', ran, popped⟩ := popComponent_popped new t.active u nodup visited
    refine ⟨t', ?_, ?_⟩
    · rw [stack, append_assoc]
      exact ran
    constructor
    case inv => exact scan.inv.settle stack callers (fun x here y => scan.inside stack bound isRoot here) popped
    case kept =>
      intro x old
      rw [popped.visited, popped.num]
      exact scan.kept x old
    case states =>
      intro x here
      rw [popped.states x, scan.states x here]
      intro inside
      exact lt_irrefl _ (scan.inv.above_rest stack inside here)
    case visited => exact (popped.visited func).mpr scan.visited
    case fresh => rw [popped.num, scan.num]
    case stack => exact ⟨[], popped.active, by simp⟩
    case lowest =>
      rw [popped.low, popped.num]
      exact .inl isRoot.symm
  case isFalse notRoot =>
    obtain ⟨y, here, same, reach⟩ := scan.lowest
    have less : u.num y < u.num func := by
      have := scan.low_le
      omega
    refine ⟨u, rfl, ?_⟩
    constructor
    case inv => exact scan.inv.leave callers ⟨y, here, less, reach⟩
    case kept => exact scan.kept
    case states => exact scan.states
    case visited => exact scan.visited
    case fresh => exact scan.num.ge
    case stack =>
      refine ⟨new ++ [func], stack, ?_⟩
      intro x inside z below edge
      rcases mem_append.mp inside with inNew | last
      · exact bound x inNew z below edge
      · rw [mem_singleton.mp last] at edge
        exact (scan.callers z edge).2 below
    case lowest => exact .inr ⟨y, here, same, reach⟩

/-- The number of functions that are still to visit. -/
def unvisited (graph : CallGraph F) (t : Tarjan F) : Nat :=
  (graph.funcs.toFinset.filter fun func => (t.states func).isNone).card

lemma unvisited_le (mono : ∀ x, t.Visited x → u.Visited x) : unvisited graph u ≤ unvisited graph t := by
  apply Finset.card_le_card
  apply Finset.monotone_filter_right
  intro x _ fresh
  by_contra visited
  rw [Option.isNone_iff_eq_none] at fresh visited
  exact mono x visited fresh

lemma unvisited_enter (graph : CallGraph F) (fresh : ¬ t.Visited func) :
    unvisited graph (t.enter func) < unvisited graph t := by
  have isFresh : t.states func = none := not_not.mp fresh
  apply Finset.card_lt_card
  rw [Finset.ssubset_iff_of_subset]
  · exact ⟨func, by simp [isFresh, graph.mem_funcs], by simp [enter]⟩
  · apply Finset.monotone_filter_right
    intro x _ unseen
    rw [Option.isNone_iff_eq_none] at unseen ⊢
    by_contra visited
    exact (enter_visited t func x).mpr (.inr visited) unseen

/-- What a call of `scc` returns. -/
def Returns (graph : CallGraph F) (path : List F) (t : Tarjan F) (func : F) : Tarjan F × Bool → Prop
  | (t', false) => t' = t ∧ t.Visited func
  | (t', true) => ¬ t.Visited func ∧ Visit graph path t func t'

lemma scan_callers {fuel : Nat}
    (visits : ∀ (t : Tarjan F) path func, Inv graph t path → (∀ x ∈ t.active, ReflTransGen graph.CalledBy x func) →
      unvisited graph t < fuel → ∃ result, scc graph fuel func t = some result ∧ Returns graph path t func result)
    (todo done : List F) (u : Tarjan F) (edges : ∀ caller ∈ todo, graph.CalledBy func caller)
    (scan : Scan graph path t func done u) (enough : unvisited graph u < fuel) :
    ∃ u', todo.foldlM (fun t caller => do
        let (t, first) ← scc graph fuel caller t
        t.lower func caller first) u = some u' ∧ Scan graph path t func (done ++ todo) u' := by
  induction todo generalizing done u with
  | nil => exact ⟨u, rfl, by simpa using scan⟩
  | cons caller todo ih =>
    have edge := edges caller mem_cons_self
    obtain ⟨⟨u', first⟩, ran, returns⟩ := visits u (func :: path) caller scan.inv
      (fun x here => (scan.inv.reaches_top here).tail edge) enough
    have lowered : ∃ next, u'.lower func caller first = some next ∧ Scan graph path t func (done ++ [caller]) next ∧
        ∀ x, u.Visited x → next.Visited x := by
      cases first with
      | false =>
        obtain ⟨rfl, old⟩ := returns
        exact ⟨_, lower_eq false scan.visited old, scan.lower_old edge old, by simp⟩
      | true =>
        obtain ⟨fresh, visit⟩ := returns
        have visited := (visit.kept func scan.visited).1
        refine ⟨_, lower_eq true visited visit.visited, scan.lower_new edge fresh visit, ?_⟩
        intro x old
        exact (setLow_visited _ _ _ _).mpr (visit.kept x old).1
    obtain ⟨next, lower, scanNext, mono⟩ := lowered
    obtain ⟨final, rest, scanFinal⟩ := ih (done ++ [caller]) next
      (fun c mem => edges c (mem_cons_of_mem _ mem)) scanNext ((unvisited_le mono).trans_lt enough)
    refine ⟨final, ?_, by simpa using scanFinal⟩
    simp only [foldlM_cons, ran, Option.bind_eq_bind, Option.bind_some, lower]
    exact rest

end Tarjan

open Tarjan

variable {graph : CallGraph F}

lemma scc_returns (fuel : Nat) (t : Tarjan F) (path : List F) (func : F) (inv : Inv graph t path)
    (reach : ∀ x ∈ t.active, ReflTransGen graph.CalledBy x func) (enough : unvisited graph t < fuel) :
    ∃ result, scc graph fuel func t = some result ∧ Returns graph path t func result := by
  induction fuel generalizing t path func with
  | zero => exact absurd enough (Nat.not_lt_zero _)
  | succ fuel ih =>
    rw [scc]
    split
    case isTrue old => exact ⟨_, rfl, rfl, Option.isSome_iff_ne_none.mp old⟩
    case isFalse unseen =>
      have fresh : ¬ t.Visited func := fun visited => unseen (Option.isSome_iff_ne_none.mpr visited)
      have less := unvisited_enter graph fresh
      obtain ⟨u, ran, scan⟩ := scan_callers ih (graph.callers func) [] (t.enter func) (fun _ mem => mem)
        (.enter inv fresh reach) (by omega)
      obtain ⟨t', closed, visit⟩ := scan.close
      refine ⟨(t', true), ?_, fresh, visit⟩
      rw [ran]
      simp [closed]

lemma visit_funcs (graph : CallGraph F) (todo : List F) (t : Tarjan F) (inv : Inv graph t []) :
    ∃ t', todo.foldlM (fun t func => do
        let (t, _) ← scc graph (graph.funcs.length + 1) func t
        return t) t = some t' ∧ Inv graph t' [] ∧ (∀ x, t.Visited x → t'.Visited x) ∧ ∀ x ∈ todo, t'.Visited x := by
  induction todo generalizing t with
  | nil => exact ⟨t, rfl, inv, fun _ => id, by simp⟩
  | cons func todo ih =>
    have enough : unvisited graph t < graph.funcs.length + 1 := by
      apply Nat.lt_succ_of_le
      exact (Finset.card_filter_le _ _).trans (toFinset_card_le _)
    obtain ⟨⟨next, first⟩, ran, returns⟩ := scc_returns (graph.funcs.length + 1) t [] func inv
      (by simp [inv.active_nil]) enough
    have after : Inv graph next [] ∧ (∀ x, t.Visited x → next.Visited x) ∧ next.Visited func := by
      cases first with
      | false =>
        obtain ⟨rfl, old⟩ := returns
        exact ⟨inv, fun _ => id, old⟩
      | true => exact ⟨returns.2.inv, fun x old => (returns.2.kept x old).1, returns.2.visited⟩
    obtain ⟨invNext, mono, visited⟩ := after
    obtain ⟨t', rest, invFinal, monoFinal, visitedTodo⟩ := ih next invNext
    refine ⟨t', ?_, invFinal, fun x old => monoFinal x (mono x old), ?_⟩
    · simp only [foldlM_cons, ran, Option.bind_eq_bind, Option.bind_some, Option.pure_def]
      exact rest
    · intro x mem
      rcases mem_cons.mp mem with rfl | mem
      · exact monoFinal x visited
      · exact visitedTodo x mem

/-- The maps that Tarjan's algorithm fills describe the components. -/
structure Components (graph : CallGraph F) (t : Tarjan F) : Prop where
  visited : ∀ x, t.Visited x
  total : ∀ x, ∃ r, t.sccRoots x = some r
  together : ∀ x r, t.sccRoots x = some r → Mutual graph.CalledBy r x
  whole : ∀ x y r, t.sccRoots x = some r → Mutual graph.CalledBy x y → t.sccRoots y = some r
  listed : ∀ r x, (r, x) ∈ t.sccs ↔ t.sccRoots x = some r
  first : ∀ x r, t.sccRoots x = some r → t.num r ≤ t.num x

lemma findComponents_components (graph : CallGraph F) :
    ∃ t, findComponents graph = some t ∧ Components graph t := by
  obtain ⟨t, ran, inv, -, visited⟩ := visit_funcs graph graph.funcs {} .initial
  refine ⟨t, ran, ?_⟩
  constructor
  case visited => exact fun x => visited x (graph.mem_funcs x)
  case total =>
    intro x
    apply Option.ne_none_iff_exists'.mp
    apply (inv.settled x).mpr
    exact ⟨visited x (graph.mem_funcs x), by simp [inv.active_nil]⟩
  case together => exact fun x r isRoot => (inv.root x r isRoot).1
  case whole => exact inv.whole
  case listed => exact inv.listed
  case first => exact fun x r isRoot => (inv.root x r isRoot).2.1

lemma Components.same_root_iff {t : Tarjan F} (components : Components graph t) {x y r s : F}
    (rootX : t.sccRoots x = some r) (rootY : t.sccRoots y = some s) : r = s ↔ Mutual graph.CalledBy x y := by
  constructor
  · rintro rfl
    exact (components.together x r rootX).symm.trans (components.together y r rootY)
  · intro same
    exact Option.some.inj ((components.whole x y r rootX same).symm.trans rootY)

end HpcToolkit.StructFile
