import HpcToolkit.StructFile.TarjanRun

/-! # The roots are the functions that the search meets first

A depth-first search over the callers that keeps nothing but the functions it has met goes through the functions in the
order of their encounter indices. Which function becomes the root of a component therefore depends on the order of the
functions and of the calls alone.
-/

open List hiding pure_def
open Option (bind_eq_bind bind_eq_some_iff pure_def)

namespace HpcToolkit.StructFile

variable {F : Type} [DecidableEq F]

/-- A depth-first search over the callers, with the functions that it has met in their order. -/
def visit (graph : CallGraph F) : Nat → List F → F → Option (List F)
  | 0, _, _ => none
  | fuel + 1, seen, func =>
    if func ∈ seen then some seen else (graph.callers func).foldlM (visit graph fuel) (seen ++ [func])

/-- The functions in the order in which a depth-first search that starts at each of `funcs` meets them. -/
def visitOrder (graph : CallGraph F) : Option (List F) :=
  graph.funcs.foldlM (visit graph (graph.funcs.length + 1)) []

namespace Tarjan

def index (t : Tarjan F) (x : F) : Option Nat := (t.states x).map (·.encounterIndex)

/-- The encounter indices are the positions in `seen`. -/
def Follows (t : Tarjan F) (seen : List F) : Prop :=
  t.numEncountered = seen.length ∧ ∀ x, t.index x = if x ∈ seen then some (seen.idxOf x) else none

variable {t t' : Tarjan F} {seen : List F} {func x : F}

section
variable (follows : t.Follows seen)
include follows

lemma Follows.congr (index : t'.index = t.index)
    (total : t'.numEncountered = t.numEncountered) : t'.Follows seen := by
  rw [Follows, index, total]
  exact follows

lemma Follows.isSome_iff : (t.states func).isSome = true ↔ func ∈ seen := by
  have same : (t.index func).isSome = (t.states func).isSome := Option.isSome_map
  rw [← same, follows.2 func]
  split <;> simp [*]

lemma Follows.num_eq (met : x ∈ seen) : t.num x = seen.idxOf x := by
  have here := follows.2 x
  rw [if_pos met, index, Option.map_eq_some_iff] at here
  obtain ⟨state, known, position⟩ := here
  simp [num, known, position]

lemma Follows.enter (fresh : func ∉ seen) : (t.enter func).Follows (seen ++ [func]) := by
  constructor
  · simp [Tarjan.enter, follows.1]
  · intro x
    by_cases same : x = func
    · subst same
      simp [index, Tarjan.enter, follows.1, idxOf_append, fresh]
    · have old := follows.2 x
      rw [index] at old
      rw [index, enter_states _ _ _ same, old]
      by_cases met : x ∈ seen <;> simp [met, same, idxOf_append]

end

lemma lower_index {caller : F} {first : Bool} (lowered : t.lower func caller first = some t') :
    t'.index = t.index ∧ t'.numEncountered = t.numEncountered := by
  simp only [lower, bind_eq_bind, bind_eq_some_iff, pure_def, Option.some.injEq] at lowered
  obtain ⟨state, here, callerState, -, rfl⟩ := lowered
  refine ⟨funext fun x => ?_, rfl⟩
  by_cases same : x = func <;> simp [index, same, here]

lemma pop_index {sccfunc : F} {rest : List F} (popped : t.pop func sccfunc rest = some t') :
    t'.index = t.index ∧ t'.numEncountered = t.numEncountered := by
  simp only [pop, bind_eq_bind, bind_eq_some_iff, pure_def, Option.some.injEq] at popped
  obtain ⟨state, here, rfl⟩ := popped
  refine ⟨funext fun x => ?_, rfl⟩
  by_cases same : x = sccfunc <;> simp [index, same, here]

lemma popComponent_index (stack : List F) (popped : popComponent func stack t = some t') :
    t'.index = t.index ∧ t'.numEncountered = t.numEncountered := by
  induction stack generalizing t with
  | nil => exact absurd popped (by simp [popComponent])
  | cons sccfunc rest ih =>
    simp only [popComponent, bind_eq_bind, bind_eq_some_iff] at popped
    obtain ⟨next, head, tail⟩ := popped
    obtain ⟨index, total⟩ := pop_index head
    split at tail
    · cases tail
      exact ⟨index, total⟩
    · obtain ⟨indexTail, totalTail⟩ := ih tail
      exact ⟨indexTail.trans index, totalTail.trans total⟩

lemma close_index (closed : t.close func = some t') :
    t'.index = t.index ∧ t'.numEncountered = t.numEncountered := by
  simp only [close, bind_eq_bind, bind_eq_some_iff] at closed
  obtain ⟨state, -, closed⟩ := closed
  split at closed
  · exact popComponent_index t.active closed
  · cases closed
    exact ⟨rfl, rfl⟩

end Tarjan

open Tarjan

variable {graph : CallGraph F}

lemma visit_callers {fuel : Nat} {func : F}
    (visits : ∀ (t t' : Tarjan F) first func seen, scc graph fuel func t = some (t', first) → t.Follows seen →
      ∃ seen', visit graph fuel seen func = some seen' ∧ t'.Follows seen')
    (callers : List F) (t t' : Tarjan F) (seen : List F)
    (ran : callers.foldlM (fun t caller => do
        let (t, first) ← scc graph fuel caller t
        t.lower func caller first) t = some t') (follows : t.Follows seen) :
    ∃ seen', callers.foldlM (visit graph fuel) seen = some seen' ∧ t'.Follows seen' := by
  induction callers generalizing t seen with
  | nil =>
    cases ran
    exact ⟨seen, rfl, follows⟩
  | cons caller callers ih =>
    rw [foldlM_cons, bind_eq_bind, bind_eq_some_iff] at ran
    obtain ⟨next, step, rest⟩ := ran
    rw [bind_eq_bind, bind_eq_some_iff] at step
    obtain ⟨⟨u, first⟩, visited, lowered⟩ := step
    obtain ⟨seen₁, met, follows₁⟩ := visits t u first caller seen visited follows
    obtain ⟨index, total⟩ := lower_index lowered
    obtain ⟨seen', metRest, follows'⟩ := ih next seen₁ rest (follows₁.congr index total)
    refine ⟨seen', ?_, follows'⟩
    rw [foldlM_cons, met]
    exact metRest

lemma scc_follows (fuel : Nat) (t t' : Tarjan F) (first : Bool) (func : F) (seen : List F)
    (ran : scc graph fuel func t = some (t', first)) (follows : t.Follows seen) :
    ∃ seen', visit graph fuel seen func = some seen' ∧ t'.Follows seen' := by
  induction fuel generalizing t t' first func seen with
  | zero => exact absurd ran (by simp [scc])
  | succ fuel ih =>
    rw [scc] at ran
    rw [visit]
    split at ran
    case isTrue old =>
      obtain ⟨rfl, rfl⟩ := Prod.mk.inj (Option.some.inj ran)
      exact ⟨seen, if_pos (follows.isSome_iff.mp old), follows⟩
    case isFalse unseen =>
      have fresh : func ∉ seen := fun met => unseen (follows.isSome_iff.mpr met)
      rw [if_neg fresh]
      rw [bind_eq_bind, bind_eq_some_iff] at ran
      obtain ⟨u, scanned, ran⟩ := ran
      rw [bind_eq_some_iff] at ran
      obtain ⟨v, closed, ran⟩ := ran
      obtain ⟨rfl, rfl⟩ := Prod.mk.inj (Option.some.inj ran)
      obtain ⟨seen', met, follows'⟩ := visit_callers ih _ _ _ _ scanned (follows.enter fresh)
      obtain ⟨index, total⟩ := close_index closed
      exact ⟨seen', met, follows'.congr index total⟩

lemma findComponents_follows (todo : List F) (t t' : Tarjan F) (seen : List F)
    (ran : todo.foldlM (fun t func => do
        let (t, _) ← scc graph (graph.funcs.length + 1) func t
        return t) t = some t') (follows : t.Follows seen) :
    ∃ seen', todo.foldlM (visit graph (graph.funcs.length + 1)) seen = some seen' ∧ t'.Follows seen' := by
  induction todo generalizing t seen with
  | nil =>
    obtain rfl := Option.some.inj ran
    exact ⟨seen, rfl, follows⟩
  | cons func todo ih =>
    rw [foldlM_cons, bind_eq_bind, bind_eq_some_iff] at ran
    obtain ⟨next, step, rest⟩ := ran
    rw [bind_eq_bind, bind_eq_some_iff] at step
    obtain ⟨⟨u, first⟩, visited, same⟩ := step
    obtain rfl := Option.some.inj same
    obtain ⟨seen₁, met, follows₁⟩ := scc_follows _ _ _ _ _ _ visited follows
    obtain ⟨seen', metRest, follows'⟩ := ih u seen₁ rest follows₁
    refine ⟨seen', ?_, follows'⟩
    rw [foldlM_cons, met]
    exact metRest

end HpcToolkit.StructFile

/-! # What breaking recursion keeps of the call graph

The reversed call graph that `parse` leaves is the summary of the one it read, where a component is entered through its
root. It has no cycle, so that the enumeration of paths in `resolve` ends, and it connects no functions that the calls
did not connect. It keeps all connections between components only for graphs whose components are always entered
through the root, or at the function that is asked for.
-/

namespace HpcToolkit.StructFile

open Lib Relation

/-- The calls of a call graph. -/
def CallsIn {F : Type} (rcg : List (Call F)) (caller callee : F) : Prop :=
  ∃ call ∈ rcg, call.caller = caller ∧ call.callee = callee

variable {F : Type} [DecidableEq F] {graph : CallGraph F} {order : List F} {t : Tarjan F}

lemma calledBy_eq (graph : CallGraph F) : graph.CalledBy = Function.swap (CallsIn graph.rcg) := by
  funext callee caller
  simp only [CallGraph.CalledBy, CallGraph.callers, Function.swap, CallsIn, mem_map, mem_filter,
    decide_eq_true_eq]
  apply propext
  apply exists_congr
  intro call
  tauto

lemma mutual_calledBy {x y : F} : Mutual graph.CalledBy x y ↔ Mutual (CallsIn graph.rcg) x y := by
  rw [calledBy_eq]
  exact mutual_swap

/-- The depth-first search meets `first` before all other functions of the component of `func`. -/
def MetFirst (graph : CallGraph F) (order : List F) (first func : F) : Prop :=
  Mutual (CallsIn graph.rcg) first func ∧
    ∀ other, Mutual (CallsIn graph.rcg) other func → order.idxOf first ≤ order.idxOf other

lemma Components.root_iff (components : Components graph t) (follows : t.Follows order) {r x : F} :
    t.sccRoots x = some r ↔ MetFirst graph order r x := by
  have met : ∀ y, y ∈ order := fun y =>
    follows.isSome_iff.mp (Option.isSome_iff_ne_none.mpr (components.visited y))
  have earliest : ∀ r x other, t.sccRoots x = some r → Mutual graph.CalledBy other x →
      order.idxOf r ≤ order.idxOf other := by
    intro r x other isRoot same
    have le := components.first other r (components.whole x other r isRoot same.symm)
    rwa [follows.num_eq (met r), follows.num_eq (met other)] at le
  constructor
  · intro isRoot
    refine ⟨mutual_calledBy.mp (components.together x r isRoot), fun other same => ?_⟩
    exact earliest r x other isRoot (mutual_calledBy.mpr same)
  · rintro ⟨same, first⟩
    obtain ⟨root, isRoot⟩ := components.total x
    have le := first root (mutual_calledBy.mp (components.together x root isRoot))
    have ge := earliest root x r isRoot (mutual_calledBy.mpr same)
    rw [isRoot, (idxOf_inj (met root)).mp (le_antisymm ge le)]

lemma eraseInternal_spec (components : Components graph t) (rcg : List (Call F)) :
    ∃ kept, eraseInternal t rcg = some kept ∧
      ∀ call, call ∈ kept ↔ call ∈ rcg ∧ ¬ Mutual (CallsIn graph.rcg) call.caller call.callee := by
  induction rcg with
  | nil => exact ⟨[], rfl, by simp⟩
  | cons head rest ih =>
    obtain ⟨kept, ran, mem⟩ := ih
    obtain ⟨calleeRoot, rootCallee⟩ := components.total head.callee
    obtain ⟨callerRoot, rootCaller⟩ := components.total head.caller
    have inside : calleeRoot = callerRoot ↔ Mutual (CallsIn graph.rcg) head.caller head.callee := by
      rw [eq_comm, ← mutual_calledBy]
      exact components.same_root_iff rootCaller rootCallee
    refine ⟨if calleeRoot = callerRoot then kept else head :: kept, ?_, ?_⟩
    · simp [eraseInternal, rootCallee, rootCaller, ran]
    · intro call
      split
      case isTrue same =>
        rw [mem, mem_cons]
        constructor
        · exact fun ⟨there, apart⟩ => ⟨.inr there, apart⟩
        · rintro ⟨rfl | there, apart⟩
          · exact absurd (inside.mp same) apart
          · exact ⟨there, apart⟩
      case isFalse differ =>
        rw [mem_cons, mem_cons, mem]
        constructor
        · rintro (rfl | ⟨there, apart⟩)
          · exact ⟨.inl rfl, fun same => differ (inside.mpr same)⟩
          · exact ⟨.inr there, apart⟩
        · rintro ⟨rfl | there, apart⟩
          · exact .inl rfl
          · exact .inr ⟨there, apart⟩

variable {rcg : List (Call F)}

lemma mem_extraCalls {call : Call F} (components : Components graph t) :
    call ∈ extraCalls t rcg ↔ ∃ entry ∈ rcg, t.sccRoots call.callee = some entry.callee ∧
      call.callee ≠ entry.callee ∧ call = { entry with callee := call.callee } := by
  simp only [extraCalls, mem_flatMap, mem_map, mem_filter, decide_eq_true_eq]
  constructor
  · rintro ⟨entry, there, ⟨root, sib⟩, ⟨⟨listed, rfl⟩, other⟩, rfl⟩
    exact ⟨entry, there, (components.listed _ _).mp listed, other, rfl⟩
  · rintro ⟨entry, there, isRoot, other, same⟩
    exact ⟨entry, there, (entry.callee, call.callee), ⟨⟨(components.listed _ _).mpr isRoot, rfl⟩, other⟩, same.symm⟩

lemma finalRcg_summary (graph : CallGraph F) :
    ∃ rcg order, finalRcg graph = some rcg ∧ visitOrder graph = some order ∧
      CallsIn rcg = Summary (CallsIn graph.rcg) (MetFirst graph order) := by
  obtain ⟨t, ran, components⟩ := findComponents_components graph
  have start : Tarjan.Follows ({} : Tarjan F) [] := ⟨rfl, by simp [Tarjan.index]⟩
  obtain ⟨order, met, follows⟩ := findComponents_follows graph.funcs {} t [] ran start
  obtain ⟨kept, erased, mem⟩ := eraseInternal_spec components graph.rcg
  refine ⟨kept ++ extraCalls t kept, order, by simp [finalRcg, ran, erased], met, ?_⟩
  funext caller callee
  apply propext
  have inside : ∀ r x, t.sccRoots x = some r → Mutual (CallsIn graph.rcg) r x :=
    fun r x isRoot => mutual_calledBy.mp (components.together x r isRoot)
  constructor
  · rintro ⟨call, there, rfl, rfl⟩
    rcases mem_append.mp there with direct | extra
    · obtain ⟨read, apart⟩ := (mem call).mp direct
      exact ⟨apart, .inl ⟨call, read, rfl, rfl⟩⟩
    · obtain ⟨entry, there, isRoot, -, same⟩ := (mem_extraCalls components).mp extra
      obtain ⟨read, apart⟩ := (mem entry).mp there
      rw [same]
      refine ⟨fun whole => apart (whole.trans (inside _ _ isRoot).symm), .inr ⟨entry.callee, ?_, entry, read, rfl, rfl⟩⟩
      exact (components.root_iff follows).mp isRoot
  · rintro ⟨apart, ⟨call, read, rfl, rfl⟩ | ⟨root, first, entry, read, rfl, rfl⟩⟩
    · exact ⟨call, mem_append_left _ ((mem call).mpr ⟨read, apart⟩), rfl, rfl⟩
    · have isRoot := (components.root_iff follows).mpr first
      have there : entry ∈ kept := (mem entry).mpr ⟨read, fun whole => apart (whole.trans (inside _ _ isRoot))⟩
      by_cases same : callee = entry.callee
      · exact ⟨entry, mem_append_left _ there, rfl, same.symm⟩
      · refine ⟨{ entry with callee }, mem_append_right _ ?_, rfl, rfl⟩
        exact (mem_extraCalls components).mpr ⟨entry, there, isRoot, same, rfl⟩

lemma mapM_returns {A B : Type} {f : A → Option B} {items : List A} (returns : ∀ item ∈ items, ∃ b, f item = some b) :
    ∃ results, items.mapM f = some results := by
  induction items with
  | nil => exact ⟨[], rfl⟩
  | cons item items ih =>
    obtain ⟨b, here⟩ := returns item mem_cons_self
    obtain ⟨results, rest⟩ := ih fun item mem => returns item (mem_cons_of_mem _ mem)
    exact ⟨b :: results, by simp [here, rest]⟩

lemma paths_returns (acyclic : ∀ x, ¬ TransGen (CallsIn rcg) x x) {vertices : Finset F}
    (mem : ∀ x, x ∈ vertices) (fuel : Nat) (callee : F) (rpath : List UInt64)
    (enough : rank (TransGen (CallsIn rcg)) vertices callee < fuel) :
    ∃ found, paths rcg fuel callee rpath = some found := by
  induction fuel generalizing callee rpath with
  | zero => exact absurd enough (Nat.not_lt_zero _)
  | succ fuel ih =>
    rw [paths]
    split
    · exact ⟨_, rfl⟩
    · have returns : ∀ call ∈ rcg.filter (·.callee = callee),
          ∃ found, paths rcg fuel call.caller (rpath ++ [call.inst]) = some found := by
        intro call there
        obtain ⟨there, isCallee⟩ := mem_filter.mp there
        apply ih
        have edge : CallsIn rcg call.caller callee := ⟨call, there, rfl, of_decide_eq_true isCallee⟩
        have less := rank_lt (fun _ _ _ => TransGen.trans) acyclic (mem call.caller) (.single edge)
        omega
      obtain ⟨found, ran⟩ := mapM_returns returns
      exact ⟨found.flatten, by simp [ran]⟩

/-- The graph that `parse` leaves is acyclic, `resolve` can enumerate its paths, and between functions of different
components it connects the same ones as the calls that were read. -/
def KeepsReachability (graph : CallGraph F) : Prop :=
  ∃ rcg, finalRcg graph = some rcg ∧ (∀ x, ¬ TransGen (CallsIn rcg) x x) ∧
    (∀ callee, ∃ found, paths rcg (graph.funcs.length + 1) callee [] = some found) ∧
    ∀ f g, ¬ Mutual (CallsIn graph.rcg) f g →
      (ReflTransGen (CallsIn rcg) f g ↔ ReflTransGen (CallsIn graph.rcg) f g)

/-- Breaking recursion keeps what is reachable exactly when the entries into the components are kept: whenever `g` is
reachable from `f` of another component, `f` or a function below it in another component calls, from outside of the
component of `g`, either `g` or the function of this component that the search meets first. -/
theorem keepsReachability_iff (graph : CallGraph F) :
    KeepsReachability graph ↔
      ∃ order, visitOrder graph = some order ∧ EntriesKept (CallsIn graph.rcg) (MetFirst graph order) := by
  obtain ⟨rcg, order, final, met, summary⟩ := finalRcg_summary graph
  have inside : ∀ root y, MetFirst graph order root y → Mutual (CallsIn graph.rcg) root y := fun _ _ first => first.1
  have vertices : ∀ x, x ∈ graph.funcs.toFinset := fun x => mem_toFinset.mpr (graph.mem_funcs x)
  have reach_iff := summary_reach_iff inside graph.funcs.toFinset fun x _ _ => vertices x
  have acyclic : ∀ x, ¬ TransGen (CallsIn rcg) x x := by
    rw [summary]
    exact summary_acyclic inside
  constructor
  · rintro ⟨rcg', final', -, -, same⟩
    obtain rfl := Option.some.inj (final.symm.trans final')
    rw [summary] at same
    exact ⟨order, met, reach_iff.mp same⟩
  · rintro ⟨order', met', kept⟩
    obtain rfl := Option.some.inj (met.symm.trans met')
    refine ⟨rcg, final, acyclic, ?_, ?_⟩
    · intro callee
      apply paths_returns acyclic vertices
      exact Nat.lt_succ_of_le (rank_le.trans (toFinset_card_le _))
    · rw [summary]
      exact reach_iff.mpr kept

inductive SmallModule where
  | even | odd | kernel | leaf
deriving DecidableEq

/-- Two functions that call each other, of which the kernel calls the second and the first calls another one. -/
def enteredBehindRoot : CallGraph SmallModule where
  funcs := [.even, .odd, .kernel, .leaf]
  mem_funcs := by
    intro func
    cases func <;> decide
  rcg := [⟨.odd, 1, .kernel⟩, ⟨.even, 2, .odd⟩, ⟨.odd, 3, .even⟩, ⟨.leaf, 4, .even⟩]

lemma finalRcg_enteredBehindRoot :
    finalRcg enteredBehindRoot = some [⟨.odd, 1, .kernel⟩, ⟨.leaf, 4, .even⟩] := by
  decide

theorem enteredBehindRoot_not_keepsReachability : ¬ KeepsReachability enteredBehindRoot := by
  rintro ⟨rcg, final, -, -, same⟩
  rw [finalRcg_enteredBehindRoot] at final
  cases final
  have reach : ReflTransGen (CallsIn enteredBehindRoot.rcg) .kernel .leaf := by
    apply ReflTransGen.head (b := .odd) ⟨⟨.odd, 1, .kernel⟩, by decide, rfl, rfl⟩
    apply ReflTransGen.head (b := .even) ⟨⟨.even, 2, .odd⟩, by decide, rfl, rfl⟩
    exact .single ⟨⟨.leaf, 4, .even⟩, by decide, rfl, rfl⟩
  have apart : ¬ Mutual (CallsIn enteredBehindRoot.rcg) .kernel .leaf := by
    rintro ⟨-, back⟩
    have stays : SmallModule.kernel = .leaf := by
      apply mem_of_closed (P := (· = .leaf)) _ rfl back
      rintro _ y rfl ⟨call, there, isCaller, rfl⟩
      revert call
      decide
    exact absurd stays (by decide)
  have kept := (same .kernel .leaf apart).mpr reach
  have stays : SmallModule.leaf = .kernel ∨ SmallModule.leaf = .odd := by
    apply mem_of_closed (P := fun x => x = .kernel ∨ x = .odd) _ (.inl rfl) kept
    rintro x _ inside ⟨call, there, rfl, rfl⟩
    revert call
    decide
  exact absurd stays (by decide)

end HpcToolkit.StructFile
