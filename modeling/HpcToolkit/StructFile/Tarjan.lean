import HpcToolkit.Lib.Components

/-! # Breaking recursion in the call graph of a structure file

`StructFileParser::parse` reads the calls of a load module into a reversed call graph. It groups the functions into
strongly connected components with Tarjan's algorithm, erases the calls inside of a component and repeats the remaining
ones for the other functions of the callee's component. `StructFile::resolve` then follows the reversed calls from a
function to every kernel entry point.

The functions are the elements of a type that `funcs` lists in the order of `ud.funcs`, the reversed call graph is the
list of its calls in the order of iteration. What would read past the end of a container is `none`.
-/

open Function List

namespace HpcToolkit.StructFile

/-- An element of `ud.rcg`: the callee, the calling instruction and the caller. -/
structure Call (F : Type) where
  callee : F
  inst : UInt64
  caller : F
deriving DecidableEq

/-- The functions and the calls between them that the tags of a load module give. -/
structure CallGraph (F : Type) where
  funcs : List F
  mem_funcs : ∀ func, func ∈ funcs
  rcg : List (Call F)

structure FuncState where
  encounterIndex : Nat
  rootEncounterIndex : Nat
  isActive : Bool

/-- The variables that the lambda `scc` shares between its calls, and the two maps that it fills. -/
structure Tarjan (F : Type) where
  states : F → Option FuncState := fun _ => none
  active : List F := []
  numEncountered : Nat := 0
  sccs : List (F × F) := []
  sccRoots : F → Option F := fun _ => none

variable {F : Type} [DecidableEq F]

/-- `rcg.equal_range(func)`, with only the callers. -/
def CallGraph.callers (graph : CallGraph F) (func : F) : List F :=
  (graph.rcg.filter (·.callee = func)).map (·.caller)

namespace Tarjan

/-- The first visit of a function. -/
def enter (t : Tarjan F) (func : F) : Tarjan F :=
  { t with
    states := update t.states func (some ⟨t.numEncountered, t.numEncountered, true⟩)
    active := func :: t.active
    numEncountered := t.numEncountered + 1 }

/-- What the loop does after the visit of a caller. -/
def lower (t : Tarjan F) (func caller : F) (first : Bool) : Option (Tarjan F) := do
  let state ← t.states func
  let callerState ← t.states caller
  let root :=
    if first then min state.rootEncounterIndex callerState.rootEncounterIndex
    else if callerState.isActive then min state.rootEncounterIndex callerState.encounterIndex
    else state.rootEncounterIndex
  return { t with states := update t.states func (some { state with rootEncounterIndex := root }) }

/-- One round of the loop that takes a component off the stack. `emplace` keeps the root that a function has. -/
def pop (t : Tarjan F) (func sccfunc : F) (rest : List F) : Option (Tarjan F) := do
  let state ← t.states sccfunc
  return { t with
    sccs := t.sccs ++ [(func, sccfunc)]
    sccRoots := update t.sccRoots sccfunc (t.sccRoots sccfunc <|> some func)
    states := update t.states sccfunc (some { state with isActive := false })
    active := rest }

/-- The loop that takes the component of the root `func` off the stack. -/
def popComponent (func : F) : List F → Tarjan F → Option (Tarjan F)
  | [], _ => none
  | sccfunc :: rest, t => do
    let t ← t.pop func sccfunc rest
    if sccfunc = func then some t else popComponent func rest t

/-- The end of a first visit. -/
def close (t : Tarjan F) (func : F) : Option (Tarjan F) := do
  let state ← t.states func
  if state.encounterIndex = state.rootEncounterIndex then popComponent func t.active t else some t

end Tarjan

/-- The recursive lambda `scc`, which also says whether this was the first visit. -/
def scc (graph : CallGraph F) : Nat → F → Tarjan F → Option (Tarjan F × Bool)
  | 0, _, _ => none
  | fuel + 1, func, t =>
    if (t.states func).isSome then some (t, false)
    else do
      let t ← (graph.callers func).foldlM (fun t caller => do
        let (t, first) ← scc graph fuel caller t
        t.lower func caller first) (t.enter func)
      let t ← t.close func
      return (t, true)

/-- The loop that visits all functions. A visit nests at most as deep as there are functions. -/
def findComponents (graph : CallGraph F) : Option (Tarjan F) :=
  graph.funcs.foldlM (fun t func => do
    let (t, _) ← scc graph (graph.funcs.length + 1) func t
    return t) {}

/-- The loop that erases the calls inside of a component. -/
def eraseInternal (t : Tarjan F) : List (Call F) → Option (List (Call F))
  | [] => some []
  | call :: rest => do
    let calleeRoot ← t.sccRoots call.callee
    let callerRoot ← t.sccRoots call.caller
    let kept ← eraseInternal t rest
    return if calleeRoot = callerRoot then kept else call :: kept

/-- The loop that fills `extra_rcg`. -/
def extraCalls (t : Tarjan F) (rcg : List (Call F)) : List (Call F) :=
  rcg.flatMap fun call =>
    ((t.sccs.filter (·.1 = call.callee)).filter (·.2 ≠ call.callee)).map fun sib => { call with callee := sib.2 }

/-- The reversed call graph that `parse` leaves. -/
def finalRcg (graph : CallGraph F) : Option (List (Call F)) := do
  let t ← findComponents graph
  let rcg ← eraseInternal t graph.rcg
  return rcg ++ extraCalls t rcg

/-- The lambda `dfs` of `resolve`: all paths from a kernel entry point, each with the calling instructions on it. -/
def paths (rcg : List (Call F)) : Nat → F → List UInt64 → Option (List (F × List UInt64))
  | 0, _, _ => none
  | fuel + 1, callee, rpath =>
    let calls := rcg.filter (·.callee = callee)
    if calls.isEmpty then some [(callee, rpath.reverse)]
    else do
      let found ← calls.mapM fun call => paths rcg fuel call.caller (rpath ++ [call.inst])
      return found.flatten

end HpcToolkit.StructFile

/-! # The invariant of Tarjan's algorithm

The visits of `scc` nest along a path of functions. Between any two steps the functions on the stack reach everything
above them, those that are not on the path reach something below them, and what was taken off the stack consists of
whole components. The entry of a function, the end of its visit with and without the loop that empties the stack down
to it each keep this.
-/

namespace HpcToolkit.StructFile

open Lib Relation

variable {F : Type} [DecidableEq F]

/-- The edges that `scc` follows. -/
def CallGraph.CalledBy (graph : CallGraph F) (callee caller : F) : Prop := caller ∈ graph.callers callee

namespace Tarjan

def Visited (t : Tarjan F) (x : F) : Prop := t.states x ≠ none

def num (t : Tarjan F) (x : F) : Nat := (t.states x).elim 0 FuncState.encounterIndex

def low (t : Tarjan F) (x : F) : Nat := (t.states x).elim 0 FuncState.rootEncounterIndex

def flag (t : Tarjan F) (x : F) : Bool := (t.states x).elim false FuncState.isActive

/-- The function was taken off the stack. -/
def Settled (t : Tarjan F) (x : F) : Prop := t.sccRoots x ≠ none

/-- The state of `func` with another `rootEncounterIndex`. -/
def setLow (t : Tarjan F) (func : F) (root : Nat) : Tarjan F :=
  { t with
    states := update t.states func ((t.states func).map ({ · with rootEncounterIndex := root })) }

section SetLow

variable (t : Tarjan F) (func x : F) (root : Nat)

@[simp] lemma setLow_active : (t.setLow func root).active = t.active := rfl

@[simp] lemma setLow_numEncountered : (t.setLow func root).numEncountered = t.numEncountered := rfl

@[simp] lemma setLow_sccRoots : (t.setLow func root).sccRoots = t.sccRoots := rfl

@[simp] lemma setLow_settled : (t.setLow func root).Settled x ↔ t.Settled x := Iff.rfl

@[simp] lemma setLow_visited : (t.setLow func root).Visited x ↔ t.Visited x := by
  by_cases same : x = func
  · subst same
    simp [Visited, setLow]
  · simp [Visited, setLow, same]

@[simp] lemma setLow_num : (t.setLow func root).num x = t.num x := by
  by_cases same : x = func
  · subst same
    cases here : t.states x <;> simp [num, setLow, here]
  · simp [num, setLow, same]

@[simp] lemma setLow_flag : (t.setLow func root).flag x = t.flag x := by
  by_cases same : x = func
  · subst same
    cases here : t.states x <;> simp [flag, setLow, here]
  · simp [flag, setLow, same]

lemma setLow_low (visited : t.Visited func) : (t.setLow func root).low func = root := by
  obtain ⟨state, here⟩ := Option.ne_none_iff_exists'.mp visited
  simp [low, setLow, here]

lemma setLow_states (other : x ≠ func) : (t.setLow func root).states x = t.states x := by
  simp [setLow, other]

end SetLow

section Enter

variable (t : Tarjan F) (func x : F)

lemma enter_visited : (t.enter func).Visited x ↔ x = func ∨ t.Visited x := by
  by_cases same : x = func <;> simp [Visited, enter, same]

@[simp] lemma enter_num : (t.enter func).num func = t.numEncountered := by simp [num, enter]

@[simp] lemma enter_low : (t.enter func).low func = t.numEncountered := by simp [low, enter]

lemma enter_flag : (t.enter func).flag x = true ↔ x = func ∨ t.flag x = true := by
  by_cases same : x = func <;> simp [flag, enter, same]

lemma enter_states (other : x ≠ func) : (t.enter func).states x = t.states x := by simp [enter, other]

end Enter

variable {t t' : Tarjan F} {func x y : F}

omit [DecidableEq F] in
lemma num_congr (same : t'.states x = t.states x) : t'.num x = t.num x := by rw [num, same, num]

omit [DecidableEq F] in
lemma low_congr (same : t'.states x = t.states x) : t'.low x = t.low x := by rw [low, same, low]

/-- What holds between any two steps of the visits that nest along a path, the innermost first. -/
structure Inv (graph : CallGraph F) (t : Tarjan F) (path : List F) : Prop where
  flagged : ∀ x, t.flag x = true ↔ x ∈ t.active
  visited : ∀ x ∈ t.active, t.Visited x
  settled : ∀ x, t.Settled x ↔ t.Visited x ∧ x ∉ t.active
  numbered : ∀ x, t.Visited x → t.num x < t.numEncountered
  sorted : t.active.Pairwise fun x y => t.num y < t.num x
  closed : ∀ x y, t.Settled x → graph.CalledBy x y → t.Settled y
  root : ∀ x r, t.sccRoots x = some r → Mutual graph.CalledBy r x ∧ t.num r ≤ t.num x ∧ t.Settled r
  whole : ∀ x y r, t.sccRoots x = some r → Mutual graph.CalledBy x y → t.sccRoots y = some r
  listed : ∀ r x, (r, x) ∈ t.sccs ↔ t.sccRoots x = some r
  forward : ∀ x ∈ t.active, ∀ y ∈ t.active, t.num x ≤ t.num y → ReflTransGen graph.CalledBy x y
  back : ∀ x ∈ t.active, x ∉ path → ∃ y ∈ t.active, t.num y < t.num x ∧ ReflTransGen graph.CalledBy x y
  scanned : ∀ x y, t.Visited x → x ∉ path → graph.CalledBy x y → t.Visited y
  onStack : ∀ x ∈ path, x ∈ t.active
  nested : path.Pairwise fun x y => t.num y < t.num x

variable {graph : CallGraph F} {path : List F}

lemma Inv.initial : Inv graph ({} : Tarjan F) [] := by
  constructor <;> simp [flag, Visited, Settled]

lemma Inv.setLow (inv : Inv graph t path) (func : F) (root : Nat) : Inv graph (t.setLow func root) path := by
  constructor
  case flagged => simpa using inv.flagged
  case visited => simpa using inv.visited
  case settled => simpa using inv.settled
  case numbered => simpa using inv.numbered
  case sorted => simpa using inv.sorted
  case closed => exact inv.closed
  case root => simpa using inv.root
  case whole => exact inv.whole
  case listed => exact inv.listed
  case forward => simpa using inv.forward
  case back => simpa using inv.back
  case scanned => simpa using inv.scanned
  case onStack => exact inv.onStack
  case nested => simpa using inv.nested

lemma Inv.active_nil (inv : Inv graph t []) : t.active = [] := by
  rw [eq_nil_iff_forall_not_mem]
  intro x here
  obtain ⟨_, -, onPath, -⟩ := reaches_path inv.back here
  exact not_mem_nil onPath

lemma Inv.reaches_top (inv : Inv graph t (func :: path)) (here : x ∈ t.active) :
    ReflTransGen graph.CalledBy x func := by
  obtain ⟨z, activeZ, onPath, -, reach⟩ := reaches_path inv.back here
  apply reach.trans
  apply inv.forward z activeZ func (inv.onStack func mem_cons_self)
  rcases mem_cons.mp onPath with rfl | deeper
  · exact le_rfl
  · exact ((pairwise_cons.mp inv.nested).1 z deeper).le

lemma Inv.enter (inv : Inv graph t path) (fresh : ¬ t.Visited func)
    (reach : ∀ x ∈ t.active, ReflTransGen graph.CalledBy x func) :
    Inv graph (t.enter func) (func :: path) := by
  have known : ∀ x, t.Visited x → (t.enter func).num x = t.num x := by
    intro x visited
    apply num_congr
    apply enter_states
    rintro rfl
    exact fresh visited
  have stack : ∀ x ∈ t.active, (t.enter func).num x = t.num x := fun x here => known x (inv.visited x here)
  have settledKnown : ∀ x, t.Settled x → (t.enter func).num x = t.num x :=
    fun x settled => known x ((inv.settled x).mp settled).1
  have top : ∀ x ∈ t.active, t.num x < t.numEncountered := fun x here => inv.numbered x (inv.visited x here)
  constructor
  case flagged =>
    intro x
    rw [enter_flag, inv.flagged]
    exact mem_cons.symm
  case visited =>
    intro x here
    rw [enter_visited]
    exact (mem_cons.mp here).imp_right (inv.visited x)
  case settled =>
    intro x
    rw [enter_visited]
    show t.Settled x ↔ _ ∧ x ∉ func :: t.active
    rw [inv.settled, mem_cons]
    constructor
    · rintro ⟨visited, off⟩
      refine ⟨.inr visited, ?_⟩
      rintro (rfl | here)
      · exact fresh visited
      · exact off here
    · rintro ⟨rfl | visited, off⟩
      · exact absurd (.inl rfl) off
      · exact ⟨visited, fun here => off (.inr here)⟩
  case numbered =>
    intro x visited
    rcases (enter_visited t func x).mp visited with rfl | visited
    · rw [enter_num]
      exact Nat.lt_succ_self _
    · rw [known x visited]
      exact Nat.lt_succ_of_lt (inv.numbered x visited)
  case sorted =>
    apply pairwise_cons.mpr
    constructor
    · intro x here
      rw [enter_num, stack x here]
      exact top x here
    · apply inv.sorted.imp_of_mem
      intro x y hereX hereY less
      rwa [stack x hereX, stack y hereY]
  case closed => exact inv.closed
  case root =>
    intro x r isRoot
    obtain ⟨together, le, settled⟩ := inv.root x r isRoot
    refine ⟨together, ?_, settled⟩
    have settledX : t.Settled x := Option.ne_none_iff_exists'.mpr ⟨r, isRoot⟩
    rw [settledKnown r settled, settledKnown x settledX]
    exact le
  case whole => exact inv.whole
  case listed => exact inv.listed
  case forward =>
    intro x hereX y hereY le
    rcases mem_cons.mp hereX with rfl | hereX
    · rcases mem_cons.mp hereY with rfl | hereY
      · exact .refl
      · rw [enter_num, stack y hereY] at le
        exact absurd (top y hereY) (not_lt.mpr le)
    · rcases mem_cons.mp hereY with same | hereY
      · exact same ▸ reach x hereX
      · rw [stack x hereX, stack y hereY] at le
        exact inv.forward x hereX y hereY le
  case back =>
    intro x here off
    have notFunc := ne_of_not_mem_cons off
    have off := not_mem_of_not_mem_cons off
    have here := mem_of_ne_of_mem notFunc here
    obtain ⟨y, hereY, less, reach⟩ := inv.back x here off
    refine ⟨y, mem_cons_of_mem _ hereY, ?_, reach⟩
    rwa [stack x here, stack y hereY]
  case scanned =>
    intro x y visited off edge
    have notFunc := ne_of_not_mem_cons off
    have off := not_mem_of_not_mem_cons off
    rw [enter_visited] at visited ⊢
    exact .inr (inv.scanned x y (visited.resolve_left notFunc) off edge)
  case onStack =>
    intro x onPath
    exact mem_cons.mpr ((mem_cons.mp onPath).imp_right (inv.onStack x))
  case nested =>
    apply pairwise_cons.mpr
    constructor
    · intro x onPath
      rw [enter_num, stack x (inv.onStack x onPath)]
      exact top x (inv.onStack x onPath)
    · apply inv.nested.imp_of_mem
      intro x y onX onY less
      rwa [stack x (inv.onStack x onX), stack y (inv.onStack y onY)]

/-- The visit of a function ends while it stays on the stack. -/
lemma Inv.leave (inv : Inv graph t (func :: path)) (callers : ∀ y, graph.CalledBy func y → t.Visited y)
    (below : ∃ y ∈ t.active, t.num y < t.num func ∧ ReflTransGen graph.CalledBy func y) : Inv graph t path := by
  constructor
  case flagged => exact inv.flagged
  case visited => exact inv.visited
  case settled => exact inv.settled
  case numbered => exact inv.numbered
  case sorted => exact inv.sorted
  case closed => exact inv.closed
  case root => exact inv.root
  case whole => exact inv.whole
  case listed => exact inv.listed
  case forward => exact inv.forward
  case back =>
    intro x here off
    by_cases same : x = func
    · exact same ▸ below
    · exact inv.back x here (not_mem_cons_of_ne_of_not_mem same off)
  case scanned =>
    intro x y visited off edge
    by_cases same : x = func
    · exact callers y (same ▸ edge)
    · exact inv.scanned x y visited (not_mem_cons_of_ne_of_not_mem same off) edge
  case onStack => exact fun x onPath => inv.onStack x (mem_cons_of_mem _ onPath)
  case nested => exact (pairwise_cons.mp inv.nested).2

/-- The top of the stack was taken off as the component of the root `func`. -/
structure Popped (t : Tarjan F) (func : F) (segment rest : List F) (t' : Tarjan F) : Prop where
  active : t'.active = rest
  total : t'.numEncountered = t.numEncountered
  visited : ∀ x, t'.Visited x ↔ t.Visited x
  num : ∀ x, t'.num x = t.num x
  low : ∀ x, t'.low x = t.low x
  flag : ∀ x, t'.flag x = true ↔ t.flag x = true ∧ x ∉ segment
  states : ∀ x ∉ segment, t'.states x = t.states x
  member : ∀ x ∈ segment, t'.sccRoots x = (t.sccRoots x <|> some func)
  other : ∀ x ∉ segment, t'.sccRoots x = t.sccRoots x
  listed : ∀ r x, (r, x) ∈ t'.sccs ↔ (r, x) ∈ t.sccs ∨ r = func ∧ x ∈ segment

variable {sccfunc : F}

lemma pop_popped (func : F) (rest : List F) (visited : t.Visited sccfunc) :
    ∃ t', t.pop func sccfunc rest = some t' ∧ Popped t func [sccfunc] rest t' := by
  obtain ⟨state, here⟩ := Option.ne_none_iff_exists'.mp visited
  simp only [pop, here, Option.bind_eq_bind, Option.bind_some, Option.pure_def, Option.some.injEq, exists_eq_left']
  constructor
  case active => rfl
  case total => rfl
  case visited =>
    intro x
    by_cases same : x = sccfunc <;> simp [Visited, same, here]
  case num =>
    intro x
    by_cases same : x = sccfunc <;> simp [Tarjan.num, same, here]
  case low =>
    intro x
    by_cases same : x = sccfunc <;> simp [Tarjan.low, same, here]
  case flag =>
    intro x
    by_cases same : x = sccfunc <;> simp [Tarjan.flag, same]
  case states =>
    intro x off
    rw [mem_singleton] at off
    simp [off]
  case member =>
    intro x here
    obtain rfl := mem_singleton.mp here
    simp
  case other =>
    intro x off
    rw [mem_singleton] at off
    simp [off]
  case listed =>
    intro r x
    simp

lemma Popped.trans {t₁ t₂ : Tarjan F} {segment middle rest : List F} (off : sccfunc ∉ segment)
    (head : Popped t func [sccfunc] middle t₁) (tail : Popped t₁ func segment rest t₂) :
    Popped t func (sccfunc :: segment) rest t₂ := by
  constructor
  case active => exact tail.active
  case total => exact tail.total.trans head.total
  case visited => exact fun x => (tail.visited x).trans (head.visited x)
  case num => exact fun x => (tail.num x).trans (head.num x)
  case low => exact fun x => (tail.low x).trans (head.low x)
  case flag =>
    intro x
    rw [tail.flag, head.flag]
    simp only [mem_cons, not_mem_nil]
    tauto
  case states =>
    intro x away
    have notHead := ne_of_not_mem_cons away
    have away := not_mem_of_not_mem_cons away
    rw [tail.states x away, head.states x (by simpa using notHead)]
  case member =>
    intro x here
    rcases mem_cons.mp here with rfl | here
    · rw [tail.other x off, head.member x mem_cons_self]
    · have notHead : x ≠ sccfunc := fun same => off (same ▸ here)
      rw [tail.member x here, head.other x (by simpa using notHead)]
  case other =>
    intro x away
    have notHead := ne_of_not_mem_cons away
    have away := not_mem_of_not_mem_cons away
    rw [tail.other x away, head.other x (by simpa using notHead)]
  case listed =>
    intro r x
    rw [tail.listed, head.listed]
    simp only [mem_cons, not_mem_nil]
    tauto

lemma popComponent_popped (segment rest : List F) (t : Tarjan F)
    (nodup : (segment ++ [func]).Nodup) (visited : ∀ x ∈ segment ++ [func], t.Visited x) :
    ∃ t', popComponent func (segment ++ func :: rest) t = some t' ∧ Popped t func (segment ++ [func]) rest t' := by
  induction segment generalizing t with
  | nil =>
    obtain ⟨t', popped, spec⟩ := pop_popped func rest (visited func (by simp))
    refine ⟨t', ?_, spec⟩
    simp [popComponent, popped]
  | cons sccfunc segment ih =>
    obtain ⟨off, nodup⟩ := nodup_cons.mp nodup
    obtain ⟨t₁, popped, head⟩ :=
      pop_popped func (segment ++ func :: rest) (visited sccfunc mem_cons_self)
    have visitedTail : ∀ x ∈ segment ++ [func], t₁.Visited x :=
      fun x here => (head.visited x).mpr (visited x (mem_cons_of_mem _ here))
    obtain ⟨t', rec, tail⟩ := ih t₁ nodup visitedTail
    refine ⟨t', ?_, head.trans off tail⟩
    have notLast : sccfunc ≠ func := by
      rintro rfl
      simp at off
    simp [popComponent, popped, notLast, rec]

section Settle

variable {segment rest : List F} (inv : Inv graph t (func :: path)) (stack : t.active = segment ++ [func] ++ rest)
include inv stack

lemma Inv.above_rest (here : x ∈ segment ++ [func]) (below : y ∈ rest) : t.num y < t.num x := by
  have sorted := inv.sorted
  rw [stack, pairwise_append] at sorted
  exact sorted.2.2 x here y below

lemma Inv.above_func (here : x ∈ segment ++ [func]) : t.num func ≤ t.num x := by
  have sorted := inv.sorted
  rw [stack, pairwise_append, pairwise_append] at sorted
  rcases mem_append.mp here with inside | last
  · exact (sorted.1.2.2 x inside func (mem_singleton_self _)).le
  · rw [mem_singleton.mp last]

lemma Inv.nodup_segment : (segment ++ [func]).Nodup := by
  have sorted := inv.sorted
  rw [stack, pairwise_append] at sorted
  apply sorted.1.imp
  rintro x _ less rfl
  exact lt_irrefl _ less

lemma Inv.segment_or_settled (callers : ∀ y, graph.CalledBy func y → t.Visited y)
    (inside : ∀ x ∈ segment ++ [func], ∀ y ∈ rest, ¬ graph.CalledBy x y) (here : x ∈ segment ++ [func])
    (edge : graph.CalledBy x y) : t.Settled y ∨ y ∈ segment ++ [func] := by
  have active : ∀ x, x ∈ t.active ↔ x ∈ segment ++ [func] ∨ x ∈ rest := by
    intro x
    rw [stack, mem_append]
  have visited : t.Visited y := by
    rcases mem_append.mp here with deep | last
    · refine inv.scanned x y (inv.visited x ((active x).mpr (.inl here))) ?_ edge
      intro onPath
      have sorted := inv.sorted
      rw [stack, pairwise_append, pairwise_append] at sorted
      have less := sorted.1.2.2 x deep func (mem_singleton_self _)
      rcases mem_cons.mp onPath with rfl | deeper
      · exact lt_irrefl _ less
      · exact lt_asymm less ((pairwise_cons.mp inv.nested).1 x deeper)
    · exact callers y (mem_singleton.mp last ▸ edge)
  by_cases onStack : y ∈ t.active
  · rcases (active y).mp onStack with segment | below
    · exact .inr segment
    · exact absurd edge (inside x here y below)
  · exact .inl ((inv.settled y).mpr ⟨visited, onStack⟩)

lemma Inv.settle (callers : ∀ y, graph.CalledBy func y → t.Visited y)
    (inside : ∀ x ∈ segment ++ [func], ∀ y ∈ rest, ¬ graph.CalledBy x y)
    (popped : Popped t func (segment ++ [func]) rest t') : Inv graph t' path := by
  have memFunc : func ∈ segment ++ [func] := by simp
  have active : ∀ x, x ∈ t.active ↔ x ∈ segment ++ [func] ∨ x ∈ rest := by
    intro x
    rw [stack, mem_append]
  have apart : ∀ x ∈ segment ++ [func], x ∉ rest :=
    fun x here below => lt_irrefl _ (inv.above_rest stack here below)
  have unsettled : ∀ x ∈ segment ++ [func], t.sccRoots x = none := by
    intro x here
    by_contra settled
    exact ((inv.settled x).mp settled).2 ((active x).mpr (.inl here))
  have member : ∀ x ∈ segment ++ [func], t'.sccRoots x = some func := by
    intro x here
    rw [popped.member x here, unsettled x here]
    rfl
  have settled_iff : ∀ x, t'.Settled x ↔ t.Settled x ∨ x ∈ segment ++ [func] := by
    intro x
    by_cases here : x ∈ segment ++ [func]
    · simp [Settled, member x here, here]
    · simp only [Settled, popped.other x here, here, or_false]
  have closed : ∀ x y, t'.Settled x → graph.CalledBy x y → t'.Settled y := by
    intro x y settled edge
    rw [settled_iff] at settled ⊢
    rcases settled with settled | here
    · exact .inl (inv.closed x y settled edge)
    · exact inv.segment_or_settled stack callers inside here edge
  have together : ∀ x ∈ segment ++ [func], Mutual graph.CalledBy func x := by
    intro x here
    have activeX := (active x).mpr (.inl here)
    exact ⟨inv.forward func ((active func).mpr (.inl memFunc)) x activeX (inv.above_func stack here),
      inv.reaches_top activeX⟩
  constructor
  case flagged =>
    intro x
    rw [popped.flag, inv.flagged, popped.active, active]
    have := apart x
    tauto
  case visited =>
    intro x here
    rw [popped.active] at here
    exact (popped.visited x).mpr (inv.visited x ((active x).mpr (.inr here)))
  case settled =>
    intro x
    rw [settled_iff, popped.visited, popped.active, inv.settled, active]
    have := apart x
    have := inv.visited x
    rw [active] at this
    tauto
  case numbered =>
    intro x visited
    rw [popped.num, popped.total]
    exact inv.numbered x ((popped.visited x).mp visited)
  case sorted =>
    have sorted := inv.sorted
    rw [stack, pairwise_append] at sorted
    simpa only [popped.active, popped.num] using sorted.2.1
  case closed => exact closed
  case root =>
    intro x r isRoot
    rw [popped.num, popped.num, settled_iff]
    by_cases here : x ∈ segment ++ [func]
    · obtain rfl := Option.some.inj ((member x here).symm.trans isRoot)
      exact ⟨together x here, inv.above_func stack here, .inr memFunc⟩
    · rw [popped.other x here] at isRoot
      obtain ⟨same, le, settled⟩ := inv.root x r isRoot
      exact ⟨same, le, .inl settled⟩
  case whole =>
    intro x y r isRoot same
    by_cases here : x ∈ segment ++ [func]
    · obtain rfl := Option.some.inj ((member x here).symm.trans isRoot)
      have settledY : t'.Settled y := mem_of_closed closed ((settled_iff x).mpr (.inr here)) same.1
      rcases (settled_iff y).mp settledY with old | hereY
      · have settledX : t.Settled x := mem_of_closed inv.closed old same.2
        exact absurd (unsettled x here) settledX
      · exact member y hereY
    · rw [popped.other x here] at isRoot
      have rootY := inv.whole x y r isRoot same
      rw [popped.other y, rootY]
      intro hereY
      rw [unsettled y hereY] at rootY
      exact absurd rootY (by simp)
  case listed =>
    intro r x
    rw [popped.listed, inv.listed]
    by_cases here : x ∈ segment ++ [func]
    · rw [member x here, unsettled x here]
      simp [here, eq_comm]
    · rw [popped.other x here]
      simp only [here, and_false, or_false]
  case forward =>
    intro x hereX y hereY le
    rw [popped.active] at hereX hereY
    rw [popped.num, popped.num] at le
    exact inv.forward x ((active x).mpr (.inr hereX)) y ((active y).mpr (.inr hereY)) le
  case back =>
    intro x here off
    rw [popped.active] at here ⊢
    have notFunc : x ≠ func := fun same => apart func memFunc (same ▸ here)
    obtain ⟨y, hereY, less, reach⟩ := inv.back x ((active x).mpr (.inr here))
      (not_mem_cons_of_ne_of_not_mem notFunc off)
    refine ⟨y, ?_, ?_, reach⟩
    · rcases (active y).mp hereY with above | below
      · exact absurd less (lt_asymm (inv.above_rest stack above here))
      · exact below
    · rwa [popped.num, popped.num]
  case scanned =>
    intro x y visited off edge
    rw [popped.visited] at visited ⊢
    by_cases same : x = func
    · exact callers y (same ▸ edge)
    · exact inv.scanned x y visited (not_mem_cons_of_ne_of_not_mem same off) edge
  case onStack =>
    intro x onPath
    rw [popped.active]
    rcases (active x).mp (inv.onStack x (mem_cons_of_mem _ onPath)) with above | below
    · have less := (pairwise_cons.mp inv.nested).1 x onPath
      exact absurd less (not_lt.mpr (inv.above_func stack above))
    · exact below
  case nested => simpa only [popped.num] using (pairwise_cons.mp inv.nested).2

end Settle

end Tarjan

end HpcToolkit.StructFile
