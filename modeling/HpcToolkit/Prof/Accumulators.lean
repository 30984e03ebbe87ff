import HpcToolkit.Lib.ParentTree

/-! # Metric propagation

The part of `PerThreadTemporary::finalize` behind the redistribution of reconstructions: it finds the
contexts with data below them, and sums metric values up the tree with an explicit stack. Values are
exact. Maps without an order are functions; where the source iterates over one, the order is a
parameter. An accumulator made by `operator[]` is value-initialized, so its `isLoop` starts as false.
-/

open Function

namespace HpcToolkit.Prof

open Lib

/-! ## Contexts and accumulators -/

inductive Relation where
  | global
  | enclosure
  | call
  | inlinedCall
deriving DecidableEq

def isCall : Relation → Bool
  | .global | .enclosure => false
  | .call | .inlinedCall => true

inductive ScopeType where
  | unknown
  | global
  | point
  | function
  | lexicalLoop
  | binaryLoop
  | line
  | placeholder
deriving DecidableEq

/-- The contexts of an experiment: a tree with one root and the scope of each context. -/
structure Contexts (Ctx : Type) extends ParentTree Ctx where
  relation : Ctx → Relation
  type : Ctx → ScopeType
  oneRoot : ∀ {c d}, parent c = none → parent d = none → c = d

def Contexts.isLoop {Ctx : Type} (t : Contexts Ctx) (c : Ctx) : Bool :=
  t.type c == .lexicalLoop || t.type c == .binaryLoop

inductive MetricScope where
  | point
  | function
  | lexAware
  | execution
deriving DecidableEq

structure MetricAccumulator (R : Type) [Zero R] where
  isLoop : Bool := false
  point : R := 0
  function : R := 0
  functionNoloops : R := 0
  execution : R := 0

def opt0 {R : Type} [Zero R] [DecidableEq R] (d : R) : Option R := if d = 0 then none else some d

def MetricAccumulator.get {R : Type} [Zero R] [DecidableEq R] (a : MetricAccumulator R) : MetricScope → Option R
  | .point => opt0 a.point
  | .function => opt0 a.function
  | .lexAware => opt0 (if a.isLoop then a.functionNoloops else a.function)
  | .execution => opt0 a.execution

/-- `c_data`: the accumulators of a thread. A context without an entry has no accumulators. -/
abbrev CData (Ctx Metric R : Type) [Zero R] := Ctx → Metric → Option (MetricAccumulator R)

section
variable {Ctx Metric R : Type} [DecidableEq Ctx] [AddCommMonoid R]

/-! ## The critical subtree -/

/-- `children`: the contexts with data at or below them, by their parents. -/
abbrev Children (Ctx : Type) := Ctx → Option (List Ctx)

/-- The loop from a context up to the first parent that has an entry; yields the context it stops at. -/
def climb (t : Contexts Ctx) (c : Ctx) (children : Children Ctx) : Children Ctx × Ctx :=
  match _parent : t.parent c with
  | none => (children, c)
  | some p =>
    match children p with
    | some known => (update children p (some (known.insert c)), c)
    | none => climb t p (update children p (some [c]))
termination_by t.depth c
decreasing_by
  have depth := t.depth_parent _parent
  omega

/-- The loop over `c_data` in its iteration order, with the root it finds. -/
def criticalSubtree (t : Contexts Ctx) (contexts : List Ctx) : Children Ctx × Option Ctx :=
  contexts.foldl (fun (children, global) c =>
    let (children, c) := climb t c children
    (children, if (t.parent c).isNone then some c else global)) (fun _ => none, none)

/-! ## The traversal -/

/-- `frame_t`: a context, its children that are still to be handled and those that are. -/
structure Frame (Ctx : Type) where
  ctx : Ctx
  pending : List Ctx
  submds : List Ctx

/-- An order in which each set of children is iterated over. -/
structure IterationOrder (Ctx : Type) where
  order : Ctx → List Ctx → List Ctx
  perm : ∀ c l, (order c l).Perm l

/-- The frame that a context is pushed with. -/
def newFrame (children : Children Ctx) (ord : IterationOrder Ctx) (c : Ctx) : Frame Ctx :=
  ⟨c, match children c with
    | none => []
    | some l => ord.order c l, []⟩

/-- The internal propagation of a context. -/
def propagateOwn (t : Contexts Ctx) (c : Ctx) (data : Metric → Option (MetricAccumulator R)) :
    Metric → Option (MetricAccumulator R) := fun m =>
  (data m).map fun a =>
    { a with isLoop := t.isLoop c, execution := a.point, function := a.point, functionNoloops := a.point }

/-- The body of the loop over the metrics of a child. -/
def pull (pullFunc pullNoLoops : Bool) (accum x : MetricAccumulator R) : MetricAccumulator R :=
  { accum with
    function := if pullFunc then accum.function + x.function else accum.function
    functionNoloops := if pullFunc && pullNoLoops then accum.functionNoloops + x.functionNoloops
      else accum.functionNoloops
    execution := accum.execution + x.execution }

/-- A child's values summed into the data of its parent. -/
def pullChild (t : Contexts Ctx) (cData : CData Ctx Metric R) (data : Metric → Option (MetricAccumulator R))
    (sub : Ctx) : Metric → Option (MetricAccumulator R) := fun m =>
  match cData sub m with
  | none => data m
  | some x => some (pull (!isCall (t.relation sub)) (!t.isLoop sub) ((data m).getD {}) x)

/-- The data of a context when all its children are handled. -/
def propagate (t : Contexts Ctx) (cData : CData Ctx Metric R) (c : Ctx) (submds : List Ctx) :
    Metric → Option (MetricAccumulator R) :=
  submds.foldl (pullChild t cData) (propagateOwn t c (cData c))

structure Traversal (Ctx Metric R : Type) [Zero R] where
  cData : CData Ctx Metric R
  stack : List (Frame Ctx)

/-- `stack.top().submds.emplace_back(c, data)`. -/
def noteChild (c : Ctx) : List (Frame Ctx) → List (Frame Ctx)
  | [] => []
  | top :: rest => { top with submds := top.submds ++ [c] } :: rest

/-- One round of `while(!stack.empty())`. -/
def step (t : Contexts Ctx) (children : Children Ctx) (ord : IterationOrder Ctx) (s : Traversal Ctx Metric R) :
    Traversal Ctx Metric R :=
  match s.stack with
  | [] => s
  | top :: rest =>
    match top.pending with
    | c :: pending => { s with stack := newFrame children ord c :: { top with pending := pending } :: rest }
    | [] =>
      { cData := update s.cData top.ctx (propagate t s.cData top.ctx top.submds)
        stack := noteChild top.ctx rest }

/-- The rounds until the stack is empty. -/
def runTraversal (t : Contexts Ctx) (children : Children Ctx) (ord : IterationOrder Ctx) :
    ℕ → Traversal Ctx Metric R → Option (CData Ctx Metric R)
  | 0, s => if s.stack.isEmpty then some s.cData else none
  | fuel + 1, s => if s.stack.isEmpty then some s.cData else runTraversal t children ord fuel (step t children ord s)

/-- The propagation in `PerThreadTemporary::finalize`, on data whose contexts are iterated over in the
order of `contexts`. -/
def finalize (t : Contexts Ctx) (ord : IterationOrder Ctx) (contexts : List Ctx) (cData : CData Ctx Metric R)
    (fuel : ℕ) : Option (CData Ctx Metric R) :=
  match criticalSubtree t contexts with
  | (_, none) => some cData
  | (children, some global) => runTraversal t children ord fuel ⟨cData, [newFrame children ord global]⟩

end

end HpcToolkit.Prof
