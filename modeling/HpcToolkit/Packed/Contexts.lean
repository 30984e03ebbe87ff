import HpcToolkit.Packed.Attributes
import HpcToolkit.Prof.Accumulators

/-! # Packed contexts

`Packed::packContexts` of the sink and `Packed::unpackContexts` of the source. A context is written as its
scope, its children and the magic number; the source rebuilds the tree with a stack of contexts. The
module table `modules` is the one that the references packed before have set up on both sides.
-/

namespace HpcToolkit.Packed

open Lib Prof

/-! ## Context trees -/

/-- `Scope`, with the data that is packed. -/
inductive Scope (M : Type) where
  | unknown
  | global
  | point (module : M) (offset : UInt64)
  | function
  | lexicalLoop
  | binaryLoop
  | line
  | placeholder (value : UInt64)
deriving DecidableEq

structure NestedScope (M : Type) where
  relation : Relation
  flat : Scope M
deriving DecidableEq

/-- `Context`: its children stand in the order of iteration. -/
inductive Context (M : Type) where
  | node (scope : NestedScope M) (children : List (Context M))

def Context.scope {M : Type} : Context M → NestedScope M
  | .node scope _ => scope

def Context.children {M : Type} : Context M → List (Context M)
  | .node _ children => children

mutual
/-- The contexts below and including a context, in the order of `citerate`. -/
def Context.walk {M : Type} : Context M → List (Context M)
  | .node scope children => .node scope children :: walkOf children

def walkOf {M : Type} : List (Context M) → List (Context M)
  | [] => []
  | c :: rest => c.walk ++ walkOf rest
end

/-- A tree of contexts. Children are kept in a set, and only the pipeline makes the global scope, for the root. -/
structure ContextTree (M : Type) where
  root : Context M
  global : root.scope = ⟨.global, .global⟩
  distinct : ∀ c ∈ root.walk, (c.children.map Context.scope).Nodup
  inner : ∀ c ∈ walkOf root.children, c.scope.relation ≠ .global ∧ c.scope.flat ≠ .global

/-- The kinds of scopes that the packed form represents. -/
def Scope.Supported {M : Type} : Scope M → Prop
  | .unknown | .global | .point _ _ | .placeholder _ => True
  | .function | .lexicalLoop | .binaryLoop | .line => False

/-! ## Packing -/

section
variable {M : Type} [DecidableEq M]

/-- The value of a scope in `Scope::Type`. -/
def Scope.type : Scope M → UInt64
  | .unknown => 0
  | .global => 1
  | .point _ _ => 2
  | .function => 3
  | .lexicalLoop => 4
  | .binaryLoop => 5
  | .line => 6
  | .placeholder _ => 7

def moduleIDs (modules : List M) (m : M) : Option UInt64 := (modules.idxOf? m).map .ofNat

def packScope (modules : List M) (s : Scope M) : Option (List UInt8) :=
  match s with
  | .point module offset => do return packU64 s.type ++ (packU64 (← moduleIDs modules module) ++ packU64 offset)
  | .placeholder value => some (packU64 s.type ++ packU64 value)
  | _ => some (packU64 s.type)

mutual
/-- The walk of `packContexts`. It fails on a context that is neither the root nor a call. -/
def packContext (modules : List M) : Context M → Option (List UInt8)
  | .node scope children =>
    if scope.relation ≠ .global ∧ scope.relation ≠ .call then none
    else do return (← packScope modules scope.flat) ++ ((← packChildren modules children) ++ packU64 magic)

def packChildren (modules : List M) : List (Context M) → Option (List UInt8)
  | [] => some []
  | c :: rest => do return (← packContext modules c) ++ (← packChildren modules rest)
end

def packFlowGraph (modules : List M) (s : Scope M) : Option (List UInt8) :=
  match s with
  | .point _ _ => packScope modules s
  | _ => none

def packContexts (modules : List M) (tree : ContextTree M) (contextFlowGraphs : List (Scope M)) :
    Option (List UInt8) := do
  return (← packContext modules tree.root) ++
    (packU64 (.ofNat contextFlowGraphs.length) ++ (← packAll (packFlowGraph modules) contextFlowGraphs))

/-! ## Unpacking -/

/-- The contexts of the receiving pipeline in the order in which they are made: the parent of each and its
scope. The `n`-th one has the id `n + 1`, the root has the id `0`. -/
abbrev Made (M : Type) := List (ℕ × NestedScope M)

/-- `Context::ensure`: the child with the scope, made if there is none. -/
def Made.ensure (made : Made M) (parent : ℕ) (scope : NestedScope M) : Made M × ℕ :=
  match made.idxOf? (parent, scope) with
  | some n => (made, n + 1)
  | none => (made ++ [(parent, scope)], made.length + 1)

structure Unpacking (M : Type) where
  tip : List ℕ
  made : Made M

/-- `tip.empty() ? sink.global() : tip.top()`. -/
def Unpacking.parent (s : Unpacking M) : ℕ := s.tip.headD 0

/-- `sink.context(.., {Relation::call, scope})`, with the result pushed. -/
def Unpacking.context (s : Unpacking M) (scope : Scope M) : Unpacking M :=
  let (made, c) := s.made.ensure s.parent ⟨.call, scope⟩
  ⟨c :: s.tip, made⟩

def unpackPoint (modules : List M) : Reader (Scope M) := do
  let midx ← unpackU64
  let off ← unpackU64
  match modules[midx.toNat]? with
  | some module => return .point module off
  | none => failure

/-- One round of the loop, behind the type it reads; there is none once the root ends. -/
def unpackRound (modules : List M) (s : Unpacking M) (next : UInt64) : Reader (Option (Unpacking M)) :=
  if next = magic then
    match s.tip with
    | [] => return none
    | _ :: tip => return some { s with tip }
  else if next = 2 then do return some (s.context (← unpackPoint modules))
  else if next = 7 then do return some (s.context (.placeholder (← unpackU64)))
  else if next = 0 then return some (s.context .unknown)
  else if next = 3 ∨ next = 4 ∨ next = 5 ∨ next = 6 then
    match s.tip with
    | [] => failure
    | top :: tip => return some { s with tip := top :: top :: tip }
  else failure

def unpackLoop (modules : List M) : ℕ → Unpacking M → Reader (Made M)
  | 0, _ => failure
  | rounds + 1, s => do
    match ← unpackRound modules s (← unpackU64) with
    | none => return s.made
    | some s' => unpackLoop modules rounds s'

/-- The loop over the contexts; each round takes at least a byte. -/
def unpackTree (modules : List M) : Reader (Made M) := fun f => unpackLoop modules f.bytes.length ⟨[], []⟩ f

def unpackFlowGraph (modules : List M) : Reader (Scope M) := do
  if (← unpackU64) = 2 then unpackPoint modules else failure

/-- `Packed::unpackContexts`: the contexts made, and the flow graphs asked for. -/
def unpackContexts (modules : List M) : Reader (Made M × List (Scope M)) := do
  let globalTy ← unpackU64
  if globalTy = 1 then
    let made ← unpackTree modules
    let cnt ← unpackU64
    let flowGraphs ← readMany (unpackFlowGraph modules) cnt.toNat
    return (made, flowGraphs)
  else failure

end

end HpcToolkit.Packed
