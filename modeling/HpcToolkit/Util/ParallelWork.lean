import Mathlib
import HpcToolkit.Lib.Workshare

/-! # Parallel worksharing

`ParallelForCore` hands the items of a batch to whichever threads contribute. A thread loads `inCounter`, reads
the bounds of the batch, and claims a block of items with a compare-exchange; when the items are done it adds
their number to `outCounter`. A master fills in the batches, and waits for each to end before the next. Every
access to a member of the workshare is a step of its own, and the steps of the threads interleave freely.
-/

open Function

namespace HpcToolkit.Util.ParallelWork

abbrev cntInitial : ℕ := 0
abbrev cntCompleted : ℕ := 1
abbrev cntOffset : ℕ := 2

/-- The arithmetic of `std::size_t`. -/
def wrap (x : ℕ) : ℕ := x % 2 ^ 64

inductive Kind where
  | parallelFor
  | repeating

/-- A call of an action: the batch that its item was taken from, the batch that the action was installed for, and
the item. -/
structure Invocation where
  batch : ℕ
  installed : ℕ
  item : ℕ
deriving DecidableEq

/-- The members of a workshare, and what has happened so far: the sizes of the batches, the actions that were
called and that returned, and how many batches there were at the start of each wait that is over. -/
structure Shared where
  inCounter : ℕ := cntInitial
  outCounter : ℕ := cntInitial
  maxCounter : ℕ := cntInitial
  blockSize : ℕ := 1
  completed : Bool := false
  installed : ℕ := 0
  batches : List ℕ := []
  invoked : List Invocation := []
  finished : List Invocation := []
  stable : List ℕ := []

def shouldWorkingToInitial (kind : Kind) (g : Shared) : Bool :=
  match kind with
  | .parallelFor => false
  | .repeating => !g.completed

/-! ## Contributing -/

/-- What a thread has read before its compare-exchange. -/
structure Bounds where
  beginCount : ℕ
  blockSize : ℕ
  maxCounter : ℕ
deriving DecidableEq

def Bounds.endCount (b : Bounds) : ℕ := min (wrap (b.beginCount + b.blockSize)) b.maxCounter

def Bounds.nextCounter (b : Bounds) (toInitial : Bool) : ℕ :=
  if b.endCount = b.maxCounter then if toInitial then cntInitial else cntCompleted else b.endCount

/-- The items that a thread has claimed, and the batch that they are from. -/
structure Claim where
  batch : ℕ
  first : ℕ
  last : ℕ
  completed : Bool
deriving DecidableEq

/-- Where a thread is in `contribute`. -/
inductive Contribute where
  | enter
  | loaded (beginCount : ℕ)
  | sized (beginCount blockSize : ℕ)
  | bounded (b : Bounds)
  | ready (b : Bounds) (toInitial : Bool)
  | working (claim : Claim) (i : ℕ)
  | running (claim : Claim) (call : Invocation)
  | left (contributed completed : Bool)
deriving DecidableEq

/-- The head of the loop of `acquireWork`. -/
def acquire (beginCount : ℕ) : Contribute :=
  if beginCount = cntInitial then .left false false
  else if beginCount = cntCompleted then .left false true
  else .loaded beginCount

/-- What `acquireWork` returns. -/
def Bounds.claim (b : Bounds) (toInitial : Bool) (batch : ℕ) : Claim where
  batch := batch
  first := b.beginCount - cntOffset
  last := wrap (b.endCount + 2 ^ 64 - cntOffset)
  completed := b.nextCounter toInitial = cntCompleted

/-- A thread starts on its items, if it has any. -/
def Claim.start (claim : Claim) : Contribute :=
  if claim.first < claim.last then .working claim claim.first else .left false claim.completed

/-- A step of `contribute`. -/
def contribute (kind : Kind) (g : Shared) : Contribute → Shared × Contribute
  | .enter => (g, acquire g.inCounter)
  | .loaded beginCount => (g, .sized beginCount g.blockSize)
  | .sized beginCount blockSize => (g, .bounded ⟨beginCount, blockSize, g.maxCounter⟩)
  | .bounded b => (g, .ready b (shouldWorkingToInitial kind g))
  | .ready b toInitial =>
    if g.inCounter = b.beginCount then
      ({ g with inCounter := b.nextCounter toInitial }, (b.claim toInitial (g.batches.length - 1)).start)
    else (g, acquire g.inCounter)
  | .working claim i =>
    if i < claim.last then
      ({ g with invoked := ⟨claim.batch, g.installed, i⟩ :: g.invoked }, .running claim ⟨claim.batch, g.installed, i⟩)
    else
      ({ g with outCounter := wrap (g.outCounter + (claim.last - claim.first)) }, .left true claim.completed)
  | .running claim call => ({ g with finished := call :: g.finished }, .working claim (call.item + 1))
  | .left contributed completed => (g, .left contributed completed)

/-! ## Threads -/

/-- What a thread can call to contribute. -/
inductive Loop where
  | contributeWhileAble
  | contributeUntilEmpty
  | contributeUntilComplete
deriving DecidableEq

def Kind.offers : Kind → Loop → Bool
  | _, .contributeWhileAble => true
  | .repeating, .contributeUntilEmpty => true
  | .parallelFor, .contributeUntilComplete => true
  | _, _ => false

/-- A thread that waits until the workshare is stable carries the number of batches at the start of its wait. -/
inductive Thread where
  | away
  | contributing (loop : Loop) (pc : Contribute)
  | waiting (batches : ℕ)
  | waited (batches outCounter : ℕ)
deriving DecidableEq

/-- How a loop goes on after `contribute`. -/
def Loop.next (loop : Loop) (contributed completed : Bool) (batches : ℕ) : Thread :=
  match loop with
  | .contributeWhileAble => if contributed then .contributing loop .enter else .away
  | .contributeUntilEmpty => if contributed then .contributing loop .enter else .waiting batches
  | .contributeUntilComplete => if completed then .waiting batches else .contributing loop .enter

/-- A step of a thread inside a call. -/
def Thread.step (kind : Kind) (g : Shared) : Thread → Shared × Thread
  | .away => (g, .away)
  | .contributing loop (.left contributed completed) => (g, loop.next contributed completed g.batches.length)
  | .contributing loop pc => ((contribute kind g pc).1, .contributing loop (contribute kind g pc).2)
  | .waiting batches => (g, .waited batches g.outCounter)
  | .waited batches outCounter =>
    if outCounter < g.maxCounter then (g, .waiting batches)
    else ({ g with stable := batches :: g.stable }, .away)

/-! ## The master -/

/-- What the master does: calls of its own, and the stores of `fill`, `complete` and what these call. -/
inductive Op where
  | call (loop : Loop)
  | install
  | setBlockSize (newBlockSize : UInt64)
  | setMaxCounter (numItems : UInt64)
  | resetOutCounter
  | release (numItems : UInt64)
  | setCompleted
  | forceComplete

def Op.exec (g : Shared) : Op → Shared
  | .call _ => g
  | .install => { g with installed := g.batches.length }
  | .setBlockSize newBlockSize =>
    if 0 < newBlockSize.toNat then { g with blockSize := newBlockSize.toNat } else g
  | .setMaxCounter numItems => { g with maxCounter := wrap (cntOffset + numItems.toNat) }
  | .resetOutCounter => { g with outCounter := cntOffset }
  | .release numItems => { g with inCounter := cntOffset, batches := g.batches ++ [numItems.toNat] }
  | .setCompleted => { g with completed := true }
  | .forceComplete => { g with inCounter := cntCompleted }

def rawFill (numItems newBlockSize : UInt64) : List Op :=
  [.setBlockSize newBlockSize, .setMaxCounter numItems, .resetOutCounter, .release numItems]

def fill (n bs : UInt64) : List Op := .call .contributeUntilEmpty :: .install :: rawFill n bs

def complete : List Op := [.setCompleted, .call .contributeUntilEmpty, .forceComplete]

/-- The single fill of a `ParallelFor`, or the batches of a `RepeatingParallelFor`, by size and block size. -/
inductive Program where
  | parallelFor (n bs : UInt64)
  | repeating (batches : List (UInt64 × UInt64))

namespace Program

def kind : Program → Kind
  | .parallelFor _ _ => .parallelFor
  | .repeating _ => .repeating

def ops : Program → List Op
  | .parallelFor n bs => .install :: rawFill n bs ++ [.call .contributeUntilComplete]
  | .repeating batches => batches.flatMap (fun batch => fill batch.1 batch.2) ++ complete

def sizes : Program → List ℕ
  | .parallelFor n _ => [n.toNat]
  | .repeating batches => batches.map (·.1.toNat)

end Program

/-! ## The whole system -/

/-- A master, thread `0`, and any number of workers. -/
structure State (T : ℕ) where
  shared : Shared
  threads : Fin (T + 1) → Thread
  ops : List Op

/-- A step of a thread, a compare-exchange that fails although it need not, or a call of a worker. -/
inductive Act (T : ℕ) where
  | run (t : Fin (T + 1))
  | fail (t : Fin (T + 1))
  | call (t : Fin (T + 1)) (loop : Loop)
deriving DecidableEq

section
variable {T : ℕ}

def Program.start (program : Program) (T : ℕ) : State T := ⟨{}, fun _ => .away, program.ops⟩

/-- The master goes on between its calls. -/
def State.master (s : State T) : Option (State T) :=
  match s.ops with
  | [] => none
  | .call loop :: rest =>
    some { s with threads := update s.threads 0 (.contributing loop .enter), ops := rest }
  | op :: rest => some { s with shared := op.exec s.shared, ops := rest }

def step (kind : Kind) (s : State T) : Act T → Option (State T)
  | .run t =>
    match s.threads t with
    | .away => if t = 0 then s.master else none
    | thread =>
      some { s with
        shared := (thread.step kind s.shared).1
        threads := update s.threads t (thread.step kind s.shared).2 }
  | .fail t =>
    match s.threads t with
    | .contributing loop (.ready b _) =>
      if s.shared.inCounter = b.beginCount then
        some { s with threads := update s.threads t (.contributing loop (acquire s.shared.inCounter)) }
      else none
    | _ => none
  | .call t loop =>
    if t ≠ 0 ∧ s.threads t = .away ∧ kind.offers loop then
      some { s with threads := update s.threads t (.contributing loop .enter) }
    else none

/-- A compare-exchange that succeeds was prepared from the bounds of the batch as it is, and no counter wraps. -/
def Timely (s : State T) : Act T → Prop
  | .run t =>
    match s.threads t, s.ops with
    | .contributing _ (.ready b _), _ =>
      s.shared.inCounter = b.beginCount →
        b.blockSize = s.shared.blockSize ∧ b.maxCounter = s.shared.maxCounter ∧ b.beginCount + b.blockSize < 2 ^ 64
    | .away, .setMaxCounter numItems :: _ => t = 0 → cntOffset + numItems.toNat < 2 ^ 64
    | _, _ => True
  | _ => True

/-- The states of the runs in which all steps meet a condition. -/
inductive Reached (program : Program) (Condition : State T → Act T → Prop) : State T → Prop where
  | start : Reached program Condition (program.start T)
  | step {s s' : State T} {act : Act T} (earlier : Reached program Condition s) (condition : Condition s act)
      (stepped : step program.kind s act = some s') : Reached program Condition s'

end

/-! ## What is asked of a workshare -/

section
variable (g : Shared)

def Shared.size (b : ℕ) : ℕ := g.batches[b]?.getD 0

/-- All items of the first batches were done once. -/
def Shared.Done (batches : ℕ) : Prop :=
  ∀ b < batches, ∀ i < g.size b, g.invoked.count ⟨b, b, i⟩ = 1 ∧ g.finished.count ⟨b, b, i⟩ = 1

/-- Only items of the batches are done, under the action of their own batch and at most once. The batches before
the last, and those that a wait was for, are done. -/
structure Shared.ExactlyOnce : Prop where
  own : ∀ call ∈ g.invoked, call.installed = call.batch ∧ call.item < g.size call.batch
  once : ∀ call, g.invoked.count call ≤ 1
  waited : ∀ batches ∈ g.stable, g.Done batches
  filled : g.Done (g.batches.length - 1)

end

/-- An endless run. Where no act is given, nothing happens. -/
structure Execution (program : Program) (T : ℕ) where
  state : ℕ → State T
  act : ℕ → Option (Act T)
  start : state 0 = program.start T
  next : ∀ n, match act n with
    | none => state (n + 1) = state n
    | some act => step program.kind (state n) act = some (state (n + 1))

section
variable {program : Program} {T : ℕ}

/-- A thread that has nothing to do. -/
def State.Resting (s : State T) (t : Fin (T + 1)) : Prop := s.threads t = .away ∧ (t = 0 → s.ops = [])

/-- No thread is left out forever, and the compare-exchanges do not fail without need forever. -/
structure Execution.Fair (e : Execution program T) : Prop where
  runs : ∀ t n, ∃ m ≥ n, e.act m = some (.run t) ∨ (e.state m).Resting t
  succeeds : ∃ n, ∀ m ≥ n, ∀ t, e.act m ≠ some (.fail t)

def Execution.Meets (e : Execution program T) (Condition : State T → Act T → Prop) : Prop :=
  ∀ n act, e.act n = some act → Condition (e.state n) act

end

end HpcToolkit.Util.ParallelWork
