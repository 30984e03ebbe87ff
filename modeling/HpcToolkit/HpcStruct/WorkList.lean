import HpcToolkit.Lib.Reachable

/-! # The work list of hpcstruct

`makeWorkList` turns the skeleton of files, groups and procedures into a list of work items, in print order and in
launch order. Threads take items in launch order, format them, and, whenever they get the lock, print as many items
as are done, in print order. The steps of the threads interleave freely; what an item is formatted to is a parameter.
-/

open Function List

namespace HpcToolkit.HpcStruct

/-! ## The skeleton -/

/-- A function with the number of functions that contain its entry block. -/
structure ProcInfo where
  linkName : String
  prettyName : String
  entryVma : UInt64
  containingFuncs : ℕ
  gapOnly : Bool := false
deriving DecidableEq

structure GroupInfo where
  start : UInt64
  last : UInt64
  procMap : List ProcInfo
deriving DecidableEq

structure FileInfo where
  fileName : String
  groupMap : List GroupInfo
deriving DecidableEq

structure WorkItem where
  finfo : FileInfo
  ginfo : GroupInfo
  pinfo : ProcInfo
  firstProc : Bool
  lastProc : Bool := false

/-! ## Making the lists -/

/-- The function is entirely contained within another function of its group. -/
def GroupInfo.skips (g : GroupInfo) (p : ProcInfo) : Bool := 1 < g.procMap.length && 1 < p.containingFuncs

/-- The items of some procedures of a group, and `first_proc` behind them. -/
def procItems (f : FileInfo) (g : GroupInfo) : List ProcInfo → Bool → List WorkItem × Bool
  | [], firstProc => ([], firstProc)
  | p :: rest, firstProc =>
    if g.skips p then procItems f g rest firstProc
    else
      let (items, firstProc') := procItems f g rest false
      (⟨f, g, p, firstProc, false⟩ :: items, firstProc')

def groupItems (f : FileInfo) : List GroupInfo → Bool → List WorkItem
  | [], _ => []
  | g :: rest, firstProc =>
    let (items, firstProc') := procItems f g g.procMap firstProc
    items ++ groupItems f rest firstProc'

/-- `last_item->last_proc = true` -/
def markLast : List WorkItem → List WorkItem
  | [] => []
  | [w] => [{ w with lastProc := true }]
  | w :: w' :: rest => w :: markLast (w' :: rest)

/-- `wlPrint` -/
def workList (files : List FileInfo) : List WorkItem := files.flatMap fun f => markLast (groupItems f f.groupMap true)

/-- The skeleton as `makeSkeleton` leaves it. It does a full parse of every function, and the work list is indexed by
`unsigned int`. -/
structure Skeleton where
  files : List FileInfo
  names : (files.map FileInfo.fileName).Nodup
  parsed : ∀ f ∈ files, ∀ g ∈ f.groupMap, ∀ p ∈ g.procMap, p.gapOnly = false
  fits : (workList files).length < 2 ^ 32

section
variable {D : Type} [LinearOrder D] (square : UInt64 → D) (threshold : List D → ℕ → D)

/-- The expected cost of an item, in `double`s. -/
def WorkItem.cost (w : WorkItem) : D := square ((w.ginfo.last - w.ginfo.start) / .ofNat w.ginfo.procMap.length)

/-- `witem->promote`: the item costs more than the threshold for all items and the number of threads. -/
def promote (items : List WorkItem) (jobs i : ℕ) : Bool :=
  items[i]?.any fun w => threshold (items.map (WorkItem.cost square)) jobs < w.cost square

/-- `wlLaunch`, as indices of `wlPrint`: the promoted items by descending cost, in some order if their costs are equal,
and then the others in print order. -/
def IsLaunchList (items : List WorkItem) (jobs : ℕ) (launch : List ℕ) : Prop :=
  if jobs = 1 then launch = range items.length
  else ∃ promoted, promoted.Perm ((range items.length).filter (promote square threshold items jobs)) ∧
    promoted.Pairwise (fun i j => ∀ w w', items[i]? = some w → items[j]? = some w' → ¬ w.cost square < w'.cost square) ∧
    launch = promoted ++ (range items.length).filter fun i => !promote square threshold items jobs i

end

/-! ## Printing -/

/-- A call of `printFileBegin`, `finalPrintProc` or `printFileEnd`. -/
inductive Event where
  | fileBegin (f : FileInfo)
  | proc (f : FileInfo) (g : GroupInfo) (buf : String)
  | fileEnd (f : FileInfo)
deriving DecidableEq

/-- Where a thread is in the loop of `printWorkList`. -/
inductive Printer where
  | check
  | first
  | proc
  | last
  | advance
  | stop
deriving DecidableEq

/-- What the threads share: which items are done, what they were formatted to, `num_done` and the output. -/
structure Shared where
  isDone : ℕ → Bool := fun _ => false
  obuf : ℕ → String := fun _ => ""
  numDone : ℕ := 0
  out : List Event := []

/-- `ginfo->procMap.begin()->second->gap_only` -/
def WorkItem.leaderGapOnly (w : WorkItem) : Bool := w.ginfo.procMap.head?.any (·.gapOnly)

def WorkItem.beginEvents (w : WorkItem) : List Event := if w.firstProc then [.fileBegin w.finfo] else []

def WorkItem.procEvents (w : WorkItem) (buf : String) : List Event :=
  if w.leaderGapOnly then [] else [.proc w.finfo w.ginfo buf]

def WorkItem.endEvents (w : WorkItem) : List Event := if w.lastProc then [.fileEnd w.finfo] else []

section
variable (items : List WorkItem)

/-- A step of `printWorkList`. -/
def printStep (g : Shared) (pc : Printer) : Shared × Printer :=
  match items[g.numDone]?, pc with
  | none, _ => (g, .stop)
  | some _, .check => (g, if g.isDone g.numDone then .first else .stop)
  | some w, .first => ({ g with out := g.out ++ w.beginEvents }, .proc)
  | some w, .proc => ({ g with out := g.out ++ w.procEvents (g.obuf g.numDone) }, .last)
  | some w, .last => ({ g with out := g.out ++ w.endEvents }, .advance)
  | some _, .advance => ({ g with obuf := update g.obuf g.numDone "", numDone := g.numDone + 1 }, .check)
  | some _, .stop => (g, .stop)

/-! ## The parallel loop -/

/-- Where a thread is in the loop over `wlLaunch`. -/
inductive Worker where
  | away
  | format (i : ℕ)
  | setDone (i : ℕ)
  | tryLock
  | print (pc : Printer)
deriving DecidableEq

/-- The parallel loop, the sweep after it, or the end. -/
inductive Phase where
  | parallel
  | sweep (pc : Printer)
  | finished
deriving DecidableEq

/-- The whole program: the next iteration, the lock, the threads and what they share. -/
structure State (T : ℕ) where
  phase : Phase := .parallel
  next : ℕ := 0
  locked : Bool := false
  workers : Fin T → Worker := fun _ => .away
  shared : Shared := {}

/-- A thread takes the next iteration, goes on, or does not get the lock; or the sweep goes on, when all threads are
through. -/
inductive Act (T : ℕ) where
  | take (t : Fin T)
  | run (t : Fin T)
  | noLock (t : Fin T)
  | sweep

variable (launch : List ℕ) (format : FileInfo → GroupInfo → ProcInfo → String) {T : ℕ}

/-- What `doWorkItem` leaves in the buffer of an item. -/
def WorkItem.text (w : WorkItem) : String := if w.pinfo.gapOnly then "" else format w.finfo w.ginfo w.pinfo

def State.move (s : State T) (t : Fin T) (worker : Worker) : State T :=
  { s with workers := update s.workers t worker }

/-- A step of a thread in the body of the loop. -/
def runWorker (s : State T) (t : Fin T) : Option (State T) :=
  match s.workers t with
  | .away => none
  | .format i =>
    match items[i]? with
    | none => none
    | some w =>
      some ({ s with shared.obuf := update s.shared.obuf i (w.text format) }.move t (.setDone i))
  | .setDone i => some ({ s with shared.isDone := update s.shared.isDone i true }.move t .tryLock)
  | .tryLock => if s.locked then none else some ({ s with locked := true }.move t (.print .check))
  | .print .stop => some ({ s with locked := false }.move t .away)
  | .print pc =>
    some ({ s with shared := (printStep items s.shared pc).1 }.move t (.print (printStep items s.shared pc).2))

def step (s : State T) : Act T → Option (State T)
  | .take t =>
    if s.workers t = .away then
      (launch[s.next]?).map fun i => { s with next := s.next + 1 }.move t (.format i)
    else none
  | .run t => runWorker items format s t
  | .noLock t => if s.workers t = .tryLock then some (s.move t .away) else none
  | .sweep =>
    match s.phase with
    | .parallel =>
      if launch.length ≤ s.next ∧ ∀ t, s.workers t = .away then some { s with phase := .sweep .check } else none
    | .sweep .stop => some { s with phase := .finished }
    | .sweep pc => some { s with shared := (printStep items s.shared pc).1, phase := .sweep (printStep items s.shared pc).2 }
    | .finished => none

end

end HpcToolkit.HpcStruct
