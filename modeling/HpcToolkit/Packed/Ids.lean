import HpcToolkit.Packed.ReadBack

/-! # Packed identifiers

`IdPacker` writes, for every context, a nonce that tells its children apart by hash, and the hash and id of
each child. `IdUnpacker` finds the id of a context from the id of its parent and the hash of its own scope.
The hash of a scope and a nonce is a parameter.
-/

open Function List

namespace HpcToolkit.Packed

open Lib

/-! ## Packing -/

/-- A context with its id. Children stand in the order of iteration. -/
inductive IdTree (S : Type) where
  | node (scope : S) (id : UInt32) (children : List (IdTree S))

namespace IdTree

variable {S : Type}

def scope : IdTree S → S
  | .node scope _ _ => scope

def id : IdTree S → UInt32
  | .node _ id _ => id

def children : IdTree S → List (IdTree S)
  | .node _ _ children => children

mutual
/-- The contexts in the order of `citerate`. -/
def walk : IdTree S → List (IdTree S)
  | .node scope id children => .node scope id children :: walkOf children

def walkOf : List (IdTree S) → List (IdTree S)
  | [] => []
  | c :: rest => c.walk ++ walkOf rest
end

end IdTree

section
variable {S : Type} (hash : S → UInt8 → UInt64)

/-- The hashes and ids of some children, sorted by hash. -/
def hashChildren (nonce : UInt8) (children : List (IdTree S)) : List (UInt64 × UInt32) :=
  (children.map fun c => (hash c.scope nonce, c.id)).mergeSort fun a b => a.1 ≤ b.1

/-- `is_unique`: no two neighbours have the same hash. -/
def isUnique : List (UInt64 × UInt32) → Bool
  | a :: b :: rest => a.1 != b.1 && isUnique (b :: rest)
  | _ => true

/-- The scan for a suitable nonce. -/
def findNonce (children : List (IdTree S)) : Option UInt8 :=
  ((range 20).map UInt8.ofNat).find? fun nonce => isUnique (hashChildren hash nonce children)

/-- An entry of the packed map: a context, its nonce and its children. -/
structure Entry where
  pid : UInt32
  nonce : UInt8
  children : List (UInt64 × UInt32)
deriving DecidableEq

/-- The entry of a context; there is none if no nonce is suitable. -/
def entryOf (c : IdTree S) : Option Entry := do
  let nonce ← findNonce hash c.children
  return ⟨c.id, nonce, hashChildren hash nonce c.children⟩

def packChild (child : UInt64 × UInt32) : List UInt8 := packU64 child.1 ++ packU64 child.2.toUInt64

def packEntry (e : Entry) : List UInt8 :=
  packU64 e.pid.toUInt64 ++ (packU8 e.nonce ++ (packU64 (.ofNat e.children.length) ++ e.children.flatMap packChild))

def packMetricId (metric : Str × UInt32) : List UInt8 := packU64 metric.2.toUInt64 ++ packString metric.1

/-- `IdPacker::notifyWavefront`, for the context tree and the names and base ids of the metrics. -/
def packIds (root : IdTree S) (metrics : List (Str × UInt32)) : Option (List UInt8) := do
  let entries ← root.walk.mapM (entryOf hash)
  return packU64 root.id.toUInt64 ++ (packU64 (.ofNat entries.length) ++ (entries.flatMap packEntry ++
    (packU64 (.ofNat metrics.length) ++ metrics.flatMap packMetricId)))

end

/-! ## Unpacking -/

/-- `idmap`, `metmap` and `globalid`. -/
structure IdMaps where
  globalid : UInt32
  idmap : UInt32 → Option (UInt8 × (UInt64 → Option UInt32))
  metmap : Str → Option UInt32

/-- `unsigned int id = unpack<std::uint64_t>(it)`. -/
def unpackId : Reader UInt32 := do return (← unpackU64).toUInt32

def unpackChild : Reader (UInt64 × UInt32) := do return (← unpackU64, ← unpackId)

def unpackEntry : Reader Entry := do
  let pid ← unpackId
  let nonce ← unpackU8
  let ccnt ← unpackU64
  let children ← readMany unpackChild ccnt.toNat
  return ⟨pid, nonce, children⟩

/-- `out.second[hash] = id` for each child. -/
def setChildren (ids : UInt64 → Option UInt32) (children : List (UInt64 × UInt32)) : UInt64 → Option UInt32 :=
  children.foldl (fun ids child => update ids child.1 (some child.2)) ids

def setEntry (idmap : UInt32 → Option (UInt8 × (UInt64 → Option UInt32))) (e : Entry) :
    UInt32 → Option (UInt8 × (UInt64 → Option UInt32)) :=
  let out := (idmap e.pid).getD (0, fun _ => none)
  update idmap e.pid (some (e.nonce, setChildren out.2 e.children))

/-- `metmap.insert({name, id})`, which keeps what is there. -/
def insertMetric (metmap : Str → Option UInt32) (metric : Str × UInt32) : Str → Option UInt32 :=
  if (metmap metric.1).isSome then metmap else update metmap metric.1 (some metric.2)

/-- `IdUnpacker::IdUnpacker` and `IdUnpacker::unpack`. -/
def unpackIds : Reader IdMaps := do
  let globalid ← unpackId
  let cnt ← unpackU64
  let entries ← readMany unpackEntry cnt.toNat
  let cnt ← unpackU64
  let metrics ← readMany (do
    let id ← unpackId
    let name ← unpackString
    return (name, id)) cnt.toNat
  return ⟨globalid, entries.foldl setEntry fun _ => none, metrics.foldl insertMetric fun _ => none⟩

section
variable {S : Type} (hash : S → UInt8 → UInt64)

/-- `IdUnpacker::identify` for a context below a parent with a known id. -/
def IdMaps.identifyChild (maps : IdMaps) (parent : UInt32) (scope : S) : Option UInt32 := do
  let ids ← maps.idmap parent
  ids.2 (hash scope ids.1)

/-- `IdUnpacker::identify` for a metric. -/
def IdMaps.identifyMetric (maps : IdMaps) (name : Str) : Option UInt32 := maps.metmap name

end

/-! ## Contexts of a tree -/

/-- A context tree of the unpacking process. -/
inductive Tree (S : Type) where
  | node (scope : S) (children : List (Tree S))

def Tree.scope {S : Type} : Tree S → S
  | .node scope _ => scope

def Tree.children {S : Type} : Tree S → List (Tree S)
  | .node _ children => children

section
variable {S : Type} [DecidableEq S]

/-- The context that some scopes lead to from the root. -/
def IdTree.follow : IdTree S → List S → Option (IdTree S)
  | c, [] => some c
  | c, scope :: path => do (← c.children.find? fun child => child.scope = scope).follow path

def Tree.follow : Tree S → List S → Option (Tree S)
  | c, [] => some c
  | c, scope :: path => do (← c.children.find? fun child => child.scope = scope).follow path

/-- The id that a context of a tree gets: contexts are identified as they are made, from the root down. -/
def IdMaps.identifyFrom (hash : S → UInt8 → UInt64) (maps : IdMaps) : UInt32 → Tree S → List S → Option UInt32
  | id, _, [] => some id
  | id, c, scope :: path => do
    let child ← c.children.find? fun child => child.scope = scope
    maps.identifyFrom hash (← maps.identifyChild hash id child.scope) child path

def IdMaps.identify (hash : S → UInt8 → UInt64) (maps : IdMaps) (root : Tree S) (path : List S) : Option UInt32 :=
  maps.identifyFrom hash maps.globalid root path

end

end HpcToolkit.Packed

/-! # Packed metrics

`Packed::packMetrics` writes a record for each context, and the number of contexts in front of them. The records of
`ParallelPacked::packMetrics` are the same, but the contexts are dealt to groups as the pipeline announces them, and
the threads that help copy the records of a group to its own part of the bytes. Announcements of several threads
interleave, and so do the bytes that are copied.
-/

namespace HpcToolkit.Packed

open Lib

/-- `StatisticAccumulator::raw_t`, an accumulator for each scope. -/
structure Raw where
  point : Double
  function : Double
  functionNoloops : Double
  execution : Double
  isLoop : Double
deriving DecidableEq

def rawZero : Raw := ⟨0, 0, 0, 0, 0⟩

/-- What a context knows about each metric: where it is used, and the accumulator of each partial if there are any. -/
structure ContextData (Met : Type) where
  usage : Met → BitVec 4
  getFor : Met → Option (ℕ → Raw)

/-- `src.metrics()`, with the identifiers and the number of partials. -/
structure MetricTable (Met : Type) where
  metrics : List Met
  identifier : Met → UInt32
  partials : Met → ℕ

section
variable {Met : Type} (table : MetricTable Met)

/-! ## One record -/

def packRaw (v : Raw) : List UInt8 :=
  packU64 v.point ++ (packU64 v.function ++ (packU64 v.functionNoloops ++ (packU64 v.execution ++ packU64 v.isLoop)))

/-- The value of a partial, or zero. -/
def rawOf (data : ContextData Met) (m : Met) (p : ℕ) : Raw :=
  match data.getFor m with
  | some v => v p
  | none => rawZero

def packMetricData (data : ContextData Met) (m : Met) : List UInt8 :=
  packU64 (table.identifier m).toUInt64 ++ (packScopes (data.usage m) ++
    (range (table.partials m)).flatMap fun p => packRaw (rawOf data m p))

def packRecord (c : IdTree (ContextData Met)) : List UInt8 :=
  packU64 c.id.toUInt64 ++ (packU64 (.ofNat table.metrics.length) ++ table.metrics.flatMap (packMetricData table c.scope))

def bytesPerCtx : ℕ := 8 + 8 + (table.metrics.map fun m => 8 + 1 + table.partials m * (5 * 8)).sum

/-! ## Serial -/

/-- Overwrites some bytes from `start` on. -/
def overwrite (out : List UInt8) (start : ℕ) (bytes : List UInt8) : List UInt8 :=
  out.take start ++ bytes ++ out.drop (start + bytes.length)

def packMetrics (root : IdTree (ContextData Met)) (out : List UInt8) : List UInt8 :=
  let start := out.length
  let (out, cnt) := root.walk.foldl (fun (s : List UInt8 × UInt64) c => (s.1 ++ packRecord table c, s.2 + 1))
    (out ++ packU64 0, 0)
  overwrite out start (packU64 cnt)

/-! ## Announcing contexts -/

/-- `ctxCnt` and `packMetricsGroups`, the threads inside `notifyContext` with the group and the context they have, and
the contexts that were announced. -/
structure Groups (C : Type) (T : ℕ) where
  ctxCnt : UInt64 := 0
  groups : ℕ → List C := fun _ => []
  pending : Fin T → Option (ℕ × C) := fun _ => none
  announced : List C := []

/-- A thread enters `notifyContext` and gets an index, or it appends its context to the group, under the lock. -/
inductive NotifyAct (C : Type) (T : ℕ) where
  | fetchAdd (t : Fin T) (ctx : C)
  | pushBack (t : Fin T)

/-- `ParallelPacked::notifyContext`, with `n` groups. -/
def Groups.step {C : Type} {T : ℕ} (n : ℕ) (s : Groups C T) : NotifyAct C T → Option (Groups C T)
  | .fetchAdd t ctx =>
    match s.pending t with
    | some _ => none
    | none =>
      some { s with
        ctxCnt := s.ctxCnt + 1
        pending := update s.pending t (some (s.ctxCnt.toNat % n, ctx))
        announced := s.announced ++ [ctx] }
  | .pushBack t =>
    match s.pending t with
    | none => none
    | some (i, ctx) =>
      some { s with
        groups := update s.groups i (s.groups i ++ [ctx])
        pending := update s.pending t none }

/-! ## Parallel -/

/-- A byte and its index in the output. -/
abbrev Write := UInt8 × ℕ

/-- `workitems`: each group with the number of contexts before it. -/
def workitems {C : Type} : ℕ → List (List C) → List (ℕ × List C)
  | _, [] => []
  | prev, g :: rest => (prev, g) :: workitems (prev + g.length) rest

/-- `packMetricGroup`: the bytes of a group, one after the other. -/
def packMetricGroup (task : ℕ × List (IdTree (ContextData Met))) : List Write :=
  (task.2.flatMap (packRecord table)).zipIdx (task.1 * bytesPerCtx table)

/-- The output, the groups that no thread has taken yet, what each thread still has to write, and what was written. -/
structure Packing (T : ℕ) where
  output : List UInt8
  queue : List (List Write)
  left : Fin T → List Write := fun _ => []
  written : List Write := []

/-- A thread that has nothing to do takes the next group, or a thread writes a byte. -/
inductive PackAct (T : ℕ) where
  | take (t : Fin T)
  | write (t : Fin T)

def Packing.step {T : ℕ} (s : Packing T) : PackAct T → Option (Packing T)
  | .take t =>
    match s.left t, s.queue with
    | [], group :: rest => some { s with queue := rest, left := update s.left t group }
    | _, _ => none
  | .write t =>
    match s.left t with
    | [] => none
    | (byte, i) :: rest =>
      some { s with
        output := s.output.set i byte
        left := update s.left t rest
        written := s.written ++ [(byte, i)] }

/-- `ParallelPacked::packMetrics` up to `fill`: the count, and the output and the work for the threads. -/
def Groups.packing {T : ℕ} (s : Groups (IdTree (ContextData Met)) T) (n W : ℕ) : List UInt8 × Packing W :=
  (packU64 s.ctxCnt,
    { output := replicate (s.ctxCnt.toNat * bytesPerCtx table) 0
      queue := (workitems 0 ((range n).map s.groups)).map (packMetricGroup table) })

end

/-- The metrics and the contexts of a sender. The packed bytes are a vector in memory. -/
structure Sender (Met : Type) where
  table : MetricTable Met
  root : IdTree (ContextData Met)
  fits : 8 + root.walk.length * bytesPerCtx table < 2 ^ 64

/-! ## Unpacking -/

/-- The tracker finds contexts and metrics of the receiving pipeline. -/
structure IdTracker (C M : Type) where
  contexts : UInt64 → Option C
  metrics : UInt64 → Option M
  partials : M → ℕ

/-- What `unpackMetrics` does to a context: `markUsed`, or `addRaw` to the accumulator of a partial. -/
inductive Contribution (C M : Type) where
  | markUsed (c : C) (m : M) (scopes : BitVec 4)
  | addRaw (c : C) (m : M) (p : ℕ) (value : Raw)

/-- `d == 0.0`; a zero may have a sign. -/
def isZero (d : Double) : Bool := d = 0 || d = 0x8000000000000000

/-- `value == rawZero()` -/
def Raw.isZero (v : Raw) : Bool :=
  Packed.isZero v.point && Packed.isZero v.function && Packed.isZero v.functionNoloops && Packed.isZero v.execution &&
    Packed.isZero v.isLoop

/-- What a metric adds to a context. -/
def contributions {C M : Type} (c : C) (m : M) (scopes : BitVec 4) (values : List Raw) : List (Contribution C M) :=
  .markUsed c m scopes :: (values.zipIdx.filter fun v => !v.1.isZero).map fun v => .addRaw c m v.2 v.1

def unpackRaw : Reader Raw := do return ⟨← unpackU64, ← unpackU64, ← unpackU64, ← unpackU64, ← unpackU64⟩

section
variable {C M : Type} (tracker : IdTracker C M)

/-- `at` -/
def lookup {α : Type} : Option α → Reader α
  | some x => pure x
  | none => failure

def unpackMetricData (c : C) : Reader (List (Contribution C M)) := do
  let m ← lookup (tracker.metrics (← unpackU64))
  let scopes ← unpackScopes
  let values ← readMany unpackRaw (tracker.partials m)
  return contributions c m scopes values

def unpackRecord : Reader (List (Contribution C M)) := do
  let c ← lookup (tracker.contexts (← unpackU64))
  let mcnt ← unpackU64
  let parts ← readMany (unpackMetricData tracker c) mcnt.toNat
  return parts.flatten

def unpackMetrics : Reader (List (Contribution C M)) := do
  let cnt ← unpackU64
  let parts ← readMany (unpackRecord tracker) cnt.toNat
  return parts.flatten

end

end HpcToolkit.Packed
