import HpcToolkit.Lib.Exclusive
import HpcToolkit.Lib.Reachable
import HpcToolkit.Packed.IdsReadBack

/-! # Parallel and serial packing agree

Whatever the threads do, the parallel bytes are the records of the same contexts in another order, behind the number
of contexts, so the receiver gets the same contributions.
-/

open List
open Multiset (coe_add coe_nil coe_singleton)

namespace HpcToolkit.Packed

open Lib

section
variable {Met : Type} {table : MetricTable Met}

/-! ## Records -/

lemma length_packU64 (v : UInt64) : (packU64 v).length = 8 := length_toLE 8 v.toNat

lemma length_packRaw (v : Raw) : (packRaw v).length = 40 := by
  simp only [packRaw, length_append, length_packU64]

lemma length_packMetricData (data : ContextData Met) (m : Met) :
    (packMetricData table data m).length = 8 + 1 + table.partials m * (5 * 8) := by
  have values := length_flatMap_const (fun p => length_packRaw (rawOf data m p)) (range (table.partials m))
  rw [length_range] at values
  rw [packMetricData, length_append, length_append, length_packU64, values, packScopes, packU8,
    length_singleton]
  omega

lemma length_packRecord (c : IdTree (ContextData Met)) : (packRecord table c).length = bytesPerCtx table := by
  rw [packRecord, length_append, length_append, length_packU64, length_packU64, length_flatMap,
    bytesPerCtx]
  simp only [length_packMetricData]
  omega

lemma length_records (cs : List (IdTree (ContextData Met))) :
    (cs.flatMap (packRecord table)).length = cs.length * bytesPerCtx table := by
  rw [length_flatMap_const length_packRecord, Nat.mul_comm]

/-! ## Serial -/

lemma foldl_records (cs : List (IdTree (ContextData Met))) (out : List UInt8) (cnt : UInt64) :
    cs.foldl (fun (s : List UInt8 × UInt64) c => (s.1 ++ packRecord table c, s.2 + 1)) (out, cnt) =
      (out ++ cs.flatMap (packRecord table), cnt + .ofNat cs.length) := by
  induction cs generalizing out cnt with
  | nil => simp
  | cons c rest ih =>
    rw [foldl_cons, ih, flatMap_cons, append_assoc, length_cons]
    refine congrArg _ ?_
    have count : UInt64.ofNat (rest.length + 1) = .ofNat rest.length + 1 := UInt64.ofNat_add rest.length 1
    rw [count, add_assoc, add_comm 1]

/-- The bytes for some contexts: their number and their records. -/
def packed (table : MetricTable Met) (cs : List (IdTree (ContextData Met))) : List UInt8 :=
  packU64 (.ofNat cs.length) ++ cs.flatMap (packRecord table)

lemma packMetrics_eq (root : IdTree (ContextData Met)) (out : List UInt8) :
    packMetrics table root out = out ++ packed table root.walk := by
  have start : (out ++ (packU64 0 ++ root.walk.flatMap (packRecord table))).take out.length = out := take_left
  have rest : (out ++ (packU64 0 ++ root.walk.flatMap (packRecord table))).drop (out.length + 8) =
      root.walk.flatMap (packRecord table) := by
    rw [← drop_drop, drop_left, ← length_packU64 0, drop_left]
  rw [packMetrics]
  simp only [foldl_records, zero_add]
  rw [overwrite, length_packU64, append_assoc out, start, rest, packed, append_assoc]

end

/-! ## Announcing contexts -/

section
variable {C : Type} {T n : ℕ}

/-- The context that a thread has, if it is inside. -/
def heldContext (pending : Option (ℕ × C)) : Multiset C := (pending.map Prod.snd).elim 0 fun c => {c}

/-- Every context that was announced is in a group or with a thread. -/
structure Groups.Inv (n : ℕ) (s : Groups C T) : Prop where
  count : s.ctxCnt = .ofNat s.announced.length
  all : (∑ i ∈ Finset.range n, (s.groups i : Multiset C)) + ∑ t, heldContext (s.pending t) = s.announced
  inside : ∀ t i c, s.pending t = some (i, c) → i < n

lemma Groups.Inv.step {s s' : Groups C T} (positive : 0 < n) (inv : s.Inv n) {act : NotifyAct C T}
    (stepped : s.step n act = some s') : s'.Inv n := by
  cases act with
  | fetchAdd t ctx =>
    cases pending : s.pending t with
    | some _ => simp only [Groups.step, pending, reduceCtorEq] at stepped
    | none =>
      simp only [Groups.step, pending] at stepped
      cases stepped
      refine ⟨?_, ?_, ?_⟩
      · rw [length_append, length_singleton, inv.count]
        exact (UInt64.ofNat_add s.announced.length 1).symm
      · have held := sum_update_add heldContext s.pending (some (s.ctxCnt.toNat % n, ctx)) (Finset.mem_univ t)
        rw [pending, heldContext, Option.map_none, Option.elim_none, add_zero] at held
        rw [held, ← add_assoc, inv.all]
        rfl
      · refine (Function.forall_update_iff s.pending fun _ p => ∀ i c, p = some (i, c) → i < n).mpr
          ⟨fun i c here => ?_, fun u _ => inv.inside u⟩
        obtain ⟨rfl, rfl⟩ := Prod.mk.inj (Option.some.inj here)
        exact Nat.mod_lt _ positive
  | pushBack t =>
    cases pending : s.pending t with
    | none => simp only [Groups.step, pending, reduceCtorEq] at stepped
    | some here =>
      obtain ⟨i, ctx⟩ := here
      simp only [Groups.step, pending] at stepped
      cases stepped
      refine ⟨inv.count, ?_, ?_⟩
      · have held := sum_update_add heldContext s.pending none (Finset.mem_univ t)
        have grown := sum_update_add (fun g : List C => (g : Multiset C)) s.groups (s.groups i ++ [ctx])
          (Finset.mem_range.mpr (inv.inside t i ctx pending))
        rw [pending, show heldContext (some (i, ctx)) = {ctx} from rfl, show heldContext (none : Option (ℕ × C)) = 0
          from rfl, add_zero] at held
        rw [← coe_add, add_left_comm, add_comm, add_left_cancel_iff] at grown
        rw [grown, ← inv.all, ← held, coe_singleton]
        ac_rfl
      · exact (Function.forall_update_iff s.pending fun _ p => ∀ i c, p = some (i, c) → i < n).mpr
          ⟨fun i c here => (by cases here), fun u _ => inv.inside u⟩

variable {s : Groups C T}

lemma Groups.inv_of_reachable (positive : 0 < n) (reached : Reachable (Groups.step n) {} s) :
    s.Inv n := by
  refine reached.invariant ⟨rfl, ?_, fun t i c here => (by cases here)⟩ fun _ _ _ inv stepped => inv.step positive stepped
  simp [heldContext]

lemma coe_flatten_range (groups : ℕ → List C) (n : ℕ) :
    (((range n).map groups).flatten : Multiset C) = ∑ i ∈ Finset.range n, (groups i : Multiset C) := by
  induction n with
  | zero => rfl
  | succ n ih =>
    rw [range_succ, map_append, flatten_append, ← coe_add, ih, Finset.sum_range_succ,
      map_singleton, flatten_singleton]

lemma Groups.Inv.flatten_perm (inv : s.Inv n) (idle : ∀ t, s.pending t = none) :
    ((range n).map s.groups).flatten.Perm s.announced := by
  have all := inv.all
  have nobody : ∑ t, heldContext (s.pending t) = 0 := Finset.sum_eq_zero fun t _ => by rw [idle t]; rfl
  rw [nobody, add_zero, ← coe_flatten_range] at all
  exact Multiset.coe_eq_coe.mp all

end

/-! ## Copying records -/

section
variable {T : ℕ}

/-- The bytes in the order in which they were written. -/
def writeAll (output : List UInt8) (writes : List Write) : List UInt8 :=
  writes.foldl (fun output w => output.set w.2 w.1) output

lemma length_writeAll (output : List UInt8) (writes : List Write) : (writeAll output writes).length = output.length := by
  induction writes generalizing output with
  | nil => rfl
  | cons w rest ih => exact (ih _).trans length_set

variable {output : List UInt8} {writes : List Write}

lemma getElem?_writeAll_of_notMem {i : ℕ}
    (untouched : i ∉ writes.map Prod.snd) : (writeAll output writes)[i]? = output[i]? := by
  induction writes generalizing output with
  | nil => rfl
  | cons w rest ih =>
    obtain ⟨other, later⟩ := not_or.mp (mt mem_cons.mpr untouched)
    exact (ih later).trans (getElem?_set_ne (Ne.symm other))

lemma getElem?_writeAll (apart : (writes.map Prod.snd).Nodup) {byte : UInt8}
    {i : ℕ} (written : (byte, i) ∈ writes) (inside : i < output.length) : (writeAll output writes)[i]? = some byte := by
  induction writes generalizing output with
  | nil => exact absurd written not_mem_nil
  | cons w rest ih =>
    obtain ⟨once, apart⟩ := nodup_cons.mp apart
    rcases mem_cons.mp written with rfl | later
    · exact (getElem?_writeAll_of_notMem once).trans (getElem?_set_self inside)
    · exact ih apart later (by rwa [length_set])

lemma writeAll_of_perm {output bytes : List UInt8} (perm : writes.Perm bytes.zipIdx)
    (length : output.length = bytes.length) : writeAll output writes = bytes := by
  have apart : (writes.map Prod.snd).Nodup := by
    refine (perm.map Prod.snd).nodup_iff.mpr ?_
    rw [zipIdx_map_snd]
    exact nodup_range'
  refine ext_getElem? fun i => ?_
  by_cases inside : i < bytes.length
  · have listed : (bytes[i], i) ∈ writes := perm.mem_iff.mpr (mk_mem_zipIdx_iff_getElem?.mpr (by simp [inside]))
    rw [getElem?_writeAll apart listed (by omega), getElem?_eq_getElem inside]
  · rw [getElem?_eq_none (by rw [length_writeAll]; omega), getElem?_eq_none (by omega)]

/-- Everything is written, with a thread, or in the queue. -/
structure Packing.Inv (output : List UInt8) (work : List Write) (s : Packing T) : Prop where
  output : s.output = writeAll output s.written
  all : (s.written : Multiset Write) + ∑ t, (s.left t : Multiset Write) + s.queue.flatten = work

variable {work : List Write}

lemma Packing.Inv.step {s s' : Packing T} (inv : s.Inv output work)
    {act : PackAct T} (stepped : s.step act = some s') : s'.Inv output work := by
  cases act with
  | take t =>
    cases left : s.left t with
    | cons w rest => simp only [Packing.step, left, reduceCtorEq] at stepped
    | nil =>
      cases queue : s.queue with
      | nil => simp only [Packing.step, left, queue, reduceCtorEq] at stepped
      | cons group rest =>
        simp only [Packing.step, left, queue] at stepped
        cases stepped
        refine ⟨inv.output, ?_⟩
        have taken := sum_update_add (fun l : List Write => (l : Multiset Write)) s.left group (Finset.mem_univ t)
        have before := inv.all
        rw [left, coe_nil, add_zero] at taken
        rw [queue, flatten_cons, ← coe_add] at before
        rw [taken, ← before]
        ac_rfl
  | write t =>
    cases left : s.left t with
    | nil => simp only [Packing.step, left, reduceCtorEq] at stepped
    | cons w rest =>
      simp only [Packing.step, left] at stepped
      cases stepped
      refine ⟨?_, ?_⟩
      · rw [inv.output, writeAll, writeAll, foldl_append]
        rfl
      · have written := sum_update_add (fun l : List Write => (l : Multiset Write)) s.left rest (Finset.mem_univ t)
        rw [left, ← Multiset.cons_coe, ← Multiset.singleton_add, ← add_assoc, add_right_cancel_iff] at written
        dsimp only
        rw [← coe_add, coe_singleton, ← inv.all, ← written]
        ac_rfl

lemma Packing.Inv.written_perm {s : Packing T} (inv : s.Inv output work)
    (taken : s.queue = []) (done : ∀ t, s.left t = []) : s.written.Perm work := by
  have all := inv.all
  have nothing : ∑ t, (s.left t : Multiset Write) = 0 := Finset.sum_eq_zero fun t _ => by rw [done t]; rfl
  rw [nothing, taken, flatten_nil, coe_nil, add_zero, add_zero] at all
  exact Multiset.coe_eq_coe.mp all

end

/-! ## Parallel -/

section
variable {Met : Type} {T W n : ℕ}

lemma flatMap_packMetricGroup (table : MetricTable Met) (groups : List (List (IdTree (ContextData Met)))) (prev : ℕ) :
    (workitems prev groups).flatMap (packMetricGroup table) =
      (groups.flatten.flatMap (packRecord table)).zipIdx (prev * bytesPerCtx table) := by
  induction groups generalizing prev with
  | nil => rfl
  | cons g rest ih =>
    rw [workitems, flatMap_cons, ih, flatten_cons, flatMap_append, zipIdx_append, length_records,
      Nat.add_mul, packMetricGroup]

/-- `ParallelPacked::packMetrics` when all threads are done. -/
structure ParallelRun (sender : Sender Met) (T W n : ℕ) where
  groups : Groups (IdTree (ContextData Met)) T
  packing : Packing W
  announced : groups.announced.Perm sender.root.walk
  reached : Reachable (Groups.step n) {} groups
  idle : ∀ t, groups.pending t = none
  packed : Reachable Packing.step (groups.packing sender.table n W).2 packing
  taken : packing.queue = []
  done : ∀ t, packing.left t = []

/-- What the master appends to the bytes. -/
def ParallelRun.packMetrics {sender : Sender Met} (run : ParallelRun sender T W n) (out : List UInt8) : List UInt8 :=
  out ++ (run.groups.packing sender.table n W).1 ++ run.packing.output

lemma Sender.contexts_lt (sender : Sender Met) : sender.root.walk.length < 2 ^ 64 := by
  have fits := sender.fits
  have size : 1 ≤ bytesPerCtx sender.table := by rw [bytesPerCtx]; omega
  have more := Nat.le_mul_of_pos_right sender.root.walk.length size
  omega

lemma ParallelRun.packMetrics_eq {sender : Sender Met} (positive : 0 < n) (run : ParallelRun sender T W n) :
    ∃ cs, cs.Perm sender.root.walk ∧ ∀ out, run.packMetrics out = out ++ Packed.packed sender.table cs := by
  have groups := Groups.inv_of_reachable positive run.reached
  have perm := (groups.flatten_perm run.idle).trans run.announced
  have count : run.groups.ctxCnt = .ofNat sender.root.walk.length := by
    rw [groups.count, run.announced.length_eq]
  refine ⟨((range n).map run.groups.groups).flatten, perm, fun out => ?_⟩
  have fresh : (run.groups.packing sender.table n W).2.Inv (run.groups.packing sender.table n W).2.output
      ((((range n).map run.groups.groups).flatten.flatMap (packRecord sender.table)).zipIdx 0) := by
    refine ⟨rfl, ?_⟩
    have work := flatMap_packMetricGroup sender.table ((range n).map run.groups.groups) 0
    rw [Nat.zero_mul] at work
    rw [← work]
    simp [Groups.packing, flatMap]
  have inv := run.packed.invariant fresh fun _ _ _ inv stepped => inv.step stepped
  have output := inv.output.trans (writeAll_of_perm (inv.written_perm run.taken run.done) ?_)
  · rw [ParallelRun.packMetrics, output, Packed.packed, Groups.packing, count, perm.length_eq, append_assoc]
  · rw [length_records, perm.length_eq, Groups.packing, length_replicate, count,
      toNat_ofNat_size sender.contexts_lt]

end

/-! ## Unpacking -/

section
variable {Met C M : Type} {T W n : ℕ}

/-- The receiver has the identifiers of the sender, and the same partials for each metric. -/
structure IdTracker.Knows (tracker : IdTracker C M) (sender : Sender Met) : Prop where
  contexts : ∀ c ∈ sender.root.walk, ∃ c', tracker.contexts c.id.toUInt64 = some c'
  metrics : ∀ m ∈ sender.table.metrics, ∃ m', tracker.metrics (sender.table.identifier m).toUInt64 = some m' ∧
    tracker.partials m' = sender.table.partials m

lemma reads_raw (v : Raw) : Reads unpackRaw (packRaw v) v := by
  refine (reads_u64 v.point).bind ?_
  refine (reads_u64 v.function).bind ?_
  refine (reads_u64 v.functionNoloops).bind ?_
  refine (reads_u64 v.execution).bind ?_
  exact (reads_u64 v.isLoop).finish (reads_pure v)

/-- What the receiver does for one metric of a context. -/
def receivedMetric (tracker : IdTracker C M) (table : MetricTable Met) (c : IdTree (ContextData Met)) (m : Met) :
    List (Contribution C M) :=
  match tracker.contexts c.id.toUInt64, tracker.metrics (table.identifier m).toUInt64 with
  | some c', some m' =>
    contributions c' m' (c.scope.usage m) ((range (table.partials m)).map (rawOf c.scope m))
  | _, _ => []

/-- What the receiver does for a context. -/
def received (tracker : IdTracker C M) (table : MetricTable Met) (c : IdTree (ContextData Met)) :
    List (Contribution C M) :=
  table.metrics.flatMap (receivedMetric tracker table c)

variable {tracker : IdTracker C M} {sender : Sender Met}

variable {c : IdTree (ContextData Met)}

lemma reads_metricData (knows : tracker.Knows sender) {c' : C}
    (found : tracker.contexts c.id.toUInt64 = some c') {m : Met} (listed : m ∈ sender.table.metrics) :
    Reads (unpackMetricData tracker c') (packMetricData sender.table c.scope m)
      (receivedMetric tracker sender.table c m) := by
  obtain ⟨m', here, partials⟩ := knows.metrics m listed
  have result : receivedMetric tracker sender.table c m =
      contributions c' m' (c.scope.usage m) ((range (sender.table.partials m)).map (rawOf c.scope m)) := by
    simp only [receivedMetric, found, here]
  rw [result]
  refine (reads_u64 _).bind ?_
  rw [here]
  refine (reads_pure m').bind ((reads_scopes _).bind ?_)
  rw [partials]
  have values : Reads (readMany unpackRaw (sender.table.partials m))
      ((range (sender.table.partials m)).flatMap fun p => packRaw (rawOf c.scope m p))
      ((range (sender.table.partials m)).map (rawOf c.scope m)) := by
    have many := reads_readMany_map
      fun p (_ : p ∈ range (sender.table.partials m)) => reads_raw (rawOf c.scope m p)
    rwa [length_range] at many
  exact values.finish (reads_pure _)

lemma Sender.metrics_lt (sender : Sender Met) : sender.table.metrics.length < 2 ^ 64 := by
  have fits := sender.fits
  have nonempty : 0 < sender.root.walk.length := length_pos_of_mem sender.root.mem_walk_self
  have more := Nat.le_mul_of_pos_left (bytesPerCtx sender.table) nonempty
  have sum : sender.table.metrics.length ≤
      (sender.table.metrics.map fun m => 8 + 1 + sender.table.partials m * (5 * 8)).sum := by
    have each := length_le_sum_of_one_le
      (sender.table.metrics.map fun m => 8 + 1 + sender.table.partials m * (5 * 8)) fun size listed => by
        obtain ⟨m, _, rfl⟩ := mem_map.mp listed
        omega
    rwa [length_map] at each
  rw [bytesPerCtx] at more fits
  omega

lemma reads_record (knows : tracker.Knows sender) (listed : c ∈ sender.root.walk) :
    Reads (unpackRecord tracker) (packRecord sender.table c) (received tracker sender.table c) := by
  obtain ⟨c', found⟩ := knows.contexts c listed
  refine (reads_u64 _).bind ?_
  rw [found]
  refine (reads_pure c').bind ((reads_u64 _).bind ?_)
  rw [toNat_ofNat_size sender.metrics_lt]
  exact (reads_readMany_map fun m member => reads_metricData knows found member).finish (reads_pure _)

lemma reads_packed (knows : tracker.Knows sender) {cs : List (IdTree (ContextData Met))}
    (perm : cs.Perm sender.root.walk) :
    Reads (unpackMetrics tracker) (packed sender.table cs) (cs.flatMap (received tracker sender.table)) := by
  have small : cs.length < 2 ^ 64 := perm.length_eq ▸ sender.contexts_lt
  refine (reads_u64 _).bind ?_
  rw [toNat_ofNat_size small]
  exact (reads_readMany_map fun c member => reads_record knows (perm.mem_iff.mp member)).finish (reads_pure _)

/-- For every way in which the contexts were announced and the groups were copied, by any number of threads, the
parallel bytes are a count and that many records, one for each context, and the receiver gets the same contributions
from them as from the serial bytes. -/
theorem parallel_packMetrics_agrees (knows : tracker.Knows sender) {teamSize : ℕ} (team : 0 < teamSize)
    (run : ParallelRun sender T W (teamSize * 5)) :
    (∃ records : List (IdTree (ContextData Met)), records.Perm sender.root.walk ∧ ∀ out, run.packMetrics out =
        out ++ (packU64 (.ofNat records.length) ++ records.flatMap (packRecord sender.table))) ∧
      ∃ serial parallel, serial.Perm parallel ∧
        Reads (unpackMetrics tracker) (packMetrics sender.table sender.root []) serial ∧
        Reads (unpackMetrics tracker) (run.packMetrics []) parallel := by
  obtain ⟨cs, perm, bytes⟩ := run.packMetrics_eq (Nat.mul_pos team (by decide))
  refine ⟨⟨cs, perm, bytes⟩, ?_⟩
  have same := perm.flatMap_right (received tracker sender.table)
  refine ⟨_, _, same.symm, ?_, ?_⟩
  · rw [packMetrics_eq, nil_append]
    exact reads_packed knows (List.Perm.refl _)
  · rw [bytes, nil_append]
    exact reads_packed knows perm

end

/-! ## Two contexts and two threads -/

/-- A metric with one partial, which the child has a value of one for. -/
def smallTable : MetricTable Unit := ⟨[()], fun _ => 4, fun _ => 1⟩

def smallChild : IdTree (ContextData Unit) := .node ⟨fun _ => 15, fun _ => some fun _ => ⟨one, one, one, one, 0⟩⟩ 1 []

def smallSender : Sender Unit where
  table := smallTable
  root := .node ⟨fun _ => 0, fun _ => none⟩ 0 [smallChild]
  fits := by decide

def smallTracker : IdTracker UInt64 Unit := ⟨some, fun _ => some (), fun _ => 1⟩

/-- The child is announced while another thread is still about to append the root. -/
def smallAnnounced (t u : Fin 2) : List (NotifyAct (IdTree (ContextData Unit)) 2) :=
  [.fetchAdd t smallSender.root, .fetchAdd u smallChild, .pushBack u, .pushBack t]

/-- Two threads copy the two records byte by byte, in turn. -/
def smallCopied (t u : Fin 2) : List (PackAct 2) :=
  [PackAct.take t, .take u] ++ (replicate 65 [PackAct.write u, .write t]).flatten ++ [PackAct.take t, .take t, .take u]

theorem smallSender_agrees : smallTracker.Knows smallSender ∧ ∃ (run : ParallelRun smallSender 2 2 (1 * 5))
    (serial parallel : List (Contribution UInt64 Unit)), serial.Perm parallel ∧
      Reads (unpackMetrics smallTracker) (packMetrics smallTable smallSender.root []) serial ∧
      Reads (unpackMetrics smallTracker) (run.packMetrics []) parallel := by
  have knows : smallTracker.Knows smallSender := ⟨fun c _ => ⟨_, rfl⟩, fun m _ => ⟨(), rfl, rfl⟩⟩
  have announced : ((smallAnnounced 0 1).foldlM (Groups.step (1 * 5)) {}).map
      (fun s => (s.announced, s.pending 0, s.pending 1)) = some ([smallSender.root, smallChild], none, none) := rfl
  have copied : (((smallAnnounced 0 1).foldlM (Groups.step (1 * 5)) {}).bind fun groups => ((smallCopied 0 1).foldlM
      Packing.step (groups.packing smallTable (1 * 5) 2).2).map fun s => (s.queue, s.left 0, s.left 1)) =
      some ([], [], []) := by
    decide +kernel
  obtain ⟨groups, reached, copied⟩ := Option.bind_eq_some_iff.mp copied
  obtain ⟨packing, packed, final⟩ := Option.map_eq_some_iff.mp copied
  rw [reached, Option.map_some, Option.some_inj, Prod.mk.injEq, Prod.mk.injEq] at announced
  rw [Prod.mk.injEq, Prod.mk.injEq] at final
  have run : ParallelRun smallSender 2 2 (1 * 5) :=
    { groups, packing
      announced := by rw [announced.1]; rfl
      reached := Reachable.start.run reached
      idle := Fin.forall_fin_two.mpr announced.2
      packed := Reachable.start.run packed
      taken := final.1
      done := Fin.forall_fin_two.mpr final.2 }
  exact ⟨knows, run, (parallel_packMetrics_agrees knows Nat.one_pos run).2⟩

end HpcToolkit.Packed
