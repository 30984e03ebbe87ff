import HpcToolkit.Fmt.TraceDatum

/-! # Appending to a trace

A thread appends samples of its own clock, with an idle record in front of one that comes long after the sample before
it, and records with times from elsewhere. Next to the records a trace keeps their least and greatest time and whether
they are in order, updated record by record.
-/

open Function List

namespace HpcToolkit.TraceAppend

open Fmt.Trace

/-- What `core_profile_trace_data_t` has about the trace; `records` are those given to the output buffer. -/
structure CoreProfileTraceData where
  traceMinTimeUs : UInt64
  traceMaxTimeUs : UInt64
  traceIsOrdered : Bool
  traceLastTime : UInt64
  records : List Datum

namespace CoreProfileTraceData

/-- `core_profile_trace_data_init` -/
def initial : CoreProfileTraceData := ⟨0, 0, true, 0, []⟩

/-- `hpcrun_trace_append_with_time_real` without `LCA_TRACE`. -/
def append (cptd : CoreProfileTraceData) (callPathId metricId : UInt32) (nanotime : UInt64) : CoreProfileTraceData where
  traceMinTimeUs := if cptd.traceMinTimeUs = 0 then nanotime else cptd.traceMinTimeUs
  traceMaxTimeUs := if cptd.traceMaxTimeUs < nanotime then nanotime else cptd.traceMaxTimeUs
  traceIsOrdered := if cptd.traceLastTime > nanotime then false else cptd.traceIsOrdered
  traceLastTime := nanotime
  records := cptd.records ++ [⟨nanotime, callPathId, metricId⟩]

def times (cptd : CoreProfileTraceData) : List UInt64 := cptd.records.map Datum.comp

end CoreProfileTraceData

/-! ## Threads and traces -/

def traceGapFactor : UInt64 := 5

/-- `struct timeval` of `gettimeofday`. -/
structure Timeval where
  tvSec : UInt64
  tvUsec : UInt64
deriving DecidableEq

def Timeval.nanotime (tv : Timeval) : UInt64 := (tv.tvUsec + tv.tvSec * 1000000) * 1000

/-- The condition for an idle record. -/
def gap (prevNanotime nanotime samplingPeriod : UInt64) : Bool :=
  samplingPeriod > 0 ∧ prevNanotime ≠ 0 ∧ nanotime - prevNanotime > traceGapFactor * samplingPeriod

/-- `prev_nanotime` of each thread, the traces, and the nodes marked by `hpcrun_cct_retain`. -/
structure World (Thread Trace Node : Type) where
  prevNanotime : Thread → UInt64
  cptd : Trace → CoreProfileTraceData
  retained : List Node

/-- The nodes of the calling context trees: `hpcrun_cct_persistent_id` and
`hpcrun_cct_bundle_get_no_activity_node`. -/
structure Nodes (Trace Node : Type) where
  persistentId : Node → UInt32
  noActivityNode : Trace → Node

/-- The calls that append; `active` is `tracing && hpcrun_sample_prob_active()`. -/
inductive Call (Thread Trace Node : Type) where
  | append (active : Bool) (t : Thread) (c : Trace) (node : Node) (metricId : UInt32) (samplingPeriod : UInt64)
      (tv : Timeval)
  | appendStream (active : Bool) (c : Trace) (node : Node) (metricId : UInt32) (nanotime : UInt64)
  | appendWithTime (active : Bool) (c : Trace) (callPathId metricId : UInt32) (nanotime : UInt64)

variable {Thread Trace Node : Type} [DecidableEq Thread] [DecidableEq Trace]

namespace World

def start : World Thread Trace Node := ⟨fun _ => 0, fun _ => .initial, []⟩

def record (w : World Thread Trace Node) (c : Trace) (callPathId metricId : UInt32) (nanotime : UInt64) :
    World Thread Trace Node :=
  { w with cptd := update w.cptd c ((w.cptd c).append callPathId metricId nanotime) }

def retain (w : World Thread Trace Node) (node : Node) : World Thread Trace Node :=
  { w with retained := node :: w.retained }

def traceAppend (nodes : Nodes Trace Node) (w : World Thread Trace Node) (t : Thread) (c : Trace) (node : Node)
    (metricId : UInt32) (samplingPeriod : UInt64) (tv : Timeval) : World Thread Trace Node :=
  let prev := w.prevNanotime t
  let w := if gap prev tv.nanotime samplingPeriod then
      (w.retain (nodes.noActivityNode c)).record c (nodes.persistentId (nodes.noActivityNode c)) metricId
        (prev + samplingPeriod)
    else w
  let w := { w with prevNanotime := update w.prevNanotime t tv.nanotime }
  (w.retain node).record c (nodes.persistentId node) metricId tv.nanotime

def step (nodes : Nodes Trace Node) (w : World Thread Trace Node) : Call Thread Trace Node → World Thread Trace Node
  | .append active t c node metricId samplingPeriod tv =>
    if active then w.traceAppend nodes t c node metricId samplingPeriod tv else w
  | .appendStream active c node metricId nanotime =>
    if active then (w.retain node).record c (nodes.persistentId node) metricId nanotime else w
  | .appendWithTime active c callPathId metricId nanotime =>
    if active then w.record c callPathId metricId nanotime else w

def run (nodes : Nodes Trace Node) (calls : List (Call Thread Trace Node)) : World Thread Trace Node :=
  calls.foldl (step nodes) start

end World

/-! ## The times that are written -/

/-- The times that a call writes to a trace, by the clock of its thread. -/
def Call.stamps (c : Trace) (prevNanotime : Thread → UInt64) : Call Thread Trace Node → List UInt64
  | .append active t c' _ _ samplingPeriod tv =>
    if active ∧ c' = c then
      (if gap (prevNanotime t) tv.nanotime samplingPeriod then [prevNanotime t + samplingPeriod] else []) ++ [tv.nanotime]
    else []
  | .appendStream active c' _ _ nanotime => if active ∧ c' = c then [nanotime] else []
  | .appendWithTime active c' _ _ nanotime => if active ∧ c' = c then [nanotime] else []

def Call.clock (prevNanotime : Thread → UInt64) : Call Thread Trace Node → Thread → UInt64
  | .append active t _ _ _ _ tv => if active then update prevNanotime t tv.nanotime else prevNanotime
  | _ => prevNanotime

def stamps (c : Trace) : (Thread → UInt64) → List (Call Thread Trace Node) → List UInt64
  | _, [] => []
  | prevNanotime, call :: calls => call.stamps c prevNanotime ++ stamps c (call.clock prevNanotime) calls

lemma CoreProfileTraceData.times_append (d : CoreProfileTraceData) (callPathId metricId : UInt32) (nanotime : UInt64) :
    (d.append callPathId metricId nanotime).times = d.times ++ [nanotime] := by
  simp [times, append]

namespace World

variable {nodes : Nodes Trace Node} {w : World Thread Trace Node} {c : Trace}

omit [DecidableEq Thread] in
lemma cptd_record (c' : Trace) (callPathId metricId : UInt32) (nanotime : UInt64) :
    (w.record c' callPathId metricId nanotime).cptd c =
      if c' = c then (w.cptd c).append callPathId metricId nanotime else w.cptd c := by
  by_cases same : c' = c
  · subst same
    exact (update_self ..).trans (if_pos rfl).symm
  · exact (update_of_ne (Ne.symm same) ..).trans (if_neg same).symm

omit [DecidableEq Thread] in
lemma times_record (c' : Trace) (callPathId metricId : UInt32) (nanotime : UInt64) :
    ((w.record c' callPathId metricId nanotime).cptd c).times =
      (w.cptd c).times ++ if c' = c then [nanotime] else [] := by
  rw [cptd_record]
  split
  · exact CoreProfileTraceData.times_append ..
  · exact (append_nil _).symm

lemma times_step (call : Call Thread Trace Node) :
    ((w.step nodes call).cptd c).times = (w.cptd c).times ++ call.stamps c w.prevNanotime := by
  cases call with
  | append active t c' node metricId samplingPeriod tv =>
    cases active with
    | false => simp [step, Call.stamps]
    | true =>
      rw [step, if_pos rfl, traceAppend, times_record]
      by_cases idle : gap (w.prevNanotime t) tv.nanotime samplingPeriod
      · simp only [if_pos idle, retain, times_record, Call.stamps, true_and]
        split <;> simp
      · simp only [if_neg idle, retain, Call.stamps, true_and]
        split <;> simp
  | appendStream active c' node metricId nanotime =>
    cases active with
    | false => simp [step, Call.stamps]
    | true => simp [step, times_record, retain, Call.stamps]
  | appendWithTime active c' callPathId metricId nanotime =>
    cases active with
    | false => simp [step, Call.stamps]
    | true => simp [step, times_record, Call.stamps]

lemma prevNanotime_step (call : Call Thread Trace Node) :
    (w.step nodes call).prevNanotime = call.clock w.prevNanotime := by
  cases call with
  | append active t c' node metricId samplingPeriod tv =>
    cases active with
    | false => rfl
    | true =>
      by_cases idle : gap (w.prevNanotime t) tv.nanotime samplingPeriod
      all_goals simp [step, traceAppend, record, retain, Call.clock, idle]
  | appendStream active => cases active <;> rfl
  | appendWithTime active => cases active <;> rfl

lemma times_foldl (calls : List (Call Thread Trace Node)) :
    ((calls.foldl (step nodes) w).cptd c).times = (w.cptd c).times ++ stamps c w.prevNanotime calls := by
  induction calls generalizing w with
  | nil => exact (append_nil _).symm
  | cons call calls ih =>
    rw [foldl_cons, ih, times_step, prevNanotime_step, append_assoc]
    rfl

lemma times_run (calls : List (Call Thread Trace Node)) :
    ((run nodes calls).cptd c).times = stamps c (fun _ => 0) calls :=
  times_foldl calls

variable {P : CoreProfileTraceData → Prop}

lemma cptd_step (appended : ∀ d p m n, P d → P (d.append p m n)) (before : P (w.cptd c))
    (call : Call Thread Trace Node) : P ((w.step nodes call).cptd c) := by
  have record : ∀ {w : World Thread Trace Node} (c' p m n), P (w.cptd c) → P ((w.record c' p m n).cptd c) := by
    intro w c' p m n before
    rw [cptd_record]
    split
    · exact appended _ p m n before
    · exact before
  cases call with
  | append active t c' node metricId samplingPeriod tv =>
    cases active with
    | false => exact before
    | true =>
      rw [step, if_pos rfl, traceAppend]
      apply record
      by_cases idle : gap (w.prevNanotime t) tv.nanotime samplingPeriod
      · rw [if_pos idle]
        exact record _ _ _ _ before
      · rw [if_neg idle]
        exact before
  | appendStream active c' node metricId nanotime =>
    cases active with
    | false => exact before
    | true => exact record _ _ _ _ before
  | appendWithTime active c' callPathId metricId nanotime =>
    cases active with
    | false => exact before
    | true => exact record _ _ _ _ before

lemma cptd_run (initial : P .initial)
    (appended : ∀ d p m n, P d → P (d.append p m n)) (calls : List (Call Thread Trace Node)) :
    P ((run nodes calls).cptd c) := by
  suffices general : ∀ w : World Thread Trace Node, P (w.cptd c) → P ((calls.foldl (step nodes) w).cptd c) from
    general start initial
  induction calls with
  | nil => exact fun w before => before
  | cons call calls ih => exact fun w before => ih _ (cptd_step appended before call)

end World

/-! ## What is kept of the times -/

/-- The times of a trace are summed up right. -/
structure Summarises (d : CoreProfileTraceData) : Prop where
  least : d.times ≠ [] → IsLeast {t | t ∈ d.times} d.traceMinTimeUs
  greatest : d.times ≠ [] → IsGreatest {t | t ∈ d.times} d.traceMaxTimeUs
  ordered : d.traceIsOrdered = true ↔ d.times.Pairwise (· ≤ ·)

/-- No time is less than the first one, and it is zero only if all are. -/
def LeastFirst (times : List UInt64) : Prop :=
  ∀ first ∈ times.head?, ∀ t ∈ times, first ≤ t ∧ (first = 0 → t = 0)

instance (times : List UInt64) : Decidable (LeastFirst times) :=
  inferInstanceAs (Decidable (∀ first ∈ times.head?, ∀ t ∈ times, first ≤ t ∧ (first = 0 → t = 0)))

/-- What the updates really keep: for the minimum, the first time that is not zero. -/
structure Kept (d : CoreProfileTraceData) : Prop where
  min : d.traceMinTimeUs = (d.times.find? (· ≠ 0)).getD 0
  above : ∀ t ∈ d.times, t ≤ d.traceMaxTimeUs
  max : d.traceMaxTimeUs ∈ 0 :: d.times
  last : d.traceLastTime = d.times.getLastD 0
  ordered : d.traceIsOrdered = true ↔ d.times.Pairwise (· ≤ ·)

lemma kept_initial : Kept .initial :=
  ⟨rfl, fun _ member => absurd member not_mem_nil, mem_cons_self, rfl, iff_of_true rfl .nil⟩

variable {times : List UInt64}

lemma pairwise_append_iff {n : UInt64} :
    (times ++ [n]).Pairwise (· ≤ ·) ↔ times.Pairwise (· ≤ ·) ∧ times.getLastD 0 ≤ n := by
  rcases eq_nil_or_concat times with rfl | ⟨before, last, rfl⟩
  · simp
  · simp only [concat_eq_append, getLastD_concat, pairwise_append, mem_append, mem_singleton,
      pairwise_singleton, true_and, and_congr_right_iff]
    rintro ⟨-, order⟩
    constructor
    · exact fun all => all last (.inr rfl) n rfl
    · rintro above t (member | rfl) _ rfl
      · exact UInt64.le_trans (order t member last rfl) above
      · exact above

variable {d : CoreProfileTraceData}

lemma Kept.append (kept : Kept d) (p m : UInt32) (n : UInt64) : Kept (d.append p m n) where
  min := by
    rw [CoreProfileTraceData.times_append, find?_append, CoreProfileTraceData.append, kept.min]
    cases found : d.times.find? (· ≠ 0) with
    | none => by_cases zero : n = 0 <;> simp [zero]
    | some first =>
      have nonzero : first ≠ 0 := by simpa using find?_some found
      simp [nonzero]
  above := by
    intro t member
    rw [CoreProfileTraceData.times_append, mem_append, mem_singleton] at member
    change t ≤ if d.traceMaxTimeUs < n then n else d.traceMaxTimeUs
    split
    · rename_i less
      rcases member with member | rfl
      · exact UInt64.le_trans (kept.above t member) (UInt64.le_of_lt less)
      · exact UInt64.le_refl t
    · rename_i notLess
      rcases member with member | rfl
      · exact kept.above t member
      · exact UInt64.not_lt.mp notLess
  max := by
    rw [CoreProfileTraceData.times_append]
    change (if d.traceMaxTimeUs < n then n else d.traceMaxTimeUs) ∈ 0 :: (d.times ++ [n])
    split
    · exact mem_cons_of_mem _ (mem_append_right _ mem_cons_self)
    · exact mem_append_left [n] kept.max
  last := by rw [CoreProfileTraceData.times_append, getLastD_concat]; rfl
  ordered := by
    rw [CoreProfileTraceData.times_append, pairwise_append_iff, ← kept.last, ← kept.ordered]
    change (if d.traceLastTime > n then false else d.traceIsOrdered) = true ↔ _
    split
    · rename_i greater
      exact iff_of_false Bool.false_ne_true fun both => UInt64.not_le.mpr greater both.2
    · rename_i notGreater
      exact ⟨fun order => ⟨order, UInt64.not_lt.mp notGreater⟩, And.left⟩

lemma isLeast_find?_iff (some_time : times ≠ []) :
    IsLeast {t | t ∈ times} ((times.find? (· ≠ 0)).getD 0) ↔ LeastFirst times := by
  obtain ⟨first, rest, rfl⟩ := exists_cons_of_ne_nil some_time
  by_cases zero : first = 0
  · subst zero
    constructor
    · rintro ⟨-, below⟩ _ ⟨⟩ t member
      refine ⟨UInt64.zero_le, fun _ => ?_⟩
      cases found : (0 :: rest).find? (· ≠ 0) with
      | none => simpa using find?_eq_none.mp found t member
      | some u =>
        have nonzero : u ≠ 0 := by simpa using find?_some found
        have least := below mem_cons_self
        rw [found, Option.getD_some] at least
        exact absurd (UInt64.le_antisymm least UInt64.zero_le) nonzero
    · intro leastFirst
      have all : (0 :: rest).find? (· ≠ 0) = none := by
        rw [find?_eq_none]
        intro t member
        simp [(leastFirst 0 rfl t member).2 rfl]
      rw [all]
      exact ⟨mem_cons_self, fun t _ => UInt64.zero_le⟩
  · rw [find?_cons_of_pos (by simpa using zero), Option.getD_some]
    constructor
    · rintro ⟨-, below⟩ _ ⟨⟩ t member
      exact ⟨below member, fun isZero => absurd isZero zero⟩
    · exact fun leastFirst => ⟨mem_cons_self, fun t member => (leastFirst first rfl t member).1⟩

lemma Kept.summarises_iff_leastFirst (kept : Kept d) : Summarises d ↔ LeastFirst d.times := by
  constructor
  · intro right first head
    have some_time : d.times ≠ [] := by rintro empty; rw [empty] at head; cases head
    have least := right.least some_time
    rw [kept.min, isLeast_find?_iff some_time] at least
    exact least first head
  · intro leastFirst
    refine ⟨fun some_time => ?_, fun some_time => ⟨?_, kept.above⟩, kept.ordered⟩
    · rw [kept.min]
      exact (isLeast_find?_iff some_time).mpr leastFirst
    · rcases mem_cons.mp kept.max with zero | member
      · obtain ⟨t, rest, times⟩ := exists_cons_of_ne_nil some_time
        have inside : t ∈ d.times := by rw [times]; exact mem_cons_self
        have same : t = d.traceMaxTimeUs := by
          rw [zero]
          exact UInt64.le_antisymm (zero ▸ kept.above t inside) UInt64.zero_le
        exact same ▸ inside
      · exact member

/-- After any appends by any threads, idle records included, what a trace keeps of its times is right just in case the
first one written is the least. -/
theorem summarises_iff (nodes : Nodes Trace Node) (calls : List (Call Thread Trace Node)) (c : Trace) :
    Summarises ((World.run nodes calls).cptd c) ↔ LeastFirst (stamps c (fun _ => 0) calls) := by
  have kept : Kept ((World.run nodes calls).cptd c) :=
    World.cptd_run kept_initial (fun d p m n before => before.append p m n) calls
  rw [kept.summarises_iff_leastFirst, World.times_run]

/-- Two records of a GPU stream, the later one first. -/
def disorder : List (Call Unit Unit Unit) := [.appendStream true () () 0 7, .appendStream true () () 0 3]

theorem disorder_not_summarised : ¬ Summarises ((World.run ⟨fun _ => 1, fun _ => ()⟩ disorder).cptd ()) := by
  intro right
  have least := right.least (by decide)
  exact absurd (least.2 (show 3 ∈ _ by decide)) (by decide)

end HpcToolkit.TraceAppend
