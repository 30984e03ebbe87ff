import HpcToolkit.Lib.MergeAll

/-! # The bounds of all timepoints

Every thread keeps the least and the greatest of its times. Each worker joins the bounds of the threads that it
completes, and the workers join theirs under a lock.
-/

open List

namespace HpcToolkit.Pipeline.TimeBounds

open Lib

/-- `std::chrono::nanoseconds`, counted in 64 bits with a sign. -/
def Nanoseconds : Type := Int64
deriving DecidableEq

instance : LinearOrder Nanoseconds where
  le := Int64.le
  lt := Int64.lt
  le_refl := Int64.le_refl
  le_trans _ _ _ := Int64.le_trans
  le_antisymm _ _ := Int64.le_antisymm
  le_total := Int64.le_total
  lt_iff_le_not_ge _ _ :=
    ⟨fun less => ⟨Int64.le_of_lt less, Int64.not_le.mpr less⟩, fun order => Int64.not_le.mp order.2⟩
  toDecidableLE := Int64.decLe
  toDecidableLT := Int64.decLt
  toDecidableEq := instDecidableEqNanoseconds

/-- `nanoseconds::min()` and `nanoseconds::max()`. -/
instance : BoundedOrder Nanoseconds where
  bot := Int64.minValue
  bot_le := Int64.minValue_le
  top := Int64.maxValue
  le_top := Int64.le_maxValue

abbrev Bounds := Nanoseconds × Nanoseconds

variable {Metric : Type} [DecidableEq Metric]

/-- The part of a `PerThreadTemporary` for the timepoints: their bounds, and the metrics that have some. -/
structure PerThreadTemporary (Metric : Type) where
  minTime : Nanoseconds := ⊤
  maxTime : Nanoseconds := ⊥
  metricTpData : List Metric := []

/-- A timepoint of a context or of a metric's value, as a source sends it. -/
structure Timepoint (Metric : Type) where
  metric : Option Metric
  time : Nanoseconds

/-- What `Source::timepoint` does to the bounds. -/
def timepoint (tt : PerThreadTemporary Metric) (tp : Timepoint Metric) : PerThreadTemporary Metric where
  minTime := min tt.minTime tp.time
  maxTime := max tt.maxTime tp.time
  metricTpData :=
    match tp.metric with
    | none => tt.metricTpData
    | some m => if m ∈ tt.metricTpData then tt.metricTpData else tt.metricTpData ++ [m]

/-- A thread, with all timepoints in the order in which they come. -/
abbrev Recorded (Metric : Type) := List (Timepoint Metric)

def thread (recorded : Recorded Metric) : PerThreadTemporary Metric := recorded.foldl timepoint {}

/-- The join of two bounds. -/
def widen (a b : Bounds) : Bounds := (min a.1 b.1, max a.2 b.2)

/-- What `drain` does to the bounds of its worker. -/
def drain (tt : PerThreadTemporary Metric) (localTimepointBounds : Option Bounds) : Option Bounds :=
  if ⊥ < tt.minTime then
    match localTimepointBounds with
    | some bounds => some (min bounds.1 tt.minTime, max bounds.2 tt.maxTime)
    | none => some (tt.minTime, tt.maxTime)
  else localTimepointBounds

/-- `complete` drains the timepoints of the contexts and then those of each metric. -/
def complete (localTimepointBounds : Option Bounds) (tt : PerThreadTemporary Metric) : Option Bounds :=
  tt.metricTpData.foldl (fun bounds _ => drain tt bounds) (drain tt localTimepointBounds)

/-- The bounds of a worker after the threads that it has got. -/
def localBounds (threads : List (Recorded Metric)) : Option Bounds := (threads.map thread).foldl complete none

/-- What a worker does under the lock. -/
def update (timepointBounds localTimepointBounds : Option Bounds) : Option Bounds :=
  match localTimepointBounds, timepointBounds with
  | none, _ => timepointBounds
  | some l, some bounds => some (min bounds.1 l.1, max bounds.2 l.2)
  | some l, none => some l

/-- The bounds after the run: the threads of each worker, and the workers in the order in which they get the lock. -/
def run (workers : List (List (Recorded Metric))) : Option Bounds := (workers.map localBounds).foldl update none

/-- The times of some threads. -/
def times (threads : List (Recorded Metric)) : List Nanoseconds := threads.flatten.map (·.time)

/-- The bounds of some times: absent without any, and otherwise the least and the greatest time. -/
structure Exact (bounds : Option Bounds) (times : List Nanoseconds) : Prop where
  absent : bounds = none ↔ times = []
  least : ∀ b, bounds = some b → IsLeast {t | t ∈ times} b.1
  greatest : ∀ b, bounds = some b → IsGreatest {t | t ∈ times} b.2

section Joining

instance : Std.Associative widen := ⟨fun a b c => Prod.ext (min_assoc a.1 b.1 c.1) (max_assoc a.2 b.2 c.2)⟩
instance : Std.IdempotentOp widen := ⟨fun a => Prod.ext (min_self a.1) (max_self a.2)⟩

/-- The bounds that a thread has for its worker. -/
def contribution (tt : PerThreadTemporary Metric) : Option Bounds :=
  if ⊥ < tt.minTime then some (tt.minTime, tt.maxTime) else none

omit [DecidableEq Metric] in
lemma drain_eq_merge (tt : PerThreadTemporary Metric) (bounds : Option Bounds) :
    drain tt bounds = Option.merge widen bounds (contribution tt) := by
  unfold drain contribution
  split
  · cases bounds <;> rfl
  · cases bounds <;> rfl

omit [DecidableEq Metric] in
lemma complete_eq_merge (bounds : Option Bounds) (tt : PerThreadTemporary Metric) :
    complete bounds tt = Option.merge widen bounds (contribution tt) := by
  have again : ∀ metrics : List Metric,
      metrics.foldl (fun bounds _ => drain tt bounds) (drain tt bounds) = drain tt bounds := by
    intro metrics
    induction metrics with
    | nil => rfl
    | cons m metrics ih =>
      have twice : drain tt (drain tt bounds) = drain tt bounds := by
        rw [drain_eq_merge, drain_eq_merge, Lib.merge_assoc, Lib.merge_self]
      rw [foldl_cons, twice]
      exact ih
  rw [complete, again, drain_eq_merge]

lemma update_eq_merge (bounds : Option Bounds) (l : Option Bounds) : update bounds l = Option.merge widen bounds l := by
  cases bounds <;> cases l <;> rfl

/-- The joined bounds of some threads. -/
def joined (threads : List (Recorded Metric)) : Option Bounds :=
  (threads.map fun recorded => contribution (thread recorded)).foldl (Option.merge widen) none

lemma localBounds_eq_joined (threads : List (Recorded Metric)) : localBounds threads = joined threads := by
  rw [localBounds, joined, foldl_map, foldl_map]
  congr 1
  funext bounds recorded
  exact complete_eq_merge bounds (thread recorded)

lemma run_eq_joined (workers : List (List (Recorded Metric))) : run workers = joined workers.flatten := by
  have update_merge : update = Option.merge widen := funext fun bounds => funext (update_eq_merge bounds)
  have shares : workers.map localBounds = (workers.map fun threads =>
      threads.map fun recorded => contribution (thread recorded)).map fun values =>
        values.foldl (Option.merge widen) none := by
    rw [map_map]
    exact map_congr_left fun threads _ => localBounds_eq_joined threads
  rw [run, update_merge, shares, foldl_merge_flatten, joined, map_flatten]

end Joining

section Lowest

variable {T : Type} [LinearOrder T]

variable {x first : T} {ts : List T}

lemma le_foldl_min : x ≤ ts.foldl min first ↔ x ≤ first ∧ ∀ t ∈ ts, x ≤ t := by
  induction ts generalizing first with
  | nil => simp
  | cons t ts ih => simp [ih, and_assoc]

lemma foldl_max_le : ts.foldl max first ≤ x ↔ first ≤ x ∧ ∀ t ∈ ts, t ≤ x := by
  induction ts generalizing first with
  | nil => simp
  | cons t ts ih => simp [ih, and_assoc]

lemma foldl_min_append [OrderTop T] (left right : List T) :
    (left ++ right).foldl min ⊤ = min (left.foldl min ⊤) (right.foldl min ⊤) := by
  refine eq_of_forall_le_iff fun x => ?_
  simp only [le_foldl_min, le_min_iff, mem_append, le_top, true_and]
  exact ⟨fun all => ⟨fun t inside => all t (.inl inside), fun t inside => all t (.inr inside)⟩,
    fun both t inside => inside.elim (both.1 t) (both.2 t)⟩

lemma foldl_max_append [OrderBot T] (left right : List T) :
    (left ++ right).foldl max ⊥ = max (left.foldl max ⊥) (right.foldl max ⊥) := by
  refine eq_of_forall_ge_iff fun x => ?_
  simp only [foldl_max_le, max_le_iff, mem_append, bot_le, true_and]
  exact ⟨fun all => ⟨fun t inside => all t (.inl inside), fun t inside => all t (.inr inside)⟩,
    fun both t inside => inside.elim (both.1 t) (both.2 t)⟩

lemma foldl_min_mem (ts : List T) (first : T) : ts.foldl min first = first ∨ ts.foldl min first ∈ ts := by
  induction ts generalizing first with
  | nil => exact .inl rfl
  | cons t ts ih =>
    rw [foldl_cons]
    rcases ih (min first t) with same | inside
    · rw [same]
      rcases min_choice first t with chosen | chosen
      · exact .inl chosen
      · exact .inr (by rw [chosen]; exact mem_cons_self)
    · exact .inr (mem_cons_of_mem t inside)

lemma isLeast_foldl_min [OrderTop T] (some_time : ts ≠ []) : IsLeast {t | t ∈ ts} (ts.foldl min ⊤) := by
  have below : ∀ t ∈ ts, ts.foldl min ⊤ ≤ t := (le_foldl_min.mp le_rfl).2
  refine ⟨?_, fun t inside => below t inside⟩
  rcases foldl_min_mem ts ⊤ with top | inside
  · obtain ⟨t, inside⟩ := exists_mem_of_ne_nil ts some_time
    have is_top : t = ⊤ := top_unique (top ▸ below t inside)
    change ts.foldl min ⊤ ∈ ts
    rw [top, ← is_top]
    exact inside
  · exact inside

lemma isGreatest_foldl_max [OrderBot T] (some_time : ts ≠ []) :
    IsGreatest {t | t ∈ ts} (ts.foldl max ⊥) :=
  isLeast_foldl_min (T := Tᵒᵈ) some_time

end Lowest

omit [DecidableEq Metric] in
lemma times_cons (recorded : Recorded Metric) (threads : List (Recorded Metric)) :
    times (recorded :: threads) = recorded.map (·.time) ++ times threads := by
  rw [times, flatten_cons, map_append, times]

lemma thread_bounds (recorded : Recorded Metric) :
    (thread recorded).minTime = (recorded.map (·.time)).foldl min ⊤ ∧
      (thread recorded).maxTime = (recorded.map (·.time)).foldl max ⊥ := by
  have later : ∀ (recorded : Recorded Metric) (tt : PerThreadTemporary Metric),
      (recorded.foldl timepoint tt).minTime = (recorded.map (·.time)).foldl min tt.minTime ∧
        (recorded.foldl timepoint tt).maxTime = (recorded.map (·.time)).foldl max tt.maxTime := by
    intro recorded
    induction recorded with
    | nil => exact fun _ => ⟨rfl, rfl⟩
    | cons tp recorded ih => exact fun tt => ih (timepoint tt tp)
  exact later recorded {}

lemma contribution_of_bot_not_mem {recorded : Recorded Metric} (fits : ⊥ ∉ recorded.map (·.time)) :
    contribution (thread recorded) =
      some ((recorded.map (·.time)).foldl min ⊤, (recorded.map (·.time)).foldl max ⊥) := by
  have above : ⊥ < (thread recorded).minTime := by
    rw [(thread_bounds recorded).1, bot_lt_iff_ne_bot]
    intro bottom
    rcases foldl_min_mem (recorded.map (·.time)) ⊤ with top | inside
    · exact absurd (top.symm.trans bottom) (by decide)
    · exact fits (bottom ▸ inside)
  rw [contribution, if_pos above, (thread_bounds recorded).1, (thread_bounds recorded).2]

lemma joined_cons (recorded : Recorded Metric) (threads : List (Recorded Metric)) :
    joined (recorded :: threads) = Option.merge widen (contribution (thread recorded)) (joined threads) := by
  rw [joined, map_cons, foldl_cons, Option.merge_none_left, foldl_merge, joined]

variable {threads : List (Recorded Metric)}

lemma joined_of_bot_not_mem (some_thread : threads ≠ [])
    (fits : ⊥ ∉ times threads) :
    joined threads = some ((times threads).foldl min ⊤, (times threads).foldl max ⊥) := by
  induction threads with
  | nil => exact absurd rfl some_thread
  | cons recorded threads ih =>
    rw [times_cons, mem_append, not_or] at fits
    rw [joined_cons, contribution_of_bot_not_mem fits.1, times_cons, foldl_min_append, foldl_max_append]
    rcases eq_or_ne threads [] with rfl | more
    · simp [joined, times]
    · rw [ih more fits.2]
      rfl

lemma bot_lt_joined {b : Bounds} (found : joined threads = some b) : ⊥ < b.1 := by
  induction threads generalizing b with
  | nil => cases found
  | cons recorded threads ih =>
    have first : ∀ c, contribution (thread recorded) = some c → ⊥ < c.1 := by
      intro c contributes
      rw [contribution] at contributes
      split at contributes
      · cases contributes
        assumption
      · cases contributes
    rw [joined_cons, Option.merge_eq_some_iff] at found
    rcases found with ⟨only, -⟩ | ⟨-, only⟩ | ⟨c, d, contributes, later, rfl⟩
    · exact first b only
    · exact ih only
    · exact lt_min (first c contributes) (ih later)

/-- The threads that some bounds are about have none or at least one timepoint, and the time of none is the least. -/
def Representable (threads : List (Recorded Metric)) : Prop :=
  (threads = [] ∨ times threads ≠ []) ∧ ⊥ ∉ times threads

lemma exact_joined_iff (threads : List (Recorded Metric)) :
    Exact (joined threads) (times threads) ↔ Representable threads := by
  constructor
  · intro exact
    have fits : ⊥ ∉ times threads := by
      intro inside
      cases found : joined threads with
      | none =>
        rw [exact.absent.mp found] at inside
        exact not_mem_nil inside
      | some b => exact absurd ((exact.least b found).2 inside) (not_le.mpr (bot_lt_joined found))
    refine ⟨?_, fits⟩
    by_contra neither
    rw [not_or, not_not] at neither
    have absent := exact.absent.mpr neither.2
    rw [joined_of_bot_not_mem neither.1 fits] at absent
    cases absent
  · rintro ⟨none_or_some, fits⟩
    rcases eq_or_ne threads [] with rfl | some_thread
    · exact ⟨iff_of_true rfl rfl, nofun, nofun⟩
    · have some_time := none_or_some.resolve_left some_thread
      have found := joined_of_bot_not_mem some_thread fits
      refine ⟨iff_of_false (by rw [found]; rintro ⟨⟩) some_time, ?_, ?_⟩
      · intro b same
        obtain rfl := Option.some.inj (found.symm.trans same)
        exact isLeast_foldl_min some_time
      · intro b same
        obtain rfl := Option.some.inj (found.symm.trans same)
        exact isGreatest_foldl_max some_time

/-- The bounds of a thread, of the threads of a worker and of all threads. -/
theorem bounds_exact_iff (workers : List (List (Recorded Metric))) :
    (∀ threads ∈ workers, ∀ recorded ∈ threads,
      (Exact (complete none (thread recorded)) (times [recorded]) ↔ Representable [recorded])) ∧
    (∀ threads ∈ workers, (Exact (localBounds threads) (times threads) ↔ Representable threads)) ∧
    (Exact (run workers) (times workers.flatten) ↔ Representable workers.flatten) := by
  refine ⟨fun threads _ recorded _ => ?_, fun threads _ => ?_, ?_⟩
  · have alone : complete none (thread recorded) = joined [recorded] := localBounds_eq_joined [recorded]
    rw [alone]
    exact exact_joined_iff [recorded]
  · rw [localBounds_eq_joined]
    exact exact_joined_iff threads
  · rw [run_eq_joined]
    exact exact_joined_iff workers.flatten

/-- A thread without timepoints. -/
theorem no_timepoints_bounded : ¬ Exact (run [[([] : Recorded ℕ)]]) (times [([] : Recorded ℕ)]) ∧
    run [[([] : Recorded ℕ)]] = some (⊤, ⊥) :=
  ⟨fun exact => Option.some_ne_none _ (exact.absent.mpr rfl), rfl⟩

end HpcToolkit.Pipeline.TimeBounds
