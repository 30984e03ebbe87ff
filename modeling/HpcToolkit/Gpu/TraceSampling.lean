import HpcToolkit.Lib.Reachable

/-! # Sampled trace items

A tracing thread appends the items of its streams that contain a sampling point. Its sampling points count from the start of
the first item that it consumed, with times and their differences modulo `2^64`, while those of a stream count from the
start of the stream.
-/

open Function
open BitVec (le_def lt_def ofNat toNat_add toNat_sub)

namespace HpcToolkit.Gpu.TraceSampling

open Lib

structure GpuTraceItem where
  callPathLeaf : ℕ
  start : BitVec 64
  stop : BitVec 64

/-- The leaf of a call path in the tree of the stream, or the node that stands for no activity. -/
inductive Leaf where
  | callPath (leaf : ℕ)
  | noActivity
deriving DecidableEq

/-- What the tracing uses of `thread_data_t`, one for each stream. -/
structure ThreadData where
  gpuTracePrevTime : BitVec 64
  trace : List (Leaf × BitVec 64)

/-- A thread with its `stream_start`, and the streams that it serves. -/
structure TracingThread where
  streamStart : BitVec 64
  streams : ℕ → ThreadData

def streamStartSet (streamStart startTime : BitVec 64) : BitVec 64 := if streamStart = 0 then startTime else streamStart

def gpuTraceStartAdjust (td : ThreadData) (start stop : BitVec 64) : BitVec 64 × ThreadData :=
  (if start < td.gpuTracePrevTime then td.gpuTracePrevTime + 1 else start, { td with gpuTracePrevTime := stop })

/-- The test of `consume_trace_item`, with `-1` for a frequency that is not set. -/
def itemAppended (frequency : BitVec 32) (streamStart curStart curEnd : BitVec 64) : Bool :=
  if frequency ≠ -1 then
    let intervals := (curStart - streamStart - 1) / frequency.setWidth 64 + 1
    let pivot := intervals * frequency.setWidth 64 + streamStart
    pivot ≤ curEnd ∧ pivot ≥ curStart
  else true

def consumeTraceItem (frequency : BitVec 32) (thread : TracingThread) (stream : ℕ) (item : GpuTraceItem) : TracingThread :=
  let streamStart := streamStartSet thread.streamStart item.start
  let (start, td) := gpuTraceStartAdjust (thread.streams stream) item.start item.stop
  let td := if itemAppended frequency streamStart item.start item.stop then
      { td with trace := td.trace ++ [(.callPath item.callPathLeaf, start), (.noActivity, item.stop)] }
    else td
  { streamStart, streams := update thread.streams stream td }

/-! ## Sampling points -/

lemma grid_point_iff {f lo hi s : ℕ} (positive : 0 < f) (begun : s ≤ lo) :
    (∃ k : ℕ, lo ≤ s + k * f ∧ s + k * f ≤ hi) ↔ (lo : ℤ) + ((s : ℤ) - lo) % f ≤ hi := by
  have period : (0 : ℤ) < f := by exact_mod_cast positive
  have split := Int.emod_add_mul_ediv ((s : ℤ) - lo) f
  have least := Int.emod_nonneg ((s : ℤ) - lo) period.ne'
  have below := Int.emod_lt_of_pos ((s : ℤ) - lo) period
  constructor
  · rintro ⟨k, first, last⟩
    have next : (0 : ℤ) ≤ (k : ℤ) + ((s : ℤ) - lo) / f := by
      by_contra negative
      have bound : ((k : ℤ) + ((s : ℤ) - lo) / f) * f ≤ -1 * f :=
        mul_le_mul_of_nonneg_right (by omega) period.le
      have first' : (lo : ℤ) ≤ s + k * f := by exact_mod_cast first
      nlinarith
    have last' : (s : ℤ) + k * f ≤ hi := by exact_mod_cast last
    nlinarith [mul_nonneg next period.le]
  · intro reached
    have quotient : ((s : ℤ) - lo) / f ≤ 0 := by
      by_contra large
      have one : (1 : ℤ) ≤ ((s : ℤ) - lo) / f := by omega
      nlinarith
    refine ⟨(-(((s : ℤ) - lo) / f)).toNat, ?_, ?_⟩
    · zify
      rw [Int.toNat_of_nonneg (by omega)]
      linarith
    · zify
      rw [Int.toNat_of_nonneg (by omega)]
      linarith

/-- Where the points of the test count from: those of the thread continue from `2^64` below its start when the item does not
start behind it. -/
def testOrigin (frequency : BitVec 32) (streamStart curStart : BitVec 64) : ℤ :=
  if frequency = -1 then curStart.toNat
  else if streamStart < curStart then streamStart.toNat else streamStart.toNat - 2 ^ 64

lemma pivot_toNat (frequency : BitVec 32) (streamStart curStart : BitVec 64) :
    (((curStart - streamStart - 1) / frequency.setWidth 64 + 1) * frequency.setWidth 64 + streamStart).toNat =
      (((curStart - streamStart - 1).toNat / frequency.toNat + 1) * frequency.toNat + streamStart.toNat) % 2 ^ 64 := by
  have wide : (frequency.setWidth 64).toNat = frequency.toNat := by
    rw [BitVec.toNat_setWidth]
    exact Nat.mod_eq_of_lt (frequency.isLt.trans (by decide))
  have one : (1 : BitVec 64).toNat = 1 := rfl
  rw [toNat_add, BitVec.toNat_mul, toNat_add, BitVec.toNat_udiv, wide, one]
  rw [Nat.mod_mul_mod, Nat.mod_add_mod]

lemma neg_emod {f : ℕ} (positive : 0 < f) (x : ℕ) : (-(x : ℤ) - 1) % f = f - 1 - x % f := by
  have below := Nat.mod_lt x positive
  have split := Nat.mod_add_div x f
  have shifted : -(x : ℤ) - 1 = (f - 1 - x % f) + f * (-(x / f : ℕ) - 1) := by
    have cast : ((x % f : ℕ) : ℤ) + f * (x / f : ℕ) = x := by exact_mod_cast split
    push_cast at cast ⊢
    linarith
  rw [shifted, Int.add_mul_emod_self_left, Int.emod_eq_of_lt (by omega) (by omega)]

lemma pivot_eq {frequency : BitVec 32} (set : frequency ≠ -1) (positive : 0 < frequency.toNat)
    (streamStart curStart : BitVec 64) :
    ((((curStart - streamStart - 1) / frequency.setWidth 64 + 1) * frequency.setWidth 64 + streamStart).toNat : ℤ) =
      (curStart.toNat + (testOrigin frequency streamStart curStart - curStart.toNat) % frequency.toNat) % 2 ^ 64 := by
  rw [pivot_toNat, testOrigin, if_neg set]
  have one : (1 : BitVec 64).toNat = 1 := rfl
  have start := curStart.isLt
  have origin := streamStart.isLt
  generalize distance : (curStart - streamStart - 1).toNat = x
  have behind := neg_emod positive x
  have split := Nat.mod_add_div x frequency.toNat
  have rounded : (x / frequency.toNat + 1) * frequency.toNat = x - x % frequency.toNat + frequency.toNat := by
    rw [add_mul, one_mul, mul_comm]
    omega
  have below := Nat.mod_lt x positive
  have least := Nat.mod_le x frequency.toNat
  rw [rounded]
  rw [toNat_sub, toNat_sub, one] at distance
  split
  · rename_i later
    rw [lt_def] at later
    have value : x = curStart.toNat - streamStart.toNat - 1 := by omega
    have opposite : (streamStart.toNat : ℤ) - curStart.toNat = -(x : ℤ) - 1 := by omega
    rw [opposite, behind]
    omega
  · rename_i early
    rw [lt_def] at early
    have value : x = 2 ^ 64 + curStart.toNat - streamStart.toNat - 1 := by omega
    have opposite : (streamStart.toNat : ℤ) - 2 ^ 64 - curStart.toNat = -(x : ℤ) - 1 := by omega
    rw [opposite, behind]
    omega

lemma itemAppended_iff {frequency : BitVec 32} (positive : 0 < frequency.toNat) (streamStart : BitVec 64)
    {curStart curEnd : BitVec 64} (ordered : curStart ≤ curEnd) : itemAppended frequency streamStart curStart curEnd ↔
      (curStart.toNat : ℤ) + (testOrigin frequency streamStart curStart - curStart.toNat) % frequency.toNat ≤ curEnd.toNat := by
  unfold itemAppended testOrigin
  split
  · rename_i set
    dsimp only
    have pivot := pivot_eq set positive streamStart curStart
    rw [testOrigin, if_neg set] at pivot
    rw [decide_eq_true_eq, le_def, ge_iff_le, le_def]
    generalize (if streamStart < curStart then (streamStart.toNat : ℤ) else streamStart.toNat - 2 ^ 64) = origin at pivot ⊢
    have least := Int.emod_nonneg (origin - curStart.toNat) (b := frequency.toNat) (by omega)
    have below := Int.emod_lt_of_pos (origin - curStart.toNat) (b := frequency.toNat) (by omega)
    have narrow := frequency.isLt
    have start := curStart.isLt
    have stop := curEnd.isLt
    rw [le_def] at ordered
    omega
  · rename_i unset
    rw [if_pos (not_not.mp unset), sub_self, Int.zero_emod, add_zero]
    exact iff_of_true rfl (by exact_mod_cast BitVec.le_def.mp ordered)

/-! ## Runs of a thread -/

/-- A thread, with the starts of the streams whose first item it has consumed. -/
abbrev State := TracingThread × (ℕ → Option (BitVec 64))

/-- The start of the stream, which its first item fixes. -/
def startOf (s : State) (act : ℕ × GpuTraceItem) : BitVec 64 := (s.2 act.1).getD act.2.start

def exec (frequency : BitVec 32) (s : State) (act : ℕ × GpuTraceItem) : Unit × State :=
  ((), consumeTraceItem frequency s.1 act.1 act.2, update s.2 act.1 (some (startOf s act)))

/-- No item of a stream starts in front of the first one. -/
def WellFormed (s : State) (act : ℕ × GpuTraceItem) : Prop := act.2.start ≤ act.2.stop ∧ startOf s act ≤ act.2.start

/-- A sampling point of the stream lies in the item. -/
def Sampled (frequency : BitVec 32) (s : State) (act : ℕ × GpuTraceItem) : Prop :=
  ∃ k : ℕ, act.2.start.toNat ≤ (startOf s act).toNat + k * frequency.toNat ∧
    (startOf s act).toNat + k * frequency.toNat ≤ act.2.stop.toNat

/-- The item is appended to the trace of its stream exactly if a sampling point lies in it. -/
def Picked (frequency : BitVec 32) (s : State) (act : ℕ × GpuTraceItem) (_ : Unit) (s' : State) : Prop :=
  let td := s.1.streams act.1
  (Sampled frequency s act → (s'.1.streams act.1).trace = td.trace ++
    [(.callPath act.2.callPathLeaf, (gpuTraceStartAdjust td act.2.start act.2.stop).1), (.noActivity, act.2.stop)]) ∧
  (¬ Sampled frequency s act → (s'.1.streams act.1).trace = td.trace)

/-- The points of the test are those of the stream. -/
def OnGrid (frequency : BitVec 32) (s : State) (act : ℕ × GpuTraceItem) : Prop :=
  (frequency.toNat : ℤ) ∣
    testOrigin frequency (streamStartSet s.1.streamStart act.2.start) act.2.start - (startOf s act).toNat

def Appended (frequency : BitVec 32) (s : State) (act : ℕ × GpuTraceItem) : Prop :=
  itemAppended frequency (streamStartSet s.1.streamStart act.2.start) act.2.start act.2.stop = true

lemma picked_iff (frequency : BitVec 32) (s : State) (act : ℕ × GpuTraceItem) :
    Picked frequency s act (exec frequency s act).1 (exec frequency s act).2 ↔
      (Appended frequency s act ↔ Sampled frequency s act) := by
  have trace : ((exec frequency s act).2.1.streams act.1).trace =
      if itemAppended frequency (streamStartSet s.1.streamStart act.2.start) act.2.start act.2.stop then
        (s.1.streams act.1).trace ++ [(Leaf.callPath act.2.callPathLeaf,
          (gpuTraceStartAdjust (s.1.streams act.1) act.2.start act.2.stop).1), (.noActivity, act.2.stop)]
      else (s.1.streams act.1).trace := by
    unfold exec consumeTraceItem
    dsimp only
    rw [update_self]
    split
    · rfl
    · rfl
  unfold Picked
  dsimp only
  rw [trace]
  rcases Classical.em (Appended frequency s act) with appended | skipped
  · rw [Appended] at appended
    rw [if_pos appended, iff_true_left (show Appended frequency s act from appended)]
    constructor
    · rintro ⟨-, unsampled⟩
      by_contra missed
      exact absurd (unsampled missed) (by simp)
    · exact fun sampled => ⟨fun _ => rfl, fun missed => absurd sampled missed⟩
  · rw [Appended] at skipped
    rw [if_neg skipped, iff_false_left (show ¬ Appended frequency s act from skipped)]
    constructor
    · rintro ⟨sampled, -⟩ hit
      exact absurd (sampled hit) (by simp)
    · exact fun missed => ⟨fun hit => absurd hit missed, fun _ => rfl⟩

section Items

variable {frequency : BitVec 32} (positive : 0 < frequency.toNat) {s : State} {act : ℕ × GpuTraceItem}
include positive

lemma appended_iff (wellFormed : WellFormed s act) : Appended frequency s act ↔
    (act.2.start.toNat : ℤ) + (testOrigin frequency (streamStartSet s.1.streamStart act.2.start) act.2.start -
      act.2.start.toNat) % frequency.toNat ≤ act.2.stop.toNat := itemAppended_iff positive _ wellFormed.1

lemma sampled_iff (wellFormed : WellFormed s act) : Sampled frequency s act ↔
    (act.2.start.toNat : ℤ) + (((startOf s act).toNat : ℤ) - act.2.start.toNat) % frequency.toNat ≤ act.2.stop.toNat :=
  grid_point_iff positive wellFormed.2

omit positive in
lemma onGrid_iff : OnGrid frequency s act ↔
    (testOrigin frequency (streamStartSet s.1.streamStart act.2.start) act.2.start - act.2.start.toNat) % frequency.toNat =
      (((startOf s act).toNat : ℤ) - act.2.start.toNat) % frequency.toNat := by
  rw [OnGrid, Int.emod_eq_emod_iff_emod_sub_eq_zero, sub_sub_sub_cancel_right, Int.dvd_iff_emod_eq_zero]

lemma picked_of_onGrid (wellFormed : WellFormed s act) (onGrid : OnGrid frequency s act) :
    Picked frequency s act (exec frequency s act).1 (exec frequency s act).2 := by
  rw [picked_iff, appended_iff positive wellFormed, sampled_iff positive wellFormed, onGrid_iff.mp onGrid]

lemma not_picked_of_offGrid (begun : startOf s act ≤ act.2.start) (room : act.2.start.toNat + frequency.toNat ≤ 2 ^ 64)
    (offGrid : ¬ OnGrid frequency s act) : ∃ stop, act.2.start ≤ stop ∧
      ¬ Picked frequency s (act.1, { act.2 with stop }) (exec frequency s (act.1, { act.2 with stop })).1
        (exec frequency s (act.1, { act.2 with stop })).2 := by
  rw [onGrid_iff] at offGrid
  generalize tested : (testOrigin frequency (streamStartSet s.1.streamStart act.2.start) act.2.start -
    act.2.start.toNat) % frequency.toNat = a at offGrid
  generalize asked : (((startOf s act).toNat : ℤ) - act.2.start.toNat) % frequency.toNat = b at offGrid
  have leastA : 0 ≤ a := tested ▸ Int.emod_nonneg _ (by omega)
  have belowA : a < frequency.toNat := tested ▸ Int.emod_lt_of_pos _ (by omega)
  have leastB : 0 ≤ b := asked ▸ Int.emod_nonneg _ (by omega)
  have belowB : b < frequency.toNat := asked ▸ Int.emod_lt_of_pos _ (by omega)
  have nat : (ofNat 64 (act.2.start.toNat + (min a b).toNat)).toNat = act.2.start.toNat + (min a b).toNat :=
    (BitVec.toNat_ofNat ..).trans (Nat.mod_eq_of_lt (by omega))
  have ordered : act.2.start ≤ ofNat 64 (act.2.start.toNat + (min a b).toNat) := by
    rw [le_def, nat]
    exact Nat.le_add_right ..
  refine ⟨ofNat 64 (act.2.start.toNat + (min a b).toNat), ordered, fun picked => ?_⟩
  have wellFormed : WellFormed s (act.1, { act.2 with stop := ofNat 64 (act.2.start.toNat + (min a b).toNat) }) :=
    ⟨ordered, begun⟩
  rw [picked_iff, appended_iff positive wellFormed, sampled_iff positive wellFormed] at picked
  dsimp only at picked
  have sameStart : startOf s (act.1, { act.2 with stop := ofNat 64 (act.2.start.toNat + (min a b).toNat) }) =
      startOf s act := rfl
  rw [tested, sameStart, asked, nat] at picked
  omega

end Items

/-- A thread that has consumed nothing. -/
def State.initial : State := (⟨0, fun _ => ⟨0, []⟩⟩, fun _ => none)

/-- In a run all of whose items are on the grids of their streams all are picked rightly, and an item that is off the grid is
picked wrongly with some end, if the next points are 64-bit times. -/
theorem items_picked (frequency : BitVec 32) (positive : 0 < frequency.toNat) :
    (∀ items, EachStep (exec frequency) (fun s act _ _ => WellFormed s act ∧ OnGrid frequency s act) .initial items →
      EachStep (exec frequency) (Picked frequency) .initial items) ∧
    ∀ s act, startOf s act ≤ act.2.start → act.2.start.toNat + frequency.toNat ≤ 2 ^ 64 → ¬ OnGrid frequency s act →
      ∃ stop, act.2.start ≤ stop ∧ ¬ Picked frequency s (act.1, { act.2 with stop })
        (exec frequency s (act.1, { act.2 with stop })).1 (exec frequency s (act.1, { act.2 with stop })).2 := by
  constructor
  · intro items all
    exact all.imp fun s act good => picked_of_onGrid positive good.1 good.2
  · exact fun s act begun room offGrid => not_picked_of_offGrid positive begun room offGrid

/-- Two items of one stream with a period that is a power of two. -/
theorem even_period_picked : EachStep (exec 8) (Picked 8) .initial [(1, ⟨7, 100, 103⟩), (1, ⟨7, 105, 110⟩)] :=
  (items_picked 8 (by decide)).1 _ ⟨⟨⟨by decide, by decide⟩, by unfold OnGrid; decide⟩, ⟨⟨by decide, by decide⟩,
    by unfold OnGrid; decide⟩, trivial⟩

/-- The first item of a stream with a period that does not divide `2^64`. -/
theorem first_item_not_picked : ¬ ∀ (frequency : BitVec 32) (items : List (ℕ × GpuTraceItem)), 0 < frequency.toNat →
    EachStep (exec frequency) (fun s act _ _ => WellFormed s act) .initial items →
    EachStep (exec frequency) (Picked frequency) .initial items := by
  intro all
  have picked := (all 1000 [(1, ⟨7, 5000, 5000⟩)] (by decide) ⟨⟨by decide, by decide⟩, trivial⟩).1
  have sampled : Sampled 1000 .initial (1, ⟨7, 5000, 5000⟩) := ⟨0, by decide, by decide⟩
  exact absurd (picked.1 sampled) (by decide)

end HpcToolkit.Gpu.TraceSampling
