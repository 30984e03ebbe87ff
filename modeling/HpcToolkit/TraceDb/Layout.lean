import Mathlib.Algebra.BigOperators.Intervals
import Mathlib.Data.List.GetD
import Mathlib.Data.Nat.Log
import Mathlib.Data.UInt
import HpcToolkit.TraceDb.Thread

/-! # The layout of trace.db

`calcStartEnd` places the regions of all threads behind the table of trace headers, rank after rank, with
an exclusive scan over the sizes on each rank and one over the totals of the ranks. Offsets are 64-bit.
-/

open List
open Nat (clog mod_eq_of_lt)
open UInt64 (toNat_add toNat_mul)

namespace HpcToolkit.TraceDb

/-! ## The scan -/

section
variable {T : Type} [AddCommMonoid T]

/-- One round of the scan, into the temporary vector. -/
def scanRound (p : ℕ) (data : List T) : List T :=
  (range data.length).map fun j => if j < p then data.getD j 0 else data.getD j 0 + data.getD (j - p) 0

def exscan (data : List T) : List T :=
  let n := data.length
  let rounds := clog 2 n
  let (_, tmp) := (range rounds).foldl
    (fun (data, _) i =>
      let tmp := scanRound (2 ^ i) data
      (if i < rounds - 1 then tmp else data, tmp))
    (data, replicate n 0)
  if 0 < n then 0 :: tmp.take (n - 1) else data

/-- The sum of the `w` elements up to and including the `j`-th one, or of all of them. -/
def windowSum (data : List T) (w j : ℕ) : T := ∑ i ∈ Finset.Ico (j + 1 - w) (j + 1), data.getD i 0

def windows (data : List T) (w : ℕ) : List T := (range data.length).map (windowSum data w)

section
variable (data : List T)

lemma windowSum_double {w j : ℕ} (narrow : w ≤ j) :
    windowSum data (2 * w) j = windowSum data w j + windowSum data w (j - w) := by
  have middle : j - w + 1 = j + 1 - w := by omega
  have first : j + 1 - 2 * w = j + 1 - w - w := by omega
  rw [windowSum, windowSum, windowSum, middle, first]
  exact (Finset.sum_Ico_consecutive (fun i => data.getD i 0) (Nat.sub_le _ _) (Nat.sub_le _ _)).symm.trans (add_comm _ _)

lemma windowSum_wide {w w' j : ℕ} (wide : j + 1 ≤ w) (wide' : j + 1 ≤ w') :
    windowSum data w j = windowSum data w' j := by
  rw [windowSum, windowSum, Nat.sub_eq_zero_of_le wide, Nat.sub_eq_zero_of_le wide']

lemma windows_one : windows data 1 = data := by
  refine ext_getElem (by simp [windows]) fun j bound inside => ?_
  simp [windows, windowSum, inside]

lemma getD_windows (w : ℕ) {j : ℕ} (inside : j < data.length) :
    (windows data w).getD j 0 = windowSum data w j := by
  rw [windows, getD_eq_getElem _ _ (by simpa using inside), getElem_map, getElem_range]

lemma scanRound_windows (w : ℕ) : scanRound w (windows data w) = windows data (2 * w) := by
  have length : (windows data w).length = data.length := by simp [windows]
  rw [scanRound, length]
  refine map_congr_left fun j member => ?_
  have inside := mem_range.mp member
  rw [getD_windows data w inside]
  split
  · rename_i narrow
    exact windowSum_wide data (by omega) (by omega)
  · rename_i reaches
    rw [getD_windows data w (by omega), windowSum_double data (by omega)]

lemma scan_rounds (rounds k : ℕ) (bound : k ≤ rounds) :
    let state := (range k).foldl
      (fun (data, _) i =>
        let tmp := scanRound (2 ^ i) data
        (if i < rounds - 1 then tmp else data, tmp))
      (data, replicate data.length 0)
    (k < rounds → state.1 = windows data (2 ^ k)) ∧ (0 < k → state.2 = windows data (2 ^ k)) := by
  induction k with
  | zero =>
    refine ⟨fun _ => ?_, fun positive => absurd positive (Nat.lt_irrefl 0)⟩
    rw [pow_zero, windows_one]
    rfl
  | succ k hypothesis =>
    obtain ⟨before, -⟩ := hypothesis (by omega)
    have before := before (by omega)
    have next : scanRound (2 ^ k) (windows data (2 ^ k)) = windows data (2 ^ (k + 1)) := by
      rw [scanRound_windows, pow_succ, Nat.mul_comm]
    simp only [range_succ, foldl_append, foldl_cons, foldl_nil] at before ⊢
    rw [before, next]
    refine ⟨fun more => if_pos (by omega), fun _ => rfl⟩

lemma sum_take_eq (j : ℕ) : (data.take j).sum = ∑ i ∈ Finset.range j, data.getD i 0 := by
  induction j with
  | zero => simp
  | succ j hypothesis =>
    rw [Finset.sum_range_succ, ← hypothesis]
    by_cases inside : j < data.length
    · rw [take_add_one, sum_append, getElem?_eq_getElem inside, getD_eq_getElem _ _ inside]
      simp
    · rw [take_of_length_le (by omega), take_of_length_le (by omega), getD_eq_default _ _ (by omega),
        add_zero]

lemma windowSum_whole {w j : ℕ} (wide : j + 1 ≤ w) : windowSum data w j = (data.take (j + 1)).sum := by
  rw [sum_take_eq, windowSum, Nat.sub_eq_zero_of_le wide, Nat.Ico_zero_eq_range]

lemma exscan_eq : exscan data = (range data.length).map fun j => (data.take j).sum := by
  rw [exscan]
  obtain ⟨-, last⟩ := scan_rounds data (clog 2 data.length) (clog 2 data.length) le_rfl
  generalize (range (clog 2 data.length)).foldl _ _ = state at last ⊢
  obtain ⟨_, tmp⟩ := state
  simp only at last ⊢
  split
  · rename_i positive
    obtain ⟨m, size⟩ : ∃ m, data.length = m + 1 := ⟨data.length - 1, by omega⟩
    have front : tmp.take m = (range m).map fun j => (data.take (j + 1)).sum := by
      by_cases single : m = 0
      · rw [single]
        rfl
      · have rounds : 0 < clog 2 data.length := Nat.clog_pos Nat.one_lt_two (by omega)
        rw [last rounds, windows, ← map_take, take_range, size, Nat.min_eq_left (Nat.le_succ m)]
        refine map_congr_left fun j member => windowSum_whole data ?_
        have enough := Nat.le_pow_clog Nat.one_lt_two (m + 1)
        have inside := mem_range.mp member
        omega
    rw [size, Nat.add_sub_cancel, front, range_succ_eq_map, map_cons, map_map]
    rfl
  · rename_i empty
    have nil : data = [] := length_eq_zero_iff.mp (by omega)
    rw [nil]
    rfl

end

end

/-! ## Placing the regions -/

def align (v a : UInt64) : UInt64 := (v + a - 1) / a * a

def pCtxTraces : UInt64 := align 0x20 8
def ctxPTraces : UInt64 := align (pCtxTraces + 0x20) 8

structure TraceHdr where
  start : UInt64
  pEnd : UInt64

/-- The threads of a rank, each with its `ctxTimepointMaxCount`. -/
abbrev Rank := List UInt64

/-- `totalNumTraces`, a reduction over 32-bit numbers. -/
def totalNumTraces (ranks : List Rank) : UInt64 := (ranks.map fun threads => UInt32.ofNat threads.length).sum.toUInt64

def traceSize (count : UInt64) : UInt64 := align (count * 12) 8

def totalSize (threads : Rank) : UInt64 := (threads.map traceSize).sum

/-- `calcStartEnd` on a rank, with the sum over the ranks before it as `mpi::exscan` gives it. -/
def calcStartEnd (ranks : List Rank) (rank : ℕ) : List UInt64 :=
  let myOff := ((ranks.take rank).map totalSize).sum + align (ctxPTraces + totalNumTraces ranks * 0x18) 8
  (exscan ((ranks.getD rank []).map traceSize ++ [0])).map fun off => off + myOff

/-- `assignHdrs`: the regions of the threads. -/
def assignHdrs (threads : Rank) (traceOffs : List UInt64) : List TraceHdr :=
  threads.zipWith (fun count off => ⟨off, off + count * 12⟩) traceOffs

/-- `footerPos`, the last of the offsets. -/
def footerPos (ranks : List Rank) (rank : ℕ) : UInt64 := (calcStartEnd ranks rank).getLastD 0

/-- The regions of all threads, rank after rank. -/
def regions (ranks : List Rank) : List TraceHdr :=
  (range ranks.length).flatMap fun rank => assignHdrs (ranks.getD rank []) (calcStartEnd ranks rank)

/-- The end of the table of trace headers. -/
def tableEnd (ranks : List Rank) : UInt64 := ctxPTraces + totalNumTraces ranks * 0x18

/-! ## One region after the other -/

def place (off : UInt64) : Rank → List TraceHdr
  | [] => []
  | count :: rest => ⟨off, off + count * 12⟩ :: place (off + traceSize count) rest

lemma place_append (off : UInt64) (threads more : Rank) :
    place off (threads ++ more) = place off threads ++ place (off + totalSize threads) more := by
  induction threads generalizing off with
  | nil => simp [place, totalSize]
  | cons count rest hypothesis =>
    rw [cons_append, place, place, hypothesis, cons_append]
    simp [totalSize, add_assoc]

lemma calcStartEnd_eq (ranks : List Rank) (rank : ℕ) :
    calcStartEnd ranks rank = (range ((ranks.getD rank []).length + 1)).map fun i =>
      totalSize ((ranks.getD rank []).take i) + (((ranks.take rank).map totalSize).sum + align (tableEnd ranks) 8) := by
  rw [calcStartEnd, exscan_eq, map_map]
  simp only [length_append, length_map, length_singleton]
  refine map_congr_left fun i member => ?_
  have inside := mem_range.mp member
  have front : ((ranks.getD rank []).map traceSize ++ [0]).take i = ((ranks.getD rank []).take i).map traceSize := by
    rw [take_append_of_le_length (by simpa using Nat.le_of_lt_succ inside), map_take]
  simp only [Function.comp_apply, front]
  rfl

lemma zipWith_eq_place (off : UInt64) (threads : Rank) :
    assignHdrs threads ((range (threads.length + 1)).map fun i => totalSize (threads.take i) + off) =
      place off threads := by
  induction threads generalizing off with
  | nil => rfl
  | cons count rest hypothesis =>
    have tail : (fun i => totalSize ((count :: rest).take i) + off) ∘ Nat.succ =
        fun i => totalSize (rest.take i) + (off + traceSize count) := by
      funext i
      simp only [Function.comp_apply, take_succ_cons, totalSize, map_cons, sum_cons]
      rw [add_assoc, add_left_comm, add_comm off]
    have head : totalSize ((count :: rest).take 0) + off = off := by simp [totalSize]
    rw [place, ← hypothesis, length_cons, range_succ_eq_map, map_cons, map_map, tail, head]
    rfl

lemma assignHdrs_calcStartEnd (ranks : List Rank) (rank : ℕ) :
    assignHdrs (ranks.getD rank []) (calcStartEnd ranks rank) =
      place (align (tableEnd ranks) 8 + ((ranks.take rank).map totalSize).sum) (ranks.getD rank []) := by
  rw [calcStartEnd_eq, zipWith_eq_place, add_comm]

lemma totalSize_flatten (ranks : List Rank) : totalSize ranks.flatten = (ranks.map totalSize).sum := by
  induction ranks with
  | nil => rfl
  | cons threads rest hypothesis => simp [totalSize, ← hypothesis]

lemma flatMap_place (off : UInt64) (ranks : List Rank) :
    ((range ranks.length).flatMap fun rank =>
      place (off + ((ranks.take rank).map totalSize).sum) (ranks.getD rank [])) = place off ranks.flatten := by
  induction ranks generalizing off with
  | nil => rfl
  | cons threads rest hypothesis =>
    rw [length_cons, range_succ_eq_map, flatMap_cons, flatMap_map, flatten_cons, place_append,
      ← hypothesis]
    simp [add_assoc]

lemma regions_eq (ranks : List Rank) : regions ranks = place (align (tableEnd ranks) 8) ranks.flatten := by
  simp only [regions, assignHdrs_calcStartEnd]
  exact flatMap_place _ _

lemma footerPos_eq (ranks : List Rank) (rank : ℕ) :
    footerPos ranks rank = totalSize (ranks.getD rank []) +
      (((ranks.take rank).map totalSize).sum + align (tableEnd ranks) 8) := by
  rw [footerPos, calcStartEnd_eq, range_succ, map_append, map_singleton, getLastD_concat,
    take_length]

/-! ## No overflow -/

/-- The least multiple of 8 from `n` on. -/
def roundUp (n : ℕ) : ℕ := (n + 7) / 8 * 8

def regionSize (count : UInt64) : ℕ := roundUp (12 * count.toNat)

/-- Where the last region ends, if it were not for the width of an offset. -/
def fileSize (ranks : List Rank) : ℕ :=
  roundUp (64 + 24 * ranks.flatten.length) + (ranks.flatten.map regionSize).sum

lemma toNat_align {v : UInt64} (fits : roundUp v.toNat < 2 ^ 64) : (align v 8).toNat = roundUp v.toNat := by
  rw [roundUp] at fits ⊢
  have seven : v + 8 - 1 = v + 7 := by
    rw [add_sub_assoc]
    rfl
  have sum : (v + 7).toNat = v.toNat + 7 := by
    have value : (7 : UInt64).toNat = 7 := rfl
    rw [toNat_add, value, mod_eq_of_lt (by omega)]
  have eight : (8 : UInt64).toNat = 8 := rfl
  rw [align, seven, toNat_mul, UInt64.toNat_div, sum, eight, mod_eq_of_lt fits]

lemma toNat_bytes {count : UInt64} (fits : regionSize count < 2 ^ 64) : (count * 12).toNat = 12 * count.toNat := by
  rw [regionSize, roundUp] at fits
  have twelve : (12 : UInt64).toNat = 12 := rfl
  rw [toNat_mul, twelve, Nat.mul_comm, mod_eq_of_lt (by omega)]

lemma toNat_traceSize {count : UInt64} (fits : regionSize count < 2 ^ 64) :
    (traceSize count).toNat = regionSize count := by
  have bytes := toNat_bytes fits
  rw [regionSize, ← bytes] at fits
  rw [traceSize, toNat_align fits, bytes, regionSize]

lemma toNat_totalSize {threads : Rank} (fits : (threads.map regionSize).sum < 2 ^ 64) :
    (totalSize threads).toNat = (threads.map regionSize).sum := by
  induction threads with
  | nil => rfl
  | cons count rest hypothesis =>
    rw [map_cons, sum_cons] at fits ⊢
    have head : totalSize (count :: rest) = traceSize count + totalSize rest := by simp [totalSize]
    rw [head, toNat_add, toNat_traceSize (by omega), hypothesis (by omega), mod_eq_of_lt fits]

lemma toNat_totalNumTraces {ranks : List Rank} (few : ranks.flatten.length < 2 ^ 32) :
    (totalNumTraces ranks).toNat = ranks.flatten.length := by
  rw [totalNumTraces, UInt32.toNat_toUInt64]
  induction ranks with
  | nil => rfl
  | cons threads rest hypothesis =>
    rw [flatten_cons, length_append] at few ⊢
    have count : (UInt32.ofNat threads.length).toNat = threads.length :=
      UInt32.toNat_ofNat_of_lt (show threads.length < 2 ^ 32 by omega)
    rw [map_cons, sum_cons, UInt32.toNat_add, count, hypothesis (by omega), mod_eq_of_lt few]

lemma toNat_tableEnd {ranks : List Rank} (few : ranks.flatten.length < 2 ^ 32) :
    (tableEnd ranks).toNat = 64 + 24 * ranks.flatten.length := by
  have first : ctxPTraces.toNat = 64 := by decide
  have entry : (0x18 : UInt64).toNat = 24 := rfl
  rw [tableEnd, toNat_add, toNat_mul, toNat_totalNumTraces few, first, entry]
  omega

/-! ## The layout -/

/-- A region of the size that a thread needs, within the given bounds. -/
structure TraceHdr.Sound (low high : ℕ) (count : UInt64) (hdr : TraceHdr) : Prop where
  aligned : hdr.start.toNat % 8 = 0
  size : hdr.pEnd.toNat = hdr.start.toNat + 12 * count.toNat
  low : low ≤ hdr.start.toNat
  high : hdr.pEnd.toNat ≤ high

lemma TraceHdr.Sound.widen {low low' high : ℕ} {count : UInt64} {hdr : TraceHdr} (sound : hdr.Sound low high count)
    (lower : low' ≤ low) : hdr.Sound low' high count :=
  ⟨sound.aligned, sound.size, lower.trans sound.low, sound.high⟩

lemma place_sound {off : UInt64} {threads : Rank} (aligned : off.toNat % 8 = 0)
    (fits : off.toNat + (threads.map regionSize).sum < 2 ^ 64) :
    Forall₂ (TraceHdr.Sound off.toNat (off.toNat + (threads.map regionSize).sum)) threads (place off threads) ∧
      (place off threads).Pairwise fun a b => a.pEnd.toNat ≤ b.start.toNat := by
  induction threads generalizing off with
  | nil => exact ⟨.nil, .nil⟩
  | cons count rest hypothesis =>
    rw [map_cons, sum_cons] at fits ⊢
    have enough : 12 * count.toNat ≤ regionSize count := by
      rw [regionSize, roundUp]
      omega
    have rounded : regionSize count % 8 = 0 := by
      rw [regionSize, roundUp]
      omega
    have pEnd : (off + count * 12).toNat = off.toNat + 12 * count.toNat := by
      rw [toNat_add, toNat_bytes (by omega), mod_eq_of_lt (by omega)]
    have next : (off + traceSize count).toNat = off.toNat + regionSize count := by
      rw [toNat_add, toNat_traceSize (by omega), mod_eq_of_lt (by omega)]
    obtain ⟨sound, apart⟩ := @hypothesis (off + traceSize count) (by omega) (by omega)
    rw [next, Nat.add_assoc] at sound
    refine ⟨.cons ⟨aligned, pEnd, le_rfl, ?_⟩ (sound.imp fun c hdr later => later.widen (by omega)),
      .cons (fun hdr member => ?_) apart⟩
    · rw [pEnd]
      omega
    · obtain ⟨i, bound, rfl⟩ := getElem_of_mem member
      have inside : i < rest.length := sound.length_eq ▸ bound
      have low := ((forall₂_iff_get.mp sound).2 i inside bound).low
      rw [pEnd]
      exact le_trans (by omega) low

lemma totalSize_last_rank {ranks : List Rank} (world : ranks ≠ []) :
    totalSize (ranks.getD (ranks.length - 1) []) + ((ranks.take (ranks.length - 1)).map totalSize).sum =
      totalSize ranks.flatten := by
  obtain ⟨front, last, rfl⟩ : ∃ front last, ranks = front ++ [last] :=
    ⟨_, _, (dropLast_append_getLast world).symm⟩
  rw [totalSize_flatten, map_append, sum_append, add_comm]
  simp

end HpcToolkit.TraceDb
