import HpcToolkit.Lib.Exclusive
import HpcToolkit.Lib.Reachable
import HpcToolkit.Lib.Tiles

/-! # Distributing the contexts over ranks and threads

The contexts are cut into ranges by size. The ranks take the ranges one by one from a shared counter, where all ranks
but the first start with a range of their own, and cut each range again for the threads of their team. Every cut of a
range is one item of a workshare, which calls `writeContexts` for it.
-/

open Option
open Function List
open UInt64 (ofNat_add toNat_add toNat_one)

namespace HpcToolkit.CctDb

open Lib CctDb

/-- What `write` knows when it distributes the contexts: the offsets of all contexts and their end, the ranks and the
threads of a team. -/
structure Input where
  ctxOffsets : ℕ → UInt64
  ctxStart : UInt64
  nCtxs : UInt32
  size : UInt64
  teamSize : UInt64
  /-- There is a first rank. -/
  ranked : 0 < size

namespace Input

variable (input : Input)

def limit : UInt64 :=
  min (1024 * 1024 * 1024 * 3) ((input.ctxOffsets input.nCtxs.toNat - input.ctxStart) / (3 * input.size))

/-- One round of the loop over all contexts, on `ctxRanges` and `cursize`. -/
def cut (i : ℕ) (w : List ℕ × UInt64) : List ℕ × UInt64 :=
  let size := input.ctxOffsets (i + 1) - input.ctxOffsets i
  let (ctxRanges, cursize) := if w.2 + size > input.limit then (w.1 ++ [i], 0) else w
  (ctxRanges, cursize + size)

def ctxRanges : List ℕ :=
  ((range input.nCtxs.toNat).foldl (fun w i => input.cut i w) ([0], 0)).1 ++ [input.nCtxs.toNat]

/-- The number of the ranges. -/
def count : ℕ := input.ctxRanges.length - 1

/-- Where the next range for a thread starts. -/
def start (firstCtx : ℕ) (ranges : List (ℕ × ℕ)) : ℕ :=
  match ranges.getLast? with
  | some r => r.2
  | none => firstCtx

/-- The loop over the contexts of a range. -/
def teamLoop (target : UInt64) (firstCtx : ℕ) : List ℕ → List (ℕ × ℕ) → UInt64 → List (ℕ × ℕ)
  | [], ranges, _ => ranges
  | id :: ids, ranges, cursize =>
    if ranges.length + 1 = input.teamSize.toNat then ranges
    else
      let cursize := cursize + (input.ctxOffsets (id + 1) - input.ctxOffsets id)
      if cursize > target then teamLoop target firstCtx ids (ranges ++ [(start firstCtx ranges, id + 1)]) 0
      else teamLoop target firstCtx ids ranges cursize

/-- The ranges for the threads of a team. -/
def teamRanges (firstCtx lastCtx : ℕ) : List (ℕ × ℕ) :=
  let target := (input.ctxOffsets lastCtx - input.ctxOffsets firstCtx) / input.teamSize
  let ranges := input.teamLoop target firstCtx (range' firstCtx (lastCtx - firstCtx)) [] 0
  if ranges = [] ∨ start firstCtx ranges < lastCtx then ranges ++ [(start firstCtx ranges, lastCtx)] else ranges

/-- The calls of `writeContexts` for the range that a rank has taken. -/
def rangeCalls (idx : ℕ) : List (ℕ × ℕ) :=
  let firstCtx := input.ctxRanges.getD idx 0
  let lastCtx := input.ctxRanges.getD (idx + 1) 0
  if firstCtx < lastCtx then input.teamRanges firstCtx lastCtx else []

/-! ## The cuts -/

/-- The cuts so far, none of them behind the context `i`. -/
structure Cuts (cuts : List ℕ) (i : ℕ) : Prop where
  first : cuts.head? = some 0
  sorted : cuts.Pairwise (· ≤ ·)
  bound : ∀ c ∈ cuts, c ≤ i

variable {input}

lemma Cuts.snoc {cuts : List ℕ} {i : ℕ} (ok : Cuts cuts i) : Cuts (cuts ++ [i]) i where
  first := by rw [head?_append, ok.first, some_or]
  sorted := by
    refine pairwise_append.mpr ⟨ok.sorted, pairwise_singleton _ _, fun c member j last => ?_⟩
    rw [mem_singleton.mp last]
    exact ok.bound c member
  bound c member := by
    rcases mem_append.mp member with old | new
    · exact ok.bound c old
    · exact (mem_singleton.mp new).le

lemma Cuts.cut {w : List ℕ × UInt64} {i : ℕ} (ok : Cuts w.1 i) : Cuts (input.cut i w).1 (i + 1) := by
  have more : ∀ {cuts}, Cuts cuts i → Cuts cuts (i + 1) := fun ok =>
    ⟨ok.first, ok.sorted, fun c member => (ok.bound c member).trans (Nat.le_succ i)⟩
  simp only [Input.cut]
  split
  · exact more ok.snoc
  · exact more ok

lemma cuts_ctxRanges : Cuts input.ctxRanges input.nCtxs.toNat := by
  suffices ∀ n, Cuts ((range n).foldl (fun w i => input.cut i w) ([0], 0)).1 n from (this _).snoc
  intro n
  induction n with
  | zero => exact ⟨rfl, pairwise_singleton _ _, by simp⟩
  | succ n ih =>
    rw [range_succ, foldl_append]
    exact ih.cut

lemma tiles_ctxRanges (input : Input) : Tiles
    ((range input.count).map fun i => (input.ctxRanges.getD i 0, input.ctxRanges.getD (i + 1) 0))
    0 input.nCtxs.toNat := by
  have ok : Cuts input.ctxRanges input.nCtxs.toNat := cuts_ctxRanges
  have first : input.ctxRanges.getD 0 0 = 0 := by
    rw [getD_eq_getElem?_getD, ← head?_eq_getElem?, ok.first, getD_some]
  have last : input.ctxRanges.getD input.count 0 = input.nCtxs.toNat := by
    rw [count, ctxRanges, length_append, length_singleton, Nat.add_sub_cancel, getD_eq_getElem?_getD,
      getElem?_concat_length, getD_some]
  have ordered : ∀ i < input.count, input.ctxRanges.getD i 0 ≤ input.ctxRanges.getD (i + 1) 0 := by
    intro i less
    rw [count] at less
    rw [getD_eq_getElem _ _ (by omega), getD_eq_getElem _ _ (by omega)]
    exact pairwise_iff_getElem.mp ok.sorted i (i + 1) (by omega) (by omega) (Nat.lt_succ_self i)
  have tiles := Tiles.of_cuts ordered
  rwa [first, last] at tiles

lemma start_snoc (firstCtx : ℕ) (ranges : List (ℕ × ℕ)) (r : ℕ × ℕ) : start firstCtx (ranges ++ [r]) = r.2 := by
  simp [start]

lemma tiles_teamLoop (input : Input) (target : UInt64) (firstCtx ids id : ℕ) (ranges : List (ℕ × ℕ))
    (cursize : UInt64) (tiles : Tiles ranges firstCtx (start firstCtx ranges)) (le : start firstCtx ranges ≤ id) :
    let after := input.teamLoop target firstCtx (range' id ids) ranges cursize
    Tiles after firstCtx (start firstCtx after) ∧ start firstCtx after ≤ id + ids := by
  induction ids generalizing id ranges cursize with
  | zero => exact ⟨tiles, le⟩
  | succ ids ih =>
    simp only [range'_succ, teamLoop]
    have further : id + 1 + ids = id + (ids + 1) := by omega
    split
    · exact ⟨tiles, by omega⟩
    · split
      · rw [← further]
        refine ih _ _ _ ?_ (start_snoc ..).le
        rw [start_snoc]
        exact tiles.snoc (by omega)
      · rw [← further]
        exact ih _ _ _ tiles (by omega)

lemma tiles_teamRanges (input : Input) {firstCtx lastCtx : ℕ} (le : firstCtx ≤ lastCtx) :
    Tiles (input.teamRanges firstCtx lastCtx) firstCtx lastCtx := by
  simp only [teamRanges]
  obtain ⟨tiles, bound⟩ := tiles_teamLoop input
    ((input.ctxOffsets lastCtx - input.ctxOffsets firstCtx) / input.teamSize) firstCtx (lastCtx - firstCtx) firstCtx []
    0 rfl le_rfl
  split
  · exact tiles.snoc (by omega)
  · rename_i complete
    rw [not_or, not_lt] at complete
    rwa [le_antisymm (by omega) complete.2] at tiles

lemma tiles_rangeCalls (input : Input) :
    Tiles ((range input.count).flatMap input.rangeCalls) 0 input.nCtxs.toNat := by
  have tiles := (tiles_ctxRanges input).flatMap
    (f := fun r => if r.1 < r.2 then input.teamRanges r.1 r.2 else []) fun r _ le => ?_
  · rwa [flatMap_map] at tiles
  · split
    · exact tiles_teamRanges input le
    · exact le_antisymm le (not_lt.mp ‹_›)

end Input

/-! ## The ranks -/

/-- What a rank does next; `idx` has 32 bits. -/
inductive Pc where
  | start
  | loop (idx : UInt32)
  | fetch
  | done (idx : UInt32)

/-- The counter of the ranges, the ranks and the calls of `writeContexts` so far. -/
structure State where
  ctxRangeCounter : UInt64
  ranks : ℕ → Pc
  calls : List (ℕ × ℕ)

variable (input : Input)

def initial : State := ⟨input.size - 1, fun _ => .start, []⟩

/-- The rank takes the next range from the counter. -/
def State.fetch (s : State) (r : ℕ) : State where
  ctxRangeCounter := s.ctxRangeCounter + 1
  ranks := update s.ranks r (.loop s.ctxRangeCounter.toUInt32)
  calls := s.calls

/-- A step of the rank `r`. -/
def step (s : State) (r : ℕ) : Option State :=
  if r < input.size.toNat then
    match s.ranks r with
    | .start =>
      if r = 0 then some (s.fetch r)
      else some { s with ranks := update s.ranks r (.loop (UInt32.ofNat (r - 1))) }
    | .loop idx =>
      if idx.toNat < input.count
      then some { s with
        ranks := update s.ranks r .fetch
        calls := s.calls ++ input.rangeCalls idx.toNat }
      else some { s with ranks := update s.ranks r (.done idx) }
    | .fetch => some (s.fetch r)
    | .done _ => none
  else none

/-- Every rank has left its loop. -/
def State.Finished (s : State) : Prop := ∀ r < input.size.toNat, ∃ idx, s.ranks r = .done idx

/-- The range that a rank has taken and not processed yet. -/
def held (pc : Pc) (r : ℕ) : Option ℕ :=
  match pc with
  | .start => if r = 0 then none else some (r - 1)
  | .loop idx => some idx.toNat
  | .fetch => none
  | .done idx => some idx.toNat

def State.held (s : State) : List ℕ := (range input.size.toNat).filterMap fun r => CctDb.held (s.ranks r) r

/-- The ranges taken from the counter are those that were processed and those that the ranks hold. -/
structure Inv (s : State) (processed : List ℕ) : Prop where
  taken : (range s.ctxRangeCounter.toNat).Perm (processed ++ s.held input)
  inside : ∀ i ∈ processed, i < input.count
  calls : s.calls = processed.flatMap input.rangeCalls
  finished : ∀ r idx, s.ranks r = .done idx → input.count ≤ idx.toNat

section Steps

variable {input} {s : State} {processed : List ℕ} {r : ℕ} {pc : Pc}

/-- What the other ranks hold. -/
def State.others (input : Input) (s : State) (r : ℕ) : List ℕ :=
  ((range input.size.toNat).erase r).filterMap fun r => CctDb.held (s.ranks r) r

lemma held_perm (input : Input) (s : State) (inside : r < input.size.toNat) :
    (s.held input).Perm ((held (s.ranks r) r).toList ++ s.others input r) := by
  have split := (perm_cons_erase (mem_range.mpr inside)).filterMap fun r => held (s.ranks r) r
  rw [filterMap_cons] at split
  rw [State.held, State.others]
  cases now : held (s.ranks r) r <;> simpa [now] using split

lemma held_update (s : State) (pc : Pc) (counter : UInt64) (calls : List (ℕ × ℕ)) (inside : r < input.size.toNat) :
    (State.held input ⟨counter, update s.ranks r pc, calls⟩).Perm
      ((held pc r).toList ++ s.others input r) := by
  have same : State.others input ⟨counter, update s.ranks r pc, calls⟩ r = s.others input r := by
    refine filterMap_congr fun u member => ?_
    have other : u ≠ r := fun here => nodup_range.not_mem_erase (here ▸ member)
    simp only [update_of_ne other]
  have split := held_perm input ⟨counter, update s.ranks r pc, calls⟩ inside
  rw [same] at split
  change (State.held input _).Perm ((held (update s.ranks r pc r) r).toList ++ _) at split
  rwa [update_self] at split

lemma length_others (input : Input) (s : State) (inside : r < input.size.toNat) :
    (s.others input r).length < input.size.toNat := by
  have short := length_filterMap_le (fun r => held (s.ranks r) r) ((range input.size.toNat).erase r)
  rw [length_erase_of_mem (mem_range.mpr inside), length_range] at short
  rw [State.others]
  omega

section
variable (inv : Inv input s processed)
include inv

lemma Inv.nodup : (processed ++ s.held input).Nodup :=
  inv.taken.nodup_iff.mp nodup_range

lemma Inv.length_processed : processed.length ≤ input.count := by
  have distinct := (nodup_append.mp inv.nodup).1
  have inside : processed ⊆ range input.count := fun i member => mem_range.mpr (inv.inside i member)
  simpa using (distinct.subperm inside).length_le

lemma Inv.counter_lt (inside : r < input.size.toNat)
    (free : held (s.ranks r) r = none) (small : input.count + input.size.toNat ≤ 2 ^ 32) :
    s.ctxRangeCounter.toNat < 2 ^ 32 := by
  have total := inv.taken.length_eq
  have mine := (held_perm input s inside).length_eq
  have short := length_others input s inside
  have some := inv.length_processed
  rw [free, toList_none, nil_append] at mine
  rw [length_range, length_append] at total
  omega

lemma Inv.fetch (inside : r < input.size.toNat)
    (free : held (s.ranks r) r = none) (small : input.count + input.size.toNat ≤ 2 ^ 32) :
    Inv input (s.fetch r) processed := by
  have bound := inv.counter_lt inside free small
  have before := held_perm input s inside
  have next : (s.ctxRangeCounter + 1).toNat = s.ctxRangeCounter.toNat + 1 := by
    rw [toNat_add, toNat_one, Nat.mod_eq_of_lt]
    omega
  have idx : s.ctxRangeCounter.toUInt32.toNat = s.ctxRangeCounter.toNat := by
    rw [UInt64.toNat_toUInt32, Nat.mod_eq_of_lt bound]
  rw [free, toList_none, nil_append] at before
  refine ⟨?_, inv.inside, inv.calls, fun u idx stopped => ?_⟩
  · have after := held_update s (.loop s.ctxRangeCounter.toUInt32) (s.ctxRangeCounter + 1) s.calls inside
    simp only [held, idx, toList_some] at after
    have shifted := (inv.taken.trans (before.append_left processed)).cons s.ctxRangeCounter.toNat
    rw [State.fetch, next, range_succ]
    exact (perm_append_singleton _ _).trans (shifted.trans (perm_middle.symm.trans
      (after.symm.append_left processed)))
  · by_cases here : u = r
    · simp [State.fetch, here] at stopped
    · exact inv.finished u idx (by simpa only [State.fetch, update_of_ne here] using stopped)

lemma Inv.move (pc : Pc) (inside : r < input.size.toNat) (more : List ℕ)
    (same : more ++ (held pc r).toList = (held (s.ranks r) r).toList) (own : ∀ i ∈ more, i < input.count)
    (finished : ∀ idx, pc = .done idx → input.count ≤ idx.toNat) :
    Inv input ⟨s.ctxRangeCounter, update s.ranks r pc, s.calls ++ more.flatMap input.rangeCalls⟩
      (processed ++ more) where
  taken := by
    have before := held_perm input s inside
    have after := held_update s pc s.ctxRangeCounter (s.calls ++ more.flatMap input.rangeCalls) inside
    rw [← same, append_assoc] at before
    rw [append_assoc]
    exact inv.taken.trans ((before.trans (after.symm.append_left more)).append_left processed)
  inside i member := (mem_append.mp member).elim (inv.inside i) (own i)
  calls := by rw [flatMap_append, inv.calls]
  finished u idx stopped := by
    by_cases here : u = r
    · subst here
      exact finished idx (by simpa using stopped)
    · exact inv.finished u idx (by simpa only [update_of_ne here] using stopped)

end

variable {s' : State}

lemma Inv.step (small : input.count + input.size.toNat ≤ 2 ^ 32) (inv : Inv input s processed)
    (stepped : step input s r = some s') : ∃ processed', Inv input s' processed' := by
  simp only [CctDb.step, ite_none_right_eq_some] at stepped
  obtain ⟨inside, stepped⟩ := stepped
  cases now : s.ranks r with
  | start =>
    simp only [now] at stepped
    split at stepped
    · rename_i first
      cases stepped
      exact ⟨processed, inv.fetch inside (by rw [now, held, if_pos first]) small⟩
    · rename_i later
      cases stepped
      have idx : (UInt32.ofNat (r - 1)).toNat = r - 1 := by
        rw [UInt32.toNat_ofNat', Nat.mod_eq_of_lt (by omega)]
      have next := inv.move (.loop (UInt32.ofNat (r - 1))) inside []
        (by simp [now, held, later, idx]) (fun i member => absurd member not_mem_nil) fun idx stopped => ?_
      · simp only [append_nil, flatMap_nil] at next
        exact ⟨processed, next⟩
      · cases stopped
  | loop idx =>
    simp only [now] at stepped
    split at stepped
    · rename_i own
      cases stepped
      have next := inv.move .fetch inside [idx.toNat] (by simp [now, held])
        (fun i member => mem_singleton.mp member ▸ own) fun idx stopped => ?_
      · rw [flatMap_singleton] at next
        exact ⟨_, next⟩
      · cases stopped
    · rename_i beyond
      cases stepped
      have next := inv.move (.done idx) inside [] (by simp [now, held])
        (fun i member => absurd member not_mem_nil) fun idx' stopped => ?_
      · simp only [append_nil, flatMap_nil] at next
        exact ⟨processed, next⟩
      · obtain rfl := Pc.done.inj stopped
        exact not_lt.mp beyond
  | fetch =>
    simp only [now] at stepped
    cases stepped
    exact ⟨processed, inv.fetch inside (by simp [now, held]) small⟩
  | done idx => simp [now] at stepped

lemma initial_inv (input : Input) : Inv input (initial input) [] where
  taken := by
    have positive : 0 < input.size.toNat := UInt64.lt_iff_toNat_lt.mp input.ranked
    have counter : (initial input).ctxRangeCounter.toNat = input.size.toNat - 1 :=
      UInt64.toNat_sub_of_le _ _ (UInt64.le_iff_toNat_le.mpr (Nat.succ_le_of_lt positive))
    have held : State.held input (initial input) = range (input.size.toNat - 1) := by
      obtain ⟨n, size⟩ := Nat.exists_eq_add_of_lt positive
      rw [State.held, size, Nat.zero_add, range_succ_eq_map, filterMap_cons, filterMap_map]
      simp [initial, held, comp_def]
    rw [counter, held, nil_append]
  inside i member := absurd member not_mem_nil
  calls := rfl
  finished r idx stopped := by simp [initial] at stopped

lemma countP_tiles (input : Input) (c : ℕ) : ((range input.count).flatMap input.rangeCalls).countP (covers c) =
    if c < input.nCtxs.toNat then 1 else 0 := by
  rw [(Input.tiles_rangeCalls input).countP c]
  simp

lemma Inv.at_most_once (inv : Inv input s processed) (c : ℕ) : s.calls.countP (covers c) ≤ 1 := by
  have distinct := (nodup_append.mp inv.nodup).1
  have inside : processed ⊆ range input.count := fun i member => mem_range.mpr (inv.inside i member)
  obtain ⟨sorted, perm, sublist⟩ := distinct.subperm inside
  have fewer := (sublist.flatMap input.rangeCalls).countP_le (p := covers c)
  rw [inv.calls, ← (perm.flatMap_right input.rangeCalls).countP_eq]
  refine fewer.trans ?_
  rw [countP_tiles]
  split <;> omega

lemma Inv.complete (inv : Inv input s processed) (finished : s.Finished input) :
    processed.Perm (range input.count) := by
  refine (perm_ext_iff_of_nodup (nodup_append.mp inv.nodup).1 nodup_range).mpr fun i =>
    ⟨fun member => mem_range.mpr (inv.inside i member), fun member => ?_⟩
  have small := mem_range.mp member
  -- the first rank has left the loop with a number that it took from the counter
  have beyond : input.count < s.ctxRangeCounter.toNat := by
    have positive : 0 < input.size.toNat := UInt64.lt_iff_toNat_lt.mp input.ranked
    obtain ⟨idx, stopped⟩ := finished 0 positive
    have isHeld : idx.toNat ∈ s.held input :=
      mem_filterMap.mpr ⟨0, mem_range.mpr positive, by rw [stopped, held]⟩
    have taken := inv.taken.mem_iff.mpr (mem_append_right processed isHeld)
    exact (inv.finished 0 idx stopped).trans_lt (mem_range.mp taken)
  rcases mem_append.mp (inv.taken.mem_iff.mp (mem_range.mpr (small.trans beyond))) with here | isHeld
  · exact here
  · obtain ⟨u, inside, holds⟩ := mem_filterMap.mp isHeld
    obtain ⟨idx, stopped⟩ := finished u (mem_range.mp inside)
    rw [stopped, held] at holds
    have large := inv.finished u idx stopped
    exact absurd small (not_lt.mpr (Option.some.inj holds ▸ large))

/-! ## How long the ranks run -/

def weight : Pc → ℕ
  | .start => 3
  | .loop _ => 2
  | .fetch => 1
  | .done _ => 0

/-- A bound for the steps that are left. -/
def left (input : Input) (s : State) : ℕ :=
  ∑ r ∈ Finset.range input.size.toNat, weight (s.ranks r) +
    2 * (input.count + input.size.toNat - s.ctxRangeCounter.toNat)

lemma Inv.counter_le (inv : Inv input s processed) :
    s.ctxRangeCounter.toNat ≤ input.count + input.size.toNat := by
  have total := inv.taken.length_eq
  have few := inv.length_processed
  have short := length_filterMap_le (fun r => held (s.ranks r) r) (range input.size.toNat)
  rw [length_range] at short
  rw [length_range, length_append, State.held] at total
  omega

lemma Inv.left_fetch (inv : Inv input s processed) (inside : r < input.size.toNat)
    (free : held (s.ranks r) r = none) (small : input.count + input.size.toNat ≤ 2 ^ 32)
    (heavy : 0 < weight (s.ranks r)) : left input (s.fetch r) < left input s := by
  have after := (inv.fetch inside free small).counter_le
  have bound := inv.counter_lt inside free small
  have next : (s.ctxRangeCounter + 1).toNat = s.ctxRangeCounter.toNat + 1 := by
    rw [toNat_add, toNat_one, Nat.mod_eq_of_lt]
    omega
  have moved := sum_update_add weight s.ranks (.loop s.ctxRangeCounter.toUInt32) (Finset.mem_range.mpr inside)
  have light : weight (.loop s.ctxRangeCounter.toUInt32) = 2 := rfl
  rw [left, left]
  change ∑ u ∈ _, weight (update s.ranks r (.loop s.ctxRangeCounter.toUInt32) u) +
    2 * (_ - (s.ctxRangeCounter + 1).toNat) < _
  change (s.ctxRangeCounter + 1).toNat ≤ _ at after
  rw [next] at after ⊢
  omega

lemma left_move (inside : r < input.size.toNat) (lighter : weight pc < weight (s.ranks r)) (calls : List (ℕ × ℕ)) :
    left input ⟨s.ctxRangeCounter, update s.ranks r pc, calls⟩ < left input s := by
  have moved := sum_update_add weight s.ranks pc (Finset.mem_range.mpr inside)
  rw [left, left]
  change ∑ u ∈ _, weight (update s.ranks r pc u) + 2 * (_ - s.ctxRangeCounter.toNat) < _
  omega

lemma Inv.left_step (small : input.count + input.size.toNat ≤ 2 ^ 32) (inv : Inv input s processed)
    (stepped : CctDb.step input s r = some s') : left input s' < left input s := by
  simp only [CctDb.step, ite_none_right_eq_some] at stepped
  obtain ⟨inside, stepped⟩ := stepped
  cases now : s.ranks r with
  | start =>
    simp only [now] at stepped
    split at stepped
    · rename_i first
      cases stepped
      exact inv.left_fetch inside (by rw [now, held, if_pos first]) small (by rw [now]; decide)
    · cases stepped
      exact left_move inside (by rw [now]; exact Nat.lt_succ_self 2) s.calls
  | loop idx =>
    simp only [now] at stepped
    split at stepped
    · cases stepped
      exact left_move inside (by rw [now]; exact Nat.lt_succ_self 1) _
    · cases stepped
      exact left_move inside (by rw [now]; exact Nat.zero_lt_two) s.calls
  | fetch =>
    simp only [now] at stepped
    cases stepped
    exact inv.left_fetch inside (by rw [now, held]) small (by rw [now]; decide)
  | done idx => simp [now] at stepped

lemma step_of_not_finished (unfinished : ¬s.Finished input) : ∃ r s', step input s r = some s' := by
  simp only [State.Finished, not_forall, not_exists] at unfinished
  obtain ⟨r, inside, going⟩ := unfinished
  refine ⟨r, ?_⟩
  rw [step, if_pos inside]
  cases now : s.ranks r with
  | start =>
    simp only
    split <;> exact ⟨_, rfl⟩
  | loop idx =>
    simp only
    split <;> exact ⟨_, rfl⟩
  | fetch => exact ⟨_, rfl⟩
  | done idx => exact absurd now (going idx)

lemma length_run {acts : List ℕ} (small : input.count + input.size.toNat ≤ 2 ^ 32)
    (inv : Inv input s processed) (ran : acts.foldlM (step input) s = some s') :
    acts.length + left input s' ≤ left input s := by
  induction acts generalizing s processed with
  | nil =>
    cases ran
    rw [length_nil, Nat.zero_add]
  | cons r acts ih =>
    rw [foldlM_cons] at ran
    obtain ⟨next, stepped, ran⟩ := bind_eq_some_iff.mp ran
    obtain ⟨processed', inv'⟩ := inv.step small stepped
    have shorter := ih inv' ran
    have fewer := inv.left_step small stepped
    rw [length_cons]
    omega

end Steps

/-- Each context is in at most one call, and in exactly one once no rank can go on, which is so after a bounded number
of steps. -/
def EachContextOnce (input : Input) : Prop :=
  (∃ bound, ∀ (acts : List ℕ) s, acts.foldlM (step input) (initial input) = some s → acts.length ≤ bound) ∧
    ∀ s, Reachable (step input) (initial input) s →
      (∀ c < input.nCtxs.toNat, s.calls.countP (covers c) ≤ 1) ∧
      ((∃ r s', step input s r = some s') ∨
        ∀ c < input.nCtxs.toNat, s.calls.countP (covers c) = 1)

/-- Two ranks with teams of two threads, and four contexts of which the second is empty. -/
def twoRanks : Input where
  ctxOffsets i := if i = 0 then 80 else if i ≤ 2 then 120 else if i = 3 then 160 else 200
  ctxStart := 80
  nCtxs := 4
  size := 2
  teamSize := 2
  ranked := by decide

/-- One rank and contexts of the same size. -/
def equalContexts (z : UInt64) (nCtxs : UInt32) : Input where
  ctxOffsets i := UInt64.ofNat i * z
  ctxStart := 0
  nCtxs := nCtxs
  size := 1
  teamSize := 1
  ranked := by decide

/-- The first rank after `k` ranges, the others still at their start. -/
def alone (input : Input) (counter : ℕ) (pc : Pc) (k : ℕ) : State where
  ctxRangeCounter := UInt64.ofNat counter
  ranks := update (fun _ => .start) 0 pc
  calls := (range k).flatMap fun i => input.rangeCalls (i % 2 ^ 32)

section EqualContexts

variable {z : UInt64} {nCtxs : UInt32}

lemma equalContexts_size (i : ℕ) :
    (equalContexts z nCtxs).ctxOffsets (i + 1) - (equalContexts z nCtxs).ctxOffsets i = z := by
  change UInt64.ofNat (i + 1) * z - UInt64.ofNat i * z = z
  rw [ofNat_add]
  grind

variable (first : (equalContexts z nCtxs).limit < 0 + z) (next : (equalContexts z nCtxs).limit < z + z)

include first next

lemma equalContexts_cuts (n : ℕ) : (range n).foldl (fun w i => (equalContexts z nCtxs).cut i w) ([0], 0) =
    (0 :: range n, if n = 0 then 0 else z) := by
  induction n with
  | zero => rfl
  | succ n ih =>
    have large : (if n = 0 then 0 else z) + z > (equalContexts z nCtxs).limit := by
      split
      · exact first
      · exact next
    rw [range_succ, foldl_append, ih, foldl_cons, foldl_nil]
    simp only [Input.cut, equalContexts_size, if_pos large]
    simp

lemma equalContexts_ctxRanges :
    (equalContexts z nCtxs).ctxRanges = 0 :: range nCtxs.toNat ++ [nCtxs.toNat] := by
  rw [Input.ctxRanges, equalContexts_cuts first next]
  rfl

lemma equalContexts_count : (equalContexts z nCtxs).count = nCtxs.toNat + 1 := by
  rw [Input.count, equalContexts_ctxRanges first next]
  simp

lemma equalContexts_run (full : nCtxs.toNat + 1 = 2 ^ 32) (k : ℕ) :
    Reachable (step (equalContexts z nCtxs)) (initial (equalContexts z nCtxs))
      (alone (equalContexts z nCtxs) (k + 1) (.loop (UInt32.ofNat k)) k) := by
  have ranked : 0 < (equalContexts z nCtxs).size.toNat := Nat.one_pos
  induction k with
  | zero =>
    have zero : (initial (equalContexts z nCtxs)).ctxRangeCounter = UInt64.ofNat 0 := by
      change (1 : UInt64) - 1 = UInt64.ofNat 0
      decide
    have started : step (equalContexts z nCtxs) (initial (equalContexts z nCtxs)) 0 =
        some ((initial (equalContexts z nCtxs)).fetch 0) := if_pos ranked
    rw [State.fetch, zero, UInt64.toUInt32_ofNat'] at started
    exact Reachable.start.step started
  | succ k ih =>
    have idx : (UInt32.ofNat k).toNat = k % 2 ^ 32 := UInt32.toNat_ofNat'
    have inside : k % 2 ^ 32 < (equalContexts z nCtxs).count := by
      rw [equalContexts_count first next, full]
      exact Nat.mod_lt _ (Nat.two_pow_pos 32)
    have processed : step (equalContexts z nCtxs) (alone (equalContexts z nCtxs) (k + 1) (.loop (UInt32.ofNat k)) k) 0 =
        some (alone (equalContexts z nCtxs) (k + 1) .fetch (k + 1)) := by
      rw [step, if_pos ranked]
      simp only [alone, update_self, update_idem, idx, if_pos inside]
      rw [range_succ, flatMap_append, flatMap_singleton]
    have fetched : step (equalContexts z nCtxs) (alone (equalContexts z nCtxs) (k + 1) .fetch (k + 1)) 0 =
        some (alone (equalContexts z nCtxs) (k + 1 + 1) (.loop (UInt32.ofNat (k + 1))) (k + 1)) := by
      rw [step, if_pos ranked]
      simp only [alone, update_self, State.fetch, update_idem, UInt64.toUInt32_ofNat',
        ofNat_add (k + 1) 1]
      rfl
    exact (ih.step processed).step fetched

lemma equalContexts_second (several : 2 ≤ nCtxs.toNat) :
    ((equalContexts z nCtxs).rangeCalls 1).countP (covers 0) = 1 := by
  have start : (equalContexts z nCtxs).ctxRanges.getD 1 0 = 0 := by
    rw [equalContexts_ctxRanges first next, cons_append, getD_cons_succ, getD_eq_getElem?_getD,
      getElem?_append_left (by rw [length_range]; omega), getElem?_range (by omega), getD_some]
  have stop : (equalContexts z nCtxs).ctxRanges.getD 2 0 = 1 := by
    rw [equalContexts_ctxRanges first next, cons_append, getD_cons_succ, getD_eq_getElem?_getD,
      getElem?_append_left (by rw [length_range]; omega), getElem?_range (by omega), getD_some]
  have calls : (equalContexts z nCtxs).rangeCalls 1 = (equalContexts z nCtxs).teamRanges 0 1 := by
    simp only [Input.rangeCalls, start, stop, zero_lt_one, if_true]
  rw [calls, (Input.tiles_teamRanges _ zero_le_one).countP]
  rfl

lemma equalContexts_twice (full : nCtxs.toNat + 1 = 2 ^ 32) : ¬EachContextOnce (equalContexts z nCtxs) := by
  intro once
  have second := equalContexts_second first next (by omega)
  have reached := equalContexts_run first next full (2 ^ 32 + 2)
  have atMost := (once.2 _ reached).1 0 (by change 0 < nCtxs.toNat; omega)
  have again : (2 ^ 32 + 1) % 2 ^ 32 = 1 := by omega
  have earlier : 0 < ((range (2 ^ 32 + 1)).flatMap fun i =>
      (equalContexts z nCtxs).rangeCalls (i % 2 ^ 32)).countP (covers 0) := by
    obtain ⟨call, member, covered⟩ := countP_pos_iff.mp (second ▸ zero_lt_one)
    refine countP_pos_iff.mpr ⟨call, mem_flatMap.mpr ⟨1, mem_range.mpr (by omega), ?_⟩, covered⟩
    rwa [Nat.mod_eq_of_lt (by omega)]
  simp only [alone] at atMost
  rw [range_succ, flatMap_append, flatMap_singleton, again, countP_append, second] at atMost
  omega

end EqualContexts

end HpcToolkit.CctDb
