import HpcToolkit.Lib.SortedTable

/-! # Function tables

The addresses that a load module's functions start at, collected in an array that doubles when it is full, sorted and
without duplicates, and searched for the function around an address. Indices are natural numbers, for no table comes near
`2^30` entries.
-/

open List
open BitVec (le_def lt_def toNat_sub)

namespace HpcToolkit.Fnbounds

open Lib.SortedTable

/-! ## The table -/

/-- `FnboundsResponse`; there is room for one more entry at any time. -/
structure FnboundsResponse where
  entries : List (BitVec 64)
  numEntries : ℕ
  maxEntries : ℕ
  allocated : entries.length = maxEntries
  room : numEntries < maxEntries

def maxFunc : ℕ := 65536

/-- The array of `calloc`. -/
def FnboundsResponse.initial : FnboundsResponse where
  entries := replicate maxFunc 0
  numEntries := 0
  maxEntries := maxFunc
  allocated := length_replicate
  room := by decide

/-- `fnb_add_function`: a full array is doubled, and the new part is cleared. -/
def fnbAddFunction (resp : FnboundsResponse) (faddr : BitVec 64) : FnboundsResponse :=
  let entries := resp.entries.set resp.numEntries faddr
  let numEntries := resp.numEntries + 1
  if full : numEntries ≥ resp.maxEntries then
    { entries := entries.take numEntries ++ replicate (2 * resp.maxEntries - numEntries) 0
      numEntries
      maxEntries := 2 * resp.maxEntries
      allocated := by
        have := resp.allocated
        have := resp.room
        simp only [entries, numEntries, length_append, length_take, length_set, length_replicate]
        omega
      room := by
        have := resp.room
        omega }
  else
    { entries
      numEntries
      maxEntries := resp.maxEntries
      allocated := (length_set ..).trans resp.allocated
      room := not_le.mp full }

def funcCmp (fp1 fp2 : BitVec 64) : ℤ := if fp1 > fp2 then 1 else if fp1 < fp2 then -1 else 0

/-- The array when `process_mapped_header` has sorted it. -/
def sortedEntries (resp : FnboundsResponse) : List (BitVec 64) :=
  (resp.entries.take resp.numEntries).mergeSort (fun a b => funcCmp a b ≤ 0) ++ resp.entries.drop resp.numEntries

/-- The table when `process_mapped_header` has sorted it and removed the duplicates. -/
def functionTable (resp : FnboundsResponse) : List (BitVec 64) :=
  if resp.numEntries > 0 then
    let (entries, lastunique) := compact (sortedEntries resp) resp.numEntries
    entries.take (lastunique + 1)
  else []

/-- The table of the functions that were added to the array of `calloc`. -/
def responseTable (addrs : List (BitVec 64)) : List (BitVec 64) :=
  functionTable (addrs.foldl fnbAddFunction .initial)

/-! ## Lookups -/

/-- `fnbounds_table_lookup`, of a table with an entry at least -/
def fnboundsTableLookup (table : List (BitVec 64)) (ip : BitVec 64) : Option (BitVec 64 × BitVec 64) :=
  let last := table.length - 1
  if ip < table.getD 0 0 ∨ ip ≥ table.getD last 0 then none
  else (bisect (fun mid => ip ≥ table.getD mid 0) table.length 0 last ((0 + last) / 2)).map fun lo =>
    (table.getD lo 0, table.getD (lo + 1) 0)

/-- What a lookup needs of `dso_info_t`. -/
structure DsoInfo where
  startToRefDist : BitVec 64
  table : List (BitVec 64)
  isRelocatable : Bool

/-- `hpcrun_dso_make` with a table -/
def hpcrunDsoMake (table : List (BitVec 64)) (isRelocatable : Bool) (startaddr referenceOffset : BitVec 64) : DsoInfo where
  startToRefDist := if isRelocatable then startaddr - referenceOffset else 0
  table
  isRelocatable

def performRelocation (addr offset : BitVec 64) : BitVec 64 := addr + offset

/-- `fnbounds_enclosing_addr` in the load module that was found -/
def fnboundsEnclosingAddr (dso : DsoInfo) (ip : BitVec 64) : Option (BitVec 64 × BitVec 64) :=
  if dso.table.length > 0 then
    let ipNorm := if dso.isRelocatable then ip - dso.startToRefDist else ip
    (fnboundsTableLookup dso.table ipNorm).map fun (start, stop) =>
      if dso.isRelocatable then (performRelocation start dso.startToRefDist, performRelocation stop dso.startToRefDist)
      else (start, stop)
  else none

/-! ## Adding functions -/

lemma take_fnbAddFunction (resp : FnboundsResponse) (faddr : BitVec 64) :
    (fnbAddFunction resp faddr).entries.take (fnbAddFunction resp faddr).numEntries =
      resp.entries.take resp.numEntries ++ [faddr] := by
  have inside : resp.numEntries < resp.entries.length := resp.allocated ▸ resp.room
  have written : (resp.entries.set resp.numEntries faddr).take (resp.numEntries + 1) =
      resp.entries.take resp.numEntries ++ [faddr] := by
    rw [take_add_one, take_set_of_le le_rfl, getElem?_set_self inside]
    rfl
  unfold fnbAddFunction
  dsimp only
  split
  · dsimp only
    rw [take_append_of_le_length (by simp; omega), take_take, min_self, written]
  · exact written

lemma take_foldl_fnbAddFunction (addrs : List (BitVec 64)) (resp : FnboundsResponse) :
    (addrs.foldl fnbAddFunction resp).entries.take (addrs.foldl fnbAddFunction resp).numEntries =
      resp.entries.take resp.numEntries ++ addrs := by
  induction addrs generalizing resp with
  | nil => simp
  | cons faddr addrs ih => rw [foldl_cons, ih, take_fnbAddFunction, append_assoc, singleton_append]

lemma funcCmp_le_iff (a b : BitVec 64) : funcCmp a b ≤ 0 ↔ a ≤ b := by
  unfold funcCmp
  split
  · rename_i greater
    exact iff_of_false (by decide) (BitVec.not_le.mpr greater)
  · rename_i greater
    refine iff_of_true ?_ (BitVec.not_lt.mp greater)
    split <;> decide

variable (resp : FnboundsResponse)

lemma take_sortedEntries : (sortedEntries resp).take resp.numEntries =
    (resp.entries.take resp.numEntries).mergeSort (fun a b => funcCmp a b ≤ 0) := by
  have length : ((resp.entries.take resp.numEntries).mergeSort (fun a b => funcCmp a b ≤ 0)).length = resp.numEntries := by
    rw [length_mergeSort, length_take, resp.allocated, min_eq_left resp.room.le]
  rw [sortedEntries, take_append_of_le_length length.ge, take_of_length_le length.le]

lemma sortedEntries_pairwise : ((sortedEntries resp).take resp.numEntries).Pairwise (· ≤ ·) := by
  rw [take_sortedEntries]
  refine (pairwise_mergeSort ?_ ?_ _).imp fun less => ?_
  · intro a b c first second
    simp only [decide_eq_true_eq, funcCmp_le_iff] at first second ⊢
    exact BitVec.le_trans first second
  · intro a b
    simp only [Bool.or_eq_true, decide_eq_true_eq, funcCmp_le_iff]
    exact BitVec.le_total a b
  · simpa only [decide_eq_true_eq, funcCmp_le_iff] using less

lemma functionTable_spec : (functionTable resp).Pairwise (· < ·) ∧
    ∀ a, a ∈ functionTable resp ↔ a ∈ resp.entries.take resp.numEntries := by
  unfold functionTable
  split
  · rename_i positive
    have bound : resp.numEntries ≤ (sortedEntries resp).length := by
      have := resp.allocated
      have := resp.room
      simp [sortedEntries]
      omega
    obtain ⟨increasing, members, -⟩ := compact_spec (sortedEntries_pairwise resp) bound positive
    refine ⟨increasing, fun a => (members a).trans ?_⟩
    rw [take_sortedEntries]
    exact (mergeSort_perm _ _).mem_iff
  · rename_i empty
    have none : resp.numEntries = 0 := by omega
    simp [none]

lemma responseTable_spec (addrs : List (BitVec 64)) :
    (responseTable addrs).Pairwise (· < ·) ∧
      ∀ a, a ∈ responseTable addrs ↔ a ∈ addrs := by
  obtain ⟨increasing, members⟩ := functionTable_spec (addrs.foldl fnbAddFunction .initial)
  refine ⟨increasing, fun a => (members a).trans ?_⟩
  rw [take_foldl_fnbAddFunction]
  exact Iff.rfl

lemma responseTable_eq {addrs table : List (BitVec 64)} (increasing : table.Pairwise (· < ·))
    (members : ∀ a, a ∈ table ↔ a ∈ addrs) : responseTable addrs = table := by
  obtain ⟨sorted, same⟩ := responseTable_spec addrs
  exact sorted.eq_of_mem_iff increasing fun a => (same a).trans (members a).symm

/-! ## Looking up -/

/-- `stop` is the entry behind `start`. -/
def Consecutive (table : List (BitVec 64)) (start stop : BitVec 64) : Prop :=
  ∃ i, table[i]? = some start ∧ table[i + 1]? = some stop

section Lookup

variable {table : List (BitVec 64)} {first last ip start stop : BitVec 64}

lemma getD_of_head? (head : table.head? = some first) : table.getD 0 0 = first := by
  rw [getD_eq_getElem?_getD, ← head?_eq_getElem?, head]
  rfl

lemma getD_of_getLast? (final : table.getLast? = some last) : table.getD (table.length - 1) 0 = last := by
  rw [getD_eq_getElem?_getD, ← getLast?_eq_getElem?, final]
  rfl

lemma fnboundsTableLookup_outside (head : table.head? = some first) (final : table.getLast? = some last)
    (outside : ¬ (first ≤ ip ∧ ip < last)) : fnboundsTableLookup table ip = none := by
  unfold fnboundsTableLookup
  dsimp only
  rw [getD_of_head? head, getD_of_getLast? final, if_pos]
  rcases Classical.em (first ≤ ip) with above | below
  · exact .inr (BitVec.not_lt.mp fun less => outside ⟨above, less⟩)
  · exact .inl (BitVec.not_le.mp below)

lemma fnboundsTableLookup_inside (head : table.head? = some first) (final : table.getLast? = some last)
    (above : first ≤ ip) (below : ip < last) : ∃ start stop, fnboundsTableLookup table ip = some (start, stop) ∧
      Consecutive table start stop ∧ start ≤ ip ∧ ip < stop := by
  have several : 0 < table.length - 1 := by
    refine Nat.pos_of_ne_zero fun single => ?_
    have same := getD_of_getLast? final
    rw [single, getD_of_head? head] at same
    exact BitVec.not_lt.mpr above (same ▸ below)
  have least : decide (ip ≥ table.getD 0 0) = true := by simpa only [getD_of_head? head, decide_eq_true_eq] using above
  have greatest : ¬ decide (ip ≥ table.getD (table.length - 1) 0) = true := by
    simpa only [getD_of_getLast? final, decide_eq_true_eq, ge_iff_le, BitVec.not_le] using below
  obtain ⟨r, found, -, inside, holds, fails⟩ :=
    bisect_spec (p := fun mid => ip ≥ table.getD mid 0) table.length 0 _ several least greatest (by omega)
  have entry (i : ℕ) (bound : i < table.length) : table[i]? = some (table.getD i 0) := by
    rw [getD_eq_getElem _ 0 bound, getElem?_eq_getElem bound]
  refine ⟨table.getD r 0, table.getD (r + 1) 0, ?_, ⟨r, entry r (by omega), entry (r + 1) (by omega)⟩, ?_, ?_⟩
  · unfold fnboundsTableLookup
    dsimp only
    rw [getD_of_head? head, getD_of_getLast? final, if_neg, found]
    · rfl
    · rintro (less | greater)
      · exact BitVec.not_lt.mpr above less
      · exact BitVec.not_lt.mpr greater below
  · exact of_decide_eq_true holds
  · simpa only [decide_eq_true_eq, ge_iff_le, BitVec.not_le] using fails

lemma fnboundsTableLookup_spec (found : fnboundsTableLookup table ip = some (start, stop)) (nonempty : table ≠ []) :
    Consecutive table start stop ∧ start ≤ ip ∧ ip < stop := by
  have head := head?_eq_some_head nonempty
  have final := getLast?_eq_some_getLast nonempty
  rcases Classical.em (table.head nonempty ≤ ip ∧ ip < table.getLast nonempty) with ⟨above, below⟩ | outside
  · obtain ⟨s, e, result, facts⟩ := fnboundsTableLookup_inside head final above below
    cases found.symm.trans result
    exact facts
  · cases found.symm.trans (fnboundsTableLookup_outside head final outside)

variable {s e x : BitVec 64}

lemma sub_lt_sub_of_moved (least : s ≤ x) (most : x < e) (d : BitVec 64) :
    (x + d) - (s + d) < (e + d) - (s + d) := by
  rw [le_def] at least
  rw [lt_def] at most
  have shifted (y : BitVec 64) : (y + d) - (s + d) = y - s := by
    ring
  rw [shifted, shifted, lt_def, toNat_sub, toNat_sub]
  omega

lemma around_iff_of_sub_lt_sub (inside : x - s < e - s) : s ≤ x ∧ x < e ↔ s < e := by
  rw [lt_def, toNat_sub, toNat_sub] at inside
  rw [le_def, lt_def, lt_def]
  omega

lemma fnboundsEnclosingAddr_spec {dso : DsoInfo} (found : fnboundsEnclosingAddr dso ip = some (start, stop)) :
    ip - start < stop - start := by
  unfold fnboundsEnclosingAddr at found
  split at found
  · rename_i several
    obtain ⟨⟨s, e⟩, lookup, result⟩ := Option.map_eq_some_iff.mp found
    obtain ⟨-, least, most⟩ := fnboundsTableLookup_spec lookup (ne_nil_of_length_pos several)
    dsimp only at result least most
    cases relocatable : dso.isRelocatable
    · rw [relocatable, if_neg Bool.false_ne_true] at result least most
      cases result
      simpa using sub_lt_sub_of_moved least most 0
    · rw [relocatable, if_pos rfl] at result least most
      cases result
      have moved := sub_lt_sub_of_moved least most dso.startToRefDist
      rwa [sub_add_cancel] at moved
  · cases found

end Lookup

end HpcToolkit.Fnbounds
