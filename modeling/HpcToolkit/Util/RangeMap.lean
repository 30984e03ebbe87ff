import HpcToolkit.Lib.MergeAll

/-! # Maps with lookups by range

`range_map` appends what is inserted to a deque that it sorts and merges later. As long as every key is greater than the
last one, or equal to it, nothing is left to do; otherwise `make_consistent` sorts the elements and merges neighbours
with equal keys in place. `std::sort` is not stable, so the values of a key can be merged in any order.
-/

open List hiding getElem?_eq_some_iff

namespace HpcToolkit.Util

open Lib

variable {K V : Type} [LinearOrder K]

/-- `std::sort` by the keys. -/
structure SortByKey (K V : Type) [LinearOrder K] where
  sort : List (K × V) → List (K × V)
  perm : ∀ l, (sort l).Perm l
  sorted : ∀ l, (sort l).Pairwise fun a b => a.1 ≤ b.1

structure RangeMap (K V : Type) where
  ranges : List (K × V) := []
  consistent : Bool := true

section Squeeze

variable (merge : V → V → V)

/-- The loop of `make_consistent` over the `n` elements that are left from `cur` on; yields `m_ranges` and `result`. -/
def squeeze : (n : ℕ) → List (K × V) → (result cur : ℕ) → List (K × V) × ℕ
  | 0, ranges, result, _ => (ranges, result)
  | n + 1, ranges, result, cur =>
    match ranges[result]?, ranges[cur]? with
    | some r, some c =>
      if ¬ r.1 < c.1 then squeeze n (ranges.set result (r.1, merge r.2 c.2)) result (cur + 1)
      else if result + 1 ≠ cur then squeeze n (ranges.set (result + 1) c) (result + 1) (cur + 1)
      else squeeze n ranges (result + 1) (cur + 1)
    | _, _ => (ranges, result)

/-- What the loop leaves of an element and those behind it. -/
def compact (r : K × V) : List (K × V) → List (K × V)
  | [] => [r]
  | c :: rest => if ¬ r.1 < c.1 then compact (r.1, merge r.2 c.2) rest else r :: compact c rest

lemma squeeze_eq_compact (rest finished junk : List (K × V)) (r : K × V) :
    let (ranges, result) := squeeze merge rest.length (finished ++ r :: junk ++ rest) finished.length
      (finished.length + 1 + junk.length)
    ranges.take (result + 1) = finished ++ compact merge r rest := by
  induction rest generalizing finished junk r with
  | nil => simp [squeeze, compact, take_append]
  | cons c rest ih =>
    have at_result : (finished ++ r :: junk ++ c :: rest)[finished.length]? = some r := by simp
    have at_cur : (finished ++ r :: junk ++ c :: rest)[finished.length + 1 + junk.length]? = some c := by
      rw [getElem?_append_right (by simp; omega)]
      simp [show finished.length + 1 + junk.length - (finished.length + (junk.length + 1)) = 0 by omega]
    simp only [length_cons, squeeze, at_result, at_cur, compact]
    by_cases less : r.1 < c.1
    · simp only [less, not_true_eq_false, if_false]
      cases junk with
      | nil =>
        have next := ih (finished ++ [r]) [] c
        simpa [append_assoc] using next
      | cons j junk =>
        have moved : (finished ++ r :: j :: junk ++ c :: rest).set (finished.length + 1) c =
            (finished ++ [r]) ++ c :: (junk ++ [c]) ++ rest := by simp
        have next := ih (finished ++ [r]) (junk ++ [c]) c
        rw [if_pos (by simp), moved]
        simp only [length_append, length_cons, length_nil, zero_add] at next ⊢
        rw [show finished.length + 1 + (junk.length + 1) + 1 = finished.length + 1 + 1 + (junk.length + 1) by omega]
        rw [next, append_assoc, singleton_append]
    · simp only [less, not_false_eq_true, if_true]
      have merged : (finished ++ r :: junk ++ c :: rest).set finished.length (r.1, merge r.2 c.2) =
          finished ++ (r.1, merge r.2 c.2) :: (junk ++ [c]) ++ rest := by simp
      have next := ih finished (junk ++ [c]) (r.1, merge r.2 c.2)
      rw [merged,
        show finished.length + 1 + junk.length + 1 = finished.length + 1 + (junk ++ [c]).length by simp; omega]
      exact next

end Squeeze

namespace RangeMap

variable (merge : V → V → V) (std : SortByKey K V)

def makeConsistent (m : RangeMap K V) : RangeMap K V :=
  if m.consistent then m
  else
    let ranges := std.sort m.ranges
    let (ranges, result) := squeeze merge (ranges.length - 1) ranges 0 1
    { ranges := ranges.take (result + 1), consistent := true }

def insert (m : RangeMap K V) (key : K) (value : V) : RangeMap K V :=
  match m.consistent, m.ranges.getLast? with
  | true, some back =>
    if key < back.1 then { ranges := m.ranges ++ [(key, value)], consistent := false }
    else if ¬ back.1 < key then { m with ranges := m.ranges.dropLast ++ [(back.1, merge back.2 value)] }
    else { m with ranges := m.ranges ++ [(key, value)] }
  | _, _ => { m with ranges := m.ranges ++ [(key, value)] }

/-- `emplace` appends the element before it compares the keys; what it appended is removed again after a merge. -/
def emplace (m : RangeMap K V) (key : K) (value : V) : RangeMap K V :=
  match m.ranges.getLast? with
  | none => { m with ranges := m.ranges ++ [(key, value)] }
  | some last =>
    let ranges := m.ranges ++ [(key, value)]
    if m.consistent = false then { m with ranges := ranges }
    else if key < last.1 then { ranges := ranges, consistent := false }
    else if ¬ last.1 < key then
      { m with ranges := (ranges.set (m.ranges.length - 1) (last.1, merge last.2 value)).dropLast }
    else { m with ranges := ranges }

/-- `std::lower_bound` on the sorted elements. -/
def lowerBound (m : RangeMap K V) (key : K) : ℕ := m.ranges.findIdx fun e => ¬ e.1 < key

/-- The `find` of a constant map. -/
def lookup (m : RangeMap K V) (key : K) : Option (K × V) :=
  let it := m.lowerBound key
  match m.ranges[it]? with
  | some e =>
    if ¬ e.1 < key ∧ ¬ key < e.1 then some e
    else if it = 0 then none else m.ranges[it - 1]?
  | none => if it = 0 then none else m.ranges[it - 1]?

/-- `find` makes the map consistent first. -/
def find (m : RangeMap K V) (key : K) : RangeMap K V × Option (K × V) :=
  let m := m.makeConsistent merge std
  (m, m.lookup key)

end RangeMap

/-- What is inserted under a key, in order. -/
def valuesUnder (key : K) (l : List (K × V)) : List V := (l.filter (·.1 = key)).map (·.2)

@[simp] lemma valuesUnder_append (key : K) (l l' : List (K × V)) :
    valuesUnder key (l ++ l') = valuesUnder key l ++ valuesUnder key l' := by
  simp [valuesUnder]

variable {key : K} {e : K × V}

lemma valuesUnder_cons_self (same : e.1 = key) (l : List (K × V)) :
    valuesUnder key (e :: l) = e.2 :: valuesUnder key l := by
  simp [valuesUnder, same]

lemma valuesUnder_cons_ne (other : e.1 ≠ key) (l : List (K × V)) :
    valuesUnder key (e :: l) = valuesUnder key l := by
  simp [valuesUnder, other]

lemma mem_valuesUnder {l : List (K × V)} {v : V} : v ∈ valuesUnder key l ↔ (key, v) ∈ l := by
  simp [valuesUnder]

variable {l l' : List (K × V)}

lemma valuesUnder_perm (key : K) (same : l.Perm l') :
    (valuesUnder key l).Perm (valuesUnder key l') :=
  (same.filter _).map _

lemma valuesUnder_of_mem {l : List (K × V)} (sorted : l.Pairwise fun a b => a.1 < b.1) {v : V}
    (member : (key, v) ∈ l) : valuesUnder key l = [v] := by
  induction l with
  | nil => exact absurd member not_mem_nil
  | cons e l ih =>
    obtain ⟨first, sorted⟩ := pairwise_cons.mp sorted
    rcases mem_cons.mp member with rfl | later
    · have others : ∀ e ∈ l, ¬ e.1 = key := fun e member => (first e member).ne'
      simpa [valuesUnder] using others
    · rw [valuesUnder_cons_ne (first _ later).ne, ih sorted later]

section Merging

variable {merge : V → V → V} [Std.Associative merge]

lemma mergeAll_compact (rest : List (K × V)) (r : K × V) (sorted : (r :: rest).Pairwise fun a b => a.1 ≤ b.1)
    (key : K) :
    mergeAll merge (valuesUnder key (compact merge r rest)) = mergeAll merge (valuesUnder key (r :: rest)) := by
  induction rest generalizing r with
  | nil => rfl
  | cons c rest ih =>
    obtain ⟨first, later⟩ := pairwise_cons.mp sorted
    rw [compact]
    split
    · rename_i notLess
      have same : r.1 = c.1 := (first c mem_cons_self).antisymm (not_lt.mp notLess)
      rw [ih (r.1, merge r.2 c.2) (by rw [same]; exact pairwise_cons.mpr (pairwise_cons.mp later))]
      by_cases here : r.1 = key
      · rw [valuesUnder_cons_self (e := (r.1, merge r.2 c.2)) here, valuesUnder_cons_self here,
          valuesUnder_cons_self (same ▸ here), mergeAll_cons, mergeAll_cons, mergeAll_cons,
          ← Lib.merge_assoc, Option.merge_some_some]
      · rw [valuesUnder_cons_ne (e := (r.1, merge r.2 c.2)) here, valuesUnder_cons_ne here,
          valuesUnder_cons_ne (same ▸ here)]
    · have rest_same := ih c later
      by_cases here : r.1 = key
      · rw [valuesUnder_cons_self here, valuesUnder_cons_self here, mergeAll_cons, mergeAll_cons, rest_same]
      · rw [valuesUnder_cons_ne here, valuesUnder_cons_ne here, rest_same]

omit [Std.Associative merge] in
lemma le_of_mem_compact (rest : List (K × V)) (r e : K × V) (sorted : (r :: rest).Pairwise fun a b => a.1 ≤ b.1)
    (member : e ∈ compact merge r rest) : r.1 ≤ e.1 := by
  induction rest generalizing r with
  | nil => rw [mem_singleton.mp member]
  | cons c rest ih =>
    obtain ⟨first, later⟩ := pairwise_cons.mp sorted
    rw [compact] at member
    split at member
    · exact ih (r.1, merge r.2 c.2)
        (pairwise_cons.mpr ⟨fun e member => first e (mem_cons_of_mem c member), later.of_cons⟩) member
    · rcases mem_cons.mp member with rfl | member
      · exact le_rfl
      · exact (first c mem_cons_self).trans (ih c later member)

omit [Std.Associative merge] in
lemma compact_sorted (rest : List (K × V)) (r : K × V) (sorted : (r :: rest).Pairwise fun a b => a.1 ≤ b.1) :
    (compact merge r rest).Pairwise fun a b => a.1 < b.1 := by
  induction rest generalizing r with
  | nil => exact pairwise_singleton _ _
  | cons c rest ih =>
    obtain ⟨first, later⟩ := pairwise_cons.mp sorted
    rw [compact]
    split
    · exact ih (r.1, merge r.2 c.2)
        (pairwise_cons.mpr ⟨fun e member => first e (mem_cons_of_mem c member), later.of_cons⟩)
    · rename_i less
      refine pairwise_cons.mpr ⟨fun e member => ?_, ih c later⟩
      exact (not_not.mp less).trans_le (le_of_mem_compact rest c e later member)

end Merging

namespace RangeMap

variable {merge : V → V → V} {std : SortByKey K V}

/-- The map holds what has been inserted: under every key the merge of its values, and no key twice once it is
consistent. -/
structure Holds (merge : V → V → V) (m : RangeMap K V) (inserted : List (K × V)) : Prop where
  merged : ∀ key, mergeAll merge (valuesUnder key m.ranges) = mergeAll merge (valuesUnder key inserted)
  sorted : m.consistent → m.ranges.Pairwise fun a b => a.1 < b.1

lemma makeConsistent_consistent (m : RangeMap K V) : (m.makeConsistent merge std).consistent = true := by
  rw [makeConsistent]
  split
  · assumption
  · rfl

section Operations

variable [Std.Associative merge] [Std.Commutative merge] {m : RangeMap K V} {inserted : List (K × V)}

lemma Holds.makeConsistent (holds : Holds merge m inserted) : Holds merge (m.makeConsistent merge std) inserted := by
  rw [RangeMap.makeConsistent]
  split
  · exact holds
  · have perm := std.perm m.ranges
    have sorted := std.sorted m.ranges
    have values : ∀ key,
        mergeAll merge (valuesUnder key (std.sort m.ranges)) = mergeAll merge (valuesUnder key inserted) :=
      fun key => (mergeAll_perm (valuesUnder_perm key perm)).trans (holds.merged key)
    cases ordered : std.sort m.ranges with
    | nil =>
      rw [ordered] at values
      exact ⟨values, fun _ => List.Pairwise.nil⟩
    | cons r rest =>
      rw [ordered] at values sorted
      have loop := squeeze_eq_compact merge rest [] [] r
      simp only [nil_append, singleton_append, length_nil, zero_add, Nat.add_zero] at loop
      simp only [length_cons, Nat.add_sub_cancel, loop]
      exact ⟨fun key => (mergeAll_compact rest r sorted key).trans (values key), fun _ => compact_sorted rest r sorted⟩

variable {value : V}

omit [Std.Commutative merge] in
lemma Holds.push (holds : Holds merge m inserted) {consistent : Bool}
    (sorted : consistent → (m.ranges ++ [(key, value)]).Pairwise fun a b => a.1 < b.1) :
    Holds merge { ranges := m.ranges ++ [(key, value)], consistent := consistent } (inserted ++ [(key, value)]) := by
  refine ⟨fun k => ?_, sorted⟩
  rw [valuesUnder_append, valuesUnder_append, mergeAll_append, mergeAll_append, holds.merged]

variable {back : K × V}

omit [Std.Commutative merge] in
lemma Holds.mergeLast (holds : Holds merge m inserted) {front : List (K × V)}
    (last : m.ranges = front ++ [back]) (value : V) :
    Holds merge { m with ranges := front ++ [(back.1, merge back.2 value)] } (inserted ++ [(back.1, value)]) := by
  refine ⟨fun k => ?_, fun consistent => ?_⟩
  · have before := holds.merged k
    rw [last, valuesUnder_append, mergeAll_append] at before
    rw [valuesUnder_append, valuesUnder_append, mergeAll_append, mergeAll_append, ← before,
      Lib.merge_assoc]
    by_cases here : back.1 = k
    · simp [valuesUnder, here]
    · simp [valuesUnder, here]
  · have sorted := holds.sorted consistent
    rw [last, pairwise_append] at sorted
    exact pairwise_append.mpr ⟨sorted.1, pairwise_singleton _ _, fun a member b inside => by
      rw [mem_singleton.mp inside]
      exact sorted.2.2 a member back (mem_singleton_self back)⟩

omit [Std.Associative merge] [Std.Commutative merge] in
lemma Holds.pushed_sorted (holds : Holds merge m inserted)
    (last : m.ranges.getLast? = some back) (less : back.1 < key) (consistent : m.consistent) :
    (m.ranges ++ [(key, value)]).Pairwise fun a b => a.1 < b.1 := by
  have sorted := holds.sorted consistent
  refine pairwise_append.mpr ⟨sorted, pairwise_singleton _ _, fun a member b inside => ?_⟩
  rw [mem_singleton.mp inside]
  obtain ⟨front, shape⟩ := getLast?_eq_some_iff.mp last
  rw [shape] at member sorted
  rcases mem_append.mp member with early | final
  · exact ((pairwise_append.mp sorted).2.2 a early back (mem_singleton_self back)).trans less
  · rw [mem_singleton.mp final]
    exact less

omit [Std.Commutative merge] in
lemma Holds.insert (holds : Holds merge m inserted) (key : K) (value : V) :
    Holds merge (m.insert merge key value) (inserted ++ [(key, value)]) := by
  rw [RangeMap.insert]
  split
  · rename_i back consistent last
    split_ifs with less greater
    · exact holds.push nofun
    · exact holds.push fun _ => holds.pushed_sorted last greater consistent
    · obtain ⟨front, shape⟩ := getLast?_eq_some_iff.mp last
      have same : back.1 = key := (not_lt.mp less).antisymm (not_lt.mp greater)
      rw [shape, dropLast_concat, ← same]
      exact holds.mergeLast shape value
  · rename_i other
    refine holds.push fun consistent => ?_
    cases last : m.ranges.getLast? with
    | some back => exact absurd last (other back consistent)
    | none =>
      rw [getLast?_eq_none_iff.mp last]
      exact pairwise_singleton _ _

omit [Std.Associative merge] [Std.Commutative merge] in
lemma emplace_eq_insert (key : K) (value : V) : m.emplace merge key value = m.insert merge key value := by
  rw [emplace, RangeMap.insert]
  cases last : m.ranges.getLast? with
  | none => cases m.consistent <;> rfl
  | some back =>
    obtain ⟨front, shape⟩ := getLast?_eq_some_iff.mp last
    cases consistent : m.consistent with
    | false => rfl
    | true => simp [shape]

end Operations

section Lookups

variable {m : RangeMap K V} {q : K}

/-- The entry with the greatest key that is not above `q`. -/
def IsFloor (ranges : List (K × V)) (q : K) : Option (K × V) → Prop
  | some e => e ∈ ranges ∧ e.1 ≤ q ∧ ∀ other ∈ ranges, other.1 ≤ q → other.1 ≤ e.1
  | none => ∀ other ∈ ranges, q < other.1

lemma le_of_sorted (sorted : m.ranges.Pairwise fun a b => a.1 < b.1) {i j : ℕ} (order : i ≤ j)
    {a b : K × V} (first : m.ranges[i]? = some a) (second : m.ranges[j]? = some b) : a.1 ≤ b.1 := by
  obtain ⟨inside, rfl⟩ := List.getElem?_eq_some_iff.mp first
  obtain ⟨inside', rfl⟩ := getElem?_eq_some_iff.mp second
  rcases order.eq_or_lt with rfl | less
  · exact le_rfl
  · exact (pairwise_iff_getElem.mp sorted i j inside inside' less).le

lemma lt_of_lt_lowerBound {i : ℕ} (before : i < m.lowerBound q) (here : m.ranges[i]? = some e) :
    e.1 < q := by
  obtain ⟨inside, rfl⟩ := List.getElem?_eq_some_iff.mp here
  simpa using not_of_lt_findIdx before

section
variable (sorted : m.ranges.Pairwise fun a b => a.1 < b.1)
include sorted

lemma le_of_lowerBound_le {i : ℕ}
    (behind : m.lowerBound q ≤ i) (here : m.ranges[i]? = some e) : q ≤ e.1 := by
  have inside : m.lowerBound q < m.ranges.length := behind.trans_lt (List.getElem?_eq_some_iff.mp here).1
  have found : q ≤ (m.ranges[m.lowerBound q]).1 := by
    have bound : (m.ranges.findIdx fun e => ¬ e.1 < q) < m.ranges.length := inside
    exact not_lt.mp (of_decide_eq_true (findIdx_getElem (w := bound)))
  exact found.trans (le_of_sorted sorted behind (getElem?_eq_getElem inside) here)

lemma isFloor_before
    (above : ∀ i e, m.lowerBound q ≤ i → m.ranges[i]? = some e → q < e.1) :
    IsFloor m.ranges q (if m.lowerBound q = 0 then none else m.ranges[m.lowerBound q - 1]?) := by
  by_cases first : m.lowerBound q = 0
  · rw [if_pos first]
    intro other member
    obtain ⟨i, here⟩ := mem_iff_getElem?.mp member
    exact above i other (first ▸ Nat.zero_le i) here
  · have inside : m.lowerBound q - 1 < m.ranges.length := by
      have bound : m.lowerBound q ≤ m.ranges.length := findIdx_le_length
      omega
    rw [if_neg first, getElem?_eq_getElem inside]
    have here := getElem?_eq_getElem inside
    refine ⟨getElem_mem inside, (lt_of_lt_lowerBound (by omega) here).le, fun other member le => ?_⟩
    obtain ⟨i, there⟩ := mem_iff_getElem?.mp member
    rcases Nat.lt_or_ge i (m.lowerBound q) with before | behind
    · exact le_of_sorted sorted (by omega) there here
    · exact absurd (above i other behind there) (not_lt.mpr le)

lemma lookup_isFloor : IsFloor m.ranges q (m.lookup q) := by
  rw [lookup]
  cases found : m.ranges[m.lowerBound q]? with
  | none =>
    refine isFloor_before sorted fun i e behind here => ?_
    rw [getElem?_eq_none_iff] at found
    have inside := (List.getElem?_eq_some_iff.mp here).1
    omega
  | some e =>
    have least := le_of_lowerBound_le sorted le_rfl found
    by_cases same : e.1 = q
    · simp only [same, lt_irrefl, not_false_eq_true, and_self, if_true]
      exact ⟨mem_of_getElem? found, same.le, fun other _ le => le.trans same.ge⟩
    · have above := lt_of_le_of_ne least (Ne.symm same)
      simp only [above, not_true_eq_false, and_false, if_false]
      exact isFloor_before sorted fun i other behind here => above.trans_le (le_of_sorted sorted behind found here)

end

end Lookups

section Runs

/-- What a client does with a map before it is read. -/
inductive Operation (K V : Type) where
  | insert (key : K) (value : V)
  | emplace (key : K) (value : V)
  | find (key : K)

/-- The pair that an operation inserts. -/
def Operation.inserts : Operation K V → List (K × V)
  | .insert key value => [(key, value)]
  | .emplace key value => [(key, value)]
  | .find _ => []

def inserted (operations : List (Operation K V)) : List (K × V) := operations.flatMap Operation.inserts

variable (merge std) in
def run (m : RangeMap K V) : Operation K V → RangeMap K V
  | .insert key value => m.insert merge key value
  | .emplace key value => m.emplace merge key value
  | .find key => (m.find merge std key).1

variable (merge std) in
def runs (operations : List (Operation K V)) : RangeMap K V := operations.foldl (run merge std) {}

variable [Std.Associative merge] [Std.Commutative merge]

lemma Holds.run {m : RangeMap K V} {before : List (K × V)} (holds : Holds merge m before)
    (operation : Operation K V) :
    Holds merge (m.run merge std operation) (before ++ operation.inserts) := by
  cases operation with
  | insert key value => exact holds.insert key value
  | emplace key value =>
    rw [RangeMap.run, emplace_eq_insert]
    exact holds.insert key value
  | find key =>
    rw [Operation.inserts, append_nil]
    exact holds.makeConsistent

lemma holds_runs (operations : List (Operation K V)) :
    Holds merge (runs merge std operations) (inserted operations) := by
  have later : ∀ (operations : List (Operation K V)) (m : RangeMap K V) (before : List (K × V)), Holds merge m before →
      Holds merge (operations.foldl (RangeMap.run merge std) m) (before ++ inserted operations) := by
    intro operations
    induction operations with
    | nil =>
      intro m before holds
      rw [inserted, flatMap_nil, append_nil]
      exact holds
    | cons operation operations ih =>
      intro m before holds
      rw [foldl_cons, inserted, flatMap_cons, ← append_assoc]
      exact ih _ _ (holds.run operation)
  exact later operations {} [] ⟨fun _ => rfl, fun _ => List.Pairwise.nil⟩

omit [Std.Associative merge] [Std.Commutative merge] in
lemma Holds.mem_iff {m : RangeMap K V} {inserted : List (K × V)} (holds : Holds merge m inserted)
    (consistent : m.consistent) (key : K) (v : V) :
    (key, v) ∈ m.ranges ↔ mergeAll merge (valuesUnder key inserted) = some v := by
  rw [← holds.merged]
  constructor
  · intro member
    rw [valuesUnder_of_mem (holds.sorted consistent) member, mergeAll_singleton]
  · intro merged
    have some_value : valuesUnder key m.ranges ≠ [] := by
      rw [← mergeAll_isSome_iff merge, merged]
      rfl
    obtain ⟨w, member⟩ := exists_mem_of_ne_nil _ some_value
    rw [mem_valuesUnder] at member
    rw [valuesUnder_of_mem (holds.sorted consistent) member, mergeAll_singleton] at merged
    rw [← Option.some.inj merged]
    exact member

lemma eq_of_sorted (sorted : l.Pairwise fun a b => a.1 < b.1)
    (sorted' : l'.Pairwise fun a b => a.1 < b.1) (same : ∀ e, e ∈ l ↔ e ∈ l') : l = l' := by
  have irreflexive : ∀ {l : List (K × V)}, l.Pairwise (fun a b => a.1 < b.1) → l.Nodup := fun sorted =>
    sorted.imp fun less => by
      rintro rfl
      exact lt_irrefl _ less
  have perm := (perm_ext_iff_of_nodup (irreflexive sorted) (irreflexive sorted')).mpr same
  exact perm.eq_of_pairwise (fun a b _ _ first second => absurd (first.trans second) (lt_irrefl _)) sorted sorted'

/-- Whatever the order of the operations, the lookups in between and the order in which `std::sort` leaves equal keys.
-/
theorem order_independent (merge : V → V → V) [Std.Associative merge] [Std.Commutative merge] [Std.IdempotentOp merge]
    (std : SortByKey K V) (operations : List (Operation K V)) :
    let m := (runs merge std operations).makeConsistent merge std
    m.ranges.Pairwise (fun a b => a.1 < b.1) ∧
    (∀ key v, (key, v) ∈ m.ranges ↔ mergeAll merge (valuesUnder key (inserted operations)) = some v) ∧
    (∀ (std' : SortByKey K V) (operations' : List (Operation K V)),
      (∀ e, e ∈ inserted operations' ↔ e ∈ inserted operations) →
      ((runs merge std' operations').makeConsistent merge std').ranges = m.ranges) ∧
    ∀ q, IsFloor m.ranges q ((runs merge std operations).find merge std q).2 := by
  have holds : ∀ (std : SortByKey K V) (operations : List (Operation K V)),
      Holds merge ((runs merge std operations).makeConsistent merge std) (inserted operations) :=
    fun std operations => (holds_runs operations).makeConsistent
  have sorted : ∀ (std : SortByKey K V) (operations : List (Operation K V)),
      ((runs merge std operations).makeConsistent merge std).ranges.Pairwise fun a b => a.1 < b.1 :=
    fun std operations => (holds std operations).sorted (makeConsistent_consistent _)
  have members : ∀ (std : SortByKey K V) (operations : List (Operation K V)) key v,
      (key, v) ∈ ((runs merge std operations).makeConsistent merge std).ranges ↔
        mergeAll merge (valuesUnder key (inserted operations)) = some v :=
    fun std operations => (holds std operations).mem_iff (makeConsistent_consistent _)
  refine ⟨sorted std operations, members std operations, fun std' operations' same => ?_, fun q => ?_⟩
  · apply eq_of_sorted (sorted std' operations') (sorted std operations)
    rintro ⟨key, v⟩
    have values : ∀ v, v ∈ valuesUnder key (inserted operations') ↔ v ∈ valuesUnder key (inserted operations) := by
      intro v
      rw [mem_valuesUnder, mem_valuesUnder]
      exact same (key, v)
    rw [members std' operations', members std operations, mergeAll_congr values]
  · exact lookup_isFloor (sorted std operations)

/-- A stable sort is one of those allowed. -/
def insertionSortByKey (K V : Type) [LinearOrder K] : SortByKey K V where
  sort l := l.insertionSort fun a b => a.1 ≤ b.1
  perm l := perm_insertionSort _ l
  sorted l :=
    have _total : Std.Total fun a b : K × V => a.1 ≤ b.1 := ⟨fun a b => le_total a.1 b.1⟩
    have _trans : IsTrans (K × V) fun a b => a.1 ≤ b.1 := ⟨fun _ _ _ => le_trans⟩
    pairwise_insertionSort _ l

/-- A sequence with equal keys, keys out of order and a lookup in between. -/
def mixedOperations : List (Operation ℕ ℕ) := [.insert 3 5, .emplace 1 2, .find 4, .insert 3 7, .insert 0 1]

theorem maxima_order_independent :
    ((runs max (insertionSortByKey ℕ ℕ) mixedOperations).makeConsistent max (insertionSortByKey ℕ ℕ)).ranges =
      [(0, 1), (1, 2), (3, 7)] ∧
    ((runs max (insertionSortByKey ℕ ℕ) mixedOperations).makeConsistent max (insertionSortByKey ℕ ℕ)).ranges.Pairwise
      (fun a b => a.1 < b.1) :=
  ⟨by decide, (order_independent max (insertionSortByKey ℕ ℕ) mixedOperations).1⟩

end Runs

end RangeMap

end HpcToolkit.Util
