import Mathlib

/-! # Half-open intervals as keys of a map

`interval` is ordered by position: one that overlaps another is neither less nor greater. A `std::map` with such keys
finds by an address the interval around it, as long as its keys are disjoint and not empty.
-/

open List

namespace HpcToolkit.Util

structure Interval (T : Type) where
  start : T
  stop : T
deriving DecidableEq

namespace Interval

variable {T : Type} [LinearOrder T]

/-- The constructor from two values. -/
def of (a b : T) : Interval T := ⟨min a b, max a b⟩

def empty (a : Interval T) : Bool := ¬ a.start < a.stop ∧ ¬ a.stop < a.start

/-- `operator<` -/
def less (a b : Interval T) : Bool := ¬ b.start < a.stop ∧ a.start < b.start

/-- `operator-`: what is left of the first interval in front of the second one and behind it. -/
def sub (a b : Interval T) : Interval T × Interval T :=
  if a.less b then (a, of a.stop a.stop)
  else if b.less a then (of a.start a.start, a)
  else (of (min a.start b.start) b.start, of b.stop (max a.stop b.stop))

def Contains (a : Interval T) (x : T) : Prop := a.start ≤ x ∧ x < a.stop

instance (a : Interval T) (x : T) : Decidable (a.Contains x) := inferInstanceAs (Decidable (_ ∧ _))

variable {a b : Interval T}

lemma less_iff : a.less b ↔ a.stop ≤ b.start ∧ a.start < b.start := by simp [less]

lemma empty_iff {a : Interval T} : a.empty ↔ a.start = a.stop := by
  rw [empty, decide_eq_true_iff, not_lt, not_lt]
  exact ⟨fun both => both.2.antisymm both.1, fun same => ⟨same.ge, same.le⟩⟩

lemma less_iff_of_nonempty (nonempty : a.start < a.stop) : a.less b ↔ a.stop ≤ b.start :=
  less_iff.trans ⟨And.left, fun order => ⟨order, nonempty.trans_le order⟩⟩

lemma not_less_point {a : Interval T} (nonempty : a.start < a.stop) (x : T) :
    (a.less (of x x) = false ∧ (of x x).less a = false) ↔ a.Contains x := by
  rw [Bool.eq_false_iff, Bool.eq_false_iff, ne_eq, ne_eq, less_iff_of_nonempty nonempty, less_iff]
  simp only [of, min_self, max_self, not_le, not_and, not_lt, Contains]
  constructor
  · rintro ⟨below, above⟩
    exact ⟨le_of_not_gt fun less => absurd less (not_lt.mpr (above less.le)), below⟩
  · rintro ⟨least, below⟩
    exact ⟨below, fun _ => least⟩

end Interval

/-- A `std::map` from intervals, in the order of its elements. -/
abbrev IntervalMap (T V : Type) := List (Interval T × V)

namespace IntervalMap

variable {T V : Type} [LinearOrder T]

/-- The elements from the lower bound of the key on. -/
def fromLowerBound (m : IntervalMap T V) (key : Interval T) : IntervalMap T V := m.dropWhile (·.1.less key)

/-- `equal_range`: from the lower bound to the upper bound. -/
def equalRange (m : IntervalMap T V) (key : Interval T) : IntervalMap T V :=
  (m.fromLowerBound key).takeWhile fun e => ¬ key.less e.1

/-- `try_emplace`; the flag tells that the key is new. -/
def tryEmplace (m : IntervalMap T V) (key : Interval T) (value : V) : IntervalMap T V × Bool :=
  match m.fromLowerBound key with
  | [] => (m ++ [(key, value)], true)
  | e :: later =>
    if key.less e.1 then (m.takeWhile (·.1.less key) ++ (key, value) :: e :: later, true)
    else (m, false)

def find (m : IntervalMap T V) (key : Interval T) : Option (Interval T × V) :=
  match m.fromLowerBound key with
  | [] => none
  | e :: _ => if key.less e.1 then none else some e

/-- No key is empty, and each ends before the next one starts. -/
structure Ordered (m : IntervalMap T V) : Prop where
  nonempty : ∀ e ∈ m, e.1.start < e.1.stop
  apart : m.Pairwise fun a b => a.1.stop ≤ b.1.start

variable {m : IntervalMap T V} {key : Interval T} {value : V}

variable {e : Interval T × V}

lemma mem_fromLowerBound (ordered : Ordered m) :
    e ∈ m.fromLowerBound key ↔ e ∈ m ∧ e.1.less key = false := by
  induction m with
  | nil => simp [fromLowerBound]
  | cons first m ih =>
    have first_nonempty := ordered.nonempty first mem_cons_self
    obtain ⟨apart, later⟩ := pairwise_cons.mp ordered.apart
    have nonempty : ∀ e ∈ m, e.1.start < e.1.stop := fun e member => ordered.nonempty e (mem_cons_of_mem _ member)
    rw [fromLowerBound, dropWhile_cons]
    cases less : first.1.less key with
    | true =>
      rw [if_pos rfl, ← fromLowerBound, ih ⟨nonempty, later⟩, mem_cons]
      refine ⟨fun ⟨member, notLess⟩ => ⟨.inr member, notLess⟩, fun ⟨member, notLess⟩ => ⟨?_, notLess⟩⟩
      rcases member with rfl | member
      · exact absurd less (by rw [notLess]; exact Bool.false_ne_true)
      · exact member
    | false =>
      rw [if_neg Bool.false_ne_true]
      refine ⟨fun member => ⟨member, ?_⟩, And.left⟩
      rcases mem_cons.mp member with rfl | member
      · exact less
      · rw [Bool.eq_false_iff, ne_eq, Interval.less_iff_of_nonempty first_nonempty] at less
        rw [Bool.eq_false_iff, ne_eq, Interval.less_iff_of_nonempty (nonempty e member)]
        exact fun order => less ((apart e member).trans ((nonempty e member).le.trans order))

lemma Ordered.sublist {l : IntervalMap T V} (ordered : Ordered m) (within : l.Sublist m) : Ordered l :=
  ⟨fun e member => ordered.nonempty e (within.subset member), ordered.apart.sublist within⟩

lemma mem_takeWhile_not_less (ordered : Ordered m) :
    e ∈ m.takeWhile (fun e => ¬ key.less e.1) ↔ e ∈ m ∧ key.less e.1 = false := by
  induction m with
  | nil => simp
  | cons first m ih =>
    have first_nonempty := ordered.nonempty first mem_cons_self
    obtain ⟨apart, later⟩ := pairwise_cons.mp ordered.apart
    rw [takeWhile_cons]
    cases less : key.less first.1 with
    | true =>
      rw [if_neg (by simp)]
      refine iff_of_false not_mem_nil ?_
      rintro ⟨member, notLess⟩
      rcases mem_cons.mp member with rfl | member
      · rw [less] at notLess
        cases notLess
      · obtain ⟨before, start_before⟩ := Interval.less_iff.mp less
        have order := first_nonempty.le.trans (apart e member)
        rw [Bool.eq_false_iff, ne_eq, Interval.less_iff] at notLess
        exact notLess ⟨before.trans order, start_before.trans_le order⟩
    | false =>
      rw [if_pos (by simp), mem_cons, mem_cons, ih (ordered.sublist (sublist_cons_self first m))]
      constructor
      · rintro (rfl | ⟨member, notLess⟩)
        · exact ⟨.inl rfl, less⟩
        · exact ⟨.inr member, notLess⟩
      · rintro ⟨rfl | member, notLess⟩
        · exact .inl rfl
        · exact .inr ⟨member, notLess⟩

lemma mem_equalRange (ordered : Ordered m) :
    e ∈ m.equalRange key ↔ e ∈ m ∧ e.1.less key = false ∧ key.less e.1 = false := by
  have lower : Ordered (m.fromLowerBound key) := ordered.sublist (dropWhile_sublist _)
  rw [equalRange, mem_takeWhile_not_less lower, mem_fromLowerBound ordered, and_assoc]

lemma equalRange_sublist : (m.equalRange key).Sublist m :=
  (takeWhile_sublist _).trans (dropWhile_sublist _)

lemma tryEmplace_spec (ordered : Ordered m) (nonempty : key.start < key.stop)
    (disjoint : ∀ e ∈ m, key.stop ≤ e.1.start ∨ e.1.stop ≤ key.start) :
    Ordered (m.tryEmplace key value).1 ∧ (m.tryEmplace key value).2 = true ∧
      ∀ e, e ∈ (m.tryEmplace key value).1 ↔ e = (key, value) ∨ e ∈ m := by
  have parts : m.takeWhile (·.1.less key) ++ m.fromLowerBound key = m := takeWhile_append_dropWhile
  have behind : ∀ e ∈ m.fromLowerBound key, key.stop ≤ e.1.start := by
    intro e member
    obtain ⟨member, notLess⟩ := (mem_fromLowerBound ordered).mp member
    rw [Bool.eq_false_iff, ne_eq, Interval.less_iff_of_nonempty (ordered.nonempty e member)] at notLess
    exact (disjoint e member).resolve_right notLess
  have front : ∀ e ∈ m.takeWhile (·.1.less key), e.1.stop ≤ key.start := by
    intro e member
    have less := mem_takeWhile_imp (p := fun e : Interval T × V => e.1.less key) member
    exact (Interval.less_iff.mp less).1
  have result : m.tryEmplace key value =
      (m.takeWhile (·.1.less key) ++ (key, value) :: m.fromLowerBound key, true) := by
    rw [tryEmplace]
    cases lower : m.fromLowerBound key with
    | nil =>
      rw [lower, append_nil] at parts
      rw [parts]
    | cons e later =>
      have order : key.stop ≤ e.1.start := behind e (by rw [lower]; exact mem_cons_self)
      exact if_pos ((Interval.less_iff_of_nonempty nonempty).mpr order)
  rw [result]
  refine ⟨⟨?_, ?_⟩, rfl, ?_⟩
  · intro e member
    rcases mem_append.mp member with member | member
    · exact ordered.nonempty e ((takeWhile_sublist _).subset member)
    · rcases mem_cons.mp member with rfl | member
      · exact nonempty
      · exact ordered.nonempty e ((dropWhile_sublist _).subset member)
  · have apart := ordered.apart
    rw [← parts, pairwise_append] at apart
    obtain ⟨low, high, across⟩ := apart
    refine pairwise_append.mpr ⟨low, pairwise_cons.mpr ⟨behind, high⟩, fun a member b inside => ?_⟩
    rcases mem_cons.mp inside with rfl | inside
    · exact front a member
    · exact across a member b inside
  · intro e
    nth_rewrite 3 [← parts]
    rw [mem_append, mem_cons, mem_append]
    tauto

variable {x : T}

lemma find_eq_some_iff (ordered : Ordered m) :
    m.find (.of x x) = some e ↔ e ∈ m ∧ e.1.Contains x := by
  have around : ∀ e ∈ m, (e.1.less (.of x x) = false ∧ (Interval.of x x).less e.1 = false ↔ e.1.Contains x) :=
    fun e member => Interval.not_less_point (ordered.nonempty e member) x
  rw [find]
  cases lower : m.fromLowerBound (.of x x) with
  | nil =>
    refine iff_of_false nofun ?_
    rintro ⟨member, contains⟩
    have inside := (mem_fromLowerBound ordered).mpr ⟨member, ((around e member).mpr contains).1⟩
    rw [lower] at inside
    exact not_mem_nil inside
  | cons first later =>
    dsimp only
    have first_lower := (mem_fromLowerBound ordered).mp
      (lower ▸ mem_cons_self : first ∈ m.fromLowerBound (.of x x))
    constructor
    · intro found
      split at found
      · cases found
      · rename_i notGreater
        obtain rfl := Option.some.inj found
        exact ⟨first_lower.1, (around first first_lower.1).mp ⟨first_lower.2, Bool.eq_false_iff.mpr notGreater⟩⟩
    · rintro ⟨member, contains⟩
      have inside := (mem_fromLowerBound ordered).mpr ⟨member, ((around e member).mpr contains).1⟩
      have same : e = first := by
        rw [lower] at inside
        rcases mem_cons.mp inside with same | after
        · exact same
        · have sorted : (first :: later).Pairwise fun a b : Interval T × V => a.1.stop ≤ b.1.start :=
            lower ▸ ordered.apart.sublist (dropWhile_sublist _)
          have order := ((pairwise_cons.mp sorted).1 e after).trans contains.1
          have notLess := first_lower.2
          rw [Bool.eq_false_iff, ne_eq, Interval.less_iff_of_nonempty (ordered.nonempty first first_lower.1)] at notLess
          exact absurd (by simpa [Interval.of] using order) notLess
      subst same
      rw [((around e member).mpr contains).2, if_neg Bool.false_ne_true]

/-- The value of the interval around an address. -/
def valueAt (m : IntervalMap T V) (x : T) : Option V := (m.find (.of x x)).map (·.2)

lemma valueAt_of_mem (ordered : Ordered m) (member : e ∈ m) (contains : e.1.Contains x) :
    m.valueAt x = some e.2 := by
  rw [valueAt, (find_eq_some_iff ordered).mpr ⟨member, contains⟩, Option.map_some]

lemma valueAt_eq_none_iff (ordered : Ordered m) : m.valueAt x = none ↔ ∀ e ∈ m, ¬ e.1.Contains x := by
  rw [valueAt, Option.map_eq_none_iff]
  constructor
  · intro nothing e member contains
    rw [(find_eq_some_iff ordered).mpr ⟨member, contains⟩] at nothing
    cases nothing
  · intro outside
    rw [Option.eq_none_iff_forall_ne_some]
    intro e found
    obtain ⟨member, contains⟩ := (find_eq_some_iff ordered).mp found
    exact outside e member contains

lemma valueAt_tryEmplace (ordered : Ordered m) (nonempty : key.start < key.stop)
    (disjoint : ∀ e ∈ m, key.stop ≤ e.1.start ∨ e.1.stop ≤ key.start) (x : T) :
    (m.tryEmplace key value).1.valueAt x = if key.Contains x then some value else m.valueAt x := by
  obtain ⟨ordered', -, members⟩ := tryEmplace_spec ordered nonempty disjoint
  by_cases contains : key.Contains x
  · rw [if_pos contains]
    exact valueAt_of_mem ordered' (e := (key, value)) ((members _).mpr (.inl rfl)) contains
  · rw [if_neg contains, valueAt, valueAt]
    congr 1
    ext e
    rw [find_eq_some_iff ordered', find_eq_some_iff ordered, members]
    constructor
    · rintro ⟨rfl | member, inside⟩
      · exact absurd inside contains
      · exact ⟨member, inside⟩
    · rintro ⟨member, inside⟩
      exact ⟨.inr member, inside⟩

end IntervalMap

end HpcToolkit.Util
