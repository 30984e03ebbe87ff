import Mathlib.Order.MinMax
import Mathlib.Data.List.TakeWhile
import Mathlib.Tactic.Common

/-! # Sets of address intervals

A set of half-open intervals, in the order of a `std::set`. An interval that is inserted is joined with those that it
overlaps or touches, so the intervals of a set stay apart.
-/

open List

namespace HpcToolkit.HpcStruct

/-- The interval `[beg, end)`. -/
structure VMAInterval (VMA : Type) where
  mBeg : VMA
  mEnd : VMA
deriving DecidableEq

variable {VMA : Type} [LinearOrder VMA]

namespace VMAInterval

def empty (x : VMAInterval VMA) : Bool := x.mBeg ≥ x.mEnd

/-- `operator<` -/
def lt (x y : VMAInterval VMA) : Bool := x.mBeg < y.mBeg ∨ x.mBeg = y.mBeg ∧ x.mEnd < y.mEnd

end VMAInterval

/-- The elements of the set in their order. -/
abbrev VMAIntervalSet (VMA : Type) := List (VMAInterval VMA)

namespace VMAIntervalSet

def setInsert (set : VMAIntervalSet VMA) (x : VMAInterval VMA) : VMAIntervalSet VMA :=
  set.takeWhile (·.lt x) ++
    match set.dropWhile (·.lt x) with
    | [] => [x]
    | e :: later => if x.lt e then x :: e :: later else e :: later

/-- The loop that extends `high` and erases the intervals from `it` on. -/
def extendHigh : VMA → VMAIntervalSet VMA → VMA × VMAIntervalSet VMA
  | high, [] => (high, [])
  | high, it :: rest => if it.mBeg ≤ high then extendHigh (max high it.mEnd) rest else (high, it :: rest)

/-- Insert `[low, high)` when `it` is found between the intervals `before` and `rest`. -/
def insertAt (before : VMAIntervalSet VMA) (it : VMAInterval VMA) (rest : VMAIntervalSet VMA) (low high : VMA) :
    VMAIntervalSet VMA :=
  if it.mBeg ≤ low ∧ high ≤ it.mEnd then before ++ it :: rest
  else if it.mBeg ≤ low then
    let (newHigh, later) := extendHigh high rest
    if it.mEnd ≥ low then setInsert (before ++ later) ⟨min low it.mBeg, newHigh⟩
    else setInsert (before ++ it :: later) ⟨low, newHigh⟩
  else
    let (newHigh, later) := extendHigh high (it :: rest)
    setInsert (before ++ later) ⟨low, newHigh⟩

/-- `VMAIntervalSet::insert`: `it` is the last interval that does not begin behind `low`, or else the first one. -/
def insert (set : VMAIntervalSet VMA) (x : VMAInterval VMA) : VMAIntervalSet VMA :=
  if x.empty then set
  else
    let before := set.takeWhile fun e => ¬ (VMAInterval.mk x.mBeg x.mBeg).lt e
    match before.getLast?, set.dropWhile fun e => ¬ (VMAInterval.mk x.mBeg x.mBeg).lt e with
    | none, [] => [x]
    | none, it :: rest => insertAt [] it rest x.mBeg x.mEnd
    | some last, [] => insertAt before.dropLast last [] x.mBeg x.mEnd
    | some last, it :: rest =>
      if it.mBeg > x.mBeg then insertAt before.dropLast last (it :: rest) x.mBeg x.mEnd
      else insertAt before it rest x.mBeg x.mEnd

/-- What `std::set::insert` returns: whether the interval was put there. -/
def setInsertReturn (set : VMAIntervalSet VMA) (x : VMAInterval VMA) : Bool :=
  match set.dropWhile (·.lt x) with
  | [] => true
  | e :: _ => x.lt e

/-- What is returned from `insertAt`. -/
def insertAtReturn (before : VMAIntervalSet VMA) (it : VMAInterval VMA) (rest : VMAIntervalSet VMA) (low high : VMA) :
    Bool :=
  if it.mBeg ≤ low ∧ high ≤ it.mEnd then false
  else if it.mBeg ≤ low then
    let (newHigh, later) := extendHigh high rest
    if it.mEnd ≥ low then setInsertReturn (before ++ later) ⟨min low it.mBeg, newHigh⟩
    else setInsertReturn (before ++ it :: later) ⟨low, newHigh⟩
  else
    let (newHigh, later) := extendHigh high (it :: rest)
    setInsertReturn (before ++ later) ⟨low, newHigh⟩

/-- The second part of what `VMAIntervalSet::insert` returns. -/
def insertReturn (set : VMAIntervalSet VMA) (x : VMAInterval VMA) : Bool :=
  if x.empty then false
  else
    let before := set.takeWhile fun e => ¬ (VMAInterval.mk x.mBeg x.mBeg).lt e
    match before.getLast?, set.dropWhile fun e => ¬ (VMAInterval.mk x.mBeg x.mBeg).lt e with
    | none, [] => true
    | none, it :: rest => insertAtReturn [] it rest x.mBeg x.mEnd
    | some last, [] => insertAtReturn before.dropLast last [] x.mBeg x.mEnd
    | some last, it :: rest =>
      if it.mBeg > x.mBeg then insertAtReturn before.dropLast last (it :: rest) x.mBeg x.mEnd
      else insertAtReturn before it rest x.mBeg x.mEnd

/-- No interval is empty, and each ends before the next one begins. -/
structure Separated (set : VMAIntervalSet VMA) : Prop where
  nonempty : ∀ e ∈ set, e.mBeg < e.mEnd
  apart : set.Pairwise fun a b => a.mEnd < b.mBeg

variable {set before rest later : VMAIntervalSet VMA} {it x : VMAInterval VMA} {low high : VMA}

lemma Separated.sublist (separated : Separated set) (within : before.Sublist set) : Separated before :=
  ⟨fun e member => separated.nonempty e (within.subset member), separated.apart.sublist within⟩

lemma setInsert_between (left : ∀ e ∈ before, e.mBeg < x.mBeg) (right : ∀ e ∈ later, x.mBeg < e.mBeg) :
    setInsert (before ++ later) x = before ++ x :: later := by
  have front : ∀ e ∈ before, e.lt x = true := fun e member => by simp [VMAInterval.lt, left e member]
  have behind : ∀ e ∈ later, x.lt e = true ∧ e.lt x = false := by
    intro e member
    have order := right e member
    simp [VMAInterval.lt, order, order.le, order.ne']
  have rest_later : later.takeWhile (·.lt x) = [] ∧ later.dropWhile (·.lt x) = later := by
    cases later with
    | nil => exact ⟨rfl, rfl⟩
    | cons e later =>
      have stop := (behind e mem_cons_self).2
      rw [takeWhile_cons, dropWhile_cons, stop]
      exact ⟨rfl, rfl⟩
  rw [setInsert, takeWhile_append_of_pos front, dropWhile_append_of_pos front, rest_later.1, rest_later.2,
    append_nil]
  cases later with
  | nil => rfl
  | cons e later => exact congrArg (before ++ ·) (if_pos (behind e mem_cons_self).1)

lemma le_extendHigh (high : VMA) (set : VMAIntervalSet VMA) : high ≤ (extendHigh high set).1 := by
  induction set generalizing high with
  | nil => exact le_rfl
  | cons it rest ih =>
    rw [extendHigh]
    split
    · exact (le_max_left ..).trans (ih _)
    · exact le_rfl

lemma extendHigh_sublist (high : VMA) (set : VMAIntervalSet VMA) : (extendHigh high set).2.Sublist set := by
  induction set generalizing high with
  | nil => exact .slnil
  | cons it rest ih =>
    rw [extendHigh]
    split
    · exact (ih _).cons _
    · exact List.Sublist.refl _

lemma extendHigh_behind (separated : Separated set) (high : VMA) :
    ∀ e ∈ (extendHigh high set).2, (extendHigh high set).1 < e.mBeg := by
  induction set generalizing high with
  | nil => exact fun _ member => absurd member not_mem_nil
  | cons it rest ih =>
    rw [extendHigh]
    split
    · exact ih (separated.sublist (sublist_cons_self ..)) _
    · rename_i behind
      intro e member
      rcases mem_cons.mp member with rfl | member
      · exact not_le.mp behind
      · have order := (pairwise_cons.mp separated.apart).1 e member
        exact (not_le.mp behind).trans ((separated.nonempty it mem_cons_self).trans order)

lemma separated_between (left : Separated before) (right : Separated later) (nonempty : x.mBeg < x.mEnd)
    (front : ∀ e ∈ before, e.mEnd < x.mBeg) (behind : ∀ e ∈ later, x.mEnd < e.mBeg) :
    Separated (before ++ x :: later) := by
  refine ⟨fun e member => ?_, pairwise_append.mpr ⟨left.apart, pairwise_cons.mpr ⟨behind, right.apart⟩, ?_⟩⟩
  · rcases mem_append.mp member with member | member
    · exact left.nonempty e member
    · rcases mem_cons.mp member with rfl | member
      · exact nonempty
      · exact right.nonempty e member
  · intro a inside b member
    rcases mem_cons.mp member with rfl | member
    · exact front a inside
    · exact (front a inside).trans (nonempty.trans (behind b member))

lemma separated_setInsert (left : Separated before) (right : Separated later) (nonempty : x.mBeg < x.mEnd)
    (front : ∀ e ∈ before, e.mEnd < x.mBeg) (behind : ∀ e ∈ later, x.mEnd < e.mBeg) :
    Separated (setInsert (before ++ later) x) := by
  rw [setInsert_between (fun e member => (left.nonempty e member).trans (front e member))
    fun e member => nonempty.trans (behind e member)]
  exact separated_between left right nonempty front behind

lemma Separated.insertAt (separated : Separated (before ++ it :: rest)) (nonempty : low < high)
    (front : ∀ e ∈ before, e.mEnd < low) : Separated (insertAt before it rest low high) := by
  obtain ⟨-, around, across⟩ := pairwise_append.mp separated.apart
  have left : Separated before := separated.sublist (sublist_append_left ..)
  have from_it : Separated (it :: rest) := separated.sublist (sublist_append_right ..)
  have right : Separated rest := from_it.sublist (sublist_cons_self ..)
  have before_it : ∀ e ∈ before, e.mEnd < it.mBeg := fun e member => across e member it mem_cons_self
  rw [VMAIntervalSet.insertAt]
  split
  · exact separated
  · split
    · rename_i begins
      have grown := nonempty.trans_le (le_extendHigh high rest)
      have behind := extendHigh_behind right high
      have later := right.sublist (extendHigh_sublist high rest)
      dsimp only
      split
      · rw [min_eq_right begins]
        exact separated_setInsert left later (begins.trans_lt grown) before_it behind
      · rename_i apart
        have kept : Separated (before ++ [it]) :=
          separated.sublist (List.Sublist.append_left (singleton_sublist.mpr mem_cons_self) _)
        have front' : ∀ e ∈ before ++ [it], e.mEnd < low := by
          intro e member
          rcases mem_append.mp member with member | member
          · exact front e member
          · obtain rfl := mem_singleton.mp member
            exact not_le.mp apart
        have result := separated_setInsert (x := ⟨low, (extendHigh high rest).1⟩) kept later grown front' behind
        rwa [append_assoc] at result
    · have grown := nonempty.trans_le (le_extendHigh high (it :: rest))
      have behind := extendHigh_behind from_it high
      have later := from_it.sublist (extendHigh_sublist high (it :: rest))
      generalize extendHigh high (it :: rest) = result at grown behind later ⊢
      exact separated_setInsert left later grown front behind

section
variable (separated : Separated set)
include separated

lemma beg_lt_of_mem_takeWhile (low : VMA) :
    ∀ e ∈ set.takeWhile fun e => ¬ (VMAInterval.mk low low).lt e, e.mBeg < low := by
  intro e member
  have nonempty := separated.nonempty e ((takeWhile_sublist _).subset member)
  have notLess := mem_takeWhile_imp member
  simp only [VMAInterval.lt, decide_eq_true_eq, not_or, not_and, not_lt] at notLess
  refine lt_of_le_of_ne notLess.1 fun same => ?_
  exact absurd nonempty (not_lt.mpr (same ▸ notLess.2 same.symm))

lemma beg_le_of_mem_dropWhile (low : VMA) :
    ∀ e ∈ set.dropWhile fun e => ¬ (VMAInterval.mk low low).lt e, low ≤ e.mBeg := by
  induction set with
  | nil => exact fun _ member => absurd member not_mem_nil
  | cons first set ih =>
    obtain ⟨behind, apart⟩ := pairwise_cons.mp separated.apart
    intro e member
    rw [dropWhile_cons] at member
    split at member
    · exact ih (separated.sublist (sublist_cons_self ..)) e member
    · rename_i less
      have begins : low ≤ first.mBeg := by
        simp only [VMAInterval.lt, decide_eq_true_eq, not_not] at less
        grind
      rcases mem_cons.mp member with rfl | member
      · exact begins
      · exact begins.trans ((separated.nonempty first mem_cons_self).trans (behind e member)).le

lemma insert_cases (some_interval : set ≠ []) (nonempty : x.mBeg < x.mEnd) :
    ∃ before it rest, set = before ++ it :: rest ∧ (∀ e ∈ before, e.mEnd < x.mBeg) ∧ (∀ e ∈ rest, x.mBeg < e.mBeg) ∧
      insert set x = insertAt before it rest x.mBeg x.mEnd ∧
      insertReturn set x = insertAtReturn before it rest x.mBeg x.mEnd := by
  have order : ¬ x.empty = true := by simpa [VMAInterval.empty] using nonempty
  have parts := takeWhile_append_dropWhile (p := fun e => ¬ (VMAInterval.mk x.mBeg x.mBeg).lt e) (l := set)
  have begins := beg_lt_of_mem_takeWhile separated x.mBeg
  have stop := beg_le_of_mem_dropWhile separated x.mBeg
  rw [insert, insertReturn, if_neg order, if_neg order]
  generalize (set.takeWhile fun e => ¬ (VMAInterval.mk x.mBeg x.mBeg).lt e) = before at parts begins ⊢
  generalize (set.dropWhile fun e => ¬ (VMAInterval.mk x.mBeg x.mBeg).lt e) = rest at parts stop ⊢
  subst parts
  rcases eq_nil_or_concat before with rfl | ⟨front, last, rfl⟩
  · cases rest with
    | nil => exact absurd rfl some_interval
    | cons it rest =>
      refine ⟨[], it, rest, rfl, fun _ member => absurd member not_mem_nil, fun e member => ?_, rfl, rfl⟩
      have apart := (pairwise_cons.mp separated.apart).1 e member
      exact (stop it mem_cons_self).trans_lt ((separated.nonempty it mem_cons_self).trans apart)
  · rw [concat_eq_append] at separated begins ⊢
    have around := separated.apart
    rw [append_assoc] at around
    have before_last : ∀ e ∈ front, e.mEnd < x.mBeg := fun e member =>
      ((pairwise_append.mp around).2.2 e member last mem_cons_self).trans
        (begins last (mem_append_right _ mem_cons_self))
    simp only [getLast?_concat, dropLast_concat]
    cases rest with
    | nil => exact ⟨front, last, [], by simp, before_last, fun _ member => absurd member not_mem_nil, rfl, rfl⟩
    | cons it rest =>
      have from_it : Separated (it :: rest) := separated.sublist (sublist_append_right ..)
      have it_rest : ∀ e ∈ rest, it.mBeg < e.mBeg := fun e member =>
        (from_it.nonempty it mem_cons_self).trans ((pairwise_cons.mp from_it.apart).1 e member)
      by_cases behind : it.mBeg > x.mBeg
      · refine ⟨front, last, it :: rest, by simp, before_last, fun e member => ?_, ?_, ?_⟩
        · rcases mem_cons.mp member with rfl | member
          · exact behind
          · exact behind.trans (it_rest e member)
        · simp [if_pos behind]
        · simp [if_pos behind]
      · refine ⟨front ++ [last], it, rest, rfl, fun e member => ?_, fun e member => ?_, ?_, ?_⟩
        · have before_it := (pairwise_append.mp separated.apart).2.2 e member it mem_cons_self
          exact before_it.trans_le (not_lt.mp behind)
        · exact (stop it mem_cons_self).trans_lt (it_rest e member)
        · simp [if_neg behind]
        · simp [if_neg behind]

lemma Separated.insert (x : VMAInterval VMA) : Separated (insert set x) := by
  by_cases none : x.empty
  · rwa [VMAIntervalSet.insert, if_pos none]
  · have nonempty : x.mBeg < x.mEnd := by simpa [VMAInterval.empty] using none
    cases set with
    | nil =>
      rw [VMAIntervalSet.insert, if_neg none]
      exact ⟨by simpa using nonempty, pairwise_singleton ..⟩
    | cons first set =>
      obtain ⟨before, it, rest, parts, front, -, here, -⟩ := insert_cases separated (cons_ne_nil _ _) nonempty
      rw [here]
      exact (parts ▸ separated).insertAt nonempty front

lemma insert_behind (nonempty : x.mBeg < x.mEnd) (behind : ∀ e ∈ set, e.mEnd < x.mBeg) :
    insert set x = set ++ [x] := by
  have begins : ∀ e ∈ set, e.mBeg < x.mBeg := fun e member => (separated.nonempty e member).trans (behind e member)
  have all : ∀ e ∈ set, (decide ¬ (VMAInterval.mk x.mBeg x.mBeg).lt e) = true := by
    intro e member
    have order := begins e member
    simp [VMAInterval.lt, order.le, order.ne']
  rw [insert, if_neg (by simpa [VMAInterval.empty] using nonempty), takeWhile_eq_self_iff.mpr all,
    dropWhile_eq_nil_iff.mpr all]
  rcases eq_nil_or_concat set with rfl | ⟨front, last, rfl⟩
  · rfl
  · rw [concat_eq_append] at begins behind ⊢
    have inside : last ∈ front ++ [last] := mem_append_right _ mem_cons_self
    have apart := behind last inside
    have notWithin : ¬ (last.mBeg ≤ x.mBeg ∧ x.mEnd ≤ last.mEnd) := fun both =>
      absurd (apart.trans nonempty) (not_lt.mpr both.2)
    simp only [getLast?_concat, dropLast_concat, insertAt, if_neg notWithin, if_pos (begins last inside).le,
      extendHigh, ge_iff_le, if_neg (not_le.mpr apart)]
    have none : ∀ e ∈ ([] : VMAIntervalSet VMA), x.mBeg < e.mBeg := fun _ member => absurd member not_mem_nil
    have placed := setInsert_between begins none
    simpa using placed

end

/-! ## Sets that are built by insertions -/

/-- What `hpcstruct` does with a set that it changes. -/
inductive Held : VMAIntervalSet VMA → Prop where
  | empty : Held []
  | insert {set : VMAIntervalSet VMA} (held : Held set) (x : VMAInterval VMA) : Held (insert set x)

lemma Held.separated (held : Held set) : Separated set := by
  induction held with
  | empty => exact ⟨fun _ member => absurd member not_mem_nil, .nil⟩
  | insert held x ih => exact ih.insert x

lemma foldl_insert (separated : Separated set) : set.foldl insert [] = set := by
  suffices general : ∀ before, Separated (before ++ set) → set.foldl insert before = before ++ set from
    general [] separated
  induction set with
  | nil => exact fun before _ => (append_nil before).symm
  | cons x set ih =>
    intro before whole
    have apart := (pairwise_append.mp whole.apart).2.2
    have last : insert before x = before ++ [x] := by
      apply insert_behind (whole.sublist (sublist_append_left ..))
      · exact whole.nonempty x (mem_append_right _ mem_cons_self)
      · exact fun e member => apart e member x mem_cons_self
    rw [append_cons] at whole ⊢
    rw [foldl_cons, last]
    exact ih (separated.sublist (sublist_cons_self ..)) _ whole

end VMAIntervalSet

end HpcToolkit.HpcStruct
