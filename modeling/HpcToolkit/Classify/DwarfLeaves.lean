import HpcToolkit.Util.Interval

/-! # The address ranges of DWARF scopes

`DirectClassification` visits the scopes of a module from the leaves up and marks with each scope the addresses of its
ranges that no earlier scope has got. The map `leaves` then has for every address the innermost scope around it.
-/

open Option hiding or_assoc
open List

namespace HpcToolkit.Classify

open Util (IntervalMap)
open Util.IntervalMap Util.Interval

variable {T V : Type} [LinearOrder T]

/-- The loop over the leaves that overlap `mine`, as `equal_range` has found them: what the loop inserts stands in front
of the iterator. -/
def markBetween (leaves : IntervalMap T V) (mine : Util.Interval T) (here : V) :
    IntervalMap T V → IntervalMap T V × Util.Interval T
  | [] => (leaves, mine)
  | it :: rest =>
    let (before, after) := mine.sub it.1
    let leaves := if before.empty then leaves else (leaves.tryEmplace before here).1
    if after.empty then (leaves, after) else markBetween leaves after here rest

def markLast (leaves : IntervalMap T V) (mine : Util.Interval T) (here : V) : IntervalMap T V :=
  if mine.empty then leaves else (leaves.tryEmplace mine here).1

/-- What is done for one range of a DIE. -/
def markRange (leaves : IntervalMap T V) (start stop : T) (here : V) : IntervalMap T V :=
  let mine := of start stop
  let (leaves, mine) := markBetween leaves mine here (leaves.equalRange mine)
  markLast leaves mine here

/-- A range of a DIE and the node of the trie for the DIE. -/
structure Range (T V : Type) where
  start : T
  stop : T
  here : V

def markRanges (ranges : List (Range T V)) : IntervalMap T V :=
  ranges.foldl (fun leaves r => markRange leaves r.start r.stop r.here) []

section Marking

variable {leaves rest : IntervalMap T V} {mine : Util.Interval T} {it : Util.Interval T × V} {here : V}

/-- The leaves after a range are those before it, and the range's node wherever there was none. -/
structure Marks (leaves : IntervalMap T V) (mine : Util.Interval T) (here : V) (leaves' : IntervalMap T V) : Prop where
  ordered : Ordered leaves'
  value : ∀ x, leaves'.valueAt x = (leaves.valueAt x).or (if mine.Contains x then some here else none)

lemma sub_of_overlap (notLess : mine.less it.1 = false) (notGreater : it.1.less mine = false) :
    mine.sub it.1 = (⟨min mine.start it.1.start, it.1.start⟩, ⟨it.1.stop, max mine.stop it.1.stop⟩) := by
  simp [sub, notLess, notGreater, of]

lemma before_empty_iff :
    (Util.Interval.mk (min mine.start it.1.start) it.1.start).empty = true ↔ it.1.start ≤ mine.start :=
  empty_iff.trans min_eq_right_iff

lemma after_empty_iff :
    (Util.Interval.mk it.1.stop (max mine.stop it.1.stop)).empty = true ↔ mine.stop ≤ it.1.stop :=
  empty_iff.trans (eq_comm.trans max_eq_right_iff)

lemma marks_last (ordered : Ordered leaves) (nonempty : mine.start < mine.stop)
    (disjoint : ∀ e ∈ leaves, mine.stop ≤ e.1.start ∨ e.1.stop ≤ mine.start) :
    Marks leaves mine here (markLast leaves mine here) := by
  have notEmpty : ¬ mine.empty := by
    rw [empty_iff]
    exact nonempty.ne
  rw [markLast, if_neg notEmpty]
  refine ⟨(tryEmplace_spec ordered nonempty disjoint).1, fun x => ?_⟩
  rw [valueAt_tryEmplace ordered nonempty disjoint]
  by_cases contains : mine.Contains x
  · have nothing : leaves.valueAt x = none := by
      refine (valueAt_eq_none_iff ordered).mpr fun e member inside => ?_
      rcases disjoint e member with behind | front
      · exact absurd (contains.2.trans_le behind) (not_lt.mpr inside.1)
      · exact absurd (inside.2.trans_le front) (not_lt.mpr contains.1)
    rw [if_pos contains, if_pos contains, nothing, none_or]
  · rw [if_neg contains, if_neg contains, or_none]

lemma mark_before (here : V) (ordered : Ordered leaves) (member : it ∈ leaves) (high : it.1.start < mine.stop)
    (apart : ∀ e ∈ rest, it.1.stop ≤ e.1.start)
    (others : ∀ e ∈ leaves, e ∈ it :: rest ∨ mine.stop ≤ e.1.start ∨ e.1.stop ≤ mine.start) :
    let before : Util.Interval T := ⟨min mine.start it.1.start, it.1.start⟩
    let leaves' := if before.empty then leaves else (leaves.tryEmplace before here).1
    Marks leaves ⟨mine.start, it.1.start⟩ here leaves' ∧ (∀ e ∈ leaves, e ∈ leaves') ∧
      ∀ e ∈ leaves', e ∈ leaves ∨ e.1.stop ≤ it.1.start := by
  intro before leaves'
  by_cases nothing : it.1.start ≤ mine.start
  · have same : leaves' = leaves := if_pos (before_empty_iff.mpr nothing)
    rw [same]
    refine ⟨⟨ordered, fun x => ?_⟩, fun _ => id, fun _ => .inl⟩
    have outside : ¬ (Util.Interval.mk mine.start it.1.start).Contains x := fun inside =>
      absurd (inside.1.trans_lt inside.2) (not_lt.mpr nothing)
    rw [if_neg outside, or_none]
  · rw [not_le] at nothing
    have changed : leaves' = markLast leaves ⟨mine.start, it.1.start⟩ here := by
      have shape : before = ⟨mine.start, it.1.start⟩ := by
        simp only [before, min_eq_left nothing.le]
      simp only [leaves', shape, markLast]
    have disjoint : ∀ e ∈ leaves, it.1.start ≤ e.1.start ∨ e.1.stop ≤ mine.start := by
      intro e inside
      rcases others e inside with inside | behind | front
      · rcases mem_cons.mp inside with rfl | later
        · exact .inl le_rfl
        · exact .inl ((ordered.nonempty it member).le.trans (apart e later))
      · exact .inl (high.le.trans behind)
      · exact .inr front
    have notEmpty : ¬ (Util.Interval.mk mine.start it.1.start).empty := by
      rw [empty_iff]
      exact nothing.ne
    have members : ∀ e, e ∈ (leaves.tryEmplace ⟨mine.start, it.1.start⟩ here).1 ↔
        e = (⟨mine.start, it.1.start⟩, here) ∨ e ∈ leaves := (tryEmplace_spec ordered nothing disjoint).2.2
    rw [changed]
    refine ⟨marks_last ordered nothing disjoint, ?_, ?_⟩
    · intro e inside
      rw [markLast, if_neg notEmpty, members]
      exact .inr inside
    · intro e inside
      rw [markLast, if_neg notEmpty, members] at inside
      rcases inside with rfl | inside
      · exact .inr le_rfl
      · exact .inl inside

section
variable (ordered : Ordered leaves)
include ordered

lemma Marks.around {leaves' leaves'' : IntervalMap T V} (member : it ∈ leaves)
    (low : mine.start < it.1.stop) (high : it.1.start < mine.stop)
    (before : Marks leaves ⟨mine.start, it.1.start⟩ here leaves')
    (after : Marks leaves' ⟨it.1.stop, mine.stop⟩ here leaves'') : Marks leaves mine here leaves'' := by
  refine ⟨after.ordered, fun x => ?_⟩
  rw [after.value, before.value]
  by_cases inside : it.1.Contains x
  · rw [valueAt_of_mem ordered member inside, some_or, some_or, some_or]
  · have pieces : mine.Contains x ↔ (Util.Interval.mk mine.start it.1.start).Contains x ∨
        (Util.Interval.mk it.1.stop mine.stop).Contains x := by
      constructor
      · rintro ⟨least, below⟩
        rcases lt_or_ge x it.1.start with front | behind
        · exact .inl ⟨least, front⟩
        · exact .inr ⟨le_of_not_gt fun less => inside ⟨behind, less⟩, below⟩
      · rintro (⟨least, below⟩ | ⟨least, below⟩)
        · exact ⟨least, below.trans high⟩
        · exact ⟨low.le.trans least, below⟩
    rw [Option.or_assoc]
    congr 1
    simp only [pieces]
    by_cases front : (Util.Interval.mk mine.start it.1.start).Contains x
    · rw [if_pos front, if_pos (Or.inl front), some_or]
    · rw [if_neg front, none_or]
      simp only [front, false_or]

lemma Marks.of_empty (backwards : mine.stop ≤ mine.start) :
    Marks leaves mine here leaves := by
  refine ⟨ordered, fun x => ?_⟩
  rw [if_neg fun contains => absurd (contains.1.trans_lt contains.2) (not_lt.mpr backwards), or_none]

lemma marks_between (nonempty : mine.start < mine.stop)
    (sorted : rest.Pairwise fun a b => a.1.stop ≤ b.1.start) (listed : ∀ e ∈ rest, e ∈ leaves)
    (overlap : ∀ e ∈ rest, mine.start < e.1.stop ∧ e.1.start < mine.stop)
    (others : ∀ e ∈ leaves, e ∈ rest ∨ mine.stop ≤ e.1.start ∨ e.1.stop ≤ mine.start) :
    Marks leaves mine here
      (markLast (markBetween leaves mine here rest).1 (markBetween leaves mine here rest).2 here) := by
  induction rest generalizing leaves mine with
  | nil => exact marks_last ordered nonempty fun e member => (others e member).resolve_left not_mem_nil
  | cons it rest ih =>
    obtain ⟨apart, later⟩ := pairwise_cons.mp sorted
    obtain ⟨low, high⟩ := overlap it mem_cons_self
    have member := listed it mem_cons_self
    obtain ⟨before, kept, added⟩ := mark_before here ordered member high apart others
    have notLess : mine.less it.1 = false :=
      Bool.eq_false_iff.mpr fun less => absurd (less_iff.mp less).1 (not_le.mpr high)
    have notGreater : it.1.less mine = false :=
      Bool.eq_false_iff.mpr fun less => absurd (less_iff.mp less).1 (not_le.mpr low)
    rw [markBetween, sub_of_overlap notLess notGreater]
    dsimp only
    by_cases last : mine.stop ≤ it.1.stop
    · rw [if_pos (after_empty_iff.mpr last), markLast, if_pos (after_empty_iff.mpr last)]
      exact before.around ordered member low high (.of_empty before.ordered last)
    · rw [if_neg fun nothing => last (after_empty_iff.mp nothing)]
      rw [not_le] at last
      rw [max_eq_left last.le]
      refine before.around ordered member low high (ih before.ordered last later ?_ ?_ ?_)
      · exact fun e inside => kept e (listed e (mem_cons_of_mem it inside))
      · intro e inside
        have e_nonempty := ordered.nonempty e (listed e (mem_cons_of_mem it inside))
        exact ⟨(apart e inside).trans_lt e_nonempty, (overlap e (mem_cons_of_mem it inside)).2⟩
      · intro e inside
        rcases added e inside with old | front
        · rcases others e old with listed | behind | front
          · rcases mem_cons.mp listed with rfl | listed
            · exact .inr (.inr le_rfl)
            · exact .inl listed
          · exact .inr (.inl behind)
          · exact .inr (.inr (front.trans low.le))
        · exact .inr (.inr (front.trans (ordered.nonempty it member).le))

lemma markRange_empty (x : T) : markRange leaves x x here = leaves := by
  rw [markRange]
  have point : of x x = ⟨x, x⟩ := by simp [of]
  have point_empty : (Util.Interval.mk x x).empty = true := empty_iff.mpr rfl
  rw [point]
  cases overlapping : leaves.equalRange ⟨x, x⟩ with
  | nil => simp [markBetween, markLast, point_empty]
  | cons it rest =>
    obtain ⟨member, notGreater, notLess⟩ := (mem_equalRange ordered).mp
      (overlapping ▸ mem_cons_self : it ∈ leaves.equalRange ⟨x, x⟩)
    have contains : it.1.Contains x :=
      (not_less_point (ordered.nonempty it member) x).mp (point.symm ▸ ⟨notGreater, notLess⟩)
    rw [markBetween, sub_of_overlap notLess notGreater]
    dsimp only
    have before_empty : (Util.Interval.mk (min x it.1.start) it.1.start).empty = true :=
      empty_iff.mpr (min_eq_right contains.1)
    have after_empty : (Util.Interval.mk it.1.stop (max x it.1.stop)).empty = true :=
      empty_iff.mpr (max_eq_right contains.2.le).symm
    rw [if_pos before_empty, if_pos after_empty, markLast, if_pos after_empty]

lemma marks_range (start stop : T) :
    Marks leaves (.of start stop) here (markRange leaves start stop here) := by
  rcases eq_or_ne start stop with rfl | different
  · rw [markRange_empty ordered]
    exact .of_empty ordered (by simp [of])
  · have nonempty : (of start stop).start < (of start stop).stop := min_lt_max.mpr different
    apply marks_between ordered nonempty (ordered.apart.sublist equalRange_sublist)
    · exact fun e member => ((mem_equalRange ordered).mp member).1
    · intro e member
      obtain ⟨inside, notLess, notGreater⟩ := (mem_equalRange ordered).mp member
      rw [Bool.eq_false_iff, ne_eq, less_iff_of_nonempty (ordered.nonempty e inside), not_le] at notLess
      rw [Bool.eq_false_iff, ne_eq, less_iff_of_nonempty nonempty, not_le] at notGreater
      exact ⟨notLess, notGreater⟩
    · intro e inside
      rw [mem_equalRange ordered, Bool.eq_false_iff, Bool.eq_false_iff, ne_eq, ne_eq,
        less_iff_of_nonempty (ordered.nonempty e inside), less_iff_of_nonempty nonempty]
      tauto

end

end Marking

/-- A range covers an address; one that is given backwards is turned round. -/
def Range.Covers (r : Range T V) (x : T) : Prop := (of r.start r.stop).Contains x

instance (r : Range T V) (x : T) : Decidable (r.Covers x) := inferInstanceAs (Decidable (Util.Interval.Contains _ _))

/-- The node of the first range around an address. -/
def firstCovering (ranges : List (Range T V)) (x : T) : Option V := (ranges.find? (·.Covers x)).map (·.here)

lemma markRanges_spec (ranges : List (Range T V)) :
    Ordered (markRanges ranges) ∧ ∀ x, (markRanges ranges).valueAt x = firstCovering ranges x := by
  have later : ∀ (ranges : List (Range T V)) (leaves : IntervalMap T V), Ordered leaves →
      let leaves' := ranges.foldl (fun leaves r => markRange leaves r.start r.stop r.here) leaves
      Ordered leaves' ∧ ∀ x, leaves'.valueAt x = (leaves.valueAt x).or (firstCovering ranges x) := by
    intro ranges
    induction ranges with
    | nil =>
      intro leaves ordered
      exact ⟨ordered, fun x => (or_none).symm⟩
    | cons r ranges ih =>
      intro leaves ordered
      have marked : Marks leaves (.of r.start r.stop) r.here (markRange leaves r.start r.stop r.here) :=
        marks_range ordered r.start r.stop
      obtain ⟨ordered', values⟩ := ih _ marked.ordered
      refine ⟨ordered', fun x => ?_⟩
      rw [foldl_cons, values, marked.value, Option.or_assoc]
      congr 1
      rw [firstCovering, firstCovering, find?_cons]
      by_cases covers : r.Covers x
      · have contains : (of r.start r.stop).Contains x := covers
        simp [covers, contains]
      · have outside : ¬ (of r.start r.stop).Contains x := covers
        simp [covers, outside]
  obtain ⟨ordered, values⟩ := later ranges [] ⟨fun _ member => absurd member not_mem_nil, List.Pairwise.nil⟩
  exact ⟨ordered, fun x => (values x).trans none_or⟩

/-- The leaves partition the addresses of the ranges, and each address has the node of the first range around it. -/
theorem leaves_partition (ranges : List (Range T V)) :
    (∀ e ∈ markRanges ranges, e.1.start < e.1.stop) ∧
    (markRanges ranges).Pairwise (fun a b => ∀ x, ¬ (a.1.Contains x ∧ b.1.Contains x)) ∧
    ∀ x, match firstCovering ranges x with
      | some here => ∃ e ∈ markRanges ranges, e.1.Contains x ∧ e.2 = here ∧
          (∀ e' ∈ markRanges ranges, e'.1.Contains x → e' = e) ∧ (markRanges ranges).find (.of x x) = some e
      | none => (∀ e ∈ markRanges ranges, ¬ e.1.Contains x) ∧ (markRanges ranges).find (.of x x) = none := by
  obtain ⟨ordered, values⟩ := markRanges_spec ranges
  refine ⟨ordered.nonempty, ?_, fun x => ?_⟩
  · refine ordered.apart.imp fun order x both => ?_
    exact absurd (both.1.2.trans_le order) (not_lt.mpr both.2.1)
  · have value := values x
    cases first : firstCovering ranges x with
    | none =>
      rw [first] at value
      exact ⟨(valueAt_eq_none_iff ordered).mp value, map_eq_none_iff.mp value⟩
    | some here =>
      rw [first] at value
      obtain ⟨e, found, same⟩ := map_eq_some_iff.mp value
      obtain ⟨member, contains⟩ := (find_eq_some_iff ordered).mp found
      refine ⟨e, member, contains, same, fun e' member' contains' => ?_, found⟩
      have found' := (find_eq_some_iff ordered).mpr ⟨member', contains'⟩
      exact Option.some.inj (found'.symm.trans found)

end HpcToolkit.Classify
