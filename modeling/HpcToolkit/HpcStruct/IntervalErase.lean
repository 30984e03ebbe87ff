import HpcToolkit.HpcStruct.IntervalUnion

/-! # Erasing an interval

The intervals around the one that is erased are cut off at its ends. Which of them are looked at is decided by the last
one in front of it and the first one behind it in the order of the set.
-/

open List

namespace HpcToolkit.HpcStruct

variable {VMA : Type} [LinearOrder VMA]

def VMAInterval.contains (self x : VMAInterval VMA) : Bool := self.mBeg ≤ x.mBeg ∧ self.mEnd ≥ x.mEnd

namespace VMAIntervalSet

/-- `if (beg < end) My_t::insert(VMAInterval(beg, end));` -/
def setInsertRest (set : VMAIntervalSet VMA) (beg stop : VMA) : VMAIntervalSet VMA :=
  if beg < stop then setInsert set ⟨beg, stop⟩ else set

/-- The cases of `erase`: `before` goes up to `lb`, the last interval less than `x`, and `later` begins with `ub`, the
first one greater than `x`. -/
def eraseBetween (set before later : VMAIntervalSet VMA) (x : VMAInterval VMA) : VMAIntervalSet VMA :=
  match before.getLast?, later with
  | none, [] => []
  | none, ub :: behind => if ¬ x.mEnd < ub.mBeg then setInsertRest behind x.mEnd ub.mEnd else set
  | some lb, [] =>
    if lb.contains x then setInsertRest (setInsertRest before.dropLast lb.mBeg x.mBeg) x.mEnd lb.mEnd
    else if ¬ lb.mEnd < x.mBeg then setInsertRest before.dropLast lb.mBeg x.mBeg
    else set
  | some lb, ub :: behind =>
    if lb.contains x then
      setInsertRest (setInsertRest (before.dropLast ++ ub :: behind) lb.mBeg x.mBeg) x.mEnd lb.mEnd
    else if x.mBeg ≤ lb.mEnd ∧ x.mEnd < ub.mBeg then setInsertRest (before.dropLast ++ ub :: behind) lb.mBeg x.mBeg
    else if lb.mEnd < x.mBeg ∧ ub.mBeg ≤ x.mEnd then setInsertRest (before ++ behind) x.mEnd ub.mEnd
    else if ¬ (lb.mEnd < x.mBeg ∧ x.mEnd < ub.mBeg) then
      setInsert (setInsert (before.dropLast ++ behind) ⟨lb.mBeg, x.mBeg⟩) ⟨x.mEnd, ub.mEnd⟩
    else set

def erase (set : VMAIntervalSet VMA) (x : VMAInterval VMA) : VMAIntervalSet VMA :=
  if x.empty then set else eraseBetween set (set.takeWhile (·.lt x)) (set.dropWhile fun e => ¬ x.lt e) x

/-- What an erasure is for: the addresses of `x` are gone, and the set keeps its form. -/
structure Erased (set : VMAIntervalSet VMA) (x : VMAInterval VMA) (result : VMAIntervalSet VMA) : Prop where
  separated : Separated result
  addresses : addresses result = addresses set \ x.addresses

/-- What the cases of `erase` provide for: `x` is not one of several intervals, at most one interval greater than `x`
begins in it, and of two intervals that it touches on both sides something is left. -/
structure Erasable (set : VMAIntervalSet VMA) (x : VMAInterval VMA) : Prop where
  only : x ∈ set → set = [x]
  one : ∀ e ∈ set, ∀ other ∈ set, x.lt e → e.lt other → x.mEnd ≤ other.mBeg
  left : ∀ e ∈ set, ∀ other ∈ set, e.lt x → x.lt other → x.mBeg ≤ e.mEnd → other.mBeg ≤ x.mEnd →
    e.mBeg < x.mBeg ∧ x.mEnd < other.mEnd

variable {set before front later behind : VMAIntervalSet VMA} {x lb ub : VMAInterval VMA} {beg stop a : VMA}

/-! ## The order of the set -/

variable {e : VMAInterval VMA}

lemma lt_iff : e.lt x = true ↔ e.mBeg < x.mBeg ∨ e.mBeg = x.mBeg ∧ e.mEnd < x.mEnd := by
  simp [VMAInterval.lt]

lemma lt_asymm (less : e.lt x = true) : ¬ x.lt e = true := by
  rw [lt_iff] at less ⊢
  grind

lemma Separated.sorted (separated : Separated set) : set.Pairwise fun a b => a.lt b = true := by
  apply separated.apart.imp_of_mem
  intro e other member _ apart
  exact lt_iff.mpr (.inl ((separated.nonempty e member).trans apart))

lemma lt_trans {e f : VMAInterval VMA} (less : e.lt f = true) (greater : f.lt x = true) : e.lt x = true := by
  rw [lt_iff] at *
  grind

lemma parts (separated : Separated set) (x : VMAInterval VMA) :
    ∃ here, set = set.takeWhile (·.lt x) ++ here ++ (set.dropWhile fun e => ¬ x.lt e) ∧
      (∀ e ∈ set.takeWhile (·.lt x), e.lt x = true) ∧ (∀ e ∈ set.dropWhile (fun e => ¬ x.lt e), x.lt e = true) ∧
      (here = [] ∧ x ∉ set ∨ here = [x]) := by
  induction set with
  | nil => exact ⟨[], by simp, by simp, by simp, by simp⟩
  | cons first rest ih =>
    have behind := (pairwise_cons.mp separated.sorted).1
    obtain ⟨here, whole, front, later, middle⟩ := ih (separated.sublist (sublist_cons_self ..))
    by_cases less : first.lt x = true
    · have notGreater := lt_asymm less
      rw [takeWhile_cons, if_pos less, dropWhile_cons, if_pos (by simpa using notGreater)]
      refine ⟨here, by rw [cons_append, cons_append, ← whole], ?_, later, ?_⟩
      · intro e member
        rcases mem_cons.mp member with rfl | member
        · exact less
        · exact front e member
      · rcases middle with ⟨none, absent⟩ | some
        · refine .inl ⟨none, fun member => ?_⟩
          rcases mem_cons.mp member with rfl | member
          · exact notGreater less
          · exact absent member
        · exact .inr some
    · rw [takeWhile_cons, if_neg less]
      by_cases greater : x.lt first = true
      · rw [dropWhile_cons, if_neg (by simpa using greater)]
        have all : ∀ e ∈ first :: rest, x.lt e = true := by
          intro e member
          rcases mem_cons.mp member with rfl | member
          · exact greater
          · exact lt_trans greater (behind e member)
        exact ⟨[], by simp, by simp, all, .inl ⟨rfl, fun member => lt_asymm (all x member) (all x member)⟩⟩
      · obtain rfl : first = x := eq_of_not_lt (by simpa using less) (by simpa using greater)
        have kept : (first :: rest).dropWhile (fun e => ¬ first.lt e) = rest := by
          rw [dropWhile_cons, if_pos (by simpa using greater)]
          cases rest with
          | nil => rfl
          | cons next rest => exact dropWhile_cons_of_neg (by simpa using behind next mem_cons_self)
        rw [kept]
        exact ⟨[first], by simp, by simp, behind, .inr rfl⟩

/-! ## What is left of an interval -/

/-- The rest of an interval that is put back. -/
def restOf (beg stop : VMA) : VMAIntervalSet VMA := if beg < stop then [⟨beg, stop⟩] else []

lemma mem_restOf : e ∈ restOf beg stop ↔ beg < stop ∧ e = ⟨beg, stop⟩ := by
  rw [restOf]
  split
  · simp [*]
  · simp [*]

lemma addresses_setInsertRest : addresses (setInsertRest set beg stop) = Set.Ico beg stop ∪ addresses set := by
  rw [setInsertRest]
  split
  · rw [addresses_setInsert]
    rfl
  · rename_i past
    rw [Set.Ico_eq_empty past, Set.empty_union]

lemma setInsertRest_between (stop : VMA) (left : ∀ e ∈ front, e.mBeg < beg)
    (right : beg < stop → ∀ e ∈ behind, beg < e.mBeg) :
    setInsertRest (front ++ behind) beg stop = front ++ restOf beg stop ++ behind := by
  rw [setInsertRest, restOf]
  split
  · rename_i nonempty
    rw [setInsert_between left (right nonempty)]
    simp
  · simp

lemma separated_restOf (whole : Separated (front ++ behind)) (left : ∀ e ∈ front, e.mEnd < beg)
    (right : beg < stop → ∀ e ∈ behind, stop < e.mBeg) : Separated (front ++ restOf beg stop ++ behind) := by
  rw [restOf]
  split
  · rename_i nonempty
    rw [append_assoc]
    exact separated_between (whole.sublist (sublist_append_left ..)) (whole.sublist (sublist_append_right ..))
      nonempty left (right nonempty)
  · simpa using whole

/-! ## The cases -/

variable {b : VMA}

lemma lt_of_mem_addresses (ends : ∀ e ∈ set, e.mEnd < b) : ∀ a ∈ addresses set, a < b := by
  rintro a ⟨e, member, -, inside⟩
  exact inside.trans (ends e member)

lemma le_of_addresses_mem (begins : ∀ e ∈ set, b ≤ e.mBeg) : ∀ a ∈ addresses set, b ≤ a := by
  rintro a ⟨e, member, inside, -⟩
  exact (begins e member).trans inside

lemma lt_of_addresses_mem (begins : ∀ e ∈ set, b < e.mBeg) : ∀ a ∈ addresses set, b < a := by
  rintro a ⟨e, member, inside, -⟩
  exact (begins e member).trans_le inside

lemma erased_self (separated : Separated set) (away : ∀ e ∈ set, e.mEnd < x.mBeg ∨ x.mEnd < e.mBeg) :
    Erased set x set := by
  refine ⟨separated, ?_⟩
  rw [eq_comm, sdiff_eq_left, Set.disjoint_left]
  rintro a ⟨e, member, begins, ends⟩ ⟨begins', ends'⟩
  rcases away e member with left | right
  · exact (ends.trans left).not_ge begins'
  · exact (ends'.trans right).not_ge begins

lemma erased_split (separated : Separated (front ++ lb :: later)) (nonempty : x.mBeg < x.mEnd)
    (begins : lb.mBeg ≤ x.mBeg) (ends : x.mEnd ≤ lb.mEnd) :
    Erased (front ++ lb :: later) x (setInsertRest (setInsertRest (front ++ later) lb.mBeg x.mBeg) x.mEnd lb.mEnd) := by
  obtain ⟨-, from_lb, across⟩ := pairwise_append.mp separated.apart
  have behind := (pairwise_cons.mp from_lb).1
  have around : Separated (front ++ later) := separated.sublist ((sublist_cons_self ..).append_left front)
  have before_lb : ∀ e ∈ front, e.mEnd < lb.mBeg := fun e member => across e member lb mem_cons_self
  have front_lb : ∀ e ∈ front, e.mBeg < lb.mBeg := fun e member =>
    (around.nonempty e (mem_append_left _ member)).trans (before_lb e member)
  have lb_later : ∀ e ∈ later, lb.mBeg < e.mBeg := fun e member =>
    begins.trans_lt (nonempty.trans_le ends |>.trans (behind e member))
  have first := setInsertRest_between x.mBeg front_lb fun _ => lb_later
  have kept : Separated (front ++ restOf lb.mBeg x.mBeg ++ later) := separated_restOf around before_lb fun _ e member =>
    nonempty.trans (ends.trans_lt (behind e member))
  have front_rest : ∀ e ∈ front ++ restOf lb.mBeg x.mBeg, e.mEnd < x.mEnd := by
    intro e member
    rcases mem_append.mp member with member | member
    · exact (before_lb e member).trans (begins.trans_lt nonempty)
    · rw [(mem_restOf.mp member).2]
      exact nonempty
  have second := setInsertRest_between lb.mEnd
    (fun e member => (kept.nonempty e (mem_append_left _ member)).trans (front_rest e member))
    fun _ e member => ends.trans_lt (behind e member)
  constructor
  · rw [first, second]
    exact separated_restOf kept front_rest fun _ => behind
  · rw [addresses_setInsertRest, addresses_setInsertRest, addresses_append, addresses_append, addresses_cons]
    ext a
    have left := lt_of_mem_addresses before_lb a
    have right := lt_of_addresses_mem behind a
    simp only [Set.mem_union, Set.mem_sdiff, Set.mem_Ico, VMAInterval.mem_addresses]
    grind

lemma erased_cut_left (separated : Separated (front ++ lb :: later)) (begins : lb.mBeg ≤ x.mBeg)
    (touches : x.mBeg ≤ lb.mEnd) (ends : lb.mEnd ≤ x.mEnd) (away : ∀ e ∈ later, x.mEnd < e.mBeg) :
    Erased (front ++ lb :: later) x (setInsertRest (front ++ later) lb.mBeg x.mBeg) := by
  obtain ⟨-, from_lb, across⟩ := pairwise_append.mp separated.apart
  have around : Separated (front ++ later) := separated.sublist ((sublist_cons_self ..).append_left front)
  have before_lb : ∀ e ∈ front, e.mEnd < lb.mBeg := fun e member => across e member lb mem_cons_self
  have x_later : ∀ e ∈ later, x.mBeg < e.mBeg := fun e member => (touches.trans ends).trans_lt (away e member)
  constructor
  · rw [setInsertRest_between _
      (fun e member => (around.nonempty e (mem_append_left _ member)).trans (before_lb e member))
      fun _ e member => begins.trans_lt (x_later e member)]
    exact separated_restOf around before_lb fun _ => x_later
  · rw [addresses_setInsertRest, addresses_append, addresses_append, addresses_cons]
    ext a
    have left := lt_of_mem_addresses before_lb a
    have right := lt_of_addresses_mem away a
    simp only [Set.mem_union, Set.mem_sdiff, Set.mem_Ico, VMAInterval.mem_addresses]
    grind

lemma erased_cut_right_iff (separated : Separated (front ++ ub :: behind)) (nonempty : x.mBeg < x.mEnd)
    (begins : x.mBeg ≤ ub.mBeg) (touches : ub.mBeg ≤ x.mEnd) (away : ∀ e ∈ front, e.mEnd < x.mBeg) :
    Erased (front ++ ub :: behind) x (setInsertRest (front ++ behind) x.mEnd ub.mEnd) ↔
      ∀ e ∈ behind, x.mEnd ≤ e.mBeg := by
  have after_ub := (pairwise_cons.mp (pairwise_append.mp separated.apart).2.1).1
  have proper := separated.nonempty ub (mem_append_right _ mem_cons_self)
  have around : Separated (front ++ behind) := separated.sublist ((sublist_cons_self ..).append_left front)
  constructor
  · intro erased e member
    by_contra inside
    have here : e.mBeg ∈ addresses (setInsertRest (front ++ behind) x.mEnd ub.mEnd) := by
      rw [addresses_setInsertRest]
      have proper' := around.nonempty e (mem_append_right _ member)
      exact .inr ⟨e, mem_append_right _ member, le_rfl, proper'⟩
    rw [erased.addresses] at here
    exact here.2 ⟨begins.trans (proper.trans (after_ub e member)).le, not_le.mp inside⟩
  · intro later
    have front_x : ∀ e ∈ front, e.mEnd < x.mEnd := fun e member => (away e member).trans nonempty
    constructor
    · rw [setInsertRest_between _
        (fun e member => (around.nonempty e (mem_append_left _ member)).trans (front_x e member))
        fun rest e member => rest.trans (after_ub e member)]
      exact separated_restOf around front_x fun _ => after_ub
    · rw [addresses_setInsertRest, addresses_append, addresses_append, addresses_cons]
      ext a
      have left := lt_of_mem_addresses away a
      have right := lt_of_addresses_mem after_ub a
      have right' := le_of_addresses_mem later a
      simp only [Set.mem_union, Set.mem_sdiff, Set.mem_Ico, VMAInterval.mem_addresses]
      grind

lemma erased_cut_both_iff (separated : Separated (front ++ lb :: ub :: behind)) (nonempty : x.mBeg < x.mEnd)
    (touches : x.mBeg ≤ lb.mEnd) (touches' : ub.mBeg ≤ x.mEnd) :
    Erased (front ++ lb :: ub :: behind) x
      (setInsert (setInsert (front ++ behind) ⟨lb.mBeg, x.mBeg⟩) ⟨x.mEnd, ub.mEnd⟩) ↔
      lb.mBeg < x.mBeg ∧ x.mEnd < ub.mEnd := by
  constructor
  · intro erased
    have left := erased.separated.nonempty ⟨lb.mBeg, x.mBeg⟩ (mem_setInsert.mpr (.inr (mem_setInsert.mpr (.inl rfl))))
    exact ⟨left, erased.separated.nonempty ⟨x.mEnd, ub.mEnd⟩ (mem_setInsert.mpr (.inl rfl))⟩
  · rintro ⟨left, right⟩
    obtain ⟨-, from_lb, across⟩ := pairwise_append.mp separated.apart
    obtain ⟨after_lb, from_ub⟩ := pairwise_cons.mp from_lb
    have after_ub := (pairwise_cons.mp from_ub).1
    have before_lb : ∀ e ∈ front, e.mEnd < lb.mBeg := fun e member => across e member lb mem_cons_self
    have skipped : behind.Sublist (lb :: ub :: behind) := (sublist_cons_self ..).trans (sublist_cons_self ..)
    have around : Separated (front ++ behind) := separated.sublist (skipped.append_left front)
    have x_behind : ∀ e ∈ behind, x.mEnd < e.mBeg := fun e member => right.trans (after_ub e member)
    have rest_left : restOf lb.mBeg x.mBeg = [⟨lb.mBeg, x.mBeg⟩] := if_pos left
    have rest_right : restOf x.mEnd ub.mEnd = [⟨x.mEnd, ub.mEnd⟩] := if_pos right
    have first : setInsert (front ++ behind) ⟨lb.mBeg, x.mBeg⟩ = front ++ restOf lb.mBeg x.mBeg ++ behind := by
      rw [rest_left, setInsert_between (x := ⟨lb.mBeg, x.mBeg⟩)
        (fun e member => (around.nonempty e (mem_append_left _ member)).trans (before_lb e member))
        fun e member => left.trans (nonempty.trans (x_behind e member))]
      simp
    have kept : Separated (front ++ restOf lb.mBeg x.mBeg ++ behind) := separated_restOf around before_lb
      fun _ e member => nonempty.trans (x_behind e member)
    have front_rest : ∀ e ∈ front ++ restOf lb.mBeg x.mBeg, e.mEnd < x.mEnd := by
      intro e member
      rcases mem_append.mp member with member | member
      · exact (before_lb e member).trans (left.trans nonempty)
      · rw [(mem_restOf.mp member).2]
        exact nonempty
    constructor
    · have second := separated_restOf kept front_rest fun _ => after_ub
      rw [rest_right] at second
      rw [first, setInsert_between
        (fun e member => (kept.nonempty e (mem_append_left _ member)).trans (front_rest e member)) x_behind]
      simpa using second
    · rw [addresses_setInsert, addresses_setInsert, addresses_append, addresses_append, addresses_cons, addresses_cons]
      ext a
      have outside := lt_of_mem_addresses before_lb a
      have beyond := lt_of_addresses_mem x_behind a
      have between := after_lb ub mem_cons_self
      simp only [Set.mem_union, Set.mem_sdiff, VMAInterval.mem_addresses]
      grind

/-! ## What is needed for an erasure -/

lemma contains_iff : lb.contains x = true ↔ lb.mBeg ≤ x.mBeg ∧ x.mEnd ≤ lb.mEnd := by simp [VMAInterval.contains]

lemma eraseBetween_member (separated : Separated (before ++ x :: later)) (several : before ≠ [] ∨ later ≠ []) :
    eraseBetween (before ++ x :: later) before later x = before ++ x :: later := by
  obtain ⟨-, from_x, across⟩ := pairwise_append.mp separated.apart
  have behind := (pairwise_cons.mp from_x).1
  have proper := separated.nonempty x (mem_append_right _ mem_cons_self)
  rcases eq_nil_or_concat before with rfl | ⟨front, lb, rfl⟩
  · cases later with
    | nil => simp at several
    | cons ub later => simp [eraseBetween, behind ub mem_cons_self]
  · rw [concat_eq_append] at across ⊢
    have left : lb.mEnd < x.mBeg := across lb (mem_append_right _ mem_cons_self) x mem_cons_self
    have notWithin : ¬ lb.contains x = true := fun within => (left.trans proper).not_ge (contains_iff.mp within).2
    cases later with
    | nil => simp [eraseBetween, notWithin, left]
    | cons ub later =>
      have right := behind ub mem_cons_self
      simp [eraseBetween, notWithin, left, right, left.not_ge, right.not_ge]

lemma erasable_iff (front : ∀ e ∈ before, e.lt x = true) (behind : ∀ e ∈ later, x.lt e = true) :
    Erasable (before ++ later) x ↔
      (∀ e ∈ later, ∀ other ∈ later, e.lt other → x.mEnd ≤ other.mBeg) ∧
        ∀ e ∈ before, ∀ other ∈ later, x.mBeg ≤ e.mEnd → other.mBeg ≤ x.mEnd →
          e.mBeg < x.mBeg ∧ x.mEnd < other.mEnd := by
  have absent : x ∉ before ++ later := by
    intro member
    rcases mem_append.mp member with member | member
    · exact lt_asymm (front x member) (front x member)
    · exact lt_asymm (behind x member) (behind x member)
  have inFront {e : VMAInterval VMA} (member : e ∈ before ++ later) (less : e.lt x = true) : e ∈ before := by
    refine (mem_append.mp member).resolve_right fun member => lt_asymm less (behind e member)
  have inBack {e : VMAInterval VMA} (member : e ∈ before ++ later) (greater : x.lt e = true) : e ∈ later :=
    (mem_append.mp member).resolve_left fun member => lt_asymm greater (front e member)
  constructor
  · intro erasable
    refine ⟨fun e member other member' less => ?_, fun e member other member' => ?_⟩
    · exact erasable.one e (mem_append_right _ member) other (mem_append_right _ member') (behind e member)
        less
    · exact erasable.left e (mem_append_left _ member) other (mem_append_right _ member') (front e member)
        (behind other member')
  · rintro ⟨one, left⟩
    refine ⟨fun member => absurd member absent, ?_, ?_⟩
    · intro e member other member' greater less
      exact one e (inBack member greater) other (inBack member' (lt_trans greater less)) less
    · intro e member other member' less greater
      exact left e (inFront member less) other (inBack member' greater)

lemma one_iff (separated : Separated (ub :: behind)) :
    (∀ e ∈ ub :: behind, ∀ other ∈ ub :: behind, e.lt other → x.mEnd ≤ other.mBeg) ↔ ∀ e ∈ behind, x.mEnd ≤ e.mBeg := by
  have after_ub := (pairwise_cons.mp separated.sorted).1
  constructor
  · exact fun one e member => one ub mem_cons_self e (mem_cons_of_mem ub member) (after_ub e member)
  · intro later e member other member' less
    rcases mem_cons.mp member' with rfl | member'
    · rcases mem_cons.mp member with rfl | member
      · exact absurd less (lt_asymm less)
      · exact absurd less (lt_asymm (after_ub e member))
    · exact later other member'

lemma away_of_first (separated : Separated (ub :: behind)) (first : x.mEnd < ub.mBeg) :
    ∀ e ∈ ub :: behind, x.mEnd < e.mBeg := by
  intro e member
  rcases mem_cons.mp member with rfl | member
  · exact first
  · have after_ub := (pairwise_cons.mp separated.apart).1 e member
    exact first.trans ((separated.nonempty ub mem_cons_self).trans after_ub)

lemma erased_between_iff (separated : Separated (before ++ later)) (nonempty : x.mBeg < x.mEnd)
    (front : ∀ e ∈ before, e.lt x = true) (behind : ∀ e ∈ later, x.lt e = true) :
    Erased (before ++ later) x (eraseBetween (before ++ later) before later x) ↔ Erasable (before ++ later) x := by
  have provided (away : ∀ e ∈ later, x.mEnd < e.mBeg) : Erasable (before ++ later) x :=
    (erasable_iff front behind).mpr ⟨fun _ _ other member _ => (away other member).le,
      fun _ _ other member _ touches => absurd (away other member) (not_lt.mpr touches)⟩
  have begins_lb : ∀ e ∈ before, e.mBeg ≤ x.mBeg := fun e member =>
    (lt_iff.mp (front e member)).elim le_of_lt fun both => both.1.le
  have begins_ub : ∀ e ∈ later, x.mBeg ≤ e.mBeg := fun e member =>
    (lt_iff.mp (behind e member)).elim le_of_lt fun both => both.1.le
  rcases eq_nil_or_concat before with rfl | ⟨front', lb, rfl⟩
  · cases later with
    | nil => exact iff_of_true (erased_self separated (by simp)) (provided (by simp))
    | cons ub later =>
      rw [nil_append] at separated provided ⊢
      by_cases away : x.mEnd < ub.mBeg
      · have all := away_of_first separated away
        rw [show eraseBetween (ub :: later) [] (ub :: later) x = ub :: later by simp [eraseBetween, away]]
        exact iff_of_true (erased_self separated fun e member => .inr (all e member)) (provided all)
      · rw [show eraseBetween (ub :: later) [] (ub :: later) x = setInsertRest ([] ++ later) x.mEnd ub.mEnd by
          simp [eraseBetween, away]]
        have from_ub : Separated ([] ++ ub :: later) := separated
        have cut := erased_cut_right_iff from_ub nonempty (begins_ub ub mem_cons_self) (not_lt.mp away) (by simp)
        have needed := erasable_iff front behind
        rw [one_iff separated] at needed
        exact cut.trans (by simpa using needed.symm)
  · rw [concat_eq_append] at *
    have inside : lb ∈ front' ++ [lb] := mem_append_right _ mem_cons_self
    have begins := begins_lb lb inside
    have whole : front' ++ [lb] ++ later = front' ++ lb :: later := by simp
    have before_lb : ∀ e ∈ front', e.mEnd < lb.mBeg := fun e member =>
      (pairwise_append.mp (whole ▸ separated).apart).2.2 e member lb mem_cons_self
    have ends (notWithin : ¬ lb.contains x = true) : lb.mEnd ≤ x.mEnd :=
      (not_le.mp fun le => notWithin (contains_iff.mpr ⟨begins, le⟩)).le
    have left_of (apart : lb.mEnd < x.mBeg) : ∀ e ∈ front' ++ [lb], e.mEnd < x.mBeg := by
      intro e member
      rcases mem_append.mp member with member | member
      · exact (before_lb e member).trans_le begins
      · rwa [mem_singleton.mp member]
    cases later with
    | nil =>
      refine iff_of_true ?_ (provided (by simp))
      rw [whole] at separated ⊢
      by_cases within : lb.contains x = true
      · have split := erased_split separated nonempty begins (contains_iff.mp within).2
        simpa [eraseBetween, within] using split
      · by_cases touches : lb.mEnd < x.mBeg
        · have kept := erased_self (x := x) separated fun e member => .inl (left_of touches e (whole ▸ member))
          simpa [eraseBetween, within, touches] using kept
        · have cut := erased_cut_left separated begins (not_lt.mp touches) (ends within) (by simp)
          simpa [eraseBetween, within, touches] using cut
    | cons ub later =>
      have right := (erasable_iff front behind).trans (and_congr_left' (one_iff (separated.sublist (by simp))))
      rw [whole] at separated provided right ⊢
      by_cases within : lb.contains x = true
      · have bounds := contains_iff.mp within
        have after_lb := (pairwise_cons.mp (pairwise_append.mp separated.apart).2.1).1
        refine iff_of_true ?_ (provided fun e member => bounds.2.trans_lt (after_lb e member))
        have split := erased_split separated nonempty begins bounds.2
        simpa [eraseBetween, within] using split
      · have from_ub : Separated (ub :: later) := separated.sublist (by simp)
        have begins' := begins_ub ub mem_cons_self
        have after_ub := (pairwise_cons.mp from_ub.apart).1
        by_cases touches : lb.mEnd < x.mBeg
        · have off := left_of touches
          by_cases away : x.mEnd < ub.mBeg
          · have all := away_of_first from_ub away
            have kept := erased_self (x := x) separated fun e member =>
              (mem_append.mp (whole ▸ member)).imp (off e) (all e)
            refine iff_of_true ?_ (provided all)
            simpa [eraseBetween, within, touches, away, not_le.mpr touches, not_le.mpr away] using kept
          · have cut := erased_cut_right_iff (whole ▸ separated) nonempty begins' (not_lt.mp away) off
            have none : ∀ e ∈ front' ++ [lb], ∀ other ∈ ub :: later, x.mBeg ≤ e.mEnd → other.mBeg ≤ x.mEnd →
                e.mBeg < x.mBeg ∧ x.mEnd < other.mEnd := fun e member _ _ reaches =>
              absurd (off e member) (not_lt.mpr reaches)
            rw [right, and_iff_left none, ← cut]
            simp [eraseBetween, within, touches, not_lt.mp away, not_le.mpr touches]
        · have reaches := not_lt.mp touches
          by_cases away : x.mEnd < ub.mBeg
          · have all := away_of_first from_ub away
            have cut := erased_cut_left separated begins reaches (ends within) all
            refine iff_of_true ?_ (provided all)
            simpa [eraseBetween, within, reaches, away] using cut
          · have cut := erased_cut_both_iff separated nonempty reaches (not_lt.mp away)
            have needed : Erasable (front' ++ lb :: ub :: later) x ↔ lb.mBeg < x.mBeg ∧ x.mEnd < ub.mEnd := by
              rw [right]
              refine ⟨fun both => both.2 lb inside ub mem_cons_self reaches (not_lt.mp away), fun rests => ⟨?_, ?_⟩⟩
              · exact fun e member => (rests.2.trans (after_ub e member)).le
              · intro e member other member' reaches' touches'
                obtain rfl : e = lb := by
                  apply mem_singleton.mp
                  exact (mem_append.mp member).resolve_left fun member =>
                    absurd ((before_lb e member).trans_le begins) (not_lt.mpr reaches')
                rcases mem_cons.mp member' with rfl | member'
                · exact rests
                · exact absurd (rests.2.trans (after_ub other member')) (not_lt.mpr touches')
            rw [needed, ← cut]
            simp [eraseBetween, within, touches, away]

/-- An erasure has the effect that it is for just in case its cases provide for it. -/
theorem erased_iff (separated : Separated set) (x : VMAInterval VMA) :
    Erased set x (erase set x) ↔ x.empty ∨ Erasable set x := by
  rw [erase]
  by_cases none : x.empty
  · rw [if_pos none]
    refine iff_of_true ⟨separated, ?_⟩ (.inl none)
    rw [VMAInterval.empty_iff.mp none, Set.sdiff_empty]
  · have nonempty : x.mBeg < x.mEnd := by simpa [VMAInterval.empty] using none
    rw [if_neg none, or_iff_right none]
    obtain ⟨here, whole, front, behind, middle⟩ := parts separated x
    generalize set.takeWhile (·.lt x) = before at whole front ⊢
    generalize (set.dropWhile fun e => ¬ x.lt e) = later at whole behind ⊢
    subst whole
    rcases middle with ⟨rfl, -⟩ | rfl
    · rw [append_nil] at separated ⊢
      exact erased_between_iff separated nonempty front behind
    · rw [append_assoc, singleton_append] at separated ⊢
      have member : x ∈ before ++ x :: later := mem_append_right _ mem_cons_self
      by_cases alone : before = [] ∧ later = []
      · obtain ⟨rfl, rfl⟩ := alone
        refine iff_of_true ⟨separated_nil, ?_⟩ ⟨fun _ => rfl, ?_, ?_⟩
        · simp [eraseBetween]
        · simp [VMAInterval.lt]
        · simp [VMAInterval.lt]
      · rw [eraseBetween_member separated (by tauto)]
        refine iff_of_false (fun erased => ?_) fun erasable => ?_
        · have kept : x.mBeg ∈ addresses (before ++ x :: later) := ⟨x, member, le_rfl, nonempty⟩
          rw [erased.addresses] at kept
          exact kept.2 ⟨le_rfl, nonempty⟩
        · have only := erasable.only member
          simp [append_eq_singleton_iff] at only
          tauto

/-- Two functions of a binary. -/
def twoFunctions : VMAIntervalSet ℕ := [⟨0x400, 0x480⟩, ⟨0x600, 0x690⟩]

/-- A part of the second function is erased. -/
theorem erased_part : Erased twoFunctions ⟨0x610, 0x620⟩ (erase twoFunctions ⟨0x610, 0x620⟩) :=
  (erased_iff ⟨by decide, by decide⟩ _).mpr (.inr ⟨by decide, by decide, by decide⟩)

/-- The whole of the second function is not. -/
theorem member_not_erased : Separated twoFunctions ∧ erase twoFunctions ⟨0x600, 0x690⟩ = twoFunctions ∧
    ¬ Erased twoFunctions ⟨0x600, 0x690⟩ (erase twoFunctions ⟨0x600, 0x690⟩) := by
  have kept : erase twoFunctions ⟨0x600, 0x690⟩ = twoFunctions := by decide
  refine ⟨⟨by decide, by decide⟩, kept, fun erased => ?_⟩
  rw [kept] at erased
  have here : 0x600 ∈ addresses twoFunctions := ⟨⟨0x600, 0x690⟩, by decide, by decide, by decide⟩
  rw [erased.addresses] at here
  exact here.2 ⟨by decide, by decide⟩

end VMAIntervalSet

end HpcToolkit.HpcStruct
