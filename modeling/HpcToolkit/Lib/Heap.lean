import Mathlib

/-! # Binary heaps

An array is a heap if no element has a smaller key than its parent. An element that is put behind a heap rises
until its parent is smaller; it rises to the root if and only if no other element is smaller.
-/

open Array (getElem?_eq_getElem getElem?_swap size_push)

namespace HpcToolkit.Lib

section
variable {T κ : Type} [LinearOrder κ] (key : T → κ)

def IsHeap (heap : Array T) : Prop :=
  ∀ i x y, 0 < i → heap[(i - 1) / 2]? = some x → heap[i]? = some y → key x ≤ key y

/-- The element at a place rises. The result tells whether it became the root. -/
def pushHeap (heap : Array T) (idx : ℕ) (inside : idx < heap.size) : Array T × Bool :=
  if idx = 0 then (heap, true)
  else if key heap[(idx - 1) / 2] < key heap[idx] then (heap, false)
  else pushHeap (heap.swap idx ((idx - 1) / 2)) ((idx - 1) / 2) (by rw [Array.size_swap]; omega)
termination_by idx
decreasing_by omega

/-- A heap up to one place, where the element may be too small. -/
structure Rising (heap : Array T) (idx : ℕ) : Prop where
  others : ∀ i x y, 0 < i → i ≠ idx → heap[(i - 1) / 2]? = some x → heap[i]? = some y → key x ≤ key y
  across : ∀ i x y, 0 < idx → 0 < i → (i - 1) / 2 = idx → heap[(idx - 1) / 2]? = some x → heap[i]? = some y →
    key x ≤ key y

variable {key} {heap : Array T} {idx : ℕ}

lemma IsHeap.root_le (isHeap : IsHeap key heap) {root : T} (first : heap[0]? = some root) {i : ℕ} {x : T}
    (here : heap[i]? = some x) : key root ≤ key x := by
  induction i using Nat.strongRecOn generalizing x with
  | ind i above =>
    by_cases zero : i = 0
    · subst zero
      rw [first] at here
      exact le_of_eq (congrArg key (Option.some_inj.mp here))
    · have inside := (Array.getElem?_eq_some_iff.mp here).1
      have parent : heap[(i - 1) / 2]? = some (heap[(i - 1) / 2]) := getElem?_eq_getElem (by omega)
      exact (above _ (by omega) parent).trans (isHeap i _ _ (by omega) parent here)

lemma Rising.isHeap_of_zero (rising : Rising key heap 0) : IsHeap key heap := by
  intro i x y positive parent child
  exact rising.others i x y positive (by omega) parent child

lemma Rising.isHeap_of_le (rising : Rising key heap idx) {x y : T} (parent : heap[(idx - 1) / 2]? = some x)
    (child : heap[idx]? = some y) (le : key x ≤ key y) : IsHeap key heap := by
  intro i a b positive isParent isChild
  by_cases same : i = idx
  · subst same
    rw [parent] at isParent
    rw [child] at isChild
    cases isParent
    cases isChild
    exact le
  · exact rising.others i a b positive same isParent isChild

lemma Rising.swap (rising : Rising key heap idx) (positive : 0 < idx) (inside : idx < heap.size)
    (le : key heap[idx] ≤ key heap[(idx - 1) / 2]) :
    Rising key (heap.swap idx ((idx - 1) / 2)) ((idx - 1) / 2) := by
  have child : heap[idx]? = some heap[idx] := getElem?_eq_getElem inside
  have parent : heap[(idx - 1) / 2]? = some heap[(idx - 1) / 2] := getElem?_eq_getElem (by omega)
  constructor
  · intro i x y above other isParent isChild
    rw [getElem?_swap] at isParent isChild
    rw [if_neg (Ne.symm other)] at isChild
    by_cases here : idx = i
    · subst here
      rw [if_pos rfl] at isParent isChild
      cases isParent
      cases isChild
      exact le
    · rw [if_neg here] at isChild
      by_cases sibling : (idx - 1) / 2 = (i - 1) / 2
      · rw [if_pos sibling] at isParent
        cases isParent
        exact le.trans (rising.others i _ y above (Ne.symm here) (sibling ▸ parent) isChild)
      · rw [if_neg sibling] at isParent
        by_cases below : idx = (i - 1) / 2
        · rw [if_pos below] at isParent
          cases isParent
          exact rising.across i _ y positive above below.symm parent isChild
        · rw [if_neg below] at isParent
          exact rising.others i x y above (Ne.symm here) isParent isChild
  · intro i x y above below isParent grandparent isChild
    rw [getElem?_swap, if_neg (by omega), if_neg (by omega)] at grandparent
    rw [getElem?_swap, if_neg (by omega)] at isChild
    have upper := rising.others _ _ _ above (by omega) grandparent parent
    by_cases here : idx = i
    · rw [if_pos here] at isChild
      cases isChild
      exact upper
    · rw [if_neg here] at isChild
      exact upper.trans (rising.others i _ y below (Ne.symm here) (by rw [isParent]; exact parent) isChild)

lemma perm_pushHeap (inside : idx < heap.size) : (pushHeap key heap idx inside).1.Perm heap := by
  fun_induction pushHeap key heap idx inside with
  | case1 => exact .rfl
  | case2 => exact .rfl
  | case3 heap idx inside positive le hypothesis => exact hypothesis.trans (Array.swap_perm ..)

lemma isHeap_pushHeap (inside : idx < heap.size) (rising : Rising key heap idx) :
    IsHeap key (pushHeap key heap idx inside).1 := by
  fun_induction pushHeap key heap idx inside with
  | case1 heap => exact rising.isHeap_of_zero
  | case2 heap idx inside positive less =>
    exact rising.isHeap_of_le (getElem?_eq_getElem (by omega)) (getElem?_eq_getElem inside) less.le
  | case3 heap idx inside positive le hypothesis =>
    exact hypothesis (rising.swap (Nat.pos_of_ne_zero positive) inside (not_lt.mp le))

lemma pushHeap_root (key : T → κ) (heap : Array T) (idx : ℕ) (inside : idx < heap.size) :
    ((pushHeap key heap idx inside).2 = true ∧ (pushHeap key heap idx inside).1[0]? = heap[idx]?) ∨
      ((pushHeap key heap idx inside).2 = false ∧ ∃ x ∈ heap, key x < key heap[idx]) := by
  fun_induction pushHeap key heap idx inside with
  | case1 heap => exact .inl ⟨rfl, rfl⟩
  | case2 heap idx inside positive less => exact .inr ⟨rfl, _, Array.getElem_mem _, less⟩
  | case3 heap idx inside positive le hypothesis =>
    have moved : (heap.swap idx ((idx - 1) / 2))[(idx - 1) / 2]? = some heap[idx] := by
      rw [getElem?_swap, if_pos rfl]
    rcases hypothesis with ⟨risen, root⟩ | ⟨stopped, x, member, less⟩
    · exact .inl ⟨risen, root.trans (moved.trans (getElem?_eq_getElem inside).symm)⟩
    · refine .inr ⟨stopped, x, (Array.swap_perm ..).mem_iff.mp member, ?_⟩
      rwa [(Array.getElem?_eq_some_iff.mp moved).2] at less

/-! ## Putting elements in -/

lemma Rising.push (isHeap : IsHeap key heap) (x : T) : Rising key (heap.push x) heap.size := by
  constructor
  · intro i a b positive other parent child
    have inside := (Array.getElem?_eq_some_iff.mp child).1
    rw [size_push] at inside
    rw [Array.getElem?_push, if_neg (by omega)] at parent child
    exact isHeap i a b positive parent child
  · intro i a b positive below isParent parent child
    have inside := (Array.getElem?_eq_some_iff.mp child).1
    rw [size_push] at inside
    omega

/-- `push_back` and the rise of the new element. -/
def pushed (key : T → κ) (heap : Array T) (x : T) : Array T × Bool :=
  pushHeap key (heap.push x) heap.size (by rw [size_push]; omega)

lemma isHeap_pushed (isHeap : IsHeap key heap) (x : T) : IsHeap key (pushed key heap x).1 :=
  isHeap_pushHeap _ (.push isHeap x)

lemma perm_pushed (x : T) : (pushed key heap x).1.Perm (heap.push x) :=
  perm_pushHeap _

lemma size_pushed (x : T) : (pushed key heap x).1.size = heap.size + 1 := by
  rw [(perm_pushed x).size_eq, size_push]

lemma exists_lt_of_pushed {x : T} (stopped : (pushed key heap x).2 = false) : ∃ y ∈ heap, key y < key x := by
  rcases pushHeap_root key (heap.push x) heap.size (by rw [size_push]; omega) with
    ⟨risen, -⟩ | ⟨-, y, member, less⟩
  · exact absurd (risen.symm.trans stopped) (by decide)
  · rw [Array.getElem_push_eq] at less
    refine ⟨y, (Array.mem_push.mp member).resolve_right ?_, less⟩
    rintro rfl
    exact less.false

lemma pushed_isRoot_iff (isHeap : IsHeap key heap) (x : T) :
    (pushed key heap x).2 = true ↔ ∀ y ∈ heap, key x ≤ key y := by
  constructor
  · intro risen y member
    rcases pushHeap_root key (heap.push x) heap.size (by rw [size_push]; omega) with ⟨-, root⟩ | ⟨stopped, -⟩
    · rw [Array.getElem?_push_size] at root
      have kept : y ∈ (pushed key heap x).1 := (perm_pushed x).mem_iff.mpr (Array.mem_push.mpr (.inl member))
      obtain ⟨i, inside, rfl⟩ := Array.mem_iff_getElem.mp kept
      exact (isHeap_pushed isHeap x).root_le root (getElem?_eq_getElem inside)
    · exact absurd (risen.symm.trans stopped) (by decide)
  · intro least
    rw [← Bool.not_eq_false]
    intro stopped
    obtain ⟨y, member, less⟩ := exists_lt_of_pushed stopped
    exact absurd less (not_lt.mpr (least y member))

end

end HpcToolkit.Lib
