import Mathlib

/-! # Merging all values of a list

The values of a list under an operation that has no neutral element: nothing for the empty list. With an associative
and commutative operation the order of the values does not matter, with an idempotent one their number does not
either. -/

open List

namespace HpcToolkit.Lib

variable {V : Type} (op : V → V → V)

def mergeAll (values : List V) : Option V :=
  (values.map some).foldl (Option.merge op) none

@[simp] lemma mergeAll_nil : mergeAll op [] = none := rfl

@[simp] lemma mergeAll_singleton (v : V) : mergeAll op [v] = some v := rfl

lemma mergeAll_isSome_iff {values : List V} : (mergeAll op values).isSome ↔ values ≠ [] := by
  have grows : ∀ (rest : List V) (acc : Option V),
      ((rest.map some).foldl (Option.merge op) acc).isSome = (acc.isSome || !rest.isEmpty) := by
    intro rest
    induction rest with
    | nil => simp
    | cons v rest ih => simp [ih, Option.isSome_merge]
  simp [mergeAll, grows]

variable {op} [Std.Associative op]

lemma merge_assoc (a b c : Option V) :
    Option.merge op (Option.merge op a b) c = Option.merge op a (Option.merge op b c) :=
  Std.Associative.assoc a b c

lemma foldl_merge (values : List (Option V)) (first : Option V) :
    values.foldl (Option.merge op) first = Option.merge op first (values.foldl (Option.merge op) none) := by
  conv_lhs => rw [← Option.merge_none_right (f := op) (a := first)]
  exact foldl_assoc

lemma foldl_merge_flatten (lists : List (List (Option V))) :
    (lists.map fun values => values.foldl (Option.merge op) none).foldl (Option.merge op) none =
      lists.flatten.foldl (Option.merge op) none := by
  induction lists with
  | nil => rfl
  | cons values lists ih =>
    rw [map_cons, foldl_cons, Option.merge_none_left, foldl_merge, ih, flatten_cons, foldl_append]
    exact (foldl_merge lists.flatten _).symm

lemma mergeAll_append (left right : List V) :
    mergeAll op (left ++ right) = Option.merge op (mergeAll op left) (mergeAll op right) := by
  rw [mergeAll, map_append, foldl_append, foldl_merge, mergeAll, mergeAll]

lemma mergeAll_cons (v : V) (values : List V) :
    mergeAll op (v :: values) = Option.merge op (some v) (mergeAll op values) :=
  mergeAll_append [v] values

variable [Std.Commutative op]

variable {left right : List V}

lemma mergeAll_perm (same : left.Perm right) : mergeAll op left = mergeAll op right :=
  (same.map some).foldl_op_eq

variable [Std.IdempotentOp op]

omit [Std.Associative op] [Std.Commutative op] in
lemma merge_self (a : Option V) : Option.merge op a a = a := Std.IdempotentOp.idempotent a

lemma merge_mergeAll_of_subset (within : left ⊆ right) :
    Option.merge op (mergeAll op left) (mergeAll op right) = mergeAll op right := by
  induction left with
  | nil => exact Option.merge_none_left
  | cons v left ih =>
    obtain ⟨member, rest⟩ := cons_subset.mp within
    obtain ⟨before, after, rfl⟩ := append_of_mem member
    have front : mergeAll op (before ++ v :: after) = Option.merge op (some v) (mergeAll op (before ++ after)) := by
      rw [mergeAll_perm perm_middle, mergeAll_cons]
    rw [mergeAll_cons, merge_assoc, ih rest, front, ← merge_assoc, merge_self]

lemma mergeAll_congr (same : ∀ v, v ∈ left ↔ v ∈ right) :
    mergeAll op left = mergeAll op right :=
  calc mergeAll op left = Option.merge op (mergeAll op right) (mergeAll op left) :=
        (merge_mergeAll_of_subset fun v => (same v).mpr).symm
    _ = Option.merge op (mergeAll op left) (mergeAll op right) := Std.Commutative.comm _ _
    _ = mergeAll op right := merge_mergeAll_of_subset fun v => (same v).mp

end HpcToolkit.Lib
