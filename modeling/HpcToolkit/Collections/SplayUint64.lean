import HpcToolkit.Lib.MapSpec
import HpcToolkit.Lib.Reachable

/-! # Splay trees of 64-bit keys

The untyped functions below the typed wrappers, over nodes with a key. A caller gives `splay_uint64_insert` a node that
is in no tree, and the tree is what the root pointer points to. The function returns true on both of its paths, so its
result tells nothing about a key that is present.
-/

open List

namespace HpcToolkit.Collections.SplayUint64

open Lib
open STree hiding nil node

variable {α κ : Type*} [LinearOrder κ] (key : α → κ)

inductive Visit where
  | preorder
  | inorder
  | postorder
deriving DecidableEq

inductive Order where
  | inorder
  | allorder

/-- Remove the root of a tree that has one. -/
def splayDeleteRoot : STree α → STree α := deleteRoot key

/-- The result, and the new root. -/
def splayUint64Insert (root : STree α) (node : α) : Bool × STree α :=
  match root with
  | .nil => (true, .node .nil node .nil)
  | .node left y right =>
    match splay key (key node) (.node left y right) with
    | .nil => (true, .node .nil node .nil)
    | .node l x r =>
      if key node < key x then (true, .node l node (.node .nil x r))
      else if key x < key node then (true, .node (.node l x .nil) node r)
      else (true, .node l x r)

def splayUint64Lookup (root : STree α) (k : κ) : Option α × STree α :=
  let root := splay key k root
  (root.root?.filter fun x => decide (key x = k), root)

def splayUint64Delete (root : STree α) (k : κ) : Option α × STree α :=
  match splay key k root with
  | .nil => (none, .nil)
  | .node l x r => if key x = k then (some x, splayDeleteRoot key (.node l x r)) else (none, .node l x r)

def splayForallInorder : STree α → List (α × Visit)
  | .nil => []
  | .node l x r => splayForallInorder l ++ (x, .inorder) :: splayForallInorder r

def splayForallAllorder : STree α → List (α × Visit)
  | .nil => []
  | .node l x r =>
    (x, .preorder) :: splayForallAllorder l ++ (x, .inorder) :: splayForallAllorder r ++ [(x, .postorder)]

/-- The calls of the function that is given, with the node and the visit. -/
def splayUint64Forall (root : STree α) : Order → List (α × Visit)
  | .inorder => splayForallInorder root
  | .allorder => splayForallAllorder root

/-- The number of calls of `splay_count_helper`. -/
def splayUint64Count (root : STree α) : ℕ := (splayUint64Forall root .inorder).length

inductive Op (α κ : Type*) where
  | insert (node : α)
  | lookup (k : κ)
  | delete (k : κ)
  | forall (order : Order)
  | count

inductive Result (α : Type*) where
  | inserted (added : Bool)
  | node (result : Option α)
  | visited (calls : List (α × Visit))
  | counted (n : ℕ)

def exec (root : STree α) : Op α κ → Result α × STree α
  | .insert node => (.inserted (splayUint64Insert key root node).1, (splayUint64Insert key root node).2)
  | .lookup k => (.node (splayUint64Lookup key root k).1, (splayUint64Lookup key root k).2)
  | .delete k => (.node (splayUint64Delete key root k).1, (splayUint64Delete key root k).2)
  | .forall order => (.visited (splayUint64Forall root order), root)
  | .count => (.counted (splayUint64Count root), root)

/-- The nodes that are visited in one way. -/
def visitsOf (visit : Visit) (calls : List (α × Visit)) : List α :=
  (calls.filter fun call => call.2 = visit).map Prod.fst

/-- What an operation promises of the contents before and after it. In all orders each node has one visit of each
kind. -/
def Promised (m m' : κ → Option α) : Op α κ → Result α → Prop
  | .insert node, .inserted added => MapSpec.Inserted key m m' node added
  | .lookup k, .node result => MapSpec.Found m m' k result
  | .delete k, .node result => MapSpec.Removed m m' k result
  | .forall .inorder, .visited calls =>
    MapSpec.Listed key m m' (calls.map Prod.fst) ∧ ∀ call ∈ calls, call.2 = .inorder
  | .forall .allorder, .visited calls =>
    MapSpec.Listed key m m' (visitsOf .inorder calls) ∧
      ∀ visit, (visitsOf visit calls).Perm (visitsOf .inorder calls)
  | .count, .counted n => MapSpec.Counted key m m' n
  | _, _ => False

/-! ## The operations on the contents -/

variable {key} {root : STree α}

section
variable (ordered : root.Ordered key)
include ordered

variable {node : α}

lemma insert_fresh (absent : root.contents key (key node) = none) :
    splayUint64Insert key root node =
      (true, insertRoot key node (splay key (key node) root)) := by
  cases root with
  | nil => rfl
  | node l y r =>
    rw [splayUint64Insert]
    cases splayed : splay key (key node) (.node l y r) with
    | nil => rfl
    | node l' x r' =>
      have differ := root_ne_of_absent key absent splayed
      simp only [insertRoot]
      rcases lt_or_gt_of_ne differ with above | below
      · rw [if_neg above.not_gt, if_pos above, if_neg above.not_gt]
      · rw [if_pos below, if_pos below]

lemma insert_present (present : root.contents key (key node) ≠ none) :
    splayUint64Insert key root node = (true, splay key (key node) root) := by
  cases root with
  | nil => exact absurd rfl present
  | node l y r =>
    rw [splayUint64Insert]
    cases splayed : splay key (key node) (.node l y r) with
    | nil => exact absurd ((splay_eq_nil key (key node)).mp splayed) (by simp)
    | node l' x r' =>
      have same := root_eq_of_present key ordered present splayed
      simp [same]

lemma lookup_eq (k : κ) : splayUint64Lookup key root k = (root.contents key k, splay key k root) := by
  rw [splayUint64Lookup, contents, ordered.find?_eq_root? key]

lemma delete_eq (k : κ) :
    splayUint64Delete key root k =
      (root.contents key k, removeRoot key k (splay key k root)) := by
  rw [splayUint64Delete, contents, ordered.find?_eq_root? key]
  cases splay key k root with
  | nil => rfl
  | node l x r =>
    simp only [root?, Option.filter_some]
    rcases eq_or_ne (key x) k with same | differ
    · rw [if_pos same, splayDeleteRoot, deleteRoot_eq key same, if_pos (decide_eq_true same)]
    · rw [if_neg differ, removeRoot, if_neg differ, if_neg (by simpa using differ)]

lemma lookup_absent {k : κ} (absent : ∀ x ∈ root.toList, key x ≠ k) : (splayUint64Lookup key root k).1 = none := by
  rw [lookup_eq ordered]
  exact (find?_eq_none key).mpr absent

lemma insert_lookup (node : α) (absent : ∀ x ∈ root.toList, key x ≠ key node) :
    (splayUint64Insert key (splayUint64Lookup key root (key node)).2 node).2.Ordered key ∧
      (splayUint64Insert key (splayUint64Lookup key root (key node)).2 node).2.toList.Perm (node :: root.toList) := by
  have splayed := ordered.splay key (key node)
  have empty : (splay key (key node) root).contents key (key node) = none := by
    rw [contents_splay]
    exact (find?_eq_none key).mpr absent
  rw [lookup_eq ordered, insert_fresh splayed empty]
  refine ⟨ordered_insertRoot_splay key splayed empty, (insertRoot_perm ..).trans ?_⟩
  rw [toList_splay, toList_splay]

lemma toList_delete (k : κ) :
    (splayUint64Delete key root k).2.toList = root.toList.filter fun x => decide (key x ≠ k) := by
  rw [delete_eq ordered]
  exact toList_removeRoot key k ordered

end

/-! ## The visits -/

lemma map_splayForallInorder : (splayForallInorder root).map Prod.fst = root.toList := by
  induction root with
  | nil => rfl
  | node l x r ihl ihr => simp [splayForallInorder, ihl, ihr]

lemma visit_splayForallInorder : ∀ call ∈ splayForallInorder root, call.2 = .inorder := by
  induction root with
  | nil => simp [splayForallInorder]
  | node l x r ihl ihr =>
    intro call member
    rw [splayForallInorder, mem_append, mem_cons] at member
    rcases member with left | rfl | right
    · exact ihl call left
    · rfl
    · exact ihr call right

lemma visitsOf_splayForallAllorder : visitsOf .inorder (splayForallAllorder root) = root.toList := by
  induction root with
  | nil => rfl
  | node l x r ihl ihr =>
    simp only [visitsOf] at ihl ihr
    simp [splayForallAllorder, visitsOf, ihl, ihr]

lemma visitsOf_perm (visit : Visit) : (visitsOf visit (splayForallAllorder root)).Perm root.toList := by
  induction root with
  | nil => exact .rfl
  | node l x r ihl ihr =>
    have both := ihl.append ihr
    cases visit with
    | preorder =>
      have visits : visitsOf .preorder (splayForallAllorder (.node l x r)) =
          x :: (visitsOf .preorder (splayForallAllorder l) ++ visitsOf .preorder (splayForallAllorder r)) := by
        simp [splayForallAllorder, visitsOf]
      rw [visits]
      exact (both.cons x).trans perm_middle.symm
    | inorder => exact .of_eq visitsOf_splayForallAllorder
    | postorder =>
      have visits : visitsOf .postorder (splayForallAllorder (.node l x r)) =
          visitsOf .postorder (splayForallAllorder l) ++ visitsOf .postorder (splayForallAllorder r) ++ [x] := by
        simp [splayForallAllorder, visitsOf]
      rw [visits]
      exact (perm_append_singleton x _).trans ((both.cons x).trans perm_middle.symm)

/-! ## Runs -/

lemma exec_ordered (ordered : root.Ordered key) (op : Op α κ) : (exec key root op).2.Ordered key := by
  cases op with
  | insert node =>
    rcases eq_or_ne (root.contents key (key node)) none with absent | present
    · simp only [exec, insert_fresh ordered absent]
      exact ordered_insertRoot_splay key ordered absent
    · simp only [exec, insert_present ordered present]
      exact ordered.splay key _
  | lookup k => exact ordered.splay key k
  | delete k =>
    simp only [exec, delete_eq ordered]
    exact removeRoot_ordered key k ordered
  | «forall» order => exact ordered
  | count => exact ordered

variable (key) in
/-- An insertion of a key that is new. -/
def Fresh (root : STree α) : Op α κ → Prop
  | .insert node => root.contents key (key node) = none
  | _ => True

lemma promised_iff (ordered : root.Ordered key) (op : Op α κ) :
    Promised key (root.contents key) ((exec key root op).2.contents key) op (exec key root op).1 ↔
      Fresh key root op := by
  have listed := listed_toList key ordered
  cases op with
  | insert node =>
    simp only [Fresh]
    constructor
    · rintro ⟨truthful, -⟩
      refine truthful.mp ?_
      rcases eq_or_ne (root.contents key (key node)) none with absent | present
      · rw [insert_fresh ordered absent]
      · rw [insert_present ordered present]
    · intro absent
      simp only [exec, insert_fresh ordered absent, Promised, MapSpec.Inserted, if_pos absent]
      exact ⟨⟨fun _ => absent, fun _ => trivial⟩, contents_insertRoot key ordered absent⟩
  | lookup k =>
    simp only [exec, lookup_eq ordered, Fresh, iff_true]
    exact ⟨rfl, contents_splay key⟩
  | delete k =>
    simp only [exec, delete_eq ordered, Fresh, iff_true]
    exact ⟨rfl, contents_removeRoot key ordered⟩
  | «forall» order =>
    cases order with
    | inorder =>
      simp only [exec, Fresh, iff_true, Promised, splayUint64Forall, map_splayForallInorder]
      exact ⟨listed, visit_splayForallInorder⟩
    | allorder =>
      simp only [exec, Fresh, iff_true, Promised, splayUint64Forall, visitsOf_splayForallAllorder]
      exact ⟨listed, visitsOf_perm⟩
  | count =>
    simp only [exec, Fresh, iff_true]
    refine ⟨root.toList, listed, ?_⟩
    rw [splayUint64Count, splayUint64Forall, ← map_splayForallInorder, length_map]

variable (key) in
/-- A sequence of operations is that of a map, with results that are true, exactly if no key is inserted that is
present. -/
theorem truthful_iff_fresh (ops : List (Op α κ)) :
    EachStep (exec key) (fun root op result root' => Promised key (root.contents key) (root'.contents key) op result)
        .nil ops ↔
      EachStep (exec key) (fun root op _ _ => Fresh key root op) .nil ops :=
  eachStep_iff (fun root => root.Ordered key) (fun _ op ordered _ => exec_ordered ordered op)
    (fun _ op ordered => promised_iff ordered op) (by simp [STree.Ordered]) ops

/-- The second insertion of a key leaves the tree as it is and says that it succeeded. -/
theorem second_insert_succeeds :
    ¬ EachStep (exec (id : ℕ → ℕ))
      (fun root op result root' => Promised id (root.contents id) (root'.contents id) op result) .nil
      [.insert 5, .insert 5] := by
  rintro ⟨-, ⟨truthful, -⟩, -⟩
  have present : ((exec id (.nil : STree ℕ) (.insert 5)).2.contents id) 5 = some 5 := by decide
  exact absurd (present.symm.trans (truthful.mp rfl)) (by decide)

end HpcToolkit.Collections.SplayUint64
