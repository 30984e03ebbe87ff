import HpcToolkit.Lib.MapSpec
import HpcToolkit.Lib.Reachable

/-! # The generic splay tree

`insert` splays by a copy of the root pointer. Splaying moves nodes, so when the copy is not written back the tree hangs
from the node that was its root before, wherever that node is now: an insertion that fails leaves the part of the splayed
tree below the old root. The other operations splay by the root pointer itself.
-/

namespace HpcToolkit.Collections.SplayTree

open Lib
open STree hiding nil node

variable {α κ : Type*} [LinearOrder κ] (key : α → κ)

/-- Remove the root of a tree that has one. -/
def deleteRoot : STree α → STree α := STree.deleteRoot key

/-- The result, and the tree below the root pointer. -/
def insert (tree : STree α) (entry : α) : Bool × STree α :=
  match tree with
  | .nil => (true, .node .nil entry .nil)
  | .node left oldRoot right =>
    match splay key (key entry) (.node left oldRoot right) with
    | .nil => (true, .node .nil entry .nil)
    | .node l x r =>
      if key entry < key x then (true, .node l entry (.node .nil x r))
      else if key x < key entry then (true, .node (.node l x .nil) entry r)
      -- the root pointer is not written back
      else (false, subtreeAt key (key oldRoot) (.node l x r))

def lookup (tree : STree α) (k : κ) : Option α × STree α :=
  let tree := splay key k tree
  (tree.root?.filter fun x => decide (key x = k), tree)

def delete (tree : STree α) (k : κ) : Option α × STree α :=
  match splay key k tree with
  | .nil => (none, .nil)
  | .node l x r => if key x = k then (some x, deleteRoot key (.node l x r)) else (none, .node l x r)

/-- The calls of the function that is given. -/
def forEach : STree α → List α
  | .nil => []
  | .node l x r => forEach l ++ x :: forEach r

def empty (tree : STree α) : Bool := tree.isEmpty

/-- The number of calls of `count_helper`. -/
def size (tree : STree α) : ℕ := (forEach tree).length

inductive Op (α κ : Type*) where
  | insert (entry : α)
  | lookup (k : κ)
  | delete (k : κ)
  | forEach
  | empty
  | size

inductive Result (α : Type*) where
  | flag (result : Bool)
  | entry (result : Option α)
  | visited (entries : List α)
  | count (n : ℕ)

def exec (tree : STree α) : Op α κ → Result α × STree α
  | .insert entry => (.flag (insert key tree entry).1, (insert key tree entry).2)
  | .lookup k => (.entry (lookup key tree k).1, (lookup key tree k).2)
  | .delete k => (.entry (delete key tree k).1, (delete key tree k).2)
  | .forEach => (.visited (forEach tree), tree)
  | .empty => (.flag (empty tree), tree)
  | .size => (.count (size tree), tree)

/-- What an operation promises of the contents before and after it. -/
def Promised (m m' : κ → Option α) : Op α κ → Result α → Prop
  | .insert entry, .flag added => MapSpec.Inserted key m m' entry added
  | .lookup k, .entry result => MapSpec.Found m m' k result
  | .delete k, .entry result => MapSpec.Removed m m' k result
  | .forEach, .visited entries => MapSpec.Listed key m m' entries
  | .empty, .flag result => (result = true ↔ ∀ k, m k = none) ∧ m' = m
  | .size, .count n => MapSpec.Counted key m m' n
  | _, _ => False

/-! ## The operations on the contents -/

variable {key} {tree : STree α}

lemma forEach_eq : forEach tree = tree.toList := by
  induction tree with
  | nil => rfl
  | node l x r ihl ihr => rw [forEach, ihl, ihr, toList_node]

section
variable (ordered : tree.Ordered key)
include ordered

lemma insert_fresh {entry : α} (absent : tree.contents key (key entry) = none) :
    insert key tree entry = (true, insertRoot key entry (splay key (key entry) tree)) := by
  cases tree with
  | nil => rfl
  | node l y r =>
    rw [insert]
    cases splayed : splay key (key entry) (.node l y r) with
    | nil => rfl
    | node l' x r' =>
      have differ := root_ne_of_absent key absent splayed
      simp only [insertRoot]
      rcases lt_or_gt_of_ne differ with above | below
      · rw [if_neg above.not_gt, if_pos above, if_neg above.not_gt]
      · rw [if_pos below, if_pos below]

lemma insert_present {entry oldRoot : α} {left right : STree α} (shape : tree = .node left oldRoot right)
    (present : tree.contents key (key entry) ≠ none) :
    ∃ l x r, splay key (key entry) tree = .node l x r ∧ key x = key entry ∧
      insert key tree entry = (false, subtreeAt key (key oldRoot) (.node l x r)) := by
  subst shape
  rw [insert]
  cases splayed : splay key (key entry) (.node left oldRoot right) with
  | nil => exact absurd ((splay_eq_nil key (key entry)).mp splayed) (by simp)
  | node l x r =>
    have same := root_eq_of_present key ordered present splayed
    exact ⟨l, x, r, rfl, same, by simp [same]⟩

lemma lookup_eq (k : κ) : lookup key tree k = (tree.contents key k, splay key k tree) := by
  rw [lookup, contents, ordered.find?_eq_root? key]

lemma delete_eq (k : κ) :
    delete key tree k = (tree.contents key k, removeRoot key k (splay key k tree)) := by
  rw [delete, contents, ordered.find?_eq_root? key]
  cases splay key k tree with
  | nil => rfl
  | node l x r =>
    simp only [root?, Option.filter_some]
    rcases eq_or_ne (key x) k with same | differ
    · rw [if_pos same, deleteRoot, STree.deleteRoot_eq key same, if_pos (decide_eq_true same)]
    · rw [if_neg differ, removeRoot, if_neg differ, if_neg (by simpa using differ)]

end

/-! ## Runs -/

variable (key) in
/-- An insertion of a key that is new, or is the key of the root. -/
def WritesBack (tree : STree α) : Op α κ → Prop
  | .insert entry => tree.contents key (key entry) = none ∨ ∀ x ∈ tree.root?, key x = key entry
  | _ => True

lemma insert_root (ordered : tree.Ordered key) {entry : α} (present : tree.contents key (key entry) ≠ none)
    (root : ∀ x ∈ tree.root?, key x = key entry) :
    insert key tree entry = (false, splay key (key entry) tree) := by
  cases tree with
  | nil => exact absurd rfl present
  | node left oldRoot right =>
    obtain ⟨l, x, r, splayed, same, result⟩ := insert_present ordered rfl present
    have whole : subtreeAt key (key oldRoot) (.node l x r) = .node l x r := by
      rw [root oldRoot rfl, ← same, subtreeAt, if_neg (lt_irrefl _), if_neg (lt_irrefl _)]
    rw [result, whole, splayed]

lemma insert_loses (ordered : tree.Ordered key) {entry oldRoot : α} {left right : STree α}
    (shape : tree = .node left oldRoot right) (present : tree.contents key (key entry) ≠ none)
    (differ : key oldRoot ≠ key entry) : (insert key tree entry).2.contents key (key entry) = none := by
  obtain ⟨l, x, r, splayed, same, result⟩ := insert_present ordered shape present
  have moved : (STree.node l x r).Ordered key := splayed ▸ ordered.splay key (key entry)
  rw [result, ← same]
  exact contents_subtreeAt_of_ne key moved (same ▸ differ)

lemma exec_ordered (ordered : tree.Ordered key) (op : Op α κ) (meets : WritesBack key tree op) :
    (exec key tree op).2.Ordered key := by
  cases op with
  | insert entry =>
    rcases eq_or_ne (tree.contents key (key entry)) none with absent | present
    · simp only [exec, insert_fresh ordered absent]
      exact ordered_insertRoot_splay key ordered absent
    · simp only [exec, insert_root ordered present (meets.resolve_left present)]
      exact ordered.splay key _
  | lookup k => exact ordered.splay key k
  | delete k =>
    simp only [exec, delete_eq ordered]
    exact removeRoot_ordered key k ordered
  | forEach => exact ordered
  | empty => exact ordered
  | size => exact ordered

variable (key) in
lemma empty_iff : empty tree = true ↔ ∀ k, tree.contents key k = none := by
  cases tree with
  | nil => simp [empty, isEmpty]
  | node l x r =>
    simp only [empty, isEmpty, Bool.false_eq_true, false_iff, not_forall]
    refine ⟨key x, fun absent => ?_⟩
    exact (find?_eq_none key).mp absent x (by simp) rfl

lemma promised_iff (ordered : tree.Ordered key) (op : Op α κ) :
    Promised key (tree.contents key) ((exec key tree op).2.contents key) op (exec key tree op).1 ↔
      WritesBack key tree op := by
  have listed := listed_toList key ordered
  cases op with
  | insert entry =>
    rcases eq_or_ne (tree.contents key (key entry)) none with absent | present
    · simp only [exec, insert_fresh ordered absent, Promised, MapSpec.Inserted, WritesBack, absent,
        true_or, iff_true]
      exact ⟨trivial, contents_insertRoot key ordered absent⟩
    · constructor
      · rintro ⟨-, kept⟩
        right
        intro oldRoot root
        cases tree with
        | nil => exact absurd root (by simp [root?])
        | node left y right =>
          obtain rfl : y = oldRoot := by simpa [root?] using root
          by_contra differ
          have lost := insert_loses ordered rfl present differ
          rw [if_neg present] at kept
          exact present (kept ▸ lost)
      · intro meets
        simp only [exec, insert_root ordered present (meets.resolve_left present), Promised, MapSpec.Inserted,
          present, Bool.false_eq_true, contents_splay]
        exact ⟨trivial, (if_neg id).symm⟩
  | lookup k =>
    simp only [exec, lookup_eq ordered, WritesBack, iff_true]
    exact ⟨rfl, contents_splay key⟩
  | delete k =>
    simp only [exec, delete_eq ordered, WritesBack, iff_true]
    exact ⟨rfl, contents_removeRoot key ordered⟩
  | forEach =>
    simp only [exec, WritesBack, iff_true, Promised, forEach_eq]
    exact listed
  | empty =>
    simp only [exec, WritesBack, Promised, empty_iff key, and_true]
  | size =>
    simp only [exec, WritesBack, iff_true]
    exact ⟨tree.toList, listed, by rw [size, forEach_eq]⟩

variable (key) in
/-- A sequence of operations is that of a map exactly if no insertion is refused below the root. -/
theorem map_iff_writesBack (ops : List (Op α κ)) :
    EachStep (exec key) (fun tree op result tree' => Promised key (tree.contents key) (tree'.contents key) op result)
        .nil ops ↔
      EachStep (exec key) (fun tree op _ _ => WritesBack key tree op) .nil ops :=
  eachStep_iff (fun tree => tree.Ordered key) (fun _ op ordered => exec_ordered ordered op)
    (fun _ op ordered => promised_iff ordered op) (by simp [STree.Ordered]) ops

/-- Two entries are inserted, and then the first again: the tree has only the second. -/
theorem refused_insert_loses :
    ¬ EachStep (exec (id : ℕ → ℕ))
      (fun tree op result tree' => Promised id (tree.contents id) (tree'.contents id) op result) .nil
      [.insert 1, .insert 2, .insert 1] := by
  rintro ⟨-, -, ⟨-, kept⟩, -⟩
  have lost := congrFun kept 1
  exact absurd lost (by decide)

end HpcToolkit.Collections.SplayTree
