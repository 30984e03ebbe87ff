import HpcToolkit.Lib.Splay

/-! # What the operations of an ordered map promise

The contents of a container of entries are the partial function from a key to the entry with that key. Each of the
relations below is the promise of one operation: they relate the contents before and after it and what it returned.
An ordered tree has the contents that `find?` finds, and its symmetric order is the listing of them.
-/

open Function List

namespace HpcToolkit.Lib

namespace MapSpec

variable {α κ : Type*} [LinearOrder κ] (key : α → κ) (m m' : κ → Option α)

/-- An entry whose key is new is added; otherwise nothing changes, and the result tells which. -/
def Inserted (x : α) (added : Bool) : Prop :=
  (added = true ↔ m (key x) = none) ∧ m' = if m (key x) = none then update m (key x) (some x) else m

variable {key} in
def Found (k : κ) (result : Option α) : Prop := result = m k ∧ m' = m

variable {key} in
/-- The entry with the key is returned and gone. -/
def Removed (k : κ) (result : Option α) : Prop := result = m k ∧ m' = update m k none

/-- Each entry is visited once, in increasing order of the keys. -/
def Listed (visited : List α) : Prop :=
  visited.Pairwise (fun x y => key x < key y) ∧ (∀ x, x ∈ visited ↔ m (key x) = some x) ∧ m' = m

/-- The number of the entries. -/
def Counted (n : ℕ) : Prop := ∃ visited, Listed key m m' visited ∧ n = visited.length

end MapSpec

namespace STree

variable {α κ : Type*} [LinearOrder κ] (key : α → κ) {t : STree α} {x : α} {k : κ}

/-- The contents of a tree. -/
def contents (t : STree α) : κ → Option α := t.find? key

@[simp] lemma contents_nil : (nil : STree α).contents key = fun _ => none := rfl

@[simp] lemma contents_splay : (splay key k t).contents key = t.contents key :=
  funext fun q => find?_splay key k t q

lemma listed_toList (ordered : t.Ordered key) : MapSpec.Listed key (t.contents key) (t.contents key) t.toList := by
  refine ⟨ordered, ?_, rfl⟩
  intro x
  rw [contents, ordered.find?_eq_some key]
  exact ⟨fun member => ⟨member, rfl⟩, And.left⟩

variable {y : α} {l r : STree α}

lemma root_ne_of_absent (absent : t.contents key k = none)
    (root : splay key k t = node l y r) : key y ≠ k := by
  refine (find?_eq_none key).mp absent y ?_
  rw [← toList_splay key k, root]
  simp

lemma root_eq_of_present (ordered : t.Ordered key) (present : t.contents key k ≠ none)
    (root : splay key k t = node l y r) : key y = k := by
  by_contra differ
  exact present (find?_of_splay_ne key k ordered root differ)

/-- Take the root off a tree that has one: its left subtree is splayed for the key of the root, which leaves no right
subtree there, and the right subtree is attached to it. -/
def deleteRoot : STree α → STree α
  | nil => nil
  | node l x r =>
    if l.isEmpty then r
    else
      match splay key (key x) l with
      | nil => r
      | node l y _ => node l y r

lemma deleteRoot_eq (same : key x = k) :
    deleteRoot key (node l x r) = removeRoot key k (node l x r) := by
  rw [removeRoot, if_pos same, deleteRoot, same]
  cases l with
  | nil => rfl
  | node l y r' => rfl

lemma mem_subtreeAt (member : y ∈ (subtreeAt key k t).toList) : y ∈ t.toList := by
  induction t with
  | nil => exact member
  | node l x r ihl ihr =>
    rw [subtreeAt] at member
    split at member
    · exact mem_append_left _ (ihl member)
    · split at member
      · exact mem_append_right _ (mem_cons_of_mem _ (ihr member))
      · exact member

lemma contents_subtreeAt_of_ne (ordered : (node l x r).Ordered key) (differ : k ≠ key x) :
    (subtreeAt key k (node l x r)).contents key (key x) = none := by
  obtain ⟨-, -, below, above⟩ := (ordered_node key).mp ordered
  refine (find?_eq_none key).mpr ?_
  intro y member
  rw [subtreeAt] at member
  rcases lt_or_gt_of_ne differ with less | greater
  · rw [if_pos less] at member
    exact (below y (mem_subtreeAt key member)).ne
  · rw [if_neg greater.not_gt, if_pos greater] at member
    exact (above y (mem_subtreeAt key member)).ne'

lemma contents_insertRoot (ordered : t.Ordered key) (absent : t.contents key (key x) = none) :
    (insertRoot key x (splay key (key x) t)).contents key = update (t.contents key) (key x) (some x) := by
  funext q
  rw [contents, find?_insertRoot key ordered absent, update_apply, contents]

lemma ordered_insertRoot_splay (ordered : t.Ordered key) (absent : t.contents key (key x) = none) :
    (insertRoot key x (splay key (key x) t)).Ordered key := by
  refine insertRoot_ordered key (ordered.splay key (key x)) (splits_splay key _ ordered) ?_
  rw [toList_splay]
  exact (find?_eq_none key).mp absent

lemma contents_removeRoot (ordered : t.Ordered key) :
    (removeRoot key k (splay key k t)).contents key = update (t.contents key) k none := by
  funext q
  rw [contents, find?_removeRoot key k ordered, update_apply, contents]

end STree

end HpcToolkit.Lib
