import Mathlib
import HpcToolkit.Lib.LinkedTree

/-! # The balanced tree

The tree is shared, so that each operation is made under a lock, one after another. The nodes have numbers, in the order
in which they are allocated; an operation that follows a null pointer has no result, and neither has a loop that goes on
after a step for each node.

`insert` gives the new node its parent and never makes it the child of that parent.
-/

open List
open Prod (fst)

namespace HpcToolkit.Collections

open Lib

inductive BalancedTreeColor where
  | red
  | black
deriving DecidableEq

structure BalancedTreeNode (κ : Type) where
  parent : Option ℕ
  left : Option ℕ
  right : Option ℕ
  color : BalancedTreeColor
  key : κ
deriving DecidableEq

variable {κ : Type}

def BalancedTreeNode.init (key : κ) (parent : Option ℕ) : BalancedTreeNode κ where
  parent := parent
  left := none
  right := none
  color := .red
  key := key

structure BalancedTree (κ : Type) where
  root : Option ℕ
  size : ℕ
  nodes : List (BalancedTreeNode κ)
deriving DecidableEq

namespace BalancedTree

def init : BalancedTree κ := ⟨none, 0, []⟩

variable (tree : BalancedTree κ)

/-- What a pointer points to. -/
def node (x : ℕ) : Option (BalancedTreeNode κ) := tree.nodes[x]?

def modify (x : ℕ) (f : BalancedTreeNode κ → BalancedTreeNode κ) : BalancedTree κ :=
  { tree with nodes := tree.nodes.modify x f }

def setColor (x : ℕ) (color : BalancedTreeColor) : BalancedTree κ := tree.modify x fun node => { node with color := color }

def setParent (x : ℕ) (parent : Option ℕ) : BalancedTree κ := tree.modify x fun node => { node with parent := parent }

def setLeft (x : ℕ) (left : Option ℕ) : BalancedTree κ := tree.modify x fun node => { node with left := left }

def setRight (x : ℕ) (right : Option ℕ) : BalancedTree κ := tree.modify x fun node => { node with right := right }

/-- A pointer to a red node. -/
def isRed : Option ℕ → Option Bool
  | none => some false
  | some y => do
    let node ← tree.node y
    some (node.color = .red)

/-- Move `y` to the old position of `x`, whose parent it takes over. -/
def replaceChild (x y : ℕ) : Option (BalancedTree κ) := do
  let node ← tree.node x
  let tree := tree.setParent y node.parent
  match node.parent with
  | none => some { tree with root := some y }
  | some parent => do
    let above ← tree.node parent
    some (if above.left = some x then tree.setLeft parent (some y) else tree.setRight parent (some y))

def leftRotate (x : ℕ) : Option (BalancedTree κ) := do
  let y ← (← tree.node x).right
  let b := (← tree.node y).left
  let tree := tree.setRight x b
  let tree := match b with
    | none => tree
    | some b => tree.setParent b (some x)
  let tree ← tree.replaceChild x y
  some ((tree.setLeft y (some x)).setParent x (some y))

def rightRotate (y : ℕ) : Option (BalancedTree κ) := do
  let x ← (← tree.node y).left
  let b := (← tree.node x).right
  let tree := tree.setLeft y b
  let tree := match b with
    | none => tree
    | some b => tree.setParent b (some y)
  let tree ← tree.replaceChild y x
  some ((tree.setRight x (some y)).setParent y (some x))

/-- The parent and the grandparent of a node. -/
def ancestors (x : ℕ) : Option (ℕ × ℕ) := do
  let parent ← (← tree.node x).parent
  let gparent ← (← tree.node parent).parent
  some (parent, gparent)

/-- The parent is the left child of the grandparent. -/
def fixLeft (x parent gparent : ℕ) : Option (BalancedTree κ × ℕ) := do
  let y := (← tree.node gparent).right
  match y, ← tree.isRed y with
  | some y, true => some (((tree.setColor parent .black).setColor y .black).setColor gparent .red, gparent)
  | _, _ =>
    if (← tree.node parent).right = some x then do
      let tree ← tree.leftRotate parent
      let (above, top) ← tree.ancestors parent
      let tree ← ((tree.setColor above .black).setColor top .red).rightRotate top
      some (tree, parent)
    else do
      let tree ← ((tree.setColor parent .black).setColor gparent .red).rightRotate gparent
      some (tree, x)

/-- The parent is not the left child of the grandparent. -/
def fixRight (x parent gparent : ℕ) : Option (BalancedTree κ × ℕ) := do
  let y := (← tree.node gparent).left
  match y, ← tree.isRed y with
  | some y, true => some (((tree.setColor parent .black).setColor y .black).setColor gparent .red, gparent)
  | _, _ =>
    if (← tree.node parent).left = some x then do
      let tree ← tree.rightRotate parent
      let (above, top) ← tree.ancestors parent
      let tree ← ((tree.setColor above .black).setColor top .red).leftRotate top
      some (tree, parent)
    else do
      let tree ← ((tree.setColor parent .black).setColor gparent .red).leftRotate gparent
      some (tree, x)

/-- The loop that rebalances from `x` on. -/
def rebalance : ℕ → BalancedTree κ → ℕ → Option (BalancedTree κ)
  | fuel, tree, x =>
    if tree.root = some x then some tree
    else do
      let parent ← (← tree.node x).parent
      if (← tree.node parent).color = .red then
        match fuel with
        | 0 => none
        | fuel + 1 => do
          let gparent ← (← tree.node parent).parent
          let (tree, x) ←
            if (← tree.node gparent).left = some parent then tree.fixLeft x parent gparent
            else tree.fixRight x parent gparent
          rebalance fuel tree x
      else some tree

variable [LinearOrder κ]

/-- The node with the key, or null. -/
def findLoop (key : κ) : ℕ → Option ℕ → Option (Option ℕ)
  | _, none => some none
  | 0, some _ => none
  | fuel + 1, some curr => do
    let node ← tree.node curr
    if node.key = key then some (some curr)
    else findLoop key fuel (if key < node.key then node.left else node.right)

def find (key : κ) : Option (Option ℕ) := tree.findLoop key tree.nodes.length tree.root

/-- The node with the key, or null and the node where the descent has ended. -/
def searchLoop (key : κ) : ℕ → Option ℕ → Option ℕ → Option (Option ℕ × Option ℕ)
  | _, none, parent => some (none, parent)
  | 0, some _, _ => none
  | fuel + 1, some x, parent => do
    let node ← tree.node x
    if node.key = key then some (some x, parent)
    else searchLoop key fuel (if key < node.key then node.left else node.right) (some x)

/-- The node of a key that is not there yet. -/
def insertNew (key : κ) (parent : Option ℕ) : Option (ℕ × BalancedTree κ) := do
  let x := tree.nodes.length
  let tree := { tree with nodes := tree.nodes ++ [BalancedTreeNode.init key parent], size := (tree.size + 1) % 2 ^ 32 }
  let tree := if tree.root.isNone then { tree with root := some x } else tree
  let tree ← rebalance tree.nodes.length tree x
  let root ← tree.root
  some (x, tree.setColor root .black)

def insert (key : κ) : Option (ℕ × BalancedTree κ) := do
  match ← tree.searchLoop key tree.nodes.length tree.root none with
  | (some found, _) => some (found, tree)
  | (none, parent) => tree.insertNew key parent

/-- A sequence of insertions, with the node that each one returns. -/
def insertAll (keys : List κ) : Option (BalancedTree κ × List (κ × ℕ)) :=
  keys.foldlM (fun (tree, log) key => do
    let (found, tree) ← tree.insert key
    some (tree, log ++ [(key, found)])) (init, [])

/-! ## A map -/

/-- The nodes are in increasing order of their keys. -/
def SearchOrder (nodes : STree ℕ) : Prop :=
  nodes.toList.Pairwise fun a b => ∀ x ∈ tree.node a, ∀ y ∈ tree.node b, x.key < y.key

/-- The children of a red node are black. -/
def RedBlack : STree ℕ → Prop
  | .nil => True
  | .node l a r =>
    RedBlack l ∧ RedBlack r ∧
      (tree.isRed (some a) = some true → tree.isRed l.root? = some false ∧ tree.isRed r.root? = some false)

/-- All paths have the same number of black nodes. -/
def BlackHeight : STree ℕ → ℕ → Prop
  | .nil, n => n = 0
  | .node l a r, n =>
    ∃ m, BlackHeight l m ∧ BlackHeight r m ∧ n = if tree.isRed (some a) = some true then m else m + 1

/-- The tree is that of the insertions made so far. -/
structure IsMap (log : List (κ × ℕ)) : Prop where
  found : ∀ entry ∈ log, tree.find entry.1 = some (some entry.2)
  absent : ∀ key ∉ log.map fst, tree.find key = some none
  size : tree.size = (log.map fst).toFinset.card
  shape : ∃ nodes : STree ℕ,
    nodes.Linked (fun a => tree.node a >>= (·.left)) (fun a => tree.node a >>= (·.right)) tree.root ∧
      tree.SearchOrder nodes ∧ tree.RedBlack nodes ∧ ∃ n, tree.BlackHeight nodes n

/-! ## The root stays alone -/

/-- The root is the first node that was allocated, black and without children. -/
structure Lone (key : κ) : Prop where
  root : tree.root = some 0
  node : tree.node 0 = some ⟨none, none, none, .black, key⟩

variable {tree} {k k' : κ}

section
variable (lone : tree.Lone k)
include lone

omit [LinearOrder κ] in
lemma Lone.length : ∃ n, tree.nodes.length = n + 1 :=
  Nat.exists_eq_succ_of_ne_zero fun empty => by
    have missing : tree.node 0 = none := getElem?_eq_none (by omega)
    exact absurd (lone.node.symm.trans missing) (by simp)

lemma Lone.find (k' : κ) : tree.find k' = some (if k = k' then some 0 else none) := by
  obtain ⟨n, length⟩ := lone.length
  rw [BalancedTree.find, lone.root, length, findLoop, lone.node]
  simp only [Option.bind_eq_bind, Option.bind_some, ite_self]
  split
  · rfl
  · rw [findLoop]

lemma Lone.search (k' : κ) :
    tree.searchLoop k' tree.nodes.length tree.root none =
      some (if k = k' then (some 0, none) else (none, some 0)) := by
  obtain ⟨n, length⟩ := lone.length
  rw [lone.root, length, searchLoop, lone.node]
  simp only [Option.bind_eq_bind, Option.bind_some, ite_self]
  split
  · rfl
  · rw [searchLoop]

lemma Lone.insert_same : tree.insert k = some (0, tree) := by
  rw [BalancedTree.insert, lone.search, if_pos rfl]
  rfl

lemma Lone.insert_other (differ : k ≠ k') : ∃ found tree', tree.insert k' = some (found, tree') ∧ tree'.Lone k := by
  obtain ⟨n, length⟩ := lone.length
  rw [BalancedTree.insert, lone.search, if_neg differ]
  simp only [Option.bind_eq_bind, Option.bind_some, insertNew, lone.root, Option.isNone_some, Bool.false_eq_true,
    if_false]
  generalize grownTree : ({ root := some 0, size := _, nodes := _ } : BalancedTree κ) = grown
  have root : grown.root = some 0 := by rw [← grownTree]
  have old : grown.node 0 = some ⟨none, none, none, .black, k⟩ := by
    rw [← grownTree]
    exact (getElem?_append_left (by omega)).trans lone.node
  have new : grown.node tree.nodes.length = some (.init k' (some 0)) := by
    rw [← grownTree]
    exact getElem?_concat_length
  have balanced (fuel : ℕ) : rebalance fuel grown tree.nodes.length = some grown := by
    rw [rebalance, root, if_neg (by simp [length]), new]
    simp [BalancedTreeNode.init, old]
  rw [balanced, Option.bind_some, root, Option.bind_some]
  refine ⟨_, _, rfl, root, ?_⟩
  have painted := congrArg (Option.map fun node => { node with color := .black }) old
  exact (getElem?_modify_eq ..).trans painted

end

lemma insert_init (k : κ) :
    (init : BalancedTree κ).insert k = some (0, ⟨some 0, 1, [⟨none, none, none, .black, k⟩]⟩) := by
  simp [BalancedTree.insert, searchLoop, insertNew, init, rebalance, setColor, modify, BalancedTreeNode.init]

lemma insertAll_lone (k : κ) (keys : List κ) :
    ∃ tree log, insertAll (k :: keys) = some (tree, log) ∧ tree.Lone k ∧ log.map fst = k :: keys ∧
      ((∀ k' ∈ keys, k = k') → tree.size = 1 ∧ ∀ entry ∈ log, entry = (k, 0)) := by
  induction keys using reverseRecOn with
  | nil =>
    refine ⟨⟨some 0, 1, [⟨none, none, none, .black, k⟩]⟩, [(k, 0)], ?_, ⟨rfl, rfl⟩, rfl, fun _ => ⟨rfl, by simp⟩⟩
    simp [insertAll, insert_init]
  | append_singleton keys k' ih =>
    obtain ⟨tree, log, ran, lone, keysEq, sole⟩ := ih
    have step : insertAll (k :: (keys ++ [k'])) =
        (tree.insert k').map fun (found, tree) => (tree, log ++ [(k', found)]) := by
      rw [insertAll, ← cons_append, foldlM_append, ← insertAll, ran]
      simp [Option.map_eq_bind]
    rcases eq_or_ne k k' with rfl | differ
    · refine ⟨tree, log ++ [(k, 0)], by rw [step, lone.insert_same]; rfl, lone, by simp [keysEq], ?_⟩
      intro same
      obtain ⟨size, entries⟩ := sole fun k' member => same k' (by simp [member])
      exact ⟨size, by simpa [or_imp, forall_and] using entries⟩
    · obtain ⟨found, tree', inserted, lone'⟩ := lone.insert_other differ
      refine ⟨tree', log ++ [(k', found)], by rw [step, inserted]; rfl, lone', by simp [keysEq], ?_⟩
      exact fun same => absurd (same k' (by simp)) differ

lemma Lone.isMap (lone : tree.Lone k) {log : List (κ × ℕ)} (nonempty : log ≠ []) (size : tree.size = 1)
    (entries : ∀ entry ∈ log, entry = (k, 0)) : tree.IsMap log where
  found := by
    rintro entry member
    rw [entries entry member, lone.find, if_pos rfl]
  absent := by
    intro key new
    obtain ⟨entry, member⟩ := exists_mem_of_ne_nil log nonempty
    refine (lone.find key).trans (congrArg some (if_neg ?_))
    rintro rfl
    exact new (mem_map.mpr ⟨entry, member, by rw [entries entry member]⟩)
  size := by
    obtain ⟨entry, member⟩ := exists_mem_of_ne_nil log nonempty
    have one : (log.map fst).toFinset = {k} := by
      ext key
      simp only [mem_toFinset, mem_map, Finset.mem_singleton]
      constructor
      · rintro ⟨other, other_mem, rfl⟩
        rw [entries other other_mem]
      · rintro rfl
        exact ⟨entry, member, by rw [entries entry member]⟩
    rw [size, one, Finset.card_singleton]
  shape := by
    refine ⟨.node .nil 0 .nil, ?_, ?_, ?_, 1, 0, rfl, rfl, ?_⟩
    · simp [lone.root, lone.node]
    · simp [SearchOrder]
    · simp [RedBlack, isRed, lone.node]
    · simp [isRed, lone.node]

lemma isMap_init : (init : BalancedTree κ).IsMap [] where
  found := by simp
  absent _ _ := by rw [find, init, findLoop]
  size := rfl
  shape := ⟨.nil, rfl, List.Pairwise.nil, trivial, 0, rfl⟩

/-- The tree is a map as long as all the keys that are inserted are one key. -/
theorem isMap_iff_one_key (keys : List κ) :
    (∀ ks, ks <+: keys → ∃ tree log, insertAll ks = some (tree, log) ∧ log.map fst = ks ∧ tree.IsMap log) ↔
      ∀ k ∈ keys, ∀ k' ∈ keys, k = k' := by
  constructor
  · intro maps
    obtain ⟨tree, log, ran, keysEq, isMap⟩ := maps keys prefix_rfl
    cases keys with
    | nil => simp
    | cons first keys =>
      obtain ⟨tree', log', ran', lone, -, -⟩ := insertAll_lone first keys
      obtain ⟨rfl, rfl⟩ : tree' = tree ∧ log' = log := by simpa [ran'] using ran
      -- a key that is found is that of the root
      have same : ∀ k ∈ first :: keys, first = k := by
        intro k member
        rw [← keysEq] at member
        obtain ⟨entry, logged, rfl⟩ := mem_map.mp member
        have found := isMap.found entry logged
        rw [lone.find] at found
        by_contra differ
        simp [differ] at found
      intro k member k' member'
      exact (same k member).symm.trans (same k' member')
  · rintro same ks ⟨rest, rfl⟩
    cases ks with
    | nil => exact ⟨init, [], rfl, rfl, isMap_init⟩
    | cons first ks =>
      obtain ⟨tree, log, ran, lone, keysEq, sole⟩ := insertAll_lone first ks
      obtain ⟨size, entries⟩ := sole fun k' member => same first (by simp) k' (by simp [member])
      refine ⟨tree, log, ran, keysEq, lone.isMap ?_ size entries⟩
      rintro rfl
      exact absurd keysEq (by simp)

/-- The second of two keys is not found. -/
theorem second_key_lost :
    ¬ ∀ ks, ks <+: [1, 2] → ∃ tree log, insertAll ks = some (tree, log) ∧ log.map fst = ks ∧ tree.IsMap log := by
  intro maps
  obtain ⟨tree, log, ran, -, isMap⟩ := maps [1, 2] prefix_rfl
  have ended : insertAll [1, 2] = some
      (⟨some 0, 2, [⟨none, none, none, .black, 1⟩, ⟨some 0, none, none, .red, 2⟩]⟩, [(1, 0), (2, 1)]) := by
    decide
  obtain ⟨rfl, rfl⟩ : _ = tree ∧ _ = log := by simpa [ended] using ran
  exact absurd (isMap.found (2, 1) (by decide)) (by decide)

end BalancedTree

end HpcToolkit.Collections
