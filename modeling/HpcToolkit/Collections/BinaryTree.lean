import Mathlib
import HpcToolkit.Lib.LinkedTree

/-! # Binary trees and lists

A list is a tree without left children. `listify` is to flatten a tree and `list_to_tree` to balance a list again. The
recursion of `listify` passes the place that is to be written next, but what it learns in a left subtree stays there.
-/

open Option
open Function List

namespace HpcToolkit.Collections.BinaryTree

open Lib

variable {A : Type} [DecidableEq A]

/-- The links of the nodes, and the variable `head` of `listify`, which has no value until it is written. -/
@[ext]
structure Memory (A : Type) where
  left : A → Option A
  right : A → Option A
  head : Option (Option A)

/-- What `tail` points to. -/
inductive Location (A : Type) where
  | head
  | right (node : A)

namespace Memory

variable (m : Memory A)

def setLeft (node : A) (p : Option A) : Memory A := { m with left := update m.left node p }

def setRight (node : A) (p : Option A) : Memory A := { m with right := update m.right node p }

def store : Location A → Option A → Memory A
  | .head, p => { m with head := some p }
  | .right node, p => m.setRight node p

end Memory

/-- The recursion needs a stack of some depth. -/
def listifyHelper : ℕ → Memory A → Option A → Location A → Option (Memory A)
  | _, m, none, _ => some m
  | 0, _, some _, _ => none
  | depth + 1, m, some root, tail => do
    let m ← listifyHelper depth m (m.left root) tail
    let m := (m.setLeft root none).store tail (some root)
    listifyHelper depth m (m.right root) (.right root)

def listify (depth : ℕ) (m : Memory A) (root : Option A) : Option (Option (Option A) × Memory A) := do
  let m ← listifyHelper depth { m with head := none } root .head
  some (m.head, m)

/-- The root of the tree, what is left of the list, and the memory. -/
def listToTree (m : Memory A) (head : Option A) (count : ℕ) : Option (Option A × Option A × Memory A) :=
  if _empty : count = 0 then some (none, head, m)
  else do
    let mid := count >>> 1
    let (left, head, m) ← listToTree m head mid
    let root ← head
    let m := m.setLeft root left
    let (right, head, m) ← listToTree m (m.right root) (count - mid - 1)
    some (some root, head, m.setRight root right)
termination_by count
decreasing_by all_goals (simp only [Nat.shiftRight_one]; omega)

/-! ## What is to hold -/

/-- The nodes are linked to the right and have no left children. -/
def RightList (m : Memory A) (p : Option A) (nodes : List A) : Prop :=
  Chain m.right nodes p none ∧ ∀ node ∈ nodes, m.left node = none

/-- With enough stack, the tree becomes the list of its nodes. -/
def Listified (m : Memory A) (root : Option A) (t : STree A) : Prop :=
  ∃ least, ∀ depth ≥ least, ∃ p m', listify depth m root = some (some p, m') ∧ RightList m' p t.toList

/-- The list becomes a tree that has its nodes in order and is as low as such a tree can be. -/
def Balanced (m : Memory A) (p : Option A) (nodes : List A) : Prop :=
  ∃ root rest m' t, listToTree m p nodes.length = some (root, rest, m') ∧ STree.Linked m'.left m'.right t root ∧
    t.toList = nodes ∧ ∀ t' : STree A, t'.toList.length = nodes.length → t.height ≤ t'.height

/-- Both conversions after one another keep the order of the nodes. -/
def Restored (m : Memory A) (root : Option A) (t : STree A) : Prop :=
  ∃ least, ∀ depth ≥ least, ∃ p m' root' rest m'' t', listify depth m root = some (some p, m') ∧
    listToTree m' p t.toList.length = some (root', rest, m'') ∧ STree.Linked m''.left m''.right t' root' ∧
      t'.toList = t.toList

/-- No node that is reached to the right has a left child. -/
def RightLinked : STree A → Prop
  | .nil => True
  | .node l _ r => l = .nil ∧ RightLinked r

/-! ## From trees to lists -/

/-- The nodes that are reached to the right. -/
def spine : STree A → List A
  | .nil => []
  | .node _ a r => a :: spine r

variable {m m' : Memory A} {t : STree A} {root : Option A}

section
omit [DecidableEq A]

lemma chain_spine {left right : A → Option A} (linked : t.Linked left right root) :
    Chain right (spine t) root none := by
  induction t generalizing root with
  | nil => exact linked
  | node l a r ihl ihr => exact ⟨linked.1, ihr linked.2.2⟩

lemma spine_sublist : (spine t).Sublist t.toList := by
  induction t with
  | nil => exact .slnil
  | node l a r ihl ihr => exact (ihr.cons_cons a).trans (sublist_append_right l.toList (a :: r.toList))

lemma spine_eq_toList : spine t = t.toList ↔ RightLinked t := by
  induction t with
  | nil => simp [spine, RightLinked]
  | node l a r ihl ihr =>
    rw [RightLinked, ← ihr]
    constructor
    · intro same
      have lengths := congrArg length same
      have shorter := (spine_sublist (t := r)).length_le
      simp only [spine, STree.toList_node, length_append, length_cons] at lengths
      obtain rfl : l = .nil := STree.toList_eq_nil.mp (length_eq_zero_iff.mp (by omega))
      exact ⟨rfl, by simpa [spine] using same⟩
    · rintro ⟨rfl, same⟩
      simp [spine, same]

end

namespace Memory

/-- The memory without the left links of some nodes. -/
def clear (m : Memory A) (nodes : List A) : Memory A :=
  { m with left := fun a => if a ∈ nodes then none else m.left a }

/-- A tree that is not empty leaves its root at the tail. -/
def storeRoot (m : Memory A) (tail : Location A) (root : Option A) : Memory A :=
  match root with
  | none => m
  | some a => m.store tail (some a)

variable {tail : Location A} {p : Option A} {a : A} {nodes nodes' : List A}

@[simp] lemma store_left : (m.store tail p).left = m.left := by cases tail <;> rfl

lemma store_right_of_ne (elsewhere : tail ≠ .right a) : (m.store tail p).right a = m.right a := by
  cases tail with
  | head => rfl
  | right b => exact update_of_ne (fun same => elsewhere (congrArg Location.right same.symm)) _ _

@[simp] lemma clear_right : (m.clear nodes).right = m.right := rfl

lemma clear_left_of_notMem (outside : a ∉ nodes) : (m.clear nodes).left a = m.left a := if_neg outside

@[simp] lemma clear_nil : m.clear [] = m := by ext <;> simp [clear]

lemma clear_store : (m.store tail p).clear nodes = (m.clear nodes).store tail p := by cases tail <;> rfl

lemma clear_clear : (m.clear nodes).clear nodes' = m.clear (nodes ++ nodes') := by
  ext a <;> simp only [clear, mem_append]
  grind

lemma clear_setLeft : (m.clear nodes).setLeft a none = m.clear (nodes ++ [a]) := by
  ext1
  · funext b
    simp only [clear, setLeft, update_apply, mem_append, mem_singleton]
    grind
  · rfl
  · rfl

lemma storeRoot_setLeft : (m.storeRoot tail p).setLeft a none = (m.setLeft a none).storeRoot tail p := by
  cases p <;> cases tail <;> rfl

lemma storeRoot_store {q : Option A} : (m.storeRoot tail p).store tail q = m.store tail q := by
  cases p with
  | none => rfl
  | some b =>
    cases tail with
    | head => rfl
    | right c => simp [storeRoot, store, setRight]

lemma storeRoot_self (same : m.right a = p) : m.storeRoot (.right a) p = m := by
  cases p with
  | none => rfl
  | some b => rw [storeRoot, store, setRight, ← same, update_eq_self]

end Memory

variable {depth : ℕ}

lemma listifyHelper_eq {tail : Location A} (linked : t.Linked m.left m.right root)
    (distinct : t.toList.Nodup) (outside : ∀ a ∈ t.toList, tail ≠ .right a) (enough : t.height ≤ depth) :
    listifyHelper depth m root tail = some ((m.clear t.toList).storeRoot tail root) := by
  induction t generalizing depth m root tail with
  | nil =>
    obtain rfl : root = none := linked
    simp [listifyHelper, Memory.storeRoot]
  | node l a r ihl ihr =>
    obtain ⟨rfl, linkedL, linkedR⟩ := linked
    rw [STree.height] at enough
    obtain ⟨depth, rfl⟩ : ∃ d, depth = d + 1 := ⟨depth - 1, by omega⟩
    obtain ⟨distinctL, distinctR, apart⟩ := nodup_append.mp distinct
    obtain ⟨aboveR, distinctR⟩ := nodup_cons.mp distinctR
    have elsewhere : tail ≠ .right a := outside a (by simp)
    rw [listifyHelper, ihl linkedL distinctL (fun b member => outside b (by simp [member])) (by omega)]
    simp only [bind_eq_bind, bind_some, Memory.storeRoot_setLeft, Memory.storeRoot_store,
      Memory.clear_setLeft]
    have unchanged : ((m.clear (l.toList ++ [a])).store tail (some a)).right a = m.right a :=
      Memory.store_right_of_ne elsewhere
    have linkedR' : r.Linked ((m.clear (l.toList ++ [a])).store tail (some a)).left
        ((m.clear (l.toList ++ [a])).store tail (some a)).right (m.right a) := by
      refine linkedR.congr (fun b member => ?_) fun b member => ?_
      · rw [Memory.store_left]
        refine Memory.clear_left_of_notMem fun early => ?_
        rcases mem_append.mp early with below | here
        · exact apart b below b (mem_cons_of_mem a member) rfl
        · exact aboveR (mem_singleton.mp here ▸ member)
      · exact Memory.store_right_of_ne (outside b (by simp [member]))
    have others : ∀ b ∈ r.toList, Location.right a ≠ .right b := by
      rintro b member ⟨⟩
      exact aboveR member
    have back : ((((m.clear (l.toList ++ [a])).store tail (some a)).clear r.toList).storeRoot (.right a) (m.right a)) =
        ((m.clear (l.toList ++ [a])).store tail (some a)).clear r.toList := Memory.storeRoot_self unchanged
    rw [unchanged, ihr linkedR' distinctR others (by omega), back, Memory.clear_store, Memory.clear_clear]
    simp [Memory.storeRoot]

lemma listify_eq (linked : t.Linked m.left m.right root) (distinct : t.toList.Nodup)
    (enough : t.height ≤ depth) :
    listify depth m root =
      some (t.root?.map some, { m with left := (m.clear t.toList).left, head := t.root?.map some }) := by
  have ran : listifyHelper depth { m with head := none } root .head = _ :=
    listifyHelper_eq linked distinct (by simp) enough
  rw [listify, ran, linked.root]
  cases t <;> rfl

lemma rightList_spine (head : Option (Option A)) (linked : t.Linked m.left m.right root) :
    RightList ⟨(m.clear t.toList).left, m.right, head⟩ root (spine t) :=
  ⟨chain_spine linked, fun _ member => if_pos (spine_sublist.mem member)⟩

lemma listify_rightLinked (linked : t.Linked m.left m.right root) (distinct : t.toList.Nodup)
    (nonempty : t ≠ .nil) (rightLinked : RightLinked t) (enough : t.height ≤ depth) :
    ∃ m', listify depth m root = some (some root, m') ∧ RightList m' root t.toList := by
  have list := rightList_spine (t.root?.map some) linked
  rw [spine_eq_toList.mpr rightLinked] at list
  refine ⟨_, ?_, list⟩
  rw [listify_eq linked distinct enough, linked.root]
  cases t with
  | nil => exact absurd rfl nonempty
  | node l a r => rfl

lemma listified_iff (linked : t.Linked m.left m.right root) (distinct : t.toList.Nodup) :
    Listified m root t ↔ t ≠ .nil ∧ RightLinked t := by
  constructor
  · rintro ⟨least, converts⟩
    obtain ⟨p, m', ran, chain, -⟩ := converts (max least t.height) (le_max_left ..)
    rw [listify_eq linked distinct (le_max_right ..)] at ran
    obtain ⟨found, rfl⟩ : t.root?.map some = some p ∧ _ = m' := by simpa using ran
    obtain rfl : root = p := by
      rw [linked.root]
      cases t with
      | nil => exact absurd found (by simp [STree.root?])
      | node l a r => exact Option.some.inj found
    refine ⟨?_, spine_eq_toList.mp ((chain_spine linked).unique chain)⟩
    rintro rfl
    exact absurd found (by simp [STree.root?])
  · rintro ⟨nonempty, rightLinked⟩
    exact ⟨t.height, fun depth enough => ⟨root, listify_rightLinked linked distinct nonempty rightLinked enough⟩⟩

/-! ## From lists to trees -/

lemma size_of_pos {n : ℕ} (positive : 0 < n) : Nat.size n = Nat.size (n / 2) + 1 := by
  have some := Nat.size_pos.mpr positive
  have whole := Nat.lt_size_self n
  have half := Nat.lt_size_self (n / 2)
  obtain ⟨k, size⟩ : ∃ k, Nat.size n = k + 1 := ⟨Nat.size n - 1, by omega⟩
  refine le_antisymm (Nat.size_le.mpr ?_) ?_
  · rw [pow_succ]
    omega
  · rw [size, Nat.add_le_add_iff_right]
    refine Nat.size_le.mpr ?_
    rw [size, pow_succ] at whole
    omega

lemma listToTree_eq {nodes : List A} {p rest : Option A} (chain : Chain m.right nodes p rest)
    (distinct : nodes.Nodup) :
    ∃ (m' : Memory A) (t : STree A), listToTree m p nodes.length = some (t.root?, rest, m') ∧
      t.Linked m'.left m'.right t.root? ∧
      t.toList = nodes ∧ t.height = nodes.length.size ∧
      ∀ a ∉ nodes, m'.left a = m.left a ∧ m'.right a = m.right a := by
  induction count : nodes.length using Nat.strong_induction_on generalizing m nodes p rest with
  | _ n ih =>
    rw [listToTree]
    rcases Nat.eq_zero_or_pos n with rfl | positive
    · obtain rfl := length_eq_zero_iff.mp count
      obtain rfl : p = rest := chain
      exact ⟨m, .nil, rfl, rfl, rfl, rfl, fun _ _ => ⟨rfl, rfl⟩⟩
    · have inside : n / 2 < nodes.length := by omega
      obtain ⟨xs, a, ys, rfl, half⟩ : ∃ xs a ys, nodes = xs ++ a :: ys ∧ xs.length = n / 2 :=
        ⟨nodes.take (n / 2), nodes[n / 2], nodes.drop (n / 2 + 1), by simp, by simp; omega⟩
      have later : ys.length = n - n / 2 - 1 := by
        rw [length_append, length_cons] at count
        omega
      obtain ⟨q, chainX, rfl, chainY⟩ := Chain.append.mp chain
      obtain ⟨distinctX, distinctY, apart⟩ := nodup_append.mp distinct
      obtain ⟨aboveY, distinctY⟩ := nodup_cons.mp distinctY
      have belowX : a ∉ xs := fun member => apart a member a mem_cons_self rfl
      have apartY : ∀ b ∈ ys, b ∉ xs := fun b member below => apart b below b (mem_cons_of_mem a member) rfl
      obtain ⟨m₁, tX, ranX, linkedX, listX, heightX, frameX⟩ := ih (n / 2) (by omega) chainX distinctX half
      have chainY' : Chain (m₁.setLeft a tX.root?).right ys (m.right a) rest :=
        chainY.congr fun b member => (frameX b (apartY b member)).2
      obtain ⟨m₂, tY, ranY, linkedY, listY, heightY, frameY⟩ :=
        ih (n - n / 2 - 1) (by omega) chainY' distinctY later
      rw [dif_neg positive.ne']
      have next : (m₁.setLeft a tX.root?).right a = m.right a := (frameX a belowX).2
      simp only [Nat.shiftRight_one, ranX, bind_eq_bind, bind_some, next, ranY]
      have leftA : m₂.left a = tX.root? := (frameY a aboveY).1.trans (update_self ..)
      have leftX : ∀ b ∈ tX.toList, m₂.left b = m₁.left b := fun b member => by
        rw [listX] at member
        have other : b ≠ a := fun same => belowX (same ▸ member)
        exact (frameY b fun above => apartY b above member).1.trans (update_of_ne other _ _)
      have rightX : ∀ b ∈ tX.toList, (m₂.setRight a tY.root?).right b = m₁.right b := fun b member => by
        rw [listX] at member
        have other : b ≠ a := fun same => belowX (same ▸ member)
        exact (update_of_ne other _ _).trans (frameY b fun above => apartY b above member).2
      have rightY : ∀ b ∈ tY.toList, (m₂.setRight a tY.root?).right b = m₂.right b := fun b member => by
        rw [listY] at member
        have other : b ≠ a := fun same => aboveY (same ▸ member)
        exact update_of_ne other _ _
      refine ⟨m₂.setRight a tY.root?, .node tX a tY, rfl, ⟨rfl, ?_, ?_⟩, ?_, ?_, ?_⟩
      · exact leftA ▸ linkedX.congr leftX rightX
      · have rightA : (m₂.setRight a tY.root?).right a = tY.root? := update_self ..
        rw [rightA]
        exact linkedY.congr (fun _ _ => rfl) rightY
      · rw [STree.toList_node, listX, listY]
      · rw [STree.height, heightX, heightY, size_of_pos positive, max_eq_left (Nat.size_le_size (by omega))]
      · intro b outside
        simp only [mem_append, mem_cons, not_or] at outside
        obtain ⟨notX, other, notY⟩ := outside
        constructor
        · exact (frameY b notY).1.trans ((update_of_ne other _ _).trans (frameX b notX).1)
        · exact (update_of_ne other _ _).trans ((frameY b notY).2.trans (frameX b notX).2)

lemma RightList.balanced {nodes : List A} {p : Option A} (list : RightList m p nodes) : Balanced m p nodes := by
  obtain ⟨m', t, ran, linked, same, height, -⟩ := listToTree_eq list.1 list.1.nodup
  refine ⟨_, _, m', t, ran, linked, same, fun t' count => ?_⟩
  rw [height, ← count]
  exact Nat.size_le.mpr t'.length_lt_two_pow

/-- The conversions do what they are to do exactly with the trees that are lists already and are not empty. -/
theorem conversions_iff_rightLinked (m : Memory A) (root : Option A) (t : STree A)
    (linked : t.Linked m.left m.right root) (distinct : t.toList.Nodup) :
    (Listified m root t ∧ Restored m root t ∧
        ∀ (m : Memory A) p nodes, RightList m p nodes → Balanced m p nodes) ↔
      t ≠ .nil ∧ RightLinked t := by
  rw [listified_iff linked distinct]
  constructor
  · exact And.left
  · rintro ⟨nonempty, rightLinked⟩
    refine ⟨⟨nonempty, rightLinked⟩, ⟨t.height, fun depth enough => ?_⟩,
      fun m p nodes list => list.balanced⟩
    obtain ⟨m', ran, list⟩ := listify_rightLinked linked distinct nonempty rightLinked enough
    obtain ⟨m'', t', built, linked', same, -, -⟩ := listToTree_eq list.1 distinct
    exact ⟨root, m', _, _, m'', t', ran, built, linked', same⟩

theorem conversions_single :
    (Listified (⟨fun _ => none, fun _ => none, none⟩ : Memory ℕ) (some 0) (.node .nil 0 .nil) ∧
        Restored (⟨fun _ => none, fun _ => none, none⟩ : Memory ℕ) (some 0) (.node .nil 0 .nil) ∧
        ∀ (m : Memory ℕ) p nodes, RightList m p nodes → Balanced m p nodes) ↔
      (STree.node .nil 0 .nil : STree ℕ) ≠ .nil ∧ RightLinked (.node .nil 0 .nil : STree ℕ) :=
  conversions_iff_rightLinked _ _ _ (by simp) (by simp)

/-- The left child of the root is lost. -/
theorem left_child_lost :
    ¬ Listified (⟨fun a => if a = 0 then some 1 else none, fun _ => none, none⟩ : Memory ℕ) (some 0)
      (.node (.node .nil 1 .nil) 0 .nil) := by
  rw [listified_iff (by simp) (by decide)]
  rintro ⟨-, left, -⟩
  exact absurd left (by simp)

end HpcToolkit.Collections.BinaryTree
