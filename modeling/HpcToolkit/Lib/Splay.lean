import Mathlib.Tactic
import Mathlib.Order.Basic
import Mathlib.Data.List.Pairwise
import Mathlib.Algebra.BigOperators.Group.Finset.Basic

/-! # Top-down splay trees over a linear order

The Sleator-Tarjan loop descends from the root and hangs the nodes it passes on two spines, one of
keys below the sought key and one of keys above it. Here a spine is the list of its frames,
innermost first. The loop keeps the symmetric order of the whole tree, and afterwards everything
left of the root is below the sought key and everything right of it above; insertion at the root
and lookup need nothing else. Nothing here depends on what the nodes carry.
-/

open List

namespace HpcToolkit.Lib

/-- Binary trees as the splay macro sees them. -/
inductive STree (α : Type*) where
  | nil
  | node (left : STree α) (val : α) (right : STree α)

namespace STree

variable {α β κ : Type*}

/-- Symmetric order. -/
def toList : STree α → List α
  | nil => []
  | node l x r => l.toList ++ x :: r.toList

/-- Postorder: both subtrees, then the node. -/
def postorder : STree α → List α
  | nil => []
  | node l x r => l.postorder ++ r.postorder ++ [x]

def isEmpty : STree α → Bool
  | nil => true
  | node .. => false

def root? : STree α → Option α
  | nil => none
  | node _ x _ => some x

def map (f : α → β) : STree α → STree β
  | nil => nil
  | node l x r => node (l.map f) (f x) (r.map f)

@[simp, grind =] lemma toList_nil : (nil : STree α).toList = [] := rfl

@[simp, grind =] lemma toList_node (l : STree α) (x : α) (r : STree α) :
    (node l x r).toList = l.toList ++ x :: r.toList := rfl

variable {t : STree α}

lemma toList_eq_nil : t.toList = [] ↔ t = nil := by
  cases t <;> simp

@[simp] lemma isEmpty_iff : t.isEmpty = true ↔ t = nil := by
  cases t <;> simp [isEmpty]

lemma postorder_perm (t : STree α) : t.postorder.Perm t.toList := by
  induction t with
  | nil => exact .nil
  | node l x r ihl ihr =>
    simp only [postorder, toList, append_assoc]
    refine ihl.append ?_
    exact (perm_append_comm).trans (ihr.cons x)

variable {x : α}

lemma mem_postorder : x ∈ t.postorder ↔ x ∈ t.toList := t.postorder_perm.mem_iff

/-- The spine of smaller keys, closed by what hangs below its last node. -/
def closeLeft : List (STree α × α) → STree α → STree α
  | [], t => t
  | (l, x) :: frames, t => closeLeft frames (node l x t)

/-- The spine of larger keys, closed by what hangs below its last node. -/
def closeRight : List (α × STree α) → STree α → STree α
  | [], t => t
  | (x, r) :: frames, t => closeRight frames (node t x r)

section Splay
variable [LinearOrder κ] (key : α → κ) (k : κ)

/-- The end of the loop: both spines take over the subtrees of the new root. -/
def assemble (smaller : List (STree α × α)) (larger : List (α × STree α)) (l : STree α) (x : α)
    (r : STree α) : STree α :=
  node (closeLeft smaller l) x (closeRight larger r)

/-- The loop of `GENERAL_SPLAY_TREE`; each arm is one arm of the macro. -/
def splayLoop : STree α → List (STree α × α) → List (α × STree α) → STree α
  | nil, smaller, larger => closeLeft smaller (closeRight larger nil)
  | node l x r, smaller, larger =>
    if k < key x then
      match l with
      | nil => assemble smaller larger nil x r
      | node ll y lr =>
        if k < key y then
          match ll with
          | nil => assemble smaller larger nil y (node lr x r)
          | node a z b => splayLoop (node a z b) smaller ((y, node lr x r) :: larger)
        else splayLoop (node ll y lr) smaller ((x, r) :: larger)
    else if key x < k then
      match r with
      | nil => assemble smaller larger l x nil
      | node rl y rr =>
        if key y < k then
          match rr with
          | nil => assemble smaller larger (node l x rl) y nil
          | node a z b => splayLoop (node a z b) ((node l x rl, y) :: smaller) larger
        else splayLoop (node rl y rr) ((l, x) :: smaller) larger
    else assemble smaller larger l x r

/-- Bring `k`, or a neighbour of it, to the root. -/
def splay : STree α → STree α
  | nil => nil
  | node l x r => splayLoop key k (node l x r) [] []

/-- The nodes left of the root are below `k`, those right of it above `k`. -/
def Splits : STree α → Prop
  | nil => True
  | node l _ r => (∀ y ∈ l.toList, key y < k) ∧ ∀ y ∈ r.toList, k < key y

/-- Strictly increasing keys, hence no duplicates. -/
def Ordered (t : STree α) : Prop := t.toList.Pairwise fun a b => key a < key b

instance (t : STree α) : Decidable (t.Ordered key) :=
  inferInstanceAs (Decidable (t.toList.Pairwise fun a b => key a < key b))

lemma toList_closeLeft (frames : List (STree α × α)) (t : STree α) :
    (closeLeft frames t).toList = (closeLeft frames nil).toList ++ t.toList := by
  induction frames generalizing t with
  | nil => rfl
  | cons frame rest ih =>
    rw [closeLeft, closeLeft, ih, ih (node frame.1 frame.2 nil)]
    simp

lemma toList_closeRight (frames : List (α × STree α)) (t : STree α) :
    (closeRight frames t).toList = t.toList ++ (closeRight frames nil).toList := by
  induction frames generalizing t with
  | nil => simp [closeRight]
  | cons frame rest ih =>
    rw [closeRight, closeRight, ih, ih (node nil frame.1 frame.2)]
    simp

@[grind =] lemma toList_closeLeft_cons (l : STree α) (x : α) (frames : List (STree α × α)) :
    (closeLeft ((l, x) :: frames) nil).toList = (closeLeft frames nil).toList ++ (l.toList ++ [x]) := by
  rw [closeLeft, toList_closeLeft]
  rfl

@[grind =] lemma toList_closeRight_cons (x : α) (r : STree α) (frames : List (α × STree α)) :
    (closeRight ((x, r) :: frames) nil).toList = x :: r.toList ++ (closeRight frames nil).toList := by
  rw [closeRight, toList_closeRight]
  rfl

lemma toList_assemble (smaller : List (STree α × α)) (larger : List (α × STree α)) (l : STree α)
    (x : α) (r : STree α) : (assemble smaller larger l x r).toList =
      (closeLeft smaller nil).toList ++ (node l x r).toList ++ (closeRight larger nil).toList := by
  rw [assemble, toList_node, toList_closeLeft, toList_closeRight, toList_node]
  simp only [append_assoc, cons_append]

lemma toList_splayLoop (t : STree α) (smaller : List (STree α × α)) (larger : List (α × STree α)) :
    (splayLoop key k t smaller larger).toList =
      (closeLeft smaller nil).toList ++ t.toList ++ (closeRight larger nil).toList := by
  fun_induction splayLoop key k t smaller larger
  case case1 smaller larger => rw [toList_closeLeft, toList_nil, append_nil]
  all_goals
    simp only [toList_assemble, toList_closeLeft_cons, toList_closeRight_cons, toList_node, toList_nil,
      nil_append, append_assoc, cons_append, *]

@[simp] lemma toList_splay (t : STree α) : (splay key k t).toList = t.toList := by
  cases t with
  | nil => rfl
  | node l x r =>
    rw [splay, toList_splayLoop]
    simp [closeLeft, closeRight]

lemma Ordered.splay (ordered : t.Ordered key) : (splay key k t).Ordered key := by
  rw [Ordered, toList_splay]
  exact ordered

lemma ordered_node {l : STree α} {r : STree α} :
    (node l x r).Ordered key ↔ l.Ordered key ∧ r.Ordered key ∧ (∀ y ∈ l.toList, key y < key x) ∧
      (∀ y ∈ r.toList, key x < key y) := by
  simp only [Ordered, toList_node, pairwise_append, pairwise_cons, mem_cons]
  constructor
  · rintro ⟨left, ⟨above, right⟩, across⟩
    exact ⟨left, right, fun y member => across y member x (.inl rfl), above⟩
  · rintro ⟨left, right, below, above⟩
    refine ⟨left, ⟨above, right⟩, ?_⟩
    rintro y memY z (rfl | memZ)
    · exact below y memY
    · exact (below y memY).trans (above z memZ)

private lemma splits_assemble {smaller : List (STree α × α)} {larger : List (α × STree α)}
    {l : STree α} {r : STree α}
    (low : ∀ y ∈ (closeLeft smaller nil).toList ++ l.toList, key y < k)
    (high : ∀ y ∈ r.toList ++ (closeRight larger nil).toList, k < key y) :
    Splits key k (assemble smaller larger l x r) := by
  refine ⟨?_, ?_⟩
  · rwa [toList_closeLeft]
  · rwa [toList_closeRight]

lemma splits_splayLoop (t : STree α) (smaller : List (STree α × α)) (larger : List (α × STree α))
    (ordered : t.Ordered key) (low : ∀ y ∈ (closeLeft smaller nil).toList, key y < k)
    (high : ∀ y ∈ (closeRight larger nil).toList, k < key y) (nonempty : t ≠ nil) :
    Splits key k (splayLoop key k t smaller larger) := by
  fun_induction splayLoop key k t smaller larger with
  | case1 smaller larger => exact absurd rfl nonempty
  | case2 x r smaller larger below =>
    simp only [ordered_node] at ordered
    apply splits_assemble <;> intro z member <;> grind
  | case3 x r smaller larger below y lr belowY =>
    simp only [ordered_node, toList_node] at ordered
    apply splits_assemble <;> intro z member <;> grind
  | case4 x r smaller larger below y lr belowY a z b ih =>
    simp only [ordered_node, toList_node] at ordered ih
    exact ih ordered.1.1 low (by grind) (by simp)
  | case5 x r smaller larger below ll y lr notBelow ih =>
    simp only [ordered_node, toList_node] at ordered ih
    exact ih ordered.1 low (by grind) (by simp)
  | case6 l x smaller larger notBelow above =>
    simp only [ordered_node] at ordered
    apply splits_assemble <;> intro z member <;> grind
  | case7 l x smaller larger notBelow above rl y aboveY =>
    simp only [ordered_node, toList_node] at ordered
    apply splits_assemble <;> intro z member <;> grind
  | case8 l x smaller larger notBelow above rl y aboveY a z b ih =>
    simp only [ordered_node, toList_node] at ordered ih
    exact ih ordered.2.1.2.1 (by grind) high (by simp)
  | case9 l x smaller larger notBelow above rl y rr notAbove ih =>
    simp only [ordered_node, toList_node] at ordered ih
    exact ih ordered.2.1 (by grind) high (by simp)
  | case10 l x r smaller larger notBelow notAbove =>
    simp only [ordered_node] at ordered
    apply splits_assemble <;> intro z member <;> grind

lemma splits_splay (ordered : t.Ordered key) : Splits key k (splay key k t) := by
  cases t with
  | nil => trivial
  | node l x r =>
    exact splits_splayLoop key k _ [] [] ordered (by simp [closeLeft]) (by simp [closeRight]) (by simp)

lemma splay_eq_nil : splay key k t = nil ↔ t = nil := by
  rw [← toList_eq_nil, toList_splay, toList_eq_nil]

/-! ## Trees as finite maps -/

/-- The node carrying `k`, whatever the shape of the tree. -/
def find? (t : STree α) (k : κ) : Option α := t.toList.find? fun x => decide (key x = k)

@[simp] lemma find?_nil : find? key (nil : STree α) k = none := rfl

@[simp] lemma find?_splay (t : STree α) (q : κ) : find? key (splay key k t) q = find? key t q := by
  simp only [find?, toList_splay]

variable {q : κ}

lemma key_of_find? (found : find? key t q = some x) : key x = q := by
  simpa using find?_some found

lemma mem_of_find? (found : find? key t q = some x) : x ∈ t.toList :=
  mem_of_find?_eq_some found

lemma Ordered.key_injOn (ordered : t.Ordered key) {x y : α} (memX : x ∈ t.toList)
    (memY : y ∈ t.toList) (same : key x = key y) : x = y := by
  have nodup : (t.toList.map key).Nodup :=
    (pairwise_map.mpr ordered).imp fun less => less.ne
  exact inj_on_of_nodup_map nodup memX memY same

lemma Ordered.find?_eq_some (ordered : t.Ordered key) :
    find? key t q = some x ↔ x ∈ t.toList ∧ key x = q := by
  constructor
  · intro found
    exact ⟨mem_of_find? key found, key_of_find? key found⟩
  · rintro ⟨member, rfl⟩
    cases found : find? key t (key x) with
    | none =>
      have absent := find?_eq_none.mp found x member
      simp at absent
    | some y =>
      rw [ordered.key_injOn key (mem_of_find? key found) member (key_of_find? key found)]

lemma find?_eq_none : find? key t q = none ↔ ∀ x ∈ t.toList, key x ≠ q := by
  simp [find?, find?_eq_none]

lemma Ordered.sum_map {M : Type*} [AddCommMonoid M] (ordered : t.Ordered key) (f : α → M)
    (keys : Finset κ) (cover : ∀ x ∈ t.toList, key x ∈ keys) :
    (t.toList.map f).sum = ∑ q ∈ keys, (find? key t q).elim 0 f := by
  have nodup : (t.toList.map key).Nodup :=
    (pairwise_map.mpr ordered).imp fun less => less.ne
  have inside : (t.toList.map key).toFinset ⊆ keys := by
    intro q member
    obtain ⟨x, memberX, rfl⟩ := mem_map.mp (mem_toFinset.mp member)
    exact cover x memberX
  have outside : ∀ q ∈ keys, q ∉ (t.toList.map key).toFinset → (find? key t q).elim 0 f = 0 := by
    intro q _ absent
    have none : find? key t q = none := (find?_eq_none key).mpr fun x member same =>
      absent (mem_toFinset.mpr (mem_map.mpr ⟨x, member, same⟩))
    rw [none, Option.elim_none]
  rw [← Finset.sum_subset inside outside, sum_toFinset _ nodup, map_map]
  congr 1
  refine map_congr_left fun x member => ?_
  rw [Function.comp_apply, (ordered.find?_eq_some key).mpr ⟨member, rfl⟩, Option.elim_some]

variable {l r : STree α}

lemma Ordered.find?_node (ordered : (node l x r).Ordered key) (q : κ) :
    (q < key x ∧ find? key (node l x r) q = find? key l q ∧ find? key r q = none) ∨
      (q = key x ∧ find? key (node l x r) q = some x ∧ find? key l q = none ∧ find? key r q = none) ∨
      (key x < q ∧ find? key (node l x r) q = find? key r q ∧ find? key l q = none) := by
  obtain ⟨-, -, below, above⟩ := (ordered_node key).mp ordered
  have lower : ∀ p, ¬p < key x → find? key l p = none := fun p notBelow =>
    (find?_eq_none key).mpr fun y member same => notBelow (same ▸ below y member)
  have upper : ∀ p, ¬key x < p → find? key r p = none := fun p notAbove =>
    (find?_eq_none key).mpr fun y member same => notAbove (same ▸ above y member)
  have whole : find? key (node l x r) q =
      (find? key l q).or (if key x = q then some x else find? key r q) := by
    simp only [find?, toList_node, find?_append, find?_cons]
    split <;> simp_all
  rcases lt_trichotomy q (key x) with less | same | greater
  · refine .inl ⟨less, ?_, upper q less.le.not_gt⟩
    rw [whole, if_neg less.ne', upper q less.le.not_gt, Option.or_none]
  · refine .inr (.inl ⟨same, ?_, lower q same.not_lt, upper q same.symm.not_lt⟩)
    rw [whole, lower q same.not_lt, Option.none_or, if_pos same.symm]
  · refine .inr (.inr ⟨greater, ?_, lower q greater.le.not_gt⟩)
    rw [whole, lower q greater.le.not_gt, Option.none_or, if_neg greater.ne]

lemma find?_of_splay_ne {t l r : STree α} (ordered : t.Ordered key)
    (root : splay key k t = node l x r) (differ : key x ≠ k) : find? key t k = none := by
  have splits := splits_splay key k ordered
  rw [root] at splits
  rw [← find?_splay key k, root, find?_eq_none]
  intro y member
  simp only [toList_node, mem_append, mem_cons] at member
  rcases member with left | rfl | right
  · exact (splits.1 y left).ne
  · exact differ
  · exact (splits.2 y right).ne'

lemma Ordered.find?_eq_root? (ordered : t.Ordered key) :
    find? key t k = (STree.splay key k t).root?.filter fun x => decide (key x = k) := by
  cases root : STree.splay key k t with
  | nil =>
    rw [splay_eq_nil] at root
    rw [root]
    rfl
  | node l x r =>
    rw [root?, Option.filter_some]
    split
    · next same =>
      refine (ordered.find?_eq_some key).mpr ⟨?_, of_decide_eq_true same⟩
      rw [← toList_splay key k, root]
      simp
    · next differ => exact find?_of_splay_ne key k ordered root (by simpa using differ)

/-- Put a node with a new key at the root of a tree splayed for that key. -/
def insertRoot (x : α) : STree α → STree α
  | nil => node nil x nil
  | node l y r => if key x < key y then node l x (node nil y r) else node (node l y nil) x r

lemma insertRoot_perm (x : α) (t : STree α) : (insertRoot key x t).toList.Perm (x :: t.toList) := by
  cases t with
  | nil => exact .rfl
  | node l y r =>
    simp only [insertRoot]
    split
    · simp only [toList_node, toList_nil, nil_append]
      exact perm_middle
    · simp only [toList_node, toList_nil, append_assoc, cons_append, nil_append]
      exact (List.Perm.append_left _ (.swap x y _)).trans perm_middle

lemma mem_insertRoot {x z : α} :
    z ∈ (insertRoot key x t).toList ↔ z = x ∨ z ∈ t.toList := by
  rw [(insertRoot_perm key x t).mem_iff, mem_cons]

lemma insertRoot_ordered (ordered : t.Ordered key) (splits : Splits key (key x) t)
    (fresh : ∀ y ∈ t.toList, key y ≠ key x) : (insertRoot key x t).Ordered key := by
  cases t with
  | nil => simp [insertRoot, Ordered]
  | node l y r =>
    have differ : key y ≠ key x := fresh y (by simp)
    obtain ⟨low, high⟩ := splits
    obtain ⟨left, right, below, above⟩ := (ordered_node key).mp ordered
    have leaf : (nil : STree α).Ordered key := by simp [Ordered]
    simp only [insertRoot]
    split
    · next less =>
      refine (ordered_node key).mpr ⟨left, (ordered_node key).mpr ⟨leaf, right, by simp, above⟩, low, ?_⟩
      simp only [toList_node, toList_nil, nil_append, mem_cons]
      rintro z (rfl | member)
      · exact less
      · exact high z member
    · next notLess =>
      refine (ordered_node key).mpr ⟨(ordered_node key).mpr ⟨left, leaf, below, by simp⟩, right, ?_, high⟩
      simp only [toList_node, toList_nil, mem_append, mem_cons, not_mem_nil, or_false]
      rintro z (member | rfl)
      · exact low z member
      · exact lt_of_le_of_ne (not_lt.mp notLess) differ

lemma find?_insertRoot (ordered : t.Ordered key)
    (absent : find? key t (key x) = none) (q : κ) :
    find? key (insertRoot key x (splay key (key x) t)) q = if q = key x then some x else find? key t q := by
  have fresh : ∀ y ∈ (splay key (key x) t).toList, key y ≠ key x := by
    rw [toList_splay]
    exact (find?_eq_none key).mp absent
  have result := insertRoot_ordered key (ordered.splay key (key x)) (splits_splay key _ ordered) fresh
  split
  · next same => exact result.find?_eq_some.mpr ⟨(mem_insertRoot key).mpr (.inl rfl), same.symm⟩
  · next other =>
    cases found : find? key t q with
    | none =>
      refine (find?_eq_none key).mpr fun y member => ?_
      rcases (mem_insertRoot key).mp member with rfl | old
      · exact fun same => other same.symm
      · rw [toList_splay] at old
        exact (find?_eq_none key).mp found y old
    | some y =>
      refine result.find?_eq_some.mpr ⟨(mem_insertRoot key).mpr (.inr ?_), key_of_find? key found⟩
      rw [toList_splay]
      exact mem_of_find? key found

lemma find?_replaceRoot {x y : α} (ordered : (node l x r).Ordered key)
    (same : key y = key x) (q : κ) :
    find? key (node l y r) q = if q = key x then some y else find? key (node l x r) q := by
  obtain ⟨-, -, below, above⟩ := (ordered_node key).mp ordered
  simp only [find?, toList_node, find?_append, find?_cons, same]
  by_cases atRoot : q = key x
  · subst atRoot
    have clear : l.toList.find? (fun z => decide (key z = key x)) = none := by
      rw [List.find?_eq_none]
      intro z member
      simpa using (below z member).ne
    simp [clear]
  · simp [atRoot, Ne.symm atRoot]

lemma replaceRoot_ordered {x y : α} (ordered : (node l x r).Ordered key)
    (same : key y = key x) : (node l y r).Ordered key := by
  rw [ordered_node] at ordered ⊢
  rwa [same]

/-! ## Removal and replacement -/

/-- Drop the root when it carries `k`, in a tree splayed for `k`: the left subtree, splayed once more,
takes its place. -/
def removeRoot : STree α → STree α
  | nil => nil
  | node l x r =>
    if key x = k then
      match splay key k l with
      | nil => r
      | node l y _ => node l y r
    else node l x r

lemma toList_removeRoot (ordered : t.Ordered key) :
    (removeRoot key k (splay key k t)).toList = t.toList.filter fun x => decide (key x ≠ k) := by
  have splits := splits_splay key k ordered
  rw [← toList_splay key k t]
  have orderedRoot := ordered.splay key k
  cases root : splay key k t with
  | nil => rfl
  | node l x r =>
    rw [root] at splits orderedRoot
    obtain ⟨below, above⟩ := splits
    have keepL : l.toList.filter (fun y => decide (key y ≠ k)) = l.toList :=
      filter_eq_self.mpr fun y member => decide_eq_true (below y member).ne
    have keepR : r.toList.filter (fun y => decide (key y ≠ k)) = r.toList :=
      filter_eq_self.mpr fun y member => decide_eq_true (above y member).ne'
    have orderedL := ((ordered_node key).mp orderedRoot).1
    rw [removeRoot, toList_node, filter_append, keepL, filter_cons, keepR]
    split
    · next same =>
      rw [if_neg (by simp [same])]
      have listL := toList_splay key k l
      have splitsL := splits_splay key k orderedL
      cases inner : splay key k l with
      | nil => rw [← listL, inner, toList_nil, nil_append]
      | node l' y r' =>
        rw [inner] at listL splitsL
        have empty : r' = nil := by
          rw [← toList_eq_nil, eq_nil_iff_forall_not_mem]
          intro z member
          have inL : z ∈ l.toList := listL ▸ by simp [member]
          exact lt_asymm (below z inL) (splitsL.2 z member)
        rw [← listL, empty]
        simp
    · next differ => rw [if_pos (decide_eq_true differ), toList_node]

lemma toList_removeRoot_split (ordered : t.Ordered key) {before after : List α}
    (list : t.toList = before ++ x :: after) (same : key x = k) (others : ∀ y ∈ before ++ after, key y ≠ k) :
    (removeRoot key k (splay key k t)).toList = before ++ after := by
  have keepB : before.filter (fun y => decide (key y ≠ k)) = before :=
    filter_eq_self.mpr fun y member => decide_eq_true (others y (mem_append_left _ member))
  have keepA : after.filter (fun y => decide (key y ≠ k)) = after :=
    filter_eq_self.mpr fun y member => decide_eq_true (others y (mem_append_right _ member))
  rw [toList_removeRoot key k ordered, list, filter_append, filter_cons_of_neg (by simpa using same),
    keepB, keepA]

lemma removeRoot_ordered (ordered : t.Ordered key) :
    (removeRoot key k (splay key k t)).Ordered key := by
  rw [Ordered, toList_removeRoot key k ordered]
  exact ordered.filter _

lemma find?_removeRoot (ordered : t.Ordered key) (q : κ) :
    find? key (removeRoot key k (splay key k t)) q = if q = k then none else find? key t q := by
  rw [find?, toList_removeRoot key k ordered, find?_filter]
  split
  · next same =>
    rw [List.find?_eq_none]
    intro x _
    simp [same]
  · next differ =>
    rw [find?]
    congr 1
    funext x
    rcases eq_or_ne (key x) q with same | other
    · simp [same, differ]
    · simp [other]

/-- The subtree whose root carries `k`. -/
def subtreeAt : STree α → STree α
  | nil => nil
  | node l x r => if k < key x then subtreeAt l else if key x < k then subtreeAt r else node l x r

/-- Put `s` in the place of the subtree whose root carries `k`. -/
def replaceAt (s : STree α) : STree α → STree α
  | nil => nil
  | node l x r =>
    if k < key x then node (replaceAt s l) x r else if key x < k then node l x (replaceAt s r) else s

lemma root_subtreeAt (ordered : t.Ordered key) (found : find? key t k = some x) :
    ∃ l r, subtreeAt key k t = node l x r := by
  induction t with
  | nil => cases found
  | node l y r ihl ihr =>
    obtain ⟨orderedL, orderedR, -, -⟩ := (ordered_node key).mp ordered
    rw [subtreeAt]
    rcases ordered.find?_node key k with ⟨less, here, -⟩ | ⟨same, here, -⟩ | ⟨greater, here, -⟩
    · rw [if_pos less]
      exact ihl orderedL (here ▸ found)
    · rw [if_neg same.not_lt, if_neg same.symm.not_lt]
      rw [here] at found
      exact ⟨l, r, by rw [Option.some.inj found]⟩
    · rw [if_neg greater.not_gt, if_pos greater]
      exact ihr orderedR (here ▸ found)

lemma find?_replaceAt (ordered : t.Ordered key) (present : find? key t k ≠ none)
    (same : key x = k) : find? key (replaceAt key k (node nil x nil) t) k = some x := by
  induction t with
  | nil => exact absurd rfl present
  | node l y r ihl ihr =>
    obtain ⟨orderedL, orderedR, below, -⟩ := (ordered_node key).mp ordered
    rw [replaceAt]
    rcases ordered.find?_node key k with ⟨less, here, -⟩ | ⟨equal, -⟩ | ⟨greater, here, -⟩
    · rw [if_pos less]
      have inner := ihl orderedL (here ▸ present)
      rw [find?, toList_node, find?_append, ← find?, inner, Option.some_or]
    · rw [if_neg equal.not_lt, if_neg equal.symm.not_lt]
      simp [find?, same]
    · rw [if_neg greater.not_gt, if_pos greater]
      have inner := ihr orderedR (here ▸ present)
      have absent : l.toList.find? (fun z => decide (key z = k)) = none := by
        rw [List.find?_eq_none]
        intro z member
        simpa using ((below z member).trans greater).ne
      rw [find?, toList_node, find?_append, absent, Option.none_or, find?_cons_of_neg, ← find?, inner]
      simpa using greater.ne

end Splay

section Map

variable {κ : Type*} [LinearOrder κ] (key : α → κ)

lemma toList_map (f : α → β) (t : STree α) : (t.map f).toList = t.toList.map f := by
  induction t with
  | nil => rfl
  | node l x r ihl ihr => simp [map, ihl, ihr]

variable {f : α → α}

lemma find?_map (keeps : ∀ x, key (f x) = key x) (t : STree α) (q : κ) :
    find? key (t.map f) q = (find? key t q).map f := by
  rw [find?, toList_map, List.find?_map, find?]
  simp only [Function.comp_def, keeps]

lemma map_ordered (keeps : ∀ x, key (f x) = key x) (ordered : t.Ordered key) :
    (t.map f).Ordered key := by
  rw [Ordered, toList_map, pairwise_map]
  simp only [keeps]
  exact ordered

end Map

end STree

end HpcToolkit.Lib
