import HpcToolkit.Lib.Splay

/-! # Trees and lists made of links

Nodes in memory have links to other nodes. What a pointer reaches is a tree or a list of nodes when the links are those of
the tree or list; nothing here depends on how the links are stored.
-/

open List

namespace HpcToolkit.Lib

variable {A : Type*}

namespace STree

variable {left right left' right' : A → Option A} {t : STree A} {p : Option A}

/-- The tree is what the pointer reaches. -/
def Linked (left right : A → Option A) : STree A → Option A → Prop
  | nil, p => p = none
  | node l a r, p => p = some a ∧ Linked left right l (left a) ∧ Linked left right r (right a)

@[simp] lemma linked_nil : Linked left right nil p ↔ p = none := Iff.rfl

@[simp] lemma linked_node {l r : STree A} {a : A} :
    Linked left right (node l a r) p ↔
      p = some a ∧ Linked left right l (left a) ∧ Linked left right r (right a) := Iff.rfl

lemma Linked.root (linked : Linked left right t p) : p = t.root? := by
  cases t with
  | nil => exact linked
  | node l a r => exact linked.1

lemma Linked.congr (linked : Linked left right t p) (sameLeft : ∀ a ∈ t.toList, left' a = left a)
    (sameRight : ∀ a ∈ t.toList, right' a = right a) : Linked left' right' t p := by
  induction t generalizing p with
  | nil => exact linked
  | node l a r ihl ihr =>
    obtain ⟨root, below, above⟩ := linked
    have here : a ∈ (node l a r).toList := by simp
    refine ⟨root, ?_, ?_⟩
    · rw [sameLeft a here]
      exact ihl below (fun b member => sameLeft b (by simp [member])) fun b member => sameRight b (by simp [member])
    · rw [sameRight a here]
      exact ihr above (fun b member => sameLeft b (by simp [member])) fun b member => sameRight b (by simp [member])

/-- Where the links of the nodes lead. -/
def targets (left right : A → Option A) (t : STree A) : List A :=
  t.toList.flatMap fun a => (left a).toList ++ (right a).toList

lemma Linked.targets_perm (linked : Linked left right t p) : (p.toList ++ t.targets left right).Perm t.toList := by
  induction t generalizing p with
  | nil => simp [show p = none from linked, targets]
  | node l a r ihl ihr =>
    obtain ⟨rfl, below, above⟩ := linked
    have both := (ihl below).append (ihr above)
    simp only [targets, toList_node, flatMap_append, flatMap_cons, Option.toList_some] at both ⊢
    refine List.Perm.trans (List.Perm.cons a ?_) perm_middle.symm
    refine List.Perm.trans ?_ both
    rw [append_assoc (left a).toList, ← append_assoc (flatMap _ _)]
    exact perm_append_comm.append_right _

variable {a v : A}

section
variable (linked : Linked left right t p)
include linked

lemma Linked.root_not_target (nodup : t.toList.Nodup) (member : a ∈ t.toList)
    (target : left a = some v ∨ right a = some v) : p ≠ some v := by
  rintro rfl
  have apart := nodup_append.mp (linked.targets_perm.nodup_iff.mpr nodup)
  refine apart.2.2 v (by simp) v ?_ rfl
  exact mem_flatMap.mpr ⟨a, member, by rcases target with link | link <;> simp [link]⟩

lemma Linked.target_mem (member : a ∈ t.toList)
    (target : left a = some v ∨ right a = some v) : v ∈ t.toList := by
  rw [← linked.targets_perm.mem_iff]
  refine mem_append_right _ (mem_flatMap.mpr ⟨a, member, ?_⟩)
  rcases target with link | link <;> simp [link]

lemma Linked.source_unique (nodup : t.toList.Nodup) {a b v : A}
    (memA : a ∈ t.toList) (memB : b ∈ t.toList) (fromA : left a = some v ∨ right a = some v)
    (fromB : left b = some v ∨ right b = some v) : a = b := by
  have apart := (nodup_append.mp (linked.targets_perm.nodup_iff.mpr nodup)).2.1
  have pairwise := (nodup_flatMap.mp apart).2
  by_contra differ
  have : Std.Symm (Function.onFun List.Disjoint fun a => (left a).toList ++ (right a).toList) :=
    ⟨fun _ _ disjoint => disjoint.symm⟩
  have disjoint : List.Disjoint ((left a).toList ++ (right a).toList) ((left b).toList ++ (right b).toList) :=
    pairwise.forall memA memB differ
  apply @disjoint v
  · rcases fromA with link | link <;> simp [link]
  · rcases fromB with link | link <;> simp [link]

lemma Linked.left_ne_right (nodup : t.toList.Nodup)
    (member : a ∈ t.toList) (target : left a = some v) : right a ≠ some v := by
  intro other
  have apart := (nodup_append.mp (linked.targets_perm.nodup_iff.mpr nodup)).2.1
  have once := (nodup_flatMap.mp apart).1 a member
  simp [target, other] at once

end

/-- The number of the nodes on a longest path. -/
def height : STree A → ℕ
  | nil => 0
  | node l _ r => max l.height r.height + 1

lemma length_lt_two_pow (t : STree A) : t.toList.length < 2 ^ t.height := by
  induction t with
  | nil => simp [height]
  | node l a r ihl ihr =>
    have left := Nat.pow_le_pow_right (show 0 < 2 by decide) (le_max_left l.height r.height)
    have right := Nat.pow_le_pow_right (show 0 < 2 by decide) (le_max_right l.height r.height)
    rw [toList_node, length_append, length_cons, height, pow_succ]
    omega

end STree

/-- The nodes from one pointer to another along a link. -/
def Chain (next : A → Option A) : List A → Option A → Option A → Prop
  | [], p, q => p = q
  | a :: nodes, p, q => p = some a ∧ Chain next nodes (next a) q

namespace Chain

variable {next next' : A → Option A} {nodes nodes' : List A} {p q : Option A}

lemma congr (chain : Chain next nodes p q) (same : ∀ a ∈ nodes, next' a = next a) : Chain next' nodes p q := by
  induction nodes generalizing p with
  | nil => exact chain
  | cons a nodes ih =>
    refine ⟨chain.1, ?_⟩
    rw [same a mem_cons_self]
    exact ih chain.2 fun b member => same b (mem_cons_of_mem a member)

lemma append : Chain next (nodes ++ nodes') p q ↔ ∃ m, Chain next nodes p m ∧ Chain next nodes' m q := by
  induction nodes generalizing p with
  | nil => simp [Chain]
  | cons a nodes ih => simp [Chain, ih, and_assoc]

lemma unique (chain : Chain next nodes p none) (chain' : Chain next nodes' p none) : nodes = nodes' := by
  induction nodes generalizing p nodes' with
  | nil =>
    cases nodes' with
    | nil => rfl
    | cons b nodes' => exact absurd (chain.symm.trans chain'.1) (by simp)
  | cons a nodes ih =>
    cases nodes' with
    | nil => exact absurd (chain'.symm.trans chain.1) (by simp)
    | cons b nodes' =>
      obtain rfl : a = b := Option.some.inj (chain.1.symm.trans chain'.1)
      rw [ih chain.2 chain'.2]

lemma mem_of_reached {a : A} (front : Chain next nodes' p (some a)) (chain : Chain next nodes p none) : a ∈ nodes := by
  induction nodes' generalizing p nodes with
  | nil =>
    obtain rfl : p = some a := front
    cases nodes with
    | nil => exact absurd chain (by simp [Chain])
    | cons b nodes => exact Option.some.inj chain.1 ▸ mem_cons_self
  | cons b nodes' ih =>
    obtain ⟨rfl, front⟩ := front
    cases nodes with
    | nil => exact absurd chain (by simp [Chain])
    | cons c nodes =>
      obtain rfl : b = c := Option.some.inj chain.1
      exact mem_cons_of_mem b (ih front chain.2)

lemma nodup (chain : Chain next nodes p none) : nodes.Nodup := by
  induction nodes generalizing p with
  | nil => exact .nil
  | cons a nodes ih =>
    refine nodup_cons.mpr ⟨fun again => ?_, ih chain.2⟩
    obtain ⟨early, late, rfl⟩ := append_of_mem again
    obtain ⟨q, -, rfl, after⟩ := append.mp chain.2
    have shorter := congrArg length (chain.2.unique after)
    rw [length_append, length_cons] at shorter
    omega

lemma endless_of_cycle {a : A} (cycle : Chain next nodes (some a) (some a)) (round : nodes ≠ []) :
    ¬ Chain next nodes' (some a) none := by
  intro chain
  have longer := congrArg length ((append.mpr ⟨some a, cycle, chain⟩).unique chain)
  rw [length_append] at longer
  exact round (eq_nil_of_length_eq_zero (by omega))

end Chain

end HpcToolkit.Lib
