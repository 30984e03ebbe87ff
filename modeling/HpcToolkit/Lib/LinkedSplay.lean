import HpcToolkit.Lib.LinkedTree

/-! # Splaying in place

The top-down splay on nodes that carry a left and a right link: each iteration writes links of the nodes and of a
node of its own, on which the trees of the smaller and of the larger keys are built. The links it leaves are those of
the splayed tree, and no node outside the tree is written.
-/

open Function
open List hiding nil

namespace HpcToolkit.Lib

variable {A κ : Type*}

namespace STree

/-- The tree with left and right exchanged. -/
def mirror : STree A → STree A
  | nil => nil
  | node l a r => node r.mirror a l.mirror

@[simp] lemma mirror_mirror (t : STree A) : t.mirror.mirror = t := by
  induction t with
  | nil => rfl
  | node l a r ihl ihr => rw [mirror, mirror, ihl, ihr]

@[simp] lemma toList_mirror (t : STree A) : t.mirror.toList = t.toList.reverse := by
  induction t with
  | nil => rfl
  | node l a r ihl ihr => simp [mirror, ihl, ihr]

lemma Linked.mirror {left right : A → Option A} {t : STree A} {p : Option A} (linked : Linked left right t p) :
    Linked right left t.mirror p := by
  induction t generalizing p with
  | nil => exact linked
  | node l a r ihl ihr => exact ⟨linked.1, ihr linked.2.2, ihl linked.2.1⟩

lemma closeRight_mirror (frames : List (A × STree A)) (t : STree A) :
    (closeRight frames t).mirror = closeLeft (frames.map fun frame => (frame.2.mirror, frame.1)) t.mirror := by
  induction frames generalizing t with
  | nil => rfl
  | cons frame frames ih => rw [closeRight, ih, map_cons, closeLeft, mirror]

lemma closeLeft_mirror (frames : List (STree A × A)) (t : STree A) :
    (closeLeft frames t).mirror = closeRight (frames.map fun frame => (frame.2, frame.1.mirror)) t.mirror := by
  induction frames generalizing t with
  | nil => rfl
  | cons frame frames ih => rw [closeLeft, ih, map_cons, closeRight, mirror]

end STree

/-- The links of the nodes; `none` is the node of the splay itself. -/
structure Links (A : Type*) where
  left : Option A → Option A
  right : Option A → Option A

namespace Links

open STree

section Writes
variable [DecidableEq A]

def setLeft (s : Links A) (p q : Option A) : Links A := { s with left := update s.left p q }

def setRight (s : Links A) (p q : Option A) : Links A := { s with right := update s.right p q }

/-- The rotation of `x` and its left child `y`, towards the right. -/
def rotateRight (s : Links A) (x y : A) : Links A := (s.setLeft (some x) (s.right (some y))).setRight (some y) (some x)

/-- The rotation of `x` and its right child `y`, towards the left. -/
def rotateLeft (s : Links A) (x y : A) : Links A := (s.setRight (some x) (s.left (some y))).setLeft (some y) (some x)

/-- What follows the loop: the spines take over the subtrees of the root, and the root takes over the spines. -/
def assemble (s : Links A) (root : A) (ltreeMax rtreeMin : Option A) : Links A :=
  let s := s.setRight ltreeMax (s.left (some root))
  let s := s.setLeft rtreeMin (s.right (some root))
  let s := s.setLeft (some root) (s.right none)
  s.setRight (some root) (s.left none)

variable [LinearOrder κ] (key : A → κ) (k : κ)

/-- The loop of the splay, with the last nodes of both spines. -/
def splayLoop : ℕ → A → Option A → Option A → Links A → Option (A × Links A)
  | 0, _, _, _, _ => none
  | fuel + 1, root, ltreeMax, rtreeMin, s =>
    if k < key root then
      match s.left (some root) with
      | none => some (root, s.assemble root ltreeMax rtreeMin)
      | some y =>
        if k < key y then
          let s := s.rotateRight root y
          match s.left (some y) with
          | none => some (y, s.assemble y ltreeMax rtreeMin)
          | some z => splayLoop fuel z ltreeMax (some y) (s.setLeft rtreeMin (some y))
        else splayLoop fuel y ltreeMax (some root) (s.setLeft rtreeMin (some root))
    else if key root < k then
      match s.right (some root) with
      | none => some (root, s.assemble root ltreeMax rtreeMin)
      | some y =>
        if key y < k then
          let s := s.rotateLeft root y
          match s.right (some y) with
          | none => some (y, s.assemble y ltreeMax rtreeMin)
          | some z => splayLoop fuel z (some y) rtreeMin (s.setRight ltreeMax (some y))
        else splayLoop fuel y (some root) rtreeMin (s.setRight ltreeMax (some root))
    else some (root, s.assemble root ltreeMax rtreeMin)

/-- Splay the tree a pointer reaches; `none` when the loop takes more iterations than `fuel`. -/
def splay (fuel : ℕ) (root : Option A) (s : Links A) : Option (Option A × Links A) :=
  match root with
  | none => some (none, s)
  | some root => (splayLoop key k fuel root none none s).map fun (root, s) => (some root, s)

end Writes

/-- The tree that a pointer reaches. -/
def Tree (s : Links A) (t : STree A) (p : Option A) : Prop :=
  Linked (fun a => s.left (some a)) (fun a => s.right (some a)) t p

instance Tree.decidable [DecidableEq A] (s : Links A) : (t : STree A) → (p : Option A) → Decidable (s.Tree t p)
  | nil, p => inferInstanceAs (Decidable (p = none))
  | node l a r, p =>
    have _ := Tree.decidable s l (s.left (some a))
    have _ := Tree.decidable s r (s.right (some a))
    inferInstanceAs (Decidable (p = some a ∧ s.Tree l (s.left (some a)) ∧ s.Tree r (s.right (some a))))

/-- The links with left and right exchanged. -/
def swap (s : Links A) : Links A := ⟨s.right, s.left⟩

/-- The spine of smaller keys hangs on the right link of the splay's node; `p` is its last node, with the right link
still open. -/
def Smaller (s : Links A) : List (STree A × A) → Option A → Prop
  | [], p => p = none
  | (l, x) :: frames, p => p = some x ∧ s.Tree l (s.left (some x)) ∧ ∃ q, s.Smaller frames q ∧ s.right q = some x

variable {s s' : Links A} {t l r : STree A} {smaller : List (STree A × A)} {larger : List (A × STree A)}
  {p q : Option A} {root x y : A}

lemma Tree.congr (tree : s.Tree t p) (sameLeft : ∀ a ∈ t.toList, s'.left (some a) = s.left (some a))
    (sameRight : ∀ a ∈ t.toList, s'.right (some a) = s.right (some a)) : s'.Tree t p :=
  Linked.congr tree sameLeft sameRight

@[simp] lemma tree_nil : s.Tree nil p ↔ p = none := Iff.rfl

@[simp] lemma tree_node :
    s.Tree (node l x r) p ↔ p = some x ∧ s.Tree l (s.left (some x)) ∧ s.Tree r (s.right (some x)) := Iff.rfl

lemma Tree.swap (tree : s.Tree t p) : s.swap.Tree t.mirror p := Linked.mirror tree

lemma Smaller.last (spine : s.Smaller smaller p) : p = none ∨ ∃ a ∈ (closeLeft smaller nil).toList, p = some a := by
  cases smaller with
  | nil => exact .inl spine
  | cons frame frames => exact .inr ⟨frame.2, by rw [toList_closeLeft_cons]; simp, spine.1⟩

lemma Smaller.congr (spine : s.Smaller smaller p) (nodup : (closeLeft smaller nil).toList.Nodup)
    (sameLeft : ∀ a ∈ (closeLeft smaller nil).toList, s'.left (some a) = s.left (some a))
    (sameNone : p ≠ none → s'.right none = s.right none)
    (sameRight : ∀ a ∈ (closeLeft smaller nil).toList, p ≠ some a → s'.right (some a) = s.right (some a)) :
    s'.Smaller smaller p := by
  induction smaller generalizing p with
  | nil => exact spine
  | cons frame frames ih =>
    obtain ⟨l, x⟩ := frame
    obtain ⟨rfl, tree, q, spine, link⟩ := spine
    rw [toList_closeLeft_cons] at nodup sameLeft sameRight
    have apart := nodup_append.mp nodup
    have apartL := nodup_append.mp apart.2.1
    have inner (a : A) (member : a ∈ (closeLeft frames nil).toList) : x ≠ a :=
      (apart.2.2 a member x (by simp)).symm
    have same : s'.right q = s.right q := by
      rcases spine.last with rfl | ⟨a, member, rfl⟩
      · exact sameNone (by simp)
      · exact sameRight a (by simp [member]) (by simpa using inner a member)
    refine ⟨rfl, ?_, q, ih spine apart.1 (fun a member => sameLeft a (by simp [member])) (fun _ => sameNone (by simp))
      (fun a member _ => sameRight a (by simp [member]) (by simpa using inner a member)), same.trans link⟩
    rw [sameLeft x (by simp)]
    apply tree.congr (fun a member => sameLeft a (by simp [member]))
    intro a member
    exact sameRight a (by simp [member]) (by simpa using (apartL.2.2 a member x (by simp)).symm)

lemma Smaller.close (spine : s.Smaller smaller p) (tree : s.Tree t (s.right p)) :
    s.Tree (closeLeft smaller t) (s.right none) := by
  induction smaller generalizing t p with
  | nil => exact (show p = none from spine) ▸ tree
  | cons frame frames ih =>
    obtain ⟨rfl, side, q, spine, link⟩ := spine
    apply ih spine
    rw [link]
    exact ⟨rfl, side, tree⟩

/-- The links of the nodes outside the list are the same. -/
def SameOff (nodes : List A) (s s' : Links A) : Prop :=
  ∀ a, a ∉ nodes → s'.left (some a) = s.left (some a) ∧ s'.right (some a) = s.right (some a)

lemma SameOff.trans {s'' : Links A} {nodes : List A} (same : SameOff nodes s s') (same' : SameOff nodes s' s'') :
    SameOff nodes s s'' := by
  intro a outside
  exact ⟨(same' a outside).1.trans (same a outside).1, (same' a outside).2.trans (same a outside).2⟩

lemma Tree.off {nodes : List A} (tree : s.Tree t p) (off : SameOff nodes s s') (apart : ∀ a ∈ t.toList, a ∉ nodes) :
    s'.Tree t p :=
  tree.congr (fun a member => (off a (apart a member)).1) fun a member => (off a (apart a member)).2

/-- The frames of the larger keys as those of a spine to the other side. -/
abbrev flipLarger (larger : List (A × STree A)) : List (STree A × A) :=
  larger.map fun frame => (frame.2.mirror, frame.1)

/-- The frames of the smaller keys as those of a spine to the other side. -/
abbrev flipSmaller (smaller : List (STree A × A)) : List (A × STree A) :=
  smaller.map fun frame => (frame.2, frame.1.mirror)

lemma toList_flipLarger (larger : List (A × STree A)) :
    (closeLeft (flipLarger larger) nil).toList = (closeRight larger nil).toList.reverse := by
  have mirrored := congrArg toList (closeRight_mirror larger nil)
  rw [toList_mirror] at mirrored
  exact mirrored.symm

lemma toList_flipSmaller (smaller : List (STree A × A)) :
    (closeRight (flipSmaller smaller) nil).toList = (closeLeft smaller nil).toList.reverse := by
  have mirrored := congrArg toList (closeLeft_mirror smaller nil)
  rw [toList_mirror] at mirrored
  exact mirrored.symm

/-- The nodes of the tree that is left and of the spines. -/
def nodes (t : STree A) (smaller : List (STree A × A)) (larger : List (A × STree A)) : List A :=
  (closeLeft smaller nil).toList ++ t.toList ++ (closeRight larger nil).toList

lemma nodes_flip (t : STree A) (smaller : List (STree A × A)) (larger : List (A × STree A)) :
    nodes t.mirror (flipLarger larger) (flipSmaller smaller) = (nodes t smaller larger).reverse := by
  simp only [nodes, toList_flipLarger, toList_flipSmaller, toList_mirror, reverse_append, append_assoc]

lemma nodes_pushLarger : nodes l smaller ((x, r) :: larger) = nodes (node l x r) smaller larger := by
  rw [nodes, nodes, toList_closeRight_cons, toList_node]
  simp only [append_assoc, cons_append]

lemma nodes_pushSmaller : nodes r ((l, x) :: smaller) larger = nodes (node l x r) smaller larger := by
  rw [nodes, nodes, toList_closeLeft_cons, toList_node]
  simp only [append_assoc, cons_append, nil_append]

lemma nodes_rotated {t' : STree A} (list : t'.toList = t.toList) : nodes t' smaller larger = nodes t smaller larger := by
  rw [nodes, nodes, list]

lemma nodes_rotateRight : nodes (node l y (node t x r)) smaller larger = nodes (node (node l y t) x r) smaller larger :=
  nodes_rotated (by simp)

lemma nodes_rotateLeft : nodes (node (node l x t) y r) smaller larger = nodes (node l x (node t y r)) smaller larger :=
  nodes_rotated (by simp)

/-- What is linked at the head of the loop: the tree that is left and the two spines, without a node twice. -/
structure Loop (s : Links A) (t : STree A) (smaller : List (STree A × A)) (larger : List (A × STree A)) (root : A)
    (ltreeMax rtreeMin : Option A) : Prop where
  tree : s.Tree t (some root)
  below : s.Smaller smaller ltreeMax
  above : s.swap.Smaller (flipLarger larger) rtreeMin
  nodup : (nodes t smaller larger).Nodup

namespace Loop

variable {ltreeMax rtreeMin : Option A} {a : A}

section
variable (loop : Loop s t smaller larger root ltreeMax rtreeMin)
include loop

lemma swap :
    Loop s.swap t.mirror (flipLarger larger) (flipSmaller smaller) root rtreeMin ltreeMax where
  tree := loop.tree.swap
  below := loop.above
  above := by
    have same : flipLarger (flipSmaller smaller) = smaller := by simp [comp_def]
    rw [same]
    exact loop.below
  nodup := by
    rw [nodes_flip, nodup_reverse]
    exact loop.nodup

lemma ltreeMax_ne
    (member : a ∈ t.toList ∨ a ∈ (closeRight larger nil).toList) : ltreeMax ≠ some a := by
  have apart := loop.nodup
  rw [nodes, append_assoc] at apart
  rcases loop.below.last with rfl | ⟨b, inside, rfl⟩
  · simp
  · have differ := (nodup_append.mp apart).2.2 b inside a (mem_append.mpr member)
    simpa using differ

lemma rtreeMin_ne
    (member : a ∈ (closeLeft smaller nil).toList ∨ a ∈ t.toList) : rtreeMin ≠ some a := by
  apply loop.swap.ltreeMax_ne
  rw [toList_mirror, toList_flipSmaller, mem_reverse, mem_reverse]
  exact member.symm

end

section Steps
variable [DecidableEq A]

lemma pushLarger (loop : Loop s (node l x r) smaller larger x ltreeMax rtreeMin) (next : l.root? = some y) :
    Loop (s.setLeft rtreeMin (some x)) l smaller ((x, r) :: larger) y ltreeMax (some x) where
  tree := by
    have below := loop.tree.2.1
    have root := below.root
    rw [next] at root
    rw [root] at below
    apply Tree.congr below
    · intro a member
      exact update_of_ne (loop.rtreeMin_ne (.inr (by simp [member]))).symm _ _
    · exact fun _ _ => rfl
  below := by
    apply loop.below.congr (nodup_append.mp (nodup_append.mp loop.nodup).1).1
    · intro a member
      exact update_of_ne (loop.rtreeMin_ne (.inl member)).symm _ _
    · exact fun _ => rfl
    · exact fun _ _ _ => rfl
  above := by
    refine ⟨rfl, ?_, rtreeMin, ?_, update_self _ _ _⟩
    · have side : s.Tree r (s.right (some x)) := loop.tree.2.2
      apply side.swap.congr
      · exact fun _ _ => rfl
      · intro a member
        rw [toList_mirror, mem_reverse] at member
        exact update_of_ne (loop.rtreeMin_ne (.inr (by simp [member]))).symm _ _
    · apply loop.above.congr
      · rw [toList_flipLarger, nodup_reverse]
        exact (nodup_append.mp loop.nodup).2.1
      · exact fun _ _ => rfl
      · exact fun differ => update_of_ne differ.symm _ _
      · exact fun _ _ differ => update_of_ne differ.symm _ _
  nodup := by
    rw [nodes_pushLarger]
    exact loop.nodup

lemma pushSmaller (loop : Loop s (node l x r) smaller larger x ltreeMax rtreeMin) (next : r.root? = some y) :
    Loop (s.setRight ltreeMax (some x)) r ((l, x) :: smaller) larger y (some x) rtreeMin := by
  have root : r.mirror.root? = some y := by
    cases r with
    | nil => exact next
    | node l y r => exact next
  have pushed := (loop.swap.pushLarger root).swap
  simp only [flipLarger, flipSmaller, map_cons, map_map, comp_def, mirror_mirror, Prod.mk.eta,
    map_id'] at pushed
  exact pushed

end Steps

lemma relink {t' : STree A} (loop : Loop s t smaller larger root ltreeMax rtreeMin) (off : SameOff t.toList s s')
    (sameLeft : s'.left none = s.left none) (sameRight : s'.right none = s.right none) (tree : s'.Tree t' (some y))
    (list : t'.toList = t.toList) : Loop s' t' smaller larger y ltreeMax rtreeMin where
  tree := tree
  below := by
    have apart := nodup_append.mp (nodup_append.mp loop.nodup).1
    have outside (a : A) (member : a ∈ (closeLeft smaller nil).toList) : a ∉ t.toList :=
      fun inside => apart.2.2 a member a inside rfl
    apply loop.below.congr apart.1
    · exact fun a member => (off a (outside a member)).1
    · exact fun _ => sameRight
    · exact fun a member _ => (off a (outside a member)).2
  above := by
    have apart := nodup_append.mp loop.nodup
    have outside (a : A) (member : a ∈ (closeLeft (flipLarger larger) nil).toList) : a ∉ t.toList := by
      rw [toList_flipLarger, mem_reverse] at member
      exact fun inside => apart.2.2 a (by simp [inside]) a member rfl
    apply loop.above.congr
    · rw [toList_flipLarger, nodup_reverse]
      exact apart.2.1
    · exact fun a member => (off a (outside a member)).2
    · exact fun _ => sameLeft
    · exact fun a member _ => (off a (outside a member)).1
  nodup := by
    rw [nodes_rotated list]
    exact loop.nodup

end Loop

section Rotate
variable [DecidableEq A]

lemma sameOff_rotateRight (s : Links A) (nodes : List A) (memX : x ∈ nodes) (memY : y ∈ nodes) :
    SameOff nodes s (s.rotateRight x y) := by
  intro a outside
  have awayX : a ≠ x := fun same => outside (same ▸ memX)
  have awayY : a ≠ y := fun same => outside (same ▸ memY)
  simp [rotateRight, setLeft, setRight, awayX, awayY]

lemma Tree.rotateRight (tree : s.Tree (node (node l y t) x r) p)
    (nodup : (node (node l y t) x r).toList.Nodup) : (s.rotateRight x y).Tree (node l y (node t x r)) (some y) := by
  have treeL : s.Tree l (s.left (some y)) := tree.2.1.2.1
  have treeT : s.Tree t (s.right (some y)) := tree.2.1.2.2
  have treeR : s.Tree r (s.right (some x)) := tree.2.2
  have apart : x ∉ l.toList ++ t.toList ++ r.toList ∧ y ∉ l.toList ++ t.toList ++ r.toList ∧ y ≠ x := by
    simp only [toList_node, nodup_append, nodup_cons, mem_append, mem_cons] at nodup
    grind
  obtain ⟨awayX, awayY, differ⟩ := apart
  have off := sameOff_rotateRight (x := x) (y := y) s [x, y] (by simp) (by simp)
  have keep (a : A) (member : a ∈ l.toList ++ t.toList ++ r.toList) : a ∉ [x, y] := by
    have differX : a ≠ x := fun same => awayX (same ▸ member)
    have differY : a ≠ y := fun same => awayY (same ▸ member)
    simp [differX, differY]
  have below := treeL.off off fun a member => keep a (by simp [member])
  have middle := treeT.off off fun a member => keep a (by simp [member])
  have above := treeR.off off fun a member => keep a (by simp [member])
  have leftY : (s.rotateRight x y).left (some y) = s.left (some y) := by
    simp [Links.rotateRight, setLeft, setRight, differ]
  have rightY : (s.rotateRight x y).right (some y) = some x := by simp [Links.rotateRight, setRight]
  have leftX : (s.rotateRight x y).left (some x) = s.right (some y) := by
    simp [Links.rotateRight, setLeft, setRight]
  have rightX : (s.rotateRight x y).right (some x) = s.right (some x) := by
    simp [Links.rotateRight, setLeft, setRight, differ.symm]
  rw [tree_node, tree_node, leftY, rightY, leftX, rightX]
  exact ⟨rfl, below, rfl, middle, above⟩

lemma Loop.rotateRight {ltreeMax rtreeMin : Option A}
    (loop : Loop s (node (node l y t) x r) smaller larger x ltreeMax rtreeMin) :
    Loop (s.rotateRight x y) (node l y (node t x r)) smaller larger y ltreeMax rtreeMin := by
  apply loop.relink (sameOff_rotateRight s _ (by simp) (by simp)) rfl rfl
  · apply loop.tree.rotateRight
    exact (nodup_append.mp (nodup_append.mp loop.nodup).1).2.1
  · simp

lemma Loop.rotateLeft {ltreeMax rtreeMin : Option A}
    (loop : Loop s (node l x (node t y r)) smaller larger x ltreeMax rtreeMin) :
    Loop (s.rotateLeft x y) (node (node l x t) y r) smaller larger y ltreeMax rtreeMin := by
  have rotated := loop.swap.rotateRight.swap
  simp only [flipLarger, flipSmaller, map_map, comp_def, mirror, mirror_mirror, Prod.mk.eta,
    map_id'] at rotated
  exact rotated

lemma rotateRight_off (s : Links A) :
    SameOff (nodes (node (node l y t) x r) smaller larger) s (s.rotateRight x y) :=
  sameOff_rotateRight s _ (by simp [nodes]) (by simp [nodes])

lemma rotateLeft_off (s : Links A) :
    SameOff (nodes (node l x (node t y r)) smaller larger) s (s.rotateLeft x y) := by
  intro a outside
  have turned : a ∉ nodes (node (node r.mirror y t.mirror) x l.mirror) (flipLarger larger) (flipSmaller smaller) → _ :=
    rotateRight_off s.swap a
  have same := nodes_flip (node l x (node t y r)) smaller larger
  rw [mirror, mirror] at same
  rw [same, mem_reverse] at turned
  exact (turned outside).symm

lemma Smaller.attach (spine : s.Smaller smaller p) (tree : s.Tree t q)
    (nodup : ((closeLeft smaller nil).toList ++ t.toList).Nodup) :
    (s.setRight p q).Tree (closeLeft smaller t) ((s.setRight p q).right none) := by
  have apart := nodup_append.mp nodup
  have spine' : (s.setRight p q).Smaller smaller p := by
    apply spine.congr apart.1
    · exact fun _ _ => rfl
    · exact fun differ => update_of_ne differ.symm _ _
    · exact fun _ _ differ => update_of_ne differ.symm _ _
  apply spine'.close
  rw [show (s.setRight p q).right p = q from update_self _ _ _]
  apply tree.congr
  · exact fun _ _ => rfl
  · intro a member
    have differ : some a ≠ p := by
      rcases spine.last with rfl | ⟨b, inside, rfl⟩
      · simp
      · simpa using (apart.2.2 b inside a member).symm
    exact update_of_ne differ _ _

lemma Loop.assemble {ltreeMax rtreeMin : Option A} (loop : Loop s (node l x r) smaller larger x ltreeMax rtreeMin) :
    (s.assemble x ltreeMax rtreeMin).Tree (STree.assemble smaller larger l x r) (some x) := by
  have maxX := loop.ltreeMax_ne (a := x) (.inl (by simp))
  have minX := loop.rtreeMin_ne (a := x) (.inr (by simp))
  have nodup := loop.nodup
  rw [nodes, toList_node] at nodup
  have treeL : s.Tree l (s.left (some x)) := loop.tree.2.1
  have treeR : s.Tree r (s.right (some x)) := loop.tree.2.2
  obtain ⟨s₁, first⟩ : ∃ s₁, s₁ = s.setRight ltreeMax (s.left (some x)) := ⟨_, rfl⟩
  have right₁ (a : A) (member : a ∈ r.toList ∨ a = x ∨ a ∈ (closeRight larger nil).toList) :
      s₁.right (some a) = s.right (some a) := by
    have differ := loop.ltreeMax_ne (a := a) (by rcases member with inside | rfl | inside <;> simp [*])
    rw [first]
    exact update_of_ne differ.symm _ _
  have below : s₁.Tree (closeLeft smaller l) (s₁.right none) := by
    rw [first]
    apply loop.below.attach treeL
    grind
  have treeR₁ : s₁.swap.Tree r.mirror (s₁.right (some x)) := by
    rw [right₁ x (.inr (.inl rfl))]
    apply Tree.swap
    apply treeR.congr
    · exact fun a _ => by rw [first]; rfl
    · exact fun a member => right₁ a (.inl member)
  have spine : s₁.swap.Smaller (flipLarger larger) rtreeMin := by
    apply loop.above.congr
    · rw [toList_flipLarger, nodup_reverse]
      exact (nodup_append.mp nodup).2.1
    · intro a member
      rw [toList_flipLarger, mem_reverse] at member
      exact right₁ a (.inr (.inr member))
    · exact fun _ => by rw [first]; rfl
    · exact fun _ _ _ => by rw [first]; rfl
  obtain ⟨s₂, second⟩ : ∃ s₂, s₂ = s₁.setLeft rtreeMin (s₁.right (some x)) := ⟨_, rfl⟩
  have above : s₂.Tree (closeRight larger r) (s₂.left none) := by
    have attached := spine.attach treeR₁ (by
      rw [toList_flipLarger, toList_mirror, ← reverse_append, nodup_reverse]
      grind)
    rw [← closeRight_mirror] at attached
    have turned := attached.swap
    rw [mirror_mirror] at turned
    rw [second]
    exact turned
  have below₂ : s₂.Tree (closeLeft smaller l) (s₂.right none) := by
    rw [second]
    apply below.congr
    · intro a member
      rw [toList_closeLeft, mem_append] at member
      have differ := loop.rtreeMin_ne (a := a) (by rcases member with inside | inside <;> simp [inside])
      exact update_of_ne differ.symm _ _
    · exact fun _ _ => rfl
  have final : s.assemble x ltreeMax rtreeMin = (s₂.setLeft (some x) (s₂.right none)).setRight (some x) (s₂.left none) := by
    rw [second, first, Links.assemble]
    rfl
  have outside : x ∉ (closeLeft smaller l).toList ∧ x ∉ (closeRight larger r).toList := by
    rw [toList_closeLeft, toList_closeRight]
    grind
  rw [final]
  refine ⟨rfl, ?_, ?_⟩
  · simp only [setLeft, setRight, update_self]
    apply Linked.congr below₂
    · intro a member
      exact update_of_ne (by rintro ⟨⟩; exact outside.1 member) _ _
    · intro a member
      exact update_of_ne (by rintro ⟨⟩; exact outside.1 member) _ _
  · simp only [setLeft, setRight, update_self]
    apply Linked.congr above
    · intro a member
      exact update_of_ne (by rintro ⟨⟩; exact outside.2 member) _ _
    · intro a member
      exact update_of_ne (by rintro ⟨⟩; exact outside.2 member) _ _

lemma sameOff_setLeft (nodes : List A) (s : Links A) (q : Option A) (within : ∀ a, p = some a → a ∈ nodes) :
    SameOff nodes s (s.setLeft p q) := by
  intro a outside
  exact ⟨update_of_ne (fun same => outside (within a same.symm)) _ _, rfl⟩

lemma sameOff_setRight (nodes : List A) (s : Links A) (q : Option A) (within : ∀ a, p = some a → a ∈ nodes) :
    SameOff nodes s (s.setRight p q) := by
  intro a outside
  exact ⟨rfl, update_of_ne (fun same => outside (within a same.symm)) _ _⟩

end Rotate

section Follows
variable {ltreeMax rtreeMin : Option A} {fuel : ℕ}

lemma Loop.mem_ltreeMax (loop : Loop s t smaller larger root ltreeMax rtreeMin) (a : A) (last : ltreeMax = some a) :
    a ∈ nodes t smaller larger := by
  obtain absent | ⟨b, inside, same⟩ := loop.below.last
  · simp [last] at absent
  · obtain rfl : a = b := Option.some.inj (last.symm.trans same)
    simp [nodes, inside]

lemma Loop.mem_rtreeMin (loop : Loop s t smaller larger root ltreeMax rtreeMin) (a : A) (last : rtreeMin = some a) :
    a ∈ nodes t smaller larger := by
  have member := loop.swap.mem_ltreeMax a last
  rwa [nodes_flip, mem_reverse] at member

section
variable (loop : Loop s (node l x r) smaller larger root ltreeMax rtreeMin)
include loop

lemma Loop.root_eq : root = x :=
  Option.some.inj loop.tree.1

lemma Loop.left_eq :
    s.left (some x) = l.root? := loop.tree.2.1.root

lemma Loop.right_eq :
    s.right (some x) = r.root? := loop.tree.2.2.root

end

/-- What the loop ends with: the links of the tree, and nothing written outside the nodes. -/
def Splayed (s : Links A) (t : STree A) (nodes : List A) (result : Option (A × Links A)) : Prop :=
  ∃ root' s', result = some (root', s') ∧ s'.Tree t (some root') ∧ SameOff nodes s s'

lemma Splayed.after {nodes : List A} {result : Option (A × Links A)} (splayed : Splayed s' t nodes result)
    (off : SameOff nodes s s') : Splayed s t nodes result := by
  obtain ⟨root', s'', run, tree, off'⟩ := splayed
  exact ⟨root', s'', run, tree, off.trans off'⟩

variable [DecidableEq A]

lemma Loop.splayed (loop : Loop s (node l x r) smaller larger x ltreeMax rtreeMin) :
    Splayed s (STree.assemble smaller larger l x r) (nodes (node l x r) smaller larger)
      (some (x, s.assemble x ltreeMax rtreeMin)) := by
  refine ⟨x, _, rfl, loop.assemble, ?_⟩
  have root : ∀ a, some x = some a → a ∈ nodes (node l x r) smaller larger := by
    rintro a ⟨⟩
    simp [nodes]
  have first := sameOff_setRight _ s (s.left (some x)) loop.mem_ltreeMax
  obtain ⟨s₁, same₁⟩ : ∃ s₁, s₁ = s.setRight ltreeMax (s.left (some x)) := ⟨_, rfl⟩
  rw [← same₁] at first
  have second := sameOff_setLeft _ s₁ (s₁.right (some x)) loop.mem_rtreeMin
  obtain ⟨s₂, same₂⟩ : ∃ s₂, s₂ = s₁.setLeft rtreeMin (s₁.right (some x)) := ⟨_, rfl⟩
  rw [← same₂] at second
  have third := sameOff_setLeft _ s₂ (s₂.right none) root
  have last := sameOff_setRight _ (s₂.setLeft (some x) (s₂.right none)) (s₂.left none) root
  have written := ((first.trans second).trans third).trans last
  rw [same₂, same₁] at written
  exact written

variable [LinearOrder κ]

lemma Loop.splayLoop (key : A → κ) (k : κ) (loop : Loop s t smaller larger root ltreeMax rtreeMin)
    (enough : t.toList.length ≤ fuel) :
    Splayed s (STree.splayLoop key k t smaller larger) (nodes t smaller larger)
      (Links.splayLoop key k fuel root ltreeMax rtreeMin s) := by
  fun_induction STree.splayLoop key k t smaller larger generalizing fuel s root ltreeMax rtreeMin
  case case1 smaller larger => simpa [Tree] using loop.tree
  all_goals
    obtain rfl := loop.root_eq.symm
    have left := loop.left_eq
    have right := loop.right_eq
    rw [toList_node, length_append, length_cons] at enough
    obtain ⟨fuel, rfl⟩ : ∃ f, fuel = f + 1 := ⟨fuel - 1, by omega⟩
    rw [Links.splayLoop]
  case case2 x r smaller larger below =>
    rw [if_pos below, left]
    exact loop.splayed
  case case3 x r smaller larger below y lr below' =>
    rw [if_pos below, left]
    simp only [root?, if_pos below']
    rw [loop.rotateRight.left_eq]
    have rotated := loop.rotateRight.splayed
    rw [nodes_rotateRight] at rotated
    exact rotated.after (rotateRight_off s)
  case case4 x r smaller larger below y lr below' a z b ih =>
    rw [if_pos below, left]
    simp only [root?, if_pos below']
    have rotated := loop.rotateRight
    rw [rotated.left_eq]
    have pushed := ih (rotated.pushLarger rfl) (show _ ≤ fuel by simp at enough ⊢; omega)
    have off := sameOff_setLeft _ (s.rotateRight x y) (some y) rotated.mem_rtreeMin
    rw [nodes_pushLarger, nodes_rotateRight] at pushed
    rw [nodes_rotateRight] at off
    exact pushed.after ((rotateRight_off s).trans off)
  case case5 x r smaller larger below ll y lr notBelow ih =>
    rw [if_pos below, left]
    simp only [root?, if_neg notBelow]
    have pushed := ih (loop.pushLarger rfl) (show _ ≤ fuel by simp at enough ⊢; omega)
    rw [nodes_pushLarger] at pushed
    exact pushed.after (sameOff_setLeft _ _ _ loop.mem_rtreeMin)
  case case6 l x smaller larger notBelow above =>
    rw [if_neg notBelow, if_pos above, right]
    exact loop.splayed
  case case7 l x smaller larger notBelow above rl y above' =>
    rw [if_neg notBelow, if_pos above, right]
    simp only [root?, if_pos above']
    rw [loop.rotateLeft.right_eq]
    have rotated := loop.rotateLeft.splayed
    rw [nodes_rotateLeft] at rotated
    exact rotated.after (rotateLeft_off s)
  case case8 l x smaller larger notBelow above rl y above' a z b ih =>
    rw [if_neg notBelow, if_pos above, right]
    simp only [root?, if_pos above']
    have rotated := loop.rotateLeft
    rw [rotated.right_eq]
    have pushed := ih (rotated.pushSmaller rfl) (show _ ≤ fuel by simp at enough ⊢; omega)
    have off := sameOff_setRight _ (s.rotateLeft x y) (some y) rotated.mem_ltreeMax
    rw [nodes_pushSmaller, nodes_rotateLeft] at pushed
    rw [nodes_rotateLeft] at off
    exact pushed.after ((rotateLeft_off s).trans off)
  case case9 l x smaller larger notBelow above rl y rr notAbove ih =>
    rw [if_neg notBelow, if_pos above, right]
    simp only [root?, if_neg notAbove]
    have pushed := ih (loop.pushSmaller rfl) (show _ ≤ fuel by simp at enough ⊢; omega)
    rw [nodes_pushSmaller] at pushed
    exact pushed.after (sameOff_setRight _ _ _ loop.mem_ltreeMax)
  case case10 l x r smaller larger notBelow notAbove =>
    rw [if_neg notBelow, if_neg notAbove]
    exact loop.splayed

lemma Tree.splay (key : A → κ) (k : κ) (tree : s.Tree t p) (nodup : t.toList.Nodup) (enough : t.toList.length ≤ fuel) :
    ∃ p' s', Links.splay key k fuel p s = some (p', s') ∧ s'.Tree (STree.splay key k t) p' ∧
      SameOff t.toList s s' := by
  cases t with
  | nil =>
    obtain rfl : p = none := tree
    exact ⟨none, s, rfl, rfl, fun _ _ => ⟨rfl, rfl⟩⟩
  | node l x r =>
    obtain rfl : p = some x := tree.1
    have loop : Loop s (node l x r) [] [] x none none :=
      ⟨tree, rfl, rfl, by simpa [nodes, closeLeft, closeRight] using nodup⟩
    obtain ⟨root, s', run, linked, off⟩ := loop.splayLoop key k enough
    refine ⟨some root, s', by simp [Links.splay, run], linked, ?_⟩
    simpa [nodes, closeLeft, closeRight] using off

end Follows

section Root
variable [DecidableEq A] [LinearOrder κ] {key : A → κ}

/-- A node that is in no tree takes the place of the root, which it gets below it with one of its subtrees. -/
def placeAbove (s : Links A) (new found : A) (below : Bool) : Links A :=
  if below then
    let s := s.setLeft (some new) (s.left (some found))
    let s := s.setRight (some new) (some found)
    s.setLeft (some found) none
  else
    let s := s.setLeft (some new) (some found)
    let s := s.setRight (some new) (s.right (some found))
    s.setRight (some found) none

lemma sameOff_placeAbove (s : Links A) (nodes : List A) (below : Bool) (memX : x ∈ nodes) (memY : y ∈ nodes) :
    SameOff nodes s (s.placeAbove x y below) := by
  intro a outside
  have awayX : a ≠ x := fun same => outside (same ▸ memX)
  have awayY : a ≠ y := fun same => outside (same ▸ memY)
  cases below <;> simp [placeAbove, setLeft, setRight, awayX, awayY]

lemma Tree.placeAbove (tree : s.Tree (node l y r) p) (nodup : (node l y r).toList.Nodup)
    (fresh : x ∉ (node l y r).toList) :
    (s.placeAbove x y (decide (key x < key y))).Tree (insertRoot key x (node l y r)) (some x) := by
  have treeL : s.Tree l (s.left (some y)) := tree.2.1
  have treeR : s.Tree r (s.right (some y)) := tree.2.2
  have apart : y ∉ l.toList ++ r.toList ∧ x ∉ l.toList ++ r.toList ∧ x ≠ y := by
    simp only [toList_node, nodup_append, nodup_cons, mem_append, mem_cons] at nodup fresh ⊢
    grind
  obtain ⟨awayY, awayX, differ⟩ := apart
  have off (below : Bool) := sameOff_placeAbove (x := x) (y := y) s [x, y] below (by simp) (by simp)
  have keep (a : A) (member : a ∈ l.toList ++ r.toList) : a ∉ [x, y] := by
    have differX : a ≠ x := fun same => awayX (same ▸ member)
    have differY : a ≠ y := fun same => awayY (same ▸ member)
    simp [differX, differY]
  have below (b : Bool) := treeL.off (off b) fun a member => keep a (by simp [member])
  have above (b : Bool) := treeR.off (off b) fun a member => keep a (by simp [member])
  rw [insertRoot]
  by_cases smaller : key x < key y
  · simp only [smaller, decide_true, if_true]
    have leftX : (s.placeAbove x y true).left (some x) = s.left (some y) := by
      simp [Links.placeAbove, setLeft, setRight, differ]
    have rightX : (s.placeAbove x y true).right (some x) = some y := by simp [Links.placeAbove, setLeft, setRight]
    have leftY : (s.placeAbove x y true).left (some y) = none := by simp [Links.placeAbove, setLeft, setRight]
    have rightY : (s.placeAbove x y true).right (some y) = s.right (some y) := by
      simp [Links.placeAbove, setLeft, setRight, differ.symm]
    rw [tree_node, tree_node, leftX, rightX, leftY, rightY]
    exact ⟨rfl, below true, rfl, rfl, above true⟩
  · simp only [smaller, decide_false, if_false]
    have leftX : (s.placeAbove x y false).left (some x) = some y := by simp [Links.placeAbove, setLeft, setRight]
    have rightX : (s.placeAbove x y false).right (some x) = s.right (some y) := by
      simp [Links.placeAbove, setLeft, setRight, differ]
    have leftY : (s.placeAbove x y false).left (some y) = s.left (some y) := by
      simp [Links.placeAbove, setLeft, setRight, differ.symm]
    have rightY : (s.placeAbove x y false).right (some y) = none := by simp [Links.placeAbove, setLeft, setRight]
    rw [tree_node, tree_node, leftX, rightX, leftY, rightY]
    exact ⟨rfl, ⟨rfl, below false, rfl⟩, above false⟩

lemma Tree.joinLeft {a b : STree A} (tree : s.Tree (node l x r) p) (nodup : (node l x r).toList.Nodup)
    (splayed : s'.Tree (node a y b) (some y)) (off : SameOff l.toList s s') (list : (node a y b).toList = l.toList) :
    ((s'.setLeft (some x) (some y)).setRight (some y) (s'.right (some x))).Tree (node a y r) (some y) := by
  have treeR : s.Tree r (s.right (some x)) := tree.2.2
  have nodupL : (node a y b).toList.Nodup := by
    rw [list]
    exact (nodup_append.mp nodup).1
  have memY : y ∈ l.toList := by
    rw [← list]
    simp
  have apart : x ∉ l.toList ∧ x ∉ r.toList ∧ ∀ c ∈ r.toList, c ∉ l.toList := by
    simp only [toList_node, nodup_append, nodup_cons] at nodup
    grind
  obtain ⟨awayL, awayR, disjoint⟩ := apart
  have differ : y ≠ x := fun same => awayL (same ▸ memY)
  have memA (c : A) (member : c ∈ a.toList) : c ≠ x ∧ c ≠ y := by
    constructor
    · rintro rfl
      exact awayL (list ▸ by simp [member])
    · rintro rfl
      exact (nodup_append.mp nodupL).2.2 c member c (by simp) rfl
  have memR (c : A) (member : c ∈ r.toList) : c ≠ x ∧ c ≠ y := by
    constructor
    · rintro rfl
      exact awayR member
    · rintro rfl
      exact disjoint c member memY
  have written := (sameOff_setLeft [x, y] s' (some y) (p := some x) (by simp)).trans
    (sameOff_setRight [x, y] (s'.setLeft (some x) (some y)) (s'.right (some x)) (p := some y) (by simp))
  rw [tree_node]
  refine ⟨rfl, ?_, ?_⟩
  · have sub : s'.Tree a (s'.left (some y)) := splayed.2.1
    have kept := sub.off written fun c member => by simpa using memA c member
    have left : ((s'.setLeft (some x) (some y)).setRight (some y) (s'.right (some x))).left (some y) =
        s'.left (some y) := by simp [setLeft, setRight, differ]
    rw [left]
    exact kept
  · have right : s'.right (some x) = s.right (some x) := (off x awayL).2
    have sub := treeR.off off disjoint
    rw [← right] at sub
    have kept := sub.off written fun c member => by simpa using memR c member
    have last : ((s'.setLeft (some x) (some y)).setRight (some y) (s'.right (some x))).right (some y) =
        s'.right (some x) := by simp [setRight]
    rw [last]
    exact kept

end Root

end Links

end HpcToolkit.Lib
