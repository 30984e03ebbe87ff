import HpcToolkit.Cct.FwriteComplete
import HpcToolkit.Lib.LinkedTree

/-! # Walking a calling context tree without a stack

Both walks go through a tree of splay trees. In each splay tree the link `previous` of a node leads to the node to go
on with after it, and is cleared again when the walk leaves the node. The walks write no other link. A null pointer,
on which they return at once, is not a tree here.
-/

open Function List
open Prod (fst)

namespace HpcToolkit.Cct

open Lib CctNode

namespace Walk

/-- The links of the nodes in memory that the walks only read. -/
structure Links where
  parent : ℕ → Option ℕ
  children : ℕ → Option ℕ
  left : ℕ → Option ℕ
  right : ℕ → Option ℕ

/-- The links `previous`. -/
abbrev Previous := ℕ → Option ℕ

variable (links : Links)

def splayPostorderFirst : ℕ → Previous → ℕ → Option (Previous × ℕ)
  | 0, _, _ => none
  | fuel + 1, previous, cur =>
    match (links.left cur).or (links.right cur) with
    | some next => splayPostorderFirst fuel (update previous next (some cur)) next
    | none => some (previous, cur)

/-- `splay_walk_init` on a tree that is not empty; it asserts that no other walk is on its way there. -/
def splayWalkInit (fuel : ℕ) (previous : Previous) (root : ℕ) : Option (Previous × ℕ) :=
  if previous root = none then splayPostorderFirst links fuel previous root else none

/-- `NULL` is returned when the walk through the splay tree is complete. -/
def splayWalkNext (fuel : ℕ) (previous : Previous) (last : ℕ) : Option (Previous × Option ℕ) :=
  let popped := update previous last none
  match previous last with
  | none => some (popped, none)
  | some parent =>
    match links.right parent with
    | some right =>
      if links.left parent = some last then
        (splayPostorderFirst links fuel (update popped right (some parent)) right).map fun (previous, next) =>
          (previous, some next)
      else some (popped, some parent)
    | none => some (popped, some parent)

/-- The variables of a walk, with the calls of `op` made so far: their nodes and levels. -/
structure Vars where
  cur : ℕ
  level : ℕ
  previous : Previous
  calls : List (ℕ × ℕ)

def Vars.op (w : Vars) : Vars := { w with calls := w.calls ++ [(w.cur, w.level)] }

variable (nodeFirst : Bool) (cct : ℕ)

mutual
/-- The outer loop from its beginning; `cur` has not been walked yet. -/
def outer : ℕ → Vars → Option Vars
  | 0, _ => none
  | fuel + 1, w =>
    let w := if nodeFirst then w.op else w
    match links.children w.cur with
    | some root => (splayWalkInit links fuel w.previous root).bind fun (previous, cur) =>
      again fuel { w with previous := previous, cur := cur, level := w.level + 1 }
    | none => inner fuel w

/-- The inner loop; the descendants of `cur` have been walked. -/
def inner : ℕ → Vars → Option Vars
  | 0, _ => none
  | fuel + 1, w =>
    if w.cur = cct then some w
    else
      let w := if nodeFirst then w else w.op
      (splayWalkNext links fuel w.previous w.cur).bind fun
        | (previous, some next) => again fuel { w with previous := previous, cur := next }
        | (previous, none) => (links.parent w.cur).bind fun parent =>
          inner fuel { w with previous := previous, cur := parent, level := w.level - 1 }

/-- The condition of the outer loop. -/
def again : ℕ → Vars → Option Vars
  | 0, _ => none
  | fuel + 1, w => if w.cur = cct then some w else outer fuel w
end

/-- What a walk returns: the calls of `op`, and the links `previous` that it leaves. -/
def walk (fuel : ℕ) (level : ℕ) (previous : Previous) : Option (List (ℕ × ℕ) × Previous) :=
  (outer links nodeFirst cct fuel ⟨cct, level, previous, []⟩).map fun w =>
    (if nodeFirst then w.calls else w.calls ++ [(cct, w.level)], w.previous)

def hpcrunCctWalkChild1stWLevel (fuel : ℕ) (level : ℕ) (previous : Previous) : Option (List (ℕ × ℕ) × Previous) :=
  walk links false cct fuel level previous

def hpcrunCctWalkNode1stWLevel (fuel : ℕ) (level : ℕ) (previous : Previous) : Option (List (ℕ × ℕ) × Previous) :=
  walk links true cct fuel level previous

/-! ## The calls of a walk -/

/-- The call for a node if the walk makes it on reaching the node. -/
def before (node level : ℕ) : List (ℕ × ℕ) := if nodeFirst then [(node, level)] else []

/-- The call for a node if the walk makes it on leaving the node. -/
def after (node level : ℕ) : List (ℕ × ℕ) := if nodeFirst then [] else [(node, level)]

mutual
/-- The calls for a node and its descendants. -/
def nodeCalls (level : ℕ) : CctNode → List (ℕ × ℕ)
  | node info children =>
    before nodeFirst info.id level ++ (treeCalls (level + 1) children ++ after nodeFirst info.id level)

/-- The calls for siblings, in postorder of their splay tree. -/
def treeCalls (level : ℕ) : STree CctNode → List (ℕ × ℕ)
  | .nil => []
  | .node l n r => treeCalls level l ++ (treeCalls level r ++ nodeCalls level n)
end

/-- Enough fuel gives the result. -/
def Returns {α : Type} (f : ℕ → Option α) (result : α) : Prop := ∃ n, ∀ fuel, n ≤ fuel → f fuel = some result

section Returns

variable {α β : Type} {f : ℕ → Option α} {a : α}

lemma Returns.succ (returns : Returns (fun fuel => f (fuel + 1)) a) : Returns f a := by
  obtain ⟨n, enough⟩ := returns
  refine ⟨n + 1, fun fuel more => ?_⟩
  obtain ⟨rest, rfl⟩ := Nat.exists_eq_add_of_le' (Nat.one_le_of_lt more)
  exact enough rest (Nat.le_of_succ_le_succ more)

lemma Returns.bind {g : ℕ → α → Option β} {b : β} (first : Returns f a) (second : Returns (fun fuel => g fuel a) b) :
    Returns (fun fuel => (f fuel).bind (g fuel)) b := by
  obtain ⟨n, enough⟩ := first
  obtain ⟨m, enough'⟩ := second
  refine ⟨max n m, fun fuel more => ?_⟩
  change (f fuel).bind (g fuel) = some b
  rw [enough fuel ((le_max_left n m).trans more)]
  exact enough' fuel ((le_max_right n m).trans more)

lemma Returns.map {g : α → β} (returns : Returns f a) : Returns (fun fuel => (f fuel).map g) (g a) := by
  obtain ⟨n, enough⟩ := returns
  refine ⟨n, fun fuel more => ?_⟩
  change (f fuel).map g = some (g a)
  rw [enough fuel more, Option.map_some]

end Returns

/-! ## The steps of a walk -/

section Steps

variable {links nodeFirst cct} {previous previous' : Previous} {level cur next leaf : ℕ} {calls : List (ℕ × ℕ)}
  {result : Vars}

lemma first_of_leaf (left : links.left cur = none) (right : links.right cur = none) :
    Returns (fun fuel => splayPostorderFirst links fuel previous cur) (previous, cur) := by
  refine Returns.succ ⟨0, fun fuel _ => ?_⟩
  simp [splayPostorderFirst, left, right]

lemma first_of_below (below : (links.left cur).or (links.right cur) = some next)
    (first : Returns (fun fuel => splayPostorderFirst links fuel (update previous next (some cur)) next)
      (previous', leaf)) :
    Returns (fun fuel => splayPostorderFirst links fuel previous cur) (previous', leaf) := by
  refine Returns.succ ?_
  simp only [splayPostorderFirst, below]
  exact first

lemma again_of_outer (other : cur ≠ cct)
    (returns : Returns (fun fuel => outer links nodeFirst cct fuel ⟨cur, level, previous, calls⟩) result) :
    Returns (fun fuel => again links nodeFirst cct fuel ⟨cur, level, previous, calls⟩) result := by
  refine Returns.succ ?_
  simp only [again, if_neg other]
  exact returns

lemma outer_of_inner (childless : links.children cur = none)
    (returns : Returns (fun fuel => inner links nodeFirst cct fuel
      ⟨cur, level, previous, calls ++ before nodeFirst cur level⟩) result) :
    Returns (fun fuel => outer links nodeFirst cct fuel ⟨cur, level, previous, calls⟩) result := by
  refine Returns.succ ?_
  cases nodeFirst <;> simpa [outer, Vars.op, childless, before] using returns

lemma outer_of_first (child : links.children cur = some next) (idle : previous next = none)
    (first : Returns (fun fuel => splayPostorderFirst links fuel previous next) (previous', leaf))
    (returns : Returns (fun fuel => again links nodeFirst cct fuel
      ⟨leaf, level + 1, previous', calls ++ before nodeFirst cur level⟩) result) :
    Returns (fun fuel => outer links nodeFirst cct fuel ⟨cur, level, previous, calls⟩) result := by
  refine Returns.succ ?_
  cases nodeFirst with
  | false =>
    rw [before, if_neg Bool.false_ne_true, append_nil] at returns
    simp only [outer, Bool.false_eq_true, if_false, child, splayWalkInit, idle, if_true]
    exact first.bind (g := fun fuel pair => again links false cct fuel ⟨pair.2, level + 1, pair.1, calls⟩) returns
  | true =>
    rw [before, if_pos rfl] at returns
    simp only [outer, if_true, Vars.op, child, splayWalkInit, idle]
    exact first.bind (g := fun fuel pair =>
      again links true cct fuel ⟨pair.2, level + 1, pair.1, calls ++ [(cur, level)]⟩) returns

lemma inner_of_return (calls : List (ℕ × ℕ)) :
    Returns (fun fuel => inner links nodeFirst cct fuel ⟨cct, level, previous, calls⟩)
    ⟨cct, level, previous, calls⟩ := by
  refine Returns.succ ⟨0, fun fuel _ => ?_⟩
  simp [inner]

lemma inner_of_parent {parent : ℕ} (other : cur ≠ cct) (idle : previous cur = none)
    (up : links.parent cur = some parent)
    (returns : Returns (fun fuel => inner links nodeFirst cct fuel
      ⟨parent, level - 1, previous, calls ++ after nodeFirst cur level⟩) result) :
    Returns (fun fuel => inner links nodeFirst cct fuel ⟨cur, level, previous, calls⟩) result := by
  have cleared : update previous cur none = previous := update_eq_self_iff.mpr idle.symm
  refine Returns.succ ?_
  cases nodeFirst <;> simpa [inner, Vars.op, other, splayWalkNext, idle, up, cleared, after] using returns

lemma inner_of_last (other : cur ≠ cct) (idle : previous cur = none)
    (last : links.right next = none ∨ links.left next ≠ some cur)
    (returns : Returns (fun fuel => again links nodeFirst cct fuel
      ⟨next, level, previous, calls ++ after nodeFirst cur level⟩) result) :
    Returns (fun fuel => inner links nodeFirst cct fuel
      ⟨cur, level, update previous cur (some next), calls⟩) result := by
  have cleared : update previous cur none = previous := update_eq_self_iff.mpr idle.symm
  refine Returns.succ ?_
  have moves (fuel : ℕ) : splayWalkNext links fuel (update previous cur (some next)) cur =
      some (previous, some next) := by
    simp only [splayWalkNext, update_self, update_idem, cleared]
    rcases last with childless | notLeft
    · simp [childless]
    · cases links.right next <;> simp [notLeft]
  cases nodeFirst <;> simpa [inner, Vars.op, other, moves, after] using returns

lemma inner_of_right {right : ℕ} (other : cur ≠ cct) (idle : previous cur = none)
    (left : links.left next = some cur) (isRight : links.right next = some right)
    (first : Returns (fun fuel => splayPostorderFirst links fuel (update previous right (some next)) right)
      (previous', leaf))
    (returns : Returns (fun fuel => again links nodeFirst cct fuel
      ⟨leaf, level, previous', calls ++ after nodeFirst cur level⟩) result) :
    Returns (fun fuel => inner links nodeFirst cct fuel
      ⟨cur, level, update previous cur (some next), calls⟩) result := by
  have cleared : update previous cur none = previous := update_eq_self_iff.mpr idle.symm
  have moves (fuel : ℕ) : splayWalkNext links fuel (update previous cur (some next)) cur =
      (splayPostorderFirst links fuel (update previous right (some next)) right).map
        fun pair => (pair.1, some pair.2) := by
    simp only [splayWalkNext, update_self, update_idem, cleared, left, isRight, if_true]
  have goes := first.bind (g := fun fuel pair => again links nodeFirst cct fuel
    ⟨pair.2, level, pair.1, calls ++ after nodeFirst cur level⟩) returns
  refine Returns.succ ?_
  cases nodeFirst with
  | false => simpa [inner, Vars.op, other, moves, after, Option.bind_map, comp_def] using goes
  | true => simpa [inner, other, moves, after, Option.bind_map, comp_def] using goes

end Steps

/-! ## Whole subtrees -/

lemma nodeCalls_eq (level : ℕ) (n : CctNode) : nodeCalls nodeFirst level n =
    before nodeFirst n.id level ++ (treeCalls nodeFirst (level + 1) n.children ++ after nodeFirst n.id level) := by
  cases n
  rw [nodeCalls, id_node, children_node]

/-- The links in memory are those of the tree. -/
structure Represents (c : CctNode) : Prop where
  children : ∀ x, Reach c x → (x.children.map CctNode.id).Linked links.left links.right (links.children x.id)
  parents : ∀ x, Reach c x → links.parent x.id = x.info.parent

lemma Represents.child {links : Links} {c n : CctNode} (represents : Represents links c)
    (member : n ∈ c.children.toList) : Represents links n :=
  ⟨fun x below => represents.children x ((Reach.refl.child member).trans below),
    fun x below => represents.parents x ((Reach.refl.child member).trans below)⟩

/-- A node that is reached is come back to after its descendants. -/
def Walks (n : CctNode) : Prop :=
  ∀ level previous calls result, (∀ y ∈ nodesTree n.children, previous y.id = none) →
    Returns (fun fuel => inner links nodeFirst cct fuel
      ⟨n.id, level, previous, calls ++ (before nodeFirst n.id level ++ treeCalls nodeFirst (level + 1) n.children)⟩)
      result →
    Returns (fun fuel => outer links nodeFirst cct fuel ⟨n.id, level, previous, calls⟩) result

/-- From its first node a splay tree is walked through to its root. -/
def TreeWalks (t : STree CctNode) : Prop :=
  ∀ l x r, t = .node l x r → ∀ level previous calls result,
    (∀ y ∈ nodesTree t, y.id ≠ x.id → previous y.id = none) →
    Returns (fun fuel => inner links nodeFirst cct fuel ⟨x.id, level, previous,
      calls ++ (treeCalls nodeFirst level l ++ (treeCalls nodeFirst level r ++
        (before nodeFirst x.id level ++ treeCalls nodeFirst (level + 1) x.children)))⟩) result →
    ∃ previous' leaf, Returns (fun fuel => splayPostorderFirst links fuel previous x.id) (previous', leaf) ∧
      Returns (fun fuel => again links nodeFirst cct fuel ⟨leaf, level, previous', calls⟩) result

section Subtrees

variable {links nodeFirst cct} {previous : Previous} {level : ℕ} {calls : List (ℕ × ℕ)} {result : Vars}

lemma mem_nodesTree_root (l : STree CctNode) (n : CctNode) (r : STree CctNode) : n ∈ nodesTree (.node l n r) := by
  simp [nodesTree, mem_nodes.mpr (Reach.refl (c := n))]

variable {l r : STree CctNode}

lemma TreeWalks.last {b : CctNode} {next : ℕ}
    (walks : TreeWalks links nodeFirst cct (.node l b r)) (other : b.id ≠ cct)
    (idle : ∀ y ∈ nodesTree (.node l b r), previous y.id = none)
    (last : links.right next = none ∨ links.left next ≠ some b.id)
    (returns : Returns (fun fuel => again links nodeFirst cct fuel
      ⟨next, level, previous, calls ++ treeCalls nodeFirst level (.node l b r)⟩) result) :
    ∃ previous' leaf, Returns (fun fuel =>
        splayPostorderFirst links fuel (update previous b.id (some next)) b.id) (previous', leaf) ∧
      Returns (fun fuel => again links nodeFirst cct fuel ⟨leaf, level, previous', calls⟩) result := by
  refine walks _ _ _ rfl _ _ _ _ (fun y member differ => ?_)
    (inner_of_last other (idle b (mem_nodesTree_root l b r)) last ?_)
  · rw [update_of_ne differ, idle y member]
  · simpa [treeCalls, nodeCalls_eq, append_assoc] using returns

lemma TreeWalks.left {a : CctNode} {next right leaf : ℕ} {previous' : Previous}
    (walks : TreeWalks links nodeFirst cct (.node l a r)) (other : a.id ≠ cct)
    (idle : ∀ y ∈ nodesTree (.node l a r), previous y.id = none) (isLeft : links.left next = some a.id)
    (isRight : links.right next = some right)
    (first : Returns (fun fuel => splayPostorderFirst links fuel (update previous right (some next)) right)
      (previous', leaf))
    (returns : Returns (fun fuel => again links nodeFirst cct fuel
      ⟨leaf, level, previous', calls ++ treeCalls nodeFirst level (.node l a r)⟩) result) :
    ∃ previous' leaf, Returns (fun fuel =>
        splayPostorderFirst links fuel (update previous a.id (some next)) a.id) (previous', leaf) ∧
      Returns (fun fuel => again links nodeFirst cct fuel ⟨leaf, level, previous', calls⟩) result := by
  refine walks _ _ _ rfl _ _ _ _ (fun y member differ => ?_)
    (inner_of_right other (idle a (mem_nodesTree_root l a r)) isLeft isRight first ?_)
  · rw [update_of_ne differ, idle y member]
  · simpa [treeCalls, nodeCalls_eq, append_assoc] using returns

lemma treeWalks {t : STree CctNode} {p : Option ℕ} (linked : (t.map CctNode.id).Linked links.left links.right p)
    (distinct : ((nodesTree t).map CctNode.id).Nodup) (outside : ∀ y ∈ nodesTree t, y.id ≠ cct)
    (walks : ∀ n ∈ t.toList, Walks links nodeFirst cct n) : TreeWalks links nodeFirst cct t := by
  induction t generalizing p with
  | nil => intro l x r shape; cases shape
  | node l x r ihl ihr =>
    intro l' x' r' shape level previous calls result idle returns
    cases shape
    simp only [nodesTree, mem_append] at outside idle
    simp only [STree.toList_node, mem_append, mem_cons] at walks
    simp only [nodesTree, map_append, nodup_append, mem_append, mem_map] at distinct
    obtain ⟨-, linkedL, linkedR⟩ := linked
    obtain ⟨distinctL, ⟨distinctX, distinctR, apartXR⟩, apartL⟩ := distinct
    have own : x ∈ x.nodes := mem_nodes.mpr .refl
    have idleL : ∀ y ∈ nodesTree l, previous y.id = none := fun y member =>
      idle y (.inl member) (apartL _ ⟨y, member, rfl⟩ _ (.inl ⟨x, own, rfl⟩))
    have idleR : ∀ y ∈ nodesTree r, previous y.id = none := fun y member =>
      idle y (.inr (.inr member)) (apartXR _ ⟨x, own, rfl⟩ _ ⟨y, member, rfl⟩).symm
    have idleX : ∀ y ∈ nodesTree x.children, previous y.id = none := fun y member => by
      rw [nodes_eq, map_cons, nodup_cons, ← nodesTree_eq] at distinctX
      refine idle y (.inr (.inl ?_)) fun same => distinctX.1 (same ▸ mem_map_of_mem member)
      rw [nodes_eq, ← nodesTree_eq]
      exact mem_cons_of_mem _ member
    have treeL : TreeWalks links nodeFirst cct l :=
      ihl linkedL distinctL (fun y member => outside y (.inl member)) fun n member => walks n (.inl member)
    have treeR : TreeWalks links nodeFirst cct r :=
      ihr linkedR distinctR (fun y member => outside y (.inr (.inr member)))
        fun n member => walks n (.inr (.inr member))
    have here : Returns (fun fuel => again links nodeFirst cct fuel
        ⟨x.id, level, previous, calls ++ treeCalls nodeFirst level l ++ treeCalls nodeFirst level r⟩) result := by
      refine again_of_outer (outside x (.inr (.inl own))) (walks x (.inr (.inl rfl)) _ _ _ _ idleX ?_)
      simpa [append_assoc] using returns
    cases r with
    | nil =>
      rw [treeCalls, append_nil] at here
      cases l with
      | nil =>
        rw [treeCalls, append_nil] at here
        exact ⟨previous, x.id, first_of_leaf linkedL linkedR, here⟩
      | node l₁ a l₂ =>
        have member := mem_nodesTree_root l₁ a l₂
        obtain ⟨previous', leaf, first, goes⟩ :=
          treeL.last (outside a (.inl member)) idleL (.inl linkedR) here
        refine ⟨previous', leaf, first_of_below ?_ first, goes⟩
        rw [linkedL.1, Option.some_or]
    | node r₁ b r₂ =>
      have member := mem_nodesTree_root r₁ b r₂
      cases l with
      | nil =>
        rw [treeCalls, append_nil] at here
        have notLeft : links.left x.id ≠ some b.id := by
          rw [linkedL]
          exact (Option.some_ne_none b.id).symm
        obtain ⟨previous', leaf, first, goes⟩ :=
          treeR.last (outside b (.inr (.inr member))) idleR (.inr notLeft) here
        refine ⟨previous', leaf, first_of_below ?_ first, goes⟩
        rw [linkedL, linkedR.1, Option.none_or]
      | node l₁ a l₂ =>
        have memberL := mem_nodesTree_root l₁ a l₂
        have notLeft : links.left x.id ≠ some b.id := by
          rw [linkedL.1]
          intro same
          exact apartL _ ⟨a, memberL, rfl⟩ _ (.inr ⟨b, member, rfl⟩) (Option.some.inj same)
        obtain ⟨previous', leaf, first, goes⟩ :=
          treeR.last (outside b (.inr (.inr member))) idleR (.inr notLeft) here
        obtain ⟨previous'', leaf', first', goes'⟩ :=
          treeL.left (outside a (.inl memberL)) idleL linkedL.1 linkedR.1 first goes
        refine ⟨previous'', leaf', first_of_below ?_ first', goes'⟩
        rw [linkedL.1, Option.some_or]

lemma walks_of_represents {n : CctNode} (represents : Represents links n) (parents : n.ParentsOk)
    (distinct : (n.nodes.map CctNode.id).Nodup) (outside : ∀ y ∈ nodesTree n.children, y.id ≠ cct) :
    Walks links nodeFirst cct n := by
  induction n using CctNode.inductionOn with
  | step info children ih =>
    rw [nodes, map_cons, nodup_cons] at distinct
    have linked := represents.children _ .refl
    have inside : ∀ n ∈ children.toList, ∀ y ∈ n.nodes, y ∈ nodesTree children := fun n member y below => by
      rw [nodesTree_eq]
      exact mem_flatMap.mpr ⟨n, member, below⟩
    have walks : ∀ n ∈ children.toList, Walks links nodeFirst cct n := fun n member => by
      refine ih n member (represents.child member) (parentsOk_iff.mp parents n member).2 ?_
        fun y below => outside y (inside n member y ?_)
      · have whole := distinct.2
        rw [nodesTree_eq, map_flatMap, nodup_flatMap] at whole
        exact whole.1 n member
      · rw [nodes_eq, ← nodesTree_eq]
        exact mem_cons_of_mem _ below
    have whole := treeWalks linked distinct.2 outside walks
    intro level previous calls result idle returns
    rw [children_node] at linked whole idle returns
    cases children with
    | nil => exact outer_of_inner linked (by simpa [treeCalls] using returns)
    | node l x r =>
      have member := mem_nodesTree_root l x r
      have child : x ∈ (node info (.node l x r)).children.toList := by simp
      have isParent : links.parent x.id = some info.id :=
        (represents.parents x (Reach.refl.child child)).trans (parents _ .refl x child)
      obtain ⟨previous', leaf, first, goes⟩ := whole _ _ _ rfl (level + 1) previous
        (calls ++ before nodeFirst info.id level) result (fun y below _ => idle y below)
        (inner_of_parent (outside x member) (idle x member) isParent
          (by simpa [treeCalls, nodeCalls_eq, append_assoc] using returns))
      exact outer_of_first linked.1 (idle x member) first goes

end Subtrees

variable {c : CctNode}

lemma walk_returns (represents : Represents links c) (parents : c.ParentsOk)
    (distinct : (c.nodes.map CctNode.id).Nodup) (level : ℕ) (previous : Previous)
    (idle : ∀ y ∈ nodesTree c.children, previous y.id = none) :
    Returns (fun fuel => walk links nodeFirst c.id fuel level previous) (nodeCalls nodeFirst level c, previous) := by
  have outside : ∀ y ∈ nodesTree c.children, y.id ≠ c.id := fun y member same => by
    rw [nodes_eq, map_cons, nodup_cons, ← nodesTree_eq] at distinct
    exact distinct.1 (same ▸ mem_map_of_mem member)
  have returns := (walks_of_represents represents parents distinct outside level previous [] _ idle
    (inner_of_return (_ ++ (before nodeFirst c.id level ++ treeCalls nodeFirst (level + 1) c.children)))).map
    (g := fun w => (if nodeFirst then w.calls else w.calls ++ [(c.id, w.level)], w.previous))
  simp only [walk]
  cases nodeFirst <;> simpa [nodeCalls_eq, before, after] using returns

/-! ## What the calls are -/

/-- The depth of a node below `c`. -/
inductive Depth : CctNode → CctNode → ℕ → Prop
  | root {c : CctNode} : Depth c c 0
  | child {c n x : CctNode} {d : ℕ} : n ∈ c.children.toList → Depth n x d → Depth c x (d + 1)

/-- Two nodes one below the other, in the order in which a walk calls for them. -/
def inOrder (x y : CctNode) : List ℕ := if nodeFirst then [x.id, y.id] else [y.id, x.id]

section Calls

variable {nodeFirst} {level : ℕ}

variable {t : STree CctNode}

lemma nodeCalls_sublist {n : CctNode} (member : n ∈ t.toList) :
    (nodeCalls nodeFirst level n).Sublist (treeCalls nodeFirst level t) := by
  induction t with
  | nil => simp at member
  | node l x r ihl ihr =>
    simp only [STree.toList_node, mem_append, mem_cons] at member
    rw [treeCalls]
    rcases member with left | rfl | right
    · exact (ihl left).trans (sublist_append_left _ _)
    · exact (sublist_append_right _ _).trans (sublist_append_right _ _)
    · exact ((ihr right).trans (sublist_append_left _ _)).trans (sublist_append_right _ _)

variable {call : ℕ × ℕ}

lemma mem_treeCalls :
    call ∈ treeCalls nodeFirst level t ↔ ∃ n ∈ t.toList, call ∈ nodeCalls nodeFirst level n := by
  constructor
  · intro member
    induction t with
    | nil => simp [treeCalls] at member
    | node l x r ihl ihr =>
      simp only [treeCalls, mem_append] at member
      rcases member with left | right | own
      · obtain ⟨n, inside, made⟩ := ihl left
        exact ⟨n, by simp [inside], made⟩
      · obtain ⟨n, inside, made⟩ := ihr right
        exact ⟨n, by simp [inside], made⟩
      · exact ⟨x, by simp, own⟩
  · rintro ⟨n, inside, made⟩
    exact (nodeCalls_sublist inside).subset made

lemma mem_nodeCalls_own : call ∈ nodeCalls nodeFirst level c ↔
    call = (c.id, level) ∨ call ∈ treeCalls nodeFirst (level + 1) c.children := by
  rw [nodeCalls_eq, before, after]
  cases nodeFirst <;> simp [or_comm]

lemma mem_nodeCalls :
    call ∈ nodeCalls nodeFirst level c ↔ ∃ x d, Depth c x d ∧ call = (x.id, level + d) := by
  induction c using CctNode.inductionOn generalizing level with
  | step info children ih =>
    rw [mem_nodeCalls_own, mem_treeCalls]
    constructor
    · rintro (rfl | ⟨n, member, made⟩)
      · exact ⟨_, 0, .root, rfl⟩
      · obtain ⟨x, d, depth, rfl⟩ := (ih n member).mp made
        exact ⟨x, d + 1, .child member depth, by rw [Nat.add_right_comm, Nat.add_assoc]⟩
    · rintro ⟨x, d, depth, rfl⟩
      cases depth with
      | root => exact .inl rfl
      | @child _ n _ d member depth =>
        exact .inr ⟨n, member, (ih n member).mpr ⟨x, d, depth, by rw [Nat.add_right_comm, Nat.add_assoc]⟩⟩

lemma map_fst_treeCalls {visits : CctNode → List CctNode}
    (visitsTree : STree CctNode → List CctNode) (nil : visitsTree .nil = [])
    (node : ∀ l n r, visitsTree (.node l n r) = visitsTree l ++ (visitsTree r ++ visits n))
    (children : ∀ n ∈ t.toList, (nodeCalls nodeFirst level n).map fst = (visits n).map CctNode.id) :
    (treeCalls nodeFirst level t).map fst = (visitsTree t).map CctNode.id := by
  induction t with
  | nil => rw [treeCalls, nil, map_nil, map_nil]
  | node l n r ihl ihr =>
    simp only [STree.toList_node, mem_append, mem_cons] at children
    simp only [treeCalls, node, map_append]
    rw [ihl fun x member => children x (.inl member), ihr fun x member => children x (.inr (.inr member)),
      children n (.inr (.inl rfl))]

lemma map_fst_nodeCalls_nodeFirst (c : CctNode) :
    (nodeCalls true level c).map fst = (Cct.nodeFirst c).map CctNode.id := by
  induction c using CctNode.inductionOn generalizing level with
  | step info children ih =>
    rw [nodeCalls_eq, Cct.nodeFirst, map_append, map_append, children_node,
      map_fst_treeCalls nodeFirstTree rfl (fun l n r => rfl) fun n member => ih n member]
    simp [before, after]

lemma map_fst_nodeCalls_childFirst (c : CctNode) :
    (nodeCalls false level c).map fst = (childFirst c).map CctNode.id := by
  induction c using CctNode.inductionOn generalizing level with
  | step info children ih =>
    rw [nodeCalls_eq, childFirst, map_append, map_append, children_node,
      map_fst_treeCalls childFirstTree rfl (fun l n r => rfl) fun n member => ih n member]
    simp [before, after]

lemma nodeCalls_perm (c : CctNode) :
    ((nodeCalls nodeFirst level c).map fst).Perm (c.nodes.map CctNode.id) := by
  cases nodeFirst with
  | false => exact map_fst_nodeCalls_childFirst c ▸ (childFirst_perm c).map CctNode.id
  | true => exact map_fst_nodeCalls_nodeFirst c ▸ (nodeFirst_perm c).map CctNode.id

lemma inOrder_sublist {c x y : CctNode} (below : Reach c x) (further : y ∈ nodesTree x.children) :
    (inOrder nodeFirst x y).Sublist ((nodeCalls nodeFirst level c).map fst) := by
  induction c using CctNode.inductionOn generalizing level with
  | step info children ih =>
    rcases reach_iff.mp below with rfl | ⟨n, member, deeper⟩
    · rw [nodesTree_eq, mem_flatMap] at further
      obtain ⟨n, member, inside⟩ := further
      have called : [y.id].Sublist ((treeCalls nodeFirst (level + 1) children).map fst) := by
        refine singleton_sublist.mpr (((nodeCalls_sublist member).map fst).subset ?_)
        exact (nodeCalls_perm n).mem_iff.mpr (mem_map_of_mem inside)
      rw [nodeCalls_eq, children_node, id_node, inOrder, before, after, id_node]
      cases nodeFirst with
      | true => simpa using called
      | false => simpa using called.append (List.Sublist.refl [info.id])
    · have inside : (inOrder nodeFirst x y).Sublist ((nodeCalls nodeFirst (level + 1) n).map fst) :=
        ih n member deeper
      refine inside.trans ?_
      rw [nodeCalls_eq nodeFirst level (node info children), map_append, map_append]
      exact ((nodeCalls_sublist member).map fst).trans
        ((sublist_append_left _ _).trans (sublist_append_right _ _))

end Calls

/-- The calls of a walk: one for each node, at its depth, for the nodes above before or after those below. -/
structure Visited (c : CctNode) (level : ℕ) (calls : List (ℕ × ℕ)) : Prop where
  once : (calls.map fst).Perm (c.nodes.map CctNode.id)
  depth : ∀ call ∈ calls, ∃ x d, Depth c x d ∧ call = (x.id, level + d)
  ordered : ∀ x, Reach c x → ∀ y ∈ nodesTree x.children, (inOrder nodeFirst x y).Sublist (calls.map fst)

lemma visited_nodeCalls (c : CctNode) (level : ℕ) : Visited nodeFirst c level (nodeCalls nodeFirst level c) where
  once := nodeCalls_perm c
  depth _ made := mem_nodeCalls.mp made
  ordered _ below _ further := inOrder_sublist below further

/-- Both walks come to an end, having called `op` as they should, and leave the links `previous` as they were. -/
theorem walks_visit_and_restore {links : Links} {c : CctNode} (represents : Represents links c) (parents : c.ParentsOk)
    (distinct : (c.nodes.map CctNode.id).Nodup) (level : ℕ) (previous : Previous)
    (idle : ∀ y ∈ nodesTree c.children, previous y.id = none) :
    (∃ calls, Returns (fun fuel => hpcrunCctWalkNode1stWLevel links c.id fuel level previous) (calls, previous) ∧
      Visited true c level calls) ∧
    ∃ calls, Returns (fun fuel => hpcrunCctWalkChild1stWLevel links c.id fuel level previous) (calls, previous) ∧
      Visited false c level calls :=
  ⟨⟨_, walk_returns _ true represents parents distinct level previous idle, visited_nodeCalls true c level⟩,
    ⟨_, walk_returns _ false represents parents distinct level previous idle, visited_nodeCalls false c level⟩⟩

/-- A root with two children, the first of which has a child. -/
def familyTree : CctNode :=
  plainNode 0 10 none (.node
    (.node .nil (plainNode 1 20 (some 0) (.node .nil (plainNode 3 30 (some 1) .nil) .nil)) .nil)
    (plainNode 2 40 (some 0) .nil) .nil)

def familyLinks : Links where
  parent := update (update (update (fun _ => none) 1 (some 0)) 2 (some 0)) 3 (some 1)
  children := update (update (fun _ => none) 0 (some 2)) 1 (some 3)
  left := update (fun _ => none) 2 (some 1)
  right := fun _ => none

theorem family_walked :
    (∃ calls, Returns (fun fuel => hpcrunCctWalkNode1stWLevel familyLinks 0 fuel 0 fun _ => none)
      (calls, fun _ => none) ∧ Visited true familyTree 0 calls) ∧
    ∃ calls, Returns (fun fuel => hpcrunCctWalkChild1stWLevel familyLinks 0 fuel 0 fun _ => none)
      (calls, fun _ => none) ∧ Visited false familyTree 0 calls := by
  refine walks_visit_and_restore (c := familyTree) ⟨fun x below => ?_, fun x below => ?_⟩ (fun x below => ?_)
    (by decide) 0 (fun _ => none) fun y below => rfl
  all_goals
    rw [← mem_nodes] at below
    revert x
    simp [familyTree, plainNode, nodes, nodesTree, familyLinks, STree.map]

end Walk

end HpcToolkit.Cct
