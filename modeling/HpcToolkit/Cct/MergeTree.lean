import HpcToolkit.Cct.Merge

/-! # Shape of a merged tree

The merge always yields ordered child sets and the union of the paths. The parent pointers survive
exactly when no childless node of the destination meets a node with children: there the children are
adopted as a whole, and the walk that should rewrite their parents visits their old parent instead.
-/

open Option

namespace HpcToolkit.Cct

open Lib CctNode

/-- Two trees whose child sets are ordered, which is all the walk relies on. -/
structure Joinable (a b : CctNode) : Prop where
  left : a.AllOrdered
  right : b.AllOrdered

/-- Two separate trees with the same root address. -/
structure Mergeable (a b : CctNode) : Prop where
  left : a.WellFormed
  right : b.WellFormed
  separate : ∀ x y, Reach a x → Reach b y → x.id ≠ y.id
  root : a.addr = b.addr

lemma mergeable_iff {a b : CctNode} : Mergeable a b ↔ a.WellFormed ∧ b.WellFormed ∧
    (∀ x ∈ a.nodes, ∀ y ∈ b.nodes, x.id ≠ y.id) ∧ a.addr = b.addr := by
  simp only [mem_nodes]
  constructor
  · intro input
    exact ⟨input.left, input.right, fun x belowA y belowB => input.separate x y belowA belowB, input.root⟩
  · rintro ⟨left, right, separate, root⟩
    exact ⟨left, right, fun x y belowA belowB => separate x belowA y belowB, root⟩

instance (a b : CctNode) : Decidable (Mergeable a b) := decidable_of_iff' _ mergeable_iff

variable {k : CctAddr}

lemma Mergeable.child {a b x y : CctNode} (input : Mergeable a b)
    (foundA : a.child? k = some x) (foundB : b.child? k = some y) : Mergeable x y where
  left := input.left.child foundA
  right := input.right.child foundB
  separate u v belowA belowB :=
    input.separate u v ((reach_of_child? foundA).trans belowA) ((reach_of_child? foundB).trans belowB)
  root := (addr_of_child? foundA).trans (addr_of_child? foundB).symm

section
variable {a b : CctNode}

lemma Mergeable.joinable (input : Mergeable a b) : Joinable a b := ⟨input.left.ordered, input.right.ordered⟩

lemma Joinable.child {x y : CctNode} (input : Joinable a b) (foundA : a.child? k = some x)
    (foundB : b.child? k = some y) : Joinable x y :=
  ⟨input.left.child foundA, input.right.child foundB⟩

lemma Joinable.orderedA (input : Joinable a b) : a.children.Ordered addr := input.left a .refl

lemma Joinable.orderedB (input : Joinable a b) : b.children.Ordered addr := input.right b .refl

lemma Mergeable.orderedA (input : Mergeable a b) : a.children.Ordered addr := input.joinable.orderedA

lemma Mergeable.orderedB (input : Mergeable a b) : b.children.Ordered addr := input.joinable.orderedB

variable {c : CctNode}

lemma Joinable.child_cases (input : Joinable a b)     (found : (merged a b).child? k = some c) :
    (∃ x y, a.child? k = some x ∧ b.child? k = some y ∧ c = merged x y) ∨ a.child? k = some c ∨
      ∃ y, b.child? k = some y ∧ c = if a.children.isEmpty then y else y.setParent a.id := by
  rw [child?_merged input.orderedA input.orderedB] at found
  cases atA : a.child? k with
  | some x =>
    cases atB : b.child? k with
    | some y =>
      rw [atA, atB] at found
      exact .inl ⟨x, y, rfl, rfl, (Option.some.inj found).symm⟩
    | none =>
      rw [atA, atB] at found
      exact .inr (.inl found)
  | none =>
    cases atB : b.child? k with
    | some y =>
      rw [atA, atB] at found
      exact .inr (.inr ⟨y, rfl, (Option.some.inj found).symm⟩)
    | none =>
      rw [atA, atB] at found
      cases found

lemma Joinable.mem_children_merged (input : Joinable a b) :
    c ∈ (merged a b).children.toList ↔ ∃ k, (merged a b).child? k = some c := by
  have ordered := ordered_children_merged input.orderedA input.orderedB
  constructor
  · intro member
    exact ⟨c.addr, (ordered.find?_eq_some addr).mpr ⟨member, rfl⟩⟩
  · rintro ⟨k, found⟩
    exact STree.mem_of_find? addr found

lemma allOrdered_merged (b : CctNode) : ∀ {a}, Joinable a b → (merged a b).AllOrdered := by
  induction b using inductionOn with
  | step info children ih =>
    intro a input
    refine allOrdered_iff.mpr ⟨ordered_children_merged input.orderedA input.orderedB, fun c member => ?_⟩
    obtain ⟨k, found⟩ := input.mem_children_merged.mp member
    rcases input.child_cases found with ⟨x, y, atA, atB, rfl⟩ | atA | ⟨y, atB, rfl⟩
    · exact ih y (STree.mem_of_find? addr atB) (input.child atA atB)
    · exact input.left.child atA
    · split
      · exact input.right.child atB
      · exact allOrdered_setParent.mpr (input.right.child atB)

lemma isSome_at?_merged (p : List CctAddr) : ∀ {a b : CctNode}, Mergeable a b →
    (((merged a b).at? p).isSome ↔ (a.at? p).isSome ∨ (b.at? p).isSome) := by
  induction p with
  | nil => simp [at?]
  | cons k rest ih =>
    intro a b input
    have ignoresParent : ∀ y : CctNode, ((if a.children.isEmpty then y else y.setParent a.id).at? rest).isSome =
        (y.at? rest).isSome := by
      intro y
      split
      · rfl
      · cases rest <;> rfl
    simp only [at?, child?_merged input.orderedA input.orderedB]
    cases atA : a.child? k <;> cases atB : b.child? k <;>
      simp only [bind_some, bind_none, isSome_none, ignoresParent, Bool.false_eq_true,
        false_or, or_false]
    next x y => exact ih (input.child atA atB)

lemma paths_merged (input : Mergeable a b) : (merged a b).paths = a.paths ∪ b.paths := by
  ext p
  simp only [paths, Set.mem_ofPred_eq, Set.mem_union, addr_merged, input.root]
  constructor
  · rintro ⟨rest, rfl, found⟩
    rcases (isSome_at?_merged rest input).mp found with inA | inB
    · exact .inl ⟨rest, rfl, inA⟩
    · exact .inr ⟨rest, rfl, inB⟩
  · rintro (⟨rest, rfl, found⟩ | ⟨rest, rfl, found⟩)
    · exact ⟨rest, rfl, (isSome_at?_merged rest input).mpr (.inl found)⟩
    · exact ⟨rest, rfl, (isSome_at?_merged rest input).mpr (.inr found)⟩

/-! ### The result along a path -/

lemma at?_merged_common (p : List CctAddr) : ∀ {a b x y : CctNode}, Joinable a b → a.at? p = some x →
    b.at? p = some y → (merged a b).at? p = some (merged x y) := by
  induction p with
  | nil =>
    intro a b x y _ atA atB
    cases atA
    cases atB
    rfl
  | cons k rest ih =>
    intro a b x y input atA atB
    obtain ⟨x', foundA, atA⟩ := bind_eq_some_iff.mp atA
    obtain ⟨y', foundB, atB⟩ := bind_eq_some_iff.mp atB
    rw [at?, child?_merged input.orderedA input.orderedB, foundA, foundB]
    exact ih (input.child foundA foundB) atA atB

lemma at?_merged_left (p : List CctAddr) : ∀ {a b x : CctNode}, Joinable a b → a.at? p = some x →
    b.at? p = none → (merged a b).at? p = some x := by
  induction p with
  | nil =>
    intro a b x _ _ atB
    cases atB
  | cons k rest ih =>
    intro a b x input atA atB
    obtain ⟨x', foundA, atA⟩ := bind_eq_some_iff.mp atA
    rw [at?, child?_merged input.orderedA input.orderedB, foundA]
    cases foundB : b.child? k with
    | none => exact atA
    | some y' =>
      rw [at?, foundB] at atB
      exact ih (input.child foundA foundB) atA atB

lemma at?_merged_right (p : List CctAddr) : ∀ {a b y : CctNode}, Joinable a b → a.at? p = none →
    b.at? p = some y → ∃ z, (merged a b).at? p = some z ∧ z.id = y.id := by
  induction p with
  | nil =>
    intro a b y _ atA _
    cases atA
  | cons k rest ih =>
    intro a b y input atA atB
    obtain ⟨y', foundB, atB⟩ := bind_eq_some_iff.mp atB
    rw [at?, child?_merged input.orderedA input.orderedB, foundB]
    cases foundA : a.child? k with
    | none =>
      simp only [bind_some]
      split
      · exact ⟨y, atB, rfl⟩
      · cases rest with
        | nil =>
          cases atB
          exact ⟨_, rfl, rfl⟩
        | cons => exact ⟨y, atB, rfl⟩
    | some x' =>
      rw [at?, foundA] at atA
      exact ih (input.child foundA foundB) atA atB

lemma childless_of_parentsOk (input : Mergeable a b) (ok : (merged a b).ParentsOk)
    (childless : a.children = .nil) : b.children = .nil := by
  cases shape : b.children with
  | nil => rfl
  | node l y r =>
    have member : y ∈ b.children.toList := by simp [shape]
    have atB := input.right.ordered.mem_children_iff.mp member
    obtain ⟨k, atB⟩ := atB
    have adopted : (merged a b).child? k = some y := by
      rw [child?_merged input.orderedA input.orderedB, atB]
      simp [child?, childless]
    have parentA := (parentsOk_iff.mp ok y (input.joinable.mem_children_merged.mpr ⟨k, adopted⟩)).1
    have parentB := (parentsOk_iff.mp input.right.parents y member).1
    rw [parentA, id_merged] at parentB
    exact absurd (Option.some.inj parentB) (input.separate a b .refl .refl)

lemma parentsOk_merged_iff (b : CctNode) : ∀ {a}, Mergeable a b → ((merged a b).ParentsOk ↔
    ∀ x y, Common a b x y → x.children = .nil → y.children = .nil) := by
  induction b using inductionOn with
  | step info children ih =>
    intro a input
    rw [forall_common_iff]
    constructor
    · intro ok
      refine ⟨childless_of_parentsOk input ok, fun k x y atA atB => ?_⟩
      refine (ih y (STree.mem_of_find? addr atB) (input.child atA atB)).mp ?_
      have found : (merged a (node info children)).child? k = some (merged x y) := by
        rw [child?_merged input.orderedA input.orderedB, atA, atB]
      exact (parentsOk_iff.mp ok _ (input.joinable.mem_children_merged.mpr ⟨k, found⟩)).2
    · rintro ⟨root, below⟩
      refine parentsOk_iff.mpr fun c member => ?_
      obtain ⟨k, found⟩ := input.joinable.mem_children_merged.mp member
      rw [id_merged]
      rcases input.joinable.child_cases found with ⟨x, y, atA, atB, rfl⟩ | atA | ⟨y, atB, rfl⟩
      · rw [info_merged]
        refine ⟨(parentsOk_iff.mp input.left.parents x (STree.mem_of_find? addr atA)).1, ?_⟩
        exact (ih y (STree.mem_of_find? addr atB) (input.child atA atB)).mpr (below k x y atA atB)
      · exact parentsOk_iff.mp input.left.parents c (STree.mem_of_find? addr atA)
      · split
        · next childless =>
          have none := root (STree.isEmpty_iff.mp childless)
          rw [child?, none] at atB
          cases atB
        · refine ⟨rfl, parentsOk_setParent.mpr ?_⟩
          exact (parentsOk_iff.mp input.right.parents y (STree.mem_of_find? addr atB)).2

/-- The merge keeps the tree a tree exactly when every common node without children in the destination
has none in the other tree either. -/
theorem hpcrunCctMerge_tree_iff (a b : CctNode) (left right : STree CctNode) (input : Mergeable a b) :
    let result := (hpcrunCctMerge a left b right).dest
    (result.ParentsOk ∧ result.AllOrdered ∧ result.paths = a.paths ∪ b.paths) ↔
      ∀ p x y, a.at? p = some x → b.at? p = some y → x.children = .nil → y.children = .nil := by
  simp only [dest_hpcrunCctMerge]
  rw [and_iff_left ⟨allOrdered_merged b input.joinable, paths_merged input⟩, parentsOk_merged_iff b input]
  constructor
  · exact fun all p x y atA atB => all x y ⟨p, atA, atB⟩
  · rintro all x y ⟨p, atA, atB⟩
    exact all p x y atA atB

end

theorem hpcrunCctMerge_tree_new_child :
    let a := rootWithChild 0 1 20
    let b := rootWithChild 2 3 30
    let result := (hpcrunCctMerge a .nil b .nil).dest
    result.ParentsOk ∧ result.AllOrdered ∧ result.paths = a.paths ∪ b.paths := by
  refine (hpcrunCctMerge_tree_iff (rootWithChild 0 1 20) (rootWithChild 2 3 30) .nil .nil
    (by decide)).mpr fun p x y atA atB childless => ?_
  rcases p with _ | ⟨k, rest⟩
  · cases atA
    cases childless
  · obtain ⟨x', foundA, -⟩ := bind_eq_some_iff.mp atA
    obtain ⟨y', foundB, -⟩ := bind_eq_some_iff.mp atB
    have memberA := STree.mem_of_find? addr foundA
    have memberB := STree.mem_of_find? addr foundB
    have differ : ∀ u ∈ (rootWithChild 0 1 20).children.toList,
        ∀ v ∈ (rootWithChild 2 3 30).children.toList, u.addr ≠ v.addr := by decide
    exact absurd ((addr_of_child? foundA).trans (addr_of_child? foundB).symm) (differ x' memberA y' memberB)

/-- A childless root adopts a child that still points to the root it came from. -/
theorem adopted_child_keeps_old_parent :
    let a := plainNode 0 10 none .nil
    let b := rootWithChild 2 3 30
    Mergeable a b ∧ ¬(hpcrunCctMerge a .nil b .nil).dest.ParentsOk := by
  refine ⟨by decide, fun ok => ?_⟩
  have stale := ok _ .refl (plainNode 3 30 (some 2) .nil) (List.mem_singleton.mpr rfl)
  revert stale
  decide

end HpcToolkit.Cct
