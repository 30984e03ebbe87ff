import Mathlib

/-! # Trees with any number of children

A tree has a label and a list of subtrees. Pruning takes the nodes with a hidden label out of a tree and puts their
subtrees in their place, so that every other node becomes a child of its nearest ancestor that is not hidden.
-/

open List

namespace HpcToolkit.Lib

inductive Rose (α : Type) where
  | node (label : α) (children : List (Rose α))

namespace Rose

variable {α β : Type}

def label : Rose α → α
  | .node label _ => label

def children : Rose α → List (Rose α)
  | .node _ children => children

@[simp] lemma label_node (label : α) (children : List (Rose α)) : (node label children).label = label := rfl

@[simp] lemma children_node (label : α) (children : List (Rose α)) : (node label children).children = children := rfl

lemma node_label_children (t : Rose α) : node t.label t.children = t := by cases t; rfl

lemma inductionOn {P : Rose α → Prop} (step : ∀ label children, (∀ child ∈ children, P child) → P (node label children))
    (t : Rose α) : P t := by
  refine @Rose.rec α P (fun children => ∀ child ∈ children, P child) ?_ ?_ ?_ t
  · exact step
  · exact fun child absent => absurd absent not_mem_nil
  · intro first rest ihFirst ihRest child mem
    rcases mem_cons.mp mem with rfl | mem
    · exact ihFirst
    · exact ihRest child mem

mutual
def map (f : α → β) : Rose α → Rose β
  | .node label children => .node (f label) (mapAll f children)

def mapAll (f : α → β) : List (Rose α) → List (Rose β)
  | [] => []
  | t :: rest => t.map f :: mapAll f rest
end

lemma mapAll_eq (f : α → β) (forest : List (Rose α)) : mapAll f forest = forest.map (map f) := by
  induction forest with
  | nil => rfl
  | cons t rest ih => rw [mapAll, ih, map_cons]

@[simp] lemma map_node (f : α → β) (label : α) (children : List (Rose α)) :
    (node label children).map f = node (f label) (children.map (map f)) := by
  rw [map, mapAll_eq]

mutual
/-- The labels of a tree, each node before those below it. -/
def labels : Rose α → List α
  | .node label children => label :: labelsAll children

def labelsAll : List (Rose α) → List α
  | [] => []
  | t :: rest => t.labels ++ labelsAll rest
end

lemma labelsAll_eq (forest : List (Rose α)) : labelsAll forest = forest.flatMap labels := by
  induction forest with
  | nil => rfl
  | cons t rest ih => rw [labelsAll, ih, flatMap_cons]

@[simp] lemma labels_node (label : α) (children : List (Rose α)) :
    (node label children).labels = label :: children.flatMap labels := by
  rw [labels, labelsAll_eq]

@[simp] lemma label_map (f : α → β) (t : Rose α) : (t.map f).label = f t.label := by
  cases t
  rw [map_node, label_node, label_node]

@[simp] lemma children_map (f : α → β) (t : Rose α) : (t.map f).children = t.children.map (map f) := by
  cases t
  rw [map_node, children_node, children_node]

lemma labels_map (f : α → β) (t : Rose α) : (t.map f).labels = t.labels.map f := by
  induction t using inductionOn with
  | step label children ih =>
    rw [map_node, labels_node, labels_node, map_cons, flatMap_map, map_flatMap]
    congr 1
    exact flatMap_congr ih

lemma map_map {γ : Type} (g : β → γ) (f : α → β) (t : Rose α) : (t.map f).map g = t.map fun label => g (f label) := by
  induction t using inductionOn with
  | step label children ih =>
    rw [map_node, map_node, map_node, List.map_map]
    congr 1
    exact map_congr_left ih

variable {t : Rose α}

lemma map_congr {f g : α → β} (same : ∀ label ∈ t.labels, f label = g label) : t.map f = t.map g := by
  induction t using inductionOn with
  | step label children ih =>
    rw [map_node, map_node, same label (by simp)]
    congr 1
    apply map_congr_left
    intro child mem
    apply ih child mem
    intro label here
    apply same
    rw [labels_node]
    exact mem_cons_of_mem _ (mem_flatMap.mpr ⟨child, mem, here⟩)

mutual
def height : Rose α → ℕ
  | .node _ children => heightAll children + 1

def heightAll : List (Rose α) → ℕ
  | [] => 0
  | t :: rest => max t.height (heightAll rest)
end

lemma height_le_heightAll {forest : List (Rose α)} (mem : t ∈ forest) :
    t.height ≤ heightAll forest := by
  induction forest with
  | nil => exact absurd mem not_mem_nil
  | cons first rest ih =>
    rw [heightAll]
    rcases mem_cons.mp mem with rfl | mem
    · exact le_max_left _ _
    · exact (ih mem).trans (le_max_right _ _)

lemma height_lt_of_mem {child t : Rose α} (mem : child ∈ t.children) : child.height < t.height := by
  cases t with
  | node label children =>
    rw [height]
    exact Nat.lt_succ_of_le (height_le_heightAll mem)

mutual
/-- The tree without its hidden nodes, whose subtrees take their place. -/
def prune (hidden : α → Bool) : Rose α → List (Rose α)
  | .node label children =>
    if hidden label then pruneAll hidden children else [.node label (pruneAll hidden children)]

def pruneAll (hidden : α → Bool) : List (Rose α) → List (Rose α)
  | [] => []
  | t :: rest => t.prune hidden ++ pruneAll hidden rest
end

lemma pruneAll_eq (hidden : α → Bool) (forest : List (Rose α)) :
    pruneAll hidden forest = forest.flatMap (prune hidden) := by
  induction forest with
  | nil => rfl
  | cons t rest ih => rw [pruneAll, ih, flatMap_cons]

lemma prune_node (hidden : α → Bool) (label : α) (children : List (Rose α)) :
    (node label children).prune hidden =
      if hidden label then children.flatMap (prune hidden) else [node label (children.flatMap (prune hidden))] := by
  rw [prune, pruneAll_eq]

lemma labels_prune (hidden : α → Bool) (t : Rose α) :
    (t.prune hidden).flatMap labels = t.labels.filter (!hidden ·) := by
  induction t using inductionOn with
  | step label children ih =>
    have below : (children.flatMap (prune hidden)).flatMap labels = (children.flatMap labels).filter (!hidden ·) := by
      rw [flatMap_assoc, filter_flatMap]
      exact flatMap_congr ih
    rw [prune_node, labels_node]
    split
    case isTrue isHidden => rw [below, filter_cons_of_neg (by simp [isHidden])]
    case isFalse shown => simp [below, shown]

lemma prune_map (hidden : β → Bool) (f : α → β) (t : Rose α) :
    (t.map f).prune hidden = (t.prune fun label => hidden (f label)).map (map f) := by
  induction t using inductionOn with
  | step label children ih =>
    have below : (children.map (map f)).flatMap (prune hidden) =
        (children.flatMap (prune fun label => hidden (f label))).map (map f) := by
      rw [flatMap_map, map_flatMap]
      exact flatMap_congr ih
    rw [map_node, prune_node, prune_node, below]
    split <;> simp

/-- The children when those of a hidden child are taken in its place. -/
def adopted (hidden : α → Bool) (children : List (Rose α)) : List (Rose α) :=
  children.flatMap fun child => if hidden child.label then child.children else [child]

/-- No hidden node is a child of a hidden one. -/
inductive Separate (hidden : α → Bool) : Rose α → Prop where
  | node {label : α} {children : List (Rose α)} (below : ∀ child ∈ children, Separate hidden child)
      (apart : hidden label = true → ∀ child ∈ children, hidden child.label = false) :
      Separate hidden (.node label children)

section Adopted

variable {hidden : α → Bool} {children : List (Rose α)}

lemma mem_adopted (mem : t ∈ adopted hidden children) :
    (t ∈ children ∧ hidden t.label = false) ∨ ∃ child ∈ children, hidden child.label = true ∧ t ∈ child.children := by
  obtain ⟨child, memChild, mem⟩ := mem_flatMap.mp mem
  split at mem
  case isTrue isHidden => exact .inr ⟨child, memChild, isHidden, mem⟩
  case isFalse shown =>
    obtain rfl := mem_singleton.mp mem
    exact .inl ⟨memChild, Bool.eq_false_of_not_eq_true shown⟩

lemma Separate.child {t child : Rose α} (separate : Separate hidden t) (mem : child ∈ t.children) :
    Separate hidden child := by
  cases separate with
  | node below _ => exact below child mem

lemma Separate.shown {t child : Rose α} (separate : Separate hidden t) (isHidden : hidden t.label = true)
    (mem : child ∈ t.children) : hidden child.label = false := by
  cases separate with
  | node _ apart => exact apart isHidden child mem

lemma separate_of_mem_adopted (separate : ∀ child ∈ children, Separate hidden child)
    (mem : t ∈ adopted hidden children) : Separate hidden t ∧ hidden t.label = false := by
  rcases mem_adopted mem with ⟨mem, shown⟩ | ⟨child, memChild, isHidden, mem⟩
  · exact ⟨separate t mem, shown⟩
  · exact ⟨(separate child memChild).child mem, (separate child memChild).shown isHidden mem⟩

lemma prune_of_shown (shown : hidden t.label = false) :
    t.prune hidden = [node t.label (t.children.flatMap (prune hidden))] := by
  cases t with
  | node label children =>
    rw [prune_node, if_neg]
    · rfl
    · simpa using shown

lemma flatMap_prune_eq (separate : ∀ child ∈ children, Separate hidden child) :
    children.flatMap (prune hidden) =
      (adopted hidden children).map fun t => node t.label (t.children.flatMap (prune hidden)) := by
  rw [adopted, map_flatMap]
  apply flatMap_congr
  intro child mem
  split
  case isTrue isHidden =>
    have each : child.children.flatMap (prune hidden) =
        child.children.flatMap fun t => [node t.label (t.children.flatMap (prune hidden))] := by
      apply flatMap_congr
      intro t memT
      exact prune_of_shown ((separate child mem).shown isHidden memT)
    rw [← node_label_children child, prune_node, if_pos isHidden, each, ← map_eq_flatMap]
    rfl
  case isFalse shown =>
    rw [prune_of_shown (Bool.eq_false_of_not_eq_true shown)]
    rfl

lemma height_lt_of_mem_adopted {t parent : Rose α} (mem : t ∈ adopted hidden parent.children) :
    t.height < parent.height := by
  rcases mem_adopted mem with ⟨mem, -⟩ | ⟨child, memChild, -, mem⟩
  · exact height_lt_of_mem mem
  · exact (height_lt_of_mem mem).trans (height_lt_of_mem memChild)

lemma label_mem_labels (t : Rose α) : t.label ∈ t.labels := by
  cases t with
  | node label children =>
    rw [labels_node]
    exact mem_cons_self

lemma labels_subset_of_mem {t child : Rose α} (mem : child ∈ t.children) : child.labels ⊆ t.children.flatMap labels :=
  fun _ here => mem_flatMap.mpr ⟨child, mem, here⟩

lemma flatMap_labels_subset (t : Rose α) : t.children.flatMap labels ⊆ t.labels := by
  cases t with
  | node label children =>
    rw [labels_node]
    exact subset_cons_self _ _

lemma labels_subset_of_mem_adopted (mem : t ∈ adopted hidden children) :
    t.labels ⊆ children.flatMap labels := by
  intro label here
  rcases mem_adopted mem with ⟨mem, -⟩ | ⟨child, memChild, -, mem⟩
  · exact mem_flatMap.mpr ⟨t, mem, here⟩
  · exact mem_flatMap.mpr ⟨child, memChild, flatMap_labels_subset child (labels_subset_of_mem mem here)⟩

lemma separate_of_map (f : β → α) {t : Rose β} (separate : Separate hidden (t.map f)) :
    Separate (fun label => hidden (f label)) t := by
  induction t using inductionOn with
  | step label children ih =>
    rw [map_node] at separate
    constructor
    · exact fun child mem => ih child mem (separate.child (mem_map_of_mem mem))
    · intro isHidden child mem
      have apart := separate.shown isHidden (mem_map_of_mem (f := map f) mem)
      cases child with
      | node label children =>
        rw [map_node] at apart
        exact apart

end Adopted

end Rose

end HpcToolkit.Lib
