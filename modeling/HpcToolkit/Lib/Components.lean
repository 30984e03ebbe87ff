import Mathlib

/-! # Components of a directed graph and their summary

Two vertices of a directed graph are in one component when each is reachable from the other. The summary of a graph has
only edges between different components: every such edge of the graph, and for an edge that enters a component at its
chosen vertex also an edge to each other vertex of the component. The summary is acyclic and reaches nothing new. It
loses nothing exactly when the last step to a vertex can always be made from another component.
-/

namespace HpcToolkit.Lib

open Relation

variable {V : Type} {E : V → V → Prop} {x y z : V}

lemma mem_of_closed {P : V → Prop} (edge : ∀ x y, P x → E x y → P y) (start : P x)
    (reach : ReflTransGen E x y) : P y := by
  induction reach with
  | refl => exact start
  | tail _ last ih => exact edge _ _ ih last

lemma reaches_path {num : V → Nat} {active path : V → Prop}
    (down : ∀ x, active x → ¬ path x → ∃ y, active y ∧ num y < num x ∧ ReflTransGen E x y) (here : active x) :
    ∃ y, active y ∧ path y ∧ num y ≤ num x ∧ ReflTransGen E x y := by
  induction bound : num x using Nat.strong_induction_on generalizing x with
  | _ n ih =>
    by_cases stop : path x
    · exact ⟨x, here, stop, bound.le, .refl⟩
    · obtain ⟨y, active, smaller, reach⟩ := down x here stop
      obtain ⟨z, activeZ, pathZ, below, rest⟩ := ih (num y) (bound ▸ smaller) active rfl
      exact ⟨z, activeZ, pathZ, by omega, reach.trans rest⟩

/-- Each of the two vertices is reachable from the other. -/
def Mutual (E : V → V → Prop) (x y : V) : Prop := ReflTransGen E x y ∧ ReflTransGen E y x

lemma Mutual.refl (x : V) : Mutual E x x := ⟨.refl, .refl⟩

lemma Mutual.symm (same : Mutual E x y) : Mutual E y x := ⟨same.2, same.1⟩

lemma Mutual.trans (left : Mutual E x y) (right : Mutual E y z) : Mutual E x z :=
  ⟨left.1.trans right.1, right.2.trans left.2⟩

lemma mutual_swap : Mutual (Function.swap E) x y ↔ Mutual E x y := by
  exact (and_congr reflTransGen_swap reflTransGen_swap).trans And.comm

/-- The vertices before a given one. -/
noncomputable def rank (lt : V → V → Prop) (vertices : Finset V) (x : V) : Nat :=
  open Classical in (vertices.filter (lt · x)).card

variable {vertices : Finset V} {lt : V → V → Prop}

lemma rank_lt (trans : ∀ x y z, lt x y → lt y z → lt x z)
    (irrefl : ∀ x, ¬ lt x x) (mem : y ∈ vertices) (before : lt y x) :
    rank lt vertices y < rank lt vertices x := by
  classical
  apply Finset.card_lt_card
  rw [Finset.ssubset_iff_of_subset]
  · exact ⟨y, Finset.mem_filter.mpr ⟨mem, before⟩, fun self => irrefl y (Finset.mem_filter.mp self).2⟩
  · intro z below
    obtain ⟨memZ, less⟩ := Finset.mem_filter.mp below
    exact Finset.mem_filter.mpr ⟨memZ, trans _ _ _ less before⟩

lemma rank_le : rank lt vertices x ≤ vertices.card := by
  classical
  exact Finset.card_filter_le _ _

/-- A vertex that is before another, in an earlier component. -/
def Above (E : V → V → Prop) (x y : V) : Prop := ReflTransGen E x y ∧ ¬ ReflTransGen E y x

lemma Above.trans (left : Above E x y) (right : Above E y z) : Above E x z :=
  ⟨left.1.trans right.1, fun back => left.2 (right.1.trans back)⟩

lemma Above.not_mutual (above : Above E x y) : ¬ Mutual E x y := fun same => above.2 same.2

lemma above_of_not_mutual (reach : ReflTransGen E x y) (other : ¬ Mutual E x y) : Above E x y :=
  ⟨reach, fun back => other ⟨reach, back⟩⟩

/-- Edges between components, with those to the chosen vertices of a component repeated for its other vertices. -/
def Summary (E : V → V → Prop) (chosen : V → V → Prop) (x y : V) : Prop :=
  ¬ Mutual E x y ∧ (E x y ∨ ∃ root, chosen root y ∧ E x root)

variable {chosen : V → V → Prop}

section Chosen

variable (inside : ∀ root y, chosen root y → Mutual E root y)
include inside

lemma Summary.above (edge : Summary E chosen x y) : Above E x y := by
  obtain ⟨other, direct | ⟨root, isRoot, entry⟩⟩ := edge
  · exact above_of_not_mutual (.single direct) other
  · exact above_of_not_mutual ((inside _ _ isRoot).1.head entry) other

lemma above_of_summary_path (path : TransGen (Summary E chosen) x y) : Above E x y := by
  induction path with
  | single edge => exact edge.above inside
  | tail _ last ih => exact ih.trans (last.above inside)

lemma summary_acyclic (x : V) : ¬ TransGen (Summary E chosen) x x :=
  fun cycle => (above_of_summary_path inside cycle).2 .refl

lemma reach_of_summary (path : ReflTransGen (Summary E chosen) x y) : ReflTransGen E x y := by
  rcases reflTransGen_iff_eq_or_transGen.mp path with rfl | path
  · exact .refl
  · exact (above_of_summary_path inside path).1

/-- Whenever `y` is reachable from the `x` of another component, a vertex that is `x` or below it in another component
enters the component of `y` from outside, at `y` or at a chosen vertex. -/
def EntriesKept (E : V → V → Prop) (chosen : V → V → Prop) : Prop :=
  ∀ x y, Above E x y → ∃ last, (last = x ∨ Above E x last) ∧
    ¬ Mutual E last y ∧ (E last y ∨ ∃ root, chosen root y ∧ E last root)

lemma summary_reach_iff (vertices : Finset V) (finite : ∀ x y, E x y → x ∈ vertices) :
    (∀ x y, ¬ Mutual E x y → (ReflTransGen (Summary E chosen) x y ↔ ReflTransGen E x y)) ↔
      EntriesKept E chosen := by
  constructor
  · intro same x y above
    have path := (same x y above.not_mutual).mpr above.1
    obtain rfl | ⟨last, before, edge⟩ := ReflTransGen.cases_tail path
    · exact absurd (Mutual.refl _) above.not_mutual
    · apply Exists.intro last
      apply And.intro _ edge
      rcases reflTransGen_iff_eq_or_transGen.mp before with rfl | before
      · exact .inl rfl
      · exact .inr (above_of_summary_path inside before)
  · intro kept x y other
    constructor
    · exact reach_of_summary inside
    · intro reach
      have above := above_of_not_mutual reach other
      clear reach other
      induction size : rank (Above E) vertices y using Nat.strong_induction_on generalizing y with
      | _ n ih =>
        obtain ⟨last, before, entry⟩ := kept x y above
        have edge : Summary E chosen last y := entry
        rcases before with rfl | before
        · exact .single edge
        · apply ReflTransGen.tail _ edge
          apply ih (rank (Above E) vertices last) _ last before rfl
          rw [← size]
          apply rank_lt (fun _ _ _ => Above.trans) (fun _ self => self.2 .refl) _ (edge.above inside)
          obtain ⟨-, direct | ⟨root, -, entry⟩⟩ := edge
          · exact finite _ _ direct
          · exact finite _ _ entry

end Chosen

end HpcToolkit.Lib
