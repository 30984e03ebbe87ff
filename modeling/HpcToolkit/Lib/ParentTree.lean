import Mathlib.Tactic
import Mathlib.Algebra.BigOperators.Group.Finset.Basic
import Mathlib.Algebra.BigOperators.Group.Finset.Piecewise

/-! # Trees given by parent pointers

A node reaches those below it along paths whose edges all pass a test at their lower end. The nodes
reached from a node are the node itself and what is reached from its children that pass the test, and
no node is reached through two children, so sums over what is reached add up along the tree.
-/

namespace HpcToolkit.Lib

/-- Parent pointers that lead upwards. -/
structure ParentTree (α : Type) where
  parent : α → Option α
  depth : α → ℕ
  depth_parent : ∀ {c p}, parent c = some p → depth c = depth p + 1

variable {α : Type} {t : ParentTree α} {ok : α → Prop} {c d e p : α}

/-- `d` is `c` or lies below it, and every node on the way down behind `c` passes the test. -/
inductive ParentTree.Reaches (t : ParentTree α) (ok : α → Prop) (c : α) : α → Prop
  | self : Reaches t ok c c
  | step {d p : α} : t.parent d = some p → ok d → Reaches t ok c p → Reaches t ok c d

namespace ParentTree

/-- `d` is `c` or lies below it. -/
abbrev Below (t : ParentTree α) (c d : α) : Prop := t.Reaches (fun _ => True) c d

lemma Reaches.toBelow (reaches : t.Reaches ok c d) : t.Below c d := by
  induction reaches with
  | self => exact .self
  | step parent _ _ ih => exact .step parent trivial ih

lemma Reaches.trans (upper : t.Reaches ok c d) (lower : t.Reaches ok d e) : t.Reaches ok c e := by
  induction lower with
  | self => exact upper
  | step parent pass _ ih => exact .step parent pass ih

lemma Reaches.depth_le (reaches : t.Reaches ok c d) : t.depth c ≤ t.depth d := by
  induction reaches with
  | self => exact le_rfl
  | step parent _ _ ih =>
    have depth := t.depth_parent parent
    omega

lemma Below.unique (first : t.Below c e) (second : t.Below d e) (same : t.depth c = t.depth d) : c = d := by
  induction first with
  | self =>
    cases second with
    | self => rfl
    | step parent _ above =>
      have depth := t.depth_parent parent
      have le := above.depth_le
      omega
  | step parent _ above ih =>
    cases second with
    | self =>
      have depth := t.depth_parent parent
      have le := above.depth_le
      omega
    | step parent' _ above' =>
      obtain rfl := Option.some.inj (parent.symm.trans parent')
      exact ih above'

lemma reaches_iff : t.Reaches ok c d ↔ d = c ∨ ∃ e, t.parent e = some c ∧ ok e ∧ t.Reaches ok e d := by
  constructor
  · intro reaches
    induction reaches with
    | self => exact .inl rfl
    | step parent pass _ ih =>
      right
      rcases ih with rfl | ⟨e, parent', pass', reaches⟩
      · exact ⟨_, parent, pass, .self⟩
      · exact ⟨e, parent', pass', .step parent pass reaches⟩
  · rintro (rfl | ⟨e, parent, pass, reaches⟩)
    · exact .self
    · exact (Reaches.step parent pass .self).trans reaches

lemma below_of_parent_none (none : t.parent c = none) : t.Below e c ↔ e = c := by
  constructor
  · intro below
    cases below with
    | self => rfl
    | step parent =>
      rw [none] at parent
      cases parent
  · rintro rfl
    exact .self

lemma below_of_parent_some (some : t.parent c = some p) : t.Below e c ↔ e = c ∨ t.Below e p := by
  constructor
  · intro below
    cases below with
    | self => exact .inl rfl
    | step parent _ above =>
      obtain rfl := Option.some.inj (some.symm.trans parent)
      exact .inr above
  · rintro (rfl | above)
    · exact .self
    · exact .step some trivial above

lemma exists_root (t : ParentTree α) (d : α) : ∃ r, t.parent r = none ∧ t.Below r d := by
  induction depth : t.depth d generalizing d with
  | zero =>
    refine ⟨d, ?_, .self⟩
    cases parent : t.parent d with
    | none => rfl
    | some p =>
      have below := t.depth_parent parent
      omega
  | succ n ih =>
    cases parent : t.parent d with
    | none => exact ⟨d, parent, .self⟩
    | some p =>
      have below := t.depth_parent parent
      obtain ⟨r, root, above⟩ := ih p (by omega)
      exact ⟨r, root, .step parent trivial above⟩

lemma not_below_child (child : t.parent e = some c) : ¬t.Below e c := by
  intro below
  have depth := t.depth_parent child
  have le := below.depth_le
  omega

lemma child_unique {e' : α} (child : t.parent e = some c) (child' : t.parent e' = some c) (first : t.Below e d)
    (second : t.Below e' d) : e = e' := by
  apply first.unique second
  rw [t.depth_parent child, t.depth_parent child']

/-! ## Sums -/

section
open scoped Classical in
/-- The sum of `f` over the nodes of `cs` that `c` reaches. -/
noncomputable def reachSum {R : Type} [AddCommMonoid R] (t : ParentTree α) (ok : α → Prop) (cs : Finset α) (f : α → R)
    (c : α) : R := ∑ d ∈ cs, if t.Reaches ok c d then f d else 0

variable {R : Type} [AddCommMonoid R] {cs : Finset α} {f : α → R}

open scoped Classical in
lemma reachSum_eq {children : Finset α} (outside : c ∉ cs → f c = 0)
    (mem_children : ∀ e, e ∈ children ↔ t.parent e = some c ∧ ∃ d ∈ cs, t.Below e d) :
    t.reachSum ok cs f c = f c + ∑ e ∈ children, if ok e then t.reachSum ok cs f e else 0 := by
  have own : f c = ∑ d ∈ cs, if d = c then f d else 0 := by
    rw [Finset.sum_ite_eq' cs c f]
    split
    · rfl
    · rename_i absent
      exact outside absent
  have swap : ∑ e ∈ children, (if ok e then t.reachSum ok cs f e else 0) =
      ∑ d ∈ cs, ∑ e ∈ children, if ok e ∧ t.Reaches ok e d then f d else 0 := by
    rw [Finset.sum_comm]
    apply Finset.sum_congr rfl
    intro e _
    by_cases pass : ok e
    · simp [pass, reachSum]
    · simp [pass]
  rw [own, swap, ← Finset.sum_add_distrib, reachSum]
  apply Finset.sum_congr rfl
  intro d member
  by_cases same : d = c
  · subst same
    have none : ∀ e ∈ children, (if ok e ∧ t.Reaches ok e d then f d else 0) = 0 := by
      intro e child
      rw [if_neg]
      rintro ⟨-, reaches⟩
      exact not_below_child ((mem_children e).mp child).1 reaches.toBelow
    rw [if_pos rfl, if_pos .self, Finset.sum_eq_zero none, add_zero]
  · rw [if_neg same, zero_add]
    by_cases reaches : t.Reaches ok c d
    · obtain ⟨e, child, pass, lower⟩ := (reaches_iff.mp reaches).resolve_left same
      have inChildren : e ∈ children := (mem_children e).mpr ⟨child, d, member, lower.toBelow⟩
      rw [if_pos reaches, Finset.sum_eq_single_of_mem e inChildren, if_pos ⟨pass, lower⟩]
      intro e' inChildren' other
      rw [if_neg]
      rintro ⟨-, lower'⟩
      exact other (child_unique ((mem_children e').mp inChildren').1 child lower'.toBelow lower.toBelow)
    · rw [if_neg reaches, Finset.sum_eq_zero]
      intro e inChildren
      rw [if_neg]
      rintro ⟨pass, lower⟩
      exact reaches (reaches_iff.mpr (.inr ⟨e, ((mem_children e).mp inChildren).1, pass, lower⟩))

lemma reachSum_eq_zero (none : ∀ d ∈ cs, t.Below c d → f d = 0) : t.reachSum ok cs f c = 0 := by
  apply Finset.sum_eq_zero
  intro d member
  split
  · rename_i reaches
    exact none d member reaches.toBelow
  · rfl

end

end ParentTree

end HpcToolkit.Lib
