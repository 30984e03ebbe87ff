import Mathlib

/-! # Sorted lists of words

In a lexicographically sorted list a prefix of a word is a prefix of all words between the two, so that neighbours
tell whether some word is a prefix of another one. Words with a common beginning are sorted by the letter that
follows it. -/

open List

namespace HpcToolkit.Lib

variable {A : Type*} [LinearOrder A]

variable {a b : List A}

lemma cons_le_cons_iff {x y : A} : x :: a ≤ y :: b ↔ x < y ∨ x = y ∧ a ≤ b := by
  rw [← not_lt, cons_lt_cons_iff, not_or, not_lt, le_iff_lt_or_eq]
  constructor
  · rintro ⟨smaller | rfl, rest⟩
    · exact Or.inl smaller
    · exact Or.inr ⟨rfl, not_lt.mp fun larger => rest ⟨rfl, larger⟩⟩
  · rintro (smaller | ⟨rfl, rest⟩)
    · exact ⟨Or.inl smaller, fun same => absurd same.1 smaller.ne'⟩
    · exact ⟨Or.inr rfl, fun larger => absurd rest (not_le.mpr larger.2)⟩

lemma le_of_prefix (initial : a <+: b) : a ≤ b := by
  induction a generalizing b with
  | nil => exact not_lt.mp (not_lt_nil b)
  | cons x a ih =>
    obtain ⟨b, rfl, inner⟩ := cons_prefix_iff.mp initial
    exact cons_le_cons_iff.mpr (Or.inr ⟨rfl, ih inner⟩)

lemma prefix_of_between {a b c : List A} (before : a ≤ b) (after : b ≤ c) (initial : a <+: c) : a <+: b := by
  induction a generalizing b c with
  | nil => exact nil_prefix
  | cons x a ih =>
    obtain ⟨c, rfl, inner⟩ := cons_prefix_iff.mp initial
    cases b with
    | nil => exact absurd before (not_le.mpr (nil_lt_cons x a))
    | cons y b =>
      rcases cons_le_cons_iff.mp before with smaller | ⟨rfl, lower⟩
      · rcases cons_le_cons_iff.mp after with larger | ⟨rfl, -⟩
        · exact absurd (smaller.trans larger) (lt_irrefl x)
        · exact absurd smaller (lt_irrefl y)
      · rcases cons_le_cons_iff.mp after with larger | ⟨-, upper⟩
        · exact absurd larger (lt_irrefl x)
        · exact cons_prefix_cons.mpr ⟨rfl, ih lower upper inner⟩

lemma pairwise_not_prefix {words : List (List A)} (sorted : words.Pairwise (· ≤ ·))
    (neighbours : words.IsChain fun a b => ¬ a <+: b) : words.Pairwise fun a b => ¬ a <+: b := by
  induction words with
  | nil => exact List.Pairwise.nil
  | cons a words ih =>
    obtain ⟨first, sorted⟩ := pairwise_cons.mp sorted
    obtain ⟨next, neighbours⟩ := isChain_cons.mp neighbours
    apply pairwise_cons.mpr
    refine ⟨fun c member initial => ?_, ih sorted neighbours⟩
    cases words with
    | nil => exact absurd member not_mem_nil
    | cons b words =>
      have after : b ≤ c := by
        rcases mem_cons.mp member with rfl | later
        · exact le_rfl
        · exact (pairwise_cons.mp sorted).1 c later
      exact next b rfl (prefix_of_between (first b mem_cons_self) after initial)

lemma letter_le_of_le {k : ℕ} {x y : A} (sorted : a ≤ b) (common : a.take k = b.take k)
    (left : a[k]? = some x) (right : b[k]? = some y) : x ≤ y := by
  induction k generalizing a b with
  | zero =>
    cases a with
    | nil => simp at left
    | cons u a =>
      cases b with
      | nil => simp at right
      | cons w b =>
        obtain rfl : u = x := by simpa using left
        obtain rfl : w = y := by simpa using right
        exact (cons_le_cons_iff.mp sorted).elim le_of_lt fun same => same.1.le
  | succ k ih =>
    cases a with
    | nil => simp at left
    | cons u a =>
      cases b with
      | nil => simp at right
      | cons w b =>
        rw [take_succ_cons, take_succ_cons, cons_eq_cons] at common
        rcases cons_le_cons_iff.mp sorted with smaller | ⟨-, sorted⟩
        · exact absurd common.1 smaller.ne
        · exact ih sorted common.2 (by simpa using left) (by simpa using right)

end HpcToolkit.Lib
