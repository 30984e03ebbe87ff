import Mathlib

/-! # Hash sets

A hash set keeps its elements in buckets by their hash, and looks for an element only in the bucket of its hash.
When equal elements may have different hashes, the set has duplicates unless the buckets happen to agree.
-/

open List hiding getElem?_eq_some_iff

namespace HpcToolkit.Lib

/-- Elements are equal by `key`. The bucket of a hash depends on the size of the set, which rehashes as it grows. -/
structure BucketSet (α κ η β : Type) where
  key : α → κ
  hash : α → η
  bucket : ℕ → η → β

namespace BucketSet

section
variable {α κ η β : Type} [DecidableEq κ] [DecidableEq β] (P : BucketSet α κ η β)

/-- The position of an element in the order of insertion, if the search in its bucket succeeds. -/
def find (elements : List α) (a : α) : Option ℕ :=
  elements.findIdx? fun e =>
    P.bucket elements.length (P.hash e) = P.bucket elements.length (P.hash a) ∧ P.key e = P.key a

/-- Insert an element unless an equal one is found, and return its position. -/
def emplace (elements : List α) (a : α) : List α × ℕ :=
  match P.find elements a with
  | some i => (elements, i)
  | none => (elements ++ [a], elements.length)

/-- A sequence of calls, with the positions that they return. -/
def emplaceAll (elements : List α) : List α → List α × List ℕ
  | [] => (elements, [])
  | a :: calls =>
    let out := P.emplace elements a
    let rest := emplaceAll out.1 calls
    (rest.1, out.2 :: rest.2)

/-- The first element of each key. -/
def note (seen : List α) (a : α) : List α := if ∃ e ∈ seen, P.key e = P.key a then seen else seen ++ [a]

/-- Each call falls into the bucket of the first element with its key. -/
def Meets (seen : List α) : List α → Prop
  | [] => True
  | a :: calls =>
    (∀ e ∈ seen, P.key e = P.key a → P.bucket seen.length (P.hash e) = P.bucket seen.length (P.hash a)) ∧
      Meets (P.note seen a) calls

/-- No two elements are equal, and each call has returned the position of its element. -/
structure Unique (calls : List α) (out : List α × List ℕ) : Prop where
  distinct : (out.1.map P.key).Nodup
  returned : List.Forall₂ (fun a i => (out.1[i]?).map P.key = some (P.key a)) calls out.2

variable {P} {elements calls : List α} {a : α} {i : ℕ}

lemma find_some (found : P.find elements a = some i) : (elements[i]?).map P.key = some (P.key a) := by
  obtain ⟨inside, here, -⟩ := findIdx?_eq_some_iff_getElem.mp found
  simp only [decide_eq_true_eq] at here
  rw [getElem?_eq_getElem inside, Option.map_some, here.2]

lemma find_eq_none : P.find elements a = none ↔
    ∀ e ∈ elements, P.key e = P.key a →
      P.bucket elements.length (P.hash e) ≠ P.bucket elements.length (P.hash a) := by
  simp only [find, findIdx?_eq_none_iff, decide_eq_false_iff_not, not_and]
  exact ⟨fun none e listed same bucket => none e listed bucket same,
    fun none e listed bucket same => none e listed same bucket⟩

lemma emplace_prefix : elements <+: (P.emplace elements a).1 := by
  rw [emplace]
  split
  · exact prefix_rfl
  · exact prefix_append ..

lemma emplaceAll_prefix (P : BucketSet α κ η β) (elements calls : List α) :
    elements <+: (P.emplaceAll elements calls).1 := by
  induction calls generalizing elements with
  | nil => exact prefix_rfl
  | cons a calls hypothesis => exact emplace_prefix.trans (hypothesis (P.emplace elements a).1)

lemma emplace_returned (P : BucketSet α κ η β) (elements : List α) (a : α) :
    ((P.emplace elements a).1[(P.emplace elements a).2]?).map P.key = some (P.key a) := by
  rw [emplace]
  split
  · rename_i i found
    exact find_some found
  · simp

omit [DecidableEq κ] [DecidableEq β] in
lemma prefix_getElem? {before after : List α} (longer : before <+: after) {k : κ}
    (here : (before[i]?).map P.key = some k) : (after[i]?).map P.key = some k := by
  obtain ⟨rest, rfl⟩ := longer
  obtain ⟨e, found, same⟩ := Option.map_eq_some_iff.mp here
  obtain ⟨inside, -⟩ := List.getElem?_eq_some_iff.mp found
  rw [getElem?_append_left inside]
  exact here

lemma emplaceAll_returned (elements : List α) :
    List.Forall₂ (fun a i => ((P.emplaceAll elements calls).1[i]?).map P.key = some (P.key a)) calls
      (P.emplaceAll elements calls).2 := by
  induction calls generalizing elements with
  | nil => exact .nil
  | cons a calls hypothesis =>
    have kept := P.emplaceAll_prefix (P.emplace elements a).1 calls
    exact .cons (prefix_getElem? kept (P.emplace_returned elements a)) (hypothesis _)

lemma emplace_eq_note
    (meets : ∀ e ∈ elements, P.key e = P.key a →
      P.bucket elements.length (P.hash e) = P.bucket elements.length (P.hash a)) :
    (P.emplace elements a).1 = P.note elements a := by
  rw [emplace, note]
  split_ifs with seen
  · obtain ⟨e, listed, same⟩ := seen
    split
    · rfl
    · rename_i none
      exact absurd (meets e listed same) (find_eq_none.mp none e listed same)
  · split
    · rename_i i found
      obtain ⟨e, inside, same⟩ := Option.map_eq_some_iff.mp (find_some found)
      exact absurd ⟨e, mem_of_getElem? inside, same⟩ seen
    · rfl

section
variable (distinct : (elements.map P.key).Nodup)
include distinct

omit [DecidableEq β] in
lemma note_distinct : ((P.note elements a).map P.key).Nodup := by
  rw [note]
  split_ifs with seen
  · exact distinct
  · rw [map_append, map_singleton, nodup_append]
    refine ⟨distinct, nodup_singleton _, fun k listed k' here same => seen ?_⟩
    obtain ⟨e, inside, rfl⟩ := mem_map.mp listed
    exact ⟨e, inside, same.trans (mem_singleton.mp here)⟩

lemma emplace_misses {e : α} (listed : e ∈ elements)
    (same : P.key e = P.key a)
    (misses : P.bucket elements.length (P.hash e) ≠ P.bucket elements.length (P.hash a)) :
    ¬ ((P.emplace elements a).1.map P.key).Nodup := by
  have none : P.find elements a = none := by
    refine find_eq_none.mpr fun e' listed' same' => ?_
    rw [inj_on_of_nodup_map distinct listed' listed (same'.trans same.symm)]
    exact misses
  rw [emplace, none, map_append, map_singleton, nodup_append]
  rintro ⟨-, -, apart⟩
  exact apart (P.key e) (mem_map_of_mem listed) (P.key a) (mem_singleton_self _) same

lemma emplaceAll_distinct_iff :
    ((P.emplaceAll elements calls).1.map P.key).Nodup ↔ P.Meets elements calls := by
  induction calls generalizing elements with
  | nil => exact ⟨fun _ => trivial, fun _ => distinct⟩
  | cons a calls hypothesis =>
    constructor
    · intro unique
      have meets : ∀ e ∈ elements, P.key e = P.key a →
          P.bucket elements.length (P.hash e) = P.bucket elements.length (P.hash a) := by
        intro e listed same
        by_contra misses
        have kept := (P.emplaceAll_prefix (P.emplace elements a).1 calls).map P.key
        exact emplace_misses distinct listed same misses (unique.sublist kept.sublist)
      refine ⟨meets, (hypothesis (note_distinct distinct)).mp ?_⟩
      rw [← emplace_eq_note meets]
      exact unique
    · rintro ⟨meets, rest⟩
      rw [emplaceAll, emplace_eq_note meets]
      exact (hypothesis (note_distinct distinct)).mpr rest

end

lemma emplaceAll_unique_iff (P : BucketSet α κ η β) (calls : List α) :
    P.Unique calls (P.emplaceAll [] calls) ↔ P.Meets [] calls := by
  have empty : (([] : List α).map P.key).Nodup := nodup_nil
  exact ⟨fun unique => (emplaceAll_distinct_iff empty).mp unique.distinct,
    fun meets => ⟨(emplaceAll_distinct_iff empty).mpr meets, emplaceAll_returned []⟩⟩

end

end BucketSet

end HpcToolkit.Lib
