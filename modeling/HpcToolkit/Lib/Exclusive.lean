import Mathlib

/-! # Resources that one thread holds at a time

Each thread of a system is in a local state, in which it holds some resource or none. A step replaces the local state
of one thread.
-/

open Function

namespace HpcToolkit.Lib

variable {ι Thread Resource : Type} (holds : Thread → Option Resource)

/-- No resource is held by two threads. -/
def Exclusive (threads : ι → Thread) : Prop :=
  ∀ t u r, holds (threads t) = some r → holds (threads u) = some r → t = u

variable {holds} [DecidableEq ι] {threads : ι → Thread} {thread : Thread} {t : ι}

lemma Exclusive.update (exclusive : Exclusive holds threads)
    (mine : ∀ u r, u ≠ t → holds thread = some r → holds (threads u) ≠ some r) :
    Exclusive holds (update threads t thread) := by
  intro u v r first second
  by_cases here : u = t <;> by_cases there : v = t
  · rw [here, there]
  · rw [here, update_self] at first
    rw [update_of_ne there] at second
    exact absurd second (mine v r there first)
  · rw [there, update_self] at second
    rw [update_of_ne here] at first
    exact absurd first (mine u r here second)
  · rw [update_of_ne here] at first
    rw [update_of_ne there] at second
    exact exclusive u v r first second

lemma Exclusive.keep (exclusive : Exclusive holds threads)
    (kept : ∀ r, holds thread = some r → holds (threads t) = some r) :
    Exclusive holds (Function.update threads t thread) :=
  exclusive.update fun u r other here there => other (exclusive u t r there (kept r here))

lemma sum_update_add {α M : Type} [AddCommMonoid M] (weight : α → M) (f : ι → α) (v : α) {places : Finset ι}
    (listed : t ∈ places) :
    ∑ u ∈ places, weight (update f t v u) + weight (f t) = ∑ u ∈ places, weight (f u) + weight v := by
  have others : ∑ u ∈ places.erase t, weight (update f t v u) = ∑ u ∈ places.erase t, weight (f u) :=
    Finset.sum_congr rfl fun u member => by rw [update_of_ne (Finset.ne_of_mem_erase member)]
  rw [← Finset.add_sum_erase places _ listed, ← Finset.add_sum_erase places (fun u => weight (f u)) listed, others,
    update_self]
  ac_rfl

end HpcToolkit.Lib
