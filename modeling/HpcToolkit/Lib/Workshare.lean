import Mathlib.Algebra.BigOperators.Group.Finset.Basic
import Mathlib.Algebra.Order.BigOperators.Group.Finset
import Mathlib.Data.Fintype.Basic
import Mathlib.Logic.Function.Basic
import Mathlib.Logic.Relation
import Mathlib.Tactic.Common

/-! # Worksharing loops

A team of threads runs a sequence of worksharing loops with no barrier between them. A thread takes the
iterations of its loop one at a time, and goes on to the next loop when none is left to take. An iteration is
a job that runs in atomic steps on a shared state; the steps of different threads interleave freely.
-/

open Function

namespace HpcToolkit.Lib

/-- Whether the iterations of a loop are handed out in order. -/
inductive Schedule where
  | monotonic
  | nonmonotonic

/-- The loops of a team. `work shared job shared' rest` is an atomic step of a job. -/
structure Workshare (G J : Type) where
  schedule : Schedule
  loops : ℕ
  iterations : ℕ → ℕ
  job : ℕ → ℕ → J
  work : G → J → G → Option J → Prop

structure Team (T : ℕ) (G J : Type) where
  shared : G
  place : Fin T → ℕ
  current : Fin T → Option J
  taken : Finset (ℕ × ℕ)

section
variable {T : ℕ} {G J : Type}

def Team.start (shared : G) : Team T G J := ⟨shared, fun _ => 0, fun _ => none, ∅⟩

inductive Step (P : Workshare G J) : Team T G J → Team T G J → Prop where
  | take {s : Team T G J} {t : Fin T} {i : ℕ} (idle : s.current t = none) (inside : s.place t < P.loops)
      (iteration : i < P.iterations (s.place t)) (free : (s.place t, i) ∉ s.taken)
      (order : P.schedule = .monotonic → ∀ k < i, (s.place t, k) ∈ s.taken) :
      Step P s { s with
        current := update s.current t (some (P.job (s.place t) i))
        taken := insert (s.place t, i) s.taken }
  | work {s : Team T G J} {t : Fin T} {job : J} {shared : G} {rest : Option J} (busy : s.current t = some job)
      (works : P.work s.shared job shared rest) :
      Step P s { s with shared := shared, current := update s.current t rest }
  | move {s : Team T G J} {t : Fin T} (idle : s.current t = none) (inside : s.place t < P.loops)
      (exhausted : ∀ i < P.iterations (s.place t), (s.place t, i) ∈ s.taken) :
      Step P s { s with place := update s.place t (s.place t + 1) }

def Reaches (P : Workshare G J) : Team T G J → Team T G J → Prop := Relation.ReflTransGen (Step P)

variable {P : Workshare G J} {s s' : Team T G J}

lemma Reaches.invariant {Inv : Team T G J → Prop} (run : Reaches P s s') (first : Inv s)
    (step : ∀ {a b}, Inv a → Step P a b → Inv b) : Inv s' := by
  induction run with
  | refl => exact first
  | tail _ last hypothesis => exact step hypothesis last

/-! ## The end of a run -/

/-- The loops that a thread has left have no iterations to take. -/
structure Team.Passed (P : Workshare G J) (s : Team T G J) : Prop where
  inside : ∀ t, s.place t ≤ P.loops
  exhausted : ∀ t, ∀ l < s.place t, ∀ i < P.iterations l, (l, i) ∈ s.taken

lemma Team.passed_start (shared : G) : (Team.start shared : Team T G J).Passed P where
  inside _ := Nat.zero_le _
  exhausted _ l left := absurd left (Nat.not_lt_zero l)

lemma Team.Passed.step (passed : s.Passed P) (step : Step P s s') : s'.Passed P := by
  cases step with
  | take idle inside iteration free order =>
    exact ⟨passed.inside, fun t l left i bound => Finset.mem_insert_of_mem (passed.exhausted t l left i bound)⟩
  | work busy works => exact ⟨passed.inside, passed.exhausted⟩
  | @move t idle inside exhausted =>
    refine ⟨fun u => ?_, fun u l left i bound => ?_⟩
    · by_cases same : u = t
      · subst same
        simpa using Nat.succ_le_of_lt inside
      · simpa [same] using passed.inside u
    · by_cases same : u = t
      · subst same
        simp only [update_self] at left
        rcases Nat.lt_succ_iff_lt_or_eq.mp left with earlier | rfl
        · exact passed.exhausted u l earlier i bound
        · exact exhausted i bound
      · simp only [update_of_ne same] at left
        exact passed.exhausted u l left i bound

/-- A team that cannot go on, while every job could, has done all iterations. -/
lemma Team.Passed.stuck (passed : s.Passed P) (stuck : ∀ s', ¬ Step P s s') (team : 0 < T)
    (progress : ∀ job, ∃ shared rest, P.work s.shared job shared rest) :
    (∀ t, s.current t = none) ∧ ∀ l < P.loops, ∀ i < P.iterations l, (l, i) ∈ s.taken := by
  have idle : ∀ t, s.current t = none := by
    intro t
    cases busy : s.current t with
    | none => rfl
    | some job =>
      obtain ⟨shared, rest, works⟩ := progress job
      exact absurd (.work busy works) (stuck _)
  refine ⟨idle, fun l inside i bound => ?_⟩
  have last : P.loops ≤ s.place ⟨0, team⟩ := by
    by_contra early
    rw [not_le] at early
    refine stuck _ (.move (idle ⟨0, team⟩) early ?_)
    intro k
    induction k using Nat.strong_induction_on with
    | _ k earlier =>
      intro bound
      by_contra free
      exact stuck _ (.take (idle ⟨0, team⟩) early bound free fun _ j below => earlier j below (by omega))
  exact passed.exhausted ⟨0, team⟩ l (by omega) i bound

/-! ## Every run ends -/

/-- The steps that are left for a thread, at most. -/
def weightOf (weight : J → ℕ) : Option J → ℕ
  | none => 0
  | some job => weight job

@[simp] lemma weightOf_none (weight : J → ℕ) : weightOf weight none = 0 := rfl

@[simp] lemma weightOf_some (weight : J → ℕ) (job : J) : weightOf weight (some job) = weight job := rfl

/-- All iterations of all loops. -/
def Workshare.tasks (P : Workshare G J) : Finset (ℕ × ℕ) :=
  (Finset.range P.loops).biUnion fun l => (Finset.range (P.iterations l)).image (Prod.mk l)

lemma Workshare.mem_tasks {l i : ℕ} : (l, i) ∈ P.tasks ↔ l < P.loops ∧ i < P.iterations l := by
  simp [tasks]

/-- The steps that are left for a team, at most. -/
def Team.measure (P : Workshare G J) (weight : J → ℕ) (s : Team T G J) : ℕ :=
  ∑ t, (P.loops - s.place t) + ∑ t, weightOf weight (s.current t) +
    ∑ p ∈ P.tasks \ s.taken, (weight (P.job p.1 p.2) + 1)

lemma sum_update {α : Type} (g : α → ℕ) (f : Fin T → α) (t : Fin T) (a : α) :
    ∑ u, g (update f t a u) + g (f t) = ∑ u, g (f u) + g a := by
  have others : ∑ u ∈ Finset.univ.erase t, g (update f t a u) = ∑ u ∈ Finset.univ.erase t, g (f u) :=
    Finset.sum_congr rfl fun u other => by rw [update_of_ne (Finset.ne_of_mem_erase other)]
  rw [← Finset.add_sum_erase _ _ (Finset.mem_univ t), ← Finset.add_sum_erase _ (fun u => g (f u)) (Finset.mem_univ t),
    others, update_self]
  omega

variable {weight : J → ℕ}

lemma Step.measure_lt
    (lighter : ∀ {g job g' rest}, P.work g job g' rest → weightOf weight rest < weight job) (step : Step P s s') :
    s'.measure P weight < s.measure P weight := by
  cases step with
  | @take t i idle inside iteration free order =>
    have running := sum_update (weightOf weight) s.current t (some (P.job (s.place t) i))
    have here : (s.place t, i) ∈ P.tasks \ s.taken :=
      Finset.mem_sdiff.mpr ⟨Workshare.mem_tasks.mpr ⟨inside, iteration⟩, free⟩
    have left := Finset.sum_erase_add _ (fun p => weight (P.job p.1 p.2) + 1) here
    rw [← Finset.sdiff_insert] at left
    dsimp only at left
    rw [idle, weightOf_none, weightOf_some] at running
    simp only [Team.measure]
    omega
  | @work t job shared rest busy works =>
    have running := sum_update (weightOf weight) s.current t rest
    have less := lighter works
    rw [busy, weightOf_some] at running
    simp only [Team.measure]
    omega
  | @move t idle inside exhausted =>
    have places := sum_update (P.loops - ·) s.place t (s.place t + 1)
    simp only [Team.measure]
    omega

lemma exists_not_step
    (lighter : ∀ {g job g' rest}, P.work g job g' rest → weightOf weight rest < weight job) (run : ℕ → Team T G J) :
    ∃ n, ¬ Step P (run n) (run (n + 1)) := by
  by_contra forever
  simp only [not_exists, not_not] at forever
  have bound : ∀ n, (run n).measure P weight + n ≤ (run 0).measure P weight := by
    intro n
    induction n with
    | zero => rfl
    | succ n hypothesis =>
      have less := (forever n).measure_lt lighter
      omega
  have late := bound ((run 0).measure P weight + 1)
  omega

end

end HpcToolkit.Lib
