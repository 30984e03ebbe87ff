import Mathlib

/-! # States that a system can reach

A system takes steps, of which only some are possible in each state. What holds at the start and is kept by every step
holds in every state that can be reached.
-/

namespace HpcToolkit.Lib

variable {S A : Type} (step : S → A → Option S) (initial : S)

/-- The states of all runs from the initial one. -/
inductive Reachable : S → Prop where
  | start : Reachable initial
  | step {s s' : S} {act : A} (earlier : Reachable s) (stepped : step s act = some s') : Reachable s'

variable {step initial} {s s' : S}

lemma Reachable.invariant {P : S → Prop} (reached : Reachable step initial s) (start : P initial)
    (kept : ∀ s s' act, P s → step s act = some s' → P s') : P s := by
  induction reached with
  | start => exact start
  | step earlier stepped ih => exact kept _ _ _ ih stepped

lemma Reachable.run {acts : List A} (reached : Reachable step initial s) (ran : acts.foldlM step s = some s') :
    Reachable step initial s' := by
  induction acts generalizing s with
  | nil =>
    cases ran
    exact reached
  | cons act acts ih =>
    rw [List.foldlM_cons] at ran
    obtain ⟨next, stepped, ran⟩ := Option.bind_eq_some_iff.mp ran
    exact ih (reached.step stepped) ran

section Runs

variable (step) {P : S → Prop} {Inv : S → Prop} {allowed meets : S → A → Prop}

/-- Every step of the run returns and the property holds in every state on the way. -/
def EveryState (P : S → Prop) : S → List A → Prop
  | s, [] => P s
  | s, act :: acts => P s ∧ ∃ s', step s act = some s' ∧ EveryState P s' acts

/-- Every step that the run takes meets the condition in the state before it. -/
def EveryStep (meets : S → A → Prop) : S → List A → Prop
  | _, [] => True
  | s, act :: acts => meets s act ∧ ∀ s' ∈ step s act, EveryStep meets s' acts

instance EveryStep.decidable [∀ s act, Decidable (meets s act)] :
    (s : S) → (acts : List A) → Decidable (EveryStep step meets s acts)
  | _, [] => isTrue trivial
  | s, act :: acts =>
    have _later : ∀ s', Decidable (EveryStep step meets s' acts) := fun s' => EveryStep.decidable s' acts
    inferInstanceAs (Decidable (_ ∧ ∀ s' ∈ step s act, EveryStep step meets s' acts))

variable {step}

lemma EveryState.head {acts : List A} (all : EveryState step P s acts) : P s := by
  cases acts with
  | nil => exact all
  | cons act acts => exact all.1

lemma EveryState.last {acts : List A} (all : EveryState step P s acts) (ran : acts.foldlM step s = some s') : P s' := by
  induction acts generalizing s with
  | nil =>
    cases ran
    exact all
  | cons act acts ih =>
    obtain ⟨-, next, stepped, later⟩ := all
    rw [List.foldlM_cons, stepped] at ran
    exact ih later ran

lemma EveryStep.invariant {acts : List A} (met : EveryStep step meets s acts)
    (kept : ∀ s act s', Inv s → meets s act → step s act = some s' → Inv s') (start : Inv s)
    (ran : acts.foldlM step s = some s') : Inv s' := by
  induction acts generalizing s with
  | nil =>
    cases ran
    exact start
  | cons act acts ih =>
    rw [List.foldlM_cons] at ran
    obtain ⟨next, stepped, ran⟩ := Option.bind_eq_some_iff.mp ran
    exact ih (met.2 next stepped) (kept s act next start met.1 stepped) ran

lemma everyState_of_everyStep {acts : List A} (gives : ∀ s, Inv s → P s)
    (kept : ∀ s act, Inv s → meets s act → ∃ s', step s act = some s' ∧ Inv s') (start : Inv s)
    (met : EveryStep step meets s acts) : EveryState step P s acts := by
  induction acts generalizing s with
  | nil => exact gives s start
  | cons act acts ih =>
    obtain ⟨now, later⟩ := met
    obtain ⟨s', stepped, inv⟩ := kept s act start now
    exact ⟨gives s start, s', stepped, ih inv (later s' stepped)⟩

lemma everyState_iff_everyStep {acts : List A} (gives : ∀ s, Inv s → P s)
    (kept : ∀ s act, Inv s → allowed s act → meets s act → ∃ s', step s act = some s' ∧ Inv s')
    (broken : ∀ s act s', Inv s → allowed s act → step s act = some s' → P s' → meets s act)
    (start : Inv s) (all : EveryStep step allowed s acts) :
    EveryState step P s acts ↔ EveryStep step meets s acts := by
  induction acts generalizing s with
  | nil => exact iff_of_true (gives s start) trivial
  | cons act acts ih =>
    constructor
    · rintro ⟨-, s', stepped, later⟩
      have met := broken s act s' start all.1 stepped later.head
      refine ⟨met, ?_⟩
      intro next again
      obtain ⟨other, stepped', inv⟩ := kept s act start all.1 met
      obtain rfl : s' = next := Option.some.inj (stepped.symm.trans again)
      obtain rfl : s' = other := Option.some.inj (stepped.symm.trans stepped')
      exact (ih inv (all.2 s' stepped)).mp later
    · rintro ⟨met, later⟩
      obtain ⟨s', stepped, inv⟩ := kept s act start all.1 met
      exact ⟨gives s start, s', stepped, (ih inv (all.2 s' stepped)).mpr (later s' stepped)⟩

variable (step) in
/-- The property holds in every state on the way, whether the last step returns or not. -/
def EveryReached (P : S → Prop) : S → List A → Prop
  | s, [] => P s
  | s, act :: acts => P s ∧ ∀ s' ∈ step s act, EveryReached P s' acts

lemma EveryReached.head {acts : List A} (all : EveryReached step P s acts) : P s := by
  cases acts with
  | nil => exact all
  | cons act acts => exact all.1

lemma everyReached_iff_everyStep {acts : List A} (gives : ∀ s, Inv s → P s)
    (kept : ∀ s act s', Inv s → allowed s act → meets s act → step s act = some s' → Inv s')
    (broken : ∀ s act, Inv s → allowed s act → (∀ s' ∈ step s act, P s') → meets s act)
    (start : Inv s) (all : EveryStep step allowed s acts) :
    EveryReached step P s acts ↔ EveryStep step meets s acts := by
  induction acts generalizing s with
  | nil => exact iff_of_true (gives s start) trivial
  | cons act acts ih =>
    constructor
    · rintro ⟨-, later⟩
      have met := broken s act start all.1 fun s' stepped => (later s' stepped).head
      refine ⟨met, ?_⟩
      intro s' stepped
      exact (ih (kept s act s' start all.1 met stepped) (all.2 s' stepped)).mp (later s' stepped)
    · rintro ⟨met, later⟩
      refine ⟨gives s start, ?_⟩
      intro s' stepped
      exact (ih (kept s act s' start all.1 met stepped) (all.2 s' stepped)).mpr (later s' stepped)

end Runs

/-! ## Runs of operations that return results -/

section Results

variable {S A R : Type*} (exec : S → A → R × S)

/-- What holds of the state before each operation of the run, the operation, its result and the state after it. -/
def EachStep (P : S → A → R → S → Prop) : S → List A → Prop
  | _, [] => True
  | s, act :: acts => P s act (exec s act).1 (exec s act).2 ∧ EachStep P (exec s act).2 acts

variable {exec} {P : S → A → R → S → Prop} (Inv : S → Prop) {meets : S → A → Prop}

lemma eachStep_iff (kept : ∀ s act, Inv s → meets s act → Inv (exec s act).2)
    (exact : ∀ s act, Inv s → (P s act (exec s act).1 (exec s act).2 ↔ meets s act)) {s : S} (start : Inv s)
    (acts : List A) : EachStep exec P s acts ↔ EachStep exec (fun s act _ _ => meets s act) s acts := by
  induction acts generalizing s with
  | nil => exact Iff.rfl
  | cons act acts ih =>
    simp only [EachStep, exact s act start]
    exact and_congr_right fun met => ih (kept s act start met)

lemma EachStep.imp {Q : S → A → R → S → Prop} {s : S} {acts : List A} (all : EachStep exec P s acts)
    (gives : ∀ s act, P s act (exec s act).1 (exec s act).2 → Q s act (exec s act).1 (exec s act).2) :
    EachStep exec Q s acts := by
  induction acts generalizing s with
  | nil => trivial
  | cons act acts ih => exact ⟨gives s act all.1, ih all.2⟩

lemma eachStep_of_meets (Budget : ℕ → S → Prop) {s : S} {acts : List A}
    (kept : ∀ n s act, Budget (n + 1) s → meets s act → Budget n (exec s act).2)
    (gives : ∀ n s act, Budget (n + 1) s → meets s act → P s act (exec s act).1 (exec s act).2)
    (start : Budget acts.length s) (met : EachStep exec (fun s act _ _ => meets s act) s acts) : EachStep exec P s acts := by
  induction acts generalizing s with
  | nil => trivial
  | cons act acts ih => exact ⟨gives _ s act start met.1, ih (kept _ s act start met.1) met.2⟩

end Results

end HpcToolkit.Lib
