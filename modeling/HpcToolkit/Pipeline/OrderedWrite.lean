import HpcToolkit.Lib.Workshare
import HpcToolkit.Pipeline.Registration

/-! # Ordered writes

The threads of the pipeline share out the calls of `write`. A sink that registered for ordered writes enters
its region through `enterOrderedWrite`, which waits for the sink before it in the chain, and leaves the region
when the caller object goes out of scope. The chain of ordered writes is not linked, so no sink waits.
-/

open Function
open Finset (mem_insert notMem_empty)


namespace HpcToolkit.Pipeline

open Lib

/-- How far `write` of a sink is. -/
inductive Stage where
  | before
  | inside
  | after

/-- `write` of a sink. A job is the index of the sink. -/
inductive Write (pipe : Pipe) : (ℕ → Stage) → ℕ → (ℕ → Stage) → Option ℕ → Prop where
  | enterOrderedWrite {stages : ℕ → Stage} {i : ℕ} (before : stages i = .before)
      (ordered : (pipe.sinks i).orderedWrite = true)
      (waited : ∀ p, (pipe.sinks i).priorWriteDepOnce = some p → stages p = .after) :
      Write pipe stages i (update stages i .inside) (some i)
  | leave {stages : ℕ → Stage} {i : ℕ} (inside : stages i = .inside) :
      Write pipe stages i (update stages i .after) (some i)
  | done {stages : ℕ → Stage} {i : ℕ} (finished : (pipe.sinks i).orderedWrite = true → stages i = .after) :
      Write pipe stages i stages none

/-- The loop that lets the sinks finish up their writing. -/
def writes (setup : Setup) (schedule : Schedule) : Workshare (ℕ → Stage) ℕ where
  schedule := schedule
  loops := 1
  iterations _ := setup.sinks.length
  job _ i := i
  work := Write setup.pipe

/-- No sink has started. -/
def unwritten (T : ℕ) : Team T (ℕ → Stage) ℕ := .start fun _ => .before

/-- A sink enters its region only after all sinks have left that registered for ordered writes before it. -/
def Ordered (setup : Setup) (stages : ℕ → Stage) : Prop :=
  ∀ i j, i < j → .write ∈ setup.registers i → .write ∈ setup.registers j → stages j ≠ .before → stages i = .after

/-! ## One thread -/

section
variable {setup : Setup} {schedule : Schedule} {T : ℕ} {s s' : Team T (ℕ → Stage) ℕ}

/-- A single thread that takes the sinks in order has at most one at a time, the last one. -/
structure Serial (setup : Setup) (s : Team T (ℕ → Stage) ℕ) : Prop where
  place : ∀ l i, (l, i) ∈ s.taken → l = 0
  order : ∀ i, (0, i) ∈ s.taken → ∀ k < i, (0, k) ∈ s.taken
  untaken : ∀ i, (0, i) ∉ s.taken → s.shared i = .before
  current : ∀ t i, s.current t = some i → (0, i) ∈ s.taken ∧ ∀ k, (0, k) ∈ s.taken → k ≤ i
  finished : ∀ i, (0, i) ∈ s.taken → .write ∈ setup.registers i → (∀ t, s.current t ≠ some i) → s.shared i = .after

lemma Serial.start : Serial setup (unwritten T) where
  place l i taken := absurd taken (notMem_empty _)
  order i taken := absurd taken (notMem_empty _)
  untaken _ _ := rfl
  current t i busy := by cases busy
  finished i taken := absurd taken (notMem_empty _)

variable {t : Fin T}

lemma Serial.setStage (serial : Serial setup s) {i : ℕ} (busy : s.current t = some i) (stage : Stage) :
    Serial setup { s with
      shared := update s.shared i stage
      current := update s.current t (some i) } := by
  rw [← busy, update_eq_self]
  refine ⟨serial.place, serial.order, fun k untaken => ?_, serial.current, fun k taken ordered quiet => ?_⟩
  · have other : k ≠ i := fun same => untaken (same ▸ (serial.current t i busy).1)
    simp only [update_of_ne other]
    exact serial.untaken k untaken
  · have other : k ≠ i := fun same => quiet t (same ▸ busy)
    simp only [update_of_ne other]
    exact serial.finished k taken ordered quiet

lemma Serial.step (serial : Serial setup s) (single : T ≤ 1) (step : Step (writes setup .monotonic) s s') :
    Serial setup s' := by
  have alone : ∀ t u : Fin T, t = u := fun t u => Fin.ext (by omega)
  cases step with
  | @take t i idle inside iteration free order =>
    have here : s.place t = 0 := Nat.lt_one_iff.mp inside
    simp only [here] at free order
    have below : ∀ k, (0, k) ∈ s.taken → k < i := fun k taken => by
      by_contra later
      rcases Nat.lt_or_eq_of_le (not_lt.mp later) with less | rfl
      · exact free (serial.order k taken i less)
      · exact free taken
    refine ⟨fun l k taken => ?_, fun k taken m less => ?_, fun k untaken => ?_, fun u k busy => ?_,
      fun k taken ordered quiet => ?_⟩
    · rcases mem_insert.mp taken with same | earlier
      · exact (Prod.mk.inj same).1.trans here
      · exact serial.place l k earlier
    · refine Finset.mem_insert_of_mem ?_
      rcases mem_insert.mp taken with same | earlier
      · exact order rfl m ((Prod.mk.inj same).2 ▸ less)
      · exact serial.order k earlier m less
    · exact serial.untaken k fun taken => untaken (Finset.mem_insert_of_mem taken)
    · cases alone u t
      simp only [update_self, Option.some_inj] at busy
      subst busy
      refine ⟨mem_insert.mpr (.inl (by rw [here]; rfl)), fun m taken => ?_⟩
      rcases mem_insert.mp taken with same | earlier
      · exact (Prod.mk.inj same).2.le
      · exact (below m earlier).le
    · rcases mem_insert.mp taken with same | earlier
      · refine absurd ?_ (quiet t)
        simp only [update_self, (Prod.mk.inj same).2]
        rfl
      · refine serial.finished k earlier ordered fun u => ?_
        rw [alone u t, idle]
        exact Option.some_ne_none k |>.symm
  | @work t i stages rest busy works =>
    cases works with
    | enterOrderedWrite before ordered waited => exact serial.setStage busy .inside
    | leave inside => exact serial.setStage busy .after
    | done finished =>
      refine ⟨serial.place, serial.order, serial.untaken, fun u k running => ?_, fun k taken ordered quiet => ?_⟩
      · cases alone u t
        simp only [update_self, reduceCtorEq] at running
      · by_cases same : k = i
        · subst same
          exact finished ((setup.orderedWrite_iff k).mpr ordered)
        · refine serial.finished k taken ordered fun u running => same ?_
          rw [alone u t, busy] at running
          exact (Option.some_inj.mp running).symm
  | @move t idle inside exhausted =>
    exact ⟨serial.place, serial.order, serial.untaken, serial.current, serial.finished⟩

lemma Serial.ordered (serial : Serial setup s) : Ordered setup s.shared := by
  intro i j less first second started
  have taken : (0, j) ∈ s.taken := by
    by_contra untaken
    exact started (serial.untaken j untaken)
  refine serial.finished i (serial.order j taken i less) first fun t busy => ?_
  exact absurd ((serial.current t i busy).2 j taken) (not_le.mpr less)

/-! ## Several threads -/

lemma take_reaches (schedule : Schedule) (t : Fin T) {m : ℕ} (bound : m < setup.sinks.length)
    (idle : s.current t = none) (here : s.place t = 0) (taken : ∀ k, (0, k) ∈ s.taken ↔ k < m) :
    Step (writes setup schedule) s { s with
      current := update s.current t (some m)
      taken := insert (0, m) s.taken } := by
  have free : (s.place t, m) ∉ s.taken := by
    rw [here, taken]
    exact lt_irrefl m
  have order : ∀ k < m, (s.place t, k) ∈ s.taken := fun k less => here ▸ (taken k).mpr less
  have step := Step.take (P := writes setup schedule) idle (here ▸ Nat.one_pos) bound free fun _ => order
  rw [here] at step
  exact step

lemma enter_reaches (schedule : Schedule) {i : ℕ} (busy : s.current t = some i) (before : s.shared i = .before)
    (ordered : .write ∈ setup.registers i) :
    Step (writes setup schedule) s { s with shared := update s.shared i .inside } := by
  have step := Step.work (P := writes setup schedule) busy
    (.enterOrderedWrite before ((setup.orderedWrite_iff i).mpr ordered) fun p prior => by
      rw [setup.priorWriteDepOnce_eq] at prior
      cases prior)
  rwa [← busy, update_eq_self] at step

lemma exists_reaches_write (schedule : Schedule) (t : Fin T) {m : ℕ} (bound : m < setup.sinks.length)
    (idle : s.current t = none) (here : s.place t = 0) (taken : ∀ k, (0, k) ∈ s.taken ↔ k < m)
    (before : s.shared m = .before) : ∃ stage, Reaches (writes setup schedule) s { s with
      shared := update s.shared m stage
      taken := insert (0, m) s.taken } := by
  have first := take_reaches schedule t bound idle here taken
  have back : update (update s.current t (some m)) t none = s.current := by
    rw [update_idem, ← idle, update_eq_self]
  by_cases ordered : .write ∈ setup.registers m
  · refine ⟨.after, .head first (.head (enter_reaches schedule (update_self ..) before ordered) ?_)⟩
    have leave := Step.work (P := writes setup schedule) (t := t) (s := {
      shared := update s.shared m .inside
      place := s.place
      current := update s.current t (some m)
      taken := insert (0, m) s.taken }) (update_self ..) (.leave (update_self ..))
    rw [update_idem, update_idem] at leave
    refine .head leave (.single ?_)
    have done := Step.work (P := writes setup schedule) (t := t) (s := {
      shared := update s.shared m .after
      place := s.place
      current := update s.current t (some m)
      taken := insert (0, m) s.taken }) (update_self ..) (.done fun _ => update_self ..)
    rwa [back] at done
  · refine ⟨.before, .head first (.single ?_)⟩
    have done := Step.work (P := writes setup schedule) (t := t) (s := {
      shared := s.shared
      place := s.place
      current := update s.current t (some m)
      taken := insert (0, m) s.taken }) (update_self ..)
      (.done fun isOrdered => absurd ((setup.orderedWrite_iff m).mp isOrdered) ordered)
    rw [← before, update_eq_self]
    rwa [back] at done

variable {a m : ℕ}

lemma exists_reaches_written (schedule : Schedule) (t : Fin T) (low : a ≤ m) (bound : m ≤ setup.sinks.length)
    (idle : s.current t = none) (here : s.place t = 0) (taken : ∀ k, (0, k) ∈ s.taken ↔ k < a)
    (before : ∀ k, a ≤ k → s.shared k = .before) :
    ∃ s', Reaches (writes setup schedule) s s' ∧ s'.current = s.current ∧ s'.place = s.place ∧
      (∀ k, (0, k) ∈ s'.taken ↔ k < m) ∧ (∀ k, m ≤ k → s'.shared k = .before) ∧
      ∀ k, k < a → s'.shared k = s.shared k := by
  induction m, low using Nat.le_induction with
  | base => exact ⟨s, .refl, rfl, rfl, taken, before, fun _ _ => rfl⟩
  | succ m low hypothesis =>
    obtain ⟨middle, run, current, place, done, later, kept⟩ := hypothesis (by omega)
    obtain ⟨stage, last⟩ := exists_reaches_write schedule t bound (current ▸ idle) (place ▸ here) done
      (later m le_rfl)
    refine ⟨_, run.trans last, current, place, fun k => ?_, fun k above => ?_, fun k below => ?_⟩
    · rw [mem_insert, done, Prod.mk.injEq]
      omega
    · exact (update_of_ne (by omega) ..).trans (later k (by omega))
    · exact (update_of_ne (by omega) ..).trans (kept k below)

lemma exists_reaches_taken (schedule : Schedule) (t : Fin T) (low : a ≤ m) (bound : m < setup.sinks.length)
    (idle : s.current t = none) (here : s.place t = 0) (taken : ∀ k, (0, k) ∈ s.taken ↔ k < a)
    (before : ∀ k, a ≤ k → s.shared k = .before) :
    ∃ s', Reaches (writes setup schedule) s s' ∧ s'.current = update s.current t (some m) ∧
      s'.place = s.place ∧ (∀ k, (0, k) ∈ s'.taken ↔ k < m + 1) ∧ (∀ k, m ≤ k → s'.shared k = .before) ∧
      ∀ k, k < a → s'.shared k = s.shared k := by
  obtain ⟨middle, run, current, place, done, later, kept⟩ :=
    exists_reaches_written schedule t low bound.le idle here taken before
  have take := take_reaches schedule t bound (current ▸ idle) (place ▸ here) done
  refine ⟨_, run.trans (.single take), by rw [current], place, fun k => ?_, later, kept⟩
  rw [mem_insert, done, Prod.mk.injEq]
  omega

variable {i j : ℕ}

lemma not_ordered_update {stages : ℕ → Stage} (less : i < j) (first : .write ∈ setup.registers i)
    (second : .write ∈ setup.registers j) (early : stages i = .before) :
    ¬ Ordered setup (update stages j .inside) := by
  intro ordered
  have waited := ordered i j less first second (by simp)
  rw [update_of_ne less.ne, early] at waited
  cases waited

lemma exists_reaches_unordered (schedule : Schedule) (less : i < j) (first : .write ∈ setup.registers i)
    (second : .write ∈ setup.registers j) (inside : j < setup.sinks.length) {t u : Fin T} (different : u ≠ t) :
    ∃ s, Reaches (writes setup schedule) (unwritten T) s ∧ ¬ Ordered setup s.shared := by
  obtain ⟨a, run, current, place, taken, before, -⟩ := exists_reaches_taken (s := unwritten T) schedule t (Nat.zero_le i)
    (less.trans inside) rfl rfl (fun k => by simp [unwritten, Team.start]) fun _ _ => rfl
  have idle : a.current u = none := by
    rw [current, update_of_ne different]
    rfl
  obtain ⟨b, run', current', -, -, before', kept⟩ := exists_reaches_taken schedule u (Nat.succ_le_of_lt less) inside
    idle (by rw [place]; rfl) taken fun k above => before k (by omega)
  have busy : b.current u = some j := by rw [current', update_self]
  have enter := enter_reaches schedule busy (before' j le_rfl) second
  have early : b.shared i = .before := (kept i (Nat.lt_succ_self i)).trans (before i le_rfl)
  exact ⟨_, (run.trans run').trans (.single enter), not_ordered_update less first second early⟩

lemma exists_reaches_unordered_single (less : i < j) (first : .write ∈ setup.registers i)
    (second : .write ∈ setup.registers j) (inside : j < setup.sinks.length) (t : Fin T) :
    ∃ s, Reaches (writes setup .nonmonotonic) (unwritten T) s ∧ ¬ Ordered setup s.shared := by
  have take := Step.take (P := writes setup .nonmonotonic) (s := unwritten T) (t := t) rfl Nat.one_pos inside
    (notMem_empty _) fun absurdly => by cases absurdly
  have enter := enter_reaches .nonmonotonic (s := { unwritten T with
      current := update (unwritten T).current t (some j)
      taken := insert (0, j) (unwritten T).taken }) (update_self ..) rfl second
  exact ⟨_, .head take (.single enter), not_ordered_update less first second rfl⟩

lemma lt_length_of_registers {i : ℕ} {call : Registration} (made : call ∈ setup.registers i) :
    i < setup.sinks.length := by
  rcases Setup.registered_iff.mpr made with ⟨inside, -⟩ | ⟨-, nothing⟩
  · exact inside
  · cases nothing

/-- Writes are ordered in every run if and only if there is at most one ordered write, or a single thread that
takes the sinks in order. -/
theorem writes_ordered_iff (threads : 0 < T) :
    (∀ s, Reaches (writes setup schedule) (unwritten T) s → Ordered setup s.shared) ↔
      (∀ i j, .write ∈ setup.registers i → .write ∈ setup.registers j → i = j) ∨
        (T = 1 ∧ schedule = .monotonic) := by
  constructor
  · intro ordered
    by_contra neither
    simp only [not_or, not_forall, not_and] at neither
    obtain ⟨⟨i, j, first, second, different⟩, several⟩ := neither
    wlog less : i < j generalizing i j
    · exact this j i second first (Ne.symm different) (by omega)
    have inside := lt_length_of_registers second
    obtain ⟨s, run, unordered⟩ : ∃ s, Reaches (writes setup schedule) (unwritten T) s ∧ ¬ Ordered setup s.shared := by
      by_cases single : T = 1
      · cases schedule with
        | monotonic => exact absurd rfl (several single)
        | nonmonotonic => exact exists_reaches_unordered_single less first second inside ⟨0, threads⟩
      · have other : (⟨1, by omega⟩ : Fin T) ≠ ⟨0, threads⟩ := by simp
        exact exists_reaches_unordered schedule less first second inside other
    exact unordered (ordered s run)
  · rintro (unique | ⟨single, rfl⟩) s run
    · intro i j less first second
      exact absurd (unique i j first second) less.ne
    · exact (run.invariant Serial.start fun serial step => serial.step single.le step).ordered

end

/-! ## Two sinks -/

/-- Both sinks register for ordered writes, and the first one for ordered wavefronts as well. -/
def twoSinks : Setup where
  sinks := [⟨∅, ∅, [.wavefront, .write]⟩, ⟨∅, ∅, [.write]⟩]
  sources := []

/-- One thread is in the region of the second sink before the other one has entered that of the first. -/
theorem second_sink_overtakes :
    ∃ s, Reaches (writes twoSinks .monotonic) (unwritten 2) s ∧ ¬ Ordered twoSinks s.shared :=
  exists_reaches_unordered .monotonic Nat.one_pos (.tail _ (.head _)) (.head _) (by decide) (by decide : (1 : Fin 2) ≠ 0)

/-- With one thread, the two sinks write in order. -/
theorem twoSinks_ordered :
    0 < 1 ∧ ∀ s, Reaches (writes twoSinks .monotonic) (unwritten 1) s → Ordered twoSinks s.shared :=
  ⟨Nat.one_pos, (writes_ordered_iff Nat.one_pos).mpr (.inr ⟨rfl, rfl⟩)⟩

end HpcToolkit.Pipeline
