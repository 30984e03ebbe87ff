import HpcToolkit.Util.WorkProgram

/-! # Every item once

In a run whose compare-exchanges are timely every item is done exactly once, and a wait is over only when its
batches are. If no thread is left out, the master gets through all its batches. A compare-exchange that comes too
late can take items that its batch does not have.
-/

open List

namespace HpcToolkit.Util.ParallelWork

section
variable {program : Program} {T : ℕ} {e : Execution program T} {n m : ℕ} {t : Fin (T + 1)}

/-! ## Endless runs -/

lemma Execution.next_cases (e : Execution program T) (n : ℕ) : e.act n = none ∧ e.state (n + 1) = e.state n ∨
    ∃ act, e.act n = some act ∧ step program.kind (e.state n) act = some (e.state (n + 1)) := by
  have next := e.next n
  cases act : e.act n with
  | none => exact .inl ⟨rfl, by simpa only [act] using next⟩
  | some act' => exact .inr ⟨act', rfl, by simpa only [act] using next⟩

lemma Execution.steps (e : Execution program T) {act : Act T} (given : e.act m = some act) :
    step program.kind (e.state m) act = some (e.state (m + 1)) := by
  rcases e.next_cases m with ⟨nothing, -⟩ | ⟨act', given', stepped⟩
  · rw [given] at nothing
    cases nothing
  · rw [given] at given'
    cases given'
    exact stepped

lemma Execution.reached {Condition : State T → Act T → Prop} (meets : e.Meets Condition) (n : ℕ) :
    Reached program Condition (e.state n) := by
  induction n with
  | zero =>
    rw [e.start]
    exact .start
  | succ n hypothesis =>
    rcases e.next_cases n with ⟨-, same⟩ | ⟨act, given, stepped⟩
    · rw [same]
      exact hypothesis
    · exact .step hypothesis (meets n act given) stepped

/-- From time `n` on no step is used up any more. -/
structure Execution.Settled (e : Execution program T) (n : ℕ) : Prop where
  timely : e.Meets Timely
  fair : e.Fair
  real : ∀ m ≥ n, ∀ t, e.act m ≠ some (.fail t)
  least : ∀ m ≥ n, (e.state n).measure ≤ (e.state m).measure

lemma Execution.exists_settled (timely : e.Meets Timely) (fair : e.Fair) : ∃ n, e.Settled n := by
  obtain ⟨first, real⟩ := fair.succeeds
  obtain ⟨n, late, least⟩ := (measure fun n => (e.state n).measure).wf.has_min {n | first ≤ n} ⟨first, le_refl first⟩
  exact ⟨n, timely, fair, fun m after => real m (late.trans after),
    fun m after => not_lt.mp (least m (late.trans after))⟩

lemma State.Spun.refl (s : State T) : s.Spun s := ⟨rfl, rfl, rfl, rfl, rfl⟩

lemma State.Spun.trans {a b c : State T} (first : a.Spun b) (second : b.Spun c) : a.Spun c :=
  ⟨second.measure.trans first.measure, second.inCounter.trans first.inCounter,
    second.outCounter.trans first.outCounter, second.maxCounter.trans first.maxCounter, second.ops.trans first.ops⟩

namespace Execution.Settled
variable (settled : e.Settled n)
include settled

lemma inv (m : ℕ) : Inv (e.state m) := (Execution.reached settled.timely m).inv

section
variable (after : n ≤ m)
include after

lemma spun : (e.state n).Spun (e.state m) := by
  induction m, after using Nat.le_induction with
  | base => exact .refl _
  | succ m after hypothesis =>
    rcases e.next_cases m with ⟨-, same⟩ | ⟨act, given, stepped⟩
    · rw [same]
      exact hypothesis
    · have real : ∀ t, act ≠ .fail t := fun t same => settled.real m after t (same ▸ given)
      rcases (settled.inv m).progress (settled.timely m act given) stepped real with less | spun
      · have least := settled.least (m + 1) (after.trans (Nat.le_succ m))
        have same := hypothesis.measure
        omega
      · exact hypothesis.trans spun

lemma frame (active : ¬ (e.state m).Resting t) (other : e.act m ≠ some (.run t)) :
    (e.state (m + 1)).threads t = (e.state m).threads t ∧ (t = 0 → (e.state (m + 1)).ops = (e.state m).ops) := by
  rcases e.next_cases m with ⟨-, same⟩ | ⟨act, given, stepped⟩
  · rw [same]
    exact ⟨rfl, fun _ => rfl⟩
  · have real := settled.real m after t
    rw [given] at other real
    exact step_frame stepped (fun same => other (same ▸ rfl)) (fun same => real (same ▸ rfl)) active

lemma runs (active : ¬ (e.state m).Resting t) : ∃ k ≥ m, e.act k = some (.run t) ∧
    (e.state k).threads t = (e.state m).threads t ∧ (t = 0 → (e.state k).ops = (e.state m).ops) := by
  obtain ⟨k, late, event⟩ := settled.fair.runs t m
  obtain ⟨d, rfl⟩ := Nat.exists_eq_add_of_le late
  clear late
  induction d generalizing m with
  | zero => exact ⟨m, le_rfl, event.resolve_right active, rfl, fun _ => rfl⟩
  | succ d hypothesis =>
    by_cases now : e.act m = some (.run t)
    · exact ⟨m, le_rfl, now, rfl, fun _ => rfl⟩
    · obtain ⟨place, ops⟩ := settled.frame after active now
      have active' : ¬ (e.state (m + 1)).Resting t := fun resting =>
        active ⟨place ▸ resting.1, fun isMaster => ops isMaster ▸ resting.2 isMaster⟩
      rw [← Nat.add_assoc, Nat.add_right_comm] at event
      obtain ⟨k, later, run, stays, rest⟩ := hypothesis (after.trans (Nat.le_succ m)) active' event
      exact ⟨k, (Nat.le_succ m).trans later, run, stays.trans place,
        fun isMaster => (rest isMaster).trans (ops isMaster)⟩

lemma spins (active : ¬ (e.state m).Resting t) :
    ((e.state m).threads t).Spins (e.state n).shared.inCounter := by
  by_contra works
  obtain ⟨k, late, run, place, -⟩ := settled.runs after active
  have spun := settled.spun (after.trans late)
  rw [← place, ← spun.inCounter] at works
  have less := (settled.inv k).works (settled.timely k _ run) (e.steps run) works
  have same := (settled.spun (m := k + 1) (by omega)).measure
  have before := spun.measure
  omega

lemma free (t : Fin (T + 1)) : ((e.state m).threads t).debt = 0 := by
  by_cases resting : (e.state m).Resting t
  · rw [resting.1]
    rfl
  · have spins := settled.spins after resting
    cases place : (e.state m).threads t with
    | contributing loop pc =>
      rw [place] at spins
      cases pc with
      | working claim i => exact spins.elim
      | running claim call => exact spins.elim
      | _ => rfl
    | _ => rfl

lemma advance (inside : (e.state m).threads 0 ≠ .away) : ∃ k ≥ n, ∃ g : Shared,
    g.inCounter = (e.state n).shared.inCounter ∧ g.outCounter = (e.state n).shared.outCounter ∧
      g.maxCounter = (e.state n).shared.maxCounter ∧
      (e.state k).threads 0 = (((e.state m).threads 0).step program.kind g).2 := by
  obtain ⟨k, late, run, place, -⟩ := settled.runs after fun resting : (e.state m).Resting 0 => inside resting.1
  have spun := settled.spun (after.trans late)
  refine ⟨k + 1, after.trans (late.trans (Nat.le_succ k)), (e.state k).shared, spun.inCounter, spun.outCounter,
    spun.maxCounter, ?_⟩
  have stepped := e.steps run
  rw [← place] at inside ⊢
  rw [step_inside _ inside] at stepped
  rw [← Option.some_inj.mp stepped, State.moved_self]

lemma rests (away : (e.state m).threads 0 = .away) : (e.state m).Resting 0 := by
  by_contra active
  have spins := settled.spins after active
  rw [away] at spins
  exact spins

end

lemma arrived (inside : (e.state m).threads 0 ≠ .away) (after : n ≤ m) (empty : (e.state n).shared.inCounter < 2) :
    (e.state n).shared.maxCounter ≤ (e.state n).shared.outCounter := by
  have spun := settled.spun after
  have bounded : (e.state m).Bounded := by
    obtain ⟨p, -, holds⟩ := (settled.inv m).phase
    cases p with
    | filled => exact holds
    | emptied => exact holds.1
    | installed => exact holds.1
    | bounded n => exact absurd holds.1.away inside
    | reset n => exact absurd holds.1.away inside
  have idle : (e.state m).Idle := ⟨spun.inCounter ▸ empty, settled.free after⟩
  have limit := bounded.limit
  have debts := bounded.debts
  rw [idle.handed, Finset.sum_eq_zero fun t _ => settled.free after t] at debts
  rw [← spun.maxCounter, ← spun.outCounter]
  omega

lemma ends_waited {batches outCounter : ℕ} (after : n ≤ m)
    (place : (e.state m).threads 0 = .waited batches outCounter)
    (arrived : (e.state n).shared.maxCounter ≤ outCounter) : ∃ k ≥ n, (e.state k).Resting 0 := by
  obtain ⟨k, late, g, -, -, maxCounter, stepped⟩ := settled.advance after (by rw [place]; exact Thread.noConfusion)
  rw [place, Thread.step, if_neg (by omega)] at stepped
  exact ⟨k, late, settled.rests late stepped⟩

lemma empty_waiting (after : n ≤ m) (waits : ∃ batches, (e.state m).threads 0 = .waiting batches ∨
    ∃ outCounter, (e.state m).threads 0 = .waited batches outCounter) : (e.state n).shared.inCounter < 2 := by
  have valid := (settled.inv m).threads 0
  rw [← (settled.spun after).inCounter]
  obtain ⟨batches, place | ⟨outCounter, place⟩⟩ := waits
  · rw [place] at valid
    exact valid.2 rfl
  · rw [place] at valid
    exact (valid.2.2 rfl).1

lemma ends_waiting {batches : ℕ} (after : n ≤ m) (place : (e.state m).threads 0 = .waiting batches) :
    ∃ k ≥ n, (e.state k).Resting 0 := by
  have inside : (e.state m).threads 0 ≠ .away := by
    rw [place]
    exact Thread.noConfusion
  have empty := settled.empty_waiting after ⟨batches, .inl place⟩
  obtain ⟨k, late, g, -, outCounter, -, stepped⟩ := settled.advance after inside
  rw [place] at stepped
  exact settled.ends_waited late stepped (outCounter ▸ settled.arrived inside after empty)

variable {contributed completed : Bool} {loop : Loop}

lemma ends_last (after : n ≤ m)
    (place : (e.state m).threads 0 = .contributing loop (.left contributed completed))
    (last : contributed = false ∧ (loop = .contributeUntilComplete → completed = true)) :
    ∃ k ≥ n, (e.state k).Resting 0 := by
  obtain ⟨k, late, g, -, -, -, stepped⟩ := settled.advance after (by rw [place]; exact Thread.noConfusion)
  rw [place] at stepped
  cases loop with
  | contributeWhileAble =>
    rw [last.1] at stepped
    exact ⟨k, late, settled.rests late stepped⟩
  | contributeUntilEmpty =>
    rw [last.1] at stepped
    exact settled.ends_waiting late stepped
  | contributeUntilComplete =>
    rw [last.2 rfl] at stepped
    exact settled.ends_waiting late stepped

lemma ends_enter (after : n ≤ m) (place : (e.state m).threads 0 = .contributing loop .enter) :
    ∃ k ≥ n, (e.state k).Resting 0 := by
  have inside : (e.state m).threads 0 ≠ .away := by
    rw [place]
    exact Thread.noConfusion
  have empty := settled.spins after fun resting : (e.state m).Resting 0 => inside resting.1
  rw [place] at empty
  obtain ⟨k, late, g, inCounter, -, -, stepped⟩ := settled.advance after inside
  rw [place] at stepped
  simp only [Thread.step, contribute, acquire, inCounter, cntInitial, cntCompleted] at stepped
  split_ifs at stepped with initial completed
  · refine settled.ends_last late stepped ⟨rfl, ?_⟩
    -- A `ParallelFor` that was filled does not become initial again.
    rintro rfl
    have follows := (Execution.reached settled.timely m).follows
    obtain ⟨single, filled⟩ := follows.complete _ place
    exact absurd ((settled.spun after).inCounter.trans initial) (follows.closed single filled)
  · exact settled.ends_last late stepped ⟨rfl, fun _ => rfl⟩
  · have small : (e.state n).shared.inCounter < 2 := empty
    omega

lemma ends_left (after : n ≤ m)
    (place : (e.state m).threads 0 = .contributing loop (.left contributed completed)) :
    ∃ k ≥ n, (e.state k).Resting 0 := by
  obtain ⟨k, late, g, -, -, -, stepped⟩ := settled.advance after (by rw [place]; exact Thread.noConfusion)
  rw [place] at stepped
  cases loop with
  | contributeWhileAble =>
    cases contributed
    · exact ⟨k, late, settled.rests late stepped⟩
    · exact settled.ends_enter late stepped
  | contributeUntilEmpty =>
    cases contributed
    · exact settled.ends_waiting late stepped
    · exact settled.ends_enter late stepped
  | contributeUntilComplete =>
    cases completed
    · exact settled.ends_enter late stepped
    · exact settled.ends_waiting late stepped

lemma ends : ∃ k ≥ n, (e.state k).Resting 0 := by
  cases place : (e.state n).threads 0 with
  | away => exact ⟨n, le_rfl, settled.rests le_rfl place⟩
  | contributing loop pc =>
    have spins := settled.spins (t := 0) le_rfl fun resting => by
      have away := resting.1
      rw [place] at away
      cases away
    rw [place] at spins
    cases pc with
    | enter => exact settled.ends_enter le_rfl place
    | left contributed completed => exact settled.ends_left le_rfl place
    | _ => exact spins.elim
  | waiting batches => exact settled.ends_waiting le_rfl place
  | waited batches outCounter =>
    have inside : (e.state n).threads 0 ≠ .away := by
      rw [place]
      exact Thread.noConfusion
    have empty := settled.empty_waiting le_rfl ⟨batches, .inr ⟨outCounter, place⟩⟩
    have arrived := settled.arrived inside le_rfl empty
    obtain ⟨k, late, g, -, -, maxCounter, stepped⟩ := settled.advance le_rfl inside
    rw [place, Thread.step] at stepped
    split_ifs at stepped with early
    · exact settled.ends_waiting late stepped
    · exact ⟨k, late, settled.rests late stepped⟩

end Execution.Settled

lemma Inv.done_resting {s : State T} (inv : Inv s) (follows : s.Follows program) (resting : s.Resting 0) :
    s.shared.batches = program.sizes ∧ s.shared.Done s.shared.batches.length := by
  obtain ⟨p, plan, holds⟩ := inv.phase
  have ops := resting.2 rfl
  have sizes := follows.sizes
  rw [ops, flatMap_nil, append_nil] at sizes
  rw [ops] at plan
  refine ⟨sizes, inv.done (inv.finished_idle ?_)⟩
  cases p with
  | emptied => exact holds.2 resting.1
  | _ => exact plan.elim

/-! ## Every item once -/

/-- If every compare-exchange that succeeds was prepared from the bounds of the batch as it is and no counter wraps,
then every item is done exactly once. -/
theorem workshare_exactlyOnce (program : Program) (T : ℕ) :
    (∀ s : State T, Reached program Timely s → s.shared.ExactlyOnce) ∧
      ∀ e : Execution program T, e.Meets Timely → e.Fair →
        ∃ n, (e.state n).Resting 0 ∧ (e.state n).shared.batches = program.sizes ∧
          (e.state n).shared.Done program.sizes.length := by
  refine ⟨fun s reached => reached.inv.exactlyOnce, fun e timely fair => ?_⟩
  obtain ⟨n, settled⟩ := Execution.exists_settled timely fair
  obtain ⟨k, -, resting⟩ := settled.ends
  obtain ⟨sizes, done⟩ := (settled.inv k).done_resting (Execution.reached timely k).follows resting
  exact ⟨k, resting, sizes, sizes ▸ done⟩

end

/-! ## A master without workers -/

section
variable (program : Program)

/-- The master runs whenever it can. -/
def Program.alone : ℕ → State 0
  | 0 => program.start 0
  | n + 1 => (step program.kind (Program.alone n) (.run 0)).getD (Program.alone n)

def Program.execution : Execution program 0 where
  state := program.alone
  act n := if (step program.kind (program.alone n) (.run 0)).isSome then some (.run 0) else none
  start := rfl
  next n := by
    cases stepped : step program.kind (program.alone n) (.run 0) with
    | none => simp [Program.alone, stepped]
    | some s => simp [Program.alone, stepped]

lemma resting_of_stuck {kind : Kind} {s : State 0} (stuck : ¬ (step kind s (.run 0)).isSome) : s.Resting 0 := by
  by_cases away : s.threads 0 = .away
  · refine ⟨away, fun _ => ?_⟩
    simp only [step, away, if_true, State.master] at stuck
    split at stuck
    · assumption
    · exact absurd rfl stuck
    · exact absurd rfl stuck
  · rw [step_inside kind away] at stuck
    exact absurd rfl stuck

lemma Program.execution_fair : program.execution.Fair where
  runs t n := by
    refine ⟨n, le_rfl, ?_⟩
    obtain rfl : t = 0 := Fin.fin_one_eq_zero t
    simp only [Program.execution]
    split_ifs with ran
    · exact .inl rfl
    · exact .inr (resting_of_stuck ran)
  succeeds := by
    refine ⟨0, fun m _ t => ?_⟩
    simp only [Program.execution]
    split_ifs <;> simp

lemma Program.alone_stuck {n m : ℕ} (stuck : ¬ (step program.kind (program.alone n) (.run 0)).isSome)
    (after : n ≤ m) : program.alone m = program.alone n := by
  rw [Option.not_isSome_iff_eq_none] at stuck
  induction m, after using Nat.le_induction with
  | base => rfl
  | succ m _ hypothesis => rw [Program.alone, hypothesis, stuck, Option.getD_none]

lemma Program.execution_meets {n : ℕ} (stuck : ¬ (step program.kind (program.alone n) (.run 0)).isSome)
    (timely : ∀ m < n, Timely (program.alone m) (.run 0)) : program.execution.Meets Timely := by
  intro m act given
  simp only [Program.execution] at given
  split_ifs at given with ran
  cases given
  exact timely m (Nat.lt_of_not_le fun after => stuck (program.alone_stuck stuck after ▸ ran))

end

instance {T : ℕ} (s : State T) (act : Act T) : Decidable (Timely s act) := by
  unfold Timely
  split
  · split <;> infer_instance
  · infer_instance

theorem alone_exactlyOnce : ∃ e : Execution (.parallelFor 2 1) 0, e.Meets Timely ∧ e.Fair ∧
    (e.state 9).shared.ExactlyOnce ∧ ∃ n, (e.state n).Resting 0 ∧ (e.state n).shared.batches = [2] ∧
      (e.state n).shared.Done 1 := by
  have meets : (Program.parallelFor 2 1).execution.Meets Timely :=
    Program.execution_meets _ (n := 26) (by decide) (by decide)
  have fair := (Program.parallelFor 2 1).execution_fair
  obtain ⟨always, ends⟩ := workshare_exactlyOnce (.parallelFor 2 1) 0
  exact ⟨_, meets, fair, always _ (Execution.reached meets 9), ends _ meets fair⟩

/-! ## A compare-exchange that comes too late -/

section
variable {T : ℕ}

def runs (kind : Kind) (s : State T) (acts : List (Act T)) : Option (State T) := acts.foldlM (step kind) s

lemma Reached.runs {program : Program} {s s' : State T} {acts : List (Act T)}
    (reached : Reached program (fun _ _ => True) s) (ran : runs program.kind s acts = some s') :
    Reached program (fun _ _ => True) s' := by
  induction acts generalizing s with
  | nil =>
    cases ran
    exact reached
  | cons act acts hypothesis =>
    simp only [ParallelWork.runs, foldlM_cons, Option.bind_eq_bind, Option.bind_eq_some_iff] at ran
    obtain ⟨next, stepped, ran⟩ := ran
    exact hypothesis (.step reached trivial stepped) ran

end

/-- A worker reads the bounds of a batch of two items, which the master then does by itself. The next batch has one
item, but the worker's compare-exchange succeeds and claims two. -/
def lateExchange : List (Act 1) :=
  replicate 10 (Act.run 0) ++ Act.call 1 .contributeWhileAble :: replicate 4 (Act.run 1) ++
    replicate 21 (Act.run 0) ++ replicate 4 (Act.run 1)

theorem second_item_of_one : ¬ ∀ (program : Program) (T : ℕ) (s : State T),
    Reached program (fun _ _ => True) s → s.shared.ExactlyOnce := by
  intro claim
  have ran : ((runs .repeating ((Program.repeating [(2, 2), (1, 0)]).start 1) lateExchange).map fun s =>
      (s.shared.invoked.head?, s.shared.batches)) = some (some ⟨1, 1, 1⟩, [2, 1]) := by
    decide
  obtain ⟨s, ran, seen⟩ := Option.map_eq_some_iff.mp ran
  obtain ⟨last, batches⟩ := Prod.mk.inj seen
  have reached : Reached (.repeating [(2, 2), (1, 0)]) (fun _ _ => True) s := Reached.start.runs ran
  have own := (claim _ 1 s reached).own _ (mem_of_mem_head? last)
  simp [Shared.size, batches] at own

end HpcToolkit.Util.ParallelWork
