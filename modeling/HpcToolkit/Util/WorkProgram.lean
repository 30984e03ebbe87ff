import HpcToolkit.Util.WorkEnds

/-! # What the states of a workshare show

In every state of a timely run the items that were done were done once and under their own action, and the batches
that were filled in are those of the program.
-/

open List

namespace HpcToolkit.Util.ParallelWork

section
variable {T : ℕ} {s : State T}

/-! ## Every state -/

lemma Inv.handed_le (inv : Inv s) (b : ℕ) : s.shared.handed b ≤ s.shared.size b := by
  obtain ⟨p, -, holds⟩ := inv.phase
  by_cases idle : s.Idle
  · exact (idle.handed b).le
  · by_cases last : b + 1 = s.shared.batches.length
    · have bound := (holds.matches idle).handed_le
      rwa [← last, Nat.add_sub_cancel] at bound
    · rw [Shared.handed, if_neg (by omega)]

lemma Shared.owes_le (g : Shared) (call : Invocation) : g.owes call ≤ 1 := by
  rw [Shared.owes]
  split_ifs <;> omega

lemma Thread.due_le (call : Invocation) (thread : Thread) : thread.due call ≤ thread.unfinished call := by
  cases thread with
  | contributing loop pc =>
    cases pc with
    | running claim current =>
      simp only [Thread.due, Thread.unfinished, Claim.covers]
      split_ifs <;> omega
    | _ => exact le_rfl
  | _ => exact le_rfl

variable {batches : ℕ}

lemma Inv.done (inv : Inv s) (finished : s.shared.Finished batches) : s.shared.Done batches := by
  intro b less i inside
  have returned := count_pos_iff.mpr (finished b less i inside)
  have invoked := inv.invoked ⟨b, b, i⟩
  have finished := inv.finished ⟨b, b, i⟩
  have once := s.shared.owes_le ⟨b, b, i⟩
  have due := Finset.sum_le_sum fun t (_ : t ∈ Finset.univ) => (s.threads t).due_le ⟨b, b, i⟩
  omega

lemma Inv.exactlyOnce (inv : Inv s) : s.shared.ExactlyOnce where
  own call invoked := by
    have count := count_pos_iff.mpr invoked
    have total := inv.invoked call
    rw [Shared.owes] at total
    split_ifs at total with owed
    · exact ⟨owed.1, owed.2.trans_le (inv.handed_le call.batch)⟩
    · omega
  once call := by
    have total := inv.invoked call
    have once := s.shared.owes_le call
    omega
  waited batches waited := inv.done (inv.stable batches waited).2
  filled := inv.done inv.finished_earlier

/-! ## The batches of a program -/

def Op.sizes : Op → List ℕ
  | .release numItems => [numItems.toNat]
  | _ => []

/-- The master goes through its program, and a `ParallelFor` that was filled does not become initial again. -/
structure State.Follows (program : Program) (s : State T) : Prop where
  suffix : s.ops <:+ program.ops
  sizes : s.shared.batches ++ s.ops.flatMap Op.sizes = program.sizes
  closes : program.kind = .parallelFor → ∀ t loop b, s.threads t ≠ .contributing loop (.ready b true)
  closed : program.kind = .parallelFor → s.shared.batches ≠ [] → s.shared.inCounter ≠ 0
  complete : ∀ pc, s.threads 0 = .contributing .contributeUntilComplete pc →
    program.kind = .parallelFor ∧ s.shared.batches ≠ []

lemma Program.sizes_ops (program : Program) : program.ops.flatMap Op.sizes = program.sizes := by
  cases program with
  | parallelFor n bs => rfl
  | repeating batches =>
    simp only [ops, sizes, flatMap_append]
    induction batches with
    | nil => rfl
    | cons batch batches hypothesis => simpa [fill, rawFill, Op.sizes, complete] using hypothesis

lemma State.Follows.start (program : Program) : (program.start T).Follows program where
  suffix := suffix_rfl
  sizes := program.sizes_ops
  closes _ _ _ _ := Thread.noConfusion
  closed _ filled := absurd rfl filled
  complete pc called := by cases called

lemma Program.untilComplete {program : Program} {rest : List Op}
    (suffix : .call .contributeUntilComplete :: rest <:+ program.ops) :
    program.kind = .parallelFor ∧ rest = [] ∧ program.sizes ≠ [] := by
  cases program with
  | parallelFor n bs => simpa [ops, rawFill, suffix_cons_iff, kind, sizes] using suffix
  | repeating batches =>
    have listed := suffix.subset (mem_cons_self ..)
    simp [ops, fill, rawFill, complete] at listed

variable {program : Program} {t : Fin (T + 1)} {g : Shared} {thread : Thread}

lemma acquire_ne_ready (beginCount : ℕ) (b : Bounds) (toInitial : Bool) :
    acquire beginCount ≠ .ready b toInitial := by
  rw [acquire]
  split_ifs <;> exact Contribute.noConfusion

lemma Claim.start_ne_ready (claim : Claim) (b : Bounds) (toInitial : Bool) : claim.start ≠ .ready b toInitial := by
  rw [Claim.start]
  split_ifs <;> exact Contribute.noConfusion

lemma Thread.step_ne_ready (thread : Thread) (g : Shared) (loop : Loop) (b : Bounds) :
    (thread.step .parallelFor g).2 ≠ .contributing loop (.ready b true) := by
  cases thread with
  | contributing loop pc =>
    cases pc with
    | enter => exact fun same => acquire_ne_ready _ _ _ (Thread.contributing.inj same).2
    | ready b toInitial =>
      simp only [Thread.step, contribute]
      split_ifs
      · simp only [ne_eq, Thread.contributing.injEq, Claim.start_ne_ready, and_false, not_false_eq_true]
      · simp only [ne_eq, Thread.contributing.injEq, acquire_ne_ready, and_false, not_false_eq_true]
    | working claim i =>
      simp only [Thread.step, contribute]
      split_ifs <;> simp
    | left contributed completed => cases loop <;> cases contributed <;> cases completed <;> simp [Thread.step, Loop.next]
    | _ => simp [Thread.step, contribute, shouldWorkingToInitial]
  | waited batches outCounter =>
    simp only [Thread.step]
    split_ifs <;> simp
  | _ => simp [Thread.step]

variable {pc : Contribute}

lemma Loop.next_loop {before loop : Loop} {contributed completed : Bool}
    (inside : before.next contributed completed batches = .contributing loop pc) : before = loop := by
  cases before <;> simp only [Loop.next] at inside <;> split_ifs at inside <;>
    exact (Thread.contributing.inj inside).1

lemma Thread.step_loop {kind : Kind} {loop : Loop}
    (inside : (thread.step kind g).2 = .contributing loop pc) : ∃ pc, thread = .contributing loop pc := by
  cases thread with
  | contributing before pc =>
    cases pc with
    | left contributed completed =>
      obtain rfl := Loop.next_loop inside
      exact ⟨_, rfl⟩
    | _ =>
      obtain rfl := (Thread.contributing.inj inside).1
      exact ⟨_, rfl⟩
  | waited batches outCounter =>
    simp only [Thread.step] at inside
    split_ifs at inside
  | _ => cases inside

lemma Thread.step_batches (kind : Kind) (thread : Thread) (g : Shared) :
    (thread.step kind g).1.batches = g.batches := by
  cases thread with
  | contributing loop pc =>
    cases pc with
    | ready b toInitial =>
      simp only [Thread.step, contribute]
      split_ifs <;> rfl
    | working claim i =>
      simp only [Thread.step, contribute]
      split_ifs <;> rfl
    | _ => rfl
  | waited batches outCounter =>
    simp only [Thread.step]
    split_ifs <;> rfl
  | _ => rfl

lemma State.Follows.moved (follows : s.Follows program) (batches : g.batches = s.shared.batches)
    (closes : program.kind = .parallelFor → ∀ loop b, thread ≠ .contributing loop (.ready b true))
    (closed : program.kind = .parallelFor → s.shared.inCounter ≠ 0 → g.inCounter ≠ 0)
    (complete : t = 0 → ∀ pc, thread = .contributing .contributeUntilComplete pc →
      ∃ pc, s.threads t = .contributing .contributeUntilComplete pc) :
    (s.moved t g thread).Follows program where
  suffix := follows.suffix
  sizes := by
    rw [State.moved_shared, batches]
    exact follows.sizes
  closes single u loop b := by
    by_cases same : u = t
    · subst same
      rw [State.moved_self]
      exact closes single loop b
    · rw [State.moved_of_ne same]
      exact follows.closes single u loop b
  closed single filled := by
    rw [State.moved_shared, batches] at filled
    exact closed single (follows.closed single filled)
  complete pc called := by
    rw [State.moved_shared, batches]
    by_cases same : 0 = t
    · subst same
      rw [State.moved_self] at called
      obtain ⟨pc, called⟩ := complete rfl pc called
      exact follows.complete pc called
    · rw [State.moved_of_ne same] at called
      exact follows.complete pc called

lemma Inv.step_inCounter (inv : Inv s) (timely : Timely s (.run t)) (kind : Kind)
    (closes : ∀ loop b, s.threads t ≠ .contributing loop (.ready b true)) (nonzero : s.shared.inCounter ≠ 0) :
    ((s.threads t).step kind s.shared).1.inCounter ≠ 0 := by
  cases place : s.threads t with
  | contributing loop pc =>
    cases pc with
    | ready b toInitial =>
      by_cases same : s.shared.inCounter = b.beginCount
      · have exchange := inv.ready place timely same
        have last : toInitial = false := by
          cases toInitial with
          | false => rfl
          | true => exact absurd place (closes loop b)
        have ends := exchange.endCount
        have some := exchange.some
        simp only [Thread.step, ParallelWork.contribute, if_pos same, last, Bounds.nextCounter, cntCompleted,
          Bool.false_eq_true, if_false]
        split_ifs
        · decide
        · omega
      · simpa only [Thread.step, ParallelWork.contribute, if_neg same] using nonzero
    | working claim i =>
      simp only [Thread.step, ParallelWork.contribute]
      split_ifs <;> exact nonzero
    | _ => exact nonzero
  | waited batches outCounter =>
    simp only [Thread.step]
    split_ifs <;> exact nonzero
  | _ => exact nonzero

lemma State.Follows.run (follows : s.Follows program) (inv : Inv s) (timely : Timely s (.run t)) :
    (s.moved t ((s.threads t).step program.kind s.shared).1
      ((s.threads t).step program.kind s.shared).2).Follows program := by
  refine follows.moved (Thread.step_batches ..) (fun single loop b => ?_) (fun single nonzero => ?_) ?_
  · rw [single]
    exact (s.threads t).step_ne_ready s.shared loop b
  · exact inv.step_inCounter timely _ (follows.closes single t) nonzero
  · exact fun _ pc called => Thread.step_loop called

variable {s' : State T}

lemma State.Follows.master (follows : s.Follows program) (away : s.threads 0 = .away)
    (stepped : s.master = some s') : s'.Follows program := by
  cases ops : s.ops with
  | nil => simp [State.master, ops] at stepped
  | cons op rest =>
    have suffix := follows.suffix
    have sizes := follows.sizes
    rw [ops] at suffix sizes
    have shorter : rest <:+ program.ops := (suffix_cons op rest).trans suffix
    rw [State.master, ops] at stepped
    have stores (same : (op.exec s.shared).batches = s.shared.batches)
        (sizeless : op.sizes = []) (nonzero : s.shared.inCounter ≠ 0 → (op.exec s.shared).inCounter ≠ 0) :
        State.Follows program ⟨op.exec s.shared, s.threads, rest⟩ := by
      refine ⟨shorter, ?_, follows.closes, fun single filled => ?_, fun pc called => ?_⟩
      · rw [flatMap_cons, sizeless, nil_append] at sizes
        rw [same]
        exact sizes
      · rw [same] at filled
        exact nonzero (follows.closed single filled)
      · rw [same]
        exact follows.complete pc called
    cases op <;> obtain rfl := Option.some_inj.mp stepped
    case call loop =>
      refine ⟨shorter, sizes, fun single u entered b => ?_, follows.closed, fun pc called => ?_⟩
      · by_cases isMaster : u = 0
        · simp [isMaster]
        · simp only [Function.update_of_ne isMaster]
          exact follows.closes single u entered b
      · simp only [Function.update_self] at called
        obtain rfl := (Thread.contributing.inj called).1
        obtain ⟨single, rfl, some⟩ := Program.untilComplete suffix
        exact ⟨single, by simpa [Op.sizes, ← sizes] using some⟩
    case release n =>
      refine ⟨shorter, ?_, follows.closes, fun _ _ => Nat.succ_ne_zero 1, fun pc called => ?_⟩
      · simpa [Op.exec, Op.sizes] using sizes
      · rw [away] at called
        cases called
    case setBlockSize bs =>
      refine stores ?_ rfl fun nonzero => ?_
      · simp only [Op.exec]
        split_ifs <;> rfl
      · simp only [Op.exec]
        split_ifs <;> exact nonzero
    case forceComplete => exact stores rfl rfl fun _ => Nat.one_ne_zero
    all_goals exact stores rfl rfl id

lemma State.Follows.step {act : Act T} (follows : s.Follows program) (inv : Inv s)
    (timely : Timely s act) (stepped : ParallelWork.step program.kind s act = some s') : s'.Follows program := by
  cases act with
  | run t =>
    by_cases away : s.threads t = .away
    · obtain ⟨rfl, stores⟩ := step_away away stepped
      exact follows.master away stores
    · rw [step_inside _ away] at stepped
      cases stepped
      exact follows.run inv timely
  | fail t =>
    simp only [ParallelWork.step] at stepped
    split at stepped
    · rename_i loop b toInitial place
      split_ifs at stepped
      cases stepped
      refine follows.moved rfl (fun _ loop b => ?_) (fun _ => id) fun _ pc called => ?_
      · simp only [ne_eq, Thread.contributing.injEq, acquire_ne_ready, and_false, not_false_eq_true]
      · obtain rfl := (Thread.contributing.inj called).1
        exact ⟨_, place⟩
    · cases stepped
  | call t loop =>
    simp only [ParallelWork.step] at stepped
    split_ifs at stepped with calls
    cases stepped
    refine follows.moved rfl (fun _ loop b => ?_) (fun _ => id) fun isMaster => absurd isMaster calls.1
    simp

lemma Reached.follows (reached : Reached program Timely s) : s.Follows program := by
  induction reached with
  | start => exact .start program
  | step earlier timely stepped hypothesis => exact hypothesis.step earlier.inv timely stepped

end

end HpcToolkit.Util.ParallelWork
