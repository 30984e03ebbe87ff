import HpcToolkit.Util.ParallelWork

/-! # The invariant of a workshare

While the compare-exchanges are timely, an item of the last batch is not handed out, or due in exactly one thread,
or invoked once. `outCounter` lags behind the items that are handed out by what the threads have not yet reported,
and before the master fills in the next batch no thread has items.
-/

open Function

namespace HpcToolkit.Util.ParallelWork

open Lib Shared

/-! ## What the threads hold -/

/-- Whether a call is for one of the claimed items from `i` on. -/
def Claim.covers (claim : Claim) (i : ℕ) (call : Invocation) : ℕ :=
  if call.batch = claim.batch ∧ call.installed = claim.batch ∧ i ≤ call.item ∧ call.item < claim.last then 1 else 0

variable {claim : Claim}

lemma Claim.covers_succ {i : ℕ} (inside : i < claim.last) (call : Invocation) :
    claim.covers i call = claim.covers (i + 1) call + if call = ⟨claim.batch, claim.batch, i⟩ then 1 else 0 := by
  rcases call with ⟨batch, installed, item⟩
  simp only [covers, Invocation.mk.injEq]
  split_ifs <;> omega

lemma Claim.covers_last {i : ℕ} (past : claim.last ≤ i) (call : Invocation) :
    claim.covers i call = 0 := by
  rw [covers, if_neg]
  omega

/-- The calls that a thread is yet to make. -/
def Thread.due (call : Invocation) : Thread → ℕ
  | .contributing _ (.working claim i) => claim.covers i call
  | .contributing _ (.running claim current) => claim.covers (current.item + 1) call
  | _ => 0

/-- The calls of a thread that are yet to return. -/
def Thread.unfinished (call : Invocation) : Thread → ℕ
  | .contributing _ (.working claim i) => claim.covers i call
  | .contributing _ (.running claim current) => claim.covers current.item call
  | _ => 0

/-- The items of a thread that are not counted in `outCounter`. -/
def Thread.debt : Thread → ℕ
  | .contributing _ (.working claim _) => claim.last - claim.first
  | .contributing _ (.running claim _) => claim.last - claim.first
  | _ => 0

/-! ## What the counters say -/

section
variable (g : Shared)

/-- The items of a batch that were handed out. -/
def Shared.handed (b : ℕ) : ℕ :=
  if b + 1 = g.batches.length ∧ 2 ≤ g.inCounter then g.inCounter - 2 else g.size b

/-- The calls that the items handed out so far require. -/
def Shared.owes (call : Invocation) : ℕ :=
  if call.installed = call.batch ∧ call.item < g.handed call.batch then 1 else 0

def Shared.offset : ℕ := if g.batches = [] then 0 else 2

/-- All items of the first batches have returned. -/
def Shared.Finished (batches : ℕ) : Prop := ∀ b < batches, ∀ i < g.size b, ⟨b, b, i⟩ ∈ g.finished

def Claim.Valid (master : Prop) (claim : Claim) : Prop :=
  claim.batch + 1 = g.batches.length ∧ g.installed = claim.batch ∧ claim.first < claim.last ∧
    (master → claim.completed = true → g.inCounter < 2)

def Contribute.Valid (master : Prop) : Contribute → Prop
  | .enter => True
  | .loaded beginCount => 2 ≤ beginCount
  | .sized beginCount _ => 2 ≤ beginCount
  | .bounded b => 2 ≤ b.beginCount
  | .ready b _ => 2 ≤ b.beginCount
  | .working claim i => claim.Valid g master ∧ i ≤ claim.last
  | .running claim call => claim.Valid g master ∧ call = ⟨claim.batch, claim.batch, call.item⟩ ∧ call.item < claim.last
  | .left contributed completed => master → contributed = false ∨ completed = true → g.inCounter < 2

/-- What holds of a thread at its place. The master knows that no work is left when it waits. -/
def Thread.Valid (master : Prop) : Thread → Prop
  | .away => True
  | .contributing loop pc => (master → loop ≠ .contributeWhileAble) ∧ pc.Valid g master
  | .waiting batches => batches ≤ g.batches.length ∧ (master → g.inCounter < 2)
  | .waited batches outCounter =>
    batches ≤ g.batches.length ∧
      (batches < g.batches.length ∨ g.Finished g.batches.length ∨ outCounter ≤ g.outCounter) ∧
      (master → g.inCounter < 2 ∧ outCounter ≤ g.outCounter)

end

section
variable {g g' : Shared}

variable {master : Prop}

lemma acquire_valid : (acquire g.inCounter).Valid g master := by
  rw [acquire, cntInitial, cntCompleted]
  split_ifs with initial completed
  · exact fun _ _ => by omega
  · exact fun _ _ => by omega
  · simp only [Contribute.Valid]
    omega

/-- What the steps of the threads leave as it was. -/
structure Shared.Later (g g' : Shared) : Prop where
  batches : g'.batches = g.batches
  installed : g'.installed = g.installed
  blockSize : g'.blockSize = g.blockSize
  maxCounter : g'.maxCounter = g.maxCounter
  inCounter : g.inCounter < 2 → g'.inCounter = g.inCounter
  outCounter : g.outCounter ≤ g'.outCounter
  finished : ∀ call ∈ g.finished, call ∈ g'.finished

lemma Shared.Later.refl (g : Shared) : g.Later g := ⟨rfl, rfl, rfl, rfl, fun _ => rfl, le_rfl, fun _ => id⟩

lemma Shared.Later.size (later : g.Later g') (b : ℕ) : g'.size b = g.size b := by
  rw [Shared.size, later.batches, Shared.size]

lemma Shared.Later.offset (later : g.Later g') : g'.offset = g.offset := by
  rw [Shared.offset, later.batches, Shared.offset]

lemma Shared.Later.done (later : g.Later g') {batches : ℕ} (done : g.Finished batches) : g'.Finished batches :=
  fun b less i inside => later.finished _ (done b less i (later.size b ▸ inside))

lemma Shared.Later.empty (later : g.Later g') (empty : g.inCounter < 2) : g'.inCounter < 2 := by
  rw [later.inCounter empty]
  exact empty

lemma Claim.Valid.later (valid : claim.Valid g master) (later : g.Later g') :
    claim.Valid g' master := by
  rw [Claim.Valid, later.batches, later.installed]
  exact ⟨valid.1, valid.2.1, valid.2.2.1, fun isMaster completed => later.empty (valid.2.2.2 isMaster completed)⟩

lemma Thread.Valid.later {thread : Thread} (valid : thread.Valid g master) (later : g.Later g') :
    thread.Valid g' master := by
  cases thread with
  | away => trivial
  | contributing loop pc =>
    refine ⟨valid.1, ?_⟩
    replace valid := valid.2
    cases pc with
    | working claim i => exact ⟨valid.1.later later, valid.2⟩
    | running claim call => exact ⟨valid.1.later later, valid.2⟩
    | left contributed completed => exact fun isMaster ended => later.empty (valid isMaster ended)
    | _ => exact valid
  | waiting batches => exact ⟨later.batches ▸ valid.1, fun isMaster => later.empty (valid.2 isMaster)⟩
  | waited batches outCounter =>
    obtain ⟨bound, done, own⟩ := valid
    rw [Thread.Valid, later.batches]
    refine ⟨bound, done.imp id (Or.imp later.done fun lower => lower.trans later.outCounter), fun isMaster => ?_⟩
    exact ⟨later.empty (own isMaster).1, (own isMaster).2.trans later.outCounter⟩

/-- A worker without items stays valid while the master fills in a batch. -/
lemma Thread.Valid.refill {thread : Thread} (valid : thread.Valid g False) (free : thread.debt = 0)
    (grows : g.batches.length ≤ g'.batches.length)
    (done : g.batches.length < g'.batches.length ∨ g'.Finished g'.batches.length) : thread.Valid g' False := by
  cases thread with
  | away => trivial
  | contributing loop pc =>
    refine ⟨fun isMaster => isMaster.elim, ?_⟩
    replace valid := valid.2
    cases pc with
    | working claim i =>
      have items := valid.1.2.2.1
      simp only [Thread.debt] at free
      omega
    | running claim call =>
      have items := valid.1.2.2.1
      simp only [Thread.debt] at free
      omega
    | left contributed completed => exact fun isMaster => isMaster.elim
    | _ => exact valid
  | waiting batches => exact ⟨valid.1.trans grows, fun isMaster => isMaster.elim⟩
  | waited batches outCounter =>
    refine ⟨valid.1.trans grows, ?_, fun isMaster => isMaster.elim⟩
    rcases done with less | done
    · exact .inl (valid.1.trans_lt less)
    · exact .inr (.inl done)

end

/-! ## What the master has established -/

/-- How far the master is from filling in the next batch. -/
inductive Phase where
  | filled
  | emptied
  | installed
  | bounded (n : UInt64)
  | reset (n : UInt64)

/-- The master makes its stores in order, and empties the workshare before `rawFill` and at the end. -/
def Plan : Phase → List Op → Prop
  | .filled, .setCompleted :: rest => Plan .filled rest
  | .filled, .call loop :: rest => loop ≠ .contributeWhileAble ∧ Plan .emptied rest
  | .emptied, [] => True
  | .emptied, .install :: rest => Plan .installed rest
  | .emptied, .forceComplete :: rest => Plan .emptied rest
  | .installed, .setBlockSize _ :: rest => Plan .installed rest
  | .installed, .setMaxCounter n :: rest => Plan (.bounded n) rest
  | .bounded n, .resetOutCounter :: rest => Plan (.reset n) rest
  | .reset n, .release m :: rest => m = n ∧ Plan .filled rest
  | _, _ => False

lemma Program.plan : ∀ program : Program, ∃ p, (p = .filled ∨ p = .emptied) ∧ Plan p program.ops
  | .parallelFor n bs => by
    refine ⟨.emptied, .inr rfl, ?_⟩
    simp [ops, rawFill, Plan]
  | .repeating batches => by
    refine ⟨.filled, .inl rfl, ?_⟩
    simp only [ops]
    induction batches with
    | nil => simp [complete, Plan]
    | cons batch batches hypothesis => simpa [fill, rawFill, Plan] using hypothesis

section
variable {T : ℕ}

/-- The counters match what the threads have claimed. -/
structure State.Bounded (s : State T) : Prop where
  limit : s.shared.maxCounter = s.shared.offset + s.shared.size (s.shared.batches.length - 1)
  small : s.shared.maxCounter < 2 ^ 64
  inside : 2 ≤ s.shared.inCounter → s.shared.inCounter ≤ s.shared.maxCounter ∧
    s.shared.installed + 1 = s.shared.batches.length
  debts : s.shared.outCounter + ∑ t, (s.threads t).debt =
    s.shared.offset + s.shared.handed (s.shared.batches.length - 1)

/-- No work is left, and no thread has any. -/
structure State.Idle (s : State T) : Prop where
  empty : s.shared.inCounter < 2
  free : ∀ t, (s.threads t).debt = 0

/-- The master is in a call that empties the workshare, or back from it. -/
structure State.Emptied (s : State T) : Prop where
  bounded : s.Bounded
  idle : s.threads 0 = .away → s.Idle

/-- The action is installed for the next batch, which is yet to be released. -/
structure State.Filling (s : State T) : Prop where
  idle : s.Idle
  away : s.threads 0 = .away
  installed : s.shared.installed = s.shared.batches.length

def Phase.Holds (s : State T) : Phase → Prop
  | .filled => s.Bounded
  | .emptied => s.Emptied
  | .installed => s.Bounded ∧ s.Filling
  | .bounded n => s.Filling ∧ s.shared.maxCounter = 2 + n.toNat ∧ s.shared.maxCounter < 2 ^ 64
  | .reset n => s.Filling ∧ s.shared.maxCounter = 2 + n.toNat ∧ s.shared.maxCounter < 2 ^ 64 ∧ s.shared.outCounter = 2

/-- Every item that was handed out is due in one thread or was invoked once, and likewise for its return. -/
structure Inv (s : State T) : Prop where
  positive : 0 < s.shared.blockSize
  threads : ∀ t, (s.threads t).Valid s.shared (t = 0)
  invoked : ∀ call, s.shared.invoked.count call + ∑ t, (s.threads t).due call = s.shared.owes call
  finished : ∀ call, s.shared.finished.count call + ∑ t, (s.threads t).unfinished call = s.shared.owes call
  stable : ∀ batches ∈ s.shared.stable, batches ≤ s.shared.batches.length ∧ s.shared.Finished batches
  phase : ∃ p, Plan p s.ops ∧ p.Holds s

lemma Inv.start (program : Program) : Inv (program.start T) where
  positive := Nat.one_pos
  threads _ := trivial
  invoked call := by simp [Program.start, Thread.due, owes, handed, size]
  finished call := by simp [Program.start, Thread.unfinished, owes, handed, size]
  stable batches waited := absurd waited List.not_mem_nil
  phase := by
    have bounded : (program.start T).Bounded := by
      refine ⟨?_, ?_, ?_, ?_⟩ <;> simp [Program.start, offset, size, handed, Thread.debt]
    obtain ⟨p, rfl | rfl, plan⟩ := program.plan
    · exact ⟨.filled, plan, bounded⟩
    · exact ⟨.emptied, plan, bounded, fun _ => ⟨by simp [Program.start], fun _ => rfl⟩⟩

/-! ## Steps of the threads -/

/-- The state after a step of a thread. -/
def State.moved (s : State T) (t : Fin (T + 1)) (g : Shared) (thread : Thread) : State T :=
  { s with shared := g, threads := update s.threads t thread }

variable {s : State T} {t : Fin (T + 1)} {g : Shared} {thread : Thread}

@[simp] lemma State.moved_shared : (s.moved t g thread).shared = g := rfl

@[simp] lemma State.moved_ops : (s.moved t g thread).ops = s.ops := rfl

@[simp] lemma State.moved_self : (s.moved t g thread).threads t = thread := update_self ..

lemma State.moved_of_ne {u : Fin (T + 1)} (other : u ≠ t) : (s.moved t g thread).threads u = s.threads u :=
  update_of_ne other ..

lemma State.sum_moved (s : State T) (t : Fin (T + 1)) (g : Shared) (thread : Thread) (f : Thread → ℕ) :
    ∑ u, f ((s.moved t g thread).threads u) + f (s.threads t) = ∑ u, f (s.threads u) + f thread :=
  sum_update f s.threads t thread

lemma State.moved_away (inside : t = 0 → thread ≠ .away) (away : (s.moved t g thread).threads 0 = .away) :
    s.threads 0 = .away ∧ t ≠ 0 := by
  by_cases isMaster : t = 0
  · subst isMaster
    rw [State.moved_self] at away
    exact absurd away (inside rfl)
  · exact ⟨State.moved_of_ne (Ne.symm isMaster) ▸ away, isMaster⟩

lemma Shared.Later.handed (later : s.shared.Later g) (same : g.inCounter = s.shared.inCounter) (b : ℕ) :
    g.handed b = s.shared.handed b := by
  rw [Shared.handed, later.batches, same, later.size, Shared.handed]

lemma Shared.Later.owes (later : s.shared.Later g) (same : g.inCounter = s.shared.inCounter) (call : Invocation) :
    g.owes call = s.shared.owes call := by
  rw [Shared.owes, later.handed same, Shared.owes]

lemma State.Idle.moved (idle : s.Idle) (later : s.shared.Later g) (debt : thread.debt = (s.threads t).debt) :
    (s.moved t g thread).Idle where
  empty := later.empty idle.empty
  free u := by
    by_cases same : u = t
    · rw [same, State.moved_self, debt, idle.free]
    · rw [State.moved_of_ne same, idle.free]

lemma Shared.offset_le (g : Shared) : g.offset ≤ 2 := by
  rw [offset]
  split_ifs
  · exact Nat.zero_le 2
  · exact le_rfl

lemma State.Bounded.handed_le (bounded : s.Bounded) :
    s.shared.handed (s.shared.batches.length - 1) ≤ s.shared.size (s.shared.batches.length - 1) := by
  have limit := bounded.limit
  have offset := s.shared.offset_le
  rw [handed]
  split_ifs with some
  · have inside := (bounded.inside some.2).1
    omega
  · exact le_rfl

lemma State.Bounded.settled (bounded : s.Bounded) (arrived : s.shared.maxCounter ≤ s.shared.outCounter) :
    (∀ t, (s.threads t).debt = 0) ∧
      s.shared.handed (s.shared.batches.length - 1) = s.shared.size (s.shared.batches.length - 1) := by
  have limit := bounded.limit
  have handed := bounded.handed_le
  have debts := bounded.debts
  have nothing : ∑ t, (s.threads t).debt = 0 := by omega
  exact ⟨fun t => Finset.sum_eq_zero_iff.mp nothing t (Finset.mem_univ t), by omega⟩

lemma State.Bounded.moved (bounded : s.Bounded) (later : s.shared.Later g)
    (inside : 2 ≤ g.inCounter → g.inCounter ≤ s.shared.maxCounter)
    (debts : g.outCounter + thread.debt + s.shared.handed (s.shared.batches.length - 1) =
      s.shared.outCounter + (s.threads t).debt + g.handed (s.shared.batches.length - 1)) :
    (s.moved t g thread).Bounded where
  limit := by
    rw [State.moved_shared, later.maxCounter, later.offset, later.size, later.batches]
    exact bounded.limit
  small := by
    rw [State.moved_shared, later.maxCounter]
    exact bounded.small
  inside some := by
    rw [State.moved_shared] at some ⊢
    rw [later.batches, later.maxCounter, later.installed]
    refine ⟨inside some, (bounded.inside ?_).2⟩
    by_contra empty
    have same := later.inCounter (by omega)
    omega
  debts := by
    have sum := s.sum_moved t g thread Thread.debt
    have total := bounded.debts
    rw [State.moved_shared, later.offset, later.batches]
    omega

variable {p : Phase}

lemma Phase.Holds.quiet (holds : p.Holds s) (later : s.shared.Later g)
    (inCounter : g.inCounter = s.shared.inCounter) (outCounter : g.outCounter = s.shared.outCounter)
    (debt : thread.debt = (s.threads t).debt) (inside : t = 0 → s.threads t ≠ .away ∧ thread ≠ .away) :
    p.Holds (s.moved t g thread) := by
  have bounded (bounded : s.Bounded) : (s.moved t g thread).Bounded := by
    refine bounded.moved later (fun some => ?_) ?_
    · exact inCounter ▸ (bounded.inside (inCounter ▸ some)).1
    · rw [later.handed inCounter, outCounter, debt]
  have filling (filling : s.Filling) : (s.moved t g thread).Filling := by
    have worker : 0 ≠ t := by
      rintro rfl
      exact (inside rfl).1 filling.away
    refine ⟨filling.idle.moved later debt, ?_, ?_⟩
    · rw [State.moved_of_ne worker]
      exact filling.away
    · rw [State.moved_shared, later.installed, later.batches]
      exact filling.installed
  cases p with
  | filled => exact bounded holds
  | emptied =>
    refine ⟨bounded holds.1, fun away => ?_⟩
    have worker := State.moved_away (fun isMaster => (inside isMaster).2) away
    exact (holds.2 worker.1).moved later debt
  | installed => exact ⟨bounded holds.1, filling holds.2⟩
  | bounded n =>
    rw [Phase.Holds, State.moved_shared, later.maxCounter]
    exact ⟨filling holds.1, holds.2⟩
  | reset n =>
    rw [Phase.Holds, State.moved_shared, later.maxCounter, outCounter]
    exact ⟨filling holds.1, holds.2⟩

lemma Phase.Holds.matches (holds : p.Holds s) (busy : ¬ s.Idle) : s.Bounded := by
  cases p with
  | filled => exact holds
  | emptied => exact holds.1
  | installed => exact holds.1
  | bounded n => exact absurd holds.1.idle busy
  | reset n => exact absurd holds.1.idle busy

lemma Phase.Holds.busy (holds : p.Holds s) (busy : ¬ s.Idle) (bounded : (s.moved t g thread).Bounded)
    (inside : t = 0 → thread ≠ .away) : p.Holds (s.moved t g thread) := by
  cases p with
  | filled => exact bounded
  | emptied => exact ⟨bounded, fun away => absurd (holds.2 (State.moved_away inside away).1) busy⟩
  | installed => exact absurd holds.2.idle busy
  | bounded n => exact absurd holds.1.idle busy
  | reset n => exact absurd holds.1.idle busy

lemma Inv.moved (inv : Inv s) (later : s.shared.Later g) (valid : thread.Valid g (t = 0))
    (invoked : ∀ call, g.invoked.count call + thread.due call + s.shared.owes call =
      s.shared.invoked.count call + (s.threads t).due call + g.owes call)
    (finished : ∀ call, g.finished.count call + thread.unfinished call + s.shared.owes call =
      s.shared.finished.count call + (s.threads t).unfinished call + g.owes call)
    (stable : ∀ batches ∈ g.stable, batches ∈ s.shared.stable ∨
      batches ≤ s.shared.batches.length ∧ s.shared.Finished batches)
    (phase : ∃ p, Plan p s.ops ∧ p.Holds (s.moved t g thread)) : Inv (s.moved t g thread) where
  positive := by
    rw [State.moved_shared, later.blockSize]
    exact inv.positive
  threads u := by
    by_cases same : u = t
    · subst same
      rw [State.moved_self]
      exact valid
    · rw [State.moved_of_ne same]
      exact (inv.threads u).later later
  invoked call := by
    have sum := s.sum_moved t g thread (Thread.due call)
    have before := inv.invoked call
    have change := invoked call
    rw [State.moved_shared]
    omega
  finished call := by
    have sum := s.sum_moved t g thread (Thread.unfinished call)
    have before := inv.finished call
    have change := finished call
    rw [State.moved_shared]
    omega
  stable batches waited := by
    have kept := (stable batches waited).elim (inv.stable batches) id
    rw [State.moved_shared, later.batches]
    exact ⟨kept.1, later.done kept.2⟩
  phase := phase

/-- A thread that has no items. -/
structure Thread.Free (thread : Thread) : Prop where
  debt : thread.debt = 0
  due : ∀ call, thread.due call = 0
  unfinished : ∀ call, thread.unfinished call = 0

lemma Thread.free_acquire (loop : Loop) (beginCount : ℕ) :
    (Thread.contributing loop (acquire beginCount)).Free := by
  rw [acquire]
  split_ifs <;> exact ⟨rfl, fun _ => rfl, fun _ => rfl⟩

lemma Thread.free_next (loop : Loop) (contributed completed : Bool) (batches : ℕ) :
    (loop.next contributed completed batches).Free := by
  cases loop <;> cases contributed <;> cases completed <;> exact ⟨rfl, fun _ => rfl, fun _ => rfl⟩

lemma Thread.Valid.free {master : Prop} (valid : thread.Valid g master) (debt : thread.debt = 0) : thread.Free := by
  cases thread with
  | contributing loop pc =>
    cases pc with
    | working claim i =>
      have items := valid.2.1.2.2.1
      simp only [Thread.debt] at debt
      omega
    | running claim call =>
      have items := valid.2.1.2.2.1
      simp only [Thread.debt] at debt
      omega
    | _ => exact ⟨rfl, fun _ => rfl, fun _ => rfl⟩
  | _ => exact ⟨rfl, fun _ => rfl, fun _ => rfl⟩

lemma Inv.light (inv : Inv s) (before : (s.threads t).Free) (after : thread.Free)
    (valid : thread.Valid s.shared (t = 0)) (inside : t = 0 → s.threads t ≠ .away ∧ thread ≠ .away) :
    Inv (s.moved t s.shared thread) := by
  obtain ⟨p, plan, holds⟩ := inv.phase
  refine inv.moved (.refl _) valid (fun call => ?_) (fun call => ?_) (fun _ => .inl) ⟨p, plan, ?_⟩
  · rw [before.due, after.due]
  · rw [before.unfinished, after.unfinished]
  · exact holds.quiet (.refl _) rfl rfl (by rw [before.debt, after.debt]) inside

end

end HpcToolkit.Util.ParallelWork
