import HpcToolkit.Util.WorkSteps

/-! # Runs of a workshare

The master stores to the workshare while it is idle, so its steps keep the invariant too, and the invariant holds
in every state of a run whose steps are timely.
-/

open List

namespace HpcToolkit.Util.ParallelWork

open Shared

section
variable {T : ℕ} {s : State T} {t : Fin (T + 1)} {g : Shared} {thread : Thread}

/-! ## Steps of the master -/

variable {p : Phase}

lemma Phase.Holds.replan (holds : p.Holds s) (ops : List Op) : p.Holds { s with ops := ops } := by
  have bounded (bounded : s.Bounded) : State.Bounded { s with ops := ops } :=
    ⟨bounded.limit, bounded.small, bounded.inside, bounded.debts⟩
  have filling (filling : s.Filling) : State.Filling { s with ops := ops } :=
    ⟨⟨filling.idle.empty, filling.idle.free⟩, filling.away, filling.installed⟩
  cases p with
  | filled => exact bounded holds
  | emptied => exact ⟨bounded holds.1, fun away => ⟨(holds.2 away).empty, (holds.2 away).free⟩⟩
  | installed => exact ⟨bounded holds.1, filling holds.2⟩
  | bounded n => exact ⟨filling holds.1, holds.2⟩
  | reset n => exact ⟨filling holds.1, holds.2⟩

variable {ops : List Op}

lemma Inv.replan (inv : Inv s) (plan : Plan p ops) (holds : p.Holds s) :
    Inv { s with ops := ops } :=
  ⟨inv.positive, inv.threads, inv.invoked, inv.finished, inv.stable, p, plan, holds.replan ops⟩

/-- The master stores to an idle workshare. Nothing more is handed out, and the batches so far stay. -/
structure Shared.Stores (g g' : Shared) : Prop where
  positive : 0 < g'.blockSize
  batches : g'.batches = g.batches ∨ ∃ n, g'.batches = g.batches ++ [n]
  handed : ∀ b, g'.handed b = g.handed b
  invoked : g'.invoked = g.invoked
  finished : g'.finished = g.finished
  stable : g'.stable = g.stable

variable {g' : Shared}

lemma Shared.Stores.size (stores : g.Stores g') {b : ℕ} (old : b < g.batches.length) :
    g'.size b = g.size b := by
  rcases stores.batches with same | ⟨n, longer⟩
  · rw [Shared.size, same, Shared.size]
  · rw [Shared.size, longer, getElem?_append_left old, Shared.size]

lemma Shared.Stores.length (stores : g.Stores g') :
    g'.batches.length = g.batches.length ∨ g'.batches.length = g.batches.length + 1 := by
  rcases stores.batches with same | ⟨n, longer⟩
  · exact .inl (by rw [same])
  · exact .inr (by rw [longer, length_append, length_singleton])

lemma Shared.Stores.done (stores : g.Stores g') {batches : ℕ} (old : batches ≤ g.batches.length)
    (done : g.Finished batches) : g'.Finished batches := by
  intro b less i inside
  rw [stores.size (by omega)] at inside
  rw [stores.finished]
  exact done b less i inside

lemma Inv.store (inv : Inv s) (away : s.threads 0 = .away) (idle : s.Idle) (stores : s.shared.Stores g)
    (plan : Plan p ops) (holds : p.Holds ⟨g, s.threads, ops⟩) :
    Inv ⟨g, s.threads, ops⟩ where
  positive := stores.positive
  threads t := by
    by_cases isMaster : t = 0
    · rw [isMaster, away]
      trivial
    · have valid := inv.threads t
      rw [eq_false isMaster] at valid ⊢
      have length := stores.length
      refine valid.refill (idle.free t) (by dsimp only; omega) ?_
      rcases length with same | longer
      · exact .inr (same ▸ stores.done le_rfl (inv.finished_idle idle))
      · exact .inl (longer ▸ Nat.lt_succ_self _)
  invoked call := by
    have before := inv.invoked call
    rw [owes] at before ⊢
    rw [stores.invoked, stores.handed]
    exact before
  finished call := by
    have before := inv.finished call
    rw [owes] at before ⊢
    rw [stores.finished, stores.handed]
    exact before
  stable batches waited := by
    rw [stores.stable] at waited
    have before := inv.stable batches waited
    have length := stores.length
    exact ⟨by dsimp only; omega, stores.done before.1 before.2⟩
  phase := ⟨p, plan, holds⟩

lemma State.Idle.stores (idle : s.Idle) (positive : 0 < g.blockSize) (batches : g.batches = s.shared.batches)
    (empty : g.inCounter < 2) (invoked : g.invoked = s.shared.invoked) (finished : g.finished = s.shared.finished)
    (stable : g.stable = s.shared.stable) : s.shared.Stores g where
  positive := positive
  batches := .inl batches
  handed b := by
    rw [idle.handed, Shared.handed, if_neg (by omega), Shared.size, batches, Shared.size]
  invoked := invoked
  finished := finished
  stable := stable

lemma State.Idle.releases (idle : s.Idle) (positive : 0 < s.shared.blockSize) (n : ℕ) :
    s.shared.Stores { s.shared with inCounter := 2, batches := s.shared.batches ++ [n] } where
  positive := positive
  batches := .inr ⟨n, rfl⟩
  handed b := by
    rw [idle.handed, Shared.handed, length_append, length_singleton]
    split_ifs with last
    · rw [size, getElem?_eq_none (by omega)]
      rfl
    · rcases Nat.lt_or_ge b s.shared.batches.length with old | new
      · rw [size, getElem?_append_left old, size]
      · rw [size, getElem?_eq_none, size, getElem?_eq_none new]
        dsimp only at last
        simp only [length_append, length_singleton]
        omega
  invoked := rfl
  finished := rfl
  stable := rfl

variable {n : UInt64}

lemma State.Filling.released (filling : s.Filling)
    (limit : s.shared.maxCounter = 2 + n.toNat) (small : s.shared.maxCounter < 2 ^ 64)
    (reset : s.shared.outCounter = 2) :
    State.Bounded ⟨{ s.shared with inCounter := 2, batches := s.shared.batches ++ [n.toNat] }, s.threads, ops⟩ := by
  have nothing : ∑ t, (s.threads t).debt = 0 := Finset.sum_eq_zero fun t _ => filling.idle.free t
  refine ⟨?_, small, fun _ => ⟨?_, ?_⟩, ?_⟩
  · simp [offset, size, limit]
  · dsimp only
    omega
  · simp [filling.installed]
  · simp [nothing, reset, offset, handed]

lemma State.Idle.bounded (idle : s.Idle) (bounded : s.Bounded)
    (batches : g.batches = s.shared.batches) (empty : g.inCounter < 2)
    (outCounter : g.outCounter = s.shared.outCounter) (maxCounter : g.maxCounter = s.shared.maxCounter) :
    State.Bounded ⟨g, s.threads, ops⟩ where
  limit := by
    simp only [size, offset, batches, maxCounter]
    exact bounded.limit
  small := maxCounter ▸ bounded.small
  inside some := absurd some (not_le.mpr empty)
  debts := by
    have debts := bounded.debts
    rw [idle.handed] at debts
    simp only [Shared.handed, not_le.mpr empty, and_false, if_false]
    simpa only [Shared.size, Shared.offset, batches, outCounter] using debts

section
variable {rest : List Op} (inv : Inv s) (away : s.threads 0 = .away)
include inv away

lemma Inv.call {loop : Loop} (calls : loop ≠ .contributeWhileAble) (plan : Plan .emptied rest)
    (ops : s.ops = .call loop :: rest) (bounded : s.Bounded) :
    Inv { s with threads := Function.update s.threads 0 (.contributing loop .enter), ops := rest } := by
  have entered : (Thread.contributing loop .enter).Free := ⟨rfl, fun _ => rfl, fun _ => rfl⟩
  have free : (s.threads 0).Free := by
    rw [away]
    exact ⟨rfl, fun _ => rfl, fun _ => rfl⟩
  have counters : (s.moved 0 s.shared (.contributing loop .enter)).Bounded := by
    refine bounded.moved (.refl _) (fun some => (bounded.inside some).1) ?_
    rw [entered.debt, free.debt]
  have moved : Inv (s.moved 0 s.shared (.contributing loop .enter)) := by
    refine inv.moved (.refl _) ⟨fun _ => calls, trivial⟩ (fun call => ?_) (fun call => ?_) (fun _ => .inl)
      ⟨.filled, ops ▸ ⟨calls, plan⟩, counters⟩
    · rw [entered.due, free.due]
    · rw [entered.unfinished, free.unfinished]
  refine moved.replan plan ⟨counters, fun away => ?_⟩
  rw [State.moved_self] at away
  cases away

lemma Inv.install (plan : Plan .installed rest) (idle : s.Idle) (bounded : s.Bounded) :
    Inv ⟨Op.install.exec s.shared, s.threads, rest⟩ := by
  have stores : s.shared.Stores (Op.install.exec s.shared) := idle.stores inv.positive rfl idle.empty rfl rfl rfl
  exact inv.store away idle stores plan
    ⟨idle.bounded bounded rfl idle.empty rfl rfl, ⟨idle.empty, idle.free⟩, away, rfl⟩

lemma Inv.setBlockSize (bs : UInt64) (plan : Plan .installed rest) (filling : s.Filling) (bounded : s.Bounded) :
    Inv ⟨(Op.setBlockSize bs).exec s.shared, s.threads, rest⟩ := by
  obtain ⟨idle, -, installed⟩ := filling
  rw [Op.exec]
  split_ifs with given
  · have stores : s.shared.Stores { s.shared with blockSize := bs.toNat } :=
      idle.stores given rfl idle.empty rfl rfl rfl
    exact inv.store away idle stores plan
      ⟨idle.bounded bounded rfl idle.empty rfl rfl, ⟨idle.empty, idle.free⟩, away, installed⟩
  · exact inv.replan plan ⟨bounded, idle, away, installed⟩

lemma Inv.setMaxCounter (whole : 2 + n.toNat < 2 ^ 64) (plan : Plan (.bounded n) rest)
    (filling : s.Filling) : Inv ⟨(Op.setMaxCounter n).exec s.shared, s.threads, rest⟩ := by
  obtain ⟨idle, -, installed⟩ := filling
  have limit : wrap (2 + n.toNat) = 2 + n.toNat := Nat.mod_eq_of_lt whole
  have stores : s.shared.Stores ((Op.setMaxCounter n).exec s.shared) :=
    idle.stores inv.positive rfl idle.empty rfl rfl rfl
  exact inv.store away idle stores plan
    ⟨⟨⟨idle.empty, idle.free⟩, away, installed⟩, limit, limit.trans_lt whole⟩

lemma Inv.resetOutCounter (plan : Plan (.reset n) rest) (holds : (Phase.bounded n).Holds s) :
    Inv ⟨Op.resetOutCounter.exec s.shared, s.threads, rest⟩ := by
  obtain ⟨⟨idle, -, installed⟩, limit, small⟩ := holds
  have stores : s.shared.Stores (Op.resetOutCounter.exec s.shared) :=
    idle.stores inv.positive rfl idle.empty rfl rfl rfl
  exact inv.store away idle stores plan ⟨⟨⟨idle.empty, idle.free⟩, away, installed⟩, limit, small, rfl⟩

lemma Inv.release (plan : Plan .filled rest) (holds : (Phase.reset n).Holds s) :
    Inv ⟨(Op.release n).exec s.shared, s.threads, rest⟩ := by
  obtain ⟨filling, limit, small, reset⟩ := holds
  exact inv.store away filling.idle (filling.idle.releases inv.positive _) plan (filling.released limit small reset)

lemma Inv.forceComplete (plan : Plan .emptied rest) (idle : s.Idle) (bounded : s.Bounded) :
    Inv ⟨Op.forceComplete.exec s.shared, s.threads, rest⟩ := by
  have stores : s.shared.Stores (Op.forceComplete.exec s.shared) :=
    idle.stores inv.positive rfl Nat.one_lt_two rfl rfl rfl
  exact inv.store away idle stores plan
    ⟨idle.bounded bounded rfl Nat.one_lt_two rfl rfl, fun _ => ⟨Nat.one_lt_two, idle.free⟩⟩

end

lemma Inv.setCompleted {rest : List Op} (inv : Inv s) (plan : Plan .filled rest) (bounded : s.Bounded) :
    Inv ⟨Op.setCompleted.exec s.shared, s.threads, rest⟩ := by
  have later : s.shared.Later (Op.setCompleted.exec s.shared) :=
    ⟨rfl, rfl, rfl, rfl, fun _ => rfl, le_rfl, fun _ => id⟩
  exact ⟨inv.positive, fun t => (inv.threads t).later later, inv.invoked, inv.finished, inv.stable, .filled, plan,
    bounded.limit, bounded.small, bounded.inside, bounded.debts⟩

variable {s' : State T}

lemma Inv.master (inv : Inv s) (timely : Timely s (.run 0)) (away : s.threads 0 = .away)
    (stepped : s.master = some s') : Inv s' := by
  obtain ⟨p, plan, holds⟩ := inv.phase
  cases ops : s.ops with
  | nil => simp [State.master, ops] at stepped
  | cons op rest =>
    simp only [Timely, away, ops] at timely
    rw [State.master, ops] at stepped
    rw [ops] at plan
    cases op <;> cases p <;> first | exact plan.elim | obtain rfl := Option.some_inj.mp stepped
    case call.filled loop => exact inv.call away plan.1 plan.2 ops holds
    case install.emptied => exact inv.install away plan (holds.2 away) holds.1
    case setBlockSize.installed bs => exact inv.setBlockSize away bs plan holds.2 holds.1
    case setMaxCounter.installed n => exact inv.setMaxCounter away (timely trivial) plan holds.2
    case resetOutCounter.bounded n => exact inv.resetOutCounter away plan holds
    case release.reset n m => exact inv.release away plan.2 (plan.1 ▸ holds)
    case setCompleted.filled => exact inv.setCompleted plan holds
    case forceComplete.emptied => exact inv.forceComplete away plan (holds.2 away) holds.1

/-! ## Runs -/

lemma step_inside (kind : Kind) (inside : s.threads t ≠ .away) : step kind s (.run t) =
    some (s.moved t ((s.threads t).step kind s.shared).1 ((s.threads t).step kind s.shared).2) := by
  rw [step]
  split
  · contradiction
  · rfl

variable {kind : Kind}

lemma step_away (away : s.threads t = .away) (stepped : step kind s (.run t) = some s') :
    t = 0 ∧ s.master = some s' := by
  simp only [step, away] at stepped
  split_ifs at stepped with isMaster
  exact ⟨isMaster, stepped⟩

lemma Inv.step {act : Act T} (inv : Inv s) (timely : Timely s act)
    (stepped : step kind s act = some s') : Inv s' := by
  cases act with
  | run t =>
    by_cases away : s.threads t = .away
    · obtain ⟨rfl, stores⟩ := step_away away stepped
      exact inv.master timely away stores
    · rw [step_inside kind away] at stepped
      cases stepped
      exact inv.run kind timely away
  | fail t =>
    simp only [ParallelWork.step] at stepped
    split at stepped
    · rename_i loop b toInitial place
      split_ifs at stepped
      cases stepped
      have valid := inv.threads t
      rw [place] at valid
      exact inv.go place (valid.free rfl) (Thread.free_acquire ..) acquire_valid
    · cases stepped
  | call t loop =>
    simp only [ParallelWork.step] at stepped
    split_ifs at stepped with calls
    cases stepped
    have free : (s.threads t).Free := by
      rw [calls.2.1]
      exact ⟨rfl, fun _ => rfl, fun _ => rfl⟩
    exact inv.light free ⟨rfl, fun _ => rfl, fun _ => rfl⟩ ⟨fun isMaster => absurd isMaster calls.1, trivial⟩
      fun isMaster => absurd isMaster calls.1

lemma Reached.inv {program : Program} (reached : Reached program Timely s) : Inv s := by
  induction reached with
  | start => exact .start program
  | step earlier timely stepped hypothesis => exact hypothesis.step timely stepped

end

end HpcToolkit.Util.ParallelWork
