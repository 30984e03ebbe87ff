import HpcToolkit.Util.WorkRuns

/-! # Progress of a workshare

Every step of a timely run either spins, which changes none of the counters, or uses up one of the finitely many
steps that the batches require. A thread whose compare-exchange fails has to go round again, but only because
another one has been served.
-/

open Function List

namespace HpcToolkit.Util.ParallelWork

open Lib

/-! ## The steps that are left -/

/-- The value of `inCounter` that a thread relies on. -/
def Thread.begun : Thread → Option ℕ
  | .contributing _ (.loaded beginCount) => some beginCount
  | .contributing _ (.sized beginCount _) => some beginCount
  | .contributing _ (.bounded b) => some b.beginCount
  | .contributing _ (.ready b _) => some b.beginCount
  | _ => none

/-- What a thread has to make up for when `inCounter` has moved on. -/
def stale (inCounter : ℕ) : Option ℕ → ℕ
  | some beginCount => if beginCount = inCounter then 0 else 5
  | none => 0

/-- The steps of a thread until it can only spin, if `inCounter` does not change. -/
def Thread.ahead : Thread → ℕ
  | .contributing _ (.loaded _) => 3
  | .contributing _ (.sized _ _) => 2
  | .contributing _ (.bounded _) => 1
  | .contributing _ (.ready _ _) => 0
  | .contributing _ (.working claim i) => 5 + 2 * (claim.last - i)
  | .contributing _ (.running claim call) => 4 + 2 * (claim.last - call.item)
  | _ => 4

def Thread.cost (inCounter : ℕ) (thread : Thread) : ℕ := thread.ahead + stale inCounter thread.begun

/-- The items that are not handed out, and the end of the batch. -/
def Shared.units (g : Shared) : ℕ := if 2 ≤ g.inCounter then g.maxCounter - g.inCounter + 1 else 0

def Op.units : Op → ℕ
  | .release numItems => numItems.toNat + 1
  | _ => 0

section
variable {T : ℕ}

/-- The steps that are left for all threads, at most. -/
def State.measure (s : State T) : ℕ :=
  (5 * (T + 1) + 8) * (s.shared.units + (s.ops.map Op.units).sum) + ∑ t, (s.threads t).cost s.shared.inCounter +
    s.ops.length

/-- A thread that can only wait for the others. -/
def Thread.Spins (inCounter : ℕ) : Thread → Prop
  | .contributing _ .enter => inCounter < 2
  | .contributing _ (.left _ _) => True
  | .waiting _ => True
  | .waited _ _ => True
  | _ => False

lemma stale_le (inCounter : ℕ) (begun : Option ℕ) : stale inCounter begun ≤ 5 := by
  cases begun with
  | none => exact Nat.zero_le 5
  | some beginCount =>
    rw [stale]
    split_ifs <;> omega

lemma Thread.cost_le (before after : ℕ) (thread : Thread) : thread.cost after ≤ thread.cost before + 5 := by
  have bound := stale_le after thread.begun
  simp only [Thread.cost]
  omega

variable {master : Prop}

lemma Thread.Valid.begun {g : Shared} {thread : Thread} (valid : thread.Valid g master) {b : ℕ}
    (begun : thread.begun = some b) : 2 ≤ b := by
  cases thread with
  | contributing loop pc =>
    cases pc <;> simp only [Thread.begun, Option.some_inj, reduceCtorEq] at begun <;> subst begun <;> exact valid.2
  | _ => cases begun

lemma Thread.Valid.cost_le {g : Shared} {thread : Thread} (valid : thread.Valid g master)
    (empty : g.inCounter < 2) (after : ℕ) : thread.cost after ≤ thread.cost g.inCounter := by
  have bound := stale_le after thread.begun
  simp only [Thread.cost]
  cases begun : thread.begun with
  | none => exact le_rfl
  | some b =>
    have some := valid.begun begun
    rw [begun] at bound
    have moved : stale g.inCounter (.some b) = 5 := if_neg (by omega)
    omega

lemma acquire_cost (loop : Loop) (inCounter : ℕ) :
    (Thread.contributing loop (acquire inCounter)).cost inCounter = if inCounter < 2 then 4 else 3 := by
  rw [acquire, cntInitial, cntCompleted]
  split_ifs with initial completed more less
  · rfl
  · omega
  · rfl
  · omega
  · omega
  · simp [Thread.cost, Thread.ahead, Thread.begun, stale]

lemma Loop.next_cost (loop : Loop) (contributed completed : Bool) (batches inCounter : ℕ) :
    (loop.next contributed completed batches).cost inCounter = 4 := by
  cases loop <;> cases contributed <;> cases completed <;> rfl

/-! ## Steps of the threads -/

variable {s : State T} {t : Fin (T + 1)} {g : Shared} {thread : Thread}

lemma State.measure_moved (t : Fin (T + 1)) (thread : Thread) (inCounter : g.inCounter = s.shared.inCounter)
    (maxCounter : g.maxCounter = s.shared.maxCounter) :
    (s.moved t g thread).measure + (s.threads t).cost s.shared.inCounter =
      s.measure + thread.cost s.shared.inCounter := by
  have sum := s.sum_moved t g thread (Thread.cost s.shared.inCounter)
  simp only [State.measure, State.moved_shared, State.moved_ops, Shared.units, inCounter, maxCounter]
  omega

variable {b : Bounds}

lemma State.Exchange.units (exchange : s.Exchange b) (toInitial : Bool) :
    ({ s.shared with inCounter := b.nextCounter toInitial } : Shared).units + max 1 (b.endCount - b.beginCount) ≤
      s.shared.units := by
  have ends := exchange.endCount
  have some := exchange.some
  rw [Shared.units, Shared.units, exchange.same, if_pos some]
  rcases exchange.nextCounter toInitial with ⟨less, next⟩ | ⟨equal, closed⟩
  · dsimp only
    rw [next, if_pos (by omega)]
    omega
  · rw [if_neg (not_le.mpr closed)]
    omega

lemma Claim.start_cost (claim : Claim) (loop : Loop) (inCounter : ℕ) :
    (Thread.contributing loop claim.start).cost inCounter ≤ 5 + 2 * (claim.last - claim.first) := by
  rw [Claim.start]
  split_ifs
  · exact le_rfl
  · exact (show 4 ≤ 5 by decide).trans (Nat.le_add_right ..)

lemma State.sum_cost_le (s : State T) (before after : ℕ) :
    ∑ u, (s.threads u).cost after ≤ ∑ u, (s.threads u).cost before + 5 * (T + 1) := by
  have each := Finset.sum_le_sum fun u (_ : u ∈ Finset.univ) => (s.threads u).cost_le before after
  rw [Finset.sum_add_distrib, Finset.sum_const, Finset.card_univ, Fintype.card_fin, Nat.nsmul_eq_mul] at each
  omega

lemma State.Exchange.measure_lt (exchange : s.Exchange b) (t : Fin (T + 1)) (loop : Loop)
    (toInitial : Bool) :
    (s.moved t { s.shared with inCounter := b.nextCounter toInitial }
      (.contributing loop (b.claim toInitial (s.shared.batches.length - 1)).start)).measure < s.measure := by
  have units := exchange.units toInitial
  have some := exchange.some
  have last := exchange.last toInitial
  have first : (b.claim toInitial (s.shared.batches.length - 1)).first = b.beginCount - 2 := rfl
  generalize b.claim toInitial (s.shared.batches.length - 1) = claim at last first ⊢
  have sum := s.sum_moved t { s.shared with inCounter := b.nextCounter toInitial } (.contributing loop claim.start)
    (Thread.cost (b.nextCounter toInitial))
  have own := claim.start_cost loop (b.nextCounter toInitial)
  have others := s.sum_cost_le s.shared.inCounter (b.nextCounter toInitial)
  have paid : 5 * (T + 1) + 8 * max 1 (b.endCount - b.beginCount) ≤
      (5 * (T + 1) + 8) * max 1 (b.endCount - b.beginCount) := by
    rw [Nat.add_mul]
    exact Nat.add_le_add_right (Nat.le_mul_of_pos_right _ (by omega)) _
  have spent := Nat.mul_le_mul_left (5 * (T + 1) + 8) (Nat.add_le_add_right units (s.ops.map Op.units).sum)
  rw [Nat.add_right_comm, Nat.mul_add] at spent
  simp only [State.measure, State.moved_shared, State.moved_ops]
  dsimp only at spent sum ⊢
  omega

lemma Inv.measure_contribute {loop : Loop} {pc : Contribute} (kind : Kind) (inv : Inv s)
    (place : s.threads t = .contributing loop pc) (timely : Timely s (.run t))
    (works : ¬ (Thread.contributing loop pc).Spins s.shared.inCounter) :
    (s.moved t ((Thread.contributing loop pc).step kind s.shared).1
      ((Thread.contributing loop pc).step kind s.shared).2).measure < s.measure := by
  have drops : ∀ {g : Shared} {next : Thread}, g.inCounter = s.shared.inCounter →
      g.maxCounter = s.shared.maxCounter →
      next.cost s.shared.inCounter < (Thread.contributing loop pc).cost s.shared.inCounter →
      (s.moved t g next).measure < s.measure := fun {_ next} inCounter maxCounter less => by
    have moved := State.measure_moved t next inCounter maxCounter
    rw [place] at moved
    omega
  cases pc with
  | enter =>
    refine drops rfl rfl ?_
    have cost := (acquire_cost loop s.shared.inCounter).trans (if_neg works)
    exact cost.trans_lt (Nat.lt_succ_self 3)
  | loaded beginCount => exact drops rfl rfl (Nat.add_lt_add_right (Nat.lt_succ_self 2) _)
  | sized beginCount blockSize => exact drops rfl rfl (Nat.add_lt_add_right (Nat.lt_succ_self 1) _)
  | bounded b => exact drops rfl rfl (Nat.add_lt_add_right (Nat.lt_succ_self 0) _)
  | ready b toInitial =>
    by_cases same : s.shared.inCounter = b.beginCount
    · have exchanged := (inv.ready place timely same).measure_lt t loop toInitial
      simpa only [Thread.step, ParallelWork.contribute, if_pos same] using exchanged
    · simp only [Thread.step, ParallelWork.contribute, if_neg same]
      refine drops rfl rfl ?_
      have moved : (Thread.contributing loop (.ready b toInitial)).cost s.shared.inCounter = 5 := by
        simp only [Thread.cost, Thread.ahead, Thread.begun, stale, if_neg (Ne.symm same)]
      rw [acquire_cost, moved]
      split_ifs <;> decide
  | working claim i =>
    simp only [Thread.step, ParallelWork.contribute]
    split_ifs with some
    · refine drops rfl rfl ?_
      simp only [Thread.cost, Thread.ahead, Thread.begun, stale]
      omega
    · refine drops rfl rfl ?_
      simp only [Thread.cost, Thread.ahead, Thread.begun, stale]
      omega
  | running claim call =>
    have valid := inv.threads t
    rw [place] at valid
    have inside := valid.2.2.2
    refine drops rfl rfl ?_
    simp only [Thread.step, ParallelWork.contribute, Thread.cost, Thread.ahead, Thread.begun, stale]
    omega
  | left contributed completed => exact absurd trivial works

lemma Inv.measure_run (kind : Kind) (inv : Inv s) (timely : Timely s (.run t)) (inside : s.threads t ≠ .away)
    (works : ¬ (s.threads t).Spins s.shared.inCounter) :
    (s.moved t ((s.threads t).step kind s.shared).1 ((s.threads t).step kind s.shared).2).measure < s.measure := by
  cases place : s.threads t with
  | away => exact absurd place inside
  | contributing loop pc => exact inv.measure_contribute kind place timely (place ▸ works)
  | _ =>
    rw [place] at works
    exact absurd trivial works

/-- A thread that spins leaves the counters and what is left to do as they are. -/
structure State.Spun (s s' : State T) : Prop where
  measure : s'.measure = s.measure
  inCounter : s'.shared.inCounter = s.shared.inCounter
  outCounter : s'.shared.outCounter = s.shared.outCounter
  maxCounter : s'.shared.maxCounter = s.shared.maxCounter
  ops : s'.ops = s.ops

lemma State.spun_moved (before : (s.threads t).cost s.shared.inCounter = 4)
    (after : thread.cost s.shared.inCounter = 4) (inCounter : g.inCounter = s.shared.inCounter)
    (outCounter : g.outCounter = s.shared.outCounter) (maxCounter : g.maxCounter = s.shared.maxCounter) :
    s.Spun (s.moved t g thread) := by
  refine ⟨?_, inCounter, outCounter, maxCounter, rfl⟩
  have moved := State.measure_moved t thread inCounter maxCounter
  omega

lemma State.spun_run (kind : Kind) (spins : (s.threads t).Spins s.shared.inCounter) :
    s.Spun (s.moved t ((s.threads t).step kind s.shared).1 ((s.threads t).step kind s.shared).2) := by
  cases place : s.threads t with
  | away =>
    rw [place] at spins
    exact spins.elim
  | contributing loop pc =>
    rw [place] at spins
    cases pc with
    | enter =>
      refine State.spun_moved (by rw [place]; rfl) ?_ rfl rfl rfl
      exact (acquire_cost loop _).trans (if_pos spins)
    | left contributed completed =>
      exact State.spun_moved (by rw [place]; rfl) (loop.next_cost ..) rfl rfl rfl
    | _ => exact spins.elim
  | waiting batches => exact State.spun_moved (by rw [place]; rfl) rfl rfl rfl rfl
  | waited batches outCounter =>
    simp only [Thread.step]
    split_ifs
    · exact State.spun_moved (by rw [place]; rfl) rfl rfl rfl rfl
    · exact State.spun_moved (by rw [place]; rfl) rfl rfl rfl rfl

/-! ## Steps of the master -/

lemma State.measure_store {op : Op} {rest : List Op} (ops : s.ops = op :: rest)
    (units : (op.exec s.shared).units ≤ s.shared.units + op.units)
    (cost : ∀ t, (s.threads t).cost (op.exec s.shared).inCounter ≤ (s.threads t).cost s.shared.inCounter) :
    State.measure ⟨op.exec s.shared, s.threads, rest⟩ < s.measure := by
  have threads := Finset.sum_le_sum fun t (_ : t ∈ Finset.univ) => cost t
  have total : (op.exec s.shared).units + (rest.map Op.units).sum ≤ s.shared.units + (s.ops.map Op.units).sum := by
    rw [ops, map_cons, sum_cons]
    omega
  have spent := Nat.mul_le_mul_left (5 * (T + 1) + 8) total
  have shorter : s.ops.length = rest.length + 1 := by rw [ops, length_cons]
  simp only [State.measure]
  omega

lemma Shared.units_empty (empty : g.inCounter < 2) : g.units = 0 := if_neg (not_le.mpr empty)

lemma Op.exec_units {op : Op} (units : op.units = 0)
    (inCounter : (op.exec g).inCounter = g.inCounter) (maxCounter : (op.exec g).maxCounter = g.maxCounter) :
    (op.exec g).units ≤ g.units + op.units := by
  rw [Shared.units, inCounter, maxCounter, Shared.units, units]
  exact le_rfl

lemma Inv.measure_master {s' : State T} (inv : Inv s) (away : s.threads 0 = .away)
    (stepped : s.master = some s') : s'.measure < s.measure := by
  obtain ⟨p, plan, holds⟩ := inv.phase
  cases ops : s.ops with
  | nil => simp [State.master, ops] at stepped
  | cons op rest =>
    rw [State.master, ops] at stepped
    rw [ops] at plan
    have empties (idle : s.Idle) (after : ℕ) (t : Fin (T + 1)) :
        (s.threads t).cost after ≤ (s.threads t).cost s.shared.inCounter := (inv.threads t).cost_le idle.empty after
    cases op <;> cases p <;> first | exact plan.elim | obtain rfl := Option.some_inj.mp stepped
    case call.filled loop =>
      have moved := State.measure_moved (s := s) (g := s.shared) 0 (.contributing loop .enter) rfl rfl
      have before : (s.threads 0).cost s.shared.inCounter = 4 := by rw [away]; rfl
      have after : (Thread.contributing loop .enter).cost s.shared.inCounter = 4 := rfl
      simp only [State.measure, State.moved, ops, map_cons, sum_cons, length_cons, Op.units,
        Nat.zero_add] at moved ⊢
      omega
    case install.emptied => exact State.measure_store ops (Op.exec_units rfl rfl rfl) fun t => le_rfl
    case setBlockSize.installed bs =>
      refine State.measure_store ops (Op.exec_units rfl ?_ ?_) fun t => ?_ <;>
      · simp only [Op.exec]
        split_ifs <;> rfl
    case setMaxCounter.installed n =>
      have nothing : ((Op.setMaxCounter n).exec s.shared).units = 0 := Shared.units_empty holds.2.idle.empty
      exact State.measure_store ops (nothing.trans_le (Nat.zero_le _)) fun t => le_rfl
    case resetOutCounter.bounded n => exact State.measure_store ops (Op.exec_units rfl rfl rfl) fun t => le_rfl
    case release.reset n m =>
      refine State.measure_store ops ?_ (empties holds.1.idle _)
      have limit : s.shared.maxCounter = 2 + n.toNat := plan.1 ▸ holds.2.1
      have all : ((Op.release n).exec s.shared).units = s.shared.maxCounter - 2 + 1 := if_pos le_rfl
      rw [all, Op.units]
      omega
    case setCompleted.filled => exact State.measure_store ops (Op.exec_units rfl rfl rfl) fun t => le_rfl
    case forceComplete.emptied =>
      have nothing : (Op.forceComplete.exec s.shared).units = 0 := Shared.units_empty Nat.one_lt_two
      exact State.measure_store ops (nothing.trans_le (Nat.zero_le _)) (empties (holds.2 away) _)

/-! ## Steps of the whole system -/

section
variable {kind : Kind} {s' : State T}

lemma Inv.works (inv : Inv s) (timely : Timely s (.run t)) (stepped : ParallelWork.step kind s (.run t) = some s')
    (works : ¬ (s.threads t).Spins s.shared.inCounter) : s'.measure < s.measure := by
  by_cases away : s.threads t = .away
  · obtain ⟨rfl, stores⟩ := step_away away stepped
    exact inv.measure_master away stores
  · rw [step_inside kind away] at stepped
    cases stepped
    exact inv.measure_run kind timely away works

variable {act : Act T}

lemma Inv.progress (inv : Inv s) (timely : Timely s act)
    (stepped : ParallelWork.step kind s act = some s') (real : ∀ t, act ≠ .fail t) : s'.measure < s.measure ∨ s.Spun s' := by
  cases act with
  | run t =>
    by_cases spins : (s.threads t).Spins s.shared.inCounter
    · have inside : s.threads t ≠ .away := fun away => by
        rw [away] at spins
        exact spins
      rw [step_inside kind inside] at stepped
      cases stepped
      exact .inr (State.spun_run kind spins)
    · exact .inl (inv.works timely stepped spins)
  | fail t => exact absurd rfl (real t)
  | call t loop =>
    simp only [ParallelWork.step] at stepped
    split_ifs at stepped with calls
    cases stepped
    exact .inr (State.spun_moved (by rw [calls.2.1]; rfl) rfl rfl rfl rfl)

lemma step_frame (stepped : step kind s act = some s') (other : act ≠ .run t) (real : act ≠ .fail t)
    (active : ¬ s.Resting t) : s'.threads t = s.threads t ∧ (t = 0 → s'.ops = s.ops) := by
  cases act with
  | run u =>
    have different : t ≠ u := fun same => other (same ▸ rfl)
    by_cases away : s.threads u = .away
    · obtain ⟨rfl, stores⟩ := step_away away stepped
      refine ⟨?_, fun isMaster => absurd isMaster different⟩
      rw [State.master] at stores
      split at stores
      · cases stores
      · cases stores
        exact update_of_ne different ..
      · cases stores
        rfl
    · rw [step_inside kind away] at stepped
      cases stepped
      exact ⟨State.moved_of_ne different, fun _ => rfl⟩
  | fail u =>
    have different : t ≠ u := fun same => real (same ▸ rfl)
    simp only [step] at stepped
    split at stepped
    · split_ifs at stepped
      cases stepped
      exact ⟨update_of_ne different .., fun _ => rfl⟩
    · cases stepped
  | call u loop =>
    simp only [step] at stepped
    split_ifs at stepped with calls
    cases stepped
    have different : t ≠ u := by
      rintro rfl
      exact active ⟨calls.2.1, fun isMaster => absurd isMaster calls.1⟩
    exact ⟨update_of_ne different .., fun _ => rfl⟩

end

end

end HpcToolkit.Util.ParallelWork
