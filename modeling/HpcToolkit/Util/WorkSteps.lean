import HpcToolkit.Util.WorkInvariant

/-! # Steps of the threads of a workshare

Each step of a thread inside a call keeps the invariant: a timely compare-exchange hands out the items that the
thread claims, `doWorkItem` uses them up one by one, `outCounter` takes over what the thread owes, and a wait ends
when nothing is owed.
-/

open List

namespace HpcToolkit.Util.ParallelWork

section
variable {T : ℕ} {s : State T} {t : Fin (T + 1)} {g : Shared} {thread : Thread}

/-! ## The compare-exchange -/

/-- A compare-exchange that succeeds, with the bounds of the batch as it is. -/
structure State.Exchange (s : State T) (b : Bounds) : Prop where
  bounded : s.Bounded
  positive : 0 < s.shared.blockSize
  some : 2 ≤ b.beginCount
  same : s.shared.inCounter = b.beginCount
  size : b.blockSize = s.shared.blockSize
  limit : b.maxCounter = s.shared.maxCounter
  small : b.beginCount + b.blockSize < 2 ^ 64

namespace State.Exchange
variable {b : Bounds} (exchange : s.Exchange b) (toInitial : Bool)
include exchange

lemma inside : s.shared.inCounter ≤ s.shared.maxCounter ∧ s.shared.installed + 1 = s.shared.batches.length :=
  exchange.bounded.inside (exchange.same ▸ exchange.some)

lemma length : s.shared.batches.length - 1 + 1 = s.shared.batches.length := by
  have inside := exchange.inside
  omega

lemma maxCounter : s.shared.maxCounter = 2 + s.shared.size (s.shared.batches.length - 1) := by
  have filled : s.shared.batches ≠ [] := fun none => by
    have inside := exchange.inside
    simp [none] at inside
  rw [exchange.bounded.limit, Shared.offset, if_neg filled]

lemma endCount : b.beginCount ≤ b.endCount ∧ b.endCount ≤ s.shared.maxCounter ∧
    (b.endCount = b.beginCount → b.endCount = s.shared.maxCounter) := by
  have inside := exchange.inside.1
  obtain ⟨bounded, positive, some, same, size, limit, small⟩ := exchange
  have last : b.endCount = min (b.beginCount + b.blockSize) s.shared.maxCounter := by
    rw [Bounds.endCount, wrap, Nat.mod_eq_of_lt small, limit]
  omega

lemma last : (b.claim toInitial (s.shared.batches.length - 1)).last = b.endCount - 2 := by
  have ends := exchange.endCount
  have some := exchange.some
  have small := exchange.bounded.small
  simp only [Bounds.claim, wrap, cntOffset]
  omega

lemma nextCounter : b.endCount < s.shared.maxCounter ∧ b.nextCounter toInitial = b.endCount ∨
    b.endCount = s.shared.maxCounter ∧ b.nextCounter toInitial < 2 := by
  rw [Bounds.nextCounter, exchange.limit]
  rcases Nat.lt_or_eq_of_le exchange.endCount.2.1 with less | equal
  · exact .inl ⟨less, if_neg less.ne⟩
  · refine .inr ⟨equal, ?_⟩
    rw [if_pos equal]
    split_ifs <;> decide

lemma later : s.shared.Later { s.shared with inCounter := b.nextCounter toInitial } := by
  refine ⟨rfl, rfl, rfl, rfl, fun empty => absurd exchange.some ?_, le_rfl, fun _ => id⟩
  rw [← exchange.same]
  omega

lemma handed_before : s.shared.handed (s.shared.batches.length - 1) = b.beginCount - 2 := by
  rw [Shared.handed, exchange.same, if_pos ⟨exchange.length, exchange.some⟩]

lemma handed_after : ({ s.shared with inCounter := b.nextCounter toInitial } : Shared).handed
    (s.shared.batches.length - 1) = b.endCount - 2 := by
  have ends := exchange.endCount
  have some := exchange.some
  have max := exchange.maxCounter
  simp only [Shared.handed, exchange.length, true_and]
  rcases exchange.nextCounter toInitial with ⟨less, next⟩ | ⟨equal, closed⟩
  · rw [next, if_pos (by omega)]
  · rw [if_neg (by omega), (exchange.later toInitial).size]
    omega

lemma handed_of_ne {c : ℕ} (other : c ≠ s.shared.batches.length - 1) :
    ({ s.shared with inCounter := b.nextCounter toInitial } : Shared).handed c = s.shared.handed c := by
  have len := exchange.length
  rw [Shared.handed, if_neg (by dsimp only; omega), Shared.handed, if_neg (by omega),
    (exchange.later toInitial).size]

lemma owes (call : Invocation) :
    ({ s.shared with inCounter := b.nextCounter toInitial } : Shared).owes call = s.shared.owes call +
      (b.claim toInitial (s.shared.batches.length - 1)).covers (b.beginCount - 2) call := by
  have ends := exchange.endCount
  rw [Shared.owes, Shared.owes, Claim.covers, exchange.last toInitial]
  simp only [Bounds.claim]
  by_cases last : call.batch = s.shared.batches.length - 1
  · rw [last, exchange.handed_before, exchange.handed_after]
    simp only [true_and]
    split_ifs <;> omega
  · rw [exchange.handed_of_ne toInitial last]
    simp only [last, false_and, if_false, Nat.add_zero]

end State.Exchange

lemma Claim.start_spec (claim : Claim) (loop : Loop) (ordered : claim.first ≤ claim.last) (call : Invocation) :
    (Thread.contributing loop claim.start).debt = claim.last - claim.first ∧
      (Thread.contributing loop claim.start).due call = claim.covers claim.first call ∧
      (Thread.contributing loop claim.start).unfinished call = claim.covers claim.first call := by
  rw [Claim.start]
  split_ifs with some
  · exact ⟨rfl, rfl, rfl⟩
  · rw [claim.covers_last (by omega)]
    exact ⟨by simp only [Thread.debt]; omega, rfl, rfl⟩

variable {claim : Claim} {master : Prop}

lemma Claim.start_valid (some : claim.first < claim.last → claim.Valid g master)
    (none : claim.last ≤ claim.first → g.inCounter < 2) : claim.start.Valid g master := by
  rw [Claim.start]
  split_ifs with items
  · exact ⟨some items, items.le⟩
  · exact fun _ _ => none (not_lt.mp items)

variable {loop : Loop}

lemma Inv.exchange {b : Bounds} (inv : Inv s) (toInitial : Bool) (exchange : s.Exchange b)
    (place : s.threads t = .contributing loop (.ready b toInitial)) :
    Inv (s.moved t { s.shared with inCounter := b.nextCounter toInitial }
      (.contributing loop (b.claim toInitial (s.shared.batches.length - 1)).start)) := by
  have busy : ¬ s.Idle := fun idle => by
    have some := exchange.some
    have same := exchange.same
    have empty := idle.empty
    omega
  have ends := exchange.endCount
  have owes := exchange.owes toInitial
  have last := exchange.last toInitial
  have first : (b.claim toInitial (s.shared.batches.length - 1)).first = b.beginCount - 2 := rfl
  have batch : (b.claim toInitial (s.shared.batches.length - 1)).batch = s.shared.batches.length - 1 := rfl
  have closes : (b.claim toInitial (s.shared.batches.length - 1)).completed = true → b.nextCounter toInitial = 1 :=
    of_decide_eq_true
  generalize b.claim toInitial (s.shared.batches.length - 1) = claim at owes last first batch closes ⊢
  have spec := claim.start_spec loop (by omega)
  have free : (s.threads t).Free := by
    rw [place]
    exact ⟨rfl, fun _ => rfl, fun _ => rfl⟩
  obtain ⟨p, plan, holds⟩ := inv.phase
  refine inv.moved (exchange.later toInitial) ⟨?_, ?_⟩ (fun call => ?_) (fun call => ?_) (fun _ => .inl)
    ⟨p, plan, holds.busy busy ?_ fun _ => Thread.noConfusion⟩
  · have valid := inv.threads t
    rw [place] at valid
    exact valid.1
  · refine Claim.start_valid (fun items => ⟨?_, ?_, items, fun _ completed => ?_⟩) fun none => ?_
    · rw [batch, exchange.length]
    · exact (Nat.eq_sub_of_add_eq exchange.inside.2).trans batch.symm
    · exact (closes completed).trans_lt (by decide)
    · have some := exchange.some
      rcases exchange.nextCounter toInitial with ⟨less, next⟩ | ⟨equal, closed⟩
      · omega
      · exact closed
  · rw [owes, (spec call).2.1, free.due, first]
    dsimp only
    omega
  · rw [owes, (spec call).2.2, free.unfinished, first]
    dsimp only
    omega
  · refine exchange.bounded.moved (exchange.later toInitial) (fun some => ?_) ?_
    · rcases exchange.nextCounter toInitial with ⟨less, next⟩ | ⟨equal, closed⟩
      · exact next.trans_le less.le
      · exact absurd some (not_le.mpr closed)
    · rw [exchange.handed_before, exchange.handed_after, (spec ⟨0, 0, 0⟩).1, free.debt, first, last]
      dsimp only
      omega

/-! ## Items -/

lemma count_cons_call (call current : Invocation) (calls : List Invocation) :
    (current :: calls).count call = calls.count call + if call = current then 1 else 0 := by
  simp only [count_cons, beq_iff_eq, eq_comm (a := current)]

lemma Inv.invoke {i : ℕ} (inv : Inv s)
    (place : s.threads t = .contributing loop (.working claim i)) (some : i < claim.last) :
    Inv (s.moved t { s.shared with invoked := ⟨claim.batch, s.shared.installed, i⟩ :: s.shared.invoked }
      (.contributing loop (.running claim ⟨claim.batch, s.shared.installed, i⟩))) := by
  have valid := inv.threads t
  rw [place] at valid
  obtain ⟨calls, ⟨-, installed, -⟩, -⟩ := valid
  rw [installed]
  have later : s.shared.Later { s.shared with invoked := ⟨claim.batch, claim.batch, i⟩ :: s.shared.invoked } :=
    ⟨rfl, rfl, rfl, rfl, fun _ => rfl, le_rfl, fun _ => id⟩
  obtain ⟨p, plan, holds⟩ := inv.phase
  refine inv.moved later ⟨calls, ?_, rfl, some⟩ (fun call => ?_) (fun call => ?_) (fun _ => .inl) ⟨p, plan, ?_⟩
  · have valid := inv.threads t
    rw [place] at valid
    exact valid.2.1.later later
  · have split := Claim.covers_succ some call
    have count := count_cons_call call ⟨claim.batch, claim.batch, i⟩ s.shared.invoked
    rw [place, later.owes rfl]
    simp only [Thread.due]
    omega
  · rw [place, later.owes rfl]
    rfl
  · refine holds.quiet later rfl rfl ?_ fun _ => ⟨?_, Thread.noConfusion⟩ <;> rw [place]
    · rfl
    · exact Thread.noConfusion

lemma Inv.finish {current : Invocation} (inv : Inv s)
    (place : s.threads t = .contributing loop (.running claim current)) :
    Inv (s.moved t { s.shared with finished := current :: s.shared.finished }
      (.contributing loop (.working claim (current.item + 1)))) := by
  have valid := inv.threads t
  rw [place] at valid
  obtain ⟨calls, claimed, own, inside⟩ := valid
  have later : s.shared.Later { s.shared with finished := current :: s.shared.finished } :=
    ⟨rfl, rfl, rfl, rfl, fun _ => rfl, le_rfl, fun _ => mem_cons_of_mem _⟩
  obtain ⟨p, plan, holds⟩ := inv.phase
  refine inv.moved later ⟨calls, claimed.later later, inside⟩ (fun call => ?_) (fun call => ?_) (fun _ => .inl)
    ⟨p, plan, ?_⟩
  · rw [place, later.owes rfl]
    rfl
  · have split := Claim.covers_succ inside call
    have count := count_cons_call call current s.shared.finished
    rw [← own] at split
    rw [place, later.owes rfl]
    simp only [Thread.unfinished]
    omega
  · refine holds.quiet later rfl rfl ?_ fun _ => ⟨?_, Thread.noConfusion⟩ <;> rw [place]
    · rfl
    · exact Thread.noConfusion

lemma Inv.report {i : ℕ} (inv : Inv s)
    (place : s.threads t = .contributing loop (.working claim i)) (past : claim.last ≤ i) :
    Inv (s.moved t { s.shared with outCounter := wrap (s.shared.outCounter + (claim.last - claim.first)) }
      (.contributing loop (.left true claim.completed))) := by
  have valid := inv.threads t
  rw [place] at valid
  obtain ⟨calls, ⟨batch, installed, items, completed⟩, -⟩ := valid
  have debt : (s.threads t).debt = claim.last - claim.first := by rw [place]; rfl
  have busy : ¬ s.Idle := fun idle => by
    have free := idle.free t
    omega
  obtain ⟨p, plan, holds⟩ := inv.phase
  have bounded := holds.matches busy
  have whole : s.shared.outCounter + (claim.last - claim.first) < 2 ^ 64 := by
    have sum := bounded.debts
    have single := Finset.single_le_sum (fun u _ => Nat.zero_le (s.threads u).debt) (Finset.mem_univ t)
    have small := bounded.small
    have limit := bounded.limit
    have handed := bounded.handed_le
    omega
  have later : s.shared.Later
      { s.shared with outCounter := wrap (s.shared.outCounter + (claim.last - claim.first)) } := by
    refine ⟨rfl, rfl, rfl, rfl, fun _ => rfl, ?_, fun _ => id⟩
    rw [wrap, Nat.mod_eq_of_lt whole]
    exact Nat.le_add_right ..
  refine inv.moved later ⟨calls, ?_⟩ (fun call => ?_) (fun call => ?_) (fun _ => .inl)
    ⟨p, plan, holds.busy busy ?_ fun _ => Thread.noConfusion⟩
  · intro isMaster ended
    exact completed isMaster (ended.resolve_left Bool.noConfusion)
  · rw [place, later.owes rfl]
    simp only [Thread.due, Claim.covers_last past]
  · rw [place, later.owes rfl]
    simp only [Thread.unfinished, Claim.covers_last past]
  · refine bounded.moved later (fun some => (bounded.inside some).1) ?_
    rw [later.handed rfl, debt]
    simp only [wrap, Nat.mod_eq_of_lt whole, Thread.debt]
    omega

/-! ## Waiting -/

lemma Inv.mem_finished (inv : Inv s) {b i : ℕ} (handed : i < s.shared.handed b)
    (returned : ∀ t, (s.threads t).unfinished ⟨b, b, i⟩ = 0) : ⟨b, b, i⟩ ∈ s.shared.finished := by
  have total := inv.finished ⟨b, b, i⟩
  rw [Finset.sum_eq_zero fun t _ => returned t, Shared.owes, if_pos ⟨rfl, handed⟩] at total
  exact count_pos_iff.mp (by omega)

lemma Thread.Valid.unfinished (valid : thread.Valid g master) {call : Invocation}
    (old : call.batch + 1 ≠ g.batches.length) : thread.unfinished call = 0 := by
  cases thread with
  | contributing loop pc =>
    cases pc with
    | working claim i =>
      have last := valid.2.1.1
      rw [Thread.unfinished, Claim.covers, if_neg]
      omega
    | running claim call =>
      have last := valid.2.1.1
      rw [Thread.unfinished, Claim.covers, if_neg]
      omega
    | _ => rfl
  | _ => rfl

lemma Inv.finished_earlier (inv : Inv s) : s.shared.Finished (s.shared.batches.length - 1) := by
  intro b less i inside
  refine inv.mem_finished ?_ fun t => (inv.threads t).unfinished (by dsimp only; omega)
  rw [Shared.handed, if_neg (by omega)]
  exact inside

lemma Inv.finished_all (inv : Inv s) (free : ∀ t, (s.threads t).debt = 0)
    (handed : s.shared.handed (s.shared.batches.length - 1) = s.shared.size (s.shared.batches.length - 1)) :
    s.shared.Finished s.shared.batches.length := by
  intro b less i inside
  rcases Nat.lt_or_eq_of_le (Nat.le_sub_one_of_lt less) with earlier | rfl
  · exact inv.finished_earlier b earlier i inside
  · exact inv.mem_finished (handed ▸ inside) fun t => ((inv.threads t).free (free t)).unfinished _

lemma State.Idle.handed (idle : s.Idle) (b : ℕ) : s.shared.handed b = s.shared.size b := by
  have empty := idle.empty
  rw [Shared.handed, if_neg (by omega)]

lemma Inv.finished_idle (inv : Inv s) (idle : s.Idle) : s.shared.Finished s.shared.batches.length :=
  inv.finished_all idle.free (idle.handed _)

variable {batches outCounter : ℕ}

lemma Inv.waited (inv : Inv s) (place : s.threads t = .waited batches outCounter)
    (arrived : s.shared.maxCounter ≤ outCounter) : s.shared.Finished batches := by
  have valid := inv.threads t
  rw [place] at valid
  obtain ⟨bound, reason, -⟩ := valid
  rcases reason with older | done | current
  · exact fun b less => inv.finished_earlier b (by omega)
  · exact fun b less => done b (by omega)
  · have done : s.shared.Finished s.shared.batches.length := by
      obtain ⟨p, -, holds⟩ := inv.phase
      by_cases idle : s.Idle
      · exact inv.finished_idle idle
      · have settled := (holds.matches idle).settled (arrived.trans current)
        exact inv.finished_all settled.1 settled.2
    exact fun b less => done b (by omega)

lemma Inv.stabilize (inv : Inv s) (place : s.threads t = .waited batches outCounter)
    (arrived : s.shared.maxCounter ≤ outCounter) :
    Inv (s.moved t { s.shared with stable := batches :: s.shared.stable } .away) := by
  have later : s.shared.Later { s.shared with stable := batches :: s.shared.stable } :=
    ⟨rfl, rfl, rfl, rfl, fun _ => rfl, le_rfl, fun _ => id⟩
  have done := inv.waited place arrived
  have valid := inv.threads t
  rw [place] at valid
  refine inv.moved later trivial (fun call => ?_) (fun call => ?_) (fun m waited => ?_) ?_
  · rw [place, later.owes rfl]
    rfl
  · rw [place, later.owes rfl]
    rfl
  · rcases mem_cons.mp waited with rfl | earlier
    · exact .inr ⟨valid.1, done⟩
    · exact .inl earlier
  · obtain ⟨p, plan, holds⟩ := inv.phase
    refine ⟨p, plan, ?_⟩
    by_cases isMaster : t = 0
    · have own := valid.2.2 isMaster
      have inside : s.threads 0 ≠ .away := by
        rw [← isMaster, place]
        exact Thread.noConfusion
      have bounded (bounded : s.Bounded) :
          (s.moved t { s.shared with stable := batches :: s.shared.stable } .away).Bounded := by
        refine bounded.moved later (fun some => (bounded.inside some).1) ?_
        rw [later.handed rfl, place]
        rfl
      cases p with
      | filled => exact bounded holds
      | emptied =>
        have settled := holds.1.settled (arrived.trans own.2)
        have idle : s.Idle := ⟨own.1, settled.1⟩
        exact ⟨bounded holds.1, fun _ => idle.moved later (by rw [place]; rfl)⟩
      | installed => exact absurd holds.2.away inside
      | bounded n => exact absurd holds.1.away inside
      | reset n => exact absurd holds.1.away inside
    · exact holds.quiet later rfl rfl (by rw [place]; rfl) fun same => absurd same isMaster

/-! ## A step inside a call -/

lemma Loop.next_valid {contributed completed : Bool} (calls : t = 0 → loop ≠ .contributeWhileAble)
    (valid : (Contribute.left contributed completed).Valid g (t = 0)) :
    (loop.next contributed completed g.batches.length).Valid g (t = 0) ∧
      (t = 0 → loop.next contributed completed g.batches.length ≠ .away) := by
  cases loop with
  | contributeWhileAble =>
    have worker : t ≠ 0 := fun isMaster => calls isMaster rfl
    refine ⟨?_, fun isMaster => absurd isMaster worker⟩
    cases contributed
    · trivial
    · exact ⟨fun isMaster => absurd isMaster worker, trivial⟩
  | contributeUntilEmpty =>
    cases contributed
    · exact ⟨⟨le_rfl, fun isMaster => valid isMaster (.inl rfl)⟩, fun _ => Thread.noConfusion⟩
    · exact ⟨⟨calls, trivial⟩, fun _ => Thread.noConfusion⟩
  | contributeUntilComplete =>
    cases completed
    · exact ⟨⟨calls, trivial⟩, fun _ => Thread.noConfusion⟩
    · exact ⟨⟨le_rfl, fun isMaster => valid isMaster (.inr rfl)⟩, fun _ => Thread.noConfusion⟩

variable {pc : Contribute}

lemma Inv.go (inv : Inv s) (place : s.threads t = .contributing loop pc)
    (before : (Thread.contributing loop pc).Free) {next : Contribute} (after : (Thread.contributing loop next).Free)
    (valid : next.Valid s.shared (t = 0)) : Inv (s.moved t s.shared (.contributing loop next)) := by
  have here := inv.threads t
  rw [place] at here
  refine inv.light (place ▸ before) after ⟨here.1, valid⟩ fun _ => ⟨?_, Thread.noConfusion⟩
  rw [place]
  exact Thread.noConfusion

lemma Inv.ready {b : Bounds} {toInitial : Bool} (inv : Inv s)
    (place : s.threads t = .contributing loop (.ready b toInitial)) (timely : Timely s (.run t))
    (same : s.shared.inCounter = b.beginCount) : s.Exchange b := by
  have valid := inv.threads t
  rw [place] at valid
  simp only [Timely, place] at timely
  obtain ⟨size, limit, small⟩ := timely same
  have some : 2 ≤ b.beginCount := valid.2
  have busy : ¬ s.Idle := fun idle => by
    have empty := idle.empty
    omega
  obtain ⟨p, -, holds⟩ := inv.phase
  exact ⟨holds.matches busy, inv.positive, some, same, size, limit, small⟩

lemma Inv.contribute (kind : Kind) (inv : Inv s)
    (place : s.threads t = .contributing loop pc) (timely : Timely s (.run t)) :
    Inv (s.moved t ((Thread.contributing loop pc).step kind s.shared).1
      ((Thread.contributing loop pc).step kind s.shared).2) := by
  have valid := inv.threads t
  rw [place] at valid
  have free : ∀ {next : Contribute}, (Thread.contributing loop next).debt = 0 → next.Valid s.shared (t = 0) →
      (Thread.contributing loop next).Free := fun debt here => Thread.Valid.free ⟨valid.1, here⟩ debt
  cases pc with
  | enter => exact inv.go place (free rfl valid.2) (Thread.free_acquire ..) acquire_valid
  | loaded beginCount => exact inv.go place (free rfl valid.2) (free rfl valid.2) valid.2
  | sized beginCount blockSize => exact inv.go place (free rfl valid.2) (free rfl valid.2) valid.2
  | bounded b => exact inv.go place (free rfl valid.2) (free rfl valid.2) valid.2
  | ready b toInitial =>
    by_cases same : s.shared.inCounter = b.beginCount
    · have exchanged := inv.exchange toInitial (inv.ready place timely same) place
      simpa only [Thread.step, ParallelWork.contribute, if_pos same] using exchanged
    · simp only [Thread.step, ParallelWork.contribute, if_neg same]
      exact inv.go place (free rfl valid.2) (Thread.free_acquire ..) acquire_valid
  | working claim i =>
    simp only [Thread.step, ParallelWork.contribute]
    split_ifs with some
    · exact inv.invoke place some
    · exact inv.report place (not_lt.mp some)
  | running claim call => exact inv.finish place
  | left contributed completed =>
    have next := Loop.next_valid valid.1 valid.2
    refine inv.light (place ▸ free rfl valid.2) (Thread.free_next ..) next.1 fun isMaster => ⟨?_, next.2 isMaster⟩
    rw [place]
    exact Thread.noConfusion

lemma Inv.run (kind : Kind) (inv : Inv s) (timely : Timely s (.run t)) (inside : s.threads t ≠ .away) :
    Inv (s.moved t ((s.threads t).step kind s.shared).1 ((s.threads t).step kind s.shared).2) := by
  have valid := inv.threads t
  have stays : ∀ {next : Thread}, next ≠ .away → t = 0 → s.threads t ≠ .away ∧ next ≠ .away :=
    fun other _ => ⟨inside, other⟩
  cases place : s.threads t with
  | away => exact absurd place inside
  | contributing loop pc => exact inv.contribute kind place timely
  | waiting batches =>
    rw [place] at valid
    exact inv.light (place ▸ valid.free rfl) ⟨rfl, fun _ => rfl, fun _ => rfl⟩
      ⟨valid.1, .inr (.inr le_rfl), fun isMaster => ⟨valid.2 isMaster, le_rfl⟩⟩ (stays Thread.noConfusion)
  | waited batches outCounter =>
    rw [place] at valid
    simp only [Thread.step]
    split_ifs with early
    · exact inv.light (place ▸ valid.free rfl) ⟨rfl, fun _ => rfl, fun _ => rfl⟩
        ⟨valid.1, fun isMaster => (valid.2.2 isMaster).1⟩ (stays Thread.noConfusion)
    · exact inv.stabilize place (not_lt.mp early)

end

end HpcToolkit.Util.ParallelWork
