import HpcToolkit.Lib.Reachable

/-! # Finalizing the data of released threads

At exit the main thread takes items off the list of released thread data and creates workers for them; each worker
finalizes its item and then takes further ones until the list is empty. A thread that cannot be created ends the
creation, and the item that was taken for it is dropped. The turns of all threads interleave in any order.
-/

namespace HpcToolkit.Threads

open List Lib

/-- The id of threads of the tool itself, for which nothing is written. -/
def toolThreadId : ℤ := -1

/-- `finalize_all_thread_data`: a worker with the item it got, before its next grab, and after its return. -/
inductive Worker (D : Type) where
  | item (data : Option D)
  | grab
  | returned

/-- `hpcrun_threadMgr_data_fini`: at the test of the loop, before the grab, with the item for the thread to be created,
waiting for a thread, and after the return. -/
inductive Main (D : Type) where
  | test (i : ℕ)
  | grab (i : ℕ)
  | create (i : ℕ) (item : Option D)
  | join (i : ℕ)
  | returned

/-- `list_thread_head` and all threads, with the data that workers and the main thread have finalized, and what was taken
for threads that could not be created. -/
structure State (D : Type) where
  list : List D
  main : Main D
  workers : List (Worker D)
  finalized : List D
  finalizedLast : List D
  dropped : List D

/-- A turn of the main thread, with the outcome of `pthread_create` if it comes to that, or of a worker. -/
inductive Act where
  | main (created : Bool)
  | worker (w : ℕ)

variable {D : Type} (id : D → ℤ) (maxIter : ℕ) (td : Option D)

/-- The profile that is written and the trace that is closed for one item. -/
def finalizeThreadData (data : D) : List D := if id data ≠ toolThreadId then [data] else []

/-- A turn of a worker. -/
def workerTurn (s : State D) (w : ℕ) : Worker D → Option (State D)
  | .item none => some { s with workers := s.workers.set w .returned }
  | .item (some data) => some { s with workers := s.workers.set w .grab, finalized := data :: s.finalized }
  | .grab => some { s with list := s.list.tail, workers := s.workers.set w (.item s.list.head?) }
  | .returned => none

/-- A turn of the main thread. -/
def mainTurn (s : State D) (created : Bool) : Option (State D) :=
  match s.main with
  | .test i => some { s with main := if s.list ≠ [] ∧ i < maxIter then .grab i else .join 0 }
  | .grab i => some { s with list := s.list.tail, main := .create i s.list.head? }
  | .create i item =>
    if created then some { s with main := .test (i + 1), workers := s.workers ++ [.item item] }
    else some { s with main := .join 0, dropped := item.toList ++ s.dropped }
  | .join i =>
    match s.workers[i]? with
    | some .returned => some { s with main := .join (i + 1) }
    | some _ => none
    | none => some { s with main := .returned, finalizedLast := (td.filter fun data => id data = 0).toList }
  | .returned => none

def step (s : State D) : Act → Option (State D)
  | .main created => mainTurn id maxIter td s created
  | .worker w => s.workers[w]?.bind (workerTurn s w)

/-- What was finalized so far. -/
def State.all (s : State D) : List D := s.finalizedLast ++ s.finalized

def start (released : List D) : State D := ⟨released, .test 0, [], [], [], []⟩

/-! ## What every run keeps -/

def Worker.held : Worker D → List D
  | .item data => data.toList
  | _ => []

def Main.held : Main D → List D
  | .create _ item => item.toList
  | _ => []

/-- The creation is finished. -/
def Main.Joins : Main D → Prop
  | .join _ | .returned => True
  | _ => False

/-- A worker that found the list empty. -/
def Worker.Idle : Worker D → Prop
  | .item none | .returned => True
  | _ => False

variable [DecidableEq D]

structure Inv (td : Option D) (released : List D) (s : State D) : Prop where
  shared : ∀ d, s.list.count d + s.main.held.count d + (s.workers.flatMap Worker.held).count d + s.finalized.count d +
    s.dropped.count d = released.count d
  drained : ∀ w ∈ s.workers, w.Idle → s.list = []
  counted : ∀ i, s.main = .test i ∨ s.main = .grab i ∨ (∃ item, s.main = .create i item) → s.workers.length = i
  empty : ∀ i, s.main = .create i none → s.list = []
  ended : s.main.Joins → s.list = [] ∨ s.workers ≠ [] ∨ s.dropped ≠ []
  joined : ∀ i, s.main = .join i → ∀ j < i, s.workers[j]? = some .returned
  finished : s.main = .returned → ∀ w ∈ s.workers, w = .returned
  last : ∀ d ∈ s.finalizedLast, td = some d

variable {id maxIter td} {released : List D} {s s' : State D}

lemma inv_start (released : List D) : Inv td released (start released) where
  shared d := by simp [start, Main.held]
  drained _ none := nomatch none
  counted i at_ := by
    rcases at_ with same | same | ⟨item, same⟩ <;> cases same
    rfl
  empty _ same := nomatch same
  ended finished := finished.elim
  joined _ same := nomatch same
  finished same := nomatch same
  last _ none := nomatch none

lemma count_head_tail (l : List D) (d : D) : l.head?.toList.count d + l.tail.count d = l.count d := by
  cases l with
  | nil => rfl
  | cons first rest =>
    rw [head?_cons, Option.toList_some, tail_cons, count_singleton, count_cons]
    omega

omit [DecidableEq D] in
lemma sum_map_set (f : Worker D → ℕ) {workers : List (Worker D)} {i : ℕ} {old : Worker D} (now : workers[i]? = some old)
    (new : Worker D) : ((workers.set i new).map f).sum + f old = (workers.map f).sum + f new := by
  obtain ⟨inside, rfl⟩ := List.getElem?_eq_some_iff.mp now
  have parts : (workers.map f).sum = ((workers.take i).map f).sum + (f workers[i] + ((workers.drop (i + 1)).map f).sum) := by
    rw [← sum_cons, ← map_cons, ← drop_eq_getElem_cons inside, ← sum_append, ← map_append, take_append_drop]
  rw [parts, set_eq_take_append_cons_drop, if_pos inside, map_append, sum_append, map_cons, sum_cons]
  omega

lemma count_held_set {workers : List (Worker D)} {i : ℕ} {old : Worker D} (now : workers[i]? = some old)
    (new : Worker D) (d : D) : ((workers.set i new).flatMap Worker.held).count d + old.held.count d =
      (workers.flatMap Worker.held).count d + new.held.count d := by
  rw [count_flatMap, count_flatMap]
  exact sum_map_set (fun worker => worker.held.count d) now new

section
variable (inv : Inv td released s)
include inv

lemma Inv.setWorker {i : ℕ} {old new : Worker D} (now : s.workers[i]? = some old)
    (working : old ≠ .returned) {list finalized : List D}
    (counts : ∀ d, list.count d + new.held.count d + finalized.count d =
      s.list.count d + old.held.count d + s.finalized.count d)
    (shrinks : s.list = [] → list = []) (idle : new.Idle → s.list = []) :
    Inv td released { s with list := list, workers := s.workers.set i new, finalized := finalized } where
  shared d := by
    have before := inv.shared d
    have moved := count_held_set now new d
    have same := counts d
    dsimp only
    omega
  drained w member idle' := by
    rcases mem_or_eq_of_mem_set member with member | rfl
    · exact shrinks (inv.drained w member idle')
    · exact shrinks (idle idle')
  counted j at_ := (length_set).trans (inv.counted j at_)
  empty j same := shrinks (inv.empty j same)
  ended finished := (inv.ended finished).imp shrinks (.imp_left fun some none => some (by simpa using none))
  joined j same k before := by
    rw [getElem?_set_ne]
    · exact inv.joined j same k before
    · rintro rfl
      exact working (Option.some.inj (now.symm.trans (inv.joined j same i before)))
  finished same := absurd (inv.finished same _ (mem_of_getElem? now)) working
  last := inv.last

lemma Inv.workerTurn {i : ℕ} {worker : Worker D} (now : s.workers[i]? = some worker)
    (stepped : Threads.workerTurn s i worker = some s') : Inv td released s' := by
  cases worker with
  | item data =>
    cases data with
    | none =>
      cases stepped
      have drained := inv.drained _ (mem_of_getElem? now) trivial
      exact inv.setWorker now nofun (fun _ => rfl) (fun empty => empty) fun _ => drained
    | some data =>
      cases stepped
      refine inv.setWorker now nofun ?_ (fun empty => empty) nofun
      intro d
      simp only [Worker.held, Option.toList_some, count_cons, count_nil]
      omega
  | grab =>
    cases stepped
    refine inv.setWorker now nofun ?_ ?_ ?_
    · intro d
      have parts := count_head_tail s.list d
      simp only [Worker.held, count_nil]
      omega
    · intro empty
      rw [empty, tail_nil]
    · intro idle
      cases list : s.list with
      | nil => rfl
      | cons first rest => rw [list] at idle; exact idle.elim
  | returned => cases stepped

lemma Inv.toJoin {dropped : List D}
    (shared : ∀ d, s.list.count d + 0 + (s.workers.flatMap Worker.held).count d + s.finalized.count d +
      dropped.count d = released.count d) (ended : s.list = [] ∨ s.workers ≠ [] ∨ dropped ≠ []) :
    Inv td released { s with main := .join 0, dropped := dropped } where
  shared := shared
  drained := inv.drained
  counted j at_ := by rcases at_ with same | same | ⟨item, same⟩ <;> cases same
  empty := nofun
  ended _ := ended
  joined j same k before := by
    cases same
    exact absurd before (Nat.not_lt_zero k)
  finished := nofun
  last := inv.last

lemma Inv.mainTurn (positive : 0 < maxIter) {created : Bool}
    (stepped : Threads.mainTurn id maxIter td s created = some s') : Inv td released s' := by
  cases now : s.main with
  | test i =>
    simp only [Threads.mainTurn, now, Option.some.injEq] at stepped
    subst stepped
    have count := inv.counted i (.inl now)
    have shared := inv.shared
    rw [now] at shared
    split_ifs with more
    · refine ⟨shared, inv.drained, ?_, nofun, False.elim, nofun, nofun, inv.last⟩
      rintro j (same | same | ⟨item, same⟩) <;> cases same
      exact count
    · refine inv.toJoin shared ?_
      rcases not_and_or.mp more with none | enough
      · exact .inl (not_not.mp none)
      · refine .inr (.inl fun none => enough ?_)
        rw [← count, none]
        exact positive
  | grab i =>
    simp only [Threads.mainTurn, now, Option.some.injEq] at stepped
    subst stepped
    refine ⟨?_, ?_, ?_, ?_, False.elim, nofun, nofun, inv.last⟩
    · intro d
      have before := inv.shared d
      have parts := count_head_tail s.list d
      rw [now] at before
      simp only [Main.held, count_nil] at before ⊢
      omega
    · intro w member idle
      rw [inv.drained w member idle, tail_nil]
    · rintro j (same | same | ⟨item, same⟩) <;> cases same
      exact inv.counted i (.inr (.inl now))
    · intro j same
      injection same with _ none
      rw [head?_eq_none_iff.mp none, tail_nil]
  | create i item =>
    have count := inv.counted i (.inr (.inr ⟨item, now⟩))
    have found : item = none → s.list = [] := by
      rintro rfl
      exact inv.empty i now
    simp only [Threads.mainTurn, now] at stepped
    split_ifs at stepped
    · cases stepped
      refine ⟨?_, ?_, ?_, nofun, False.elim, nofun, nofun, inv.last⟩
      · intro d
        have before := inv.shared d
        rw [now] at before
        simp only [Main.held, count_nil, flatMap_append, count_append, flatMap_singleton,
          Worker.held] at before ⊢
        omega
      · intro w member idle
        rcases mem_append.mp member with member | member
        · exact inv.drained w member idle
        · rw [mem_singleton.mp member] at idle
          cases item with
          | none => exact found rfl
          | some data => exact idle.elim
      · rintro j (same | same | ⟨item, same⟩) <;> cases same
        rw [length_append, count]
        rfl
    · cases stepped
      refine inv.toJoin ?_ ?_
      · intro d
        have before := inv.shared d
        rw [now] at before
        simp only [Main.held, count_append] at before ⊢
        omega
      · cases item with
        | none => exact .inl (found rfl)
        | some data => exact .inr (.inr (cons_ne_nil data s.dropped))
  | join i =>
    have ended := inv.ended (by rw [now]; trivial)
    have shared := inv.shared
    rw [now] at shared
    simp only [Threads.mainTurn, now] at stepped
    split at stepped
    · rename_i done
      cases stepped
      refine ⟨shared, inv.drained, ?_, nofun, fun _ => ended, ?_, nofun, inv.last⟩
      · rintro j (same | same | ⟨item, same⟩) <;> cases same
      intro j same k before
      cases same
      rcases Nat.lt_succ_iff_lt_or_eq.mp before with before | rfl
      · exact inv.joined i now k before
      · exact done
    · cases stepped
    · rename_i none
      cases stepped
      refine ⟨shared, inv.drained, ?_, nofun, fun _ => ended, nofun, ?_, ?_⟩
      · rintro j (same | same | ⟨item, same⟩) <;> cases same
      · intro _ w member
        obtain ⟨j, inside, rfl⟩ := getElem_of_mem member
        have joined := inv.joined i now j (lt_of_lt_of_le inside (getElem?_eq_none_iff.mp none))
        exact Option.some.inj ((getElem?_eq_getElem inside).symm.trans joined)
      · intro d member
        exact (Option.filter_eq_some_iff.mp (Option.mem_toList.mp member)).1
  | returned => simp [Threads.mainTurn, now] at stepped

end

lemma count_written (id : D → ℤ) {d : D} (ordinary : id d ≠ toolThreadId) (l : List D) :
    (l.flatMap (finalizeThreadData id)).count d = l.count d := by
  induction l with
  | nil => rfl
  | cons first rest ih =>
    rw [flatMap_cons, count_append, ih, count_cons, Nat.add_comm, finalizeThreadData]
    by_cases same : first = d
    · simp [same, ordinary]
    · simp only [beq_iff_eq, same, if_false]
      split_ifs <;> simp [same]

/-! ## What is dropped -/

/-- No thread that was to get an item fails to be created. -/
def Creates (s : State D) : Act → Prop
  | .main created => ∀ i data, s.main = .create i (some data) → created = true
  | .worker _ => True

omit [DecidableEq D] in
lemma dropped_step {act : Act} (stepped : step id maxIter td s act = some s') :
    s'.dropped = [] ↔ s.dropped = [] ∧ Creates s act := by
  cases act with
  | worker w =>
    obtain ⟨worker, -, turn⟩ := Option.bind_eq_some_iff.mp stepped
    rw [Creates, and_true]
    cases worker with
    | item data => cases data <;> cases turn <;> rfl
    | grab =>
      cases turn
      rfl
    | returned => cases turn
  | main created =>
    simp only [step] at stepped
    cases now : s.main with
    | create i item =>
      simp only [mainTurn, now] at stepped
      split_ifs at stepped with made <;> cases stepped
      · exact (and_iff_left fun _ _ _ => made).symm
      · cases item with
        | none => exact (and_iff_left fun j data same => by cases now.symm.trans same).symm
        | some data => exact iff_of_false (cons_ne_nil _ _) fun both => made (both.2 i data now)
    | test i | grab i =>
      simp only [mainTurn, now] at stepped
      cases stepped
      exact (and_iff_left fun j data same => by cases now.symm.trans same).symm
    | join i =>
      simp only [mainTurn, now] at stepped
      split at stepped <;> cases stepped <;>
        exact (and_iff_left fun j data same => by cases now.symm.trans same).symm
    | returned => simp [mainTurn, now] at stepped

omit [DecidableEq D] in
lemma dropped_run {acts : List Act} (ran : acts.foldlM (step id maxIter td) s = some s') :
    s'.dropped = [] ↔ s.dropped = [] ∧ EveryStep (step id maxIter td) Creates s acts := by
  induction acts generalizing s with
  | nil =>
    cases ran
    exact (and_iff_left trivial).symm
  | cons act acts ih =>
    rw [foldlM_cons] at ran
    obtain ⟨next, stepped, ran⟩ := Option.bind_eq_some_iff.mp ran
    rw [ih ran, dropped_step stepped, and_assoc, EveryStep, stepped]
    simp

/-- When `hpcrun_threadMgr_data_fini` has returned, all released data was finalized exactly once if and only if no thread
that was to get an item could not be created. -/
theorem finalized_once_iff (nodup : released.Nodup) (own : ∀ d ∈ released, td ≠ some d) (positive : 0 < maxIter)
    (acts : List Act) (ran : acts.foldlM (step id maxIter td) (start released) = some s) (finished : s.main = .returned) :
    (∀ d ∈ released, s.all.count d = 1 ∧
      (id d ≠ toolThreadId → (s.all.flatMap (finalizeThreadData id)).count d = 1)) ↔
      EveryStep (step id maxIter td) Creates (start released) acts := by
  have reached : Reachable (step id maxIter td) (start released) s := Reachable.start.run ran
  have inv : Inv td released s := by
    refine reached.invariant (inv_start released) ?_
    intro s s' act inv stepped
    cases act with
    | main created => exact inv.mainTurn positive stepped
    | worker i =>
      obtain ⟨worker, now, turn⟩ := Option.bind_eq_some_iff.mp stepped
      exact inv.workerTurn now turn
  have idle : ∀ d, (s.workers.flatMap Worker.held).count d = 0 := by
    intro d
    refine count_eq_zero.mpr fun held => ?_
    obtain ⟨w, member, holds⟩ := mem_flatMap.mp held
    rw [inv.finished finished w member] at holds
    cases holds
  have each : ∀ d ∈ released, s.list.count d + s.all.count d + s.dropped.count d = 1 := by
    intro d member
    have shared := inv.shared d
    have last : s.finalizedLast.count d = 0 := count_eq_zero.mpr fun last => own d member (inv.last d last)
    rw [finished, idle, count_eq_one_of_mem nodup member] at shared
    rw [State.all, count_append, last]
    simpa [Main.held] using shared
  have none := dropped_run ran
  rw [show (start released).dropped = [] from rfl, eq_self, true_and] at none
  rw [← none]
  constructor
  · intro once
    refine eq_nil_iff_forall_not_mem.mpr fun d dropped => ?_
    have shared := inv.shared d
    have some := count_pos_iff.mpr dropped
    have member : d ∈ released := count_pos_iff.mp (by omega)
    have one := (once d member).1
    have all := each d member
    omega
  · intro none d member
    have all := each d member
    have empty : s.list = [] := by
      rcases inv.ended (by rw [finished]; trivial) with empty | created | some
      · exact empty
      · obtain ⟨w, there⟩ := exists_mem_of_ne_nil _ created
        exact inv.drained w there (by rw [inv.finished finished w there]; trivial)
      · exact absurd none some
    have once : s.all.count d = 1 := by simpa [empty, none] using all
    exact ⟨once, fun ordinary => (count_written id ordinary s.all).trans once⟩

theorem two_items_finalized : ∃ s, [Act.main true, .main true, .main true, .main true, .worker 0, .worker 0, .worker 0,
    .worker 0, .worker 0, .main true, .main true].foldlM (step (fun d : ℕ => (d : ℤ)) 1 (some 0)) (start [1, 2]) =
      some s ∧ ((∀ d ∈ [1, 2], s.all.count d = 1 ∧ ((d : ℤ) ≠ toolThreadId →
        (s.all.flatMap (finalizeThreadData fun d : ℕ => (d : ℤ))).count d = 1)) ↔ EveryStep (step (fun d : ℕ => (d : ℤ)) 1
          (some 0)) Creates (start [1, 2]) [Act.main true, .main true, .main true, .main true, .worker 0, .worker 0,
            .worker 0, .worker 0, .worker 0, .main true, .main true]) :=
  ⟨_, rfl, finalized_once_iff (by decide) (by decide) (by decide) _ rfl rfl⟩

/-- The only thread cannot be created, and its item is lost. -/
theorem uncreated_thread_loses : ∃ s, [Act.main true, .main true, .main false, .main true].foldlM
    (step (fun d : ℕ => (d : ℤ)) 1 (some 0)) (start [1]) = some s ∧ s.main = .returned ∧
      ¬ ∀ d ∈ [1], s.all.count d = 1 := ⟨_, rfl, rfl, by decide⟩

/-! ## The end of a run -/

def Worker.turns : Worker D → ℕ
  | .item (some _) => 3
  | .grab => 2
  | .item none => 1
  | .returned => 0

def Main.turns (maxIter threads : ℕ) : Main D → ℕ
  | .test i => threads + 2 + 5 * (maxIter - i)
  | .grab i => threads + 6 + 5 * (maxIter - (i + 1))
  | .create i none => threads + 5 + 5 * (maxIter - (i + 1))
  | .create i (some _) => threads + 7 + 5 * (maxIter - (i + 1))
  | .join i => threads - i + 1
  | .returned => 0

/-- The most turns that are left. -/
def State.turns (maxIter : ℕ) (s : State D) : ℕ :=
  2 * s.list.length + (s.workers.map Worker.turns).sum + s.main.turns maxIter s.workers.length

section
omit [DecidableEq D]

lemma turns_step {act : Act} (stepped : step id maxIter td s act = some s') : s'.turns maxIter < s.turns maxIter := by
  cases act with
  | worker w =>
    obtain ⟨worker, now, turn⟩ := Option.bind_eq_some_iff.mp stepped
    have sum := sum_map_set Worker.turns now
    cases worker with
    | item data =>
      cases data <;> cases turn <;> simp only [State.turns, length_set]
      · have less := sum .returned
        simp only [Worker.turns] at less
        omega
      · have less := sum .grab
        simp only [Worker.turns] at less
        omega
    | grab =>
      cases turn
      have less := sum (.item s.list.head?)
      cases list : s.list <;> simp [State.turns, Worker.turns, list] at less ⊢ <;> omega
    | returned => cases turn
  | main created =>
    simp only [step] at stepped
    cases now : s.main with
    | test i =>
      simp only [mainTurn, now, Option.some.injEq] at stepped
      subst stepped
      simp only [State.turns, now]
      split_ifs with more <;> simp only [Main.turns]
      all_goals omega
    | grab i =>
      simp only [mainTurn, now, Option.some.injEq] at stepped
      subst stepped
      cases list : s.list <;> simp [State.turns, Main.turns, list, now]
      omega
    | create i item =>
      simp only [mainTurn, now] at stepped
      split_ifs at stepped <;> cases stepped <;> cases item
      all_goals
        simp [State.turns, Main.turns, Worker.turns, now]
        omega
    | join i =>
      simp only [mainTurn, now] at stepped
      split at stepped <;> cases stepped <;> simp only [State.turns, Main.turns, now]
      · rename_i done
        have inside := (List.getElem?_eq_some_iff.mp done).1
        omega
      · omega
    | returned => simp [mainTurn, now] at stepped

/-- The tool comes to its end at exit, whatever the order of the turns: there are boundedly many of them, and the only
state without a next one is that in which the main thread has returned. -/
theorem data_fini_returns (released : List D) {acts : List Act}
    (ran : acts.foldlM (step id maxIter td) (start released) = some s) :
    acts.length ≤ 2 * released.length + 5 * maxIter + 2 ∧
      (s.main ≠ .returned → ∃ act s', step id maxIter td s act = some s') := by
  have run : acts.length + s.turns maxIter ≤ (start released).turns maxIter := by
    generalize start released = first at ran
    induction acts generalizing first with
    | nil =>
      cases ran
      simp
    | cons act acts ih =>
      rw [foldlM_cons] at ran
      obtain ⟨next, stepped, ran⟩ := Option.bind_eq_some_iff.mp ran
      have first := turns_step stepped
      have later := ih next ran
      rw [length_cons]
      omega
  refine ⟨by simp [State.turns, start, Main.turns] at run; omega, fun working => ?_⟩
  cases now : s.main with
  | returned => exact absurd now working
  | join i =>
    cases turn : s.workers[i]? with
    | none => exact ⟨.main true, _, by simp only [step, mainTurn, now, turn]; rfl⟩
    | some worker =>
      cases worker with
      | returned => exact ⟨.main true, _, by simp only [step, mainTurn, now, turn]; rfl⟩
      | item data => cases data <;> exact ⟨.worker i, _, by simp only [step, turn]; rfl⟩
      | grab => exact ⟨.worker i, _, by simp only [step, turn]; rfl⟩
  | _ => exact ⟨.main true, _, by simp only [step, mainTurn, now]; rfl⟩

end

/-- One item is on the list when the main thread takes its first turn. -/
theorem one_item_returns : ∃ s, [Act.main true].length ≤ 2 * [1].length + 5 * 1 + 2 ∧
    (s.main ≠ .returned → ∃ act s', step (fun d : ℕ => (d : ℤ)) 1 none s act = some s') := by
  have ran : ∃ s, [Act.main true].foldlM (step (fun d : ℕ => (d : ℤ)) 1 none) (start [1]) = some s := ⟨_, rfl⟩
  obtain ⟨s, ran⟩ := ran
  exact ⟨s, data_fini_returns [1] ran⟩

end HpcToolkit.Threads
