import HpcToolkit.Lib.Exclusive
import HpcToolkit.HpcStruct.WorkList

/-! # The order of the output of hpcstruct

Whoever holds the lock prints the items in the order of the work list, up to the first one that is not done. The sweep
at the end finds all of them done and prints the rest.
-/

open Function
open List hiding getElem?_eq_some_iff
open Option (getD_some map_some)

namespace HpcToolkit.HpcStruct

open Lib HpcStruct

variable {items : List WorkItem} {launch : List ℕ} {format : FileInfo → GroupInfo → ProcInfo → String} {T : ℕ}

/-! ## The printer -/

/-- What is printed for an item. -/
def WorkItem.events (format : FileInfo → GroupInfo → ProcInfo → String) (w : WorkItem) : List Event :=
  w.beginEvents ++ w.procEvents (w.text format) ++ w.endEvents

/-- What was already printed for the current item. -/
def Printer.progress (format : FileInfo → GroupInfo → ProcInfo → String) (w : WorkItem) : Printer → List Event
  | .check => []
  | .first => []
  | .proc => w.beginEvents
  | .last => w.beginEvents ++ w.procEvents (w.text format)
  | .advance => w.events format
  | .stop => []

/-- The printer is at an item that is done. -/
def Printer.Inside : Printer → Prop
  | .check => False
  | .stop => False
  | _ => True

/-- The output is that of the first items, and of a part of the next one. -/
structure Shared.Inv (items : List WorkItem) (format : FileInfo → GroupInfo → ProcInfo → String) (g : Shared)
    (pc : Printer) : Prop where
  bound : g.numDone ≤ items.length
  out : g.out = (items.take g.numDone).flatMap (WorkItem.events format) ++
    (items[g.numDone]?.map fun w => pc.progress format w).getD []
  inside : pc.Inside → g.numDone < items.length ∧ g.isDone g.numDone = true
  passed : ∀ i < g.numDone, g.isDone i = true
  buffers : ∀ i w, g.isDone i = true → g.numDone ≤ i → items[i]? = some w → g.obuf i = w.text format

lemma printStep_isDone (items : List WorkItem) (g : Shared) (pc : Printer) :
    (printStep items g pc).1.isDone = g.isDone := by
  cases pc <;> simp only [printStep] <;> split <;> rfl

variable {g : Shared} {w : WorkItem}

lemma Shared.Inv.emit {pc pc' : Printer} {more : List Event} (inv : g.Inv items format pc)
    (here : items[g.numDone]? = some w) (grown : pc.progress format w ++ more = pc'.progress format w)
    (inside : pc'.Inside → pc.Inside) : ({ g with out := g.out ++ more } : Shared).Inv items format pc' where
  bound := inv.bound
  out := by
    have before := inv.out
    rw [here, map_some, getD_some] at before
    simp only [here, map_some, getD_some]
    rw [before, append_assoc, grown]
  inside within := inv.inside (inside within)
  passed := inv.passed
  buffers := inv.buffers

lemma Shared.Inv.advance (inv : g.Inv items format .advance)
    (here : items[g.numDone]? = some w) :
    ({ g with obuf := update g.obuf g.numDone "", numDone := g.numDone + 1 } : Shared).Inv items format
      .check := by
  obtain ⟨less, done⟩ := inv.inside trivial
  refine ⟨less, ?_, fun within => within.elim, ?_, ?_⟩
  · have before := inv.out
    rw [here, map_some, getD_some] at before
    have nothing : (items[g.numDone + 1]?.map fun w => Printer.check.progress format w).getD [] = [] := by
      cases items[g.numDone + 1]? <;> rfl
    rw [nothing, append_nil, take_add_one, here, flatMap_append, before]
    simp [Printer.progress]
  · intro i before
    rcases Nat.lt_succ_iff_lt_or_eq.mp before with earlier | rfl
    · exact inv.passed i earlier
    · exact done
  · intro i v done later found
    have other : i ≠ g.numDone := by have later : g.numDone + 1 ≤ i := later; omega
    simp only [update_of_ne other]
    exact inv.buffers i v done (Nat.le_of_succ_le later) found

lemma Shared.Inv.look {pc pc' : Printer} (inv : g.Inv items format pc)
    (same : ∀ w, items[g.numDone]? = some w → pc.progress format w = pc'.progress format w)
    (inside : pc'.Inside → g.numDone < items.length ∧ g.isDone g.numDone = true) : g.Inv items format pc' where
  bound := inv.bound
  out := by
    rw [inv.out]
    cases here : items[g.numDone]? with
    | none => rfl
    | some w => rw [map_some, map_some, same w here]
  inside := inside
  passed := inv.passed
  buffers := inv.buffers

lemma Shared.Inv.printStep {pc : Printer} (inv : g.Inv items format pc) :
    (printStep items g pc).1.Inv items format (printStep items g pc).2 := by
  cases here : items[g.numDone]? with
  | none =>
    have stopped : HpcStruct.printStep items g pc = (g, .stop) := by simp only [HpcStruct.printStep, here]
    rw [stopped]
    refine inv.look (fun w found => ?_) fun within => within.elim
    cases here.symm.trans found
  | some w =>
    have less : g.numDone < items.length := (List.getElem?_eq_some_iff.mp here).1
    cases pc with
    | check =>
      by_cases done : g.isDone g.numDone = true
      · simp only [HpcStruct.printStep, here, if_pos done]
        exact inv.look (fun _ _ => rfl) fun _ => ⟨less, done⟩
      · simp only [HpcStruct.printStep, here, if_neg done]
        exact inv.look (fun _ _ => rfl) fun within => within.elim
    | first =>
      simp only [HpcStruct.printStep, here]
      exact inv.emit here rfl fun _ => trivial
    | proc =>
      have buffer := inv.buffers g.numDone w (inv.inside trivial).2 le_rfl here
      simp only [HpcStruct.printStep, here, buffer]
      exact inv.emit here rfl fun _ => trivial
    | last =>
      simp only [HpcStruct.printStep, here]
      exact inv.emit here rfl fun _ => trivial
    | advance =>
      simp only [HpcStruct.printStep, here]
      exact inv.advance here
    | stop =>
      simp only [HpcStruct.printStep, here]
      exact inv

/-! ## Invariant -/

/-- The item that a thread is formatting. -/
def Worker.item : Worker → Option ℕ
  | .format i => some i
  | .setDone i => some i
  | _ => none

/-- The lock, if the thread has it. -/
def Worker.lock : Worker → Option Unit
  | .print _ => some ()
  | _ => none

/-- What a thread knows: its item is not done yet, and from some point on formatted. -/
def Worker.Valid (items : List WorkItem) (format : FileInfo → GroupInfo → ProcInfo → String) (g : Shared) :
    Worker → Prop
  | .format i => g.isDone i = false ∧ i < items.length
  | .setDone i => g.isDone i = false ∧ ∀ w, items[i]? = some w → g.obuf i = w.text format
  | _ => True

/-- Where the printing is, as seen by a thread. -/
def Worker.At (pc : Printer) : Worker → Prop
  | .print pc' => pc' = pc
  | _ => True

/-- The printing is where the holder of the lock is, or the sweep. -/
structure Inv (items : List WorkItem) (launch : List ℕ) (format : FileInfo → GroupInfo → ProcInfo → String)
    (s : State T) (pc : Printer) : Prop where
  shared : s.shared.Inv items format pc
  valid : ∀ t, (s.workers t).Valid items format s.shared
  apart : Exclusive Worker.item s.workers
  mutex : Exclusive Worker.lock s.workers
  locked : s.locked = true ↔ ∃ t, (s.workers t).lock = some ()
  position : ∀ t, (s.workers t).At pc
  idle : s.phase = .parallel → s.locked = false → pc = .check
  started : ∀ i, s.shared.isDone i = true ∨ (∃ t, (s.workers t).item = some i) ↔ i ∈ launch.take s.next
  ended : s.phase ≠ .parallel → launch.length ≤ s.next ∧ ∀ t, s.workers t = .away
  sweep : ∀ pc', s.phase = .sweep pc' → pc' = pc ∧ (pc' = .stop → items.length ≤ s.shared.numDone)
  finished : s.phase = .finished → items.length ≤ s.shared.numDone

lemma Inv.start : Inv items launch format ({} : State T) .check where
  shared := ⟨Nat.zero_le _, by cases items <;> rfl, fun within => within.elim,
    fun _ less => absurd less (Nat.not_lt_zero _), fun _ _ done => by cases done⟩
  valid _ := trivial
  apart _ _ _ here := by cases here
  mutex _ _ _ here := by cases here
  locked := ⟨fun locked => (by cases locked), fun ⟨_, here⟩ => by cases here⟩
  position _ := trivial
  idle _ _ := rfl
  started i := by
    refine ⟨?_, fun listed => by cases listed⟩
    rintro (done | ⟨_, has⟩)
    · cases done
    · cases has
  ended other := absurd rfl other
  sweep _ here := by cases here
  finished here := by cases here

variable {s s' : State T} {pc : Printer} {t : Fin T}

lemma Inv.parallel (inv : Inv items launch format s pc) (working : s.workers t ≠ .away) : s.phase = .parallel := by
  by_contra other
  exact working ((inv.ended other).2 t)

variable {worker : Worker} {P : Worker → Prop} {workers : Fin T → Worker}

lemma exists_update_iff :
    (∃ u, P (update workers t worker u)) ↔ P worker ∨ ∃ u, u ≠ t ∧ P (workers u) := by
  rw [← not_iff_not, not_exists, not_or, not_exists]
  refine (forall_update_iff workers fun _ w => ¬ P w).trans (and_congr_right fun _ => ?_)
  exact forall_congr' fun u => by rw [not_and]

lemma exists_update_same (same : P worker ↔ P (workers t)) : (∃ u, P (update workers t worker u)) ↔ ∃ u, P (workers u) := by
  rw [exists_update_iff, same]
  constructor
  · rintro (mine | ⟨u, _, theirs⟩)
    · exact ⟨t, mine⟩
    · exact ⟨u, theirs⟩
  · rintro ⟨u, here⟩
    by_cases mine : u = t
    · exact .inl (mine ▸ here)
    · exact .inr ⟨u, mine, here⟩

lemma lock_update (same : worker.lock = (workers t).lock) :
    (∃ u, (update workers t worker u).lock = some ()) ↔ ∃ u, (workers u).lock = some () :=
  exists_update_same (P := fun w => w.lock = some ()) (by rw [same])

variable {i : ℕ}

lemma item_update (same : worker.item = (workers t).item) :
    (∃ u, (update workers t worker u).item = some i) ↔ ∃ u, (workers u).item = some i :=
  exists_update_same (P := fun w => w.item = some i) (by rw [same])

section
variable (inv : Inv items launch format s pc)
include inv

lemma Inv.take (perm : launch.Perm (range items.length))
    (away : s.workers t = .away) (next : launch[s.next]? = some i) :
    Inv items launch format ({ s with next := s.next + 1 }.move t (.format i)) pc := by
  have less : s.next < launch.length := (List.getElem?_eq_some_iff.mp next).1
  have listed : i < items.length := mem_range.mp (perm.mem_iff.mp (mem_of_getElem? next))
  have later : i ∉ launch.take s.next := by
    intro earlier
    have nodup : launch.Nodup := perm.nodup_iff.mpr nodup_range
    obtain ⟨j, inside, found⟩ := mem_take_iff_getElem.mp earlier
    obtain ⟨_, here⟩ := List.getElem?_eq_some_iff.mp next
    have same := (nodup.getElem_inj_iff).mp (found.trans here.symm)
    omega
  have fresh : ¬ (s.shared.isDone i = true ∨ ∃ u, (s.workers u).item = some i) := mt (inv.started i).mp later
  obtain ⟨notDone, nobody⟩ := not_or.mp fresh
  refine ⟨inv.shared, ?_, ?_, ?_, ?_, ?_, inv.idle, ?_, ?_, inv.sweep, inv.finished⟩
  · exact (forall_update_iff s.workers fun _ w => w.Valid items format s.shared).mpr
      ⟨⟨Bool.eq_false_iff.mpr notDone, listed⟩, fun u _ => inv.valid u⟩
  · refine inv.apart.update fun u j _ mine theirs => nobody ⟨u, ?_⟩
    cases mine
    exact theirs
  · exact inv.mutex.keep fun _ here => by cases here
  · exact inv.locked.trans (lock_update (by rw [away]; rfl)).symm
  · exact (forall_update_iff s.workers fun _ w => w.At pc).mpr ⟨trivial, fun u _ => inv.position u⟩
  · intro j
    have before := inv.started j
    have noItem : (s.workers t).item = none := by rw [away]; rfl
    have others : (∃ u, u ≠ t ∧ (s.workers u).item = some j) ↔ ∃ u, (s.workers u).item = some j := by
      refine exists_congr fun u => and_iff_right_of_imp ?_
      rintro here rfl
      cases noItem.symm.trans here
    have mine : (Worker.format i).item = some j ↔ j = i := Option.some_inj.trans eq_comm
    simp only [State.move]
    rw [exists_update_iff (P := fun w => w.item = some j), others, mine, take_add_one, next, mem_append, ← before,
      Option.toList_some, mem_singleton, or_comm (a := j = i), or_assoc]
  · intro other
    exact absurd (inv.ended other).1 (not_le.mpr less)

lemma Inv.formatItem (worker : s.workers t = .format i)
    (found : items[i]? = some w) :
    Inv items launch format
      ({ s with shared.obuf := update s.shared.obuf i (w.text format) }.move t (.setDone i)) pc := by
  have mine : (s.workers t).item = some i := by rw [worker]; rfl
  have notDone : s.shared.isDone i = false := by
    have valid := inv.valid t
    rw [worker] at valid
    exact valid.1
  have shared : ({ s.shared with obuf := update s.shared.obuf i (w.text format) } : Shared).Inv items format
      pc := by
    refine ⟨inv.shared.bound, inv.shared.out, inv.shared.inside, inv.shared.passed, fun j v done later here => ?_⟩
    have other : j ≠ i := by
      rintro rfl
      cases notDone.symm.trans done
    simp only [update_of_ne other]
    exact inv.shared.buffers j v done later here
  refine ⟨shared, ?_, ?_, ?_, ?_, ?_, inv.idle, ?_, ?_, inv.sweep, inv.finished⟩
  · refine (forall_update_iff s.workers fun _ w' => w'.Valid items format
      { s.shared with obuf := update s.shared.obuf i (w.text format) }).mpr ⟨⟨notDone, ?_⟩, fun u other => ?_⟩
    · intro v here
      obtain rfl := Option.some.inj (found.symm.trans here)
      simp only [update_self]
    · have valid := inv.valid u
      cases theirs : s.workers u with
      | setDone j =>
        rw [theirs] at valid
        have different : j ≠ i := by
          rintro rfl
          exact other (inv.apart u t j (by rw [theirs]; rfl) mine)
        refine ⟨valid.1, ?_⟩
        simp only [update_of_ne different]
        exact valid.2
      | _ => rw [theirs] at valid; exact valid
  · exact inv.apart.keep fun j here => mine.trans here
  · exact inv.mutex.keep fun _ here => by cases here
  · exact inv.locked.trans (lock_update (by rw [worker]; rfl)).symm
  · exact (forall_update_iff s.workers fun _ w => w.At pc).mpr ⟨trivial, fun u _ => inv.position u⟩
  · intro j
    refine Iff.trans ?_ (inv.started j)
    exact or_congr_right (item_update (by rw [worker]; rfl))
  · intro other
    exact absurd ((inv.ended other).2 t) (by rw [worker]; exact Worker.noConfusion)

lemma Inv.finishItem (worker : s.workers t = .setDone i) :
    Inv items launch format
      ({ s with shared.isDone := update s.shared.isDone i true }.move t .tryLock) pc := by
  have mine : (s.workers t).item = some i := by rw [worker]; rfl
  have valid := inv.valid t
  rw [worker] at valid
  obtain ⟨notDone, formatted⟩ := valid
  have grows : ∀ j, s.shared.isDone j = true → update s.shared.isDone i true j = true := by
    intro j done
    by_cases same : j = i
    · rw [same, update_self]
    · rw [update_of_ne same, done]
  have shared : ({ s.shared with isDone := update s.shared.isDone i true } : Shared).Inv items format pc := by
    refine ⟨inv.shared.bound, inv.shared.out, fun within => ?_, fun j less => grows j (inv.shared.passed j less), ?_⟩
    · exact ⟨(inv.shared.inside within).1, grows _ (inv.shared.inside within).2⟩
    · intro j v done later here
      by_cases same : j = i
      · subst same
        exact formatted v here
      · simp only [update_of_ne same] at done
        exact inv.shared.buffers j v done later here
  refine ⟨shared, ?_, ?_, ?_, ?_, ?_, inv.idle, ?_, ?_, inv.sweep, inv.finished⟩
  · refine (forall_update_iff s.workers fun _ w' => w'.Valid items format
      { s.shared with isDone := update s.shared.isDone i true }).mpr ⟨trivial, fun u other => ?_⟩
    have theirs := inv.valid u
    have different : ∀ j, (s.workers u).item = some j → j ≠ i := by
      rintro j has rfl
      exact other (inv.apart u t j has mine)
    cases at_ : s.workers u with
    | format j =>
      rw [at_] at theirs
      refine ⟨?_, theirs.2⟩
      simp only [update_of_ne (different j (by rw [at_]; rfl))]
      exact theirs.1
    | setDone j =>
      rw [at_] at theirs
      refine ⟨?_, theirs.2⟩
      simp only [update_of_ne (different j (by rw [at_]; rfl))]
      exact theirs.1
    | _ => trivial
  · exact inv.apart.keep fun j here => by cases here
  · exact inv.mutex.keep fun _ here => by cases here
  · exact inv.locked.trans (lock_update (by rw [worker]; rfl)).symm
  · exact (forall_update_iff s.workers fun _ w => w.At pc).mpr ⟨trivial, fun u _ => inv.position u⟩
  · intro j
    refine Iff.trans ?_ (inv.started j)
    simp only [State.move]
    rw [exists_update_iff (P := fun w => w.item = some j)]
    by_cases same : j = i
    · subst same
      simp only [update_self, true_or, true_iff]
      exact .inr ⟨t, mine⟩
    · simp only [update_of_ne same, Worker.item, reduceCtorEq, false_or]
      refine or_congr_right (exists_congr fun u => and_iff_right_of_imp ?_)
      rintro has rfl
      exact same (Option.some.inj (has.symm.trans mine))
  · intro other
    exact absurd ((inv.ended other).2 t) (by rw [worker]; exact Worker.noConfusion)

end

variable {pc' : Printer}

section
variable (inv : Inv items launch format s pc)
include inv

lemma Inv.goOn     (shared : g.Inv items format pc') (kept : g.isDone = s.shared.isDone)
    (buffers : ∀ i, s.shared.isDone i = false → g.obuf i = s.shared.obuf i) (working : s.workers t ≠ .away)
    (noItem : (s.workers t).item = none) (item : worker.item = none) (lock : worker.lock = (s.workers t).lock)
    (position : worker.At pc') (others : ∀ u, u ≠ t → (s.workers u).At pc')
    (idle : s.locked = false → pc' = .check) :
    Inv items launch format ({ s with shared := g }.move t worker) pc' := by
  refine ⟨shared, ?_, ?_, ?_, ?_, ?_, fun _ => idle, ?_, ?_, ?_, ?_⟩
  · refine (forall_update_iff s.workers fun _ w => w.Valid items format g).mpr ⟨?_, fun u _ => ?_⟩
    · cases worker <;> trivial
    · have valid := inv.valid u
      cases theirs : s.workers u with
      | format j => rw [theirs] at valid; exact ⟨kept ▸ valid.1, valid.2⟩
      | setDone j =>
        rw [theirs] at valid
        exact ⟨kept ▸ valid.1, fun w here => (buffers j valid.1).trans (valid.2 w here)⟩
      | _ => trivial
  · exact inv.apart.keep fun i here => by cases item.symm.trans here
  · exact inv.mutex.keep fun _ here => lock.symm.trans here
  · exact inv.locked.trans (lock_update lock).symm
  · exact (forall_update_iff s.workers fun _ w => w.At pc').mpr ⟨position, others⟩
  · intro j
    refine Iff.trans ?_ (inv.started j)
    simp only [State.move, kept]
    exact or_congr_right (item_update (item.trans noItem.symm))
  · intro other
    exact absurd ((inv.ended other).2 t) working
  · intro pc'' sweeping
    cases (inv.parallel working).symm.trans sweeping
  · intro finished
    cases (inv.parallel working).symm.trans finished

lemma Inv.noLock (worker : s.workers t = .tryLock) :
    Inv items launch format (s.move t .away) pc := by
  have working : s.workers t ≠ .away := by rw [worker]; exact Worker.noConfusion
  exact inv.goOn inv.shared rfl (fun _ _ => rfl) working (by rw [worker]; rfl) rfl (by rw [worker]; rfl) trivial
    (fun u _ => inv.position u) (inv.idle (inv.parallel working))

lemma Inv.getLock (worker : s.workers t = .tryLock) (free : s.locked = false) :
    Inv items launch format ({ s with locked := true }.move t (.print .check)) pc := by
  have working : s.workers t ≠ .away := by rw [worker]; exact Worker.noConfusion
  have nobody : ¬ ∃ u, (s.workers u).lock = some () := fun some => by cases free.symm.trans (inv.locked.mpr some)
  have start : pc = .check := inv.idle (inv.parallel working) free
  refine ⟨inv.shared, ?_, ?_, ?_, ?_, ?_, fun _ locked => (by cases locked), ?_, ?_, inv.sweep, inv.finished⟩
  · exact (forall_update_iff s.workers fun _ w => w.Valid items format s.shared).mpr
      ⟨trivial, fun u _ => inv.valid u⟩
  · exact inv.apart.keep fun i here => by cases here
  · exact inv.mutex.update fun u _ _ _ theirs => nobody ⟨u, theirs⟩
  · exact ⟨fun _ => ⟨t, by simp only [State.move, update_self]; rfl⟩, fun _ => rfl⟩
  · exact (forall_update_iff s.workers fun _ w => w.At pc).mpr ⟨start.symm, fun u _ => inv.position u⟩
  · intro j
    refine Iff.trans ?_ (inv.started j)
    exact or_congr_right (item_update (by rw [worker]; rfl))
  · intro other
    exact absurd ((inv.ended other).2 t) working

lemma Inv.unlock (worker : s.workers t = .print .stop) :
    Inv items launch format ({ s with locked := false }.move t .away) .check := by
  have working : s.workers t ≠ .away := by rw [worker]; exact Worker.noConfusion
  have mine : (s.workers t).lock = some () := by rw [worker]; rfl
  have stopped : pc = .stop := by
    have position := inv.position t
    rw [worker] at position
    exact Eq.symm position
  have others : ∀ u, u ≠ t → (s.workers u).lock ≠ some () := fun u other theirs => other (inv.mutex u t () theirs mine)
  have shared : s.shared.Inv items format .check :=
    inv.shared.look (fun w _ => by rw [stopped]; rfl) fun within => within.elim
  refine ⟨shared, ?_, ?_, ?_, ?_, ?_, fun _ _ => rfl, ?_, ?_, ?_, ?_⟩
  · exact (forall_update_iff s.workers fun _ w => w.Valid items format s.shared).mpr
      ⟨trivial, fun u _ => inv.valid u⟩
  · exact inv.apart.keep fun i here => by cases here
  · exact inv.mutex.keep fun _ here => by cases here
  · refine ⟨fun locked => (by cases locked), fun here => ?_⟩
    simp only [State.move] at here
    rcases (exists_update_iff (P := fun w => w.lock = some ())).mp here with none | ⟨u, other, theirs⟩
    · cases none
    · exact absurd theirs (others u other)
  · refine (forall_update_iff s.workers fun _ w => w.At .check).mpr ⟨trivial, fun u other => ?_⟩
    cases theirs : s.workers u with
    | print pc' => exact absurd (by rw [theirs]; rfl) (others u other)
    | _ => trivial
  · intro j
    refine Iff.trans ?_ (inv.started j)
    exact or_congr_right (item_update (by rw [worker]; rfl))
  · intro other
    exact absurd ((inv.ended other).2 t) working
  · intro pc'' sweeping
    cases (inv.parallel working).symm.trans sweeping
  · intro finished
    cases (inv.parallel working).symm.trans finished

end

lemma printStep_obuf (inv : g.Inv items format pc) (notDone : g.isDone i = false) :
    (printStep items g pc).1.obuf i = g.obuf i := by
  cases here : items[g.numDone]? with
  | none => simp only [printStep, here]
  | some w =>
    cases pc with
    | advance =>
      have other : i ≠ g.numDone := by
        rintro rfl
        cases notDone.symm.trans (inv.inside trivial).2
      simp only [printStep, here, update_of_ne other]
    | _ => simp only [printStep, here]

lemma Inv.print (inv : Inv items launch format s pc) (worker : s.workers t = .print pc) :
    Inv items launch format ({ s with shared := (printStep items s.shared pc).1 }.move t
      (.print (printStep items s.shared pc).2)) (printStep items s.shared pc).2 := by
  have working : s.workers t ≠ .away := by rw [worker]; exact Worker.noConfusion
  have mine : (s.workers t).lock = some () := by rw [worker]; rfl
  have locked : s.locked = true := inv.locked.mpr ⟨t, mine⟩
  refine inv.goOn inv.shared.printStep (printStep_isDone items _ _) (fun i => printStep_obuf inv.shared) working
    (by rw [worker]; rfl) rfl (by rw [worker]; rfl) rfl ?_ fun free => ?_
  · intro u other
    cases theirs : s.workers u with
    | print pc' => exact absurd (inv.mutex u t () (by rw [theirs]; rfl) mine) other
    | _ => trivial
  · cases free.symm.trans locked

lemma Inv.all_done (inv : Inv items launch format s pc) (perm : launch.Perm (range items.length))
    (through : launch.length ≤ s.next) (away : ∀ t, s.workers t = .away) (inside : i < items.length) :
    s.shared.isDone i = true := by
  have listed : i ∈ launch.take s.next := by
    rw [take_of_length_le through]
    exact perm.mem_iff.mpr (mem_range.mpr inside)
  rcases (inv.started i).mpr listed with done | ⟨t, has⟩
  · exact done
  · rw [away t] at has
    cases has

lemma printStep_stop (done : ∀ i < items.length, g.isDone i = true)
    (stopped : pc = .stop → items.length ≤ g.numDone) (stop : (printStep items g pc).2 = .stop) :
    items.length ≤ (printStep items g pc).1.numDone := by
  cases here : items[g.numDone]? with
  | none =>
    simp only [printStep, here]
    exact getElem?_eq_none_iff.mp here
  | some w =>
    have less : g.numDone < items.length := (List.getElem?_eq_some_iff.mp here).1
    cases pc with
    | check =>
      simp only [printStep, here, if_pos (done _ less)] at stop
      cases stop
    | stop => exact absurd (stopped rfl) (not_le.mpr less)
    | _ =>
      simp only [printStep, here] at stop
      cases stop

section
variable (inv : Inv items launch format s pc)
include inv

lemma Inv.startSweep (parallel : s.phase = .parallel)
    (through : launch.length ≤ s.next) (away : ∀ t, s.workers t = .away) :
    Inv items launch format { s with phase := .sweep .check } pc := by
  have free : s.locked = false := by
    refine Bool.eq_false_iff.mpr fun locked => ?_
    obtain ⟨t, has⟩ := inv.locked.mp locked
    rw [away t] at has
    cases has
  have start : pc = .check := inv.idle parallel free
  refine ⟨inv.shared, inv.valid, inv.apart, inv.mutex, inv.locked, inv.position, fun parallel => (by cases parallel),
    inv.started, fun _ => ⟨through, away⟩, fun pc' sweeping => ?_, fun finished => (by cases finished)⟩
  obtain rfl := Phase.sweep.inj sweeping
  exact ⟨start.symm, fun stop => (by cases stop)⟩

lemma Inv.sweepOn (perm : launch.Perm (range items.length))
    (sweeping : s.phase = .sweep pc') :
    Inv items launch format { s with
      shared := (printStep items s.shared pc').1, phase := .sweep (printStep items s.shared pc').2 }
      (printStep items s.shared pc').2 := by
  obtain ⟨rfl, stopped⟩ := inv.sweep pc' sweeping
  obtain ⟨through, away⟩ := inv.ended (by rw [sweeping]; exact Phase.noConfusion)
  have kept := printStep_isDone items s.shared pc'
  refine ⟨inv.shared.printStep, fun t => ?_, inv.apart, inv.mutex, inv.locked, fun t => ?_,
    fun parallel => (by cases parallel), ?_, fun _ => ⟨through, away⟩, fun pc'' here => ?_,
    fun finished => (by cases finished)⟩
  · simp only [away t]
    trivial
  · simp only [away t]
    trivial
  · intro j
    simp only [kept]
    exact inv.started j
  · obtain rfl := Phase.sweep.inj here
    exact ⟨rfl, printStep_stop (fun i inside => inv.all_done perm through away inside) stopped⟩

lemma Inv.finish (sweeping : s.phase = .sweep .stop) :
    Inv items launch format { s with phase := .finished } pc := by
  obtain ⟨through, away⟩ := inv.ended (by rw [sweeping]; exact Phase.noConfusion)
  exact ⟨inv.shared, inv.valid, inv.apart, inv.mutex, inv.locked, inv.position, fun parallel => (by cases parallel),
    inv.started, fun _ => ⟨through, away⟩, fun _ here => (by cases here), fun _ => (inv.sweep _ sweeping).2 rfl⟩

/-! ## Runs -/

lemma Inv.run (stepped : runWorker items format s t = some s') :
    ∃ pc', Inv items launch format s' pc' := by
  cases worker : s.workers t with
  | away => simp only [runWorker, worker, reduceCtorEq] at stepped
  | format i =>
    cases found : items[i]? with
    | none => simp only [runWorker, worker, found, reduceCtorEq] at stepped
    | some w =>
      simp only [runWorker, worker, found] at stepped
      cases stepped
      exact ⟨pc, inv.formatItem worker found⟩
  | setDone i =>
    simp only [runWorker, worker] at stepped
    cases stepped
    exact ⟨pc, inv.finishItem worker⟩
  | tryLock =>
    simp only [runWorker, worker] at stepped
    split_ifs at stepped with locked
    cases stepped
    exact ⟨pc, inv.getLock worker (Bool.eq_false_iff.mpr locked)⟩
  | print pc' =>
    have position := inv.position t
    rw [worker] at position
    obtain rfl : pc' = pc := position
    by_cases stop : pc' = .stop
    · subst stop
      simp only [runWorker, worker] at stepped
      cases stepped
      exact ⟨.check, inv.unlock worker⟩
    · have printing : runWorker items format s t = some ({ s with shared := (printStep items s.shared pc').1 }.move t
          (.print (printStep items s.shared pc').2)) := by
        cases pc' with
        | stop => exact absurd rfl stop
        | _ => simp only [runWorker, worker]
      obtain rfl := Option.some.inj (printing.symm.trans stepped)
      exact ⟨_, inv.print worker⟩

lemma Inv.step (perm : launch.Perm (range items.length)) {act : Act T}
    (stepped : step items launch format s act = some s') : ∃ pc', Inv items launch format s' pc' := by
  cases act with
  | take t =>
    simp only [HpcStruct.step] at stepped
    split_ifs at stepped with away
    obtain ⟨i, next, rfl⟩ := Option.map_eq_some_iff.mp stepped
    exact ⟨pc, inv.take perm away next⟩
  | run t => exact inv.run stepped
  | noLock t =>
    simp only [HpcStruct.step] at stepped
    split_ifs at stepped with trying
    cases stepped
    exact ⟨pc, inv.noLock trying⟩
  | sweep =>
    cases phase : s.phase with
    | parallel =>
      simp only [HpcStruct.step, phase] at stepped
      split_ifs at stepped with ended
      cases stepped
      exact ⟨pc, inv.startSweep phase ended.1 ended.2⟩
    | sweep pc' =>
      by_cases stop : pc' = .stop
      · subst stop
        simp only [HpcStruct.step, phase] at stepped
        cases stepped
        exact ⟨pc, inv.finish phase⟩
      · have sweeping : HpcStruct.step items launch format s .sweep = some { s with
            shared := (printStep items s.shared pc').1, phase := .sweep (printStep items s.shared pc').2 } := by
          cases pc' with
          | stop => exact absurd rfl stop
          | _ => simp only [HpcStruct.step, phase]
        obtain rfl := Option.some.inj (sweeping.symm.trans stepped)
        exact ⟨_, inv.sweepOn perm phase⟩
    | finished => simp only [HpcStruct.step, phase, reduceCtorEq] at stepped

end

lemma inv_of_reachable (perm : launch.Perm (range items.length))
    (reached : Reachable (step items launch format) ({} : State T) s) :
    ∃ pc, Inv items launch format s pc := by
  refine reached.invariant (P := fun s => ∃ pc, Inv items launch format s pc) ⟨.check, Inv.start⟩ ?_
  rintro s s' act ⟨pc, inv⟩ stepped
  exact inv.step perm stepped

end HpcToolkit.HpcStruct
