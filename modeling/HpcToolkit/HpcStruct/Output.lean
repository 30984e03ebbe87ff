import HpcToolkit.HpcStruct.PrintOrder

/-! # The output of hpcstruct

The work list has the procedures of each file next to each other, the first and the last of them marked. So the output
is, for each file that has any, its begin tag, the texts of its procedures, and its end tag, whatever the threads do.
-/

open List hiding getElem?_eq_some_iff

namespace HpcToolkit.HpcStruct

open Lib WorkItem

/-! ## Launch order -/

section
variable {D : Type} [LinearOrder D] {square : UInt64 → D} {threshold : List D → ℕ → D}

lemma IsLaunchList.perm {items : List WorkItem} {jobs : ℕ} {launch : List ℕ}
    (isLaunch : IsLaunchList square threshold items jobs launch) : launch.Perm (range items.length) := by
  rw [IsLaunchList] at isLaunch
  split_ifs at isLaunch
  · rw [isLaunch]
  · obtain ⟨promoted, perm, _, rfl⟩ := isLaunch
    exact (perm.append_right _).trans (filter_append_perm _ _)

end

/-! ## Files -/

section
variable (format : FileInfo → GroupInfo → ProcInfo → String)

/-- The procedures of a file that are not contained in others of their group. -/
def FileInfo.procs (f : FileInfo) : List (GroupInfo × ProcInfo) :=
  f.groupMap.flatMap fun g => (g.procMap.filter fun p => !g.skips p).map fun p => (g, p)

/-- What a file should look like: nothing if it has no procedures, else their texts between its tags. -/
def FileInfo.output (f : FileInfo) : List Event :=
  if f.procs = [] then []
  else [Event.fileBegin f] ++ f.procs.map (fun p => .proc f p.1 (format f p.1 p.2)) ++ [Event.fileEnd f]

def Skeleton.output (skeleton : Skeleton) : List Event := skeleton.files.flatMap (FileInfo.output format)

end

/-- The items of some procedures; only the first one can be marked. -/
def label (f : FileInfo) : List (GroupInfo × ProcInfo) → Bool → List WorkItem
  | [], _ => []
  | p :: rest, firstProc => ⟨f, p.1, p.2, firstProc, false⟩ :: label f rest false

lemma label_append (f : FileInfo) (ps qs : List (GroupInfo × ProcInfo)) (firstProc : Bool) :
    label f (ps ++ qs) firstProc = label f ps firstProc ++ label f qs (firstProc && ps.isEmpty) := by
  induction ps generalizing firstProc with
  | nil => simp [label]
  | cons p rest ih => simp [label, ih]

lemma procItems_eq (f : FileInfo) (g : GroupInfo) (ps : List ProcInfo) (firstProc : Bool) :
    procItems f g ps firstProc = (label f ((ps.filter fun p => !g.skips p).map fun p => (g, p)) firstProc,
      firstProc && (ps.filter fun p => !g.skips p).isEmpty) := by
  induction ps generalizing firstProc with
  | nil => simp [procItems, label]
  | cons p rest ih =>
    by_cases skips : g.skips p = true
    · rw [procItems, if_pos skips, ih]
      simp [skips]
    · rw [procItems, if_neg skips, ih]
      simp [skips, label]

lemma groupItems_eq (f : FileInfo) (gs : List GroupInfo) (firstProc : Bool) :
    groupItems f gs firstProc =
      label f (gs.flatMap fun g => (g.procMap.filter fun p => !g.skips p).map fun p => (g, p)) firstProc := by
  induction gs generalizing firstProc with
  | nil => rfl
  | cons g rest ih =>
    rw [groupItems, procItems_eq, flatMap_cons, label_append]
    simp only [ih, isEmpty_map]

section
variable {format : FileInfo → GroupInfo → ProcInfo → String}

variable {f : FileInfo}

lemma events_markLast {items : List WorkItem} (nonempty : items ≠ [])
    (file : ∀ w ∈ items, w.finfo = f ∧ w.lastProc = false) :
    (markLast items).flatMap (events format) = items.flatMap (events format) ++ [Event.fileEnd f] := by
  induction items with
  | nil => exact absurd rfl nonempty
  | cons w rest ih =>
    cases rest with
    | nil =>
      obtain ⟨same, notLast⟩ := file w mem_cons_self
      simp [markLast, events, beginEvents, procEvents, endEvents, notLast, same,
        text, leaderGapOnly]
    | cons w' rest =>
      rw [markLast, flatMap_cons, ih (cons_ne_nil _ _) fun v later => file v (mem_cons_of_mem _ later)]
      simp only [flatMap_cons, append_assoc]

variable {firstProc : Bool} {ps : List (GroupInfo × ProcInfo)}

lemma events_label (nonempty : ps ≠ [])
    (parsed : ∀ p ∈ ps, p.2.gapOnly = false ∧ p.1.procMap.head?.any (·.gapOnly) = false) :
    (label f ps firstProc).flatMap (events format) =
      (if firstProc then [Event.fileBegin f] else []) ++ ps.map fun p => Event.proc f p.1 (format f p.1 p.2) := by
  induction ps generalizing firstProc with
  | nil => exact absurd rfl nonempty
  | cons p rest ih =>
    obtain ⟨full, leader⟩ := parsed p mem_cons_self
    have first : events format ⟨f, p.1, p.2, firstProc, false⟩ =
        (if firstProc then [Event.fileBegin f] else []) ++ [Event.proc f p.1 (format f p.1 p.2)] := by
      simp [events, beginEvents, procEvents, endEvents, text,
        leaderGapOnly, full, leader]
    cases rest with
    | nil => simp [label, first]
    | cons p' rest =>
      rw [label, flatMap_cons, first,
        ih (cons_ne_nil _ _) fun q listed => parsed q (mem_cons_of_mem _ listed), append_assoc]
      rfl

lemma label_file :
    ∀ w ∈ label f ps firstProc, w.finfo = f ∧ w.lastProc = false := by
  induction ps generalizing firstProc with
  | nil => exact fun w listed => absurd listed not_mem_nil
  | cons p rest ih =>
    intro w listed
    rcases mem_cons.mp listed with rfl | later
    · exact ⟨rfl, rfl⟩
    · exact ih w later

lemma events_workList (skeleton : Skeleton) :
    (workList skeleton.files).flatMap (events format) = skeleton.output format := by
  rw [workList, flatMap_assoc, Skeleton.output]
  refine flatMap_congr fun f listed => ?_
  rw [groupItems_eq, FileInfo.output]
  change (markLast (label f f.procs true)).flatMap (events format) = _
  have parsed : ∀ p ∈ f.procs, p.2.gapOnly = false ∧ p.1.procMap.head?.any (·.gapOnly) = false := by
    intro p member
    obtain ⟨g, inFile, here⟩ := mem_flatMap.mp member
    obtain ⟨q, inGroup, rfl⟩ := mem_map.mp here
    have full := skeleton.parsed f listed g inFile
    refine ⟨full q (mem_filter.mp inGroup).1, ?_⟩
    cases leader : g.procMap.head? with
    | none => rfl
    | some leader' => exact full leader' (mem_of_head? leader)
  split_ifs with none
  · rw [none]
    rfl
  · have some : label f f.procs true ≠ [] := by
      cases procs : f.procs with
      | nil => exact absurd procs none
      | cons p rest => exact cons_ne_nil _ _
    rw [events_markLast some label_file, events_label none parsed, if_pos rfl]

end

/-! ## The end -/

/-- Bounds for the steps that are left. -/
def Printer.left : Printer → ℕ
  | .check => 7
  | .first => 6
  | .proc => 5
  | .last => 4
  | .advance => 3
  | .stop => 1

def Worker.left : Worker → ℕ
  | .away => 0
  | .format _ => 11
  | .setDone _ => 10
  | .tryLock => 9
  | .print pc => pc.left

def Phase.left : Phase → ℕ
  | .parallel => 9
  | .sweep pc => pc.left
  | .finished => 0

section
variable {items : List WorkItem} {launch : List ℕ} {format : FileInfo → GroupInfo → ProcInfo → String} {T : ℕ}

def State.left (items : List WorkItem) (launch : List ℕ) (s : State T) : ℕ :=
  12 * (launch.length - s.next) + 5 * (items.length - s.shared.numDone) + ∑ t, (s.workers t).left + s.phase.left

variable {pc : Printer}

lemma printStep_left (items : List WorkItem) (g : Shared) (more : pc ≠ .stop) :
    5 * (items.length - (printStep items g pc).1.numDone) + (printStep items g pc).2.left <
      5 * (items.length - g.numDone) + pc.left := by
  cases here : items[g.numDone]? with
  | none =>
    simp only [printStep, here]
    cases pc with
    | stop => exact absurd rfl more
    | _ => simp only [Printer.left]; omega
  | some w =>
    have less : g.numDone < items.length := (List.getElem?_eq_some_iff.mp here).1
    cases pc with
    | check =>
      simp only [printStep, here]
      split_ifs <;> simp only [Printer.left] <;> omega
    | stop => exact absurd rfl more
    | _ => simp only [printStep, here, Printer.left]; omega

variable {s s' : State T} {t : Fin T}

lemma sum_left_update {workers : Fin T → Worker} {before : Worker} (here : workers t = before) (worker : Worker) :
    ∑ u, (Function.update workers t worker u).left + before.left = ∑ u, (workers u).left + worker.left :=
  here ▸ sum_update_add Worker.left workers worker (Finset.mem_univ t)

lemma runWorker_left (stepped : runWorker items format s t = some s') : s'.left items launch < s.left items launch := by
  cases worker : s.workers t with
  | away => simp only [runWorker, worker, reduceCtorEq] at stepped
  | format i =>
    cases found : items[i]? with
    | none => simp only [runWorker, worker, found, reduceCtorEq] at stepped
    | some w =>
      simp only [runWorker, worker, found] at stepped
      cases stepped
      have sum := sum_left_update worker (.setDone i)
      rw [show (Worker.format i).left = 11 from rfl, show (Worker.setDone i).left = 10 from rfl] at sum
      simp only [State.left, State.move]
      omega
  | setDone i =>
    simp only [runWorker, worker] at stepped
    cases stepped
    have sum := sum_left_update worker .tryLock
    rw [show (Worker.setDone i).left = 10 from rfl, show Worker.tryLock.left = 9 from rfl] at sum
    simp only [State.left, State.move]
    omega
  | tryLock =>
    simp only [runWorker, worker] at stepped
    split_ifs at stepped
    cases stepped
    have sum := sum_left_update worker (.print .check)
    rw [show Worker.tryLock.left = 9 from rfl, show (Worker.print .check).left = 7 from rfl] at sum
    simp only [State.left, State.move]
    omega
  | print pc =>
    by_cases stop : pc = .stop
    · subst stop
      simp only [runWorker, worker] at stepped
      cases stepped
      have sum := sum_left_update worker .away
      rw [show (Worker.print .stop).left = 1 from rfl, show Worker.away.left = 0 from rfl] at sum
      simp only [State.left, State.move]
      omega
    · have printing : runWorker items format s t = some ({ s with shared := (printStep items s.shared pc).1 }.move t
          (.print (printStep items s.shared pc).2)) := by
        cases pc with
        | stop => exact absurd rfl stop
        | _ => simp only [runWorker, worker]
      obtain rfl := Option.some.inj (printing.symm.trans stepped)
      have sum := sum_left_update worker (.print (printStep items s.shared pc).2)
      have less := printStep_left items s.shared stop
      rw [show (Worker.print pc).left = pc.left from rfl, show (Worker.print (printStep items s.shared pc).2).left =
        (printStep items s.shared pc).2.left from rfl] at sum
      simp only [State.left, State.move]
      omega

lemma step_left {act : Act T} (stepped : step items launch format s act = some s') :
    s'.left items launch < s.left items launch := by
  cases act with
  | take t =>
    simp only [step] at stepped
    split_ifs at stepped with away
    obtain ⟨i, next, rfl⟩ := Option.map_eq_some_iff.mp stepped
    have less : s.next < launch.length := (List.getElem?_eq_some_iff.mp next).1
    have sum := sum_left_update away (.format i)
    rw [show Worker.away.left = 0 from rfl, show (Worker.format i).left = 11 from rfl] at sum
    simp only [State.left, State.move]
    omega
  | run t => exact runWorker_left stepped
  | noLock t =>
    simp only [step] at stepped
    split_ifs at stepped with trying
    cases stepped
    have sum := sum_left_update trying .away
    rw [show Worker.tryLock.left = 9 from rfl, show Worker.away.left = 0 from rfl] at sum
    simp only [State.left, State.move]
    omega
  | sweep =>
    cases phase : s.phase with
    | parallel =>
      simp only [step, phase] at stepped
      split_ifs at stepped
      cases stepped
      simp only [State.left, phase, Phase.left, Printer.left]
      omega
    | sweep pc =>
      by_cases stop : pc = .stop
      · subst stop
        simp only [step, phase] at stepped
        cases stepped
        simp only [State.left, phase, Phase.left, Printer.left]
        omega
      · have sweeping : step items launch format s .sweep = some { s with
            shared := (printStep items s.shared pc).1, phase := .sweep (printStep items s.shared pc).2 } := by
          cases pc with
          | stop => exact absurd rfl stop
          | _ => simp only [step, phase]
        obtain rfl := Option.some.inj (sweeping.symm.trans stepped)
        have less := printStep_left items s.shared stop
        simp only [State.left, phase, Phase.left]
        omega
    | finished => simp only [step, phase, reduceCtorEq] at stepped

lemma Inv.worker_enabled (inv : Inv items launch format s pc) (working : s.workers t ≠ .away) :
    ∃ act s', HpcStruct.step items launch format s act = some s' := by
  cases worker : s.workers t with
  | away => exact absurd worker working
  | format i =>
    have valid := inv.valid t
    rw [worker] at valid
    refine ⟨.run t, ?_⟩
    simp only [HpcStruct.step, runWorker, worker, getElem?_eq_getElem valid.2]
    exact ⟨_, rfl⟩
  | setDone i =>
    refine ⟨.run t, ?_⟩
    simp only [HpcStruct.step, runWorker, worker]
    exact ⟨_, rfl⟩
  | tryLock => exact ⟨.noLock t, s.move t .away, by rw [HpcStruct.step, if_pos worker]⟩
  | print pc' =>
    refine ⟨.run t, ?_⟩
    cases pc' <;> simp only [HpcStruct.step, runWorker, worker] <;> exact ⟨_, rfl⟩

end

variable {pc : Printer}

lemma Inv.enabled {items : List WorkItem} {launch : List ℕ} {format : FileInfo → GroupInfo → ProcInfo → String} {T : ℕ}
    {s : State (T + 1)} (inv : Inv items launch format s pc) (more : s.phase ≠ .finished) :
    ∃ act s', HpcStruct.step items launch format s act = some s' := by
  cases phase : s.phase with
  | finished => exact absurd phase more
  | sweep pc' =>
    refine ⟨.sweep, ?_⟩
    cases pc' <;> simp only [HpcStruct.step, phase] <;> exact ⟨_, rfl⟩
  | parallel =>
    by_cases away : ∀ t, s.workers t = .away
    · by_cases through : launch.length ≤ s.next
      · refine ⟨.sweep, ?_⟩
        simp only [HpcStruct.step, phase]
        rw [if_pos ⟨through, away⟩]
        exact ⟨_, rfl⟩
      · refine ⟨.take 0, ?_⟩
        simp only [HpcStruct.step, if_pos (away 0), getElem?_eq_getElem (not_le.mp through)]
        exact ⟨_, rfl⟩
    · obtain ⟨t, working⟩ := not_forall.mp away
      exact inv.worker_enabled working

/-! ## Scheduling does not matter -/

/-- What was printed so far is the beginning of the output, and at the end it is the output. Each step brings the end
closer, and until then there is one. -/
structure Printed (skeleton : Skeleton) (launch : List ℕ) (format : FileInfo → GroupInfo → ProcInfo → String) {T : ℕ}
    (s : State T) : Prop where
  soFar : s.shared.out <+: skeleton.output format
  all : s.phase = .finished → s.shared.out = skeleton.output format
  closer : ∀ act s', step (workList skeleton.files) launch format s act = some s' →
    s'.left (workList skeleton.files) launch < s.left (workList skeleton.files) launch
  enabled : s.phase ≠ .finished → ∃ act s', step (workList skeleton.files) launch format s act = some s'

lemma progress_extends_text (format : FileInfo → GroupInfo → ProcInfo → String) (w : WorkItem) (pc : Printer) :
    pc.progress format w <+: w.events format := by
  cases pc with
  | check => exact nil_prefix
  | first => exact nil_prefix
  | proc => exact (prefix_append _ _).trans (prefix_append _ _)
  | last => exact prefix_append _ _
  | advance => exact prefix_rfl
  | stop => exact nil_prefix

lemma Shared.Inv.out_prefix {items : List WorkItem} {format : FileInfo → GroupInfo → ProcInfo → String} {g : Shared}
    (inv : g.Inv items format pc) : g.out <+: items.flatMap (events format) := by
  have whole := take_append_drop g.numDone items
  rw [inv.out]
  conv_rhs => rw [← whole, flatMap_append]
  refine (prefix_append_right_inj _).mpr ?_
  cases here : items[g.numDone]? with
  | none => exact nil_prefix
  | some w =>
    obtain ⟨less, found⟩ := List.getElem?_eq_some_iff.mp here
    rw [drop_eq_getElem_cons less, found, flatMap_cons]
    exact (progress_extends_text format w pc).trans (prefix_append _ _)

lemma Inv.printed {skeleton : Skeleton} {launch : List ℕ} {format : FileInfo → GroupInfo → ProcInfo → String} {T : ℕ}
    {s : State (T + 1)} (inv : Inv (workList skeleton.files) launch format s pc) :
    Printed skeleton launch format s := by
  refine ⟨?_, fun finished => ?_, fun act s' => step_left, inv.enabled⟩
  · rw [← events_workList skeleton]
    exact inv.shared.out_prefix
  · have ends := inv.finished finished
    rw [← events_workList skeleton, inv.shared.out, take_of_length_le ends, getElem?_eq_none ends]
    exact append_nil _

/-- For every launch list that `makeWorkList` can make, every number of threads and every interleaving of their steps:
the launch list is a permutation of the print list, and the output is that of the skeleton. -/
theorem output_of_skeleton {D : Type} [LinearOrder D] (square : UInt64 → D) (threshold : List D → ℕ → D) (jobs : ℕ)
    (skeleton : Skeleton) (launch : List ℕ) (format : FileInfo → GroupInfo → ProcInfo → String) (T : ℕ)
    (isLaunch : IsLaunchList square threshold (workList skeleton.files) jobs launch) :
    launch.Perm (range (workList skeleton.files).length) ∧
      ∀ s : State (T + 1), Reachable (step (workList skeleton.files) launch format) {} s →
        Printed skeleton launch format s := by
  refine ⟨isLaunch.perm, fun s reached => ?_⟩
  obtain ⟨pc, inv⟩ := inv_of_reachable isLaunch.perm reached
  exact inv.printed

/-! ## Two files and two threads -/

def smallGroup : GroupInfo := ⟨0, 10, [⟨"f", "f", 0, 1, false⟩]⟩

/-- The second function of the group is contained in the first. -/
def largeGroup : GroupInfo := ⟨10, 1000, [⟨"g", "g()", 10, 1, false⟩, ⟨"targ20", "targ20", 32, 2, false⟩]⟩

def twoFiles : Skeleton where
  files := [⟨"a.c", [smallGroup]⟩, ⟨"b.c", [largeGroup]⟩]
  names := by decide
  parsed := by decide
  fits := by decide

/-- The thread that formats the larger item, which is launched first, gets the lock first and finds nothing to print. -/
def outOfOrder (t u : Fin 2) : List (Act 2) :=
  [Act.take t, .take u] ++ replicate 5 (Act.run t) ++ replicate 2 (Act.run u) ++ [Act.noLock u] ++ replicate 13 Act.sweep

theorem twoFiles_output :
    IsLaunchList (fun size => size.toNat ^ 2) (fun costs jobs => costs.sum / (20 * jobs)) (workList twoFiles.files) 2
      [1, 0] ∧
    ∃ s : State 2, (outOfOrder 0 1).foldlM (step (workList twoFiles.files) [1, 0] fun _ _ p => p.prettyName) {} = some s ∧
      s.shared.out = [.fileBegin ⟨"a.c", [smallGroup]⟩, .proc ⟨"a.c", [smallGroup]⟩ smallGroup "f",
        .fileEnd ⟨"a.c", [smallGroup]⟩, .fileBegin ⟨"b.c", [largeGroup]⟩,
        .proc ⟨"b.c", [largeGroup]⟩ largeGroup "g()", .fileEnd ⟨"b.c", [largeGroup]⟩] ∧
      Printed twoFiles [1, 0] (fun _ _ p => p.prettyName) s := by
  have isLaunch : IsLaunchList (fun size => size.toNat ^ 2) (fun costs jobs => costs.sum / (20 * jobs))
      (workList twoFiles.files) 2 [1, 0] := by
    rw [IsLaunchList, if_neg (by decide)]
    exact ⟨[1], by decide, pairwise_singleton _ _, by decide⟩
  have ran : ((outOfOrder 0 1).foldlM (step (workList twoFiles.files) [1, 0] fun _ _ p => p.prettyName) {}).map
      (fun s => s.shared.out) = some [.fileBegin ⟨"a.c", [smallGroup]⟩, .proc ⟨"a.c", [smallGroup]⟩ smallGroup "f",
        .fileEnd ⟨"a.c", [smallGroup]⟩, .fileBegin ⟨"b.c", [largeGroup]⟩,
        .proc ⟨"b.c", [largeGroup]⟩ largeGroup "g()", .fileEnd ⟨"b.c", [largeGroup]⟩] := by
    decide
  obtain ⟨s, final, out⟩ := Option.map_eq_some_iff.mp ran
  refine ⟨isLaunch, s, final, out, ?_⟩
  exact (output_of_skeleton _ _ 2 twoFiles [1, 0] _ 1 isLaunch).2 s (Reachable.start.run final)

end HpcToolkit.HpcStruct
