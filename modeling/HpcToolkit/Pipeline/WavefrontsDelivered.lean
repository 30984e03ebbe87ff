import HpcToolkit.Pipeline.Wavefronts

/-! # Delivery of the wavefronts

Once a class has passed, every sink has been told of it or some thread still owes it to the sink. A sink that
has been told of all classes has nothing to wait for, so that its last notification has all it requested.
-/

open Function
open List hiding mem_range
open Finset (inter_subset_right mem_biUnion mem_insert mem_inter mem_range notMem_empty)


namespace HpcToolkit.Pipeline

open Lib

section
variable {setup : Setup} {finalizeRequest : ℕ → DataClass → DataClass} {schedule : Schedule} {T : ℕ}
  {s s' : Team T Waves Job}

/-! ## Telling the sinks -/

/-- Whether a thread is about to tell a sink of a class. -/
def owes (d : Data) (e : ℕ) : Option Job → Prop
  | some (.notify newwaves rest) => d ∈ newwaves ∧ e ∈ rest
  | some (.deliver _ _ newwaves rest) => d ∈ newwaves ∧ e ∈ rest
  | _ => False

/-- A sink knows of a class, or some thread is about to tell it. -/
def Told (s : Team T Waves Job) (d : Data) (e : ℕ) : Prop :=
  d ∈ (s.shared.status e).wavefrontState ∨ ∃ t, owes d e (s.current t)

variable {d : Data} {e : ℕ} {rest : Option Job}

lemma exists_owes_update {t : Fin T} (owed : ∃ u, owes d e (s.current u))
    (keeps : owes d e (s.current t) → owes d e rest) : ∃ u, owes d e (update s.current t rest u) := by
  obtain ⟨u, owing⟩ := owed
  by_cases same : u = t
  · subst same
    exact ⟨u, by rw [update_self]; exact keeps owing⟩
  · exact ⟨u, by rwa [update_of_ne same]⟩

lemma state_subset (step : Step (wavefronts setup finalizeRequest schedule) s s') (e : ℕ) :
    (s.shared.status e).wavefrontState ⊆ (s'.shared.status e).wavefrontState := by
  rcases step_tells step with ⟨status, -⟩ | ⟨k, newwaves, out, rfl, status, -⟩
  · rw [status]
  · by_cases same : e = k
    · rw [status, same, update_self, SinkEntry.notify_state]
      exact Finset.subset_union_left
    · rw [status, update_of_ne same]

lemma Told.step (told : Told s d e) (step : Step (wavefronts setup finalizeRequest schedule) s s') :
    Told s' d e := by
  rcases told with known | owed
  · exact .inl (state_subset step e known)
  cases step with
  | @take t i idle inside iteration free order =>
    refine .inr (exists_owes_update owed fun owing => ?_)
    rw [idle] at owing
    exact owing.elim
  | @work t job w rest busy works =>
    cases job with
    | read c i =>
      refine .inr (exists_owes_update owed fun owing => ?_)
      rw [busy] at owing
      exact owing.elim
    | count c =>
      refine .inr (exists_owes_update owed fun owing => ?_)
      rw [busy] at owing
      exact owing.elim
    | notify newwaves sinks =>
      cases sinks with
      | nil =>
        refine .inr (exists_owes_update owed fun owing => ?_)
        rw [busy] at owing
        exact absurd owing.2 not_mem_nil
      | cons i sinks =>
        cases works
        by_cases here : d ∈ newwaves ∧ e = i
        · obtain ⟨new, rfl⟩ := here
          left
          simp only [update_self, SinkEntry.notify_state, Finset.mem_union]
          exact .inr new
        · refine .inr (exists_owes_update owed fun owing => ?_)
          rw [busy] at owing
          have later := (mem_cons.mp owing.2).resolve_left fun same => here ⟨owing.1, same⟩
          split
          · exact ⟨owing.1, later⟩
          · exact ⟨owing.1, later⟩
    | deliver i allwaves newwaves sinks =>
      cases works
      refine .inr (exists_owes_update owed fun owing => ?_)
      rw [busy] at owing
      exact owing
  | move idle inside exhausted => exact .inr owed

/-! ## What is delivered in the end -/

structure Announced (setup : Setup) (s : Team T Waves Job) : Prop where
  wave : ∀ d ∈ setup.scheduledWaves, s.shared.countdowns d = 0 → ∀ e < setup.sinks.length, Told s d e
  unscheduled : ∀ e, (0, e) ∈ s.taken → ∀ d ∈ setup.unscheduledWaves, Told s d e
  settled : ∀ e, (s.shared.status e).wavefrontState ∩ (setup.pipe.entries e).waveLimit ⊆
      (s.shared.status e).wavefrontDelivered ∨
    ¬ (setup.pipe.entries e).wavefrontPriorDelay ∩ setup.scheduledWaves ⊆ (s.shared.status e).wavefrontState
  last : ∀ e, (s.shared.status e).wavefrontDelivered ≠ ∅ → issues s (e, (s.shared.status e).wavefrontDelivered) ≠ 0

lemma Setup.sources_of_mem_scheduled (scheduled : d ∈ setup.scheduledWaves) : setup.sources.length ≠ 0 := by
  intro nothing
  have inside := (mem_inter.mp (mem_inter.mp scheduled).2).1
  rw [length_eq_zero_iff.mp nothing] at inside
  exact absurd inside (notMem_empty d)

lemma Announced.start : Announced setup (unread setup T) where
  wave _ scheduled zero := absurd zero (Setup.sources_of_mem_scheduled scheduled)
  unscheduled _ taken := absurd taken (notMem_empty _)
  settled _ := .inl (by simp [unread, Team.start])
  last _ delivered := absurd rfl delivered

lemma told_of_countdown (step : Step (wavefronts setup finalizeRequest schedule) s s')
    (zero : s'.shared.countdowns d = 0) :
    s.shared.countdowns d = 0 ∨ ∀ e < setup.sinks.length, Told s' d e := by
  cases step with
  | take idle inside iteration free order => exact .inl zero
  | @work t job w rest busy works =>
    cases job with
    | read c i =>
      cases works
      exact .inl zero
    | count c =>
      cases works
      by_cases same : d = c
      · subst same
        simp only [update_self] at zero
        refine .inr fun e isSink => .inr ⟨t, ?_⟩
        simp only [update_self, zero, if_true]
        exact ⟨Finset.mem_singleton_self d, List.mem_range.mpr isSink⟩
      · simp only [update_of_ne same] at zero
        exact .inl zero
    | notify newwaves sinks =>
      cases sinks with
      | nil =>
        cases works
        exact .inl zero
      | cons i sinks =>
        cases works
        exact .inl zero
    | deliver i allwaves newwaves sinks =>
      cases works
      exact .inl zero
  | move idle inside exhausted => exact .inl zero

lemma told_of_taken (step : Step (wavefronts setup finalizeRequest schedule) s s')
    (taken : (0, e) ∈ s'.taken) : (0, e) ∈ s.taken ∨ ∀ d ∈ setup.unscheduledWaves, Told s' d e := by
  cases step with
  | @take t i idle inside iteration free order =>
    rcases mem_insert.mp taken with same | earlier
    · refine .inr fun d unscheduled => .inr ⟨t, ?_⟩
      obtain ⟨here, rfl⟩ := Prod.mk.inj same
      rw [← here]
      simp only [update_self]
      exact ⟨unscheduled, mem_singleton_self e⟩
    · exact .inl earlier
  | work busy works => exact .inl taken
  | move idle inside exhausted => exact .inl taken

lemma Announced.step (announced : Announced setup s) (step : Step (wavefronts setup finalizeRequest schedule) s s') :
    Announced setup s' := by
  refine ⟨fun d scheduled zero e isSink => ?_, fun e taken d unscheduled => ?_, fun e => ?_, fun e => ?_⟩
  · rcases told_of_countdown step zero with before | told
    · exact (announced.wave d scheduled before e isSink).step step
    · exact told e isSink
  · rcases told_of_taken step taken with before | told
    · exact (announced.unscheduled e before d unscheduled).step step
    · exact told d unscheduled
  · rcases step_tells step with ⟨status, -⟩ | ⟨k, newwaves, out, rfl, status, -⟩
    · rw [status]
      exact announced.settled e
    · by_cases same : e = k
      · subst same
        rw [status, update_self, SinkEntry.notify_state]
        rcases (setup.pipe.entries e).notify_cases setup.scheduledWaves newwaves (s.shared.status e) with
          ⟨-, delivered, settled⟩ | ⟨allwaves, -, delivered, value, -, -⟩
        · rw [delivered]
          exact settled
        · rw [delivered, value]
          exact .inl Finset.subset_union_right
      · rw [status, update_of_ne same]
        exact announced.settled e
  · rcases step_tells step with ⟨status, issues⟩ | ⟨k, newwaves, out, rfl, status, issues⟩
    · rw [status, issues]
      exact announced.last e
    · by_cases same : e = k
      · subst same
        rw [status, update_self, issues]
        rcases (setup.pipe.entries e).notify_cases setup.scheduledWaves newwaves (s.shared.status e) with
          ⟨-, delivered, -⟩ | ⟨allwaves, issued, delivered, -, -, -⟩
        · rw [delivered]
          intro some
          have before := announced.last e some
          omega
        · rw [delivered, issued, if_pos ⟨rfl, rfl⟩]
          omega
      · rw [status, update_of_ne same, issues]
        intro some
        have before := announced.last e some
        omega

/-! ## Every run -/

/-- The steps that are left for a thread, at most. -/
def Job.weight (setup : Setup) : Job → ℕ
  | .read _ _ => 2 * setup.sinks.length + 3
  | .count _ => 2 * setup.sinks.length + 2
  | .notify _ rest => 2 * rest.length + 1
  | .deliver _ _ _ rest => 2 * rest.length + 2

lemma work_lighter {w w' : Waves} {job : Job}
    (works : work setup finalizeRequest w job = (w', rest)) : weightOf (Job.weight setup) rest < job.weight setup := by
  cases job with
  | read d i =>
    cases works
    simp [Job.weight]
  | count d =>
    cases works
    split
    · simp [Job.weight]
    · simp [Job.weight]
  | notify newwaves sinks =>
    cases sinks with
    | nil =>
      cases works
      simp [Job.weight]
    | cons i sinks =>
      cases works
      split
      · simp [Job.weight]
      · simp only [weightOf_some, Job.weight, length_cons]
        omega
  | deliver i allwaves newwaves sinks =>
    cases works
    simp [Job.weight]

lemma Setup.mem_requestedWaves {k : ℕ} (limit : d ∈ setup.waveLimit k) : d ∈ setup.requestedWaves := by
  refine mem_biUnion.mpr ⟨k, mem_range.mpr ?_, limit⟩
  by_contra outside
  rw [waveLimit, getElem?_eq_none (not_lt.mp outside)] at limit
  exact absurd limit (notMem_empty d)

/-- What holds in every state of a run. -/
structure Invariant (setup : Setup) (finalizeRequest : ℕ → DataClass → DataClass) (schedule : Schedule)
    (s : Team T Waves Job) : Prop where
  passed : s.Passed (wavefronts setup finalizeRequest schedule)
  counting : Counting setup s
  sound : Sound setup s
  nested : Nested setup s
  announced : Announced setup s

lemma Invariant.of_reaches (requests : ∀ i d, d ⊆ finalizeRequest i d)
    (run : Reaches (wavefronts setup finalizeRequest schedule) (unread setup T) s) :
    Invariant setup finalizeRequest schedule s := by
  refine run.invariant ⟨Team.passed_start _, Counting.start, Sound.start, Nested.start, Announced.start⟩ ?_
  intro a b before step
  exact ⟨before.passed.step step, before.counting.step requests step, before.sound.step before.counting step,
    before.nested.step step, before.announced.step step⟩

/-- The notifications made so far: a sink is told of classes that it requested and that are complete, after the
classes of the sinks before it in the chain, and each time of more or fewer classes than the other times. -/
structure Orderly (setup : Setup) (w : Waves) : Prop where
  requested : ∀ e W, (e, W) ∈ w.notified → W ⊆ setup.waveLimit e
  complete : ∀ e W, (e, W) ∈ w.notified → ∀ d ∈ W, Complete setup w d
  delayed : ∀ e W, (e, W) ∈ w.notified → .wavefront ∈ setup.registers e →
    ∀ k < e, .wavefront ∈ setup.registers k → ∀ d ∈ setup.waveLimit k, Complete setup w d
  nested : ∀ e V W, (e, V) ∈ w.notified → (e, W) ∈ w.notified → V ⊆ W ∨ W ⊆ V
  distinct : w.notified.Nodup

lemma issues_of_mem {p : ℕ × DataClass} (made : p ∈ s.shared.notified) : issues s p ≠ 0 := by
  have positive := count_pos_iff.mpr made
  rw [issues]
  omega

lemma Invariant.orderly (invariant : Invariant setup finalizeRequest schedule s) : Orderly setup s.shared := by
  have known : ∀ e W, (e, W) ∈ s.shared.notified →
      W ⊆ (s.shared.status e).wavefrontState ∩ (setup.pipe.entries e).waveLimit := fun e W made =>
    (invariant.nested.issued e W (issues_of_mem made)).1.trans (invariant.sound.delivered e)
  refine ⟨fun e W made => ?_, fun e W made d member => ?_, fun e W made chained k less registered d limit => ?_,
    fun e V W first second => ?_, nodup_iff_count_le_one.mpr fun p => ?_⟩
  · rw [← setup.waveLimit_pipe]
    exact (known e W made).trans inter_subset_right
  · exact invariant.sound.known e d (mem_inter.mp (known e W made member)).1
  · by_cases scheduled : d ∈ setup.scheduled
    · refine invariant.sound.known e d ((invariant.nested.issued e W (issues_of_mem made)).2 ?_)
      rw [setup.wavefrontPriorDelay_eq, if_pos chained]
      refine mem_inter.mpr ⟨mem_biUnion.mpr ⟨k, ?_, limit⟩, ?_⟩
      · exact Finset.mem_filter.mpr ⟨mem_range.mpr less, registered⟩
      · exact mem_inter.mpr ⟨Setup.mem_requestedWaves limit, scheduled⟩
    · exact complete_of_notMem_scheduled (Setup.mem_requestedWaves limit) scheduled _
  · exact invariant.nested.nested e V W (issues_of_mem first) (issues_of_mem second)
  · have once := invariant.nested.once p
    rw [issues] at once
    omega

lemma Invariant.notified (invariant : Invariant setup finalizeRequest schedule s) (threads : 0 < T)
    (early : ∀ i, setup.waveLimit i ⊆ {.attributes, .references, .threads, .contexts})
    (stuck : ∀ s', ¬ Step (wavefronts setup finalizeRequest schedule) s s') (isSink : e < setup.sinks.length)
    (some : setup.waveLimit e ≠ ∅) : (e, setup.waveLimit e) ∈ s.shared.notified := by
  obtain ⟨idle, taken⟩ := invariant.passed.stuck stuck threads fun job => ⟨_, _, rfl⟩
  have known : ∀ {d}, Told s d e → d ∈ (s.shared.status e).wavefrontState := by
    rintro d (known | ⟨t, owing⟩)
    · exact known
    · rw [idle] at owing
      exact owing.elim
  have scheduled : setup.scheduledWaves ⊆ (s.shared.status e).wavefrontState := by
    intro d member
    obtain ⟨k, -, limit⟩ := mem_biUnion.mp (mem_inter.mp member).1
    obtain ⟨idx, low, rfl⟩ : ∃ idx < 4, waveOf idx = d := by
      have wave := early k limit
      simp only [mem_insert, Finset.mem_singleton] at wave
      rcases wave with rfl | rfl | rfl | rfl
      exacts [⟨0, by decide, rfl⟩, ⟨1, by decide, rfl⟩, ⟨2, by decide, rfl⟩, ⟨3, by decide, rfl⟩]
    refine known (invariant.announced.wave _ member ?_ e isSink)
    have none : untaken setup s.taken idx = ∅ := by
      refine Finset.filter_eq_empty_iff.mpr fun i inside => not_not.mpr (taken (idx + 1) (Nat.succ_lt_succ low) i ?_)
      simpa [wavefronts, member] using inside
    rw [invariant.counting.countdown idx low member, none]
    simp [idle, counts]
  have unscheduled : setup.unscheduledWaves ⊆ (s.shared.status e).wavefrontState := fun d member =>
    known (invariant.announced.unscheduled e (taken 0 (Nat.succ_pos 4) e isSink) d member)
  have limit : setup.waveLimit e ⊆ (s.shared.status e).wavefrontState := by
    intro d member
    have requested := Setup.mem_requestedWaves member
    by_cases isScheduled : d ∈ setup.scheduled
    · exact scheduled (mem_inter.mpr ⟨requested, isScheduled⟩)
    · exact unscheduled (Finset.mem_sdiff.mpr ⟨requested, isScheduled⟩)
  have all : (s.shared.status e).wavefrontDelivered = setup.waveLimit e := by
    have part := invariant.sound.delivered e
    have settled := (invariant.announced.settled e).resolve_right fun waits =>
      waits (inter_subset_right.trans scheduled)
    rw [setup.waveLimit_pipe] at part settled
    exact (part.trans inter_subset_right).antisymm fun d member =>
      settled (mem_inter.mpr ⟨limit member, member⟩)
  have issued := invariant.announced.last e (all ▸ some)
  rw [all, issues] at issued
  simp only [idle, delivers, Finset.sum_const_zero, Nat.add_zero] at issued
  exact count_pos_iff.mp (Nat.pos_of_ne_zero issued)

/-- Wavefront delivery: in every state of every run the notifications are orderly, a run that has come to its end
has notified every sink of all waves that it requested, and every run comes to its end. -/
theorem wavefronts_delivered (threads : 0 < T)
    (early : ∀ i, setup.waveLimit i ⊆ {.attributes, .references, .threads, .contexts})
    (requests : ∀ i d, d ⊆ finalizeRequest i d) :
    (∀ s, Reaches (wavefronts setup finalizeRequest schedule) (unread setup T) s → Orderly setup s.shared ∧
      ((∀ s', ¬ Step (wavefronts setup finalizeRequest schedule) s s') →
        ∀ e < setup.sinks.length, setup.waveLimit e ≠ ∅ → (e, setup.waveLimit e) ∈ s.shared.notified)) ∧
    ∀ run : ℕ → Team T Waves Job, ∃ n, ¬ Step (wavefronts setup finalizeRequest schedule) (run n) (run (n + 1)) := by
  refine ⟨fun s run => ?_, fun run => exists_not_step work_lighter run⟩
  have invariant := Invariant.of_reaches requests run
  exact ⟨invariant.orderly, fun stuck e isSink some => invariant.notified threads early stuck isSink some⟩

end

/-! ## One sink -/

/-- A sink that requests two waves, one of which the source does not provide. -/
def oneSink : Setup where
  sinks := [⟨{.attributes, .contexts}, {.attributes, .contexts}, []⟩]
  sources := [{.attributes}]

lemma oneSink_early : ∀ i, oneSink.waveLimit i ⊆ {.attributes, .references, .threads, .contexts}
  | 0 => by decide
  | _ + 1 => Finset.empty_subset _

/-- A run that has come to its end has notified the sink of both waves. -/
theorem oneSink_notified :
    (∀ i, oneSink.waveLimit i ⊆ {.attributes, .references, .threads, .contexts}) ∧
    ∀ s : Team 1 Waves Job, Reaches (wavefronts oneSink (fun _ d => d) .monotonic) (unread oneSink 1) s →
      (∀ s', ¬ Step (wavefronts oneSink (fun _ d => d) .monotonic) s s') →
        (0, {.attributes, .contexts}) ∈ s.shared.notified := by
  refine ⟨oneSink_early, fun s run stuck => ?_⟩
  have delivered := (wavefronts_delivered Nat.one_pos oneSink_early fun _ _ => subset_rfl).1 s run
  exact delivered.2 stuck 0 Nat.one_pos (by decide)

/-- The sink is told of its second wave together with the first, of which it has been told before. -/
theorem class_notified_twice :
    .contexts ∈ oneSink.waveLimit 0 ∧
    ∃ s : Team 1 Waves Job, Reaches (wavefronts oneSink (fun _ d => d) .monotonic) (unread oneSink 1) s ∧
      s.shared.notified = [(0, {.attributes, .contexts}), (0, {.contexts})] :=
  ⟨by decide, _, .head (.take (t := 0) (i := 0) rfl (by decide) (by decide) (by decide) (by simp)) <|
    .head (.work (t := 0) rfl rfl) <| .head (.work (t := 0) rfl rfl) <| .head (.work (t := 0) rfl rfl) <|
    .head (.move (t := 0) rfl (by decide) (by decide)) <|
    .head (.take (t := 0) (i := 0) rfl (by decide) (by decide) (by decide) (by simp)) <|
    .head (.work (t := 0) rfl rfl) <| .head (.work (t := 0) rfl rfl) <| .head (.work (t := 0) rfl rfl) <|
    .head (.work (t := 0) rfl rfl) .refl, by decide⟩

end HpcToolkit.Pipeline
