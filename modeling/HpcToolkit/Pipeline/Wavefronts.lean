import HpcToolkit.Lib.Workshare
import HpcToolkit.Pipeline.Registration

/-! # Wavefronts

The threads of the pipeline first tell every sink of the waves that no source provides. For each other wave
they let the sources read its class; the thread that counts down the last source tells the sinks. A sink gets
to know of all waves that have passed as far as it requested them, once the classes have passed that the sinks
before it in the chain wait for.
-/

open Function
open List hiding mem_filter mem_range
open Finset (mem_erase mem_filter mem_insert mem_inter mem_range mem_sdiff mem_union mem_univ notMem_empty
  subset_union_left univ)

namespace HpcToolkit.Pipeline

open Lib

/-- The class of each call of `wave`, by the index of its countdown. -/
def waveOf : ℕ → Data
  | 0 => .attributes
  | 1 => .references
  | 2 => .threads
  | _ => .contexts

/-- What `SinkEntry` keeps under its lock. -/
structure SinkStatus where
  wavefrontState : DataClass := ∅
  wavefrontDelivered : DataClass := ∅

/-- The section of `notify` under the lock: the new status, and the waves to deliver. -/
def SinkEntry.notify (e : SinkEntry) (scheduledWaves newwaves : DataClass) (status : SinkStatus) :
    SinkStatus × Option DataClass :=
  let state := status.wavefrontState ∪ newwaves
  if state ∩ e.waveLimit ⊆ status.wavefrontDelivered then ({ status with wavefrontState := state }, none)
  else if ¬ e.wavefrontPriorDelay ∩ scheduledWaves ⊆ state then ({ status with wavefrontState := state }, none)
  else
    let allwaves := status.wavefrontDelivered ∪ state ∩ e.waveLimit
    (⟨state, allwaves⟩, some allwaves)

/-- What the threads share. `notified` has the calls of `notifyWavefront`, the latest first. -/
structure Waves where
  read : ℕ → DataClass
  countdowns : Data → ℕ
  status : ℕ → SinkStatus
  notified : List (ℕ × DataClass)

/-- What a thread is at: a source to read for a wave, its countdown, some sinks to notify, or a call of
`notifyWavefront` that is to be made before more sinks are notified. -/
inductive Job where
  | read (d : Data) (i : ℕ)
  | count (d : Data)
  | notify (newwaves : DataClass) (rest : List ℕ)
  | deliver (i : ℕ) (allwaves newwaves : DataClass) (rest : List ℕ)

section
variable (setup : Setup) (finalizeRequest : ℕ → DataClass → DataClass)

def Setup.provides (i : ℕ) : DataClass := (setup.sources[i]?).getD ∅

/-- An atomic step of a job. -/
def work (w : Waves) : Job → Waves × Option Job
  | .read d i =>
    let req := (finalizeRequest i {d} \ w.read i) ∩ setup.provides i
    ({ w with read := update w.read i (w.read i ∪ req) }, some (.count d))
  | .count d =>
    let left := w.countdowns d - 1
    ({ w with countdowns := update w.countdowns d left },
      if left = 0 then some (.notify {d} (range setup.sinks.length)) else none)
  | .notify _ [] => (w, none)
  | .notify newwaves (i :: rest) =>
    let out := (setup.pipe.entries i).notify setup.scheduledWaves newwaves (w.status i)
    ({ w with status := update w.status i out.1 },
      match out.2 with
      | none => some (.notify newwaves rest)
      | some allwaves => some (.deliver i allwaves newwaves rest))
  | .deliver i allwaves newwaves rest =>
    ({ w with notified := (i, allwaves) :: w.notified }, some (.notify newwaves rest))

/-- The loops of `ProfilePipeline::run` up to the last early wave. -/
def wavefronts (schedule : Schedule) : Workshare Waves Job where
  schedule := schedule
  loops := 5
  iterations
    | 0 => setup.sinks.length
    | idx + 1 => if waveOf idx ∈ setup.scheduledWaves then setup.sources.length else 0
  job
    | 0, i => .notify setup.unscheduledWaves [i]
    | idx + 1, i => .read (waveOf idx) i
  work w job w' rest := work setup finalizeRequest w job = (w', rest)

/-- Nothing is read, and no sink knows of any wave. -/
def unread (T : ℕ) : Team T Waves Job :=
  .start ⟨fun _ => ∅, fun _ => setup.sources.length, fun _ => {}, []⟩

end

/-- All sources that provide a class have read it. -/
def Complete (setup : Setup) (w : Waves) (d : Data) : Prop :=
  ∀ i < setup.sources.length, d ∈ setup.provides i → d ∈ w.read i

/-! ## Notifying one sink -/

section
variable (e : SinkEntry) (scheduledWaves newwaves : DataClass) (status : SinkStatus)

lemma SinkEntry.notify_state : (e.notify scheduledWaves newwaves status).1.wavefrontState =
    status.wavefrontState ∪ newwaves := by
  rw [notify]
  split
  · rfl
  · split <;> rfl

lemma SinkEntry.notify_cases :
    ((e.notify scheduledWaves newwaves status).2 = none ∧
      (e.notify scheduledWaves newwaves status).1.wavefrontDelivered = status.wavefrontDelivered ∧
      ((status.wavefrontState ∪ newwaves) ∩ e.waveLimit ⊆ status.wavefrontDelivered ∨
        ¬ e.wavefrontPriorDelay ∩ scheduledWaves ⊆ status.wavefrontState ∪ newwaves)) ∨
    ∃ allwaves, (e.notify scheduledWaves newwaves status).2 = some allwaves ∧
      (e.notify scheduledWaves newwaves status).1.wavefrontDelivered = allwaves ∧
      allwaves = status.wavefrontDelivered ∪ (status.wavefrontState ∪ newwaves) ∩ e.waveLimit ∧
      ¬ (status.wavefrontState ∪ newwaves) ∩ e.waveLimit ⊆ status.wavefrontDelivered ∧
      e.wavefrontPriorDelay ∩ scheduledWaves ⊆ status.wavefrontState ∪ newwaves := by
  rw [notify]
  split
  · rename_i old
    exact .inl ⟨rfl, rfl, .inl old⟩
  · rename_i new
    split
    · rename_i early
      exact .inl ⟨rfl, rfl, .inr early⟩
    · rename_i late
      exact .inr ⟨_, rfl, rfl, rfl, new, not_not.mp late⟩

end

end HpcToolkit.Pipeline

/-! # Runs of the wavefronts

A countdown is the number of sources that are still to be read and counted for its wave. So the thread that
counts down to zero tells of a class that all sources have read, and the sinks know of complete classes only.
-/

namespace HpcToolkit.Pipeline

open Lib

section
variable {setup : Setup} {finalizeRequest : ℕ → DataClass → DataClass} {schedule : Schedule} {T : ℕ}
  {s s' : Team T Waves Job}

/-! ## Countdowns -/

/-- Whether a thread is about to count down a class. -/
def counts (d : Data) : Option Job → ℕ
  | some (.read c _) => if c = d then 1 else 0
  | some (.count c) => if c = d then 1 else 0
  | _ => 0

lemma counts_none (d : Data) : counts d none = 0 := rfl

lemma counts_read (c d : Data) (i : ℕ) : counts d (some (.read c i)) = if c = d then 1 else 0 := rfl

/-- The iterations of a wave that no thread has taken. -/
def untaken (setup : Setup) (taken : Finset (ℕ × ℕ)) (idx : ℕ) : Finset ℕ :=
  (Finset.range setup.sources.length).filter fun i => (idx + 1, i) ∉ taken

structure Counting (setup : Setup) (s : Team T Waves Job) : Prop where
  placed : ∀ t d, counts d (s.current t) ≠ 0 → ∃ idx < 4, waveOf idx = d ∧ d ∈ setup.scheduledWaves
  countdown : ∀ idx < 4, waveOf idx ∈ setup.scheduledWaves →
    s.shared.countdowns (waveOf idx) =
      (untaken setup s.taken idx).card + ∑ t, counts (waveOf idx) (s.current t)
  read : ∀ idx < 4, ∀ i, (idx + 1, i) ∈ s.taken → waveOf idx ∈ setup.provides i →
    waveOf idx ∈ s.shared.read i ∨ ∃ t, s.current t = some (.read (waveOf idx) i)

lemma waveOf_inj : ∀ a < 4, ∀ b < 4, waveOf a = waveOf b → a = b := by
  decide

lemma Counting.start : Counting setup (unread setup T) where
  placed t d counted := absurd rfl counted
  countdown idx _ _ := by
    have all : untaken setup (unread setup T).taken idx = Finset.range setup.sources.length :=
      Finset.filter_true_of_mem fun i _ => notMem_empty _
    rw [all, Finset.card_range]
    simp [unread, Team.start, counts]
  read idx _ i taken := absurd taken (notMem_empty _)

variable {d : Data} {t : Fin T}

lemma Counting.complete (counting : Counting setup s) (busy : s.current t = some (.count d))
    (last : s.shared.countdowns d - 1 = 0) : Complete setup s.shared d := by
  obtain ⟨idx, low, rfl, scheduled⟩ := counting.placed t d (by simp [busy, counts])
  have countdown := counting.countdown idx low scheduled
  have mine : counts (waveOf idx) (s.current t) = 1 := by simp [busy, counts]
  have others := Finset.add_sum_erase univ (fun u => counts (waveOf idx) (s.current u)) (mem_univ t)
  simp only [mine] at others
  have none : (untaken setup s.taken idx).card = 0 := by omega
  have idle : ∑ u ∈ univ.erase t, counts (waveOf idx) (s.current u) = 0 := by omega
  intro i inside provided
  have taken : (idx + 1, i) ∈ s.taken := by
    by_contra free
    have left : i ∈ untaken setup s.taken idx := mem_filter.mpr ⟨mem_range.mpr inside, free⟩
    rw [Finset.card_eq_zero.mp none] at left
    cases left
  rcases counting.read idx low i taken provided with done | ⟨u, reading⟩
  · exact done
  · have other : u ≠ t := by
      rintro rfl
      rw [busy] at reading
      cases reading
    have quiet := Finset.sum_eq_zero_iff.mp idle u (mem_erase.mpr ⟨other, mem_univ u⟩)
    simp [reading, counts] at quiet

lemma Counting.countdown_pos (counting : Counting setup s)
    (busy : s.current t = some (.count d)) : 0 < s.shared.countdowns d := by
  obtain ⟨idx, low, rfl, scheduled⟩ := counting.placed t d (by simp [busy, counts])
  have mine : counts (waveOf idx) (s.current t) = 1 := by simp [busy, counts]
  have sum : counts (waveOf idx) (s.current t) ≤ ∑ u, counts (waveOf idx) (s.current u) :=
    Finset.single_le_sum (f := fun u => counts (waveOf idx) (s.current u)) (fun _ _ => Nat.zero_le _) (mem_univ t)
  rw [counting.countdown idx low scheduled]
  omega

variable {w : Waves} {rest : Option Job}

lemma Counting.update (counting : Counting setup s)
    (placed : ∀ d, counts d rest ≠ 0 → counts d (s.current t) ≠ 0)
    (countdown : ∀ d, w.countdowns d + counts d (s.current t) = s.shared.countdowns d + counts d rest)
    (grows : ∀ i, s.shared.read i ⊆ w.read i)
    (finished : ∀ d i, s.current t = some (.read d i) → d ∈ setup.provides i → d ∈ w.read i) :
    Counting setup { s with shared := w, current := update s.current t rest } := by
  refine ⟨fun u d counted => ?_, fun idx low scheduled => ?_, fun idx low i taken provided => ?_⟩
  · by_cases same : u = t
    · subst same
      simp only [update_self] at counted
      exact counting.placed u d (placed d counted)
    · simp only [update_of_ne same] at counted
      exact counting.placed u d counted
  · have sum := sum_update (counts (waveOf idx)) s.current t rest
    have before := counting.countdown idx low scheduled
    have changed := countdown (waveOf idx)
    dsimp only
    omega
  · rcases counting.read idx low i taken provided with done | ⟨u, reading⟩
    · exact .inl (grows i done)
    · by_cases same : u = t
      · subst same
        exact .inl (finished _ _ reading provided)
      · exact .inr ⟨u, (update_of_ne same ..).trans reading⟩

variable {job : Job}

lemma Counting.quiet (counting : Counting setup s)
    (busy : s.current t = some job) (before : ∀ d, counts d (some job) = 0) (after : ∀ d, counts d rest = 0)
    (countdowns : w.countdowns = s.shared.countdowns) (read : w.read = s.shared.read) :
    Counting setup { s with shared := w, current := Function.update s.current t rest } := by
  refine counting.update (fun d counted => absurd (after d) counted) (fun d => ?_) (fun i => ?_) fun d i reading => ?_
  · rw [busy, before, after, countdowns]
  · rw [read]
  · rw [busy] at reading
    have counted := before d
    simp [Option.some_inj.mp reading, counts] at counted

lemma Counting.work (counting : Counting setup s) (requests : ∀ i d, d ⊆ finalizeRequest i d)
    (busy : s.current t = some job)
    (works : work setup finalizeRequest s.shared job = (w, rest)) :
    Counting setup { s with shared := w, current := Function.update s.current t rest } := by
  cases job with
  | read d i =>
    cases works
    refine counting.update (fun c => ?_) (fun c => ?_) (fun k => ?_) fun c k reading provided => ?_
    · simp [busy, counts]
    · simp [busy, counts]
    · by_cases same : k = i
      · subst same
        simp
      · simp [same]
    · rw [busy] at reading
      cases reading
      have requested : d ∈ finalizeRequest i {d} := requests i {d} (Finset.mem_singleton_self d)
      simp only [update_self, mem_union, mem_inter, mem_sdiff]
      by_cases known : d ∈ s.shared.read i
      · exact .inl known
      · exact .inr ⟨⟨requested, known⟩, provided⟩
  | count d =>
    cases works
    have positive := counting.countdown_pos busy
    have quiet : ∀ c, counts c (if s.shared.countdowns d - 1 = 0 then
        some (.notify {d} (range setup.sinks.length)) else none) = 0 := by
      intro c
      split <;> rfl
    refine counting.update (fun c counted => absurd (quiet c) counted) (fun c => ?_) (fun k => subset_rfl)
      fun c k reading => by rw [busy] at reading; cases reading
    rw [quiet, busy, counts]
    by_cases same : c = d
    · subst same
      simp only [update_self, if_pos]
      omega
    · simp [same, Ne.symm same]
  | notify newwaves sinks =>
    cases sinks with
    | nil =>
      cases works
      exact counting.quiet busy (fun _ => rfl) (fun _ => rfl) rfl rfl
    | cons i sinks =>
      cases works
      refine counting.quiet busy (fun _ => rfl) (fun _ => ?_) rfl rfl
      split <;> rfl
  | deliver i allwaves newwaves sinks =>
    cases works
    exact counting.quiet busy (fun _ => rfl) (fun _ => rfl) rfl rfl

variable {taken : Finset (ℕ × ℕ)}

lemma untaken_insert_of_ne {l i idx : ℕ} (other : idx + 1 ≠ l) :
    untaken setup (insert (l, i) taken) idx = untaken setup taken idx := by
  refine Finset.filter_congr fun k _ => ?_
  simp [other]

lemma card_untaken_insert {i idx : ℕ} (inside : i < setup.sources.length)
    (free : (idx + 1, i) ∉ taken) :
    (untaken setup (insert (idx + 1, i) taken) idx).card + 1 = (untaken setup taken idx).card := by
  have member : i ∈ untaken setup taken idx := mem_filter.mpr ⟨mem_range.mpr inside, free⟩
  have rest : untaken setup (insert (idx + 1, i) taken) idx = (untaken setup taken idx).erase i := by
    ext k
    simp only [untaken, mem_filter, mem_insert, Prod.mk.injEq, true_and, not_or, mem_erase]
    tauto
  rw [rest, Finset.card_erase_add_one member]

variable {l i : ℕ}

lemma take_cases (inside : l < (wavefronts setup finalizeRequest schedule).loops)
    (iteration : i < (wavefronts setup finalizeRequest schedule).iterations l) :
    (l = 0 ∧ i < setup.sinks.length) ∨
      ∃ idx < 4, l = idx + 1 ∧ waveOf idx ∈ setup.scheduledWaves ∧ i < setup.sources.length := by
  cases l with
  | zero => exact .inl ⟨rfl, iteration⟩
  | succ idx =>
    have some : i < if waveOf idx ∈ setup.scheduledWaves then setup.sources.length else 0 := iteration
    split at some
    · rename_i scheduled
      exact .inr ⟨idx, Nat.lt_of_succ_lt_succ inside, rfl, scheduled, some⟩
    · cases some

lemma Counting.takeSink (counting : Counting setup s) (idle : s.current t = none) (i : ℕ) :
    Counting setup { s with
      current := Function.update s.current t (some (.notify setup.unscheduledWaves [i]))
      taken := insert (0, i) s.taken } := by
  have moved : Counting setup { s with
      current := Function.update s.current t (some (.notify setup.unscheduledWaves [i])) } :=
    counting.update (fun d counted => absurd rfl counted) (fun d => by rw [idle]; rfl) (fun k => subset_rfl)
      fun d k reading => by rw [idle] at reading; cases reading
  refine ⟨moved.placed, fun idx low scheduled => ?_, fun idx low k taken provided => ?_⟩
  · rw [untaken_insert_of_ne (Nat.succ_ne_zero idx)]
    exact moved.countdown idx low scheduled
  · rcases mem_insert.mp taken with same | earlier
    · cases same
    · exact moved.read idx low k earlier provided

lemma Counting.takeSource (counting : Counting setup s) (idle : s.current t = none) {idx i : ℕ}
    (low : idx < 4) (scheduled : waveOf idx ∈ setup.scheduledWaves) (inside : i < setup.sources.length)
    (free : (idx + 1, i) ∉ s.taken) :
    Counting setup { s with
      current := Function.update s.current t (some (.read (waveOf idx) i))
      taken := insert (idx + 1, i) s.taken } := by
  refine ⟨fun u d counted => ?_, fun k lowK scheduledK => ?_, fun k lowK j taken provided => ?_⟩
  · by_cases same : u = t
    · subst same
      simp only [update_self, counts, ne_eq, ite_eq_right_iff, one_ne_zero, imp_false, not_not] at counted
      exact ⟨idx, low, counted, counted ▸ scheduled⟩
    · simp only [update_of_ne same] at counted
      exact counting.placed u d counted
  · have sum := sum_update (counts (waveOf k)) s.current t (some (.read (waveOf idx) i))
    have before := counting.countdown k lowK scheduledK
    rw [idle, counts_none, counts_read] at sum
    dsimp only
    by_cases same : k = idx
    · subst same
      have card := card_untaken_insert inside free
      rw [if_pos rfl] at sum
      omega
    · rw [untaken_insert_of_ne (by omega)]
      rw [if_neg fun wave => same (waveOf_inj k lowK idx low wave.symm)] at sum
      omega
  · rcases mem_insert.mp taken with same | earlier
    · cases same
      exact .inr ⟨t, update_self ..⟩
    · rcases counting.read k lowK j earlier provided with done | ⟨u, reading⟩
      · exact .inl done
      · have other : u ≠ t := by
          rintro rfl
          rw [idle] at reading
          cases reading
        exact .inr ⟨u, (update_of_ne other ..).trans reading⟩

lemma Counting.step (counting : Counting setup s) (requests : ∀ i d, d ⊆ finalizeRequest i d)
    (step : Step (wavefronts setup finalizeRequest schedule) s s') : Counting setup s' := by
  cases step with
  | @take t i idle inside iteration free order =>
    rcases take_cases inside iteration with ⟨here, -⟩ | ⟨idx, low, here, scheduled, source⟩
    · rw [here]
      exact counting.takeSink idle i
    · rw [here] at free ⊢
      exact counting.takeSource idle low scheduled source free
  | work busy works => exact counting.work requests busy works
  | move idle inside exhausted => exact ⟨counting.placed, counting.countdown, counting.read⟩

/-! ## Classes that no source provides -/

lemma mem_foldl_union {α : Type} (f : α → DataClass) {xs : List α} {start : DataClass} :
    d ∈ xs.foldl (fun all x => all ∪ f x) start ↔ d ∈ start ∨ ∃ x ∈ xs, d ∈ f x := by
  induction xs generalizing start with
  | nil => simp
  | cons x rest hypothesis =>
    simp only [foldl_cons, hypothesis, mem_union, mem_cons, exists_eq_or_imp, or_assoc]

lemma Setup.mem_scheduled {i : ℕ} (inside : i < setup.sources.length) (provided : d ∈ setup.provides i)
    (requested : d ∈ setup.requestedWaves) : d ∈ setup.scheduled := by
  obtain ⟨k, isSink, limit⟩ := Finset.mem_biUnion.mp requested
  have bound := mem_range.mp isSink
  rw [waveLimit, getElem?_eq_getElem bound] at limit
  rw [provides, getElem?_eq_getElem inside] at provided
  have source : d ∈ setup.sources.foldl (· ∪ ·) ∅ :=
    (mem_foldl_union id).mpr (.inr ⟨_, getElem_mem inside, provided⟩)
  have accepted : d ∈ setup.allRequested :=
    (mem_foldl_union SinkSetup.dataLimit).mpr (.inr ⟨_, getElem_mem bound, (mem_inter.mp limit).1⟩)
  exact mem_inter.mpr ⟨source, accepted⟩

lemma complete_of_notMem_scheduled (requested : d ∈ setup.requestedWaves)
    (unscheduled : d ∉ setup.scheduled) (w : Waves) : Complete setup w d :=
  fun _ inside provided => absurd (Setup.mem_scheduled inside provided requested) unscheduled

lemma complete_of_unscheduled (unscheduled : d ∈ setup.unscheduledWaves) (w : Waves) :
    Complete setup w d :=
  complete_of_notMem_scheduled (mem_sdiff.mp unscheduled).1 (mem_sdiff.mp unscheduled).2 w

lemma Complete.mono {w w' : Waves} (complete : Complete setup w d) (grows : ∀ i, w.read i ⊆ w'.read i) :
    Complete setup w' d :=
  fun i inside provided => grows i (complete i inside provided)

/-! ## Notifications -/

/-- Whether a thread is about to make a call of `notifyWavefront`. -/
def delivers (p : ℕ × DataClass) : Option Job → ℕ
  | some (.deliver i allwaves _ _) => if (i, allwaves) = p then 1 else 0
  | _ => 0

lemma delivers_notify (p : ℕ × DataClass) (newwaves : DataClass) (rest : List ℕ) :
    delivers p (some (.notify newwaves rest)) = 0 := rfl

lemma delivers_deliver (p : ℕ × DataClass) (i : ℕ) (allwaves newwaves : DataClass) (rest : List ℕ) :
    delivers p (some (.deliver i allwaves newwaves rest)) = if p.1 = i ∧ allwaves = p.2 then 1 else 0 := by
  rw [delivers]
  exact if_congr (by rw [Prod.ext_iff, eq_comm]) rfl rfl

/-- How often a notification is made or about to be made. -/
def issues (s : Team T Waves Job) (p : ℕ × DataClass) : ℕ :=
  s.shared.notified.count p + ∑ t, delivers p (s.current t)

lemma issues_update {p : ℕ × DataClass}
    (same : w.notified.count p + delivers p rest = s.shared.notified.count p + delivers p (s.current t)) :
    issues { s with shared := w, current := update s.current t rest } p = issues s p := by
  have sum := sum_update (delivers p) s.current t rest
  simp only [issues]
  omega

/-- The classes that a thread tells of. -/
def newwavesOf : Option Job → DataClass
  | some (.notify newwaves _) => newwaves
  | some (.deliver _ _ newwaves _) => newwaves
  | _ => ∅

/-- Sinks are told of complete classes only, and are notified of what they know of and request. -/
structure Sound (setup : Setup) (s : Team T Waves Job) : Prop where
  known : ∀ e, ∀ d ∈ (s.shared.status e).wavefrontState, Complete setup s.shared d
  told : ∀ t, ∀ d ∈ newwavesOf (s.current t), Complete setup s.shared d
  delivered : ∀ e, (s.shared.status e).wavefrontDelivered ⊆
    (s.shared.status e).wavefrontState ∩ (setup.pipe.entries e).waveLimit

/-- The notifications of a sink are different and nested, and none is made early. -/
structure Nested (setup : Setup) (s : Team T Waves Job) : Prop where
  issued : ∀ e W, issues s (e, W) ≠ 0 → W ⊆ (s.shared.status e).wavefrontDelivered ∧
    (setup.pipe.entries e).wavefrontPriorDelay ∩ setup.scheduledWaves ⊆ (s.shared.status e).wavefrontState
  nested : ∀ e V W, issues s (e, V) ≠ 0 → issues s (e, W) ≠ 0 → V ⊆ W ∨ W ⊆ V
  once : ∀ p, issues s p ≤ 1

lemma Sound.start : Sound setup (unread setup T) where
  known _ d known := absurd known (notMem_empty d)
  told _ d told := absurd told (notMem_empty d)
  delivered _ := Finset.empty_subset _

lemma Nested.start : Nested setup (unread setup T) := by
  have never : ∀ p, issues (unread setup T) p = 0 := fun p => by simp [issues, unread, Team.start, delivers]
  refine ⟨fun e W issued => absurd (never _) issued, fun e V W first => absurd (never _) first, fun p => ?_⟩
  rw [never]
  exact Nat.zero_le 1

lemma Sound.quiet (sound : Sound setup s)
    (grows : ∀ i, s.shared.read i ⊆ w.read i) (told : ∀ d ∈ newwavesOf rest, Complete setup w d)
    (status : w.status = s.shared.status) :
    Sound setup { s with shared := w, current := update s.current t rest } := by
  refine ⟨fun e d known => ?_, fun u d isTold => ?_, fun e => ?_⟩
  · rw [status] at known
    exact (sound.known e d known).mono grows
  · by_cases same : u = t
    · subst same
      simp only [update_self] at isTold
      exact told d isTold
    · simp only [update_of_ne same] at isTold
      exact (sound.told u d isTold).mono grows
  · rw [status]
    exact sound.delivered e

lemma Sound.tell (sound : Sound setup s) {e : ℕ} {status : SinkStatus}
    (state : status.wavefrontState = (s.shared.status e).wavefrontState ∪ newwavesOf (s.current t))
    (delivered : status.wavefrontDelivered ⊆ status.wavefrontState ∩ (setup.pipe.entries e).waveLimit)
    (told : newwavesOf rest = newwavesOf (s.current t)) :
    Sound setup { s with
      shared := { s.shared with status := update s.shared.status e status }
      current := update s.current t rest } := by
  refine ⟨fun k d known => ?_, fun u d isTold => ?_, fun k => ?_⟩
  · by_cases same : k = e
    · subst same
      simp only [update_self, state, mem_union] at known
      exact known.elim (sound.known k d) (sound.told t d)
    · simp only [update_of_ne same] at known
      exact sound.known k d known
  · by_cases same : u = t
    · subst same
      simp only [update_self, told] at isTold
      exact sound.told u d isTold
    · simp only [update_of_ne same] at isTold
      exact sound.told u d isTold
  · by_cases same : k = e
    · subst same
      simpa only [update_self] using delivered
    · simpa only [update_of_ne same] using sound.delivered k

lemma Nested.quiet (nested : Nested setup s) (same : ∀ p, issues s' p = issues s p)
    (delivered : ∀ e, (s.shared.status e).wavefrontDelivered ⊆ (s'.shared.status e).wavefrontDelivered)
    (state : ∀ e, (s.shared.status e).wavefrontState ⊆ (s'.shared.status e).wavefrontState) : Nested setup s' := by
  refine ⟨fun e W issued => ?_, fun e V W first second => ?_, fun p => ?_⟩
  · rw [same] at issued
    obtain ⟨part, late⟩ := nested.issued e W issued
    exact ⟨part.trans (delivered e), late.trans (state e)⟩
  · rw [same] at first second
    exact nested.nested e V W first second
  · rw [same]
    exact nested.once p

lemma Nested.issue (nested : Nested setup s) {e : ℕ} {W : DataClass}
    (others : ∀ p, p ≠ (e, W) → issues s' p = issues s p) (this : issues s' (e, W) = issues s (e, W) + 1)
    (more : (s.shared.status e).wavefrontDelivered ⊂ W) (all : (s'.shared.status e).wavefrontDelivered = W)
    (late : (setup.pipe.entries e).wavefrontPriorDelay ∩ setup.scheduledWaves ⊆ (s'.shared.status e).wavefrontState)
    (frame : ∀ k, k ≠ e → s'.shared.status k = s.shared.status k) : Nested setup s' := by
  have fresh : issues s (e, W) = 0 := by
    by_contra issued
    exact more.2 (nested.issued e W issued).1
  have before : ∀ V, V ≠ W → issues s' (e, V) ≠ 0 → V ⊆ W := by
    intro V different issued
    rw [others _ fun same => different (Prod.mk.inj same).2] at issued
    exact (nested.issued e V issued).1.trans more.1
  refine ⟨fun k V issued => ?_, fun k V U first second => ?_, fun p => ?_⟩
  · by_cases same : k = e
    · subst same
      rw [all]
      refine ⟨?_, late⟩
      by_cases isThis : V = W
      · rw [isThis]
      · exact before V isThis issued
    · rw [others _ fun equal => same (Prod.mk.inj equal).1] at issued
      rw [frame k same]
      exact nested.issued k V issued
  · by_cases same : k = e
    · subst same
      by_cases isFirst : V = W
      · subst isFirst
        by_cases isSecond : U = V
        · exact .inl isSecond.symm.subset
        · exact .inr (before U isSecond second)
      · by_cases isSecond : U = W
        · subst isSecond
          exact .inl (before V isFirst first)
        · rw [others _ fun equal => isFirst (Prod.mk.inj equal).2] at first
          rw [others _ fun equal => isSecond (Prod.mk.inj equal).2] at second
          exact nested.nested k V U first second
    · rw [others _ fun equal => same (Prod.mk.inj equal).1] at first second
      exact nested.nested k V U first second
  · by_cases isThis : p = (e, W)
    · rw [isThis, this, fresh]
    · rw [others p isThis]
      exact nested.once p

lemma Sound.work (sound : Sound setup s) (counting : Counting setup s)
    (busy : s.current t = some job) (works : work setup finalizeRequest s.shared job = (w, rest)) :
    Sound setup { s with shared := w, current := update s.current t rest } := by
  cases job with
  | read d i =>
    cases works
    refine sound.quiet (fun k => ?_) (fun c told => absurd told (notMem_empty c)) rfl
    by_cases same : k = i
    · subst same
      simp
    · simp [same]
  | count d =>
    cases works
    refine sound.quiet (fun k => subset_rfl) (fun c told => ?_) rfl
    split at told
    · rename_i last
      rw [newwavesOf, Finset.mem_singleton] at told
      subst told
      exact counting.complete busy last
    · exact absurd told (notMem_empty c)
  | notify newwaves sinks =>
    cases sinks with
    | nil =>
      cases works
      exact sound.quiet (fun k => subset_rfl) (fun c told => absurd told (notMem_empty c)) rfl
    | cons e sinks =>
      cases works
      have told : newwavesOf (s.current t) = newwaves := by rw [busy, newwavesOf]
      have before := sound.delivered e
      refine sound.tell ((SinkEntry.notify_state ..).trans (by rw [told])) ?_ ?_
      · rw [SinkEntry.notify_state]
        rcases (setup.pipe.entries e).notify_cases setup.scheduledWaves newwaves (s.shared.status e) with
          ⟨-, same, -⟩ | ⟨allwaves, -, all, rfl, -, -⟩
        · rw [same]
          exact before.trans (Finset.inter_subset_inter_right subset_union_left)
        · rw [all]
          exact Finset.union_subset (before.trans (Finset.inter_subset_inter_right subset_union_left)) subset_rfl
      · rw [told]
        split <;> rfl
  | deliver i allwaves newwaves sinks =>
    cases works
    refine sound.quiet (fun k => subset_rfl) (fun c told => sound.told t c ?_) rfl
    rw [busy]
    exact told

lemma complete_of_take (told : d ∈ newwavesOf (some ((wavefronts setup finalizeRequest schedule).job l i))) :
    Complete setup w d := by
  cases l with
  | zero => exact complete_of_unscheduled told w
  | succ idx => exact absurd told (notMem_empty d)

lemma Sound.step (sound : Sound setup s) (counting : Counting setup s)
    (step : Step (wavefronts setup finalizeRequest schedule) s s') : Sound setup s' := by
  cases step with
  | @take t i idle inside iteration free order =>
    have quiet := sound.quiet (t := t) (w := s.shared) (fun k => subset_rfl)
      (fun d (told : d ∈ newwavesOf (some ((wavefronts setup finalizeRequest schedule).job (s.place t) i))) =>
        complete_of_take told) rfl
    exact ⟨quiet.known, quiet.told, quiet.delivered⟩
  | work busy works => exact sound.work counting busy works
  | move idle inside exhausted => exact ⟨sound.known, sound.told, sound.delivered⟩

lemma delivers_take (p : ℕ × DataClass) (l i : ℕ) :
    delivers p (some ((wavefronts setup finalizeRequest schedule).job l i)) = 0 := by
  cases l <;> rfl

lemma step_tells (step : Step (wavefronts setup finalizeRequest schedule) s s') :
    (s'.shared.status = s.shared.status ∧ ∀ p, issues s' p = issues s p) ∨
      ∃ e newwaves out, (setup.pipe.entries e).notify setup.scheduledWaves newwaves (s.shared.status e) = out ∧
        s'.shared.status = update s.shared.status e out.1 ∧
        ∀ p, issues s' p = issues s p + if p.1 = e ∧ out.2 = some p.2 then 1 else 0 := by
  cases step with
  | @take t i idle inside iteration free order =>
    refine .inl ⟨rfl, fun p => ?_⟩
    have sum := sum_update (delivers p) s.current t (some ((wavefronts setup finalizeRequest schedule).job (s.place t) i))
    have nothing : delivers p none = 0 := rfl
    rw [delivers_take, idle, nothing] at sum
    simp only [issues]
    omega
  | @work t job w rest busy works =>
    cases job with
    | read d i =>
      cases works
      exact .inl ⟨rfl, fun p => issues_update (by rw [busy]; rfl)⟩
    | count d =>
      cases works
      refine .inl ⟨rfl, fun p => issues_update ?_⟩
      rw [busy]
      split <;> rfl
    | notify newwaves sinks =>
      cases sinks with
      | nil =>
        cases works
        exact .inl ⟨rfl, fun p => issues_update (by rw [busy]; rfl)⟩
      | cons e sinks =>
        cases works
        refine .inr ⟨e, newwaves, _, rfl, rfl, fun p => ?_⟩
        have sum := sum_update (delivers p) s.current t
          (work setup finalizeRequest s.shared (.notify newwaves (e :: sinks))).2
        rw [busy, delivers_notify] at sum
        simp only [issues]
        cases out : ((setup.pipe.entries e).notify setup.scheduledWaves newwaves (s.shared.status e)).2 with
        | none =>
          simp only [work, out, delivers_notify] at sum
          simp only [reduceCtorEq, and_false, if_false]
          omega
        | some allwaves =>
          simp only [work, out, delivers_deliver] at sum
          simp only [Option.some_inj]
          omega
    | deliver i allwaves newwaves sinks =>
      cases works
      refine .inl ⟨rfl, fun p => issues_update ?_⟩
      rw [busy, count_cons]
      simp [delivers]
  | move idle inside exhausted => exact .inl ⟨rfl, fun _ => rfl⟩

lemma Nested.step (nested : Nested setup s) (step : Step (wavefronts setup finalizeRequest schedule) s s') :
    Nested setup s' := by
  rcases step_tells step with ⟨status, same⟩ | ⟨e, newwaves, out, rfl, status, issues⟩
  · exact nested.quiet same (fun e => by rw [status]) fun e => by rw [status]
  · have state := (setup.pipe.entries e).notify_state setup.scheduledWaves newwaves (s.shared.status e)
    have others : ∀ k, k ≠ e → s'.shared.status k = s.shared.status k := fun k other => by
      rw [status, update_of_ne other]
    have this : s'.shared.status e =
        ((setup.pipe.entries e).notify setup.scheduledWaves newwaves (s.shared.status e)).1 := by
      rw [status, update_self]
    rcases (setup.pipe.entries e).notify_cases setup.scheduledWaves newwaves (s.shared.status e) with
      ⟨skipped, same, -⟩ | ⟨allwaves, delivered, all, value, new, late⟩
    · refine nested.quiet (fun p => by simp [issues, skipped]) (fun k => ?_) fun k => ?_
      · by_cases isSink : k = e
        · rw [isSink, this, same]
        · rw [others k isSink]
      · by_cases isSink : k = e
        · rw [isSink, this, state]
          exact subset_union_left
        · rw [others k isSink]
    · refine nested.issue (e := e) (W := allwaves) (fun p other => ?_) ?_ ?_ (this ▸ all) ?_ others
      · rw [issues, delivered, if_neg, Nat.add_zero]
        rintro ⟨first, second⟩
        exact other (Prod.ext first (Option.some_inj.mp second).symm)
      · rw [issues, delivered, if_pos ⟨rfl, rfl⟩]
      · rw [value]
        exact ⟨subset_union_left, fun old => new (Finset.subset_union_right.trans old)⟩
      · rw [this, state]
        exact late

end

end HpcToolkit.Pipeline
