import HpcToolkit.TraceDb.Thread

/-! # Whole traces

Along every run without a rewind, the file and the buffers together hold the samples kept so far. The end of
the run leaves exactly them in the region of the thread, whatever the batches were and whenever the
wavefront came. A rewind starts over, except for the memory of the last blank sample.
-/

open List
open Option (bind_eq_some_iff ite_none_left_eq_some ite_none_right_eq_some some_inj)


namespace HpcToolkit.TraceDb

open Thread Event Phase

/-! ## Samples in the file -/

section
variable {start : ℕ}

lemma TraceFile.writeat_slot (file : TraceFile) (k i : ℕ) (l : List Sample) :
    file.writeat (start + k * sampleSize) l (start + i * sampleSize) =
      if k ≤ i ∧ i < k + l.length then l[i - k]? else file (start + i * sampleSize) := by
  rw [writeat]
  by_cases inside : k ≤ i ∧ i < k + l.length
  · have range : start + k * sampleSize ≤ start + i * sampleSize ∧
        start + i * sampleSize < start + k * sampleSize + sampleSize * l.length ∧
        (start + i * sampleSize - (start + k * sampleSize)) % sampleSize = 0 := by
      simp only [sampleSize]
      omega
    have index : (start + i * sampleSize - (start + k * sampleSize)) / sampleSize = i - k := by
      simp only [sampleSize]
      omega
    rw [if_pos range, if_pos inside, index]
  · have range : ¬(start + k * sampleSize ≤ start + i * sampleSize ∧
        start + i * sampleSize < start + k * sampleSize + sampleSize * l.length ∧
        (start + i * sampleSize - (start + k * sampleSize)) % sampleSize = 0) := by
      simp only [sampleSize]
      omega
    rw [if_neg range, if_neg inside]

lemma TraceFile.writeat_start_slot (file : TraceFile) (i : ℕ) (l : List Sample) :
    file.writeat start l (start + i * sampleSize) =
      if i < l.length then l[i]? else file (start + i * sampleSize) := by
  have slot : file.writeat (start + 0 * sampleSize) l (start + i * sampleSize) =
      if 0 ≤ i ∧ i < 0 + l.length then l[i - 0]? else file (start + i * sampleSize) := file.writeat_slot 0 i l
  rw [Nat.zero_mul, Nat.add_zero, Nat.zero_add, Nat.sub_zero] at slot
  rw [slot]
  exact if_congr (by omega) rfl rfl

/-- The region starts with some samples. -/
def Holds (start : ℕ) (file : TraceFile) (samples : List Sample) : Prop :=
  ∀ i < samples.length, file (start + i * sampleSize) = samples[i]?

lemma Holds.nil (file : TraceFile) : Holds start file [] := fun _ bound => absurd bound (Nat.not_lt_zero _)

lemma holds_writeat (file : TraceFile) (samples : List Sample) : Holds start (file.writeat start samples) samples := by
  intro i bound
  rw [TraceFile.writeat_start_slot, if_pos bound]

variable {samples : List Sample}

lemma Holds.append {file : TraceFile} (holds : Holds start file samples) (more : List Sample) :
    Holds start (file.writeat (start + samples.length * sampleSize) more) (samples ++ more) := by
  intro i bound
  rw [length_append] at bound
  rw [TraceFile.writeat_slot]
  by_cases old : i < samples.length
  · rw [if_neg (by omega), holds i old, getElem?_append_left old]
  · rw [if_pos (by omega), getElem?_append_right (by omega)]

/-- The file once the wavefront has written what it has taken. -/
def Thread.eventual (start : ℕ) (ud : Thread) : TraceFile :=
  match ud.taken with
  | none => ud.file
  | some prebuffer => ud.file.writeat start prebuffer

variable {ud : Thread}

lemma Thread.eventual_writeat {k : ℕ}
    (behind : ∀ prebuffer, ud.taken = some prebuffer → prebuffer.length ≤ k) (more : List Sample) (i : ℕ) :
    eventual start { ud with file := ud.file.writeat (start + k * sampleSize) more } (start + i * sampleSize) =
      (ud.eventual start).writeat (start + k * sampleSize) more (start + i * sampleSize) := by
  rw [TraceFile.writeat_slot, eventual, eventual]
  cases pending : ud.taken with
  | none => simp only [TraceFile.writeat_slot]
  | some prebuffer =>
    have short := behind prebuffer pending
    simp only [TraceFile.writeat_start_slot, TraceFile.writeat_slot]
    by_cases old : i < prebuffer.length
    · rw [if_pos old, if_pos old, if_neg (by omega)]
    · rw [if_neg old, if_neg old]

lemma Holds.eventual_writeat (holds : Holds start (ud.eventual start) samples)
    (behind : ∀ prebuffer, ud.taken = some prebuffer → prebuffer.length ≤ samples.length) (more : List Sample) :
    Holds start (eventual start { ud with file := ud.file.writeat (start + samples.length * sampleSize) more })
      (samples ++ more) := by
  intro i bound
  rw [Thread.eventual_writeat behind]
  exact holds.append more i bound

/-! ## Runs without a rewind -/

/-- The thread has kept some samples: in the prebuffer, or in the file and the buffer. -/
structure Thread.Following (start : ℕ) (ud : Thread) (kept : List Sample) : Prop where
  count : ud.tmcntr = kept.length
  unwritten : ud.header = none ∧ ud.hdrPrebuffered = false
  before : ud.prebufferDone = false → ud.prebuffer = kept ∧ ud.buffer = [] ∧ ud.taken = none
  behind : ud.prebufferDone = true → ∃ stored, kept = stored ++ ud.buffer ∧
    (ud.buffer ≠ [] → ud.off = start + stored.length * sampleSize) ∧ Holds start (ud.eventual start) stored ∧
    ∀ prebuffer, ud.taken = some prebuffer → prebuffer.length ≤ stored.length

variable {kept : List Sample}

lemma Thread.Following.store (following : ud.Following start kept)
    (done : ud.prebufferDone = true) (datum : Sample) : (ud.store start datum).Following start (kept ++ [datum]) := by
  obtain ⟨stored, whole, place, holds, taken⟩ := following.behind done
  have off : (if ud.buffer = [] then start + ud.tmcntr * sampleSize else ud.off) = start + stored.length * sampleSize := by
    split
    · rename_i empty
      rw [following.count, whole, empty, append_nil]
    · rename_i filled
      exact place filled
  rw [Thread.store, off]
  split
  · refine ⟨by simp [following.count], following.unwritten, fun early => ?_, fun _ => ?_⟩
    · rw [done] at early
      cases early
    · refine ⟨stored ++ (ud.buffer ++ [datum]), by simp [whole], fun filled => absurd rfl filled,
        holds.eventual_writeat taken _, fun prebuffer pending => ?_⟩
      have short := taken prebuffer pending
      rw [length_append]
      omega
  · refine ⟨by simp [following.count], following.unwritten, fun early => ?_, fun _ => ?_⟩
    · rw [done] at early
      cases early
    · exact ⟨stored, by simp [whole], fun _ => rfl, holds, taken⟩

variable {Ctx : Type} {naming : Naming Ctx}

/-- The samples that the loop keeps, given whether the last timepoint was blank. -/
def keep (naming : Naming Ctx) : Bool → List (Timepoint Ctx) → List Sample
  | _, [] => []
  | blank, tp :: rest =>
    if blank && naming.isGlobal tp.2 then keep naming blank rest
    else naming.sample tp :: keep naming (naming.isGlobal tp.2) rest

/-- Whether the last timepoint was blank. -/
def endsBlank (naming : Naming Ctx) (blank : Bool) (tps : List (Timepoint Ctx)) : Bool :=
  (tps.getLast?.map fun tp => naming.isGlobal tp.2).getD blank

lemma endsBlank_cons (blank : Bool) (tp : Timepoint Ctx) (rest : List (Timepoint Ctx)) :
    endsBlank naming blank (tp :: rest) = endsBlank naming (naming.isGlobal tp.2) rest := by
  cases rest with
  | nil => rfl
  | cons next rest => rw [endsBlank, endsBlank, getLast?_cons_cons, getLast?_cons]; rfl

lemma endsBlank_append (blank : Bool) (tps more : List (Timepoint Ctx)) :
    endsBlank naming blank (tps ++ more) = endsBlank naming (endsBlank naming blank tps) more := by
  induction tps generalizing blank with
  | nil => rfl
  | cons tp rest hypothesis => rw [cons_append, endsBlank_cons, endsBlank_cons, hypothesis]

lemma keep_append (blank : Bool) (tps more : List (Timepoint Ctx)) :
    keep naming blank (tps ++ more) = keep naming blank tps ++ keep naming (endsBlank naming blank tps) more := by
  induction tps generalizing blank with
  | nil => rfl
  | cons tp rest hypothesis =>
    rw [cons_append, keep, keep, endsBlank_cons]
    split
    · rename_i both
      rw [Bool.and_eq_true] at both
      rw [hypothesis, both.1, both.2]
    · rw [hypothesis, cons_append]

/-- What the delivery of samples leaves alone. -/
def Thread.SameWavefront (ud ud' : Thread) : Prop :=
  ud'.prebufferDone = ud.prebufferDone ∧ ud'.taken = ud.taken ∧ ud'.header = ud.header ∧
    ud'.hdrPrebuffered = ud.hdrPrebuffered

lemma Thread.sameWavefront_store (ud : Thread) (datum : Sample) : ud.SameWavefront (ud.store start datum) := by
  rw [store]
  split <;> exact ⟨rfl, rfl, rfl, rfl⟩

@[simp] lemma Thread.store_lastWasBlank (ud : Thread) (datum : Sample) :
    (ud.store start datum).lastWasBlank = ud.lastWasBlank := by
  rw [store]
  split <;> rfl

lemma Thread.Following.flag (following : ud.Following start kept) (blank : Bool) :
    Thread.Following start { ud with lastWasBlank := blank } kept :=
  ⟨following.count, following.unwritten, following.before, following.behind⟩

lemma Thread.Following.prebuffer (following : ud.Following start kept)
    (early : ud.prebufferDone = false) (datum : Sample) :
    Thread.Following start { ud with prebuffer := ud.prebuffer ++ [datum], tmcntr := ud.tmcntr + 1 }
      (kept ++ [datum]) := by
  obtain ⟨same, empty, untaken⟩ := following.before early
  refine ⟨by simp [following.count], following.unwritten, fun _ => ⟨by simp [same], empty, untaken⟩, fun done => ?_⟩
  change ud.prebufferDone = true at done
  rw [early] at done
  cases done

lemma Thread.Following.timepoint (following : ud.Following start kept)
    (tp : Timepoint Ctx) :
    (ud.timepoint naming start (!ud.prebufferDone) tp).Following start (kept ++ keep naming ud.lastWasBlank [tp]) := by
  rw [Thread.timepoint, keep]
  split
  · rw [keep, append_nil]
    exact following
  · rw [keep]
    by_cases done : ud.prebufferDone = true
    · have stored := (following.flag (naming.isGlobal tp.2)).store done (naming.sample tp)
      simp only [if_neg (show ¬(!ud.prebufferDone) = true by simp [done])]
      exact stored
    · have early : ud.prebufferDone = false := by simpa using done
      have buffered := (following.flag (naming.isGlobal tp.2)).prebuffer early (naming.sample tp)
      simp only [if_pos (show (!ud.prebufferDone) = true by simp [early])]
      exact buffered

lemma Thread.sameWavefront_timepoint (ud : Thread) (prebuffering : Bool) (tp : Timepoint Ctx) :
    ud.SameWavefront (ud.timepoint naming start prebuffering tp) := by
  rw [timepoint]
  split
  · exact ⟨rfl, rfl, rfl, rfl⟩
  · cases prebuffering
    · exact sameWavefront_store _ _
    · exact ⟨rfl, rfl, rfl, rfl⟩

lemma Thread.timepoint_lastWasBlank (ud : Thread) (prebuffering : Bool) (tp : Timepoint Ctx) :
    (ud.timepoint naming start prebuffering tp).lastWasBlank = naming.isGlobal tp.2 := by
  rw [timepoint]
  split
  · rename_i both
    rw [Bool.and_eq_true] at both
    rw [both.1, both.2]
  · cases prebuffering
    · exact store_lastWasBlank _ _
    · rfl

lemma Thread.timepoints_cons (ud : Thread) (tp : Timepoint Ctx) (rest : List (Timepoint Ctx)) :
    ud.timepoints naming start (tp :: rest) =
      (ud.timepoint naming start (!ud.prebufferDone) tp).timepoints naming start rest := by
  rw [timepoints, timepoints, (ud.sameWavefront_timepoint _ tp).1, foldl_cons]

lemma Thread.sameWavefront_timepoints (ud : Thread) (tps : List (Timepoint Ctx)) :
    ud.SameWavefront (ud.timepoints naming start tps) := by
  induction tps generalizing ud with
  | nil => exact ⟨rfl, rfl, rfl, rfl⟩
  | cons tp rest hypothesis =>
    have first : ud.SameWavefront (ud.timepoint naming start (!ud.prebufferDone) tp) := ud.sameWavefront_timepoint _ tp
    obtain ⟨done, taken, header, waiting⟩ := first
    obtain ⟨done', taken', header', waiting'⟩ := hypothesis (ud.timepoint naming start (!ud.prebufferDone) tp)
    rw [timepoints_cons]
    exact ⟨done'.trans done, taken'.trans taken, header'.trans header, waiting'.trans waiting⟩

lemma Thread.timepoints_lastWasBlank (ud : Thread) (tps : List (Timepoint Ctx)) :
    (ud.timepoints naming start tps).lastWasBlank = endsBlank naming ud.lastWasBlank tps := by
  induction tps generalizing ud with
  | nil => rfl
  | cons tp rest hypothesis => rw [timepoints_cons, hypothesis, timepoint_lastWasBlank, endsBlank_cons]

lemma Thread.Following.timepoints (following : ud.Following start kept)
    (tps : List (Timepoint Ctx)) :
    (ud.timepoints naming start tps).Following start (kept ++ keep naming ud.lastWasBlank tps) := by
  induction tps generalizing ud kept with
  | nil =>
    rw [keep, append_nil]
    exact following
  | cons tp rest hypothesis =>
    have split : keep naming ud.lastWasBlank (tp :: rest) = keep naming ud.lastWasBlank [tp] ++
        keep naming (endsBlank naming ud.lastWasBlank [tp]) rest := keep_append _ [tp] rest
    rw [timepoints_cons, split, ← append_assoc]
    have flag : endsBlank naming ud.lastWasBlank [tp] =
        (ud.timepoint naming start (!ud.prebufferDone) tp).lastWasBlank := by
      rw [timepoint_lastWasBlank]
      rfl
    rw [flag]
    exact hypothesis (following.timepoint tp)

/-- The samples of a thread that has ended are in the file, or will be with the wavefront. -/
structure Thread.Ended (start : ℕ) (ud : Thread) (kept : List Sample) : Prop where
  count : ud.tmcntr = kept.length
  before : ud.prebufferDone = false → ud.prebuffer = kept ∧ ud.taken = none ∧ ud.hdrPrebuffered = true
  behind : ud.prebufferDone = true → Holds start (ud.eventual start) kept ∧
    (ud.header = some (start + kept.length * sampleSize) ∨ ud.hdrPrebuffered = true ∧ ud.taken ≠ none)

lemma Thread.Following.drain (following : ud.Following start kept)
    (early : ud.prebufferDone = false) : ud.drain.Following start kept := by
  obtain ⟨same, empty, -⟩ := following.before early
  refine ⟨following.count, following.unwritten, fun early => (by cases early), fun _ => ⟨kept, ?_, ?_, ?_, ?_⟩⟩
  · change kept = kept ++ ud.buffer
    rw [empty, append_nil]
  · intro filled
    exact absurd empty filled
  · rw [← same]
    exact holds_writeat ud.file ud.prebuffer
  · intro prebuffer taken
    cases taken
    rw [same]

lemma Thread.eventual_flush (ud : Thread) : (ud.flush start).eventual start = ud.eventual start := by
  cases pending : ud.taken with
  | none => rw [flush, pending]
  | some prebuffer =>
    have same : (ud.flush start).file = ud.file.writeat start prebuffer ∧ (ud.flush start).taken = none := by
      rw [flush, pending]
      by_cases waiting : ud.hdrPrebuffered = true <;> simp [waiting, writeHdr]
    rw [eventual, eventual, same.1, same.2, pending]

lemma Thread.Following.flush (following : ud.Following start kept) :
    (ud.flush start).Following start kept := by
  have same : (ud.flush start).eventual start = ud.eventual start := ud.eventual_flush
  cases pending : ud.taken with
  | none =>
    rw [Thread.flush, pending]
    exact following
  | some prebuffer =>
    have flushed : ud.flush start = { ud with file := ud.file.writeat start prebuffer, taken := none } := by
      simp [Thread.flush, pending, following.unwritten.2]
    rw [flushed] at same ⊢
    refine ⟨following.count, following.unwritten, fun early => ?_, fun done => ?_⟩
    · obtain ⟨-, -, untaken⟩ := following.before early
      rw [pending] at untaken
      cases untaken
    · obtain ⟨stored, whole, place, holds, -⟩ := following.behind done
      exact ⟨stored, whole, place, same ▸ holds, fun prebuffer taken => by cases taken⟩

lemma Thread.Following.final (following : ud.Following start kept) :
    (ud.final start).Ended start kept := by
  by_cases done : ud.prebufferDone = true
  · obtain ⟨stored, whole, place, holds, taken⟩ := following.behind done
    by_cases empty : ud.buffer = []
    · have result : ud.final start = ud.writeHdr start := by simp [Thread.final, empty, done]
      rw [empty, append_nil] at whole
      rw [result, whole]
      refine ⟨whole ▸ following.count, fun early => ?_, fun _ => ⟨holds, .inl ?_⟩⟩
      · change ud.prebufferDone = false at early
        rw [done] at early
        cases early
      · rw [← whole, ← following.count]
        rfl
    · have result : ud.final start =
          Thread.writeHdr start { ud with file := ud.file.writeat (start + stored.length * sampleSize) ud.buffer } := by
        simp [Thread.final, empty, done, place empty]
      rw [result]
      refine ⟨following.count, fun early => ?_, fun _ => ⟨?_, .inl ?_⟩⟩
      · change ud.prebufferDone = false at early
        rw [done] at early
        cases early
      · rw [whole]
        exact holds.eventual_writeat taken ud.buffer
      · rw [← following.count]
        rfl
  · have early : ud.prebufferDone = false := by simpa using done
    obtain ⟨same, empty, untaken⟩ := following.before early
    have result : ud.final start = { ud with hdrPrebuffered := true } := by simp [Thread.final, empty, early]
    rw [result]
    exact ⟨following.count, fun _ => ⟨same, untaken, rfl⟩, fun done => by
      change ud.prebufferDone = true at done
      rw [early] at done
      cases done⟩

lemma Thread.Ended.drain (ended : ud.Ended start kept)
    (early : ud.prebufferDone = false) : ud.drain.Ended start kept := by
  obtain ⟨same, -, waiting⟩ := ended.before early
  refine ⟨ended.count, fun early => (by cases early), fun _ => ⟨?_, .inr ⟨waiting, by simp [Thread.drain]⟩⟩⟩
  rw [← same]
  exact holds_writeat ud.file ud.prebuffer

lemma Thread.Ended.flush (ended : ud.Ended start kept)
    (done : ud.prebufferDone = true) (pending : ud.taken ≠ none) : (ud.flush start).Ended start kept := by
  have same : (ud.flush start).eventual start = ud.eventual start := ud.eventual_flush
  obtain ⟨holds, header⟩ := ended.behind done
  obtain ⟨prebuffer, taken⟩ := Option.ne_none_iff_exists'.mp pending
  by_cases waiting : ud.hdrPrebuffered = true
  · have flushed : ud.flush start =
        Thread.writeHdr start { ud with file := ud.file.writeat start prebuffer, taken := none } := by
      simp [Thread.flush, taken, waiting]
    refine ⟨by rw [flushed]; exact ended.count, fun early => ?_, fun _ => ⟨same ▸ holds, .inl ?_⟩⟩
    · rw [flushed] at early
      change ud.prebufferDone = false at early
      rw [done] at early
      cases early
    · rw [flushed, ← ended.count]
      rfl
  · have flushed : ud.flush start = { ud with file := ud.file.writeat start prebuffer, taken := none } := by
      simp [Thread.flush, taken, waiting]
    refine ⟨by rw [flushed]; exact ended.count, fun early => ?_, fun _ => ⟨same ▸ holds, .inl ?_⟩⟩
    · rw [flushed] at early
      change ud.prebufferDone = false at early
      rw [done] at early
      cases early
    · rw [flushed]
      exact header.resolve_right fun other => waiting other.1

/-! ## Phases -/

/-- The thread is where its phase says. -/
structure Thread.InPhase (p : Phase) (ud : Thread) : Prop where
  drained : ud.prebufferDone = p.drained
  taken : ud.taken ≠ none ↔ p.drained = true ∧ p.flushed = false
  unwritten : p.ended = false → ud.header = none ∧ ud.hdrPrebuffered = false
  order : p.flushed = true → p.drained = true

lemma Thread.inPhase_init : init.InPhase ⟨false, false, false⟩ :=
  ⟨rfl, by simp [init], fun _ => ⟨rfl, rfl⟩, fun flushed => by cases flushed⟩

lemma Thread.flush_fields (start : ℕ) (ud : Thread) :
    (ud.flush start).prebufferDone = ud.prebufferDone ∧ (ud.flush start).taken = none ∧
      (ud.flush start).lastWasBlank = ud.lastWasBlank ∧ (ud.hdrPrebuffered = false →
        (ud.flush start).header = ud.header ∧ (ud.flush start).hdrPrebuffered = false) := by
  cases pending : ud.taken with
  | none => simp [flush, pending]
  | some prebuffer => by_cases waiting : ud.hdrPrebuffered = true <;> simp [flush, pending, waiting, writeHdr]

lemma Thread.final_fields (start : ℕ) (ud : Thread) :
    (ud.final start).prebufferDone = ud.prebufferDone ∧ (ud.final start).taken = ud.taken ∧
      (ud.final start).lastWasBlank = ud.lastWasBlank := by
  by_cases empty : ud.buffer = [] <;> by_cases done : ud.prebufferDone = true <;>
    simp [final, empty, done, writeHdr]

variable {p p' : Phase} {e : Event Ctx}

lemma Thread.InPhase.step (inPhase : ud.InPhase p)
    (next : p.next e = some p') : (ud.step naming start e).InPhase p' := by
  cases e with
  | timepoints tps =>
    obtain ⟨-, same⟩ := ite_none_left_eq_some.mp next
    cases same
    obtain ⟨done, taken, header, waiting⟩ : ud.SameWavefront (ud.timepoints naming start tps) :=
      ud.sameWavefront_timepoints tps
    refine ⟨done.trans inPhase.drained, ?_, fun running => ?_, inPhase.order⟩
    · change (ud.timepoints naming start tps).taken ≠ none ↔ _
      rw [taken]
      exact inPhase.taken
    · change (ud.timepoints naming start tps).header = none ∧ (ud.timepoints naming start tps).hdrPrebuffered = false
      rw [header, waiting]
      exact inPhase.unwritten running
  | rewind =>
    obtain ⟨-, same⟩ := ite_none_left_eq_some.mp next
    cases same
    exact ⟨inPhase.drained, inPhase.taken, inPhase.unwritten, inPhase.order⟩
  | drain =>
    obtain ⟨early, same⟩ := ite_none_left_eq_some.mp next
    cases same
    have unflushed : p.flushed = false := by
      by_contra flushed
      exact early (inPhase.order (by simpa using flushed))
    refine ⟨rfl, ?_, inPhase.unwritten, fun _ => rfl⟩
    change some ud.prebuffer ≠ none ↔ true = true ∧ p.flushed = false
    simp [unflushed]
  | flush =>
    obtain ⟨pending, same⟩ := ite_none_right_eq_some.mp next
    cases same
    rw [Bool.and_eq_true] at pending
    obtain ⟨done, taken, -, header⟩ := ud.flush_fields start
    refine ⟨done.trans inPhase.drained, ?_, fun running => ?_, fun _ => pending.1⟩
    · change (ud.flush start).taken ≠ none ↔ p.drained = true ∧ true = false
      simp [taken]
    · obtain ⟨unwritten, waiting⟩ := inPhase.unwritten running
      obtain ⟨same, still⟩ := header waiting
      exact ⟨same.trans unwritten, still⟩
  | final =>
    obtain ⟨running, same⟩ := ite_none_left_eq_some.mp next
    cases same
    obtain ⟨done, taken, -⟩ := ud.final_fields start
    refine ⟨done.trans inPhase.drained, ?_, fun running => (by cases running), inPhase.order⟩
    change (ud.final start).taken ≠ none ↔ _
    rw [taken]
    exact inPhase.taken

lemma Thread.step_lastWasBlank (ud : Thread) (e : Event Ctx) :
    (ud.step naming start e).lastWasBlank = endsBlank naming ud.lastWasBlank (delivered [e]) := by
  cases e with
  | timepoints tps =>
    rw [show delivered [Event.timepoints tps] = tps by simp [delivered]]
    exact ud.timepoints_lastWasBlank tps
  | rewind => rfl
  | drain => rfl
  | flush => exact (ud.flush_fields start).2.2.1
  | final => exact (ud.final_fields start).2.2

/-- A thread in a phase has kept some samples since the last rewind. -/
structure Thread.Tracks (start : ℕ) (p : Phase) (ud : Thread) (kept : List Sample) : Prop where
  inPhase : ud.InPhase p
  following : p.ended = false → ud.Following start kept
  ended : p.ended = true → ud.Ended start kept

lemma Thread.Tracks.step (tracks : ud.Tracks start p kept) (next : p.next e = some p') (forward : e.isRewind = false) :
    (ud.step naming start e).Tracks start p' (kept ++ keep naming ud.lastWasBlank (delivered [e])) := by
  refine ⟨tracks.inPhase.step next, fun running => ?_, fun stopped => ?_⟩
  · cases e with
    | timepoints tps =>
      obtain ⟨-, same⟩ := ite_none_left_eq_some.mp next
      cases same
      rw [show delivered [Event.timepoints tps] = tps by simp [delivered]]
      exact (tracks.following running).timepoints tps
    | rewind => cases forward
    | drain =>
      obtain ⟨early, same⟩ := ite_none_left_eq_some.mp next
      cases same
      rw [show delivered [(Event.drain : Event Ctx)] = [] from rfl, keep, append_nil]
      exact (tracks.following running).drain (tracks.inPhase.drained.trans (by simpa using early))
    | flush =>
      obtain ⟨-, same⟩ := ite_none_right_eq_some.mp next
      cases same
      rw [show delivered [(Event.flush : Event Ctx)] = [] from rfl, keep, append_nil]
      exact (tracks.following running).flush
    | final =>
      obtain ⟨-, same⟩ := ite_none_left_eq_some.mp next
      cases same
      cases running
  · cases e with
    | timepoints tps =>
      obtain ⟨running, same⟩ := ite_none_left_eq_some.mp next
      cases same
      exact absurd stopped running
    | rewind => cases forward
    | drain =>
      obtain ⟨early, same⟩ := ite_none_left_eq_some.mp next
      cases same
      rw [show delivered [(Event.drain : Event Ctx)] = [] from rfl, keep, append_nil]
      exact (tracks.ended stopped).drain (tracks.inPhase.drained.trans (by simpa using early))
    | flush =>
      obtain ⟨pending, same⟩ := ite_none_right_eq_some.mp next
      cases same
      rw [Bool.and_eq_true, Bool.not_eq_true'] at pending
      rw [show delivered [(Event.flush : Event Ctx)] = [] from rfl, keep, append_nil]
      exact (tracks.ended stopped).flush (tracks.inPhase.drained.trans pending.1) (tracks.inPhase.taken.mpr pending)
    | final =>
      obtain ⟨running, same⟩ := ite_none_left_eq_some.mp next
      cases same
      rw [show delivered [(Event.final : Event Ctx)] = [] from rfl, keep, append_nil]
      exact (tracks.following (by simpa using running)).final

lemma delivered_cons (e : Event Ctx) (events : List (Event Ctx)) :
    delivered (e :: events) = delivered [e] ++ delivered events := by
  simp [delivered]

variable {events : List (Event Ctx)}

lemma Phase.run_cons (run : Phase.run p (e :: events) = some p') : ∃ q, p.next e = some q ∧ Phase.run q events = some p' := by
  rw [Phase.run, foldlM_cons] at run
  exact bind_eq_some_iff.mp run

lemma Thread.Tracks.run (tracks : ud.Tracks start p kept) (run : Phase.run p events = some p')
    (forward : ∀ e ∈ events, e.isRewind = false) :
    (ud.run naming start events).Tracks start p' (kept ++ keep naming ud.lastWasBlank (delivered events)) := by
  induction events generalizing p ud kept with
  | nil =>
    cases run
    rw [show delivered ([] : List (Event Ctx)) = [] from rfl, keep, append_nil]
    exact tracks
  | cons e events hypothesis =>
    obtain ⟨q, next, run⟩ := run_cons run
    rw [delivered_cons, keep_append, ← append_assoc, ← step_lastWasBlank]
    exact hypothesis (tracks.step next (forward e (.head _))) run fun d member => forward d (.tail _ member)

lemma Thread.InPhase.run (inPhase : ud.InPhase p)
    (run : Phase.run p events = some p') : (ud.run naming start events).InPhase p' := by
  induction events generalizing p ud with
  | nil =>
    cases run
    exact inPhase
  | cons e events hypothesis =>
    obtain ⟨q, next, run⟩ := run_cons run
    exact hypothesis (inPhase.step next) run

lemma Thread.run_lastWasBlank (ud : Thread) (events : List (Event Ctx)) :
    (ud.run naming start events).lastWasBlank = endsBlank naming ud.lastWasBlank (delivered events) := by
  induction events generalizing ud with
  | nil => rfl
  | cons e events hypothesis =>
    rw [delivered_cons, endsBlank_append, ← step_lastWasBlank]
    exact hypothesis _

lemma Thread.Tracks.written (tracks : ud.Tracks start ⟨true, true, true⟩ kept) :
    ud.written start = some (kept.map some) := by
  have untaken : ud.taken = none := by
    by_contra pending
    have phase := tracks.inPhase.taken.mp pending
    cases phase.2
  obtain ⟨holds, header⟩ := (tracks.ended rfl).behind tracks.inPhase.drained
  have header := header.resolve_right fun other => other.2 untaken
  have count : (start + kept.length * sampleSize - start) / sampleSize = kept.length := by
    simp only [sampleSize]
    omega
  rw [eventual, untaken] at holds
  rw [Thread.written, header, Option.map_some, count]
  refine congrArg some (ext_getElem (by simp) fun i bound _ => ?_)
  rw [length_map, length_range] at bound
  simp only [getElem_map, getElem_range]
  exact (holds i bound).trans (getElem?_eq_getElem bound)

lemma Thread.following_init : init.Following start [] :=
  ⟨rfl, ⟨rfl, rfl⟩, fun _ => ⟨rfl, rfl, rfl⟩, fun done => by cases done⟩

lemma Thread.tracks_init : init.Tracks start ⟨false, false, false⟩ [] :=
  ⟨inPhase_init, fun _ => following_init, fun stopped => by cases stopped⟩

lemma Thread.InPhase.rewind {p : Phase} (inPhase : ud.InPhase p) (running : p.ended = false)
    (outside : ud.taken = none) : ud.rewind.Tracks start p [] := by
  refine ⟨⟨inPhase.drained, inPhase.taken, inPhase.unwritten, inPhase.order⟩,
    fun _ => ⟨rfl, inPhase.unwritten running, ?_, ?_⟩, fun stopped => ?_⟩
  · intro early
    change ud.prebufferDone = false at early
    exact ⟨by simp [Thread.rewind, early], rfl, outside⟩
  · intro _
    refine ⟨[], rfl, fun filled => absurd rfl filled, Holds.nil _, fun prebuffer taken => ?_⟩
    change ud.taken = some prebuffer at taken
    rw [outside] at taken
    cases taken
  · rw [running] at stopped
    cases stopped

/-! ## Batches and the wavefront do not matter -/

lemma keep_destutter (tp : Timepoint Ctx) (rest : List (Timepoint Ctx)) :
    (rest.destutter' (fun l r => ¬(naming.isGlobal l.2 ∧ naming.isGlobal r.2)) tp).map naming.sample =
      naming.sample tp :: keep naming (naming.isGlobal tp.2) rest := by
  induction rest generalizing tp with
  | nil => rfl
  | cons next rest hypothesis =>
    rw [keep]
    by_cases both : naming.isGlobal tp.2 = true ∧ naming.isGlobal next.2 = true
    · rw [destutter'_cons_neg _ (not_not.mpr both), hypothesis, if_pos (Bool.and_eq_true _ _ ▸ both)]
    · rw [destutter'_cons_pos _ both, map_cons, hypothesis, if_neg (Bool.and_eq_true _ _ ▸ both)]

lemma keep_eq_collapse (tps : List (Timepoint Ctx)) :
    keep naming false tps = (collapse naming tps).map naming.sample := by
  cases tps with
  | nil => rfl
  | cons tp rest => rw [collapse, destutter, keep_destutter, keep, Bool.false_and, if_neg Bool.false_ne_true]

/-- The trace of a thread holds its timepoints with repeated blank ones left out. -/
theorem written_eq_collapse {events : List (Event Ctx)} (complete : Complete events)
    (forward : ∀ e ∈ events, e.isRewind = false) :
    (init.run naming start events).written start =
      some ((collapse naming (delivered events)).map fun tp => some (naming.sample tp)) := by
  have tracks : (init.run naming start events).Tracks start ⟨true, true, true⟩
      ([] ++ keep naming init.lastWasBlank (delivered events)) := tracks_init.run complete forward
  rw [tracks.written, nil_append, show init.lastWasBlank = false from rfl, keep_eq_collapse, map_map]
  rfl

end

/-! ## Two contexts -/

/-- The global context and another one. -/
def twoContexts : Naming Bool where
  isGlobal c := c
  id c := if c then 0 else 7

/-- The wavefront comes between two batches that split a run of blank timepoints. -/
theorem written_eq_collapse_split :
    (init.run twoContexts 64 [.timepoints [(1, false), (2, true)], .drain, .timepoints [(3, true), (4, false)],
      .flush, .final]).written 64 = some [some ⟨1, 7⟩, some ⟨2, 0⟩, some ⟨4, 7⟩] := by
  rw [written_eq_collapse (by decide) (by decide)]
  decide

end HpcToolkit.TraceDb

/-! # Rewinds of a trace

A rewind resets the counters and drops what the buffers hold, so that the samples behind it overwrite those
before it. It does not reset the flag for blank samples, and it does not reach a prebuffer that the
wavefront has already taken.
-/

namespace HpcToolkit.TraceDb

variable {start : ℕ} {Ctx : Type} {naming : Naming Ctx}

/-- Whether the first timepoint is blank. -/
def startsBlank (naming : Naming Ctx) (tps : List (Timepoint Ctx)) : Bool :=
  tps.head?.any fun tp => naming.isGlobal tp.2

variable {tps : List (Timepoint Ctx)}

lemma keep_ne_of_startsBlank (blank : startsBlank naming tps = true) :
    keep naming false tps ≠ keep naming true tps := by
  cases tps with
  | nil => cases blank
  | cons tp rest =>
    have isGlobal : naming.isGlobal tp.2 = true := by simpa [startsBlank] using blank
    simp only [keep, isGlobal, Bool.and_self, if_true, Bool.false_and, Bool.false_eq_true, if_false]
    intro same
    have lengths := congrArg length same
    simp at lengths

lemma keep_true_of_not_startsBlank (other : startsBlank naming tps = false) :
    keep naming true tps = keep naming false tps := by
  cases tps with
  | nil => rfl
  | cons tp rest =>
    have notGlobal : naming.isGlobal tp.2 = false := by simpa [startsBlank] using other
    simp [keep, notGlobal]

lemma keep_eq_fresh_iff (blank : Bool) (tps : List (Timepoint Ctx)) :
    keep naming blank tps = keep naming false tps ↔ ¬(blank = true ∧ startsBlank naming tps = true) := by
  cases blank with
  | false => simp
  | true =>
    cases starts : startsBlank naming tps with
    | false => simp [keep_true_of_not_startsBlank starts]
    | true => simpa using (keep_ne_of_startsBlank starts).symm

variable {p p' : Phase}

lemma Phase.next_drained {e : Event Ctx} (next : p.next e = some p') :
    (p'.drained = true ↔ p.drained = true ∨ e = .drain) ∧ (p'.flushed = true ↔ p.flushed = true ∨ e = .flush) := by
  cases e with
  | timepoints tps =>
    obtain ⟨-, same⟩ := ite_none_left_eq_some.mp next
    cases same
    simp
  | rewind =>
    obtain ⟨-, same⟩ := ite_none_left_eq_some.mp next
    cases same
    simp
  | drain =>
    obtain ⟨-, same⟩ := ite_none_left_eq_some.mp next
    cases same
    simp
  | flush =>
    obtain ⟨-, same⟩ := ite_none_right_eq_some.mp next
    cases same
    simp
  | final =>
    obtain ⟨-, same⟩ := ite_none_left_eq_some.mp next
    cases same
    simp

variable {events : List (Event Ctx)}

lemma Phase.run_drained (run : run p events = some p') :
    (p'.drained = true ↔ p.drained = true ∨ .drain ∈ events) ∧ (p'.flushed = true ↔ p.flushed = true ∨ .flush ∈ events) := by
  induction events generalizing p with
  | nil =>
    cases run
    simp
  | cons e events hypothesis =>
    obtain ⟨q, next, run⟩ := run_cons run
    obtain ⟨drained, flushed⟩ := hypothesis run
    obtain ⟨drained', flushed'⟩ := next_drained next
    rw [drained, flushed, drained', flushed', mem_cons, mem_cons, or_assoc, or_assoc]
    exact ⟨by rw [eq_comm (a := e)], by rw [eq_comm (a := e)]⟩

lemma Phase.run_append {events more : List (Event Ctx)} (run : run p (events ++ more) = some p') :
    ∃ q, Phase.run p events = some q ∧ Phase.run q more = some p' := by
  rw [Phase.run, foldlM_append] at run
  exact bind_eq_some_iff.mp run

lemma Phase.run_silent (run : run p events = some p') :
    Phase.run p (events.filter Event.isSilent) = some p' := by
  induction events generalizing p with
  | nil => exact run
  | cons e events hypothesis =>
    obtain ⟨q, next, run⟩ := run_cons run
    cases silent : e.isSilent with
    | false =>
      have still : q = p := by
        cases e with
        | timepoints tps => exact ((ite_none_left_eq_some.mp next).2 |> some_inj.mp).symm
        | rewind => exact ((ite_none_left_eq_some.mp next).2 |> some_inj.mp).symm
        | drain | flush | final => cases silent
      rw [filter_cons_of_neg (by simp [silent]), ← still]
      exact hypothesis run
    | true =>
      rw [filter_cons_of_pos silent, Phase.run, foldlM_cons, next]
      exact hypothesis run

lemma delivered_silent (events : List (Event Ctx)) : delivered (events.filter Event.isSilent) = [] := by
  rw [delivered, flatMap_eq_nil_iff]
  intro e member
  obtain ⟨-, silent⟩ := mem_filter.mp member
  cases e with
  | timepoints tps => cases silent
  | rewind | drain | flush | final => rfl

lemma delivered_append (events more : List (Event Ctx)) :
    delivered (events ++ more) = delivered events ++ delivered more := flatMap_append

variable {before after : List (Event Ctx)}

lemma written_after_rewind (complete : Complete (before ++ .rewind :: after))
    (last : ∀ e ∈ after, e.isRewind = false) (outside : .drain ∈ before → .flush ∈ before) :
    (Thread.init.run naming start (before ++ .rewind :: after)).written start =
      some ((keep naming (endsBlank naming false (delivered before)) (delivered after)).map some) := by
  obtain ⟨p, runBefore, runRewind⟩ := Phase.run_append complete
  obtain ⟨q, next, runAfter⟩ := Phase.run_cons runRewind
  obtain ⟨running, same⟩ := ite_none_left_eq_some.mp next
  cases same
  have inPhase : (Thread.init.run naming start before).InPhase p := Thread.inPhase_init.run runBefore
  have untaken : (Thread.init.run naming start before).taken = none := by
    by_contra pending
    obtain ⟨drained, flushed⟩ := inPhase.taken.mp pending
    have drain := (Phase.run_drained runBefore).1.mp drained
    have flush := (Phase.run_drained runBefore).2.mpr (.inr (outside (drain.resolve_left Bool.false_ne_true)))
    rw [flushed] at flush
    cases flush
  have tracks : (Thread.init.run naming start before).rewind.Tracks start p [] :=
    inPhase.rewind (by simpa using running) untaken
  have whole : Thread.init.run naming start (before ++ .rewind :: after) =
      (Thread.init.run naming start before).rewind.run naming start after := by
    rw [Thread.run, foldl_append]
    rfl
  have result : ((Thread.init.run naming start before).rewind.run naming start after).Tracks start ⟨true, true, true⟩
      ([] ++ keep naming (Thread.init.run naming start before).rewind.lastWasBlank (delivered after)) :=
    tracks.run runAfter last
  rw [whole, result.written, nil_append]
  have flag : (Thread.init.run naming start before).rewind.lastWasBlank = endsBlank naming false (delivered before) :=
    Thread.init.run_lastWasBlank before
  rw [flag]

lemma written_without (complete : Complete (before ++ .rewind :: after))
    (last : ∀ e ∈ after, e.isRewind = false) :
    (Thread.init.run naming start (before.filter Event.isSilent ++ after)).written start =
      some ((keep naming false (delivered after)).map some) := by
  obtain ⟨p, runBefore, runRewind⟩ := Phase.run_append complete
  obtain ⟨q, next, runAfter⟩ := Phase.run_cons runRewind
  obtain ⟨-, same⟩ := ite_none_left_eq_some.mp next
  cases same
  have remaining : Complete (before.filter Event.isSilent ++ after) := by
    rw [Complete, Phase.run, foldlM_append]
    exact bind_eq_some_iff.mpr ⟨p, Phase.run_silent runBefore, runAfter⟩
  have forward : ∀ e ∈ before.filter Event.isSilent ++ after, e.isRewind = false := by
    intro e member
    rcases mem_append.mp member with early | late
    · obtain ⟨-, silent⟩ := mem_filter.mp early
      cases e with
      | rewind => cases silent
      | timepoints | drain | flush | final => rfl
    · exact last e late
  have tracks : (Thread.init.run naming start (before.filter Event.isSilent ++ after)).Tracks start ⟨true, true, true⟩
      ([] ++ keep naming Thread.init.lastWasBlank (delivered (before.filter Event.isSilent ++ after))) :=
    Thread.tracks_init.run remaining forward
  rw [tracks.written, delivered_append, delivered_silent, nil_append, nil_append]
  rfl

/-- A rewind that does not meet the wavefront makes the trace start afresh, unless a blank timepoint comes right
before it and right behind it. -/
theorem rewind_starts_afresh_iff {before after : List (Event Ctx)} (complete : Complete (before ++ .rewind :: after))
    (last : ∀ e ∈ after, e.isRewind = false) (outside : .drain ∈ before → .flush ∈ before) :
    (Thread.init.run naming start (before ++ .rewind :: after)).written start =
        (Thread.init.run naming start (before.filter Event.isSilent ++ after)).written start ↔
      ¬(endsBlank naming false (delivered before) = true ∧ startsBlank naming (delivered after) = true) := by
  rw [written_after_rewind complete last outside, written_without complete last, some_inj,
    (map_injective_iff.mpr (Option.some_injective _)).eq_iff]
  exact keep_eq_fresh_iff _ _

theorem rewind_starts_afresh_sorted :
    (Thread.init.run twoContexts 64 [.timepoints [(2, true), (1, false)], .rewind, .timepoints [(1, false), (2, true)],
      .drain, .flush, .final]).written 64 =
      (Thread.init.run twoContexts 64 [.timepoints [(1, false), (2, true)], .drain, .flush, .final]).written 64 := by
  have after : ∀ e ∈ [Event.timepoints [((1 : Int64), false), (2, true)], .drain, .flush, .final], e.isRewind = false := by
    decide
  have outside : Event.drain ∈ [Event.timepoints [((2 : Int64), true), (1, false)]] →
      Event.flush ∈ [Event.timepoints [((2 : Int64), true), (1, false)]] := by simp
  exact (rewind_starts_afresh_iff (by decide) after outside).mpr (by decide)

/-- A blank timepoint before a rewind hides the blank timepoint that the trace starts with behind it. -/
theorem rewind_keeps_last_blank :
    ¬ ∀ (naming : Naming Bool) (start : ℕ) (before after : List (Event Bool)), Complete (before ++ .rewind :: after) →
      (∀ e ∈ after, e.isRewind = false) →
      (Thread.init.run naming start (before ++ .rewind :: after)).written start =
        (Thread.init.run naming start (before.filter Event.isSilent ++ after)).written start := by
  intro afresh
  have same := afresh twoContexts 64 [.timepoints [(1, true)]]
    [.timepoints [(1, true), (2, false)], .drain, .flush, .final] (by decide) (by decide)
  exact absurd same (by decide)

end HpcToolkit.TraceDb
