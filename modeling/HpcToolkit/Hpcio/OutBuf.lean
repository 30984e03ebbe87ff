import Mathlib.Tactic

/-! # The signal-safe output buffer

`hpcio-buffer.c` copies accepted bytes into a client buffer and hands them to `write(2)` when the
buffer is full, on flush and on close. The kernel is a list of outcomes, one for each call of
`write(2)`; when the list is exhausted the call in progress is still inside `write(2)`. The
locals of a call in progress (`inFlight`, `copied`) stay in the state, so a blocked call is a
point of the run like any other.

After a failure that follows partial progress, the source moves the unwritten tail to the front
and records the number of bytes already written as the number still in use.
-/

open List

namespace HpcToolkit.OutBuf

abbrev Byte := UInt8

def HPCFMT_OK : ℤ := 1
def HPCFMT_ERR : ℤ := -1
def HPCIO_OUTBUF_MAGIC : ℕ := 0x494F4246

/-- What one call of `write(2)` does: take up to `amount` bytes, or return 0 or -1. -/
inductive WriteOutcome where
  | takes (amount : ℕ)
  | zeroInterrupted
  | interrupted
  | failed
deriving DecidableEq

/-- The value returned for a request of `count` bytes, and whether `errno` is `EINTR`. -/
def WriteOutcome.result (count : ℕ) : WriteOutcome → ℤ × Bool
  | .takes amount => (min amount count, false)
  | .zeroInterrupted => (0, true)
  | .interrupted => (-1, true)
  | .failed => (-1, false)

/-- The fields of `hpcio_outbuf_t`; the client buffer keeps its stale bytes beyond `inUse`. -/
structure Outbuf where
  magic : ℕ
  buf : List Byte
  inUse : ℕ
  fd : ℤ
  fits : inUse ≤ buf.length
deriving DecidableEq

namespace Outbuf

def bufSize (ob : Outbuf) : ℕ := ob.buf.length

/-- The bytes the structure says are still to be written. -/
def contents (ob : Outbuf) : List Byte := ob.buf.take ob.inUse

/-- `memcpy` of a chunk behind the bytes in use. -/
def append (ob : Outbuf) (chunk : List Byte) (room : ob.inUse + chunk.length ≤ ob.buf.length) : Outbuf :=
  { ob with
    buf := ob.buf.take ob.inUse ++ chunk ++ ob.buf.drop (ob.inUse + chunk.length)
    inUse := ob.inUse + chunk.length
    fits := by simp only [length_append, length_take, length_drop]; omega }

/-- `memmove` of the unwritten tail to the front, then `in_use = amt_done` as the source has it. -/
def keepTail (ob : Outbuf) (amtDone : ℕ) (done : amtDone ≤ ob.inUse) : Outbuf :=
  { ob with
    buf := ob.contents.drop amtDone ++ ob.buf.drop (ob.inUse - amtDone)
    inUse := amtDone
    fits := by
      have := ob.fits
      simp only [contents, length_append, length_take, length_drop]; omega }

/-- `in_use = 0` once the whole buffer has been written. -/
def emptied (ob : Outbuf) : Outbuf := { ob with inUse := 0, fits := Nat.zero_le _ }

end Outbuf

/-- How one flush ended: its buffer level at the start, and the bytes written before a failure. -/
structure FlushRecord where
  inUse : ℕ
  failedAfter : Option ℕ
deriving DecidableEq

/-- The caller's view of one buffer together with the descriptor behind it. -/
structure Sys where
  outbuf : Outbuf
  attached : Bool
  delivered : List Byte
  accepted : List Byte
  inFlight : ℕ
  copied : List Byte
  blocked : Bool
  outcomes : List WriteOutcome
  flushes : List FlushRecord

/-- Result of the loop in `outbuf_flush_buffer`. -/
inductive FlushEnd where
  | done
  | hardFailure
  | inKernel

/-- The `while` loop of `outbuf_flush_buffer`: its end, `amt_done`, and the outcomes left. -/
def flushLoop (inUse : ℕ) : ℕ → List WriteOutcome → FlushEnd × ℕ × List WriteOutcome
  | amtDone, [] => if amtDone < inUse then (.inKernel, amtDone, []) else (.done, amtDone, [])
  | amtDone, outcome :: rest =>
    if amtDone < inUse then
      let (ret, eintr) := outcome.result (inUse - amtDone)
      if ret > 0 ∨ (ret = 0 ∧ eintr = true) then flushLoop inUse (amtDone + ret.toNat) rest
      else (.hardFailure, amtDone, rest)
    else (.done, amtDone, outcome :: rest)

lemma flushLoop_bound (inUse : ℕ) (outcomes : List WriteOutcome) (amtDone : ℕ)
    (start : amtDone ≤ inUse) : (flushLoop inUse amtDone outcomes).2.1 ≤ inUse := by
  induction outcomes generalizing amtDone with
  | nil => simp only [flushLoop]; split <;> exact start
  | cons outcome rest ih =>
    simp only [flushLoop]
    split
    · split
      · apply ih
        cases outcome <;> simp only [WriteOutcome.result] <;> omega
      · exact start
    · exact start

lemma flushLoop_done (inUse : ℕ) (outcomes : List WriteOutcome) (amtDone : ℕ)
    (start : amtDone ≤ inUse) (ended : (flushLoop inUse amtDone outcomes).1 = .done) :
    (flushLoop inUse amtDone outcomes).2.1 = inUse := by
  induction outcomes generalizing amtDone with
  | nil =>
    simp only [flushLoop] at ended ⊢
    split at ended
    · cases ended
    · rw [if_neg (by assumption)]; dsimp only; omega
  | cons outcome rest ih =>
    simp only [flushLoop] at ended ⊢
    split at ended
    · rw [if_pos (by assumption)]
      split at ended
      · rw [if_pos (by assumption)]
        apply ih _ _ ended
        cases outcome <;> simp only [WriteOutcome.result] <;> omega
      · cases ended
    · rw [if_neg (by assumption)]; dsimp only; omega

/-- `outbuf_flush_buffer`: write everything in use, keeping the tail after a hard failure. No
value is returned while the call is still inside `write(2)`. -/
def outbufFlushBuffer (s : Sys) : Sys × Option ℤ :=
  let ended := flushLoop s.outbuf.inUse 0 s.outcomes
  let amtDone := ended.2.1
  let t := { s with delivered := s.delivered ++ s.outbuf.contents.take amtDone, outcomes := ended.2.2 }
  match ended.1 with
  | .done =>
    ({ t with outbuf := s.outbuf.emptied, flushes := s.flushes ++ [⟨s.outbuf.inUse, none⟩] },
      some HPCFMT_OK)
  | .hardFailure =>
    ({ t with
      outbuf := if 0 < amtDone then
          s.outbuf.keepTail amtDone (flushLoop_bound s.outbuf.inUse s.outcomes 0 (Nat.zero_le _))
        else s.outbuf
      flushes := s.flushes ++ [⟨s.outbuf.inUse, some amtDone⟩] }, some HPCFMT_ERR)
  | .inKernel => ({ t with inFlight := amtDone, blocked := true }, none)

/-- The head of the loop in `hpcio_outbuf_write`: flush when `size` does not fit, and say whether
the loop goes on. -/
def flushIfNeeded (size : ℕ) (s : Sys) : Sys × Bool :=
  if size > s.outbuf.bufSize - s.outbuf.inUse then
    let t := (outbufFlushBuffer s).1
    (t, !t.blocked && t.outbuf.inUse != t.outbuf.bufSize)
  else (s, true)

lemma flushIfNeeded_room {size : ℕ} {s : Sys} (pos : 0 < size) (go : (flushIfNeeded size s).2 = true) :
    (flushIfNeeded size s).1.outbuf.inUse < (flushIfNeeded size s).1.outbuf.bufSize := by
  unfold flushIfNeeded at go ⊢
  split at go
  · rw [if_pos (by assumption)]
    simp only [Bool.and_eq_true, bne_iff_ne, ne_eq] at go
    exact lt_of_le_of_ne (Outbuf.fits _) go.2
  · rw [if_neg (by assumption)]
    dsimp only
    omega

/-- The `while` loop of `hpcio_outbuf_write`, from `amtDone` bytes copied. -/
def writeLoop (data : List Byte) (s : Sys) (amtDone : ℕ) : Sys × ℕ :=
  if pending : amtDone < data.length then
    let r := flushIfNeeded data.length s
    if go : r.2 = true then
      let amt := min (data.length - amtDone) (r.1.outbuf.bufSize - r.1.outbuf.inUse)
      let chunk := (data.drop amtDone).take amt
      writeLoop data
        { r.1 with
          outbuf := r.1.outbuf.append chunk (by
            have := r.1.outbuf.fits
            simp only [chunk, amt, length_take, length_drop, Outbuf.bufSize]; omega)
          copied := r.1.copied ++ chunk }
        (amtDone + amt)
    else (r.1, amtDone)
  else (s, amtDone)
termination_by data.length - amtDone
decreasing_by
  have := flushIfNeeded_room (by omega : 0 < data.length) go
  omega

/-- The pointer and magic-number test at the head of every interface function. -/
def Sys.usable (s : Sys) : Bool := s.attached && s.outbuf.magic == HPCIO_OUTBUF_MAGIC

/-- `hpcio_outbuf_write`: the number of bytes copied, which is what it reports as accepted. -/
def hpcioOutbufWrite (s : Sys) (data : List Byte) : Sys × Option ℤ :=
  if s.usable then
    let (t, amtDone) := writeLoop data s 0
    if t.blocked then (t, none)
    else ({ t with accepted := t.accepted ++ data.take amtDone, copied := [] }, some amtDone)
  else (s, some (-1))

def hpcioOutbufFlush (s : Sys) : Sys × Option ℤ :=
  if s.usable then outbufFlushBuffer s else (s, some HPCFMT_ERR)

/-- `hpcio_outbuf_close`; `closed` is whether `close(2)` succeeds. The structure goes to the free
list and the client's pointer becomes null whatever happened. -/
def hpcioOutbufClose (s : Sys) (closed : Bool) : Sys × Option ℤ :=
  if s.usable then
    match outbufFlushBuffer s with
    | (t, none) => (t, none)
    | (t, some ret) =>
      if ret = HPCFMT_OK ∧ closed = true then
        ({ t with outbuf := { t.outbuf with magic := 0, fd := -1 }, attached := false }, some HPCFMT_OK)
      else ({ t with attached := false }, some HPCFMT_ERR)
  else (s, some HPCFMT_ERR)

/-- `hpcio_outbuf_attach` on a buffer supplied by the client. -/
def hpcioOutbufAttach (fd : ℤ) (buf : List Byte) : Option Outbuf :=
  if fd < 0 ∨ buf.length = 0 then none
  else some { magic := HPCIO_OUTBUF_MAGIC, buf, inUse := 0, fd, fits := Nat.zero_le _ }

inductive Call where
  | write (data : List Byte)
  | flush
  | close (closed : Bool)

def Sys.call (s : Sys) : Call → Sys × Option ℤ
  | .write data => hpcioOutbufWrite s data
  | .flush => hpcioOutbufFlush s
  | .close closed => hpcioOutbufClose s closed

/-- A sequence of calls by one client; a call that never returns is the last one. -/
def run (s : Sys) (calls : List Call) : Sys :=
  calls.foldl (fun s c => if s.blocked then s else (s.call c).1) s

/-- A freshly attached buffer in front of a kernel with the given outcomes. -/
def Sys.start (ob : Outbuf) (outcomes : List WriteOutcome) : Sys :=
  { outbuf := ob, attached := true, delivered := [], accepted := [], inFlight := 0, copied := [],
    blocked := false, outcomes, flushes := [] }

/-! ## Conservation -/

/-- Delivered bytes followed by buffered ones are the accepted bytes, in order. Inside a call the
bytes it has copied so far count as accepted. -/
def Conserved (s : Sys) : Prop :=
  s.delivered ++ s.outbuf.contents.drop s.inFlight = s.accepted ++ s.copied

instance (s : Sys) : Decidable (Conserved s) := inferInstanceAs (Decidable (_ = _))

/-- A failure harms nothing when no byte, or exactly half of the buffer, was written before it. -/
def FlushRecord.Harmless (r : FlushRecord) : Prop :=
  ∀ done ∈ r.failedAfter, done = 0 ∨ 2 * done = r.inUse

instance (r : FlushRecord) : Decidable r.Harmless := inferInstanceAs (Decidable (∀ done ∈ r.failedAfter, _))

/-- The conservation law, with no flush in progress outside `write(2)`. -/
structure Sound (s : Sys) : Prop where
  conserved : Conserved s
  settled : s.blocked = false → s.inFlight = 0

lemma Outbuf.contents_length (ob : Outbuf) : ob.contents.length = ob.inUse := by
  simp only [contents, length_take]
  exact Nat.min_eq_left ob.fits

lemma Outbuf.append_contents (ob : Outbuf) (chunk : List Byte)
    (room : ob.inUse + chunk.length ≤ ob.buf.length) :
    (ob.append chunk room).contents = ob.contents ++ chunk := by
  have fits := ob.fits
  simp only [contents, append]
  rw [take_append_of_le_length (by simp only [length_append, length_take]; omega)]
  apply take_of_length_le
  simp only [length_append, length_take]
  omega

@[simp] lemma Outbuf.emptied_contents (ob : Outbuf) : ob.emptied.contents = [] := rfl

lemma Outbuf.keepTail_contents (ob : Outbuf) (done : ℕ) (bound : done ≤ ob.inUse) :
    (ob.keepTail done bound).contents = ob.contents.drop done ↔ 2 * done = ob.inUse := by
  have length := (ob.keepTail done bound).contents_length
  have tail : (ob.contents.drop done).length = ob.inUse - done := by
    rw [length_drop, contents_length]
  constructor
  · intro same
    rw [same, tail] at length
    change ob.inUse - done = done at length
    omega
  · intro half
    change (ob.contents.drop done ++ ob.buf.drop (ob.inUse - done)).take done = _
    rw [take_append_of_le_length (by omega), take_of_length_le (by omega)]

lemma outbufFlushBuffer_frame (s : Sys) :
    (outbufFlushBuffer s).1.accepted = s.accepted ∧ (outbufFlushBuffer s).1.copied = s.copied ∧
      s.flushes <+: (outbufFlushBuffer s).1.flushes := by
  unfold outbufFlushBuffer
  dsimp only
  split
  · exact ⟨rfl, rfl, prefix_append ..⟩
  · exact ⟨rfl, rfl, prefix_append ..⟩
  · exact ⟨rfl, rfl, prefix_rfl⟩

lemma outbufFlushBuffer_conserved_iff (s : Sys) (settled : s.inFlight = 0) (conserved : Conserved s) :
    Conserved (outbufFlushBuffer s).1 ↔
      ∀ r ∈ (outbufFlushBuffer s).1.flushes.drop s.flushes.length, r.Harmless := by
  have law : s.delivered ++ s.outbuf.contents = s.accepted ++ s.copied := by
    simpa only [Conserved, settled, drop_zero] using conserved
  have split := take_append_drop (flushLoop s.outbuf.inUse 0 s.outcomes).2.1 s.outbuf.contents
  unfold outbufFlushBuffer Conserved
  dsimp only
  cases ended : (flushLoop s.outbuf.inUse 0 s.outcomes).1 with
  | done =>
    have all := flushLoop_done _ _ _ (Nat.zero_le _) ended
    have whole : s.outbuf.contents.take s.outbuf.inUse = s.outbuf.contents :=
      take_of_length_le (Outbuf.contents_length _).le
    simp [all, whole, law, FlushRecord.Harmless]
  | hardFailure =>
    simp only [settled, drop_zero, drop_left', mem_singleton, forall_eq,
      FlushRecord.Harmless, Option.mem_def, Option.some.injEq, forall_eq']
    rcases Nat.eq_zero_or_pos (flushLoop s.outbuf.inUse 0 s.outcomes).2.1 with zero | progress
    · simp [zero, law]
    · rw [if_pos progress, ← law, append_assoc, append_cancel_left_eq]
      nth_rewrite 2 [← split]
      rw [append_cancel_left_eq, Outbuf.keepTail_contents]
      omega
  | inKernel =>
    simp only [drop_length, not_mem_nil, false_implies, implies_true, iff_true]
    rw [append_assoc, split, law]

lemma outbufFlushBuffer_sound (s : Sys) (settled : s.inFlight = 0) (conserved : Conserved s)
    (clean : ∀ r ∈ (outbufFlushBuffer s).1.flushes, r.Harmless) : Sound (outbufFlushBuffer s).1 where
  conserved := (outbufFlushBuffer_conserved_iff s settled conserved).mpr
    (fun r member => clean r (mem_of_mem_drop member))
  settled := by
    unfold outbufFlushBuffer
    dsimp only
    cases (flushLoop s.outbuf.inUse 0 s.outcomes).1 with
    | done => exact fun _ => settled
    | hardFailure => exact fun _ => settled
    | inKernel => exact fun running => by cases running

lemma flushIfNeeded_flushes (size : ℕ) (s : Sys) : s.flushes <+: (flushIfNeeded size s).1.flushes := by
  unfold flushIfNeeded
  split
  · exact (outbufFlushBuffer_frame s).2.2
  · exact prefix_rfl

lemma flushIfNeeded_sound (size : ℕ) (s : Sys) (running : s.blocked = false) (sound : Sound s)
    (clean : ∀ r ∈ (flushIfNeeded size s).1.flushes, r.Harmless) : Sound (flushIfNeeded size s).1 := by
  unfold flushIfNeeded at clean ⊢
  split
  · rw [if_pos (by assumption)] at clean
    exact outbufFlushBuffer_sound s (sound.settled running) sound.conserved clean
  · exact sound

lemma flushIfNeeded_copied (size : ℕ) (s : Sys) : (flushIfNeeded size s).1.copied = s.copied := by
  unfold flushIfNeeded
  split
  · exact (outbufFlushBuffer_frame s).2.1
  · rfl

lemma flushIfNeeded_running (size : ℕ) (s : Sys) (running : s.blocked = false)
    (go : (flushIfNeeded size s).2 = true) : (flushIfNeeded size s).1.blocked = false := by
  unfold flushIfNeeded at go ⊢
  split
  · rw [if_pos (by assumption)] at go
    simp only [Bool.and_eq_true, Bool.not_eq_true'] at go
    exact go.1
  · exact running

lemma writeLoop_flushes (data : List Byte) (s : Sys) (amtDone : ℕ) :
    s.flushes <+: (writeLoop data s amtDone).1.flushes := by
  fun_induction writeLoop with
  | case1 s amtDone pending r go amt chunk ih => exact (flushIfNeeded_flushes data.length s).trans ih
  | case2 s amtDone pending r stop => exact flushIfNeeded_flushes data.length s
  | case3 s amtDone finished => exact prefix_rfl

lemma writeLoop_sound (data : List Byte) (s : Sys) (amtDone : ℕ) (running : s.blocked = false)
    (sound : Sound s) (counted : s.copied = data.take amtDone)
    (clean : ∀ r ∈ (writeLoop data s amtDone).1.flushes, r.Harmless) :
    Sound (writeLoop data s amtDone).1 ∧
      (writeLoop data s amtDone).1.copied = data.take (writeLoop data s amtDone).2 := by
  fun_induction writeLoop with
  | case1 s amtDone pending r go amt chunk ih =>
    have cleanHead : ∀ record ∈ (flushIfNeeded data.length s).1.flushes, record.Harmless :=
      fun record member => clean record ((writeLoop_flushes data _ _).subset member)
    have head := flushIfNeeded_sound data.length s running sound cleanHead
    have go' := flushIfNeeded_running data.length s running go
    have chunkEq : data.take amtDone ++ chunk = data.take (amtDone + amt) := (take_add ..).symm
    apply ih go' _ _ clean
    · refine ⟨?_, fun _ => head.settled go'⟩
      have law := head.conserved
      simp only [Conserved, head.settled go', drop_zero, r] at law ⊢
      rw [Outbuf.append_contents, ← append_assoc, law, append_assoc]
    · simp only [r]
      rw [flushIfNeeded_copied, counted, chunkEq]
  | case2 s amtDone pending r stop =>
    exact ⟨flushIfNeeded_sound data.length s running sound clean, (flushIfNeeded_copied ..).trans counted⟩
  | case3 s amtDone finished => exact ⟨sound, counted⟩

/-- The state between two calls: the law holds and no copy is in progress. -/
structure AtRest (s : Sys) : Prop extends Sound s where
  reported : s.blocked = false → s.copied = []

lemma call_flushes (s : Sys) (c : Call) : s.flushes <+: (s.call c).1.flushes := by
  cases c with
  | write data =>
    simp only [Sys.call, hpcioOutbufWrite]
    split
    · split <;> exact writeLoop_flushes data s 0
    · exact prefix_rfl
  | flush =>
    simp only [Sys.call, hpcioOutbufFlush]
    split
    · exact (outbufFlushBuffer_frame s).2.2
    · exact prefix_rfl
  | close closed =>
    have step := (outbufFlushBuffer_frame s).2.2
    simp only [Sys.call, hpcioOutbufClose]
    split
    · split
      · next flushed => rwa [flushed] at step
      · next flushed => rw [flushed] at step; split <;> exact step
    · exact prefix_rfl

lemma outbufFlushBuffer_atRest (s : Sys) (running : s.blocked = false) (rest : AtRest s)
    (clean : ∀ r ∈ (outbufFlushBuffer s).1.flushes, r.Harmless) : AtRest (outbufFlushBuffer s).1 where
  toSound := outbufFlushBuffer_sound s (rest.settled running) rest.conserved clean
  reported := fun _ => (outbufFlushBuffer_frame s).2.1.trans (rest.reported running)

lemma call_atRest (s : Sys) (c : Call) (running : s.blocked = false) (rest : AtRest s)
    (clean : ∀ r ∈ (s.call c).1.flushes, r.Harmless) : AtRest (s.call c).1 := by
  cases c with
  | write data =>
    simp only [Sys.call, hpcioOutbufWrite] at clean ⊢
    split
    · have cleanLoop : ∀ r ∈ (writeLoop data s 0).1.flushes, r.Harmless := by
        intro r member
        apply clean r
        rw [if_pos (by assumption)]
        split <;> exact member
      obtain ⟨sound, counted⟩ := writeLoop_sound data s 0 running rest.toSound
        (by simpa using rest.reported running) cleanLoop
      split
      · next stuck => exact ⟨sound, fun h => by rw [stuck] at h; cases h⟩
      · next going =>
        refine ⟨⟨?_, sound.settled⟩, fun _ => rfl⟩
        have law := sound.conserved
        simp only [Conserved, counted] at law ⊢
        rw [law, append_nil]
    · exact rest
  | flush =>
    simp only [Sys.call, hpcioOutbufFlush] at clean ⊢
    split
    · rw [if_pos (by assumption)] at clean
      exact outbufFlushBuffer_atRest s running rest clean
    · exact rest
  | close closed =>
    simp only [Sys.call, hpcioOutbufClose] at clean ⊢
    split
    · rw [if_pos (by assumption)] at clean
      have flushed : AtRest (outbufFlushBuffer s).1 := by
        apply outbufFlushBuffer_atRest s running rest
        intro r member
        apply clean r
        split
        · next ended => rwa [ended] at member
        · next ended => rw [ended] at member; split <;> exact member
      split
      · next ended => rwa [ended] at flushed
      · next ended =>
        rw [ended] at flushed
        split <;> exact ⟨⟨flushed.conserved, flushed.settled⟩, flushed.reported⟩
    · exact rest

lemma run_flushes (s : Sys) (calls : List Call) : s.flushes <+: (run s calls).flushes := by
  induction calls generalizing s with
  | nil => exact prefix_rfl
  | cons c rest ih =>
    refine List.IsPrefix.trans ?_ (ih _)
    dsimp only
    split
    · exact prefix_rfl
    · exact call_flushes s c

lemma run_atRest (s : Sys) (calls : List Call) (start : AtRest s)
    (clean : ∀ r ∈ (run s calls).flushes, r.Harmless) : AtRest (run s calls) := by
  induction calls generalizing s with
  | nil => exact start
  | cons c rest ih =>
    apply ih _ _ clean
    dsimp only
    split
    · exact start
    · next running =>
      apply call_atRest s c (Bool.eq_false_iff.mpr running) start
      intro r member
      apply clean r
      have tail := (run_flushes (s.call c).1 rest).subset member
      simpa only [run, foldl_cons, if_neg running] using tail

lemma start_atRest (ob : Outbuf) (outcomes : List WriteOutcome) (empty : ob.inUse = 0) :
    AtRest (Sys.start ob outcomes) := by
  refine ⟨⟨?_, fun _ => rfl⟩, fun _ => rfl⟩
  simp [Conserved, Sys.start, Outbuf.contents, empty]

/-- A four-byte buffer on descriptor 3. -/
def smallOutbuf : Outbuf :=
  { magic := HPCIO_OUTBUF_MAGIC, buf := [0, 0, 0, 0], inUse := 0, fd := 3, fits := Nat.zero_le _ }

/-- Every flush of the first run succeeds, and the flush of the second one fails after one byte of three. -/
lemma smallOutbuf_runs :
    (∀ r ∈ (run (Sys.start smallOutbuf [.takes 1, .takes 2, .interrupted, .takes 3, .failed])
        [.write [1, 2, 3], .write [4, 5], .flush, .flush, .close true]).flushes, r.Harmless) ∧
      ¬ Conserved (run (Sys.start smallOutbuf [.takes 1, .failed]) [.write [1, 2, 3], .flush]) := by
  decide +kernel

end HpcToolkit.OutBuf
