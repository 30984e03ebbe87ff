import Mathlib.Data.List.Destutter
import Mathlib.Tactic

/-! # The trace of a thread

What `HPCTraceDB2` does for one thread: it leaves out repeated blank samples, keeps samples in a prebuffer
until the threads wavefront has placed the thread's region, and then writes them through a buffer. The
wavefront takes the prebuffer and writes it out in two steps, between which the thread may go on. The file
is a map from offsets to the samples of this thread.
-/

namespace HpcToolkit.TraceDb

/-! ## The state of a thread -/

structure Sample where
  timestamp : UInt64
  ctxId : UInt32
deriving DecidableEq

/-- `FMT_TRACEDB_SZ_CtxSample`. -/
def sampleSize : ℕ := 12

/-- The size of `udThread::buffer`. -/
def bufferSize : ℕ := 12 * 1024 * 86

/-- A timepoint: its time and its context. -/
abbrev Timepoint (Ctx : Type) := Int64 × Ctx

/-- What a sample needs of a context: whether it is the global one, and the id it is written with. -/
structure Naming (Ctx : Type) where
  isGlobal : Ctx → Bool
  id : Ctx → UInt32

abbrev TraceFile := ℕ → Option Sample

/-- `writeat`: samples in a row from the offset on. -/
def TraceFile.writeat (file : TraceFile) (off : ℕ) (samples : List Sample) : TraceFile := fun o =>
  if off ≤ o ∧ o < off + sampleSize * samples.length ∧ (o - off) % sampleSize = 0
  then samples[(o - off) / sampleSize]?
  else file o

/-- `udThread`, with the prebuffer that the wavefront has taken, the file and the end in the written header.
Of `buffer` only the samples before the cursor are kept. -/
structure Thread where
  off : ℕ
  buffer : List Sample
  tmcntr : ℕ
  lastWasBlank : Bool
  prebufferDone : Bool
  hdrPrebuffered : Bool
  prebuffer : List Sample
  taken : Option (List Sample)
  file : TraceFile
  header : Option ℕ

def Thread.init : Thread where
  off := 2 ^ 64 - 1
  buffer := []
  tmcntr := 0
  lastWasBlank := false
  prebufferDone := false
  hdrPrebuffered := false
  prebuffer := []
  taken := none
  file := fun _ => none
  header := none

/-! ## What happens to a thread -/

inductive Event (Ctx : Type) where
  /-- `notifyTimepoints` -/
  | timepoints (tps : List (Timepoint Ctx))
  /-- `notifyCtxTimepointRewindStart` -/
  | rewind
  /-- `notifyWavefront` takes the prebuffer -/
  | drain
  /-- `notifyWavefront` writes it -/
  | flush
  /-- `notifyThreadFinal` -/
  | final

section
variable {Ctx : Type} (naming : Naming Ctx) (start : ℕ)

/-- A sample on its way to the file, through the buffer. -/
def Thread.store (ud : Thread) (datum : Sample) : Thread :=
  let off := if ud.buffer = [] then start + ud.tmcntr * sampleSize else ud.off
  let buffer := ud.buffer ++ [datum]
  if buffer.length * sampleSize = bufferSize
  then { ud with off, buffer := [], file := ud.file.writeat off buffer, tmcntr := ud.tmcntr + 1 }
  else { ud with off, buffer, tmcntr := ud.tmcntr + 1 }

/-- One round of the loop of `notifyTimepoints`. -/
def Thread.timepoint (prebuffering : Bool) (ud : Thread) (tp : Timepoint Ctx) : Thread :=
  let isBlank := naming.isGlobal tp.2
  if ud.lastWasBlank && isBlank then ud
  else
    let ud := { ud with lastWasBlank := isBlank }
    let datum : Sample := ⟨tp.1.toUInt64, naming.id tp.2⟩
    if prebuffering then { ud with prebuffer := ud.prebuffer ++ [datum], tmcntr := ud.tmcntr + 1 }
    else ud.store start datum

def Thread.timepoints (ud : Thread) (tps : List (Timepoint Ctx)) : Thread :=
  tps.foldl (Thread.timepoint naming start (!ud.prebufferDone)) ud

def Thread.rewind (ud : Thread) : Thread :=
  { ud with
    buffer := []
    off := 2 ^ 64 - 1
    tmcntr := 0
    prebuffer := if ud.prebufferDone then ud.prebuffer else [] }

def Thread.drain (ud : Thread) : Thread :=
  { ud with taken := some ud.prebuffer, prebuffer := [], prebufferDone := true }

def Thread.writeHdr (ud : Thread) : Thread := { ud with header := some (start + ud.tmcntr * sampleSize) }

def Thread.flush (ud : Thread) : Thread :=
  match ud.taken with
  | none => ud
  | some prebuffer =>
    let ud := { ud with file := ud.file.writeat start prebuffer, taken := none }
    if ud.hdrPrebuffered then ud.writeHdr start else ud

def Thread.final (ud : Thread) : Thread :=
  let ud := if ud.buffer = [] then ud else { ud with file := ud.file.writeat ud.off ud.buffer }
  if ud.prebufferDone then ud.writeHdr start else { ud with hdrPrebuffered := true }

def Thread.step (ud : Thread) : Event Ctx → Thread
  | .timepoints tps => ud.timepoints naming start tps
  | .rewind => ud.rewind
  | .drain => ud.drain
  | .flush => ud.flush start
  | .final => ud.final start

def Thread.run (ud : Thread) (events : List (Event Ctx)) : Thread := events.foldl (Thread.step naming start) ud

/-- The samples between the start and the end in the header. -/
def Thread.written (ud : Thread) : Option (List (Option Sample)) :=
  ud.header.map fun pEnd => (List.range ((pEnd - start) / sampleSize)).map fun i => ud.file (start + i * sampleSize)

end

/-- How far the wavefront and the thread are. -/
structure Phase where
  drained : Bool
  flushed : Bool
  ended : Bool
deriving DecidableEq

/-- The wavefront comes once and writes what it has taken; nothing is delivered behind the end of a thread. -/
def Phase.next {Ctx : Type} (p : Phase) : Event Ctx → Option Phase
  | .timepoints _ | .rewind => if p.ended then none else some p
  | .drain => if p.drained then none else some { p with drained := true }
  | .flush => if p.drained && !p.flushed then some { p with flushed := true } else none
  | .final => if p.ended then none else some { p with ended := true }

def Phase.run {Ctx : Type} : Phase → List (Event Ctx) → Option Phase := List.foldlM Phase.next

/-- Everything that happens to a thread. -/
def Complete {Ctx : Type} (events : List (Event Ctx)) : Prop :=
  Phase.run ⟨false, false, false⟩ events = some ⟨true, true, true⟩

instance {Ctx : Type} (events : List (Event Ctx)) : Decidable (Complete events) := inferInstanceAs (Decidable (_ = _))

/-- The timepoints delivered, over all batches. -/
def delivered {Ctx : Type} (events : List (Event Ctx)) : List (Timepoint Ctx) :=
  events.flatMap fun
    | .timepoints tps => tps
    | _ => []

def Event.isRewind {Ctx : Type} : Event Ctx → Bool
  | .rewind => true
  | _ => false

/-- The wavefront and the end, without any deliveries. -/
def Event.isSilent {Ctx : Type} : Event Ctx → Bool
  | .timepoints _ | .rewind => false
  | _ => true

/-- Timepoints with consecutive blank ones collapsed to the first of them. -/
def collapse {Ctx : Type} (naming : Naming Ctx) (tps : List (Timepoint Ctx)) : List (Timepoint Ctx) :=
  tps.destutter fun l r => ¬(naming.isGlobal l.2 ∧ naming.isGlobal r.2)

def Naming.sample {Ctx : Type} (naming : Naming Ctx) (tp : Timepoint Ctx) : Sample := ⟨tp.1.toUInt64, naming.id tp.2⟩

end HpcToolkit.TraceDb
