import HpcToolkit.Lib.Exclusive
import HpcToolkit.Lib.Reachable
import HpcToolkit.ProfileDb.Buffers

/-! # The double-buffered output of profiles

The threads of all ranks call `write` and `flush` of the `DoubleBufferedOutput` of their rank. The ranks share the file
and the counter for the places in it. A step of a thread is one action on what the threads share; a thread that has to
wait for a lock does not step. A profile is written at most once, by a thread of its rank. Places in the file are
natural numbers.
-/

open Function List

namespace HpcToolkit.ProfileDb

open Lib MetaDb Buffers

namespace DoubleBufferedOutput

def bufferSize : ℕ := 64 * 1024 * 1024

/-- The buffers are numbered `false` and `true`. -/
structure Buffer (Profile Thread : Type) where
  lowlock : Option Thread
  blob : List UInt8
  toUpdate : List (Profile × Field)

/-- The calls; to `flush` belong the profiles whose writes have returned before it. -/
inductive Call (Profile : Type) where
  | write (p : Profile)
  | flush (since : List Profile)

/-- What a thread does next. -/
inductive Pc (Profile : Type) where
  | idle
  | lockTop (p : Profile)
  | lockCurrent (p : Profile)
  | layOut (p : Profile) (b : Bool)
  | unlockTop (p : Profile) (b needsFlush : Bool)
  | append (p : Profile) (b needsFlush : Bool)
  | lockLow (since : List Profile) (b : Bool)
  | allocate (call : Call Profile) (b : Bool)
  | writeat (call : Call Profile) (b : Bool) (offset : ℕ)
  | update (call : Call Profile) (b : Bool) (offset : ℕ)
  | clear (call : Call Profile) (b : Bool)
  | unlockLow (call : Call Profile) (b : Bool)

variable {Profile Rank Thread : Type}

/-- The outputs of the ranks, the file and the threads. `returned` are the profiles whose writes have returned,
`settled` those of them for which a later flush has returned, too. -/
structure State (Profile Rank Thread : Type) where
  pos : ℕ
  file : Bytes
  offsets : Offsets Profile
  toplock : Rank → Option Thread
  currentBuf : Rank → Bool
  bufs : Rank × Bool → Buffer Profile Thread
  pc : Thread → Pc Profile
  called : List Profile
  returned : List Profile
  settled : List Profile

/-- The state after `initialize` on each rank. -/
def initialized (startOffset : ℕ) (file : Bytes) (offsets : Offsets Profile) : State Profile Rank Thread where
  pos := align startOffset 4
  file := file
  offsets := offsets
  toplock _ := none
  currentBuf _ := false
  bufs _ := ⟨none, [], []⟩
  pc _ := .idle
  called := []
  returned := []
  settled := []

inductive Act (Profile Thread : Type) where
  | write (t : Thread) (p : Profile)
  | flush (t : Thread)
  | run (t : Thread)

variable [DecidableEq Profile] [DecidableEq Rank] [DecidableEq Thread] (blobs : Blobs Profile) (rank : Thread → Rank)
  (owner : Profile → Rank)

namespace State

variable (s : State Profile Rank Thread) (t : Thread)

def move (pc : Pc Profile) : State Profile Rank Thread := { s with pc := update s.pc t pc }

def setBuf (b : Rank × Bool) (buf : Buffer Profile Thread) : State Profile Rank Thread :=
  { s with bufs := update s.bufs b buf }

def setToplock (r : Rank) (holder : Option Thread) : State Profile Rank Thread :=
  { s with toplock := update s.toplock r holder }

end State

/-- One action of `write` or `flush`. -/
def run (s : State Profile Rank Thread) (t : Thread) : Option (State Profile Rank Thread) :=
  let r := rank t
  match s.pc t with
  | .idle => none
  | .lockTop p =>
    if s.toplock r = none then some ((s.setToplock r (some t)).move t (.lockCurrent p)) else none
  | .lockCurrent p =>
    let b := s.currentBuf r
    let buf := s.bufs (r, b)
    if buf.lowlock = none then some ((s.setBuf (r, b) { buf with lowlock := some t }).move t (.layOut p b)) else none
  | .layOut p b =>
    let buf := s.bufs (r, b)
    let mvOffset := align buf.blob.length 2
    let ciOffset := align (mvOffset + (blobs.mv p).length) 4
    let needsFlush := decide (bufferSize ≤ ciOffset + (blobs.ci p).length)
    let s := s.setBuf (r, b) { buf with toUpdate := buf.toUpdate ++ [(p, .pValues), (p, .pCtxIndices)] }
    some { s.move t (.unlockTop p b needsFlush) with
      offsets := update (update s.offsets (p, .pValues) mvOffset) (p, .pCtxIndices) ciOffset
      currentBuf := if needsFlush then update s.currentBuf r (!s.currentBuf r) else s.currentBuf }
  | .unlockTop p b needsFlush => some ((s.setToplock r none).move t (.append p b needsFlush))
  | .append p b needsFlush =>
    let buf := s.bufs (r, b)
    let s := s.setBuf (r, b) { buf with blob := appendBlobs blobs s.offsets p buf.blob }
    some (s.move t (if needsFlush then .allocate (.write p) b else .unlockLow (.write p) b))
  | .lockLow since b =>
    let buf := s.bufs (r, b)
    if buf.lowlock = none
    then some ((s.setBuf (r, b) { buf with lowlock := some t }).move t (.allocate (.flush since) b)) else none
  | .allocate call b =>
    some { s.move t (.writeat call b s.pos) with pos := s.pos + align (s.bufs (r, b)).blob.length 4 }
  | .writeat call b offset =>
    let buf := s.bufs (r, b)
    some { s.move t (.update call b offset) with
      file := if buf.blob = [] then s.file else ProfileDb.writeat s.file offset buf.blob }
  | .update call b offset =>
    some { s.move t (.clear call b) with
      offsets := (s.bufs (r, b)).toUpdate.foldl
        (fun offsets target => update offsets target (offsets target + offset)) s.offsets }
  | .clear call b =>
    some ((s.setBuf (r, b) { s.bufs (r, b) with blob := [], toUpdate := [] }).move t (.unlockLow call b))
  | .unlockLow call b =>
    let s := s.setBuf (r, b) { s.bufs (r, b) with lowlock := none }
    match call with
    | .write p => some { s.move t .idle with returned := p :: s.returned }
    | .flush since =>
      if b then some { s.move t .idle with settled := since ++ s.settled } else some (s.move t (.lockLow since true))

def step (s : State Profile Rank Thread) : Act Profile Thread → Option (State Profile Rank Thread)
  | .write t p =>
    match s.pc t with
    | .idle => if owner p = rank t ∧ p ∉ s.called
      then some { s.move t (.lockTop p) with called := p :: s.called } else none
    | _ => none
  | .flush t =>
    match s.pc t with
    | .idle => some (s.move t (.lockLow (s.returned.filter fun p => owner p = rank t) false))
    | _ => none
  | .run t => run blobs rank s t

/-! ## The buffers behind the threads -/

/-- The buffer of its rank that the thread has locked. -/
def Pc.low : Pc Profile → Option Bool
  | layOut _ b | unlockTop _ b _ | append _ b _ | allocate _ b | writeat _ b _ | update _ b _ | clear _ b
  | unlockLow _ b => some b
  | idle | lockTop _ | lockCurrent _ | lockLow _ _ => none

/-- How far the thread is with the buffer that it has locked. -/
def Pc.stage : Pc Profile → Stage Profile
  | unlockTop p _ _ | append p _ _ => .laid p
  | writeat _ _ offset => .placed offset false
  | update _ _ offset => .placed offset true
  | clear _ _ => .updated
  | idle | lockTop _ | lockCurrent _ | layOut _ _ | lockLow _ _ | allocate _ _ | unlockLow _ _ => .packed

/-- The profile that the thread has not laid out yet. -/
def Pc.fresh : Pc Profile → Option Profile
  | lockTop p | lockCurrent p | layOut p _ => some p
  | _ => none

def Pc.call : Pc Profile → Option (Call Profile)
  | unlockTop p _ _ | append p _ _ => some (.write p)
  | lockLow since _ => some (.flush since)
  | allocate call _ | writeat call _ _ | update call _ _ | clear call _ | unlockLow call _ => some call
  | _ => none

/-- Whether a flush has still to update a buffer. -/
def Pc.left : Pc Profile → Bool → Bool
  | lockLow _ b | allocate _ b | writeat _ b _ | update _ b _ => fun b' => !b || b'
  | clear _ b | unlockLow _ b => fun b' => !b && b'
  | _ => fun _ => true

/-- The profile has its final offsets, or lies in one of some buffers of its rank. -/
def Located (d : Buffers (Rank × Bool) Profile) (r : Rank) (among : Bool → Bool) (p : Profile) : Prop :=
  p ∈ d.stored ∨ ∃ b, among b = true ∧ p ∈ d.pend (r, b)

/-- What holds of a thread of a rank. -/
structure Local (d : Buffers (Rank × Bool) Profile) (r : Rank) (pc : Pc Profile) : Prop where
  fresh : ∀ p, pc.fresh = some p → owner p = r
  written : ∀ p, pc.call = some (.write p) → owner p = r ∧ Located d r (fun _ => true) p
  flushed : ∀ since, pc.call = some (.flush since) → ∀ p ∈ since, Located d r pc.left p

/-- The references to the offsets of the profiles. -/
def targets (ps : List Profile) : List (Profile × Field) := ps.flatMap fun p => [(p, .pValues), (p, .pCtxIndices)]

/-- The threads that have locked a buffer are the ones on their way with it. -/
def Locks (s : State Profile Rank Thread) : Prop :=
  ∀ b t, (s.bufs b).lowlock = some t ↔ rank t = b.1 ∧ (s.pc t).low = some b.2

/-- The state of the threads, seen as a state of the buffers. -/
structure Follows (s : State Profile Rank Thread) (d : Buffers (Rank × Bool) Profile) : Prop where
  pos : d.pos = s.pos
  file : d.file = s.file
  offsets : d.offsets = s.offsets
  blob : ∀ b, d.blob b = (s.bufs b).blob
  toUpdate : ∀ b, d.stage b ≠ .updated → (s.bufs b).toUpdate = targets (d.pend b)
  locks : Locks rank s
  free : ∀ b, (s.bufs b).lowlock = none → d.stage b = .packed
  held : ∀ t b, (s.pc t).low = some b → d.stage (rank t, b) = (s.pc t).stage
  fresh : Exclusive Pc.fresh s.pc
  unplaced : ∀ t p, (s.pc t).fresh = some p → p ∈ s.called ∧ p ∉ d.stored ∧ ∀ b, p ∉ d.pend b
  known : ∀ p, (p ∈ d.stored ∨ ∃ b, p ∈ d.pend b) → p ∈ s.called
  threads : ∀ t, Local owner d (rank t) (s.pc t)
  returned : ∀ p ∈ s.returned, Located d (owner p) (fun _ => true) p
  settled : ∀ p ∈ s.settled, p ∈ d.stored

section Steps

variable {blobs rank owner} {s s' : State Profile Rank Thread} {d d' : Buffers (Rank × Bool) Profile} {t : Thread}
  {b : Bool} {pc : Pc Profile}

omit [DecidableEq Profile] in
lemma Locks.update (mine : Rank × Bool) (locks : Locks rank s) (moved : s'.pc = update s.pc t pc)
    (rankOf : mine.1 = rank t) (others : ∀ b', b' ≠ mine → (s'.bufs b').lowlock = (s.bufs b').lowlock)
    (before : ∀ b', (s.pc t).low = some b' → b' = mine.2) (after : ∀ b', pc.low = some b' → b' = mine.2)
    (unheld : ∀ u, (s.bufs mine).lowlock = some u → u = t)
    (lock : (s'.bufs mine).lowlock = if pc.low = none then none else some t) : Locks rank s' := by
  intro b' u
  rw [moved]
  by_cases here : b' = mine
  · subst here
    rw [lock]
    by_cases same : u = t
    · subst same
      rw [update_self]
      cases now : pc.low with
      | none => simp
      | some c =>
        obtain rfl := after c now
        simp [rankOf]
    · rw [update_of_ne same, ← locks b' u]
      constructor
      · intro equal
        split at equal
        · cases equal
        · exact absurd (Option.some.inj equal).symm same
      · exact fun holder => absurd (unheld u holder) same
  · rw [others b' here, locks b' u]
    by_cases same : u = t
    · subst same
      rw [update_self]
      refine and_congr_right fun own => ⟨fun low => ?_, fun low => ?_⟩
      · exact absurd (Prod.ext (own.symm.trans rankOf.symm) (before _ low)) here
      · exact absurd (Prod.ext (own.symm.trans rankOf.symm) (after _ low)) here
    · rw [update_of_ne same]

omit [DecidableEq Profile] [DecidableEq Rank] in
lemma Locks.outside (locks : Locks rank s) (moved : s'.pc = Function.update s.pc t pc)
    (same : ∀ b', (s'.bufs b').lowlock = (s.bufs b').lowlock) (before : (s.pc t).low = none) (after : pc.low = none) :
    Locks rank s' := by
  intro b' u
  rw [moved, same, locks b' u]
  by_cases here : u = t
  · subst here
    rw [update_self, before, after]
  · rw [update_of_ne here]

variable {r : Rank}

section
omit [DecidableEq Profile] [DecidableEq Rank] [DecidableEq Thread]

lemma Located.mono {among : Bool → Bool} {p : Profile} (located : Located d r among p)
    (kept : ∀ b' p, p ∈ d.pend b' → p ∈ d'.pend b' ∨ p ∈ d'.stored) (stored : ∀ p ∈ d.stored, p ∈ d'.stored) :
    Located d' r among p := by
  rcases located with final | ⟨b', isAmong, pending⟩
  · exact .inl (stored p final)
  · rcases kept (r, b') p pending with still | final
    · exact .inr ⟨b', isAmong, still⟩
    · exact .inl final

lemma Local.mono (mine : Local owner d r pc)
    (kept : ∀ b' p, p ∈ d.pend b' → p ∈ d'.pend b' ∨ p ∈ d'.stored) (stored : ∀ p ∈ d.stored, p ∈ d'.stored) :
    Local owner d' r pc where
  fresh := mine.fresh
  written p call := ⟨(mine.written p call).1, (mine.written p call).2.mono kept stored⟩
  flushed since call p member := (mine.flushed since call p member).mono kept stored

end

omit [DecidableEq Profile] [DecidableEq Rank] in
lemma Follows.quiet (follows : Follows rank owner s d) (moved : s'.pc = update s.pc t pc)
    (shared : s'.pos = s.pos ∧ s'.file = s.file ∧ s'.offsets = s.offsets)
    (bufs : ∀ b', (s'.bufs b').blob = (s.bufs b').blob ∧ (s'.bufs b').toUpdate = (s.bufs b').toUpdate)
    (locks : Locks rank s') (free : ∀ b', (s'.bufs b').lowlock = none → d.stage b' = .packed)
    (own : ∀ b', pc.low = some b' → d.stage (rank t, b') = pc.stage)
    (fresh : ∀ p, pc.fresh = some p → (s.pc t).fresh = some p ∨ p ∉ s.called ∧ p ∈ s'.called)
    (called : ∀ p ∈ s.called, p ∈ s'.called) (mine : Local owner d (rank t) pc)
    (returned : ∀ p ∈ s'.returned, p ∈ s.returned ∨ Located d (owner p) (fun _ => true) p)
    (settled : ∀ p ∈ s'.settled, p ∈ s.settled ∨ p ∈ d.stored) : Follows rank owner s' d where
  pos := follows.pos.trans shared.1.symm
  file := follows.file.trans shared.2.1.symm
  offsets := follows.offsets.trans shared.2.2.symm
  blob b' := (follows.blob b').trans (bufs b').1.symm
  toUpdate b' notUpdated := (bufs b').2.trans (follows.toUpdate b' notUpdated)
  locks := locks
  free := free
  held u b' low := by
    rw [moved] at low ⊢
    rcases eq_or_ne u t with rfl | other
    · rw [update_self] at low ⊢
      exact own b' low
    · rw [update_of_ne other] at low ⊢
      exact follows.held u b' low
  fresh := by
    rw [moved]
    refine follows.fresh.update fun u p other new old => ?_
    rcases fresh p new with before | ⟨uncalled, -⟩
    · exact other (follows.fresh u t p old before)
    · exact uncalled (follows.unplaced u p old).1
  unplaced u p isFresh := by
    rw [moved] at isFresh
    rcases eq_or_ne u t with rfl | other
    · rw [update_self] at isFresh
      rcases fresh p isFresh with before | ⟨uncalled, nowCalled⟩
      · exact ⟨called p (follows.unplaced u p before).1, (follows.unplaced u p before).2⟩
      · exact ⟨nowCalled, fun final => uncalled (follows.known p (.inl final)),
          fun b' pending => uncalled (follows.known p (.inr ⟨b', pending⟩))⟩
    · rw [update_of_ne other] at isFresh
      exact ⟨called p (follows.unplaced u p isFresh).1, (follows.unplaced u p isFresh).2⟩
  known p placed := called p (follows.known p placed)
  threads u := by
    rw [moved]
    rcases eq_or_ne u t with rfl | other
    · rw [update_self]
      exact mine
    · rw [update_of_ne other]
      exact follows.threads u
  returned p member := (returned p member).elim (follows.returned p) id
  settled p member := (settled p member).elim (follows.settled p) id

omit [DecidableEq Profile] in
lemma Follows.hold (follows : Follows rank owner s d) (holding : (s.pc t).low = some b)
    (moved : s'.pc = update s.pc t pc) (low : pc.low = some b)
    (lock : (s'.bufs (rank t, b)).lowlock = some t) (bufs : ∀ b', b' ≠ (rank t, b) → s'.bufs b' = s.bufs b')
    (behind : ∀ b', b' ≠ (rank t, b) → d'.blob b' = d.blob b' ∧ d'.pend b' = d.pend b' ∧ d'.stage b' = d.stage b')
    (shared : d'.pos = s'.pos ∧ d'.file = s'.file ∧ d'.offsets = s'.offsets)
    (blob : d'.blob (rank t, b) = (s'.bufs (rank t, b)).blob) (stage : d'.stage (rank t, b) = pc.stage)
    (toUpdate : pc.stage ≠ .updated → (s'.bufs (rank t, b)).toUpdate = targets (d'.pend (rank t, b)))
    (kept : ∀ b' p, p ∈ d.pend b' → p ∈ d'.pend b' ∨ p ∈ d'.stored) (stored : ∀ p ∈ d.stored, p ∈ d'.stored)
    (new : ∀ p, (p ∈ d'.stored ∨ ∃ b', p ∈ d'.pend b') →
      (p ∈ d.stored ∨ ∃ b', p ∈ d.pend b') ∨ (s.pc t).fresh = some p)
    (laid : pc.fresh = none) (calls : s'.called = s.called ∧ s'.returned = s.returned ∧ s'.settled = s.settled)
    (mine : Local owner d' (rank t) pc) : Follows rank owner s' d' where
  pos := shared.1
  file := shared.2.1
  offsets := shared.2.2
  blob b' := by
    rcases eq_or_ne b' (rank t, b) with rfl | other
    · exact blob
    · rw [bufs b' other, (behind b' other).1, follows.blob b']
  toUpdate b' notUpdated := by
    rcases eq_or_ne b' (rank t, b) with rfl | other
    · exact toUpdate (stage ▸ notUpdated)
    · rw [(behind b' other).2.2] at notUpdated
      rw [bufs b' other, (behind b' other).2.1, follows.toUpdate b' notUpdated]
  locks := by
    refine follows.locks.update (rank t, b) moved rfl (fun b' other => by rw [bufs b' other]) ?_ ?_ ?_ ?_
    · exact fun b' before => Option.some.inj (before.symm.trans holding)
    · exact fun b' after => Option.some.inj (after.symm.trans low)
    · exact fun u holder => Option.some.inj (holder.symm.trans ((follows.locks (rank t, b) t).mpr ⟨rfl, holding⟩))
    · rw [lock, low, if_neg (Option.some_ne_none b)]
  free b' unlocked := by
    rcases eq_or_ne b' (rank t, b) with rfl | other
    · rw [lock] at unlocked
      cases unlocked
    · rw [bufs b' other] at unlocked
      rw [(behind b' other).2.2, follows.free b' unlocked]
  held u b' lowU := by
    rw [moved] at lowU ⊢
    rcases eq_or_ne u t with rfl | other
    · rw [update_self] at lowU ⊢
      obtain rfl := Option.some.inj (lowU.symm.trans low)
      exact stage
    · rw [update_of_ne other] at lowU ⊢
      have differ : (rank u, b') ≠ (rank t, b) := by
        intro same
        have first := (follows.locks (rank u, b') u).mpr ⟨rfl, lowU⟩
        rw [same, (follows.locks (rank t, b) t).mpr ⟨rfl, holding⟩] at first
        exact other (Option.some.inj first).symm
      rw [(behind _ differ).2.2, follows.held u b' lowU]
  fresh := by
    rw [moved]
    refine follows.fresh.keep fun p isFresh => ?_
    rw [laid] at isFresh
    cases isFresh
  unplaced u p isFresh := by
    rw [moved] at isFresh
    rcases eq_or_ne u t with rfl | other
    · rw [update_self, laid] at isFresh
      cases isFresh
    · rw [update_of_ne other] at isFresh
      obtain ⟨called, notStored, notPending⟩ := follows.unplaced u p isFresh
      have stays : ¬(p ∈ d'.stored ∨ ∃ b', p ∈ d'.pend b') := by
        intro placed
        rcases new p placed with (final | ⟨b', pending⟩) | before
        · exact notStored final
        · exact notPending b' pending
        · exact other (follows.fresh u t p isFresh before)
      exact ⟨calls.1 ▸ called, fun final => stays (.inl final), fun b' pending => stays (.inr ⟨b', pending⟩)⟩
  known p placed := by
    rw [calls.1]
    rcases new p placed with before | isFresh
    · exact follows.known p before
    · exact (follows.unplaced t p isFresh).1
  threads u := by
    rw [moved]
    rcases eq_or_ne u t with rfl | other
    · rw [update_self]
      exact mine
    · rw [update_of_ne other]
      exact (follows.threads u).mono kept stored
  returned p member := (follows.returned p (calls.2.1 ▸ member)).mono kept stored
  settled p member := stored p (follows.settled p (calls.2.2 ▸ member))

/-! ## The steps of the threads -/

section
omit [DecidableEq Profile] [DecidableEq Rank] [DecidableEq Thread]

lemma Local.of_write {p : Profile} (fresh : pc.fresh = none) (call : pc.call = some (.write p))
    (written : owner p = r ∧ Located d r (fun _ => true) p) : Local owner d r pc where
  fresh q isFresh := by
    rw [fresh] at isFresh
    cases isFresh
  written q isCall := by
    obtain rfl : p = q := by simpa [call] using isCall
    exact written
  flushed since isCall := by simp [call] at isCall

lemma Local.of_flush {since : List Profile} (fresh : pc.fresh = none)
    (call : pc.call = some (.flush since)) (flushed : ∀ p ∈ since, Located d r pc.left p) : Local owner d r pc where
  fresh q isFresh := by
    rw [fresh] at isFresh
    cases isFresh
  written q isCall := by simp [call] at isCall
  flushed later isCall := by
    obtain rfl : since = later := by simpa [call] using isCall
    exact flushed

lemma Local.next {before after : Pc Profile} (mine : Local owner d r before) (fresh : after.fresh = none)
    (call : after.call = before.call) (left : ∀ since, after.call = some (.flush since) → before.left = after.left) :
    Local owner d r after where
  fresh q isFresh := by
    rw [fresh] at isFresh
    cases isFresh
  written p isCall := mine.written p (call ▸ isCall)
  flushed since isCall p member := left since isCall ▸ mine.flushed since (call ▸ isCall) p member

end

variable {p : Profile} {call : Call Profile} {offset : ℕ} {since : List Profile} {needsFlush : Bool}

omit [DecidableEq Profile] [DecidableEq Thread] in
lemma bufs_setLowlock (s : State Profile Rank Thread) (mine b' : Rank × Bool) (holder : Option Thread) :
    ((s.setBuf mine { s.bufs mine with lowlock := holder }).bufs b').blob = (s.bufs b').blob ∧
      ((s.setBuf mine { s.bufs mine with lowlock := holder }).bufs b').toUpdate = (s.bufs b').toUpdate ∧
      ((s.setBuf mine { s.bufs mine with lowlock := holder }).bufs b').lowlock =
        if b' = mine then holder else (s.bufs b').lowlock := by
  rcases eq_or_ne b' mine with rfl | other
  · simp [State.setBuf]
  · simp [State.setBuf, other]

omit [DecidableEq Profile] in
lemma Follows.acquire (follows : Follows rank owner s d) (outside : (s.pc t).low = none)
    (unlocked : (s.bufs (rank t, b)).lowlock = none) (low : pc.low = some b) (stage : pc.stage = .packed)
    (fresh : ∀ p, pc.fresh = some p → (s.pc t).fresh = some p) (mine : Local owner d (rank t) pc) :
    Follows rank owner ((s.setBuf (rank t, b) { s.bufs (rank t, b) with lowlock := some t }).move t pc) d := by
  have bufs := fun b' => bufs_setLowlock s (rank t, b) b' (some t)
  refine follows.quiet rfl ⟨rfl, rfl, rfl⟩ (fun b' => ⟨(bufs b').1, (bufs b').2.1⟩) ?_
    (fun b' free => ?_) (fun b' held => ?_)
    (fun p isFresh => .inl (fresh p isFresh)) (fun p member => member) mine (fun p => .inl) fun p => .inl
  · refine follows.locks.update (rank t, b) rfl rfl (fun b' other => (bufs b').2.2.trans (if_neg other)) ?_ ?_ ?_ ?_
    · intro b' held
      rw [outside] at held
      cases held
    · exact fun b' after => Option.some.inj (after.symm.trans low)
    · intro u holder
      rw [unlocked] at holder
      cases holder
    · rw [low, if_neg (Option.some_ne_none b)]
      exact (bufs _).2.2.trans (if_pos rfl)
  · rcases eq_or_ne b' (rank t, b) with rfl | other
    · exact follows.free _ unlocked
    · exact follows.free b' (((bufs b').2.2.trans (if_neg other)).symm.trans free)
  · obtain rfl := Option.some.inj (held.symm.trans low)
    rw [stage, follows.free _ unlocked]

omit [DecidableEq Profile] in
lemma Follows.release (follows : Follows rank owner s d) (now : s.pc t = .unlockLow call b) (low : pc.low = none)
    (fresh : pc.fresh = none) (mine : Local owner d (rank t) pc) (returned settled : List Profile)
    (isReturned : ∀ p ∈ returned, p ∈ s.returned ∨ Located d (owner p) (fun _ => true) p)
    (isSettled : ∀ p ∈ settled, p ∈ s.settled ∨ p ∈ d.stored) :
    Follows rank owner { (s.setBuf (rank t, b) { s.bufs (rank t, b) with lowlock := none }).move t pc with
      returned := returned, settled := settled } d := by
  have holding : (s.pc t).low = some b := by rw [now, Pc.low]
  have bufs := fun b' => bufs_setLowlock s (rank t, b) b' (none)
  refine follows.quiet rfl ⟨rfl, rfl, rfl⟩ (fun b' => ⟨(bufs b').1, (bufs b').2.1⟩) ?_
    (fun b' free => ?_) (fun b' held => ?_)
    (fun p isFresh => ?_) (fun p member => member) mine isReturned isSettled
  · refine follows.locks.update (rank t, b) rfl rfl (fun b' other => (bufs b').2.2.trans (if_neg other)) ?_ ?_ ?_ ?_
    · exact fun b' held => Option.some.inj (held.symm.trans holding)
    · intro b' held
      rw [low] at held
      cases held
    · exact fun u holder => Option.some.inj (holder.symm.trans ((follows.locks (rank t, b) t).mpr ⟨rfl, holding⟩))
    · rw [low, if_pos rfl]
      exact (bufs _).2.2.trans (if_pos rfl)
  · rcases eq_or_ne b' (rank t, b) with rfl | other
    · rw [follows.held t b holding, now, Pc.stage]
    · exact follows.free b' (((bufs b').2.2.trans (if_neg other)).symm.trans free)
  · rw [low] at held
    cases held
  · rw [fresh] at isFresh
    cases isFresh

lemma foldl_targets {ps : List Profile} (nodup : ps.Nodup) (offsets : Offsets Profile) (offset : ℕ) :
    (targets ps).foldl (fun offsets target => update offsets target (offsets target + offset)) offsets =
      fun target => if target.1 ∈ ps then offsets target + offset else offsets target := by
  induction ps generalizing offsets with
  | nil => simp [targets]
  | cons p ps ih =>
    obtain ⟨outside, nodup⟩ := nodup_cons.mp nodup
    have split : targets (p :: ps) = [(p, Field.pValues), (p, .pCtxIndices)] ++ targets ps := by
      rw [targets, flatMap_cons, targets]
    rw [split, foldl_append, ih nodup]
    funext target
    obtain ⟨q, field⟩ := target
    by_cases here : q = p
    · subst here
      cases field <;> simp [outside]
    · simp [here]

lemma Follows.layOut (inv : d.Inv blobs) (follows : Follows rank owner s d) (now : s.pc t = .layOut p b)
    (ran : run blobs rank s t = some s') :
    (d.layOut blobs (rank t, b) p).Inv blobs ∧ Follows rank owner s' (d.layOut blobs (rank t, b) p) := by
  have holding : (s.pc t).low = some b := by rw [now, Pc.low]
  have fresh : (s.pc t).fresh = some p := by rw [now, Pc.fresh]
  have stage : d.stage (rank t, b) = .packed := by rw [follows.held t b holding, now, Pc.stage]
  obtain ⟨called, notStored, notPending⟩ := follows.unplaced t p fresh
  have pend : (d.layOut blobs (rank t, b) p).pend (rank t, b) = d.pend (rank t, b) ++ [p] := update_self _ _ _
  refine ⟨inv.layOut stage notPending notStored, ?_⟩
  simp only [run, now, Option.some.injEq] at ran
  subst ran
  refine follows.hold holding rfl rfl ?_ ?_ ?_ ?_ ?_ ?_ ?_ ?_ ?_ ?_ rfl ⟨rfl, rfl, rfl⟩ ?_
  · simp only [State.move, State.setBuf, update_self]
    exact (follows.locks (rank t, b) t).mpr ⟨rfl, holding⟩
  · exact fun b' other => update_of_ne other _ _
  · exact fun b' other => ⟨rfl, update_of_ne other _ _, update_of_ne other _ _⟩
  · refine ⟨follows.pos, follows.file, ?_⟩
    simp only [layOut, State.setBuf, follows.offsets, follows.blob]
  · simp only [layOut, State.move, State.setBuf, update_self, follows.blob]
  · simp only [layOut, update_self, Pc.stage]
  · intro _
    simp only [State.move, State.setBuf, update_self, pend]
    rw [follows.toUpdate _ (by simp [stage]), targets, targets, flatMap_append,
      flatMap_singleton]
  · intro b' q pending
    rcases eq_or_ne b' (rank t, b) with rfl | other
    · exact .inl (pend ▸ mem_append_left _ pending)
    · exact .inl (by simpa only [layOut, update_of_ne other] using pending)
  · exact fun q final => final
  · rintro q (final | ⟨b', pending⟩)
    · exact .inl (.inl final)
    · rcases eq_or_ne b' (rank t, b) with rfl | other
      · rw [pend] at pending
        rcases mem_append.mp pending with old | new
        · exact .inl (.inr ⟨_, old⟩)
        · rw [mem_singleton.mp new]
          exact .inr fresh
      · exact .inl (.inr ⟨b', by simpa only [layOut, update_of_ne other] using pending⟩)
  · refine .of_write rfl rfl ⟨(follows.threads t).fresh p fresh, .inr ⟨b, rfl, ?_⟩⟩
    rw [pend]
    exact mem_append_right _ mem_cons_self

omit [DecidableEq Profile] in
lemma Follows.work (follows : Follows rank owner s d) (holding : (s.pc t).low = some b)
    (moved : s'.pc = update s.pc t pc) (low : pc.low = some b)
    (lock : (s'.bufs (rank t, b)).lowlock = (s.bufs (rank t, b)).lowlock)
    (bufs : ∀ b', b' ≠ (rank t, b) → s'.bufs b' = s.bufs b') (pend : d'.pend = d.pend) (stored : d'.stored = d.stored)
    (behind : ∀ b', b' ≠ (rank t, b) → d'.blob b' = d.blob b' ∧ d'.stage b' = d.stage b')
    (shared : d'.pos = s'.pos ∧ d'.file = s'.file ∧ d'.offsets = s'.offsets)
    (blob : d'.blob (rank t, b) = (s'.bufs (rank t, b)).blob) (stage : d'.stage (rank t, b) = pc.stage)
    (toUpdate : pc.stage ≠ .updated → (s'.bufs (rank t, b)).toUpdate = targets (d.pend (rank t, b)))
    (laid : pc.fresh = none) (calls : s'.called = s.called ∧ s'.returned = s.returned ∧ s'.settled = s.settled)
    (call : pc.call = (s.pc t).call) (left : ∀ since, pc.call = some (.flush since) → (s.pc t).left = pc.left) :
    Follows rank owner s' d' := by
  have mine : Local owner d (rank t) pc := (follows.threads t).next laid call left
  have kept : ∀ b' p, p ∈ d.pend b' → p ∈ d'.pend b' ∨ p ∈ d'.stored := fun b' p pending => .inl (pend ▸ pending)
  have final : ∀ p ∈ d.stored, p ∈ d'.stored := fun p member => stored ▸ member
  refine follows.hold holding moved low (lock.trans ((follows.locks (rank t, b) t).mpr ⟨rfl, holding⟩)) bufs
    (fun b' other => ⟨(behind b' other).1, congrFun pend b', (behind b' other).2⟩) shared blob stage
    (fun working => (toUpdate working).trans (by rw [pend])) kept final (fun p placed => .inl ?_) laid calls
    (mine.mono kept final)
  rwa [pend, stored] at placed

lemma Follows.unlockTop (follows : Follows rank owner s d) (now : s.pc t = .unlockTop p b needsFlush)
    (ran : run blobs rank s t = some s') : Follows rank owner s' d := by
  have holding : (s.pc t).low = some b := by rw [now, Pc.low]
  have stage := follows.held t b holding
  simp only [run, now, Option.some.injEq] at ran
  subst ran
  rw [now] at stage
  refine follows.work holding rfl rfl rfl (fun b' _ => rfl) rfl rfl (fun b' _ => ⟨rfl, rfl⟩)
    ⟨follows.pos, follows.file, follows.offsets⟩ (follows.blob _) stage (fun _ => follows.toUpdate _ ?_) rfl
    ⟨rfl, rfl, rfl⟩ (congrArg Pc.call now).symm fun since flush => by simp [Pc.call] at flush
  simp [stage, Pc.stage]

lemma Follows.append (inv : d.Inv blobs) (follows : Follows rank owner s d) (now : s.pc t = .append p b needsFlush)
    (ran : run blobs rank s t = some s') :
    (d.append blobs (rank t, b) p).Inv blobs ∧ Follows rank owner s' (d.append blobs (rank t, b) p) := by
  have holding : (s.pc t).low = some b := by rw [now, Pc.low]
  have stage : d.stage (rank t, b) = .laid p := by rw [follows.held t b holding, now, Pc.stage]
  refine ⟨inv.append stage, ?_⟩
  simp only [run, now, Option.some.injEq] at ran
  subst ran
  have listed := follows.toUpdate (rank t, b) (by simp [stage])
  refine follows.work holding rfl ?_ ?_ (fun b' other => update_of_ne other _ _) rfl rfl
    (fun b' other => ⟨update_of_ne other _ _, update_of_ne other _ _⟩)
    ⟨follows.pos, follows.file, follows.offsets⟩ ?_ ?_ (fun _ => ?_) ?_ ⟨rfl, rfl, rfl⟩ ?_ ?_
  · cases needsFlush <;> rfl
  · simp only [State.move, State.setBuf, update_self]
  · simp only [append, State.move, State.setBuf, update_self, follows.blob, follows.offsets]
  · simp only [append, update_self]
    cases needsFlush <;> rfl
  · simpa only [State.move, State.setBuf, update_self] using listed
  · cases needsFlush <;> rfl
  · rw [now]
    cases needsFlush <;> rfl
  · intro since flush
    cases needsFlush <;> simp [Pc.call] at flush

lemma Follows.allocate (inv : d.Inv blobs) (follows : Follows rank owner s d) (now : s.pc t = .allocate call b)
    (ran : run blobs rank s t = some s') :
    (d.allocate (rank t, b)).Inv blobs ∧ Follows rank owner s' (d.allocate (rank t, b)) := by
  have holding : (s.pc t).low = some b := by rw [now, Pc.low]
  have stage : d.stage (rank t, b) = .packed := by rw [follows.held t b holding, now, Pc.stage]
  refine ⟨inv.allocate stage, ?_⟩
  simp only [run, now, Option.some.injEq] at ran
  subst ran
  refine follows.work holding rfl rfl rfl (fun b' _ => rfl) rfl rfl
    (fun b' other => ⟨rfl, update_of_ne other _ _⟩) ⟨?_, follows.file, follows.offsets⟩ (follows.blob _) ?_
    (fun _ => follows.toUpdate _ (by simp [stage])) rfl ⟨rfl, rfl, rfl⟩ (congrArg Pc.call now).symm
    fun since _ => (congrArg Pc.left now).trans rfl
  · simp only [allocate, follows.pos, follows.blob]
  · simp only [allocate, update_self, Pc.stage, follows.pos]

lemma writeat_nil (file : Bytes) (offset : ℕ) : ProfileDb.writeat file offset [] = file := by
  funext i
  rw [ProfileDb.writeat, if_neg]
  rw [length_nil]
  omega

lemma Follows.writeat (inv : d.Inv blobs) (follows : Follows rank owner s d) (now : s.pc t = .writeat call b offset)
    (ran : run blobs rank s t = some s') :
    (d.write (rank t, b) offset).Inv blobs ∧ Follows rank owner s' (d.write (rank t, b) offset) := by
  have holding : (s.pc t).low = some b := by rw [now, Pc.low]
  have stage : d.stage (rank t, b) = .placed offset false := by rw [follows.held t b holding, now, Pc.stage]
  refine ⟨inv.write stage, ?_⟩
  simp only [run, now, Option.some.injEq] at ran
  subst ran
  refine follows.work holding rfl rfl rfl (fun b' _ => rfl) rfl rfl
    (fun b' other => ⟨rfl, update_of_ne other _ _⟩) ⟨follows.pos, ?_, follows.offsets⟩ (follows.blob _) ?_
    (fun _ => follows.toUpdate _ (by simp [stage])) rfl ⟨rfl, rfl, rfl⟩ (congrArg Pc.call now).symm
    fun since _ => (congrArg Pc.left now).trans rfl
  · simp only [write, follows.file, follows.blob]
    split
    · rename_i empty
      rw [empty, writeat_nil]
    · rfl
  · simp only [write, update_self, Pc.stage]

lemma Follows.clear (inv : d.Inv blobs) (follows : Follows rank owner s d) (now : s.pc t = .clear call b)
    (ran : run blobs rank s t = some s') :
    (d.clear (rank t, b)).Inv blobs ∧ Follows rank owner s' (d.clear (rank t, b)) := by
  have holding : (s.pc t).low = some b := by rw [now, Pc.low]
  have stage : d.stage (rank t, b) = .updated := by rw [follows.held t b holding, now, Pc.stage]
  have empty := inv.stages (rank t, b)
  simp only [Buffers.StageOk, stage] at empty
  refine ⟨inv.clear stage, ?_⟩
  simp only [run, now, Option.some.injEq] at ran
  subst ran
  refine follows.work holding rfl rfl ?_ (fun b' other => update_of_ne other _ _) rfl rfl
    (fun b' other => ⟨update_of_ne other _ _, update_of_ne other _ _⟩)
    ⟨follows.pos, follows.file, follows.offsets⟩ ?_ ?_ (fun _ => ?_) rfl ⟨rfl, rfl, rfl⟩ (congrArg Pc.call now).symm
    fun since _ => (congrArg Pc.left now).trans rfl
  · simp only [State.move, State.setBuf, update_self]
  · simp only [clear, State.move, State.setBuf, update_self]
  · simp only [clear, update_self, Pc.stage]
  · simp only [State.move, State.setBuf, update_self, empty, targets, flatMap_nil]

lemma Follows.update (inv : d.Inv blobs) (follows : Follows rank owner s d) (now : s.pc t = .update call b offset)
    (ran : run blobs rank s t = some s') :
    (d.settle (rank t, b) offset).Inv blobs ∧ Follows rank owner s' (d.settle (rank t, b) offset) := by
  have holding : (s.pc t).low = some b := by rw [now, Pc.low]
  have stage : d.stage (rank t, b) = .placed offset true := by rw [follows.held t b holding, now, Pc.stage]
  refine ⟨inv.settle stage, ?_⟩
  simp only [run, now, Option.some.injEq] at ran
  subst ran
  have kept : ∀ b' p, p ∈ d.pend b' →
      p ∈ (d.settle (rank t, b) offset).pend b' ∨ p ∈ (d.settle (rank t, b) offset).stored := by
    intro b' q pending
    rcases eq_or_ne b' (rank t, b) with rfl | other
    · exact .inr (mem_append_left _ pending)
    · exact .inl (by simpa only [settle, update_of_ne other] using pending)
  have final : ∀ p ∈ d.stored, p ∈ (d.settle (rank t, b) offset).stored := fun q member =>
    mem_append_right _ member
  have mine := follows.threads t
  rw [now] at mine
  refine follows.hold holding rfl rfl ((follows.locks (rank t, b) t).mpr ⟨rfl, holding⟩) (fun b' _ => rfl)
    (fun b' other => ⟨rfl, update_of_ne other _ _, update_of_ne other _ _⟩)
    ⟨follows.pos, follows.file, ?_⟩ (follows.blob _) ?_ (fun working => absurd rfl working) kept final ?_ rfl
    ⟨rfl, rfl, rfl⟩ ⟨fun p fresh => ?_, fun p write => ?_, fun since flush p member => ?_⟩
  · rw [follows.toUpdate _ (by simp [stage]), foldl_targets (inv.nodup _), ← follows.offsets]
    rfl
  · simp only [settle, update_self, Pc.stage]
  · rintro q (placed | ⟨b', pending⟩)
    · rcases mem_append.mp placed with new | old
      · exact .inl (.inr ⟨_, new⟩)
      · exact .inl (.inl old)
    · rcases eq_or_ne b' (rank t, b) with rfl | other
      · simp [settle] at pending
      · exact .inl (.inr ⟨b', by simpa only [settle, update_of_ne other] using pending⟩)
  · cases fresh
  · exact ((mine.mono kept final).written p write)
  · -- what the flush has come to is now stored
    rcases mine.flushed since flush p member with old | ⟨b', left, pending⟩
    · exact .inl (final p old)
    · rcases eq_or_ne b' b with rfl | other
      · exact .inl (mem_append_left _ pending)
      · have elsewhere : (rank t, b') ≠ (rank t, b) := fun same => other (congrArg Prod.snd same)
        refine .inr ⟨b', ?_, by simpa only [settle, update_of_ne elsewhere] using pending⟩
        cases b <;> cases b' <;> simp_all [Pc.left]

omit [DecidableEq Profile] in
lemma Follows.lockTop (follows : Follows rank owner s d) (now : s.pc t = .lockTop p) :
    Follows rank owner ((s.setToplock (rank t) (some t)).move t (.lockCurrent p)) d := by
  have fresh : (s.pc t).fresh = some p := by rw [now, Pc.fresh]
  refine follows.quiet rfl ⟨rfl, rfl, rfl⟩ (fun b' => ⟨rfl, rfl⟩)
    (follows.locks.outside rfl (fun b' => rfl) (by rw [now, Pc.low]) rfl) follows.free (fun b' held => ?_)
    (fun q isFresh => .inl (fresh.trans isFresh)) (fun q member => member) ⟨fun q isFresh => ?_, ?_, ?_⟩
    (fun q => .inl) fun q => .inl
  · cases held
  · exact (follows.threads t).fresh q (fresh.trans isFresh)
  · exact fun q isCall => by cases isCall
  · exact fun since isCall => by cases isCall

lemma run_follows (inv : d.Inv blobs) (follows : Follows rank owner s d) (ran : run blobs rank s t = some s') :
    ∃ d' : Buffers (Rank × Bool) Profile, d'.Inv blobs ∧ Follows rank owner s' d' := by
  have mine := follows.threads t
  cases now : s.pc t with
  | idle => simp [run, now] at ran
  | lockTop p =>
    simp only [run, now, Option.ite_none_right_eq_some, Option.some.injEq] at ran
    obtain ⟨-, rfl⟩ := ran
    exact ⟨d, inv, follows.lockTop now⟩
  | lockCurrent p =>
    simp only [run, now, Option.ite_none_right_eq_some, Option.some.injEq] at ran
    obtain ⟨unlocked, rfl⟩ := ran
    have fresh : (s.pc t).fresh = some p := by rw [now, Pc.fresh]
    refine ⟨d, inv, follows.acquire (by rw [now, Pc.low]) unlocked rfl rfl (fun q isFresh => fresh.trans isFresh)
      ⟨fun q isFresh => mine.fresh q (fresh.trans isFresh), ?_, ?_⟩⟩
    · exact fun q isCall => by cases isCall
    · exact fun since isCall => by cases isCall
  | layOut p b => exact ⟨_, follows.layOut inv now ran⟩
  | unlockTop p b needsFlush => exact ⟨d, inv, follows.unlockTop now ran⟩
  | append p b needsFlush => exact ⟨_, follows.append inv now ran⟩
  | lockLow since b =>
    simp only [run, now, Option.ite_none_right_eq_some, Option.some.injEq] at ran
    obtain ⟨unlocked, rfl⟩ := ran
    refine ⟨d, inv, follows.acquire (by rw [now, Pc.low]) unlocked rfl rfl (fun q isFresh => ?_)
      (mine.next rfl (congrArg Pc.call now).symm fun since _ => (congrArg Pc.left now).trans rfl)⟩
    cases isFresh
  | allocate call b => exact ⟨_, follows.allocate inv now ran⟩
  | writeat call b offset => exact ⟨_, follows.writeat inv now ran⟩
  | update call b offset => exact ⟨_, follows.update inv now ran⟩
  | clear call b => exact ⟨_, follows.clear inv now ran⟩
  | unlockLow call b =>
    cases call with
    | write p =>
      simp only [run, now, Option.some.injEq] at ran
      subst ran
      obtain ⟨own, located⟩ := mine.written p (by rw [now, Pc.call])
      refine ⟨d, inv, follows.release now rfl rfl ⟨?_, ?_, ?_⟩ (p :: s.returned) s.settled (fun q member => ?_)
        fun q => .inl⟩
      · exact fun q isFresh => by cases isFresh
      · exact fun q isCall => by cases isCall
      · exact fun since isCall => by cases isCall
      · rcases mem_cons.mp member with rfl | old
        · exact .inr (own ▸ located)
        · exact .inl old
    | flush since =>
      have flushed := mine.flushed since (by rw [now, Pc.call])
      rw [now] at flushed
      cases b with
      | false =>
        simp only [run, now, Bool.false_eq_true, if_false, Option.some.injEq] at ran
        subst ran
        refine ⟨d, inv, follows.release now rfl rfl (.of_flush rfl rfl fun p member => ?_) s.returned s.settled
          (fun q => .inl) fun q => .inl⟩
        exact flushed p member
      | true =>
        simp only [run, now, if_true, Option.some.injEq] at ran
        subst ran
        refine ⟨d, inv, follows.release now rfl rfl ⟨?_, ?_, ?_⟩ s.returned (since ++ s.settled) (fun q => .inl)
          fun q member => ?_⟩
        · exact fun q isFresh => by cases isFresh
        · exact fun q isCall => by cases isCall
        · exact fun since isCall => by cases isCall
        · rcases mem_append.mp member with new | old
          · rcases flushed q new with final | ⟨b', left, -⟩
            · exact .inr final
            · simp [Pc.left] at left
          · exact .inl old

lemma step_follows {act : Act Profile Thread} (inv : d.Inv blobs) (follows : Follows rank owner s d)
    (stepped : step blobs rank owner s act = some s') :
    ∃ d' : Buffers (Rank × Bool) Profile, d'.Inv blobs ∧ Follows rank owner s' d' := by
  cases act with
  | write t p =>
    cases now : s.pc t <;>
      simp only [step, now, Option.ite_none_right_eq_some, Option.some.injEq, reduceCtorEq] at stepped
    obtain ⟨⟨own, uncalled⟩, rfl⟩ := stepped
    refine ⟨d, inv, follows.quiet rfl ⟨rfl, rfl, rfl⟩ (fun b' => ⟨rfl, rfl⟩)
      (follows.locks.outside rfl (fun b' => rfl) (by rw [now, Pc.low]) rfl) follows.free (fun b' held => ?_)
      (fun q isFresh => ?_) (fun q member => mem_cons_of_mem p member) ⟨fun q isFresh => ?_, ?_, ?_⟩
      (fun q => .inl) fun q => .inl⟩
    · cases held
    · obtain rfl : p = q := Option.some.inj isFresh
      exact .inr ⟨uncalled, mem_cons_self⟩
    · obtain rfl : p = q := Option.some.inj isFresh
      exact own
    · exact fun q isCall => by cases isCall
    · exact fun since isCall => by cases isCall
  | flush t =>
    cases now : s.pc t <;> simp only [step, now, Option.some.injEq, reduceCtorEq] at stepped
    subst stepped
    refine ⟨d, inv, follows.quiet rfl ⟨rfl, rfl, rfl⟩ (fun b' => ⟨rfl, rfl⟩)
      (follows.locks.outside rfl (fun b' => rfl) (by rw [now, Pc.low]) rfl) follows.free (fun b' held => ?_)
      (fun q isFresh => ?_) (fun q member => member) (.of_flush rfl rfl fun q member => ?_) (fun q => .inl)
      fun q => .inl⟩
    · cases held
    · cases isFresh
    · obtain ⟨returned, own⟩ := mem_filter.mp member
      exact of_decide_eq_true own ▸ follows.returned q returned
  | run t => exact run_follows inv follows stepped

omit [DecidableEq Profile] [DecidableEq Rank] [DecidableEq Thread] in
lemma initialized_follows (startOffset : ℕ) (file : Bytes) (offsets : Offsets Profile) :
    ∃ d : Buffers (Rank × Bool) Profile, d.Inv blobs ∧
      Follows rank owner (initialized startOffset file offsets : State Profile Rank Thread) d := by
  refine ⟨⟨align startOffset 4, file, offsets, fun _ => .packed, fun _ => [], fun _ => [], []⟩,
    ⟨align_dvd _ _, fun _ => .nil, fun _ => .nil, ?_, ?_, ?_, ?_, ?_, ?_⟩,
    ⟨rfl, rfl, rfl, fun _ => rfl, fun _ _ => rfl, ?_, fun _ _ => rfl, ?_, ?_, ?_, ?_, fun t => ⟨?_, ?_, ?_⟩, ?_, ?_⟩⟩
  all_goals simp [Locks, Exclusive, initialized, Pc.low, Pc.fresh, Pc.call]

end Steps

/-- Once a flush has returned, the blobs of the profiles written before it stand in the file at the offsets recorded for
them, which are aligned, and the regions of different profiles are apart. -/
theorem settled_blobs_stored {blobs : Blobs Profile} {rank : Thread → Rank} {owner : Profile → Rank} {startOffset : ℕ}
    {file : Bytes} {offsets : Offsets Profile} {s : State Profile Rank Thread}
    (reached : Reachable (step blobs rank owner) (initialized startOffset file offsets) s) :
    (∀ p ∈ s.settled, s.offsets.Lies blobs p s.file) ∧
      ∀ p ∈ s.settled, ∀ q ∈ s.settled, p ≠ q → s.offsets.Apart blobs p q := by
  have followed : ∃ d : Buffers (Rank × Bool) Profile, d.Inv blobs ∧ Follows rank owner s d := by
    refine reached.invariant (P := fun s => ∃ d : Buffers (Rank × Bool) Profile, d.Inv blobs ∧ Follows rank owner s d)
      (initialized_follows startOffset file offsets) ?_
    rintro s s' act ⟨d, inv, follows⟩ stepped
    exact step_follows inv follows stepped
  obtain ⟨d, inv, follows⟩ := followed
  refine ⟨fun p member => ?_, fun p member q memberQ differ => ?_⟩
  · exact follows.offsets ▸ follows.file ▸ (inv.stored p (follows.settled p member)).1
  · exact follows.offsets ▸ inv.apart p (follows.settled p member) q (follows.settled q memberQ) differ

/-- Two profiles are written and flushed by one thread. -/
def twoProfiles : List (Act Bool Unit) :=
  Act.write () false :: replicate 6 (Act.run ()) ++ Act.write () true :: replicate 6 (Act.run ()) ++
    Act.flush () :: replicate 12 (Act.run ())

theorem two_profiles_stored :
    ∃ s : State Bool Unit Unit, s.settled = [true, false] ∧
      (∀ p ∈ s.settled, s.offsets.Lies ⟨fun _ => [1, 2, 3], fun _ => [4]⟩ p s.file) ∧
      ∀ p ∈ s.settled, ∀ q ∈ s.settled, p ≠ q → s.offsets.Apart ⟨fun _ => [1, 2, 3], fun _ => [4]⟩ p q := by
  have run : ∃ s : State Bool Unit Unit, twoProfiles.foldlM
      (step ⟨fun _ => [1, 2, 3], fun _ => [4]⟩ id fun _ => ()) (initialized 5 (fun _ => none) fun _ => 0) = some s ∧
      s.settled = [true, false] := ⟨_, rfl, rfl⟩
  obtain ⟨s, ran, settled⟩ := run
  exact ⟨s, settled, settled_blobs_stored (Reachable.start.run ran)⟩

/-! ## Calls return -/

/-- The thread has taken `toplock` and not yet released it. -/
def Pc.top : Pc Profile → Bool
  | .lockCurrent _ | .layOut _ _ | .unlockTop _ _ _ => true
  | _ => false

/-- What a flush has to do behind its first buffer. -/
def Call.behind : Call Profile → Bool → ℕ
  | .flush _, false => 6
  | _, _ => 0

/-- The most actions that the thread takes until its call returns. -/
def Pc.ahead : Pc Profile → ℕ
  | .idle => 0
  | .lockTop _ => 10
  | .lockCurrent _ => 9
  | .layOut _ _ => 8
  | .unlockTop _ _ _ => 7
  | .append _ _ _ => 6
  | .lockLow since b => 6 + (Call.flush since).behind b
  | .allocate call b => 5 + call.behind b
  | .writeat call b _ => 4 + call.behind b
  | .update call b _ => 3 + call.behind b
  | .clear call b => 2 + call.behind b
  | .unlockLow call b => 1 + call.behind b

def Act.calls (t : Thread) : Act Profile Thread → Bool
  | .write u _ | .flush u => u = t
  | .run _ => false

def Act.runs (t : Thread) : Act Profile Thread → Bool
  | .run u => u = t
  | _ => false

section
variable {blobs : Blobs Profile} {rank : Thread → Rank} {owner : Profile → Rank} {s s' : State Profile Rank Thread}
  {t : Thread} {b : Rank × Bool}

/-- Only a thread of the rank between its lock and unlock has `toplock`. -/
def TopHeld (rank : Thread → Rank) (s : State Profile Rank Thread) : Prop :=
  ∀ r t, s.toplock r = some t → rank t = r ∧ (s.pc t).top = true

lemma run_spec (ran : run blobs rank s t = some s') :
    (TopHeld rank s → TopHeld rank s') ∧ (s'.pc t).ahead < (s.pc t).ahead ∧ ∀ u, u ≠ t → s'.pc u = s.pc u := by
  cases now : s.pc t <;> simp only [run, now] at ran
  all_goals
    repeat' split at ran
    all_goals cases ran
    all_goals simp only [State.move, State.setToplock, State.setBuf, update_self]
    all_goals refine ⟨?_, by simp [Pc.ahead, Call.behind, *], fun u other => update_of_ne other _ _⟩
    all_goals
      intro held r u holds
      have before := held r u
      simp only [update_apply] at holds ⊢
      grind [Pc.top]

lemma step_spec {act : Act Profile Thread} (stepped : step blobs rank owner s act = some s') :
    (TopHeld rank s → TopHeld rank s') ∧
      ∀ u, (act.runs u).toNat + (s'.pc u).ahead ≤ 12 * (act.calls u).toNat + (s.pc u).ahead := by
  cases act with
  | run t =>
    obtain ⟨kept, less, others⟩ := run_spec stepped
    refine ⟨kept, fun u => ?_⟩
    by_cases same : t = u
    · subst same
      simp only [Act.runs, Act.calls, decide_true, Bool.toNat_true, Bool.toNat_false]
      omega
    · simp [Act.runs, same, others u (Ne.symm same)]
  | write t p | flush t =>
    cases now : s.pc t <;> simp only [step, now, reduceCtorEq] at stepped
    all_goals
      repeat' split at stepped
      all_goals cases stepped
      all_goals simp only [State.move]
      refine ⟨fun held r u holds => ?_, fun u => ?_⟩
      · have before := held r u holds
        simp only [update_apply]
        grind [Pc.top]
      · rcases eq_or_ne u t with rfl | other
        · simp [Act.runs, Act.calls, Pc.ahead, Call.behind, now]
        · simp [Act.runs, Act.calls, other.symm, update_of_ne other]

lemma countP_runs_le {acts : List (Act Profile Thread)} (ran : acts.foldlM (step blobs rank owner) s = some s')
    (t : Thread) : acts.countP (Act.runs t) + (s'.pc t).ahead ≤ 12 * acts.countP (Act.calls t) + (s.pc t).ahead := by
  induction acts generalizing s with
  | nil =>
    cases ran
    simp
  | cons act acts ih =>
    rw [foldlM_cons] at ran
    obtain ⟨next, stepped, ran⟩ := Option.bind_eq_some_iff.mp ran
    have later := ih ran
    have first := (step_spec stepped).2 t
    cases runs : act.runs t <;> cases calls : act.calls t <;> simp [runs, calls] at first ⊢ <;> omega

lemma Locks.some_runs (locks : Locks rank s) (taken : (s.bufs b).lowlock ≠ none) : ∃ u, run blobs rank s u ≠ none := by
  obtain ⟨u, holder⟩ := Option.ne_none_iff_exists'.mp taken
  have low := ((locks b u).mp holder).2
  refine ⟨u, ?_⟩
  cases now : s.pc u <;> rw [now] at low
  case unlockLow call b => cases call <;> cases b <;> simp [run, now]
  all_goals first | (cases low; done) | simp [run, now]

/-- A thread that waits for a lock waits for one that can go on. -/
lemma some_runs (locks : Locks rank s) (held : TopHeld rank s) (busy : s.pc t ≠ .idle) :
    ∃ u, run blobs rank s u ≠ none := by
  have current {u : Thread} {p : Profile} (now : s.pc u = .lockCurrent p) : ∃ u, run blobs rank s u ≠ none := by
    by_cases free : (s.bufs (rank u, s.currentBuf (rank u))).lowlock = none
    · exact ⟨u, by simp [run, now, free]⟩
    · exact locks.some_runs free
  have low {u : Thread} (holds : (s.pc u).low ≠ none) : ∃ u, run blobs rank s u ≠ none := by
    obtain ⟨b, low⟩ := Option.ne_none_iff_exists'.mp holds
    exact locks.some_runs (b := (rank u, b)) (by rw [(locks _ u).mpr ⟨rfl, low⟩]; nofun)
  cases now : s.pc t
  case idle => exact absurd now busy
  case lockTop p =>
    by_cases free : s.toplock (rank t) = none
    · exact ⟨t, by simp [run, now, free]⟩
    · obtain ⟨u, holder⟩ := Option.ne_none_iff_exists'.mp free
      have top := (held _ u holder).2
      cases place : s.pc u <;> rw [place] at top
      case lockCurrent p => exact current place
      all_goals first | (cases top; done) | exact low (u := u) (by rw [place]; nofun)
  case lockCurrent p => exact current now
  case lockLow since b =>
    by_cases free : (s.bufs (rank t, b)).lowlock = none
    · exact ⟨t, by simp [run, now, free]⟩
    · exact locks.some_runs free
  all_goals exact low (u := t) (by rw [now]; nofun)

end

/-- A thread takes at most 12 actions for each of its calls, and as long as some call has not returned, some thread can
go on. -/
theorem calls_return {blobs : Blobs Profile} {rank : Thread → Rank} {owner : Profile → Rank} {startOffset : ℕ}
    {file : Bytes} {offsets : Offsets Profile} {s : State Profile Rank Thread} {acts : List (Act Profile Thread)}
    (ran : acts.foldlM (step blobs rank owner) (initialized startOffset file offsets) = some s) :
    (∀ t, acts.countP (Act.runs t) ≤ 12 * acts.countP (Act.calls t)) ∧
      ((∃ t, s.pc t ≠ .idle) → ∃ u s', step blobs rank owner s (.run u) = some s') := by
  have kept : TopHeld rank s ∧ ∃ d : Buffers (Rank × Bool) Profile, d.Inv blobs ∧ Follows rank owner s d := by
    apply (Reachable.start.run ran).invariant ⟨nofun, initialized_follows startOffset file offsets⟩
    rintro s s' act ⟨held, d, inv, follows⟩ stepped
    exact ⟨(step_spec stepped).1 held, step_follows inv follows stepped⟩
  obtain ⟨held, d, -, follows⟩ := kept
  refine ⟨fun t => Nat.le_of_add_right_le (countP_runs_le ran t), ?_⟩
  rintro ⟨t, busy⟩
  obtain ⟨u, runs⟩ := some_runs follows.locks held busy
  exact ⟨u, Option.ne_none_iff_exists'.mp runs⟩

theorem two_profiles_return : ∃ s : State Bool Unit Unit,
    (∀ t, twoProfiles.countP (Act.runs t) ≤ 12 * twoProfiles.countP (Act.calls t)) ∧
      ((∃ t, s.pc t ≠ .idle) → ∃ u s', step ⟨fun _ => [1, 2, 3], fun _ => [4]⟩ id (fun _ => ()) s (.run u) = some s') := by
  have run : ∃ s : State Bool Unit Unit, twoProfiles.foldlM
      (step ⟨fun _ => [1, 2, 3], fun _ => [4]⟩ id fun _ => ()) (initialized 5 (fun _ => none) fun _ => 0) = some s :=
    ⟨_, rfl⟩
  obtain ⟨s, ran⟩ := run
  exact ⟨s, calls_return ran⟩

end DoubleBufferedOutput

end HpcToolkit.ProfileDb
