import HpcToolkit.Collections.MpscQueue

/-! # The lock of Mellor-Crummey and Scott

A thread that wants the lock exchanges the tail with a queue node of its own, links it behind the old tail and waits
until its flag is cleared. The holder hands the lock over by clearing the flag of the node behind its own; if it knows
of none, it tries to empty the tail, and waits for the link if another thread has already exchanged it. A step is
modelled for each atomic operation. A node is free again when `mcs_unlock` or a failed `mcs_trylock` returns, and its
memory is then used for something else.
-/

open Function List

namespace HpcToolkit.Locks.McsLock

open Lib Collections.MpscQueue

variable {Thread Node : Type}

/-- Where a thread is in `mcs_lock`, `mcs_trylock` or `mcs_unlock`. -/
inductive Pc (Node : Type) where
  | idle
  | lockInit (me : Node)
  | lockExchange (me : Node)
  | lockBlock (me predecessor : Node)
  | lockLink (me predecessor : Node)
  | lockSpin (me : Node)
  | trylockInit (me : Node)
  | trylockSwap (me : Node)
  | holds (me : Node)
  | unlockLoad (me : Node)
  | unlockSwap (me : Node)
  | unlockWait (me : Node)
  | unlockSignal (me successor : Node)
deriving DecidableEq

/-- The lock, the queue nodes and the threads, with the thread that uses each node, the threads in the order in which
they exchanged the tail for their nodes and in the order in which they acquired the lock. -/
structure State (Thread Node : Type) where
  tail : Option Node
  next : Node → Option Node
  blocked : Node → Bool
  pc : Thread → Pc Node
  owner : Node → Option Thread
  exchanged : List Thread
  acquired : List Thread

/-- A call, an atomic operation of a thread, or something else is written to a node that no call uses. -/
inductive Act (Thread Node : Type) where
  | lock (t : Thread) (me : Node)
  | trylock (t : Thread) (me : Node)
  | unlock (t : Thread)
  | run (t : Thread)
  | reuse (node : Node) (next : Option Node) (blocked : Bool)

/-- The node that the thread has given to its call. -/
def Pc.node : Pc Node → Option Node
  | .idle => none
  | .lockInit me | .lockExchange me | .lockBlock me _ | .lockLink me _ | .lockSpin me | .trylockInit me
  | .trylockSwap me | .holds me | .unlockLoad me | .unlockSwap me | .unlockWait me | .unlockSignal me _ => some me

/-- The node of a thread that has exchanged the tail and not yet left `mcs_unlock`. -/
def Pc.queued : Pc Node → Option Node
  | .lockBlock me _ | .lockLink me _ | .lockSpin me | .holds me | .unlockLoad me | .unlockSwap me | .unlockWait me
  | .unlockSignal me _ => some me
  | _ => none

/-- The thread has acquired the lock and not yet released it. -/
def Pc.holding : Pc Node → Bool
  | .holds _ | .unlockLoad _ | .unlockSwap _ | .unlockWait _ | .unlockSignal _ _ => true
  | _ => false

/-- The thread is in the queue but has not acquired the lock. -/
def Pc.waiting : Pc Node → Bool
  | .lockBlock _ _ | .lockLink _ _ | .lockSpin _ => true
  | _ => false

/-- The node that the next operation of a thread writes. -/
def Pc.writes : Pc Node → Option Node
  | .lockInit me | .trylockInit me | .lockBlock me _ => some me
  | .lockLink _ predecessor => some predecessor
  | .unlockSignal _ successor => some successor
  | _ => none

variable [DecidableEq Thread] [DecidableEq Node]

def State.move (s : State Thread Node) (t : Thread) (pc : Pc Node) : State Thread Node :=
  { s with pc := update s.pc t pc }

def State.setNext (s : State Thread Node) (node : Node) (next : Option Node) : State Thread Node :=
  { s with next := update s.next node next }

def State.setBlocked (s : State Thread Node) (node : Node) (blocked : Bool) : State Thread Node :=
  { s with blocked := update s.blocked node blocked }

/-- A thread begins to use a node. -/
def State.take (s : State Thread Node) (t : Thread) (node : Node) : State Thread Node :=
  { s with owner := update s.owner node (some t) }

/-- The call of a thread returns and its node is free. -/
def State.release (s : State Thread Node) (t : Thread) (node : Node) : State Thread Node :=
  { s with owner := update s.owner node none }.move t .idle

/-- The node of a thread becomes the tail. -/
def State.exchange (s : State Thread Node) (t : Thread) (node : Node) : State Thread Node :=
  { s with tail := some node, exchanged := s.exchanged ++ [t] }

def State.acquire (s : State Thread Node) (t : Thread) (node : Node) : State Thread Node :=
  { s with acquired := s.acquired ++ [t] }.move t (.holds node)

/-- One atomic operation of a thread. -/
def run (s : State Thread Node) (t : Thread) : Option (State Thread Node) :=
  match s.pc t with
  | .idle | .holds _ => none
  | .lockInit me => some ((s.setNext me none).move t (.lockExchange me))
  | .lockExchange me =>
    match s.tail with
    | none => some ((s.exchange t me).acquire t me)
    | some predecessor => some ((s.exchange t me).move t (.lockBlock me predecessor))
  | .lockBlock me predecessor => some ((s.setBlocked me true).move t (.lockLink me predecessor))
  | .lockLink me predecessor => some ((s.setNext predecessor (some me)).move t (.lockSpin me))
  | .lockSpin me => if s.blocked me then some s else some (s.acquire t me)
  | .trylockInit me => some ((s.setNext me none).move t (.trylockSwap me))
  | .trylockSwap me => if s.tail = none then some ((s.exchange t me).acquire t me) else some (s.release t me)
  | .unlockLoad me =>
    match s.next me with
    | none => some (s.move t (.unlockSwap me))
    | some successor => some (s.move t (.unlockSignal me successor))
  | .unlockSwap me =>
    if s.tail = some me then some ({ s with tail := none }.release t me) else some (s.move t (.unlockWait me))
  | .unlockWait me =>
    match s.next me with
    | none => some s
    | some successor => some (s.move t (.unlockSignal me successor))
  | .unlockSignal me successor => some ((s.setBlocked successor false).release t me)

def step (s : State Thread Node) : Act Thread Node → Option (State Thread Node)
  | .lock t me =>
    if s.pc t = .idle ∧ s.owner me = none then some ((s.take t me).move t (.lockInit me)) else none
  | .trylock t me =>
    if s.pc t = .idle ∧ s.owner me = none then some ((s.take t me).move t (.trylockInit me)) else none
  | .unlock t =>
    match s.pc t with
    | .holds me => some (s.move t (.unlockLoad me))
    | _ => none
  | .run t => run s t
  | .reuse node next blocked =>
    if s.owner node = none then some ((s.setNext node next).setBlocked node blocked) else none

/-- The lock after `mcs_init`; nothing is known about the nodes. -/
def start (Thread : Type) (next : Node → Option Node) (blocked : Node → Bool) : State Thread Node :=
  ⟨none, next, blocked, fun _ => .idle, fun _ => none, [], []⟩

/-- One thread at most holds the lock; the threads acquire it in the order in which they exchange the tail;
`mcs_trylock` acquires it when nobody is in the queue and only then; a thread writes its own node or that of a thread
that is in the queue, and no other. -/
structure Correct (s : State Thread Node) : Prop where
  exclusive : ∀ t u, (s.pc t).holding = true → (s.pc u).holding = true → t = u
  order : s.acquired <+: s.exchanged
  trylock : ∀ t n s', s.pc t = .trylockSwap n → step s (.run t) = some s' →
    (s'.pc t = .holds n ↔ ∀ u, (s.pc u).queued = none)
  writes : ∀ t n, (s.pc t).writes = some n → ∃ u, (s.pc u).node = some n ∧ (u ≠ t → (s.pc u).queued = some n)
  others : ∀ t n s', step s (.run t) = some s' → (s.pc t).writes ≠ some n →
    s'.next n = s.next n ∧ s'.blocked n = s.blocked n

/-! ## Invariant -/

/-- The thread is about to exchange the tail for its node, whose link is already empty. -/
def Pc.ready : Pc Node → Option Node
  | .lockExchange me | .trylockSwap me => some me
  | _ => none

/-- What the first thread in the queue relies on: it has the lock, or its flag was cleared. -/
def Pc.Front (s : State Thread Node) : Pc Node → Prop
  | .lockSpin me => s.blocked me = false
  | .holds _ | .unlockLoad _ | .unlockSwap _ | .unlockWait _ => True
  | .unlockSignal me successor => s.next me = some successor
  | _ => False

/-- What a thread with another node right before its own relies on. -/
def Pc.Behind (s : State Thread Node) (before : Node) : Pc Node → Prop
  | .lockBlock _ predecessor => predecessor = before ∧ s.next before = none
  | .lockLink me predecessor => predecessor = before ∧ s.next before = none ∧ s.blocked me = true
  | .lockSpin me => s.next before = some me ∧ s.blocked me = true
  | _ => False

/-- The threads that have exchanged the tail, in this order, with their nodes. -/
structure Inv (s : State Thread Node) (q : List (Thread × Node)) : Prop where
  nodup : q.Nodup
  queued : ∀ t n, (t, n) ∈ q ↔ (s.pc t).queued = some n
  owner : ∀ t n, s.owner n = some t ↔ (s.pc t).node = some n
  tail : s.tail = q.getLast?.map Prod.snd
  ready : ∀ t n, (s.pc t).ready = some n → s.next n = none
  front : ∀ e, q.head? = some e → (s.pc e.1).Front s
  behind : ∀ m e, Follows q m e → (s.pc e.1).Behind s m.2
  last : ∀ e, q.getLast? = some e → s.next e.2 = none
  order : s.exchanged = s.acquired ++ (q.filter fun e => (s.pc e.1).waiting).map Prod.fst

variable {s s' : State Thread Node} {q : List (Thread × Node)} {t u : Thread} {n m : Node} {pc : Pc Node}

section
omit [DecidableEq Thread] [DecidableEq Node]

lemma Pc.node_of_queued (queued : pc.queued = some n) : pc.node = some n := by
  cases pc <;> first | exact queued | cases queued

lemma Pc.queued_of_holding (holding : pc.holding = true) : ∃ n, pc.queued = some n := by
  cases pc <;> first | exact ⟨_, rfl⟩ | cases holding

lemma Pc.not_ready_of_queued (queued : pc.queued = some n) : pc.ready = none := by
  cases pc <;> first | rfl | cases queued

lemma Pc.node_of_ready (ready : pc.ready = some n) : pc.node = some n := by
  cases pc <;> first | exact ready | cases ready

lemma Pc.Behind.waiting (behind : pc.Behind s m) : pc.waiting = true := by
  cases pc <;> first | rfl | exact behind.elim

lemma Pc.not_waiting_of_holding (holding : pc.holding = true) : pc.waiting = false := by
  cases pc <;> first | rfl | cases holding

lemma Pc.Behind.congr (behind : pc.Behind s m) (mine : pc.queued = some n) (next : s'.next m = s.next m)
    (blocked : s'.blocked n = s.blocked n) : pc.Behind s' m := by
  cases pc with
  | lockBlock me predecessor => exact ⟨behind.1, next.trans behind.2⟩
  | lockLink me predecessor =>
    obtain rfl : me = n := Option.some.inj mine
    exact ⟨behind.1, next.trans behind.2.1, blocked.trans behind.2.2⟩
  | lockSpin me =>
    obtain rfl : me = n := Option.some.inj mine
    exact ⟨next.trans behind.1, blocked.trans behind.2⟩
  | _ => exact behind.elim

lemma Pc.Front.congr (front : pc.Front s) (mine : pc.queued = some n) (next : s.next n ≠ none → s'.next n = s.next n)
    (blocked : s'.blocked n = s.blocked n) : pc.Front s' := by
  cases pc with
  | lockSpin me =>
    obtain rfl : me = n := Option.some.inj mine
    exact blocked.trans front
  | unlockSignal me successor =>
    obtain rfl : me = n := Option.some.inj mine
    have known : s.next me = some successor := front
    exact (next (by rw [known]; simp)).trans known
  | lockBlock me predecessor => exact front.elim
  | lockLink me predecessor => exact front.elim
  | _ => exact front

lemma head_or_follows {α : Type} {q : List α} {e : α} (listed : e ∈ q) :
    q.head? = some e ∨ ∃ m, Follows q m e := by
  induction q with
  | nil => cases listed
  | cons x rest ih =>
    rcases mem_cons.mp listed with rfl | later
    · exact .inl rfl
    · cases rest with
      | nil => cases later
      | cons y rest =>
        rcases ih later with first | ⟨m, follows⟩
        · exact .inr ⟨x, .inl ⟨rfl, (Option.some.inj first).symm⟩⟩
        · exact .inr ⟨m, .inr follows⟩

lemma Inv.node_unique (inv : Inv s q) (first : (s.pc t).node = some n) (second : (s.pc u).node = some n) : t = u :=
  Option.some.inj (((inv.owner t n).mpr first).symm.trans ((inv.owner u n).mpr second))

lemma Inv.thread_unique (inv : Inv s q) (first : (t, n) ∈ q) (second : (t, m) ∈ q) : n = m :=
  Option.some.inj (((inv.queued t n).mp first).symm.trans ((inv.queued t m).mp second))

lemma Inv.in_use (inv : Inv s q) (listed : (t, n) ∈ q) : s.owner n = some t :=
  (inv.owner t n).mpr (Pc.node_of_queued ((inv.queued t n).mp listed))

lemma Inv.eq_of_node (inv : Inv s q) (first : (t, n) ∈ q) (second : (u, n) ∈ q) : t = u :=
  Option.some.inj ((inv.in_use first).symm.trans (inv.in_use second))

lemma Inv.head_of_not_waiting (inv : Inv s q) (queued : (s.pc t).queued = some n)
    (waiting : (s.pc t).waiting = false) : q.head? = some (t, n) := by
  rcases head_or_follows ((inv.queued t n).mpr queued) with first | ⟨m, follows⟩
  · exact first
  · have waits := (inv.behind m _ follows).waiting
    rw [waiting] at waits
    cases waits

end

omit [DecidableEq Thread] [DecidableEq Node] in
lemma Inv.start (next : Node → Option Node) (blocked : Node → Bool) : Inv (start Thread next blocked) [] where
  nodup := nodup_nil
  queued _ _ := iff_of_false not_mem_nil (nomatch ·)
  owner _ _ := iff_of_false (nomatch ·) (nomatch ·)
  tail := rfl
  ready _ _ here := nomatch here
  front _ here := nomatch here
  behind _ _ here := here.elim
  last _ here := nomatch here
  order := rfl

end HpcToolkit.Locks.McsLock
