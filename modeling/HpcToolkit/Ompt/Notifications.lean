import HpcToolkit.Lib.Reachable

/-! # Notifications that a region's call path is available

A thread that takes a sample in a region puts a notification into the queue of the region. When the region ends, its
creator takes the first notification and puts it into the queue of the thread that made it; that thread resolves its
context, takes the next notification of the region and passes it on. Whoever finds the queue of the region empty frees
the region.

The queues are linked from a head. `wfq_enqueue` exchanges the head before it links the new element to the old one, and
a thread that needs the link waits for it. `wfq_dequeue_public` loads the head and stores the successor later, for use
"when all adding are finished before removing"; `wfq_dequeue_private` exchanges the head of the public queue for null
and consumes the list it gets on its own. A step is modelled for each atomic operation; a thread that waits steps
without a change. A notification is one registration: when its thread has resolved it, its memory goes to the thread's
own freelist, and what is made of it later is another notification.
-/

open Function List

namespace HpcToolkit.Ompt.Notify

/-- A notification, with the fields `threads_queue` (by its thread) and `region_data`. -/
structure Note (Thread Region : Type) where
  thread : Thread
  region : Region
  serial : ℕ
deriving DecidableEq

/-- The next pointer of an element: `ompt_base_invalid`, or a pointer that may be null. -/
inductive Link (Thread Region : Type) where
  | invalid
  | pointer (next : Option (Note Thread Region))

/-- The queue of a region, the queue of a thread that others put notifications into, and the thread's own one. -/
inductive Queue (Thread Region : Type) where
  | region (r : Region)
  | threads (t : Thread)
  | privateThreads (t : Thread)
deriving DecidableEq

/-- Where a thread is. The first three are `wfq_enqueue`, the next three `wfq_dequeue_public`. -/
inductive Pc (Thread Region : Type) where
  | away
  | setPending (new : Note Thread Region) (queue : Queue Thread Region)
  | exchange (new : Note Thread Region) (queue : Queue Thread Region)
  | link (new : Note Thread Region) (queue : Queue Thread Region) (oldHead : Option (Note Thread Region))
  | load (r : Region)
  | getNext (r : Region) (first : Note Thread Region)
  | setHead (r : Region) (first : Note Thread Region) (succ : Option (Note Thread Region))
  | clear (first : Note Thread Region)
  | removeFirst (first : Note Thread Region)
  | resolve (first : Note Thread Region)
deriving DecidableEq

/-- The memory and the threads, with the notifications that were made, put into the queue of their region, and resolved
by a thread, and the regions that have ended and were freed. -/
structure State (Thread Region : Type) where
  next : Note Thread Region → Link Thread Region
  head : Queue Thread Region → Option (Note Thread Region)
  threads : Thread → Pc Thread Region
  unresolvedCnt : Thread → ℤ
  made : List (Note Thread Region)
  registered : List (Note Thread Region)
  delivered : List (Thread × Note Thread Region)
  ended : List Region
  freed : List Region

/-- A thread calls `register_to_region`, `ompt_parallel_end` or `try_resolve_one_region_context`, or does one atomic
operation. -/
inductive Act (Thread Region : Type) where
  | register (t : Thread) (new : Note Thread Region)
  | parallelEnd (t : Thread) (r : Region)
  | tryResolve (t : Thread)
  | run (t : Thread)

variable {Thread Region : Type} [DecidableEq Thread] [DecidableEq Region]

def start (next : Note Thread Region → Link Thread Region) : State Thread Region :=
  ⟨next, fun _ => none, fun _ => .away, fun _ => 0, [], [], [], [], []⟩

namespace State

def move (s : State Thread Region) (t : Thread) (pc : Pc Thread Region) : State Thread Region :=
  { s with threads := update s.threads t pc }

def setNext (s : State Thread Region) (n : Note Thread Region) (link : Link Thread Region) : State Thread Region :=
  { s with next := update s.next n link }

def setHead (s : State Thread Region) (q : Queue Thread Region) (head : Option (Note Thread Region)) :
    State Thread Region :=
  { s with head := update s.head q head }

def count (s : State Thread Region) (t : Thread) (change : ℤ) : State Thread Region :=
  { s with unresolvedCnt := update s.unresolvedCnt t (s.unresolvedCnt t + change) }

/-- `wfq_dequeue_private` before it removes the first element: an empty private queue gets all of the public one. -/
def refill (s : State Thread Region) (t : Thread) : State Thread Region :=
  if s.head (.privateThreads t) = none then
    (s.setHead (.privateThreads t) (s.head (.threads t))).setHead (.threads t) none
  else s

end State

/-- The next atomic operation of a thread. -/
def run (s : State Thread Region) (t : Thread) : Option (State Thread Region) :=
  match s.threads t with
  | .away => none
  | .setPending new q => some ((s.setNext new .invalid).move t (.exchange new q))
  | .exchange new q =>
    let s' := (s.setHead q (some new)).move t (.link new q (s.head q))
    match q with
    | .region _ => some { s' with registered := new :: s.registered }
    | _ => some s'
  | .link new q oldHead =>
    let s' := (s.setNext new (.pointer oldHead)).move t .away
    match q with
    | .region _ => some (s'.count t 1)
    | _ => some s'
  | .load r =>
    match s.head (.region r) with
    | none => some { s.move t .away with freed := r :: s.freed }
    | some first => some (s.move t (.getNext r first))
  | .getNext r first =>
    match s.next first with
    | .invalid => some s
    | .pointer succ => some (s.move t (.setHead r first succ))
  | .setHead r first succ => some ((s.setHead (.region r) succ).move t (.clear first))
  | .clear first =>
    some ((s.setNext first (.pointer none)).move t (.setPending first (.threads first.thread)))
  | .removeFirst first =>
    match s.next first with
    | .invalid => some s
    | .pointer succ => some ((s.setHead (.privateThreads t) succ).move t (.resolve first))
  | .resolve first =>
    some ({ s with delivered := (t, first) :: s.delivered }.count t (-1) |>.move t (.load first.region))

def step (s : State Thread Region) : Act Thread Region → Option (State Thread Region)
  | .register t new =>
    if s.threads t = .away ∧ new.thread = t ∧ new ∉ s.made then
      some ({ s with made := new :: s.made }.setNext new (.pointer none)
        |>.move t (.setPending new (.region new.region)))
    else none
  | .parallelEnd t r =>
    if s.threads t = .away ∧ r ∉ s.ended then
      some ({ s with ended := r :: s.ended }.move t (.load r))
    else none
  | .tryResolve t =>
    if s.threads t = .away then
      match (s.refill t).head (.privateThreads t) with
      | none => some (s.refill t)
      | some first => some ((s.refill t).move t (.removeFirst first))
    else none
  | .run t => run s t

/-- The region into whose queue a thread is about to put its notification. -/
def Pc.registers : Pc Thread Region → Option Region
  | .exchange _ (.region r) => some r
  | _ => none

/-- A registration puts its notification into the queue of a region before the region ends. -/
def Orderly (s : State Thread Region) : Act Thread Region → Prop
  | .run t => ∀ r ∈ (s.threads t).registers, r ∉ s.ended
  | _ => True

instance (s : State Thread Region) : (act : Act Thread Region) → Decidable (Orderly s act)
  | .run t => inferInstanceAs (Decidable (∀ r ∈ (s.threads t).registers, r ∉ s.ended))
  | .register _ _ | .parallelEnd _ _ | .tryResolve _ => isTrue trivial

/-- A notification that can be reached from the head of a queue. -/
inductive Listed (s : State Thread Region) (q : Queue Thread Region) : Note Thread Region → Prop where
  | head {n : Note Thread Region} (first : s.head q = some n) : Listed s q n
  | next {n m : Note Thread Region} (before : Listed s q n) (link : s.next n = .pointer (some m)) : Listed s q m

/-- No thread is in a call and no notification waits for its thread. -/
def Settled (s : State Thread Region) : Prop :=
  ∀ t, s.threads t = .away ∧ s.head (.threads t) = none ∧ s.head (.privateThreads t) = none

/-- Every notification is in one queue at most and is delivered once at most, to its own thread and after it was
registered. A region is freed once at most, when it has ended and all its notifications are delivered. When nothing is
left to do, the regions that have ended are freed; until then, something can be done. -/
structure ExactlyOnce (s : State Thread Region) : Prop where
  oneQueue : ∀ q q' n, Listed s q n → Listed s q' n → q = q'
  once : (s.delivered.map Prod.snd).Nodup
  own : ∀ t n, (t, n) ∈ s.delivered → n.thread = t ∧ n ∈ s.registered
  freedOnce : s.freed.Nodup
  freedLast : ∀ r ∈ s.freed, r ∈ s.ended ∧ ∀ n ∈ s.registered, n.region = r → (n.thread, n) ∈ s.delivered
  settled : Settled s → ∀ r ∈ s.ended, r ∈ s.freed
  goesOn : ¬ Settled s → ∃ t s', (step s (.run t) = some s' ∨ step s (.tryResolve t) = some s') ∧ s' ≠ s

end HpcToolkit.Ompt.Notify

/-! # The queues of notifications

Each queue is a list of notifications, of which a link that its thread has not yet written is the only gap. Whoever
removes the first notification has seen its link.
-/

namespace HpcToolkit.Ompt.Notify

variable {Thread Region : Type}

/-- `o` is what comes right after `a`. -/
def After {α : Type} (l : List α) (a : α) (o : Option α) : Prop :=
  ∃ before after, l = before ++ a :: after ∧ o = after.head?

section
variable {α : Type} {l : List α} {a b : α} {o : Option α}

lemma After.mem (after : After l a o) : a ∈ l := by
  obtain ⟨before, later, rfl, -⟩ := after
  exact mem_append_right _ mem_cons_self

lemma after_head (a : α) (l : List α) : After (a :: l) a l.head? := ⟨[], l, rfl, rfl⟩

lemma After.cons (after : After l a o) (b : α) : After (b :: l) a o := by
  obtain ⟨before, later, rfl, rfl⟩ := after
  exact ⟨b :: before, later, rfl, rfl⟩

lemma after_cons : After (b :: l) a o ↔ a = b ∧ o = l.head? ∨ After l a o := by
  constructor
  · rintro ⟨before, later, here, rfl⟩
    cases before with
    | nil =>
      obtain ⟨rfl, rfl⟩ := cons.inj here
      exact .inl ⟨rfl, rfl⟩
    | cons c before =>
      obtain ⟨rfl, rfl⟩ := cons.inj here
      exact .inr ⟨before, later, rfl, rfl⟩
  · rintro (⟨rfl, rfl⟩ | after)
    · exact after_head a l
    · exact after.cons b

lemma exists_after (listed : a ∈ l) : ∃ o, After l a o := by
  obtain ⟨before, later, rfl⟩ := append_of_mem listed
  exact ⟨_, before, later, rfl, rfl⟩

lemma After.unique {o' : Option α} (nodup : l.Nodup) (first : After l a o) (second : After l a o') : o = o' := by
  induction l with
  | nil => cases first.mem
  | cons x rest ih =>
    obtain ⟨off, nodup⟩ := nodup_cons.mp nodup
    rcases after_cons.mp first with ⟨rfl, rfl⟩ | first <;> rcases after_cons.mp second with ⟨same, rfl⟩ | second
    · rfl
    · exact absurd second.mem off
    · exact absurd (same ▸ first.mem) off
    · exact ih nodup first second

end

/-- The lists in the queues. A link that is missing is the one that a thread is about to write. -/
structure Chains (next : Note Thread Region → Link Thread Region) (head : Queue Thread Region → Option (Note Thread Region))
    (threads : Thread → Pc Thread Region) (content : Queue Thread Region → List (Note Thread Region)) : Prop where
  head : ∀ q, head q = (content q).head?
  nodup : ∀ q, (content q).Nodup
  links : ∀ q a o, After (content q) a o →
    next a = .pointer o ∨ next a = .invalid ∧ ∃ t q', threads t = .link a q' o
  linking : ∀ t a q' o, threads t = .link a q' o → next a = .invalid ∧ ∃ q, After (content q) a o
  linker : ∀ t u a q o q' o', threads t = .link a q o → threads u = .link a q' o' → t = u

variable {next : Note Thread Region → Link Thread Region} {head : Queue Thread Region → Option (Note Thread Region)}
  {threads threads' : Thread → Pc Thread Region} {content : Queue Thread Region → List (Note Thread Region)}
  {n : Note Thread Region} {q : Queue Thread Region} {t : Thread} {pc : Pc Thread Region}

/-- The thread is not about to write a link. -/
def Pc.NotLinking (pc : Pc Thread Region) : Prop := ∀ a q o, pc ≠ .link a q o

section Moves
variable [DecidableEq Thread]

lemma update_link (before : (threads t).NotLinking) (after : pc.NotLinking) (u : Thread) (a : Note Thread Region)
    (q : Queue Thread Region) (o : Option (Note Thread Region)) :
    update threads t pc u = .link a q o ↔ threads u = .link a q o := by
  rcases eq_or_ne u t with rfl | other
  · rw [update_self]
    exact iff_of_false (after a q o) (before a q o)
  · rw [update_of_ne other]

lemma Chains.move (chains : Chains next head threads content) (before : (threads t).NotLinking)
    (after : pc.NotLinking) : Chains next head (update threads t pc) content where
  head := chains.head
  nodup := chains.nodup
  links q a o follows := (chains.links q a o follows).imp id fun ⟨unknown, u, q', links⟩ =>
    ⟨unknown, u, q', (update_link before after u a q' o).mpr links⟩
  linking u a q o links := chains.linking u a q o ((update_link before after u a q o).mp links)
  linker u v a q o q' o' first second := chains.linker u v a q o q' o'
    ((update_link before after u a q o).mp first) ((update_link before after v a q' o').mp second)

end Moves

section Writes
variable [DecidableEq Thread] [DecidableEq Region]

section
variable (chains : Chains next head threads content)
include chains

lemma Chains.setNext (off : ∀ q, n ∉ content q)
    (link : Link Thread Region) : Chains (update next n link) head threads content := by
  have elsewhere : ∀ q a, a ∈ content q → update next n link a = next a := by
    intro q a listed
    exact update_of_ne (by rintro rfl; exact off q listed) _ _
  refine ⟨chains.head, chains.nodup, ?_, ?_, chains.linker⟩
  · intro q a o follows
    rw [elsewhere q a follows.mem]
    exact chains.links q a o follows
  · intro t a q' o links
    obtain ⟨unknown, q, follows⟩ := chains.linking t a q' o links
    rw [elsewhere q a follows.mem]
    exact ⟨unknown, q, follows⟩

lemma Chains.push (off : ∀ q, n ∉ content q) (unknown : next n = .invalid)
    (before : (threads t).NotLinking) :
    Chains next (update head q (some n)) (update threads t (.link n q (head q)))
      (update content q (n :: content q)) := by
  have others : ∀ u a q' o, threads u = .link a q' o → u ≠ t := by
    rintro u a q' o links rfl
    exact before a q' o links
  have apart : ∀ u q' o, threads u ≠ .link n q' o := by
    intro u q' o links
    obtain ⟨-, p, follows⟩ := chains.linking u n q' o links
    exact off p follows.mem
  refine ⟨?_, ?_, ?_, ?_, ?_⟩
  · intro p
    rcases eq_or_ne p q with rfl | other
    · rw [update_self, update_self, head?_cons]
    · rw [update_of_ne other, update_of_ne other]
      exact chains.head p
  · intro p
    rcases eq_or_ne p q with rfl | other
    · rw [update_self]
      exact nodup_cons.mpr ⟨off p, chains.nodup p⟩
    · rw [update_of_ne other]
      exact chains.nodup p
  · intro p a o follows
    have old : ∀ p, After (content p) a o →
        next a = .pointer o ∨ next a = .invalid ∧ ∃ u q', update threads t (.link n q (head q)) u = .link a q' o := by
      intro p follows
      refine (chains.links p a o follows).imp id ?_
      rintro ⟨missing, u, q', links⟩
      exact ⟨missing, u, q', by rw [update_of_ne (others u a q' o links), links]⟩
    rcases eq_or_ne p q with rfl | other
    · rw [update_self] at follows
      rcases after_cons.mp follows with ⟨rfl, rfl⟩ | later
      · exact .inr ⟨unknown, t, p, by rw [update_self, chains.head p]⟩
      · exact old p later
    · rw [update_of_ne other] at follows
      exact old p follows
  · intro u a q' o links
    rcases eq_or_ne u t with rfl | other
    · rw [update_self] at links
      cases links
      refine ⟨unknown, q, ?_⟩
      rw [update_self, chains.head q]
      exact after_head n (content q)
    · rw [update_of_ne other] at links
      obtain ⟨missing, p, follows⟩ := chains.linking u a q' o links
      refine ⟨missing, p, ?_⟩
      rcases eq_or_ne p q with rfl | different
      · rw [update_self]
        exact follows.cons n
      · rw [update_of_ne different]
        exact follows
  · intro u v a p o p' o' first second
    rcases eq_or_ne t u with rfl | here <;> rcases eq_or_ne t v with rfl | there
    · rfl
    · rw [update_self] at first
      rw [update_of_ne there.symm] at second
      cases first
      exact absurd second (apart v p' o')
    · rw [update_self] at second
      rw [update_of_ne here.symm] at first
      cases second
      exact absurd first (apart u p o)
    · rw [update_of_ne here.symm] at first
      rw [update_of_ne there.symm] at second
      exact chains.linker u v a p o p' o' first second

omit [DecidableEq Thread] [DecidableEq Region] in
lemma Chains.after_unique
    (apart : ∀ q q' n, n ∈ content q → n ∈ content q' → q = q') {q q' : Queue Thread Region} {a : Note Thread Region}
    {o o' : Option (Note Thread Region)} (first : After (content q) a o) (second : After (content q') a o') : o = o' := by
  obtain rfl := apart q q' a first.mem second.mem
  exact first.unique (chains.nodup q) second

lemma Chains.link
    (apart : ∀ q q' n, n ∈ content q → n ∈ content q' → q = q') {oldHead : Option (Note Thread Region)}
    (links : threads t = .link n q oldHead) :
    Chains (update next n (.pointer oldHead)) head (update threads t .away) content := by
  obtain ⟨-, p, here⟩ := chains.linking t n q oldHead links
  have others : ∀ u a q' o, u ≠ t → threads u = .link a q' o → a ≠ n := by
    rintro u a q' o other second rfl
    exact other (chains.linker u t a q' o q oldHead second links)
  refine ⟨chains.head, chains.nodup, ?_, ?_, ?_⟩
  · intro q' a o follows
    rcases eq_or_ne a n with rfl | different
    · rw [update_self]
      exact .inl (congrArg Link.pointer (chains.after_unique apart here follows))
    · rw [update_of_ne different]
      refine (chains.links q' a o follows).imp id ?_
      rintro ⟨missing, u, q'', second⟩
      refine ⟨missing, u, q'', ?_⟩
      rw [update_of_ne]
      · exact second
      · rintro rfl
        rw [links] at second
        cases second
        exact different rfl
  · intro u a q' o second
    rcases eq_or_ne t u with rfl | other
    · rw [update_self] at second
      cases second
    · rw [update_of_ne other.symm] at second
      rw [update_of_ne (others u a q' o other.symm second)]
      exact chains.linking u a q' o second
  · intro u v a p o p' o' first second
    rcases eq_or_ne t u with rfl | here
    · rw [update_self] at first
      cases first
    rcases eq_or_ne t v with rfl | there
    · rw [update_self] at second
      cases second
    rw [update_of_ne here.symm] at first
    rw [update_of_ne there.symm] at second
    exact chains.linker u v a p o p' o' first second

lemma Chains.pop {rest : List (Note Thread Region)}
    (front : content q = n :: rest) (known : next n = .pointer rest.head?) :
    Chains next (update head q rest.head?) threads (update content q rest) := by
  have inside : ∀ p a o, After (update content q rest p) a o → After (content p) a o := by
    intro p a o follows
    rcases eq_or_ne p q with rfl | other
    · rw [update_self] at follows
      rw [front]
      exact follows.cons n
    · rw [update_of_ne other] at follows
      exact follows
  refine ⟨?_, ?_, ?_, ?_, chains.linker⟩
  · intro p
    rcases eq_or_ne p q with rfl | other
    · rw [update_self, update_self]
    · rw [update_of_ne other, update_of_ne other]
      exact chains.head p
  · intro p
    rcases eq_or_ne p q with rfl | other
    · have nodup := chains.nodup p
      rw [front] at nodup
      rw [update_self]
      exact (nodup_cons.mp nodup).2
    · rw [update_of_ne other]
      exact chains.nodup p
  · intro p a o follows
    exact chains.links p a o (inside p a o follows)
  · intro t a q' o links
    obtain ⟨missing, p, follows⟩ := chains.linking t a q' o links
    refine ⟨missing, p, ?_⟩
    rcases eq_or_ne p q with rfl | other
    · rw [front] at follows
      rw [update_self]
      rcases after_cons.mp follows with ⟨rfl, -⟩ | later
      · cases missing.symm.trans known
      · exact later
    · rw [update_of_ne other]
      exact follows

lemma Chains.refill {shared own : Queue Thread Region}
    (different : own ≠ shared) (empty : content own = []) :
    Chains next (update (update head own (head shared)) shared none) threads
      (update (update content own (content shared)) shared []) := by
  have inOwn : update (update content own (content shared)) shared [] own = content shared := by
    rw [update_of_ne different, update_self]
  have others : ∀ p, p ≠ shared → p ≠ own →
      update (update content own (content shared)) shared [] p = content p := by
    intro p notShared notOwn
    rw [update_of_ne notShared, update_of_ne notOwn]
  refine ⟨?_, ?_, ?_, ?_, chains.linker⟩
  · intro p
    rcases eq_or_ne p shared with rfl | notShared
    · rw [update_self, update_self]
      rfl
    rcases eq_or_ne p own with rfl | notOwn
    · rw [inOwn, update_of_ne notShared, update_self]
      exact chains.head shared
    · rw [others p notShared notOwn, update_of_ne notShared, update_of_ne notOwn]
      exact chains.head p
  · intro p
    rcases eq_or_ne p shared with rfl | notShared
    · rw [update_self]
      exact nodup_nil
    rcases eq_or_ne p own with rfl | notOwn
    · rw [inOwn]
      exact chains.nodup shared
    · rw [others p notShared notOwn]
      exact chains.nodup p
  · intro p a o follows
    rcases eq_or_ne p shared with rfl | notShared
    · rw [update_self] at follows
      cases follows.mem
    rcases eq_or_ne p own with rfl | notOwn
    · rw [inOwn] at follows
      exact chains.links shared a o follows
    · rw [others p notShared notOwn] at follows
      exact chains.links p a o follows
  · intro t a q' o links
    obtain ⟨missing, p, follows⟩ := chains.linking t a q' o links
    refine ⟨missing, ?_⟩
    rcases eq_or_ne p shared with rfl | notShared
    · exact ⟨own, by rw [inOwn]; exact follows⟩
    · refine ⟨p, ?_⟩
      rw [others p notShared]
      · exact follows
      · rintro rfl
        rw [empty] at follows
        cases follows.mem

end

end Writes

end HpcToolkit.Ompt.Notify
