import HpcToolkit.Lib.Exclusive
import HpcToolkit.Lib.Reachable

/-! # Queues with many producers and one consumer

`enqueue` exchanges the tail and then links its entry behind the old tail, or makes it the head if there was none.
Until then the entries behind it are out of reach. `dequeue` returns the head if its successor is known, or if it is
the only entry, in which case it empties the tail and then the head. A step is modelled for each atomic operation;
an entry belongs to its owner until it is given to `enqueue` and again once `dequeue` has returned it.
-/

open Function List

namespace HpcToolkit.Collections.MpscQueue

open Lib

variable {Node : Type}

/-- Where a producer is in `enqueue`. -/
inductive Producer (Node : Type) where
  | away
  | invalidate (entry : Node)
  | exchange (entry : Node)
  | link (predecessor entry : Node)
  | setHead (entry : Node)
deriving DecidableEq

/-- Where the consumer is in `dequeue`. -/
inductive Consumer (Node : Type) where
  | away
  | loadHead
  | loadNext (first : Node)
  | storeHead (first next : Node)
  | swapTail (first : Node)
  | swapHead (first : Node)
deriving DecidableEq

/-- The memory, the producers and the consumer, with the entries that are not with their owners, the entries in the
order in which they became the tail, and what the consumer has returned. -/
structure State (Node : Type) (T : ℕ) where
  head : Option Node
  tail : Option Node
  next : Node → Option Node
  producers : Fin T → Producer Node
  consumer : Consumer Node
  given : Finset Node
  exchanged : List Node
  returned : List (Option Node)

/-- A call or an atomic operation of a producer or of the consumer, or the owner of an entry uses its link. -/
inductive Act (Node : Type) (T : ℕ) where
  | enqueue (t : Fin T) (entry : Node)
  | produce (t : Fin T)
  | dequeue
  | consume
  | own (entry : Node) (link : Option Node)

variable {T : ℕ} [DecidableEq Node]

def State.move (s : State Node T) (t : Fin T) (producer : Producer Node) : State Node T :=
  { s with producers := update s.producers t producer }

def State.return (s : State Node T) (result : Option Node) : State Node T :=
  { s with consumer := .away, given := s.given \ result.toFinset, returned := s.returned ++ [result] }

/-- What is left to do once an entry is the tail. -/
def behind : Option Node → Node → Producer Node
  | some predecessor, entry => .link predecessor entry
  | none, entry => .setHead entry

def produce (s : State Node T) (t : Fin T) : Option (State Node T) :=
  match s.producers t with
  | .away => none
  | .invalidate entry => some ({ s with next := update s.next entry none }.move t (.exchange entry))
  | .exchange entry =>
    some ({ s with tail := some entry, exchanged := s.exchanged ++ [entry] }.move t (behind s.tail entry))
  | .link predecessor entry =>
    some ({ s with next := update s.next predecessor (some entry) }.move t .away)
  | .setHead entry => some ({ s with head := some entry }.move t .away)

def consume (s : State Node T) : Option (State Node T) :=
  match s.consumer with
  | .away => none
  | .loadHead =>
    match s.head with
    | none => some (s.return none)
    | some first => some { s with consumer := .loadNext first }
  | .loadNext first =>
    match s.next first with
    | some next => some { s with consumer := .storeHead first next }
    | none => some { s with consumer := .swapTail first }
  | .storeHead first next => some ({ s with head := some next }.return (some first))
  | .swapTail first =>
    if s.tail = some first then some { s with tail := none, consumer := .swapHead first }
    else some (s.return none)
  | .swapHead first =>
    some ({ s with head := if s.head = some first then none else s.head }.return (some first))

def step (s : State Node T) : Act Node T → Option (State Node T)
  | .enqueue t entry =>
    if s.producers t = .away ∧ entry ∉ s.given then
      some ({ s with given := insert entry s.given }.move t (.invalidate entry))
    else none
  | .produce t => produce s t
  | .dequeue => if s.consumer = .away then some { s with consumer := .loadHead } else none
  | .consume => consume s
  | .own entry link =>
    if entry ∈ s.given then none else some { s with next := update s.next entry link }

/-- A queue that was just initialized; nothing is known about the entries. -/
def start (next : Node → Option Node) (T : ℕ) : State Node T := ⟨none, none, next, fun _ => .away, .away, ∅, [], []⟩

/-- The entries that the consumer has returned. -/
def State.dequeued (s : State Node T) : List Node := s.returned.reduceOption

/-- The consumer goes on until it has returned; a call of `dequeue` has four operations at most. -/
def finish : ℕ → State Node T → Option (State Node T)
  | 0, s => if s.consumer = .away then some s else none
  | n + 1, s => if s.consumer = .away then some s else (consume s).bind (finish n)

/-- Some calls of `dequeue`, one after the other, with nobody else at work. -/
def drain : ℕ → State Node T → Option (State Node T)
  | 0, s => some s
  | n + 1, s => ((step s .dequeue).bind (finish 4)).bind (drain n)

/-! ## Successors in the queue -/

/-- `b` is right behind `a`. -/
def Follows : List Node → Node → Node → Prop
  | x :: y :: rest, a, b => a = x ∧ b = y ∨ Follows (y :: rest) a b
  | _, _, _ => False

section
omit [DecidableEq Node]
variable {q : List Node} {a b e : Node}

lemma Follows.mem (follows : Follows q a b) : a ∈ q ∧ b ∈ q := by
  induction q with
  | nil => exact follows.elim
  | cons x rest ih =>
    cases rest with
    | nil => exact follows.elim
    | cons y rest =>
      rcases follows with ⟨rfl, rfl⟩ | later
      · exact ⟨mem_cons_self, mem_cons_of_mem _ mem_cons_self⟩
      · exact ⟨mem_cons_of_mem _ (ih later).1, mem_cons_of_mem _ (ih later).2⟩

lemma Follows.unique {b' : Node} (nodup : q.Nodup) (first : Follows q a b) (second : Follows q a b') : b = b' := by
  induction q with
  | nil => exact first.elim
  | cons x rest ih =>
    cases rest with
    | nil => exact first.elim
    | cons y rest =>
      obtain ⟨off, nodup⟩ := nodup_cons.mp nodup
      rcases first with ⟨rfl, rfl⟩ | first <;> rcases second with ⟨same, rfl⟩ | second
      · rfl
      · exact absurd second.mem.1 off
      · exact absurd (same ▸ first.mem.1) off
      · exact ih nodup first second

lemma Follows.not_last (nodup : q.Nodup) (follows : Follows q a b) : q.getLast? ≠ some a := by
  induction q with
  | nil => exact follows.elim
  | cons x rest ih =>
    cases rest with
    | nil => exact follows.elim
    | cons y rest =>
      obtain ⟨off, nodup⟩ := nodup_cons.mp nodup
      rw [getLast?_cons_cons]
      rcases follows with ⟨rfl, rfl⟩ | later
      · intro last
        exact off (mem_of_getLast? last)
      · exact ih nodup later

lemma follows_concat (follows : Follows (q ++ [e]) a b) : Follows q a b ∨ q.getLast? = some a ∧ b = e := by
  induction q with
  | nil => exact follows.elim
  | cons x rest ih =>
    cases rest with
    | nil =>
      rcases follows with ⟨rfl, rfl⟩ | later
      · exact .inr ⟨rfl, rfl⟩
      · exact later.elim
    | cons y rest =>
      rw [getLast?_cons_cons]
      rcases follows with here | later
      · exact .inl (.inl here)
      · rcases ih later with earlier | last
        · exact .inl (.inr earlier)
        · exact .inr last

lemma Follows.concat (follows : Follows q a b) (e : Node) : Follows (q ++ [e]) a b := by
  induction q with
  | nil => exact follows.elim
  | cons x rest ih =>
    cases rest with
    | nil => exact follows.elim
    | cons y rest => exact follows.imp id ih

lemma follows_last (last : q.getLast? = some a) (e : Node) : Follows (q ++ [e]) a e := by
  induction q with
  | nil => cases last
  | cons x rest ih =>
    cases rest with
    | nil => exact .inl ⟨(Option.some.inj last).symm, rfl⟩
    | cons y rest =>
      rw [getLast?_cons_cons] at last
      exact .inr (ih last)

end

/-! ## Invariant -/

/-- The entry that the consumer has taken out of the queue but not yet returned. -/
def Consumer.taken : Consumer Node → Option Node
  | .swapHead first => some first
  | _ => none

/-- The entry that a producer is working on. -/
def Producer.holds : Producer Node → Option Node
  | .away => none
  | .invalidate entry => some entry
  | .exchange entry => some entry
  | .link _ entry => some entry
  | .setHead entry => some entry

/-- What a producer can rely on: its entry is not yet in the queue, or it is there and only this producer can make
it known. -/
def Producer.Valid (s : State Node T) (q : List Node) : Producer Node → Prop
  | .away => True
  | .invalidate entry => entry ∈ s.given ∧ entry ∉ q ∧ s.consumer.taken ≠ some entry
  | .exchange entry => entry ∈ s.given ∧ entry ∉ q ∧ s.consumer.taken ≠ some entry ∧ s.next entry = none
  | .link predecessor entry => Follows q predecessor entry ∧ s.next predecessor = none
  | .setHead entry => q.head? = some entry ∧ s.head = s.consumer.taken

/-- What the consumer can rely on. -/
def Consumer.Valid (s : State Node T) (q : List Node) : Consumer Node → Prop
  | .away => True
  | .loadHead => True
  | .loadNext first => q.head? = some first ∧ s.head = some first
  | .storeHead first next => (∃ rest, q = first :: next :: rest) ∧ s.head = some first ∧ s.next first = some next
  | .swapTail first => q.head? = some first ∧ s.head = some first
  | .swapHead first => first ∈ s.given ∧ first ∉ q

/-- The entries that are waiting are linked from the head to the tail, up to the links that producers still have to
write. -/
structure Inv (s : State Node T) (q : List Node) : Prop where
  order : s.exchanged = s.dequeued ++ s.consumer.taken.toList ++ q
  nodup : q.Nodup
  given : ∀ e ∈ q, e ∈ s.given
  tail : s.tail = q.getLast?
  links : ∀ a b, Follows q a b → s.next a = some b ∨ s.next a = none ∧ ∃ t, s.producers t = .link a b
  last : ∀ a, q.getLast? = some a → s.next a = none
  head : s.head = s.consumer.taken ∧ (∀ first, q.head? = some first → ∃ t, s.producers t = .setHead first) ∨
    s.head = q.head? ∧ q ≠ []
  producers : ∀ t, (s.producers t).Valid s q
  apart : Exclusive Producer.holds s.producers
  consumer : s.consumer.Valid s q

variable {s s' : State Node T} {q : List Node} {t : Fin T}

omit [DecidableEq Node] in
lemma Inv.start (next : Node → Option Node) : Inv (start next T) [] where
  order := rfl
  nodup := nodup_nil
  given _ here := absurd here not_mem_nil
  tail := rfl
  links _ _ here := here.elim
  last _ here := by cases here
  head := .inl ⟨rfl, fun _ here => by cases here⟩
  producers _ := trivial
  apart _ _ _ here := by cases here
  consumer := trivial

/-! ## Steps of producers -/

variable {producer : Producer Node}

section
omit [DecidableEq Node]

lemma move_other {u : Fin T} (s : State Node T) (other : u ≠ t) :
    (s.move t producer).producers u = s.producers u := by
  simp only [State.move, update_of_ne other]

lemma Inv.move (inv : Inv s q) (valid : producer.Valid s q)
    (mine : ∀ u e, u ≠ t → producer.holds = some e → (s.producers u).holds ≠ some e)
    (noLink : ∀ a b, s.producers t ≠ .link a b) (noHead : ∀ e, s.producers t ≠ .setHead e) :
    Inv (s.move t producer) q where
  order := inv.order
  nodup := inv.nodup
  given := inv.given
  tail := inv.tail
  links a b follows := (inv.links a b follows).imp id fun ⟨unknown, u, linking⟩ =>
    ⟨unknown, u, (move_other s (by rintro rfl; exact noLink a b linking)).trans linking⟩
  last := inv.last
  head := inv.head.imp (fun ⟨empty, setting⟩ => ⟨empty, fun first here => by
    obtain ⟨u, heading⟩ := setting first here
    exact ⟨u, (move_other s (by rintro rfl; exact noHead first heading)).trans heading⟩⟩) id
  producers := (forall_update_iff s.producers fun _ p => p.Valid s q).mpr
    ⟨valid, fun u _ => inv.producers u⟩
  apart := inv.apart.update mine
  consumer := inv.consumer

lemma Inv.held_given (inv : Inv s q) {e : Node} (holds : (s.producers t).holds = some e) : e ∈ s.given := by
  have valid := inv.producers t
  cases producer : s.producers t with
  | away => rw [producer] at holds; cases holds
  | invalidate entry =>
    rw [producer] at holds valid
    cases holds
    exact valid.1
  | exchange entry =>
    rw [producer] at holds valid
    cases holds
    exact valid.1
  | link predecessor entry =>
    rw [producer] at holds valid
    cases holds
    exact inv.given _ valid.1.mem.2
  | setHead entry =>
    rw [producer] at holds valid
    cases holds
    exact inv.given _ (mem_of_head? valid.1)

end

lemma Inv.setNext (inv : Inv s q) {x : Node} (link : Option Node) (off : x ∉ q)
    (unread : ∀ u, s.producers u ≠ .exchange x) : Inv { s with next := update s.next x link } q := by
  have elsewhere : ∀ a ∈ q, update s.next x link a = s.next a := by
    intro a listed
    exact update_of_ne (by rintro rfl; exact off listed) _ _
  refine ⟨inv.order, inv.nodup, inv.given, inv.tail, ?_, ?_, inv.head, ?_, inv.apart, ?_⟩
  · intro a b follows
    simp only [elsewhere a follows.mem.1]
    exact inv.links a b follows
  · intro a last
    simp only [elsewhere a (mem_of_getLast? last)]
    exact inv.last a last
  · intro u
    have valid := inv.producers u
    cases producer : s.producers u with
    | exchange entry =>
      rw [producer] at valid
      refine ⟨valid.1, valid.2.1, valid.2.2.1, ?_⟩
      have different : entry ≠ x := by
        rintro rfl
        exact unread u producer
      simp only [update_of_ne different]
      exact valid.2.2.2
    | link predecessor entry =>
      rw [producer] at valid
      refine ⟨valid.1, ?_⟩
      simp only [elsewhere predecessor valid.1.mem.1]
      exact valid.2
    | _ => rw [producer] at valid; exact valid
  · have valid := inv.consumer
    cases consumer : s.consumer with
    | storeHead first next =>
      rw [consumer] at valid
      obtain ⟨⟨rest, queue⟩, head, known⟩ := valid
      refine ⟨⟨rest, queue⟩, head, ?_⟩
      simp only [elsewhere first (queue ▸ mem_cons_self)]
      exact known
    | _ => rw [consumer] at valid; exact valid

omit [DecidableEq Node] in
lemma Inv.taken_given (inv : Inv s q) {e : Node} (taken : s.consumer.taken = some e) : e ∈ s.given := by
  have valid := inv.consumer
  cases consumer : s.consumer with
  | swapHead first =>
    rw [consumer] at valid taken
    cases taken
    exact valid.1
  | _ => rw [consumer] at taken; cases taken

lemma Inv.give (inv : Inv s q) (entry : Node) : Inv { s with given := insert entry s.given } q := by
  refine ⟨inv.order, inv.nodup, fun e listed => Finset.mem_insert_of_mem (inv.given e listed), inv.tail, inv.links,
    inv.last, inv.head, fun u => ?_, inv.apart, ?_⟩
  · have valid := inv.producers u
    cases producer : s.producers u with
    | invalidate e => rw [producer] at valid; exact ⟨Finset.mem_insert_of_mem valid.1, valid.2⟩
    | exchange e => rw [producer] at valid; exact ⟨Finset.mem_insert_of_mem valid.1, valid.2⟩
    | _ => rw [producer] at valid; exact valid
  · have valid := inv.consumer
    cases consumer : s.consumer with
    | swapHead first => rw [consumer] at valid; exact ⟨Finset.mem_insert_of_mem valid.1, valid.2⟩
    | _ => rw [consumer] at valid; exact valid

variable {entry : Node}

lemma Inv.enqueue (inv : Inv s q) (owned : entry ∉ s.given) (away : s.producers t = .away) :
    Inv ({ s with given := insert entry s.given }.move t (.invalidate entry)) q := by
  refine (inv.give entry).move ⟨Finset.mem_insert_self _ _, fun listed => owned (inv.given _ listed),
    fun taken => owned (inv.taken_given taken)⟩ ?_ ?_ ?_
  · intro u e _ here there
    cases here
    exact owned (inv.held_given there)
  · intro a b linking
    cases away.symm.trans linking
  · intro e heading
    cases away.symm.trans heading

lemma Inv.invalidate (inv : Inv s q) (producer : s.producers t = .invalidate entry) :
    Inv ({ s with next := update s.next entry none }.move t (.exchange entry)) q := by
  have mine : (s.producers t).holds = some entry := by rw [producer]; rfl
  have valid := inv.producers t
  rw [producer] at valid
  have unread : ∀ u, s.producers u ≠ .exchange entry := by
    intro u exchanging
    have same : u = t := inv.apart u t entry (by rw [exchanging]; rfl) mine
    subst same
    cases producer.symm.trans exchanging
  refine (inv.setNext none valid.2.1 unread).move
    ⟨valid.1, valid.2.1, valid.2.2, update_self _ _ _⟩ ?_ ?_ ?_
  · intro u e other here there
    cases here
    exact other (inv.apart u t _ there mine)
  · intro a b linking
    cases producer.symm.trans linking
  · intro e heading
    cases producer.symm.trans heading

omit [DecidableEq Node] in
lemma Producer.Valid.concat (valid : producer.Valid s q)
    (other : producer.holds ≠ some entry) : producer.Valid s (q ++ [entry]) := by
  have outside : ∀ e, producer.holds = some e → e ∉ q → e ∉ q ++ [entry] := by
    intro e holds off listed
    rcases mem_append.mp listed with earlier | last
    · exact off earlier
    · exact other (mem_singleton.mp last ▸ holds)
  cases producer with
  | away => trivial
  | invalidate e => exact ⟨valid.1, outside e rfl valid.2.1, valid.2.2⟩
  | exchange e => exact ⟨valid.1, outside e rfl valid.2.1, valid.2.2⟩
  | link predecessor e => exact ⟨valid.1.concat entry, valid.2⟩
  | setHead e => exact ⟨by rw [head?_append, valid.1]; rfl, valid.2⟩

variable {consumer : Consumer Node}

omit [DecidableEq Node] in
lemma Consumer.Valid.concat (valid : consumer.Valid s q)
    (other : consumer.taken ≠ some entry) : consumer.Valid s (q ++ [entry]) := by
  cases consumer with
  | away => trivial
  | loadHead => trivial
  | loadNext first => exact ⟨by rw [head?_append, valid.1]; rfl, valid.2⟩
  | storeHead first next =>
    obtain ⟨⟨rest, rfl⟩, known⟩ := valid
    exact ⟨⟨rest ++ [entry], rfl⟩, known⟩
  | swapTail first => exact ⟨by rw [head?_append, valid.1]; rfl, valid.2⟩
  | swapHead first =>
    refine ⟨valid.1, fun listed => ?_⟩
    rcases mem_append.mp listed with earlier | last
    · exact valid.2 earlier
    · exact other (congrArg some (mem_singleton.mp last))

omit [DecidableEq Node] in
lemma Inv.exchange (inv : Inv s q) (producer : s.producers t = .exchange entry) :
    Inv ({ s with tail := some entry, exchanged := s.exchanged ++ [entry] }.move t (behind s.tail entry))
      (q ++ [entry]) := by
  have mine : (s.producers t).holds = some entry := by rw [producer]; rfl
  have valid := inv.producers t
  rw [producer] at valid
  obtain ⟨given, off, notTaken, invalid⟩ := valid
  have here : ({ s with tail := some entry, exchanged := s.exchanged ++ [entry] }.move t
      (behind s.tail entry)).producers t = behind s.tail entry := by
    simp only [State.move, update_self]
  have kept : ∀ u p, s.producers u = p → p ≠ .exchange entry → ({ s with
      tail := some entry, exchanged := s.exchanged ++ [entry] }.move t (behind s.tail entry)).producers u = p := by
    rintro u p known different
    refine (move_other _ ?_).trans known
    rintro rfl
    exact different (known.symm.trans producer)
  refine ⟨?_, ?_, ?_, ?_, ?_, ?_, ?_, ?_, ?_, inv.consumer.concat notTaken⟩
  · simp only [State.move, inv.order, append_assoc]
    rfl
  · exact inv.nodup.append (nodup_singleton entry) (disjoint_singleton.mpr off)
  · intro e listed
    rcases mem_append.mp listed with earlier | last
    · exact inv.given e earlier
    · exact mem_singleton.mp last ▸ given
  · simp only [State.move, getLast?_append, getLast?_singleton, Option.some_or]
  · intro a b follows
    rcases follows_concat follows with earlier | ⟨last, rfl⟩
    · rcases inv.links a b earlier with known | ⟨unknown, u, linking⟩
      · exact .inl known
      · exact .inr ⟨unknown, u, kept u _ linking (by simp)⟩
    · refine .inr ⟨inv.last a last, t, here.trans ?_⟩
      rw [inv.tail, last]
      rfl
  · intro a last
    rw [getLast?_append, getLast?_singleton, Option.some_or] at last
    cases last
    exact invalid
  · rcases inv.head with ⟨empty, setting⟩ | ⟨known, nonempty⟩
    · refine .inl ⟨empty, fun first front => ?_⟩
      cases q with
      | nil =>
        refine ⟨t, here.trans ?_⟩
        cases front
        rw [inv.tail]
        rfl
      | cons x rest =>
        obtain ⟨u, heading⟩ := setting first front
        exact ⟨u, kept u _ heading (by simp)⟩
    · refine .inr ⟨?_, by simp⟩
      cases q with
      | nil => exact absurd rfl nonempty
      | cons x rest => exact known
  · refine (forall_update_iff s.producers fun _ p => p.Valid s (q ++ [entry])).mpr
      ⟨?_, fun u other => (inv.producers u).concat fun holds => other (inv.apart u t entry holds mine)⟩
    cases last : q.getLast? with
    | none =>
      rw [inv.tail, last]
      obtain rfl := getLast?_eq_none_iff.mp last
      refine ⟨rfl, ?_⟩
      rcases inv.head with ⟨empty, _⟩ | ⟨_, nonempty⟩
      · exact empty
      · exact absurd rfl nonempty
    | some predecessor =>
      rw [inv.tail, last]
      exact ⟨follows_last last entry, inv.last predecessor last⟩
  · refine inv.apart.keep fun e holds => ?_
    rw [mine, ← holds]
    cases s.tail with
    | none => rfl
    | some predecessor => rfl

lemma Inv.link (inv : Inv s q) {predecessor entry : Node} (producer : s.producers t = .link predecessor entry) :
    Inv ({ s with next := update s.next predecessor (some entry) }.move t .away) q := by
  have mine : (s.producers t).holds = some entry := by rw [producer]; rfl
  have valid := inv.producers t
  rw [producer] at valid
  obtain ⟨behind, unknown⟩ := valid
  refine ⟨inv.order, inv.nodup, inv.given, inv.tail, ?_, ?_, ?_, ?_, ?_, ?_⟩
  · intro a b follows
    by_cases same : a = predecessor
    · subst same
      obtain rfl := follows.unique inv.nodup behind
      exact .inl (update_self _ _ _)
    · simp only [State.move, update_of_ne same]
      refine (inv.links a b follows).imp id fun ⟨unlinked, u, linking⟩ => ⟨unlinked, u, ?_⟩
      rw [update_of_ne, linking]
      rintro rfl
      injection producer.symm.trans linking with first
      exact same first.symm
  · intro a last
    have different : a ≠ predecessor := by
      rintro rfl
      exact behind.not_last inv.nodup last
    simp only [State.move, update_of_ne different]
    exact inv.last a last
  · refine inv.head.imp (fun ⟨empty, setting⟩ => ⟨empty, fun first front => ?_⟩) id
    obtain ⟨u, heading⟩ := setting first front
    refine ⟨u, (move_other _ ?_).trans heading⟩
    rintro rfl
    cases producer.symm.trans heading
  · refine (forall_update_iff s.producers fun _ p =>
      p.Valid { s with next := update s.next predecessor (some entry) } q).mpr ⟨trivial, fun u other => ?_⟩
    have theirs := inv.producers u
    cases linking : s.producers u with
    | exchange e =>
      rw [linking] at theirs
      refine ⟨theirs.1, theirs.2.1, theirs.2.2.1, ?_⟩
      have different : e ≠ predecessor := by
        rintro rfl
        exact theirs.2.1 behind.mem.1
      simp only [update_of_ne different]
      exact theirs.2.2.2
    | link p e =>
      rw [linking] at theirs
      refine ⟨theirs.1, ?_⟩
      have different : p ≠ predecessor := by
        rintro rfl
        obtain rfl := theirs.1.unique inv.nodup behind
        exact other (inv.apart u t e (by rw [linking]; rfl) mine)
      simp only [update_of_ne different]
      exact theirs.2
    | _ => rw [linking] at theirs; exact theirs
  · exact inv.apart.keep fun e here => by cases here
  · have reader := inv.consumer
    cases consumer : s.consumer with
    | storeHead first next =>
      rw [consumer] at reader
      refine ⟨reader.1, reader.2.1, ?_⟩
      have different : first ≠ predecessor := by
        rintro rfl
        cases unknown.symm.trans reader.2.2
      simp only [State.move, update_of_ne different]
      exact reader.2.2
    | _ => rw [consumer] at reader; exact reader

omit [DecidableEq Node] in
lemma Consumer.Valid.setHead {head : Option Node} (valid : consumer.Valid s q)
    (empty : s.head = consumer.taken) : consumer.Valid { s with head := head } q := by
  cases consumer with
  | away => trivial
  | loadHead => trivial
  | loadNext first => cases empty.symm.trans valid.2
  | storeHead first next => cases empty.symm.trans valid.2.1
  | swapTail first => cases empty.symm.trans valid.2
  | swapHead first => exact valid

omit [DecidableEq Node] in
lemma Inv.setHead (inv : Inv s q) (producer : s.producers t = .setHead entry) :
    Inv ({ s with head := some entry }.move t .away) q := by
  have mine : (s.producers t).holds = some entry := by rw [producer]; rfl
  have valid := inv.producers t
  rw [producer] at valid
  obtain ⟨front, empty⟩ := valid
  refine ⟨inv.order, inv.nodup, inv.given, inv.tail, ?_, inv.last, .inr ⟨front.symm, ?_⟩, ?_, ?_,
    inv.consumer.setHead empty⟩
  · intro a b follows
    refine (inv.links a b follows).imp id fun ⟨unlinked, u, linking⟩ => ⟨unlinked, u, ?_⟩
    refine (move_other _ ?_).trans linking
    rintro rfl
    cases producer.symm.trans linking
  · rintro rfl
    cases front
  · refine (forall_update_iff s.producers fun _ p => p.Valid { s with head := some entry } q).mpr
      ⟨trivial, fun u other => ?_⟩
    have theirs := inv.producers u
    cases heading : s.producers u with
    | setHead e =>
      rw [heading] at theirs
      obtain rfl := Option.some.inj (front.symm.trans theirs.1)
      exact absurd (inv.apart u t entry (by rw [heading]; rfl) mine) other
    | _ => rw [heading] at theirs; exact theirs
  · exact inv.apart.keep fun e here => by cases here

end HpcToolkit.Collections.MpscQueue
