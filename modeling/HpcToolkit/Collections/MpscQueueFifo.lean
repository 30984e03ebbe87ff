import HpcToolkit.Collections.MpscQueue

/-! # The order of queues with many producers

What the consumer returns is what the producers have put at the tail, in that order. An entry can be out of reach for
a while, but when no producer is at work the consumer reaches all of them.
-/

open Option
open List

namespace HpcToolkit.Collections.MpscQueue

open Lib MpscQueue

variable {Node : Type} {T : ℕ} [DecidableEq Node] {s s' : State Node T} {q : List Node} {t : Fin T}

/-! ## Steps of the consumer -/

variable {producer : Producer Node}

omit [DecidableEq Node] in
lemma Producer.Valid.consumer {consumer : Consumer Node} (valid : producer.Valid s q)
    (same : consumer.taken = s.consumer.taken) : producer.Valid { s with consumer := consumer } q := by
  cases producer with
  | away => trivial
  | invalidate e => exact ⟨valid.1, valid.2.1, same ▸ valid.2.2⟩
  | exchange e => exact ⟨valid.1, valid.2.1, same ▸ valid.2.2.1, valid.2.2.2⟩
  | link predecessor e => exact valid
  | setHead e => exact ⟨valid.1, valid.2.trans same.symm⟩

omit [DecidableEq Node] in
lemma Inv.moveConsumer (inv : Inv s q) (consumer : Consumer Node) (valid : consumer.Valid s q)
    (same : consumer.taken = s.consumer.taken) : Inv { s with consumer := consumer } q where
  order := by simp only [same]; exact inv.order
  nodup := inv.nodup
  given := inv.given
  tail := inv.tail
  links := inv.links
  last := inv.last
  head := by simp only [same]; exact inv.head
  producers t := (inv.producers t).consumer same
  apart := inv.apart
  consumer := by
    cases consumer <;> exact valid

lemma dequeued_return (s : State Node T) (result : Option Node) :
    (s.return result).dequeued = s.dequeued ++ result.toList := by
  cases result <;> simp [State.return, State.dequeued, reduceOption_append]

lemma mem_given_return {result : Option Node} {e : Node} :
    e ∈ (s.return result).given ↔ e ∈ s.given ∧ result ≠ some e := by
  cases result <;> simp [State.return, eq_comm]

lemma Producer.Valid.return {head result : Option Node} {q' : List Node}
    (valid : producer.Valid s q) (entry : ∀ e ∉ q, s.consumer.taken ≠ some e → e ∉ q' ∧ result ≠ some e)
    (linking : ∀ a b, Follows q a b → s.next a = none → Follows q' a b)
    (heading : ∀ e, q.head? = some e → s.head = s.consumer.taken → q'.head? = some e ∧ head = none) :
    producer.Valid ({ s with head := head }.return result) q' := by
  cases producer with
  | away => trivial
  | invalidate e =>
    obtain ⟨given, off, notTaken⟩ := valid
    obtain ⟨off', notReturned⟩ := entry e off notTaken
    exact ⟨mem_given_return.mpr ⟨given, notReturned⟩, off', (some_ne_none e).symm⟩
  | exchange e =>
    obtain ⟨given, off, notTaken, invalid⟩ := valid
    obtain ⟨off', notReturned⟩ := entry e off notTaken
    exact ⟨mem_given_return.mpr ⟨given, notReturned⟩, off', (some_ne_none e).symm, invalid⟩
  | link predecessor e => exact ⟨linking predecessor e valid.1 valid.2, valid.2⟩
  | setHead e => exact heading e valid.1 valid.2

lemma Inv.returnNone (inv : Inv s q) (nothing : s.consumer.taken = none) : Inv (s.return none) q where
  order := by
    rw [dequeued_return, toList_none, append_nil]
    have before := inv.order
    rw [nothing] at before
    exact before
  nodup := inv.nodup
  given e listed := mem_given_return.mpr ⟨inv.given e listed, (some_ne_none e).symm⟩
  tail := inv.tail
  links := inv.links
  last := inv.last
  head := inv.head.imp (fun ⟨empty, setting⟩ => ⟨empty.trans nothing, setting⟩) id
  producers t := (inv.producers t).return (fun e off _ => ⟨off, (some_ne_none e).symm⟩)
    (fun _ _ follows _ => follows) fun _ front empty => ⟨front, empty.trans nothing⟩
  apart := inv.apart
  consumer := trivial

lemma Inv.storeHead (inv : Inv s q) {first next : Node} (consumer : s.consumer = .storeHead first next) :
    Inv ({ s with head := some next }.return (some first)) q.tail := by
  have valid := inv.consumer
  rw [consumer] at valid
  obtain ⟨⟨rest, rfl⟩, head, known⟩ := valid
  have nothing : s.consumer.taken = none := by rw [consumer]; rfl
  obtain ⟨off, nodup⟩ := nodup_cons.mp inv.nodup
  refine ⟨?_, nodup, ?_, ?_, ?_, ?_, .inr ⟨rfl, by simp⟩, fun t => ?_, inv.apart, trivial⟩
  · rw [dequeued_return]
    have before := inv.order
    rw [nothing] at before
    simp only [State.return, before, State.dequeued, toList, append_assoc, nil_append,
      cons_append, Consumer.taken, tail_cons]
  · intro e listed
    refine mem_given_return.mpr ⟨inv.given e (mem_cons_of_mem _ listed), fun same => off ?_⟩
    exact Option.some.inj same ▸ listed
  · exact inv.tail.trans getLast?_cons_cons
  · intro a b follows
    exact inv.links a b (.inr follows)
  · intro a last
    exact inv.last a (getLast?_cons_cons.trans last)
  · refine (inv.producers t).return ?_ ?_ ?_
    · intro e outside _
      obtain ⟨other, outside⟩ := not_or.mp (mt mem_cons.mpr outside)
      exact ⟨outside, fun same => other (Option.some.inj same).symm⟩
    · rintro a b (⟨rfl, rfl⟩ | follows) unknown
      · cases unknown.symm.trans known
      · exact follows
    · intro e _ empty
      cases head.symm.trans (empty.trans nothing)

variable {first : Node}

section
variable (inv : Inv s q)
include inv

omit [DecidableEq Node] in
lemma Inv.swapTail (consumer : s.consumer = .swapTail first)
    (only : s.tail = some first) : Inv { s with tail := none, consumer := .swapHead first } [] := by
  have valid := inv.consumer
  rw [consumer] at valid
  obtain ⟨front, head⟩ := valid
  have nothing : s.consumer.taken = none := by rw [consumer]; rfl
  have last : q.getLast? = some first := inv.tail.symm.trans only
  have singleton : q = [first] := by
    cases q with
    | nil => cases front
    | cons x rest =>
      cases front
      cases rest with
      | nil => rfl
      | cons y rest =>
        rw [getLast?_cons_cons] at last
        exact absurd (mem_of_getLast? last) (nodup_cons.mp inv.nodup).1
  subst singleton
  refine ⟨?_, nodup_nil, fun e here => absurd here not_mem_nil, rfl, fun a b here => here.elim,
    fun a here => (by cases here), .inl ⟨head, fun e here => (by cases here)⟩, fun t => ?_, inv.apart,
    inv.given first mem_cons_self, not_mem_nil⟩
  · have before := inv.order
    rw [nothing] at before
    simpa [Consumer.taken, State.dequeued] using before
  · have theirs := inv.producers t
    cases producer : s.producers t with
    | away => trivial
    | invalidate e =>
      rw [producer] at theirs
      exact ⟨theirs.1, not_mem_nil, fun taken => theirs.2.1 (by simp [Option.some.inj taken])⟩
    | exchange e =>
      rw [producer] at theirs
      exact ⟨theirs.1, not_mem_nil, fun taken => theirs.2.1 (by simp [Option.some.inj taken]), theirs.2.2.2⟩
    | link predecessor e =>
      rw [producer] at theirs
      exact theirs.1.elim
    | setHead e =>
      rw [producer] at theirs
      cases head.symm.trans (theirs.2.trans nothing)

lemma Inv.swapHead (consumer : s.consumer = .swapHead first) :
    Inv ({ s with head := if s.head = some first then none else s.head }.return (some first)) q := by
  have valid := inv.consumer
  rw [consumer] at valid
  obtain ⟨given, off⟩ := valid
  have taken : s.consumer.taken = some first := by rw [consumer]; rfl
  refine ⟨?_, inv.nodup, ?_, inv.tail, inv.links, inv.last, ?_, fun t => ?_, inv.apart, trivial⟩
  · rw [dequeued_return]
    have before := inv.order
    rw [taken] at before
    simpa [Consumer.taken, State.dequeued, State.return] using before
  · intro e listed
    exact mem_given_return.mpr ⟨inv.given e listed, fun same => off (Option.some.inj same ▸ listed)⟩
  · rcases inv.head with ⟨empty, setting⟩ | ⟨known, nonempty⟩
    · exact .inl ⟨if_pos (empty.trans taken), setting⟩
    · refine .inr ⟨Eq.trans (if_neg fun same => ?_) known, nonempty⟩
      exact off (mem_of_head? (known.symm.trans same))
  · exact (inv.producers t).return (fun e outside notTaken => ⟨outside, taken ▸ notTaken⟩)
      (fun _ _ follows _ => follows) fun _ front empty => ⟨front, if_pos (empty.trans taken)⟩

/-! ## Runs -/

lemma Inv.produce (stepped : produce s t = some s') : ∃ q', Inv s' q' := by
  cases producer : s.producers t with
  | away => simp only [MpscQueue.produce, producer, reduceCtorEq] at stepped
  | invalidate entry =>
    simp only [MpscQueue.produce, producer] at stepped
    cases stepped
    exact ⟨q, inv.invalidate producer⟩
  | exchange entry =>
    simp only [MpscQueue.produce, producer] at stepped
    cases stepped
    exact ⟨q ++ [entry], inv.exchange producer⟩
  | link predecessor entry =>
    simp only [MpscQueue.produce, producer] at stepped
    cases stepped
    exact ⟨q, inv.link producer⟩
  | setHead entry =>
    simp only [MpscQueue.produce, producer] at stepped
    cases stepped
    exact ⟨q, inv.setHead producer⟩

omit [DecidableEq Node] in
lemma Inv.head_eq (nothing : s.consumer.taken = none) (head : s.head = some first) :
    q.head? = some first := by
  rcases inv.head with ⟨empty, _⟩ | ⟨known, _⟩
  · cases head.symm.trans (empty.trans nothing)
  · exact known.symm.trans head

omit [DecidableEq Node] in
lemma Inv.next_eq {first next : Node} (front : q.head? = some first)
    (known : s.next first = some next) : ∃ rest, q = first :: next :: rest := by
  cases q with
  | nil => cases front
  | cons x rest =>
    obtain rfl := Option.some.inj front
    cases rest with
    | nil => cases (inv.last x rfl).symm.trans known
    | cons y rest =>
      rcases inv.links x y (.inl ⟨rfl, rfl⟩) with link | ⟨unknown, _⟩
      · obtain rfl := Option.some.inj (link.symm.trans known)
        exact ⟨rest, rfl⟩
      · cases unknown.symm.trans known

lemma Inv.consume (stepped : consume s = some s') : ∃ q', Inv s' q' := by
  have valid := inv.consumer
  cases consumer : s.consumer with
  | away => simp only [MpscQueue.consume, consumer, reduceCtorEq] at stepped
  | loadHead =>
    have nothing : s.consumer.taken = none := by rw [consumer]; rfl
    simp only [MpscQueue.consume, consumer] at stepped
    split at stepped
    · cases stepped
      exact ⟨q, inv.returnNone nothing⟩
    · rename_i first head
      cases stepped
      exact ⟨q, inv.moveConsumer (.loadNext first) ⟨inv.head_eq nothing head, head⟩ nothing.symm⟩
  | loadNext first =>
    rw [consumer] at valid
    cases known : s.next first with
    | some next =>
      simp only [MpscQueue.consume, consumer, known] at stepped
      cases stepped
      exact ⟨q, inv.moveConsumer (.storeHead first next) ⟨inv.next_eq valid.1 known, valid.2, known⟩ (by rw [consumer]; rfl)⟩
    | none =>
      simp only [MpscQueue.consume, consumer, known] at stepped
      cases stepped
      exact ⟨q, inv.moveConsumer (.swapTail first) valid (by rw [consumer]; rfl)⟩
  | storeHead first next =>
    simp only [MpscQueue.consume, consumer] at stepped
    cases stepped
    exact ⟨q.tail, inv.storeHead consumer⟩
  | swapTail first =>
    simp only [MpscQueue.consume, consumer] at stepped
    split_ifs at stepped with only
    · cases stepped
      exact ⟨[], inv.swapTail consumer only⟩
    · cases stepped
      exact ⟨q, inv.returnNone (by rw [consumer]; rfl)⟩
  | swapHead first =>
    simp only [MpscQueue.consume, consumer] at stepped
    cases stepped
    exact ⟨q, inv.swapHead consumer⟩

lemma Inv.step {act : Act Node T} (stepped : step s act = some s') : ∃ q', Inv s' q' := by
  cases act with
  | enqueue t entry =>
    simp only [MpscQueue.step] at stepped
    split_ifs at stepped with allowed
    cases stepped
    exact ⟨q, inv.enqueue allowed.2 allowed.1⟩
  | produce t => exact inv.produce stepped
  | dequeue =>
    simp only [MpscQueue.step] at stepped
    split_ifs at stepped with away
    cases stepped
    exact ⟨q, inv.moveConsumer .loadHead trivial (by rw [away]; rfl)⟩
  | consume => exact inv.consume stepped
  | own entry link =>
    simp only [MpscQueue.step] at stepped
    split_ifs at stepped with used
    cases stepped
    refine ⟨q, inv.setNext link (fun listed => used (inv.given entry listed)) fun u exchanging => used ?_⟩
    exact inv.held_given (by rw [exchanging]; rfl)

end

lemma inv_of_reachable {next : Node → Option Node} (reached : Reachable step (start next T) s) : ∃ q, Inv s q := by
  refine reached.invariant (P := fun s => ∃ q, Inv s q) ⟨[], Inv.start next⟩ ?_
  rintro s s' act ⟨q, inv⟩ stepped
  exact inv.step stepped

/-! ## Undisturbed calls -/

/-- The operations that are left in a call of `dequeue`, at most. -/
def Consumer.left : Consumer Node → ℕ
  | .away => 0
  | .loadHead => 4
  | .loadNext _ => 3
  | .storeHead _ _ => 1
  | .swapTail _ => 2
  | .swapHead _ => 1

lemma consume_left (calling : s.consumer ≠ .away) : ∃ s', consume s = some s' ∧
    s'.consumer.left < s.consumer.left ∧ s'.producers = s.producers ∧ s'.exchanged = s.exchanged := by
  cases consumer : s.consumer with
  | away => exact absurd consumer calling
  | loadHead =>
    cases head : s.head with
    | none =>
      refine ⟨s.return none, by simp only [consume, consumer, head], ?_, rfl, rfl⟩
      exact Nat.succ_pos 3
    | some first =>
      refine ⟨{ s with consumer := .loadNext first }, by simp only [consume, consumer, head], ?_, rfl, rfl⟩
      exact Nat.lt_succ_self 3
  | loadNext first =>
    cases known : s.next first with
    | none =>
      refine ⟨{ s with consumer := .swapTail first }, by simp only [consume, consumer, known], ?_, rfl, rfl⟩
      exact Nat.lt_succ_self 2
    | some next =>
      refine ⟨{ s with consumer := .storeHead first next }, by simp only [consume, consumer, known], ?_, rfl, rfl⟩
      exact Nat.lt_of_succ_lt (Nat.lt_succ_self 2)
  | storeHead first next =>
    refine ⟨State.return { s with head := some next } (some first), by simp only [consume, consumer], ?_, rfl, rfl⟩
    exact Nat.one_pos
  | swapTail first =>
    by_cases only : s.tail = some first
    · refine ⟨{ s with tail := none, consumer := .swapHead first }, by simp only [consume, consumer, if_pos only], ?_,
        rfl, rfl⟩
      exact Nat.lt_succ_self 1
    · refine ⟨s.return none, by simp only [consume, consumer, if_neg only], ?_, rfl, rfl⟩
      exact Nat.two_pos
  | swapHead first =>
    refine ⟨State.return { s with head := if s.head = some first then none else s.head } (some first),
      by simp only [consume, consumer], ?_, rfl, rfl⟩
    exact Nat.one_pos

lemma finish_of_left (n : ℕ) (s : State Node T) (enough : s.consumer.left ≤ n) : ∃ s', finish n s = some s' ∧
    s'.consumer = .away ∧ s'.producers = s.producers ∧ s'.exchanged = s.exchanged := by
  induction n generalizing s with
  | zero =>
    have away : s.consumer = .away := by
      cases consumer : s.consumer <;> rw [consumer] at enough <;> simp [Consumer.left] at enough
    exact ⟨s, by rw [finish, if_pos away], away, rfl, rfl⟩
  | succ n ih =>
    by_cases away : s.consumer = .away
    · exact ⟨s, by rw [finish, if_pos away], away, rfl, rfl⟩
    · obtain ⟨next, stepped, less, producers, exchanged⟩ := consume_left away
      obtain ⟨final, finished, done, producers', exchanged'⟩ := ih next (by omega)
      refine ⟨final, ?_, done, producers'.trans producers, exchanged'.trans exchanged⟩
      rw [finish, if_neg away, stepped, bind_some, finished]

lemma Inv.finish (inv : Inv s q) {n : ℕ} (finished : finish n s = some s') : ∃ q', Inv s' q' := by
  induction n generalizing s q with
  | zero =>
    rw [finish] at finished
    split_ifs at finished
    exact ⟨q, Option.some.inj finished ▸ inv⟩
  | succ n ih =>
    rw [finish] at finished
    split_ifs at finished
    · exact ⟨q, Option.some.inj finished ▸ inv⟩
    · obtain ⟨next, stepped, finished⟩ := bind_eq_some_iff.mp finished
      obtain ⟨q', inv'⟩ := inv.consume stepped
      exact ih inv' finished

/-- Once the producers are done, a call of `dequeue` returns the first entry that is waiting, or `NULL` if there is
none. -/
lemma Inv.dequeueAlone (inv : Inv s q) (idle : ∀ t, s.producers t = .away) (away : s.consumer = .away) :
    ∃ s', (MpscQueue.step s .dequeue).bind (MpscQueue.finish 4) = some s' ∧ Inv s' q.tail ∧
      s'.producers = s.producers ∧ s'.consumer = .away ∧ s'.returned = s.returned ++ [q.head?] := by
  have nothing : s.consumer.taken = none := by rw [away]; rfl
  have called : MpscQueue.step s .dequeue = some { s with consumer := .loadHead } := by
    rw [MpscQueue.step, if_pos away]
  have looking : Inv { s with consumer := .loadHead } q := inv.moveConsumer .loadHead trivial nothing.symm
  have head : s.head = q.head? := by
    rcases inv.head with ⟨empty, setting⟩ | ⟨known, _⟩
    · cases q with
      | nil => exact empty.trans nothing
      | cons first rest =>
        obtain ⟨t, heading⟩ := setting first rfl
        cases (idle t).symm.trans heading
    · exact known
  rw [called, bind_some]
  cases q with
  | nil =>
    refine ⟨State.return { s with consumer := .loadHead } none, ?_, looking.returnNone rfl, rfl, rfl, rfl⟩
    simp [MpscQueue.finish, MpscQueue.consume, head, State.return]
  | cons first rest =>
    cases rest with
    | nil =>
      have closing : Inv { s with consumer := .swapTail first } [first] :=
        inv.moveConsumer (.swapTail first) ⟨rfl, head⟩ nothing.symm
      have taken := closing.swapTail rfl inv.tail
      refine ⟨_, ?_, taken.swapHead rfl, rfl, rfl, rfl⟩
      have unknown := inv.last first rfl
      have tail := inv.tail
      simp [MpscQueue.finish, MpscQueue.consume, head, State.return, unknown, tail]
    | cons second rest =>
      have link : s.next first = some second := by
        rcases inv.links first second (.inl ⟨rfl, rfl⟩) with known | ⟨_, t, linking⟩
        · exact known
        · cases (idle t).symm.trans linking
      have storing : Inv { s with consumer := .storeHead first second } (first :: second :: rest) :=
        inv.moveConsumer (.storeHead first second) ⟨⟨rest, rfl⟩, head, link⟩ nothing.symm
      refine ⟨_, ?_, storing.storeHead rfl, rfl, rfl, rfl⟩
      simp [MpscQueue.finish, MpscQueue.consume, head, State.return, link]

lemma Inv.drain (inv : Inv s q) (idle : ∀ t, s.producers t = .away) (away : s.consumer = .away) :
    ∃ s', drain (q.length + 1) s = some s' ∧ s'.returned = s.returned ++ q.map some ++ [none] := by
  induction q generalizing s with
  | nil =>
    obtain ⟨next, called, _, _, _, returned⟩ := inv.dequeueAlone idle away
    refine ⟨next, ?_, ?_⟩
    · rw [length_nil, drain, called, bind_some, drain]
    · rw [returned, map_nil, append_nil, head?_nil]
  | cons first rest ih =>
    obtain ⟨next, called, inv', producers, done, returned⟩ := inv.dequeueAlone idle away
    obtain ⟨final, drained, returned'⟩ := ih inv' (fun t => by rw [producers]; exact idle t) done
    refine ⟨final, ?_, ?_⟩
    · rw [length_cons, drain, called, bind_some, drained]
    · rw [returned', returned, map_cons, head?_cons, append_assoc s.returned, singleton_append]

/-! ## FIFO -/

/-- What was returned is what became the tail, in that order and up to some point. A call of `dequeue` does not wait,
and when no producer is at work and the current call has returned, further calls return everything that is left, and
then `NULL`. -/
structure Fifo (s : State Node T) : Prop where
  order : s.dequeued <+: s.exchanged
  finishes : ∃ s', finish 4 s = some s' ∧ s'.exchanged = s.exchanged
  drained : (∀ t, s.producers t = .away) → ∀ s', finish 4 s = some s' →
    ∃ final, drain (s'.exchanged.length - s'.dequeued.length + 1) s' = some final ∧
      final.returned = s'.returned ++ (s'.exchanged.drop s'.dequeued.length).map some ++ [none]

omit [DecidableEq Node] in
lemma left_le_four (consumer : Consumer Node) : consumer.left ≤ 4 := by
  cases consumer <;> simp [Consumer.left]

/-- In every interleaving of any producers and the consumer, the queue is first in, first out. -/
theorem queue_fifo {next : Node → Option Node} (reached : Reachable step (start next T) s) : Fifo s := by
  obtain ⟨q, inv⟩ := inv_of_reachable reached
  obtain ⟨final, finished, done, producers, exchanged⟩ := finish_of_left 4 s (left_le_four s.consumer)
  refine ⟨⟨s.consumer.taken.toList ++ q, ?_⟩, ⟨final, finished, exchanged⟩, fun idle s' finished' => ?_⟩
  · rw [inv.order, append_assoc]
  · obtain rfl := Option.some.inj (finished.symm.trans finished')
    obtain ⟨q', inv'⟩ := inv.finish finished
    have rest : final.exchanged = final.dequeued ++ q' := by
      have order := inv'.order
      rw [done] at order
      simpa [Consumer.taken] using order
    have drained := inv'.drain (fun t => by rw [producers]; exact idle t) done
    rw [rest, length_append, Nat.add_sub_cancel_left, drop_left]
    exact drained

/-- Producer `t` is suspended after its exchange, and the consumer finds nothing although producer `u` is done; later
it finds both entries. -/
def suspended (t u : Fin 2) : List (Act ℕ 2) :=
  [.enqueue t 10, .produce t, .produce t, .enqueue u 11, .produce u, .produce u, .produce u, .dequeue, .consume,
    .produce t, .dequeue, .consume, .consume, .consume, .dequeue, .consume, .consume, .consume, .consume]

theorem suspended_fifo : ∃ s : State ℕ 2, (suspended 0 1).foldlM step (start (fun _ => none) 2) = some s ∧
    s.returned = [none, some 10, some 11] ∧ Fifo s := by
  have ran : ((suspended 0 1).foldlM step (start (fun _ => none) 2)).map State.returned = some [none, some 10, some 11] := by
    decide
  obtain ⟨s, final, returned⟩ := map_eq_some_iff.mp ran
  exact ⟨s, final, returned, queue_fifo (Reachable.start.run final)⟩

end HpcToolkit.Collections.MpscQueue
