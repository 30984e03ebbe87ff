import HpcToolkit.Locks.McsLock

/-! # Runs of the lock

The threads that have exchanged the tail are a queue, of which only the first can hold the lock. A node that is not
the last is linked to the next one, unless the thread that has to do this is still on its way. Each operation changes
the first place, the last place or one place between two others.
-/

open Function List

namespace HpcToolkit.Locks.McsLock

open Lib Collections.MpscQueue

variable {Thread Node : Type} [DecidableEq Thread] [DecidableEq Node] {s s' : State Thread Node}
  {q : List (Thread × Node)} {t u : Thread} {n m : Node} {pc : Pc Node}

section
omit [DecidableEq Node]

lemma move_pc_self (s : State Thread Node) (t : Thread) (pc : Pc Node) : (s.move t pc).pc t = pc := by
  simp only [State.move, update_self]

lemma move_pc_other (s : State Thread Node) (pc : Pc Node) (other : u ≠ t) : (s.move t pc).pc u = s.pc u := by
  simp only [State.move, update_of_ne other]

lemma move_same {α : Type} (f : Pc Node → α) (s : State Thread Node) (pc : Pc Node) (same : f pc = f (s.pc t))
    (u : Thread) :
    f ((s.move t pc).pc u) = f (s.pc u) := by
  rcases eq_or_ne u t with rfl | other
  · rw [move_pc_self, same]
  · rw [move_pc_other s pc other]

end

section
omit [DecidableEq Thread] [DecidableEq Node]

variable {α : Type}

lemma follows_not_head {q : List α} {a b : α} (nodup : q.Nodup) (follows : Follows q a b) :
    q.head? ≠ some b := by
  cases q with
  | nil => exact follows.elim
  | cons x rest =>
    cases rest with
    | nil => exact follows.elim
    | cons y rest =>
      obtain ⟨off, -⟩ := nodup_cons.mp nodup
      intro first
      obtain rfl : x = b := Option.some.inj first
      rcases follows with ⟨-, rfl⟩ | later
      · exact off mem_cons_self
      · exact off later.mem.2

lemma follows_unique_left {q : List α} {a b e : α} (nodup : q.Nodup) (first : Follows q a e)
    (second : Follows q b e) : a = b := by
  induction q with
  | nil => exact first.elim
  | cons x rest ih =>
    cases rest with
    | nil => exact first.elim
    | cons y rest =>
      have apart := (nodup_cons.mp nodup).2
      rcases first with ⟨rfl, rfl⟩ | first <;> rcases second with ⟨rfl, same⟩ | second
      · rfl
      · exact absurd rfl (follows_not_head apart second)
      · exact absurd (congrArg some same.symm) (follows_not_head apart first)
      · exact ih apart first second

lemma Inv.other_of_follows (inv : Inv s q) (first : q.head? = some (t, n)) {a e : Thread × Node}
    (follows : Follows q a e) : e.1 ≠ t := by
  obtain ⟨v, k⟩ := e
  rintro rfl
  obtain rfl := inv.thread_unique (mem_of_head? first) follows.mem.2
  exact follows_not_head inv.nodup follows first

lemma Inv.order_same (inv : Inv s q) (s' : State Thread Node) (exchanged : s'.exchanged = s.exchanged)
    (acquired : s'.acquired = s.acquired) (same : ∀ e ∈ q, (s'.pc e.1).waiting = (s.pc e.1).waiting) :
    s'.exchanged = s'.acquired ++ (q.filter fun e => (s'.pc e.1).waiting).map Prod.fst := by
  rw [exchanged, acquired, inv.order, filter_congr same]

lemma Inv.outside (inv : Inv s q) (same : ∀ u, (s.pc u).queued ≠ none → s'.pc u = s.pc u)
    (off : ∀ u, (s.pc u).queued = none → (s'.pc u).queued = none) (tail : s'.tail = s.tail)
    (exchanged : s'.exchanged = s.exchanged) (acquired : s'.acquired = s.acquired)
    (next : ∀ e ∈ q, s'.next e.2 = s.next e.2) (blocked : ∀ e ∈ q, s'.blocked e.2 = s.blocked e.2)
    (owner : ∀ u n, s'.owner n = some u ↔ (s'.pc u).node = some n)
    (ready : ∀ u n, (s'.pc u).ready = some n → s'.next n = none) : Inv s' q := by
  have listed : ∀ e ∈ q, (s.pc e.1).queued = some e.2 := fun e member => (inv.queued e.1 e.2).mp member
  have stays : ∀ e ∈ q, s'.pc e.1 = s.pc e.1 := fun e member => same e.1 (by rw [listed e member]; simp)
  refine ⟨inv.nodup, ?_, owner, tail.trans inv.tail, ready, ?_, ?_, ?_, ?_⟩
  · intro u n
    rw [inv.queued]
    rcases eq_or_ne (s.pc u).queued none with out | inside
    · rw [out, off u out]
    · rw [same u inside]
  · intro e first
    have member := mem_of_head? first
    rw [stays e member]
    exact (inv.front e first).congr (listed e member) (fun _ => next e member) (blocked e member)
  · intro a e follows
    rw [stays e follows.mem.2]
    exact (inv.behind a e follows).congr (listed e follows.mem.2) (next a follows.mem.1) (blocked e follows.mem.2)
  · intro e last
    rw [next e (mem_of_getLast? last)]
    exact inv.last e last
  · apply inv.order_same s' exchanged acquired
    intro e member
    rw [stays e member]

end

/-! ## Threads outside of the queue -/

section
variable (inv : Inv s q)
include inv

lemma Inv.call (idle : s.pc t = .idle) (free : s.owner n = none) (off : pc.queued = none)
    (ready : pc.ready = none) (node : pc.node = some n) : Inv ((s.take t n).move t pc) q := by
  have alone : ∀ u, (s.pc u).node ≠ some n := by
    intro u used
    have owned := (inv.owner u n).mpr used
    rw [free] at owned
    cases owned
  apply inv.outside
  · intro u inside
    exact move_pc_other _ _ (by rintro rfl; exact inside (by rw [idle]; rfl))
  · intro u out
    rcases eq_or_ne u t with rfl | other
    · rw [move_pc_self]
      exact off
    · rw [move_pc_other _ _ other]
      exact out
  · rfl
  · rfl
  · rfl
  · intro e _
    rfl
  · intro e _
    rfl
  · intro u m
    change update s.owner n (some t) m = some u ↔ _
    rcases eq_or_ne u t with rfl | other
    · rw [move_pc_self, node]
      rcases eq_or_ne m n with rfl | different
      · simp only [update_self]
      · rw [update_of_ne different, inv.owner, idle]
        exact iff_of_false (nomatch ·) fun same => different (Option.some.inj same).symm
    · rw [move_pc_other _ _ other]
      rcases eq_or_ne m n with rfl | different
      · rw [update_self]
        exact iff_of_false (fun same => other (Option.some.inj same).symm) (alone u)
      · rw [update_of_ne different]
        exact inv.owner u m
  · intro u m here
    rcases eq_or_ne u t with rfl | other
    · rw [move_pc_self, ready] at here
      cases here
    · rw [move_pc_other _ _ other] at here
      exact inv.ready u m here

lemma Inv.init (out : (s.pc t).queued = none) (mine : (s.pc t).node = some n)
    (off : pc.queued = none) (node : pc.node = some n) : Inv ((s.setNext n none).move t pc) q := by
  have unlisted : ∀ e ∈ q, e.2 ≠ n := by
    rintro ⟨u, k⟩ listed rfl
    have queued := (inv.queued u k).mp listed
    obtain rfl := inv.node_unique (Pc.node_of_queued queued) mine
    rw [out] at queued
    cases queued
  apply inv.outside
  · intro u inside
    exact move_pc_other _ _ (by rintro rfl; exact inside out)
  · intro u outside
    rw [move_same Pc.queued (s.setNext n none) pc (off.trans out.symm)]
    exact outside
  · rfl
  · rfl
  · rfl
  · intro e listed
    exact update_of_ne (unlisted e listed) _ _
  · intro e _
    rfl
  · intro u m
    rw [move_same Pc.node (s.setNext n none) pc (node.trans mine.symm)]
    exact inv.owner u m
  · intro u m here
    change update s.next n none m = none
    rcases eq_or_ne m n with rfl | different
    · rw [update_self]
    · rw [update_of_ne different]
      rcases eq_or_ne u t with rfl | other
      · rw [move_pc_self] at here
        exact absurd (Option.some.inj ((Pc.node_of_ready here).symm.trans node)) different
      · rw [move_pc_other _ _ other] at here
        exact inv.ready u m here

lemma Inv.owner_release (mine : (s.pc t).node = some n) (u : Thread) (m : Node) :
    (s.release t n).owner m = some u ↔ ((s.release t n).pc u).node = some m := by
  change update s.owner n none m = some u ↔ (update s.pc t .idle u).node = some m
  rcases eq_or_ne u t with rfl | other
  · rw [update_self]
    rcases eq_or_ne m n with rfl | different
    · rw [update_self]
      exact iff_of_false (nomatch ·) (nomatch ·)
    · rw [update_of_ne different, inv.owner, mine]
      exact iff_of_false (fun same => different (Option.some.inj same).symm) (nomatch ·)
  · rw [update_of_ne other]
    rcases eq_or_ne m n with rfl | different
    · rw [update_self]
      exact iff_of_false (nomatch ·) fun used => other (inv.node_unique used mine)
    · rw [update_of_ne different]
      exact inv.owner u m

omit [DecidableEq Node] in
lemma Inv.ready_move (off : pc.ready = none) {u : Thread} {m : Node}
    (ready : ((s.move t pc).pc u).ready = some m) : s.next m = none := by
  rcases eq_or_ne u t with rfl | other
  · rw [move_pc_self, off] at ready
    cases ready
  · rw [move_pc_other _ _ other] at ready
    exact inv.ready u m ready

lemma Inv.giveUp (out : (s.pc t).queued = none) (mine : (s.pc t).node = some n) :
    Inv (s.release t n) q := by
  apply inv.outside
  · intro u inside
    exact update_of_ne (by rintro rfl; exact inside out) _ _
  · intro u outside
    rw [show (s.release t n).pc u = (s.move t .idle).pc u from rfl, move_same Pc.queued s .idle out.symm]
    exact outside
  · rfl
  · rfl
  · rfl
  · intro e _
    rfl
  · intro e _
    rfl
  · exact inv.owner_release mine
  · intro u m here
    exact inv.ready_move rfl here

omit [DecidableEq Thread] in
lemma Inv.reuse (free : s.owner n = none) (next : Option Node) (blocked : Bool) :
    Inv ((s.setNext n next).setBlocked n blocked) q := by
  have unused : ∀ u m, (s.pc u).node = some m → m ≠ n := by
    rintro u m used rfl
    rw [(inv.owner u m).mpr used] at free
    cases free
  have unlisted : ∀ e ∈ q, e.2 ≠ n := fun e listed =>
    unused e.1 e.2 (Pc.node_of_queued ((inv.queued e.1 e.2).mp listed))
  apply inv.outside
  · intro u _
    rfl
  · intro u outside
    exact outside
  · rfl
  · rfl
  · rfl
  · intro e listed
    exact update_of_ne (unlisted e listed) _ _
  · intro e listed
    exact update_of_ne (unlisted e listed) _ _
  · exact inv.owner
  · intro u m ready
    exact (update_of_ne (unused u m (Pc.node_of_ready ready)) _ _).trans (inv.ready u m ready)

/-! ## The first thread in the queue -/

omit [DecidableEq Node] in
lemma Inv.behind_head (first : q.head? = some (t, n)) {a e : Thread × Node} (follows : Follows q a e) :
    ((s.move t pc).pc e.1).Behind s a.2 := by
  rw [move_pc_other s pc (inv.other_of_follows first follows)]
  exact inv.behind a e follows

omit [DecidableEq Node] in
lemma Inv.holder (held : (s.pc t).queued = some n) (free : (s.pc t).waiting = false)
    (queued : pc.queued = some n) (waiting : pc.waiting = false) (front : pc.Front s) : Inv (s.move t pc) q := by
  have first := inv.head_of_not_waiting held free
  refine ⟨inv.nodup, ?_, ?_, inv.tail, ?_, ?_, ?_, inv.last, ?_⟩
  · intro u m
    rw [move_same Pc.queued s pc (queued.trans held.symm)]
    exact inv.queued u m
  · intro u m
    rw [move_same Pc.node s pc ((Pc.node_of_queued queued).trans (Pc.node_of_queued held).symm)]
    exact inv.owner u m
  · intro u m ready
    exact inv.ready_move (Pc.not_ready_of_queued queued) ready
  · intro e here
    obtain rfl := Option.some.inj (first.symm.trans here)
    rw [move_pc_self]
    exact front.congr queued (fun _ => rfl) rfl
  · intro a e follows
    exact (inv.behind_head first follows).congr
      (by rw [move_pc_other s pc (inv.other_of_follows first follows)]; exact (inv.queued e.1 e.2).mp follows.mem.2)
      rfl rfl
  · apply inv.order_same (s.move t pc) rfl rfl
    intro e _
    exact move_same Pc.waiting s pc (waiting.trans free.symm) e.1

omit [DecidableEq Node] in
lemma Inv.acquire (spins : s.pc t = .lockSpin n) (clear : s.blocked n = false) :
    Inv (s.acquire t n) q := by
  have queued : (s.pc t).queued = some n := by rw [spins]; rfl
  have listed := (inv.queued t n).mpr queued
  have first : q.head? = some (t, n) := by
    rcases head_or_follows listed with first | ⟨a, follows⟩
    · exact first
    · have relies := inv.behind a _ follows
      rw [spins] at relies
      cases clear.symm.trans relies.2
  refine ⟨inv.nodup, ?_, ?_, inv.tail, ?_, ?_, ?_, inv.last, ?_⟩
  · intro u m
    rw [show (s.acquire t n).pc u = (s.move t (.holds n)).pc u from rfl, move_same Pc.queued s (.holds n) queued.symm]
    exact inv.queued u m
  · intro u m
    rw [show (s.acquire t n).pc u = (s.move t (.holds n)).pc u from rfl,
      move_same Pc.node s (.holds n) (Pc.node_of_queued queued).symm]
    exact inv.owner u m
  · intro u m ready
    exact inv.ready_move rfl ready
  · intro e here
    obtain rfl := Option.some.inj (first.symm.trans here)
    rw [State.acquire, move_pc_self]
    trivial
  · intro a e follows
    have other := inv.other_of_follows first follows
    rw [State.acquire, move_pc_other _ _ other]
    exact (inv.behind a e follows).congr ((inv.queued e.1 e.2).mp follows.mem.2) rfl rfl
  · change s.exchanged = s.acquired ++ [t] ++ _
    obtain ⟨rest, rfl⟩ : ∃ rest, q = (t, n) :: rest := by
      cases q with
      | nil => cases first
      | cons e rest => exact ⟨rest, congrArg (· :: rest) (Option.some.inj first)⟩
    have others : ∀ e ∈ rest, ((s.acquire t n).pc e.1).waiting = (s.pc e.1).waiting := by
      rintro ⟨v, k⟩ later
      have other : v ≠ t := by
        rintro rfl
        obtain rfl := inv.thread_unique listed (mem_cons_of_mem _ later)
        exact (nodup_cons.mp inv.nodup).1 later
      rw [State.acquire, move_pc_other _ _ other]
    have before : (s.pc t).waiting = true := by rw [spins]; rfl
    have after : ¬ ((s.acquire t n).pc t).waiting = true := by
      rw [State.acquire, move_pc_self]
      exact Bool.false_ne_true
    rw [inv.order, filter_cons_of_pos (a := (t, n)) before, filter_cons_of_neg (a := (t, n)) after,
      filter_congr others, map_cons, append_assoc, singleton_append]

/-! ## Threads that wait -/

omit [DecidableEq Node] in
lemma Inv.wait (next : Node → Option Node) (blocked : Node → Bool) (pc : Pc Node) {a : Thread × Node}
    (follows : Follows q a (t, n)) (queued : pc.queued = some n) (waiting : pc.waiting = true)
    (behind : pc.Behind ⟨s.tail, next, blocked, s.pc, s.owner, s.exchanged, s.acquired⟩ a.2)
    (unknown : s.next a.2 = none) (links : ∀ m, m ≠ a.2 → next m = s.next m)
    (flags : ∀ m, m ≠ n → blocked m = s.blocked m) :
    Inv ({ s with next := next, blocked := blocked }.move t pc) q := by
  have held := (inv.queued t n).mp follows.mem.2
  have waits := (inv.behind a _ follows).waiting
  have before : (s.pc a.1).queued = some a.2 := (inv.queued a.1 a.2).mp follows.mem.1
  have others : ∀ e ∈ q, e ≠ (t, n) → e.1 ≠ t ∧ e.2 ≠ n := by
    rintro ⟨v, k⟩ listed other
    constructor
    · rintro rfl
      exact other (by rw [inv.thread_unique listed follows.mem.2])
    · rintro rfl
      exact other (by rw [inv.eq_of_node listed follows.mem.2])
  have different : ∀ e ∈ q, e ≠ a → e.2 ≠ a.2 := by
    rintro ⟨v, k⟩ listed other rfl
    exact other (by rw [inv.eq_of_node listed follows.mem.1])
  refine ⟨inv.nodup, ?_, ?_, inv.tail, ?_, ?_, ?_, ?_, ?_⟩
  · intro u m
    rw [move_same Pc.queued { s with next := next, blocked := blocked } pc (queued.trans held.symm)]
    exact inv.queued u m
  · intro u m
    rw [move_same Pc.node { s with next := next, blocked := blocked } pc
      ((Pc.node_of_queued queued).trans (Pc.node_of_queued held).symm)]
    exact inv.owner u m
  · intro u m ready
    have empty : s.next m = none := inv.ready_move (Pc.not_ready_of_queued queued) ready
    refine (links m ?_).trans empty
    rintro rfl
    rcases eq_or_ne u t with rfl | other
    · rw [move_pc_self, Pc.not_ready_of_queued queued] at ready
      cases ready
    · rw [move_pc_other _ _ other] at ready
      obtain rfl := inv.node_unique (Pc.node_of_ready ready) (Pc.node_of_queued before)
      rw [Pc.not_ready_of_queued before] at ready
      cases ready
  · intro e first
    have other : e ≠ (t, n) := by
      rintro rfl
      exact follows_not_head inv.nodup follows first
    have listed := mem_of_head? first
    rw [move_pc_other _ pc (others e listed other).1]
    refine (inv.front e first).congr ((inv.queued e.1 e.2).mp listed) ?_ (flags _ (others e listed other).2)
    intro known
    exact links e.2 (by rintro same; exact known (same ▸ unknown))
  · intro b e later
    rcases eq_or_ne e (t, n) with rfl | other
    · obtain rfl := follows_unique_left inv.nodup later follows
      rw [move_pc_self]
      exact behind.congr queued rfl rfl
    · have apart : b ≠ a := by
        rintro rfl
        exact other (later.unique inv.nodup follows)
      have listed := later.mem.2
      rw [move_pc_other _ pc (others e listed other).1]
      exact (inv.behind b e later).congr ((inv.queued e.1 e.2).mp listed) (links _ (different b later.mem.1 apart))
        (flags _ (others e listed other).2)
  · intro e last
    have apart : e ≠ a := by
      rintro rfl
      exact follows.not_last inv.nodup last
    exact (links _ (different e (mem_of_getLast? last) apart)).trans (inv.last e last)
  · refine inv.order_same _ rfl rfl ?_
    intro e _
    exact move_same Pc.waiting { s with next := next, blocked := blocked } pc (waiting.trans waits.symm) e.1

end

variable {predecessor : Node}

lemma Inv.block (inv : Inv s q) (blocks : s.pc t = .lockBlock n predecessor) :
    Inv ((s.setBlocked n true).move t (.lockLink n predecessor)) q := by
  have queued : (s.pc t).queued = some n := by rw [blocks]; rfl
  rcases head_or_follows ((inv.queued t n).mpr queued) with first | ⟨a, follows⟩
  · have front := inv.front _ first
    rw [blocks] at front
    exact front.elim
  · have behind := inv.behind a _ follows
    rw [blocks] at behind
    obtain ⟨rfl, unknown⟩ := behind
    apply inv.wait s.next (update s.blocked n true) (.lockLink n a.2) follows rfl rfl ⟨rfl, unknown, ?_⟩ unknown
    · intro m _
      rfl
    · intro m other
      exact update_of_ne other _ _
    · exact update_self _ _ _

lemma Inv.link (inv : Inv s q) (links : s.pc t = .lockLink n predecessor) :
    Inv ((s.setNext predecessor (some n)).move t (.lockSpin n)) q := by
  have queued : (s.pc t).queued = some n := by rw [links]; rfl
  rcases head_or_follows ((inv.queued t n).mpr queued) with first | ⟨a, follows⟩
  · have front := inv.front _ first
    rw [links] at front
    exact front.elim
  · have behind := inv.behind a _ follows
    rw [links] at behind
    obtain ⟨rfl, unknown, blocked⟩ := behind
    apply inv.wait (update s.next a.2 (some n)) s.blocked (.lockSpin n) follows rfl rfl ⟨?_, blocked⟩ unknown
    · intro m other
      exact update_of_ne other _ _
    · intro m _
      rfl
    · exact update_self _ _ _

/-! ## Exchanges of the tail -/

section
omit [DecidableEq Node]

lemma Inv.join (inv : Inv s q) (acquired : List Thread) (ready : (s.pc t).ready = some n)
    (out : (s.pc t).queued = none) (queued : pc.queued = some n) (front : q = [] → pc.Front s)
    (behind : ∀ e, q.getLast? = some e → pc.Behind s e.2)
    (order : s.exchanged ++ [t] =
      acquired ++ ((q ++ [(t, n)]).filter fun e => ((s.move t pc).pc e.1).waiting).map Prod.fst) :
    Inv ({ s.exchange t n with acquired := acquired }.move t pc) (q ++ [(t, n)]) := by
  have others : ∀ e ∈ q, e.1 ≠ t := by
    rintro ⟨v, k⟩ listed rfl
    rw [(inv.queued v k).mp listed] at out
    cases out
  have elsewhere : ∀ u, u ≠ t → ({ s.exchange t n with acquired := acquired }.move t pc).pc u = s.pc u :=
    fun u other => move_pc_other _ _ other
  have self : ({ s.exchange t n with acquired := acquired }.move t pc).pc t = pc := move_pc_self _ _ _
  refine ⟨?_, ?_, ?_, ?_, ?_, ?_, ?_, ?_, order⟩
  · rw [nodup_append_comm, singleton_append, nodup_cons]
    exact ⟨fun listed => others _ listed rfl, inv.nodup⟩
  · intro u m
    rw [mem_append, mem_singleton, inv.queued]
    rcases eq_or_ne u t with rfl | other
    · rw [self, out, queued]
      constructor
      · rintro (same | same)
        · cases same
        · exact congrArg some (Prod.ext_iff.mp same).2.symm
      · intro same
        exact .inr (by rw [Option.some.inj same])
    · rw [elsewhere u other]
      exact or_iff_left fun same => other (Prod.ext_iff.mp same).1
  · intro u m
    rw [move_same Pc.node { s.exchange t n with acquired := acquired } pc
      ((Pc.node_of_queued queued).trans (Pc.node_of_ready ready).symm)]
    exact inv.owner u m
  · rw [getLast?_concat]
    rfl
  · intro u m here
    exact inv.ready_move (Pc.not_ready_of_queued queued) here
  · intro e first
    cases q with
    | nil =>
      obtain rfl := Option.some.inj first
      rw [self]
      exact (front rfl).congr queued (fun _ => rfl) rfl
    | cons x rest =>
      obtain rfl := Option.some.inj first
      rw [elsewhere x.1 (others x mem_cons_self)]
      exact (inv.front x rfl).congr ((inv.queued x.1 x.2).mp mem_cons_self) (fun _ => rfl) rfl
  · intro a e follows
    rcases follows_concat follows with earlier | ⟨last, rfl⟩
    · rw [elsewhere e.1 (others e earlier.mem.2)]
      exact (inv.behind a e earlier).congr ((inv.queued e.1 e.2).mp earlier.mem.2) rfl rfl
    · rw [self]
      exact (behind a last).congr queued rfl rfl
  · intro e last
    rw [getLast?_concat] at last
    obtain rfl := Option.some.inj last
    exact inv.ready t n ready

lemma Inv.acquireFree (inv : Inv s q) (ready : (s.pc t).ready = some n) (out : (s.pc t).queued = none)
    (free : s.tail = none) : Inv ((s.exchange t n).acquire t n) [(t, n)] := by
  obtain rfl : q = [] := by
    have tail := inv.tail
    rw [free] at tail
    exact getLast?_eq_none_iff.mp (Option.map_eq_none_iff.mp tail.symm)
  apply inv.join (s.acquired ++ [t]) ready out rfl
  · intro _
    trivial
  · intro e last
    cases last
  · have order := inv.order
    rw [filter_nil, map_nil, append_nil] at order
    have holds : ¬ ((s.move t (.holds n)).pc t).waiting = true := by
      rw [move_pc_self]
      exact Bool.false_ne_true
    rw [nil_append, filter_cons_of_neg (a := (t, n)) holds, filter_nil, map_nil, append_nil, order]

lemma Inv.acquireLater (inv : Inv s q) (ready : (s.pc t).ready = some n)
    (out : (s.pc t).queued = none) (tail : s.tail = some predecessor) :
    Inv ((s.exchange t n).move t (.lockBlock n predecessor)) (q ++ [(t, n)]) := by
  have others : ∀ e ∈ q, ((s.move t (.lockBlock n predecessor)).pc e.1).waiting = (s.pc e.1).waiting := by
    rintro ⟨v, k⟩ listed
    have other : v ≠ t := by
      rintro rfl
      rw [(inv.queued v k).mp listed] at out
      cases out
    rw [move_pc_other _ _ other]
  apply inv.join s.acquired ready out rfl
  · rintro rfl
    rw [inv.tail] at tail
    cases tail
  · intro e last
    rw [inv.tail, last] at tail
    exact ⟨(Option.some.inj tail).symm, inv.last e last⟩
  · have waits : ((s.move t (.lockBlock n predecessor)).pc t).waiting = true := by
      rw [move_pc_self]
      rfl
    rw [filter_append, filter_congr others, filter_cons_of_pos (a := (t, n)) waits, map_append,
      ← append_assoc, ← inv.order]
    rfl

end

/-! ## Release -/

variable {successor : Node}

omit [DecidableEq Thread] [DecidableEq Node] in
lemma Inv.second (inv : Inv s ((t, n) :: q)) (signals : s.pc t = .unlockSignal n successor) :
    ∃ u rest, q = (u, successor) :: rest ∧ s.pc u = .lockSpin successor := by
  have front := inv.front _ rfl
  rw [signals] at front
  cases q with
  | nil =>
    have last := inv.last _ rfl
    cases last.symm.trans front
  | cons e rest =>
    obtain ⟨u, k⟩ := e
    have behind := inv.behind _ (u, k) (.inl ⟨rfl, rfl⟩)
    have queued := (inv.queued u k).mp (mem_cons_of_mem _ mem_cons_self)
    have known : s.next n = some successor := front
    cases place : s.pc u with
    | lockSpin me =>
      rw [place] at behind queued
      obtain rfl : me = k := Option.some.inj queued
      obtain rfl : me = successor := Option.some.inj (behind.1.symm.trans known)
      exact ⟨u, rest, rfl, place⟩
    | lockBlock me predecessor =>
      rw [place] at behind
      cases behind.2.symm.trans known
    | lockLink me predecessor =>
      rw [place] at behind
      cases behind.2.1.symm.trans known
    | _ =>
      rw [place] at behind
      exact behind.elim

lemma Inv.leave (inv : Inv s ((t, n) :: q)) (tail : Option Node) (blocked : Node → Bool)
    (free : (s.pc t).waiting = false) (last : tail = q.getLast?.map Prod.snd)
    (front : ∀ e, q.head? = some e → (s.pc e.1).Front ⟨s.tail, s.next, blocked, s.pc, s.owner, s.exchanged, s.acquired⟩)
    (flags : ∀ a e, Follows q a e → blocked e.2 = s.blocked e.2) :
    Inv ({ s with tail := tail, blocked := blocked }.release t n) q := by
  have queued := (inv.queued t n).mp mem_cons_self
  obtain ⟨off, nodup⟩ := nodup_cons.mp inv.nodup
  have others : ∀ e ∈ q, e.1 ≠ t := by
    rintro ⟨v, k⟩ listed rfl
    obtain rfl := inv.thread_unique (mem_cons_of_mem _ listed) mem_cons_self
    exact off listed
  have elsewhere : ∀ u, u ≠ t → ({ s with tail := tail, blocked := blocked }.release t n).pc u = s.pc u :=
    fun u other => update_of_ne other _ _
  have self : ({ s with tail := tail, blocked := blocked }.release t n).pc t = .idle := update_self _ _ _
  refine ⟨nodup, ?_, ?_, last, ?_, ?_, ?_, ?_, ?_⟩
  · intro u m
    rcases eq_or_ne u t with rfl | other
    · rw [self]
      exact iff_of_false (fun listed => others _ listed rfl) (nomatch ·)
    · rw [elsewhere u other, ← inv.queued, mem_cons]
      exact (or_iff_right fun same => other (Prod.ext_iff.mp same).1).symm
  · exact inv.owner_release (Pc.node_of_queued queued)
  · intro u m ready
    exact inv.ready_move rfl ready
  · intro e first
    have listed := mem_of_head? first
    rw [elsewhere e.1 (others e listed)]
    exact (front e first).congr ((inv.queued e.1 e.2).mp (mem_cons_of_mem _ listed)) (fun _ => rfl) rfl
  · intro a e follows
    have later : Follows ((t, n) :: q) a e := by
      cases q with
      | nil => exact follows.elim
      | cons x rest => exact .inr follows
    rw [elsewhere e.1 (others e follows.mem.2)]
    exact (inv.behind a e later).congr ((inv.queued e.1 e.2).mp later.mem.2) rfl (flags a e follows)
  · intro e last
    exact inv.last e (by
      cases q with
      | nil => cases last
      | cons x rest => exact getLast?_cons_cons.trans last)
  · have holds : ¬ (s.pc t).waiting = true := by
      rw [free]
      exact Bool.false_ne_true
    have order := inv.order
    rw [filter_cons_of_neg (a := (t, n)) holds] at order
    have same : (q.filter fun e => (({ s with tail := tail, blocked := blocked }.release t n).pc e.1).waiting) =
        q.filter fun e => (s.pc e.1).waiting :=
      filter_congr fun e listed => by rw [elsewhere e.1 (others e listed)]
    exact order.trans (congrArg (fun l => s.acquired ++ l.map Prod.fst) same.symm)

omit [DecidableEq Thread] [DecidableEq Node] in
lemma Inv.holder_first (inv : Inv s q) (queued : (s.pc t).queued = some n) (free : (s.pc t).waiting = false) :
    ∃ rest, q = (t, n) :: rest := by
  have first := inv.head_of_not_waiting queued free
  cases q with
  | nil => cases first
  | cons e rest => exact ⟨rest, congrArg (· :: rest) (Option.some.inj first)⟩

lemma Inv.unlink (inv : Inv s q) (swaps : s.pc t = .unlockSwap n) (tail : s.tail = some n) :
    Inv ({ s with tail := none }.release t n) [] := by
  obtain ⟨rest, rfl⟩ := inv.holder_first (t := t) (n := n) (by rw [swaps]; rfl) (by rw [swaps]; rfl)
  have last := inv.tail
  rw [tail] at last
  obtain rfl : rest = [] := by
    cases rest with
    | nil => rfl
    | cons x rest =>
      rw [getLast?_cons_cons, getLast?_cons, Option.map_some] at last
      obtain ⟨off, -⟩ := nodup_cons.mp inv.nodup
      have listed : ((rest.getLast?.getD x).1, n) ∈ x :: rest := by
        rw [Option.some.inj last]
        exact mem_of_getLast? getLast?_cons
      obtain same := inv.eq_of_node (mem_cons_of_mem _ listed) mem_cons_self
      exact absurd (same ▸ listed) off
  apply inv.leave none s.blocked (by rw [swaps]; rfl) rfl
  · intro e first
    cases first
  · intro a e follows
    exact follows.elim

lemma Inv.signal (inv : Inv s q) (signals : s.pc t = .unlockSignal n successor) :
    ∃ q', Inv ((s.setBlocked successor false).release t n) q' := by
  obtain ⟨rest, rfl⟩ := inv.holder_first (t := t) (n := n) (by rw [signals]; rfl) (by rw [signals]; rfl)
  obtain ⟨u, later, rfl, spins⟩ := inv.second signals
  refine ⟨(u, successor) :: later,
    inv.leave s.tail (update s.blocked successor false) (by rw [signals]; rfl) ?_ ?_ ?_⟩
  · rw [inv.tail, getLast?_cons_cons]
  · intro e first
    cases first
    rw [spins]
    exact update_self _ _ _
  · intro a e follows
    refine update_of_ne ?_ _ _
    rintro rfl
    obtain ⟨-, nodup⟩ := nodup_cons.mp inv.nodup
    have listed := follows.mem.2
    have same := inv.eq_of_node (mem_cons_of_mem _ listed) (mem_cons_of_mem _ mem_cons_self)
    exact follows_not_head nodup follows (by rw [← same]; rfl)

/-! ## Runs -/

lemma Inv.run (inv : Inv s q) (ran : McsLock.run s t = some s') : ∃ q', Inv s' q' := by
  unfold McsLock.run at ran
  cases place : s.pc t with
  | idle => simp only [place, reduceCtorEq] at ran
  | holds me => simp only [place, reduceCtorEq] at ran
  | lockInit me =>
    simp only [place, Option.some.injEq] at ran
    subst ran
    exact ⟨q, inv.init (by rw [place]; rfl) (by rw [place]; rfl) rfl rfl⟩
  | lockExchange me =>
    have ready : (s.pc t).ready = some me := by rw [place]; rfl
    have out : (s.pc t).queued = none := by rw [place]; rfl
    cases tail : s.tail with
    | none =>
      simp only [place, tail, Option.some.injEq] at ran
      subst ran
      exact ⟨_, inv.acquireFree ready out tail⟩
    | some predecessor =>
      simp only [place, tail, Option.some.injEq] at ran
      subst ran
      exact ⟨_, inv.acquireLater ready out tail⟩
  | lockBlock me predecessor =>
    simp only [place, Option.some.injEq] at ran
    subst ran
    exact ⟨q, inv.block place⟩
  | lockLink me predecessor =>
    simp only [place, Option.some.injEq] at ran
    subst ran
    exact ⟨q, inv.link place⟩
  | lockSpin me =>
    cases blocked : s.blocked me with
    | true =>
      simp only [place, blocked, if_true, Option.some.injEq] at ran
      subst ran
      exact ⟨q, inv⟩
    | false =>
      simp only [place, blocked, Bool.false_eq_true, if_false, Option.some.injEq] at ran
      subst ran
      exact ⟨q, inv.acquire place blocked⟩
  | trylockInit me =>
    simp only [place, Option.some.injEq] at ran
    subst ran
    exact ⟨q, inv.init (by rw [place]; rfl) (by rw [place]; rfl) rfl rfl⟩
  | trylockSwap me =>
    have out : (s.pc t).queued = none := by rw [place]; rfl
    by_cases free : s.tail = none
    · simp only [place, if_pos free, Option.some.injEq] at ran
      subst ran
      exact ⟨_, inv.acquireFree (by rw [place]; rfl) out free⟩
    · simp only [place, if_neg free, Option.some.injEq] at ran
      subst ran
      exact ⟨q, inv.giveUp out (by rw [place]; rfl)⟩
  | unlockLoad me =>
    have queued : (s.pc t).queued = some me := by rw [place]; rfl
    have free : (s.pc t).waiting = false := by rw [place]; rfl
    cases next : s.next me with
    | none =>
      simp only [place, next, Option.some.injEq] at ran
      subst ran
      exact ⟨q, inv.holder queued free rfl rfl trivial⟩
    | some successor =>
      simp only [place, next, Option.some.injEq] at ran
      subst ran
      exact ⟨q, inv.holder queued free rfl rfl next⟩
  | unlockSwap me =>
    by_cases tail : s.tail = some me
    · simp only [place, if_pos tail, Option.some.injEq] at ran
      subst ran
      exact ⟨_, inv.unlink place tail⟩
    · simp only [place, if_neg tail, Option.some.injEq] at ran
      subst ran
      exact ⟨q, inv.holder (n := me) (by rw [place]; rfl) (by rw [place]; rfl) rfl rfl trivial⟩
  | unlockWait me =>
    cases next : s.next me with
    | none =>
      simp only [place, next, Option.some.injEq] at ran
      subst ran
      exact ⟨q, inv⟩
    | some successor =>
      simp only [place, next, Option.some.injEq] at ran
      subst ran
      exact ⟨q, inv.holder (n := me) (by rw [place]; rfl) (by rw [place]; rfl) rfl rfl next⟩
  | unlockSignal me successor =>
    simp only [place, Option.some.injEq] at ran
    subst ran
    exact inv.signal place

lemma Inv.step (inv : Inv s q) {act : Act Thread Node} (stepped : McsLock.step s act = some s') :
    ∃ q', Inv s' q' := by
  cases act with
  | lock t me =>
    rw [McsLock.step] at stepped
    split at stepped
    · rename_i allowed
      cases stepped
      exact ⟨q, inv.call allowed.1 allowed.2 rfl rfl rfl⟩
    · cases stepped
  | trylock t me =>
    rw [McsLock.step] at stepped
    split at stepped
    · rename_i allowed
      cases stepped
      exact ⟨q, inv.call allowed.1 allowed.2 rfl rfl rfl⟩
    · cases stepped
  | unlock t =>
    rw [McsLock.step] at stepped
    split at stepped
    · rename_i me place
      cases stepped
      exact ⟨q, inv.holder (n := me) (by rw [place]; rfl) (by rw [place]; rfl) rfl rfl trivial⟩
    · cases stepped
  | run t => exact inv.run stepped
  | reuse node next blocked =>
    rw [McsLock.step] at stepped
    split at stepped
    · rename_i free
      cases stepped
      exact ⟨q, inv.reuse free next blocked⟩
    · cases stepped

lemma inv_of_reachable {next : Node → Option Node} {blocked : Node → Bool}
    (reached : Reachable step (start Thread next blocked) s) : ∃ q, Inv s q := by
  apply reached.invariant
  · exact ⟨[], Inv.start next blocked⟩
  · rintro s s' act ⟨q, inv⟩ stepped
    exact inv.step stepped

lemma run_writes (ran : run s t = some s') (other : (s.pc t).writes ≠ some n) :
    s'.next n = s.next n ∧ s'.blocked n = s.blocked n := by
  unfold run at ran
  cases place : s.pc t with
  | lockInit me | trylockInit me =>
    rw [place] at other
    simp only [place, Option.some.injEq] at ran
    subst ran
    exact ⟨update_of_ne (fun same => other (congrArg some same.symm)) _ _, rfl⟩
  | lockLink me predecessor =>
    rw [place] at other
    simp only [place, Option.some.injEq] at ran
    subst ran
    exact ⟨update_of_ne (fun same => other (congrArg some same.symm)) _ _, rfl⟩
  | lockBlock me predecessor =>
    rw [place] at other
    simp only [place, Option.some.injEq] at ran
    subst ran
    exact ⟨rfl, update_of_ne (fun same => other (congrArg some same.symm)) _ _⟩
  | unlockSignal me successor =>
    rw [place] at other
    simp only [place, Option.some.injEq] at ran
    subst ran
    exact ⟨rfl, update_of_ne (fun same => other (congrArg some same.symm)) _ _⟩
  | idle | holds me => simp only [place, reduceCtorEq] at ran
  | lockExchange me | unlockLoad me | unlockWait me | lockSpin me | trylockSwap me | unlockSwap me =>
    simp only [place] at ran
    split at ran <;> cases ran <;> exact ⟨rfl, rfl⟩

section
omit [DecidableEq Thread] [DecidableEq Node]

lemma Inv.writes_used (inv : Inv s q) (writes : (s.pc t).writes = some n) :
    ∃ u, (s.pc u).node = some n ∧ (u ≠ t → (s.pc u).queued = some n) := by
  cases place : s.pc t with
  | lockInit me | trylockInit me =>
    rw [place] at writes
    exact ⟨t, by rw [place]; exact writes, fun other => absurd rfl other⟩
  | lockBlock me predecessor =>
    rw [place] at writes
    exact ⟨t, by rw [place]; exact writes, fun other => absurd rfl other⟩
  | lockLink me predecessor =>
    rw [place] at writes
    cases writes
    have queued : (s.pc t).queued = some me := by rw [place]; rfl
    rcases head_or_follows ((inv.queued t me).mpr queued) with first | ⟨a, follows⟩
    · have front := inv.front _ first
      rw [place] at front
      exact front.elim
    · have behind := inv.behind a _ follows
      rw [place] at behind
      obtain ⟨rfl, -⟩ := behind
      have before := (inv.queued a.1 a.2).mp follows.mem.1
      exact ⟨a.1, Pc.node_of_queued before, fun _ => before⟩
  | unlockSignal me successor =>
    rw [place] at writes
    cases writes
    obtain ⟨rest, rfl⟩ := inv.holder_first (t := t) (n := me) (by rw [place]; rfl) (by rw [place]; rfl)
    obtain ⟨u, later, rfl, spins⟩ := inv.second place
    exact ⟨u, by rw [spins]; rfl, fun _ => by rw [spins]; rfl⟩
  | idle | holds me | lockExchange me | unlockLoad me | unlockWait me | lockSpin me | trylockSwap me | unlockSwap me =>
    rw [place] at writes
    cases writes

lemma Inv.exclusive (inv : Inv s q) (first : (s.pc t).holding = true) (second : (s.pc u).holding = true) : t = u := by
  obtain ⟨n, here⟩ := Pc.queued_of_holding first
  obtain ⟨m, there⟩ := Pc.queued_of_holding second
  have same := (inv.head_of_not_waiting here (Pc.not_waiting_of_holding first)).symm.trans
    (inv.head_of_not_waiting there (Pc.not_waiting_of_holding second))
  exact (Prod.ext_iff.mp (Option.some.inj same)).1

end

lemma Inv.trylock (inv : Inv s q) (swaps : s.pc t = .trylockSwap n) (ran : McsLock.run s t = some s') :
    s'.pc t = .holds n ↔ ∀ u, (s.pc u).queued = none := by
  unfold McsLock.run at ran
  simp only [swaps] at ran
  by_cases free : s.tail = none
  · rw [if_pos free] at ran
    cases ran
    refine iff_of_true (move_pc_self _ _ _) ?_
    intro u
    cases queued : (s.pc u).queued with
    | none => rfl
    | some m =>
      have listed := (inv.queued u m).mpr queued
      have tail := inv.tail
      rw [free] at tail
      rw [getLast?_eq_none_iff.mp (Option.map_eq_none_iff.mp tail.symm)] at listed
      cases listed
  · rw [if_neg free] at ran
    cases ran
    refine iff_of_false ?_ ?_
    · intro holds
      cases (move_pc_self _ _ _).symm.trans holds
    · intro nobody
      refine free ?_
      rw [inv.tail]
      cases last : q.getLast? with
      | none => rfl
      | some e =>
        have queued := (inv.queued e.1 e.2).mp (mem_of_getLast? last)
        rw [nobody e.1] at queued
        cases queued

/-- The lock is correct in every state of every run, with the nodes used for anything else as soon as their calls have
returned. -/
theorem mutual_exclusion_in_order {next : Node → Option Node} {blocked : Node → Bool}
    (reached : Reachable step (start Thread next blocked) s) : Correct s := by
  obtain ⟨q, inv⟩ := inv_of_reachable reached
  constructor
  · intro t u first second
    exact inv.exclusive first second
  · exact ⟨_, inv.order.symm⟩
  · intro t n s' swaps stepped
    exact inv.trylock swaps stepped
  · intro t n writes
    exact inv.writes_used writes
  · intro t n s' stepped other
    exact run_writes stepped other

/-- Thread 0 unlocks while thread 1 is between its exchange and its link, and a third thread tries its luck. -/
def halfLinked : List (Act ℕ ℕ) :=
  [.lock 0 10, .run 0, .run 0, .lock 1 11, .run 1, .run 1, .unlock 0, .run 0, .run 0, .run 0, .trylock 2 12, .run 2,
    .run 2, .run 1, .run 1, .run 1, .run 0, .run 0, .reuse 10 (some 11) true, .run 1]

theorem halfLinked_in_order : ∃ s : State ℕ ℕ, halfLinked.foldlM step (start ℕ (fun _ => none) fun _ => false) = some s ∧
    (s.exchanged = [0, 1] ∧ s.acquired = [0, 1]) ∧ Correct s := by
  have ran : (halfLinked.foldlM step (start ℕ (fun _ => none) fun _ => false)).map
      (fun s => (s.exchanged, s.acquired)) = some ([0, 1], [0, 1]) := by
    decide
  obtain ⟨s, final, logs⟩ := Option.map_eq_some_iff.mp ran
  exact ⟨s, final, Prod.ext_iff.mp logs, mutual_exclusion_in_order (Reachable.start.run final)⟩

/-- No hand-over is lost: while a thread waits, another one has the lock, or a thread whose flag was cleared gets it when
it looks at the flag. -/
theorem no_handover_lost {next : Node → Option Node} {blocked : Node → Bool}
    (reached : Reachable step (start Thread next blocked) s) (waits : (s.pc t).waiting = true) :
    (∃ u, (s.pc u).holding = true) ∨
      ∃ u n s', s.pc u = .lockSpin n ∧ step s (.run u) = some s' ∧ s'.pc u = .holds n := by
  obtain ⟨q, inv⟩ := inv_of_reachable reached
  obtain ⟨n, queued⟩ : ∃ n, (s.pc t).queued = some n := by
    cases place : s.pc t <;> rw [place] at waits <;> first | exact ⟨_, rfl⟩ | cases waits
  cases q with
  | nil => cases (inv.queued t n).mpr queued
  | cons e rest =>
    have front := inv.front e rfl
    cases place : s.pc e.1 <;> rw [place] at front
    case lockSpin me =>
      have clear : s.blocked me = false := front
      refine .inr ⟨e.1, me, s.acquire e.1 me, place, ?_, move_pc_self _ _ _⟩
      simp [step, McsLock.run, place, clear]
    all_goals first | exact front.elim | exact .inl ⟨e.1, by rw [place]; rfl⟩

/-- The first thread clears the flag of the second and returns. -/
def handedOver : List (Act ℕ ℕ) :=
  [.lock 0 10, .run 0, .run 0, .lock 1 11, .run 1, .run 1, .run 1, .run 1, .unlock 0, .run 0, .run 0]

theorem handedOver_not_lost : ∃ s : State ℕ ℕ, handedOver.foldlM step (start ℕ (fun _ => none) fun _ => false) = some s ∧
    ((∃ u, (s.pc u).holding = true) ∨
      ∃ u n s', s.pc u = .lockSpin n ∧ step s (.run u) = some s' ∧ s'.pc u = .holds n) := by
  have ran : (handedOver.foldlM step (start ℕ (fun _ => none) fun _ => false)).map
      (fun s => (s.pc 1).waiting) = some true := by
    decide
  obtain ⟨s, final, waits⟩ := Option.map_eq_some_iff.mp ran
  exact ⟨s, final, no_handover_lost (Reachable.start.run final) waits⟩

end HpcToolkit.Locks.McsLock
