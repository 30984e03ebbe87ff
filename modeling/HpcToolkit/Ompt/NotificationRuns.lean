import HpcToolkit.Ompt.NotificationSteps

/-! # Runs of the notifications

If every registration puts its notification into the queue before the region ends, each notification is delivered once
and each region is freed once. A registration that is late can be lost.
-/

open Function List

namespace HpcToolkit.Ompt.Notify

open Lib

variable {Thread Region : Type} [DecidableEq Thread] [DecidableEq Region] {s s' : State Thread Region}
  {content : Queue Thread Region → List (Note Thread Region)}
  {place : Note Thread Region → Option (Place Thread Region)} {token : Region → Option (Token Thread Region)}
  {t : Thread} {n : Note Thread Region} {q : Queue Thread Region}

/-- The queues, places and servants of the regions that there are in a state. -/
def Good (s : State Thread Region) : Prop := ∃ content place token, Inv s content place token

lemma Inv.run (inv : Inv s content place token) (orderly : Orderly s (.run t)) (ran : Notify.run s t = some s') :
    Good s' := by
  unfold Notify.run at ran
  cases here : s.threads t with
  | away => simp only [here, reduceCtorEq] at ran
  | setPending new q =>
    simp only [here, Option.some.injEq] at ran
    subst ran
    have valid := inv.valid t
    rw [here] at valid
    refine ⟨_, _, _, inv.setNext ?_ .invalid (.exchange new q) (by rw [here]; rintro _ _ _ ⟨⟩) nofun
      (by rw [here]; cases q <;> rfl) (by rw [here]; cases q <;> rfl) (by rw [here]; cases q <;> rfl)
      ⟨valid, update_self _ _ _⟩⟩
    rw [here]
    rcases valid with rfl | rfl
    · exact .inl rfl
    · exact .inr rfl
  | exchange new q =>
    have valid := inv.valid t
    rw [here] at valid
    cases q with
    | region r =>
      simp only [here, Option.some.injEq] at ran
      subst ran
      exact ⟨_, _, _, inv.enter here (orderly r (by rw [here]; rfl))⟩
    | threads u =>
      simp only [here, Option.some.injEq] at ran
      subst ran
      exact ⟨_, _, _, inv.forward here⟩
    | privateThreads u => rcases valid.1 with same | same <;> cases same
  | link new q oldHead =>
    simp only [here] at ran
    cases q <;> cases ran <;> obtain ⟨chains, places, tokens, empty, valid⟩ := inv.link here <;>
      exact ⟨_, _, _, chains, places, tokens, empty, valid⟩
  | load r =>
    cases head : s.head (.region r) with
    | none =>
      simp only [here, head, Option.some.injEq] at ran
      subst ran
      exact ⟨_, _, _, inv.free here head⟩
    | some first =>
      simp only [here, head, Option.some.injEq] at ran
      subst ran
      rw [inv.chains.head] at head
      exact ⟨_, _, _, inv.goOn (by rw [here]; rintro _ _ _ ⟨⟩) nofun (by rw [here]; rfl) (by rw [here]; rfl)
        (by rw [here]; rfl) head⟩
  | getNext r first =>
    cases link : s.next first with
    | invalid =>
      simp only [here, link, Option.some.injEq] at ran
      subst ran
      exact ⟨_, _, _, inv⟩
    | pointer succ =>
      simp only [here, link, Option.some.injEq] at ran
      subst ran
      have valid := inv.valid t
      rw [here] at valid
      obtain ⟨rest, front⟩ := head?_eq_some_iff.mp valid
      exact ⟨_, _, _, inv.goOn (by rw [here]; rintro _ _ _ ⟨⟩) nofun (by rw [here]; rfl) (by rw [here]; rfl)
        (by rw [here]; rfl) ⟨⟨rest, front, inv.succ_eq front link⟩, link⟩⟩
  | setHead r first succ =>
    simp only [here, Option.some.injEq] at ran
    subst ran
    obtain ⟨content, place, inv⟩ := inv.remove here
    exact ⟨content, place, token, inv⟩
  | clear first =>
    simp only [here, Option.some.injEq] at ran
    subst ran
    exact ⟨_, _, _, inv.setNext (n := first) (.inr (by rw [here]; rfl)) _ _ (by rw [here]; rintro _ _ _ ⟨⟩) nofun
      (by rw [here]; rfl) (by rw [here]; rfl) (by rw [here]; rfl) (.inr rfl)⟩
  | removeFirst first =>
    cases link : s.next first with
    | invalid =>
      simp only [here, link, Option.some.injEq] at ran
      subst ran
      exact ⟨_, _, _, inv⟩
    | pointer succ =>
      simp only [here, link, Option.some.injEq] at ran
      subst ran
      exact inv.take here link
  | resolve first =>
    simp only [here, Option.some.injEq] at ran
    subst ran
    exact ⟨_, _, _, inv.resolve here⟩

lemma Good.step {act : Act Thread Region} (good : Good s) (orderly : Orderly s act)
    (stepped : Notify.step s act = some s') : Good s' := by
  obtain ⟨content, place, token, inv⟩ := good
  cases act with
  | register t new =>
    rw [Notify.step] at stepped
    split at stepped
    · rename_i allowed
      obtain ⟨away, -, fresh⟩ := allowed
      cases stepped
      exact ⟨_, _, _, inv.register away fresh⟩
    · cases stepped
  | parallelEnd t r =>
    rw [Notify.step] at stepped
    split at stepped
    · rename_i allowed
      cases stepped
      exact ⟨_, _, _, inv.parallelEnd allowed.1 allowed.2⟩
    · cases stepped
  | tryResolve t =>
    rw [Notify.step] at stepped
    split at stepped
    · rename_i away
      obtain ⟨content, place, filled⟩ := inv.refill away
      have still : (s.refill t).threads t = .away := by
        rw [State.refill]
        split
        · exact away
        · exact away
      split at stepped
      · cases stepped
        exact ⟨_, _, _, filled⟩
      · rename_i first head
        cases stepped
        rw [filled.chains.head] at head
        exact ⟨_, _, _, filled.goOn (by rw [still]; rintro _ _ _ ⟨⟩) (by rintro _ _ _ ⟨⟩) (by rw [still]; rfl)
          (by rw [still]; rfl) (by rw [still]; rfl) head⟩
    · cases stepped
  | run t => exact inv.run orderly stepped

omit [DecidableEq Thread] [DecidableEq Region] in
lemma good_start (next : Note Thread Region → Link Thread Region) : Good (start next) := by
  refine ⟨fun _ => [], fun _ => none, fun _ => none, ⟨fun _ => rfl, fun _ => nodup_nil, ?_, nofun, nofun⟩, ?_, ?_, nofun,
    fun _ => trivial⟩
  · intro q a o follows
    cases follows.mem
  · refine ⟨?_, fun _ => iff_of_false not_mem_nil (fun here => here rfl),
      fun _ => iff_of_false not_mem_nil (fun here => here.1 rfl), nofun, nofun, nodup_nil⟩
    intro n p
    cases p with
    | fresh t | hand t => exact iff_of_false nofun nofun
    | queue q => exact iff_of_false not_mem_nil nofun
    | done => exact iff_of_false not_mem_nil nofun
  · refine ⟨?_, fun _ => iff_of_false not_mem_nil (fun here => here rfl), nodup_nil⟩
    intro r k
    cases k with
    | thread t => exact iff_of_false nofun nofun
    | note n => exact iff_of_false (fun ⟨_, _, here, _⟩ => nomatch here) nofun
    | freed => exact iff_of_false not_mem_nil nofun

/-! ## What the invariant says -/

section
omit [DecidableEq Thread] [DecidableEq Region]

lemma After.next_mem {α : Type} {l : List α} {a b : α} (after : After l a (some b)) : b ∈ l := by
  obtain ⟨before, later, rfl, next⟩ := after
  exact mem_append_right _ (mem_cons_of_mem _ (mem_of_head? next.symm))

lemma Inv.mem_of_listed (inv : Inv s content place token) (listed : Listed s q n) : n ∈ content q := by
  induction listed with
  | head first =>
    rw [inv.chains.head] at first
    exact mem_of_head? first
  | next before link ih =>
    obtain ⟨o, follows⟩ := exists_after ih
    rcases inv.chains.links q _ o follows with known | ⟨unknown, -⟩
    · have same := link.symm.trans known
      injection same with same
      subst same
      exact follows.next_mem
    · cases link.symm.trans unknown

lemma Inv.delivered_of_freed (inv : Inv s content place token) (freed : n.region ∈ s.freed) (known : n ∈ s.registered) :
    (n.thread, n) ∈ s.delivered := by
  have last := (inv.tokens.held n.region .freed).mp freed
  obtain ⟨made, settled⟩ := (inv.places.registered n).mp known
  obtain ⟨p, here⟩ := Option.ne_none_iff_exists'.mp made
  have there := (inv.places.located n p).mpr here
  cases p with
  | fresh t => exact absurd here (settled t)
  | queue q =>
    cases q with
    | region r =>
      obtain rfl : n.region = r := inv.places.fits _ n there
      rw [At, inv.empty _ freed] at there
      cases there
    | threads t | privateThreads t =>
      cases last.symm.trans ((inv.tokens.held n.region (.note n)).mp ⟨rfl, _, here, trivial⟩)
  | hand t =>
    cases last.symm.trans ((inv.tokens.held n.region (.thread t)).mp (Pc.serves_of_hand there))
  | done =>
    obtain ⟨⟨t, m⟩, listed, rfl⟩ := mem_map.mp there
    rw [inv.places.own t m listed]
    exact listed

lemma Inv.freed_of_settled (inv : Inv s content place token) (settled : Settled s) {r : Region} (ended : r ∈ s.ended) :
    r ∈ s.freed := by
  obtain ⟨k, here⟩ := Option.ne_none_iff_exists'.mp ((inv.tokens.ended r).mp ended)
  have holds := (inv.tokens.held r k).mpr here
  cases k with
  | thread t =>
    rw [Holds, (settled t).1] at holds
    cases holds
  | note n =>
    obtain ⟨-, p, inside, travels⟩ := holds
    have listed := (inv.places.located n p).mpr inside
    cases p with
    | queue q =>
      cases q with
      | region r => exact travels.elim
      | threads t =>
        have empty := (settled t).2.1
        rw [inv.chains.head, head?_eq_none_iff] at empty
        rw [At, empty] at listed
        cases listed
      | privateThreads t =>
        have empty := (settled t).2.2
        rw [inv.chains.head, head?_eq_none_iff] at empty
        rw [At, empty] at listed
        cases listed
    | _ => exact travels.elim
  | freed => exact holds

end

omit [DecidableEq Thread] [DecidableEq Region] in
lemma ne_of_moved {pc : Pc Thread Region} (moved : s'.threads t = pc) (other : s.threads t ≠ pc) : s' ≠ s := by
  rintro rfl
  exact other moved

lemma Inv.linker_goesOn (inv : Inv s content place token) (listed : n ∈ content q) (unknown : s.next n = .invalid) :
    ∃ u s', Notify.run s u = some s' ∧ s' ≠ s := by
  obtain ⟨o, follows⟩ := exists_after listed
  rcases inv.chains.links q n o follows with known | ⟨-, u, q', links⟩
  · cases unknown.symm.trans known
  · have moved : ∃ s', Notify.run s u = some s' ∧ s'.threads u = .away := by
      unfold Notify.run
      simp only [links]
      cases q' with
      | region r => exact ⟨_, rfl, update_self _ _ _⟩
      | _ => exact ⟨_, rfl, update_self _ _ _⟩
    obtain ⟨s', ran, away⟩ := moved
    exact ⟨u, s', ran, ne_of_moved away (by rw [links]; rintro ⟨⟩)⟩

lemma Inv.run_goesOn (inv : Inv s content place token) (busy : s.threads t ≠ .away) :
    ∃ u s', Notify.run s u = some s' ∧ s' ≠ s := by
  have valid := inv.valid t
  have moves : ∀ pc s', Notify.run s t = some s' → s'.threads t = pc → s.threads t ≠ pc →
      ∃ u s', Notify.run s u = some s' ∧ s' ≠ s :=
    fun pc s' ran moved other => ⟨t, s', ran, ne_of_moved moved other⟩
  cases here : s.threads t with
  | away => exact absurd here busy
  | setPending new q =>
    apply moves (.exchange new q) _ (by rw [Notify.run, here]) (update_self _ _ _)
    rw [here]
    exact nofun
  | exchange new q =>
    rw [here] at moves
    cases q with
    | region r =>
      exact moves (.link new (.region r) (s.head (.region r))) _ (by rw [Notify.run, here]) (update_self _ _ _) nofun
    | threads u =>
      exact moves (.link new (.threads u) (s.head (.threads u))) _ (by rw [Notify.run, here]) (update_self _ _ _) nofun
    | privateThreads u =>
      exact moves (.link new (.privateThreads u) (s.head (.privateThreads u))) _ (by rw [Notify.run, here])
        (update_self _ _ _) nofun
  | link new q oldHead =>
    rw [here] at moves
    cases q with
    | region r => exact moves .away _ (by rw [Notify.run, here]) (update_self _ _ _) nofun
    | threads u => exact moves .away _ (by rw [Notify.run, here]) (update_self _ _ _) nofun
    | privateThreads u => exact moves .away _ (by rw [Notify.run, here]) (update_self _ _ _) nofun
  | load r =>
    rw [here] at moves
    cases head : s.head (.region r) with
    | none => exact moves .away _ (by simp only [Notify.run, here, head]; rfl) (update_self _ _ _) nofun
    | some first =>
      exact moves (.getNext r first) _ (by simp only [Notify.run, here, head]; rfl) (update_self _ _ _) nofun
  | getNext r first =>
    rw [here] at moves valid
    cases link : s.next first with
    | invalid => exact inv.linker_goesOn (mem_of_head? valid) link
    | pointer succ =>
      exact moves (.setHead r first succ) _ (by simp only [Notify.run, here, link]; rfl) (update_self _ _ _) nofun
  | setHead r first succ =>
    rw [here] at moves
    exact moves (.clear first) _ (by rw [Notify.run, here]) (update_self _ _ _) nofun
  | clear first =>
    rw [here] at moves
    exact moves (.setPending first (.threads first.thread)) _ (by rw [Notify.run, here]) (update_self _ _ _) nofun
  | removeFirst first =>
    rw [here] at moves valid
    cases link : s.next first with
    | invalid => exact inv.linker_goesOn (mem_of_head? valid) link
    | pointer succ =>
      exact moves (.resolve first) _ (by simp only [Notify.run, here, link]; rfl) (update_self _ _ _) nofun
  | resolve first =>
    rw [here] at moves
    exact moves (.load first.region) _ (by rw [Notify.run, here]) (update_self _ _ _) nofun

lemma tryResolve_goesOn (away : s.threads t = .away)
    (got : ¬ (s.head (.threads t) = none ∧ s.head (.privateThreads t) = none)) :
    ∃ s', step s (.tryResolve t) = some s' ∧ s' ≠ s := by
  have some_first : ∃ first, (s.refill t).head (.privateThreads t) = some first := by
    rw [← Option.ne_none_iff_exists', State.refill]
    split
    · rename_i empty
      intro nothing
      simp only [State.setHead, update_of_ne, ne_eq, reduceCtorEq, not_false_eq_true, update_self]
        at nothing
      exact got ⟨nothing, empty⟩
    · assumption
  obtain ⟨first, head⟩ := some_first
  refine ⟨_, by simp only [step, if_pos away, head]; rfl, ?_⟩
  exact ne_of_moved (update_self _ _ _) (by rw [away]; rintro ⟨⟩)

lemma Good.exactlyOnce (good : Good s) : ExactlyOnce s := by
  obtain ⟨content, place, token, inv⟩ := good
  constructor
  · intro q q' n first second
    exact inv.places.apart q q' n (inv.mem_of_listed first) (inv.mem_of_listed second)
  · exact inv.places.once
  · intro t n listed
    refine ⟨inv.places.own t n listed, (inv.places.registered n).mpr ?_⟩
    rw [(inv.places.located n .done).mp (mem_map_of_mem listed)]
    exact ⟨nofun, nofun⟩
  · exact inv.tokens.once
  · intro r freed
    refine ⟨(inv.tokens.ended r).mpr ?_, ?_⟩
    · rw [(inv.tokens.held r .freed).mp freed]
      exact nofun
    · rintro n known rfl
      exact inv.delivered_of_freed freed known
  · intro settled r ended
    exact inv.freed_of_settled settled ended
  · intro unsettled
    by_cases busy : ∃ t, s.threads t ≠ .away
    · obtain ⟨t, busy⟩ := busy
      obtain ⟨u, s', ran, other⟩ := inv.run_goesOn busy
      exact ⟨u, s', .inl ran, other⟩
    · push Not at busy
      rw [Settled, not_forall] at unsettled
      obtain ⟨t, left⟩ := unsettled
      obtain ⟨s', stepped, other⟩ := tryResolve_goesOn (busy t) fun nothing => left ⟨busy t, nothing⟩
      exact ⟨t, s', .inr stepped, other⟩

/-- If all registrations are in time, notifications are delivered once and regions are freed once. -/
theorem orderly_exactly_once {next : Note Thread Region → Link Thread Region} {acts : List (Act Thread Region)}
    (orderly : EveryStep step Orderly (start next) acts) (ran : acts.foldlM step (start next) = some s) :
    ExactlyOnce s := by
  have good : Good s := by
    refine orderly.invariant ?_ (good_start next) ran
    intro s act s' good meets stepped
    exact good.step meets stepped
  exact good.exactlyOnce

/-! ## Two notifications -/

/-- Threads 1 and 2 register with region 0, which thread 0 ends. Thread 2 exchanges the head before that, or after
thread 0 has loaded it. -/
def twoNotes (late : Bool) : List (Act ℕ ℕ) :=
  [Act.register 1 ⟨1, 0, 0⟩, .run 1, .run 1, .run 1, .register 2 ⟨2, 0, 0⟩, .run 2] ++
    (if late then [Act.parallelEnd 0 0, .run 0, .run 2, .run 2] else [Act.run 2, .run 2, .parallelEnd 0 0, .run 0]) ++
    replicate 6 (Act.run 0) ++ (if late then [] else Act.tryResolve 2 :: replicate 9 (Act.run 2)) ++
    Act.tryResolve 1 :: replicate 3 (Act.run 1)

def empty : State ℕ ℕ := start fun _ => .pointer none

theorem inTime_exactly_once : ∃ s, (twoNotes false).foldlM step empty = some s ∧
    (s.delivered = [(1, ⟨1, 0, 0⟩), (2, ⟨2, 0, 0⟩)] ∧ s.freed = [0]) ∧ ExactlyOnce s := by
  have ran : ((twoNotes false).foldlM step empty).map (fun s => (s.delivered, s.freed)) =
      some ([(1, ⟨1, 0, 0⟩), (2, ⟨2, 0, 0⟩)], [0]) := by
    decide
  obtain ⟨s, final, logs⟩ := Option.map_eq_some_iff.mp ran
  have orderly : EveryStep step Orderly empty (twoNotes false) := by decide
  exact ⟨s, final, Prod.ext_iff.mp logs, orderly_exactly_once orderly final⟩

/-- The notification of thread 2 is lost, and the region is freed without it. -/
theorem late_registration_lost : ∃ s, (twoNotes true).foldlM step empty = some s ∧ ¬ ExactlyOnce s := by
  have ran : ((twoNotes true).foldlM step empty).map (fun s => (s.registered, s.delivered, s.freed)) =
      some ([⟨2, 0, 0⟩, ⟨1, 0, 0⟩], [(1, ⟨1, 0, 0⟩)], [0]) := by
    decide
  obtain ⟨s, final, logs⟩ := Option.map_eq_some_iff.mp ran
  simp only [Prod.mk.injEq] at logs
  obtain ⟨registered, delivered, freed⟩ := logs
  refine ⟨s, final, fun once => ?_⟩
  have done := (once.freedLast 0 (by rw [freed]; exact mem_singleton_self 0)).2 ⟨2, 0, 0⟩
    (by rw [registered]; exact mem_cons_self) rfl
  rw [delivered] at done
  exact absurd done (by decide)

end HpcToolkit.Ompt.Notify
