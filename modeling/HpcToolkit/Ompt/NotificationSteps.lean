import HpcToolkit.Ompt.NotificationPlaces

/-! # What the operations on notifications keep

The thread that serves a region is the only one that removes notifications from its queue, and nobody registers with a
region that has ended. A thread alone removes what is in its own queue.
-/

open Function List

namespace HpcToolkit.Ompt.Notify

variable {Thread Region : Type}

/-- What a thread knows about the links and queues that it is about to use. -/
def Pc.Valid (next : Note Thread Region → Link Thread Region)
    (content : Queue Thread Region → List (Note Thread Region)) (t : Thread) : Pc Thread Region → Prop
  | .setPending n q => q = .region n.region ∨ q = .threads n.thread
  | .exchange n q => (q = .region n.region ∨ q = .threads n.thread) ∧ next n = .invalid
  | .getNext r n => (content (.region r)).head? = some n
  | .setHead r n succ => (∃ rest, content (.region r) = n :: rest ∧ succ = rest.head?) ∧ next n = .pointer succ
  | .removeFirst n => (content (.privateThreads t)).head? = some n
  | .resolve n => n.thread = t
  | _ => True

/-- The notification whose link the thread relies on. -/
def Pc.reads : Pc Thread Region → Option (Note Thread Region)
  | .exchange n _ | .setHead _ n _ => some n
  | _ => none

/-- The queue whose first notification the thread relies on. -/
def Pc.watches (t : Thread) : Pc Thread Region → Option (Queue Thread Region)
  | .getNext r _ | .setHead r _ _ => some (.region r)
  | .removeFirst _ => some (.privateThreads t)
  | _ => none

structure Inv (s : State Thread Region) (content : Queue Thread Region → List (Note Thread Region))
    (place : Note Thread Region → Option (Place Thread Region)) (token : Region → Option (Token Thread Region)) : Prop where
  chains : Chains s.next s.head s.threads content
  places : Places s.threads content s.delivered s.made s.registered place
  tokens : Tokens s.threads place s.ended s.freed token
  empty : ∀ r ∈ s.freed, content (.region r) = []
  valid : ∀ t, (s.threads t).Valid s.next content t

variable {s s' : State Thread Region} {content content' : Queue Thread Region → List (Note Thread Region)}
  {place : Note Thread Region → Option (Place Thread Region)} {token : Region → Option (Token Thread Region)}
  {next next' : Note Thread Region → Link Thread Region} {t u : Thread} {n m : Note Thread Region} {r : Region}
  {q : Queue Thread Region} {pc : Pc Thread Region}

lemma Pc.Valid.congr (valid : pc.Valid next content u) (reads : ∀ m, pc.reads = some m → next' m = next m)
    (watches : ∀ q, pc.watches u = some q → content' q = content q) : pc.Valid next' content' u := by
  cases pc with
  | exchange n q => exact ⟨valid.1, (reads n rfl).trans valid.2⟩
  | getNext r n =>
    have same : content' (.region r) = content (.region r) := watches _ rfl
    rw [Pc.Valid, same]
    exact valid
  | setHead r n succ =>
    have same : content' (.region r) = content (.region r) := watches _ rfl
    rw [Pc.Valid, same]
    exact ⟨valid.1, (reads n rfl).trans valid.2⟩
  | removeFirst n =>
    have same : content' (.privateThreads u) = content (.privateThreads u) := watches _ rfl
    rw [Pc.Valid, same]
    exact valid
  | _ => exact valid

lemma Pc.serves_of_watches (watches : pc.watches u = some q) : pc.hand = none ∧
    (q = .privateThreads u ∨ ∃ r, q = .region r ∧ pc.serves = some r) := by
  cases pc with
  | getNext r n => exact ⟨rfl, .inr ⟨r, (Option.some.inj watches).symm, rfl⟩⟩
  | setHead r n succ => exact ⟨rfl, .inr ⟨r, (Option.some.inj watches).symm, rfl⟩⟩
  | removeFirst n => exact ⟨rfl, .inl (Option.some.inj watches).symm⟩
  | _ => cases watches

section
variable (inv : Inv s content place token)
include inv

/-- A thread relies on the link of a notification that it has in its hand, or of one in a queue that is already linked. -/
lemma Inv.reads_place (reads : (s.threads u).reads = some m) :
    place m = some (.fresh u) ∨ place m = some (.hand u) ∨
      (∃ r, place m = some (.queue (.region r))) ∧ s.next m ≠ .invalid := by
  have valid := inv.valid u
  cases here : s.threads u with
  | exchange n q =>
    rw [here] at reads valid
    obtain rfl := Option.some.inj reads
    rcases valid.1 with rfl | rfl
    · exact .inl ((inv.places.located n (.fresh u)).mp (by rw [At, here]; rfl))
    · exact .inr (.inl ((inv.places.located n (.hand u)).mp (by rw [At, here]; rfl)))
  | setHead r n succ =>
    rw [here] at reads valid
    obtain rfl := Option.some.inj reads
    obtain ⟨⟨rest, front, -⟩, linked⟩ := valid
    refine .inr (.inr ⟨⟨r, (inv.places.located n (.queue _)).mp ?_⟩, by rw [linked]; rintro ⟨⟩⟩)
    rw [At, front]
    exact mem_cons_self
  | _ =>
    rw [here] at reads
    cases reads

lemma Inv.serves_unique (first : (s.threads t).serves = some r)
    (second : (s.threads u).serves = some r) : t = u := by
  have same := ((inv.tokens.held r (.thread t)).mp first).symm.trans ((inv.tokens.held r (.thread u)).mp second)
  injection same with same
  injection same

lemma Inv.ended_of_serves (serves : (s.threads t).serves = some r) : r ∈ s.ended := by
  rw [inv.tokens.ended, (inv.tokens.held r (.thread t)).mp serves]
  exact nofun

lemma Inv.unlisted
    (held : (s.threads t).fresh = some n ∨ (s.threads t).hand = some n) (q : Queue Thread Region) : n ∉ content q := by
  intro listed
  have inside := (inv.places.located n (.queue q)).mp listed
  rcases held with held | held
  · cases inside.symm.trans ((inv.places.located n (.fresh t)).mp held)
  · cases inside.symm.trans ((inv.places.located n (.hand t)).mp held)

end

section
variable [DecidableEq Thread]

lemma Inv.valid_update (inv : Inv s content place token) (self : pc.Valid next' content' t)
    (reads : ∀ u m, u ≠ t → (s.threads u).reads = some m → next' m = s.next m)
    (watches : ∀ u q, u ≠ t → (s.threads u).watches u = some q → content' q = content q) (u : Thread) :
    (update s.threads t pc u).Valid next' content' u := by
  rcases eq_or_ne u t with rfl | other
  · rw [update_self]
    exact self
  · rw [update_of_ne other]
    exact (inv.valid u).congr (fun m => reads u m other) fun q => watches u q other

lemma Inv.goOn (inv : Inv s content place token) (before : (s.threads t).NotLinking) (after : pc.NotLinking)
    (fresh : pc.fresh = (s.threads t).fresh) (hand : pc.hand = (s.threads t).hand)
    (serves : pc.serves = (s.threads t).serves) (valid : pc.Valid s.next content t) :
    Inv (s.move t pc) content place token where
  chains := inv.chains.move before after
  places := inv.places.keep fresh hand
  tokens := inv.tokens.keep serves fun _ => Iff.rfl
  empty := inv.empty
  valid := inv.valid_update valid (fun _ _ _ _ => rfl) fun _ _ _ _ => rfl

variable [DecidableEq Region]

section
variable (inv : Inv s content place token)
include inv

lemma Inv.reads_other
    (held : (s.threads t).fresh = some n ∨ (s.threads t).hand = some n) (link : Link Thread Region) (u : Thread)
    (m : Note Thread Region) (other : u ≠ t) (reads : (s.threads u).reads = some m) :
    update s.next n link m = s.next m := by
  apply update_of_ne
  rintro rfl
  have inside : place m = some (.fresh t) ∨ place m = some (.hand t) :=
    held.imp (inv.places.located m (.fresh t)).mp (inv.places.located m (.hand t)).mp
  rcases inv.reads_place reads with there | there | ⟨⟨r, there⟩, -⟩ <;> rcases inside with inside | inside <;>
    cases inside.symm.trans there
  · exact other rfl
  · exact other rfl

lemma Inv.setNext
    (held : (s.threads t).fresh = some n ∨ (s.threads t).hand = some n) (link : Link Thread Region)
    (pc : Pc Thread Region) (before : (s.threads t).NotLinking) (after : pc.NotLinking) (fresh : pc.fresh = (s.threads t).fresh)
    (hand : pc.hand = (s.threads t).hand) (serves : pc.serves = (s.threads t).serves)
    (valid : pc.Valid (update s.next n link) content t) :
    Inv ((s.setNext n link).move t pc) content place token where
  chains := (inv.chains.setNext (inv.unlisted held) link).move before after
  places := inv.places.keep fresh hand
  tokens := inv.tokens.keep serves fun _ => Iff.rfl
  empty := inv.empty
  valid := inv.valid_update valid (inv.reads_other held link) fun _ _ _ _ => rfl

lemma Inv.register (away : s.threads t = .away) (new : n ∉ s.made) :
    Inv ({ s with made := n :: s.made }.setNext n (.pointer none) |>.move t (.setPending n (.region n.region))) content
      (update place n (some (.fresh t))) token := by
  have nowhere : place n = none := by
    by_contra somewhere
    exact new ((inv.places.made n).mpr somewhere)
  have off : ∀ q, n ∉ content q := by
    intro q listed
    cases nowhere.symm.trans ((inv.places.located n (.queue q)).mp listed)
  refine ⟨?_, ?_, ?_, inv.empty, ?_⟩
  · refine (inv.chains.setNext off _).move ?_ nofun
    rw [away]
    exact nofun
  · exact inv.places.make new (by rw [away]; exact ⟨rfl, rfl⟩) rfl rfl
  · refine inv.tokens.keep (by rw [away]; rfl) fun m => travelling_update ?_ m
    refine iff_of_false id ?_
    rintro ⟨p, here, -⟩
    cases nowhere.symm.trans here
  · refine inv.valid_update (.inl rfl) ?_ fun _ _ _ _ => rfl
    intro u m _ reads
    apply update_of_ne
    rintro rfl
    rcases inv.reads_place reads with there | there | ⟨⟨r, there⟩, -⟩ <;> cases nowhere.symm.trans there

lemma Inv.parallelEnd (away : s.threads t = .away) (new : r ∉ s.ended) :
    Inv ({ s with ended := r :: s.ended }.move t (.load r)) content place
      (update token r (some (.thread t))) where
  chains := inv.chains.move (by rw [away]; rintro _ _ _ ⟨⟩) nofun
  places := inv.places.keep (by rw [away]; rfl) (by rw [away]; rfl)
  tokens := inv.tokens.begin new (by rw [away]; rfl) rfl
  empty := inv.empty
  valid := inv.valid_update trivial (fun _ _ _ _ => rfl) fun _ _ _ _ => rfl

lemma Inv.refill (away : s.threads t = .away) :
    ∃ content place, Inv (s.refill t) content place token := by
  by_cases empty : s.head (.privateThreads t) = none
  · have nothing : content (.privateThreads t) = [] := by
      rw [inv.chains.head, head?_eq_none_iff] at empty
      exact empty
    rw [State.refill, if_pos empty]
    refine ⟨_, _, inv.chains.refill nofun nothing, inv.places.refill nofun nothing fun m fits => fits, ?_, ?_, ?_⟩
    · refine ⟨?_, inv.tokens.ended, inv.tokens.once⟩
      intro r k
      rw [← inv.tokens.held]
      cases k with
      | thread u => rfl
      | freed => rfl
      | note m =>
        refine and_congr_right fun _ => ?_
        constructor
        · rintro ⟨p, here, travels⟩
          cases before : place m with
          | none =>
            simp only [before, Option.map_none, reduceCtorEq] at here
          | some p' =>
            simp only [before, Option.map_some, Option.some.injEq] at here
            subst here
            refine ⟨p', before, ?_⟩
            cases p' with
            | queue q =>
              rcases eq_or_ne q (.threads t) with rfl | other
              · trivial
              · rw [Place.moved, if_neg other] at travels
                exact travels
            | _ => exact travels
        · rintro ⟨p, here, travels⟩
          refine ⟨p.moved (.threads t) (.privateThreads t), by simp only [here, Option.map_some], ?_⟩
          cases p with
          | queue q =>
            rcases eq_or_ne q (.threads t) with rfl | other
            · rw [Place.moved, if_pos rfl]
              trivial
            · rw [Place.moved, if_neg other]
              exact travels
          | _ => exact travels
    · intro r freed
      simp only [update_of_ne, ne_eq, reduceCtorEq, not_false_eq_true]
      exact inv.empty r freed
    · intro u
      refine (inv.valid u).congr (fun _ _ => rfl) ?_
      intro q watches
      rcases (Pc.serves_of_watches watches).2 with rfl | ⟨r, rfl, -⟩
      · have other : u ≠ t := by
          rintro rfl
          rw [away] at watches
          cases watches
        simp only [update_of_ne, ne_eq, reduceCtorEq, not_false_eq_true, Queue.privateThreads.injEq, other]
      · simp only [update_of_ne, ne_eq, reduceCtorEq, not_false_eq_true]
  · rw [State.refill, if_neg empty]
    exact ⟨content, place, inv⟩

lemma Inv.enter (exchanges : s.threads t = .exchange n (.region r))
    (running : r ∉ s.ended) :
    Inv ({ s with registered := n :: s.registered }.setHead (.region r) (some n)
        |>.move t (.link n (.region r) (s.head (.region r))))
      (update content (.region r) (n :: content (.region r)))
      (update place n (some (.queue (.region r)))) token := by
  have fresh : (s.threads t).fresh = some n := by rw [exchanges]; rfl
  have valid := inv.valid t
  rw [exchanges] at valid
  obtain ⟨target, unknown⟩ := valid
  have fits : n.region = r := by
    rcases target with same | same
    · injection same with same
      exact same.symm
    · cases same
  have off := inv.unlisted (.inl fresh)
  refine ⟨?_, ?_, ?_, ?_, ?_⟩
  · exact inv.chains.push off unknown (by rw [exchanges]; rintro _ _ _ ⟨⟩)
  · exact inv.places.push (.inl fresh) (by rw [exchanges]; exact .inr rfl) ⟨rfl, rfl⟩ fits fun m => mem_cons
  · refine inv.tokens.keep (by rw [exchanges]; rfl) fun m => travelling_update ?_ m
    refine iff_of_false id ?_
    rintro ⟨p, here, travels⟩
    have inside := (inv.places.located n (.fresh t)).mp fresh
    obtain rfl := Option.some.inj (inside.symm.trans here)
    exact travels
  · intro r' freed
    have other : r' ≠ r := by
      rintro rfl
      refine running ((inv.tokens.ended r').mpr ?_)
      rw [(inv.tokens.held r' .freed).mp freed]
      exact nofun
    rw [update_of_ne (fun same => other (by injection same))]
    exact inv.empty r' freed
  · refine inv.valid_update trivial (fun _ _ _ _ => rfl) ?_
    intro u q other watches
    apply update_of_ne
    rintro rfl
    rcases (Pc.serves_of_watches watches).2 with same | ⟨r', same, serves⟩
    · cases same
    · injection same with same
      subst same
      exact running (inv.ended_of_serves serves)

lemma Inv.forward (exchanges : s.threads t = .exchange n (.threads u)) :
    Inv (s.setHead (.threads u) (some n) |>.move t (.link n (.threads u) (s.head (.threads u))))
      (update content (.threads u) (n :: content (.threads u)))
      (update place n (some (.queue (.threads u)))) (update token n.region (some (.note n))) := by
  have hand : (s.threads t).hand = some n := by rw [exchanges]; rfl
  have valid := inv.valid t
  rw [exchanges] at valid
  obtain ⟨target, unknown⟩ := valid
  have fits : n.thread = u := by
    rcases target with same | same
    · cases same
    · injection same with same
      exact same.symm
  have off := inv.unlisted (.inr hand)
  have known : n ∈ s.registered := by
    rw [inv.places.registered, (inv.places.located n (.hand t)).mp hand]
    exact ⟨nofun, nofun⟩
  refine ⟨?_, ?_, ?_, ?_, ?_⟩
  · exact inv.chains.push off unknown (by rw [exchanges]; rintro _ _ _ ⟨⟩)
  · exact inv.places.push (.inr hand) (by rw [exchanges]; exact .inl rfl) ⟨rfl, rfl⟩ fits fun m =>
      ⟨.inr, fun here => here.elim (fun same => same ▸ known) id⟩
  · exact inv.tokens.forward (by rw [exchanges]; rfl) rfl trivial
  · intro r freed
    simp only [update_of_ne, ne_eq, reduceCtorEq, not_false_eq_true]
    exact inv.empty r freed
  · refine inv.valid_update trivial (fun _ _ _ _ => rfl) ?_
    intro v q other watches
    apply update_of_ne
    rintro rfl
    rcases (Pc.serves_of_watches watches).2 with same | ⟨r, same, -⟩ <;> cases same

lemma Inv.link {oldHead : Option (Note Thread Region)}
    (links : s.threads t = .link n q oldHead) :
    Inv (s.setNext n (.pointer oldHead) |>.move t .away) content place token := by
  obtain ⟨unknown, q', follows⟩ := inv.chains.linking t n q oldHead links
  refine ⟨inv.chains.link inv.places.apart links, ?_, ?_, inv.empty, ?_⟩
  · exact inv.places.keep (by rw [links]; rfl) (by rw [links]; rfl)
  · exact inv.tokens.keep (by rw [links]; rfl) fun _ => Iff.rfl
  · refine inv.valid_update trivial ?_ fun _ _ _ _ => rfl
    intro u m _ reads
    apply update_of_ne
    rintro rfl
    have inside := (inv.places.located m (.queue q')).mp follows.mem
    rcases inv.reads_place reads with there | there | ⟨-, linked⟩
    · cases inside.symm.trans there
    · cases inside.symm.trans there
    · exact linked unknown

lemma Inv.free (loads : s.threads t = .load r) (empty : s.head (.region r) = none) :
    Inv { s.move t .away with freed := r :: s.freed } content place (update token r (some .freed)) := by
  refine ⟨?_, ?_, ?_, ?_, ?_⟩
  · exact inv.chains.move (by rw [loads]; rintro _ _ _ ⟨⟩) nofun
  · exact inv.places.keep (by rw [loads]; rfl) (by rw [loads]; rfl)
  · exact inv.tokens.free (by rw [loads]; rfl) rfl
  · intro r' freed
    rcases mem_cons.mp freed with rfl | freed
    · rw [inv.chains.head, head?_eq_none_iff] at empty
      exact empty
    · exact inv.empty r' freed
  · exact inv.valid_update trivial (fun _ _ _ _ => rfl) fun _ _ _ _ => rfl

end

variable {succ : Option (Note Thread Region)}

section
variable (inv : Inv s content place token)
include inv

omit [DecidableEq Thread] [DecidableEq Region] in
lemma Inv.succ_eq {rest : List (Note Thread Region)} (front : content q = n :: rest)
    (linked : s.next n = .pointer succ) : succ = rest.head? := by
  rcases inv.chains.links q n rest.head? (by rw [front]; exact after_head n rest) with known | ⟨unknown, -⟩
  · have same := linked.symm.trans known
    injection same
  · cases linked.symm.trans unknown

lemma Inv.remove
    (sets : s.threads t = .setHead r n succ) :
    ∃ content place, Inv (s.setHead (.region r) succ |>.move t (.clear n)) content place token := by
  have valid := inv.valid t
  rw [sets] at valid
  obtain ⟨⟨rest, front, rfl⟩, linked⟩ := valid
  have nodup := inv.chains.nodup (.region r)
  rw [front] at nodup
  have fits : n.region = r := inv.places.fits (.region r) n (by rw [front]; exact mem_cons_self)
  have inside := (inv.places.located n (.queue (.region r))).mp (by rw [At, front]; exact mem_cons_self)
  refine ⟨update content (.region r) rest, update place n (some (.hand t)), ?_, ?_, ?_, ?_, ?_⟩
  · exact (inv.chains.pop front linked).move (by rw [sets]; rintro _ _ _ ⟨⟩) (by rintro _ _ _ ⟨⟩)
  · exact inv.places.pop front (nodup_cons.mp nodup).1 (by rw [sets]; exact ⟨rfl, rfl⟩) rfl rfl
  · refine inv.tokens.keep (by rw [sets]; exact congrArg some fits) fun m => travelling_update ?_ m
    refine iff_of_false id ?_
    rintro ⟨p, here, travels⟩
    obtain rfl := Option.some.inj (inside.symm.trans here)
    exact travels
  · intro r' freed
    have other : r' ≠ r := by
      rintro rfl
      have empty := inv.empty r' freed
      rw [front] at empty
      cases empty
    rw [update_of_ne (fun same => other (by injection same))]
    exact inv.empty r' freed
  · refine inv.valid_update trivial (fun _ _ _ _ => rfl) ?_
    intro u q other watches
    apply update_of_ne
    rintro rfl
    rcases (Pc.serves_of_watches watches).2 with same | ⟨r', same, serves⟩
    · cases same
    · injection same with same
      subst same
      exact other (inv.serves_unique serves (by rw [sets]; rfl))

lemma Inv.take
    (removes : s.threads t = .removeFirst n) (linked : s.next n = .pointer succ) :
    ∃ content place token, Inv (s.setHead (.privateThreads t) succ |>.move t (.resolve n)) content place token := by
  have valid := inv.valid t
  rw [removes] at valid
  obtain ⟨rest, front⟩ : ∃ rest, content (.privateThreads t) = n :: rest := head?_eq_some_iff.mp valid
  obtain rfl := inv.succ_eq front linked
  have nodup := inv.chains.nodup (.privateThreads t)
  rw [front] at nodup
  have inside := (inv.places.located n (.queue (.privateThreads t))).mp (by rw [At, front]; exact mem_cons_self)
  refine ⟨update content (.privateThreads t) rest, update place n (some (.hand t)),
    update token n.region (some (.thread t)), ?_, ?_, ?_, ?_, ?_⟩
  · exact (inv.chains.pop front linked).move (by rw [removes]; rintro _ _ _ ⟨⟩) (by rintro _ _ _ ⟨⟩)
  · exact inv.places.pop front (nodup_cons.mp nodup).1 (by rw [removes]; exact ⟨rfl, rfl⟩) rfl rfl
  · exact inv.tokens.receive ⟨_, inside, trivial⟩ (by rw [removes]; rfl) rfl id
  · intro r freed
    simp only [update_of_ne, ne_eq, reduceCtorEq, not_false_eq_true]
    exact inv.empty r freed
  · refine inv.valid_update ?_ (fun _ _ _ _ => rfl) ?_
    · exact inv.places.fits (.privateThreads t) n (by rw [front]; exact mem_cons_self)
    · intro u q other watches
      apply update_of_ne
      rintro rfl
      rcases (Pc.serves_of_watches watches).2 with same | ⟨r, same, -⟩
      · injection same with same
        exact other same.symm
      · cases same

lemma Inv.resolve (resolves : s.threads t = .resolve n) :
    Inv ({ s with delivered := (t, n) :: s.delivered }.count t (-1) |>.move t (.load n.region)) content
      (update place n (some .done)) token := by
  have valid := inv.valid t
  rw [resolves] at valid
  have hand : (s.threads t).hand = some n := by rw [resolves]; rfl
  have inside := (inv.places.located n (.hand t)).mp hand
  refine ⟨?_, ?_, ?_, inv.empty, ?_⟩
  · exact inv.chains.move (by rw [resolves]; rintro _ _ _ ⟨⟩) nofun
  · exact inv.places.resolve hand (by rw [resolves]; rfl) ⟨rfl, rfl⟩ valid
  · refine inv.tokens.keep (by rw [resolves]; rfl) fun m => travelling_update ?_ m
    refine iff_of_false id ?_
    rintro ⟨p, here, travels⟩
    obtain rfl := Option.some.inj (inside.symm.trans here)
    exact travels
  · exact inv.valid_update trivial (fun _ _ _ _ => rfl) fun _ _ _ _ => rfl

end

end

end HpcToolkit.Ompt.Notify
