import HpcToolkit.Ompt.Notifications

/-! # Where notifications are, and who serves a region

A notification is with the thread that registers it, in a queue, with a thread that passes it on, or resolved. A region
that has ended is served by one thread, or by one notification on the way to its thread, until it is freed.
-/

open Function List

namespace HpcToolkit.Ompt.Notify

variable {Thread Region : Type}

inductive Place (Thread Region : Type) where
  | fresh (t : Thread)
  | queue (q : Queue Thread Region)
  | hand (t : Thread)
  | done

/-- What takes the next step for a region. -/
inductive Token (Thread Region : Type) where
  | thread (t : Thread)
  | note (n : Note Thread Region)
  | freed

/-- The notification that a thread is about to register. -/
def Pc.fresh : Pc Thread Region → Option (Note Thread Region)
  | .setPending n (.region _) | .exchange n (.region _) => some n
  | _ => none

/-- The notification that a thread has taken out of a queue. -/
def Pc.hand : Pc Thread Region → Option (Note Thread Region)
  | .setPending n (.threads _) | .exchange n (.threads _) | .clear n | .resolve n => some n
  | _ => none

/-- The region from which the thread takes the next notification, or has taken one. -/
def Pc.serves : Pc Thread Region → Option Region
  | .load r | .getNext r _ | .setHead r _ _ => some r
  | .setPending n (.threads _) | .exchange n (.threads _) | .clear n | .resolve n => some n.region
  | _ => none

/-- The notification is on the way to its thread. -/
def Place.Travels : Place Thread Region → Prop
  | .queue (.threads _) | .queue (.privateThreads _) => True
  | _ => False

def Travelling (place : Note Thread Region → Option (Place Thread Region)) (n : Note Thread Region) : Prop :=
  ∃ p, place n = some p ∧ p.Travels

def Queue.Fits (n : Note Thread Region) : Queue Thread Region → Prop
  | .region r => n.region = r
  | .threads t | .privateThreads t => n.thread = t

def At (threads : Thread → Pc Thread Region) (content : Queue Thread Region → List (Note Thread Region))
    (delivered : List (Thread × Note Thread Region)) (n : Note Thread Region) : Place Thread Region → Prop
  | .fresh t => (threads t).fresh = some n
  | .queue q => n ∈ content q
  | .hand t => (threads t).hand = some n
  | .done => n ∈ delivered.map Prod.snd

def Holds (threads : Thread → Pc Thread Region) (place : Note Thread Region → Option (Place Thread Region))
    (freed : List Region) (r : Region) : Token Thread Region → Prop
  | .thread t => (threads t).serves = some r
  | .note n => n.region = r ∧ Travelling place n
  | .freed => r ∈ freed

/-- Each notification that was made is in one place. -/
structure Places (threads : Thread → Pc Thread Region) (content : Queue Thread Region → List (Note Thread Region))
    (delivered : List (Thread × Note Thread Region)) (made registered : List (Note Thread Region))
    (place : Note Thread Region → Option (Place Thread Region)) : Prop where
  located : ∀ n p, At threads content delivered n p ↔ place n = some p
  made : ∀ n, n ∈ made ↔ place n ≠ none
  registered : ∀ n, n ∈ registered ↔ place n ≠ none ∧ ∀ t, place n ≠ some (.fresh t)
  fits : ∀ q n, n ∈ content q → q.Fits n
  own : ∀ t n, (t, n) ∈ delivered → n.thread = t
  once : (delivered.map Prod.snd).Nodup

/-- Each region that has ended is with one thread or notification, or was freed when its queue was empty. -/
structure Tokens (threads : Thread → Pc Thread Region) (place : Note Thread Region → Option (Place Thread Region))
    (ended freed : List Region) (token : Region → Option (Token Thread Region)) : Prop where
  held : ∀ r k, Holds threads place freed r k ↔ token r = some k
  ended : ∀ r, r ∈ ended ↔ token r ≠ none
  once : freed.Nodup

variable {threads : Thread → Pc Thread Region} {content : Queue Thread Region → List (Note Thread Region)}
  {delivered : List (Thread × Note Thread Region)} {made registered : List (Note Thread Region)}
  {place : Note Thread Region → Option (Place Thread Region)} {ended freed : List Region}
  {token : Region → Option (Token Thread Region)} {t u : Thread} {n m : Note Thread Region} {r : Region}
  {q : Queue Thread Region} {pc : Pc Thread Region}

lemma Pc.serves_of_hand (hand : pc.hand = some n) : pc.serves = some n.region := by
  cases pc with
  | setPending new q | exchange new q =>
    cases q with
    | threads u => exact congrArg (Option.map Note.region) hand
    | _ => cases hand
  | clear first | resolve first => exact congrArg (Option.map Note.region) hand
  | _ => cases hand

lemma Places.apart (places : Places threads content delivered made registered place) (q q' : Queue Thread Region)
    (n : Note Thread Region) (first : n ∈ content q) (second : n ∈ content q') : q = q' := by
  have same := ((places.located n (.queue q)).mp first).symm.trans ((places.located n (.queue q')).mp second)
  injection same with same
  injection same

section
variable [DecidableEq Thread]

lemma update_same {α : Type} (f : Pc Thread Region → α) (same : f pc = f (threads t)) (u : Thread) :
    f (update threads t pc u) = f (threads u) := by
  rcases eq_or_ne u t with rfl | other
  · rw [update_self, same]
  · rw [update_of_ne other]

lemma Places.keep (places : Places threads content delivered made registered place)
    (fresh : pc.fresh = (threads t).fresh) (hand : pc.hand = (threads t).hand) :
    Places (update threads t pc) content delivered made registered place := by
  refine ⟨?_, places.made, places.registered, places.fits, places.own, places.once⟩
  intro n p
  rw [← places.located]
  cases p with
  | fresh u => rw [At, At, update_same Pc.fresh fresh]
  | hand u => rw [At, At, update_same Pc.hand hand]
  | queue q => rfl
  | done => rfl

variable {delivered' : List (Thread × Note Thread Region)}
variable {content' : Queue Thread Region → List (Note Thread Region)}

variable [DecidableEq Region]

section
variable (places : Places threads content delivered made registered place)
include places

omit [DecidableEq Thread] [DecidableEq Region] in
lemma located_stay {p r : Place Thread Region}
    (left : place n ≠ some r) (off : p ≠ r) (m : Note Thread Region) :
    At threads content delivered m r ↔ m = n ∧ p = r ∨ m ≠ n ∧ At threads content delivered m r := by
  rw [or_iff_right fun here => off here.2, iff_and_self]
  rintro here rfl
  exact left ((places.located m r).mp here)

lemma located_move (p : Place Thread Region)
    (old : ∀ m, (threads t).fresh = some m ∨ (threads t).hand = some m → m = n)
    (fresh : ∀ m, pc.fresh = some m ↔ m = n ∧ p = .fresh t) (hand : ∀ m, pc.hand = some m ↔ m = n ∧ p = .hand t)
    (others : ∀ u, u ≠ t → (place n ≠ some (.fresh u) ∧ p ≠ .fresh u) ∧ place n ≠ some (.hand u) ∧ p ≠ .hand u)
    (queues : ∀ q m, m ∈ content' q ↔ m = n ∧ p = .queue q ∨ m ≠ n ∧ m ∈ content q)
    (done : ∀ m, m ∈ delivered'.map Prod.snd ↔ m = n ∧ p = .done ∨ m ≠ n ∧ m ∈ delivered.map Prod.snd)
    (m : Note Thread Region) (p' : Place Thread Region) :
    At (update threads t pc) content' delivered' m p' ↔ update place n (some p) m = some p' := by
  have moved : update place n (some p) m = some p' ↔
      m = n ∧ p = p' ∨ m ≠ n ∧ At threads content delivered m p' := by
    rcases eq_or_ne m n with rfl | other
    · simp
    · simp [other, places.located]
  rw [moved]
  cases p' with
  | fresh u =>
    rcases eq_or_ne u t with rfl | other
    · rw [At, At, update_self, fresh, or_iff_left fun away => away.1 (old m (.inl away.2))]
    · rw [At, update_of_ne other]
      exact located_stay places (others u other).1.1 (others u other).1.2 m
  | hand u =>
    rcases eq_or_ne u t with rfl | other
    · rw [At, At, update_self, hand, or_iff_left fun away => away.1 (old m (.inr away.2))]
    · rw [At, update_of_ne other]
      exact located_stay places (others u other).2.1 (others u other).2.2 m
  | queue q => exact queues q m
  | done => exact done m

lemma made_move {p p' : Place Thread Region}
    (inside : place n = some p) (m : Note Thread Region) : m ∈ made ↔ update place n (some p') m ≠ none := by
  rw [places.made]
  rcases eq_or_ne m n with rfl | other
  · rw [update_self, inside]
    exact iff_of_true nofun nofun
  · rw [update_of_ne other]

lemma registered_move {p p' : Place Thread Region}
    (inside : place n = some p) (known : ∀ t, p ≠ .fresh t) (stays : ∀ t, p' ≠ .fresh t) (m : Note Thread Region) :
    m ∈ registered ↔ update place n (some p') m ≠ none ∧ ∀ t, update place n (some p') m ≠ some (.fresh t) := by
  rw [places.registered]
  rcases eq_or_ne m n with rfl | other
  · rw [update_self, inside]
    exact iff_of_true ⟨nofun, fun t same => known t (Option.some.inj same)⟩
      ⟨nofun, fun t same => stays t (Option.some.inj same)⟩
  · rw [update_of_ne other]

lemma Places.make (new : n ∉ made)
    (away : (threads t).fresh = none ∧ (threads t).hand = none) (fresh : pc.fresh = some n) (hand : pc.hand = none) :
    Places (update threads t pc) content delivered (n :: made) registered
      (update place n (some (.fresh t))) := by
  have nowhere : place n = none := by
    by_contra somewhere
    exact new ((places.made n).mpr somewhere)
  refine ⟨?_, ?_, ?_, places.fits, places.own, places.once⟩
  · apply located_move places
    · simp [away]
    · simpa [fresh] using fun _ => eq_comm
    · simp [hand]
    · intro u other
      simp [nowhere, other.symm]
    · intro q
      exact located_stay places (r := .queue q) (by simp [nowhere]) nofun
    · exact located_stay places (r := .done) (by simp [nowhere]) nofun
  · intro m
    rcases eq_or_ne m n with rfl | other
    · rw [update_self]
      exact iff_of_true mem_cons_self (nomatch ·)
    · rw [update_of_ne other, mem_cons, or_iff_right other]
      exact places.made m
  · intro m
    rcases eq_or_ne m n with rfl | other
    · rw [places.registered, update_self, nowhere]
      exact iff_of_false (fun known => known.1 rfl) fun known => known.2 t rfl
    · rw [update_of_ne other]
      exact places.registered m

lemma Places.push
    {registered' : List (Note Thread Region)} (had : (threads t).fresh = some n ∨ (threads t).hand = some n)
    (only : (threads t).fresh = none ∨ (threads t).hand = none)
    (after : pc.fresh = none ∧ pc.hand = none) (fits : q.Fits n) (known : ∀ m, m ∈ registered' ↔ m = n ∨ m ∈ registered) :
    Places (update threads t pc) (update content q (n :: content q)) delivered made registered'
      (update place n (some (.queue q))) := by
  have before : place n = some (.fresh t) ∨ place n = some (.hand t) :=
    had.imp (places.located n (.fresh t)).mp (places.located n (.hand t)).mp
  have apart : ∀ p, p ≠ .fresh t → p ≠ .hand t → place n ≠ some p := by
    intro p notFresh notHand
    rcases before with before | before
    · simpa [before] using notFresh.symm
    · simpa [before] using notHand.symm
  refine ⟨?_, ?_, ?_, ?_, places.own, places.once⟩
  · apply located_move places
    · rcases had with had | had
      · simp [had, only.resolve_left (by simp [had])]
      · simp [had, only.resolve_right (by simp [had])]
    · simp [after]
    · simp [after]
    · intro u other
      exact ⟨⟨apart _ (by simpa using other) nofun, nofun⟩, apart _ nofun (by simpa using other), nofun⟩
    · intro q' m
      rcases eq_or_ne q' q with rfl | different
      · rw [update_self, mem_cons]
        by_cases same : m = n <;> simp [same]
      · rw [update_of_ne different]
        exact located_stay places (r := .queue q') (apart _ nofun nofun) (by simpa using different.symm) m
    · exact located_stay places (r := .done) (apart _ nofun nofun) nofun
  · obtain before | before := before <;> exact made_move places before
  · intro m
    rw [known]
    rcases eq_or_ne m n with rfl | other
    · rw [update_self]
      exact iff_of_true (.inl rfl) ⟨nofun, nofun⟩
    · rw [update_of_ne other, or_iff_right other]
      exact places.registered m
  · intro q' m listed
    rcases eq_or_ne q' q with rfl | different
    · rw [update_self] at listed
      rcases mem_cons.mp listed with rfl | listed
      · exact fits
      · exact places.fits _ m listed
    · rw [update_of_ne different] at listed
      exact places.fits q' m listed

lemma Places.pop
    {rest : List (Note Thread Region)} (front : content q = n :: rest) (off : n ∉ rest)
    (before : (threads t).fresh = none ∧ (threads t).hand = none) (fresh : pc.fresh = none) (hand : pc.hand = some n) :
    Places (update threads t pc) (update content q rest) delivered made registered
      (update place n (some (.hand t))) := by
  have inside : place n = some (.queue q) := (places.located n (.queue q)).mp (by rw [At, front]; exact mem_cons_self)
  refine ⟨?_, made_move places inside, registered_move places inside nofun nofun, ?_, places.own, places.once⟩
  · apply located_move places
    · simp [before]
    · simp [fresh]
    · simpa [hand] using fun _ => eq_comm
    · intro u other
      simp [inside, other.symm]
    · intro q' m
      rcases eq_or_ne q' q with rfl | different
      · rw [update_self, front, mem_cons]
        by_cases same : m = n <;> simp [same, off]
      · rw [update_of_ne different]
        have left : place n ≠ some (.queue q') := by simpa [inside] using different.symm
        exact located_stay places (p := .hand t) left nofun m
    · exact located_stay places (r := .done) (by simp [inside]) nofun
  · intro q' m listed
    rcases eq_or_ne q' q with rfl | different
    · rw [update_self] at listed
      exact places.fits q' m (by rw [front]; exact mem_cons_of_mem _ listed)
    · rw [update_of_ne different] at listed
      exact places.fits q' m listed

lemma Places.resolve
    (had : (threads t).hand = some n) (before : (threads t).fresh = none) (after : pc.fresh = none ∧ pc.hand = none)
    (own : n.thread = t) :
    Places (update threads t pc) content ((t, n) :: delivered) made registered
      (update place n (some .done)) := by
  have inside : place n = some (.hand t) := (places.located n (.hand t)).mp had
  have unlisted : n ∉ delivered.map Prod.snd := by
    intro listed
    cases inside.symm.trans ((places.located n .done).mp listed)
  refine ⟨?_, made_move places inside, registered_move places inside nofun nofun, places.fits, ?_, ?_⟩
  · apply located_move places
    · simp [before, had]
    · simp [after]
    · simp [after]
    · intro u other
      simp [inside, other.symm]
    · intro q
      exact located_stay places (r := .queue q) (by simp [inside]) nofun
    · intro m
      rw [map_cons, mem_cons]
      by_cases same : m = n <;> simp [same]
  · intro u m listed
    rcases mem_cons.mp listed with same | listed
    · cases same
      exact own
    · exact places.own u m listed
  · exact nodup_cons.mpr ⟨unlisted, places.once⟩

end

/-- Where a notification is when all of one queue has been moved to another one. -/
def Place.moved (shared own : Queue Thread Region) : Place Thread Region → Place Thread Region
  | .queue q => .queue (if q = shared then own else q)
  | p => p

variable {o : Option (Place Thread Region)}

lemma moved_eq_queue {shared own q : Queue Thread Region} :
    o.map (Place.moved shared own) = some (.queue q) ↔ ∃ q', o = some (.queue q') ∧ (if q' = shared then own else q') = q := by
  rcases o with - | p
  · simp
  · cases p <;> simp [Place.moved]

variable {p : Place Thread Region} {shared own : Queue Thread Region}

lemma moved_eq_other (other : ∀ q, p ≠ .queue q) : o.map (Place.moved shared own) = some p ↔ o = some p := by
  rcases o with - | p'
  · simp
  · cases p' with
    | queue q =>
      refine iff_of_false (fun same => ?_) fun same => other q (Option.some.inj same).symm
      exact other _ (Option.some.inj same).symm
    | _ => rfl

lemma Places.refill (places : Places threads content delivered made registered place)
    (different : own ≠ shared) (empty : content own = []) (fits : ∀ m, shared.Fits m → own.Fits m) :
    Places threads (update (update content own (content shared)) shared []) delivered made registered
      fun m => (place m).map (Place.moved shared own) := by
  have inOwn : update (update content own (content shared)) shared [] own = content shared := by
    rw [update_of_ne different, update_self]
  refine ⟨?_, ?_, ?_, ?_, places.own, places.once⟩
  · intro m p
    cases p with
    | queue q =>
      rw [moved_eq_queue]
      constructor
      · intro listed
        rcases eq_or_ne q shared with rfl | notShared
        · rw [At, update_self] at listed
          cases listed
        rcases eq_or_ne q own with rfl | notOwn
        · rw [At, inOwn] at listed
          exact ⟨shared, (places.located m (.queue shared)).mp listed, if_pos rfl⟩
        · rw [At, update_of_ne notShared, update_of_ne notOwn] at listed
          exact ⟨q, (places.located m (.queue q)).mp listed, if_neg notShared⟩
      · rintro ⟨q', here, rfl⟩
        have listed : m ∈ content q' := (places.located m (.queue q')).mpr here
        rcases eq_or_ne q' shared with rfl | notShared
        · rw [if_pos rfl, At, inOwn]
          exact listed
        · have notOwn : q' ≠ own := by
            rintro rfl
            rw [empty] at listed
            cases listed
          rw [if_neg notShared, At, update_of_ne notShared, update_of_ne notOwn]
          exact listed
    | fresh u =>
      refine (places.located m (.fresh u)).trans (moved_eq_other ?_).symm
      intro q same
      cases same
    | hand u =>
      refine (places.located m (.hand u)).trans (moved_eq_other ?_).symm
      intro q same
      cases same
    | done =>
      refine (places.located m .done).trans (moved_eq_other ?_).symm
      intro q same
      cases same
  · intro m
    rw [places.made, ne_eq, ne_eq, Option.map_eq_none_iff]
  · intro m
    rw [places.registered]
    refine and_congr (by rw [ne_eq, ne_eq, Option.map_eq_none_iff]) (forall_congr' fun u => not_congr (moved_eq_other ?_).symm)
    intro q same
    cases same
  · intro q m listed
    rcases eq_or_ne q shared with rfl | notShared
    · rw [update_self] at listed
      cases listed
    rcases eq_or_ne q own with rfl | notOwn
    · rw [inOwn] at listed
      exact fits m (places.fits shared m listed)
    · rw [update_of_ne notShared, update_of_ne notOwn] at listed
      exact places.fits q m listed

/-! ## Regions -/

variable {place' : Note Thread Region → Option (Place Thread Region)}

omit [DecidableEq Region] in
lemma Tokens.keep
    (tokens : Tokens threads place ended freed token) (serves : pc.serves = (threads t).serves)
    (travels : ∀ n, Travelling place' n ↔ Travelling place n) :
    Tokens (update threads t pc) place' ended freed token := by
  refine ⟨?_, tokens.ended, tokens.once⟩
  intro r k
  rw [← tokens.held]
  cases k with
  | thread u => rw [Holds, Holds, update_same Pc.serves serves]
  | note n => rw [Holds, Holds, travels]
  | freed => rfl

lemma travelling_update (same : p.Travels ↔ Travelling place n) (m : Note Thread Region) :
    Travelling (update place n (some p)) m ↔ Travelling place m := by
  rcases eq_or_ne m n with rfl | other
  · rw [← same, Travelling, update_self]
    constructor
    · rintro ⟨p', here, travels⟩
      cases here
      exact travels
    · intro travels
      exact ⟨p, rfl, travels⟩
  · rw [Travelling, update_of_ne other, Travelling]

section
variable (tokens : Tokens threads place ended freed token)
include tokens

omit [DecidableEq Thread] in
lemma ended_update {k k' : Token Thread Region}
    (old : token r = some k) (r' : Region) : r' ∈ ended ↔ update token r (some k') r' ≠ none := by
  rw [tokens.ended]
  rcases eq_or_ne r' r with rfl | other
  · rw [update_self, old]
    exact iff_of_true nofun nofun
  · rw [update_of_ne other]

lemma held_move {freed' : List Region} (k : Token Thread Region)
    (old : ∀ r', (threads t).serves = some r' → r' = r) (serves : ∀ r', pc.serves = some r' ↔ r' = r ∧ k = .thread t)
    (others : ∀ u, u ≠ t → token r ≠ some (.thread u) ∧ k ≠ .thread u)
    (notes : ∀ m, Travelling place' m ↔ k = .note m ∨ m.region ≠ r ∧ Travelling place m)
    (fits : ∀ m, k = .note m → m.region = r)
    (free : ∀ r', r' ∈ freed' ↔ r' = r ∧ k = .freed ∨ r' ≠ r ∧ r' ∈ freed) (r' : Region) (k' : Token Thread Region) :
    Holds (update threads t pc) place' freed' r' k' ↔ update token r (some k) r' = some k' := by
  have moved : update token r (some k) r' = some k' ↔ r' = r ∧ k = k' ∨ r' ≠ r ∧ Holds threads place freed r' k' := by
    rcases eq_or_ne r' r with rfl | other
    · simp
    · simp [other, tokens.held]
  rw [moved]
  cases k' with
  | thread u =>
    rcases eq_or_ne u t with rfl | other
    · rw [Holds, Holds, update_self, serves, or_iff_left fun away => away.1 (old r' away.2)]
    · rw [Holds, Holds, update_of_ne other, or_iff_right fun here => (others u other).2 here.2, iff_and_self]
      rintro here rfl
      exact (others u other).1 ((tokens.held _ (.thread u)).mp here)
  | note m =>
    rw [Holds, Holds, notes]
    constructor
    · rintro ⟨rfl, same | here⟩
      · exact .inl ⟨fits m same, same⟩
      · exact .inr ⟨here.1, rfl, here.2⟩
    · rintro (⟨rfl, same⟩ | ⟨other, rfl, here⟩)
      · exact ⟨fits m same, .inl same⟩
      · exact ⟨rfl, .inr ⟨other, here⟩⟩
  | freed => exact free r'

omit [DecidableEq Thread] [DecidableEq Region] in
lemma freed_stay {k : Token Thread Region}
    (left : token r ≠ some .freed) (off : k ≠ .freed) (r' : Region) :
    r' ∈ freed ↔ r' = r ∧ k = .freed ∨ r' ≠ r ∧ r' ∈ freed := by
  rw [or_iff_right fun here => off here.2, iff_and_self]
  rintro here rfl
  exact left ((tokens.held r' .freed).mp here)

omit [DecidableEq Thread] [DecidableEq Region] in
lemma notes_stay {k : Token Thread Region}
    (left : token r ≠ some (.note m)) (off : k ≠ .note m) :
    Travelling place m ↔ k = .note m ∨ m.region ≠ r ∧ Travelling place m := by
  rw [or_iff_right off, iff_and_self]
  rintro here rfl
  exact left ((tokens.held m.region (.note m)).mp ⟨rfl, here⟩)

lemma Tokens.begin (new : r ∉ ended)
    (before : (threads t).serves = none) (after : pc.serves = some r) :
    Tokens (update threads t pc) place (r :: ended) freed (update token r (some (.thread t))) := by
  have nobody : token r = none := by
    by_contra somebody
    exact new ((tokens.ended r).mpr somebody)
  refine ⟨?_, ?_, tokens.once⟩
  · apply held_move tokens
    · simp [before]
    · simpa [after] using fun _ => eq_comm
    · intro u other
      simp [nobody, other.symm]
    · exact fun m => notes_stay tokens (by simp [nobody]) nofun
    · exact nofun
    · exact freed_stay tokens (by simp [nobody]) nofun
  · intro r'
    rcases eq_or_ne r' r with rfl | other
    · rw [update_self]
      exact iff_of_true mem_cons_self nofun
    · rw [update_of_ne other, mem_cons, or_iff_right other]
      exact tokens.ended r'

lemma Tokens.forward
    (before : (threads t).serves = some n.region) (after : pc.serves = none) (travels : p.Travels) :
    Tokens (update threads t pc) (update place n (some p)) ended freed
      (update token n.region (some (.note n))) := by
  have old : token n.region = some (.thread t) := (tokens.held _ (.thread t)).mp before
  refine ⟨?_, ended_update tokens old, tokens.once⟩
  apply held_move tokens
  · simp [before]
  · simp [after]
  · intro u other
    simp [old, other.symm]
  · intro m
    rcases eq_or_ne m n with rfl | different
    · exact iff_of_true ⟨p, update_self _ _ _, travels⟩ (.inl rfl)
    · rw [Travelling, update_of_ne different]
      exact notes_stay tokens (by simp [old]) (by simpa using different.symm)
  · rintro m same
    cases same
    rfl
  · exact freed_stay tokens (by simp [old]) nofun

lemma Tokens.receive
    (travelling : Travelling place n) (before : (threads t).serves = none) (after : pc.serves = some n.region)
    (arrived : ¬ p.Travels) :
    Tokens (update threads t pc) (update place n (some p)) ended freed
      (update token n.region (some (.thread t))) := by
  have old : token n.region = some (.note n) := (tokens.held _ (.note n)).mp ⟨rfl, travelling⟩
  refine ⟨?_, ended_update tokens old, tokens.once⟩
  apply held_move tokens
  · simp [before]
  · simpa [after] using fun _ => eq_comm
  · intro u other
    simp [old, other.symm]
  · intro m
    rcases eq_or_ne m n with rfl | different
    · refine iff_of_false ?_ (by simp)
      rintro ⟨p', here, travels⟩
      rw [update_self] at here
      cases here
      exact arrived travels
    · rw [Travelling, update_of_ne different]
      exact notes_stay tokens (by simpa [old] using different.symm) nofun
  · exact nofun
  · exact freed_stay tokens (by simp [old]) nofun

lemma Tokens.free (before : (threads t).serves = some r)
    (after : pc.serves = none) :
    Tokens (update threads t pc) place ended (r :: freed) (update token r (some .freed)) := by
  have old : token r = some (.thread t) := (tokens.held _ (.thread t)).mp before
  refine ⟨?_, ended_update tokens old, ?_⟩
  · apply held_move tokens
    · simp [before]
    · simp [after]
    · intro u other
      simp [old, other.symm]
    · exact fun m => notes_stay tokens (by simp [old]) nofun
    · exact nofun
    · intro r'
      rw [mem_cons]
      by_cases same : r' = r <;> simp [same]
  · refine nodup_cons.mpr ⟨fun listed => ?_, tokens.once⟩
    cases old.symm.trans ((tokens.held r .freed).mp listed)

end

end

end HpcToolkit.Ompt.Notify
