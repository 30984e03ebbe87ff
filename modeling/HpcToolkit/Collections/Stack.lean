import HpcToolkit.Lib.Exclusive

/-! # Concurrent stacks

`push` and `pop` retry a compare-exchange of the head. A `pop` reads the successor of the head before that, so its
compare-exchange also succeeds when the entry was popped and pushed again meanwhile, and then installs the old
successor. A step is modelled for each atomic operation; an entry belongs to its owner until it is given to `push`
and again once a `pop` has returned it.
-/

open Option
open Function List

namespace HpcToolkit.Collections.Stack

open Lib

variable {Node : Type}

/-- Where a thread is in `push` or `pop`. -/
inductive Thread (Node : Type) where
  | away
  | pushLoad (entry : Node)
  | pushStore (entry : Node) (oldHead : Option Node)
  | pushSwap (entry : Node) (oldHead : Option Node)
  | popLoad
  | popNext (oldHead : Node)
  | popSwap (oldHead : Node) (newHead : Option Node)
  | popClear (oldHead : Node)
deriving DecidableEq

/-- The memory and the threads, with the entries that are not with their owners, and the entries whose `push` and
`pop` have exchanged the head. -/
structure State (Node : Type) (T : ℕ) where
  head : Option Node
  next : Node → Option Node
  threads : Fin T → Thread Node
  given : Finset Node
  pushed : List Node
  popped : List Node

/-- A call or an atomic operation of a thread. -/
inductive Act (Node : Type) (T : ℕ) where
  | push (t : Fin T) (entry : Node)
  | pop (t : Fin T)
  | run (t : Fin T)

variable {T : ℕ} [DecidableEq Node]

def State.move (s : State Node T) (t : Fin T) (thread : Thread Node) : State Node T :=
  { s with threads := update s.threads t thread }

/-- The loop of `pop` with a new value of `old_head`. -/
def popLoop : Option Node → Thread Node
  | none => .away
  | some oldHead => .popNext oldHead

def step (s : State Node T) : Act Node T → Option (State Node T)
  | .push t entry =>
    if s.threads t = .away ∧ entry ∉ s.given then
      some ({ s with given := insert entry s.given }.move t (.pushLoad entry))
    else none
  | .pop t => if s.threads t = .away then some (s.move t .popLoad) else none
  | .run t =>
    match s.threads t with
    | .away => none
    | .pushLoad entry => some (s.move t (.pushStore entry s.head))
    | .pushStore entry oldHead =>
      some ({ s with next := update s.next entry oldHead }.move t (.pushSwap entry oldHead))
    | .pushSwap entry oldHead =>
      if s.head = oldHead then some ({ s with head := some entry, pushed := entry :: s.pushed }.move t .away)
      else some (s.move t (.pushStore entry s.head))
    | .popLoad => some (s.move t (popLoop s.head))
    | .popNext oldHead => some (s.move t (.popSwap oldHead (s.next oldHead)))
    | .popSwap oldHead newHead =>
      if s.head = some oldHead then
        some ({ s with head := newHead, popped := oldHead :: s.popped }.move t (.popClear oldHead))
      else some (s.move t (popLoop s.head))
    | .popClear oldHead =>
      some ({ s with next := update s.next oldHead none, given := s.given.erase oldHead }.move t .away)

/-- A stack that was just initialized; nothing is known about the entries. -/
def start (next : Node → Option Node) (T : ℕ) : State Node T := ⟨none, next, fun _ => .away, ∅, [], []⟩

/-- The entries from the head on. -/
def Linked (next : Node → Option Node) : Option Node → List Node → Prop
  | head, [] => head = none
  | head, entry :: rest => head = some entry ∧ Linked next (next entry) rest

/-- The stack ends and has no entry twice; an entry is on it once more than it was popped if it was pushed once more,
and otherwise it was popped as often as it was pushed. -/
def Conserved (s : State Node T) : Prop :=
  ∃ l, Linked s.next s.head l ∧ l.Nodup ∧ ∀ e, s.pushed.count e = s.popped.count e + l.count e

/-- The property holds now and after every step of a run. -/
def Always (P : State Node T → Prop) : State Node T → List (Act Node T) → Prop
  | s, [] => P s
  | s, act :: acts => P s ∧ ∀ s', step s act = some s' → Always P s' acts

/-- If the thread is about to pop the head, the successor of the head is still the one that the thread has read. -/
def Calm (s : State Node T) : Act Node T → Prop
  | .run t => ∀ oldHead newHead, s.threads t = .popSwap oldHead newHead → s.head = some oldHead →
      s.next oldHead = newHead
  | _ => True

def CalmRun : State Node T → List (Act Node T) → Prop
  | _, [] => True
  | s, act :: acts => Calm s act ∧ ∀ s', step s act = some s' → CalmRun s' acts

/-! ## Invariant -/

/-- The entry that a thread is to put on the stack or has taken from it. -/
def Thread.holds : Thread Node → Option Node
  | .pushLoad entry => some entry
  | .pushStore entry _ => some entry
  | .pushSwap entry _ => some entry
  | .popClear oldHead => some oldHead
  | _ => none

/-- The entry of a `push` points to the head that was read. -/
def Thread.Stored (next : Node → Option Node) : Thread Node → Prop
  | .pushSwap entry oldHead => next entry = oldHead
  | _ => True

/-- Each entry that was given is on the stack or with one thread. -/
structure Inv (s : State Node T) (l : List Node) : Prop where
  linked : Linked s.next s.head l
  nodup : l.Nodup
  counts : ∀ e, s.pushed.count e = s.popped.count e + l.count e
  given : ∀ e ∈ l, e ∈ s.given
  held : ∀ t e, (s.threads t).holds = some e → e ∈ s.given ∧ e ∉ l
  apart : Exclusive Thread.holds s.threads
  stored : ∀ t, (s.threads t).Stored s.next

variable {s s' : State Node T} {l : List Node} {t : Fin T}

lemma Inv.conserved (inv : Inv s l) : Conserved s := ⟨l, inv.linked, inv.nodup, inv.counts⟩

lemma Inv.start (next : Node → Option Node) : Inv (start next T) [] where
  linked := rfl
  nodup := nodup_nil
  counts _ := rfl
  given _ here := absurd here not_mem_nil
  held _ _ here := by cases here
  apart _ _ _ here := by cases here
  stored _ := trivial

variable {e : Node} {head : Option Node} {successor : Option Node} {next : Node → Option Node}

lemma Linked.update (linked : Linked next head l) (off : e ∉ l) :
    Linked (update next e successor) head l := by
  induction l generalizing head with
  | nil => exact linked
  | cons entry rest ih =>
    obtain ⟨other, outside⟩ := not_or.mp (mt mem_cons.mpr off)
    refine ⟨linked.1, ?_⟩
    rw [update_of_ne (Ne.symm other)]
    exact ih linked.2 outside

variable {l' : List Node}

omit [DecidableEq Node] in
lemma Linked.unique (first : Linked next head l)
    (second : Linked next head l') : l = l' := by
  induction l generalizing head l' with
  | nil =>
    cases l' with
    | nil => rfl
    | cons entry rest => exact absurd (second.1.symm.trans first) (some_ne_none entry)
  | cons entry rest ih =>
    cases l' with
    | nil => exact absurd (first.1.symm.trans second) (some_ne_none entry)
    | cons entry' rest' =>
      obtain rfl := Option.some.inj (first.1.symm.trans second.1)
      rw [ih first.2 second.2]

omit [DecidableEq Node] in
lemma Linked.suffix (linked : Linked next head l)
    (listed : e ∈ l) : ∃ front back, l = front ++ e :: back ∧ Linked next (some e) (e :: back) := by
  induction l generalizing head with
  | nil => exact absurd listed not_mem_nil
  | cons entry rest ih =>
    rcases mem_cons.mp listed with rfl | later
    · exact ⟨[], rest, rfl, rfl, linked.2⟩
    · obtain ⟨front, back, split, end_linked⟩ := ih linked.2 later
      exact ⟨entry :: front, back, by rw [split, cons_append], end_linked⟩

/-! ## Steps -/

lemma Inv.move (inv : Inv s l) {thread : Thread Node}
    (holds : ∀ e, thread.holds = some e → (s.threads t).holds = some e) (stored : thread.Stored s.next) :
    Inv (s.move t thread) l where
  linked := inv.linked
  nodup := inv.nodup
  counts := inv.counts
  given := inv.given
  held := (forall_update_iff s.threads
    fun _ thread => ∀ e, thread.holds = some e → e ∈ s.given ∧ e ∉ l).mpr
      ⟨fun e here => inv.held t e (holds e here), fun u _ => inv.held u⟩
  apart := inv.apart.keep holds
  stored := (forall_update_iff s.threads fun _ thread => thread.Stored s.next).mpr
    ⟨stored, fun u _ => inv.stored u⟩

variable {entry : Node}

lemma Inv.push (inv : Inv s l) (owned : entry ∉ s.given) :
    Inv ({ s with given := insert entry s.given }.move t (.pushLoad entry)) l where
  linked := inv.linked
  nodup := inv.nodup
  counts := inv.counts
  given e here := Finset.mem_insert_of_mem (inv.given e here)
  held := (forall_update_iff s.threads
    fun _ thread => ∀ e, thread.holds = some e → e ∈ insert entry s.given ∧ e ∉ l).mpr
      ⟨fun e here => by
        cases here
        exact ⟨Finset.mem_insert_self _ _, fun listed => owned (inv.given _ listed)⟩,
      fun u _ e here => ⟨Finset.mem_insert_of_mem (inv.held u e here).1, (inv.held u e here).2⟩⟩
  apart := inv.apart.update fun u e _ here there => by
    cases here
    exact owned (inv.held u _ there).1
  stored := (forall_update_iff s.threads fun _ thread => thread.Stored s.next).mpr
    ⟨trivial, fun u _ => inv.stored u⟩

lemma Inv.stored_update (inv : Inv s l)
    (mine : (s.threads t).holds = some entry) {u : Fin T} (other : u ≠ t) :
    (s.threads u).Stored (update s.next entry successor) := by
  have stored := inv.stored u
  cases thread : s.threads u with
  | pushSwap e oldHead =>
    rw [thread] at stored
    have different : e ≠ entry := by
      rintro rfl
      exact other (inv.apart u t e (by rw [thread]; rfl) mine)
    rw [Thread.Stored, update_of_ne different]
    exact stored
  | _ => trivial

variable {oldHead : Option Node}

lemma Inv.pushStore (inv : Inv s l)     (storing : s.threads t = .pushStore entry oldHead) :
    Inv ({ s with next := update s.next entry oldHead }.move t (.pushSwap entry oldHead)) l := by
  have mine : (s.threads t).holds = some entry := by rw [storing]; rfl
  refine ⟨inv.linked.update (inv.held t entry mine).2, inv.nodup, inv.counts, inv.given, ?_, ?_, ?_⟩
  · exact (forall_update_iff s.threads
      fun _ thread => ∀ e, thread.holds = some e → e ∈ s.given ∧ e ∉ l).mpr
        ⟨fun e here => inv.held t e (mine.trans here), fun u _ => inv.held u⟩
  · exact inv.apart.keep fun e here => mine.trans here
  · exact (forall_update_iff s.threads
      fun _ thread => thread.Stored (update s.next entry oldHead)).mpr
        ⟨update_self _ _ _, fun u other => inv.stored_update mine other⟩

lemma Inv.pushSwap (inv : Inv s l)
    (swapping : s.threads t = .pushSwap entry oldHead) (same : s.head = oldHead) :
    Inv ({ s with head := some entry, pushed := entry :: s.pushed }.move t .away) (entry :: l) := by
  have mine : (s.threads t).holds = some entry := by rw [swapping]; rfl
  have stored := inv.stored t
  rw [swapping] at stored
  obtain ⟨given, off⟩ := inv.held t entry mine
  refine ⟨⟨rfl, ?_⟩, nodup_cons.mpr ⟨off, inv.nodup⟩, ?_, ?_, ?_, ?_, ?_⟩
  · have successor : s.next entry = s.head := Eq.trans stored same.symm
    simp only [State.move, successor]
    exact inv.linked
  · intro e
    simp only [State.move, count_cons, inv.counts e]
    omega
  · intro e here
    rcases mem_cons.mp here with rfl | later
    · exact given
    · exact inv.given e later
  · refine (forall_update_iff s.threads
      fun _ thread => ∀ e, thread.holds = some e → e ∈ s.given ∧ e ∉ entry :: l).mpr
        ⟨fun e here => (by cases here), fun u other e here => ⟨(inv.held u e here).1, ?_⟩⟩
    intro listed
    rcases mem_cons.mp listed with rfl | later
    · exact other (inv.apart u t e here mine)
    · exact (inv.held u e here).2 later
  · exact inv.apart.keep fun e here => by cases here
  · exact (forall_update_iff s.threads fun _ thread => thread.Stored s.next).mpr
      ⟨trivial, fun u _ => inv.stored u⟩

lemma Inv.popSwap {oldHead : Node} (inv : Inv s (oldHead :: l)) {newHead : Option Node}
    (calm : s.next oldHead = newHead) :
    Inv ({ s with head := newHead, popped := oldHead :: s.popped }.move t (.popClear oldHead)) l := by
  obtain ⟨off, nodup⟩ := nodup_cons.mp inv.nodup
  refine ⟨?_, nodup, ?_, fun e here => inv.given e (mem_cons_of_mem _ here), ?_, ?_, ?_⟩
  · simp only [State.move, ← calm]
    exact inv.linked.2
  · intro e
    have before := inv.counts e
    simp only [State.move, count_cons] at before ⊢
    omega
  · refine (forall_update_iff s.threads
      fun _ thread => ∀ e, thread.holds = some e → e ∈ s.given ∧ e ∉ l).mpr ⟨fun e here => ?_, fun u _ e here => ?_⟩
    · cases here
      exact ⟨inv.given _ mem_cons_self, off⟩
    · obtain ⟨given, outside⟩ := inv.held u e here
      exact ⟨given, fun listed => outside (mem_cons_of_mem _ listed)⟩
  · refine inv.apart.update fun u e _ here there => ?_
    cases here
    exact (inv.held u _ there).2 mem_cons_self
  · exact (forall_update_iff s.threads fun _ thread => thread.Stored s.next).mpr
      ⟨trivial, fun u _ => inv.stored u⟩

lemma Inv.popClear (inv : Inv s l) {oldHead : Node} (clearing : s.threads t = .popClear oldHead) :
    Inv ({ s with next := update s.next oldHead none, given := s.given.erase oldHead }.move t .away) l := by
  have mine : (s.threads t).holds = some oldHead := by rw [clearing]; rfl
  obtain ⟨_, off⟩ := inv.held t oldHead mine
  refine ⟨inv.linked.update off, inv.nodup, inv.counts, ?_, ?_, ?_, ?_⟩
  · intro e here
    exact Finset.mem_erase.mpr ⟨fun same => off (same ▸ here), inv.given e here⟩
  · refine (forall_update_iff s.threads
      fun _ thread => ∀ e, thread.holds = some e → e ∈ s.given.erase oldHead ∧ e ∉ l).mpr
        ⟨fun e here => (by cases here), fun u other e here => ?_⟩
    obtain ⟨given, outside⟩ := inv.held u e here
    have different : e ≠ oldHead := by
      rintro rfl
      exact other (inv.apart u t e here mine)
    exact ⟨Finset.mem_erase.mpr ⟨different, given⟩, outside⟩
  · exact inv.apart.keep fun e here => by cases here
  · exact (forall_update_iff s.threads
      fun _ thread => thread.Stored (update s.next oldHead none)).mpr
        ⟨trivial, fun u other => inv.stored_update mine other⟩

lemma Inv.popLoop (inv : Inv s l) : Inv (s.move t (popLoop s.head)) l := by
  cases s.head with
  | none => exact inv.move (fun e here => by cases here) trivial
  | some oldHead => exact inv.move (fun e here => by cases here) trivial

lemma Inv.run (inv : Inv s l) (calm : Calm s (.run t)) (stepped : Stack.step s (.run t) = some s') :
    ∃ l', Inv s' l' := by
  cases thread : s.threads t with
  | away => simp only [Stack.step, thread, reduceCtorEq] at stepped
  | pushLoad entry =>
    simp only [Stack.step, thread] at stepped
    cases stepped
    exact ⟨l, inv.move (fun e here => by rw [thread]; exact here) trivial⟩
  | pushStore entry oldHead =>
    simp only [Stack.step, thread] at stepped
    cases stepped
    exact ⟨l, inv.pushStore thread⟩
  | pushSwap entry oldHead =>
    simp only [Stack.step, thread] at stepped
    split_ifs at stepped with same
    · cases stepped
      exact ⟨entry :: l, inv.pushSwap thread same⟩
    · cases stepped
      exact ⟨l, inv.move (fun e here => by rw [thread]; exact here) trivial⟩
  | popLoad =>
    simp only [Stack.step, thread] at stepped
    cases stepped
    exact ⟨l, inv.popLoop⟩
  | popNext oldHead =>
    simp only [Stack.step, thread] at stepped
    cases stepped
    exact ⟨l, inv.move (fun e here => by cases here) trivial⟩
  | popSwap oldHead newHead =>
    simp only [Stack.step, thread] at stepped
    split_ifs at stepped with same
    · cases stepped
      cases l with
      | nil => exact absurd (same.symm.trans inv.linked) (some_ne_none oldHead)
      | cons top rest =>
        obtain rfl := Option.some.inj (same.symm.trans inv.linked.1)
        exact ⟨rest, inv.popSwap (calm oldHead newHead thread same)⟩
    · cases stepped
      exact ⟨l, inv.popLoop⟩
  | popClear oldHead =>
    simp only [Stack.step, thread] at stepped
    cases stepped
    exact ⟨l, inv.popClear thread⟩

variable {act : Act Node T}

lemma Inv.step (inv : Inv s l) (calm : Calm s act) (stepped : Stack.step s act = some s') :
    ∃ l', Inv s' l' := by
  cases act with
  | push t entry =>
    simp only [Stack.step] at stepped
    split_ifs at stepped with allowed
    cases stepped
    exact ⟨l, inv.push allowed.2⟩
  | pop t =>
    simp only [Stack.step] at stepped
    split_ifs at stepped
    cases stepped
    exact ⟨l, inv.move (fun e here => by cases here) trivial⟩
  | run t => exact inv.run calm stepped

/-! ## A successor that has changed -/

lemma Linked.head_eq {head head' : Option Node}
    (first : Linked next head l) (second : Linked next head' l') (counts : ∀ e, l.count e = l'.count e) :
    head = head' := by
  have perm : l.Perm l' := perm_iff_count.mpr counts
  cases l' with
  | nil =>
    obtain rfl := perm.eq_nil
    exact Eq.trans first second.symm
  | cons e back =>
    obtain ⟨front, rest, split, linked⟩ := first.suffix (perm.mem_iff.mpr mem_cons_self)
    have same : e :: rest = e :: back := linked.unique ⟨rfl, second.2⟩
    have lengths := perm.length_eq
    rw [split, length_append, same] at lengths
    have none_before : front = [] := eq_nil_of_length_eq_zero (by omega)
    rw [none_before, nil_append] at split
    subst split
    exact first.1.trans second.1.symm

lemma Inv.not_conserved (inv : Inv s l) (stale : ¬ Calm s act) :
    ∃ s', Stack.step s act = some s' ∧ ¬ Conserved s' := by
  cases act with
  | push t entry => exact absurd trivial stale
  | pop t => exact absurd trivial stale
  | run t =>
    simp only [Calm, not_forall] at stale
    obtain ⟨oldHead, newHead, thread, same, changed⟩ := stale
    refine ⟨_, by simp only [Stack.step, thread, if_pos same]; rfl, ?_⟩
    rintro ⟨l', linked, _, counts⟩
    cases l with
    | nil => exact absurd (same.symm.trans inv.linked) (some_ne_none oldHead)
    | cons top rest =>
      obtain rfl := Option.some.inj (same.symm.trans inv.linked.1)
      refine changed (inv.linked.2.head_eq linked fun e => ?_)
      have before := inv.counts e
      have after := counts e
      simp only [State.move, count_cons] at before after
      omega

/-! ## Runs -/

lemma Inv.always_iff (inv : Inv s l) (acts : List (Act Node T)) : Always Conserved s acts ↔ CalmRun s acts := by
  induction acts generalizing s l with
  | nil => exact ⟨fun _ => trivial, fun _ => inv.conserved⟩
  | cons act acts ih =>
    constructor
    · rintro ⟨_, later⟩
      have calm : Calm s act := by
        by_contra stale
        obtain ⟨s', stepped, lost⟩ := inv.not_conserved stale
        have kept := later s' stepped
        cases acts with
        | nil => exact lost kept
        | cons _ _ => exact lost kept.1
      refine ⟨calm, fun s' stepped => ?_⟩
      obtain ⟨l', inv'⟩ := inv.step calm stepped
      exact (ih inv').mp (later s' stepped)
    · rintro ⟨calm, later⟩
      refine ⟨inv.conserved, fun s' stepped => ?_⟩
      obtain ⟨l', inv'⟩ := inv.step calm stepped
      exact (ih inv').mpr (later s' stepped)

/-- In a run of any threads, no entry is lost, duplicated or popped more often than it was pushed in any state,
exactly if every `pop` that exchanges the head has read the successor that the head has then. -/
theorem stack_conserved_iff (next : Node → Option Node) (acts : List (Act Node T)) :
    Always Conserved (start next T) acts ↔ CalmRun (start next T) acts :=
  (Inv.start next).always_iff acts

/-! ## A popped entry that is pushed again -/

lemma Always.last {P : State Node T → Prop} {acts : List (Act Node T)} (always : Always P s acts)
    (ran : acts.foldlM step s = some s') : P s' := by
  induction acts generalizing s with
  | nil =>
    cases ran
    exact always
  | cons act acts ih =>
    rw [foldlM_cons] at ran
    obtain ⟨next, stepped, ran⟩ := bind_eq_some_iff.mp ran
    exact ih (always.2 next stepped) ran

/-- With entry 0 above entry 1, thread `u` reads the head and its successor; thread `t` pops both entries, pushes
entry 0 again, and, when thread `u` is done, pops once more. -/
def reuse (t u : Fin 2) : List (Act ℕ 2) :=
  [.push t 1, .run t, .run t, .run t, .push t 0, .run t, .run t, .run t, .pop u, .run u, .run u,
    .pop t, .run t, .run t, .run t, .run t, .pop t, .run t, .run t, .run t, .run t, .push t 0, .run t, .run t, .run t,
    .run u, .run u, .pop t, .run t, .run t, .run t, .run t]

/-- Entry 1 was pushed once and is popped twice. -/
theorem reuse_not_conserved :
    ((reuse 0 1).foldlM step (start (fun _ => none) 2)).map (fun s => (s.pushed, s.popped)) =
      some ([0, 0, 1], [1, 0, 1, 0]) ∧
    ¬ Always Conserved (start (fun _ => none) 2) (reuse 0 1) := by
  have ran : ((reuse 0 1).foldlM step (start (fun _ => none) 2)).map (fun s => (s.pushed, s.popped)) =
      some ([0, 0, 1], [1, 0, 1, 0]) := by
    decide
  refine ⟨ran, fun always => ?_⟩
  obtain ⟨s, final, logs⟩ := map_eq_some_iff.mp ran
  obtain ⟨pushed, popped⟩ := Prod.mk.inj logs
  obtain ⟨l, _, _, counts⟩ := always.last final
  have once := counts 1
  rw [pushed, popped] at once
  have more : ([0, 0, 1] : List ℕ).count 1 < ([1, 0, 1, 0] : List ℕ).count 1 := by decide
  omega

end HpcToolkit.Collections.Stack
