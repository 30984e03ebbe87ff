import HpcToolkit.Lib.Reachable

/-! # Combining values with compare-and-exchange

`atomic_op` loads the stored number and tries to exchange it until it succeeds, or until the loaded number tells that
there is nothing to do. Calls of several threads interleave, but each takes effect at one moment, so that a run ends
as if the calls had been made one after another in some order.
-/

open List hiding getElem?_eq_some_iff

namespace HpcToolkit.Prof

open Lib

inductive Combination where
  | sum
  | min
  | max

variable {V : Type} [AddCommMonoid V] [LinearOrder V]

namespace Combination

/-- The condition in front of the exchange; zero stands for a number that is not set. -/
def replaces (op : Combination) (v old : V) : Bool :=
  match op with
  | .sum => true
  | .min => v < old ∨ old = 0
  | .max => v > old ∨ old = 0

/-- The number that is stored. -/
def stored (op : Combination) (v old : V) : V :=
  match op with
  | .sum => old + v
  | .min => v
  | .max => v

/-- A call without others in between. -/
def combine (op : Combination) (old v : V) : V := if op.replaces v old then op.stored v old else old

end Combination

/-- A call of `atomic_op`: before the first load, with the number that it has loaded, and after its return. -/
inductive Call (V : Type) where
  | fresh (v : V)
  | loaded (v old : V)
  | done

variable (op : Combination)

/-- The next step of a call. A weak exchange can fail spuriously. -/
def callStep (number : V) (call : Call V) (spurious : Bool) : V × Call V :=
  match call with
  | .fresh v => (number, .loaded v number)
  | .loaded v old =>
    if op.replaces v old then
      if number = old ∧ ¬ spurious then (op.stored v old, .done) else (number, .loaded v number)
    else (number, .done)
  | .done => (number, .done)

structure AtomicState (V : Type) where
  number : V
  calls : List (Call V)

/-- One of the calls goes on. -/
structure Step where
  call : ℕ
  spurious : Bool

def advance (s : AtomicState V) (act : Step) : Option (AtomicState V) :=
  match s.calls[act.call]? with
  | some call =>
    let (number, call) := callStep op s.number call act.spurious
    some { number := number, calls := s.calls.set act.call call }
  | none => none

def start (values : List V) : AtomicState V := { number := 0, calls := values.map .fresh }

/-- Calls with these values, on a number that is not set, can end with this number. -/
def Combines (values : List V) (result : V) : Prop :=
  ∃ s, Reachable (advance op) (start values) s ∧ (∀ call ∈ s.calls, call = .done) ∧ s.number = result

section Linearization

variable {op} {s s' : AtomicState V} {values : List V}

/-- The value of a call that has not taken effect. -/
def Call.pending (op : Combination) : Call V → Option V
  | .fresh v => some v
  | .loaded v old => if op.replaces v old then some v else none
  | .done => none

lemma combine_of_not_replaces {v old : V} (keeps : ¬ op.replaces v old) : op.combine old v = old := if_neg keeps

lemma pending_loaded (number v : V) : ((Call.loaded v number).pending op = some v) ∨
    ((Call.loaded v number).pending op = none ∧ op.combine number v = number) := by
  rw [Call.pending]
  split
  · exact .inl rfl
  · rename_i keeps
    exact .inr ⟨rfl, combine_of_not_replaces keeps⟩

lemma callStep_spec (number : V) (call : Call V) (spurious : Bool) :
    ((callStep op number call spurious).1 = number ∧
      (callStep op number call spurious).2.pending op = call.pending op) ∨
    ∃ v, call.pending op = some v ∧ (callStep op number call spurious).2.pending op = none ∧
      (callStep op number call spurious).1 = op.combine number v := by
  cases call with
  | fresh v =>
    rcases pending_loaded number v with waits | ⟨settled, unchanged⟩
    · exact .inl ⟨rfl, waits⟩
    · exact .inr ⟨v, rfl, settled, unchanged.symm⟩
  | loaded v old =>
    rw [callStep]
    by_cases replaces : op.replaces v old
    · have waiting : (Call.loaded v old).pending op = some v := if_pos replaces
      rw [if_pos replaces]
      split
      · rename_i exchanged
        refine .inr ⟨v, waiting, rfl, ?_⟩
        rw [exchanged.1, Combination.combine, if_pos replaces]
      · rcases pending_loaded number v with waits | ⟨settled, unchanged⟩
        · exact .inl ⟨rfl, waits.trans waiting.symm⟩
        · exact .inr ⟨v, waiting, settled, unchanged.symm⟩
    · rw [if_neg replaces]
      exact .inl ⟨rfl, (if_neg replaces).symm⟩
  | done => exact .inl ⟨rfl, rfl⟩

/-- The calls that have taken effect, in some order, lead to the number, and the others are pending. -/
def Linearized (op : Combination) (values : List V) (s : AtomicState V) : Prop :=
  ∃ order, s.number = order.foldl op.combine 0 ∧ (order ++ s.calls.filterMap (Call.pending op)).Perm values

variable {act : Step}

lemma advance_eq_some : advance op s act = some s' ↔ ∃ call, s.calls[act.call]? = some call ∧
    { number := (callStep op s.number call act.spurious).1,
      calls := s.calls.set act.call (callStep op s.number call act.spurious).2 } = s' := by
  rw [advance]
  cases s.calls[act.call]? with
  | none => exact iff_of_false nofun fun ⟨_, nothing, _⟩ => nomatch nothing
  | some call =>
    rw [Option.some_inj]
    exact ⟨fun same => ⟨call, rfl, same⟩, fun ⟨_, found, same⟩ => Option.some.inj found ▸ same⟩

lemma Linearized.advance (linearized : Linearized op values s)
    (stepped : Prof.advance op s act = some s') : Linearized op values s' := by
  obtain ⟨order, number, perm⟩ := linearized
  obtain ⟨call, here, rfl⟩ := advance_eq_some.mp stepped
  obtain ⟨inside, same⟩ := List.getElem?_eq_some_iff.mp here
  have before : s.calls = s.calls.take act.call ++ call :: s.calls.drop (act.call + 1) := by simp [← same]
  have after : s.calls.set act.call (callStep op s.number call act.spurious).2 = s.calls.take act.call ++
      (callStep op s.number call act.spurious).2 :: s.calls.drop (act.call + 1) :=
    set_eq_take_append_cons_drop.trans (if_pos inside)
  rw [before, filterMap_append] at perm
  rw [Linearized, after, filterMap_append]
  rcases callStep_spec s.number call act.spurious with ⟨unchanged, waits⟩ | ⟨v, waits, settled, effect⟩
  · refine ⟨order, unchanged.trans number, ?_⟩
    rw [filterMap_cons, waits, ← filterMap_cons]
    exact perm
  · refine ⟨order ++ [v], ?_, ?_⟩
    · rw [foldl_append, ← number]
      exact effect
    · rw [filterMap_cons_none settled]
      rw [filterMap_cons_some waits] at perm
      rw [append_assoc, singleton_append]
      exact (List.Perm.append_left order perm_middle.symm).trans perm

lemma Combines.linear {result : V} (combines : Combines op values result) :
    ∃ order : List V, order.Perm values ∧ result = order.foldl op.combine 0 := by
  obtain ⟨s, reached, finished, rfl⟩ := combines
  have linearized : Linearized op values s := by
    refine reached.invariant ⟨[], rfl, ?_⟩ fun _ _ _ holds stepped => holds.advance stepped
    have pending : (values.map Call.fresh).filterMap (Call.pending op) = values := by
      rw [filterMap_map]
      exact filterMap_some
    rw [nil_append, start, pending]
  obtain ⟨order, number, perm⟩ := linearized
  have nothing : s.calls.filterMap (Call.pending op) = [] := by
    rw [filterMap_eq_nil_iff]
    intro call member
    rw [finished call member]
    rfl
  rw [nothing, append_nil] at perm
  exact ⟨order, perm, number⟩

lemma reachable_call {initial : AtomicState V} {number : V} {finished rest : List (Call V)} {v : V}
    (reached : Reachable (advance op) initial { number := number, calls := finished ++ Call.fresh v :: rest }) :
    Reachable (advance op) initial { number := op.combine number v, calls := finished ++ Call.done :: rest } := by
  have loaded : Reachable (advance op) initial
      { number := number, calls := finished ++ Call.loaded v number :: rest } := by
    have stepped : advance op { number := number, calls := finished ++ Call.fresh v :: rest }
        ⟨finished.length, false⟩ =
        some { number := number, calls := finished ++ Call.loaded v number :: rest } :=
      advance_eq_some.mpr ⟨.fresh v, by simp, by simp [callStep]⟩
    exact reached.step stepped
  have stepped : advance op { number := number, calls := finished ++ Call.loaded v number :: rest }
      ⟨finished.length, false⟩ =
      some { number := op.combine number v, calls := finished ++ Call.done :: rest } := by
    refine advance_eq_some.mpr ⟨.loaded v number, by simp, ?_⟩
    rw [callStep, Combination.combine]
    split <;> simp
  exact loaded.step stepped

lemma combines_foldl (op : Combination) (values : List V) : Combines op values (values.foldl op.combine 0) := by
  have later : ∀ (rest : List V) (number : V) (finished : List (Call V)), (∀ call ∈ finished, call = .done) →
      Reachable (advance op) (start values) { number := number, calls := finished ++ rest.map Call.fresh } →
      ∃ calls, (∀ call ∈ calls, call = .done) ∧
        Reachable (advance op) (start values) { number := rest.foldl op.combine number, calls := calls } := by
    intro rest
    induction rest with
    | nil =>
      intro number finished done reached
      rw [map_nil, append_nil] at reached
      exact ⟨finished, done, reached⟩
    | cons v rest ih =>
      intro number finished done reached
      apply ih (op.combine number v) (finished ++ [Call.done])
      · intro call member
        rcases mem_append.mp member with early | last
        · exact done call early
        · exact mem_singleton.mp last
      · rw [append_assoc]
        exact reachable_call reached
  obtain ⟨calls, done, reached⟩ := later values 0 [] (fun _ member => absurd member not_mem_nil) .start
  exact ⟨_, reached, done, rfl⟩

end Linearization

end HpcToolkit.Prof

/-! # The order of combinations

The threads of a process combine their values in its accumulators, and the raw values of an accumulator are combined
again in those of another process. A minimum or a maximum takes a stored zero for nothing, so that what it ends with
can depend on the order when zero is a value itself. The numbers of a partial are combined each by itself; these are
the values of one of them.
-/

namespace HpcToolkit.Prof

variable {V : Type} [AddCommMonoid V] [LinearOrder V]

/-- Who combines a value: a thread of the process or another process, with everything that it has combined. -/
inductive Contributor (V : Type) where
  | thread (v : V)
  | process (contributors : List (Contributor V))

namespace Contributor

/-- The values of all threads. -/
def values : Contributor V → List V
  | .thread v => [v]
  | .process contributors => allValues contributors
where
  allValues : List (Contributor V) → List V
    | [] => []
    | c :: rest => c.values ++ allValues rest

section
omit [AddCommMonoid V] [LinearOrder V]

lemma allValues_eq (contributors : List (Contributor V)) :
    values.allValues contributors = contributors.flatMap values := by
  induction contributors with
  | nil => rfl
  | cons c rest ih => rw [values.allValues, ih, flatMap_cons]

lemma inductionOn {P : Contributor V → Prop} (thread : ∀ v, P (.thread v))
    (process : ∀ contributors, (∀ c ∈ contributors, P c) → P (.process contributors)) (c : Contributor V) : P c := by
  refine @Contributor.rec V P (fun contributors => ∀ c ∈ contributors, P c) thread process ?_ ?_ c
  · exact fun c absent => absurd absent not_mem_nil
  · intro first rest ihFirst ihRest c member
    rcases mem_cons.mp member with rfl | member
    · exact ihFirst
    · exact ihRest c member

end

end Contributor

/-- The values that a contributor adds. Raw values of zero can be left out, and a process without values has no others. -/
inductive Adds (op : Combination) : Contributor V → List V → Prop where
  | thread (v : V) : Adds op (.thread v) [v]
  | process {contributors : List (Contributor V)} {added : List (List V)} {result : V}
      (each : Forall₂ (Adds op) contributors added) (values : added.flatten ≠ [])
      (combines : Combines op added.flatten result) : Adds op (.process contributors) [result]
  | zero {contributors : List (Contributor V)} {added : List (List V)}
      (each : Forall₂ (Adds op) contributors added) (combines : Combines op added.flatten 0) :
      Adds op (.process contributors) []

/-- What a process can end with after these contributors. -/
def Yields (op : Combination) (contributors : List (Contributor V)) (result : V) : Prop :=
  ∃ added, Forall₂ (Adds op) contributors added ∧ Combines op added.flatten result

/-- The sum, the least or the greatest of the values. -/
def IsTotal (op : Combination) (values : List V) (result : V) : Prop :=
  match op with
  | .sum => result = values.sum
  | .min => values ≠ [] → IsLeast {v | v ∈ values} result
  | .max => values ≠ [] → IsGreatest {v | v ∈ values} result

/-- Zero is not the least value among others, or not the greatest. -/
def ZeroDistinct (op : Combination) (values : List V) : Prop :=
  match op with
  | .sum => True
  | .min => 0 ∈ values → (∃ v ∈ values, v < 0) ∨ ∀ v ∈ values, v = 0
  | .max => 0 ∈ values → (∃ v ∈ values, 0 < v) ∨ ∀ v ∈ values, v = 0

/-! ## Extremes -/

section Extreme

variable (r : V → V → Prop) [DecidableRel r]

/-- The combination of a minimum, and with the opposite order that of a maximum. -/
def extreme (old v : V) : V := if r v old ∨ old = 0 then v else old

variable {r} {old v m : V} {order : List V}

lemma foldl_extreme_mem (order : List V) (old : V) :
    order.foldl (extreme r) old = old ∨ order.foldl (extreme r) old ∈ order := by
  induction order generalizing old with
  | nil => exact .inl rfl
  | cons v order ih =>
    rw [foldl_cons]
    rcases ih (extreme r old v) with same | inside
    · rw [same, extreme]
      split
      · exact .inr mem_cons_self
      · exact .inl rfl
    · exact .inr (mem_cons_of_mem v inside)

lemma foldl_extreme_zero_mem (some_value : order ≠ []) : order.foldl (extreme r) 0 ∈ order := by
  cases order with
  | nil => exact absurd rfl some_value
  | cons v order =>
    rw [foldl_cons, extreme, if_pos (.inr rfl)]
    rcases foldl_extreme_mem (r := r) order v with same | inside
    · rw [same]
      exact mem_cons_self
    · exact mem_cons_of_mem v inside

lemma foldl_extreme_zeros {zeros : List V} (all : ∀ v ∈ zeros, v = 0) : zeros.foldl (extreme r) 0 = 0 := by
  rcases foldl_extreme_mem (r := r) zeros 0 with same | inside
  · exact same
  · exact all _ inside

variable [IsStrictTotalOrder V r]

lemma foldl_extreme_below (set : old ≠ 0) (below : ¬ r m old) (distinct : r m 0 ∨ 0 ∉ order) :
    ¬ r m (order.foldl (extreme r) old) := by
  induction order generalizing old with
  | nil => exact below
  | cons v order ih =>
    have distinct' : r m 0 ∨ 0 ∉ order := distinct.imp id fun absent inside => absent (mem_cons_of_mem v inside)
    rw [foldl_cons, extreme]
    by_cases replaces : r v old
    · have below' : ¬ r m v := fun above => below (trans_of r above replaces)
      rw [if_pos (.inl replaces)]
      refine ih ?_ below' distinct'
      rintro rfl
      rcases distinct with negative | absent
      · exact below' negative
      · exact absent mem_cons_self
    · rw [if_neg (not_or.mpr ⟨replaces, set⟩)]
      exact ih set below distinct'

lemma foldl_extreme_le (member : m ∈ order) (distinct : r m 0 ∨ 0 ∉ order) :
    ¬ r m (order.foldl (extreme r) old) := by
  induction order generalizing old with
  | nil => exact absurd member not_mem_nil
  | cons v order ih =>
    have distinct' : r m 0 ∨ 0 ∉ order := distinct.imp id fun absent inside => absent (mem_cons_of_mem v inside)
    rw [foldl_cons]
    rcases mem_cons.mp member with rfl | later
    · have m_set : m ≠ 0 := by
        rintro rfl
        rcases distinct with negative | absent
        · exact irrefl _ negative
        · exact absent mem_cons_self
      rw [extreme]
      split
      · exact foldl_extreme_below m_set (irrefl m) distinct'
      · rename_i keeps
        rw [not_or] at keeps
        exact foldl_extreme_below keeps.2 keeps.1 distinct'
    · exact ih later distinct'

omit [AddCommMonoid V] [LinearOrder V] [DecidableRel r] in
lemma not_above_trans {a b c : V} (first : ¬ r a b) (second : ¬ r b c) : ¬ r a c := by
  intro above
  rcases trichotomous_of r a b with less | rfl | greater
  · exact first less
  · exact second above
  · exact second (trans_of r greater above)

omit [LinearOrder V] [DecidableRel r] in
lemma below_zero_of_not_above {a b : V} (below : ¬ r a b) (negative : r a 0) : r b 0 := by
  rcases trichotomous_of r a b with less | rfl | greater
  · exact absurd less below
  · exact negative
  · exact trans_of r greater negative

variable (r) in
omit [LinearOrder V] [DecidableRel r] [IsStrictTotalOrder V r] in
/-- The values that stand for others: some of them, and one not above each that cannot be taken for nothing. -/
structure Stands (values added : List V) : Prop where
  subset : ∀ v ∈ added, v ∈ values
  reached : ∀ m ∈ values, r m 0 ∨ 0 ∉ values → ∃ v ∈ added, ¬ r m v

variable {contributors : List (Contributor V)}

omit [LinearOrder V] [DecidableRel r] [IsStrictTotalOrder V r] in
lemma Stands.flatten {added : List (List V)}
    (each : Forall₂ (fun (c : Contributor V) added => Stands r c.values added) contributors added) :
    Stands r (contributors.flatMap Contributor.values) added.flatten := by
  induction each with
  | nil => exact ⟨fun _ => id, fun _ absent => absurd absent not_mem_nil⟩
  | @cons c contributors l added first rest ih =>
    rw [flatMap_cons, flatten_cons]
    constructor
    · intro v inside
      rcases mem_append.mp inside with early | late
      · exact mem_append_left _ (first.subset v early)
      · exact mem_append_right _ (ih.subset v late)
    · intro m inside distinct
      rcases mem_append.mp inside with early | late
      · obtain ⟨v, found, below⟩ := first.reached m early
          (distinct.imp id fun absent zero => absent (mem_append_left _ zero))
        exact ⟨v, mem_append_left _ found, below⟩
      · obtain ⟨v, found, below⟩ := ih.reached m late
          (distinct.imp id fun absent zero => absent (mem_append_right _ zero))
        exact ⟨v, mem_append_right _ found, below⟩

variable {result : V}

lemma Stands.combines {op : Combination} (combine : op.combine = extreme r) {values added : List V}
    (stands : Stands r values added) (combines : Combines op added result) :
    (added ≠ [] → result ∈ values) ∧ (∀ m ∈ values, r m 0 ∨ 0 ∉ values → ¬ r m result ∧ added ≠ []) ∧
      (added = [] → result = 0) := by
  obtain ⟨order, perm, rfl⟩ := combines.linear
  rw [combine]
  refine ⟨fun some_value => ?_, fun m inside distinct => ?_, fun nothing => ?_⟩
  · have some_order : order ≠ [] := fun nothing => some_value (nothing ▸ perm).nil_eq.symm
    exact stands.subset _ (perm.mem_iff.mp (foldl_extreme_zero_mem some_order))
  · obtain ⟨v, found, below⟩ := stands.reached m inside distinct
    refine ⟨?_, ne_nil_of_mem found⟩
    apply not_above_trans below
    apply foldl_extreme_le (perm.mem_iff.mpr found)
    rcases distinct with negative | absent
    · exact .inl (below_zero_of_not_above below negative)
    · exact .inr fun zero => absent (stands.subset 0 (perm.mem_iff.mp zero))
  · rw [nothing] at perm
    rw [perm.eq_nil]
    rfl

lemma stands_of_adds {op : Combination} (combine : op.combine = extreme r) (c : Contributor V) :
    ∀ added, Adds op c added → Stands r c.values added := by
  induction c using Contributor.inductionOn with
  | thread v =>
    rintro added ⟨⟩
    exact ⟨fun _ => id, fun m inside _ => ⟨m, inside, irrefl m⟩⟩
  | process contributors ih =>
    have parts : ∀ added, Forall₂ (Adds op) contributors added →
        Stands r (Contributor.process contributors).values added.flatten := by
      intro added each
      rw [Contributor.values, Contributor.allValues_eq]
      refine Stands.flatten ?_
      have inside := (forall₂_and_left (p := (· ∈ contributors)) contributors added).mpr ⟨fun _ => id, each⟩
      exact inside.imp fun c added ⟨member, adds⟩ => ih c member added adds
    intro added adds
    cases adds with
    | process each some_value combines =>
      obtain ⟨inside, below, -⟩ := (parts _ each).combines combine combines
      refine ⟨fun v member => ?_, fun m member distinct => ⟨_, mem_singleton_self _, (below m member distinct).1⟩⟩
      rw [mem_singleton.mp member]
      exact inside some_value
    | zero each combines =>
      obtain ⟨inside, below, -⟩ := (parts _ each).combines combine combines
      refine ⟨fun v absent => absurd absent not_mem_nil, fun m member distinct => ?_⟩
      obtain ⟨notAbove, some_value⟩ := below m member distinct
      rcases distinct with negative | absent
      · exact absurd negative notAbove
      · exact absurd (inside some_value) absent

lemma extreme_of_yields {op : Combination} (combine : op.combine = extreme r)
    {values : List V} (perm : (contributors.flatMap Contributor.values).Perm values)
    (distinct : 0 ∈ values → (∃ v ∈ values, r v 0) ∨ ∀ v ∈ values, v = 0) (some_value : values ≠ [])
    (yields : Yields op contributors result) : result ∈ values ∧ ∀ m ∈ values, ¬ r m result := by
  obtain ⟨added, each, combines⟩ := yields
  have stands : Stands r values added.flatten := by
    have parts := Stands.flatten (each.imp fun c added adds => stands_of_adds combine c added adds)
    refine ⟨fun v inside => perm.mem_iff.mp (parts.subset v inside), fun m inside distinct => ?_⟩
    exact parts.reached m (perm.mem_iff.mpr inside) (distinct.imp id fun absent zero => absent (perm.mem_iff.mp zero))
  obtain ⟨inside, below, unset⟩ := stands.combines combine combines
  by_cases zero : 0 ∈ values
  · rcases distinct zero with ⟨n, member, negative⟩ | zeros
    · obtain ⟨notAbove, some_added⟩ := below n member (.inl negative)
      refine ⟨inside some_added, fun m other above => ?_⟩
      rcases trichotomous_of r n m with less | rfl | greater
      · exact notAbove (trans_of r less above)
      · exact notAbove above
      · exact (below m other (.inl (trans_of r greater negative))).1 above
    · have result_zero : result = 0 := by
        by_cases nothing : added.flatten = []
        · exact unset nothing
        · exact zeros _ (inside nothing)
      refine ⟨result_zero ▸ zero, fun m member => ?_⟩
      rw [zeros m member, result_zero]
      exact irrefl 0
  · obtain ⟨m, member⟩ := exists_mem_of_ne_nil values some_value
    exact ⟨inside (below m member (.inr zero)).2, fun m member => (below m member (.inr zero)).1⟩

omit [IsStrictTotalOrder V r] in
lemma foldl_extreme_ne_zero {values : List V} (other : ∃ v ∈ values, v ≠ 0) :
    (values.filter (· = 0) ++ values.filter (· ≠ 0)).foldl (extreme r) 0 ∈ values.filter (· ≠ 0) := by
  rw [foldl_append, foldl_extreme_zeros fun v inside => of_decide_eq_true (mem_filter.mp inside).2]
  apply foldl_extreme_zero_mem
  obtain ⟨v, member, nonzero⟩ := other
  exact ne_nil_of_mem (mem_filter.mpr ⟨member, decide_eq_true nonzero⟩)

end Extreme

/-! ## Sums -/

lemma sum_of_combines {values : List V} {result : V} (combines : Combines .sum values result) : result = values.sum := by
  obtain ⟨order, perm, rfl⟩ := combines.linear
  have combine : (Combination.sum.combine : V → V → V) = fun old v => old + v := rfl
  rw [combine, ← perm.sum_eq, sum_eq_foldl]

omit [LinearOrder V] in
lemma sum_flatten {contributors : List (Contributor V)} {added : List (List V)}
    (each : Forall₂ (fun (c : Contributor V) added => added.sum = c.values.sum) contributors added) :
    added.flatten.sum = (contributors.flatMap Contributor.values).sum := by
  induction each with
  | nil => rfl
  | cons first rest ih => rw [flatten_cons, flatMap_cons, sum_append, sum_append, first, ih]

lemma sum_of_adds (c : Contributor V) : ∀ added, Adds .sum c added → added.sum = c.values.sum := by
  induction c using Contributor.inductionOn with
  | thread v =>
    rintro added ⟨⟩
    rfl
  | process contributors ih =>
    have parts : ∀ added, Forall₂ (Adds .sum) contributors added →
        added.flatten.sum = (Contributor.process contributors).values.sum := by
      intro added each
      rw [Contributor.values, Contributor.allValues_eq]
      refine sum_flatten ?_
      have inside := (forall₂_and_left (p := (· ∈ contributors)) contributors added).mpr ⟨fun _ => id, each⟩
      exact inside.imp fun c added ⟨member, adds⟩ => ih c member added adds
    intro added adds
    cases adds with
    | process each some_value combines =>
      rw [sum_singleton, sum_of_combines combines]
      exact parts _ each
    | zero each combines =>
      rw [← parts _ each, ← sum_of_combines combines, sum_nil]

/-! ## All combinations -/

lemma yields_threads (op : Combination) (values : List V) :
    Yields op (values.map Contributor.thread) (values.foldl op.combine 0) := by
  refine ⟨values.map fun v => [v], ?_, ?_⟩
  · exact forall₂_map_left_iff.mpr (forall₂_map_right_iff.mpr (forall₂_same.mpr fun v _ => .thread v))
  · have flatten : (values.map fun v => [v]).flatten = values := by simp [← flatMap_def]
    rw [flatten]
    exact combines_foldl op values

omit [AddCommMonoid V] [LinearOrder V] in
lemma flatMap_threads (values : List V) : (values.map Contributor.thread).flatMap Contributor.values = values := by
  rw [flatMap_map]
  exact flatMap_singleton' values

lemma combine_min : (Combination.min.combine : V → V → V) = extreme (· < ·) := by
  funext old v
  simp [Combination.combine, Combination.replaces, Combination.stored, extreme]

lemma combine_max : (Combination.max.combine : V → V → V) = extreme (· > ·) := by
  funext old v
  simp [Combination.combine, Combination.replaces, Combination.stored, extreme]

/-- The values with the zeros in front. -/
def zerosFirst (values : List V) : List V := values.filter (· = 0) ++ values.filter (· ≠ 0)

lemma zerosFirst_perm (values : List V) : (zerosFirst values).Perm values := by
  have perm := filter_append_perm (fun v : V => decide (v = 0)) values
  simpa [zerosFirst] using perm

lemma distinct_of_extreme {r : V → V → Prop} [DecidableRel r] [IsStrictTotalOrder V r] {op : Combination}
    (combine : op.combine = extreme r) {values : List V} (zero : 0 ∈ values)
    (total : ∀ result, Yields op ((zerosFirst values).map Contributor.thread) result →
      result ∈ values ∧ ∀ m ∈ values, ¬ r m result) : (∃ v ∈ values, r v 0) ∨ ∀ v ∈ values, v = 0 := by
  by_cases other : ∃ v ∈ values, v ≠ 0
  · obtain ⟨inside, notAbove⟩ := total _ (yields_threads op (zerosFirst values))
    have left : (zerosFirst values).foldl op.combine 0 ∈ values.filter (· ≠ 0) := by
      rw [combine]
      exact foldl_extreme_ne_zero other
    have nonzero := of_decide_eq_true (mem_filter.mp left).2
    rcases trichotomous_of r ((zerosFirst values).foldl op.combine 0) 0 with below | same | above
    · exact .inl ⟨_, inside, below⟩
    · exact absurd same nonzero
    · exact absurd above (notAbove 0 zero)
  · push Not at other
    exact .inr other

end HpcToolkit.Prof
