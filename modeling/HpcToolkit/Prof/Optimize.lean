import HpcToolkit.Prof.Expression

/-! # The optimization of expressions

`optimize` replaces what it can evaluate by constants, from the leaves up. It gives up on an operation at the first
argument that is not constant, so that the arguments behind it stay as they are. Linked expressions are evaluated but
never changed.
-/

open List

namespace HpcToolkit.Prof

namespace Expression

variable {V : Type} (apply : Kind → List V → V) (f : UInt64 → Option V)

mutual
/-- `Expression::partial_evaluate`, with `apply` for the value of an operation. -/
def partialEvaluate : Expression V → Option V
  | .constant value => some value
  | .subexpression linked => linked.partialEvaluate
  | .var uservalue => f uservalue
  | .op kind args => (partialEvaluateArgs args).map (apply kind)

def partialEvaluateArgs : List (Expression V) → Option (List V)
  | [] => some []
  | arg :: args =>
    match arg.partialEvaluate with
    | none => none
    | some v => (partialEvaluateArgs args).map (v :: ·)
end

/-- The end of `optimize_impl`: an expression with a value becomes this constant. -/
def settle (e : Expression V) : Option V → Expression V × Option V
  | none => (e, none)
  | some value => (.constant value, some value)

mutual
/-- `Expression::optimize_impl`: the expression afterwards, and what is returned. -/
def optimizeImpl : Expression V → Expression V × Option V
  | .constant value => (.constant value, some value)
  | .subexpression linked => settle (.subexpression linked) (linked.partialEvaluate apply f)
  | .var uservalue => settle (.var uservalue) (f uservalue)
  | .op kind args =>
    let (args, values) := optimizeArgs args
    settle (.op kind args) (values.map (apply kind))

/-- The loop over the arguments of an operation. -/
def optimizeArgs : List (Expression V) → List (Expression V) × Option (List V)
  | [] => ([], some [])
  | arg :: args =>
    match optimizeImpl arg with
    | (arg, none) => (arg :: args, none)
    | (arg, some v) =>
      let (args, values) := optimizeArgs args
      (arg :: args, values.map (v :: ·))
end

/-- `Expression::optimize` with values for the variables that `f` knows. -/
def optimize (e : Expression V) : Expression V := (optimizeImpl apply f e).1

/-- `Expression::optimize` without a function. -/
def optimizeConstants (e : Expression V) : Expression V := optimize apply (fun _ => none) e

/-- The value of an expression where the variables have these values. -/
def value (env : UInt64 → V) (e : Expression V) : Option V := e.evaluateWith (fun kind args => some (apply kind args)) env

mutual
/-- The parts of an expression, not those of linked ones. -/
def parts : Expression V → List (Expression V)
  | .op kind args => .op kind args :: partsOf args
  | e => [e]

def partsOf : List (Expression V) → List (Expression V)
  | [] => []
  | arg :: args => arg.parts ++ partsOf args
end

/-- No variable of the expression is unknown, also not of one that it links to. -/
def Known (e : Expression V) : Prop := ∀ u, .var u ∈ e.subterms → (f u).isSome

/-- Every part without unknown variables is a constant. -/
def Folded (e : Expression V) : Prop := ∀ part ∈ e.parts, Known f part → ∃ value, part = .constant value

/-- The shape of an expression after some of its parts without unknown variables have become constants. -/
inductive Reduces : Expression V → Expression V → Prop where
  | same (e : Expression V) : Reduces e e
  | known {e : Expression V} (known : Known f e) (value : V) : Reduces e (.constant value)
  | op (kind : Kind) {args args' : List (Expression V)} (each : List.Forall₂ Reduces args args') :
    Reduces (.op kind args) (.op kind args')

/-- What an optimization has to do. -/
structure Optimized (e e' : Expression V) : Prop where
  value : ∀ env : UInt64 → V, (∀ u v, f u = some v → env u = v) → e'.value apply env = e.value apply env
  folded : Folded f e'
  shape : Reduces f e e'

mutual
/-- Behind the first argument with an unknown variable there is nothing left to fold. -/
def NothingBehind : Expression V → Prop
  | .op _ args => NothingBehindArgs args
  | _ => True

def NothingBehindArgs : List (Expression V) → Prop
  | [] => True
  | arg :: args =>
    (Known f arg → NothingBehindArgs args) ∧
      (¬ Known f arg → arg.NothingBehind ∧ ∀ later ∈ args, Folded f later)
end

section Partial

variable {apply f} {e : Expression V} {args : List (Expression V)}

variable {kind : Kind}

lemma known_op_iff : Known f (.op kind args) ↔ ∀ arg ∈ args, Known f arg := by
  simp only [Known, subterms, mem_cons, reduceCtorEq, false_or, mem_subtermsOf]
  constructor
  · exact fun known arg member u inside => known u ⟨arg, member, inside⟩
  · rintro known u ⟨arg, member, inside⟩
    exact known arg member u inside

lemma isSome_partialEvaluateArgs (each : ∀ arg ∈ args, ((arg.partialEvaluate apply f).isSome ↔ Known f arg)) :
    (partialEvaluateArgs apply f args).isSome ↔ ∀ arg ∈ args, Known f arg := by
  induction args with
  | nil => simp [partialEvaluateArgs]
  | cons arg args ih =>
    have first := each arg mem_cons_self
    have rest := ih fun arg member => each arg (mem_cons_of_mem _ member)
    rw [forall_mem_cons, ← first, ← rest, partialEvaluateArgs]
    cases arg.partialEvaluate apply f <;> simp

lemma isSome_partialEvaluate (e : Expression V) : (e.partialEvaluate apply f).isSome ↔ Known f e := by
  induction e using inductionOn with
  | constant value => simp [partialEvaluate, Known, subterms]
  | subexpression linked ih =>
    rw [partialEvaluate, ih]
    simp [Known, subterms]
  | var uservalue => simp [partialEvaluate, Known, subterms]
  | op kind args ih => rw [partialEvaluate, Option.isSome_map, isSome_partialEvaluateArgs ih, known_op_iff]

lemma partialEvaluate_eq_none (e : Expression V) : e.partialEvaluate apply f = none ↔ ¬ Known f e := by
  have some_iff : (e.partialEvaluate apply f).isSome ↔ Known f e := isSome_partialEvaluate e
  rw [← some_iff, Option.not_isSome_iff_eq_none]

lemma optimizeArgs_snd (each : ∀ arg ∈ args, (optimizeImpl apply f arg).2 = arg.partialEvaluate apply f) :
    (optimizeArgs apply f args).2 = partialEvaluateArgs apply f args := by
  induction args with
  | nil => rfl
  | cons arg args ih =>
    have first := each arg mem_cons_self
    have rest := ih fun arg member => each arg (mem_cons_of_mem _ member)
    rw [optimizeArgs, partialEvaluateArgs, ← first]
    rcases optimizeImpl apply f arg with ⟨arg', _ | v⟩
    · rfl
    · rw [← rest]

lemma optimizeImpl_snd (e : Expression V) : (optimizeImpl apply f e).2 = e.partialEvaluate apply f := by
  have settled : ∀ (e : Expression V) (v : Option V), (settle e v).2 = v := fun e v => by cases v <;> rfl
  induction e using inductionOn with
  | constant value => rfl
  | subexpression linked ih => rw [optimizeImpl, settled, partialEvaluate]
  | var uservalue => rw [optimizeImpl, settled, partialEvaluate]
  | op kind args ih => rw [optimizeImpl, settled, optimizeArgs_snd ih, partialEvaluate]

lemma optimizeImpl_op (kind : Kind) (args : List (Expression V)) : optimizeImpl apply f (.op kind args) =
    settle (.op kind (optimizeArgs apply f args).1) ((partialEvaluateArgs apply f args).map (apply kind)) := by
  rw [← optimizeArgs_snd fun arg _ => optimizeImpl_snd arg]
  rfl

lemma optimizeArgs_cons (arg : Expression V) (args : List (Expression V)) : (optimizeArgs apply f (arg :: args)).1 =
    optimize apply f arg :: if (arg.partialEvaluate apply f).isSome then (optimizeArgs apply f args).1 else args := by
  rw [optimizeArgs, ← optimizeImpl_snd, optimize]
  rcases optimizeImpl apply f arg with ⟨arg', _ | v⟩ <;> rfl

lemma optimize_of_some {v : V} (value : e.partialEvaluate apply f = some v) : optimize apply f e = .constant v := by
  rw [optimize]
  cases e with
  | constant c => rw [optimizeImpl, Option.some.inj value]
  | subexpression linked =>
    rw [optimizeImpl, show linked.partialEvaluate apply f = some v from value]
    rfl
  | var u =>
    rw [optimizeImpl, show f u = some v from value]
    rfl
  | op kind args =>
    rw [partialEvaluate] at value
    rw [optimizeImpl_op, value]
    rfl

lemma optimize_op (nothing : (Expression.op kind args).partialEvaluate apply f = none) :
    optimize apply f (.op kind args) = .op kind (optimizeArgs apply f args).1 := by
  rw [partialEvaluate] at nothing
  rw [optimize, optimizeImpl_op, nothing]
  rfl

lemma optimize_of_none (nothing : e.partialEvaluate apply f = none) (leaf : ∀ kind args, e ≠ .op kind args) :
    optimize apply f e = e := by
  rw [optimize]
  cases e with
  | constant c => rfl
  | subexpression linked =>
    rw [optimizeImpl, show linked.partialEvaluate apply f = none from nothing]
    rfl
  | var u =>
    rw [optimizeImpl, show f u = none from nothing]
    rfl
  | op kind args => exact absurd rfl (leaf kind args)

variable (apply f) in
lemma optimize_induct {motive : Expression V → Prop}
    (known : ∀ e v, e.partialEvaluate apply f = some v → motive e)
    (leaf : ∀ e, e.partialEvaluate apply f = none → (∀ kind args, e ≠ .op kind args) → motive e)
    (op : ∀ kind args, (Expression.op kind args).partialEvaluate apply f = none → (∀ arg ∈ args, motive arg) →
      motive (.op kind args)) (e : Expression V) : motive e := by
  induction e using inductionOn with
  | constant value => exact known _ value rfl
  | subexpression linked ih =>
    cases value : (Expression.subexpression linked).partialEvaluate apply f with
    | some v => exact known _ v value
    | none => exact leaf _ value nofun
  | var u =>
    cases value : (Expression.var u).partialEvaluate apply f with
    | some v => exact known _ v value
    | none => exact leaf _ value nofun
  | op kind args ih =>
    cases value : (Expression.op kind args).partialEvaluate apply f with
    | some v => exact known _ v value
    | none => exact op kind args value ih

end Partial

/-! ## The shape -/

section Shape

variable {apply f} {e : Expression V} {args : List (Expression V)}

lemma forall₂_optimizeArgs (each : ∀ arg ∈ args, Reduces f arg (optimize apply f arg)) :
    List.Forall₂ (Reduces f) args (optimizeArgs apply f args).1 := by
  induction args with
  | nil => exact .nil
  | cons arg args ih =>
    rw [optimizeArgs_cons]
    refine .cons (each arg mem_cons_self) ?_
    split
    · exact ih fun arg member => each arg (mem_cons_of_mem _ member)
    · exact forall₂_same.mpr fun arg _ => .same arg

lemma reduces_optimize (e : Expression V) : Reduces f e (optimize apply f e) := by
  induction e using optimize_induct apply f with
  | known e v value =>
    rw [optimize_of_some value]
    exact .known ((isSome_partialEvaluate e).mp (by rw [value]; rfl)) v
  | leaf e nothing isLeaf =>
    rw [optimize_of_none nothing isLeaf]
    exact .same e
  | op kind args nothing ih =>
    rw [optimize_op nothing]
    exact .op kind (forall₂_optimizeArgs ih)

end Shape

/-! ## The value -/

section Value

variable {apply f} {e : Expression V} {args : List (Expression V)} {env : UInt64 → V}

lemma value_op (kind : Kind) (args : List (Expression V)) : (Expression.op kind args).value apply env =
    (evaluateArgs (fun kind args => some (apply kind args)) env args).map (apply kind) := by
  rw [value, evaluateWith, Option.map_eq_bind]
  rfl

lemma evaluateArgs_cons (arg : Expression V) (args : List (Expression V)) :
    evaluateArgs (fun kind args => some (apply kind args)) env (arg :: args) = (arg.value apply env).bind fun v =>
      (evaluateArgs (fun kind args => some (apply kind args)) env args).map (v :: ·) := by
  rw [evaluateArgs, value]
  simp [Option.map_eq_bind]

lemma evaluateArgs_of_partialEvaluateArgs {values : List V} (known : partialEvaluateArgs apply f args = some values)
    (each : ∀ arg ∈ args, ∀ v, arg.partialEvaluate apply f = some v → arg.value apply env = some v) :
    evaluateArgs (fun kind args => some (apply kind args)) env args = some values := by
  induction args generalizing values with
  | nil => exact known
  | cons arg args ih =>
    rw [partialEvaluateArgs] at known
    split at known
    · cases known
    · rename_i v first
      obtain ⟨rest, later, rfl⟩ := Option.map_eq_some_iff.mp known
      rw [evaluateArgs_cons, each arg mem_cons_self v first, Option.bind_some,
        ih later fun arg member => each arg (mem_cons_of_mem _ member), Option.map_some]

lemma value_of_partialEvaluate (agrees : ∀ u v, f u = some v → env u = v) {v : V}
    (known : e.partialEvaluate apply f = some v) : e.value apply env = some v := by
  induction e using inductionOn generalizing v with
  | constant value => exact known
  | subexpression linked ih => exact ih known
  | var u => exact congrArg some (agrees u v known)
  | op kind args ih =>
    rw [partialEvaluate] at known
    obtain ⟨values, each, rfl⟩ := Option.map_eq_some_iff.mp known
    rw [value_op, evaluateArgs_of_partialEvaluateArgs each fun arg member v value => ih arg member value,
      Option.map_some]

lemma evaluateArgs_optimizeArgs (each : ∀ arg ∈ args, (optimize apply f arg).value apply env = arg.value apply env) :
    evaluateArgs (fun kind args => some (apply kind args)) env (optimizeArgs apply f args).1 =
      evaluateArgs (fun kind args => some (apply kind args)) env args := by
  induction args with
  | nil => rfl
  | cons arg args ih =>
    rw [optimizeArgs_cons, evaluateArgs_cons, evaluateArgs_cons, each arg mem_cons_self]
    split
    · rw [ih fun arg member => each arg (mem_cons_of_mem _ member)]
    · rfl

lemma value_optimize (agrees : ∀ u v, f u = some v → env u = v) (e : Expression V) :
    (optimize apply f e).value apply env = e.value apply env := by
  induction e using optimize_induct apply f with
  | known e v known =>
    rw [optimize_of_some known, value_of_partialEvaluate agrees known]
    rfl
  | leaf e nothing isLeaf => rw [optimize_of_none nothing isLeaf]
  | op kind args nothing ih => rw [optimize_op nothing, value_op, value_op, evaluateArgs_optimizeArgs ih]

end Value

/-! ## What is left to fold -/

section Folding

variable {apply f} {e : Expression V} {args : List (Expression V)}

lemma folded_constant (value : V) : Folded f (.constant value) := by
  intro part member _
  exact ⟨value, mem_singleton.mp member⟩

lemma mem_partsOf {part : Expression V} : part ∈ partsOf args ↔ ∃ arg ∈ args, part ∈ arg.parts := by
  induction args with
  | nil => simp [partsOf]
  | cons arg args ih => simp [partsOf, ih]

lemma folded_op_iff {kind : Kind} (unknown : ¬ Known f (.op kind args)) :
    Folded f (.op kind args) ↔ ∀ arg ∈ args, Folded f arg := by
  constructor
  · intro folded arg member part inside
    exact folded part (mem_cons_of_mem _ (mem_partsOf.mpr ⟨arg, member, inside⟩))
  · intro folded part inside known
    rcases mem_cons.mp inside with rfl | inside
    · exact absurd known unknown
    · obtain ⟨arg, member, inside⟩ := mem_partsOf.mp inside
      exact folded arg member part inside known

lemma folded_of_leaf (unknown : ¬ Known f e) (leaf : ∀ kind args, e ≠ .op kind args) : Folded f e := by
  intro part member known
  cases e with
  | op kind args => exact absurd rfl (leaf kind args)
  | _ =>
    obtain rfl := mem_singleton.mp member
    exact absurd known unknown

lemma known_of_optimizeArgs (each : ∀ arg ∈ args, Known f (optimize apply f arg) → Known f arg)
    (known : ∀ arg ∈ (optimizeArgs apply f args).1, Known f arg) : ∀ arg ∈ args, Known f arg := by
  induction args with
  | nil => exact fun _ member => absurd member not_mem_nil
  | cons arg args ih =>
    rw [optimizeArgs_cons, forall_mem_cons] at known
    have first := each arg mem_cons_self known.1
    rw [if_pos ((isSome_partialEvaluate arg).mpr first)] at known
    exact forall_mem_cons.mpr ⟨first, ih (fun arg member => each arg (mem_cons_of_mem _ member)) known.2⟩

lemma known_of_optimize (known : Known f (optimize apply f e)) : Known f e := by
  induction e using optimize_induct apply f with
  | known e v value => exact (isSome_partialEvaluate e).mp (by rw [value]; rfl)
  | leaf e nothing isLeaf =>
    rw [optimize_of_none nothing isLeaf] at known
    exact known
  | op kind args nothing ih =>
    rw [optimize_op nothing, known_op_iff] at known
    exact known_op_iff.mpr (known_of_optimizeArgs ih known)

lemma nothingBehindArgs_of_known (known : ∀ arg ∈ args, Known f arg) : NothingBehindArgs f args := by
  induction args with
  | nil => exact trivial
  | cons arg args ih =>
    obtain ⟨first, rest⟩ := forall_mem_cons.mp known
    exact ⟨fun _ => ih rest, fun unknown => absurd first unknown⟩

lemma folded_optimizeArgs_iff (each : ∀ arg ∈ args, (Folded f (optimize apply f arg) ↔ arg.NothingBehind f)) :
    (∀ arg ∈ (optimizeArgs apply f args).1, Folded f arg) ↔ NothingBehindArgs f args := by
  induction args with
  | nil => exact iff_of_true (fun _ member => absurd member not_mem_nil) trivial
  | cons arg args ih =>
    have rest := ih fun arg member => each arg (mem_cons_of_mem _ member)
    rw [optimizeArgs_cons, forall_mem_cons, NothingBehindArgs]
    by_cases known : Known f arg
    · have some_value : (arg.partialEvaluate apply f).isSome := (isSome_partialEvaluate arg).mpr known
      obtain ⟨v, value⟩ := Option.isSome_iff_exists.mp some_value
      rw [if_pos some_value, rest, optimize_of_some value]
      exact ⟨fun both => ⟨fun _ => both.2, absurd known⟩, fun both => ⟨folded_constant v, both.1 known⟩⟩
    · rw [if_neg fun some_value => known ((isSome_partialEvaluate arg).mp some_value), each arg mem_cons_self]
      exact ⟨fun both => ⟨fun isKnown => absurd isKnown known, fun _ => both⟩, fun both => both.2 known⟩

lemma folded_optimize_iff (e : Expression V) : Folded f (optimize apply f e) ↔ e.NothingBehind f := by
  induction e using optimize_induct apply f with
  | known e v value =>
    rw [optimize_of_some value]
    have known : Known f e := (isSome_partialEvaluate e).mp (by rw [value]; rfl)
    refine iff_of_true (folded_constant v) ?_
    cases e with
    | op kind args => exact nothingBehindArgs_of_known (known_op_iff.mp known)
    | _ => exact trivial
  | leaf e nothing isLeaf =>
    rw [optimize_of_none nothing isLeaf]
    refine iff_of_true (folded_of_leaf ((partialEvaluate_eq_none e).mp nothing) isLeaf) ?_
    cases e with
    | op kind args => exact absurd rfl (isLeaf kind args)
    | _ => exact trivial
  | op kind args nothing ih =>
    have unknown : ¬ Known f (optimize apply f (.op kind args)) := fun known =>
      (partialEvaluate_eq_none _).mp nothing (known_of_optimize known)
    rw [optimize_op nothing] at unknown ⊢
    rw [folded_op_iff unknown, folded_optimizeArgs_iff ih]
    rfl

end Folding

/-- The optimization does what it has to if and only if it meets nothing to fold behind an unknown argument. -/
theorem optimized_iff (apply : Kind → List V → V) (f : UInt64 → Option V) (e : Expression V) :
    Optimized apply f e (optimize apply f e) ↔ e.NothingBehind f := by
  rw [← folded_optimize_iff]
  exact ⟨Optimized.folded, fun folded => ⟨fun env agrees => value_optimize agrees e, folded, reduces_optimize e⟩⟩

/-- `sum(x, sum(1, 2))` keeps its second argument. -/
theorem later_sum_not_folded :
    ¬ Optimized (fun _ args => args.sum) (fun _ => none) (.op .sum [.var 0, .op .sum [.constant 1, .constant 2]])
      (optimizeConstants (fun _ args => args.sum) (.op .sum [.var 0, .op .sum [.constant (1 : ℤ), .constant 2]])) := by
  intro optimized
  have member : .op .sum [.constant (1 : ℤ), .constant 2] ∈ (optimizeConstants (fun _ args => args.sum)
      (.op .sum [.var 0, .op .sum [.constant (1 : ℤ), .constant 2]])).parts := by
    simp [optimizeConstants, optimize, optimizeImpl, optimizeArgs, settle, parts, partsOf]
  obtain ⟨value, constant⟩ := optimized.folded _ member (by intro u inside; simp [subterms, subtermsOf] at inside)
  cases constant

end Expression

end HpcToolkit.Prof
