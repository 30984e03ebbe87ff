import Mathlib

/-! # Expressions

`Expression` and its evaluation. Arithmetic is exact: values are in a linearly ordered field, and an
operation without an exact value (a division by zero, the logarithm of zero) has none. The functions
of the mathematics library are parameters, with the one fact of `std::pow` the evaluation meets.
-/

open List
open Option (bind_eq_bind getD_some some_inj)

namespace HpcToolkit.Prof

/-! ## Expression trees -/

/-- The operations of `Expression::Kind`. -/
inductive Kind where
  | sum
  | sub
  | neg
  | prod
  | div
  | pow
  | sqrt
  | log
  | ln
  | min
  | max
  | floor
  | ceil
deriving DecidableEq

/-- `Expression`, over the type of its constants. A sub-expression is held by the tree that links to it. -/
inductive Expression (K : Type) where
  | constant (value : K)
  | subexpression (linked : Expression K)
  | var (uservalue : UInt64)
  | op (kind : Kind) (args : List (Expression K))

/-- The argument counts that the constructor of `Expression` asserts. -/
def Kind.accepts : Kind → Nat → Bool
  | .sum, n | .sub, n | .prod, n | .div, n | .pow, n | .min, n | .max, n => 0 < n
  | .neg, n | .sqrt, n | .ln, n | .floor, n | .ceil, n => n == 1
  | .log, n => n == 2

namespace Expression

variable {K : Type}

mutual
/-- The trees that one evaluation visits. -/
def subterms : Expression K → List (Expression K)
  | .constant value => [.constant value]
  | .subexpression linked => .subexpression linked :: linked.subterms
  | .var uservalue => [.var uservalue]
  | .op kind args => .op kind args :: subtermsOf args

def subtermsOf : List (Expression K) → List (Expression K)
  | [] => []
  | arg :: args => arg.subterms ++ subtermsOf args
end

/-- What the constructors assert: every operation of the tree has a number of arguments it accepts. -/
def WellFormed (e : Expression K) : Prop :=
  ∀ kind args, .op kind args ∈ e.subterms → kind.accepts args.length

lemma mem_subterms_self (e : Expression K) : e ∈ e.subterms := by
  cases e <;> simp [subterms]

variable {args : List (Expression K)}

lemma mem_subtermsOf {s : Expression K} :
    s ∈ subtermsOf args ↔ ∃ arg ∈ args, s ∈ arg.subterms := by
  induction args with
  | nil => simp [subtermsOf]
  | cons arg args hypothesis => simp [subtermsOf, hypothesis]

lemma inductionOn {motive : Expression K → Prop} (constant : ∀ value, motive (.constant value))
    (subexpression : ∀ linked, motive linked → motive (.subexpression linked))
    (var : ∀ uservalue, motive (.var uservalue))
    (op : ∀ kind args, (∀ arg ∈ args, motive arg) → motive (.op kind args)) (e : Expression K) : motive e := by
  refine @Expression.rec K motive (fun args => ∀ arg ∈ args, motive arg)
    constant subexpression var op ?_ ?_ e
  · intro arg member
    cases member
  · intro head tail first rest arg member
    rcases mem_cons.mp member with rfl | later
    · exact first
    · exact rest arg later

lemma subterms_trans {s e : Expression K} (member : s ∈ e.subterms) {r : Expression K}
    (deeper : r ∈ s.subterms) : r ∈ e.subterms := by
  induction e using inductionOn with
  | constant value =>
    simp only [subterms, mem_singleton] at member
    subst member
    exact deeper
  | subexpression linked hypothesis =>
    rcases mem_cons.mp member with rfl | inside
    · exact deeper
    · exact mem_cons_of_mem _ (hypothesis inside)
  | var uservalue =>
    simp only [subterms, mem_singleton] at member
    subst member
    exact deeper
  | op kind args hypothesis =>
    rcases mem_cons.mp member with rfl | inside
    · exact deeper
    · obtain ⟨arg, isArg, inArg⟩ := mem_subtermsOf.mp inside
      exact mem_cons_of_mem _ (mem_subtermsOf.mpr ⟨arg, isArg, hypothesis arg isArg inArg⟩)

lemma arg_mem_subterms {kind : Kind} {arg : Expression K} (member : arg ∈ args) :
    arg ∈ (Expression.op kind args).subterms :=
  mem_cons_of_mem _ (mem_subtermsOf.mpr ⟨arg, member, mem_subterms_self arg⟩)

end Expression

/-! ## Evaluation -/

/-- The functions of the mathematics library, where they have an exact value. -/
structure Arithmetic (K : Type) [Field K] where
  sqrt : K → Option K
  log : K → Option K
  pow : K → K → Option K
  pow_zero : ∀ x, pow x 0 = some 1

section
variable {K : Type} [Field K] [LinearOrder K] [FloorRing K]

def quotient (l r : K) : Option K := if r = 0 then none else some (l / r)

/-- `Expression::evaluate(Kind, args)`. -/
def evaluateOp (m : Arithmetic K) : Kind → List K → Option K
  | .sum, args => some (args.foldl (fun l r => l + r) 0)
  | .sub, args => some (args.foldl (fun l r => l - r) 0)
  | .neg, [x] => some (-x)
  | .prod, args => some (args.foldl (fun l r => l * r) 0)
  | .div, args => args.foldlM quotient 0
  | .pow, args => args.reverse.foldlM (fun r l => m.pow l r) 0
  | .sqrt, [x] => m.sqrt x
  | .log, [x, y] => do quotient (← m.log x) (← m.log y)
  | .ln, [x] => m.log x
  | .min, args => some (args.foldl (fun l r => min l r) 0)
  | .max, args => some (args.foldl (fun l r => max l r) 0)
  | .floor, [x] => some ⌊x⌋
  | .ceil, [x] => some ⌈x⌉
  | _, _ => none

/-- `X ^ (Y ^ (... ^ Z))`. -/
def Arithmetic.tower (m : Arithmetic K) : List K → Option K
  | [] => none
  | [z] => some z
  | x :: rest => do m.pow x (← m.tower rest)

/-- The value that the comments on `Expression::Kind` give to an operation. -/
def meaningOp (m : Arithmetic K) : Kind → List K → Option K
  | .sum, args => some args.sum
  | .sub, x :: rest => some (rest.foldl (fun l r => l - r) x)
  | .neg, [x] => some (-x)
  | .prod, args => some args.prod
  | .div, x :: rest => rest.foldlM quotient x
  | .pow, args => m.tower args
  | .sqrt, [x] => m.sqrt x
  | .log, [x, y] => do quotient (← m.log x) (← m.log y)
  | .ln, [x] => m.log x
  | .min, args => args.min?
  | .max, args => args.max?
  | .floor, [x] => some ⌊x⌋
  | .ceil, [x] => some ⌈x⌉
  | _, _ => none

mutual
/-- `Expression::evaluate`, with the operations evaluated by `apply`. -/
def Expression.evaluateWith (apply : Kind → List K → Option K) (f : UInt64 → K) : Expression K → Option K
  | .constant value => some value
  | .subexpression linked => linked.evaluateWith apply f
  | .var uservalue => some (f uservalue)
  | .op kind args => do apply kind (← Expression.evaluateArgs apply f args)

def Expression.evaluateArgs (apply : Kind → List K → Option K) (f : UInt64 → K) :
    List (Expression K) → Option (List K)
  | [] => some []
  | arg :: args => do return (← arg.evaluateWith apply f) :: (← Expression.evaluateArgs apply f args)
end

def Expression.evaluate (m : Arithmetic K) (f : UInt64 → K) (e : Expression K) : Option K :=
  e.evaluateWith (evaluateOp m) f

/-- The documented value of an expression. -/
def Expression.meaning (m : Arithmetic K) (f : UInt64 → K) (e : Expression K) : Option K :=
  e.evaluateWith (meaningOp m) f

end

/-! ## One operation -/

section
variable {K : Type} [Field K]

lemma foldl_sub (x : K) (rest : List K) : rest.foldl (fun l r => l - r) x = x - rest.sum := by
  induction rest generalizing x with
  | nil => simp
  | cons y rest hypothesis =>
    simp only [foldl_cons, sum_cons, hypothesis]
    ring

lemma foldl_mul_zero (args : List K) : args.foldl (fun l r => l * r) 0 = 0 := by
  induction args with
  | nil => rfl
  | cons x args hypothesis => simpa using hypothesis

lemma foldl_add_zero (args : List K) : args.foldl (fun l r => l + r) 0 = args.sum :=
  sum_eq_foldl.symm

variable {rest : List K}

lemma Arithmetic.tower_cons (m : Arithmetic K) {x : K} (nonempty : rest ≠ []) :
    m.tower (x :: rest) = (m.tower rest).bind fun r => m.pow x r := by
  cases rest with
  | nil => exact absurd rfl nonempty
  | cons y rest => rfl

lemma reverse_foldlM_pow (m : Arithmetic K) {args : List K} (nonempty : args ≠ []) :
    args.reverse.foldlM (fun r l => m.pow l r) 0 = m.tower (args.dropLast ++ [1]) := by
  induction args with
  | nil => exact absurd rfl nonempty
  | cons x rest hypothesis =>
    rw [reverse_cons, foldlM_append]
    cases rest with
    | nil => simp [Arithmetic.tower, m.pow_zero]
    | cons y rest =>
      rw [hypothesis (cons_ne_nil y rest), dropLast_cons_cons, cons_append, m.tower_cons (by simp)]
      simp

variable [LinearOrder K]

lemma foldlM_quotient_eq_some {x v : K} :
    rest.foldlM quotient x = some v ↔ 0 ∉ rest ∧ v = x / rest.prod := by
  induction rest generalizing x with
  | nil => simp [eq_comm]
  | cons y rest hypothesis =>
    by_cases zero : y = 0
    · simp [quotient, zero]
    · simp only [foldlM_cons, quotient, if_neg zero, bind_eq_bind, Option.bind_some, hypothesis,
        mem_cons, prod_cons, div_div]
      simp [eq_comm, zero]

variable {v : K}

lemma foldl_min_zero {args : List K} (least : args.min? = some v) :
    args.foldl (fun l r => min l r) 0 = min 0 v := by
  change args.foldl min 0 = min 0 v
  rw [foldl_min, least, getD_some]

lemma foldl_max_zero {args : List K} (greatest : args.max? = some v) :
    args.foldl (fun l r => max l r) 0 = max 0 v := by
  change args.foldl max 0 = max 0 v
  rw [foldl_max, greatest, getD_some]

lemma min?_le_zero_iff {args : List K} (least : args.min? = some v) : v ≤ 0 ↔ ∃ x ∈ args, x ≤ 0 := by
  obtain ⟨member, bound⟩ := min?_eq_some_iff.mp least
  exact ⟨fun negative => ⟨v, member, negative⟩, fun ⟨x, isArg, negative⟩ => (bound x isArg).trans negative⟩

lemma zero_le_max?_iff {args : List K} (greatest : args.max? = some v) : 0 ≤ v ↔ ∃ x ∈ args, 0 ≤ x := by
  obtain ⟨member, bound⟩ := max?_eq_some_iff.mp greatest
  exact ⟨fun positive => ⟨v, member, positive⟩, fun ⟨x, isArg, positive⟩ => positive.trans (bound x isArg)⟩

variable [FloorRing K]

/-- Where an operation on arguments with these values keeps its documented value. -/
def keepsMeaning (m : Arithmetic K) : Kind → List K → Prop
  | .sub, args => args.head? = some 0
  | .prod, args => 0 ∈ args
  | .div, _ => False
  | .pow, args => m.tower (args.dropLast ++ [1]) = m.tower args
  | .min, args => ∃ x ∈ args, x ≤ 0
  | .max, args => ∃ x ∈ args, 0 ≤ x
  | _, _ => True

variable {kind : Kind}

lemma evaluateOp_of_fixed_arity (m : Arithmetic K) (fixed : kind.accepts 3 = false) {args : List K} :
    evaluateOp m kind args = meaningOp m kind args := by
  cases kind with
  | sum | sub | prod | div | pow | min | max => cases fixed
  | neg | sqrt | log | ln | floor | ceil => rcases args with _ | ⟨x, _ | ⟨y, _ | ⟨z, rest⟩⟩⟩ <;> rfl

lemma evaluateOp_eq_some_iff [IsStrictOrderedRing K] (m : Arithmetic K) {args : List K}
    (documented : meaningOp m kind args = some v) :
    evaluateOp m kind args = some v ↔ keepsMeaning m kind args := by
  cases kind with
  | sum =>
    simp only [meaningOp, some_inj] at documented
    simp [evaluateOp, keepsMeaning, foldl_add_zero, documented]
  | sub =>
    cases args with
    | nil => simp [meaningOp] at documented
    | cons x rest =>
      simp only [meaningOp, some_inj, foldl_sub] at documented
      simp only [evaluateOp, keepsMeaning, foldl_cons, foldl_sub, some_inj, head?_cons, ← documented]
      constructor
      · intro same
        linarith
      · rintro rfl
        ring
  | prod =>
    simp only [meaningOp, some_inj] at documented
    simp only [evaluateOp, keepsMeaning, foldl_mul_zero, some_inj, ← documented]
    rw [eq_comm, prod_eq_zero_iff]
  | div =>
    cases args with
    | nil => simp [meaningOp] at documented
    | cons x rest =>
      simp only [meaningOp, foldlM_quotient_eq_some] at documented
      obtain ⟨divisors, value⟩ := documented
      simp only [evaluateOp, keepsMeaning, foldlM_quotient_eq_some, zero_div, iff_false]
      rintro ⟨all, zero⟩
      simp only [mem_cons, not_or] at all
      have nonzero : rest.prod ≠ 0 := fun vanishes => divisors (prod_eq_zero_iff.mp vanishes)
      rw [zero, eq_comm, div_eq_zero_iff] at value
      rcases value with first | rest
      · exact all.1 first.symm
      · exact nonzero rest
  | pow =>
    have nonempty : args ≠ [] := by
      rintro rfl
      simp [meaningOp, Arithmetic.tower] at documented
    simp only [meaningOp] at documented
    simp only [evaluateOp, keepsMeaning, reverse_foldlM_pow m nonempty, documented]
  | min =>
    simp only [meaningOp] at documented
    simp only [evaluateOp, keepsMeaning, foldl_min_zero documented, some_inj, min_eq_right_iff,
      min?_le_zero_iff documented]
  | max =>
    simp only [meaningOp] at documented
    simp only [evaluateOp, keepsMeaning, foldl_max_zero documented, some_inj, max_eq_right_iff,
      zero_le_max?_iff documented]
  | neg | sqrt | log | ln | floor | ceil =>
    rw [evaluateOp_of_fixed_arity m rfl]
    exact iff_of_true documented trivial

end

/-! ## The whole tree -/

section
variable {K : Type} [Field K] [LinearOrder K] [FloorRing K]

variable {f : UInt64 → K} {values : List K} {args : List (Expression K)}

omit [Field K] [LinearOrder K] [FloorRing K] in
lemma Expression.evaluateArgs_eq_some {apply : Kind → List K → Option K}
    :
    Expression.evaluateArgs apply f args = some values ↔
      Forall₂ (fun arg value => arg.evaluateWith apply f = some value) args values := by
  induction args generalizing values with
  | nil => simp [Expression.evaluateArgs, eq_comm]
  | cons arg args hypothesis =>
    simp only [Expression.evaluateArgs, bind_eq_bind, Option.bind_eq_some_iff, Option.pure_def,
      some_inj, hypothesis, forall₂_cons_left_iff]
    constructor
    · rintro ⟨value, first, rest, later, rfl⟩
      exact ⟨value, rest, first, later, rfl⟩
    · rintro ⟨value, rest, first, later, rfl⟩
      exact ⟨value, first, rest, later, rfl⟩

/-- Every tree that the evaluation of `e` visits, and that has a documented value, gets that value. -/
def EvaluatesAsDocumented (m : Arithmetic K) (f : UInt64 → K) (e : Expression K) : Prop :=
  ∀ s ∈ e.subterms, ∀ v, s.meaning m f = some v → s.evaluate m f = some v

/-- Every operation of `e` with a documented value keeps it on the documented values of its arguments. -/
def OperationsKeepMeaning (m : Arithmetic K) (f : UInt64 → K) (e : Expression K) : Prop :=
  ∀ kind args, .op kind args ∈ e.subterms →
    ∀ values, Forall₂ (fun arg value => arg.meaning m f = some value) args values →
      (meaningOp m kind values).isSome → keepsMeaning m kind values

variable {kind : Kind} {m : Arithmetic K}

lemma Expression.evaluate_op (evaluated : Forall₂ (fun arg value => arg.evaluate m f = some value) args values) :
    (Expression.op kind args).evaluate m f = evaluateOp m kind values := by
  simp [Expression.evaluate, Expression.evaluateWith, Expression.evaluateArgs_eq_some.mpr evaluated]

lemma Expression.meaning_op_eq_some {v : K} : (Expression.op kind args).meaning m f = some v ↔ ∃ values,
      Forall₂ (fun arg value => arg.meaning m f = some value) args values ∧ meaningOp m kind values = some v := by
  simp only [Expression.meaning, Expression.evaluateWith, bind_eq_bind, Option.bind_eq_some_iff,
    Expression.evaluateArgs_eq_some]

variable [IsStrictOrderedRing K]

variable {e : Expression K}

lemma EvaluatesAsDocumented.keepMeaning (documented : EvaluatesAsDocumented m f e) : OperationsKeepMeaning m f e := by
  intro kind args member values meanings defined
  obtain ⟨v, value⟩ := Option.isSome_iff_exists.mp defined
  have evaluated : Forall₂ (fun arg value => arg.evaluate m f = some value) args values := by
    have ofArgs := (forall₂_and_left (p := (· ∈ args)) args values).mpr ⟨fun _ member => member, meanings⟩
    refine ofArgs.imp fun arg value ⟨isArg, meaning⟩ => ?_
    exact documented arg (Expression.subterms_trans member (Expression.arg_mem_subterms isArg)) value meaning
  have whole := documented _ member v (Expression.meaning_op_eq_some.mpr ⟨values, meanings, value⟩)
  rw [Expression.evaluate_op evaluated] at whole
  exact (evaluateOp_eq_some_iff m value).mp whole

lemma OperationsKeepMeaning.evaluate_eq (keep : OperationsKeepMeaning m f e) {v : K}
    (value : e.meaning m f = some v) : e.evaluate m f = some v := by
  induction e using Expression.inductionOn generalizing v with
  | constant c => exact value
  | subexpression linked hypothesis =>
    exact hypothesis (fun kind args member => keep kind args (mem_cons_of_mem _ member)) value
  | var uservalue => exact value
  | op kind args hypothesis =>
    obtain ⟨values, meanings, result⟩ := Expression.meaning_op_eq_some.mp value
    have evaluated : Forall₂ (fun arg value => arg.evaluate m f = some value) args values := by
      have ofArgs := (forall₂_and_left (p := (· ∈ args)) args values).mpr ⟨fun _ member => member, meanings⟩
      refine ofArgs.imp fun arg value ⟨isArg, meaning⟩ => hypothesis arg isArg ?_ meaning
      exact fun k as member => keep k as (Expression.subterms_trans (Expression.arg_mem_subterms isArg) member)
    rw [Expression.evaluate_op evaluated]
    exact (evaluateOp_eq_some_iff m result).mpr
      (keep kind args (Expression.mem_subterms_self _) values meanings (by simp [result]))

/-- The evaluation of an expression gives all its parts their documented values exactly where no
operation of it needs the seed that the code leaves out. -/
theorem evaluate_documented_iff (m : Arithmetic K) (f : UInt64 → K) (e : Expression K) :
    EvaluatesAsDocumented m f e ↔ OperationsKeepMeaning m f e := by
  constructor
  · exact EvaluatesAsDocumented.keepMeaning
  · intro keep s member v value
    refine OperationsKeepMeaning.evaluate_eq (fun kind args inside => ?_) value
    exact keep kind args (Expression.subterms_trans member inside)

end

/-! ## Rational arithmetic -/

/-- Rational powers with an integral exponent, and roots and logarithms of `1`. -/
def rationalArithmetic : Arithmetic ℚ where
  sqrt x := if x = 0 ∨ x = 1 then some x else none
  log x := if x = 1 then some 0 else none
  pow x y := if y.den = 1 ∧ (0 ≤ y ∨ x ≠ 0) then some (x ^ y.num) else none
  pow_zero x := by simp

/-- `2 * 3` evaluates to `0`. -/
theorem prod_loses_its_value :
    ¬ ∀ (m : Arithmetic ℚ) (f : UInt64 → ℚ) (e : Expression ℚ) (v : ℚ),
      e.meaning m f = some v → e.evaluate m f = some v := by
  intro documented
  have value := documented rationalArithmetic (fun _ => 0) (.op .prod [.constant 2, .constant 3]) 6
  simp [Expression.meaning, Expression.evaluate, Expression.evaluateWith, Expression.evaluateArgs, meaningOp,
    evaluateOp] at value
  norm_num at value

/-- On `min(x, max(y, 0))` at `x = -1` and `y = 5`. -/
theorem evaluate_documented_min_max :
    EvaluatesAsDocumented rationalArithmetic (fun u => if u = 0 then -1 else 5)
      (.op .min [.var 0, .op .max [.var 1, .constant 0]]) := by
  rw [evaluate_documented_iff]
  intro kind args member values meanings _
  simp only [Expression.subterms, Expression.subtermsOf, append_nil, mem_cons, mem_append,
    not_mem_nil, reduceCtorEq, Expression.op.injEq, false_or, or_false] at member
  rcases member with ⟨rfl, rfl⟩ | ⟨rfl, rfl⟩
  · obtain ⟨x, rest, first, -, rfl⟩ := forall₂_cons_left_iff.mp meanings
    simp only [Expression.meaning, Expression.evaluateWith, some_inj] at first
    exact ⟨x, mem_cons_self, by rw [← first]; norm_num⟩
  · obtain ⟨x, rest, first, -, rfl⟩ := forall₂_cons_left_iff.mp meanings
    simp only [Expression.meaning, Expression.evaluateWith, some_inj] at first
    exact ⟨x, mem_cons_self, by rw [← first, if_neg (by decide)]; norm_num⟩

end HpcToolkit.Prof
