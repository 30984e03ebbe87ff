import HpcToolkit.Lib.Climbing
import HpcToolkit.Prof.Expression
import HpcToolkit.Sources.FormulaTokens

/-! # Formulas of derived metrics

`Hpcrun4::parseFormula` and the functions below it, and the grammar of the formulas. The stream is the text that is
left; once its end is seen it stays there. The value of a constant as a `double` is a parameter, as it is for
expressions.
-/

namespace HpcToolkit.Sources.Formula

open Lib.Climbing Prof

/-! ## The parser -/

/-- Why there is no expression: an exception, with the text of `std::invalid_argument`, or the fuel of the model. -/
inductive ParseError where
  | invalid (text : String)
  | outOfRange
  | fuel

/-- The result of a conversion to `double`, none if it is out of range, and `&metrics.at(id).metric`. -/
structure Meaning (K : Type) where
  double : Decimal → Option K
  metrics : UInt32 → Option UInt64

inductive Operator where
  | sum
  | sub
  | prod
  | div
  | pow
deriving DecidableEq

namespace Operator

def kind : Operator → Kind
  | .sum => .sum
  | .sub => .sub
  | .prod => .prod
  | .div => .div
  | .pow => .pow

def prec : Operator → ℕ
  | .sum | .sub => 0
  | .prod | .div => 1
  | .pow => 2

def rightAssoc : Operator → Bool
  | .pow => true
  | _ => false

def symbol : Operator → Char
  | .sum => '+'
  | .sub => '-'
  | .prod => '*'
  | .div => '/'
  | .pow => '^'

/-- `oplen` -/
def length : Operator → ℕ
  | _ => 1

end Operator

/-- The operators with `Expression(op, {lhs, rhs})`. -/
def operators (K : Type) : Precedence Operator (Expression K) where
  prec := Operator.prec
  rightAssoc := Operator.rightAssoc
  combine op lhs rhs := .op op.kind [lhs, rhs]
  level_assoc op other same := by cases op <;> cases other <;> first | rfl | cases same

def operatorAt : Char → Option Operator
  | '+' => some .sum
  | '-' => some .sub
  | '*' => some .prod
  | '/' => some .div
  | '^' => some .pow
  | _ => none

def peekFormulaOperator (s : List Char) : Except ParseError (Option Operator × List Char) :=
  match skipBlanks s with
  | [] => .ok (none, [])
  | c :: s => match operatorAt c with
    | some op => .ok (some op, c :: s)
    | none =>
      if c = ')' ∨ c = ',' then .ok (none, c :: s)
      else .error (.invalid "Attempt to parse invalid formula, invalid operator")

section Parser

variable {K : Type}

/-- The text as a source of operators and primaries, which `primary` reads. -/
def source (primary : List Char → Except ParseError (Expression K × List Char)) :
    Source (List Char) ParseError Operator (Expression K) where
  peek := peekFormulaOperator
  skip op s := s.drop op.length
  operand := primary

def parseFormula1 (fuel : ℕ) (primary : List Char → Except ParseError (Expression K × List Char)) (s : List Char)
    (lhs : Expression K) (minPrec : ℕ) : Except ParseError (Expression K × List Char) := do
  let (lookahead, s) ← peekFormulaOperator s
  climb (source primary) (operators K) .fuel fuel lookahead s lhs minPrec

def parseFormula (fuel : ℕ) (primary : List Char → Except ParseError (Expression K × List Char)) (s : List Char) :
    Except ParseError (Expression K × List Char) := do
  let (lhs, s) ← primary s
  parseFormula1 fuel primary s lhs 0

/-- The arguments of a function and its closing parenthesis. -/
def parseArgs (formula : List Char → Except ParseError (Expression K × List Char)) :
    ℕ → List Char → Except ParseError (List (Expression K) × List Char)
  | 0, _ => .error .fuel
  | fuel + 1, s => do
    let (arg, s) ← formula s
    match s with
    | ',' :: s => do
      let (args, s) ← parseArgs formula fuel s
      return (arg :: args, s)
    | ')' :: s => return ([arg], s)
    | _ => .error (.invalid "Attempt to parse invalid formula, bad function syntax, no close parens")

def getUntil (s : List Char) (delim : Char) : List Char × List Char :=
  (s.takeWhile fun c => c ≠ delim, s.dropWhile fun c => c ≠ delim)

def functionKind (funcname : List Char) : Option Kind :=
  if funcname = ['m', 'a', 'x'] then some .max
  else if funcname = ['m', 'i', 'n'] then some .min
  else none

variable (meaning : Meaning K)

def parseConstant (s : List Char) : Except ParseError (Expression K × List Char) :=
  let (x, s) := readDecimal s
  match (if x.Complete then meaning.double x else none) with
  | some val => .ok (.constant val, s)
  | none => .error (.invalid "Attempt to parse invalid formula, bad constant")

def parseReference (s : List Char) : Except ParseError (Expression K × List Char) :=
  let (x, s) := readUnsigned (skipBlanks s)
  match x.value with
  | none => .error (.invalid "Attempt to parse invalid formula, invalid variable ref")
  | some id => match meaning.metrics (id + 1) with
    | none => .error .outOfRange
    | some metric => .ok (.var metric, s)

def parseFormulaPrimary : ℕ → List Char → Except ParseError (Expression K × List Char)
  | 0, _ => .error .fuel
  | fuel + 1, s => match skipBlanks s with
    | '(' :: s => do
      let (e, s) ← parseFormula fuel (parseFormulaPrimary fuel) s
      match s with
      | ')' :: s => return (e, s)
      | _ => .error (.invalid "Attempt to parse invalid formula, parans not balanced")
    | '-' :: s => do
      let (e, s) ← parseFormulaPrimary fuel s
      return (.op .neg [e], s)
    | '#' :: s => parseReference meaning s
    | 'm' :: s =>
      match functionKind (getUntil ('m' :: s) '(').1 with
      | none => .error (.invalid "Attempt to parse invalid formula, unrecognized function")
      | some kind => match (getUntil ('m' :: s) '(').2 with
        | '(' :: s => do
          let (args, s) ← parseArgs (parseFormula fuel (parseFormulaPrimary fuel)) fuel s
          return (.op kind args, s)
        | _ => .error (.invalid "Attempt to parse invalid formula, bad function syntax, no open parens")
    | s => parseConstant meaning s

lemma parseFormulaPrimary_zero (s : List Char) : parseFormulaPrimary meaning 0 s = .error .fuel := by
  rw [parseFormulaPrimary]

/-- The expression of a formula, with fuel for all of its text. -/
def parse (s : List Char) : Except ParseError (Expression K) := do
  let (e, _) ← parseFormula (2 * s.length + 3) (parseFormulaPrimary meaning (2 * s.length + 3)) s
  return e

end Parser

/-! ## The grammar -/

/-- What stands in front of the id of a metric, and what there is besides operators and parentheses. -/
structure Dialect where
  references : List Char
  functions : List (List Char × Kind)
  negation : Bool

/-- The formulas of the measurement profiles. -/
def hpcrunDialect : Dialect where
  references := ['#']
  functions := [(['m', 'a', 'x'], .max), (['m', 'i', 'n'], .min)]
  negation := true

inductive Nonterminal where
  | sum
  | product
  | power
  | primary
  | args

section Grammar

variable {K : Type} (meaning : Meaning K) (dialect : Dialect)

/-- The texts of expressions. Sums and products are grouped from the left, powers from the right, and a minus belongs
to the primary behind it. -/
inductive Derives : Nonterminal → List Char → List (Expression K) → Prop where
  | number {b : List Char} {x : Decimal} {val : K} (blanks : Blanks b) (form : x.Form) (complete : x.Complete)
      (unsigned : x.sign ≠ some '-') (value : meaning.double x = some val) :
      Derives .primary (b ++ x.text) [.constant val]
  | reference {b b' : List Char} {marker : Char} {x : Unsigned} {id : UInt32} {metric : UInt64} (blanks : Blanks b)
      (marked : marker ∈ dialect.references) (blanks' : Blanks b') (form : x.Form) (value : x.value = some id)
      (known : meaning.metrics (id + 1) = some metric) :
      Derives .primary (b ++ marker :: (b' ++ x.text)) [.var metric]
  | parens {b b' w : List Char} {e : Expression K} (blanks : Blanks b) (blanks' : Blanks b')
      (inside : Derives .sum w [e]) : Derives .primary (b ++ '(' :: (w ++ (b' ++ [')']))) [e]
  | negation {b w : List Char} {e : Expression K} (blanks : Blanks b) (allowed : dialect.negation)
      (inside : Derives .primary w [e]) : Derives .primary (b ++ '-' :: w) [.op .neg [e]]
  | function {b b' w name : List Char} {kind : Kind} {args : List (Expression K)} (blanks : Blanks b)
      (named : (name, kind) ∈ dialect.functions) (blanks' : Blanks b') (inside : Derives .args w args) :
      Derives .primary (b ++ (name ++ '(' :: (w ++ (b' ++ [')'])))) [.op kind args]
  | arg {w : List Char} {e : Expression K} (inside : Derives .sum w [e]) : Derives .args w [e]
  | moreArgs {b w w' : List Char} {e : Expression K} {args : List (Expression K)} (inside : Derives .sum w [e])
      (blanks : Blanks b) (rest : Derives .args w' args) : Derives .args (w ++ (b ++ ',' :: w')) (e :: args)
  | ofPrimary {w : List Char} {e : Expression K} (inside : Derives .primary w [e]) : Derives .power w [e]
  | power {b w w' : List Char} {op : Operator} {l r : Expression K} (level : op.prec = 2)
      (first : Derives .primary w [l]) (blanks : Blanks b) (second : Derives .power w' [r]) :
      Derives .power (w ++ (b ++ op.symbol :: w')) [.op op.kind [l, r]]
  | ofPower {w : List Char} {e : Expression K} (inside : Derives .power w [e]) : Derives .product w [e]
  | product {b w w' : List Char} {op : Operator} {l r : Expression K} (level : op.prec = 1)
      (first : Derives .product w [l]) (blanks : Blanks b) (second : Derives .power w' [r]) :
      Derives .product (w ++ (b ++ op.symbol :: w')) [.op op.kind [l, r]]
  | ofProduct {w : List Char} {e : Expression K} (inside : Derives .product w [e]) : Derives .sum w [e]
  | sum {b w w' : List Char} {op : Operator} {l r : Expression K} (level : op.prec = 0)
      (first : Derives .sum w [l]) (blanks : Blanks b) (second : Derives .product w' [r]) :
      Derives .sum (w ++ (b ++ op.symbol :: w')) [.op op.kind [l, r]]

/-- The whole text is an expression. -/
def IsFormula (s : List Char) (e : Expression K) : Prop :=
  ∃ w b, s = w ++ b ∧ Derives meaning dialect .sum w [e] ∧ Blanks b

/-- The text is an expression followed by a parenthesis that closes nothing, or by a comma between no arguments. -/
def Stray (s : List Char) (e : Expression K) : Prop :=
  ∃ w b c rest, s = w ++ (b ++ c :: rest) ∧ Derives meaning dialect .sum w [e] ∧ Blanks b ∧ (c = ')' ∨ c = ',')

end Grammar

end HpcToolkit.Sources.Formula
