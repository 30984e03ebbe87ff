import HpcToolkit.Prof.Expression
import HpcToolkit.Sources.FormulaTokens

/-! # The formulas of summary statistics as text

`MetaDB::accumulateFormulaString` and what a stream makes of a `double` in its default format, which has six digits.
Values are exact, so there is no negative zero, and no infinity.
-/

open List

namespace HpcToolkit.MetaDb

open Prof Sources.Formula

/-! ## Numbers -/

section Numbers

variable {K : Type} [Field K] [LinearOrder K] [FloorRing K]

/-- The nearest integer, and the even one of two. -/
def roundHalfEven (q : K) : ℤ :=
  let rest := q - ⌊q⌋
  if rest < 1 / 2 then ⌊q⌋
  else if 1 / 2 < rest then ⌊q⌋ + 1
  else if ⌊q⌋ % 2 = 0 then ⌊q⌋ else ⌊q⌋ + 1

/-- The six digits of a positive number, and the exponent of the first. -/
def sixDigits (a : K) : ℕ × ℤ :=
  let exponent := Int.log 10 a
  let digits := (roundHalfEven (a / 10 ^ (exponent - 5))).toNat
  if digits = 10 ^ 6 then (10 ^ 5, exponent + 1) else (digits, exponent)

/-- The digits behind the point, if any are left without the zeros at the end. -/
def fraction (digits : List Char) : Option (List Char) :=
  match digits.rdropWhile (· = '0') with
  | [] => none
  | kept => some kept

/-- An exponent has two digits or more. -/
def exponentDigits (n : ℕ) : List Char :=
  if n < 10 then '0' :: Nat.toDigits 10 n else Nat.toDigits 10 n

/-- `ss << v` -/
def streamed (v : K) : Decimal :=
  if v = 0 then ⟨none, ['0'], none, none⟩
  else
    let (number, exponent) := sixDigits |v|
    let digits := Nat.toDigits 10 number
    let sign := if v < 0 then some '-' else none
    if exponent < -4 ∨ 6 ≤ exponent then
      ⟨sign, digits.take 1, fraction (digits.drop 1),
        some ('e', some (if exponent < 0 then '-' else '+'), exponentDigits exponent.natAbs)⟩
    else if exponent < 0 then
      ⟨sign, ['0'], fraction (replicate (exponent.natAbs - 1) '0' ++ digits), none⟩
    else ⟨sign, digits.take (exponent.toNat + 1), fraction (digits.drop (exponent.toNat + 1)), none⟩

lemma fraction_form {digits : List Char} (form : ∀ c ∈ digits, c.isDigit) :
    ∀ kept ∈ fraction digits, ∀ c ∈ kept, c.isDigit := by
  intro kept isKept c inside
  have member : c ∈ digits.rdropWhile (· = '0') := by
    unfold fraction at isKept
    split at isKept
    · cases isKept
    · cases isKept
      exact inside
  exact form c (( rdropWhile_prefix _ digits).subset member)

lemma exponentDigits_form (n : ℕ) : ∀ c ∈ exponentDigits n, c.isDigit := by
  intro c inside
  unfold exponentDigits at inside
  have digits (member : c ∈ Nat.toDigits 10 n) : c.isDigit := Nat.isDigit_of_mem_toDigits (by decide) le_rfl member
  split at inside
  · rcases mem_cons.mp inside with rfl | member
    · decide
    · exact digits member
  · exact digits inside

lemma exponentDigits_ne_nil (n : ℕ) : exponentDigits n ≠ [] := by
  unfold exponentDigits
  split
  · exact cons_ne_nil _ _
  · exact Nat.toDigits_ne_nil

/-- A number that starts with a digit, or with a minus and a digit. -/
structure Plain (x : Decimal) : Prop where
  form : x.Form
  whole : x.whole ≠ []
  exponent : ∀ e ∈ x.exponent, e.2.2 ≠ []
  sign : x.sign ≠ some '+'

lemma streamed_plain (v : K) : Plain (streamed v) := by
  have digits (n : ℕ) (c : Char) (member : c ∈ Nat.toDigits 10 n) : c.isDigit :=
    Nat.isDigit_of_mem_toDigits (by decide) le_rfl member
  have signs (sign : Option Char) (isSign : sign = if v < 0 then some '-' else none) :
      (∀ c ∈ sign, IsSign c) ∧ sign ≠ some '+' := by
    subst isSign
    split <;> simp [IsSign]
  have taken (n k : ℕ) : (Nat.toDigits 10 n).take (k + 1) ≠ [] := by
    rw [Ne, take_eq_nil_iff, not_or]
    exact ⟨Nat.succ_ne_zero k, Nat.toDigits_ne_nil⟩
  have zero : ∀ c ∈ ['0'], c.isDigit := by
    rintro c (_ | ⟨_, ⟨⟩⟩)
    decide
  obtain ⟨isSign, notPlus⟩ := signs _ rfl
  unfold streamed
  split
  · exact ⟨⟨nofun, zero, nofun, nofun⟩, cons_ne_nil _ _, nofun, nofun⟩
  · dsimp only
    split
    · refine ⟨⟨isSign, fun c member => digits _ c (mem_of_mem_take member), ?_, ?_⟩, taken _ 0, ?_, notPlus⟩
      · exact fraction_form fun c member => digits _ c (mem_of_mem_drop member)
      · rintro _ ⟨⟩
        refine ⟨.inl rfl, ?_, exponentDigits_form _⟩
        rintro c ⟨⟩
        split <;> simp [IsSign]
      · rintro _ ⟨⟩
        exact exponentDigits_ne_nil _
    · split
      · refine ⟨⟨isSign, zero, ?_, nofun⟩, cons_ne_nil _ _, nofun, notPlus⟩
        refine fraction_form fun c member => ?_
        rcases mem_append.mp member with leading | digit
        · rw [eq_of_mem_replicate leading]
          decide
        · exact digits _ c digit
      · refine ⟨⟨isSign, fun c member => digits _ c (mem_of_mem_take member), ?_, nofun⟩, taken _ _, nofun,
          notPlus⟩
        exact fraction_form fun c member => digits _ c (mem_of_mem_drop member)

/-! ## What a number says -/

def exponentValue : Option (Char × Option Char × List Char) → ℤ
  | none => 0
  | some (_, sign, digits) => if sign = some '-' then -digitsValue digits else digitsValue digits

omit [LinearOrder K] [FloorRing K] in
/-- The number without its sign. -/
def magnitude (x : Decimal) : K :=
  digitsValue (x.whole ++ x.point.getD []) * 10 ^ (exponentValue x.exponent - (x.point.getD []).length)

def decimalValue (x : Decimal) : K := if x.sign = some '-' then -magnitude x else magnitude x

/-- The constant has no more digits than are written. -/
def WrittenExactly (v : K) : Prop := decimalValue (streamed v) = v

instance (v : K) : Decidable (WrittenExactly v) := inferInstanceAs (Decidable (_ = _))

/-- Six digits, with a power of ten, are the value. -/
def HasSixDigits (v : K) : Prop := ∃ n k : ℤ, |n| < 10 ^ 6 ∧ v = n * 10 ^ k

end Numbers

/-! ## Expressions -/

/-- The calls of `Expression::citerate_all`. -/
inductive Visit (K : Type) where
  | constant (v : K)
  | variable (uservalue : UInt64)
  | preOp (kind : Kind)
  | postOp

section Visits

variable {K : Type}

mutual
def citerateAll : Expression K → List (Visit K)
  | .constant v => [.constant v]
  | .subexpression linked => citerateAll linked
  | .var uservalue => [.variable uservalue]
  | .op kind args => .preOp kind :: (citerateAllArgs args ++ [.postOp])

def citerateAllArgs : List (Expression K) → List (Visit K)
  | [] => []
  | arg :: args => citerateAll arg ++ citerateAllArgs args
end

end Visits

/-- What stands in front of the arguments, and between them. -/
def opening : Kind → List Char × List Char
  | .sum => (['('], ['+'])
  | .sub => (['('], ['-'])
  | .neg => (['-', '('], ['!', '!', '!'])
  | .prod => (['('], ['*'])
  | .div => (['('], ['/'])
  | .pow => (['('], ['^'])
  | .sqrt => (['s', 'q', 'r', 't', '('], ['!', '!', '!'])
  | .log => (['l', 'o', 'g', '('], [','])
  | .ln => (['l', 'n', '('], ['!', '!', '!'])
  | .min => (['m', 'i', 'n', '('], [','])
  | .max => (['m', 'a', 'x', '('], [','])
  | .floor => (['f', 'l', 'o', 'o', 'r', '('], ['!', '!', '!'])
  | .ceil => (['c', 'e', 'i', 'l', '('], ['!', '!', '!'])

/-- The variables of `accumulateFormulaString`, with the tops of its stacks in front. -/
structure Writer where
  ss : List Char
  first : List Bool
  fixes : List (List Char)

/-- `if(!first.top()) ss << infix.top(); first.top() = false; ss << text` -/
def Writer.write (w : Writer) (text : List Char) : Writer :=
  match w.first, w.fixes with
  | first :: outer, fix :: _ =>
    { w with ss := w.ss ++ ((if first then [] else fix) ++ text), first := false :: outer }
  | _, _ => w

section Texts

variable {K : Type} [Field K] [LinearOrder K] [FloorRing K]

def Writer.visit (w : Writer) : Visit K → Writer
  | .constant v => w.write (streamed v).text
  | .variable _ => w.write ['$', '$']
  | .preOp kind =>
    let w := w.write (opening kind).1
    { w with first := true :: w.first, fixes := (opening kind).2 :: w.fixes }
  | .postOp => ⟨w.ss ++ [')'], w.first.tail, w.fixes.tail⟩

def accumulateFormulaString (e : Expression K) : List Char :=
  ((citerateAll e).foldl Writer.visit ⟨[], [true], [['!', '!', '!']]⟩).ss

/-! ## The text of an expression -/

/-- Texts with something between them. -/
def joined (fix : List Char) : List (List Char) → List Char
  | [] => []
  | text :: texts => text ++ texts.flatMap (fix ++ ·)

mutual
/-- What becomes of an expression, whatever it is a part of. -/
def render : Expression K → List Char
  | .constant v => (streamed v).text
  | .subexpression linked => render linked
  | .var _ => ['$', '$']
  | .op kind args => (opening kind).1 ++ (joined (opening kind).2 (renderArgs args) ++ [')'])

def renderArgs : List (Expression K) → List (List Char)
  | [] => []
  | arg :: args => render arg :: renderArgs args
end

lemma renderArgs_eq (args : List (Expression K)) : renderArgs args = args.map render := by
  induction args with
  | nil => rfl
  | cons arg args ih => rw [renderArgs, ih, map_cons]

lemma visits_render (e : Expression K) (ss fix : List Char) (first : Bool) (outer : List Bool)
    (fixes : List (List Char)) :
    (citerateAll e).foldl Writer.visit ⟨ss, first :: outer, fix :: fixes⟩ =
      ⟨ss ++ ((if first then [] else fix) ++ render e), false :: outer, fix :: fixes⟩ := by
  induction e using Expression.inductionOn generalizing ss fix first outer fixes with
  | constant v => rfl
  | subexpression linked ih => exact ih ..
  | var uservalue => rfl
  | op kind args ih =>
    have more (args : List (Expression K)) (each : ∀ arg ∈ args, ∀ (ss fix : List Char) (first : Bool)
          (outer : List Bool) (fixes : List (List Char)),
        (citerateAll arg).foldl Writer.visit ⟨ss, first :: outer, fix :: fixes⟩ =
          ⟨ss ++ ((if first then [] else fix) ++ render arg), false :: outer, fix :: fixes⟩)
        (ss fix : List Char) (outer : List Bool) (fixes : List (List Char)) :
        (citerateAllArgs args).foldl Writer.visit ⟨ss, false :: outer, fix :: fixes⟩ =
          ⟨ss ++ (args.map render).flatMap (fix ++ ·), false :: outer, fix :: fixes⟩ := by
      induction args generalizing ss with
      | nil => simp [citerateAllArgs]
      | cons arg args later =>
        rw [citerateAllArgs, foldl_append, each arg mem_cons_self,
          later fun arg member => each arg (mem_cons_of_mem _ member)]
        simp
    rw [citerateAll, render, renderArgs_eq]
    cases args with
    | nil => simp [citerateAllArgs, Writer.visit, Writer.write, joined]
    | cons arg args =>
      rw [citerateAllArgs, foldl_cons, foldl_append, foldl_append]
      have start : Writer.visit (K := K) ⟨ss, first :: outer, fix :: fixes⟩ (.preOp kind) =
          ⟨ss ++ ((if first then [] else fix) ++ (opening kind).1), true :: false :: outer,
            (opening kind).2 :: fix :: fixes⟩ := rfl
      rw [start, ih arg mem_cons_self, more args fun arg member => ih arg (mem_cons_of_mem _ member)]
      simp [Writer.visit, joined]

lemma accumulateFormulaString_eq (e : Expression K) : accumulateFormulaString e = render e := by
  rw [accumulateFormulaString, visits_render]
  rfl

end Texts

end HpcToolkit.MetaDb
