import Mathlib.Algebra.Group.Nat.Defs
import Mathlib.Data.List.TakeWhile
import Mathlib.Tactic.Common

/-! # The tokens of metric formulas

What a formatted extraction takes from a stream in the classic locale: blanks in front of it, and then as many
characters as can be the beginning of a number. The conversion fails unless it can use all of these.
-/

open List

namespace HpcToolkit.Sources.Formula

def isBlank (c : Char) : Bool := c ∈ [' ', '\t', '\n', '\r', '\x0b', '\x0c']

/-- `std::istream::sentry` -/
def skipBlanks (s : List Char) : List Char := s.dropWhile isBlank

def Blanks (b : List Char) : Prop := ∀ c ∈ b, isBlank c

def readSign : List Char → Option Char × List Char
  | '+' :: s => (some '+', s)
  | '-' :: s => (some '-', s)
  | s => (none, s)

def readDigits (s : List Char) : List Char × List Char := (s.takeWhile Char.isDigit, s.dropWhile Char.isDigit)

/-- The parts of a number with an optional point and an optional exponent. -/
structure Decimal where
  sign : Option Char
  whole : List Char
  point : Option (List Char)
  exponent : Option (Char × Option Char × List Char)

/-- The digits of `s >> id`. -/
structure Unsigned where
  sign : Option Char
  digits : List Char

def pointText : Option (List Char) → List Char
  | none => []
  | some digits => '.' :: digits

def exponentText : Option (Char × Option Char × List Char) → List Char
  | none => []
  | some (letter, sign, digits) => letter :: (sign.toList ++ digits)

def Decimal.text (x : Decimal) : List Char :=
  x.sign.toList ++ (x.whole ++ (pointText x.point ++ exponentText x.exponent))

def Unsigned.text (x : Unsigned) : List Char := x.sign.toList ++ x.digits

def readPoint : List Char → Option (List Char) × List Char
  | '.' :: s => ((readDigits s).1, (readDigits s).2)
  | s => (none, s)

def readExponent : List Char → Option (Char × Option Char × List Char) × List Char
  | [] => (none, [])
  | c :: s =>
    if c = 'e' ∨ c = 'E' then
      let (sign, s) := readSign s
      let (digits, s) := readDigits s
      (some (c, sign, digits), s)
    else (none, c :: s)

/-- The characters that `s >> val` accumulates for a `double`: an exponent only behind a digit. -/
def readDecimal (s : List Char) : Decimal × List Char :=
  let (sign, s) := readSign s
  let (whole, s) := readDigits s
  let (point, s) := readPoint s
  if whole = [] ∧ point.getD [] = [] then (⟨sign, whole, point, none⟩, s)
  else
    let (exponent, s) := readExponent s
    (⟨sign, whole, point, exponent⟩, s)

def readUnsigned (s : List Char) : Unsigned × List Char :=
  let (sign, s) := readSign s
  let (digits, s) := readDigits s
  (⟨sign, digits⟩, s)

/-- A digit, and digits behind the letter of an exponent. -/
def Decimal.Complete (x : Decimal) : Prop :=
  (x.whole ≠ [] ∨ x.point.getD [] ≠ []) ∧ ∀ e ∈ x.exponent, e.2.2 ≠ []

instance (x : Decimal) : Decidable x.Complete := by
  unfold Decimal.Complete
  infer_instance

def digitsValue (digits : List Char) : ℕ := digits.foldl (fun n c => n * 10 + (c.toNat - '0'.toNat)) 0

/-- The number in 32 bits; a minus is applied there, as `strtoull` does. -/
def Unsigned.value (x : Unsigned) : Option UInt32 :=
  if x.digits = [] ∨ 2 ^ 32 ≤ digitsValue x.digits then none
  else some (if x.sign = some '-' then -.ofNat (digitsValue x.digits) else .ofNat (digitsValue x.digits))

/-! ## What is read is the text in front -/

section
variable (s : List Char)

lemma readSign_text : s = (readSign s).1.toList ++ (readSign s).2 := by
  unfold readSign
  split <;> rfl

lemma readDigits_text : s = (readDigits s).1 ++ (readDigits s).2 :=
  takeWhile_append_dropWhile.symm

lemma readPoint_text : s = pointText (readPoint s).1 ++ (readPoint s).2 := by
  unfold readPoint
  split
  · rename_i s
    exact congrArg ('.' :: ·) (readDigits_text s)
  · rfl

lemma readExponent_text : s = exponentText (readExponent s).1 ++ (readExponent s).2 := by
  cases s with
  | nil => rfl
  | cons c s =>
    rw [readExponent]
    split
    · change c :: s = c :: ((readSign s).1.toList ++ (readDigits (readSign s).2).1) ++ (readDigits (readSign s).2).2
      rw [cons_append, append_assoc, ← readDigits_text, ← readSign_text]
    · rfl

lemma readDecimal_text : s = (readDecimal s).1.text ++ (readDecimal s).2 := by
  have sign := readSign_text s
  have whole := readDigits_text (readSign s).2
  have point := readPoint_text (readDigits (readSign s).2).2
  have exponent := readExponent_text (readPoint (readDigits (readSign s).2).2).2
  rw [readDecimal]
  dsimp only
  split
  · simp only [Decimal.text, exponentText, append_nil, append_assoc]
    rw [← point, ← whole, ← sign]
  · simp only [Decimal.text, append_assoc]
    rw [← exponent, ← point, ← whole, ← sign]

lemma readUnsigned_text : s = (readUnsigned s).1.text ++ (readUnsigned s).2 := by
  change s = (readSign s).1.toList ++ (readDigits (readSign s).2).1 ++ (readDigits (readSign s).2).2
  rw [append_assoc, ← readDigits_text, ← readSign_text]

end

/-! ## What is read is as long as it can be -/

/-- What the first character of a text is, if there is one. -/
def Heads (p : Char → Prop) (s : List Char) : Prop := ∀ c ∈ s.head?, p c

def IsSign (c : Char) : Prop := c = '+' ∨ c = '-'

def IsLetter (c : Char) : Prop := c = 'e' ∨ c = 'E'

/-- A number ends in front of the text. -/
def Delimited (s : List Char) : Prop := Heads (fun c => ¬ c.isDigit ∧ c ≠ '.' ∧ ¬ IsLetter c) s

/-- The characters of each part are such as can stand there. -/
structure Decimal.Form (x : Decimal) : Prop where
  sign : ∀ c ∈ x.sign, IsSign c
  whole : ∀ c ∈ x.whole, c.isDigit
  point : ∀ digits ∈ x.point, ∀ c ∈ digits, c.isDigit
  exponent : ∀ e ∈ x.exponent, IsLetter e.1 ∧ (∀ c ∈ e.2.1, IsSign c) ∧ ∀ c ∈ e.2.2, c.isDigit

structure Unsigned.Form (x : Unsigned) : Prop where
  sign : ∀ c ∈ x.sign, IsSign c
  digits : ∀ c ∈ x.digits, c.isDigit

section
variable (s : List Char)

lemma readSign_form : ∀ c ∈ (readSign s).1, IsSign c := by
  unfold readSign
  split
  · rintro _ ⟨⟩
    exact .inl rfl
  · rintro _ ⟨⟩
    exact .inr rfl
  · nofun

lemma readDigits_form : ∀ c ∈ (readDigits s).1, c.isDigit :=
  fun _ inside => mem_takeWhile_imp inside

lemma readPoint_form : ∀ digits ∈ (readPoint s).1, ∀ c ∈ digits, c.isDigit := by
  unfold readPoint
  split
  · rintro _ ⟨⟩
    exact readDigits_form _
  · nofun

lemma readExponent_form :
    ∀ e ∈ (readExponent s).1, IsLetter e.1 ∧ (∀ c ∈ e.2.1, IsSign c) ∧ ∀ c ∈ e.2.2, c.isDigit := by
  cases s with
  | nil => nofun
  | cons c s =>
    rw [readExponent]
    split
    · rename_i letter
      rintro _ ⟨⟩
      exact ⟨letter, readSign_form _, readDigits_form _⟩
    · nofun

lemma readDecimal_form : (readDecimal s).1.Form := by
  rw [readDecimal]
  dsimp only
  split
  · exact ⟨readSign_form _, readDigits_form _, readPoint_form _, nofun⟩
  · exact ⟨readSign_form _, readDigits_form _, readPoint_form _, readExponent_form _⟩

lemma readUnsigned_form : (readUnsigned s).1.Form := ⟨readSign_form _, readDigits_form _⟩

end

variable {s : List Char}

lemma readSign_append {sign : Option Char} (form : ∀ c ∈ sign, IsSign c)
    (next : sign = none → Heads (fun c => ¬ IsSign c) s) : readSign (sign.toList ++ s) = (sign, s) := by
  cases sign with
  | none =>
    cases s with
    | nil => rfl
    | cons c s =>
      have plain : ¬ IsSign c := next rfl c rfl
      change readSign (c :: s) = (none, c :: s)
      unfold readSign
      split
      · rename_i same
        cases same
        exact absurd (.inl rfl) plain
      · rename_i same
        cases same
        exact absurd (.inr rfl) plain
      · rfl
  | some c =>
    rcases form c rfl with rfl | rfl
    · rfl
    · rfl

lemma readDigits_append {digits s : List Char} (form : ∀ c ∈ digits, c.isDigit)
    (next : Heads (fun c => ¬ c.isDigit) s) : readDigits (digits ++ s) = (digits, s) := by
  have stops : s.takeWhile Char.isDigit = [] ∧ s.dropWhile Char.isDigit = s := by
    cases s with
    | nil => exact ⟨rfl, rfl⟩
    | cons c s =>
      have plain : ¬ c.isDigit := next c rfl
      exact ⟨takeWhile_cons_of_neg plain, dropWhile_cons_of_neg plain⟩
  rw [readDigits, takeWhile_append_of_pos form, dropWhile_append_of_pos form, stops.1, stops.2,
    append_nil]

lemma readPoint_append {point : Option (List Char)} (form : ∀ digits ∈ point, ∀ c ∈ digits, c.isDigit)
    (next : Heads (fun c => ¬ c.isDigit ∧ c ≠ '.') s) : readPoint (pointText point ++ s) = (point, s) := by
  cases point with
  | none =>
    change readPoint s = (none, s)
    unfold readPoint
    split
    · exact absurd rfl (next '.' rfl).2
    · rfl
  | some digits =>
    change (some (readDigits (digits ++ s)).1, (readDigits (digits ++ s)).2) = _
    rw [readDigits_append (form digits rfl) fun c first => (next c first).1]

lemma not_sign_of_digit {c : Char} (digit : c.isDigit) : ¬ IsSign c := by
  rintro (rfl | rfl) <;> exact absurd digit (by decide)

lemma readExponent_append {exponent : Option (Char × Option Char × List Char)}
    (form : ∀ e ∈ exponent, IsLetter e.1 ∧ (∀ c ∈ e.2.1, IsSign c) ∧ ∀ c ∈ e.2.2, c.isDigit)
    (complete : ∀ e ∈ exponent, e.2.2 ≠ []) (next : Heads (fun c => ¬ c.isDigit ∧ ¬ IsLetter c) s) :
    readExponent (exponentText exponent ++ s) = (exponent, s) := by
  cases exponent with
  | none =>
    cases s with
    | nil => rfl
    | cons c s => exact if_neg (next c rfl).2
  | some e =>
    obtain ⟨letter, sign, digits⟩ := e
    obtain ⟨isLetter, isSign, areDigits⟩ :
      (letter = 'e' ∨ letter = 'E') ∧ (∀ c ∈ sign, IsSign c) ∧ ∀ c ∈ digits, c.isDigit := form _ rfl
    obtain ⟨d, ds, rfl⟩ := exists_cons_of_ne_nil (complete _ rfl)
    have signs : readSign (sign.toList ++ (d :: ds ++ s)) = (sign, d :: ds ++ s) := by
      refine readSign_append isSign fun _ c first => ?_
      cases first
      exact not_sign_of_digit (areDigits d mem_cons_self)
    have digits := readDigits_append areDigits fun c first => (next c first).1
    rw [exponentText, cons_append, append_assoc, readExponent, if_pos isLetter]
    simp only [signs, digits]

lemma heads_append {q : Char → Prop} {s t : List Char} (first : Heads q s) (second : Heads q t) :
    Heads q (s ++ t) := by
  cases s with
  | nil => exact second
  | cons c s => exact first

lemma readDecimal_append {x : Decimal} (form : x.Form) (complete : x.Complete) (next : Delimited s) :
    readDecimal (x.text ++ s) = (x, s) := by
  obtain ⟨sign, whole, point, exponent⟩ := x
  have letters : Heads (fun c => ¬ c.isDigit ∧ c ≠ '.') (exponentText exponent) := by
    cases exponent with
    | none => nofun
    | some e =>
      rintro c ⟨⟩
      rcases (form.exponent e rfl).1 with same | same
      · exact ⟨by rw [same]; decide, by rw [same]; decide⟩
      · exact ⟨by rw [same]; decide, by rw [same]; decide⟩
  have behindPoint : Heads (fun c => ¬ c.isDigit ∧ c ≠ '.') (exponentText exponent ++ s) :=
    heads_append letters fun c first => ⟨(next c first).1, (next c first).2.1⟩
  have behindWhole : Heads (fun c => ¬ c.isDigit) (pointText point ++ (exponentText exponent ++ s)) := by
    cases point with
    | none => exact fun c first => (behindPoint c first).1
    | some digits =>
      rintro c ⟨⟩
      decide
  have behindSign : Heads (fun c => ¬ IsSign c) (whole ++ (pointText point ++ (exponentText exponent ++ s))) := by
    cases whole with
    | cons d whole =>
      rintro c ⟨⟩
      exact not_sign_of_digit (form.whole d mem_cons_self)
    | nil =>
      cases point with
      | none => exact absurd rfl (complete.1.resolve_left (absurd rfl))
      | some digits =>
        rintro c ⟨⟩
        exact not_or.mpr ⟨by decide, by decide⟩
  have text : Decimal.text ⟨sign, whole, point, exponent⟩ ++ s =
      sign.toList ++ (whole ++ (pointText point ++ (exponentText exponent ++ s))) := by
    simp only [Decimal.text, append_assoc]
  rw [text, readDecimal, readSign_append form.sign fun _ => behindSign]
  simp only [readDigits_append form.whole behindWhole, readPoint_append form.point behindPoint]
  rw [if_neg fun empty => complete.1.elim (absurd empty.1) (absurd empty.2),
    readExponent_append form.exponent complete.2 fun c first => ⟨(next c first).1, (next c first).2.2⟩]

lemma readUnsigned_append {x : Unsigned} (form : x.Form) (some_digit : x.digits ≠ [])
    (next : Heads (fun c => ¬ c.isDigit) s) : readUnsigned (x.text ++ s) = (x, s) := by
  obtain ⟨sign, digits⟩ := x
  obtain ⟨d, ds, rfl⟩ := exists_cons_of_ne_nil some_digit
  have behindSign : Heads (fun c => ¬ IsSign c) (d :: ds ++ s) := by
    rintro c ⟨⟩
    exact not_sign_of_digit (form.digits d mem_cons_self)
  rw [Unsigned.text, append_assoc, readUnsigned, readSign_append form.sign fun _ => behindSign]
  simp only [readDigits_append form.digits next]

end HpcToolkit.Sources.Formula
