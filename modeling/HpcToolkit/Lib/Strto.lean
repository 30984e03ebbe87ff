import Mathlib.Algebra.Group.Nat.Defs
import Mathlib.Data.List.TakeWhile
import Mathlib.Order.MinMax
import Mathlib.Tactic.Common
import Mathlib.Tactic.IntervalCases

/-! # Integers as text in C

The conversions of the `strtol` family skip blanks, take a sign and a prefix, and go on as far as there are digits of the
base. A number out of range is replaced by the nearest one in range. A number that is printed in base 16 is read back
in front of any text that does not start with a letter or a digit.
-/

open List

namespace HpcToolkit.Lib.Strto

def isSpace (c : Char) : Bool := c ∈ [' ', '\t', '\n', '\r', '\x0b', '\x0c']

/-- The value of a digit or a letter. -/
def digitValue (c : Char) : ℕ :=
  if '0' ≤ c ∧ c ≤ '9' then c.toNat - '0'.toNat
  else if 'a' ≤ c ∧ c ≤ 'z' then c.toNat - 'a'.toNat + 10
  else if 'A' ≤ c ∧ c ≤ 'Z' then c.toNat - 'A'.toNat + 10
  else 36

def isDigitOf (base : ℕ) (c : Char) : Bool := digitValue c < base

def digitsValue (base : ℕ) (digits : List Char) : ℕ := digits.foldl (fun n c => n * base + digitValue c) 0

def readSign : List Char → Bool × List Char
  | '+' :: s => (false, s)
  | '-' :: s => (true, s)
  | s => (false, s)

/-- The text behind the prefix of base 16, which counts only in front of a digit. -/
def skipPrefix : List Char → Option (List Char)
  | '0' :: x :: c :: s => if (x = 'x' ∨ x = 'X') ∧ isDigitOf 16 c then some (c :: s) else none
  | _ => none

/-- The base of the digits and the text from them on. -/
def chooseBase (base : ℕ) (s : List Char) : ℕ × List Char :=
  match if base = 0 ∨ base = 16 then skipPrefix s else none with
  | some s => (16, s)
  | none => (if base = 0 then if s.head? = some '0' then 8 else 10 else base, s)

/-- The sign, the magnitude and the text behind the digits. -/
def scan (base : ℕ) (s : List Char) : Option (Bool × ℕ × List Char) :=
  let (negative, s) := readSign (s.dropWhile isSpace)
  let (base, s) := chooseBase base s
  let digits := s.takeWhile (isDigitOf base)
  if digits = [] then none
  else some (negative, digitsValue base digits, s.dropWhile (isDigitOf base))

/-- What is stored: the value, the end, and whether `errno` is set to `ERANGE`. -/
structure Converted (α : Type) where
  value : α
  endptr : List Char
  erange : Bool

def strtoull (base : ℕ) (s : List Char) : Converted ℕ :=
  match scan base s with
  | none => ⟨0, s, false⟩
  | some (negative, n, rest) =>
    if 2 ^ 64 ≤ n then ⟨2 ^ 64 - 1, rest, true⟩
    else ⟨if negative then (2 ^ 64 - n) % 2 ^ 64 else n, rest, false⟩

def strtoll (base : ℕ) (s : List Char) : Converted ℤ :=
  match scan base s with
  | none => ⟨0, s, false⟩
  | some (true, n, rest) => if 2 ^ 63 < n then ⟨-2 ^ 63, rest, true⟩ else ⟨-n, rest, false⟩
  | some (false, n, rest) => if 2 ^ 63 ≤ n then ⟨2 ^ 63 - 1, rest, true⟩ else ⟨n, rest, false⟩

/-- `%#lx` -/
def hex (n : ℕ) : List Char := if n = 0 then ['0'] else '0' :: 'x' :: Nat.toDigits 16 n

/-! ## Reading back -/

lemma digitValue_digitChar {d : ℕ} (small : d < 16) : digitValue d.digitChar = d := by
  interval_cases d <;> rfl

lemma isDigitOf_digitChar {d : ℕ} (small : d < 16) : isDigitOf 16 d.digitChar = true := by
  rw [isDigitOf, digitValue_digitChar small, decide_eq_true_eq]
  exact small

lemma isDigitOf_of_mem_toDigits (n : ℕ) : ∀ c ∈ Nat.toDigits 16 n, isDigitOf 16 c = true := by
  induction n using Nat.strongRecOn with
  | ind n ih =>
    intro c member
    by_cases small : n < 16
    · rw [Nat.toDigits_of_lt_base small, mem_singleton] at member
      exact member ▸ isDigitOf_digitChar small
    · rw [Nat.toDigits_of_base_le (by decide) (not_lt.mp small), mem_append, mem_singleton] at member
      rcases member with member | rfl
      · exact ih (n / 16) (Nat.div_lt_self (by omega) (by decide)) c member
      · exact isDigitOf_digitChar (Nat.mod_lt n (by decide))

lemma digitsValue_toDigits (n : ℕ) : digitsValue 16 (Nat.toDigits 16 n) = n := by
  induction n using Nat.strongRecOn with
  | ind n ih =>
    by_cases small : n < 16
    · rw [Nat.toDigits_of_lt_base small, digitsValue, foldl_cons, foldl_nil, digitValue_digitChar small]
      omega
    · rw [Nat.toDigits_of_base_le (by decide) (not_lt.mp small), digitsValue, foldl_append, ← digitsValue,
        ih (n / 16) (Nat.div_lt_self (by omega) (by decide)), foldl_cons, foldl_nil,
        digitValue_digitChar (Nat.mod_lt n (by decide))]
      omega

/-- No letter and no digit comes first. -/
def Delimited (s : List Char) : Prop := ∀ c ∈ s.head?, digitValue c = 36

variable {base : ℕ}

lemma takeWhile_dropWhile_digits {digits s : List Char} (all : ∀ c ∈ digits, isDigitOf base c = true)
    (small : base ≤ 36) (delimited : Delimited s) :
    (digits ++ s).takeWhile (isDigitOf base) = digits ∧ (digits ++ s).dropWhile (isDigitOf base) = s := by
  have stop : s.takeWhile (isDigitOf base) = [] ∧ s.dropWhile (isDigitOf base) = s := by
    cases s with
    | nil => exact ⟨rfl, rfl⟩
    | cons c s =>
      have other : isDigitOf base c = false := by
        rw [isDigitOf, delimited c rfl, decide_eq_false_iff_not]
        omega
      rw [takeWhile_cons, dropWhile_cons, other]
      exact ⟨rfl, rfl⟩
  rw [takeWhile_append_of_pos all, dropWhile_append_of_pos all, stop.1, stop.2, append_nil]
  exact ⟨rfl, rfl⟩

lemma toDigits_cons (n : ℕ) : ∃ c digits, Nat.toDigits 16 n = c :: digits ∧ isDigitOf 16 c = true := by
  obtain ⟨c, digits, same⟩ := exists_cons_of_ne_nil (Nat.toDigits_ne_nil : Nat.toDigits 16 n ≠ [])
  exact ⟨c, digits, same, isDigitOf_of_mem_toDigits n c (same ▸ mem_cons_self)⟩

lemma chooseBase_hex {base n : ℕ} (either : base = 0 ∨ base = 16) (nonzero : n ≠ 0) (s : List Char) :
    chooseBase base (hex n ++ s) = (16, Nat.toDigits 16 n ++ s) := by
  obtain ⟨c, digits, same, digit⟩ := toDigits_cons n
  rw [chooseBase, if_pos either, hex, if_neg nonzero, same]
  simp [skipPrefix, digit]

variable {s : List Char}

lemma chooseBase_zero (either : base = 0 ∨ base = 16) (delimited : Delimited s) :
    chooseBase base ('0' :: s) = (if base = 0 then 8 else 16, '0' :: s) := by
  have bare : skipPrefix ('0' :: s) = none := by
    match s with
    | [] => rfl
    | [x] => rfl
    | x :: c :: s =>
      have other := delimited x rfl
      refine if_neg ?_
      rintro ⟨rfl | rfl, -⟩
      · exact absurd other (by decide)
      · exact absurd other (by decide)
  rw [chooseBase, if_pos either, bare]
  rcases either with rfl | rfl
  · rfl
  · rfl

lemma readSign_hex (n : ℕ) (s : List Char) : readSign ((hex n ++ s).dropWhile isSpace) = (false, hex n ++ s) := by
  rw [hex]
  split <;> rfl

lemma scan_hex (either : base = 0 ∨ base = 16) (n : ℕ) (delimited : Delimited s) :
    scan base (hex n ++ s) = some (false, n, s) := by
  rw [scan, readSign_hex]
  dsimp only
  by_cases zero : n = 0
  · subst zero
    have small : (if base = 0 then 8 else 16) ≤ 36 := by split <;> decide
    have digit : ∀ c ∈ ['0'], isDigitOf (if base = 0 then 8 else 16) c = true := by
      intro c member
      rw [mem_singleton.mp member]
      rcases either with rfl | rfl <;> rfl
    obtain ⟨taken, left⟩ := takeWhile_dropWhile_digits digit small delimited
    rw [singleton_append] at taken left
    have text : hex 0 ++ s = '0' :: s := rfl
    rw [text, chooseBase_zero either delimited]
    simp only [taken, left]
    rcases either with rfl | rfl <;> rfl
  · obtain ⟨taken, left⟩ := takeWhile_dropWhile_digits (isDigitOf_of_mem_toDigits n) (by decide) delimited
    rw [chooseBase_hex either zero]
    simp only [taken, left, digitsValue_toDigits, Nat.toDigits_ne_nil, if_false]

lemma strtoull_hex (either : base = 0 ∨ base = 16) {n : ℕ} (bound : n < 2 ^ 64)
    (delimited : Delimited s) : strtoull base (hex n ++ s) = ⟨n, s, false⟩ := by
  rw [strtoull, scan_hex either n delimited]
  exact if_neg (not_le.mpr bound)

lemma strtoll_hex (either : base = 0 ∨ base = 16) (n : ℕ) (delimited : Delimited s) :
    strtoll base (hex n ++ s) = ⟨min n (2 ^ 63 - 1), s, decide (2 ^ 63 ≤ n)⟩ := by
  rw [strtoll, scan_hex either n delimited]
  dsimp only
  split
  · rename_i large
    rw [min_eq_right (by omega), decide_eq_true large]
  · rename_i small
    rw [min_eq_left (by omega), decide_eq_false small]

end HpcToolkit.Lib.Strto
