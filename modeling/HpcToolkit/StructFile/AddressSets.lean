import HpcToolkit.HpcStruct.VMAIntervalSet
import HpcToolkit.Lib.Strto
import HpcToolkit.Util.Interval

/-! # Address sets in structure files

A set of address intervals is written with both ends of each in base 16. One reader takes the ends for unsigned numbers,
the other for signed ones.
-/

open List hiding set

namespace HpcToolkit.StructFile

open HpcStruct Lib.Strto

abbrev VMA := Fin (2 ^ 64)

def intervalToString (x : VMAInterval VMA) : List Char :=
  '[' :: (hex x.mBeg.val ++ '-' :: (hex x.mEnd.val ++ [')']))

def setToString (set : VMAIntervalSet VMA) : List Char :=
  (set.foldl (fun (self, needSeparator) it =>
    ((if needSeparator then self ++ [' '] else self) ++ intervalToString it, true)) (['{'], false)).1 ++ ['}']

/-! ## The reader of `hpcstruct` -/

/-- A number as `uint64_t`. -/
def toVMA (n : ℕ) : VMA := ⟨n % 2 ^ 64, Nat.mod_lt _ (by decide)⟩

lemma toVMA_val (a : VMA) : toVMA a.val = a := Fin.ext (Nat.mod_eq_of_lt a.isLt)

/-- `StrUtil::toUInt64` with an end index; it throws if the conversion has set `errno`. -/
def toUInt64 (str : List Char) : Option (VMA × List Char) :=
  if str = [] then none
  else
    let converted := strtoull 0 str
    if converted.erange then none
    else some (toVMA converted.value, converted.endptr)

/-- `VMAInterval::fromString`; a text of blanks, which leaves the interval unset, does not occur. -/
def intervalFromString (formattedstr : List Char) : Option (VMAInterval VMA) :=
  match formattedstr.dropWhile isSpace with
  | '[' :: p =>
    match toUInt64 p with
    | some (mBeg, '-' :: p) =>
      match toUInt64 p with
      | some (mEnd, ')' :: _) => some ⟨mBeg, mEnd⟩
      | _ => none
    | _ => none
  | _ => none

/-- The loop of `VMAIntervalSet::fromString` from `q` on: the set and the text behind the last interval. -/
def readIntervals : ℕ → VMAIntervalSet VMA → List Char → Option (VMAIntervalSet VMA × List Char)
  | 0, _, _ => none
  | fuel + 1, set, q =>
    match q.dropWhile (· ≠ '[') with
    | [] => some (set, q)
    | c :: p =>
      match intervalFromString (c :: p) with
      | none => none
      | some vmaint => readIntervals fuel (set.insert vmaint) (((c :: p).dropWhile (· ≠ ')')).drop 1)

def setFromString (set : VMAIntervalSet VMA) (formattedstr : List Char) : Option (VMAIntervalSet VMA) :=
  match formattedstr with
  | [] => some set
  | '{' :: p =>
    match readIntervals formattedstr.length set p with
    | some (set, '}' :: _) => some set
    | _ => none
  | _ => none

/-! ## The reader of `hpcprof` -/

inductive ParseError where
  | outOfRange
  | invalidArgument (what : String)
  | unfinished
deriving DecidableEq

/-- `long long` to `uint64_t`. -/
def toAddress (v : ℤ) : ℕ := (v % 2 ^ 64).toNat

/-- The loop of `parseVs`. -/
def parseSegments : ℕ → List (Util.Interval ℕ) → List Char → Except ParseError (List (Util.Interval ℕ))
  | 0, _, _ => .error .unfinished
  | fuel + 1, vals, c =>
    match c with
    | [] => .error (.invalidArgument "Bad VMA description: bad segment opening")
    | first :: c =>
      if first = '}' then .ok vals
      else if isSpace first then parseSegments fuel vals c
      else if first ≠ '[' then .error (.invalidArgument "Bad VMA description: bad segment opening")
      else
        let lo := strtoll 16 c
        match lo.endptr with
        | '-' :: c =>
          let hi := strtoll 16 c
          match hi.endptr with
          | ')' :: c => parseSegments fuel (vals ++ [.of (toAddress lo.value) (toAddress hi.value)]) c
          | _ => .error (.invalidArgument "Bad VMA description: bad segment closing")
        | _ => .error (.invalidArgument "Bad VMA description: bad segment middle")

def parseVs (vs : List Char) : Except ParseError (List (Util.Interval ℕ)) :=
  match vs with
  | [] => .error .outOfRange
  | first :: rest =>
    if first ≠ '{' ∨ vs.length < 2 then .error (.invalidArgument "Bad VMA description: bad start")
    else parseSegments vs.length [] rest

/-! ## Reading what was written -/

variable {set : VMAIntervalSet VMA} {x : VMAInterval VMA} {s : List Char}

/-- The intervals that follow another one. -/
def followers (set : VMAIntervalSet VMA) : List Char := set.flatMap fun x => ' ' :: intervalToString x

lemma setToString_cons (x : VMAInterval VMA) (set : VMAIntervalSet VMA) :
    setToString (x :: set) = '{' :: (intervalToString x ++ (followers set ++ ['}'])) := by
  suffices general : ∀ self : List Char, (set.foldl (fun (self, needSeparator) it =>
      ((if needSeparator then self ++ [' '] else self) ++ intervalToString it, true)) (self, true)).1 =
      self ++ followers set by
    rw [setToString, foldl_cons]
    refine (congrArg (· ++ ['}']) (general (['{'] ++ intervalToString x))).trans ?_
    simp
  induction set with
  | nil => exact fun self => (append_nil self).symm
  | cons y set ih =>
    intro self
    refine (ih ((self ++ [' ']) ++ intervalToString y)).trans ?_
    simp [followers]

lemma delimited_dash (s : List Char) : Delimited ('-' :: s) := by
  rintro c ⟨⟩
  rfl

lemma delimited_close (s : List Char) : Delimited (')' :: s) := by
  rintro c ⟨⟩
  rfl

lemma toUInt64_hex (a : VMA) (delimited : Delimited s) : toUInt64 (hex a.val ++ s) = some (a, s) := by
  have nonempty : hex a.val ++ s ≠ [] := by
    rw [hex]
    split <;> simp
  rw [toUInt64, if_neg nonempty, strtoull_hex (.inl rfl) a.isLt delimited]
  simp only [Bool.false_eq_true, if_false, toVMA_val]

lemma intervalFromString_append (x : VMAInterval VMA) (s : List Char) :
    intervalFromString (intervalToString x ++ s) = some x := by
  have text : intervalToString x ++ s = '[' :: (hex x.mBeg.val ++ '-' :: (hex x.mEnd.val ++ ')' :: s)) := by
    simp [intervalToString]
  have bracket : ('[' :: (hex x.mBeg.val ++ '-' :: (hex x.mEnd.val ++ ')' :: s))).dropWhile isSpace =
      '[' :: (hex x.mBeg.val ++ '-' :: (hex x.mEnd.val ++ ')' :: s)) := rfl
  rw [intervalFromString, text, bracket]
  simp only [toUInt64_hex x.mBeg (delimited_dash _), toUInt64_hex x.mEnd (delimited_close _)]

lemma ne_close_of_mem_hex {n : ℕ} {c : Char} (member : c ∈ hex n) : c ≠ ')' := by
  rintro rfl
  rw [hex] at member
  split at member
  · simp at member
  · rcases mem_cons.mp member with same | member
    · exact absurd same (by decide)
    · rcases mem_cons.mp member with same | member
      · exact absurd same (by decide)
      · exact absurd (isDigitOf_of_mem_toDigits n _ member) (by decide)

lemma dropWhile_intervalToString (x : VMAInterval VMA) (s : List Char) :
    (intervalToString x ++ s).dropWhile (· ≠ ')') = ')' :: s := by
  have text : intervalToString x ++ s = ('[' :: (hex x.mBeg.val ++ '-' :: hex x.mEnd.val)) ++ ')' :: s := by
    simp [intervalToString]
  have all : ∀ c ∈ '[' :: (hex x.mBeg.val ++ '-' :: hex x.mEnd.val), (decide (c ≠ ')')) = true := by
    intro c member
    rw [decide_eq_true_eq]
    rcases mem_cons.mp member with rfl | member
    · decide
    · rcases mem_append.mp member with member | member
      · exact ne_close_of_mem_hex member
      · rcases mem_cons.mp member with rfl | member
        · decide
        · exact ne_close_of_mem_hex member
  rw [text, dropWhile_append_of_pos all]
  rfl

lemma readIntervals_append (fuel : ℕ) (set : VMAIntervalSet VMA) (x : VMAInterval VMA) (s : List Char) :
    readIntervals (fuel + 1) set (intervalToString x ++ s) = readIntervals fuel (set.insert x) s := by
  have bracket : (intervalToString x ++ s).dropWhile (· ≠ '[') = intervalToString x ++ s := rfl
  rw [readIntervals, bracket]
  change (match intervalFromString (intervalToString x ++ s) with
    | none => none
    | some vmaint => readIntervals fuel (set.insert vmaint) (((intervalToString x ++ s).dropWhile (· ≠ ')')).drop 1)) = _
  rw [intervalFromString_append, dropWhile_intervalToString]
  rfl

lemma readIntervals_followers (fuel : ℕ) (enough : set.length < fuel) (before : VMAIntervalSet VMA) :
    readIntervals fuel before (followers set ++ ['}']) = some (set.foldl VMAIntervalSet.insert before, ['}']) := by
  induction set generalizing fuel before with
  | nil =>
    cases fuel with
    | zero => exact absurd enough (Nat.not_lt_zero _)
    | succ fuel => rfl
  | cons x set ih =>
    cases fuel with
    | zero => exact absurd enough (Nat.not_lt_zero _)
    | succ fuel =>
      have text : followers (x :: set) ++ ['}'] = ' ' :: (intervalToString x ++ (followers set ++ ['}'])) := by
        simp [followers]
      have blank : readIntervals (fuel + 1) before (' ' :: (intervalToString x ++ (followers set ++ ['}']))) =
          readIntervals (fuel + 1) before (intervalToString x ++ (followers set ++ ['}'])) := rfl
      rw [text, blank, readIntervals_append, ih fuel (Nat.lt_of_succ_lt_succ enough), foldl_cons]

lemma length_followers (set : VMAIntervalSet VMA) : 2 * set.length ≤ (followers set).length := by
  induction set with
  | nil => exact le_rfl
  | cons x set ih =>
    have text : followers (x :: set) = ' ' :: (intervalToString x ++ followers set) := rfl
    rw [text, intervalToString]
    simp only [length_cons, length_append]
    omega

lemma setFromString_setToString (set : VMAIntervalSet VMA) :
    setFromString [] (setToString set) = some (set.foldl VMAIntervalSet.insert []) := by
  cases set with
  | nil => rfl
  | cons x set =>
    rw [setToString_cons, setFromString]
    have long := length_followers set
    obtain ⟨fuel, count⟩ : ∃ fuel, ('{' :: (intervalToString x ++ (followers set ++ ['}']))).length = fuel + 1 :=
      ⟨_, length_cons⟩
    have enough : set.length < fuel := by
      simp only [length_cons, length_append, intervalToString, length_nil] at count
      omega
    simp only [count, readIntervals_append, readIntervals_followers fuel enough, foldl_cons]

/-! ## The signed reader -/

/-- What the signed reader makes of an address. -/
def clamped (a : VMA) : ℕ := min a.val (2 ^ 63 - 1)

def clampedInterval (x : VMAInterval VMA) : Util.Interval ℕ := .of (clamped x.mBeg) (clamped x.mEnd)

lemma toAddress_clamped (a : VMA) : toAddress (min (a.val : ℤ) (2 ^ 63 - 1)) = clamped a := by
  have bound := a.isLt
  rw [toAddress, clamped]
  omega

lemma parseSegments_append (fuel : ℕ) (vals : List (Util.Interval ℕ)) (x : VMAInterval VMA) (s : List Char) :
    parseSegments (fuel + 1) vals (intervalToString x ++ s) = parseSegments fuel (vals ++ [clampedInterval x]) s := by
  have text : intervalToString x ++ s = '[' :: (hex x.mBeg.val ++ '-' :: (hex x.mEnd.val ++ ')' :: s)) := by
    simp [intervalToString]
  rw [text, parseSegments, if_neg (by decide), if_neg (by decide), if_neg (by decide)]
  simp only [strtoll_hex (.inr rfl) x.mBeg.val (delimited_dash _), strtoll_hex (.inr rfl) x.mEnd.val (delimited_close _),
    toAddress_clamped]
  rfl

lemma parseSegments_followers (fuel : ℕ) (enough : 2 * set.length < fuel) (vals : List (Util.Interval ℕ)) :
    parseSegments fuel vals (followers set ++ ['}']) = .ok (vals ++ set.map clampedInterval) := by
  induction set generalizing fuel vals with
  | nil =>
    cases fuel with
    | zero => exact absurd enough (Nat.not_lt_zero _)
    | succ fuel => exact congrArg Except.ok (append_nil vals).symm
  | cons x set ih =>
    obtain ⟨fuel, rfl⟩ : ∃ rest, fuel = rest + 2 := ⟨fuel - 2, by rw [length_cons] at enough; omega⟩
    have text : followers (x :: set) ++ ['}'] = ' ' :: (intervalToString x ++ (followers set ++ ['}'])) := by
      simp [followers]
    have blank : parseSegments (fuel + 2) vals (' ' :: (intervalToString x ++ (followers set ++ ['}']))) =
        parseSegments (fuel + 1) vals (intervalToString x ++ (followers set ++ ['}'])) := rfl
    have less : 2 * set.length < fuel := by
      rw [length_cons] at enough
      omega
    rw [text, blank, parseSegments_append, ih fuel less, map_cons, append_assoc, singleton_append]

lemma parseVs_setToString (set : VMAIntervalSet VMA) : parseVs (setToString set) = .ok (set.map clampedInterval) := by
  cases set with
  | nil => rfl
  | cons x set =>
    have long := length_followers set
    rw [setToString_cons, parseVs, if_neg (by simp [intervalToString])]
    obtain ⟨fuel, count⟩ : ∃ fuel, ('{' :: (intervalToString x ++ (followers set ++ ['}']))).length = fuel + 1 :=
      ⟨_, length_cons⟩
    have enough : 2 * set.length < fuel := by
      simp only [length_cons, length_append, intervalToString, length_nil] at count
      omega
    rw [count, parseSegments_append, parseSegments_followers fuel enough]
    rfl

def toInterval (x : VMAInterval VMA) : Util.Interval ℕ := ⟨x.mBeg.val, x.mEnd.val⟩

lemma clampedInterval_eq_iff (nonempty : x.mBeg < x.mEnd) : clampedInterval x = toInterval x ↔ x.mEnd.val < 2 ^ 63 := by
  have order : x.mBeg.val < x.mEnd.val := nonempty
  rw [clampedInterval, toInterval, Util.Interval.of, Util.Interval.mk.injEq, clamped, clamped]
  omega

/-- A set that `hpcstruct` holds is read back by its own reader, and by that of `hpcprof` just in case every interval ends
below 2^63. -/
theorem read_back_iff (set : VMAIntervalSet VMA) (held : VMAIntervalSet.Held set) :
    (parseVs (setToString set) = .ok (set.map toInterval) ∧ setFromString [] (setToString set) = some set) ↔
      ∀ x ∈ set, x.mEnd.val < 2 ^ 63 := by
  have separated := held.separated
  rw [parseVs_setToString, setFromString_setToString, VMAIntervalSet.foldl_insert separated]
  constructor
  · rintro ⟨same, -⟩ x member
    have pointwise := map_inj_left.mp (Except.ok.inj same) x member
    exact (clampedInterval_eq_iff (separated.nonempty x member)).mp pointwise
  · intro below
    refine ⟨congrArg Except.ok (map_inj_left.mpr fun x member => ?_), rfl⟩
    exact (clampedInterval_eq_iff (separated.nonempty x member)).mpr (below x member)

theorem read_back_example : (parseVs (setToString [⟨toVMA 16, toVMA 24⟩]) = .ok [⟨16, 24⟩] ∧
    setFromString [] (setToString [⟨toVMA 16, toVMA 24⟩]) = some [⟨toVMA 16, toVMA 24⟩]) ↔
      ∀ x ∈ ([⟨toVMA 16, toVMA 24⟩] : VMAIntervalSet VMA), x.mEnd.val < 2 ^ 63 :=
  read_back_iff [⟨toVMA 16, toVMA 24⟩] (VMAIntervalSet.Held.empty.insert ⟨toVMA 16, toVMA 24⟩)

/-- An interval of kernel addresses. -/
def kernelInterval : VMAInterval VMA := ⟨toVMA 0xffffffff80000000, toVMA 0xffffffff80000010⟩

theorem kernel_addresses_not_read_back : VMAIntervalSet.Held [kernelInterval] ∧
    ¬ (parseVs (setToString [kernelInterval]) = .ok [toInterval kernelInterval] ∧
      setFromString [] (setToString [kernelInterval]) = some [kernelInterval]) := by
  refine ⟨VMAIntervalSet.Held.empty.insert kernelInterval, ?_⟩
  rw [parseVs_setToString]
  rintro ⟨same, -⟩
  exact absurd same (by decide)

end HpcToolkit.StructFile
