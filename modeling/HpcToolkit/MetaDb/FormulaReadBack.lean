import HpcToolkit.MetaDb.SixDigits
import HpcToolkit.Sources.FormulaParses

/-! # Formulas of summary statistics read back

The infix formulas of the metric descriptions with `$$` for the variable, read by precedence climbing as `parseFormula`
does it. A minus in front of a primary belongs to the primary, or it is looser than `^`; both are read. What is read
has the value of the expression that was written, up to the digits of its constants.
-/

open List

namespace HpcToolkit.MetaDb

open Lib.Climbing Prof Sources.Formula Operator
open Expression hiding constant op subexpression var

/-! ## The reader -/

def functions : List (List Char × Kind) :=
  [(['s', 'q', 'r', 't'], .sqrt), (['l', 'o', 'g'], .log), (['l', 'n'], .ln), (['m', 'i', 'n'], .min),
    (['m', 'a', 'x'], .max), (['f', 'l', 'o', 'o', 'r'], .floor), (['c', 'e', 'i', 'l'], .ceil)]

def malformed : ParseError := .invalid "malformed"

section Reader

variable {K : Type} [Field K]

def readNumber (s : List Char) : Except ParseError (Expression K × List Char) :=
  let (x, s) := readDecimal s
  if x.Complete then .ok (.constant (decimalValue x), s) else .error malformed

/-- What a loose minus takes besides the primary `e`. -/
def behindMinus (loose : Bool) (fuel : ℕ) (primary : List Char → Except ParseError (Expression K × List Char))
    (s : List Char) (e : Expression K) : Except ParseError (Expression K × List Char) :=
  if loose then parseFormula1 fuel primary s e pow.prec else .ok (e, s)

def readPrimary (loose : Bool) : ℕ → List Char → Except ParseError (Expression K × List Char)
  | 0, _ => .error .fuel
  | fuel + 1, s => match s with
    | '(' :: s => do
      let (e, s) ← parseFormula fuel (readPrimary loose fuel) s
      match s with
      | ')' :: s => return (e, s)
      | _ => .error malformed
    | '-' :: s => do
      let (e, s) ← readPrimary loose fuel s
      let (e, s) ← behindMinus loose fuel (readPrimary loose fuel) s e
      return (.op .neg [e], s)
    | '$' :: '$' :: s => return (.var 0, s)
    | s =>
      if s.head?.any Char.isDigit then readNumber s
      else match functions.lookup (getUntil s '(').1, (getUntil s '(').2 with
        | some kind, '(' :: s => do
          let (args, s) ← parseArgs (parseFormula fuel (readPrimary loose fuel)) fuel s
          return (.op kind args, s)
        | _, _ => .error malformed

/-- The whole text is a formula. -/
def readFormula (loose : Bool) (fuel : ℕ) (s : List Char) : Except ParseError (Expression K) := do
  let (e, s) ← parseFormula fuel (readPrimary loose fuel) s
  match s with
  | [] => return e
  | _ => .error malformed

/-! ## Primaries in a text -/

/-- An operator, a parenthesis or a comma may follow a primary. -/
def Ends (s : List Char) : Prop := Heads (fun c => (∃ op : Operator, c = op.symbol) ∨ c = ')' ∨ c = ',') s

/-- What may follow a text. Behind a loose minus a power would go on. -/
def Follows (loose : Bool) (text rest : List Char) : Prop :=
  Ends rest ∧ (loose = true → text.head? = some '-' → rest.head? ≠ some '^')

/-- With this fuel the text is read to its end. -/
def ReadAt (loose : Bool) (fuel : ℕ) (text : List Char) (e : Expression K) : Prop :=
  ∀ rest, Follows loose text rest → readPrimary loose fuel (text ++ rest) = .ok (e, rest)

lemma Ends.delimited {s : List Char} (ends : Ends s) : Delimited s := by
  intro c first
  rcases ends c first with ⟨op, rfl⟩ | rfl | rfl
  · exact symbol_delimited op s op.symbol rfl
  · exact Stops.delimited (s := [')']) (by rintro _ ⟨⟩; exact .inl rfl) ')' rfl
  · exact Stops.delimited (s := [',']) (by rintro _ ⟨⟩; exact .inr rfl) ',' rfl

lemma follows_of_stops {s : List Char} (stops : Stops s) (loose : Bool) (text : List Char) : Follows loose text s := by
  refine ⟨fun c first => .inr (stops c first), fun _ _ power => ?_⟩
  rcases stops '^' power with same | same
  · exact absurd same (by decide)
  · exact absurd same (by decide)

lemma readNumber_eq {x : Decimal} (plain : Plain x) {rest : List Char} (ends : Ends rest) :
    readNumber (K := K) (x.text ++ rest) = .ok (.constant (decimalValue x), rest) := by
  have complete : x.Complete := ⟨.inl plain.whole, plain.exponent⟩
  rw [readNumber, readDecimal_append plain.form complete ends.delimited]
  exact if_pos complete

variable {loose : Bool} {fuel : ℕ} {text rest : List Char} {e : Expression K}

omit [Field K] in
lemma climb_ends (ends : Ends rest) (notPower : rest.head? ≠ some '^') (more : ℕ)
    (primary : List Char → Except ParseError (Expression K × List Char)) :
    parseFormula1 (more + 1) primary rest e pow.prec = .ok (e, rest) := by
  cases rest with
  | nil => rfl
  | cons c rest =>
    rcases ends c rfl with ⟨op, rfl⟩ | rfl | rfl
    · have low : ¬ pow.prec ≤ op.prec := by
        cases op with
        | pow => exact absurd rfl notPower
        | sum | sub | prod | div => decide
      have peeked : peekFormulaOperator (op.symbol :: rest) = .ok (some op, op.symbol :: rest) :=
        peek_symbol (b := []) nofun op
      rw [parseFormula1, peeked]
      exact if_neg low
    · rfl
    · rfl

lemma readAt_minus (inner : ReadAt loose (fuel + 1) text e) : ReadAt loose (fuel + 2) ('-' :: text) (.op .neg [e]) := by
  intro rest follows
  have run := inner rest ⟨follows.1, fun isLoose _ => follows.2 isLoose rfl⟩
  have stops : behindMinus loose (fuel + 1) (readPrimary loose (fuel + 1)) rest e = .ok (e, rest) := by
    cases isLoose : loose with
    | false => rfl
    | true => exact climb_ends follows.1 (follows.2 isLoose rfl) _ _
  exact bind_ok.mpr ⟨_, run, bind_ok.mpr ⟨_, stops, rfl⟩⟩

lemma readAt_parens (run : ∀ rest, parseFormula fuel (readPrimary loose fuel) (text ++ ')' :: rest) = .ok (e, ')' :: rest)) :
    ReadAt loose (fuel + 1) ('(' :: (text ++ [')'])) e := by
  intro rest _
  have text_eq : '(' :: (text ++ [')']) ++ rest = '(' :: (text ++ ')' :: rest) := by simp
  rw [text_eq]
  exact bind_ok.mpr ⟨_, run rest, rfl⟩

lemma readAt_function {name : List Char} {kind : Kind} {args : List (Expression K)} (named : (name, kind) ∈ functions)
    (run : ∀ rest, parseArgs (parseFormula fuel (readPrimary loose fuel)) fuel (text ++ ')' :: rest) = .ok (args, rest)) :
    ReadAt loose (fuel + 1) (name ++ '(' :: (text ++ [')'])) (.op kind args) := by
  intro rest _
  have text_eq : name ++ '(' :: (text ++ [')']) ++ rest = name ++ '(' :: (text ++ ')' :: rest) := by simp
  rw [text_eq]
  have found : readPrimary (K := K) loose (fuel + 1) (name ++ '(' :: (text ++ ')' :: rest)) =
      (parseArgs (parseFormula fuel (readPrimary loose fuel)) fuel (text ++ ')' :: rest) >>= fun r =>
        .ok (.op kind r.1, r.2)) := by
    fin_cases named <;> rfl
  rw [found]
  exact bind_ok.mpr ⟨_, run rest, rfl⟩

lemma readAt_variable : ReadAt (K := K) loose (fuel + 1) ['$', '$'] (.var 0) := fun _ _ => rfl

variable {c : Char}

lemma readPrimary_digit {s : List Char} (digit : c.isDigit) :
    readPrimary (K := K) loose (fuel + 1) (c :: s) = readNumber (c :: s) := by
  unfold readPrimary
  split
  · rename_i same
    cases same
    exact absurd digit (by decide)
  · rename_i same
    cases same
    exact absurd digit (by decide)
  · rename_i same
    cases same
    exact absurd digit (by decide)
  · exact if_pos digit

lemma readAt_number {x : Decimal} (plain : Plain x) (unsigned : x.sign = none) :
    ReadAt (K := K) loose (fuel + 1) x.text (.constant (decimalValue x)) := by
  intro rest follows
  obtain ⟨c, digits, whole⟩ := exists_cons_of_ne_nil plain.whole
  have text : x.text = c :: (digits ++ (pointText x.point ++ exponentText x.exponent)) := by
    rw [Decimal.text, unsigned, whole]
    rfl
  have number : readPrimary (K := K) loose (fuel + 1) (x.text ++ rest) = readNumber (x.text ++ rest) := by
    rw [text]
    exact readPrimary_digit (plain.form.whole c (whole ▸ mem_cons_self))
  rw [number, readNumber_eq plain follows.1]

/-! ## Operators and arguments -/

omit [Field K] in
lemma peek_end (stop : c = ')' ∨ c = ',') (rest : List Char)
    (primary : List Char → Except ParseError (Expression K × List Char)) :
    (source primary).peek (c :: rest) = .ok (none, c :: rest) := by
  rcases stop with rfl | rfl <;> rfl

/-- With a loose minus no operand of a power but the last starts with one. -/
def PlainBases (loose : Bool) (op : Operator) (texts : List (List Char)) : Prop :=
  loose = true → op = .pow → ∀ text ∈ texts.dropLast, text.head? ≠ some '-'

variable {op : Operator}

lemma follows_symbol (plain : loose = true → op = .pow → text.head? ≠ some '-') (rest : List Char) :
    Follows loose text (op.symbol :: rest) := by
  refine ⟨?_, fun isLoose minus power => ?_⟩
  · rintro _ ⟨⟩
    exact .inl ⟨op, rfl⟩
  · cases op with
    | pow => exact plain isLoose rfl minus
    | sum | sub | prod | div => exact absurd (Option.some.inj power) (by decide)

variable {texts : List (List Char)}

lemma PlainBases.tail (plain : PlainBases loose op (text :: texts)) :
    PlainBases loose op texts := fun isLoose isPow other member => by
  cases texts with
  | nil => cases member
  | cons next texts => exact plain isLoose isPow other (mem_cons_of_mem _ member)

lemma PlainBases.follows (plain : PlainBases loose op (text :: texts))
    (rest : List Char) : Follows loose text (texts.flatMap (op.symbol :: ·) ++ ')' :: rest) := by
  cases texts with
  | nil => exact follows_of_stops (by rintro _ ⟨⟩; exact .inl rfl) loose text
  | cons next texts =>
    exact follows_symbol (fun isLoose isPow => plain isLoose isPow text mem_cons_self) _

lemma reads_chain {ys : List (Expression K)} {first : List Char}
    (each : Forall₂ (ReadAt loose fuel) texts ys) (plain : PlainBases loose op (first :: texts)) (rest : List Char) :
    Reads (source (readPrimary loose fuel)) (texts.flatMap (op.symbol :: ·) ++ ')' :: rest) (ys.map (op, ·))
      (')' :: rest) := by
  induction each generalizing first with
  | nil => exact .nil _
  | @cons text y texts ys here _ ih =>
    have split : (text :: texts).flatMap (op.symbol :: ·) ++ ')' :: rest =
        op.symbol :: (text ++ (texts.flatMap (op.symbol :: ·) ++ ')' :: rest)) := by simp
    rw [split, map_cons]
    exact .cons (peek_symbol (b := []) nofun op) (here _ (plain.tail.follows rest)) (ih plain.tail)

/-- The grouping of operands that are joined by one operator. -/
def assemble (op : Operator) (x : Expression K) (ys : List (Expression K)) : Expression K :=
  if op.rightAssoc then nestRight ((operators K).combine op) x ys else ys.foldl ((operators K).combine op) x

variable {more : ℕ}

lemma parseFormula_group {x : Expression K} {ys : List (Expression K)}
    (first : ReadAt loose fuel text x) (each : Forall₂ (ReadAt loose fuel) texts ys)
    (plain : PlainBases loose op (text :: texts)) (enough : 2 * ys.length + 1 < more) (rest : List Char) :
    parseFormula more (readPrimary loose fuel) (joined [op.symbol] (text :: texts) ++ ')' :: rest) =
      .ok (assemble op x ys, ')' :: rest) := by
  have reads := reads_chain each plain rest
  have behind : (source (readPrimary (K := K) loose fuel)).peek (')' :: rest) = .ok (none, ')' :: rest) :=
    peek_end (.inl rfl) rest _
  obtain ⟨ahead, t, peeked⟩ : ∃ ahead t, (source (readPrimary (K := K) loose fuel)).peek
      (texts.flatMap (op.symbol :: ·) ++ ')' :: rest) = .ok (ahead, t) := by
    cases texts with
    | nil => exact ⟨_, _, behind⟩
    | cons next texts => exact ⟨_, _, peek_symbol (b := []) nofun op⟩
  have run : climb (source (readPrimary loose fuel)) (operators K) .fuel more ahead t x 0 =
      .ok (assemble op x ys, ')' :: rest) := by
    rw [assemble]
    cases assoc : op.rightAssoc with
    | false => exact climb_left assoc (Nat.zero_le _) reads behind peeked (by omega)
    | true => exact climb_right (source_stable _) assoc (Nat.zero_le _) reads behind peeked enough
  have text_eq : joined [op.symbol] (text :: texts) ++ ')' :: rest =
      text ++ (texts.flatMap (op.symbol :: ·) ++ ')' :: rest) := by simp [joined]
  rw [text_eq]
  exact bind_ok.mpr ⟨_, first _ (plain.follows rest), bind_ok.mpr ⟨_, peeked, run⟩⟩

lemma parseFormula_primary (reads : ReadAt loose fuel text e) (stop : c = ')' ∨ c = ',') (more : ℕ)
    (rest : List Char) :
    parseFormula (more + 1) (readPrimary loose fuel) (text ++ c :: rest) = .ok (e, c :: rest) := by
  have follows : Follows loose text (c :: rest) := follows_of_stops (by rintro _ ⟨⟩; exact stop) loose text
  exact bind_ok.mpr ⟨_, reads _ follows, bind_ok.mpr ⟨_, peek_end stop rest (readPrimary (K := K) loose fuel), rfl⟩⟩

lemma parseArgs_joined {x : Expression K} {ys : List (Expression K)}
    (first : ReadAt loose fuel text x) (each : Forall₂ (ReadAt loose fuel) texts ys)
    (enough : ys.length < more) {formulas : ℕ} (rest : List Char) :
    parseArgs (parseFormula (formulas + 1) (readPrimary loose fuel)) more (joined [','] (text :: texts) ++ ')' :: rest) =
      .ok (x :: ys, rest) := by
  induction each generalizing text x more with
  | nil =>
    obtain ⟨more, rfl⟩ := Nat.exists_eq_add_one.mpr (Nat.zero_lt_of_lt enough)
    have text_eq : joined [','] [text] ++ ')' :: rest = text ++ ')' :: rest := by simp [joined]
    rw [text_eq]
    exact bind_ok.mpr ⟨_, parseFormula_primary first (.inl rfl) formulas rest, rfl⟩
  | @cons next y texts ys here _ ih =>
    obtain ⟨more, rfl⟩ := Nat.exists_eq_add_one.mpr (Nat.zero_lt_of_lt enough)
    have text_eq : joined [','] (text :: next :: texts) ++ ')' :: rest =
        text ++ ',' :: (joined [','] (next :: texts) ++ ')' :: rest) := by simp [joined]
    rw [text_eq]
    exact bind_ok.mpr ⟨_, parseFormula_primary first (.inr rfl) formulas _,
      bind_ok.mpr ⟨_, ih here (Nat.lt_of_succ_lt_succ enough), rfl⟩⟩

end Reader

/-! ## The text of an expression is read -/

def operatorOf : Kind → Option Operator
  | .sum => some .sum
  | .sub => some .sub
  | .prod => some .prod
  | .div => some .div
  | .pow => some .pow
  | _ => none

section Trees

variable {K : Type} [Field K]

def build (kind : Kind) (args : List (Expression K)) : Expression K :=
  match operatorOf kind, args with
  | some op, x :: ys => assemble op x ys
  | _, args => .op kind args

variable {kind : Kind}

omit [Field K] in
lemma build_operator {op : Operator} (isInfix : operatorOf kind = some op) (x : Expression K)
    (ys : List (Expression K)) : build kind (x :: ys) = assemble op x ys := by
  unfold build
  rw [isInfix]

omit [Field K] in
lemma build_call (noInfix : operatorOf kind = none) (args : List (Expression K)) :
    build kind args = .op kind args := by
  unfold build
  rw [noInfix]

def buildNumber (x : Decimal) : Expression K :=
  if x.sign = some '-' then .op .neg [.constant (decimalValue { x with sign := none })]
  else .constant (decimalValue x)

variable [LinearOrder K] [FloorRing K]

mutual
/-- What the text of an expression is read as. -/
def tree : Expression K → Expression K
  | .constant v => buildNumber (streamed v)
  | .subexpression linked => tree linked
  | .var _ => .var 0
  | .op kind args => build kind (treeArgs args)

def treeArgs : List (Expression K) → List (Expression K)
  | [] => []
  | arg :: args => tree arg :: treeArgs args
end

lemma treeArgs_eq (args : List (Expression K)) : treeArgs args = args.map tree := by
  induction args with
  | nil => rfl
  | cons arg args ih => rw [treeArgs, ih, map_cons]

/-- No base of a power starts with a minus. -/
def PlainPowers (e : Expression K) : Prop :=
  ∀ args, .op .pow args ∈ e.subterms → ∀ arg ∈ args.dropLast, (render arg).head? ≠ some '-'

variable {loose : Bool} {fuel : ℕ} {args : List (Expression K)}

omit [Field K] [LinearOrder K] [FloorRing K] in
lemma exists_bound {P : Expression K → ℕ → Prop} (each : ∀ arg ∈ args, ∃ n, ∀ fuel, n ≤ fuel → P arg fuel) :
    ∃ n, ∀ arg ∈ args, ∀ fuel, n ≤ fuel → P arg fuel := by
  induction args with
  | nil => exact ⟨0, nofun⟩
  | cons arg args ih =>
    obtain ⟨n, here⟩ := each arg mem_cons_self
    obtain ⟨m, there⟩ := ih fun other member => each other (mem_cons_of_mem _ member)
    refine ⟨max n m, fun other member fuel enough => ?_⟩
    rcases mem_cons.mp member with rfl | later
    · exact here fuel ((le_max_left n m).trans enough)
    · exact there other later fuel ((le_max_right n m).trans enough)

lemma readAt_args (each : ∀ arg ∈ args, ReadAt loose fuel (render arg) (tree arg)) :
    Forall₂ (ReadAt loose fuel) (args.map render) (args.map tree) := by
  rw [forall₂_map_left_iff, forall₂_map_right_iff, forall₂_same]
  exact each

lemma readAt_constant (v : K) : ReadAt (K := K) loose (fuel + 2) (streamed v).text (buildNumber (streamed v)) := by
  have plain := streamed_plain v
  cases sign : (streamed v).sign with
  | none =>
    rw [buildNumber, sign, if_neg (Option.some_ne_none _).symm]
    exact readAt_number plain sign
  | some c =>
    obtain rfl : c = '-' := by
      refine (plain.form.sign c sign).resolve_left ?_
      rintro rfl
      exact plain.sign sign
    have text : (streamed v).text = '-' :: Decimal.text { streamed v with sign := none } := by
      rw [Decimal.text, sign]
      rfl
    rw [buildNumber, if_pos sign, text]
    have unsigned : Plain { streamed v with sign := none } :=
      ⟨⟨fun c isSign => absurd isSign (Option.not_mem_none c), plain.form.whole, plain.form.point, plain.form.exponent⟩,
        plain.whole, plain.exponent, (Option.some_ne_none _).symm⟩
    exact readAt_minus (readAt_number unsigned rfl)

variable {kind : Kind} {op : Operator}

lemma opening_of_operator (isInfix : operatorOf kind = some op) :
    opening kind = (['('], [op.symbol]) := by
  cases kind <;> cases isInfix <;> rfl

lemma readAt_infix (isInfix : operatorOf kind = some op) (nonempty : args ≠ [])
    (each : ∀ arg ∈ args, ReadAt loose fuel (render arg) (tree arg)) (plain : PlainBases loose op (args.map render))
    (enough : 2 * args.length < fuel) : ReadAt loose (fuel + 1) (render (.op kind args)) (tree (.op kind args)) := by
  obtain ⟨arg, args, rfl⟩ := exists_cons_of_ne_nil nonempty
  rw [render, tree, renderArgs_eq, treeArgs_eq, opening_of_operator isInfix, map_cons, map_cons,
    build_operator isInfix]
  rw [length_cons] at enough
  refine readAt_parens fun rest => parseFormula_group (each arg mem_cons_self) ?_ plain ?_ rest
  · exact readAt_args fun other member => each other (mem_cons_of_mem _ member)
  · rw [length_map]
    omega

lemma readAt_call {name fix : List Char} (named : (name, kind) ∈ functions)
    (opens : opening kind = (name ++ ['('], fix)) (noInfix : operatorOf kind = none) (nonempty : args ≠ [])
    (separated : fix = [','] ∨ args.length = 1) (each : ∀ arg ∈ args, ReadAt loose (fuel + 1) (render arg) (tree arg))
    (enough : args.length ≤ fuel + 1) : ReadAt loose (fuel + 2) (render (.op kind args)) (tree (.op kind args)) := by
  obtain ⟨arg, args, rfl⟩ := exists_cons_of_ne_nil nonempty
  have texts : joined fix (renderArgs (arg :: args)) = joined [','] (render arg :: args.map render) := by
    rw [renderArgs_eq, map_cons]
    rcases separated with rfl | single
    · rfl
    · obtain rfl := length_eq_zero_iff.mp (Nat.succ.inj single)
      rfl
  have opened : render (.op kind (arg :: args)) =
      name ++ '(' :: (joined [','] (render arg :: args.map render) ++ [')']) := by
    rw [render, opens, texts, append_assoc]
    rfl
  rw [opened, tree, treeArgs_eq, build_call noInfix]
  refine readAt_function named fun rest => parseArgs_joined (each arg mem_cons_self) ?_ ?_ rest
  · exact readAt_args fun other member => each other (mem_cons_of_mem _ member)
  · rw [length_map]
    exact Nat.lt_of_succ_le enough

lemma exists_readAt (e : Expression K) (wellFormed : e.WellFormed) (plain : loose = true → PlainPowers e) :
    ∃ n, ∀ fuel, n ≤ fuel → ReadAt loose fuel (render e) (tree e) := by
  induction e using Expression.inductionOn with
  | constant v =>
    refine ⟨2, fun fuel enough => ?_⟩
    obtain ⟨fuel, rfl⟩ := Nat.exists_eq_add_of_le' enough
    exact readAt_constant v
  | subexpression linked ih =>
    exact ih (fun kind args member => wellFormed kind args (mem_cons_of_mem _ member))
      fun isLoose args member => plain isLoose args (mem_cons_of_mem _ member)
  | var uservalue =>
    refine ⟨1, fun fuel enough => ?_⟩
    obtain ⟨fuel, rfl⟩ := Nat.exists_eq_add_of_le' enough
    exact readAt_variable
  | op kind args ih =>
    have inside {s arg : Expression K} (member : arg ∈ args) (deeper : s ∈ arg.subterms) :
        s ∈ (Expression.op kind args).subterms :=
      subterms_trans (arg_mem_subterms member) deeper
    obtain ⟨n, each⟩ := exists_bound fun arg member =>
      ih arg member (fun kind' args' deeper => wellFormed kind' args' (inside member deeper))
        fun isLoose args' deeper => plain isLoose args' (inside member deeper)
    have accepts := wellFormed kind args (mem_subterms_self _)
    refine ⟨n + 2 * args.length + 3, fun fuel enough => ?_⟩
    obtain ⟨fuel, rfl⟩ : ∃ k, fuel = k + 2 := ⟨fuel - 2, by omega⟩
    have now (arg : Expression K) (member : arg ∈ args) : ReadAt loose (fuel + 1) (render arg) (tree arg) :=
      each arg member _ (by omega)
    have group (op : Operator) (isInfix : operatorOf kind = some op) (nonempty : 0 < args.length) :
        ReadAt loose (fuel + 2) (render (.op kind args)) (tree (.op kind args)) := by
      refine readAt_infix isInfix (length_pos_iff.mp nonempty) now ?_ (by omega)
      rintro isLoose rfl text member
      rw [← map_dropLast] at member
      obtain ⟨arg, isBase, rfl⟩ := mem_map.mp member
      have isPow : kind = .pow := by cases kind <;> first | rfl | cases isInfix
      subst isPow
      exact plain isLoose args (mem_subterms_self _) arg isBase
    have call (name fix : List Char) (named : (name, kind) ∈ functions) (opens : opening kind = (name ++ ['('], fix))
        (noInfix : operatorOf kind = none) (nonempty : 0 < args.length) (separated : fix = [','] ∨ args.length = 1) :
        ReadAt loose (fuel + 2) (render (.op kind args)) (tree (.op kind args)) :=
      readAt_call named opens noInfix (length_pos_iff.mp nonempty) separated now (by omega)
    cases kind with
    | sum => exact group .sum rfl (of_decide_eq_true accepts)
    | sub => exact group .sub rfl (of_decide_eq_true accepts)
    | prod => exact group .prod rfl (of_decide_eq_true accepts)
    | div => exact group .div rfl (of_decide_eq_true accepts)
    | pow => exact group .pow rfl (of_decide_eq_true accepts)
    | neg =>
      obtain ⟨arg, rfl⟩ := length_eq_one_iff.mp (eq_of_beq accepts)
      obtain ⟨more, rfl⟩ : ∃ k, fuel = k + 1 := ⟨fuel - 1, by omega⟩
      have text : render (.op .neg [arg]) = '-' :: '(' :: (render arg ++ [')']) := by
        rw [render, renderArgs_eq]
        simp [opening, joined]
      rw [text, tree, treeArgs_eq, build_call rfl]
      refine readAt_minus (readAt_parens fun rest => parseFormula_primary ?_ (.inl rfl) more rest)
      exact each arg mem_cons_self _ (by omega)
    | log => exact call ['l', 'o', 'g'] [','] (by decide) rfl rfl (by simp [eq_of_beq accepts]) (.inl rfl)
    | min => exact call ['m', 'i', 'n'] [','] (by decide) rfl rfl (of_decide_eq_true accepts) (.inl rfl)
    | max => exact call ['m', 'a', 'x'] [','] (by decide) rfl rfl (of_decide_eq_true accepts) (.inl rfl)
    | sqrt => exact call ['s', 'q', 'r', 't'] _ (by decide) rfl rfl (eq_of_beq accepts).ge (.inr (eq_of_beq accepts))
    | ln => exact call ['l', 'n'] _ (by decide) rfl rfl (eq_of_beq accepts).ge (.inr (eq_of_beq accepts))
    | floor => exact call ['f', 'l', 'o', 'o', 'r'] _ (by decide) rfl rfl (eq_of_beq accepts).ge (.inr (eq_of_beq accepts))
    | ceil => exact call ['c', 'e', 'i', 'l'] _ (by decide) rfl rfl (eq_of_beq accepts).ge (.inr (eq_of_beq accepts))

/-! ## What is read has the same values -/

section Values

variable (m : Arithmetic K) (f : UInt64 → K) (x : Expression K) (ys : List (Expression K))

lemma meaning_op (kind : Kind) (args : List (Expression K)) : (Expression.op kind args).meaning m f =
    (evaluateArgs (meaningOp m) f args).bind (meaningOp m kind) := rfl

lemma evaluateArgs_cons : evaluateArgs (meaningOp m) f (x :: ys) =
    (x.meaning m f).bind fun v => (evaluateArgs (meaningOp m) f ys).map (v :: ·) := by
  rw [evaluateArgs]
  change (x.meaning m f).bind _ = _
  cases x.meaning m f with
  | none => rfl
  | some v => cases evaluateArgs (meaningOp m) f ys <;> rfl

lemma meaning_foldl (kind : Kind) : (ys.foldl (fun l r => Expression.op kind [l, r]) x).meaning m f =
    (x.meaning m f).bind fun v => (evaluateArgs (meaningOp m) f ys).bind fun vs =>
      vs.foldlM (fun l r => meaningOp m kind [l, r]) v := by
  induction ys generalizing x with
  | nil => cases value : x.meaning m f <;> simp [value, evaluateArgs]
  | cons y ys ih =>
    rw [foldl_cons, ih, meaning_op, evaluateArgs_cons, evaluateArgs_cons, evaluateArgs_cons]
    cases x.meaning m f with
    | none => rfl
    | some v =>
      cases y.meaning m f with
      | none => rfl
      | some w =>
        cases values : evaluateArgs (meaningOp m) f ys with
        | none => cases result : meaningOp m kind [v, w] <;> simp [evaluateArgs, result]
        | some vs => simp [evaluateArgs]

lemma meaning_nestRight : (nestRight (fun l r => Expression.op .pow [l, r]) x ys).meaning m f =
    (evaluateArgs (meaningOp m) f (x :: ys)).bind m.tower := by
  induction ys generalizing x with
  | nil =>
    rw [nestRight, evaluateArgs_cons]
    cases value : x.meaning m f <;> simp [evaluateArgs, Arithmetic.tower]
  | cons y ys ih =>
    rw [nestRight, meaning_op, evaluateArgs_cons, evaluateArgs_cons, evaluateArgs_cons, ih]
    rw [evaluateArgs_cons]
    cases x.meaning m f with
    | none => rfl
    | some v =>
      cases y.meaning m f with
      | none => rfl
      | some w =>
        cases values : evaluateArgs (meaningOp m) f ys with
        | none => rfl
        | some vs =>
          cases result : m.tower (w :: vs) <;> simp [evaluateArgs, meaningOp, Arithmetic.tower, result]

lemma meaningOp_chain (left : op.rightAssoc = false) (v : K) (vs : List K) :
    meaningOp m op.kind (v :: vs) = vs.foldlM (fun l r => meaningOp m op.kind [l, r]) v := by
  induction vs generalizing v with
  | nil =>
    cases op with
    | pow => cases left
    | sum | sub | prod | div => simp [kind, meaningOp]
  | cons w vs ih =>
    rw [foldlM_cons]
    cases op with
    | pow => cases left
    | sum =>
      have two : meaningOp m sum.kind [v, w] = some (v + w) := by simp [kind, meaningOp]
      rw [two, Option.bind_eq_bind, Option.bind_some, ← ih]
      simp [kind, meaningOp, add_assoc]
    | sub =>
      have two : meaningOp m sub.kind [v, w] = some (v - w) := by simp [kind, meaningOp]
      rw [two, Option.bind_eq_bind, Option.bind_some, ← ih]
      simp [kind, meaningOp]
    | prod =>
      have two : meaningOp m prod.kind [v, w] = some (v * w) := by simp [kind, meaningOp]
      rw [two, Option.bind_eq_bind, Option.bind_some, ← ih]
      simp [kind, meaningOp, mul_assoc]
    | div =>
      have two : meaningOp m div.kind [v, w] = quotient v w := by simp [kind, meaningOp]
      rw [two]
      cases value : quotient v w with
      | none => simp [kind, meaningOp, value]
      | some q =>
        rw [Option.bind_eq_bind, Option.bind_some, ← ih]
        simp [kind, meaningOp, value]

lemma meaning_assemble (op : Operator) : (assemble op x ys).meaning m f = (Expression.op op.kind (x :: ys)).meaning m f := by
  rw [assemble, meaning_op]
  cases assoc : op.rightAssoc with
  | true =>
    have isPow : op = .pow := by
      cases op with
      | pow => rfl
      | sum | sub | prod | div => cases assoc
    subst isPow
    exact meaning_nestRight m f x ys
  | false =>
    refine (meaning_foldl m f x ys op.kind).trans ?_
    rw [evaluateArgs_cons]
    cases x.meaning m f with
    | none => rfl
    | some v =>
      cases evaluateArgs (meaningOp m) f ys with
      | none => rfl
      | some vs => exact (meaningOp_chain m assoc v vs).symm

lemma meaning_build (kind : Kind) (args : List (Expression K)) :
    (build kind args).meaning m f = (Expression.op kind args).meaning m f := by
  cases isInfix : operatorOf kind with
  | none => rw [build_call isInfix]
  | some op =>
    cases args with
    | nil =>
      unfold build
      rw [isInfix]
    | cons x ys =>
      have same : op.kind = kind := by cases kind <;> cases isInfix <;> rfl
      rw [build_operator isInfix, meaning_assemble, same]

lemma meaning_buildNumber (x : Decimal) : (buildNumber x).meaning m f = some (decimalValue x) := by
  rw [buildNumber]
  split
  · rename_i minus
    have opposite : decimalValue x = -decimalValue (K := K) { x with sign := none } := by
      rw [decimalValue, if_pos minus, decimalValue, if_neg (Option.some_ne_none _).symm]
      rfl
    rw [meaning_op, evaluateArgs_cons, opposite]
    rfl
  · rfl

end Values

/-- All constants have no more digits than are written. -/
def ConstantsWritten (e : Expression K) : Prop := ∀ v, .constant v ∈ e.subterms → WrittenExactly v

lemma meaning_tree (e : Expression K) (written : ConstantsWritten e) (m : Arithmetic K) (x : K) :
    (tree e).meaning m (fun _ => x) = e.meaning m fun _ => x := by
  induction e using Expression.inductionOn with
  | constant v =>
    have exact : decimalValue (streamed v) = v := written v (mem_subterms_self _)
    rw [tree, meaning_buildNumber, exact]
    rfl
  | subexpression linked ih => exact ih fun v member => written v (mem_cons_of_mem _ member)
  | var uservalue => rfl
  | op kind args ih =>
    have each (arg : Expression K) (member : arg ∈ args) :
        (tree arg).meaning m (fun _ => x) = arg.meaning m fun _ => x :=
      ih arg member fun v deeper => written v (subterms_trans (arg_mem_subterms member) deeper)
    have values : evaluateArgs (meaningOp m) (fun _ => x) (args.map tree) =
        evaluateArgs (meaningOp m) (fun _ => x) args := by
      clear ih written
      induction args with
      | nil => rfl
      | cons arg args later =>
        rw [map_cons, evaluateArgs_cons, evaluateArgs_cons, each arg mem_cons_self,
          later fun other member => each other (mem_cons_of_mem _ member)]
    rw [tree, treeArgs_eq, meaning_build, meaning_op, meaning_op, values]

/-! ## The strings determine the functions -/

/-- Reading the string gives an expression with the same documented value for every value of the variable. -/
def ReadsBack (loose : Bool) (e : Expression K) : Prop :=
  ∃ t, (∃ n, ∀ fuel, n ≤ fuel → readFormula loose fuel (accumulateFormulaString e) = .ok t) ∧
    ∀ (m : Arithmetic K) (x : K), t.meaning m (fun _ => x) = e.meaning m fun _ => x

/-- Expressions with the same string have the same documented value. -/
def StringDetermines (e e' : Expression K) : Prop :=
  accumulateFormulaString e = accumulateFormulaString e' →
    ∀ (m : Arithmetic K) (x : K), e.meaning m (fun _ => x) = e'.meaning m fun _ => x

lemma reads_tree (e : Expression K) (wellFormed : e.WellFormed) (plain : loose = true → PlainPowers e) :
    ∃ n, ∀ fuel, n ≤ fuel → readFormula loose fuel (accumulateFormulaString e) = .ok (tree e) := by
  obtain ⟨n, reads⟩ := exists_readAt e wellFormed plain
  refine ⟨n + 1, fun fuel enough => ?_⟩
  obtain ⟨fuel, rfl⟩ : ∃ k, fuel = k + 1 := ⟨fuel - 1, by omega⟩
  have nothing : Follows loose (render e) [] := ⟨nofun, fun _ _ => nofun⟩
  have run := reads (fuel + 1) (by omega) [] nothing
  rw [append_nil] at run
  rw [accumulateFormulaString_eq]
  have whole : parseFormula (fuel + 1) (readPrimary loose (fuel + 1)) (render e) = .ok (tree e, []) :=
    bind_ok.mpr ⟨_, run, rfl⟩
  exact bind_ok.mpr ⟨_, whole, rfl⟩

lemma readsBack_iff (e : Expression K) (wellFormed : e.WellFormed) (plain : loose = true → PlainPowers e) :
    ReadsBack loose e ↔ ∀ (m : Arithmetic K) (x : K), (tree e).meaning m (fun _ => x) = e.meaning m fun _ => x := by
  obtain ⟨n, reads⟩ := reads_tree e wellFormed plain
  constructor
  · rintro ⟨t, ⟨k, again⟩, same⟩
    cases (reads (max n k) (le_max_left ..)).symm.trans (again (max n k) (le_max_right ..))
    exact same
  · exact fun same => ⟨tree e, ⟨n, reads⟩, same⟩

/-! ## Expressions with the same string -/

lemma render_split {a b : Expression K} (wellFormed : a.WellFormed) (wellFormed' : b.WellFormed) {rest rest' : List Char}
    (ends : Ends rest) (ends' : Ends rest') (same : render a ++ rest = render b ++ rest') :
    render a = render b ∧ rest = rest' := by
  have readable (e : Expression K) (wellFormed : e.WellFormed) :
      ∃ n, ∀ fuel, n ≤ fuel → ReadAt false fuel (render e) (tree e) := exists_readAt e wellFormed nofun
  obtain ⟨n, reads⟩ := readable a wellFormed
  obtain ⟨k, reads'⟩ := readable b wellFormed'
  have run := reads (max n k) (le_max_left ..) rest ⟨ends, nofun⟩
  rw [same, reads' (max n k) (le_max_right ..) rest' ⟨ends', nofun⟩] at run
  obtain rfl : rest' = rest := congrArg Prod.snd (Except.ok.inj run)
  exact ⟨append_cancel_right same, rfl⟩

variable {c : Char}

lemma ends_more (separates : (∃ op : Operator, c = op.symbol) ∨ c = ',') (texts : List (List Char)) :
    Ends (texts.flatMap (c :: ·) ++ [')']) := by
  cases texts with
  | nil =>
    rintro _ ⟨⟩
    exact .inr (.inl rfl)
  | cons text texts =>
    rintro _ ⟨⟩
    exact separates.imp_right .inr

lemma not_closing (separates : (∃ op : Operator, c = op.symbol) ∨ c = ',') : c ≠ ')' := by
  rcases separates with ⟨op, rfl⟩ | rfl
  · cases op <;> decide
  · decide

variable {as bs : List (Expression K)}

lemma joined_split {c c' : Char} (separates : (∃ op : Operator, c = op.symbol) ∨ c = ',')
    (separates' : (∃ op : Operator, c' = op.symbol) ∨ c' = ',')
    (wellFormed : ∀ a ∈ as, a.WellFormed) (wellFormed' : ∀ b ∈ bs, b.WellFormed)
    (same : (as.map render).flatMap (c :: ·) ++ [')'] = (bs.map render).flatMap (c' :: ·) ++ [')']) :
    Forall₂ (fun a b => render a = render b) as bs ∧ (as ≠ [] → c = c') := by
  induction as generalizing bs with
  | nil =>
    cases bs with
    | nil => exact ⟨.nil, nofun⟩
    | cons b bs => exact absurd (cons.inj same).1.symm (not_closing separates')
  | cons a as ih =>
    cases bs with
    | nil => exact absurd (cons.inj same).1 (not_closing separates)
    | cons b bs =>
      simp only [map_cons, flatMap_cons, cons_append, append_assoc, cons.injEq] at same
      obtain ⟨here, rest⟩ := render_split (wellFormed a mem_cons_self) (wellFormed' b mem_cons_self)
        (ends_more separates _) (ends_more separates' _) same.2
      obtain ⟨later, -⟩ := ih (fun a member => wellFormed a (mem_cons_of_mem _ member))
        (fun b member => wellFormed' b (mem_cons_of_mem _ member)) rest
      exact ⟨.cons here later, fun _ => same.1⟩

section
omit [Field K] [LinearOrder K] [FloorRing K]

lemma openings_agree (kind kind' : Kind) (isPrefix : (opening kind).1 <+: (opening kind').1) :
    (opening kind).1 = (opening kind').1 := by
  revert isPrefix
  cases kind <;> cases kind' <;> decide

lemma opening_eq (kind kind' : Kind) (same : (opening kind).1 = (opening kind').1) :
    kind = kind' ∨ (operatorOf kind).isSome ∧ (operatorOf kind').isSome := by
  revert same
  cases kind <;> cases kind' <;> decide

lemma symbol_inj {op op' : Operator} (same : op.symbol = op'.symbol) : op = op' := by
  revert same
  cases op <;> cases op' <;> decide

lemma kind_eq {op : Operator} (isInfix : operatorOf kind = some op) : kind = op.kind := by
  cases kind with
  | sum | sub | prod | div | pow => obtain rfl := Option.some.inj isInfix; rfl
  | neg | sqrt | ln | floor | ceil | log | min | max => cases isInfix

lemma operatorOf_inj {kind kind' : Kind} {op op' : Operator} (isInfix : operatorOf kind = some op)
    (isInfix' : operatorOf kind' = some op') (same : op.symbol = op'.symbol) : kind = kind' := by
  rw [kind_eq isInfix, kind_eq isInfix', symbol_inj same]

lemma accepts_pos {n : ℕ} (accepts : kind.accepts n) : 0 < n := by
  cases kind with
  | sum | sub | prod | div | pow | min | max => exact of_decide_eq_true accepts
  | neg | sqrt | ln | floor | ceil | log => exact eq_of_beq accepts ▸ by decide

lemma separator (kind : Kind) : (∃ c, ((∃ op : Operator, c = op.symbol) ∨ c = ',') ∧ (opening kind).2 = [c]) ∨
    ∀ n, kind.accepts n → n = 1 := by
  cases kind with
  | sum => exact .inl ⟨_, .inl ⟨.sum, rfl⟩, rfl⟩
  | sub => exact .inl ⟨_, .inl ⟨.sub, rfl⟩, rfl⟩
  | prod => exact .inl ⟨_, .inl ⟨.prod, rfl⟩, rfl⟩
  | div => exact .inl ⟨_, .inl ⟨.div, rfl⟩, rfl⟩
  | pow => exact .inl ⟨_, .inl ⟨.pow, rfl⟩, rfl⟩
  | log | min | max => exact .inl ⟨_, .inr rfl, rfl⟩
  | neg | sqrt | ln | floor | ceil => exact .inr fun n accepts => eq_of_beq accepts

end

/-- Operations with the same text have arguments with the same texts. A group with a single argument does not say
which operator it has. -/
lemma args_of_render {kind kind' : Kind} (accepts : kind.accepts as.length)
    (accepts' : kind'.accepts bs.length) (wellFormed : ∀ a ∈ as, a.WellFormed) (wellFormed' : ∀ b ∈ bs, b.WellFormed)
    (several : (operatorOf kind).isSome → as.length ≠ 1)
    (same : render (.op kind as) = render (.op kind' bs)) :
    kind = kind' ∧ Forall₂ (fun a b => render a = render b) as bs := by
  rw [render, render, renderArgs_eq, renderArgs_eq] at same
  have opens : (opening kind).1 = (opening kind').1 := by
    rcases prefix_or_prefix_of_prefix (prefix_append _ _) (same ▸ prefix_append _ _) with isPrefix | isPrefix
    · exact (openings_agree kind' kind isPrefix).symm
    · exact openings_agree kind kind' isPrefix
  rw [opens] at same
  have inner := append_cancel_left same
  obtain ⟨a, as, rfl⟩ := exists_cons_of_length_pos (accepts_pos accepts)
  obtain ⟨b, bs, rfl⟩ := exists_cons_of_length_pos (accepts_pos accepts')
  have separated {c c' : Char} (separates : (∃ op : Operator, c = op.symbol) ∨ c = ',')
      (separates' : (∃ op : Operator, c' = op.symbol) ∨ c' = ',') (fix : (opening kind).2 = [c])
      (fix' : (opening kind').2 = [c']) :
      Forall₂ (fun a b => render a = render b) (a :: as) (b :: bs) ∧ (as ≠ [] → c = c') := by
    rw [fix, fix', map_cons, map_cons, joined, joined, append_assoc, append_assoc] at inner
    obtain ⟨first, rest⟩ := render_split (wellFormed a mem_cons_self) (wellFormed' b mem_cons_self)
      (ends_more separates _) (ends_more separates' _) inner
    obtain ⟨others, fixes⟩ := joined_split separates separates' (fun a member => wellFormed a (mem_cons_of_mem _ member))
      (fun b member => wellFormed' b (mem_cons_of_mem _ member)) rest
    exact ⟨.cons first others, fixes⟩
  rcases opening_eq kind kind' opens with rfl | ⟨isInfix, isInfix'⟩
  · refine ⟨rfl, ?_⟩
    rcases separator kind with ⟨c, separates, fix⟩ | single
    · exact (separated separates separates fix fix).1
    · obtain rfl := length_eq_zero_iff.mp (Nat.succ.inj (single _ accepts))
      obtain rfl := length_eq_zero_iff.mp (Nat.succ.inj (single _ accepts'))
      simp only [map_cons, map_nil, joined, flatMap_nil, append_nil] at inner
      exact .cons (append_cancel_right inner) .nil
  · obtain ⟨op, isOp⟩ := Option.isSome_iff_exists.mp isInfix
    obtain ⟨op', isOp'⟩ := Option.isSome_iff_exists.mp isInfix'
    obtain ⟨texts, fixes⟩ := separated (.inl ⟨op, rfl⟩) (.inl ⟨op', rfl⟩)
      (congrArg Prod.snd (opening_of_operator isOp)) (congrArg Prod.snd (opening_of_operator isOp'))
    have more : as ≠ [] := fun nothing => several isInfix (congrArg (·.length + 1) nothing)
    exact ⟨operatorOf_inj isOp isOp' (fixes more), texts⟩

lemma streamed_starts (v : K) : ∃ c rest, c.isDigit ∧
    ((streamed v).text = c :: rest ∨ (streamed v).text = '-' :: c :: rest) := by
  have plain := streamed_plain v
  obtain ⟨c, digits, whole⟩ := exists_cons_of_ne_nil plain.whole
  refine ⟨c, digits ++ (pointText (streamed v).point ++ exponentText (streamed v).exponent),
    plain.form.whole c (whole ▸ mem_cons_self), ?_⟩
  cases sign : (streamed v).sign with
  | none =>
    refine .inl ?_
    rw [Decimal.text, whole, sign]
    rfl
  | some s =>
    obtain rfl : s = '-' := (plain.form.sign s sign).resolve_left fun plus => plain.sign (plus ▸ sign)
    refine .inr ?_
    rw [Decimal.text, whole, sign]
    rfl

lemma constant_ne_op (v : K) (kind : Kind) (rest : List Char) : (streamed v).text ≠ (opening kind).1 ++ rest := by
  intro same
  obtain ⟨c, more, digit, starts | starts⟩ := streamed_starts v
  · have first := congrArg head? (starts.symm.trans same)
    cases kind <;> cases first <;> exact absurd digit (by decide)
  · have first := congrArg head? (starts.symm.trans same)
    have second := congrArg (·.tail.head?) (starts.symm.trans same)
    cases kind with
    | neg =>
      cases second
      exact absurd digit (by decide)
    | _ => cases first

lemma constant_ne_variable (v : K) (rest : List Char) : (streamed v).text ≠ '$' :: rest := by
  intro same
  obtain ⟨c, more, digit, starts | starts⟩ := streamed_starts v
  · cases starts.symm.trans same
    exact absurd digit (by decide)
  · cases starts.symm.trans same

omit [Field K] [LinearOrder K] [FloorRing K] in
lemma variable_ne_op (kind : Kind) (rest more : List Char) : '$' :: rest ≠ (opening kind).1 ++ more := by
  intro same
  cases kind <;> cases same

lemma constant_inj {v w : K} (written : WrittenExactly v) (written' : WrittenExactly w)
    (same : (streamed v).text = (streamed w).text) : v = w := by
  have read (u : K) : readDecimal (streamed u).text = (streamed u, []) := by
    have plain := streamed_plain u
    have run := readDecimal_append (s := []) plain.form ⟨.inl plain.whole, plain.exponent⟩ nofun
    rwa [append_nil] at run
  have decimals : streamed v = streamed w := by
    have reads := read v
    rw [same, read w] at reads
    exact (congrArg Prod.fst reads).symm
  calc v = decimalValue (streamed v) := written.symm
    _ = w := by rw [decimals, written']

mutual
/-- The expression without its links, and with one variable. -/
def shape : Expression K → Expression K
  | .constant v => .constant v
  | .subexpression linked => shape linked
  | .var _ => .var 0
  | .op kind args => .op kind (shapeArgs args)

def shapeArgs : List (Expression K) → List (Expression K)
  | [] => []
  | arg :: args => shape arg :: shapeArgs args
end

section
omit [Field K] [LinearOrder K] [FloorRing K]

lemma shapeArgs_eq (args : List (Expression K)) : shapeArgs args = args.map shape := by
  induction args with
  | nil => rfl
  | cons arg args ih => rw [shapeArgs, ih, map_cons]

lemma evaluateWith_shape (apply : Kind → List K → Option K) (x : K) (e : Expression K) :
    (shape e).evaluateWith apply (fun _ => x) = e.evaluateWith apply fun _ => x := by
  induction e using Expression.inductionOn with
  | constant v => rfl
  | subexpression linked ih => exact ih
  | var uservalue => rfl
  | op kind args ih =>
    have values : evaluateArgs apply (fun _ => x) (args.map shape) =
        evaluateArgs apply (fun _ => x) args := by
      induction args with
      | nil => rfl
      | cons arg args later =>
        rw [map_cons, evaluateArgs, evaluateArgs, ih arg mem_cons_self,
          later fun other member => ih other (mem_cons_of_mem _ member)]
    rw [shape, shapeArgs_eq, evaluateWith, evaluateWith, values]

end

/-- Every group has two arguments or more. -/
def Groups (e : Expression K) : Prop :=
  ∀ kind args, .op kind args ∈ e.subterms → (operatorOf kind).isSome → args.length ≠ 1

section Parts

variable {s e : Expression K} (part : s ∈ e.subterms)

include part

section
omit [Field K] [LinearOrder K] [FloorRing K]

lemma wellFormed_part (wellFormed : e.WellFormed) : s.WellFormed :=
  fun kind args member => wellFormed kind args (subterms_trans part member)

lemma groups_part (groups : Groups e) : Groups s :=
  fun kind args member => groups kind args (subterms_trans part member)

end

lemma written_part (written : ConstantsWritten e) : ConstantsWritten s :=
  fun v member => written v (subterms_trans part member)

lemma plainPowers_part (plain : PlainPowers e) : PlainPowers s :=
  fun args member => plain args (subterms_trans part member)

end Parts

lemma exists_unlinked (e : Expression K) : ∃ s ∈ e.subterms, render s = render e ∧ shape s = shape e ∧
    ∀ linked, s ≠ .subexpression linked := by
  induction e using Expression.inductionOn with
  | constant v => exact ⟨_, mem_subterms_self _, rfl, rfl, nofun⟩
  | subexpression linked ih =>
    obtain ⟨s, part, text, form, unlinked⟩ := ih
    exact ⟨s, mem_cons_of_mem _ part, text, form, unlinked⟩
  | var uservalue => exact ⟨_, mem_subterms_self _, rfl, rfl, nofun⟩
  | op kind args => exact ⟨_, mem_subterms_self _, rfl, rfl, nofun⟩

omit [Field K] [LinearOrder K] [FloorRing K] in
lemma map_shape {r : Expression K → Expression K → Prop} {as bs : List (Expression K)} (related : Forall₂ r as bs)
    (each : ∀ a ∈ as, ∀ b ∈ bs, r a b → shape a = shape b) : as.map shape = bs.map shape := by
  induction related with
  | nil => rfl
  | cons here _ ih =>
    rw [map_cons, map_cons, each _ mem_cons_self _ mem_cons_self here,
      ih fun a isArg b isArg' => each a (mem_cons_of_mem _ isArg) b (mem_cons_of_mem _ isArg')]

lemma shape_of_render {e e' : Expression K} (wellFormed : e.WellFormed) (wellFormed' : e'.WellFormed)
    (written : ConstantsWritten e) (written' : ConstantsWritten e') (groups : Groups e)
    (same : render e = render e') : shape e = shape e' := by
  induction e using Expression.inductionOn generalizing e' with
  | subexpression linked ih =>
    have part : linked ∈ (Expression.subexpression linked).subterms :=
      mem_cons_of_mem _ (mem_subterms_self _)
    exact ih (wellFormed_part part wellFormed) wellFormed' (written_part part written) written' (groups_part part groups) same
  | constant v =>
    obtain ⟨s, part, text, form, unlinked⟩ := exists_unlinked e'
    rw [← text] at same
    rw [← form]
    cases s with
    | constant w => rw [constant_inj (written v (mem_subterms_self _)) (written' w part) same]
    | subexpression linked => exact absurd rfl (unlinked linked)
    | var uservalue => exact absurd same (constant_ne_variable v _)
    | op kind args => exact absurd same (constant_ne_op v kind _)
  | var uservalue =>
    obtain ⟨s, part, text, form, unlinked⟩ := exists_unlinked e'
    rw [← text] at same
    rw [← form]
    cases s with
    | constant w => exact absurd same.symm (constant_ne_variable w _)
    | subexpression linked => exact absurd rfl (unlinked linked)
    | var uservalue' => rfl
    | op kind args => exact absurd same (variable_ne_op kind _ _)
  | op kind args ih =>
    obtain ⟨s, part, text, form, unlinked⟩ := exists_unlinked e'
    rw [← text] at same
    rw [← form]
    cases s with
    | constant w => exact absurd same.symm (constant_ne_op w kind _)
    | subexpression linked => exact absurd rfl (unlinked linked)
    | var uservalue => exact absurd same.symm (variable_ne_op kind _ _)
    | op kind' args' =>
      have isPart (arg : Expression K) (member : arg ∈ args) : arg ∈ (Expression.op kind args).subterms :=
        arg_mem_subterms member
      have isPart' (arg : Expression K) (member : arg ∈ args') : arg ∈ e'.subterms :=
        subterms_trans part (arg_mem_subterms member)
      obtain ⟨rfl, texts⟩ := args_of_render (wellFormed kind args (mem_subterms_self _))
        (wellFormed' kind' args' part) (fun arg member => wellFormed_part (isPart arg member) wellFormed)
        (fun arg member => wellFormed_part (isPart' arg member) wellFormed')
        (groups kind args (mem_subterms_self _)) same
      have each (a : Expression K) (isArg : a ∈ args) (b : Expression K) (isArg' : b ∈ args') (same : render a = render b) :
          shape a = shape b :=
        ih a isArg (wellFormed_part (isPart a isArg) wellFormed) (wellFormed_part (isPart' b isArg') wellFormed')
          (written_part (isPart a isArg) written) (written_part (isPart' b isArg') written')
          (groups_part (isPart a isArg) groups) same
      rw [shape, shape, shapeArgs_eq, shapeArgs_eq, map_shape texts each]

/-! ## What the strings determine -/

/-- No constant has more than six digits. -/
def ShortConstants (e : Expression K) : Prop := ∀ v, .constant v ∈ e.subterms → HasSixDigits v

/-- What the strings of two expressions, and of the parts of them, say. The seeds of `Expression::evaluate` make
groups with one argument and the same string differ. -/
structure StringsDetermine (loose : Bool) (e e' : Expression K) : Prop where
  back : ∀ s, s ∈ e.subterms ∨ s ∈ e'.subterms → ReadsBack loose s
  documented : ∀ s ∈ e.subterms, ∀ s' ∈ e'.subterms, StringDetermines s s'
  evaluated : ∀ s ∈ e.subterms, ∀ s' ∈ e'.subterms, Groups s →
    accumulateFormulaString s = accumulateFormulaString s' →
      ∀ (m : Arithmetic K) (x : K), s.evaluate m (fun _ => x) = s'.evaluate m fun _ => x

lemma readsBack_of_written {e : Expression K} (wellFormed : e.WellFormed) (plain : loose = true → PlainPowers e)
    (written : ConstantsWritten e) : ReadsBack loose e :=
  (readsBack_iff e wellFormed plain).mpr (meaning_tree e written)

lemma stringDetermines_of_written {e e' : Expression K} (wellFormed : e.WellFormed) (wellFormed' : e'.WellFormed)
    (written : ConstantsWritten e) (written' : ConstantsWritten e') : StringDetermines e e' := by
  intro same m x
  have readable (e : Expression K) (wellFormed : e.WellFormed) :
      ∃ n, ∀ fuel, n ≤ fuel → readFormula false fuel (accumulateFormulaString e) = .ok (tree e) :=
    reads_tree e wellFormed nofun
  obtain ⟨n, reads⟩ := readable e wellFormed
  obtain ⟨k, reads'⟩ := readable e' wellFormed'
  have trees : tree e = tree e' := by
    have run := reads (max n k) (le_max_left ..)
    rw [same, reads' (max n k) (le_max_right ..)] at run
    exact (Except.ok.inj run).symm
  rw [← meaning_tree e written, trees, meaning_tree e' written']

lemma evaluate_of_written {e e' : Expression K} (wellFormed : e.WellFormed) (wellFormed' : e'.WellFormed)
    (written : ConstantsWritten e) (written' : ConstantsWritten e') (groups : Groups e)
    (same : accumulateFormulaString e = accumulateFormulaString e') (m : Arithmetic K) (x : K) :
    e.evaluate m (fun _ => x) = e'.evaluate m fun _ => x := by
  rw [accumulateFormulaString_eq, accumulateFormulaString_eq] at same
  rw [evaluate, evaluate, ← evaluateWith_shape,
    shape_of_render wellFormed wellFormed' written written' groups same, evaluateWith_shape]

lemma written_of_readsBack {e : Expression K} (wellFormed : e.WellFormed) (plain : loose = true → PlainPowers e)
    (back : ∀ s ∈ e.subterms, ReadsBack loose s) : ConstantsWritten e := by
  intro v part
  have values := (readsBack_iff _ (wellFormed_part part wellFormed) fun isLoose => plainPowers_part part (plain isLoose)).mp
    (back _ part)
  have value := values ⟨fun _ => none, fun _ => none, fun _ _ => some 1, fun _ => rfl⟩ 0
  rw [tree, meaning_buildNumber] at value
  exact Option.some.inj value

variable [IsStrictOrderedRing K]

lemma constantsWritten_iff (e : Expression K) : ConstantsWritten e ↔ ShortConstants e :=
  forall₂_congr fun v _ => writtenExactly_iff v

lemma stringsDetermine_iff_of_plain {e e' : Expression K} (wellFormed : e.WellFormed) (wellFormed' : e'.WellFormed)
    (plain : loose = true → PlainPowers e) (plain' : loose = true → PlainPowers e') :
    StringsDetermine loose e e' ↔ ShortConstants e ∧ ShortConstants e' := by
  rw [← constantsWritten_iff, ← constantsWritten_iff]
  constructor
  · intro determine
    exact ⟨written_of_readsBack wellFormed plain fun s part => determine.back s (.inl part),
      written_of_readsBack wellFormed' plain' fun s part => determine.back s (.inr part)⟩
  · rintro ⟨written, written'⟩
    refine ⟨?_, fun s part s' part' => ?_, fun s part s' part' groups => ?_⟩
    · rintro s (part | part)
      · exact readsBack_of_written (wellFormed_part part wellFormed)
          (fun isLoose => plainPowers_part part (plain isLoose)) (written_part part written)
      · exact readsBack_of_written (wellFormed_part part wellFormed')
          (fun isLoose => plainPowers_part part (plain' isLoose)) (written_part part written')
    · exact stringDetermines_of_written (wellFormed_part part wellFormed) (wellFormed_part part' wellFormed')
        (written_part part written) (written_part part' written')
    · exact evaluate_of_written (wellFormed_part part wellFormed) (wellFormed_part part' wellFormed')
        (written_part part written) (written_part part' written') groups

/-- The strings determine the expressions exactly if no constant has more than six digits. Where a minus is looser than
`^`, no base of a power may start with one. -/
theorem stringsDetermine_iff {e e' : Expression K} (wellFormed : e.WellFormed) (wellFormed' : e'.WellFormed) :
    (StringsDetermine false e e' ↔ ShortConstants e ∧ ShortConstants e') ∧
      (PlainPowers e → PlainPowers e' → (StringsDetermine true e e' ↔ ShortConstants e ∧ ShortConstants e')) :=
  ⟨stringsDetermine_iff_of_plain wellFormed wellFormed' nofun nofun,
    fun plain plain' => stringsDetermine_iff_of_plain wellFormed wellFormed' (fun _ => plain) fun _ => plain'⟩

end Trees

/-- `($$+2)` and `($$*0.5)`. -/
theorem sum_and_half_determined :
    StringsDetermine false (K := ℚ) (.op .sum [.var 0, .constant 2]) (.op .prod [.var 0, .constant (1 / 2)]) := by
  have wellFormed (kind : Kind) (accepts : kind.accepts 2) (v : ℚ) :
      (Expression.op kind [.var 0, .constant v]).WellFormed := by
    rintro kind' args (_ | ⟨_, _ | ⟨_, _ | ⟨_, ⟨⟩⟩⟩⟩)
    exact accepts
  have short (kind : Kind) (v : ℚ) (digits : HasSixDigits v) : ShortConstants (.op kind [.var 0, .constant v]) := by
    rintro w (_ | ⟨_, _ | ⟨_, _ | ⟨_, ⟨⟩⟩⟩⟩)
    exact digits
  exact (stringsDetermine_iff (wellFormed .sum rfl 2) (wellFormed .prod rfl _)).1.mpr
    ⟨short _ _ ⟨2, 0, by decide, by norm_num⟩, short _ _ ⟨5, -1, by decide, by norm_num⟩⟩

/-- Both are `1.23457e+06`. -/
theorem seven_digits_not_determined :
    accumulateFormulaString (K := ℚ) (.constant 1234567) = accumulateFormulaString (K := ℚ) (.constant 1234568) ∧
      evaluate rationalArithmetic (fun _ => 0) (.constant 1234567) ≠
        evaluate rationalArithmetic (fun _ => 0) (.constant 1234568) ∧
      ¬ StringsDetermine false (K := ℚ) (.constant 1234567) (.constant 1234568) := by
  have same : accumulateFormulaString (K := ℚ) (.constant 1234567) = accumulateFormulaString (K := ℚ) (.constant 1234568) := by
    decide +kernel
  have differ : evaluate rationalArithmetic (fun _ => 0) (.constant 1234567) ≠
      evaluate rationalArithmetic (fun _ => 0) (.constant 1234568) := by
    rintro ⟨⟩
  refine ⟨same, differ, fun determine => differ ?_⟩
  exact determine.evaluated _ (mem_subterms_self _) _ (mem_subterms_self _) nofun same _ 0

end HpcToolkit.MetaDb
