import HpcToolkit.Sources.Formula

/-! # The parser accepts its grammar

Each primary that is read derives from the text it is read from, and the groups of the precedence climbing are sums,
products and powers. The other way round the parser reads each expression of the grammar with enough fuel, and as fuel
for twice the text suffices for some result, it is this one.
-/

open List

namespace HpcToolkit.Sources.Formula

open Lib.Climbing Prof

/-! ## Operators -/

lemma skipBlanks_text (s : List Char) : ∃ b, s = b ++ skipBlanks s ∧ Blanks b :=
  ⟨s.takeWhile isBlank, takeWhile_append_dropWhile.symm, fun _ inside => mem_takeWhile_imp inside⟩

lemma skipBlanks_append {b s : List Char} (blanks : Blanks b) (next : Heads (fun c => ¬ isBlank c) s) :
    skipBlanks (b ++ s) = s := by
  rw [skipBlanks, dropWhile_append_of_pos blanks]
  cases s with
  | nil => rfl
  | cons c s => exact dropWhile_cons_of_neg (next c rfl)

/-- An expression ends in front of the text. -/
def Stops (s : List Char) : Prop := Heads (fun c => c = ')' ∨ c = ',') s

variable {c : Char} {op : Operator}

lemma operatorAt_some : operatorAt c = some op ↔ c = op.symbol := by
  constructor
  · intro found
    unfold operatorAt at found
    split at found <;> cases found <;> rfl
  · rintro rfl
    cases op <;> rfl

lemma peek_some {s t : List Char} (peeked : peekFormulaOperator s = .ok (some op, t)) :
    ∃ b t', s = b ++ t ∧ Blanks b ∧ t = op.symbol :: t' := by
  obtain ⟨b, text, blanks⟩ := skipBlanks_text s
  rw [peekFormulaOperator] at peeked
  cases rest : skipBlanks s with
  | nil =>
    rw [rest] at peeked
    cases peeked
  | cons c s' =>
    rw [rest] at peeked text
    dsimp only at peeked
    split at peeked
    · rename_i found
      cases peeked
      cases operatorAt_some.mp found
      exact ⟨b, s', text, blanks, rfl⟩
    · split at peeked <;> cases peeked

lemma peek_none {s t : List Char} (peeked : peekFormulaOperator s = .ok (none, t)) :
    ∃ b, s = b ++ t ∧ Blanks b ∧ Stops t := by
  obtain ⟨b, text, blanks⟩ := skipBlanks_text s
  rw [peekFormulaOperator] at peeked
  cases rest : skipBlanks s with
  | nil =>
    rw [rest] at peeked text
    cases peeked
    exact ⟨b, text, blanks, nofun⟩
  | cons c s' =>
    rw [rest] at peeked text
    dsimp only at peeked
    split at peeked
    · cases peeked
    · split at peeked
      · rename_i stops
        cases peeked
        refine ⟨b, text, blanks, ?_⟩
        rintro _ ⟨⟩
        exact stops
      · cases peeked

lemma symbol_not_blank (op : Operator) : isBlank op.symbol = false := by cases op <;> rfl

lemma peek_symbol {b t : List Char} (blanks : Blanks b) (op : Operator) :
    peekFormulaOperator (b ++ op.symbol :: t) = .ok (some op, op.symbol :: t) := by
  have skipped : skipBlanks (b ++ op.symbol :: t) = op.symbol :: t := by
    refine skipBlanks_append blanks ?_
    rintro _ ⟨⟩
    rw [symbol_not_blank]
    exact Bool.false_ne_true
  rw [peekFormulaOperator, skipped]
  simp only [operatorAt_some.mpr rfl]

lemma Stops.not_blank {s : List Char} (stops : Stops s) : Heads (fun c => ¬ isBlank c) s := by
  intro c first
  rcases stops c first with rfl | rfl
  · decide
  · decide

lemma peek_stops {b t : List Char} (blanks : Blanks b) (stops : Stops t) :
    peekFormulaOperator (b ++ t) = .ok (none, t) := by
  rw [peekFormulaOperator, skipBlanks_append blanks stops.not_blank]
  cases t with
  | nil => rfl
  | cons c t => rcases stops c rfl with rfl | rfl <;> rfl

lemma peek_ne_fuel (s : List Char) : peekFormulaOperator s ≠ .error .fuel := by
  rw [peekFormulaOperator]
  split
  · nofun
  · split
    · nofun
    · split <;> nofun

section Source

variable {K : Type} (primary : List Char → Except ParseError (Expression K × List Char))

lemma source_stable : (source primary).Stable := by
  intro s ahead t peeked
  change peekFormulaOperator t = .ok (ahead, t)
  cases ahead with
  | some op =>
    obtain ⟨_, t', -, -, rfl⟩ := peek_some peeked
    exact peek_symbol (b := []) nofun op
  | none =>
    obtain ⟨_, -, -, stops⟩ := peek_none peeked
    exact peek_stops (b := []) nofun stops

lemma source_shrinks (shorter : ∀ s e t, primary s = .ok (e, t) → t.length ≤ s.length) :
    (source primary).Shrinks length where
  peek s ahead t peeked := by
    have text : ∃ b, s = b ++ t := by
      cases ahead with
      | some op => exact (peek_some peeked).imp fun _ h => h.choose_spec.1
      | none => exact (peek_none peeked).imp fun _ h => h.1
    obtain ⟨b, rfl⟩ := text
    rw [length_append]
    exact Nat.le_add_left _ _
  skip s op peeked := by
    obtain ⟨_, t, -, -, rfl⟩ := peek_some peeked
    exact Nat.lt_succ_self _
  operand := shorter

end Source

/-! ## What is read derives -/

section Soundness

variable {K : Type} {meaning : Meaning K}

/-- The nonterminal of a level of precedence. -/
def levelOf : ℕ → Nonterminal
  | 0 => .sum
  | 1 => .product
  | 2 => .power
  | _ => .primary

variable {w : List Char}

lemma Derives.ofLevel {k : ℕ} {e : Expression K}
    (derives : Derives meaning hpcrunDialect (levelOf (k + 1)) w [e]) : Derives meaning hpcrunDialect (levelOf k) w [e] := by
  match k with
  | 0 => exact .ofProduct derives
  | 1 => exact .ofPower derives
  | 2 => exact .ofPrimary derives
  | _ + 3 => exact derives

lemma Derives.raise {j k : ℕ} (le : k ≤ j) {e : Expression K}
    (derives : Derives meaning hpcrunDialect (levelOf j) w [e]) : Derives meaning hpcrunDialect (levelOf k) w [e] := by
  induction le with
  | refl => exact derives
  | step _ ih => exact ih derives.ofLevel

lemma Derives.left {b w w' : List Char} {l r : Expression K} (assoc : op.rightAssoc = false)
    (first : Derives meaning hpcrunDialect (levelOf op.prec) w [l]) (blanks : Blanks b)
    (second : Derives meaning hpcrunDialect (levelOf (op.prec + 1)) w' [r]) :
    Derives meaning hpcrunDialect (levelOf op.prec) (w ++ (b ++ op.symbol :: w')) [.op op.kind [l, r]] := by
  cases op with
  | sum | sub => exact .sum rfl first blanks second
  | prod | div => exact .product rfl first blanks second
  | pow => cases assoc

lemma Derives.right {b w w' : List Char} {l r : Expression K} (assoc : op.rightAssoc = true)
    (first : Derives meaning hpcrunDialect (levelOf (op.prec + 1)) w [l]) (blanks : Blanks b)
    (second : Derives meaning hpcrunDialect (levelOf op.prec) w' [r]) :
    Derives meaning hpcrunDialect (levelOf op.prec) (w ++ (b ++ op.symbol :: w')) [.op op.kind [l, r]] := by
  cases op with
  | sum | sub | prod | div => cases assoc
  | pow => exact .power rfl first blanks second

variable (meaning) in
/-- Each primary derives from the text that it is read from. -/
def ReadsPrimaries (primary : List Char → Except ParseError (Expression K × List Char)) : Prop :=
  ∀ s e t, primary s = .ok (e, t) → ∃ w, s = w ++ t ∧ Derives meaning hpcrunDialect .primary w [e]

variable {primary : List Char → Except ParseError (Expression K × List Char)}

section
variable (reads : ReadsPrimaries meaning primary)
include reads

lemma ReadsPrimaries.shorter :
    ∀ s e t, primary s = .ok (e, t) → t.length ≤ s.length := by
  intro s e t read
  obtain ⟨w, rfl, -⟩ := reads s e t read
  rw [length_append]
  exact Nat.le_add_left _ _

lemma read_operator {s t u : List Char} {y : Expression K}
    (peeked : peekFormulaOperator s = .ok (some op, t)) (operand : primary (t.drop op.length) = .ok (y, u)) :
    ∃ b w, s = b ++ op.symbol :: (w ++ u) ∧ Blanks b ∧ Derives meaning hpcrunDialect .primary w [y] := by
  obtain ⟨b, t', rfl, blanks, rfl⟩ := peek_some peeked
  obtain ⟨w, text, derives⟩ := reads _ _ _ operand
  exact ⟨b, w, by rw [← text]; rfl, blanks, derives⟩

lemma groups_derive {k : ℕ} {x e : Expression K}
    {ops : List (Operator × Expression K)} (groups : Groups (operators K) k x ops e) :
    ∀ {s u w}, Reads (source primary) s ops u → Derives meaning hpcrunDialect .primary w [x] →
      ∃ w', s = w' ++ u ∧ Derives meaning hpcrunDialect (levelOf k) (w ++ w') [e] := by
  induction groups with
  | operand k x =>
    intro s u w nothing derives
    cases nothing
    refine ⟨[], rfl, ?_⟩
    rw [append_nil]
    exact Derives.raise (Nat.le_add_right k 3) derives
  | @left k op x y l r before after low assoc _ _ ih₁ ih₂ =>
    intro s u w text derives
    obtain ⟨s₁, text₁, text₂⟩ := text.split
    cases text₂ with
    | cons peeked operand text₂ =>
      obtain ⟨b, v, rfl, blanks, primary⟩ := read_operator reads peeked operand
      obtain ⟨w₁, rfl, first⟩ := ih₁ text₁ derives
      obtain ⟨w₂, rfl, second⟩ := ih₂ text₂ primary
      refine ⟨w₁ ++ (b ++ op.symbol :: (v ++ w₂)), by simp, ?_⟩
      rw [← append_assoc]
      exact Derives.raise low (Derives.left assoc first blanks second)
  | @right k op x y l r before after low assoc _ _ ih₁ ih₂ =>
    intro s u w text derives
    obtain ⟨s₁, text₁, text₂⟩ := text.split
    cases text₂ with
    | cons peeked operand text₂ =>
      obtain ⟨b, v, rfl, blanks, primary⟩ := read_operator reads peeked operand
      obtain ⟨w₁, rfl, first⟩ := ih₁ text₁ derives
      obtain ⟨w₂, rfl, second⟩ := ih₂ text₂ primary
      refine ⟨w₁ ++ (b ++ op.symbol :: (v ++ w₂)), by simp, ?_⟩
      rw [← append_assoc]
      exact Derives.raise low (Derives.right assoc first blanks second)

end

variable {fuel : ℕ}

lemma parseFormula_derives (reads : ReadsPrimaries meaning primary) {s t : List Char} {e : Expression K}
    (run : parseFormula fuel primary s = .ok (e, t)) :
    ∃ w b, s = w ++ (b ++ t) ∧ Derives meaning hpcrunDialect .sum w [e] ∧ Blanks b ∧ Stops t := by
  obtain ⟨⟨x, s₁⟩, operand, run⟩ := bind_ok.mp run
  obtain ⟨⟨ahead, s₂⟩, peeked, run⟩ := bind_ok.mp run
  obtain ⟨ops, ⟨u, text, behind⟩, groups⟩ := (climbs_iff (source_stable primary)).mp ⟨fuel, ahead, s₂, peeked, run⟩
  obtain ⟨w, rfl, derives⟩ := reads _ _ _ operand
  obtain ⟨w', rfl, sum⟩ := groups_derive reads groups text derives
  obtain ⟨b, rfl, blanks, stops⟩ := peek_none behind
  exact ⟨w ++ w', b, (append_assoc _ _ _).symm, sum, blanks, stops⟩

lemma parseArgs_derive {formula : List Char → Except ParseError (Expression K × List Char)}
    (reads : ∀ s e t, formula s = .ok (e, t) →
      ∃ w b, s = w ++ (b ++ t) ∧ Derives meaning hpcrunDialect .sum w [e] ∧ Blanks b) {s t : List Char}
    {args : List (Expression K)} (run : parseArgs formula fuel s = .ok (args, t)) :
    ∃ w b, s = w ++ (b ++ ')' :: t) ∧ Derives meaning hpcrunDialect .args w args ∧ Blanks b := by
  induction fuel generalizing s args with
  | zero => cases run
  | succ fuel ih =>
    obtain ⟨⟨arg, s₁⟩, read, behind⟩ := bind_ok.mp run
    obtain ⟨w, b, text, derives, blanks⟩ := reads _ _ _ read
    subst text
    dsimp only at behind
    split at behind
    · obtain ⟨⟨args, t⟩, more, ends⟩ := bind_ok.mp behind
      cases ends
      obtain ⟨w', b', rfl, rest, blanks'⟩ := ih more
      exact ⟨w ++ (b ++ ',' :: w'), b', by simp, .moreArgs derives blanks rest, blanks'⟩
    · cases behind
      exact ⟨w, b, rfl, .arg derives, blanks⟩
    · cases behind

lemma functionKind_some {funcname : List Char} {kind : Kind} :
    functionKind funcname = some kind ↔ (funcname, kind) ∈ hpcrunDialect.functions := by
  constructor
  · intro found
    unfold functionKind at found
    split at found
    · rename_i same
      cases found
      cases same
      exact mem_cons_self
    · split at found
      · rename_i same
        cases found
        cases same
        exact mem_cons_of_mem _ mem_cons_self
      · cases found
  · rintro (_ | ⟨_, _ | ⟨_, none_in⟩⟩)
    · rfl
    · rfl
    · cases none_in

lemma getUntil_text (s : List Char) (delim : Char) : s = (getUntil s delim).1 ++ (getUntil s delim).2 :=
  takeWhile_append_dropWhile.symm

lemma parseConstant_derives {b s t : List Char} {e : Expression K} (blanks : Blanks b) (plus : Heads (· ≠ '-') s)
    (run : parseConstant meaning s = .ok (e, t)) :
    ∃ w, b ++ s = w ++ t ∧ Derives meaning hpcrunDialect .primary w [e] := by
  rw [parseConstant] at run
  dsimp only at run
  split at run
  · rename_i val found
    cases run
    split at found
    · rename_i complete
      have text := readDecimal_text s
      refine ⟨b ++ (readDecimal s).1.text, by rw [append_assoc, ← text], ?_⟩
      refine .number blanks (readDecimal_form s) complete (fun minus => ?_) found
      rw [Decimal.text, minus] at text
      exact plus '-' (by rw [text]; rfl) rfl
    · cases found
  · cases run

lemma parseReference_derives {b s t : List Char} {e : Expression K} (blanks : Blanks b)
    (run : parseReference meaning s = .ok (e, t)) :
    ∃ w, b ++ '#' :: s = w ++ t ∧ Derives meaning hpcrunDialect .primary w [e] := by
  rw [parseReference] at run
  dsimp only at run
  split at run
  · cases run
  · rename_i id value
    split at run
    · cases run
    · rename_i metric known
      cases run
      obtain ⟨b', text, blanks'⟩ := skipBlanks_text s
      refine ⟨b ++ '#' :: (b' ++ (readUnsigned (skipBlanks s)).1.text), ?_, ?_⟩
      · rw [append_assoc, cons_append, append_assoc, ← readUnsigned_text, ← text]
      · exact .reference blanks mem_cons_self blanks' (readUnsigned_form _) value known

lemma primary_derives (fuel : ℕ) : ReadsPrimaries meaning (parseFormulaPrimary meaning fuel) := by
  induction fuel with
  | zero => exact fun s _ _ run => by cases (parseFormulaPrimary_zero _ s).symm.trans run
  | succ fuel ih =>
    intro s e t run
    obtain ⟨b, text, blanks⟩ := skipBlanks_text s
    rw [parseFormulaPrimary] at run
    split at run
    · rename_i same
      rw [same] at text
      obtain ⟨⟨e', s₁⟩, inside, behind⟩ := bind_ok.mp run
      obtain ⟨w, b', same, derives, blanks', -⟩ := parseFormula_derives ih inside
      subst same
      dsimp only at behind
      split at behind
      · cases behind
        exact ⟨b ++ '(' :: (w ++ (b' ++ [')'])), by simp [text], .parens blanks blanks' derives⟩
      · cases behind
    · rename_i same
      rw [same] at text
      obtain ⟨⟨e', s₁⟩, inside, run⟩ := bind_ok.mp run
      cases run
      obtain ⟨w, rfl, derives⟩ := ih _ _ _ inside
      exact ⟨b ++ '-' :: w, by simp [text], .negation blanks rfl derives⟩
    · rename_i same
      rw [same] at text
      rw [text]
      exact parseReference_derives blanks run
    · rename_i s' same
      rw [same] at text
      have name := getUntil_text ('m' :: s') '('
      split at run
      · cases run
      · rename_i kind found
        split at run
        · rename_i rest
          rw [rest] at name
          obtain ⟨⟨args, s₁⟩, inside, run⟩ := bind_ok.mp run
          cases run
          have formulas : ∀ s e t, parseFormula fuel (parseFormulaPrimary meaning fuel) s = .ok (e, t) →
              ∃ w b, s = w ++ (b ++ t) ∧ Derives meaning hpcrunDialect .sum w [e] ∧ Blanks b := by
            intro s e t run
            obtain ⟨w, b, text, derives, blanks, -⟩ := parseFormula_derives ih run
            exact ⟨w, b, text, derives, blanks⟩
          obtain ⟨w, b', rfl, derives, blanks'⟩ := parseArgs_derive formulas inside
          have whole : s = b ++ ((getUntil ('m' :: s') '(').1 ++ '(' :: (w ++ (b' ++ ')' :: t))) := by rw [text, ← name]
          exact ⟨_, by rw [whole]; simp, .function blanks (functionKind_some.mp found) blanks' derives⟩
        · cases run
    · rename_i not_minus _ _
      rw [text]
      refine parseConstant_derives blanks ?_ run
      rintro c first rfl
      obtain ⟨s', same⟩ := head?_eq_some_iff.mp first
      exact not_minus s' same

end Soundness

/-! ## More fuel -/

section Fuel

variable {K : Type} {meaning : Meaning K} {primary other : List Char → Except ParseError (Expression K × List Char)}

lemma parseFormula_mono (agree : ∀ s, primary s ≠ .error .fuel → other s = primary s) {fuel more : ℕ}
    (le : fuel ≤ more) (s : List Char) (ends : parseFormula fuel primary s ≠ .error .fuel) :
    parseFormula more other s = parseFormula fuel primary s := by
  have peek : (source other).peek = (source primary).peek := rfl
  have skip : (source other).skip = (source primary).skip := rfl
  refine bind_mono (agree s) (fun x _ => ?_) ends
  exact bind_mono (fun _ => rfl) fun ahead _ => (climb_mono peek skip agree fuel).1 more _ _ _ _ le

lemma parseArgs_mono {formula formula' : List Char → Except ParseError (Expression K × List Char)}
    (agree : ∀ s, formula s ≠ .error .fuel → formula' s = formula s) (fuel : ℕ) :
    ∀ more s, fuel ≤ more → parseArgs formula fuel s ≠ .error .fuel →
      parseArgs formula' more s = parseArgs formula fuel s := by
  induction fuel with
  | zero => exact fun _ _ _ ends => absurd rfl ends
  | succ fuel ih =>
    rintro (_ | more) s le ends
    · cases le
    · refine bind_mono (agree s) (fun x _ => ?_) ends
      obtain ⟨arg, s₁⟩ := x
      dsimp only
      split
      · exact bind_mono (ih more _ (Nat.le_of_succ_le_succ le)) fun _ _ _ => rfl
      · exact fun _ => rfl
      · exact fun _ => rfl

lemma primary_mono (fuel : ℕ) : ∀ more, fuel ≤ more → ∀ s, parseFormulaPrimary meaning fuel s ≠ .error .fuel →
    parseFormulaPrimary meaning more s = parseFormulaPrimary meaning fuel s := by
  induction fuel with
  | zero => exact fun _ _ s ends => absurd (parseFormulaPrimary_zero _ s) ends
  | succ fuel ih =>
    rintro (_ | more) le s ends
    · cases le
    · replace le := Nat.le_of_succ_le_succ le
      rw [parseFormulaPrimary] at ends ⊢
      rw [parseFormulaPrimary]
      split at ends
      · exact bind_mono (parseFormula_mono (ih more le) le _) (fun _ _ _ => rfl) ends
      · exact bind_mono (ih more le _) (fun _ _ _ => rfl) ends
      · rfl
      · split
        · rfl
        · rename_i found
          simp only [found] at ends
          split
          · rename_i rest
            simp only [rest] at ends
            exact bind_mono (parseArgs_mono (parseFormula_mono (ih more le) le) fuel more _ le) (fun _ _ _ => rfl) ends
          · rfl
      · rfl

lemma primary_more {fuel more : ℕ} (le : fuel ≤ more) {s : List Char} {r : Expression K × List Char}
    (run : parseFormulaPrimary meaning fuel s = .ok r) : parseFormulaPrimary meaning more s = .ok r := by
  rw [primary_mono fuel more le s (by rw [run]; nofun), run]

end Fuel

/-! ## What derives is read -/

lemma blank_delimits (blank : isBlank c) : ¬ c.isDigit ∧ c ≠ '.' ∧ ¬ IsLetter c := by
  simp only [isBlank, mem_cons, not_mem_nil, or_false, decide_eq_true_eq] at blank
  rcases blank with rfl | rfl | rfl | rfl | rfl | rfl <;> exact ⟨by decide, by decide, not_or.mpr ⟨by decide, by decide⟩⟩

lemma Delimited.blanks {b s : List Char} (blanks : Blanks b) (next : Delimited s) : Delimited (b ++ s) :=
  heads_append (fun _ first => blank_delimits (blanks _ (mem_of_mem_head? first))) next

lemma Stops.delimited {s : List Char} (stops : Stops s) : Delimited s := by
  intro c first
  rcases stops c first with rfl | rfl <;> exact ⟨by decide, by decide, not_or.mpr ⟨by decide, by decide⟩⟩

lemma symbol_delimited (op : Operator) (s : List Char) : Delimited (op.symbol :: s) := by
  rintro _ ⟨⟩
  cases op <;> exact ⟨by decide, by decide, not_or.mpr ⟨by decide, by decide⟩⟩

section Completeness

variable {K : Type} {meaning : Meaning K}

section Primaries

variable {b s t : List Char} {n : ℕ} {e : Expression K}

lemma primary_parens (blanks : Blanks b)
    (run : parseFormula n (parseFormulaPrimary meaning n) s = .ok (e, ')' :: t)) :
    parseFormulaPrimary meaning (n + 1) (b ++ '(' :: s) = .ok (e, t) := by
  rw [parseFormulaPrimary, skipBlanks_append blanks (by rintro _ ⟨⟩; decide)]
  exact bind_ok.mpr ⟨_, run, rfl⟩

lemma primary_minus (blanks : Blanks b) (run : parseFormulaPrimary meaning n s = .ok (e, t)) :
    parseFormulaPrimary meaning (n + 1) (b ++ '-' :: s) = .ok (.op .neg [e], t) := by
  rw [parseFormulaPrimary, skipBlanks_append blanks (by rintro _ ⟨⟩; decide)]
  exact bind_ok.mpr ⟨_, run, rfl⟩

lemma primary_function {name : List Char} {kind : Kind} {args : List (Expression K)} (blanks : Blanks b)
    (named : (name, kind) ∈ hpcrunDialect.functions)
    (run : parseArgs (parseFormula n (parseFormulaPrimary meaning n)) n s = .ok (args, t)) :
    parseFormulaPrimary meaning (n + 1) (b ++ (name ++ '(' :: s)) = .ok (.op kind args, t) := by
  rcases named with _ | ⟨_, _ | ⟨_, none_in⟩⟩
  · change parseFormulaPrimary meaning (n + 1) (b ++ 'm' :: 'a' :: 'x' :: '(' :: s) = _
    rw [parseFormulaPrimary, skipBlanks_append blanks (by rintro _ ⟨⟩; decide)]
    exact bind_ok.mpr ⟨_, run, rfl⟩
  · change parseFormulaPrimary meaning (n + 1) (b ++ 'm' :: 'i' :: 'n' :: '(' :: s) = _
    rw [parseFormulaPrimary, skipBlanks_append blanks (by rintro _ ⟨⟩; decide)]
    exact bind_ok.mpr ⟨_, run, rfl⟩
  · cases none_in

variable {x : Unsigned}

lemma Unsigned.head (form : x.Form) (some_digit : x.digits ≠ []) (s : List Char) :
    Heads (fun c => ¬ isBlank c) (x.text ++ s) := by
  obtain ⟨sign, digits⟩ := x
  obtain ⟨d, ds, rfl⟩ := exists_cons_of_ne_nil some_digit
  cases sign with
  | none =>
    rintro _ ⟨⟩
    exact fun blank => (blank_delimits blank).1 (form.digits d mem_cons_self)
  | some c =>
    rintro _ ⟨⟩
    rcases form.sign c rfl with rfl | rfl
    · decide
    · decide

variable {id : UInt32}

lemma Unsigned.some_digit (value : x.value = some id) : x.digits ≠ [] := by
  intro empty
  rw [Unsigned.value, if_pos (.inl empty)] at value
  cases value

lemma primary_reference {b' : List Char} {metric : UInt64} (blanks : Blanks b)
    (blanks' : Blanks b') (form : x.Form) (value : x.value = some id) (known : meaning.metrics (id + 1) = some metric)
    (delimited : Delimited t) :
    parseFormulaPrimary meaning (n + 1) (b ++ '#' :: (b' ++ (x.text ++ t))) = .ok (.var metric, t) := by
  rw [parseFormulaPrimary, skipBlanks_append blanks (by rintro _ ⟨⟩; decide)]
  change parseReference meaning _ = _
  rw [parseReference, skipBlanks_append blanks' (x.head form (Unsigned.some_digit value) t),
    readUnsigned_append form (Unsigned.some_digit value) fun c first => (delimited c first).1]
  simp only [value, known]

lemma Decimal.head {x : Decimal} (form : x.Form) (complete : x.Complete) (unsigned : x.sign ≠ some '-')
    (s : List Char) : ∃ c s', x.text ++ s = c :: s' ∧ (c = '+' ∨ c.isDigit ∨ c = '.') := by
  obtain ⟨sign, whole, point, exponent⟩ := x
  cases sign with
  | some c =>
    refine ⟨c, _, rfl, .inl ((form.sign c rfl).resolve_right fun minus => unsigned (congrArg some minus))⟩
  | none =>
    cases whole with
    | cons d whole => exact ⟨d, _, rfl, .inr (.inl (form.whole d mem_cons_self))⟩
    | nil =>
      cases point with
      | none => exact absurd rfl (complete.1.resolve_left (absurd rfl))
      | some digits => exact ⟨'.', _, rfl, .inr (.inr rfl)⟩

lemma primary_number {x : Decimal} {val : K} (blanks : Blanks b) (form : x.Form) (complete : x.Complete)
    (unsigned : x.sign ≠ some '-') (value : meaning.double x = some val) (delimited : Delimited t) :
    parseFormulaPrimary meaning (n + 1) (b ++ (x.text ++ t)) = .ok (.constant val, t) := by
  have read : parseConstant meaning (x.text ++ t) = .ok (.constant val, t) := by
    rw [parseConstant, readDecimal_append form complete delimited]
    simp only [if_pos complete, value]
  obtain ⟨c, s', text, first⟩ := x.head form complete unsigned t
  rw [text] at read ⊢
  have plain : ¬ isBlank c ∧ c ≠ '(' ∧ c ≠ '-' ∧ c ≠ '#' ∧ c ≠ 'm' := by
    rcases first with rfl | digit | rfl
    · decide
    · refine ⟨fun blank => (blank_delimits blank).1 digit, ?_, ?_, ?_, ?_⟩ <;>
        exact fun same => absurd (same ▸ digit) (by decide)
    · decide
  rw [parseFormulaPrimary, skipBlanks_append blanks (by rintro _ ⟨⟩; exact plain.1)]
  split
  · rename_i same
    exact absurd (cons.inj same).1 plain.2.1
  · rename_i same
    exact absurd (cons.inj same).1 plain.2.2.1
  · rename_i same
    exact absurd (cons.inj same).1 plain.2.2.2.1
  · rename_i same
    exact absurd (cons.inj same).1 plain.2.2.2.2
  · exact read

end Primaries

variable (meaning) in
/-- The text is read as operands and operators that are grouped at a level. -/
def ReadsAs (k : ℕ) (w : List Char) (e : Expression K) : Prop :=
  ∀ rest, Delimited rest → ∃ n x ops mid, parseFormulaPrimary meaning n (w ++ rest) = .ok (x, mid) ∧
    Reads (source (parseFormulaPrimary meaning n)) mid ops rest ∧ Groups (operators K) k x ops e

variable (meaning) in
/-- What the parser makes of the texts of a nonterminal. -/
def Completes : Nonterminal → List Char → List (Expression K) → Prop
  | .sum, w, es => ∃ e, es = [e] ∧ ReadsAs meaning 0 w e
  | .product, w, es => ∃ e, es = [e] ∧ ReadsAs meaning 1 w e
  | .power, w, es => ∃ e, es = [e] ∧ ReadsAs meaning 2 w e
  | .primary, w, es => ∃ e, es = [e] ∧
      ∀ rest, Delimited rest → ∃ n, parseFormulaPrimary meaning n (w ++ rest) = .ok (e, rest)
  | .args, w, es => ∀ b rest, Blanks b → ∃ n,
      parseArgs (parseFormula n (parseFormulaPrimary meaning n)) n (w ++ (b ++ ')' :: rest)) = .ok (es, rest)

lemma reads_more {n m : ℕ} (le : n ≤ m) {s t : List Char} {ops : List (Operator × Expression K)}
    (reads : Reads (source (parseFormulaPrimary meaning n)) s ops t) :
    Reads (source (parseFormulaPrimary meaning m)) s ops t := by
  have peek : (source (parseFormulaPrimary meaning m)).peek = (source (parseFormulaPrimary meaning n)).peek := rfl
  have skip : (source (parseFormulaPrimary meaning m)).skip = (source (parseFormulaPrimary meaning n)).skip := rfl
  exact reads.mono peek skip fun _ _ run => primary_more le run

variable {w : List Char}

lemma ReadsAs.ofPrimary (k : ℕ) {e : Expression K}
    (reads : ∀ rest, Delimited rest → ∃ n, parseFormulaPrimary meaning n (w ++ rest) = .ok (e, rest)) :
    ReadsAs meaning k w e := by
  intro rest delimited
  obtain ⟨n, run⟩ := reads rest delimited
  exact ⟨n, e, [], rest, run, .nil rest, .operand k e⟩

lemma ReadsAs.weaken {j k : ℕ} (le : j ≤ k) {e : Expression K} (reads : ReadsAs meaning k w e) :
    ReadsAs meaning j w e := by
  intro rest delimited
  obtain ⟨n, x, ops, mid, operand, text, groups⟩ := reads rest delimited
  exact ⟨n, x, ops, mid, operand, text, groups.weaken le⟩

lemma ReadsAs.binary {k j₁ j₂ : ℕ} {w w' b : List Char} {l r e : Expression K}
    (first : ReadsAs meaning j₁ w l) (blanks : Blanks b) (second : ReadsAs meaning j₂ w' r)
    (node : ∀ x y before after, Groups (operators K) j₁ x before l → Groups (operators K) j₂ y after r →
      Groups (operators K) k x (before ++ (op, y) :: after) e) :
    ReadsAs meaning k (w ++ (b ++ op.symbol :: w')) e := by
  intro rest delimited
  obtain ⟨n₁, x, before, mid₁, operand₁, text₁, groups₁⟩ :=
    first (b ++ op.symbol :: (w' ++ rest)) ((symbol_delimited op _).blanks blanks)
  obtain ⟨n₂, y, after, mid₂, operand₂, text₂, groups₂⟩ := second rest delimited
  have whole : w ++ (b ++ op.symbol :: w') ++ rest = w ++ (b ++ op.symbol :: (w' ++ rest)) := by simp
  refine ⟨max n₁ n₂, x, before ++ (op, y) :: after, mid₁, ?_, ?_, node x y before after groups₁ groups₂⟩
  · rw [whole]
    exact primary_more (le_max_left _ _) operand₁
  · have first := reads_more (le_max_left n₁ n₂) text₁
    have second := reads_more (le_max_right n₁ n₂) text₂
    exact first.append (.cons (peek_symbol blanks op) (primary_more (le_max_right n₁ n₂) operand₂) second)

lemma parseFormula_complete {w rest t : List Char} {e : Expression K} (reads : ReadsAs meaning 0 w e)
    (delimited : Delimited rest) (behind : peekFormulaOperator rest = .ok (none, t)) :
    ∃ n, parseFormula n (parseFormulaPrimary meaning n) (w ++ rest) = .ok (e, t) := by
  obtain ⟨n, x, ops, mid, operand, text, groups⟩ := reads rest delimited
  obtain ⟨fuel, ahead, s, peeked, run⟩ :=
    climbs_of_reads (source_stable (parseFormulaPrimary meaning n)) ⟨rest, text, behind⟩ groups
  have long : parseFormula (max n fuel) (parseFormulaPrimary meaning n) (w ++ rest) = .ok (e, t) :=
    bind_ok.mpr ⟨_, operand, bind_ok.mpr ⟨_, peeked, climb_more (le_max_right n fuel) run⟩⟩
  refine ⟨max n fuel, ?_⟩
  rw [parseFormula_mono (primary_mono n _ (le_max_left n fuel)) le_rfl _ (by rw [long]; nofun), long]

lemma parseFormula_more {n m : ℕ} (le : n ≤ m) {s : List Char} {r : Expression K × List Char}
    (run : parseFormula n (parseFormulaPrimary meaning n) s = .ok r) :
    parseFormula m (parseFormulaPrimary meaning m) s = .ok r := by
  rw [parseFormula_mono (primary_mono n m le) le _ (by rw [run]; nofun), run]

lemma Derives.completes {nonterminal : Nonterminal} {es : List (Expression K)}
    (derives : Derives meaning hpcrunDialect nonterminal w es) : Completes meaning nonterminal w es := by
  induction derives with
  | number blanks form complete unsigned value =>
    refine ⟨_, rfl, fun rest delimited => ⟨1, ?_⟩⟩
    rw [append_assoc]
    exact primary_number blanks form complete unsigned value delimited
  | @reference b b' marker x id metric blanks marked blanks' form value known =>
    obtain rfl : marker = '#' := mem_singleton.mp marked
    refine ⟨_, rfl, fun rest delimited => ⟨1, ?_⟩⟩
    rw [append_assoc, cons_append, append_assoc]
    exact primary_reference blanks blanks' form value known delimited
  | @parens b b' w e blanks blanks' _ ih =>
    obtain ⟨_, ⟨⟩, reads⟩ := ih
    refine ⟨_, rfl, fun rest delimited => ?_⟩
    have stops : Stops (')' :: rest) := by
      rintro _ ⟨⟩
      exact .inl rfl
    obtain ⟨n, run⟩ := parseFormula_complete reads (stops.delimited.blanks blanks') (peek_stops blanks' stops)
    have text : b ++ '(' :: (w ++ (b' ++ [')'])) ++ rest = b ++ '(' :: (w ++ (b' ++ ')' :: rest)) := by simp
    rw [text]
    exact ⟨n + 1, primary_parens blanks run⟩
  | negation blanks _ _ ih =>
    obtain ⟨_, ⟨⟩, reads⟩ := ih
    refine ⟨_, rfl, fun rest delimited => ?_⟩
    obtain ⟨n, run⟩ := reads rest delimited
    rw [append_assoc, cons_append]
    exact ⟨n + 1, primary_minus blanks run⟩
  | @function b b' w name kind args blanks named blanks' _ ih =>
    refine ⟨_, rfl, fun rest _ => ?_⟩
    obtain ⟨n, run⟩ := ih b' rest blanks'
    have text : b ++ (name ++ '(' :: (w ++ (b' ++ [')']))) ++ rest =
        b ++ (name ++ '(' :: (w ++ (b' ++ ')' :: rest))) := by simp
    rw [text]
    exact ⟨n + 1, primary_function blanks named run⟩
  | arg _ ih =>
    obtain ⟨_, ⟨⟩, reads⟩ := ih
    intro b rest blanks
    have stops : Stops (')' :: rest) := by
      rintro _ ⟨⟩
      exact .inl rfl
    obtain ⟨n, run⟩ := parseFormula_complete reads (stops.delimited.blanks blanks) (peek_stops blanks stops)
    exact ⟨n + 1, bind_ok.mpr ⟨_, parseFormula_more (Nat.le_succ n) run, rfl⟩⟩
  | @moreArgs b w w' e args _ blanks _ ih₁ ih₂ =>
    obtain ⟨_, ⟨⟩, reads⟩ := ih₁
    intro b' rest blanks'
    have stops : Stops (',' :: (w' ++ (b' ++ ')' :: rest))) := by
      rintro _ ⟨⟩
      exact .inr rfl
    obtain ⟨n, run⟩ := parseFormula_complete reads (stops.delimited.blanks blanks) (peek_stops blanks stops)
    obtain ⟨m, others⟩ := ih₂ b' rest blanks'
    have text : w ++ (b ++ ',' :: w') ++ (b' ++ ')' :: rest) = w ++ (b ++ ',' :: (w' ++ (b' ++ ')' :: rest))) := by simp
    rw [text]
    have first := parseFormula_more ((le_max_left n m).trans (Nat.le_succ _)) run
    have le := (le_max_right n m).trans (Nat.le_succ _)
    have later : parseArgs (parseFormula (max n m + 1) (parseFormulaPrimary meaning (max n m + 1))) (max n m)
        (w' ++ (b' ++ ')' :: rest)) = .ok (args, rest) := by
      rw [parseArgs_mono (parseFormula_mono (primary_mono m _ le) le) m _ _ (le_max_right n m) (by rw [others]; nofun),
        others]
    exact ⟨max n m + 1, bind_ok.mpr ⟨_, first, bind_ok.mpr ⟨_, later, rfl⟩⟩⟩
  | ofPrimary _ ih =>
    obtain ⟨_, ⟨⟩, reads⟩ := ih
    exact ⟨_, rfl, ReadsAs.ofPrimary 2 reads⟩
  | @power b w w' op l r level _ blanks _ ih₁ ih₂ =>
    obtain ⟨_, ⟨⟩, first⟩ := ih₁
    obtain ⟨_, ⟨⟩, second⟩ := ih₂
    refine ⟨_, rfl, (ReadsAs.ofPrimary 3 first).binary blanks second fun x y before after group₁ group₂ => ?_⟩
    cases op with
    | sum | sub | prod | div => cases level
    | pow => exact Groups.right (p := operators K) le_rfl rfl group₁ group₂
  | ofPower _ ih =>
    obtain ⟨_, ⟨⟩, reads⟩ := ih
    exact ⟨_, rfl, reads.weaken (Nat.le_succ 1)⟩
  | @product b w w' op l r level _ blanks _ ih₁ ih₂ =>
    obtain ⟨_, ⟨⟩, first⟩ := ih₁
    obtain ⟨_, ⟨⟩, second⟩ := ih₂
    refine ⟨_, rfl, first.binary blanks second fun x y before after group₁ group₂ => ?_⟩
    cases op with
    | sum | sub | pow => cases level
    | prod | div => exact Groups.left (p := operators K) le_rfl rfl group₁ group₂
  | ofProduct _ ih =>
    obtain ⟨_, ⟨⟩, reads⟩ := ih
    exact ⟨_, rfl, reads.weaken (Nat.le_succ 0)⟩
  | @sum b w w' op l r level _ blanks _ ih₁ ih₂ =>
    obtain ⟨_, ⟨⟩, first⟩ := ih₁
    obtain ⟨_, ⟨⟩, second⟩ := ih₂
    refine ⟨_, rfl, first.binary blanks second fun x y before after group₁ group₂ => ?_⟩
    cases op with
    | prod | div | pow => cases level
    | sum | sub => exact Groups.left (p := operators K) le_rfl rfl group₁ group₂

end Completeness

/-! ## Enough fuel -/

section Halting

variable {K : Type} {meaning : Meaning K} {primary : List Char → Except ParseError (Expression K × List Char)}

variable {fuel : ℕ}

lemma parseFormula_halts (reads : ReadsPrimaries meaning primary) {s : List Char}
    (halts : ∀ t, t.length ≤ s.length → primary t ≠ .error .fuel) (enough : 2 * s.length + 1 ≤ fuel) :
    parseFormula fuel primary s ≠ .error .fuel := by
  have stable := source_stable primary
  have shrinks := source_shrinks primary reads.shorter
  refine bind_ne_error (halts s le_rfl) ?_
  rintro ⟨x, s₁⟩ operand
  have operand_le := reads.shorter _ _ _ operand
  refine bind_ne_error (peek_ne_fuel s₁) ?_
  rintro ⟨ahead, s₂⟩ peeked
  have peek_le := shrinks.peek _ _ _ peeked
  exact (climb_halts stable shrinks peek_ne_fuel s.length (fun t shorter => halts t shorter.le) fuel).1 _ _ _ _
    (stable _ _ _ peeked) (peek_le.trans operand_le) (by omega)

lemma parseArgs_halts {formula : List Char → Except ParseError (Expression K × List Char)} {n : ℕ}
    (halts : ∀ s, s.length ≤ n → formula s ≠ .error .fuel)
    (shorter : ∀ s e t, formula s = .ok (e, t) → t.length ≤ s.length) {s : List Char} (le : s.length ≤ n)
    (enough : s.length + 1 ≤ fuel) : parseArgs formula fuel s ≠ .error .fuel := by
  induction fuel generalizing s with
  | zero => cases enough
  | succ fuel ih =>
    refine bind_ne_error (halts s le) ?_
    rintro ⟨arg, s₁⟩ read
    have arg_le := shorter _ _ _ read
    dsimp only
    split
    · rw [length_cons] at arg_le
      refine bind_ne_error (ih (by omega) (by omega)) ?_
      rintro _ _ ⟨⟩
    · nofun
    · nofun

lemma skipBlanks_length (s : List Char) : (skipBlanks s).length ≤ s.length := by
  obtain ⟨b, text, -⟩ := skipBlanks_text s
  have length := congrArg length text
  rw [length_append] at length
  omega

lemma parseFormula_shorter (reads : ReadsPrimaries meaning primary) :
    ∀ s e t, parseFormula fuel primary s = .ok (e, t) → t.length ≤ s.length := by
  intro s e t run
  obtain ⟨w, b, rfl, -⟩ := parseFormula_derives reads run
  simp only [length_append]
  omega

lemma primary_halts (fuel : ℕ) : ∀ s, 2 * s.length + 2 ≤ fuel → parseFormulaPrimary meaning fuel s ≠ .error .fuel := by
  induction fuel with
  | zero => exact fun s enough => by omega
  | succ fuel ih =>
    intro s enough
    have skipped := skipBlanks_length s
    rw [parseFormulaPrimary]
    split
    · rename_i rest same
      rw [same, length_cons] at skipped
      refine bind_ne_error (parseFormula_halts (primary_derives fuel) (fun t le => ih t (by omega)) (by omega)) ?_
      rintro ⟨e, s₁⟩ _
      dsimp only
      split <;> rintro ⟨⟩
    · rename_i rest same
      rw [same, length_cons] at skipped
      refine bind_ne_error (ih _ (by omega)) ?_
      rintro _ _ ⟨⟩
    · rw [parseReference]
      dsimp only
      split
      · rintro ⟨⟩
      · split <;> rintro ⟨⟩
    · rename_i rest same
      rw [same] at skipped
      split
      · rintro ⟨⟩
      · split
        · rename_i args rest'
          have length := congrArg length (getUntil_text ('m' :: rest) '(')
          rw [rest'] at length
          simp only [length_append, length_cons] at length skipped
          have formulas : ∀ t, t.length ≤ args.length →
              parseFormula fuel (parseFormulaPrimary meaning fuel) t ≠ .error .fuel := fun t le =>
            parseFormula_halts (primary_derives fuel) (fun u le' => ih u (by omega)) (by omega)
          refine bind_ne_error
            (parseArgs_halts formulas (parseFormula_shorter (primary_derives fuel)) le_rfl (by omega)) ?_
          rintro _ _ ⟨⟩
        · rintro ⟨⟩
    · rw [parseConstant]
      dsimp only
      split <;> rintro ⟨⟩

lemma formula_halts (meaning : Meaning K) {s : List Char} (enough : 2 * s.length + 2 ≤ fuel) :
    parseFormula fuel (parseFormulaPrimary meaning fuel) s ≠ .error .fuel :=
  parseFormula_halts (primary_derives fuel) (fun t le => primary_halts fuel t (by omega)) (by omega)

lemma parse_halts (s : List Char) : parse meaning s ≠ .error .fuel := by
  refine bind_ne_error (formula_halts meaning (Nat.le_succ _)) ?_
  rintro _ _ ⟨⟩

end Halting

/-! ## The grammar of the parser -/

section Acceptance

variable {K : Type} (meaning : Meaning K)

lemma parse_complete {s : List Char} {e : Expression K} (formula : IsFormula meaning hpcrunDialect s e) :
    parse meaning s = .ok e := by
  obtain ⟨w, b, rfl, derives, blanks⟩ := formula
  obtain ⟨_, ⟨⟩, reads⟩ := derives.completes
  have stops : Stops [] := nofun
  obtain ⟨n, run⟩ := parseFormula_complete reads (stops.delimited.blanks blanks) (peek_stops blanks stops)
  rw [append_nil] at run
  have more := parseFormula_more (le_max_left n (2 * (w ++ b).length + 3)) run
  have le := le_max_right n (2 * (w ++ b).length + 3)
  have same := parseFormula_mono (primary_mono _ _ le) le (w ++ b) (formula_halts meaning (Nat.le_succ _))
  exact bind_ok.mpr ⟨_, same.symm.trans more, rfl⟩

lemma parse_sound {s : List Char} {e : Expression K} (run : parse meaning s = .ok e) :
    IsFormula meaning hpcrunDialect s e ∨ Stray meaning hpcrunDialect s e := by
  obtain ⟨⟨e', t⟩, run, same⟩ := bind_ok.mp run
  cases same
  obtain ⟨w, b, rfl, derives, blanks, stops⟩ := parseFormula_derives (primary_derives _) run
  cases t with
  | nil => exact .inl ⟨w, b, by rw [append_nil], derives, blanks⟩
  | cons c rest => exact .inr ⟨w, b, c, rest, rfl, derives, blanks, stops c rfl⟩

/-- The parser ends, gives each formula its tree, and gives trees to nothing but formulas and texts with a stray end. -/
theorem parse_accepts (s : List Char) : parse meaning s ≠ .error .fuel ∧
    (∀ e, IsFormula meaning hpcrunDialect s e → parse meaning s = .ok e) ∧
    ∀ e, parse meaning s = .ok e → IsFormula meaning hpcrunDialect s e ∨ Stray meaning hpcrunDialect s e :=
  ⟨parse_halts s, fun _ => parse_complete meaning, fun _ => parse_sound meaning⟩

/-- No text is a formula in two ways. -/
theorem one_expression_per_text (s : List Char) : {e | IsFormula meaning hpcrunDialect s e}.Subsingleton := by
  intro e formula e' other
  exact Except.ok.inj ((parse_complete meaning formula).symm.trans (parse_complete meaning other))

end Acceptance

/-- Metric references as `$n` and `@n`, without functions and negation. -/
def dollarDialect : Dialect where
  references := ['$', '@']
  functions := []
  negation := false

/-- Whole numbers, and one metric. -/
def oneReference : Meaning ℕ where
  double x := if x.point = none ∧ x.exponent = none then some (digitsValue x.whole) else none
  metrics id := if id = 1 then some 16 else none

example : (parse oneReference ['8', '-', '4', '-', '2']).toOption.map Expression.subterms =
    some (Expression.subterms (.op .sub [.op .sub [.constant 8, .constant 4], .constant 2])) := rfl

theorem dollar_reference_rejected :
    ¬ ∀ s e, parse oneReference s = .ok e ↔ IsFormula oneReference dollarDialect s e := by
  intro same
  have blanks : Blanks [] := nofun
  have number : Unsigned.Form ⟨none, ['0']⟩ := ⟨nofun, forall_mem_singleton.mpr rfl⟩
  have value : Unsigned.value ⟨none, ['0']⟩ = some 0 := by decide
  have known : oneReference.metrics (0 + 1) = some 16 := by decide
  have marked : '$' ∈ dollarDialect.references := mem_cons_self
  have reference : Derives oneReference dollarDialect .primary ['$', '0'] [.var 16] :=
    Derives.reference blanks marked blanks number value known
  have formula : IsFormula oneReference dollarDialect ['$', '0'] (.var 16) :=
    ⟨['$', '0'], [], rfl, .ofProduct (.ofPower (.ofPrimary reference)), nofun⟩
  have accepted := (same ['$', '0'] (.var 16)).mpr formula
  have rejected : parse oneReference ['$', '0'] =
      .error (.invalid "Attempt to parse invalid formula, bad constant") := rfl
  rw [rejected] at accepted
  cases accepted

end HpcToolkit.Sources.Formula
