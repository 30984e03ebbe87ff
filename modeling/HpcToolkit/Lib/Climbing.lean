import Mathlib.Data.List.Induction
import Mathlib.Order.Nat

/-! # Precedence climbing

A text of operands and binary operators is read with one operator of lookahead, and grouped while it is read. The
grouping is specified by levels: a level is left or right associative, and the operands of an operator are groups of
its own level on that side and of the next level on the other.
-/

open List

namespace HpcToolkit.Lib.Climbing

/-- Where operators and operands are read from. -/
structure Source (S F Op X : Type) where
  peek : S → Except F (Option Op × S)
  skip : Op → S → S
  operand : S → Except F (X × S)

structure Precedence (Op X : Type) where
  prec : Op → ℕ
  rightAssoc : Op → Bool
  combine : Op → X → X → X
  level_assoc : ∀ op other, prec op = prec other → rightAssoc op = rightAssoc other

variable {S F Op X : Type}

/-- Looking twice for an operator finds the same one. -/
def Source.Stable (src : Source S F Op X) : Prop :=
  ∀ s ahead t, src.peek s = .ok (ahead, t) → src.peek t = .ok (ahead, t)

/-- The operator ahead belongs to the right operand of `op`. -/
def Precedence.Binds (p : Precedence Op X) (op ahead : Op) : Prop :=
  p.prec op < p.prec ahead ∨ p.rightAssoc ahead ∧ p.prec ahead = p.prec op

instance (p : Precedence Op X) (op ahead : Op) : Decidable (p.Binds op ahead) := by
  unfold Precedence.Binds
  infer_instance

section Climbing

variable (src : Source S F Op X) (p : Precedence Op X) (out : F)

mutual

/-- Groups what follows `lhs` with operators of precedence `minPrec` and more. -/
def climb : ℕ → Option Op → S → X → ℕ → Except F (X × S)
  | 0, _, _, _, _ => .error out
  | _ + 1, none, s, lhs, _ => .ok (lhs, s)
  | fuel + 1, some op, s, lhs, minPrec =>
    if minPrec ≤ p.prec op then do
      let (rhs, s) ← src.operand (src.skip op s)
      let (ahead, s) ← src.peek s
      let (rhs, ahead, s) ← climbRight fuel op ahead s rhs
      climb fuel ahead s (p.combine op lhs rhs) minPrec
    else .ok (lhs, s)

/-- Extends the right operand of `op`. -/
def climbRight : ℕ → Op → Option Op → S → X → Except F (X × Option Op × S)
  | 0, _, _, _, _ => .error out
  | _ + 1, _, none, s, rhs => .ok (rhs, none, s)
  | fuel + 1, op, some next, s, rhs =>
    if p.Binds op next then do
      let (again, s) ← src.peek s
      let (rhs, s) ← climb fuel again s rhs (p.prec op + if p.prec op < p.prec next then 1 else 0)
      let (ahead, s) ← src.peek s
      climbRight fuel op ahead s rhs
    else .ok (rhs, some next, s)

end

/-- Operators and operands that are read one after the other. -/
inductive Reads : S → List (Op × X) → S → Prop where
  | nil (s : S) : Reads s [] s
  | cons {s t u v : S} {op : Op} {x : X} {ops : List (Op × X)} (peeked : src.peek s = .ok (some op, t))
      (operand : src.operand (src.skip op t) = .ok (x, u)) (rest : Reads u ops v) : Reads s ((op, x) :: ops) v

end Climbing

/-- The value of operands and operators, grouped by operators of precedence `k` and more. -/
inductive Groups (p : Precedence Op X) : ℕ → X → List (Op × X) → X → Prop where
  | operand (k : ℕ) (x : X) : Groups p k x [] x
  | left {k : ℕ} {op : Op} {x y l r : X} {before after : List (Op × X)} (low : k ≤ p.prec op)
      (assoc : p.rightAssoc op = false) (first : Groups p (p.prec op) x before l)
      (second : Groups p (p.prec op + 1) y after r) : Groups p k x (before ++ (op, y) :: after) (p.combine op l r)
  | right {k : ℕ} {op : Op} {x y l r : X} {before after : List (Op × X)} (low : k ≤ p.prec op)
      (assoc : p.rightAssoc op = true) (first : Groups p (p.prec op + 1) x before l)
      (second : Groups p (p.prec op) y after r) : Groups p k x (before ++ (op, y) :: after) (p.combine op l r)

/-! ## Every sequence can be grouped -/

section Grouping

variable {p : Precedence Op X} {k : ℕ} {x e : X} {ops : List (Op × X)}

section
variable (groups : Groups p k x ops e)
include groups

lemma Groups.le_prec : ∀ o ∈ ops, k ≤ p.prec o.1 := by
  induction groups with
  | operand => exact fun _ none_in => absurd none_in not_mem_nil
  | left low _ _ _ ih₁ ih₂ =>
    intro o inside
    rcases mem_append.mp inside with inside | inside
    · exact low.trans (ih₁ o inside)
    · rcases mem_cons.mp inside with rfl | inside
      · exact low
      · exact low.trans (Nat.le_of_succ_le (ih₂ o inside))
  | right low _ _ _ ih₁ ih₂ =>
    intro o inside
    rcases mem_append.mp inside with inside | inside
    · exact low.trans (Nat.le_of_succ_le (ih₁ o inside))
    · rcases mem_cons.mp inside with rfl | inside
      · exact low
      · exact low.trans (ih₂ o inside)

lemma Groups.relevel {j : ℕ} (low : ∀ o ∈ ops, j ≤ p.prec o.1) : Groups p j x ops e := by
  cases groups with
  | operand => exact .operand j x
  | left _ assoc first second =>
    exact .left (low _ (mem_append_right _ mem_cons_self)) assoc first second
  | right _ assoc first second =>
    exact .right (low _ (mem_append_right _ mem_cons_self)) assoc first second

lemma Groups.weaken {j : ℕ} (low : j ≤ k) : Groups p j x ops e :=
  groups.relevel fun o inside => low.trans (groups.le_prec o inside)

lemma Groups.snoc (op : Op) (y : X) (low : k ≤ p.prec op) :
    ∃ e', Groups p k x (ops ++ [(op, y)]) e' := by
  have outermost : ∀ {k x ops e}, Groups p k x ops e → k ≤ p.prec op → (∀ o ∈ ops, p.prec op ≤ p.prec o.1) →
      (p.rightAssoc op = true → ∀ o ∈ ops, p.prec op < p.prec o.1) → ∃ e', Groups p k x (ops ++ [(op, y)]) e' := by
    intro k x ops e groups low all strict
    cases assoc : p.rightAssoc op with
    | false => exact ⟨_, .left low assoc (groups.relevel all) (.operand _ y)⟩
    | true => exact ⟨_, .right low assoc (groups.relevel (strict assoc)) (.operand _ y)⟩
  induction groups with
  | operand k x =>
    exact outermost (.operand k x) low (fun _ none_in => absurd none_in not_mem_nil)
      fun _ _ none_in => absurd none_in not_mem_nil
  | @left k root x z l r before after rootLow assoc first second _ ih =>
    by_cases inner : p.prec root < p.prec op
    · obtain ⟨e', inside⟩ := ih inner
      exact ⟨_, by simpa using Groups.left rootLow assoc first inside⟩
    · have all := (Groups.left (le_refl (p.prec root)) assoc first second).le_prec
      refine outermost (.left rootLow assoc first second) low (fun o inside => (not_lt.mp inner).trans (all o inside)) ?_
      intro right o inside
      refine lt_of_lt_of_le (lt_of_le_of_ne (not_lt.mp inner) fun same => ?_) (all o inside)
      rw [p.level_assoc op root same, assoc] at right
      cases right
  | @right k root x z l r before after rootLow assoc first second _ ih =>
    by_cases inner : p.prec root ≤ p.prec op
    · obtain ⟨e', inside⟩ := ih inner
      exact ⟨_, by simpa using Groups.right rootLow assoc first inside⟩
    · have all := (Groups.right (le_refl (p.prec root)) assoc first second).le_prec
      exact outermost (.right rootLow assoc first second) low (fun o inside => (not_le.mp inner).le.trans (all o inside))
        fun _ o inside => (not_le.mp inner).trans_le (all o inside)

end

lemma exists_groups (x : X) (ops : List (Op × X)) : ∃ e, Groups p 0 x ops e := by
  induction ops using reverseRecOn with
  | nil => exact ⟨x, .operand 0 x⟩
  | append_singleton ops last ih =>
    obtain ⟨e, groups⟩ := ih
    exact groups.snoc last.1 last.2 (Nat.zero_le _)

end Grouping

/-! ## Runs of the loops -/

section Runs

variable {src : Source S F Op X} {p : Precedence Op X} {out : F}

variable {A B : Type} {first : Except F A}

lemma bind_ok {next : A → Except F B} {b : B} :
    (first >>= next) = .ok b ↔ ∃ a, first = .ok a ∧ next a = .ok b := by
  cases first with
  | error f => exact iff_of_false nofun fun ⟨_, ok, _⟩ => by cases ok
  | ok a =>
    refine ⟨fun run => ⟨a, rfl, run⟩, ?_⟩
    rintro ⟨_, same, run⟩
    cases same
    exact run

lemma bind_mono {first first' : Except F A} {next next' : A → Except F B}
    (here : first ≠ .error out → first' = first)
    (later : ∀ a, first = .ok a → next a ≠ .error out → next' a = next a) (ends : (first >>= next) ≠ .error out) :
    (first' >>= next') = first >>= next := by
  cases first with
  | error f =>
    rw [here fun same => ends (by cases same; rfl)]
    rfl
  | ok a =>
    rw [here nofun]
    exact later a rfl ends

variable {other : Source S F Op X}

lemma climb_mono (peek : other.peek = src.peek) (skip : other.skip = src.skip)
    (operand : ∀ s, src.operand s ≠ .error out → other.operand s = src.operand s) (fuel : ℕ) :
    (∀ more ahead s lhs k, fuel ≤ more → climb src p out fuel ahead s lhs k ≠ .error out →
      climb other p out more ahead s lhs k = climb src p out fuel ahead s lhs k) ∧
    (∀ more op ahead s rhs, fuel ≤ more → climbRight src p out fuel op ahead s rhs ≠ .error out →
      climbRight other p out more op ahead s rhs = climbRight src p out fuel op ahead s rhs) := by
  induction fuel with
  | zero =>
    exact ⟨fun _ _ _ _ _ _ ends => absurd (by rw [climb]) ends,
      fun _ _ _ _ _ _ ends => absurd (by rw [climbRight]) ends⟩
  | succ fuel ih =>
    obtain ⟨outer, inner⟩ := ih
    constructor
    · rintro (_ | more) (_ | op) s lhs k enough ends
      · cases enough
      · cases enough
      · rw [climb, climb]
      · replace enough := Nat.le_of_succ_le_succ enough
        rw [climb] at ends ⊢
        rw [climb]
        split at ends
        · rename_i low
          rw [if_pos low, if_pos low]
          refine bind_mono (fun ends => by rw [skip, operand _ ends]) (fun _ _ => ?_) ends
          refine bind_mono (fun _ => by rw [peek]) fun _ _ => ?_
          exact bind_mono (inner _ _ _ _ _ enough) fun _ _ => outer _ _ _ _ _ enough
        · rename_i high
          rw [if_neg high, if_neg high]
    · rintro (_ | more) op (_ | next) s rhs enough ends
      · cases enough
      · cases enough
      · rw [climbRight, climbRight]
      · replace enough := Nat.le_of_succ_le_succ enough
        rw [climbRight] at ends ⊢
        rw [climbRight]
        split at ends
        · rename_i binds
          rw [if_pos binds, if_pos binds]
          refine bind_mono (fun _ => by rw [peek]) (fun _ _ => ?_) ends
          refine bind_mono (outer _ _ _ _ _ enough) fun _ _ => ?_
          exact bind_mono (fun _ => by rw [peek]) fun _ _ => inner _ _ _ _ _ enough
        · rename_i loose
          rw [if_neg loose, if_neg loose]

lemma climb_more {fuel more : ℕ} {ahead : Option Op} {s : S} {lhs : X} {k : ℕ} {r : X × S} (le : fuel ≤ more)
    (run : climb src p out fuel ahead s lhs k = .ok r) : climb src p out more ahead s lhs k = .ok r := by
  rw [(climb_mono rfl rfl (fun _ _ => rfl) fuel).1 _ _ _ _ _ le (by rw [run]; nofun), run]

variable {r : X × Option Op × S}

lemma climbRight_more {fuel more : ℕ} {op : Op} {ahead : Option Op} {s : S} {rhs : X}
    (le : fuel ≤ more) (run : climbRight src p out fuel op ahead s rhs = .ok r) :
    climbRight src p out more op ahead s rhs = .ok r := by
  rw [(climb_mono rfl rfl (fun _ _ => rfl) fuel).2 _ _ _ _ _ le (by rw [run]; nofun), run]

variable (src p out)

/-- What the outer loop makes of the text at `s`. -/
def Climbs (s : S) (lhs : X) (k : ℕ) (r : X × S) : Prop :=
  ∃ fuel ahead t, src.peek s = .ok (ahead, t) ∧ climb src p out fuel ahead t lhs k = .ok r

def ClimbsRight (op : Op) (s : S) (rhs : X) (r : X × Option Op × S) : Prop :=
  ∃ fuel ahead t, src.peek s = .ok (ahead, t) ∧ climbRight src p out fuel op ahead t rhs = .ok r

variable {src p out} {s t u v : S} {lhs rhs x y : X} {k : ℕ} {op next : Op} {ahead : Option Op}

lemma Climbs.unique {r r' : X × S} (run : Climbs src p out s lhs k r) (other : Climbs src p out s lhs k r') :
    r' = r := by
  obtain ⟨fuel, ahead, t, peeked, run⟩ := run
  obtain ⟨fuel', ahead', t', peeked', run'⟩ := other
  cases peeked.symm.trans peeked'
  have long := climb_more (le_max_left fuel fuel') run
  have long' := climb_more (le_max_right fuel fuel') run'
  exact Except.ok.inj (long'.symm.trans long)

lemma climbs_stop (peeked : src.peek s = .ok (ahead, t)) (high : ∀ op, ahead = some op → p.prec op < k) :
    Climbs src p out s lhs k (lhs, t) := by
  refine ⟨1, ahead, t, peeked, ?_⟩
  cases ahead with
  | none => rfl
  | some op =>
    rw [climb, if_neg]
    exact not_le.mpr (high op rfl)

lemma climbsRight_stop (peeked : src.peek s = .ok (ahead, t)) (loose : ∀ next, ahead = some next → ¬ p.Binds op next) :
    ClimbsRight src p out op s rhs (rhs, ahead, t) := by
  refine ⟨1, ahead, t, peeked, ?_⟩
  cases ahead with
  | none => rfl
  | some next =>
    rw [climbRight, if_neg]
    exact loose next rfl

lemma climbs_step {r : X × S} (peeked : src.peek s = .ok (some op, t)) (low : k ≤ p.prec op)
    (operand : src.operand (src.skip op t) = .ok (y, u)) (right : ClimbsRight src p out op u y (rhs, ahead, v))
    (stable : src.peek v = .ok (ahead, v)) (rest : Climbs src p out v (p.combine op lhs rhs) k r) :
    Climbs src p out s lhs k r := by
  obtain ⟨fuel, ahead', u', peeked', right⟩ := right
  obtain ⟨fuel', ahead'', v', peeked'', rest⟩ := rest
  cases stable.symm.trans peeked''
  refine ⟨max fuel fuel' + 1, some op, t, peeked, ?_⟩
  rw [climb, if_pos low]
  have right_more := climbRight_more (le_max_left fuel fuel') right
  have rest_more := climb_more (le_max_right fuel fuel') rest
  exact bind_ok.mpr ⟨_, operand, bind_ok.mpr ⟨_, peeked', bind_ok.mpr ⟨_, right_more, rest_more⟩⟩⟩

lemma climbsRight_step (stable : src.Stable) (peeked : src.peek s = .ok (some next, t))
    (binds : p.Binds op next)
    (grouped : Climbs src p out s rhs (p.prec op + if p.prec op < p.prec next then 1 else 0) (y, u))
    (rest : ClimbsRight src p out op u y r) : ClimbsRight src p out op s rhs r := by
  obtain ⟨fuel, ahead, t', peeked', grouped⟩ := grouped
  obtain ⟨fuel', ahead', u', peeked'', rest⟩ := rest
  cases peeked.symm.trans peeked'
  refine ⟨max fuel fuel' + 1, some next, t, peeked, ?_⟩
  rw [climbRight, if_pos binds]
  have grouped_more := climb_more (le_max_left fuel fuel') grouped
  have rest_more := climbRight_more (le_max_right fuel fuel') rest
  exact bind_ok.mpr ⟨_, stable _ _ _ peeked, bind_ok.mpr ⟨_, grouped_more, bind_ok.mpr ⟨_, peeked'', rest_more⟩⟩⟩

lemma climbs_peeked {r : X × S} (stable : src.Stable) (peeked : src.peek s = .ok (ahead, t)) :
    Climbs src p out t lhs k r ↔ Climbs src p out s lhs k r := by
  unfold Climbs
  rw [stable _ _ _ peeked, peeked]

lemma climbsRight_peeked (stable : src.Stable) (peeked : src.peek s = .ok (ahead, t)) :
    ClimbsRight src p out op t rhs r ↔ ClimbsRight src p out op s rhs r := by
  unfold ClimbsRight
  rw [stable _ _ _ peeked, peeked]

/-! ## The loops group by levels -/

variable {e : X} {ops : List (Op × X)}

variable {more : List (Op × X)}

lemma Reads.append (first : Reads src s ops t) (second : Reads src t more u) :
    Reads src s (ops ++ more) u := by
  induction first with
  | nil => exact second
  | cons peeked operand _ ih => exact .cons peeked operand (ih second)

lemma Reads.mono (peek : other.peek = src.peek) (skip : other.skip = src.skip)
    (operand : ∀ s r, src.operand s = .ok r → other.operand s = .ok r) (reads : Reads src s ops u) :
    Reads other s ops u := by
  induction reads with
  | nil => exact .nil _
  | cons peeked read _ ih => exact .cons (peek ▸ peeked) (operand _ _ (skip ▸ read)) ih

variable {before after : List (Op × X)}

lemma Reads.split (reads : Reads src s (before ++ after) u) :
    ∃ t, Reads src s before t ∧ Reads src t after u := by
  induction before generalizing s with
  | nil => exact ⟨s, .nil s, reads⟩
  | cons _ before ih =>
    cases reads with
    | cons peeked operand rest =>
      obtain ⟨t, first, second⟩ := ih rest
      exact ⟨t, .cons peeked operand first, second⟩

variable (src p) in
/-- What follows a group of precedence `k` and more does not belong to it. -/
def Follows (k : ℕ) (s : S) : Prop :=
  ∀ op t, src.peek s = .ok (some op, t) → p.prec op < k ∨ p.prec op = k ∧ p.rightAssoc op = false

lemma Follows.mono {j : ℕ} (follows : Follows src p k s) (le : k ≤ j) : Follows src p j s := by
  intro op t peeked
  rcases follows op t peeked with lower | ⟨same, left⟩
  · exact .inl (lower.trans_le le)
  · rcases le.eq_or_lt with rfl | lt
    · exact .inr ⟨same, left⟩
    · exact .inl (same ▸ lt)

lemma Follows.loose (follows : Follows src p (p.prec op) s) (peeked : src.peek s = .ok (ahead, t)) :
    ∀ next, ahead = some next → ¬ p.Binds op next := by
  rintro next rfl
  rcases follows next t peeked with lower | ⟨same, left⟩
  · rintro (higher | ⟨-, same⟩)
    · exact lower.asymm higher
    · exact lower.ne same
  · rintro (higher | ⟨right, -⟩)
    · exact higher.ne' same
    · rw [left] at right
      cases right

lemma Follows.below (follows : Follows src p k s) (peeked : src.peek s = .ok (ahead, t)) :
    ∀ op, ahead = some op → p.prec op < k + 1 := by
  rintro op rfl
  rcases follows op t peeked with lower | ⟨same, -⟩
  · exact lower.trans (Nat.lt_succ_self k)
  · exact same ▸ Nat.lt_succ_self _

/-- The level of the right operand of an operator. -/
def Precedence.rightLevel (p : Precedence Op X) (op : Op) : ℕ := if p.rightAssoc op then p.prec op else p.prec op + 1

variable (src p out) in
/-- The outer loop gets from before a group to behind it. -/
def Passes (x : X) (ops : List (Op × X)) (e : X) : Prop :=
  ∀ s u j k r, (∀ o ∈ ops, j ≤ p.prec o.1) → Reads src s ops u → k ≤ j → Follows src p j u →
    Climbs src p out u e k r → Climbs src p out s x k r

variable (src p out) in
/-- The inner loop gets from before a group to behind it. -/
def PassesRight (x : X) (ops : List (Op × X)) (e : X) : Prop :=
  ∀ op s u r, (∀ o ∈ ops, p.rightLevel op ≤ p.prec o.1) → Reads src s ops u → Follows src p (p.prec op) u →
    ClimbsRight src p out op u e r → ClimbsRight src p out op s x r

lemma climbs_root {l e : X} {r : X × S} (stable : src.Stable) (peeked : src.peek s = .ok (some op, t))
    (low : k ≤ p.prec op) (operand : src.operand (src.skip op t) = .ok (y, u))
    (second : ∀ r', ClimbsRight src p out op v e r' → ClimbsRight src p out op u y r')
    (follows : Follows src p (p.prec op) v) (run : Climbs src p out v (p.combine op l e) k r) :
    Climbs src p out s l k r := by
  obtain ⟨fuel, ahead, w, peeked', climbed⟩ := run
  have right := second _ (climbsRight_stop peeked' (follows.loose peeked'))
  have rest := (climbs_peeked stable peeked').mpr ⟨fuel, ahead, w, peeked', climbed⟩
  exact climbs_step peeked low operand right (stable _ _ _ peeked') rest

lemma passes_node {root : Op} {l e : X} {level : ℕ} (stable : src.Stable)
    (first : Passes src p out x before l) (second : PassesRight src p out y after e)
    (before_low : ∀ o ∈ before, level ≤ p.prec o.1) (after_low : ∀ o ∈ after, p.rightLevel root ≤ p.prec o.1)
    (root_low : p.prec root ≤ level) (root_follows : p.prec root < level ∨ p.rightAssoc root = false) :
    Passes src p out x (before ++ (root, y) :: after) (p.combine root l e) := by
  intro s u j k r low reads le follows run
  have at_root : j ≤ p.prec root := low _ (mem_append_right _ mem_cons_self)
  obtain ⟨s₁, reads₁, reads₂⟩ := reads.split
  cases reads₂ with
  | cons peeked operand reads₂ =>
    have root_ahead : Follows src p level s₁ := by
      intro op t again
      cases peeked.symm.trans again
      exact root_low.lt_or_eq.imp_right fun same => ⟨same, root_follows.resolve_left same.not_lt⟩
    have behind := follows.mono at_root
    refine first s s₁ level k r before_low reads₁ ((le.trans at_root).trans root_low) root_ahead ?_
    exact climbs_root stable peeked (le.trans at_root) operand (fun r' => second root _ _ r' after_low reads₂ behind)
      behind run

lemma climbsRight_of_higher (stable : src.Stable) (passes : Passes src p out x ops e)
    (higher : ∀ o ∈ ops, p.prec op + 1 ≤ p.prec o.1) (empty : ops = [] → e = x) (reads : Reads src s ops u)
    (lower : ∀ next w, src.peek u = .ok (some next, w) → p.prec next < p.prec op + 1)
    (run : ClimbsRight src p out op u e r) : ClimbsRight src p out op s x r := by
  cases ops with
  | nil =>
    cases reads
    exact empty rfl ▸ run
  | cons first ops =>
    obtain ⟨next, z⟩ := first
    have above : p.prec op < p.prec next := higher _ mem_cons_self
    obtain ⟨fuel, ahead, w, peeked', climbed⟩ := run
    have after := (climbsRight_peeked stable peeked').mpr ⟨fuel, ahead, w, peeked', climbed⟩
    have stops : Climbs src p out u e (p.prec op + 1) (e, w) := by
      refine climbs_stop peeked' ?_
      rintro last rfl
      exact lower last w peeked'
    have grouped := passes s u _ _ _ higher reads le_rfl (fun next w peeked => .inl (lower next w peeked)) stops
    cases reads with
    | cons peeked _ _ => exact climbsRight_step stable peeked (.inl above) (if_pos above ▸ grouped) after

lemma Groups.eq_of_nil (groups : Groups p k x ops e) (empty : ops = []) : e = x := by
  cases groups with
  | operand => rfl
  | left | right => exact absurd empty (by simp)

lemma Follows.lt_of_peek (follows : Follows src p (p.prec op) s) :
    ∀ next t, src.peek s = .ok (some next, t) → p.prec next < p.prec op + 1 :=
  fun next _ peeked => follows.below peeked next rfl

lemma passes_of_groups (stable : src.Stable) (groups : Groups p k x ops e) :
    Passes src p out x ops e ∧ PassesRight src p out x ops e := by
  induction groups with
  | operand k x =>
    constructor
    · intro _ _ _ _ _ _ reads _ _ run
      cases reads
      exact run
    · intro _ _ _ _ _ reads _ run
      cases reads
      exact run
  | @left k root x y l e before after rootLow assoc first second ih₁ ih₂ =>
    have outer : Passes src p out x (before ++ (root, y) :: after) (p.combine root l e) := by
      refine passes_node stable ih₁.1 ih₂.2 first.le_prec ?_ le_rfl (.inr assoc)
      rw [Precedence.rightLevel, assoc]
      exact second.le_prec
    refine ⟨outer, ?_⟩
    intro op s u r low reads follows run
    have whole : Groups p (p.prec root) x (before ++ (root, y) :: after) (p.combine root l e) :=
      .left le_rfl assoc first second
    have at_root := low _ (mem_append_right _ mem_cons_self)
    have above : p.prec op < p.prec root := by
      unfold Precedence.rightLevel at at_root
      split at at_root
      · rename_i right
        refine lt_of_le_of_ne at_root fun same => ?_
        rw [p.level_assoc _ _ same, assoc] at right
        cases right
      · exact at_root
    exact climbsRight_of_higher stable outer (fun o inside => above.trans_le (whole.le_prec o inside)) whole.eq_of_nil
      reads follows.lt_of_peek run
  | @right k root x y l e before after rootLow assoc first second ih₁ ih₂ =>
    have after_low : ∀ o ∈ after, p.rightLevel root ≤ p.prec o.1 := by
      rw [Precedence.rightLevel, assoc]
      exact second.le_prec
    have outer : Passes src p out x (before ++ (root, y) :: after) (p.combine root l e) :=
      passes_node stable ih₁.1 ih₂.2 first.le_prec after_low (Nat.le_succ _) (.inl (Nat.lt_succ_self _))
    refine ⟨outer, ?_⟩
    intro op s u r low reads follows run
    have whole : Groups p (p.prec root) x (before ++ (root, y) :: after) (p.combine root l e) :=
      .right le_rfl assoc first second
    have at_root := low _ (mem_append_right _ mem_cons_self)
    have above : p.prec op ≤ p.prec root := by
      unfold Precedence.rightLevel at at_root
      split at at_root
      · exact at_root
      · exact Nat.le_of_succ_le at_root
    rcases above.lt_or_eq with above | same
    · exact climbsRight_of_higher stable outer (fun o inside => above.trans_le (whole.le_prec o inside)) whole.eq_of_nil
        reads follows.lt_of_peek run
    · -- the root is taken by a round of its own, after what its left operand has of higher operators
      obtain ⟨s₁, reads₁, reads₂⟩ := reads.split
      cases reads₂ with
      | cons peeked operand reads₂ =>
        obtain ⟨fuel, ahead, w, peeked', climbed⟩ := run
        have behind := (climbsRight_peeked stable peeked').mpr ⟨fuel, ahead, w, peeked', climbed⟩
        have stops : Climbs src p out u (p.combine root l e) (p.prec op) (p.combine root l e, w) := by
          refine climbs_stop peeked' ?_
          rintro next rfl
          refine (follows next w peeked').resolve_right fun ⟨level, left⟩ => ?_
          rw [p.level_assoc _ _ (level.trans same), assoc] at left
          cases left
        have root_follows : Follows src p (p.prec root) u := same ▸ follows
        have grouped := climbs_root stable peeked above operand
          (fun r' => ih₂.2 root _ _ r' after_low reads₂ root_follows) root_follows stops
        refine climbsRight_of_higher stable ih₁.1 (same ▸ first.le_prec) first.eq_of_nil reads₁ ?_ ?_
        · intro next t again
          cases peeked.symm.trans again
          exact same ▸ Nat.lt_succ_self _
        · refine climbsRight_step stable peeked (.inr ⟨assoc, same.symm⟩) ?_ behind
          rw [if_neg same.not_lt]
          exact grouped

/-! ## What the loops read -/

variable (src) in
/-- Operators and operands are read from `s`, and looking for one more finds `ahead`. -/
def ReadsTo (s : S) (ops : List (Op × X)) (ahead : Option Op) (v : S) : Prop :=
  ∃ w, Reads src s ops w ∧ src.peek w = .ok (ahead, v)

lemma ReadsTo.stable (stable : src.Stable) (reads : ReadsTo src s ops ahead v) : src.peek v = .ok (ahead, v) := by
  obtain ⟨w, -, peeked⟩ := reads
  exact stable _ _ _ peeked

section
variable (stable : src.Stable)
include stable

lemma ReadsTo.unpeek {first : Option Op} (peeked : src.peek s = .ok (first, t))
    (reads : ReadsTo src t ops ahead v) : ReadsTo src s ops ahead v := by
  have again := stable _ _ _ peeked
  obtain ⟨w, reads, behind⟩ := reads
  cases reads with
  | nil =>
    cases again.symm.trans behind
    exact ⟨s, .nil s, peeked⟩
  | cons next operand rest =>
    cases again.symm.trans next
    exact ⟨w, .cons peeked operand rest, behind⟩

lemma ReadsTo.append {last : Option Op}
    (first : ReadsTo src s ops ahead t) (second : ReadsTo src t more last v) : ReadsTo src s (ops ++ more) last v := by
  obtain ⟨w, reads, peeked⟩ := first
  obtain ⟨w', reads', peeked'⟩ := second.unpeek stable peeked
  exact ⟨w', reads.append reads', peeked'⟩

lemma climb_reads (fuel : ℕ) :
    (∀ ahead s lhs k r, src.peek s = .ok (ahead, s) → climb src p out fuel ahead s lhs k = .ok r →
      ∃ ops last, ReadsTo src s ops last r.2 ∧ ∀ op, last = some op → p.prec op < k) ∧
    (∀ op ahead s rhs r, src.peek s = .ok (ahead, s) → climbRight src p out fuel op ahead s rhs = .ok r →
      ∃ ops, ReadsTo src s ops r.2.1 r.2.2) := by
  induction fuel with
  | zero =>
    constructor
    · intro _ _ _ _ _ _ run
      rw [climb] at run
      cases run
    · intro _ _ _ _ _ _ run
      rw [climbRight] at run
      cases run
  | succ fuel ih =>
    obtain ⟨outer, inner⟩ := ih
    constructor
    · rintro (_ | op) s lhs k r here run
      · rw [climb] at run
        cases run
        exact ⟨[], none, ⟨s, .nil s, here⟩, nofun⟩
      · rw [climb] at run
        split at run
        · obtain ⟨⟨x, t⟩, operand, run⟩ := bind_ok.mp run
          obtain ⟨⟨ahead, u⟩, peeked, run⟩ := bind_ok.mp run
          obtain ⟨⟨rhs, ahead', v⟩, right, run⟩ := bind_ok.mp run
          obtain ⟨ops, reads⟩ := inner _ _ _ _ _ (stable _ _ _ peeked) right
          obtain ⟨more, last, reads', high⟩ := outer _ _ _ _ _ (reads.stable stable) run
          obtain ⟨w, all, behind⟩ := (reads.unpeek stable peeked).append stable reads'
          exact ⟨(op, x) :: (ops ++ more), last, ⟨w, .cons here operand all, behind⟩, high⟩
        · rename_i high
          cases run
          refine ⟨[], some op, ⟨s, .nil s, here⟩, ?_⟩
          rintro _ ⟨⟩
          exact not_le.mp high
    · rintro op (_ | next) s rhs r here run
      · rw [climbRight] at run
        cases run
        exact ⟨[], s, .nil s, here⟩
      · rw [climbRight] at run
        split at run
        · obtain ⟨⟨again, t⟩, peeked, run⟩ := bind_ok.mp run
          obtain ⟨⟨rhs', u⟩, grouped, run⟩ := bind_ok.mp run
          obtain ⟨⟨ahead, v⟩, peeked', run⟩ := bind_ok.mp run
          obtain ⟨ops, last, reads, -⟩ := outer _ _ _ _ _ (stable _ _ _ peeked) grouped
          cases (reads.stable stable).symm.trans peeked'
          obtain ⟨more, reads'⟩ := inner _ _ _ _ _ (reads.stable stable) run
          exact ⟨ops ++ more, (reads.unpeek stable peeked).append stable reads'⟩
        · cases run
          exact ⟨[], s, .nil s, here⟩

lemma climbs_of_reads (reads : ReadsTo src s ops none v) (groups : Groups p 0 x ops e) :
    Climbs src p out s x 0 (e, v) := by
  obtain ⟨w, reads, behind⟩ := reads
  refine (passes_of_groups stable groups).1 s w 0 0 (e, v) (fun _ _ => Nat.zero_le _) reads le_rfl ?_ ?_
  · intro op t peeked
    cases behind.symm.trans peeked
  · exact climbs_stop behind nofun

lemma climbs_iff : Climbs src p out s x 0 (e, v) ↔
    ∃ ops, ReadsTo src s ops none v ∧ Groups p 0 x ops e := by
  constructor
  · intro climbs
    obtain ⟨fuel, ahead, t, peeked, run⟩ := climbs
    obtain ⟨ops, last, reads, high⟩ := (climb_reads stable fuel).1 _ _ _ _ _ (stable _ _ _ peeked) run
    cases last with
    | some op => exact absurd (high op rfl) (Nat.not_lt_zero _)
    | none =>
      have all := reads.unpeek stable peeked
      obtain ⟨e', groups⟩ := exists_groups (p := p) x ops
      have other : Climbs src p out s x 0 (e', v) := climbs_of_reads stable all groups
      cases Climbs.unique ⟨fuel, ahead, t, peeked, run⟩ other
      exact ⟨ops, all, groups⟩
  · rintro ⟨ops, reads, groups⟩
    exact climbs_of_reads stable reads groups

end

/-! ## One operator again and again -/

section Chains

variable {ys : List X} {fuel : ℕ}

lemma climb_left (left : p.rightAssoc op = false) (low : k ≤ p.prec op) (reads : Reads src s (ys.map (op, ·)) u)
    (behind : src.peek u = .ok (none, v)) (peeked : src.peek s = .ok (ahead, t)) (enough : ys.length + 1 < fuel) :
    climb src p out fuel ahead t lhs k = .ok (ys.foldl (p.combine op) lhs, v) := by
  induction ys generalizing s t ahead lhs fuel with
  | nil =>
    obtain ⟨fuel, rfl⟩ := Nat.exists_eq_add_one.mpr (Nat.zero_lt_of_lt enough)
    cases reads
    cases behind.symm.trans peeked
    rfl
  | cons y ys ih =>
    obtain ⟨fuel, rfl⟩ := Nat.exists_eq_add_one.mpr (Nat.zero_lt_of_lt enough)
    replace enough := Nat.lt_of_succ_lt_succ enough
    obtain ⟨more, rfl⟩ := Nat.exists_eq_add_one.mpr (Nat.zero_lt_of_lt enough)
    cases reads with
    | @cons _ _ s' _ _ _ _ peeked' operand rest =>
      cases peeked'.symm.trans peeked
      have next : ∃ ahead w, src.peek s' = .ok (ahead, w) ∧
          climbRight src p out (more + 1) op ahead w y = .ok (y, ahead, w) := by
        cases ys with
        | nil =>
          cases rest
          exact ⟨none, v, behind, rfl⟩
        | cons z ys =>
          cases rest with
          | @cons _ w _ _ _ _ _ again _ _ =>
            refine ⟨some op, w, again, ?_⟩
            rw [climbRight, if_neg]
            rintro (lower | ⟨right, -⟩)
            · exact lt_irrefl _ lower
            · rw [left] at right
              cases right
      obtain ⟨ahead, w, again, right⟩ := next
      rw [climb, if_pos low]
      exact bind_ok.mpr ⟨_, operand, bind_ok.mpr ⟨_, again, bind_ok.mpr ⟨_, right, ih rest again enough⟩⟩⟩

/-- `x op (y op (... op z))` -/
def nestRight (f : X → X → X) : X → List X → X
  | x, [] => x
  | x, y :: ys => f x (nestRight f y ys)

lemma climb_right (stable : src.Stable) (right : p.rightAssoc op = true) (low : k ≤ p.prec op)
    (reads : Reads src s (ys.map (op, ·)) u) (behind : src.peek u = .ok (none, v))
    (peeked : src.peek s = .ok (ahead, t)) (enough : 2 * ys.length + 1 < fuel) :
    climb src p out fuel ahead t lhs k = .ok (nestRight (p.combine op) lhs ys, v) := by
  induction ys generalizing s t ahead lhs k fuel with
  | nil =>
    obtain ⟨fuel, rfl⟩ := Nat.exists_eq_add_one.mpr (Nat.zero_lt_of_lt enough)
    cases reads
    cases behind.symm.trans peeked
    rfl
  | cons y ys ih =>
    rw [length_cons] at enough
    obtain ⟨fuel, rfl⟩ : ∃ n, fuel = n + 3 := ⟨fuel - 3, by omega⟩
    have ended : src.peek v = .ok (none, v) := stable _ _ _ behind
    cases reads with
    | @cons _ _ s' _ _ _ _ peeked' operand rest =>
      cases peeked'.symm.trans peeked
      have next : ∃ ahead w, src.peek s' = .ok (ahead, w) ∧
          climbRight src p out (fuel + 2) op ahead w y = .ok (nestRight (p.combine op) y ys, none, v) := by
        cases ys with
        | nil =>
          cases rest
          exact ⟨none, v, behind, rfl⟩
        | cons z ys =>
          have grouped (w : S) (again : src.peek s' = .ok (some op, w)) :
              climb src p out (fuel + 1) (some op) w y (p.prec op) = .ok (nestRight (p.combine op) y (z :: ys), v) :=
            ih le_rfl rest again (by omega)
          cases rest with
          | @cons _ w _ _ _ _ _ again _ _ =>
            refine ⟨some op, w, again, ?_⟩
            rw [climbRight, if_pos (.inr ⟨right, rfl⟩), if_neg (lt_irrefl _)]
            exact bind_ok.mpr ⟨_, stable _ _ _ again, bind_ok.mpr ⟨_, grouped w again, bind_ok.mpr ⟨_, ended, rfl⟩⟩⟩
      obtain ⟨ahead, w, again, climbed⟩ := next
      rw [climb, if_pos low]
      exact bind_ok.mpr ⟨_, operand, bind_ok.mpr ⟨_, again, bind_ok.mpr ⟨_, climbed, rfl⟩⟩⟩

end Chains

/-! ## Termination -/

/-- Each operator is part of the text, which does not get longer. -/
structure Source.Shrinks (src : Source S F Op X) (size : S → ℕ) : Prop where
  peek : ∀ s ahead t, src.peek s = .ok (ahead, t) → size t ≤ size s
  skip : ∀ s op, src.peek s = .ok (some op, s) → size (src.skip op s) < size s
  operand : ∀ s x t, src.operand s = .ok (x, t) → size t ≤ size s

variable {size : S → ℕ}

lemma Reads.size_le (shrinks : src.Shrinks size) (stable : src.Stable) (reads : Reads src s ops u) :
    size u + ops.length ≤ size s := by
  induction reads with
  | nil => exact le_rfl
  | cons peeked operand _ ih =>
    have peek := shrinks.peek _ _ _ peeked
    have skip := shrinks.skip _ _ (stable _ _ _ peeked)
    have read := shrinks.operand _ _ _ operand
    rw [length_cons]
    omega

lemma ReadsTo.size_le (shrinks : src.Shrinks size) (stable : src.Stable) (reads : ReadsTo src s ops ahead v) :
    size v + ops.length ≤ size s := by
  obtain ⟨w, reads, peeked⟩ := reads
  have before := reads.size_le shrinks stable
  have behind := shrinks.peek _ _ _ peeked
  omega

lemma bind_ne_error {next : A → Except F B} {f : F} (here : first ≠ .error f)
    (later : ∀ a, first = .ok a → next a ≠ .error f) : (first >>= next) ≠ .error f := by
  cases first with
  | error g => exact fun same => here (by cases same; rfl)
  | ok a => exact later a rfl

lemma Precedence.Binds.level_le (binds : p.Binds op next) :
    (p.prec op + if p.prec op < p.prec next then 1 else 0) ≤ p.prec next := by
  split
  · assumption
  · rename_i notLower
    exact ((binds.resolve_left notLower).2).ge

lemma climb_halts (stable : src.Stable) (shrinks : src.Shrinks size) (peeks : ∀ s, src.peek s ≠ .error out) (n : ℕ)
    (operands : ∀ s, size s < n → src.operand s ≠ .error out) (fuel : ℕ) :
    (∀ ahead s lhs k, src.peek s = .ok (ahead, s) → size s ≤ n → 2 * size s + 1 ≤ fuel →
      climb src p out fuel ahead s lhs k ≠ .error out) ∧
    (∀ op ahead s rhs, src.peek s = .ok (ahead, s) → size s ≤ n → 2 * size s + 2 ≤ fuel →
      climbRight src p out fuel op ahead s rhs ≠ .error out) := by
  induction fuel with
  | zero => exact ⟨fun _ _ _ _ _ _ enough => by omega, fun _ _ _ _ _ _ enough => by omega⟩
  | succ fuel ih =>
    obtain ⟨outer, inner⟩ := ih
    constructor
    · rintro (_ | op) s lhs k here within enough
      · rw [climb]
        nofun
      · rw [climb]
        split
        · have skipped := shrinks.skip _ _ here
          refine bind_ne_error (operands _ (by omega)) ?_
          rintro ⟨x, t⟩ operand
          have read := shrinks.operand _ _ _ operand
          refine bind_ne_error (peeks t) ?_
          rintro ⟨ahead, u⟩ peeked
          have ahead_le := shrinks.peek _ _ _ peeked
          refine bind_ne_error (inner _ _ _ _ (stable _ _ _ peeked) (by omega) (by omega)) ?_
          rintro ⟨rhs, ahead', v⟩ right
          obtain ⟨ops, reads⟩ := (climb_reads stable fuel).2 _ _ _ _ _ (stable _ _ _ peeked) right
          have right_le : size v + ops.length ≤ size u := reads.size_le shrinks stable
          exact outer _ _ _ _ (reads.stable stable) (by omega) (by omega)
        · nofun
    · rintro op (_ | next) s rhs here within enough
      · rw [climbRight]
        nofun
      · rw [climbRight]
        split
        · rename_i binds
          rw [here]
          refine bind_ne_error nofun ?_
          rintro _ ⟨⟩
          refine bind_ne_error (outer _ _ _ _ here within (by omega)) ?_
          rintro ⟨rhs', u⟩ grouped
          obtain ⟨ops, last, reads, high⟩ := (climb_reads stable fuel).1 _ _ _ _ _ here grouped
          have grouped_le : size u + ops.length ≤ size s := reads.size_le shrinks stable
          have some_read : 0 < ops.length := by
            refine length_pos_iff.mpr ?_
            rintro rfl
            obtain ⟨w, nothing, peeked⟩ := reads
            cases nothing
            cases here.symm.trans peeked
            exact (high next rfl).not_ge binds.level_le
          refine bind_ne_error (peeks u) ?_
          rintro ⟨ahead, v⟩ peeked
          have ahead_le := shrinks.peek _ _ _ peeked
          exact inner _ _ _ _ (stable _ _ _ peeked) (by omega) (by omega)
        · nofun

end Runs

end HpcToolkit.Lib.Climbing
