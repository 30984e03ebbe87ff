import HpcToolkit.Packed.Attributes

/-! # Reading back packed attributes

Every field of the packed form comes back as it was written, up to the substitution of NUL bytes and the
links of a formula, which the writer follows. The records then compose.
-/

open List hiding pure_def
open Option (bind_eq_bind bind_eq_some_iff pure_def some_inj)

namespace HpcToolkit.Packed

open Lib Prof
open Packed
open Expression hiding constant op subexpression var

/-! ## Lists of records of different lengths -/

lemma reads_packAll {α β : Type} {reader : Reader β} {pack : α → Option (List UInt8)} {f : α → β} {xs : List α}
    {bytes : List UInt8} (packed : packAll pack xs = some bytes)
    (each : ∀ x ∈ xs, ∀ enc, pack x = some enc → enc.length ≤ bytes.length → Reads reader enc (f x)) :
    Reads (readMany reader xs.length) bytes (xs.map f) := by
  induction xs generalizing bytes with
  | nil =>
    cases packed
    exact reads_pure []
  | cons x rest hypothesis =>
    simp only [packAll, bind_eq_bind, bind_eq_some_iff, pure_def, some_inj] at packed
    obtain ⟨first, packedFirst, later, packedLater, rfl⟩ := packed
    rw [length_append] at each
    refine (each x (.head _) first packedFirst (by omega)).bind ?_
    refine (hypothesis packedLater fun y member enc packedY short => ?_).map fun ys => f x :: ys
    exact each y (.tail _ member) enc packedY (by omega)

lemma packAll_isSome {α : Type} {pack : α → Option (List UInt8)} {xs : List α}
    (each : ∀ x ∈ xs, ∃ enc, pack x = some enc) : ∃ bytes, packAll pack xs = some bytes := by
  induction xs with
  | nil => exact ⟨[], rfl⟩
  | cons x rest hypothesis =>
    obtain ⟨first, packedFirst⟩ := each x (.head _)
    obtain ⟨later, packedLater⟩ := hypothesis fun y member => each y (.tail _ member)
    exact ⟨first ++ later, by rw [packAll, packedFirst, packedLater]; rfl⟩

lemma packExpressions_eq_packAll (metids : UInt64 → Option UInt64) (args : List (Expression Double)) :
    packExpressions metids args = packAll (packExpression metids) args := by
  induction args with
  | nil => rfl
  | cons arg args hypothesis => rw [packExpressions, packAll, hypothesis]

/-! ## Formulas -/

mutual
/-- A formula without its links. -/
def followLinks : Expression Double → Expression Double
  | .constant value => .constant value
  | .subexpression linked => followLinks linked
  | .var uservalue => .var uservalue
  | .op kind args => .op kind (followLinksOf args)

def followLinksOf : List (Expression Double) → List (Expression Double)
  | [] => []
  | arg :: args => followLinks arg :: followLinksOf args
end

lemma followLinksOf_eq_map (args : List (Expression Double)) : followLinksOf args = args.map followLinks := by
  induction args with
  | nil => rfl
  | cons arg args hypothesis => rw [followLinksOf, map_cons, hypothesis]

/-- The formulas that come back: no operation has more arguments than a byte can count, and there are no variables. -/
structure Portable (e : Expression Double) : Prop where
  wellFormed : e.WellFormed
  counted : ∀ kind args, .op kind args ∈ e.subterms → args.length < 256
  closed : ∀ uservalue, .var uservalue ∉ e.subterms

lemma Portable.of_mem {e s : Expression Double} (portable : Portable e) (member : s ∈ e.subterms) : Portable s where
  wellFormed kind args inside := portable.wellFormed kind args (subterms_trans member inside)
  counted kind args inside := portable.counted kind args (subterms_trans member inside)
  closed uservalue inside := portable.closed uservalue (subterms_trans member inside)

variable {e : Expression Double}

lemma Portable.linked (portable : Portable (.subexpression e)) : Portable e :=
  portable.of_mem (mem_cons_of_mem _ (mem_subterms_self e))

variable {kind : Kind} {args : List (Expression Double)}

lemma Portable.arg {arg : Expression Double}
    (portable : Portable (.op kind args)) (member : arg ∈ args) : Portable arg :=
  portable.of_mem (arg_mem_subterms member)

lemma kindOfByte_kindByte (kind : Kind) : kindOfByte (kindByte kind) = some kind := by
  cases kind <;> rfl

lemma kindByte_ne_constant (kind : Kind) : kindByte kind ≠ kindConstant := by
  cases kind <;> decide

lemma kindByte_ne_variable (kind : Kind) : kindByte kind ≠ kindVariable := by
  cases kind <;> decide

lemma unpackOperands_op (addresses : List UInt64) (self : Reader (Expression Double × List UInt64)) (kind : Kind) :
    unpackOperands addresses self (kindByte kind) = unpackArguments self kind := by
  rw [unpackOperands, if_neg (kindByte_ne_constant kind), if_neg (kindByte_ne_variable kind), kindOfByte_kindByte]

variable {bytes : List UInt8}

lemma reads_arguments {self : Reader (Expression Double × List UInt64)}
    (accepted : kind.accepts args.length)
    (counted : args.length < 256)
    (read : Reads (readMany self args.length) bytes (args.map fun arg => (followLinks arg, []))) :
    Reads (unpackArguments self kind) (packU8 (.ofNat args.length) ++ bytes) (followLinks (.op kind args), []) := by
  refine (reads_u8 _).bind ?_
  have count : (UInt8.ofNat args.length).toNat = args.length := UInt8.toNat_ofNat_of_lt counted
  rw [count]
  refine read.finish ?_
  rw [length_map, if_pos accepted]
  have operands : (args.map fun arg => (followLinks arg, ([] : List UInt64))).map Prod.fst = followLinksOf args := by
    rw [followLinksOf_eq_map, map_map]
    rfl
  have requested : (args.map fun arg => (followLinks arg, ([] : List UInt64))).flatMap Prod.snd = [] := by
    simp
  rw [operands, requested]
  exact reads_pure _

variable {addresses : List UInt64} {metids : UInt64 → Option UInt64}

lemma reads_expression {fuel : ℕ} (portable : Portable e) (packed : packExpression metids e = some bytes)
    (enough : bytes.length ≤ fuel) : Reads (unpackExpression addresses fuel) bytes (followLinks e, []) := by
  induction e using Expression.inductionOn generalizing bytes fuel with
  | constant value =>
    cases packed
    cases fuel with
    | zero => simp [packU8, packU64] at enough
    | succ fuel =>
      refine (reads_u8 _).bind ?_
      rw [unpackOperands, if_pos rfl]
      exact (reads_u64 value).map fun value => (Expression.constant value, [])
  | subexpression linked hypothesis => exact hypothesis portable.linked packed enough
  | var uservalue => exact absurd (mem_subterms_self _) (portable.closed uservalue)
  | op kind args hypothesis =>
    simp only [packExpression, bind_eq_bind, bind_eq_some_iff, pure_def, some_inj,
      packExpressions_eq_packAll] at packed
    obtain ⟨operands, packedArgs, rfl⟩ := packed
    cases fuel with
    | zero => simp [packU8] at enough
    | succ fuel =>
      have member : Expression.op kind args ∈ (Expression.op kind args).subterms := mem_subterms_self _
      rw [append_assoc]
      refine (reads_u8 _).bind ?_
      rw [unpackOperands_op]
      refine reads_arguments (portable.wellFormed kind args member) (portable.counted kind args member) ?_
      refine reads_packAll packedArgs fun arg isArg enc packedArg short => ?_
      refine hypothesis arg isArg (portable.arg isArg) packedArg ?_
      simp only [packU8, length_append, length_singleton] at enough
      omega

lemma reads_formula (portable : Portable e) (packed : packExpression metids e = some bytes) :
    Reads (unpackFormula addresses) bytes (followLinks e, []) := by
  intro file off here
  have bound := here.bound
  have enough : bytes.length ≤ file.length := by omega
  exact reads_expression portable packed enough file off here

lemma packExpression_isSome (metids : UInt64 → Option UInt64) (portable : Portable e) :
    ∃ bytes, packExpression metids e = some bytes := by
  induction e using Expression.inductionOn with
  | constant value => exact ⟨_, rfl⟩
  | subexpression linked hypothesis => exact hypothesis portable.linked
  | var uservalue => exact absurd (mem_subterms_self _) (portable.closed uservalue)
  | op kind args hypothesis =>
    obtain ⟨bytes, packed⟩ := packAll_isSome fun arg member => hypothesis arg member (portable.arg member)
    exact ⟨_, by rw [packExpression, packExpressions_eq_packAll, packed]; rfl⟩

/-! ## Settings -/

def Settings.substitute (s : Settings) : Settings :=
  { s with name := Packed.substitute s.name, description := Packed.substitute s.description }

def ExtraStatistic.received (es : ExtraStatistic) : ExtraStatistic where
  name := substitute es.name
  description := substitute es.description
  scopes := es.scopes
  formula := followLinks es.formula

lemma reads_scopes (scopes : BitVec 4) : Reads unpackScopes (packScopes scopes) scopes := by
  have value := (reads_u8 (.ofNat scopes.toNat)).map fun v => BitVec.ofNat 4 v.toNat
  have small : scopes.toNat < 256 := by omega
  have count : (UInt8.ofNat scopes.toNat).toNat = scopes.toNat := UInt8.toNat_ofNat_of_lt small
  rwa [count, BitVec.ofNat_toNat, BitVec.setWidth_eq] at value

lemma reads_orderId (orderId : Option UInt32) : Reads unpackOrderId (packOrderId orderId) orderId := by
  cases orderId with
  | none => exact (reads_u64 _).map fun o => if o = 0xffffffffffffffff then none else some o.toUInt32
  | some o =>
    have value := (reads_u64 o.toUInt64).map fun o => if o = 0xffffffffffffffff then none else some o.toUInt32
    have small : o.toUInt64 ≠ 0xffffffffffffffff := by
      intro same
      have same := congrArg UInt64.toNat same
      have bound := o.toNat_lt
      have last : (0xffffffffffffffff : UInt64).toNat = 2 ^ 64 - 1 := rfl
      rw [UInt32.toNat_toUInt64, last] at same
      omega
    rwa [if_neg small, UInt32.toUInt32_toUInt64] at value

lemma reads_visibility (visibility : Visibility) :
    Reads unpackVisibility (packU8 (visibilityByte visibility)) visibility := by
  refine (reads_u8 _).finish ?_
  have found : visibilityOfByte (visibilityByte visibility) = some visibility := by
    cases visibility <;> rfl
  rw [found]
  exact reads_pure visibility

lemma reads_metric (s : Settings) (partials : ℕ) :
    Reads unpackMetric (packMetric s partials) (s.substitute, .ofNat partials) := by
  refine (reads_string _).bind ((reads_string _).bind ((reads_scopes _).bind ?_))
  exact (reads_visibility _).bind ((reads_orderId _).bind ((reads_u8 _).finish (reads_pure _)))

lemma reads_extraStatistic {es : ExtraStatistic}
    (portable : Portable es.formula) (packed : packExtraStatistic metids es = some bytes) :
    Reads (unpackExtraStatistic addresses) bytes (es.received, []) := by
  simp only [packExtraStatistic, bind_eq_bind, bind_eq_some_iff, pure_def,
    some_inj] at packed
  obtain ⟨formula, packedFormula, rfl⟩ := packed
  refine (reads_string _).bind ((reads_string _).bind ((reads_scopes _).bind ?_))
  exact (reads_formula portable packedFormula).finish (reads_pure _)

/-! ## Attributes -/

def ProfileAttributes.substitute (attr : ProfileAttributes) : ProfileAttributes where
  job := attr.job
  name := attr.name.map Packed.substitute
  path := attr.path.map Packed.substitute
  environment := attr.environment.map fun kv => (Packed.substitute kv.1, Packed.substitute kv.2)
  idtupleNames := attr.idtupleNames.map fun kv => (kv.1, Packed.substitute kv.2)

/-- What the setters of `ProfileAttributes` assert, a job id that is not the magic number, and environment
variables that the substitution keeps apart. -/
structure ProfileAttributes.Valid (attr : ProfileAttributes) : Prop where
  job : attr.job ≠ some magic
  name : attr.name ≠ some []
  path : attr.path ≠ some []
  environment : (attr.environment.map fun kv => Packed.substitute kv.1).Nodup
  idtupleNames : (attr.idtupleNames.map Prod.fst).Nodup
  environmentSize : attr.environment.length < 2 ^ 64
  idtupleNamesSize : attr.idtupleNames.length < 2 ^ 64

lemma nonempty_substitute {s : Option Str} (set : s ≠ some []) :
    nonempty (substitute (s.getD [])) = s.map substitute := by
  cases s with
  | none => rfl
  | some s =>
    have kept : substitute s ≠ [] := by
      simpa [substitute] using fun empty : s = [] => set (congrArg some empty)
    simp [nonempty, kept]

lemma job_of_magic {job : Option UInt64} (set : job ≠ some magic) :
    (if job.getD magic = magic then none else some (job.getD magic)) = job := by
  cases job with
  | none => rfl
  | some job =>
    have other : job ≠ magic := fun same => set (congrArg some same)
    simp [other]

lemma toNat_ofNat_size {n : ℕ} (bound : n < 2 ^ 64) : (UInt64.ofNat n).toNat = n :=
  UInt64.toNat_ofNat_of_lt bound

lemma reads_profileAttributes {attr : ProfileAttributes} (valid : attr.Valid) :
    Reads unpackProfileAttributes (packProfileAttributes attr) attr.substitute := by
  have pair : ∀ kv ∈ attr.environment, Reads (do return (← unpackString, ← unpackString))
      (packString kv.1 ++ packString kv.2) (substitute kv.1, substitute kv.2) :=
    fun kv _ => (reads_string kv.1).bind ((reads_string kv.2).map fun v => (substitute kv.1, v))
  have name : ∀ kv ∈ attr.idtupleNames, Reads (do return (← unpackU16, ← unpackString))
      (packU16 kv.1 ++ packString kv.2) (kv.1, substitute kv.2) :=
    fun kv _ => (reads_u16 kv.1).bind ((reads_string kv.2).map fun v => (kv.1, v))
  refine (reads_u64 _).bind ((reads_string _).bind ((reads_string _).bind ((reads_u64 _).bind ?_)))
  rw [toNat_ofNat_size valid.environmentSize]
  refine (reads_readMany_map pair).bind ((reads_u64 _).bind ?_)
  rw [toNat_ofNat_size valid.idtupleNamesSize]
  refine (reads_readMany_map name).finish ?_
  have keys : ((attr.environment.map fun kv => (substitute kv.1, substitute kv.2)).map Prod.fst).Nodup ∧
      ((attr.idtupleNames.map fun kv => (kv.1, substitute kv.2)).map Prod.fst).Nodup := by
    rw [map_map, map_map]
    exact ⟨valid.environment, valid.idtupleNames⟩
  rw [if_pos keys, job_of_magic valid.job, nonempty_substitute valid.name, nonempty_substitute valid.path]
  exact reads_pure _

/-! ## Everything -/

/-- The same attributes, metrics and formulas. -/
def Source.same (src : Source) : Unpacked where
  attributes := src.attributes
  metrics := src.metrics.map fun m => (m.settings, src.partials m)
  extraStatistics := src.extraStatistics

/-- What arrives: no NUL bytes, and no links. -/
def Source.received (src : Source) : Unpacked where
  attributes := src.attributes.substitute
  metrics := src.metrics.map fun m => (m.settings.substitute, src.partials m)
  extraStatistics := src.extraStatistics.map ExtraStatistic.received

structure Source.Portable (src : Source) : Prop where
  attributes : src.attributes.Valid
  formulas : ∀ es ∈ src.extraStatistics, Packed.Portable es.formula
  metricsSize : src.metrics.length < 2 ^ 64
  extraStatisticsSize : src.extraStatistics.length < 2 ^ 64

lemma length_freeze_lt (ss : Statistics) (sumRequested : Bool) : (freeze ss sumRequested).length < 256 := by
  rcases ss with ⟨sum, mean, min, max, stddev, cfvar⟩
  simp only [freeze, length_append]
  repeat' split
  all_goals simp

variable {src : Source}

lemma Source.Portable.sumRequested (portable : src.Portable) (m : Metric) :
    src.sumRequested m = false := by
  rw [Source.sumRequested, any_eq_false]
  intro es member
  rw [decide_eq_true_eq]
  intro inside
  obtain ⟨s, isSubterm, value⟩ := mem_filterMap.mp inside
  split at value
  · exact (portable.formulas es member).closed _ isSubterm
  · cases value

lemma Source.Portable.partials_eq {receiver : Receiver} (portable : src.Portable) {m : Metric}
    (consistent : receiver.appendStatistics m.settings.substitute = m.statistics) :
    receiver.partials [] m.settings.substitute = src.partials m := by
  rw [Receiver.partials, Source.partials, consistent, portable.sumRequested m]
  rfl

theorem packed_attributes_read_back {src : Source} {receiver : Receiver} (portable : src.Portable)
    (consistent : ∀ m ∈ src.metrics, receiver.appendStatistics m.settings.substitute = m.statistics) :
    ∃ bytes, packAttributes src = some bytes ∧ Reads (unpackAttributes receiver) bytes src.received := by
  have formulas : ∀ es ∈ src.extraStatistics, ∃ enc, packExtraStatistic src.metids es = some enc := by
    intro es member
    obtain ⟨enc, packed⟩ := packExpression_isSome src.metids (portable.formulas es member)
    exact ⟨_, by rw [packExtraStatistic, packed]; rfl⟩
  obtain ⟨estats, packed⟩ := packAll_isSome formulas
  refine ⟨_, by rw [packAttributes, packed]; rfl, ?_⟩
  refine (reads_profileAttributes portable.attributes).bind ((reads_u64 _).bind ?_)
  rw [toNat_ofNat_size portable.metricsSize]
  refine (reads_readMany_map fun m _ => reads_metric m.settings _).bind ((reads_u64 _).bind ?_)
  rw [toNat_ofNat_size portable.extraStatisticsSize]
  refine (reads_packAll packed fun es member enc packedEs _ =>
    reads_extraStatistic (portable.formulas es member) packedEs).finish ?_
  have requested : (src.extraStatistics.map fun es => (es.received, ([] : List UInt64))).flatMap Prod.snd = [] := by
    simp
  rw [requested]
  have counts : ∀ m ∈ src.metrics.map fun m => (m.settings.substitute, UInt8.ofNat (src.partials m).length),
      (receiver.partials [] m.1).length = m.2.toNat := by
    intro entry member
    obtain ⟨m, isMetric, rfl⟩ := mem_map.mp member
    rw [portable.partials_eq (consistent m isMetric)]
    exact (UInt8.toNat_ofNat_of_lt (length_freeze_lt _ _)).symm
  rw [if_pos counts, map_map, map_map]
  have metrics : src.metrics.map (fun m => (m.settings.substitute, receiver.partials [] m.settings.substitute)) =
      src.metrics.map fun m => (m.settings.substitute, src.partials m) :=
    map_congr_left fun m isMetric => by rw [portable.partials_eq (consistent m isMetric)]
  have result : src.received = ⟨src.attributes.substitute,
      src.metrics.map (fun m => (m.settings.substitute, receiver.partials [] m.settings.substitute)),
      src.extraStatistics.map ExtraStatistic.received⟩ := by
    rw [metrics]
    rfl
  rw [result]
  exact reads_pure _

/-- One metric and one formula, `1 + 2`. -/
def smallSource : Source where
  attributes := ⟨some 7, some [0x61], none, [([0x41], [0x62, 0])], [(1, [0x52])]⟩
  metrics := [⟨0x1000, ⟨[0x6d], [], 3, .shownByDefault, some 2⟩, { sum := true }⟩]
  extraStatistics := [⟨[0x65], [], 1, .op .sum [.constant one, .subexpression (.constant two)]⟩]

def sumReceiver : Receiver where
  metricAddress _ := 0x2000
  appendStatistics _ := { sum := true }

theorem smallSource_read_back :
    ∃ bytes, packAttributes smallSource = some bytes ∧ Reads (unpackAttributes sumReceiver) bytes smallSource.received := by
  refine packed_attributes_read_back ⟨⟨by decide, by decide, by decide, by decide, by decide, by decide, by decide⟩,
    ?_, by decide, by decide⟩ ?_
  · intro es member
    rw [smallSource, mem_singleton] at member
    subst member
    refine ⟨?_, ?_, ?_⟩
    · intro kind args inside
      simp only [subterms, subtermsOf, append_nil, mem_cons, mem_append,
        not_mem_nil, reduceCtorEq, Expression.op.injEq, or_false] at inside
      rw [inside.1, inside.2]
      rfl
    · intro kind args inside
      simp only [subterms, subtermsOf, append_nil, mem_cons, mem_append,
        not_mem_nil, reduceCtorEq, Expression.op.injEq, or_false] at inside
      rw [inside.2]
      decide
    · intro uservalue
      simp [subterms, subtermsOf]
  · intro m member
    rw [smallSource, mem_singleton] at member
    subst member
    rfl

/-- The name `a\0` arrives as `a?`. -/
theorem nul_in_name_is_substituted :
    ¬ ∀ (src : Source) (receiver : Receiver),
      ∃ bytes, packAttributes src = some bytes ∧ Reads (unpackAttributes receiver) bytes src.same := by
  intro roundTrips
  obtain ⟨bytes, packed, reads⟩ := roundTrips ⟨⟨none, some [0x61, 0], none, [], []⟩, [], []⟩ sumReceiver
  have run := reads bytes 0 ⟨[], [], by simp, rfl⟩
  cases packed
  have name := congrArg (Option.map fun r => r.1.attributes.name) run
  exact absurd name (by decide)

end HpcToolkit.Packed
