import HpcToolkit.Lib.ByteFile
import HpcToolkit.Prof.Expression

/-! # Packed values

The helpers `pack` and `unpack` that the packed sink and the packed source share. Integers are little
endian, and a string ends with a NUL byte. The writer puts a question mark for each NUL within a string.
-/

open List

namespace HpcToolkit.Packed

open Lib

abbrev Str := List UInt8

def packU8 (v : UInt8) : List UInt8 := [v]
def packU16 (v : UInt16) : List UInt8 := toLE 2 v.toNat
def packU64 (v : UInt64) : List UInt8 := toLE 8 v.toNat

def unpackU8 : Reader UInt8 := do return UInt8.ofNat (← readLE 1)
def unpackU16 : Reader UInt16 := do return UInt16.ofNat (← readLE 2)
def unpackU64 : Reader UInt64 := do return UInt64.ofNat (← readLE 8)

/-- What a string becomes on its way: `if(c == '\0') c = '?'`. -/
def substitute (s : Str) : Str := s.map fun c => if c = 0 then 0x3f else c

def packString (s : Str) : List UInt8 := substitute s ++ [0]

def unpackString : Reader Str := fun f =>
  let out := (f.bytes.drop f.pos).takeWhile (· ≠ 0)
  if f.pos + out.length < f.bytes.length then some (out, { f with pos := f.pos + out.length + 1 }) else none

lemma reads_u8 (v : UInt8) : Reads unpackU8 (packU8 v) v := by
  have value := (reads_readLE 1 v.toNat v.toNat_lt).map UInt8.ofNat
  have byte : toLE 1 v.toNat = [v] := by simp [toLE, toBE]
  rwa [UInt8.ofNat_toNat, byte] at value

lemma reads_u16 (v : UInt16) : Reads unpackU16 (packU16 v) v := by
  have value := (reads_readLE 2 v.toNat v.toNat_lt).map UInt16.ofNat
  rwa [UInt16.ofNat_toNat] at value

lemma reads_u64 (v : UInt64) : Reads unpackU64 (packU64 v) v := by
  have value := (reads_readLE 8 v.toNat v.toNat_lt).map UInt64.ofNat
  rwa [UInt64.ofNat_toNat] at value

lemma zero_not_mem_substitute (s : Str) : 0 ∉ substitute s := by
  intro member
  obtain ⟨c, -, value⟩ := mem_map.mp member
  split at value
  · exact absurd value (by decide)
  · contradiction

lemma substitute_eq_self {s : Str} : substitute s = s ↔ 0 ∉ s := by
  constructor
  · intro same
    rw [← same]
    exact zero_not_mem_substitute s
  · intro free
    refine (map_congr_left fun c member => if_neg ?_).trans (map_id s)
    rintro rfl
    exact free member

lemma reads_string (s : Str) : Reads unpackString (packString s) (substitute s) := by
  rintro bytes off ⟨before, after, rfl, rfl⟩
  have all : ∀ c ∈ substitute s, decide (c ≠ 0) = true := by
    intro c member
    refine decide_eq_true ?_
    rintro rfl
    exact zero_not_mem_substitute s member
  have out : ((before ++ packString s ++ after).drop before.length).takeWhile (· ≠ 0) = substitute s := by
    rw [append_assoc, drop_left, packString, append_assoc,
      takeWhile_append_of_pos all]
    simp
  have room : before.length + (substitute s).length < (before ++ packString s ++ after).length := by
    simp only [packString, length_append, length_singleton]
    omega
  simp only [unpackString, out, if_pos room]
  simp [packString, Nat.add_assoc]

end HpcToolkit.Packed

/-! # Packed attributes, metrics and formulas

`Packed::packAttributes` of the sink and `Packed::unpackAttributes` of the source. A constant of a formula
is kept as the bits of its double. The statistics of a metric are not packed: the finalizers of the
receiving pipeline request them again, and only the number of partials is compared.
-/

namespace HpcToolkit.Packed

open Lib Prof

/-! ## The data -/

/-- The bits of a `double`. -/
abbrev Double := UInt64

/-- The magic number that stands for a missing job id and for the end of a context. -/
def magic : UInt64 := 0xFEF1F0F300000000

/-- `ProfileAttributes`. The maps list their entries in the order of iteration. -/
structure ProfileAttributes where
  job : Option UInt64
  name : Option Str
  path : Option Str
  environment : List (Str × Str)
  idtupleNames : List (UInt16 × Str)

inductive Visibility where
  | shownByDefault
  | hiddenByDefault
  | invisible
deriving DecidableEq

structure Settings where
  name : Str
  description : Str
  scopes : BitVec 4
  visibility : Visibility
  orderId : Option UInt32

structure Statistics where
  sum : Bool := false
  mean : Bool := false
  min : Bool := false
  max : Bool := false
  stddev : Bool := false
  cfvar : Bool := false

inductive Combination where
  | sum
  | min
  | max

structure StatisticPartial where
  accumulate : Expression Double
  combinator : Combination

/-- The bits of `1.` and `2.`. -/
def one : Double := 0x3ff0000000000000
def two : Double := 0x4000000000000000

/-- The partials that `Metric::freeze` leaves, given whether the sum was requested before. -/
def freeze (ss : Statistics) (sumRequested : Bool) : List StatisticPartial :=
  (if sumRequested then [⟨.var 0, .sum⟩] else []) ++
  (if ss.mean || ss.stddev || ss.cfvar then [⟨.constant one, .sum⟩] else []) ++
  (if sumRequested then [] else [⟨.var 0, .sum⟩]) ++
  (if ss.stddev || ss.cfvar then [⟨.op .pow [.var 0, .constant two], .sum⟩] else []) ++
  (if ss.min then [⟨.var 0, .min⟩] else []) ++
  (if ss.max then [⟨.var 0, .max⟩] else [])

/-- A `Metric` of the sending process: where it stands in memory and what was requested of it. -/
structure Metric where
  address : UInt64
  settings : Settings
  statistics : Statistics

/-- `ExtraStatistic::Settings`, as far as it is packed. Variables of the formula are addresses of metrics. -/
structure ExtraStatistic where
  name : Str
  description : Str
  scopes : BitVec 4
  formula : Expression Double

/-- What the sink reads from its pipeline. -/
structure Source where
  attributes : ProfileAttributes
  metrics : List Metric
  extraStatistics : List ExtraStatistic

/-- The variables of a formula, in the order of `citerate_all`. -/
def formulaVariables (e : Expression Double) : List UInt64 :=
  e.subterms.filterMap fun
    | .var uservalue => some uservalue
    | _ => none

/-- A source requests the sum of every metric that a formula reads. -/
def Source.sumRequested (src : Source) (m : Metric) : Bool :=
  src.extraStatistics.any fun es => m.address ∈ formulaVariables es.formula

def Source.partials (src : Source) (m : Metric) : List StatisticPartial := freeze m.statistics (src.sumRequested m)

/-! ## Packing -/

def kindConstant : UInt8 := 0
def kindSubexpression : UInt8 := 1
def kindVariable : UInt8 := 2

/-- The value of an operation in `Expression::Kind`. -/
def kindByte : Kind → UInt8
  | .sum => 3
  | .sub => 4
  | .neg => 5
  | .prod => 6
  | .div => 7
  | .pow => 8
  | .sqrt => 9
  | .log => 10
  | .ln => 11
  | .min => 12
  | .max => 13
  | .floor => 14
  | .ceil => 15

mutual
/-- The walk over a formula. It fails where `metids.at` has no entry. -/
def packExpression (metids : UInt64 → Option UInt64) : Expression Double → Option (List UInt8)
  | .constant value => some (packU8 kindConstant ++ packU64 value)
  | .subexpression linked => packExpression metids linked
  | .var uservalue => do return packU8 kindVariable ++ packU64 (← metids uservalue)
  | .op kind args => do
    return packU8 (kindByte kind) ++ packU8 (.ofNat args.length) ++ (← packExpressions metids args)

def packExpressions (metids : UInt64 → Option UInt64) : List (Expression Double) → Option (List UInt8)
  | [] => some []
  | arg :: args => do return (← packExpression metids arg) ++ (← packExpressions metids args)
end

def packProfileAttributes (attr : ProfileAttributes) : List UInt8 :=
  packU64 (attr.job.getD magic) ++ (packString (attr.name.getD []) ++ (packString (attr.path.getD []) ++
    (packU64 (.ofNat attr.environment.length) ++
    (attr.environment.flatMap (fun kv => packString kv.1 ++ packString kv.2) ++
    (packU64 (.ofNat attr.idtupleNames.length) ++
    attr.idtupleNames.flatMap (fun kv => packU16 kv.1 ++ packString kv.2))))))

def visibilityByte : Visibility → UInt8
  | .shownByDefault => 0
  | .hiddenByDefault => 1
  | .invisible => 2

def packScopes (scopes : BitVec 4) : List UInt8 := packU8 (.ofNat scopes.toNat)

def packOrderId : Option UInt32 → List UInt8
  | some o => packU64 o.toUInt64
  | none => packU64 0xffffffffffffffff

def packMetric (s : Settings) (partials : ℕ) : List UInt8 :=
  packString s.name ++ (packString s.description ++ (packScopes s.scopes ++
    (packU8 (visibilityByte s.visibility) ++ (packOrderId s.orderId ++ packU8 (.ofNat partials)))))

def packExtraStatistic (metids : UInt64 → Option UInt64) (es : ExtraStatistic) : Option (List UInt8) := do
  let formula ← packExpression metids es.formula
  return packString es.name ++ (packString es.description ++ (packScopes es.scopes ++ formula))

def packAll {α : Type} (pack : α → Option (List UInt8)) : List α → Option (List UInt8)
  | [] => some []
  | x :: rest => do return (← pack x) ++ (← packAll pack rest)

/-- `metids`: the position of a metric among those of the pipeline. -/
def Source.metids (src : Source) (address : UInt64) : Option UInt64 :=
  (src.metrics.findIdx? fun m => m.address == address).map .ofNat

def packAttributes (src : Source) : Option (List UInt8) := do
  let estats ← packAll (packExtraStatistic src.metids) src.extraStatistics
  return packProfileAttributes src.attributes ++
    (packU64 (.ofNat src.metrics.length) ++
    (src.metrics.flatMap (fun m => packMetric m.settings (src.partials m).length) ++
    (packU64 (.ofNat src.extraStatistics.length) ++ estats)))

/-! ## Unpacking -/

/-- What the finalizers and the metric table of the receiving pipeline contribute. -/
structure Receiver where
  metricAddress : Settings → UInt64
  appendStatistics : Settings → Statistics

/-- What the source passes on to its pipeline. -/
structure Unpacked where
  attributes : ProfileAttributes
  metrics : List (Settings × List StatisticPartial)
  extraStatistics : List ExtraStatistic

/-- A cast of a byte to an operation of `Expression::Kind`. -/
def kindOfByte (byte : UInt8) : Option Kind :=
  [Kind.sum, .sub, .neg, .prod, .div, .pow, .sqrt, .log, .ln, .min, .max, .floor, .ceil].find? fun kind =>
    kindByte kind == byte

def unpackArguments (unpackExpression : Reader (Expression Double × List UInt64)) (op : Kind) :
    Reader (Expression Double × List UInt64) := do
  let argcnt ← unpackU8
  let args ← readMany unpackExpression argcnt.toNat
  if op.accepts args.length then return (.op op (args.map Prod.fst), args.flatMap Prod.snd) else failure

/-- `unpackExpression` behind its kind, together with the metrics of which it requests the sum. For a variable
it calls `Expression((Expression::uservalue_t)&m)`, the constructor of a constant. -/
def unpackOperands (addresses : List UInt64) (unpackExpression : Reader (Expression Double × List UInt64))
    (kind : UInt8) : Reader (Expression Double × List UInt64) :=
  if kind = kindConstant then do return (.constant (← unpackU64), [])
  else if kind = kindVariable then do
    match addresses[(← unpackU64).toNat]? with
    | some address => return (.constant address.toFloat.toBits, [address])
    | none => failure
  else match kindOfByte kind with
    | some op => unpackArguments unpackExpression op
    | none => failure

/-- `unpackExpression`, for formulas that nest less deeply than the fuel. -/
def unpackExpression (addresses : List UInt64) : ℕ → Reader (Expression Double × List UInt64)
  | 0 => failure
  | fuel + 1 => do unpackOperands addresses (unpackExpression addresses fuel) (← unpackU8)

/-- A formula takes a byte for each level of nesting. -/
def unpackFormula (addresses : List UInt64) : Reader (Expression Double × List UInt64) := fun f =>
  unpackExpression addresses f.bytes.length f

def nonempty (s : Str) : Option Str := if s = [] then none else some s

def unpackProfileAttributes : Reader ProfileAttributes := do
  let job ← unpackU64
  let name ← unpackString
  let path ← unpackString
  let cnt ← unpackU64
  let environment ← readMany (do return (← unpackString, ← unpackString)) cnt.toNat
  let cnt ← unpackU64
  let idtupleNames ← readMany (do return (← unpackU16, ← unpackString)) cnt.toNat
  -- both maps assert that a key is not set twice
  if (environment.map Prod.fst).Nodup ∧ (idtupleNames.map Prod.fst).Nodup then
    return ⟨if job = magic then none else some job, nonempty name, nonempty path, environment, idtupleNames⟩
  else failure

def visibilityOfByte (byte : UInt8) : Option Visibility :=
  [Visibility.shownByDefault, .hiddenByDefault, .invisible].find? fun v => visibilityByte v == byte

def unpackScopes : Reader (BitVec 4) := do return .ofNat 4 (← unpackU8).toNat

def unpackOrderId : Reader (Option UInt32) := do
  let o ← unpackU64
  return if o = 0xffffffffffffffff then none else some o.toUInt32

def unpackVisibility : Reader Visibility := do
  match visibilityOfByte (← unpackU8) with
  | some visibility => return visibility
  | none => failure

def unpackMetric : Reader (Settings × UInt8) := do
  let name ← unpackString
  let description ← unpackString
  let scopes ← unpackScopes
  let visibility ← unpackVisibility
  let orderId ← unpackOrderId
  let nparts ← unpackU8
  return (⟨name, description, scopes, visibility, orderId⟩, nparts)

def unpackExtraStatistic (addresses : List UInt64) : Reader (ExtraStatistic × List UInt64) := do
  let name ← unpackString
  let description ← unpackString
  let scopes ← unpackScopes
  let (formula, requested) ← unpackFormula addresses
  return (⟨name, description, scopes, formula⟩, requested)

/-- `sink.metricFreeze(m)`: the partials of a metric of the receiving pipeline. -/
def Receiver.partials (receiver : Receiver) (requested : List UInt64) (s : Settings) : List StatisticPartial :=
  freeze (receiver.appendStatistics s) (receiver.metricAddress s ∈ requested)

def unpackAttributes (receiver : Receiver) : Reader Unpacked := do
  let attributes ← unpackProfileAttributes
  let cnt ← unpackU64
  let metrics ← readMany unpackMetric cnt.toNat
  let cnt ← unpackU64
  let estats ← readMany (unpackExtraStatistic (metrics.map fun m => receiver.metricAddress m.1)) cnt.toNat
  let partials := receiver.partials (estats.flatMap Prod.snd)
  -- "Inconsistent number of partials across ranks!"
  if ∀ m ∈ metrics, (partials m.1).length = m.2.toNat then
    return ⟨attributes, metrics.map fun m => (m.1, partials m.1), estats.map Prod.fst⟩
  else failure

end HpcToolkit.Packed
