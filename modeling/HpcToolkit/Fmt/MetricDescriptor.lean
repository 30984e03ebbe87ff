import HpcToolkit.Fmt.Records

/-! # Metric descriptors of the profiler

A descriptor in memory has strings that may be missing and two properties that are no part of the file. The profiler
makes each of its descriptors in one place and changes a few fields of it afterwards; the type of the flags and their
unused word, by which the reader knows the present convention, stay as they were made.
-/

namespace HpcToolkit.Fmt

open Lib

/-- `metric_desc_properties_t` -/
structure MetricProperties where
  time : Bool
  cycles : Bool
deriving DecidableEq

/-- `metric_desc_t` with its `metric_aux_info_t`; the mean is given by its bits. -/
structure MetricDescT where
  name : Option (List UInt8)
  description : Option (List UInt8)
  flags : MetricFlags
  period : UInt64
  properties : MetricProperties
  formula : Option (List UInt8)
  format : Option (List UInt8)
  isFrequencyMetric : Bool
  isMultiplexed : Bool
  thresholdMean : UInt64
  numSamples : UInt64
deriving DecidableEq

/-! ## The profiler -/

def metricDescNull : MetricDescT :=
  ⟨none, none, ⟨0, 0, 0, 0, 0, 0, 0, 0⟩, 0, ⟨false, false⟩, none, none, false, false, 0, 0⟩

def hpcrunMetricFlagsNull : MetricFlags where
  ty := 0
  valTy := 0
  valFmt := 0
  move2proc := 0
  partner := 0
  show_ := 1
  showPercent := 1
  unused1 := 0

def hpcrunSetNewMetricDesc (name description : List UInt8) (valFmt : UInt8) (period : UInt64)
    (prop : MetricProperties) : MetricDescT :=
  { metricDescNull with
    name := some name
    description := some description
    period := period
    flags := { hpcrunMetricFlagsNull with ty := tyRaw, valFmt := valFmt }
    formula := none
    format := none
    properties := prop }

/-- What the profiler changes later: `hpcrun_set_display`, `hpcrun_set_move2proc`, `hpcrun_set_percent`, the formula of a
derived metric, and what perf events record. -/
inductive Change where
  | display (value : UInt8)
  | move2proc (move : Bool)
  | percent (showPercent : UInt8)
  | formula (text : List UInt8)
  | frequency (isFrequencyMetric : Bool)
  | sample (multiplexed : Bool) (thresholdMean : UInt64)

def MetricDescT.change (x : MetricDescT) : Change → MetricDescT
  | .display value => { x with flags := { x.flags with show_ := value } }
  | .move2proc move => { x with flags := { x.flags with move2proc := if move then 1 else 0 } }
  | .percent showPercent => { x with flags := { x.flags with showPercent := showPercent } }
  | .formula text => { x with formula := some text }
  | .frequency isFrequencyMetric => { x with isFrequencyMetric := isFrequencyMetric }
  | .sample multiplexed thresholdMean =>
    { x with
      isMultiplexed := x.isMultiplexed || multiplexed
      numSamples := x.numSamples + 1
      thresholdMean := thresholdMean }

/-- The flags have the type and the unused word of a new descriptor. -/
def MetricFlags.AsBuilt (flags : MetricFlags) : Prop := flags.ty = tyRaw ∧ flags.unused1 = 0

lemma asBuilt_of_changes (name description : List UInt8) (valFmt : UInt8) (period : UInt64) (prop : MetricProperties)
    (changes : List Change) :
    (changes.foldl MetricDescT.change (hpcrunSetNewMetricDesc name description valFmt period prop)).flags.AsBuilt := by
  induction changes using List.reverseRecOn with
  | nil => exact ⟨rfl, rfl⟩
  | append_singleton changes change ih =>
    rw [List.foldl_append]
    cases change <;> exact ih

/-! ## The file -/

/-- What is written of a string. -/
def strOf (str : Option (List UInt8)) : List UInt8 := str.getD []

def hpcrunFmtMetricDescFwrite (x : MetricDescT) : List UInt8 :=
  strFwrite (strOf x.name) ++ (strFwrite (strOf x.description) ++ (x.flags.bits ++ (int8Fwrite x.period ++
    (strFwrite (strOf x.formula) ++ (strFwrite (strOf x.format) ++ (boolFwrite x.isFrequencyMetric ++
      (boolFwrite x.isMultiplexed ++ (int8Fwrite x.thresholdMean ++ int8Fwrite x.numSamples))))))))

/-- The reader, with what it makes of flags in the old convention. -/
def metricDescFreadWith (old : List UInt8 → MetricFlags) : Reader MetricDescT := do
  let name ← strFread
  let description ← strFread
  let bits ← takeBytes 16
  let flags := if (MetricFlags.ofBits bits).Portable then .ofBits bits else old bits
  let period ← int8Fread
  let formula ← strFread
  let format ← strFread
  let isFrequencyMetric ← boolFread
  let isMultiplexed ← boolFread
  let thresholdMean ← int8Fread
  let numSamples ← int8Fread
  return ⟨some name, some description, flags, period, ⟨false, false⟩, some formula, some format, isFrequencyMetric,
    isMultiplexed, thresholdMean, numSamples⟩

def hpcrunFmtMetricDescFread : Reader MetricDescT := metricDescFreadWith .ofOldBits

def MetricDescT.Short (x : MetricDescT) : Prop :=
  Fmt.Short (strOf x.name) ∧ Fmt.Short (strOf x.description) ∧ Fmt.Short (strOf x.formula) ∧ Fmt.Short (strOf x.format)

instance (str : List UInt8) : Decidable (Short str) := inferInstanceAs (Decidable (str.length < 2 ^ 31))

instance (x : MetricDescT) : Decidable x.Short := inferInstanceAs (Decidable (_ ∧ _ ∧ _ ∧ _))

/-- A missing string comes back empty, and the properties are cleared. -/
def MetricDescT.fromFile (x : MetricDescT) : MetricDescT :=
  { x with
    name := some (strOf x.name)
    description := some (strOf x.description)
    formula := some (strOf x.formula)
    format := some (strOf x.format)
    properties := ⟨false, false⟩ }

variable {x : MetricDescT}

lemma MetricFlags.AsBuilt.portable {flags : MetricFlags} (asBuilt : flags.AsBuilt) : flags.Portable :=
  ⟨.inl asBuilt.1, asBuilt.2⟩

lemma reads_metricDescT (portable : x.flags.Portable) (short : x.Short) (old : List UInt8 → MetricFlags) :
    Reads (metricDescFreadWith old) (hpcrunFmtMetricDescFwrite x) x.fromFile := by
  obtain ⟨name, description, formula, format⟩ := short
  have bits : Reads (takeBytes 16) x.flags.bits x.flags.bits := by
    have whole := reads_takeBytes x.flags.bits
    rwa [MetricFlags.length_bits] at whole
  refine (reads_str name).bind ((reads_str description).bind (bits.bind ((reads_int8 x.period).bind ?_)))
  simp only [MetricFlags.ofBits_bits, if_pos portable]
  refine (reads_str formula).bind ((reads_str format).bind ((reads_bool _).bind ((reads_bool _).bind ?_)))
  exact (reads_int8 x.thresholdMean).bind ((reads_int8 x.numSamples).map (MetricDescT.mk _ _ _ _ _ _ _ _ _ _))

/-- Metric descriptors survive the file except for their properties, and the old convention is not looked at. -/
theorem metricDesc_survives (x : MetricDescT) (asBuilt : x.flags.AsBuilt) (short : x.Short) :
    Reads hpcrunFmtMetricDescFread (hpcrunFmtMetricDescFwrite x) x.fromFile ∧
      ∀ old, Reads (metricDescFreadWith old) (hpcrunFmtMetricDescFwrite x) x.fromFile :=
  ⟨reads_metricDescT asBuilt.portable short _, reads_metricDescT asBuilt.portable short⟩

/-- The descriptor of the metric `T`, in seconds. -/
def timeMetric : MetricDescT := hpcrunSetNewMetricDesc [84] [84] 2 1 ⟨true, false⟩

theorem timeMetric_survives :
    Reads hpcrunFmtMetricDescFread (hpcrunFmtMetricDescFwrite timeMetric) timeMetric.fromFile ∧
      ∀ old, Reads (metricDescFreadWith old) (hpcrunFmtMetricDescFwrite timeMetric) timeMetric.fromFile :=
  metricDesc_survives timeMetric ⟨rfl, rfl⟩ (by decide)

/-- The property of a time metric and its missing formula do not come back. -/
theorem time_property_lost : ¬ Reads hpcrunFmtMetricDescFread (hpcrunFmtMetricDescFwrite timeMetric) timeMetric := by
  intro same
  have lost := reads_metricDescT (x := timeMetric) ⟨.inl rfl, rfl⟩ (by decide) .ofOldBits
  have whole := at_self [] (hpcrunFmtMetricDescFwrite timeMetric) []
  have first := (same _ _ whole).symm.trans (lost _ _ whole)
  simp only [Option.some.injEq, Prod.mk.injEq] at first
  exact absurd first.1 (by decide)

end HpcToolkit.Fmt
