import HpcToolkit.Lib.ByteFile
import HpcToolkit.Cct.Fwrite

/-! # Records of an hpcrun file

Writers produce bytes and readers consume them, field by field in the order of `hpcrun-fmt.c`; integers
are big-endian. A string is its characters, with `NULL` written as the empty string. The metric flags
are written as they lie in memory on a little-endian host.
-/

open List

namespace HpcToolkit.Fmt

open Lib Cct

/-! ## Integers and strings -/

def int2Fwrite (v : UInt16) : List UInt8 := toBE 2 v.toNat
def int4Fwrite (v : UInt32) : List UInt8 := toBE 4 v.toNat
def int8Fwrite (v : UInt64) : List UInt8 := toBE 8 v.toNat

def int2Fread : Reader UInt16 := do return UInt16.ofNat (← readBE 2)
def int4Fread : Reader UInt32 := do return UInt32.ofNat (← readBE 4)
def int8Fread : Reader UInt64 := do return UInt64.ofNat (← readBE 8)

@[simp] lemma length_int2Fwrite (v : UInt16) : (int2Fwrite v).length = 2 := length_toBE 2 _
@[simp] lemma length_int4Fwrite (v : UInt32) : (int4Fwrite v).length = 4 := length_toBE 4 _
@[simp] lemma length_int8Fwrite (v : UInt64) : (int8Fwrite v).length = 8 := length_toBE 8 _

lemma reads_int2 (v : UInt16) : Reads int2Fread (int2Fwrite v) v := by
  have value := (reads_readBE 2 v.toNat v.toNat_lt).map UInt16.ofNat
  rwa [UInt16.ofNat_toNat] at value

lemma reads_int4 (v : UInt32) : Reads int4Fread (int4Fwrite v) v := by
  have value := (reads_readBE 4 v.toNat v.toNat_lt).map UInt32.ofNat
  rwa [UInt32.ofNat_toNat] at value

lemma reads_int8 (v : UInt64) : Reads int8Fread (int8Fwrite v) v := by
  have value := (reads_readBE 8 v.toNat v.toNat_lt).map UInt64.ofNat
  rwa [UInt64.ofNat_toNat] at value

def strFwrite (str : List UInt8) : List UInt8 := int4Fwrite (.ofNat str.length) ++ str

def strFread : Reader (List UInt8) := do
  let len ← int4Fread
  takeBytes len.toNat

/-- The lengths an `int` can count up to. -/
def Short (str : List UInt8) : Prop := str.length < 2 ^ 31

lemma reads_str {str : List UInt8} (short : Short str) : Reads strFread (strFwrite str) str := by
  have len : (UInt32.ofNat str.length).toNat = str.length :=
    UInt32.toNat_ofNat_of_lt' (lt_trans short (by decide))
  refine (reads_int4 _).bind ?_
  rw [len]
  exact reads_takeBytes str

/-! ## Header -/

structure NvPair where
  name : List UInt8
  val : List UInt8
deriving DecidableEq

def NvPair.Short (nv : NvPair) : Prop := Fmt.Short nv.name ∧ Fmt.Short nv.val

def nvpairFwrite (nv : NvPair) : List UInt8 := strFwrite nv.name ++ strFwrite nv.val

/-- `hpcfmt_nvpair_fread` of a pair that is all there. -/
def nvpairFread : Reader NvPair := do
  let name ← strFread
  let val ← strFread
  return ⟨name, val⟩

lemma reads_nvpair {nv : NvPair} (short : nv.Short) : Reads nvpairFread (nvpairFwrite nv) nv :=
  (reads_str short.1).bind ((reads_str short.2).map (NvPair.mk nv.name))

/-- `hpcfmt_nvpairs_vfwrite`. -/
def nvpairsFwrite (nvps : List NvPair) : List UInt8 :=
  int4Fwrite (.ofNat nvps.length) ++ nvps.flatMap nvpairFwrite

def nvpairListFread : Reader (List NvPair) := do
  let len ← int4Fread
  readMany nvpairFread len.toNat

variable {nvps : List NvPair}

lemma reads_nvpairs (count : nvps.length < 2 ^ 32) (short : ∀ nv ∈ nvps, nv.Short) :
    Reads nvpairListFread (nvpairsFwrite nvps) nvps := by
  refine (reads_int4 _).bind ?_
  rw [UInt32.toNat_ofNat_of_lt' count]
  exact reads_readMany fun nv member => reads_nvpair (short nv member)

/-- `HPCRUN_FMT_Magic`, `HPCRUN-profile____`. -/
def hpcrunFmtMagic : List UInt8 :=
  [0x48, 0x50, 0x43, 0x52, 0x55, 0x4e, 0x2d, 0x70, 0x72, 0x6f, 0x66, 0x69, 0x6c, 0x65, 0x5f, 0x5f, 0x5f, 0x5f]

/-- `HPCRUN_FMT_Version`, `04.00`. -/
def hpcrunFmtVersion : List UInt8 := [0x30, 0x34, 0x2e, 0x30, 0x30]

/-- `HPCRUN_FMT_Endian`, `b`. -/
def hpcrunFmtEndian : List UInt8 := [0x62]

/-- `hpcrun_fmt_hdr_t`; `version` is the value of `versionStr`. -/
structure Hdr where
  versionStr : List UInt8
  endian : List UInt8
  nvps : List NvPair
deriving DecidableEq

def hpcrunFmtHdrFwrite (nvps : List NvPair) : List UInt8 :=
  hpcrunFmtMagic ++ (hpcrunFmtVersion ++ (hpcrunFmtEndian ++ nvpairsFwrite nvps))

def hpcrunFmtHdrFread : Reader Hdr := do
  let tag ← takeBytes hpcrunFmtMagic.length
  if tag ≠ hpcrunFmtMagic then failure
  let versionStr ← takeBytes hpcrunFmtVersion.length
  let endian ← takeBytes hpcrunFmtEndian.length
  let nvps ← nvpairListFread
  return ⟨versionStr, endian, nvps⟩

lemma reads_hdr (count : nvps.length < 2 ^ 32) (short : ∀ nv ∈ nvps, nv.Short) :
    Reads hpcrunFmtHdrFread (hpcrunFmtHdrFwrite nvps) ⟨hpcrunFmtVersion, hpcrunFmtEndian, nvps⟩ := by
  refine (reads_takeBytes hpcrunFmtMagic).bind ?_
  rw [if_neg (by simp)]
  refine (reads_takeBytes hpcrunFmtVersion).bind ((reads_takeBytes hpcrunFmtEndian).bind ?_)
  exact (reads_nvpairs count short).map (Hdr.mk hpcrunFmtVersion hpcrunFmtEndian)

/-! ## Load map -/

structure LoadmapEntry where
  id : UInt16
  name : List UInt8
  flags : UInt64
deriving DecidableEq

def loadmapEntryFwrite (x : LoadmapEntry) : List UInt8 :=
  int2Fwrite x.id ++ (strFwrite x.name ++ int8Fwrite x.flags)

def loadmapEntryFread : Reader LoadmapEntry := do
  let id ← int2Fread
  let name ← strFread
  let flags ← int8Fread
  return ⟨id, name, flags⟩

lemma reads_loadmapEntry {x : LoadmapEntry} (short : Short x.name) :
    Reads loadmapEntryFread (loadmapEntryFwrite x) x :=
  (reads_int2 x.id).bind ((reads_str short).bind ((reads_int8 x.flags).map (LoadmapEntry.mk x.id x.name)))

/-! ## Calling context tree nodes -/

def cctNodeFwrite (x : FmtCctNode) : List UInt8 :=
  int4Fwrite x.id ++ (int4Fwrite x.idParent ++ (int2Fwrite x.lmId ++ (int8Fwrite x.lmIp ++
    [if x.unwound then 1 else 0])))

def cctNodeFread : Reader FmtCctNode := do
  let id ← int4Fread
  let idParent ← int4Fread
  let lmId ← int2Fread
  let lmIp ← int8Fread
  let cctFlags ← takeBytes 1
  return ⟨id, idParent, lmId, lmIp, cctFlags.headD 0 &&& 1 != 0⟩

@[simp] lemma length_cctNodeFwrite (x : FmtCctNode) : (cctNodeFwrite x).length = 19 := by
  simp [cctNodeFwrite]

lemma reads_cctNode (x : FmtCctNode) : Reads cctNodeFread (cctNodeFwrite x) x := by
  obtain ⟨id, idParent, lmId, lmIp, unwound⟩ := x
  refine (reads_int4 id).bind ((reads_int4 idParent).bind ((reads_int2 lmId).bind ((reads_int8 lmIp).bind ?_)))
  have flags := (reads_takeBytes [if unwound then (1 : UInt8) else 0]).map fun cctFlags =>
    (⟨id, idParent, lmId, lmIp, cctFlags.headD 0 &&& 1 != 0⟩ : FmtCctNode)
  cases unwound <;> exact flags

/-! ## Metric descriptors -/

structure MetricFlags where
  ty : UInt8
  valTy : UInt8
  valFmt : UInt8
  move2proc : UInt8
  partner : UInt16
  show_ : UInt8
  showPercent : UInt8
  unused1 : UInt64
deriving DecidableEq

def tyRaw : UInt8 := 1

def tyFinal : UInt8 := 2

/-- The union member `bits`. -/
def MetricFlags.bits (flags : MetricFlags) : List UInt8 :=
  [flags.ty, flags.valTy, flags.valFmt, flags.move2proc] ++ toLE 2 flags.partner.toNat ++
    [flags.show_, flags.showPercent] ++ toLE 8 flags.unused1.toNat

/-- The fields of the union after its `bits` are read. -/
def MetricFlags.ofBits (bits : List UInt8) : MetricFlags where
  ty := bits.getD 0 0
  valTy := bits.getD 1 0
  valFmt := bits.getD 2 0
  move2proc := bits.getD 3 0
  partner := .ofNat (ofLE ((bits.drop 4).take 2))
  show_ := bits.getD 6 0
  showPercent := bits.getD 7 0
  unused1 := .ofNat (ofLE ((bits.drop 8).take 8))

/-- The flags in the old convention, whose bit fields lie in the first big-endian word. -/
def MetricFlags.ofOldBits (bits : List UInt8) : MetricFlags :=
  let word := ofBE (bits.take 8)
  { ty := .ofNat (word % 16)
    valTy := .ofNat (word / 2 ^ 4 % 16)
    valFmt := .ofNat (word / 2 ^ 8 % 16)
    move2proc := 0
    partner := .ofNat (word / 2 ^ 12 % 2 ^ 16)
    show_ := .ofNat (word / 2 ^ 28 % 2)
    showPercent := .ofNat (word / 2 ^ 29 % 2)
    unused1 := 0 }

/-- Flags the reader takes to be in the present convention. -/
def MetricFlags.Portable (flags : MetricFlags) : Prop :=
  (flags.ty = tyRaw ∨ flags.ty = tyFinal) ∧ flags.unused1 = 0

instance (flags : MetricFlags) : Decidable flags.Portable :=
  inferInstanceAs (Decidable ((flags.ty = tyRaw ∨ flags.ty = tyFinal) ∧ flags.unused1 = 0))

/-- The flags the reader makes of `bits`. -/
def MetricFlags.fread (bits : List UInt8) : MetricFlags :=
  if (ofBits bits).Portable then ofBits bits else ofOldBits bits

/-- `metric_desc_t`, without the `properties` that are not part of the file. -/
structure MetricDesc where
  name : List UInt8
  description : List UInt8
  flags : MetricFlags
  period : UInt64
  formula : List UInt8
  format : List UInt8
  isFrequencyMetric : Bool
  isMultiplexed : Bool
  thresholdMean : UInt64
  numSamples : UInt64
deriving DecidableEq

def MetricDesc.Short (x : MetricDesc) : Prop :=
  Fmt.Short x.name ∧ Fmt.Short x.description ∧ Fmt.Short x.formula ∧ Fmt.Short x.format

def boolFwrite (b : Bool) : List UInt8 := int2Fwrite (if b then 1 else 0)

/-- Two bytes read into a one-byte `bool`, which keeps the low one. -/
def boolFread : Reader Bool := do return (← int2Fread) &&& 0xff != 0

lemma reads_bool (b : Bool) : Reads boolFread (boolFwrite b) b := by
  have value := (reads_int2 (if b then 1 else 0)).map fun v => v &&& 0xff != 0
  cases b <;> exact value

def metricDescFwrite (x : MetricDesc) : List UInt8 :=
  strFwrite x.name ++ (strFwrite x.description ++ (x.flags.bits ++ (int8Fwrite x.period ++
    (strFwrite x.formula ++ (strFwrite x.format ++ (boolFwrite x.isFrequencyMetric ++
      (boolFwrite x.isMultiplexed ++ (int8Fwrite x.thresholdMean ++ int8Fwrite x.numSamples))))))))

/-- `hpcrun_fmt_metricDesc_fread`; reading the flags again ends where the first reading did. -/
def metricDescFread : Reader MetricDesc := do
  let name ← strFread
  let description ← strFread
  let bits ← takeBytes 16
  let period ← int8Fread
  let formula ← strFread
  let format ← strFread
  let isFrequencyMetric ← boolFread
  let isMultiplexed ← boolFread
  let thresholdMean ← int8Fread
  let numSamples ← int8Fread
  return ⟨name, description, .fread bits, period, formula, format, isFrequencyMetric, isMultiplexed,
    thresholdMean, numSamples⟩

@[simp] lemma MetricFlags.length_bits (flags : MetricFlags) : flags.bits.length = 16 := by
  simp [bits]

lemma MetricFlags.ofBits_bits (flags : MetricFlags) : ofBits flags.bits = flags := by
  have partner : ((flags.bits).drop 4).take 2 = toLE 2 flags.partner.toNat := by
    simp only [bits, cons_append, nil_append, append_assoc, drop_succ_cons, drop_zero]
    exact take_left' (length_toLE 2 _)
  have unused : ((flags.bits).drop 8).take 8 = toLE 8 flags.unused1.toNat := by
    have front : ([flags.ty, flags.valTy, flags.valFmt, flags.move2proc] ++ toLE 2 flags.partner.toNat ++
        [flags.show_, flags.showPercent]).length = 8 := by simp
    rw [bits, drop_left' front, take_of_length_le (length_toLE 8 _).le]
  have last : flags.bits.getD 6 0 = flags.show_ ∧ flags.bits.getD 7 0 = flags.showPercent := by
    have front : ([flags.ty, flags.valTy, flags.valFmt, flags.move2proc] ++ toLE 2 flags.partner.toNat).length = 6 := by
      simp
    constructor <;>
      simp only [bits, append_assoc, getD_eq_getElem?_getD] <;>
      rw [← append_assoc, getElem?_append_right (front.trans_le (by omega)), front] <;> rfl
  have valuePartner : ofLE (toLE 2 flags.partner.toNat) = flags.partner.toNat :=
    ofLE_toLE_of_lt flags.partner.toNat_lt
  have valueUnused : ofLE (toLE 8 flags.unused1.toNat) = flags.unused1.toNat :=
    ofLE_toLE_of_lt flags.unused1.toNat_lt
  have first : flags.bits.getD 0 0 = flags.ty ∧ flags.bits.getD 1 0 = flags.valTy ∧
      flags.bits.getD 2 0 = flags.valFmt ∧ flags.bits.getD 3 0 = flags.move2proc := ⟨rfl, rfl, rfl, rfl⟩
  simp only [ofBits, partner, unused, last, first, valuePartner, valueUnused, UInt16.ofNat_toNat,
    UInt64.ofNat_toNat]

lemma reads_metricDesc {x : MetricDesc} (short : x.Short) :
    Reads metricDescFread (metricDescFwrite x) { x with flags := .fread x.flags.bits } := by
  obtain ⟨name, description, formula, format⟩ := short
  have bits : Reads (takeBytes 16) x.flags.bits x.flags.bits := by
    have whole := reads_takeBytes x.flags.bits
    rwa [MetricFlags.length_bits] at whole
  refine (reads_str name).bind ((reads_str description).bind (bits.bind ((reads_int8 x.period).bind ?_)))
  refine (reads_str formula).bind ((reads_str format).bind ((reads_bool _).bind ((reads_bool _).bind ?_)))
  exact (reads_int8 x.thresholdMean).bind ((reads_int8 x.numSamples).map (MetricDesc.mk _ _ _ _ _ _ _ _ _))

end HpcToolkit.Fmt
