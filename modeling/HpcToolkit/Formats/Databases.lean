import HpcToolkit.Formats.Primitive

/-! # Records of profile.db

The records of `profiledb.c`. The byte behind the flags of an element of an identifier tuple is not stored.
-/

namespace HpcToolkit.Formats.ProfileDb

open Lib

/-- `HPCTOOLKITprof` -/
def magic : List UInt8 := [0x48, 0x50, 0x43, 0x54, 0x4f, 0x4f, 0x4c, 0x4b, 0x49, 0x54, 0x70, 0x72, 0x6f, 0x66]

def minorVersion : UInt8 := 0

@[ext]
structure FHdr where
  szProfileInfos : UInt64
  pProfileInfos : UInt64
  szIdTuples : UInt64
  pIdTuples : UInt64

def fHdrSize : ℕ := 0x30

def fHdrWrite (r : FHdr) : List Store :=
  [⟨0x00, magic⟩, u8Write 0x0e majorVersion, u8Write 0x0f minorVersion, u64Write 0x10 r.szProfileInfos,
    u64Write 0x18 r.pProfileInfos, u64Write 0x20 r.szIdTuples, u64Write 0x28 r.pIdTuples]

def fHdrRead (d : Mem) : FHdr where
  szProfileInfos := u64Read d 0x10
  pProfileInfos := u64Read d 0x18
  szIdTuples := u64Read d 0x20
  pIdTuples := u64Read d 0x28

def fHdr : Format FHdr := ⟨fHdrSize, fHdrWrite, fHdrRead, id⟩

lemma fHdr_readBack (r : FHdr) : fHdr.ReadBack r := by
  intro d
  have apart : (fHdrWrite r).Pairwise Store.Apart := of_decide_eq_true rfl
  change fHdrRead (d.stores (fHdrWrite r)) = r
  ext1
  all_goals exact u64Read_stores apart (by simp [fHdrWrite])

@[ext]
structure ProfInfo where
  nValues : UInt64
  pValues : UInt64
  nCtxs : UInt32
  pCtxIndices : UInt64
  pIdTuple : UInt64
  isSummary : Bool

def profInfoSize : ℕ := 0x30

def profInfoWrite (r : ProfInfo) : List Store :=
  [u64Write 0x00 r.nValues, u64Write 0x08 r.pValues, u32Write 0x10 r.nCtxs, zeros 0x14 4,
    u64Write 0x18 r.pCtxIndices, u64Write 0x20 r.pIdTuple, u32Write 0x28 (flagBit r.isSummary).toUInt32,
    zeros 0x2c (profInfoSize - 0x2c)]

def profInfoRead (d : Mem) : ProfInfo where
  nValues := u64Read d 0x00
  pValues := u64Read d 0x08
  nCtxs := u32Read d 0x10
  pCtxIndices := u64Read d 0x18
  pIdTuple := u64Read d 0x20
  isSummary := u32Read d 0x28 &&& 1 != 0

def profInfo : Format ProfInfo := ⟨profInfoSize, profInfoWrite, profInfoRead, id⟩

lemma profInfo_readBack (r : ProfInfo) : profInfo.ReadBack r := by
  intro d
  have apart : (profInfoWrite r).Pairwise Store.Apart := of_decide_eq_true rfl
  change profInfoRead (d.stores (profInfoWrite r)) = r
  ext1
  · exact u64Read_stores apart (by simp [profInfoWrite])
  · exact u64Read_stores apart (by simp [profInfoWrite])
  · exact u32Read_stores apart (by simp [profInfoWrite])
  · exact u64Read_stores apart (by simp [profInfoWrite])
  · exact u64Read_stores apart (by simp [profInfoWrite])
  · rw [← flagBit_toUInt32_and_one r.isSummary]
    exact congrArg (· &&& 1 != 0) (u32Read_stores apart (by simp [profInfoWrite]))

@[ext]
structure ProfInfoSHdr where
  pProfiles : UInt64
  nProfiles : UInt32
  szProfile : UInt8

def profInfoSHdrSize : ℕ := 0x0d

def profInfoSHdrWrite (r : ProfInfoSHdr) : List Store :=
  [u64Write 0x00 r.pProfiles, u32Write 0x08 r.nProfiles, u8Write 0x0c (.ofNat profInfoSize)]

def profInfoSHdrRead (d : Mem) : ProfInfoSHdr where
  pProfiles := u64Read d 0x00
  nProfiles := u32Read d 0x08
  szProfile := u8Read d 0x0c

def profInfoSHdr : Format ProfInfoSHdr :=
  ⟨profInfoSHdrSize, profInfoSHdrWrite, profInfoSHdrRead, fun r => { r with szProfile := (.ofNat profInfoSize) }⟩

lemma profInfoSHdr_readBack (r : ProfInfoSHdr) : profInfoSHdr.ReadBack r := by
  intro d
  have apart : (profInfoSHdrWrite r).Pairwise Store.Apart := of_decide_eq_true rfl
  change profInfoSHdrRead (d.stores (profInfoSHdrWrite r)) = { r with szProfile := (.ofNat profInfoSize) }
  ext1
  · exact u64Read_stores apart (by simp [profInfoSHdrWrite])
  · exact u32Read_stores apart (by simp [profInfoSHdrWrite])
  · exact u8Read_stores apart d 0x0c (by simp [profInfoSHdrWrite])

@[ext]
structure MVal where
  metricId : UInt16
  value : UInt64

def mValSize : ℕ := 0x0a

def mValWrite (r : MVal) : List Store :=
  [u16Write 0x00 r.metricId, f64Write 0x02 r.value]

def mValRead (d : Mem) : MVal where
  metricId := u16Read d 0x00
  value := f64Read d 0x02

def mVal : Format MVal := ⟨mValSize, mValWrite, mValRead, id⟩

lemma mVal_readBack (r : MVal) : mVal.ReadBack r := by
  intro d
  have apart : (mValWrite r).Pairwise Store.Apart := of_decide_eq_true rfl
  change mValRead (d.stores (mValWrite r)) = r
  ext1
  · exact u16Read_stores apart (by simp [mValWrite])
  · exact f64Read_stores apart (by simp [mValWrite])

@[ext]
structure CIdx where
  ctxId : UInt32
  startIndex : UInt64

def cIdxSize : ℕ := 0x0c

def cIdxWrite (r : CIdx) : List Store :=
  [u32Write 0x00 r.ctxId, u64Write 0x04 r.startIndex]

def cIdxRead (d : Mem) : CIdx where
  ctxId := u32Read d 0x00
  startIndex := u64Read d 0x04

def cIdx : Format CIdx := ⟨cIdxSize, cIdxWrite, cIdxRead, id⟩

lemma cIdx_readBack (r : CIdx) : cIdx.ReadBack r := by
  intro d
  have apart : (cIdxWrite r).Pairwise Store.Apart := of_decide_eq_true rfl
  change cIdxRead (d.stores (cIdxWrite r)) = r
  ext1
  · exact u32Read_stores apart (by simp [cIdxWrite])
  · exact u64Read_stores apart (by simp [cIdxWrite])

@[ext]
structure IdTupleHdr where
  nIds : UInt16

def idTupleHdrSize : ℕ := 0x08

def idTupleHdrWrite (r : IdTupleHdr) : List Store :=
  [u16Write 0x00 r.nIds, zeros 0x02 (idTupleHdrSize - 0x02)]

def idTupleHdrRead (d : Mem) : IdTupleHdr where
  nIds := u16Read d 0x00

def idTupleHdr : Format IdTupleHdr := ⟨idTupleHdrSize, idTupleHdrWrite, idTupleHdrRead, id⟩

lemma idTupleHdr_readBack (r : IdTupleHdr) : idTupleHdr.ReadBack r := by
  intro d
  have apart : (idTupleHdrWrite r).Pairwise Store.Apart := of_decide_eq_true rfl
  change idTupleHdrRead (d.stores (idTupleHdrWrite r)) = r
  ext1
  · exact u16Read_stores apart (by simp [idTupleHdrWrite])

@[ext]
structure IdTupleElem where
  kind : UInt8
  isPhysical : Bool
  logicalId : UInt32
  physicalId : UInt64

def idTupleElemSize : ℕ := 0x10

def idTupleElemWrite (r : IdTupleElem) : List Store :=
  [u8Write 0x00 r.kind, u8Write 0x01 0, u8Write 0x02 (flagBit r.isPhysical), u32Write 0x04 r.logicalId,
    u64Write 0x08 r.physicalId]

def idTupleElemRead (d : Mem) : IdTupleElem where
  kind := u8Read d 0x00
  isPhysical := u8Read d 0x02 &&& 1 != 0
  logicalId := u32Read d 0x04
  physicalId := u64Read d 0x08

def idTupleElem : Format IdTupleElem := ⟨idTupleElemSize, idTupleElemWrite, idTupleElemRead, id⟩

lemma idTupleElem_readBack (r : IdTupleElem) : idTupleElem.ReadBack r := by
  intro d
  have apart : (idTupleElemWrite r).Pairwise Store.Apart := of_decide_eq_true rfl
  change idTupleElemRead (d.stores (idTupleElemWrite r)) = r
  ext1
  · exact u8Read_stores apart d 0x00 (by simp [idTupleElemWrite])
  · rw [← flagBit_and_one r.isPhysical]
    exact congrArg (· &&& 1 != 0) (u8Read_stores apart d 0x02 (by simp [idTupleElemWrite]))
  · exact u32Read_stores apart (by simp [idTupleElemWrite])
  · exact u64Read_stores apart (by simp [idTupleElemWrite])

end HpcToolkit.Formats.ProfileDb

/-! # Records of trace.db

The records of `tracedb.c`, all of whose bytes are stored.
-/

namespace HpcToolkit.Formats.TraceDb

open Lib

/-- `HPCTOOLKITtrce` -/
def magic : List UInt8 := [0x48, 0x50, 0x43, 0x54, 0x4f, 0x4f, 0x4c, 0x4b, 0x49, 0x54, 0x74, 0x72, 0x63, 0x65]

def minorVersion : UInt8 := 0

@[ext]
structure FHdr where
  szCtxTraces : UInt64
  pCtxTraces : UInt64

def fHdrSize : ℕ := 0x20

def fHdrWrite (r : FHdr) : List Store :=
  [⟨0x00, magic⟩, u8Write 0x0e majorVersion, u8Write 0x0f minorVersion, u64Write 0x10 r.szCtxTraces,
    u64Write 0x18 r.pCtxTraces]

def fHdrRead (d : Mem) : FHdr where
  szCtxTraces := u64Read d 0x10
  pCtxTraces := u64Read d 0x18

def fHdr : Format FHdr := ⟨fHdrSize, fHdrWrite, fHdrRead, id⟩

lemma fHdr_readBack (r : FHdr) : fHdr.ReadBack r := by
  intro d
  have apart : (fHdrWrite r).Pairwise Store.Apart := of_decide_eq_true rfl
  change fHdrRead (d.stores (fHdrWrite r)) = r
  ext1
  · exact u64Read_stores apart (by simp [fHdrWrite])
  · exact u64Read_stores apart (by simp [fHdrWrite])

@[ext]
structure CtxTrace where
  profIndex : UInt32
  pStart : UInt64
  pEnd : UInt64

def ctxTraceSize : ℕ := 0x18

def ctxTraceWrite (r : CtxTrace) : List Store :=
  [u32Write 0x00 r.profIndex, zeros 0x04 4, u64Write 0x08 r.pStart, u64Write 0x10 r.pEnd,
    zeros 0x18 (ctxTraceSize - 0x18)]

def ctxTraceRead (d : Mem) : CtxTrace where
  profIndex := u32Read d 0x00
  pStart := u64Read d 0x08
  pEnd := u64Read d 0x10

def ctxTrace : Format CtxTrace := ⟨ctxTraceSize, ctxTraceWrite, ctxTraceRead, id⟩

lemma ctxTrace_readBack (r : CtxTrace) : ctxTrace.ReadBack r := by
  intro d
  have apart : (ctxTraceWrite r).Pairwise Store.Apart := of_decide_eq_true rfl
  change ctxTraceRead (d.stores (ctxTraceWrite r)) = r
  ext1
  · exact u32Read_stores apart (by simp [ctxTraceWrite])
  · exact u64Read_stores apart (by simp [ctxTraceWrite])
  · exact u64Read_stores apart (by simp [ctxTraceWrite])

@[ext]
structure CtxTraceSHdr where
  pTraces : UInt64
  nTraces : UInt32
  szTrace : UInt8
  minTimestamp : UInt64
  maxTimestamp : UInt64

def ctxTraceSHdrSize : ℕ := 0x20

def ctxTraceSHdrWrite (r : CtxTraceSHdr) : List Store :=
  [u64Write 0x00 r.pTraces, u32Write 0x08 r.nTraces, u8Write 0x0c (.ofNat ctxTraceSize), zeros 0x0d 3,
    u64Write 0x10 r.minTimestamp, u64Write 0x18 r.maxTimestamp]

def ctxTraceSHdrRead (d : Mem) : CtxTraceSHdr where
  pTraces := u64Read d 0x00
  nTraces := u32Read d 0x08
  szTrace := u8Read d 0x0c
  minTimestamp := u64Read d 0x10
  maxTimestamp := u64Read d 0x18

def ctxTraceSHdr : Format CtxTraceSHdr :=
  ⟨ctxTraceSHdrSize, ctxTraceSHdrWrite, ctxTraceSHdrRead, fun r => { r with szTrace := (.ofNat ctxTraceSize) }⟩

lemma ctxTraceSHdr_readBack (r : CtxTraceSHdr) : ctxTraceSHdr.ReadBack r := by
  intro d
  have apart : (ctxTraceSHdrWrite r).Pairwise Store.Apart := of_decide_eq_true rfl
  change ctxTraceSHdrRead (d.stores (ctxTraceSHdrWrite r)) = { r with szTrace := (.ofNat ctxTraceSize) }
  ext1
  · exact u64Read_stores apart (by simp [ctxTraceSHdrWrite])
  · exact u32Read_stores apart (by simp [ctxTraceSHdrWrite])
  · exact u8Read_stores apart d 0x0c (by simp [ctxTraceSHdrWrite])
  · exact u64Read_stores apart (by simp [ctxTraceSHdrWrite])
  · exact u64Read_stores apart (by simp [ctxTraceSHdrWrite])

@[ext]
structure CtxSample where
  timestamp : UInt64
  ctxId : UInt32

def ctxSampleSize : ℕ := 0x0c

def ctxSampleWrite (r : CtxSample) : List Store :=
  [u64Write 0x00 r.timestamp, u32Write 0x08 r.ctxId]

def ctxSampleRead (d : Mem) : CtxSample where
  timestamp := u64Read d 0x00
  ctxId := u32Read d 0x08

def ctxSample : Format CtxSample := ⟨ctxSampleSize, ctxSampleWrite, ctxSampleRead, id⟩

lemma ctxSample_readBack (r : CtxSample) : ctxSample.ReadBack r := by
  intro d
  have apart : (ctxSampleWrite r).Pairwise Store.Apart := of_decide_eq_true rfl
  change ctxSampleRead (d.stores (ctxSampleWrite r)) = r
  ext1
  · exact u64Read_stores apart (by simp [ctxSampleWrite])
  · exact u32Read_stores apart (by simp [ctxSampleWrite])

end HpcToolkit.Formats.TraceDb

/-! # Records of cct.db

The records of `cctdb.c`. The file header is larger than what its writer stores.
-/

namespace HpcToolkit.Formats.CctDb

open Lib

/-- `HPCTOOLKITctxt` -/
def magic : List UInt8 := [0x48, 0x50, 0x43, 0x54, 0x4f, 0x4f, 0x4c, 0x4b, 0x49, 0x54, 0x63, 0x74, 0x78, 0x74]

def minorVersion : UInt8 := 0

@[ext]
structure FHdr where
  szCtxInfo : UInt64
  pCtxInfo : UInt64

def fHdrSize : ℕ := 0x30

def fHdrWrite (r : FHdr) : List Store :=
  [⟨0x00, magic⟩, u8Write 0x0e majorVersion, u8Write 0x0f minorVersion, u64Write 0x10 r.szCtxInfo,
    u64Write 0x18 r.pCtxInfo]

def fHdrRead (d : Mem) : FHdr where
  szCtxInfo := u64Read d 0x10
  pCtxInfo := u64Read d 0x18

def fHdr : Format FHdr := ⟨fHdrSize, fHdrWrite, fHdrRead, id⟩

lemma fHdr_readBack (r : FHdr) : fHdr.ReadBack r := by
  intro d
  have apart : (fHdrWrite r).Pairwise Store.Apart := of_decide_eq_true rfl
  change fHdrRead (d.stores (fHdrWrite r)) = r
  ext1
  · exact u64Read_stores apart (by simp [fHdrWrite])
  · exact u64Read_stores apart (by simp [fHdrWrite])

@[ext]
structure CtxInfo where
  nValues : UInt64
  pValues : UInt64
  nMetrics : UInt16
  pMetricIndices : UInt64

def ctxInfoSize : ℕ := 0x20

def ctxInfoWrite (r : CtxInfo) : List Store :=
  [u64Write 0x00 r.nValues, u64Write 0x08 r.pValues, u16Write 0x10 r.nMetrics, zeros 0x12 6,
    u64Write 0x18 r.pMetricIndices, zeros 0x20 (ctxInfoSize - 0x20)]

def ctxInfoRead (d : Mem) : CtxInfo where
  nValues := u64Read d 0x00
  pValues := u64Read d 0x08
  nMetrics := u16Read d 0x10
  pMetricIndices := u64Read d 0x18

def ctxInfo : Format CtxInfo := ⟨ctxInfoSize, ctxInfoWrite, ctxInfoRead, id⟩

lemma ctxInfo_readBack (r : CtxInfo) : ctxInfo.ReadBack r := by
  intro d
  have apart : (ctxInfoWrite r).Pairwise Store.Apart := of_decide_eq_true rfl
  change ctxInfoRead (d.stores (ctxInfoWrite r)) = r
  ext1
  · exact u64Read_stores apart (by simp [ctxInfoWrite])
  · exact u64Read_stores apart (by simp [ctxInfoWrite])
  · exact u16Read_stores apart (by simp [ctxInfoWrite])
  · exact u64Read_stores apart (by simp [ctxInfoWrite])

@[ext]
structure CtxInfoSHdr where
  pCtxs : UInt64
  nCtxs : UInt32
  szCtx : UInt8

def ctxInfoSHdrSize : ℕ := 0x0d

def ctxInfoSHdrWrite (r : CtxInfoSHdr) : List Store :=
  [u64Write 0x00 r.pCtxs, u32Write 0x08 r.nCtxs, u8Write 0x0c (.ofNat ctxInfoSize)]

def ctxInfoSHdrRead (d : Mem) : CtxInfoSHdr where
  pCtxs := u64Read d 0x00
  nCtxs := u32Read d 0x08
  szCtx := u8Read d 0x0c

def ctxInfoSHdr : Format CtxInfoSHdr :=
  ⟨ctxInfoSHdrSize, ctxInfoSHdrWrite, ctxInfoSHdrRead, fun r => { r with szCtx := (.ofNat ctxInfoSize) }⟩

lemma ctxInfoSHdr_readBack (r : CtxInfoSHdr) : ctxInfoSHdr.ReadBack r := by
  intro d
  have apart : (ctxInfoSHdrWrite r).Pairwise Store.Apart := of_decide_eq_true rfl
  change ctxInfoSHdrRead (d.stores (ctxInfoSHdrWrite r)) = { r with szCtx := (.ofNat ctxInfoSize) }
  ext1
  · exact u64Read_stores apart (by simp [ctxInfoSHdrWrite])
  · exact u32Read_stores apart (by simp [ctxInfoSHdrWrite])
  · exact u8Read_stores apart d 0x0c (by simp [ctxInfoSHdrWrite])

@[ext]
structure PVal where
  profIndex : UInt32
  value : UInt64

def pValSize : ℕ := 0x0c

def pValWrite (r : PVal) : List Store :=
  [u32Write 0x00 r.profIndex, f64Write 0x04 r.value]

def pValRead (d : Mem) : PVal where
  profIndex := u32Read d 0x00
  value := f64Read d 0x04

def pVal : Format PVal := ⟨pValSize, pValWrite, pValRead, id⟩

lemma pVal_readBack (r : PVal) : pVal.ReadBack r := by
  intro d
  have apart : (pValWrite r).Pairwise Store.Apart := of_decide_eq_true rfl
  change pValRead (d.stores (pValWrite r)) = r
  ext1
  · exact u32Read_stores apart (by simp [pValWrite])
  · exact f64Read_stores apart (by simp [pValWrite])

@[ext]
structure MIdx where
  metricId : UInt16
  startIndex : UInt64

def mIdxSize : ℕ := 0x0a

def mIdxWrite (r : MIdx) : List Store :=
  [u16Write 0x00 r.metricId, u64Write 0x02 r.startIndex]

def mIdxRead (d : Mem) : MIdx where
  metricId := u16Read d 0x00
  startIndex := u64Read d 0x02

def mIdx : Format MIdx := ⟨mIdxSize, mIdxWrite, mIdxRead, id⟩

lemma mIdx_readBack (r : MIdx) : mIdx.ReadBack r := by
  intro d
  have apart : (mIdxWrite r).Pairwise Store.Apart := of_decide_eq_true rfl
  change mIdxRead (d.stores (mIdxWrite r)) = r
  ext1
  · exact u16Read_stores apart (by simp [mIdxWrite])
  · exact u64Read_stores apart (by simp [mIdxWrite])

end HpcToolkit.Formats.CctDb
