import HpcToolkit.Formats.Primitive

/-! # Records of meta.db

The fixed-size records of `metadb.c`. The sizes of the elements of a table are not taken from the record that is written.
The four bytes behind the line of a function and the two behind the kind of an entry point are not stored.
-/

namespace HpcToolkit.Formats.MetaDb

open Lib

/-- `HPCTOOLKITmeta` -/
def magic : List UInt8 := [0x48, 0x50, 0x43, 0x54, 0x4f, 0x4f, 0x4c, 0x4b, 0x49, 0x54, 0x6d, 0x65, 0x74, 0x61]

def minorVersion : UInt8 := 0

@[ext]
structure FHdr where
  szGeneral : UInt64
  pGeneral : UInt64
  szIdNames : UInt64
  pIdNames : UInt64
  szMetrics : UInt64
  pMetrics : UInt64
  szContext : UInt64
  pContext : UInt64
  szStrings : UInt64
  pStrings : UInt64
  szModules : UInt64
  pModules : UInt64
  szFiles : UInt64
  pFiles : UInt64
  szFunctions : UInt64
  pFunctions : UInt64

def fHdrSize : ℕ := 0x90

def fHdrWrite (r : FHdr) : List Store :=
  [⟨0x00, magic⟩, u8Write 0x0e majorVersion, u8Write 0x0f minorVersion, u64Write 0x10 r.szGeneral,
    u64Write 0x18 r.pGeneral, u64Write 0x20 r.szIdNames, u64Write 0x28 r.pIdNames, u64Write 0x30 r.szMetrics,
    u64Write 0x38 r.pMetrics, u64Write 0x40 r.szContext, u64Write 0x48 r.pContext, u64Write 0x50 r.szStrings,
    u64Write 0x58 r.pStrings, u64Write 0x60 r.szModules, u64Write 0x68 r.pModules, u64Write 0x70 r.szFiles,
    u64Write 0x78 r.pFiles, u64Write 0x80 r.szFunctions, u64Write 0x88 r.pFunctions]

def fHdrRead (d : Mem) : FHdr where
  szGeneral := u64Read d 0x10
  pGeneral := u64Read d 0x18
  szIdNames := u64Read d 0x20
  pIdNames := u64Read d 0x28
  szMetrics := u64Read d 0x30
  pMetrics := u64Read d 0x38
  szContext := u64Read d 0x40
  pContext := u64Read d 0x48
  szStrings := u64Read d 0x50
  pStrings := u64Read d 0x58
  szModules := u64Read d 0x60
  pModules := u64Read d 0x68
  szFiles := u64Read d 0x70
  pFiles := u64Read d 0x78
  szFunctions := u64Read d 0x80
  pFunctions := u64Read d 0x88

def fHdr : Format FHdr := ⟨fHdrSize, fHdrWrite, fHdrRead, id⟩

lemma fHdr_readBack (r : FHdr) : fHdr.ReadBack r := by
  intro d
  have apart : (fHdrWrite r).Pairwise Store.Apart := of_decide_eq_true rfl
  change fHdrRead (d.stores (fHdrWrite r)) = r
  ext1
  all_goals exact u64Read_stores apart (by simp [fHdrWrite])

@[ext]
structure GeneralSHdr where
  pTitle : UInt64
  pDescription : UInt64

def generalSHdrSize : ℕ := 0x10

def generalSHdrWrite (r : GeneralSHdr) : List Store :=
  [u64Write 0x00 r.pTitle, u64Write 0x08 r.pDescription]

def generalSHdrRead (d : Mem) : GeneralSHdr where
  pTitle := u64Read d 0x00
  pDescription := u64Read d 0x08

def generalSHdr : Format GeneralSHdr := ⟨generalSHdrSize, generalSHdrWrite, generalSHdrRead, id⟩

lemma generalSHdr_readBack (r : GeneralSHdr) : generalSHdr.ReadBack r := by
  intro d
  have apart : (generalSHdrWrite r).Pairwise Store.Apart := of_decide_eq_true rfl
  change generalSHdrRead (d.stores (generalSHdrWrite r)) = r
  ext1
  · exact u64Read_stores apart (by simp [generalSHdrWrite])
  · exact u64Read_stores apart (by simp [generalSHdrWrite])

@[ext]
structure IdNamesSHdr where
  ppNames : UInt64
  nKinds : UInt8

def idNamesSHdrSize : ℕ := 0x09

def idNamesSHdrWrite (r : IdNamesSHdr) : List Store :=
  [u64Write 0x00 r.ppNames, u8Write 0x08 r.nKinds]

def idNamesSHdrRead (d : Mem) : IdNamesSHdr where
  ppNames := u64Read d 0x00
  nKinds := u8Read d 0x08

def idNamesSHdr : Format IdNamesSHdr := ⟨idNamesSHdrSize, idNamesSHdrWrite, idNamesSHdrRead, id⟩

lemma idNamesSHdr_readBack (r : IdNamesSHdr) : idNamesSHdr.ReadBack r := by
  intro d
  have apart : (idNamesSHdrWrite r).Pairwise Store.Apart := of_decide_eq_true rfl
  change idNamesSHdrRead (d.stores (idNamesSHdrWrite r)) = r
  ext1
  · exact u64Read_stores apart (by simp [idNamesSHdrWrite])
  · exact u8Read_stores apart d 0x08 (by simp [idNamesSHdrWrite])

@[ext]
structure MetricDesc where
  pName : UInt64
  pScopeInsts : UInt64
  pSummaries : UInt64
  nScopeInsts : UInt16
  nSummaries : UInt16

def metricDescSize : ℕ := 0x20

def metricDescWrite (r : MetricDesc) : List Store :=
  [u64Write 0x00 r.pName, u64Write 0x08 r.pScopeInsts, u64Write 0x10 r.pSummaries, u16Write 0x18 r.nScopeInsts,
    u16Write 0x1a r.nSummaries, zeros 0x1c (metricDescSize - 0x1c)]

def metricDescRead (d : Mem) : MetricDesc where
  pName := u64Read d 0x00
  pScopeInsts := u64Read d 0x08
  pSummaries := u64Read d 0x10
  nScopeInsts := u16Read d 0x18
  nSummaries := u16Read d 0x1a

def metricDesc : Format MetricDesc := ⟨metricDescSize, metricDescWrite, metricDescRead, id⟩

lemma metricDesc_readBack (r : MetricDesc) : metricDesc.ReadBack r := by
  intro d
  have apart : (metricDescWrite r).Pairwise Store.Apart := of_decide_eq_true rfl
  change metricDescRead (d.stores (metricDescWrite r)) = r
  ext1
  · exact u64Read_stores apart (by simp [metricDescWrite])
  · exact u64Read_stores apart (by simp [metricDescWrite])
  · exact u64Read_stores apart (by simp [metricDescWrite])
  · exact u16Read_stores apart (by simp [metricDescWrite])
  · exact u16Read_stores apart (by simp [metricDescWrite])

@[ext]
structure PropScopeInst where
  pScope : UInt64
  propMetricId : UInt16

def propScopeInstSize : ℕ := 0x10

def propScopeInstWrite (r : PropScopeInst) : List Store :=
  [u64Write 0x00 r.pScope, u16Write 0x08 r.propMetricId, zeros 0x0a (propScopeInstSize - 0x0a)]

def propScopeInstRead (d : Mem) : PropScopeInst where
  pScope := u64Read d 0x00
  propMetricId := u16Read d 0x08

def propScopeInst : Format PropScopeInst := ⟨propScopeInstSize, propScopeInstWrite, propScopeInstRead, id⟩

lemma propScopeInst_readBack (r : PropScopeInst) : propScopeInst.ReadBack r := by
  intro d
  have apart : (propScopeInstWrite r).Pairwise Store.Apart := of_decide_eq_true rfl
  change propScopeInstRead (d.stores (propScopeInstWrite r)) = r
  ext1
  · exact u64Read_stores apart (by simp [propScopeInstWrite])
  · exact u16Read_stores apart (by simp [propScopeInstWrite])

@[ext]
structure SummaryStat where
  pScope : UInt64
  pFormula : UInt64
  combine : UInt8
  statMetricId : UInt16

def summaryStatSize : ℕ := 0x18

def summaryStatWrite (r : SummaryStat) : List Store :=
  [u64Write 0x00 r.pScope, u64Write 0x08 r.pFormula, u8Write 0x10 r.combine, u8Write 0x11 0,
    u16Write 0x12 r.statMetricId, zeros 0x14 (summaryStatSize - 0x14)]

def summaryStatRead (d : Mem) : SummaryStat where
  pScope := u64Read d 0x00
  pFormula := u64Read d 0x08
  combine := u8Read d 0x10
  statMetricId := u16Read d 0x12

def summaryStat : Format SummaryStat := ⟨summaryStatSize, summaryStatWrite, summaryStatRead, id⟩

lemma summaryStat_readBack (r : SummaryStat) : summaryStat.ReadBack r := by
  intro d
  have apart : (summaryStatWrite r).Pairwise Store.Apart := of_decide_eq_true rfl
  change summaryStatRead (d.stores (summaryStatWrite r)) = r
  ext1
  · exact u64Read_stores apart (by simp [summaryStatWrite])
  · exact u64Read_stores apart (by simp [summaryStatWrite])
  · exact u8Read_stores apart d 0x10 (by simp [summaryStatWrite])
  · exact u16Read_stores apart (by simp [summaryStatWrite])

@[ext]
structure PropScope where
  pScopeName : UInt64
  type : UInt8
  propagationIndex : UInt8

def propScopeSize : ℕ := 0x10

def propScopeWrite (r : PropScope) : List Store :=
  [u64Write 0x00 r.pScopeName, u8Write 0x08 r.type, u8Write 0x09 r.propagationIndex,
    zeros 0x0a (propScopeSize - 0x0a)]

def propScopeRead (d : Mem) : PropScope where
  pScopeName := u64Read d 0x00
  type := u8Read d 0x08
  propagationIndex := u8Read d 0x09

def propScope : Format PropScope := ⟨propScopeSize, propScopeWrite, propScopeRead, id⟩

lemma propScope_readBack (r : PropScope) : propScope.ReadBack r := by
  intro d
  have apart : (propScopeWrite r).Pairwise Store.Apart := of_decide_eq_true rfl
  change propScopeRead (d.stores (propScopeWrite r)) = r
  ext1
  · exact u64Read_stores apart (by simp [propScopeWrite])
  · exact u8Read_stores apart d 0x08 (by simp [propScopeWrite])
  · exact u8Read_stores apart d 0x09 (by simp [propScopeWrite])

@[ext]
structure MetricsSHdr where
  pMetrics : UInt64
  nMetrics : UInt32
  szMetric : UInt8
  szScopeInst : UInt8
  szSummary : UInt8
  pScopes : UInt64
  nScopes : UInt8
  szScope : UInt8

def metricsSHdrSize : ℕ := 0x1b

def metricsSHdrWrite (r : MetricsSHdr) : List Store :=
  [u64Write 0x00 r.pMetrics, u32Write 0x08 r.nMetrics, u8Write 0x0c (.ofNat metricDescSize),
    u8Write 0x0d (.ofNat propScopeInstSize), u8Write 0x0e (.ofNat summaryStatSize), u8Write 0x0f 0,
    u64Write 0x10 r.pScopes, u16Write 0x18 r.nScopes.toUInt16, u8Write 0x1a (.ofNat propScopeSize)]

def metricsSHdrRead (d : Mem) : MetricsSHdr where
  pMetrics := u64Read d 0x00
  nMetrics := u32Read d 0x08
  szMetric := u8Read d 0x0c
  szScopeInst := u8Read d 0x0d
  szSummary := u8Read d 0x0e
  pScopes := u64Read d 0x10
  nScopes := (u16Read d 0x18).toUInt8
  szScope := u8Read d 0x1a

def metricsSHdr : Format MetricsSHdr :=
  ⟨metricsSHdrSize, metricsSHdrWrite, metricsSHdrRead, fun r => { r with
    szMetric := (.ofNat metricDescSize), szScopeInst := (.ofNat propScopeInstSize),
    szSummary := (.ofNat summaryStatSize), szScope := (.ofNat propScopeSize) }⟩

lemma metricsSHdr_readBack (r : MetricsSHdr) : metricsSHdr.ReadBack r := by
  intro d
  have apart : (metricsSHdrWrite r).Pairwise Store.Apart := of_decide_eq_true rfl
  change metricsSHdrRead (d.stores (metricsSHdrWrite r)) = { r with
    szMetric := (.ofNat metricDescSize), szScopeInst := (.ofNat propScopeInstSize),
    szSummary := (.ofNat summaryStatSize), szScope := (.ofNat propScopeSize) }
  ext1
  · exact u64Read_stores apart (by simp [metricsSHdrWrite])
  · exact u32Read_stores apart (by simp [metricsSHdrWrite])
  · exact u8Read_stores apart d 0x0c (by simp [metricsSHdrWrite])
  · exact u8Read_stores apart d 0x0d (by simp [metricsSHdrWrite])
  · exact u8Read_stores apart d 0x0e (by simp [metricsSHdrWrite])
  · exact u64Read_stores apart (by simp [metricsSHdrWrite])
  · rw [← UInt8.toUInt8_toUInt16 r.nScopes]
    exact congrArg UInt16.toUInt8 (u16Read_stores apart (by simp [metricsSHdrWrite]))
  · exact u8Read_stores apart d 0x1a (by simp [metricsSHdrWrite])

@[ext]
structure ModuleSpec where
  pPath : UInt64

def moduleSpecSize : ℕ := 0x10

def moduleSpecWrite (r : ModuleSpec) : List Store :=
  [u32Write 0x00 0, zeros 0x04 4, u64Write 0x08 r.pPath, zeros 0x10 (moduleSpecSize - 0x10)]

def moduleSpecRead (d : Mem) : ModuleSpec where
  pPath := u64Read d 0x08

def moduleSpec : Format ModuleSpec := ⟨moduleSpecSize, moduleSpecWrite, moduleSpecRead, id⟩

lemma moduleSpec_readBack (r : ModuleSpec) : moduleSpec.ReadBack r := by
  intro d
  have apart : (moduleSpecWrite r).Pairwise Store.Apart := of_decide_eq_true rfl
  change moduleSpecRead (d.stores (moduleSpecWrite r)) = r
  ext1
  · exact u64Read_stores apart (by simp [moduleSpecWrite])

@[ext]
structure ModulesSHdr where
  pModules : UInt64
  nModules : UInt32
  szModule : UInt16

def modulesSHdrSize : ℕ := 0x0e

def modulesSHdrWrite (r : ModulesSHdr) : List Store :=
  [u64Write 0x00 r.pModules, u32Write 0x08 r.nModules, u16Write 0x0c (.ofNat moduleSpecSize)]

def modulesSHdrRead (d : Mem) : ModulesSHdr where
  pModules := u64Read d 0x00
  nModules := u32Read d 0x08
  szModule := u16Read d 0x0c

def modulesSHdr : Format ModulesSHdr :=
  ⟨modulesSHdrSize, modulesSHdrWrite, modulesSHdrRead, fun r => { r with szModule := (.ofNat moduleSpecSize) }⟩

lemma modulesSHdr_readBack (r : ModulesSHdr) : modulesSHdr.ReadBack r := by
  intro d
  have apart : (modulesSHdrWrite r).Pairwise Store.Apart := of_decide_eq_true rfl
  change modulesSHdrRead (d.stores (modulesSHdrWrite r)) = { r with szModule := (.ofNat moduleSpecSize) }
  ext1
  · exact u64Read_stores apart (by simp [modulesSHdrWrite])
  · exact u32Read_stores apart (by simp [modulesSHdrWrite])
  · exact u16Read_stores apart (by simp [modulesSHdrWrite])

@[ext]
structure FileSpec where
  copied : Bool
  pPath : UInt64

def fileSpecSize : ℕ := 0x10

def fileSpecWrite (r : FileSpec) : List Store :=
  [u32Write 0x00 (flagBit r.copied).toUInt32, zeros 0x04 4, u64Write 0x08 r.pPath, zeros 0x10 (fileSpecSize - 0x10)]

def fileSpecRead (d : Mem) : FileSpec where
  copied := u8Read d 0x00 &&& 1 != 0
  pPath := u64Read d 0x08

def fileSpec : Format FileSpec := ⟨fileSpecSize, fileSpecWrite, fileSpecRead, id⟩

lemma fileSpec_readBack (r : FileSpec) : fileSpec.ReadBack r := by
  intro d
  have apart : (fileSpecWrite r).Pairwise Store.Apart := of_decide_eq_true rfl
  change fileSpecRead (d.stores (fileSpecWrite r)) = r
  ext1
  · exact u8Read_stores_u32 apart 0x00 (by simp [fileSpecWrite])
  · exact u64Read_stores apart (by simp [fileSpecWrite])

@[ext]
structure FilesSHdr where
  pFiles : UInt64
  nFiles : UInt32
  szFile : UInt16

def filesSHdrSize : ℕ := 0x0e

def filesSHdrWrite (r : FilesSHdr) : List Store :=
  [u64Write 0x00 r.pFiles, u32Write 0x08 r.nFiles, u16Write 0x0c (.ofNat fileSpecSize)]

def filesSHdrRead (d : Mem) : FilesSHdr where
  pFiles := u64Read d 0x00
  nFiles := u32Read d 0x08
  szFile := u16Read d 0x0c

def filesSHdr : Format FilesSHdr :=
  ⟨filesSHdrSize, filesSHdrWrite, filesSHdrRead, fun r => { r with szFile := (.ofNat fileSpecSize) }⟩

lemma filesSHdr_readBack (r : FilesSHdr) : filesSHdr.ReadBack r := by
  intro d
  have apart : (filesSHdrWrite r).Pairwise Store.Apart := of_decide_eq_true rfl
  change filesSHdrRead (d.stores (filesSHdrWrite r)) = { r with szFile := (.ofNat fileSpecSize) }
  ext1
  · exact u64Read_stores apart (by simp [filesSHdrWrite])
  · exact u32Read_stores apart (by simp [filesSHdrWrite])
  · exact u16Read_stores apart (by simp [filesSHdrWrite])

@[ext]
structure FunctionSpec where
  pName : UInt64
  pModule : UInt64
  offset : UInt64
  pFile : UInt64
  line : UInt32

def functionSpecSize : ℕ := 0x28

def functionSpecWrite (r : FunctionSpec) : List Store :=
  [u64Write 0x00 r.pName, u64Write 0x08 r.pModule, u64Write 0x10 r.offset, u64Write 0x18 r.pFile,
    u32Write 0x20 r.line, zeros 0x28 (functionSpecSize - 0x28)]

def functionSpecRead (d : Mem) : FunctionSpec where
  pName := u64Read d 0x00
  pModule := u64Read d 0x08
  offset := u64Read d 0x10
  pFile := u64Read d 0x18
  line := u32Read d 0x20

def functionSpec : Format FunctionSpec := ⟨functionSpecSize, functionSpecWrite, functionSpecRead, id⟩

lemma functionSpec_readBack (r : FunctionSpec) : functionSpec.ReadBack r := by
  intro d
  have apart : (functionSpecWrite r).Pairwise Store.Apart := of_decide_eq_true rfl
  change functionSpecRead (d.stores (functionSpecWrite r)) = r
  ext1
  · exact u64Read_stores apart (by simp [functionSpecWrite])
  · exact u64Read_stores apart (by simp [functionSpecWrite])
  · exact u64Read_stores apart (by simp [functionSpecWrite])
  · exact u64Read_stores apart (by simp [functionSpecWrite])
  · exact u32Read_stores apart (by simp [functionSpecWrite])

@[ext]
structure FunctionsSHdr where
  pFunctions : UInt64
  nFunctions : UInt32
  szFunction : UInt16

def functionsSHdrSize : ℕ := 0x0e

def functionsSHdrWrite (r : FunctionsSHdr) : List Store :=
  [u64Write 0x00 r.pFunctions, u32Write 0x08 r.nFunctions, u16Write 0x0c (.ofNat functionSpecSize)]

def functionsSHdrRead (d : Mem) : FunctionsSHdr where
  pFunctions := u64Read d 0x00
  nFunctions := u32Read d 0x08
  szFunction := u16Read d 0x0c

def functionsSHdr : Format FunctionsSHdr :=
  ⟨functionsSHdrSize, functionsSHdrWrite, functionsSHdrRead, fun r => { r with szFunction := (.ofNat functionSpecSize) }⟩

lemma functionsSHdr_readBack (r : FunctionsSHdr) : functionsSHdr.ReadBack r := by
  intro d
  have apart : (functionsSHdrWrite r).Pairwise Store.Apart := of_decide_eq_true rfl
  change functionsSHdrRead (d.stores (functionsSHdrWrite r)) = { r with szFunction := (.ofNat functionSpecSize) }
  ext1
  · exact u64Read_stores apart (by simp [functionsSHdrWrite])
  · exact u32Read_stores apart (by simp [functionsSHdrWrite])
  · exact u16Read_stores apart (by simp [functionsSHdrWrite])

@[ext]
structure EntryPoint where
  szChildren : UInt64
  pChildren : UInt64
  ctxId : UInt32
  entryPoint : UInt16
  pPrettyName : UInt64

def entryPointSize : ℕ := 0x20

def entryPointWrite (r : EntryPoint) : List Store :=
  [u64Write 0x00 r.szChildren, u64Write 0x08 r.pChildren, u32Write 0x10 r.ctxId, u16Write 0x14 r.entryPoint,
    u64Write 0x18 r.pPrettyName, zeros 0x20 (entryPointSize - 0x20)]

def entryPointRead (d : Mem) : EntryPoint where
  szChildren := u64Read d 0x00
  pChildren := u64Read d 0x08
  ctxId := u32Read d 0x10
  entryPoint := u16Read d 0x14
  pPrettyName := u64Read d 0x18

def entryPoint : Format EntryPoint := ⟨entryPointSize, entryPointWrite, entryPointRead, id⟩

lemma entryPoint_readBack (r : EntryPoint) : entryPoint.ReadBack r := by
  intro d
  have apart : (entryPointWrite r).Pairwise Store.Apart := of_decide_eq_true rfl
  change entryPointRead (d.stores (entryPointWrite r)) = r
  ext1
  · exact u64Read_stores apart (by simp [entryPointWrite])
  · exact u64Read_stores apart (by simp [entryPointWrite])
  · exact u32Read_stores apart (by simp [entryPointWrite])
  · exact u16Read_stores apart (by simp [entryPointWrite])
  · exact u64Read_stores apart (by simp [entryPointWrite])

@[ext]
structure ContextsSHdr where
  pEntryPoints : UInt64
  nEntryPoints : UInt16
  szEntryPoint : UInt8

def contextsSHdrSize : ℕ := 0x0b

def contextsSHdrWrite (r : ContextsSHdr) : List Store :=
  [u64Write 0x00 r.pEntryPoints, u16Write 0x08 r.nEntryPoints, u8Write 0x0a (.ofNat entryPointSize)]

def contextsSHdrRead (d : Mem) : ContextsSHdr where
  pEntryPoints := u64Read d 0x00
  nEntryPoints := u16Read d 0x08
  szEntryPoint := u8Read d 0x0a

def contextsSHdr : Format ContextsSHdr :=
  ⟨contextsSHdrSize, contextsSHdrWrite, contextsSHdrRead, fun r => { r with szEntryPoint := (.ofNat entryPointSize) }⟩

lemma contextsSHdr_readBack (r : ContextsSHdr) : contextsSHdr.ReadBack r := by
  intro d
  have apart : (contextsSHdrWrite r).Pairwise Store.Apart := of_decide_eq_true rfl
  change contextsSHdrRead (d.stores (contextsSHdrWrite r)) = { r with szEntryPoint := (.ofNat entryPointSize) }
  ext1
  · exact u64Read_stores apart (by simp [contextsSHdrWrite])
  · exact u16Read_stores apart (by simp [contextsSHdrWrite])
  · exact u8Read_stores apart d 0x0a (by simp [contextsSHdrWrite])

end HpcToolkit.Formats.MetaDb
