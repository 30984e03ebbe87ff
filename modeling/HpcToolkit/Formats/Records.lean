import HpcToolkit.Formats.MetaDb
import HpcToolkit.Formats.Databases

/-! # All the database records

Every record is read back. Its bytes are a function of the record for all but four kinds, in which some bytes are never
stored and keep what the buffer held.
-/

namespace HpcToolkit.Formats

open Lib

/-- The fixed-size records of the four databases. -/
inductive Kind where
  | metaFHdr
  | generalSHdr
  | idNamesSHdr
  | metricsSHdr
  | metricDesc
  | propScopeInst
  | summaryStat
  | propScope
  | modulesSHdr
  | moduleSpec
  | filesSHdr
  | fileSpec
  | functionsSHdr
  | functionSpec
  | contextsSHdr
  | entryPoint
  | profileFHdr
  | profInfoSHdr
  | profInfo
  | mVal
  | cIdx
  | idTupleHdr
  | idTupleElem
  | cctFHdr
  | ctxInfoSHdr
  | ctxInfo
  | pVal
  | mIdx
  | traceFHdr
  | ctxTraceSHdr
  | ctxTrace
  | ctxSample
deriving DecidableEq

namespace Kind

def Record : Kind → Type
  | .metaFHdr => MetaDb.FHdr
  | .generalSHdr => MetaDb.GeneralSHdr
  | .idNamesSHdr => MetaDb.IdNamesSHdr
  | .metricsSHdr => MetaDb.MetricsSHdr
  | .metricDesc => MetaDb.MetricDesc
  | .propScopeInst => MetaDb.PropScopeInst
  | .summaryStat => MetaDb.SummaryStat
  | .propScope => MetaDb.PropScope
  | .modulesSHdr => MetaDb.ModulesSHdr
  | .moduleSpec => MetaDb.ModuleSpec
  | .filesSHdr => MetaDb.FilesSHdr
  | .fileSpec => MetaDb.FileSpec
  | .functionsSHdr => MetaDb.FunctionsSHdr
  | .functionSpec => MetaDb.FunctionSpec
  | .contextsSHdr => MetaDb.ContextsSHdr
  | .entryPoint => MetaDb.EntryPoint
  | .profileFHdr => ProfileDb.FHdr
  | .profInfoSHdr => ProfileDb.ProfInfoSHdr
  | .profInfo => ProfileDb.ProfInfo
  | .mVal => ProfileDb.MVal
  | .cIdx => ProfileDb.CIdx
  | .idTupleHdr => ProfileDb.IdTupleHdr
  | .idTupleElem => ProfileDb.IdTupleElem
  | .cctFHdr => CctDb.FHdr
  | .ctxInfoSHdr => CctDb.CtxInfoSHdr
  | .ctxInfo => CctDb.CtxInfo
  | .pVal => CctDb.PVal
  | .mIdx => CctDb.MIdx
  | .traceFHdr => TraceDb.FHdr
  | .ctxTraceSHdr => TraceDb.CtxTraceSHdr
  | .ctxTrace => TraceDb.CtxTrace
  | .ctxSample => TraceDb.CtxSample

def format : (k : Kind) → Format k.Record
  | .metaFHdr => MetaDb.fHdr
  | .generalSHdr => MetaDb.generalSHdr
  | .idNamesSHdr => MetaDb.idNamesSHdr
  | .metricsSHdr => MetaDb.metricsSHdr
  | .metricDesc => MetaDb.metricDesc
  | .propScopeInst => MetaDb.propScopeInst
  | .summaryStat => MetaDb.summaryStat
  | .propScope => MetaDb.propScope
  | .modulesSHdr => MetaDb.modulesSHdr
  | .moduleSpec => MetaDb.moduleSpec
  | .filesSHdr => MetaDb.filesSHdr
  | .fileSpec => MetaDb.fileSpec
  | .functionsSHdr => MetaDb.functionsSHdr
  | .functionSpec => MetaDb.functionSpec
  | .contextsSHdr => MetaDb.contextsSHdr
  | .entryPoint => MetaDb.entryPoint
  | .profileFHdr => ProfileDb.fHdr
  | .profInfoSHdr => ProfileDb.profInfoSHdr
  | .profInfo => ProfileDb.profInfo
  | .mVal => ProfileDb.mVal
  | .cIdx => ProfileDb.cIdx
  | .idTupleHdr => ProfileDb.idTupleHdr
  | .idTupleElem => ProfileDb.idTupleElem
  | .cctFHdr => CctDb.fHdr
  | .ctxInfoSHdr => CctDb.ctxInfoSHdr
  | .ctxInfo => CctDb.ctxInfo
  | .pVal => CctDb.pVal
  | .mIdx => CctDb.mIdx
  | .traceFHdr => TraceDb.fHdr
  | .ctxTraceSHdr => TraceDb.ctxTraceSHdr
  | .ctxTrace => TraceDb.ctxTrace
  | .ctxSample => TraceDb.ctxSample

/-- The kinds of record that have bytes which are not stored. -/
def gaps : List Kind := [.functionSpec, .entryPoint, .idTupleElem, .cctFHdr]

lemma readBack (k : Kind) (r : k.Record) : k.format.ReadBack r := by
  cases k with
  | metaFHdr => exact MetaDb.fHdr_readBack r
  | generalSHdr => exact MetaDb.generalSHdr_readBack r
  | idNamesSHdr => exact MetaDb.idNamesSHdr_readBack r
  | metricsSHdr => exact MetaDb.metricsSHdr_readBack r
  | metricDesc => exact MetaDb.metricDesc_readBack r
  | propScopeInst => exact MetaDb.propScopeInst_readBack r
  | summaryStat => exact MetaDb.summaryStat_readBack r
  | propScope => exact MetaDb.propScope_readBack r
  | modulesSHdr => exact MetaDb.modulesSHdr_readBack r
  | moduleSpec => exact MetaDb.moduleSpec_readBack r
  | filesSHdr => exact MetaDb.filesSHdr_readBack r
  | fileSpec => exact MetaDb.fileSpec_readBack r
  | functionsSHdr => exact MetaDb.functionsSHdr_readBack r
  | functionSpec => exact MetaDb.functionSpec_readBack r
  | contextsSHdr => exact MetaDb.contextsSHdr_readBack r
  | entryPoint => exact MetaDb.entryPoint_readBack r
  | profileFHdr => exact ProfileDb.fHdr_readBack r
  | profInfoSHdr => exact ProfileDb.profInfoSHdr_readBack r
  | profInfo => exact ProfileDb.profInfo_readBack r
  | mVal => exact ProfileDb.mVal_readBack r
  | cIdx => exact ProfileDb.cIdx_readBack r
  | idTupleHdr => exact ProfileDb.idTupleHdr_readBack r
  | idTupleElem => exact ProfileDb.idTupleElem_readBack r
  | cctFHdr => exact CctDb.fHdr_readBack r
  | ctxInfoSHdr => exact CctDb.ctxInfoSHdr_readBack r
  | ctxInfo => exact CctDb.ctxInfo_readBack r
  | pVal => exact CctDb.pVal_readBack r
  | mIdx => exact CctDb.mIdx_readBack r
  | traceFHdr => exact TraceDb.fHdr_readBack r
  | ctxTraceSHdr => exact TraceDb.ctxTraceSHdr_readBack r
  | ctxTrace => exact TraceDb.ctxTrace_readBack r
  | ctxSample => exact TraceDb.ctxSample_readBack r

variable {k : Kind}

lemma independent (complete : k ∉ gaps) (r : k.Record) : k.format.Independent r := by
  suffices filled : k.format.size ≤ Mem.filled 0 (k.format.write r) from
    (k.format.independent_iff r).mpr fun i within => Mem.touched_of_lt_filled (Nat.zero_le i) (within.trans_le filled)
  cases k with
  | functionSpec | entryPoint | idTupleElem | cctFHdr => exact absurd complete (by decide)
  | metaFHdr | generalSHdr | idNamesSHdr | metricsSHdr | metricDesc | propScopeInst | summaryStat | propScope
  | modulesSHdr | moduleSpec | filesSHdr | fileSpec | functionsSHdr | contextsSHdr | profileFHdr
  | profInfoSHdr | profInfo | mVal | cIdx | idTupleHdr | ctxInfoSHdr | ctxInfo | pVal | mIdx | traceFHdr
  | ctxTraceSHdr | ctxTrace | ctxSample =>
    exact Nat.le_of_ble_eq_true rfl

lemma not_independent (gap : k ∈ gaps) (r : k.Record) : ¬ k.format.Independent r := by
  cases k with
  | functionSpec => exact Format.not_independent (i := 0x24) (by decide) (of_decide_eq_true rfl)
  | entryPoint => exact Format.not_independent (i := 0x16) (by decide) (of_decide_eq_true rfl)
  | idTupleElem => exact Format.not_independent (i := 0x03) (by decide) (of_decide_eq_true rfl)
  | cctFHdr => exact Format.not_independent (i := 0x20) (by decide) (of_decide_eq_true rfl)
  | _ => exact absurd gap (by decide)

/-- The bytes of a record depend on its contents only, and give it back, exactly if its kind has no gaps. -/
theorem function_of_contents_iff (k : Kind) (r : k.Record) :
    k.format.Independent r ∧ k.format.ReadBack r ↔ k ∉ gaps :=
  ⟨fun ⟨same, _⟩ gap => not_independent gap r same, fun complete => ⟨independent complete r, readBack k r⟩⟩

/-- The bytes behind the line of a function are those that the buffer held. -/
theorem functionSpec_leaks : ¬ (format .functionSpec).Independent ⟨0, 0, 0, 0, 0⟩ := by
  intro same
  have bytes := congrArg (fun data => data.getD 0x24 0) (same (fun _ => 0) fun _ => 1)
  exact absurd bytes (by decide)

end Kind

end HpcToolkit.Formats
