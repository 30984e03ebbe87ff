import HpcToolkit.Fmt.SparseMetrics

/-! # Writing a profile

`hpcrun_write_profile_data` on a file that is opened for it: the header, the sections of each epoch at
offsets rounded up to 1024, and behind the last epoch a footer with the offsets of its sections. Numbers
in the header are written in decimal, the host id in hexadecimal. The writers of the records do not fail
here; the writer has no result when a loop of the sparse metrics does not end.
-/

open List

namespace HpcToolkit.Fmt

open Lib Cct

/-! ## What is written -/

/-- The characters of a text in ASCII. -/
def text (s : List Char) : List UInt8 := s.map fun c => UInt8.ofNat c.toNat

/-- `%u` and `%x`. -/
def decimal (n : ℕ) : List UInt8 := text (Nat.toDigits 10 n)
def hexadecimal (n : ℕ) : List UInt8 := text (Nat.toDigits 16 n)

def signedDecimal (n : ℤ) : List UInt8 := if n < 0 then text ['-'] ++ decimal n.natAbs else decimal n.natAbs

/-- `epoch_t` as the lists of records it is written as; the load map in the order of `prev`, the nodes and
blocks as `hpcrun_cct_bundle_fwrite` hands them over. Nodes and blocks are counted in 32 bits. -/
structure Epoch where
  loadmap : List LoadmapEntry
  cct : List FmtCctNode
  blocks : List Block
  namesFit : ∀ lm ∈ loadmap, Short lm.name
  cctFits : cct.length < 2 ^ 32
  valuesFit : totalOf blocks < 2 ^ 64
  indexFits : blocks.length + 1 < 2 ^ 32

/-- `core_profile_trace_data_t` and what the writer asks its environment for. -/
structure ProfileData where
  /-- `hpcrun_sample_prob_active` -/
  sampleProbActive : Bool
  executableName : List UInt8
  executablePathname : List UInt8
  envPath : List UInt8
  jobId : List UInt8
  rank : ℤ
  id : ℤ
  hostid : UInt32
  pid : UInt32
  traceMinTimeUs : UInt64
  traceMaxTimeUs : UInt64
  traceIsOrdered : Bool
  traceExpectedDisorder : UInt32
  idTuple : List PmsId
  /-- The metric tables of the kinds -/
  metricTbls : List (List MetricDesc)
  epochs : List Epoch
  textsFit : Short executableName ∧ Short executablePathname ∧ Short envPath ∧ Short jobId
  numbersFit : rank.natAbs < 2 ^ 31 ∧ id.natAbs ≤ 2 ^ 31
  tupleFits : idTuple.length < 2 ^ 16
  descsFit : ∀ m ∈ metricTbls.flatten, m.Short

/-- The value of `trace-disorder`. -/
def ProfileData.traceDisorder (p : ProfileData) : List UInt8 :=
  if p.traceIsOrdered then text ['0'] else decimal p.traceExpectedDisorder.toNat

/-- The pairs that `lazy_open_data_file` puts into the header. -/
def ProfileData.nvps (p : ProfileData) : List NvPair :=
  [⟨text "program-name".toList, p.executableName⟩,
    ⟨text "program-path".toList, p.executablePathname⟩,
    ⟨text "env-path".toList, p.envPath⟩,
    ⟨text "job-id".toList, p.jobId⟩,
    ⟨text "mpi-rank".toList, signedDecimal (if p.rank < 0 then 0 else p.rank)⟩,
    ⟨text "thread-id".toList, signedDecimal p.id⟩,
    ⟨text "host-id".toList, hexadecimal p.hostid.toNat⟩,
    ⟨text "process-id".toList, decimal p.pid.toNat⟩,
    ⟨text "trace-min-time".toList, decimal p.traceMinTimeUs.toNat⟩,
    ⟨text "trace-max-time".toList, decimal p.traceMaxTimeUs.toNat⟩,
    ⟨text "trace-disorder".toList, p.traceDisorder⟩]

/-- The load map section. -/
def loadmapFwrite (lms : List LoadmapEntry) : List UInt8 :=
  int4Fwrite (.ofNat lms.length) ++ lms.flatMap loadmapEntryFwrite

/-- The bytes `hpcrun_cct_bundle_fwrite` writes. -/
def cctFwrite (nodes : List FmtCctNode) : List UInt8 :=
  int8Fwrite (.ofNat nodes.length) ++ nodes.flatMap cctNodeFwrite

/-- The metric section: `hpcrun_get_num_kind_metrics` and the table of each kind. -/
def metricTblsFwrite (tbls : List (List MetricDesc)) : List UInt8 :=
  int4Fwrite (.ofNat tbls.flatten.length) ++ tbls.flatten.flatMap metricDescFwrite

def hpcrunFmtIdtupleDxnryFwrite : List UInt8 :=
  int2Fwrite 8 ++
    int2Fwrite 0 ++ strFwrite (text "SUMMARY".toList) ++
    int2Fwrite 1 ++ strFwrite (text "NODE".toList) ++
    int2Fwrite 2 ++ strFwrite (text "RANK".toList) ++
    int2Fwrite 3 ++ strFwrite (text "THREAD".toList) ++
    int2Fwrite 4 ++ strFwrite (text "GPUDEVICE".toList) ++
    int2Fwrite 5 ++ strFwrite (text "GPUCONTEXT".toList) ++
    int2Fwrite 6 ++ strFwrite (text "GPUSTREAM".toList) ++
    int2Fwrite 7 ++ strFwrite (text "CORE".toList)

/-- The sparse metrics of an epoch with the id tuple of the profile. -/
def ProfileData.sparse (p : ProfileData) (s : Epoch) : SparseInput :=
  ⟨p.idTuple, s.blocks, p.tupleFits, s.valuesFit, s.indexFits⟩

/-! ## Writing it -/

def multiple1024 (v : ℕ) : ℕ := (v + 1023) / 1024 * 1024

/-- Functions over a file being written; no result when one of them does not return. -/
abbrev FileM (α : Type) := StateT ByteFile Option α

def ftell : FileM ℕ := do return (← get).pos

def fwrite (data : List UInt8) : FileM Unit := modify fun f => f.write data

def fseek (off : ℕ) : FileM Unit := modify fun f => { f with pos := off }

/-- A section between two calls of `ftell`, followed by a seek to the next multiple of 1024. -/
def writeSection (data : List UInt8) : FileM (ℕ × ℕ) := do
  let start ← ftell
  fwrite data
  let finish ← ftell
  fseek (multiple1024 finish)
  return (start, finish)

/-- The sparse metrics of a section, if their writer returns. -/
def sparseMetricsBytes (x : SparseSection) : FileM (List UInt8) := fun f =>
  (hpcrunFmtSparseMetricsFwrite x).map fun bytes => (bytes, f)

/-- The body of the loop in `write_epochs`; the footer is written behind the last epoch. -/
def writeEpoch (p : ProfileData) (hdrStart hdrEnd : ℕ) (s : Epoch) (isLast : Bool) : FileM Unit := do
  let loadmap ← writeSection (loadmapFwrite s.loadmap)
  let cct ← writeSection (cctFwrite s.cct)
  let metTbl ← writeSection (metricTblsFwrite p.metricTbls)
  let idtplDxnry ← writeSection hpcrunFmtIdtupleDxnryFwrite
  let sparseMetrics ← sparseMetricsBytes (p.sparse s).section
  let sm ← writeSection sparseMetrics
  let footerStart ← ftell
  if isLast then
    fwrite (hpcrunFmtFooterFwrite ⟨hdrStart, hdrEnd, loadmap.1, loadmap.2, cct.1, cct.2, metTbl.1, metTbl.2,
      idtplDxnry.1, idtplDxnry.2, sm.1, sm.2, footerStart⟩)

/-- `write_epochs` with a footer whose header fields are set. -/
def writeEpochs (p : ProfileData) (hdrStart hdrEnd : ℕ) : List Epoch → FileM Unit
  | [] => return ()
  | s :: next => do
    writeEpoch p hdrStart hdrEnd s next.isEmpty
    writeEpochs p hdrStart hdrEnd next

/-- `lazy_open_data_file` on a file that is not open yet. -/
def lazyOpenDataFile (p : ProfileData) : ByteFile :=
  let fs : ByteFile := ⟨[], 0⟩
  if p.sampleProbActive then fs.write (hpcrunFmtHdrFwrite p.nvps) else fs

/-- `hpcrun_write_profile_data`, with the file it leaves behind. -/
def hpcrunWriteProfileData (p : ProfileData) : Option ByteFile := do
  let fs := lazyOpenDataFile p
  let hdrEnd := fs.pos
  let fs := { fs with pos := multiple1024 hdrEnd }
  if p.sampleProbActive then
    let (_, fs) ← writeEpochs p 0 hdrEnd p.epochs fs
    return fs
  else return fs

/-! ## Where the sections stand -/

/-- `data` stands at `start`, ends at `finish`, and that is no further than `limit`. -/
structure Span (bytes : List UInt8) (limit start finish : ℕ) (data : List UInt8) : Prop where
  here : At bytes start data
  ends : finish = start + data.length
  below : finish ≤ limit

/-- The sections of an epoch stand where the footer says. -/
structure Sections (p : ProfileData) (s : Epoch) (bytes : List UInt8) (footer : Footer) : Prop where
  loadmap : Span bytes footer.footerStart footer.loadmapStart footer.loadmapEnd (loadmapFwrite s.loadmap)
  cct : Span bytes footer.footerStart footer.cctStart footer.cctEnd (cctFwrite s.cct)
  metTbl : Span bytes footer.footerStart footer.metTblStart footer.metTblEnd (metricTblsFwrite p.metricTbls)
  dxnry : Span bytes footer.footerStart footer.idtplDxnryStart footer.idtplDxnryEnd hpcrunFmtIdtupleDxnryFwrite
  sm : Span bytes footer.footerStart footer.smStart footer.smEnd (p.sparse s).bytes

/-- A file with a header, the sections of an epoch and the footer. -/
structure Layout (p : ProfileData) (s : Epoch) (bytes : List UInt8) (footer : Footer) : Prop where
  hdr : Span bytes footer.footerStart footer.hdrStart footer.hdrEnd (hpcrunFmtHdrFwrite p.nvps)
  sections : Sections p s bytes footer
  trailer : At bytes footer.footerStart (hpcrunFmtFooterFwrite footer)
  length : bytes.length = footer.footerStart + sfFooterSize

section
variable {p : ProfileData} {s : Epoch} {f f' : ByteFile} {footer : Footer}

lemma le_multiple1024 (v : ℕ) : v ≤ multiple1024 v := by
  rw [multiple1024]
  omega

lemma length_footerFwrite (footer : Footer) : (hpcrunFmtFooterFwrite footer).length = sfFooterSize := by
  rw [hpcrunFmtFooterFwrite, length_flatMap_const (length_toBE 8)]
  rfl

lemma Span.mono {bytes bytes' data : List UInt8} {limit limit' start finish : ℕ}
    (span : Span bytes limit start finish data) (isPrefix : bytes <+: bytes') (le : limit ≤ limit') :
    Span bytes' limit' start finish data :=
  ⟨span.here.of_isPrefix isPrefix, span.ends, span.below.trans le⟩

lemma ftell_apply (f : ByteFile) : ftell f = some (f.pos, f) := rfl

lemma fwrite_apply (data : List UInt8) (f : ByteFile) : fwrite data f = some ((), f.write data) := rfl

lemma writeSection_apply (appending : f.Appending) (data : List UInt8) : ∃ f',
    writeSection data f = some ((f.pos, f.pos + data.length), f') ∧ f'.Appending ∧ f.bytes <+: f'.bytes ∧
      f.pos ≤ f'.pos ∧ Span f'.bytes f'.pos f.pos (f.pos + data.length) data := by
  have bound := le_multiple1024 (f.pos + data.length)
  have appending' : (f.write data).bytes.length ≤ multiple1024 (f.pos + data.length) := by
    rwa [appending.length_write]
  have grows : f.pos ≤ multiple1024 (f.pos + data.length) := by omega
  exact ⟨_, rfl, appending', appending.isPrefix_write data, grows, appending.at_write data, rfl, bound⟩

lemma writeEpoch_apply (appending : f.Appending) (hdrStart hdrEnd : ℕ) (isLast : Bool) : ∃ f' footer,
    f'.Appending ∧ f.bytes <+: f'.bytes ∧ f.pos ≤ f'.pos ∧ Sections p s f'.bytes footer ∧
    footer.hdrStart = hdrStart ∧ footer.hdrEnd = hdrEnd ∧ footer.footerStart = f'.pos ∧
    writeEpoch p hdrStart hdrEnd s isLast f = if totalOf s.blocks < 2 ^ 32
      then some ((), if isLast then f'.write (hpcrunFmtFooterFwrite footer) else f')
      else none := by
  obtain ⟨f₁, run₁, app₁, pre₁, le₁, span₁⟩ := writeSection_apply appending (loadmapFwrite s.loadmap)
  obtain ⟨f₂, run₂, app₂, pre₂, le₂, span₂⟩ := writeSection_apply app₁ (cctFwrite s.cct)
  obtain ⟨f₃, run₃, app₃, pre₃, le₃, span₃⟩ := writeSection_apply app₂ (metricTblsFwrite p.metricTbls)
  obtain ⟨f₄, run₄, app₄, pre₄, le₄, span₄⟩ := writeSection_apply app₃ hpcrunFmtIdtupleDxnryFwrite
  obtain ⟨f₅, run₅, app₅, pre₅, le₅, span₅⟩ := writeSection_apply app₄ (p.sparse s).bytes
  have pre₃₅ : f₃.bytes <+: f₅.bytes := pre₄.trans pre₅
  have pre₂₅ : f₂.bytes <+: f₅.bytes := pre₃.trans pre₃₅
  have pre₁₅ : f₁.bytes <+: f₅.bytes := pre₂.trans pre₂₅
  refine ⟨f₅, ⟨hdrStart, hdrEnd, f.pos, _, f₁.pos, _, f₂.pos, _, f₃.pos, _, f₄.pos, _, f₅.pos⟩, app₅,
    pre₁.trans pre₁₅, by omega,
    ⟨span₁.mono pre₁₅ ?_, span₂.mono pre₂₅ ?_, span₃.mono pre₃₅ ?_, span₄.mono pre₅ le₅, span₅⟩, rfl, rfl, rfl, ?_⟩
  · show f₁.pos ≤ f₅.pos
    omega
  · show f₂.pos ≤ f₅.pos
    omega
  · show f₃.pos ≤ f₅.pos
    omega
  · have written : sparseMetricsBytes (p.sparse s).section f₄ =
        if totalOf s.blocks < 2 ^ 32 then some ((p.sparse s).bytes, f₄) else none := by
      have total : totalOf (p.sparse s).blocks = totalOf s.blocks := rfl
      rw [sparseMetricsBytes, hpcrunFmtSparseMetricsFwrite_eq, total]
      split <;> rfl
    rw [writeEpoch, bind_run run₁, bind_run run₂, bind_run run₃, bind_run run₄, bind_apply, written]
    split
    · rw [Option.bind_some, bind_run run₅, bind_run (ftell_apply f₅)]
      cases isLast
      · rfl
      · exact fwrite_apply _ f₅
    · rfl

lemma writeEpochs_cons (hdrStart hdrEnd : ℕ) (next : List Epoch) : writeEpochs p hdrStart hdrEnd (s :: next) f =
    (writeEpoch p hdrStart hdrEnd s next.isEmpty f).bind fun r => writeEpochs p hdrStart hdrEnd next r.2 := rfl

lemma writeEpochs_ends {hdrStart hdrEnd : ℕ} {epochs : List Epoch} (appending : f.Appending)
    (small : ∀ s ∈ epochs, totalOf s.blocks < 2 ^ 32) : ∃ f', writeEpochs p hdrStart hdrEnd epochs f = some ((), f') := by
  induction epochs generalizing f with
  | nil => exact ⟨f, rfl⟩
  | cons s next ih =>
    obtain ⟨f₁, footer, app, -, -, -, -, -, -, run⟩ := writeEpoch_apply appending hdrStart hdrEnd next.isEmpty
    rw [writeEpochs_cons, run, if_pos (small s (.head _)), Option.bind_some]
    cases next with
    | nil => exact ⟨_, rfl⟩
    | cons s' next =>
      rw [isEmpty_cons, if_neg Bool.false_ne_true]
      exact ih app fun s' member => small s' (.tail _ member)

variable {earlier : List Epoch}

lemma writeEpochs_layout {hdrEnd : ℕ} (appending : f.Appending)
    (hdr : Span f.bytes f.pos 0 hdrEnd (hpcrunFmtHdrFwrite p.nvps))
    (run : writeEpochs p 0 hdrEnd (earlier ++ [s]) f = some ((), f')) :
    totalOf s.blocks < 2 ^ 32 ∧ f'.bytes.length = f'.pos ∧ ∃ footer, Layout p s f'.bytes footer := by
  induction earlier generalizing f with
  | nil =>
    obtain ⟨f₁, footer, app, pre, le, sections, start, finish, last, step⟩ := writeEpoch_apply appending 0 hdrEnd true
    rw [nil_append, writeEpochs_cons, isEmpty_nil, step] at run
    split at run
    · rename_i small
      rw [Option.bind_some, if_pos rfl, writeEpochs] at run
      obtain rfl : f₁.write (hpcrunFmtFooterFwrite footer) = f' := by simpa using run
      have pre' := app.isPrefix_write (hpcrunFmtFooterFwrite footer)
      refine ⟨small, app.length_write _, footer, ?_, ⟨?_, ?_, ?_, ?_, ?_⟩, ?_, ?_⟩
      · rw [start, finish, last]
        exact hdr.mono (pre.trans pre') le
      · exact sections.loadmap.mono pre' le_rfl
      · exact sections.cct.mono pre' le_rfl
      · exact sections.metTbl.mono pre' le_rfl
      · exact sections.dxnry.mono pre' le_rfl
      · exact sections.sm.mono pre' le_rfl
      · rw [last]
        exact app.at_write _
      · rw [app.length_write, length_footerFwrite, last]
    · cases run
  | cons s' earlier ih =>
    obtain ⟨f₁, footer, app, pre, le, -, -, -, -, step⟩ := writeEpoch_apply appending 0 hdrEnd false
    have more : (earlier ++ [s]).isEmpty = false := by simp
    rw [cons_append, writeEpochs_cons, more, step] at run
    split at run
    · rw [Option.bind_some, if_neg Bool.false_ne_true] at run
      exact ih app (hdr.mono pre le) run
    · cases run

/-- The file behind its header. -/
def ProfileData.headerFile (p : ProfileData) : ByteFile :=
  ⟨hpcrunFmtHdrFwrite p.nvps, multiple1024 (hpcrunFmtHdrFwrite p.nvps).length⟩

lemma headerFile_appending (p : ProfileData) : p.headerFile.Appending := le_multiple1024 _

lemma headerFile_span (p : ProfileData) : Span p.headerFile.bytes p.headerFile.pos 0
    (hpcrunFmtHdrFwrite p.nvps).length (hpcrunFmtHdrFwrite p.nvps) := by
  refine ⟨⟨[], [], ?_, rfl⟩, (Nat.zero_add _).symm, le_multiple1024 _⟩
  rw [nil_append, append_nil]
  rfl

section
variable (active : p.sampleProbActive = true)
include active

lemma lazyOpenDataFile_active : lazyOpenDataFile p =
    ⟨hpcrunFmtHdrFwrite p.nvps, (hpcrunFmtHdrFwrite p.nvps).length⟩ := by
  have whole : ∀ hdr, (⟨[], 0⟩ : ByteFile).write hdr = ⟨hdr, hdr.length⟩ := fun hdr => by simp [ByteFile.write]
  rw [lazyOpenDataFile, if_pos active, whole]

lemma hpcrunWriteProfileData_eq : hpcrunWriteProfileData p =
    (writeEpochs p 0 (hpcrunFmtHdrFwrite p.nvps).length p.epochs p.headerFile).map Prod.snd := by
  have opened := lazyOpenDataFile_active active
  rw [ProfileData.headerFile]
  generalize hpcrunFmtHdrFwrite p.nvps = hdr at opened ⊢
  rw [hpcrunWriteProfileData, opened, if_pos active, Option.map_eq_bind]
  rfl

lemma hpcrunWriteProfileData_layout
    (epochs : p.epochs = earlier ++ [s]) (written : hpcrunWriteProfileData p = some f) :
    totalOf s.blocks < 2 ^ 32 ∧ f.bytes.length = f.pos ∧ ∃ footer, Layout p s f.bytes footer := by
  rw [hpcrunWriteProfileData_eq active, epochs] at written
  obtain ⟨⟨_, fs⟩, run, rfl⟩ := Option.map_eq_some_iff.mp written
  exact writeEpochs_layout (headerFile_appending p) (headerFile_span p) run

end

lemma Layout.offsets_lt {bytes : List UInt8} (layout : Layout p s bytes footer) (fits : bytes.length < 2 ^ 63) :
    ∀ off ∈ footer.offsets, off < 2 ^ 64 := by
  obtain ⟨⟨-, ends₁, below₁⟩, ⟨⟨-, ends₂, below₂⟩, ⟨-, ends₃, below₃⟩, ⟨-, ends₄, below₄⟩, ⟨-, ends₅, below₅⟩,
    ⟨-, ends₆, below₆⟩⟩, -, length⟩ := layout
  simp only [Footer.offsets, forall_mem_cons, not_mem_nil, false_imp_iff, implies_true, and_true]
  omega

end

end HpcToolkit.Fmt
