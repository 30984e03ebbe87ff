import HpcToolkit.Fmt.Records

/-! # The sparse reader of hpcrun files

`hpcrun_sparse_file_t` and the functions over it. They run in a state monad that fails where the source
returns `SF_ERR` for a read error or a failed check; a code returned as an `int` is an integer, so that a
record id and the codes for the end of a list share one range as they do in the source. File offsets are
naturals: they address bytes of an existing file.
-/

open List

namespace HpcToolkit.Fmt

open Lib Cct

/-! ## Footer -/

def hpcrunSm : ℕ := 0x48504352554E736D

structure Footer where
  hdrStart : ℕ
  hdrEnd : ℕ
  loadmapStart : ℕ
  loadmapEnd : ℕ
  cctStart : ℕ
  cctEnd : ℕ
  metTblStart : ℕ
  metTblEnd : ℕ
  idtplDxnryStart : ℕ
  idtplDxnryEnd : ℕ
  smStart : ℕ
  smEnd : ℕ
  footerStart : ℕ

def Footer.offsets (x : Footer) : List ℕ :=
  [x.hdrStart, x.hdrEnd, x.loadmapStart, x.loadmapEnd, x.cctStart, x.cctEnd, x.metTblStart, x.metTblEnd,
    x.idtplDxnryStart, x.idtplDxnryEnd, x.smStart, x.smEnd, x.footerStart]

/-- `hpcrun_fmt_footer_fwrite`, with the magic number set. -/
def hpcrunFmtFooterFwrite (x : Footer) : List UInt8 := (x.offsets ++ [hpcrunSm]).flatMap (toBE 8)

def hpcrunFmtFooterFread : Reader Footer := do
  let hdrStart ← readBE 8
  let hdrEnd ← readBE 8
  let loadmapStart ← readBE 8
  let loadmapEnd ← readBE 8
  let cctStart ← readBE 8
  let cctEnd ← readBE 8
  let metTblStart ← readBE 8
  let metTblEnd ← readBE 8
  let idtplDxnryStart ← readBE 8
  let idtplDxnryEnd ← readBE 8
  let smStart ← readBE 8
  let smEnd ← readBE 8
  let footerStart ← readBE 8
  let magic ← readBE 8
  if magic ≠ hpcrunSm then failure
  return ⟨hdrStart, hdrEnd, loadmapStart, loadmapEnd, cctStart, cctEnd, metTblStart, metTblEnd,
    idtplDxnryStart, idtplDxnryEnd, smStart, smEnd, footerStart⟩

def sfFooterSize : ℕ := 7 * 16

def hpcrunSparseFooterUpdateWStart (f : Footer) (startPos : ℕ) : Footer where
  hdrStart := f.hdrStart + startPos
  hdrEnd := f.hdrEnd + startPos
  loadmapStart := f.loadmapStart + startPos
  loadmapEnd := f.loadmapEnd + startPos
  cctStart := f.cctStart + startPos
  cctEnd := f.cctEnd + startPos
  metTblStart := f.metTblStart + startPos
  metTblEnd := f.metTblEnd + startPos
  idtplDxnryStart := f.idtplDxnryStart + startPos
  idtplDxnryEnd := f.idtplDxnryEnd + startPos
  smStart := f.smStart + startPos
  smEnd := f.smEnd + startPos
  footerStart := f.footerStart + startPos

/-! ## The open file -/

inductive Mode where
  | opened
  | paused
deriving DecidableEq

structure SparseFile where
  file : ByteFile
  footer : Footer
  mode : Mode
  curPos : ℕ
  startPos : ℕ
  endPos : ℕ
  numCctNodes : ℕ
  cctNodesRead : UInt32
  metricBytesRead : ℕ
  curMetricId : UInt16
  lmBytesRead : ℕ
  smBlockTouched : UInt32
  curBlockEnd : ℕ
  curBlockStart : ℕ
  numNzval : ℕ
  numNzCctNodes : UInt32
  cctNodeIdIdxOffset : ℕ
  valMidOffset : ℕ

/-- Functions over an open file; failing is returning `SF_ERR`. -/
abbrev SparseM (α : Type) := StateT SparseFile Option α

def SparseFile.seek (sf : SparseFile) (off : ℕ) : SparseFile := { sf with file := { sf.file with pos := off } }

def seek (off : ℕ) : SparseM Unit := modify fun sf => sf.seek off

/-- A read of `hpcrun-fmt.c` from the file, under `HPCFMT_ThrowIfError`. -/
def readFrom {α : Type} (reader : Reader α) : SparseM α := fun sf =>
  (reader sf.file).map fun (x, file) => (x, { sf with file := file })

def tell : SparseM ℕ := do return (← get).file.pos

def checkMode (expected : Mode) : SparseM Unit := do
  if (← get).mode ≠ expected then failure

/-- The object that `hpcrun_sparse_open` sets up. -/
def newSparseFile (file : ByteFile) (footer : Footer) (startPos endPos : ℕ) : SparseFile where
  file := file
  footer := footer
  mode := .opened
  curPos := startPos
  startPos := startPos
  endPos := endPos
  numCctNodes := 0
  cctNodesRead := 0
  metricBytesRead := 0
  curMetricId := 0
  lmBytesRead := 0
  smBlockTouched := 0
  curBlockEnd := 0
  curBlockStart := 0
  numNzval := 0
  numNzCctNodes := 0
  cctNodeIdIdxOffset := 0
  valMidOffset := 0

/-- `hpcrun_sparse_open`; `end_pos` 0 stands for the end of the file, and a seek before the start of the
file fails and leaves the position where it was. -/
def hpcrunSparseOpen (bytes : List UInt8) (startPos endPos : ℕ) : Option SparseFile := do
  let atEnd := endPos == 0
  let endPos := if atEnd then bytes.length else endPos
  let pos := if sfFooterSize ≤ endPos then endPos - sfFooterSize else if atEnd then endPos else 0
  let (footer, file) ← hpcrunFmtFooterFread ⟨bytes, pos⟩
  let footer := hpcrunSparseFooterUpdateWStart footer startPos
  return newSparseFile { file with pos := footer.hdrStart } footer startPos endPos

def hpcrunSparsePause : SparseM Unit := do
  checkMode .opened
  let pos ← tell
  modify fun sf => { sf with curPos := pos, mode := .paused }

/-- `hpcrun_sparse_resume` on the same path: the file is opened anew and positioned. -/
def hpcrunSparseResume : SparseM Unit := do
  checkMode .paused
  let sf ← get
  if sf.curPos < sf.startPos ∨ sf.endPos ≤ sf.curPos then failure
  set { sf with file := { sf.file with pos := sf.curPos }, mode := .opened }

/-! ## Reading records -/

def hpcrunSparseReadHdr : SparseM Hdr := do
  checkMode .opened
  let footer := (← get).footer
  seek footer.hdrStart
  let hdr ← readFrom hpcrunFmtHdrFread
  if (← tell) ≠ footer.hdrEnd then failure
  return hdr

def sfNumLmSize : ℕ := 4

def hpcrunSparseNextLm : SparseM (ℤ × Option LoadmapEntry) := do
  checkMode .opened
  modify fun sf => if sf.lmBytesRead = 0 then { sf with lmBytesRead := sfNumLmSize } else sf
  let sf ← get
  let realoffset := sf.footer.loadmapStart + sf.lmBytesRead
  if realoffset = sf.footer.loadmapEnd then return (0, none)
  if sf.footer.loadmapEnd < realoffset then failure
  seek realoffset
  let lm ← readFrom loadmapEntryFread
  let pos ← tell
  modify fun sf => { sf with lmBytesRead := sf.lmBytesRead + (pos - realoffset) }
  return (lm.id.toNat, some lm)

def sfNumMetricSize : ℕ := 4

def hpcrunSparseNextMetric : SparseM (ℤ × Option MetricDesc) := do
  checkMode .opened
  modify fun sf => if sf.metricBytesRead = 0 then { sf with metricBytesRead := sfNumMetricSize } else sf
  let sf ← get
  let realoffset := sf.footer.metTblStart + sf.metricBytesRead
  if realoffset = sf.footer.metTblEnd then return (0, none)
  if sf.footer.metTblEnd < realoffset then failure
  seek realoffset
  let m ← readFrom metricDescFread
  let pos ← tell
  modify fun sf => { sf with
    curMetricId := sf.curMetricId + 1
    metricBytesRead := sf.metricBytesRead + (pos - realoffset) }
  return ((← get).curMetricId.toNat, some m)

/-- A `uint32_t` returned as an `int`. -/
def asInt (v : UInt32) : ℤ := if v.toNat < 2 ^ 31 then v.toNat else v.toNat - 2 ^ 32

def sfNumCctSize : ℕ := 8

def sfCctNodeSize : ℕ := 19

/-- The first-time initialization of `hpcrun_sparse_next_context`. -/
def initContexts : SparseM Unit := do
  seek (← get).footer.cctStart
  let num ← readFrom (readBE 8)
  modify fun sf => { sf with numCctNodes := num }

/-- `hpcrun_sparse_next_context` behind its initialization. -/
def findContext : SparseM (ℤ × Option FmtCctNode) := do
  let sf ← get
  if sf.cctNodesRead.toNat = sf.numCctNodes then return (0, none)
  let realoffset := sf.footer.cctStart + sfCctNodeSize * sf.cctNodesRead.toNat + sfNumCctSize
  if sf.footer.cctEnd < realoffset then failure
  seek realoffset
  let node ← readFrom cctNodeFread
  modify fun sf => { sf with cctNodesRead := sf.cctNodesRead + 1 }
  return (asInt node.id, some node)

def hpcrunSparseNextContext : SparseM (ℤ × Option FmtCctNode) := do
  checkMode .opened
  if (← get).cctNodesRead = 0 then initContexts
  findContext

def pmsIdTupleLenSize : ℕ := 2

def pmsIdSize : ℕ := 18

def sfNumValSize : ℕ := 8
def sfNumNzCctNodeSize : ℕ := 4

/-- `SF_mid_SIZE + SF_val_SIZE`. -/
def sfEntrySize : ℕ := 2 + 8

def sfCctNodeIdSize : ℕ := 4
def sfCctNodeIdxSize : ℕ := 8

/-- The first-time initialization of `hpcrun_sparse_next_block`. -/
def initBlocks : SparseM Unit := do
  let smStart := (← get).footer.smStart
  seek smStart
  let idTupleLength ← readFrom int2Fread
  let idTupleSize := pmsIdTupleLenSize + pmsIdSize * idTupleLength.toNat
  seek (smStart + idTupleSize)
  let numNzval ← readFrom (readBE 8)
  let numNzCctNodes ← readFrom int4Fread
  let valMidOffset := smStart + idTupleSize + sfNumValSize + sfNumNzCctNodeSize
  modify fun sf => { sf with
    numNzval := numNzval
    numNzCctNodes := numNzCctNodes
    valMidOffset := valMidOffset
    cctNodeIdIdxOffset := valMidOffset + sfEntrySize * numNzval }

/-- `hpcrun_sparse_next_block` behind its initialization. -/
def findBlock : SparseM ℤ := do
  let sf ← get
  if sf.smBlockTouched = sf.numNzCctNodes then return 0
  let realoffset := sf.cctNodeIdIdxOffset + (sfCctNodeIdSize + sfCctNodeIdxSize) * sf.smBlockTouched.toNat
  if sf.footer.smEnd < realoffset then failure
  seek realoffset
  let cctNodeId ← readFrom int4Fread
  let valMidIdx ← readFrom (readBE 8)
  let pos ← tell
  seek (pos + sfCctNodeIdSize)
  let nextBlockStartIdx ← readFrom (readBE 8)
  modify fun sf => { sf with
    curBlockStart := sf.valMidOffset + sfEntrySize * valMidIdx
    curBlockEnd := sf.valMidOffset + sfEntrySize * nextBlockStartIdx
    smBlockTouched := sf.smBlockTouched + 1 }
  seek (sf.valMidOffset + sfEntrySize * valMidIdx)
  return asInt cctNodeId

def hpcrunSparseNextBlock : SparseM ℤ := do
  checkMode .opened
  if (← get).smBlockTouched = 0 then initBlocks
  findBlock

/-- `hpcrun_sparse_next_entry`: the metric id counted from 1 and the value. -/
def hpcrunSparseNextEntry : SparseM (ℤ × Option UInt64) := do
  checkMode .opened
  let sf ← get
  if sf.smBlockTouched = 0 then failure
  let curPos := sf.file.pos
  if sf.footer.smEnd < curPos ∨ sf.footer.smEnd < sf.curBlockStart ∨ sf.footer.smEnd < sf.curBlockEnd then failure
  if curPos < sf.curBlockStart ∨ sf.curBlockEnd < curPos then failure
  if curPos = sf.curBlockEnd then return (0, none)
  let bits ← readFrom int8Fread
  let mid ← readFrom int2Fread
  return ((mid + 1).toNat, some bits)

/-! ## A reader of whole lists -/

/-- The calls of a reader together with the decisions, taken before each call, to pause and resume. -/
abbrev ConsumerM (α : Type) := StateT (SparseFile × List Bool) Option α

def pauseResume : SparseM Unit := do
  hpcrunSparsePause
  hpcrunSparseResume

/-- One call of a reading function. -/
def call {α : Type} (fn : SparseM α) : ConsumerM α := fun (sf, pauses) => do
  let (_, sf) ← if pauses.headD false then pauseResume sf else some ((), sf)
  let (x, sf) ← fn sf
  return (x, sf, pauses.tail)

/-- `while ((id = next(file, &record)) > 0)`: the records up to the code 0; a negative code is an error. -/
def enumerate {α : Type} (next : SparseM (ℤ × Option α)) : ℕ → ConsumerM (List (ℤ × α))
  | 0 => failure
  | fuel + 1 => do
    let (code, x) ← call next
    if code < 0 then failure
    if code = 0 then return []
    match x with
    | some x => return (code, x) :: (← enumerate next fuel)
    | none => failure

/-- A metric block as the loops over `hpcrun_sparse_next_block` and `hpcrun_sparse_next_entry` see it. -/
structure Block where
  id : UInt32
  entries : List (UInt16 × UInt64)
deriving DecidableEq

/-- The nested loops over blocks and entries; the entry code is one more than the metric id. -/
def enumerateBlocks : ℕ → ConsumerM (List Block)
  | 0 => failure
  | fuel + 1 => do
    let cid ← call hpcrunSparseNextBlock
    if cid < 0 then failure
    if cid = 0 then return []
    let entries ← enumerate hpcrunSparseNextEntry fuel
    let block : Block := ⟨.ofNat cid.toNat, entries.map fun (mid, val) => (.ofNat (mid - 1).toNat, val)⟩
    return block :: (← enumerateBlocks fuel)

@[simp] lemma seek_apply (off : ℕ) : seek off sf = some ((), sf.seek off) := rfl

@[simp] lemma tell_apply : tell sf = some (sf.file.pos, sf) := rfl

/-! ## Calls and pauses -/

section
variable {α : Type} {sf : SparseFile}

lemma checkMode_apply {expected : Mode} (mode : sf.mode = expected) : checkMode expected sf = some ((), sf) := by
  simp [checkMode, mode]

@[simp] lemma seek_seek (off off' : ℕ) : (sf.seek off).seek off' = sf.seek off' := rfl

@[simp] lemma pos_seek (off : ℕ) : (sf.seek off).file.pos = off := rfl

@[simp] lemma footer_seek (off : ℕ) : (sf.seek off).footer = sf.footer := rfl

lemma seek_self : sf.seek sf.file.pos = sf := rfl

lemma readFrom_seek {reader : Reader α} {enc : List UInt8} {x : α} (reads : Reads reader enc x) {off : ℕ}
    (here : At sf.file.bytes off enc) :
    readFrom reader (sf.seek off) = some (x, sf.seek (off + enc.length)) := by
  have run := reads sf.file.bytes off here
  have start : (sf.seek off).file = ⟨sf.file.bytes, off⟩ := rfl
  rw [readFrom, start, run]
  rfl

/-- The positions from which a pause can be resumed. -/
def SparseFile.InRange (sf : SparseFile) : Prop := sf.startPos ≤ sf.file.pos ∧ sf.file.pos < sf.endPos

lemma pause_resume (opened : sf.mode = .opened) (inRange : sf.InRange) :
    pauseResume sf = some ((), { sf with curPos := sf.file.pos }) := by
  obtain ⟨low, high⟩ := inRange
  have resumable : ¬(sf.file.pos < sf.startPos ∨ sf.endPos ≤ sf.file.pos) := by omega
  obtain ⟨⟨bytes, pos⟩, footer, mode⟩ := sf
  subst opened
  simp [pauseResume, hpcrunSparsePause, hpcrunSparseResume, checkMode, resumable, if_apply]

variable {pauses : List Bool}

lemma call_eq (fn : SparseM α) (opened : sf.mode = .opened)
    (pausable : pauses = [] ∨ sf.InRange) :
    ∃ pos, call fn (sf, pauses) = (fn { sf with curPos := pos }).map fun p => (p.1, p.2, pauses.tail) := by
  rcases pauses with _ | ⟨_ | _, rest⟩
  · refine ⟨sf.curPos, ?_⟩
    cases result : fn sf <;> simp [call, result]
  · refine ⟨sf.curPos, ?_⟩
    cases result : fn sf <;> simp [call, result]
  · have inRange : sf.InRange := pausable.resolve_left (by simp)
    refine ⟨sf.file.pos, ?_⟩
    have run := pause_resume opened inRange
    cases result : fn { sf with curPos := sf.file.pos } <;> simp [call, run, result]

/-- What makes a reading function go through a list of records with their codes: `Inv` holds of the
records still ahead, and each call yields the first of them. -/
structure Enumerates (next : SparseM (ℤ × Option α)) (Inv : List (ℤ × α) → SparseFile → Prop) : Prop where
  opened : ∀ {xs sf}, Inv xs sf → sf.mode = .opened
  curPos : ∀ {xs sf} pos, Inv xs sf → Inv xs { sf with curPos := pos }
  finish : ∀ {sf}, Inv [] sf → ∃ sf', next sf = some ((0, none), sf') ∧ Inv [] sf'
  step : ∀ {code x xs sf}, Inv ((code, x) :: xs) sf → ∃ sf', next sf = some ((code, some x), sf') ∧ Inv xs sf'

section
variable {next : SparseM (ℤ × Option α)} {Inv : List (ℤ × α) → SparseFile → Prop}

lemma Enumerates.call_finish (rule : Enumerates next Inv)
    (pausable : pauses = [] ∨ sf.InRange) (inv : Inv [] sf) :
    ∃ sf', call next (sf, pauses) = some ((0, none), sf', pauses.tail) ∧ Inv [] sf' := by
  obtain ⟨pos, called⟩ := call_eq next (rule.opened inv) pausable
  obtain ⟨sf', run, inv'⟩ := rule.finish (rule.curPos pos inv)
  refine ⟨sf', ?_, inv'⟩
  rw [called, run]
  rfl

variable {xs : List (ℤ × α)}

lemma Enumerates.call_step (rule : Enumerates next Inv)
    (pausable : pauses = [] ∨ sf.InRange) {code : ℤ} {x : α} (inv : Inv ((code, x) :: xs) sf) :
    ∃ sf', call next (sf, pauses) = some ((code, some x), sf', pauses.tail) ∧ Inv xs sf' := by
  obtain ⟨pos, called⟩ := call_eq next (rule.opened inv) pausable
  obtain ⟨sf', run, inv'⟩ := rule.step (rule.curPos pos inv)
  refine ⟨sf', ?_, inv'⟩
  rw [called, run]
  rfl

variable {fuel : ℕ}

lemma Enumerates.complete (rule : Enumerates next Inv)
    (pausable : pauses = [] ∨ ∀ {xs sf}, Inv xs sf → sf.InRange) (positive : ∀ x ∈ xs, 0 < x.1)
    (enough : xs.length < fuel) (inv : Inv xs sf) :
    ∃ sf' pauses', enumerate next fuel (sf, pauses) = some (xs, sf', pauses') ∧ Inv [] sf' ∧
      (pauses = [] → pauses' = []) := by
  induction xs generalizing sf pauses fuel with
  | nil =>
    obtain ⟨fuel, rfl⟩ : ∃ n, fuel = n + 1 := ⟨fuel - 1, by omega⟩
    obtain ⟨sf', called, inv'⟩ := rule.call_finish (pausable.imp_right fun range => range inv) inv
    refine ⟨sf', pauses.tail, ?_, inv', by rintro rfl; rfl⟩
    simp [enumerate, called]
  | cons x rest ih =>
    obtain ⟨code, x⟩ := x
    obtain ⟨fuel, rfl⟩ : ∃ n, fuel = n + 1 := ⟨fuel - 1, by omega⟩
    obtain ⟨sf', called, inv'⟩ := rule.call_step (pausable.imp_right fun range => range inv) inv
    have pausable' : pauses.tail = [] ∨ ∀ {xs sf}, Inv xs sf → sf.InRange :=
      pausable.imp_left fun none => by rw [none, tail_nil]
    have code_pos : 0 < code := positive (code, x) (.head _)
    obtain ⟨last, pauses', run, done, quiet⟩ := ih pausable' (fun y member => positive y (.tail _ member))
      (Nat.lt_of_succ_lt_succ enough) inv'
    refine ⟨last, pauses', ?_, done, fun none => quiet (by rw [none, tail_nil])⟩
    simp only [enumerate, bind_apply, called, Option.bind_some, code_pos.not_gt, code_pos.ne', if_false, run,
      pure_apply]

lemma Enumerates.complete_within (rule : Enumerates next Inv) (range : ∀ {xs sf}, Inv xs sf → sf.InRange)
    (pauses : List Bool) (positive : ∀ x ∈ xs, 0 < x.1) (enough : xs.length < fuel)
    (inv : Inv xs sf) : ∃ sf' pauses', enumerate next fuel (sf, pauses) = some (xs, sf', pauses') ∧ Inv [] sf' := by
  obtain ⟨sf', pauses', run, inv', -⟩ := rule.complete (.inr range) positive enough inv
  exact ⟨sf', pauses', run, inv'⟩

variable {sf' : SparseFile}

lemma Enumerates.sound (rule : Enumerates next Inv) {xs ys : List (ℤ × α)} {pauses pauses' : List Bool}
    (pausable : pauses = [] ∨ ∀ {xs sf}, Inv xs sf → sf.InRange) (inv : Inv xs sf)
    (run : enumerate next fuel (sf, pauses) = some (ys, sf', pauses')) :
    ∃ zs, xs = ys ++ zs ∧ (∀ y ∈ ys, 0 < y.1) ∧ Inv zs.tail sf' ∧ (pauses = [] → pauses' = []) := by
  induction xs generalizing sf pauses fuel ys with
  | nil =>
    cases fuel with
    | zero => cases run
    | succ fuel =>
      obtain ⟨last, called, inv'⟩ := rule.call_finish (pausable.imp_right fun range => range inv) inv
      simp only [enumerate, bind_apply, called, Option.bind_some, lt_irrefl, if_false, if_true, pure_apply] at run
      obtain ⟨rfl, rfl, rfl⟩ : [] = ys ∧ last = sf' ∧ pauses.tail = pauses' := by simpa using run
      exact ⟨[], rfl, by simp, inv', fun none => by rw [none, tail_nil]⟩
  | cons x rest ih =>
    obtain ⟨code, x⟩ := x
    obtain ⟨next', called, inv'⟩ := rule.call_step (pausable.imp_right fun range => range inv) inv
    have pausable' : pauses.tail = [] ∨ ∀ {xs sf}, Inv xs sf → sf.InRange :=
      pausable.imp_left fun none => by rw [none, tail_nil]
    cases fuel with
    | zero => cases run
    | succ fuel =>
      simp only [enumerate, bind_apply, called, Option.bind_some] at run
      rcases lt_trichotomy code 0 with negative | zero | positive
      · simp [negative] at run
      · simp only [zero, lt_irrefl, if_false, if_true, pure_apply] at run
        obtain ⟨rfl, rfl, rfl⟩ : [] = ys ∧ next' = sf' ∧ pauses.tail = pauses' := by simpa using run
        exact ⟨(code, x) :: rest, rfl, by simp, inv', fun none => by rw [none, tail_nil]⟩
      · simp only [positive.not_gt, positive.ne', if_false, pure_apply, bind_apply] at run
        obtain ⟨⟨tail, state⟩, tailRun, same⟩ := Option.bind_eq_some_iff.mp run
        obtain ⟨rfl, rfl⟩ : (code, x) :: tail = ys ∧ state = (sf', pauses') := by simpa using same
        obtain ⟨zs, rfl, codes, done, quiet⟩ := ih pausable' inv' tailRun
        refine ⟨zs, rfl, ?_, done, fun none => quiet (by rw [none, tail_nil])⟩
        intro y member
        rcases mem_cons.mp member with rfl | member
        · exact positive
        · exact codes y member

lemma Enumerates.sound_of_length (rule : Enumerates next Inv) {xs ys : List (ℤ × α)} {pauses pauses' : List Bool}
    (pausable : pauses = [] ∨ ∀ {xs sf}, Inv xs sf → sf.InRange) (inv : Inv xs sf)
    (run : enumerate next fuel (sf, pauses) = some (ys, sf', pauses')) (length : xs.length ≤ ys.length) :
    ys = xs ∧ (∀ x ∈ xs, 0 < x.1) ∧ Inv [] sf' ∧ (pauses = [] → pauses' = []) := by
  obtain ⟨zs, rfl, codes, done, quiet⟩ := rule.sound pausable inv run
  rw [length_append] at length
  obtain rfl : zs = [] := length_eq_zero_iff.mp (by omega)
  rw [append_nil]
  exact ⟨rfl, codes, done, quiet⟩

end

end

end HpcToolkit.Fmt
