import HpcToolkit.Fmt.WriteData

/-! # Reading a profile back

A reader that goes through a file with the functions of `SparseFile`, one list after the other, and may
pause before any call. The file may be part of a larger one. What comes back are the records of the last
epoch, as far as the codes of the reading functions can express their ids.
-/

open List
open Option (bind_eq_some_iff bind_some)

open Prod (snd)

namespace HpcToolkit.Fmt

open Lib Cct

/-! ## The reader -/

/-- The records of a file. -/
structure Contents where
  hdr : Hdr
  lms : List LoadmapEntry
  metrics : List MetricDesc
  ctxs : List FmtCctNode
  blocks : List Block

/-- All lists of an open file, in the order of the reading functions. -/
def readAll (fuel : ℕ) : ConsumerM Contents := do
  let hdr ← call hpcrunSparseReadHdr
  let lms ← enumerate hpcrunSparseNextLm fuel
  let metrics ← enumerate hpcrunSparseNextMetric fuel
  let ctxs ← enumerate hpcrunSparseNextContext fuel
  let blocks ← enumerateBlocks fuel
  return ⟨hdr, lms.map snd, metrics.map snd, ctxs.map snd, blocks⟩

/-- The records that a profile hands to the writer. -/
def ProfileData.contents (p : ProfileData) : Contents where
  hdr := ⟨hpcrunFmtVersion, hpcrunFmtEndian, p.nvps⟩
  lms := p.epochs.flatMap Epoch.loadmap
  metrics := p.metricTbls.flatten
  ctxs := p.epochs.flatMap Epoch.cct
  blocks := p.epochs.flatMap Epoch.blocks

/-! ## The lists of an open file -/

/-- An open file with the sections of an epoch, inside the bounds that a resumption checks. -/
structure Opened (p : ProfileData) (s : Epoch) (sf : SparseFile) : Prop where
  opened : sf.mode = .opened
  hdr : Span sf.file.bytes sf.footer.footerStart sf.footer.hdrStart sf.footer.hdrEnd (hpcrunFmtHdrFwrite p.nvps)
  sections : Sections p s sf.file.bytes sf.footer
  lowHdr : sf.startPos ≤ sf.footer.hdrStart
  lowLoadmap : sf.startPos ≤ sf.footer.loadmapStart
  lowCct : sf.startPos ≤ sf.footer.cctStart
  lowMetTbl : sf.startPos ≤ sf.footer.metTblStart
  lowSm : sf.startPos ≤ sf.footer.smStart
  high : sf.footer.footerStart < sf.endPos

section
variable {p : ProfileData} {s : Epoch} {sf base : SparseFile}

/-- The offset behind a count field that is skipped once. -/
def skipCount (size bytesRead : ℕ) : ℕ := if bytesRead = 0 then size else bytesRead

variable {size : ℕ}

lemma skipCount_pos (positive : 0 < size) (n : ℕ) : 0 < skipCount size n := by
  rw [skipCount]
  split <;> omega

lemma skipCount_of_pos (size : ℕ) {n : ℕ} (positive : 0 < n) : skipCount size n = n := if_neg positive.ne'

/-! ### Load modules -/

def lmCode (lm : LoadmapEntry) : ℤ × LoadmapEntry := (lm.id.toNat, lm)

/-- A reader between two load modules: it differs from `base` in its position and in the bytes it has read
of the load map, and the modules still ahead stand there and reach to the end. -/
def LmInv (base : SparseFile) (xs : List (ℤ × LoadmapEntry)) (sf : SparseFile) : Prop :=
  ∃ (lms : List LoadmapEntry) (pos cur n : ℕ), xs = lms.map lmCode ∧ (∀ lm ∈ lms, Short lm.name) ∧
    sf = { base.seek pos with curPos := cur, lmBytesRead := n } ∧ sf.InRange ∧
    base.footer.loadmapStart + skipCount sfNumLmSize n + (lms.flatMap loadmapEntryFwrite).length =
      base.footer.loadmapEnd ∧
    At base.file.bytes (base.footer.loadmapStart + skipCount sfNumLmSize n) (lms.flatMap loadmapEntryFwrite)

lemma skip_lm (sf : SparseFile) :
    (if sf.lmBytesRead = 0 then { sf with lmBytesRead := sfNumLmSize } else sf) =
      { sf with lmBytesRead := skipCount sfNumLmSize sf.lmBytesRead } := by
  rw [skipCount]
  split <;> rfl

lemma nextLm_finish (opened : sf.mode = .opened)
    (finish : sf.footer.loadmapStart + skipCount sfNumLmSize sf.lmBytesRead = sf.footer.loadmapEnd) :
    hpcrunSparseNextLm sf =
      some ((0, none), { sf with lmBytesRead := skipCount sfNumLmSize sf.lmBytesRead }) := by
  simp only [hpcrunSparseNextLm, bind_apply, checkMode_apply opened, modify_apply, get_apply, bind_some,
    skip_lm, if_apply, finish, if_true, pure_apply]

variable {off : ℕ}

lemma nextLm_step (opened : sf.mode = .opened) {lm : LoadmapEntry} (short : Short lm.name)
    (start : sf.footer.loadmapStart + skipCount sfNumLmSize sf.lmBytesRead = off)
    (inside : off + (loadmapEntryFwrite lm).length ≤ sf.footer.loadmapEnd)
    (here : At sf.file.bytes off (loadmapEntryFwrite lm)) :
    hpcrunSparseNextLm sf = some (((lm.id.toNat : ℤ), some lm), { sf.seek (off + (loadmapEntryFwrite lm).length) with
      lmBytesRead := skipCount sfNumLmSize sf.lmBytesRead + (loadmapEntryFwrite lm).length }) := by
  have positive : 0 < (loadmapEntryFwrite lm).length := by
    rw [loadmapEntryFwrite, length_append, length_int2Fwrite]
    omega
  have ahead : off ≠ sf.footer.loadmapEnd := by omega
  have within : ¬sf.footer.loadmapEnd < off := by omega
  have start' : At ({ sf with lmBytesRead := skipCount sfNumLmSize sf.lmBytesRead } : SparseFile).file.bytes off
      (loadmapEntryFwrite lm) := here
  have read := readFrom_seek (reads_loadmapEntry short) start'
  simp only [hpcrunSparseNextLm, bind_apply, checkMode_apply opened, modify_apply, get_apply, bind_some,
    skip_lm, if_apply, start, ahead, within, if_false, pure_apply, seek_apply, read, tell_apply, pos_seek]
  rw [Nat.add_sub_cancel_left]
  rfl

lemma enumerates_lms (opened : base.mode = .opened) (low : base.startPos ≤ base.footer.loadmapStart)
    (high : base.footer.loadmapEnd < base.endPos) : Enumerates hpcrunSparseNextLm (LmInv base) where
  opened := by
    rintro xs sf ⟨lms, pos, cur, n, rfl, -, rfl, -⟩
    exact opened
  curPos := by
    rintro xs sf cur' ⟨lms, pos, cur, n, rfl, short, rfl, rest⟩
    exact ⟨lms, pos, cur', n, rfl, short, rfl, rest⟩
  finish := by
    rintro sf ⟨lms, pos, cur, n, none, short, rfl, range, finish, here⟩
    obtain rfl := map_eq_nil_iff.mp none.symm
    have again := skipCount_of_pos sfNumLmSize (skipCount_pos (show 0 < sfNumLmSize by decide) n)
    have mode : ({ base.seek pos with curPos := cur, lmBytesRead := n } : SparseFile).mode = .opened := opened
    have run := nextLm_finish mode finish
    refine ⟨_, run, [], pos, cur, skipCount sfNumLmSize n, rfl, short, rfl, range, ?_, ?_⟩
    · rwa [again]
    · rwa [again]
  step := by
    rintro code lm xs sf ⟨lms, pos, cur, n, cons, short, rfl, range, finish, here⟩
    obtain ⟨lm', rest, rfl, code_eq, rfl⟩ := map_eq_cons_iff.mp cons.symm
    obtain ⟨rfl, rfl⟩ := Prod.mk.injEq _ _ _ _ ▸ code_eq
    rw [flatMap_cons] at here finish
    rw [length_append] at finish
    obtain ⟨entry, here⟩ := here.append
    have positive := skipCount_pos (show 0 < sfNumLmSize by decide) n
    have again := skipCount_of_pos sfNumLmSize
      (show 0 < skipCount sfNumLmSize n + (loadmapEntryFwrite lm').length by omega)
    have inside : base.footer.loadmapStart + skipCount sfNumLmSize n + (loadmapEntryFwrite lm').length ≤
        base.footer.loadmapEnd := by omega
    have mode : ({ base.seek pos with curPos := cur, lmBytesRead := n } : SparseFile).mode = .opened := opened
    have run := nextLm_step mode (short lm' (.head _)) rfl inside entry
    have range' : base.startPos ≤ base.footer.loadmapStart + skipCount sfNumLmSize n + (loadmapEntryFwrite lm').length ∧
        base.footer.loadmapStart + skipCount sfNumLmSize n + (loadmapEntryFwrite lm').length < base.endPos := by
      omega
    refine ⟨_, run, rest, _, cur, _, rfl, fun lm member => short lm (.tail _ member), rfl, range', ?_, ?_⟩
    · rw [again]
      omega
    · rwa [again, ← Nat.add_assoc]

/-! ### Metrics -/

/-- A descriptor as it comes back. -/
def MetricDesc.back (m : MetricDesc) : MetricDesc := { m with flags := .fread m.flags.bits }

/-- The descriptors behind the metric with id `k`, under ids that are counted in 16 bits. -/
def metricCodes (k : UInt16) : List MetricDesc → List (ℤ × MetricDesc)
  | [] => []
  | m :: rest => (((k + 1).toNat : ℤ), m.back) :: metricCodes (k + 1) rest

/-- A reader between two metrics. -/
def MetricInv (base : SparseFile) (xs : List (ℤ × MetricDesc)) (sf : SparseFile) : Prop :=
  ∃ (ms : List MetricDesc) (pos cur n : ℕ) (k : UInt16), xs = metricCodes k ms ∧ (∀ m ∈ ms, m.Short) ∧
    sf = { base.seek pos with curPos := cur, metricBytesRead := n, curMetricId := k } ∧ sf.InRange ∧
    base.footer.metTblStart + skipCount sfNumMetricSize n + (ms.flatMap metricDescFwrite).length =
      base.footer.metTblEnd ∧
    At base.file.bytes (base.footer.metTblStart + skipCount sfNumMetricSize n) (ms.flatMap metricDescFwrite)

lemma skip_metric (sf : SparseFile) :
    (if sf.metricBytesRead = 0 then { sf with metricBytesRead := sfNumMetricSize } else sf) =
      { sf with metricBytesRead := skipCount sfNumMetricSize sf.metricBytesRead } := by
  rw [skipCount]
  split <;> rfl

lemma nextMetric_finish (opened : sf.mode = .opened)
    (finish : sf.footer.metTblStart + skipCount sfNumMetricSize sf.metricBytesRead = sf.footer.metTblEnd) :
    hpcrunSparseNextMetric sf =
      some ((0, none), { sf with metricBytesRead := skipCount sfNumMetricSize sf.metricBytesRead }) := by
  simp only [hpcrunSparseNextMetric, bind_apply, checkMode_apply opened, modify_apply, get_apply, bind_some,
    skip_metric, if_apply, finish, if_true, pure_apply]

lemma nextMetric_step (opened : sf.mode = .opened) {m : MetricDesc} (short : m.Short)
    (start : sf.footer.metTblStart + skipCount sfNumMetricSize sf.metricBytesRead = off)
    (inside : off + (metricDescFwrite m).length ≤ sf.footer.metTblEnd)
    (here : At sf.file.bytes off (metricDescFwrite m)) :
    hpcrunSparseNextMetric sf = some ((((sf.curMetricId + 1).toNat : ℤ), some m.back),
      { sf.seek (off + (metricDescFwrite m).length) with
        curMetricId := sf.curMetricId + 1
        metricBytesRead := skipCount sfNumMetricSize sf.metricBytesRead + (metricDescFwrite m).length }) := by
  have positive : 0 < (metricDescFwrite m).length := by
    rw [metricDescFwrite, length_append, strFwrite, length_append, length_int4Fwrite]
    omega
  have ahead : off ≠ sf.footer.metTblEnd := by omega
  have within : ¬sf.footer.metTblEnd < off := by omega
  have start' : At ({ sf with metricBytesRead := skipCount sfNumMetricSize sf.metricBytesRead } :
      SparseFile).file.bytes off (metricDescFwrite m) := here
  have read := readFrom_seek (reads_metricDesc short) start'
  simp only [hpcrunSparseNextMetric, bind_apply, checkMode_apply opened, modify_apply, get_apply, bind_some,
    skip_metric, if_apply, start, ahead, within, if_false, pure_apply, seek_apply, read, tell_apply, pos_seek]
  rw [Nat.add_sub_cancel_left]
  rfl

lemma enumerates_metrics (opened : base.mode = .opened) (low : base.startPos ≤ base.footer.metTblStart)
    (high : base.footer.metTblEnd < base.endPos) : Enumerates hpcrunSparseNextMetric (MetricInv base) where
  opened := by
    rintro xs sf ⟨ms, pos, cur, n, k, rfl, -, rfl, -⟩
    exact opened
  curPos := by
    rintro xs sf cur' ⟨ms, pos, cur, n, k, rfl, short, rfl, rest⟩
    exact ⟨ms, pos, cur', n, k, rfl, short, rfl, rest⟩
  finish := by
    rintro sf ⟨ms, pos, cur, n, k, none, short, rfl, range, finish, here⟩
    obtain rfl : ms = [] := by
      cases ms with
      | nil => rfl
      | cons m rest => cases none
    have again := skipCount_of_pos sfNumMetricSize (skipCount_pos (show 0 < sfNumMetricSize by decide) n)
    have mode : ({ base.seek pos with curPos := cur, metricBytesRead := n, curMetricId := k } : SparseFile).mode =
      .opened := opened
    have run := nextMetric_finish mode finish
    refine ⟨_, run, [], pos, cur, skipCount sfNumMetricSize n, k, rfl, short, rfl, range, ?_, ?_⟩
    · rwa [again]
    · rwa [again]
  step := by
    rintro code m xs sf ⟨ms, pos, cur, n, k, cons, short, rfl, range, finish, here⟩
    cases ms with
    | nil => cases cons
    | cons m' rest =>
      obtain ⟨code_eq, rfl⟩ := List.cons.inj cons
      obtain ⟨rfl, rfl⟩ := Prod.mk.inj code_eq
      rw [flatMap_cons] at here finish
      rw [length_append] at finish
      obtain ⟨entry, here⟩ := here.append
      have positive := skipCount_pos (show 0 < sfNumMetricSize by decide) n
      have again := skipCount_of_pos sfNumMetricSize
        (show 0 < skipCount sfNumMetricSize n + (metricDescFwrite m').length by omega)
      have inside : base.footer.metTblStart + skipCount sfNumMetricSize n + (metricDescFwrite m').length ≤
          base.footer.metTblEnd := by omega
      have mode : ({ base.seek pos with curPos := cur, metricBytesRead := n, curMetricId := k } : SparseFile).mode =
        .opened := opened
      have run := nextMetric_step mode (short m' (.head _)) rfl inside entry
      have range' :
          base.startPos ≤ base.footer.metTblStart + skipCount sfNumMetricSize n + (metricDescFwrite m').length ∧
          base.footer.metTblStart + skipCount sfNumMetricSize n + (metricDescFwrite m').length < base.endPos := by
        omega
      refine ⟨_, run, rest, _, cur, _, k + 1, rfl, fun m member => short m (.tail _ member), rfl, range', ?_, ?_⟩
      · rw [again]
        omega
      · rwa [again, ← Nat.add_assoc]

/-! ### Contexts -/

def ctxCode (node : FmtCctNode) : ℤ × FmtCctNode := (asInt node.id, node)

/-- The file with a position behind `k` contexts. -/
def SparseFile.atContext (base : SparseFile) (pos cur num k : ℕ) : SparseFile :=
  { base.seek pos with curPos := cur, numCctNodes := num, cctNodesRead := .ofNat k }

lemma SparseFile.atContext_succ (base : SparseFile) (pos off cur num k : ℕ) :
    { (base.atContext pos cur num k).seek off with cctNodesRead := (base.atContext pos cur num k).cctNodesRead + 1 } =
      base.atContext off cur num (k + 1) := by
  rw [atContext, atContext, UInt32.ofNat_add]
  rfl

/-- A reader between two contexts. -/
def CtxInv (base : SparseFile) (nodes : List FmtCctNode) (xs : List (ℤ × FmtCctNode)) (sf : SparseFile) : Prop :=
  ∃ (done rest : List FmtCctNode) (pos cur num : ℕ), nodes = done ++ rest ∧ xs = rest.map ctxCode ∧
    (done ≠ [] → num = nodes.length) ∧
    sf = base.atContext pos cur num done.length ∧ base.startPos ≤ pos ∧ pos < base.endPos

variable {nodes : List FmtCctNode}

lemma nextContext_eq (opened : sf.mode = .opened) (fits : nodes.length < 2 ^ 32)
    (here : At sf.file.bytes sf.footer.cctStart (cctFwrite nodes))
    (counted : sf.cctNodesRead ≠ 0 → sf.numCctNodes = nodes.length) :
    ∃ pos, (pos = sf.footer.cctStart + 8 ∨ pos = sf.file.pos) ∧
      hpcrunSparseNextContext sf = findContext { sf.seek pos with numCctNodes := nodes.length } := by
  by_cases first : sf.cctNodesRead = 0
  · have bound : nodes.length < 2 ^ 64 := fits.trans (by decide)
    have read := readFrom_seek (reads_readBE_int8 bound) here.append.1
    rw [length_int8Fwrite] at read
    refine ⟨_, .inl rfl, ?_⟩
    simp only [hpcrunSparseNextContext, initContexts, bind_apply, checkMode_apply opened, get_apply, bind_some,
      if_apply, first, if_true, seek_apply, read, modify_apply]
  · refine ⟨_, .inr rfl, ?_⟩
    rw [← counted first, seek_self]
    simp only [hpcrunSparseNextContext, bind_apply, checkMode_apply opened, get_apply, bind_some,
      if_apply, first, if_false]

lemma findContext_finish (all : sf.cctNodesRead.toNat = sf.numCctNodes) : findContext sf = some ((0, none), sf) := by
  simp only [findContext, bind_apply, get_apply, bind_some, if_apply, all, if_true, pure_apply]

variable {node : FmtCctNode}

lemma findContext_step (more : sf.cctNodesRead.toNat ≠ sf.numCctNodes)
    (start : sf.footer.cctStart + sfCctNodeSize * sf.cctNodesRead.toNat + sfNumCctSize = off)
    (inside : off ≤ sf.footer.cctEnd) (here : At sf.file.bytes off (cctNodeFwrite node)) :
    findContext sf = some ((asInt node.id, some node), { sf.seek (off + 19) with
      cctNodesRead := sf.cctNodesRead + 1 }) := by
  have read := readFrom_seek (reads_cctNode node) here
  rw [length_cctNodeFwrite] at read
  simp only [findContext, bind_apply, get_apply, bind_some, if_apply, more, start, inside.not_gt, if_false,
    seek_apply, read, modify_apply, pure_apply]
  rfl

lemma length_cctFwrite (nodes : List FmtCctNode) : (cctFwrite nodes).length = 8 + 19 * nodes.length := by
  rw [cctFwrite, length_append, length_int8Fwrite, length_flatMap_const length_cctNodeFwrite]

variable {bytes : List UInt8}

lemma at_cctNode {done rest : List FmtCctNode}
    (here : At bytes off (cctFwrite (done ++ node :: rest))) :
    At bytes (off + sfCctNodeSize * done.length + sfNumCctSize) (cctNodeFwrite node) := by
  obtain ⟨-, here⟩ := here.append
  rw [flatMap_append, flatMap_cons] at here
  obtain ⟨-, here⟩ := here.append
  rw [length_int8Fwrite, length_flatMap_const length_cctNodeFwrite, Nat.add_right_comm] at here
  exact here.append.1

lemma nextContext_at {nodes done : List FmtCctNode} (fits : nodes.length < 2 ^ 32) (opened : base.mode = .opened)
    (span : Span base.file.bytes base.footer.footerStart base.footer.cctStart base.footer.cctEnd (cctFwrite nodes))
    (low : base.startPos ≤ base.footer.cctStart) (high : base.footer.footerStart < base.endPos) {pos num : ℕ} (cur : ℕ)
    (counted : done ≠ [] → num = nodes.length) (range : base.startPos ≤ pos ∧ pos < base.endPos) :
    ∃ pos', (base.startPos ≤ pos' ∧ pos' < base.endPos) ∧
      hpcrunSparseNextContext (base.atContext pos cur num done.length) =
        findContext (base.atContext pos' cur nodes.length done.length) := by
  have mode : (base.atContext pos cur num done.length).mode = .opened := opened
  have counted' : UInt32.ofNat done.length ≠ 0 → num = nodes.length := by
    intro later
    apply counted
    rintro rfl
    exact later rfl
  obtain ⟨pos', place, run⟩ := nextContext_eq mode fits span.here counted'
  refine ⟨pos', ?_, run⟩
  have ends := span.ends
  have below := span.below
  rw [length_cctFwrite] at ends
  rcases place with rfl | rfl
  · have inside : base.startPos ≤ base.footer.cctStart + 8 ∧ base.footer.cctStart + 8 < base.endPos := by omega
    exact inside
  · exact range

lemma enumerates_ctxs (fits : nodes.length < 2 ^ 32) (opened : base.mode = .opened)
    (span : Span base.file.bytes base.footer.footerStart base.footer.cctStart base.footer.cctEnd (cctFwrite nodes))
    (low : base.startPos ≤ base.footer.cctStart) (high : base.footer.footerStart < base.endPos) :
    Enumerates hpcrunSparseNextContext (CtxInv base nodes) where
  opened := by
    rintro xs sf ⟨done, rest, pos, cur, num, -, rfl, -, rfl, -⟩
    exact opened
  curPos := by
    rintro xs sf cur' ⟨done, rest, pos, cur, num, split, rfl, counted, rfl, range⟩
    exact ⟨done, rest, pos, cur', num, split, rfl, counted, rfl, range⟩
  finish := by
    rintro sf ⟨done, rest, pos, cur, num, split, none, counted, rfl, range⟩
    obtain rfl := map_eq_nil_iff.mp none.symm
    rw [append_nil] at split
    subst split
    obtain ⟨pos', range', run⟩ := nextContext_at fits opened span low high cur counted range
    have all : (base.atContext pos' cur nodes.length nodes.length).cctNodesRead.toNat = nodes.length :=
      UInt32.toNat_ofNat_of_lt' fits
    refine ⟨_, run.trans (findContext_finish all), nodes, [], pos', cur, nodes.length, ?_, rfl, fun _ => rfl, rfl, range'⟩
    rw [append_nil]
  step := by
    rintro code node xs sf ⟨done, rest, pos, cur, num, split, cons, counted, rfl, range⟩
    obtain ⟨node', rest, rfl, code_eq, rfl⟩ := map_eq_cons_iff.mp cons.symm
    obtain ⟨rfl, rfl⟩ := Prod.mk.injEq _ _ _ _ ▸ code_eq
    obtain ⟨pos', range', run⟩ := nextContext_at fits opened span low high cur counted range
    have count : nodes.length = done.length + (rest.length + 1) := by rw [split, length_append, length_cons]
    have small : (base.atContext pos' cur nodes.length done.length).cctNodesRead.toNat = done.length :=
      UInt32.toNat_ofNat_of_lt' (show done.length < 2 ^ 32 by omega)
    have more : (base.atContext pos' cur nodes.length done.length).cctNodesRead.toNat ≠ nodes.length := by omega
    have here := span.here
    rw [split] at here
    have ends := span.ends
    have below := span.below
    rw [length_cctFwrite] at ends
    have start : base.footer.cctStart + sfCctNodeSize *
        (base.atContext pos' cur nodes.length done.length).cctNodesRead.toNat + sfNumCctSize =
        base.footer.cctStart + sfCctNodeSize * done.length + sfNumCctSize := by rw [small]
    have offset : base.footer.cctStart + sfCctNodeSize * done.length + sfNumCctSize + 19 ≤ base.footer.cctEnd := by
      rw [sfCctNodeSize, sfNumCctSize]
      omega
    have found := findContext_step more start (Nat.le_of_add_right_le offset) (at_cctNode here)
    refine ⟨_, run.trans found, done ++ [node'], rest,
      base.footer.cctStart + sfCctNodeSize * done.length + sfNumCctSize + 19, cur, nodes.length, ?_, rfl, fun _ => rfl,
      ?_, ?_, ?_⟩
    · rw [split, append_assoc]
      rfl
    · rw [length_append, length_singleton]
      exact base.atContext_succ _ _ _ _ _
    · omega
    · omega

/-! ## Opening -/

lemma reads_footer {x : Footer} (bound : ∀ off ∈ x.offsets, off < 2 ^ 64) :
    Reads hpcrunFmtFooterFread (hpcrunFmtFooterFwrite x) x := by
  have field : ∀ off ∈ x.offsets, Reads (readBE 8) (toBE 8 off) off := fun off member =>
    reads_readBE 8 off (bound off member)
  have magic : Reads (readBE 8) (toBE 8 hpcrunSm) hpcrunSm := reads_readBE 8 hpcrunSm (by decide)
  simp only [Footer.offsets, forall_mem_cons] at field
  obtain ⟨f₁, f₂, f₃, f₄, f₅, f₆, f₇, f₈, f₉, f₁₀, f₁₁, f₁₂, f₁₃, -⟩ := field
  have bytes : hpcrunFmtFooterFwrite x = toBE 8 x.hdrStart ++ (toBE 8 x.hdrEnd ++ (toBE 8 x.loadmapStart ++
      (toBE 8 x.loadmapEnd ++ (toBE 8 x.cctStart ++ (toBE 8 x.cctEnd ++ (toBE 8 x.metTblStart ++ (toBE 8 x.metTblEnd ++
      (toBE 8 x.idtplDxnryStart ++ (toBE 8 x.idtplDxnryEnd ++ (toBE 8 x.smStart ++ (toBE 8 x.smEnd ++
      (toBE 8 x.footerStart ++ (toBE 8 hpcrunSm ++ []))))))))))))) := rfl
  rw [bytes]
  apply f₁.bind
  apply f₂.bind
  apply f₃.bind
  apply f₄.bind
  apply f₅.bind
  apply f₆.bind
  apply f₇.bind
  apply f₈.bind
  apply f₉.bind
  apply f₁₀.bind
  apply f₁₁.bind
  apply f₁₂.bind
  apply f₁₃.bind
  apply magic.bind
  rw [if_neg (by simp)]
  exact reads_pure x

lemma Span.within {bytes data : List UInt8} {limit start finish : ℕ} (span : Span bytes limit start finish data)
    (before after : List UInt8) : Span (before ++ bytes ++ after) (limit + before.length) (start + before.length)
      (finish + before.length) data where
  here := by
    rw [Nat.add_comm]
    exact span.here.within before after
  ends := by
    rw [span.ends]
    omega
  below := Nat.add_le_add_right span.below _

/-- The counters before the first record of any list has been read. -/
structure Fresh (sf : SparseFile) : Prop where
  lms : sf.lmBytesRead = 0
  metricBytes : sf.metricBytesRead = 0
  metricId : sf.curMetricId = 0
  ctxs : sf.cctNodesRead = 0
  blocks : sf.smBlockTouched = 0

/-- A part of a larger file is opened with its end, a file with its end or with 0. -/
def EndsAt (bytes before after : List UInt8) (endPos : ℕ) : Prop :=
  endPos = before.length + bytes.length ∨ endPos = 0 ∧ after = []

lemma open_layout {footer : Footer} (layout : Layout p s bytes footer)
    (bound : ∀ off ∈ footer.offsets, off < 2 ^ 64) {before after : List UInt8} {endPos : ℕ}
    (ends : EndsAt bytes before after endPos) :
    ∃ sf, hpcrunSparseOpen (before ++ bytes ++ after) before.length endPos = some sf ∧ Opened p s sf ∧ Fresh sf ∧
      sf.InRange := by
  have length := layout.length
  have size : sfFooterSize = 112 := rfl
  have last : (if endPos == 0 then (before ++ bytes ++ after).length else endPos) = before.length + bytes.length := by
    rcases ends with rfl | ⟨rfl, rfl⟩
    · have nonzero : ¬(before.length + bytes.length == 0) = true := by
        rw [beq_iff_eq]
        omega
      rw [if_neg nonzero]
    · simp
  have room : sfFooterSize ≤ before.length + bytes.length := by omega
  have pos : before.length + bytes.length - sfFooterSize = before.length + footer.footerStart := by omega
  have read := reads_footer bound _ _ (layout.trailer.within before after)
  have run : hpcrunSparseOpen (before ++ bytes ++ after) before.length endPos =
      some (newSparseFile ⟨before ++ bytes ++ after, footer.hdrStart + before.length⟩
        (hpcrunSparseFooterUpdateWStart footer before.length) before.length (before.length + bytes.length)) := by
    simp only [hpcrunSparseOpen, last, if_pos room, pos, read, Option.bind_eq_bind, bind_some, Option.pure_def]
    rfl
  have hdr := layout.hdr.within before after
  have below := hdr.below
  have start := hdr.ends
  have high : footer.footerStart + before.length < before.length + bytes.length := by omega
  have inside : footer.hdrStart + before.length < before.length + bytes.length := by omega
  refine ⟨_, run, ⟨rfl, hdr, ⟨?_, ?_, ?_, ?_, ?_⟩, Nat.le_add_left _ _, Nat.le_add_left _ _, Nat.le_add_left _ _,
    Nat.le_add_left _ _, Nat.le_add_left _ _, high⟩, ⟨rfl, rfl, rfl, rfl, rfl⟩, Nat.le_add_left _ _, inside⟩
  · exact layout.sections.loadmap.within before after
  · exact layout.sections.cct.within before after
  · exact layout.sections.metTbl.within before after
  · exact layout.sections.dxnry.within before after
  · exact layout.sections.sm.within before after

/-! ## All lists of an open file -/

lemma Opened.of_same (opened : Opened p s base) (mode : sf.mode = base.mode)
    (bytes : sf.file.bytes = base.file.bytes) (footer : sf.footer = base.footer) (startPos : sf.startPos = base.startPos)
    (endPos : sf.endPos = base.endPos) : Opened p s sf := by
  obtain ⟨mode', hdr, sections, lowHdr, lowLoadmap, lowCct, lowMetTbl, lowSm, high⟩ := opened
  rw [← bytes, ← footer] at hdr sections
  rw [← footer, ← startPos] at lowHdr lowLoadmap lowCct lowMetTbl lowSm
  rw [← footer, ← endPos] at high
  exact ⟨mode.trans mode', hdr, sections, lowHdr, lowLoadmap, lowCct, lowMetTbl, lowSm, high⟩

lemma call_readHdr (opened : Opened p s sf) (fresh : Fresh sf) (range : sf.InRange)
    (fits : ∀ nv ∈ p.nvps, nv.Short) (pauses : List Bool) : ∃ sf', call hpcrunSparseReadHdr (sf, pauses) =
      some (⟨hpcrunFmtVersion, hpcrunFmtEndian, p.nvps⟩, sf', pauses.tail) ∧ Opened p s sf' ∧ Fresh sf' ∧
        sf'.InRange := by
  obtain ⟨cur, called⟩ := call_eq hpcrunSparseReadHdr opened.opened (.inr range)
  have opened' : Opened p s { sf with curPos := cur } := opened.of_same rfl rfl rfl rfl rfl
  have count : p.nvps.length < 2 ^ 32 := by
    have eleven : p.nvps.length = 11 := rfl
    omega
  have read := readFrom_seek (reads_hdr count fits) opened'.hdr.here
  have atEnd : ¬sf.footer.hdrStart + (hpcrunFmtHdrFwrite p.nvps).length ≠ sf.footer.hdrEnd :=
    fun off => off opened.hdr.ends.symm
  have low := opened.lowHdr
  have ends := opened.hdr.ends
  have below := opened.hdr.below
  have high := opened.high
  have inside : sf.startPos ≤ sf.footer.hdrEnd ∧ sf.footer.hdrEnd < sf.endPos := by omega
  refine ⟨{ sf.seek sf.footer.hdrEnd with curPos := cur }, ?_, opened.of_same rfl rfl rfl rfl rfl,
    ⟨fresh.lms, fresh.metricBytes, fresh.metricId, fresh.ctxs, fresh.blocks⟩, inside⟩
  rw [called]
  simp only [hpcrunSparseReadHdr, bind_apply, checkMode_apply opened'.opened, get_apply, bind_some, seek_apply,
    read, tell_apply, pos_seek, if_apply, if_neg atEnd, pure_apply, Option.map_some]
  rw [opened.hdr.ends]
  rfl

variable {xs : List (ℤ × LoadmapEntry)}

lemma LmInv.inRange (inv : LmInv base xs sf) : sf.InRange := by
  obtain ⟨lms, pos, cur, n, -, -, -, range, -⟩ := inv
  exact range

lemma MetricInv.inRange {xs : List (ℤ × MetricDesc)} (inv : MetricInv base xs sf) : sf.InRange := by
  obtain ⟨ms, pos, cur, n, k, -, -, -, range, -⟩ := inv
  exact range

lemma CtxInv.inRange {xs : List (ℤ × FmtCctNode)} (inv : CtxInv base nodes xs sf) :
    sf.InRange := by
  obtain ⟨done, rest, pos, cur, num, -, -, -, rfl, range⟩ := inv
  exact range

lemma lmInv_start (opened : Opened p s sf) (fresh : sf.lmBytesRead = 0) (range : sf.InRange) :
    LmInv sf (s.loadmap.map lmCode) sf := by
  have here := opened.sections.loadmap.here.append.2
  have ends := opened.sections.loadmap.ends
  rw [loadmapFwrite, length_append, ← Nat.add_assoc] at ends
  refine ⟨s.loadmap, sf.file.pos, sf.curPos, sf.lmBytesRead, rfl, s.namesFit, rfl, range, ?_, ?_⟩
  · rw [fresh, ends, length_int4Fwrite]
    rfl
  · rw [fresh]
    rwa [length_int4Fwrite] at here

lemma metricInv_start (opened : Opened p s sf) (bytes : sf.metricBytesRead = 0) (id : sf.curMetricId = 0)
    (range : sf.InRange) : MetricInv sf (metricCodes 0 p.metricTbls.flatten) sf := by
  have here := opened.sections.metTbl.here.append.2
  have ends := opened.sections.metTbl.ends
  rw [metricTblsFwrite, length_append, ← Nat.add_assoc] at ends
  refine ⟨p.metricTbls.flatten, sf.file.pos, sf.curPos, sf.metricBytesRead, sf.curMetricId, ?_, p.descsFit, rfl, range,
    ?_, ?_⟩
  · rw [id]
  · rw [bytes, ends, length_int4Fwrite]
    rfl
  · rw [bytes]
    rwa [length_int4Fwrite] at here

lemma ctxInv_start (fresh : sf.cctNodesRead = 0) (range : sf.InRange) :
    CtxInv sf s.cct (s.cct.map ctxCode) sf := by
  refine ⟨[], s.cct, sf.file.pos, sf.curPos, sf.numCctNodes, rfl, rfl, fun some => absurd rfl some, ?_, range⟩
  have none : UInt32.ofNat ([] : List FmtCctNode).length = sf.cctNodesRead := fresh.symm
  rw [SparseFile.atContext, none]
  rfl

lemma blockInv_start (opened : Opened p s sf) (fresh : sf.smBlockTouched = 0) (range : sf.InRange) :
    BlockInv True (p.sparse s) [] s.blocks sf where
  located := ⟨opened.opened, opened.sections.sm.here, opened.sections.sm.ends⟩
  split := rfl
  touched := fresh
  initialised := fun some => absurd rfl some
  inRange := fun _ => ⟨range, opened.lowSm, opened.sections.sm.below.trans_lt opened.high⟩

lemma LmInv.frame (opened : Opened p s base) (inv : LmInv base xs sf) :
    Opened p s sf ∧ sf.metricBytesRead = base.metricBytesRead ∧ sf.curMetricId = base.curMetricId ∧
      sf.cctNodesRead = base.cctNodesRead ∧ sf.smBlockTouched = base.smBlockTouched := by
  obtain ⟨lms, pos, cur, n, -, -, rfl, -⟩ := inv
  exact ⟨opened.of_same rfl rfl rfl rfl rfl, rfl, rfl, rfl, rfl⟩

lemma MetricInv.frame {xs : List (ℤ × MetricDesc)} (opened : Opened p s base) (inv : MetricInv base xs sf) :
    Opened p s sf ∧ sf.cctNodesRead = base.cctNodesRead ∧ sf.smBlockTouched = base.smBlockTouched := by
  obtain ⟨ms, pos, cur, n, k, -, -, rfl, -⟩ := inv
  exact ⟨opened.of_same rfl rfl rfl rfl rfl, rfl, rfl⟩

lemma CtxInv.frame {xs : List (ℤ × FmtCctNode)} (opened : Opened p s base)
    (inv : CtxInv base nodes xs sf) : Opened p s sf ∧ sf.smBlockTouched = base.smBlockTouched := by
  obtain ⟨done, rest, pos, cur, num, -, -, -, rfl, -⟩ := inv
  exact ⟨opened.of_same rfl rfl rfl rfl rfl, rfl⟩

/-- The lists of records with their codes, as the reading functions go through them. -/
structure Codes (p : ProfileData) (s : Epoch) : Prop where
  lms : ∀ x ∈ s.loadmap.map lmCode, 0 < x.1
  metrics : ∀ x ∈ metricCodes 0 p.metricTbls.flatten, 0 < x.1
  ctxs : ∀ x ∈ s.cct.map ctxCode, 0 < x.1
  blocks : ∀ b ∈ s.blocks, b.Expressible

lemma map_snd_lmCode (lms : List LoadmapEntry) : (lms.map lmCode).map snd = lms := by
  rw [map_map]
  exact map_id _

lemma map_snd_ctxCode (nodes : List FmtCctNode) : (nodes.map ctxCode).map snd = nodes := by
  rw [map_map]
  exact map_id _

lemma map_snd_metricCodes (k : UInt16) (ms : List MetricDesc) :
    (metricCodes k ms).map snd = ms.map MetricDesc.back := by
  induction ms generalizing k with
  | nil => rfl
  | cons m rest ih => rw [metricCodes, map_cons, ih, map_cons]

lemma length_metricCodes (k : UInt16) (ms : List MetricDesc) : (metricCodes k ms).length = ms.length := by
  induction ms generalizing k with
  | nil => rfl
  | cons m rest ih => rw [metricCodes, length_cons, ih, length_cons]

/-- The records of an epoch as they come back. -/
def backContents (p : ProfileData) (s : Epoch) : Contents where
  hdr := ⟨hpcrunFmtVersion, hpcrunFmtEndian, p.nvps⟩
  lms := s.loadmap
  metrics := p.metricTbls.flatten.map MetricDesc.back
  ctxs := s.cct
  blocks := s.blocks

lemma readAll_complete (opened : Opened p s sf) (fresh : Fresh sf) (range : sf.InRange)
    (texts : ∀ nv ∈ p.nvps, nv.Short) (codes : Codes p s) (pauses : List Bool) :
    ∃ fuel last, readAll fuel (sf, pauses) = some (backContents p s, last) := by
  obtain ⟨fuel, enough⟩ : ∃ fuel, fuel = s.loadmap.length + p.metricTbls.flatten.length + s.cct.length +
    (s.blocks.length + totalOf s.blocks) + 1 := ⟨_, rfl⟩
  obtain ⟨sf₁, hdrRun, opened₁, fresh₁, range₁⟩ := call_readHdr opened fresh range texts pauses
  have lmRule := enumerates_lms opened₁.opened opened₁.lowLoadmap (opened₁.sections.loadmap.below.trans_lt opened₁.high)
  obtain ⟨sf₂, pauses₂, lmRun, lmInv⟩ := lmRule.complete_within LmInv.inRange pauses.tail codes.lms
    (show (s.loadmap.map lmCode).length < fuel by rw [length_map]; omega) (lmInv_start opened₁ fresh₁.lms range₁)
  obtain ⟨opened₂, metricBytes₂, metricId₂, ctxs₂, blocks₂⟩ := lmInv.frame opened₁
  have metricRule := enumerates_metrics opened₂.opened opened₂.lowMetTbl
    (opened₂.sections.metTbl.below.trans_lt opened₂.high)
  obtain ⟨sf₃, pauses₃, metricRun, metricInv⟩ := metricRule.complete_within MetricInv.inRange pauses₂ codes.metrics
    (show (metricCodes 0 p.metricTbls.flatten).length < fuel by rw [length_metricCodes]; omega)
    (metricInv_start opened₂ (metricBytes₂.trans fresh₁.metricBytes) (metricId₂.trans fresh₁.metricId) lmInv.inRange)
  obtain ⟨opened₃, ctxs₃, blocks₃⟩ := metricInv.frame opened₂
  have ctxRule := enumerates_ctxs s.cctFits opened₃.opened opened₃.sections.cct opened₃.lowCct opened₃.high
  obtain ⟨sf₄, pauses₄, ctxRun, ctxInv⟩ := ctxRule.complete_within CtxInv.inRange pauses₃ codes.ctxs
    (show (s.cct.map ctxCode).length < fuel by rw [length_map]; omega)
    (ctxInv_start (ctxs₃.trans (ctxs₂.trans fresh₁.ctxs)) metricInv.inRange)
  obtain ⟨opened₄, blocks₄⟩ := ctxInv.frame opened₃
  obtain ⟨last, blockRun⟩ := enumerateBlocks_complete
    (blockInv_start opened₄ (blocks₄.trans (blocks₃.trans (blocks₂.trans fresh₁.blocks))) ctxInv.inRange)
    (show pauses₄ = [] ∨ True from .inr trivial) codes.blocks (show s.blocks.length + totalOf s.blocks < fuel by omega)
  refine ⟨fuel, last, ?_⟩
  simp only [readAll, bind_apply, hdrRun, bind_some, lmRun, metricRun, ctxRun, blockRun, pure_apply,
    map_snd_lmCode, map_snd_ctxCode, map_snd_metricCodes, backContents]

lemma readAll_sound (opened : Opened p s sf) (fresh : Fresh sf) (range : sf.InRange)
    (texts : ∀ nv ∈ p.nvps, nv.Short) {pauses : List Bool} {fuel : ℕ} {c : Contents} {last : SparseFile × List Bool}
    (run : readAll fuel (sf, pauses) = some (c, last)) (lms : s.loadmap.length ≤ c.lms.length)
    (metrics : p.metricTbls.flatten.length ≤ c.metrics.length) (ctxs : s.cct.length ≤ c.ctxs.length)
    (blocks : s.blocks.length ≤ c.blocks.length) :
    c.lms = s.loadmap ∧ c.metrics = p.metricTbls.flatten.map MetricDesc.back ∧ c.ctxs = s.cct ∧
      c.blocks.length = s.blocks.length ∧ (c.blocks = s.blocks → Codes p s) := by
  obtain ⟨sf₁, hdrRun, opened₁, fresh₁, range₁⟩ := call_readHdr opened fresh range texts pauses
  simp only [readAll, bind_apply, hdrRun, bind_some] at run
  obtain ⟨⟨lms', sf₂, pauses₂⟩, lmRun, run⟩ := bind_eq_some_iff.mp run
  obtain ⟨⟨metrics', sf₃, pauses₃⟩, metricRun, run⟩ := bind_eq_some_iff.mp run
  obtain ⟨⟨ctxs', sf₄, pauses₄⟩, ctxRun, run⟩ := bind_eq_some_iff.mp run
  obtain ⟨⟨blocks', state⟩, blockRun, run⟩ := bind_eq_some_iff.mp run
  obtain ⟨rfl, -⟩ := Prod.mk.inj (Option.some.inj run)
  simp only [length_map] at lms metrics ctxs blocks
  have lmRule := enumerates_lms opened₁.opened opened₁.lowLoadmap (opened₁.sections.loadmap.below.trans_lt opened₁.high)
  obtain ⟨rfl, lmCodes, lmInv, -⟩ := lmRule.sound_of_length (.inr LmInv.inRange) (lmInv_start opened₁ fresh₁.lms range₁)
    lmRun (by rwa [length_map])
  obtain ⟨opened₂, metricBytes₂, metricId₂, ctxs₂, blocks₂⟩ := lmInv.frame opened₁
  have metricRule := enumerates_metrics opened₂.opened opened₂.lowMetTbl
    (opened₂.sections.metTbl.below.trans_lt opened₂.high)
  obtain ⟨rfl, metricCodes, metricInv, -⟩ := metricRule.sound_of_length (.inr MetricInv.inRange)
    (metricInv_start opened₂ (metricBytes₂.trans fresh₁.metricBytes) (metricId₂.trans fresh₁.metricId) lmInv.inRange)
    metricRun (by rwa [length_metricCodes])
  obtain ⟨opened₃, ctxs₃, blocks₃⟩ := metricInv.frame opened₂
  have ctxRule := enumerates_ctxs s.cctFits opened₃.opened opened₃.sections.cct opened₃.lowCct opened₃.high
  obtain ⟨rfl, ctxCodes, ctxInv, -⟩ := ctxRule.sound_of_length (.inr CtxInv.inRange)
    (ctxInv_start (ctxs₃.trans (ctxs₂.trans fresh₁.ctxs)) metricInv.inRange) ctxRun (by rwa [length_map])
  obtain ⟨opened₄, blocks₄⟩ := ctxInv.frame opened₃
  obtain ⟨length, expressible⟩ := enumerateBlocks_sound
    (blockInv_start opened₄ (blocks₄.trans (blocks₃.trans (blocks₂.trans fresh₁.blocks))) ctxInv.inRange)
    (.inr trivial) blockRun
  exact ⟨map_snd_lmCode _, map_snd_metricCodes _ _, map_snd_ctxCode _, le_antisymm length blocks,
    fun same => ⟨lmCodes, metricCodes, ctxCodes, expressible same⟩⟩

/-! ## Texts of the header -/

lemma short_text_toDigits {b n : ℕ} (base_gt : 1 < b) (bound : n < b ^ 64) : Short (text (Nat.toDigits b n)) := by
  have digits : (Nat.toDigits b n).length ≤ 64 := (Nat.length_toDigits_le_iff base_gt (by decide)).mpr bound
  rw [Short, text, length_map]
  omega

lemma short_decimal {n : ℕ} (bound : n < 2 ^ 64) : Short (decimal n) :=
  short_text_toDigits (by decide) (bound.trans_le (Nat.pow_le_pow_left (by decide) 64))

lemma short_signedDecimal {n : ℤ} (bound : n.natAbs ≤ 2 ^ 31) : Short (signedDecimal n) := by
  have small : n.natAbs < 10 ^ 64 := bound.trans_lt (by decide)
  have digits : (decimal n.natAbs).length ≤ 64 := by
    rw [decimal, text, length_map]
    exact (Nat.length_toDigits_le_iff (by decide) (by decide)).mpr small
  rw [Short, signedDecimal]
  split
  · rw [length_append, text, length_map]
    have sign : ['-'].length = 1 := rfl
    omega
  · omega

lemma ProfileData.nvps_short (p : ProfileData) : ∀ nv ∈ p.nvps, nv.Short := by
  obtain ⟨name, path, env, job⟩ := p.textsFit
  obtain ⟨rank, id⟩ := p.numbersFit
  have rank' : (if p.rank < 0 then 0 else p.rank).natAbs ≤ 2 ^ 31 := by split <;> omega
  have host : p.hostid.toNat < 16 ^ 64 := p.hostid.toNat_lt.trans (by decide)
  have small (v : UInt32) : v.toNat < 2 ^ 64 := v.toNat_lt.trans (by decide)
  have disorder : Short p.traceDisorder := by
    rw [ProfileData.traceDisorder]
    split
    · exact (by decide : (text ['0']).length < 2 ^ 31)
    · exact short_decimal (small _)
  have name_short (chars : List Char) (bound : chars.length < 32) : Short (text chars) := by
    rw [Short, text, length_map]
    omega
  simp only [ProfileData.nvps, forall_mem_cons, not_mem_nil, false_imp_iff, implies_true, and_true]
  refine ⟨⟨name_short _ ?_, name⟩, ⟨name_short _ ?_, path⟩, ⟨name_short _ ?_, env⟩, ⟨name_short _ ?_, job⟩,
    ⟨name_short _ ?_, short_signedDecimal rank'⟩, ⟨name_short _ ?_, short_signedDecimal id⟩,
    ⟨name_short _ ?_, short_text_toDigits (by decide) host⟩, ⟨name_short _ ?_, short_decimal (small _)⟩,
    ⟨name_short _ ?_, short_decimal p.traceMinTimeUs.toNat_lt⟩,
    ⟨name_short _ ?_, short_decimal p.traceMaxTimeUs.toNat_lt⟩, ⟨name_short _ ?_, disorder⟩⟩ <;> decide

/-! ## Files without a footer -/

variable {α : Type}

lemma bind_readBE (next : ℕ → Reader α) (room : off + 8 ≤ bytes.length) :
    (readBE 8 >>= next) ⟨bytes, off⟩ = next (ofBE ((bytes.drop off).take 8)) ⟨bytes, off + 8⟩ := by
  have read : readBE 8 ⟨bytes, off⟩ = some (ofBE ((bytes.drop off).take 8), ⟨bytes, off + 8⟩) := readBE_apply room
  rw [bind_apply, read]
  rfl

lemma footerFread_fails {pos : ℕ} (room : pos + sfFooterSize ≤ bytes.length)
    (other : ofBE ((bytes.drop (pos + 104)).take 8) ≠ hpcrunSm) : hpcrunFmtFooterFread ⟨bytes, pos⟩ = none := by
  have size : sfFooterSize = 112 := rfl
  rw [hpcrunFmtFooterFread]
  iterate 14 rw [bind_readBE _ (by omega)]
  have last : pos + 8 + 8 + 8 + 8 + 8 + 8 + 8 + 8 + 8 + 8 + 8 + 8 + 8 = pos + 104 := rfl
  rw [last, if_pos other]
  rfl

lemma open_fails {b : UInt8} (room : sfFooterSize ≤ (bytes ++ [b]).length) (other : b ≠ 0x6d) :
    hpcrunSparseOpen (bytes ++ [b]) 0 0 = none := by
  have size : sfFooterSize = 112 := rfl
  have length : (bytes ++ [b]).length = bytes.length + 1 := length_append
  have magic : ofBE (((bytes ++ [b]).drop ((bytes ++ [b]).length - sfFooterSize + 104)).take 8) ≠ hpcrunSm := by
    have tail : ((bytes ++ [b]).drop ((bytes ++ [b]).length - sfFooterSize + 104)).take 8 =
        bytes.drop (bytes.length - 7) ++ [b] := by
      have start : (bytes ++ [b]).length - sfFooterSize + 104 = bytes.length - 7 := by omega
      rw [start, drop_append_of_le_length (by omega), take_of_length_le]
      rw [length_append, length_drop, length_singleton]
      omega
    rw [tail, ofBE_append_singleton]
    intro same
    have low := congrArg (· % 256) same
    have bound := b.toNat_lt
    have letter : hpcrunSm % 256 = 0x6d := rfl
    have value : b.toNat ≠ 0x6d := fun equal => other (UInt8.toNat_inj.mp equal)
    simp only [letter] at low
    omega
  have fails := footerFread_fails (Nat.sub_add_cancel room).le magic
  simp only [hpcrunSparseOpen, beq_self_eq_true, if_true, if_pos room, fails]
  rfl

lemma text_digits_end {chars : List Char} (some : chars ≠ []) (digits : ∀ c ∈ chars, c.isDigit) :
    ∃ init d, text chars = init ++ [d] ∧ d ≠ 0x6d := by
  refine ⟨text chars.dropLast, UInt8.ofNat (chars.getLast some).toNat, ?_, ?_⟩
  · conv_lhs => rw [← dropLast_append_getLast some]
    rw [text, text, map_append]
    rfl
  · have digit : (chars.getLast some).toNat ≤ 57 := by
      have digit := digits _ (getLast_mem some)
      rw [Char.isDigit, Bool.and_eq_true, decide_eq_true_eq, decide_eq_true_eq] at digit
      exact digit.2
    intro same
    have same := congrArg UInt8.toNat same
    rw [UInt8.toNat_ofNat_of_lt' (show (chars.getLast some).toNat < 2 ^ 8 by omega)] at same
    have same : (chars.getLast some).toNat = 109 := same
    omega

lemma traceDisorder_ends (p : ProfileData) : ∃ init d, p.traceDisorder = init ++ [d] ∧ d ≠ 0x6d := by
  rw [ProfileData.traceDisorder]
  split
  · apply text_digits_end (cons_ne_nil _ _)
    intro c member
    rw [mem_singleton.mp member]
    rfl
  · exact text_digits_end Nat.toDigits_ne_nil fun c member =>
      Nat.isDigit_of_mem_toDigits (by decide) (by decide) member

lemma hdrFwrite_size (p : ProfileData) : sfFooterSize ≤ (hpcrunFmtHdrFwrite p.nvps).length := by
  have size : sfFooterSize = 112 := rfl
  have magic : hpcrunFmtMagic.length = 18 ∧ hpcrunFmtVersion.length = 5 ∧ hpcrunFmtEndian.length = 1 := ⟨rfl, rfl, rfl⟩
  simp only [hpcrunFmtHdrFwrite, nvpairsFwrite, ProfileData.nvps, flatMap_cons, flatMap_nil, nvpairFwrite,
    strFwrite, length_append, length_int4Fwrite]
  omega

lemma hdrFwrite_ends (p : ProfileData) : ∃ bytes b, hpcrunFmtHdrFwrite p.nvps = bytes ++ [b] ∧ b ≠ 0x6d := by
  obtain ⟨init, d, val_eq, digit⟩ := traceDisorder_ends p
  obtain ⟨front, name, nvps⟩ : ∃ front name, p.nvps = front ++ [⟨name, p.traceDisorder⟩] := by
    exact ⟨p.nvps.dropLast, text "trace-disorder".toList, rfl⟩
  have pair : nvpairFwrite ⟨name, p.traceDisorder⟩ =
      strFwrite name ++ int4Fwrite (.ofNat p.traceDisorder.length) ++ init ++ [d] := by
    rw [nvpairFwrite, append_assoc, append_assoc, ← val_eq]
    rfl
  have last : hpcrunFmtHdrFwrite p.nvps = hpcrunFmtMagic ++ hpcrunFmtVersion ++ hpcrunFmtEndian ++
      int4Fwrite (.ofNat p.nvps.length) ++ front.flatMap nvpairFwrite ++
      (strFwrite name ++ int4Fwrite (.ofNat p.traceDisorder.length) ++ init) ++ [d] := by
    rw [hpcrunFmtHdrFwrite, nvpairsFwrite]
    conv_lhs =>
      rw [nvps, flatMap_append, flatMap_singleton, pair]
    simp only [nvps, append_assoc]
  exact ⟨_, d, last, digit⟩

/-! ## The round trip -/

/-- Flags that the reader returns as they were: those in the present convention, and those that are the same in
the old one. -/
def MetricFlags.Survives (flags : MetricFlags) : Prop := flags.Portable ∨ MetricFlags.ofOldBits flags.bits = flags

/-- An epoch whose ids the codes of the reading functions can express, with an end to its values. -/
structure Epoch.Expressible (s : Epoch) : Prop where
  lms : ∀ lm ∈ s.loadmap, lm.id ≠ 0
  ctxs : ∀ node ∈ s.cct, 0 < node.id.toNat ∧ node.id.toNat < 2 ^ 31
  blocks : ∀ b ∈ s.blocks, b.Expressible
  values : totalOf s.blocks < 2 ^ 32

/-- An epoch without records. -/
def Epoch.Empty (s : Epoch) : Prop := s.loadmap = [] ∧ s.cct = [] ∧ s.blocks = []

/-- The profiles that can be read back. -/
structure ProfileData.Recoverable (p : ProfileData) : Prop where
  active : p.sampleProbActive = true
  metricCount : p.metricTbls.flatten.length < 2 ^ 16
  flags : ∀ m ∈ p.metricTbls.flatten, m.flags.Survives
  epochs : ∃ earlier last, p.epochs = earlier ++ [last] ∧ (∀ s ∈ earlier, s.Empty) ∧ last.Expressible

/-- The writer returns, and wherever its file stands and whenever the reader pauses, the reader yields the records of
the profile. -/
def ProfileData.Recovered (p : ProfileData) : Prop :=
  ∃ f, hpcrunWriteProfileData p = some f ∧ ∀ before after endPos pauses, EndsAt f.bytes before after endPos →
    ∃ fuel sf last, hpcrunSparseOpen (before ++ f.bytes ++ after) before.length endPos = some sf ∧
      readAll fuel (sf, pauses) = some (p.contents, last)

lemma MetricFlags.fread_bits_iff (flags : MetricFlags) : fread flags.bits = flags ↔ flags.Survives := by
  rw [fread, ofBits_bits, Survives]
  by_cases portable : flags.Portable
  · simp [portable]
  · simp [portable]

lemma map_back_iff (ms : List MetricDesc) : ms.map MetricDesc.back = ms ↔ ∀ m ∈ ms, m.flags.Survives := by
  have one (m : MetricDesc) : m.back = m ↔ m.flags.Survives := by
    rw [← MetricFlags.fread_bits_iff, MetricDesc.back]
    constructor
    · exact congrArg MetricDesc.flags
    · intro flags
      rw [flags]
  induction ms with
  | nil => simp
  | cons m rest ih => simp only [map_cons, cons.injEq, ih, one, forall_mem_cons]

lemma metricCodes_pos_iff (k : UInt16) (ms : List MetricDesc) :
    (∀ x ∈ metricCodes k ms, 0 < x.1) ↔ ms = [] ∨ k.toNat + ms.length < 2 ^ 16 := by
  induction ms generalizing k with
  | nil => simp [metricCodes]
  | cons m rest ih =>
    have code : 0 < ((k + 1).toNat : ℤ) ↔ k ≠ 0xffff := entryCode_pos_iff (k, 0)
    rw [metricCodes, forall_mem_cons, ih, code]
    have bound := k.toNat_lt
    by_cases last : k = 0xffff
    · have value : k.toNat = 65535 := by
        rw [last]
        rfl
      have full : ¬k.toNat + (rest.length + 1) < 2 ^ 16 := by omega
      simp only [last, ne_eq, not_true_eq_false, false_and, false_iff, cons_ne_nil, false_or, length_cons]
      rwa [last] at full
    · have value := toNat_add_one last
      have other : k.toNat ≠ 65535 := fun equal => last (UInt16.toNat_inj.mp equal)
      rw [value, length_cons]
      simp only [ne_eq, last, not_false_eq_true, true_and, cons_ne_nil, false_or]
      constructor
      · rintro (rfl | small)
        · simp
          omega
        · omega
      · intro small
        right
        omega

lemma codes_iff : Codes p s ↔ p.metricTbls.flatten.length < 2 ^ 16 ∧ (∀ lm ∈ s.loadmap, lm.id ≠ 0) ∧
    (∀ node ∈ s.cct, 0 < node.id.toNat ∧ node.id.toNat < 2 ^ 31) ∧ ∀ b ∈ s.blocks, b.Expressible := by
  have lm (lm : LoadmapEntry) : 0 < (lmCode lm).1 ↔ lm.id ≠ 0 := by
    rw [lmCode, ne_eq, ← UInt16.toNat_inj]
    have zero : (0 : UInt16).toNat = 0 := rfl
    omega
  have metrics : (∀ x ∈ metricCodes 0 p.metricTbls.flatten, 0 < x.1) ↔ p.metricTbls.flatten.length < 2 ^ 16 := by
    rw [metricCodes_pos_iff]
    have zero : (0 : UInt16).toNat = 0 := rfl
    rw [zero, Nat.zero_add]
    constructor
    · rintro (none | small)
      · rw [none]
        decide
      · exact small
    · exact Or.inr
  constructor
  · rintro ⟨lms, ms, ctxs, blocks⟩
    refine ⟨metrics.mp ms, fun x member => (lm x).mp (lms _ (mem_map_of_mem member)), ?_, blocks⟩
    exact fun node member => (asInt_pos_iff _).mp (ctxs _ (mem_map_of_mem member))
  · rintro ⟨ms, lms, ctxs, blocks⟩
    refine ⟨?_, metrics.mpr ms, ?_, blocks⟩
    · intro x member
      obtain ⟨x, source, rfl⟩ := mem_map.mp member
      exact (lm x).mpr (lms x source)
    · intro x member
      obtain ⟨node, source, rfl⟩ := mem_map.mp member
      exact (asInt_pos_iff _).mpr (ctxs node source)

variable {earlier : List Epoch}

lemma flatMap_last {records : Epoch → List α} (none : ∀ s ∈ earlier, records s = [])
    (last : Epoch) : (earlier ++ [last]).flatMap records = records last := by
  rw [flatMap_append, flatMap_eq_nil_iff.mpr none, flatMap_singleton, nil_append]

lemma contents_eq (epochs : p.epochs = earlier ++ [s]) (empty : ∀ s ∈ earlier, s.Empty)
    (flags : ∀ m ∈ p.metricTbls.flatten, m.flags.Survives) : backContents p s = p.contents := by
  rw [backContents, ProfileData.contents, epochs, flatMap_last fun s member => (empty s member).1,
    flatMap_last fun s member => (empty s member).2.1, flatMap_last fun s member => (empty s member).2.2,
    (map_back_iff _).mpr flags]

lemma ProfileData.Recoverable.recovered (fits : ∀ f, hpcrunWriteProfileData p = some f → f.bytes.length < 2 ^ 63)
    (able : p.Recoverable) : p.Recovered := by
  obtain ⟨earlier, s, epochs, empty, expressible⟩ := able.epochs
  have small : ∀ s ∈ p.epochs, totalOf s.blocks < 2 ^ 32 := by
    rw [epochs]
    intro s' member
    rcases mem_append.mp member with member | member
    · rw [(empty s' member).2.2]
      decide
    · rw [mem_singleton.mp member]
      exact expressible.values
  obtain ⟨f, run⟩ := writeEpochs_ends (headerFile_appending p) small
  have written : hpcrunWriteProfileData p = some f := by
    rw [hpcrunWriteProfileData_eq able.active, run]
    rfl
  obtain ⟨-, -, footer, layout⟩ := hpcrunWriteProfileData_layout able.active epochs written
  refine ⟨f, written, fun before after endPos pauses ends => ?_⟩
  obtain ⟨sf, opens, opened, fresh, range⟩ := open_layout layout (layout.offsets_lt (fits f written)) ends
  have codes : Codes p s :=
    codes_iff.mpr ⟨able.metricCount, expressible.lms, expressible.ctxs, expressible.blocks⟩
  obtain ⟨fuel, last, run⟩ := readAll_complete opened fresh range p.nvps_short codes pauses
  rw [contents_eq epochs empty able.flags] at run
  exact ⟨fuel, sf, last, opens, run⟩

lemma ProfileData.Recovered.epochs (recovered : p.Recovered) :
    p.sampleProbActive = true ∧ ∃ earlier s, p.epochs = earlier ++ [s] := by
  obtain ⟨f, written, reads⟩ := recovered
  obtain ⟨fuel, sf, last, opens, -⟩ := reads [] [] 0 [] (.inr ⟨rfl, rfl⟩)
  rw [nil_append, append_nil, length_nil] at opens
  have active : p.sampleProbActive = true := by
    by_contra inactive
    have nothing : hpcrunWriteProfileData p = some ⟨[], 0⟩ := by
      rw [hpcrunWriteProfileData, lazyOpenDataFile, if_neg inactive, if_neg inactive]
      rfl
    obtain rfl : ⟨[], 0⟩ = f := Option.some.inj (nothing.symm.trans written)
    have fails : hpcrunSparseOpen [] 0 0 = none := rfl
    exact absurd (opens.symm.trans fails) (by simp)
  refine ⟨active, ?_⟩
  rcases eq_nil_or_concat p.epochs with none | ⟨earlier, s, epochs⟩
  · rw [hpcrunWriteProfileData_eq active, none] at written
    obtain rfl : p.headerFile = f := Option.some.inj written
    obtain ⟨bytes, b, header, other⟩ := hdrFwrite_ends p
    have room : sfFooterSize ≤ (bytes ++ [b]).length := by
      rw [← header]
      exact hdrFwrite_size p
    have fails := open_fails room other
    rw [← header] at fails
    exact absurd (opens.symm.trans fails) (by simp)
  · exact ⟨earlier, s, by rw [epochs, concat_eq_append]⟩

lemma ProfileData.Recovered.recoverable (fits : ∀ f, hpcrunWriteProfileData p = some f → f.bytes.length < 2 ^ 63)
    (recovered : p.Recovered) : p.Recoverable := by
  obtain ⟨active, earlier, s, epochs⟩ := recovered.epochs
  obtain ⟨f, written, reads⟩ := recovered
  obtain ⟨values, -, footer, layout⟩ := hpcrunWriteProfileData_layout active epochs written
  obtain ⟨fuel, sf, last, opens, run⟩ := reads [] [] 0 [] (.inr ⟨rfl, rfl⟩)
  obtain ⟨sf', opens', opened, fresh, range⟩ := open_layout layout (layout.offsets_lt (fits f written))
    (show EndsAt f.bytes [] [] 0 from .inr ⟨rfl, rfl⟩)
  obtain rfl : sf' = sf := Option.some.inj (opens'.symm.trans opens)
  have split {α : Type} (records : Epoch → List α) :
      p.epochs.flatMap records = earlier.flatMap records ++ records s := by
    rw [epochs, flatMap_append, flatMap_singleton]
  have le {α : Type} (records : Epoch → List α) : (records s).length ≤ (p.epochs.flatMap records).length := by
    rw [split, length_append]
    omega
  have none {α : Type} {records : Epoch → List α} (same : (p.epochs.flatMap records).length = (records s).length) :
      ∀ s ∈ earlier, records s = [] := by
    rw [split, length_append] at same
    exact flatMap_eq_nil_iff.mp (length_eq_zero_iff.mp (by omega))
  obtain ⟨lms, metrics, ctxs, blockCount, codes⟩ := readAll_sound opened fresh range p.nvps_short run
    (le Epoch.loadmap) le_rfl (le Epoch.cct) (le Epoch.blocks)
  have noLms := none (congrArg length lms)
  have noCtxs := none (congrArg length ctxs)
  have noBlocks := none blockCount
  have blocks : p.contents.blocks = s.blocks := by
    rw [ProfileData.contents, epochs]
    exact flatMap_last noBlocks s
  obtain ⟨metricCount, lmIds, ctxIds, blockIds⟩ := codes_iff.mp (codes blocks)
  refine ⟨active, metricCount, (map_back_iff _).mp metrics.symm, earlier, s, epochs, ?_, lmIds, ctxIds, blockIds, values⟩
  exact fun s member => ⟨noLms s member, noCtxs s member, noBlocks s member⟩

/-- An epoch with a load module, a context and a block with one value. -/
def smallEpoch (id : UInt16) : Epoch where
  loadmap := [⟨id, text ['a', '.', 'o', 'u', 't'], 0⟩]
  cct := [⟨1, 0, id, 64, false⟩]
  blocks := [⟨1, [(0, 5)]⟩]
  namesFit := by
    intro lm member
    rw [mem_singleton.mp member]
    exact (by decide : (text ['a', '.', 'o', 'u', 't']).length < 2 ^ 31)
  cctFits := by simp
  valuesFit := by decide
  indexFits := by decide

/-- The profile of a process with one metric and the given epochs. -/
def smallProfile (epochs : List Epoch) : ProfileData where
  sampleProbActive := true
  executableName := text ['a', '.', 'o', 'u', 't']
  executablePathname := text ['/', 'a', '.', 'o', 'u', 't']
  envPath := []
  jobId := []
  rank := -1
  id := 0
  hostid := 0x7f0101
  pid := 4711
  traceMinTimeUs := 0
  traceMaxTimeUs := 0
  traceIsOrdered := true
  traceExpectedDisorder := 0
  idTuple := [⟨2, 0, 0⟩]
  metricTbls := [[⟨text ['t'], [], ⟨tyRaw, 0, 0, 0, 0, 0, 0, 0⟩, 1, [], [], false, false, 0, 0⟩]]
  epochs := epochs
  textsFit := by
    refine ⟨?_, ?_, ?_, ?_⟩ <;> rw [Short] <;> decide
  numbersFit := by decide
  tupleFits := by decide
  descsFit := by
    intro m member
    rw [mem_singleton.mp member]
    refine ⟨?_, ?_, ?_, ?_⟩ <;> rw [Short] <;> decide

lemma smallProfile_fits {s : Epoch} (bound : size < 2 ^ 63)
    (written : (hpcrunWriteProfileData (smallProfile (earlier ++ [s]))).map ByteFile.pos = some size) :
    ∀ f, hpcrunWriteProfileData (smallProfile (earlier ++ [s])) = some f → f.bytes.length < 2 ^ 63 := by
  intro f run
  obtain ⟨-, length, -⟩ := hpcrunWriteProfileData_layout rfl rfl run
  rw [run] at written
  obtain rfl : f.pos = size := Option.some.inj written
  rwa [length]

lemma smallProfile_pos : (hpcrunWriteProfileData (smallProfile ([] ++ [smallEpoch 1]))).map ByteFile.pos = some 6256 ∧
    (hpcrunWriteProfileData (smallProfile ([smallEpoch 1] ++ [smallEpoch 2]))).map ByteFile.pos = some 11376 := by
  decide +kernel

/-- Two epochs, each with a load module. -/
def twoEpochs : ProfileData := smallProfile [smallEpoch 1, smallEpoch 2]

end

end HpcToolkit.Fmt
