import HpcToolkit.Fmt.SparseFile

/-! # The sparse metric section

The writer stores all values and then an index with the first value of each block; the reader finds a
block through two neighbouring index entries. Read back, a section yields its blocks in order, up to the
ids that the reader's codes cannot express: a node id returned as an `int` is positive only from 1 to
`2^31 - 1`, and the last metric id wraps to the code for the end of a block.
-/

open List
open Option (bind_some map_some)

open UInt32 (ofNat ofNat_add toNat_ofNat_of_lt')

namespace HpcToolkit.Fmt

open Lib Cct

/-! ## Writing -/

structure PmsId where
  kind : UInt16
  physicalIndex : UInt64
  logicalIndex : UInt64

def pmsIdFwrite (x : PmsId) : List UInt8 :=
  int2Fwrite x.kind ++ (int8Fwrite x.physicalIndex ++ int8Fwrite x.logicalIndex)

def idTupleFwrite (ids : List PmsId) : List UInt8 :=
  int2Fwrite (.ofNat ids.length) ++ ids.flatMap pmsIdFwrite

/-- `hpcrun_fmt_sparse_metrics_t` as it is written: values with their metric ids, node ids with their
indices. -/
structure SparseSection where
  idTuple : List PmsId
  numVals : UInt64
  numNzCctNodes : UInt32
  values : List (UInt16 × UInt64)
  index : List (UInt32 × UInt64)

/-- The counters of `for (unsigned int i = 0; i < n; ++i)` from `i` on. A counter that wraps below its
bound runs through the same values again and never ends. -/
def unsignedLoop (n i : ℕ) : Option (List ℕ) :=
  if n ≤ i then some []
  else if i + 1 < 2 ^ 32 then (unsignedLoop n (i + 1)).map (i :: ·)
  else none
termination_by 2 ^ 32 - i

def entryFwrite (e : UInt16 × UInt64) : List UInt8 := int8Fwrite e.2 ++ int2Fwrite e.1

def indexFwrite (e : UInt32 × UInt64) : List UInt8 := int4Fwrite e.1 ++ int8Fwrite e.2

/-- `hpcrun_fmt_sparse_metrics_fwrite`; no result when one of its loops does not end. -/
def hpcrunFmtSparseMetricsFwrite (x : SparseSection) : Option (List UInt8) := do
  let vals ← unsignedLoop x.numVals.toNat 0
  let idxs ← unsignedLoop (x.numNzCctNodes + 1).toNat 0
  return idTupleFwrite x.idTuple ++ (int8Fwrite x.numVals ++ (int4Fwrite x.numNzCctNodes ++
    (vals.flatMap (fun i => entryFwrite (x.values.getD i (0, 0))) ++
      idxs.flatMap fun i => indexFwrite (x.index.getD i (0, 0)))))

/-- The index of blocks whose first value has index `start`, closed by `LastNodeEnd`. -/
def blockIndex (start : ℕ) : List Block → List (UInt32 × UInt64)
  | [] => [(lastNodeEnd, .ofNat start)]
  | b :: rest => (b.id, .ofNat start) :: blockIndex (start + b.entries.length) rest

/-- The number of values of some blocks. -/
def totalOf (blocks : List Block) : ℕ := (blocks.map fun b => b.entries.length).sum

/-- Blocks with counts that the fields of the section can hold, the closing index entry included. -/
structure SparseInput where
  idTuple : List PmsId
  blocks : List Block
  tupleFits : idTuple.length < 2 ^ 16
  valuesFit : totalOf blocks < 2 ^ 64
  indexFits : blocks.length + 1 < 2 ^ 32

/-- The section with its matching index. -/
def SparseInput.section (x : SparseInput) : SparseSection where
  idTuple := x.idTuple
  numVals := .ofNat (totalOf x.blocks)
  numNzCctNodes := .ofNat x.blocks.length
  values := x.blocks.flatMap Block.entries
  index := blockIndex 0 x.blocks

lemma unsignedLoop_eq (n i : ℕ) (start : i < 2 ^ 32) :
    unsignedLoop n i = if n < 2 ^ 32 then some (range' i (n - i)) else none := by
  fun_induction unsignedLoop n i with
  | case1 i done =>
    rw [if_pos (done.trans_lt start), Nat.sub_eq_zero_of_le done]
    rfl
  | case2 i running below ih =>
    rw [ih below]
    split
    · have more : n - i = n - (i + 1) + 1 := by omega
      rw [more, range'_succ]
      rfl
    · rfl
  | case3 i running wraps => rw [if_neg (by omega)]

variable {α : Type}

lemma flatMap_range_getD (l : List α) (d : α) (f : α → List UInt8) :
    (range' 0 l.length).flatMap (fun i => f (l.getD i d)) = l.flatMap f := by
  have entries : (range' 0 l.length).map (fun i => l.getD i d) = l := by
    refine ext_getElem (by simp) fun i bound bound' => ?_
    simp [getD_eq_getElem?_getD, bound']
  conv_rhs => rw [← entries, flatMap_map]

@[simp] lemma length_blockIndex (start : ℕ) (blocks : List Block) :
    (blockIndex start blocks).length = blocks.length + 1 := by
  induction blocks generalizing start with
  | nil => rfl
  | cons b rest ih => rw [blockIndex, length_cons, ih, length_cons]

lemma length_values (blocks : List Block) : (blocks.flatMap Block.entries).length = totalOf blocks := by
  rw [length_flatMap, totalOf]

/-- The bytes of a section with fewer than `2^32` values. -/
def SparseInput.bytes (x : SparseInput) : List UInt8 :=
  idTupleFwrite x.idTuple ++ (int8Fwrite (.ofNat (totalOf x.blocks)) ++ (int4Fwrite (.ofNat x.blocks.length) ++
    ((x.blocks.flatMap Block.entries).flatMap entryFwrite ++ (blockIndex 0 x.blocks).flatMap indexFwrite)))

lemma SparseInput.toNat_numIndex (x : SparseInput) :
    (ofNat x.blocks.length + 1).toNat = x.blocks.length + 1 := by
  have count : (ofNat (x.blocks.length + 1)).toNat = x.blocks.length + 1 :=
    toNat_ofNat_of_lt' x.indexFits
  rwa [ofNat_add] at count

lemma hpcrunFmtSparseMetricsFwrite_eq (x : SparseInput) : hpcrunFmtSparseMetricsFwrite x.section =
    if totalOf x.blocks < 2 ^ 32 then some x.bytes else none := by
  have vals : (UInt64.ofNat (totalOf x.blocks)).toNat = totalOf x.blocks := UInt64.toNat_ofNat_of_lt' x.valuesFit
  have idxs := x.toNat_numIndex
  simp only [hpcrunFmtSparseMetricsFwrite, SparseInput.section, vals, idxs, unsignedLoop_eq _ 0 (by decide),
    if_pos x.indexFits, Nat.sub_zero]
  split
  · have whole := flatMap_range_getD (x.blocks.flatMap Block.entries) (0, 0) entryFwrite
    have index := flatMap_range_getD (blockIndex 0 x.blocks) (0, 0) indexFwrite
    rw [length_values] at whole
    rw [length_blockIndex] at index
    simp only [Option.bind_eq_bind, bind_some, Option.pure_def, whole, index]
    rfl
  · rfl

/-! ## Reading a section whole -/

def pmsIdFread : Reader PmsId := do
  let kind ← int2Fread
  let physicalIndex ← int8Fread
  let logicalIndex ← int8Fread
  return ⟨kind, physicalIndex, logicalIndex⟩

def idTupleFread : Reader (List PmsId) := do
  let length ← int2Fread
  readMany pmsIdFread length.toNat

def entryFread : Reader (UInt16 × UInt64) := do
  let bits ← int8Fread
  let mid ← int2Fread
  return (mid, bits)

def indexFread : Reader (UInt32 × UInt64) := do
  let id ← int4Fread
  let idx ← int8Fread
  return (id, idx)

/-- `for (unsigned int i = 0; i < n; ++i)` around a read. -/
def unsignedReads {α : Type} (reader : Reader α) (n : ℕ) : Reader (List α) :=
  match unsignedLoop n 0 with
  | some counters => readMany reader counters.length
  | none => failure

def hpcrunFmtSparseMetricsFread : Reader SparseSection := do
  let idTuple ← idTupleFread
  let numVals ← int8Fread
  let numNzCctNodes ← int4Fread
  let values ← unsignedReads entryFread numVals.toNat
  let index ← unsignedReads indexFread (numNzCctNodes + 1).toNat
  return ⟨idTuple, numVals, numNzCctNodes, values, index⟩

lemma reads_idTuple {ids : List PmsId} (fits : ids.length < 2 ^ 16) : Reads idTupleFread (idTupleFwrite ids) ids := by
  refine (reads_int2 _).bind ?_
  rw [UInt16.toNat_ofNat_of_lt' fits]
  apply reads_readMany
  intro x member
  exact (reads_int2 x.kind).bind ((reads_int8 x.physicalIndex).bind
    ((reads_int8 x.logicalIndex).map (PmsId.mk x.kind x.physicalIndex)))

lemma reads_entry (e : UInt16 × UInt64) : Reads entryFread (entryFwrite e) e :=
  (reads_int8 e.2).bind ((reads_int2 e.1).map fun mid => (mid, e.2))

lemma reads_index (e : UInt32 × UInt64) : Reads indexFread (indexFwrite e) e :=
  (reads_int4 e.1).bind ((reads_int8 e.2).map fun idx => (e.1, idx))

lemma reads_unsigned {reader : Reader α} {encode : α → List UInt8} {xs : List α} {n : ℕ}
    (each : ∀ x, Reads reader (encode x) x) (length : xs.length = n) (small : n < 2 ^ 32) :
    Reads (unsignedReads reader n) (xs.flatMap encode) xs := by
  rw [unsignedReads, unsignedLoop_eq n 0 (by decide), if_pos small]
  have counters : (range' 0 (n - 0)).length = xs.length := by rw [length_range', Nat.sub_zero, length]
  simp only [counters]
  exact reads_readMany fun x _ => each x

/-- The reader of whole sections inverts the writer, whatever the metric ids are. -/
theorem reads_sparseMetrics {x : SparseInput} (small : totalOf x.blocks < 2 ^ 32) :
    Reads hpcrunFmtSparseMetricsFread x.bytes x.section := by
  have vals : (UInt64.ofNat (totalOf x.blocks)).toNat = totalOf x.blocks := UInt64.toNat_ofNat_of_lt' x.valuesFit
  have idxs : (UInt32.ofNat x.blocks.length + 1).toNat = x.blocks.length + 1 := x.toNat_numIndex
  apply (reads_idTuple x.tupleFits).bind
  apply (reads_int8 _).bind
  apply (reads_int4 _).bind
  rw [vals, idxs]
  apply (reads_unsigned reads_entry (length_values x.blocks) small).bind
  exact (reads_unsigned reads_index (length_blockIndex 0 x.blocks) x.indexFits).map
    (SparseSection.mk x.idTuple _ _ _)

/-! ## Where the parts of a section stand -/

@[simp] lemma length_entryFwrite (e : UInt16 × UInt64) : (entryFwrite e).length = 10 := by simp [entryFwrite]

@[simp] lemma length_indexFwrite (e : UInt32 × UInt64) : (indexFwrite e).length = 12 := by simp [indexFwrite]

lemma length_idTupleFwrite (ids : List PmsId) : (idTupleFwrite ids).length = 2 + 18 * ids.length := by
  have fixed : ∀ x, (pmsIdFwrite x).length = 18 := fun x => by simp [pmsIdFwrite]
  rw [idTupleFwrite, length_append, length_int2Fwrite, length_flatMap_const fixed]

/-- `val_mid_offset` of a section at `smStart`. -/
def SparseInput.valOffset (x : SparseInput) (smStart : ℕ) : ℕ := smStart + (2 + 18 * x.idTuple.length) + 8 + 4

/-- `cct_node_id_idx_offset` of a section at `smStart`. -/
def SparseInput.idxOffset (x : SparseInput) (smStart : ℕ) : ℕ := x.valOffset smStart + 10 * totalOf x.blocks

lemma totalOf_append (blocks blocks' : List Block) :
    totalOf (blocks ++ blocks') = totalOf blocks + totalOf blocks' := by
  simp [totalOf]

lemma totalOf_cons (b : Block) (blocks : List Block) : totalOf (b :: blocks) = b.entries.length + totalOf blocks := by
  simp [totalOf]

lemma SparseInput.length_bytes (x : SparseInput) (smStart : ℕ) :
    smStart + x.bytes.length = x.idxOffset smStart + 12 * (x.blocks.length + 1) := by
  simp only [bytes, length_append, length_idTupleFwrite, length_int8Fwrite, length_int4Fwrite,
    length_flatMap_const length_entryFwrite, length_flatMap_const length_indexFwrite, length_values,
    length_blockIndex, idxOffset, valOffset]
  omega

/-- The file has the section of `x` where its footer says. -/
structure Located (x : SparseInput) (sf : SparseFile) : Prop where
  opened : sf.mode = .opened
  here : At sf.file.bytes sf.footer.smStart x.bytes
  ends : sf.footer.smEnd = sf.footer.smStart + x.bytes.length

section
variable {x : SparseInput} {sf : SparseFile}

lemma Located.header (located : Located x sf) :
    At sf.file.bytes sf.footer.smStart (int2Fwrite (.ofNat x.idTuple.length)) ∧
      At sf.file.bytes (sf.footer.smStart + (2 + 18 * x.idTuple.length)) (int8Fwrite (.ofNat (totalOf x.blocks))) ∧
      At sf.file.bytes (sf.footer.smStart + (2 + 18 * x.idTuple.length) + 8) (int4Fwrite (.ofNat x.blocks.length)) := by
  obtain ⟨tuple, rest⟩ := located.here.append
  obtain ⟨vals, rest⟩ := rest.append
  obtain ⟨count, -⟩ := rest.append
  rw [length_idTupleFwrite] at vals count
  exact ⟨tuple.append.1, vals, count⟩

lemma Located.values (located : Located x sf) :
    At sf.file.bytes (x.valOffset sf.footer.smStart) ((x.blocks.flatMap Block.entries).flatMap entryFwrite) := by
  obtain ⟨-, rest⟩ := located.here.append
  obtain ⟨-, rest⟩ := rest.append
  obtain ⟨-, rest⟩ := rest.append
  obtain ⟨values, -⟩ := rest.append
  rwa [length_idTupleFwrite] at values

lemma Located.index (located : Located x sf) :
    At sf.file.bytes (x.idxOffset sf.footer.smStart) ((blockIndex 0 x.blocks).flatMap indexFwrite) := by
  obtain ⟨-, rest⟩ := located.here.append
  obtain ⟨-, rest⟩ := rest.append
  obtain ⟨-, rest⟩ := rest.append
  obtain ⟨-, index⟩ := rest.append
  rwa [length_idTupleFwrite, length_int8Fwrite, length_int4Fwrite, length_flatMap_const length_entryFwrite,
    length_values] at index

lemma blockIndex_append (start : ℕ) (done rest : List Block) : ∃ front : List (UInt32 × UInt64),
    blockIndex start (done ++ rest) = front ++ blockIndex (start + totalOf done) rest ∧
      front.length = done.length := by
  induction done generalizing start with
  | nil => exact ⟨[], rfl, rfl⟩
  | cons b done ih =>
    obtain ⟨front, whole, length⟩ := ih (start + b.entries.length)
    refine ⟨(b.id, .ofNat start) :: front, ?_, by rw [length_cons, length, length_cons]⟩
    rw [cons_append, blockIndex, whole, totalOf_cons, cons_append, Nat.add_assoc]

lemma blockIndex_head (start : ℕ) (blocks : List Block) : ∃ id rest,
    blockIndex start blocks = (id, .ofNat start) :: rest := by
  cases blocks with
  | nil => exact ⟨_, _, rfl⟩
  | cons b rest => exact ⟨_, _, rfl⟩

lemma Located.indexEntry (located : Located x sf) {done rest : List Block} {b : Block}
    (split : x.blocks = done ++ b :: rest) : ∃ nextId : UInt32,
    At sf.file.bytes (x.idxOffset sf.footer.smStart + 12 * done.length)
      (int4Fwrite b.id ++ (int8Fwrite (.ofNat (totalOf done)) ++ (int4Fwrite nextId ++
        int8Fwrite (.ofNat (totalOf done + b.entries.length))))) := by
  obtain ⟨front, whole, length⟩ := blockIndex_append 0 done (b :: rest)
  obtain ⟨nextId, tail, next⟩ := blockIndex_head (0 + totalOf done + b.entries.length) rest
  have index := located.index
  rw [split, whole, blockIndex, next, flatMap_append, flatMap_cons, flatMap_cons] at index
  obtain ⟨-, index⟩ := index.append
  rw [length_flatMap_const length_indexFwrite, length, Nat.zero_add, indexFwrite, indexFwrite,
    ← append_assoc] at index
  obtain ⟨index, -⟩ := index.append
  rw [append_assoc] at index
  exact ⟨nextId, index⟩

lemma Located.blockValues (located : Located x sf) {done rest : List Block} {b : Block}
    (split : x.blocks = done ++ b :: rest) :
    At sf.file.bytes (x.valOffset sf.footer.smStart + 10 * totalOf done) (b.entries.flatMap entryFwrite) := by
  have values := located.values
  rw [split, flatMap_append, flatMap_append, flatMap_cons, flatMap_append] at values
  obtain ⟨-, values⟩ := values.append
  rw [length_flatMap_const length_entryFwrite, length_values] at values
  exact values.append.1

/-! ## One block -/

lemma reads_readBE_int8 {n : ℕ} (bound : n < 2 ^ 64) : Reads (readBE 8) (int8Fwrite (.ofNat n)) n := by
  rw [int8Fwrite, UInt64.toNat_ofNat_of_lt' bound]
  exact reads_readBE 8 n bound

/-- The counters and offsets that the first call of `hpcrun_sparse_next_block` sets. -/
structure Initialised (x : SparseInput) (sf : SparseFile) : Prop where
  numNzCctNodes : sf.numNzCctNodes = .ofNat x.blocks.length
  valMidOffset : sf.valMidOffset = x.valOffset sf.footer.smStart
  cctNodeIdIdxOffset : sf.cctNodeIdIdxOffset = x.idxOffset sf.footer.smStart

lemma initBlocks_apply (located : Located x sf) : ∃ sf', initBlocks sf = some ((), sf') ∧ Located x sf' ∧
    Initialised x sf' ∧ sf'.smBlockTouched = sf.smBlockTouched ∧ sf'.footer = sf.footer ∧
    sf'.startPos = sf.startPos ∧ sf'.endPos = sf.endPos := by
  obtain ⟨tuple, vals, count⟩ := located.header
  have length : (UInt16.ofNat x.idTuple.length).toNat = x.idTuple.length := UInt16.toNat_ofNat_of_lt' x.tupleFits
  have readTuple := readFrom_seek (reads_int2 _) tuple
  have readVals := readFrom_seek (reads_readBE_int8 x.valuesFit) vals
  have readCount := readFrom_seek (reads_int4 _) count
  rw [length_int8Fwrite] at readVals
  have run : initBlocks sf = some ((), { sf.seek (sf.footer.smStart + (2 + 18 * x.idTuple.length) + 8 + 4) with
      numNzval := totalOf x.blocks
      numNzCctNodes := .ofNat x.blocks.length
      valMidOffset := x.valOffset sf.footer.smStart
      cctNodeIdIdxOffset := x.idxOffset sf.footer.smStart }) := by
    simp only [initBlocks, bind_apply, get_apply, bind_some, seek_apply, readTuple, seek_seek,
      pmsIdTupleLenSize, pmsIdSize, length, readVals, readCount, modify_apply, length_int4Fwrite]
    rfl
  exact ⟨_, run, ⟨located.opened, located.here, located.ends⟩, ⟨rfl, rfl, rfl⟩, rfl, rfl, rfl, rfl⟩

/-- What a call that finds a block leaves behind. -/
def SparseFile.atBlock (sf : SparseFile) (start finish : ℕ) : SparseFile :=
  { sf.seek start with
    curBlockStart := start
    curBlockEnd := finish
    smBlockTouched := sf.smBlockTouched + 1 }

lemma findBlock_apply (located : Located x sf) (init : Initialised x sf) {done rest : List Block} {b : Block}
    (split : x.blocks = done ++ b :: rest) (touched : sf.smBlockTouched = .ofNat done.length) :
    findBlock sf = some (asInt b.id, sf.atBlock (x.valOffset sf.footer.smStart + 10 * totalOf done)
      (x.valOffset sf.footer.smStart + 10 * (totalOf done + b.entries.length))) := by
  have count : x.blocks.length = done.length + (rest.length + 1) := by rw [split]; simp
  have fits := x.indexFits
  have small : (ofNat done.length).toNat = done.length :=
    toNat_ofNat_of_lt' (show done.length < 2 ^ 32 by omega)
  have more : sf.smBlockTouched ≠ sf.numNzCctNodes := by
    rw [touched, init.numNzCctNodes]
    intro same
    have same := congrArg UInt32.toNat same
    rw [small, toNat_ofNat_of_lt' (show x.blocks.length < 2 ^ 32 by omega)] at same
    omega
  have total : totalOf done + b.entries.length < 2 ^ 64 := by
    have valuesFit := x.valuesFit
    rw [split, totalOf_append, totalOf_cons] at valuesFit
    omega
  have offset : sf.cctNodeIdIdxOffset + (sfCctNodeIdSize + sfCctNodeIdxSize) * sf.smBlockTouched.toNat =
      x.idxOffset sf.footer.smStart + 12 * done.length := by
    rw [init.cctNodeIdIdxOffset, touched, small]
    rfl
  have inside : ¬sf.footer.smEnd < x.idxOffset sf.footer.smStart + 12 * done.length := by
    rw [located.ends, x.length_bytes, count]
    omega
  obtain ⟨nextId, entry⟩ := located.indexEntry split
  obtain ⟨id, entry⟩ := entry.append
  obtain ⟨start, entry⟩ := entry.append
  obtain ⟨-, next⟩ := entry.append
  have readId := readFrom_seek (reads_int4 _) id
  have readStart := readFrom_seek (reads_readBE_int8 (by omega)) start
  have readNext := readFrom_seek (reads_readBE_int8 total) next
  simp only [length_int4Fwrite, length_int8Fwrite] at readId readStart readNext
  have skip : x.idxOffset sf.footer.smStart + 12 * done.length + 4 + 8 + sfCctNodeIdSize =
      x.idxOffset sf.footer.smStart + 12 * done.length + 4 + 8 + 4 := rfl
  simp only [findBlock, bind_apply, get_apply, bind_some, if_apply, more, offset, inside, if_false,
    seek_apply, readId, readStart, tell_apply, pos_seek, seek_seek, skip, readNext, modify_apply, pure_apply]
  rw [init.valMidOffset]
  simp only [SparseFile.seek, SparseFile.atBlock, init.valMidOffset, sfEntrySize]

/-! ## The entries of a block -/

/-- An entry as `hpcrun_sparse_next_entry` returns it. -/
def entryCode (e : UInt16 × UInt64) : ℤ × UInt64 := ((e.1 + 1).toNat, e.2)

/-- A reader inside the block that `base` has just found: it differs from `base` in its position, and the
entries still ahead stand there and reach to the end of the block. -/
def EntryInv (base : SparseFile) (xs : List (ℤ × UInt64)) (sf : SparseFile) : Prop :=
  ∃ (entries : List (UInt16 × UInt64)) (pos cur : ℕ), xs = entries.map entryCode ∧
    sf = { base.seek pos with curPos := cur } ∧
    base.curBlockStart ≤ pos ∧ pos + 10 * entries.length = base.curBlockEnd ∧
    At base.file.bytes pos (entries.flatMap entryFwrite)

/-- The conditions under which `hpcrun_sparse_next_entry` reads. -/
structure BlockFound (base : SparseFile) : Prop where
  opened : base.mode = .opened
  touched : base.smBlockTouched ≠ 0
  inside : base.curBlockEnd ≤ base.footer.smEnd

variable {base : SparseFile}

lemma nextEntry_finish (found : BlockFound base)
    (start : base.curBlockStart ≤ base.file.pos) (done : base.file.pos = base.curBlockEnd) :
    hpcrunSparseNextEntry base = some ((0, none), base) := by
  have inside := found.inside
  have inSection : ¬(base.footer.smEnd < base.file.pos ∨ base.footer.smEnd < base.curBlockStart ∨
      base.footer.smEnd < base.curBlockEnd) := by omega
  have inBlock : ¬(base.file.pos < base.curBlockStart ∨ base.curBlockEnd < base.file.pos) := by omega
  simp only [hpcrunSparseNextEntry, bind_apply, checkMode_apply found.opened, get_apply, bind_some, if_apply,
    found.touched, inSection, inBlock, if_false, if_pos done, pure_apply]

lemma nextEntry_step (found : BlockFound base) {e : UInt16 × UInt64}
    (start : base.curBlockStart ≤ base.file.pos) (more : base.file.pos + 10 ≤ base.curBlockEnd)
    (here : At base.file.bytes base.file.pos (entryFwrite e)) :
    hpcrunSparseNextEntry base =
      some (((entryCode e).1, some (entryCode e).2), base.seek (base.file.pos + 10)) := by
  have inside := found.inside
  have inSection : ¬(base.footer.smEnd < base.file.pos ∨ base.footer.smEnd < base.curBlockStart ∨
      base.footer.smEnd < base.curBlockEnd) := by omega
  have inBlock : ¬(base.file.pos < base.curBlockStart ∨ base.curBlockEnd < base.file.pos) := by omega
  have ahead : base.file.pos ≠ base.curBlockEnd := by omega
  obtain ⟨val, mid⟩ := here.append
  have readVal := readFrom_seek (reads_int8 _) val
  have readMid := readFrom_seek (reads_int2 _) mid
  rw [seek_self] at readVal
  rw [length_int8Fwrite, length_int2Fwrite] at readMid
  simp only [hpcrunSparseNextEntry, bind_apply, checkMode_apply found.opened, get_apply, bind_some, if_apply,
    found.touched, inSection, inBlock, ahead, if_false, readVal, length_int8Fwrite, readMid, pure_apply]
  rfl

lemma enumerates_entries (found : BlockFound base) :
    Enumerates hpcrunSparseNextEntry (EntryInv base) where
  opened := by
    rintro xs sf ⟨entries, pos, cur, rfl, rfl, -⟩
    exact found.opened
  curPos := by
    rintro xs sf cur' ⟨entries, pos, cur, rfl, rfl, rest⟩
    exact ⟨entries, pos, cur', rfl, rfl, rest⟩
  finish := by
    rintro sf ⟨entries, pos, cur, none, rfl, start, finish, here⟩
    obtain rfl := map_eq_nil_iff.mp none.symm
    have found' : BlockFound { base.seek pos with curPos := cur } := ⟨found.opened, found.touched, found.inside⟩
    exact ⟨_, nextEntry_finish found' start finish, [], pos, cur, rfl, rfl, start, finish, here⟩
  step := by
    rintro code val xs sf ⟨entries, pos, cur, cons, rfl, start, finish, here⟩
    obtain ⟨e, rest, rfl, code_eq, rfl⟩ := map_eq_cons_iff.mp cons.symm
    obtain ⟨rfl, rfl⟩ := Prod.mk.injEq _ _ _ _ ▸ code_eq
    rw [flatMap_cons] at here
    rw [length_cons] at finish
    obtain ⟨entry, here⟩ := here.append
    rw [length_entryFwrite] at here
    have found' : BlockFound { base.seek pos with curPos := cur } := ⟨found.opened, found.touched, found.inside⟩
    have more : pos + 10 ≤ base.curBlockEnd := by omega
    have run := nextEntry_step found' start more entry
    exact ⟨_, run, rest, pos + 10, cur, rfl, rfl, by omega, by omega, here⟩

lemma EntryInv.inRange {xs : List (ℤ × UInt64)} (inv : EntryInv base xs sf)
    (low : base.startPos ≤ base.curBlockStart) (high : base.curBlockEnd < base.endPos) : sf.InRange := by
  obtain ⟨entries, pos, cur, rfl, rfl, start, finish, -⟩ := inv
  have low' : base.startPos ≤ pos := by omega
  have high' : pos < base.endPos := by omega
  exact ⟨low', high'⟩

/-! ## All blocks -/

/-- A reader between two blocks. Where `pausing`, the section and the position lie in the file image. -/
structure BlockInv (pausing : Prop) (x : SparseInput) (done rest : List Block) (sf : SparseFile) : Prop where
  located : Located x sf
  split : x.blocks = done ++ rest
  touched : sf.smBlockTouched = .ofNat done.length
  initialised : done ≠ [] → Initialised x sf
  inRange : pausing → sf.InRange ∧ sf.startPos ≤ sf.footer.smStart ∧ sf.footer.smEnd < sf.endPos

variable {pausing : Prop} {done rest : List Block} {b : Block}

lemma BlockInv.count (inv : BlockInv pausing x done rest sf) : done.length + rest.length + 1 < 2 ^ 32 := by
  have fits := x.indexFits
  rwa [inv.split, length_append] at fits

lemma BlockInv.curPos (inv : BlockInv pausing x done rest sf) (cur : ℕ) :
    BlockInv pausing x done rest { sf with curPos := cur } :=
  ⟨⟨inv.located.opened, inv.located.here, inv.located.ends⟩, inv.split, inv.touched,
    fun more => ⟨(inv.initialised more).1, (inv.initialised more).2, (inv.initialised more).3⟩, inv.inRange⟩

lemma BlockInv.nextBlock (inv : BlockInv pausing x done rest sf) : ∃ sf', Located x sf' ∧ Initialised x sf' ∧
    sf'.smBlockTouched = sf.smBlockTouched ∧ sf'.footer = sf.footer ∧ sf'.startPos = sf.startPos ∧
    sf'.endPos = sf.endPos ∧ hpcrunSparseNextBlock sf = findBlock sf' := by
  rcases eq_or_ne done [] with none | some
  · obtain ⟨sf', run, located, init, same⟩ := initBlocks_apply inv.located
    have first : sf.smBlockTouched = 0 := by
      rw [inv.touched, none]
      rfl
    refine ⟨sf', located, init, same.1, same.2.1, same.2.2.1, same.2.2.2, ?_⟩
    simp only [hpcrunSparseNextBlock, bind_apply, checkMode_apply inv.located.opened, get_apply, bind_some,
      if_apply, first, if_true, run]
  · have count := inv.count
    have positive : 0 < done.length := length_pos_iff.mpr some
    have later : sf.smBlockTouched ≠ 0 := by
      intro zero
      have zero := congrArg UInt32.toNat (inv.touched.symm.trans zero)
      rw [toNat_ofNat_of_lt' (show done.length < 2 ^ 32 by omega)] at zero
      have zero : done.length = 0 := zero
      omega
    refine ⟨sf, inv.located, inv.initialised some, rfl, rfl, rfl, rfl, ?_⟩
    simp only [hpcrunSparseNextBlock, bind_apply, checkMode_apply inv.located.opened, get_apply, bind_some,
      if_apply, later, if_false]

lemma BlockInv.finish (inv : BlockInv pausing x done [] sf) :
    ∃ sf', hpcrunSparseNextBlock sf = some (0, sf') := by
  obtain ⟨sf', -, init, touched, -, -, -, run⟩ := inv.nextBlock
  have split := inv.split
  rw [append_nil] at split
  have all : sf'.smBlockTouched = sf'.numNzCctNodes := by rw [touched, inv.touched, init.numNzCctNodes, split]
  refine ⟨sf', ?_⟩
  simp only [run, findBlock, bind_apply, get_apply, bind_some, if_apply, if_pos all, pure_apply]

lemma BlockInv.step (inv : BlockInv pausing x done (b :: rest) sf) : ∃ base,
    hpcrunSparseNextBlock sf = some (asInt b.id, base) ∧ BlockFound base ∧
    EntryInv base (b.entries.map entryCode) base ∧
    (pausing → base.startPos ≤ base.curBlockStart ∧ base.curBlockEnd < base.endPos) ∧
    ∀ xs sf', EntryInv base xs sf' → BlockInv pausing x (done ++ [b]) rest sf' := by
  obtain ⟨sf', located, init, touched, footer, startPos, endPos, run⟩ := inv.nextBlock
  have count := inv.count
  rw [length_cons] at count
  have found := findBlock_apply located init inv.split (touched.trans inv.touched)
  have values := located.blockValues inv.split
  have total : totalOf done + b.entries.length ≤ totalOf x.blocks := by
    rw [inv.split, totalOf_append, totalOf_cons]
    omega
  have ends := located.ends
  rw [x.length_bytes, SparseInput.idxOffset] at ends
  have start : sf'.footer.smStart ≤ x.valOffset sf'.footer.smStart := by
    rw [SparseInput.valOffset]
    omega
  have touched' : sf'.smBlockTouched + 1 = ofNat (done.length + 1) := by
    rw [touched, inv.touched, ofNat_add]
    rfl
  have touched_ne : sf'.smBlockTouched + 1 ≠ 0 := by
    rw [touched']
    intro zero
    have zero := congrArg UInt32.toNat zero
    rw [toNat_ofNat_of_lt' (show done.length + 1 < 2 ^ 32 by omega)] at zero
    cases zero
  generalize blockStart : x.valOffset sf'.footer.smStart + 10 * totalOf done = start' at found values
  generalize blockEnd : x.valOffset sf'.footer.smStart + 10 * (totalOf done + b.entries.length) = end' at found
  have inside : end' ≤ sf'.footer.smEnd := by omega
  have range : pausing → sf'.startPos ≤ start' ∧ end' < sf'.endPos := by
    intro paused
    obtain ⟨-, low, high⟩ := inv.inRange paused
    rw [← footer, ← startPos] at low
    rw [← footer, ← endPos] at high
    omega
  refine ⟨_, run.trans found, ⟨located.opened, touched_ne, inside⟩, ?_, range, ?_⟩
  · have length : start' + 10 * b.entries.length = end' := by omega
    exact ⟨b.entries, start', sf'.curPos, rfl, rfl, le_rfl, length, values⟩
  · intro xs last entryInv
    have lastRange : pausing → last.InRange := fun paused => entryInv.inRange (range paused).1 (range paused).2
    obtain ⟨entries, pos, cur, -, rfl, -⟩ := entryInv
    refine ⟨⟨located.opened, located.here, located.ends⟩, by simp [inv.split], ?_, fun _ => ?_, fun paused => ?_⟩
    · rw [length_append]
      exact touched'
    · exact ⟨init.numNzCctNodes, init.valMidOffset, init.cctNodeIdIdxOffset⟩
    · obtain ⟨-, low, high⟩ := inv.inRange paused
      rw [← footer, ← startPos] at low
      rw [← footer, ← endPos] at high
      exact ⟨lastRange paused, low, high⟩

/-! ## The round trip -/

/-- The ids that the codes of the reader can express. -/
def Block.Expressible (b : Block) : Prop :=
  (0 < b.id.toNat ∧ b.id.toNat < 2 ^ 31) ∧ ∀ e ∈ b.entries, e.1 ≠ 0xffff

lemma asInt_of_lt {v : UInt32} (small : v.toNat < 2 ^ 31) : asInt v = v.toNat := by
  rw [asInt, if_pos small]

lemma asInt_pos_iff (v : UInt32) : 0 < asInt v ↔ 0 < v.toNat ∧ v.toNat < 2 ^ 31 := by
  constructor
  · intro positive
    have bound := v.toNat_lt
    rw [asInt] at positive
    split at positive <;> omega
  · rintro ⟨positive, small⟩
    rw [asInt_of_lt small]
    omega

lemma toNat_add_one {v : UInt16} (notLast : v ≠ 0xffff) : (v + 1).toNat = v.toNat + 1 := by
  have bound : v.toNat ≠ 65535 := fun last => notLast (UInt16.toNat_inj.mp last)
  have range := v.toNat_lt
  rw [UInt16.toNat_add, UInt16.toNat_one]
  omega

lemma entryCode_pos_iff (e : UInt16 × UInt64) : 0 < (entryCode e).1 ↔ e.1 ≠ 0xffff := by
  constructor
  · rintro positive last
    rw [entryCode, last] at positive
    exact absurd positive (lt_irrefl (0 : ℤ))
  · intro notLast
    rw [entryCode, toNat_add_one notLast]
    omega

lemma decode_entryCode {entries : List (UInt16 × UInt64)} (notLast : ∀ e ∈ entries, e.1 ≠ 0xffff) :
    (entries.map entryCode).map (fun (mid, val) => (UInt16.ofNat (mid - 1).toNat, val)) = entries := by
  rw [map_map]
  refine (map_congr_left fun e member => ?_).trans (map_id _)
  have code : ((((e.1 + 1).toNat : ℤ) - 1).toNat) = e.1.toNat := by
    rw [toNat_add_one (notLast e member)]
    omega
  simp only [Function.comp_apply, entryCode, code, UInt16.ofNat_toNat, id_eq]

variable {pauses : List Bool}

lemma BlockInv.call (inv : BlockInv pausing x done rest sf) (pausable : pauses = [] ∨ pausing) :
    ∃ sf', BlockInv pausing x done rest sf' ∧ call hpcrunSparseNextBlock (sf, pauses) =
      (hpcrunSparseNextBlock sf').map fun p => (p.1, p.2, pauses.tail) := by
  obtain ⟨cur, called⟩ := call_eq hpcrunSparseNextBlock inv.located.opened
    (pausable.imp_right fun paused => (inv.inRange paused).1)
  exact ⟨_, inv.curPos cur, called⟩

variable {fuel : ℕ}

lemma enumerateBlocks_complete (inv : BlockInv pausing x done rest sf)
    (pausable : pauses = [] ∨ pausing) (expressible : ∀ b ∈ rest, b.Expressible)
    (enough : rest.length + totalOf rest < fuel) :
    ∃ last, enumerateBlocks fuel (sf, pauses) = some (rest, last) := by
  induction rest generalizing done sf pauses fuel with
  | nil =>
    obtain ⟨fuel, rfl⟩ : ∃ n, fuel = n + 1 := ⟨fuel - 1, by omega⟩
    obtain ⟨sf', inv', called⟩ := inv.call pausable
    obtain ⟨last, run⟩ := inv'.finish
    rw [run] at called
    refine ⟨(last, pauses.tail), ?_⟩
    simp [enumerateBlocks, called]
  | cons b rest ih =>
    obtain ⟨fuel, rfl⟩ : ∃ n, fuel = n + 1 := ⟨fuel - 1, by omega⟩
    rw [length_cons, totalOf_cons] at enough
    obtain ⟨sf', inv', called⟩ := inv.call pausable
    obtain ⟨base, run, found, entryInv, range, next⟩ := inv'.step
    rw [run] at called
    obtain ⟨⟨positive, small⟩, notLast⟩ := expressible b (.head _)
    have pausable' : pauses.tail = [] ∨ pausing := pausable.imp_left fun none => by rw [none, tail_nil]
    have codes : ∀ y ∈ b.entries.map entryCode, 0 < y.1 := by
      intro y member
      obtain ⟨e, entry, rfl⟩ := mem_map.mp member
      exact (entryCode_pos_iff e).mpr (notLast e entry)
    obtain ⟨sf'', pauses', entriesRun, finished, quiet⟩ := (enumerates_entries found).complete
      (pausable'.imp_right fun paused => fun inv => inv.inRange (range paused).1 (range paused).2) codes
      (show (b.entries.map entryCode).length < fuel by rw [length_map]; omega) entryInv
    have enough' : rest.length + totalOf rest < fuel := by omega
    obtain ⟨last, restRun⟩ := ih (next _ sf'' finished) (pausable'.imp_left quiet)
      (fun b' member => expressible b' (.tail _ member)) enough'
    have code : asInt b.id = b.id.toNat := asInt_of_lt small
    have id : ofNat (asInt b.id).toNat = b.id := by rw [code, Int.toNat_natCast, UInt32.ofNat_toNat]
    have ahead : ¬asInt b.id < 0 ∧ asInt b.id ≠ 0 := by omega
    refine ⟨last, ?_⟩
    simp only [enumerateBlocks, bind_apply, called, map_some, bind_some, ahead.1, ahead.2, if_false,
      entriesRun, restRun, pure_apply, id, decode_entryCode notLast]

/-- An enumeration of blocks that ends has met no more than there are, and if it has met all of them as they
were written, their ids are expressible. -/
lemma enumerateBlocks_sound (inv : BlockInv pausing x done rest sf)
    (pausable : pauses = [] ∨ pausing) {blocks : List Block} {last : SparseFile × List Bool}
    (run : enumerateBlocks fuel (sf, pauses) = some (blocks, last)) :
    blocks.length ≤ rest.length ∧ (blocks = rest → ∀ b ∈ rest, b.Expressible) := by
  induction rest generalizing done sf pauses fuel blocks last with
  | nil =>
    obtain ⟨sf', inv', called⟩ := inv.call pausable
    obtain ⟨finished, found⟩ := inv'.finish
    rw [found] at called
    cases fuel with
    | zero => cases run
    | succ fuel =>
      simp only [enumerateBlocks, bind_apply, called, map_some, bind_some, lt_irrefl, if_false, if_true,
        pure_apply] at run
      obtain ⟨rfl, -⟩ : [] = blocks ∧ _ := by simpa using run
      simp
  | cons b rest ih =>
    obtain ⟨sf', inv', called⟩ := inv.call pausable
    obtain ⟨base, found, blockFound, entryInv, range, next⟩ := inv'.step
    rw [found] at called
    have pausable' : pauses.tail = [] ∨ pausing := pausable.imp_left fun none => by rw [none, tail_nil]
    cases fuel with
    | zero => cases run
    | succ fuel =>
      simp only [enumerateBlocks, bind_apply, called, map_some, bind_some] at run
      rcases lt_trichotomy (asInt b.id) 0 with negative | zero | positive
      · simp [negative] at run
      · simp only [zero, lt_irrefl, if_false, if_true, pure_apply] at run
        obtain ⟨rfl, -⟩ : [] = blocks ∧ _ := by simpa using run
        simp
      · simp only [positive.not_gt, positive.ne', if_false, pure_apply, bind_apply] at run
        obtain ⟨⟨entries, sf'', pauses'⟩, entriesRun, run⟩ := Option.bind_eq_some_iff.mp run
        obtain ⟨⟨tail, state⟩, restRun, same⟩ := Option.bind_eq_some_iff.mp run
        obtain ⟨whole, -⟩ := Prod.mk.inj (Option.some.inj same)
        obtain ⟨zs, split, codes, finished, quiet⟩ := (enumerates_entries blockFound).sound
          (pausable'.imp_right fun paused => fun inv => inv.inRange (range paused).1 (range paused).2)
          entryInv entriesRun
        obtain ⟨length, expressible⟩ := ih (next _ sf'' finished) (pausable'.imp_left quiet) restRun
        rw [← whole, length_cons, length_cons]
        refine ⟨Nat.succ_le_succ length, ?_⟩
        rintro same b' member
        obtain ⟨first, rfl⟩ := cons.inj same
        rcases mem_cons.mp member with rfl | member
        · have count : entries.length = b'.entries.length := by rw [← first, length_map]
          have none : zs = [] := by
            have lengths := congrArg List.length split
            rw [length_append, length_map] at lengths
            exact length_eq_zero_iff.mp (by omega)
          rw [none, append_nil] at split
          refine ⟨(asInt_pos_iff _).mp positive, fun e entry => ?_⟩
          exact (entryCode_pos_iff e).mp (codes _ (split ▸ mem_map_of_mem entry))
        · exact expressible rfl b' member

/-- An open file, before its first block, that has a section with the given bytes. -/
def SparseFile.over (sf : SparseFile) (before bytes after : List UInt8) : SparseFile :=
  { sf with
    file := ⟨before ++ bytes ++ after, sf.file.pos⟩
    footer := { sf.footer with smStart := before.length, smEnd := before.length + bytes.length }
    mode := .opened
    smBlockTouched := 0 }

/-- The loops over blocks and entries yield the blocks that were written, wherever the section stands. -/
def SparseInput.RoundTrips (x : SparseInput) (sf : SparseFile) (before after : List UInt8) : Prop :=
  ∃ bytes fuel last, hpcrunFmtSparseMetricsFwrite x.section = some bytes ∧
    enumerateBlocks fuel (sf.over before bytes after, []) = some (x.blocks, last)

lemma blockInv_over (x : SparseInput) (sf : SparseFile) (before after : List UInt8) :
    BlockInv False x [] x.blocks (sf.over before x.bytes after) where
  located := ⟨rfl, at_self before x.bytes after, rfl⟩
  split := rfl
  touched := rfl
  initialised := fun some => absurd rfl some
  inRange := False.elim

lemma SparseInput.RoundTrips.expressible {before after : List UInt8} (trip : x.RoundTrips sf before after) :
    totalOf x.blocks < 2 ^ 32 ∧ ∀ b ∈ x.blocks, b.Expressible := by
  obtain ⟨bytes, fuel, last, written, run⟩ := trip
  rw [hpcrunFmtSparseMetricsFwrite_eq] at written
  split at written
  · rename_i small
    obtain rfl : x.bytes = bytes := Option.some.inj written
    exact ⟨small, (enumerateBlocks_sound (blockInv_over x sf before after) (.inl rfl) run).2 rfl⟩
  · cases written

/-- One block for node 1 with a single entry for metric `0xffff`. -/
def lastMetricId : SparseInput where
  idTuple := []
  blocks := [⟨1, [(0xffff, 5)]⟩]
  tupleFits := by decide
  valuesFit := by decide
  indexFits := by decide

/-- A file without contents. -/
def emptyFile : SparseFile := newSparseFile ⟨[], 0⟩ ⟨0, 0, 0, 0, 0, 0, 0, 0, 0, 0, 0, 0, 0⟩ 0 0

end

theorem lastMetricId_read : Reads hpcrunFmtSparseMetricsFread lastMetricId.bytes lastMetricId.section :=
  reads_sparseMetrics (by decide)

end HpcToolkit.Fmt
