import HpcToolkit.Fmt.SparseFile

/-! # The metric section of arbitrary files

`hpcrun_sparse_next_block` and `hpcrun_sparse_next_entry` on any bytes: offsets are computed in `size_t`, the
product with the number of blocks in 32 bits, a seek to an offset that is negative as a `long` fails, and a call that
fails keeps what it has changed. Each call that succeeds uses up a block of the index or ten bytes of the file.
-/

namespace HpcToolkit.Fmt.Raw

open Lib Cct

/-- Functions over an open file; failing is returning `SF_ERR`. -/
abbrev SectionM (α : Type) := OptionT (StateM SparseFile) α

def sizeT (n : ℕ) : ℕ := n % 2 ^ 64

/-- `fseek(sparse_fs->file, off, SEEK_SET)`, with the result ignored. -/
def fseek (off : ℕ) : SectionM Unit :=
  modify fun sf => if sizeT off < 2 ^ 63 then sf.seek (sizeT off) else sf

/-- `hpcfmt_int2_fread`, `hpcfmt_int4_fread` and `hpcfmt_int8_fread` under `HPCFMT_ThrowIfError`. -/
def fread (width : ℕ) : SectionM ℕ := fun sf =>
  if sf.file.pos + width ≤ sf.file.bytes.length then
    (some (ofBE ((sf.file.bytes.drop sf.file.pos).take width)), sf.seek (sf.file.pos + width))
  else (none, sf.seek (max sf.file.pos sf.file.bytes.length))

/-- A check that returns `SF_ERR` if it fails. -/
def check (passes : Prop) [Decidable passes] : SectionM Unit :=
  if passes then pure () else failure

def checkMode (expected : Mode) : SectionM Unit := do
  check ((← get).mode = expected)

/-- The first-time initialization of `hpcrun_sparse_next_block`. -/
def initBlocks : SectionM Unit := do
  let smStart := (← get).footer.smStart
  fseek smStart
  let idTupleLength ← fread 2
  let idTupleSize := pmsIdTupleLenSize + pmsIdSize * idTupleLength
  fseek (smStart + idTupleSize)
  let numNzval ← fread 8
  modify fun sf => { sf with numNzval := numNzval }
  let numNzCctNodes ← fread 4
  let valMidOffset := sizeT (smStart + idTupleSize + sfNumValSize + sfNumNzCctNodeSize)
  modify fun sf => { sf with
    numNzCctNodes := .ofNat numNzCctNodes
    valMidOffset := valMidOffset
    cctNodeIdIdxOffset := sizeT (valMidOffset + sfEntrySize * numNzval) }

/-- `hpcrun_sparse_next_block` behind its initialization. There is no result at the end of the list. -/
def findBlock : SectionM (Option ℤ) := do
  let sf ← get
  if sf.smBlockTouched = sf.numNzCctNodes then return none
  let realoffset := sizeT (sf.cctNodeIdIdxOffset +
    (sfCctNodeIdSize + sfCctNodeIdxSize) * sf.smBlockTouched.toNat % 2 ^ 32)
  check (realoffset ≤ sf.footer.smEnd)
  fseek realoffset
  let cctNodeId ← fread 4
  let valMidIdx ← fread 8
  modify fun sf => { sf with
    curBlockStart := sizeT (sf.valMidOffset + sfEntrySize * valMidIdx)
    file := { sf.file with pos := sf.file.pos + sfCctNodeIdSize } }
  let nextBlockStartIdx ← fread 8
  modify fun sf => { sf with
    curBlockEnd := sizeT (sf.valMidOffset + sfEntrySize * nextBlockStartIdx)
    smBlockTouched := sf.smBlockTouched + 1 }
  fseek (sf.valMidOffset + sfEntrySize * valMidIdx)
  return some (asInt (.ofNat cctNodeId))

/-- `hpcrun_sparse_next_block`: the node id as an `int`, or nothing at the end of the list. -/
def hpcrunSparseNextBlock : SectionM (Option ℤ) := do
  checkMode .opened
  if (← get).smBlockTouched = 0 then initBlocks
  findBlock

/-- `hpcrun_sparse_next_entry`: the metric id counted from 1 in 16 bits and the value, or nothing at the end of the
block. -/
def hpcrunSparseNextEntry : SectionM (Option (ℤ × UInt64)) := do
  checkMode .opened
  let sf ← get
  check (sf.smBlockTouched ≠ 0)
  let curPos := sf.file.pos
  check (curPos ≤ sf.footer.smEnd ∧ sf.curBlockStart ≤ sf.footer.smEnd ∧ sf.curBlockEnd ≤ sf.footer.smEnd)
  check (sf.curBlockStart ≤ curPos ∧ curPos ≤ sf.curBlockEnd)
  if curPos = sf.curBlockEnd then return none
  let bits ← fread 8
  let mid ← fread 2
  return some (((mid + 1) % 2 ^ 16 : ℕ), .ofNat bits)

/-! ## What the calls change -/

section Apply

variable {α β : Type} {sf sf' last : SparseFile} {r : Option β}

lemma bind_apply (x : SectionM α) (f : α → SectionM β) (sf : SparseFile) :
    (x >>= f) sf = (x sf).1.elim (none, (x sf).2) fun a => f a (x sf).2 := by
  simp only [bind, OptionT.bind, OptionT.mk, StateT.bind]
  cases x sf with
  | mk result sf' => cases result <;> rfl

variable {x : SectionM α} {f : α → SectionM β}

lemma bind_some {b : β} (run : (x >>= f) sf = (some b, last)) :
    ∃ a sf', x sf = (some a, sf') ∧ f a sf' = (some b, last) := by
  rw [bind_apply] at run
  cases first : x sf with
  | mk result sf' =>
    rw [first] at run
    cases result with
    | none => cases (Prod.mk.inj run).1
    | some a => exact ⟨a, sf', rfl, run⟩

variable {u : Unit}

lemma check_some {passes : Prop} [Decidable passes] (run : check passes sf = (some u, sf')) :
    passes ∧ sf' = sf := by
  unfold check at run
  split at run
  · rename_i ok
    exact ⟨ok, (Prod.mk.inj run).2.symm⟩
  · cases (Prod.mk.inj run).1

lemma checkMode_some {expected : Mode} (run : checkMode expected sf = (some u, sf')) : sf' = sf := by
  obtain ⟨_, _, got, run⟩ := bind_some run
  obtain ⟨-, rfl⟩ := check_some run
  exact (Prod.mk.inj got).2.symm

/-- Functions that leave everything but the position as it is, also when they fail. -/
def Positions (x : SectionM α) : Prop :=
  ∀ sf, ∃ p, (x sf).2 = sf.seek p

lemma positions_pure (x : α) : Positions (pure x : SectionM α) := fun sf => ⟨sf.file.pos, rfl⟩

lemma positions_get : Positions (get : SectionM SparseFile) := fun sf => ⟨sf.file.pos, rfl⟩

lemma positions_check (passes : Prop) [Decidable passes] : Positions (check passes) := by
  intro sf
  refine ⟨sf.file.pos, ?_⟩
  unfold check
  split <;> rfl

lemma positions_fread (width : ℕ) : Positions (fread width) := by
  intro sf
  unfold fread
  split
  · exact ⟨_, rfl⟩
  · exact ⟨_, rfl⟩

lemma positions_fseek (off : ℕ) : Positions (fseek off) := by
  intro sf
  by_cases small : sizeT off < 2 ^ 63
  · exact ⟨sizeT off, if_pos small⟩
  · exact ⟨sf.file.pos, if_neg small⟩

lemma Positions.bind (first : Positions x) (second : ∀ a, Positions (f a)) :
    Positions (x >>= f) := by
  intro sf
  obtain ⟨p, same⟩ := first sf
  rw [bind_apply]
  cases run : x sf with
  | mk result sf' =>
    rw [run] at same
    cases result with
    | none => exact ⟨p, same⟩
    | some a =>
      obtain ⟨q, next⟩ := second a sf'
      refine ⟨q, next.trans ?_⟩
      rw [show sf' = sf.seek p from same]
      rfl

lemma fread_some {width n : ℕ} (run : fread width sf = (some n, sf')) :
    sf.file.pos + width ≤ sf.file.bytes.length ∧ sf' = sf.seek (sf.file.pos + width) := by
  unfold fread at run
  split at run
  · rename_i room
    exact ⟨room, (Prod.mk.inj run).2.symm⟩
  · cases (Prod.mk.inj run).1

lemma positions_nextEntry : Positions hpcrunSparseNextEntry := by
  refine (positions_get.bind fun _ => positions_check _).bind fun _ => positions_get.bind fun sf => ?_
  refine (positions_check _).bind fun _ => (positions_check _).bind fun _ => (positions_check _).bind fun _ => ?_
  split
  · exact positions_pure none
  · exact (positions_fread 8).bind fun _ => (positions_fread 2).bind fun _ => positions_pure _

lemma nextEntry_moves {mid : ℤ} {bits : UInt64} (next : hpcrunSparseNextEntry sf = (some (some (mid, bits)), sf')) :
    0 ≤ mid ∧ sf.file.pos + 10 ≤ sf.file.bytes.length ∧ sf' = sf.seek (sf.file.pos + 10) := by
  obtain ⟨_, opened, mode, afterMode⟩ := bind_some next
  obtain rfl := checkMode_some mode
  obtain ⟨_, _, got, afterGet⟩ := bind_some afterMode
  cases got
  obtain ⟨_, _, touched, afterTouched⟩ := bind_some afterGet
  obtain ⟨-, rfl⟩ := check_some touched
  obtain ⟨_, _, inSection, afterSection⟩ := bind_some afterTouched
  obtain ⟨-, rfl⟩ := check_some inSection
  obtain ⟨_, _, inBlock, afterBlock⟩ := bind_some afterSection
  obtain ⟨-, rfl⟩ := check_some inBlock
  split at afterBlock
  · cases (Prod.mk.inj afterBlock).1
  · obtain ⟨value, _, readValue, afterValue⟩ := bind_some afterBlock
    obtain ⟨-, rfl⟩ := fread_some readValue
    obtain ⟨id, _, readId, afterId⟩ := bind_some afterValue
    obtain ⟨room, rfl⟩ := fread_some readId
    obtain ⟨same, rfl⟩ := Prod.mk.inj afterId
    cases same
    exact ⟨Int.natCast_nonneg _, room, rfl⟩

lemma modify_some {f : SparseFile → SparseFile} {u : PUnit} (run : (modify f : SectionM PUnit) sf = (some u, sf')) :
    sf' = f sf :=
  (Prod.mk.inj run).2.symm

lemma fseek_some {off : ℕ} (run : fseek off sf = (some u, sf')) : ∃ p, sf' = sf.seek p := by
  obtain ⟨p, same⟩ := positions_fseek off sf
  rw [run] at same
  exact ⟨p, same⟩

lemma initBlocks_some (run : initBlocks sf = (some u, sf')) : sf'.smBlockTouched = sf.smBlockTouched := by
  obtain ⟨_, _, got, afterGet⟩ := bind_some run
  cases got
  obtain ⟨_, _, start, afterStart⟩ := bind_some afterGet
  obtain ⟨_, rfl⟩ := fseek_some start
  obtain ⟨_, _, length, afterLength⟩ := bind_some afterStart
  obtain ⟨-, rfl⟩ := fread_some length
  obtain ⟨_, _, skip, afterSkip⟩ := bind_some afterLength
  obtain ⟨_, rfl⟩ := fseek_some skip
  obtain ⟨_, _, values, afterValues⟩ := bind_some afterSkip
  obtain ⟨-, rfl⟩ := fread_some values
  obtain ⟨_, _, store, afterStore⟩ := bind_some afterValues
  obtain rfl := modify_some store
  obtain ⟨_, _, nodes, afterNodes⟩ := bind_some afterStore
  obtain ⟨-, rfl⟩ := fread_some nodes
  obtain rfl := modify_some afterNodes
  rfl

variable {id : ℤ}

lemma findBlock_some (run : findBlock sf = (some (some id), sf')) :
    sf.smBlockTouched ≠ sf.numNzCctNodes ∧ sf'.smBlockTouched = sf.smBlockTouched + 1 ∧
      sf'.numNzCctNodes = sf.numNzCctNodes := by
  obtain ⟨_, _, got, afterGet⟩ := bind_some run
  cases got
  split at afterGet
  · cases (Prod.mk.inj afterGet).1
  · rename_i more
    obtain ⟨_, _, inSection, afterSection⟩ := bind_some afterGet
    obtain ⟨-, rfl⟩ := check_some inSection
    obtain ⟨_, _, start, afterStart⟩ := bind_some afterSection
    obtain ⟨_, rfl⟩ := fseek_some start
    obtain ⟨_, _, node, afterNode⟩ := bind_some afterStart
    obtain ⟨-, rfl⟩ := fread_some node
    obtain ⟨_, _, index, afterIndex⟩ := bind_some afterNode
    obtain ⟨-, rfl⟩ := fread_some index
    obtain ⟨_, _, store, afterStore⟩ := bind_some afterIndex
    obtain rfl := modify_some store
    obtain ⟨_, _, nextIndex, afterNextIndex⟩ := bind_some afterStore
    obtain ⟨-, rfl⟩ := fread_some nextIndex
    obtain ⟨_, _, count, afterCount⟩ := bind_some afterNextIndex
    obtain rfl := modify_some count
    obtain ⟨_, _, entries, result⟩ := bind_some afterCount
    obtain ⟨_, rfl⟩ := fseek_some entries
    obtain rfl := (Prod.mk.inj result).2
    exact ⟨more, rfl, rfl⟩

lemma nextBlock_moves (next : hpcrunSparseNextBlock sf = (some (some id), sf')) :
    sf'.smBlockTouched = sf.smBlockTouched + 1 ∧ sf.smBlockTouched ≠ sf'.numNzCctNodes ∧
      (sf.smBlockTouched ≠ 0 → sf'.numNzCctNodes = sf.numNzCctNodes) := by
  obtain ⟨_, _, mode, afterMode⟩ := bind_some next
  obtain rfl := checkMode_some mode
  obtain ⟨_, _, got, afterGet⟩ := bind_some afterMode
  cases got
  split at afterGet
  · rename_i fresh
    obtain ⟨_, _, start, afterStart⟩ := bind_some afterGet
    obtain ⟨more, touched, same⟩ := findBlock_some afterStart
    rw [initBlocks_some start] at more touched
    exact ⟨touched, same ▸ more, fun started => absurd fresh started⟩
  · obtain ⟨more, touched, same⟩ := findBlock_some afterGet
    exact ⟨touched, same ▸ more, fun _ => same⟩

end Apply

end HpcToolkit.Fmt.Raw
