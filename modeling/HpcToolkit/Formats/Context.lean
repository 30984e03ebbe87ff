import HpcToolkit.Formats.Primitive

/-! # Context records of meta.db

A context record has up to three optional parts behind its fixed fields, packed into words of eight bytes. A flag says
for each part whether it is there, and a count says how many words follow. The reader loads from a string of bytes with
an end: a load past the end is an outcome of its own.
-/

open List

namespace HpcToolkit.Formats.MetaDb

open Lib

@[ext]
structure Context where
  szChildren : UInt64
  pChildren : UInt64
  ctxId : UInt32
  relation : UInt8
  lexicalType : UInt8
  nFlexWords : UInt8
  propagation : UInt16
  pFunction : UInt64
  pFile : UInt64
  line : UInt32
  pModule : UInt64
  offset : UInt64

/-- `FMT_METADB_SZ_Context` -/
def contextSize (nFlexWords : ℕ) : ℕ := 0x20 + 8 * nFlexWords

lemma le_contextSize (nFlexWords : ℕ) : 0x20 ≤ contextSize nFlexWords := Nat.le_add_right ..

/-! ## The writer -/

/-- `d[0x14] |= flag` -/
def setFlag (d : Mem) (flag : UInt8) : Mem := d.put 0x14 [d 0x14 ||| flag]

/-- An optional part: its flag and its words, behind the `nwords` words that are there. -/
def writePart (present : Bool) (flag : UInt8) (words : ℕ) (stores : ℕ → List Store) (image : Mem × ℕ) : Mem × ℕ :=
  let (d, nwords) := image
  if present then ((setFlag d flag).stores (stores (0x20 + nwords * 8)), nwords + words) else (d, nwords)

namespace Context

variable (ctx : Context)

def hasFunction : Bool := ctx.pFunction != 0
def hasSrcLoc : Bool := ctx.pFile != 0
def hasPoint : Bool := ctx.pModule != 0

def functionStores (off : ℕ) : List Store := [u64Write off ctx.pFunction]

def srcLocStores (off : ℕ) : List Store :=
  [u64Write off ctx.pFile, u32Write (off + 8) ctx.line, zeros (off + 8 + 4) 4]

def pointStores (off : ℕ) : List Store := [u64Write off ctx.pModule, u64Write (off + 8) ctx.offset]

def writeFunction : Mem × ℕ → Mem × ℕ := writePart ctx.hasFunction 0x1 1 ctx.functionStores
def writeSrcLoc : Mem × ℕ → Mem × ℕ := writePart ctx.hasSrcLoc 0x2 2 ctx.srcLocStores
def writePoint : Mem × ℕ → Mem × ℕ := writePart ctx.hasPoint 0x4 2 ctx.pointStores

def writeFixed : List Store :=
  [u64Write 0x00 ctx.szChildren, u64Write 0x08 ctx.pChildren, u32Write 0x10 ctx.ctxId, u8Write 0x14 0,
    u8Write 0x15 ctx.relation, u8Write 0x16 ctx.lexicalType, u16Write 0x18 ctx.propagation, zeros 0x1a (0x20 - 0x1a)]

/-- The bytes and what is returned, the size of the record. -/
def write (d : Mem) : Mem × ℕ :=
  let (d, nwords) := ctx.writePoint (ctx.writeSrcLoc (ctx.writeFunction (d.stores ctx.writeFixed, 0)))
  (d.stores [u8Write 0x17 (.ofNat nwords)], contextSize nwords)

end Context

/-! ## The reader -/

/-- Loads that may pass the end, or end with the record that the caller is left with when `false` is returned. -/
abbrev Loads : Type → Type := ExceptT Context Option

/-- A load of `width` bytes from bytes that end at `limit`. -/
def load {A : Type} (limit off width : ℕ) (value : A) : Loads A := if off + width ≤ limit then pure value else none

section
variable (limit : ℕ) (d : Mem)

def u8Load (off : ℕ) : Loads UInt8 := load limit off 1 (u8Read d off)
def u16Load (off : ℕ) : Loads UInt16 := load limit off 2 (u16Read d off)
def u32Load (off : ℕ) : Loads UInt32 := load limit off 4 (u32Read d off)
def u64Load (off : ℕ) : Loads UInt64 := load limit off 8 (u64Read d off)

/-- An optional part: without its flag its members are cleared, with it there must be enough words. -/
def readPart (flag : UInt8) (words : ℕ) (clear : Context → Context) (fill : ℕ → Context → Loads Context)
    (ctx : Context) (nwords : ℕ) : Loads (Context × ℕ) := do
  let ctx := clear ctx
  let flags ← u8Load limit d 0x14
  if flags &&& flag = 0 then return (ctx, nwords)
  if ctx.nFlexWords.toNat < nwords + words then throw ctx
  let ctx ← fill (0x20 + nwords * 8) ctx
  return (ctx, nwords + words)

namespace Context

def clearFunction (ctx : Context) : Context := { ctx with pFunction := 0 }
def clearSrcLoc (ctx : Context) : Context := { ctx with pFile := 0, line := 0 }
def clearPoint (ctx : Context) : Context := { ctx with pModule := 0, offset := 0 }

def fillFunction (off : ℕ) (ctx : Context) : Loads Context := do
  let pFunction ← u64Load limit d off
  return { ctx with pFunction }

def fillSrcLoc (off : ℕ) (ctx : Context) : Loads Context := do
  let pFile ← u64Load limit d off
  let line ← u32Load limit d (off + 8)
  return { ctx with pFile, line }

def fillPoint (off : ℕ) (ctx : Context) : Loads Context := do
  let pModule ← u64Load limit d off
  let offset ← u64Load limit d (off + 8)
  return { ctx with pModule, offset }

def readFunction : Context → ℕ → Loads (Context × ℕ) := readPart limit d 0x1 1 clearFunction (fillFunction limit d)
def readSrcLoc : Context → ℕ → Loads (Context × ℕ) := readPart limit d 0x2 2 clearSrcLoc (fillSrcLoc limit d)
def readPoint : Context → ℕ → Loads (Context × ℕ) := readPart limit d 0x4 2 clearPoint (fillPoint limit d)

def readFixed (ctx : Context) : Loads Context := do
  let szChildren ← u64Load limit d 0x00
  let pChildren ← u64Load limit d 0x08
  let ctxId ← u32Load limit d 0x10
  let relation ← u8Load limit d 0x15
  let lexicalType ← u8Load limit d 0x16
  let nFlexWords ← u8Load limit d 0x17
  let propagation ← u16Load limit d 0x18
  return { ctx with szChildren, pChildren, ctxId, relation, lexicalType, nFlexWords, propagation }

/-- What is returned and the record that is left to the caller, who passes `ctx`; `none` is a load past `limit`. -/
def read (ctx : Context) : Option (Bool × Context) :=
  let loads : Loads Context := do
    let ctx ← readFixed limit d ctx
    let (ctx, nwords) ← readFunction limit d ctx 0
    let (ctx, nwords) ← readSrcLoc limit d ctx nwords
    let (ctx, _) ← readPoint limit d ctx nwords
    return ctx
  match loads.run with
  | none => none
  | some (.error ctx) => some (false, ctx)
  | some (.ok ctx) => some (true, ctx)

end Context

end

/-! ## What is written -/

section
variable {d : Mem} {present : Bool} {flag : UInt8} {words : ℕ} {stores : ℕ → List Store} {image : Mem × ℕ}

/-- What an optional part does to an image: it counts its words, sets its flag and keeps the bytes up to its words. -/
structure Packs (before after : Mem × ℕ) (present : Bool) (flag : UInt8) (words : ℕ) : Prop where
  nwords : after.2 = before.2 + if present then words else 0
  flags : after.1 0x14 = before.1 0x14 ||| if present then flag else 0
  front : before.1.AgreeOn after.1 0 0x14
  back : before.1.AgreeOn after.1 0x15 (0x0b + 8 * before.2)

lemma writePart_packs (behind : ∀ off, ∀ s ∈ stores off, off ≤ s.off) :
    Packs image (writePart present flag words stores image) present flag words := by
  obtain ⟨d, n⟩ := image
  cases present with
  | false => exact ⟨rfl, by simp [writePart], Mem.AgreeOn.refl d _ _, Mem.AgreeOn.refl d _ _⟩
  | true =>
    have kept : ∀ a k, a + k ≤ 0x20 + 8 * n →
        (setFlag d flag).AgreeOn ((setFlag d flag).stores (stores (0x20 + n * 8))) a k := by
      intro a k below
      refine Mem.agreeOn_stores fun s member => ?_
      have := behind _ s member
      omega
    have flagged : setFlag d flag 0x14 = d 0x14 ||| flag := Mem.put_singleton _
    refine ⟨rfl, ?_, ?_, ?_⟩
    · exact (kept 0x14 1 (by omega) 0x14 le_rfl (by omega)).trans flagged
    · exact (Mem.agreeOn_put (.inr le_rfl)).trans (kept 0 0x14 (by omega))
    · exact (Mem.agreeOn_put (.inl le_rfl)).trans (kept 0x15 _ (by omega))

end

section
variable {limit : ℕ} {d : Mem} {flag : UInt8} {words n : ℕ} {clear : Context → Context}
  {fill : ℕ → Context → Loads Context} {ctx : Context}

lemma load_within {A : Type} {off width : ℕ} {value : A} (inside : off + width ≤ limit) :
    load limit off width value = pure value :=
  if_pos inside

lemma readPart_eq (inside : 0x20 ≤ limit) :
    readPart limit d flag words clear fill ctx n =
      if u8Read d 0x14 &&& flag = 0 then pure (clear ctx, n)
      else if (clear ctx).nFlexWords.toNat < n + words then throw (clear ctx)
      else do
        let ctx ← fill (0x20 + n * 8) (clear ctx)
        return (ctx, n + words) := by
  rw [readPart, u8Load, load_within (by omega), pure_bind]
  split
  · rfl
  · split <;> rfl

end

namespace Context

variable (ctx : Context) (image : Mem × ℕ)

lemma writeFunction_packs : Packs image (ctx.writeFunction image) ctx.hasFunction 0x1 1 :=
  writePart_packs fun off s member => by
    simp only [functionStores, mem_singleton] at member
    rw [member, u64Write]

lemma writeSrcLoc_packs : Packs image (ctx.writeSrcLoc image) ctx.hasSrcLoc 0x2 2 :=
  writePart_packs fun off s member => by
    simp only [srcLocStores, mem_cons, not_mem_nil, or_false] at member
    rcases member with rfl | rfl | rfl <;> simp only [u64Write, u32Write, zeros] <;> omega

lemma writePoint_packs : Packs image (ctx.writePoint image) ctx.hasPoint 0x4 2 :=
  writePart_packs fun off s member => by
    simp only [pointStores, mem_cons, not_mem_nil, or_false] at member
    rcases member with rfl | rfl <;> simp only [u64Write] <;> omega

lemma writeFunction_pFunction (present : ctx.hasFunction) :
    u64Read (ctx.writeFunction image).1 (0x20 + image.2 * 8) = ctx.pFunction := by
  rw [writeFunction, writePart, if_pos present]
  exact u64Read_stores (pairwise_singleton _ _) (mem_singleton_self _)

lemma srcLocStores_apart (off : ℕ) : (ctx.srcLocStores off).Pairwise Store.Apart := by
  simp [srcLocStores, Store.Apart, u64Write, u32Write, zeros]

lemma writeSrcLoc_pFile (present : ctx.hasSrcLoc) :
    u64Read (ctx.writeSrcLoc image).1 (0x20 + image.2 * 8) = ctx.pFile := by
  rw [writeSrcLoc, writePart, if_pos present]
  exact u64Read_stores (srcLocStores_apart ctx _) (by simp [srcLocStores])

lemma writeSrcLoc_line (present : ctx.hasSrcLoc) :
    u32Read (ctx.writeSrcLoc image).1 (0x20 + image.2 * 8 + 8) = ctx.line := by
  rw [writeSrcLoc, writePart, if_pos present]
  exact u32Read_stores (srcLocStores_apart ctx _) (by simp [srcLocStores])

lemma pointStores_apart (off : ℕ) : (ctx.pointStores off).Pairwise Store.Apart := by
  simp [pointStores, Store.Apart, u64Write]

lemma writePoint_pModule (present : ctx.hasPoint) :
    u64Read (ctx.writePoint image).1 (0x20 + image.2 * 8) = ctx.pModule := by
  rw [writePoint, writePart, if_pos present]
  exact u64Read_stores (pointStores_apart ctx _) (by simp [pointStores])

lemma writePoint_offset (present : ctx.hasPoint) :
    u64Read (ctx.writePoint image).1 (0x20 + image.2 * 8 + 8) = ctx.offset := by
  rw [writePoint, writePart, if_pos present]
  exact u64Read_stores (pointStores_apart ctx _) (by simp [pointStores])

/-- The words of the parts before the source location, before the point, and of all. -/
def functionWords : ℕ := if ctx.hasFunction then 1 else 0
def srcLocEnd : ℕ := ctx.functionWords + if ctx.hasSrcLoc then 2 else 0
def nwords : ℕ := ctx.srcLocEnd + if ctx.hasPoint then 2 else 0

def flags : UInt8 :=
  0 ||| (if ctx.hasFunction then 0x1 else 0) ||| (if ctx.hasSrcLoc then 0x2 else 0) ||| if ctx.hasPoint then 0x4 else 0

/-- A record as the reader gives it back: with the number of its words, and cleared where a part is absent. -/
def stamp : Context :=
  { ctx with
    nFlexWords := .ofNat ctx.nwords
    line := if ctx.hasSrcLoc then ctx.line else 0
    offset := if ctx.hasPoint then ctx.offset else 0 }

/-- What stands where in the image of a record. -/
structure Image (m : Mem) : Prop where
  szChildren : u64Read m 0x00 = ctx.szChildren
  pChildren : u64Read m 0x08 = ctx.pChildren
  ctxId : u32Read m 0x10 = ctx.ctxId
  flags : u8Read m 0x14 = ctx.flags
  relation : u8Read m 0x15 = ctx.relation
  lexicalType : u8Read m 0x16 = ctx.lexicalType
  nFlexWords : u8Read m 0x17 = .ofNat ctx.nwords
  propagation : u16Read m 0x18 = ctx.propagation
  pFunction : ctx.hasFunction → u64Read m 0x20 = ctx.pFunction
  pFile : ctx.hasSrcLoc → u64Read m (0x20 + ctx.functionWords * 8) = ctx.pFile
  line : ctx.hasSrcLoc → u32Read m (0x20 + ctx.functionWords * 8 + 8) = ctx.line
  pModule : ctx.hasPoint → u64Read m (0x20 + ctx.srcLocEnd * 8) = ctx.pModule
  offset : ctx.hasPoint → u64Read m (0x20 + ctx.srcLocEnd * 8 + 8) = ctx.offset

end Context

lemma u64Read_agree {m m' : Mem} {a n off : ℕ} (agree : m.AgreeOn m' a n) (low : a ≤ off) (high : off + 8 ≤ a + n) :
    u64Read m' off = u64Read m off := by
  rw [u64Read, (agree.mono low high).word, u64Read]

lemma u32Read_agree {m m' : Mem} {a n off : ℕ} (agree : m.AgreeOn m' a n) (low : a ≤ off) (high : off + 4 ≤ a + n) :
    u32Read m' off = u32Read m off := by
  rw [u32Read, (agree.mono low high).word, u32Read]

lemma u16Read_agree {m m' : Mem} {a n off : ℕ} (agree : m.AgreeOn m' a n) (low : a ≤ off) (high : off + 2 ≤ a + n) :
    u16Read m' off = u16Read m off := by
  rw [u16Read, (agree.mono low high).word, u16Read]

namespace Context

lemma write_size (ctx : Context) (d : Mem) : (ctx.write d).2 = contextSize ctx.nwords := by
  simp only [write, (writePoint_packs ..).nwords, (writeSrcLoc_packs ..).nwords, (writeFunction_packs ..).nwords]
  rw [nwords, srcLocEnd, functionWords, Nat.zero_add]

lemma write_image (ctx : Context) (d : Mem) : ctx.Image (ctx.write d).1 := by
  have apart : ctx.writeFixed.Pairwise Store.Apart := of_decide_eq_true rfl
  have packs₁ := ctx.writeFunction_packs (d.stores ctx.writeFixed, 0)
  have value₁ := ctx.writeFunction_pFunction (d.stores ctx.writeFixed, 0)
  have packs₂ := ctx.writeSrcLoc_packs (ctx.writeFunction (d.stores ctx.writeFixed, 0))
  have file₂ := ctx.writeSrcLoc_pFile (ctx.writeFunction (d.stores ctx.writeFixed, 0))
  have line₂ := ctx.writeSrcLoc_line (ctx.writeFunction (d.stores ctx.writeFixed, 0))
  rw [write]
  generalize ctx.writeFunction (d.stores ctx.writeFixed, 0) = image₁ at *
  have packs₃ := ctx.writePoint_packs (ctx.writeSrcLoc image₁)
  have module₃ := ctx.writePoint_pModule (ctx.writeSrcLoc image₁)
  have offset₃ := ctx.writePoint_offset (ctx.writeSrcLoc image₁)
  generalize ctx.writeSrcLoc image₁ = image₂ at *
  generalize ctx.writePoint image₂ = image₃ at *
  have words₁ : image₁.2 = ctx.functionWords := by rw [packs₁.nwords, functionWords, Nat.zero_add]
  have words₂ : image₂.2 = ctx.srcLocEnd := by rw [packs₂.nwords, srcLocEnd, words₁]
  have words₃ : image₃.2 = ctx.nwords := by rw [packs₃.nwords, nwords, words₂]
  have grows : image₁.2 ≤ image₂.2 := packs₂.nwords ▸ Nat.le_add_right ..
  have count (a n : ℕ) (aside : a + n ≤ 0x17 ∨ 0x18 ≤ a) :
      image₃.1.AgreeOn (image₃.1.stores [u8Write 0x17 (.ofNat image₃.2)]) a n :=
    Mem.agreeOn_put aside.symm
  have front : (d.stores ctx.writeFixed).AgreeOn (image₃.1.stores [u8Write 0x17 (.ofNat image₃.2)]) 0 0x14 :=
    ((packs₁.front.trans packs₂.front).trans packs₃.front).trans (count 0 0x14 (.inl (by decide)))
  have back (a n : ℕ) (low : 0x15 ≤ a) (high : a + n ≤ 0x20) (aside : a + n ≤ 0x17 ∨ 0x18 ≤ a) :
      (d.stores ctx.writeFixed).AgreeOn (image₃.1.stores [u8Write 0x17 (.ofNat image₃.2)]) a n :=
    (((packs₁.back.mono low (by omega)).trans (packs₂.back.mono low (by omega))).trans
      (packs₃.back.mono low (by omega))).trans (count a n aside)
  have behind₁ : image₁.1.AgreeOn (image₃.1.stores [u8Write 0x17 (.ofNat image₃.2)]) 0x20 (8 * image₁.2) :=
    ((packs₂.back.mono (by omega) (by omega)).trans (packs₃.back.mono (by omega) (by omega))).trans
      (count _ _ (.inr (by omega)))
  have behind₂ : image₂.1.AgreeOn (image₃.1.stores [u8Write 0x17 (.ofNat image₃.2)]) 0x20 (8 * image₂.2) :=
    (packs₃.back.mono (by omega) (by omega)).trans (count _ _ (.inr (by omega)))
  have behind₃ (n : ℕ) := count 0x20 n (.inr (by decide))
  have flags : image₃.1.stores [u8Write 0x17 (.ofNat image₃.2)] 0x14 = ctx.flags := by
    have cleared : d.stores ctx.writeFixed 0x14 = 0 := u8Read_stores apart d 0x14 (by simp [writeFixed])
    rw [count 0x14 1 (.inl (by decide)) 0x14 le_rfl (by decide), packs₃.flags, packs₂.flags, packs₁.flags]
    simp only [cleared, Context.flags]
  simp only [words₁, words₂, words₃] at *
  constructor
  case szChildren =>
    rw [u64Read_agree front (by decide) (by decide)]
    exact u64Read_stores apart (by simp [writeFixed])
  case pChildren =>
    rw [u64Read_agree front (by decide) (by decide)]
    exact u64Read_stores apart (by simp [writeFixed])
  case ctxId =>
    rw [u32Read_agree front (by decide) (by decide)]
    exact u32Read_stores apart (by simp [writeFixed])
  case flags => exact flags
  case relation =>
    rw [u8Read, back 0x15 1 (by decide) (by decide) (.inl (by decide)) 0x15 (by decide) (by decide)]
    exact u8Read_stores apart d 0x15 (by simp [writeFixed])
  case lexicalType =>
    rw [u8Read, back 0x16 1 (by decide) (by decide) (.inl (by decide)) 0x16 (by decide) (by decide)]
    exact u8Read_stores apart d 0x16 (by simp [writeFixed])
  case nFlexWords => exact Mem.put_singleton (m := image₃.1) (a := 0x17) _
  case propagation =>
    rw [u16Read_agree (back 0x18 2 (by decide) (by decide) (.inr (by decide))) (by decide) (by decide)]
    exact u16Read_stores apart (by simp [writeFixed])
  case pFunction =>
    intro present
    have words : ctx.functionWords = 1 := if_pos present
    rw [u64Read_agree behind₁ (by omega) (by omega)]
    exact value₁ present
  case pFile =>
    intro present
    have words : ctx.srcLocEnd = ctx.functionWords + 2 := by rw [srcLocEnd, if_pos present]
    rw [u64Read_agree behind₂ (by omega) (by omega)]
    exact file₂ present
  case line =>
    intro present
    have words : ctx.srcLocEnd = ctx.functionWords + 2 := by rw [srcLocEnd, if_pos present]
    rw [u32Read_agree behind₂ (by omega) (by omega)]
    exact line₂ present
  case pModule =>
    intro present
    rw [u64Read_agree (behind₃ (ctx.srcLocEnd * 8 + 8)) (by omega) (by omega)]
    exact module₃ present
  case offset =>
    intro present
    rw [u64Read_agree (behind₃ (ctx.srcLocEnd * 8 + 16)) (by omega) (by omega)]
    exact offset₃ present

/-! ## What is read -/

/-- The words that the flags of a record demand. -/
def claimedWords (flags : UInt8) : ℕ :=
  (if flags &&& 0x1 = 0 then 0 else 1) + (if flags &&& 0x2 = 0 then 0 else 2) + if flags &&& 0x4 = 0 then 0 else 2

variable {limit : ℕ} {d : Mem}

lemma readFixed_eq (inside : 0x20 ≤ limit) (ctx : Context) :
    readFixed limit d ctx = pure
      { ctx with
        szChildren := u64Read d 0x00, pChildren := u64Read d 0x08, ctxId := u32Read d 0x10
        relation := u8Read d 0x15, lexicalType := u8Read d 0x16, nFlexWords := u8Read d 0x17
        propagation := u16Read d 0x18 } := by
  simp only [readFixed, u8Load, u16Load, u32Load, u64Load]
  iterate 7 rw [load_within (by omega), pure_bind]

variable {off : ℕ}

lemma fillFunction_eq (inside : off + 8 * 1 ≤ limit) (ctx : Context) :
    fillFunction limit d off ctx = pure { ctx with pFunction := u64Read d off } := by
  rw [fillFunction, u64Load, load_within (by omega), pure_bind]

lemma fillSrcLoc_eq (inside : off + 8 * 2 ≤ limit) (ctx : Context) :
    fillSrcLoc limit d off ctx = pure { ctx with pFile := u64Read d off, line := u32Read d (off + 8) } := by
  rw [fillSrcLoc, u64Load, u32Load, load_within (by omega), pure_bind, load_within (by omega), pure_bind]

lemma fillPoint_eq (inside : off + 8 * 2 ≤ limit) (ctx : Context) :
    fillPoint limit d off ctx = pure { ctx with pModule := u64Read d off, offset := u64Read d (off + 8) } := by
  rw [fillPoint, u64Load, u64Load, load_within (by omega), pure_bind, load_within (by omega), pure_bind]

/-! ### Images -/

variable (ctx : Context)

lemma nwords_le : ctx.nwords ≤ 5 := by
  rw [nwords, srcLocEnd, functionWords]
  split <;> split <;> split <;> decide

lemma nFlexWords_toNat : (UInt8.ofNat ctx.nwords).toNat = ctx.nwords :=
  UInt8.toNat_ofNat_of_lt' (ctx.nwords_le.trans_lt (by decide))

lemma flags_function : ctx.flags &&& 0x1 = 0 ↔ ctx.hasFunction = false := by
  rw [flags]
  cases ctx.hasFunction <;> cases ctx.hasSrcLoc <;> cases ctx.hasPoint <;> decide

lemma flags_srcLoc : ctx.flags &&& 0x2 = 0 ↔ ctx.hasSrcLoc = false := by
  rw [flags]
  cases ctx.hasFunction <;> cases ctx.hasSrcLoc <;> cases ctx.hasPoint <;> decide

lemma flags_point : ctx.flags &&& 0x4 = 0 ↔ ctx.hasPoint = false := by
  rw [flags]
  cases ctx.hasFunction <;> cases ctx.hasSrcLoc <;> cases ctx.hasPoint <;> decide

section
variable {ctx} {before : Context} {m : Mem} (image : ctx.Image m) (count : before.nFlexWords = .ofNat ctx.nwords)
include image count

lemma Image.readFunction : readFunction (contextSize ctx.nwords) m before 0 =
    pure ({ before with pFunction := ctx.pFunction }, ctx.functionWords) := by
  have total : ctx.functionWords ≤ ctx.nwords := by
    rw [nwords, srcLocEnd]
    omega
  rw [Context.readFunction, readPart_eq (le_contextSize _), image.flags]
  cases present : ctx.hasFunction with
  | false =>
    have absent : ctx.pFunction = 0 := by simpa [hasFunction] using present
    rw [if_pos (ctx.flags_function.mpr present), clearFunction, absent, functionWords, present]
    rfl
  | true =>
    have words : ctx.functionWords = 1 := if_pos present
    have enough : ¬ before.clearFunction.nFlexWords.toNat < 0 + 1 := by
      rw [clearFunction, count, nFlexWords_toNat]
      omega
    rw [if_neg (by simp [ctx.flags_function, present]), if_neg enough,
      fillFunction_eq (by rw [contextSize]; omega), pure_bind, words, Nat.zero_mul, Nat.add_zero, image.pFunction present]
    rfl

lemma Image.readSrcLoc : readSrcLoc (contextSize ctx.nwords) m before ctx.functionWords =
    pure ({ before with pFile := ctx.pFile, line := ctx.stamp.line }, ctx.srcLocEnd) := by
  have total : ctx.srcLocEnd ≤ ctx.nwords := Nat.le_add_right ..
  rw [Context.readSrcLoc, readPart_eq (le_contextSize _), image.flags]
  cases present : ctx.hasSrcLoc with
  | false =>
    have absent : ctx.pFile = 0 := by simpa [hasSrcLoc] using present
    rw [if_pos (ctx.flags_srcLoc.mpr present), clearSrcLoc, absent, srcLocEnd, stamp, present]
    rfl
  | true =>
    have words : ctx.srcLocEnd = ctx.functionWords + 2 := by rw [srcLocEnd, if_pos present]
    have enough : ¬ before.clearSrcLoc.nFlexWords.toNat < ctx.functionWords + 2 := by
      rw [clearSrcLoc, count, nFlexWords_toNat]
      omega
    rw [if_neg (by simp [ctx.flags_srcLoc, present]), if_neg enough,
      fillSrcLoc_eq (by rw [contextSize]; omega), pure_bind, words, image.pFile present, image.line present,
      stamp, if_pos present]
    rfl

lemma Image.readPoint : readPoint (contextSize ctx.nwords) m before ctx.srcLocEnd =
    pure ({ before with pModule := ctx.pModule, offset := ctx.stamp.offset }, ctx.nwords) := by
  rw [Context.readPoint, readPart_eq (le_contextSize _), image.flags]
  cases present : ctx.hasPoint with
  | false =>
    have absent : ctx.pModule = 0 := by simpa [hasPoint] using present
    rw [if_pos (ctx.flags_point.mpr present), clearPoint, absent, nwords, stamp, present]
    rfl
  | true =>
    have words : ctx.nwords = ctx.srcLocEnd + 2 := by rw [nwords, if_pos present]
    have enough : ¬ before.clearPoint.nFlexWords.toNat < ctx.srcLocEnd + 2 := by
      rw [clearPoint, count, nFlexWords_toNat]
      omega
    rw [if_neg (by simp [ctx.flags_point, present]), if_neg enough,
      fillPoint_eq (by rw [contextSize]; omega), pure_bind, words, image.pModule present, image.offset present,
      stamp, if_pos present]
    rfl

end

lemma Image.read {m : Mem} (image : ctx.Image m) (before : Context) :
    read (contextSize ctx.nwords) m before = some (true, ctx.stamp) := by
  simp only [Context.read, readFixed_eq (le_contextSize _), pure_bind, image.szChildren, image.pChildren, image.ctxId,
    image.relation, image.lexicalType, image.nFlexWords, image.propagation, image.readFunction, image.readSrcLoc,
    image.readPoint]
  rfl

/-! ### Any bytes -/

/-- An optional part of a record that ends at its count: it is read if its words are there, and else rejected. -/
def Stays (claimed : ℕ) (before : Context) (n : ℕ) (outcome : Loads (Context × ℕ)) : Prop :=
  (n + claimed ≤ before.nFlexWords.toNat ∧
    ∃ after, after.nFlexWords = before.nFlexWords ∧ outcome = pure (after, n + claimed)) ∨
  (before.nFlexWords.toNat < n + claimed ∧ ∃ after, outcome = throw after)

lemma readPart_stays {flag : UInt8} {words n : ℕ} {clear : Context → Context} {fill : ℕ → Context → Loads Context}
    {before : Context} (inside : contextSize before.nFlexWords.toNat ≤ limit) (fits : n ≤ before.nFlexWords.toNat)
    (cleared : (clear before).nFlexWords = before.nFlexWords)
    (fills : ∀ off, off + 8 * words ≤ limit →
      ∃ after, after.nFlexWords = (clear before).nFlexWords ∧ fill off (clear before) = pure after) :
    Stays (if u8Read d 0x14 &&& flag = 0 then 0 else words) before n
      (readPart limit d flag words clear fill before n) := by
  rw [readPart_eq ((le_contextSize _).trans inside), cleared]
  rw [contextSize] at inside
  by_cases absent : u8Read d 0x14 &&& flag = 0
  · rw [if_pos absent, if_pos absent]
    exact .inl ⟨fits, clear before, cleared, rfl⟩
  · rw [if_neg absent, if_neg absent]
    rcases Nat.lt_or_ge before.nFlexWords.toNat (n + words) with short | enough
    · exact .inr ⟨short, clear before, if_pos short⟩
    · obtain ⟨after, kept, filled⟩ := fills (0x20 + n * 8) (by omega)
      rw [if_neg enough.not_gt, filled, pure_bind]
      exact .inl ⟨enough, after, kept.trans cleared, rfl⟩

section
variable {before : Context} {n : ℕ} (inside : contextSize before.nFlexWords.toNat ≤ limit)
  (fits : n ≤ before.nFlexWords.toNat)
include inside fits

lemma readFunction_stays :
    Stays (if u8Read d 0x14 &&& 0x1 = 0 then 0 else 1) before n (readFunction limit d before n) := by
  refine readPart_stays inside fits rfl fun off below => ⟨_, ?_, fillFunction_eq below _⟩
  rfl

lemma readSrcLoc_stays :
    Stays (if u8Read d 0x14 &&& 0x2 = 0 then 0 else 2) before n (readSrcLoc limit d before n) := by
  refine readPart_stays inside fits rfl fun off below => ⟨_, ?_, fillSrcLoc_eq below _⟩
  rfl

lemma readPoint_stays :
    Stays (if u8Read d 0x14 &&& 0x4 = 0 then 0 else 2) before n (readPoint limit d before n) := by
  refine readPart_stays inside fits rfl fun off below => ⟨_, ?_, fillPoint_eq below _⟩
  rfl

end

/-- Bytes with all the words that their count promises: nothing past them is loaded, and the record is accepted exactly
if the flags demand no more words than these. -/
lemma read_within (inside : contextSize (u8Read d 0x17).toNat ≤ limit) (before : Context) :
    ∃ after, read limit d before =
      some (decide (claimedWords (u8Read d 0x14) ≤ (u8Read d 0x17).toNat), after) := by
  have fixed := readFixed_eq (d := d) ((le_contextSize _).trans inside) before
  generalize counted : ({ before with
    szChildren := u64Read d 0x00, pChildren := u64Read d 0x08, ctxId := u32Read d 0x10
    relation := u8Read d 0x15, lexicalType := u8Read d 0x16, nFlexWords := u8Read d 0x17
    propagation := u16Read d 0x18 } : Context) = ctx₀ at fixed
  have count₀ : ctx₀.nFlexWords = u8Read d 0x17 := counted ▸ rfl
  rw [← count₀] at inside ⊢
  rw [claimedWords]
  simp only [read, fixed, pure_bind]
  obtain ⟨fits₁, ctx₁, count₁, read₁⟩ | ⟨short, ctx₁, read₁⟩ := readFunction_stays (d := d) inside (Nat.zero_le _)
  · rw [← count₁] at inside fits₁ ⊢
    simp only [read₁, pure_bind]
    obtain ⟨fits₂, ctx₂, count₂, read₂⟩ | ⟨short, ctx₂, read₂⟩ := readSrcLoc_stays (d := d) inside fits₁
    · rw [← count₂] at inside fits₂ ⊢
      simp only [read₂, pure_bind]
      obtain ⟨fits₃, ctx₃, -, read₃⟩ | ⟨short, ctx₃, read₃⟩ := readPoint_stays (d := d) inside fits₂
      · rw [Nat.zero_add] at fits₃
        exact ⟨ctx₃, by simp only [read₃, pure_bind, decide_eq_true fits₃]; rfl⟩
      · rw [Nat.zero_add] at short
        exact ⟨ctx₃, by rw [read₃, decide_eq_false short.not_ge]; rfl⟩
    · refine ⟨ctx₂, ?_⟩
      rw [read₂, decide_eq_false (by omega)]
      rfl
  · refine ⟨ctx₁, ?_⟩
    rw [read₁, decide_eq_false (by omega)]
    rfl

/-- The members of absent parts have their defaults, so that the record is its fixed fields and the parts that it has. -/
structure PartsOnly (ctx : Context) : Prop where
  line : ctx.hasSrcLoc = false → ctx.line = 0
  offset : ctx.hasPoint = false → ctx.offset = 0

lemma PartsOnly.stamp_eq {ctx : Context} (partsOnly : ctx.PartsOnly) :
    ctx.stamp = { ctx with nFlexWords := .ofNat ctx.nwords } := by
  have line : (if ctx.hasSrcLoc then ctx.line else 0) = ctx.line := by
    cases present : ctx.hasSrcLoc with
    | false => exact (partsOnly.line present).symm
    | true => rfl
  have offset : (if ctx.hasPoint then ctx.offset else 0) = ctx.offset := by
    cases present : ctx.hasPoint with
    | false => exact (partsOnly.offset present).symm
    | true => rfl
  rw [stamp, line, offset]

lemma read_write (ctx : Context) (d : Mem) (before : Context) :
    read (ctx.write d).2 (ctx.write d).1 before = some (true, ctx.stamp) := by
  rw [write_size]
  exact Image.read ctx (ctx.write_image d) before

end Context

/-- A record with any of its optional parts is accepted from the bytes that were written for it, and comes back with the
count of words that the size of these bytes is made of; what is left in the members of an absent part comes back as
zero. Bytes are never read past the words of their count, and are rejected if the flags demand more. -/
theorem context_round_trip :
    (∀ (ctx : Context) (d : Mem) (before : Context),
      (ctx.write d).2 = contextSize (u8Read (ctx.write d).1 0x17).toNat ∧
      Context.read (ctx.write d).2 (ctx.write d).1 before = some (true, ctx.stamp) ∧
      (ctx.PartsOnly → ctx.stamp = { ctx with nFlexWords := u8Read (ctx.write d).1 0x17 })) ∧
    (∀ (d : Mem) (limit : ℕ) (before : Context), contextSize (u8Read d 0x17).toNat ≤ limit →
      (u8Read d 0x17).toNat < Context.claimedWords (u8Read d 0x14) →
      ∃ after, Context.read limit d before = some (false, after)) := by
  constructor
  · intro ctx d before
    have count := (ctx.write_image d).nFlexWords
    refine ⟨?_, ctx.read_write d before, fun partsOnly => ?_⟩
    · rw [count, ctx.nFlexWords_toNat, ctx.write_size]
    · rw [count, partsOnly.stamp_eq]
  · intro d limit before inside short
    obtain ⟨after, result⟩ := Context.read_within inside before
    exact ⟨after, by rw [result, decide_eq_false short.not_ge]⟩

end HpcToolkit.Formats.MetaDb
