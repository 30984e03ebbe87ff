import HpcToolkit.MetaDb.ContextTree

/-! # Reading the records of the context tree section

The readers of `formats/metadb.c`, and what following the pointers of a file means: the header gives the section, the
section its entry points, and every record an array of records, which is read up to its size. A record that was written
is read back unless one of its values does not fit its field.
-/

open List

namespace HpcToolkit.MetaDb

open Lib

/-! ## Readers -/

/-- A number in the flexible part, which starts with a word. -/
def flexField (flex : List UInt8) (word width : ℕ) : ℕ := ofLE ((flex.drop (8 * word)).take width)

/-- The second half of `fmt_metadb_context_read`, with the number of words that were read. -/
def FmtContext.readFlex (ctx : FmtContext) (flags nFlexWords : ℕ) (flex : List UInt8) : Option FmtContext := do
  let (ctx, nwords) ←
    if flags % 2 = 0 then some (ctx, 0)
    else if nFlexWords < 1 then none
    else some ({ ctx with pFunction := flexField flex 0 8 }, 1)
  let (ctx, nwords) ←
    if flags / 2 % 2 = 0 then some (ctx, nwords)
    else if nFlexWords < nwords + 2 then none
    else some ({ ctx with pFile := flexField flex nwords 8, line := flexField flex (nwords + 1) 4 }, nwords + 2)
  if flags / 4 % 2 = 0 then some ctx
  else if nFlexWords < nwords + 2 then none
  else some { ctx with pModule := flexField flex nwords 8, offset := flexField flex (nwords + 1) 8 }

/-- `fmt_metadb_context_read`, with the size of the record. -/
def readContext : Reader (FmtContext × ℕ) := do
  let szChildren ← readLE 8
  let pChildren ← readLE 8
  let ctxId ← readLE 4
  let flags ← readLE 1
  let relation ← readLE 1
  let lexicalType ← readLE 1
  let nFlexWords ← readLE 1
  let propagation ← readLE 2
  let _ ← takeBytes 6
  let flex ← takeBytes (8 * nFlexWords)
  let ctx : FmtContext := { szChildren, pChildren, ctxId, relation, lexicalType, propagation }
  match ctx.readFlex flags nFlexWords flex with
  | some ctx => return (ctx, 0x20 + 8 * nFlexWords)
  | none => failure

/-- An array of records of a given total size. -/
def readArray : ℕ → ℕ → Reader (List FmtContext)
  | _, 0 => return []
  | 0, _ + 1 => failure
  | fuel + 1, remaining + 1 => do
    let (ctx, size) ← readContext
    if remaining + 1 < size then failure
    let rest ← readArray fuel (remaining + 1 - size)
    return ctx :: rest

/-- `fmt_metadb_entryPoint_read`. -/
def readEntryPoint : Reader FmtEntryPoint := do
  let szChildren ← readLE 8
  let pChildren ← readLE 8
  let ctxId ← readLE 4
  let entryPoint ← readLE 2
  let _ ← takeBytes 2
  let pPrettyName ← readLE 8
  return { szChildren, pChildren, ctxId, entryPoint, pPrettyName }

/-- The trees of records below an array of records. -/
def follow (file : List UInt8) : ℕ → ℕ → ℕ → Option (List (Rose FmtContext))
  | 0, _, _ => none
  | fuel + 1, p, sz => do
    let (ctxs, _) ← readArray sz sz ⟨file, p⟩
    ctxs.mapM fun ctx => do
      let children ← follow file fuel ctx.pChildren ctx.szChildren
      return .node ctx children

/-- What a file says about the contexts: the place and size of the section, and each entry point with its trees. -/
structure ReadTree where
  pContext : ℕ
  szContext : ℕ
  entryPoints : List (FmtEntryPoint × List (Rose FmtContext))

/-- Following the pointers of a file from its header, through trees that are less high than the fuel. -/
def readTree (file : List UInt8) (fuel : ℕ) : Option ReadTree := do
  let (szContext, _) ← readLE 8 ⟨file, 0x40⟩
  let (pContext, _) ← readLE 8 ⟨file, 0x48⟩
  let (pEntryPoints, _) ← readLE 8 ⟨file, pContext⟩
  let (nEntryPoints, _) ← readLE 2 ⟨file, pContext + 8⟩
  let (entries, _) ← readMany readEntryPoint nEntryPoints ⟨file, pEntryPoints⟩
  let entryPoints ← entries.mapM fun ep => do
    let children ← follow file fuel ep.pChildren ep.szChildren
    return (ep, children)
  return { pContext, szContext, entryPoints }

/-! ## Round trips -/

/-- Every value fits its field, and what is not written has its default. -/
structure FmtContext.Valid (ctx : FmtContext) : Prop where
  szChildren : ctx.szChildren < 256 ^ 8
  pChildren : ctx.pChildren < 256 ^ 8
  ctxId : ctx.ctxId < 256 ^ 4
  relation : ctx.relation < 256 ^ 1
  lexicalType : ctx.lexicalType < 256 ^ 1
  propagation : ctx.propagation < 256 ^ 2
  pFunction : ctx.pFunction < 256 ^ 8
  pFile : ctx.pFile < 256 ^ 8
  line : ctx.line < 256 ^ 4
  pModule : ctx.pModule < 256 ^ 8
  offset : ctx.offset < 256 ^ 8
  noLine : ctx.pFile = 0 → ctx.line = 0
  noOffset : ctx.pModule = 0 → ctx.offset = 0

lemma flexField_eq {flex : List UInt8} {word width n : ℕ} (before after : List UInt8)
    (whole : flex = before ++ toLE width n ++ after) (length : before.length = 8 * word) (bound : n < 256 ^ width) :
    flexField flex word width = n := by
  have here : At flex (8 * word) (toLE width n) := ⟨before, after, whole, length⟩
  have bytes := here.extract
  rw [length_toLE] at bytes
  rw [flexField, bytes, ofLE_toLE_of_lt bound]

lemma FmtContext.length_flex (ctx : FmtContext) : ctx.flex.length = 8 * ctx.nwords := by
  rw [flex, nwords]
  split <;> split <;> split <;> simp

lemma FmtContext.length_write (ctx : FmtContext) : ctx.write.length = 0x20 + 8 * ctx.nwords := by
  simp only [write, length_append, length_toLE, length_replicate, length_flex]
  omega

section Flex

variable {ctx : FmtContext} (valid : ctx.Valid)
include valid

lemma FmtContext.Valid.flex_function (hasFunction : ctx.pFunction ≠ 0) : flexField ctx.flex 0 8 = ctx.pFunction := by
  have whole : ctx.flex = [] ++ toLE 8 ctx.pFunction ++
      ((if ctx.pFile ≠ 0 then toLE 8 ctx.pFile ++ toLE 4 ctx.line ++ replicate 4 0 else []) ++
        (if ctx.pModule ≠ 0 then toLE 8 ctx.pModule ++ toLE 8 ctx.offset else [])) := by
    rw [flex, if_pos hasFunction, append_assoc, nil_append]
  exact flexField_eq _ _ whole rfl valid.pFunction

lemma FmtContext.Valid.flex_file (hasFile : ctx.pFile ≠ 0) :
    flexField ctx.flex (if ctx.pFunction ≠ 0 then 1 else 0) 8 = ctx.pFile ∧
      flexField ctx.flex ((if ctx.pFunction ≠ 0 then 1 else 0) + 1) 4 = ctx.line := by
  have length : (if ctx.pFunction ≠ 0 then toLE 8 ctx.pFunction else []).length =
      8 * (if ctx.pFunction ≠ 0 then 1 else 0) := by
    split <;> simp
  rw [flex, if_pos hasFile]
  generalize (if ctx.pFunction ≠ 0 then toLE 8 ctx.pFunction else []) = front at length ⊢
  generalize (if ctx.pModule ≠ 0 then toLE 8 ctx.pModule ++ toLE 8 ctx.offset else []) = back
  constructor
  · refine flexField_eq front (toLE 4 ctx.line ++ replicate 4 0 ++ back) ?_ length valid.pFile
    simp only [append_assoc]
  · refine flexField_eq (front ++ toLE 8 ctx.pFile) (replicate 4 0 ++ back) ?_ ?_ valid.line
    · simp only [append_assoc]
    · rw [length_append, length, length_toLE, Nat.mul_add]

lemma FmtContext.Valid.flex_module (hasModule : ctx.pModule ≠ 0) :
    flexField ctx.flex ((if ctx.pFunction ≠ 0 then 1 else 0) + (if ctx.pFile ≠ 0 then 2 else 0)) 8 = ctx.pModule ∧
      flexField ctx.flex ((if ctx.pFunction ≠ 0 then 1 else 0) + (if ctx.pFile ≠ 0 then 2 else 0) + 1) 8 =
        ctx.offset := by
  have length : ((if ctx.pFunction ≠ 0 then toLE 8 ctx.pFunction else []) ++
      (if ctx.pFile ≠ 0 then toLE 8 ctx.pFile ++ toLE 4 ctx.line ++ replicate 4 0 else [])).length =
      8 * ((if ctx.pFunction ≠ 0 then 1 else 0) + (if ctx.pFile ≠ 0 then 2 else 0)) := by
    split <;> split <;> simp
  rw [flex, if_pos hasModule]
  generalize (if ctx.pFunction ≠ 0 then toLE 8 ctx.pFunction else []) ++
    (if ctx.pFile ≠ 0 then toLE 8 ctx.pFile ++ toLE 4 ctx.line ++ replicate 4 0 else []) = front at length ⊢
  constructor
  · refine flexField_eq front (toLE 8 ctx.offset) ?_ length valid.pModule
    simp only [append_assoc]
  · refine flexField_eq (front ++ toLE 8 ctx.pModule) [] ?_ ?_ valid.offset
    · simp only [append_assoc, append_nil]
    · rw [length_append, length, length_toLE]
      omega

lemma FmtContext.readFlex_flex :
    FmtContext.readFlex { ctx with pFunction := 0, pFile := 0, line := 0, pModule := 0, offset := 0 }
      ctx.flags ctx.nwords ctx.flex = some ctx := by
  have function := valid.flex_function
  have file := valid.flex_file
  have module := valid.flex_module
  have noLine := valid.noLine
  have noOffset := valid.noOffset
  generalize ctx.flex = bytes at function file module ⊢
  obtain ⟨szChildren, pChildren, ctxId, relation, lexicalType, propagation, pFunction, pFile, line, pModule, offset⟩ := ctx
  simp only [flags, nwords, readFlex]
  by_cases hasFunction : pFunction = 0 <;> by_cases hasFile : pFile = 0 <;> by_cases hasModule : pModule = 0
  all_goals
    simp_all

lemma reads_context : Reads readContext ctx.write (ctx, 0x20 + 8 * ctx.nwords) := by
  have flags : ctx.flags < 256 ^ 1 := by
    rw [FmtContext.flags]
    split <;> split <;> split <;> norm_num
  have nwords : ctx.nwords < 256 ^ 1 := by
    rw [FmtContext.nwords]
    split <;> split <;> split <;> norm_num
  have gap : Reads (takeBytes 6) (replicate 6 0) (replicate 6 0) := reads_takeBytes _
  have flex : Reads (takeBytes (8 * ctx.nwords)) ctx.flex ctx.flex := ctx.length_flex ▸ reads_takeBytes ctx.flex
  apply (reads_readLE 8 _ valid.szChildren).bind
  apply (reads_readLE 8 _ valid.pChildren).bind
  apply (reads_readLE 4 _ valid.ctxId).bind
  apply (reads_readLE 1 _ flags).bind
  apply (reads_readLE 1 _ valid.relation).bind
  apply (reads_readLE 1 _ valid.lexicalType).bind
  apply (reads_readLE 1 _ nwords).bind
  apply (reads_readLE 2 _ valid.propagation).bind
  apply gap.bind
  apply flex.finish
  simp only [FmtContext.readFlex_flex valid]
  exact reads_pure _

end Flex

lemma reads_array (ctxs : List FmtContext) (valid : ∀ ctx ∈ ctxs, ctx.Valid) (fuel : ℕ) (enough : ctxs.length ≤ fuel) :
    Reads (readArray fuel (ctxs.flatMap FmtContext.write).length) (ctxs.flatMap FmtContext.write) ctxs := by
  induction ctxs generalizing fuel with
  | nil =>
    rw [flatMap_nil, length_nil, readArray.eq_def]
    exact reads_pure []
  | cons ctx ctxs ih =>
    have length := ctx.length_write
    obtain ⟨fuel, rfl⟩ := Nat.exists_eq_succ_of_ne_zero (Nat.ne_zero_of_lt enough)
    have total : ((ctx :: ctxs).flatMap FmtContext.write).length =
        0x1f + 8 * ctx.nwords + (ctxs.flatMap FmtContext.write).length + 1 := by
      rw [flatMap_cons, length_append, length]
      omega
    have room : ¬ 0x1f + 8 * ctx.nwords + (ctxs.flatMap FmtContext.write).length + 1 < 0x20 + 8 * ctx.nwords := by omega
    have left : 0x1f + 8 * ctx.nwords + (ctxs.flatMap FmtContext.write).length + 1 - (0x20 + 8 * ctx.nwords) =
        (ctxs.flatMap FmtContext.write).length := by
      omega
    rw [total, flatMap_cons, readArray]
    apply (reads_context (valid ctx mem_cons_self)).bind
    simp only [if_neg room, left]
    have rest := ih (fun c mem => valid c (mem_cons_of_mem _ mem)) fuel (by simpa using enough)
    exact rest.map (ctx :: ·)

/-- Every value of the entry point fits its field. -/
structure FmtEntryPoint.Valid (ep : FmtEntryPoint) : Prop where
  szChildren : ep.szChildren < 256 ^ 8
  pChildren : ep.pChildren < 256 ^ 8
  ctxId : ep.ctxId < 256 ^ 4
  entryPoint : ep.entryPoint < 256 ^ 2
  pPrettyName : ep.pPrettyName < 256 ^ 8

lemma reads_entryPoint {ep : FmtEntryPoint} (valid : ep.Valid) (gap : UInt8 × UInt8) :
    Reads readEntryPoint (ep.write gap) ep := by
  apply (reads_readLE 8 _ valid.szChildren).bind
  apply (reads_readLE 8 _ valid.pChildren).bind
  apply (reads_readLE 4 _ valid.ctxId).bind
  apply (reads_readLE 2 _ valid.entryPoint).bind
  apply Reads.bind (reads_takeBytes [gap.1, gap.2])
  exact (reads_readLE 8 _ valid.pPrettyName).finish (reads_pure ep)

lemma FmtEntryPoint.length_write (ep : FmtEntryPoint) (gap : UInt8 × UInt8) : (ep.write gap).length = 0x20 := by
  simp [write]

end HpcToolkit.MetaDb

/-! # Where the child records stand

The visits of `citerate` leave every context that is not elided with the place of an array that holds exactly the records
of its children, where those of an elided child stand for it. Later writes are elsewhere in the file and keep the arrays.
-/

namespace HpcToolkit.MetaDb

open Lib

variable {M F Fn : Type}

/-- A context that was visited and has been elided. -/
def hiddenVisit (visited : Context M F Fn × UdContext) : Bool := elide visited.1

variable [DecidableEq M] [DecidableEq F] [DecidableEq Fn]

def record (tables : Tables M F Fn) (visited : Context M F Fn × UdContext) : FmtContext := compose tables visited.1 visited.2

lemma childRecords_eq (tables : Tables M F Fn) (children : List (Rose (Context M F Fn × UdContext))) :
    childRecords tables children = (Rose.adopted hiddenVisit children).map fun t => record tables t.label := by
  rw [childRecords, Rose.adopted, map_flatMap]
  apply flatMap_congr
  intro child _
  split
  case isTrue hidden =>
    have hidden : hiddenVisit child.label = true := hidden
    rw [if_pos hidden]
    rfl
  case isFalse shown =>
    have shown : ¬ hiddenVisit child.label = true := shown
    rw [if_neg shown]
    rfl

/-- The place of the children is in the given part of the file and has the given records. -/
structure Holds (file : List UInt8) (lo hi : ℕ) (ud : UdContext) (records : List FmtContext) : Prop where
  size : ud.szChildren = (records.flatMap FmtContext.write).length
  stop : ud.pChildren + ud.szChildren ≤ hi
  inside : ud.szChildren ≠ 0 → lo ≤ ud.pChildren ∧ At file ud.pChildren (records.flatMap FmtContext.write)

/-- Every context of the tree that is not elided has the place of its child records. -/
inductive Placed (tables : Tables M F Fn) (file : List UInt8) (lo hi : ℕ) : Rose (Context M F Fn × UdContext) → Prop where
  | node {visited : Context M F Fn × UdContext} {children : List (Rose (Context M F Fn × UdContext))}
      (deep : ∀ child ∈ children, Placed tables file lo hi child)
      (holds : hiddenVisit visited = false → Holds file lo hi visited.2 (childRecords tables children)) :
      Placed tables file lo hi (.node visited children)

variable {tables : Tables M F Fn} {file file' : List UInt8} {lo hi lo' hi' : ℕ}
  {t : Rose (Context M F Fn × UdContext)}

section
variable (placed : Placed tables file lo hi t)
include placed

lemma Placed.child {child : Rose (Context M F Fn × UdContext)}
    (mem : child ∈ t.children) : Placed tables file lo hi child := by
  cases placed with
  | node deep _ => exact deep child mem

lemma Placed.array (shown : hiddenVisit t.label = false) :
    Holds file lo hi t.label.2 (childRecords tables t.children) := by
  cases placed with
  | node _ holds => exact holds shown

lemma Placed.adopted {kid : Rose (Context M F Fn × UdContext)}
    (mem : kid ∈ Rose.adopted hiddenVisit t.children) : Placed tables file lo hi kid := by
  rcases Rose.mem_adopted mem with ⟨mem, -⟩ | ⟨child, memChild, -, mem⟩
  · exact placed.child mem
  · exact (placed.child memChild).child mem

end

omit [DecidableEq M] [DecidableEq F] [DecidableEq Fn] in
lemma Holds.mono {ud : UdContext} {records : List FmtContext} (holds : Holds file lo hi ud records) (low : lo' ≤ lo)
    (high : hi ≤ hi') (kept : ∀ off enc, lo ≤ off → off + enc.length ≤ hi → At file off enc → At file' off enc) :
    Holds file' lo' hi' ud records := by
  refine ⟨holds.size, holds.stop.trans high, fun nonempty => ?_⟩
  obtain ⟨start, here⟩ := holds.inside nonempty
  exact ⟨low.trans start, kept _ _ start (holds.size ▸ holds.stop) here⟩

lemma Placed.mono (placed : Placed tables file lo hi t) (low : lo' ≤ lo) (high : hi ≤ hi')
    (kept : ∀ off enc, lo ≤ off → off + enc.length ≤ hi → At file off enc → At file' off enc) :
    Placed tables file' lo' hi' t := by
  induction t using Rose.inductionOn with
  | step visited children ih =>
    constructor
    · exact fun child mem => ih child mem (placed.child mem)
    · exact fun shown => (placed.array shown).mono low high kept

lemma Placed.range (placed : Placed tables file lo hi t) :
    ∀ visited ∈ t.labels, hiddenVisit visited = false →
      visited.2.pChildren + visited.2.szChildren ≤ hi ∧ (visited.2.szChildren ≠ 0 → lo ≤ visited.2.pChildren) := by
  induction t using Rose.inductionOn with
  | step label children ih =>
    intro visited mem shown
    rw [Rose.labels_node] at mem
    rcases mem_cons.mp mem with rfl | mem
    · have holds := placed.array shown
      exact ⟨holds.stop, fun nonempty => (holds.inside nonempty).1⟩
    · obtain ⟨child, memChild, mem⟩ := mem_flatMap.mp mem
      exact ih child memChild (placed.child memChild) visited mem shown

lemma serialize_records (records : List FmtContext) :
    serialize 8 (records.map FmtContext.write) = records.flatMap FmtContext.write := by
  rw [serialize_eq (by norm_num), flatMap_def]
  intro element mem
  obtain ⟨ctx, -, rfl⟩ := mem_map.mp mem
  rw [ctx.length_write]
  omega

/-- What the visit of a tree leaves. -/
structure Lays (tables : Tables M F Fn) (lo : ℕ) (t : Rose (Context M F Fn)) (l : LayoutEngine)
    (result : Rose (Context M F Fn × UdContext) × LayoutEngine) : Prop where
  ext : l.Extends result.2
  fits : result.2.Fits
  same : result.1.map Prod.fst = t
  placed : Placed tables result.2.file lo result.2.cursor result.1

/-- What the visits of the children leave. -/
structure LaysAll (tables : Tables M F Fn) (lo : ℕ) (ts : List (Rose (Context M F Fn))) (l : LayoutEngine)
    (result : List (Rose (Context M F Fn × UdContext)) × LayoutEngine) : Prop where
  ext : l.Extends result.2
  fits : result.2.Fits
  same : result.1.map (Rose.map Prod.fst) = ts
  placed : ∀ t ∈ result.1, Placed tables result.2.file lo result.2.cursor t

lemma Placed.extend {l l' : LayoutEngine} (ext : l.Extends l') (placed : Placed tables l.file lo l.cursor t) :
    Placed tables l'.file lo l'.cursor t :=
  placed.mono le_rfl ext.cursor fun _ _ _ _ here => here.of_isPrefix ext.file

lemma layChildren_lays (ts : List (Rose (Context M F Fn))) (l : LayoutEngine) (start : lo ≤ l.cursor) (fits : l.Fits)
    (each : ∀ t ∈ ts, ∀ l : LayoutEngine, lo ≤ l.cursor → l.Fits → Lays tables lo t l (layContext tables t l)) :
    LaysAll tables lo ts l (layChildren tables ts l) := by
  induction ts generalizing l with
  | nil => exact ⟨.refl l, fits, rfl, by simp [layChildren]⟩
  | cons t ts ih =>
    have first := each t mem_cons_self l start fits
    have rest := ih (layContext tables t l).2 (start.trans first.ext.cursor) first.fits
      (fun t mem => each t (mem_cons_of_mem _ mem))
    rw [layChildren]
    refine ⟨first.ext.trans rest.ext, rest.fits, ?_, ?_⟩
    · exact cons_eq_cons.mpr ⟨first.same, rest.same⟩
    · intro t mem
      rcases mem_cons.mp mem with rfl | mem
      · exact first.placed.extend rest.ext
      · exact rest.placed t mem

lemma layContext_lays (t : Rose (Context M F Fn)) (l : LayoutEngine) (start : lo ≤ l.cursor) (fits : l.Fits) :
    Lays tables lo t l (layContext tables t l) := by
  induction t using Rose.inductionOn generalizing l with
  | step c children ih =>
    have below := layChildren_lays children l start fits ih
    rw [layContext]
    generalize layChildren tables children l = result at below
    obtain ⟨children', l'⟩ := result
    have same : ∀ ud, (Rose.node (c, ud) children').map Prod.fst = Rose.node c children := by
      intro ud
      rw [Rose.map_node, below.same]
    dsimp only
    split
    case isTrue skipped =>
      refine ⟨below.ext, below.fits, same _, .node below.placed ?_⟩
      intro shown
      have shown : elide c = false := shown
      have empty : children' = [] := by simpa [shown] using skipped
      subst empty
      exact ⟨rfl, Nat.zero_le _, fun nonempty => absurd rfl nonempty⟩
    case isFalse =>
      rw [serialize_records]
      generalize records : (childRecords tables children').flatMap FmtContext.write = buf
      have wrote := LayoutEngine.written_wrote below.fits 8 (by norm_num) buf
      refine ⟨below.ext.trans wrote.ext, wrote.fits, same _, .node ?_ ?_⟩
      · exact fun child mem => (below.placed child mem).extend wrote.ext
      · intro _
        refine ⟨congrArg length records.symm, wrote.stop, fun nonempty => ⟨?_, ?_⟩⟩
        · exact (start.trans below.ext.cursor).trans wrote.start
        · rw [records]
          exact wrote.here fun empty => nonempty (by simp [empty])

end HpcToolkit.MetaDb
