import HpcToolkit.Lib.Rose
import HpcToolkit.MetaDb.Layout

/-! # The context tree section of meta.db

`MetaDB::write` lays out the tree of calling contexts. The contexts below an entry point are visited after their
children. For each one with children an array of child records is written, whose place the context then remembers for
its own record. Instructions that are enclosed in another context are elided: the array of their parent has their
children instead. The records of modules, files and functions were written before, and a context refers to them by their
place in the file.

A write that ends beyond the largest `off_t` ends the program. The footer of the file is written last and behind
everything else, so the other writes succeed when it does.
-/

namespace HpcToolkit.MetaDb

open Lib

/-! ## Contexts -/

/-- `Relation`, for the contexts below the root. -/
inductive Relation where
  | enclosure | call | inlinedCall
deriving DecidableEq

/-- `Scope`, for the contexts below the root. -/
inductive Scope (M F Fn : Type) where
  | unknown
  | point (module : M) (offset : UInt64)
  | function (func : Fn)
  | lexicalLoop (file : F) (line : UInt64)
  | binaryLoop (module : M) (offset : UInt64) (file : F) (line : UInt64)
  | line (file : F) (line : UInt64)
  | placeholder (value : UInt64)
deriving DecidableEq

/-- A context without its children, which stand in a tree in the order of iteration. -/
structure Context (M F Fn : Type) where
  identifier : UInt32
  relation : Relation
  scope : Scope M F Fn

variable {M F Fn : Type}

/-- `MetaDB::elide`, for a context that has a parent. -/
def elide (c : Context M F Fn) : Bool :=
  match c.relation, c.scope with
  | .enclosure, .point _ _ => true
  | _, _ => false

/-- The records of a section that was written before: `Written::ptr(i)` is the place of the `i`-th. -/
structure Table (α : Type) where
  items : List α
  offset : ℕ
  stride : ℕ

def Table.ptr {α : Type} [DecidableEq α] (table : Table α) (x : α) : ℕ := table.offset + table.items.idxOf x * table.stride

/-- The sections that contexts refer to. The section of the functions has the placeholders behind the functions. -/
structure Tables (M F Fn : Type) where
  modules : Table M
  files : Table F
  functions : Table (Fn ⊕ UInt64)

/-- What the scope refers to is in the tables, where `notifyContext` has put it. -/
def Scope.Listed (tables : Tables M F Fn) : Scope M F Fn → Prop
  | .unknown => True
  | .point module _ => module ∈ tables.modules.items
  | .function func => .inl func ∈ tables.functions.items
  | .lexicalLoop file _ => file ∈ tables.files.items
  | .binaryLoop module _ file _ => module ∈ tables.modules.items ∧ file ∈ tables.files.items
  | .line file _ => file ∈ tables.files.items
  | .placeholder value => .inr value ∈ tables.functions.items

/-! ## Records -/

/-- `fmt_metadb_context_t`. -/
structure FmtContext where
  szChildren : ℕ
  pChildren : ℕ
  ctxId : ℕ
  relation : ℕ
  lexicalType : ℕ
  propagation : ℕ
  pFunction : ℕ := 0
  pFile : ℕ := 0
  line : ℕ := 0
  pModule : ℕ := 0
  offset : ℕ := 0

/-- The part of `udContext` that the visit of a context fills. -/
structure UdContext where
  szChildren : ℕ := 0
  pChildren : ℕ := 0

def Relation.fmt : Relation → ℕ
  | .enclosure => 0
  | .call => 1
  | .inlinedCall => 2

/-- `FMT_METADB_LEXTYPE`. -/
def Scope.lexicalType : Scope M F Fn → ℕ
  | .unknown | .function _ | .placeholder _ => 0
  | .lexicalLoop _ _ | .binaryLoop _ _ _ _ => 1
  | .line _ _ => 2
  | .point _ _ => 3

/-- The bit that `notifyContext` sets. -/
def Relation.propagation : Relation → ℕ
  | .enclosure => 1
  | .call | .inlinedCall => 0

section Compose

variable [DecidableEq M] [DecidableEq F] [DecidableEq Fn]

/-- The lambda `compose`. The line of a context has 64 bits, that of the record has 32. -/
def compose (tables : Tables M F Fn) (c : Context M F Fn) (ud : UdContext) : FmtContext :=
  let ctx : FmtContext :=
    { szChildren := ud.szChildren
      pChildren := ud.pChildren
      ctxId := c.identifier.toNat
      relation := c.relation.fmt
      lexicalType := c.scope.lexicalType
      propagation := c.relation.propagation }
  match c.scope with
  | .unknown => ctx
  | .function func => { ctx with pFunction := tables.functions.ptr (.inl func) }
  | .placeholder value => { ctx with pFunction := tables.functions.ptr (.inr value) }
  | .line file line | .lexicalLoop file line =>
    { ctx with pFile := tables.files.ptr file, line := line.toNat % 2 ^ 32 }
  | .binaryLoop module offset file line =>
    { ctx with
      pFile := tables.files.ptr file, line := line.toNat % 2 ^ 32
      pModule := tables.modules.ptr module, offset := offset.toNat }
  | .point module offset => { ctx with pModule := tables.modules.ptr module, offset := offset.toNat }

end Compose

/-- The words behind the fixed part of a record. -/
def FmtContext.flex (ctx : FmtContext) : List UInt8 :=
  (if ctx.pFunction ≠ 0 then toLE 8 ctx.pFunction else []) ++
  (if ctx.pFile ≠ 0 then toLE 8 ctx.pFile ++ toLE 4 ctx.line ++ List.replicate 4 0 else []) ++
  (if ctx.pModule ≠ 0 then toLE 8 ctx.pModule ++ toLE 8 ctx.offset else [])

def FmtContext.flags (ctx : FmtContext) : ℕ :=
  (if ctx.pFunction ≠ 0 then 1 else 0) + (if ctx.pFile ≠ 0 then 2 else 0) + (if ctx.pModule ≠ 0 then 4 else 0)

def FmtContext.nwords (ctx : FmtContext) : ℕ :=
  (if ctx.pFunction ≠ 0 then 1 else 0) + (if ctx.pFile ≠ 0 then 2 else 0) + (if ctx.pModule ≠ 0 then 2 else 0)

def FmtContext.write (ctx : FmtContext) : List UInt8 :=
  toLE 8 ctx.szChildren ++ (toLE 8 ctx.pChildren ++ (toLE 4 ctx.ctxId ++ (toLE 1 ctx.flags ++ (toLE 1 ctx.relation ++
    (toLE 1 ctx.lexicalType ++ (toLE 1 ctx.nwords ++ (toLE 2 ctx.propagation ++ (List.replicate 6 0 ++ ctx.flex))))))))

/-- `fmt_metadb_entryPoint_t`. -/
structure FmtEntryPoint where
  szChildren : ℕ
  pChildren : ℕ
  ctxId : ℕ
  entryPoint : ℕ
  pPrettyName : ℕ

/-- `fmt_metadb_entryPoint_write`, which leaves two bytes of the buffer as they are. -/
def FmtEntryPoint.write (gap : UInt8 × UInt8) (ep : FmtEntryPoint) : List UInt8 :=
  toLE 8 ep.szChildren ++ (toLE 8 ep.pChildren ++ (toLE 4 ep.ctxId ++ (toLE 2 ep.entryPoint ++
    ([gap.1, gap.2] ++ toLE 8 ep.pPrettyName))))

/-! ## Entry points -/

inductive EntryPoint where
  | unknownEntry | mainThread | applicationThread

def EntryPoint.fmt : EntryPoint → ℕ
  | .unknownEntry => 0
  | .mainThread => 1
  | .applicationThread => 2

/-- `hpcrun_placeholder_fence_main`, the bytes of its name. -/
def fenceMain : UInt64 := 0x7c204d61696e2020

def fenceThread : UInt64 := 0x7c20546872656164

/-- The entry point of a top-level context. `notifyContext` ends the program for any other scope. -/
def Scope.entryPoint : Scope M F Fn → Option EntryPoint
  | .unknown => some .unknownEntry
  | .placeholder value =>
    if value = fenceMain then some .mainThread
    else if value = fenceThread then some .applicationThread
    else none
  | _ => none

/-! ## Writing -/

/-- What `MetaDB::write` has when it comes to the context tree: the layout with the sections before, the tables in it,
the children of the root, and the fields of the file header other than those of the context tree section. -/
structure Database (M F Fn : Type) where
  before : LayoutEngine
  tables : Tables M F Fn
  tops : List (Rose (Context M F Fn))
  prettyName : EntryPoint → UInt64
  gap : UInt32 → UInt8 × UInt8
  headerFront : List UInt8
  headerBack : List UInt8

def Database.header (db : Database M F Fn) (szContext pContext : ℕ) : List UInt8 :=
  db.headerFront ++ (toLE 8 szContext ++ (toLE 8 pContext ++ db.headerBack))

/-- The table is in the file behind the header. -/
structure Table.Laid {α : Type} (table : Table α) (hi : ℕ) : Prop where
  offset : 0x90 ≤ table.offset
  stride : 0 < table.stride
  stop : table.offset + table.items.length * table.stride ≤ hi

/-- What the pipeline and the sections before guarantee. The header was allocated first, a context has at most one child
for a scope, and `notifyContext` was called for every context. -/
structure Database.Ready (db : Database M F Fn) : Prop where
  header : 0x90 ≤ db.before.cursor
  fits : db.before.Fits
  modules : db.tables.modules.Laid db.before.cursor
  files : db.tables.files.Laid db.before.cursor
  functions : db.tables.functions.Laid db.before.cursor
  entryPoint : ∀ top ∈ db.tops, top.label.scope.entryPoint ≠ none
  distinct : (db.tops.map fun top => (top.label.relation, top.label.scope)).Nodup
  listed : ∀ top ∈ db.tops, ∀ c ∈ top.children.flatMap Rose.labels, c.scope.Listed db.tables
  headerFront : db.headerFront.length = 0x40
  headerBack : db.headerBack.length = 0x40

section Write

variable [DecidableEq M] [DecidableEq F] [DecidableEq Fn]

/-- The lambda `children_f`, for children that were visited. -/
def childRecords (tables : Tables M F Fn) (children : List (Rose (Context M F Fn × UdContext))) : List FmtContext :=
  children.flatMap fun cc =>
    if elide cc.label.1 then cc.children.map fun gcc => compose tables gcc.label.1 gcc.label.2
    else [compose tables cc.label.1 cc.label.2]

mutual
/-- The visit of a context in `citerate`, after its children. -/
def layContext (tables : Tables M F Fn) :
    Rose (Context M F Fn) → LayoutEngine → Rose (Context M F Fn × UdContext) × LayoutEngine
  | .node c children, l =>
    let (children, l) := layChildren tables children l
    if children.isEmpty || elide c then (.node (c, {}) children, l)
    else
      let buf := serialize 8 ((childRecords tables children).map FmtContext.write)
      let (pChildren, l) := l.written buf 8
      (.node (c, { szChildren := buf.length, pChildren }) children, l)

def layChildren (tables : Tables M F Fn) :
    List (Rose (Context M F Fn)) → LayoutEngine → List (Rose (Context M F Fn × UdContext)) × LayoutEngine
  | [], l => ([], l)
  | child :: rest, l =>
    let (child, l) := layContext tables child l
    let (rest, l) := layChildren tables rest l
    (child :: rest, l)
end

/-- The entry point that is composed for a top-level context. -/
def composeEntry (db : Database M F Fn) (top : Context M F Fn) (ud : UdContext) : FmtEntryPoint :=
  let entryPoint := top.scope.entryPoint.getD .unknownEntry
  { szChildren := ud.szChildren
    pChildren := ud.pChildren
    ctxId := top.identifier.toNat
    entryPoint := entryPoint.fmt
    pPrettyName := (db.prettyName entryPoint).toNat }

/-- The place and the size of the context tree section, and the file when all of its sections are written. -/
structure Output where
  pContext : ℕ
  szContext : ℕ
  file : List UInt8

/-- The context tree section, the file header and the footer. -/
def Database.layOut (db : Database M F Fn) : Output :=
  let (pContext, l) := db.before.allocate 0x0b 8
  let (tops, l) := layChildren db.tables db.tops l
  let entryPoints := tops.map fun top => (composeEntry db top.label.1 top.label.2).write (db.gap top.label.1.identifier)
  let (pEntryPoints, l) := l.written (serialize 8 entryPoints) 8
  let shdr := toLE 8 pEntryPoints ++ (toLE 2 entryPoints.length ++ toLE 1 0x20)
  let szContext := l.cursor - pContext
  let file := writeat l.file pContext shdr
  let file := writeat file 0 (db.header szContext pContext)
  { pContext, szContext, file := writeat file l.cursor "_meta.db".toUTF8.toList }

/-- `MetaDB::write`: the file, unless the footer ends beyond the largest `off_t`. -/
def Database.write (db : Database M F Fn) : Option (List UInt8) :=
  let output := db.layOut
  if output.pContext + output.szContext + 8 < 2 ^ 63 then some output.file else none

end Write

end HpcToolkit.MetaDb
