import HpcToolkit.MetaDb.ReadBack

/-! # The context tree of a whole meta.db

The section header and the file header are written when everything else is in place, in the space that was kept for
them, and the footer behind the end. They lead to the entry points and from there to the records of all contexts.
-/

open Function List
open Prod (fst)

namespace HpcToolkit.MetaDb

open Lib
open Rose hiding map map_map node

variable {M F Fn : Type} [DecidableEq M] [DecidableEq F] [DecidableEq Fn]

/-! ## The parts of the layout -/

namespace Database

variable (db : Database M F Fn)

/-- The layout behind the section header. -/
def start : LayoutEngine := (db.before.allocate 0x0b 8).2

/-- The contexts with the places of their children, and the layout behind their records. -/
def visited : List (Rose (Context M F Fn × UdContext)) × LayoutEngine := layChildren db.tables db.tops db.start

def entry (t : Rose (Context M F Fn × UdContext)) : FmtEntryPoint := composeEntry db t.label.1 t.label.2

def entryBytes (t : Rose (Context M F Fn × UdContext)) : List UInt8 := (db.entry t).write (db.gap t.label.1.identifier)

/-- The entry points and the layout behind them. -/
def entries : ℕ × LayoutEngine := db.visited.2.written (serialize 8 (db.visited.1.map db.entryBytes)) 8

def shdr : List UInt8 := toLE 8 db.entries.1 ++ (toLE 2 db.visited.1.length ++ toLE 1 0x20)

lemma layOut_pContext : db.layOut.pContext = align db.before.cursor 8 := rfl

lemma layOut_szContext : db.layOut.szContext = db.entries.2.cursor - align db.before.cursor 8 := rfl

lemma layOut_file : db.layOut.file = writeat (writeat (writeat db.entries.2.file db.layOut.pContext db.shdr) 0
    (db.header db.layOut.szContext db.layOut.pContext)) db.entries.2.cursor "_meta.db".toUTF8.toList := by
  have count : (db.visited.1.map db.entryBytes).length = db.visited.1.length := length_map _
  rw [shdr, ← count]
  rfl

/-- What is read from the file. -/
def tree : ReadTree where
  pContext := db.layOut.pContext
  szContext := db.layOut.szContext
  entryPoints := db.visited.1.map fun t =>
    (db.entry t, (t.children.flatMap (prune hiddenVisit)).map (Rose.map (record db.tables)))

end Database

/-! ## Facts about the parts -/

namespace Database.Ready

variable {db : Database M F Fn} (ready : db.Ready)
include ready

section
omit [DecidableEq M] [DecidableEq F] [DecidableEq Fn]

lemma start_fits : db.before.Extends db.start ∧ db.start.Fits :=
  LayoutEngine.allocate_fits ready.fits 8 (by norm_num) 0x0b

lemma behind_header : 0x90 ≤ align db.before.cursor 8 := ready.header.trans (le_align (by norm_num) _)

end

lemma visited_lays : LaysAll db.tables db.start.cursor db.tops db.start db.visited :=
  layChildren_lays db.tops db.start le_rfl ready.start_fits.2 fun t _ l => layContext_lays t l

omit ready in
lemma serialize_entries : serialize 8 (db.visited.1.map db.entryBytes) = db.visited.1.flatMap db.entryBytes := by
  rw [serialize_eq (by norm_num), flatMap_def]
  intro element mem
  obtain ⟨t, -, rfl⟩ := mem_map.mp mem
  rw [Database.entryBytes, FmtEntryPoint.length_write]
  omega

lemma entries_wrote : db.visited.2.Wrote (db.visited.1.flatMap db.entryBytes) db.entries.1 db.entries.2 := by
  rw [← serialize_entries]
  exact LayoutEngine.written_wrote ready.visited_lays.fits 8 (by norm_num) _

lemma section_end : db.layOut.pContext + db.layOut.szContext = db.entries.2.cursor := by
  have first := ready.visited_lays.ext.cursor
  have second := ready.entries_wrote.ext.cursor
  have start : db.start.cursor = align db.before.cursor 8 + 0x0b := rfl
  rw [db.layOut_pContext, db.layOut_szContext]
  omega

lemma layOut_keeps (off : ℕ) (enc : List UInt8) (low : db.start.cursor ≤ off)
    (high : off + enc.length ≤ db.entries.2.cursor) (here : At db.entries.2.file off enc) : At db.layOut.file off enc := by
  have start : db.start.cursor = align db.before.cursor 8 + 0x0b := rfl
  have header := ready.behind_header
  have front := ready.headerFront
  have back := ready.headerBack
  rw [db.layOut_file]
  apply at_writeat _ (.inl high)
  apply at_writeat
  · apply at_writeat here
    right
    rw [db.layOut_pContext]
    simp only [Database.shdr, length_append, length_toLE]
    omega
  · right
    simp only [Database.header, length_append, length_toLE, front, back]
    omega

lemma at_shdr : At db.layOut.file db.layOut.pContext db.shdr := by
  have stop := ready.section_end
  have header := ready.behind_header
  have front := ready.headerFront
  have back := ready.headerBack
  have first := ready.visited_lays.ext.cursor
  have second := ready.entries_wrote.ext.cursor
  have start : db.start.cursor = align db.before.cursor 8 + 0x0b := rfl
  have length : db.shdr.length = 0x0b := by simp only [Database.shdr, length_append, length_toLE]
  rw [db.layOut_file, db.layOut_pContext]
  apply at_writeat
  · apply at_writeat
    · apply at_writeat_self
      exact ne_nil_of_length_pos (by omega)
    · right
      simp only [Database.header, length_append, length_toLE, front, back]
      omega
  · left
    omega

lemma at_header : At db.layOut.file 0 (db.header db.layOut.szContext db.layOut.pContext) := by
  have header := ready.behind_header
  have front := ready.headerFront
  have back := ready.headerBack
  have first := ready.visited_lays.ext.cursor
  have second := ready.entries_wrote.ext.cursor
  have start : db.start.cursor = align db.before.cursor 8 + 0x0b := rfl
  have length : (db.header db.layOut.szContext db.layOut.pContext).length = 0x90 := by
    simp only [Database.header, length_append, length_toLE, front, back]
  rw [db.layOut_file]
  apply at_writeat
  · apply at_writeat_self
    exact ne_nil_of_length_pos (by omega)
  · left
    omega

variable {t : Rose (Context M F Fn × UdContext)}

section
variable (mem : t ∈ db.visited.1)
include mem

lemma placed :
    Placed db.tables db.layOut.file db.start.cursor db.entries.2.cursor t :=
  ((ready.visited_lays.placed t mem).extend ready.entries_wrote.ext).mono le_rfl le_rfl ready.layOut_keeps

lemma map_mem : t.map fst ∈ db.tops := by
  rw [← ready.visited_lays.same]
  exact mem_map_of_mem mem

lemma shown : hiddenVisit t.label = false := by
  have entryPoint := ready.entryPoint _ (ready.map_mem mem)
  rw [label_map] at entryPoint
  rw [hiddenVisit, elide]
  split
  case h_1 isPoint =>
    rw [isPoint] at entryPoint
    exact absurd rfl entryPoint
  case h_2 => rfl

lemma listed_below :
    ∀ v ∈ t.children.flatMap labels, v.1.scope.Listed db.tables := by
  intro v here
  apply ready.listed _ (ready.map_mem mem)
  rw [children_map, flatMap_map]
  obtain ⟨child, memChild, here⟩ := mem_flatMap.mp here
  refine mem_flatMap.mpr ⟨child, memChild, ?_⟩
  rw [labels_map]
  exact mem_map_of_mem here

end

lemma tables_laid : db.tables.Laid db.entries.2.cursor := by
  have mono : db.before.cursor ≤ db.entries.2.cursor :=
    (ready.start_fits.1.trans (ready.visited_lays.ext.trans ready.entries_wrote.ext)).cursor
  exact ⟨⟨ready.modules.offset, ready.modules.stride, ready.modules.stop.trans mono⟩,
    ⟨ready.files.offset, ready.files.stride, ready.files.stop.trans mono⟩,
    ⟨ready.functions.offset, ready.functions.stride, ready.functions.stop.trans mono⟩⟩

lemma valid_entry (small : db.entries.2.cursor < 2 ^ 63)
    (mem : t ∈ db.visited.1) : (db.entry t).Valid := by
  have stop := ((ready.placed mem).array (ready.shown mem)).stop
  have pChildren : (db.entry t).pChildren = t.label.2.pChildren := rfl
  have szChildren : (db.entry t).szChildren = t.label.2.szChildren := rfl
  have entryPoint : ∀ kind : EntryPoint, kind.fmt < 256 ^ 2 := by
    intro kind
    cases kind <;> decide
  constructor
  case szChildren => omega
  case pChildren => omega
  case ctxId => exact t.label.1.identifier.toNat_lt
  case entryPoint => exact entryPoint _
  case pPrettyName => exact (db.prettyName _).toNat_lt

omit [DecidableEq M] [DecidableEq F] [DecidableEq Fn] in
lemma length_tops_le : db.tops.length ≤ 9 := by
  have subset : (db.tops.map fun top => (top.label.relation, top.label.scope)) ⊆
      [Relation.enclosure, .call, .inlinedCall] ×ˢ
        [Scope.unknown, Scope.placeholder fenceMain, Scope.placeholder fenceThread] := by
    intro key mem
    obtain ⟨top, memTop, rfl⟩ := mem_map.mp mem
    have entryPoint := ready.entryPoint top memTop
    apply pair_mem_product.mpr
    constructor
    · cases top.label.relation <;> simp
    · cases scope : top.label.scope <;> simp [scope, Scope.entryPoint] at entryPoint ⊢
      by_contra neither
      obtain ⟨notMain, notThread⟩ := not_or.mp neither
      exact entryPoint (by rw [if_neg notMain, if_neg notThread])
  have le := (subperm_of_subset ready.distinct subset).length_le
  simpa using le

lemma length_visited_lt : db.visited.1.length < 256 ^ 2 := by
  have few := ready.length_tops_le
  rw [← ready.visited_lays.same, length_map] at few
  omega

lemma read_entries (small : db.entries.2.cursor < 2 ^ 63) :
    ∃ position, readMany readEntryPoint db.visited.1.length ⟨db.layOut.file, db.entries.1⟩ =
      some (db.visited.1.map db.entry, position) := by
  have read : Reads (readMany readEntryPoint db.visited.1.length) (db.visited.1.flatMap db.entryBytes)
      (db.visited.1.map db.entry) := reads_readMany_map fun t mem => reads_entryPoint (ready.valid_entry small mem) _
  have wrote := ready.entries_wrote
  cases empty : db.visited.1.flatMap db.entryBytes with
  | nil =>
    have none : db.visited.1 = [] := by
      rw [flatMap_eq_nil_iff] at empty
      apply eq_nil_iff_forall_not_mem.mpr
      intro t mem
      have length : (db.entryBytes t).length = 0x20 := FmtEntryPoint.length_write _ _
      rw [empty t mem] at length
      exact absurd length (by norm_num)
    rw [none]
    exact ⟨_, rfl⟩
  | cons byte rest =>
    have here := wrote.here (by rw [empty]; simp)
    have low : db.start.cursor ≤ db.entries.1 := ready.visited_lays.ext.cursor.trans wrote.start
    exact ⟨_, read _ _ (ready.layOut_keeps _ _ low wrote.stop here)⟩

lemma readTree_eq (separate : ∀ top ∈ db.tops, top.Separate elide) (small : db.entries.2.cursor < 2 ^ 63) (fuel : ℕ)
    (enough : heightAll db.visited.1 ≤ fuel) : readTree db.layOut.file fuel = some db.tree := by
  have stop := ready.section_end
  have header := ready.at_header
  obtain ⟨-, header⟩ := At.append header
  rw [ready.headerFront] at header
  obtain ⟨atSize, header⟩ := header.append
  obtain ⟨atPlace, -⟩ := header.append
  obtain ⟨atEntries, shdr⟩ := ready.at_shdr.append
  obtain ⟨atCount, -⟩ := shdr.append
  rw [length_toLE] at atPlace atCount
  have within : db.entries.1 ≤ db.entries.2.cursor := (Nat.le_add_right _ _).trans ready.entries_wrote.stop
  have size := reads_readLE 8 db.layOut.szContext (by omega) _ _ atSize
  have place := reads_readLE 8 db.layOut.pContext (by omega) _ _ atPlace
  have pEntries := reads_readLE 8 db.entries.1 (by omega) _ _ atEntries
  have count := reads_readLE 2 db.visited.1.length ready.length_visited_lt _ _ atCount
  obtain ⟨position, entries⟩ := ready.read_entries small
  have each : ∀ t ∈ db.visited.1,
      (do
        let children ← follow db.layOut.file fuel (db.entry t).pChildren (db.entry t).szChildren
        return (db.entry t, children)) =
      some (db.entry t, (t.children.flatMap (Rose.prune hiddenVisit)).map (Rose.map (record db.tables))) := by
    intro t mem
    have isSeparate : t.Separate hiddenVisit :=
      separate_of_map fst (separate _ (ready.map_mem mem))
    have below := follow_placed ready.tables_laid small fuel t (ready.placed mem) isSeparate (ready.shown mem)
      (ready.listed_below mem) ((height_le_heightAll mem).trans enough)
    have pChildren : (db.entry t).pChildren = t.label.2.pChildren := rfl
    have szChildren : (db.entry t).szChildren = t.label.2.szChildren := rfl
    rw [pChildren, szChildren, below]
    rfl
  have trees := mapM_map_eq (g := db.entry)
    (h := fun t => (db.entry t, (t.children.flatMap (prune hiddenVisit)).map (Rose.map (record db.tables))))
    (f := fun ep => do
      let children ← follow db.layOut.file fuel ep.pChildren ep.szChildren
      return (ep, children)) _ each
  simp only [Nat.zero_add] at size place
  simp only [Option.bind_eq_bind] at trees
  rw [readTree, size, Option.bind_eq_bind, Option.bind_some]
  simp only [place, pEntries, count, entries, Option.bind_eq_bind, Option.bind_some, trees]
  rfl

end Database.Ready

/-! ## The file describes the tree -/

/-- The bytes of an array of children are in the section. -/
def ReadTree.Contains (tree : ReadTree) (p sz : ℕ) : Prop :=
  sz ≠ 0 → tree.pContext ≤ p ∧ p + sz ≤ tree.pContext + tree.szContext

/-- The entry points are the top-level contexts, and below each stands the tree of its contexts without the elided ones,
of which each has its own data. All arrays of children are in the section. -/
structure Describes (lineOf : UInt64 → ℕ) (db : Database M F Fn) (tree : ReadTree) : Prop where
  trees : (tree.entryPoints.map fun (ep, below) =>
      (ep.ctxId, some ep.entryPoint, below.map (Rose.map (FmtContext.shown db.tables)))) =
    db.tops.map fun top => (top.label.identifier.toNat, top.label.scope.entryPoint.map EntryPoint.fmt,
      (top.children.flatMap (Rose.prune elide)).map (Rose.map (Context.shown lineOf)))
  entryRange : ∀ ep ∈ tree.entryPoints, tree.Contains ep.1.pChildren ep.1.szChildren
  range : ∀ ep ∈ tree.entryPoints, ∀ t ∈ ep.2, ∀ ctx ∈ t.labels, tree.Contains ctx.pChildren ctx.szChildren

namespace Database.Ready

variable {db : Database M F Fn} (ready : db.Ready)
include ready

variable {t : Rose (Context M F Fn × UdContext)}

lemma contains (mem : t ∈ db.visited.1) :
    ∀ v ∈ t.labels, hiddenVisit v = false → db.tree.Contains v.2.pChildren v.2.szChildren := by
  intro v here isShown nonempty
  obtain ⟨stop, start⟩ := (ready.placed mem).range v here isShown
  have header : db.start.cursor = db.layOut.pContext + 0x0b := rfl
  have low := start nonempty
  have place : db.tree.pContext + db.tree.szContext = db.entries.2.cursor := ready.section_end
  have same : db.tree.pContext = db.layOut.pContext := rfl
  omega

lemma shown_below (mem : t ∈ db.visited.1) :
    ((t.children.flatMap (Rose.prune hiddenVisit)).map (Rose.map (record db.tables))).map
        (Rose.map (FmtContext.shown db.tables)) =
      ((t.map fst).children.flatMap (prune elide)).map
        (Rose.map (Context.shown fun line => line.toNat % 2 ^ 32)) := by
  have pruned : (t.map fst).children.flatMap (prune elide) =
      (t.children.flatMap (Rose.prune hiddenVisit)).map (Rose.map fst) := by
    rw [children_map, flatMap_map, map_flatMap]
    apply flatMap_congr
    intro child _
    exact prune_map elide fst child
  rw [pruned, map_map, map_map]
  apply map_congr_left
  intro u memU
  obtain ⟨child, memChild, memU⟩ := mem_flatMap.mp memU
  rw [comp_apply, comp_apply, Rose.map_map, Rose.map_map]
  apply Rose.map_congr
  intro v here
  have kept : v ∈ child.labels := by
    have all : v ∈ (child.prune hiddenVisit).flatMap labels := mem_flatMap.mpr ⟨u, memU, here⟩
    rw [labels_prune] at all
    exact mem_of_mem_filter all
  exact shown_compose ready.tables_laid (ready.listed_below mem v (mem_flatMap.mpr ⟨child, memChild, kept⟩))

lemma tree_trees : (db.tree.entryPoints.map fun (ep, below) =>
      (ep.ctxId, some ep.entryPoint, below.map (Rose.map (FmtContext.shown db.tables)))) =
    db.tops.map fun top => (top.label.identifier.toNat, top.label.scope.entryPoint.map EntryPoint.fmt,
      (top.children.flatMap (Rose.prune elide)).map (Rose.map (Context.shown fun line => line.toNat % 2 ^ 32))) := by
  have same := ready.visited_lays.same
  rw [← same, Database.tree, map_map, map_map]
  apply map_congr_left
  intro t mem
  have entryPoint := ready.entryPoint _ (ready.map_mem mem)
  rw [label_map] at entryPoint
  obtain ⟨kind, isKind⟩ := Option.ne_none_iff_exists'.mp entryPoint
  have fmt : (db.entry t).entryPoint = kind.fmt := by simp [Database.entry, composeEntry, isKind]
  simp only [comp_apply, ready.shown_below mem, fmt, label_map, isKind, Option.map_some]
  rfl

end Database.Ready

/-- Following the pointers of a file that was written visits every context that is not elided once, below its nearest
ancestor that is not elided, and all arrays of children are in the context tree section. -/
theorem write_describes (db : Database M F Fn) (ready : db.Ready) (separate : ∀ top ∈ db.tops, top.Separate elide)
    (file : List UInt8) (written : db.write = some file) :
    ∃ enough, ∀ fuel ≥ enough, ∃ tree, readTree file fuel = some tree ∧
      Describes (fun line => line.toNat % 2 ^ 32) db tree := by
  have fits : db.layOut.pContext + db.layOut.szContext + 8 < 2 ^ 63 ∧ db.layOut.file = file := by
    simpa [Database.write] using written
  obtain ⟨small, rfl⟩ := fits
  rw [ready.section_end] at small
  refine ⟨heightAll db.visited.1, fun fuel enough => ⟨db.tree, ?_, ?_⟩⟩
  · exact ready.readTree_eq separate (by omega) fuel enough
  · constructor
    case trees => exact ready.tree_trees
    case entryRange =>
      intro ep mem
      obtain ⟨t, memT, rfl⟩ := mem_map.mp mem
      exact ready.contains memT t.label (label_mem_labels t) (ready.shown memT)
    case range =>
      intro ep mem u memU ctx here
      obtain ⟨t, memT, rfl⟩ := mem_map.mp mem
      obtain ⟨w, memW, rfl⟩ := mem_map.mp memU
      rw [labels_map] at here
      obtain ⟨v, memV, rfl⟩ := mem_map.mp here
      obtain ⟨child, memChild, memW⟩ := mem_flatMap.mp memW
      have all : v ∈ (child.prune hiddenVisit).flatMap labels := mem_flatMap.mpr ⟨w, memW, memV⟩
      rw [labels_prune, mem_filter] at all
      rw [record, compose_pChildren, compose_szChildren]
      apply ready.contains memT v _ (by simpa using all.2)
      exact flatMap_labels_subset t (mem_flatMap.mpr ⟨child, memChild, all.1⟩)

/-- A function with an instruction in it, which calls a line. -/
def smallDatabase (line : UInt64) : Database Unit Unit Unit where
  before := ⟨[], 0x200⟩
  tables := ⟨⟨[()], 0x90, 0x10⟩, ⟨[()], 0xa0, 0x10⟩, ⟨[.inl ()], 0xb0, 0x28⟩⟩
  tops := [.node ⟨1, .call, .unknown⟩ [.node ⟨2, .call, .function ()⟩
    [.node ⟨3, .enclosure, .point () 5⟩ [.node ⟨4, .call, .line () line⟩ []]]]]
  prettyName := fun _ => 0x100
  gap := fun _ => (0, 0)
  headerFront := replicate 0x40 0
  headerBack := replicate 0x40 0

lemma smallDatabase_ready (line : UInt64) : (smallDatabase line).Ready := by
  constructor
  case header => norm_num [smallDatabase]
  case fits => norm_num [smallDatabase, LayoutEngine.Fits]
  case modules => constructor <;> norm_num [smallDatabase]
  case files => constructor <;> norm_num [smallDatabase]
  case functions => constructor <;> norm_num [smallDatabase]
  case entryPoint => simp [smallDatabase, Scope.entryPoint]
  case distinct => simp [smallDatabase]
  case listed => simp [smallDatabase, Scope.Listed]
  case headerFront => rfl
  case headerBack => rfl

lemma smallDatabase_separate (line : UInt64) : ∀ top ∈ (smallDatabase line).tops, top.Separate elide := by
  have leaf (c : Context Unit Unit Unit) : (Rose.node c []).Separate elide := .node (by simp) (by simp)
  intro top mem
  obtain rfl := mem_singleton.mp mem
  refine .node (fun child mem => ?_) (by simp [elide])
  obtain rfl := mem_singleton.mp mem
  refine .node (fun child mem => ?_) (by simp [elide])
  obtain rfl := mem_singleton.mp mem
  exact .node (by simpa using leaf _) (by simp [elide])

lemma smallDatabase_write (line : UInt64) (small : (smallDatabase line).entries.2.cursor < 2 ^ 62) :
    (smallDatabase line).write = some (smallDatabase line).layOut.file := by
  apply if_pos
  rw [(smallDatabase_ready line).section_end]
  omega

theorem smallDatabase_described : ∃ file, (smallDatabase 7).write = some file ∧
    ∃ enough, ∀ fuel ≥ enough, ∃ tree, readTree file fuel = some tree ∧
      Describes (fun line => line.toNat % 2 ^ 32) (smallDatabase 7) tree := by
  have written := smallDatabase_write 7 (by decide)
  exact ⟨_, written, write_describes _ (smallDatabase_ready 7) (smallDatabase_separate 7) _ written⟩

/-- A line beyond 32 bits is not in the file. -/
theorem line_not_described : ¬ ∀ db : Database Unit Unit Unit, db.Ready → (∀ top ∈ db.tops, top.Separate elide) →
    ∀ file, db.write = some file →
      ∃ enough, ∀ fuel ≥ enough, ∃ tree, readTree file fuel = some tree ∧ Describes UInt64.toNat db tree := by
  intro all
  have ready := smallDatabase_ready (2 ^ 32)
  have small : (smallDatabase (2 ^ 32)).entries.2.cursor < 2 ^ 62 := by decide
  obtain ⟨enough, described⟩ := all _ ready (smallDatabase_separate _) _ (smallDatabase_write _ small)
  obtain ⟨tree, read, describes⟩ := described (max enough _) (le_max_left _ _)
  rw [ready.readTree_eq (smallDatabase_separate _) (by omega) _ (le_max_right _ _)] at read
  cases read
  have same := ready.tree_trees.symm.trans describes.trees
  have lines := congrArg (fun entries => entries.flatMap fun entry =>
    entry.2.2.flatMap fun t => t.labels.map Shown.line) same
  revert lines
  decide

end HpcToolkit.MetaDb
