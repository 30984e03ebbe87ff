import HpcToolkit.Memleak.Overrides

/-! # Where the leakinfo of a block stands

Each block of the application lies in one block of the system, together with its leakinfo if it has one: the header and
the footer are bytes of the system's block that are not the application's. Whatever happens to one block of the system
leaves the blocks of the application in the others as they are, so a call is described by what it does to its own block.
-/

open List

namespace HpcToolkit.Memleak

open Lib

variable {cfg : Config} {m m' : Mem} {r : Allocation} {b c : Block} {t t' : Tracker} {h h' : Arena}
  {blocks : List Block} {tree : STree LeakNode} {p : ℕ}

/-! ## The tree -/

section Tree

variable {node : LeakNode}

lemma splayInsert_fresh (node : LeakNode) (ordered : tree.Ordered LeakNode.memblock)
    (fresh : ∀ n ∈ tree.toList, n.memblock ≠ node.memblock) :
    ∃ tree', splayInsert node tree = some tree' ∧ tree'.Ordered LeakNode.memblock ∧
      tree'.toList.Perm (node :: tree.toList) := by
  have list := STree.toList_splay LeakNode.memblock node.memblock tree
  have orderedS := ordered.splay LeakNode.memblock node.memblock
  have splits := STree.splits_splay LeakNode.memblock node.memblock ordered
  simp only [splayInsert]
  cases root : tree.splay LeakNode.memblock node.memblock with
  | nil =>
    rw [root] at list
    exact ⟨_, rfl, by simp [STree.Ordered], by simp [← list]⟩
  | node l x r =>
    rw [root] at list orderedS splits
    have fresh' : ∀ n ∈ (STree.node l x r).toList, n.memblock ≠ node.memblock := by rwa [list]
    refine ⟨_, if_neg (fresh' x (by simp)), ?_, ?_⟩
    · exact STree.insertRoot_ordered LeakNode.memblock orderedS splits fresh'
    · rw [← list]
      exact STree.insertRoot_perm LeakNode.memblock node _

lemma splayDelete_eq (ordered : tree.Ordered LeakNode.memblock) (key : ℕ) :
    ∃ tree', splayDelete key tree = (tree.find? LeakNode.memblock key, tree') ∧ tree'.Ordered LeakNode.memblock ∧
      tree'.toList = tree.toList.filter fun n => n.memblock ≠ key := by
  have removed := STree.toList_removeRoot LeakNode.memblock key ordered
  have kept := STree.removeRoot_ordered LeakNode.memblock key ordered
  rw [splayDelete, ordered.find?_eq_root? LeakNode.memblock key]
  cases root : tree.splay LeakNode.memblock key with
  | nil =>
    rw [root] at removed kept
    exact ⟨_, rfl, kept, removed⟩
  | node l x r =>
    rw [root] at removed kept
    simp only [STree.root?, Option.filter_some]
    rcases eq_or_ne x.memblock key with same | differ
    · rw [if_pos same, if_pos (decide_eq_true same)]
      exact ⟨_, rfl, kept, removed⟩
    · rw [if_neg differ, if_neg (by simpa using differ)]
      rw [STree.removeRoot, if_neg differ] at removed kept
      exact ⟨_, rfl, kept, removed⟩

end Tree

/-! ## The leakinfo of a block -/

/-- The block of the system that a block lies in, and the leakinfo there. -/
def Layout (cfg : Config) (m : Mem) (r : Allocation) (b : Block) : Prop :=
  r.base = b.sys ∧
  match b.loc with
  | .head => LooksLikeHeader cfg m b.ptr ∧ r.size = b.size + leakinfoSize
  | .foot => magic m (b.ptr + b.size) = memleakMagic ∧ memblock m (b.ptr + b.size) = b.ptr ∧
      r.size = b.size + leakinfoSize
  | .none => b.size ≤ r.size

def Expected (m : Mem) (b : Block) : Prop := ∀ i < b.size, m (b.ptr + i) = b.contents i

/-- The node of the tree for a block with a footer. -/
def footNode (b : Block) : LeakNode := ⟨b.ptr, b.ptr + b.size⟩

/-- The tree holds the nodes of the blocks with a footer. -/
structure Footers (tree : STree LeakNode) (blocks : List Block) : Prop where
  ordered : tree.Ordered LeakNode.memblock
  nodes : tree.toList.Perm ((blocks.filter fun b => b.loc = .foot).map footNode)

structure Inv (cfg : Config) (t : Tracker) (blocks : List Block) : Prop where
  sound : t.heap.Sound
  distinct : blocks.Pairwise Block.Distinct
  held : ∀ b ∈ blocks, ∃ r ∈ t.heap.live, Layout cfg t.heap.mem r b ∧ Expected t.heap.mem b
  footers : Footers t.tree blocks

lemma sys_le : b.sys ≤ b.ptr := by
  rw [Block.sys]
  split <;> omega

lemma Layout.holds (layout : Layout cfg m r b) : r.Holds b.ptr b.size := by
  obtain ⟨base, layout⟩ := layout
  have low := sys_le (b := b)
  simp only [Allocation.Holds]
  rw [Block.sys] at base low
  split at layout
  · next loc =>
    rw [if_pos loc] at base
    obtain ⟨⟨room, -⟩, size⟩ := layout
    omega
  · next loc =>
    rw [if_neg (by rw [loc]; decide)] at base
    omega
  · next loc =>
    rw [if_neg (by rw [loc]; decide)] at base
    omega

lemma Layout.congr (layout : Layout cfg m r b) (before : m.AgreeOn m' r.base (b.ptr - r.base))
    (behind : m.AgreeOn m' (b.ptr + b.size) (r.base + r.size - (b.ptr + b.size))) : Layout cfg m' r b := by
  have within := layout.holds
  obtain ⟨base, layout⟩ := layout
  refine ⟨base, ?_⟩
  have words {a : ℕ} (apart : r.base ≤ a ∧ a + 8 ≤ b.ptr ∨ b.ptr + b.size ≤ a ∧ a + 8 ≤ r.base + r.size) :
      m'.word 8 a = m.word 8 a := by
    rcases apart with ⟨low, high⟩ | ⟨low, high⟩
    · exact (before.mono low (by omega)).word
    · exact (behind.mono low (by omega)).word
  rw [Block.sys] at base
  simp only [Allocation.Holds, leakinfoSize] at within base layout ⊢
  split at layout
  · next loc =>
    rw [if_pos loc] at base
    obtain ⟨⟨room, page, isMagic, isBlock⟩, size⟩ := layout
    simp only [leakinfoSize] at room page isMagic isBlock
    refine ⟨⟨room, page, ?_, ?_⟩, size⟩
    · rw [magic, leakinfoSize, words (by omega)]
      exact isMagic
    · rw [memblock, leakinfoSize, words (by omega)]
      exact isBlock
  · next loc =>
    rw [if_neg (by rw [loc]; decide)] at base
    obtain ⟨isMagic, isBlock, size⟩ := layout
    refine ⟨?_, ?_, size⟩
    · rw [magic, words (by omega)]
      exact isMagic
    · rw [memblock, words (by omega)]
      exact isBlock
  · exact layout

lemma Expected.congr (expected : Expected m b) (agree : m.AgreeOn m' b.ptr b.size) : Expected m' b :=
  fun i within => (agree _ (Nat.le_add_right ..) (by omega)).trans (expected i within)

/-! ## What a call leaves alone -/

section
variable (inv : Inv cfg t blocks)
include inv

lemma Inv.framed (frame : Arena.Frame p t.heap h') (sound : h'.Sound) (elsewhere : ∀ b ∈ blocks, b.sys ≠ p) :
    Inv cfg ⟨h', t.tree⟩ blocks := by
  refine ⟨sound, inv.distinct, ?_, inv.footers⟩
  intro b member
  obtain ⟨r, live, layout, expected⟩ := inv.held b member
  obtain ⟨live', agree⟩ := frame r live (layout.1 ▸ elsewhere b member)
  obtain ⟨low, high⟩ := layout.holds
  exact ⟨r, live', layout.congr (agree.mono le_rfl (by omega)) (agree.mono (by omega) (by omega)),
    expected.congr (agree.mono low high)⟩

lemma Inv.add (live : r ∈ t.heap.live) (layout : Layout cfg t.heap.mem r b) (expected : Expected t.heap.mem b)
    (fresh : ∀ c ∈ blocks, c.ptr ≠ b.ptr) (elsewhere : ∀ c ∈ blocks, c.sys ≠ b.sys)
    (footers : Footers tree (b :: blocks)) : Inv cfg ⟨t.heap, tree⟩ (b :: blocks) := by
  refine ⟨inv.sound, .cons (fun c member => ⟨(fresh c member).symm, (elsewhere c member).symm⟩) inv.distinct, ?_,
    footers⟩
  rintro c (_ | ⟨_, member⟩)
  · exact ⟨r, live, layout, expected⟩
  · exact inv.held c member

lemma Inv.transparent : Transparent ⟨t, blocks⟩ := by
  refine ⟨inv.distinct, ?_, ?_, ?_⟩
  · intro b member
    obtain ⟨r, live, layout, -⟩ := inv.held b member
    exact ⟨r, live, layout.1, layout.holds⟩
  · intro b member
    obtain ⟨r, -, -, expected⟩ := inv.held b member
    exact expected
  · have nodes := inv.footers.nodes.map LeakNode.memblock
    rwa [map_map] at nodes

end

lemma inv_initial (mem : Mem) : Inv cfg (initial mem).tracker (initial mem).blocks := by
  refine ⟨⟨.nil, ?_, ?_⟩, .nil, ?_, ⟨?_, .nil⟩⟩
  · intro r member
    exact absurd member not_mem_nil
  · intro r member
    exact absurd member not_mem_nil
  · intro b member
    exact absurd member not_mem_nil
  · exact List.Pairwise.nil

end HpcToolkit.Memleak

/-! # The release of a block

`memleak_get_free_loc` finds a header by its bytes and a footer in the tree. For a block of the application it finds what
was put there, unless the bytes before a block without a header look like one. The leakinfo that is found is invalidated,
which changes bytes of the system's block that are not the application's.
-/

namespace HpcToolkit.Memleak

open Lib

variable {cfg : Config} {t : Tracker} {blocks : List Block} {b c : Block} {tree tree' : STree LeakNode} {p : ℕ}

lemma mem_besides : c ∈ besides blocks p ↔ c ∈ blocks ∧ c.ptr ≠ p := by
  simp [besides]

section
variable (inv : Inv cfg t blocks) (member : b ∈ blocks)
include inv member

lemma Inv.eq_of_ptr (member' : c ∈ blocks) (same : c.ptr = b.ptr) : c = b := by
  rcases eq_or_ne c b with equal | differ
  · exact equal
  · exact absurd same (inv.distinct.forall member' member differ).1

lemma Inv.sys_ne : ∀ c ∈ besides blocks b.ptr, c.sys ≠ b.sys := by
  intro c other
  obtain ⟨member', differ⟩ := mem_besides.mp other
  exact (inv.distinct.forall member' member (ne_of_apply_ne Block.ptr differ)).2

lemma Inv.find?_tree : t.tree.find? LeakNode.memblock b.ptr = if b.loc = .foot then some (footNode b) else none := by
  have nodes {n : LeakNode} : n ∈ t.tree.toList ↔ ∃ c ∈ blocks, c.loc = .foot ∧ footNode c = n := by
    rw [inv.footers.nodes.mem_iff]
    simp [and_assoc]
  split
  · next loc =>
    exact (inv.footers.ordered.find?_eq_some LeakNode.memblock).mpr ⟨nodes.mpr ⟨b, member, loc, rfl⟩, rfl⟩
  · next loc =>
    refine (STree.find?_eq_none LeakNode.memblock).mpr ?_
    rintro n present same
    obtain ⟨c, member', foot, rfl⟩ := nodes.mp present
    rw [inv.eq_of_ptr member member' same] at foot
    exact loc foot

end

lemma Footers.without (footers : Footers tree blocks) (ordered : tree'.Ordered LeakNode.memblock)
    (list : tree'.toList = tree.toList.filter fun n => n.memblock ≠ p) : Footers tree' (besides blocks p) := by
  refine ⟨ordered, ?_⟩
  rw [list, besides, filter_comm]
  have kept := footers.nodes.filter fun n => n.memblock ≠ p
  rwa [filter_map] at kept

lemma Inv.perm_besides (inv : Inv cfg t blocks) (member : b ∈ blocks) :
    blocks.Perm (b :: besides blocks b.ptr) := by
  have nodup : blocks.Nodup := inv.distinct.imp fun distinct same => distinct.1 (congrArg Block.ptr same)
  refine (perm_ext_iff_of_nodup nodup ?_).mpr ?_
  · exact .cons (fun self => (mem_besides.mp self).2 rfl) (nodup.filter _)
  · intro c
    rw [mem_cons, mem_besides]
    constructor
    · intro member'
      rcases eq_or_ne c.ptr b.ptr with same | differ
      · exact .inl (inv.eq_of_ptr member member' same)
      · exact .inr ⟨member', differ⟩
    · rintro (rfl | ⟨member', -⟩)
      · exact member
      · exact member'

lemma Footers.store (footers : Footers tree (b :: blocks)) (contents : ℕ → UInt8) :
    Footers tree ({ b with contents } :: blocks) := by
  refine ⟨footers.ordered, footers.nodes.trans (.of_eq ?_)⟩
  cases loc : b.loc <;> simp [loc, footNode]

/-- What is known of a block of the system when the leakinfo in it is forgotten. -/
structure Released (cfg : Config) (blocks : List Block) (b : Block) (t : Tracker) (r : Allocation) : Prop where
  rest : Inv cfg t (besides blocks b.ptr)
  live : r ∈ t.heap.live
  base : r.base = b.sys
  holds : r.Holds b.ptr b.size
  header : b.loc = .head → b.ptr = r.base + leakinfoSize ∧ r.size = b.size + leakinfoSize
  expected : Expected t.heap.mem b
  elsewhere : ∀ c ∈ besides blocks b.ptr, c.sys ≠ r.base

lemma Layout.header {m : Mem} {r : Allocation} (layout : Layout cfg m r b) (loc : b.loc = .head) :
    b.ptr = r.base + leakinfoSize ∧ r.size = b.size + leakinfoSize ∧ LooksLikeHeader cfg m b.ptr := by
  obtain ⟨base, layout⟩ := layout
  rw [loc] at layout
  rw [Block.sys, if_pos loc] at base
  exact ⟨by rw [base, Nat.sub_add_cancel layout.1.1], layout.2, layout.1⟩

lemma Inv.without (inv : Inv cfg t blocks) (footers : Footers tree (besides blocks p)) :
    Inv cfg ⟨t.heap, tree⟩ (besides blocks p) :=
  ⟨inv.sound, inv.distinct.filter _, fun c other => inv.held c (mem_besides.mp other).1, footers⟩

section
variable {r : Allocation} (inv : Inv cfg t blocks) (member : b ∈ blocks) (live : r ∈ t.heap.live)
  (layout : Layout cfg t.heap.mem r b) (expected : Expected t.heap.mem b)
  (footers : Footers tree (besides blocks b.ptr))
include inv member live layout expected footers

lemma Inv.released : Released cfg blocks b ⟨t.heap, tree⟩ r := by
  refine ⟨inv.without footers, live, layout.1, layout.holds, ?_, expected, ?_⟩
  · intro loc
    obtain ⟨ptr, size, -⟩ := layout.header loc
    exact ⟨ptr, size⟩
  · rw [layout.1]
    exact inv.sys_ne member

lemma Inv.invalidated {a : ℕ} (within : r.Holds a 8) (apart : a + 8 ≤ b.ptr ∨ b.ptr + b.size ≤ a) :
    ∃ h, memleakFreeHelper t.heap (some a) = some h ∧ h.live = t.heap.live ∧ Released cfg blocks b ⟨h, tree⟩ r := by
  have length : (toLE 8 0).length = 8 := length_toLE ..
  rw [← length] at within apart
  obtain ⟨-, -, base, holds, header, -, elsewhere⟩ := inv.released member live layout expected footers
  have frame := Arena.frame_write inv.sound live within
  have rest := (inv.without footers).framed frame (Arena.sound_write inv.sound) elsewhere
  exact ⟨_, Arena.write_eq live within, rfl, rest, live, base, holds, header,
    expected.congr (Mem.agreeOn_put apart), elsewhere⟩

end

lemma Inv.release (inv : Inv cfg t blocks) (member : b ∈ blocks) (meets : MeetsRelease cfg t.heap.mem b) :
    ∃ info tree h r, memleakGetFreeLoc cfg t b.ptr = (b.loc, b.sys, info, tree) ∧
      memleakFreeHelper t.heap info = some h ∧ h.live = t.heap.live ∧ Released cfg blocks b ⟨h, tree⟩ r := by
  obtain ⟨r, live, layout, expected⟩ := inv.held b member
  obtain ⟨tree, deleted, ordered, list⟩ := splayDelete_eq inv.footers.ordered b.ptr
  have footers := inv.footers.without ordered list
  have found := inv.find?_tree member
  have holds := layout.holds
  rw [found] at deleted
  simp only [MeetsRelease] at meets
  rw [memleakGetFreeLoc]
  cases loc : b.loc with
  | head =>
    obtain ⟨ptr, size, looks⟩ := layout.header loc
    have unchanged : t.tree.toList.filter (fun n => n.memblock ≠ b.ptr) = t.tree.toList := by
      rw [loc, if_neg (by decide), STree.find?_eq_none] at found
      exact filter_eq_self.mpr fun n present => decide_eq_true (found n present)
    have footers' := inv.footers.without inv.footers.ordered unchanged.symm
    have within : r.Holds (b.ptr - leakinfoSize) 8 := by
      simp only [Allocation.Holds, leakinfoSize] at ptr size ⊢
      omega
    have apart : b.ptr - leakinfoSize + 8 ≤ b.ptr := by
      simp only [leakinfoSize] at ptr ⊢
      omega
    obtain ⟨h, helper, same, released⟩ := inv.invalidated member live layout expected footers' within (.inl apart)
    refine ⟨_, _, h, r, ?_, helper, same, released⟩
    rw [if_pos looks, Block.sys, if_pos loc]
  | foot =>
    have notHeader := meets (by rw [loc]; decide)
    rw [loc, if_pos rfl] at deleted
    obtain ⟨base, isMagic, isBlock, size⟩ : r.base = b.sys ∧ _ ∧ _ ∧ _ := by
      have whole := layout
      rwa [Layout, loc] at whole
    have sys : b.sys = b.ptr := by rw [Block.sys, if_neg (by rw [loc]; decide)]
    have within : r.Holds (b.ptr + b.size) 8 := by
      simp only [Allocation.Holds, leakinfoSize] at size ⊢
      omega
    obtain ⟨h, helper, same, released⟩ := inv.invalidated member live layout expected footers within (.inr le_rfl)
    refine ⟨_, _, h, r, ?_, helper, same, released⟩
    rw [if_neg notHeader, deleted, sys]
    exact if_pos ⟨isMagic, isBlock⟩
  | none =>
    have notHeader := meets (by rw [loc]; decide)
    rw [loc, if_neg (by decide)] at deleted
    have sys : b.sys = b.ptr := by rw [Block.sys, if_neg (by rw [loc]; decide)]
    refine ⟨none, tree, t.heap, r, ?_, rfl, rfl, inv.released member live layout expected footers⟩
    rw [if_neg notHeader, deleted, sys]

lemma Released.free {r : Allocation} (released : Released cfg blocks b t r) (reply : Reply) :
    ∃ h, t.heap.free b.sys reply = some h ∧ Inv cfg ⟨h, t.tree⟩ (besides blocks b.ptr) := by
  obtain ⟨rest, live, base, -, -, -, elsewhere⟩ := released
  rw [← base]
  exact ⟨_, Arena.free_eq live, rest.framed Arena.frame_others (Arena.sound_others rest.sound _) elsewhere⟩

lemma Inv.ptr_ne_zero (inv : Inv cfg t blocks) (member : b ∈ blocks) : b.ptr ≠ 0 := by
  obtain ⟨r, live, layout, -⟩ := inv.held b member
  have positive := inv.sound.positive r live
  have low := layout.1.le.trans sys_le
  omega

end HpcToolkit.Memleak

/-! # A new block

The leakinfo is written into the 48 bytes that the system's block has more than the application asked for, so the bytes
of the application keep what they hold, and the block that comes out is laid out as `free` will look for it.
-/

namespace HpcToolkit.Memleak

open Lib

variable {cfg : Config} {t : Tracker} {blocks : List Block} {b c : Block} {m : Mem} {h : Arena}
  {sys bytes align appl info context : ℕ} {loc : Loc} {contents : ℕ → UInt8} {env : Env}

lemma magic_put_leakinfo : magic (m.put info (leakinfo context bytes appl)) info = memleakMagic := by
  have read := Mem.word_put_append (m := m) (a := info) []
    (toLE 8 context ++ toLE 8 bytes ++ toLE 8 appl ++ toLE 8 0 ++ toLE 8 0) (show memleakMagic < 256 ^ 8 by decide)
  simpa only [magic, leakinfo, nil_append, append_assoc, length_nil, Nat.add_zero] using read

lemma memblock_put_leakinfo (bound : appl < 2 ^ 64) :
    memblock (m.put info (leakinfo context bytes appl)) info = appl := by
  have read := Mem.word_put_append (m := m) (a := info) (toLE 8 memleakMagic ++ toLE 8 context ++ toLE 8 bytes)
    (toLE 8 0 ++ toLE 8 0) (show appl < 256 ^ 8 by simpa using bound)
  simpa only [memblock, leakinfo, append_assoc, length_append, length_toLE] using read

lemma Footers.add {tree : STree LeakNode} (footers : Footers tree blocks) (loc : b.loc ≠ .foot) :
    Footers tree (b :: blocks) := by
  refine ⟨footers.ordered, ?_⟩
  rw [filter_cons_of_neg (by simpa using loc)]
  exact footers.nodes

lemma Footers.insert {tree : STree LeakNode} (footers : Footers tree blocks) (loc : b.loc = .foot)
    (fresh : ∀ c ∈ blocks, c.ptr ≠ b.ptr) :
    ∃ tree', splayInsert (footNode b) tree = some tree' ∧ Footers tree' (b :: blocks) := by
  have absent : ∀ n ∈ tree.toList, n.memblock ≠ b.ptr := by
    intro n present
    obtain ⟨c, foot, rfl⟩ := mem_map.mp (footers.nodes.mem_iff.mp present)
    exact fresh c (mem_of_mem_filter foot)
  obtain ⟨tree', inserted, ordered, nodes⟩ := splayInsert_fresh (footNode b) footers.ordered absent
  refine ⟨tree', inserted, ordered, nodes.trans ?_⟩
  rw [filter_cons_of_pos (by simpa using loc)]
  exact footers.nodes.cons _

lemma getMallocLoc_cases (chosen : memleakGetMallocLoc cfg sys bytes align = (loc, appl, info)) :
    (loc = .head ∧ appl = sys + leakinfoSize ∧ sys = info ∧ memleakSamePage cfg sys appl) ∨
      (loc = .foot ∧ sys = appl ∧ info = sys + bytes) := by
  simp only [memleakGetMallocLoc] at chosen
  split at chosen
  · next header =>
    simp only [Prod.mk.injEq] at chosen
    obtain ⟨rfl, rfl, rfl⟩ := chosen
    exact .inl ⟨rfl, rfl, rfl, header.2.2⟩
  · simp only [Prod.mk.injEq] at chosen
    obtain ⟨rfl, rfl, rfl⟩ := chosen
    exact .inr ⟨rfl, rfl, rfl⟩

section
variable (inv : Inv cfg t blocks) (live : (⟨sys, bytes + leakinfoSize⟩ : Allocation) ∈ t.heap.live)
  (chosen : memleakGetMallocLoc cfg sys bytes align = (loc, appl, info))
  (elsewhere : ∀ c ∈ blocks, c.sys ≠ sys) (fresh : ∀ c ∈ blocks, c.ptr ≠ appl)
include inv live chosen elsewhere fresh

variable (context) in
lemma Inv.addLeakinfo : ∃ h tree,
    memleakAddLeakinfo t appl info bytes context loc = some ⟨h, tree⟩ ∧ h.live = t.heap.live ∧ appl ≠ 0 ∧
      t.heap.mem.AgreeOn h.mem appl bytes ∧
      ∀ contents, Expected h.mem ⟨appl, bytes, contents, loc⟩ →
        Inv cfg ⟨h, tree⟩ (⟨appl, bytes, contents, loc⟩ :: blocks) := by
  have positive : sys ≠ 0 := inv.sound.positive _ live
  have bounded : sys + (bytes + 48) < 2 ^ 64 := inv.sound.bounded _ live
  have length : (leakinfo context bytes appl).length = 48 := length_leakinfo ..
  have stored (holds : (⟨sys, bytes + leakinfoSize⟩ : Allocation).Holds info (leakinfo context bytes appl).length) :
      Inv cfg ⟨{ t.heap with mem := t.heap.mem.put info (leakinfo context bytes appl) }, t.tree⟩ blocks :=
    inv.framed (Arena.frame_write inv.sound live holds) (Arena.sound_write inv.sound) elsewhere
  rcases getMallocLoc_cases chosen with ⟨rfl, rfl, rfl, page⟩ | ⟨rfl, rfl, rfl⟩
  · have holds : (⟨sys, bytes + leakinfoSize⟩ : Allocation).Holds sys
        (leakinfo context bytes (sys + leakinfoSize)).length := by
      rw [length]
      exact ⟨le_rfl, by simp only [leakinfoSize]; omega⟩
    have sysOf (contents : ℕ → UInt8) : (⟨sys + leakinfoSize, bytes, contents, .head⟩ : Block).sys = sys :=
      Nat.add_sub_cancel ..
    refine ⟨{ t.heap with mem := t.heap.mem.put sys (leakinfo context bytes (sys + leakinfoSize)) }, t.tree, ?_, rfl,
      by simp only [leakinfoSize]; omega, Mem.agreeOn_put (.inl (by rw [length, leakinfoSize])), ?_⟩
    · rw [memleakAddLeakinfo, if_neg positive, Arena.write_eq live holds]
      rfl
    · intro contents expected
      have isHeader : LooksLikeHeader cfg (t.heap.mem.put sys (leakinfo context bytes (sys + leakinfoSize)))
          (sys + leakinfoSize) := by
        simp only [LooksLikeHeader, Nat.add_sub_cancel]
        exact ⟨Nat.le_add_left .., page, magic_put_leakinfo, memblock_put_leakinfo (by simp only [leakinfoSize]; omega)⟩
      exact (stored holds).add live ⟨(sysOf contents).symm, isHeader, rfl⟩ expected fresh
        (by rwa [sysOf]) (inv.footers.add (show Loc.head ≠ .foot by decide))
  · have holds : (⟨sys, bytes + leakinfoSize⟩ : Allocation).Holds (sys + bytes) (leakinfo context bytes sys).length := by
      rw [length]
      exact ⟨Nat.le_add_right .., by simp only [leakinfoSize]; omega⟩
    obtain ⟨tree, inserted, footers⟩ := inv.footers.insert (b := ⟨sys, bytes, fun _ => 0, .foot⟩) rfl fresh
    refine ⟨{ t.heap with mem := t.heap.mem.put (sys + bytes) (leakinfo context bytes sys) }, tree, ?_, rfl, positive,
      Mem.agreeOn_put (.inr le_rfl), ?_⟩
    · rw [memleakAddLeakinfo, if_neg (by omega), Arena.write_eq live holds]
      exact congrArg (fun o => Option.bind o _) inserted
    · intro contents expected
      exact (stored holds).add live ⟨rfl, magic_put_leakinfo, memblock_put_leakinfo (by omega), rfl⟩ expected fresh
        elsewhere ⟨footers.ordered, footers.nodes⟩

end

/-! ## The allocating functions -/

/-- What an allocating call leaves behind: the blocks as they were when it fails, else one more of them. -/
def Allocated (cfg : Config) (blocks : List Block) (bytes : ℕ) : ℕ × Loc × Tracker → Prop
  | (appl, loc, t) =>
    (appl = 0 → Inv cfg t blocks) ∧
    (appl ≠ 0 → ∀ contents, Expected t.heap.mem ⟨appl, bytes, contents, loc⟩ →
      Inv cfg t (⟨appl, bytes, contents, loc⟩ :: blocks))

lemma Inv.sys_ne_of_fits (inv : Inv cfg t blocks) {p n : ℕ} (fits : Arena.Fits t.heap.live p n) (success : p ≠ 0) :
    ∀ c ∈ blocks, c.sys ≠ p := by
  rintro c member rfl
  obtain ⟨r, live, layout, -⟩ := inv.held c member
  exact ((fits success).1 r live).base_ne layout.1.symm

lemma systemSize_of_lt {active : Bool} (bound : bytes + (if active then leakinfoSize else 0) < 2 ^ 64) :
    systemSize active (bytes % 2 ^ 64) = bytes + if active then leakinfoSize else 0 := by
  rw [systemSize, Nat.mod_add_mod, Nat.mod_eq_of_lt bound]

lemma Inv.clearBlock {c : Bool} {r : Allocation} (inv : Inv cfg t blocks) (live : r ∈ t.heap.live)
    (elsewhere : ∀ c ∈ blocks, c.sys ≠ r.base) :
    ∃ h, Memleak.clearBlock c t.heap r.base r.size = some h ∧ h.live = t.heap.live ∧ Inv cfg ⟨h, t.tree⟩ blocks ∧
      (c = true → ∀ i < r.size, h.mem (r.base + i) = 0) := by
  have positive := inv.sound.positive _ live
  cases c with
  | false => exact ⟨_, if_neg (by simp), rfl, inv, by simp⟩
  | true =>
    have holds : r.Holds r.base (replicate r.size (0 : UInt8)).length := by
      rw [length_replicate]
      exact ⟨le_rfl, le_rfl⟩
    refine ⟨_, (if_pos ⟨rfl, positive⟩).trans (Arena.write_eq live holds), rfl,
      inv.framed (Arena.frame_write inv.sound live holds) (Arena.sound_write inv.sound) elsewhere, ?_⟩
    intro _ i within
    exact (Mem.put_at (by rwa [length_replicate])).trans (by simp [within])

lemma Inv.settled (inv : Inv cfg t blocks) (after : Mem) :
    Inv cfg ⟨{ t.heap with mem := Arena.settle t.heap.live t.heap.mem after }, t.tree⟩ blocks := by
  refine inv.framed (p := 0) Arena.frame_settle (Arena.sound_write inv.sound) ?_
  intro c member
  obtain ⟨r, live, layout, -⟩ := inv.held c member
  exact layout.1 ▸ inv.sound.positive r live

lemma Inv.mallocHelper (clear : Bool) (inv : Inv cfg t blocks)
    (fits : Arena.Fits t.heap.live env.reply.ptr (systemSize env.active (bytes % 2 ^ 64)))
    (meets : MeetsAlloc cfg blocks bytes align env) :
    ∃ result, memleakMallocHelper cfg t (bytes % 2 ^ 64) align clear env = some result ∧
      Allocated cfg blocks bytes result ∧
      (clear = true → result.1 ≠ 0 → ∀ i < bytes, result.2.2.heap.mem (result.1 + i) = 0) := by
  rcases eq_or_ne env.reply.ptr 0 with failed | success
  · refine ⟨(0, .none, _), ?_, ⟨fun _ => inv.settled env.reply.mem, fun nonzero => absurd rfl nonzero⟩,
      fun _ nonzero => absurd rfl nonzero⟩
    simp [memleakMallocHelper, Arena.malloc, Memleak.clearBlock, failed]
  · obtain ⟨bound, fresh⟩ := meets success
    have elsewhere := inv.sys_ne_of_fits fits success
    have framed := inv.framed Arena.frame_malloc (Arena.sound_malloc inv.sound fits) elsewhere
    rw [systemSize_of_lt bound] at framed
    simp only [Arena.malloc, if_neg success] at framed
    obtain ⟨h, cleared, same, kept, zero⟩ := framed.clearBlock (c := clear) mem_cons_self elsewhere
    have live : (⟨env.reply.ptr, bytes + if env.active then leakinfoSize else 0⟩ : Allocation) ∈ h.live := by
      rw [same]
      exact mem_cons_self
    simp only [memleakMallocHelper, systemSize_of_lt bound, Arena.malloc, if_neg success, cleared]
    cases active : env.active with
    | false =>
      simp only [active, Bool.false_eq_true, if_false] at live zero fresh
      refine ⟨(env.reply.ptr, .none, ⟨h, t.tree⟩), rfl, ⟨fun null => absurd null success, ?_⟩, fun clear _ => zero clear⟩
      intro _ contents expected
      exact kept.add live ⟨rfl, le_rfl⟩ expected (fun c member => fresh c member) elsewhere
        (kept.footers.add (show Loc.none ≠ .foot by decide))
    | true =>
      simp only [active, if_true] at live zero fresh bound
      rw [Nat.mod_eq_of_lt ((Nat.le_add_right ..).trans_lt bound)]
      simp only [Option.bind_eq_bind, Option.bind_some, reduceCtorEq, success, or_self, if_false]
      generalize chosen : memleakGetMallocLoc cfg env.reply.ptr bytes align = place at fresh ⊢
      obtain ⟨loc, appl, info⟩ := place
      obtain ⟨h', tree, added, -, nonzero, agree, grown⟩ := kept.addLeakinfo env.context live chosen
        elsewhere fresh
      refine ⟨(appl, loc, ⟨h', tree⟩), congrArg (fun o => Option.bind o _) added,
        ⟨fun null => absurd null nonzero, fun _ => grown⟩, ?_⟩
      intro clear _ i within
      refine (agree _ (Nat.le_add_right ..) (Nat.add_lt_add_left within appl)).trans ?_
      rcases getMallocLoc_cases chosen with ⟨-, rfl, -⟩ | ⟨-, rfl, -⟩
      · rw [Nat.add_assoc]
        exact zero clear _ (by omega)
      · exact zero clear i (by omega)

end HpcToolkit.Memleak

/-! # A block that is resized

The bytes of the application stand in the system's block behind the header, if there was one, and must stand behind the
header, if there is one now. The system's `realloc` copies the old block from its base, so in each of the combinations
the bytes that both sizes have in common end up where the new pointer says, under `MeetsResize`.
-/

namespace HpcToolkit.Memleak

open Lib

variable {cfg : Config} {t : Tracker} {blocks : List Block} {b c : Block} {r : Allocation} {m : Mem} {h : Arena}
  {sys' bytes appl info : ℕ} {loc : Loc} {env : Env}

lemma expected_resized (common : ∀ i < min b.size bytes, m (appl + i) = b.contents i) (loc : Loc) :
    Expected m ⟨appl, bytes, State.resized b bytes m appl, loc⟩ := by
  intro i _
  simp only [State.resized]
  split
  · next within => exact common i within
  · rfl

lemma Block.sys_of_ne_head (loc : b.loc ≠ .head) : b.sys = b.ptr := if_neg loc

lemma Inv.realloc {n : ℕ} (inv : Inv cfg t blocks) (live : r ∈ t.heap.live) (elsewhere : ∀ c ∈ blocks, c.sys ≠ r.base)
    (fits : Arena.Fits (t.heap.others r.base) env.reply.ptr n) (success : env.reply.ptr ≠ 0) :
    ∃ h, t.heap.realloc r.base n env.reply = some (env.reply.ptr, h) ∧ (⟨env.reply.ptr, n⟩ : Allocation) ∈ h.live ∧
      Inv cfg ⟨h, t.tree⟩ blocks ∧ ∀ i < min r.size n, h.mem (env.reply.ptr + i) = t.heap.mem (r.base + i) :=
  ⟨_, Arena.realloc_eq inv.sound live success, mem_cons_self,
    inv.framed Arena.frame_realloc (Arena.sound_realloc inv.sound fits success _) elsewhere,
    fun _ within => Arena.realloc_bytes fits success within⟩

section
variable (released : Released cfg blocks b t r)
include released

lemma Released.not_head (loc : b.loc ≠ .head) : r.base = b.ptr ∧ b.size ≤ r.size := by
  have base := released.base.trans (Block.sys_of_ne_head loc)
  obtain ⟨-, high⟩ := released.holds
  exact ⟨base, by omega⟩

lemma Released.fits_elsewhere {p n : ℕ} (fits : Arena.Fits (t.heap.others r.base) p n) (success : p ≠ 0) :
    ∀ c ∈ besides blocks b.ptr, c.sys ≠ p := by
  rintro c other rfl
  obtain ⟨q, live, layout, -⟩ := released.rest.held c other
  have differ : q.base ≠ r.base := layout.1 ▸ released.elsewhere c other
  exact ((fits success).1 q (Arena.mem_others.mpr ⟨live, differ⟩)).base_ne layout.1.symm

lemma Released.slideUntracked (bound : b.loc = .head → bytes ≤ b.size + leakinfoSize) :
    ∃ h, slideUntracked t.heap b.loc r.base b.ptr bytes = some h ∧ (b.loc ≠ .head → h = t.heap) ∧ r ∈ h.live ∧
      (∀ p, h.others p = t.heap.others p) ∧ Inv cfg ⟨h, t.tree⟩ (besides blocks b.ptr) ∧
      ∀ i < min b.size bytes, h.mem (r.base + i) = b.contents i := by
  obtain ⟨rest, live, base, holds, header, expected, elsewhere⟩ := released
  rcases eq_or_ne b.loc .head with head | notHead
  · obtain ⟨ptr, size⟩ := header head
    have room := bound head
    have within : r.Holds r.base (t.heap.mem.bytes b.ptr bytes).length := by
      rw [Mem.length_bytes]
      exact ⟨le_rfl, by omega⟩
    refine ⟨_, (if_pos head).trans (Arena.write_eq live within), fun other => absurd head other, live, fun _ => rfl,
      rest.framed (Arena.frame_write rest.sound live within) (Arena.sound_write rest.sound) elsewhere, ?_⟩
    intro i common
    exact (Mem.put_bytes_at (by omega)).trans (expected i (by omega))
  · refine ⟨t.heap, if_neg notHead, fun _ => rfl, live, fun _ => rfl, rest, ?_⟩
    rw [base, Block.sys_of_ne_head notHead]
    exact fun i common => expected i (by omega)

/-- What `realloc` leaves behind: when it fails, the block as it was, without a leakinfo; else the block it returns. -/
def Resized (cfg : Config) (blocks : List Block) (b : Block) (bytes : ℕ) : ℕ × Loc × Tracker → Prop
  | (appl, loc, t) =>
    (appl = 0 → Inv cfg t ({ b with loc := .none } :: besides blocks b.ptr)) ∧
    (appl ≠ 0 → Inv cfg t
      (⟨appl, bytes, State.resized b bytes t.heap.mem appl, loc⟩ :: besides blocks b.ptr))

lemma Released.untracked (active : env.active = false)
    (fits : Arena.Fits (t.heap.others r.base) env.reply.ptr bytes)
    (fresh : env.reply.ptr ≠ 0 → ∀ c ∈ besides blocks b.ptr, c.ptr ≠ env.reply.ptr)
    (meets : b.loc = .head → bytes ≤ b.size + leakinfoSize ∧ env.reply.ptr ≠ 0) :
    ∃ result, resize cfg t b.loc b.ptr r.base bytes env = some result ∧ Resized cfg blocks b bytes result := by
  obtain ⟨h, slid, same, live, others, kept, common⟩ := released.slideUntracked fun head => (meets head).1
  rw [resize, if_pos active, slid]
  obtain ⟨low, high⟩ := released.holds
  rcases eq_or_ne env.reply.ptr 0 with failed | success
  · have notHead : b.loc ≠ .head := fun head => (meets head).2 failed
    obtain rfl := same notHead
    obtain ⟨base, room⟩ := released.not_head notHead
    refine ⟨(0, .none, _), congrArg (fun o => Option.bind o _) (Arena.realloc_failed kept.sound live failed), ?_,
      fun nonzero => absurd rfl nonzero⟩
    intro _
    have settled := kept.settled env.reply.mem
    have agree := Arena.agreeOn_settle (m := t.heap.mem) env.reply.mem live
    have sys : ({ b with loc := .none } : Block).sys = r.base := base.symm
    refine settled.add live ⟨sys.symm, room⟩ ?_ (fun c other => (mem_besides.mp other).2)
      (by simpa only [sys] using released.elsewhere) (kept.footers.add (show Loc.none ≠ .foot by decide))
    exact released.expected.congr (agree.mono base.le (by omega))
  · rw [← others] at fits
    obtain ⟨h', resized, live', kept', copied⟩ := kept.realloc live released.elsewhere fits success
    refine ⟨(env.reply.ptr, .none, ⟨h', t.tree⟩), congrArg (fun o => Option.bind o _) resized,
      fun null => absurd null success, ?_⟩
    intro _
    refine kept'.add live' ⟨rfl, le_rfl⟩ (expected_resized ?_ .none) (fresh success) ?_
      (kept'.footers.add (show Loc.none ≠ .foot by decide))
    · intro i within
      rw [copied i (by omega), common i within]
    · rw [others] at fits
      exact released.fits_elsewhere fits success

end

section
variable (inv : Inv cfg t blocks) (live : r ∈ t.heap.live) (elsewhere : ∀ c ∈ blocks, c.sys ≠ r.base)
include inv live elsewhere

lemma Inv.memmove {a s n : ℕ} (within : r.Holds a n) :
    ∃ h, Memleak.memmove t.heap a s n = some h ∧ r ∈ h.live ∧ Inv cfg ⟨h, t.tree⟩ blocks ∧
      ∀ i < n, h.mem (a + i) = t.heap.mem (s + i) := by
  rw [← Mem.length_bytes (m := t.heap.mem) (a := s) (n := n)] at within
  exact ⟨_, Arena.write_eq live within, live,
    inv.framed (Arena.frame_write inv.sound live within) (Arena.sound_write inv.sound) elsewhere,
    fun _ common => Mem.put_bytes_at common⟩

lemma Inv.slideTracked {loc' : Loc} {old : ℕ → UInt8} {n p : ℕ} (size : r.size = bytes + leakinfoSize)
    (chosen : memleakGetMallocLoc cfg r.base bytes 0 = (loc', appl, info))
    (meets : loc = .head ∨ loc' ≠ .head ∨ r.base = p ∨ n = 0)
    (copied : ∀ i < min n bytes, t.heap.mem (r.base + (if loc = .head then leakinfoSize else 0) + i) = old i) :
    ∃ h, Memleak.slideTracked t.heap loc loc' r.base p bytes = some h ∧ r ∈ h.live ∧ Inv cfg ⟨h, t.tree⟩ blocks ∧
      ∀ i < min n bytes, h.mem (appl + i) = old i := by
  rw [Memleak.slideTracked]
  rcases getMallocLoc_cases chosen with ⟨rfl, rfl, -⟩ | ⟨rfl, rfl, -⟩
  · rcases eq_or_ne loc .head with head | notHead
    · rw [if_pos head] at copied
      refine ⟨t.heap, ?_, live, inv, copied⟩
      rw [if_neg (by simp), if_neg (by simp [head])]
    · obtain ⟨h, moved, live', kept, carried⟩ :=
        inv.memmove (a := r.base + leakinfoSize) (s := p) (n := bytes) live elsewhere ⟨by omega, by omega⟩
      refine ⟨h, ?_, live', kept, ?_⟩
      · rw [if_neg (by simp), if_pos ⟨notHead, rfl⟩, moved]
      · intro i within
        rw [if_neg notHead] at copied
        have unmoved : r.base = p := by
          rcases meets with head | other | same | empty
          · exact absurd head notHead
          · exact absurd rfl other
          · exact same
          · omega
        rw [carried i (by omega), ← unmoved]
        exact copied i within
  · rcases eq_or_ne loc .head with head | notHead
    · obtain ⟨h, moved, live', kept, carried⟩ :=
        inv.memmove (a := r.base) (s := r.base + leakinfoSize) (n := bytes) live elsewhere ⟨le_rfl, by omega⟩
      rw [if_pos head] at copied
      refine ⟨h, ?_, live', kept, fun i within => (carried i (by omega)).trans (copied i within)⟩
      rw [if_pos ⟨head, by decide⟩, moved]
    · rw [if_neg notHead] at copied
      refine ⟨t.heap, ?_, live, inv, copied⟩
      rw [if_neg (by simp [notHead]), if_neg (by simp)]

end

lemma Released.tracked (released : Released cfg blocks b t r) (active : env.active = true)
    (bound : bytes + leakinfoSize < 2 ^ 64)
    (fits : Arena.Fits (t.heap.others r.base) env.reply.ptr (bytes + leakinfoSize))
    (fresh : ∀ c ∈ besides blocks b.ptr, c.ptr ≠ (memleakGetMallocLoc cfg env.reply.ptr bytes 0).2.1)
    (success : env.reply.ptr ≠ 0)
    (meets : b.loc = .head ∨ (memleakGetMallocLoc cfg env.reply.ptr bytes 0).1 ≠ .head ∨ env.reply.ptr = b.ptr ∨
      b.size = 0) :
    ∃ result, resize cfg t b.loc b.ptr r.base bytes env = some result ∧ Resized cfg blocks b bytes result := by
  obtain ⟨h, resized, live, kept, carried⟩ := released.rest.realloc released.live released.elsewhere fits success
  have elsewhere := released.fits_elsewhere fits success
  have size : systemSize true bytes = bytes + leakinfoSize := Nat.mod_eq_of_lt bound
  have copied : ∀ i < min b.size bytes,
      h.mem (env.reply.ptr + (if b.loc = .head then leakinfoSize else 0) + i) = b.contents i := by
    intro i within
    rw [← released.expected i (by omega), Nat.add_assoc]
    rcases eq_or_ne b.loc .head with head | notHead
    · obtain ⟨ptr, room⟩ := released.header head
      rw [if_pos head, carried _ (by omega), ptr, Nat.add_assoc]
    · obtain ⟨base, room⟩ := released.not_head notHead
      rw [if_neg notHead, Nat.zero_add, carried _ (by omega), base]
  rw [resize, if_neg (by simp [active]), size, resized]
  simp only [Option.bind_eq_bind, Option.bind_some]
  generalize chosen : memleakGetMallocLoc cfg env.reply.ptr bytes 0 = place at fresh meets ⊢
  obtain ⟨loc', appl, info⟩ := place
  obtain ⟨h', slid, live', kept', common⟩ := kept.slideTracked live elsewhere rfl chosen meets copied
  obtain ⟨h'', tree, added, -, nonzero, agree, grown⟩ := kept'.addLeakinfo env.context live' chosen
    elsewhere fresh
  refine ⟨(appl, loc', ⟨h'', tree⟩), ?_, fun null => absurd null nonzero, fun _ => grown _ (expected_resized ?_ loc')⟩
  · rw [slid, Option.bind_some, added, Option.bind_some]
  · intro i within
    exact (agree _ (Nat.le_add_right ..) (by omega)).trans (common i within)

lemma Released.resize (released : Released cfg blocks b t r) (same : t.heap.live = h.live) (bound : bytes < 2 ^ 64)
    (fits : Arena.Fits (h.others b.sys) env.reply.ptr (systemSize env.active bytes))
    (alloc : MeetsAlloc cfg (besides blocks b.ptr) bytes 0 env) (meets : MeetsResize cfg b bytes env) :
    ∃ result, Memleak.resize cfg t b.loc b.ptr b.sys bytes env = some result ∧ Resized cfg blocks b bytes result := by
  have others : t.heap.others r.base = h.others b.sys := by
    rw [Arena.others, Arena.others, same, released.base]
  rw [← others] at fits
  rw [← released.base]
  simp only [MeetsAlloc] at alloc
  simp only [MeetsResize] at meets
  cases active : env.active with
  | false =>
    simp only [active, Bool.false_eq_true, if_false, Nat.add_zero] at alloc meets
    rw [active, systemSize] at fits
    simp only [Bool.false_eq_true, if_false, Nat.add_zero, Nat.mod_eq_of_lt bound] at fits
    exact released.untracked active fits (fun success => (alloc success).2) meets
  | true =>
    simp only [active, if_true] at alloc meets
    obtain ⟨success, meets⟩ := meets
    obtain ⟨room, fresh⟩ := alloc success
    rw [active, systemSize] at fits
    simp only [if_true, Nat.mod_eq_of_lt room] at fits
    exact released.tracked active room fits fresh success meets

end HpcToolkit.Memleak
