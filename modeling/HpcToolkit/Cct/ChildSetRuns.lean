import HpcToolkit.Cct.ChildSets
import HpcToolkit.Lib.Reachable

/-! # Runs of edits on child sets

A freed node takes everything below it out of use. So over a run of insertions, deletions and searches the child sets
stay search trees, a path leads to the same node for as long as nothing is deleted, and the free list hands out nodes
that are in no tree.
-/

open Option
open Function List

namespace HpcToolkit.Cct.InPlace

open Lib Heap

namespace Heap

variable {h h' : Heap} {F F' : ℕ → STree ℕ}

/-! ## Freeing a node -/

section Free
variable {cct u u' v : ℕ} {field field' : Field}

section
variable (inv : h.Inv F)
include inv

lemma Inv.link_below {D : Set ℕ} (left : h.links.left (some cct) = none)
    (right : h.links.right (some cct) = none) (used : u ∈ h.live) (below : u ∈ D)
    (member : u = cct ∨ ∃ m ∈ h.live, m ∈ D ∧ u ∈ (F m).toList) (link : h.link u field = some v) :
    ∃ m ∈ h.live, m ∈ D ∧ v ∈ (F m).toList ∧
      (field = .children ∧ m = u ∧ h.children m = some v ∨
        field ≠ .children ∧ u ∈ (F m).toList ∧ (h.links.left (some u) = some v ∨ h.links.right (some u) = some v)) := by
  cases field with
  | children =>
    have root := (inv.linked u used).root
    have link' : h.children u = some v := link
    refine ⟨u, used, below, ?_, .inl ⟨rfl, rfl, link'⟩⟩
    cases shape : F u with
    | nil => simp [shape, link', STree.root?] at root
    | node l x r =>
      obtain rfl : v = x := by simpa [shape, link', STree.root?] using root
      simp
  | left =>
    have link' : h.links.left (some u) = some v := link
    rcases member with rfl | ⟨m, usedM, belowM, inside⟩
    · rw [left] at link'
      cases link'
    · exact ⟨m, usedM, belowM, (inv.linked m usedM).target_mem inside (.inl link'), .inr ⟨by decide, inside, .inl link'⟩⟩
  | right =>
    have link' : h.links.right (some u) = some v := link
    rcases member with rfl | ⟨m, usedM, belowM, inside⟩
    · rw [right] at link'
      cases link'
    · exact ⟨m, usedM, belowM, (inv.linked m usedM).target_mem inside (.inr link'), .inr ⟨by decide, inside, .inr link'⟩⟩

lemma Inv.reaches (left : h.links.left (some cct) = none) (right : h.links.right (some cct) = none)
    (used : cct ∈ h.live) (reaches : h.Reaches cct v) :
    v ∈ h.live ∧ (v = cct ∨ ∃ m ∈ h.live, h.Reaches cct m ∧ v ∈ (F m).toList) := by
  induction reaches with
  | refl => exact ⟨used, .inl rfl⟩
  | tail earlier step ih =>
    obtain ⟨field, link⟩ := step
    obtain ⟨m, usedM, belowM, inside, -⟩ := inv.link_below (D := {v | h.Reaches cct v}) left right ih.1 earlier ih.2 link
    exact ⟨inv.inUse m usedM _ inside, .inr ⟨m, usedM, belowM, inside⟩⟩

lemma Inv.child_unique {m n : ℕ} (usedM : m ∈ h.live) (usedN : n ∈ h.live) (inM : v ∈ (F m).toList)
    (inN : v ∈ (F n).toList) : m = n :=
  Option.some.inj ((inv.parent m usedM v inM).symm.trans (inv.parent n usedN v inN))

lemma Inv.once_below (left : h.links.left (some cct) = none) (right : h.links.right (some cct) = none)
    (used : cct ∈ h.live) (below : h.Reaches cct u) (below' : h.Reaches cct u') (link : h.link u field = some v)
    (link' : h.link u' field' = some v) : u = u' ∧ field = field' := by
  obtain ⟨usedU, memberU⟩ := inv.reaches left right used below
  obtain ⟨usedU', memberU'⟩ := inv.reaches left right used below'
  obtain ⟨m, usedM, -, inside, way⟩ := inv.link_below (D := {v | h.Reaches cct v}) left right usedU below memberU link
  obtain ⟨m', usedM', -, inside', way'⟩ :=
    inv.link_below (D := {v | h.Reaches cct v}) left right usedU' below' memberU' link'
  obtain rfl := inv.child_unique usedM usedM' inside inside'
  have linked := inv.linked m usedM
  have nodup := nodup_of_ordered (inv.ordered m usedM)
  rcases way with ⟨rfl, rfl, root⟩ | ⟨sibling, memU, target⟩ <;>
    rcases way' with ⟨rfl, rfl, root'⟩ | ⟨sibling', memU', target'⟩
  · exact ⟨rfl, rfl⟩
  · exact absurd root (linked.root_not_target nodup memU' target')
  · exact absurd root' (linked.root_not_target nodup memU target)
  · obtain rfl := linked.source_unique nodup memU memU' target target'
    refine ⟨rfl, ?_⟩
    cases field <;> cases field'
    case left.left | right.right => rfl
    case left.right => exact absurd link' (linked.left_ne_right nodup memU link)
    case right.left => exact absurd link (linked.left_ne_right nodup memU link')
    all_goals contradiction

lemma Inv.hpcrunCctNodeFree (used : cct ∈ h.live) (detached : Detached h F cct)
    (left : h.links.left (some cct) = none) (right : h.links.right (some cct) = none) :
    (h.hpcrunCctNodeFree cct).Inv F := by
  have below (v : ℕ) (reaches : h.Reaches cct v) := inv.reaches left right used reaches
  have apart (n : ℕ) (usedN : n ∈ h.live) (outside : ¬h.Reaches cct n) (c : ℕ) (member : c ∈ (F n).toList) :
      ¬h.Reaches cct c := by
    intro reaches
    rcases (below c reaches).2 with rfl | ⟨m, usedM, reachesM, inside⟩
    · exact detached n usedN member
    · exact outside (inv.child_unique usedM usedN inside member ▸ reachesM)
  have parents (c : ℕ) (other : c ≠ cct) : (h.hpcrunCctNodeFree cct).parent c = h.parent c :=
    update_of_ne other _ _
  have free (u : ℕ) : (h.hpcrunCctNodeFree cct).Free u ↔ h.Free u ∨ h.Reaches cct u := by
    have live : (h.hpcrunCctNodeFree cct).live = h.live \ {v | h.Reaches cct v} := rfl
    have allocated : (h.hpcrunCctNodeFree cct).allocated = h.allocated := rfl
    rw [Free, Free, live, allocated, Set.mem_sdiff]
    constructor
    · rintro ⟨fits, outside⟩
      by_cases usedU : u ∈ h.live
      · exact .inr (by_contra fun away => outside ⟨usedU, away⟩)
      · exact .inl ⟨fits, usedU⟩
    · rintro (⟨fits, unused⟩ | reaches)
      · exact ⟨fits, fun inside => unused inside.1⟩
      · exact ⟨inv.allocated u (below u reaches).1, fun inside => inside.2 reaches⟩
  have mixed (u w : ℕ) (field : Field) (unused : h.Free u) (reaches : h.Reaches cct w) : h.link u field ≠ some w :=
    fun link => (inv.area.closed u field w unused link).2 (below w reaches).1
  have toCct (u : ℕ) (field : Field) (reaches : h.Reaches cct u) : h.link u field ≠ some cct := by
    intro link
    obtain ⟨m, usedM, -, inside, -⟩ :=
      inv.link_below (D := {v | h.Reaches cct v}) left right (below u reaches).1 reaches (below u reaches).2 link
    exact detached m usedM inside
  refine ⟨?_, ?_, ?_, ?_, ?_, ?_, ?_, ?_⟩
  · exact fun n usedN => inv.linked n usedN.1
  · exact fun n usedN => inv.ordered n usedN.1
  · exact fun n usedN c member => ⟨inv.inUse n usedN.1 c member, apart n usedN.1 usedN.2 c member⟩
  · intro n usedN c member
    rw [parents c fun same => detached n usedN.1 (same ▸ member)]
    exact inv.parent n usedN.1 c member
  · exact fun n usedN => inv.allocated n usedN.1
  · obtain ⟨nodes, chain, listed⟩ := inv.area.list
    refine ⟨cct :: nodes, addNodeToFreelist_chain chain (p := some cct) ?_, ?_⟩
    · rintro _ ⟨⟩ member
      exact (listed cct member).1.2 used
    · intro v member
      rcases mem_cons.mp member with rfl | inside
      · refine ⟨(free v).mpr (.inr .refl), fun u field freeU => ?_⟩
        rcases (free u).mp freeU with unused | reaches
        · exact mixed u v field unused .refl
        · exact toCct u field reaches
      · refine ⟨(free v).mpr (.inl (listed v inside).1), fun u field freeU => ?_⟩
        rcases (free u).mp freeU with unused | reaches
        · exact (listed v inside).2 u field unused
        · exact fun link => (listed v inside).1.2 (below v (reaches.tail ⟨field, link⟩)).1
  · intro u field v freeU link
    rcases (free u).mp freeU with unused | reaches
    · exact (free v).mpr (.inl (inv.area.closed u field v unused link))
    · exact (free v).mpr (.inr (reaches.tail ⟨field, link⟩))
  · intro u u' field field' v freeU freeU' link link'
    rcases (free u).mp freeU with unused | reaches <;> rcases (free u').mp freeU' with unused' | reaches'
    · exact inv.area.once u u' field field' v unused unused' link link'
    · exact absurd link (mixed u v field unused (reaches'.tail ⟨field', link'⟩))
    · exact absurd link' (mixed u' v field' unused' (reaches.tail ⟨field, link⟩))
    · exact inv.once_below left right used reaches reaches' link link'

lemma Inv.setLinks (links : Links ℕ) (used : cct ∈ h.live) (detached : Detached h F cct)
    (off : Links.SameOff [cct] h.links links) : (h.setLinks links).Inv F := by
  refine ⟨?_, inv.ordered, inv.inUse, inv.parent, inv.allocated, ?_⟩
  · intro n usedN
    apply (inv.linked n usedN).off off
    intro c member same
    exact detached n usedN (mem_singleton.mp same ▸ member)
  · refine inv.area.congr rfl rfl rfl (fun _ _ => rfl) ?_
    intro u unused
    have same := off u fun member => unused.2 (mem_singleton.mp member ▸ used)
    funext field
    cases field
    · rfl
    · exact same.1
    · exact same.2

lemma Inv.hpcrunCctDeleteSelf (used : cct ∈ h.live) (parent : ∀ p ∈ h.parent cct, p ∈ h.live) :
    ∃ h' F', h.hpcrunCctDeleteSelf cct = some h' ∧ h'.Inv F' := by
  obtain ⟨found, h₁, F₁, run, live, inv₁, detached⟩ : ∃ found h₁ F₁,
      h.hpcrunCctDeleteAddr (h.parent cct) (h.addr cct) = some (found, h₁) ∧ h₁.live = h.live ∧ h₁.Inv F₁ ∧
        Detached h₁ F₁ cct := by
    cases up : h.parent cct with
    | none =>
      refine ⟨none, h, F, rfl, rfl, inv, ?_⟩
      intro m usedM member
      have := inv.parent m usedM cct member
      rw [up] at this
      cases this
    | some p =>
      have usedP := parent p up
      obtain ⟨h₁, run, removes, inv₁⟩ := inv.hpcrunCctDeleteAddr usedP (h.addr cct)
      refine ⟨_, h₁, _, run, removes.live, inv₁, ?_⟩
      intro m usedM member
      rw [removes.live] at usedM
      rcases eq_or_ne m p with rfl | differ
      · rw [update_self, STree.toList_removeRoot h.addr _ (inv.ordered m usedM)] at member
        simpa using (mem_filter.mp member).2
      · rw [update_of_ne differ] at member
        exact differ (Option.some.inj ((inv.parent m usedM cct member).symm.trans up))
  have used₁ : cct ∈ h₁.live := live ▸ used
  have inv₂ := inv₁.setLinks ((h₁.links.setLeft (some cct) none).setRight (some cct) none) used₁ detached
    ((Links.sameOff_setLeft _ _ _ (by simp)).trans (Links.sameOff_setRight _ _ _ (by simp)))
  have inv₃ := inv₂.setParent used₁ detached none
  refine ⟨_, F₁, ?_, inv₃.hpcrunCctNodeFree used₁ detached (by simp [Links.setLeft, Links.setRight])
    (by simp [Links.setRight])⟩
  rw [Heap.hpcrunCctDeleteSelf, run]
  rfl

end

end Free

/-! ## Inserting a path -/

/-- The node that a path of addresses leads to from a node. -/
def descend (addr : ℕ → CctAddr) (F : ℕ → STree ℕ) (addrs : List CctAddr) (n : ℕ) : Option ℕ :=
  addrs.foldlM (fun n a => (F n).find? addr a) n

lemma Inv.find?_inUse (inv : h.Inv F) {n c : ℕ} {a : CctAddr} (used : n ∈ h.live)
    (found : (F n).find? h.addr a = some c) : c ∈ h.live :=
  inv.inUse n used c (STree.mem_of_find? h.addr found)

lemma Grows.descend (grows : Grows h F h' F') (inv : h.Inv F) (inv' : h'.Inv F') {addrs : List CctAddr} {n leaf : ℕ}
    (used : n ∈ h.live) (led : descend h.addr F addrs n = some leaf) :
    descend h'.addr F' addrs n = some leaf ∧ leaf ∈ h.live := by
  induction addrs generalizing n with
  | nil =>
    cases led
    exact ⟨rfl, used⟩
  | cons a addrs ih =>
    rw [Heap.descend, foldlM_cons] at led
    obtain ⟨c, found, led⟩ := bind_eq_some_iff.mp led
    obtain ⟨led', usedLeaf⟩ := ih (inv.find?_inUse used found) led
    refine ⟨?_, usedLeaf⟩
    rw [Heap.descend, foldlM_cons, grows.find? inv inv' used found]
    exact led'

/-- The nodes from the end of a path up to its top, all of them in use. -/
structure Path (h : Heap) (path : Option ℕ) (nodes : List ℕ) : Prop where
  chain : Chain h.parent nodes path none
  live : ∀ n ∈ nodes, n ∈ h.live

/-- The addresses of a path, from below its top down to its end. -/
def pathAddrs (h : Heap) (nodes : List ℕ) : List CctAddr := (nodes.dropLast.map h.addr).reverse

lemma Grows.refl (h : Heap) (F : ℕ → STree ℕ) : Grows h F h F :=
  ⟨Set.Subset.rfl, fun _ _ => rfl, fun _ _ _ member => member⟩

lemma Inv.insertPath (inv : h.Inv F) {root : ℕ} (used : root ∈ h.live) {nodes : List ℕ} {fuel : ℕ} {path : Option ℕ}
    (enough : nodes.length ≤ fuel) (goes : h.Path path nodes) :
    ∃ leaf h' F', hpcrunCctInsertPathReturnLeaf fuel h (some root) path = some (some leaf, h') ∧ h'.Inv F' ∧
      Grows h F h' F' ∧ descend h'.addr F' (h.pathAddrs nodes) root = some leaf := by
  induction nodes generalizing fuel path with
  | nil =>
    obtain rfl : path = none := goes.chain
    exact ⟨root, h, F, by rw [hpcrunCctInsertPathReturnLeaf], inv, .refl h F, rfl⟩
  | cons last nodes ih =>
    obtain ⟨rfl, chain⟩ := goes.chain
    cases nodes with
    | nil =>
      have top : h.parent last = none := chain
      exact ⟨root, h, F, by simp [hpcrunCctInsertPathReturnLeaf, top], inv, .refl h F, rfl⟩
    | cons above nodes =>
      obtain ⟨fuel, rfl⟩ : ∃ f, fuel = f + 1 := ⟨fuel - 1, by simp at enough; omega⟩
      have up : h.parent last = some above := chain.1
      obtain ⟨leaf, h₁, F₁, run, inv₁, grows₁, led⟩ := @ih fuel (some above)
        (by simpa using enough) ⟨up ▸ chain, fun n member => goes.live n (mem_cons_of_mem last member)⟩
      have usedLeaf : leaf ∈ h₁.live := ((Grows.refl h₁ F₁).descend inv₁ inv₁ (grows₁.live used) led).2
      obtain ⟨c, h₂, F₂, run', inv₂, grows₂, found⟩ :=
        inv₁.hpcrunCctInsertAddr usedLeaf (h₁.addr last) (h₁.unwound last)
      refine ⟨c, h₂, F₂, ?_, inv₂, grows₁.trans grows₂, ?_⟩
      · simp only [hpcrunCctInsertPathReturnLeaf, up, run, bind_eq_bind, bind_some]
        exact run'
      · have led' := (grows₂.descend inv₁ inv₂ (grows₁.live used) led).1
        have addrs : h.pathAddrs (last :: above :: nodes) = h.pathAddrs (above :: nodes) ++ [h.addr last] := by
          simp [pathAddrs]
        rw [grows₁.addr last (goes.live last (by simp))] at found
        rw [addrs, descend, foldlM_append]
        rw [descend] at led'
        rw [led']
        simpa using found

lemma Inv.path_length (inv : h.Inv F) {path : Option ℕ} {nodes : List ℕ} (goes : h.Path path nodes) :
    nodes.length ≤ h.allocated := by
  have within : nodes ⊆ range h.allocated :=
    fun n member => mem_range.mpr (inv.allocated n (goes.live n member))
  simpa using (goes.chain.nodup.subperm within).length_le

end Heap

/-! ## Runs -/

/-- The operations of a thread on its trees; a root has no parent. -/
inductive Op where
  | newRoot (addr : CctAddr) (unwound : Bool)
  | insertAddr (node : Option ℕ) (frm : CctAddr) (unwound : Bool)
  | insertNode (target src : ℕ)
  | deleteAddr (node : Option ℕ) (frm : CctAddr)
  | findAddr (cct : Option ℕ) (addr : CctAddr)
  | insertPath (root path : Option ℕ)
  | deleteSelf (cct : ℕ)

/-- Nothing is taken out of a child set. -/
def Op.Keeps : Op → Prop
  | .deleteAddr _ _ | .deleteSelf _ => False
  | _ => True

namespace Heap

/-- The memory after an operation; `none` when the operation does not return. -/
def exec (h : Heap) : Op → Option Heap
  | .newRoot addr unwound => some (h.cctNodeCreate addr unwound none).2
  | .insertAddr node frm unwound => (h.hpcrunCctInsertAddr node frm unwound).map Prod.snd
  | .insertNode target src => (h.hpcrunCctInsertNode target src).map Prod.snd
  | .deleteAddr node frm => (h.hpcrunCctDeleteAddr node frm).map Prod.snd
  | .findAddr cct addr => (h.hpcrunCctFindAddr cct addr).map Prod.snd
  | .insertPath root path => (hpcrunCctInsertPathReturnLeaf h.allocated h root path).map Prod.snd
  | .deleteSelf cct => h.hpcrunCctDeleteSelf cct

/-- The child set of a node, as the links have it. -/
def ChildSet (h : Heap) (n : ℕ) (t : STree ℕ) : Prop := h.links.Tree t (h.children n)

/-- A null pointer or a node in use. -/
def Valid (h : Heap) (p : Option ℕ) : Prop := ∀ n ∈ p, n ∈ h.live

/-- What the operations are called on: nodes in use. A node that is inserted is in no child set, its address is not among
those of the children, and where there are no children it has no sibling links. -/
def Allowed (h : Heap) : Op → Prop
  | .newRoot _ _ => True
  | .insertAddr node _ _ => h.Valid node
  | .insertNode target src => target ∈ h.live ∧ src ∈ h.live ∧
      (∀ m ∈ h.live, ∀ t, h.ChildSet m t → src ∉ t.toList) ∧
      (∀ t, h.ChildSet target t → ∀ c ∈ t.toList, h.addr c ≠ h.addr src) ∧
      (h.children target = none → h.links.left (some src) = none ∧ h.links.right (some src) = none)
  | .deleteAddr node _ => h.Valid node
  | .findAddr cct _ => h.Valid cct
  | .insertPath root path => h.Valid root ∧ ∃ nodes, h.Path path nodes
  | .deleteSelf cct => cct ∈ h.live ∧ h.Valid (h.parent cct)

/-- Nothing was handed out yet. -/
structure Unused (h : Heap) : Prop where
  live : h.live = ∅
  allocated : h.allocated = 0
  head : h.cctNodeFreelistHead = none

/-- A child set is a search tree of nodes in use, in which searches find exactly its addresses, and the node that would
be handed out next is not in it. -/
def SearchTree (h : Heap) (n : ℕ) : Prop :=
  ∃ t, h.ChildSet n t ∧ t.Ordered h.addr ∧ (∀ c ∈ t.toList, c ∈ h.live) ∧ h.hpcrunCctNodeAlloc.1 ∉ t.toList ∧
    ∀ a, ∃ found h', h.hpcrunCctFindAddr (some n) a = some (found, h') ∧
      ∀ c, found = some c ↔ c ∈ t.toList ∧ h.addr c = a

/-- A run that only inserts and searches. -/
def KeepingRun (h : Heap) (ops : List Op) (later : Heap) : Prop :=
  EveryStep exec (fun h op => h.Allowed op ∧ op.Keeps) h ops ∧ ops.foldlM exec h = some later

/-- An insertion of an address returns a child that is returned again for as long as nothing is taken out. -/
def InsertsOnce (h : Heap) (n : ℕ) : Prop :=
  ∀ frm unwound, ∃ c h', h.hpcrunCctInsertAddr (some n) frm unwound = some (some c, h') ∧
    ∀ ops later, h'.KeepingRun ops later → ∀ unwound', ∃ last,
      later.hpcrunCctInsertAddr (some n) frm unwound' = some (some c, last)

/-- An insertion of a path returns a node that is returned again for a path of the same addresses, for as long as nothing
is taken out. -/
def InsertsPathOnce (h : Heap) (n : ℕ) : Prop :=
  ∀ path nodes, h.Path path nodes → ∃ leaf h',
    hpcrunCctInsertPathReturnLeaf h.allocated h (some n) path = some (some leaf, h') ∧
      ∀ ops later, h'.KeepingRun ops later → ∀ path' nodes', later.Path path' nodes' →
        later.pathAddrs nodes' = h.pathAddrs nodes → ∃ last,
          hpcrunCctInsertPathReturnLeaf later.allocated later (some n) path' = some (some leaf, last)

/-- What holds of the memory between two operations. -/
structure Sound (h : Heap) : Prop where
  searchTree : ∀ n ∈ h.live, h.SearchTree n
  insertsOnce : ∀ n ∈ h.live, h.InsertsOnce n
  insertsPathOnce : ∀ n ∈ h.live, h.InsertsPathOnce n
  handsOut : h.hpcrunCctNodeAlloc.1 ∉ h.live

variable {h h' : Heap} {F F' : ℕ → STree ℕ}

lemma Unused.inv (unused : h.Unused) : h.Inv fun _ => .nil := by
  have none (n : ℕ) : n ∉ h.live := by
    rw [unused.live]
    exact Set.notMem_empty n
  have noFree (u : ℕ) : ¬h.Free u := by
    rintro ⟨below, -⟩
    rw [unused.allocated] at below
    exact Nat.not_lt_zero u below
  refine ⟨?_, ?_, ?_, ?_, ?_, ⟨⟨[], unused.head, by simp⟩, ?_, ?_⟩⟩
  · exact fun n used => absurd used (none n)
  · exact fun n used => absurd used (none n)
  · exact fun n used => absurd used (none n)
  · exact fun n used => absurd used (none n)
  · exact fun n used => absurd used (none n)
  · exact fun u _ _ free => absurd free (noFree u)
  · exact fun u _ _ _ _ free => absurd free (noFree u)

lemma insertPath_none {nodes : List ℕ} {fuel : ℕ} {path : Option ℕ} (enough : nodes.length ≤ fuel)
    (chain : Chain h.parent nodes path none) : hpcrunCctInsertPathReturnLeaf fuel h none path = some (none, h) := by
  induction nodes generalizing fuel path with
  | nil =>
    obtain rfl : path = none := chain
    rw [hpcrunCctInsertPathReturnLeaf]
  | cons last nodes ih =>
    obtain ⟨rfl, chain⟩ := chain
    obtain ⟨fuel, rfl⟩ : ∃ f, fuel = f + 1 := ⟨fuel - 1, by simp at enough; omega⟩
    cases up : h.parent last with
    | none => simp [hpcrunCctInsertPathReturnLeaf, up]
    | some above =>
      have below := @ih fuel _ (by simpa using enough) chain
      rw [up] at below
      simp [hpcrunCctInsertPathReturnLeaf, up, below, hpcrunCctInsertAddr]

section
variable (inv : h.Inv F)
include inv

lemma Inv.exec {op : Op} (allowed : h.Allowed op) :
    ∃ h' F', h.exec op = some h' ∧ h'.Inv F' ∧ (op.Keeps → Grows h F h' F') := by
  cases op with
  | newRoot addr unwound =>
    have created := inv.area.creates inv.allocated addr unwound none
    exact ⟨_, _, rfl, (inv.creates created).1, fun _ => created.grows⟩
  | insertAddr node frm unwound =>
    cases node with
    | none => exact ⟨h, F, rfl, inv, fun _ => .refl h F⟩
    | some n =>
      obtain ⟨c, h', F', run, inv', grows, -⟩ := inv.hpcrunCctInsertAddr (allowed n rfl) frm unwound
      exact ⟨h', F', by rw [Heap.exec, run]; rfl, inv', fun _ => grows⟩
  | insertNode target src =>
    obtain ⟨used, usedSrc, detached, fresh, leaf⟩ := allowed
    obtain ⟨h', F', run, inv', grows, -⟩ := inv.hpcrunCctInsertNode used usedSrc
      (fun m usedM => detached m usedM (F m) (inv.linked m usedM)) (fresh (F target) (inv.linked target used)) leaf
    exact ⟨h', F', by rw [Heap.exec, run]; rfl, inv', fun _ => grows⟩
  | deleteAddr node frm =>
    cases node with
    | none => exact ⟨h, F, rfl, inv, fun keeps => keeps.elim⟩
    | some n =>
      obtain ⟨h', run, -, inv'⟩ := inv.hpcrunCctDeleteAddr (allowed n rfl) frm
      exact ⟨h', _, by rw [Heap.exec, run]; rfl, inv', fun keeps => keeps.elim⟩
  | findAddr cct addr =>
    cases cct with
    | none => exact ⟨h, F, rfl, inv, fun _ => .refl h F⟩
    | some n =>
      obtain ⟨links, run, inv'⟩ := inv.hpcrunCctFindAddr (allowed n rfl) addr
      exact ⟨_, _, by rw [Heap.exec, run]; rfl, inv', fun _ => grows_splayed _ (STree.toList_splay _ _ _)⟩
  | insertPath root path =>
    obtain ⟨valid, nodes, goes⟩ := allowed
    cases root with
    | none => exact ⟨h, F, by rw [Heap.exec, insertPath_none (inv.path_length goes) goes.chain]; rfl, inv, fun _ => .refl h F⟩
    | some n =>
      obtain ⟨leaf, h', F', run, inv', grows, -⟩ := inv.insertPath (valid n rfl) (inv.path_length goes) goes
      exact ⟨h', F', by rw [Heap.exec, run]; rfl, inv', fun _ => grows⟩
  | deleteSelf cct =>
    obtain ⟨h', F', run, inv'⟩ := inv.hpcrunCctDeleteSelf allowed.1 allowed.2
    exact ⟨h', F', run, inv', fun keeps => keeps.elim⟩

lemma Inv.keepingRun {ops : List Op} {later : Heap} (run : h.KeepingRun ops later) :
    ∃ F', later.Inv F' ∧ Grows h F later F' := by
  have kept : ∀ s op s', (∃ F', s.Inv F' ∧ Grows h F s F') → s.Allowed op ∧ op.Keeps → s.exec op = some s' →
      ∃ F', s'.Inv F' ∧ Grows h F s' F' := by
    rintro s op s' ⟨F', inv', grows⟩ ⟨allowed, keeps⟩ stepped
    obtain ⟨s'', F'', ran, inv'', grows'⟩ := inv'.exec allowed
    obtain rfl : s' = s'' := Option.some.inj (stepped.symm.trans ran)
    exact ⟨F'', inv'', grows.trans (grows' keeps)⟩
  exact run.1.invariant kept ⟨F, inv, .refl h F⟩ run.2

lemma Inv.handsOut : h.hpcrunCctNodeAlloc.1 ∉ h.live := (inv.area.allocates inv.allocated).fresh

lemma Inv.searchTree {n : ℕ} (used : n ∈ h.live) : h.SearchTree n := by
  refine ⟨F n, inv.linked n used, inv.ordered n used, inv.inUse n used,
    fun member => inv.handsOut (inv.inUse n used _ member), fun a => ?_⟩
  obtain ⟨links, run, -⟩ := inv.hpcrunCctFindAddr used a
  exact ⟨_, _, run, fun c => (inv.ordered n used).find?_eq_some h.addr⟩

lemma Inv.insertsOnce {n : ℕ} (used : n ∈ h.live) : h.InsertsOnce n := by
  intro frm unwound
  obtain ⟨c, h₁, F₁, run, inv₁, grows₁, found₁⟩ := inv.hpcrunCctInsertAddr used frm unwound
  refine ⟨c, h₁, run, fun ops later keeping unwound' => ?_⟩
  obtain ⟨F₂, inv₂, grows₂⟩ := inv₁.keepingRun keeping
  have used₁ := grows₁.live used
  obtain ⟨c', last, F₃, run', inv₃, grows₃, found₃⟩ := inv₂.hpcrunCctInsertAddr (grows₂.live used₁) frm unwound'
  have still := (grows₂.trans grows₃).find? inv₁ inv₃ used₁ found₁
  obtain rfl : c' = c := Option.some.inj (found₃.symm.trans still)
  exact ⟨last, run'⟩

lemma Inv.insertsPathOnce {n : ℕ} (used : n ∈ h.live) : h.InsertsPathOnce n := by
  intro path nodes goes
  obtain ⟨leaf, h₁, F₁, run, inv₁, grows₁, led₁⟩ := inv.insertPath used (inv.path_length goes) goes
  refine ⟨leaf, h₁, run, fun ops later keeping path' nodes' goes' same => ?_⟩
  obtain ⟨F₂, inv₂, grows₂⟩ := inv₁.keepingRun keeping
  have used₁ := grows₁.live used
  obtain ⟨leaf', last, F₃, run', inv₃, grows₃, led₃⟩ :=
    inv₂.insertPath (grows₂.live used₁) (inv₂.path_length goes') goes'
  have still := ((grows₂.trans grows₃).descend inv₁ inv₃ used₁ led₁).1
  rw [same] at led₃
  obtain rfl : leaf' = leaf := Option.some.inj (led₃.symm.trans still)
  exact ⟨last, run'⟩

lemma Inv.sound : h.Sound :=
  ⟨fun _ used => inv.searchTree used, fun _ used => inv.insertsOnce used, fun _ used => inv.insertsPathOnce used,
    inv.handsOut⟩

end

/-- An address in the first load module. -/
def at? (ip : UInt64) : CctAddr := ⟨1, ip⟩

/-- Memory of which nothing was handed out. -/
def fresh : Heap where
  addr _ := at? 0
  unwound _ := false
  parent _ := none
  children _ := none
  links := ⟨fun _ => none, fun _ => none⟩
  cctNodeFreelistHead := none
  allocated := 0
  live := ∅

instance (h : Heap) (n : ℕ) (t : STree ℕ) : Decidable (h.ChildSet n t) := Links.Tree.decidable _ _ _

/-- A run that ends with a child set that is no search tree. -/
def Breaks (ops : List Op) (n : ℕ) (t : STree ℕ) : Prop :=
  ∃ h ∈ ops.foldlM exec fresh, h.ChildSet n t ∧ ¬t.Ordered h.addr

instance (ops : List Op) (n : ℕ) (t : STree ℕ) : Decidable (Breaks ops n t) :=
  inferInstanceAs (Decidable (∃ h ∈ ops.foldlM exec fresh, h.ChildSet n t ∧ ¬t.Ordered h.addr))

end Heap

end HpcToolkit.Cct.InPlace
