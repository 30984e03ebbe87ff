import HpcToolkit.Cct.NodesInPlace

/-! # The child sets of the nodes in use

Each node in use has a search tree of children, which point back to it; so a node is in one child set at most. Every
operation edits one child set and leaves the others.
-/

open Option
open Function List

namespace HpcToolkit.Cct.InPlace.Heap

open Lib
open STree hiding nil node

variable {h h' : Heap} {F : ℕ → STree ℕ}

/-- `F n` is the child set of the node `n`. -/
structure Inv (h : Heap) (F : ℕ → STree ℕ) : Prop where
  linked : ∀ n ∈ h.live, h.links.Tree (F n) (h.children n)
  ordered : ∀ n ∈ h.live, (F n).Ordered h.addr
  inUse : ∀ n ∈ h.live, ∀ c ∈ (F n).toList, c ∈ h.live
  parent : ∀ n ∈ h.live, ∀ c ∈ (F n).toList, h.parent c = some n
  allocated : ∀ n ∈ h.live, n < h.allocated
  area : h.FreeArea

/-- The node is in no child set. -/
def Detached (h : Heap) (F : ℕ → STree ℕ) (x : ℕ) : Prop := ∀ m ∈ h.live, x ∉ (F m).toList

/-- The end of both insertions, on a splayed child set: the node takes the place of the root. -/
def placed (h : Heap) (n x : ℕ) : Option ℕ → Heap
  | none => h.setChildren n (some x)
  | some found => (h.setChildren n (some x)).placeAbove x found

variable {t : STree ℕ}

lemma nodup_of_ordered {addr : ℕ → CctAddr} (ordered : t.Ordered addr) : t.toList.Nodup :=
  List.Pairwise.imp (fun less => by rintro rfl; exact lt_irrefl _ less) ordered

variable {addr addr' : ℕ → CctAddr}

lemma ordered_congr (ordered : t.Ordered addr)
    (same : ∀ c ∈ t.toList, addr' c = addr c) : t.Ordered addr' := by
  apply List.Pairwise.imp_of_mem _ ordered
  intro a b memA memB less
  rwa [same a memA, same b memB]

variable {a : CctAddr}

lemma splits_congr (splits : t.Splits addr a)
    (same : ∀ c ∈ t.toList, addr' c = addr c) : t.Splits addr' a := by
  cases t with
  | nil => trivial
  | node l found r =>
    refine ⟨fun c member => ?_, fun c member => ?_⟩
    · rw [same c (by simp [member])]
      exact splits.1 c member
    · rw [same c (by simp [member])]
      exact splits.2 c member

namespace Inv

variable {n : ℕ}

lemma length_le (inv : h.Inv F) (used : n ∈ h.live) : (F n).toList.length ≤ h.allocated := by
  have within : (F n).toList ⊆ range h.allocated := by
    intro c member
    exact mem_range.mpr (inv.allocated c (inv.inUse n used c member))
  have fits := ((nodup_of_ordered (inv.ordered n used)).subperm within).length_le
  simpa using fits

lemma edit (inv : h.Inv F) (used : n ∈ h.live) (h' : Heap) (t : STree ℕ) (live : h'.live = h.live)
    (allocated : h'.allocated = h.allocated) (head : h'.cctNodeFreelistHead = h.cctNodeFreelistHead)
    (addr : h'.addr = h.addr) (children : ∀ m, m ≠ n → h'.children m = h.children m)
    (links : Links.SameOff (t.toList ++ (F n).toList) h.links h'.links)
    (parent : ∀ c, c ∉ t.toList → h'.parent c = h.parent c)
    (tree : h'.links.Tree t (h'.children n)) (ordered : t.Ordered h.addr)
    (members : ∀ c ∈ t.toList, c ∈ h.live ∧ h'.parent c = some n ∧ ∀ m ∈ h.live, m ≠ n → c ∉ (F m).toList) :
    h'.Inv (update F n t) := by
  have apart (m : ℕ) (usedM : m ∈ h.live) (differ : m ≠ n) (c : ℕ) (member : c ∈ (F m).toList) :
      c ∉ t.toList ++ (F n).toList := by
    intro again
    rcases mem_append.mp again with inside | inside
    · exact (members c inside).2.2 m usedM differ member
    · have same := (inv.parent m usedM c member).symm.trans (inv.parent n used c inside)
      exact differ (Option.some.inj same)
  refine ⟨?_, ?_, ?_, ?_, ?_, ?_⟩
  · intro m usedM
    rw [live] at usedM
    rcases eq_or_ne m n with rfl | differ
    · rwa [update_self]
    · rw [update_of_ne differ, children m differ]
      exact (inv.linked m usedM).off links (apart m usedM differ)
  · intro m usedM
    rw [live] at usedM
    rw [addr]
    rcases eq_or_ne m n with rfl | differ
    · rwa [update_self]
    · rw [update_of_ne differ]
      exact inv.ordered m usedM
  · intro m usedM c member
    rw [live] at usedM ⊢
    rcases eq_or_ne m n with rfl | differ
    · rw [update_self] at member
      exact (members c member).1
    · rw [update_of_ne differ] at member
      exact inv.inUse m usedM c member
  · intro m usedM c member
    rw [live] at usedM
    rcases eq_or_ne m n with rfl | differ
    · rw [update_self] at member
      exact (members c member).2.1
    · rw [update_of_ne differ] at member
      rw [parent c fun inside => apart m usedM differ c member (mem_append_left _ inside)]
      exact inv.parent m usedM c member
  · rw [live, allocated]
    exact inv.allocated
  · have offFree (u : ℕ) (free : h.Free u) : u ∉ t.toList ++ (F n).toList := by
      intro member
      rcases mem_append.mp member with inside | inside
      · exact free.2 (members u inside).1
      · exact free.2 (inv.inUse n used u inside)
    apply inv.area.congr live allocated head
    · exact fun u free => parent u fun inside => offFree u free (mem_append_left _ inside)
    · intro u free
      funext field
      cases field
      · exact children u fun same => free.2 (same ▸ used)
      · exact (links u (offFree u free)).1
      · exact (links u (offFree u free)).2

lemma members_apart (inv : h.Inv F) {n c : ℕ} (used : n ∈ h.live) (member : c ∈ (F n).toList) :
    c ∈ h.live ∧ h.parent c = some n ∧ ∀ m ∈ h.live, m ≠ n → c ∉ (F m).toList := by
  refine ⟨inv.inUse n used c member, inv.parent n used c member, ?_⟩
  intro m usedM differ again
  exact differ (Option.some.inj ((inv.parent m usedM c again).symm.trans (inv.parent n used c member)))

/-! ## Splaying a child set -/

lemma splay (inv : h.Inv F) (used : n ∈ h.live) (a : CctAddr) :
    ∃ links, h.splay (h.children n) a = some ((STree.splay h.addr a (F n)).root?, h.setLinks links) ∧
      links.Tree (STree.splay h.addr a (F n)) (STree.splay h.addr a (F n)).root? ∧
      Links.SameOff (F n).toList h.links links := by
  obtain ⟨root, links, run, tree, off⟩ := (inv.linked n used).splay h.addr a
    (nodup_of_ordered (inv.ordered n used)) (inv.length_le used)
  obtain rfl : root = _ := tree.root
  exact ⟨links, by rw [Heap.splay, run]; rfl, tree, off⟩

variable {links : Links ℕ}

lemma relinked (inv : h.Inv F) (used : n ∈ h.live)
    (tree : links.Tree t t.root?) (off : Links.SameOff (F n).toList h.links links) (ordered : t.Ordered h.addr)
    (within : ∀ c ∈ t.toList, c ∈ (F n).toList) :
    ((h.setLinks links).setChildren n t.root?).Inv (update F n t) := by
  apply inv.edit used ((h.setLinks links).setChildren n t.root?) t rfl rfl rfl rfl
  · exact fun m differ => update_of_ne differ _ _
  · intro c outside
    exact off c fun member => outside (mem_append_right _ member)
  · exact fun _ _ => rfl
  · simpa using tree
  · exact ordered
  · exact fun c member => inv.members_apart used (within c member)

lemma splayed (inv : h.Inv F) (used : n ∈ h.live)
    (tree : links.Tree (STree.splay h.addr a (F n)) (STree.splay h.addr a (F n)).root?)
    (off : Links.SameOff (F n).toList h.links links) :
    ((h.setLinks links).setChildren n (STree.splay h.addr a (F n)).root?).Inv
      (update F n (STree.splay h.addr a (F n))) := by
  apply inv.relinked used tree off ((inv.ordered n used).splay h.addr a)
  rw [toList_splay]
  exact fun _ member => member

lemma hpcrunCctFindAddr (inv : h.Inv F) (used : n ∈ h.live) (a : CctAddr) :
    ∃ links, h.hpcrunCctFindAddr (some n) a = some ((F n).find? h.addr a,
        (h.setLinks links).setChildren n (STree.splay h.addr a (F n)).root?) ∧
      ((h.setLinks links).setChildren n (STree.splay h.addr a (F n)).root?).Inv
        (update F n (STree.splay h.addr a (F n))) := by
  obtain ⟨links, run, tree, off⟩ := inv.splay used a
  refine ⟨links, ?_, inv.splayed used tree off⟩
  rw [Heap.hpcrunCctFindAddr, run, (inv.ordered n used).find?_eq_root?]
  cases (STree.splay h.addr a (F n)).root? with
  | none => rfl
  | some found =>
    rcases eq_or_ne a (h.addr found) with same | differ
    · simp [same, filter_some]
    · simp [differ, differ.symm, filter_some]

/-! ## Adding a node to a child set -/

lemma cctAddrLt_eq_decide (a b : CctAddr) : cctAddrLt a b = decide (a < b) := by
  rw [Bool.eq_iff_iff, cctAddrLt_iff, decide_eq_true_iff]

lemma setParent (inv : h.Inv F) {x : ℕ} (used : x ∈ h.live) (detached : Detached h F x) (p : Option ℕ) :
    (h.setParent x p).Inv F := by
  refine ⟨inv.linked, inv.ordered, inv.inUse, ?_, inv.allocated, ?_⟩
  · intro m usedM c member
    have other : c ≠ x := by
      rintro rfl
      exact detached m usedM member
    exact (update_of_ne other _ _).trans (inv.parent m usedM c member)
  · refine inv.area.congr rfl rfl rfl ?_ fun _ _ => rfl
    intro u free
    have other : u ≠ x := by
      rintro rfl
      exact free.2 used
    exact update_of_ne other _ _

lemma place (inv : h.Inv F) {n x : ℕ} (used : n ∈ h.live) (usedX : x ∈ h.live) (detached : Detached h F x)
    (parent : h.parent x = some n) (splits : STree.Splits h.addr (h.addr x) (F n))
    (fresh : ∀ c ∈ (F n).toList, h.addr c ≠ h.addr x)
    (leaf : F n = .nil → h.links.left (some x) = none ∧ h.links.right (some x) = none) :
    (placed h n x (F n).root?).Inv (update F n (insertRoot h.addr x (F n))) := by
  have keeps : (placed h n x (F n).root?).live = h.live ∧ (placed h n x (F n).root?).allocated = h.allocated ∧
      (placed h n x (F n).root?).cctNodeFreelistHead = h.cctNodeFreelistHead ∧
      (placed h n x (F n).root?).addr = h.addr ∧ (placed h n x (F n).root?).parent = h.parent ∧
      (placed h n x (F n).root?).children = update h.children n (some x) := by
    cases (F n).root? <;> exact ⟨rfl, rfl, rfl, rfl, rfl, rfl⟩
  obtain ⟨live, allocated, head, addr, parents, children⟩ := keeps
  apply inv.edit used (placed h n x (F n).root?) (insertRoot h.addr x (F n)) live allocated head addr
  · intro m differ
    rw [children, update_of_ne differ]
  · have memX : x ∈ (insertRoot h.addr x (F n)).toList ++ (F n).toList :=
      mem_append_left _ ((mem_insertRoot h.addr).mpr (.inl rfl))
    cases shape : F n with
    | nil => exact fun _ _ => ⟨rfl, rfl⟩
    | node l found r =>
      rw [shape] at memX
      exact Links.sameOff_placeAbove _ _ _ memX (mem_append_right _ (by simp))
  · exact fun c _ => congrFun parents c
  · rw [children, update_self]
    have linked := inv.linked n used
    have nodup := nodup_of_ordered (inv.ordered n used)
    have outside := detached n used
    cases shape : F n with
    | nil => exact ⟨rfl, (leaf shape).1, (leaf shape).2⟩
    | node l found r =>
      rw [shape] at linked nodup outside
      simp only [root?, placed, placeAbove, setChildren_addr, cctAddrLt_eq_decide]
      exact linked.placeAbove nodup outside
  · exact insertRoot_ordered h.addr (inv.ordered n used) splits fresh
  · intro c member
    rw [parents]
    rcases (mem_insertRoot h.addr).mp member with rfl | inside
    · exact ⟨usedX, parent, fun m usedM _ => detached m usedM⟩
    · exact inv.members_apart used inside

lemma creates (inv : h.Inv F) {unwound : Bool} {parent : Option ℕ} {new : ℕ}
    (created : h.Creates a unwound parent new h') :
    h'.Inv (update F new .nil) ∧ Detached h' (update F new .nil) new := by
  have other (m : ℕ) (used : m ∈ h.live) : m ≠ new := by
    rintro rfl
    exact created.fresh used
  have sets (m : ℕ) (used : m ∈ h'.live) : update F new .nil m = .nil ∨
      m ∈ h.live ∧ m ≠ new ∧ update F new .nil m = F m := by
    rw [created.live] at used
    rcases used with rfl | old
    · exact .inl (update_self _ _ _)
    · exact .inr ⟨old, other m old, update_of_ne (other m old) _ _⟩
  have leafNew : h'.children new = none := by rw [created.children, update_self]
  refine ⟨⟨?_, ?_, ?_, ?_, ?_, created.area⟩, ?_⟩
  · intro m used
    rcases eq_or_ne m new with rfl | differ
    · rw [update_self, leafNew]
      rfl
    · have old : m ∈ h.live := by
        rw [created.live] at used
        exact used.resolve_left differ
      rw [update_of_ne differ, created.children, update_of_ne differ, created.links]
      apply (inv.linked m old).congr
      · intro c member
        exact update_of_ne (by simpa using other c (inv.inUse m old c member)) _ _
      · intro c member
        exact update_of_ne (by simpa using other c (inv.inUse m old c member)) _ _
  · intro m used
    rcases sets m used with same | ⟨old, -, same⟩
    · rw [same]
      exact .nil
    · rw [same, created.addr]
      apply ordered_congr (inv.ordered m old)
      intro c member
      exact update_of_ne (other c (inv.inUse m old c member)) _ _
  · intro m used c member
    rcases sets m used with same | ⟨old, -, same⟩
    · simp [same] at member
    · rw [same] at member
      rw [created.live]
      exact .inr (inv.inUse m old c member)
  · intro m used c member
    rcases sets m used with same | ⟨old, -, same⟩
    · simp [same] at member
    · rw [same] at member
      rw [created.parent c (inv.inUse m old c member)]
      exact inv.parent m old c member
  · intro m used
    rw [created.live] at used
    rcases used with rfl | old
    · exact created.below
    · exact (inv.allocated m old).trans_le created.more
  · intro m used member
    rcases sets m used with same | ⟨old, -, same⟩
    · simp [same] at member
    · rw [same] at member
      exact created.fresh (inv.inUse m old new member)

end Inv

/-- What is in use stays in use, with its address, and no child leaves its set. -/
structure Grows (h : Heap) (F : ℕ → STree ℕ) (h' : Heap) (F' : ℕ → STree ℕ) : Prop where
  live : h.live ⊆ h'.live
  addr : ∀ m ∈ h.live, h'.addr m = h.addr m
  members : ∀ m ∈ h.live, ∀ c ∈ (F m).toList, c ∈ (F' m).toList

lemma Grows.trans {h'' : Heap} {F' F'' : ℕ → STree ℕ} (grows : Grows h F h' F') (grows' : Grows h' F' h'' F'') :
    Grows h F h'' F'' where
  live := grows.live.trans grows'.live
  addr m used := (grows'.addr m (grows.live used)).trans (grows.addr m used)
  members m used c member := grows'.members m (grows.live used) c (grows.members m used c member)

lemma Grows.find? {F' : ℕ → STree ℕ} (grows : Grows h F h' F') (inv : h.Inv F) (inv' : h'.Inv F') {n c : ℕ}
    (used : n ∈ h.live) (found : (F n).find? h.addr a = some c) : (F' n).find? h'.addr a = some c := by
  have member := mem_of_find? h.addr found
  apply ((inv'.ordered n (grows.live used)).find?_eq_some h'.addr).mpr
  refine ⟨grows.members n used c member, ?_⟩
  rw [grows.addr c (inv.inUse n used c member)]
  exact key_of_find? h.addr found

variable {n : ℕ}

lemma grows_splayed (links : Links ℕ) {p : Option ℕ}
    (list : t.toList = (F n).toList) : Grows h F ((h.setLinks links).setChildren n p) (update F n t) where
  live := Set.Subset.rfl
  addr _ _ := rfl
  members m _ c member := by
    rcases eq_or_ne m n with rfl | differ
    · rwa [update_self, list]
    · rwa [update_of_ne differ]

lemma Creates.grows {unwound : Bool} {parent : Option ℕ} {new : ℕ}
    (created : h.Creates a unwound parent new h') : Grows h F h' (update F new .nil) where
  live := by
    rw [created.live]
    exact Set.subset_insert new h.live
  addr m used := by
    rw [created.addr, update_of_ne]
    rintro rfl
    exact created.fresh used
  members m used c member := by
    rw [update_of_ne]
    · exact member
    · rintro rfl
      exact created.fresh used

lemma grows_placed (n x : ℕ) :
    Grows h F (placed h n x (F n).root?) (update F n (insertRoot h.addr x (F n))) where
  live := by cases (F n).root? <;> exact Set.Subset.rfl
  addr m _ := by cases (F n).root? <;> rfl
  members m _ c member := by
    rcases eq_or_ne m n with rfl | differ
    · rw [update_self]
      exact (mem_insertRoot h.addr).mpr (.inr member)
    · rwa [update_of_ne differ]

@[simp] lemma placed_addr (n x : ℕ) (p : Option ℕ) : (placed h n x p).addr = h.addr := by cases p <;> rfl

lemma Inv.insertNew (inv : h.Inv F) (used : n ∈ h.live) (frm : CctAddr) (unwound : Bool)
    (splits : STree.Splits h.addr frm (F n)) (absent : (F n).find? h.addr frm = none) :
    ∃ new h' F', h.cctNodeCreate frm unwound (some n) = (new, h') ∧ (placed h' n new (F n).root?).Inv F' ∧
      Grows h F (placed h' n new (F n).root?) F' ∧ (F' n).find? h'.addr frm = some new := by
  have created := inv.area.creates inv.allocated frm unwound (some n)
  rcases run : h.cctNodeCreate frm unwound (some n) with ⟨new, h'⟩
  rw [run] at created
  change h.Creates frm unwound (some n) new h' at created
  obtain ⟨inv', detached⟩ := inv.creates created
  have grown : Grows h F h' (update F new .nil) := created.grows
  have other : n ≠ new := by
    rintro rfl
    exact created.fresh used
  have set : update F new .nil n = F n := update_of_ne other _ _
  have addrNew : h'.addr new = frm := by rw [created.addr, update_self]
  have sameAddr (c : ℕ) (member : c ∈ (F n).toList) : h'.addr c = h.addr c :=
    grown.addr c (inv.inUse n used c member)
  have usedNew : new ∈ h'.live := by
    rw [created.live]
    exact .inl rfl
  have inv'' := inv'.place (grown.live used) usedNew detached created.parentNew
    (by rw [set, addrNew]; exact splits_congr splits sameAddr)
    (by
      intro c member
      rw [set] at member
      rw [addrNew, sameAddr c member]
      exact (find?_eq_none h.addr).mp absent c member)
    (by simp [created.links, Links.setLeft, Links.setRight])
  have grows := grown.trans (grows_placed n new)
  rw [set] at inv'' grows
  refine ⟨new, h', _, rfl, inv'', grows, ?_⟩
  rw [update_self]
  have ordered := inv''.ordered n (grows.live used)
  rw [update_self, placed_addr] at ordered
  exact (ordered.find?_eq_some h'.addr).mpr ⟨(mem_insertRoot h'.addr).mpr (.inl rfl), addrNew⟩

lemma Inv.hpcrunCctInsertAddr (inv : h.Inv F) (used : n ∈ h.live) (frm : CctAddr) (unwound : Bool) :
    ∃ c h' F', h.hpcrunCctInsertAddr (some n) frm unwound = some (some c, h') ∧ h'.Inv F' ∧ Grows h F h' F' ∧
      (F' n).find? h'.addr frm = some c := by
  obtain ⟨links, run, tree, off⟩ := inv.splay used frm
  have inv₁ := inv.splayed used tree off
  have grows₁ := grows_splayed (h := h) links (p := (STree.splay h.addr frm (F n)).root?)
    (toList_splay h.addr frm (F n))
  have atRoot := (inv.ordered n used).find?_eq_root? h.addr frm
  have splits := splits_splay h.addr frm (inv.ordered n used)
  have found? := find?_splay h.addr frm (F n) frm
  rw [Heap.hpcrunCctInsertAddr, run]
  by_cases absent : (F n).find? h.addr frm = none
  · obtain ⟨new, h', F', created, inv', grows, found⟩ := inv₁.insertNew (n := n) used frm unwound
      (by rw [update_self]; exact splits) (by rw [update_self]; exact found?.trans absent)
    rw [update_self] at inv' grows
    refine ⟨new, _, F', ?_, inv', grows₁.trans grows, by rw [placed_addr]; exact found⟩
    rw [absent] at atRoot
    cases root : (STree.splay h.addr frm (F n)).root? with
    | none =>
      rw [root] at created
      simp [created, placed]
    | some c =>
      rw [root] at created atRoot
      have differ : frm ≠ h.addr c := by
        intro same
        simp [filter_some, same] at atRoot
      simp [created, placed, differ]
  · obtain ⟨c, found⟩ := ne_none_iff_exists'.mp absent
    refine ⟨c, _, _, ?_, inv₁, grows₁, ?_⟩
    · rw [found] at atRoot
      obtain ⟨root, same⟩ := filter_eq_some_iff.mp atRoot.symm
      have equal : h.addr c = frm := by simpa using same
      simp [root, equal]
    · rw [update_self]
      exact found?.trans found

lemma setChildren_setChildren (h : Heap) (n : ℕ) (p q : Option ℕ) :
    (h.setChildren n p).setChildren n q = h.setChildren n q := by
  simp only [setChildren, update_idem]

lemma Inv.children_eq_none (inv : h.Inv F) (used : n ∈ h.live) : h.children n = none ↔ F n = .nil := by
  rw [(inv.linked n used).root]
  cases F n <;> simp [root?]

/-- The insertion of a node that is in no child set, has an address of its own there and has no links that are left
over where the set is empty. -/
lemma Inv.hpcrunCctInsertNode (inv : h.Inv F) {target src : ℕ} (used : target ∈ h.live) (usedSrc : src ∈ h.live)
    (detached : Detached h F src) (fresh : ∀ c ∈ (F target).toList, h.addr c ≠ h.addr src)
    (leaf : h.children target = none → h.links.left (some src) = none ∧ h.links.right (some src) = none) :
    ∃ h' F', h.hpcrunCctInsertNode target src = some (src, h') ∧ h'.Inv F' ∧ Grows h F h' F' ∧ h'.live = h.live := by
  have inv₀ := inv.setParent usedSrc detached (some target)
  obtain ⟨links, run, tree, off⟩ := inv₀.splay (n := target) used (h.addr src)
  have inv₁ := inv₀.splayed (n := target) used tree off
  have list := toList_splay h.addr (h.addr src) (F target)
  have inv₂ := inv₁.place (n := target) (x := src) used usedSrc
    (by
      intro m usedM
      rcases eq_or_ne m target with rfl | differ
      · rw [update_self]
        exact fun member => detached m usedM (list ▸ member)
      · rw [update_of_ne differ]
        exact detached m usedM)
    (update_self _ _ _)
    (by
      rw [update_self]
      exact splits_splay h.addr (h.addr src) (inv.ordered target used))
    (by
      rw [update_self]
      exact fun c member => fresh c (list ▸ member))
    (by
      rw [update_self]
      intro empty
      have none := (STree.splay_eq_nil h.addr (h.addr src)).mp empty
      obtain ⟨left, right⟩ := leaf ((inv.children_eq_none used).mpr none)
      have same := off src (by simp [none])
      exact ⟨same.1.trans left, same.2.trans right⟩)
  have grows₁ := grows_splayed (h := h.setParent src (some target)) links
    (p := (STree.splay h.addr (h.addr src) (F target)).root?) list
  have grows₂ := grows_placed (h := ((h.setParent src (some target)).setLinks links).setChildren target
    (STree.splay h.addr (h.addr src) (F target)).root?) (F := update F target
    (STree.splay h.addr (h.addr src) (F target))) target src
  rw [update_self] at inv₂ grows₂
  have all := grows₁.trans grows₂
  refine ⟨placed (((h.setParent src (some target)).setLinks links).setChildren target
    (STree.splay h.addr (h.addr src) (F target)).root?) target src (STree.splay h.addr (h.addr src) (F target)).root?, _,
    ?_, inv₂, ⟨all.live, all.addr, all.members⟩, ?_⟩
  · have run' : (h.setParent src (some target)).splay (h.children target) (h.addr src) =
        some ((STree.splay h.addr (h.addr src) (F target)).root?, (h.setParent src (some target)).setLinks links) := run
    change ((h.setParent src (some target)).splay (h.children target) (h.addr src)).bind _ = _
    rw [run']
    cases (STree.splay h.addr (h.addr src) (F target)).root? with
    | none => simp [placed, setChildren_setChildren]
    | some found => simp [placed, setChildren_setChildren]
  · cases (STree.splay h.addr (h.addr src) (F target)).root? <;> rfl

/-! ## Taking a node out of a child set -/

/-- What a removal leaves beside the links and the child set. -/
structure Removes (h : Heap) (n : ℕ) (h' : Heap) : Prop where
  live : h'.live = h.live
  allocated : h'.allocated = h.allocated
  addr : h'.addr = h.addr
  parent : h'.parent = h.parent
  children : ∀ m, m ≠ n → h'.children m = h.children m

lemma removes_setChildren (h : Heap) (n : ℕ) (links : Links ℕ) (p : Option ℕ) :
    Removes h n ((h.setLinks links).setChildren n p) :=
  ⟨rfl, rfl, rfl, rfl, fun _ differ => update_of_ne differ _ _⟩

lemma Inv.removeFound (inv : h.Inv F) (used : n ∈ h.live) {frm : CctAddr} {links : Links ℕ} {l r : STree ℕ}
    {found : ℕ} (shape : STree.splay h.addr frm (F n) = .node l found r) (same : frm = h.addr found)
    (tree : links.Tree (.node l found r) (some found)) (off : Links.SameOff (F n).toList h.links links) :
    ∃ links', ((h.setLinks links).setChildren n (some found)).removeFound n found frm =
        some ((h.setLinks links').setChildren n (STree.removeRoot h.addr frm (.node l found r)).root?) ∧
      links'.Tree (STree.removeRoot h.addr frm (.node l found r))
        (STree.removeRoot h.addr frm (.node l found r)).root? ∧
      Links.SameOff (F n).toList h.links links' := by
  have list := STree.toList_splay h.addr frm (F n)
  have nodup := nodup_of_ordered (inv.ordered n used)
  have short := inv.length_le used
  rw [← list, shape] at nodup short
  rw [shape] at list
  have treeL : links.Tree l (links.left (some found)) := tree.2.1
  have treeR : links.Tree r (links.right (some found)) := tree.2.2
  have rootL : links.left (some found) = l.root? := treeL.root
  have rootR : links.right (some found) = r.root? := treeR.root
  rw [STree.removeRoot, if_pos same.symm, Heap.removeFound, setChildren_links, setLinks_links, rootL, rootR]
  cases splayed : STree.splay h.addr frm l with
  | nil =>
    obtain rfl := (STree.splay_eq_nil h.addr frm).mp splayed
    refine ⟨links, ?_, rootR ▸ treeR, off⟩
    rw [STree.root?, setChildren_setChildren]
  | node a y b =>
    have within : l.toList ⊆ (F n).toList := by
      rw [← list, STree.toList_node]
      exact fun c member => mem_append_left _ member
    have listL := STree.toList_splay h.addr frm l
    have fits : l.toList.length ≤ h.allocated := by
      rw [STree.toList_node, length_append] at short
      omega
    rw [rootL] at treeL
    obtain ⟨root, links₂, run, tree₂, off₂⟩ := treeL.splay h.addr frm
      (nodup_append.mp nodup).1 fits
    rw [splayed] at tree₂ listL
    obtain rfl : root = some y := tree₂.root
    have joined := tree.joinLeft nodup tree₂ off₂ listL
    have memY : y ∈ (F n).toList := within (listL ▸ by simp)
    have memFound : found ∈ (F n).toList := by
      rw [← list]
      simp
    refine ⟨_, ?_, joined, ?_⟩
    · cases l with
      | nil => simp [STree.splay] at splayed
      | node l' z r' =>
        have run' : ((h.setLinks links).setChildren n (some found)).splay (some z) frm =
            some (some y, ((h.setLinks links).setChildren n (some found)).setLinks links₂) := by
          change (links.splay h.addr frm h.allocated (some z)).map _ = _
          rw [show links.splay h.addr frm h.allocated (some z) = some (some y, links₂) from run]
          rfl
        simp only [STree.root?, run', bind_eq_bind, bind_some]
        simp only [setChildren, setLinks, update_idem]
        rfl
    · have step₂ : Links.SameOff (F n).toList links links₂ := fun c outside => off₂ c fun member => outside (within member)
      have step₃ := Links.sameOff_setLeft (F n).toList links₂ (some y) (p := some found) (by simpa using memFound)
      have step₄ := Links.sameOff_setRight (F n).toList (links₂.setLeft (some found) (some y))
        (links₂.right (some found)) (p := some y) (by simpa using memY)
      exact ((off.trans step₂).trans step₃).trans step₄

lemma Inv.hpcrunCctDeleteAddr (inv : h.Inv F) (used : n ∈ h.live) (frm : CctAddr) :
    ∃ h', h.hpcrunCctDeleteAddr (some n) frm = some ((F n).find? h.addr frm, h') ∧ Removes h n h' ∧
      h'.Inv (update F n (STree.removeRoot h.addr frm (STree.splay h.addr frm (F n)))) := by
  obtain ⟨links, run, tree, off⟩ := inv.splay used frm
  have inv₁ := inv.splayed used tree off
  have atRoot := (inv.ordered n used).find?_eq_root? h.addr frm
  have ordered := removeRoot_ordered h.addr frm (inv.ordered n used)
  have list := toList_removeRoot h.addr frm (inv.ordered n used)
  rw [Heap.hpcrunCctDeleteAddr, run]
  cases shape : STree.splay h.addr frm (F n) with
  | nil =>
    rw [shape] at atRoot inv₁
    rw [atRoot]
    exact ⟨_, rfl, removes_setChildren h n links none, inv₁⟩
  | node l found r =>
    rw [shape] at atRoot inv₁ ordered list tree
    rw [root?, filter_some] at atRoot
    by_cases same : frm = h.addr found
    · obtain ⟨links', run', tree', off'⟩ := inv.removeFound used shape same tree off
      have isFound : (F n).find? h.addr frm = some found := by
        rw [atRoot]
        simp [same]
      refine ⟨_, ?_, removes_setChildren h n links' _, inv.relinked used tree' off' ordered ?_⟩
      · change (if frm ≠ h.addr found then some (none, (h.setLinks links).setChildren n (some found)) else
          (((h.setLinks links).setChildren n (some found)).removeFound n found frm).bind fun h => some (some found, h)) = _
        rw [if_neg (not_not.mpr same), run', isFound]
        rfl
      · rw [list]
        exact fun c member => mem_of_mem_filter member
    · have missing : (F n).find? h.addr frm = none := by
        rw [atRoot]
        simp [Ne.symm same]
      rw [removeRoot, if_neg (Ne.symm same), missing]
      refine ⟨_, ?_, removes_setChildren h n links _, inv₁⟩
      simp [root?, same]

end HpcToolkit.Cct.InPlace.Heap
