import HpcToolkit.Cct.Basic
import HpcToolkit.Lib.LinkedSplay

/-! # Child sets edited in place

All calling context trees of a thread share one memory. The children of a node are a splay tree over the links `left` and
`right` of the children, which each operation splays where it lies; a deleted subtree goes to a free list that reuses
`parent` as its link, and its nodes are handed out again one by one. The fields `persistent_id`, `previous`, `is_leaf`
and `display` are written on creation and read by none of these functions, so they are left out, as is the failure of
`hpcrun_malloc`.
-/

open Option
open Function
open List hiding Chain

namespace HpcToolkit.Cct.InPlace

open Lib

/-- The nodes in memory, named by their addresses. Nothing in the source stands for `live`, the nodes that were handed
out and not freed since, and no function reads it. -/
structure Heap where
  addr : ℕ → CctAddr
  unwound : ℕ → Bool
  parent : ℕ → Option ℕ
  children : ℕ → Option ℕ
  links : Links ℕ
  cctNodeFreelistHead : Option ℕ
  /-- `hpcrun_malloc` handed out the nodes below. -/
  allocated : ℕ
  live : Set ℕ

/-- The links that the free list follows from a node. -/
inductive Field where
  | children
  | left
  | right
deriving DecidableEq

namespace Heap

variable (h : Heap)

def link (u : ℕ) : Field → Option ℕ
  | .children => h.children u
  | .left => h.links.left (some u)
  | .right => h.links.right (some u)

/-- The nodes that a node leads to, itself among them. -/
def Reaches : ℕ → ℕ → Prop := Relation.ReflTransGen fun u v => ∃ field, h.link u field = some v

@[simps] def setChildren (node : ℕ) (p : Option ℕ) : Heap := { h with children := update h.children node p }

@[simps] def setLinks (links : Links ℕ) : Heap := { h with links := links }

@[simps] def setParent (node : ℕ) (p : Option ℕ) : Heap := { h with parent := update h.parent node p }

/-! ## The free list -/

/-- `parent` is the link to the next node. -/
def addNodeToFreelist : Option ℕ → Heap
  | none => h
  | some cct => { h.setParent cct h.cctNodeFreelistHead with cctNodeFreelistHead := some cct }

def removeNodeFromFreelist : Option ℕ × Heap :=
  match h.cctNodeFreelistHead with
  | none => (none, h)
  | some firstRoot =>
    let rest := { h with cctNodeFreelistHead := h.parent firstRoot }
    let rest := rest.addNodeToFreelist (h.children firstRoot)
    let rest := rest.addNodeToFreelist (h.links.left (some firstRoot))
    (some firstRoot, rest.addNodeToFreelist (h.links.right (some firstRoot)))

def hpcrunCctNodeAlloc : ℕ × Heap :=
  match h.removeNodeFromFreelist with
  | (some cctNew, rest) => (cctNew, rest)
  | (none, rest) => (rest.allocated, { rest with allocated := rest.allocated + 1 })

def hpcrunCctNodeFree (cct : ℕ) : Heap :=
  { h.addNodeToFreelist (some cct) with live := h.live \ {v | h.Reaches cct v} }

def cctNodeCreate (addr : CctAddr) (unwound : Bool) (parent : Option ℕ) : ℕ × Heap :=
  let (node, rest) := h.hpcrunCctNodeAlloc
  (node,
    { rest with
      addr := update rest.addr node addr
      unwound := update rest.unwound node unwound
      parent := update rest.parent node parent
      children := update rest.children node none
      links := (rest.links.setLeft (some node) none).setRight (some node) none
      live := insert node rest.live })

/-! ## The operations -/

/-- The tree has at most as many nodes as were ever handed out, so this fuel is enough. -/
def splay (cct : Option ℕ) (addr : CctAddr) : Option (Option ℕ × Heap) :=
  (h.links.splay h.addr addr h.allocated cct).map fun (root, links) => (root, h.setLinks links)

/-- The end of both insertions: the node takes its place above the node that the splay has found. -/
def placeAbove (node found : ℕ) : Heap :=
  h.setLinks (h.links.placeAbove node found (cctAddrLt (h.addr node) (h.addr found)))

def hpcrunCctInsertAddr (node : Option ℕ) (frm : CctAddr) (unwound : Bool) : Option (Option ℕ × Heap) :=
  match node with
  | none => some (none, h)
  | some node => do
    let (found, h) ← h.splay (h.children node) frm
    let h := h.setChildren node found
    match found with
    | none =>
      let (new, h) := h.cctNodeCreate frm unwound (some node)
      return (some new, h.setChildren node (some new))
    | some found =>
      if frm = h.addr found then return (some found, h)
      let (new, h) := h.cctNodeCreate frm unwound (some node)
      return (some new, (h.setChildren node (some new)).placeAbove new found)

/-- The end of `hpcrun_cct_delete_addr`: the child that was found is at the root and leaves the set. -/
def removeFound (node found : ℕ) (frm : CctAddr) : Option Heap :=
  match h.links.left (some found) with
  | none => some (h.setChildren node (h.links.right (some found)))
  | some left => do
    let (left, h) ← h.splay (some left) frm
    let left ← left
    let links := h.links.setLeft (some found) (some left)
    let links := links.setRight (some left) (links.right (some found))
    return (h.setLinks links).setChildren node (some left)

def hpcrunCctDeleteAddr (node : Option ℕ) (frm : CctAddr) : Option (Option ℕ × Heap) :=
  match node with
  | none => some (none, h)
  | some node => do
    let (found, h) ← h.splay (h.children node) frm
    let h := h.setChildren node found
    match found with
    | none => return (none, h)
    | some found =>
      if frm ≠ h.addr found then return (none, h)
      let h ← h.removeFound node found frm
      return (some found, h)

/-- `fuel` bounds the way up from `path`. -/
def hpcrunCctInsertPathReturnLeaf : ℕ → Heap → Option ℕ → Option ℕ → Option (Option ℕ × Heap)
  | fuel, h, root, path =>
    match path with
    | none => some (root, h)
    | some path =>
      match h.parent path with
      | none => some (root, h)
      | some above =>
        match fuel with
        | 0 => none
        | fuel + 1 => do
          let (root, h) ← hpcrunCctInsertPathReturnLeaf fuel h root (some above)
          h.hpcrunCctInsertAddr root (h.addr path) (h.unwound path)

def hpcrunCctDeleteSelf (cct : ℕ) : Option Heap := do
  let (_, h) ← h.hpcrunCctDeleteAddr (h.parent cct) (h.addr cct)
  let h := h.setLinks ((h.links.setLeft (some cct) none).setRight (some cct) none)
  return (h.setParent cct none).hpcrunCctNodeFree cct

def hpcrunCctInsertNode (target src : ℕ) : Option (ℕ × Heap) := do
  let h := h.setParent src (some target)
  let (found, h) ← h.splay (h.children target) (h.addr src)
  let h := h.setChildren target (some src)
  match found with
  | none => return (src, h)
  | some found => return (src, h.placeAbove src found)

def hpcrunCctFindAddr (cct : Option ℕ) (addr : CctAddr) : Option (Option ℕ × Heap) :=
  match cct with
  | none => some (none, h)
  | some cct => do
    let (found, h) ← h.splay (h.children cct) addr
    let h := h.setChildren cct found
    match found with
    | none => return (none, h)
    | some found => return (if addr = h.addr found then some found else none, h)

end Heap

end HpcToolkit.Cct.InPlace

/-! # The free list of nodes

What was freed and not handed out again is kept apart from the nodes in use: the free list is a list of free nodes, whose
links lead to free nodes, to each from one place only and to none that is in the list itself. So the node that the list
hands out is in use nowhere, and the nodes it leads to can be put into the list.
-/

namespace HpcToolkit.Cct.InPlace.Heap

open Lib

variable {h h' : Heap}

/-- The node was handed out once and is not in use. -/
def Free (h : Heap) (u : ℕ) : Prop := u < h.allocated ∧ u ∉ h.live

structure FreeArea (h : Heap) : Prop where
  list : ∃ nodes, Chain h.parent nodes h.cctNodeFreelistHead none ∧
    ∀ v ∈ nodes, h.Free v ∧ ∀ u field, h.Free u → h.link u field ≠ some v
  closed : ∀ u field v, h.Free u → h.link u field = some v → h.Free v
  once : ∀ u u' field field' v, h.Free u → h.Free u' → h.link u field = some v → h.link u' field' = some v →
    u = u' ∧ field = field'

lemma FreeArea.congr (area : h.FreeArea) (live : h'.live = h.live) (allocated : h'.allocated = h.allocated)
    (head : h'.cctNodeFreelistHead = h.cctNodeFreelistHead) (parent : ∀ u, h.Free u → h'.parent u = h.parent u)
    (link : ∀ u, h.Free u → h'.link u = h.link u) : h'.FreeArea := by
  have same (u : ℕ) : h'.Free u ↔ h.Free u := by rw [Free, Free, live, allocated]
  obtain ⟨nodes, chain, listed⟩ := area.list
  refine ⟨⟨nodes, ?_, ?_⟩, ?_, ?_⟩
  · rw [head]
    exact chain.congr fun v member => parent v (listed v member).1
  · intro v member
    refine ⟨(same v).mpr (listed v member).1, ?_⟩
    intro u field free
    rw [link u ((same u).mp free)]
    exact (listed v member).2 u field ((same u).mp free)
  · intro u field v free target
    rw [link u ((same u).mp free)] at target
    exact (same v).mpr (area.closed u field v ((same u).mp free) target)
  · intro u u' field field' v free free' target target'
    rw [link u ((same u).mp free)] at target
    rw [link u' ((same u').mp free')] at target'
    exact area.once u u' field field' v ((same u).mp free) ((same u').mp free') target target'

/-! ## Putting nodes into the list -/

section Push
variable (h) (p : Option ℕ)

@[simp] lemma addNodeToFreelist_children : (h.addNodeToFreelist p).children = h.children := by cases p <;> rfl

@[simp] lemma addNodeToFreelist_links : (h.addNodeToFreelist p).links = h.links := by cases p <;> rfl

@[simp] lemma addNodeToFreelist_addr : (h.addNodeToFreelist p).addr = h.addr := by cases p <;> rfl

@[simp] lemma addNodeToFreelist_unwound : (h.addNodeToFreelist p).unwound = h.unwound := by cases p <;> rfl

@[simp] lemma addNodeToFreelist_live : (h.addNodeToFreelist p).live = h.live := by cases p <;> rfl

@[simp] lemma addNodeToFreelist_allocated : (h.addNodeToFreelist p).allocated = h.allocated := by cases p <;> rfl

end Push

lemma addNodeToFreelist_parent {p : Option ℕ} {m : ℕ} (other : p ≠ some m) :
    (h.addNodeToFreelist p).parent m = h.parent m := by
  cases p with
  | none => rfl
  | some v => exact update_of_ne (by rintro rfl; exact other rfl) _ _

lemma addNodeToFreelist_chain {nodes : List ℕ} (chain : Chain h.parent nodes h.cctNodeFreelistHead none) {p : Option ℕ}
    (fresh : ∀ v ∈ p, v ∉ nodes) :
    Chain (h.addNodeToFreelist p).parent (p.toList ++ nodes) (h.addNodeToFreelist p).cctNodeFreelistHead none := by
  cases p with
  | none => exact chain
  | some v =>
    refine ⟨rfl, ?_⟩
    have next : (h.addNodeToFreelist (some v)).parent v = h.cctNodeFreelistHead := update_self _ _ _
    rw [next]
    apply chain.congr
    intro m member
    exact update_of_ne (by rintro rfl; exact fresh m rfl member) _ _

/-! ## Handing out a node -/

/-- What an allocation leaves: the node is not in use, and the memory in use is as before. -/
structure Allocates (h : Heap) (new : ℕ) (rest : Heap) : Prop where
  fresh : new ∉ h.live
  below : new < rest.allocated
  more : h.allocated ≤ rest.allocated
  addr : rest.addr = h.addr
  unwound : rest.unwound = h.unwound
  children : rest.children = h.children
  links : rest.links = h.links
  live : rest.live = h.live
  parent : ∀ m ∈ h.live, rest.parent m = h.parent m
  area : FreeArea { rest with live := insert new h.live }

section Pop
variable {firstRoot : ℕ}

lemma removeNodeFromFreelist_of_head (head : h.cctNodeFreelistHead = some firstRoot) :
    h.removeNodeFromFreelist = (some firstRoot, ((({ h with cctNodeFreelistHead := h.parent firstRoot }.addNodeToFreelist
      (h.link firstRoot .children)).addNodeToFreelist (h.link firstRoot .left)).addNodeToFreelist
      (h.link firstRoot .right))) := by
  simp only [removeNodeFromFreelist, head, link]

lemma FreeArea.target (area : h.FreeArea) {tail : List ℕ} (chain : Chain h.parent (firstRoot :: tail) h.cctNodeFreelistHead none)
    (listed : ∀ v ∈ firstRoot :: tail, h.Free v ∧ ∀ u field, h.Free u → h.link u field ≠ some v) (field : Field) {v : ℕ}
    (link : h.link firstRoot field = some v) : h.Free v ∧ v ≠ firstRoot ∧ v ∉ tail := by
  have free := (listed firstRoot (by simp)).1
  refine ⟨area.closed firstRoot field v free link, ?_, ?_⟩
  · rintro rfl
    exact (listed v (by simp)).2 v field free link
  · exact fun member => (listed v (by simp [member])).2 firstRoot field free link

lemma FreeArea.pop_list (area : h.FreeArea) (head : h.cctNodeFreelistHead = some firstRoot) :
    ∃ nodes, Chain h.removeNodeFromFreelist.2.parent nodes h.removeNodeFromFreelist.2.cctNodeFreelistHead none ∧
      ∀ v ∈ nodes, h.Free v ∧ v ≠ firstRoot ∧ ∀ u field, h.Free u → u ≠ firstRoot → h.link u field ≠ some v := by
  obtain ⟨nodes, chain, listed⟩ := area.list
  cases nodes with
  | nil => simp [Chain, head] at chain
  | cons a tail =>
    obtain rfl : firstRoot = a := Option.some.inj (head.symm.trans chain.1)
    have target (field : Field) (v : ℕ) (link : h.link firstRoot field = some v) := area.target chain listed field link
    have free := (listed firstRoot (by simp)).1
    have apart (field field' : Field) (differ : field ≠ field') (v : ℕ) (link : h.link firstRoot field = some v) :
        h.link firstRoot field' ≠ some v :=
      fun link' => differ (area.once firstRoot firstRoot field field' v free free link link').2
    have start : Chain { h with cctNodeFreelistHead := h.parent firstRoot }.parent tail (h.parent firstRoot) none :=
      chain.2
    have first := addNodeToFreelist_chain (h := { h with cctNodeFreelistHead := h.parent firstRoot }) start
      (p := h.link firstRoot .children) fun v link => (target .children v link).2.2
    have second := addNodeToFreelist_chain first (p := h.link firstRoot .left) (by
      intro v link member
      rcases mem_append.mp member with twice | member
      · exact apart .left .children (by decide) v link (mem_toList.mp twice)
      · exact (target .left v link).2.2 member)
    have third := addNodeToFreelist_chain second (p := h.link firstRoot .right) (by
      intro v link member
      simp only [mem_append, mem_toList] at member
      rcases member with twice | twice | member
      · exact apart .right .left (by decide) v link twice
      · exact apart .right .children (by decide) v link twice
      · exact (target .right v link).2.2 member)
    rw [removeNodeFromFreelist_of_head head]
    refine ⟨_, third, ?_⟩
    intro v member
    have origin : v ∈ tail ∨ ∃ field, h.link firstRoot field = some v := by
      simp only [mem_append, mem_toList] at member
      rcases member with link | link | link | inside
      · exact .inr ⟨.right, link⟩
      · exact .inr ⟨.left, link⟩
      · exact .inr ⟨.children, link⟩
      · exact .inl inside
    rcases origin with inside | ⟨field, link⟩
    · have kept := listed v (by simp [inside])
      refine ⟨kept.1, ?_, fun u field free _ => kept.2 u field free⟩
      rintro rfl
      exact (nodup_cons.mp chain.nodup).1 inside
    · refine ⟨(target field v link).1, (target field v link).2.1, ?_⟩
      intro u field' free' other link'
      exact other (area.once u firstRoot field' field v free' free link' link).1

lemma FreeArea.pop (area : h.FreeArea) (head : h.cctNodeFreelistHead = some firstRoot) :
    h.Allocates firstRoot h.removeNodeFromFreelist.2 := by
  obtain ⟨nodes, chain, listed⟩ := area.list
  have first : firstRoot ∈ nodes := by
    cases nodes with
    | nil => simp [Chain, head] at chain
    | cons a tail =>
      obtain rfl : firstRoot = a := Option.some.inj (head.symm.trans chain.1)
      simp
  obtain ⟨free, unlinked⟩ := listed firstRoot first
  have run := removeNodeFromFreelist_of_head head
  have links : h.removeNodeFromFreelist.2.links = h.links := by simp [run]
  have children : h.removeNodeFromFreelist.2.children = h.children := by simp [run]
  have allocated : h.removeNodeFromFreelist.2.allocated = h.allocated := by simp [run]
  have same (u : ℕ) : Free { h.removeNodeFromFreelist.2 with live := insert firstRoot h.live } u ↔
      h.Free u ∧ u ≠ firstRoot := by
    simp only [Free, allocated, Set.mem_insert_iff]
    tauto
  have link (u : ℕ) (field : Field) :
      link { h.removeNodeFromFreelist.2 with live := insert firstRoot h.live } u field = h.link u field := by
    cases field <;> simp only [Heap.link, links, children]
  refine ⟨free.2, allocated ▸ free.1, allocated.ge, by simp [run], by simp [run], children, links, by simp [run], ?_, ?_⟩
  · intro m used
    have other (field : Field) : h.link firstRoot field ≠ some m :=
      fun link => (area.closed firstRoot field m free link).2 used
    rw [run, addNodeToFreelist_parent (other .right), addNodeToFreelist_parent (other .left),
      addNodeToFreelist_parent (other .children)]
  · refine ⟨?_, ?_, ?_⟩
    · obtain ⟨rest, chain', listed'⟩ := area.pop_list head
      refine ⟨rest, chain', ?_⟩
      intro v member
      obtain ⟨freeV, other, unlinkedV⟩ := listed' v member
      refine ⟨(same v).mpr ⟨freeV, other⟩, ?_⟩
      intro u field free'
      rw [link]
      exact unlinkedV u field ((same u).mp free').1 ((same u).mp free').2
    · intro u field v free' fromU
      rw [link] at fromU
      refine (same v).mpr ⟨area.closed u field v ((same u).mp free').1 fromU, ?_⟩
      rintro rfl
      exact unlinked u field ((same u).mp free').1 fromU
    · intro u u' field field' v free' free'' fromU fromU'
      rw [link] at fromU fromU'
      exact area.once u u' field field' v ((same u).mp free').1 ((same u').mp free'').1 fromU fromU'

end Pop

lemma FreeArea.allocates (area : h.FreeArea) (bounded : ∀ n ∈ h.live, n < h.allocated) :
    h.Allocates h.hpcrunCctNodeAlloc.1 h.hpcrunCctNodeAlloc.2 := by
  cases head : h.cctNodeFreelistHead with
  | some firstRoot =>
    have popped := area.pop head
    simpa [hpcrunCctNodeAlloc, removeNodeFromFreelist, head] using popped
  | none =>
    have run : h.hpcrunCctNodeAlloc = (h.allocated, { h with allocated := h.allocated + 1 }) := by
      simp [hpcrunCctNodeAlloc, removeNodeFromFreelist, head]
    have fresh : h.allocated ∉ h.live := fun used => (bounded h.allocated used).ne rfl
    rw [run]
    refine ⟨fresh, Nat.lt_succ_self _, Nat.le_succ _, rfl, rfl, rfl, rfl, rfl, fun _ _ => rfl, ?_⟩
    have same (u : ℕ) : Free { h with allocated := h.allocated + 1, live := insert h.allocated h.live } u ↔ h.Free u := by
      simp only [Free, Set.mem_insert_iff, Nat.lt_succ_iff_lt_or_eq]
      constructor
      · rintro ⟨below | rfl, unused⟩
        · exact ⟨below, fun used => unused (.inr used)⟩
        · exact absurd (.inl rfl) unused
      · rintro ⟨below, unused⟩
        refine ⟨.inl below, ?_⟩
        rintro (rfl | used)
        · exact lt_irrefl _ below
        · exact unused used
    obtain ⟨nodes, chain, listed⟩ := area.list
    refine ⟨⟨nodes, chain, ?_⟩, ?_, ?_⟩
    · intro v member
      exact ⟨(same v).mpr (listed v member).1, fun u field free => (listed v member).2 u field ((same u).mp free)⟩
    · intro u field v free target
      exact (same v).mpr (area.closed u field v ((same u).mp free) target)
    · intro u u' field field' v free free' target target'
      exact area.once u u' field field' v ((same u).mp free) ((same u').mp free') target target'

/-- What a creation leaves: a node that was not in use is a leaf now, and the other nodes are as before. -/
structure Creates (h : Heap) (addr : CctAddr) (unwound : Bool) (parent : Option ℕ) (new : ℕ) (h' : Heap) : Prop where
  fresh : new ∉ h.live
  below : new < h'.allocated
  more : h.allocated ≤ h'.allocated
  live : h'.live = insert new h.live
  addr : h'.addr = update h.addr new addr
  unwound : h'.unwound = update h.unwound new unwound
  children : h'.children = update h.children new none
  links : h'.links = (h.links.setLeft (some new) none).setRight (some new) none
  parentNew : h'.parent new = parent
  parent : ∀ m ∈ h.live, h'.parent m = h.parent m
  area : h'.FreeArea

lemma FreeArea.creates (area : h.FreeArea) (bounded : ∀ n ∈ h.live, n < h.allocated) (addr : CctAddr) (unwound : Bool)
    (parent : Option ℕ) :
    h.Creates addr unwound parent (h.cctNodeCreate addr unwound parent).1 (h.cctNodeCreate addr unwound parent).2 := by
  have allocates := area.allocates bounded
  rcases alloc : h.hpcrunCctNodeAlloc with ⟨new, rest⟩
  rw [alloc] at allocates
  simp only at allocates
  have run : h.cctNodeCreate addr unwound parent = (new, { rest with
      addr := update rest.addr new addr
      unwound := update rest.unwound new unwound
      parent := update rest.parent new parent
      children := update rest.children new none
      links := (rest.links.setLeft (some new) none).setRight (some new) none
      live := insert new rest.live }) := by
    simp only [cctNodeCreate, alloc]
  rw [run]
  refine ⟨allocates.fresh, allocates.below, allocates.more, by rw [allocates.live], by rw [allocates.addr],
    by rw [allocates.unwound], by rw [allocates.children], by rw [allocates.links], update_self _ _ _, ?_, ?_⟩
  · intro m used
    have other : m ≠ new := by
      rintro rfl
      exact allocates.fresh used
    exact (update_of_ne other _ _).trans (allocates.parent m used)
  · have other (u : ℕ) (free : Free { rest with live := insert new h.live } u) : u ≠ new := by
      rintro rfl
      exact free.2 (.inl rfl)
    apply allocates.area.congr
    · change insert new rest.live = insert new h.live
      rw [allocates.live]
    · rfl
    · rfl
    · exact fun u free => update_of_ne (other u free) _ _
    · intro u free
      funext field
      cases field
      · exact update_of_ne (other u free) _ _
      · exact update_of_ne (by simpa using other u free) _ _
      · exact update_of_ne (by simpa using other u free) _ _

end HpcToolkit.Cct.InPlace.Heap
