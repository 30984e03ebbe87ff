import HpcToolkit.Lib.LinkedTree
import HpcToolkit.Lib.Reachable

/-! # The skip list

A node has a link for each layer below its height. A search goes along a layer as long as the next item is before the
sought one and then descends; it leaves the nodes before and behind the sought place in every layer. The operations are
those of one thread, which finds the locks of the list and of its nodes free. An operation that waits for something that
nobody else does, that reads a link a node does not have, or that uses memory that is not in use does not return.
-/

open Function List

namespace HpcToolkit.Collections.CSkipList

open Lib

structure Node (N V : Type) where
  val : V
  height : ℕ
  fullyLinked : Bool
  marked : Bool
  nexts : ℕ → Option N

/-- `cskiplist_t` and the memory of the nodes. -/
structure CSkl (N V : Type) where
  leftSentinel : N
  rightSentinel : N
  maxHeight : ℕ
  heap : N → Option (Node N V)

variable {N V K A : Type} [DecidableEq N]

namespace CSkl

variable (s : CSkl N V)

def val (n : N) : Option V := (s.heap n).map Node.val

def next (layer : ℕ) (n : N) : Option N := do
  let node ← s.heap n
  if layer < node.height then node.nexts layer else none

def store (n : N) (node : Option (Node N V)) : CSkl N V := { s with heap := update s.heap n node }

/-- `n->nexts[layer] = target` -/
def setNext (n : N) (layer : ℕ) (target : N) : Option (CSkl N V) := do
  let node ← s.heap n
  if layer < node.height then
    some (s.store n (some { node with nexts := update node.nexts layer (some target) }))
  else none

/-- `csklnode_malloc`: a node that is not in use, with the height it was given at random. -/
def malloc (n : N) (height : ℕ) (value : V) : CSkl N V :=
  s.store n (some ⟨value, height, false, false, fun _ => none⟩)

/-- `csklnode_free_to_lfl`, `cskl_free` -/
def free (n : N) : CSkl N V := s.store n none

end CSkl

def csklNew (left right : N) (lsentinel rsentinel : V) (maxHeight : ℕ) : CSkl N V where
  leftSentinel := left
  rightSentinel := right
  maxHeight := maxHeight
  heap n :=
    if n = left then some ⟨lsentinel, maxHeight, false, false, fun _ => some right⟩
    else if n = right then some ⟨rsentinel, 0, false, false, fun _ => none⟩
    else none

/-! ## Searches -/

inductive FindType where
  | earlyExit
  | full
deriving DecidableEq

/-- What a search leaves: the first layer with a match, if any, and the nodes before and behind the place. -/
structure Found (N : Type) where
  foundLayer : Option ℕ
  preds : ℕ → Option N
  succs : ℕ → Option N

/-- Nothing is found, and the arrays hold nothing yet. -/
def Found.nothing : Found N := ⟨none, fun _ => none, fun _ => none⟩

section
variable (cmpfn : V → K → ℤ) (key : K) (s : CSkl N V) (fuel : ℕ)

/-- The loop along a layer: the last node before the key and the node behind it. -/
def walk (layer : ℕ) : ℕ → N → Option (N × N)
  | 0, _ => none
  | fuel + 1, pred => do
    let current ← s.next layer pred
    let val ← s.val current
    if cmpfn val key < 0 then walk layer fuel current else some (pred, current)

/-- `cskiplist_find_helper`, for the layers below a number. -/
def findHelper (ft : FindType) : ℕ → N → Found N → Option (Found N)
  | 0, _, found => some found
  | layer + 1, pred, found => do
    let (pred, current) ← walk cmpfn key s layer fuel pred
    let preds := update found.preds layer (some pred)
    let succs := update found.succs layer (some current)
    let val ← s.val current
    if found.foundLayer = none ∧ cmpfn val key = 0 then
      if ft = .earlyExit then some ⟨some layer, preds, succs⟩
      else findHelper ft layer pred ⟨some layer, preds, succs⟩
    else findHelper ft layer pred ⟨found.foundLayer, preds, succs⟩

/-- `cskiplist_find`, up to the value of the node -/
def cskiplistFind : Option (Option V) := do
  let found ← findHelper cmpfn key s fuel .earlyExit s.maxHeight s.leftSentinel .nothing
  match found.foundLayer with
  | none => some none
  | some layer => do
    let node ← found.succs layer
    let data ← s.heap node
    if !data.fullyLinked || data.marked then some none else some (some data.val)

end

/-! ## Insertion -/

/-- The loop over the predecessors: whether they are valid, unless the value does not belong before a successor. -/
def validate (compare : V → V → ℤ) (s : CSkl N V) (value : V) (preds succs : ℕ → Option N) : List ℕ → Option Bool
  | [] => some true
  | layer :: layers => do
    let pred ← preds layer
    let succ ← succs layer
    let predData ← s.heap pred
    let succData ← s.heap succ
    if predData.marked || succData.marked || decide (s.next layer pred ≠ some succ) then some false
    else if compare value succData.val ≠ -1 then none
    else validate compare s value preds succs layers

/-- `node->nexts[layer] = succs[layer]; preds[layer]->nexts[layer] = node;` -/
def linkLayer (node : N) (preds succs : ℕ → Option N) (s : CSkl N V) (layer : ℕ) : Option (CSkl N V) := do
  let pred ← preds layer
  let succ ← succs layer
  let s ← s.setNext node layer succ
  s.setNext pred layer node

def fullyLink (node : N) (s : CSkl N V) : Option (CSkl N V) := do
  let data ← s.heap node
  some (s.store node (some { data with fullyLinked := true }))

/-- `cskl_insert`; a thread that has to try again finds everything as before. -/
def csklInsert (compare : V → V → ℤ) (fuel : ℕ) (s : CSkl N V) (newNode : N) (height : ℕ) (value : V) :
    Option (N × CSkl N V) := do
  let s := s.malloc newNode height value
  let found ← findHelper compare value s fuel .full s.maxHeight s.leftSentinel .nothing
  match found.foundLayer with
  | some layer => do
    let node ← found.succs layer
    let data ← s.heap node
    if data.marked then none
    else if data.fullyLinked then some (node, s.free newNode)
    else none
  | none => do
    let valid ← validate compare s value found.preds found.succs (range height)
    if valid then do
      let s ← (range height).foldlM (linkLayer newNode found.preds found.succs) s
      let s ← fullyLink newNode s
      some (newNode, s)
    else none

/-! ## Deletion -/

/-- `lpreds[layer]->nexts[layer] = succs[layer]->nexts[layer]` -/
def spliceBetween (lpreds succs : ℕ → Option N) (s : CSkl N V) (layer : ℕ) : Option (CSkl N V) := do
  let lpred ← lpreds layer
  let succ ← succs layer
  let target ← s.next layer succ
  s.setNext lpred layer target

/-- `lpreds[layer]->nexts[layer] = succs[layer]->nexts[layer]->nexts[layer]` -/
def spliceFound (lpreds succs : ℕ → Option N) (s : CSkl N V) (layer : ℕ) : Option (CSkl N V) := do
  let lpred ← lpreds layer
  let succ ← succs layer
  let found ← s.next layer succ
  let target ← s.next layer found
  s.setNext lpred layer target

/-- The layers `bound - 1, …, 0`. -/
def downFrom (bound : ℕ) : List ℕ := (range bound).reverse

/-- Deletes the nodes from one up to another. -/
def freeUntil (last : N) : ℕ → N → CSkl N V → Option (CSkl N V)
  | 0, node, s => if node = last then some s else none
  | fuel + 1, node, s =>
    if node = last then some s
    else do
      let next ← s.next 0 node
      freeUntil last fuel next (s.free node)

/-- `hlayer + 1`, with `NO_LAYER` for none. -/
def layersUpTo (foundLayer : Option ℕ) : ℕ := foundLayer.elim 0 (· + 1)

def delBulk [DecidableEq K] (cmpfn : V → K → ℤ) (fuel : ℕ) (s : CSkl N V) (lo hi : K) : Option (Bool × CSkl N V) := do
  let low ← findHelper cmpfn lo s fuel .full s.maxHeight s.leftSentinel .nothing
  let lpred ← low.preds 0
  let first ← s.next 0 lpred
  let (foundLayer, succs, s) ←
    if lo = hi then some (low.foundLayer, low.preds, s)
    else do
      let top ← low.preds (s.maxHeight - 1)
      let high ← findHelper cmpfn hi s fuel .full s.maxHeight top .nothing
      let s ← ((downFrom s.maxHeight).filter (layersUpTo high.foundLayer ≤ ·)).foldlM (spliceBetween low.preds high.preds) s
      some (high.foundLayer, high.preds, s)
  let s ← (downFrom (layersUpTo foundLayer)).foldlM (spliceFound low.preds succs) s
  let last ← s.next 0 lpred
  let s ← freeUntil last fuel first s
  some (decide (first ≠ last), s)

/-! ## Runs -/

inductive Op (N V A : Type) where
  | insert (newNode : N) (height : ℕ) (value : V)
  | cmpFind (value : V)
  | inrangeFind (address : A)
  | inrangeDelBulk (lo hi : A)

inductive Result (N V : Type) where
  | inserted (node : N)
  | found (value : Option V)
  | deleted (any : Bool)

/-- The comparators of a list, `compare` for items and `inrange` for an item and an address, and the value of its right
sentinel, which no item and no address is behind and which no address shares with an item before it. -/
structure Comparators (V A : Type) where
  compare : V → V → ℤ
  inrange : V → A → ℤ
  three (a b : V) : compare a b = -1 ∨ compare a b = 0 ∨ compare a b = 1
  swap (a b : V) : compare b a = -compare a b
  trans {a b c : V} : compare a b ≤ 0 → compare b c ≤ 0 → compare a c ≤ 0
  rsentinel : V
  compare_rsentinel (a : V) : 0 ≤ compare rsentinel a
  inrange_rsentinel (address : A) : 0 ≤ inrange rsentinel address
  apart_rsentinel {a : V} (address : A) : compare a rsentinel < 0 → inrange a address < 0 ∨ 0 < inrange rsentinel address

variable [DecidableEq A] (c : Comparators V A) (fuel : ℕ)

/-- What an operation returns, if it does, and the list it leaves. -/
def exec (s : CSkl N V) : Op N V A → Option (Result N V) × CSkl N V
  | .insert newNode height value =>
    match csklInsert c.compare fuel s newNode height value with
    | some (node, s') => (some (.inserted node), s')
    | none => (none, s)
  | .cmpFind value => ((cskiplistFind c.compare value s fuel).map .found, s)
  | .inrangeFind address => ((cskiplistFind c.inrange address s fuel).map .found, s)
  | .inrangeDelBulk lo hi =>
    match delBulk c.inrange fuel s lo hi with
    | some (any, s') => (some (.deleted any), s')
    | none => (none, s)

end HpcToolkit.Collections.CSkipList
