import HpcToolkit.Lib.SkipList

/-! # The map from addresses to unwind recipes

For each unwinder a skip list keeps intervals of addresses: poisoned ones, where nothing is mapped, and those of the
functions that were looked up. Mapping a load module cuts it out of the poisoned interval around it; unmapping drops its
functions and joins its range with the poisoned intervals at both ends.
-/

namespace HpcToolkit.Unwind

open Lib

def uintptrMax : Nat := 2 ^ 64 - 1

/-- `interval_t`: the addresses from `start` up to `stop`, which is not among them. -/
structure Interval where
  start : Nat
  stop : Nat
deriving DecidableEq

/-- `interval_t_cmp` compares the starts only. -/
def intervalCmp (lhs rhs : Interval) : Ordering :=
  if lhs.start < rhs.start then .lt else if lhs.start = rhs.start then .eq else .gt

/-- `interval_t_inrange`, with its special boundary case. -/
def intervalInrange (interval : Interval) (address : Nat) : Ordering :=
  if address = uintptrMax ∧ interval.start = uintptrMax then .eq
  else if address < interval.start then .gt
  else if address < interval.stop then .eq
  else .lt

/-- `uwi_t` at its place in memory: the recipe is good for an interval of addresses. -/
structure Uwi where
  place : Nat
  interval : Interval
  recipe : Nat
deriving DecidableEq

/-- `bitree_uwi_t`: the interval tree of one function. -/
inductive Bitree where
  | null
  | node (uwi : Uwi) (left right : Bitree)
deriving DecidableEq

/-- `bitree_uwi_inrange`, which is `binarytree_find` with `uwi_t_inrange`. -/
def Bitree.inrange (address : Nat) : Bitree → Option Uwi
  | null => none
  | node uwi left right =>
    match intervalInrange uwi.interval address with
    | .eq => some uwi
    | .gt => left.inrange address
    | .lt => right.inrange address

inductive TreeStat where
  | never
  | deferred
  | forthcoming
  | ready
deriving DecidableEq

/-- `ilmstat_btuwi_pair_t` at its place in memory; a poisoned interval has no load module. -/
structure Pair where
  place : Nat
  interval : Interval
  lm : Option Nat
  stat : TreeStat
  btuwi : Bitree
deriving DecidableEq

def pairInit (place : Nat) (stat : TreeStat) (lm : Option Nat) (start stop : Nat) : Pair :=
  ⟨place, ⟨start, stop⟩, lm, stat, .null⟩

def pairCmp (lhs rhs : Pair) : Ordering :=
  intervalCmp lhs.interval rhs.interval

def pairInrange (pair : Pair) (address : Nat) : Ordering :=
  intervalInrange pair.interval address

/-- The stored pairs of one unwinder in the order of the bottom layer, without the two sentinels. -/
abbrev RecipeList := List Pair

/-- `cskl_inrange_find`; the right sentinel is never fully linked, so that a search that ends at it finds nothing. -/
def csklInrangeFind (address : Nat) (stored : RecipeList) : Option Pair :=
  seek (pairInrange · address) stored

/-- `cskl_insert`: the node with the same start if there is one, else the new one, and the pairs stored then. A pair with
the start of the right sentinel waits forever for the sentinel to be fully linked. -/
def csklInsert (pair : Pair) (stored : RecipeList) : Option (Pair × RecipeList) :=
  match seek (pairCmp · pair) stored with
  | some found => some (found, stored)
  | none =>
    if pair.interval.start = uintptrMax then none
    else some (pair, place (pairCmp · pair) pair stored)

def cmpDelBulk (key : Pair) (stored : RecipeList) : RecipeList :=
  splice (pairCmp · key) (pairCmp · key) stored

def inrangeDelBulk (lo hi : Nat) (stored : RecipeList) : RecipeList :=
  splice (pairInrange · lo) (pairInrange · hi) stored

/-- `uw_recipe_map_poison`; `memory` is where `my_alloc` puts the new pair. -/
def poison (memory start stop : Nat) (stored : RecipeList) : Option RecipeList :=
  (csklInsert (pairInit memory .never none start stop) stored).map Prod.snd

def unpoison (memory memory' start stop : Nat) (stored : RecipeList) : Option RecipeList :=
  match csklInrangeFind start stored with
  | none => some stored
  | some found =>
    (poison memory found.interval.start start (cmpDelBulk found stored)).bind
      (poison memory' stop found.interval.stop)

/-- The poisoned interval that ends where the range starts is taken out and moves the start of the range. -/
def joinLeft (start : Nat) (stored : RecipeList) : Nat × RecipeList :=
  if 0 < start then
    match csklInrangeFind (start - 1) stored with
    | none => (start, stored)
    | some left =>
      if left.interval.stop = start ∧ left.stat = .never then (left.interval.start, cmpDelBulk left stored)
      else (start, stored)
  else (start, stored)

/-- The poisoned interval that starts where the range ends is looked for at the address after the end. -/
def joinRight (stop : Nat) (stored : RecipeList) : Nat × RecipeList :=
  if stop < uintptrMax then
    match csklInrangeFind (stop + 1) stored with
    | none => (stop, stored)
    | some right =>
      if right.interval.start = stop ∧ right.stat = .never then (right.interval.stop, cmpDelBulk right stored)
      else (stop, stored)
  else (stop, stored)

def repoison (memory start stop : Nat) (stored : RecipeList) : Option RecipeList :=
  let (start, stored) := joinLeft start stored
  let (stop, stored) := joinRight stop stored
  poison memory start stop stored

/-- What `uw_recipe_map_notify_unmap` does with the pairs of one unwinder. -/
def unmapRange (memory start stop : Nat) (stored : RecipeList) : Option RecipeList :=
  repoison memory start stop (inrangeDelBulk start (stop - 1) stored)

/-- What happens to a pair once a thread has it in hand: the one that finds it deferred builds its interval tree, with
no tree if the build crashed. -/
def settle (built : Option Bitree) (pair : Pair) : Pair :=
  if pair.stat = .deferred then
    match built with
    | some tree => { pair with stat := .ready, btuwi := tree }
    | none => { pair with stat := .never }
  else pair

/-- Changes the stored pair with a given start. -/
def updateStart (start : Nat) (change : Pair → Pair) (stored : RecipeList) : RecipeList :=
  stored.map fun pair => if pair.interval.start = start then change pair else pair

/-- The search of `uw_recipe_map_lookup_helper`, which is not made for the null address. -/
def helperFind (address : Nat) (stored : RecipeList) : Option Pair :=
  if address = 0 then none else csklInrangeFind address stored

/-- The pair that a lookup uses and the pairs stored once it has it: the pair that is found, or the one that is inserted
for the function that `fnbounds_enclosing_addr` reports. -/
def lookupPair (memory address : Nat) (bounds : Option (Interval × Nat)) (stored : RecipeList) :
    Option (Option Pair × RecipeList) :=
  match helperFind address stored with
  | some found => some (some found, stored)
  | none =>
    match bounds with
    | none => some (none, stored)
    | some (function, lm) =>
      if address < function.start ∨ function.stop ≤ address then some (none, stored)
      else (csklInsert (pairInit memory .deferred (some lm) function.start function.stop) stored).map fun (pair, stored) =>
        (some pair, stored)

/-- `uw_recipe_map_lookup` of a thread that is not disturbed, as far as the skip list is concerned. -/
def lookupStored (memory address : Nat) (bounds : Option (Interval × Nat)) (built : Option Bitree)
    (stored : RecipeList) : Option RecipeList :=
  (lookupPair memory address bounds stored).map fun (pair, stored) =>
    match pair with
    | none => stored
    | some pair => updateStart pair.interval.start (settle built) stored

inductive Unwinder where
  | dwarf
  | native
deriving DecidableEq

/-- `unwinder_to_cskiplist` -/
structure RecipeMaps where
  dwarf : RecipeList
  native : RecipeList

def RecipeMaps.get (maps : RecipeMaps) : Unwinder → RecipeList
  | .dwarf => maps.dwarf
  | .native => maps.native

def RecipeMaps.set (maps : RecipeMaps) (stored : RecipeList) : Unwinder → RecipeMaps
  | .dwarf => { maps with dwarf := stored }
  | .native => { maps with native := stored }

/-- The loops that treat the skip list of every unwinder alike. -/
def forUnwinders (op : Unwinder → RecipeList → Option RecipeList) (maps : RecipeMaps) : Option RecipeMaps :=
  (op .dwarf maps.dwarf).bind fun dwarf => (op .native maps.native).map fun native => ⟨dwarf, native⟩

/-- `uw_recipe_map_init` poisons everything. -/
def recipeMapInit (memory : Unwinder → Nat) : RecipeMaps where
  dwarf := [pairInit (memory .dwarf) .never none 0 uintptrMax]
  native := [pairInit (memory .native) .never none 0 uintptrMax]

lemma forUnwinders_eq_some_iff {op : Unwinder → RecipeList → Option RecipeList} {maps maps' : RecipeMaps} :
    forUnwinders op maps = some maps' ↔ ∀ uw, op uw (maps.get uw) = some (maps'.get uw) := by
  rw [forUnwinders, Option.bind_eq_some_iff]
  constructor
  · rintro ⟨dwarf, first, rest⟩
    obtain ⟨native, last, rfl⟩ := Option.map_eq_some_iff.mp rest
    intro uw
    cases uw with
    | dwarf => exact first
    | native => exact last
  · intro all
    refine ⟨maps'.dwarf, all .dwarf, ?_⟩
    apply Option.map_eq_some_iff.mpr
    exact ⟨maps'.native, all .native, rfl⟩

@[simp] lemma RecipeMaps.get_set_self (maps : RecipeMaps) (stored : RecipeList) (uw : Unwinder) :
    (maps.set stored uw).get uw = stored := by
  cases uw <;> rfl

lemma RecipeMaps.get_set_other (maps : RecipeMaps) (stored : RecipeList) {uw other : Unwinder} (ne : other ≠ uw) :
    (maps.set stored uw).get other = maps.get other := by
  cases uw <;> cases other <;> first | rfl | exact absurd rfl ne

lemma RecipeMaps.set_get_self (maps : RecipeMaps) (uw : Unwinder) : maps.set (maps.get uw) uw = maps := by
  cases uw <;> rfl

section Settle

variable {start : Nat} {built : Option Bitree} {pair : Pair} {stored : RecipeList}

/-- The pair as it is after the recipes at a start were built. -/
def settleAt (start : Nat) (built : Option Bitree) (pair : Pair) : Pair :=
  if pair.interval.start = start then settle built pair else pair

@[simp] lemma settleAt_interval : (settleAt start built pair).interval = pair.interval := by
  unfold settleAt settle
  split_ifs
  · cases built <;> rfl
  · rfl
  · rfl

@[simp] lemma settleAt_lm : (settleAt start built pair).lm = pair.lm := by
  unfold settleAt settle
  split_ifs
  · cases built <;> rfl
  · rfl
  · rfl

@[simp] lemma settleAt_place : (settleAt start built pair).place = pair.place := by
  unfold settleAt settle
  split_ifs
  · cases built <;> rfl
  · rfl
  · rfl

lemma settleAt_of_ne_deferred (settled : pair.stat ≠ .deferred) : settleAt start built pair = pair := by
  unfold settleAt settle
  rw [if_neg settled, ite_self]

lemma settleAt_of_never (never : pair.stat = .never) : settleAt start built pair = pair :=
  settleAt_of_ne_deferred (by rw [never]; decide)

end Settle

end HpcToolkit.Unwind
