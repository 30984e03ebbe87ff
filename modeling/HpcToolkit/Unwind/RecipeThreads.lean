import HpcToolkit.Unwind.RecipeCacheRuns

/-! # Threads that look up recipes at the same time

A lookup is a sequence of atomic steps on the skip list and on the status of a pair. Threads that miss insert a deferred pair
or take the one that another thread inserted; the thread whose compare-exchange finds the pair deferred builds its tree,
the others wait for the status.
-/

namespace HpcToolkit.Unwind

open Lib

/-- The functions of the mapped modules as `fnbounds_enclosing_addr` reports them. -/
structure FnBounds where
  enclosing : Nat → Option (Interval × Nat)
  proper : ∀ address found, enclosing address = some found →
    found.1.start < found.1.stop ∧ found.1.stop ≤ uintptrMax
  separate : ∀ address found address' found', enclosing address = some found → enclosing address' = some found' →
    found.1 = found'.1 ∨ Apart found.1 found'.1

/-- What a thread does next with the pair that it has in hand. -/
inductive Stage where
  | load
  | cas
  | build
  | write (tree : Bitree)
  | publish
  | fail
  | spin (oldstat : TreeStat)
  | read
deriving DecidableEq

/-- Where a thread is in `uw_recipe_map_lookup`; the pair in hand is given by its place in memory. -/
inductive LookupPc where
  | idle
  | hash (uw : Unwinder) (address : Nat)
  | find (uw : Unwinder) (address : Nat)
  | insert (uw : Unwinder) (address : Nat)
  | work (uw : Unwinder) (address place : Nat) (stage : Stage)
deriving DecidableEq

/-- The shared map and the threads. The last three fields record what has happened: the intervals inserted, the
compare-exchanges won, and the answers returned. -/
structure LookupState where
  maps : RecipeMaps
  tables : Nat → UwHashTable
  uwis : Nat → Uwi
  used : List Nat
  threads : Nat → LookupPc
  inserted : List (Unwinder × Interval)
  builders : List ((Unwinder × Nat) × Nat)
  returned : List (Nat × Option UnwindrInfo)

def pairAt (place : Nat) (stored : RecipeList) : Option Pair :=
  stored.find? fun pair => pair.place = place

def setPair (place : Nat) (change : Pair → Pair) (stored : RecipeList) : RecipeList :=
  stored.map fun pair => if pair.place = place then change pair else pair

namespace LookupState

def goto (s : LookupState) (thread : Nat) (pc : LookupPc) : LookupState :=
  { s with threads := Function.update s.threads thread pc }

def finish (s : LookupState) (thread address : Nat) (info : Option UnwindrInfo) : LookupState :=
  { s.goto thread .idle with returned := (address, info) :: s.returned }

def change (s : LookupState) (uw : Unwinder) (place : Nat) (change : Pair → Pair) : LookupState :=
  { s with maps := s.maps.set (setPair place change (s.maps.get uw)) uw }

/-- The beginning of `uw_recipe_map_lookup_helper`: the hash table is asked, but not for the null address. -/
def hashStep (s : LookupState) (thread : Nat) (uw : Unwinder) (address : Nat) : Option LookupState :=
  if address = 0 then some (s.goto thread (.insert uw address))
  else
    match uwHashLookup (s.tables thread) uw address with
    | none => some (s.goto thread (.find uw address))
    | some entry =>
      (pairAt entry.ilmBtui (s.maps.get uw)).map fun pair =>
        s.finish thread address (some ⟨s.uwis entry.btuwi, pair.lm, pair.interval⟩)

/-- A new deferred pair is inserted, or the pair with its start is taken; `memory` is not in use. -/
def insertStep (bounds : FnBounds) (s : LookupState) (thread : Nat) (uw : Unwinder) (address memory : Nat) :
    Option LookupState :=
  match bounds.enclosing address with
  | none => some (s.finish thread address none)
  | some (function, lm) =>
    if address < function.start ∨ function.stop ≤ address then some (s.finish thread address none)
    else if ∀ uw, ∀ pair ∈ s.maps.get uw, pair.place ≠ memory then
      (csklInsert (pairInit memory .deferred (some lm) function.start function.stop) (s.maps.get uw)).map
        fun (node, stored) =>
          { s.goto thread (.work uw address node.place .cas) with
            maps := s.maps.set stored uw
            inserted := if node.place = memory then (uw, function) :: s.inserted else s.inserted }
    else none

/-- The tree of the function is searched and the answer is entered into the table. -/
def readStep (s : LookupState) (thread : Nat) (uw : Unwinder) (address : Nat) (pair : Pair) : LookupState :=
  match if address = 0 then none else pair.btuwi.inrange address with
  | none => s.finish thread address none
  | some uwi =>
    { s.finish thread address (some ⟨uwi, pair.lm, pair.interval⟩) with
      tables := Function.update s.tables thread (uwHashInsert (s.tables thread) uw address pair.place uwi.place) }

/-- A step with the pair in hand; `built` is the outcome of `build_intervals`, nothing if it crashes. -/
def workStep (s : LookupState) (thread : Nat) (uw : Unwinder) (address place : Nat) (built : Option Bitree) :
    Stage → Option LookupState
  | .load => (pairAt place (s.maps.get uw)).map fun pair =>
      s.goto thread (.work uw address place (if pair.stat = .ready then .read else .cas))
  | .cas => (pairAt place (s.maps.get uw)).map fun pair =>
      if pair.stat = .deferred then
        { (s.change uw place fun pair => { pair with stat := .forthcoming }).goto thread (.work uw address place .build) with
          builders := ((uw, place), thread) :: s.builders }
      else s.goto thread (.work uw address place (.spin pair.stat))
  | .build =>
    match built with
    | none => some (s.goto thread (.work uw address place .fail))
    | some tree =>
      if (∀ uwi ∈ tree.nodes, uwi.place ∉ s.used) ∧ ∀ a ∈ tree.nodes, ∀ b ∈ tree.nodes, a.place = b.place → a = b then
        some { s.goto thread (.work uw address place (.write tree)) with
          uwis := writeTree tree s.uwis
          used := tree.nodes.map Uwi.place ++ s.used }
      else none
  | .write tree =>
    some ((s.change uw place fun pair => { pair with btuwi := tree }).goto thread (.work uw address place .publish))
  | .publish =>
    some ((s.change uw place fun pair => { pair with stat := .ready }).goto thread (.work uw address place .read))
  | .fail => some ((s.change uw place fun pair => { pair with stat := .never }).finish thread address none)
  | .spin oldstat =>
    if oldstat = .forthcoming then (pairAt place (s.maps.get uw)).map fun pair =>
      s.goto thread (.work uw address place (.spin pair.stat))
    else if oldstat = .never then some (s.finish thread address none)
    else some (s.goto thread (.work uw address place .read))
  | .read => (pairAt place (s.maps.get uw)).map fun pair => s.readStep thread uw address pair

end LookupState

/-- A thread calls `uw_recipe_map_lookup`, or takes its next step. -/
inductive LookupAct where
  | call (thread : Nat) (uw : Unwinder) (address : Nat)
  | advance (thread memory : Nat) (built : Option Bitree)

def LookupState.step (bounds : FnBounds) (s : LookupState) : LookupAct → Option LookupState
  | .call thread uw address =>
    if s.threads thread = .idle then some (s.goto thread (.hash uw address)) else none
  | .advance thread memory built =>
    match s.threads thread with
    | .idle => none
    | .hash uw address => s.hashStep thread uw address
    | .find uw address =>
      match csklInrangeFind address (s.maps.get uw) with
      | none => some (s.goto thread (.insert uw address))
      | some pair => some (s.goto thread (.work uw address pair.place .load))
    | .insert uw address => s.insertStep bounds thread uw address memory
    | .work uw address place stage => s.workStep thread uw address place built stage

/-- Nothing was looked up yet. -/
def LookupState.initial (maps : RecipeMaps) (uwis : Nat → Uwi) : LookupState :=
  ⟨maps, fun _ => uwHashNew, uwis, [], fun _ => .idle, [], [], []⟩

/-- A map with poisoned intervals only. -/
structure AllPoisoned (maps : RecipeMaps) : Prop where
  keyed : ∀ uw, Keyed (maps.get uw)
  places : ∀ uw, ((maps.get uw).map Pair.place).Nodup
  poisoned : ∀ uw, ∀ pair ∈ maps.get uw, pair.lm = none ∧ pair.stat = .never ∧ pair.btuwi = .null

/-- The moves of a status: `DEFERRED` to `FORTHCOMING`, then to `READY` or `NEVER`. -/
inductive TreeStat.Moves : TreeStat → TreeStat → Prop where
  | stay (stat : TreeStat) : Moves stat stat
  | start : Moves .deferred .forthcoming
  | publish : Moves .forthcoming .ready
  | fail : Moves .forthcoming .never

/-- A stored pair stays, its status makes at most one move, and nothing of it changes once it is ready or failed. -/
def Advances (stored stored' : RecipeList) : Prop :=
  ∀ pair ∈ stored, ∃ pair' ∈ stored', pair'.place = pair.place ∧ pair'.interval = pair.interval ∧ pair'.lm = pair.lm ∧
    pair.stat.Moves pair'.stat ∧ (pair.stat = .ready ∨ pair.stat = .never → pair' = pair)

/-- Each function is inserted once and built by one thread, no tree is read before it is ready, and every recipe that is
returned is one for the address. -/
structure LookupState.PublishedOnce (s : LookupState) : Prop where
  insertedOnce : s.inserted.Nodup
  stored : ∀ uw interval, (uw, interval) ∈ s.inserted ↔ ∃ pair ∈ s.maps.get uw, pair.lm ≠ none ∧ pair.interval = interval
  builtOnce : ∀ uw, ∀ pair ∈ s.maps.get uw, pair.lm ≠ none →
    s.builders.countP (fun builder => builder.1 = (uw, pair.place)) = if pair.stat = .deferred then 0 else 1
  readReady : ∀ thread uw address place, s.threads thread = .work uw address place .read →
    ∃ pair ∈ s.maps.get uw, pair.place = place ∧ pair.stat = .ready
  answers : ∀ address info, (address, some info) ∈ s.returned →
    info.uwi.interval.Contains address ∧ info.interval.Contains address

end HpcToolkit.Unwind
