import HpcToolkit.Lib.LinkedTree
import HpcToolkit.Lib.Reachable

/-! # The load map

Load modules are found by name and stay in the map when they are unmapped. The record that describes where a module is
mapped goes to a free list then, and is filled in again for another module. The links `prev`, the flags and the program
headers of a module are written and not read by these functions, so they are left out.
-/

open Function
open List hiding Chain

namespace HpcToolkit.Loadmap

open Lib

variable {Name : Type}

/-- `dso_info_t`, with a null pointer for `table` as 0. -/
structure DsoInfo (Name : Type) where
  name : Name
  startAddr : UInt64
  endAddr : UInt64
  startToRefDist : UInt64
  table : UInt64
  nsymbols : UInt64
  isRelocatable : Bool
  next : Option ℕ
deriving DecidableEq

structure FnboundsResponse where
  entries : UInt64
  numEntries : UInt64
  isRelocatable : Bool
  referenceOffset : UInt64

structure LoadModule (Name : Type) where
  id : UInt16
  name : Name
  dsoInfo : Option ℕ

/-- The variables of the load map. Records and modules are named by their places in memory. -/
structure State (Name : Type) where
  dso : ℕ → DsoInfo Name
  sDsoFreeList : Option ℕ
  /-- `hpcrun_malloc` handed out the records below. -/
  dsoAllocated : ℕ
  modules : ℕ → LoadModule Name
  /-- `hpcrun_malloc` handed out the modules below. -/
  allocated : ℕ
  /-- The modules from `lm_head` on. -/
  entries : List ℕ
  size : UInt16

namespace State

variable (s : State Name)

@[simps] def setDso (x : ℕ) (info : DsoInfo Name) : State Name := { s with dso := update s.dso x info }

@[simps] def setModule (lm : ℕ) (m : LoadModule Name) : State Name :=
  { s with modules := update s.modules lm m }

/-- A new record has the contents that its memory has. -/
def hpcrunDsoNew : ℕ × State Name :=
  match s.sDsoFreeList with
  | some x => (x, { s.setDso x { s.dso x with next := none } with sDsoFreeList := (s.dso x).next })
  | none => (s.dsoAllocated, { s with dsoAllocated := s.dsoAllocated + 1 })

/-- What `hpcrun_dso_make` writes into a record. -/
def fillIn (x : DsoInfo Name) (name : Name) (fnbres : Option FnboundsResponse) (startaddr endaddr : UInt64) :
    DsoInfo Name :=
  let x := { x with name, nsymbols := 0, startToRefDist := 0, startAddr := startaddr, endAddr := endaddr }
  let x := match fnbres with
    | none => x
    | some fnbres =>
      let x := { x with
        table := fnbres.entries
        nsymbols := fnbres.numEntries
        isRelocatable := fnbres.isRelocatable }
      if fnbres.isRelocatable then { x with startToRefDist := startaddr - fnbres.referenceOffset } else x
  { x with next := none }

def hpcrunDsoMake (name : Name) (fnbres : Option FnboundsResponse) (startaddr endaddr : UInt64) : ℕ × State Name :=
  let (x, s) := s.hpcrunDsoNew
  (x, s.setDso x (fillIn (s.dso x) name fnbres startaddr endaddr))

def hpcrunLoadModuleNew (name : Name) : ℕ × State Name :=
  let size := s.size + 1
  (s.allocated, { s.setModule s.allocated ⟨size, name, none⟩ with allocated := s.allocated + 1, size })

def hpcrunLoadmapPushFront (lm : ℕ) : State Name := { s with entries := lm :: s.entries }

/-- `lm->dso_info = dso` -/
def attach (lm : ℕ) (dso : Option ℕ) : State Name := s.setModule lm { s.modules lm with dsoInfo := dso }

def hpcrunLoadmapUnmap (lm : ℕ) : State Name :=
  match (s.modules lm).dsoInfo with
  | none => s
  | some oldDso =>
    let s := s.attach lm none
    { s.setDso oldDso { s.dso oldDso with next := s.sDsoFreeList } with sDsoFreeList := some oldDso }

variable [DecidableEq Name]

def hpcrunLoadmapFindByName (name : Name) : Option ℕ := s.entries.find? fun lm => (s.modules lm).name = name

def hpcrunLoadmapMap (dso : ℕ) : ℕ × State Name :=
  match s.hpcrunLoadmapFindByName (s.dso dso).name with
  | some lm =>
    if (s.modules lm).dsoInfo ≠ some dso then (lm, (s.hpcrunLoadmapUnmap lm).attach lm (some dso)) else (lm, s)
  | none =>
    let (lm, s) := s.hpcrunLoadModuleNew (s.dso dso).name
    (lm, (s.attach lm (some dso)).hpcrunLoadmapPushFront lm)

end State

/-- The calls of the client: the end of `fnbounds_map_dso`, and an unmapping of the module of some number. -/
inductive Op (Name : Type) where
  | map (name : Name) (fnbres : Option FnboundsResponse) (startaddr endaddr : UInt64)
  | unmap (lm : ℕ)

/-- A call, with the record that `hpcrun_dso_make` gave; a module that does not exist cannot be unmapped. -/
def exec [DecidableEq Name] (s : State Name) : Op Name → Option (ℕ × DsoInfo Name) × State Name
  | .map name fnbres startaddr endaddr =>
    let (dso, s) := s.hpcrunDsoMake name fnbres startaddr endaddr
    (some (dso, s.dso dso), (s.hpcrunLoadmapMap dso).2)
  | .unmap lm => (none, if lm < s.allocated then s.hpcrunLoadmapUnmap lm else s)

/-! ## The contents of a record -/

/-- A record of these arguments in memory that is zero. -/
def described (name : Name) (fnbres : Option FnboundsResponse) (startaddr endaddr : UInt64) : DsoInfo Name :=
  State.fillIn ⟨name, 0, 0, 0, 0, 0, false, none⟩ name fnbres startaddr endaddr

/-- Nothing is left over of a module that the record described before. -/
def DsoInfo.Blank (x : DsoInfo Name) : Prop := x.table = 0 ∧ x.isRelocatable = false

lemma fillIn_eq_iff (x : DsoInfo Name) (name : Name) (fnbres : Option FnboundsResponse) (startaddr endaddr : UInt64) :
    State.fillIn x name fnbres startaddr endaddr = described name fnbres startaddr endaddr ↔
      (fnbres = none → x.Blank) := by
  cases fnbres with
  | none => simp [State.fillIn, described, DsoInfo.Blank]
  | some fnbres => cases relocatable : fnbres.isRelocatable <;> simp [State.fillIn, described, relocatable]

lemma fillIn_name (x : DsoInfo Name) (name : Name) (fnbres : Option FnboundsResponse) (startaddr endaddr : UInt64) :
    (State.fillIn x name fnbres startaddr endaddr).name = name := by
  cases fnbres with
  | none => rfl
  | some fnbres => cases relocatable : fnbres.isRelocatable <;> simp [State.fillIn, relocatable]

/-! ## The invariant -/

namespace State

variable {s : State Name} {free : List ℕ}

/-- The records of `free` are on the free list. The records that are attached are others and have the names of their
modules. -/
structure Inv (s : State Name) (free : List ℕ) : Prop where
  chain : Chain (fun x => (s.dso x).next) free s.sDsoFreeList none
  handedOut : ∀ x ∈ free, x < s.dsoAllocated
  entries : s.entries = (range s.allocated).reverse
  size : s.size = UInt16.ofNat s.allocated
  few : s.allocated < 2 ^ 16
  ids : ∀ lm < s.allocated, (s.modules lm).id = UInt16.ofNat (lm + 1)
  names : ∀ lm < s.allocated, ∀ lm' < s.allocated, (s.modules lm).name = (s.modules lm').name → lm = lm'
  attached : ∀ lm < s.allocated, ∀ x ∈ (s.modules lm).dsoInfo,
    x < s.dsoAllocated ∧ x ∉ free ∧ (s.dso x).name = (s.modules lm).name

/-- The record was handed out and is neither attached nor on the free list. -/
structure Pending (s : State Name) (free : List ℕ) (x : ℕ) : Prop where
  handedOut : x < s.dsoAllocated
  notFree : x ∉ free
  notAttached : ∀ lm < s.allocated, (s.modules lm).dsoInfo ≠ some x

variable {x : ℕ}

lemma Inv.setDso (inv : s.Inv free) (pending : s.Pending free x) (info : DsoInfo Name) :
    (s.setDso x info).Inv free where
  chain := inv.chain.congr fun y member => by
    have other : y ≠ x := fun same => pending.notFree (same ▸ member)
    simp [update_of_ne other]
  handedOut := inv.handedOut
  entries := inv.entries
  size := inv.size
  few := inv.few
  ids := inv.ids
  names := inv.names
  attached lm inMap y isAttached := by
    have other : y ≠ x := by
      rintro rfl
      exact pending.notAttached lm inMap isAttached
    obtain ⟨below, notFree, name⟩ := inv.attached lm inMap y isAttached
    exact ⟨below, notFree, by simpa [update_of_ne other] using name⟩

/-- What the operations on records leave of the modules. -/
structure SameModules (s s' : State Name) : Prop where
  modules : s'.modules = s.modules
  allocated : s'.allocated = s.allocated
  entries : s'.entries = s.entries
  size : s'.size = s.size

/-- The record that `hpcrun_dso_new` takes. -/
def nextDso (s : State Name) : ℕ := s.sDsoFreeList.getD s.dsoAllocated

lemma Inv.hpcrunDsoNew (inv : s.Inv free) :
    ∃ x s' free', s.hpcrunDsoNew = (x, s') ∧ s'.Inv free' ∧ s'.Pending free' x ∧
      SameModules s s' ∧
      ((s'.dso x).Blank ↔ (s.dso s.nextDso).Blank) := by
  rcases head : s.sDsoFreeList with _ | x
  · have fresh (y : ℕ) (below : y < s.dsoAllocated) : y ≠ s.dsoAllocated := Nat.ne_of_lt below
    have run : s.hpcrunDsoNew = (s.dsoAllocated, { s with dsoAllocated := s.dsoAllocated + 1 }) := by
      rw [State.hpcrunDsoNew, head]
    refine ⟨_, _, free, run, ⟨inv.chain, ?_, inv.entries, inv.size, inv.few, inv.ids, inv.names, ?_⟩,
      ⟨Nat.lt_succ_self _, ?_, ?_⟩, ⟨rfl, rfl, rfl, rfl⟩, ?_⟩
    · exact fun y member => Nat.lt_succ_of_lt (inv.handedOut y member)
    · intro lm inMap y isAttached
      obtain ⟨below, notFree, name⟩ := inv.attached lm inMap y isAttached
      exact ⟨Nat.lt_succ_of_lt below, notFree, name⟩
    · exact fun member => fresh _ (inv.handedOut _ member) rfl
    · exact fun lm inMap isAttached => fresh _ (inv.attached lm inMap _ isAttached).1 rfl
    · simp [nextDso, head]
  · have chain := inv.chain
    rw [head] at chain
    cases free with
    | nil => exact absurd chain (by simp [Chain])
    | cons first free =>
      obtain ⟨isFirst, chain⟩ := chain
      obtain rfl : x = first := Option.some.inj isFirst
      have notLater : x ∉ free := (nodup_cons.mp inv.chain.nodup).1
      have other (y : ℕ) (member : y ∈ free) : y ≠ x := fun same => notLater (same ▸ member)
      have apart (lm : ℕ) (inMap : lm < s.allocated) (y : ℕ) (isAttached : (s.modules lm).dsoInfo = some y) : y ≠ x := by
        rintro rfl
        exact (inv.attached lm inMap y isAttached).2.1 mem_cons_self
      have run : s.hpcrunDsoNew =
          (x, { s.setDso x { s.dso x with next := none } with sDsoFreeList := (s.dso x).next }) := by
        rw [State.hpcrunDsoNew, head]
      refine ⟨_, _, free, run, ⟨?_, ?_, inv.entries, inv.size, inv.few, inv.ids, inv.names, ?_⟩,
        ⟨inv.handedOut x mem_cons_self, notLater, ?_⟩, ⟨rfl, rfl, rfl, rfl⟩, ?_⟩
      · refine chain.congr fun y member => ?_
        simp [update_of_ne (other y member)]
      · exact fun y member => inv.handedOut y (mem_cons_of_mem x member)
      · intro lm inMap y isAttached
        obtain ⟨below, notFree, name⟩ := inv.attached lm inMap y isAttached
        refine ⟨below, fun member => notFree (mem_cons_of_mem x member), ?_⟩
        simpa [update_of_ne (apart lm inMap y isAttached)] using name
      · exact fun lm inMap isAttached => apart lm inMap x isAttached rfl
      · simp [DsoInfo.Blank, nextDso, head]

lemma Inv.hpcrunDsoMake (inv : s.Inv free) (name : Name) (fnbres : Option FnboundsResponse)
    (startaddr endaddr : UInt64) :
    ∃ x s' free', s.hpcrunDsoMake name fnbres startaddr endaddr = (x, s') ∧ s'.Inv free' ∧ s'.Pending free' x ∧
      SameModules s s' ∧ (s'.dso x).name = name ∧
      (s'.dso x = described name fnbres startaddr endaddr ↔
        (fnbres = none → (s.dso s.nextDso).Blank)) := by
  obtain ⟨x, s', free', run, inv', pending, same, blank⟩ := inv.hpcrunDsoNew
  refine ⟨x, s'.setDso x (fillIn (s'.dso x) name fnbres startaddr endaddr), free', by rw [State.hpcrunDsoMake, run],
    inv'.setDso pending _, ⟨pending.handedOut, pending.notFree, pending.notAttached⟩,
    ⟨same.modules, same.allocated, same.entries, same.size⟩, ?_, ?_⟩
  · rw [setDso_dso, update_self, fillIn_name]
  · rw [setDso_dso, update_self, fillIn_eq_iff, blank]

/-- A module changes its record only. -/
structure Reattached (s : State Name) (lm : ℕ) (dso : Option ℕ) (s' : State Name) : Prop where
  allocated : s'.allocated = s.allocated
  entries : s'.entries = s.entries
  size : s'.size = s.size
  modules : s'.modules = update s.modules lm { s.modules lm with dsoInfo := dso }

variable {lm : ℕ} {dso : Option ℕ} {s' : State Name}

lemma Reattached.same (reattached : Reattached s lm dso s') (m : ℕ) :
    (s'.modules m).id = (s.modules m).id ∧ (s'.modules m).name = (s.modules m).name := by
  rw [reattached.modules]
  rcases eq_or_ne m lm with rfl | other
  · rw [update_self]
    exact ⟨rfl, rfl⟩
  · rw [update_of_ne other]
    exact ⟨rfl, rfl⟩

lemma Inv.reattach {free' : List ℕ} (inv : s.Inv free)
    (reattached : Reattached s lm dso s') (chain : Chain (fun x => (s'.dso x).next) free' s'.sDsoFreeList none)
    (handedOut : ∀ x ∈ free', x < s'.dsoAllocated)
    (own : ∀ x ∈ dso, x < s'.dsoAllocated ∧ x ∉ free' ∧ (s'.dso x).name = (s.modules lm).name)
    (others : ∀ m < s.allocated, m ≠ lm → ∀ x ∈ (s.modules m).dsoInfo,
      x < s'.dsoAllocated ∧ x ∉ free' ∧ (s'.dso x).name = (s.modules m).name) : s'.Inv free' where
  chain := chain
  handedOut := handedOut
  entries := by rw [reattached.entries, reattached.allocated, inv.entries]
  size := by rw [reattached.size, reattached.allocated, inv.size]
  few := by
    rw [reattached.allocated]
    exact inv.few
  ids m inMap := by
    rw [reattached.allocated] at inMap
    rw [(reattached.same m).1, inv.ids m inMap]
  names m inMap m' inMap' same := by
    rw [reattached.allocated] at inMap inMap'
    rw [(reattached.same m).2, (reattached.same m').2] at same
    exact inv.names m inMap m' inMap' same
  attached m inMap x isAttached := by
    rw [reattached.allocated] at inMap
    rw [(reattached.same m).2]
    rw [reattached.modules] at isAttached
    rcases eq_or_ne m lm with rfl | other
    · rw [update_self] at isAttached
      exact own x isAttached
    · rw [update_of_ne other] at isAttached
      exact others m inMap other x isAttached

lemma Inv.hpcrunLoadmapUnmap (inv : s.Inv free) (inMap : lm < s.allocated) :
    ∃ free', (s.hpcrunLoadmapUnmap lm).Inv free' ∧ Reattached s lm none (s.hpcrunLoadmapUnmap lm) ∧
      ∀ x, s.Pending free x → (s.hpcrunLoadmapUnmap lm).Pending free' x ∧ (s.hpcrunLoadmapUnmap lm).dso x = s.dso x := by
  rcases old : (s.modules lm).dsoInfo with _ | oldDso
  · have run : s.hpcrunLoadmapUnmap lm = s := by rw [State.hpcrunLoadmapUnmap, old]
    rw [run]
    refine ⟨free, inv, ⟨rfl, rfl, rfl, ?_⟩, fun x pending => ⟨pending, rfl⟩⟩
    rw [← old]
    exact (update_eq_self lm s.modules).symm
  · have run : s.hpcrunLoadmapUnmap lm = { (s.attach lm none).setDso oldDso { s.dso oldDso with next := s.sDsoFreeList }
        with sDsoFreeList := some oldDso } := by
      rw [State.hpcrunLoadmapUnmap, old]
      rfl
    obtain ⟨below, notFree, name⟩ := inv.attached lm inMap oldDso old
    have reattached : Reattached s lm none (s.hpcrunLoadmapUnmap lm) := by
      rw [run]
      exact ⟨rfl, rfl, rfl, rfl⟩
    have kept (x : ℕ) (other : x ≠ oldDso) : (s.hpcrunLoadmapUnmap lm).dso x = s.dso x := by
      rw [run]
      exact update_of_ne other ..
    have link : ((s.hpcrunLoadmapUnmap lm).dso oldDso).next = s.sDsoFreeList := by
      rw [run]
      exact congrArg DsoInfo.next (update_self oldDso _ s.dso)
    have allocated : (s.hpcrunLoadmapUnmap lm).dsoAllocated = s.dsoAllocated := by
      rw [run]
      rfl
    refine ⟨oldDso :: free, inv.reattach reattached ⟨?_, ?_⟩ ?_ (by simp) ?_, reattached,
      fun x pending => ⟨⟨?_, ?_, ?_⟩, ?_⟩⟩
    · rw [run]
    · change Chain _ free ((s.hpcrunLoadmapUnmap lm).dso oldDso).next none
      rw [link]
      refine inv.chain.congr fun x member => ?_
      rw [kept x fun same => notFree (same ▸ member)]
    · rw [allocated]
      exact fun x member => (mem_cons.mp member).elim (fun same => same ▸ below) (inv.handedOut x)
    · intro m inMapM differ x isAttached
      obtain ⟨belowX, notFreeX, nameX⟩ := inv.attached m inMapM x isAttached
      have other : x ≠ oldDso := by
        rintro rfl
        exact differ (inv.names m inMapM lm inMap (nameX.symm.trans name))
      rw [allocated, kept x other, mem_cons, not_or]
      exact ⟨belowX, ⟨other, notFreeX⟩, nameX⟩
    · rw [allocated]
      exact pending.handedOut
    · rw [mem_cons, not_or]
      exact ⟨fun same => pending.notAttached lm inMap (same ▸ old), pending.notFree⟩
    · intro m inMapM
      rw [reattached.allocated] at inMapM
      rw [reattached.modules]
      rcases eq_or_ne m lm with rfl | other
      · rw [update_self]
        simp
      · rw [update_of_ne other]
        exact pending.notAttached m inMapM
    · exact kept x fun same => pending.notAttached lm inMap (same ▸ old)

lemma Inv.attach (inv : s.Inv free) {lm x : ℕ} (pending : s.Pending free x)
    (name : (s.dso x).name = (s.modules lm).name) : (s.attach lm (some x)).Inv free := by
  have reattached : Reattached s lm (some x) (s.attach lm (some x)) := ⟨rfl, rfl, rfl, rfl⟩
  refine inv.reattach reattached inv.chain inv.handedOut ?_ fun m inMapM _ y isAttached =>
    inv.attached m inMapM y isAttached
  rintro y ⟨⟩
  exact ⟨pending.handedOut, pending.notFree, name⟩

/-! ## Mapping -/

/-- What a mapping changes: the modules that were there keep their ids and names, and a new one comes in front. -/
structure Keeps (s s' : State Name) : Prop where
  entries : ∀ lm ∈ s.entries, lm ∈ s'.entries
  same : ∀ lm ∈ s.entries, (s'.modules lm).id = (s.modules lm).id ∧ (s'.modules lm).name = (s.modules lm).name

lemma Inv.mem_entries (inv : s.Inv free) : lm ∈ s.entries ↔ lm < s.allocated := by
  rw [inv.entries, mem_reverse, mem_range]

/-- The map with a new module in front. -/
def withNew (s : State Name) (x : ℕ) : State Name :=
  { s with
    modules := update s.modules s.allocated ⟨s.size + 1, (s.dso x).name, some x⟩
    allocated := s.allocated + 1
    entries := s.allocated :: s.entries
    size := s.size + 1 }

lemma Inv.withNew (inv : s.Inv free) (pending : s.Pending free x) (room : s.allocated + 1 < 2 ^ 16)
    (fresh : ∀ lm < s.allocated, (s.modules lm).name ≠ (s.dso x).name) : (s.withNew x).Inv free := by
  have old (lm : ℕ) (inMap : lm < s.allocated) : (s.withNew x).modules lm = s.modules lm :=
    update_of_ne (Nat.ne_of_lt inMap) ..
  have new : (s.withNew x).modules s.allocated = ⟨s.size + 1, (s.dso x).name, some x⟩ := update_self ..
  have next : s.size + 1 = UInt16.ofNat (s.allocated + 1) := by rw [inv.size, UInt16.ofNat_add]; rfl
  have eachCase (lm : ℕ) (inMap : lm < (s.withNew x).allocated) : lm < s.allocated ∨ lm = s.allocated :=
    Nat.lt_succ_iff_lt_or_eq.mp inMap
  refine ⟨inv.chain, inv.handedOut, ?_, next, room, ?_, ?_, ?_⟩
  · change s.allocated :: s.entries = (range (s.allocated + 1)).reverse
    rw [range_succ, reverse_append, inv.entries]
    rfl
  · intro lm inMap
    rcases eachCase lm inMap with inMap | rfl
    · rw [old lm inMap, inv.ids lm inMap]
    · rw [new, next]
  · intro lm inMap lm' inMap' same
    rcases eachCase lm inMap with inMap | rfl <;> rcases eachCase lm' inMap' with inMap' | rfl
    · rw [old lm inMap, old lm' inMap'] at same
      exact inv.names lm inMap lm' inMap' same
    · rw [old lm inMap, new] at same
      exact absurd same (fresh lm inMap)
    · rw [old lm' inMap', new] at same
      exact absurd same.symm (fresh lm' inMap')
    · rfl
  · intro lm inMap y isAttached
    rcases eachCase lm inMap with inMap | rfl
    · rw [old lm inMap] at isAttached ⊢
      exact inv.attached lm inMap y isAttached
    · rw [new] at isAttached ⊢
      obtain rfl : x = y := Option.some.inj isAttached
      exact ⟨pending.handedOut, pending.notFree, rfl⟩

lemma Reattached.keeps (reattached : Reattached s lm dso s') :
    Keeps s s' :=
  ⟨fun _ inMap => reattached.entries ▸ inMap, fun m _ => reattached.same m⟩

lemma Keeps.trans {s' s'' : State Name} (first : Keeps s s') (second : Keeps s' s'') : Keeps s s'' :=
  ⟨fun lm inMap => second.entries lm (first.entries lm inMap), fun lm inMap =>
    ⟨(second.same lm (first.entries lm inMap)).1.trans (first.same lm inMap).1,
      (second.same lm (first.entries lm inMap)).2.trans (first.same lm inMap).2⟩⟩

variable [DecidableEq Name]

lemma Inv.findByName (inv : s.Inv free) (name : Name) :
    (∀ lm, s.hpcrunLoadmapFindByName name = some lm → lm < s.allocated ∧ (s.modules lm).name = name) ∧
      (s.hpcrunLoadmapFindByName name = none → ∀ lm < s.allocated, (s.modules lm).name ≠ name) := by
  constructor
  · intro lm found
    exact ⟨inv.mem_entries.mp (mem_of_find?_eq_some found), by simpa using find?_some found⟩
  · intro absent lm inMap
    simpa using find?_eq_none.mp absent lm (inv.mem_entries.mpr inMap)

lemma hpcrunLoadmapMap_new (absent : s.hpcrunLoadmapFindByName (s.dso x).name = none) :
    (s.hpcrunLoadmapMap x).2 = s.withNew x := by
  rw [hpcrunLoadmapMap, absent]
  simp [hpcrunLoadModuleNew, hpcrunLoadmapPushFront, State.attach, State.withNew, setModule]

lemma Inv.hpcrunLoadmapMap (inv : s.Inv free) (pending : s.Pending free x)
    (room : s.hpcrunLoadmapFindByName (s.dso x).name = none → s.allocated + 1 < 2 ^ 16) :
    ∃ free', (s.hpcrunLoadmapMap x).2.Inv free' ∧ Keeps s (s.hpcrunLoadmapMap x).2 := by
  obtain ⟨present, absent⟩ := inv.findByName (s.dso x).name
  cases found : s.hpcrunLoadmapFindByName (s.dso x).name with
  | none =>
    rw [hpcrunLoadmapMap_new found]
    refine ⟨free, inv.withNew pending (room found) (absent found), ?_, fun lm inMap => ?_⟩
    · exact fun lm inMap => mem_cons_of_mem s.allocated inMap
    · have other : lm ≠ s.allocated := Nat.ne_of_lt (inv.mem_entries.mp inMap)
      simp [State.withNew, update_of_ne other]
  | some lm =>
    obtain ⟨inMap, name⟩ := present lm found
    have run : (s.hpcrunLoadmapMap x).2 = (s.hpcrunLoadmapUnmap lm).attach lm (some x) := by
      rw [State.hpcrunLoadmapMap, found]
      exact congrArg Prod.snd (if_pos (pending.notAttached lm inMap))
    obtain ⟨free', inv', reattached, pendings⟩ := inv.hpcrunLoadmapUnmap inMap
    obtain ⟨pending', contents⟩ := pendings x pending
    have attached : Reattached (s.hpcrunLoadmapUnmap lm) lm (some x) ((s.hpcrunLoadmapUnmap lm).attach lm (some x)) :=
      ⟨rfl, rfl, rfl, rfl⟩
    rw [run]
    refine ⟨free', inv'.attach pending' ?_, reattached.keeps.trans attached.keeps⟩
    rw [contents, (reattached.same lm).2, name]

/-! ## Runs -/

def OnFreeList (s : State Name) (x : ℕ) : Prop :=
  ∃ front, Chain (fun y => (s.dso y).next) front s.sDsoFreeList (some x)

structure Consistent (s : State Name) : Prop where
  names : (s.entries.map fun lm => (s.modules lm).name).Nodup
  ids : (s.entries.map fun lm => (s.modules lm).id.toNat).Perm (range' 1 s.size.toNat)
  attachedOnce : ∀ lm ∈ s.entries, ∀ lm' ∈ s.entries, ∀ x, (s.modules lm).dsoInfo = some x →
    (s.modules lm').dsoInfo = some x → lm = lm'
  notFree : ∀ lm ∈ s.entries, ∀ x ∈ (s.modules lm).dsoInfo, ¬ s.OnFreeList x

omit [DecidableEq Name] in
lemma Inv.consistent (inv : s.Inv free) : s.Consistent where
  names := by
    rw [nodup_map_iff_inj_on (by rw [inv.entries]; exact nodup_reverse.mpr nodup_range)]
    exact fun lm inMap lm' inMap' same => inv.names lm (inv.mem_entries.mp inMap) lm' (inv.mem_entries.mp inMap') same
  ids := by
    have each : s.entries.map (fun lm => (s.modules lm).id.toNat) = s.entries.map (· + 1) := by
      refine map_congr_left fun lm inMap => ?_
      have below := inv.mem_entries.mp inMap
      have few := inv.few
      rw [inv.ids lm below, UInt16.toNat_ofNat', Nat.mod_eq_of_lt (by omega)]
    rw [each, inv.size, UInt16.toNat_ofNat', Nat.mod_eq_of_lt inv.few, inv.entries, map_reverse,
      range'_eq_map_range]
    simp only [Nat.add_comm 1]
    exact reverse_perm _
  attachedOnce lm inMap lm' inMap' x isAttached isAttached' := by
    have below := inv.mem_entries.mp inMap
    have below' := inv.mem_entries.mp inMap'
    refine inv.names lm below lm' below' ?_
    rw [← (inv.attached lm below x isAttached).2.2, (inv.attached lm' below' x isAttached').2.2]
  notFree := by
    rintro lm inMap x isAttached ⟨front, chain⟩
    exact (inv.attached lm (inv.mem_entries.mp inMap) x isAttached).2.1 (chain.mem_of_reached inv.chain)

end State

/-- What `hpcrun_dso_make` should give in the course of a call. -/
def Op.described : Op Name → Option (DsoInfo Name)
  | .map name fnbres startaddr endaddr => some (Loadmap.described name fnbres startaddr endaddr)
  | .unmap _ => none

/-- What is promised of a call. -/
structure Promised (s : State Name) (op : Op Name) (result : Option (ℕ × DsoInfo Name)) (s' : State Name) : Prop where
  consistent : s'.Consistent
  keeps : s.Keeps s'
  contents : result.map Prod.snd = op.described

variable [DecidableEq Name]

/-- A record that gets no results of fnbounds is blank before, and there is an id for a module of a new name. -/
def Op.Meets (s : State Name) : Op Name → Prop
  | .map name fnbres _ _ =>
    (fnbres = none → (s.dso s.nextDso).Blank) ∧ (s.hpcrunLoadmapFindByName name = none → s.size ≠ 65535)
  | .unmap _ => True

variable {s : State Name} {free : List ℕ}

namespace State

lemma Inv.exec_unmap (inv : s.Inv free) (lm : ℕ) :
    ∃ free', (exec s (.unmap lm)).2.Inv free' ∧ s.Keeps (exec s (.unmap lm)).2 := by
  rcases lt_or_ge lm s.allocated with inMap | outside
  · obtain ⟨free', inv', reattached, -⟩ := inv.hpcrunLoadmapUnmap inMap
    have run : (exec s (.unmap lm)).2 = s.hpcrunLoadmapUnmap lm := if_pos inMap
    rw [run]
    exact ⟨free', inv', reattached.keeps⟩
  · have run : (exec s (.unmap lm)).2 = s := if_neg (not_lt_of_ge outside)
    rw [run]
    exact ⟨free, inv, fun _ inMap => inMap, fun _ _ => ⟨rfl, rfl⟩⟩

lemma Inv.exec_map (inv : s.Inv free) (name : Name) (fnbres : Option FnboundsResponse) (startaddr endaddr : UInt64) :
    let op := Op.map name fnbres startaddr endaddr
    ((exec s op).1.map Prod.snd = op.described ↔ (fnbres = none → (s.dso s.nextDso).Blank)) ∧
      ((s.hpcrunLoadmapFindByName name = none → s.size ≠ 65535) →
        ∃ free', (exec s op).2.Inv free' ∧ s.Keeps (exec s op).2) ∧
      ((exec s op).2.Consistent → s.hpcrunLoadmapFindByName name = none → s.size ≠ 65535) := by
  intro op
  obtain ⟨x, s', free', made, inv', pending, same, isNamed, contents⟩ :=
    inv.hpcrunDsoMake name fnbres startaddr endaddr
  have run : exec s op = (some (x, s'.dso x), (s'.hpcrunLoadmapMap x).2) := by
    change exec s (.map name fnbres startaddr endaddr) = _
    rw [exec, made]
  have lookup : s'.hpcrunLoadmapFindByName (s'.dso x).name = s.hpcrunLoadmapFindByName name := by
    rw [hpcrunLoadmapFindByName, same.entries, same.modules, isNamed, hpcrunLoadmapFindByName]
  have full : s.size = 65535 ↔ ¬ s.allocated + 1 < 2 ^ 16 := by
    have few := inv.few
    rw [inv.size, ← UInt16.toNat_inj, UInt16.toNat_ofNat', Nat.mod_eq_of_lt few]
    change s.allocated = 65535 ↔ _
    omega
  rw [run]
  refine ⟨?_, fun room => ?_, fun consistent absent isFull => ?_⟩
  · rw [← contents]
    exact Option.some_inj
  · have keeps : s.Keeps s' := ⟨fun _ inMap => same.entries ▸ inMap, fun _ _ => same.modules ▸ ⟨rfl, rfl⟩⟩
    obtain ⟨free'', inv'', keeps'⟩ := inv'.hpcrunLoadmapMap pending fun absent => by
      rw [same.allocated]
      exact not_not.mp (full.not.mp (room (lookup ▸ absent)))
    exact ⟨free'', inv'', keeps.trans keeps'⟩
  · have absent' : s'.hpcrunLoadmapFindByName (s'.dso x).name = none := lookup.trans absent
    rw [hpcrunLoadmapMap_new absent'] at consistent
    have wrapped : (s'.withNew x).size = 0 := by
      change s'.size + 1 = 0
      rw [same.size, isFull]
      decide
    have count := consistent.ids.length_eq
    rw [wrapped, length_map] at count
    exact absurd count (by simp [State.withNew])

lemma Inv.promised_iff (inv : s.Inv free) (op : Op Name) :
    (op.Meets s → ∃ free', (exec s op).2.Inv free') ∧ (Promised s op (exec s op).1 (exec s op).2 ↔ op.Meets s) := by
  cases op with
  | unmap lm =>
    obtain ⟨free', inv', keeps⟩ := inv.exec_unmap lm
    exact ⟨fun _ => ⟨free', inv'⟩, fun _ => trivial, fun _ => ⟨inv'.consistent, keeps, rfl⟩⟩
  | map name fnbres startaddr endaddr =>
    obtain ⟨contents, room, full⟩ := inv.exec_map name fnbres startaddr endaddr
    refine ⟨fun met => ?_, fun promised => ⟨contents.mp promised.contents, full promised.consistent⟩, fun met => ?_⟩
    · obtain ⟨free', inv', -⟩ := room met.2
      exact ⟨free', inv'⟩
    · obtain ⟨free', inv', keeps⟩ := room met.2
      exact ⟨inv'.consistent, keeps, contents.mpr met.1⟩

/-- Nothing was mapped yet. -/
def empty (memory : ℕ → DsoInfo Name) (modules : ℕ → LoadModule Name) : State Name where
  dso := memory
  sDsoFreeList := none
  dsoAllocated := 0
  modules
  allocated := 0
  entries := []
  size := 0

omit [DecidableEq Name] in
lemma inv_empty (memory : ℕ → DsoInfo Name) (modules : ℕ → LoadModule Name) : (empty memory modules).Inv [] where
  chain := rfl
  handedOut _ member := absurd member not_mem_nil
  entries := rfl
  size := rfl
  few := Nat.two_pow_pos 16
  ids _ inMap := absurd inMap (Nat.not_lt_zero _)
  names _ inMap := absurd inMap (Nat.not_lt_zero _)
  attached _ inMap := absurd inMap (Nat.not_lt_zero _)

end State

/-- All calls of a run keep their promises exactly when each meets the condition in the state before it. -/
theorem mapped_iff (memory : ℕ → DsoInfo Name) (modules : ℕ → LoadModule Name) (ops : List (Op Name)) :
    EachStep exec Promised (State.empty memory modules) ops ↔
      EachStep exec (fun s op _ _ => op.Meets s) (State.empty memory modules) ops := by
  refine eachStep_iff (fun s : State Name => ∃ free, s.Inv free) ?_ ?_ ⟨[], State.inv_empty memory modules⟩ ops
  · rintro s op ⟨free, inv⟩ met
    exact (inv.promised_iff op).1 met
  · rintro s op ⟨free, inv⟩
    exact (inv.promised_iff op).2

/-- The module 1 is given the symbol table of the module 0, which was unmapped, when it is mapped first. -/
def recycledCalls : List (Op ℕ) :=
  [.map 0 (some ⟨4096, 10, true, 0⟩) 0 100, .unmap 0, .map 1 none 200 300, .map 1 none 200 300]

/-- No function of the arguments gives the contents. -/
theorem recycled_not_described :
    let start := State.empty (fun _ => ⟨0, 0, 0, 0, 0, 0, false, none⟩) fun _ => ⟨0, 0, none⟩
    ¬ EachStep exec Promised start recycledCalls ∧
      ¬ ∃ contents : Op ℕ → Option (DsoInfo ℕ),
        EachStep exec (fun _ op result _ => result.map Prod.snd = contents op) start recycledCalls := by
  refine ⟨?_, ?_⟩
  · rintro ⟨-, -, promised, -⟩
    exact absurd promised.contents (by decide)
  · rintro ⟨contents, -, -, recycled, new, -⟩
    exact absurd (recycled.trans new.symm) (by decide)

end HpcToolkit.Loadmap
