import HpcToolkit.Lib.Exclusive
import HpcToolkit.Lib.Reachable

/-! # Concurrent id maps

`get` finds the entry of an index. The first entries are part of the map, the others are in blocks that are
allocated on demand. A thread that finds no block allocates one and offers it to the slots in circular order,
starting with its own, until one takes it; if its own slot has been taken meanwhile, it uses what is there.
-/

open Option
open Function

namespace HpcToolkit.Collections.IdMap

open Lib

/-- The macros of an instance. -/
structure Config where
  blockSize : ℕ
  numBlocks : ℕ
  positive : 0 < blockSize

/-- The address of an entry: in the map itself, or in an allocated block. -/
inductive Entry where
  | block0 (i : ℕ)
  | block (address i : ℕ)
deriving DecidableEq

/-- Where a thread is in `get`. -/
inductive Thread where
  | away
  | enter (idx : UInt32)
  | allocate (idx : UInt32)
  | offer (idx : UInt32) (block i : ℕ)
  | reload (idx : UInt32)
deriving DecidableEq

/-- The slots of the blocks, the addresses that were allocated, and the calls that have returned. -/
structure State (T : ℕ) where
  blocks : ℕ → Option ℕ
  allocated : Finset ℕ
  threads : Fin T → Thread
  results : List (UInt32 × Option Entry)

/-- A call, a step of a thread, or an allocation that returns an address. -/
inductive Act (T : ℕ) where
  | get (t : Fin T) (idx : UInt32)
  | run (t : Fin T)
  | alloc (t : Fin T) (address : ℕ)

section
variable (cfg : Config)

def slot (idx : UInt32) : ℕ := (idx.toNat - cfg.blockSize) / cfg.blockSize

def offset (idx : UInt32) : ℕ := (idx.toNat - cfg.blockSize) % cfg.blockSize

/-- The slot of the `i`th offer. -/
def nextSlot (idx : UInt32) (i : ℕ) : ℕ := (slot cfg idx + i) % 2 ^ 32 % cfg.numBlocks

section
variable {T : ℕ}

def State.move (s : State T) (t : Fin T) (thread : Thread) : State T :=
  { s with threads := update s.threads t thread }

def State.return (s : State T) (t : Fin T) (idx : UInt32) (result : Option Entry) : State T :=
  { s with threads := update s.threads t .away, results := (idx, result) :: s.results }

def step (s : State T) : Act T → Option (State T)
  | .get t idx => if s.threads t = .away then some (s.move t (.enter idx)) else none
  | .alloc t address =>
    match s.threads t with
    | .allocate idx =>
      if address ∈ s.allocated then none
      else some ({ s with allocated := insert address s.allocated }.move t (.offer idx address 0))
    | _ => none
  | .run t =>
    match s.threads t with
    | .enter idx =>
      if idx.toNat < cfg.blockSize then some (s.return t idx (some (.block0 idx.toNat)))
      else if cfg.numBlocks ≤ slot cfg idx then some (s.return t idx none)
      else
        match s.blocks (slot cfg idx) with
        | some block => some (s.return t idx (some (.block block (offset cfg idx))))
        | none => some (s.move t (.allocate idx))
    | .offer idx block i =>
      if i < cfg.numBlocks then
        match s.blocks (nextSlot cfg idx i) with
        | none =>
          some ({ s with blocks := update s.blocks (nextSlot cfg idx i) (some block) }.move t (.reload idx))
        | some _ => some (s.move t (.offer idx block (i + 1)))
      else some (s.move t (.reload idx))
    | .reload idx =>
      some (s.return t idx ((s.blocks (slot cfg idx)).map fun block => .block block (offset cfg idx)))
    | _ => none

/-- A map that was just initialized. -/
def start (T : ℕ) : State T := ⟨fun _ => none, ∅, fun _ => .away, []⟩

/-- The threads act in some order. -/
def run (acts : List (Act T)) : Option (State T) := acts.foldlM (step cfg) (start T)

/-- The thread that takes a step. -/
def Act.thread : Act T → Fin T
  | .get t _ => t
  | .run t => t
  | .alloc t _ => t

/-- The steps that are left for a call, at most. -/
def Thread.left : Thread → ℕ
  | .away => 0
  | .enter _ => cfg.numBlocks + 4
  | .allocate _ => cfg.numBlocks + 3
  | .offer _ _ i => cfg.numBlocks - i + 2
  | .reload _ => 1

/-- Calls with the same index return the same entry, calls with different indices different ones, and only indices
beyond the capacity have none. -/
structure Stable (results : List (UInt32 × Option Entry)) : Prop where
  same : ∀ idx r r', (idx, r) ∈ results → (idx, r') ∈ results → r = r'
  different : ∀ idx idx' e, (idx, some e) ∈ results → (idx', some e) ∈ results → idx = idx'
  present : ∀ idx r, (idx, r) ∈ results → (r = none ↔ (cfg.numBlocks + 1) * cfg.blockSize ≤ idx.toNat)

/-- Whatever the others do, the thread can take a step of its call, and each one brings it closer to the end. -/
structure Proceeds (s : State T) (t : Fin T) : Prop where
  enabled : ∃ act s', act.thread = t ∧ step cfg s act = some s'
  closer : ∀ act s', act.thread = t → step cfg s act = some s' → (s'.threads t).left cfg < (s.threads t).left cfg

/-! ## Invariant -/

/-- The entry of an index, as the blocks are. -/
def entryOf (blocks : ℕ → Option ℕ) (idx : UInt32) : Option Entry :=
  if idx.toNat < cfg.blockSize then some (.block0 idx.toNat)
  else if cfg.numBlocks ≤ slot cfg idx then none
  else (blocks (slot cfg idx)).map fun block => .block block (offset cfg idx)

/-- The block that a thread has to offer. -/
def Thread.holds : Thread → Option ℕ
  | .offer _ block _ => some block
  | _ => none

/-- The index is in a block, and once a thread has made an offer there is a block for it. -/
def Thread.Valid (blocks : ℕ → Option ℕ) : Thread → Prop
  | .away => True
  | .enter _ => True
  | .allocate idx => cfg.blockSize ≤ idx.toNat ∧ slot cfg idx < cfg.numBlocks
  | .offer idx _ i =>
    cfg.blockSize ≤ idx.toNat ∧ slot cfg idx < cfg.numBlocks ∧ (i ≠ 0 → blocks (slot cfg idx) ≠ none)
  | .reload idx => cfg.blockSize ≤ idx.toNat ∧ slot cfg idx < cfg.numBlocks ∧ blocks (slot cfg idx) ≠ none

/-- Every allocated block is in one slot or with one thread, at most. -/
structure Inv (s : State T) : Prop where
  distinct : ∀ a b x, s.blocks a = some x → s.blocks b = some x → a = b
  known : ∀ a x, s.blocks a = some x → x ∈ s.allocated
  fresh : ∀ t x, (s.threads t).holds = some x → x ∈ s.allocated ∧ ∀ a, s.blocks a ≠ some x
  apart : Exclusive Thread.holds s.threads
  threads : ∀ t, (s.threads t).Valid cfg s.blocks
  results : ∀ idx r, (idx, r) ∈ s.results → r = entryOf cfg s.blocks idx ∧
    (r = none → cfg.blockSize ≤ idx.toNat ∧ cfg.numBlocks ≤ slot cfg idx)

variable {cfg} {s s' : State T} {t : Fin T}

lemma Inv.start : Inv cfg (start T) where
  distinct a b x here := by cases here
  known a x here := by cases here
  fresh t x here := by cases here
  apart t u x here := by cases here
  threads _ := trivial
  results idx r listed := absurd listed List.not_mem_nil

variable {thread : Thread}

lemma Inv.move (inv : Inv cfg s) (valid : thread.Valid cfg s.blocks)
    (kept : ∀ x, thread.holds = some x → (s.threads t).holds = some x) : Inv cfg (s.move t thread) where
  distinct := inv.distinct
  known := inv.known
  fresh := (forall_update_iff s.threads
    fun _ thread => ∀ x, thread.holds = some x → x ∈ s.allocated ∧ ∀ a, s.blocks a ≠ some x).mpr
      ⟨fun x here => inv.fresh t x (kept x here), fun u _ => inv.fresh u⟩
  apart := inv.apart.keep kept
  threads := (forall_update_iff s.threads fun _ thread => thread.Valid cfg s.blocks).mpr
    ⟨valid, fun u _ => inv.threads u⟩
  results := inv.results

variable {idx : UInt32}

lemma Inv.return (inv : Inv cfg s) {result : Option Entry}
    (found : result = entryOf cfg s.blocks idx)
    (absent : result = none → cfg.blockSize ≤ idx.toNat ∧ cfg.numBlocks ≤ slot cfg idx) :
    Inv cfg (s.return t idx result) := by
  have moved : Inv cfg (s.move t .away) := inv.move trivial fun x here => by cases here
  refine ⟨moved.distinct, moved.known, moved.fresh, moved.apart, moved.threads, ?_⟩
  intro i r listed
  rcases List.mem_cons.mp listed with last | earlier
  · obtain ⟨rfl, rfl⟩ := Prod.mk.inj last
    exact ⟨found, absent⟩
  · exact inv.results i r earlier

lemma Inv.allocate (inv : Inv cfg s) {address : ℕ} (unused : address ∉ s.allocated)
    (allocating : s.threads t = .allocate idx) :
    Inv cfg ({ s with allocated := insert address s.allocated }.move t (.offer idx address 0)) := by
  have valid := inv.threads t
  rw [allocating] at valid
  refine ⟨inv.distinct, fun a x here => Finset.mem_insert_of_mem (inv.known a x here), ?_, ?_, ?_, inv.results⟩
  · refine (forall_update_iff s.threads fun _ thread => ∀ x, thread.holds = some x →
      x ∈ insert address s.allocated ∧ ∀ a, s.blocks a ≠ some x).mpr ⟨fun x here => ?_, fun u _ x here => ?_⟩
    · cases here
      exact ⟨Finset.mem_insert_self _ _, fun a there => unused (inv.known a _ there)⟩
    · obtain ⟨known, new⟩ := inv.fresh u x here
      exact ⟨Finset.mem_insert_of_mem known, new⟩
  · refine inv.apart.update fun u x _ here there => ?_
    cases here
    exact unused (inv.fresh u _ there).1
  · exact (forall_update_iff s.threads fun _ thread => thread.Valid cfg s.blocks).mpr
      ⟨⟨valid.1, valid.2, fun zero => absurd rfl zero⟩, fun u _ => inv.threads u⟩

/-! ## Installing a block -/

variable {e : Entry} {blocks : ℕ → Option ℕ}

lemma entryOf_install {a x : ℕ} (free : blocks a = none)
    (here : entryOf cfg blocks idx = some e) : entryOf cfg (update blocks a (some x)) idx = some e := by
  unfold entryOf at here ⊢
  split_ifs at here ⊢
  · exact here
  · by_cases same : slot cfg idx = a
    · rw [same, free] at here
      cases here
    · rw [update_of_ne same]
      exact here

lemma update_ne_none {a b x : ℕ} (taken : blocks b ≠ none) :
    update blocks a (some x) b ≠ none := by
  by_cases same : b = a
  · subst same
    rw [update_self]
    exact some_ne_none x
  · rw [update_of_ne same]
    exact taken

lemma Thread.Valid.install (valid : thread.Valid cfg blocks) (a x : ℕ) :
    thread.Valid cfg (update blocks a (some x)) := by
  cases thread with
  | away => trivial
  | enter idx => trivial
  | allocate idx => exact valid
  | offer idx block i => exact ⟨valid.1, valid.2.1, fun later => update_ne_none (valid.2.2 later)⟩
  | reload idx => exact ⟨valid.1, valid.2.1, update_ne_none valid.2.2⟩

lemma nextSlot_zero (small : slot cfg idx < cfg.numBlocks) : nextSlot cfg idx 0 = slot cfg idx := by
  have bound : slot cfg idx < 2 ^ 32 :=
    lt_of_le_of_lt ((Nat.div_le_self _ _).trans (Nat.sub_le _ _)) idx.toNat_lt
  rw [nextSlot, Nat.add_zero, Nat.mod_eq_of_lt bound, Nat.mod_eq_of_lt small]

variable {block i : ℕ}

lemma own_slot_taken (valid : (Thread.offer idx block i).Valid cfg s.blocks)
    (kept : ∀ b, s.blocks b ≠ none → blocks b ≠ none)
    (taken : blocks (nextSlot cfg idx i) ≠ none) : blocks (slot cfg idx) ≠ none := by
  by_cases first : i = 0
  · subst first
    rwa [nextSlot_zero valid.2.1] at taken
  · exact kept _ (valid.2.2 first)

lemma Inv.install (inv : Inv cfg s) (offering : s.threads t = .offer idx block i)
    (free : s.blocks (nextSlot cfg idx i) = none) :
    Inv cfg ({ s with blocks := update s.blocks (nextSlot cfg idx i) (some block) }.move t (.reload idx)) := by
  generalize place : nextSlot cfg idx i = a at free ⊢
  have mine : (s.threads t).holds = some block := by rw [offering]; rfl
  have new := (inv.fresh t block mine).2
  have known : block ∈ s.allocated := (inv.fresh t block mine).1
  have cases_of : ∀ b x, update s.blocks a (some block) b = some x →
      b = a ∧ x = block ∨ s.blocks b = some x := by
    intro b x here
    by_cases same : b = a
    · subst same
      rw [update_self] at here
      exact .inl ⟨rfl, (Option.some.inj here).symm⟩
    · rw [update_of_ne same] at here
      exact .inr here
  refine ⟨?_, ?_, ?_, ?_, ?_, ?_⟩
  · intro b c x first second
    rcases cases_of b x first with ⟨rfl, rfl⟩ | before <;> rcases cases_of c x second with ⟨rfl, same⟩ | before'
    · rfl
    · exact absurd before' (new c)
    · exact absurd (same ▸ before) (new b)
    · exact inv.distinct b c x before before'
  · intro b x here
    rcases cases_of b x here with ⟨rfl, rfl⟩ | before
    · exact known
    · exact inv.known b x before
  · refine (forall_update_iff s.threads fun _ thread => ∀ x, thread.holds = some x →
      x ∈ s.allocated ∧ ∀ b, update s.blocks a (some block) b ≠ some x).mpr
        ⟨fun x here => (by cases here), fun u other x here => ⟨(inv.fresh u x here).1, fun b there => ?_⟩⟩
    rcases cases_of b x there with ⟨rfl, rfl⟩ | earlier
    · exact other (inv.apart u t x here mine)
    · exact (inv.fresh u x here).2 b earlier
  · exact inv.apart.keep fun x here => by cases here
  · refine (forall_update_iff s.threads
      fun _ thread => thread.Valid cfg (update s.blocks a (some block))).mpr
        ⟨?_, fun u _ => (inv.threads u).install a block⟩
    have valid := inv.threads t
    rw [offering] at valid
    refine ⟨valid.1, valid.2.1, own_slot_taken valid (fun b => update_ne_none) ?_⟩
    rw [place, update_self]
    exact some_ne_none block
  · intro j r listed
    obtain ⟨found, absent⟩ := inv.results j r listed
    refine ⟨?_, absent⟩
    cases r with
    | some e => exact (entryOf_install free found.symm).symm
    | none =>
      obtain ⟨large, beyond⟩ := absent rfl
      simp only [State.move, entryOf, if_neg (not_lt.mpr large), if_pos beyond]

/-! ## Runs -/

lemma Inv.enter (inv : Inv cfg s) (stepped : IdMap.step cfg s (.run t) = some s')
    (entering : s.threads t = .enter idx) : Inv cfg s' := by
  simp only [IdMap.step, entering] at stepped
  split_ifs at stepped with inside beyond
  · cases stepped
    exact inv.return (by rw [entryOf, if_pos inside]) (fun missing => by cases missing)
  · cases stepped
    exact inv.return (by rw [entryOf, if_neg inside, if_pos beyond]) (fun _ => ⟨not_lt.mp inside, beyond⟩)
  · cases present : s.blocks (slot cfg idx) with
    | some block =>
      simp only [present] at stepped
      cases stepped
      refine inv.return ?_ (fun missing => by cases missing)
      rw [entryOf, if_neg inside, if_neg beyond, present]
      rfl
    | none =>
      simp only [present] at stepped
      cases stepped
      exact inv.move ⟨not_lt.mp inside, not_le.mp beyond⟩ fun x here => by cases here

lemma Inv.offer (inv : Inv cfg s) (stepped : IdMap.step cfg s (.run t) = some s')
    (offering : s.threads t = .offer idx block i) : Inv cfg s' := by
  have valid := inv.threads t
  rw [offering] at valid
  simp only [IdMap.step, offering] at stepped
  split_ifs at stepped with more
  · cases present : s.blocks (nextSlot cfg idx i) with
    | none =>
      simp only [present] at stepped
      cases stepped
      exact inv.install offering present
    | some other =>
      simp only [present] at stepped
      cases stepped
      have taken : s.blocks (nextSlot cfg idx i) ≠ none := by rw [present]; exact some_ne_none other
      have own := own_slot_taken valid (fun b => id) taken
      exact inv.move ⟨valid.1, valid.2.1, fun _ => own⟩ fun x here => by rw [offering]; exact here
  · cases stepped
    have later : i ≠ 0 := fun zero => more (by have := valid.2.1; omega)
    exact inv.move ⟨valid.1, valid.2.1, valid.2.2 later⟩ fun x here => by cases here

lemma Inv.reload (inv : Inv cfg s) (stepped : IdMap.step cfg s (.run t) = some s')
    (reloading : s.threads t = .reload idx) : Inv cfg s' := by
  have valid := inv.threads t
  rw [reloading] at valid
  obtain ⟨large, small, taken⟩ := valid
  simp only [IdMap.step, reloading] at stepped
  cases stepped
  refine inv.return ?_ (fun missing => absurd (map_eq_none_iff.mp missing) taken)
  rw [entryOf, if_neg (not_lt.mpr large), if_neg (not_le.mpr small)]

variable {act : Act T}

lemma Inv.step (inv : Inv cfg s) (stepped : IdMap.step cfg s act = some s') : Inv cfg s' := by
  cases act with
  | get t idx =>
    simp only [IdMap.step] at stepped
    split_ifs at stepped
    cases stepped
    exact inv.move trivial fun x here => by cases here
  | alloc t address =>
    cases thread : s.threads t with
    | allocate idx =>
      simp only [IdMap.step, thread] at stepped
      split_ifs at stepped with used
      cases stepped
      exact inv.allocate used thread
    | _ => simp only [IdMap.step, thread, reduceCtorEq] at stepped
  | run t =>
    cases thread : s.threads t with
    | away => simp only [IdMap.step, thread, reduceCtorEq] at stepped
    | enter idx => exact inv.enter stepped thread
    | allocate idx => simp only [IdMap.step, thread, reduceCtorEq] at stepped
    | offer idx block i => exact inv.offer stepped thread
    | reload idx => exact inv.reload stepped thread

lemma inv_of_reachable (reached : Reachable (step cfg) (start T) s) : Inv cfg s :=
  reached.invariant Inv.start fun _ _ _ inv stepped => inv.step stepped

/-! ## Entries -/

lemma Inv.entryOf_injective (inv : Inv cfg s) {idx idx' : UInt32}
    (here : entryOf cfg s.blocks idx = some e) (there : entryOf cfg s.blocks idx' = some e) : idx = idx' := by
  refine UInt32.toNat_inj.mp ?_
  unfold entryOf at here there
  split_ifs at here there with inside inside' _ inside' _
  · have same := Option.some.inj (here.trans there.symm)
    injection same
  · obtain ⟨block, _, found⟩ := map_eq_some_iff.mp there
    cases here
    cases found
  · obtain ⟨block, _, found⟩ := map_eq_some_iff.mp here
    cases there
    cases found
  · obtain ⟨block, present, found⟩ := map_eq_some_iff.mp here
    obtain ⟨block', present', found'⟩ := map_eq_some_iff.mp there
    obtain ⟨rfl, offsets⟩ := Entry.block.inj (found.trans found'.symm)
    have slots : slot cfg idx = slot cfg idx' := inv.distinct _ _ block present present'
    have first := Nat.div_add_mod (idx.toNat - cfg.blockSize) cfg.blockSize
    have second := Nat.div_add_mod (idx'.toNat - cfg.blockSize) cfg.blockSize
    rw [slot, slot] at slots
    rw [offset, offset] at offsets
    rw [slots, offsets] at first
    omega

lemma capacity_iff :
    (cfg.numBlocks + 1) * cfg.blockSize ≤ idx.toNat ↔ cfg.blockSize ≤ idx.toNat ∧ cfg.numBlocks ≤ slot cfg idx := by
  have expand : (cfg.numBlocks + 1) * cfg.blockSize = cfg.numBlocks * cfg.blockSize + cfg.blockSize :=
    Nat.succ_mul _ _
  rw [slot, Nat.le_div_iff_mul_le cfg.positive, expand]
  omega

lemma Inv.stable (inv : Inv cfg s) : Stable cfg s.results where
  same idx r r' first second := (inv.results idx r first).1.trans (inv.results idx r' second).1.symm
  different idx idx' e first second :=
    inv.entryOf_injective (inv.results idx _ first).1.symm (inv.results idx' _ second).1.symm
  present idx r listed := by
    obtain ⟨found, absent⟩ := inv.results idx r listed
    rw [capacity_iff]
    refine ⟨absent, fun ⟨large, beyond⟩ => ?_⟩
    rw [found, entryOf, if_neg (not_lt.mpr large), if_pos beyond]

/-! ## Progress -/

lemma move_thread (s : State T) (t : Fin T) (thread : Thread) : (s.move t thread).threads t = thread := by
  simp only [State.move, update_self]

lemma return_thread (s : State T) (t : Fin T) (idx : UInt32) (result : Option Entry) :
    (s.return t idx result).threads t = .away := by
  simp only [State.return, update_self]

lemma left_lt (calling : s.threads act.thread ≠ .away) (stepped : step cfg s act = some s') :
    (s'.threads act.thread).left cfg < (s.threads act.thread).left cfg := by
  cases act with
  | get t idx =>
    have busy : s.threads t ≠ .away := calling
    rw [step, if_neg busy] at stepped
    cases stepped
  | alloc t address =>
    cases thread : s.threads t with
    | allocate idx =>
      simp only [step, thread] at stepped
      split_ifs at stepped
      cases stepped
      simp only [Act.thread, move_thread, thread, Thread.left]
      omega
    | _ => simp only [step, thread, reduceCtorEq] at stepped
  | run t =>
    cases thread : s.threads t with
    | away => exact absurd thread calling
    | allocate idx => simp only [step, thread, reduceCtorEq] at stepped
    | enter idx =>
      simp only [step, thread] at stepped
      split_ifs at stepped
      · cases stepped
        simp only [Act.thread, return_thread, thread, Thread.left]
        omega
      · cases stepped
        simp only [Act.thread, return_thread, thread, Thread.left]
        omega
      · split at stepped <;> cases stepped <;>
          simp only [Act.thread, return_thread, move_thread, thread, Thread.left] <;> omega
    | offer idx block i =>
      simp only [step, thread] at stepped
      split_ifs at stepped with more
      · split at stepped <;> cases stepped <;>
          simp only [Act.thread, move_thread, thread, Thread.left] <;> omega
      · cases stepped
        simp only [Act.thread, move_thread, thread, Thread.left]
        omega
    | reload idx =>
      simp only [step, thread] at stepped
      cases stepped
      simp only [Act.thread, return_thread, thread, Thread.left]
      omega

lemma step_enabled (calling : s.threads t ≠ .away) : ∃ act s', act.thread = t ∧ step cfg s act = some s' := by
  cases thread : s.threads t with
  | away => exact absurd thread calling
  | enter idx =>
    refine ⟨.run t, ?_⟩
    simp only [step, thread, Act.thread, true_and]
    split_ifs
    · exact ⟨_, rfl⟩
    · exact ⟨_, rfl⟩
    · split <;> exact ⟨_, rfl⟩
  | allocate idx =>
    obtain ⟨address, unused⟩ := Infinite.exists_notMem_finset s.allocated
    refine ⟨.alloc t address, ?_⟩
    simp only [step, thread, if_neg unused, Act.thread, true_and]
    exact ⟨_, rfl⟩
  | offer idx block i =>
    refine ⟨.run t, ?_⟩
    simp only [step, thread, Act.thread, true_and]
    split_ifs
    · split <;> exact ⟨_, rfl⟩
    · exact ⟨_, rfl⟩
  | reload idx =>
    refine ⟨.run t, ?_⟩
    simp only [step, thread, Act.thread, true_and]
    exact ⟨_, rfl⟩

lemma proceeds (calling : s.threads t ≠ .away) : Proceeds cfg s t where
  enabled := step_enabled calling
  closer act s' mine stepped := by
    subst mine
    exact left_lt calling stepped

/-- In every interleaving: calls with the same index agree, calls with different indices do not, there is no entry
only beyond the capacity, an entry that was returned stays where it is, and no call waits for another. -/
theorem get_stable (reached : Reachable (step cfg) (start T) s) : Stable cfg s.results ∧
    (∀ idx e, (idx, some e) ∈ s.results → entryOf cfg s.blocks idx = some e) ∧
    ∀ t, s.threads t ≠ .away → Proceeds cfg s t := by
  have inv := inv_of_reachable reached
  exact ⟨inv.stable, fun idx _ returned => (inv.results idx _ returned).1.symm, fun _ => proceeds⟩

end

/-! ## A race -/

/-- Two slots of two entries. -/
def twoByTwo : Config := ⟨2, 2, by decide⟩

/-- Both threads ask for entries of the first slot and allocate; the spare block goes to the second slot. -/
def race (t u : Fin 2) : List (Act 2) :=
  [.get t 2, .get u 3, .run t, .run u, .alloc t 7, .alloc u 8, .run t, .run u, .run u, .run t, .run u, .get t 5,
    .run t, .get u 6, .run u]

theorem race_stable : ∃ s : State 2, run twoByTwo (race 0 1) = some s ∧
    s.results = [(6, none), (5, some (.block 8 1)), (3, some (.block 7 1)), (2, some (.block 7 0))] ∧
    Stable twoByTwo s.results := by
  have ran : (run twoByTwo (race 0 1)).map State.results =
      some [(6, none), (5, some (.block 8 1)), (3, some (.block 7 1)), (2, some (.block 7 0))] := by
    decide
  obtain ⟨s, final, results⟩ := map_eq_some_iff.mp ran
  exact ⟨s, final, results, (get_stable (Reachable.start.run final)).1⟩

end

end HpcToolkit.Collections.IdMap
