import HpcToolkit.Memleak.Invariant

/-! # Leak tracking along a run

Every call and every store keeps the invariant when the application and the system allocator do their part and the call
meets its condition. In a run of such steps no call hands a wrong pointer to the system, and in every state on the way
the blocks hold what the application expects.
-/

open Function List

namespace HpcToolkit.Memleak

open Lib

variable {cfg : Config} {s : State} {b : Block}

def StateInv (cfg : Config) (s : State) : Prop := Inv cfg s.tracker s.blocks

variable {bytes : ℕ}

lemma inv_take {contents : Mem → ℕ → ℕ → UInt8} {result : ℕ × Loc × Tracker}
    (allocated : Allocated cfg s.blocks bytes result)
    (expected : result.1 ≠ 0 → ∀ i < bytes,
      result.2.2.heap.mem (result.1 + i) = contents result.2.2.heap.mem result.1 i) :
    StateInv cfg (State.take s.blocks bytes contents result) := by
  obtain ⟨appl, loc, t⟩ := result
  obtain ⟨failed, grown⟩ := allocated
  rw [StateInv, State.take]
  split
  · next null => exact failed null
  · next some => exact grown some _ (expected some)

section
variable (inv : StateInv cfg s)
include inv

lemma block?_of_mem (member : b ∈ s.blocks) : s.block? b.ptr = some b := by
  rw [State.block?]
  cases found : s.blocks.find? (fun c => c.ptr = b.ptr) with
  | none =>
    rw [find?_eq_none] at found
    exact absurd (decide_eq_true rfl) (found b member)
  | some c =>
    have same : c.ptr = b.ptr := by simpa using find?_some found
    rw [Inv.eq_of_ptr inv member (mem_of_find?_eq_some found) same]

variable {env : Env}

lemma step_malloc {bytes align : ℕ} (bound : bytes < 2 ^ 64)
    (fits : Arena.Fits s.tracker.heap.live env.reply.ptr (systemSize env.active bytes))
    (meets : MeetsAlloc cfg s.blocks bytes align env) :
    ∃ s', (memleakMallocHelper cfg s.tracker bytes align false env).map
      (State.take s.blocks bytes fun m p i => m (p + i)) = some s' ∧ StateInv cfg s' := by
  rw [← Nat.mod_eq_of_lt bound] at fits
  obtain ⟨result, ran, allocated, -⟩ := Inv.mallocHelper false inv fits meets
  rw [Nat.mod_eq_of_lt bound] at ran
  exact ⟨_, by rw [ran, Option.map_some], inv_take allocated fun _ _ _ => rfl⟩

lemma step_calloc {nmemb bytes : ℕ}
    (fits : Arena.Fits s.tracker.heap.live env.reply.ptr (systemSize env.active (nmemb * bytes % 2 ^ 64)))
    (meets : MeetsAlloc cfg s.blocks (nmemb * bytes) 0 env) :
    ∃ s', step cfg s (.calloc nmemb bytes env) = some s' ∧ StateInv cfg s' := by
  obtain ⟨result, ran, allocated, zero⟩ := Inv.mallocHelper true inv fits meets
  exact ⟨_, by rw [step, ran, Option.map_some], inv_take allocated (zero rfl)⟩

lemma step_free {reply : Reply} (member : b ∈ s.blocks) (meets : MeetsRelease cfg s.tracker.heap.mem b) :
    ∃ s', step cfg s (.free b.ptr reply) = some s' ∧ StateInv cfg s' := by
  obtain ⟨info, tree, h, r, found, helper, -, released⟩ := Inv.release inv member meets
  obtain ⟨h', freed, rest⟩ := released.free reply
  refine ⟨⟨⟨h', tree⟩, besides s.blocks b.ptr⟩, ?_, rest⟩
  simp only [step, hpcrunFree, if_neg (Inv.ptr_ne_zero inv member), found, helper, Option.bind_eq_bind,
    Option.bind_some, freed, Option.map_some]

lemma step_realloc (member : b ∈ s.blocks) (bound : bytes < 2 ^ 64)
    (fits : bytes ≠ 0 → Arena.Fits (s.tracker.heap.others b.sys) env.reply.ptr (systemSize env.active bytes))
    (release : MeetsRelease cfg s.tracker.heap.mem b)
    (meets : bytes ≠ 0 → MeetsAlloc cfg (besides s.blocks b.ptr) bytes 0 env ∧ MeetsResize cfg b bytes env) :
    ∃ s', step cfg s (.realloc b.ptr bytes env) = some s' ∧ StateInv cfg s' := by
  obtain ⟨info, tree, h, r, found, helper, same, released⟩ := Inv.release inv member release
  have positive := Inv.ptr_ne_zero inv member
  simp only [step, hpcrunRealloc, if_neg positive, found, helper, Option.bind_eq_bind, Option.bind_some,
    block?_of_mem inv member]
  rcases eq_or_ne bytes 0 with rfl | nonzero
  · obtain ⟨h', freed, rest⟩ := released.free env.reply
    refine ⟨⟨⟨h', tree⟩, besides s.blocks b.ptr⟩, ?_, rest⟩
    simp only [freed, Option.bind_some, if_true]
  · obtain ⟨alloc, meets⟩ := meets nonzero
    obtain ⟨⟨appl, loc, t⟩, ran, failed, grown⟩ := released.resize same bound (fits nonzero) alloc meets
    simp only [if_neg nonzero, ran, Option.bind_some]
    split
    · next null => exact ⟨_, rfl, failed null⟩
    · next success =>
      refine ⟨_, rfl, ?_⟩
      rw [StateInv, State.take, if_neg success]
      exact grown success

lemma step_store {offset : ℕ} {byte : UInt8} (member : b ∈ s.blocks) (within : offset < b.size) :
    ∃ s', step cfg s (.store b.ptr offset byte) = some s' ∧ StateInv cfg s' := by
  obtain ⟨r, live, layout, expected⟩ := Inv.held inv b member
  obtain ⟨low, high⟩ := layout.holds
  have holds : r.Holds (b.ptr + offset) [byte].length := ⟨by omega, by simp only [length_singleton]; omega⟩
  have sound : s.tracker.heap.Sound := Inv.sound inv
  have elsewhere := layout.1 ▸ Inv.sys_ne inv member
  have apart : ∀ c ∈ besides s.blocks b.ptr, c.ptr ≠ b.ptr := fun c other => (mem_besides.mp other).2
  obtain ⟨tree, -, ordered, list⟩ := splayDelete_eq inv.footers.ordered b.ptr
  have rest := (Inv.without inv (inv.footers.without ordered list)).framed
    (Arena.frame_write sound live holds) (Arena.sound_write sound) elsewhere
  have footers : Footers s.tracker.tree (b :: besides s.blocks b.ptr) :=
    ⟨inv.footers.ordered, inv.footers.nodes.trans (((Inv.perm_besides inv member).filter _).map _)⟩
  have before : s.tracker.heap.mem.AgreeOn (s.tracker.heap.mem.put (b.ptr + offset) [byte]) r.base (b.ptr - r.base) :=
    Mem.agreeOn_put (.inr (by omega))
  have behind : s.tracker.heap.mem.AgreeOn (s.tracker.heap.mem.put (b.ptr + offset) [byte]) (b.ptr + b.size)
      (r.base + r.size - (b.ptr + b.size)) :=
    Mem.agreeOn_put (.inl (by rw [length_singleton]; omega))
  refine ⟨⟨⟨{ s.tracker.heap with mem := s.tracker.heap.mem.put (b.ptr + offset) [byte] }, s.tracker.tree⟩,
    { b with contents := update b.contents offset byte } :: besides s.blocks b.ptr⟩, ?_, ?_⟩
  · rw [step, block?_of_mem inv member]
    exact congrArg (fun o => Option.bind o _) (Arena.write_eq live holds)
  · refine rest.add live (layout.congr before behind) ?_ apart (layout.1 ▸ elsewhere) (footers.store _)
    intro i inside
    change s.tracker.heap.mem.put (b.ptr + offset) [byte] (b.ptr + i) = update b.contents offset byte i
    rcases eq_or_ne i offset with rfl | differ
    · rw [update_self]
      exact Mem.put_singleton byte
    · rw [update_of_ne differ]
      refine (Mem.put_apart ?_).trans (expected i inside)
      rw [length_singleton]
      omega

lemma step_inv {act : Act} (allowed : Allowed s act) (meets : Meets cfg s act) :
    ∃ s', step cfg s act = some s' ∧ StateInv cfg s' := by
  cases act with
  | malloc bytes env => exact step_malloc inv allowed.1 allowed.2 meets
  | calloc nmemb bytes env => exact step_calloc inv allowed meets
  | memalign boundary bytes env => exact step_malloc inv allowed.1 allowed.2 meets
  | realloc ptr bytes env =>
    obtain ⟨bound, allowed⟩ := allowed
    simp only [Meets] at meets
    split at allowed
    · next null =>
      rw [if_pos null] at meets
      rw [step, if_pos null, hpcrunRealloc, if_pos null]
      exact step_malloc inv bound allowed meets
    · next own =>
      obtain ⟨b, member, rfl, fits⟩ := allowed
      rw [if_neg own] at meets
      obtain ⟨release, meets⟩ := meets b member rfl
      exact step_realloc inv member bound fits release meets
  | free ptr reply =>
    rcases allowed with rfl | ⟨b, member, rfl⟩
    · have same : besides s.blocks 0 = s.blocks :=
        filter_eq_self.mpr fun b member => decide_eq_true (Inv.ptr_ne_zero inv member)
      exact ⟨⟨s.tracker, besides s.blocks 0⟩, rfl, by rwa [StateInv, same]⟩
    · exact step_free inv member (meets b member rfl)
  | store ptr offset byte =>
    obtain ⟨b, member, rfl, within⟩ := allowed
    exact step_store inv member within

end

/-- Leak tracking is transparent in every run whose calls meet their conditions. -/
theorem run_transparent (cfg : Config) (mem : Mem) (acts : List Act)
    (met : EveryStep (step cfg) (fun s act => Allowed s act ∧ Meets cfg s act) (initial mem) acts) :
    EveryState (step cfg) Transparent (initial mem) acts :=
  everyState_of_everyStep (fun _ => Inv.transparent) (fun _ _ inv met => step_inv inv met.1 met.2)
    (inv_initial mem) met

/-! ## Two runs -/

/-- A page of 4096 bytes, with headers. -/
def pages : Config := ⟨4096, false⟩

def zeros : Mem := fun _ => 0

/-- A tracked call, for which the system returns `ptr`. -/
def tracked (ptr : ℕ) : Env := ⟨true, 1, ptr, zeros⟩

/-- A call that is not tracked, for which the system returns `ptr`. -/
def untracked (ptr : ℕ) : Env := ⟨false, 0, ptr, zeros⟩

/-- A block with a header moves to one with a footer, is resized without leakinfo and fails to be resized once more. -/
def goodRun : List Act :=
  [.malloc 16 (tracked 4096), .store 4144 3 7, .realloc 4144 64 (tracked 8160), .calloc 4 2 (tracked 12288),
    .realloc 8160 8 (untracked 16384), .realloc 16384 80 (untracked 0), .free 12336 ⟨0, zeros⟩, .free 16384 ⟨0, zeros⟩]

/-- A block without leakinfo is resized with a header and moves. -/
def badRun : List Act :=
  [.malloc 16 (untracked 4096), .store 4096 0 7, .realloc 4096 32 (tracked 8192)]

theorem goodRun_transparent : EveryState (step pages) Transparent (initial zeros) goodRun :=
  run_transparent pages zeros goodRun (by decide)

/-- The application's byte is copied from the block that the system's `realloc` has given back. -/
theorem moved_block_loses_contents : EveryStep (step pages) Allowed (initial zeros) badRun ∧
    ¬ EveryState (step pages) Transparent (initial zeros) badRun := by
  refine ⟨by decide, ?_⟩
  intro transparent
  have lost : (badRun.foldlM (step pages) (initial zeros)).map
      (fun s => decide (∃ b ∈ s.blocks, 0 < b.size ∧ s.tracker.heap.mem (b.ptr + 0) ≠ b.contents 0)) = some true := by
    decide
  obtain ⟨s, ran, differ⟩ := Option.map_eq_some_iff.mp lost
  obtain ⟨b, member, nonempty, differ⟩ := of_decide_eq_true differ
  exact differ ((transparent.last ran).contents b member 0 nonempty)

end HpcToolkit.Memleak
