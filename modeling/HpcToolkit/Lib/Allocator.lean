import Mathlib.Data.List.Pairwise
import HpcToolkit.Lib.Memory

/-! # A system allocator that promises no more than it must

The allocator answers a request with a pointer, or with 0 when it fails. What it promises is that the block it hands out
touches no block that is live and that it leaves the bytes of live blocks alone; every other byte of the memory may
change in every call, so what a program reads from a block that it gave back is whatever the answer says. Releasing or
resizing anything but the base of a live block, or storing outside of the live blocks, has no meaning.

`Arena.Frame base` relates two arenas when the blocks with another base than `base` are still live and unchanged. Every
operation on one block is framed by its base, and frames compose.
-/

open List

namespace HpcToolkit.Lib

structure Allocation where
  base : ℕ
  size : ℕ

namespace Allocation

/-- Even an empty block has an address of its own. -/
def extent (r : Allocation) : ℕ := max r.size 1

def Apart (r q : Allocation) : Prop := r.base + r.extent ≤ q.base ∨ q.base + q.extent ≤ r.base

instance (r q : Allocation) : Decidable (r.Apart q) := inferInstanceAs (Decidable (_ ∨ _))

/-- The `n` bytes from `a` on are bytes of the block. -/
def Holds (r : Allocation) (a n : ℕ) : Prop := r.base ≤ a ∧ a + n ≤ r.base + r.size

instance (r : Allocation) (a n : ℕ) : Decidable (r.Holds a n) := inferInstanceAs (Decidable (_ ∧ _))

instance : Std.Symm Apart := ⟨fun _ _ => Or.symm⟩

lemma Apart.base_ne {r q : Allocation} (apart : r.Apart q) : r.base ≠ q.base := by
  simp only [Apart, extent] at apart
  omega

lemma Apart.bytes {r q : Allocation} (apart : r.Apart q) :
    r.base + r.size ≤ q.base ∨ q.base + q.size ≤ r.base := by
  simp only [Apart, extent] at apart
  omega

end Allocation

/-- The live blocks and the memory. -/
structure Arena where
  live : List Allocation
  mem : Mem

/-- What the allocator answers: a pointer, and the memory as it leaves it. -/
structure Reply where
  ptr : ℕ
  mem : Mem

namespace Arena

/-- The live blocks with another base. -/
def others (h : Arena) (p : ℕ) : List Allocation := h.live.filter fun r => r.base ≠ p

/-- The bytes of the blocks stay, the others become what the allocator makes of them. -/
def settle (blocks : List Allocation) (m after : Mem) : Mem :=
  fun x => if ∃ r ∈ blocks, r.Holds x 1 then m x else after x

def malloc (h : Arena) (n : ℕ) (r : Reply) : ℕ × Arena :=
  if r.ptr = 0 then (0, { h with mem := settle h.live h.mem r.mem })
  else (r.ptr, ⟨⟨r.ptr, n⟩ :: h.live, settle h.live h.mem r.mem⟩)

def free (h : Arena) (p : ℕ) (r : Reply) : Option Arena :=
  if ∃ q ∈ h.live, q.base = p then some ⟨h.others p, settle (h.others p) h.mem r.mem⟩ else none

/-- The block that takes the place of another one begins with its bytes; a failed request changes nothing. -/
def realloc (h : Arena) (p n : ℕ) (r : Reply) : Option (ℕ × Arena) :=
  (h.live.find? fun q => q.base = p).map fun old =>
    if r.ptr = 0 then (0, { h with mem := settle h.live h.mem r.mem })
    else (r.ptr, ⟨⟨r.ptr, n⟩ :: h.others p,
      settle (h.others p) h.mem (r.mem.put r.ptr (h.mem.bytes p (min old.size n)))⟩)

/-- Store into a live block. -/
def write (h : Arena) (a : ℕ) (data : List UInt8) : Option Arena :=
  if ∃ r ∈ h.live, r.Holds a data.length then some { h with mem := h.mem.put a data } else none

/-- A pointer that may be handed out for `n` bytes while `blocks` are live. -/
def Fits (blocks : List Allocation) (p n : ℕ) : Prop :=
  p ≠ 0 → (∀ r ∈ blocks, (⟨p, n⟩ : Allocation).Apart r) ∧ p + n < 2 ^ 64

instance (blocks : List Allocation) (p n : ℕ) : Decidable (Fits blocks p n) := inferInstanceAs (Decidable (_ → _))

/-- Live blocks are apart from each other. -/
structure Sound (h : Arena) : Prop where
  apart : h.live.Pairwise Allocation.Apart
  positive : ∀ r ∈ h.live, r.base ≠ 0
  bounded : ∀ r ∈ h.live, r.base + r.size < 2 ^ 64

/-- The blocks but those at `p` are live and unchanged. -/
def Frame (p : ℕ) (h h' : Arena) : Prop :=
  ∀ r ∈ h.live, r.base ≠ p → r ∈ h'.live ∧ h.mem.AgreeOn h'.mem r.base r.size

variable {h h' h'' : Arena} {p a n : ℕ} {r : Reply} {q q' : Allocation} {data : List UInt8} {blocks : List Allocation}
  {m after : Mem}

lemma agreeOn_settle (after : Mem) (member : q ∈ blocks) : m.AgreeOn (settle blocks m after) q.base q.size :=
  fun _ low high => if_pos ⟨q, member, low, by omega⟩

lemma settle_outside {x : ℕ} (outside : ∀ q ∈ blocks, ¬ q.Holds x 1) : settle blocks m after x = after x :=
  if_neg fun ⟨q, member, holds⟩ => outside q member holds

lemma mem_others : q ∈ h.others p ↔ q ∈ h.live ∧ q.base ≠ p := by
  simp [others]

lemma outside_of_apart {x : ℕ} (apart : ∀ r ∈ blocks, q.Apart r) (holds : q.Holds x 1) :
    ∀ r ∈ blocks, ¬ r.Holds x 1 := by
  rintro r member ⟨low, high⟩
  obtain ⟨low', high'⟩ := holds
  have := (apart r member).bytes
  omega

lemma Sound.apart_of_ne (sound : h.Sound) (member : q ∈ h.live) (member' : q' ∈ h.live) (differ : q ≠ q') :
    q.Apart q' :=
  sound.apart.forall member member' differ

lemma Sound.eq_of_base (sound : h.Sound) (member : q ∈ h.live) (member' : q' ∈ h.live) (same : q.base = q'.base) :
    q = q' := by
  rcases eq_or_ne q q' with equal | differ
  · exact equal
  · exact absurd same (sound.apart_of_ne member member' differ).base_ne

lemma Sound.find? (sound : h.Sound) (member : q ∈ h.live) : h.live.find? (fun r => r.base = q.base) = some q := by
  cases found : h.live.find? (fun r => r.base = q.base) with
  | none =>
    rw [find?_eq_none] at found
    exact absurd (decide_eq_true rfl) (found q member)
  | some r =>
    have same : r.base = q.base := by simpa using find?_some found
    rw [sound.eq_of_base (mem_of_find?_eq_some found) member same]

/-! ## A new block -/

lemma sound_malloc (sound : h.Sound) (fits : Fits h.live r.ptr n) : (h.malloc n r).2.Sound := by
  rw [malloc]
  split
  · exact ⟨sound.apart, sound.positive, sound.bounded⟩
  · next success =>
    obtain ⟨apart, bound⟩ := fits success
    exact ⟨.cons apart sound.apart, forall_mem_cons.mpr ⟨success, sound.positive⟩,
      forall_mem_cons.mpr ⟨bound, sound.bounded⟩⟩

lemma frame_malloc : Frame p h (h.malloc n r).2 := by
  intro q live _
  rw [malloc]
  split
  · exact ⟨live, agreeOn_settle _ live⟩
  · exact ⟨mem_cons_of_mem _ live, agreeOn_settle _ live⟩

/-! ## A block that is given back -/

lemma free_eq (member : q ∈ h.live) :
    h.free q.base r = some ⟨h.others q.base, settle (h.others q.base) h.mem r.mem⟩ :=
  if_pos ⟨q, member, rfl⟩

lemma sound_others (sound : h.Sound) (m : Mem) : Sound ⟨h.others p, m⟩ :=
  ⟨sound.apart.filter _, fun q member => sound.positive q (mem_others.mp member).1,
    fun q member => sound.bounded q (mem_others.mp member).1⟩

lemma frame_others : Frame p h ⟨h.others p, settle (h.others p) h.mem after⟩ := by
  intro q live other
  have member := mem_others.mpr ⟨live, other⟩
  exact ⟨member, agreeOn_settle _ member⟩

/-! ## A block that is resized -/

lemma realloc_failed (sound : h.Sound) (member : q ∈ h.live) (failed : r.ptr = 0) :
    h.realloc q.base n r = some (0, { h with mem := settle h.live h.mem r.mem }) := by
  rw [realloc, sound.find? member, Option.map_some, if_pos failed]

lemma realloc_eq (sound : h.Sound) (member : q ∈ h.live) (success : r.ptr ≠ 0) :
    h.realloc q.base n r = some (r.ptr, ⟨⟨r.ptr, n⟩ :: h.others q.base,
      settle (h.others q.base) h.mem (r.mem.put r.ptr (h.mem.bytes q.base (min q.size n)))⟩) := by
  rw [realloc, sound.find? member, Option.map_some, if_neg success]

lemma sound_realloc (sound : h.Sound) (fits : Fits (h.others p) r.ptr n) (success : r.ptr ≠ 0) (m : Mem) :
    Sound ⟨⟨r.ptr, n⟩ :: h.others p, m⟩ := by
  obtain ⟨apart, bound⟩ := fits success
  obtain ⟨apart', positive, bounded⟩ := sound_others (p := p) sound m
  exact ⟨.cons apart apart', forall_mem_cons.mpr ⟨success, positive⟩,
    forall_mem_cons.mpr ⟨bound, bounded⟩⟩

lemma frame_realloc : Frame p h ⟨q :: h.others p, settle (h.others p) h.mem after⟩ := by
  intro q live other
  have member := mem_others.mpr ⟨live, other⟩
  exact ⟨mem_cons_of_mem _ member, agreeOn_settle _ member⟩

lemma frame_settle : Frame p h { h with mem := settle h.live h.mem after } :=
  fun _ live _ => ⟨live, agreeOn_settle _ live⟩

lemma realloc_bytes {k i : ℕ} (fits : Fits (h.others p) r.ptr n) (success : r.ptr ≠ 0) (within : i < min k n) :
    settle (h.others p) h.mem (r.mem.put r.ptr (h.mem.bytes p (min k n))) (r.ptr + i) = h.mem (p + i) := by
  obtain ⟨apart, -⟩ := fits success
  have inside : (⟨r.ptr, n⟩ : Allocation).Holds (r.ptr + i) 1 :=
    ⟨Nat.le_add_right .., show r.ptr + i + 1 ≤ r.ptr + n by omega⟩
  rw [settle_outside (outside_of_apart apart inside), Mem.put_bytes_at within]

/-! ## Stores -/

lemma write_eq (member : q ∈ h.live) (holds : q.Holds a data.length) :
    h.write a data = some { h with mem := h.mem.put a data } :=
  if_pos ⟨q, member, holds⟩

lemma sound_write (sound : h.Sound) : Sound { h with mem := m } :=
  ⟨sound.apart, sound.positive, sound.bounded⟩

lemma frame_write (sound : h.Sound) (member : q ∈ h.live) (holds : q.Holds a data.length) :
    Frame q.base h { h with mem := h.mem.put a data } := by
  intro r live other
  refine ⟨live, Mem.agreeOn_put ?_⟩
  have := (sound.apart_of_ne live member (ne_of_apply_ne Allocation.base other)).bytes
  obtain ⟨low, high⟩ := holds
  omega

end Arena

end HpcToolkit.Lib
