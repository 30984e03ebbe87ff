import Mathlib.Data.List.GetD
import HpcToolkit.Lib.ByteFile

/-! # Flat memories and the ranges in them

A memory gives every address a byte. Storing a list of bytes changes the range it covers and nothing else, a move
stores the bytes that were read before it, and what a range holds depends on the bytes of that range only.
-/

open List

namespace HpcToolkit.Lib

abbrev Mem := ℕ → UInt8

namespace Mem

variable {m m' : Mem} {a b n i x : ℕ} {data : List UInt8}

/-- The `n` bytes from `a` on. -/
def bytes (m : Mem) (a n : ℕ) : List UInt8 := (range n).map fun i => m (a + i)

/-- Store the bytes from `a` on. -/
def put (m : Mem) (a : ℕ) (data : List UInt8) : Mem :=
  fun x => if a ≤ x ∧ x < a + data.length then data.getD (x - a) 0 else m x

/-- The unsigned number of `width` bytes at `a`, least significant byte first. -/
def word (m : Mem) (width a : ℕ) : ℕ := ofLE (m.bytes a width)

@[simp] lemma length_bytes : (m.bytes a n).length = n := by
  rw [bytes, length_map, length_range]

lemma put_apart (apart : x < a ∨ a + data.length ≤ x) : m.put a data x = m x := by
  rw [put, if_neg (by omega)]

lemma put_at (within : i < data.length) : m.put a data (a + i) = data.getD i 0 := by
  rw [put, if_pos (by omega), Nat.add_sub_cancel_left]

lemma put_singleton (byte : UInt8) : m.put a [byte] a = byte := by
  simp [put]

lemma put_cons (byte : UInt8) : m.put a (byte :: data) = (m.put a [byte]).put (a + 1) data := by
  funext x
  rcases lt_trichotomy x a with below | rfl | above
  · rw [put_apart (.inl below), put_apart (.inl (by omega)), put_apart (.inl below)]
  · rw [put_apart (a := x + 1) (.inl (by omega)), put_singleton]
    simp [put]
  · obtain ⟨i, rfl⟩ : ∃ i, x = a + 1 + i := ⟨x - (a + 1), by omega⟩
    have shifted : a + 1 + i = a + (i + 1) := by omega
    rcases lt_or_ge i data.length with within | beyond
    · rw [put_at within, shifted, put_at (by simpa using within), getD_cons_succ]
    · rw [put_apart (.inr (by simp; omega)), put_apart (.inr (by omega)), put_apart (.inr (by simp))]

@[simp] lemma put_nil : m.put a [] = m := by
  funext x
  exact put_apart (by simp; omega)

lemma put_append (data more : List UInt8) : (m.put a data).put (a + data.length) more = m.put a (data ++ more) := by
  induction data generalizing m a with
  | nil => simp
  | cons byte data ih =>
    have whole : m.put a (byte :: (data ++ more)) = (m.put a [byte]).put (a + 1) (data ++ more) := put_cons byte
    rw [put_cons, cons_append, whole, ← ih, length_cons, Nat.add_assoc, Nat.add_comm 1]

lemma getD_bytes (within : i < n) : (m.bytes a n).getD i 0 = m (a + i) := by
  rw [getD_eq_getElem _ _ (by rwa [length_bytes])]
  simp [bytes]

lemma put_bytes_at (within : i < n) : m.put a (m'.bytes b n) (a + i) = m' (b + i) := by
  rw [put_at (by rwa [length_bytes]), getD_bytes within]

lemma bytes_put_append (before part after : List UInt8) :
    (m.put a (before ++ part ++ after)).bytes (a + before.length) part.length = part := by
  refine ext_getElem (by rw [length_bytes]) ?_
  intro i within _
  rw [length_bytes] at within
  have bound : before.length + i < (before ++ part ++ after).length := by
    simp only [length_append]
    omega
  rw [← getD_eq_getElem _ 0, getD_bytes within, Nat.add_assoc, put_at bound, getD_eq_getElem _ _ bound]
  simp [within]

/-! ## Ranges that hold the same bytes -/

/-- The two memories agree on the `n` bytes from `a` on. -/
def AgreeOn (m m' : Mem) (a n : ℕ) : Prop := ∀ x, a ≤ x → x < a + n → m' x = m x

lemma AgreeOn.refl (m : Mem) (a n : ℕ) : AgreeOn m m a n := fun _ _ _ => rfl

lemma AgreeOn.trans {m'' : Mem} (first : AgreeOn m m' a n) (second : AgreeOn m' m'' a n) : AgreeOn m m'' a n :=
  fun x low high => (second x low high).trans (first x low high)

lemma AgreeOn.mono {k : ℕ} (agree : AgreeOn m m' a n) (low : a ≤ b) (high : b + k ≤ a + n) : AgreeOn m m' b k :=
  fun x above below => agree x (low.trans above) (below.trans_le high)

lemma AgreeOn.bytes (agree : AgreeOn m m' a n) : m'.bytes a n = m.bytes a n :=
  map_congr_left fun i within => agree _ (Nat.le_add_right ..) (by simpa using within)

lemma AgreeOn.word (agree : AgreeOn m m' a n) : m'.word n a = m.word n a := by
  rw [Mem.word, agree.bytes, Mem.word]

lemma agreeOn_put (apart : a + data.length ≤ b ∨ b + n ≤ a) : AgreeOn m (m.put a data) b n :=
  fun _ above below => put_apart (by omega)

lemma word_put_append {width : ℕ} (before after : List UInt8) (bound : n < 256 ^ width) :
    (m.put a (before ++ toLE width n ++ after)).word width (a + before.length) = n := by
  have read := bytes_put_append (m := m) (a := a) before (toLE width n) after
  rw [length_toLE] at read
  rw [word, read, ofLE_toLE_of_lt bound]

end Mem

end HpcToolkit.Lib

/-! # Records that are stored field by field

A record is written by storing runs of bytes at offsets from its start. A byte that no store touches keeps what the
memory held before, so a record is a function of what is stored exactly if the stores touch each of its bytes. Where
stores are apart each of them can be read back.
-/

namespace HpcToolkit.Lib

/-- Bytes and the offset at which they are stored. -/
structure Store where
  off : ℕ
  data : List UInt8

namespace Store

def Touches (s : Store) (i : ℕ) : Prop := s.off ≤ i ∧ i < s.off + s.data.length

instance (s : Store) (i : ℕ) : Decidable (s.Touches i) := inferInstanceAs (Decidable (_ ∧ _))

def Apart (s t : Store) : Prop := s.off + s.data.length ≤ t.off ∨ t.off + t.data.length ≤ s.off

instance (s t : Store) : Decidable (s.Apart t) := inferInstanceAs (Decidable (_ ∨ _))

end Store

namespace Mem

variable {m m' : Mem} {l : List Store} {s : Store} {i : ℕ}

/-- One store after another. -/
def stores (m : Mem) (l : List Store) : Mem := l.foldl (fun m s => m.put s.off s.data) m

lemma stores_concat : m.stores (l ++ [s]) = (m.stores l).put s.off s.data := by
  rw [stores, foldl_append]
  rfl

lemma stores_untouched (untouched : ∀ s ∈ l, ¬ s.Touches i) : m.stores l i = m i := by
  induction l using reverseRecOn with
  | nil => rfl
  | append_singleton l s ih =>
    have apart := untouched s (by simp)
    rw [Store.Touches] at apart
    rw [stores_concat, put_apart (by omega)]
    exact ih fun t member => untouched t (by simp [member])

lemma agreeOn_stores {a n : ℕ} (apart : ∀ s ∈ l, s.off + s.data.length ≤ a ∨ a + n ≤ s.off) :
    AgreeOn m (m.stores l) a n := by
  intro x above below
  refine stores_untouched fun s member touches => ?_
  have aside := apart s member
  rw [Store.Touches] at touches
  omega

lemma stores_touched (touched : ∃ s ∈ l, s.Touches i) : m.stores l i = m'.stores l i := by
  induction l using reverseRecOn with
  | nil => simp at touched
  | append_singleton l s ih =>
    rw [stores_concat, stores_concat]
    rcases em (s.Touches i) with ⟨low, high⟩ | missed
    · rw [put, put, if_pos ⟨low, high⟩, if_pos ⟨low, high⟩]
    · have earlier : ∃ s ∈ l, s.Touches i := by
        obtain ⟨t, member, touches⟩ := touched
        rcases mem_append.mp member with here | last
        · exact ⟨t, here, touches⟩
        · exact absurd (mem_singleton.mp last ▸ touches) missed
      rw [Store.Touches] at missed
      rw [put_apart (by omega), put_apart (by omega)]
      exact ih earlier

lemma stores_independent_iff {size : ℕ} :
    (∀ m m' : Mem, (m.stores l).bytes 0 size = (m'.stores l).bytes 0 size) ↔ ∀ i < size, ∃ s ∈ l, s.Touches i := by
  constructor
  · intro same i within
    by_contra missed
    push Not at missed
    have bytes := congrArg (fun data => data.getD i 0) (same (fun _ => 0) fun _ => 1)
    simp only [getD_bytes within, Nat.zero_add, stores_untouched missed] at bytes
    exact absurd bytes (by decide)
  · intro touched m m'
    refine map_congr_left fun i member => ?_
    rw [Nat.zero_add]
    exact stores_touched (touched i (mem_range.mp member))

/-- How far stores behind one another reach that begin at `n`. -/
def filled : ℕ → List Store → ℕ
  | n, [] => n
  | n, s :: l => if s.off = n then filled (s.off + s.data.length) l else filled n l

lemma touched_of_lt_filled {n : ℕ} (above : n ≤ i) (below : i < filled n l) : ∃ s ∈ l, s.Touches i := by
  induction l generalizing n with
  | nil => exact absurd below above.not_gt
  | cons s l ih =>
    rw [filled] at below
    split at below
    · next here =>
      rcases Nat.lt_or_ge i (s.off + s.data.length) with inside | beyond
      · exact ⟨s, mem_cons_self, here.trans_le above, inside⟩
      · obtain ⟨t, member, touches⟩ := ih beyond below
        exact ⟨t, mem_cons_of_mem s member, touches⟩
    · obtain ⟨t, member, touches⟩ := ih above below
      exact ⟨t, mem_cons_of_mem s member, touches⟩

section
variable (apart : l.Pairwise Store.Apart) (member : s ∈ l)
include apart member

lemma stores_at {k : ℕ} (within : k < s.data.length) : m.stores l (s.off + k) = s.data.getD k 0 := by
  induction l using reverseRecOn with
  | nil => simp at member
  | append_singleton l t ih =>
    obtain ⟨apartL, -, others⟩ := pairwise_append.mp apart
    rw [stores_concat]
    rcases mem_append.mp member with here | last
    · have aside := others s here t (by simp)
      rw [Store.Apart] at aside
      rw [put_apart (by omega)]
      exact ih apartL here
    · obtain rfl := mem_singleton.mp last
      exact put_at within

lemma bytes_stores : (m.stores l).bytes s.off s.data.length = s.data := by
  refine ext_getElem length_bytes fun k _ within => ?_
  rw [← getD_eq_getElem _ 0, getD_bytes within, stores_at apart member within, getD_eq_getElem]

end

lemma word_stores {width off n : ℕ} (apart : l.Pairwise Store.Apart) (member : ⟨off, toLE width n⟩ ∈ l)
    (bound : n < 256 ^ width) : (m.stores l).word width off = n := by
  have bytes := bytes_stores (m := m) apart member
  simp only [length_toLE] at bytes
  rw [word, bytes, ofLE_toLE_of_lt bound]

end Mem

end HpcToolkit.Lib
