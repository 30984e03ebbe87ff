import HpcToolkit.Lib.Memory

/-! # Fields of database records

The databases are little-endian. A writer stores the fields of a record one by one and fills gaps with zeros; a reader
loads each of them from its offset. Floating-point values are given by their bits.
-/

namespace HpcToolkit.Formats

open Lib

/-! ## Single fields -/

def u8Write (off : ℕ) (v : UInt8) : Store := ⟨off, [v]⟩
def u16Write (off : ℕ) (v : UInt16) : Store := ⟨off, toLE 2 v.toNat⟩
def u32Write (off : ℕ) (v : UInt32) : Store := ⟨off, toLE 4 v.toNat⟩
def u64Write (off : ℕ) (v : UInt64) : Store := ⟨off, toLE 8 v.toNat⟩

/-- The bits of a `double`. -/
def f64Write (off : ℕ) (v : UInt64) : Store := u64Write off v

/-- `memset(d+off, 0, n)` -/
def zeros (off n : ℕ) : Store := ⟨off, List.replicate n 0⟩

/-- `bool x : 1` in the lowest bit of a byte. -/
def flagBit (b : Bool) : UInt8 := if b then 1 else 0

lemma flagBit_and_one (b : Bool) : (flagBit b &&& 1 != 0) = b := by cases b <;> rfl

lemma flagBit_toUInt32_and_one (b : Bool) : ((flagBit b).toUInt32 &&& 1 != 0) = b := by cases b <;> rfl

def u8Read (d : Mem) (off : ℕ) : UInt8 := d off
def u16Read (d : Mem) (off : ℕ) : UInt16 := .ofNat (d.word 2 off)
def u32Read (d : Mem) (off : ℕ) : UInt32 := .ofNat (d.word 4 off)
def u64Read (d : Mem) (off : ℕ) : UInt64 := .ofNat (d.word 8 off)
def f64Read (d : Mem) (off : ℕ) : UInt64 := u64Read d off

section
variable {d : Mem} {l : List Store} {off : ℕ} (apart : l.Pairwise Store.Apart)
include apart

lemma u8Read_stores {v : UInt8} (d : Mem) (off : ℕ) (member : u8Write off v ∈ l) : u8Read (d.stores l) off = v :=
  Mem.stores_at (k := 0) apart member Nat.zero_lt_one

lemma u8Read_stores_u32 {b : Bool} (off : ℕ) (member : u32Write off (flagBit b).toUInt32 ∈ l) :
    (u8Read (d.stores l) off &&& 1 != 0) = b := by
  have byte : d.stores l off = (toLE 4 (flagBit b).toUInt32.toNat).getD 0 0 :=
    Mem.stores_at (k := 0) apart member ((length_toLE 4 _).symm ▸ by decide)
  rw [u8Read, byte]
  cases b <;> rfl

lemma u16Read_stores {v : UInt16} (member : u16Write off v ∈ l) : u16Read (d.stores l) off = v := by
  rw [u16Read, Mem.word_stores apart member v.toNat_lt, UInt16.ofNat_toNat]

lemma u32Read_stores {v : UInt32} (member : u32Write off v ∈ l) : u32Read (d.stores l) off = v := by
  rw [u32Read, Mem.word_stores apart member v.toNat_lt, UInt32.ofNat_toNat]

variable {v : UInt64}

lemma u64Read_stores (member : u64Write off v ∈ l) : u64Read (d.stores l) off = v := by
  rw [u64Read, Mem.word_stores apart member v.toNat_lt, UInt64.ofNat_toNat]

lemma f64Read_stores (member : f64Write off v ∈ l) : f64Read (d.stores l) off = v :=
  u64Read_stores apart member

end

/-! ## Records -/

def majorVersion : UInt8 := 4

/-- The size of a record, its writer, its reader, and what the reader makes of a record that was written: a member that
the header files mark as ignored on write comes back as the constant that the writer stores. -/
structure Format (R : Type) where
  size : ℕ
  write : R → List Store
  read : Mem → R
  stamp : R → R

namespace Format

variable {R : Type} (f : Format R) (r : R)

/-- The bytes that are left do not depend on what the buffer held. -/
def Independent : Prop := ∀ d d' : Mem, (d.stores (f.write r)).bytes 0 f.size = (d'.stores (f.write r)).bytes 0 f.size

/-- The record is read back. -/
def ReadBack : Prop := ∀ d : Mem, f.read (d.stores (f.write r)) = f.stamp r

lemma independent_iff : f.Independent r ↔ ∀ i < f.size, ∃ s ∈ f.write r, s.Touches i := Mem.stores_independent_iff

variable {f r} in
lemma not_independent {i : ℕ} (within : i < f.size) (gap : ∀ s ∈ f.write r, ¬ s.Touches i) : ¬ f.Independent r := by
  rw [independent_iff]
  intro touched
  obtain ⟨s, member, touches⟩ := touched i within
  exact gap s member touches

end Format

end HpcToolkit.Formats
