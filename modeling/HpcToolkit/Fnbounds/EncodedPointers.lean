import Mathlib.Tactic.IntervalCases
import HpcToolkit.Lib.Digits

/-! # Encoded pointers in unwind sections

The pointers of an `eh_frame` section: an encoding byte says how the number is written and to what it is added. All
supported machines store numbers with their least byte first. What C leaves undefined has no result here: the groups of
a LEB128 number are shifted as an `int`, and addresses are added to signed numbers as `int64_t`.
-/

open List
open BitVec (allOnes ofInt ofInt_add ofInt_natCast ofNat ofNat_or)

namespace HpcToolkit.Fnbounds

open Lib

/-! ## Constants -/

def dwEhPeAbsptr : BitVec 8 := 0x00
def dwEhPeUleb128 : BitVec 8 := 0x01
def dwEhPeUdata2 : BitVec 8 := 0x02
def dwEhPeUdata4 : BitVec 8 := 0x03
def dwEhPeUdata8 : BitVec 8 := 0x04
def dwEhPeSleb128 : BitVec 8 := 0x09
def dwEhPeSdata2 : BitVec 8 := 0x0a
def dwEhPeSdata4 : BitVec 8 := 0x0b
def dwEhPeSdata8 : BitVec 8 := 0x0c
def dwEhPePcrel : BitVec 8 := 0x10
def dwEhPeTextrel : BitVec 8 := 0x20
def dwEhPeDatarel : BitVec 8 := 0x30
def dwEhPeIndirect : BitVec 8 := 0x80
def dwEhPeIndpcrel : BitVec 8 := dwEhPeIndirect ||| dwEhPePcrel
def dwEhPeOmit : BitVec 8 := 0xff

def ehfFdeDmask : BitVec 8 := 0x0f
def ehfFdeOmask : BitVec 8 := 0xf0

def ehfSleb128Error : BitVec 64 := -1
def ehfUleb128Error : BitVec 64 := 0xffffffffffffffff
def ehfDecdwrfError : BitVec 64 := 0xffffffffffffffff

structure EhDecodeRecord where
  ehSecAddr : BitVec 64
  textSecAddr : BitVec 64
  dataSecAddr : BitVec 64
  totalOffset : BitVec 64
  fdeEnc : BitVec 8

/-! ## Numbers of a fixed size -/

/-- The bytes from an address on. -/
def bytesAt (mem : ℕ → BitVec 8) (stream size : ℕ) : List (BitVec 8) := (range size).map fun i => mem (stream + i)

/-- The bytes as a number, the least one first. -/
def ofBytes (bytes : List (BitVec 8)) : ℕ := Nat.ofDigits 256 (bytes.map BitVec.toNat)

/-- `unalignedEndianRead`: the hardware reads an aligned number, others are put together in the bytes of `r`. -/
def unalignedEndianRead (mem : ℕ → BitVec 8) (stream size : ℕ) (sign : Bool) : BitVec 64 :=
  let bytes := bytesAt mem stream size
  let extended (w : ℕ) : BitVec 64 :=
    if sign then (ofNat w (ofBytes bytes)).signExtend 64 else (ofNat w (ofBytes bytes)).setWidth 64
  if stream % size = 0 ∧ size = 2 then extended 16
  else if stream % size = 0 ∧ size = 4 then extended 32
  else if stream % size = 0 ∧ size = 8 then extended 64
  else
    let negative := sign ∧ mem (stream + size - 1) &&& 0x80 ≠ 0
    ofNat 64 (ofBytes (bytes ++ replicate (8 - size) (if negative then 0xff else 0)))

/-! ## LEB128 numbers -/

/-- `(byte & 0x7f) << shift`, which C does in an `int`. -/
def shifted (byte : BitVec 8) (shift : ℕ) : Option (BitVec 64) :=
  let low := (byte &&& 0x7f).toNat
  if shift < 32 ∧ low * 2 ^ shift < 2 ^ 31 then some (ofNat 64 (low * 2 ^ shift)) else none

/-- The loop of `decodeSLEB128`. A sixth byte is shifted by more than the width of an `int`. -/
def slebLoop (mem : ℕ → BitVec 8) : ℕ → ℕ → BitVec 64 → ℕ → ℕ → Option (BitVec 8 × BitVec 64 × ℕ × ℕ)
  | 0, _, _, _, _ => none
  | fuel + 1, input, result, shift, ladv =>
    let byte := mem input
    (shifted byte shift).bind fun low =>
      if byte &&& 0x80 ≠ 0 then slebLoop mem fuel (input + 1) (result ||| low) (shift + 7) (ladv + 1)
      else some (byte, result ||| low, shift + 7, ladv + 1)

/-- `decodeSLEB128` with what it leaves in `adv` -/
def decodeSLEB128 (mem : ℕ → BitVec 8) (input : ℕ) : Option (BitVec 64 × ℕ) :=
  (slebLoop mem 6 input 0 0 0).map fun (byte, result, shift, ladv) =>
    let result := if shift < 64 ∧ byte &&& 0x40 ≠ 0 then result ||| (allOnes 64 <<< shift) else result
    if shift ≥ 64 then (ehfSleb128Error, 0) else (result, ladv)

/-- The loop of `decodeULEB128`, of at most nine rounds. -/
def ulebLoop (mem : ℕ → BitVec 8) : ℕ → ℕ → BitVec 64 → ℕ → ℕ → Option (BitVec 64 × ℕ × ℕ)
  | 0, _, result, shift, ladv => some (result, shift, ladv)
  | fuel + 1, input, result, shift, ladv =>
    if shift < 63 then
      let byte := mem input
      (shifted byte shift).bind fun low =>
        if byte &&& 0x80 = 0 then some (result ||| low, shift, ladv + 1)
        else ulebLoop mem fuel (input + 1) (result ||| low) (shift + 7) (ladv + 1)
    else some (result, shift, ladv)

/-- `decodeULEB128` with what it leaves in `adv` -/
def decodeULEB128 (mem : ℕ → BitVec 8) (input : ℕ) : Option (BitVec 64 × ℕ) :=
  (ulebLoop mem 9 input 0 0 0).map fun (result, shift, ladv) =>
    if shift > 63 then (ehfUleb128Error, 0) else (result, ladv)

/-! ## Pointers -/

/-- `(int64_t)unsignedBaseAddr + signedRelAddr` -/
def addSigned (base rel : BitVec 64) : Option (BitVec 64) := if base.saddOverflow rel then none else some (base + rel)

/-- The first `switch` of `decodeDwarfAddress`; from `DW_EH_PE_absptr` it falls through. -/
def unsignedBaseAddr (decodeRecord : EhDecodeRecord) (fdeAddrOpType : BitVec 8) : Option (BitVec 64) :=
  if fdeAddrOpType = dwEhPeAbsptr ∨ fdeAddrOpType = dwEhPePcrel ∨ fdeAddrOpType = dwEhPeIndirect ∨
      fdeAddrOpType = dwEhPeIndpcrel then
    some (decodeRecord.ehSecAddr + decodeRecord.totalOffset)
  else if fdeAddrOpType = dwEhPeTextrel then some decodeRecord.textSecAddr
  else if fdeAddrOpType = dwEhPeDatarel then some decodeRecord.dataSecAddr
  else none

/-- `decodeDwarfAddress` with what it leaves in `adv`; from `DW_EH_PE_sdata2` the second `switch` falls through to
`DW_EH_PE_sdata4`, and from `DW_EH_PE_sdata8` to the error. -/
def decodeDwarfAddress (mem : ℕ → BitVec 8) (streamPtr : ℕ) (decodeRecord : EhDecodeRecord) (adv : ℕ) :
    Option (BitVec 64 × ℕ) :=
  let fdeAddrDecodeType := decodeRecord.fdeEnc &&& ehfFdeDmask
  let fdeAddrOpType := decodeRecord.fdeEnc &&& ehfFdeOmask
  if fdeAddrOpType = dwEhPeOmit ∨ fdeAddrDecodeType = dwEhPeOmit then some (ehfDecdwrfError, adv)
  else
    match unsignedBaseAddr decodeRecord fdeAddrOpType with
    | none => some (ehfDecdwrfError, 0)
    | some base =>
      if fdeAddrDecodeType = dwEhPeAbsptr then some (base + unalignedEndianRead mem streamPtr 8 false, 8)
      else if fdeAddrDecodeType = dwEhPeUleb128 then
        (decodeULEB128 mem streamPtr).map fun (rel, l) => (base + rel, l)
      else if fdeAddrDecodeType = dwEhPeUdata2 then some (base + unalignedEndianRead mem streamPtr 2 false, 2)
      else if fdeAddrDecodeType = dwEhPeUdata4 then some (base + unalignedEndianRead mem streamPtr 4 false, 4)
      else if fdeAddrDecodeType = dwEhPeUdata8 then some (base + unalignedEndianRead mem streamPtr 8 false, 8)
      else if fdeAddrDecodeType = dwEhPeSleb128 then
        (decodeSLEB128 mem streamPtr).bind fun (rel, l) => (addSigned base rel).map fun sum => (sum, l)
      else if fdeAddrDecodeType = dwEhPeSdata2 then
        (addSigned base (unalignedEndianRead mem streamPtr 2 true)).bind fun _ =>
          (addSigned base (unalignedEndianRead mem streamPtr 4 true)).map fun sum => (sum, 2 + 4)
      else if fdeAddrDecodeType = dwEhPeSdata4 then
        (addSigned base (unalignedEndianRead mem streamPtr 4 true)).map fun sum => (sum, 4)
      else if fdeAddrDecodeType = dwEhPeSdata8 then
        (addSigned base (unalignedEndianRead mem streamPtr 8 true)).map fun _ => (ehfDecdwrfError, 0)
      else some (ehfDecdwrfError, 0)

end HpcToolkit.Fnbounds

/-! # What an encoding stands for

An encoding is an application and a format. The format gives the number that stands at a place, and the application what
it is added to.
-/

namespace HpcToolkit.Fnbounds

open Lib

/-- What a number is added to. -/
inductive Application where
  | absptr
  | pcrel
  | textrel
  | datarel
deriving DecidableEq

/-- How a number is written. -/
inductive Format where
  | absptr
  | uleb128
  | udata2
  | udata4
  | udata8
  | sleb128
  | sdata2
  | sdata4
  | sdata8
deriving DecidableEq

namespace Application

def code : Application → BitVec 8
  | .absptr => dwEhPeAbsptr
  | .pcrel => dwEhPePcrel
  | .textrel => dwEhPeTextrel
  | .datarel => dwEhPeDatarel

/-- Nothing, or the address of the field itself or of a section. -/
def base (decodeRecord : EhDecodeRecord) : Application → BitVec 64
  | .absptr => 0
  | .pcrel => decodeRecord.ehSecAddr + decodeRecord.totalOffset
  | .textrel => decodeRecord.textSecAddr
  | .datarel => decodeRecord.dataSecAddr

end Application

namespace Format

def code : Format → BitVec 8
  | .absptr => dwEhPeAbsptr
  | .uleb128 => dwEhPeUleb128
  | .udata2 => dwEhPeUdata2
  | .udata4 => dwEhPeUdata4
  | .udata8 => dwEhPeUdata8
  | .sleb128 => dwEhPeSleb128
  | .sdata2 => dwEhPeSdata2
  | .sdata4 => dwEhPeSdata4
  | .sdata8 => dwEhPeSdata8

/-- The bytes of a number, unless it says itself where it ends. -/
def size? : Format → Option ℕ
  | .udata2 | .sdata2 => some 2
  | .udata4 | .sdata4 => some 4
  | .absptr | .udata8 | .sdata8 => some 8
  | .uleb128 | .sleb128 => none

def isSigned : Format → Bool
  | .sleb128 | .sdata2 | .sdata4 | .sdata8 => true
  | .absptr | .uleb128 | .udata2 | .udata4 | .udata8 => false

/-- The number of some digits. -/
def ofDigits (f : Format) (b : ℕ) (digits : List ℕ) : ℤ :=
  if f.isSigned then Digits.signed b digits else (Nat.ofDigits b digits : ℕ)

end Format

lemma Format.ofDigits_signed {f : Format} (signed : f.isSigned = true) (b : ℕ) (digits : List ℕ) :
    f.ofDigits b digits = Digits.signed b digits := if_pos signed

/-- The groups of seven bits of a LEB128 number. -/
def groupsAt (mem : ℕ → BitVec 8) (stream size : ℕ) : List ℕ :=
  (range size).map fun i => (mem (stream + i) &&& 0x7f).toNat

/-- A LEB128 number has the given bytes: all but the last have the high bit. -/
structure LebEnds (mem : ℕ → BitVec 8) (stream size : ℕ) : Prop where
  positive : 0 < size
  more : ∀ i < size - 1, mem (stream + i) &&& 0x80 ≠ 0
  last : mem (stream + (size - 1)) &&& 0x80 = 0

/-- The number in a format at a place of a stream, with the bytes that it has there. -/
def Format.NumberAt (f : Format) (mem : ℕ → BitVec 8) (stream size : ℕ) (value : ℤ) : Prop :=
  match f.size? with
  | some k => size = k ∧ value = f.ofDigits 256 ((bytesAt mem stream size).map BitVec.toNat)
  | none => LebEnds mem stream size ∧ value = f.ofDigits 128 (groupsAt mem stream size)

/-- The groups of a number fit in an `int`. -/
def FitsInt (mem : ℕ → BitVec 8) (stream size : ℕ) : Prop :=
  size ≤ 4 ∨ size = 5 ∧ (mem (stream + 4) &&& 0x7f).toNat < 8

instance (mem : ℕ → BitVec 8) (stream size : ℕ) : Decidable (FitsInt mem stream size) :=
  inferInstanceAs (Decidable (_ ∨ _))

/-- What the decoder is right for: it takes an absolute pointer for a relative one, and has no case for two of the
formats; a LEB128 number has to fit in an `int`, and a sum with a signed number in an `int64_t`. -/
structure Decodable (mem : ℕ → BitVec 8) (stream : ℕ) (decodeRecord : EhDecodeRecord) (a : Application) (f : Format)
    (size : ℕ) (value : ℤ) : Prop where
  base : a = .absptr → decodeRecord.ehSecAddr + decodeRecord.totalOffset = 0
  format : f ≠ .sdata2 ∧ f ≠ .sdata8
  short : f.size? = none → FitsInt mem stream size
  sum : f.isSigned = true → -2 ^ 63 ≤ (a.base decodeRecord).toInt + value ∧
    (a.base decodeRecord).toInt + value < 2 ^ 63

/-! ## Numbers of a fixed size -/

variable {mem : ℕ → BitVec 8} {stream size : ℕ} {decodeRecord : EhDecodeRecord} {a : Application} {f : Format}
  {value : ℤ}

lemma high_bit_iff : ∀ b : BitVec 8, b &&& 0x80 = 0 ↔ b.toNat < 128 := by decide

lemma sign_bit_iff : ∀ b : BitVec 8, b &&& 0x40 = 0 ↔ (b &&& 0x7f).toNat < 64 := by decide

lemma low_bits : ∀ b : BitVec 8, (b &&& 0x7f).toNat < 128 := by decide

lemma bytesAt_succ (mem : ℕ → BitVec 8) (stream size : ℕ) :
    bytesAt mem stream (size + 1) = bytesAt mem stream size ++ [mem (stream + size)] := by
  simp [bytesAt, range_succ]

lemma length_bytesAt (mem : ℕ → BitVec 8) (stream size : ℕ) : (bytesAt mem stream size).length = size := by
  simp [bytesAt]

lemma byte_lt (bytes : List (BitVec 8)) : ∀ x ∈ bytes.map BitVec.toNat, x < 256 := by
  intro x member
  obtain ⟨b, -, rfl⟩ := mem_map.mp member
  exact b.isLt

lemma ofBytes_lt (bytes : List (BitVec 8)) : ofBytes bytes < 256 ^ bytes.length := by
  simpa [ofBytes] using Nat.ofDigits_lt_base_pow_length (by omega) (byte_lt bytes)

lemma signed_bytesAt (mem : ℕ → BitVec 8) (stream size : ℕ) :
    Digits.signed 256 ((bytesAt mem stream (size + 1)).map BitVec.toNat) =
      if mem (stream + size) &&& 0x80 = 0 then (ofBytes (bytesAt mem stream (size + 1)) : ℤ)
      else ofBytes (bytesAt mem stream (size + 1)) - (256 ^ (size + 1) : ℕ) := by
  have proper := byte_lt (bytesAt mem stream (size + 1))
  rw [ofBytes]
  rw [bytesAt_succ, map_append, map_singleton] at *
  rw [Digits.signed_append (c := 128) (by omega) (by omega) proper, length_map, length_bytesAt]
  simp only [high_bit_iff]

lemma extended_eq {w : ℕ} (bytes : List (BitVec 8)) (width : 2 ^ w = 256 ^ bytes.length) (sign : Bool) :
    (if sign then (ofNat w (ofBytes bytes)).signExtend 64 else (ofNat w (ofBytes bytes)).setWidth 64) =
      ofInt 64 (if sign then Digits.signed 256 (bytes.map BitVec.toNat) else (ofBytes bytes : ℕ)) := by
  have bound := ofBytes_lt bytes
  rw [← width] at bound
  cases sign with
  | true =>
    simp only [if_true, BitVec.signExtend, BitVec.toInt_ofNat', Digits.signed, length_map, width]
    rfl
  | false =>
    simp only [Bool.false_eq_true, if_false, ofInt_natCast]
    apply BitVec.eq_of_toNat_eq
    rw [BitVec.toNat_setWidth, BitVec.toNat_ofNat, BitVec.toNat_ofNat, Nat.mod_eq_of_lt bound]

lemma assembled_eq (short : size < 8) (sign : Bool) :
    ofNat 64 (ofBytes (bytesAt mem stream (size + 1) ++ replicate (8 - (size + 1))
        (if sign ∧ mem (stream + size) &&& 0x80 ≠ 0 then 0xff else 0))) =
      ofInt 64 (if sign then Digits.signed 256 ((bytesAt mem stream (size + 1)).map BitVec.toNat)
        else (ofBytes (bytesAt mem stream (size + 1)) : ℕ)) := by
  have zeros : ofBytes (bytesAt mem stream (size + 1) ++ replicate (8 - (size + 1)) 0) =
      ofBytes (bytesAt mem stream (size + 1)) := by
    simp [ofBytes]
  have ones : ofBytes (bytesAt mem stream (size + 1) ++ replicate (8 - (size + 1)) 0xff) =
      ofBytes (bytesAt mem stream (size + 1)) + 256 ^ (size + 1) * (256 ^ (8 - (size + 1)) - 1) := by
    rw [ofBytes, map_append, Nat.ofDigits_append, length_map, length_bytesAt, map_replicate,
      ← Digits.ofDigits_replicate_pred (by omega)]
    rfl
  cases sign with
  | false =>
    simp only [Bool.false_eq_true, false_and, if_false, ofInt_natCast]
    exact congrArg _ zeros
  | true =>
    rw [if_pos rfl, signed_bytesAt]
    by_cases high : mem (stream + size) &&& 0x80 = 0
    · rw [if_neg fun both => both.2 high, if_pos high, ofInt_natCast]
      exact congrArg _ zeros
    · have power : 256 ^ (size + 1) * 256 ^ (8 - (size + 1)) = 2 ^ 64 := by
        rw [← pow_add, Nat.add_sub_cancel' short]
        norm_num
      have least := Nat.one_le_pow (8 - (size + 1)) 256 (by omega)
      rw [if_pos ⟨rfl, high⟩, if_neg high, ← ofInt_natCast]
      change ofInt 64 (ofBytes (bytesAt mem stream (size + 1) ++ replicate (8 - (size + 1)) 0xff) : ℕ) = _
      rw [ones, Nat.mul_sub, power, mul_one, Nat.cast_add, Nat.cast_sub (power ▸ Nat.le_mul_of_pos_right _ least)]
      rw [show ((ofBytes (bytesAt mem stream (size + 1)) : ℕ) : ℤ) + ((2 ^ 64 : ℕ) - (256 ^ (size + 1) : ℕ)) =
        (ofBytes (bytesAt mem stream (size + 1)) - (256 ^ (size + 1) : ℕ)) + (2 ^ 64 : ℕ) by ring, ofInt_add]
      exact BitVec.add_zero _

lemma unalignedEndianRead_eq (mem : ℕ → BitVec 8) (stream : ℕ) (sizes : size = 2 ∨ size = 4 ∨ size = 8) (sign : Bool) :
    unalignedEndianRead mem stream size sign = ofInt 64
      (if sign then Digits.signed 256 ((bytesAt mem stream size).map BitVec.toNat)
        else (ofBytes (bytesAt mem stream size) : ℕ)) := by
  have hardware (w : ℕ) (width : 2 ^ w = 256 ^ size) :=
    extended_eq (bytesAt mem stream size) (by rwa [length_bytesAt]) sign
  rw [unalignedEndianRead]
  dsimp only
  split
  · rename_i two
    exact hardware 16 (by rw [two.2]; rfl)
  · split
    · rename_i four
      exact hardware 32 (by rw [four.2]; rfl)
    · split
      · rename_i eight
        exact hardware 64 (by rw [eight.2]; rfl)
      · obtain ⟨n, rfl, short⟩ : ∃ n, size = n + 1 ∧ n < 8 := ⟨size - 1, by omega, by omega⟩
        exact assembled_eq short sign

/-! ## LEB128 numbers -/

/-- What the loops have collected of a number. -/
def collected (mem : ℕ → BitVec 8) (stream i : ℕ) : BitVec 64 :=
  ofNat 64 (Nat.ofDigits 128 (groupsAt mem stream i))

section
variable (mem : ℕ → BitVec 8)

lemma groupsAt_succ (stream size : ℕ) :
    groupsAt mem stream (size + 1) = groupsAt mem stream size ++ [(mem (stream + size) &&& 0x7f).toNat] := by
  simp [groupsAt, range_succ]

lemma length_groupsAt (stream size : ℕ) : (groupsAt mem stream size).length = size := by
  simp [groupsAt]

lemma group_lt (stream size : ℕ) : ∀ x ∈ groupsAt mem stream size, x < 128 := by
  intro x member
  obtain ⟨i, -, rfl⟩ := mem_map.mp member
  exact low_bits _

lemma ofDigits_groupsAt_lt (stream size : ℕ) :
    Nat.ofDigits 128 (groupsAt mem stream size) < 2 ^ (7 * size) := by
  have bound := Nat.ofDigits_lt_base_pow_length (by omega) (group_lt mem stream size)
  rwa [length_groupsAt, show 128 = 2 ^ 7 by rfl, ← pow_mul] at bound

lemma collected_or (stream i : ℕ) :
    collected mem stream i ||| ofNat 64 ((mem (stream + i) &&& 0x7f).toNat * 2 ^ (7 * i)) =
      collected mem stream (i + 1) := by
  have bound := ofDigits_groupsAt_lt mem stream i
  rw [collected, collected, ← ofNat_or, Nat.or_comm, Nat.mul_comm, ← Nat.two_pow_add_eq_or_of_lt bound,
    groupsAt_succ, Nat.ofDigits_append, Nat.ofDigits_singleton, length_groupsAt, show 128 = 2 ^ 7 by rfl, ← pow_mul,
    Nat.add_comm]

end

lemma shifted_eq (byte : BitVec 8) (i : ℕ) :
    shifted byte (7 * i) = if i < 4 ∨ i = 4 ∧ (byte &&& 0x7f).toNat < 8 then
      some (ofNat 64 ((byte &&& 0x7f).toNat * 2 ^ (7 * i))) else none := by
  have bound := low_bits byte
  have fits : (7 * i < 32 ∧ (byte &&& 0x7f).toNat * 2 ^ (7 * i) < 2 ^ 31) ↔
      (i < 4 ∨ i = 4 ∧ (byte &&& 0x7f).toNat < 8) := by
    by_cases few : i < 5
    · interval_cases i <;> omega
    · omega
  rw [shifted]
  exact if_congr fits rfl rfl

variable {i : ℕ}

lemma LebEnds.more_iff (ends : LebEnds mem stream size) (inside : i < size) :
    mem (stream + i) &&& 0x80 ≠ 0 ↔ i + 1 < size := by
  constructor
  · intro high
    by_contra last
    obtain rfl : i = size - 1 := by omega
    exact high ends.last
  · exact fun more => ends.more i (by omega)

lemma not_fitsInt (few : i ≤ 5) (inside : i < size)
    (large : ¬ (i < 4 ∨ i = 4 ∧ (mem (stream + i) &&& 0x7f).toNat < 8)) : ¬ FitsInt mem stream size := by
  rintro (short | ⟨five, small⟩)
  · omega
  · obtain rfl : i = 4 := by omega
    exact large (.inr ⟨rfl, small⟩)

lemma fitsInt_last (small : i < 4 ∨ i = 4 ∧ (mem (stream + i) &&& 0x7f).toNat < 8) :
    FitsInt mem stream (i + 1) := by
  rcases small with short | ⟨rfl, small⟩
  · exact .inl (by omega)
  · exact .inr ⟨rfl, small⟩

lemma slebLoop_eq (ends : LebEnds mem stream size) {fuel i : ℕ} (rounds : i + fuel = 6) (few : i ≤ 5)
    (inside : i < size) :
    slebLoop mem fuel (stream + i) (collected mem stream i) (7 * i) i = if FitsInt mem stream size then
      some (mem (stream + (size - 1)), collected mem stream size, 7 * size, size) else none := by
  induction fuel generalizing i with
  | zero => omega
  | succ fuel ih =>
    rw [slebLoop, shifted_eq]
    by_cases small : i < 4 ∨ i = 4 ∧ (mem (stream + i) &&& 0x7f).toNat < 8
    · rw [if_pos small, Option.bind_some, collected_or]
      by_cases more : i + 1 < size
      · rw [if_pos ((ends.more_iff inside).mpr more)]
        exact ih (by omega) (by omega) more
      · rw [if_neg ((ends.more_iff inside).not.mpr more)]
        obtain rfl : size = i + 1 := by omega
        rw [if_pos (fitsInt_last small)]
        rfl
    · rw [if_neg small, if_neg (not_fitsInt few inside small)]
      rfl

lemma ulebLoop_eq (ends : LebEnds mem stream size) {fuel i : ℕ} (rounds : i + fuel = 9) (few : i ≤ 5)
    (inside : i < size) :
    ulebLoop mem fuel (stream + i) (collected mem stream i) (7 * i) i = if FitsInt mem stream size then
      some (collected mem stream size, 7 * (size - 1), size) else none := by
  induction fuel generalizing i with
  | zero => omega
  | succ fuel ih =>
    rw [ulebLoop, if_pos (by omega)]
    dsimp only
    rw [shifted_eq]
    by_cases small : i < 4 ∨ i = 4 ∧ (mem (stream + i) &&& 0x7f).toNat < 8
    · rw [if_pos small, Option.bind_some, collected_or]
      by_cases more : i + 1 < size
      · rw [if_neg ((ends.more_iff inside).mpr more)]
        exact ih (by omega) (by omega) more
      · rw [if_pos (not_not.mp ((ends.more_iff inside).not.mpr more))]
        obtain rfl : size = i + 1 := by omega
        rw [if_pos (fitsInt_last small)]
        rfl
    · rw [if_neg small, if_neg (not_fitsInt few inside small)]
      rfl

lemma FitsInt.le (fits : FitsInt mem stream size) : size ≤ 5 := by
  rcases fits with short | ⟨five, -⟩
  · omega
  · omega

lemma decodeULEB128_eq (ends : LebEnds mem stream size) :
    decodeULEB128 mem stream = if FitsInt mem stream size then some (collected mem stream size, size) else none := by
  have loop := ulebLoop_eq ends (Nat.zero_add 9) (Nat.zero_le 5) ends.positive
  change ulebLoop mem 9 stream 0 0 0 = _ at loop
  rw [decodeULEB128, loop]
  split
  · rename_i fits
    have := fits.le
    simp only [Option.map_some]
    rw [if_neg (by omega)]
  · rfl

lemma ones_shiftLeft : ∀ n < 6,
    allOnes 64 <<< (7 * n) = ofNat 64 (2 ^ (7 * n) * (2 ^ (64 - 7 * n) - 1)) := by
  decide

lemma signExtended_eq {n : ℕ} (few : n < 5) :
    (if 7 * (n + 1) < 64 ∧ mem (stream + n) &&& 0x40 ≠ 0 then
        collected mem stream (n + 1) ||| (allOnes 64 <<< (7 * (n + 1))) else collected mem stream (n + 1)) =
      ofInt 64 (Digits.signed 128 (groupsAt mem stream (n + 1))) := by
  have proper := group_lt mem stream (n + 1)
  have bound := ofDigits_groupsAt_lt mem stream (n + 1)
  rw [collected, groupsAt_succ] at *
  rw [Digits.signed_append (c := 64) (by omega) (by omega) proper, length_groupsAt]
  generalize Nat.ofDigits 128 (groupsAt mem stream n ++ [(mem (stream + n) &&& 0x7f).toNat]) = u at bound ⊢
  by_cases sign : mem (stream + n) &&& 0x40 = 0
  · rw [if_neg fun both => both.2 sign, if_pos ((sign_bit_iff _).mp sign), ofInt_natCast]
  · rw [if_pos ⟨by omega, sign⟩, if_neg ((sign_bit_iff _).not.mp sign), ones_shiftLeft (n + 1) (by omega),
      ← ofNat_or, Nat.or_comm, ← Nat.two_pow_add_eq_or_of_lt bound, ← ofInt_natCast]
    have power : 2 ^ (7 * (n + 1)) * 2 ^ (64 - 7 * (n + 1)) = 2 ^ 64 := by
      rw [← pow_add, Nat.add_sub_cancel' (by omega)]
    have same : (128 : ℕ) ^ (n + 1) = 2 ^ (7 * (n + 1)) := by
      rw [pow_mul]
      norm_num
    have least := Nat.one_le_two_pow (n := 64 - 7 * (n + 1))
    rw [Nat.mul_sub, power, mul_one, same, Nat.cast_add, Nat.cast_sub (power ▸ Nat.le_mul_of_pos_right _ least)]
    rw [show ((2 ^ 64 : ℕ) : ℤ) - (2 ^ (7 * (n + 1)) : ℕ) + u = (u - (2 ^ (7 * (n + 1)) : ℕ)) + (2 ^ 64 : ℕ) by ring,
      ofInt_add]
    exact BitVec.add_zero _

lemma decodeSLEB128_eq (ends : LebEnds mem stream size) :
    decodeSLEB128 mem stream = if FitsInt mem stream size then
      some (ofInt 64 (Digits.signed 128 (groupsAt mem stream size)), size) else none := by
  have loop := slebLoop_eq ends (Nat.zero_add 6) (Nat.zero_le 5) ends.positive
  change slebLoop mem 6 stream 0 0 0 = _ at loop
  rw [decodeSLEB128, loop]
  split
  · rename_i fits
    obtain ⟨n, rfl, few⟩ : ∃ n, size = n + 1 ∧ n < 5 := by
      have := fits.le
      have := ends.positive
      exact ⟨size - 1, by omega, by omega⟩
    simp only [Option.map_some]
    rw [if_neg (by omega)]
    exact congrArg (fun value => some (value, n + 1)) (signExtended_eq few)
  · rfl

/-! ## Pointers -/

/-- What the decoder adds a number to. -/
def Application.used (decodeRecord : EhDecodeRecord) : Application → BitVec 64
  | .absptr => decodeRecord.ehSecAddr + decodeRecord.totalOffset
  | a => a.base decodeRecord

lemma Application.used_eq_base_iff : a.used decodeRecord = a.base decodeRecord ↔
    (a = .absptr → decodeRecord.ehSecAddr + decodeRecord.totalOffset = 0) := by
  cases a with
  | absptr => exact ⟨fun same _ => same, fun zero => zero rfl⟩
  | _ => exact iff_of_true rfl (by simp)

/-- What the decoder makes of the number at a place. -/
def Format.result (mem : ℕ → BitVec 8) (stream : ℕ) (base : BitVec 64) : Format → Option (BitVec 64 × ℕ)
  | .absptr | .udata8 => some (base + unalignedEndianRead mem stream 8 false, 8)
  | .udata2 => some (base + unalignedEndianRead mem stream 2 false, 2)
  | .udata4 => some (base + unalignedEndianRead mem stream 4 false, 4)
  | .uleb128 => (decodeULEB128 mem stream).map fun (rel, l) => (base + rel, l)
  | .sleb128 => (decodeSLEB128 mem stream).bind fun (rel, l) => (addSigned base rel).map fun sum => (sum, l)
  | .sdata2 => (addSigned base (unalignedEndianRead mem stream 2 true)).bind fun _ =>
      (addSigned base (unalignedEndianRead mem stream 4 true)).map fun sum => (sum, 2 + 4)
  | .sdata4 => (addSigned base (unalignedEndianRead mem stream 4 true)).map fun sum => (sum, 4)
  | .sdata8 => (addSigned base (unalignedEndianRead mem stream 8 true)).map fun _ => (ehfDecdwrfError, 0)

lemma decodeDwarfAddress_eq (encoding : decodeRecord.fdeEnc = a.code ||| f.code) (adv : ℕ) :
    decodeDwarfAddress mem stream decodeRecord adv = f.result mem stream (a.used decodeRecord) := by
  rw [decodeDwarfAddress, encoding]
  cases a <;> cases f <;> rfl

lemma addSigned_eq_some_iff (base used : BitVec 64) (fits : -2 ^ 63 ≤ value ∧ value < 2 ^ 63) (size : ℕ) :
    (addSigned used (ofInt 64 value)).map (fun sum => (sum, size)) =
        some (base + ofInt 64 value, size) ↔
      used = base ∧ -2 ^ 63 ≤ base.toInt + value ∧ base.toInt + value < 2 ^ 63 := by
  have same : (ofInt 64 value).toInt = value := by
    rw [BitVec.toInt_ofInt]
    exact Int.bmod_eq_of_le (by omega) (by omega)
  rw [addSigned]
  split
  · rename_i overflow
    simp only [BitVec.saddOverflow, same, Bool.or_eq_true, decide_eq_true_eq] at overflow
    refine iff_of_false (fun none => by cases none) ?_
    rintro ⟨rfl, lower, upper⟩
    omega
  · rename_i apart
    simp only [BitVec.saddOverflow, same, Bool.or_eq_true, decide_eq_true_eq] at apart
    simp only [Option.map_some, Option.some.injEq, Prod.mk.injEq, and_true, BitVec.add_left_inj]
    refine ⟨?_, And.left⟩
    rintro rfl
    exact ⟨rfl, by omega, by omega⟩

lemma unsigned_iff {base used : BitVec 64} (sizes : size = 2 ∨ size = 4 ∨ size = 8) :
    some (used + unalignedEndianRead mem stream size false, size) =
        some (base + ofInt 64 (ofBytes (bytesAt mem stream size) : ℕ), size) ↔ used = base := by
  have read := unalignedEndianRead_eq mem stream sizes false
  rw [read]
  simp

lemma signed_fits {b : ℕ} {digits : List ℕ} (positive : 0 < b) (bits : b ^ digits.length ≤ 2 ^ 35) :
    -2 ^ 63 ≤ Digits.signed b digits ∧ Digits.signed b digits < 2 ^ 63 := by
  have bounds := Digits.signed_bounds positive digits
  omega

/-- The decoder adds the number at a place to its base and takes its bytes just in case it is right for it. -/
theorem decodeDwarfAddress_iff (encoding : decodeRecord.fdeEnc = a.code ||| f.code)
    (number : f.NumberAt mem stream size value) (adv : ℕ) :
    decodeDwarfAddress mem stream decodeRecord adv = some (a.base decodeRecord + ofInt 64 value, size) ↔
      Decodable mem stream decodeRecord a f size value := by
  rw [decodeDwarfAddress_eq encoding]
  have parts : Decodable mem stream decodeRecord a f size value ↔
      a.used decodeRecord = a.base decodeRecord ∧ (f ≠ .sdata2 ∧ f ≠ .sdata8) ∧
        (f.size? = none → FitsInt mem stream size) ∧ (f.isSigned = true →
          -2 ^ 63 ≤ (a.base decodeRecord).toInt + value ∧ (a.base decodeRecord).toInt + value < 2 ^ 63) := by
    rw [Application.used_eq_base_iff]
    refine ⟨fun ok => ⟨ok.base, ok.format, ok.short, ok.sum⟩, ?_⟩
    rintro ⟨base, format, short, sum⟩
    exact ⟨base, format, short, sum⟩
  rw [parts]
  generalize a.used decodeRecord = used
  generalize a.base decodeRecord = base
  cases f with
  | absptr | udata8 =>
    obtain ⟨rfl, rfl⟩ := number
    exact (unsigned_iff (by omega)).trans (by simp [Format.size?, Format.isSigned])
  | udata2 =>
    obtain ⟨rfl, rfl⟩ := number
    exact (unsigned_iff (by omega)).trans (by simp [Format.size?, Format.isSigned])
  | udata4 =>
    obtain ⟨rfl, rfl⟩ := number
    exact (unsigned_iff (by omega)).trans (by simp [Format.size?, Format.isSigned])
  | uleb128 =>
    obtain ⟨ends, rfl⟩ := number
    rw [Format.result, decodeULEB128_eq ends]
    split
    · rename_i fits
      change some (used + ofNat 64 _, size) = some (base + ofNat 64 _, size) ↔ _
      simp [Format.isSigned, fits]
    · rename_i long
      exact iff_of_false (fun none => by cases none) fun ok => long (ok.2.2.1 rfl)
  | sleb128 =>
    obtain ⟨ends, rfl⟩ := number
    rw [Format.result, decodeSLEB128_eq ends]
    split
    · rename_i fits
      have small : 128 ^ (groupsAt mem stream size).length ≤ 2 ^ 35 := by
        rw [length_groupsAt]
        exact Nat.pow_le_pow_right (by omega) fits.le
      have sum := addSigned_eq_some_iff base used (signed_fits (by omega) small) size
      rw [Option.bind_some, Format.ofDigits_signed rfl]
      exact sum.trans (by simp [Format.isSigned, fits])
    · rename_i long
      exact iff_of_false (fun none => by cases none) fun ok => long (ok.2.2.1 rfl)
  | sdata2 =>
    obtain ⟨rfl, -⟩ := number
    refine iff_of_false (fun same => ?_) fun ok => ok.2.1.1 rfl
    simp [Format.result, Option.bind_eq_some_iff] at same
  | sdata4 =>
    obtain ⟨rfl, rfl⟩ := number
    have read := unalignedEndianRead_eq mem stream (.inr (.inl rfl)) true
    rw [if_pos rfl] at read
    have small : 256 ^ ((bytesAt mem stream 4).map BitVec.toNat).length ≤ 2 ^ 35 := by
      rw [length_map, length_bytesAt]
      omega
    have sum := addSigned_eq_some_iff base used (signed_fits (by omega) small) 4
    rw [Format.result, read, Format.ofDigits_signed rfl]
    exact sum.trans (by simp [Format.size?, Format.isSigned])
  | sdata8 =>
    obtain ⟨rfl, -⟩ := number
    refine iff_of_false (fun same => ?_) fun ok => ok.2.1.2 rfl
    simp [Format.result] at same

/-- The bytes of the pointer `0x401000`. -/
def pointerBytes : ℕ → BitVec 8
  | 1 => 0x10
  | 2 => 0x40
  | _ => 0

/-- A personality pointer in a section that is loaded at `0x4a0000`. -/
def personality (fdeEnc : BitVec 8) : EhDecodeRecord := ⟨0x4a0000, 0x401000, 0x4c0000, 0x20, fdeEnc⟩

/-- A pointer relative to the data section is decoded. -/
theorem datarel_decoded : decodeDwarfAddress pointerBytes 0 (personality 0x3b) 0 = some (0x8c1000, 4) := by
  have number : Format.sdata4.NumberAt pointerBytes 0 4 0x401000 := ⟨rfl, by decide⟩
  exact (decodeDwarfAddress_iff (a := .datarel) rfl number 0).mpr ⟨by decide, by decide, by decide, by decide⟩

/-- To an absolute pointer the address of the field is added. -/
theorem absptr_moved : Format.absptr.NumberAt pointerBytes 0 8 0x401000 ∧
    decodeDwarfAddress pointerBytes 0 (personality 0x00) 0 = some (0x8a1020, 8) ∧
    Application.absptr.base (personality 0x00) + ofInt 64 0x401000 ≠ 0x8a1020 :=
  ⟨⟨rfl, by decide⟩, by decide, by decide⟩

end HpcToolkit.Fnbounds
