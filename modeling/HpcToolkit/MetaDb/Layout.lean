import Mathlib
import HpcToolkit.Lib.ByteFile

/-! # Laying out a database file

The layout engine of `formats/core.hpp` hands out the space of a file from front to back, and `Written` serializes data
into the next free space. The engine is modelled together with the file that it writes. Everything that was written
stays in place while the layout grows.
-/

open List

namespace HpcToolkit.MetaDb

open Lib

def align (v a : ℕ) : ℕ := (v + a - 1) / a * a

lemma le_align {a : ℕ} (positive : 0 < a) (v : ℕ) : v ≤ align v a := by
  have round := Nat.div_add_mod (v + a - 1) a
  have less := Nat.mod_lt (v + a - 1) positive
  rw [align, Nat.mul_comm]
  omega

lemma align_of_dvd {v a : ℕ} (positive : 0 < a) (multiple : a ∣ v) : align v a = v := by
  obtain ⟨k, rfl⟩ := multiple
  have quotient : (a * k + a - 1) / a = k := by
    have less : (a - 1) / a = 0 := Nat.div_eq_of_lt (Nat.sub_lt positive one_pos)
    rw [Nat.add_sub_assoc (Nat.one_le_of_lt positive), Nat.mul_add_div positive, less, Nat.add_zero]
  rw [align, quotient, Nat.mul_comm]

/-- `File::Instance::writeat`, which does nothing for an empty buffer. -/
def writeat (file : List UInt8) (offset : ℕ) (buf : List UInt8) : List UInt8 :=
  if buf = [] then file else (ByteFile.write ⟨file, offset⟩ buf).bytes

/-- `LayoutEngine`, with the file. -/
structure LayoutEngine where
  file : List UInt8
  cursor : ℕ

namespace LayoutEngine

def allocate (l : LayoutEngine) (size alignment : ℕ) : ℕ × LayoutEngine :=
  (align l.cursor alignment, { l with cursor := align l.cursor alignment + size })

/-- The constructor of `Written`, for data that were serialized. -/
def written (l : LayoutEngine) (buf : List UInt8) (alignment : ℕ) : ℕ × LayoutEngine :=
  let (offset, l) := l.allocate buf.length alignment
  (offset, { l with file := writeat l.file offset buf })

end LayoutEngine

/-- `Array::serialize`, for elements that were serialized. -/
def serialize (alignment : ℕ) (elements : List (List UInt8)) : List UInt8 :=
  elements.foldl (fun buf subbuf => buf ++ replicate (align buf.length alignment - buf.length) 0 ++ subbuf) []

variable {alignment : ℕ}

lemma foldl_serialize (positive : 0 < alignment) (elements : List (List UInt8)) (buf : List UInt8)
    (aligned : alignment ∣ buf.length) (multiples : ∀ element ∈ elements, alignment ∣ element.length) :
    elements.foldl (fun buf subbuf => buf ++ replicate (align buf.length alignment - buf.length) 0 ++ subbuf) buf =
      buf ++ elements.flatten := by
  induction elements generalizing buf with
  | nil => simp
  | cons element elements ih =>
    have padding : replicate (align buf.length alignment - buf.length) (0 : UInt8) = [] := by
      rw [align_of_dvd positive aligned, Nat.sub_self, replicate_zero]
    rw [foldl_cons, padding, append_nil, ih (buf ++ element) _
      (fun e mem => multiples e (mem_cons_of_mem _ mem)), flatten_cons, append_assoc]
    rw [length_append]
    exact dvd_add aligned (multiples element mem_cons_self)

lemma serialize_eq (positive : 0 < alignment) (elements : List (List UInt8))
    (multiples : ∀ element ∈ elements, alignment ∣ element.length) : serialize alignment elements = elements.flatten := by
  rw [serialize, foldl_serialize positive elements [] (dvd_zero _) multiples, nil_append]

namespace LayoutEngine

variable {l l' l'' : LayoutEngine}

/-- The file ends before the free space. -/
def Fits (l : LayoutEngine) : Prop := l.file.length ≤ l.cursor

/-- Only free space was used. -/
structure Extends (l l' : LayoutEngine) : Prop where
  cursor : l.cursor ≤ l'.cursor
  file : l.file <+: l'.file

lemma Extends.refl (l : LayoutEngine) : l.Extends l := ⟨le_rfl, prefix_rfl⟩

lemma Extends.trans (first : l.Extends l') (second : l'.Extends l'') : l.Extends l'' :=
  ⟨first.cursor.trans second.cursor, first.file.trans second.file⟩

lemma allocate_fits (fits : l.Fits) (alignment : ℕ) (positive : 0 < alignment) (size : ℕ) :
    l.Extends (l.allocate size alignment).2 ∧ (l.allocate size alignment).2.Fits := by
  have le := le_align positive l.cursor
  refine ⟨⟨?_, prefix_rfl⟩, ?_⟩
  · exact le.trans (Nat.le_add_right _ _)
  · exact (Nat.le_trans fits le).trans (Nat.le_add_right _ _)

/-- Written data stand in the space that was free before. -/
structure Wrote (l : LayoutEngine) (buf : List UInt8) (p : ℕ) (l' : LayoutEngine) : Prop where
  ext : l.Extends l'
  fits : l'.Fits
  start : l.cursor ≤ p
  stop : p + buf.length ≤ l'.cursor
  here : buf ≠ [] → At l'.file p buf

lemma written_wrote (fits : l.Fits) (alignment : ℕ) (positive : 0 < alignment) (buf : List UInt8) :
    Wrote l buf (l.written buf alignment).1 (l.written buf alignment).2 := by
  have le := le_align positive l.cursor
  have appending : ByteFile.Appending ⟨l.file, align l.cursor alignment⟩ := Nat.le_trans fits le
  have cursor : (l.written buf alignment).2.cursor = align l.cursor alignment + buf.length := rfl
  have file : (l.written buf alignment).2.file = writeat l.file (align l.cursor alignment) buf := rfl
  have kept : l.file <+: (l.written buf alignment).2.file := by
    rw [file, writeat]
    split
    · exact prefix_rfl
    · exact appending.isPrefix_write buf
  refine ⟨⟨cursor ▸ le.trans (Nat.le_add_right _ _), kept⟩, ?_, le, cursor.ge, ?_⟩
  · rw [Fits, cursor, file, writeat]
    split
    · exact (Nat.le_trans fits le).trans (Nat.le_add_right _ _)
    · exact (appending.length_write buf).le
  · intro nonempty
    rw [file, writeat, if_neg nonempty]
    exact appending.at_write buf

end LayoutEngine

lemma at_writeat {file enc buf : List UInt8} {off offset : ℕ} (here : At file off enc)
    (apart : off + enc.length ≤ offset ∨ offset + buf.length ≤ off) : At (writeat file offset buf) off enc := by
  rw [writeat]
  split
  · exact here
  · exact At.write_apart (f := ⟨file, offset⟩) here buf apart

lemma at_writeat_self {file buf : List UInt8} {offset : ℕ} (nonempty : buf ≠ []) :
    At (writeat file offset buf) offset buf := by
  rw [writeat, if_neg nonempty]
  exact ByteFile.at_write ⟨file, offset⟩ buf

end HpcToolkit.MetaDb
