import Mathlib.Tactic
import Mathlib.Data.List.Basic

/-! # Files of bytes and the readers of their records

Fixed-width integers in both byte orders, a file with a position, and readers that either fail or return
a value and move the position. `Reads reader enc x` says that wherever the bytes `enc` stand in a file,
the reader started there returns `x` and stops behind them; records compose along `bind`, so the
round trip of a record is the composition of those of its fields.
-/

open List

namespace HpcToolkit.Lib

/-! ## Fixed-width integers -/

/-- The `width` bytes of `n`, most significant first; higher bits are dropped. -/
def toBE : ℕ → ℕ → List UInt8
  | 0, _ => []
  | width + 1, n => UInt8.ofNat (n / 256 ^ width) :: toBE width n

/-- The number with the given bytes, most significant first. -/
def ofBE (bytes : List UInt8) : ℕ := bytes.foldl (fun acc b => acc * 256 + b.toNat) 0

/-- The `width` bytes of `n`, least significant first. -/
def toLE (width n : ℕ) : List UInt8 := (toBE width n).reverse

/-- The number with the given bytes, least significant first. -/
def ofLE (bytes : List UInt8) : ℕ := ofBE bytes.reverse

@[simp] lemma length_toBE (width n : ℕ) : (toBE width n).length = width := by
  induction width with
  | zero => rfl
  | succ width ih => rw [toBE, length_cons, ih]

@[simp] lemma length_toLE (width n : ℕ) : (toLE width n).length = width := by
  rw [toLE, length_reverse, length_toBE]

lemma foldl_toBE (width n acc : ℕ) :
    (toBE width n).foldl (fun acc b => acc * 256 + b.toNat) acc = acc * 256 ^ width + n % 256 ^ width := by
  induction width generalizing acc with
  | zero => simp [toBE, Nat.mod_one]
  | succ width ih =>
    have digit : (UInt8.ofNat (n / 256 ^ width)).toNat = n / 256 ^ width % 256 := UInt8.toNat_ofNat'
    have whole : n % 256 ^ (width + 1) = n % 256 ^ width + 256 ^ width * (n / 256 ^ width % 256) :=
      Nat.mod_pow_succ
    rw [toBE, foldl_cons, ih, digit, whole]
    ring

lemma ofBE_append_singleton (bytes : List UInt8) (b : UInt8) : ofBE (bytes ++ [b]) = ofBE bytes * 256 + b.toNat := by
  rw [ofBE, foldl_append]
  rfl

lemma ofBE_toBE (width n : ℕ) : ofBE (toBE width n) = n % 256 ^ width := by
  rw [ofBE, foldl_toBE, Nat.zero_mul, Nat.zero_add]

variable {width n : ℕ}

lemma ofBE_toBE_of_lt (bound : n < 256 ^ width) : ofBE (toBE width n) = n := by
  rw [ofBE_toBE, Nat.mod_eq_of_lt bound]

lemma ofLE_toLE_of_lt (bound : n < 256 ^ width) : ofLE (toLE width n) = n := by
  rw [ofLE, toLE, reverse_reverse, ofBE_toBE_of_lt bound]

/-! ## State monads that may fail -/

section
variable {σ α β : Type}

@[simp] lemma bind_apply (x : StateT σ Option α) (f : α → StateT σ Option β) (s : σ) :
    (x >>= f) s = (x s).bind fun p => f p.1 p.2 := rfl

lemma bind_run {x : StateT σ Option α} {s s' : σ} {a : α} (run : x s = some (a, s')) (f : α → StateT σ Option β) :
    (x >>= f) s = f a s' := by
  rw [bind_apply, run]
  rfl

@[simp] lemma pure_apply (x : α) (s : σ) : (pure x : StateT σ Option α) s = some (x, s) := rfl

@[simp] lemma get_apply (s : σ) : (get : StateT σ Option σ) s = some (s, s) := rfl

@[simp] lemma modify_apply (f : σ → σ) (s : σ) : (modify f : StateT σ Option PUnit) s = some (⟨⟩, f s) := rfl

@[simp] lemma set_apply (s s' : σ) : (set s' : StateT σ Option PUnit) s = some (⟨⟩, s') := rfl

@[simp] lemma failure_apply (s : σ) : (failure : StateT σ Option α) s = none := rfl

lemma if_apply {c : Prop} [Decidable c] (x y : StateT σ Option α) (s : σ) :
    (if c then x else y) s = if c then x s else y s := by
  split <;> rfl

end

/-! ## Files -/

lemma length_flatMap_const {α : Type} {encode : α → List UInt8} {size : ℕ}
    (fixed : ∀ x, (encode x).length = size) (l : List α) : (l.flatMap encode).length = size * l.length := by
  induction l with
  | nil => rfl
  | cons x rest ih => rw [flatMap_cons, length_append, fixed, ih, length_cons, Nat.mul_succ, Nat.add_comm]

/-- An open file: its contents and the position of the next read. -/
structure ByteFile where
  bytes : List UInt8
  pos : ℕ

/-- A reader fails, or returns a value and moves on. -/
abbrev Reader (α : Type) := StateT ByteFile Option α

/-- `bytes` has `enc` at offset `off`. -/
def At (bytes : List UInt8) (off : ℕ) (enc : List UInt8) : Prop :=
  ∃ before after, bytes = before ++ enc ++ after ∧ before.length = off

variable {off : ℕ}

lemma At.append {bytes enc enc' : List UInt8} (whole : At bytes off (enc ++ enc')) :
    At bytes off enc ∧ At bytes (off + enc.length) enc' := by
  obtain ⟨before, after, rfl, rfl⟩ := whole
  refine ⟨⟨before, enc' ++ after, by simp, rfl⟩, ⟨before ++ enc, after, by simp, by simp⟩⟩

lemma At.bound {bytes enc : List UInt8} (here : At bytes off enc) :
    off + enc.length ≤ bytes.length := by
  obtain ⟨before, after, rfl, rfl⟩ := here
  simp

lemma At.extract {bytes enc : List UInt8} (here : At bytes off enc) :
    (bytes.drop off).take enc.length = enc := by
  obtain ⟨before, after, rfl, rfl⟩ := here
  simp

lemma At.within {bytes enc : List UInt8} (here : At bytes off enc) (before after : List UInt8) :
    At (before ++ bytes ++ after) (before.length + off) enc := by
  obtain ⟨front, back, rfl, rfl⟩ := here
  exact ⟨before ++ front, back ++ after, by simp, by simp⟩

lemma at_self (before enc after : List UInt8) : At (before ++ enc ++ after) before.length enc :=
  ⟨before, after, rfl, rfl⟩

/-- The next `n` bytes. -/
def takeBytes (n : ℕ) : Reader (List UInt8) := fun f =>
  if f.pos + n ≤ f.bytes.length
  then some ((f.bytes.drop f.pos).take n, { f with pos := f.pos + n })
  else none

/-- A big-endian integer of `width` bytes. -/
def readBE (width : ℕ) : Reader ℕ := do
  let bytes ← takeBytes width
  return ofBE bytes

lemma readBE_apply {width : ℕ} {f : ByteFile} (room : f.pos + width ≤ f.bytes.length) :
    readBE width f = some (ofBE ((f.bytes.drop f.pos).take width), { f with pos := f.pos + width }) := by
  have run : takeBytes width f = some ((f.bytes.drop f.pos).take width, { f with pos := f.pos + width }) := by
    rw [takeBytes, if_pos room]
  rw [readBE, bind_apply, run]
  rfl

/-- A little-endian integer of `width` bytes. -/
def readLE (width : ℕ) : Reader ℕ := do
  let bytes ← takeBytes width
  return ofLE bytes

/-- Wherever `enc` stands, the reader returns `x` and stops behind it. -/
def Reads {α : Type} (reader : Reader α) (enc : List UInt8) (x : α) : Prop :=
  ∀ bytes off, At bytes off enc → reader ⟨bytes, off⟩ = some (x, ⟨bytes, off + enc.length⟩)

section
variable {α β : Type} {enc enc' : List UInt8} {x : α} {y : β}

lemma reads_pure (x : α) : Reads (pure x : Reader α) [] x := fun _ _ _ => rfl

variable {reader : Reader α} {next : α → Reader β}

lemma Reads.bind (first : Reads reader enc x)
    (second : Reads (next x) enc' y) : Reads (reader >>= next) (enc ++ enc') y := by
  intro bytes off here
  obtain ⟨front, back⟩ := here.append
  have run : (reader >>= next) ⟨bytes, off⟩ = (reader ⟨bytes, off⟩).bind fun p => next p.1 p.2 := rfl
  rw [run, first bytes off front, Option.bind_some, second bytes _ back, length_append, Nat.add_assoc]

lemma Reads.finish (first : Reads reader enc x)
    (result : Reads (next x) [] y) : Reads (reader >>= next) enc y := by
  have whole := first.bind result
  rwa [append_nil] at whole

lemma Reads.map (f : α → β) (first : Reads reader enc x) :
    Reads (do return f (← reader)) enc (f x) :=
  first.finish (reads_pure (f x))

lemma reads_takeBytes (enc : List UInt8) : Reads (takeBytes enc.length) enc enc := by
  intro bytes off here
  rw [takeBytes, if_pos here.bound, here.extract]

lemma reads_readBE (width n : ℕ) (bound : n < 256 ^ width) : Reads (readBE width) (toBE width n) n := by
  have bytes := reads_takeBytes (toBE width n)
  rw [length_toBE] at bytes
  have value := bytes.map ofBE
  rwa [ofBE_toBE_of_lt bound] at value

lemma reads_readLE (width n : ℕ) (bound : n < 256 ^ width) : Reads (readLE width) (toLE width n) n := by
  have bytes := reads_takeBytes (toLE width n)
  rw [length_toLE] at bytes
  have value := bytes.map ofLE
  rwa [ofLE_toLE_of_lt bound] at value

/-- `n` records in a row. -/
def readMany (reader : Reader α) : ℕ → Reader (List α)
  | 0 => return []
  | n + 1 => do
    let x ← reader
    let xs ← readMany reader n
    return x :: xs

variable {xs : List α} {encode : α → List UInt8}

lemma reads_readMany_map {reader : Reader β} {f : α → β}
    (each : ∀ x ∈ xs, Reads reader (encode x) (f x)) :
    Reads (readMany reader xs.length) (xs.flatMap encode) (xs.map f) := by
  induction xs with
  | nil => exact reads_pure []
  | cons x rest ih =>
    rw [flatMap_cons]
    refine (each x (.head _)).bind ?_
    exact (ih fun y member => each y (.tail _ member)).map fun ys => f x :: ys

lemma reads_readMany (each : ∀ x ∈ xs, Reads reader (encode x) x) :
    Reads (readMany reader xs.length) (xs.flatMap encode) xs := by
  have images := reads_readMany_map (f := id) each
  rwa [map_id] at images

end

/-! ## Writing -/

/-- A write of some bytes at the position; a gap behind the end of the file is filled with zeros. -/
def ByteFile.write (f : ByteFile) (data : List UInt8) : ByteFile where
  bytes := f.bytes.take f.pos ++ replicate (f.pos - f.bytes.length) 0 ++ data ++
    f.bytes.drop (f.pos + data.length)
  pos := f.pos + data.length

/-- The next write does not overwrite anything. -/
def ByteFile.Appending (f : ByteFile) : Prop := f.bytes.length ≤ f.pos

section
variable {f : ByteFile}

lemma ByteFile.Appending.write_bytes (appending : f.Appending) (data : List UInt8) :
    (f.write data).bytes = f.bytes ++ replicate (f.pos - f.bytes.length) 0 ++ data := by
  have none : f.bytes.drop (f.pos + data.length) = [] := drop_of_length_le (appending.trans (Nat.le_add_right _ _))
  rw [write, none, append_nil, take_of_length_le appending]

lemma ByteFile.Appending.length_write (appending : f.Appending) (data : List UInt8) :
    (f.write data).bytes.length = f.pos + data.length := by
  have bound : f.bytes.length ≤ f.pos := appending
  rw [appending.write_bytes, length_append, length_append, length_replicate]
  omega

lemma ByteFile.Appending.at_write (appending : f.Appending) (data : List UInt8) :
    At (f.write data).bytes f.pos data := by
  have bound : f.bytes.length ≤ f.pos := appending
  refine ⟨f.bytes ++ replicate (f.pos - f.bytes.length) 0, [], ?_, ?_⟩
  · rw [appending.write_bytes, append_nil]
  · rw [length_append, length_replicate]
    omega

lemma ByteFile.Appending.isPrefix_write (appending : f.Appending) (data : List UInt8) :
    f.bytes <+: (f.write data).bytes := by
  rw [appending.write_bytes, append_assoc]
  exact prefix_append _ _

lemma ByteFile.at_write (f : ByteFile) (data : List UInt8) : At (f.write data).bytes f.pos data := by
  refine ⟨f.bytes.take f.pos ++ replicate (f.pos - f.bytes.length) 0, f.bytes.drop (f.pos + data.length), rfl, ?_⟩
  rw [length_append, length_take, length_replicate]
  omega

lemma At.write_apart {enc : List UInt8} (here : At f.bytes off enc) (data : List UInt8)
    (apart : off + enc.length ≤ f.pos ∨ f.pos + data.length ≤ off) : At (f.write data).bytes off enc := by
  obtain ⟨before, after, whole, length⟩ := here
  rw [ByteFile.write, whole]
  rcases apart with behind | ahead
  · refine ⟨before, after.take (f.pos - (off + enc.length)) ++
      replicate (f.pos - (before ++ enc ++ after).length) 0 ++ data ++
      (before ++ enc ++ after).drop (f.pos + data.length), ?_, length⟩
    have kept : (before ++ enc ++ after).take f.pos = before ++ enc ++ after.take (f.pos - (off + enc.length)) := by
      rw [take_append, length_append, length, take_of_length_le]
      rw [length_append]
      omega
    rw [kept]
    simp
  · refine ⟨(before ++ enc ++ after).take f.pos ++
      replicate (f.pos - (before ++ enc ++ after).length) 0 ++ data ++ before.drop (f.pos + data.length),
      after, ?_, ?_⟩
    · have kept : (before ++ enc ++ after).drop (f.pos + data.length) =
          before.drop (f.pos + data.length) ++ (enc ++ after) := by
        rw [append_assoc, drop_append_of_le_length]
        omega
      rw [kept]
      simp
    · simp only [length_append, length_take, length_replicate, length_drop]
      omega

lemma At.of_isPrefix {bytes bytes' enc : List UInt8} (here : At bytes off enc) (isPrefix : bytes <+: bytes') :
    At bytes' off enc := by
  obtain ⟨before, after, rfl, length⟩ := here
  obtain ⟨more, rfl⟩ := isPrefix
  exact ⟨before, after ++ more, by simp, length⟩

end

end HpcToolkit.Lib
