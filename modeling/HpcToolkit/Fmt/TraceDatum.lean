import HpcToolkit.Fmt.Records
import HpcToolkit.Lib.Memory
import HpcToolkit.Hpcio.OutBuf

/-! # Trace records

Each of the three encoders takes the bytes of a number by shifts, from the most significant byte on, and puts them to a
different place: the end of a file, memory that a pointer walks through, or an array on the stack that goes to an output
buffer. The decoder shifts the bytes back.
-/

open List hiding Vector

namespace HpcToolkit.Fmt.Trace

open Lib OutBuf

/-! ## Numbers -/

/-- `for (shift = 8 * width - 8; shift >= 0; shift -= 8)` -/
def shifts : ℕ → List ℕ
  | 0 => []
  | width + 1 => 8 * width :: shifts width

/-- `(val >> shift) & 0xff` -/
def byteAt (val shift : ℕ) : UInt8 := .ofNat (val >>> shift &&& 0xff)

/-- `hpcio_be4_fwrite` and `hpcio_be8_fwrite`, to the end of a file. -/
def beFwrite (width val : ℕ) (file : List UInt8) : List UInt8 :=
  (shifts width).foldl (fun file shift => file ++ [byteAt val shift]) file

/-- `hpcio_be4_swrite` and `hpcio_be8_swrite`: the memory and the pointer behind the bytes. -/
def beSwrite (width val : ℕ) (at_ : Mem × ℕ) : Mem × ℕ :=
  (shifts width).foldl (fun (m, buf) shift => (m.put buf [byteAt val shift], buf + 1)) at_

/-- The loops that fill the array `buf` from `k` on. -/
def fillBuf (width val : ℕ) (at_ : List UInt8 × ℕ) : List UInt8 × ℕ :=
  (shifts width).foldl (fun (buf, k) shift => (buf.set k (byteAt val shift), k + 1)) at_

/-- `hpcio_be4_fread` and `hpcio_be8_fread`: the number, how many bytes were read, and the rest of the file. -/
def beFread : List ℕ → ℕ → List UInt8 → ℕ × ℕ × List UInt8
  | [], v, file => (v, 0, file)
  | _ :: _, v, [] => (v, 0, [])
  | shift :: shifts, v, c :: file =>
    let (v, numRead, rest) := beFread shifts (v ||| c.toNat <<< shift) file
    (v, numRead + 1, rest)

/-- The result of a reading function. -/
inductive Result (α : Type) where
  | ok (value : α) (rest : List UInt8)
  | err
  | eof

/-- `hpcfmt_int4_fread` and `hpcfmt_int8_fread`: a file that has no byte left is at its end. -/
def intFread (width : ℕ) (file : List UInt8) : Result ℕ :=
  let (v, numRead, rest) := beFread (shifts width) 0 file
  if numRead ≠ width then if numRead = 0 then .eof else .err
  else .ok v rest

/-! ## Trace records -/

/-- `HPCTRACE_HDR_FLAGS_GET_BIT` of the position `HPCTRACE_HDR_FLAGS_DATA_CENTRIC_BIT_POS`. -/
def dataCentric (flags : UInt64) : Bool := flags >>> 0 &&& 1 != 0

structure Datum where
  comp : UInt64
  cpId : UInt32
  metricId : UInt32
deriving DecidableEq

def metricIdNull : UInt32 := 0x7fffffff

def hpctraceFmtDatumFread (flags : UInt64) (file : List UInt8) : Result Datum :=
  match intFread 8 file with
  | .eof => .eof
  | .err => .err
  | .ok comp file =>
    match intFread 4 file with
    | .ok cpId file =>
      if dataCentric flags then
        match intFread 4 file with
        | .ok metricId file => .ok ⟨.ofNat comp, .ofNat cpId, .ofNat metricId⟩ file
        | _ => .err
      else .ok ⟨.ofNat comp, .ofNat cpId, metricIdNull⟩ file
    | _ => .err

/-- `sizeof(hpctrace_fmt_datum_t)` -/
def bufSZ : ℕ := 16

/-- The array and the number of bytes in it; before the loops it has any contents. -/
def datumBuf (x : Datum) (flags : UInt64) (buf : Vector UInt8 bufSZ) : List UInt8 × ℕ :=
  let (buf, k) := fillBuf 8 x.comp.toNat (buf.toList, 0)
  let (buf, k) := fillBuf 4 x.cpId.toNat (buf, k)
  if dataCentric flags then fillBuf 4 x.metricId.toNat (buf, k) else (buf, k)

def hpctraceFmtDatumOutbuf (x : Datum) (flags : UInt64) (buf : Vector UInt8 bufSZ) (s : Sys) : Sys × Option ℤ :=
  let (buf, k) := datumBuf x flags buf
  let (s, ret) := hpcioOutbufWrite s (buf.take k)
  (s, ret.map fun written => if written ≠ (k : ℤ) then HPCFMT_ERR else HPCFMT_OK)

def hpctraceFmtDatumFwrite (x : Datum) (flags : UInt64) (outfs : List UInt8) : List UInt8 :=
  let outfs := beFwrite 8 x.comp.toNat outfs
  let outfs := beFwrite 4 x.cpId.toNat outfs
  if dataCentric flags then beFwrite 4 x.metricId.toNat outfs else outfs

def hpctraceFmtDatumSwrite (x : Datum) (flags : UInt64) (at_ : Mem × ℕ) : Mem × ℕ :=
  let at_ := beSwrite 8 x.comp.toNat at_
  let at_ := beSwrite 4 x.cpId.toNat at_
  if dataCentric flags then beSwrite 4 x.metricId.toNat at_ else at_

/-- Read data until the reader does not succeed: the data, and whether the end of the file was reached. -/
def readAll (flags : UInt64) : ℕ → List UInt8 → Option (List Datum × Bool)
  | 0, _ => none
  | fuel + 1, file =>
    match hpctraceFmtDatumFread flags file with
    | .eof => some ([], true)
    | .err => some ([], false)
    | .ok x rest => (readAll flags fuel rest).map fun (data, ended) => (x :: data, ended)

/-! ## The encoders -/

lemma map_byteAt (width val : ℕ) : (shifts width).map (byteAt val) = toBE width val := by
  induction width with
  | zero => rfl
  | succ width ih =>
    have top : byteAt val (8 * width) = UInt8.ofNat (val / 256 ^ width) := by
      have low : val / 256 ^ width &&& 255 = val / 256 ^ width % 2 ^ 8 := Nat.and_two_pow_sub_one_eq_mod _ 8
      have scale : 2 ^ (8 * width) = 256 ^ width := pow_mul 2 8 width
      rw [byteAt, Nat.shiftRight_eq_div_pow, scale, low]
      exact UInt8.ofNat_mod_size
    rw [shifts, map_cons, ih, top, toBE]

lemma beFwrite_eq (width val : ℕ) (file : List UInt8) : beFwrite width val file = file ++ toBE width val := by
  rw [beFwrite, ← map_byteAt]
  induction shifts width generalizing file with
  | nil => simp
  | cons shift shifts ih => rw [foldl_cons, ih, map_cons, append_assoc, singleton_append]

lemma beSwrite_eq (width val : ℕ) (m : Mem) (buf : ℕ) :
    beSwrite width val (m, buf) = (m.put buf (toBE width val), buf + width) := by
  have walk (l : List ℕ) (m : Mem) (buf : ℕ) :
      l.foldl (fun (m, buf) shift => (Mem.put m buf [byteAt val shift], buf + 1)) (m, buf) =
        (m.put buf (l.map (byteAt val)), buf + l.length) := by
    induction l generalizing m buf with
    | nil => simp
    | cons shift l ih =>
      rw [foldl_cons, ih, map_cons, ← Mem.put_cons, length_cons, Nat.add_assoc, Nat.add_comm 1]
  have length : (shifts width).length = width := by
    rw [← length_map (byteAt val), map_byteAt, length_toBE]
  rw [beSwrite, walk, map_byteAt, length]

lemma fillBuf_eq (width val : ℕ) (filled room after : List UInt8) (enough : room.length = width) :
    fillBuf width val (filled ++ room ++ after, filled.length) =
      (filled ++ toBE width val ++ after, filled.length + width) := by
  have walk (l : List ℕ) (filled room : List UInt8) (enough : room.length = l.length) :
      l.foldl (fun (buf, k) shift => (List.set buf k (byteAt val shift), k + 1))
          (filled ++ room ++ after, filled.length) =
        (filled ++ l.map (byteAt val) ++ after, filled.length + l.length) := by
    induction l generalizing filled room with
    | nil => simp [length_eq_zero_iff.mp enough]
    | cons shift l ih =>
      obtain ⟨b, room, rfl⟩ := exists_cons_of_length_eq_add_one enough
      have stored : (filled ++ (b :: room) ++ after).set filled.length (byteAt val shift) =
          (filled ++ [byteAt val shift]) ++ room ++ after := by
        simp [set_append_right]
      have next := ih (filled ++ [byteAt val shift]) room (by simpa using enough)
      rw [length_append, length_singleton] at next
      change foldl _ (List.set _ _ (byteAt val shift), filled.length + 1) l = _
      rw [stored, next, map_cons, length_cons, Nat.add_assoc, Nat.add_comm 1]
      simp
  have length : (shifts width).length = width := by
    rw [← length_map (byteAt val), map_byteAt, length_toBE]
  rw [fillBuf, walk _ _ _ (enough.trans length.symm), map_byteAt, length]

/-! ## The decoder -/

lemma beFread_toBE (width a n : ℕ) (rest : List UInt8) :
    beFread (shifts width) (a * 256 ^ width) (toBE width n ++ rest) = (a * 256 ^ width + n % 256 ^ width, width, rest) := by
  induction width generalizing a with
  | zero => simp [shifts, toBE, beFread, Nat.mod_one]
  | succ width ih =>
    have digit : (UInt8.ofNat (n / 256 ^ width)).toNat = n / 256 ^ width % 256 := UInt8.toNat_ofNat'
    have whole : n % 256 ^ (width + 1) = n % 256 ^ width + 256 ^ width * (n / 256 ^ width % 256) :=
      Nat.mod_pow_succ
    have joined : a * 256 ^ (width + 1) ||| (n / 256 ^ width % 256) <<< (8 * width) =
        (a * 256 + n / 256 ^ width % 256) * 256 ^ width := by
      have scale : 2 ^ (8 * width) = 256 ^ width := pow_mul 2 8 width
      have scaleUp : 2 ^ (8 * (width + 1)) = 256 ^ (width + 1) := pow_mul 2 8 (width + 1)
      have below : n / 256 ^ width % 256 * 2 ^ (8 * width) < 2 ^ (8 * (width + 1)) := by
        rw [scale, scaleUp, pow_succ, Nat.mul_comm]
        exact Nat.mul_lt_mul_of_pos_left (Nat.mod_lt _ (by decide)) (by positivity)
      have sum := Nat.two_pow_add_eq_or_of_lt below a
      rw [Nat.shiftLeft_eq, Nat.mul_comm a, ← scaleUp, ← sum, scale, scaleUp]
      ring
    rw [shifts, toBE, cons_append, beFread, digit, joined, ih, whole]
    simp only [Prod.mk.injEq, and_true]
    ring

lemma intFread_toBE (width : ℕ) {n : ℕ} (bound : n < 256 ^ width) (rest : List UInt8) :
    intFread width (toBE width n ++ rest) = .ok n rest := by
  have read := beFread_toBE width 0 n rest
  rw [Nat.zero_mul, Nat.zero_add, Nat.mod_eq_of_lt bound] at read
  simp [intFread, read]

lemma intFread_nil {width : ℕ} : intFread (width + 1) [] = .eof := by
  simp [intFread, shifts, beFread]

/-! ## Data and their bytes -/

/-- The bytes of a datum. -/
def encode (flags : UInt64) (x : Datum) : List UInt8 :=
  toBE 8 x.comp.toNat ++ (toBE 4 x.cpId.toNat ++ if dataCentric flags then toBE 4 x.metricId.toNat else [])

/-- The datum as it is read: without the flag it has no metric. -/
def Datum.seen (flags : UInt64) (x : Datum) : Datum :=
  if dataCentric flags then x else { x with metricId := metricIdNull }

variable (flags : UInt64) (x : Datum)

lemma datumFwrite_eq (outfs : List UInt8) : hpctraceFmtDatumFwrite x flags outfs = outfs ++ encode flags x := by
  simp only [hpctraceFmtDatumFwrite, beFwrite_eq, encode]
  cases dataCentric flags <;> simp

lemma datumSwrite_eq (m : Mem) (buf : ℕ) :
    hpctraceFmtDatumSwrite x flags (m, buf) = (m.put buf (encode flags x), buf + (encode flags x).length) := by
  have eight : (toBE 8 x.comp.toNat).length = 8 := length_toBE 8 _
  have four : (toBE 4 x.cpId.toNat).length = 4 := length_toBE 4 _
  have joined := Mem.put_append (m := m) (a := buf) (toBE 8 x.comp.toNat) (toBE 4 x.cpId.toNat)
  have all := Mem.put_append (m := m) (a := buf) (toBE 8 x.comp.toNat ++ toBE 4 x.cpId.toNat)
    (toBE 4 x.metricId.toNat)
  rw [eight] at joined
  rw [length_append, eight, four, append_assoc, ← Nat.add_assoc] at all
  simp only [hpctraceFmtDatumSwrite, beSwrite_eq, encode, joined]
  cases dataCentric flags with
  | false => simp
  | true => simp [all]

lemma datumBuf_eq (buf : Vector UInt8 bufSZ) :
    (datumBuf x flags buf).1.take (datumBuf x flags buf).2 = encode flags x ∧
      (datumBuf x flags buf).2 = (encode flags x).length := by
  have size : buf.toList.length = 16 := buf.length_toList
  obtain ⟨comp, rest, whole, eight⟩ : ∃ comp rest, buf.toList = comp ++ rest ∧ comp.length = 8 :=
    ⟨_, _, (List.take_append_drop 8 _).symm, by simp [size]⟩
  obtain ⟨cpId, metric, rfl, four⟩ : ∃ cpId metric, rest = cpId ++ metric ∧ cpId.length = 4 :=
    ⟨_, _, (take_append_drop 4 _).symm, by simp [whole, eight] at size; simp; omega⟩
  have last : metric.length = 4 := by
    simp only [whole, length_append] at size
    omega
  have first := fillBuf_eq 8 x.comp.toNat [] comp (cpId ++ metric) eight
  have second := fillBuf_eq 4 x.cpId.toNat (toBE 8 x.comp.toNat) cpId metric four
  have third := fillBuf_eq 4 x.metricId.toNat (toBE 8 x.comp.toNat ++ toBE 4 x.cpId.toNat) metric [] last
  simp only [nil_append, length_nil, append_assoc, length_toBE, length_append, append_nil,
    Nat.zero_add] at first second third
  rw [datumBuf, whole, first]
  simp only [second]
  cases flag : dataCentric flags with
  | false => simp [encode, flag, ← append_assoc]
  | true => simp [encode, flag, third]

lemma datumFread_encode (rest : List UInt8) :
    hpctraceFmtDatumFread flags (encode flags x ++ rest) = .ok (x.seen flags) rest := by
  have metric := intFread_toBE 4 x.metricId.toNat_lt rest
  simp only [hpctraceFmtDatumFread, encode, append_assoc, intFread_toBE 8 x.comp.toNat_lt,
    intFread_toBE 4 x.cpId.toNat_lt]
  cases flag : dataCentric flags with
  | false => simp [Datum.seen, flag]
  | true => simp [Datum.seen, flag, metric]

lemma readAll_flatMap (data : List Datum) (more : ℕ) :
    readAll flags (data.length + 1 + more) (data.flatMap (encode flags)) = some (data.map (Datum.seen flags), true) := by
  induction data with
  | nil =>
    rw [length_nil, Nat.add_comm, ← Nat.add_assoc, readAll]
    simp [hpctraceFmtDatumFread, intFread_nil]
  | cons x data ih =>
    rw [length_cons, Nat.add_right_comm _ 1 more, readAll, flatMap_cons, datumFread_encode]
    simp [ih]

/-- The three encoders emit the same bytes, and the decoder reads any number of data back up to the end of the file. -/
theorem traceData_agree (flags : UInt64) (data : List Datum) (more : ℕ) :
    (∀ x : Datum,
      (∀ outfs, hpctraceFmtDatumFwrite x flags outfs = outfs ++ encode flags x) ∧
      (∀ m buf, hpctraceFmtDatumSwrite x flags (m, buf) = (m.put buf (encode flags x), buf + (encode flags x).length)) ∧
      (∀ buf s, hpctraceFmtDatumOutbuf x flags buf s =
        let (s, ret) := hpcioOutbufWrite s (encode flags x)
        (s, ret.map fun written => if written ≠ ((encode flags x).length : ℤ) then HPCFMT_ERR else HPCFMT_OK)) ∧
      ∀ rest, hpctraceFmtDatumFread flags (encode flags x ++ rest) = .ok (x.seen flags) rest) ∧
    readAll flags (data.length + 1 + more) (data.flatMap (encode flags)) = some (data.map (Datum.seen flags), true) := by
  refine ⟨fun x => ⟨datumFwrite_eq flags x, datumSwrite_eq flags x, ?_, datumFread_encode flags x⟩,
    readAll_flatMap flags data more⟩
  intro buf s
  obtain ⟨bytes, length⟩ := datumBuf_eq flags x buf
  rw [length] at bytes
  simp only [hpctraceFmtDatumOutbuf, length, bytes]

end HpcToolkit.Fmt.Trace
