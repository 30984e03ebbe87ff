import HpcToolkit.Fmt.Records

/-! # Name-value lists that are cut off

The readers with their return codes. A reader that fails has read to the end of the file and leaves its result unset.
`hpcfmt_nvpair_fread` ignores what the reader of strings returns, so only a cut in the count of the list is reported.
-/

open List

namespace HpcToolkit.Fmt

open Lib

/-- `HPCFMT_OK`, `HPCFMT_EOF` and `HPCFMT_ERR` -/
inductive Code where
  | ok
  | eof
  | err
deriving DecidableEq

/-- `hpcfmt_int4_fread` with `hpcio_be4_fread`: the bytes that are missing count as zero. -/
def hpcfmtInt4Fread (file : List UInt8) : Code × UInt32 × List UInt8 :=
  let there := file.take 4
  let code := if there.length = 4 then .ok else if there.length = 0 then .eof else .err
  (code, .ofNat (ofBE (there ++ replicate (4 - there.length) 0)), file.drop 4)

/-- `hpcfmt_str_fread` with an allocator that does not fail. -/
def hpcfmtStrFread (file : List UInt8) : Code × Option (List UInt8) × List UInt8 :=
  match hpcfmtInt4Fread file with
  | (.ok, len, rest) =>
    if len.toNat ≤ rest.length then (.ok, some (rest.take len.toNat), rest.drop len.toNat) else (.err, none, [])
  | (code, _, rest) => (code, none, rest)

/-- `hpcfmt_nvpair_t` as the reader leaves it. -/
abbrev ReadPair := Option (List UInt8) × Option (List UInt8)

def hpcfmtNvpairFread (file : List UInt8) : Code × ReadPair × List UInt8 :=
  let (_, name, file) := hpcfmtStrFread file
  let (_, val, file) := hpcfmtStrFread file
  (.ok, (name, val), file)

/-- The loop of `hpcfmt_nvpairList_fread`. -/
def nvpairLoop : ℕ → List UInt8 → List ReadPair × List UInt8
  | 0, file => ([], file)
  | n + 1, file =>
    let (_, pair, file) := hpcfmtNvpairFread file
    let (pairs, file) := nvpairLoop n file
    (pair :: pairs, file)

def hpcfmtNvpairListFread (file : List UInt8) : Code × List ReadPair × List UInt8 :=
  match hpcfmtInt4Fread file with
  | (.ok, len, file) => (.ok, nvpairLoop len.toNat file)
  | (code, _, file) => (code, [], file)

def NvPair.read (nv : NvPair) : ReadPair := (some nv.name, some nv.val)

variable {nv : NvPair} {nvps : List NvPair} {str : List UInt8}

lemma hpcfmtInt4Fread_write (v : UInt32) (rest : List UInt8) :
    hpcfmtInt4Fread (int4Fwrite v ++ rest) = (.ok, v, rest) := by
  have there : (int4Fwrite v ++ rest).take 4 = int4Fwrite v := take_left' (length_int4Fwrite v)
  have behind : (int4Fwrite v ++ rest).drop 4 = rest := drop_left' (length_int4Fwrite v)
  have value : ofBE (int4Fwrite v) = v.toNat := ofBE_toBE_of_lt v.toNat_lt
  rw [hpcfmtInt4Fread, there, behind, length_int4Fwrite, Nat.sub_self, replicate_zero, append_nil, value,
    UInt32.ofNat_toNat]
  rfl

lemma hpcfmtStrFread_write (short : Short str) (rest : List UInt8) :
    hpcfmtStrFread (strFwrite str ++ rest) = (.ok, some str, rest) := by
  have len : (UInt32.ofNat str.length).toNat = str.length :=
    UInt32.toNat_ofNat_of_lt' (lt_trans short (by decide))
  rw [hpcfmtStrFread, strFwrite, append_assoc, hpcfmtInt4Fread_write]
  simp [len]

lemma hpcfmtNvpairFread_write (short : nv.Short) (rest : List UInt8) :
    hpcfmtNvpairFread (nvpairFwrite nv ++ rest) = (.ok, nv.read, rest) := by
  rw [hpcfmtNvpairFread, nvpairFwrite, append_assoc, hpcfmtStrFread_write short.1]
  simp only [hpcfmtStrFread_write short.2, NvPair.read]

lemma nvpairLoop_write (short : ∀ nv ∈ nvps, nv.Short) (rest : List UInt8) :
    nvpairLoop nvps.length (nvps.flatMap nvpairFwrite ++ rest) = (nvps.map NvPair.read, rest) := by
  induction nvps with
  | nil => rfl
  | cons nv nvps ih =>
    rw [forall_mem_cons] at short
    rw [flatMap_cons, append_assoc, length_cons, nvpairLoop, hpcfmtNvpairFread_write short.1]
    simp only [ih short.2, map_cons]

lemma hpcfmtInt4Fread_ne_ok {file : List UInt8} (cut : file.length < 4) : (hpcfmtInt4Fread file).1 ≠ .ok := by
  have there : (file.take 4).length ≠ 4 := by
    rw [length_take]
    omega
  rw [hpcfmtInt4Fread, if_neg there]
  split_ifs <;> nofun

/-- A list reads back as it was written, and a cut is reported only in its count. -/
theorem nvpairs_readBack_and_cut (count : nvps.length < 2 ^ 32) (short : ∀ nv ∈ nvps, nv.Short) :
    (∀ rest, hpcfmtNvpairListFread (nvpairsFwrite nvps ++ rest) = (.ok, nvps.map NvPair.read, rest)) ∧
      ∀ n < (nvpairsFwrite nvps).length,
        (hpcfmtNvpairListFread ((nvpairsFwrite nvps).take n)).1 ≠ .ok ↔ n < 4 := by
  constructor
  · intro rest
    rw [hpcfmtNvpairListFread, nvpairsFwrite, append_assoc, hpcfmtInt4Fread_write]
    simp only [UInt32.toNat_ofNat_of_lt' count, nvpairLoop_write short rest]
  · intro n inside
    constructor
    · intro reported
      by_contra long
      have split : (nvpairsFwrite nvps).take n =
          int4Fwrite (.ofNat nvps.length) ++ (nvps.flatMap nvpairFwrite).take (n - 4) := by
        rw [nvpairsFwrite, take_append, length_int4Fwrite, take_of_length_le]
        rw [length_int4Fwrite]
        omega
      rw [split, hpcfmtNvpairListFread, hpcfmtInt4Fread_write] at reported
      exact reported rfl
    · intro early
      have missed : (hpcfmtInt4Fread ((nvpairsFwrite nvps).take n)).1 ≠ .ok :=
        hpcfmtInt4Fread_ne_ok (by rw [length_take]; omega)
      rw [hpcfmtNvpairListFread]
      split
      · rename_i file len rest found
        rw [found] at missed
        exact absurd rfl missed
      · rename_i other found
        rw [found] at missed
        exact missed

theorem one_pair_readBack_and_cut :
    (∀ rest, hpcfmtNvpairListFread (nvpairsFwrite [⟨[97], [98]⟩] ++ rest) = (.ok, [(some [97], some [98])], rest)) ∧
      ∀ n < 14, (hpcfmtNvpairListFread ((nvpairsFwrite [⟨[97], [98]⟩]).take n)).1 ≠ .ok ↔ n < 4 :=
  nvpairs_readBack_and_cut (by decide) (by simp [NvPair.Short, Short])

/-- Behind its count a list of one pair is cut off without an error, and the value stays unset. -/
theorem cut_pair_succeeds :
    hpcfmtNvpairListFread ((nvpairsFwrite [⟨[97], [98]⟩]).take 9) = (.ok, [(some [97], none)], []) := by decide

end HpcToolkit.Fmt
