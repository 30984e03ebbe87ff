import HpcToolkit.Lib.BucketSet
import HpcToolkit.Packed.Attributes

/-! # The metrics of the pipeline

`Source::metric` looks its settings up in a hash set. Settings are equal by name alone, but their hash mixes in the
description, so the same name with another description can end up in another bucket, as a second metric.
-/

namespace HpcToolkit.Pipeline.Metrics

open Lib Packed

/-- The bits of a hash, moved up by one. -/
def rotate (h : UInt64) : UInt64 := h <<< 1 ||| h >>> 63

section
variable (stringHash : Str → UInt64) (bucket : ℕ → UInt64 → ℕ)

/-- `std::hash<Metric::Settings>` -/
def settingsHash (s : Settings) : UInt64 := stringHash s.name ^^^ rotate (stringHash s.description)

/-- `Metric::Settings::operator==` -/
def settingsEq (s t : Settings) : Bool := s.name = t.name

/-- The metrics of the pipeline, in a hash set of the standard library. `bucket n h` is the bucket of a hash in a
set of `n` elements. -/
def mets : BucketSet Settings Str UInt64 ℕ where
  key := Settings.name
  hash := settingsHash stringHash
  bucket := bucket

/-- `Source::metric`: the metrics afterwards, and which of them is returned. -/
def metric (metrics : List Settings) (s : Settings) : List Settings × ℕ :=
  (mets stringHash bucket).emplace metrics s

/-- A sequence of calls of `Source::metric`. -/
def metricCalls (calls : List Settings) : List Settings × List ℕ := (mets stringHash bucket).emplaceAll [] calls

/-- No two metrics have equal settings, and every call has returned the one with its settings. -/
structure OnePerName (calls : List Settings) (out : List Settings × List ℕ) : Prop where
  distinct : out.1.Pairwise fun s t => settingsEq s t = false
  returned : List.Forall₂ (fun s i => ∃ m, out.1[i]? = some m ∧ settingsEq m s = true) calls out.2

end

lemma rotate_injective : Function.Injective rotate := by
  intro a b same
  have rotated : a.toBitVec.rotateLeft 1 = b.toBitVec.rotateLeft 1 := by
    simpa [rotate, BitVec.rotateLeft, BitVec.rotateLeftAux] using congrArg UInt64.toBitVec same
  refine UInt64.toBitVec_inj.mp (BitVec.eq_of_getLsbD_eq fun i inside => ?_)
  -- Bit `i` is at `i + 1` afterwards, and the last one at `0`.
  have bit := congrArg (BitVec.getLsbD · ((i + 1) % 64)) rotated
  simp only [BitVec.getLsbD_rotateLeft_of_le (show 1 < 64 by decide)] at bit
  rcases Nat.lt_or_eq_of_le (Nat.le_of_lt_succ inside) with less | rfl
  · rw [Nat.mod_eq_of_lt (by omega)] at bit
    simpa [show ¬ i + 1 < 1 by omega, show i + 1 < 64 by omega] using bit
  · simpa using bit

lemma settingsHash_eq_iff {stringHash : Str → UInt64} {s t : Settings} (same : settingsEq s t = true) :
    settingsHash stringHash s = settingsHash stringHash t ↔
      stringHash s.description = stringHash t.description := by
  have name : s.name = t.name := of_decide_eq_true same
  rw [settingsHash, settingsHash, name, UInt64.xor_right_inj, rotate_injective.eq_iff]

lemma onePerName_iff {stringHash : Str → UInt64} {bucket : ℕ → UInt64 → ℕ} {calls : List Settings}
    {out : List Settings × List ℕ} :
    OnePerName calls out ↔ (mets stringHash bucket).Unique calls out := by
  constructor
  · rintro ⟨distinct, returned⟩
    refine ⟨List.pairwise_map.mpr (distinct.imp fun apart => of_decide_eq_false apart), ?_⟩
    refine returned.imp fun s i here => ?_
    obtain ⟨m, listed, same⟩ := here
    rw [listed, Option.map_some]
    exact congrArg some (of_decide_eq_true same)
  · rintro ⟨distinct, returned⟩
    refine ⟨(List.pairwise_map.mp distinct).imp fun apart => decide_eq_false apart, ?_⟩
    refine returned.imp fun s i here => ?_
    obtain ⟨m, listed, same⟩ := Option.map_eq_some_iff.mp here
    exact ⟨m, listed, decide_eq_true same⟩

/-- There is one metric for each name exactly if every call falls into the bucket of the first metric of its name.
Their hashes agree only if the hashes of their descriptions do. -/
theorem metric_onePerName_iff (stringHash : Str → UInt64) (bucket : ℕ → UInt64 → ℕ) :
    (∀ calls, OnePerName calls (metricCalls stringHash bucket calls) ↔
        (mets stringHash bucket).Meets [] calls) ∧
      ∀ s t : Settings, settingsEq s t = true →
        (settingsHash stringHash s = settingsHash stringHash t ↔
          stringHash s.description = stringHash t.description) :=
  ⟨fun calls => onePerName_iff.trans ((mets stringHash bucket).emplaceAll_unique_iff calls),
    fun _ _ same => settingsHash_eq_iff same⟩

/-- A hash of a string, from its bytes. -/
def bytesHash (s : Str) : UInt64 := s.foldl (fun h byte => 31 * h + byte.toUInt64) 7

/-- One name, described as "a" and as "b". -/
def twice : List Settings :=
  [⟨[109], [97], 15, .shownByDefault, none⟩, ⟨[109], [98], 15, .shownByDefault, none⟩]

theorem described_twice_split : ¬ ∀ (stringHash : Str → UInt64) (bucket : ℕ → UInt64 → ℕ) (calls : List Settings),
    OnePerName calls (metricCalls stringHash bucket calls) := by
  intro claim
  have distinct := (claim bytesHash (fun _ h => h.toNat % 13) twice).distinct
  revert distinct
  decide

end HpcToolkit.Pipeline.Metrics
