import HpcToolkit.X86.StackTracking

/-! # Fix-ups of the intervals of known routines

For routines whose prologue the tracking does not follow there are fix-ups, which recognize the first bytes of the code
and correct the recipes. Each compares all bytes of its signature, except that `matches` takes the size of a pointer for
that of the array, and that the comparison of strings ends at a zero byte.
-/

open List

namespace HpcToolkit.X86.FixUps

/-- `strncmp` finds no difference in the first `n` bytes, or up to a zero byte. -/
def strncmpEqual : ℕ → List UInt8 → List UInt8 → Bool
  | 0, _, _ => true
  | n + 1, a :: as, b :: bs => decide (a = b) && (decide (a = 0) || strncmpEqual n as bs)
  | _ + 1, _, _ => false

/-- The comparison of the code with the first `siglen` bytes of a signature. -/
def comparesEqual (siglen : ℕ) (sig code : List UInt8) : Bool :=
  decide (siglen < code.length) && strncmpEqual siglen sig code

/-- A fix-up: its signature arrays, whether it recognizes the code, and how it adjusts the recipes of the intervals;
`none` where a null pointer ends the process. -/
structure FixUp where
  signatures : List (List UInt8)
  recognizes : List UInt8 → Bool
  adjust : List X86Recipe → Option (List X86Recipe)

/-- The call of a fix-up: what it returns, and the recipes afterwards. -/
def FixUp.run (fn : FixUp) (code : List UInt8) (list : List X86Recipe) : Option (Bool × List X86Recipe) :=
  if fn.recognizes code then (fn.adjust list).map fun adjusted => (true, adjusted) else some (false, list)

/-- A fix-up that compares all of its one signature. -/
def forSignature (sig : List UInt8) (adjust : List X86Recipe → Option (List X86Recipe)) : FixUp :=
  ⟨[sig], comparesEqual sig.length sig, adjust⟩

/-- The walk to the first standard frame, which runs into the end of a list without one, and the change behind it. -/
def fromStdFrame (change : X86Recipe → List X86Recipe → List X86Recipe) :
    List X86Recipe → Option (List X86Recipe)
  | [] => none
  | xr :: rest =>
    if xr.raStatus = .stdFrame then some (change xr (xr :: rest)) else (fromStdFrame change rest).map (xr :: ·)

def iccVariantSignature : List UInt8 :=
  [0x53, 0x8b, 0xdc, 0x83, 0xe4, 0xe0, 0x55, 0x55, 0x8b, 0x6b, 0x04, 0x89, 0x6c, 0x24, 0x04, 0x8b, 0xec]

def adjustIccVariantIntervals : FixUp :=
  forSignature iccVariantSignature <| fromStdFrame fun first =>
    let raCorrection := first.reg.spRaPos - 4
    let bpCorrection := first.reg.spBpPos
    map fun xr => { xr with reg := { xr.reg with
      bpRaPos := xr.reg.bpRaPos - raCorrection, bpBpPos := xr.reg.bpBpPos - bpCorrection
      spRaPos := xr.reg.spRaPos - raCorrection, spBpPos := xr.reg.spBpPos - bpCorrection } }

def main32Signature : List UInt8 := [0x8d, 0x4c, 0x24, 0x04, 0x83, 0xe4, 0xf0, 0xff, 0x71, 0xfc]

def adjust32bitMainIntervals : FixUp :=
  forSignature main32Signature fun list => some <| list.map fun xr =>
    if xr.raStatus = .stdFrame then
      { xr with reg := { xr.reg with bpRaPos := 4, bpBpPos := 0, spRaPos := 4, spBpPos := 0 } }
    else xr

/-- The frame is found from BP, with the return address eight bytes above it. -/
def toBpFrame (xr : X86Recipe) : X86Recipe := ⟨.bpFrame, { xr.reg with bpRaPos := 8, bpBpPos := 0 }⟩

def gccMain64Signature : List UInt8 :=
  [0x4c, 0x8d, 0x54, 0x24, 0x08, 0x48, 0x83, 0xe4, 0xe0, 0x41, 0xff, 0x72, 0xf8, 0x55, 0x48, 0x89, 0xe5]

def adjustGccMain64Intervals : FixUp :=
  forSignature gccMain64Signature <| fromStdFrame fun _ => map fun xr =>
    if xr.raStatus = .stdFrame ∨ xr.raStatus = .bpFrame then toBpFrame xr else xr

def intelAlign32Signature : List UInt8 :=
  [0x53, 0x48, 0x89, 0xe3, 0x48, 0x83, 0xe4, 0xe0, 0x55, 0x55, 0x48, 0x8b, 0x6b, 0x08, 0x48, 0x89, 0x6c, 0x24, 0x08,
    0x48, 0x89, 0xe5]

def adjustIntelAlign32Intervals : FixUp :=
  forSignature intelAlign32Signature <| fromStdFrame fun _ => map fun xr =>
    if (xr.raStatus = .stdFrame ∨ xr.raStatus = .bpFrame) ∧ xr.reg.bpStatus = .saved then toBpFrame xr else xr

def intelAlign64Signature : List UInt8 :=
  [0x53, 0x48, 0x89, 0xe3, 0x48, 0x83, 0xe4, 0xc0, 0x55, 0x55, 0x48, 0x8b, 0x6b, 0x08, 0x48, 0x89, 0x6c, 0x24, 0x08,
    0x48, 0x89, 0xe5]

def adjustIntelAlign64Intervals : FixUp :=
  forSignature intelAlign64Signature <| fromStdFrame fun _ => map fun xr =>
    if xr.raStatus = .stdFrame ∨ xr.raStatus = .bpFrame then toBpFrame xr else xr

def intelmicComp13ForMainSignature : List UInt8 :=
  [0x53, 0x48, 0x89, 0xe3, 0x48, 0x83, 0xe4, 0x80, 0x48, 0x83, 0xec, 0x78, 0x55, 0x48, 0x8b, 0x6b, 0x08, 0x48, 0x89,
    0x6c, 0x24, 0x08, 0x48, 0x89, 0xe5]

def intelmicComp13KmpAllocThreadSignature : List UInt8 :=
  [0x53, 0x48, 0x89, 0xe3, 0x48, 0x83, 0xe4, 0xc0, 0x48, 0x83, 0xec, 0x38, 0x55, 0x48, 0x8b, 0x6b, 0x08, 0x48, 0x89,
    0x6c, 0x24, 0x08, 0x48, 0x89, 0xe5]

/-- Standard frames get the return address eight bytes above BP. -/
def atStdFrames (list : List X86Recipe) : Option (List X86Recipe) :=
  some <| list.map fun xr =>
    if xr.raStatus = .stdFrame then { xr with reg := { xr.reg with bpRaPos := 8, bpBpPos := 0 } } else xr

/-- The length is that of the first signature; the second one is as long. -/
def adjustIntelmicIntervals : FixUp where
  signatures := [intelmicComp13ForMainSignature, intelmicComp13KmpAllocThreadSignature]
  recognizes code :=
    let siglen := intelmicComp13ForMainSignature.length
    comparesEqual siglen intelmicComp13ForMainSignature code ||
      comparesEqual siglen intelmicComp13KmpAllocThreadSignature code
  adjust := atStdFrames

def intel11F90mainSignature : List UInt8 :=
  [0x53, 0x48, 0x89, 0xe3, 0x48, 0x83, 0xe4, 0x80, 0x55, 0x55, 0x48, 0x8b, 0x6b, 0x08, 0x48, 0x89, 0x6c, 0x24, 0x08,
    0x48]

def adjustIntel11F90mainIntervals : FixUp :=
  forSignature intel11F90mainSignature atStdFrames

def dlRuntimeResolveSignature1 : List UInt8 :=
  [0x48, 0x83, 0xec, 0x78, 0x48, 0x89, 0x44, 0x24, 0x40, 0x48, 0x89, 0x4c, 0x24, 0x48, 0x48, 0x89, 0x54, 0x24, 0x50,
    0x48, 0x89, 0x74, 0x24, 0x58, 0x48, 0x89, 0x7c, 0x24, 0x60, 0x4c, 0x89, 0x44, 0x24, 0x68, 0x4c, 0x89, 0x4c, 0x24,
    0x70, 0x66, 0x0f, 0x1b, 0x04, 0x24, 0x66, 0x0f, 0x1b, 0x4c, 0x24, 0x10, 0x66, 0x0f, 0x1b, 0x54, 0x24, 0x20, 0x66,
    0x0f, 0x1b, 0x5c, 0x24, 0x30, 0x48, 0x8b, 0xb4, 0x24, 0x80, 0x00, 0x00]

def dlRuntimeResolveSignature2 : List UInt8 :=
  [0x48, 0x83, 0xec, 0x38, 0x48, 0x89, 0x04, 0x24, 0x48, 0x89, 0x4c, 0x24, 0x08, 0x48, 0x89, 0x54, 0x24, 0x10, 0x48,
    0x89, 0x74, 0x24, 0x18, 0x48, 0x89, 0x7c, 0x24, 0x20, 0x4c, 0x89, 0x44, 0x24, 0x28, 0x4c, 0x89, 0x4c, 0x24, 0x30,
    0x48, 0x8b, 0x74, 0x24, 0x40]

/-- `matches`: the length is `sizeof` of a pointer. -/
def isMatch (sig code : List UInt8) : Bool := comparesEqual 8 sig code

def adjustDlRuntimeResolveUnwindIntervals : FixUp where
  signatures := [dlRuntimeResolveSignature1, dlRuntimeResolveSignature2]
  recognizes code := isMatch dlRuntimeResolveSignature1 code || isMatch dlRuntimeResolveSignature2 code
  adjust list := some <| list.map fun xr => { xr with reg := { xr.reg with spRaPos := xr.reg.spRaPos + 16 } }

def pgiMpPexitSignature : List UInt8 :=
  [0x41, 0x5b, 0x4c, 0x89, 0x9c, 0x24, 0xb0, 0x00, 0x00, 0x00, 0x48, 0x83, 0x7c, 0x24, 0x08, 0x01]

/-- The recipes behind the first instruction of `mp_pexit`. -/
def pgiMpPexitRecipe (xr : X86Recipe) : X86Recipe :=
  if xr.raStatus = .spRelative then { xr with reg := { xr.reg with spRaPos := 0xb0, spBpPos := 0 } } else xr

def adjustPgiMpPexitIntervals : FixUp :=
  forSignature pgiMpPexitSignature fun list => some (list.map pgiMpPexitRecipe)

def gccAdjustStackSignature : List UInt8 :=
  [0x4c, 0x8d, 0x54, 0x24, 0x08, 0x48, 0x83, 0xe4, 0xc0, 0x41, 0xff, 0x72, 0xf8, 0x55, 0x48, 0x89, 0xe5]

def adjustGccStackIntervals : FixUp :=
  forSignature gccAdjustStackSignature fun list => some <| list.map fun xr =>
    let xr := if xr.raStatus = .stdFrame then toBpFrame xr else xr
    if xr.raStatus = .bpFrame then
      let bpRaPos := match xr.reg.bpStatus with
        | .saved => 8
        | .unchanged => 0
        | .hosed => xr.reg.bpRaPos
      { xr with reg := { xr.reg with bpRaPos := bpRaPos, bpBpPos := 0 } }
    else xr

def failSignature : List UInt8 := [0xc3, 0xc3, 0xc3, 0xc3, 0xc3]

/-- `x86_fail_intervals` ends the process on purpose. -/
def failIntervals : FixUp := forSignature failSignature fun _ => none

/-- `x86_interval_fixup_routine_vector` -/
def intervalFixupRoutineVector : List FixUp :=
  [adjustIccVariantIntervals, adjust32bitMainIntervals, adjustGccMain64Intervals, adjustIntelAlign32Intervals,
    adjustIntelAlign64Intervals, adjustIntelmicIntervals, adjustIntel11F90mainIntervals,
    adjustDlRuntimeResolveUnwindIntervals, adjustPgiMpPexitIntervals, adjustGccStackIntervals, failIntervals]

/-- The loop of `x86_fix_unwind_intervals`, which ends with the first fix-up that returns 1. -/
def fixLoop (code : List UInt8) (list : List X86Recipe) : List FixUp → Option (Bool × List X86Recipe)
  | [] => some (false, list)
  | fn :: rest =>
    match fn.run code list with
    | none => none
    | some (true, fixed) => some (true, fixed)
    | some (false, same) => fixLoop code same rest

def x86FixUnwindIntervals (code : List UInt8) (list : List X86Recipe) : Option (Bool × List X86Recipe) :=
  fixLoop code list intervalFixupRoutineVector

/-- A fix-up changes the recipes only of a routine with one of its signatures, at most one fix-up is applied, and without
a complete signature the recipes are left as they were. -/
def OnlyDescribed (code : List UInt8) (list : List X86Recipe) : Prop :=
  (∀ fn ∈ intervalFixupRoutineVector, ∀ applied fixed, fn.run code list = some (applied, fixed) → fixed ≠ list →
      ∃ sig ∈ fn.signatures, sig <+: code) ∧
    (∀ applied fixed, x86FixUnwindIntervals code list = some (applied, fixed) →
      fixed = list ∨ ∃ fn ∈ intervalFixupRoutineVector, fn.run code list = some (true, fixed)) ∧
    ((∀ fn ∈ intervalFixupRoutineVector, ∀ sig ∈ fn.signatures, ¬ sig <+: code) →
      ∀ applied fixed, x86FixUnwindIntervals code list = some (applied, fixed) → fixed = list)

/-- Code that starts like a signature of the dynamic linker or of `mp_pexit`, with an interval that is then changed. -/
def HalfMatch (code : List UInt8) (list : List X86Recipe) : Prop :=
  (8 < code.length ∧ (dlRuntimeResolveSignature1.take 8 <+: code ∨ dlRuntimeResolveSignature2.take 8 <+: code) ∧
      ¬ dlRuntimeResolveSignature1 <+: code ∧ ¬ dlRuntimeResolveSignature2 <+: code ∧ list ≠ []) ∨
    (16 < code.length ∧ pgiMpPexitSignature.take 8 <+: code ∧ ¬ pgiMpPexitSignature <+: code ∧
      ∃ xr ∈ list, xr.raStatus = .spRelative ∧ (xr.reg.spRaPos ≠ 0xb0 ∨ xr.reg.spBpPos ≠ 0))

/-! ## What the comparisons find -/

variable {code sig shown rest : List UInt8} {list fixed : List X86Recipe} {applied : Bool}

lemma strncmpEqual_append (clean : 0 ∉ shown) :
    strncmpEqual shown.length (shown ++ rest) code = true ↔ shown <+: code := by
  induction shown generalizing code with
  | nil => simp [strncmpEqual]
  | cons a as ih =>
    rw [mem_cons, not_or] at clean
    cases code with
    | nil => simp [strncmpEqual]
    | cons b bs => simp [strncmpEqual, ih clean.2, cons_prefix_cons, ne_comm.mp clean.1]

lemma strncmpEqual_zero (clean : 0 ∉ shown) (n : ℕ) :
    strncmpEqual (shown.length + (n + 1)) (shown ++ 0 :: rest) code = true ↔ shown ++ [0] <+: code := by
  induction shown generalizing code with
  | nil =>
    cases code with
    | nil => simp [strncmpEqual]
    | cons b bs => simp [strncmpEqual, cons_prefix_cons]
  | cons a as ih =>
    rw [mem_cons, not_or] at clean
    cases code with
    | nil => simp [strncmpEqual, Nat.succ_add]
    | cons b bs =>
      rw [length_cons, Nat.succ_add]
      simp [strncmpEqual, ih clean.2, cons_prefix_cons, ne_comm.mp clean.1]

lemma prefix_of_comparesEqual (clean : 0 ∉ sig) (equal : comparesEqual sig.length sig code = true) : sig <+: code := by
  have found : strncmpEqual sig.length (sig ++ []) code = true ↔ sig <+: code := strncmpEqual_append clean
  rw [append_nil] at found
  exact found.mp (Bool.and_eq_true_iff.mp equal).2

lemma isMatch_iff (clean : 0 ∉ sig.take 8) (long : 8 ≤ sig.length) :
    isMatch sig code = true ↔ 8 < code.length ∧ sig.take 8 <+: code := by
  rw [isMatch, comparesEqual, Bool.and_eq_true, decide_eq_true_iff]
  have found : strncmpEqual (sig.take 8).length (sig.take 8 ++ sig.drop 8) code = true ↔ sig.take 8 <+: code :=
    strncmpEqual_append clean
  rw [take_append_drop, length_take, min_eq_left long] at found
  rw [found]

lemma adjustPgiMpPexit_recognizes :
    adjustPgiMpPexitIntervals.recognizes code = true ↔ 16 < code.length ∧ pgiMpPexitSignature.take 8 <+: code := by
  change comparesEqual pgiMpPexitSignature.length pgiMpPexitSignature code = true ↔ _
  rw [comparesEqual, Bool.and_eq_true, decide_eq_true_iff]
  have clean : (0 : UInt8) ∉ [0x41, 0x5b, 0x4c, 0x89, 0x9c, 0x24, 0xb0] := by decide
  exact and_congr_right fun _ => strncmpEqual_zero clean 8

lemma adjustDlRuntimeResolve_recognizes :
    adjustDlRuntimeResolveUnwindIntervals.recognizes code = true ↔ 8 < code.length ∧
      (dlRuntimeResolveSignature1.take 8 <+: code ∨ dlRuntimeResolveSignature2.take 8 <+: code) := by
  rw [adjustDlRuntimeResolveUnwindIntervals, Bool.or_eq_true_iff, isMatch_iff (by decide) (by decide),
    isMatch_iff (by decide) (by decide), ← and_or_left]

/-! ## What the fix-ups change -/

variable {fn : FixUp}

lemma FixUp.run_changes (ran : fn.run code list = some (applied, fixed)) (changed : fixed ≠ list) :
    fn.recognizes code = true ∧ fn.adjust list = some fixed := by
  unfold FixUp.run at ran
  split_ifs at ran with known
  · obtain ⟨adjusted, found, same⟩ := Option.map_eq_some_iff.mp ran
    cases same
    exact ⟨known, found⟩
  · cases ran
    exact absurd rfl changed

lemma pgiMpPexitRecipe_ne_iff (xr : X86Recipe) :
    pgiMpPexitRecipe xr ≠ xr ↔ xr.raStatus = .spRelative ∧ (xr.reg.spRaPos ≠ 0xb0 ∨ xr.reg.spBpPos ≠ 0) := by
  obtain ⟨status, ⟨spRaPos, spBpPos, bpStatus, bpRaPos, bpBpPos⟩⟩ := xr
  by_cases fromSp : status = .spRelative
  · simp [pgiMpPexitRecipe, fromSp, eq_comm, imp_iff_not_or]
  · simp [pgiMpPexitRecipe, fromSp]

lemma FixUp.run_false (ran : fn.run code list = some (false, fixed)) : fixed = list := by
  unfold FixUp.run at ran
  split_ifs at ran
  · obtain ⟨adjusted, -, same⟩ := Option.map_eq_some_iff.mp ran
    cases same
  · cases ran
    rfl

lemma fixLoop_applies (fns : List FixUp)
    (ran : fixLoop code list fns = some (applied, fixed)) :
    fixed = list ∨ ∃ fn ∈ fns, fn.run code list = some (true, fixed) := by
  induction fns with
  | nil =>
    cases ran
    exact .inl rfl
  | cons fn rest ih =>
    rw [fixLoop] at ran
    split at ran
    · cases ran
    · rename_i found
      cases ran
      exact .inr ⟨fn, mem_cons_self, found⟩
    · rename_i same found
      obtain rfl := FixUp.run_false found
      exact (ih ran).imp_right fun ⟨other, member, found⟩ => ⟨other, mem_cons_of_mem _ member, found⟩

lemma signature_of_change (whole : ¬ HalfMatch code list) (fn : FixUp) (member : fn ∈ intervalFixupRoutineVector)
    (ran : fn.run code list = some (applied, fixed)) (changed : fixed ≠ list) :
    ∃ sig ∈ fn.signatures, sig <+: code := by
  obtain ⟨known, adjusted⟩ := FixUp.run_changes ran changed
  have single {sig : List UInt8} (clean : 0 ∉ sig) (known : comparesEqual sig.length sig code = true) :
      ∃ s ∈ [sig], s <+: code :=
    ⟨sig, mem_singleton_self sig, prefix_of_comparesEqual clean known⟩
  simp only [intervalFixupRoutineVector, mem_cons, not_mem_nil, or_false] at member
  rcases member with rfl | rfl | rfl | rfl | rfl | rfl | rfl | rfl | rfl | rfl | rfl
  case inr.inr.inr.inr.inr.inl =>
    rcases Bool.or_eq_true_iff.mp known with equal | equal
    · exact ⟨_, mem_cons_self, prefix_of_comparesEqual (by decide) equal⟩
    · exact ⟨_, mem_cons_of_mem _ mem_cons_self, prefix_of_comparesEqual (by decide) equal⟩
  case inr.inr.inr.inr.inr.inr.inr.inl =>
    obtain ⟨long, starts⟩ := adjustDlRuntimeResolve_recognizes.mp known
    by_contra none
    refine whole (.inl ⟨long, starts, fun here => none ⟨_, mem_cons_self, here⟩,
      fun here => none ⟨_, mem_cons_of_mem _ mem_cons_self, here⟩, ?_⟩)
    rintro rfl
    exact changed (Option.some.inj adjusted).symm
  case inr.inr.inr.inr.inr.inr.inr.inr.inl =>
    obtain ⟨long, starts⟩ := adjustPgiMpPexit_recognizes.mp known
    by_contra none
    refine whole (.inr ⟨long, starts, fun here => none ⟨_, mem_cons_self, here⟩, ?_⟩)
    by_contra same
    simp only [← pgiMpPexitRecipe_ne_iff, not_exists, not_and, not_not] at same
    refine changed ((Option.some.inj adjusted).symm.trans ?_)
    exact (map_congr_left same).trans (map_id list)
  all_goals exact single (by decide) known

lemma not_onlyDescribed_of_halfMatch (half : HalfMatch code list) : ¬ OnlyDescribed code list := by
  rintro ⟨described, -, -⟩
  rcases half with ⟨long, starts, not1, not2, some⟩ | ⟨long, starts, incomplete, xr, member, changed⟩
  · have known := adjustDlRuntimeResolve_recognizes.mpr ⟨long, starts⟩
    obtain ⟨sig, isSig, here⟩ := described adjustDlRuntimeResolveUnwindIntervals
      (by simp [intervalFixupRoutineVector]) true _ (if_pos known) (by
        obtain ⟨xr, rest, rfl⟩ := exists_cons_of_ne_nil some
        intro same
        have first := congrArg (fun xr => xr.reg.spRaPos) (cons.inj same).1
        simp at first)
    simp only [adjustDlRuntimeResolveUnwindIntervals, mem_cons, not_mem_nil, or_false] at isSig
    rcases isSig with rfl | rfl
    · exact not1 here
    · exact not2 here
  · have known := adjustPgiMpPexit_recognizes.mpr ⟨long, starts⟩
    have touched : list.map pgiMpPexitRecipe ≠ list := fun same =>
      (pgiMpPexitRecipe_ne_iff xr).mpr changed (map_inj_left.mp (same.trans (map_id list).symm) xr member)
    obtain ⟨sig, isSig, here⟩ := described adjustPgiMpPexitIntervals (by simp [intervalFixupRoutineVector]) true _
      (if_pos known) touched
    rw [mem_singleton.mp isSig] at here
    exact incomplete here

/-- The fix-ups touch only the routines that they describe exactly if no signature is matched by halves. -/
theorem onlyDescribed_iff (code : List UInt8) (list : List X86Recipe) :
    OnlyDescribed code list ↔ ¬ HalfMatch code list := by
  refine ⟨fun described half => not_onlyDescribed_of_halfMatch half described, fun whole => ?_⟩
  have applies (applied : Bool) (fixed : List X86Recipe) :
      fixLoop code list intervalFixupRoutineVector = some (applied, fixed) →
        fixed = list ∨ ∃ fn ∈ intervalFixupRoutineVector, fn.run code list = some (true, fixed) :=
    fixLoop_applies intervalFixupRoutineVector
  refine ⟨fun fn member _ _ ran changed => signature_of_change whole fn member ran changed, applies, ?_⟩
  intro unknown applied fixed ran
  rcases applies applied fixed ran with same | ⟨fn, member, found⟩
  · exact same
  · by_contra changed
    obtain ⟨sig, isSig, here⟩ := signature_of_change whole fn member found changed
    exact unknown fn member sig isSig here

/-- An ordinary routine that makes room on the stack and stores `%rax`. -/
theorem ordinary_routine_changed :
    ¬ OnlyDescribed [0x48, 0x83, 0xec, 0x78, 0x48, 0x89, 0x44, 0x24, 0x38, 0xc3]
      [⟨.spRelative, ⟨0, 0, .unchanged, 0, 0⟩⟩] :=
  not_onlyDescribed_of_halfMatch (.inl (by decide))

end HpcToolkit.X86.FixUps
