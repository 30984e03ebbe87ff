import HpcToolkit.Lib.Reachable

/-! # Tracking the stack in straight-line code

A recipe says where the return address is relative to SP and BP. The handlers derive the recipe behind an instruction
from the one before it. Run next to a machine from a function's entry, they locate the return address in every state as
long as `pop` does not change BP under a standard frame and `leave` finds the return address right behind the saved BP.
The high-water mark and the canonical interval, which only branches and returns use, are left out.
-/

namespace HpcToolkit.X86

open Lib

/-- `ra_loc` -/
inductive RaLoc where
  | spRelative
  | stdFrame
  | bpFrame
  | register
  | poison
deriving DecidableEq

/-- `bp_loc` -/
inductive BpLoc where
  | unchanged
  | saved
  | hosed
deriving DecidableEq

/-- `x86registers_t`: where the return address and the caller's BP are, from SP and from BP. -/
structure X86Registers where
  spRaPos : ℤ
  spBpPos : ℤ
  bpStatus : BpLoc
  bpRaPos : ℤ
  bpBpPos : ℤ
deriving DecidableEq

/-- `x86recipe_t` -/
structure X86Recipe where
  raStatus : RaLoc
  reg : X86Registers
deriving DecidableEq

namespace StackTracking

/-- A register operand; the other registers are numbered. -/
inductive Reg where
  | sp
  | bp
  | ax
  | other (n : ℕ)
deriving DecidableEq

/-- The instructions; `pop` and `leave` come with the word that they load. -/
inductive Inst where
  | push (r : Reg)
  | pop (r : Reg) (word : ℤ)
  | addSp (imm : ℤ)
  | subSp (imm : ℤ)
  | leaSp (disp : ℤ)
  | movBpSp
  | movSpBp
  | leave (word : ℤ)

/-! ## The handlers -/

/-- `interval_arg_t`: the recipe of the current interval, and whether SP was realigned. -/
structure IntervalArg where
  current : X86Recipe
  spRealigned : Bool
deriving DecidableEq

/-- `process_push`, of eight bytes. -/
def processPush (r : Reg) (xr : X86Recipe) : X86Recipe :=
  let reg := { xr.reg with spRaPos := xr.reg.spRaPos + 8, spBpPos := xr.reg.spBpPos + 8 }
  if r = .bp ∧ xr.reg.bpStatus = .unchanged then ⟨xr.raStatus, { reg with bpStatus := .saved, spBpPos := 0 }⟩
  else ⟨xr.raStatus, reg⟩

/-- `process_pop` -/
def processPop (r : Reg) (xr : X86Recipe) : X86Recipe :=
  let reg := { xr.reg with spRaPos := xr.reg.spRaPos - 8, spBpPos := xr.reg.spBpPos - 8 }
  ⟨xr.raStatus, if r = .bp then { reg with bpStatus := .unchanged } else reg⟩

/-- `process_addsub` for SP and an immediate. -/
def processAddsub (isAdd : Bool) (imm : ℤ) (xr : X86Recipe) : X86Recipe :=
  let immedv := (if isAdd then -1 else 1) * imm
  ⟨xr.raStatus, { xr.reg with spRaPos := xr.reg.spRaPos + immedv, spBpPos := xr.reg.spBpPos + immedv }⟩

/-- `process_lea` for SP from SP and a displacement. -/
def processLea (disp : ℤ) (xr : X86Recipe) : X86Recipe :=
  if xr.raStatus = .spRelative ∨ xr.raStatus = .stdFrame then
    ⟨xr.raStatus, { xr.reg with spRaPos := xr.reg.spRaPos - disp, spBpPos := xr.reg.spBpPos - disp }⟩
  else xr

/-- `process_move` from register to register; `x86_bp_size` of the 64-bit BP is 8. -/
def processMove (reg0 reg1 : Reg) (iarg : IntervalArg) : IntervalArg :=
  let reg := iarg.current.reg
  if reg1 = .bp ∧ reg0 = .sp then
    { iarg with current := ⟨.spRelative, { reg with spRaPos := reg.bpRaPos, spBpPos := reg.bpBpPos }⟩ }
  else if reg0 = .bp ∧ reg1 = .sp then
    let reg := { reg with bpStatus := .saved, bpRaPos := reg.spRaPos, bpBpPos := reg.spBpPos }
    if iarg.spRealigned then
      ⟨⟨.stdFrame, { reg with bpRaPos := reg.bpBpPos + 8, spRaPos := reg.bpBpPos + 8 }⟩, false⟩
    else { iarg with current := ⟨.stdFrame, reg⟩ }
  else if reg1 = .bp ∧ reg0 = .ax then iarg
  else if reg0 = .bp ∧ reg.bpStatus ≠ .hosed then
    let reg := { reg with bpStatus := .hosed, bpRaPos := reg.spRaPos, bpBpPos := reg.spBpPos }
    { iarg with current := ⟨.spRelative, reg⟩ }
  else iarg

/-- `process_leave` -/
def processLeave : X86Recipe := ⟨.spRelative, ⟨0, 0, .unchanged, 0, 0⟩⟩

/-- `process_inst` -/
def processInst (iarg : IntervalArg) : Inst → IntervalArg
  | .push r => { iarg with current := processPush r iarg.current }
  | .pop r _ => { iarg with current := processPop r iarg.current }
  | .addSp imm => { iarg with current := processAddsub true imm iarg.current }
  | .subSp imm => { iarg with current := processAddsub false imm iarg.current }
  | .leaSp disp => { iarg with current := processLea disp iarg.current }
  | .movBpSp => processMove .bp .sp iarg
  | .movSpBp => processMove .sp .bp iarg
  | .leave _ => { iarg with current := processLeave }

/-! ## The machine -/

/-- SP and BP, the value of the last `mov BP,SP`, and whether a `leave` came after that. -/
structure Machine where
  sp : ℤ
  bp : ℤ
  frame : Option ℤ
  left : Bool
deriving DecidableEq

def Machine.exec (m : Machine) : Inst → Machine
  | .push _ => { m with sp := m.sp - 8 }
  | .pop r word => { m with sp := m.sp + 8, bp := if r = .bp then word else m.bp }
  | .addSp imm => { m with sp := m.sp + imm }
  | .subSp imm => { m with sp := m.sp - imm }
  | .leaSp disp => { m with sp := m.sp + disp }
  | .movBpSp => { m with bp := m.sp, frame := some m.sp, left := false }
  | .movSpBp => { m with sp := m.bp }
  | .leave word => { m with sp := m.bp + 8, bp := word, left := true }

/-- A machine and the tracking of its stack. -/
structure State where
  machine : Machine
  iarg : IntervalArg

def step (s : State) (inst : Inst) : Option State := some ⟨s.machine.exec inst, processInst s.iarg inst⟩

/-- At the entry of a function the return address is at SP. -/
def entry (sp bp : ℤ) : State :=
  ⟨⟨sp, bp, none, false⟩, ⟨⟨.spRelative, ⟨0, 0, .unchanged, 0, 0⟩⟩, false⟩⟩

/-- `push` and `pop` are not of SP, and `mov SP,BP` and `leave` stand where BP has the value of the last `mov BP,SP`. -/
def Allowed (s : State) : Inst → Prop
  | .push r | .pop r _ => r ≠ .sp
  | .movSpBp | .leave _ => s.machine.frame = some s.machine.bp
  | _ => True

/-- The recipe locates the return address `ra`. -/
def Locates (ra : ℤ) (s : State) : Prop :=
  let xr := s.iarg.current
  (xr.raStatus = .spRelative ∨ xr.raStatus = .stdFrame → s.machine.sp + xr.reg.spRaPos = ra) ∧
    (xr.raStatus = .stdFrame ∨ xr.raStatus = .bpFrame → s.machine.bp + xr.reg.bpRaPos = ra)

/-- A `pop` of BP under a standard frame loads what BP has, the first `leave` of a frame finds the return address
eight bytes above BP, and SP is not taken from BP again behind it. -/
def Tracked (s : State) : Inst → Prop
  | .pop r word => r = .bp → s.iarg.current.raStatus = .stdFrame → word = s.machine.bp
  | .movSpBp => s.machine.left = false
  | .leave _ => s.machine.left = false → s.iarg.current.reg.bpRaPos = 8
  | _ => True

instance (s : State) : DecidablePred (Allowed s) := fun inst => by cases inst <;> unfold Allowed <;> infer_instance

instance (s : State) : DecidablePred (Tracked s) := fun inst => by cases inst <;> unfold Tracked <;> infer_instance

/-! ## What every tracked run keeps -/

structure Inv (ra : ℤ) (s : State) : Prop where
  status : s.iarg.current.raStatus = .spRelative ∨ s.iarg.current.raStatus = .stdFrame
  fromSp : s.machine.sp + s.iarg.current.reg.spRaPos = ra
  fromBp : s.iarg.current.raStatus = .stdFrame → s.machine.bp + s.iarg.current.reg.bpRaPos = ra
  framed : ∀ v, s.machine.frame = some v → v + (if s.machine.left then 8 else s.iarg.current.reg.bpRaPos) = ra
  torn : s.machine.left = true → s.iarg.current.reg.bpRaPos = 0
  aligned : s.iarg.spRealigned = false

variable {ra : ℤ} {s : State} {inst : Inst}

lemma inv_entry (sp bp : ℤ) : Inv sp (entry sp bp) where
  status := .inl rfl
  fromSp := add_zero sp
  fromBp standard := nomatch standard
  framed _ none := nomatch none
  torn left := nomatch left
  aligned := rfl

lemma Inv.locates (inv : Inv ra s) : Locates ra s :=
  ⟨fun _ => inv.fromSp, fun status => inv.fromBp (status.resolve_right fun bpFrame => by
    rcases inv.status with other | other <;> cases bpFrame.symm.trans other)⟩

lemma Inv.moveSp (inv : Inv ra s) {p : ℤ} {xr : X86Recipe} (status : xr.raStatus = s.iarg.current.raStatus)
    (offset : p + xr.reg.spRaPos = s.machine.sp + s.iarg.current.reg.spRaPos)
    (kept : xr.reg.bpRaPos = s.iarg.current.reg.bpRaPos) :
    Inv ra ⟨{ s.machine with sp := p }, { s.iarg with current := xr }⟩ where
  status := by rw [status]; exact inv.status
  fromSp := offset.trans inv.fromSp
  fromBp := by rw [status, kept]; exact inv.fromBp
  framed := by rw [kept]; exact inv.framed
  torn := by rw [kept]; exact inv.torn
  aligned := inv.aligned

lemma processPush_reg (r : Reg) (xr : X86Recipe) : (processPush r xr).raStatus = xr.raStatus ∧
    (processPush r xr).reg.spRaPos = xr.reg.spRaPos + 8 ∧ (processPush r xr).reg.bpRaPos = xr.reg.bpRaPos := by
  unfold processPush
  split_ifs <;> exact ⟨rfl, rfl, rfl⟩

lemma processPop_reg (r : Reg) (xr : X86Recipe) : (processPop r xr).raStatus = xr.raStatus ∧
    (processPop r xr).reg.spRaPos = xr.reg.spRaPos - 8 ∧ (processPop r xr).reg.bpRaPos = xr.reg.bpRaPos := by
  unfold processPop
  split_ifs <;> exact ⟨rfl, rfl, rfl⟩

lemma Inv.exec (inv : Inv ra s) (allowed : Allowed s inst) (tracked : Tracked s inst) :
    Inv ra ⟨s.machine.exec inst, processInst s.iarg inst⟩ := by
  cases inst with
  | push r =>
    obtain ⟨status, offset, kept⟩ := processPush_reg r s.iarg.current
    exact inv.moveSp status (by rw [offset]; ring) kept
  | pop r word =>
    obtain ⟨status, offset, kept⟩ := processPop_reg r s.iarg.current
    have moved := inv.moveSp (p := s.machine.sp + 8) status (by rw [offset]; ring) kept
    refine ⟨moved.status, moved.fromSp, ?_, moved.framed, moved.torn, moved.aligned⟩
    intro standard
    have unchanged : (if r = .bp then word else s.machine.bp) = s.machine.bp := by
      split_ifs with isBp
      · exact tracked isBp (status.symm.trans standard)
      · rfl
    exact (congrArg (· + _) unchanged).trans (moved.fromBp standard)
  | addSp imm => exact inv.moveSp rfl (by simp only [processAddsub, if_true]; ring) rfl
  | subSp imm => exact inv.moveSp rfl (by simp only [processAddsub, Bool.false_eq_true, if_false]; ring) rfl
  | leaSp disp =>
    have adjusted : processLea disp s.iarg.current = ⟨s.iarg.current.raStatus,
        { s.iarg.current.reg with
          spRaPos := s.iarg.current.reg.spRaPos - disp, spBpPos := s.iarg.current.reg.spBpPos - disp }⟩ :=
      if_pos inv.status
    exact inv.moveSp (by rw [adjusted]) (by rw [adjusted]; ring) (by rw [adjusted])
  | movBpSp =>
    have moved : processInst s.iarg .movBpSp = { s.iarg with current := ⟨.stdFrame, { s.iarg.current.reg with
        bpStatus := .saved, bpRaPos := s.iarg.current.reg.spRaPos, bpBpPos := s.iarg.current.reg.spBpPos }⟩ } := by
      simp [processInst, processMove, inv.aligned]
    rw [moved]
    refine ⟨.inr rfl, inv.fromSp, fun _ => inv.fromSp, ?_, nofun, inv.aligned⟩
    intro v same
    cases same
    exact inv.fromSp
  | movSpBp =>
    have here := inv.framed _ allowed
    have notLeft : s.machine.left = false := tracked
    rw [notLeft] at here
    exact ⟨.inl rfl, here, nofun, inv.framed, inv.torn, inv.aligned⟩
  | leave word =>
    have here := inv.framed _ allowed
    have above : s.machine.bp + 8 = ra := by
      cases left : s.machine.left with
      | true => rwa [left] at here
      | false =>
        rw [left] at here
        exact (congrArg (s.machine.bp + ·) (tracked left)).symm.trans here
    refine ⟨.inl rfl, (add_zero _).trans above, nofun, ?_, fun _ => rfl, inv.aligned⟩
    intro v same
    cases allowed.symm.trans same
    exact above

lemma Inv.tracked (inv : Inv ra s) (allowed : Allowed s inst)
    (located : Locates ra ⟨s.machine.exec inst, processInst s.iarg inst⟩) : Tracked s inst := by
  cases inst with
  | pop r word =>
    rintro rfl standard
    have status := (processPop_reg .bp s.iarg.current)
    have now := located.2 (.inl (status.1.trans standard))
    have before := inv.fromBp standard
    have same : word + s.iarg.current.reg.bpRaPos = ra := by
      rw [← status.2.2]
      exact now
    linarith
  | movSpBp =>
    have here := inv.framed _ allowed
    have now : s.machine.bp + s.iarg.current.reg.bpRaPos = ra := located.1 (.inl rfl)
    by_contra still
    have left : s.machine.left = true := Bool.eq_true_of_not_eq_false still
    rw [left] at here
    rw [inv.torn left] at now
    simp only [if_true] at here
    linarith
  | leave word =>
    intro notLeft
    have here := inv.framed _ allowed
    rw [notLeft] at here
    have now : s.machine.bp + 8 + 0 = ra := located.1 (.inl rfl)
    have here : s.machine.bp + s.iarg.current.reg.bpRaPos = ra := here
    linarith
  | _ => trivial

/-- The recipes of a run from the entry all locate the return address exactly when its instructions are tracked. -/
theorem return_address_located_iff (sp bp : ℤ) (insts : List Inst)
    (allowed : EveryStep step Allowed (entry sp bp) insts) :
    EveryReached step (Locates sp) (entry sp bp) insts ↔ EveryStep step Tracked (entry sp bp) insts :=
  everyReached_iff_everyStep (fun _ inv => inv.locates)
    (fun _ _ _ inv allowed tracked stepped => by cases stepped; exact inv.exec allowed tracked)
    (fun _ _ inv allowed located => inv.tracked allowed (located _ rfl)) (inv_entry sp bp) allowed

/-- The prologue that saves BP first, with its epilogue. -/
theorem standard_frame_located :
    EveryReached step (Locates 800) (entry 800 1000) [.push .bp, .movBpSp, .subSp 32, .leave 1000] :=
  (return_address_located_iff 800 1000 _ (by decide)).mpr (by decide)

/-- Behind a `leave` of a frame with a register saved above BP the return address is missed. -/
theorem other_frame_not_located :
    EveryStep step Allowed (entry 800 1000) [.push (.other 3), .push .bp, .movBpSp, .leave 1000] ∧
      ¬ EveryReached step (Locates 800) (entry 800 1000) [.push (.other 3), .push .bp, .movBpSp, .leave 1000] := by
  refine ⟨by decide, fun located => ?_⟩
  have last := located.2 _ rfl |>.2 _ rfl |>.2 _ rfl |>.2 _ rfl
  exact absurd (last.1 (.inl rfl)) (by decide)

end StackTracking

end HpcToolkit.X86
