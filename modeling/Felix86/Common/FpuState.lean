import Felix86.Hle.SignalContext
import Mathlib.Tactic.IntervalCases

/-!
# The floating-point part of the thread state

The control, status and tag words, the top of the stack, `MXCSR` and the two cached rounding modes,
with the helpers of `utility.cpp` that write them to an image in the guest's memory and read them
back. The top of the stack has a byte of its own, `fpu_top`; bits 11 to 13 of `fpu_sw` are whatever
the last writer of that field left there, and every helper puts the two together when it stores a
status word.
-/

namespace Felix86

/-- The words of `ThreadState` that control floating-point arithmetic. -/
structure FpuControl where
  cw : BitVec 16
  tw : BitVec 16
  sw : BitVec 16
  top : BitVec 8
  mxcsr : BitVec 32
  rmodeX87 : RMode
  rmodeSse : RMode
deriving DecidableEq, Repr

/-- The fields `fsave` and `fxsave` store. `fp` holds the x87 registers in stack order or the MMX
registers, as `x87_state` says. -/
structure FpuState extends FpuControl where
  x87State : X87State
  fp : Fin 8 → BitVec 64
  xmm : Fin 16 → BitVec 128

/-- `fenv_data_16` and `fenv_data_32`: the same three words at different offsets. -/
structure FenvData where
  cw : BitVec 16
  sw : BitVec 16
  tw : BitVec 16
deriving DecidableEq, Repr

/-- `fsave_data_16` and `fsave_data_32`. -/
structure FsaveData where
  env : FenvData
  st : Fin 8 → Float80

/-- `fxsave_data`. The tag word has eight bits here. -/
structure FxsaveData where
  fcw : BitVec 16
  fsw : BitVec 16
  ftw : BitVec 8
  mxcsr : BitVec 32
  st : Fin 8 → Float80
  xmms : Fin 16 → BitVec 128

/-- The rounding control of an x87 control word. -/
def rcX87 (cw : BitVec 16) : BitVec 2 := (cw >>> 10).setWidth 2

/-- The rounding control of `MXCSR`. -/
def rcSse (mxcsr : BitVec 32) : BitVec 2 := (mxcsr >>> 13).setWidth 2

/-- Bits 11 to 13 of a status word. -/
def topOfSw (sw : BitVec 16) : BitVec 8 := ((sw >>> 11) &&& 0b111#16).setWidth 8

namespace FpuControl

variable (s : FpuControl)

/-- A new `ThreadState`. -/
def initial : FpuControl := ⟨0, 0, 0, 0, 0x1F80#32, .rne, .rne⟩

/-- `fpu_sw` with `fpu_top` in the place of its bits 11 to 13. -/
def statusWord : BitVec 16 := s.top.setWidth 16 <<< 11 ||| s.sw &&& ~~~(0b111#16 <<< 11)

/-- A merged word has the top of the stack. -/
theorem topOfSw_statusWord (h : s.top.toNat < 8) : topOfSw s.statusWord = s.top := by
  have hbits (j : ℕ) (hj : 3 ≤ j) : s.top.getLsbD j = false :=
    Nat.testBit_lt_two_pow (h.trans_le (Nat.pow_le_pow_right two_pos hj))
  ext j hj
  interval_cases j <;> simp [topOfSw, statusWord, ← BitVec.getLsbD_eq_getElem, hbits]

/-- Merging changes nothing where the two already agree. -/
theorem statusWord_eq_sw (h : s.top = topOfSw s.sw) : s.statusWord = s.sw := by
  have htop : s.top.setWidth 16 <<< 11 = s.sw &&& 0b111#16 <<< 11 := by
    rw [h, topOfSw]
    ext j hj
    simp only [BitVec.getElem_shiftLeft, BitVec.getElem_and]
    interval_cases j <;> simp
  rw [statusWord, htop, ← BitVec.and_or_distrib_left]
  exact BitVec.and_allOnes

/-- `felix86_fstenv_16` and `felix86_fstenv_32`. -/
def fstenv : FenvData := ⟨s.cw, s.statusWord, s.tw⟩

/-- `felix86_fldenv_16` and `felix86_fldenv_32`. -/
def fldenv (env : FenvData) : FpuControl :=
  { s with
    cw := env.cw
    tw := env.tw
    sw := env.sw
    top := topOfSw env.sw
    rmodeX87 := RMode.ofX86 (rcX87 env.cw) }

/-- What `felix86_fxrstor` does to the control words. -/
def fxrstor (fcw fsw : BitVec 16) (ftw : BitVec 8) (mxcsr : BitVec 32) : FpuControl where
  cw := fcw
  tw := ftw.setWidth 16
  sw := fsw
  top := topOfSw fsw
  mxcsr := mxcsr
  rmodeX87 := RMode.ofX86 (rcX87 fcw)
  rmodeSse := RMode.ofX86 (rcSse mxcsr)

end FpuControl

namespace FpuState

variable (rm : RMode) (s : FpuState)

/-- The control word of an image: the reserved bit 15 says that the registers were MMX registers. -/
def imageCw : BitVec 16 := if s.x87State = .mmx then s.cw ||| 0x8000#16 else s.cw

/-- The registers of an image. In an x87 image they are converted twice, as in a signal frame. -/
def imageSt (i : Fin 8) : Float80 := encodeSt rm s.x87State (s.fp i)

/-- How a register of an image is read: bit 15 of the control word decides. -/
def readSt (cw : BitVec 16) (st : Float80) : BitVec 64 :=
  if cw &&& 0x8000#16 ≠ 0 then st.significand else f80To64 st

/-- `felix86_fsave_16` and `felix86_fsave_32`. -/
def fsave : FsaveData := ⟨{ s.fstenv with cw := s.imageCw }, s.imageSt rm⟩

/-- `felix86_frstor_16` and `felix86_frstor_32`. -/
def frstor (data : FsaveData) : FpuState :=
  { s with
    toFpuControl := s.fldenv data.env
    fp := fun i ↦ readSt data.env.cw (data.st i) }

/-- `felix86_fxsave`. -/
def fxsave : FxsaveData where
  fcw := s.imageCw
  fsw := s.statusWord
  ftw := s.tw.setWidth 8
  mxcsr := s.mxcsr
  st := s.imageSt rm
  xmms := s.xmm

/-- `felix86_fxrstor`. -/
def fxrstor (data : FxsaveData) : FpuState :=
  { s with
    toFpuControl := FpuControl.fxrstor data.fcw data.fsw data.ftw data.mxcsr
    fp := fun i ↦ readSt data.fcw (data.st i)
    xmm := data.xmms }

end FpuState

end Felix86
