import Felix86.Common.FpuState
import Felix86.Lib.Run
import Mathlib.Tactic.IntervalCases

/-!
# The control words and the status word

Two copies have to be kept in step. The rounding control of `fpu_cw` and of `mxcsr` is decoded into
`rmode_x87` and `rmode_sse`, from which emitted code loads `frm`; every writer of a control word has
to write the copy too, and `FNINIT` does not. The top of the stack is kept in `fpu_top` and not in
`fpu_sw`; every reader of the status word has to put it in, and `FNSTSW` does not. The comparisons
store their condition codes with a 32-bit store to the 16-bit `fpu_sw`, and `fpu_top` is the byte
behind it.

This file has the instructions that touch these fields as the handlers and helpers execute them,
what the processor does for each, and the runs in which the two agree. `XSAVE` and `XRSTOR` have no
handler. The processor also uses `C1` to report how a result was rounded and which way the stack was
exceeded; neither is counted as a definition of `C1` here.
-/

namespace Felix86

/-- The four outcomes of comparing two doubles. -/
inductive Comparison
  | less
  | equal
  | greater
  | unordered
deriving DecidableEq, Repr

/-- The condition codes `C0` to `C3`. -/
structure ConditionCodes where
  c0 : Bool
  c1 : Bool
  c2 : Bool
  c3 : Bool
deriving DecidableEq, Repr

namespace ConditionCodes

/-- Bits 8, 9, 10 and 14 of a status word. -/
def ofSw (sw : BitVec 16) : ConditionCodes :=
  ⟨sw.getLsbD 8, sw.getLsbD 9, sw.getLsbD 10, sw.getLsbD 14⟩

/-- All four clear. -/
def clear : ConditionCodes := ⟨false, false, false, false⟩

end ConditionCodes

/-- The instructions that read or write a control word, the status word or the top of the stack,
each with what it takes from memory or from the registers. `push` and `pop` stand for the loads,
stores and arithmetic that end in `pushX87` or `popX87`, and `fsin` for `FCOS` too. `Q` is the
quotient as `felix86_fprem` computes it. -/
inductive FpuInsn
  | fldcw (value : BitVec 16)
  | fninit
  | fnclex
  | fnstsw
  | fnstenv
  | fldenv (env : FenvData)
  | fnsave
  | frstor (env : FenvData)
  | fxsave
  | fxrstor (fcw fsw : BitVec 16) (ftw : BitVec 8) (mxcsr : BitVec 32)
  | ldmxcsr (value : BitVec 32)
  | fcom (outcome : Comparison) (popCount : Fin 3)
  | fxam (st0 : BitVec 64)
  | fprem (quotient : BitVec 64) (complete : Bool)
  | fsin (outOfRange : Bool)
  | fptan (outOfRange : Bool)
  | push
  | pop
  | plain
  | deliverSignal
  | sigreturn
deriving DecidableEq, Repr

/-! ## The handlers -/

/-- The classes `felix86_fxam` tells apart, as `C3`, `C2` and `C0`. -/
def fxamClass (st0 : BitVec 64) : Bool × Bool × Bool :=
  if st0 &&& 0x7FFFFFFFFFFFFFFF#64 = 0 then (true, false, false)
  else if st0 &&& 0x7FFFFFFFFFFFFFFF#64 = 0x7FF0000000000000#64 then (false, true, true)
  else (false, true, false)

/-- The word `FCOM` stores, from the results of `FLT_D` and `FEQ_D`. -/
def fcomWord (outcome : Comparison) : BitVec 32 :=
  let nan1 := (BitVec.ofBool (outcome = .unordered)).setWidth 32
  let c0 := (BitVec.ofBool (outcome = .less)).setWidth 32 ||| nan1
  let c3 := (BitVec.ofBool (outcome = .equal)).setWidth 32 ||| nan1
  let c2 := 0#32 ||| nan1
  c0 <<< 8 ||| c2 <<< 10 ||| c3 <<< 14

/-- `C0_BIT` to `C3_BIT`, each kept where the flag is set. -/
def codeBits (codes : ConditionCodes) : BitVec 16 :=
  (if codes.c0 then 1#16 <<< 8 else 0) ||| (if codes.c1 then 1#16 <<< 9 else 0) |||
    (if codes.c2 then 1#16 <<< 10 else 0) ||| (if codes.c3 then 1#16 <<< 14 else 0)

namespace FpuControl

variable (s : FpuControl)

/-- `SW` to `fpu_sw`: the upper half of the word goes to `fpu_top` and to the padding behind it. -/
def storeSw (word : BitVec 32) : FpuControl :=
  { s with sw := word.setWidth 16, top := (word >>> 16).setWidth 8 }

/-- `LWU` from `fpu_sw`, without the padding byte, and what of it fits the 16-bit operand. -/
def fnstsw : BitVec 16 := (s.top ++ s.sw : BitVec 24).setWidth 16

/-- The end of `pushX87`. -/
def pushTop : FpuControl := { s with top := (s.top - 1) &&& 0b111#8 }

/-- The end of `popX87`. -/
def popTop : FpuControl := { s with top := (s.top + 1) &&& 0b111#8 }

/-- `fpu_sw` with all four condition codes rebuilt. -/
def setCodes (codes : ConditionCodes) : FpuControl :=
  { s with sw := s.sw &&& ~~~(codeBits ⟨true, true, true, true⟩) ||| codeBits codes }

/-- `fpu_sw &= ~C2_BIT`. -/
def clearC2 : FpuControl := { s with sw := s.sw &&& ~~~(1#16 <<< 10) }

/-- What an instruction does to the thread state. A signal frame has room for the control words, but
`setupFrame` and `sigreturn` leave them alone. -/
def exec : FpuInsn → FpuControl
  | .fldcw value => { s with cw := value, rmodeX87 := RMode.ofTable (rcX87 value) }
  | .fninit => { s with cw := 0x037F#16 }
  | .fnclex => s
  | .fnstsw => s
  | .fnstenv => s
  | .fldenv env => s.fldenv env
  | .fnsave => s
  | .frstor env => s.fldenv env
  | .fxsave => s
  | .fxrstor fcw fsw ftw mxcsr => fxrstor fcw fsw ftw mxcsr
  | .ldmxcsr value => { s with mxcsr := value, rmodeSse := RMode.ofTable (rcSse value) }
  | .fcom outcome popCount => popTop^[popCount] (s.storeSw (fcomWord outcome))
  | .fxam st0 =>
    let (c3, c2, c0) := fxamClass st0
    s.setCodes ⟨c0, st0.getLsbD 63, c2, c3⟩
  | .fprem quotient complete =>
    if complete then
      s.setCodes ⟨quotient.getLsbD 2, quotient.getLsbD 0, false, quotient.getLsbD 1⟩
    else { s with sw := s.sw ||| 1#16 <<< 10 }
  | .fsin _ => s.clearC2
  | .fptan _ => s.clearC2.pushTop
  | .push => s.pushTop
  | .pop => s.popTop
  | .plain => s
  | .deliverSignal => s
  | .sigreturn => s

/-- The status word an instruction shows to the guest. -/
def shown : FpuInsn → Option (BitVec 16)
  | .fnstsw => some s.fnstsw
  | .fnstenv => some s.fstenv.sw
  | .fnsave => some s.fstenv.sw
  | .fxsave => some s.statusWord
  | _ => none

end FpuControl

namespace FpuControl

variable (s : FpuControl)

/-- The control words and the cached modes. -/
def words : BitVec 16 × BitVec 32 × RMode × RMode := (s.cw, s.mxcsr, s.rmodeX87, s.rmodeSse)

theorem words_popTop_iterate (n : ℕ) : (popTop^[n] s).words = s.words := by
  induction n generalizing s with
  | zero => rfl
  | succ n ih => exact ih s.popTop

end FpuControl

/-! ## The processor -/

/-- The classes of the processor for a register that is not empty. A double that is subnormal is a
normal number in the register's format. -/
def fxamCodes (st0 : BitVec 64) : ConditionCodes :=
  let magnitude := st0 &&& 0x7FFFFFFFFFFFFFFF#64
  let sign := st0.getLsbD 63
  if magnitude = 0 then ⟨false, sign, false, true⟩
  else if magnitude = 0x7FF0000000000000#64 then ⟨true, sign, true, false⟩
  else if 0x7FF0000000000000#64 < magnitude then ⟨true, sign, false, false⟩
  else ⟨false, sign, true, false⟩

/-- The condition codes of a comparison. -/
def Comparison.codes : Comparison → ConditionCodes
  | .less => ⟨true, false, false, false⟩
  | .equal => ⟨false, false, false, true⟩
  | .greater => ⟨false, false, false, false⟩
  | .unordered => ⟨true, false, true, true⟩

/-- The control words the guest last loaded, if it loaded any, and its top of stack and condition
codes. -/
structure X87Unit where
  cw : Option (BitVec 16)
  mxcsr : Option (BitVec 32)
  top : BitVec 3
  codes : ConditionCodes
deriving DecidableEq, Repr

namespace X87Unit

variable (a : X87Unit)

/-- Before the first instruction. -/
def initial : X87Unit := ⟨none, none, 0, .clear⟩

/-- What `FNINIT` does, and `FNSAVE` after it has stored its image. -/
def init : X87Unit := { a with cw := some 0x037F#16, top := 0, codes := .clear }

/-- What the instructions do that load a control and a status word. -/
def load (cw sw : BitVec 16) : X87Unit :=
  { a with cw := some cw, top := (sw >>> 11).setWidth 3, codes := .ofSw sw }

/-- One instruction. -/
def exec : FpuInsn → X87Unit
  | .fldcw value => { a with cw := some value }
  | .fninit => a.init
  | .fnclex => a
  | .fnstsw => a
  | .fnstenv => a
  | .fldenv env => a.load env.cw env.sw
  | .fnsave => a.init
  | .frstor env => a.load env.cw env.sw
  | .fxsave => a
  | .fxrstor fcw fsw _ mxcsr => { a.load fcw fsw with mxcsr := some mxcsr }
  | .ldmxcsr value => { a with mxcsr := some value }
  | .fcom outcome popCount =>
    { a with codes := outcome.codes, top := a.top + BitVec.ofNat 3 popCount }
  | .fxam st0 => { a with codes := fxamCodes st0 }
  | .fprem quotient complete =>
    if complete then
      { a with codes := ⟨quotient.getLsbD 2, quotient.getLsbD 0, false, quotient.getLsbD 1⟩ }
    else { a with codes := { a.codes with c2 := true } }
  | .fsin outOfRange => { a with codes := { a.codes with c2 := outOfRange } }
  | .fptan outOfRange =>
    let a := { a with codes := { a.codes with c2 := outOfRange } }
    if outOfRange then a else { a with top := a.top - 1 }
  | .push => { a with top := a.top - 1 }
  | .pop => { a with top := a.top + 1 }
  | .plain => a
  | .deliverSignal => a
  | .sigreturn => a

end X87Unit

/-! ## Runs -/

/-- The thread state, the processor that has executed the same instructions, and every status word
that was shown to the guest, with the state of the processor at that moment. -/
structure FpuMachine where
  control : FpuControl
  unit_ : X87Unit
  seen : List (BitVec 16 × X87Unit)
deriving DecidableEq, Repr

namespace FpuMachine

variable (s : FpuMachine)

/-- A new thread. -/
def initial : FpuMachine := ⟨.initial, .initial, []⟩

/-- One instruction on both sides. -/
def exec (i : FpuInsn) : FpuMachine where
  control := s.control.exec i
  unit_ := s.unit_.exec i
  seen := s.seen ++ (s.control.shown i).toList.map (·, s.unit_)

/-- `exec` as a relation. -/
def Step (s : FpuMachine) (i : FpuInsn) (t : FpuMachine) : Prop := t = s.exec i

end FpuMachine

/-! ## The cached rounding modes -/

namespace FpuMachine

variable {s t : FpuMachine} {i : FpuInsn}

/-- The cached modes are those of the control words, and the control words are the loaded ones. -/
structure Tracks (s : FpuMachine) : Prop where
  rmodeX87 : s.control.rmodeX87 = RMode.ofX86 (rcX87 s.control.cw)
  rmodeSse : s.control.rmodeSse = RMode.ofX86 (rcSse s.control.mxcsr)
  cw : ∀ value ∈ s.unit_.cw, s.control.cw = value
  mxcsr : ∀ value ∈ s.unit_.mxcsr, s.control.mxcsr = value

/-- `FNINIT` does not write `rmode_x87`, and `FNSAVE` does not initialise at all. -/
def ControlOk (s : FpuMachine) : FpuInsn → Prop
  | .fninit => RMode.ofX86 (rcX87 s.control.cw) = .rne
  | .fnsave => s.control.cw = 0x037F#16
  | _ => True

theorem tracks_initial : initial.Tracks where
  rmodeX87 := rfl
  rmodeSse := rfl
  cw := by simp [initial, X87Unit.initial]
  mxcsr := by simp [initial, X87Unit.initial]

/-- A step that leaves the control words and their copies alone, on both sides. -/
theorem Tracks.of_eq (h : s.Tracks) (hwords : t.control.words = s.control.words)
    (hcw : t.unit_.cw = s.unit_.cw) (hmxcsr : t.unit_.mxcsr = s.unit_.mxcsr) : t.Tracks := by
  simp only [FpuControl.words, Prod.mk.injEq] at hwords
  obtain ⟨hc, hm, hx87, hsse⟩ := hwords
  refine ⟨?_, ?_, ?_, ?_⟩
  · rw [hx87, hc, h.rmodeX87]
  · rw [hsse, hm, h.rmodeSse]
  · rw [hcw, hc]
    exact h.cw
  · rw [hmxcsr, hm]
    exact h.mxcsr

theorem Tracks.step (h : s.Tracks) (hstep : Guarded ControlOk Step s i t) : t.Tracks := by
  obtain ⟨hok, rfl⟩ := hstep
  cases i with
  | fnclex => exact h.of_eq rfl rfl rfl
  | fnstsw => exact h.of_eq rfl rfl rfl
  | fnstenv => exact h.of_eq rfl rfl rfl
  | fxsave => exact h.of_eq rfl rfl rfl
  | plain => exact h.of_eq rfl rfl rfl
  | deliverSignal => exact h.of_eq rfl rfl rfl
  | sigreturn => exact h.of_eq rfl rfl rfl
  -- the top of the stack and the status word are not part of the law
  | fcom outcome popCount => exact h.of_eq (FpuControl.words_popTop_iterate _ _) rfl rfl
  | fxam st0 => exact h.of_eq rfl rfl rfl
  | fprem quotient complete => cases complete <;> exact h.of_eq rfl rfl rfl
  | fsin outOfRange => exact h.of_eq rfl rfl rfl
  | fptan outOfRange => cases outOfRange <;> exact h.of_eq rfl rfl rfl
  | push => exact h.of_eq rfl rfl rfl
  | pop => exact h.of_eq rfl rfl rfl
  -- the loads, each with its own way to decode the rounding control
  | fldcw value =>
    exact ⟨RMode.ofTable_eq_ofX86 _, h.rmodeSse, fun v hv ↦ Option.some.inj hv, h.mxcsr⟩
  | ldmxcsr value =>
    exact ⟨h.rmodeX87, RMode.ofTable_eq_ofX86 _, h.cw, fun v hv ↦ Option.some.inj hv⟩
  | fldenv env => exact ⟨rfl, h.rmodeSse, fun v hv ↦ Option.some.inj hv, h.mxcsr⟩
  | frstor env => exact ⟨rfl, h.rmodeSse, fun v hv ↦ Option.some.inj hv, h.mxcsr⟩
  | fxrstor fcw fsw ftw mxcsr =>
    exact ⟨rfl, rfl, fun v hv ↦ Option.some.inj hv, fun v hv ↦ Option.some.inj hv⟩
  -- `rmode_x87` is stale from here on, unless it was nearest already
  | fninit =>
    have hrne : s.control.rmodeX87 = .rne := h.rmodeX87.trans hok
    have hinit : RMode.ofX86 (rcX87 0x037F#16) = .rne := by decide
    exact ⟨hrne.trans hinit.symm, h.rmodeSse, fun v hv ↦ Option.some.inj hv, h.mxcsr⟩
  | fnsave =>
    have hcw : s.control.cw = 0x037F#16 := hok
    exact ⟨h.rmodeX87, h.rmodeSse, fun v hv ↦ hcw.trans (Option.some.inj hv), h.mxcsr⟩

/-- The copies follow their control words through every run in which `FNINIT` finds the nearest mode
and `FNSAVE` the initial control word. -/
theorem tracks_of_run {is : List FpuInsn} (hrun : Run (Guarded ControlOk Step) initial is s) :
    s.Tracks :=
  hrun.invariant tracks_initial fun _ _ _ h hstep ↦ h.step hstep

/-- A program that rounds towards zero for a while, in both units. -/
theorem tracks_truncate :
    ∃ s, Run (Guarded ControlOk Step) initial
      [.fldcw 0x0F7F#16, .ldmxcsr 0x7F80#32, .fldcw 0x037F#16, .fninit] s ∧ s.Tracks := by
  have hnearest : RMode.ofX86 (rcX87 0x037F#16) = .rne := by decide
  have hrun : Run (Guarded ControlOk Step) initial
      [.fldcw 0x0F7F#16, .ldmxcsr 0x7F80#32, .fldcw 0x037F#16, .fninit] _ :=
    .cons ⟨trivial, rfl⟩ (.cons ⟨trivial, rfl⟩ (.cons ⟨trivial, rfl⟩ (.single ⟨hnearest, rfl⟩)))
  exact ⟨_, hrun, tracks_of_run hrun⟩

/-- `FLDCW` with truncation, then `FNINIT`: the control word says nearest and `rmode_x87` still says
truncation. -/
theorem not_tracks_fninit :
    ∃ s, Run Step initial [.fldcw 0x0F7F#16, .fninit] s ∧
      s.control.cw = 0x037F#16 ∧ s.control.rmodeX87 = .rtz ∧ ¬s.Tracks := by
  refine ⟨_, .cons rfl (.single rfl), rfl, by decide, fun h ↦ ?_⟩
  exact absurd h.rmodeX87 (by decide)

end FpuMachine

/-! ## The status word -/

/-- A status word shows the top of the stack and the condition codes. -/
def Shows (word : BitVec 16) (a : X87Unit) : Prop :=
  topOfSw word = a.top.setWidth 8 ∧ ConditionCodes.ofSw word = a.codes

/-- The top of the stack may be another one afterwards. -/
def FpuInsn.MovesTop : FpuInsn → Prop
  | .fninit | .fldenv _ | .fnsave | .frstor _ | .fxrstor .. | .fptan _ | .push | .pop => True
  | .fcom _ popCount => popCount ≠ 0
  | _ => False

/-- The condition codes may be others afterwards. -/
def FpuInsn.DefinesCodes : FpuInsn → Prop
  | .fninit | .fldenv _ | .fnsave | .frstor _ | .fxrstor .. | .fcom .. => True
  | .fxam _ | .fprem .. | .fsin _ | .fptan _ => True
  | _ => False

theorem topOfSw_eq (sw : BitVec 16) : topOfSw sw = ((sw >>> 11).setWidth 3).setWidth 8 := by
  ext j hj
  interval_cases j <;> simp [topOfSw]

theorem pushTop_setWidth (top : BitVec 3) :
    (top.setWidth 8 - 1) &&& 0b111#8 = (top - 1).setWidth 8 := by
  revert top
  decide

theorem popTop_setWidth (top : BitVec 3) :
    (top.setWidth 8 + 1) &&& 0b111#8 = (top + 1).setWidth 8 := by
  revert top
  decide

namespace ConditionCodes

theorem ofSw_and_or (sw : BitVec 16) (codes : ConditionCodes) :
    ofSw (sw &&& ~~~(codeBits ⟨true, true, true, true⟩) ||| codeBits codes) = codes := by
  obtain ⟨c0, c1, c2, c3⟩ := codes
  simp only [ofSw, codeBits]
  cases c0 <;> cases c1 <;> cases c2 <;> cases c3 <;> simp

theorem ofSw_clearC2 (sw : BitVec 16) :
    ofSw (sw &&& ~~~(1#16 <<< 10)) = { ofSw sw with c2 := false } := by
  simp [ofSw]

theorem ofSw_setC2 (sw : BitVec 16) :
    ofSw (sw ||| 1#16 <<< 10) = { ofSw sw with c2 := true } := by
  simp [ofSw]

/-- The processor's codes of a comparison. -/
theorem ofSw_fcomWord (outcome : Comparison) :
    ofSw ((fcomWord outcome).setWidth 16) = outcome.codes := by
  cases outcome <;> decide

end ConditionCodes

namespace FpuControl

variable {s : FpuControl}

/-- The merged word, read bit by bit. -/
theorem shows_statusWord {a : X87Unit} (htop : s.top = a.top.setWidth 8)
    (hcodes : ConditionCodes.ofSw s.sw = a.codes) : Shows s.statusWord a := by
  have hlt : s.top.toNat < 8 := by
    rw [htop, BitVec.toNat_setWidth_of_le (by norm_num)]
    exact a.top.isLt
  refine ⟨(s.topOfSw_statusWord hlt).trans htop, ?_⟩
  rw [← hcodes, statusWord, htop]
  simp [ConditionCodes.ofSw]

theorem fnstsw_eq : s.fnstsw = s.sw := by
  ext j hj
  simp only [fnstsw, BitVec.getElem_setWidth, BitVec.getLsbD_append, hj]
  exact BitVec.getLsbD_eq_getElem hj

/-- The store of a comparison clears `fpu_top`. -/
theorem top_storeSw (outcome : Comparison) : (s.storeSw (fcomWord outcome)).top = 0 := by
  have hupper : (fcomWord outcome >>> 16).setWidth 8 = 0#8 := by cases outcome <;> decide
  exact hupper

theorem sw_popTop_iterate (n : ℕ) : (popTop^[n] s).sw = s.sw := by
  induction n generalizing s with
  | zero => rfl
  | succ n ih => exact ih

theorem top_popTop_iterate {top : BitVec 3} (h : s.top = top.setWidth 8) (n : ℕ) :
    (popTop^[n] s).top = (top + BitVec.ofNat 3 n).setWidth 8 := by
  induction n generalizing s top with
  | zero => simpa using h
  | succ n ih =>
    have hpop : s.popTop.top = (top + 1).setWidth 8 := by
      rw [popTop, h, popTop_setWidth]
    have hsum : top + 1 + BitVec.ofNat 3 n = top + BitVec.ofNat 3 (n + 1) := by
      rw [BitVec.add_assoc, Nat.add_comm n 1, BitVec.ofNat_add]
      rfl
    rw [← hsum]
    exact ih hpop

end FpuControl

namespace FpuMachine

variable {s t : FpuMachine} {i : FpuInsn}

/-- The two sides have the same top of stack and the same condition codes, and every status word
that was shown was right. -/
structure Agrees (s : FpuMachine) : Prop where
  top : s.control.top = s.unit_.top.setWidth 8
  codes : ConditionCodes.ofSw s.control.sw = s.unit_.codes
  seen : ∀ p ∈ s.seen, Shows p.1 p.2

/-- What an instruction is not meant to change stays. -/
def Keeps (s : FpuMachine) (i : FpuInsn) (t : FpuMachine) : Prop :=
  (¬i.MovesTop → t.control.top = s.control.top) ∧
    (¬i.DefinesCodes → ConditionCodes.ofSw t.control.sw = ConditionCodes.ofSw s.control.sw)

/-- A comparison clears `fpu_top`, `FNSTSW` shows the bits that are in `fpu_sw`, `FNINIT` and
`FNSAVE` do not clear the status word, and the helpers of `FXAM`, `FSIN`, `FCOS` and `FPTAN` do not
know NaNs and operands out of range. -/
def StatusOk (s : FpuMachine) : FpuInsn → Prop
  | .fcom _ _ => s.control.top = 0
  | .fnstsw => topOfSw s.control.sw = s.control.top
  | .fninit => s.control.top = 0 ∧ ConditionCodes.ofSw s.control.sw = .clear
  | .fnsave => s.control.top = 0 ∧ ConditionCodes.ofSw s.control.sw = .clear
  | .fxam st0 => st0 &&& 0x7FFFFFFFFFFFFFFF#64 ≤ 0x7FF0000000000000#64
  | .fsin outOfRange => outOfRange = false
  | .fptan outOfRange => outOfRange = false
  | _ => True

theorem agrees_initial : initial.Agrees := ⟨rfl, rfl, by simp [initial]⟩

/-- The words an acceptable instruction shows. -/
theorem Agrees.shows (h : s.Agrees) (hok : s.StatusOk i) {word : BitVec 16}
    (hword : s.control.shown i = some word) : Shows word s.unit_ := by
  have hmerged : Shows s.control.statusWord s.unit_ := FpuControl.shows_statusWord h.top h.codes
  cases i with
  | fnstsw =>
    obtain rfl := Option.some.inj hword
    rw [FpuControl.fnstsw_eq]
    have htop : topOfSw s.control.sw = s.control.top := hok
    exact ⟨htop.trans h.top, h.codes⟩
  | fnstenv | fnsave | fxsave =>
    obtain rfl := Option.some.inj hword
    exact hmerged
  | _ => exact absurd hword (by simp [FpuControl.shown])

theorem fxamClass_eq {st0 : BitVec 64}
    (h : st0 &&& 0x7FFFFFFFFFFFFFFF#64 ≤ 0x7FF0000000000000#64) :
    (⟨(fxamClass st0).2.2, st0.getLsbD 63, (fxamClass st0).2.1, (fxamClass st0).1⟩ :
        ConditionCodes) =
      fxamCodes st0 := by
  have hnan : ¬0x7FF0000000000000#64 < st0 &&& 0x7FFFFFFFFFFFFFFF#64 := BitVec.not_lt.mpr h
  simp only [fxamClass, fxamCodes, hnan, if_false]
  split_ifs <;> rfl

/-- The codes after an acceptable instruction. -/
theorem Agrees.codes_exec (h : s.Agrees) (hok : s.StatusOk i) :
    ConditionCodes.ofSw (s.control.exec i).sw = (s.unit_.exec i).codes := by
  cases i with
  | fninit => exact hok.2
  | fnsave => exact hok.2
  | fldenv env => rfl
  | frstor env => rfl
  | fxrstor fcw fsw ftw mxcsr => rfl
  | fcom outcome popCount =>
    rw [FpuControl.exec, FpuControl.sw_popTop_iterate]
    exact ConditionCodes.ofSw_fcomWord outcome
  | fxam st0 => exact (ConditionCodes.ofSw_and_or _ _).trans (fxamClass_eq hok)
  | fprem quotient complete =>
    cases complete with
    | false =>
      refine (ConditionCodes.ofSw_setC2 _).trans ?_
      rw [h.codes]
      rfl
    | true => exact ConditionCodes.ofSw_and_or _ _
  | fsin outOfRange =>
    obtain rfl : outOfRange = false := hok
    refine (ConditionCodes.ofSw_clearC2 _).trans ?_
    rw [h.codes]
    rfl
  | fptan outOfRange =>
    obtain rfl : outOfRange = false := hok
    refine (ConditionCodes.ofSw_clearC2 _).trans ?_
    rw [h.codes]
    rfl
  | _ => exact h.codes

/-- The top of the stack after an acceptable instruction. -/
theorem Agrees.top_exec (h : s.Agrees) (hok : s.StatusOk i) :
    (s.control.exec i).top = (s.unit_.exec i).top.setWidth 8 := by
  cases i with
  | fninit => exact hok.1
  | fnsave => exact hok.1
  | fldenv env => exact topOfSw_eq env.sw
  | frstor env => exact topOfSw_eq env.sw
  | fxrstor fcw fsw ftw mxcsr => exact topOfSw_eq fsw
  | fcom outcome popCount =>
    -- the store leaves a zero in `fpu_top`, which is what was there
    have htop : s.unit_.top = 0 := by
      have hzero : s.unit_.top.setWidth 8 = 0 := h.top.symm.trans hok
      revert hzero
      generalize s.unit_.top = top
      revert top
      decide
    have hstore : (s.control.storeSw (fcomWord outcome)).top = s.unit_.top.setWidth 8 :=
      (FpuControl.top_storeSw outcome).trans (by rw [htop]; rfl)
    exact FpuControl.top_popTop_iterate hstore popCount
  | fprem quotient complete => cases complete <;> exact h.top
  | fptan outOfRange =>
    obtain rfl : outOfRange = false := hok
    rw [FpuControl.exec, FpuControl.pushTop, FpuControl.clearC2, h.top, pushTop_setWidth]
    rfl
  | push => rw [FpuControl.exec, FpuControl.pushTop, h.top, pushTop_setWidth, X87Unit.exec]
  | pop => rw [FpuControl.exec, FpuControl.popTop, h.top, popTop_setWidth, X87Unit.exec]
  | _ => exact h.top

theorem Agrees.step (h : s.Agrees) (hstep : Guarded StatusOk Step s i t) : t.Agrees := by
  obtain ⟨hok, rfl⟩ := hstep
  refine ⟨h.top_exec hok, h.codes_exec hok, fun p hp ↦ ?_⟩
  rcases List.mem_append.mp hp with hold | hnew
  · exact h.seen p hold
  · obtain ⟨word, hword, rfl⟩ := List.mem_map.mp hnew
    exact h.shows hok (by simpa using hword)

theorem keeps_of_step (hstep : Guarded StatusOk Step s i t) : Keeps s i t := by
  obtain ⟨hok, rfl⟩ := hstep
  refine ⟨fun htop ↦ ?_, fun hcodes ↦ ?_⟩
  · cases i with
    | fninit | fldenv | fnsave | frstor | fxrstor | fptan | push | pop => exact absurd trivial htop
    | fcom outcome popCount =>
      obtain rfl : popCount = 0 := not_not.mp htop
      have hzero : s.control.top = 0 := hok
      exact (FpuControl.top_storeSw outcome).trans hzero.symm
    | fprem quotient complete => cases complete <;> rfl
    | _ => rfl
  · cases i with
    | fninit | fldenv | fnsave | frstor | fxrstor | fcom => exact absurd trivial hcodes
    | fxam | fprem | fsin | fptan => exact absurd trivial hcodes
    | _ => rfl

/-- In every run that avoids the defects of `StatusOk`, every status word the guest saw has the top
of the stack and the condition codes of the processor, the two sides still agree, and the next such
instruction changes no more than it should. -/
theorem agrees_of_run {is : List FpuInsn} (hrun : Run (Guarded StatusOk Step) initial is s) :
    s.Agrees ∧ ∀ i t, Guarded StatusOk Step s i t → Keeps s i t :=
  ⟨hrun.invariant agrees_initial fun _ _ _ h hstep ↦ h.step hstep, fun _ _ ↦ keeps_of_step⟩

/-- A comparison at the initial top of the stack, read by `FNSTSW` at once and by `FNSTENV` after a
load. -/
theorem agrees_compare :
    ∃ s, Run (Guarded StatusOk Step) initial [.fcom .less 0, .fnstsw, .push, .fnstenv] s ∧
      s.seen.map Prod.fst = [0x0100#16, 0x3900#16] ∧ s.Agrees := by
  have hinit : initial.control.top = 0 := rfl
  have hshow : topOfSw (initial.exec (.fcom .less 0)).control.sw =
      (initial.exec (.fcom .less 0)).control.top := by decide
  have hrun : Run (Guarded StatusOk Step) initial [.fcom .less 0, .fnstsw, .push, .fnstenv] _ :=
    .cons ⟨hinit, rfl⟩ (.cons ⟨hshow, rfl⟩ (.cons ⟨trivial, rfl⟩ (.single ⟨trivial, rfl⟩)))
  exact ⟨_, hrun, by decide, (agrees_of_run hrun).1⟩

/-- `FLD`, `FCOM`, `FNSTENV`: the top of the stack is 7, and the guest reads 0. -/
theorem not_agrees_fcom :
    ∃ s, Run Step initial [.push, .fcom .greater 0, .fnstenv] s ∧
      s.seen = [(0, ⟨none, none, 7, .clear⟩)] ∧ ¬s.Agrees := by
  refine ⟨_, .cons rfl (.cons rfl (.single rfl)), by decide, fun h ↦ ?_⟩
  exact absurd h.top (by decide)

end FpuMachine

end Felix86
