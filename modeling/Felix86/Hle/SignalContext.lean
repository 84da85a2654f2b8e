import Felix86.Hle.SignalMask
import Felix86.V2.RoundingMode
import Felix86.Lib.Numerals
import Mathlib.Logic.Function.Basic

/-!
# What a signal saves and restores

The guest's registers are in host registers while a block runs and in `ThreadState` while the
emulator's own code does. This file has the two places, the signal frame on the guest's stack, and
the functions that move values between them: `reconstruct_state`, the part of `setupFrame` that
fills the frame, and `Signals::sigreturn`. Where the frame is put is not part of it, nor is a host
kernel too old to save vector registers.
-/

namespace Felix86

open Numerals

/-- The guest registers that have a place on both sides. -/
inductive Reg
  | gpr (i : Fin 16)
  | xmm (i : Fin 16)
  | fp (i : Fin 8)
  | cf
  | zf
  | sf
  | of
deriving DecidableEq, Repr

/-- What a register holds. The host register of a flag is read as a C++ `bool`: any value but zero
counts as set. -/
abbrev Reg.Val : Reg → Type
  | .gpr _ => BitVec 64
  | .xmm _ => BitVec 128
  | .fp _ => BitVec 64
  | .cf => Bool
  | .zf => Bool
  | .sf => Bool
  | .of => Bool

/-- A value for every register. -/
abbrev Values := (r : Reg) → r.Val

/-- `ThreadState::x87_state`, as it is at run time. -/
inductive X87State
  | x87
  | mmx
deriving DecidableEq, Repr

/-- The host registers. Every guest register has one, and the eight x87 registers have two: a
floating-point register, in `regs`, and a vector register. -/
structure HostRegs where
  regs : Values
  mm : Fin 8 → BitVec 64
  rip : BitVec 64
  frm : RMode

namespace HostRegs

/-- The registers the guest sees when they are in the host's: `x87_state` chooses one of the two
sets. -/
def values (h : HostRegs) (x : X87State) : Values
  | .fp i => if x = .mmx then h.mm i else h.regs (.fp i)
  | r => h.regs r

/-- Load one register. -/
def set (h : HostRegs) (x : X87State) : (r : Reg) → r.Val → HostRegs
  | .fp i, v =>
    if x = .mmx then { h with mm := Function.update h.mm i v }
    else { h with regs := Function.update h.regs (.fp i) v }
  | r, v => { h with regs := Function.update h.regs r v }

@[simp] theorem rip_set (h : HostRegs) (x : X87State) (r : Reg) (v : r.Val) :
    (h.set x r v).rip = h.rip := by
  cases r with
  | fp i => cases x <;> rfl
  | _ => rfl

@[simp] theorem frm_set (h : HostRegs) (x : X87State) (r : Reg) (v : r.Val) :
    (h.set x r v).frm = h.frm := by
  cases r with
  | fp i => cases x <;> rfl
  | _ => rfl

theorem values_set (h : HostRegs) (x : X87State) (r : Reg) (v : r.Val) :
    (h.set x r v).values x = Function.update (h.values x) r v := by
  funext q
  by_cases hq : q = r
  · subst hq
    rw [Function.update_self]
    cases x <;> cases q <;> simp [values, set]
  · rw [Function.update_of_ne hq]
    cases x <;> cases r <;> cases q <;> simp_all [values, set, Function.update_of_ne]

end HostRegs

/-- The fields of `ThreadState` that emitted code works on in place. -/
structure InPlace where
  pf : Bool
  af : Bool
  df : Bool
  x87State : X87State
  fpuTop : BitVec 8
  rmodeSse : RMode
  rmodeX87 : RMode
deriving DecidableEq, Repr

/-- `ThreadState`, as far as signals are concerned. -/
structure ThreadState where
  values : Values
  rip : BitVec 64
  inPlace : InPlace
  signalMask : SigSet
  stateIsCorrect : Bool

/-! ## The x87 registers in the frame -/

/-- The significand, and the sign with the exponent, of `Float80` and of `x64_fpxreg`. -/
structure Float80 where
  significand : BitVec 64
  signExp : BitVec 16
deriving DecidableEq, Repr

/-- `f64_to_80`, on the bits of the double. -/
def f64To80 (x : BitVec 64) : Float80 :=
  let sign := (x >>> 63).setWidth 16
  let exponent := ((x >>> 52) &&& 0x7FF#64).setWidth 16
  let significand := x &&& 0xFFFFFFFFFFFFF#64
  if exponent = 0 then ⟨significand, sign <<< 15⟩
  else if exponent = 0x7FF#16 then
    ⟨if significand = 0 then 0 else 1#64 <<< 63 ||| significand, sign <<< 15 ||| 0x7FFF#16⟩
  else
    let exponent := exponent - 1023#16 + 16383#16
    ⟨(significand ||| 1#64 <<< 52) <<< 11, sign <<< 15 ||| exponent &&& 0x7FFF#16⟩

/-- `f80_to_64`. The exponent is an `int16_t` that is widened with its sign. -/
def f80To64 (x : Float80) : BitVec 64 :=
  let sign := (x.signExp >>> 15).setWidth 64
  let exponent := x.signExp &&& 0x7FFF#16
  if exponent = 0 then sign <<< 63 ||| x.significand >>> 11
  else if exponent = 0x7FFF#16 then
    sign <<< 63 ||| 0x7FF#64 <<< 52 ||| (if x.significand = 0 then 0#64 else x.significand >>> 11)
  else
    let exponent := exponent - 16383#16 + 1023#16
    sign <<< 63 ||| exponent.signExtend 64 <<< 52 ||| x.significand >>> 11 &&& 0xFFFFFFFFFFFFF#64

/-- The last bit of the significand goes up. -/
def roundsUp (rm : RMode) (quotient remainder half : Nat) : Bool :=
  match rm with
  | .rne => half < remainder || remainder == half && quotient % 2 == 1
  | .rup => 0 < remainder
  | .rdn => false
  | .rtz => false

/-- The conversion of an unsigned integer to a double, as bits, in the mode that is in `frm`. -/
def doubleOfU64 (rm : RMode) (n : BitVec 64) : BitVec 64 :=
  if n = 0 then 0
  else
    let k := n.toNat.log2
    let significand :=
      if k ≤ 52 then n.toNat <<< (52 - k)
      else
        let quotient := n.toNat >>> (k - 52)
        let remainder := n.toNat % 2 ^ (k - 52)
        if roundsUp rm quotient remainder (2 ^ (k - 53)) then quotient + 1 else quotient
    BitVec.ofNat 64 ((1023 + k) <<< 52 + (significand - 2 ^ 52))

/-- How `setupFrame` writes an x87 or MMX register. `ThreadState::fp` holds integers and `f64_to_80`
takes a double, so the call converts the bits as a number. -/
def encodeSt (rm : RMode) : X87State → BitVec 64 → Float80
  | .mmx, v => ⟨v, 0xFFFF#16⟩
  | .x87, v => f64To80 (doubleOfU64 rm v)

/-- How `sigreturn` reads one. -/
def decodeSt (st : Float80) : BitVec 64 :=
  if st.signExp = 0xFFFF#16 then st.significand else f80To64 st

/-! ## The frame -/

/-- The parts of the frame that hold guest state. `setupFrame` writes neither control word. -/
structure SigFrame where
  gregs : Fin 16 → BitVec 64
  rip : BitVec 64
  efl : BitVec 64
  xmm : Fin 16 → BitVec 128
  st : Fin 8 → Float80
  sigmask : SigSet
  cwd : BitVec 16
  swd : BitVec 16
  mxcsr : BitVec 32

/-- `ThreadState::GetFlags`. -/
def packFlags (cf pf af zf sf df of : Bool) : BitVec 64 :=
  let word (b : Bool) : BitVec 64 := (BitVec.ofBool b).setWidth 64
  word cf ||| word pf <<< 2 ||| word af <<< 4 ||| word zf <<< 6 ||| word sf <<< 7 |||
    word df <<< 10 ||| word of <<< 11

/-- The bits `sigreturn` reads are those `GetFlags` writes. -/
theorem getLsbD_packFlags (cf pf af zf sf df of : Bool) :
    (packFlags cf pf af zf sf df of).getLsbD 0 = cf ∧
      (packFlags cf pf af zf sf df of).getLsbD 2 = pf ∧
      (packFlags cf pf af zf sf df of).getLsbD 4 = af ∧
      (packFlags cf pf af zf sf df of).getLsbD 6 = zf ∧
      (packFlags cf pf af zf sf df of).getLsbD 7 = sf ∧
      (packFlags cf pf af zf sf df of).getLsbD 10 = df ∧
      (packFlags cf pf af zf sf df of).getLsbD 11 = of := by
  revert cf pf af zf sf df of
  decide

namespace ThreadState

variable (ts : ThreadState)

/-- `reconstruct_state`. -/
def reconstructState (h : HostRegs) : ThreadState :=
  if ts.stateIsCorrect then ts else { ts with values := h.values ts.inPlace.x87State }

/-- The frame `setupFrame` leaves on a stack that held `mem`. -/
def fillFrame (rm : RMode) (mem : SigFrame) : SigFrame :=
  { mem with
    gregs := fun i ↦ ts.values (.gpr i)
    rip := ts.rip
    efl := packFlags (ts.values .cf) ts.inPlace.pf ts.inPlace.af (ts.values .zf) (ts.values .sf)
      ts.inPlace.df (ts.values .of)
    xmm := fun i ↦ ts.values (.xmm i)
    st := fun i ↦ encodeSt rm ts.inPlace.x87State (ts.values (.fp i))
    sigmask := ts.signalMask }

/-- The registers a handler starts with: `RAX`, `RDX`, `RSP`, `RSI`, `RDI`. -/
def enterHandler (address sig func : BitVec 64) : ThreadState :=
  { ts with
    values := Function.update (Function.update (Function.update (Function.update
      (Function.update ts.values (.gpr 4) address) (.gpr 7) sig) (.gpr 6) (address + 992#64))
      (.gpr 2) (address + 16#64)) (.gpr 0) 0
    rip := func
    inPlace := { ts.inPlace with df := false } }

/-- `Signals::sigreturn`. -/
def sigreturn (frame : SigFrame) : ThreadState :=
  { ts with
    values := fun
      | .gpr i => frame.gregs i
      | .xmm i => frame.xmm i
      | .fp i => decodeSt (frame.st i)
      | .cf => frame.efl.getLsbD 0
      | .zf => frame.efl.getLsbD 6
      | .sf => frame.efl.getLsbD 7
      | .of => frame.efl.getLsbD 11
    rip := frame.rip
    inPlace := { ts.inPlace with
      pf := frame.efl.getLsbD 2
      af := frame.efl.getLsbD 4
      df := frame.efl.getLsbD 10 } }

end ThreadState

/-- The end of `dispatch_guest` for a signal that came in a block: of the host registers the kernel
will restore, those of the sixteen general registers are replaced. -/
def HostRegs.resume (h : HostRegs) (ts : ThreadState) : HostRegs :=
  { h with regs := fun
    | .gpr i => ts.values (.gpr i)
    | r => h.regs r }

end Felix86
