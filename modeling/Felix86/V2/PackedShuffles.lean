import Felix86.Lib.Lanes
import Felix86.V2.VectorState

/-!
# Packed shifts and shuffles

The vector registers of the guest are in the low bits of vector registers of the host, which may be
longer. The handlers of `PALIGNR`, of the shifts of packed integers and of the `PSHUF` instructions
set the element width and the vector length for each of their steps. Shift amounts of the host are
taken modulo the width, a slide brings in bits from above the register of the guest, and a gather
takes its indices from lanes of the width in force; the handlers clear what is too far, mask what is
brought in, and build the indices with another width.

The recompiler does not set a configuration that it takes to be in force. After `switchToMMX` it may
be wrong about that, and two of the handlers ask for just that configuration first. `correct_iff`
says that the handlers do what the guest's instructions do, for all operands and counts, but for
these two with a configuration of the switch that is not in force.
-/

namespace Felix86

namespace Vector

/-- The width in bits. -/
def Sew.bits : Sew → ℕ
  | e8 => 8
  | e16 => 16
  | e32 => 32
  | e64 => 64

end Vector

namespace Packed

open Lanes Rvv Felix86.Vector

/-! ## The vector unit -/

inductive Ref
  | xmm (i : Fin 16)
  | mm (i : Fin 8)
deriving DecidableEq, Repr

def Ref.bytes : Ref → ℕ
  | xmm _ => 16
  | mm _ => 8

/-- The host and the settings. `setVec` does not know registers that are shorter. -/
structure Ext where
  vlen : ℕ
  paranoid : Bool
  enough : 128 ≤ vlen
  power : ∃ n, vlen = 2 ^ n

/-- The configuration that is in force and the one that the recompiler takes it for. What the
recompiler knows is right, but for the configuration of `switchToMMX` and `switchToX87`, which is
one and the same: it is set in a branch that is skipped if the thread is in the state already, and
the recompiler takes it to be in force after either of them. -/
structure Setting where
  vtype : VType
  tracker : Tracker
  right : tracker.Right vtype ∨ tracker.Is mmxVType

/-- The guest's registers. -/
structure VectorUnit extends Setting where
  reg : Ref → Bits

namespace Setting

variable (k : Ext) (e : Setting)

def setVectorState (c : VType) : Setting :=
  if e.tracker.Is c ∧ k.paranoid = false then e
  else ⟨c, .ofVType c, .inl fun _ ↦ Tracker.is_ofVType.mpr rfl⟩

/-- The code sets the configuration if the thread is in the other state, and the recompiler takes it
for set. -/
def switchToMMX (x : Vector.X87State) : Setting :=
  match x with
  | .x87 => e.setVectorState k mmxVType
  | .mmx => ⟨e.vtype, .ofVType mmxVType, .inr (Tracker.is_ofVType.mpr rfl)⟩

/-- The first lane has 64 bits. -/
def Wide : Prop := e.vtype.sew = .e64 ∧ 0 < e.vtype.vlen

end Setting

namespace VectorUnit

variable (k : Ext) (u : VectorUnit)

/-- The element width. -/
def w : ℕ := u.vtype.sew.bits

/-- The vector length. -/
def vl : ℕ := u.vtype.vlen

def setVectorState (c : VType) : VectorUnit :=
  { u with toSetting := u.toSetting.setVectorState k c }

/-- An instruction whose destination is a register of the guest. -/
def setReg (r : Ref) (v : Bits) : VectorUnit := { u with reg := Function.update u.reg r v }

def isCurrentLength128 : Bool :=
  u.tracker.grouping = .m1 && match u.tracker.sew with
    | some .e64 => u.tracker.vlen = 2
    | some .e32 => u.tracker.vlen = 4
    | some .e16 => u.tracker.vlen = 8
    | some .e8 => u.tracker.vlen = 16
    | none => false

/-- `setVec` with a scratch register. -/
def setVec (d : Ref) (vec : Bits) : VectorUnit :=
  if k.vlen = 128 then u.setReg d vec -- `VMV1R`
  else
    let u := if u.isCurrentLength128 then u else u.setVectorState k ⟨.e8, 16, .m1⟩
    u.setReg d (vmvV u.w u.vl (u.reg d) vec)

end VectorUnit

/-- An operand: a register, or what is in memory. -/
inductive Source (n : ℕ)
  | reg (r : Ref) (h : r.bytes = n)
  | mem (data : ℕ → BitVec 8)

/-- `getVec`. A register that is loaded has other bits above the ones of the guest. -/
def VectorUnit.getVec (k : Ext) (u : VectorUnit) {n : ℕ} (s : Source n) (junk : Bits) :
    Bits × VectorUnit :=
  match s with
  | .reg r _ => (u.reg r, u)
  | .mem data =>
    let u := u.setVectorState k ⟨.e8, n, .m1⟩
    (setLanes u.vl data junk, u)

/-- The second operand of a shift. -/
inductive Count (n : ℕ)
  | imm (val : BitVec 8)
  | vec (s : Source n)

/-! ## Handlers -/

section Handlers

variable (k : Ext) (junk : ℕ → Bits) (u : VectorUnit)

/-- Ones from bit `n` on. -/
def maskFrom (n : ℕ) : BitVec 64 := ~~~((1#64 <<< n) - 1#64)

/-- There is no code for `MMX`. -/
def palignr (d : Ref) (s : Source d.bytes) (imm : BitVec 8) : Option VectorUnit :=
  if d.bytes = 8 then none
  else
    let dst := u.reg d
    let (src, u) := u.getVec k s (junk 0)
    let u := u.setVectorState k ⟨.e64, 2, .m1⟩
    if 31 < imm.toNat then some (u.setReg d (vmvX u.w u.vl dst 0))
    else if imm.toNat < 16 then
      let v0 := vmvSX u.w u.vl (junk 1) (maskFrom (16 - imm.toNat))
      let u := u.setVectorState k ⟨.e8, 16, .m1⟩
      let result := vmvX u.w u.vl (junk 2) 0
      let result := vslidedown k.vlen u.w u.vl result src imm.toNat
      let result := vandXMasked u.w u.vl result result v0 0
      let slideUp := vmvX u.w u.vl (junk 3) 0
      let slideUp := vslideup u.w u.vl slideUp dst (16 - imm.toNat)
      let result := vor u.w u.vl result result slideUp
      some (u.setVec k d result)
    else
      let v0 := vmvSX u.w u.vl (junk 1) (maskFrom (32 - imm.toNat))
      let u := u.setVectorState k ⟨.e8, 16, .m1⟩
      let result := vmvX u.w u.vl (junk 2) 0
      let result := vslidedown k.vlen u.w u.vl result dst (imm.toNat - 16)
      let result := vandXMasked u.w u.vl result result v0 0
      some (u.setVec k d result)

def pslldq (d : Ref) (imm : BitVec 8) : VectorUnit :=
  let dst := u.reg d
  let u := u.setVectorState k ⟨.e8, 16, .m1⟩
  if 15 < imm.toNat then u.setVec k d (vmvX u.w u.vl (junk 0) 0)
  else
    let temp := vmvX u.w u.vl (junk 0) 0
    u.setVec k d (vslideup u.w u.vl temp dst imm.toNat)

def psrldq (d : Ref) (imm : BitVec 8) : VectorUnit :=
  let dst := u.reg d
  let u := u.setVectorState k ⟨.e64, 2, .m1⟩
  if 15 < imm.toNat then u.setVec k d (vmvX u.w u.vl (junk 0) 0)
  else
    let v0 := vmvSX u.w u.vl (junk 1) (maskFrom (16 - imm.toNat))
    let u := u.setVectorState k ⟨.e8, 16, .m1⟩
    let temp := vslidedown k.vlen u.w u.vl (junk 0) dst imm.toNat
    u.setVec k d (vandXMasked u.w u.vl temp temp v0 0)

/-- The shift amount, which is all of the first 64 bits of a vector. -/
def shiftAmount {n : ℕ} (c : Count n) : BitVec 64 × VectorUnit :=
  match c with
  | .imm val => (val.setWidth 64, u)
  | .vec s =>
    let (src, u) := u.getVec k s (junk 0)
    let u := u.setVectorState k ⟨.e64, 2, .m1⟩
    (vmvXS u.w src, u)

/-- The shifts that clear the register if the amount is too large. -/
def shiftLogical (c : VType) (max : BitVec 64) (op : ℕ → ℕ → Bits → Bits → BitVec 64 → Bits)
    (d : Ref) (count : Count d.bytes) : VectorUnit :=
  let (shift, u) := shiftAmount k junk u count
  let u := u.setVectorState k c
  -- `BLTU(shift, max, &dont_zero)`
  let u := if shift < max then u else u.setReg d (vmvX u.w u.vl (u.reg d) 0)
  u.setReg d (op u.w u.vl (u.reg d) (u.reg d) shift)

def psllw : (d : Ref) → Count d.bytes → VectorUnit := shiftLogical k junk u ⟨.e16, 8, .m1⟩ 16 vsll
def pslld : (d : Ref) → Count d.bytes → VectorUnit := shiftLogical k junk u ⟨.e32, 4, .m1⟩ 32 vsll
def psllq : (d : Ref) → Count d.bytes → VectorUnit := shiftLogical k junk u ⟨.e64, 2, .m1⟩ 64 vsll
def psrlw : (d : Ref) → Count d.bytes → VectorUnit := shiftLogical k junk u ⟨.e16, 8, .m1⟩ 16 vsrl
def psrld : (d : Ref) → Count d.bytes → VectorUnit := shiftLogical k junk u ⟨.e32, 4, .m1⟩ 32 vsrl
def psrlq : (d : Ref) → Count d.bytes → VectorUnit := shiftLogical k junk u ⟨.e64, 2, .m1⟩ 64 vsrl

/-- A shift amount that is too large is replaced, an immediate at compile time and a vector at
run time. -/
def limitedAmount (max : BitVec 8) (ok : BitVec 64 → BitVec 64 → Bool) {n : ℕ} (count : Count n) :
    BitVec 64 × VectorUnit :=
  match count with
  | .imm val => ((if max < val then max else val).setWidth 64, u)
  | .vec s =>
    let (shift, u) := shiftAmount k junk u (.vec s)
    (if ok shift (max.setWidth 64) then shift else max.setWidth 64, u)

def shiftArith (c : VType) (max : BitVec 8) (ok : BitVec 64 → BitVec 64 → Bool) (d : Ref)
    (count : Count d.bytes) : VectorUnit :=
  let (shift, u) := limitedAmount k junk u max ok count
  let u := u.setVectorState k c
  u.setReg d (vsra u.w u.vl (u.reg d) (u.reg d) shift)

/-- The comparison is `BLEU`. -/
def psraw : (d : Ref) → Count d.bytes → VectorUnit :=
  shiftArith k junk u ⟨.e16, 8, .m1⟩ 15 fun a b ↦ a ≤ b

/-- The comparison is `BLTU`. -/
def psrad : (d : Ref) → Count d.bytes → VectorUnit :=
  shiftArith k junk u ⟨.e32, 4, .m1⟩ 31 fun a b ↦ a < b

/-- `el0` to `el3`. -/
def el (imm : BitVec 8) (i : ℕ) : BitVec 64 := ((imm >>> (2 * i)) &&& 3).setWidth 64

/-- Four indices of 16 bits. -/
def indices (f : ℕ → BitVec 64) : BitVec 64 :=
  f 3 <<< 48 ||| f 2 <<< 32 ||| f 1 <<< 16 ||| f 0

def pshufw (d : Ref) (s : Source d.bytes) (imm : BitVec 8) : VectorUnit :=
  let (src, u) := u.getVec k s (junk 0)
  let u := u.setVectorState k ⟨.e64, 1, .m1⟩
  let iota := vmvSX u.w u.vl (junk 2) (indices (el imm))
  let u := u.setVectorState k ⟨.e16, 4, .m1⟩
  u.setVec k d (vrgather k.vlen u.w u.vl (junk 1) src iota)

def pshufd (d : Ref) (s : Source d.bytes) (imm : BitVec 8) : VectorUnit :=
  let (src, u) := u.getVec k s (junk 0)
  let u := u.setVectorState k ⟨.e64, 1, .m1⟩
  let iota := vmvSX u.w u.vl (junk 2) (indices (el imm))
  let u := u.setVectorState k ⟨.e32, 4, .m1⟩
  u.setVec k d (vrgatherei16 k.vlen u.w u.vl (junk 1) src iota)

/-- The handler ends with an assertion on the host. -/
def pshufb (d : Ref) (s : Source d.bytes) : Option VectorUnit :=
  let dst := u.reg d
  let (mask, u) := u.getVec k s (junk 0)
  let (bitmask, u) :=
    if d.bytes = 8 then ((0b10000111 : BitVec 64), u.setVectorState k ⟨.e8, 8, .m1⟩)
    else (0b10001111, u.setVectorState k ⟨.e8, 16, .m1⟩)
  let maskMasked := vandX u.w u.vl (junk 1) mask bitmask
  let tmp := vrgather k.vlen u.w u.vl (junk 2) dst maskMasked
  if k.vlen < 2048 then some (u.setVec k d tmp) else none

def pshuflw (d : Ref) (s : Source d.bytes) (imm : BitVec 8) : VectorUnit :=
  let (src, u) := u.getVec k s (junk 0)
  let u := u.setVectorState k ⟨.e16, 8, .m1⟩
  -- the indices 4 to 7 are in the low half then, and are moved up
  let iota := vid u.w u.vl (junk 1)
  let iota := vslidedown k.vlen u.w u.vl iota iota 4
  let u := u.setVectorState k ⟨.e64, 2, .m1⟩
  let iota2 := vslide1up u.w u.vl (junk 2) iota (indices (el imm))
  let result := vmvX u.w u.vl (junk 3) 0
  let u := u.setVectorState k ⟨.e16, 8, .m1⟩
  u.setVec k d (vrgather k.vlen u.w u.vl result src iota2)

def pshufhw (d : Ref) (s : Source d.bytes) (imm : BitVec 8) : VectorUnit :=
  let (src, u) := u.getVec k s (junk 0)
  let u := u.setVectorState k ⟨.e64, 2, .m1⟩
  let iota := vmvSX u.w u.vl (junk 1) (indices fun i ↦ 4 + el imm i)
  let iota2 := vslide1up u.w u.vl (junk 2) iota 0
  let u := u.setVectorState k ⟨.e16, 8, .m1⟩
  let result := vmvV u.w u.vl (junk 3) src
  let v0 := vmvX u.w u.vl (junk 4) 0b11110000
  u.setVec k d (vrgatherMasked k.vlen u.w u.vl result src iota2 v0)

end Handlers

/-! ## What the guest's instructions do -/

/-- The value of an operand. Memory has the bits of the operand only. -/
def Source.value {n : ℕ} (s : Source n) (u : VectorUnit) : Bits :=
  match s with
  | .reg r _ => u.reg r
  | .mem data => ofLanes data

inductive Direction
  | left
  | right
  | arith
deriving DecidableEq, Repr

/-- A lane shifted by any number of bits. -/
def Direction.shift {w : ℕ} (x : BitVec w) (n : ℕ) : Direction → BitVec w
  | left => if w ≤ n then 0 else x <<< n
  | right => if w ≤ n then 0 else x >>> n
  | arith => x.sshiftRight (min n (w - 1))

inductive ShiftOp
  | psllw
  | pslld
  | psllq
  | psrlw
  | psrld
  | psrlq
  | psraw
  | psrad
deriving DecidableEq, Repr

def ShiftOp.width : ShiftOp → ℕ
  | psllw | psrlw | psraw => 16
  | pslld | psrld | psrad => 32
  | psllq | psrlq => 64

def ShiftOp.direction : ShiftOp → Direction
  | psllw | pslld | psllq => .left
  | psrlw | psrld | psrlq => .right
  | psraw | psrad => .arith

/-- The count of a shift: the immediate, or the first 64 bits of the operand. -/
def Count.value {n : ℕ} (c : Count n) (u : VectorUnit) : ℕ :=
  match c with
  | .imm val => val.toNat
  | .vec s => (lane 64 (s.value u) 0).toNat

/-- Two bits of an immediate. -/
def field (imm : BitVec 8) (i : ℕ) : ℕ := imm.toNat / 4 ^ i % 4

/-- The destination and the source, one above the other, from a byte on. -/
def alignBytes (imm : BitVec 8) (dst src : Bits) : Bits := ofLanes fun i ↦
  if i + imm.toNat < 16 then lane 8 src (i + imm.toNat)
  else if i + imm.toNat < 32 then lane 8 dst (i + imm.toNat - 16)
  else 0

def leftBytes (imm : BitVec 8) (dst : Bits) : Bits := ofLanes fun i ↦
  if i < imm.toNat then 0 else lane 8 dst (i - imm.toNat)

def rightBytes (imm : BitVec 8) (dst : Bits) : Bits := ofLanes fun i ↦
  if i + imm.toNat < 16 then lane 8 dst (i + imm.toNat) else 0

def shiftLanes (w : ℕ) (direction : Direction) (n : ℕ) (dst : Bits) : Bits := ofLanes fun i ↦
  direction.shift (lane w dst i) n

def shuffle (w : ℕ) (imm : BitVec 8) (src : Bits) : Bits := ofLanes fun i ↦
  lane w src (field imm i)

def shuffleBytes (n : ℕ) (dst src : Bits) : Bits := ofLanes fun i ↦
  if (lane 8 src i).msb then 0 else lane 8 dst ((lane 8 src i).toNat % n)

def shuffleLow (imm : BitVec 8) (src : Bits) : Bits := ofLanes fun i ↦
  if i < 4 then lane 16 src (field imm i) else lane 16 src i

def shuffleHigh (imm : BitVec 8) (src : Bits) : Bits := ofLanes fun i ↦
  if i < 4 then lane 16 src i else lane 16 src (4 + field imm (i - 4))

inductive Insn
  | palignr (d : Fin 16) (s : Source 16) (imm : BitVec 8)
  | pslldq (d : Fin 16) (imm : BitVec 8)
  | psrldq (d : Fin 16) (imm : BitVec 8)
  | shift (op : ShiftOp) (d : Ref) (count : Count d.bytes)
  | pshufw (d : Fin 8) (s : Source 8) (imm : BitVec 8)
  | pshufd (d : Fin 16) (s : Source 16) (imm : BitVec 8)
  | pshufb (d : Ref) (s : Source d.bytes)
  | pshuflw (d : Fin 16) (s : Source 16) (imm : BitVec 8)
  | pshufhw (d : Fin 16) (s : Source 16) (imm : BitVec 8)

namespace Insn

def dst : Insn → Ref
  | palignr d _ _ => .xmm d
  | pslldq d _ => .xmm d
  | psrldq d _ => .xmm d
  | shift _ d _ => d
  | pshufw d _ _ => .mm d
  | pshufd d _ _ => .xmm d
  | pshufb d _ => d
  | pshuflw d _ _ => .xmm d
  | pshufhw d _ _ => .xmm d

/-- The destination afterwards. -/
def result (i : Insn) (u : VectorUnit) : Bits :=
  match i with
  | palignr d s imm => alignBytes imm (u.reg (.xmm d)) (s.value u)
  | pslldq d imm => leftBytes imm (u.reg (.xmm d))
  | psrldq d imm => rightBytes imm (u.reg (.xmm d))
  | shift op d count => shiftLanes op.width op.direction (count.value u) (u.reg d)
  | pshufw _ s imm => shuffle 16 imm (s.value u)
  | pshufd _ s imm => shuffle 32 imm (s.value u)
  | pshufb d s => shuffleBytes d.bytes (u.reg d) (s.value u)
  | pshuflw _ s imm => shuffleLow imm (s.value u)
  | pshufhw _ s imm => shuffleHigh imm (s.value u)

/-- The handler of an instruction. -/
def run (k : Ext) (junk : ℕ → Bits) (u : VectorUnit) : Insn → Option VectorUnit
  | palignr d s imm => Packed.palignr k junk u (.xmm d) s imm
  | pslldq d imm => some (Packed.pslldq k junk u (.xmm d) imm)
  | psrldq d imm => some (Packed.psrldq k junk u (.xmm d) imm)
  | shift .psllw d count => some (psllw k junk u d count)
  | shift .pslld d count => some (pslld k junk u d count)
  | shift .psllq d count => some (psllq k junk u d count)
  | shift .psrlw d count => some (psrlw k junk u d count)
  | shift .psrld d count => some (psrld k junk u d count)
  | shift .psrlq d count => some (psrlq k junk u d count)
  | shift .psraw d count => some (psraw k junk u d count)
  | shift .psrad d count => some (psrad k junk u d count)
  | pshufw d s imm => some (Packed.pshufw k junk u (.mm d) s imm)
  | pshufd d s imm => some (Packed.pshufd k junk u (.xmm d) s imm)
  | pshufb d s => Packed.pshufb k junk u d s
  | pshuflw d s imm => some (Packed.pshuflw k junk u (.xmm d) s imm)
  | pshufhw d s imm => some (Packed.pshufhw k junk u (.xmm d) s imm)

end Insn

/-- A register of the guest has got a value, and nothing else of the guest's has changed. -/
structure Done (k : Ext) (u u' : VectorUnit) (d : Ref) (result : Bits) : Prop where
  value : Agree (8 * d.bytes) (u'.reg d) result
  upper : ∀ i, d = .xmm i → ∀ b, 128 ≤ b → b < k.vlen → u'.reg d b = u.reg d b
  others : ∀ r, r ≠ d → u'.reg r = u.reg r

/-! ## The configuration -/

namespace VectorUnit

variable {k : Ext} {u : VectorUnit} {c : VType} {d r : Ref} {v vec : Bits}

/-- Whether or not code is emitted, the configuration is the one that was asked for. -/
theorem vtype_setVectorState (hc : c ≠ mmxVType) : (u.setVectorState k c).vtype = c := by
  rw [setVectorState, Setting.setVectorState]
  split
  · next h =>
    have hright : u.tracker.Right u.vtype := u.right.resolve_right fun hmmx ↦ by
      rw [h.1.eq] at hmmx
      exact hc (Tracker.is_ofVType.mp hmmx)
    have hhw := hright (by rw [h.1.1]; exact Option.some_ne_none _)
    rw [h.1.eq] at hhw
    exact (Tracker.is_ofVType.mp hhw).symm
  · rfl

@[simp]
theorem reg_setVectorState : (u.setVectorState k c).reg = u.reg := rfl

theorem w_setVectorState (hc : c ≠ mmxVType) : (u.setVectorState k c).w = c.sew.bits := by
  rw [w, vtype_setVectorState hc]

theorem vl_setVectorState (hc : c ≠ mmxVType) : (u.setVectorState k c).vl = c.vlen := by
  rw [vl, vtype_setVectorState hc]

@[simp]
theorem w_setReg : (u.setReg r v).w = u.w := rfl

@[simp]
theorem vl_setReg : (u.setReg r v).vl = u.vl := rfl

@[simp]
theorem reg_setReg_self : (u.setReg r v).reg r = v := Function.update_self _ _ _

theorem reg_setReg_of_ne (h : d ≠ r) : (u.setReg r v).reg d = u.reg d := Function.update_of_ne h _ _

/-- A tracker that knows 128 bits is right about them. -/
theorem w_mul_vl (h : u.isCurrentLength128 = true) : u.w * u.vl = 128 := by
  rw [isCurrentLength128, Bool.and_eq_true] at h
  have hright : u.tracker.Right u.vtype := u.right.resolve_right fun hmmx ↦ by
    simp [hmmx.eq, mmxVType, Tracker.ofVType] at h
  cases hsew : u.tracker.sew with
  | none => simp [hsew] at h
  | some sew =>
    obtain ⟨hhw, hvl, -⟩ := hright (by rw [hsew]; exact Option.some_ne_none _)
    obtain rfl := Option.some_injective _ (hsew.symm.trans hhw)
    rw [w, vl, ← hvl]
    revert h
    rw [hsew]
    cases u.vtype.sew <;> simp +contextual [Sew.bits]

/-- `setVec` sets 128 bits, and only those. -/
theorem reg_setVec (b : ℕ) : (u.setVec k d vec).reg d b =
    if b < 128 ∨ k.vlen = 128 then vec b else u.reg d b := by
  rw [setVec]
  by_cases hlen : k.vlen = 128
  · rw [if_pos hlen, reg_setReg_self, if_pos (.inr hlen)]
  · have hpos (u : VectorUnit) : 0 < u.w := by
      rw [w]
      cases u.vtype.sew <;> decide
    rw [if_neg hlen]
    dsimp only
    rw [reg_setReg_self, vmvV_apply (hpos _)]
    by_cases hcur : u.isCurrentLength128
    · rw [if_pos hcur, w_mul_vl hcur]
      simp only [hlen, or_false]
    · rw [if_neg hcur, reg_setVectorState]
      simp (disch := decide) only [w_setVectorState, vl_setVectorState, hlen, or_false]
      rfl

theorem reg_setVec_of_ne (h : r ≠ d) : (u.setVec k d vec).reg r = u.reg r := by
  rw [setVec]
  by_cases hlen : k.vlen = 128
  · rw [if_pos hlen, reg_setReg_of_ne h]
  · rw [if_neg hlen]
    dsimp only
    rw [reg_setReg_of_ne h]
    split
    · rfl
    · rw [reg_setVectorState]

/-- An instruction that ends with `setVec`. -/
theorem done_setVec {u₀ : VectorUnit} {result : Bits} (hreg : u.reg = u₀.reg)
    (h : Agree (8 * d.bytes) vec result) : Done k u₀ (u.setVec k d vec) d result where
  value b hb := by
    have hle : 8 * d.bytes ≤ 128 := by cases d <;> simp [Ref.bytes]
    rw [reg_setVec, if_pos (.inl (by omega))]
    exact h b hb
  upper i _ b hlo hhi := by
    rw [reg_setVec, if_neg (by omega), hreg]
  others r hr := by rw [reg_setVec_of_ne hr, hreg]

/-- An instruction that works in the register. The guest's register has the first 128 bits of it. -/
theorem done_setReg {u₀ : VectorUnit} {result : Bits} (hreg : ∀ r ≠ d, u.reg r = u₀.reg r)
    (h : Agree (8 * d.bytes) v result) (hupper : ∀ b, 128 ≤ b → v b = u₀.reg d b) :
    Done k u₀ (u.setReg d v) d result where
  value := by rwa [reg_setReg_self]
  upper i _ b hlo _ := by rw [reg_setReg_self, hupper b hlo]
  others r hr := by rw [reg_setReg_of_ne hr, hreg r hr]

section

variable {n : ℕ} (s : Source n) (junk : Bits)

@[simp]
theorem reg_getVec : (u.getVec k s junk).2.reg = u.reg := by
  cases s with
  | reg r h => rfl
  | mem data => exact reg_setVectorState

/-- The operand is in the register. -/
theorem agree_getVec : Agree (8 * n) (u.getVec k s junk).1 (s.value u) := by
  cases s with
  | reg r h => exact Agree.refl _ _
  | mem data =>
    change Agree (8 * n) (setLanes (u.setVectorState k ⟨.e8, n, .m1⟩).vl data junk) (ofLanes data)
    rw [vl_setVectorState fun h ↦ by cases h]
    exact agree_setLanes data junk

theorem lane_getVec {w i : ℕ} (h : w * (i + 1) ≤ 8 * n) :
    lane w (u.getVec k s junk).1 i = lane w (s.value u) i :=
  (agree_getVec s junk).lane_eq h

end

end VectorUnit

/-! ## Bytes -/

section

variable {k : Ext} {u : VectorUnit} {junk : ℕ → Bits} {d : Ref}

theorem le_vlmax {w n : ℕ} (hw : 0 < w) (h : w * n ≤ 128) : n ≤ vlmax k.vlen w :=
  (Nat.le_div_iff_mul_le hw).mpr ((Nat.mul_comm n w ▸ h).trans k.enough)

theorem gather_eq {w j n : ℕ} {src : Bits} (hj : j < n) (h : w * n ≤ 128) (hw : 0 < w) :
    gather k.vlen w src j = lane w src j :=
  gather_of_lt (lt_of_lt_of_le hj (le_vlmax hw h))

theorem getLsbD_maskFrom {n i : ℕ} (hn : n < 64) (hi : i < 64) :
    (maskFrom n).getLsbD i = decide (n ≤ i) := by
  have hpow : 1#64 <<< n - 1#64 = BitVec.ofNat 64 (2 ^ n - 1) := by
    have hlt : 2 ^ n < 2 ^ 64 := Nat.pow_lt_pow_right (by decide) hn
    have hpos : 0 < 2 ^ n := Nat.two_pow_pos n
    have hone : (1#64 <<< n).toNat = 2 ^ n := by
      rw [BitVec.toNat_shiftLeft, Nat.shiftLeft_eq]
      change 1 * 2 ^ n % 2 ^ 64 = 2 ^ n
      rw [Nat.one_mul, Nat.mod_eq_of_lt hlt]
    apply BitVec.eq_of_toNat_eq
    rw [BitVec.toNat_sub, hone, BitVec.toNat_ofNat]
    change (2 ^ 64 - 1 + 2 ^ n) % 2 ^ 64 = (2 ^ n - 1) % 2 ^ 64
    generalize 2 ^ n = m at hlt hpos
    omega
  rw [maskFrom, hpow, BitVec.getLsbD_not, BitVec.getLsbD_ofNat, Nat.testBit_two_pow_sub_one,
    decide_eq_true hi, Bool.true_and, Bool.true_and, ← decide_not, decide_eq_decide]
  exact not_lt

/-- Bytes that a slide brings in are masked. -/
theorem lane_masked {n i offset : ℕ} {v0 old src : Bits} {m : ℕ} (hn : n < 64) (hi : i < 16)
    (hm : 0 < m) :
    lane 8 (vandXMasked 8 16 (vslidedown k.vlen 8 16 old src offset)
      (vslidedown k.vlen 8 16 old src offset) (vmvSX 64 m v0 (maskFrom n)) 0) i =
        if n ≤ i then 0 else gather k.vlen 8 src (i + offset) := by
  rw [lane_vandXMasked hi, lane_vslidedown hi, vmvSX_apply (by omega) hm,
    getLsbD_maskFrom hn (by omega)]
  exact if_congr decide_eq_true_iff BitVec.and_zero rfl

/-- Nothing is left. -/
theorem agree_vmvX_zero {w vl : ℕ} {old : Bits} {f : ℕ → BitVec 8} (hw : w * vl = 128)
    (hf : ∀ i < 16, f i = 0) : Agree 128 (vmvX w vl old 0) (ofLanes f) := by
  intro b hb
  have hbit : ((0 : BitVec 64).setWidth w).getLsbD (b % w) =
    (0 : BitVec 8).getLsbD (b % 8) := by simp
  rw [vmvX, setLanes, if_pos (by omega), ofLanes, ofLanes, hf (b / 8) (by omega), hbit]

theorem vmvX_of_ge {w vl b : ℕ} {old : Bits} {x : BitVec 64} (h : w * vl ≤ b) :
    vmvX w vl old x b = old b := setLanes_of_ge h

end

section

variable (k : Ext) (junk : ℕ → Bits) (u : VectorUnit) {d : Ref}

open VectorUnit

theorem done_palignr (hd : d.bytes = 16) (s : Source d.bytes) (imm : BitVec 8) :
    ∃ u', palignr k junk u d s imm = some u' ∧
      Done k u u' d (alignBytes imm (u.reg d) (s.value u)) := by
  have hsrc (i : ℕ) (hi : i < 16) : lane 8 (u.getVec k s (junk 0)).1 i = lane 8 (s.value u) i :=
    lane_getVec s (junk 0) (by omega)
  have hbits : 8 * d.bytes = 8 * 16 := by rw [hd]
  rw [palignr, if_neg (by omega)]
  dsimp only
  by_cases hbig : 31 < imm.toNat
  · rw [if_pos hbig]
    refine ⟨_, rfl, done_setReg (fun r _ ↦ by simp) ?_ fun b hb ↦ ?_⟩
    · simp (disch := decide) only [w_setVectorState, vl_setVectorState]
      rw [hbits]
      exact agree_vmvX_zero (show 64 * 2 = 128 from rfl) fun i hi ↦ by
        rw [if_neg (by omega), if_neg (by omega)]
    · simp (disch := decide) only [w_setVectorState, vl_setVectorState]
      exact vmvX_of_ge hb
  rw [if_neg hbig]
  by_cases hsmall : imm.toNat < 16
  · rw [if_pos hsmall]
    refine ⟨_, rfl, done_setVec (by simp) ?_⟩
    simp (disch := decide) only [w_setVectorState, vl_setVectorState, Sew.bits]
    rw [hbits]
    refine agree_of_lanes (by decide) fun i hi ↦ ?_
    rw [alignBytes, lane_ofLanes (by decide), lane_vor hi, lane_masked (by omega) hi (by decide),
      lane_vslideup hi, lane_vmvX hi]
    by_cases hlow : i + imm.toNat < 16
    · rw [if_neg (by omega), if_pos (by omega), if_pos hlow, gather_eq hlow (by decide) (by decide),
        hsrc _ hlow]
      exact BitVec.or_zero
    · rw [if_pos (by omega), if_neg (by omega), if_neg hlow, if_pos (by omega),
        show i + imm.toNat - 16 = i - (16 - imm.toNat) by omega]
      exact BitVec.zero_or
  · rw [if_neg hsmall]
    refine ⟨_, rfl, done_setVec (by simp) ?_⟩
    simp (disch := decide) only [w_setVectorState, vl_setVectorState, Sew.bits]
    rw [hbits]
    refine agree_of_lanes (by decide) fun i hi ↦ ?_
    rw [alignBytes, lane_ofLanes (by decide), lane_masked (by omega) hi (by decide),
      if_neg (show ¬ i + imm.toNat < 16 by omega)]
    by_cases hlow : i + imm.toNat < 32
    · rw [if_neg (by omega), if_pos hlow, gather_eq (n := 16) (by omega) (by decide) (by decide),
        show i + imm.toNat - 16 = i + (imm.toNat - 16) by omega]
    · rw [if_pos (by omega), if_neg hlow]

theorem done_pslldq (hd : d.bytes = 16) (imm : BitVec 8) :
    Done k u (pslldq k junk u d imm) d (leftBytes imm (u.reg d)) := by
  have hbits : 8 * d.bytes = 8 * 16 := by rw [hd]
  rw [pslldq]
  dsimp only
  by_cases hbig : 15 < imm.toNat
  · rw [if_pos hbig]
    refine done_setVec (by simp) ?_
    simp (disch := decide) only [w_setVectorState, vl_setVectorState]
    rw [hbits]
    exact agree_vmvX_zero (show 8 * 16 = 128 from rfl) fun i hi ↦ if_pos (by omega)
  · rw [if_neg hbig]
    refine done_setVec (by simp) ?_
    simp (disch := decide) only [w_setVectorState, vl_setVectorState, Sew.bits]
    rw [hbits]
    refine agree_of_lanes (by decide) fun i hi ↦ ?_
    rw [leftBytes, lane_ofLanes (by decide), lane_vslideup hi, lane_vmvX hi]
    rfl

theorem done_psrldq (hd : d.bytes = 16) (imm : BitVec 8) :
    Done k u (psrldq k junk u d imm) d (rightBytes imm (u.reg d)) := by
  have hbits : 8 * d.bytes = 8 * 16 := by rw [hd]
  rw [psrldq]
  dsimp only
  by_cases hbig : 15 < imm.toNat
  · rw [if_pos hbig]
    refine done_setVec (by simp) ?_
    simp (disch := decide) only [w_setVectorState, vl_setVectorState]
    rw [hbits]
    exact agree_vmvX_zero (show 64 * 2 = 128 from rfl) fun i hi ↦ if_neg (by omega)
  · rw [if_neg hbig]
    refine done_setVec (by simp) ?_
    simp (disch := decide) only [w_setVectorState, vl_setVectorState, Sew.bits]
    rw [hbits]
    refine agree_of_lanes (by decide) fun i hi ↦ ?_
    rw [rightBytes, lane_ofLanes (by decide), lane_masked (by omega) hi (by decide)]
    by_cases hlow : i + imm.toNat < 16
    · rw [if_neg (by omega), if_pos hlow, gather_eq hlow (by decide) (by decide)]
    · rw [if_pos (by omega), if_neg hlow]

end

/-! ## Shifts -/

section

variable (k : Ext) (junk : ℕ → Bits) (u : VectorUnit) {d : Ref}

open VectorUnit

theorem bytes_eq (d : Ref) : d.bytes = 8 ∨ d.bytes = 16 := by
  cases d with
  | xmm i => exact .inr rfl
  | mm i => exact .inl rfl

@[simp]
theorem reg_shiftAmount {n : ℕ} (count : Count n) : (shiftAmount k junk u count).2.reg = u.reg := by
  cases count with
  | imm val => rfl
  | vec s => simp [shiftAmount]

theorem toNat_shiftAmount (count : Count d.bytes) :
    (shiftAmount k junk u count).1.toNat = count.value u := by
  cases count with
  | imm val =>
    rw [shiftAmount, Count.value, BitVec.toNat_setWidth]
    exact Nat.mod_eq_of_lt (val.isLt.trans (by decide))
  | vec s =>
    have hlane : lane 64 (u.getVec k s (junk 0)).1 0 = lane 64 (s.value u) 0 :=
      lane_getVec s (junk 0) (by have := bytes_eq d; omega)
    simp (disch := decide) only [shiftAmount, w_setVectorState, Sew.bits]
    rw [vmvXS, hlane, BitVec.signExtend_eq, Count.value]

/-- A shift whose amount is less than the width, after the register has been cleared if it was
not. -/
theorem done_shiftLogical {c : VType} {max : BitVec 64} {direction : Direction}
    {op : ℕ → ℕ → Bits → Bits → BitVec 64 → Bits}
    (g : BitVec c.sew.bits → ℕ → BitVec c.sew.bits) (hpos : 0 < c.sew.bits)
    (hw : c.sew.bits * c.vlen = 128) (hmax : max.toNat = c.sew.bits)
    (hop : ∀ old src x, op c.sew.bits c.vlen old src x =
      setLanes c.vlen (fun i ↦ g (lane _ src i) (x.toNat % c.sew.bits)) old)
    (hzero : ∀ n, g 0 n = 0)
    (hshift : ∀ y n, direction.shift y n = if c.sew.bits ≤ n then 0 else g y n)
    (count : Count d.bytes) :
    Done k u (shiftLogical k junk u c max op d count) d
      (shiftLanes c.sew.bits direction (count.value u) (u.reg d)) := by
  have hle : 8 * d.bytes ≤ c.sew.bits * c.vlen := by have := bytes_eq d; omega
  have hc : c ≠ mmxVType := by
    rintro rfl
    exact absurd hw (by decide)
  have hamount := toNat_shiftAmount k junk u count
  have hreg := reg_shiftAmount k junk u count
  rw [shiftLogical]
  dsimp only
  generalize shiftAmount k junk u count = amount at hamount hreg
  obtain ⟨shift, u₁⟩ := amount
  dsimp only at hamount hreg ⊢
  by_cases hlt : shift < max
  · have hlt' : count.value u < c.sew.bits := by rw [← hamount, ← hmax]; exact hlt
    rw [if_pos hlt, w_setVectorState hc, vl_setVectorState hc, reg_setVectorState, hreg, hop]
    refine done_setReg (fun r _ ↦ by rw [reg_setVectorState, hreg]) (Agree.mono ?_ hle) fun b hb ↦
      setLanes_of_ge (hw ▸ hb)
    refine agree_of_lanes hpos fun i hi ↦ ?_
    rw [lane_setLanes hi, shiftLanes, lane_ofLanes hpos, hshift, if_neg (by omega), hamount,
      Nat.mod_eq_of_lt hlt']
  · have hge : c.sew.bits ≤ count.value u := by
      rw [← hamount, ← hmax]
      exact not_lt.mp hlt
    rw [if_neg hlt]
    simp only [w_setReg, vl_setReg, w_setVectorState hc, vl_setVectorState hc, reg_setVectorState,
      reg_setReg_self, hreg]
    rw [hop]
    refine done_setReg (fun r hr ↦ ?_) (Agree.mono ?_ hle) fun b hb ↦ ?_
    · rw [reg_setReg_of_ne hr, reg_setVectorState, hreg]
    · refine agree_of_lanes hpos fun i hi ↦ ?_
      rw [lane_setLanes hi, lane_vmvX hi, shiftLanes, lane_ofLanes hpos, hshift, if_pos hge]
      exact (congrArg (g · _) (BitVec.setWidth_zero _ _)).trans (hzero _)
    · rw [setLanes_of_ge (hw ▸ hb), vmvX_of_ge (hw ▸ hb)]

theorem reg_limitedAmount {n : ℕ} (max : BitVec 8) (ok : BitVec 64 → BitVec 64 → Bool)
    (count : Count n) : (limitedAmount k junk u max ok count).2.reg = u.reg := by
  cases count with
  | imm val => rfl
  | vec s => exact reg_shiftAmount k junk u (.vec s)

theorem toNat_limitedAmount {max : BitVec 8} {ok : BitVec 64 → BitVec 64 → Bool}
    (hok : ∀ a : BitVec 64, (if ok a (max.setWidth 64) then a else max.setWidth 64).toNat =
      min a.toNat max.toNat) (count : Count d.bytes) :
    (limitedAmount k junk u max ok count).1.toNat = min (count.value u) max.toNat := by
  cases count with
  | imm val =>
    rw [limitedAmount, Count.value, BitVec.toNat_setWidth,
      Nat.mod_eq_of_lt ((BitVec.isLt _).trans (by decide))]
    by_cases hlt : max < val
    · rw [if_pos hlt]
      exact (Nat.min_eq_right (le_of_lt hlt)).symm
    · rw [if_neg hlt]
      exact (Nat.min_eq_left (not_lt.mp hlt)).symm
  | vec s =>
    rw [limitedAmount]
    dsimp only
    rw [hok, toNat_shiftAmount]

/-- A shift that keeps the sign, by the width less one at most. -/
theorem done_shiftArith {c : VType} {max : BitVec 8} {ok : BitVec 64 → BitVec 64 → Bool}
    (hpos : 0 < c.sew.bits) (hw : c.sew.bits * c.vlen = 128) (hmax : max.toNat = c.sew.bits - 1)
    (hok : ∀ a : BitVec 64, (if ok a (max.setWidth 64) then a else max.setWidth 64).toNat =
      min a.toNat max.toNat) (count : Count d.bytes) :
    Done k u (shiftArith k junk u c max ok d count) d
      (shiftLanes c.sew.bits .arith (count.value u) (u.reg d)) := by
  have hle : 8 * d.bytes ≤ c.sew.bits * c.vlen := by have := bytes_eq d; omega
  have hc : c ≠ mmxVType := by
    rintro rfl
    exact absurd hw (by decide)
  have hamount := toNat_limitedAmount k junk u hok count
  have hreg := reg_limitedAmount k junk u max ok count
  rw [shiftArith]
  dsimp only
  rw [w_setVectorState hc, vl_setVectorState hc, reg_setVectorState, hreg]
  refine done_setReg (fun r _ ↦ by rw [reg_setVectorState, hreg]) (Agree.mono ?_ hle) fun b hb ↦
    setLanes_of_ge (hw ▸ hb)
  refine agree_of_lanes hpos fun i hi ↦ ?_
  rw [vsra, lane_setLanes hi, shiftLanes, lane_ofLanes hpos, hamount, hmax,
    Nat.mod_eq_of_lt (by omega)]
  rfl

end

/-! ## Shuffles -/

section

variable (k : Ext) (junk : ℕ → Bits) (u : VectorUnit) {d : Ref}

open VectorUnit

theorem field_lt (imm : BitVec 8) (i : ℕ) : field imm i < 4 := Nat.mod_lt _ (by decide)

theorem toNat_el (imm : BitVec 8) (i : ℕ) : (el imm i).toNat = field imm i := by
  have hmask : (imm >>> (2 * i) &&& 3).toNat = imm.toNat / 2 ^ (2 * i) % 2 ^ 2 := by
    rw [BitVec.toNat_and, BitVec.toNat_ushiftRight, Nat.shiftRight_eq_div_pow]
    exact Nat.and_two_pow_sub_one_eq_mod _ 2
  have hlt : imm.toNat / 2 ^ (2 * i) % 2 ^ 2 < 2 ^ 64 :=
    (Nat.mod_lt _ (by decide)).trans (by decide)
  rw [el, BitVec.toNat_setWidth, hmask, Nat.mod_eq_of_lt hlt, pow_mul, field]
  rfl

theorem toNat_four_add_el (imm : BitVec 8) (i : ℕ) : (4 + el imm i).toNat = 4 + field imm i := by
  have hfield := field_lt imm i
  rw [BitVec.toNat_add, toNat_el]
  exact Nat.mod_eq_of_lt (by simp only [BitVec.reduceToNat]; omega)

theorem toNat_indices {f : ℕ → BitVec 64} (hf : ∀ i, (f i).toNat < 2 ^ 16) : (indices f).toNat =
    (f 3).toNat * 2 ^ 48 + (f 2).toNat * 2 ^ 32 + (f 1).toNat * 2 ^ 16 + (f 0).toNat := by
  have hshl (j n : ℕ) (hn : n ≤ 48) : (f j <<< n).toNat = (f j).toNat * 2 ^ n := by
    rw [BitVec.toNat_shiftLeft, Nat.shiftLeft_eq]
    refine Nat.mod_eq_of_lt ((Nat.mul_lt_mul_of_pos_right (hf j) (Nat.two_pow_pos n)).trans_le ?_)
    rw [← pow_add]
    exact Nat.pow_le_pow_right (by decide) (by omega)
  have hor {a b : BitVec 64} (n : ℕ) (hb : b.toNat < 2 ^ n) (ha : a.toNat % 2 ^ n = 0) :
      (a ||| b).toNat = a.toNat + b.toNat := by
    obtain ⟨d, hd⟩ := Nat.dvd_of_mod_eq_zero ha
    rw [BitVec.toNat_or, hd, ← Nat.two_pow_add_eq_or_of_lt hb]
  have h0 := hf 0
  have h1 := hf 1
  have h2 := hf 2
  have h32 : (f 3 <<< 48 ||| f 2 <<< 32).toNat = (f 3).toNat * 2 ^ 48 + (f 2).toNat * 2 ^ 32 := by
    rw [hor 48 (by rw [hshl 2 32 (by decide)]; omega)
      (by rw [hshl 3 48 le_rfl]; omega), hshl 3 48 le_rfl, hshl 2 32 (by decide)]
  have h321 : (f 3 <<< 48 ||| f 2 <<< 32 ||| f 1 <<< 16).toNat =
      (f 3).toNat * 2 ^ 48 + (f 2).toNat * 2 ^ 32 + (f 1).toNat * 2 ^ 16 := by
    rw [hor 32 (by rw [hshl 1 16 (by decide)]; omega)
      (by rw [h32]; omega), h32, hshl 1 16 (by decide)]
  rw [indices, hor 16 h0 (by rw [h321]; omega), h321]

/-- An index is in its place. -/
theorem toNat_extract_indices {f : ℕ → BitVec 64} (hf : ∀ i, (f i).toNat < 2 ^ 16) {i : ℕ}
    (hi : i < 4) : ((indices f).extractLsb' (16 * i) 16).toNat = (f i).toNat := by
  have h0 := hf 0
  have h1 := hf 1
  have h2 := hf 2
  have h3 := hf 3
  rw [BitVec.extractLsb'_toNat, toNat_indices hf, Nat.shiftRight_eq_div_pow]
  obtain rfl | rfl | rfl | rfl : i = 0 ∨ i = 1 ∨ i = 2 ∨ i = 3 := by omega
  all_goals omega

/-- The indices are the fields of the immediate. -/
theorem extract_indices (imm : BitVec 8) {i : ℕ} (hi : i < 4) :
    ((indices (el imm)).extractLsb' (16 * i) 16).toNat = field imm i := by
  refine (toNat_extract_indices (fun j ↦ ?_) hi).trans (toNat_el imm i)
  rw [toNat_el]
  exact (field_lt imm j).trans (by decide)

theorem extract_indices_high (imm : BitVec 8) {i : ℕ} (hi : i < 4) :
    ((indices fun i ↦ 4 + el imm i).extractLsb' (16 * i) 16).toNat = 4 + field imm i := by
  refine (toNat_extract_indices (fun j ↦ ?_) hi).trans (toNat_four_add_el imm i)
  rw [toNat_four_add_el]
  have hfield := field_lt imm j
  omega

/-- Indices that have been put as one lane of 64 bits. -/
theorem toNat_index {v : Bits} {imm : BitVec 8} (h : lane 64 v 0 = indices (el imm)) {i : ℕ}
    (hi : i < 4) : (lane 16 v i).toNat = field imm i := by
  have hlane := lane_extract (w := 64) 16 4 0 v rfl hi
  rw [Nat.mul_zero, Nat.zero_add] at hlane
  rw [hlane, h, extract_indices imm hi]

/-- The part of a wide lane that a narrow one is. -/
theorem lane_of_lane {v v' : Bits} {a b i : ℕ} (h : lane 64 v a = lane 64 v' b) (hi : i < 4) :
    lane 16 v (4 * a + i) = lane 16 v' (4 * b + i) := by
  rw [lane_extract (w := 64) 16 4 a v rfl hi, lane_extract (w := 64) 16 4 b v' rfl hi, h]

/-- The indices are in place if they have been put as one lane of 64 bits. -/
theorem toNat_iota {imm : BitVec 8} {u : VectorUnit} (h : u.Wide) (old : Bits) {i : ℕ}
    (hi : i < 4) :
    (lane 16 (vmvSX u.w u.vl old (indices (el imm))) i).toNat = field imm i := by
  have hw : u.w = 64 := by
    rw [w, h.1]
    rfl
  rw [hw]
  exact toNat_index ((lane_vmvSX h.2).trans (BitVec.setWidth_eq _)) hi

theorem done_pshufw (hd : d.bytes = 8) (s : Source d.bytes) (imm : BitVec 8)
    (hwide : ((u.getVec k s (junk 0)).2.setVectorState k ⟨.e64, 1, .m1⟩).Wide) :
    Done k u (pshufw k junk u d s imm) d (shuffle 16 imm (s.value u)) := by
  have hbits : 8 * d.bytes = 16 * 4 := by rw [hd]
  rw [pshufw]
  dsimp only
  refine done_setVec (by simp) ?_
  rw [w_setVectorState (c := ⟨.e16, 4, .m1⟩) (by decide),
    vl_setVectorState (c := ⟨.e16, 4, .m1⟩) (by decide), hbits]
  refine agree_of_lanes (by decide) fun i hi ↦ ?_
  have hfield := field_lt imm i
  rw [Sew.bits, lane_vrgather hi, toNat_iota hwide _ hi, gather_eq hfield (by decide) (by decide),
    lane_getVec s (junk 0) (by omega), shuffle, lane_ofLanes (by decide)]

theorem done_pshufd (hd : d.bytes = 16) (s : Source d.bytes) (imm : BitVec 8)
    (hwide : ((u.getVec k s (junk 0)).2.setVectorState k ⟨.e64, 1, .m1⟩).Wide) :
    Done k u (pshufd k junk u d s imm) d (shuffle 32 imm (s.value u)) := by
  have hbits : 8 * d.bytes = 32 * 4 := by rw [hd]
  rw [pshufd]
  dsimp only
  refine done_setVec (by simp) ?_
  rw [w_setVectorState (c := ⟨.e32, 4, .m1⟩) (by decide),
    vl_setVectorState (c := ⟨.e32, 4, .m1⟩) (by decide), hbits]
  refine agree_of_lanes (by decide) fun i hi ↦ ?_
  have hfield := field_lt imm i
  rw [Sew.bits, lane_vrgatherei16 hi, toNat_iota hwide _ hi,
    gather_eq hfield (by decide) (by decide), lane_getVec s (junk 0) (by omega), shuffle,
      lane_ofLanes (by decide)]

theorem done_pshuflw (hd : d.bytes = 16) (s : Source d.bytes) (imm : BitVec 8) :
    Done k u (pshuflw k junk u d s imm) d (shuffleLow imm (s.value u)) := by
  have hbits : 8 * d.bytes = 16 * 8 := by rw [hd]
  rw [pshuflw]
  dsimp only
  refine done_setVec (by simp) ?_
  simp (disch := decide) only [w_setVectorState, vl_setVectorState, Sew.bits]
  rw [hbits]
  -- the indices before they are moved up
  obtain ⟨iota, hiota⟩ : ∃ iota, iota = vslidedown k.vlen 16 8 (vid 16 8 (junk 1))
      (vid 16 8 (junk 1)) 4 :=
    ⟨_, rfl⟩
  have hplain (i : ℕ) (hi : i < 4) : (lane 16 iota i).toNat = 4 + i := by
    rw [hiota, lane_vslidedown (by omega), gather_eq (n := 8) (by omega) (by decide) (by decide),
      lane_vid (by omega), BitVec.toNat_ofNat, Nat.mod_eq_of_lt (by omega), Nat.add_comm]
  rw [← hiota]
  refine agree_of_lanes (by decide) fun i hi ↦ ?_
  rw [lane_vrgather hi, shuffleLow, lane_ofLanes (by decide)]
  by_cases hlow : i < 4
  · have hfirst : lane 64 (vslide1up 64 2 (junk 2) iota (indices (el imm))) 0 = indices (el imm) :=
      (lane_vslide1up (by decide)).trans (BitVec.setWidth_eq _)
    have hfield := field_lt imm i
    rw [if_pos hlow, toNat_index hfirst hlow, gather_eq hfield (by decide) (by decide),
      lane_getVec s (junk 0) (by omega)]
  · obtain ⟨j, rfl⟩ := Nat.exists_eq_add_of_le (not_lt.mp hlow)
    have hsecond : lane 64 (vslide1up 64 2 (junk 2) iota (indices (el imm))) 1 = lane 64 iota 0 :=
      lane_vslide1up (by decide)
    have hindex := lane_of_lane hsecond (show j < 4 by omega)
    rw [Nat.mul_zero, Nat.zero_add, Nat.mul_one] at hindex
    rw [if_neg hlow, hindex, hplain j (by omega), gather_eq hi (by decide) (by decide),
      lane_getVec s (junk 0) (by omega)]

theorem done_pshufhw (hd : d.bytes = 16) (s : Source d.bytes) (imm : BitVec 8) :
    Done k u (pshufhw k junk u d s imm) d (shuffleHigh imm (s.value u)) := by
  have hbits : 8 * d.bytes = 16 * 8 := by rw [hd]
  rw [pshufhw]
  dsimp only
  refine done_setVec (by simp) ?_
  simp (disch := decide) only [w_setVectorState, vl_setVectorState, Sew.bits]
  rw [hbits]
  refine agree_of_lanes (by decide) fun i hi ↦ ?_
  have hbit : ∀ i < 8, ((0b11110000 : BitVec 64).setWidth 16).getLsbD i =
    decide (4 ≤ i) := by decide
  have hmask : vmvX 16 8 (junk 4) 0b11110000 i = decide (4 ≤ i) := by
    rw [vmvX, setLanes, if_pos (by omega), ofLanes, Nat.mod_eq_of_lt (by omega), hbit i hi]
  rw [lane_vrgatherMasked hi, hmask, lane_vmvV hi, shuffleHigh, lane_ofLanes (by decide)]
  by_cases hlow : i < 4
  · rw [if_neg (by simp; omega), if_pos hlow, lane_getVec s (junk 0) (by omega)]
  · obtain ⟨j, rfl⟩ := Nat.exists_eq_add_of_le (not_lt.mp hlow)
    have hiota : lane 64 (vmvSX 64 2 (junk 1) (indices fun i ↦ 4 + el imm i)) 0 =
        indices fun i ↦ 4 + el imm i := (lane_vmvSX (by decide)).trans (BitVec.setWidth_eq _)
    have hsecond : lane 64 (vslide1up 64 2 (junk 2)
        (vmvSX 64 2 (junk 1) (indices fun i ↦ 4 + el imm i)) 0) 1 =
          indices fun i ↦ 4 + el imm i := (lane_vslide1up (by decide)).trans hiota
    have hindex := lane_extract (w := 64) (i := j) 16 4 1
      (vslide1up 64 2 (junk 2) (vmvSX 64 2 (junk 1) (indices fun i ↦ 4 + el imm i)) 0)
        rfl (by omega)
    have hfield := field_lt imm j
    rw [Nat.mul_one] at hindex
    rw [if_pos (by simp), if_neg hlow, hindex, hsecond, extract_indices_high imm (by omega),
      gather_eq (n := 8) (by omega) (by decide) (by decide), lane_getVec s (junk 0) (by omega),
      Nat.add_sub_cancel_left]

/-- An index of a host that is not too long is past the end if bit 7 is set. -/
theorem vlmax_le (h : k.vlen < 2048) : vlmax k.vlen 8 ≤ 128 := by
  obtain ⟨n, hn⟩ := k.power
  have hlt : n < 11 := by
    rw [hn] at h
    exact (Nat.pow_lt_pow_iff_right (by decide)).mp h
  have hle : k.vlen ≤ 2 ^ 10 := by
    rw [hn]
    exact Nat.pow_le_pow_right (by decide) (Nat.le_of_lt_succ hlt)
  exact Nat.div_le_of_le_mul hle

theorem masked_index : (∀ x : BitVec 8, (x &&& (0b10000111 : BitVec 64).setWidth 8).toNat =
      if x.msb then 128 + x.toNat % 8 else x.toNat % 8) ∧
    ∀ x : BitVec 8, (x &&& (0b10001111 : BitVec 64).setWidth 8).toNat =
      if x.msb then 128 + x.toNat % 16 else x.toNat % 16 := by
  have h8 : ∀ n < 256, n &&& 0b10000111 = if 128 ≤ n then 128 + n % 8
    else n % 8 := by decide +kernel
  have h16 : ∀ n < 256, n &&& 0b10001111 = if 128 ≤ n then 128 + n % 16 else n % 16 := by
    decide +kernel
  constructor
  · intro x
    simpa [BitVec.msb_eq_decide] using h8 x.toNat x.isLt
  · intro x
    simpa [BitVec.msb_eq_decide] using h16 x.toNat x.isLt

/-- The gather takes the byte or zero. -/
theorem agree_gather {n vl : ℕ} {bitmask : BitVec 64} {dst mask value old old' : Bits}
    (h : k.vlen < 2048) (hn : 8 * n ≤ 128) (hpos : 0 < n) (hvl : n = vl)
    (hmask : ∀ x : BitVec 8, (x &&& bitmask.setWidth 8).toNat =
      if x.msb then 128 + x.toNat % n else x.toNat % n)
    (hvalue : ∀ i < n, lane 8 mask i = lane 8 value i) :
    Agree (8 * n) (vrgather k.vlen 8 vl old dst (vandX 8 vl old' mask bitmask))
      (shuffleBytes n dst value) := by
  subst hvl
  refine agree_of_lanes (by decide) fun i hi ↦ ?_
  have hmax := vlmax_le k h
  have hmod := Nat.mod_lt (lane 8 value i).toNat hpos
  rw [lane_vrgather hi, lane_vandX hi, hvalue i hi, hmask, shuffleBytes, lane_ofLanes (by decide)]
  split
  · exact gather_of_ge (by omega)
  · exact gather_eq hmod hn (by decide)

theorem done_pshufb (s : Source d.bytes) : (∃ u', pshufb k junk u d s = some u' ∧
    Done k u u' d (shuffleBytes d.bytes (u.reg d) (s.value u))) ∨
      pshufb k junk u d s = none ∧ 2048 ≤ k.vlen := by
  by_cases hlen : k.vlen < 2048
  swap
  · refine .inr ⟨?_, not_lt.mp hlen⟩
    rw [pshufb]
    exact if_neg hlen
  left
  have hvalue (i : ℕ) (hi : i < d.bytes) : lane 8 (u.getVec k s (junk 0)).1 i =
      lane 8 (s.value u) i :=
    lane_getVec s (junk 0) (by omega)
  rw [pshufb]
  dsimp only
  rw [if_pos hlen]
  refine ⟨_, rfl, done_setVec ?_ ?_⟩
  · split <;> simp
  · rcases bytes_eq d with hd | hd
    · rw [if_pos hd]
      dsimp only
      simp (disch := decide) only [w_setVectorState, vl_setVectorState, Sew.bits]
      exact agree_gather k hlen (by omega) (by omega) hd (by rw [hd]; exact masked_index.1) hvalue
    · rw [if_neg (by omega)]
      dsimp only
      simp (disch := decide) only [w_setVectorState, vl_setVectorState, Sew.bits]
      exact agree_gather k hlen (by omega) (by omega) hd (by rw [hd]; exact masked_index.2) hvalue

/-- A limit by a comparison is the minimum. -/
theorem toNat_limit {a b : BitVec 64} {ok : Bool} (hok : ok = true → a ≤ b)
    (hno : ok = false → b ≤ a) :
    (if ok then a else b).toNat = min a.toNat b.toNat := by
  cases ok with
  | true => exact (Nat.min_eq_left (hok rfl)).symm
  | false => exact (Nat.min_eq_right (hno rfl)).symm

theorem done_shift (op : ShiftOp) (count : Count d.bytes) :
    ∃ u', (Insn.shift op d count).run k junk u = some u' ∧
      Done k u u' d (shiftLanes op.width op.direction (count.value u) (u.reg d)) := by
  have hleft (c : VType) (n : ℕ) : (0 : BitVec c.sew.bits) <<< n = 0 := BitVec.zero_shiftLeft n
  have hright (c : VType) (n : ℕ) : (0 : BitVec c.sew.bits) >>> n = 0 := BitVec.zero_ushiftRight
  cases op with
  | psllw =>
    refine ⟨_, rfl, ?_⟩
    exact done_shiftLogical k junk u (c := ⟨.e16, 8, .m1⟩) (fun y n ↦ y <<< n) (by decide) rfl rfl
      (fun _ _ _ ↦ rfl) (hleft _) (fun _ _ ↦ rfl) count
  | pslld =>
    refine ⟨_, rfl, ?_⟩
    exact done_shiftLogical k junk u (c := ⟨.e32, 4, .m1⟩) (fun y n ↦ y <<< n) (by decide) rfl rfl
      (fun _ _ _ ↦ rfl) (hleft _) (fun _ _ ↦ rfl) count
  | psllq =>
    refine ⟨_, rfl, ?_⟩
    exact done_shiftLogical k junk u (c := ⟨.e64, 2, .m1⟩) (fun y n ↦ y <<< n) (by decide) rfl rfl
      (fun _ _ _ ↦ rfl) (hleft _) (fun _ _ ↦ rfl) count
  | psrlw =>
    refine ⟨_, rfl, ?_⟩
    exact done_shiftLogical k junk u (c := ⟨.e16, 8, .m1⟩) (fun y n ↦ y >>> n) (by decide) rfl rfl
      (fun _ _ _ ↦ rfl) (hright _) (fun _ _ ↦ rfl) count
  | psrld =>
    refine ⟨_, rfl, ?_⟩
    exact done_shiftLogical k junk u (c := ⟨.e32, 4, .m1⟩) (fun y n ↦ y >>> n) (by decide) rfl rfl
      (fun _ _ _ ↦ rfl) (hright _) (fun _ _ ↦ rfl) count
  | psrlq =>
    refine ⟨_, rfl, ?_⟩
    exact done_shiftLogical k junk u (c := ⟨.e64, 2, .m1⟩) (fun y n ↦ y >>> n) (by decide) rfl rfl
      (fun _ _ _ ↦ rfl) (hright _) (fun _ _ ↦ rfl) count
  | psraw =>
    refine ⟨_, rfl, ?_⟩
    exact done_shiftArith k junk u (c := ⟨.e16, 8, .m1⟩) (by decide) rfl rfl
      (fun a ↦ toNat_limit of_decide_eq_true
        fun h ↦ (BitVec.le_total _ _).resolve_left (of_decide_eq_false h))
      count
  | psrad =>
    refine ⟨_, rfl, ?_⟩
    exact done_shiftArith k junk u (c := ⟨.e32, 4, .m1⟩) (by decide) rfl rfl
      (fun a ↦ toNat_limit (fun h ↦ BitVec.le_of_lt (of_decide_eq_true h))
        fun h ↦ BitVec.not_lt.mp (of_decide_eq_false h)) count

end

/-! ## When they do -/

/-- An instruction that no code is emitted for. -/
def Insn.Refused (k : Ext) : Insn → Prop
  | .pshufb _ _ => 2048 ≤ k.vlen
  | _ => False

/-- The handler does what the instruction does. -/
def Insn.Correct (k : Ext) (junk : ℕ → Bits) (u : VectorUnit) (i : Insn) : Prop :=
  (∃ u', i.run k junk u = some u' ∧ Done k u u' i.dst (i.result u)) ∨
    i.run k junk u = none ∧ i.Refused k

/-- The first configuration that the handler asks for is the one of `switchToMMX` and `switchToX87`,
which the recompiler takes to be in force, and the lanes are not of 64 bits. -/
def Insn.Stale (k : Ext) (e : Setting) : Insn → Prop
  | .pshufw _ (.reg _ _) _ => e.tracker.Is mmxVType ∧ k.paranoid = false ∧ ¬ e.Wide
  | .pshufd _ (.reg _ _) _ => e.tracker.Is mmxVType ∧ k.paranoid = false ∧ ¬ e.Wide
  | _ => False

section

variable {k : Ext} {e : Setting} {c : VType}

theorem wide_setVectorState (h : ¬ (e.tracker.Is mmxVType ∧ k.paranoid = false ∧ ¬ e.Wide)) :
    (e.setVectorState k ⟨.e64, 1, .m1⟩).Wide := by
  rw [Setting.setVectorState]
  split
  · next hskip => exact not_not.mp fun hwide ↦ h ⟨hskip.1, hskip.2, hwide⟩
  · exact ⟨rfl, Nat.one_pos⟩

/-- After another configuration has been asked for the code sets this one. -/
theorem wide_after (hc : c ≠ mmxVType) :
    ((e.setVectorState k c).setVectorState k ⟨.e64, 1, .m1⟩).Wide := by
  refine wide_setVectorState fun h ↦ hc ?_
  have hmmx := h.1
  rw [Setting.setVectorState] at hmmx
  split at hmmx
  · next hskip =>
    rw [hskip.1.eq] at hmmx
    exact Tracker.is_ofVType.mp hmmx
  · exact Tracker.is_ofVType.mp hmmx

/-- Ones where a guest's register is, and zeros above it. -/
def ones : Bits := fun b ↦ decide (b < 128)

/-- No index has been put there, and what was there is past the end. -/
theorem stale_index {u : VectorUnit} (h : ¬ u.Wide) (x : BitVec 64) :
    (lane 16 (vmvSX u.w u.vl (fun _ ↦ true) x) 3).toNat = 65535 := by
  have hsize : u.w * min 1 u.vl ≤ 48 := by
    rcases Nat.eq_zero_or_pos u.vl with hvl | hvl
    · rw [hvl]
      exact Nat.zero_le _
    · rw [Nat.min_eq_left hvl, VectorUnit.w]
      have hsew : u.vtype.sew ≠ .e64 := fun hsew ↦ h ⟨hsew, hvl⟩
      cases hs : u.vtype.sew with
      | e64 => exact absurd hs hsew
      | _ => decide
  have hlane : lane 16 (vmvSX u.w u.vl (fun _ ↦ true) x) 3 = lane 16 (fun _ ↦ true) 3 :=
    lane_congr fun j _ ↦ setLanes_of_ge (by omega)
  rw [hlane]
  decide

theorem gather_ones {w vlen : ℕ} (hw : 0 < w) : (gather vlen w ones 65535).getLsbD 0 = false := by
  rw [gather]
  split
  · rw [getLsbD_lane, ones, decide_eq_false (show ¬ w * 65535 + 0 < 128 by omega), Bool.and_false]
  · exact BitVec.getLsbD_zero

theorem lane_ones {w j : ℕ} (hw : 0 < w) (h : w * j < 128) : (lane w ones j).getLsbD 0 = true := by
  rw [getLsbD_lane, decide_eq_true hw, ones, Bool.true_and]
  exact decide_eq_true h

/-- The last lane is zero where it should not be. -/
theorem not_done_of_stale {w : ℕ} {d : Ref} {imm : BitVec 8} {u u' : VectorUnit} {vec : Bits}
    (hw : 0 < w) (hfits : w * 4 ≤ 8 * d.bytes) (hlane : (lane w vec 3).getLsbD 0 = false) :
    ¬ Done k u' (u.setVec k d vec) d (shuffle w imm ones) := by
  intro h
  have hle : 8 * d.bytes ≤ 128 := by have := bytes_eq d; omega
  have hbit := h.value (w * 3) (by omega)
  have hvec : vec (w * 3) = (lane w vec 3).getLsbD 0 := by
    rw [getLsbD_lane, decide_eq_true hw, Bool.true_and, Nat.add_zero]
  have hshuffle : shuffle w imm ones (w * 3) = (lane w ones (field imm 3)).getLsbD 0 := by
    rw [shuffle, ofLanes, Nat.mul_div_cancel_left _ hw, Nat.mul_mod_right]
  have hfield := field_lt imm 3
  have hmul : w * field imm 3 < w * 4 := Nat.mul_lt_mul_of_pos_left hfield hw
  rw [VectorUnit.reg_setVec, if_pos (.inl (by omega)), hvec, hlane, hshuffle,
    lane_ones hw (by omega)] at hbit
  cases hbit

theorem setVectorState_eq (h : e.tracker.Is mmxVType) (hp : k.paranoid = false)
    (reg : Ref → Bits) : (⟨e, reg⟩ : VectorUnit).setVectorState k ⟨.e64, 1, .m1⟩ = ⟨e, reg⟩ := by
  rw [VectorUnit.setVectorState, Setting.setVectorState]
  exact congrArg (VectorUnit.mk · reg) (if_pos ⟨h, hp⟩)

theorem not_done_pshufw {d r : Ref} (hd : d.bytes = 8) {h : r.bytes = d.bytes} {imm : BitVec 8}
    (hskip : e.tracker.Is mmxVType) (hp : k.paranoid = false) (hwide : ¬ e.Wide) :
    ¬ Done k ⟨e, fun _ ↦ ones⟩ (pshufw k (fun _ _ ↦ true) ⟨e, fun _ ↦ ones⟩ d (.reg r h) imm) d
      (shuffle 16 imm ones) := by
  rw [pshufw]
  dsimp only [VectorUnit.getVec]
  rw [setVectorState_eq hskip hp]
  refine not_done_of_stale (by decide) (by omega) ?_
  simp (disch := decide) only [VectorUnit.w_setVectorState, VectorUnit.vl_setVectorState, Sew.bits]
  rw [lane_vrgather (by decide), stale_index hwide]
  exact gather_ones (by decide)

theorem not_done_pshufd {d r : Ref} (hd : d.bytes = 16) {h : r.bytes = d.bytes} {imm : BitVec 8}
    (hskip : e.tracker.Is mmxVType) (hp : k.paranoid = false) (hwide : ¬ e.Wide) :
    ¬ Done k ⟨e, fun _ ↦ ones⟩ (pshufd k (fun _ _ ↦ true) ⟨e, fun _ ↦ ones⟩ d (.reg r h) imm) d
      (shuffle 32 imm ones) := by
  rw [pshufd]
  dsimp only [VectorUnit.getVec]
  rw [setVectorState_eq hskip hp]
  refine not_done_of_stale (by decide) (by omega) ?_
  simp (disch := decide) only [VectorUnit.w_setVectorState, VectorUnit.vl_setVectorState, Sew.bits]
  rw [lane_vrgatherei16 (by decide), stale_index hwide]
  exact gather_ones (by decide)

theorem Insn.Correct.done {i : Insn} {junk : ℕ → Bits} {u u' : VectorUnit} (h : i.Correct k junk u)
    (hrun : i.run k junk u = some u') : Done k u u' i.dst (i.result u) := by
  obtain ⟨u'', hrun', hdone⟩ | ⟨hnone, -⟩ := h
  · obtain rfl := Option.some_injective _ (hrun.symm.trans hrun')
    exact hdone
  · exact absurd (hrun.symm.trans hnone) (Option.some_ne_none _)

/-- The first configuration is in force where it is not stale. -/
theorem wide_of_source {n : ℕ} {u : VectorUnit} (s : Source n) (junk : Bits)
    (h : ∀ r hr, s = .reg r hr → ¬ (u.tracker.Is mmxVType ∧ k.paranoid = false ∧ ¬ u.Wide)) :
    ((u.getVec k s junk).2.setVectorState k ⟨.e64, 1, .m1⟩).Wide := by
  cases s with
  | reg r hr => exact wide_setVectorState (h r hr rfl)
  | mem data => exact wide_after fun hc ↦ by cases hc

/-- An instruction is done right for all operands unless it starts with a stale configuration:
whatever the count, what is in the scratch registers and in the upper parts of the others. -/
theorem correct_iff (k : Ext) (e : Setting) (i : Insn) :
    (∀ reg junk, i.Correct k junk ⟨e, reg⟩) ↔ ¬ i.Stale k e := by
  constructor
  · intro h hstale
    cases i with
    | pshufw d s imm =>
      cases s with
      | reg r hr =>
        exact not_done_pshufw (d := .mm d) rfl hstale.1 hstale.2.1 hstale.2.2 ((h _ _).done rfl)
      | mem data => exact hstale
    | pshufd d s imm =>
      cases s with
      | reg r hr =>
        exact not_done_pshufd (d := .xmm d) rfl hstale.1 hstale.2.1 hstale.2.2 ((h _ _).done rfl)
      | mem data => exact hstale
    | _ => exact hstale
  · intro hfresh reg junk
    cases i with
    | palignr d s imm => exact .inl (done_palignr k junk _ (d := .xmm d) rfl s imm)
    | pslldq d imm => exact .inl ⟨_, rfl, done_pslldq k junk _ (d := .xmm d) rfl imm⟩
    | psrldq d imm => exact .inl ⟨_, rfl, done_psrldq k junk _ (d := .xmm d) rfl imm⟩
    | shift op d count => exact .inl (done_shift k junk _ op count)
    | pshufw d s imm =>
      refine .inl ⟨_, rfl, done_pshufw k junk _ (d := .mm d) rfl s imm ?_⟩
      exact wide_of_source s _ fun r hr hs hstale ↦ hfresh (by rw [hs]; exact hstale)
    | pshufd d s imm =>
      refine .inl ⟨_, rfl, done_pshufd k junk _ (d := .xmm d) rfl s imm ?_⟩
      exact wide_of_source s _ fun r hr hs hstale ↦ hfresh (by rw [hs]; exact hstale)
    | pshufb d s => exact done_pshufb k junk _ s
    | pshuflw d s imm => exact .inl ⟨_, rfl, done_pshuflw k junk _ (d := .xmm d) rfl s imm⟩
    | pshufhw d s imm => exact .inl ⟨_, rfl, done_pshufhw k junk _ (d := .xmm d) rfl s imm⟩

/-- The configuration at the start of a block, which the recompiler knows nothing about. -/
def blockStart (c : VType) : Setting := ⟨c, .reset, .inl (Tracker.right_reset c)⟩

def ext128 : Ext := ⟨128, false, le_rfl, 7, rfl⟩

/-- A block that starts with `PSHUFW` from a register, in a thread that is in the MMX state. The
lanes have 8 bits, as another block has left them. -/
theorem not_correct : ¬ ∀ reg junk, (Insn.pshufw 0 (.reg (.mm 1) rfl) 0x1b).Correct ext128 junk
    ⟨(blockStart ⟨.e8, 16, .m1⟩).switchToMMX ext128 .mmx, reg⟩ := by
  intro h
  exact not_done_pshufw (d := .mm 0) rfl (Tracker.is_ofVType.mpr rfl) rfl
    (by rintro ⟨hsew, -⟩; cases hsew) ((h _ _).done rfl)

end

end Packed

end Felix86
