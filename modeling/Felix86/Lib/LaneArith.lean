import Felix86.Lib.Lanes
import Mathlib.Algebra.BigOperators.Ring.Finset
import Mathlib.Algebra.Order.BigOperators.Group.Finset

/-!
# Arithmetic on lanes

More of the vector instructions of RISC-V: arithmetic of two registers lane by lane, with results of
the same, of twice and of half the width, masks and what depends on them, and reductions.

A mask is the first bits of a register. What an instruction that makes a mask leaves in the bits
above the vector length is not said, so it is an argument.
-/

namespace Felix86

namespace Lanes

/-- The nearest number of `w` bits, without a sign. -/
def satU (w n : ℕ) : BitVec w := BitVec.ofNat w (min n (2 ^ w - 1))

/-- The nearest number of `w` bits, with a sign. -/
def satS (w : ℕ) (z : ℤ) : BitVec w := BitVec.ofInt w (max (-2 ^ (w - 1)) (min z (2 ^ (w - 1) - 1)))

/-- Put the first `vl` bits. -/
def setMask (vl : ℕ) (p : ℕ → Bool) (junk : Bits) : Bits := fun k ↦ if k < vl then p k else junk k

/-- The lanes that a mask selects, in order. -/
def selected (vl : ℕ) (mask : Bits) : List ℕ := (List.range vl).filter mask

variable {w vl k : ℕ} {f : ℕ → BitVec w} {p : ℕ → Bool} {old : Bits}

theorem setMask_of_lt (h : k < vl) : setMask vl p old k = p k := if_pos h

theorem setLanes_of_lt (h : k < w * vl) : setLanes vl f old k = (f (k / w)).getLsbD (k % w) :=
  if_pos h

theorem ofLanes_apply : ofLanes f k = (f (k / w)).getLsbD (k % w) := rfl

theorem lane_setLanes_of_ge {i : ℕ} (h : vl ≤ i) : lane w (setLanes vl f old) i = lane w old i :=
  lane_congr fun _ _ ↦ setLanes_of_ge ((Nat.mul_le_mul_left w h).trans (Nat.le_add_right _ _))

theorem selected_congr {m m' : Bits} (h : ∀ i < vl, m i = m' i) : selected vl m = selected vl m' :=
  List.filter_congr fun i hi ↦ h i (List.mem_range.mp hi)

end Lanes

/-! ## Operations on a lane -/

namespace LaneOp

open Lanes

variable {w : ℕ} (x y : BitVec w)

def addSatU : BitVec w := satU w (x.toNat + y.toNat)
def subSatU : BitVec w := BitVec.ofNat w (x.toNat - y.toNat)
def addSatS : BitVec w := satS w (x.toInt + y.toInt)
def subSatS : BitVec w := satS w (x.toInt - y.toInt)

def minU : BitVec w := if x.ult y then x else y
def maxU : BitVec w := if x.ult y then y else x
def minS : BitVec w := if x.slt y then x else y
def maxS : BitVec w := if x.slt y then y else x

def mulHighU : BitVec w := BitVec.ofNat w (x.toNat * y.toNat / 2 ^ w)
def mulHighS : BitVec w := BitVec.ofInt w (x.toInt * y.toInt / 2 ^ w)

/-- The average, rounded up. -/
def average : BitVec w := BitVec.ofNat w ((x.toNat + y.toNat + 1) / 2)

end LaneOp

/-! ## Instructions -/

namespace Rvv

open Lanes

variable (vlen w vl : ℕ) (old src src' mask : Bits) (x : BitVec 64)

/-- `vadd.vv` and its like, each with its operation on a lane. -/
def laneOp (op : BitVec w → BitVec w → BitVec w) : Bits :=
  setLanes vl (fun i ↦ op (lane w src i) (lane w src' i)) old

/-- `vmax.vx` and its like. -/
def laneOpX (op : BitVec w → BitVec w → BitVec w) : Bits :=
  setLanes vl (fun i ↦ op (lane w src i) (x.setWidth w)) old

/-- An operation on the lanes whose bit is set in the mask. -/
def laneOpMasked (op : BitVec w → BitVec w → BitVec w) : Bits :=
  setLanes vl (fun i ↦ if mask i then op (lane w src i) (lane w src' i) else lane w old i) old

/-- `vrsub.vx` with a mask. -/
def vrsubXMasked : Bits :=
  setLanes vl (fun i ↦ if mask i then x.setWidth w - lane w src i else lane w old i) old

/-- `vwaddu.vx` with zero. -/
def vwadduZero : Bits := setLanes vl (fun i ↦ (lane w src i).setWidth (2 * w)) old

/-- `vwsubu.vv`. -/
def vwsubu : Bits :=
  setLanes vl (fun i ↦ (lane w src i).setWidth (2 * w) - (lane w src' i).setWidth (2 * w)) old

/-- `vwmul.vv`. -/
def vwmul : Bits :=
  setLanes vl (fun i ↦ (lane w src i).signExtend (2 * w) * (lane w src' i).signExtend (2 * w)) old

/-- `vwmacc.vv`. -/
def vwmacc : Bits := setLanes vl (fun i ↦
  lane (2 * w) old i + (lane w src i).signExtend (2 * w) * (lane w src' i).signExtend (2 * w)) old

/-- `vnclipu.wi` with no shift. -/
def vnclipu : Bits := setLanes vl (fun i ↦ satU w (lane (2 * w) src i).toNat) old

/-- `vnclip.wi` with no shift. -/
def vnclip : Bits := setLanes vl (fun i ↦ satS w (lane (2 * w) src i).toInt) old

/-- `vzext.vf2`, `vzext.vf4` and `vzext.vf8`. -/
def vzext (f : ℕ) : Bits := setLanes vl (fun i ↦ (lane (w / f) src i).setWidth w) old

/-- `vsext.vf2`, `vsext.vf4` and `vsext.vf8`. -/
def vsext (f : ℕ) : Bits := setLanes vl (fun i ↦ (lane (w / f) src i).signExtend w) old

/-- `vslide1down.vx`. -/
def vslide1down : Bits :=
  setLanes vl (fun i ↦ if i + 1 = vl then x.setWidth w else lane w src (i + 1)) old

/-- `vmerge.vvm`: the second source where the mask is set. -/
def vmergeV : Bits := setLanes vl (fun i ↦ if mask i then lane w src' i else lane w src i) old

/-- `vmerge.vim`. -/
def vmergeX : Bits := setLanes vl (fun i ↦ if mask i then x.setWidth w else lane w src i) old

/-- `vcompress.vm`. -/
def vcompress : Bits :=
  setLanes (selected vl mask).length (fun i ↦ lane w src ((selected vl mask).getD i 0)) old

/-- `viota.m`: how many bits of the mask are set below a lane. -/
def viota : Bits := setLanes vl (fun i ↦ BitVec.ofNat w (selected i mask).length) old

/-- `vredsum.vs`. -/
def vredsum : Bits :=
  setLanes (min 1 vl) (fun _ ↦ ∑ i ∈ Finset.range vl, lane w src i + lane w src' 0) old

/-- `vredminu.vs`. -/
def vredminu : Bits := setLanes (min 1 vl) (fun _ ↦
  (List.range vl).foldl (fun m i ↦ LaneOp.minU m (lane w src i)) (lane w src' 0)) old

/-- `vmseq.vv`. -/
def vmseq : Bits := setMask vl (fun i ↦ lane w src i == lane w src' i) old

/-- `vmseq.vx`. -/
def vmseqX : Bits := setMask vl (fun i ↦ lane w src i == x.setWidth w) old

/-- `vmslt.vv`. -/
def vmslt : Bits := setMask vl (fun i ↦ (lane w src i).slt (lane w src' i)) old

/-- `vmslt.vx`. -/
def vmsltX : Bits := setMask vl (fun i ↦ (lane w src i).slt (x.setWidth w)) old

/-- `vmnand.mm`. -/
def vmnand : Bits := setMask vl (fun i ↦ !(src i && src' i)) old

end Rvv

end Felix86
