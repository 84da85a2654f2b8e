import Mathlib.Data.BitVec

/-!
# Host code, as far as the recompiler patches it

The recompiler goes back over code it has emitted in three places: a link to a block that was not
compiled yet is filled in, a link to an invalidated block is taken out, and the first two
instructions of an invalidated block are replaced. All of these write one pair of instructions
that jumps to an address relative to the program counter. This file has those instructions, their
meaning, and the fact that the pair built from an offset goes where the offset says. All other
instructions are opaque words.
-/

namespace Felix86

/-- The host registers that the pairs use. -/
inductive HostReg
  | x0
  | t4
  | t5
  | t6
deriving DecidableEq, Repr

/-- A host instruction. `jal` carries the distance it jumps. -/
inductive HostInsn
  | other (word : BitVec 32)
  | nop
  | jal (rd : HostReg) (offset : BitVec 64)
  | auipc (rd : HostReg) (imm : BitVec 20)
  | jalr (rd : HostReg) (imm : BitVec 12) (rs : HostReg)
deriving DecidableEq, Repr

/-- `hi20`, the upper part of an offset, rounded so that `lo12` can be negative. -/
def hi20 (offset : BitVec 64) : BitVec 20 :=
  ((offset.setWidth 32 + 0x800#32) >>> 12).setWidth 20

/-- `lo12`. Shifting left and right by 20 keeps the low 12 bits, as a signed number. -/
def lo12 (offset : BitVec 64) : BitVec 12 := offset.setWidth 12

/-- Registers and program counter. -/
structure HostState where
  pc : BitVec 64
  reg : HostReg → BitVec 64

/-- Register write; `x0` stays zero. -/
def HostState.set (s : HostState) (rd : HostReg) (value : BitVec 64) : HostState :=
  if rd = .x0 then s else { s with reg := Function.update s.reg rd value }

/-- One instruction. The opaque ones have no meaning here. -/
def HostInsn.exec (s : HostState) : HostInsn → Option HostState
  | .other _ => none
  | .nop => some { s with pc := s.pc + 4 }
  | .jal rd offset => some { s.set rd (s.pc + 4) with pc := s.pc + offset }
  | .auipc rd imm =>
    some { s.set rd (s.pc + (imm.setWidth 32 <<< 12).signExtend 64) with pc := s.pc + 4 }
  | .jalr rd imm rs =>
    some { s.set rd (s.pc + 4) with pc := (s.reg rs + imm.signExtend 64) &&& ~~~1#64 }

/-- The instruction at the program counter. -/
def HostState.step (code : ℕ → HostInsn) (s : HostState) : Option HostState :=
  (code s.pc.toNat).exec s

/-- The offsets a pair can reach: two gigabytes each way, less the rounding of `hi20`. -/
def Reaches (offset : BitVec 64) : Prop :=
  2 ^ 64 - 2 ^ 31 ≤ offset.toNat ∨ offset.toNat < 2 ^ 31 - 0x800

theorem toNat_hi20 (offset : BitVec 64) :
    (hi20 offset).toNat = (offset.toNat + 0x800) / 0x1000 % 2 ^ 20 := by
  simp only [hi20, BitVec.toNat_setWidth, BitVec.toNat_ushiftRight, BitVec.toNat_add,
    BitVec.toNat_ofNat, Nat.shiftRight_eq_div_pow]
  omega

theorem toNat_auipc (offset : BitVec 64) :
    ((hi20 offset).setWidth 32 <<< 12).toNat =
      (offset.toNat + 0x800) / 0x1000 % 2 ^ 20 * 0x1000 := by
  rw [BitVec.toNat_shiftLeft, BitVec.toNat_setWidth, toNat_hi20, Nat.shiftLeft_eq]
  omega

/-- The two halves of an offset add up to it. -/
theorem hi20_add_lo12 {offset : BitVec 64} (h : Reaches offset) :
    ((hi20 offset).setWidth 32 <<< 12).signExtend 64 + (lo12 offset).signExtend 64 = offset := by
  have hlo : (lo12 offset).toNat = offset.toNat % 0x1000 := BitVec.toNat_setWidth ..
  have hlt := offset.isLt
  apply BitVec.eq_of_toNat_eq
  rw [BitVec.toNat_add, BitVec.toNat_signExtend, BitVec.toNat_signExtend]
  simp only [BitVec.toNat_setWidth, BitVec.msb_eq_decide, toNat_auipc, hlo, decide_eq_true_eq]
  unfold Reaches at h
  split <;> split <;> omega

/-- **The pair jumps by its offset** and leaves the address behind it in `rd`. -/
theorem step_pair {code : ℕ → HostInsn} {s : HostState} {offset : BitVec 64} {rd : HostReg}
    (hrd : rd ≠ .x0) (hreach : Reaches offset)
    (heven : (s.pc + offset) &&& ~~~1#64 = s.pc + offset)
    (hauipc : code s.pc.toNat = .auipc .t4 (hi20 offset))
    (hjalr : code (s.pc + 4).toNat = .jalr rd (lo12 offset) .t4) :
    ∃ s', (s.step code).bind (HostState.step code) = some s' ∧ s'.pc = s.pc + offset ∧
      s'.reg rd = s.pc + 8 := by
  have hfirst : s.step code = some { s.set .t4 (s.pc + ((hi20 offset).setWidth 32 <<< 12).signExtend
      64) with pc := s.pc + 4 } := by
    rw [HostState.step, hauipc]
    rfl
  rw [hfirst, Option.bind_some, HostState.step, hjalr]
  refine ⟨_, rfl, ?_, ?_⟩
  · simp only [HostState.set, reduceCtorEq, if_false, Function.update_self]
    rw [BitVec.add_assoc, hi20_add_lo12 hreach, heven]
  · simp only [HostState.set, hrd, if_false, Function.update_self]
    rw [BitVec.add_assoc]
    rfl

end Felix86
