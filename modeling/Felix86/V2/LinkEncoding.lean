import Felix86.V2.RipRegister
import Mathlib.Tactic.Ring

/-!
# The words of the pairs

`HostCode` has the instructions that the recompiler patches as data. In memory they are words: the
assembler puts the fields of an instruction together with masks and shifts, and the host takes them
apart again. This file has both sides, and the pairs of `LinkCode` run on words.

Every pair is between two places of the code cache, which is 64 MiB. A short jump is chosen for less
than half of the distance it could go, and the other pair reaches two gigabytes each way, except for
the last `0x800` bytes forward that `IsValid2GBImm` lets through and no two places of the cache have
between them.

`links_exact` says that in every state of the recompiler, what is written for a link, for a jump to
the dispatcher and over an invalidated block goes where it should and takes the eight bytes it is
given, whenever and however often that is done.
-/

namespace Felix86

namespace Encoding

/-! ## The assembler -/

/-- `EmitUType`. -/
def emitUType (imm : BitVec 32) (rd : BitVec 5) (opcode : BitVec 32) : BitVec 32 :=
  (imm &&& 0x000FFFFF) <<< 12 ||| rd.setWidth 32 <<< 7 ||| (opcode &&& 0x7F)

/-- `EmitIType`. -/
def emitIType (imm : BitVec 32) (rs1 : BitVec 5) (funct3 : BitVec 32) (rd : BitVec 5)
    (opcode : BitVec 32) : BitVec 32 :=
  (imm &&& 0xFFF) <<< 20 ||| rs1.setWidth 32 <<< 15 ||| (funct3 &&& 0b111) <<< 12 |||
    rd.setWidth 32 <<< 7 ||| (opcode &&& 0x7F)

/-- `TransformToJTypeImm`. -/
def transformToJTypeImm (imm : BitVec 32) : BitVec 32 :=
  (imm &&& 0x0FF000) >>> 0 ||| (imm &&& 0x000800) <<< 9 ||| (imm &&& 0x0007FE) <<< 20 |||
    (imm &&& 0x100000) <<< 11

/-- `EmitJType`. -/
def emitJType (imm : BitVec 32) (rd : BitVec 5) (opcode : BitVec 32) : BitVec 32 :=
  transformToJTypeImm (imm &&& 0x1FFFFE) ||| rd.setWidth 32 <<< 7 ||| (opcode &&& 0x7F)

end Encoding

open Encoding

/-- The number of a register. -/
def HostReg.index : HostReg → BitVec 5
  | x0 => 0
  | t4 => 29
  | t5 => 30
  | t6 => 31

/-- `NOP`, `JAL`, `AUIPC` and `JALR` of the assembler. The immediates are an `int32_t`. -/
def HostInsn.encode : HostInsn → BitVec 32
  | other word => word
  | nop => emitIType 0 0 0b000 0 0b0010011
  | jal rd offset => emitJType (offset.setWidth 32) rd.index 0b1101111
  | auipc rd imm => emitUType (imm.setWidth 32) rd.index 0b0010111
  | jalr rd imm rs => emitIType (imm.signExtend 32) rs.index 0b000 rd.index 0b1100111

/-! ## The host -/

/-- The instructions of the host, as far as they are in pairs. Immediates are sign extended. -/
inductive WordInsn
  | addi (rd rs : BitVec 5) (imm : BitVec 64)
  | auipc (rd : BitVec 5) (imm : BitVec 64)
  | jal (rd : BitVec 5) (imm : BitVec 64)
  | jalr (rd rs : BitVec 5) (imm : BitVec 64)
deriving DecidableEq, Repr

namespace WordInsn

/-- The immediate of a `jal`, with its lowest bit. -/
def jImm (word : BitVec 32) : BitVec 21 :=
  (word.extractLsb' 31 1).setWidth 21 <<< 20 ||| (word.extractLsb' 12 8).setWidth 21 <<< 12 |||
    (word.extractLsb' 20 1).setWidth 21 <<< 11 ||| (word.extractLsb' 21 10).setWidth 21 <<< 1

def decode (word : BitVec 32) : Option WordInsn :=
  let opcode := word.extractLsb' 0 7
  let rd := word.extractLsb' 7 5
  let funct3 := word.extractLsb' 12 3
  let rs := word.extractLsb' 15 5
  let imm := (word.extractLsb' 20 12).signExtend 64
  if opcode = 0b0010011 ∧ funct3 = 0 then some (.addi rd rs imm)
  else if opcode = 0b0010111 then
    some (.auipc rd (((word.extractLsb' 12 20).setWidth 32 <<< 12).signExtend 64))
  else if opcode = 0b1101111 then some (.jal rd ((jImm word).signExtend 64))
  else if opcode = 0b1100111 ∧ funct3 = 0 then some (.jalr rd rs imm)
  else none

end WordInsn

/-- Registers and program counter of the host. -/
structure WordState where
  pc : BitVec 64
  x : BitVec 5 → BitVec 64

namespace WordState

/-- Register write; the register zero stays. -/
def set (w : WordState) (rd : BitVec 5) (value : BitVec 64) : WordState :=
  if rd = 0 then w else { w with x := Function.update w.x rd value }

def exec (w : WordState) : WordInsn → WordState
  | .addi rd rs imm => { w.set rd (w.x rs + imm) with pc := w.pc + 4 }
  | .auipc rd imm => { w.set rd (w.pc + imm) with pc := w.pc + 4 }
  | .jal rd imm => { w.set rd (w.pc + 4) with pc := w.pc + imm }
  | .jalr rd rs imm => { w.set rd (w.pc + 4) with pc := (w.x rs + imm) &&& ~~~1#64 }

/-- Fetch a word, take it apart and execute it. -/
def step (words : ℕ → BitVec 32) (w : WordState) : Option WordState :=
  (WordInsn.decode (words w.pc.toNat)).map w.exec

end WordState

/-! ## Words and instructions -/

namespace Encoding

/-- A field of a word, in its place. -/
theorem and_field (x n k : ℕ) : x &&& (2 ^ n - 1) * 2 ^ k = x / 2 ^ k % 2 ^ n * 2 ^ k := by
  apply Nat.eq_of_testBit_eq
  intro i
  rw [Nat.testBit_and, Nat.testBit_mul_two_pow, Nat.testBit_mul_two_pow,
    Nat.testBit_two_pow_sub_one, Nat.testBit_mod_two_pow, Nat.testBit_div_two_pow]
  by_cases hi : k ≤ i
  · rw [Nat.sub_add_cancel hi, Bool.and_left_comm]
    simp only [hi, decide_true, Bool.true_and]
    rw [Bool.and_comm]
  · simp [hi]

/-- Fields that do not overlap are added. -/
theorem toNat_or_field {w : ℕ} (a b : BitVec w) (k : ℕ) (ha : a.toNat % 2 ^ k = 0)
    (hb : b.toNat < 2 ^ k) : (a ||| b).toNat = a.toNat + b.toNat := by
  rw [BitVec.toNat_or, ← Nat.div_add_mod a.toNat (2 ^ k), ha, Nat.add_zero,
    Nat.two_pow_add_eq_or_of_lt hb]

section Fields

variable (imm : BitVec 32) (rs rd : BitVec 5) (funct3 opcode : BitVec 32)

theorem toNat_register {k : ℕ} (hk : k ≤ 27) : (rd.setWidth 32 <<< k).toNat = rd.toNat * 2 ^ k := by
  have hrd := rd.isLt
  have hpow : 2 ^ k ≤ 2 ^ 27 := Nat.pow_le_pow_right (by decide) hk
  rw [BitVec.toNat_shiftLeft, BitVec.toNat_setWidth, Nat.shiftLeft_eq,
    Nat.mod_eq_of_lt (lt_of_lt_of_le hrd (by decide)), Nat.mod_eq_of_lt]
  calc rd.toNat * 2 ^ k ≤ 31 * 2 ^ 27 := Nat.mul_le_mul (by omega) hpow
    _ < 2 ^ 32 := by decide

theorem toNat_and_mask (x : BitVec 32) (n : ℕ) (hn : n ≤ 32) :
    (x &&& BitVec.ofNat 32 (2 ^ n - 1)).toNat = x.toNat % 2 ^ n := by
  have hpow : 2 ^ n ≤ 2 ^ 32 := Nat.pow_le_pow_right (by decide) hn
  rw [BitVec.toNat_and, BitVec.toNat_ofNat, Nat.mod_eq_of_lt (by omega),
    Nat.and_two_pow_sub_one_eq_mod]

theorem toNat_opcode : (opcode &&& 0x7F).toNat = opcode.toNat % 2 ^ 7 :=
  toNat_and_mask opcode 7 (by decide)

/-- The fields of a word with an upper immediate. -/
theorem toNat_emitUType : (emitUType imm rd opcode).toNat =
    imm.toNat % 2 ^ 20 * 2 ^ 12 + rd.toNat * 2 ^ 7 + opcode.toNat % 2 ^ 7 := by
  have hrd := rd.isLt
  have himm : ((imm &&& 0x000FFFFF) <<< 12).toNat = imm.toNat % 2 ^ 20 * 2 ^ 12 := by
    have hmask : (imm &&& 0x000FFFFF).toNat = imm.toNat % 2 ^ 20 :=
      toNat_and_mask imm 20 (by decide)
    rw [BitVec.toNat_shiftLeft, Nat.shiftLeft_eq, hmask]
    omega
  have hreg := toNat_register rd (k := 7) (by decide)
  have hopcode := toNat_opcode opcode
  have hupper : ((imm &&& 0x000FFFFF) <<< 12 ||| rd.setWidth 32 <<< 7).toNat =
      imm.toNat % 2 ^ 20 * 2 ^ 12 + rd.toNat * 2 ^ 7 := by
    rw [toNat_or_field _ _ 12 (by omega) (by omega), himm, hreg]
  rw [emitUType, toNat_or_field _ _ 7 (by omega) (by omega), hupper, hopcode]

/-- The fields of a word with a short immediate. -/
theorem toNat_emitIType : (emitIType imm rs funct3 rd opcode).toNat =
    imm.toNat % 2 ^ 12 * 2 ^ 20 + rs.toNat * 2 ^ 15 + funct3.toNat % 2 ^ 3 * 2 ^ 12 +
      rd.toNat * 2 ^ 7 + opcode.toNat % 2 ^ 7 := by
  have hrd := rd.isLt
  have hrs := rs.isLt
  have himm : ((imm &&& 0xFFF) <<< 20).toNat = imm.toNat % 2 ^ 12 * 2 ^ 20 := by
    have hmask : (imm &&& 0xFFF).toNat = imm.toNat % 2 ^ 12 := toNat_and_mask imm 12 (by decide)
    rw [BitVec.toNat_shiftLeft, Nat.shiftLeft_eq, hmask]
    omega
  have hfunct3 : ((funct3 &&& 0b111) <<< 12).toNat = funct3.toNat % 2 ^ 3 * 2 ^ 12 := by
    have hmask : (funct3 &&& 0b111).toNat = funct3.toNat % 2 ^ 3 :=
      toNat_and_mask funct3 3 (by decide)
    rw [BitVec.toNat_shiftLeft, Nat.shiftLeft_eq, hmask]
    omega
  have hsource := toNat_register rs (k := 15) (by decide)
  have hreg := toNat_register rd (k := 7) (by decide)
  have hopcode := toNat_opcode opcode
  have h₁ : ((imm &&& 0xFFF) <<< 20 ||| rs.setWidth 32 <<< 15).toNat =
      imm.toNat % 2 ^ 12 * 2 ^ 20 + rs.toNat * 2 ^ 15 := by
    rw [toNat_or_field _ _ 20 (by omega) (by omega), himm, hsource]
  have h₂ : ((imm &&& 0xFFF) <<< 20 ||| rs.setWidth 32 <<< 15 ||| (funct3 &&& 0b111) <<< 12).toNat =
      imm.toNat % 2 ^ 12 * 2 ^ 20 + rs.toNat * 2 ^ 15 + funct3.toNat % 2 ^ 3 * 2 ^ 12 := by
    rw [toNat_or_field _ _ 15 (by omega) (by omega), h₁, hfunct3]
  have h₃ : ((imm &&& 0xFFF) <<< 20 ||| rs.setWidth 32 <<< 15 ||| (funct3 &&& 0b111) <<< 12 |||
      rd.setWidth 32 <<< 7).toNat = imm.toNat % 2 ^ 12 * 2 ^ 20 + rs.toNat * 2 ^ 15 +
        funct3.toNat % 2 ^ 3 * 2 ^ 12 + rd.toNat * 2 ^ 7 := by
    rw [toNat_or_field _ _ 12 (by omega) (by omega), h₂, hreg]
  rw [emitIType, toNat_or_field _ _ 7 (by omega) (by omega), h₃, hopcode]

/-- The fields of the immediate of a jump, from the lowest to the highest. -/
theorem toNat_transformToJTypeImm : (transformToJTypeImm imm).toNat =
    imm.toNat / 2 ^ 12 % 2 ^ 8 * 2 ^ 12 + imm.toNat / 2 ^ 11 % 2 * 2 ^ 20 +
      imm.toNat / 2 % 2 ^ 10 * 2 ^ 21 + imm.toNat / 2 ^ 20 % 2 * 2 ^ 31 := by
  have h₀ : ((imm &&& 0x0FF000) >>> 0).toNat = imm.toNat / 2 ^ 12 % 2 ^ 8 * 2 ^ 12 := by
    rw [BitVec.ushiftRight_zero, BitVec.toNat_and]
    exact and_field imm.toNat 8 12
  have h₁ : ((imm &&& 0x000800) <<< 9).toNat = imm.toNat / 2 ^ 11 % 2 * 2 ^ 20 := by
    have hfield : (imm &&& 0x000800).toNat = imm.toNat / 2 ^ 11 % 2 * 2 ^ 11 := by
      rw [BitVec.toNat_and]
      exact and_field imm.toNat 1 11
    rw [BitVec.toNat_shiftLeft, Nat.shiftLeft_eq, hfield]
    omega
  have h₂ : ((imm &&& 0x0007FE) <<< 20).toNat = imm.toNat / 2 % 2 ^ 10 * 2 ^ 21 := by
    have hfield : (imm &&& 0x0007FE).toNat = imm.toNat / 2 ^ 1 % 2 ^ 10 * 2 ^ 1 := by
      rw [BitVec.toNat_and]
      exact and_field imm.toNat 10 1
    rw [BitVec.toNat_shiftLeft, Nat.shiftLeft_eq, hfield]
    omega
  have h₃ : ((imm &&& 0x100000) <<< 11).toNat = imm.toNat / 2 ^ 20 % 2 * 2 ^ 31 := by
    have hfield : (imm &&& 0x100000).toNat = imm.toNat / 2 ^ 20 % 2 * 2 ^ 20 := by
      rw [BitVec.toNat_and]
      exact and_field imm.toNat 1 20
    rw [BitVec.toNat_shiftLeft, Nat.shiftLeft_eq, hfield]
    omega
  have h₀₁ : ((imm &&& 0x0FF000) >>> 0 ||| (imm &&& 0x000800) <<< 9).toNat =
      imm.toNat / 2 ^ 12 % 2 ^ 8 * 2 ^ 12 + imm.toNat / 2 ^ 11 % 2 * 2 ^ 20 := by
    rw [BitVec.or_comm, toNat_or_field _ _ 20 (by omega) (by omega), h₀, h₁, Nat.add_comm]
  have h₀₂ : ((imm &&& 0x0FF000) >>> 0 ||| (imm &&& 0x000800) <<< 9 |||
      (imm &&& 0x0007FE) <<< 20).toNat = imm.toNat / 2 ^ 12 % 2 ^ 8 * 2 ^ 12 +
        imm.toNat / 2 ^ 11 % 2 * 2 ^ 20 + imm.toNat / 2 % 2 ^ 10 * 2 ^ 21 := by
    rw [BitVec.or_comm, toNat_or_field _ _ 21 (by omega) (by omega), h₀₁, h₂, Nat.add_comm]
  rw [transformToJTypeImm, BitVec.or_comm, toNat_or_field _ _ 31 (by omega) (by omega), h₀₂, h₃,
    Nat.add_comm]

theorem toNat_emitJType : (emitJType imm rd opcode).toNat =
    (transformToJTypeImm (imm &&& 0x1FFFFE)).toNat + rd.toNat * 2 ^ 7 + opcode.toNat % 2 ^ 7 := by
  have hrd := rd.isLt
  have himm := toNat_transformToJTypeImm (imm &&& 0x1FFFFE)
  have hreg := toNat_register rd (k := 7) (by decide)
  have hopcode := toNat_opcode opcode
  have hupper : (transformToJTypeImm (imm &&& 0x1FFFFE) ||| rd.setWidth 32 <<< 7).toNat =
      (transformToJTypeImm (imm &&& 0x1FFFFE)).toNat + rd.toNat * 2 ^ 7 := by
    rw [toNat_or_field _ _ 12 (by omega) (by omega), hreg]
  rw [emitJType, toNat_or_field _ _ 7 (by omega) (by omega), hupper, hopcode]

end Fields

end Encoding

namespace WordInsn

open Recompiler

theorem extract_eq {word : BitVec 32} {start len : ℕ} {v : BitVec len}
    (h : word.toNat / 2 ^ start % 2 ^ len = v.toNat) : word.extractLsb' start len = v := by
  apply BitVec.eq_of_toNat_eq
  rw [BitVec.extractLsb'_toNat, Nat.shiftRight_eq_div_pow, h]

theorem decode_nop : decode HostInsn.nop.encode = some (.addi 0 0 0) := by decide

theorem decode_auipc (rd : HostReg) (imm : BitVec 20) : decode (HostInsn.auipc rd imm).encode =
    some (.auipc rd.index ((imm.setWidth 32 <<< 12).signExtend 64)) := by
  have himm := imm.isLt
  have hreg := rd.index.isLt
  have hword : (HostInsn.auipc rd imm).encode.toNat =
      imm.toNat * 2 ^ 12 + rd.index.toNat * 2 ^ 7 + 0b0010111 := by
    have hopcode : (0b0010111 : BitVec 32).toNat % 2 ^ 7 = 0b0010111 := rfl
    rw [HostInsn.encode, toNat_emitUType, BitVec.toNat_setWidth, hopcode,
      Nat.mod_eq_of_lt (lt_of_lt_of_le himm (by decide)), Nat.mod_eq_of_lt himm]
  have hopcode : (HostInsn.auipc rd imm).encode.extractLsb' 0 7 = 0b0010111 := by
    refine extract_eq ?_
    simp only [BitVec.reduceToNat]
    omega
  have hrd : (HostInsn.auipc rd imm).encode.extractLsb' 7 5 = rd.index := extract_eq (by omega)
  have hupper : (HostInsn.auipc rd imm).encode.extractLsb' 12 20 = imm := extract_eq (by omega)
  simp only [decode, hopcode, hrd, hupper]
  rfl

theorem decode_jalr (rd rs : HostReg) (imm : BitVec 12) :
    decode (HostInsn.jalr rd imm rs).encode =
      some (.jalr rd.index rs.index (imm.signExtend 64)) := by
  have hlow : (imm.signExtend 32).toNat % 2 ^ 12 = imm.toNat := by
    rw [← BitVec.toNat_setWidth, Riscv.setWidth_signExtend imm (by decide)]
  have himm := imm.isLt
  have hrdlt := rd.index.isLt
  have hrslt := rs.index.isLt
  have hword : (HostInsn.jalr rd imm rs).encode.toNat =
      imm.toNat * 2 ^ 20 + rs.index.toNat * 2 ^ 15 + rd.index.toNat * 2 ^ 7 + 0b1100111 := by
    have hfunct3 : (0b000 : BitVec 32).toNat % 2 ^ 3 * 2 ^ 12 = 0 := rfl
    have hopcode : (0b1100111 : BitVec 32).toNat % 2 ^ 7 = 0b1100111 := rfl
    simp only [HostInsn.encode, toNat_emitIType, hlow, hfunct3, hopcode, Nat.add_zero]
  have hopcode : (HostInsn.jalr rd imm rs).encode.extractLsb' 0 7 = 0b1100111 := by
    refine extract_eq ?_
    simp only [BitVec.reduceToNat]
    omega
  have hrd : (HostInsn.jalr rd imm rs).encode.extractLsb' 7 5 = rd.index := extract_eq (by omega)
  have hfunct3 : (HostInsn.jalr rd imm rs).encode.extractLsb' 12 3 = 0 := by
    refine extract_eq ?_
    simp only [BitVec.reduceToNat]
    omega
  have hrs : (HostInsn.jalr rd imm rs).encode.extractLsb' 15 5 = rs.index := extract_eq (by omega)
  have hshort : (HostInsn.jalr rd imm rs).encode.extractLsb' 20 12 = imm := extract_eq (by omega)
  simp only [decode, hopcode, hrd, hfunct3, hrs, hshort]
  rfl

/-- The immediate of a jump is put together again. -/
theorem toNat_jImm (word : BitVec 32) : (jImm word).toNat =
    word.toNat / 2 ^ 31 % 2 * 2 ^ 20 + word.toNat / 2 ^ 12 % 2 ^ 8 * 2 ^ 12 +
      word.toNat / 2 ^ 20 % 2 * 2 ^ 11 + word.toNat / 2 ^ 21 % 2 ^ 10 * 2 := by
  have hfield : ∀ start len k : ℕ, len + k ≤ 21 →
      ((word.extractLsb' start len).setWidth 21 <<< k : BitVec 21).toNat =
        word.toNat / 2 ^ start % 2 ^ len * 2 ^ k := by
    intro start len k hk
    have hlt : word.toNat / 2 ^ start % 2 ^ len < 2 ^ len := Nat.mod_lt _ (Nat.two_pow_pos _)
    have hle : word.toNat / 2 ^ start % 2 ^ len * 2 ^ k < 2 ^ 21 := by
      calc word.toNat / 2 ^ start % 2 ^ len * 2 ^ k < 2 ^ len * 2 ^ k :=
            Nat.mul_lt_mul_of_pos_right hlt (Nat.two_pow_pos _)
        _ = 2 ^ (len + k) := (pow_add 2 len k).symm
        _ ≤ 2 ^ 21 := Nat.pow_le_pow_right (by decide) hk
    have hlen : 2 ^ len ≤ 2 ^ 21 := Nat.pow_le_pow_right (by decide) (by omega)
    rw [BitVec.toNat_shiftLeft, BitVec.toNat_setWidth, BitVec.extractLsb'_toNat,
      Nat.shiftRight_eq_div_pow, Nat.shiftLeft_eq, Nat.mod_eq_of_lt (lt_of_lt_of_le hlt hlen),
      Nat.mod_eq_of_lt hle]
  have h₃ := hfield 31 1 20 (by decide)
  have h₂ := hfield 12 8 12 (by decide)
  have h₁ := hfield 20 1 11 (by decide)
  have h₀ := hfield 21 10 1 (by decide)
  have h₃₂ : ((word.extractLsb' 31 1).setWidth 21 <<< 20 |||
      (word.extractLsb' 12 8).setWidth 21 <<< 12 : BitVec 21).toNat =
        word.toNat / 2 ^ 31 % 2 * 2 ^ 20 + word.toNat / 2 ^ 12 % 2 ^ 8 * 2 ^ 12 := by
    rw [toNat_or_field _ _ 20 (by omega) (by omega), h₃, h₂, pow_one]
  have h₃₁ : ((word.extractLsb' 31 1).setWidth 21 <<< 20 |||
      (word.extractLsb' 12 8).setWidth 21 <<< 12 |||
      (word.extractLsb' 20 1).setWidth 21 <<< 11 : BitVec 21).toNat =
        word.toNat / 2 ^ 31 % 2 * 2 ^ 20 + word.toNat / 2 ^ 12 % 2 ^ 8 * 2 ^ 12 +
          word.toNat / 2 ^ 20 % 2 * 2 ^ 11 := by
    rw [toNat_or_field _ _ 12 (by omega) (by omega), h₃₂, h₁, pow_one]
  rw [jImm, toNat_or_field _ _ 11 (by omega) (by omega), h₃₁, h₀, pow_one]

/-- An even number of 21 bits in the four pieces of a jump. -/
theorem exists_pieces {v : ℕ} (hv : v < 2 ^ 21) (heven : v % 2 = 0) : ∃ a b c d,
    (a < 2 ^ 8 ∧ b < 2 ∧ c < 2 ^ 10 ∧ d < 2) ∧
      v = d * 2 ^ 20 + a * 2 ^ 12 + b * 2 ^ 11 + c * 2 ∧
      v / 2 ^ 12 % 2 ^ 8 * 2 ^ 12 + v / 2 ^ 11 % 2 * 2 ^ 20 + v / 2 % 2 ^ 10 * 2 ^ 21 +
        v / 2 ^ 20 % 2 * 2 ^ 31 = a * 2 ^ 12 + b * 2 ^ 20 + c * 2 ^ 21 + d * 2 ^ 31 := by
  have h₁₁ : v / 2 ^ 11 = v / 2 / 2 ^ 10 := (Nat.div_div_eq_div_mul v 2 (2 ^ 10)).symm
  have h₁₂ : v / 2 ^ 12 = v / 2 ^ 11 / 2 := (Nat.div_div_eq_div_mul v (2 ^ 11) 2).symm
  have h₂₀ : v / 2 ^ 20 = v / 2 ^ 12 / 2 ^ 8 := (Nat.div_div_eq_div_mul v (2 ^ 12) (2 ^ 8)).symm
  refine ⟨v / 2 ^ 12 % 2 ^ 8, v / 2 ^ 11 % 2, v / 2 % 2 ^ 10, v / 2 ^ 20 % 2, ?_, ?_, rfl⟩
  · omega
  · omega

/-- A distance that passes the test is the sign extension of 21 of its bits. -/
theorem signExtend_eq {imm : BitVec 21} {offset : BitVec 64}
    (himm : imm.toNat = offset.toNat % 2 ^ 21) (hvalid : isValidJTypeImm offset) :
    imm.signExtend 64 = offset := by
  obtain ⟨hlow, hhigh⟩ := hvalid
  have hlt := offset.isLt
  rw [BitVec.toInt_eq_toNat_cond] at hlow hhigh
  apply BitVec.eq_of_toNat_eq
  rw [BitVec.toNat_signExtend, BitVec.toNat_setWidth, BitVec.msb_eq_decide, himm]
  simp only [decide_eq_true_eq]
  split at hlow <;> split <;> omega

/-- A distance that passes the test comes out as it went in. -/
theorem decode_jal (rd : HostReg) {offset : BitVec 64} (hvalid : isValidJTypeImm offset)
    (heven : offset.toNat % 2 = 0) : decode (HostInsn.jal rd offset).encode =
      some (.jal rd.index offset) := by
  have hmask : (offset.setWidth 32 &&& 0x1FFFFE : BitVec 32).toNat = offset.toNat % 2 ^ 21 := by
    rw [BitVec.toNat_and, BitVec.toNat_setWidth]
    refine (and_field (offset.toNat % 2 ^ 32) 20 1).trans ?_
    omega
  -- the four pieces of the distance, each of which is a field of the word
  obtain ⟨a, b, c, d, hlt, hsum, hpieces⟩ := exists_pieces (Nat.mod_lt offset.toNat (by decide))
    (show offset.toNat % 2 ^ 21 % 2 = 0 by omega)
  have hword : (HostInsn.jal rd offset).encode.toNat =
      (((d * 2 ^ 10 + c) * 2 + b) * 2 ^ 8 + a) * 2 ^ 12 + (rd.index.toNat * 2 ^ 7 + 0b1101111) := by
    have hopcode : (0b1101111 : BitVec 32).toNat % 2 ^ 7 = 0b1101111 := rfl
    rw [HostInsn.encode, toNat_emitJType, toNat_transformToJTypeImm, hmask, hpieces, hopcode]
    ring
  clear hpieces hmask heven
  have hrdlt := rd.index.isLt
  have hopcode : (HostInsn.jal rd offset).encode.extractLsb' 0 7 = 0b1101111 := by
    refine extract_eq ?_
    have hvalue : (0b1101111 : BitVec 7).toNat = 0b1101111 := rfl
    omega
  have hrd : (HostInsn.jal rd offset).encode.extractLsb' 7 5 = rd.index := extract_eq (by omega)
  have himm : (jImm (HostInsn.jal rd offset).encode).toNat = offset.toNat % 2 ^ 21 := by
    have h₁₂ : (HostInsn.jal rd offset).encode.toNat / 2 ^ 12 =
        ((d * 2 ^ 10 + c) * 2 + b) * 2 ^ 8 + a := by omega
    have h₂₀ : (HostInsn.jal rd offset).encode.toNat / 2 ^ 20 = (d * 2 ^ 10 + c) * 2 + b := by
      refine (Nat.div_div_eq_div_mul _ (2 ^ 12) (2 ^ 8)).symm.trans ?_
      rw [h₁₂]
      omega
    have h₂₁ : (HostInsn.jal rd offset).encode.toNat / 2 ^ 21 = d * 2 ^ 10 + c := by
      refine (Nat.div_div_eq_div_mul _ (2 ^ 20) 2).symm.trans ?_
      rw [h₂₀]
      omega
    have h₃₁ : (HostInsn.jal rd offset).encode.toNat / 2 ^ 31 = d := by
      refine (Nat.div_div_eq_div_mul _ (2 ^ 21) (2 ^ 10)).symm.trans ?_
      rw [h₂₁]
      omega
    rw [toNat_jImm, h₁₂, h₂₀, h₂₁, h₃₁, Nat.mul_add_mod_of_lt hlt.1, Nat.mul_add_mod_of_lt hlt.2.1,
      Nat.mul_add_mod_of_lt hlt.2.2.1, Nat.mod_eq_of_lt hlt.2.2.2, hsum]
  have hoffset := signExtend_eq himm hvalid
  simp only [decode, hopcode, hrd, hoffset]
  rfl

end WordInsn

/-! ## The pairs on words -/

namespace Recompiler

/-- The words of the code buffer. -/
def words (code : ℕ → HostInsn) (address : ℕ) : BitVec 32 := (code address).encode

/-- The two instructions at a place go to another one. They leave the address behind them in `rd`
and change nothing else but `rs`. -/
def Goes (code : ℕ → HostInsn) (site target : ℕ) (rs rd : HostReg) : Prop :=
  ∀ w : WordState, w.pc.toNat = site → ∃ w₁ w₂, w.step (words code) = some w₁ ∧
    w₁.pc.toNat = site + 4 ∧ w₁.step (words code) = some w₂ ∧ w₂.pc.toNat = target ∧
    (rd ≠ .x0 → w₂.x rd.index = BitVec.ofNat 64 (site + 8)) ∧
    ∀ q, q ≠ rs.index → q ≠ rd.index → w₂.x q = w.x q

section Pairs

variable {code : ℕ → HostInsn} {site target : ℕ} {rs rd : HostReg}

theorem index_eq_zero_iff : rd.index = 0 ↔ rd = .x0 := by
  cases rd <;> decide

theorem x_set_self {w : WordState} {v : BitVec 64} (h : rd ≠ .x0) :
    (w.set rd.index v).x rd.index = v := by
  rw [WordState.set, if_neg (mt index_eq_zero_iff.mp h)]
  exact Function.update_self _ _ _

theorem x_set_of_ne {w : WordState} {v : BitVec 64} {q : BitVec 5} (h : q ≠ rd.index) :
    (w.set rd.index v).x q = w.x q := by
  rw [WordState.set]
  split
  · rfl
  · exact Function.update_of_ne h _ _

theorem goes_pair (hrs : rs ≠ .x0) (hsite : site + 8 < 2 ^ 63) (htarget : target < 2 ^ 63)
    (heven : target % 2 = 0) (hnear : target ≤ site + 2 ^ 30 ∧ site ≤ target + 2 ^ 30)
    (hauipc : code site = .auipc rs (hi20 (offsetTo target site)))
    (hjalr : code (site + 4) = .jalr rd (lo12 (offsetTo target site)) rs) :
    Goes code site target rs rd := by
  intro w hpc
  have hreach : Reaches (offsetTo target site) := by
    rw [Reaches, offsetTo, BitVec.toNat_sub, BitVec.toNat_ofNat, BitVec.toNat_ofNat]
    omega
  have hpc₄ : (w.pc + 4).toNat = site + 4 := toNat_add_four (h := ⟨w.pc, fun _ ↦ 0⟩) hpc hsite
  have hsum : w.pc + offsetTo target site = BitVec.ofNat 64 target :=
    add_offsetTo (h := ⟨w.pc, fun _ ↦ 0⟩) hpc
  have hpc₈ : w.pc + 4 + 4 = BitVec.ofNat 64 (site + 8) := by
    apply BitVec.eq_of_toNat_eq
    rw [BitVec.toNat_add, hpc₄, BitVec.toNat_ofNat]
    rfl
  have hmask : BitVec.ofNat 64 target &&& ~~~1#64 = BitVec.ofNat 64 target := by
    refine Jit.and_not_one_of_even ?_
    rw [BitVec.toNat_ofNat]
    omega
  set upper := ((hi20 (offsetTo target site)).setWidth 32 <<< 12).signExtend 64 with hupper
  have hfirst : w.step (words code) =
      some { w.set rs.index (w.pc + upper) with pc := w.pc + 4 } := by
    rw [WordState.step, words, hpc, hauipc, WordInsn.decode_auipc]
    rfl
  have hjump : ((w.set rs.index (w.pc + upper)).x rs.index +
      (lo12 (offsetTo target site)).signExtend 64) &&& ~~~1#64 = BitVec.ofNat 64 target := by
    rw [x_set_self hrs, BitVec.add_assoc, hupper, hi20_add_lo12 hreach, hsum, hmask]
  refine ⟨_, { (({ w.set rs.index (w.pc + upper) with pc := w.pc + 4 } : WordState).set rd.index
    (w.pc + 4 + 4)) with pc := BitVec.ofNat 64 target }, hfirst, hpc₄, ?_, ?_, fun hrd ↦ ?_,
    fun q hq hq' ↦ ?_⟩
  · rw [WordState.step, words, show ({ w.set rs.index (w.pc + upper) with pc := w.pc + 4 } :
      WordState).pc.toNat = site + 4 from hpc₄, hjalr, WordInsn.decode_jalr, Option.map_some,
      WordState.exec, hjump]
  · rw [BitVec.toNat_ofNat]
    omega
  · rw [x_set_self hrd, hpc₈]
  · rw [x_set_of_ne hq']
    exact x_set_of_ne hq

/-- The short form, for a distance that passes the test. -/
theorem goes_short (hsite : site + 8 < 2 ^ 63) (htarget : target < 2 ^ 63)
    (hsiteEven : site % 2 = 0) (heven : target % 2 = 0)
    (hvalid : isValidJTypeImm (offsetTo target site - 4)) (hnop : code site = .nop)
    (hjal : code (site + 4) = .jal .t5 (offsetTo target site - 4)) :
    Goes code site target .t4 .t5 := by
  intro w hpc
  have hpc₄ : (w.pc + 4).toNat = site + 4 := toNat_add_four (h := ⟨w.pc, fun _ ↦ 0⟩) hpc hsite
  have hsum : w.pc + offsetTo target site = BitVec.ofNat 64 target :=
    add_offsetTo (h := ⟨w.pc, fun _ ↦ 0⟩) hpc
  have hpc₈ : w.pc + 4 + 4 = BitVec.ofNat 64 (site + 8) := by
    apply BitVec.eq_of_toNat_eq
    rw [BitVec.toNat_add, hpc₄, BitVec.toNat_ofNat]
    rfl
  have hoffset : (offsetTo target site - 4).toNat % 2 = 0 := by
    rw [offsetTo, BitVec.toNat_sub, BitVec.toNat_sub, BitVec.toNat_ofNat, BitVec.toNat_ofNat]
    simp only [BitVec.reduceToNat]
    omega
  have hfirst : w.step (words code) = some { w with pc := w.pc + 4 } := by
    rw [WordState.step, words, hpc, hnop, WordInsn.decode_nop]
    rfl
  refine ⟨_, { (({ w with pc := w.pc + 4 } : WordState).set HostReg.t5.index
    (w.pc + 4 + 4)) with pc := BitVec.ofNat 64 target }, hfirst, hpc₄, ?_, ?_, fun hrd ↦ ?_,
    fun q hq hq' ↦ x_set_of_ne hq'⟩
  · rw [WordState.step, words, show ({ w with pc := w.pc + 4 } : WordState).pc.toNat = site + 4
      from hpc₄, hjal, WordInsn.decode_jal _ hvalid hoffset, Option.map_some, WordState.exec]
    rw [show ({ w with pc := w.pc + 4 } : WordState).pc + (offsetTo target site - 4) =
      BitVec.ofNat 64 target by
        rw [← hsum]
        exact (BitVec.add_assoc _ _ _).trans (by rw [BitVec.add_comm 4, BitVec.sub_add_cancel])]
  · rw [BitVec.toNat_ofNat]
    omega
  · rw [x_set_self hrd, hpc₈]

end Pairs

end Recompiler

/-! ## What is written at a place -/

namespace Recompiler

open RipMachine (Emitted)

variable {L : Layout} {r r' : Recompiler} {site target : ℕ}

/-- An address in the code cache where a pair can stand. -/
structure Place (L : Layout) (a : ℕ) : Prop where
  codeCache_le : L.codeCache ≤ a
  le : a + 8 ≤ L.codeCache + codeCacheSize
  even : a % 2 = 0

theorem place_compileNextHandler (hL : Emitted L) (hsite : Place L site) :
    L.compileNextHandler < 2 ^ 63 ∧ L.compileNextHandler ≤ site + 2 ^ 30 ∧
      site ≤ L.compileNextHandler + 2 ^ 30 := by
  have h₁ := hL.codeCache_le
  have h₂ := hL.handler_lt
  have h₃ := L.start_le
  have h₄ := L.codeCache_lt
  obtain ⟨h₅, h₆, -⟩ := hsite
  rw [codeCacheSize] at h₃ h₄ h₆
  omega

theorem isValid2GBImm_of_near (hnear : target ≤ site + 2 ^ 30 ∧ site ≤ target + 2 ^ 30) :
    isValid2GBImm (offsetTo target site) := by
  rw [isValid2GBImm, offsetTo, BitVec.toInt_eq_toNat_cond, BitVec.toNat_sub, BitVec.toNat_ofNat,
    BitVec.toNat_ofNat]
  split <;> omega

theorem exists_emit_pair (hspace : r.cursor + 8 ≤ L.codeCache + codeCacheSize)
    (first second : HostInsn) :
    ∃ r', (do let r ← r.emit L first; r.emit L second) = some r' := by
  have hfirst : r.emit L first = some ((r.store r.cursor first).setCursor (r.cursor + 4)) := by
    rw [emit, if_pos (by omega)]
  have hcursor : ((r.store r.cursor first).setCursor (r.cursor + 4)).cursor = r.cursor + 4 := rfl
  rw [hfirst, Option.bind_eq_bind, Option.bind_some, emit, hcursor, if_pos (by omega)]
  exact ⟨_, rfl⟩

/-- A pair has been written at the cursor, and nothing else. -/
structure Wrote (r r' : Recompiler) (target : ℕ) (rs rd : HostReg) : Prop where
  cursor : r'.cursor = r.cursor + 8
  code : ∀ x ∉ pair r.cursor, r'.code x = r.code x
  goes : Goes r'.code r.cursor target rs rd

theorem wrote_backToDispatcher (hL : Emitted L) (hsite : Place L r.cursor) :
    ∃ r', r.backToDispatcher L = some r' ∧ Wrote r r' L.compileNextHandler .t6 .x0 := by
  obtain ⟨hlt, hnear⟩ := place_compileNextHandler hL hsite
  have hcache := L.codeCache_lt
  have hle := hsite.le
  have hvalid := isValid2GBImm_of_near hnear
  obtain ⟨r', hpair⟩ := exists_emit_pair hle
    (.auipc .t6 (hi20 (offsetTo L.compileNextHandler r.cursor)))
    (.jalr .x0 (lo12 (offsetTo L.compileNextHandler r.cursor)) .t6)
  have hback : r.backToDispatcher L = some r' := by
    rw [backToDispatcher, if_pos hvalid]
    exact hpair
  obtain ⟨hframe, hcursor, -⟩ := of_backToDispatcher hback
  obtain ⟨⟨hauipc, hjalr⟩, -⟩ := code_backToDispatcher hback
  exact ⟨r', hback, hcursor, hframe.code,
    goes_pair (by decide) (by omega) hlt hL.handler_even hnear hauipc hjalr⟩

/-- Both forms of a link go to its target. -/
theorem wrote_jumpTo (hsite : Place L r.cursor) (htarget : Place L target) :
    ∃ r', r.jumpTo L target = some r' ∧ Wrote r r' target .t4 .t5 := by
  obtain ⟨h₁, h₂, hsiteEven⟩ := hsite
  obtain ⟨h₃, h₄, heven⟩ := htarget
  have hcache := L.codeCache_lt
  have hnear : target ≤ r.cursor + 2 ^ 30 ∧ r.cursor ≤ target + 2 ^ 30 := by
    rw [codeCacheSize] at h₂ h₄
    omega
  by_cases hshort : isValidJTypeImm (offsetTo target r.cursor - 4)
  · obtain ⟨r', hpair⟩ := exists_emit_pair h₂ .nop (.jal .t5 (offsetTo target r.cursor - 4))
    have hjump : r.jumpTo L target = some r' := by
      rw [jumpTo, if_pos hshort]
      exact hpair
    obtain ⟨hframe, hcursor, -⟩ := of_jumpTo hjump
    obtain ⟨⟨hnop, hjal⟩, -⟩ := code_emit_pair hpair
    exact ⟨r', hjump, hcursor, hframe.code,
      goes_short (by omega) (by omega) hsiteEven heven hshort hnop hjal⟩
  · obtain ⟨r', hpair⟩ := exists_emit_pair h₂ (.auipc .t4 (hi20 (offsetTo target r.cursor)))
      (.jalr .t5 (lo12 (offsetTo target r.cursor)) .t4)
    have hvalid := isValid2GBImm_of_near hnear
    have hjump : r.jumpTo L target = some r' := by
      rw [jumpTo, if_neg hshort, if_pos hvalid]
      exact hpair
    obtain ⟨hframe, hcursor, -⟩ := of_jumpTo hjump
    obtain ⟨⟨hauipc, hjalr⟩, -⟩ := code_emit_pair hpair
    exact ⟨r', hjump, hcursor, hframe.code,
      goes_pair (by decide) (by omega) (by omega) heven hnear hauipc hjalr⟩

/-- Every address in the tables is one where a pair can stand. -/
def Aligned (L : Layout) (r : Recompiler) : Prop :=
  ∀ rip, r.blockExists rip → Place L (r.blockMetadata rip).address

/-- A link goes to its block if there is one, and to the dispatcher otherwise. -/
def WroteLink (L : Layout) (r r' : Recompiler) (rip : ℕ) : Prop :=
  if L.link ∧ r.blockExists rip then Wrote r r' (r.blockMetadata rip).address .t4 .t5
  else Wrote r r' L.compileNextHandler .t6 .x0

theorem wrote_jumpAndLink (hL : Emitted L) (haligned : Aligned L r) (hsite : Place L r.cursor)
    (rip : ℕ) : ∃ r', r.jumpAndLink L rip = some r' ∧ WroteLink L r r' rip := by
  obtain ⟨r', hback, hwrote⟩ := wrote_backToDispatcher hL hsite
  by_cases hlink : L.link
  · by_cases hexists : r.blockExists rip
    · obtain ⟨r', hjump, hwrote⟩ := wrote_jumpTo hsite (haligned rip hexists)
      refine ⟨r', ?_, ?_⟩
      · rw [jumpAndLink, if_neg (not_not.mpr hlink), if_pos hexists, hjump]
      · rw [WroteLink, if_pos ⟨hlink, hexists⟩]
        exact hwrote
    · refine ⟨r'.modifyBlock rip fun m ↦ { m with pendingLinks := m.pendingLinks ++ [r.cursor] },
        ?_, ?_⟩
      · rw [jumpAndLink, if_neg (not_not.mpr hlink), if_neg hexists, hback]
        rfl
      · rw [WroteLink, if_neg fun h ↦ hexists h.2]
        exact ⟨hwrote.cursor, hwrote.code, hwrote.goes⟩
  · refine ⟨r', ?_, ?_⟩
    · rw [jumpAndLink, if_pos hlink, hback]
    · rw [WroteLink, if_neg fun h ↦ hlink h.1]
      exact hwrote

/-- A link that is written again, with the cursor put back. -/
theorem wrote_relink (hL : Emitted L) (haligned : Aligned L r) (hsite : Place L site) (rip : ℕ) :
    ∃ r', r.relink L rip site = some r' ∧ r'.cursor = r.cursor ∧
      (∀ x ∉ pair site, r'.code x = r.code x) ∧
      (∀ rip', (r'.blockMetadata rip').address = (r.blockMetadata rip').address) ∧
      if L.link ∧ r.blockExists rip then Goes r'.code site (r.blockMetadata rip).address .t4 .t5
      else Goes r'.code site L.compileNextHandler .t6 .x0 := by
  obtain ⟨r', hjump, hwrote⟩ := wrote_jumpAndLink (r := r.setCursor site) hL haligned hsite rip
  have hrelink : r.relink L rip site = some (r'.setCursor r.cursor) := by
    rw [relink, hjump]
    rfl
  obtain ⟨hframe, hcursor⟩ := of_relink hrelink
  refine ⟨_, hrelink, hcursor, hframe.code, hframe.address, ?_⟩
  have hwrote : if L.link ∧ r.blockExists rip then
        Wrote (r.setCursor site) r' (r.blockMetadata rip).address .t4 .t5
      else Wrote (r.setCursor site) r' L.compileNextHandler .t6 .x0 := hwrote
  split at hwrote
  · next hcond =>
    rw [if_pos hcond]
    exact hwrote.goes
  · next hcond =>
    rw [if_neg hcond]
    exact hwrote.goes

theorem wrote_invalidateBlock (haligned : Aligned L r) {rip : ℕ} (hexists : r.blockExists rip) :
    ∃ r', r.invalidateBlock L rip = some r' ∧
      (∀ x ∉ pair (r.blockMetadata rip).address, r'.code x = r.code x) ∧
      Goes r'.code (r.blockMetadata rip).address L.invalidateCallerThunk .t4 .t6 := by
  obtain ⟨h₁, h₂, -⟩ := haligned rip hexists
  obtain ⟨r', hinvalidate⟩ : ∃ r', r.invalidateBlock L rip = some r' := ⟨_, if_neg hexists⟩
  obtain ⟨-, hframe, -, -, hauipc, hjalr⟩ := of_invalidateBlock hinvalidate
  have h₃ := L.codeCache_le_thunk
  have h₄ := L.thunk_lt_start
  have h₅ := L.start_le
  have h₆ := L.codeCache_lt
  refine ⟨r', hinvalidate, hframe.code, goes_pair (by decide) (by omega) (by omega) L.thunk_even ?_
    hauipc hjalr⟩
  rw [codeCacheSize] at h₂ h₅
  omega

end Recompiler

namespace Recompiler

open RipMachine (Emitted)

variable {L : Layout} {r r' : Recompiler} {site target : ℕ}

theorem Goes.congr {code code' : ℕ → HostInsn} {rs rd : HostReg} (h : Goes code site target rs rd)
    (hcode : ∀ x ∈ pair site, code' x = code x) : Goes code' site target rs rd := by
  intro w hpc
  obtain ⟨w₁, w₂, hfirst, hpc₁, hsecond, hrest⟩ := h w hpc
  refine ⟨w₁, w₂, ?_, hpc₁, ?_, hrest⟩
  · rw [WordState.step, words, hpc, hcode site ⟨le_rfl, by omega⟩]
    rwa [WordState.step, words, hpc] at hfirst
  · rw [WordState.step, words, hpc₁, hcode (site + 4) ⟨by omega, by omega⟩]
    rwa [WordState.step, words, hpc₁] at hsecond

/-- The loop of `expirePendingLinks`. A link may be listed twice, but no two of them overlap. -/
theorem wrote_relinks (hL : Emitted L) (hlink : L.link) {rip : ℕ} {links : List ℕ}
    (haligned : Aligned L r) (hexists : r.blockExists rip) (hplace : ∀ link ∈ links, Place L link)
    (hapart : ∀ link ∈ links, ∀ link' ∈ links,
      link = link' ∨ link + 8 ≤ link' ∨ link' + 8 ≤ link) :
    ∃ r', links.foldlM (fun r link ↦ r.relink L rip link) r = some r' ∧ r'.cursor = r.cursor ∧
      (∀ x ∉ pairs {link | link ∈ links}, r'.code x = r.code x) ∧
      ∀ link ∈ links, Goes r'.code link (r.blockMetadata rip).address .t4 .t5 := by
  induction links generalizing r with
  | nil => exact ⟨r, rfl, rfl, fun _ _ ↦ rfl, (fun _ hmem ↦ nomatch hmem)⟩
  | cons link links ih =>
    obtain ⟨r₁, hrelink, hcursor₁, hcode₁, haddress, hgoes⟩ :=
      wrote_relink hL haligned (hplace link List.mem_cons_self) rip
    rw [if_pos ⟨hlink, hexists⟩] at hgoes
    have haligned₁ : Aligned L r₁ := by
      intro rip' hexists'
      rw [blockExists, haddress] at hexists'
      rw [haddress]
      exact haligned rip' hexists'
    have hexists₁ : r₁.blockExists rip := by
      rw [blockExists, haddress]
      exact hexists
    obtain ⟨r', hloop, hcursor', hcode', hgoes'⟩ := ih haligned₁ hexists₁
      (fun link hmem ↦ hplace link (List.mem_cons_of_mem _ hmem))
      fun l hl l' hl' ↦ hapart l (List.mem_cons_of_mem _ hl) l' (List.mem_cons_of_mem _ hl')
    refine ⟨r', ?_, hcursor'.trans hcursor₁, fun x hx ↦ ?_, fun l hl ↦ ?_⟩
    · rw [List.foldlM_cons, hrelink]
      exact hloop
    · rw [hcode' x, hcode₁ x]
      · exact fun hmem ↦ hx ⟨link, List.mem_cons_self, hmem⟩
      · rintro ⟨l, hl, hmem⟩
        exact hx ⟨l, List.mem_cons_of_mem _ hl, hmem⟩
    · rw [← haddress]
      by_cases hmem : l ∈ links
      · exact hgoes' l hmem
      · -- the link is not written again, and what is written does not touch it
        obtain rfl := (List.mem_cons.mp hl).resolve_right hmem
        rw [haddress]
        refine hgoes.congr fun x hx ↦ hcode' x ?_
        rintro ⟨l', hl', hx'⟩
        obtain rfl | hle | hle := hapart l List.mem_cons_self l' (List.mem_cons_of_mem _ hl')
        · exact hmem hl'
        · have h₁ := hx.2
          have h₂ := hx'.1
          omega
        · have h₁ := hx.1
          have h₂ := hx'.2
          omega

end Recompiler

/-! ## Every state -/

namespace Traced

open Recompiler RipMachine

variable {L : Layout} {s t : Traced}

theorem even_of_mem_exits {p : ℕ × Option ℕ} {start : ℕ} {items : List Item}
    (h : p ∈ exits start items) (heven : start % 2 = 0) : p.1 % 2 = 0 := by
  induction items generalizing start with
  | nil => exact nomatch h
  | cons item items ih =>
    obtain ⟨hp, -⟩ | hrest := mem_exits_cons.mp h
    · rw [hp]
      exact heven
    · have hitem : item.size % 2 = 0 := by
        cases item <;> simp [Item.size]
      exact ih hrest (by omega)

/-- Blocks start at even addresses, and links are exits of blocks. -/
structure Even (s : Traced) : Prop where
  start : ∀ c ∈ s.copies, c.start % 2 = 0
  cursor : s.jit.tables.cursor % 2 = 0
  sites : ∀ site ∈ s.jit.sites, ∃ c ∈ s.copies, ∃ rip, (site, some rip) ∈ c.exits

theorem even_initial (hL : Emitted L) (code : ℕ → HostInsn) : Even (initial L code) :=
  ⟨(fun _ hc ↦ nomatch hc), hL.start_even, fun _ hsite ↦ hsite.elim⟩

theorem Even.space (hL : Emitted L) (h : Even s) : Even (s.space L) := by
  unfold Traced.space
  split
  · exact even_initial hL _
  · exact h

theorem Even.compiled (h : Even s) {rip : ℕ} {b : Translation} {r' : Recompiler}
    (hc : Compiled L s.jit.tables r' rip b.sequence.items) :
    Even (s.compiled rip b (s.jit.compiled L b.sequence r')) := by
  refine ⟨fun c hmem ↦ ?_, ?_, ?_⟩
  · obtain hmem | hmem := List.mem_append.mp hmem
    · exact h.start c hmem
    · rw [List.mem_singleton.mp hmem]
      exact h.cursor
  · have hsize := even_byteSize b.sequence.items
    have hcursor := hc.cursor
    have heven := h.cursor
    change r'.cursor % 2 = 0
    omega
  · rintro site (hsite | ⟨-, hsite⟩)
    · obtain ⟨c, hmem, hexit⟩ := h.sites site hsite
      exact ⟨c, List.mem_append_left _ hmem, hexit⟩
    · exact ⟨_, List.mem_append_right _ List.mem_cons_self, mem_linkSites_iff.mp hsite⟩

theorem even_of_compile (hL : Emitted L) (h : Even s) (hsound : s.jit.Sound L) {rip : ℕ}
    {b : Translation} {r' : Recompiler} (hc : s.jit.tables.compile L rip b.sequence = some r') :
    Even ((s.space L).compiled (wrapRip L rip) b ((s.jit.space L).compiled L b.sequence r')) := by
  have hcompiled := (Jit.of_compile hsound hc).1
  rw [← space_jit] at hcompiled ⊢
  exact (h.space hL).compiled hcompiled

theorem Even.step (hL : Emitted L) {e : TracedEvent} (h : Even s) (hsound : s.jit.Sound L)
    (hstep : s.Step L e t) : Even t := by
  obtain ⟨j, hj, rfl⟩ := hstep
  cases e with
  | compile rip b =>
    obtain ⟨r', hc, rfl⟩ := hj
    exact even_of_compile hL h hsound hc
  | dispatch rip b =>
    obtain ⟨host, r', hd, ⟨hhit, rfl⟩ | ⟨hmiss, rfl⟩⟩ := hj
    · obtain ⟨-, hcursor⟩ := (Jit.of_getCompiledBlock hd).1 hhit
      simp only [record, if_pos hhit]
      exact ⟨h.start, hcursor ▸ h.cursor, h.sites⟩
    · simp only [record, if_neg hmiss]
      exact even_of_compile hL h hsound ((Jit.of_getCompiledBlock hd).2 hmiss)
  | invalidateRange start stop =>
    obtain ⟨r', hr, rfl⟩ := hj
    obtain ⟨-, hcursor, -⟩ := of_invalidateRange hr
    exact ⟨h.start, hcursor ▸ h.cursor, h.sites⟩
  | thunk block link =>
    obtain ⟨-, -, r', hr, rfl⟩ := hj
    obtain ⟨hcursor, -⟩ := of_invalidateAt hr
    exact ⟨h.start, hcursor ▸ h.cursor, h.sites⟩
  | clearCodeCache =>
    obtain rfl := hj
    exact even_initial hL _

/-- What is known of the tables in every state of a run. -/
structure Reached (L : Layout) (s : Traced) : Prop where
  sound : s.jit.Sound L
  recorded : Recorded L s
  linked : Linked s
  even : Even s

theorem reached_of_run (hL : Emitted L) {code : ℕ → HostInsn} {events : List TracedEvent}
    (hrun : Run (Step L) (initial L code) events s) : Reached L s := by
  refine hrun.invariant ⟨Jit.sound_initial code, recorded_initial code, linked_initial code,
    even_initial hL code⟩ fun u e v h hstep ↦ ⟨?_, h.recorded.step h.sound hstep,
    h.linked.step h.sound h.recorded hstep, h.even.step hL h.sound hstep⟩
  obtain ⟨j, hj, rfl⟩ := hstep
  rw [jit_record]
  exact h.sound.step hj

end Traced

namespace Recompiler

/-- Everything that is written for a jump goes where it should and takes eight bytes. -/
structure LinksExact (L : Layout) (r : Recompiler) : Prop where
  backToDispatcher : ∀ site, Place L site → ∃ r', (r.setCursor site).backToDispatcher L = some r' ∧
    Wrote (r.setCursor site) r' L.compileNextHandler .t6 .x0
  jumpTo : ∀ site target, Place L site → Place L target →
    ∃ r', (r.setCursor site).jumpTo L target = some r' ∧
      Wrote (r.setCursor site) r' target .t4 .t5
  jumpAndLink : ∀ site rip, Place L site → ∃ r', (r.setCursor site).jumpAndLink L rip = some r' ∧
    WroteLink L (r.setCursor site) r' rip
  expirePendingLinks : ∀ rip, L.link → r.blockExists rip →
    ∃ r', r.expirePendingLinks L rip = some r' ∧ r'.cursor = r.cursor ∧
      (∀ x ∉ pairs {link | link ∈ (r.blockMetadata rip).pendingLinks}, r'.code x = r.code x) ∧
      ∀ link ∈ (r.blockMetadata rip).pendingLinks,
        Goes r'.code link (r.blockMetadata rip).address .t4 .t5
  invalidateBlock : ∀ rip, r.blockExists rip → ∃ r', r.invalidateBlock L rip = some r' ∧
    (∀ x ∉ pair (r.blockMetadata rip).address, r'.code x = r.code x) ∧
    Goes r'.code (r.blockMetadata rip).address L.invalidateCallerThunk .t4 .t6
  invalidateAt : ∀ addressOfBlock link key rip,
    lowerBound addressOfBlock r.hostPcMap = some (key, rip) → Place L link →
    L.startOfCodeCache ≤ link → link < r.cursor →
    ∃ r', r.invalidateAt L addressOfBlock (link + 8) = some r' ∧
      (∀ x ∉ pair link, r'.code x = r.code x) ∧
      (r.zeroes addressOfBlock = some rip → ¬r'.blockExists rip) ∧
      if L.link ∧ r'.blockExists rip then
        Goes r'.code link (r'.blockMetadata rip).address .t4 .t5
      else Goes r'.code link L.compileNextHandler .t6 .x0

/-- The tables when `invalidateAt` writes a link again. -/
def unlinked (L : Layout) (r : Recompiler) (addressOfBlock rip : ℕ) : Recompiler :=
  let r := if (r.blockMetadata rip).address ≤ addressOfBlock ∧
      addressOfBlock ≤ (r.blockMetadata rip).addressEnd then
    r.modifyBlock rip fun m ↦ { m with address := 0 } else r
  if L.addressCache then r.setCacheEntry rip ⟨0, 0⟩ else r

theorem unlinked_spec {L : Layout} {r : Recompiler} (haligned : Aligned L r)
    (addressOfBlock rip : ℕ) : (unlinked L r addressOfBlock rip).code = r.code ∧
      (unlinked L r addressOfBlock rip).cursor = r.cursor ∧
      Aligned L (unlinked L r addressOfBlock rip) ∧
      ((r.blockMetadata rip).address ≤ addressOfBlock ∧
        addressOfBlock ≤ (r.blockMetadata rip).addressEnd →
          ((unlinked L r addressOfBlock rip).blockMetadata rip).address = 0) := by
  have hzeroed : Aligned L (r.modifyBlock rip fun m ↦ { m with address := 0 }) := by
    intro rip' hexists
    by_cases hrip : rip' = rip
    · rw [hrip, blockExists, modifyBlock_self] at hexists
      exact absurd rfl hexists
    · rw [blockExists, modifyBlock_of_ne hrip] at hexists
      rw [modifyBlock_of_ne hrip]
      exact haligned rip' hexists
  by_cases hcond : (r.blockMetadata rip).address ≤ addressOfBlock ∧
      addressOfBlock ≤ (r.blockMetadata rip).addressEnd
  · have haddress :
        ((r.modifyBlock rip fun m ↦ { m with address := 0 }).blockMetadata rip).address =
        0 := by rw [modifyBlock_self]
    rw [unlinked, if_pos hcond]
    by_cases hcache : L.addressCache
    · rw [if_pos hcache]
      exact ⟨rfl, rfl, hzeroed, fun _ ↦ haddress⟩
    · rw [if_neg hcache]
      exact ⟨rfl, rfl, hzeroed, fun _ ↦ haddress⟩
  · rw [unlinked, if_neg hcond]
    by_cases hcache : L.addressCache
    · rw [if_pos hcache]
      exact ⟨rfl, rfl, haligned, fun h ↦ absurd h hcond⟩
    · rw [if_neg hcache]
      exact ⟨rfl, rfl, haligned, fun h ↦ absurd h hcond⟩

end Recompiler

namespace Traced

open Recompiler RipMachine

variable {L : Layout} {s : Traced}

theorem Reached.place {a : ℕ} (h : Reached L s) {c : Copy} (hc : c ∈ s.copies)
    (hstart : c.start ≤ a)
    (hstop : a + 8 ≤ c.stop) (heven : a % 2 = 0) : Place L a := by
  obtain ⟨h₁, -, h₃⟩ := h.recorded.bounds c hc
  have h₄ := h.sound.cursor_le
  have h₅ := L.codeCache_le_thunk
  have h₆ := L.thunk_lt_start
  exact ⟨by omega, by omega, heven⟩

theorem Reached.aligned (h : Reached L s) : Aligned L s.jit.tables := by
  intro rip hexists
  obtain ⟨c, hc, -, hstart⟩ := h.recorded.exists_copy hexists
  have hbounds := h.recorded.bounds c hc
  rw [← hstart]
  exact h.place hc le_rfl hbounds.2.1 (h.even.start c hc)

theorem Reached.place_pending (h : Reached L s) {rip link : ℕ}
    (hlink : link ∈ (s.jit.tables.blockMetadata rip).pendingLinks) : Place L link := by
  obtain ⟨c, hc, rip', hexit⟩ := h.even.sites link (h.linked.pending rip link hlink)
  have hbounds := RipMachine.bounds_of_mem_exits h.recorded hc hexit
  exact h.place hc hbounds.1 hbounds.2 (even_of_mem_exits hexit (h.even.start c hc))

theorem Reached.pending_apart (h : Reached L s) {rip link link' : ℕ}
    (hlink : link ∈ (s.jit.tables.blockMetadata rip).pendingLinks)
    (hlink' : link' ∈ (s.jit.tables.blockMetadata rip).pendingLinks) :
    link = link' ∨ link + 8 ≤ link' ∨ link' + 8 ≤ link := by
  obtain ⟨c, hc, kind, hexit⟩ := h.even.sites link (h.linked.pending rip link hlink)
  obtain ⟨c', hc', kind', hexit'⟩ := h.even.sites link' (h.linked.pending rip link' hlink')
  have hapart := exitsApart h.recorded _ ⟨c, hc, hexit⟩ _ ⟨c', hc', hexit'⟩
  obtain heq | hapart := hapart
  · exact .inl (Prod.mk.inj heq).1
  · exact .inr hapart

theorem Reached.expirePendingLinks (hL : Emitted L) (h : Reached L s) {rip : ℕ} (hlink : L.link)
    (hexists : s.jit.tables.blockExists rip) :
    ∃ r', s.jit.tables.expirePendingLinks L rip = some r' ∧ r'.cursor = s.jit.tables.cursor ∧
      (∀ x ∉ pairs {link | link ∈ (s.jit.tables.blockMetadata rip).pendingLinks},
        r'.code x = s.jit.tables.code x) ∧
      ∀ link ∈ (s.jit.tables.blockMetadata rip).pendingLinks,
        Goes r'.code link (s.jit.tables.blockMetadata rip).address .t4 .t5 := by
  obtain ⟨r', hloop, hcursor, hcode, hgoes⟩ := wrote_relinks hL hlink h.aligned hexists
    (fun link hmem ↦ h.place_pending hmem) fun l hl l' hl' ↦ h.pending_apart hl hl'
  refine ⟨r'.modifyBlock rip fun m ↦ { m with pendingLinks := [] }, ?_, hcursor, hcode, hgoes⟩
  rw [Recompiler.expirePendingLinks, if_neg (by simp [hlink, hexists]), hloop]
  rfl

/-- The block that the thunk finds is the one whose metadata it changes. -/
theorem Reached.guestAddress (h : Reached L s) {address key rip : ℕ}
    (hlower : lowerBound address s.jit.tables.hostPcMap = some (key, rip)) :
    (s.jit.tables.blockMetadata rip).guestAddress = rip := by
  have hmem := List.mem_of_find?_eq_some hlower
  rw [h.recorded.hostPcMap] at hmem
  obtain ⟨c, hc, heq⟩ := List.mem_map.mp hmem
  obtain ⟨pre, d, post, hcopies, hrip, hlast⟩ :=
    exists_last (p := fun d : Copy ↦ d.rip = rip) hc (Prod.mk.inj heq).2
  obtain ⟨-, hguest, -⟩ := h.recorded.last pre d post hcopies fun d' hd' ↦ by
    rw [hrip]
    exact hlast d' hd'
  rwa [hrip] at hguest

theorem Reached.invalidateAt (hL : Emitted L) (h : Reached L s) {addressOfBlock link key rip : ℕ}
    (hlower : lowerBound addressOfBlock s.jit.tables.hostPcMap = some (key, rip))
    (hplace : Place L link) (hstart : L.startOfCodeCache ≤ link)
    (hlink : link < s.jit.tables.cursor) :
    ∃ r', s.jit.tables.invalidateAt L addressOfBlock (link + 8) = some r' ∧
      (∀ x ∉ pair link, r'.code x = s.jit.tables.code x) ∧
      (s.jit.tables.zeroes addressOfBlock = some rip → ¬r'.blockExists rip) ∧
      if L.link ∧ r'.blockExists rip then
        Goes r'.code link (r'.blockMetadata rip).address .t4 .t5
      else Goes r'.code link L.compileNextHandler .t6 .x0 := by
  have hcache := L.codeCache_lt
  have hle := hplace.le
  have hsite : linkOf (link + 8) = link := Jit.linkOf_linkedBlock (by omega)
  obtain ⟨hcode₂, hcursor₂, haligned₂, hzero⟩ := unlinked_spec (L := L) h.aligned addressOfBlock rip
  have heq : s.jit.tables.invalidateAt L addressOfBlock (link + 8) =
      (unlinked L s.jit.tables addressOfBlock rip).relink L rip link := by
    have hguest := h.guestAddress hlower
    have hcond : L.startOfCodeCache ≤ link ∧
        link < (unlinked L s.jit.tables addressOfBlock rip).cursor := ⟨hstart, by omega⟩
    unfold unlinked at hcond ⊢
    rw [Recompiler.invalidateAt, hlower, Option.bind_eq_bind, Option.bind_some]
    dsimp only
    rw [hguest, if_neg (by omega), hsite, if_pos hcond]
  obtain ⟨r', hrelink, -, hcode, haddress, hgoes⟩ := wrote_relink hL haligned₂ hplace rip
  refine ⟨r', heq.trans hrelink, fun x hx ↦ ?_, fun hzeroes ↦ ?_, ?_⟩
  · rw [hcode x hx, hcode₂]
  · rw [blockExists, haddress]
    refine not_not.mpr (hzero ?_)
    by_contra hcond
    rw [zeroes, hlower, Option.bind_eq_bind, Option.bind_some] at hzeroes
    dsimp only at hzeroes
    rw [if_neg hcond] at hzeroes
    cases hzeroes
  · have hiff : r'.blockExists rip ↔
        (unlinked L s.jit.tables addressOfBlock rip).blockExists rip := by
      rw [blockExists, blockExists, haddress]
    simp only [hiff, haddress]
    exact hgoes

/-- In every state that the recompiler reaches, what it writes for jumps is exact. -/
theorem links_exact (hL : Emitted L) {code : ℕ → HostInsn} {events : List TracedEvent}
    (hrun : Run (Step L) (initial L code) events s) : LinksExact L s.jit.tables := by
  have h := reached_of_run hL hrun
  refine ⟨fun site hsite ↦ ?_, fun site target hsite htarget ↦ ?_, fun site rip hsite ↦ ?_,
    ?_, ?_, ?_⟩
  · exact wrote_backToDispatcher (r := s.jit.tables.setCursor site) hL hsite
  · exact wrote_jumpTo (r := s.jit.tables.setCursor site) hsite htarget
  · exact wrote_jumpAndLink (r := s.jit.tables.setCursor site) hL h.aligned hsite rip
  · exact fun rip hlink hexists ↦ h.expirePendingLinks hL hlink hexists
  · exact fun rip hexists ↦ wrote_invalidateBlock h.aligned hexists
  · exact fun a link key rip hlower hplace hstart hlt ↦ h.invalidateAt hL hlower hplace hstart hlt

/-- After one compilation. -/
theorem links_exact_compiledOnce : LinksExact Jit.sampleLayout compiledOnce.jit.tables :=
  links_exact emitted_sampleLayout (Run.single step_compiledOnce)

end Traced

end Felix86
