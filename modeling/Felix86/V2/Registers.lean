import Felix86.Lib.Memory
import Felix86.V2.Recompiler

/-!
# Parts of registers

What `setGPR` leaves in a register, as a number, with and without the bit manipulation extension.
Only the lower bits of the value count, in a register as in memory, and a 32-bit write clears the
upper half.
-/

namespace Felix86

namespace Jit

open Riscv

/-- Equal as far as an operand of this size shows. -/
def LowEq (size : Size) (v w : U64) : Prop := v.toNat % 2 ^ size.bits = w.toNat % 2 ^ size.bits

theorem LowEq.eq {v w : U64} (h : LowEq .qword v w) : v = w := by
  apply BitVec.eq_of_toNat_eq
  rwa [LowEq, Size.bits, Nat.mod_eq_of_lt v.isLt, Nat.mod_eq_of_lt w.isLt] at h

theorem Size.bits_eq (size : Size) : size.bits = 8 * size.bytes := by cases size <;> rfl

theorem Size.bits_le (size : Size) : size.bits ≤ 64 := by cases size <;> decide

theorem Size.le_bits (size : Size) : 8 ≤ size.bits := by cases size <;> decide

theorem Size.bytes_le (size : Size) : size.bytes ≤ 8 := by cases size <;> decide

theorem LowEq.getLsbD {size : Size} {v w : U64} (h : LowEq size v w) {j : ℕ} (hj : j < size.bits) :
    v.getLsbD j = w.getLsbD j := by
  have hbit := congrArg (fun n ↦ n.testBit j) h
  simpa only [Nat.testBit_mod_two_pow, hj, decide_true, Bool.true_and,
    BitVec.testBit_toNat] using hbit

theorem lowEq_of_getLsbD {size : Size} {v w : U64} (h : ∀ j < size.bits, v.getLsbD j =
    w.getLsbD j) :
    LowEq size v w := by
  apply Nat.eq_of_testBit_eq
  intro j
  rw [Nat.testBit_mod_two_pow, Nat.testBit_mod_two_pow, BitVec.testBit_toNat, BitVec.testBit_toNat]
  by_cases hj : j < size.bits
  · rw [h j hj]
  · simp [hj]

theorem LowEq.add {size : Size} {a a' b b' : U64} (ha : LowEq size a a') (hb : LowEq size b b') :
    LowEq size (a + b) (a' + b') := by
  have hdvd : 2 ^ size.bits ∣ 2 ^ 64 := pow_dvd_pow 2 size.bits_le
  rw [LowEq, BitVec.toNat_add, BitVec.toNat_add, Nat.mod_mod_of_dvd _ hdvd,
    Nat.mod_mod_of_dvd _ hdvd]
  exact Nat.ModEq.add ha hb

theorem LowEq.and {size : Size} {a a' b b' : U64} (ha : LowEq size a a') (hb : LowEq size b b') :
    LowEq size (a &&& b) (a' &&& b') :=
  lowEq_of_getLsbD fun j hj ↦ by
    rw [BitVec.getLsbD_and, BitVec.getLsbD_and, ha.getLsbD hj, hb.getLsbD hj]

theorem LowEq.or {size : Size} {a a' b b' : U64} (ha : LowEq size a a') (hb : LowEq size b b') :
    LowEq size (a ||| b) (a' ||| b') :=
  lowEq_of_getLsbD fun j hj ↦ by
    rw [BitVec.getLsbD_or, BitVec.getLsbD_or, ha.getLsbD hj, hb.getLsbD hj]

theorem LowEq.xor {size : Size} {a a' b b' : U64} (ha : LowEq size a a') (hb : LowEq size b b') :
    LowEq size (a ^^^ b) (a' ^^^ b') :=
  lowEq_of_getLsbD fun j hj ↦ by
    rw [BitVec.getLsbD_xor, BitVec.getLsbD_xor, ha.getLsbD hj, hb.getLsbD hj]

theorem LowEq.not {size : Size} {a a' : U64} (ha : LowEq size a a') : LowEq size (~~~a) (~~~a') :=
  lowEq_of_getLsbD fun j hj ↦ by rw [BitVec.getLsbD_not, BitVec.getLsbD_not, ha.getLsbD hj]

theorem LowEq.mod {size : Size} {a a' : U64} (ha : LowEq size a a') {n : ℕ} (hn : n ≤ size.bits) :
    a.toNat % 2 ^ n = a'.toNat % 2 ^ n := by
  have hdvd : 2 ^ n ∣ 2 ^ size.bits := pow_dvd_pow 2 hn
  rw [← Nat.mod_mod_of_dvd _ hdvd, ha, Nat.mod_mod_of_dvd _ hdvd]

theorem LowEq.neg {size : Size} {a a' : U64} (ha : LowEq size a a') : LowEq size (-a) (-a') := by
  rw [BitVec.neg_eq_not_add, BitVec.neg_eq_not_add]
  exact ha.not.add rfl

theorem LowEq.sub {size : Size} {a a' b b' : U64} (ha : LowEq size a a') (hb : LowEq size b b') :
    LowEq size (a - b) (a' - b') := by
  rw [BitVec.sub_eq_add_neg, BitVec.sub_eq_add_neg]
  exact ha.add hb.neg

namespace Config

variable {ρ : Type*} (k : Config) (i : Insn)

/-! ## Writes -/

theorem toNat_merge_byte (old v : U64) :
    (k.merge .byte old v).toNat = old.toNat / 2 ^ 8 * 2 ^ 8 + v.toNat % 2 ^ 8 := by
  have hhigh : (old &&& ~~~(0xff : U64)).toNat = old.toNat / 2 ^ 8 * 2 ^ 8 := by
    rw [toNat_and_not, toNat_and_ff]
    omega
  have hlow : (v &&& 0xff).toNat = v.toNat % 2 ^ 8 := toNat_and_ff v
  simp only [Config.merge]
  rw [toNat_or_disjoint (n := 8) _ _ (by omega) (by omega), hhigh, hlow]

theorem toNat_merge_byteHigh (old v : U64) :
    (k.merge .byteHigh old v).toNat =
      old.toNat / 2 ^ 16 * 2 ^ 16 + v.toNat % 2 ^ 8 * 2 ^ 8 + old.toNat % 2 ^ 8 := by
  have hold := old.isLt
  have hlow : (v &&& 0xff).toNat = v.toNat % 2 ^ 8 := toNat_and_ff v
  simp only [Config.merge]
  split
  · have hrot : (rori old 8).toNat = old.toNat % 2 ^ 8 * 2 ^ 56 + old.toNat / 2 ^ 8 :=
      toNat_rori old (by decide)
    -- the byte to write is the lowest one here
    have hhigh : (rori old 8 &&& ~~~(0xff : U64)).toNat =
        old.toNat % 2 ^ 8 * 2 ^ 56 + old.toNat / 2 ^ 16 * 2 ^ 8 := by
      rw [toNat_and_not, toNat_and_ff, hrot]
      omega
    rw [toNat_rori _ (show 56 < 64 by decide), toNat_or_disjoint (n := 8) _ _ (by omega) (by omega),
      hhigh, hlow]
    omega
  · have hmid : ((v <<< 8) &&& 0xff00).toNat = v.toNat % 2 ^ 8 * 2 ^ 8 := by
      rw [toNat_and_ff00, toNat_shl]
      omega
    have hrest : (old &&& ~~~(0xff00 : U64)).toNat =
        old.toNat / 2 ^ 16 * 2 ^ 16 + old.toNat % 2 ^ 8 := by
      rw [toNat_and_not, toNat_and_ff00]
      omega
    have hzero : (old &&& ~~~(0xff00 : U64)) &&& ((v <<< 8) &&& 0xff00) = 0 := by
      ext j hj
      simp only [BitVec.getElem_and, BitVec.getElem_not, BitVec.ofNat_eq_ofNat, BitVec.getElem_zero]
      grind
    rw [← BitVec.add_eq_or_of_and_eq_zero _ _ hzero, BitVec.toNat_add, hmid, hrest]
    omega

theorem toNat_merge_word (old v : U64) :
    (k.merge .word old v).toNat = old.toNat / 2 ^ 16 * 2 ^ 16 + v.toNat % 2 ^ 16 := by
  have hold := old.isLt
  have hhigh : ((old >>> 16) <<< 16).toNat = old.toNat / 2 ^ 16 * 2 ^ 16 := by
    rw [toNat_shl, toNat_shr]
    omega
  have hlow : (zexth v).toNat = v.toNat % 2 ^ 16 := toNat_zexth v
  simp only [Config.merge, shl_shr_48, ite_self]
  rw [toNat_or_disjoint (n := 16) _ _ (by omega) (by omega), hhigh, hlow]

theorem toNat_merge_dword (old v : U64) : (k.merge .dword old v).toNat = v.toNat % 2 ^ 32 := by
  simp only [Config.merge, shl_shr_32, ite_self, toNat_zextw]

theorem merge_congr {size : Size} {v w : U64} (h : LowEq size v w) (old : U64) :
    k.merge size old v = k.merge size old w := by
  apply BitVec.eq_of_toNat_eq
  cases size <;> simp only [LowEq, Size.bits] at h
  case byte => rw [toNat_merge_byte, toNat_merge_byte, h]
  case byteHigh => rw [toNat_merge_byteHigh, toNat_merge_byteHigh, h]
  case word => rw [toNat_merge_word, toNat_merge_word, h]
  case dword => rw [toNat_merge_dword, toNat_merge_dword, h]
  case qword =>
    rwa [Nat.mod_eq_of_lt v.isLt, Nat.mod_eq_of_lt w.isLt] at h

theorem setRef_congr {size : Size} {v w : U64} (h : LowEq size v w) (r : Ref) (c : Core ρ) :
    k.setRef r size v c = k.setRef r size w c := by
  rw [setRef, setRef, merge_congr k h]

theorem set_congr {op : Operand} {v w : U64} (h : LowEq op.size v w) (c : Core ρ) :
    k.set i op v c = k.set i op w c := by
  cases op with
  | reg r size => exact setRef_congr k h r c
  | mem m size =>
    have hstore : v.toNat % 2 ^ (8 * size.bytes) = w.toNat % 2 ^ (8 * size.bytes) := by
      rw [← Size.bits_eq]
      exact h
    simp only [set, writeMemory, Mem.store_congr _ _ hstore]
  | imm v size => rfl
  | seg s => rfl

/-! ## Reads -/

theorem toNat_zext (size : Size) (v : U64) : (k.zext size v).toNat = v.toNat % 2 ^ size.bits := by
  cases size with
  | byte => exact toNat_and_ff v
  | byteHigh => exact toNat_and_ff v
  | word => simp only [zext, shl_shr_48, ite_self, toNat_zexth, Size.bits]
  | dword => simp only [zext, shl_shr_32, ite_self, toNat_zextw, Size.bits]
  | qword => simp only [zext, Size.bits, Nat.mod_eq_of_lt v.isLt]

/-- A zero extended value is as good as the value. -/
theorem lowEq_zext (size : Size) (v : U64) : LowEq size (k.zext size v) v := by
  rw [LowEq, toNat_zext, Nat.mod_mod]

end Config

/-! ## 32-bit mode -/

/-- The upper half is zero. -/
def Low32 (v : U64) : Prop := v >>> 32 = 0

instance (v : U64) : Decidable (Low32 v) := inferInstanceAs (Decidable (_ = _))

theorem low32_iff {v : U64} : Low32 v ↔ v.toNat < 2 ^ 32 := by
  have hv := v.isLt
  rw [Low32, ← BitVec.toNat_inj, toNat_shr]
  constructor
  · intro h
    have hzero : v.toNat / 2 ^ 32 = 0 := h
    omega
  · intro h
    exact Nat.div_eq_of_lt h

/-- All guest registers have a zero upper half. -/
def Zext {ρ : Type*} (c : Core ρ) : Prop := ∀ r, Low32 (c.gpr r)

namespace Config

variable {ρ : Type*} (k : Config) (i : Insn)

theorem getRef_lt {c : Core ρ} {r : Ref} {size : Size}
    (hz : size = .dword → k.mode32 → Low32 (c.gpr r)) :
    (k.getRef r size c).toNat < 2 ^ size.bits := by
  have hzext (size : Size) (v : U64) : (k.zext size v).toNat < 2 ^ size.bits := by
    rw [toNat_zext]
    exact Nat.mod_lt _ (Nat.two_pow_pos _)
  cases size with
  | byte => exact hzext .byte _
  | byteHigh => exact hzext .byte _
  | word => exact hzext .word _
  | dword =>
    simp only [getRef]
    split
    · next hmode => exact low32_iff.mp (hz rfl hmode)
    · exact hzext .dword _
  | qword => exact (c.gpr r).isLt

/-- A register or memory operand is read as a number of its size. -/
theorem get_lt {c : Core ρ} {op : Operand}
    (hz : ∀ r, op = .reg r .dword → k.mode32 → Low32 (c.gpr r)) (hop : op.isReg || op.isMem) :
    (k.get i op c).toNat < 2 ^ op.size.bits := by
  cases op with
  | reg r size =>
    refine k.getRef_lt fun hsize ↦ hz r ?_
    rw [hsize]
  | mem m size =>
    have hlt := Mem.load_lt c.mem (k.address i m c) size.bytes_le
    rwa [← Size.bits_eq] at hlt
  | imm v size => cases hop
  | seg s => exact Nat.two_pow_pos _

/-- Writing an operand back changes nothing, except that it clears the upper half of a 32-bit
register. -/
theorem set_get_self {op : Operand} {c : Core ρ} (hbits : op.size.bits ≥ 32)
    (hop : ∀ r, op = .reg r .dword → Low32 (c.gpr r)) : k.set i op (k.get i op c) c = c := by
  cases op with
  | reg r size =>
    have hsame (h : k.merge size (c.gpr r) (k.getRef r size c) = c.gpr r) :
        k.setRef r size (k.getRef r size c) c = c := by
      simp only [Config.setRef, h, Core.write, Function.update_eq_self]
    refine hsame ?_
    cases size with
    | dword =>
      have hlow := low32_iff.mp (hop r rfl)
      apply BitVec.eq_of_toNat_eq
      rw [toNat_merge_dword, Config.getRef]
      split
      · exact Nat.mod_eq_of_lt hlow
      · rw [toNat_zext, Size.bits, Nat.mod_mod, Nat.mod_eq_of_lt hlow]
    | qword => rfl
    | _ => simp [Operand.size, Size.bits] at hbits
  | mem m size =>
    simp only [Config.set, Config.get, Config.writeMemory, Mem.store_load c.mem _ size.bytes_le]
  | imm v size => rfl
  | seg seg => rfl

end Config

end Jit

end Felix86
