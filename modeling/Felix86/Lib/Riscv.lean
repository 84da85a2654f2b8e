import Mathlib.Data.BitVec
import Mathlib.Logic.Function.Basic

/-!
# RISC-V instructions as functions on 64-bit values

The instructions of RV64IM, of the bit manipulation extension and of `Zicond` that compute a
register from registers. Immediates are natural numbers where they are shift amounts. The functions
are total, as the instructions are: division by zero gives all ones, and the remainder is then the
dividend.

Memory is a function on addresses; loads and stores are little endian and need no alignment.
-/

namespace Felix86

/-- The value of a host register. -/
abbrev U64 := BitVec 64

namespace Riscv

/-! ## Registers -/

def zextb (a : U64) : U64 := (a.setWidth 8).setWidth 64
def zexth (a : U64) : U64 := (a.setWidth 16).setWidth 64
def zextw (a : U64) : U64 := (a.setWidth 32).setWidth 64

def sextb (a : U64) : U64 := (a.setWidth 8).signExtend 64
def sexth (a : U64) : U64 := (a.setWidth 16).signExtend 64

/-- `ADDIW` with a zero immediate. -/
def sextw (a : U64) : U64 := (a.setWidth 32).signExtend 64

def addw (a b : U64) : U64 := sextw (a + b)
def subw (a b : U64) : U64 := sextw (a - b)
def mulw (a b : U64) : U64 := sextw (a * b)

/-- The upper half of the signed product. -/
def mulh (a b : U64) : U64 := ((a.signExtend 128 * b.signExtend 128) >>> 64).setWidth 64

/-- The upper half of the unsigned product. -/
def mulhu (a b : U64) : U64 := ((a.setWidth 128 * b.setWidth 128) >>> 64).setWidth 64

def sll (a b : U64) : U64 := a <<< (b.toNat % 64)
def srl (a b : U64) : U64 := a >>> (b.toNat % 64)
def sra (a b : U64) : U64 := a.sshiftRight (b.toNat % 64)

def slliw (a : U64) (n : ℕ) : U64 := (a.setWidth 32 <<< n).signExtend 64
def srliw (a : U64) (n : ℕ) : U64 := (a.setWidth 32 >>> n).signExtend 64
def sraiw (a : U64) (n : ℕ) : U64 := ((a.setWidth 32).sshiftRight n).signExtend 64

def sllw (a b : U64) : U64 := slliw a (b.toNat % 32)
def srlw (a b : U64) : U64 := srliw a (b.toNat % 32)
def sraw (a b : U64) : U64 := sraiw a (b.toNat % 32)

def rori (a : U64) (n : ℕ) : U64 := a.rotateRight n
def roriw (a : U64) (n : ℕ) : U64 := ((a.setWidth 32).rotateRight n).signExtend 64

def sltu (a b : U64) : U64 := if a < b then 1 else 0
def seqz (a : U64) : U64 := if a = 0 then 1 else 0
def snez (a : U64) : U64 := if a = 0 then 0 else 1

def divu (a b : U64) : U64 := if b = 0 then BitVec.allOnes 64 else a / b
def remu (a b : U64) : U64 := if b = 0 then a else a % b
def div (a b : U64) : U64 := if b = 0 then BitVec.allOnes 64 else a.sdiv b
def rem (a b : U64) : U64 := if b = 0 then a else a.srem b

/-- A division of the lower halves, sign extended. -/
def half (f : BitVec 32 → BitVec 32 → BitVec 32) (zero : BitVec 32 → BitVec 32) (a b : U64) : U64 :=
  if b.setWidth 32 = 0 then (zero (a.setWidth 32)).signExtend 64
  else (f (a.setWidth 32) (b.setWidth 32)).signExtend 64

def divuw : U64 → U64 → U64 := half (· / ·) fun _ ↦ BitVec.allOnes 32
def remuw : U64 → U64 → U64 := half (· % ·) id
def divw : U64 → U64 → U64 := half BitVec.sdiv fun _ ↦ BitVec.allOnes 32
def remw : U64 → U64 → U64 := half BitVec.srem id

def ctz (a : U64) : U64 := a.ctz
def clz (a : U64) : U64 := a.clz
def clzw (a : U64) : U64 := (a.setWidth 32).clz.setWidth 64
def cpopw (a : U64) : U64 := (a.setWidth 32).cpop.setWidth 64

/-- The bytes in the other order. -/
def rev8 (a : U64) : U64 :=
  (List.range 8).foldl (fun r i ↦ r ||| (zextb (a >>> (8 * i)) <<< (56 - 8 * i))) 0

def czeroEqz (a b : U64) : U64 := if b = 0 then 0 else a
def czeroNez (a b : U64) : U64 := if b = 0 then a else 0

/-! ## Memory -/

/-- Bytes at addresses. -/
abbrev Mem := U64 → BitVec 8

/-- `n` bytes, zero extended: `LBU`, `LHU`, `LWU` and `LD`. -/
def Mem.load (m : Mem) (a : U64) : ℕ → U64
  | 0 => 0
  | n + 1 => (m a).setWidth 64 ||| (Mem.load m (a + 1) n <<< 8)

/-- The `n` lower bytes of `v`: `SB`, `SH`, `SW` and `SD`. -/
def Mem.store (m : Mem) (a v : U64) : ℕ → Mem
  | 0 => m
  | n + 1 => Mem.store (Function.update m a (v.setWidth 8)) (a + 1) (v >>> 8) n

/-! ## Values as natural numbers -/

theorem toNat_zextb (a : U64) : (zextb a).toNat = a.toNat % 2 ^ 8 := by
  simp only [zextb, BitVec.toNat_setWidth]
  omega

theorem toNat_zexth (a : U64) : (zexth a).toNat = a.toNat % 2 ^ 16 := by
  simp only [zexth, BitVec.toNat_setWidth]
  omega

theorem toNat_zextw (a : U64) : (zextw a).toNat = a.toNat % 2 ^ 32 := by
  simp only [zextw, BitVec.toNat_setWidth]
  omega

theorem toNat_pos {a : U64} (ha : a ≠ 0) : 0 < a.toNat := by
  rw [Nat.pos_iff_ne_zero, ne_eq, ← BitVec.toNat_zero (w := 64), BitVec.toNat_inj]
  exact ha

theorem toNat_and_mask (x : U64) {n : ℕ} (hn : n ≤ 64) :
    (x &&& BitVec.ofNat 64 (2 ^ n - 1)).toNat = x.toNat % 2 ^ n := by
  have hpow : 2 ^ n ≤ 2 ^ 64 := Nat.pow_le_pow_right (by decide) hn
  have hpos : 0 < 2 ^ n := Nat.two_pow_pos n
  have hmask : (BitVec.ofNat 64 (2 ^ n - 1)).toNat = 2 ^ n - 1 := by
    rw [BitVec.toNat_ofNat]
    omega
  rw [BitVec.toNat_and, hmask, Nat.and_two_pow_sub_one_eq_mod]

theorem toNat_and_not (x m : U64) : (x &&& ~~~m).toNat = x.toNat - (x &&& m).toNat := by
  have hzero : (x &&& ~~~m) &&& (x &&& m) = 0 := by
    ext j hj
    simp only [BitVec.getElem_and, BitVec.getElem_not, BitVec.ofNat_eq_ofNat, BitVec.getElem_zero]
    grind
  have hall : (x &&& ~~~m) + (x &&& m) = x := by
    rw [BitVec.add_eq_or_of_and_eq_zero _ _ hzero]
    ext j hj
    simp only [BitVec.getElem_or, BitVec.getElem_and, BitVec.getElem_not]
    grind
  have hsub : x &&& ~~~m = x - (x &&& m) := BitVec.eq_sub_iff_add_eq.mpr hall
  have hle : x &&& m ≤ x := by
    rw [BitVec.le_def, BitVec.toNat_and]
    exact Nat.and_le_left
  rw [hsub, BitVec.toNat_sub_of_le hle]

theorem toNat_and_ff (x : U64) : (x &&& 0xff).toNat = x.toNat % 2 ^ 8 :=
  toNat_and_mask x (show 8 ≤ 64 by decide)

theorem toNat_and_ff00 (x : U64) : (x &&& 0xff00).toNat = x.toNat % 2 ^ 16 - x.toNat % 2 ^ 8 := by
  have hmask : (0xff00 : U64) = BitVec.ofNat 64 (2 ^ 16 - 1) &&& ~~~(0xff : U64) := by decide
  rw [hmask, ← BitVec.and_assoc, toNat_and_not, toNat_and_mask x (show 16 ≤ 64 by decide),
    toNat_and_ff, toNat_and_mask x (show 16 ≤ 64 by decide)]
  omega

theorem toNat_and_ff0000 (x : U64) :
    (x &&& 0xff0000).toNat = x.toNat % 2 ^ 24 - x.toNat % 2 ^ 16 := by
  have hmask : (0xff0000 : U64) =
      BitVec.ofNat 64 (2 ^ 24 - 1) &&& ~~~(BitVec.ofNat 64 (2 ^ 16 - 1)) := by decide
  rw [hmask, ← BitVec.and_assoc, toNat_and_not, toNat_and_mask x (show 24 ≤ 64 by decide),
    toNat_and_mask _ (show 16 ≤ 64 by decide), toNat_and_mask x (show 24 ≤ 64 by decide)]
  omega

/-- Two parts of a word that do not overlap. -/
theorem toNat_or_disjoint (a b : U64) {n : ℕ} (hb : b.toNat < 2 ^ n) (ha : a.toNat % 2 ^ n = 0) :
    (a ||| b).toNat = a.toNat + b.toNat := by
  obtain ⟨d, hd⟩ := Nat.dvd_of_mod_eq_zero ha
  rw [BitVec.toNat_or, hd, ← Nat.two_pow_add_eq_or_of_lt hb]

theorem toNat_rori (x : U64) {n : ℕ} (hn : n < 64) :
    (rori x n).toNat = x.toNat % 2 ^ n * 2 ^ (64 - n) + x.toNat / 2 ^ n := by
  have hx := x.isLt
  have hpow : 2 ^ 64 = 2 ^ n * 2 ^ (64 - n) := by
    rw [← Nat.pow_add]
    congr 1
    omega
  have hlt : x.toNat / 2 ^ n < 2 ^ (64 - n) := by
    rw [Nat.div_lt_iff_lt_mul (Nat.two_pow_pos n), Nat.mul_comm, ← hpow]
    exact hx
  simp only [rori, BitVec.toNat_rotateRight, Nat.mod_eq_of_lt hn, Nat.shiftRight_eq_div_pow,
    Nat.shiftLeft_eq]
  rw [Nat.or_comm, hpow, Nat.mul_mod_mul_right, Nat.mul_comm _ (2 ^ (64 - n)),
    Nat.two_pow_add_eq_or_of_lt hlt]

/-- A rotation exchanges the two parts of a number. -/
theorem toNat_rori_parts {x : U64} {n a b : ℕ} (hn : n < 64) (hx : x.toNat = a * 2 ^ n + b)
    (hb : b < 2 ^ n) : (rori x n).toNat = b * 2 ^ (64 - n) + a := by
  rw [toNat_rori x hn, hx, Nat.mul_add_mod_of_lt hb, Nat.add_comm (a * 2 ^ n),
    Nat.add_mul_div_right _ _ (Nat.two_pow_pos n), Nat.div_eq_of_lt hb, Nat.zero_add]

theorem toNat_shl (x : U64) (n : ℕ) : (x <<< n).toNat = x.toNat * 2 ^ n % 2 ^ 64 := by
  rw [BitVec.toNat_shiftLeft, Nat.shiftLeft_eq]

theorem toNat_shr (x : U64) (n : ℕ) : (x >>> n).toNat = x.toNat / 2 ^ n := by
  rw [BitVec.toNat_ushiftRight, Nat.shiftRight_eq_div_pow]

theorem shl_shr_48 (x : U64) : (x <<< 48) >>> 48 = zexth x := by
  apply BitVec.eq_of_toNat_eq
  rw [toNat_shr, toNat_shl, toNat_zexth]
  omega

theorem shl_shr_32 (x : U64) : (x <<< 32) >>> 32 = zextw x := by
  apply BitVec.eq_of_toNat_eq
  rw [toNat_shr, toNat_shl, toNat_zextw]
  omega

theorem setWidth_signExtend {w v : ℕ} (x : BitVec w) (h : w ≤ v) :
    (x.signExtend v).setWidth w = x := by
  apply BitVec.eq_of_getLsbD_eq
  intro j hj
  have hlt : j < v := by omega
  simp only [BitVec.getLsbD_setWidth, BitVec.getLsbD_signExtend, hj, hlt, decide_true,
    Bool.true_and, if_true]

theorem toNat_signExtend_mod (x : BitVec 32) : (x.signExtend 64).toNat % 2 ^ 32 = x.toNat := by
  rw [← BitVec.toNat_setWidth, setWidth_signExtend x (by decide)]

theorem toNat_sextw_mod (a : U64) : (sextw a).toNat % 2 ^ 32 = a.toNat % 2 ^ 32 := by
  rw [sextw, toNat_signExtend_mod, BitVec.toNat_setWidth]

theorem toNat_slliw_mod (a : U64) (n : ℕ) :
    (slliw a n).toNat % 2 ^ 32 = a.toNat * 2 ^ n % 2 ^ 32 := by
  rw [slliw, toNat_signExtend_mod, BitVec.toNat_shiftLeft, Nat.shiftLeft_eq, BitVec.toNat_setWidth,
    Nat.mod_mul_mod]

theorem toNat_srliw_mod (a : U64) (n : ℕ) :
    (srliw a n).toNat % 2 ^ 32 = a.toNat % 2 ^ 32 / 2 ^ n := by
  rw [srliw, toNat_signExtend_mod, BitVec.toNat_ushiftRight, Nat.shiftRight_eq_div_pow,
    BitVec.toNat_setWidth]

theorem toNat_roriw_mod (a : U64) {n : ℕ} (hn : n < 32) :
    (roriw a n).toNat % 2 ^ 32 =
      (a.toNat % 2 ^ 32 / 2 ^ n) ||| (a.toNat % 2 ^ 32 * 2 ^ (32 - n) % 2 ^ 32) := by
  rw [roriw, toNat_signExtend_mod, BitVec.toNat_rotateRight, Nat.mod_eq_of_lt hn,
    Nat.shiftRight_eq_div_pow, Nat.shiftLeft_eq, BitVec.toNat_setWidth]

theorem toNat_srliw (a : U64) {n : ℕ} (hn : 0 < n) :
    (srliw a n).toNat = a.toNat % 2 ^ 32 / 2 ^ n := by
  have hmsb : (a.setWidth 32 >>> n).msb = false := by
    have hne : n ≠ 0 := Nat.pos_iff_ne_zero.mp hn
    rw [BitVec.msb_ushiftRight]
    simp [hne]
  have hlt : a.toNat % 2 ^ 32 / 2 ^ n < 2 ^ 64 :=
    (Nat.div_le_self _ _).trans_lt ((Nat.mod_lt _ (by decide)).trans (by decide))
  rw [srliw, BitVec.signExtend_eq_setWidth_of_msb_false hmsb, BitVec.toNat_setWidth,
    BitVec.toNat_ushiftRight, Nat.shiftRight_eq_div_pow, BitVec.toNat_setWidth,
      Nat.mod_eq_of_lt hlt]

/-- A shift up and an arithmetic shift down extend the sign of the lower part. -/
theorem shl_sshiftRight {w n : ℕ} (v : U64) (h : n + w = 64) (hw : 0 < w) :
    (v <<< n).sshiftRight n = (v.setWidth w).signExtend 64 := by
  have hmsb : (v <<< n).msb = (v.setWidth w).msb := by
    have hlt : ¬64 - 1 < n := by omega
    have hsub : 64 - 1 - n = w - 1 := by omega
    have hlast : w - 1 < w := by omega
    rw [BitVec.msb_eq_getLsbD_last, BitVec.msb_eq_getLsbD_last, BitVec.getLsbD_shiftLeft,
      BitVec.getLsbD_setWidth, hsub]
    simp [hlt, hlast]
  apply BitVec.eq_of_getLsbD_eq
  intro j hj
  have hle : ¬64 ≤ j := by omega
  have hshift : ¬n + j < n := by omega
  rw [BitVec.getLsbD_sshiftRight, BitVec.getLsbD_signExtend, hmsb, BitVec.getLsbD_shiftLeft,
    BitVec.getLsbD_setWidth]
  by_cases hjw : j < w
  · have hlt : n + j < 64 := by omega
    simp [hjw, hlt, hj, hle, hshift]
  · have hlt : ¬n + j < 64 := by omega
    simp [hjw, hlt, hj]

/-! ## Single bits -/

theorem srl_and_one_eq_zero (src r : U64) :
    srl src r &&& 1 = 0 ↔ src.getLsbD (r.toNat % 64) = false := by
  change srl src r &&& 1#64 = 0 ↔ _
  rw [BitVec.and_one_eq_setWidth_ofBool_getLsbD, srl, BitVec.getLsbD_ushiftRight, Nat.add_zero]
  cases src.getLsbD (r.toNat % 64) <;> decide

/-- The zeros above the highest bit of a number. -/
theorem toNat_clz_of_bounds {w t : ℕ} {x : BitVec w} (ht : t < w) (hlow : 2 ^ t ≤ x.toNat)
    (hhigh : x.toNat < 2 ^ (t + 1)) : x.clz.toNat = w - 1 - t := by
  have hne : x ≠ 0#w := by
    rintro rfl
    exact absurd hlow (by simp)
  have h1 : 2 ^ (w - 1 - x.clz.toNat) < 2 ^ (t + 1) :=
    (BitVec.two_pow_sub_clz_le_toNat_of_ne_zero (by omega) hne).trans_lt hhigh
  have h2 : 2 ^ t < 2 ^ (w - x.clz.toNat) := hlow.trans_lt BitVec.toNat_lt_two_pow_sub_clz
  have h3 : w - 1 - x.clz.toNat < t + 1 := (Nat.pow_lt_pow_iff_right (by decide)).mp h1
  have h4 : t < w - x.clz.toNat := (Nat.pow_lt_pow_iff_right (by decide)).mp h2
  omega

end Riscv

end Felix86
