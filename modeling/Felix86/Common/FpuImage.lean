import Felix86.Common.FpuState
import Mathlib.Tactic.IntervalCases

/-!
# Images of the floating-point state

`felix86_fsave` and `felix86_fxsave` write the eight registers in the 80-bit format, and `f64_to_80`
takes a double. `ThreadState::fp` is an array of integers, so a register that holds an x87 value is
converted to a double as if it were a number before its bits are taken apart. The image of an MMX
state is marked in bit 15 of its control word and read back without a conversion. That bit stays in
`fpu_cw` after a restore, so a later x87 image carries the mark as well.

This file says which states survive: what a register becomes on each of the three ways through an
image, and the exact condition under which every further round trip is without loss.
-/

namespace Felix86

/-! ## Integers as doubles -/

/-- The significand of `doubleOfU64`, with the hidden bit. -/
def significandOf (rm : RMode) (n : ℕ) : ℕ :=
  let k := n.log2
  if k ≤ 52 then n <<< (52 - k)
  else
    let quotient := n >>> (k - 52)
    if roundsUp rm quotient (n % 2 ^ (k - 52)) (2 ^ (k - 53)) then quotient + 1 else quotient

theorem significandOf_of_le {rm : RMode} {n : ℕ} (hk : n.log2 ≤ 52) :
    significandOf rm n = n * 2 ^ (52 - n.log2) := by
  rw [significandOf, if_pos hk, Nat.shiftLeft_eq]

theorem significandOf_of_lt {rm : RMode} {n : ℕ} (hk : 52 < n.log2) :
    significandOf rm n =
      if roundsUp rm (n / 2 ^ (n.log2 - 52)) (n % 2 ^ (n.log2 - 52)) (2 ^ (n.log2 - 53)) then
        n / 2 ^ (n.log2 - 52) + 1
      else n / 2 ^ (n.log2 - 52) := by
  rw [significandOf, if_neg (by omega)]
  simp only [Nat.shiftRight_eq_div_pow]

/-- A significand has its leading bit, or is the next power of two after a carry. -/
theorem significandOf_bounds (rm : RMode) {n : ℕ} (hn : n ≠ 0) :
    2 ^ 52 ≤ significandOf rm n ∧ significandOf rm n ≤ 2 ^ 53 := by
  have hlow : 2 ^ n.log2 ≤ n := Nat.log2_self_le hn
  have hhigh : n < 2 ^ (n.log2 + 1) := Nat.lt_log2_self
  by_cases hk : n.log2 ≤ 52
  · rw [significandOf_of_le hk]
    have hpow : 2 ^ n.log2 * 2 ^ (52 - n.log2) = 2 ^ 52 := by
      rw [← pow_add, Nat.add_sub_cancel' hk]
    constructor
    · rw [← hpow]
      exact Nat.mul_le_mul_right _ hlow
    · calc n * 2 ^ (52 - n.log2) ≤ 2 ^ (n.log2 + 1) * 2 ^ (52 - n.log2) :=
            Nat.mul_le_mul_right _ hhigh.le
        _ = 2 ^ 53 := by rw [pow_succ, mul_right_comm, hpow, ← pow_succ]
  · have hk' : 52 < n.log2 := not_le.mp hk
    have hpos : 0 < 2 ^ (n.log2 - 52) := by positivity
    have hquot : 2 ^ 52 ≤ n / 2 ^ (n.log2 - 52) := by
      rw [Nat.le_div_iff_mul_le hpos, ← pow_add, Nat.add_sub_cancel' hk'.le]
      exact hlow
    have hquot' : n / 2 ^ (n.log2 - 52) < 2 ^ 53 := by
      rw [Nat.div_lt_iff_lt_mul hpos, ← pow_add]
      have hexp : 53 + (n.log2 - 52) = n.log2 + 1 := by omega
      rwa [hexp]
    rw [significandOf_of_lt hk']
    split_ifs <;> omega

theorem doubleOfU64_zero (rm : RMode) : doubleOfU64 rm 0 = 0 := rfl

theorem toNat_doubleOfU64 (rm : RMode) {v : BitVec 64} (hv : v ≠ 0) :
    (doubleOfU64 rm v).toNat =
      (1023 + v.toNat.log2) * 2 ^ 52 + (significandOf rm v.toNat - 2 ^ 52) := by
  have hn : v.toNat ≠ 0 := fun h ↦ hv (BitVec.eq_of_toNat_eq h)
  have hk : v.toNat.log2 < 64 := (Nat.log2_lt hn).mpr v.isLt
  have hs := (significandOf_bounds rm hn).2
  have heq : doubleOfU64 rm v = BitVec.ofNat 64
      ((1023 + v.toNat.log2) <<< 52 + (significandOf rm v.toNat - 2 ^ 52)) := by
    rw [doubleOfU64, if_neg hv]
    rfl
  rw [heq, BitVec.toNat_ofNat, Nat.shiftLeft_eq]
  apply Nat.mod_eq_of_lt
  omega

/-! ## Through the 80-bit format -/

section Normal

variable {x : BitVec 64} {e f : ℕ}

theorem f64To80_of_normal (hx : x.toNat = e * 2 ^ 52 + f) (hf : f < 2 ^ 52) (hpos : 0 < e)
    (he : e < 2047) :
    f64To80 x = ⟨BitVec.ofNat 64 ((2 ^ 52 + f) * 2 ^ 11), BitVec.ofNat 16 (e + 15360)⟩ := by
  have hsign : (x >>> 63).setWidth 16 = 0#16 := by
    apply BitVec.eq_of_toNat_eq
    rw [BitVec.toNat_setWidth, BitVec.toNat_ushiftRight, Nat.shiftRight_eq_div_pow, hx]
    simp only [BitVec.toNat_ofNat]
    omega
  have hexp : ((x >>> 52) &&& 0x7FF#64).setWidth 16 = BitVec.ofNat 16 e := by
    apply BitVec.eq_of_toNat_eq
    have hmask : (0x7FF#64).toNat = 2 ^ 11 - 1 := rfl
    rw [BitVec.toNat_setWidth, BitVec.toNat_and, hmask, Nat.and_two_pow_sub_one_eq_mod,
      BitVec.toNat_ushiftRight, Nat.shiftRight_eq_div_pow, hx, BitVec.toNat_ofNat]
    omega
  have hsig : x &&& 0xFFFFFFFFFFFFF#64 = BitVec.ofNat 64 f := by
    apply BitVec.eq_of_toNat_eq
    have hmask : (0xFFFFFFFFFFFFF#64).toNat = 2 ^ 52 - 1 := rfl
    rw [BitVec.toNat_and, hmask, Nat.and_two_pow_sub_one_eq_mod, hx, BitVec.toNat_ofNat]
    omega
  have hzero : BitVec.ofNat 16 e ≠ 0 := fun h ↦ by
    have := congrArg BitVec.toNat h
    simp only [BitVec.ofNat_eq_ofNat, BitVec.toNat_ofNat] at this
    omega
  have hmax : BitVec.ofNat 16 e ≠ 0x7FF#16 := fun h ↦ by
    have := congrArg BitVec.toNat h
    simp only [BitVec.toNat_ofNat] at this
    omega
  simp only [f64To80, hsign, hexp, hsig, if_neg hzero, if_neg hmax, Float80.mk.injEq]
  constructor
  · -- the hidden bit lies above the fraction
    apply BitVec.eq_of_toNat_eq
    have hor : f ||| 2 ^ 52 = 2 ^ 52 + f := by
      have hadd := Nat.two_pow_add_eq_or_of_lt hf 1
      rw [Nat.or_comm, ← mul_one (2 ^ 52), hadd]
    simp only [BitVec.toNat_shiftLeft, BitVec.toNat_or, BitVec.toNat_ofNat, Nat.shiftLeft_eq]
    rw [Nat.mod_eq_of_lt (by omega : f < 2 ^ 64)]
    norm_num at hor ⊢
    rw [hor]
  · apply BitVec.eq_of_toNat_eq
    have hmask : (0x7FFF#16).toNat = 2 ^ 15 - 1 := rfl
    rw [BitVec.zero_shiftLeft, BitVec.zero_or, BitVec.toNat_and, hmask,
      Nat.and_two_pow_sub_one_eq_mod]
    simp only [BitVec.toNat_add, BitVec.toNat_sub, BitVec.toNat_ofNat]
    omega

/-- The way back. -/
theorem f80To64_of_normal (hf : f < 2 ^ 52) (hpos : 0 < e) (he : e < 2047) :
    f80To64 ⟨BitVec.ofNat 64 ((2 ^ 52 + f) * 2 ^ 11), BitVec.ofNat 16 (e + 15360)⟩ =
      BitVec.ofNat 64 (e * 2 ^ 52 + f) := by
  have hsign : ((BitVec.ofNat 16 (e + 15360)) >>> 15).setWidth 64 = 0#64 := by
    apply BitVec.eq_of_toNat_eq
    rw [BitVec.toNat_setWidth, BitVec.toNat_ushiftRight, Nat.shiftRight_eq_div_pow]
    simp only [BitVec.toNat_ofNat]
    omega
  have hexp : BitVec.ofNat 16 (e + 15360) &&& 0x7FFF#16 = BitVec.ofNat 16 (e + 15360) := by
    apply BitVec.eq_of_toNat_eq
    have hmask : (0x7FFF#16).toNat = 2 ^ 15 - 1 := rfl
    rw [BitVec.toNat_and, hmask, Nat.and_two_pow_sub_one_eq_mod, BitVec.toNat_ofNat]
    omega
  have hzero : BitVec.ofNat 16 (e + 15360) ≠ 0 := fun h ↦ by
    have := congrArg BitVec.toNat h
    simp only [BitVec.ofNat_eq_ofNat, BitVec.toNat_ofNat] at this
    omega
  have hmax : BitVec.ofNat 16 (e + 15360) ≠ 0x7FFF#16 := fun h ↦ by
    have := congrArg BitVec.toNat h
    simp only [BitVec.toNat_ofNat] at this
    omega
  have hback : (BitVec.ofNat 16 (e + 15360) - 16383#16 + 1023#16).signExtend 64 =
      BitVec.ofNat 64 e := by
    have hlow : BitVec.ofNat 16 (e + 15360) - 16383#16 + 1023#16 = BitVec.ofNat 16 e := by
      apply BitVec.eq_of_toNat_eq
      simp only [BitVec.toNat_add, BitVec.toNat_sub, BitVec.toNat_ofNat]
      omega
    have hmsb : (BitVec.ofNat 16 e).msb = false := by
      rw [BitVec.msb_eq_false_iff_two_mul_lt, BitVec.toNat_ofNat]
      omega
    rw [hlow, BitVec.signExtend_eq_setWidth_of_msb_false hmsb]
    apply BitVec.eq_of_toNat_eq
    rw [BitVec.toNat_setWidth, BitVec.toNat_ofNat, BitVec.toNat_ofNat]
    omega
  have hfrac : BitVec.ofNat 64 ((2 ^ 52 + f) * 2 ^ 11) >>> 11 &&& 0xFFFFFFFFFFFFF#64 =
      BitVec.ofNat 64 f := by
    apply BitVec.eq_of_toNat_eq
    have hmask : (0xFFFFFFFFFFFFF#64).toNat = 2 ^ 52 - 1 := rfl
    rw [BitVec.toNat_and, hmask, Nat.and_two_pow_sub_one_eq_mod, BitVec.toNat_ushiftRight,
      Nat.shiftRight_eq_div_pow, BitVec.toNat_ofNat, BitVec.toNat_ofNat]
    omega
  simp only [f80To64, hsign, hexp, if_neg hzero, if_neg hmax, hback, hfrac]
  apply BitVec.eq_of_toNat_eq
  have hor : e * 2 ^ 52 ||| f = e * 2 ^ 52 + f := by
    rw [mul_comm, ← Nat.two_pow_add_eq_or_of_lt hf]
  simp only [BitVec.zero_shiftLeft, BitVec.zero_or, BitVec.toNat_or, BitVec.toNat_shiftLeft,
    BitVec.toNat_ofNat, Nat.shiftLeft_eq]
  rw [Nat.mod_eq_of_lt (by omega : e < 2 ^ 64), Nat.mod_eq_of_lt (by omega : f < 2 ^ 64),
    Nat.mod_eq_of_lt (by omega : e * 2 ^ 52 < 2 ^ 64), hor]
  omega

end Normal

/-- The fields of a converted integer. A carry out of the significand goes to the exponent. -/
theorem exists_fields (rm : RMode) {v : BitVec 64} (hv : v ≠ 0) :
    ∃ e f, (doubleOfU64 rm v).toNat = e * 2 ^ 52 + f ∧ f < 2 ^ 52 ∧ 1023 ≤ e ∧ e ≤ 1087 ∧
      2 ^ 52 + f =
        if significandOf rm v.toNat = 2 ^ 53 then 2 ^ 52 else significandOf rm v.toNat := by
  have hn : v.toNat ≠ 0 := fun h ↦ hv (BitVec.eq_of_toNat_eq h)
  have hk : v.toNat.log2 < 64 := (Nat.log2_lt hn).mpr v.isLt
  obtain ⟨hlow, hhigh⟩ := significandOf_bounds rm hn
  have heq := toNat_doubleOfU64 rm hv
  by_cases hcarry : significandOf rm v.toNat = 2 ^ 53
  · refine ⟨1024 + v.toNat.log2, 0, ?_, by norm_num, by omega, by omega, ?_⟩
    · rw [heq, hcarry]
      omega
    · rw [if_pos hcarry, add_zero]
  · refine ⟨1023 + v.toNat.log2, significandOf rm v.toNat - 2 ^ 52, heq, by omega, by omega,
      by omega, ?_⟩
    rw [if_neg hcarry]
    omega

/-- A converted integer survives the 80-bit format. -/
theorem f80To64_f64To80_doubleOfU64 (rm : RMode) (v : BitVec 64) :
    f80To64 (f64To80 (doubleOfU64 rm v)) = doubleOfU64 rm v := by
  by_cases hv : v = 0
  · rw [hv, doubleOfU64_zero]
    decide
  · obtain ⟨e, f, heq, hf, hlow, hhigh, -⟩ := exists_fields rm hv
    rw [f64To80_of_normal heq hf (by omega) (by omega), f80To64_of_normal hf (by omega) (by omega),
      ← heq, BitVec.ofNat_toNat, BitVec.setWidth_eq]

/-- What is left of it when only the significand is read. -/
theorem toNat_significand (rm : RMode) {v : BitVec 64} (hv : v ≠ 0) :
    (f64To80 (doubleOfU64 rm v)).significand.toNat =
      (if significandOf rm v.toNat = 2 ^ 53 then 2 ^ 52 else significandOf rm v.toNat) *
        2 ^ 11 := by
  obtain ⟨e, f, heq, hf, hlow, hhigh, hsig⟩ := exists_fields rm hv
  rw [f64To80_of_normal heq hf (by omega) (by omega), ← hsig, BitVec.toNat_ofNat]
  omega

/-! ## Registers that survive -/

/-- Only zero is its own double in every rounding mode. -/
theorem doubleOfU64_eq_self {v : BitVec 64} (hrne : doubleOfU64 .rne v = v)
    (hrup : doubleOfU64 .rup v = v) : v = 0 := by
  by_contra hv
  have hn : v.toNat ≠ 0 := fun h ↦ hv (BitVec.eq_of_toNat_eq h)
  have hk : v.toNat.log2 < 64 := (Nat.log2_lt hn).mpr v.isLt
  have hlow : 2 ^ v.toNat.log2 ≤ v.toNat := Nat.log2_self_le hn
  have hhigh : v.toNat < 2 ^ (v.toNat.log2 + 1) := Nat.lt_log2_self
  have hdown := toNat_doubleOfU64 .rne hv
  have hup := toNat_doubleOfU64 .rup hv
  obtain ⟨hs, hs'⟩ := significandOf_bounds .rne hn
  obtain ⟨ht, ht'⟩ := significandOf_bounds .rup hn
  rw [hrne] at hdown
  rw [hrup] at hup
  -- the exponent field of such a number is that of a number between `2 ^ 62` and `2 ^ 63`
  have hk62 : v.toNat.log2 = 62 := by
    have h61 : 61 ≤ v.toNat.log2 := by
      by_contra hlt
      have hpow : 2 ^ (v.toNat.log2 + 1) ≤ 2 ^ 61 := Nat.pow_le_pow_right (by norm_num) (by omega)
      omega
    interval_cases h : v.toNat.log2 <;> omega
  have hk' : 52 < v.toNat.log2 := by omega
  rw [significandOf_of_lt hk', hk62] at hdown hup
  simp only [roundsUp] at hdown hup
  norm_num at hdown hup
  split_ifs at hdown hup <;> omega

/-- The significand that is left when bit 15 of the control word is set, as a register. -/
def significandSt (rm : RMode) (v : BitVec 64) : BitVec 64 :=
  (f64To80 (doubleOfU64 rm v)).significand

theorem significandSt_zero (rm : RMode) : significandSt rm 0 = 0 := by
  rw [significandSt, doubleOfU64_zero]
  decide

/-- The numbers with 64 significant bits of which the last eleven are zero. -/
def Normalised (v : BitVec 64) : Prop := 2 ^ 63 ≤ v.toNat ∧ v.toNat % 2 ^ 11 = 0

theorem two_pow_63_le_significandSt (rm : RMode) {v : BitVec 64} (hv : v ≠ 0) :
    2 ^ 63 ≤ (significandSt rm v).toNat := by
  have hn : v.toNat ≠ 0 := fun h ↦ hv (BitVec.eq_of_toNat_eq h)
  have hs := (significandOf_bounds rm hn).1
  rw [significandSt, toNat_significand rm hv]
  split_ifs <;> omega

/-- The significand of a number with 64 significant bits. -/
theorem significandOf_of_large (rm : RMode) {v : BitVec 64} (h : 2 ^ 63 ≤ v.toNat) :
    significandOf rm v.toNat =
      if roundsUp rm (v.toNat / 2 ^ 11) (v.toNat % 2 ^ 11) (2 ^ 10) then v.toNat / 2 ^ 11 + 1
      else v.toNat / 2 ^ 11 := by
  have hn : v.toNat ≠ 0 := by omega
  have hk : v.toNat.log2 = 63 := by
    have hlt : v.toNat.log2 < 64 := (Nat.log2_lt hn).mpr v.isLt
    have hle : 63 ≤ v.toNat.log2 := (Nat.le_log2 hn).mpr h
    omega
  rw [significandOf_of_lt (by omega), hk]

theorem significandSt_eq_self_iff (rm : RMode) (v : BitVec 64) :
    significandSt rm v = v ↔ v = 0 ∨ Normalised v := by
  by_cases hv : v = 0
  · rw [hv]
    exact iff_of_true (significandSt_zero rm) (.inl rfl)
  simp only [hv, false_or]
  constructor
  · intro h
    refine ⟨h ▸ two_pow_63_le_significandSt rm hv, ?_⟩
    have hsig := toNat_significand rm hv
    rw [← significandSt, h] at hsig
    rw [hsig, Nat.mul_mod_left]
  · rintro ⟨hlarge, hmod⟩
    have hexact : significandOf rm v.toNat = v.toNat / 2 ^ 11 := by
      rw [significandOf_of_large rm hlarge, hmod, if_neg]
      cases rm <;> simp [roundsUp]
    apply BitVec.eq_of_toNat_eq
    have hlt := v.isLt
    rw [significandSt, toNat_significand rm hv, hexact, if_neg (by omega)]
    omega

/-! ## Quieting -/

/-- A signalling or a quiet NaN. -/
def IsNaN (v : BitVec 64) : Prop := 0x7FF0000000000000#64 < v &&& 0x7FFFFFFFFFFFFFFF#64

/-- The same register, up to the bit that makes a NaN a quiet one. -/
def QuietEq (v w : BitVec 64) : Prop := w = v ∨ IsNaN v ∧ w = v ||| 0x0008000000000000#64

theorem IsNaN.le_toNat {v : BitVec 64} (h : IsNaN v) : 2047 * 2 ^ 52 ≤ v.toNat := by
  have hlt : (0x7FF0000000000000#64).toNat < (v &&& 0x7FFFFFFFFFFFFFFF#64).toNat := h
  have hle : (v &&& 0x7FFFFFFFFFFFFFFF#64).toNat ≤ v.toNat := by
    rw [BitVec.toNat_and]
    exact Nat.and_le_left
  have hval : (0x7FF0000000000000#64).toNat = 2047 * 2 ^ 52 := rfl
  omega

/-- A converted integer is no NaN, so quieting explains no difference. -/
theorem QuietEq.doubleOfU64_eq {rm : RMode} {v : BitVec 64} (h : QuietEq v (doubleOfU64 rm v)) :
    doubleOfU64 rm v = v := by
  obtain h | ⟨hnan, h⟩ := h
  · exact h
  · exfalso
    have hlarge := hnan.le_toNat
    have hv : v ≠ 0 := by
      rintro rfl
      exact absurd hlarge (by decide)
    obtain ⟨e, f, heq, hf, -, hhigh, -⟩ := exists_fields rm hv
    have hle : v.toNat ≤ (doubleOfU64 rm v).toNat := by
      rw [h, BitVec.toNat_or]
      exact Nat.left_le_or
    omega

/-- Nor is the difference to a significand ever the quiet bit. -/
theorem QuietEq.significandSt_eq {rm : RMode} {v : BitVec 64} (h : QuietEq v (significandSt rm v)) :
    significandSt rm v = v := by
  obtain h | ⟨hnan, h⟩ := h
  · exact h
  have hv : v ≠ 0 := by
    rintro rfl
    exact absurd hnan.le_toNat (by decide)
  have hquiet : (0x0008000000000000#64).toNat = 2 ^ 51 := rfl
  have hraw : (significandSt rm v).toNat = v.toNat ||| 2 ^ 51 := by rw [h, BitVec.toNat_or, hquiet]
  have hlow := two_pow_63_le_significandSt rm hv
  have hlarge : 2 ^ 63 ≤ v.toNat := by
    by_contra hlt
    have := Nat.or_lt_two_pow (not_le.mp hlt) (by norm_num : 2 ^ 51 < 2 ^ 63)
    omega
  -- the two agree in the lower 51 bits and differ by at most 2048
  have hle : v.toNat ≤ (significandSt rm v).toNat := hraw ▸ Nat.left_le_or
  have hmod : (significandSt rm v).toNat % 2 ^ 51 = v.toNat % 2 ^ 51 := by
    rw [hraw, Nat.or_mod_two_pow, Nat.mod_self, Nat.or_zero]
  have hdiff : (significandSt rm v).toNat ≤ v.toNat + 2048 := by
    have hsig := significandOf_of_large rm hlarge
    rw [significandSt, toNat_significand rm hv]
    split_ifs at hsig ⊢ <;> omega
  apply BitVec.eq_of_toNat_eq
  omega

/-! ## Round trips -/

/-- The three pairs of helpers. -/
inductive ImageFormat
  | fsave16
  | fsave32
  | fxsave
deriving DecidableEq, Repr

namespace FpuState

variable {format : ImageFormat} {s t : FpuState}

/-- An image of `s`, restored while the thread state is `t`. -/
def reload (format : ImageFormat) (rm : RMode) (s t : FpuState) : FpuState :=
  match format with
  | .fsave16 => t.frstor (s.fsave rm)
  | .fsave32 => t.frstor (s.fsave rm)
  | .fxsave => t.fxrstor (s.fxsave rm)

/-- Saved and restored again and again, with any rounding mode in `frm` each time. -/
def reloads (format : ImageFormat) : List RMode → FpuState → FpuState
  | [], s => s
  | rm :: rest, s => reloads format rest (reload format rm s s)

/-- `t` has the registers and the words of `s`. Bit 15 of a control word is reserved. -/
structure Preserves (format : ImageFormat) (s t : FpuState) : Prop where
  fp : ∀ i, QuietEq (s.fp i) (t.fp i)
  top : t.top = s.top
  cw : t.cw &&& 0x7FFF#16 = s.cw &&& 0x7FFF#16
  sw : t.statusWord = s.statusWord
  tw : t.tw = s.tw
  sse : format = .fxsave → t.mxcsr = s.mxcsr ∧ t.xmm = s.xmm

/-- Every number of round trips preserves `s`, and so does restoring the image of the last one in
any other state of the thread. -/
def RoundTrips (format : ImageFormat) (s : FpuState) : Prop :=
  ∀ modes rm t, Preserves format s (reloads format modes s) ∧
    Preserves format s (reload format rm (reloads format modes s) t)

/-- A register that an x87 image does not change, given the control word. -/
def Survives (cw : BitVec 16) (v : BitVec 64) : Prop :=
  v = 0 ∨ cw &&& 0x8000#16 ≠ 0 ∧ Normalised v

/-- The states that survive. `FXSAVE` keeps eight bits of the tag word. -/
def Representable (format : ImageFormat) (s : FpuState) : Prop :=
  s.top.toNat < 8 ∧ (format = .fxsave → s.tw.toNat < 256) ∧
    (s.x87State = .mmx ∨ ∀ i, Survives s.cw (s.fp i))

theorem fp_reload (rm : RMode) (i : Fin 8) :
    (reload format rm s t).fp i = readSt s.imageCw (s.imageSt rm i) := by
  cases format <;> rfl

theorem x87State_reload (rm : RMode) : (reload format rm s t).x87State = t.x87State := by
  cases format <;> rfl

theorem cw_reload (rm : RMode) : (reload format rm s t).cw = s.imageCw := by
  cases format <;> rfl

theorem sw_reload (rm : RMode) : (reload format rm s t).sw = s.statusWord := by
  cases format <;> rfl

theorem top_reload (rm : RMode) : (reload format rm s t).top = topOfSw s.statusWord := by
  cases format <;> rfl

theorem sse_reload (rm : RMode) (h : format = .fxsave) :
    (reload format rm s t).mxcsr = s.mxcsr ∧ (reload format rm s t).xmm = s.xmm := by
  subst h
  exact ⟨rfl, rfl⟩

theorem tw_reload (rm : RMode) :
    (reload format rm s t).tw = s.tw ↔ (format = .fxsave → s.tw.toNat < 256) := by
  cases format with
  | fsave16 => exact iff_of_true rfl (fun h ↦ by cases h)
  | fsave32 => exact iff_of_true rfl (fun h ↦ by cases h)
  | fxsave =>
    have hshort : (reload .fxsave rm s t).tw = (s.tw.setWidth 8).setWidth 16 := rfl
    rw [hshort, ← BitVec.toNat_inj, BitVec.toNat_setWidth, BitVec.toNat_setWidth]
    simp only [true_implies]
    omega

theorem imageCw_and (s : FpuState) : s.imageCw &&& 0x7FFF#16 = s.cw &&& 0x7FFF#16 := by
  rw [imageCw]
  split_ifs
  · rw [BitVec.and_or_distrib_right]
    exact BitVec.or_zero
  · rfl

/-- The mark is there for an MMX image, and also for every image of a thread that has it in its
control word. -/
theorem imageCw_marked (s : FpuState) :
    s.imageCw &&& 0x8000#16 ≠ 0 ↔ s.x87State = .mmx ∨ s.cw &&& 0x8000#16 ≠ 0 := by
  rw [imageCw]
  split_ifs with h
  · refine iff_of_true ?_ (.inl h)
    rw [BitVec.and_or_distrib_right]
    intro hzero
    have hbit := congrArg (fun w ↦ w.getLsbD 15) hzero
    simp at hbit
  · simp [h]

theorem top_reload_iff (rm : RMode) : (reload format rm s t).top = s.top ↔ s.top.toNat < 8 := by
  rw [top_reload]
  refine ⟨fun h ↦ ?_, s.topOfSw_statusWord⟩
  rw [← h, topOfSw, BitVec.toNat_setWidth, BitVec.toNat_and]
  have hle : (s.statusWord >>> 11).toNat &&& (0b111#16).toNat ≤ 7 := Nat.and_le_right
  omega

theorem statusWord_reload (rm : RMode) : (reload format rm s t).statusWord = s.statusWord := by
  rw [FpuControl.statusWord_eq_sw, sw_reload]
  rw [top_reload, sw_reload]

theorem fp_reload_mmx (h : s.x87State = .mmx) (rm : RMode) (i : Fin 8) :
    (reload format rm s t).fp i = s.fp i := by
  rw [fp_reload, readSt, if_pos ((imageCw_marked s).mpr (.inl h)), imageSt, h]
  rfl

/-- The two ways an x87 register comes back. -/
theorem fp_reload_x87 (h : s.x87State ≠ .mmx) (rm : RMode) (i : Fin 8) :
    (reload format rm s t).fp i =
      if s.cw &&& 0x8000#16 ≠ 0 then significandSt rm (s.fp i) else doubleOfU64 rm (s.fp i) := by
  have hx87 : s.x87State = .x87 := by
    cases hs : s.x87State with
    | x87 => rfl
    | mmx => exact absurd hs h
  rw [fp_reload, readSt, imageSt, imageCw, if_neg h, hx87, encodeSt, f80To64_f64To80_doubleOfU64]
  rfl

theorem Survives.fp_reload {i : Fin 8} (hs : Survives s.cw (s.fp i)) (h : s.x87State ≠ .mmx)
    (rm : RMode) : (reload format rm s t).fp i = s.fp i := by
  rw [fp_reload_x87 h]
  split_ifs with hmark
  · exact (significandSt_eq_self_iff rm _).mpr (hs.imp_right And.right)
  · have hzero : s.fp i = 0 := hs.resolve_right fun hn ↦ hmark hn.1
    rw [hzero, doubleOfU64_zero]

/-- A register that comes back in every rounding mode survives. -/
theorem survives_of_quietEq {i : Fin 8} (h : s.x87State ≠ .mmx)
    (hq : ∀ rm, QuietEq (s.fp i) ((reload format rm s t).fp i)) : Survives s.cw (s.fp i) := by
  simp only [fp_reload_x87 h] at hq
  split_ifs at hq with hmark
  · exact ((significandSt_eq_self_iff .rne _).mp (hq .rne).significandSt_eq).imp_right
      fun hn ↦ ⟨hmark, hn⟩
  · exact .inl (doubleOfU64_eq_self (hq .rne).doubleOfU64_eq (hq .rup).doubleOfU64_eq)

end FpuState

theorem QuietEq.trans {u v w : BitVec 64} (h₁ : QuietEq u v) (h₂ : QuietEq v w) : QuietEq u w := by
  obtain rfl | ⟨hnan, rfl⟩ := h₁
  · exact h₂
  · obtain rfl | ⟨-, rfl⟩ := h₂
    · exact .inr ⟨hnan, rfl⟩
    · exact .inr ⟨hnan, by rw [BitVec.or_assoc, BitVec.or_self]⟩

namespace FpuState

variable {format : ImageFormat} {s t u : FpuState}

theorem Preserves.refl (format : ImageFormat) (s : FpuState) : Preserves format s s :=
  ⟨fun _ ↦ .inl rfl, rfl, rfl, rfl, rfl, fun _ ↦ ⟨rfl, rfl⟩⟩

theorem Preserves.trans (h₁ : Preserves format s t) (h₂ : Preserves format t u) :
    Preserves format s u where
  fp i := (h₁.fp i).trans (h₂.fp i)
  top := h₂.top.trans h₁.top
  cw := h₂.cw.trans h₁.cw
  sw := h₂.sw.trans h₁.sw
  tw := h₂.tw.trans h₁.tw
  sse h := ⟨(h₂.sse h).1.trans (h₁.sse h).1, (h₂.sse h).2.trans (h₁.sse h).2⟩

theorem Representable.fp_reload (h : Representable format s) (rm : RMode) (t : FpuState)
    (i : Fin 8) : (reload format rm s t).fp i = s.fp i := by
  by_cases hmmx : s.x87State = .mmx
  · exact fp_reload_mmx hmmx rm i
  · exact (h.2.2.resolve_left hmmx i).fp_reload hmmx rm

/-- One round trip, whoever restores. -/
theorem Representable.preserves (h : Representable format s) (rm : RMode) (t : FpuState) :
    Preserves format s (reload format rm s t) where
  fp i := .inl (h.fp_reload rm t i)
  top := (top_reload_iff rm).mpr h.1
  cw := by rw [cw_reload, imageCw_and]
  sw := statusWord_reload rm
  tw := (tw_reload rm).mpr h.2.1
  sse := sse_reload rm

/-- The mark a round trip leaves in the control word of an MMX state does no harm while the state is
an MMX state. -/
theorem Representable.reload (h : Representable format s) (rm : RMode) :
    Representable format (reload format rm s s) := by
  have hp := h.preserves rm s
  refine ⟨hp.top ▸ h.1, fun hf ↦ hp.tw ▸ h.2.1 hf, ?_⟩
  rw [x87State_reload]
  refine h.2.2.imp_right fun hfp i ↦ ?_
  rw [h.fp_reload, cw_reload]
  exact (hfp i).imp_right fun hn ↦ ⟨(imageCw_marked s).mpr (.inr hn.1), hn.2⟩

theorem Representable.reloads (h : Representable format s) (modes : List RMode) :
    Representable format (reloads format modes s) ∧
        Preserves format s (reloads format modes s) := by
  induction modes generalizing s with
  | nil => exact ⟨h, .refl format s⟩
  | cons rm rest ih =>
    obtain ⟨hrep, hpres⟩ := ih (h.reload rm)
    exact ⟨hrep, (h.preserves rm s).trans hpres⟩

/-- The states of which every image can be restored, any number of times and by any thread. -/
theorem roundTrips_iff (format : ImageFormat) (s : FpuState) :
    RoundTrips format s ↔ Representable format s := by
  constructor
  · intro h
    have hp (rm : RMode) : Preserves format s (FpuState.reload format rm s s) := (h [] rm s).2
    refine ⟨(top_reload_iff .rne).mp (hp .rne).top, (tw_reload .rne).mp (hp .rne).tw, ?_⟩
    by_cases hmmx : s.x87State = .mmx
    · exact .inl hmmx
    · exact .inr fun i ↦ survives_of_quietEq hmmx fun rm ↦ (hp rm).fp i
  · intro h modes rm t
    obtain ⟨hrep, hpres⟩ := h.reloads modes
    exact ⟨hpres, hpres.trans (hrep.preserves rm t)⟩

/-- An x87 state with 1.0 in every register. -/
def ones : FpuState :=
  { FpuControl.initial with
    x87State := .x87
    fp := fun _ ↦ 0x3FF0000000000000#64
    xmm := fun _ ↦ 0 }

/-- `FXSAVE` and `FXRSTOR` turn 1.0 into 4607182418800017408.0, the number that has its bits. -/
theorem not_roundTrips_ones :
    (reload .fxsave .rne ones ones).fp 0 = 0x43CFF80000000000#64 ∧ ¬RoundTrips .fxsave ones := by
  have hread : (reload .fxsave .rne ones ones).fp 0 = 0x43CFF80000000000#64 := by decide
  refine ⟨hread, fun h ↦ ?_⟩
  have hq : QuietEq 0x3FF0000000000000#64 ((reload .fxsave .rne ones ones).fp 0) :=
    (h [] .rne ones).2.fp 0
  rw [hread] at hq
  obtain heq | ⟨-, heq⟩ := hq <;> exact absurd heq (by decide)

end FpuState

end Felix86
