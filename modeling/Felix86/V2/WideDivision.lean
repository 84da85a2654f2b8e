import Felix86.Lib.LongDivision
import Felix86.V2.HandlersMul

/-!
# Division of 128 bits by 64

The unsigned helper normalizes the divisor, so that its upper half is an estimate to divide by, and
then finds the quotient in two digits of 32 bits. None of the products and sums it compares wraps
around.
-/

namespace Felix86

namespace Jit

open Riscv LongDivision

/-! ## A digit -/

section

variable {num den1 den0 den next : U64} {n d1 d0 m : ℕ}

theorem toNat_shl_32 {v : U64} (hv : v.toNat < 2 ^ 32) : (v <<< 32).toNat = v.toNat * 2 ^ 32 := by
  rw [toNat_shl, Nat.mod_eq_of_lt (by omega)]

/-- A digit of the quotient, by a divisor whose upper half has its highest bit set. -/
theorem toNat_divDigit (hnum : num.toNat = n) (hden1 : den1.toNat = d1) (hden0 : den0.toNat = d0)
    (hden : den.toNat = d1 * 2 ^ 32 + d0) (hnext : next.toNat = m) (hlt : n < d1 * 2 ^ 32 + d0)
    (hd0 : d0 < 2 ^ 32) (hd1 : d1 < 2 ^ 32) (hnorm : 2 ^ 32 ≤ 2 * d1) (hm : m < 2 ^ 32) :
    (divDigit num den1 den0 den next).toNat = (n * 2 ^ 32 + m) / (d1 * 2 ^ 32 + d0) := by
  have hdigit := digit_eq hlt hd0 hnorm hm
  have hdigitLt := digit_lt hlt hd0 hnorm hm
  have htaken := taken_lt hlt hd0 hnorm
  have hleft : left (2 ^ 32) n d1 m < d1 * 2 ^ 32 := left_lt (by omega) hm
  have hmod : n % d1 < d1 := Nat.mod_lt _ (by omega)
  have hq : (num / den1).toNat = n / d1 := by rw [BitVec.toNat_udiv, hnum, hden1]
  have hr : (num % den1).toNat = n % d1 := by rw [BitVec.toNat_umod, hnum, hden1]
  have hc1 : (num / den1 * den0).toNat = taken n d1 d0 := by
    rw [BitVec.toNat_mul, hq, hden0]
    exact Nat.mod_eq_of_lt htaken
  have hc2 : (((num % den1) <<< 32) + next).toNat = left (2 ^ 32) n d1 m := by
    rw [BitVec.toNat_add, toNat_shl_32 (by omega), hr, hnext, Nat.mod_eq_of_lt]
    · rfl
    · exact hleft.trans (by omega)
  rw [← hdigit]
  simp only [digit, correction] at hdigitLt ⊢
  have hcorrect (hneg : left (2 ^ 32) n d1 m < taken n d1 d0) := correction_le hneg
  simp only [correction] at hcorrect
  simp only [divDigit, BitVec.lt_def, toNat_zextw]
  generalize num / den1 = qhat at *
  generalize qhat * den0 = c1 at *
  generalize (num % den1) <<< 32 + next = c2 at *
  rw [hc1, hc2]
  by_cases hneg : left (2 ^ 32) n d1 m < taken n d1 d0
  · have hle := hcorrect hneg
    have hsub : (c1 - c2).toNat = taken n d1 d0 - left (2 ^ 32) n d1 m := by
      rw [BitVec.toNat_sub_of_le (by rw [BitVec.le_def]; omega), hc1, hc2]
    rw [if_pos hneg] at hdigitLt ⊢
    rw [if_pos hneg, hsub, hden]
    have hone :
        (if d1 * 2 ^ 32 + d0 < taken n d1 d0 - left (2 ^ 32) n d1 m then (2 : U64) else 1).toNat =
          if d1 * 2 ^ 32 + d0 < taken n d1 d0 - left (2 ^ 32) n d1 m then 2 else 1 := by
      split <;> rfl
    rw [BitVec.toNat_sub_of_le (by rw [BitVec.le_def, hone, hq]; exact hle), hone, hq]
    exact Nat.mod_eq_of_lt hdigitLt
  · rw [if_neg hneg] at hdigitLt ⊢
    rw [if_neg hneg, hq]
    exact Nat.mod_eq_of_lt hdigitLt

end

/-! ## Normalization -/

section

variable {hi lo d : U64} {s : ℕ}

/-- Shifted by its leading zeros a divisor has its highest bit set. -/
theorem clz_bounds (hd : d ≠ 0) :
    d.clz.toNat < 64 ∧ 2 ^ 63 ≤ d.toNat * 2 ^ d.clz.toNat ∧ d.toNat * 2 ^ d.clz.toNat < 2 ^ 64 := by
  have hlt : d.clz.toNat < 64 := (BitVec.clz_lt_iff_ne_zero.mpr hd : d.clz < 64#64)
  have hle := BitVec.two_pow_sub_clz_le_toNat_of_ne_zero (by decide) hd
  have hgt : d.toNat < 2 ^ (64 - d.clz.toNat) := BitVec.toNat_lt_two_pow_sub_clz
  have hlow : 2 ^ (64 - 1 - d.clz.toNat) * 2 ^ d.clz.toNat = 2 ^ 63 := by
    rw [← Nat.pow_add]
    congr 1
    omega
  have hhigh : 2 ^ (64 - d.clz.toNat) * 2 ^ d.clz.toNat = 2 ^ 64 := by
    rw [← Nat.pow_add]
    congr 1
    omega
  refine ⟨hlt, ?_, ?_⟩
  · rw [← hlow]
    exact Nat.mul_le_mul_right _ hle
  · rw [← hhigh]
    exact Nat.mul_lt_mul_of_pos_right hgt (Nat.two_pow_pos _)

/-- The bits that leave the lower half come into the upper half. -/
theorem toNat_normalized (hs : s < 64) (hhi : hi.toNat * 2 ^ s < 2 ^ 64) :
    ((hi <<< s) ||| (if s = 0 then 0 else lo >>> (64 - s))).toNat * 2 ^ 64 + (lo <<< s).toNat =
      (hi.toNat * 2 ^ 64 + lo.toNat) * 2 ^ s := by
  have hlo := lo.isLt
  by_cases hzero : s = 0
  · subst hzero
    simp
  · have hpow : 2 ^ (64 - s) * 2 ^ s = 2 ^ 64 := by
      rw [← Nat.pow_add]
      congr 1
      omega
    have hcarry : lo.toNat / 2 ^ (64 - s) < 2 ^ s := by
      rw [Nat.div_lt_iff_lt_mul (Nat.two_pow_pos _), Nat.mul_comm, hpow]
      exact hlo
    have hsplit : lo.toNat * 2 ^ s = lo.toNat / 2 ^ (64 - s) * 2 ^ 64 + lo.toNat *
        2 ^ s % 2 ^ 64 := by
      have hdiv : lo.toNat * 2 ^ s / 2 ^ 64 = lo.toNat / 2 ^ (64 - s) := by
        rw [← hpow, Nat.mul_div_mul_right _ _ (Nat.two_pow_pos _)]
      rw [← hdiv]
      exact (Nat.div_add_mod' _ _).symm
    have hor : hi.toNat * 2 ^ s ||| lo.toNat / 2 ^ (64 - s) =
        hi.toNat * 2 ^ s + lo.toNat / 2 ^ (64 - s) := by
      rw [← Nat.shiftLeft_eq, ← Nat.shiftLeft_add_eq_or_of_lt hcarry]
    rw [if_neg hzero, BitVec.toNat_or, toNat_shl, toNat_shl, toNat_shr, Nat.mod_eq_of_lt hhi, hor,
      Nat.add_mul (hi.toNat * 2 ^ 64), Nat.mul_right_comm]
    omega

end

/-! ## Two digits -/

section

variable {hi lo d : U64} {n q r : ℕ}

theorem eq_ofNat_of_toNat {v : U64} (h : v.toNat = n) : v = BitVec.ofNat 64 n := by
  rw [← h, BitVec.ofNat_toNat, BitVec.setWidth_eq]

/-- A remainder is exact although the products that it is a difference of wrap around. -/
theorem toNat_remainder {num next q den : U64} {n m p r : ℕ} (hnum : num.toNat = n)
    (hnext : next.toNat = m) (hq : (q * den).toNat = p % 2 ^ 64) (hsplit : n * 2 ^ 32 + m = p + r)
    (hr : r < 2 ^ 64) : ((num <<< 32) + next - q * den).toNat = r := by
  have hm : m < 2 ^ 64 := hnext ▸ next.isLt
  rw [BitVec.toNat_sub, BitVec.toNat_add, toNat_shl, hnum, hnext, hq]
  omega

/-- The two digits, once the divisor is normalized. -/
theorem twoDigits {numhi numlo den : U64} {D : ℕ} (hden : den.toNat = D) (hnorm : 2 ^ 63 ≤ D)
    (hlt : numhi.toNat < D) :
    let num1 := numlo >>> 32
    let num0 := zextw numlo
    let den1 := den >>> 32
    let den0 := zextw den
    let q1 := divDigit numhi den1 den0 den num1
    let rem := (numhi <<< 32) + num1 - q1 * den
    let q0 := divDigit rem den1 den0 den num0
    ((q1 <<< 32) ||| q0).toNat = (numhi.toNat * 2 ^ 64 + numlo.toNat) / D ∧
      ((rem <<< 32) + num0 - q0 * den).toNat = (numhi.toNat * 2 ^ 64 + numlo.toNat) % D := by
  intro num1 num0 den1 den0 q1 rem q0
  have hD : D < 2 ^ 64 := hden ▸ den.isLt
  have hpos : 0 < D := (Nat.two_pow_pos 63).trans_le hnorm
  have hnumlo := numlo.isLt
  have hnum1 : num1.toNat = numlo.toNat / 2 ^ 32 := toNat_shr ..
  have hnum0 : num0.toNat = numlo.toNat % 2 ^ 32 := toNat_zextw _
  have hden1 : den1.toNat = D / 2 ^ 32 := (toNat_shr ..).trans (by rw [hden])
  have hden0 : den0.toNat = D % 2 ^ 32 := (toNat_zextw _).trans (by rw [hden])
  have hsplit : D / 2 ^ 32 * 2 ^ 32 + D % 2 ^ 32 = D := Nat.div_add_mod' ..
  have hdigit {num next : U64} (hnum : num.toNat < D) (hnext : next.toNat < 2 ^ 32) :
      (divDigit num den1 den0 den next).toNat = (num.toNat * 2 ^ 32 + next.toNat) / D := by
    have h := toNat_divDigit rfl hden1 hden0 (hden.trans hsplit.symm) rfl (hsplit.symm ▸ hnum)
      (Nat.mod_lt _ (by decide)) (by omega) (by omega) hnext
    rwa [hsplit] at h
  have hrem {num next q : U64} (hq : q.toNat = (num.toNat * 2 ^ 32 + next.toNat) / D) :
      ((num <<< 32) + next - q * den).toNat = (num.toNat * 2 ^ 32 + next.toNat) % D := by
    have hmul : (q * den).toNat = q.toNat * den.toNat % 2 ^ 64 := BitVec.toNat_mul q den
    refine toNat_remainder rfl rfl hmul ?_ ((Nat.mod_lt _ hpos).trans hD)
    rw [hq, hden]
    exact (Nat.div_add_mod' _ _).symm
  have hq1 := hdigit hlt (show num1.toNat < 2 ^ 32 by omega)
  have hr1 := hrem hq1
  have hr1lt : rem.toNat < D := by
    rw [hr1]
    exact Nat.mod_lt _ hpos
  have hq0 := hdigit hr1lt (show num0.toNat < 2 ^ 32 by omega)
  have hr0 := hrem hq0
  obtain ⟨hdiv, hmod⟩ := @div_two_digits (2 ^ 32) numhi.toNat num1.toNat num0.toNat D hpos
  have htotal : numhi.toNat * 2 ^ 32 * 2 ^ 32 + num1.toNat * 2 ^ 32 + num0.toNat =
      numhi.toNat * 2 ^ 64 + numlo.toNat := by
    rw [hnum1, hnum0, Nat.mul_assoc, Nat.add_assoc, Nat.div_add_mod', ← Nat.pow_add]
  rw [htotal] at hdiv hmod
  constructor
  · have hq1lt : q1.toNat < 2 ^ 32 := by
      rw [hq1]
      exact Nat.div_lt_of_lt_mul (by omega)
    have hq0lt : q0.toNat < 2 ^ 32 := by
      rw [hq0]
      exact Nat.div_lt_of_lt_mul (by omega)
    rw [BitVec.toNat_or, toNat_shl_32 hq1lt, hdiv, ← hr1, ← hq0, ← hq1, ← Nat.shiftLeft_eq,
      ← Nat.shiftLeft_add_eq_or_of_lt hq0lt]
  · rw [hmod, ← hr1]
    exact hr0

/-- The helper divides numbers of 128 bits, if the quotient fits. -/
theorem libdivide128Div64To64_eq (hfit : hi.toNat < d.toNat) :
    libdivide128Div64To64 hi lo d =
      (BitVec.ofNat 64 ((hi.toNat * 2 ^ 64 + lo.toNat) / d.toNat),
        BitVec.ofNat 64 ((hi.toNat * 2 ^ 64 + lo.toNat) % d.toNat)) := by
  have hd : d ≠ 0 := by
    rintro rfl
    exact Nat.not_lt_zero _ hfit
  obtain ⟨hs, hnorm, hfull⟩ := clz_bounds hd
  have hge : ¬ d ≤ hi := by
    rw [BitVec.le_def]
    omega
  rw [libdivide128Div64To64, if_neg hge]
  simp only []
  generalize d.clz.toNat = s at *
  have hpow := Nat.two_pow_pos s
  have hhi : hi.toNat * 2 ^ s < d.toNat * 2 ^ s := Nat.mul_lt_mul_of_pos_right hfit hpow
  have hnormalized := @toNat_normalized hi lo s hs (hhi.trans hfull)
  have hden : (d <<< s).toNat = d.toNat * 2 ^ s := by rw [toNat_shl, Nat.mod_eq_of_lt hfull]
  generalize (hi <<< s) ||| (if s = 0 then 0 else lo >>> (64 - s)) = numhi at *
  generalize lo <<< s = numlo at *
  have hlt : numhi.toNat < d.toNat * 2 ^ s := by
    have hlo := lo.isLt
    have htotal : (hi.toNat * 2 ^ 64 + lo.toNat) * 2 ^ s < d.toNat * 2 ^ 64 * 2 ^ s :=
      Nat.mul_lt_mul_of_pos_right (by omega) hpow
    rw [← hnormalized, Nat.mul_right_comm] at htotal
    omega
  obtain ⟨hquot, hrem⟩ := @twoDigits _ numlo _ _ hden hnorm hlt
  rw [hnormalized] at hquot hrem
  rw [Nat.mul_div_mul_right _ _ hpow] at hquot
  rw [Nat.mul_mod_mul_right] at hrem
  refine Prod.ext (eq_ofNat_of_toNat hquot) (eq_ofNat_of_toNat ?_)
  rw [toNat_shr, hrem, Nat.mul_div_cancel _ hpow]

end

end Jit

end Felix86
