import Mathlib.Data.Int.Log
import Mathlib.Algebra.Order.Floor.Semifield
import Mathlib.Tactic

/-!
# Truncation to significant bits

A number is cut to its first `p` binary digits, wherever the first of them stands. What is cut off
lies towards zero. A pattern with an exponent above a fraction stands for a number, and the order of
the numbers is that of the patterns.
-/

namespace Felix86

namespace Truncation

variable {K : Type*} [Field K] [LinearOrder K] [IsStrictOrderedRing K] [FloorSemiring K]
variable {p : ℕ} {q : K}

/-- The weight of the last of `p` digits. -/
def ulp (p : ℕ) (q : K) : K := 2 ^ (Int.log 2 q + 1 - p)

def truncateMag (p : ℕ) (q : K) : K := ⌊q / ulp p q⌋₊ * ulp p q

/-- The first `p` binary digits of a number. -/
def truncate (p : ℕ) (q : K) : K := if q < 0 then -truncateMag p (-q) else truncateMag p q

theorem ulp_pos (p : ℕ) (q : K) : 0 < ulp p q := zpow_pos two_pos _

theorem truncateMag_nonneg (p : ℕ) (q : K) : 0 ≤ truncateMag p q :=
  mul_nonneg (Nat.cast_nonneg _) (ulp_pos p q).le

theorem truncateMag_le (p : ℕ) (hq : 0 ≤ q) : truncateMag p q ≤ q := by
  have hulp := ulp_pos p q
  have hfloor := Nat.floor_le (div_nonneg hq hulp.le)
  rwa [le_div_iff₀ hulp] at hfloor

theorem log_mul_zpow {m n : ℕ} (k : ℤ) (hlow : 2 ^ n ≤ m) (hhigh : m < 2 ^ (n + 1)) :
    Int.log 2 ((m : K) * 2 ^ k) = n + k := by
  have hm : (0 : K) < m := by
    have := Nat.two_pow_pos n
    exact_mod_cast this.trans_le hlow
  have hpos : (0 : K) < m * 2 ^ k := mul_pos hm (zpow_pos two_pos k)
  apply le_antisymm
  · rw [← Int.lt_add_one_iff, ← Int.lt_zpow_iff_log_lt one_lt_two hpos]
    have hcast : (m : K) < 2 ^ (n + 1) := by exact_mod_cast hhigh
    calc (m : K) * 2 ^ k < 2 ^ (n + 1) * 2 ^ k := by gcongr
      _ = ((2 : ℕ) : K) ^ ((n : ℤ) + k + 1) := by
        rw [← zpow_natCast, ← zpow_add₀ two_ne_zero, Nat.cast_ofNat]
        congr 1
        push_cast
        ring
  · rw [← Int.zpow_le_iff_le_log one_lt_two hpos]
    have hcast : (2 : K) ^ n ≤ m := by exact_mod_cast hlow
    calc ((2 : ℕ) : K) ^ ((n : ℤ) + k) = 2 ^ n * 2 ^ k := by
          rw [Nat.cast_ofNat, zpow_add₀ two_ne_zero, zpow_natCast]
      _ ≤ m * 2 ^ k := by gcongr

/-- Of a significand of `p + s` digits the last `s` are cut off. -/
theorem truncateMag_scaled {m s : ℕ} (k : ℤ) (hp : 0 < p) (hlow : 2 ^ (p + s - 1) ≤ m)
    (hhigh : m < 2 ^ (p + s)) :
    truncateMag p ((m : K) * 2 ^ k) = ((m / 2 ^ s : ℕ) : K) * 2 ^ (k + s) := by
  have hlog : Int.log 2 ((m : K) * 2 ^ k) = ((p + s - 1 : ℕ) : ℤ) + k :=
    log_mul_zpow k hlow (by rwa [Nat.sub_add_cancel (by omega)])
  have hulp : ulp p ((m : K) * 2 ^ k) = 2 ^ (k + s) := by
    rw [ulp, hlog]
    congr 1
    omega
  have hdiv : (m : K) * 2 ^ k / 2 ^ (k + s) = (m : K) / ((2 ^ s : ℕ) : K) := by
    rw [zpow_add₀ two_ne_zero, zpow_natCast, Nat.cast_pow, Nat.cast_ofNat]
    field_simp
  rw [truncateMag, hulp, hdiv, Nat.floor_div_eq_div]

omit [IsStrictOrderedRing K] in
theorem truncate_of_nonneg (p : ℕ) (hq : 0 ≤ q) : truncate p q = truncateMag p q :=
  if_neg (not_lt.mpr hq)

@[simp]
theorem truncate_zero (p : ℕ) : truncate p (0 : K) = 0 := by
  rw [truncate_of_nonneg p le_rfl]
  exact le_antisymm (truncateMag_le p le_rfl) (truncateMag_nonneg p 0)

@[simp]
theorem truncate_neg (p : ℕ) (q : K) : truncate p (-q) = -truncate p q := by
  rcases lt_trichotomy q 0 with h | rfl | h
  · rw [truncate, truncate, if_neg (by linarith), if_pos h, neg_neg]
  · rw [neg_zero, truncate_zero, neg_zero]
  · rw [truncate, truncate, if_pos (by linarith), if_neg (by linarith), neg_neg]

/-! ## Patterns -/

section Patterns

variable {K : Type*} [Field K] [LinearOrder K] [IsStrictOrderedRing K] {p : ℕ} {k : ℤ}

/-- The number of a pattern with a fraction of `p` bits below an exponent, the last digit of the
smallest numbers having the weight `2 ^ k`. Without an exponent there is no hidden bit. -/
def ofPattern (K : Type*) [Field K] (p : ℕ) (k : ℤ) (m : ℕ) : K :=
  ((if m / 2 ^ p = 0 then m % 2 ^ p else 2 ^ p + m % 2 ^ p : ℕ) : K) *
    2 ^ (k + ((max (m / 2 ^ p) 1 - 1 : ℕ) : ℤ))

omit [LinearOrder K] [IsStrictOrderedRing K] in
theorem ofPattern_eq (k : ℤ) (e : ℕ) {f : ℕ} (hf : f < 2 ^ p) : ofPattern K p k (e * 2 ^ p + f) =
    ((if e = 0 then f else 2 ^ p + f : ℕ) : K) * 2 ^ (k + ((max e 1 - 1 : ℕ) : ℤ)) := by
  have hdiv : (e * 2 ^ p + f) / 2 ^ p = e := by
    rw [Nat.mul_comm, Nat.mul_add_div (Nat.two_pow_pos p), Nat.div_eq_of_lt hf, Nat.add_zero]
  have hmod : (e * 2 ^ p + f) % 2 ^ p = f := by
    rw [Nat.mul_comm, Nat.mul_add_mod, Nat.mod_eq_of_lt hf]
  rw [ofPattern, hdiv, hmod]

/-- The order of the patterns is that of their numbers. -/
theorem ofPattern_strictMono (p : ℕ) (k : ℤ) : StrictMono (ofPattern K p k) := by
  refine strictMono_nat_of_lt_succ fun m ↦ ?_
  have hpow : 0 < 2 ^ p := Nat.two_pow_pos p
  have hpos (i : ℤ) : (0 : K) < 2 ^ i := zpow_pos two_pos i
  obtain ⟨e, f, hf, rfl⟩ : ∃ e f, f < 2 ^ p ∧ m = e * 2 ^ p + f :=
    ⟨m / 2 ^ p, m % 2 ^ p, Nat.mod_lt m hpow, (Nat.div_add_mod' m _).symm⟩
  rw [ofPattern_eq k e hf]
  by_cases hcarry : f + 1 < 2 ^ p
  · -- the exponent stays, and the fraction is one more
    rw [Nat.add_assoc, ofPattern_eq k e hcarry]
    refine mul_lt_mul_of_pos_right ?_ (hpos _)
    rw [Nat.cast_lt]
    split <;> omega
  · have hnext : e * 2 ^ p + f + 1 = (e + 1) * 2 ^ p + 0 := by
      rw [Nat.add_mul]
      omega
    rw [hnext, ofPattern_eq k (e + 1) hpow, if_neg (Nat.succ_ne_zero e), Nat.add_zero]
    by_cases hzero : e = 0
    · rw [if_pos hzero, hzero]
      exact mul_lt_mul_of_pos_right (Nat.cast_lt.mpr hf) (hpos _)
    · have hstep : k + ((max (e + 1) 1 - 1 : ℕ) : ℤ) = 1 + (k + ((max e 1 - 1 : ℕ) : ℤ)) := by omega
      rw [if_neg hzero, hstep, zpow_add₀ two_ne_zero 1, zpow_one, ← mul_assoc]
      refine mul_lt_mul_of_pos_right ?_ (hpos _)
      exact_mod_cast (by omega : 2 ^ p + f < 2 ^ p * 2)

omit [LinearOrder K] [IsStrictOrderedRing K] in
@[simp]
theorem ofPattern_zero (p : ℕ) (k : ℤ) : ofPattern K p k 0 = 0 := by
  rw [ofPattern, Nat.zero_div, if_pos rfl, Nat.zero_mod, Nat.cast_zero, zero_mul]

/-- A pattern with a sign, as a whole number. -/
def rank (s : Bool) (m : ℕ) : ℤ := if s then -m else m

theorem rank_false (m : ℕ) : rank false m = m := rfl

theorem rank_true (m : ℕ) : rank true m = -m := rfl

theorem rank_false_le_iff {m n : ℕ} : rank false m ≤ rank false n ↔ m ≤ n := Nat.cast_le

theorem rank_true_le_iff {m n : ℕ} : rank true m ≤ rank true n ↔ n ≤ m :=
  neg_le_neg_iff.trans Nat.cast_le

/-- What is above a positive pattern is positive. -/
theorem rank_false_le {t : Bool} {m n : ℕ} (hm : 0 < m) (h : rank false m ≤ rank t n) :
    t = false ∧ m ≤ n := by
  cases t <;> simp only [rank_false, rank_true] at h
  · exact ⟨rfl, by omega⟩
  · omega

theorem le_rank_true {t : Bool} {m n : ℕ} (hm : 0 < m) (h : rank t n ≤ rank true m) :
    t = true ∧ m ≤ n := by
  cases t <;> simp only [rank_false, rank_true] at h
  · omega
  · exact ⟨rfl, by omega⟩

/-- What keeps the order of patterns keeps it with signs, if it keeps zero. -/
theorem rank_le_rank {s t : Bool} {m n m' n' : ℕ} (hle : m ≤ n → m' ≤ n') (hge : n ≤ m → n' ≤ m')
    (hm : m = 0 → m' = 0) (hn : n = 0 → n' = 0) (h : rank s m ≤ rank t n) :
        rank s m' ≤ rank t n' := by
  cases s <;> cases t <;> simp only [rank_false, rank_true] at h ⊢
  · exact Nat.cast_le.mpr (hle (Nat.cast_le.mp h))
  · have := hm (by omega)
    have := hn (by omega)
    omega
  · omega
  · exact neg_le_neg (Nat.cast_le.mpr (hge (Nat.cast_le.mp (neg_le_neg_iff.mp h))))

/-- Numbers with a sign have the order of their patterns. -/
theorem signed_le_iff {f : ℕ → K} (hf : StrictMono f) (hzero : f 0 = 0) (s s' : Bool) (m m' : ℕ) :
    (if s then -1 else 1) * f m ≤ (if s' then -1 else 1) * f m' ↔ rank s m ≤ rank s' m' := by
  have hnonneg (n : ℕ) : 0 ≤ f n := hzero ▸ hf.monotone (Nat.zero_le n)
  cases s with
  | false =>
    cases s' with
    | false => simp [rank, hf.le_iff_le]
    | true =>
      simp only [rank, Bool.false_eq_true, if_false, if_true, one_mul, neg_mul]
      constructor
      · intro h
        have hm := hnonneg m
        have hm' := hnonneg m'
        have h0 : f m = f 0 := by rw [hzero]; linarith
        have h0' : f m' = f 0 := by rw [hzero]; linarith
        rw [hf.injective h0, hf.injective h0']
        rfl
      · intro h
        obtain ⟨rfl, rfl⟩ : m = 0 ∧ m' = 0 := by omega
        rw [hzero, neg_zero]
  | true =>
    cases s' with
    | false =>
      simp only [rank, Bool.false_eq_true, if_false, if_true, one_mul, neg_mul]
      have hm := hnonneg m
      have hm' := hnonneg m'
      exact iff_of_true (by linarith) (by omega)
    | true => simp [rank, hf.le_iff_le]

end Patterns
end Truncation

end Felix86
