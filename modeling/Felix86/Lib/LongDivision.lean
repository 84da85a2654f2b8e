import Mathlib

/-!
# Long division

Division by a number of two digits, one digit of the quotient at a time. The first digit of the
divisor gives an estimate that is never too small, and never more than two too large if that digit
is at least half of the base. A comparison of two products tells by how much.
-/

namespace Felix86

namespace LongDivision

variable {b d1 d0 num next : ℕ}

/-- What the estimate `num / d1` takes away from the second digit on, and what is left there. -/
def taken (num d1 d0 : ℕ) : ℕ := num / d1 * d0

def left (b num d1 next : ℕ) : ℕ := num % d1 * b + next

/-- The estimate and its remainder make up the dividend. -/
theorem estimate_spec (b num d1 d0 next : ℕ) :
    num * b + next + taken num d1 d0 = num / d1 * (d1 * b + d0) + left b num d1 next := by
  have hdiv := Nat.div_add_mod num d1
  rw [taken, left]
  calc num * b + next + num / d1 * d0
      = (d1 * (num / d1) + num % d1) * b + next + num / d1 * d0 := by rw [hdiv]
    _ = num / d1 * (d1 * b + d0) + (num % d1 * b + next) := by ring

/-- The estimate is at most one more than the base. -/
theorem estimate_le (hnum : num < d1 * b + d0) (hd0 : d0 < b) (hnorm : b ≤ 2 * d1) :
    num / d1 ≤ b + 1 := by
  have hlt : num < d1 * (b + 2) := by
    calc num < d1 * b + d0 := hnum
      _ ≤ d1 * b + 2 * d1 := by omega
      _ = d1 * (b + 2) := by ring
  have hdiv := Nat.div_lt_of_lt_mul hlt
  omega

/-- So the product that it is compared by has two digits. -/
theorem taken_lt (hnum : num < d1 * b + d0) (hd0 : d0 < b) (hnorm : b ≤ 2 * d1) :
    taken num d1 d0 < b * b := by
  have hle := estimate_le hnum hd0 hnorm
  obtain ⟨c, rfl⟩ : ∃ c, b = c + 1 := ⟨b - 1, by omega⟩
  calc taken num d1 d0 ≤ (c + 1 + 1) * d0 := Nat.mul_le_mul_right _ hle
    _ ≤ (c + 1 + 1) * c := Nat.mul_le_mul_left _ (by omega)
    _ < (c + 1) * (c + 1) := by ring_nf; omega

/-- What is left is below the divisor already. -/
theorem left_lt (hd1 : 0 < d1) (hnext : next < b) : left b num d1 next < d1 * b := by
  have hmod := Nat.mod_lt num hd1
  calc left b num d1 next < num % d1 * b + b := Nat.add_lt_add_left hnext _
    _ = (num % d1 + 1) * b := by ring
    _ ≤ d1 * b := Nat.mul_le_mul_right _ hmod

theorem div_eq_of_add {n d q r : ℕ} (h : n = q * d + r) (hr : r < d) : n / d = q := by
  rw [h, Nat.mul_comm, Nat.mul_add_div (by omega), Nat.div_eq_of_lt hr, Nat.add_zero]

/-- What the estimate has too much, if the product takes more than is left. -/
def correction (b num d1 d0 next : ℕ) : ℕ :=
  if d1 * b + d0 < taken num d1 d0 - left b num d1 next then 2 else 1

/-- Twice the divisor is more than the product can take. -/
theorem taken_lt_double (hnum : num < d1 * b + d0) (hd0 : d0 < b) (hnorm : b ≤ 2 * d1) :
    taken num d1 d0 < 2 * (d1 * b + d0) := by
  have htaken := taken_lt hnum hd0 hnorm
  have hnorm2 : b * b ≤ 2 * (d1 * b) := by
    calc b * b ≤ 2 * d1 * b := Nat.mul_le_mul_right _ hnorm
      _ = 2 * (d1 * b) := by ring
  omega

theorem correction_le (hneg : left b num d1 next < taken num d1 d0) :
    correction b num d1 d0 next ≤ num / d1 := by
  have hspec := estimate_spec b num d1 d0 next
  rw [correction]
  generalize num / d1 = q, left b num d1 next = l, taken num d1 d0 = t at *
  by_contra hlt
  obtain hzero | hone : q = 0 ∨ q = 1 := by split at hlt <;> omega
  · rw [hzero, Nat.zero_mul] at hspec
    omega
  · rw [hone, Nat.one_mul] at hspec
    split at hlt <;> omega

/-- The estimate, corrected. -/
def digit (b num d1 d0 next : ℕ) : ℕ :=
  if left b num d1 next < taken num d1 d0 then num / d1 - correction b num d1 d0 next else num / d1

/-- The corrected estimate is the next digit of the quotient. -/
theorem digit_eq (hnum : num < d1 * b + d0) (hd0 : d0 < b) (hnorm : b ≤ 2 * d1) (hnext : next < b) :
    digit b num d1 d0 next = (num * b + next) / (d1 * b + d0) := by
  have hspec := estimate_spec b num d1 d0 next
  have hleft : left b num d1 next < d1 * b := left_lt (by omega) hnext
  have hdouble := taken_lt_double hnum hd0 hnorm
  rw [digit]
  symm
  split
  · next hneg =>
    have hle := correction_le hneg
    obtain ⟨m, hm⟩ := Nat.exists_eq_add_of_le' hle
    rw [hm, Nat.add_mul] at hspec
    rw [hm, Nat.add_sub_cancel]
    rw [correction] at hspec
    split at hspec
    · -- one more than the base at most, so two is enough
      exact @div_eq_of_add _ _ m (2 * (d1 * b + d0) + left b num d1 next - taken num d1 d0)
        (by omega) (by omega)
    · exact @div_eq_of_add _ _ m (d1 * b + d0 + left b num d1 next - taken num d1 d0)
        (by omega) (by omega)
  · exact @div_eq_of_add _ _ (num / d1) (left b num d1 next - taken num d1 d0) (by omega) (by omega)

/-- A digit of the quotient is one digit. -/
theorem digit_lt (hnum : num < d1 * b + d0) (hd0 : d0 < b) (hnorm : b ≤ 2 * d1) (hnext : next < b) :
    digit b num d1 d0 next < b := by
  rw [digit_eq hnum hd0 hnorm hnext]
  refine Nat.div_lt_of_lt_mul ?_
  calc num * b + next < (num + 1) * b := by rw [Nat.succ_mul]; omega
    _ ≤ (d1 * b + d0) * b := Nat.mul_le_mul_right _ hnum

/-- Two digits of a quotient, each from the remainder before it. -/
theorem div_two_digits (num n1 n0 : ℕ) {d : ℕ} (hd : 0 < d) :
    let rem := (num * b + n1) % d
    (num * b * b + n1 * b + n0) / d = (num * b + n1) / d * b + (rem * b + n0) / d ∧
      (num * b * b + n1 * b + n0) % d = (rem * b + n0) % d := by
  intro rem
  have hdiv := Nat.div_add_mod (num * b + n1) d
  have hsplit : num * b * b + n1 * b + n0 =
      rem * b + n0 + d * ((num * b + n1) / d * b) := by
    calc num * b * b + n1 * b + n0 = (num * b + n1) * b + n0 := by ring
      _ = (d * ((num * b + n1) / d) + rem) * b + n0 := by rw [hdiv]
      _ = rem * b + n0 + d * ((num * b + n1) / d * b) := by ring
  rw [hsplit, Nat.add_mul_div_left _ _ hd, Nat.add_mul_mod_self_left]
  exact ⟨Nat.add_comm _ _, rfl⟩

end LongDivision

end Felix86
