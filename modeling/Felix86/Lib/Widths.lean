import Mathlib.Tactic

/-!
# Integers of two widths

A value is moved between a narrow and a wide field. On the way up it is extended, and with the
narrow field unsigned, signed, or with a greatest value that stands for infinity, there is one
extension that means the same. On the way down it is cut. Cutting undoes every extension; it is
saturation exactly where the value fits, or where the cut value happens to be the bound.
-/

namespace Felix86

namespace Widths

variable {m n : ℕ}

/-- The narrow field keeps what fits, and otherwise has its greatest value. -/
def saturateUnsigned (n : ℕ) (x : BitVec m) : BitVec n :=
  if x.toNat < 2 ^ n then x.setWidth n else BitVec.allOnes n

/-- The narrow field keeps what fits as a signed number, and otherwise has the nearest bound. -/
def saturateSigned (n : ℕ) (x : BitVec m) : BitVec n :=
  if x.toInt < -2 ^ (n - 1) then BitVec.intMin n
  else if 2 ^ (n - 1) ≤ x.toInt then BitVec.intMax n
  else x.setWidth n

/-- The greatest value of the narrow field stands for that of the wide one. -/
def extendLimit (m : ℕ) (x : BitVec n) : BitVec m :=
  if x = BitVec.allOnes n then BitVec.allOnes m else x.setWidth m

/-- Cutting to an unsigned field saturates. -/
def FitsUnsigned (n : ℕ) (x : BitVec m) : Prop := x.toNat < 2 ^ n ∨ x.setWidth n = BitVec.allOnes n

/-- Cutting to a signed field saturates. -/
def FitsSigned (n : ℕ) (x : BitVec m) : Prop :=
  (x.toInt < -2 ^ (n - 1) → x.setWidth n = BitVec.intMin n) ∧
    (2 ^ (n - 1) ≤ x.toInt → x.setWidth n = BitVec.intMax n)

theorem setWidth_eq_saturateUnsigned_iff (x : BitVec m) :
    x.setWidth n = saturateUnsigned n x ↔ FitsUnsigned n x := by
  rw [saturateUnsigned, FitsUnsigned]
  by_cases h : x.toNat < 2 ^ n
  · rw [if_pos h]
    exact iff_of_true rfl (.inl h)
  · rw [if_neg h]
    exact ⟨.inr, fun h' ↦ h'.resolve_left h⟩

theorem setWidth_eq_saturateSigned_iff (x : BitVec m) :
    x.setWidth n = saturateSigned n x ↔ FitsSigned n x := by
  have hpos : (0 : ℤ) < 2 ^ (n - 1) := by positivity
  rw [saturateSigned, FitsSigned]
  by_cases hlow : x.toInt < -2 ^ (n - 1)
  · rw [if_pos hlow]
    exact ⟨fun h ↦ ⟨fun _ ↦ h, fun hhigh ↦ by omega⟩, fun h ↦ h.1 hlow⟩
  · rw [if_neg hlow]
    by_cases hhigh : 2 ^ (n - 1) ≤ x.toInt
    · rw [if_pos hhigh]
      exact ⟨fun h ↦ ⟨fun h' ↦ absurd h' hlow, fun _ ↦ h⟩, fun h ↦ h.2 hhigh⟩
    · rw [if_neg hhigh]
      exact iff_of_true rfl ⟨fun h' ↦ absurd h' hlow, fun h' ↦ absurd h' hhigh⟩

theorem setWidth_extend (h : n ≤ m) (x : BitVec n) : (x.setWidth m).setWidth n = x := by
  rw [BitVec.setWidth_setWidth_of_le x h, BitVec.setWidth_eq]

theorem setWidth_signExtend (h : n ≤ m) (x : BitVec n) : (x.signExtend m).setWidth n = x := by
  apply BitVec.eq_of_getLsbD_eq
  intro i hi
  rw [BitVec.getLsbD_setWidth, BitVec.getLsbD_signExtend]
  simp [hi, lt_of_lt_of_le hi h]

/-- Extending with zeros is right for a signed field as long as the value is not negative. -/
theorem setWidth_eq_signExtend_iff (h : n < m) (x : BitVec n) :
    x.setWidth m = x.signExtend m ↔ x.msb = false := by
  constructor
  · intro heq
    have hbit : (x.setWidth m).getLsbD n = (x.signExtend m).getLsbD n := by rw [heq]
    rw [BitVec.getLsbD_setWidth, BitVec.getLsbD_signExtend, BitVec.getLsbD_of_ge x n le_rfl,
      if_neg (lt_irrefl n), decide_eq_true h, Bool.true_and] at hbit
    exact hbit.symm
  · intro hmsb
    exact (BitVec.signExtend_eq_setWidth_of_msb_false hmsb).symm

/-- Extending with the sign is right for a limit that is infinite or not negative. -/
theorem signExtend_eq_extendLimit_iff (hn : 0 < n) (h : n < m) (x : BitVec n) :
    x.signExtend m = extendLimit m x ↔ x.msb = false ∨ x = BitVec.allOnes n := by
  rw [extendLimit]
  by_cases hones : x = BitVec.allOnes n
  · rw [if_pos hones]
    refine iff_of_true ?_ (.inr hones)
    apply BitVec.eq_of_getLsbD_eq
    intro i hi
    rw [BitVec.getLsbD_signExtend, hones, BitVec.getLsbD_allOnes, BitVec.getLsbD_allOnes,
      BitVec.msb_allOnes hn]
    by_cases hlow : i < n <;> simp [hlow]
  · rw [if_neg hones, eq_comm, setWidth_eq_signExtend_iff h]
    exact ⟨.inl, fun h' ↦ h'.resolve_right hones⟩

/-! ## Two halves -/

/-- Two fields together. -/
theorem shl_or_eq_append (high low : BitVec 32) :
    (high.setWidth 64 <<< 32) ||| low.setWidth 64 = high ++ low := by
  apply BitVec.eq_of_getLsbD_eq
  intro i hi
  rw [BitVec.getLsbD_or, BitVec.getLsbD_shiftLeft, BitVec.getLsbD_setWidth, BitVec.getLsbD_setWidth,
    BitVec.getLsbD_append]
  by_cases hlow : i < 32
  · simp [hlow, hi]
  · have hhigh : low.getLsbD i = false := BitVec.getLsbD_of_ge low i (by omega)
    simp [hlow, hi, hhigh]
    omega

theorem halves_append (high low : BitVec 32) :
    (high ++ low : BitVec 64).setWidth 32 = low ∧ ((high ++ low : BitVec 64) >>> 32).setWidth 32 =
    high := by
  constructor
  · apply BitVec.eq_of_getLsbD_eq
    intro i hi
    rw [BitVec.getLsbD_setWidth, BitVec.getLsbD_append]
    simp [hi]
  · apply BitVec.eq_of_getLsbD_eq
    intro i hi
    rw [BitVec.getLsbD_setWidth, BitVec.getLsbD_ushiftRight, BitVec.getLsbD_append]
    simp [hi]

theorem append_halves (x : BitVec 64) :
    ((x >>> 32).setWidth 32 ++ x.setWidth 32 : BitVec 64) = x := by
  apply BitVec.eq_of_getLsbD_eq
  intro i hi
  rw [BitVec.getLsbD_append, BitVec.getLsbD_setWidth, BitVec.getLsbD_setWidth,
    BitVec.getLsbD_ushiftRight]
  by_cases hlow : i < 32
  · simp [hlow]
  · simp [hlow, show i - 32 < 32 by omega, show 32 + (i - 32) = i by omega]

end Widths

end Felix86
