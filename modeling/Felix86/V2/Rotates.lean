import Felix86.V2.Shifts

/-!
# Rotations

The host rotates words and doublewords only, so the other rotations are put together from two
shifts. A count beyond the width of a byte or a word then shifts one of the two parts out entirely,
where it should have been taken modulo the width. `RCL` and `RCR` are loops that rotate by one,
through the carry flag; they take the modulus, but not their way around the flags when the count is
zero.
-/

namespace Felix86

namespace Jit

open Riscv X86

variable {ρ : Type*} (k : Config) (i : Insn)

/-! ## One after the other -/

section

variable {w : ℕ} (x : BitVec w) {n : ℕ}

theorem rotateLeft_succ (hn : n + 1 < w) :
    x.rotateLeft (n + 1) = (x.rotateLeft 1).rotateLeft n := by
  apply BitVec.eq_of_getLsbD_eq
  intro j hj
  have hmod : (n + 1) % w = n + 1 := Nat.mod_eq_of_lt hn
  have hmod1 : 1 % w = 1 := Nat.mod_eq_of_lt (by omega)
  have hmodn : n % w = n := Nat.mod_eq_of_lt (by omega)
  simp only [BitVec.getLsbD_rotateLeft, hmod, hmod1, hmodn, hj, decide_true, Bool.true_and]
  by_cases hlow : j < n
  · have hin : ¬ w - n + j < 1 ∧ w - n + j < w := by omega
    have hindex : w - n + j - 1 = w - (n + 1) + j := by omega
    simp [hlow, hin, hindex, Nat.lt_succ_of_lt hlow]
  · by_cases hnext : j = n
    · subst hnext
      have hindex : w - (j + 1) + j = w - 1 := by omega
      simp [hindex]
    · have hin : ¬ j < n + 1 ∧ ¬ j - n < 1 ∧ j - n < w := by omega
      have hindex : j - n - 1 = j - (n + 1) := by omega
      simp [hlow, hin, hindex]

theorem rotateRight_succ (hn : n + 1 < w) :
    x.rotateRight (n + 1) = (x.rotateRight 1).rotateRight n := by
  apply BitVec.eq_of_getLsbD_eq
  intro j hj
  have hmod : (n + 1) % w = n + 1 := Nat.mod_eq_of_lt hn
  have hmod1 : 1 % w = 1 := Nat.mod_eq_of_lt (by omega)
  have hmodn : n % w = n := Nat.mod_eq_of_lt (by omega)
  simp only [BitVec.getLsbD_rotateRight, hmod, hmod1, hmodn, hj, decide_true, Bool.true_and]
  by_cases hlow : j < w - (n + 1)
  · have hin : j < w - n ∧ n + j < w - 1 := by omega
    have hindex : 1 + (n + j) = n + 1 + j := by omega
    simp [hlow, hin, hindex]
  · by_cases hnext : j < w - n
    · have hin : ¬ n + j < w - 1 ∧ n + j < w := by omega
      have hindex : n + j - (w - 1) = j - (w - (n + 1)) := by omega
      simp [hlow, hnext, hin, hindex]
    · have hin : j - (w - n) < w - 1 := by omega
      have hindex : 1 + (j - (w - n)) = j - (w - (n + 1)) := by omega
      simp [hlow, hnext, hin, hindex]

end

/-! ## Through the carry flag -/

section

variable {w : ℕ} (a : BitVec w) (f : Bool)

theorem getLsbD_withCarry (j : ℕ) :
    (withCarry a f).getLsbD j = if j < w then a.getLsbD j else decide (j = w) && f := by
  rw [withCarry, BitVec.getLsbD_append]
  split
  · rfl
  · next hge =>
    rw [BitVec.getLsbD_ofBool]
    congr 1
    rw [decide_eq_decide]
    omega

theorem msb_withCarry : (withCarry a f).msb = f := by
  rw [BitVec.msb_eq_getLsbD_last, getLsbD_withCarry, if_neg (by omega)]
  simp

theorem setWidth_withCarry : (withCarry a f).setWidth w = a := by
  apply BitVec.eq_of_getLsbD_eq
  intro j hj
  rw [BitVec.getLsbD_setWidth, getLsbD_withCarry, if_pos hj]
  simp [hj]

theorem rotateLeft_withCarry (hw : 0 < w) :
    (withCarry a f).rotateLeft 1 =
      withCarry (a <<< 1 ||| (BitVec.ofBool f).setWidth w) a.msb := by
  apply BitVec.eq_of_getLsbD_eq
  intro j hj
  have hmod : 1 % (1 + w) = 1 := Nat.mod_eq_of_lt (by omega)
  simp only [BitVec.getLsbD_rotateLeft, hmod, getLsbD_withCarry, BitVec.getLsbD_or,
    BitVec.getLsbD_shiftLeft, BitVec.getLsbD_setWidth, BitVec.getLsbD_ofBool, hj, decide_true,
    Bool.true_and, BitVec.msb_eq_getLsbD_last]
  by_cases hzero : j = 0
  · subst hzero
    simp [hw]
  · have hnot : ¬ j < 1 := by omega
    by_cases hjw : j < w
    · have hprev : j - 1 < w := by omega
      simp [hzero, hjw, hprev]
    · have hlast : j = w := by omega
      subst hlast
      simp [hzero, hw]

theorem rotateRight_withCarry (hw : 0 < w) :
    (withCarry a f).rotateRight 1 =
      withCarry (a >>> 1 ||| (BitVec.ofBool f).setWidth w <<< (w - 1)) (a.getLsbD 0) := by
  apply BitVec.eq_of_getLsbD_eq
  intro j hj
  have hmod : 1 % (1 + w) = 1 := Nat.mod_eq_of_lt (by omega)
  simp only [BitVec.getLsbD_rotateRight, hmod, getLsbD_withCarry, BitVec.getLsbD_or,
    BitVec.getLsbD_shiftLeft, BitVec.getLsbD_ushiftRight, BitVec.getLsbD_setWidth,
    BitVec.getLsbD_ofBool, hj, decide_true, Bool.true_and]
  by_cases hlast : j = w
  · subst hlast
    simp [hw]
  · have hjw : j < w := by omega
    by_cases hprev : j = w - 1
    · have hone : ¬ 1 + j < w ∧ 1 + j = w ∧ ¬ j < w - 1 ∧ j - (w - 1) = 0 := by omega
      simp [hjw, hone, hw]
    · have hone : 1 + j < w ∧ j < w - 1 := by omega
      simp [hjw, hone]

end

section

variable {size : Size}

theorem rotateLeft_zero {w : ℕ} (x : BitVec w) : x.rotateLeft 0 = x := by
  have hzero : x >>> w = 0#w := BitVec.ushiftRight_eq_zero le_rfl
  rw [BitVec.rotateLeft_def, Nat.zero_mod, Nat.sub_zero, hzero, BitVec.or_zero,
    BitVec.shiftLeft_zero]

theorem rotateRight_zero {w : ℕ} (x : BitVec w) : x.rotateRight 0 = x := by
  rw [BitVec.rotateRight_def]
  simp

/-- The loop of `RCL` rotates the operand and the carry flag, whatever is above the operand. -/
theorem rclLoop_eq {n : ℕ} (hn : n ≤ size.bits) (dst : U64) (f : Bool) :
    low size (rclLoop size.bits n (dst, asFlag f)).1 =
        ((withCarry (low size dst) f).rotateLeft n).setWidth size.bits ∧
      (rclLoop size.bits n (dst, asFlag f)).2 =
        asFlag ((withCarry (low size dst) f).rotateLeft n).msb := by
  have hpos := size.le_bits
  induction n generalizing dst f with
  | zero => simp only [rclLoop, rotateLeft_zero, setWidth_withCarry, msb_withCarry, and_self]
  | succ n ih =>
    have hstep : low size ((dst <<< 1) ||| asFlag f) =
        (low size dst) <<< 1 ||| (BitVec.ofBool f).setWidth size.bits := by
      rw [low_or, low_shl, low_asFlag]
    rw [rclLoop, msb_eq_bit, rotateLeft_succ _ (by omega), rotateLeft_withCarry _ _ (by omega),
      ← hstep]
    exact ih (by omega) _ _

theorem rcrLoop_eq {n : ℕ} (hn : n ≤ size.bits) {dst : U64} (hdst : dst.toNat < 2 ^ size.bits)
    (f : Bool) :
    low size (rcrLoop size.bits n (dst, asFlag f)).1 =
        ((withCarry (low size dst) f).rotateRight n).setWidth size.bits ∧
      (rcrLoop size.bits n (dst, asFlag f)).2 =
        asFlag ((withCarry (low size dst) f).rotateRight n).msb := by
  have hpos := size.le_bits
  have hbits := size.bits_le
  induction n generalizing dst f with
  | zero => simp only [rcrLoop, rotateRight_zero, setWidth_withCarry, msb_withCarry, and_self]
  | succ n ih =>
    have hstep : low size ((dst >>> 1) ||| (asFlag f <<< (size.bits - 1))) =
        (low size dst) >>> 1 ||| (BitVec.ofBool f).setWidth size.bits <<< (size.bits - 1) := by
      rw [low_or, low_shl, low_shr hdst, low_asFlag]
    -- the carry flag goes in below the width
    have hlt : ((dst >>> 1) ||| (asFlag f <<< (size.bits - 1))).toNat < 2 ^ size.bits := by
      have hpow : 2 ^ size.bits = 2 ^ (size.bits - 1) * 2 := by
        rw [← Nat.pow_succ]
        congr 1
        omega
      rw [BitVec.toNat_or]
      refine Nat.or_lt_two_pow ?_ ?_
      · rw [toNat_shr]
        omega
      · have hf := f.toNat_lt
        rw [toNat_shl, toNat_asFlag]
        refine (Nat.mod_le _ _).trans_lt ?_
        have hmul := Nat.mul_le_mul_right (2 ^ (size.bits - 1)) (Nat.le_of_lt_succ hf)
        have hpos2 := Nat.two_pow_pos (size.bits - 1)
        omega
    rw [rcrLoop, and_one_eq, ← @getLsbD_low size dst 0 (by omega), rotateRight_succ _ (by omega),
      rotateRight_withCarry _ _ (by omega), ← hstep]
    exact ih (by omega) hlt _

end

/-! ## Counts -/

theorem toNat_signExtend_small (x : BitVec 32) (hx : x.toNat < 2 ^ 31) :
    (x.signExtend 64).toNat = x.toNat := by
  have hmsb : x.msb = false := by
    rw [BitVec.msb_eq_decide, decide_eq_false (Nat.not_le.mpr hx)]
  rw [BitVec.signExtend_eq_setWidth_of_msb_false hmsb, BitVec.toNat_setWidth,
    Nat.mod_eq_of_lt (by omega)]

theorem toNat_remuw_small {a b : U64} (ha : a.toNat < 2 ^ 31) (hb : b.toNat < 2 ^ 32)
    (hne : b ≠ 0) :
    (remuw a b).toNat = a.toNat % b.toNat := by
  have hlow (v : U64) (hv : v.toNat < 2 ^ 32) : (v.setWidth 32).toNat = v.toNat := by
    rw [BitVec.toNat_setWidth, Nat.mod_eq_of_lt hv]
  have hzero : b.setWidth 32 ≠ 0 := by
    intro h
    have h0 := congrArg BitVec.toNat h
    rw [hlow b hb] at h0
    exact hne (BitVec.eq_of_toNat_eq h0)
  have hrem : (a.setWidth 32 % b.setWidth 32).toNat = a.toNat % b.toNat := by
    rw [BitVec.toNat_umod, hlow a (by omega), hlow b hb]
  rw [remuw, half, if_neg hzero, toNat_signExtend_small _ ?_, hrem]
  rw [hrem]
  exact (Nat.mod_le _ _).trans_lt ha

theorem carryCount_eq (hwidth : i.width.bits = i.op0.size.bits) (hop : i.op1.Count) (c : Core ρ) :
    carryCount k i c = i.op1.count k i c % (1 + i.op0.size.bits) := by
  have hcount := variableCount_eq k i hwidth hop c
  have hlt := count_lt k i i.op1 c
  have hlt32 (h : i.op0.size.bits ≠ 64) : i.op1.count k i c < 32 := by
    rw [Operand.count, X86.maskCount, if_neg h]
    exact Nat.mod_lt _ (by decide)
  rw [← hcount, ← hwidth] at *
  generalize hv : variableCount k i i.width i.op1 c = v at *
  have hrem (n : ℕ) (hn : n < 2 ^ 32) (hne : BitVec.ofNat 64 n ≠ 0) :
      (remuw v (BitVec.ofNat 64 n)).toNat = v.toNat % n := by
    have htoNat : (BitVec.ofNat 64 n).toNat = n := by
      rw [BitVec.toNat_ofNat, Nat.mod_eq_of_lt (by omega)]
    rw [toNat_remuw_small (by omega) (htoNat.trans_lt hn) hne, htoNat]
  cases hw : i.width with
  | byte =>
    rw [hw] at hv
    simp only [carryCount, hw, hv]
    exact hrem 9 (by decide) (by decide)
  | byteHigh =>
    rw [hw] at hv
    simp only [carryCount, hw, hv]
    exact hrem 9 (by decide) (by decide)
  | word =>
    rw [hw] at hv
    simp only [carryCount, hw, hv]
    exact hrem 17 (by decide) (by decide)
  | dword =>
    have hsmall := hlt32 (by rw [hw]; decide)
    rw [hw] at hv
    simp only [carryCount, hw, hv, Size.bits]
    omega
  | qword =>
    rw [hw] at hv
    simp only [carryCount, hw, hv, Size.bits]
    omega

/-! ## Rotations from two shifts -/

section

variable {w : ℕ}

/-- The parts of a rotation to the left do not overlap. -/
theorem or_eq_right_iff (a : BitVec w) {n : ℕ} (hn : n ≤ w) :
    a >>> (w - n) = (a <<< n) ||| (a >>> (w - n)) ↔ a <<< n = 0#w := by
  constructor
  · intro h
    apply BitVec.eq_of_getLsbD_eq
    intro j hj
    have hbit := congrArg (fun x ↦ x.getLsbD j) h
    simp only [BitVec.getLsbD_or, BitVec.getLsbD_ushiftRight] at hbit
    by_cases hjn : j < n
    · rw [BitVec.getLsbD_shiftLeft]
      simp [hjn]
    · rw [BitVec.getLsbD_of_ge a (w - n + j) (by omega), Bool.or_false] at hbit
      rw [← hbit]
      exact BitVec.getLsbD_zero.symm
  · intro h
    rw [h, BitVec.zero_or]

theorem or_eq_left_iff (a : BitVec w) {n : ℕ} (hn : n ≤ w) :
    a <<< (w - n) = (a >>> n) ||| (a <<< (w - n)) ↔ a >>> n = 0#w := by
  constructor
  · intro h
    apply BitVec.eq_of_getLsbD_eq
    intro j hj
    have hbit := congrArg (fun x ↦ x.getLsbD j) h
    simp only [BitVec.getLsbD_or, BitVec.getLsbD_ushiftRight, BitVec.getLsbD_shiftLeft] at hbit
    rw [BitVec.getLsbD_ushiftRight]
    by_cases hjn : j < w - n
    · simp only [hjn, decide_true, Bool.not_true, Bool.and_false, Bool.false_and,
        Bool.or_false] at hbit
      rw [← hbit]
      exact BitVec.getLsbD_zero.symm
    · rw [BitVec.getLsbD_of_ge a _ (by omega)]
      exact BitVec.getLsbD_zero.symm
  · intro h
    rw [h, BitVec.zero_or]

theorem rotateLeft_of_shifts_iff (a : BitVec w) {c : ℕ} (hw : 0 < w) :
    a <<< c ||| a >>> ((w - c % w) % w) = a.rotateLeft c ↔
        (w < c → a <<< (c % w) = 0#w ∨ c % w = 0) := by
  have hlt := Nat.mod_lt c hw
  rw [BitVec.rotateLeft_def]
  by_cases hzero : c % w = 0
  · refine iff_of_true ?_ fun _ ↦ .inr hzero
    have hout : a >>> w = 0#w := BitVec.ushiftRight_eq_zero le_rfl
    rw [hzero, Nat.sub_zero, Nat.mod_self, hout, BitVec.or_zero, BitVec.shiftLeft_zero,
      BitVec.ushiftRight_zero]
    by_cases hc : c = 0
    · rw [hc, BitVec.shiftLeft_zero, BitVec.or_self]
    · have hle : w ≤ c := Nat.le_of_dvd (Nat.pos_of_ne_zero hc) (Nat.dvd_of_mod_eq_zero hzero)
      rw [BitVec.shiftLeft_eq_zero hle, BitVec.zero_or]
  · have hsub : (w - c % w) % w = w - c % w := Nat.mod_eq_of_lt (by omega)
    rw [hsub]
    by_cases hle : c < w
    · rw [Nat.mod_eq_of_lt hle]
      exact iff_of_true rfl fun h ↦ absurd hle (by omega)
    · have hgt : w < c := by
        rcases Nat.lt_or_eq_of_le (Nat.not_lt.mp hle) with h | h
        · exact h
        · exact absurd (h ▸ Nat.mod_self w) hzero
      rw [BitVec.shiftLeft_eq_zero (by omega), BitVec.zero_or, or_eq_right_iff a (by omega)]
      simp [hgt, hzero]

theorem rotateRight_of_shifts_iff (a : BitVec w) {c : ℕ} (hw : 0 < w) :
    a >>> c ||| a <<< ((w - c % w) % w) = a.rotateRight c ↔
        (w < c → a >>> (c % w) = 0#w ∨ c % w = 0) := by
  have hlt := Nat.mod_lt c hw
  rw [BitVec.rotateRight_def]
  by_cases hzero : c % w = 0
  · refine iff_of_true ?_ fun _ ↦ .inr hzero
    have hout : a <<< w = 0#w := BitVec.shiftLeft_eq_zero le_rfl
    rw [hzero, Nat.sub_zero, Nat.mod_self, hout, BitVec.or_zero, BitVec.shiftLeft_zero,
      BitVec.ushiftRight_zero]
    by_cases hc : c = 0
    · rw [hc, BitVec.ushiftRight_zero, BitVec.or_self]
    · have hle : w ≤ c := Nat.le_of_dvd (Nat.pos_of_ne_zero hc) (Nat.dvd_of_mod_eq_zero hzero)
      rw [BitVec.ushiftRight_eq_zero hle, BitVec.zero_or]
  · have hsub : (w - c % w) % w = w - c % w := Nat.mod_eq_of_lt (by omega)
    rw [hsub]
    by_cases hle : c < w
    · rw [Nat.mod_eq_of_lt hle]
      exact iff_of_true rfl fun h ↦ absurd hle (by omega)
    · have hgt : w < c := by
        rcases Nat.lt_or_eq_of_le (Nat.not_lt.mp hle) with h | h
        · exact h
        · exact absurd (h ▸ Nat.mod_self w) hzero
      rw [BitVec.ushiftRight_eq_zero (by omega), BitVec.zero_or, or_eq_left_iff a (by omega)]
      simp [hgt, hzero]

end

section

variable {size : Size} {dst count : U64} {c : ℕ}

/-- The other amount, by which a part that is not shifted out is shifted back. -/
theorem toNat_negCount (size : Size) (hc : count.toNat = c) (hlt : c < 64) :
    (-count &&& BitVec.ofNat 64 (size.bits - 1)).toNat =
    (size.bits - c % size.bits) % size.bits := by
  have hmask (n : ℕ) (hn : n ≤ 6) : (-count &&& BitVec.ofNat 64 (2 ^ n - 1)).toNat =
      (2 ^ 64 - c) % 2 ^ 64 % 2 ^ n := by
    rw [toNat_and_mask _ (by omega), BitVec.toNat_neg, hc]
  cases size with
  | byte => exact (hmask 3 (by decide)).trans (by simp only [Size.bits]; omega)
  | byteHigh => exact (hmask 3 (by decide)).trans (by simp only [Size.bits]; omega)
  | word => exact (hmask 4 (by decide)).trans (by simp only [Size.bits]; omega)
  | dword => exact (hmask 5 (by decide)).trans (by simp only [Size.bits]; omega)
  | qword => exact (hmask 6 (by decide)).trans (by simp only [Size.bits]; omega)

theorem low_rolValue (hdst : dst.toNat < 2 ^ size.bits) (hc : count.toNat = c) (hlt : c < 64) :
    low size (rolValue size dst count) =
      low size dst <<< c ||| low size dst >>> ((size.bits - c % size.bits) % size.bits) := by
  have hbits := size.bits_le
  have hneg := toNat_negCount size hc hlt
  have hpos := size.le_bits
  have hsmall : (size.bits - c % size.bits) % size.bits < 64 :=
    (Nat.mod_lt _ (by omega)).trans_le hbits
  rw [rolValue, low_or, sll, srl, hneg, hc, Nat.mod_eq_of_lt hlt, Nat.mod_eq_of_lt hsmall, low_shl,
    low_shr hdst]

end

/-! ## Flags and destination -/

section

variable {k i} {s : State ρ}

theorem does_unrotated : Does k i X86.unrotated s s := ⟨rfl, fun f ↦ by cases f <;> rfl⟩

theorem does_rotated_iff {c : ℕ} {r : BitVec i.op0.size.bits} {carry overflow : Bool}
    {result cf of : U64}
    (hop : i.op0.Place) :
    Does k i (X86.rotated c r carry overflow) s
        ((s.setFlag .cf cf |>.setFlag .of of).map (k.set i i.op0 result)) ↔
      low i.op0.size result = r ∧ cf = asFlag carry ∧ (c = 1 → of = asFlag overflow) := by
  have hflag (f : Flag) : ((s.setFlag .cf cf |>.setFlag .of of).map (k.set i i.op0 result)).flag f =
      if f = .of then of else if f = .cf then cf else s.flag f := by
    refine (State.flag_setFlag _ _ _ _).trans ?_
    rw [State.flag_setFlag]
    rfl
  constructor
  · rintro ⟨hcore, hflags⟩
    refine ⟨?_, (hflag .cf).symm.trans (hflags .cf), fun hone ↦ (hflag .of).symm.trans ?_⟩
    · exact (assign_inj k i hop).mp ((k.set_eq i hop result s.core).symm.trans hcore)
    · have hof := hflags .of
      simpa only [X86.rotated, Flags.get, hone, if_true, Effect.Holds] using hof
  · rintro ⟨rfl, rfl, hof⟩
    refine ⟨k.set_eq i hop result s.core, fun f ↦ ?_⟩
    rw [hflag]
    cases f
    case cf => rfl
    case of =>
      by_cases hone : c = 1
      · simp only [X86.rotated, Flags.get, hone, if_true]
        exact hof hone
      · simp only [X86.rotated, Flags.get, hone, if_false]
        trivial
    all_goals rfl

end

section

variable {size : Size} {v dst count : U64}

theorem eq_asFlag_of_lt (hv : v.toNat < 2) : v = asFlag (v.getLsbD 0) := by
  have hmod : (v &&& 1).toNat = v.toNat % 2 ^ 1 := toNat_and_mask v (show 1 ≤ 64 by decide)
  rw [← and_one_eq]
  exact BitVec.eq_of_toNat_eq (by omega)

theorem shr_last (hv : v.toNat < 2 ^ size.bits) :
    v >>> (size.bits - 1) = asFlag (low size v).msb := by
  have hpos := size.le_bits
  have hpow : 2 ^ size.bits = 2 ^ (size.bits - 1) * 2 := by
    rw [← Nat.pow_succ]
    congr 1
    omega
  have hlt : (v >>> (size.bits - 1)).toNat < 2 := by
    rw [toNat_shr, Nat.div_lt_iff_lt_mul (Nat.two_pow_pos _), Nat.mul_comm, ← hpow]
    exact hv
  rw [← msb_eq_bit, and_one_eq]
  exact eq_asFlag_of_lt hlt

/-- `OF` of `ROL` is what is left of the result above its sign, and that is more than a bit if the
sign of the operand has gone there. -/
theorem rolOverflow_iff (hdst : dst.toNat < 2 ^ size.bits) (hc : count.toNat = 1) :
    let result := rolValue size dst count
    (result >>> (size.bits - 1)) ^^^ (result &&& 1) =
        asFlag ((low size result).msb ^^ (low size result).getLsbD 0) ↔
      size = .qword ∨ (low size dst).msb = false := by
  intro result
  have hpos := size.le_bits
  have hbits := size.bits_le
  have hresult : result = (dst <<< 1) ||| (dst >>> (size.bits - 1)) := by
    have hneg := toNat_negCount size hc (by decide)
    have hmod : (size.bits - 1 % size.bits) % size.bits = size.bits - 1 := by
      rw [Nat.mod_eq_of_lt (show 1 < size.bits by omega), Nat.mod_eq_of_lt (by omega)]
    simp only [result, rolValue, sll, srl, hc, hneg, hmod]
    rw [Nat.mod_eq_of_lt (show size.bits - 1 < 64 by omega)]
  rw [and_one_eq, ← getLsbD_low result (show 0 < size.bits by omega)]
  constructor
  · intro h
    by_contra hnot
    obtain ⟨hq, hmsb⟩ := not_or.mp hnot
    have hlt : size.bits < 64 := by cases size <;> simp_all [Size.bits]
    -- the bit above the sign of the result
    have habove := congrArg (fun x ↦ x.getLsbD 1) h
    have hone : result.getLsbD (size.bits - 1 + 1) = true := by
      have hsub : size.bits - 1 + 1 = size.bits := by omega
      rw [hsub, hresult, BitVec.getLsbD_or, BitVec.getLsbD_shiftLeft]
      have hlast : dst.getLsbD (size.bits - 1) = true := by
        rw [← @getLsbD_low size dst _ (by omega), ← BitVec.msb_eq_getLsbD_last]
        simpa using hmsb
      have hge : ¬ size.bits < 1 := by omega
      simp [hlt, hge, hlast]
    have hflag (b : Bool) : (asFlag b).getLsbD 1 = false := by cases b <;> rfl
    simp only [BitVec.getLsbD_xor, BitVec.getLsbD_ushiftRight, hflag, hone,
      Bool.xor_false] at habove
    cases habove
  · intro h
    have hlt : result.toNat < 2 ^ size.bits := by
      obtain rfl | hmsb := h
      · exact result.isLt
      · have hsmall : dst.toNat < 2 ^ (size.bits - 1) := by
          have hlow : (low size dst).toNat = dst.toNat := by
            rw [toNat_low, Nat.mod_eq_of_lt hdst]
          rw [BitVec.msb_eq_decide, decide_eq_false_iff_not, hlow] at hmsb
          omega
        have hpow : 2 ^ size.bits = 2 ^ (size.bits - 1) * 2 := by
          rw [← Nat.pow_succ]
          congr 1
          omega
        rw [hresult, BitVec.toNat_or, toNat_shl, toNat_shr]
        refine Nat.or_lt_two_pow ((Nat.mod_le _ _).trans_lt (by omega)) ?_
        exact (Nat.div_le_self _ _).trans_lt hdst
    rw [shr_last hlt, asFlag_xor]

end

/-! ## Rotate instructions -/

inductive RotateOp
  | rol
  | ror
  | rcl
  | rcr
deriving DecidableEq, Repr

def RotateOp.mnemonic : RotateOp → Mnemonic ρ
  | .rol => .rol
  | .ror => .ror
  | .rcl => .rcl
  | .rcr => .rcr

/-- What the rotation does with its operand, the carry flag and the masked count. -/
def RotateOp.outcome {w : ℕ} (op : RotateOp) (a : BitVec w) (f : Bool) (c : ℕ) : Outcome w :=
  match op with
  | .rol => X86.rol a c
  | .ror => X86.ror a c
  | .rcl => X86.rcl a f c
  | .rcr => X86.rcr a f c

/-- What the rotation should do with the operand and the count it finds. -/
def RotateOp.expected (op : RotateOp) (c : Core ρ) (carry : Bool) : Outcome i.op0.size.bits :=
  op.outcome (i.op0.value k i i.op0.size.bits c) carry (i.op1.count k i c)

/-- `OF` already is what `RCL` and `RCR` write for a count of zero, and there is no upper half that
they clear. -/
def ZeroKeeps (s : State ρ) (a : BitVec i.op0.size.bits) (carry : Bool) : Prop :=
  s.flag .of = asFlag (a.msb ^^ carry) ∧ ∀ r, i.op0 = .reg r .dword → Low32 (s.core.gpr r)

/-- Beyond the width, the part that `ROL` or `ROR` shifts out has to be zero, unless the count is a
multiple of the width. -/
def RotateOp.Right (op : RotateOp) (s : State ρ) (carry : Bool) : Prop :=
  let w := i.op0.size.bits
  let a := i.op0.value k i w s.core
  let c := i.op1.count k i s.core
  match op with
  | .rol => (w < c → a <<< (c % w) = 0#w ∨ c % w = 0) ∧
      (c = 1 → i.op0.size = .qword ∨ a.msb = false)
  | .ror => w < c → a >>> (c % w) = 0#w ∨ c % w = 0
  | .rcl => c = 0 → ZeroKeeps i s a carry
  | .rcr => c = 0 → ZeroKeeps i s a carry

section

variable {k i} {s : State ρ} {c : ℕ}

theorem fastRol_live (hcount : variableCount k i i.op0.size i.op1 s.core ≠ 0) :
    fastRol k i live s =
      let size := i.op0.size
      let result := rolValue size (k.get i i.op0 s.core) (variableCount k i size i.op1 s.core)
      (s.setFlag .cf (result &&& 1) |>.setFlag .of
        ((result >>> (size.bits - 1)) ^^^ (result &&& 1))).map (k.set i i.op0 result) := by
  simp only [fastRol, live, if_neg hcount, Bool.true_or, Bool.not_true, Bool.and_false,
    Bool.false_eq_true, if_false]

theorem does_fastRol_iff (hop : i.op0.Place) (hz : k.mode32 → Zext s.core)
    (hc : (variableCount k i i.op0.size i.op1 s.core).toNat = c) (hne : c ≠ 0) (hlt : c < 64) :
    Does k i (X86.rol (i.op0.value k i i.op0.size.bits s.core) c) s (fastRol k i live s) ↔
      (i.op0.size.bits < c → i.op0.value k i i.op0.size.bits s.core <<< (c % i.op0.size.bits) =
        BitVec.ofNat i.op0.size.bits 0 ∨ c % i.op0.size.bits = 0) ∧
      (c = 1 → i.op0.size = .qword ∨ (i.op0.value k i i.op0.size.bits s.core).msb = false) := by
  have hdst := get_place_lt k i hz hop
  have hpos := i.op0.size.le_bits
  have hcount : variableCount k i i.op0.size i.op1 s.core ≠ 0 := by
    rintro h
    rw [h] at hc
    exact hne hc.symm
  rw [fastRol_live hcount, X86.rol, if_neg hne, value_eq hop,
    ← rotateLeft_of_shifts_iff _ (by omega), ← low_rolValue hdst hc hlt]
  refine (does_rotated_iff hop).trans (and_congr_right fun hvalue ↦ ?_)
  rw [← hvalue, and_one_eq, getLsbD_low _ (by omega)]
  refine (and_iff_right rfl).trans (imp_congr_right fun hone ↦ ?_)
  have hover := rolOverflow_iff hdst (hc.trans hone)
  simp only [and_one_eq] at hover
  rw [← hover, getLsbD_low _ (by omega)]

theorem does_fastRor_iff (hop : i.op0.Place) (hz : k.mode32 → Zext s.core)
    (hc : (variableCount k i i.op0.size i.op1 s.core).toNat = c) (hne : c ≠ 0) (hlt : c < 64) :
    Does k i (X86.ror (i.op0.value k i i.op0.size.bits s.core) c) s (fastRor k i s) ↔
      (i.op0.size.bits < c → i.op0.value k i i.op0.size.bits s.core >>> (c % i.op0.size.bits) =
        BitVec.ofNat i.op0.size.bits 0 ∨ c % i.op0.size.bits = 0) := by
  have hdst := get_place_lt k i hz hop
  have hpos := i.op0.size.le_bits
  have hbits := i.op0.size.bits_le
  have hcount : variableCount k i i.op0.size i.op1 s.core ≠ 0 := by
    rintro h
    rw [h] at hc
    exact hne hc.symm
  have hneg := toNat_negCount i.op0.size hc hlt
  have hsmall : (i.op0.size.bits - c % i.op0.size.bits) % i.op0.size.bits < 64 :=
    (Nat.mod_lt _ (by omega)).trans_le hbits
  set count := variableCount k i i.op0.size i.op1 s.core with hcountDef
  have hresult : low i.op0.size (srl (k.get i i.op0 s.core) count |||
        sll (k.get i i.op0 s.core) (-count &&& BitVec.ofNat 64 (i.op0.size.bits - 1))) =
      low i.op0.size (k.get i i.op0 s.core) >>> c |||
        low i.op0.size (k.get i i.op0 s.core) <<<
          ((i.op0.size.bits - c % i.op0.size.bits) % i.op0.size.bits) := by
    rw [low_or, sll, srl, hneg, hc, Nat.mod_eq_of_lt hlt, Nat.mod_eq_of_lt hsmall, low_shl,
      low_shr hdst]
  simp only [fastRor, ← hcountDef, if_neg hcount]
  rw [X86.ror, if_neg hne, value_eq hop, ← rotateRight_of_shifts_iff _ (by omega), ← hresult]
  refine (does_rotated_iff hop).trans (and_iff_left_of_imp fun hvalue ↦ ?_)
  rw [← hvalue, msb_eq_bit, bit_eq, asFlag_xor, getLsbD_low _ (by omega)]
  exact ⟨rfl, fun _ ↦ rfl⟩

/-- What `RCL` leaves. -/
theorem fastRcl_live :
    fastRcl k i live s =
      let p := rclLoop i.width.bits (carryCount k i s.core) (k.get i i.op0 s.core, s.flag .cf)
      (s.setFlag .cf p.2 |>.setFlag .of (((p.1 >>> (i.width.bits - 1)) &&& 1) ^^^ p.2)).map
        (k.set i i.op0 p.1) := rfl

theorem fastRcr_live :
    fastRcr k i live s =
      let dst := k.get i i.op0 s.core
      let p := rcrLoop i.width.bits (carryCount k i s.core) (dst, s.flag .cf)
      (s.setFlag .cf p.2 |>.setFlag .of (((dst >>> (i.width.bits - 1)) &&& 1) ^^^ s.flag .cf)).map
        (k.set i i.op0 p.1) := by
  refine State.ext (by simp [fastRcr]) fun f ↦ ?_
  cases f <;> simp [fastRcr, State.map, State.emit, live, State.flag_setFlag]

/-- Writing a 32-bit register back clears its upper half. -/
theorem setDword_iff {r : Ref} {c : Core ρ} {v : U64} (hv : low .dword v = low .dword (c.gpr r)) :
    k.set i (.reg r .dword) v c = c ↔ Low32 (c.gpr r) := by
  have hnat : (k.merge .dword (c.gpr r) v).toNat = (c.gpr r).toNat % 2 ^ 32 := by
    rw [k.toNat_merge_dword]
    exact (toNat_low .dword v).symm.trans ((congrArg BitVec.toNat hv).trans (toNat_low .dword _))
  rw [low32_iff]
  constructor
  · intro h
    have hreg := congrFun (congrArg Core.gpr h) r
    simp only [Config.set, Config.setRef, Core.write, Function.update_self] at hreg
    rw [hreg] at hnat
    omega
  · intro hlow
    have hsame : k.merge .dword (c.gpr r) v = c.gpr r := BitVec.eq_of_toNat_eq (by omega)
    refine (congrArg (c.write r) hsame).trans ?_
    rw [Core.write, Function.update_eq_self]

/-- A count of zero leaves the operand, and both flags if `OF` happens to be right. -/
theorem does_zero_iff {carry : Bool} {result of : U64} (hop : i.op0.Place)
    (hcarry : s.flag .cf = asFlag carry)
    (hresult : low i.op0.size result = i.op0.value k i i.op0.size.bits s.core) :
    Does k i X86.unrotated s
        ((s.setFlag .cf (asFlag carry) |>.setFlag .of of).map (k.set i i.op0 result)) ↔
      s.flag .of = of ∧ ∀ r, i.op0 = .reg r .dword → Low32 (s.core.gpr r) := by
  have hflag (f : Flag) :
      ((s.setFlag .cf (asFlag carry) |>.setFlag .of of).map (k.set i i.op0 result)).flag f =
        if f = .of then of else s.flag f := by
    refine (State.flag_setFlag _ _ _ _).trans ?_
    rw [State.flag_setFlag]
    by_cases hf : f = .cf
    · subst hf
      exact hcarry.symm
    · rw [if_neg hf]
      rfl
  have hset : k.set i i.op0 result s.core =
      i.op0.assign k i (i.op0.value k i i.op0.size.bits s.core) s.core := by
    rw [k.set_eq i hop, hresult]
  have hcore : k.set i i.op0 result s.core = s.core ↔
      ∀ r, i.op0 = .reg r .dword → Low32 (s.core.gpr r) := by
    by_cases hdword : ∃ r, i.op0 = .reg r .dword
    · obtain ⟨r, hr⟩ := hdword
      rw [hr] at hresult ⊢
      rw [setDword_iff (hresult.trans (BitVec.setWidth_eq _))]
      exact ⟨fun h r' hr' ↦ by cases hr'; exact h, fun h ↦ h r rfl⟩
    · rw [hset]
      exact iff_of_true (assign_value hop fun r h ↦ hdword ⟨r, h⟩) fun r h ↦ absurd ⟨r, h⟩ hdword
  constructor
  · intro h
    exact ⟨(h.flag .of).symm.trans (hflag .of), hcore.mp h.core⟩
  · rintro ⟨hof, hlow⟩
    refine ⟨hcore.mpr hlow, fun f ↦ ?_⟩
    have hkeep : Flags.get (@X86.unrotated i.op0.size.bits).flags f = .keep := by cases f <;> rfl
    rw [hkeep, hflag]
    split
    · next h => exact h ▸ hof.symm
    · rfl

end

section

variable {k i} {s : State ρ} {c : ℕ} {carry : Bool}

/-- Whatever the count, `RCL` leaves the rotated operand and the rotated carry flag. -/
theorem rclLoop_carryCount (hop : ShiftOperands i) (hcarry : s.flag .cf = asFlag carry)
    (hc : i.op1.count k i s.core = c) :
    let x := (withCarry (i.op0.value k i i.op0.size.bits s.core) carry).rotateLeft c
    let p := rclLoop i.width.bits (carryCount k i s.core) (k.get i i.op0 s.core, s.flag .cf)
    low i.op0.size p.1 = x.setWidth i.op0.size.bits ∧ p.2 = asFlag x.msb := by
  obtain ⟨hplace, hwidth, hcl⟩ := hop
  have hcount := carryCount_eq k i hwidth hcl s.core
  rw [hc] at hcount
  have hle : c % (1 + i.op0.size.bits) ≤ i.op0.size.bits := by
    have hlt := Nat.mod_lt c (show 0 < 1 + i.op0.size.bits by omega)
    omega
  intro x p
  have hloop := rclLoop_eq hle (k.get i i.op0 s.core) carry
  rw [BitVec.rotateLeft_mod_eq_rotateLeft, ← value_eq hplace] at hloop
  simp only [p, hwidth, hcount, hcarry]
  exact hloop

theorem rcrLoop_carryCount (hop : ShiftOperands i) (hz : k.mode32 → Zext s.core)
    (hcarry : s.flag .cf = asFlag carry) (hc : i.op1.count k i s.core = c) :
    let x := (withCarry (i.op0.value k i i.op0.size.bits s.core) carry).rotateRight c
    let p := rcrLoop i.width.bits (carryCount k i s.core) (k.get i i.op0 s.core, s.flag .cf)
    low i.op0.size p.1 = x.setWidth i.op0.size.bits ∧ p.2 = asFlag x.msb := by
  obtain ⟨hplace, hwidth, hcl⟩ := hop
  have hcount := carryCount_eq k i hwidth hcl s.core
  rw [hc] at hcount
  have hle : c % (1 + i.op0.size.bits) ≤ i.op0.size.bits := by
    have hlt := Nat.mod_lt c (show 0 < 1 + i.op0.size.bits by omega)
    omega
  intro x p
  have hloop := rcrLoop_eq hle (get_place_lt k i hz hplace) carry
  rw [BitVec.rotateRight_mod_eq_rotateRight, ← value_eq hplace] at hloop
  simp only [p, hwidth, hcount, hcarry]
  exact hloop

theorem does_fastRcl_iff (hop : ShiftOperands i) (hcarry : s.flag .cf = asFlag carry)
    (hc : i.op1.count k i s.core = c) :
    Does k i (X86.rcl (i.op0.value k i i.op0.size.bits s.core) carry c) s (fastRcl k i live s) ↔
      (c = 0 → ZeroKeeps i s (i.op0.value k i i.op0.size.bits s.core) carry) := by
  obtain ⟨hresult, hcf⟩ := rclLoop_carryCount hop hcarry hc
  obtain ⟨hplace, hwidth, -⟩ := hop
  rw [fastRcl_live]
  generalize rclLoop i.width.bits (carryCount k i s.core) (k.get i i.op0 s.core, s.flag .cf) =
    p at *
  simp only [hwidth, msb_eq_bit, hcf, hresult, asFlag_xor]
  by_cases hzero : c = 0
  · subst hzero
    simp only [rotateLeft_zero, setWidth_withCarry, msb_withCarry] at hresult ⊢
    rw [X86.rcl, if_pos rfl, forall_const]
    exact does_zero_iff hplace hcarry hresult
  · rw [X86.rcl, if_neg hzero]
    refine iff_of_true ?_ fun h ↦ absurd h hzero
    exact (does_rotated_iff hplace).mpr ⟨hresult, rfl, fun _ ↦ rfl⟩

theorem does_fastRcr_iff (hop : ShiftOperands i) (hz : k.mode32 → Zext s.core)
    (hcarry : s.flag .cf = asFlag carry) (hc : i.op1.count k i s.core = c) :
    Does k i (X86.rcr (i.op0.value k i i.op0.size.bits s.core) carry c) s (fastRcr k i live s) ↔
      (c = 0 → ZeroKeeps i s (i.op0.value k i i.op0.size.bits s.core) carry) := by
  obtain ⟨hresult, hcf⟩ := rcrLoop_carryCount hop hz hcarry hc
  obtain ⟨hplace, hwidth, -⟩ := hop
  rw [fastRcr_live]
  dsimp only
  generalize rcrLoop i.width.bits (carryCount k i s.core) (k.get i i.op0 s.core, s.flag .cf) =
    p at *
  simp only [hwidth, msb_eq_bit, hcf, hcarry, ← value_eq hplace, asFlag_xor]
  by_cases hzero : c = 0
  · subst hzero
    simp only [rotateRight_zero, setWidth_withCarry, msb_withCarry] at hresult ⊢
    rw [X86.rcr, if_pos rfl, forall_const]
    exact does_zero_iff hplace hcarry hresult
  · rw [X86.rcr, if_neg hzero]
    refine iff_of_true ?_ fun h ↦ absurd h hzero
    exact (does_rotated_iff hplace).mpr ⟨hresult, rfl, fun _ ↦ rfl⟩

/-- A zero count of `ROL` or `ROR` is seen before anything is done. -/
theorem exec_zero_rotate {op : RotateOp} (hop : op = .rol ∨ op = .ror)
    (hcount : variableCount k i i.op0.size i.op1 s.core = 0) :
    Instr.exec k live ⟨op.mnemonic, i⟩ s = some s := by
  obtain rfl | rfl := hop
  · refine congrArg some ?_
    simp only [fastRol, live, hcount, if_true, Bool.true_or, Bool.not_true, Bool.and_false,
      Bool.false_eq_true, if_false]
  · refine congrArg some ?_
    simp only [fastRor, hcount, if_true]

end

/-- With all flags live a rotation does what the manual says, for every count and every form of the
operands, except for a count of a byte or a word above its width whose excess shifts out a bit, for
`OF` after `ROL` by one of an operand below the registers' size whose sign is set, and for a count
of zero, for which `RCL` and `RCR` write `OF` and a 32-bit register all the same. -/
theorem rotate_iff (op : RotateOp) (s : State ρ) {carry : Bool} (hop : ShiftOperands i)
    (hz : k.mode32 → Zext s.core) (hcarry : s.flag .cf = asFlag carry) :
    (∃ s', Instr.exec k live ⟨op.mnemonic, i⟩ s = some s' ∧
      Does k i (op.expected k i s.core carry) s s') ↔ op.Right k i s carry := by
  have hcount := variableCount_eq k i rfl hop.2.2 s.core
  have hlt := count_lt k i i.op1 s.core
  have hexec : Instr.exec k live ⟨op.mnemonic, i⟩ s = some (match op with
      | .rol => fastRol k i live s
      | .ror => fastRor k i s
      | .rcl => fastRcl k i live s
      | .rcr => fastRcr k i live s) := by
    cases op <;> rfl
  cases op with
  | rcl =>
    simp only [hexec, Option.some_inj, exists_eq_left']
    exact does_fastRcl_iff hop hcarry rfl
  | rcr =>
    simp only [hexec, Option.some_inj, exists_eq_left']
    exact does_fastRcr_iff hop hz hcarry rfl
  | rol =>
    by_cases hzero : i.op1.count k i s.core = 0
    · have hskip := exec_zero_rotate (s := s) (.inl rfl)
        (BitVec.eq_of_toNat_eq (hcount.trans hzero))
      rw [hskip]
      simp only [Option.some_inj, exists_eq_left', RotateOp.expected, RotateOp.outcome,
        RotateOp.Right, hzero, X86.rol, if_true]
      exact iff_of_true does_unrotated ⟨fun h ↦ absurd h (Nat.not_lt_zero _), fun h ↦ by omega⟩
    · simp only [hexec, Option.some_inj, exists_eq_left']
      exact does_fastRol_iff hop.1 hz hcount hzero hlt
  | ror =>
    by_cases hzero : i.op1.count k i s.core = 0
    · have hskip := exec_zero_rotate (s := s) (.inr rfl)
        (BitVec.eq_of_toNat_eq (hcount.trans hzero))
      rw [hskip]
      simp only [Option.some_inj, exists_eq_left', RotateOp.expected, RotateOp.outcome,
        RotateOp.Right, hzero, X86.ror, if_true]
      exact iff_of_true does_unrotated fun h ↦ absurd h (Nat.not_lt_zero _)
    · simp only [hexec, Option.some_inj, exists_eq_left']
      exact does_fastRor_iff hop.1 hz hcount hzero hlt

/-- A rotation of `AL` by an immediate. -/
def rotateLow (m : Mnemonic Unit) (v : U64) : Insn :=
  (m.on .byte (.reg rax .byte) (.imm v .byte)).insn

theorem rotate_iff_rorLow :
    (∃ s', Instr.exec (.default false) live ⟨RotateOp.ror.mnemonic, rotateLow .ror 3⟩
        (State.withReg rax 0x81) = some s' ∧
      Does (.default false) (rotateLow .ror 3)
        (RotateOp.expected (.default false) (rotateLow .ror 3) .ror
          (State.withReg rax 0x81).core false)
        (.withReg rax 0x81) s') ↔
      RotateOp.Right (.default false) (rotateLow .ror 3) .ror (.withReg rax 0x81) false :=
  rotate_iff (.default false) (rotateLow .ror 3) .ror (.withReg rax 0x81) ⟨trivial, rfl, trivial⟩
    (fun h ↦ absurd h (by decide)) rfl

/-- A rotation of `AL` to the left by nine should be one by one, but the bit is lost. -/
theorem not_does_rolLow :
    ¬ ∃ s', Instr.exec (.default false) live ⟨RotateOp.rol.mnemonic, rotateLow .rol 9⟩
        (State.withReg rax 1) = some s' ∧
      Does (.default false) (rotateLow .rol 9)
        (RotateOp.expected (.default false) (rotateLow .rol 9) .rol
          (State.withReg rax 1).core false)
        (.withReg rax 1) s' := by
  rintro ⟨s', hexec, hdoes⟩
  have hrax : s'.core.gpr rax = 2 := (congrArg (fun c ↦ c.gpr rax) hdoes.core).trans (by decide)
  have hlost := congrArg (fun t ↦ t.map fun s ↦ s.core.gpr rax) hexec
  rw [Option.map_some, hrax] at hlost
  revert hlost
  decide

end Jit

end Felix86
