import Felix86.Hle.SignalContext
import Felix86.Lib.Truncation

/-!
# The 80-bit format

`f64_to_80` and `f80_to_64` move bit fields. What the fields mean is said here with rational
numbers, and the two functions are compared with it.

An exponent that does not fit the eleven bits of a double is not noticed: its low twelve bits are
put over the sign and the exponent. Neither function moves the first bit of a subnormal number to
where the other format has it. `float80_iff` says which patterns come back, which are the same
number, which are narrowed as they should be, and which keep their place in the order.
-/

namespace Felix86

open Truncation

/-- The number of a sign, a significand and the weight of its last bit. -/
def signedValue (sign : Bool) (significand : ℕ) (k : ℤ) : ℚ :=
  (if sign then -1 else 1) * (significand * 2 ^ k)

/-! ## The fields of a double -/

namespace Double

variable (d : BitVec 64)

def sign : Bool := d.getLsbD 63

def exponent : ℕ := d.toNat / 2 ^ 52 % 2 ^ 11

def fraction : ℕ := d.toNat % 2 ^ 52

def IsFinite : Prop := exponent d < 2047

def IsInfinite : Prop := exponent d = 2047 ∧ fraction d = 0

def IsNaN : Prop := exponent d = 2047 ∧ fraction d ≠ 0

def IsSubnormal : Prop := exponent d = 0 ∧ fraction d ≠ 0

def IsLargest : Prop := exponent d = 2046 ∧ fraction d = 2 ^ 52 - 1

instance : Decidable (IsFinite d) := inferInstanceAs (Decidable (_ < _))

instance : Decidable (IsInfinite d) := inferInstanceAs (Decidable (_ ∧ _))

instance : Decidable (IsNaN d) := inferInstanceAs (Decidable (_ ∧ _))

instance : Decidable (IsSubnormal d) := inferInstanceAs (Decidable (_ ∧ _))

instance : Decidable (IsLargest d) := inferInstanceAs (Decidable (_ ∧ _))

/-- The number of a finite double. Without an exponent there is no hidden bit. -/
def value : ℚ :=
  signedValue (sign d) (if exponent d = 0 then fraction d else 2 ^ 52 + fraction d)
    (max (exponent d) 1 - 1075)

theorem exponent_lt : exponent d < 2048 := Nat.mod_lt _ (by norm_num)

theorem fraction_lt : fraction d < 2 ^ 52 := Nat.mod_lt _ (by norm_num)

variable {d}

theorem sign_iff : sign d = true ↔ 2 ^ 63 ≤ d.toNat := by
  have hmsb := BitVec.msb_eq_decide d
  rw [BitVec.msb_eq_getLsbD_last] at hmsb
  rw [sign, hmsb, decide_eq_true_iff]

/-- The three fields are all there is. -/
theorem eq_of_fields {d d' : BitVec 64} (hs : sign d = sign d') (he : exponent d = exponent d')
    (hf : fraction d = fraction d') : d = d' := by
  apply BitVec.eq_of_toNat_eq
  have hsign : 2 ^ 63 ≤ d.toNat ↔ 2 ^ 63 ≤ d'.toNat := by rw [← sign_iff, ← sign_iff, hs]
  have hlt := d.isLt
  have hlt' := d'.isLt
  rw [exponent, exponent] at he
  rw [fraction, fraction] at hf
  omega

end Double

/-! ## The fields of the 80-bit format -/

namespace Float80

variable (x : Float80)

def sign : Bool := x.signExp.getLsbD 15

def exponent : ℕ := x.signExp.toNat % 2 ^ 15

def IsFinite : Prop := x.exponent < 32767

def IsInfinite : Prop := x.exponent = 32767 ∧ x.significand.toNat = 2 ^ 63

instance : Decidable x.IsFinite := inferInstanceAs (Decidable (_ < _))

instance : Decidable x.IsInfinite := inferInstanceAs (Decidable (_ ∧ _))

def value : ℚ := signedValue x.sign x.significand.toNat (max x.exponent 1 - 16446)

/-- The encodings that a processor takes. Without an exponent the integer bit is free: a
pseudo-denormal has it, a denormal does not. -/
def Valid : Prop := x.exponent = 0 ∨ 2 ^ 63 ≤ x.significand.toNat

/-- The integer bit is there, except in a zero. -/
def Normalised : Prop :=
  2 ^ 63 ≤ x.significand.toNat ∨ x.exponent = 0 ∧ x.significand.toNat = 0

instance : Decidable x.Valid := inferInstanceAs (Decidable (_ ∨ _))

instance : Decidable x.Normalised := inferInstanceAs (Decidable (_ ∨ _))

theorem exponent_lt : x.exponent < 2 ^ 15 := Nat.mod_lt _ (by norm_num)

end Float80

/-! ## The fields of a result -/

section Widening

variable {d : BitVec 64}

theorem toNat_exponentBits (d : BitVec 64) :
    (((d >>> 52) &&& 0x7FF#64).setWidth 16).toNat = Double.exponent d := by
  have hmask : (0x7FF#64).toNat = 2 ^ 11 - 1 := rfl
  rw [BitVec.toNat_setWidth, BitVec.toNat_and, hmask, Nat.and_two_pow_sub_one_eq_mod,
    BitVec.toNat_ushiftRight, Nat.shiftRight_eq_div_pow, Double.exponent]
  omega

theorem toNat_fractionBits (d : BitVec 64) :
    (d &&& 0xFFFFFFFFFFFFF#64).toNat = Double.fraction d := by
  have hmask : (0xFFFFFFFFFFFFF#64).toNat = 2 ^ 52 - 1 := rfl
  rw [BitVec.toNat_and, hmask, Nat.and_two_pow_sub_one_eq_mod, Double.fraction]

theorem exponentBits_eq_iff (d : BitVec 64) {n : ℕ} (hn : n < 2 ^ 16) :
    ((d >>> 52) &&& 0x7FF#64).setWidth 16 = BitVec.ofNat 16 n ↔ Double.exponent d = n := by
  rw [← BitVec.toNat_inj, toNat_exponentBits, BitVec.toNat_ofNat, Nat.mod_eq_of_lt hn]

/-- The exponent below a sign. -/
theorem toNat_sign_or_mod (s e : BitVec 16) :
    (s <<< 15 ||| e).toNat % 2 ^ 15 = e.toNat % 2 ^ 15 := by
  have hleft : s.toNat * 2 ^ 15 % 2 ^ 16 % 2 ^ 15 = 0 := by omega
  rw [BitVec.toNat_or, Nat.or_mod_two_pow, BitVec.toNat_shiftLeft, Nat.shiftLeft_eq, hleft,
    Nat.zero_or]

@[simp]
theorem sign_f64To80 (d : BitVec 64) : (f64To80 d).sign = Double.sign d := by
  rw [f64To80, Float80.sign, Double.sign]
  dsimp only
  split_ifs <;> simp

theorem f64To80_of_zero (h : Double.exponent d = 0) :
    (f64To80 d).exponent = 0 ∧ (f64To80 d).significand.toNat = Double.fraction d := by
  have hzero := (exponentBits_eq_iff d (n := 0) (by norm_num)).mpr h
  have heq : f64To80 d = ⟨d &&& 0xFFFFFFFFFFFFF#64, (d >>> 63).setWidth 16 <<< 15⟩ := if_pos hzero
  rw [heq, Float80.exponent]
  constructor
  · rw [BitVec.toNat_shiftLeft, Nat.shiftLeft_eq]
    omega
  · exact toNat_fractionBits d

theorem f64To80_of_max (h : Double.exponent d = 2047) :
    (f64To80 d).exponent = 32767 ∧ (f64To80 d).significand.toNat =
      if Double.fraction d = 0 then 0 else 2 ^ 63 + Double.fraction d := by
  have hmax := (exponentBits_eq_iff d (n := 2047) (by norm_num)).mpr h
  have hzero : ((d >>> 52) &&& 0x7FF#64).setWidth 16 ≠ 0 := by
    rw [hmax]
    decide
  have heq : f64To80 d = ⟨if d &&& 0xFFFFFFFFFFFFF#64 = 0 then 0
      else 1#64 <<< 63 ||| d &&& 0xFFFFFFFFFFFFF#64,
      (d >>> 63).setWidth 16 <<< 15 ||| 0x7FFF#16⟩ := (if_neg hzero).trans (if_pos hmax)
  have hfrac := Double.fraction_lt d
  have hfracBits := toNat_fractionBits d
  have hzero : d &&& 0xFFFFFFFFFFFFF#64 = 0 ↔ Double.fraction d = 0 := by
    rw [← BitVec.toNat_inj, hfracBits]
    rfl
  rw [heq, Float80.exponent]
  constructor
  · rw [toNat_sign_or_mod]
    rfl
  · simp only [hzero]
    split_ifs with hf
    · rfl
    · have hbit : (1#64 <<< 63).toNat = 2 ^ 63 := rfl
      rw [BitVec.toNat_or, hbit, hfracBits, ← mul_one (2 ^ 63),
        ← Nat.two_pow_add_eq_or_of_lt (by omega) 1]

theorem f64To80_of_middle (hpos : 0 < Double.exponent d) (h : Double.exponent d < 2047) :
    (f64To80 d).exponent = Double.exponent d + 15360 ∧
      (f64To80 d).significand.toNat = (2 ^ 52 + Double.fraction d) * 2 ^ 11 := by
  have hexp := toNat_exponentBits d
  have hfrac := Double.fraction_lt d
  have hfracBits := toNat_fractionBits d
  have hzero : ((d >>> 52) &&& 0x7FF#64).setWidth 16 ≠ 0 := fun hbits ↦
    hpos.ne' ((exponentBits_eq_iff d (n := 0) (by norm_num)).mp hbits)
  have hmax : ((d >>> 52) &&& 0x7FF#64).setWidth 16 ≠ 0x7FF#16 := fun hbits ↦
    h.ne ((exponentBits_eq_iff d (n := 2047) (by norm_num)).mp hbits)
  have heq : f64To80 d = ⟨(d &&& 0xFFFFFFFFFFFFF#64 ||| 1#64 <<< 52) <<< 11,
      (d >>> 63).setWidth 16 <<< 15 |||
        (((d >>> 52) &&& 0x7FF#64).setWidth 16 - 1023#16 + 16383#16) &&& 0x7FFF#16⟩ :=
    (if_neg hzero).trans (if_neg hmax)
  rw [heq, Float80.exponent]
  constructor
  · have hmask : (0x7FFF#16).toNat = 2 ^ 15 - 1 := rfl
    rw [toNat_sign_or_mod, BitVec.toNat_and, hmask, Nat.and_two_pow_sub_one_eq_mod,
      BitVec.toNat_add, BitVec.toNat_sub, hexp]
    simp only [BitVec.toNat_ofNat]
    omega
  · have hbit : (1#64 <<< 52).toNat = 2 ^ 52 := rfl
    have hor : Double.fraction d ||| 2 ^ 52 = 2 ^ 52 + Double.fraction d := by
      have hadd := Nat.two_pow_add_eq_or_of_lt hfrac 1
      rw [Nat.or_comm, ← mul_one (2 ^ 52), hadd]
    rw [BitVec.toNat_shiftLeft, BitVec.toNat_or, hfracBits, hbit, hor, Nat.shiftLeft_eq]
    omega

end Widening

section Narrowing

variable {x : Float80}

theorem toNat_exponent (x : Float80) : (x.signExp &&& 0x7FFF#16).toNat = x.exponent := by
  have hmask : (0x7FFF#16).toNat = 2 ^ 15 - 1 := rfl
  rw [BitVec.toNat_and, hmask, Nat.and_two_pow_sub_one_eq_mod, Float80.exponent]

theorem exponent_eq_iff (x : Float80) {n : ℕ} (hn : n < 2 ^ 16) :
    x.signExp &&& 0x7FFF#16 = BitVec.ofNat 16 n ↔ x.exponent = n := by
  rw [← BitVec.toNat_inj, toNat_exponent, BitVec.toNat_ofNat, Nat.mod_eq_of_lt hn]

/-- Below a sign that is put over other bits. -/
theorem fields_sign_or (s a : BitVec 64) :
    Double.exponent (s <<< 63 ||| a) = Double.exponent a ∧
      Double.fraction (s <<< 63 ||| a) = Double.fraction a := by
  have hexp : s.toNat * 2 ^ 63 % 2 ^ 64 / 2 ^ 52 % 2 ^ 11 = 0 := by omega
  have hfrac : s.toNat * 2 ^ 63 % 2 ^ 64 % 2 ^ 52 = 0 := by omega
  rw [Double.exponent, Double.fraction, BitVec.toNat_or, Nat.or_div_two_pow, Nat.or_mod_two_pow,
    Nat.or_mod_two_pow, BitVec.toNat_shiftLeft, Nat.shiftLeft_eq, hexp, hfrac, Nat.zero_or,
    Nat.zero_or]
  exact ⟨rfl, rfl⟩

/-- The fraction is what it is of the significand, whatever is put over its integer bit. -/
theorem fields_exponent_or (e a : BitVec 64) :
    Double.exponent (e <<< 52 ||| a) = e.toNat % 2 ^ 11 ||| Double.exponent a ∧
      Double.fraction (e <<< 52 ||| a) = Double.fraction a := by
  have hexp : e.toNat * 2 ^ 52 % 2 ^ 64 / 2 ^ 52 % 2 ^ 11 = e.toNat % 2 ^ 11 := by omega
  have hfrac : e.toNat * 2 ^ 52 % 2 ^ 64 % 2 ^ 52 = 0 := by omega
  rw [Double.exponent, Double.fraction, BitVec.toNat_or, Nat.or_div_two_pow, Nat.or_mod_two_pow,
    Nat.or_mod_two_pow, BitVec.toNat_shiftLeft, Nat.shiftLeft_eq, hexp, hfrac, Nat.zero_or]
  exact ⟨rfl, rfl⟩

/-- The fraction of the double: the bits below the integer bit. -/
def fractionOf (x : Float80) : ℕ := x.significand.toNat / 2 ^ 11 % 2 ^ 52

theorem fields_significand (x : Float80) :
    Double.exponent (x.significand >>> 11) = x.significand.toNat / 2 ^ 63 ∧
      Double.fraction (x.significand >>> 11) = fractionOf x := by
  have hlt := x.significand.isLt
  rw [Double.exponent, Double.fraction, fractionOf, BitVec.toNat_ushiftRight,
    Nat.shiftRight_eq_div_pow]
  exact ⟨by omega, rfl⟩

theorem f80To64_of_zero (h : x.exponent = 0) :
    Double.sign (f80To64 x) = x.sign ∧
      Double.exponent (f80To64 x) = x.significand.toNat / 2 ^ 63 ∧
      Double.fraction (f80To64 x) = fractionOf x := by
  have hzero := (exponent_eq_iff x (n := 0) (by norm_num)).mpr h
  have heq : f80To64 x = (x.signExp >>> 15).setWidth 64 <<< 63 ||| x.significand >>> 11 :=
    if_pos hzero
  obtain ⟨hexp, hfrac⟩ := fields_sign_or ((x.signExp >>> 15).setWidth 64) (x.significand >>> 11)
  obtain ⟨hexp', hfrac'⟩ := fields_significand x
  rw [heq, hexp, hfrac, hexp', hfrac']
  exact ⟨by simp [Double.sign, Float80.sign], rfl, rfl⟩

theorem f80To64_of_max (h : x.exponent = 32767) :
    Double.sign (f80To64 x) = x.sign ∧ Double.exponent (f80To64 x) = 2047 ∧
      Double.fraction (f80To64 x) = fractionOf x := by
  have hmax := (exponent_eq_iff x (n := 32767) (by norm_num)).mpr h
  have hzero : x.signExp &&& 0x7FFF#16 ≠ 0 := by
    rw [hmax]
    decide
  have hshift : (if x.significand = 0 then 0#64 else x.significand >>> 11) =
      x.significand >>> 11 := by
    split_ifs with hs
    · rw [hs]
      rfl
    · rfl
  have heq : f80To64 x = (x.signExp >>> 15).setWidth 64 <<< 63 |||
      (0x7FF#64 <<< 52 ||| x.significand >>> 11) := by
    rw [← BitVec.or_assoc, ← hshift]
    exact (if_neg hzero).trans (if_pos hmax)
  obtain ⟨hexp, hfrac⟩ := fields_sign_or ((x.signExp >>> 15).setWidth 64)
    (0x7FF#64 <<< 52 ||| x.significand >>> 11)
  obtain ⟨hexp', hfrac'⟩ := fields_exponent_or 0x7FF#64 (x.significand >>> 11)
  obtain ⟨hexp'', hfrac''⟩ := fields_significand x
  have hlt := x.significand.isLt
  rw [heq, hexp, hfrac, hexp', hfrac', hexp'', hfrac'']
  refine ⟨by simp [Double.sign, Float80.sign], ?_, rfl⟩
  -- the integer bit falls on a bit that is set
  have hbit : x.significand.toNat / 2 ^ 63 = 0 ∨ x.significand.toNat / 2 ^ 63 = 1 := by omega
  rcases hbit with hbit | hbit <;> rw [hbit] <;> rfl

/-- What is left of an exponent that is put into twelve bits. The highest of them is over the
sign. -/
def narrowExponent (x : Float80) : ℕ := (x.exponent + 1024) % 4096

theorem toNat_signExtend_mod_4096 (e : BitVec 16) :
    (e.signExtend 64).toNat % 4096 = e.toNat % 4096 := by
  have hlt := e.isLt
  rw [BitVec.toNat_signExtend, BitVec.toNat_setWidth]
  split_ifs <;> omega

theorem getLsbD_eleven {w : ℕ} (e : BitVec w) : e.getLsbD 11 = decide (2048 ≤ e.toNat % 4096) := by
  rw [BitVec.getLsbD, Nat.testBit_eq_decide_div_mod_eq, decide_eq_decide]
  omega

theorem f80To64_of_middle (hpos : 0 < x.exponent) (h : x.exponent < 32767) :
    Double.sign (f80To64 x) = (x.sign || decide (2048 ≤ narrowExponent x)) ∧
      Double.exponent (f80To64 x) = narrowExponent x % 2048 ∧
      Double.fraction (f80To64 x) = fractionOf x := by
  have hzero : x.signExp &&& 0x7FFF#16 ≠ 0 := fun hbits ↦
    hpos.ne' ((exponent_eq_iff x (n := 0) (by norm_num)).mp hbits)
  have hmax : x.signExp &&& 0x7FFF#16 ≠ 0x7FFF#16 := fun hbits ↦
    h.ne ((exponent_eq_iff x (n := 32767) (by norm_num)).mp hbits)
  obtain ⟨e, he⟩ : ∃ e, e = (x.signExp &&& 0x7FFF#16) - 16383#16 + 1023#16 := ⟨_, rfl⟩
  have hnarrow : (e.signExtend 64).toNat % 4096 = narrowExponent x := by
    rw [toNat_signExtend_mod_4096, he, BitVec.toNat_add, BitVec.toNat_sub, toNat_exponent,
      narrowExponent]
    simp only [BitVec.toNat_ofNat]
    omega
  have heq : f80To64 x = (x.signExp >>> 15).setWidth 64 <<< 63 |||
      (e.signExtend 64 <<< 52 ||| (x.significand >>> 11 &&& 0xFFFFFFFFFFFFF#64)) := by
    rw [← BitVec.or_assoc, he]
    exact (if_neg hzero).trans (if_neg hmax)
  obtain ⟨hexp, hfrac⟩ := fields_sign_or ((x.signExp >>> 15).setWidth 64)
    (e.signExtend 64 <<< 52 ||| (x.significand >>> 11 &&& 0xFFFFFFFFFFFFF#64))
  obtain ⟨hexp', hfrac'⟩ := fields_exponent_or (e.signExtend 64)
    (x.significand >>> 11 &&& 0xFFFFFFFFFFFFF#64)
  have hlow : (x.significand >>> 11 &&& 0xFFFFFFFFFFFFF#64).toNat = fractionOf x := by
    rw [toNat_fractionBits, (fields_significand x).2]
  have hlt : fractionOf x < 2 ^ 52 := Nat.mod_lt _ (by norm_num)
  have hexp'' : Double.exponent (x.significand >>> 11 &&& 0xFFFFFFFFFFFFF#64) = 0 := by
    rw [Double.exponent, hlow, Nat.div_eq_of_lt hlt, Nat.zero_mod]
  have hfrac'' : Double.fraction (x.significand >>> 11 &&& 0xFFFFFFFFFFFFF#64) = fractionOf x := by
    rw [Double.fraction, hlow, Nat.mod_eq_of_lt hlt]
  rw [heq, hexp, hfrac, hexp', hfrac', hexp'', hfrac'', Nat.or_zero]
  refine ⟨?_, by omega, rfl⟩
  rw [← hnarrow, ← getLsbD_eleven]
  simp [Double.sign, Float80.sign]

end Narrowing

/-! ## There and back -/

section RoundTrip

variable {d : BitVec 64}

/-- A NaN is told from other patterns, but not from other NaNs of its sign. -/
def RoundTrips (d : BitVec 64) : Prop :=
  if Double.IsNaN d then
    Double.IsNaN (f80To64 (f64To80 d)) ∧ Double.sign (f80To64 (f64To80 d)) = Double.sign d
  else f80To64 (f64To80 d) = d

theorem roundTrips_of_zero (h : Double.exponent d = 0) :
    RoundTrips d ↔ Double.fraction d = 0 := by
  have hnan : ¬ Double.IsNaN d := fun hnan ↦ by
    have := hnan.1
    omega
  obtain ⟨hexp, hsig⟩ := f64To80_of_zero h
  obtain ⟨hs, he, hf⟩ := f80To64_of_zero hexp
  have hlt := Double.fraction_lt d
  rw [fractionOf] at hf
  rw [hsig] at he hf
  rw [RoundTrips, if_neg hnan]
  constructor
  · intro hback
    rw [hback] at hf
    omega
  · intro hzero
    apply Double.eq_of_fields
    · rw [hs, sign_f64To80]
    · rw [he, h]
      omega
    · rw [hf]
      omega

theorem roundTrips_of_middle (hpos : 0 < Double.exponent d) (h : Double.exponent d < 2047) :
    RoundTrips d := by
  have hnan : ¬ Double.IsNaN d := fun hnan ↦ h.ne hnan.1
  obtain ⟨hexp, hsig⟩ := f64To80_of_middle hpos h
  obtain ⟨hs, he, hf⟩ := f80To64_of_middle (x := f64To80 d) (by omega) (by omega)
  have hlt := Double.fraction_lt d
  rw [narrowExponent, hexp] at hs he
  rw [fractionOf, hsig] at hf
  rw [RoundTrips, if_neg hnan]
  apply Double.eq_of_fields
  · rw [hs, sign_f64To80, decide_eq_false (by omega), Bool.or_false]
  · rw [he]
    omega
  · rw [hf]
    omega

theorem roundTrips_of_max (h : Double.exponent d = 2047) :
    RoundTrips d ↔ (Double.fraction d ≠ 0 → 2 ^ 11 ≤ Double.fraction d) := by
  obtain ⟨hexp, hsig⟩ := f64To80_of_max h
  obtain ⟨hs, he, hf⟩ := f80To64_of_max hexp
  have hlt := Double.fraction_lt d
  rw [fractionOf, hsig] at hf
  rw [sign_f64To80] at hs
  rw [RoundTrips]
  by_cases hfrac : Double.fraction d = 0
  · rw [if_neg fun hnan ↦ hnan.2 hfrac]
    rw [if_pos hfrac] at hf
    refine ⟨fun _ hne ↦ absurd hfrac hne, fun _ ↦ Double.eq_of_fields hs (by omega) (by omega)⟩
  · rw [if_pos ⟨h, hfrac⟩, Double.IsNaN, hs, he, hf, if_neg hfrac]
    constructor
    · rintro ⟨⟨-, hne⟩, -⟩ -
      omega
    · intro hlow
      have := hlow hfrac
      exact ⟨⟨rfl, by omega⟩, rfl⟩

/-- What comes back: every pattern but the subnormal numbers, and of the NaNs those that have a bit
above the eleven that are dropped. -/
theorem roundTrips_pattern_iff (d : BitVec 64) :
    RoundTrips d ↔
      ¬ Double.IsSubnormal d ∧ (Double.IsNaN d → 2 ^ 11 ≤ Double.fraction d) := by
  have hlt := Double.exponent_lt d
  rcases Nat.eq_zero_or_pos (Double.exponent d) with hzero | hpos
  · rw [roundTrips_of_zero hzero, Double.IsSubnormal, Double.IsNaN]
    constructor
    · intro hfrac
      exact ⟨fun hsub ↦ hsub.2 hfrac, fun hnan ↦ absurd hfrac hnan.2⟩
    · rintro ⟨hsub, -⟩
      by_contra hfrac
      exact hsub ⟨hzero, hfrac⟩
  · rcases Nat.lt_or_ge (Double.exponent d) 2047 with hmid | hmax
    · refine ⟨fun _ ↦ ⟨fun hsub ↦ ?_, fun hnan ↦ ?_⟩, fun _ ↦ roundTrips_of_middle hpos hmid⟩
      · exact hpos.ne' hsub.1
      · exact absurd hnan.1 hmid.ne
    · have hmax : Double.exponent d = 2047 := by omega
      rw [roundTrips_of_max hmax, Double.IsSubnormal, Double.IsNaN]
      exact ⟨fun hfrac ↦ ⟨fun hsub ↦ hpos.ne' hsub.1, fun hnan ↦ hfrac hnan.2⟩,
        fun hcond hne ↦ hcond.2 ⟨hmax, hne⟩⟩

end RoundTrip

/-! ## The number is kept -/

section Widened

variable {d : BitVec 64}

/-- The pattern of 80 bits is that of the same number, with its integer bit. -/
def Widened (d : BitVec 64) : Prop :=
  (Double.IsFinite d → (f64To80 d).IsFinite ∧ (f64To80 d).value = Double.value d) ∧
    (f64To80 d).Normalised

theorem signedValue_scale (s : Bool) (m n : ℕ) (k : ℤ) :
    signedValue s (m * 2 ^ n) k = signedValue s m (k + n) := by
  rw [signedValue, signedValue, zpow_add₀ two_ne_zero, zpow_natCast]
  push_cast
  ring

theorem widened_of_middle (hpos : 0 < Double.exponent d) (h : Double.exponent d < 2047) :
    Widened d := by
  obtain ⟨hexp, hsig⟩ := f64To80_of_middle hpos h
  refine ⟨fun _ ↦ ⟨?_, ?_⟩, Or.inl (by omega)⟩
  · rw [Float80.IsFinite]
    omega
  · have hk : ((max (Double.exponent d + 15360) 1 : ℕ) : ℤ) - 16446 + (11 : ℕ) =
        ((max (Double.exponent d) 1 : ℕ) : ℤ) - 1075 := by omega
    rw [Float80.value, Double.value, sign_f64To80, hsig, hexp, if_neg hpos.ne', signedValue_scale,
      hk]

/-- What is written: every number but the subnormal ones, and for an infinity a pattern without its
integer bit. -/
theorem widened_iff (d : BitVec 64) :
    Widened d ↔ ¬ Double.IsSubnormal d ∧ ¬ Double.IsInfinite d := by
  have hlt := Double.exponent_lt d
  have hfrac := Double.fraction_lt d
  rcases Nat.eq_zero_or_pos (Double.exponent d) with hzero | hpos
  · obtain ⟨hexp, hsig⟩ := f64To80_of_zero hzero
    constructor
    · rintro ⟨-, hnorm⟩
      refine ⟨fun hsub ↦ ?_, fun hinf ↦ ?_⟩
      · -- a subnormal number has no bit in the place of the integer bit
        have hne := hsub.2
        rw [Float80.Normalised, hexp, hsig] at hnorm
        omega
      · have := hinf.1
        omega
    · rintro ⟨hsub, -⟩
      have hf : Double.fraction d = 0 := by
        by_contra hne
        exact hsub ⟨hzero, hne⟩
      refine ⟨fun _ ↦ ⟨?_, ?_⟩, Or.inr ⟨hexp, by omega⟩⟩
      · rw [Float80.IsFinite]
        omega
      · rw [Float80.value, Double.value, hsig, if_pos hzero, hf, signedValue, signedValue]
        simp
  · rcases Nat.lt_or_ge (Double.exponent d) 2047 with hmid | hmax
    · refine ⟨fun _ ↦ ⟨fun hsub ↦ hpos.ne' hsub.1, fun hinf ↦ hmid.ne hinf.1⟩,
        fun _ ↦ widened_of_middle hpos hmid⟩
    · have hmax : Double.exponent d = 2047 := by omega
      obtain ⟨hexp, hsig⟩ := f64To80_of_max hmax
      constructor
      · rintro ⟨-, hnorm⟩
        refine ⟨fun hsub ↦ hpos.ne' hsub.1, fun hinf ↦ ?_⟩
        rw [Float80.Normalised, hsig, if_pos hinf.2, hexp] at hnorm
        omega
      · rintro ⟨-, hinf⟩
        have hne : Double.fraction d ≠ 0 := fun hf ↦ hinf ⟨hmax, hf⟩
        refine ⟨fun hfin ↦ absurd hmax (Nat.ne_of_lt hfin), Or.inl ?_⟩
        rw [hsig, if_neg hne]
        omega

end Widened

/-! ## Truncation -/

section Narrowed

variable {x y : Float80}

theorem abs_signedValue (s : Bool) (m : ℕ) (k : ℤ) : |signedValue s m k| = m * 2 ^ k := by
  have hnonneg : (0 : ℚ) ≤ m * 2 ^ k := by positivity
  rw [signedValue, abs_mul, abs_of_nonneg hnonneg]
  cases s <;> simp

theorem truncate_signedValue (s : Bool) {m : ℕ} (k : ℤ) (hlow : 2 ^ 63 ≤ m) (hhigh : m < 2 ^ 64) :
    truncate 53 (signedValue s m k) = signedValue s (m / 2 ^ 11) (k + (11 : ℕ)) := by
  have hmag := truncateMag_scaled (K := ℚ) (p := 53) (s := 11) k (by norm_num) hlow hhigh
  have hnonneg : (0 : ℚ) ≤ m * 2 ^ k := by positivity
  rw [← truncate_of_nonneg 53 hnonneg] at hmag
  rw [signedValue, signedValue]
  cases s
  · simpa using hmag
  · simpa using hmag

theorem abs_value_lt (x : Float80) : |x.value| < 2 ^ (((max x.exponent 1 : ℕ) : ℤ) - 16382) := by
  have hlt : (x.significand.toNat : ℚ) < 2 ^ 64 := by
    exact_mod_cast x.significand.isLt
  rw [Float80.value, abs_signedValue]
  calc (x.significand.toNat : ℚ) * 2 ^ (((max x.exponent 1 : ℕ) : ℤ) - 16446)
      < 2 ^ 64 * 2 ^ (((max x.exponent 1 : ℕ) : ℤ) - 16446) := by gcongr
    _ = 2 ^ (((max x.exponent 1 : ℕ) : ℤ) - 16382) := by
      rw [← zpow_natCast, ← zpow_add₀ two_ne_zero]
      congr 1
      push_cast
      ring

theorem le_abs_value (h : 2 ^ 63 ≤ x.significand.toNat) :
    2 ^ (((max x.exponent 1 : ℕ) : ℤ) - 16383) ≤ |x.value| := by
  have hle : (2 : ℚ) ^ 63 ≤ x.significand.toNat := by exact_mod_cast h
  rw [Float80.value, abs_signedValue]
  calc (2 : ℚ) ^ (((max x.exponent 1 : ℕ) : ℤ) - 16383)
      = 2 ^ 63 * 2 ^ (((max x.exponent 1 : ℕ) : ℤ) - 16446) := by
        rw [← zpow_natCast, ← zpow_add₀ two_ne_zero]
        congr 1
        push_cast
        ring
    _ ≤ x.significand.toNat * 2 ^ (((max x.exponent 1 : ℕ) : ℤ) - 16446) := by gcongr

/-- Numbers below those with an exponent are below every normal double. -/
theorem abs_value_lt_iff (hx : x.Valid) : |x.value| < 2 ^ (-1022 : ℤ) ↔ x.exponent ≤ 15360 := by
  constructor
  · intro hlt
    by_contra hgt
    have hsig : 2 ^ 63 ≤ x.significand.toNat := hx.resolve_left (by omega)
    have hpow : (2 : ℚ) ^ (-1022 : ℤ) ≤ 2 ^ (((max x.exponent 1 : ℕ) : ℤ) - 16383) :=
      zpow_le_zpow_right₀ one_le_two (by omega)
    exact absurd hlt (not_lt.mpr (hpow.trans (le_abs_value hsig)))
  · intro hle
    have hpow : (2 : ℚ) ^ (((max x.exponent 1 : ℕ) : ℤ) - 16382) ≤ 2 ^ (-1022 : ℤ) :=
      zpow_le_zpow_right₀ one_le_two (by omega)
    exact (abs_value_lt x).trans_le hpow

theorem le_abs_value_iff (hx : x.Valid) :
    (2 : ℚ) ^ (1024 : ℤ) ≤ |x.value| ↔ 17407 ≤ x.exponent := by
  constructor
  · intro hle
    by_contra hlt
    have hpow : (2 : ℚ) ^ (((max x.exponent 1 : ℕ) : ℤ) - 16382) ≤ 2 ^ (1024 : ℤ) :=
      zpow_le_zpow_right₀ one_le_two (by omega)
    exact absurd hle (not_le.mpr ((abs_value_lt x).trans_le hpow))
  · intro hge
    have hsig : 2 ^ 63 ≤ x.significand.toNat := hx.resolve_left (by omega)
    have hpow : (2 : ℚ) ^ (1024 : ℤ) ≤ 2 ^ (((max x.exponent 1 : ℕ) : ℤ) - 16383) :=
      zpow_le_zpow_right₀ one_le_two (by omega)
    exact hpow.trans (le_abs_value hsig)

/-- A number that has a normal double of its size is cut to the digits of it. -/
theorem f80To64_of_fits (hx : x.Valid) (hlow : 15360 < x.exponent) (hhigh : x.exponent < 17407) :
    Double.sign (f80To64 x) = x.sign ∧ Double.IsFinite (f80To64 x) ∧
      Double.value (f80To64 x) = truncate 53 x.value := by
  have hsig : 2 ^ 63 ≤ x.significand.toNat := hx.resolve_left (by omega)
  have hlt := x.significand.isLt
  obtain ⟨hs, he, hf⟩ := f80To64_of_middle (x := x) (by omega) (by omega)
  have hn : narrowExponent x = x.exponent - 15360 := by
    rw [narrowExponent]
    omega
  have hsign : Double.sign (f80To64 x) = x.sign := by
    rw [hs, decide_eq_false (by omega), Bool.or_false]
  have hexp : Double.exponent (f80To64 x) = x.exponent - 15360 := by omega
  have hm : 2 ^ 52 + Double.fraction (f80To64 x) = x.significand.toNat / 2 ^ 11 := by
    rw [hf, fractionOf]
    omega
  refine ⟨hsign, ?_, ?_⟩
  · rw [Double.IsFinite]
    omega
  · have hk : ((max (x.exponent - 15360) 1 : ℕ) : ℤ) - 1075 =
        ((max x.exponent 1 : ℕ) : ℤ) - 16446 + (11 : ℕ) := by
      rw [max_eq_left (by omega), max_eq_left (by omega), Nat.cast_sub hlow.le]
      push_cast
      ring
    rw [Double.value, Float80.value, truncate_signedValue x.sign _ hsig hlt, hsign, hexp,
      if_neg (by omega), hm, hk]

/-- What `f80_to_64` owes a pattern: the sign, the number truncated to 53 bits where doubles are
normal, and at least the right end of them elsewhere. -/
def Narrowed (x : Float80) : Prop :=
  Double.sign (f80To64 x) = x.sign ∧
    (x.IsFinite → 2 ^ (-1022 : ℤ) ≤ |x.value| → |x.value| < 2 ^ (1024 : ℤ) →
      Double.IsFinite (f80To64 x) ∧ Double.value (f80To64 x) = truncate 53 x.value) ∧
    (x.IsFinite → 2 ^ (1024 : ℤ) ≤ |x.value| →
      Double.IsInfinite (f80To64 x) ∨ Double.IsLargest (f80To64 x)) ∧
    (x.IsFinite → |x.value| < 2 ^ (-1022 : ℤ) → Double.exponent (f80To64 x) = 0) ∧
    (x.IsInfinite → Double.IsInfinite (f80To64 x))

/-- The exponent is away from `n` by a multiple of 4096, or for a negative number of 2048. -/
def LandsOn (x : Float80) (n : ℕ) : Prop :=
  narrowExponent x = n ∨ narrowExponent x = n + 2048 ∧ x.sign = true

/-- No harm comes of dropping bits of the exponent. -/
def Fits (x : Float80) : Prop :=
  (x.exponent = 0 → x.significand.toNat < 2 ^ 63) ∧
    (0 < x.exponent → x.exponent ≤ 15360 → LandsOn x 0) ∧
    (17407 ≤ x.exponent → x.exponent < 32767 →
      LandsOn x 2047 ∧ fractionOf x = 0 ∨ LandsOn x 2046 ∧ fractionOf x = 2 ^ 52 - 1)

instance (n : ℕ) : Decidable (LandsOn x n) := inferInstanceAs (Decidable (_ ∨ _))

instance : Decidable (Fits x) := inferInstanceAs (Decidable (_ ∧ _))

theorem landsOn_iff (hpos : 0 < x.exponent) (h : x.exponent < 32767) {n : ℕ} (hn : n < 2048) :
    LandsOn x n ↔ Double.sign (f80To64 x) = x.sign ∧ Double.exponent (f80To64 x) = n := by
  obtain ⟨hs, he, -⟩ := f80To64_of_middle hpos h
  have hlt : narrowExponent x < 4096 := Nat.mod_lt _ (by norm_num)
  rw [hs, he, LandsOn]
  cases x.sign
  · simp only [Bool.false_or, Bool.false_eq_true, and_false, or_false, decide_eq_false_iff_not]
    omega
  · simp only [Bool.true_or, true_and, and_true]
    omega

theorem narrowed_of_zero (h : x.exponent = 0) :
    Narrowed x ↔ x.significand.toNat < 2 ^ 63 := by
  have hx : x.Valid := Or.inl h
  have hsmall : |x.value| < 2 ^ (-1022 : ℤ) := (abs_value_lt_iff hx).mpr (by omega)
  have hfin : x.IsFinite := by
    rw [Float80.IsFinite]
    omega
  obtain ⟨hs, he, -⟩ := f80To64_of_zero h
  have hsig := x.significand.isLt
  constructor
  · rintro ⟨-, -, -, hexp, -⟩
    have := hexp hfin hsmall
    omega
  · intro hlt
    refine ⟨hs, fun _ hlow ↦ ?_, fun _ hhigh ↦ ?_, fun _ _ ↦ by omega, fun hinf ↦ ?_⟩
    · exact absurd hsmall (not_lt.mpr hlow)
    · have := (le_abs_value_iff hx).mp hhigh
      omega
    · have := hinf.1
      omega

theorem narrowed_of_small (hx : x.Valid) (hpos : 0 < x.exponent) (hle : x.exponent ≤ 15360) :
    Narrowed x ↔ LandsOn x 0 := by
  have hsmall : |x.value| < 2 ^ (-1022 : ℤ) := (abs_value_lt_iff hx).mpr hle
  have hfin : x.IsFinite := by
    rw [Float80.IsFinite]
    omega
  rw [landsOn_iff hpos (by omega) (by norm_num)]
  constructor
  · rintro ⟨hs, -, -, hexp, -⟩
    exact ⟨hs, hexp hfin hsmall⟩
  · rintro ⟨hs, he⟩
    refine ⟨hs, fun _ hlow ↦ ?_, fun _ hhigh ↦ ?_, fun _ _ ↦ he, fun hinf ↦ ?_⟩
    · exact absurd hsmall (not_lt.mpr hlow)
    · have := (le_abs_value_iff hx).mp hhigh
      omega
    · have := hinf.1
      omega

theorem narrowed_of_large (hx : x.Valid) (hge : 17407 ≤ x.exponent) (hlt : x.exponent < 32767) :
    Narrowed x ↔
      LandsOn x 2047 ∧ fractionOf x = 0 ∨ LandsOn x 2046 ∧ fractionOf x = 2 ^ 52 - 1 := by
  have hlarge : (2 : ℚ) ^ (1024 : ℤ) ≤ |x.value| := (le_abs_value_iff hx).mpr hge
  obtain ⟨-, -, hf⟩ := f80To64_of_middle (x := x) (by omega) hlt
  rw [landsOn_iff (by omega) hlt (by norm_num), landsOn_iff (by omega) hlt (by norm_num), ← hf]
  constructor
  · rintro ⟨hs, -, hend, -, -⟩
    rcases hend hlt hlarge with ⟨he, hfrac⟩ | ⟨he, hfrac⟩
    · exact Or.inl ⟨⟨hs, he⟩, hfrac⟩
    · exact Or.inr ⟨⟨hs, he⟩, hfrac⟩
  · intro hend
    have hs : Double.sign (f80To64 x) = x.sign := by
      rcases hend with ⟨⟨hs, -⟩, -⟩ | ⟨⟨hs, -⟩, -⟩ <;> exact hs
    refine ⟨hs, fun _ _ hhigh ↦ ?_, fun _ _ ↦ ?_, fun _ hsmall ↦ ?_, fun hinf ↦ ?_⟩
    · exact absurd hlarge (not_le.mpr hhigh)
    · rcases hend with ⟨⟨-, he⟩, hfrac⟩ | ⟨⟨-, he⟩, hfrac⟩
      · exact Or.inl ⟨he, hfrac⟩
      · exact Or.inr ⟨he, hfrac⟩
    · have := (abs_value_lt_iff hx).mp hsmall
      omega
    · exact absurd hinf.1 hlt.ne

theorem narrowed_of_fits (hx : x.Valid) (hlow : 15360 < x.exponent) (hhigh : x.exponent < 17407) :
    Narrowed x := by
  obtain ⟨hs, hfin, hval⟩ := f80To64_of_fits hx hlow hhigh
  refine ⟨hs, fun _ _ _ ↦ ⟨hfin, hval⟩, fun _ hlarge ↦ ?_, fun _ hsmall ↦ ?_, fun hinf ↦ ?_⟩
  · have := (le_abs_value_iff hx).mp hlarge
    omega
  · have := (abs_value_lt_iff hx).mp hsmall
    omega
  · have := hinf.1
    omega

theorem narrowed_of_max (h : x.exponent = 32767) : Narrowed x := by
  obtain ⟨hs, he, hf⟩ := f80To64_of_max h
  have hfin : ¬ x.IsFinite := by
    rw [Float80.IsFinite]
    omega
  refine ⟨hs, fun hx ↦ absurd hx hfin, fun hx ↦ absurd hx hfin, fun hx ↦ absurd hx hfin,
    fun hinf ↦ ⟨he, ?_⟩⟩
  rw [hf, fractionOf, hinf.2]
  norm_num

theorem narrowed_iff (hx : x.Valid) : Narrowed x ↔ Fits x := by
  have hexp := x.exponent_lt
  rw [Fits]
  rcases Nat.eq_zero_or_pos x.exponent with hzero | hpos
  · rw [narrowed_of_zero hzero]
    exact ⟨fun hlt ↦ ⟨fun _ ↦ hlt, by omega, by omega⟩, fun hfits ↦ hfits.1 hzero⟩
  rcases Nat.lt_or_ge 15360 x.exponent with hlow | hle
  · rcases Nat.lt_or_ge x.exponent 17407 with hhigh | hge
    · exact ⟨fun _ ↦ ⟨by omega, by omega, by omega⟩, fun _ ↦ narrowed_of_fits hx hlow hhigh⟩
    rcases Nat.lt_or_ge x.exponent 32767 with hlt | hmax
    · rw [narrowed_of_large hx hge hlt]
      exact ⟨fun hend ↦ ⟨by omega, by omega, fun _ _ ↦ hend⟩, fun hfits ↦ hfits.2.2 hge hlt⟩
    · exact ⟨fun _ ↦ ⟨by omega, by omega, by omega⟩, fun _ ↦ narrowed_of_max (by omega)⟩
  · rw [narrowed_of_small hx hpos hle]
    exact ⟨fun hland ↦ ⟨by omega, fun _ _ ↦ hland, by omega⟩, fun hfits ↦ hfits.2.1 hpos hle⟩

end Narrowed

/-! ## The order -/

section Order

variable {x y : Float80} {a b : BitVec 64}

/-- The order of doubles, in which a NaN has no place. What the fields of an infinity say is beyond
every number. -/
def Double.Le (a b : BitVec 64) : Prop := ¬ IsNaN a ∧ ¬ IsNaN b ∧ value a ≤ value b

def Double.pattern (d : BitVec 64) : ℕ := exponent d * 2 ^ 52 + fraction d

/-- The pattern without the integer bit. -/
def Float80.pattern (x : Float80) : ℕ :=
  if x.exponent = 0 then x.significand.toNat
    else x.exponent * 2 ^ 63 + (x.significand.toNat - 2 ^ 63)

theorem Double.value_eq (d : BitVec 64) :
    value d = (if sign d then -1 else 1) * ofPattern ℚ 52 (-1074) (pattern d) := by
  have hk : ((max (exponent d) 1 : ℕ) : ℤ) - 1075 =
    -1074 + ((max (exponent d) 1 - 1 : ℕ) : ℤ) := by omega
  rw [value, signedValue, pattern, ofPattern_eq _ _ (fraction_lt d), hk]

theorem Float80.value_eq (hx : x.Valid) :
    x.value = (if x.sign then -1 else 1) * ofPattern ℚ 63 (-16445) x.pattern := by
  have hlt := x.significand.isLt
  rw [value, signedValue]
  congr 1
  rw [pattern]
  split_ifs with hzero
  · rw [hzero, ofPattern]
    by_cases hbit : x.significand.toNat < 2 ^ 63
    · rw [Nat.div_eq_of_lt hbit, Nat.mod_eq_of_lt hbit, if_pos rfl]
      rfl
    · -- a pseudo-denormal is the number that it would be with exponent one
      have hdiv : x.significand.toNat / 2 ^ 63 = 1 := by omega
      have hsum : 2 ^ 63 + x.significand.toNat % 2 ^ 63 = x.significand.toNat := by omega
      rw [hdiv, if_neg one_ne_zero, hsum]
      rfl
  · have hbit : 2 ^ 63 ≤ x.significand.toNat := hx.resolve_left hzero
    have hsum : 2 ^ 63 + (x.significand.toNat - 2 ^ 63) = x.significand.toNat := by omega
    have hk : ((max x.exponent 1 : ℕ) : ℤ) - 16446 =
        -16445 + ((max x.exponent 1 - 1 : ℕ) : ℤ) := by omega
    rw [ofPattern_eq _ _ (by omega), if_neg hzero, hsum, hk]

theorem Double.value_le_iff :
    value a ≤ value b ↔ rank (sign a) (pattern a) ≤ rank (sign b) (pattern b) := by
  rw [value_eq, value_eq]
  exact signed_le_iff (ofPattern_strictMono 52 (-1074)) (ofPattern_zero 52 (-1074)) ..

theorem Float80.value_le_iff (hx : x.Valid) (hy : y.Valid) :
    x.value ≤ y.value ↔ rank x.sign x.pattern ≤ rank y.sign y.pattern := by
  rw [value_eq hx, value_eq hy]
  exact signed_le_iff (ofPattern_strictMono 63 (-16445)) (ofPattern_zero 63 (-16445)) ..

/-- Zero and the denormals, and the numbers of the size of a normal double: no bit of the exponent
is dropped. -/
def InRange (x : Float80) : Prop :=
  x.exponent = 0 ∧ x.significand.toNat < 2 ^ 63 ∨ 15360 < x.exponent ∧ x.exponent < 17407

/-- `x` keeps its place among the numbers of which no bit of the exponent is dropped. -/
def KeepsPlace (x : Float80) : Prop := ∀ y : Float80, y.Valid → InRange y →
  (x.value ≤ y.value → Double.Le (f80To64 x) (f80To64 y)) ∧
    (y.value ≤ x.value → Double.Le (f80To64 y) (f80To64 x))

/-- What becomes of `x` is where the numbers of which no bit is dropped end: at the largest
subnormal or the smallest normal double, and at the largest double or an infinity. -/
def AtBorder (x : Float80) : Prop :=
  if x.exponent = 0 then fractionOf x = 0
  else if x.exponent ≤ 15360 then
    LandsOn x 0 ∧ fractionOf x = 2 ^ 52 - 1 ∨ LandsOn x 1 ∧ fractionOf x = 0
  else LandsOn x 2046 ∧ fractionOf x = 2 ^ 52 - 1 ∨ LandsOn x 2047 ∧ fractionOf x = 0

instance : Decidable (InRange x) := inferInstanceAs (Decidable (_ ∨ _))

instance : Decidable (AtBorder x) := by unfold AtBorder; infer_instance

/-- The pattern that a number becomes of which no bit is dropped: eleven bits are cut off, and what
the exponents of the two formats differ by. -/
theorem f80To64_of_inRange (hy : y.Valid) (h : InRange y) :
    Double.sign (f80To64 y) = y.sign ∧ ¬ Double.IsNaN (f80To64 y) ∧
      (y.pattern < 2 ^ 63 ∧ Double.pattern (f80To64 y) = y.pattern / 2 ^ 11 ∨
        15361 * 2 ^ 63 ≤ y.pattern ∧ y.pattern < 17407 * 2 ^ 63 ∧
          Double.pattern (f80To64 y) + 15360 * 2 ^ 52 = y.pattern / 2 ^ 11) := by
  have hlt := y.significand.isLt
  rw [Double.pattern]
  rcases h with ⟨hzero, hsig⟩ | ⟨hlow, hhigh⟩
  · obtain ⟨hs, he, hf⟩ := f80To64_of_zero hzero
    have hp : y.pattern = y.significand.toNat := if_pos hzero
    rw [fractionOf] at hf
    refine ⟨hs, fun hnan ↦ ?_, .inl ⟨by omega, by omega⟩⟩
    have := hnan.1
    omega
  · obtain ⟨hs, he, hf⟩ := f80To64_of_middle (x := y) (by omega) (by omega)
    have hsig : 2 ^ 63 ≤ y.significand.toNat := hy.resolve_left (by omega)
    have hp : y.pattern = y.exponent * 2 ^ 63 + (y.significand.toNat - 2 ^ 63) := if_neg (by omega)
    have hn : narrowExponent y = y.exponent - 15360 := by
      rw [narrowExponent]
      omega
    rw [fractionOf] at hf
    rw [hn] at hs he
    refine ⟨by rw [hs, decide_eq_false (by omega), Bool.or_false], fun hnan ↦ ?_,
      .inr ⟨by omega, by omega, by omega⟩⟩
    have := hnan.1
    omega

/-- The order of a number and one of which no bit is dropped, by their patterns. -/
theorem le_f80To64_iff (hy : y.Valid) (h : InRange y) :
    (Double.Le (f80To64 x) (f80To64 y) ↔ ¬ Double.IsNaN (f80To64 x) ∧
      rank (Double.sign (f80To64 x)) (Double.pattern (f80To64 x)) ≤
        rank y.sign (Double.pattern (f80To64 y))) ∧
    (Double.Le (f80To64 y) (f80To64 x) ↔ ¬ Double.IsNaN (f80To64 x) ∧
      rank y.sign (Double.pattern (f80To64 y)) ≤
        rank (Double.sign (f80To64 x)) (Double.pattern (f80To64 x))) := by
  obtain ⟨hs, hnan, -⟩ := f80To64_of_inRange hy h
  rw [Double.Le, Double.Le, Double.value_le_iff, Double.value_le_iff, hs]
  simp [hnan]

/-- A number of a sign, an exponent and a significand. -/
def ofFields (s : Bool) (e : BitVec 16) (m : BitVec 64) : Float80 :=
  ⟨m, if s then 0x8000#16 ||| e else e⟩

/-- `x` has the sign that it had, and its pattern is between two others. -/
def Between (x : Float80) (lo hi : ℕ) : Prop :=
  ¬ Double.IsNaN (f80To64 x) ∧ Double.sign (f80To64 x) = x.sign ∧ lo ≤ Double.pattern (f80To64 x) ∧
    Double.pattern (f80To64 x) ≤ hi

/-- The order is kept if the order of the patterns without the signs is. -/
theorem keeps_of_patterns (hx : x.Valid) (hy : y.Valid) (hyr : InRange y)
    (hnan : ¬ Double.IsNaN (f80To64 x)) (hsign : Double.sign (f80To64 x) = x.sign)
    (hle : x.pattern ≤ y.pattern → Double.pattern (f80To64 x) ≤ Double.pattern (f80To64 y))
    (hge : y.pattern ≤ x.pattern → Double.pattern (f80To64 y) ≤ Double.pattern (f80To64 x))
    (hzero : x.pattern = 0 → Double.pattern (f80To64 x) = 0) :
    (x.value ≤ y.value → Double.Le (f80To64 x) (f80To64 y)) ∧
      (y.value ≤ x.value → Double.Le (f80To64 y) (f80To64 x)) := by
  obtain ⟨-, -, hp⟩ := f80To64_of_inRange hy hyr
  have hzero' : y.pattern = 0 → Double.pattern (f80To64 y) = 0 := fun h ↦ by omega
  rw [Float80.value_le_iff hx hy, Float80.value_le_iff hy hx, (le_f80To64_iff hy hyr).1,
    (le_f80To64_iff hy hyr).2, hsign]
  exact ⟨fun h ↦ ⟨hnan, rank_le_rank hle hge hzero hzero' h⟩,
    fun h ↦ ⟨hnan, rank_le_rank hge hle hzero' hzero h⟩⟩

/-- A number between the denormals and the normal doubles keeps its place if and only if it becomes
the largest subnormal or the smallest normal double. -/
theorem keepsPlace_iff_small (hx : x.Valid) (hlow : 2 ^ 63 ≤ x.pattern)
    (hhigh : x.pattern < 15361 * 2 ^ 63) :
    KeepsPlace x ↔ Between x (2 ^ 52 - 1) (2 ^ 52) := by
  constructor
  · intro h
    -- the largest denormal and the smallest number with a normal double, of the same sign
    obtain ⟨y, hy, hyr, hs, hp, hq⟩ : ∃ y : Float80, y.Valid ∧ InRange y ∧ y.sign = x.sign ∧
        y.pattern = 2 ^ 63 - 1 ∧ Double.pattern (f80To64 y) = 2 ^ 52 - 1 := by
      refine ⟨ofFields x.sign 0 (BitVec.ofNat 64 (2 ^ 63 - 1)), ?_⟩
      cases x.sign <;> decide
    obtain ⟨z, hz, hzr, hs', hp', hq'⟩ : ∃ z : Float80, z.Valid ∧ InRange z ∧ z.sign = x.sign ∧
        z.pattern = 15361 * 2 ^ 63 ∧ Double.pattern (f80To64 z) = 2 ^ 52 := by
      refine ⟨ofFields x.sign 15361 (BitVec.ofNat 64 (2 ^ 63)), ?_⟩
      cases x.sign <;> decide
    have hyx := h y hy hyr
    have hzx := h z hz hzr
    rw [Float80.value_le_iff hx hy, Float80.value_le_iff hy hx, (le_f80To64_iff hy hyr).1,
      (le_f80To64_iff hy hyr).2, hs, hp, hq] at hyx
    rw [Float80.value_le_iff hx hz, Float80.value_le_iff hz hx, (le_f80To64_iff hz hzr).1,
      (le_f80To64_iff hz hzr).2, hs', hp', hq'] at hzx
    rw [Between]
    generalize x.sign = s at hyx hzx ⊢
    generalize Double.sign (f80To64 x) = t at hyx hzx ⊢
    cases s with
    | false =>
      obtain ⟨hnan, hle⟩ := hyx.2 (rank_false_le_iff.mpr (by omega))
      obtain ⟨-, hge⟩ := hzx.1 (rank_false_le_iff.mpr (by omega))
      obtain ⟨rfl, hlo⟩ := rank_false_le (by norm_num) hle
      exact ⟨hnan, rfl, hlo, rank_false_le_iff.mp hge⟩
    | true =>
      obtain ⟨hnan, hle⟩ := hyx.1 (rank_true_le_iff.mpr (by omega))
      obtain ⟨-, hge⟩ := hzx.2 (rank_true_le_iff.mpr (by omega))
      obtain ⟨rfl, hlo⟩ := le_rank_true (by norm_num) hle
      exact ⟨hnan, rfl, hlo, rank_true_le_iff.mp hge⟩
  · rintro ⟨hnan, hsign, hlo, hhi⟩ y hy hyr
    obtain ⟨-, -, hp⟩ := f80To64_of_inRange hy hyr
    exact keeps_of_patterns hx hy hyr hnan hsign (fun hle ↦ by omega) (fun hge ↦ by omega)
      (fun hzero ↦ by omega)

/-- A number above the normal doubles keeps its place if and only if it becomes the largest double
or an infinity. -/
theorem keepsPlace_iff_large (hx : x.Valid) (hlow : 17407 * 2 ^ 63 ≤ x.pattern) :
    KeepsPlace x ↔ Between x (2047 * 2 ^ 52 - 1) (2047 * 2 ^ 52) := by
  constructor
  · intro h
    obtain ⟨y, hy, hyr, hs, hp, hq⟩ : ∃ y : Float80, y.Valid ∧ InRange y ∧ y.sign = x.sign ∧
        y.pattern = 17407 * 2 ^ 63 - 1 ∧ Double.pattern (f80To64 y) = 2047 * 2 ^ 52 - 1 := by
      refine ⟨ofFields x.sign 17406 (BitVec.ofNat 64 (2 ^ 64 - 1)), ?_⟩
      cases x.sign <;> decide
    have hyx := h y hy hyr
    rw [Float80.value_le_iff hx hy, Float80.value_le_iff hy hx, (le_f80To64_iff hy hyr).1,
      (le_f80To64_iff hy hyr).2, hs, hp, hq] at hyx
    have hfrac := Double.fraction_lt (f80To64 x)
    have hexp := Double.exponent_lt (f80To64 x)
    -- what is not a NaN is at most an infinity
    have hhi (hnan : ¬ Double.IsNaN (f80To64 x)) : Double.pattern (f80To64 x) ≤ 2047 * 2 ^ 52 := by
      rw [Double.IsNaN] at hnan
      rw [Double.pattern]
      omega
    rw [Between]
    generalize x.sign = s at hyx ⊢
    generalize Double.sign (f80To64 x) = t at hyx ⊢
    cases s with
    | false =>
      obtain ⟨hnan, hle⟩ := hyx.2 (rank_false_le_iff.mpr (by omega))
      obtain ⟨rfl, hlo⟩ := rank_false_le (by norm_num) hle
      exact ⟨hnan, rfl, hlo, hhi hnan⟩
    | true =>
      obtain ⟨hnan, hle⟩ := hyx.1 (rank_true_le_iff.mpr (by omega))
      obtain ⟨rfl, hlo⟩ := le_rank_true (by norm_num) hle
      exact ⟨hnan, rfl, hlo, hhi hnan⟩
  · rintro ⟨hnan, hsign, hlo, -⟩ y hy hyr
    obtain ⟨-, -, hp⟩ := f80To64_of_inRange hy hyr
    exact keeps_of_patterns hx hy hyr hnan hsign (fun hle ↦ by omega) (fun hge ↦ by omega)
      (fun hzero ↦ by omega)

/-- Numbers of which no bit is dropped keep their order. -/
theorem InRange.keepsPlace (hx : x.Valid) (h : InRange x) : KeepsPlace x := by
  intro y hy hyr
  obtain ⟨hs, hnan, hp⟩ := f80To64_of_inRange hx h
  obtain ⟨-, -, hp'⟩ := f80To64_of_inRange hy hyr
  exact keeps_of_patterns hx hy hyr hnan hs (fun hle ↦ by omega) (fun hge ↦ by omega)
    (fun hzero ↦ by omega)

theorem between_small_iff (hpos : 0 < x.exponent) (hle : x.exponent ≤ 15360) :
    Between x (2 ^ 52 - 1) (2 ^ 52) ↔
      LandsOn x 0 ∧ fractionOf x = 2 ^ 52 - 1 ∨ LandsOn x 1 ∧ fractionOf x = 0 := by
  obtain ⟨-, -, hf⟩ := f80To64_of_middle (x := x) hpos (by omega)
  have hfrac := Double.fraction_lt (f80To64 x)
  rw [landsOn_iff hpos (by omega) (by norm_num), landsOn_iff hpos (by omega) (by norm_num),
    ← hf, Between, Double.IsNaN, Double.pattern]
  constructor
  · rintro ⟨-, hs, hlo, hhi⟩
    rcases Nat.eq_zero_or_pos (Double.exponent (f80To64 x)) with he | he
    · exact .inl ⟨⟨hs, he⟩, by omega⟩
    · exact .inr ⟨⟨hs, by omega⟩, by omega⟩
  · rintro (⟨⟨hs, he⟩, hfull⟩ | ⟨⟨hs, he⟩, hnone⟩)
    · exact ⟨fun hnan ↦ by omega, hs, by omega, by omega⟩
    · exact ⟨fun hnan ↦ by omega, hs, by omega, by omega⟩

theorem between_large_iff (hge : 15360 < x.exponent) (hlt : x.exponent < 32767) :
    Between x (2047 * 2 ^ 52 - 1) (2047 * 2 ^ 52) ↔
      LandsOn x 2046 ∧ fractionOf x = 2 ^ 52 - 1 ∨ LandsOn x 2047 ∧ fractionOf x = 0 := by
  obtain ⟨-, -, hf⟩ := f80To64_of_middle (x := x) (by omega) hlt
  have hfrac := Double.fraction_lt (f80To64 x)
  rw [landsOn_iff (by omega) hlt (by norm_num), landsOn_iff (by omega) hlt (by norm_num),
    ← hf, Between, Double.IsNaN, Double.pattern]
  constructor
  · rintro ⟨-, hs, hlo, hhi⟩
    rcases Nat.lt_or_ge (Double.exponent (f80To64 x)) 2047 with he | he
    · exact .inl ⟨⟨hs, by omega⟩, by omega⟩
    · exact .inr ⟨⟨hs, by omega⟩, by omega⟩
  · rintro (⟨⟨hs, he⟩, hfull⟩ | ⟨⟨hs, he⟩, hnone⟩)
    · exact ⟨fun hnan ↦ by omega, hs, by omega, by omega⟩
    · exact ⟨fun hnan ↦ by omega, hs, by omega, by omega⟩

/-- The numbers that keep their place: those of which no bit of the exponent is dropped, and the
ones that fall on the border of these. -/
theorem keepsPlace_iff (hx : x.Valid) (hfin : x.IsFinite) :
    KeepsPlace x ↔ InRange x ∨ AtBorder x := by
  have hlt := x.significand.isLt
  have hfin : x.exponent < 32767 := hfin
  by_cases hin : InRange x
  · exact iff_of_true (hin.keepsPlace hx) (.inl hin)
  rw [or_iff_right hin, AtBorder]
  rw [InRange] at hin
  by_cases hzero : x.exponent = 0
  · have hsig : 2 ^ 63 ≤ x.significand.toNat := not_lt.mp fun h ↦ hin (.inl ⟨hzero, h⟩)
    have hp : x.pattern = x.significand.toNat := if_pos hzero
    obtain ⟨hs, he, hf⟩ := f80To64_of_zero hzero
    have hfrac := Double.fraction_lt (f80To64 x)
    rw [keepsPlace_iff_small hx (by omega) (by omega), if_pos hzero, Between,
      Double.pattern, Double.IsNaN, ← hf, he, hs]
    constructor
    · rintro ⟨-, -, -, hhi⟩
      omega
    · intro hnone
      exact ⟨fun hnan ↦ by omega, rfl, by omega, by omega⟩
  · have hsig : 2 ^ 63 ≤ x.significand.toNat := hx.resolve_left hzero
    have hp : x.pattern = x.exponent * 2 ^ 63 + (x.significand.toNat - 2 ^ 63) := if_neg hzero
    rw [if_neg hzero]
    by_cases hle : x.exponent ≤ 15360
    · rw [if_pos hle, keepsPlace_iff_small hx (by omega) (by omega),
        between_small_iff (by omega) hle]
    · rw [if_neg hle, keepsPlace_iff_large hx (by omega), between_large_iff (by omega) hfin]

end Order

/-! ## Both conversions -/

end Felix86
