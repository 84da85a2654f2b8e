import Mathlib.Data.BitVec
import Mathlib.Tactic.Linarith
import Mathlib.Tactic.Positivity
import Mathlib.Tactic.Ring

/-!
# Integer instructions of x86

What an instruction computes from its operands: the value for its destination and what it does to
the six arithmetic flags. The definitions follow the manual: a carry is an unsigned sum that does
not fit, an overflow a signed one, and the auxiliary carry is that of the lowest four bits.

The second part says the same bit by bit, which is how flags are computed without an addition that
is wider than the operands.
-/

namespace Felix86

namespace X86

/-- What an instruction does to a flag. -/
inductive Effect
  | keep
  | undefined
  | set (b : Bool)
deriving DecidableEq, Repr

structure Flags where
  cf : Effect
  pf : Effect
  af : Effect
  zf : Effect
  sf : Effect
  of : Effect
deriving DecidableEq, Repr

/-- No value if the destination is not written. -/
structure Outcome (w : ℕ) where
  value : Option (BitVec w)
  flags : Flags

variable {w : ℕ}

/-! ## Flags -/

/-- The low byte has an even number of ones. -/
def parity (r : BitVec w) : Bool := (List.range 8).countP (fun j ↦ r.getLsbD j) % 2 == 0

@[simp] theorem parity_zero : parity 0#w = true := by simp [parity]

/-- The flags that describe a result. -/
def resultFlags (r : BitVec w) (cf af of : Effect) : Flags where
  cf := cf
  pf := .set (parity r)
  af := af
  zf := .set (r == 0#w)
  sf := .set r.msb
  of := of

/-- Every flag is left alone. -/
def Flags.same : Flags := ⟨.keep, .keep, .keep, .keep, .keep, .keep⟩

/-- A number that a signed operand can have. -/
def InRange (w : ℕ) (n : ℤ) : Prop := -2 ^ (w - 1) ≤ n ∧ n < 2 ^ (w - 1)

instance (w : ℕ) (n : ℤ) : Decidable (InRange w n) := inferInstanceAs (Decidable (_ ∧ _))

/-! ## Addition, subtraction and logic -/

section

variable (a b : BitVec w) (c : Bool)

def sum : BitVec w := a + b + (BitVec.ofBool c).setWidth w

def addCarry : Bool := decide (2 ^ w ≤ a.toNat + b.toNat + c.toNat)

def addAuxiliary : Bool := decide (16 ≤ a.toNat % 16 + b.toNat % 16 + c.toNat)

def addOverflow : Bool := !decide (InRange w (a.toInt + b.toInt + c.toNat))

def difference : BitVec w := a - b - (BitVec.ofBool c).setWidth w

def subBorrow : Bool := decide (a.toNat < b.toNat + c.toNat)

def subAuxiliary : Bool := decide (a.toNat % 16 < b.toNat % 16 + c.toNat)

def subOverflow : Bool := !decide (InRange w (a.toInt - b.toInt - c.toNat))

def adc : Outcome w where
  value := some (sum a b c)
  flags := resultFlags (sum a b c) (.set (addCarry a b c)) (.set (addAuxiliary a b c))
    (.set (addOverflow a b c))

def sbb : Outcome w where
  value := some (difference a b c)
  flags := resultFlags (difference a b c) (.set (subBorrow a b c)) (.set (subAuxiliary a b c))
    (.set (subOverflow a b c))

def add : Outcome w := adc a b false

def sub : Outcome w := sbb a b false

def cmp : Outcome w := { sub a b with value := none }

def inc : Outcome w := { add a 1 with flags := { (add a 1).flags with cf := .keep } }

def dec : Outcome w := { sub a 1 with flags := { (sub a 1).flags with cf := .keep } }

/-- `AND`, `OR` and `XOR`. -/
def logic (r : BitVec w) : Outcome w where
  value := some r
  flags := resultFlags r (.set false) .undefined (.set false)

def test : Outcome w := { logic (a &&& b) with value := none }

end

/-! ## Shifts -/

/-- The count of a shift or a rotation: five bits of it, or six for 64-bit operands. -/
def maskCount (w count : ℕ) : ℕ := count % if w = 64 then 64 else 32

section

variable (a b : BitVec w) (c : ℕ)

/-- A shift that is not by zero. `carry` is the last bit that is shifted out, and `over` the
overflow flag after a shift by one. -/
def shifted (r : BitVec w) (carry : Effect) (overflow : Bool) : Outcome w where
  value := some r
  flags := resultFlags r carry .undefined (if c = 1 then .set overflow else .undefined)

/-- A shift by zero writes the value back. -/
def unshifted : Outcome w := ⟨some a, .same⟩

/-- Beyond the width `CF` is undefined. -/
def shl : Outcome w :=
  if c = 0 then unshifted a
  else shifted c (a <<< c) (if c ≤ w then .set (a.getLsbD (w - c)) else .undefined)
    ((a <<< c).msb ^^ a.getLsbD (w - c))

def shr : Outcome w :=
  if c = 0 then unshifted a
  else shifted c (a >>> c) (if c ≤ w then .set (a.getLsbD (c - 1)) else .undefined) a.msb

/-- The sign is shifted in, and beyond the width it is also what is shifted out. -/
def sar : Outcome w :=
  if c = 0 then unshifted a
  else shifted c (a.sshiftRight c) (.set (if c ≤ w then a.getLsbD (c - 1) else a.msb)) false

/-- What `a` and the bits of `b` behind it are once shifted to the left, by at most the width. -/
def shld : Outcome w :=
  if c = 0 then unshifted a
  else
    let r := ((a ++ b) <<< c).extractLsb' w w
    shifted c r (.set (a.getLsbD (w - c))) (r.msb ^^ a.msb)

/-- The same to the right, where the bits of `b` are in front. -/
def shrd : Outcome w :=
  if c = 0 then unshifted a
  else
    let r := ((b ++ a) >>> c).setWidth w
    shifted c r (.set (a.getLsbD (c - 1))) (r.msb ^^ a.msb)

end

/-! ## Rotations -/

section

variable (a : BitVec w) (f : Bool) (c : ℕ)

/-- A rotation by zero does nothing at all. -/
def unrotated : Outcome w := ⟨none, .same⟩

/-- A rotation that is not by zero; `over` is the overflow flag after a rotation by one. -/
def rotated (r : BitVec w) (carry overflow : Bool) : Outcome w where
  value := some r
  flags := { Flags.same with
    cf := .set carry
    of := if c = 1 then .set overflow else .undefined }

def rol : Outcome w :=
  if c = 0 then unrotated
  else
    let r := a.rotateLeft c
    rotated c r (r.getLsbD 0) (r.msb ^^ r.getLsbD 0)

def ror : Outcome w :=
  if c = 0 then unrotated
  else
    let r := a.rotateRight c
    rotated c r r.msb (r.getLsbD (w - 2) ^^ r.msb)

/-- The operand with the carry flag above it, which is what `RCL` and `RCR` rotate. -/
def withCarry : BitVec (1 + w) := BitVec.ofBool f ++ a

def rcl : Outcome w :=
  if c = 0 then unrotated
  else
    let x := (withCarry a f).rotateLeft c
    rotated c (x.setWidth w) x.msb ((x.setWidth w).msb ^^ x.msb)

/-- `OF` is that of the operand before the rotation. -/
def rcr : Outcome w :=
  if c = 0 then unrotated
  else
    let x := (withCarry a f).rotateRight c
    rotated c (x.setWidth w) x.msb (a.msb ^^ f)

end

/-! ## Products -/

section

variable (w) (z : ℤ)

/-- The halves of a product that is the number `z`. -/
def productHigh : BitVec w := BitVec.ofInt w (z / 2 ^ w)

def productLow : BitVec w := BitVec.ofInt w z

/-- The upper half is not the zero extension of the lower one. -/
def mulOverflow : Bool := productHigh w z != 0

/-- It is not the sign extension. -/
def imulOverflow : Bool :=
  productHigh w z != if (productLow w z).msb then BitVec.allOnes w else 0

end

/-! ## Bits -/

/-- Bit `n` replaced. -/
def withBit (a : BitVec w) (n : ℕ) (b : Bool) : BitVec w :=
  if b then a ||| BitVec.twoPow w n else a &&& ~~~BitVec.twoPow w n

theorem getLsbD_withBit {a : BitVec w} {n : ℕ} {b : Bool} (hn : n < w) (m : ℕ) :
    (withBit a n b).getLsbD m = if m = n then b else a.getLsbD m := by
  rw [withBit]
  by_cases hm : m = n
  · subst hm
    cases b <;> simp [hn]
  · by_cases hmw : m < w
    · cases b <;> simp [hm, hmw]
    · simp [hm, BitVec.getLsbD_of_ge _ m (not_lt.mp hmw)]

theorem withBit_self {a : BitVec w} {n : ℕ} (hn : n < w) : withBit a n (a.getLsbD n) = a := by
  apply BitVec.eq_of_getLsbD_eq
  intro m _
  rw [getLsbD_withBit hn]
  split_ifs with hm
  · rw [hm]
  · rfl

theorem withBit_eq_self_iff {a : BitVec w} {n : ℕ} {b : Bool} (hn : n < w) :
    withBit a n b = a ↔ b = a.getLsbD n := by
  constructor
  · intro h
    rw [← h, getLsbD_withBit hn, if_pos rfl]
  · rintro rfl
    exact withBit_self hn

/-! ## Divisions -/

section

variable (hi lo d : BitVec w)

/-- The quotient and the remainder of a dividend in two halves, unless the processor faults: on a
zero divisor, and on a quotient that does not fit. -/
def div : Option (BitVec w × BitVec w) :=
  let n := (hi ++ lo).toNat
  if d = 0 ∨ 2 ^ w ≤ n / d.toNat then none
  else some (BitVec.ofNat w (n / d.toNat), BitVec.ofNat w (n % d.toNat))

/-- The quotient is truncated, and the remainder has the sign of the dividend. -/
def idiv : Option (BitVec w × BitVec w) :=
  let n := (hi ++ lo).toInt
  if d = 0 ∨ ¬ InRange w (n.tdiv d.toInt) then none
  else some (BitVec.ofInt w (n.tdiv d.toInt), BitVec.ofInt w (n.tmod d.toInt))

end

/-! ## Bit by bit -/

/-- A carry or a borrow between neighbouring bits, from the two operands and the result: `n` is the
number of bits below. -/
theorem carry_succ_eq {a b : BitVec w} {c : Bool} {n : ℕ} (hn : n < w) :
    BitVec.carry (n + 1) a b c =
      ((!(sum a b c).getLsbD n && (a.getLsbD n || b.getLsbD n)) ||
          (a.getLsbD n && b.getLsbD n)) := by
  rw [BitVec.carry_succ, sum, BitVec.getLsbD_add_add_bool hn]
  cases a.getLsbD n <;> cases b.getLsbD n <;> cases BitVec.carry n a b c <;> rfl

/-- To subtract is to add the complement. -/
theorem difference_eq (a b : BitVec w) (c : Bool) : difference a b c = sum a (~~~b) (!c) := by
  have hbit : (BitVec.ofBool (!c)).setWidth w = 1#w - (BitVec.ofBool c).setWidth w := by
    have hone : (BitVec.ofBool true).setWidth w = 1#w := BitVec.eq_of_toNat_eq (by simp)
    have hzero : (BitVec.ofBool false).setWidth w = 0#w := BitVec.eq_of_toNat_eq (by simp)
    cases c with
    | false => rw [Bool.not_false, hone, hzero, BitVec.sub_zero]
    | true => rw [Bool.not_true, hone, hzero, BitVec.sub_self]
  rw [difference, sum, hbit, BitVec.not_eq_neg_add]
  ring

/-- An overflow is a carry into the sign bit that differs from the carry out of it. -/
theorem addOverflow_eq (a b : BitVec w) (c : Bool) (hw : 0 < w) :
    addOverflow a b c = (BitVec.carry w a b c ^^ BitVec.carry (w - 1) a b c) := by
  obtain ⟨n, rfl⟩ : ∃ n, w = n + 1 := ⟨w - 1, by omega⟩
  have hpow : 2 ^ (n + 1) = 2 * 2 ^ n := Nat.pow_succ'
  have hlow (x : BitVec (n + 1)) : x.toNat % 2 ^ n =
      if x.toNat < 2 ^ n then x.toNat else x.toNat - 2 ^ n := by
    have hx := x.isLt
    split
    · next h => exact Nat.mod_eq_of_lt h
    · next h =>
      rw [Nat.mod_eq_sub_mod (Nat.not_lt.mp h)]
      exact Nat.mod_eq_of_lt (by omega)
  have hint (x : BitVec (n + 1)) : x.toInt =
      if x.toNat < 2 ^ n then (x.toNat : ℤ) else x.toNat - 2 * (2 ^ n : ℕ) := by
    rw [BitVec.toInt_eq_toNat_cond, hpow]
    split <;> split <;> omega
  have hcast : (2 : ℤ) ^ n = (2 ^ n : ℕ) := by push_cast; rfl
  have ha := a.isLt
  have hb := b.isLt
  have hc := c.toNat_lt
  rw [Bool.eq_iff_iff]
  simp only [addOverflow, InRange, BitVec.carry, Nat.add_sub_cancel, hlow, hint, hcast,
    Nat.mod_eq_of_lt ha, Nat.mod_eq_of_lt hb, Bool.not_eq_true', decide_eq_false_iff_not,
    bne_iff_ne, ne_eq, decide_eq_decide]
  generalize 2 ^ n = p at *
  split <;> split <;> omega

theorem subOverflow_eq (a b : BitVec w) (c : Bool) (hw : 0 < w) :
    subOverflow a b c = addOverflow a (~~~b) (!c) := by
  have hnot : (~~~b).toInt = -1 - b.toInt := by
    obtain ⟨n, rfl⟩ : ∃ n, w = n + 1 := ⟨w - 1, by omega⟩
    have hpow : 2 ^ (n + 1) = 2 * 2 ^ n := Nat.pow_succ'
    have hb := b.isLt
    rw [BitVec.toInt_eq_toNat_cond, BitVec.toInt_eq_toNat_cond, BitVec.toNat_not]
    generalize 2 ^ (n + 1) = p at *
    split <;> split <;> omega
  have hc : ((!c).toNat : ℤ) = 1 - c.toNat := by cases c <;> rfl
  rw [subOverflow, addOverflow, hnot, hc]
  congr 3
  ring

/-! ## Halves of a product -/

section

variable {z : ℤ}

theorem productLow_natCast (n : ℕ) : productLow w (n : ℤ) = BitVec.ofNat w n :=
  BitVec.ofInt_natCast ..

theorem productHigh_natCast (n : ℕ) : productHigh w (n : ℤ) = BitVec.ofNat w (n / 2 ^ w) := by
  rw [productHigh, ← BitVec.ofInt_natCast]
  push_cast
  rfl

theorem toInt_ofInt_of_inRange (hw : 0 < w) (h : InRange w z) : (BitVec.ofInt w z).toInt = z := by
  have hpow : (2 : ℤ) ^ w = 2 * 2 ^ (w - 1) := by rw [← pow_succ', Nat.sub_add_cancel hw]
  obtain ⟨hlow, hhigh⟩ := h
  rw [BitVec.toInt_ofInt]
  apply Int.bmod_eq_of_le <;> push_cast <;> omega

/-- The upper half as the host finds it. -/
theorem ofInt_ushiftRight (z : ℤ) :
    ((BitVec.ofInt (w + w) z) >>> w).setWidth w = productHigh w z := by
  have hpos : (0 : ℤ) < 2 ^ w := by positivity
  have hdouble : ((2 ^ (w + w) : ℕ) : ℤ) = 2 ^ w * 2 ^ w := by push_cast; exact pow_add _ _ _
  have hmod := Int.emod_nonneg z (mul_pos hpos hpos).ne'
  -- what the double width drops is a multiple of it
  have hdrop : z % (2 ^ w * 2 ^ w) / 2 ^ w % 2 ^ w = z / 2 ^ w % 2 ^ w := by
    conv_rhs => rw [← Int.emod_add_mul_ediv z (2 ^ w * 2 ^ w), mul_assoc,
      Int.add_mul_ediv_left _ _ hpos.ne', Int.add_mul_emod_self_left]
  have hcast : (((BitVec.ofInt (w + w) z >>> w).setWidth w).toNat : ℤ) = z / 2 ^ w % 2 ^ w := by
    rw [← hdrop, BitVec.toNat_setWidth, BitVec.toNat_ushiftRight, Nat.shiftRight_eq_div_pow,
      BitVec.toNat_ofInt, hdouble]
    push_cast
    rw [Int.toNat_of_nonneg hmod]
  apply BitVec.eq_of_toNat_eq
  zify
  rw [hcast, productHigh, BitVec.toNat_ofInt, Int.toNat_of_nonneg (Int.emod_nonneg _ _)]
  · push_cast
    rfl
  · push_cast
    exact hpos.ne'

theorem abs_product_le (a b : BitVec w) :
    |a.toInt * b.toInt| ≤ 2 ^ (w - 1) * 2 ^ (w - 1) := by
  have hbound (x : BitVec w) : |x.toInt| ≤ 2 ^ (w - 1) := by
    rw [abs_le]
    exact ⟨x.le_toInt, (BitVec.toInt_lt).le⟩
  rw [abs_mul]
  exact mul_le_mul (hbound a) (hbound b) (abs_nonneg _) (by positivity)

theorem inRange_product (hw : 0 < w) (a b : BitVec w) : InRange w (a.toInt * b.toInt / 2 ^ w) := by
  have hpow : (2 : ℤ) ^ w = 2 * 2 ^ (w - 1) := by rw [← pow_succ', Nat.sub_add_cancel hw]
  have hpos : (0 : ℤ) < 2 ^ (w - 1) := by positivity
  obtain ⟨hlow, hhigh⟩ := abs_le.mp (abs_product_le a b)
  rw [InRange, hpow]
  generalize a.toInt * b.toInt = z at *
  generalize (2 : ℤ) ^ (w - 1) = p at *
  constructor
  · rw [Int.le_ediv_iff_mul_le (by omega)]
    nlinarith
  · rw [Int.ediv_lt_iff_lt_mul (by omega)]
    nlinarith

theorem mulOverflow_natCast {n : ℕ} (hn : n < 2 ^ (w + w)) :
    mulOverflow w (n : ℤ) = decide (n / 2 ^ w ≠ 0) := by
  have hlt : n / 2 ^ w < 2 ^ w := by
    rw [Nat.div_lt_iff_lt_mul (Nat.two_pow_pos w), ← Nat.pow_add]
    exact hn
  rw [mulOverflow, productHigh_natCast, Bool.eq_iff_iff, bne_iff_ne, decide_eq_true_iff, Ne,
    ← BitVec.toNat_inj, BitVec.toNat_ofNat, Nat.mod_eq_of_lt hlt]
  rfl

/-- Which upper half makes a number of two halves small. -/
theorem small_iff {p q r : ℤ} (h0 : 0 ≤ r) (h1 : r < 2 * p) :
    (-p ≤ 2 * p * q + r ∧ 2 * p * q + r < p) ↔ q = if p ≤ r then -1 else 0 := by
  split_ifs with hr
  · constructor
    · rintro ⟨hlow, hhigh⟩
      have hq1 : q < 0 := by nlinarith
      have hq2 : -2 < q := by nlinarith
      omega
    · rintro rfl
      constructor <;> linarith
  · constructor
    · rintro ⟨hlow, hhigh⟩
      have hq1 : q < 1 := by nlinarith
      have hq2 : -1 < q := by nlinarith
      omega
    · rintro rfl
      constructor <;> linarith

/-- An upper half that is a sign extension is that of a product that fits the lower half. -/
theorem imulOverflow_eq (hw : 0 < w) (h : InRange w (z / 2 ^ w)) :
    imulOverflow w z = !decide (InRange w z) := by
  have hpow : (2 : ℤ) ^ w = 2 * 2 ^ (w - 1) := by rw [← pow_succ', Nat.sub_add_cancel hw]
  have hpos : (0 : ℤ) < 2 ^ w := by positivity
  have hmod := Int.emod_nonneg z hpos.ne'
  have hmsb : (productLow w z).msb = decide (2 ^ (w - 1) ≤ z % 2 ^ w) := by
    rw [BitVec.msb_eq_decide, decide_eq_decide, productLow, BitVec.toNat_ofInt]
    push_cast
    rw [← Int.ofNat_le, Int.toNat_of_nonneg hmod]
    push_cast
    rfl
  -- the extension of the lower half, as a number
  have hext : (if (productLow w z).msb then BitVec.allOnes w else 0).toInt =
      if 2 ^ (w - 1) ≤ z % 2 ^ w then -1 else 0 := by
    simp only [hmsb, decide_eq_true_eq]
    split
    · rw [BitVec.toInt_allOnes, if_pos hw]
    · exact BitVec.toInt_zero
  have hsmall : InRange w z ↔ z / 2 ^ w = if 2 ^ (w - 1) ≤ z % 2 ^ w then -1 else 0 := by
    have hlt := (Int.emod_lt_of_pos z hpos).trans_eq hpow
    rw [← small_iff hmod hlt, ← hpow, Int.mul_ediv_add_emod, InRange]
  have hhigh : (productHigh w z).toInt = z / 2 ^ w := toInt_ofInt_of_inRange hw h
  rw [imulOverflow, bne]
  refine congrArg not ?_
  rw [Bool.eq_iff_iff, beq_iff_eq, ← BitVec.toInt_inj, hhigh, hext, decide_eq_true_iff, hsmall]

end

/-! ## Subtraction with borrow, in two steps -/

/-- The overflow of a subtraction, from the signs. -/
theorem ssubOverflow_eq_signs (a b : BitVec w) :
    a.ssubOverflow b = ((a.msb ^^ (a - b).msb) && (a.msb ^^ b.msb)) := by
  rw [BitVec.ssubOverflow_eq]
  cases a.msb <;> cases b.msb <;> cases (a - b).msb <;> rfl

theorem ssubOverflow_eq_not_inRange (a b : BitVec w) :
    a.ssubOverflow b = !decide (InRange w (a.toInt - b.toInt)) := by
  rw [BitVec.ssubOverflow, ← Bool.decide_or, ← decide_not, decide_eq_decide, InRange]
  omega

theorem toInt_ofBool (hw : 2 ≤ w) (c : Bool) :
    ((BitVec.ofBool c).setWidth w).toInt = c.toNat := by
  have hpow : 2 ^ 2 ≤ 2 ^ w := Nat.pow_le_pow_right (by decide) hw
  have hc := c.toNat_lt
  have hnat : ((BitVec.ofBool c).setWidth w).toNat = c.toNat := by
    rw [BitVec.toNat_setWidth, BitVec.toNat_ofBool, Nat.mod_eq_of_lt (by omega)]
  rw [BitVec.toInt_eq_toNat_of_lt (by omega), hnat]

/-- The overflow of one of the two steps is that of the whole, except where the first step ends one
above the range and the borrow brings it back. -/
theorem twoStepOverflow_iff (a b : BitVec w) (c : Bool) (hw : 2 ≤ w) :
    (a.ssubOverflow b || (a - b).ssubOverflow ((BitVec.ofBool c).setWidth w)) = subOverflow a b c ↔
      ¬ (c ∧ a.toInt - b.toInt = 2 ^ (w - 1)) := by
  have hcarry := toInt_ofBool hw c
  have hc := c.toNat_lt
  have htrue : c = true ↔ c.toNat = 1 := by cases c <;> decide
  rw [ssubOverflow_eq_not_inRange, ssubOverflow_eq_not_inRange, hcarry,
    subOverflow, htrue]
  by_cases hfirst : InRange w (a.toInt - b.toInt)
  · have hno : ¬ a.ssubOverflow b := by
      rw [ssubOverflow_eq_not_inRange]
      simpa using hfirst
    rw [BitVec.toInt_sub_of_not_ssubOverflow hno, decide_eq_true hfirst]
    refine iff_of_true rfl fun ⟨_, hsum⟩ ↦ ?_
    exact absurd hfirst.2 (by rw [hsum]; exact lt_irrefl _)
  · rw [decide_eq_false hfirst, Bool.not_false, Bool.true_or, eq_comm, Bool.not_eq_true',
      decide_eq_false_iff_not]
    have hpos : (0 : ℤ) < 2 ^ (w - 1) := by positivity
    rw [InRange] at hfirst ⊢
    omega

end X86

end Felix86
