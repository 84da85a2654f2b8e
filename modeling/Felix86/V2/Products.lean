import Felix86.V2.FastPaths
import Felix86.V2.Division

/-!
# Multiplication

A product of two operands has twice their size. `MUL` and `IMUL` with one operand leave both halves
of it in registers, the other forms of `IMUL` the lower half only. In either case `CF` and `OF` tell
whether the upper half is more than an extension of the lower.

The host multiplies doublewords and quadwords, so bytes and words are extended first. One extension
is wrong: the handler of `IMUL` with one byte extends `AL` twice instead of `AL` and the operand.
-/

namespace Felix86

namespace Jit

open Riscv

variable {ρ : Type*} (k : Config) (i : Insn)

/-! ## Multiplication instructions -/

inductive MulOp
  | mul
  | imul1
  | imul2
  | imul3
deriving DecidableEq, Repr

def MulOp.mnemonic : MulOp → Mnemonic ρ
  | .mul => .mul
  | .imul1 => .imul 1
  | .imul2 => .imul 2
  | .imul3 => .imul 3

/-- The factors. With one operand the other factor is the accumulator, where the lower half of the
product goes. -/
def MulOp.factors (op : MulOp) : Operand × Operand :=
  let accumulator := (dividendHalves i.op0.size).2
  match op with
  | .mul | .imul1 => (.reg accumulator.1 accumulator.2, i.op0)
  | .imul2 => (i.op0, i.op1)
  | .imul3 => (i.op1, i.op2)

/-- The exact product. -/
def MulOp.product (op : MulOp) (c : Core ρ) : ℤ :=
  let a := (op.factors i).1.value k i i.op0.size.bits c
  let b := (op.factors i).2.value k i i.op0.size.bits c
  match op with
  | .mul => ((a.toNat * b.toNat : ℕ) : ℤ)
  | _ => a.toInt * b.toInt

/-- The upper half of the product is not the extension of the lower. -/
def MulOp.overflow (op : MulOp) (w : ℕ) (z : ℤ) : Bool :=
  match op with
  | .mul => X86.mulOverflow w z
  | _ => X86.imulOverflow w z

/-- Both halves of a product where a division takes its dividend from. -/
def writeProduct (size : Size) (z : ℤ) (c : Core ρ) : Core ρ :=
  writeHalf (dividendHalves size).1 (X86.productHigh size.bits z)
    (writeHalf (dividendHalves size).2 (X86.productLow size.bits z) c)

def MulOp.expected (op : MulOp) (c : Core ρ) : Core ρ :=
  let z := op.product k i c
  match op with
  | .mul | .imul1 => writeProduct i.op0.size z c
  | .imul2 | .imul3 => i.op0.assign k i (X86.productLow _ z) c

/-- What multiplication does, and what it does to the flags that are needed. It leaves the others
undefined. -/
structure Multiplied (op : MulOp) (e : Flag → Bool) (s s' : State ρ) : Prop where
  core : s'.core = op.expected k i s.core
  carry : e .cf → s'.flag .cf = asFlag (op.overflow i.op0.size.bits (op.product k i s.core))
  overflow : e .of → s'.flag .of = asFlag (op.overflow i.op0.size.bits (op.product k i s.core))

/-- The operands a multiplication can have. -/
def MulOp.Operands (op : MulOp) : Prop :=
  match op with
  | .mul | .imul1 => i.op0.Place
  | .imul2 => i.op0.Place ∧ i.op0.size.bits ≠ 8 ∧ i.op1.Source i.op0.size.bits
  | .imul3 => i.op0.Place ∧ i.op0.size.bits ≠ 8 ∧ i.op1.Source i.op0.size.bits ∧
      i.op2.Source i.op0.size.bits

/-- The byte form of `IMUL` is right unless its operand is negative, and `AL` is not zero. -/
def MulOp.Right (op : MulOp) (c : Core ρ) : Prop :=
  op = .imul1 → i.op0.size.bits = 8 → (i.op0.value k i 8 c).msb → readPart .byte (c.gpr rax) = 0

/-! ## Products on the host -/

section

variable {k} {w : ℕ} {size : Size} {a b v : U64} {n : ℕ} {z : ℤ}

theorem eq_ofInt_of_toInt (h : v.toInt = z) : v = BitVec.ofInt 64 z := by
  rw [← h]
  exact (BitVec.ofInt_toInt).symm

theorem low_eq_productLow (h : v.toInt = z) : low size v = X86.productLow size.bits z := by
  rw [eq_ofInt_of_toInt h]
  exact setWidth_ofInt size.bits_le z

/-- A word product that fits a doubleword is the number. -/
theorem toInt_mulw {x y : ℤ} (ha : (a.setWidth 32).toInt = x) (hb : (b.setWidth 32).toInt = y)
    (h : |x * y| < 2 ^ 31) : (mulw a b).toInt = x * y := by
  obtain ⟨hlow, hhigh⟩ := abs_lt.mp h
  have hmul : (a * b).setWidth 32 = a.setWidth 32 * b.setWidth 32 :=
    BitVec.setWidth_mul _ _ (by decide)
  rw [mulw, toInt_sextw, low]
  change ((a * b).setWidth 32).toInt = _
  rw [hmul, BitVec.toInt_mul, ha, hb]
  apply Int.bmod_eq_of_le <;> norm_num at hlow hhigh ⊢ <;> omega

theorem toInt_mul {x y : ℤ} (ha : a.toInt = x) (hb : b.toInt = y) (h : |x * y| < 2 ^ 63) :
    (a * b).toInt = x * y := by
  obtain ⟨hlow, hhigh⟩ := abs_lt.mp h
  rw [BitVec.toInt_mul, ha, hb]
  apply Int.bmod_eq_of_le <;> norm_num at hlow hhigh ⊢ <;> omega

/-- A register is the extension of its lower bits if the number in it fits them. -/
theorem snez_extension {f : U64 → U64} (hf : (f v).toInt = (low size v).toInt) :
    snez (f v ^^^ v) = asFlag (!decide (X86.InRange size.bits v.toInt)) := by
  have hpos := size.le_bits
  have hxor : f v ^^^ v = 0 ↔ f v = v := BitVec.xor_eq_zero_iff
  have hzero : f v ^^^ v = 0 ↔ X86.InRange size.bits v.toInt := by
    rw [hxor, ← BitVec.toInt_inj, hf]
    constructor
    · intro h
      rw [← h]
      exact ⟨(low size v).le_toInt, BitVec.toInt_lt⟩
    · intro h
      rw [low_eq_productLow rfl]
      exact X86.toInt_ofInt_of_inRange (by omega) h
  rw [snez, asFlag]
  by_cases h : f v ^^^ v = 0
  · rw [if_pos h, decide_eq_true (hzero.mp h)]
    rfl
  · rw [if_neg h, decide_eq_false (hzero.not.mp h)]
    rfl

theorem snez_eq_asFlag (v : U64) : snez v = asFlag (decide (v.toNat ≠ 0)) := by
  have hzero : v = 0 ↔ v.toNat = 0 := BitVec.toNat_inj.symm
  rw [snez, asFlag]
  simp only [hzero, decide_eq_true_eq, ite_not]

end

/-! ## Signed products -/

section

variable {k} {size : Size} {a b v : U64}

theorem toInt_sextb_64 (v : U64) : (k.sextb v).toInt = (low .byte v).toInt := by
  rw [k.sextb_eq]
  exact BitVec.toInt_signExtend_of_le (by decide)

theorem toInt_sexth_64 (v : U64) : (k.sexth v).toInt = (low .word v).toInt := by
  rw [k.sexth_eq]
  exact BitVec.toInt_signExtend_of_le (by decide)

/-- The flag that the code makes of a product in one register. -/
theorem snez_product (size : Size) {f : U64 → U64} (hf : (f v).toInt = (low size v).toInt)
    (hv : v.toInt = (low size a).toInt * (low size b).toInt) :
    snez (f v ^^^ v) =
      asFlag (X86.imulOverflow size.bits ((low size a).toInt * (low size b).toInt)) := by
  have hpos : 0 < size.bits := by have := size.le_bits; omega
  rw [snez_extension hf, hv, X86.imulOverflow_eq hpos (X86.inRange_product hpos _ _)]

theorem toInt_product_word :
    (mulw (k.sexth a) (k.sexth b)).toInt = (low .word a).toInt * (low .word b).toInt := by
  refine toInt_mulw (toInt_sexth a) (toInt_sexth b) ?_
  exact (X86.abs_product_le (low .word a) (low .word b)).trans_lt (by norm_num [Size.bits])

theorem toInt_product_dword :
    (sextw a * sextw b).toInt = (low .dword a).toInt * (low .dword b).toInt := by
  refine toInt_mul (toInt_sextw a) (toInt_sextw b) ?_
  exact (X86.abs_product_le (low .dword a) (low .dword b)).trans_lt (by norm_num [Size.bits])

theorem mulh_eq (a b : U64) : mulh a b = X86.productHigh 64 (a.toInt * b.toInt) := by
  have hext (v : U64) : v.signExtend 128 = BitVec.ofInt 128 v.toInt := rfl
  rw [mulh, hext, hext, ← BitVec.ofInt_mul]
  exact X86.ofInt_ushiftRight (w := 64) _

theorem mul_eq_productLow (a b : U64) : a * b = X86.productLow 64 (a.toInt * b.toInt) := by
  rw [X86.productLow, BitVec.ofInt_mul, BitVec.ofInt_toInt, BitVec.ofInt_toInt]

/-- The sign in all bits. -/
theorem sshiftRight_63 (v : U64) : v.sshiftRight 63 = if v.msb then BitVec.allOnes 64 else 0 := by
  have hv := v.isLt
  apply BitVec.eq_of_toInt_eq
  rw [BitVec.toInt_sshiftRight, Int.shiftRight_eq_div_pow, BitVec.msb_eq_decide,
    BitVec.toInt_eq_toNat_cond]
  simp only [decide_eq_true_eq]
  by_cases h : 2 ^ 63 ≤ v.toNat
  · rw [if_pos h, if_neg (by omega), BitVec.toInt_allOnes, if_pos (by decide)]
    omega
  · rw [if_neg h, if_pos (by omega)]
    refine Eq.trans ?_ BitVec.toInt_zero.symm
    omega

theorem snez_product_qword (a b : U64) :
    snez ((a * b).sshiftRight 63 ^^^ mulh a b) =
      asFlag (X86.imulOverflow 64 (a.toInt * b.toInt)) := by
  have hxor (x y : U64) : x ^^^ y = 0 ↔ y = x := by
    rw [eq_comm (a := y)]
    exact BitVec.xor_eq_zero_iff
  rw [sshiftRight_63, mul_eq_productLow, mulh_eq, snez, asFlag, X86.imulOverflow]
  simp only [hxor, bne_iff_ne, ite_not]

end

section

variable {k} {size : Size} {a b v : U64} {z : ℤ} {n : ℕ}

theorem imulProduct_eq (hsize : size.bits ≠ 8) (a b : U64) :
    let z := (low size a).toInt * (low size b).toInt
    low size (imulProduct k size a b).1 = X86.productLow size.bits z ∧
      snez (imulProduct k size a b).2 = asFlag (X86.imulOverflow size.bits z) := by
  intro z
  have hcomm : z = (low size b).toInt * (low size a).toInt := mul_comm _ _
  cases size with
  | byte => exact absurd rfl hsize
  | byteHigh => exact absurd rfl hsize
  | word =>
    rw [hcomm]
    exact ⟨low_eq_productLow toInt_product_word,
      snez_product .word (toInt_sexth_64 _) toInt_product_word⟩
  | dword =>
    rw [hcomm]
    exact ⟨low_eq_productLow toInt_product_dword,
      snez_product .dword (toInt_sextw _) toInt_product_dword⟩
  | qword =>
    have hlow (v : U64) : low .qword v = v := BitVec.setWidth_eq v
    have hz : z = a.toInt * b.toInt := by
      change (low .qword a).toInt * (low .qword b).toInt = _
      rw [hlow, hlow]
      rfl
    rw [hz]
    exact ⟨(hlow _).trans (mul_eq_productLow a b), snez_product_qword a b⟩

/-- The upper half of a product that is all in one register. -/
theorem low_word_sraiw (h : v.toInt = z) : low .word (sraiw v 16) = X86.productHigh 16 z := by
  have hlow : (BitVec.ofInt 64 z).setWidth 32 = BitVec.ofInt (16 + 16) z :=
    setWidth_ofInt (by decide) z
  have hshift : (sraiw v 16).setWidth 16 = (BitVec.ofInt (16 + 16) z >>> 16).setWidth 16 := by
    apply BitVec.eq_of_getLsbD_eq
    intro j hj
    rw [sraiw, eq_ofInt_of_toInt h, hlow, BitVec.getLsbD_setWidth, BitVec.getLsbD_signExtend,
      BitVec.getLsbD_sshiftRight, BitVec.getLsbD_setWidth, BitVec.getLsbD_ushiftRight]
    have hj64 : j < 64 := by omega
    have hj32 : j < 32 := by omega
    have hadd : 16 + j < 32 := by omega
    simp [hj64, hj32, hadd, Nat.not_le.mpr hj32]
  exact hshift.trans (X86.ofInt_ushiftRight z)

theorem low_dword_ushiftRight (h : v.toInt = z) :
    low .dword (v >>> 32) = X86.productHigh 32 z := by
  rw [eq_ofInt_of_toInt h]
  exact X86.ofInt_ushiftRight (w := 32) z

/-! ## Unsigned products -/

theorem low_of_toNat (h : v.toNat = n) : low size v = BitVec.ofNat size.bits n := by
  rw [← h]
  exact BitVec.eq_of_toNat_eq ((toNat_low size v).trans (BitVec.toNat_ofNat ..).symm)

/-- The upper half in a register tells whether there is one. -/
theorem snez_high {w : ℕ} (hv : v.toNat = n / 2 ^ w) (hn : n < 2 ^ (w + w)) :
    snez v = asFlag (X86.mulOverflow w (n : ℤ)) := by
  rw [snez_eq_asFlag, hv, X86.mulOverflow_natCast hn]

theorem mul_lt_two_pow {w m n : ℕ} (hm : m < 2 ^ w) (hn : n < 2 ^ w) : m * n < 2 ^ (w + w) := by
  rw [Nat.pow_add]
  exact Nat.mul_lt_mul'' hm hn

theorem toNat_mul (h : a.toNat * b.toNat < 2 ^ 64) : (a * b).toNat = a.toNat * b.toNat := by
  rw [BitVec.toNat_mul, Nat.mod_eq_of_lt h]

/-- A product of two words has its upper half in a doubleword. -/
theorem toNat_mulw_mod (h : a.toNat * b.toNat < 2 ^ 32) :
    (mulw a b).toNat % 2 ^ 32 = a.toNat * b.toNat := by
  rw [mulw, sextw, toNat_signExtend_mod, BitVec.toNat_setWidth, toNat_mul (h.trans (by decide)),
    Nat.mod_eq_of_lt h]

/-- One of two bytes is not negative as a doubleword. -/
theorem toNat_mulw (h : a.toNat * b.toNat < 2 ^ 31) : (mulw a b).toNat = a.toNat * b.toNat := by
  have hmod := toNat_mulw_mod (h.trans (by decide))
  have hmsb : ((a * b).setWidth 32).msb = false := by
    rw [BitVec.msb_eq_decide, BitVec.toNat_setWidth, toNat_mul (h.trans (by decide)),
      Nat.mod_eq_of_lt (h.trans (by decide)), decide_eq_false_iff_not]
    exact Nat.not_le.mpr h
  rw [mulw, sextw, BitVec.signExtend_eq_setWidth_of_msb_false hmsb, BitVec.toNat_setWidth,
    BitVec.toNat_setWidth, toNat_mul (h.trans (by decide))]
  omega

theorem toNat_mulhu (a b : U64) : (mulhu a b).toNat = a.toNat * b.toNat / 2 ^ 64 := by
  have ha := a.isLt
  have hb := b.isLt
  have hlt := mul_lt_two_pow ha hb
  have hdiv : a.toNat * b.toNat / 2 ^ 64 < 2 ^ 64 := by
    rw [Nat.div_lt_iff_lt_mul (by decide)]
    exact hlt
  rw [mulhu, BitVec.toNat_setWidth, BitVec.toNat_ushiftRight, Nat.shiftRight_eq_div_pow,
    BitVec.toNat_mul, BitVec.toNat_setWidth, BitVec.toNat_setWidth,
    Nat.mod_eq_of_lt (ha.trans (by decide)), Nat.mod_eq_of_lt (hb.trans (by decide)),
    Nat.mod_eq_of_lt hlt, Nat.mod_eq_of_lt hdiv]

end

/-! ## Products in two registers -/

section

variable {k i e} {size : Size} {v high lo : U64} {z : ℤ} {c : Core ρ} {s : State ρ}

/-- `AH` and `AL` are `AX`. -/
theorem writePart_word (old : U64) (a b : BitVec 8) :
    writePart .byteHigh (writePart .byte old b) a = writePart .word old (a ++ b) := by
  have hb : b.toNat < 2 ^ 8 := b.isLt
  apply BitVec.eq_of_toNat_eq
  refine (toNat_writePart_byteHigh _ a).trans (Eq.trans ?_ (toNat_writePart_word old _).symm)
  have hbyte := toNat_writePart_byte old b
  have happend := toNat_append_eq a b
  rw [hbyte, happend]
  omega

theorem append_halves (x : BitVec 16) : (x >>> 8).setWidth 8 ++ x.setWidth 8 = x := by
  apply BitVec.eq_of_toNat_eq
  rw [toNat_append_eq, BitVec.toNat_setWidth, BitVec.toNat_setWidth, BitVec.toNat_ushiftRight,
    Nat.shiftRight_eq_div_pow]
  omega

theorem writeProduct_byte (z : ℤ) (c : Core ρ) :
    writeProduct .byte z c = c.write rax (writePart .word (c.gpr rax) (BitVec.ofInt 16 z)) := by
  have hlow : X86.productLow 8 z = (BitVec.ofInt 16 z).setWidth 8 :=
    (setWidth_ofInt (by decide) z).symm
  have hhigh : X86.productHigh 8 z = ((BitVec.ofInt 16 z) >>> 8).setWidth 8 :=
    (X86.ofInt_ushiftRight (w := 8) z).symm
  have happend := append_halves (BitVec.ofInt 16 z)
  rw [← hlow, ← hhigh] at happend
  rw [← happend, ← writePart_word, writeProduct]
  change writeHalf (rax, .byteHigh) (X86.productHigh 8 z)
    (writeHalf (rax, .byte) (X86.productLow 8 z) c) = _
  simp only [writeHalf, Core.gpr_write, if_pos, Core.write_write]
  congr 2

/-- The product of two bytes, in one write. -/
theorem setRef_product_byte (h : low .word v = BitVec.ofInt 16 z) (c : Core ρ) :
    k.setRef rax .word v c = writeProduct .byte z c := by
  rw [writeProduct_byte, Config.setRef, k.merge_eq, h]

theorem setRef_product (hhalves : dividendHalves size = ((rdx, size), (rax, size)))
    (hhigh : low size high = X86.productHigh size.bits z)
    (hlow : low size lo = X86.productLow size.bits z) (c : Core ρ) :
    k.setRef rdx size high (k.setRef rax size lo c) = writeProduct size z c := by
  rw [setRef_eq_writeHalf (hlow.trans (BitVec.setWidth_eq _).symm),
    setRef_eq_writeHalf (hhigh.trans (BitVec.setWidth_eq _).symm), writeProduct, hhalves]

/-- The register with the other factor. -/
def accumulator (size : Size) (c : Core ρ) : U64 := k.getRef rax (dividendHalves size).2.2 c

theorem value_accumulator (size : Size) (c : Core ρ) :
    (Operand.reg (dividendHalves size).2.1 (dividendHalves size).2.2).value k i size.bits c =
      low size (@accumulator ρ k size c) := by
  have hsource :
      (Operand.reg (dividendHalves size).2.1 (dividendHalves size).2.2).Source size.bits := by
    cases size <;> rfl
  have hrax : (dividendHalves size).2.1 = rax := by cases size <;> rfl
  rw [← k.low_get i hsource, hrax]
  rfl

theorem flag_setBoth {f : Flag} (hf : f = .cf ∨ f = .of) {b : Bool} (hv : v = asFlag b)
    (s : State ρ) :
    ((s.setFlag .cf v).setFlag .of v).flag f = asFlag b := by
  rw [State.flag_setFlag, State.flag_setFlag, hv, stored_asFlag, stored_asFlag]
  rcases hf with rfl | rfl <;> rfl

theorem flag_setMulFlags {f : Flag} (hf : f = .cf ∨ f = .of) (he : e f) (b : Bool) (s : State ρ) :
    (setMulFlags e (asFlag b) s).flag f = asFlag b := by
  have hemit : e .cf || e .of := by
    rcases hf with rfl | rfl
    · rw [he, Bool.true_or]
    · rw [he, Bool.or_true]
  rw [setMulFlags, if_pos hemit]
  exact flag_setBoth hf rfl s

theorem multiplied_of_flags {op : MulOp} {g : Core ρ → Core ρ}
    (hg : g s.core = op.expected k i s.core) :
    Multiplied k i op e s
      ((setMulFlags e (asFlag (op.overflow i.op0.size.bits (op.product k i s.core))) s).map g) where
  core := by
    rw [State.core_map, core_setMulFlags]
    exact hg
  carry he := flag_setMulFlags (.inl rfl) he _ s
  overflow he := flag_setMulFlags (.inr rfl) he _ s

end

/-! ## `MUL` -/

section

variable {k i e} {s : State ρ}

theorem accumulator_lt (hz : k.mode32 → Zext s.core) (size : Size) :
    (@accumulator ρ k size s.core).toNat < 2 ^ size.bits := by
  have hlt : (@accumulator ρ k size s.core).toNat < 2 ^ (dividendHalves size).2.2.bits :=
    k.getRef_lt fun _ hmode ↦ hz hmode rax
  have hbits : (dividendHalves size).2.2.bits = size.bits := by cases size <;> rfl
  rwa [hbits] at hlt

theorem product_mul (hop : i.op0.Place) (hz : k.mode32 → Zext s.core) :
    MulOp.mul.product k i s.core =
      (((@accumulator ρ k i.op0.size s.core).toNat * (k.get i i.op0 s.core).toNat : ℕ) : ℤ) := by
  have ha := accumulator_lt hz i.op0.size
  have hb := get_place_lt k i hz hop
  rw [MulOp.product]
  simp only [MulOp.factors]
  rw [value_accumulator, ← k.low_get_place i hop, toNat_low, toNat_low, Nat.mod_eq_of_lt ha,
    Nat.mod_eq_of_lt hb]

/-- The state after a product, from its flags and its registers. -/
theorem product_form {size : Size} {x : U64} {b : Bool} {z : ℤ} {g : Core ρ → Core ρ}
    (hflag : snez x = asFlag b) (hg : ∀ c, g c = writeProduct size z c) :
    (setMulFlags e (snez x) s).map g = (setMulFlags e (asFlag b) s).map (writeProduct size z) := by
  rw [hflag]
  exact congrArg _ (funext hg)

theorem fastMul_eq (hop : i.op0.Place) (hz : k.mode32 → Zext s.core) :
    fastMul k i e s =
      (setMulFlags e (asFlag (X86.mulOverflow i.op0.size.bits
        (MulOp.mul.product k i s.core))) s).map
        (writeProduct i.op0.size (MulOp.mul.product k i s.core)) := by
  have ha := accumulator_lt hz i.op0.size
  have hb := get_place_lt k i hz hop
  rw [product_mul hop hz, fastMul]
  generalize k.get i i.op0 s.core = src at *
  generalize i.op0.size = size at *
  have hlt := mul_lt_two_pow ha hb
  have hlow {size : Size} {v : U64} {n : ℕ} (h : v.toNat % 2 ^ size.bits = n % 2 ^ size.bits) :
      low size v = X86.productLow size.bits (n : ℤ) := by
    rw [X86.productLow_natCast]
    exact BitVec.eq_of_toNat_eq ((toNat_low size v).trans (h.trans (BitVec.toNat_ofNat ..).symm))
  have hupper {size : Size} {v : U64} {n : ℕ} (h : v.toNat = n / 2 ^ size.bits) :
      low size v = X86.productHigh size.bits (n : ℤ) := by
    rw [X86.productHigh_natCast, ← h]
    exact low_of_toNat rfl
  cases size with
  | byte | byteHigh =>
    have hresult := toNat_mulw (hlt.trans (by decide))
    have hhigh := (toNat_shr _ 8).trans (congrArg (· / 2 ^ 8) hresult)
    refine product_form (snez_high hhigh hlt) fun c ↦ setRef_product_byte ?_ c
    exact (low_of_toNat hresult).trans (BitVec.ofInt_natCast ..).symm
  | word =>
    have hresult := toNat_mulw_mod hlt
    have hhigh := (toNat_srliw (mulw (@accumulator ρ k .word s.core) src) (show 0 <
      16 by decide)).trans
      (congrArg (· / 2 ^ 16) hresult)
    refine product_form (snez_high hhigh hlt) fun c ↦
      setRef_product rfl (hupper hhigh) (hlow ?_) c
    exact (Nat.mod_mod_of_dvd _ (pow_dvd_pow 2 (show 16 ≤ 32 by decide))).symm.trans
      (congrArg (· % 2 ^ 16) hresult)
  | dword =>
    have hresult := toNat_mul hlt
    have hhigh := (toNat_shr (@accumulator ρ k .dword s.core * src) 32).trans
      (congrArg (· / 2 ^ 32) hresult)
    exact product_form (snez_high hhigh hlt) fun c ↦
      setRef_product rfl (hupper hhigh) (hlow (congrArg (· % 2 ^ 32) hresult)) c
  | qword =>
    have hhigh := toNat_mulhu (@accumulator ρ k .qword s.core) src
    have hresult := BitVec.toNat_mul (@accumulator ρ k .qword s.core) src
    refine product_form (snez_high hhigh hlt) fun c ↦
      setRef_product rfl (hupper hhigh) (hlow ?_) c
    exact (congrArg (· % 2 ^ 64) hresult).trans (Nat.mod_mod _ _)

end

/-! ## `IMUL` with one operand -/

section

variable {k i e} {s : State ρ} {src : U64}

theorem product_imul1 (hop : i.op0.Place) (c : Core ρ) :
    MulOp.imul1.product k i c =
      (low i.op0.size (@accumulator ρ k i.op0.size c)).toInt *
        (low i.op0.size (k.get i i.op0 c)).toInt := by
  rw [← value_accumulator (i := i), k.low_get_place i hop]
  rfl

theorem imul1_eq (hop : i.op0.Place) (hsize : i.op0.size.bits ≠ 8) :
    imul1 k i e s =
      (setMulFlags e (asFlag (X86.imulOverflow i.op0.size.bits
        (MulOp.imul1.product k i s.core))) s).map
        (writeProduct i.op0.size (MulOp.imul1.product k i s.core)) := by
  rw [product_imul1 hop, imul1]
  generalize k.get i i.op0 s.core = src at *
  generalize i.op0.size = size at *
  cases size with
  | byte => exact absurd rfl hsize
  | byteHigh => exact absurd rfl hsize
  | word =>
    have hresult : (mulw (k.sexth (@accumulator ρ k .word s.core)) (k.sexth src)).toInt = _ :=
      toInt_product_word
    exact product_form (snez_product .word (toInt_sexth_64 _) hresult) fun c ↦
      setRef_product rfl (low_word_sraiw hresult) (low_eq_productLow hresult) c
  | dword =>
    have hresult : (sextw (@accumulator ρ k .dword s.core) * sextw src).toInt = _ :=
      toInt_product_dword
    exact product_form (snez_product .dword (toInt_sextw _) hresult) fun c ↦
      setRef_product rfl (low_dword_ushiftRight hresult) (low_eq_productLow hresult) c
  | qword =>
    have hlow (v : U64) : low .qword v = v := BitVec.setWidth_eq v
    rw [hlow, hlow]
    refine product_form (snez_product_qword (s.core.gpr rax) src) fun c ↦
      setRef_product rfl ((hlow _).trans (mulh_eq _ _)) ((hlow _).trans (mul_eq_productLow _ _)) c

/-- The byte form, whose operand is not sign extended. -/
theorem toInt_imulByte (a : U64) (hsrc : src.toNat < 2 ^ 8) :
    (mulw (k.sextb a) src).toInt = (low .byte a).toInt * src.toNat := by
  have hb : (src.setWidth 32).toInt = src.toNat := by
    rw [BitVec.toInt_eq_toNat_cond, toNat_setWidth_of_lt (n := 8) (by decide) hsrc,
      if_pos (by omega)]
  have ha : |(low .byte a).toInt| ≤ 2 ^ 7 := by
    rw [abs_le]
    exact ⟨(low .byte a).le_toInt, (BitVec.toInt_lt (x := low .byte a)).le⟩
  refine toInt_mulw (toInt_sextb a) hb ?_
  rw [abs_mul, Nat.abs_cast]
  have hn : (src.toNat : ℤ) ≤ 2 ^ 8 := by exact_mod_cast hsrc.le
  calc |(low .byte a).toInt| * (src.toNat : ℤ) ≤ 2 ^ 7 * 2 ^ 8 :=
      mul_le_mul ha hn (Int.natCast_nonneg _) (by norm_num)
    _ < 2 ^ 31 := by norm_num

theorem toInt_byte (y : BitVec 8) : y.toInt = if y.msb then (y.toNat : ℤ) - 256 else y.toNat := by
  rw [BitVec.toInt_eq_msb_cond]
  norm_num

theorem imulByte_exact {x y : BitVec 8} (h : y.msb → x = 0) :
    x.toInt * y.toNat = x.toInt * y.toInt := by
  by_cases hmsb : y.msb
  · rw [h hmsb]
    exact (zero_mul _).trans (zero_mul _).symm
  · rw [toInt_byte y, if_neg hmsb]

/-- It makes a difference for a negative operand, unless the product is zero. -/
theorem zero_of_imulByte {x y : BitVec 8}
    (h : BitVec.ofInt 16 (x.toInt * y.toNat) = BitVec.ofInt 16 (x.toInt * y.toInt)) (hmsb : y.msb) :
    x = 0 := by
  have hlow := x.le_toInt
  have hhigh := BitVec.toInt_lt (x := x)
  have hmod := congrArg BitVec.toNat h
  have hy : (y.toNat : ℤ) = y.toInt + 256 := by
    rw [toInt_byte y, if_pos hmsb]
    ring
  rw [hy, mul_add, BitVec.toNat_ofInt, BitVec.toNat_ofInt] at hmod
  apply BitVec.eq_of_toInt_eq
  refine Eq.trans ?_ BitVec.toInt_zero.symm
  generalize x.toInt * y.toInt = z at *
  generalize x.toInt = n at *
  norm_num at hlow hhigh hmod
  omega

end

section

variable {k i e} {s : State ρ}

theorem source_of_place {op : Operand} {bits : ℕ} (hop : op.Place) (h : op.size.bits = bits) :
    op.Source bits := by
  cases op with
  | reg r size => exact h
  | mem m size => exact h
  | imm v size => exact hop.elim
  | seg s => exact hop.elim

theorem Size.byte_of_bits {size : Size} (h : size.bits = 8) : size = .byte ∨ size = .byteHigh := by
  cases size <;> simp [Size.bits] at h ⊢

theorem imul1_byte (hsize : i.op0.size.bits = 8) :
    let result := mulw (k.sextb (k.getRef rax .byte s.core)) (k.get i i.op0 s.core)
    imul1 k i e s =
      (setMulFlags e (snez (k.sextb result ^^^ result)) s).map (k.setRef rax .word result) := by
  rw [imul1]
  generalize k.get i i.op0 s.core = src at *
  obtain h | h := Size.byte_of_bits hsize <;> rw [h]

theorem product_imulByte (hop : i.op0.Place) (hsize : i.op0.size.bits = 8) (c : Core ρ) :
    MulOp.imul1.product k i c =
      (low .byte (k.getRef rax .byte c)).toInt * (low .byte (k.get i i.op0 c)).toInt := by
  rw [product_imul1 hop]
  generalize k.get i i.op0 c = src at *
  obtain h | h := Size.byte_of_bits hsize <;> rw [h] <;> rfl

theorem writeProduct_of_byte {size : Size} (hsize : size.bits = 8) (z : ℤ) (c : Core ρ) :
    writeProduct size z c = writeProduct .byte z c := by
  obtain rfl | rfl := Size.byte_of_bits hsize <;> rfl

theorem multiplied_imulByte_iff (hop : i.op0.Place) (hz : k.mode32 → Zext s.core)
    (hsize : i.op0.size.bits = 8) :
    Multiplied k i .imul1 e s (imul1 k i e s) ↔ MulOp.imul1.Right k i s.core := by
  have hform := imul1_byte (k := k) (e := e) (s := s) hsize
  have hproduct := product_imulByte (k := k) hop hsize s.core
  have hsrc := get_place_lt k i hz hop
  have hvalue : i.op0.value k i 8 s.core = low .byte (k.get i i.op0 s.core) :=
    (@Config.low_get _ k i _ .byte (source_of_place hop hsize) s.core).symm
  have hright : MulOp.imul1.Right k i s.core ↔
      ((low .byte (k.get i i.op0 s.core)).msb → low .byte (k.getRef rax .byte s.core) = 0) := by
    rw [k.low_getRef, ← hvalue]
    exact ⟨fun h ↦ h rfl hsize, fun h _ _ ↦ h⟩
  rw [hsize] at hsrc
  have hnat : (k.get i i.op0 s.core).toNat = (low .byte (k.get i i.op0 s.core)).toNat := by
    rw [toNat_low]
    exact (Nat.mod_eq_of_lt hsrc).symm
  have hresult := toInt_imulByte (k := k) (k.getRef rax .byte s.core) hsrc
  rw [hnat] at hresult
  rw [hright]
  constructor
  · intro hmul
    refine zero_of_imulByte ?_
    have hcore := hmul.core
    rw [hform, State.core_map, core_setMulFlags] at hcore
    have hword : low .word (mulw (k.sextb (k.getRef rax .byte s.core)) (k.get i i.op0 s.core)) =
        BitVec.ofInt 16 (MulOp.imul1.product k i s.core) := by
      have hexpected := writeProduct_of_byte hsize (MulOp.imul1.product k i s.core) s.core
      have hrax := congrFun (congrArg Core.gpr hcore) rax
      rw [MulOp.expected] at hrax
      simp only [hexpected, writeProduct_byte, Config.setRef, k.merge_eq, Core.write,
        Function.update_self] at hrax
      exact writePart_inj.mp hrax
    rw [low_eq_productLow hresult, hproduct] at hword
    exact hword
  · intro hzero
    replace hresult := hresult.trans (imulByte_exact hzero)
    have hoverflow : X86.imulOverflow i.op0.size.bits (MulOp.imul1.product k i s.core) =
        X86.imulOverflow 8 ((low .byte (k.getRef rax .byte s.core)).toInt *
          (low .byte (k.get i i.op0 s.core)).toInt) := by
      rw [hsize, hproduct]
    have hflag := snez_product .byte (toInt_sextb_64 (k := k) _) hresult
    rw [hform, product_form (hflag.trans (congrArg asFlag hoverflow.symm)) fun c ↦ ?_]
    · exact multiplied_of_flags rfl
    · rw [writeProduct_of_byte hsize, hproduct]
      exact setRef_product_byte (low_eq_productLow hresult) c

end

/-! ## `IMUL` with two or three operands -/

section

variable {k i e} {s : State ρ} {three : Bool}

/-- What the operands of such a form have to be for a product of them to be one of their size. -/
structure Insn.Factors (i : Insn) (three : Bool) : Prop where
  place : i.op0.Place
  size : i.op0.size.bits ≠ 8
  src1 : (imulSources i three).1.Source i.op0.size.bits
  src2 : (imulSources i three).2.Source i.op0.size.bits

theorem Insn.Factors.imul (h : i.Factors three) : i.Imul three where
  size := h.size
  src1 r size hr := by
    have hsrc := h.src1
    rw [hr] at hsrc
    exact hsrc
  src2 r size hr := by
    have hsrc := h.src2
    rw [hr] at hsrc
    exact hsrc

def imulExact (three : Bool) (c : Core ρ) : ℤ :=
  ((imulSources i three).1.value k i i.op0.size.bits c).toInt *
    ((imulSources i three).2.value k i i.op0.size.bits c).toInt

theorem imulProduct_value (h : i.Factors three) (c : Core ρ) :
    let p := imulProduct k i.op0.size (k.get i (imulSources i three).1 c)
      (k.get i (imulSources i three).2 c)
    low i.op0.size p.1 = X86.productLow i.op0.size.bits (@imulExact ρ k i three c) ∧
      snez p.2 = asFlag (X86.imulOverflow i.op0.size.bits (@imulExact ρ k i three c)) := by
  rw [imulExact, ← k.low_get i h.src1, ← k.low_get i h.src2]
  exact imulProduct_eq h.size _ _

theorem core_imul23 (h : i.Factors three) :
    (imul23 k i e three s).core =
      i.op0.assign k i (X86.productLow _ (@imulExact ρ k i three s.core)) s.core := by
  have hset := k.set_eq i h.place (imulProduct k i.op0.size (k.get i (imulSources i three).1 s.core)
    (k.get i (imulSources i three).2 s.core)).1 s.core
  rw [(imulProduct_value h s.core).1] at hset
  rw [imul23]
  split
  · rw [imulNoflags_eq k i h.imul]
    exact hset
  · exact hset

/-- The short way is taken only when neither flag is needed. -/
theorem flag_imul23 (h : i.Factors three) {f : Flag} (hf : f = .cf ∨ f = .of) (he : e f) :
    (imul23 k i e three s).flag f =
      asFlag (X86.imulOverflow i.op0.size.bits (@imulExact ρ k i three s.core)) := by
  have hneed : ¬ (k.noflagOpts && !e .cf && !e .of) = true := by
    rcases hf with rfl | rfl
    · rw [he, Bool.not_true, Bool.and_false, Bool.false_and]
      exact Bool.false_ne_true
    · rw [he, Bool.not_true, Bool.and_false]
      exact Bool.false_ne_true
  rw [imul23, if_neg hneed]
  exact flag_setBoth hf (imulProduct_value h s.core).2 s

end

/-! ## Every form -/

/-- A multiplication does what the manual says unless it is `IMUL` of a negative byte and an `AL`
that is not zero: then the byte has been taken as an unsigned one. -/
theorem multiplied_iff (op : MulOp) (e : Flag → Bool) (s : State ρ) (hop : op.Operands i)
    (hz : k.mode32 → Zext s.core) :
    (∃ s', Instr.exec k e ⟨op.mnemonic, i⟩ s = some s' ∧ Multiplied k i op e s s') ↔
      op.Right k i s.core := by
  cases op with
  | mul =>
    have hexec : Instr.exec k e ⟨MulOp.mul.mnemonic, i⟩ s = some (fastMul k i e s) := rfl
    rw [hexec, fastMul_eq hop hz]
    simp only [Option.some_inj, exists_eq_left']
    exact iff_of_true (multiplied_of_flags rfl) fun h ↦ by cases h
  | imul1 =>
    have hexec : Instr.exec k e ⟨MulOp.imul1.mnemonic, i⟩ s = some (imul1 k i e s) := rfl
    rw [hexec]
    simp only [Option.some_inj, exists_eq_left']
    by_cases hsize : i.op0.size.bits = 8
    · exact multiplied_imulByte_iff hop hz hsize
    · rw [imul1_eq hop hsize]
      exact iff_of_true (multiplied_of_flags rfl) fun _ hbyte ↦ absurd hbyte hsize
  | imul2 =>
    obtain ⟨hplace, hsize, hsrc⟩ := hop
    have hfactors : i.Factors false := ⟨hplace, hsize, source_of_place hplace rfl, hsrc⟩
    have hexec : Instr.exec k e ⟨MulOp.imul2.mnemonic, i⟩ s = some (imul23 k i e false s) := rfl
    rw [hexec]
    simp only [Option.some_inj, exists_eq_left']
    refine iff_of_true ⟨core_imul23 hfactors, ?_, ?_⟩ fun h ↦ by cases h
    · exact flag_imul23 hfactors (.inl rfl)
    · exact flag_imul23 hfactors (.inr rfl)
  | imul3 =>
    obtain ⟨hplace, hsize, hsrc1, hsrc2⟩ := hop
    have hfactors : i.Factors true := ⟨hplace, hsize, hsrc1, hsrc2⟩
    have hexec : Instr.exec k e ⟨MulOp.imul3.mnemonic, i⟩ s = some (imul23 k i e true s) := rfl
    rw [hexec]
    simp only [Option.some_inj, exists_eq_left']
    refine iff_of_true ⟨core_imul23 hfactors, ?_, ?_⟩ fun h ↦ by cases h
    · exact flag_imul23 hfactors (.inl rfl)
    · exact flag_imul23 hfactors (.inr rfl)

/-- `IMUL BL`. -/
def imulByte : Insn :=
  (Mnemonic.on (.imul 1 : Mnemonic Unit) .byte (.reg rbx .byte) (.imm 0 .byte)).insn

theorem multiplied_iff_imulByte :
    (∃ s', Instr.exec (.default false) live ⟨MulOp.imul1.mnemonic, imulByte⟩ (State.withReg rax 3) =
        some s' ∧
      Multiplied (.default false) imulByte .imul1 live (State.withReg rax 3) s') ↔
      MulOp.imul1.Right (.default false) imulByte (State.withReg rax 3).core :=
  multiplied_iff (.default false) imulByte .imul1 live (State.withReg rax 3) trivial fun h ↦
    absurd h (by decide)

/-- `AL` and `BL` are `1` and `-1`. -/
def oneByNegOne : State Unit := (State.withReg rax 1).map fun c ↦ c.write rbx 0xFF

/-- The product is `255` instead of `-1`. -/
theorem not_multiplied_imulByte :
    ¬ ∃ s', Instr.exec (.default false) live ⟨MulOp.imul1.mnemonic, imulByte⟩ oneByNegOne =
      some s' ∧
      Multiplied (.default false) imulByte .imul1 live oneByNegOne s' := by
  rintro ⟨s', hexec, hmul⟩
  have hcode := congrArg (fun t ↦ t.map fun s : State Unit ↦ s.core.gpr rax) hexec
  rw [Option.map_some, hmul.core] at hcode
  revert hcode
  decide +kernel

end Jit

end Felix86
