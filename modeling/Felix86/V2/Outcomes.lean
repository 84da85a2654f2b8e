import Felix86.Lib.X86
import Felix86.V2.ExtensionB

/-!
# What an instruction should do

The outcome that the manual gives an instruction, as a change of the guest's state: which bits of a
register an operand is, what a write to it does to the others, and what the flags are afterwards.
The address of a memory operand is the one the recompiler computes.

Then the code that computes flags, on its own: from registers whose upper bits can be anything, it
finds the flags of the operands that are in the lower bits.
-/

namespace Felix86

namespace Jit

open Riscv X86

variable {ρ : Type*} (k : Config) (i : Insn)

/-- A flag as the host register or the byte that holds it. -/
def asFlag (b : Bool) : U64 := if b then 1 else 0

theorem asFlag_inj {a b : Bool} : asFlag a = asFlag b ↔ a = b := by
  cases a <;> cases b <;> decide

/-- The lower bits of a host register, as an operand. -/
def low (size : Size) (v : U64) : BitVec size.bits := v.setWidth size.bits

/-! ## Operands -/

/-- The bits of a register that an operand is. -/
def readPart (size : Size) (v : U64) : BitVec size.bits :=
  match size with
  | .byteHigh => (v >>> 8).setWidth 8
  | size => v.setWidth size.bits

/-- A write to a part of a register: a byte or a word leaves the other bits alone, and a doubleword
clears the upper half. -/
def writePart (size : Size) (old : U64) (v : BitVec size.bits) : U64 :=
  match size, v with
  | .byte, v => old.extractLsb' 8 56 ++ v
  | .byteHigh, v => old.extractLsb' 16 48 ++ v ++ old.extractLsb' 0 8
  | .word, v => old.extractLsb' 16 48 ++ v
  | .dword, v => v.setWidth 64
  | .qword, v => v

/-- The value of an operand. An immediate is extended to the registers' size already. -/
def Operand.value (op : Operand) (w : ℕ) (c : Core ρ) : BitVec w :=
  match op with
  | .reg r size => (readPart size (c.gpr r)).setWidth w
  | .mem m size => (c.mem.load (k.address i m c) size.bytes).setWidth w
  | .imm v _ => v.setWidth w
  | .seg _ => 0

def Operand.assign (op : Operand) (v : BitVec op.size.bits) (c : Core ρ) : Core ρ :=
  match op, v with
  | .reg r size, v => c.write r (writePart size (c.gpr r) v)
  | .mem m size, v => { c with mem := c.mem.store (k.address i m c) (v.setWidth 64) size.bytes }
  | _, _ => c

/-- What can be written: a general register or memory. -/
def Operand.Place : Operand → Prop
  | .reg _ _ => True
  | .mem _ _ => True
  | _ => False

/-- What can be the source of an instruction of this size. -/
def Operand.Source (bits : ℕ) : Operand → Prop
  | .reg _ size => size.bits = bits
  | .mem _ size => size.bits = bits
  | .imm _ _ => True
  | .seg _ => False

/-! ## Outcomes -/

def Flags.get (flags : X86.Flags) : Flag → Effect
  | .cf => flags.cf
  | .pf => flags.pf
  | .af => flags.af
  | .zf => flags.zf
  | .sf => flags.sf
  | .of => flags.of

def Effect.Holds (effect : Effect) (old new : U64) : Prop :=
  match effect with
  | .keep => new = old
  | .undefined => True
  | .set b => new = asFlag b

/-- From one state to the other the outcome has happened to the first operand and to the flags, and
nothing else has. -/
structure Does (o : Outcome i.op0.size.bits) (s s' : State ρ) : Prop where
  core : s'.core = match o.value with
    | some v => i.op0.assign k i v s.core
    | none => s.core
  flag : ∀ f, Effect.Holds (Flags.get o.flags f) (s.flag f) (s'.flag f)

/-! ## Flags of a result -/

theorem sltu_eq_asFlag (a b : U64) : sltu a b = asFlag (decide (a.toNat < b.toNat)) := by
  rw [sltu, asFlag]
  simp only [BitVec.lt_def, decide_eq_true_eq]

theorem asFlag_or (a b : Bool) : asFlag a ||| asFlag b = asFlag (a || b) := by
  cases a <;> cases b <;> decide

theorem asFlag_xor (a b : Bool) : asFlag a ^^^ asFlag b = asFlag (a ^^ b) := by
  cases a <;> cases b <;> decide

theorem toNat_asFlag (b : Bool) : (asFlag b).toNat = b.toNat := by cases b <;> rfl

theorem stored_asFlag (f : Flag) (b : Bool) : f.stored (asFlag b) = asFlag b := by
  cases f <;> cases b <;> decide

theorem and_one_eq (v : U64) : v &&& 1 = asFlag (v.getLsbD 0) := by
  change v &&& 1#64 = _
  rw [BitVec.and_one_eq_setWidth_ofBool_getLsbD]
  cases v.getLsbD 0 <;> decide

section

variable {size : Size} {v : U64}

theorem toNat_low (size : Size) (v : U64) : (low size v).toNat = v.toNat % 2 ^ size.bits :=
  BitVec.toNat_setWidth ..

theorem getLsbD_low (v : U64) {n : ℕ} (hn : n < size.bits) :
    (low size v).getLsbD n = v.getLsbD n := by
  rw [low, BitVec.getLsbD_setWidth, decide_eq_true hn, Bool.true_and]

theorem low_add (a b : U64) : low size (a + b) = low size a + low size b :=
  BitVec.setWidth_add _ _ size.bits_le

theorem low_sub (a b : U64) : low size (a - b) = low size a - low size b := by
  rw [BitVec.eq_sub_iff_add_eq, ← low_add, BitVec.sub_add_cancel]

theorem low_asFlag (b : Bool) : low size (asFlag b) = (BitVec.ofBool b).setWidth size.bits := by
  apply BitVec.eq_of_toNat_eq
  rw [toNat_low, toNat_asFlag, BitVec.toNat_setWidth, BitVec.toNat_ofBool]

namespace Config

theorem updateSign_eq (size : Size) (v : U64) : updateSign v size = asFlag (low size v).msb := by
  have hpos := size.le_bits
  rw [updateSign, and_one_eq, BitVec.getLsbD_ushiftRight, BitVec.msb_eq_getLsbD_last,
    getLsbD_low v (by omega), Nat.add_zero]

theorem updateZero_eq (size : Size) (v : U64) :
    k.updateZero v size = asFlag (low size v == BitVec.ofNat size.bits 0) := by
  have hzero : k.zext size v = 0 ↔ low size v = BitVec.ofNat size.bits 0 := by
    rw [← BitVec.toNat_inj, ← BitVec.toNat_inj, k.toNat_zext, toNat_low]
    rfl
  rw [updateZero, seqz, asFlag]
  simp only [hzero, beq_iff_eq]

theorem cpopw_byte : ∀ b : BitVec 8,
    (cpopw (b.setWidth 64) &&& 1) ^^^ 1 = asFlag (X86.parity b) := by
  decide +kernel

theorem updateParity_eq (size : Size) (v : U64) :
    k.updateParity v = asFlag (X86.parity (low size v)) := by
  have hbits := size.le_bits
  have hmask : v &&& 0xff = (v.setWidth 8).setWidth 64 := by
    apply BitVec.eq_of_toNat_eq
    rw [toNat_and_ff, ← toNat_zextb]
    rfl
  have hlow : X86.parity (low size v) = X86.parity (v.setWidth 8) := by
    rw [X86.parity, X86.parity]
    congr 2
    refine List.countP_congr fun j hj ↦ ?_
    have hj8 : j < 8 := List.mem_range.mp hj
    rw [getLsbD_low v (by omega), BitVec.getLsbD_setWidth, decide_eq_true hj8, Bool.true_and]
  rw [hlow, ← cpopw_byte, ← hmask, ← updateParity_withB k true]
  rfl

theorem topBits_eq (size : Size) (v : U64) :
    topBits size v = asFlag (v.getLsbD (size.bits - 1) ^^ v.getLsbD (size.bits - 2)) := by
  rw [topBits, and_one_eq, BitVec.getLsbD_xor, BitVec.getLsbD_ushiftRight,
    BitVec.getLsbD_ushiftRight, Nat.add_zero, Nat.add_zero]

end Config

end

/-! ## Flags of a sum and of a difference -/

section

variable {size : Size} {lhs rhs result : U64} {c : Bool}

theorem sum_low (size : Size) (a b : U64) (c : Bool) :
    X86.sum (low size a) (low size b) c = low size (a + b + asFlag c) := by
  rw [low_add, low_add, low_asFlag, X86.sum]

theorem difference_low (size : Size) (a b : U64) (c : Bool) :
    X86.difference (low size a) (low size b) c = low size (a - b - asFlag c) := by
  rw [low_sub, low_sub, low_asFlag, X86.difference]

theorem sum_low_false (size : Size) (a b : U64) :
    X86.sum (low size a) (low size b) false = low size (a + b) :=
  (sum_low size a b false).trans (congrArg (low size) (BitVec.add_zero _))

theorem difference_low_false (size : Size) (a b : U64) :
    X86.difference (low size a) (low size b) false = low size (a - b) :=
  (difference_low size a b false).trans (congrArg (low size) (BitVec.sub_zero _))

namespace Config

theorem updateOverflowAdd_eq (h : low size result = X86.sum (low size lhs) (low size rhs) c) :
    updateOverflowAdd lhs rhs result size =
      asFlag (X86.addOverflow (low size lhs) (low size rhs) c) := by
  have hpos := size.le_bits
  have hbit (n : ℕ) (hn : n < size.bits) :
      ((~~~result &&& (lhs ||| rhs)) ||| (lhs &&& rhs)).getLsbD n =
        BitVec.carry (n + 1) (low size lhs) (low size rhs) c := by
    have hn64 : n < 64 := hn.trans_le size.bits_le
    rw [X86.carry_succ_eq hn, ← h]
    simp only [BitVec.getLsbD_or, BitVec.getLsbD_and, BitVec.getLsbD_not, hn64, decide_true,
      Bool.true_and, getLsbD_low _ hn]
  have hsub1 : size.bits - 1 + 1 = size.bits := by omega
  have hsub2 : size.bits - 2 + 1 = size.bits - 1 := by omega
  rw [updateOverflowAdd, topBits_eq, X86.addOverflow_eq _ _ _ (by omega), hbit _ (by omega),
    hbit _ (by omega), hsub1, hsub2]

theorem updateOverflowSub_eq (h : low size result =
    X86.difference (low size lhs) (low size rhs) c) :
    updateOverflowSub lhs rhs result size =
      asFlag (X86.subOverflow (low size lhs) (low size rhs) c) := by
  have hpos := size.le_bits
  have hnot : low size (~~~rhs) = ~~~(low size rhs) := by
    rw [low, low, BitVec.setWidth_not size.bits_le]
  rw [X86.difference_eq, ← hnot] at h
  rw [X86.subOverflow_eq _ _ _ (by omega), ← hnot, ← updateOverflowAdd_eq h, updateOverflowSub,
    updateOverflowAdd, topBits_eq, topBits_eq]
  -- the borrows are the complements of the carries
  have hbit (n : ℕ) (hn : n < 64) :
      (((~~~lhs ||| rhs) &&& result) ||| (~~~lhs &&& rhs)).getLsbD n =
        !((~~~result &&& (lhs ||| ~~~rhs)) ||| (lhs &&& ~~~rhs)).getLsbD n := by
    simp only [BitVec.getLsbD_or, BitVec.getLsbD_and, BitVec.getLsbD_not, hn, decide_true,
      Bool.true_and]
    cases lhs.getLsbD n <;> cases rhs.getLsbD n <;> cases result.getLsbD n <;> rfl
  have hbits := size.bits_le
  rw [hbit _ (by omega), hbit _ (by omega), Bool.not_xor_not]

theorem toNat_and_f (v : U64) : (v &&& 0xf).toNat = v.toNat % 16 :=
  toNat_and_mask v (show 4 ≤ 64 by decide)

theorem toNat_low_mod_16 (size : Size) (v : U64) : (low size v).toNat % 16 = v.toNat % 16 := by
  have hdvd : 2 ^ 4 ∣ 2 ^ size.bits := pow_dvd_pow 2 (size.le_bits.trans' (by decide))
  rw [toNat_low]
  exact Nat.mod_mod_of_dvd _ hdvd

theorem updateAuxiliaryAdd_eq (size : Size) (lhs rhs : U64) :
    updateAuxiliaryAdd lhs (lhs + rhs) =
      asFlag (X86.addAuxiliary (low size lhs) (low size rhs) false) := by
  rw [updateAuxiliaryAdd, sltu_eq_asFlag, toNat_and_f, toNat_and_f, X86.addAuxiliary,
    toNat_low_mod_16, toNat_low_mod_16, BitVec.toNat_add, Bool.toNat_false]
  congr 1
  rw [decide_eq_decide]
  omega

theorem updateAuxiliaryAdc_eq (size : Size) (lhs rhs : U64) (c : Bool) :
    updateAuxiliaryAdc lhs (lhs + rhs) (asFlag c) (lhs + rhs + asFlag c) =
      asFlag (X86.addAuxiliary (low size lhs) (low size rhs) c) := by
  have hc := c.toNat_lt
  rw [updateAuxiliaryAdc, sltu_eq_asFlag, sltu_eq_asFlag, asFlag_or, toNat_and_f, toNat_and_f,
    toNat_and_f, X86.addAuxiliary, toNat_low_mod_16, toNat_low_mod_16]
  simp only [BitVec.toNat_add, toNat_asFlag]
  congr 1
  rw [← Bool.decide_or, decide_eq_decide]
  omega

theorem updateAuxiliarySub_eq (size : Size) (lhs rhs : U64) :
    updateAuxiliarySub lhs rhs = asFlag (X86.subAuxiliary (low size lhs) (low size rhs) false) := by
  rw [updateAuxiliarySub, sltu_eq_asFlag, toNat_and_f, toNat_and_f, X86.subAuxiliary,
    toNat_low_mod_16, toNat_low_mod_16, Bool.toNat_false, Nat.add_zero]

theorem updateAuxiliarySbb_eq (size : Size) (lhs rhs : U64) (c : Bool) :
    updateAuxiliarySbb lhs rhs (lhs - rhs) (asFlag c) =
      asFlag (X86.subAuxiliary (low size lhs) (low size rhs) c) := by
  have hc := c.toNat_lt
  have hrhs := rhs.isLt
  rw [updateAuxiliarySbb, sltu_eq_asFlag, sltu_eq_asFlag, asFlag_or, toNat_and_f, toNat_and_f,
    toNat_and_f, X86.subAuxiliary, toNat_low_mod_16, toNat_low_mod_16, BitVec.toNat_sub,
    toNat_asFlag]
  congr 1
  rw [← Bool.decide_or, decide_eq_decide]
  omega

/-- The left operand is zero extended; the right one need not be. -/
theorem updateCarryAdd_eq (hlhs : lhs.toNat < 2 ^ size.bits) :
    k.updateCarryAdd lhs (lhs + rhs) size =
      asFlag (X86.addCarry (low size lhs) (low size rhs) false) := by
  have hdvd : 2 ^ size.bits ∣ 2 ^ 64 := pow_dvd_pow 2 size.bits_le
  rw [updateCarryAdd, sltu_eq_asFlag, k.toNat_zext, X86.addCarry, toNat_low, toNat_low,
    BitVec.toNat_add, Nat.mod_mod_of_dvd _ hdvd, Bool.toNat_false, Nat.mod_eq_of_lt hlhs]
  congr 1
  rw [decide_eq_decide, ← Nat.add_mod_mod]
  have hmod := Nat.mod_lt rhs.toNat (Nat.two_pow_pos size.bits)
  generalize rhs.toNat % 2 ^ size.bits = r at *
  generalize 2 ^ size.bits = p at *
  rcases Nat.lt_or_ge (lhs.toNat + r) p with hlt | hge
  · rw [Nat.mod_eq_of_lt hlt]
    omega
  · rw [Nat.mod_eq_sub_mod hge, Nat.mod_eq_of_lt (by omega)]
    omega

theorem updateCarryAdc_eq (hlhs : lhs.toNat < 2 ^ size.bits) :
    k.updateCarryAdc lhs (lhs + rhs) (lhs + rhs + asFlag c) (asFlag c) size =
      asFlag (X86.addCarry (low size lhs) (low size rhs) c) := by
  have hdvd : 2 ^ size.bits ∣ 2 ^ 64 := pow_dvd_pow 2 size.bits_le
  have hpow : 2 ^ 8 ≤ 2 ^ size.bits := Nat.pow_le_pow_right (by decide) size.le_bits
  have hc := c.toNat_lt
  have hmod := Nat.mod_lt rhs.toNat (Nat.two_pow_pos size.bits)
  rw [updateCarryAdc, sltu_eq_asFlag, sltu_eq_asFlag, asFlag_or, k.toNat_zext, k.toNat_zext,
    X86.addCarry, toNat_low, toNat_low, Nat.mod_eq_of_lt hlhs]
  simp only [BitVec.toNat_add, toNat_asFlag, Nat.mod_add_mod, Nat.mod_mod_of_dvd _ hdvd]
  congr 1
  rw [← Bool.decide_or, decide_eq_decide, ← Nat.add_mod_mod lhs.toNat,
    show (lhs.toNat + rhs.toNat + c.toNat) = (lhs.toNat + c.toNat) + rhs.toNat by omega,
    ← Nat.add_mod_mod (lhs.toNat + c.toNat)]
  generalize rhs.toNat % 2 ^ size.bits = r at *
  generalize 2 ^ size.bits = p at *
  rcases Nat.lt_or_ge (lhs.toNat + r) p with hlt | hge
  · rw [Nat.mod_eq_of_lt hlt]
    rcases Nat.lt_or_ge (lhs.toNat + c.toNat + r) p with hlt' | hge'
    · rw [Nat.mod_eq_of_lt hlt']
      omega
    · rw [Nat.mod_eq_sub_mod hge', Nat.mod_eq_of_lt (by omega)]
      omega
  · rw [Nat.mod_eq_sub_mod hge, Nat.mod_eq_of_lt (by omega)]
    omega

theorem updateCarrySub_eq {test : U64} (hlhs : lhs.toNat < 2 ^ size.bits)
    (htest : test.toNat = (low size rhs).toNat) :
    updateCarrySub lhs test = asFlag (X86.subBorrow (low size lhs) (low size rhs) false) := by
  rw [updateCarrySub, sltu_eq_asFlag, htest, X86.subBorrow, toNat_low size lhs,
    Nat.mod_eq_of_lt hlhs, Bool.toNat_false, Nat.add_zero]

theorem carrySbb_eq {test : U64} (hlhs : lhs.toNat < 2 ^ size.bits)
    (htest : test.toNat = (low size rhs).toNat) :
    sltu lhs test ||| sltu (k.zext size (lhs - rhs)) (asFlag c) =
      asFlag (X86.subBorrow (low size lhs) (low size rhs) c) := by
  have hresult : (k.zext size (lhs - rhs)).toNat = (low size lhs - low size rhs).toNat := by
    rw [k.toNat_zext, ← low_sub, toNat_low]
  have hr := (low size rhs).isLt
  have hc := c.toNat_lt
  have hl : (low size lhs).toNat = lhs.toNat := by rw [toNat_low, Nat.mod_eq_of_lt hlhs]
  rw [sltu_eq_asFlag, sltu_eq_asFlag, asFlag_or, hresult, htest, X86.subBorrow, BitVec.toNat_sub,
    toNat_asFlag, hl]
  congr 1
  rw [← Bool.decide_or, decide_eq_decide]
  generalize (low size rhs).toNat = r at *
  generalize 2 ^ size.bits = p at *
  rcases Nat.lt_or_ge lhs.toNat r with hlt | hge
  · rw [Nat.mod_eq_of_lt (by omega)]
    omega
  · rw [Nat.mod_eq_sub_mod (by omega), Nat.mod_eq_of_lt (by omega)]
    omega

end Config

end

/-! ## Operands as the recompiler accesses them -/

theorem toNat_append_eq {m n : ℕ} (a : BitVec m) (b : BitVec n) :
    (a ++ b).toNat = a.toNat * 2 ^ n + b.toNat := by
  rw [BitVec.toNat_append, ← Nat.shiftLeft_add_eq_or_of_lt b.isLt, Nat.shiftLeft_eq]

theorem toNat_extractLsb'_top (v : U64) {n m : ℕ} (h : n + m = 64) :
    (v.extractLsb' n m).toNat = v.toNat / 2 ^ n := by
  have hlt : v.toNat / 2 ^ n < 2 ^ m := by
    rw [Nat.div_lt_iff_lt_mul (Nat.two_pow_pos n), ← Nat.pow_add, Nat.add_comm m, h]
    exact v.isLt
  rw [BitVec.extractLsb'_toNat, Nat.shiftRight_eq_div_pow, Nat.mod_eq_of_lt hlt]

theorem toNat_writePart_byte (old : U64) (v : BitVec 8) :
    (writePart .byte old v).toNat = old.toNat / 2 ^ 8 * 2 ^ 8 + v.toNat := by
  refine (toNat_append_eq (old.extractLsb' 8 56) v).trans ?_
  rw [toNat_extractLsb'_top old (by decide)]

theorem toNat_writePart_word (old : U64) (v : BitVec 16) :
    (writePart .word old v).toNat = old.toNat / 2 ^ 16 * 2 ^ 16 + v.toNat := by
  refine (toNat_append_eq (old.extractLsb' 16 48) v).trans ?_
  rw [toNat_extractLsb'_top old (by decide)]

theorem toNat_writePart_byteHigh (old : U64) (v : BitVec 8) :
    (writePart .byteHigh old v).toNat =
      old.toNat / 2 ^ 16 * 2 ^ 16 + v.toNat * 2 ^ 8 + old.toNat % 2 ^ 8 := by
  refine (toNat_append_eq (old.extractLsb' 16 48 ++ v) (old.extractLsb' 0 8)).trans ?_
  rw [toNat_append_eq, toNat_extractLsb'_top old (by decide), BitVec.extractLsb'_toNat,
    Nat.shiftRight_zero]
  omega

namespace Config

/-- `setGPR` writes the part of the register that it should. -/
theorem merge_eq (size : Size) (old v : U64) :
    k.merge size old v = writePart size old (low size v) := by
  apply BitVec.eq_of_toNat_eq
  cases size with
  | byte =>
    refine (k.toNat_merge_byte old v).trans ((toNat_writePart_byte old _).trans ?_).symm
    exact congrArg (_ + ·) (toNat_low .byte v)
  | byteHigh =>
    refine (k.toNat_merge_byteHigh old v).trans ((toNat_writePart_byteHigh old _).trans ?_).symm
    exact congrArg (_ + · * 2 ^ 8 + _) (toNat_low .byteHigh v)
  | word =>
    refine (k.toNat_merge_word old v).trans ((toNat_writePart_word old _).trans ?_).symm
    exact congrArg (_ + ·) (toNat_low .word v)
  | dword =>
    have hlt : v.toNat % 2 ^ 32 < 2 ^ 64 := (Nat.mod_lt _ (by decide)).trans (by decide)
    refine (k.toNat_merge_dword old v).trans ?_
    rw [writePart, BitVec.toNat_setWidth, toNat_low]
    exact (Nat.mod_eq_of_lt hlt).symm
  | qword =>
    have hv := v.isLt
    exact ((toNat_low .qword v).trans (Nat.mod_eq_of_lt hv)).symm

/-- Memory gets the lower bits of a register. -/
theorem writeMemory_eq (a v : U64) (size : Size) (c : Core ρ) :
    writeMemory a v size c =
      { c with mem := c.mem.store a ((low size v).setWidth 64) size.bytes } := by
  have hmod : v.toNat % 2 ^ (8 * size.bytes) =
      ((low size v).setWidth 64).toNat % 2 ^ (8 * size.bytes) := by
    have hlt : v.toNat % 2 ^ size.bits < 2 ^ 64 :=
      (Nat.mod_le _ _).trans_lt v.isLt
    rw [BitVec.toNat_setWidth, toNat_low, Nat.mod_eq_of_lt hlt, ← size.bits_eq, Nat.mod_mod]
  exact congrArg (fun mem ↦ { c with mem := mem }) (Mem.store_congr c.mem _ hmod)

theorem set_eq {op : Operand} (hop : op.Place) (v : U64) (c : Core ρ) :
    k.set i op v c = op.assign k i (low op.size v) c := by
  cases op with
  | reg r size => exact congrArg (c.write r) (k.merge_eq size (c.gpr r) v)
  | mem m size => exact writeMemory_eq (k.address i m c) v size c
  | imm v size => exact hop.elim
  | seg s => exact hop.elim

theorem low_getRef (r : Ref) (size : Size) (c : Core ρ) :
    low size (k.getRef r size c) = readPart size (c.gpr r) := by
  have hzext (size : Size) (v : U64) : low size (k.zext size v) = low size v := by
    apply BitVec.eq_of_toNat_eq
    rw [toNat_low, toNat_low, k.toNat_zext, Nat.mod_mod]
  cases size with
  | byte => exact hzext .byte _
  | byteHigh => exact hzext .byte _
  | word => exact hzext .word _
  | dword =>
    rw [getRef]
    split
    · rfl
    · exact hzext .dword _
  | qword => rfl

theorem low_get {op : Operand} {size : Size} (hop : op.Source size.bits) (c : Core ρ) :
    low size (k.get i op c) = op.value k i size.bits c := by
  cases op with
  | reg r size' =>
    have hbits : size'.bits = size.bits := hop
    rw [get, Operand.value, ← k.low_getRef, low, low, hbits,
      BitVec.setWidth_setWidth_of_le _ le_rfl]
  | mem m size' => rfl
  | imm v size' => rfl
  | seg s => exact hop.elim

theorem low_get_place {op : Operand} (hop : op.Place) (c : Core ρ) :
    low op.size (k.get i op c) = op.value k i op.size.bits c := by
  refine k.low_get i ?_ c
  cases op with
  | reg r size => rfl
  | mem m size => rfl
  | imm v size => exact hop.elim
  | seg s => exact hop.elim

end Config

/-! ## Different values leave different states -/

theorem writePart_inj {size : Size} {old : U64} {v w : BitVec size.bits} :
    writePart size old v = writePart size old w ↔ v = w := by
  refine ⟨fun h ↦ BitVec.eq_of_toNat_eq ?_, fun h ↦ h ▸ rfl⟩
  have hnat := congrArg BitVec.toNat h
  cases size with
  | byte =>
    have hsum := (toNat_writePart_byte old v).symm.trans (hnat.trans (toNat_writePart_byte old w))
    exact Nat.add_left_cancel hsum
  | byteHigh =>
    have hsum :=
      (toNat_writePart_byteHigh old v).symm.trans (hnat.trans (toNat_writePart_byteHigh old w))
    exact Nat.eq_of_mul_eq_mul_right (by decide) (Nat.add_left_cancel (Nat.add_right_cancel hsum))
  | word =>
    have hsum := (toNat_writePart_word old v).symm.trans (hnat.trans (toNat_writePart_word old w))
    exact Nat.add_left_cancel hsum
  | dword =>
    have hv : v.toNat < 2 ^ 32 := v.isLt
    have hw : w.toNat < 2 ^ 32 := w.isLt
    rw [writePart, writePart, BitVec.toNat_setWidth, BitVec.toNat_setWidth] at hnat
    omega
  | qword => exact hnat

theorem assign_inj {op : Operand} (hop : op.Place) {v w : BitVec op.size.bits} {c : Core ρ} :
    op.assign k i v c = op.assign k i w c ↔ v = w := by
  refine ⟨fun h ↦ ?_, fun h ↦ h ▸ rfl⟩
  cases op with
  | reg r size =>
    have hreg := congrFun (congrArg Core.gpr h) r
    simp only [Operand.assign, Core.write, Function.update_self] at hreg
    exact writePart_inj.mp hreg
  | mem m size =>
    have hbits := size.bits_le
    have hload := congrArg (fun c ↦ (c.mem.load (k.address i m c) size.bytes).toNat) h
    have hstored (x : BitVec size.bits) :
        (((Operand.mem m size).assign k i x c).mem.load (k.address i m c) size.bytes).toNat =
            x.toNat := by
      have hx := x.isLt
      have hpow : 2 ^ size.bits ≤ 2 ^ 64 := Nat.pow_le_pow_right (by decide) hbits
      refine (Mem.toNat_load_store c.mem (k.address i m c) (x.setWidth 64) size.bytes_le).trans ?_
      rw [BitVec.toNat_setWidth, ← size.bits_eq, Nat.mod_eq_of_lt (hx.trans_le hpow),
        Nat.mod_eq_of_lt hx]
    exact BitVec.eq_of_toNat_eq ((hstored v).symm.trans (hload.trans (hstored w)))
  | imm v size => exact hop.elim
  | seg s => exact hop.elim

end Jit

end Felix86
