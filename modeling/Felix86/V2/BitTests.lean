import Felix86.V2.BooleanFlags
import Felix86.V2.Division
import Felix86.Lib.Numerals

/-!
# Bit tests

`BT`, `BTS`, `BTR` and `BTC` copy a bit to `CF` and keep, set, clear or complement it. In a
register, or with an immediate offset, the offset counts modulo the size of the operand. A memory
operand with an offset in a register is the start of a string of bits in both directions: the bit is
that of a byte which can be far away, below the operand for a negative offset.

The helpers for that find the byte with an arithmetic shift, which rounds down, and then go down by
one more for a negative offset that is not a multiple of eight.
-/

namespace Felix86

namespace Jit

open Numerals Riscv X86

variable {ρ : Type*} (k : Config) (i : Insn)

inductive BitOp
  | bt
  | bts
  | btr
  | btc
deriving DecidableEq, Repr

namespace BitOp

def mnemonic : BitOp → Mnemonic ρ
  | bt => .bt
  | bts => .bts
  | btr => .btr
  | btc => .btc

/-- What becomes of the bit. -/
def change (op : BitOp) (b : Bool) : Bool :=
  match op with
  | bt => b
  | bts => true
  | btr => false
  | btc => !b

end BitOp

/-- The operands of a bit test. -/
structure BitOperands (i : Insn) : Prop where
  place : i.op0.Place
  wide : 16 ≤ i.op0.size.bits
  offset : match i.op1 with
    | .reg _ size => size.bits = i.op0.size.bits
    | .imm _ _ => True
    | _ => False

/-! ## The definition -/

/-- The offset in an operand, where it counts modulo the size. -/
def bitOffset (c : Core ρ) : ℕ :=
  (i.op1.value k i i.op0.size.bits c).toNat % i.op0.size.bits

/-- The offset in a register, as a signed number. -/
def signedOffset (r : Ref) (size : Size) (c : Core ρ) : ℤ := (readPart size (c.gpr r)).toInt

/-- The byte of a bit in the string that starts at a memory operand. -/
def bitAddress (m : MemOperand) (offset : ℤ) (c : Core ρ) : U64 :=
  k.lea i m true c + BitVec.ofInt 64 (offset / 8)

/-- The bit is in a register, or in memory at the operand itself. -/
def testedInPlace (op : BitOp) (c : Core ρ) : Bool × Core ρ :=
  let a := i.op0.value k i i.op0.size.bits c
  let n := bitOffset k i c
  (a.getLsbD n,
    if op = .bt then c else i.op0.assign k i (withBit a n (op.change (a.getLsbD n))) c)

/-- The bit is somewhere in the string. -/
def testedInString (op : BitOp) (m : MemOperand) (offset : ℤ) (c : Core ρ) : Bool × Core ρ :=
  let a := bitAddress k i m offset c
  let n := (offset % 8).toNat
  ((c.mem a).getLsbD n,
    { c with mem :=
      Function.update c.mem a (withBit (c.mem a) n (op.change ((c.mem a).getLsbD n))) })

/-- The value of `CF` and the registers and memory after the instruction. -/
def BitOp.expected (op : BitOp) (c : Core ρ) : Bool × Core ρ :=
  match i.op0, i.op1 with
  | .mem m _, .reg r size => testedInString k i op m (signedOffset r size c) c
  | _, _ => testedInPlace k i op c

/-- `CF` and the bit are as expected, and nothing else is changed. -/
structure BitTested (op : BitOp) (s s' : State ρ) : Prop where
  core : s'.core = (op.expected k i s.core).2
  carry : s'.flag .cf = asFlag (op.expected k i s.core).1
  flag : ∀ f, f ≠ .cf → Bit (s.flag f) → s'.flag f = s.flag f

/-! ## In a register -/

section InPlace

variable {k i} {s : State ρ}

theorem size_bits_pow (size : Size) : size.bits = 8 ∨ size.bits = 16 ∨ size.bits = 32 ∨
    size.bits = 64 := by
  cases size <;> simp [Size.bits]

/-- The masked offset, which is also the shift amount of the host. -/
theorem toNat_maskedOffset (hop : BitOperands i) (c : Core ρ) :
    (k.get i i.op1 c &&& BitVec.ofNat 64 (i.op0.size.bits - 1)).toNat = bitOffset k i c := by
  have hsource : i.op1.Source i.op0.size.bits := by
    have hoffset := hop.offset
    cases hop1 : i.op1 with
    | reg r size =>
      rw [hop1] at hoffset
      exact hoffset
    | mem m size =>
      rw [hop1] at hoffset
      exact hoffset.elim
    | imm v size => trivial
    | seg r =>
      rw [hop1] at hoffset
      exact hoffset.elim
  rw [bitOffset, ← k.low_get i hsource, toNat_low]
  have hwide := hop.wide
  rcases size_bits_pow i.op0.size with h | h | h | h
  · omega
  · rw [h, Nat.mod_mod_of_dvd _ (by norm_num)]
    exact toNat_and_mask (n := 4) _ (by norm_num)
  · rw [h, Nat.mod_mod_of_dvd _ (by norm_num)]
    exact toNat_and_mask (n := 5) _ (by norm_num)
  · rw [h, Nat.mod_mod_of_dvd _ (by norm_num)]
    exact toNat_and_mask (n := 6) _ (by norm_num)

theorem bitOffset_lt (hop : BitOperands i) (c : Core ρ) : bitOffset k i c < i.op0.size.bits :=
  Nat.mod_lt _ (by have := hop.wide; omega)

end InPlace

namespace BitOp

/-- What the handlers do to a register, for the mask of the bit. -/
def word : BitOp → Option (U64 → U64 → U64)
  | bt => none
  | bts => some (· ||| ·)
  | btr => some fun dst one ↦ dst &&& ~~~one
  | btc => some (· ^^^ ·)

/-- What the helpers do to a byte. -/
def byte : BitOp → BitVec 8 → BitVec 8 → BitVec 8
  | bt => fun old _ ↦ old
  | bts => (· ||| ·)
  | btr => fun old one ↦ old &&& ~~~one
  | btc => (· ^^^ ·)

end BitOp

theorem exec_bit (op : BitOp) (s : State ρ) :
    Instr.exec k live ⟨op.mnemonic, i⟩ s = some (bitInstruction k i true op.word op.byte s) := by
  cases op <;> rfl

section InPlaceProof

variable {k i} {s : State ρ} {dst shift : U64} {size : Size}

theorem carry_eq (dst : U64) (hshift : shift.toNat < size.bits) :
    srl dst shift &&& 1 = asFlag ((low size dst).getLsbD shift.toNat) := by
  have hbits := size.bits_le
  rw [and_one_eq, srl, BitVec.getLsbD_ushiftRight, Nat.mod_eq_of_lt (by omega), add_zero,
    getLsbD_low dst hshift]

theorem xor_twoPow_eq {w n : ℕ} (a : BitVec w) (hn : n < w) :
    a ^^^ BitVec.twoPow w n = withBit a n (!a.getLsbD n) := by
  apply BitVec.eq_of_getLsbD_eq
  intro m hm
  rw [getLsbD_withBit hn, BitVec.getLsbD_xor, BitVec.getLsbD_twoPow]
  by_cases hmn : m = n
  · subst hmn
    simp [hm]
  · have hne : n ≠ m := Ne.symm hmn
    simp [hmn, hne]

/-- Bits below the size do not see the others. -/
theorem low_withBit (a : U64) {n : ℕ} (hn : n < size.bits) (b : Bool) :
    low size (withBit a n b) = withBit (low size a) n b := by
  have hbits := size.bits_le
  apply BitVec.eq_of_getLsbD_eq
  intro m hm
  rw [getLsbD_low _ hm, getLsbD_withBit (by omega), getLsbD_withBit hn, getLsbD_low _ hm]

theorem word_eq {op : BitOp} {f : U64 → U64 → U64} (dst : U64) (hf : op.word = some f)
    (hshift : shift.toNat < size.bits) :
    low size (f dst (sll 1 shift)) = withBit (low size dst) shift.toNat
      (op.change ((low size dst).getLsbD shift.toNat)) := by
  have hbits := size.bits_le
  have hone : sll 1 shift = BitVec.twoPow 64 shift.toNat := by
    rw [sll, Nat.mod_eq_of_lt (by omega), BitVec.twoPow_eq]
    rfl
  have hbit : (low size dst).getLsbD shift.toNat = dst.getLsbD shift.toNat := getLsbD_low _ hshift
  rw [hone, hbit, ← low_withBit dst hshift]
  congr 1
  cases op with
  | bt => exact absurd hf (by simp [BitOp.word])
  | bts =>
    obtain rfl := Option.some.inj hf
    rfl
  | btr =>
    obtain rfl := Option.some.inj hf
    rfl
  | btc =>
    obtain rfl := Option.some.inj hf
    exact xor_twoPow_eq dst (by omega)

theorem bitTested_inPlace (op : BitOp) (hop : BitOperands i)
    (hform : op.expected k i s.core = testedInPlace k i op s.core) :
    BitTested k i op s (bitTest k i true op.word s) := by
  obtain ⟨shift, hshift⟩ :
      ∃ v, v = k.get i i.op1 s.core &&& BitVec.ofNat 64 (i.op0.size.bits - 1) := ⟨_, rfl⟩
  have hn := toNat_maskedOffset (k := k) hop s.core
  have hlt := bitOffset_lt (k := k) hop s.core
  rw [← hshift] at hn
  have hdst := k.low_get_place i hop.place s.core
  have hcarry := carry_eq (k.get i i.op0 s.core) (hn ▸ hlt)
  rw [hdst, hn] at hcarry
  rw [hshift] at hcarry
  have hcf : (s.setFlag .cf (srl (k.get i i.op0 s.core)
      (k.get i i.op1 s.core &&& BitVec.ofNat 64 (i.op0.size.bits - 1)) &&& 1)).flag .cf =
      asFlag (testedInPlace k i op s.core).1 :=
    (State.flag_setFlag ..).trans ((if_pos rfl).trans hcarry)
  cases hword : op.word with
  | none =>
    have hbt : op = .bt := by cases op <;> simp_all [BitOp.word]
    refine ⟨?_, ?_, fun f hf _ ↦ (State.flag_setFlag ..).trans (if_neg hf)⟩
    · rw [hform, testedInPlace, if_pos hbt]
      rfl
    · rw [hform]
      exact hcf
  | some f =>
    have hbt : op ≠ .bt := by
      rintro rfl
      exact absurd hword (by simp [BitOp.word])
    have hvalue := word_eq (k.get i i.op0 s.core) hword (hn ▸ hlt)
    rw [hdst, hn, hshift] at hvalue
    refine ⟨?_, ?_, fun f hf _ ↦ (State.flag_setFlag ..).trans (if_neg hf)⟩
    · rw [hform, testedInPlace, if_neg hbt, ← hvalue]
      exact k.set_eq i hop.place _ s.core
    · rw [hform]
      exact hcf

end InPlaceProof

/-! ## In a string -/

section InString

variable {k i} {s : State ρ} {m : MemOperand} {r : Ref} {size : Size}

theorem toInt_offset (hsize : 16 ≤ size.bits) (c : Core ρ) :
    (k.sext size (k.getRef r size c)).toInt = signedOffset r size c := by
  have hlow := k.low_getRef r size c
  rw [signedOffset, ← hlow]
  cases size with
  | byte => exact absurd hsize (by decide)
  | byteHigh => exact absurd hsize (by decide)
  | word =>
    have hsext : k.sexth (k.getRef r .word c) = ((k.getRef r .word c).setWidth 16).signExtend 64 :=
      k.sexth_eq _
    rw [Config.sext, hsext]
    exact BitVec.toInt_signExtend_of_le (by decide)
  | dword => exact toInt_sextw _
  | qword => exact congrArg BitVec.toInt (BitVec.setWidth_eq _).symm

variable {offset : U64}

theorem toNat_and_seven (offset : U64) : (offset &&& 7).toNat = (offset.toInt % 8).toNat := by
  have hmask : (offset &&& 7).toNat = offset.toNat % 2 ^ 3 :=
    toNat_and_mask offset (show 3 ≤ 64 by norm_num)
  have hlt := offset.isLt
  rw [hmask, BitVec.toInt_eq_toNat_cond]
  split_ifs <;> omega

theorem bitStringAddress_eq (a offset : U64) :
    bitStringAddress a offset = a + BitVec.ofInt 64 (offset.toInt / 8) -
      if offset.toInt < 0 ∧ offset.toInt % 8 ≠ 0 then 1 else 0 := by
  have hshift : offset.sshiftRight 3 = BitVec.ofInt 64 (offset.toInt / 8) := by
    rw [← BitVec.ofInt_toInt (x := offset.sshiftRight 3), BitVec.toInt_sshiftRight,
      Int.shiftRight_eq_div_pow]
    rfl
  have hseven := toNat_and_seven offset
  have hzero : offset &&& 7 ≠ 0 ↔ offset.toInt % 8 ≠ 0 := by
    rw [Ne, ← BitVec.toNat_inj, hseven]
    have hrange : 0 ≤ offset.toInt % 8 := by omega
    refine not_congr ⟨fun h ↦ ?_, fun h ↦ by rw [h]; rfl⟩
    have hnat : (offset.toInt % 8).toNat = 0 := h
    omega
  have hneg : offset.msb = true ↔ offset.toInt < 0 := by
    rw [← BitVec.slt_zero_iff_msb_cond, BitVec.slt_eq_decide, decide_eq_true_iff]
    rfl
  rw [bitStringAddress, hshift]
  congr 1
  simp only [Bool.and_eq_true, decide_eq_true_eq, hneg, hzero]

theorem carry_byte (old : BitVec 8) {n : ℕ} :
    ((old >>> n) &&& 1).setWidth 64 = asFlag (old.getLsbD n) := by
  have hone : (old >>> n) &&& 1 = (old >>> n) &&& 1#8 := rfl
  have hbit : (old >>> n).getLsbD 0 = old.getLsbD n := by
    rw [BitVec.getLsbD_ushiftRight, Nat.add_zero]
  rw [hone, BitVec.and_one_eq_setWidth_ofBool_getLsbD, hbit]
  cases old.getLsbD n <;> decide

theorem byte_eq (op : BitOp) (old : BitVec 8) {n : ℕ} (hn : n < 8) :
    op.byte old ((1 <<< n : ℕ) : BitVec 8) = withBit old n (op.change (old.getLsbD n)) := by
  have hone : ((1 <<< n : ℕ) : BitVec 8) = BitVec.twoPow 8 n := by
    apply BitVec.eq_of_toNat_eq
    rw [BitVec.toNat_twoPow, Nat.one_shiftLeft]
    rfl
  rw [hone]
  cases op with
  | bt => exact (withBit_self hn).symm
  | bts => rfl
  | btr => rfl
  | btc => exact xor_twoPow_eq old hn

/-- The state after `BITSTRING_func`, with the byte that the helper takes. -/
theorem bitString_eq (op : BitOp) (hop1 : i.op1 = .reg r size) (hsize : 16 ≤ size.bits) :
    let offset := signedOffset r size s.core
    let n := (offset % 8).toNat
    let a := bitAddress k i m offset s.core - if offset < 0 ∧ offset % 8 ≠ 0 then 1 else 0
    bitString k i m op.byte s = State.setFlag { s.throughThreadState with
      core := { s.core with
        mem := Function.update s.core.mem a
          (withBit (s.core.mem a) n (op.change ((s.core.mem a).getLsbD n))) } } .cf
      (asFlag ((s.core.mem a).getLsbD n)) := by
  intro offset n a
  have hoffset : (k.sext i.op1.size (k.get i i.op1 s.core)).toInt = offset := by
    rw [hop1]
    exact toInt_offset hsize s.core
  have ha : bitStringAddress (k.lea i m true s.core)
      (k.sext i.op1.size (k.get i i.op1 s.core)) = a := by
    rw [bitStringAddress_eq, hoffset]
    rfl
  have hn : (k.sext i.op1.size (k.get i i.op1 s.core) &&& 7).toNat = n := by
    rw [toNat_and_seven, hoffset]
  have hlt : n < 8 := by omega
  rw [bitString]
  simp only [ha, hn]
  rw [carry_byte, byte_eq op _ hlt]

end InString

/-! ## When a bit test is right -/

/-- The byte below the bit's own shows the same: its bit is the same one, and the instruction leaves
both of them as they are. -/
def SameBelow (op : BitOp) (m : MemOperand) (offset : ℤ) (c : Core ρ) : Prop :=
  let a := bitAddress k i m offset c
  let n := (offset % 8).toNat
  (c.mem (a - 1)).getLsbD n = (c.mem a).getLsbD n ∧
    op.change ((c.mem a).getLsbD n) = (c.mem a).getLsbD n

/-- A negative offset in a register is a multiple of eight, or the error does not show. -/
def BitOp.Right (op : BitOp) (c : Core ρ) : Prop :=
  match i.op0, i.op1 with
  | .mem m _, .reg r size =>
    signedOffset r size c < 0 → signedOffset r size c % 8 ≠ 0 →
      SameBelow k i op m (signedOffset r size c) c
  | _, _ => True

section

variable {k i} {s : State ρ} {m : MemOperand} {r : Ref} {size size' : Size}

theorem zextb_of_bit {v : U64} (h : Bit v) : zextb v = v := by
  rcases h with rfl | rfl <;> decide

theorem bitTested_inString_iff (op : BitOp) (hop0 : i.op0 = .mem m size')
    (hop1 : i.op1 = .reg r size) (hsize : 16 ≤ size.bits) :
    BitTested k i op s (bitString k i m op.byte s) ↔ op.Right k i s.core := by
  have hright : op.Right k i s.core ↔ (signedOffset r size s.core < 0 →
      signedOffset r size s.core % 8 ≠ 0 →
          SameBelow k i op m (signedOffset r size s.core) s.core) := by
    rw [BitOp.Right, hop0, hop1]
  have hexpected : op.expected k i s.core =
      testedInString k i op m (signedOffset r size s.core) s.core := by
    rw [BitOp.expected, hop0, hop1]
  have hcode := bitString_eq (k := k) (m := m) (s := s) op hop1 hsize
  simp only at hcode
  have hn : (signedOffset r size s.core % 8).toNat < 8 := by omega
  rw [SameBelow] at hright
  rw [testedInString] at hexpected
  generalize signedOffset r size s.core = offset at *
  generalize bitAddress k i m offset s.core = a at *
  generalize (offset % 8).toNat = n at *
  -- the other flags pass through bytes
  have hflags : ∀ (c : Core ρ) (v : U64) (f : Flag), f ≠ .cf → Bit (s.flag f) →
      (State.setFlag { s.throughThreadState with core := c } .cf v).flag f = s.flag f :=
    fun c v f hf hbit ↦ (State.flag_setFlag ..).trans ((if_neg hf).trans (zextb_of_bit hbit))
  rw [hright, hcode]
  by_cases hwrong : offset < 0 ∧ offset % 8 ≠ 0
  · rw [if_pos hwrong]
    have hne : a ≠ a - 1 := by bv_omega
    constructor
    · intro htested _ _
      have hcarry : asFlag ((s.core.mem (a - 1)).getLsbD n) =
          asFlag ((s.core.mem a).getLsbD n) := by
        have hcf := htested.carry
        rwa [State.flag_setFlag, if_pos rfl, hexpected] at hcf
      have hcore := htested.core
      rw [hexpected, State.core_setFlag] at hcore
      have hat := congrArg (fun c : Core ρ ↦ c.mem a) hcore
      simp only at hat
      rw [Function.update_of_ne hne, Function.update_self] at hat
      exact ⟨asFlag_inj.mp hcarry, (withBit_eq_self_iff hn).mp hat.symm⟩
    · intro hsame
      obtain ⟨hbelow, hkeep⟩ := hsame hwrong.1 hwrong.2
      -- neither of the two bytes is changed
      have hfirst : withBit (s.core.mem (a - 1)) n (op.change ((s.core.mem (a - 1)).getLsbD n)) =
          s.core.mem (a - 1) := by
        rw [hbelow, hkeep, ← hbelow, withBit_self hn]
      have hsecond : withBit (s.core.mem a) n (op.change ((s.core.mem a).getLsbD n)) =
          s.core.mem a := by
        rw [hkeep, withBit_self hn]
      refine ⟨?_, ?_, fun f hf hbit ↦ hflags _ _ f hf hbit⟩
      · rw [hexpected, State.core_setFlag, hfirst, hsecond, Function.update_eq_self,
          Function.update_eq_self]
      · rw [State.flag_setFlag, if_pos rfl, hexpected]
        exact congrArg asFlag hbelow
  · have hsub : a - 0 = a := BitVec.sub_zero a
    rw [if_neg hwrong, hsub]
    refine iff_of_true ⟨?_, ?_, fun f hf hbit ↦ hflags _ _ f hf hbit⟩
      fun hneg hmod ↦ absurd ⟨hneg, hmod⟩ hwrong
    · rw [hexpected, State.core_setFlag]
    · rw [State.flag_setFlag, if_pos rfl, hexpected]
      rfl

end

/-- A bit test does what the manual says unless the offset is in a register, the base in memory, and
the offset negative and no multiple of eight: then it takes the byte below the right one. -/
theorem bitTest_iff (op : BitOp) (s : State ρ) (hop : BitOperands i) :
    (∃ s', Instr.exec k live ⟨op.mnemonic, i⟩ s = some s' ∧ BitTested k i op s s') ↔
      op.Right k i s.core := by
  rw [exec_bit]
  simp only [Option.some_inj, exists_eq_left']
  cases hop0 : i.op0 with
  | mem m size' =>
    cases hop1 : i.op1 with
    | reg r size =>
      have hsize : 16 ≤ size.bits := by
        have hoffset := hop.offset
        rw [hop1] at hoffset
        exact hoffset.symm ▸ hop.wide
      have hform : bitInstruction k i true op.word op.byte s = bitString k i m op.byte s := by
        rw [bitInstruction, hop0, hop1]
      rw [hform]
      exact bitTested_inString_iff op hop0 hop1 hsize
    | _ =>
      have hform : bitInstruction k i true op.word op.byte s = bitTest k i true op.word s := by
        rw [bitInstruction, hop0, hop1]
      rw [hform]
      refine iff_of_true (bitTested_inPlace op hop ?_) ?_
      · rw [BitOp.expected, hop0, hop1]
      · rw [BitOp.Right, hop0, hop1]
        trivial
  | _ =>
    have hform : bitInstruction k i true op.word op.byte s = bitTest k i true op.word s := by
      rw [bitInstruction, hop0]
    rw [hform]
    refine iff_of_true (bitTested_inPlace op hop ?_) ?_
    · rw [BitOp.expected, hop0]
    · rw [BitOp.Right, hop0]
      trivial

/-- `BTS dword [0x20000], ECX`. -/
def btsString : Insn :=
  (Mnemonic.on (.bts : Mnemonic Unit) .dword (.mem ⟨.none, none, 0, 0x20000, .ds⟩ .dword)
    (.reg rcx .dword)).insn

theorem bitTest_iff_btsString :
    ∃ s', Instr.exec (.default true) live ⟨BitOp.bts.mnemonic, btsString⟩ (State.withReg rcx 9) =
        some s' ∧
      BitTested (.default true) btsString .bts (State.withReg rcx 9) s' :=
  (bitTest_iff (.default true) btsString .bts (State.withReg rcx 9)
    ⟨trivial, by decide, rfl⟩).mpr fun hneg ↦ absurd hneg (by decide +kernel)

/-- With an offset of minus one the bit is set one byte too low. -/
theorem not_bitTested_btsString :
    ¬ ∃ s', Instr.exec (.default true) live ⟨BitOp.bts.mnemonic, btsString⟩
        (State.withReg rcx 0xFFFFFFFF) = some s' ∧
      BitTested (.default true) btsString .bts (State.withReg rcx 0xFFFFFFFF) s' := by
  rintro ⟨s', hexec, htested⟩
  have hcode := congrArg (fun t ↦ t.map fun s : State Unit ↦ s.core.mem 0x1FFFF) hexec
  rw [Option.map_some, htested.core] at hcode
  revert hcode
  decide +kernel

end Jit

end Felix86
