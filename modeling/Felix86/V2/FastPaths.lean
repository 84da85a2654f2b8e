import Felix86.V2.Registers
import Felix86.V2.HandlersArith
import Felix86.V2.HandlersShift
import Felix86.V2.HandlersMul
import Felix86.V2.Instruction
import Mathlib.Data.Nat.ModEq

/-!
# The paths without flags

When no flag is needed `ADD`, `SUB`, `OR`, `XOR`, shifts by `CL`, `IMUL` and `ROL` by an immediate
are compiled in another way. The handlers then work on the register that the operand is in, without
taking the operand out of it and without putting the result back in. Here each of these ways leaves
the same registers and memory as the general one, except for one: `ROL` of a 32-bit register by a
multiple of 32 clears the upper half of the register on the short path only (`exec_eq_general_iff`).

## Working at the top of a word

A byte or a halfword of a register is rotated to the top of the word. There the carries of an
addition leave the word instead of going into the bits that must stay, so one instruction on the
whole word does the operation on the part: `LaneOp` says which operations can be done so, and
`opNoflagsValue_eq` that the register is then what `setGPR` makes of it.

## Only the low bits count

For the other paths it is enough to compare results as far as an operand of their size shows
(`LowEq`): `setGPR` leaves equal states for values that are equal so far (`set_congr`). The short
path of a shift or a product of 32 bits leaves the sign in the upper half of its result where the
general one leaves zeros, and the registers are the same all the same.

What is compared is a handler with itself, once with the flags that the block needs and once with
all of them. That the handlers can run out of scratch registers is not part of them here.
-/

namespace Felix86

namespace Jit

open Riscv

/-! ## Operations on the top of a word

The lower bits of such an operation are those of the lower bits, and zeros below the lane stay
zeros. The second is what lets the other part of the register come out as it went in. -/

/-- An operation that can be done at the top of a word: the lower bits of the result depend on the
lower bits of the operands, and an operand with zeros below leaves what is below alone. -/
structure LaneOp (f : U64 → U64 → U64) : Prop where
  low : ∀ {size : Size} {a a' b b' : U64}, LowEq size a a' → LowEq size b b' →
    LowEq size (f a b) (f a' b')
  lane8 : ∀ x t : U64, (f x (t <<< 56)).toNat =
    (f (x >>> 56) t).toNat % 2 ^ 8 * 2 ^ 56 + x.toNat % 2 ^ 56
  lane16 : ∀ x t : U64, (f x (t <<< 48)).toNat =
    (f (x >>> 48) t).toNat % 2 ^ 16 * 2 ^ 48 + x.toNat % 2 ^ 48

theorem laneOp_add : LaneOp (· + ·) where
  low := LowEq.add
  lane8 x t := by
    have hx := x.isLt
    rw [BitVec.toNat_add, BitVec.toNat_add, toNat_shl, toNat_shr]
    omega
  lane16 x t := by
    have hx := x.isLt
    rw [BitVec.toNat_add, BitVec.toNat_add, toNat_shl, toNat_shr]
    omega

theorem laneOp_sub : LaneOp (· - ·) where
  low := LowEq.sub
  lane8 x t := by
    have hx := x.isLt
    have ht := t.isLt
    rw [BitVec.toNat_sub, BitVec.toNat_sub, toNat_shl, toNat_shr]
    omega
  lane16 x t := by
    have hx := x.isLt
    have ht := t.isLt
    rw [BitVec.toNat_sub, BitVec.toNat_sub, toNat_shl, toNat_shr]
    omega

/-- A bitwise operation that keeps what meets a zero is done bit by bit at the top of a word. -/
theorem lane_bitwise {f : U64 → U64 → U64} {g : Bool → Bool → Bool}
    (hf : ∀ a b : U64, ∀ j, (hj : j < 64) → (f a b)[j] = g a[j] b[j]) (hg : ∀ b, g b false = b)
    {m : ℕ} (hm : m < 64) (x t : U64) :
    (f x (t <<< m)).toNat = (f (x >>> m) t).toNat % 2 ^ (64 - m) * 2 ^ m + x.toNat % 2 ^ m := by
  have hpow : 2 ^ 64 = 2 ^ (64 - m) * 2 ^ m := by
    rw [← Nat.pow_add]
    congr 1
    omega
  have hsplit : f x (t <<< m) = (f (x >>> m) t) <<< m ||| x &&& BitVec.ofNat 64 (2 ^ m - 1) := by
    ext j hj
    have hmask : (BitVec.ofNat 64 (2 ^ m - 1))[j] = decide (j < m) := by
      rw [← BitVec.getLsbD_eq_getElem, BitVec.getLsbD_ofNat]
      simp [hj, Nat.testBit_two_pow_sub_one]
    simp only [hf, BitVec.getElem_or, BitVec.getElem_and, hmask, BitVec.getElem_shiftLeft]
    by_cases hlt : j < m
    · simp [hlt, hg]
    · have hshift : (x >>> m)[j - m] = x[j] := by
        simp only [BitVec.getElem_ushiftRight]
        rw [BitVec.getLsbD_eq_getElem (by omega)]
        congr 1
        omega
      simp [hlt, hshift]
  have hlow : (x &&& BitVec.ofNat 64 (2 ^ m - 1)).toNat = x.toNat % 2 ^ m :=
    toNat_and_mask x (by omega)
  have hhigh : ((f (x >>> m) t) <<< m).toNat =
      (f (x >>> m) t).toNat % 2 ^ (64 - m) * 2 ^ m := by
    rw [toNat_shl, hpow, Nat.mul_mod_mul_right]
  rw [hsplit, toNat_or_disjoint (n := m), hhigh, hlow]
  · rw [hlow]
    exact Nat.mod_lt _ (Nat.two_pow_pos m)
  · rw [hhigh, Nat.mul_mod_left]

theorem laneOp_or : LaneOp (· ||| ·) where
  low := LowEq.or
  lane8 := lane_bitwise (g := (· || ·)) (fun _ _ _ _ ↦ BitVec.getElem_or ..) (by simp) (by decide)
  lane16 := lane_bitwise (g := (· || ·)) (fun _ _ _ _ ↦ BitVec.getElem_or ..) (by simp) (by decide)

theorem laneOp_xor : LaneOp (· ^^^ ·) where
  low := LowEq.xor
  lane8 := lane_bitwise (g := (· ^^ ·)) (fun _ _ _ _ ↦ BitVec.getElem_xor ..) (by simp) (by decide)
  lane16 := lane_bitwise (g := (· ^^ ·)) (fun _ _ _ _ ↦ BitVec.getElem_xor ..) (by simp) (by decide)

/-! ## `OP_noflags_destreg` -/

/-- The operand width is the size of the operands, as the decoder gives it. -/
structure Insn.Sized (i : Insn) : Prop where
  width : i.width ≠ .byteHigh
  dst : i.op0.size.bits = i.width.bits
  src : ∀ r size, i.op1 = .reg r size → size.bits = i.width.bits

section NoflagsDestreg

variable {ρ : Type*} (k : Config) (i : Insn)

/-- The value of a source for an operand of the size `size`, as far as it counts. -/
theorem lowEq_source (size : Size) (c : Core ρ) (op : Operand)
    (hop : ∀ r size', op = .reg r size' → size'.bits = size.bits) :
    LowEq size (if op.isHigh then k.getWhole i op c >>> 8 else k.getWhole i op c)
      (k.get i op c) := by
  cases op with
  | reg r size' =>
    have hbits := hop r size' rfl
    unfold LowEq
    rw [← hbits]
    cases size' with
    | byte => exact (Config.lowEq_zext k .byte (c.gpr r)).symm
    | byteHigh => exact (Config.lowEq_zext k .byte (c.gpr r >>> 8)).symm
    | word => exact (Config.lowEq_zext k .word (c.gpr r)).symm
    | dword =>
      simp only [Operand.isHigh, Bool.false_eq_true, if_false, Config.getWhole, Config.get,
        Config.getRef]
      by_cases hmode : k.mode32
      · simp only [hmode, if_true]
      · simp only [hmode]
        exact (Config.lowEq_zext k .dword (c.gpr r)).symm
    | qword => rfl
  | mem m size' => rfl
  | imm v size' => rfl
  | seg s => rfl

variable {f f32 : U64 → U64 → U64}

/-- The operation at the top of a word, with the number of the word in two parts. -/
theorem LaneOp.toNat8 (hf : LaneOp f) {x w u v : U64} {t q : ℕ} (hx : x.toNat = t * 2 ^ 56 + q)
    (hq : q < 2 ^ 56) (hu : u.toNat % 2 ^ 8 = t % 2 ^ 8) (hv : LowEq .byte w v) :
    (f x (w <<< 56)).toNat = (f u v).toNat % 2 ^ 8 * 2 ^ 56 + q := by
  have htop : (x >>> 56).toNat = t := by
    rw [toNat_shr, hx, Nat.add_comm, Nat.add_mul_div_right _ _ (by decide), Nat.div_eq_of_lt hq,
      Nat.zero_add]
  have hxu : LowEq .byte (x >>> 56) u := by
    rw [LowEq, htop]
    exact hu.symm
  have hlow : (f (x >>> 56) w).toNat % 2 ^ 8 = (f u v).toNat % 2 ^ 8 := hf.low hxu hv
  rw [hf.lane8, hlow, hx, Nat.mul_add_mod_of_lt hq]

theorem LaneOp.toNat16 (hf : LaneOp f) {x w u v : U64} {t q : ℕ} (hx : x.toNat = t * 2 ^ 48 + q)
    (hq : q < 2 ^ 48) (hu : u.toNat % 2 ^ 16 = t % 2 ^ 16) (hv : LowEq .word w v) :
    (f x (w <<< 48)).toNat = (f u v).toNat % 2 ^ 16 * 2 ^ 48 + q := by
  have htop : (x >>> 48).toNat = t := by
    rw [toNat_shr, hx, Nat.add_comm, Nat.add_mul_div_right _ _ (by decide), Nat.div_eq_of_lt hq,
      Nat.zero_add]
  have hxu : LowEq .word (x >>> 48) u := by
    rw [LowEq, htop]
    exact hu.symm
  have hlow : (f (x >>> 48) w).toNat % 2 ^ 16 = (f u v).toNat % 2 ^ 16 := hf.low hxu hv
  rw [hf.lane16, hlow, hx, Nat.mul_add_mod_of_lt hq]

theorem shifted_source (src : U64) (srcHigh : Bool) :
    (if srcHigh then (src >>> 8) <<< 56 else src <<< 56) =
      (if srcHigh then src >>> 8 else src) <<< 56 := by
  cases srcHigh <;> rfl

theorem opNoflagsValue_byte (hf : LaneOp f) (dst src a : U64) (srcHigh : Bool)
    (ha : LowEq .byte (if srcHigh then src >>> 8 else src) a) :
    opNoflagsValue k f f32 .byte false srcHigh dst src =
      k.merge .byte dst (f (k.zext .byte dst) a) := by
  apply BitVec.eq_of_toNat_eq
  have hdst := dst.isLt
  have hrot : (rori dst 8).toNat = dst.toNat % 2 ^ 8 * 2 ^ 56 + dst.toNat / 2 ^ 8 :=
    toNat_rori dst (by decide)
  have hop := hf.toNat8 hrot (by omega) (u := k.zext .byte dst)
    (by rw [Config.toNat_zext, Size.bits]) ha
  simp only [opNoflagsValue, Bool.false_eq_true, if_false, shifted_source]
  rw [Config.toNat_merge_byte, toNat_rori_parts (show 56 < 64 by decide) hop (by omega)]

theorem opNoflagsValue_byteHigh (hf : LaneOp f) (dst src a : U64) (srcHigh : Bool)
    (ha : LowEq .byte (if srcHigh then src >>> 8 else src) a) :
    opNoflagsValue k f f32 .byte true srcHigh dst src =
      k.merge .byteHigh dst (f (k.zext .byte (dst >>> 8)) a) := by
  apply BitVec.eq_of_toNat_eq
  have hdst := dst.isLt
  -- the two lower bytes go to the top, the one to change above the other
  have hrot : (rori dst 16).toNat = dst.toNat / 2 ^ 8 % 2 ^ 8 * 2 ^ 56 +
      (dst.toNat % 2 ^ 8 * 2 ^ 48 + dst.toNat / 2 ^ 16) := by
    rw [toNat_rori dst (show 16 < 64 by decide)]
    omega
  have hop := hf.toNat8 hrot (by omega) (u := k.zext .byte (dst >>> 8))
    (by rw [Config.toNat_zext, Size.bits, toNat_shr]) ha
  have hparts : (f (rori dst 16) ((if srcHigh then src >>> 8 else src) <<< 56)).toNat =
      ((f (k.zext .byte (dst >>> 8)) a).toNat % 2 ^ 8 * 2 ^ 8 + dst.toNat % 2 ^ 8) * 2 ^ 48 +
        dst.toNat / 2 ^ 16 := by
    rw [hop]
    omega
  simp only [opNoflagsValue, if_true, shifted_source]
  rw [Config.toNat_merge_byteHigh, toNat_rori_parts (show 48 < 64 by decide) hparts (by omega)]
  omega

theorem opNoflagsValue_word (hf : LaneOp f) (dst src a : U64) (dstHigh srcHigh : Bool)
    (ha : LowEq .word src a) :
    opNoflagsValue k f f32 .word dstHigh srcHigh dst src =
      k.merge .word dst (f (k.zext .word dst) a) := by
  apply BitVec.eq_of_toNat_eq
  have hdst := dst.isLt
  have hrot : (rori dst 16).toNat = dst.toNat % 2 ^ 16 * 2 ^ 48 + dst.toNat / 2 ^ 16 :=
    toNat_rori dst (by decide)
  have hop := hf.toNat16 hrot (by omega) (u := k.zext .word dst)
    (by rw [Config.toNat_zext, Size.bits]) ha
  simp only [opNoflagsValue]
  rw [Config.toNat_merge_word, toNat_rori_parts (show 48 < 64 by decide) hop (by omega)]

theorem opNoflagsValue_dword (hf : LaneOp f) (h32 : ∀ a b, LowEq .dword (f32 a b) (f a b))
    (dst src a : U64) (dstHigh srcHigh : Bool) {d : U64} (hd : LowEq .dword dst d)
    (ha : LowEq .dword src a) :
    opNoflagsValue k f f32 .dword dstHigh srcHigh dst src = k.merge .dword dst (f d a) := by
  apply BitVec.eq_of_toNat_eq
  have hlow : LowEq .dword (f32 dst src) (f d a) := (h32 dst src).trans (hf.low hd ha)
  simp only [opNoflagsValue]
  rw [Config.toNat_zext, Config.toNat_merge_dword]
  exact hlow

theorem not_isHigh_of_sized (hi : i.Sized) (hbits : i.width.bits ≠ 8) : i.op1.isHigh = false := by
  cases hop : i.op1 with
  | reg r size =>
    have hsize := hi.src r size hop
    cases size with
    | byteHigh => exact absurd hsize.symm hbits
    | _ => rfl
  | mem m size => rfl
  | imm v size => rfl
  | seg seg => rfl

theorem opNoflagsValue_eq (hf : LaneOp f) (h32 : ∀ a b, LowEq .dword (f32 a b) (f a b))
    (hi : i.Sized) (c : Core ρ) (r : Ref) (size : Size) (hsize : size.bits = i.width.bits) :
    opNoflagsValue k f f32 i.width (Operand.reg r size).isHigh i.op1.isHigh (c.gpr r)
        (k.getWhole i i.op1 c) =
      k.merge size (c.gpr r) (f (k.getRef r size c) (k.get i i.op1 c)) := by
  have hsrc := lowEq_source k i i.width c i.op1 hi.src
  have hhigh := not_isHigh_of_sized i hi
  have hwidth := hi.width
  cases hw : i.width <;> rw [hw] at hsrc hsize hhigh hwidth <;> cases size <;>
    simp only [Size.bits, Nat.reduceEqDiff] at hsize
  case byte.byte => exact opNoflagsValue_byte k hf _ _ _ _ hsrc
  case byte.byteHigh => exact opNoflagsValue_byteHigh k hf _ _ _ _ hsrc
  case byteHigh.byte => exact absurd rfl hwidth
  case byteHigh.byteHigh => exact absurd rfl hwidth
  case word.word =>
    rw [hhigh (by decide)] at hsrc
    exact opNoflagsValue_word k hf _ _ _ _ _ hsrc
  case dword.dword =>
    rw [hhigh (by decide)] at hsrc
    have hdst : LowEq .dword (c.gpr r) (k.getRef r .dword c) :=
      lowEq_source k i .dword c (.reg r .dword) fun _ _ h ↦ by cases h; rfl
    exact opNoflagsValue_dword k hf h32 _ _ _ _ _ hdst hsrc
  case qword.qword =>
    rw [hhigh (by decide)] at hsrc
    exact congrArg (f (c.gpr r)) hsrc.eq

/-- `OP_noflags_destreg` leaves what the general path leaves. -/
theorem opNoflagsDestreg_eq (hf : LaneOp f) (h32 : ∀ a b, LowEq .dword (f32 a b) (f a b))
    (hi : i.Sized) (hreg : i.op0.isReg) (s : State ρ) :
    opNoflagsDestreg k i f f32 s =
      s.map (k.set i i.op0 (f (k.get i i.op0 s.core) (k.get i i.op1 s.core))) := by
  have hdst := hi.dst
  cases hop : i.op0 with
  | mem m size => simp [hop, Operand.isReg] at hreg
  | imm v size => simp [hop, Operand.isReg] at hreg
  | seg seg => simp [opNoflagsDestreg, hop, State.map, Config.set]
  | reg r size =>
    rw [hop] at hdst
    have hvalue := opNoflagsValue_eq k i hf h32 hi s.core r size hdst
    simp only [opNoflagsDestreg, hop, State.map, Config.set, Config.setRef, hvalue]
    rfl

end NoflagsDestreg

/-! ## Shifts

`SLL` and its relatives take five or six bits of the count from `RCX` as it is, which are the bits
that the general path masks. Right shifts are done on a source that has been extended to 32 bits, so
that nothing comes in from above. -/

/-- Numbers that agree on 32 bits agree for smaller operands. -/
theorem LowEq.of_mod {size : Size} {v w : U64} (hsize : size.bits ≤ 32)
    (h : v.toNat % 2 ^ 32 = w.toNat % 2 ^ 32) : LowEq size v w := by
  have hdvd : 2 ^ size.bits ∣ 2 ^ 32 := Nat.pow_dvd_pow 2 hsize
  rw [LowEq, ← Nat.mod_mod_of_dvd v.toNat hdvd, h, Nat.mod_mod_of_dvd _ hdvd]

theorem mod_two_pow_bits (size : Size) (n : ℕ) : n % 2 ^ 64 % 2 ^ size.bits = n % 2 ^ size.bits :=
  Nat.mod_mod_of_dvd n (Nat.pow_dvd_pow 2 (Size.bits_le size))

theorem lowEq_slliw {size : Size} {a b : U64} (n : ℕ) (hsize : size.bits ≤ 32)
    (h : LowEq size a b) :
    LowEq size (slliw a n) (b <<< n) := by
  have hdvd : 2 ^ size.bits ∣ 2 ^ 32 := Nat.pow_dvd_pow 2 hsize
  have hleft : (slliw a n).toNat % 2 ^ size.bits = a.toNat * 2 ^ n % 2 ^ size.bits := by
    rw [← Nat.mod_mod_of_dvd _ hdvd, toNat_slliw_mod, Nat.mod_mod_of_dvd _ hdvd]
  rw [LowEq, hleft, toNat_shl, mod_two_pow_bits]
  exact Nat.ModEq.mul_right _ h

theorem lowEq_srliw {size : Size} {a b : U64} (n : ℕ) (hsize : size.bits ≤ 32)
    (h : a.toNat % 2 ^ 32 = b.toNat) : LowEq size (srliw a n) (b >>> n) := by
  refine LowEq.of_mod hsize ?_
  have hb : b.toNat / 2 ^ n < 2 ^ 32 := by
    have hlt : b.toNat < 2 ^ 32 := by omega
    exact lt_of_le_of_lt (Nat.div_le_self _ _) hlt
  rw [toNat_srliw_mod, h, toNat_shr, Nat.mod_eq_of_lt hb]

section Shifts

variable {ρ : Type*} (k : Config) (i : Insn)

theorem toNat_variableCount (size : Size) (op : Operand) (c : Core ρ) :
    (variableCount k i size op c).toNat = (k.get i op c).toNat % (countMask size + 1) := by
  unfold variableCount countMask
  split
  · exact toNat_and_mask (n := 6) _ (by decide)
  · exact toNat_and_mask (n := 5) _ (by decide)

/-- The count in `CL`, as the host's shift instructions take it from the register. -/
theorem toNat_count_cl (size : Size) (c : Core ρ) :
    (variableCount k i size (.reg rcx .byte) c).toNat =
    (c.gpr rcx).toNat % (countMask size + 1) := by
  rw [toNat_variableCount, Config.get, Config.getRef, Config.toNat_zext]
  unfold countMask
  split <;> simp only [Size.bits] <;> omega

theorem lowEq_shiftSource (c : Core ρ) :
    LowEq i.op0.size (shiftNoflagsSource k i true c) (k.get i i.op0 c) := by
  unfold shiftNoflagsSource
  split
  · next r hop =>
    rw [hop]
    exact (k.lowEq_zext .byte (c.gpr r >>> 8)).symm
  · next r hop =>
    rw [hop]
    exact (k.lowEq_zext .byte (c.gpr r)).symm
  · next r hop =>
    rw [hop]
    exact (k.lowEq_zext .word (c.gpr r)).symm
  · next r hop =>
    have hsrc := lowEq_source k i .dword c (.reg r .dword) (fun _ _ h ↦ by cases h; rfl)
    rw [hop]
    exact hsrc
  · rfl

/-- The source of a right shift is the operand, as far as a 32-bit shift sees it. -/
theorem toNat_shiftSource {c : Core ρ}
    (hz : ∀ r, i.op0 = .reg r .dword → k.mode32 → Low32 (c.gpr r))
    (hop : i.op0.isReg || i.op0.isMem)
    (hbits : i.op0.size.bits ≤ 32) :
    (shiftNoflagsSource k i false c).toNat % 2 ^ 32 = (k.get i i.op0 c).toNat := by
  have hget : (k.get i i.op0 c).toNat < 2 ^ 32 :=
    lt_of_lt_of_le (k.get_lt i hz hop) (Nat.pow_le_pow_right (by decide) hbits)
  unfold shiftNoflagsSource
  split
  · exact Nat.mod_eq_of_lt hget
  · exact Nat.mod_eq_of_lt hget
  · exact Nat.mod_eq_of_lt hget
  · next r heq =>
    have hmod : (c.gpr r).toNat % 2 ^ 32 = (k.getRef r .dword c).toNat % 2 ^ 32 :=
      lowEq_source k i .dword c (.reg r .dword) fun _ _ h ↦ by cases h; rfl
    rw [heq] at hget ⊢
    rw [hmod]
    exact Nat.mod_eq_of_lt hget
  · exact Nat.mod_eq_of_lt hget

theorem countMask_of_ne {size : Size} (h : size ≠ .qword) : countMask size = 31 := by
  simp [countMask, h]

theorem bits_le_of_ne {size : Size} (h : size ≠ .qword) : size.bits ≤ 32 := by
  cases size <;> simp_all [Size.bits]

/-- A shift by `CL` without flags, given that both forms of the shift agree with the general one. -/
theorem shiftNoflags_eq {left : Bool} {func64 func32 : U64 → U64 → U64} (shift : U64 → ℕ → U64)
    (hcl : i.op1 = .reg rcx .byte) (hsize : i.op0.size.bits = i.width.bits) (s : State ρ)
    (h64 : ∀ a b, func64 a b = shift a (b.toNat % 64))
    (hsrc : i.width = .qword → shiftNoflagsSource k i left s.core = k.get i i.op0 s.core)
    (h32 : i.op0.size.bits ≤ 32 → ∀ b : U64, LowEq i.op0.size
      (func32 (shiftNoflagsSource k i left s.core) b)
        (shift (k.get i i.op0 s.core) (b.toNat % 32))) :
    shiftNoflags k i left func64 func32 s =
      s.map (k.set i i.op0
        (func64 (k.get i i.op0 s.core) (variableCount k i i.width i.op1 s.core))) := by
  simp only [shiftNoflags, hcl]
  have hcount := toNat_count_cl k i i.width s.core
  refine congrArg s.map (funext fun c ↦ k.set_congr i ?_ c)
  by_cases hq : i.width = .qword
  · rw [if_pos hq, hsrc hq, h64, h64, hcount, hq]
    simp only [countMask, if_true, Nat.mod_mod]
    rfl
  · have hbits : i.op0.size.bits ≤ 32 := hsize ▸ bits_le_of_ne hq
    have hmod : (s.core.gpr rcx).toNat % 32 % 64 = (s.core.gpr rcx).toNat % 32 := by omega
    rw [if_neg hq, h64, hcount, countMask_of_ne hq, hmod]
    exact h32 hbits _

theorem shiftSource_qword {left : Bool} (hsize : i.op0.size.bits = i.width.bits)
    (hq : i.width = .qword) (c : Core ρ) : shiftNoflagsSource k i left c = k.get i i.op0 c := by
  rw [hq] at hsize
  cases hop : i.op0 with
  | reg r size => cases size <;> simp_all [shiftNoflagsSource, Operand.size, Size.bits]
  | mem m size => simp only [shiftNoflagsSource, hop]
  | imm v size => simp only [shiftNoflagsSource, hop]
  | seg seg => simp only [shiftNoflagsSource, hop]

/-- A left shift by `CL` without flags. -/
theorem shiftNoflags_left_eq (hcl : i.op1 = .reg rcx .byte) (hsize : i.op0.size.bits = i.width.bits)
    (s : State ρ) :
    shiftNoflags k i true sll sllw s =
      s.map (k.set i i.op0
        (sll (k.get i i.op0 s.core) (variableCount k i i.width i.op1 s.core))) :=
  shiftNoflags_eq k i (· <<< ·) hcl hsize s (fun _ _ ↦ rfl)
    (fun hq ↦ shiftSource_qword k i hsize hq s.core)
    fun hbits _ ↦ lowEq_slliw _ hbits (lowEq_shiftSource k i s.core)

/-- A right shift by `CL` without flags; the upper half of a register must not come in. -/
theorem shiftNoflags_right_eq (hcl : i.op1 = .reg rcx .byte)
    (hsize : i.op0.size.bits = i.width.bits) (hop : i.op0.isReg || i.op0.isMem) (s : State ρ)
    (hz : ∀ r, i.op0 = .reg r .dword → k.mode32 → Low32 (s.core.gpr r)) :
    shiftNoflags k i false srl srlw s =
      s.map (k.set i i.op0
        (srl (k.get i i.op0 s.core) (variableCount k i i.width i.op1 s.core))) :=
  shiftNoflags_eq k i (· >>> ·) hcl hsize s (fun _ _ ↦ rfl)
    (fun hq ↦ shiftSource_qword k i hsize hq s.core)
    fun hbits _ ↦ lowEq_srliw _ hbits (toNat_shiftSource k i hz hop hbits)

end Shifts

/-! ## Products -/

section Products

variable {ρ : Type*} (k : Config) (i : Insn)

theorem lowEq_sexth (v : U64) : LowEq .word (k.sexth v) v := by
  have hwidth : (k.sexth v).setWidth 16 = v.setWidth 16 := by
    unfold Config.sexth Riscv.sexth
    split
    · exact setWidth_signExtend _ (by decide)
    · apply BitVec.eq_of_getLsbD_eq
      intro j hj
      have h1 : j < 64 := by omega
      have h2 : 48 + j < 64 := by omega
      simp only [BitVec.getLsbD_setWidth, BitVec.getLsbD_sshiftRight, BitVec.getLsbD_shiftLeft]
      have h3 : ¬ 64 ≤ j := by omega
      simp [hj, h1, h2, h3]
  have h := congrArg BitVec.toNat hwidth
  rw [BitVec.toNat_setWidth, BitVec.toNat_setWidth] at h
  exact h

theorem LowEq.mul {size : Size} {a a' b b' : U64} (ha : LowEq size a a') (hb : LowEq size b b') :
    LowEq size (a * b) (a' * b') := by
  rw [LowEq, BitVec.toNat_mul, BitVec.toNat_mul, mod_two_pow_bits, mod_two_pow_bits]
  exact Nat.ModEq.mul ha hb

theorem lowEq_mulw {size : Size} (hsize : size.bits ≤ 32) (a b : U64) :
    LowEq size (mulw a b) (a * b) :=
  LowEq.of_mod hsize (toNat_sextw_mod _)

theorem lowEq_sextw {size : Size} (hsize : size.bits ≤ 32) (a : U64) : LowEq size (sextw a) a :=
  LowEq.of_mod hsize (toNat_sextw_mod a)

/-- The operands of `IMUL` with two or three operands, as the decoder gives them. -/
structure Insn.Imul (i : Insn) (three : Bool) : Prop where
  size : i.op0.size.bits ≠ 8
  src1 : ∀ r size, (imulSources i three).1 = .reg r size → size.bits = i.op0.size.bits
  src2 : ∀ r size, (imulSources i three).2 = .reg r size → size.bits = i.op0.size.bits

theorem lowEq_getWhole {op : Operand} {size : Size} (hsize : size.bits ≠ 8)
    (hop : ∀ r size', op = .reg r size' → size'.bits = size.bits) (c : Core ρ) :
    LowEq size (k.getWhole i op c) (k.get i op c) := by
  have hsrc := lowEq_source k i size c op hop
  have hhigh : op.isHigh = false := by
    cases op with
    | reg r size' =>
      have hbits := hop r size' rfl
      cases size' with
      | byteHigh => exact absurd hbits.symm hsize
      | _ => rfl
    | _ => rfl
  rwa [hhigh] at hsrc

theorem imulNoflags_eq {three : Bool} (hi : i.Imul three) (s : State ρ) :
    imulNoflags k i three s = s.map (k.set i i.op0 (imulProduct k i.op0.size
      (k.get i (imulSources i three).1 s.core) (k.get i (imulSources i three).2 s.core)).1) := by
  have h1 := lowEq_getWhole k i hi.size hi.src1 s.core
  have h2 : LowEq i.op0.size (if three then k.get i i.op2 s.core else k.getWhole i i.op1 s.core)
      (k.get i (imulSources i three).2 s.core) := by
    cases three with
    | true => rfl
    | false => exact lowEq_getWhole k i hi.size hi.src2 s.core
  have hsize := hi.size
  refine congrArg s.map (funext fun c ↦ k.set_congr i ?_ c)
  generalize k.getWhole i (imulSources i three).1 s.core = a at h1 ⊢
  generalize k.get i (imulSources i three).1 s.core = a' at h1 ⊢
  generalize (if three then k.get i i.op2 s.core else k.getWhole i i.op1 s.core) = b at h2 ⊢
  generalize k.get i (imulSources i three).2 s.core = b' at h2 ⊢
  generalize i.op0.size = size at *
  cases size with
  | byte => exact absurd rfl hsize
  | byteHigh => exact absurd rfl hsize
  | word =>
    have hb : LowEq .word (if three then b else k.sexth b) b' := by
      split
      · exact h2
      · exact (lowEq_sexth k b).trans h2
    have hle : Size.word.bits ≤ 32 := by decide
    calc (mulw (k.sexth a) (if three then b else k.sexth b)).toNat % 2 ^ 16
        = (k.sexth a * (if three then b else k.sexth b)).toNat % 2 ^ 16 :=
          lowEq_mulw hle _ _
      _ = (a' * b').toNat % 2 ^ 16 := LowEq.mul ((lowEq_sexth k a).trans h1) hb
      _ = (k.sexth b' * k.sexth a').toNat % 2 ^ 16 := by
          rw [BitVec.mul_comm]
          exact ((lowEq_sexth k b').mul (lowEq_sexth k a')).symm
      _ = (mulw (k.sexth b') (k.sexth a')).toNat % 2 ^ 16 :=
          (lowEq_mulw hle _ _).symm
  | dword =>
    have hle : Size.dword.bits ≤ 32 := by decide
    calc (mulw a b).toNat % 2 ^ 32
        = (a * b).toNat % 2 ^ 32 := lowEq_mulw hle a b
      _ = (b' * a').toNat % 2 ^ 32 := by
          rw [BitVec.mul_comm]
          exact h2.mul h1
      _ = (sextw b' * sextw a').toNat % 2 ^ 32 :=
          ((lowEq_sextw hle b').mul (lowEq_sextw hle a')).symm
  | qword => exact h1.mul h2

end Products

/-! ## `ROL` by an immediate

The one path that differs. With a count of zero the general path leaves a register as it is, and the
short one writes it. -/

section Rol

variable {ρ : Type*} (k : Config) (i : Insn)

theorem toNat_rolValue {size : Size} (hsize : size = .dword ∨ size = .qword) {dst count : U64}
    (hcount : count.toNat < size.bits) (hne : count ≠ 0) :
    (rolValue size dst count).toNat =
      (dst.toNat * 2 ^ count.toNat % 2 ^ 64) ||| (dst.toNat / 2 ^ (size.bits - count.toNat)) := by
  have hpos := toNat_pos hne
  have hneg : (-count &&& BitVec.ofNat 64 (size.bits - 1)).toNat = size.bits - count.toNat := by
    obtain rfl | rfl := hsize
    · rw [show BitVec.ofNat 64 (Size.dword.bits - 1) = BitVec.ofNat 64 (2 ^ 5 - 1) from rfl,
        toNat_and_mask _ (by decide), BitVec.toNat_neg]
      simp only [Size.bits] at *
      omega
    · rw [show BitVec.ofNat 64 (Size.qword.bits - 1) = BitVec.ofNat 64 (2 ^ 6 - 1) from rfl,
        toNat_and_mask _ (by decide), BitVec.toNat_neg]
      simp only [Size.bits] at *
      omega
  have hle := size.bits_le
  have hleft : count.toNat % 64 = count.toNat := Nat.mod_eq_of_lt (by omega)
  have hright : (size.bits - count.toNat) % 64 = size.bits - count.toNat :=
    Nat.mod_eq_of_lt (by omega)
  rw [rolValue, BitVec.toNat_or, sll, srl, toNat_shl, toNat_shr, hneg, hleft, hright]

/-- The rotation of a 32-bit operand without flags, as far as it counts. -/
theorem lowEq_rol_dword (b : Bool) {dst d count : U64} (hd : dst.toNat % 2 ^ 32 = d.toNat)
    (hcount : count.toNat < 32) (hne : count ≠ 0) :
    LowEq .dword (if b then roriw dst (32 - count.toNat)
      else slliw dst count.toNat ||| srliw dst (32 - count.toNat)) (rolValue .dword d count) := by
  have hpos := toNat_pos hne
  have hlt : d.toNat < 2 ^ 32 := by omega
  have hdiv : d.toNat / 2 ^ (32 - count.toNat) < 2 ^ 32 :=
    lt_of_le_of_lt (Nat.div_le_self _ _) hlt
  have hgeneral : (rolValue .dword d count).toNat % 2 ^ 32 =
      (d.toNat * 2 ^ count.toNat % 2 ^ 32) ||| (d.toNat / 2 ^ (32 - count.toNat)) := by
    rw [toNat_rolValue (.inl rfl) hcount hne, Nat.or_mod_two_pow, Nat.mod_mod_of_dvd _ (by decide)]
    simp only [Size.bits]
    rw [Nat.mod_eq_of_lt hdiv]
  rw [LowEq, Size.bits, hgeneral]
  cases b with
  | true =>
    have hback : 32 - (32 - count.toNat) = count.toNat := by omega
    rw [if_pos rfl, toNat_roriw_mod dst (by omega), hd, hback, Nat.or_comm]
  | false =>
    rw [if_neg (by decide), BitVec.toNat_or, Nat.or_mod_two_pow, toNat_slliw_mod, toNat_srliw_mod,
      hd, ← Nat.mod_mul_mod, hd]

theorem rol_qword (b : Bool) {dst count : U64} (hcount : count.toNat < 64) (hne : count ≠ 0) :
    (if b then rori dst (64 - count.toNat)
      else dst <<< count.toNat ||| dst >>> (64 - count.toNat)) =
      rolValue .qword dst count := by
  have hpos := toNat_pos hne
  apply BitVec.eq_of_toNat_eq
  rw [toNat_rolValue (.inr rfl) hcount hne]
  cases b with
  | true =>
    have hback : 64 - (64 - count.toNat) = count.toNat := by omega
    rw [if_pos rfl, rori, BitVec.toNat_rotateRight, Nat.mod_eq_of_lt (by omega),
      Nat.shiftRight_eq_div_pow, Nat.shiftLeft_eq, hback, Nat.or_comm]
    rfl
  | false =>
    rw [if_neg (by decide), BitVec.toNat_or, toNat_shl, toNat_shr]
    rfl

theorem lowEq_rol_dword_zero (b : Bool) {dst d : U64} (hd : dst.toNat % 2 ^ 32 = d.toNat) :
    LowEq .dword (if b then roriw dst 0 else slliw dst 0 ||| srliw dst 0) d := by
  have hlt : d.toNat < 2 ^ 32 := by omega
  rw [LowEq, Size.bits, Nat.mod_eq_of_lt hlt]
  cases b with
  | true =>
    rw [if_pos rfl, toNat_roriw_mod dst (by decide), hd, Nat.sub_zero, Nat.mul_mod_left,
      Nat.pow_zero, Nat.div_one, Nat.or_zero]
  | false =>
    rw [if_neg (by decide), BitVec.toNat_or, Nat.or_mod_two_pow, toNat_slliw_mod, toNat_srliw_mod,
      Nat.pow_zero, Nat.mul_one, Nat.div_one, Nat.or_self, hd]

theorem rol_qword_zero (b : Bool) (dst : U64) :
    (if b then rori dst 0 else dst <<< 0 ||| dst >>> 0) = dst := by
  cases b with
  | true =>
    apply BitVec.eq_of_toNat_eq
    rw [if_pos rfl, toNat_rori dst (by decide), Nat.pow_zero, Nat.mod_one,
      Nat.zero_mul, Nat.zero_add, Nat.div_one]
  | false => simp

/-- The result of `ROL` without flags, as far as it counts. -/
theorem lowEq_rolNoflags {size : Size} (hsize : size = .dword ∨ size = .qword) (b : Bool)
    {dst d count : U64} (hd : dst.toNat % 2 ^ size.bits = d.toNat)
    (hcount : count.toNat < size.bits) :
    let rotate := (size.bits - count.toNat) % size.bits
    LowEq size
      (if size = .dword then
        if b then roriw dst rotate else slliw dst count.toNat ||| srliw dst rotate
      else if b then rori dst rotate else (dst <<< count.toNat) ||| (dst >>> rotate))
      (if count = 0 then d else rolValue size d count) := by
  intro rotate
  by_cases h0 : count = 0
  · have hrotate : rotate = 0 := by simp [rotate, h0]
    rw [hrotate, if_pos h0, h0]
    obtain rfl | rfl := hsize
    · exact lowEq_rol_dword_zero b hd
    · have hq : dst = d := by
        apply BitVec.eq_of_toNat_eq
        rwa [Size.bits, Nat.mod_eq_of_lt dst.isLt] at hd
      have hzero := rol_qword_zero b dst
      rw [if_neg (by decide), ← hq]
      exact congrArg (fun v : U64 ↦ v.toNat % 2 ^ 64) hzero
  · have hpos := toNat_pos h0
    have hrotate : rotate = size.bits - count.toNat := Nat.mod_eq_of_lt (by omega)
    rw [hrotate, if_neg h0]
    obtain rfl | rfl := hsize
    · exact lowEq_rol_dword b hd hcount h0
    · have hq : dst = d := by
        apply BitVec.eq_of_toNat_eq
        rwa [Size.bits, Nat.mod_eq_of_lt dst.isLt] at hd
      rw [if_neg (by decide), ← hq]
      exact congrArg (fun v : U64 ↦ v.toNat % 2 ^ 64) (rol_qword b hcount h0)

/-- `ROL` by an immediate without flags. In 32-bit mode the general path rotates the whole register,
and for a count of zero it leaves the upper half alone. -/
theorem rolNoflags_eq {v : U64} {size : Size} (himm : i.op1 = .imm v size)
    (hsize : i.op0.size = .dword ∨ i.op0.size = .qword) (hop : i.op0.isReg || i.op0.isMem)
    (s : State ρ) (hlow : ∀ r, i.op0 = .reg r .dword →
      k.mode32 ∨ variableCount k i .dword i.op1 s.core = 0 → Low32 (s.core.gpr r)) :
    rolNoflags k i i.op0.size s =
      if variableCount k i i.op0.size i.op1 s.core = 0 then s
      else s.map (k.set i i.op0
        (rolValue i.op0.size (k.get i i.op0 s.core)
            (variableCount k i i.op0.size i.op1 s.core))) := by
  set count := variableCount k i i.op0.size i.op1 s.core with hcount
  have himmediate : v.toNat % 256 % i.op0.size.bits = count.toNat := by
    rw [hcount, toNat_variableCount, himm]
    obtain h | h := hsize <;> simp [h, countMask, Size.bits, Config.get]
  have hlt : count.toNat < i.op0.size.bits := by
    rw [← himmediate]
    exact Nat.mod_lt _ (by obtain h | h := hsize <;> simp [h, Size.bits])
  have hget := k.get_lt i (fun r hr hm ↦ hlow r hr (.inl hm)) hop
  have hne : i.op0.size.bits ≠ 8 := by obtain h | h := hsize <;> simp [h, Size.bits]
  have hwhole : (k.getWhole i i.op0 s.core).toNat % 2 ^ i.op0.size.bits =
      (k.get i i.op0 s.core).toNat :=
    (lowEq_getWhole k i hne (fun r size hr ↦ by rw [hr]; rfl) s.core).trans (Nat.mod_eq_of_lt hget)
  have hvalue := lowEq_rolNoflags hsize k.b hwhole hlt
  have hshort : rolNoflags k i i.op0.size s =
      s.map (k.set i i.op0 (if count = 0 then k.get i i.op0 s.core
        else rolValue i.op0.size (k.get i i.op0 s.core) count)) := by
    rw [← funext (k.set_congr i hvalue)]
    obtain h | h := hsize
    · rw [h] at himmediate
      simp only [rolNoflags, himm, himmediate, h, if_true]
    · have hq : k.getWhole i i.op0 s.core = k.get i i.op0 s.core := by
        apply BitVec.eq_of_toNat_eq
        rwa [h, Size.bits, Nat.mod_eq_of_lt (BitVec.isLt _)] at hwhole
      have hd : Size.qword ≠ .dword := by decide
      rw [h] at himmediate
      simp only [rolNoflags, himm, himmediate, h, if_neg hd, hq]
  rw [hshort]
  split
  · next h0 =>
    have hbits : i.op0.size.bits ≥ 32 := by obtain h | h := hsize <;> simp [h, Size.bits]
    have hself : k.set i i.op0 (k.get i i.op0 s.core) s.core = s.core := by
      refine k.set_get_self i hbits fun r hr ↦ hlow r hr (.inr ?_)
      rw [hcount, hr] at h0
      exact h0
    simp only [State.map, hself]
  · rfl

end Rol

/-! ## All of them -/

/-- The handlers that have such a path. -/
inductive FastOp
  | add
  | sub
  | or
  | xor
  | shl
  | shr
  | sar
  | imul (opcount : ℕ)
  | rol
deriving DecidableEq, Repr

namespace FastOp

section Exec

variable {ρ : Type*} (k : Config) (i : Insn)

/-- The handler. Running out of scratch registers is left out. -/
def exec (e : Flag → Bool) : FastOp → State ρ → Option (State ρ)
  | add, s => fastAdd k i e s
  | sub, s => some (fastSub k i e s)
  | or, s => some (fastOr k i e s)
  | xor, s => some (fastXor k i e s)
  | shl, s => some (fastShl k i e s)
  | shr, s => some (fastShr k i e s)
  | sar, s => some (fastSar k i e s)
  | imul opcount, s => some (fastImul k i e opcount s)
  | rol, s => some (fastRol k i e s)

/-- The code that computes all flags. A register `xor`ed with itself never gets there. -/
def general : FastOp → State ρ → Option (State ρ)
  | xor, s => some (logic k i (fun _ ↦ true) (· ^^^ ·) s)
  | op, s => op.exec k i (fun _ ↦ true) s

/-- The operands as the decoder gives them. -/
def Decoded : FastOp → Prop
  | shl | shr | sar => (i.op1.isImm ∨ i.op1 = .reg rcx .byte) ∧ i.op0.size.bits = i.width.bits ∧
      (i.op0.isReg || i.op0.isMem)
  | imul opcount => opcount = 1 ∨ i.Imul (opcount = 3)
  | rol => i.op0.isReg || i.op0.isMem
  | _ => i.Sized

/-- `ROL` of a 32-bit register by a multiple of 32, on the short path. The general path leaves such
a register alone, the short one clears its upper half. -/
def ClearsUpper (e : Flag → Bool) : FastOp → State ρ → Prop
  | rol, s => k.noflagOpts ∧ i.op1.isImm ∧ e .cf = false ∧ e .of = false ∧
      variableCount k i .dword i.op1 s.core = 0 ∧ ∃ r, i.op0 = .reg r .dword ∧ ¬Low32 (s.core.gpr r)
  | _, _ => False

end Exec

section Equal

variable {ρ : Type*} {k : Config} {i : Insn} {e : Flag → Bool} {s : State ρ}

theorem atomicOperand_of_isReg (hreg : i.op0.isReg) : atomicOperand i = none := by
  unfold atomicOperand
  cases hop : i.op0 <;> simp_all [Operand.isReg]

theorem core_fastAdd (hi : i.Sized) :
    (fastAdd k i e s).map State.core = (fastAdd k i (fun _ ↦ true) s).map State.core := by
  have hgeneral : ∀ e : Flag → Bool, ¬(k.b && k.noflagOpts && !needsAny e && i.op0.isReg) = true →
      (fastAdd k i e s).map State.core = if i.op0.isMem && i.lock then
        (lockedAdd k i (k.get i i.op1 s.core) s.core).map Prod.snd
        else some (k.set i i.op0 (k.get i i.op0 s.core + k.get i i.op1 s.core) s.core) := by
    intro e he
    rw [fastAdd, if_neg he]
    dsimp only
    split
    · rw [Option.map_map]
      refine Option.map_congr fun p _ ↦ ?_
      simp
    · simp
  have hall : ¬(k.b && k.noflagOpts && !needsAny (fun _ ↦ true) && i.op0.isReg) = true := by
    simp [needsAny]
  by_cases he : (k.b && k.noflagOpts && !needsAny e && i.op0.isReg) = true
  · have hreg : i.op0.isReg = true := (Bool.and_eq_true_iff.mp he).2
    have hmem : i.op0.isMem = false := by
      cases hop : i.op0 <;> simp_all [Operand.isReg, Operand.isMem]
    have h32 : ∀ a b, LowEq .dword (addw a b) (a + b) := fun a b ↦ lowEq_sextw (by decide) _
    rw [hgeneral _ hall, hmem, fastAdd, if_pos he, opNoflagsDestreg_eq k i laneOp_add h32 hi hreg]
    rfl
  · rw [hgeneral _ he, hgeneral _ hall]

theorem core_fastSub (hi : i.Sized) :
    (fastSub k i e s).core = (fastSub k i (fun _ ↦ true) s).core := by
  have hgeneral : ∀ e : Flag → Bool, ¬(k.b && k.noflagOpts && !needsAny e && i.op0.isReg) = true →
      (fastSub k i e s).core = (atomicOperand i).elim
        (k.set i i.op0 (k.get i i.op0 s.core - k.get i i.op1 s.core) s.core) fun p ↦
          (amo (· + ·) p.2 (k.lea i p.1 true s.core) (-(k.get i i.op1 s.core)) s.core).2 := by
    intro e he
    rw [fastSub, if_neg he]
    dsimp only
    cases hop : atomicOperand i with
    | some p => simp
    | none => simp
  have hall : ¬(k.b && k.noflagOpts && !needsAny (fun _ ↦ true) && i.op0.isReg) = true := by
    simp [needsAny]
  by_cases he : (k.b && k.noflagOpts && !needsAny e && i.op0.isReg) = true
  · have hreg : i.op0.isReg = true := (Bool.and_eq_true_iff.mp he).2
    have h32 : ∀ a b, LowEq .dword (subw a b) (a - b) := fun a b ↦ lowEq_sextw (by decide) _
    rw [hgeneral _ hall, atomicOperand_of_isReg hreg, fastSub, if_pos he,
      opNoflagsDestreg_eq k i laneOp_sub h32 hi hreg]
    rfl
  · rw [hgeneral _ he, hgeneral _ hall]

/-- The general path of the logical operations, without its flags. -/
theorem core_logic (e : Flag → Bool) (f : U64 → U64 → U64) :
    (logic k i e f s).core = (logic k i (fun _ ↦ true) f s).core := by
  unfold logic
  dsimp only
  split <;> simp

theorem core_logic_of_isReg (f : U64 → U64 → U64) (hreg : i.op0.isReg) :
    (logic k i e f s).core =
      k.set i i.op0 (f (k.get i i.op0 s.core) (k.get i i.op1 s.core)) s.core := by
  simp [logic, atomicOperand_of_isReg hreg]

/-- The paths of the logical operations. -/
theorem core_opNoflags_logic {f : U64 → U64 → U64} (hf : LaneOp f) (hi : i.Sized)
    (hreg : i.op0.isReg) :
    (opNoflagsDestreg k i f f s).core = (logic k i (fun _ ↦ true) f s).core := by
  rw [opNoflagsDestreg_eq k i hf (fun _ _ ↦ rfl) hi hreg, core_logic_of_isReg f hreg]
  rfl

theorem core_fastOr (hi : i.Sized) :
    (fastOr k i e s).core = (fastOr k i (fun _ ↦ true) s).core := by
  have hall : fastOr k i (fun _ ↦ true) s = logic k i (fun _ ↦ true) (· ||| ·) s := by
    simp [fastOr, needsAnyButAf]
  rw [hall, fastOr]
  split
  · next he => exact core_opNoflags_logic laneOp_or hi (Bool.and_eq_true_iff.mp he).2
  · exact core_logic e _

/-- Zeroing a register by `xor`. -/
theorem core_zeroIdiom {r : Ref} (hzero : zeroIdiom i = some r) :
    k.setRef r .qword 0 s.core = (logic k i (fun _ ↦ true) (· ^^^ ·) s).core := by
  unfold zeroIdiom at hzero
  split at hzero
  · next r' size r'' size' hop hop' =>
    simp only [Option.ite_none_right_eq_some, Option.some.injEq] at hzero
    obtain ⟨⟨rfl, rfl, hsize⟩, rfl⟩ := hzero
    have hreg : i.op0.isReg := by rw [hop]; rfl
    rw [core_logic_of_isReg _ hreg, hop, hop', BitVec.xor_self, Config.set, Config.setRef,
      Config.setRef]
    obtain rfl | rfl := hsize
    · congr 1
      apply BitVec.eq_of_toNat_eq
      rw [Config.toNat_merge_dword]
      rfl
    · rfl
  · cases hzero

theorem core_fastXor (hi : i.Sized) :
    (fastXor k i e s).core = (logic k i (fun _ ↦ true) (· ^^^ ·) s).core := by
  rw [fastXor]
  split
  · next r hzero =>
    rw [← core_zeroIdiom hzero]
    simp
  · split
    · next he => exact core_opNoflags_logic laneOp_xor hi (Bool.and_eq_true_iff.mp he).2
    · exact core_logic e _

theorem core_fastShl (hcl : i.op1.isImm ∨ i.op1 = .reg rcx .byte)
    (hsize : i.op0.size.bits = i.width.bits) :
    (fastShl k i e s).core = (fastShl k i (fun _ ↦ true) s).core := by
  by_cases himm : i.op1.isImm = true
  · simp only [fastShl, if_pos himm, fastShlImm]
    split <;> simp
  · have hgeneral : ∀ e : Flag → Bool,
        ¬(k.noflagOpts && !(e .cf || e .of || e .pf || e .sf || e .zf)) = true →
        (fastShl k i e s).core = k.set i i.op0
          (sll (k.get i i.op0 s.core) (variableCount k i i.width i.op1 s.core)) s.core := by
      intro e he
      rw [fastShl, if_neg himm, if_neg he]
      dsimp only
      split <;> simp
    by_cases he : (k.noflagOpts && !(e .cf || e .of || e .pf || e .sf || e .zf)) = true
    · rw [hgeneral (fun _ ↦ true) (by simp), fastShl, if_neg himm, if_pos he,
        shiftNoflags_left_eq k i (hcl.resolve_left himm) hsize]
      rfl
    · rw [hgeneral _ he, hgeneral (fun _ ↦ true) (by simp)]

theorem core_fastShr (hcl : i.op1.isImm ∨ i.op1 = .reg rcx .byte)
    (hsize : i.op0.size.bits = i.width.bits) (hop : i.op0.isReg || i.op0.isMem)
    (hlow : k.mode32 → ∀ r, Low32 (s.core.gpr r)) :
    (fastShr k i e s).core = (fastShr k i (fun _ ↦ true) s).core := by
  by_cases himm : i.op1.isImm = true
  · simp only [fastShr, if_pos himm, fastShrImm]
    split <;> simp
  · have hgeneral : ∀ e : Flag → Bool,
        ¬(k.noflagOpts && !(e .cf || e .of || e .pf || e .sf || e .zf)) = true →
        (fastShr k i e s).core = k.set i i.op0
          (srl (k.get i i.op0 s.core) (variableCount k i i.width i.op1 s.core)) s.core := by
      intro e he
      rw [fastShr, if_neg himm, if_neg he]
      dsimp only
      split <;> simp
    by_cases he : (k.noflagOpts && !(e .cf || e .of || e .pf || e .sf || e .zf)) = true
    · rw [hgeneral (fun _ ↦ true) (by simp), fastShr, if_neg himm, if_pos he,
        shiftNoflags_right_eq k i (hcl.resolve_left himm) hsize hop s fun r _ hm ↦ hlow hm r]
      rfl
    · rw [hgeneral _ he, hgeneral (fun _ ↦ true) (by simp)]

theorem core_fastSar : (fastSar k i e s).core = (fastSar k i (fun _ ↦ true) s).core := by
  by_cases himm : i.op1.isImm = true
  · simp only [fastSar, if_pos himm, fastSarImm]
    split <;> simp
  · simp only [fastSar, if_neg himm]
    split <;> simp

theorem core_fastImul {opcount : ℕ} (hi : opcount = 1 ∨ i.Imul (opcount = 3)) :
    (fastImul k i e opcount s).core = (fastImul k i (fun _ ↦ true) opcount s).core := by
  by_cases hone : opcount = 1
  · simp only [fastImul, if_pos hone, imul1]
    split <;> simp
  · simp only [fastImul, if_neg hone, imul23]
    split
    · rw [imulNoflags_eq k i (hi.resolve_left hone)]
      simp
    · simp

/-- The general path of `ROL`, without its flags. -/
theorem core_fastRol_general (he : ¬(k.noflagOpts && (i.op0.size = .qword || i.op0.size = .dword) &&
      i.op1.isImm && !(e .cf || e .of)) = true) :
    (fastRol k i e s).core = if variableCount k i i.op0.size i.op1 s.core = 0 then s.core
      else k.set i i.op0 (rolValue i.op0.size (k.get i i.op0 s.core)
        (variableCount k i i.op0.size i.op1 s.core)) s.core := by
  rw [fastRol]
  dsimp only
  rw [if_neg he]
  split
  · rfl
  · simp

/-- The short path writes a 32-bit register, and so clears its upper half. -/
theorem low32_rolNoflags {r : Ref} (hr : i.op0 = .reg r .dword) :
    Low32 ((rolNoflags k i .dword s).core.gpr r) := by
  simp only [rolNoflags, if_true, hr, State.core_map, Config.set, Config.setRef, Core.write,
    Function.update_self]
  rw [low32_iff, Config.toNat_merge_dword]
  exact Nat.mod_lt _ (by decide)

theorem core_fastRol_iff (hop : i.op0.isReg || i.op0.isMem)
    (hlow : k.mode32 → ∀ r, Low32 (s.core.gpr r)) :
    (fastRol k i e s).core = (fastRol k i (fun _ ↦ true) s).core ↔ ¬ClearsUpper k i e rol s := by
  by_cases he : (k.noflagOpts && (i.op0.size = .qword || i.op0.size = .dword) &&
      i.op1.isImm && !(e .cf || e .of)) = true
  swap
  · rw [core_fastRol_general he, core_fastRol_general (by simp)]
    refine iff_of_true rfl ?_
    rintro ⟨hopts, himm, hcf, hof, -, r, hr, -⟩
    exact he (by simp [hopts, himm, hcf, hof, hr, Operand.size])
  obtain ⟨⟨⟨hopts, hsize⟩, himm⟩, hcf, hof⟩ : ((k.noflagOpts = true ∧
      (i.op0.size = .qword ∨ i.op0.size = .dword)) ∧ i.op1.isImm = true) ∧
      e .cf = false ∧ e .of = false := by
    simpa using he
  have hfast : fastRol k i e s = rolNoflags k i i.op0.size s := if_pos he
  constructor
  · -- the general path leaves the register alone, the short one writes it
    rintro heq ⟨-, -, -, -, hcount, r, hr, hnot⟩
    have hdword : i.op0.size = .dword := by rw [hr]; rfl
    rw [hfast, core_fastRol_general (by simp), hdword, if_pos hcount] at heq
    refine hnot ?_
    rw [← heq]
    exact low32_rolNoflags hr
  · intro hclear
    obtain ⟨v, size, himm'⟩ : ∃ v size, i.op1 = .imm v size := by
      cases hop1 : i.op1 <;> simp_all [Operand.isImm]
    have hupper : ∀ r, i.op0 = .reg r .dword →
        k.mode32 ∨ variableCount k i .dword i.op1 s.core = 0 → Low32 (s.core.gpr r) := by
      rintro r hr (hmode | hcount)
      · exact hlow hmode r
      · by_contra hnot
        exact hclear ⟨hopts, himm, hcf, hof, hcount, r, hr, hnot⟩
    rw [hfast, core_fastRol_general (by simp), rolNoflags_eq k i himm' hsize.symm hop s hupper]
    split <;> rfl

end Equal

/-- **The paths without flags leave what the general paths leave**, registers and memory, unless a
32-bit register is rotated by a multiple of 32. -/
theorem exec_eq_general_iff {ρ : Type*} {k : Config} {i : Insn} {e : Flag → Bool} {s : State ρ}
    {op : FastOp} (hi : op.Decoded i) (hlow : k.mode32 → ∀ r, Low32 (s.core.gpr r)) :
    (op.exec k i e s).map State.core = (op.general k i s).map State.core ↔
      ¬op.ClearsUpper k i e s := by
  cases op with
  | add => exact iff_of_true (core_fastAdd hi) id
  | sub => exact iff_of_true (congrArg some (core_fastSub hi)) id
  | or => exact iff_of_true (congrArg some (core_fastOr hi)) id
  | xor => exact iff_of_true (congrArg some (core_fastXor hi)) id
  | shl => exact iff_of_true (congrArg some (core_fastShl hi.1 hi.2.1)) id
  | shr => exact iff_of_true (congrArg some (core_fastShr hi.1 hi.2.1 hi.2.2 hlow)) id
  | sar => exact iff_of_true (congrArg some core_fastSar) id
  | imul opcount => exact iff_of_true (congrArg some (core_fastImul hi)) id
  | rol =>
    rw [← core_fastRol_iff hi hlow]
    exact Option.some_inj

/-- `rol eax, 32`, and `rol eax, 1`. -/
def rolEax (count : U64) : Insn where
  guestAddress := 0x1000
  rip := 0x1000
  length := 3
  width := .dword
  addressWidth := .qword
  lock := false
  hasSegment := false
  rep := .none
  op0 := .reg rax .dword
  op1 := .imm count .byte
  op2 := .imm 0 .byte

/-- A state with something in the upper half of `RAX`. -/
def upperRax : State Unit :=
  { State.zero with core :=
    { State.zero.core with gpr := Function.update (fun _ ↦ 0) rax (1 <<< 32) } }

/-- The law is not empty: `rol eax, 1` does the same on both paths. -/
theorem rol_one_eq_general :
    ((rol.exec (Config.default false) (rolEax 1) (fun _ ↦ false) upperRax).map
    State.core) = (rol.general (Config.default false) (rolEax 1) upperRax).map State.core := by
  have hcount : variableCount (Config.default false) (rolEax 1) .dword (rolEax 1).op1
      upperRax.core ≠ 0 := by decide
  have hdecoded : rol.Decoded (rolEax 1) := rfl
  exact (exec_eq_general_iff hdecoded fun hmode ↦ absurd hmode (by decide)).mpr
    fun hclear ↦ hcount hclear.2.2.2.2.1

/-- With a count of 32 it does not. -/
theorem rol_32_ne_general :
    ¬∀ (k : Config) (i : Insn) (e : Flag → Bool) (s : State Unit) (op : FastOp),
    op.Decoded i → (k.mode32 → ∀ r, Low32 (s.core.gpr r)) →
      (op.exec k i e s).map State.core = (op.general k i s).map State.core := by
  intro hall
  have heq := hall (Config.default false) (rolEax 32) (fun _ ↦ false) upperRax rol rfl
    fun hmode ↦ absurd hmode (by decide)
  have hrax := congrArg (Option.map fun c ↦ c.gpr rax) heq
  exact absurd hrax (by decide)

end FastOp

end Jit

end Felix86
