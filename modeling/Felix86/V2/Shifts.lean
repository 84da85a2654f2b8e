import Felix86.V2.AddSubLogic

/-!
# Shifts

A shift by an immediate and a shift by `CL` are separate code, for the same outcome. Host shifts
take more bits of the count than the guest's, so bytes and words can be shifted by more than their
width; the zeros or signs above them are then what is shifted in and out. Two flags are wrong: `OF`
after a left shift by an immediate one, which is computed from the operand instead of the result,
and `CF` after an arithmetic shift of a byte or word by more than its width, which is taken from the
zeros above the operand instead of its sign.
-/

namespace Felix86

namespace Jit

open Riscv X86

variable {ρ : Type*} (k : Config) (i : Insn)

/-! ## Lower bits -/

section

variable {size : Size} {dst : U64}

theorem low_shl (size : Size) (v : U64) (c : ℕ) : low size (v <<< c) = low size v <<< c := by
  apply BitVec.eq_of_getLsbD_eq
  intro j hj
  have hj64 : j < 64 := hj.trans_le size.bits_le
  rw [getLsbD_low _ hj, BitVec.getLsbD_shiftLeft, BitVec.getLsbD_shiftLeft]
  by_cases hc : j < c
  · simp [hc]
  · rw [getLsbD_low v (by omega)]
    simp [hj, hj64]

/-- Above a zero extended operand there are zeros to shift in. -/
theorem getLsbD_of_lt (h : dst.toNat < 2 ^ size.bits) (j : ℕ) :
    dst.getLsbD j = (low size dst).getLsbD j := by
  by_cases hj : j < size.bits
  · rw [getLsbD_low dst hj]
  · rw [BitVec.getLsbD_of_ge _ j (Nat.not_lt.mp hj), BitVec.getLsbD,
      Nat.testBit_lt_two_pow (h.trans_le (Nat.pow_le_pow_right (by decide) (Nat.not_lt.mp hj)))]

theorem low_shr (h : dst.toNat < 2 ^ size.bits) (c : ℕ) :
    low size (dst >>> c) = low size dst >>> c := by
  apply BitVec.eq_of_getLsbD_eq
  intro j hj
  rw [getLsbD_low _ hj, BitVec.getLsbD_ushiftRight, BitVec.getLsbD_ushiftRight, getLsbD_of_lt h]

/-- A sign extended operand has its sign to shift in. -/
theorem setWidth_signExtend_sshiftRight {n : ℕ} (a : BitVec n) (hn : n ≤ 64) (c : ℕ) :
    ((a.signExtend 64).sshiftRight c).setWidth n = a.sshiftRight c := by
  apply BitVec.eq_of_getLsbD_eq
  intro j hj
  have hj64 : j < 64 := by omega
  have hmsb : (a.signExtend 64).msb = a.msb := by
    rw [BitVec.msb_eq_getLsbD_last, BitVec.getLsbD_signExtend]
    by_cases hlt : 64 - 1 < n
    · have h64 : n = 64 := by omega
      subst h64
      simp [BitVec.msb_eq_getLsbD_last]
    · simp [hlt]
  rw [BitVec.getLsbD_setWidth, BitVec.getLsbD_sshiftRight, BitVec.getLsbD_sshiftRight,
    BitVec.getLsbD_signExtend, hmsb]
  have hin : ¬ 64 ≤ j ∧ ¬ n ≤ j := by omega
  by_cases hcn : c + j < n
  · have hc64 : c + j < 64 := by omega
    simp [hin, hcn, hc64, hj]
  · by_cases hc64 : c + j < 64 <;> simp [hin, hcn, hc64, hj]

end

/-! ## Flags and destination -/

/-- The flags of a shift. -/
def shiftValues (result cf of : U64) (size : Size) : Flag → U64
  | .cf => cf
  | .pf => k.updateParity result
  | .af => 0
  | .zf => k.updateZero result size
  | .sf => Config.updateSign result size
  | .of => of

/-- All flags but `AF`, and `OF` only if it is computed. -/
def shiftFlags (overflow : Bool) (f : Flag) : Bool := f ≠ .af && (f ≠ .of || overflow)

section

variable {k i} {s : State ρ}

/-- The result of a shift describes itself; what is left are the two flags that say how it came
about. -/
theorem does_shifted_iff {c : ℕ} {r : BitVec i.op0.size.bits} {carry : Effect}
    {overflow overflow' : Bool}
    {result cf of : U64} (hop : i.op0.Place) (hresult : low i.op0.size result = r)
    (hover : c = 1 → overflow' = true) :
    Does k i (X86.shifted c r carry overflow) s
        ((s.assign (shiftFlags overflow') (shiftValues k result cf of i.op0.size)).map
          (k.set i i.op0 result)) ↔
      Effect.Holds carry (s.flag .cf) cf ∧ (c = 1 → of = asFlag overflow) := by
  subst hresult
  constructor
  · intro h
    refine ⟨h.flag .cf, fun hone ↦ ?_⟩
    have hof : Effect.Holds _ (s.flag .of) (if shiftFlags overflow' .of then of else s.flag .of) :=
      h.flag .of
    rw [if_pos (by simp [shiftFlags, hover hone])] at hof
    simpa only [X86.shifted, Flags.get, resultFlags, hone, if_true, Effect.Holds] using hof
  · rintro ⟨hcf, hof⟩
    refine does_assign hop rfl fun f ↦ ?_
    cases f
    case cf => exact hcf
    case af => trivial
    case pf => rw [if_pos (by simp [shiftFlags])]; exact holds_set (k.updateParity_eq _ _)
    case zf => rw [if_pos (by simp [shiftFlags])]; exact holds_set (k.updateZero_eq _ _)
    case sf => rw [if_pos (by simp [shiftFlags])]; exact holds_set (Config.updateSign_eq _ _)
    case of =>
      by_cases hone : c = 1
      · rw [if_pos (by simp [shiftFlags, hover hone])]
        simp only [X86.shifted, Flags.get, resultFlags, hone, if_true]
        exact holds_set (hof hone)
      · simp only [X86.shifted, Flags.get, resultFlags, hone, if_false]
        trivial

/-- Writing an operand's value back changes nothing but the upper half of a 32-bit register. -/
theorem assign_value {op : Operand} {c : Core ρ} (hop : op.Place)
    (hsize : ∀ r, op ≠ .reg r .dword) :
    op.assign k i (op.value k i op.size.bits c) c = c := by
  rw [← k.low_get_place i hop, ← k.set_eq i hop]
  cases op with
  | reg r size =>
    have hmerge : k.merge size (c.gpr r) (k.getRef r size c) = c.gpr r := by
      apply BitVec.eq_of_toNat_eq
      cases size with
      | byte =>
        rw [k.toNat_merge_byte, Config.getRef, k.toNat_zext, Size.bits]
        omega
      | byteHigh =>
        rw [k.toNat_merge_byteHigh, Config.getRef, k.toNat_zext, toNat_shr, Size.bits]
        omega
      | word =>
        rw [k.toNat_merge_word, Config.getRef, k.toNat_zext, Size.bits]
        omega
      | dword => exact absurd rfl (hsize r)
      | qword => rfl
    simp only [Config.set, Config.get, Config.setRef, hmerge, Core.write, Function.update_eq_self]
  | mem m size =>
    simp only [Config.set, Config.get, Config.writeMemory, Mem.store_load c.mem _ size.bytes_le]
  | imm v size => exact hop.elim
  | seg s => exact hop.elim

end

/-! ## Shift instructions -/

inductive ShiftOp
  | shl
  | shr
  | sar
deriving DecidableEq, Repr

def ShiftOp.mnemonic : ShiftOp → Mnemonic ρ
  | .shl => .shl
  | .shr => .shr
  | .sar => .sar

/-- What the shift does with its operand and the masked count. -/
def ShiftOp.outcome {w : ℕ} (op : ShiftOp) (a : BitVec w) (c : ℕ) : Outcome w :=
  match op with
  | .shl => X86.shl a c
  | .shr => X86.shr a c
  | .sar => X86.sar a c

/-- A count: an immediate, or `CL`. -/
def Operand.Count : Operand → Prop
  | .imm _ _ => True
  | .reg r size => r = rcx ∧ size = .byte
  | _ => False

/-- The operands of a shift or a rotation. -/
def ShiftOperands (i : Insn) : Prop :=
  i.op0.Place ∧ i.width.bits = i.op0.size.bits ∧ i.op1.Count

/-- The masked count in an operand. -/
def Operand.count (op : Operand) (c : Core ρ) : ℕ :=
  X86.maskCount i.op0.size.bits (op.value k i 8 c).toNat

theorem countMask_eq {w : ℕ} {size : Size} (h : size.bits = w) (n : ℕ) :
    n % (countMask size + 1) = X86.maskCount w n := by
  subst h
  cases size <;> rfl

theorem immediateCount_eq (hwidth : i.width.bits = i.op0.size.bits) {v : U64} {size : Size}
    (hop1 : i.op1 = .imm v size) (c : Core ρ) : immediateCount i = i.op1.count k i c := by
  have hvalue : (i.op1.value k i 8 c).toNat = v.toNat % 256 := by
    rw [hop1]
    exact BitVec.toNat_setWidth ..
  rw [Operand.count, hvalue, ← countMask_eq hwidth]
  simp only [immediateCount, hop1]

theorem variableCount_eq {size : Size} (hsize : size.bits = i.op0.size.bits) {op : Operand}
    (hop : op.Count) (c : Core ρ) : (variableCount k i size op c).toNat = op.count k i c := by
  have hsource : op.Source Size.byte.bits := by
    cases op with
    | imm v s => trivial
    | reg r s => exact hop.2 ▸ rfl
    | mem m s => exact hop.elim
    | seg s => exact hop.elim
  have hbyte : (op.value k i 8 c).toNat = (k.get i op c).toNat % 2 ^ 8 :=
    (congrArg BitVec.toNat (k.low_get i hsource c)).symm.trans (toNat_low .byte _)
  -- the mask keeps less than a byte
  have hsmall (n : ℕ) : n % 2 ^ 8 % (countMask size + 1) = n % (countMask size + 1) := by
    rw [countMask]
    split <;> omega
  rw [toNat_variableCount, ← hsmall, countMask_eq hsize, ← hbyte]
  rfl

theorem count_lt (op : Operand) (c : Core ρ) : op.count k i c < 64 := by
  have hsplit : op.count k i c < if i.op0.size.bits = 64 then 64 else 32 := by
    refine Nat.mod_lt _ ?_
    split <;> decide
  split at hsplit <;> omega

/-! ## A count of zero -/

section

variable {k i} {s : State ρ}

theorem does_unshifted {result : U64} (hop : i.op0.Place)
    (hresult : low i.op0.size result = i.op0.value k i i.op0.size.bits s.core) :
    Does k i (X86.unshifted (i.op0.value k i i.op0.size.bits s.core)) s
      (s.map (k.set i i.op0 result)) where
  core := (k.set_eq i hop result s.core).trans (by rw [hresult]; rfl)
  flag f := by cases f <;> rfl

/-- The code for an immediate zero is not there at all, but for the upper half of a 32-bit
register. -/
theorem does_shiftZero (hop : i.op0.Place) (hz : k.mode32 → Zext s.core) :
    Does k i (X86.unshifted (i.op0.value k i i.op0.size.bits s.core)) s (shiftZero k i s) := by
  by_cases hdword : ∃ r, i.op0 = .reg r .dword
  · obtain ⟨r, hreg⟩ := hdword
    have hsame : k.setRef r .qword (k.get i i.op0 s.core) s.core =
        k.set i i.op0 (k.get i i.op0 s.core) s.core := by
      have hlt := get_place_lt k i hz hop
      rw [hreg] at hlt ⊢
      have hmerge : k.get i (.reg r .dword) s.core =
          k.merge .dword (s.core.gpr r) (k.get i (.reg r .dword) s.core) := by
        apply BitVec.eq_of_toNat_eq
        rw [k.toNat_merge_dword]
        exact (Nat.mod_eq_of_lt hlt).symm
      exact congrArg (s.core.write r) hmerge
    have hzero : shiftZero k i s = s.map (k.set i i.op0 (k.get i i.op0 s.core)) := by
      refine State.ext (Eq.trans ?_ hsame) fun f ↦ ?_
      · simp only [shiftZero, hreg, State.core_map]
      · simp only [shiftZero, hreg, State.map]
    rw [hzero]
    exact does_unshifted hop (k.low_get_place i hop s.core)
  · have hsize (r : Ref) : i.op0 ≠ .reg r .dword := fun h ↦ hdword ⟨r, h⟩
    have hzero : shiftZero k i s = s := by
      rw [shiftZero]
      split
      · next r h => exact absurd h (hsize r)
      · rfl
    rw [hzero]
    exact ⟨(assign_value hop hsize).symm, fun f ↦ by cases f <;> rfl⟩

end

/-! ## Each path -/

section

variable {k i} {s : State ρ}

theorem fastShlImm_live (hshift : immediateCount i ≠ 0) :
    fastShlImm k i live s =
      let size := i.op0.size
      let dst := k.get i i.op0 s.core
      let shift := immediateCount i
      let cf := (dst >>> ((size.bits + 64 - shift) % 64)) &&& 1
      (s.assign (shiftFlags (shift = 1))
        (shiftValues k (dst <<< shift) cf (((dst >>> (size.bits - 1)) &&& 1) ^^^ cf) size)).map
          (k.set i i.op0 (dst <<< shift)) := by
  rw [fastShlImm]
  simp only [if_pos hshift]
  refine State.ext (by simp) fun f ↦ ?_
  cases f <;>
    simp [State.map, setShiftFlags, State.flag_emit, State.flag_assign, shiftValues,
      shiftFlags, live, Flag.stored]

theorem fastShrImm_live (hshift : immediateCount i ≠ 0) :
    fastShrImm k i live s =
      let size := i.op0.size
      let dst := k.get i i.op0 s.core
      let shift := immediateCount i
      (s.assign (shiftFlags (shift = 1))
        (shiftValues k (dst >>> shift) ((dst >>> (shift - 1)) &&& 1)
          ((dst >>> (size.bits - 1)) &&& 1) size)).map (k.set i i.op0 (dst >>> shift)) := by
  rw [fastShrImm]
  simp only [if_pos hshift]
  refine State.ext (by simp) fun f ↦ ?_
  cases f <;>
    simp [State.map, setShiftFlags, State.flag_emit, State.flag_assign, shiftValues,
      shiftFlags, live, Flag.stored]

theorem fastSarImm_live (hshift : immediateCount i ≠ 0) :
    fastSarImm k i live s =
      let size := i.op0.size
      let dst := k.get i i.op0 s.core
      let shift := immediateCount i
      let result := sarImmResult size dst shift
      (s.assign (shiftFlags true)
        (shiftValues k result ((dst >>> (shift - 1)) &&& 1) 0 size)).map
            (k.set i i.op0 result) := by
  rw [fastSarImm]
  simp only [if_pos hshift]
  refine State.ext (by simp) fun f ↦ ?_
  cases f <;>
    simp [State.map, setShiftFlags, State.flag_emit, State.flag_assign, shiftValues,
      shiftFlags, live]

end

/-! ## Right shifts of signed operands -/

theorem low_sarResult (size : Size) (dst count : U64) (hcount : count.toNat < 64)
    (hdword : size = .dword → count.toNat < 32) :
    low size (sarResult size dst count) = (low size dst).sshiftRight count.toNat := by
  cases size with
  | byte =>
    rw [sarResult, sra, Nat.mod_eq_of_lt hcount,
      shl_sshiftRight dst (by decide) (by decide : 0 < 8)]
    exact setWidth_signExtend_sshiftRight (dst.setWidth 8) (by decide) _
  | byteHigh =>
    rw [sarResult, sra, Nat.mod_eq_of_lt hcount,
      shl_sshiftRight dst (by decide) (by decide : 0 < 8)]
    exact setWidth_signExtend_sshiftRight (dst.setWidth 8) (by decide) _
  | word =>
    rw [sarResult, sra, Nat.mod_eq_of_lt hcount,
      shl_sshiftRight dst (by decide) (by decide : 0 < 16)]
    exact setWidth_signExtend_sshiftRight (dst.setWidth 16) (by decide) _
  | dword =>
    rw [sarResult, sraw, Nat.mod_eq_of_lt (hdword rfl)]
    exact setWidth_signExtend _ (by decide)
  | qword =>
    rw [sarResult, sra, Nat.mod_eq_of_lt hcount, low, low]
    simp [Size.bits]

/-- From here on a right shift leaves the sign only. -/
theorem sshiftRight_last (v : U64) {n : ℕ} (hn : 63 ≤ n) : v.sshiftRight 63 = v.sshiftRight n := by
  apply BitVec.eq_of_getLsbD_eq
  intro j hj
  have hsign (m : ℕ) (hm : 63 ≤ m) : (v.sshiftRight m).getLsbD j = v.msb := by
    have hle : ¬ 64 ≤ j := by omega
    rw [BitVec.getLsbD_sshiftRight]
    split
    · have hzero : m + j = 63 := by omega
      simp [hle, hzero, BitVec.msb_eq_getLsbD_last]
    · simp [hle]
  rw [hsign 63 le_rfl, hsign n hn]

/-- The shift by an immediate is the one by a register, in one step for bytes and words. -/
theorem sarImmResult_eq (size : Size) (dst : U64) {shift : ℕ} (hshift : shift < 64)
    (hdword : size = .dword → shift < 32) :
    sarImmResult size dst shift = sarResult size dst (BitVec.ofNat 64 shift) := by
  have htoNat : (BitVec.ofNat 64 shift).toNat = shift := by
    rw [BitVec.toNat_ofNat, Nat.mod_eq_of_lt (by omega)]
  have hmod : shift % 64 = shift := Nat.mod_eq_of_lt hshift
  have hstep (v : U64) (n : ℕ) (hn : n + shift < 64) :
      v.sshiftRight (n + shift) = sra (v.sshiftRight n) (BitVec.ofNat 64 shift) := by
    rw [sra, htoNat, hmod, BitVec.sshiftRight_add]
  have hlast (v : U64) (n : ℕ) (hn : ¬ n + shift < 64) :
      v.sshiftRight 63 = sra (v.sshiftRight n) (BitVec.ofNat 64 shift) := by
    rw [sra, htoNat, hmod, ← BitVec.sshiftRight_add]
    exact sshiftRight_last v (by omega)
  cases size with
  | byte =>
    rw [sarImmResult, sarResult]
    split
    · exact hstep _ 56 (by omega)
    · exact hlast _ 56 (by omega)
  | byteHigh =>
    rw [sarImmResult, sarResult]
    split
    · exact hstep _ 56 (by omega)
    · exact hlast _ 56 (by omega)
  | word =>
    rw [sarImmResult, sarResult]
    split
    · exact hstep _ 48 (by omega)
    · exact hlast _ 48 (by omega)
  | dword => rw [sarImmResult, sarResult, sraw, htoNat, Nat.mod_eq_of_lt (hdword rfl)]
  | qword => rw [sarImmResult, sarResult, sra, htoNat, hmod]

section

variable {k i} {s : State ρ}

theorem fastShl_live (himm : i.op1.isImm = false)
    (hcount : variableCount k i i.width i.op1 s.core ≠ 0) :
    fastShl k i live s =
      let size := i.op0.size
      let dst := k.get i i.op0 s.core
      let count := variableCount k i i.width i.op1 s.core
      let cf := srl dst (BitVec.ofNat 64 size.bits - count) &&& 1
      (s.assign (shiftFlags true)
        (shiftValues k (sll dst count) cf (((sll dst count >>> (size.bits - 1)) &&& 1) ^^^ cf)
          size)).map (k.set i i.op0 (sll dst count)) := by
  rw [fastShl, himm]
  simp only [if_neg hcount, live, Bool.false_eq_true, if_false, Bool.true_or, Bool.not_true,
    Bool.and_false]
  refine State.ext (by simp) fun f ↦ ?_
  cases f <;>
    simp [State.map, setShiftFlags, State.flag_emit, State.flag_assign, shiftValues, shiftFlags,
      Flag.stored, live]

theorem fastShr_live (himm : i.op1.isImm = false)
    (hcount : variableCount k i i.width i.op1 s.core ≠ 0) :
    fastShr k i live s =
      let size := i.op0.size
      let dst := k.get i i.op0 s.core
      let count := variableCount k i i.width i.op1 s.core
      (s.assign (shiftFlags true)
        (shiftValues k (srl dst count) (srl dst (count - 1) &&& 1) ((dst >>> (size.bits - 1)) &&& 1)
          size)).map (k.set i i.op0 (srl dst count)) := by
  rw [fastShr, himm]
  simp only [if_neg hcount, live, Bool.false_eq_true, if_false, Bool.true_or, Bool.not_true,
    Bool.and_false]
  refine State.ext (by simp) fun f ↦ ?_
  cases f <;>
    simp [State.map, setShiftFlags, State.flag_emit, State.flag_assign, shiftValues, shiftFlags,
      Flag.stored, live]

theorem fastSar_live (himm : i.op1.isImm = false)
    (hcount : variableCount k i i.width i.op1 s.core ≠ 0) :
    fastSar k i live s =
      let size := i.op0.size
      let dst := k.get i i.op0 s.core
      let count := variableCount k i i.width i.op1 s.core
      let result := sarResult size dst count
      (s.assign (shiftFlags true)
        (shiftValues k result (srl dst (count - 1) &&& 1) 0 size)).map (k.set i i.op0 result) := by
  rw [fastSar, himm]
  simp only [if_neg hcount, Bool.false_eq_true, if_false]
  refine State.ext (by simp) fun f ↦ ?_
  cases f <;>
    simp [State.map, setShiftFlags, State.flag_emit, State.flag_assign, shiftValues, shiftFlags,
      Flag.stored, live]

/-- A count of zero in `CL` jumps over the flags. -/
theorem exec_zero (op : ShiftOp) (s : State ρ) (himm : i.op1.isImm = false)
    (hcount : variableCount k i i.width i.op1 s.core = 0) :
    ∃ result, low i.op0.size result = low i.op0.size (k.get i i.op0 s.core) ∧
      Instr.exec k live ⟨op.mnemonic, i⟩ s = some (s.map (k.set i i.op0 result)) := by
  cases op with
  | shl =>
    refine ⟨k.get i i.op0 s.core, rfl, congrArg some ?_⟩
    rw [fastShl, himm]
    simp [hcount, live, sll]
  | shr =>
    refine ⟨k.get i i.op0 s.core, rfl, congrArg some ?_⟩
    rw [fastShr, himm]
    simp [hcount, live, srl]
  | sar =>
    refine ⟨sarResult i.op0.size (k.get i i.op0 s.core) 0, ?_, congrArg some ?_⟩
    · rw [low_sarResult _ _ _ (by decide) fun _ ↦ by decide]
      exact BitVec.sshiftRight_zero ..
    · rw [fastSar, himm]
      simp [hcount]

end

/-! ## What goes wrong -/

/-- A left shift by an immediate one is right if the two highest bits are equal, and an arithmetic
shift beyond the width if the operand is not negative. -/
def ShiftOp.Right {w : ℕ} (op : ShiftOp) (immediate : Bool) (a : BitVec w) (c : ℕ) : Prop :=
  match op with
  | .shl => immediate → c = 1 → (a <<< c).msb = a.msb
  | .shr => True
  | .sar => w < c → a.msb = false

theorem bit_eq (v : U64) (n : ℕ) : (v >>> n) &&& 1 = asFlag (v.getLsbD n) := by
  rw [and_one_eq, BitVec.getLsbD_ushiftRight, Nat.add_zero]

section

variable {size : Size} {dst : U64} {c n : ℕ} {old : U64}

theorem holds_shlCarry (hc : c ≠ 0) (hn : c ≤ size.bits → n = size.bits - c) :
    Effect.Holds (if c ≤ size.bits then .set ((low size dst).getLsbD (size.bits - c))
      else .undefined)
      old ((dst >>> n) &&& 1) := by
  split
  · next hle =>
    rw [bit_eq, hn hle, getLsbD_low dst (by omega)]
    rfl
  · trivial

theorem holds_shrCarry (hc : c ≠ 0) :
    Effect.Holds (if c ≤ size.bits then .set ((low size dst).getLsbD (c - 1)) else .undefined)
      old ((dst >>> (c - 1)) &&& 1) := by
  split
  · next hle =>
    rw [bit_eq, getLsbD_low dst (by omega)]
    rfl
  · trivial

/-- Above the operand there are zeros, and not its sign. -/
theorem holds_sarCarry_iff (hdst : dst.toNat < 2 ^ size.bits) :
    Effect.Holds (.set (if c ≤ size.bits then (low size dst).getLsbD (c - 1)
      else (low size dst).msb))
      old ((dst >>> (c - 1)) &&& 1) ↔ (size.bits < c → (low size dst).msb = false) := by
  rw [bit_eq, getLsbD_of_lt hdst]
  refine asFlag_inj.trans ?_
  split
  · next hle => exact iff_of_true rfl fun hlt ↦ absurd hle (Nat.not_le.mpr hlt)
  · next hgt =>
    rw [BitVec.getLsbD_of_ge _ _ (by omega)]
    exact ⟨fun h _ ↦ h.symm, fun h ↦ (h (Nat.not_le.mp hgt)).symm⟩

theorem msb_eq_bit (size : Size) (v : U64) :
    (v >>> (size.bits - 1)) &&& 1 = asFlag (low size v).msb :=
  Config.updateSign_eq size v

end

section

variable {k i} {s : State ρ}

/-- The value that is shifted. -/
theorem value_eq (hop : i.op0.Place) :
    i.op0.value k i i.op0.size.bits s.core = low i.op0.size (k.get i i.op0 s.core) :=
  (k.low_get_place i hop s.core).symm

theorem does_fastShlImm_iff (hop : i.op0.Place) (hcount : immediateCount i ≠ 0)
    (hlt : immediateCount i < 64) :
    Does k i (X86.shl (i.op0.value k i i.op0.size.bits s.core) (immediateCount i)) s
        (fastShlImm k i live s) ↔
      ShiftOp.shl.Right true (i.op0.value k i i.op0.size.bits s.core) (immediateCount i) := by
  have hbits := i.op0.size.bits_le
  have hpos := i.op0.size.le_bits
  rw [fastShlImm_live hcount, X86.shl, if_neg hcount, value_eq hop]
  refine (does_shifted_iff hop (low_shl ..) (by simp)).trans ?_
  have hcarry (hle : immediateCount i ≤ i.op0.size.bits) :
      (i.op0.size.bits + 64 - immediateCount i) % 64 = i.op0.size.bits - immediateCount i := by
    omega
  have hover (hone : immediateCount i = 1) :
      ((k.get i i.op0 s.core >>> (i.op0.size.bits - 1)) &&& 1) ^^^
          ((k.get i i.op0 s.core >>> ((i.op0.size.bits + 64 - immediateCount i) % 64)) &&& 1) =
        asFlag false := by
    rw [hcarry (by omega), hone, BitVec.xor_self]
    rfl
  have hlast (hone : immediateCount i = 1) :
      (low i.op0.size (k.get i i.op0 s.core)).getLsbD (i.op0.size.bits - immediateCount i) =
        (low i.op0.size (k.get i i.op0 s.core)).msb := by
    rw [hone, BitVec.msb_eq_getLsbD_last]
  constructor
  · rintro ⟨-, hof⟩ - hone
    have hflag := asFlag_inj.mp ((hover hone).symm.trans (hof hone))
    rw [hlast hone] at hflag
    simpa using hflag.symm
  · intro hright
    refine ⟨holds_shlCarry hcount hcarry, fun hone ↦ (hover hone).trans (congrArg asFlag ?_)⟩
    rw [hlast hone, hright rfl hone, Bool.xor_self]

theorem does_fastShrImm (hop : i.op0.Place) (hz : k.mode32 → Zext s.core)
    (hcount : immediateCount i ≠ 0) :
    Does k i (X86.shr (i.op0.value k i i.op0.size.bits s.core) (immediateCount i)) s
        (fastShrImm k i live s) := by
  have hdst := get_place_lt k i hz hop
  rw [fastShrImm_live hcount, X86.shr, if_neg hcount, value_eq hop]
  exact (does_shifted_iff hop (low_shr hdst _) (by simp)).mpr
    ⟨holds_shrCarry hcount, fun _ ↦ msb_eq_bit ..⟩

theorem does_fastSarImm_iff (hop : i.op0.Place) (hz : k.mode32 → Zext s.core)
    (hcount : immediateCount i ≠ 0) (hlt : immediateCount i < 64)
    (hdword : i.op0.size = .dword → immediateCount i < 32) :
    Does k i (X86.sar (i.op0.value k i i.op0.size.bits s.core) (immediateCount i)) s
        (fastSarImm k i live s) ↔
      ShiftOp.sar.Right true (i.op0.value k i i.op0.size.bits s.core) (immediateCount i) := by
  have hdst := get_place_lt k i hz hop
  have htoNat : (BitVec.ofNat 64 (immediateCount i)).toNat = immediateCount i := by
    rw [BitVec.toNat_ofNat, Nat.mod_eq_of_lt (by omega)]
  have hresult :
      low i.op0.size (sarImmResult i.op0.size (k.get i i.op0 s.core) (immediateCount i)) =
      (low i.op0.size (k.get i i.op0 s.core)).sshiftRight (immediateCount i) := by
    rw [sarImmResult_eq _ _ hlt hdword,
      low_sarResult _ _ _ (by omega) fun h ↦ htoNat.trans_lt (hdword h),
      htoNat]
  rw [fastSarImm_live hcount, X86.sar, if_neg hcount, value_eq hop]
  refine (does_shifted_iff hop hresult fun _ ↦ rfl).trans ?_
  exact ⟨fun h ↦ (holds_sarCarry_iff hdst).mp h.1,
    fun h ↦ ⟨(holds_sarCarry_iff hdst).mpr h, fun _ ↦ rfl⟩⟩

/-! ### Counts in `CL` -/

variable {c : ℕ}

theorem does_fastShl (hop : i.op0.Place) (himm : i.op1.isImm = false)
    (hc : (variableCount k i i.width i.op1 s.core).toNat = c) (hne : c ≠ 0) (hlt : c < 64) :
    Does k i (X86.shl (i.op0.value k i i.op0.size.bits s.core) c) s (fastShl k i live s) := by
  have hbits := i.op0.size.bits_le
  have hpos := i.op0.size.le_bits
  have hcount : variableCount k i i.width i.op1 s.core ≠ 0 := by
    rintro h
    rw [h] at hc
    exact hne hc.symm
  have hresult :
      low i.op0.size (sll (k.get i i.op0 s.core) (variableCount k i i.width i.op1 s.core)) =
      low i.op0.size (k.get i i.op0 s.core) <<< c := by
    rw [sll, hc, Nat.mod_eq_of_lt hlt, low_shl]
  have hcarry (hle : c ≤ i.op0.size.bits) :
      (BitVec.ofNat 64 i.op0.size.bits - variableCount k i i.width i.op1 s.core).toNat % 64 =
        i.op0.size.bits - c := by
    rw [BitVec.toNat_sub, BitVec.toNat_ofNat, hc]
    omega
  rw [fastShl_live himm hcount, X86.shl, if_neg hne, value_eq hop]
  refine (does_shifted_iff hop hresult fun _ ↦ rfl).mpr ⟨holds_shlCarry hne hcarry, fun hone ↦ ?_⟩
  subst hone
  rw [msb_eq_bit, hresult, srl, hcarry (by omega), bit_eq, asFlag_xor, getLsbD_low]
  omega

theorem toNat_count_sub_one {count : U64} (hc : count.toNat = c) (hne : c ≠ 0) (hlt : c < 64) :
    (count - 1).toNat % 64 = c - 1 := by
  rw [BitVec.toNat_sub, hc]
  change (2 ^ 64 - 1 + c) % 2 ^ 64 % 64 = c - 1
  omega

theorem does_fastShr (hop : i.op0.Place) (hz : k.mode32 → Zext s.core) (himm : i.op1.isImm = false)
    (hc : (variableCount k i i.width i.op1 s.core).toNat = c) (hne : c ≠ 0) (hlt : c < 64) :
    Does k i (X86.shr (i.op0.value k i i.op0.size.bits s.core) c) s (fastShr k i live s) := by
  have hdst := get_place_lt k i hz hop
  have hcount : variableCount k i i.width i.op1 s.core ≠ 0 := by
    rintro h
    rw [h] at hc
    exact hne hc.symm
  have hresult :
      low i.op0.size (srl (k.get i i.op0 s.core) (variableCount k i i.width i.op1 s.core)) =
      low i.op0.size (k.get i i.op0 s.core) >>> c := by
    rw [srl, hc, Nat.mod_eq_of_lt hlt, low_shr hdst]
  rw [fastShr_live himm hcount, X86.shr, if_neg hne, value_eq hop]
  refine (does_shifted_iff hop hresult fun _ ↦ rfl).mpr ⟨?_, fun _ ↦ msb_eq_bit ..⟩
  rw [srl, toNat_count_sub_one hc hne hlt]
  exact holds_shrCarry hne

theorem does_fastSar_iff (hop : i.op0.Place) (hz : k.mode32 → Zext s.core)
    (himm : i.op1.isImm = false)
    (hc : (variableCount k i i.width i.op1 s.core).toNat = c) (hne : c ≠ 0) (hlt : c < 64)
    (hdword : i.op0.size = .dword → c < 32) :
    Does k i (X86.sar (i.op0.value k i i.op0.size.bits s.core) c) s (fastSar k i live s) ↔
      ShiftOp.sar.Right false (i.op0.value k i i.op0.size.bits s.core) c := by
  have hdst := get_place_lt k i hz hop
  have hcount : variableCount k i i.width i.op1 s.core ≠ 0 := by
    rintro h
    rw [h] at hc
    exact hne hc.symm
  have hresult : low i.op0.size (sarResult i.op0.size (k.get i i.op0 s.core)
      (variableCount k i i.width i.op1 s.core)) =
      (low i.op0.size (k.get i i.op0 s.core)).sshiftRight c := by
    rw [low_sarResult _ _ _ (by omega) fun h ↦ hc.trans_lt (hdword h), hc]
  rw [fastSar_live himm hcount, X86.sar, if_neg hne, value_eq hop]
  refine (does_shifted_iff hop hresult fun _ ↦ rfl).trans ?_
  rw [srl, toNat_count_sub_one hc hne hlt]
  exact ⟨fun h ↦ (holds_sarCarry_iff hdst).mp h.1,
    fun h ↦ ⟨(holds_sarCarry_iff hdst).mpr h, fun _ ↦ rfl⟩⟩

end

/-! ## Every count -/

section

variable {k i} {s : State ρ}

/-- What the shift should do with the operand and the count it finds. -/
def ShiftOp.expected (k : Config) (i : Insn) (op : ShiftOp) (c : Core ρ) :
    Outcome i.op0.size.bits :=
  op.outcome (i.op0.value k i i.op0.size.bits c) (i.op1.count k i c)

theorem ShiftOp.outcome_zero {w : ℕ} (op : ShiftOp) (a : BitVec w) :
    op.outcome a 0 = unshifted a := by
  cases op <;> rfl

theorem ShiftOp.right_zero {w : ℕ} (op : ShiftOp) (immediate : Bool) (a : BitVec w) :
    op.Right immediate a 0 := by
  cases op with
  | shl => exact fun _ h ↦ absurd h (by decide)
  | shr => trivial
  | sar => exact fun h ↦ absurd h (Nat.not_lt_zero w)

theorem count_lt_of_dword (hdword : i.op0.size = .dword) (op : Operand) (c : Core ρ) :
    op.count k i c < 32 := by
  rw [Operand.count, hdword]
  exact Nat.mod_lt _ (by decide)

/-- A shift by an immediate. -/
theorem does_immediate_iff {op : ShiftOp} (hop : ShiftOperands i) (hz : k.mode32 → Zext s.core)
    (himm : i.op1.isImm = true) :
    (∃ s', Instr.exec k live ⟨op.mnemonic, i⟩ s = some s' ∧
      Does k i (op.expected k i s.core) s s') ↔
      op.Right true (i.op0.value k i i.op0.size.bits s.core) (i.op1.count k i s.core) := by
  obtain ⟨hplace, hwidth, -⟩ := hop
  have hcount : immediateCount i = i.op1.count k i s.core := by
    cases hop1 : i.op1 with
    | imm v size => exact hop1 ▸ immediateCount_eq k i hwidth hop1 s.core
    | _ => simp [hop1, Operand.isImm] at himm
  have hlt := count_lt k i i.op1 s.core
  have hdword (h : i.op0.size = .dword) := count_lt_of_dword (k := k) h i.op1 s.core
  rw [← hcount] at hlt hdword
  have hexec : Instr.exec k live ⟨op.mnemonic, i⟩ s = some (match op with
      | .shl => fastShlImm k i live s
      | .shr => fastShrImm k i live s
      | .sar => fastSarImm k i live s) := by
    cases op with
    | shl => exact congrArg some (by rw [fastShl, if_pos himm])
    | shr => exact congrArg some (by rw [fastShr, if_pos himm])
    | sar => exact congrArg some (by rw [fastSar, if_pos himm])
  simp only [hexec, Option.some_inj, exists_eq_left', ShiftOp.expected, ← hcount]
  by_cases hzero : immediateCount i = 0
  · rw [hzero, ShiftOp.outcome_zero]
    refine iff_of_true ?_ (op.right_zero _ _)
    have hshift := does_shiftZero hplace hz
    cases op with
    | shl => simpa [fastShlImm, hzero] using hshift
    | shr => simpa [fastShrImm, hzero] using hshift
    | sar => simpa [fastSarImm, hzero] using hshift
  · cases op with
    | shl => exact does_fastShlImm_iff hplace hzero hlt
    | shr => exact iff_of_true (does_fastShrImm hplace hz hzero) trivial
    | sar => exact does_fastSarImm_iff hplace hz hzero hlt hdword

/-- A shift by `CL`. -/
theorem does_variable_iff {op : ShiftOp} (hop : ShiftOperands i) (hz : k.mode32 → Zext s.core)
    (himm : i.op1.isImm = false) :
    (∃ s', Instr.exec k live ⟨op.mnemonic, i⟩ s = some s' ∧
      Does k i (op.expected k i s.core) s s') ↔
      op.Right false (i.op0.value k i i.op0.size.bits s.core) (i.op1.count k i s.core) := by
  obtain ⟨hplace, hwidth, hcl⟩ := hop
  have hcount := variableCount_eq k i hwidth hcl s.core
  have hlt := count_lt k i i.op1 s.core
  have hdword (h : i.op0.size = .dword) := count_lt_of_dword (k := k) h i.op1 s.core
  by_cases hzero : i.op1.count k i s.core = 0
  · rw [ShiftOp.expected, hzero, ShiftOp.outcome_zero]
    obtain ⟨result, hresult, hexec⟩ := exec_zero op s himm
      (BitVec.eq_of_toNat_eq (hcount.trans hzero))
    rw [hexec]
    exact iff_of_true ⟨_, rfl, does_unshifted hplace (hresult.trans (value_eq hplace).symm)⟩
      (op.right_zero _ _)
  · cases op with
    | shl =>
      exact iff_of_true ⟨_, rfl, does_fastShl hplace himm hcount hzero hlt⟩ (fun h ↦ by cases h)
    | shr => exact iff_of_true ⟨_, rfl, does_fastShr hplace hz himm hcount hzero hlt⟩ trivial
    | sar =>
      refine Iff.trans ⟨?_, fun h ↦ ⟨_, rfl, h⟩⟩
        (does_fastSar_iff hplace hz himm hcount hzero hlt hdword)
      rintro ⟨s', hs', h⟩
      cases hs'
      exact h

end

/-- With all flags live a shift does what the manual says, for every count and every form of the
operands, except for `OF` after a left shift by an immediate one of an operand whose two highest
bits differ, and for `CF` after an arithmetic shift of a negative byte or word by more than its
width. -/
theorem shift_iff (op : ShiftOp) (s : State ρ) (hop : ShiftOperands i)
    (hz : k.mode32 → Zext s.core) :
    (∃ s', Instr.exec k live ⟨op.mnemonic, i⟩ s = some s' ∧
      Does k i (op.expected k i s.core) s s') ↔
      op.Right i.op1.isImm (i.op0.value k i i.op0.size.bits s.core) (i.op1.count k i s.core) := by
  cases himm : i.op1.isImm with
  | true => exact does_immediate_iff hop hz himm
  | false => exact does_variable_iff hop hz himm

/-- A shift of `AL` by an immediate. -/
def shiftLow (m : Mnemonic Unit) (v : U64) : Insn :=
  (m.on .byte (.reg rax .byte) (.imm v .byte)).insn

theorem shift_iff_sarLow :
    ∃ s', Instr.exec (.default false) live ⟨ShiftOp.sar.mnemonic, shiftLow .sar 9⟩ State.zero =
      some s' ∧
      Does (.default false) (shiftLow .sar 9)
        (ShiftOp.sar.expected (.default false) (shiftLow .sar 9) State.zero.core) State.zero s' :=
  (shift_iff (.default false) (shiftLow .sar 9) .sar State.zero ⟨trivial, rfl, trivial⟩
    (fun h ↦ absurd h (by decide))).mpr fun _ ↦ by decide

/-- The state in which a register has a value. -/
def State.withReg (r : Ref) (v : U64) : State Unit := State.zero.map fun c ↦ c.write r v

/-- `0x40` shifted left by one changes its sign, but `OF` is clear. -/
theorem not_does_shlLow :
    ¬ ∃ s', Instr.exec (.default false) live ⟨ShiftOp.shl.mnemonic, shiftLow .shl 1⟩
        (State.withReg rax 0x40) = some s' ∧
      Does (.default false) (shiftLow .shl 1)
        (ShiftOp.shl.expected (.default false) (shiftLow .shl 1) (State.withReg rax 0x40).core)
        (.withReg rax 0x40) s' := by
  rintro ⟨s', hexec, hdoes⟩
  have hof : s'.flag .of = asFlag true := hdoes.flag .of
  have hclear := congrArg (fun t ↦ t.map fun s ↦ s.flag .of) hexec
  rw [Option.map_some, hof] at hclear
  revert hclear
  decide

end Jit

end Felix86
