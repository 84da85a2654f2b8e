import Felix86.V2.Shifts

/-!
# Double shifts

`SHLD` and `SHRD` are put together from a shift of the destination and a shift of the source by the
complement of the count. For every count that the manual defines the complement is below the width
of the host shift. With a count of zero the destination is written back all the same.
-/

namespace Felix86

namespace Jit

open Riscv X86

variable {ρ : Type*} (k : Config) (i : Insn)

/-! ## Parts of a concatenation -/

section

variable {w : ℕ} (a b : BitVec w) {c : ℕ}

theorem extractLsb'_shiftLeft_append (hc : c ≤ w) :
    ((a ++ b) <<< c).extractLsb' w w = a <<< c ||| b >>> (w - c) := by
  apply BitVec.eq_of_getLsbD_eq
  intro j hj
  have hin : w + j < w + w := by omega
  simp only [BitVec.getLsbD_extractLsb', BitVec.getLsbD_shiftLeft, BitVec.getLsbD_append,
    BitVec.getLsbD_or, BitVec.getLsbD_ushiftRight, hj, hin, decide_true, Bool.true_and]
  by_cases hlow : j < c
  · have hpart : ¬ w + j < c ∧ w - c + j < w ∧ w + j - c = w - c + j := by omega
    simp [hlow, hpart]
  · have hpart : ¬ w + j < c ∧ ¬ w + j - c < w ∧ w + j - c - w = j - c := by omega
    simp [hlow, hpart, BitVec.getLsbD_of_ge b (w - c + j) (by omega)]

theorem setWidth_ushiftRight_append (hc : c ≤ w) :
    ((b ++ a) >>> c).setWidth w = a >>> c ||| b <<< (w - c) := by
  apply BitVec.eq_of_getLsbD_eq
  intro j hj
  simp only [BitVec.getLsbD_setWidth, BitVec.getLsbD_ushiftRight, BitVec.getLsbD_append,
    BitVec.getLsbD_or, BitVec.getLsbD_shiftLeft, hj, decide_true, Bool.true_and]
  by_cases hlow : c + j < w
  · have hpart : j < w - c := by omega
    simp [hlow, hpart]
  · have hpart : ¬ j < w - c ∧ c + j - w = j - (w - c) := by omega
    simp [hlow, hpart, BitVec.getLsbD_of_ge a (c + j) (by omega)]

end

/-! ## Shifts of a word -/

section

variable {size : Size} {dst src count sub : U64} {c : ℕ}

theorem getLsbD_low_signExtend (hsize : size.bits ≤ 32) (x : BitVec 32) {j : ℕ}
    (hj : j < size.bits) :
    (low size (x.signExtend 64)).getLsbD j = x.getLsbD j := by
  have hj32 : j < 32 := by omega
  have hj64 : j < 64 := by omega
  rw [getLsbD_low _ hj, BitVec.getLsbD_signExtend]
  simp [hj32, hj64]

theorem low_slliw (hsize : size.bits ≤ 32) (v : U64) (c : ℕ) :
    low size (slliw v c) = low size v <<< c := by
  apply BitVec.eq_of_getLsbD_eq
  intro j hj
  have hj32 : j < 32 := by omega
  rw [slliw, getLsbD_low_signExtend hsize _ hj, BitVec.getLsbD_shiftLeft, BitVec.getLsbD_shiftLeft,
    BitVec.getLsbD_setWidth]
  by_cases hc : j < c
  · simp [hc]
  · have hin : j - c < 32 := by omega
    rw [getLsbD_low v (by omega)]
    simp [hj, hj32, hin]

theorem low_srliw (hsize : size.bits ≤ 32) (hv : src.toNat < 2 ^ size.bits) (c : ℕ) :
    low size (srliw src c) = low size src >>> c := by
  apply BitVec.eq_of_getLsbD_eq
  intro j hj
  rw [srliw, getLsbD_low_signExtend hsize _ hj, BitVec.getLsbD_ushiftRight,
    BitVec.getLsbD_ushiftRight, BitVec.getLsbD_setWidth, ← getLsbD_of_lt hv]
  by_cases hin : c + j < 32
  · simp [hin]
  · have hzero : src.getLsbD (c + j) = false := by
      rw [getLsbD_of_lt hv]
      exact BitVec.getLsbD_of_ge _ _ (by omega)
    rw [hzero, Bool.and_false]

end

/-! ## Values -/

/-- The value `SHLD` shifts in and out, given the count and its complement. -/
def shldValue (width : Size) (dst src shift shiftSub : U64) : U64 :=
  if width = .qword then sll dst shift ||| srl src shiftSub
  else sllw dst shift ||| srlw src shiftSub

def shrdValue (width : Size) (dst src shift shiftSub : U64) : U64 :=
  if width = .qword then srl dst shift ||| sll src shiftSub
  else srlw dst shift ||| sllw src shiftSub

section

variable {size width : Size} {dst src shift : U64} {c : ℕ}

theorem count_ne_zero (hc : shift.toNat = c) (hne : c ≠ 0) : shift ≠ 0 := by
  rintro rfl
  exact hne hc.symm

/-- A count that is not zero and its complement fit in the host's counts. -/
theorem toNat_shiftSub (hc : shift.toNat = c) (hle : c ≤ size.bits) :
    (BitVec.ofNat 64 size.bits - shift).toNat = size.bits - c := by
  have hbits := size.bits_le
  rw [BitVec.toNat_sub_of_le, hc, BitVec.toNat_ofNat, Nat.mod_eq_of_lt (by omega)]
  rw [BitVec.le_def, hc, BitVec.toNat_ofNat, Nat.mod_eq_of_lt (by omega)]
  exact hle

theorem qword_of_bits (h : width.bits = size.bits) : width = .qword ↔ ¬ size.bits ≤ 32 := by
  rw [← h]
  cases width <;> simp [Size.bits]

theorem low_shldValue (dst : U64) (hwidth : width.bits = size.bits) (hdouble : 16 ≤ size.bits)
    (hsrc : src.toNat < 2 ^ size.bits) (hc : shift.toNat = c) (hpos : 0 < c) (hle : c ≤ size.bits)
    (hlt : c < 64) (hmask : size.bits ≤ 32 → c < 32) :
    low size (shldValue width dst src shift (BitVec.ofNat 64 size.bits - shift)) =
      low size dst <<< c ||| low size src >>> (size.bits - c) := by
  have hsub := toNat_shiftSub hc hle
  have hbits := size.bits_le
  by_cases hq : width = .qword
  · rw [shldValue, if_pos hq, low_or, sll, srl, hsub, hc, Nat.mod_eq_of_lt hlt,
      Nat.mod_eq_of_lt (by omega), low_shl, low_shr hsrc]
  · have hsmall : size.bits ≤ 32 := by
      rw [qword_of_bits hwidth] at hq
      omega
    have hlt32 := hmask hsmall
    rw [shldValue, if_neg hq, low_or, sllw, srlw, hsub, hc, Nat.mod_eq_of_lt hlt32,
      Nat.mod_eq_of_lt (by omega), low_slliw hsmall, low_srliw hsmall hsrc]

theorem low_shrdValue (src : U64) (hwidth : width.bits = size.bits) (hdouble : 16 ≤ size.bits)
    (hdst : dst.toNat < 2 ^ size.bits) (hc : shift.toNat = c) (hpos : 0 < c) (hle : c ≤ size.bits)
    (hlt : c < 64) (hmask : size.bits ≤ 32 → c < 32) :
    low size (shrdValue width dst src shift (BitVec.ofNat 64 size.bits - shift)) =
      low size dst >>> c ||| low size src <<< (size.bits - c) := by
  have hsub := toNat_shiftSub hc hle
  have hbits := size.bits_le
  by_cases hq : width = .qword
  · rw [shrdValue, if_pos hq, low_or, sll, srl, hsub, hc, Nat.mod_eq_of_lt hlt,
      Nat.mod_eq_of_lt (by omega), low_shl, low_shr hdst]
  · have hsmall : size.bits ≤ 32 := by
      rw [qword_of_bits hwidth] at hq
      omega
    have hlt32 := hmask hsmall
    rw [shrdValue, if_neg hq, low_or, sllw, srlw, hsub, hc, Nat.mod_eq_of_lt hlt32,
      Nat.mod_eq_of_lt (by omega), low_slliw hsmall, low_srliw hsmall hdst]

end

/-! ## Double-shift instructions -/

inductive DoubleOp
  | shld
  | shrd
deriving DecidableEq, Repr

def DoubleOp.mnemonic : DoubleOp → Mnemonic ρ
  | .shld => .shld
  | .shrd => .shrd

def DoubleOp.outcome {w : ℕ} (op : DoubleOp) (a b : BitVec w) (c : ℕ) : Outcome w :=
  match op with
  | .shld => X86.shld a b c
  | .shrd => X86.shrd a b c

/-- What a double shift should do with the two operands and the count it finds. -/
def DoubleOp.expected (op : DoubleOp) (c : Core ρ) : Outcome i.op0.size.bits :=
  op.outcome (i.op0.value k i i.op0.size.bits c) (i.op1.value k i i.op0.size.bits c)
    (i.op2.count k i c)

/-- Of at least 16 bits, and the second operand is a register of the same size. -/
structure DoubleOperands (i : Insn) : Prop where
  place : i.op0.Place
  width : i.width.bits = i.op0.size.bits
  double : 16 ≤ i.op0.size.bits
  source : ∃ r size, i.op1 = .reg r size ∧ size.bits = i.op0.size.bits
  count : i.op2.Count

theorem DoubleOperands.width_eq (hop : DoubleOperands i) : i.width = i.op0.size := by
  have hwidth := hop.width
  have hdouble := hop.double
  revert hwidth hdouble
  cases i.width <;> cases i.op0.size <;> simp [Size.bits]

section

variable {k i} {s : State ρ}

/-- With all flags live a double shift describes its result like any other shift. -/
theorem doubleShift_live (value carry : U64 → U64 → U64 → U64 → U64) (hwidth : i.width = i.op0.size)
    (hcount : variableCount k i i.width i.op2 s.core ≠ 0) :
    doubleShift k i live value carry s =
      let dst := k.get i i.op0 s.core
      let src := k.get i i.op1 s.core
      let shift := variableCount k i i.width i.op2 s.core
      let shiftSub := BitVec.ofNat 64 i.op0.size.bits - shift
      let result := value dst src shift shiftSub
      (s.assign (shiftFlags true)
        (shiftValues k result (carry dst src shift shiftSub &&& 1)
          (((result ^^^ dst) >>> (i.op0.size.bits - 1)) &&& 1) i.op0.size)).map
        (k.set i i.op0 result) := by
  rw [doubleShift]
  simp only [if_neg hcount]
  rw [hwidth]
  refine State.ext (by simp) fun f ↦ ?_
  cases f <;>
    simp [State.map, State.flag_emit, State.flag_assign, shiftValues, shiftFlags, Flag.stored, live]

theorem doubleShift_zero (value carry : U64 → U64 → U64 → U64 → U64)
    (hcount : variableCount k i i.width i.op2 s.core = 0) :
    doubleShift k i live value carry s = s.map (k.set i i.op0 (k.get i i.op0 s.core)) := by
  rw [doubleShift]
  simp only [if_pos hcount]

/-- `OF` says whether the sign has changed. -/
theorem changed_eq (size : Size) (result dst : U64) :
    ((result ^^^ dst) >>> (size.bits - 1)) &&& 1 =
    asFlag ((low size result).msb ^^ (low size dst).msb) := by
  rw [msb_eq_bit, low, low, low, BitVec.setWidth_xor, BitVec.msb_xor]

/-- The count as the code finds it. -/
theorem doubleCount_eq (hop : DoubleOperands i) (c : Core ρ) :
    (variableCount k i i.op0.size i.op2 c).toNat = i.op2.count k i c :=
  variableCount_eq k i rfl hop.count c

theorem doubleCount_lt (c : Core ρ) :
    i.op2.count k i c < 64 ∧ (i.op0.size.bits ≤ 32 → i.op2.count k i c < 32) := by
  refine ⟨count_lt k i i.op2 c, fun hsmall ↦ ?_⟩
  have hne : i.op0.size.bits ≠ 64 := by omega
  rw [Operand.count, X86.maskCount, if_neg hne]
  exact Nat.mod_lt _ (by decide)

/-- The second operand is read as a number of the same size. -/
theorem get_source (hop : DoubleOperands i) (hz : k.mode32 → Zext s.core) :
    (k.get i i.op1 s.core).toNat < 2 ^ i.op0.size.bits ∧
      i.op1.value k i i.op0.size.bits s.core = low i.op0.size (k.get i i.op1 s.core) := by
  obtain ⟨r, size, hop1, hsize⟩ := hop.source
  have hplace : i.op1.Place := by
    rw [hop1]
    trivial
  have hsource : i.op1.Source i.op0.size.bits := by
    rw [hop1]
    exact hsize
  have hlt := get_place_lt k i hz hplace
  have hsame : i.op1.size.bits = i.op0.size.bits := by
    rw [hop1]
    exact hsize
  exact ⟨hsame ▸ hlt, (k.low_get i hsource s.core).symm⟩

theorem does_fastShld (hop : DoubleOperands i) (hz : k.mode32 → Zext s.core)
    (hpos : 0 < i.op2.count k i s.core) (hle : i.op2.count k i s.core ≤ i.op0.size.bits) :
    Does k i (DoubleOp.shld.expected k i s.core) s (fastShld k i live s) := by
  have hwidth := hop.width_eq
  have hdst := get_place_lt k i hz hop.place
  have hc := doubleCount_eq (k := k) hop s.core
  obtain ⟨hlt, hlt32⟩ := doubleCount_lt (k := k) (i := i) s.core
  obtain ⟨hsrc, hvalue⟩ := get_source hop hz
  rw [DoubleOp.expected, DoubleOp.outcome, X86.shld, if_neg hpos.ne', value_eq hop.place, hvalue,
    extractLsb'_shiftLeft_append _ _ hle]
  generalize i.op2.count k i s.core = c at *
  have hresult :=
    low_shldValue (k.get i i.op0 s.core) hop.width hop.double hsrc hc hpos hle hlt hlt32
  have hcount := count_ne_zero hc hpos.ne'
  rw [fastShld, doubleShift_live _ _ hwidth (hwidth ▸ hcount), hwidth]
  refine (does_shifted_iff hop.place (hwidth ▸ hresult) fun _ ↦ rfl).mpr ⟨?_, fun _ ↦ ?_⟩
  · -- the complement is below 64 because the count is not zero
    have hbits := i.op0.size.bits_le
    have hsub : i.op0.size.bits - c < 64 := by omega
    refine Eq.trans ?_ (congrArg asFlag (getLsbD_of_lt hdst (i.op0.size.bits - c)))
    rw [srl, toNat_shiftSub hc hle, Nat.mod_eq_of_lt hsub, bit_eq]
  · rw [changed_eq, ← hresult, hwidth]
    rfl

theorem does_fastShrd (hop : DoubleOperands i) (hz : k.mode32 → Zext s.core)
    (hpos : 0 < i.op2.count k i s.core) (hle : i.op2.count k i s.core ≤ i.op0.size.bits) :
    Does k i (DoubleOp.shrd.expected k i s.core) s (fastShrd k i live s) := by
  have hwidth := hop.width_eq
  have hdst := get_place_lt k i hz hop.place
  have hc := doubleCount_eq (k := k) hop s.core
  obtain ⟨hlt, hlt32⟩ := doubleCount_lt (k := k) (i := i) s.core
  obtain ⟨-, hvalue⟩ := get_source hop hz
  rw [DoubleOp.expected, DoubleOp.outcome, X86.shrd, if_neg hpos.ne', value_eq hop.place, hvalue,
    setWidth_ushiftRight_append _ _ hle]
  generalize i.op2.count k i s.core = c at *
  have hresult :=
    low_shrdValue (k.get i i.op1 s.core) hop.width hop.double hdst hc hpos hle hlt hlt32
  have hcount := count_ne_zero hc hpos.ne'
  rw [fastShrd, doubleShift_live _ _ hwidth (hwidth ▸ hcount), hwidth]
  refine (does_shifted_iff hop.place (hwidth ▸ hresult) fun _ ↦ rfl).mpr ⟨?_, fun _ ↦ ?_⟩
  · refine Eq.trans ?_ (congrArg asFlag (getLsbD_of_lt hdst (c - 1)))
    rw [srl, toNat_count_sub_one hc hpos.ne' hlt, bit_eq]
  · rw [changed_eq, ← hresult, hwidth]
    rfl

end

/-- With all flags live and a count up to the width, a double shift does what the manual says,
whatever the operands have in common. A count of zero changes nothing but the upper half of a 32-bit
register, which is cleared. -/
theorem doubleShift_does (op : DoubleOp) (s : State ρ) (hop : DoubleOperands i)
    (hz : k.mode32 → Zext s.core) (hle : i.op2.count k i s.core ≤ i.op0.size.bits) :
    ∃ s', Instr.exec k live ⟨op.mnemonic, i⟩ s = some s' ∧ Does k i (op.expected k i s.core) s s' ∧
      (i.op2.count k i s.core = 0 → (∀ r, i.op0 ≠ .reg r .dword) → s' = s) := by
  obtain hzero | hpos := Nat.eq_zero_or_pos (i.op2.count k i s.core)
  · have hcount : variableCount k i i.width i.op2 s.core = 0 := by
      rw [hop.width_eq]
      exact BitVec.eq_of_toNat_eq ((doubleCount_eq hop s.core).trans hzero)
    have hsame (s' : State ρ) (h : s' = s.map (k.set i i.op0 (k.get i i.op0 s.core))) :
        Does k i (op.expected k i s.core) s s' ∧
          (i.op2.count k i s.core = 0 → (∀ r, i.op0 ≠ .reg r .dword) → s' = s) := by
      subst h
      have hlow := k.low_get_place i hop.place s.core
      constructor
      · have hkeep : op.expected k i s.core =
            X86.unshifted (i.op0.value k i i.op0.size.bits s.core) := by
          rw [DoubleOp.expected, hzero]
          cases op <;> rfl
        rw [hkeep]
        exact does_unshifted hop.place hlow
      · intro _ hreg
        refine State.ext ?_ fun f ↦ rfl
        refine (k.set_eq i hop.place _ s.core).trans ?_
        rw [hlow]
        exact assign_value hop.place hreg
    cases op with
    | shld => exact ⟨_, rfl, hsame _ (doubleShift_zero _ _ hcount)⟩
    | shrd => exact ⟨_, rfl, hsame _ (doubleShift_zero _ _ hcount)⟩
  · cases op with
    | shld => exact ⟨_, rfl, does_fastShld hop hz hpos hle, fun h ↦ absurd h hpos.ne'⟩
    | shrd => exact ⟨_, rfl, does_fastShrd hop hz hpos hle, fun h ↦ absurd h hpos.ne'⟩

/-- A double shift of `EAX` by an immediate, with the bits of `EBX`. -/
def doubleDword (m : Mnemonic Unit) (v : U64) : Insn :=
  { (m.on .dword (.reg rax .dword) (.reg rbx .dword)).insn with op2 := .imm v .byte }

theorem doubleShift_does_shrdDword :
    ∃ s', Instr.exec (.default false) live ⟨DoubleOp.shrd.mnemonic, doubleDword .shrd 31⟩
        (State.withReg rbx 7) = some s' ∧
      Does (.default false) (doubleDword .shrd 31)
        (DoubleOp.expected (.default false) (doubleDword .shrd 31) .shrd (State.withReg rbx 7).core)
        (.withReg rbx 7) s' ∧
      ((doubleDword .shrd 31).op2.count (.default false) (doubleDword .shrd 31)
          (State.withReg rbx 7).core = 0 →
        (∀ r, (doubleDword .shrd 31).op0 ≠ .reg r .dword) → s' = .withReg rbx 7) :=
  doubleShift_does (.default false) (doubleDword .shrd 31) .shrd (.withReg rbx 7)
    ⟨trivial, rfl, by decide, ⟨rbx, .dword, rfl, rfl⟩, trivial⟩ (fun h ↦ absurd h (by decide))
    (by decide)

/-- A double shift of `EAX` by zero clears the upper half of `RAX`. -/
theorem exec_shldDword_ne :
    Instr.exec (.default false) live ⟨.shld, doubleDword .shld 0⟩ (State.withReg rax (2 ^ 32)) ≠
      some (.withReg rax (2 ^ 32)) := by
  intro h
  have hrax := congrArg (fun t ↦ t.map fun s ↦ s.core.gpr rax) h
  revert hrax
  decide

end Jit

end Felix86
