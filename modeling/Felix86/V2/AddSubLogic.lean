import Felix86.V2.LockedForms
import Felix86.V2.Outcomes

/-!
# Addition, subtraction and logic

With all flags live the handlers of `ADD`, `ADC`, `SUB`, `CMP`, `INC`, `DEC`, `AND`, `OR`, `XOR` and
`TEST` do what the manual says, for every size and every form of the operands: the upper bits of the
host registers, which an extended immediate or a sum leaves there, reach no flag. What goes wrong is
in the atomic forms of `ADD` and `SUB`, which compute flags from a register that the other forms do
not have.

`SBB` is different. It finds its overflow as that of either of two subtractions, and where the first
one overflows and the second one comes back into range there is none.
-/

namespace Felix86

namespace Jit

open Riscv X86

variable {ρ : Type*} (k : Config) (i : Insn)

/-- Every flag is needed. -/
def live : Flag → Bool := fun _ ↦ true

/-! ## From values to outcomes -/

section

variable {k i} {s : State ρ}

/-- Flags and then the destination, as handlers write them. -/
theorem does_assign {o : Outcome i.op0.size.bits} {e : Flag → Bool} {values : Flag → U64}
    {result : U64} (hop : i.op0.Place) (hvalue : o.value = some (low i.op0.size result))
    (hflag : ∀ f, Effect.Holds (Flags.get o.flags f) (s.flag f)
      (if e f then f.stored (values f) else s.flag f)) :
    Does k i o s ((s.assign e values).map (k.set i i.op0 result)) where
  core := by
    rw [hvalue]
    exact k.set_eq i hop result s.core
  flag := hflag

/-- Where the outcome says something about every flag there is only one such state. -/
theorem Does.unique {o : Outcome i.op0.size.bits} {s₁ s₂ : State ρ}
    (hset : ∀ f, Flags.get o.flags f ≠ .undefined) (h₁ : Does k i o s s₁) (h₂ : Does k i o s s₂) :
    s₁ = s₂ := by
  refine State.ext (h₁.core.trans h₂.core.symm) fun f ↦ ?_
  have hf₁ := h₁.flag f
  have hf₂ := h₂.flag f
  have hne := hset f
  cases heffect : Flags.get o.flags f with
  | undefined => exact absurd heffect hne
  | keep =>
    rw [heffect] at hf₁ hf₂
    exact hf₁.trans hf₂.symm
  | set b =>
    rw [heffect] at hf₁ hf₂
    exact hf₁.trans hf₂.symm

end

section

variable {size : Size} {dst src : U64}

theorem holds_set {b : Bool} {old new : U64} {f : Flag} (h : new = asFlag b) :
    Effect.Holds (.set b) old (f.stored new) := by
  rw [h, stored_asFlag]
  rfl

theorem holds_addValues (hdst : dst.toNat < 2 ^ size.bits) (f : Flag) (old : U64) :
    Effect.Holds (Flags.get (X86.add (low size dst) (low size src)).flags f) old
      (f.stored (addValues k dst src (dst + src) (dst + src) size f)) := by
  have hsum := sum_low_false size dst src
  cases f <;> apply holds_set
  case cf => exact k.updateCarryAdd_eq hdst
  case pf => rw [hsum]; exact k.updateParity_eq size _
  case af => exact Config.updateAuxiliaryAdd_eq size dst src
  case zf => rw [hsum]; exact k.updateZero_eq size _
  case sf => rw [hsum]; exact Config.updateSign_eq size _
  case of => exact Config.updateOverflowAdd_eq hsum.symm

end

section

variable {size : Size} {dst src : U64}

theorem holds_cmpValues {z : Bool} (hdst : dst.toNat < 2 ^ size.bits)
    (htest : (if z then k.zext size src else src).toNat = (low size src).toNat)
    (f : Flag) (old : U64) :
    Effect.Holds (Flags.get (X86.sub (low size dst) (low size src)).flags f) old
      (f.stored (cmpValues k dst src (dst - src) size z f)) := by
  have hdiff := difference_low_false size dst src
  cases f <;> apply holds_set
  case cf => exact Config.updateCarrySub_eq hdst htest
  case pf => rw [hdiff]; exact k.updateParity_eq size _
  case af => exact Config.updateAuxiliarySub_eq size dst src
  case zf => rw [hdiff]; exact k.updateZero_eq size _
  case sf => rw [hdiff]; exact Config.updateSign_eq size _
  case of => exact Config.updateOverflowSub_eq hdiff.symm

/-- The flags of `ADC`. -/
def adcValues (dst src cf : U64) (size : Size) : Flag → U64
  | .cf => k.updateCarryAdc dst (dst + src) (dst + src + cf) cf size
  | .pf => k.updateParity (dst + src + cf)
  | .af => Config.updateAuxiliaryAdc dst (dst + src) cf (dst + src + cf)
  | .zf => k.updateZero (dst + src + cf) size
  | .sf => Config.updateSign (dst + src + cf) size
  | .of => Config.updateOverflowAdd dst src (dst + src + cf) size

theorem holds_adcValues (c : Bool) (hdst : dst.toNat < 2 ^ size.bits) (f : Flag) (old : U64) :
    Effect.Holds (Flags.get (X86.adc (low size dst) (low size src) c).flags f) old
      (f.stored (adcValues k dst src (asFlag c) size f)) := by
  have hsum := sum_low size dst src c
  cases f <;> apply holds_set
  case cf => exact k.updateCarryAdc_eq hdst
  case pf => rw [hsum]; exact k.updateParity_eq size _
  case af => exact Config.updateAuxiliaryAdc_eq size dst src c
  case zf => rw [hsum]; exact k.updateZero_eq size _
  case sf => rw [hsum]; exact Config.updateSign_eq size _
  case of => exact Config.updateOverflowAdd_eq hsum.symm

theorem holds_logicValues (result old : U64) (f : Flag) :
    Effect.Holds (Flags.get (X86.logic (low size result)).flags f) old
      (if butAf live f then f.stored (logicValues k result size f) else old) := by
  cases f
  case af => trivial
  all_goals rw [if_pos (by decide)]; apply holds_set
  case cf => rfl
  case pf => exact k.updateParity_eq size _
  case zf => exact k.updateZero_eq size _
  case sf => exact Config.updateSign_eq size _
  case of => rfl

end

/-! ## The source of a comparison -/

/-- In 32-bit mode registers are used as 32-bit numbers without an extension. -/
theorem get_source_lt {op : Operand} {size : Size} {c : Core ρ} (hz : k.mode32 → Zext c)
    (hop : op.Source size.bits) (himm : op.isImm = false) :
    (k.get i op c).toNat < 2 ^ size.bits := by
  have hplace : op.isReg || op.isMem := by
    cases op with
    | reg r s => rfl
    | mem m s => rfl
    | imm v s => cases himm
    | seg s => rfl
  have hbits : op.size.bits = size.bits := by
    cases op with
    | reg r s => exact hop
    | mem m s => exact hop
    | imm v s => cases himm
    | seg s => exact hop.elim
  rw [← hbits]
  exact k.get_lt i (fun r _ hmode ↦ hz hmode r) hplace

theorem get_place_lt {op : Operand} {c : Core ρ} (hz : k.mode32 → Zext c) (hop : op.Place) :
    (k.get i op c).toNat < 2 ^ op.size.bits := by
  refine k.get_lt i (fun r _ hmode ↦ hz hmode r) ?_
  cases op with
  | reg r s => rfl
  | mem m s => rfl
  | imm v s => exact hop.elim
  | seg s => exact hop.elim

theorem compared_eq {size : Size} {c : Core ρ} (hz : k.mode32 → Zext c)
    (hop : i.op1.Source size.bits) :
    (if zextSrc i size then k.zext size (k.get i i.op1 c) else k.get i i.op1 c).toNat =
      (low size (k.get i i.op1 c)).toNat := by
  rw [toNat_low]
  split
  · rw [k.toNat_zext]
  · next h =>
    refine (Nat.mod_eq_of_lt ?_).symm
    by_cases hsize : size = .qword
    · rw [hsize]
      exact (k.get i i.op1 c).isLt
    · exact get_source_lt k i hz hop (by simpa [zextSrc, hsize] using h)

/-! ## The forms that are not atomic -/

section

variable {k i} {s : State ρ}

theorem needsAny_live : needsAny live = true := rfl

theorem fastAdd_live (hlock : i.op0.isMem = false ∨ i.lock = false) :
    fastAdd k i live s =
      let dst := k.get i i.op0 s.core
      let src := k.get i i.op1 s.core
      some ((s.assign live (addValues k dst src (dst + src) (dst + src) i.op0.size)).map
        (k.set i i.op0 (dst + src))) := by
  have hatomic : (i.op0.isMem && i.lock) = false := by
    rcases hlock with h | h <;> simp [h]
  simp only [fastAdd, needsAny_live, hatomic, setAddFlags_eq, Bool.not_true, Bool.and_false,
    Bool.false_and, Bool.false_eq_true, if_false]

theorem fastSub_live (hnone : atomicOperand i = none) :
    fastSub k i live s =
      let dst := k.get i i.op0 s.core
      let src := k.get i i.op1 s.core
      (s.assign live (cmpValues k dst src (dst - src) i.op0.size (zextSrc i i.op0.size))).map
        (k.set i i.op0 (dst - src)) := by
  simp only [fastSub, needsAny_live, hnone, setCmpFlags_eq, Bool.not_true, Bool.and_false,
    Bool.false_and, Bool.false_eq_true, if_false, Bool.false_or]

theorem fastCmp_live :
    fastCmp k i live s =
      let dst := k.get i i.op0 s.core
      let src := k.get i i.op1 s.core
      s.assign live (cmpValues k dst src (dst - src) i.op0.size (zextSrc i i.op0.size)) := by
  simp only [fastCmp, needsAny_live, setCmpFlags_eq, Bool.not_true, Bool.false_eq_true, if_false,
    Bool.false_or]

theorem fastAdc_live :
    fastAdc k i live s =
      let dst := k.get i i.op0 s.core
      let src := k.get i i.op1 s.core
      (s.assign live (adcValues k dst src (s.flag .cf) i.op0.size)).map
        (k.set i i.op0 (dst + src + s.flag .cf)) := by
  refine State.ext (by simp [fastAdc]) fun f ↦ ?_
  cases f <;> simp [fastAdc, State.map, State.flag_emit, State.flag_assign, adcValues, live]

theorem logic_live {op : U64 → U64 → U64} (hnone : atomicOperand i = none) :
    logic k i live op s =
      let result := op (k.get i i.op0 s.core) (k.get i i.op1 s.core)
      (s.assign (butAf live) (logicValues k result i.op0.size)).map (k.set i i.op0 result) := by
  simp only [logic, hnone, setLogicFlags_eq]

theorem fastTest_live :
    fastTest k i live s =
      let result := k.get i i.op0 s.core &&& k.get i i.op1 s.core
      s.assign (butAf live) (logicValues k result i.op0.size) := by
  refine State.ext (by simp [fastTest, live]) fun f ↦ ?_
  cases f <;> simp [fastTest, State.flag_emit, State.flag_assign, logicValues, butAf, live]

end

section

variable {k i} {s : State ρ}

theorem incDec_live {step : U64} {af : U64 → U64 → U64} {of : U64 → U64 → Size → U64}
    (hnone : atomicOperand i = none) :
    incDec k i live step af of s =
      let dst := k.get i i.op0 s.core
      (s.assign (butCf live) (incDecValues k af of dst (dst + step) i.op0.size)).map
        (k.set i i.op0 (dst + step)) := by
  simp only [incDec, hnone]
  refine State.ext (by simp) fun f ↦ ?_
  cases f <;> simp [State.map, State.flag_emit, State.flag_assign, incDecValues, butCf, live]

end

section

variable {size : Size} {dst : U64}

theorem low_one (size : Size) : low size 1 = 1 := by
  apply BitVec.eq_of_toNat_eq
  exact toNat_low size 1

theorem holds_incValues (old : U64) (f : Flag) :
    Effect.Holds (Flags.get (X86.inc (low size dst)).flags f) old
      (if butCf live f then f.stored (incDecValues k Config.updateAuxiliaryAdd
        (fun dst res ↦ Config.updateOverflowAdd dst 1 res) dst (dst + 1) size f) else old) := by
  have hsum := sum_low_false size dst 1
  cases f
  case cf => rfl
  all_goals rw [if_pos (by decide), X86.inc, ← low_one size]; apply holds_set
  case pf => rw [hsum]; exact k.updateParity_eq size _
  case af => exact Config.updateAuxiliaryAdd_eq size dst 1
  case zf => rw [hsum]; exact k.updateZero_eq size _
  case sf => rw [hsum]; exact Config.updateSign_eq size _
  case of => exact Config.updateOverflowAdd_eq hsum.symm

theorem holds_decValues (old : U64) (f : Flag) :
    Effect.Holds (Flags.get (X86.dec (low size dst)).flags f) old
      (if butCf live f then f.stored (incDecValues k (fun dst _ ↦ Config.updateAuxiliarySub dst 1)
        (fun dst res ↦ Config.updateOverflowSub dst 1 res) dst (dst + -1) size f) else old) := by
  have hdiff := difference_low_false size dst 1
  rw [BitVec.sub_eq_add_neg] at hdiff
  cases f
  case cf => rfl
  all_goals rw [if_pos (by decide), X86.dec, ← low_one size]; apply holds_set
  case pf => rw [hdiff]; exact k.updateParity_eq size _
  case af => exact Config.updateAuxiliarySub_eq size dst 1
  case zf => rw [hdiff]; exact k.updateZero_eq size _
  case sf => rw [hdiff]; exact Config.updateSign_eq size _
  case of => exact Config.updateOverflowSub_eq hdiff.symm

end

/-! ## The instructions -/

inductive ArithOp
  | add
  | adc
  | sub
  | cmp
  | inc
  | dec
  | and
  | or
  | xor
  | test
deriving DecidableEq, Repr

def ArithOp.mnemonic : ArithOp → Mnemonic ρ
  | .add => .add
  | .adc => .adc
  | .sub => .sub
  | .cmp => .cmp
  | .inc => .inc
  | .dec => .dec
  | .and => .and
  | .or => .or
  | .xor => .xor
  | .test => .test

/-- What the instruction does with its operands and the carry flag. -/
def ArithOp.outcome {w : ℕ} (op : ArithOp) (a b : BitVec w) (c : Bool) : Outcome w :=
  match op with
  | .add => X86.add a b
  | .adc => X86.adc a b c
  | .sub => X86.sub a b
  | .cmp => X86.cmp a b
  | .inc => X86.inc a
  | .dec => X86.dec a
  | .and => X86.logic (a &&& b)
  | .or => X86.logic (a ||| b)
  | .xor => X86.logic (a ^^^ b)
  | .test => X86.test a b

/-- `INC` and `DEC` have one operand. -/
def ArithOp.unary (op : ArithOp) : Bool := op = .inc || op = .dec

/-- The operands that an instruction can have: a general register or memory, and for the source also
an immediate of any value. -/
def ArithOp.Operands (op : ArithOp) (i : Insn) : Prop :=
  i.op0.Place ∧ (op.unary = false → i.op1.Source i.op0.size.bits)

/-- What the instruction does with the operands it finds. -/
def ArithOp.expected (op : ArithOp) (c : Core ρ) (carry : Bool) : Outcome i.op0.size.bits :=
  op.outcome (i.op0.value k i i.op0.size.bits c) (i.op1.value k i i.op0.size.bits c) carry

section

variable {k i} {s : State ρ}

theorem atomicOperand_none (hplain : i.op0.isMem = false ∨ i.lock = false) :
    atomicOperand i = none := by
  rcases hplain with hmem | hlock
  · rw [atomicOperand]
    split
    · next h => simp [h, Operand.isMem] at hmem
    · next h => simp [h, Operand.isMem] at hmem
    · rfl
  · exact atomicOperand_plain hlock

theorem does_logic {op : U64 → U64 → U64} {f : BitVec i.op0.size.bits → BitVec i.op0.size.bits →
      BitVec i.op0.size.bits}
    (hf : ∀ a b, low i.op0.size (op a b) = f (low i.op0.size a) (low i.op0.size b))
    (hop : i.op0.Place) (hop1 : i.op1.Source i.op0.size.bits) (hnone : atomicOperand i = none) :
    Does k i (X86.logic (f (i.op0.value k i i.op0.size.bits s.core)
      (i.op1.value k i i.op0.size.bits s.core))) s (logic k i live op s) := by
  rw [logic_live hnone, ← k.low_get i hop1, ← k.low_get_place i hop, ← hf]
  exact does_assign hop rfl fun f ↦ holds_logicValues k _ _ f

/-- A register is zero after an exclusive or with itself. -/
theorem does_zeroIdiom {r : Ref} (hidiom : zeroIdiom i = some r) :
    Does k i (ArithOp.xor.expected k i s.core false) s (fastXor k i live s) := by
  obtain ⟨size, hop, hop1, hsize⟩ : ∃ size, i.op0 = .reg r size ∧ i.op1 = .reg r size ∧
      (size = .dword ∨ size = .qword) := by
    rw [zeroIdiom] at hidiom
    split at hidiom
    · next r₀ size₀ r₁ size₁ h₀ h₁ =>
      split at hidiom
      · next h =>
        obtain ⟨rfl, rfl, hsize⟩ := h
        exact ⟨size₀, Option.some_inj.mp hidiom ▸ h₀, Option.some_inj.mp hidiom ▸ h₁, hsize⟩
      · cases hidiom
    · cases hidiom
  have hexpected : ArithOp.xor.expected k i s.core false = X86.logic 0 := by
    simp only [ArithOp.expected, ArithOp.outcome, hop, hop1, BitVec.xor_self]
    rfl
  have hcore : i.op0.assign k i 0 s.core = s.core.write r 0 := by
    obtain ⟨_, _, _, _, _, _, _, _, op0, _, _⟩ := i
    subst hop
    obtain rfl | rfl := hsize <;> rfl
  rw [hexpected, fastXor, hidiom]
  constructor
  · simp only [State.core_emit, State.core_map]
    exact hcore.symm
  · intro f
    cases f <;> simp [State.flag_emit, live, Flags.get, X86.logic, resultFlags,
      Effect.Holds, asFlag, Flag.stored, zextb]

theorem low_and (size : Size) (a b : U64) : low size (a &&& b) = low size a &&& low size b :=
  BitVec.setWidth_and ..

theorem low_or (size : Size) (a b : U64) : low size (a ||| b) = low size a ||| low size b :=
  BitVec.setWidth_or ..

theorem low_xor (size : Size) (a b : U64) : low size (a ^^^ b) = low size a ^^^ low size b :=
  BitVec.setWidth_xor ..

theorem fastOr_live : fastOr k i live s = logic k i live (· ||| ·) s := by
  simp [fastOr, needsAnyButAf, live]

theorem fastXor_live (hidiom : zeroIdiom i = none) :
    fastXor k i live s = logic k i live (· ^^^ ·) s := by
  simp [fastXor, hidiom, needsAnyButAf, live]

/-- Without an atomic access the instruction does what it should. -/
theorem does_arith {op : ArithOp} {carry : Bool} (hop : op.Operands i)
    (hz : k.mode32 → Zext s.core) (hcarry : s.flag .cf = asFlag carry)
    (hplain : i.op0.isMem = false ∨ i.lock = false) :
    ∃ s', Instr.exec k live ⟨op.mnemonic, i⟩ s = some s' ∧
      Does k i (op.expected k i s.core carry) s s' := by
  obtain ⟨hplace, hsource⟩ := hop
  have hdst := get_place_lt k i hz hplace
  have hnone := atomicOperand_none hplain
  have hlow := k.low_get_place i hplace s.core
  cases op with
  | add =>
    have hsrc := hsource rfl
    refine ⟨_, fastAdd_live hplain, ?_⟩
    rw [ArithOp.expected, ← k.low_get i hsrc, ← hlow]
    exact does_assign hplace (congrArg some (sum_low_false ..)) fun f ↦ holds_addValues k hdst f _
  | adc =>
    have hsrc := hsource rfl
    refine ⟨_, congrArg some fastAdc_live, ?_⟩
    rw [ArithOp.expected, ← k.low_get i hsrc, ← hlow, hcarry]
    exact does_assign hplace (congrArg some (sum_low ..)) fun f ↦ holds_adcValues k carry hdst f _
  | sub =>
    have hsrc := hsource rfl
    have htest := compared_eq k i hz hsrc
    refine ⟨_, congrArg some (fastSub_live hnone), ?_⟩
    rw [ArithOp.expected, ← k.low_get i hsrc, ← hlow]
    exact does_assign hplace (congrArg some (difference_low_false ..)) fun f ↦
      holds_cmpValues k hdst htest f _
  | cmp =>
    have hsrc := hsource rfl
    have htest := compared_eq k i hz hsrc
    refine ⟨_, congrArg some fastCmp_live, ?_⟩
    rw [ArithOp.expected, ← k.low_get i hsrc, ← hlow]
    exact ⟨rfl, fun f ↦ holds_cmpValues k hdst htest f _⟩
  | inc =>
    refine ⟨_, congrArg some (incDec_live hnone), ?_⟩
    rw [ArithOp.expected, ← hlow]
    refine does_assign hplace (congrArg some ?_) fun f ↦ holds_incValues k _ f
    rw [← low_one]
    exact sum_low_false ..
  | dec =>
    refine ⟨_, congrArg some (incDec_live hnone), ?_⟩
    rw [ArithOp.expected, ← hlow]
    refine does_assign hplace (congrArg some ?_) fun f ↦ holds_decValues k _ f
    rw [← low_one, ← BitVec.sub_eq_add_neg]
    exact difference_low_false ..
  | and => exact ⟨_, rfl, does_logic (low_and _) hplace (hsource rfl) hnone⟩
  | or => exact ⟨_, congrArg some fastOr_live, does_logic (low_or _) hplace (hsource rfl) hnone⟩
  | xor =>
    cases hidiom : zeroIdiom i with
    | none =>
      exact ⟨_, congrArg some (fastXor_live hidiom),
        does_logic (low_xor _) hplace (hsource rfl) hnone⟩
    | some r => exact ⟨_, rfl, does_zeroIdiom hidiom⟩
  | test =>
    have hsrc := hsource rfl
    refine ⟨_, congrArg some fastTest_live, ?_⟩
    rw [ArithOp.expected, ← k.low_get i hsrc, ← hlow, ArithOp.outcome, X86.test, ← low_and]
    exact ⟨rfl, fun f ↦ holds_logicValues k _ _ f⟩

end

/-! ## The atomic forms -/

/-- The atomic form comes out as the other one does, if there is one. -/
def ArithOp.LockRight (op : ArithOp) (c : Core ρ) : Prop :=
  i.lock → ∀ m size, i.op0 = .mem m size → LockAgrees k live ⟨op.mnemonic, i⟩ m size c

section

variable {k i} {s : State ρ}

/-- With the prefix the instruction leaves the same state, or its flags come from a register that
the form without the prefix does not have. -/
theorem exec_lock_iff (op : ArithOp) {m : MemOperand} {size : Size} (hop : i.op0 = .mem m size)
    (haddress : k.lea i m true s.core = k.address i m s.core)
    (haligned : size.bytes ∣ (k.address i m s.core).toNat) :
    Instr.exec k live ⟨op.mnemonic, { i with lock := true }⟩ s =
        Instr.exec k live ⟨op.mnemonic, { i with lock := false }⟩ s ↔
      LockAgrees k live ⟨op.mnemonic, i⟩ m size s.core := by
  cases op with
  | add => exact fastAdd_lock_iff hop haddress haligned
  | sub => exact (Option.some_inj ..).trans (fastSub_lock_iff hop haddress)
  | adc => exact iff_of_true rfl trivial
  | cmp => exact iff_of_true rfl trivial
  | test => exact iff_of_true rfl trivial
  | inc => exact iff_of_true (congrArg some (fastInc_lock hop haddress)) trivial
  | dec => exact iff_of_true (congrArg some (fastDec_lock hop haddress)) trivial
  | and => exact iff_of_true (congrArg some (logic_lock LowEq.and hop haddress)) trivial
  | or => exact iff_of_true (congrArg some (fastOr_lock hop haddress)) trivial
  | xor => exact iff_of_true (congrArg some (fastXor_lock hop haddress)) trivial

/-- The prefix changes neither the operands nor what should happen to them. -/
theorem does_of_lock {op : ArithOp} {carry lock : Bool} {t : State ρ}
    (h : Does k { i with lock := lock } (op.expected k { i with lock := lock } s.core carry) s t) :
    Does k i (op.expected k i s.core carry) s t := by
  have hvalue (x : Operand) (w : ℕ) :
      x.value k { i with lock := lock } w s.core = x.value k i w s.core := by
    cases x <;> rfl
  have hassign (x : Operand) (v : BitVec x.size.bits) :
      x.assign k { i with lock := lock } v s.core = x.assign k i v s.core := by
    cases x <;> rfl
  have hexpected : op.expected k { i with lock := lock } s.core carry =
      op.expected k i s.core carry := by
    rw [ArithOp.expected, ArithOp.expected, hvalue, hvalue]
  rw [hexpected] at h
  refine ⟨h.core.trans ?_, h.flag⟩
  cases (op.expected k i s.core carry).value with
  | none => rfl
  | some v => exact hassign i.op0 v

/-- Where forms differ, all the flags are defined. -/
theorem ArithOp.expected_defined {op : ArithOp} (hop : op = .add ∨ op = .sub) (c : Core ρ)
    (carry : Bool) (f : Flag) : Flags.get (op.expected k i c carry).flags f ≠ .undefined := by
  obtain rfl | rfl := hop <;> cases f <;> exact Effect.noConfusion

end

/-- With all flags live an instruction does what the manual says exactly if it has no `LOCK` prefix,
or its atomic form computes the same flags nevertheless. Registers have zero upper halves in 32-bit
mode, and the operand of an atomic access is aligned and addressed the same in both forms. -/
theorem arith_iff (op : ArithOp) (s : State ρ) (carry : Bool) (hop : op.Operands i)
    (hz : k.mode32 → Zext s.core) (hcarry : s.flag .cf = asFlag carry)
    (hatomic : i.lock → ∀ m size, i.op0 = .mem m size →
      k.lea i m true s.core = k.address i m s.core ∧ size.bytes ∣ (k.address i m s.core).toNat) :
    (∃ s', Instr.exec k live ⟨op.mnemonic, i⟩ s = some s' ∧
      Does k i (op.expected k i s.core carry) s s') ↔ op.LockRight k i s.core := by
  by_cases hplain : i.op0.isMem = false ∨ i.lock = false
  · refine iff_of_true (does_arith hop hz hcarry hplain) fun hlock m size hmem ↦ ?_
    rcases hplain with h | h
    · simp [hmem, Operand.isMem] at h
    · simp [hlock] at h
  · obtain ⟨hismem, hislock⟩ := not_or.mp hplain
    have hlock : i.lock = true := by simpa using hislock
    obtain ⟨m, size, hmem⟩ : ∃ m size, i.op0 = .mem m size := by
      cases h : i.op0 with
      | mem m size => exact ⟨m, size, rfl⟩
      | _ => simp [h, Operand.isMem] at hismem
    obtain ⟨haddress, haligned⟩ := hatomic hlock m size hmem
    have hpre : { i with lock := true } = i := by rw [← hlock]
    have hforms := exec_lock_iff op hmem haddress haligned
    rw [hpre] at hforms
    obtain ⟨t, hexec, hplainDoes⟩ :=
      does_arith (i := { i with lock := false }) hop hz hcarry (.inr rfl)
    have hdoes := does_of_lock hplainDoes
    have hright : op.LockRight k i s.core ↔ LockAgrees k live ⟨op.mnemonic, i⟩ m size s.core := by
      refine ⟨fun h ↦ h hlock m size hmem, fun h _ m' size' hmem' ↦ ?_⟩
      rw [hmem] at hmem'
      cases hmem'
      exact h
    rw [hright, ← hforms, hexec]
    constructor
    · rintro ⟨s', hexec', hdoes'⟩
      by_cases hop' : op = .add ∨ op = .sub
      · rw [hexec', Does.unique (ArithOp.expected_defined hop' s.core carry) hdoes' hdoes]
      · rw [← hexec, hforms]
        cases op <;> simp_all [LockAgrees, ArithOp.mnemonic]
    · intro h
      exact ⟨t, h, hdoes⟩

/-- `LOCK ADD` of one to five. -/
theorem arith_iff_lockedAdd :
    ∃ s', Instr.exec (.default false) live ⟨ArithOp.add.mnemonic, ((addAt 1).withLock true).insn⟩
        (.withDword 5) = some s' ∧
      Does (.default false) ((addAt 1).withLock true).insn
        (ArithOp.add.expected (.default false) ((addAt 1).withLock true).insn
          (State.withDword 5).core false) (.withDword 5) s' := by
  refine (arith_iff (.default false) ((addAt 1).withLock true).insn .add (.withDword 5) false
    ⟨trivial, fun _ ↦ trivial⟩ (fun hmode ↦ absurd hmode (by decide)) rfl
    fun _ m size hop ↦ ?_).mpr fun _ m size hop ↦ ?_
  · cases hop
    exact ⟨by decide, by decide⟩
  · cases hop
    exact fun _ _ ↦ .inl (by decide)

/-- `LOCK ADD` of zero to `0x80000000` sets `CF`. -/
theorem not_does_lockedAdd :
    ¬ ∃ s', Instr.exec (.default false) live ⟨ArithOp.add.mnemonic, ((addAt 0).withLock true).insn⟩
        (.withDword 0x80000000) = some s' ∧
      Does (.default false) ((addAt 0).withLock true).insn
        (ArithOp.add.expected (.default false) ((addAt 0).withLock true).insn
          (State.withDword 0x80000000).core false) (.withDword 0x80000000) s' := by
  rintro ⟨s', hexec, hdoes⟩
  have hcf : s'.flag .cf = asFlag false := hdoes.flag .cf
  have hset := congrArg (fun t ↦ t.map fun s ↦ s.flag .cf) hexec
  rw [Option.map_some, hcf] at hset
  revert hset
  decide

/-! ## `SBB` -/

section

variable {size : Size} {dst src : U64}

theorem snez_signMask (size : Size) (v : U64) :
    snez (v &&& getSignMask size) = asFlag (low size v).msb := by
  have hpos := size.le_bits
  have hbits := size.bits_le
  have hmask : getSignMask size = BitVec.twoPow 64 (size.bits - 1) := by
    rw [getSignMask, BitVec.twoPow_eq]
    rfl
  have hbit : (low size v).msb = v.getLsbD (size.bits - 1) := by
    rw [BitVec.msb_eq_getLsbD_last, getLsbD_low v (by omega)]
  rw [hmask, BitVec.and_twoPow, hbit]
  cases v.getLsbD (size.bits - 1) with
  | false => rfl
  | true =>
    have hne : BitVec.twoPow 64 (size.bits - 1) ≠ 0 := by cases size <;> decide
    exact if_neg hne

theorem sbbOverflow_eq (size : Size) (dst src : U64) (c : Bool) :
    sbbOverflow dst src (dst - src) (asFlag c) (dst - src - asFlag c) size =
      asFlag ((low size dst).ssubOverflow (low size src) ||
        (low size dst - low size src).ssubOverflow ((BitVec.ofBool c).setWidth size.bits)) := by
  rw [sbbOverflow, snez_signMask, snez_signMask, asFlag_or, X86.ssubOverflow_eq_signs,
    X86.ssubOverflow_eq_signs]
  simp only [low_and, low_xor, low_sub, low_asFlag, BitVec.msb_and, BitVec.msb_xor]
  congr 2
  rw [Bool.and_comm]

/-- The flags of `SBB`; `test` is the source as it is compared. -/
def sbbValues (dst src cf test : U64) (size : Size) : Flag → U64
  | .cf => sltu dst test ||| sltu (k.zext size (dst - src)) cf
  | .pf => k.updateParity (dst - src - cf)
  | .af => Config.updateAuxiliarySbb dst src (dst - src) cf
  | .zf => k.updateZero (dst - src - cf) size
  | .sf => Config.updateSign (dst - src - cf) size
  | .of => sbbOverflow dst src (dst - src) cf (dst - src - cf) size

/-- All the flags are right, if the overflow is. -/
theorem holds_sbbValues (c : Bool) {test : U64} (hdst : dst.toNat < 2 ^ size.bits)
    (htest : test.toNat = (low size src).toNat)
    (hover : ¬ (c ∧ (low size dst).toInt - (low size src).toInt = 2 ^ (size.bits - 1))) (f : Flag)
    (old : U64) :
    Effect.Holds (Flags.get (X86.sbb (low size dst) (low size src) c).flags f) old
      (f.stored (sbbValues k dst src (asFlag c) test size f)) := by
  have hdiff := difference_low size dst src c
  have hbits := size.le_bits
  cases f <;> apply holds_set
  case cf => exact k.carrySbb_eq hdst htest
  case pf => rw [hdiff]; exact k.updateParity_eq size _
  case af => exact Config.updateAuxiliarySbb_eq size dst src c
  case zf => rw [hdiff]; exact k.updateZero_eq size _
  case sf => rw [hdiff]; exact Config.updateSign_eq size _
  case of => rw [← (X86.twoStepOverflow_iff _ _ c (by omega)).mpr hover]; exact sbbOverflow_eq ..

end

theorem fastSbb_live {s : State ρ} :
    fastSbb k i live s =
      let dst := k.get i i.op0 s.core
      let src := k.get i i.op1 s.core
      let test := if zextSrc i i.op0.size then k.zext i.op0.size src else src
      (s.assign live (sbbValues k dst src (s.flag .cf) test i.op0.size)).map
        (k.set i i.op0 (dst - src - s.flag .cf)) := by
  refine State.ext (by simp [fastSbb]) fun f ↦ ?_
  cases f <;> simp [fastSbb, State.map, State.flag_emit, State.flag_assign, sbbValues, live]

/-- What `SBB` should do with the operands it finds. -/
def sbbExpected (c : Core ρ) (carry : Bool) : Outcome i.op0.size.bits :=
  X86.sbb (i.op0.value k i i.op0.size.bits c) (i.op1.value k i i.op0.size.bits c) carry

/-- The first of the two subtractions ends one above the largest signed number, and the borrow
brings the result back into range. -/
def OneAbove (c : Core ρ) (carry : Bool) : Prop :=
  carry ∧ (i.op0.value k i i.op0.size.bits c).toInt - (i.op1.value k i i.op0.size.bits c).toInt =
    2 ^ (i.op0.size.bits - 1)

instance (c : Core ρ) (carry : Bool) : Decidable (OneAbove k i c carry) :=
  inferInstanceAs (Decidable (_ ∧ _))

/-- With all flags live `SBB` does what the manual says, except where only the first of its two
subtractions overflows. -/
theorem sbb_iff (s : State ρ) (carry : Bool) (hop : i.op0.Place)
    (hop1 : i.op1.Source i.op0.size.bits) (hz : k.mode32 → Zext s.core)
    (hcarry : s.flag .cf = asFlag carry) :
    (∃ s', Instr.exec k live ⟨.sbb, i⟩ s = some s' ∧
      Does k i (sbbExpected k i s.core carry) s s') ↔ ¬ OneAbove k i s.core carry := by
  have hdst := get_place_lt k i hz hop
  have htest := compared_eq k i hz hop1
  have hexec : Instr.exec k live ⟨.sbb, i⟩ s = some _ := congrArg some (fastSbb_live k i)
  rw [hcarry] at hexec
  rw [hexec, sbbExpected, OneAbove, ← k.low_get i hop1, ← k.low_get_place i hop]
  constructor
  · rintro ⟨s', hs', hdoes⟩
    cases hs'
    have hof := hdoes.flag .of
    have hbits := i.op0.size.le_bits
    refine (X86.twoStepOverflow_iff _ _ carry (by omega)).mp (asFlag_inj.mp ?_)
    rw [← sbbOverflow_eq]
    exact hof
  · intro hover
    exact ⟨_, rfl, does_assign hop (congrArg some (difference_low ..)) fun f ↦
      holds_sbbValues k carry hdst htest hover f _⟩

/-- `SBB AL` with an immediate. -/
def sbbLow (v : U64) : Insn :=
  ((Mnemonic.sbb : Mnemonic Unit).on .byte (.reg rax .byte) (.imm v .byte)).insn

/-- The state in which only the carry flag is set. -/
def State.withCarry : State Unit := State.zero.setFlag .cf 1

theorem sbb_iff_sbbLow :
    ∃ s', Instr.exec (.default false) live ⟨.sbb, sbbLow 1⟩ State.withCarry = some s' ∧
      Does (.default false) (sbbLow 1)
        (sbbExpected (.default false) (sbbLow 1) State.withCarry.core true) .withCarry s' :=
  (sbb_iff (.default false) (sbbLow 1) .withCarry true trivial trivial
    (fun h ↦ absurd h (by decide)) (by decide)).mpr (by decide)

/-- `0 - (-128) - 1` is in the range of a byte, but `OF` is set. -/
theorem not_does_sbbLow :
    ¬ ∃ s', Instr.exec (.default false) live ⟨.sbb, sbbLow (-128)⟩ State.withCarry = some s' ∧
      Does (.default false) (sbbLow (-128))
        (sbbExpected (.default false) (sbbLow (-128)) State.withCarry.core true) .withCarry s' := by
  rintro ⟨s', hexec, hdoes⟩
  have hof : s'.flag .of = asFlag false := hdoes.flag .of
  have hset := congrArg (fun t ↦ t.map fun s ↦ s.flag .of) hexec
  rw [Option.map_some, hof] at hset
  revert hset
  decide

end Jit

end Felix86
