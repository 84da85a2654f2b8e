import Felix86.V2.ExtensionB
import Mathlib.Tactic.FinCases

/-!
# What handlers do with flags

`shouldEmitFlag` tells a handler which flags to compute. What a handler does then comes in two
parts. A flag that is needed is computed in the same way, whichever other flags are needed; there
are two exceptions, `TEST` and `SHL`. And when all flags are needed, a handler writes some of them,
reads some and leaves the others alone.

Next to this stand the tables of the decoder: which flags an instruction tests, which it may change,
and which it leaves undefined.
-/

namespace Felix86

namespace Jit

open Riscv

/-! ## What an instruction has to do with flags -/

section Tables

variable {ρ : Type*}

/-- The flags in a condition, by the low four bits of the opcode. -/
def condTests (cond : Fin 16) (f : Flag) : Bool :=
  match cond.val / 2 with
  | 0 => f = .of
  | 1 => f = .cf
  | 2 => f = .zf
  | 3 => f = .cf || f = .zf
  | 4 => f = .sf
  | 5 => f = .pf
  | 6 => f = .sf || f = .of
  | _ => f = .sf || f = .of || f = .zf

/-- The flags that an instruction tests. -/
def Mnemonic.tests (m : Mnemonic ρ) (f : Flag) : Bool :=
  match m with
  | .adc | .sbb | .rcl | .rcr | .cmc => f = .cf
  | .jcc cond | .cmov cond | .setcc cond | .fcmov cond _ => condTests cond f
  | .loope | .loopne => f = .zf
  | .lahf => f ≠ .of
  | .pushf => true
  | _ => false

/-- The flags that an instruction may modify or leave undefined. -/
def Mnemonic.mayChange (m : Mnemonic ρ) (f : Flag) : Bool :=
  match m with
  | .add | .sub | .sbb | .adc | .cmp | .or | .xor | .and | .test | .neg | .xadd | .cmpxchg => true
  | .shl | .shr | .sar | .shld | .shrd | .imul _ | .mul | .div | .idiv => true
  | .bsf | .bsr | .tzcnt | .blsr | .cmps | .scas | .popf | .iretd | .syscall _ => true
  | .comis _ | .ptest .. | .fcomi .. | .pcmpxstrx .. => true
  | .inc | .dec => f ≠ .cf
  | .rol | .ror | .rcl | .rcr => f = .cf || f = .of
  | .bt | .btc | .bts | .btr => f ≠ .zf
  | .cmpxchg8b | .cmpxchg16b => f = .zf
  | .clc | .stc | .cmc => f = .cf
  | .sahf => f ≠ .of
  | _ => false

/-- The masked count of a shift or a rotate. -/
def Instr.shiftCount (k : Config) (x : Instr ρ) (c : Core ρ) : ℕ :=
  let i := x.insn
  match x.mnemonic with
  | .shld | .shrd => (variableCount k i i.width i.op2 c).toNat
  | .rol | .ror => (variableCount k i i.op0.size i.op1 c).toNat
  | .shl | .shr | .sar =>
    if i.op1.isImm then immediateCount i else (variableCount k i i.width i.op1 c).toNat
  | _ => (variableCount k i i.width i.op1 c).toNat

/-- The flags that the handler writes when all of them are needed. A count of zero writes none. -/
def Instr.writes (k : Config) (x : Instr ρ) (c : Core ρ) (f : Flag) : Bool :=
  let i := x.insn
  let count := x.shiftCount k c
  match x.mnemonic with
  | .add | .sub | .sbb | .adc | .cmp | .neg | .xadd | .cmpxchg => true
  | .or | .xor | .and | .test => f ≠ .af
  | .inc | .dec => f ≠ .cf
  | .shl | .shr => count ≠ 0 && f ≠ .af && (f ≠ .of || !i.op1.isImm || count = 1)
  | .sar | .shld | .shrd => count ≠ 0 && f ≠ .af
  | .rol | .ror => count ≠ 0 && (f = .cf || f = .of)
  | .rcl | .rcr | .imul _ | .mul => f = .cf || f = .of
  | .bsf | .bsr => f = .zf
  | .tzcnt => f = .cf || f = .zf
  | .bt | .btc | .bts | .btr | .clc | .stc | .cmc => f = .cf
  | .blsr => f = .cf || f = .zf || f = .sf
  | .cmpxchg8b | .cmpxchg16b => i.op0.isMem && f = .zf
  | .cmps | .scas => i.rep = .none || (stringRegs k i c).rcx ≠ 0
  | .sahf => f ≠ .of
  | .fcomi .. => f = .cf || f = .pf || f = .zf
  | .popf | .comis _ | .ptest .. | .pcmpxstrx .. => true
  | _ => false

/-- The flags that have no defined value after an instruction. -/
def Instr.undefines (k : Config) (x : Instr ρ) (c : Core ρ) (f : Flag) : Bool :=
  let i := x.insn
  let count := x.shiftCount k c
  match x.mnemonic with
  | .or | .xor | .and | .test => f = .af
  | .shl | .shr =>
    count ≠ 0 && (f = .af || (f = .of && count ≠ 1) || (f = .cf && i.op0.size.bits ≤ count))
  | .sar => count ≠ 0 && (f = .af || (f = .of && count ≠ 1))
  | .shld | .shrd => count ≠ 0 && (f = .af || (f = .of && count ≠ 1) || i.width.bits < count)
  | .rol | .ror | .rcl | .rcr => f = .of && count ≠ 0 && count ≠ 1
  | .imul _ | .mul => f ≠ .cf && f ≠ .of
  | .div | .idiv => true
  | .bsf | .bsr => f ≠ .zf
  | .tzcnt => f ≠ .cf && f ≠ .zf
  | .bt | .btc | .bts | .btr => f ≠ .cf && f ≠ .zf
  | .blsr => f = .af || f = .pf
  | _ => false

end Tables

/-! ## Agreement -/

variable {ρ : Type*}

/-- The states differ in the flags outside `l` at most. -/
structure State.Agree (l : Flag → Prop) (s t : State ρ) : Prop where
  core : s.core = t.core
  flag : ∀ f, l f → s.flag f = t.flag f

namespace State.Agree

variable {l l' : Flag → Prop} {s t u : State ρ}

theorem refl (s : State ρ) : s.Agree l s := ⟨rfl, fun _ _ ↦ rfl⟩

theorem trans (h : s.Agree l t) (h' : t.Agree l u) : s.Agree l u :=
  ⟨h.core.trans h'.core, fun f hf ↦ (h.flag f hf).trans (h'.flag f hf)⟩

theorem mono (h : s.Agree l t) (hl : ∀ f, l' f → l f) : s.Agree l' t :=
  ⟨h.core, fun f hf ↦ h.flag f (hl f hf)⟩

theorem map (h : s.Agree l t) (g : Core ρ → Core ρ) : (s.map g).Agree l (t.map g) :=
  ⟨congrArg g h.core, h.flag⟩

/-- Flags that are written are the same afterwards. -/
theorem assign {e : Flag → Bool} (v : Flag → U64) (h : s.Agree (fun f ↦ l f ∧ e f = false) t) :
    (s.assign e v).Agree l (t.assign e v) := by
  refine ⟨h.core, fun f hf ↦ ?_⟩
  rw [State.flag_assign, State.flag_assign]
  split
  · rfl
  · next he => exact h.flag f ⟨hf, by simpa using he⟩

/-- A flag that is needed is written in either case. -/
theorem assign_needed {e : Flag → Bool} (v : Flag → U64) :
    (s.assign e v).Agree (fun f ↦ e f = true) (s.assign (fun _ ↦ true) v) := by
  refine ⟨rfl, fun f hf ↦ ?_⟩
  rw [State.flag_assign, State.flag_assign, if_pos hf, if_pos rfl]

end State.Agree

@[simp] theorem State.flag_map (s : State ρ) (g : Core ρ → Core ρ) : (s.map g).flag = s.flag := rfl

/-! ## The flags that are needed

A handler computes a flag that is needed in the same way, whichever other flags are needed. -/

section Needed

variable {k : Config} {i : Insn} {e : Flag → Bool} {s : State ρ}

theorem agree_fastAdd (hi : i.Sized) :
    Option.Rel (State.Agree fun f ↦ e f = true) (fastAdd k i e s)
      (fastAdd k i (fun _ ↦ true) s) := by
  simp only [fastAdd_eq k s hi, setAddFlags_eq]
  split
  · cases lockedAdd k i (k.get i i.op1 s.core) s.core with
    | none => exact .none
    | some p => exact .some (.assign_needed _)
  · exact .some (State.Agree.map (.assign_needed _) _)

theorem agree_fastSub (hi : i.Sized) :
    (fastSub k i e s).Agree (fun f ↦ e f = true) (fastSub k i (fun _ ↦ true) s) := by
  simp only [fastSub_eq k s hi, setCmpFlags_eq, Bool.false_or]
  cases atomicOperand i with
  | some p => exact .assign_needed _
  | none => exact State.Agree.map (.assign_needed _) _

theorem agree_logic (op : U64 → U64 → U64) :
    (logic k i e op s).Agree (fun f ↦ e f = true) (logic k i (fun _ ↦ true) op s) := by
  have hbut (t : State ρ) (v : Flag → U64) :
      (t.assign (butAf e) v).Agree (fun f ↦ e f = true) (t.assign (butAf fun _ ↦ true) v) := by
    refine ⟨rfl, fun f hf ↦ ?_⟩
    simp [State.flag_assign, butAf, hf]
  simp only [logic, setLogicFlags_eq]
  cases atomicOperand i with
  | some p => exact hbut ..
  | none => exact (hbut ..).map _

theorem agree_fastSbb :
    (fastSbb k i e s).Agree (fun f ↦ e f = true) (fastSbb k i (fun _ ↦ true) s) := by
  refine ⟨by simp [fastSbb], fun f hf ↦ ?_⟩
  cases f <;> simp [fastSbb, State.flag_emit, hf]

theorem agree_fastAdc :
    (fastAdc k i e s).Agree (fun f ↦ e f = true) (fastAdc k i (fun _ ↦ true) s) := by
  refine ⟨by simp [fastAdc], fun f hf ↦ ?_⟩
  cases f <;> simp [fastAdc, State.flag_emit, hf]

theorem agree_fastNeg :
    (fastNeg k i e s).Agree (fun f ↦ e f = true) (fastNeg k i (fun _ ↦ true) s) := by
  refine ⟨by simp [fastNeg], fun f hf ↦ ?_⟩
  cases f <;> simp [fastNeg, State.flag_emit, hf]

theorem needsAny_of {f : Flag} (hf : e f = true) : needsAny e = true := by
  cases f <;> simp [needsAny, hf]

theorem agree_fastCmp :
    (fastCmp k i e s).Agree (fun f ↦ e f = true) (fastCmp k i (fun _ ↦ true) s) := by
  simp only [fastCmp, setCmpFlags_eq, Bool.false_or]
  by_cases he : needsAny e = true
  · rw [if_neg (by simp [he]), if_neg (by simp [needsAny])]
    exact .assign_needed _
  · rw [if_pos (by simp [he]), if_neg (by simp [needsAny])]
    exact ⟨rfl, fun f hf ↦ absurd (needsAny_of hf) he⟩

theorem agree_incDec (step : U64) (af : U64 → U64 → U64) (of : U64 → U64 → Size → U64) :
    (incDec k i e step af of s).Agree (fun f ↦ e f = true)
      (incDec k i (fun _ ↦ true) step af of s) := by
  simp only [incDec]
  cases atomicOperand i with
  | some p =>
    refine ⟨by simp, fun f hf ↦ ?_⟩
    cases f <;> simp [State.flag_emit, hf]
  | none =>
    refine ⟨by simp, fun f hf ↦ ?_⟩
    cases f <;> simp [State.flag_emit, hf]

theorem agree_fastXor (hi : i.Sized) :
    (fastXor k i e s).Agree (fun f ↦ e f = true) (fastXor k i (fun _ ↦ true) s) := by
  cases hzero : zeroIdiom i with
  | some r =>
    refine ⟨by simp [fastXor, hzero], fun f hf ↦ ?_⟩
    cases f <;> simp [fastXor, hzero, State.flag_emit, hf]
  | none =>
    rw [fastXor_eq k s hi hzero, fastXor_eq k s hi hzero]
    exact agree_logic _

theorem agree_fastTest (hcf : e .cf = e .of) :
    (fastTest k i e s).Agree (fun f ↦ e f = true ∧ f ≠ .af) (fastTest k i (fun _ ↦ true) s) := by
  have hall : ∀ f, e f = true → f ≠ .af → (e .pf || e .sf || e .zf || e .of || e .cf) = true := by
    intro f hf haf
    cases f <;> simp_all
  refine ⟨by simp only [fastTest]; split <;> simp, ?_⟩
  rintro f ⟨hf, haf⟩
  simp only [fastTest, hall f hf haf, Bool.or_true, Bool.not_true, Bool.false_eq_true, if_false]
  cases f <;> simp_all [State.flag_emit]

theorem agree_fastShlImm (hof : immediateCount i = 1 → e .of = true → e .cf = true) :
    (fastShlImm k i e s).Agree (fun f ↦ e f = true) (fastShlImm k i (fun _ ↦ true) s) := by
  simp only [fastShlImm]
  split
  · refine ⟨by simp, fun f hf ↦ ?_⟩
    cases f with
    | of =>
      by_cases hone : immediateCount i = 1
      · simp [State.flag_emit, setShiftFlags, hf, hone, hof hone hf]
      · simp [State.flag_emit, setShiftFlags, hone]
    | _ => simp [State.flag_emit, setShiftFlags, hf]
  · exact .refl _

@[simp] theorem flag_shiftZero : (shiftZero k i s).flag = s.flag := by
  rw [shiftZero]
  split <;> rfl

theorem agree_fastShrImm :
    (fastShrImm k i e s).Agree (fun f ↦ e f = true) (fastShrImm k i (fun _ ↦ true) s) := by
  simp only [fastShrImm]
  split
  · refine ⟨by simp, fun f hf ↦ ?_⟩
    cases f <;> simp [State.flag_emit, setShiftFlags, hf]
  · exact .refl _

theorem agree_fastSarImm :
    (fastSarImm k i e s).Agree (fun f ↦ e f = true) (fastSarImm k i (fun _ ↦ true) s) := by
  simp only [fastSarImm]
  split
  · refine ⟨by simp, fun f hf ↦ ?_⟩
    cases f <;> simp [State.flag_emit, setShiftFlags, hf]
  · exact .refl _

theorem agree_fastSar :
    (fastSar k i e s).Agree (fun f ↦ e f = true) (fastSar k i (fun _ ↦ true) s) := by
  simp only [fastSar]
  split
  · exact agree_fastSarImm
  · split
    · exact .refl _
    · refine ⟨by simp, fun f hf ↦ ?_⟩
      cases f <;> simp [State.flag_emit, setShiftFlags, hf]

theorem agree_doubleShift (value carry : U64 → U64 → U64 → U64 → U64) :
    (doubleShift k i e value carry s).Agree (fun f ↦ e f = true)
      (doubleShift k i (fun _ ↦ true) value carry s) := by
  simp only [doubleShift]
  split
  · exact .refl _
  · refine ⟨by simp, fun f hf ↦ ?_⟩
    cases f <;> simp [State.flag_emit, hf]

theorem flag_af_fastShr : (fastShr k i e s).flag .af = s.flag .af := by
  simp only [fastShr, fastShrImm, shiftNoflags]
  repeat' split
  all_goals simp [State.flag_emit, setShiftFlags]

theorem flag_af_fastShl : (fastShl k i e s).flag .af = s.flag .af := by
  simp only [fastShl, fastShlImm, shiftNoflags]
  repeat' split
  all_goals simp [State.flag_emit, setShiftFlags]

theorem agree_fastShr (hi : FastOp.shr.Decoded i) (hz : k.mode32 → Zext s.core) :
    (fastShr k i e s).Agree (fun f ↦ e f = true) (fastShr k i (fun _ ↦ true) s) := by
  refine ⟨FastOp.core_fastShr hi.1 hi.2.1 hi.2.2 hz, fun f hf ↦ ?_⟩
  by_cases haf : f = .af
  · rw [haf, flag_af_fastShr, flag_af_fastShr]
  have hany : (e .cf || e .of || e .pf || e .sf || e .zf) = true := by
    cases f <;> simp_all
  simp only [fastShr, hany, Bool.or_true, Bool.not_true, Bool.and_false, Bool.false_eq_true,
    if_false]
  split
  · exact agree_fastShrImm.flag f hf
  · split
    · rfl
    · cases f <;> simp [State.flag_emit, setShiftFlags, hf]

theorem agree_fastShl (hi : FastOp.shl.Decoded i)
    (hof : i.op1.isImm → immediateCount i = 1 → e .of = true → e .cf = true) :
    (fastShl k i e s).Agree
      (fun f ↦ e f = true ∧ (i.op1.isImm = false → f = .of →
        variableCount k i i.width i.op1 s.core ≠ 0 → e .cf = true))
      (fastShl k i (fun _ ↦ true) s) := by
  refine ⟨FastOp.core_fastShl hi.1 hi.2.1, ?_⟩
  rintro f ⟨hf, hcf⟩
  by_cases haf : f = .af
  · rw [haf, flag_af_fastShl, flag_af_fastShl]
  have hany : (e .cf || e .of || e .pf || e .sf || e .zf) = true := by
    cases f <;> simp_all
  simp only [fastShl, hany, Bool.or_true, Bool.not_true, Bool.and_false, Bool.false_eq_true,
    if_false]
  split
  · next himm => exact (agree_fastShlImm (hof himm)).flag f hf
  · next himm =>
    split
    · rfl
    · next hcount =>
      cases f with
      | of => simp [State.flag_emit, setShiftFlags, hf, hcf (by simpa using himm) rfl hcount]
      | _ => simp [State.flag_emit, setShiftFlags, hf]

theorem agree_fastRcl :
    (fastRcl k i e s).Agree (fun f ↦ e f = true) (fastRcl k i (fun _ ↦ true) s) := by
  refine ⟨by simp [fastRcl], fun f hf ↦ ?_⟩
  cases f <;> simp [fastRcl, State.flag_emit, State.flag_setFlag, hf]

theorem agree_fastRcr :
    (fastRcr k i e s).Agree (fun f ↦ e f = true) (fastRcr k i (fun _ ↦ true) s) := by
  refine ⟨by simp [fastRcr], fun f hf ↦ ?_⟩
  cases f <;> simp [fastRcr, State.flag_emit, State.flag_setFlag, hf]

theorem agree_setMulFlags (v : U64) :
    (setMulFlags e v s).Agree (fun f ↦ e f = true) (setMulFlags (fun _ ↦ true) v s) := by
  refine ⟨by simp, fun f hf ↦ ?_⟩
  rw [setMulFlags, setMulFlags]
  split
  · rfl
  · cases f <;> simp_all [State.flag_setFlag]

theorem agree_fastMul :
    (fastMul k i e s).Agree (fun f ↦ e f = true) (fastMul k i (fun _ ↦ true) s) := by
  simp only [fastMul]
  split <;> exact (agree_setMulFlags _).map _

theorem agree_imul1 :
    (imul1 k i e s).Agree (fun f ↦ e f = true) (imul1 k i (fun _ ↦ true) s) := by
  simp only [imul1]
  split <;> exact (agree_setMulFlags _).map _

theorem agree_fastImul {opcount : ℕ} (hi : opcount = 1 ∨ i.Imul (opcount = 3)) :
    (fastImul k i e opcount s).Agree (fun f ↦ e f = true)
      (fastImul k i (fun _ ↦ true) opcount s) := by
  refine ⟨FastOp.core_fastImul hi, fun f hf ↦ ?_⟩
  simp only [fastImul]
  split
  · exact agree_imul1.flag f hf
  · simp only [imul23]
    split
    · cases f <;> simp_all [imulNoflags, State.flag_setFlag]
    · simp

theorem flag_rolNoflags (size : Size) : (rolNoflags k i size s).flag = s.flag := by
  unfold rolNoflags
  dsimp only
  split <;> rfl

theorem agree_fastRol (hi : FastOp.rol.Decoded i) (hz : k.mode32 → Zext s.core)
    (hclear : ¬FastOp.ClearsUpper k i e .rol s) :
    (fastRol k i e s).Agree (fun f ↦ e f = true) (fastRol k i (fun _ ↦ true) s) := by
  refine ⟨(FastOp.core_fastRol_iff hi hz).mpr hclear, fun f hf ↦ ?_⟩
  simp only [fastRol]
  split
  · next hshort =>
    have hne : f ≠ .cf ∧ f ≠ .of := by
      constructor <;> rintro rfl <;> simp [hf] at hshort
    rw [flag_rolNoflags]
    simp only [Bool.or_true, Bool.not_true, Bool.and_false, Bool.false_eq_true, if_false]
    split
    · rfl
    · simp [State.flag_setFlag, hne]
  · simp

theorem agree_fastBts :
    (fastBts k i e s).Agree (fun f ↦ e f = true) (fastBts k i (fun _ ↦ true) s) := by
  simp only [fastBts, bitInstruction]
  split
  · exact .refl _
  · refine ⟨by simp [bitTest], fun f hf ↦ ?_⟩
    cases f <;> simp [bitTest, State.flag_emit, hf]

theorem agree_fastBlsr :
    (fastBlsr k i e s).Agree (fun f ↦ e f = true) (fastBlsr k i (fun _ ↦ true) s) := by
  refine ⟨by simp [fastBlsr], fun f hf ↦ ?_⟩
  cases f <;> simp [fastBlsr, State.flag_emit, hf]

theorem agree_fastXadd :
    (fastXadd k i e s).Agree (fun f ↦ e f = true) (fastXadd k i (fun _ ↦ true) s) := by
  simp only [fastXadd, setAddFlags_eq]
  cases atomicOperand i with
  | some p =>
    dsimp only
    cases i.op1 with
    | reg r size => exact State.Agree.map (.assign_needed _) _
    | _ => exact .assign_needed _
  | none => exact State.Agree.map (.assign_needed _) _

theorem agree_comis (r : Comparison) :
    (comis e r s).Agree (fun f ↦ e f = true) (comis (fun _ ↦ true) r s) := by
  refine ⟨by simp [comis], fun f hf ↦ ?_⟩
  cases f <;> simp [comis, State.flag_emit, State.flag_setFlag, hf]

theorem agree_fastPtest (zero carry : Bool) :
    (fastPtest e zero carry s).Agree (fun f ↦ e f = true)
      (fastPtest (fun _ ↦ true) zero carry s) := by
  refine ⟨by simp [fastPtest], fun f hf ↦ ?_⟩
  cases f <;> simp [fastPtest, State.flag_emit, hf]

theorem agree_cmpxchgLock (m : MemOperand) :
    Option.Rel (State.Agree fun f ↦ e f = true) (cmpxchgLock k i e m s)
      (cmpxchgLock k i (fun _ ↦ true) m s) := by
  have hfinish (old dst : U64) (c : Core ρ) (t : State ρ) :
      (let u := setCmpFlags k e old dst (old - dst) i.width false false { t with core := c }
        if old - dst = 0 then u else u.map (k.setRef rax i.width dst)).Agree (fun f ↦ e f = true)
      (let u := setCmpFlags k (fun _ ↦ true) old dst (old - dst) i.width false false
          { t with core := c }
        if old - dst = 0 then u else u.map (k.setRef rax i.width dst)) := by
    simp only [setCmpFlags_eq, Bool.false_or]
    split
    · exact .assign_needed _
    · exact State.Agree.map (.assign_needed _) _
  unfold cmpxchgLock
  dsimp only
  split
  · split
    · exact .none
    · exact .some (hfinish ..)
  · split
    · exact .none
    · exact .some (hfinish ..)
  · split
    · exact .none
    · exact .some (hfinish ..)
  · exact .some (hfinish ..)
  · exact .some (hfinish ..)

theorem agree_fastCmpxchg :
    Option.Rel (State.Agree fun f ↦ e f = true) (fastCmpxchg k i e s)
      (fastCmpxchg k i (fun _ ↦ true) s) := by
  unfold fastCmpxchg
  split
  · exact agree_cmpxchgLock _
  · simp only [setCmpFlags_eq, Bool.false_or]
    exact .some (State.Agree.map (.assign_needed _) _)

theorem compareRun_needed (body : StringRegs → U64 × U64 × StringRegs) :
    (compareRun k i e body s).1 = (compareRun k i (fun _ ↦ true) body s).1 ∧
      ∀ f, e f = true →
        (compareRun k i e body s).2 f = (compareRun k i (fun _ ↦ true) body s).2 f := by
  simp only [compareRun, stringRun, setCmpFlags_eq]
  by_cases hrep : i.rep = .none
  · simp only [hrep, if_true, ne_eq, not_true, decide_false, Bool.false_or]
    exact ⟨trivial, (State.Agree.assign_needed _).flag⟩
  · simp [hrep]

theorem agree_fastCmps :
    (fastCmps k i e s).Agree (fun f ↦ e f = true) (fastCmps k i (fun _ ↦ true) s) := by
  obtain ⟨hregs, hflag⟩ := compareRun_needed (k := k) (i := i) (e := e) (s := s) fun r ↦
    (s.core.mem.load r.rsi i.width.bytes, s.core.mem.load r.rdi i.width.bytes,
      { r with rdi := r.rdi + stringStep i s.core, rsi := r.rsi + stringStep i s.core })
  simp only [fastCmps]
  rw [hregs]
  exact ⟨rfl, hflag⟩

theorem agree_fastScas :
    (fastScas k i e s).Agree (fun f ↦ e f = true) (fastScas k i (fun _ ↦ true) s) := by
  obtain ⟨hregs, hflag⟩ := compareRun_needed (k := k) (i := i) (e := e) (s := s) fun r ↦
    (k.getRef rax i.width s.core, s.core.mem.load r.rdi i.width.bytes,
      { r with rdi := r.rdi + stringStep i s.core })
  simp only [fastScas]
  rw [hregs]
  exact ⟨rfl, hflag⟩

end Needed

/-! ## All flags

When all flags are needed, a handler writes some flags, reads some and leaves the others alone. Here
it runs in two states that differ in their flags. -/

section Same

variable {k : Config} {i : Insn} {c : Core ρ} {g g' : Flag → U64} {l : Flag → Prop}

/-- Flags that are all written do not depend on what they were. -/
theorem same_assign {s t : State ρ} (h : s.core = t.core) (v : Flag → U64) :
    (s.assign (fun _ ↦ true) v).Agree l (t.assign (fun _ ↦ true) v) :=
  .assign _ ⟨h, fun _ h ↦ absurd h.2 (by decide)⟩

theorem same_fastAdd (hi : i.Sized) :
    Option.Rel (State.Agree l) (fastAdd k i (fun _ ↦ true) ⟨c, g⟩)
      (fastAdd k i (fun _ ↦ true) ⟨c, g'⟩) := by
  simp only [fastAdd_eq k _ hi, setAddFlags_eq]
  split
  · cases lockedAdd k i (k.get i i.op1 c) c with
    | none => exact .none
    | some p => exact .some (same_assign rfl _)
  · exact .some (State.Agree.map (same_assign rfl _) _)

theorem same_fastSub (hi : i.Sized) :
    (fastSub k i (fun _ ↦ true) ⟨c, g⟩).Agree l (fastSub k i (fun _ ↦ true) ⟨c, g'⟩) := by
  simp only [fastSub_eq k _ hi, setCmpFlags_eq, Bool.false_or]
  cases atomicOperand i with
  | some p => exact same_assign rfl _
  | none => exact (same_assign rfl _).map _

theorem same_fastSbb (hcf : g .cf = g' .cf) :
    (fastSbb k i (fun _ ↦ true) ⟨c, g⟩).Agree l (fastSbb k i (fun _ ↦ true) ⟨c, g'⟩) := by
  refine ⟨by simp [fastSbb, hcf], fun f _ ↦ ?_⟩
  cases f <;> simp [fastSbb, State.flag_emit, hcf]

theorem same_fastAdc (hcf : g .cf = g' .cf) :
    (fastAdc k i (fun _ ↦ true) ⟨c, g⟩).Agree l (fastAdc k i (fun _ ↦ true) ⟨c, g'⟩) := by
  refine ⟨by simp [fastAdc, hcf], fun f _ ↦ ?_⟩
  cases f <;> simp [fastAdc, State.flag_emit, hcf]

theorem same_fastNeg :
    (fastNeg k i (fun _ ↦ true) ⟨c, g⟩).Agree l (fastNeg k i (fun _ ↦ true) ⟨c, g'⟩) := by
  refine ⟨by simp [fastNeg], fun f _ ↦ ?_⟩
  cases f <;> simp [fastNeg, State.flag_emit]

theorem same_fastCmp :
    (fastCmp k i (fun _ ↦ true) ⟨c, g⟩).Agree l (fastCmp k i (fun _ ↦ true) ⟨c, g'⟩) := by
  simp only [fastCmp, setCmpFlags_eq, needsAny, Bool.or_true, Bool.not_true, Bool.false_eq_true,
    if_false]
  exact same_assign rfl _

theorem same_logic (op : U64 → U64 → U64) :
    (logic k i (fun _ ↦ true) op ⟨c, g⟩).Agree (fun f ↦ f ≠ .af ∨ g f = g' f)
      (logic k i (fun _ ↦ true) op ⟨c, g'⟩) := by
  have hbut (c : Core ρ) (v : Flag → U64) : (State.assign ⟨c, g⟩ (butAf fun _ ↦ true) v).Agree
      (fun f ↦ f ≠ .af ∨ g f = g' f) (State.assign ⟨c, g'⟩ (butAf fun _ ↦ true) v) := by
    refine .assign _ ⟨rfl, ?_⟩
    rintro f ⟨hne | heq, haf⟩
    · simp [butAf, hne] at haf
    · exact heq
  simp only [logic, setLogicFlags_eq]
  cases atomicOperand i with
  | some p => exact hbut ..
  | none => exact (hbut ..).map _

theorem same_fastXor (hi : i.Sized) :
    (fastXor k i (fun _ ↦ true) ⟨c, g⟩).Agree (fun f ↦ f ≠ .af ∨ g f = g' f)
      (fastXor k i (fun _ ↦ true) ⟨c, g'⟩) := by
  cases hzero : zeroIdiom i with
  | some r =>
    refine ⟨by simp [fastXor, hzero], fun f hf ↦ ?_⟩
    cases f <;> simp_all [fastXor, State.flag_emit]
  | none =>
    rw [fastXor_eq k _ hi hzero, fastXor_eq k _ hi hzero]
    exact same_logic _

theorem same_fastTest :
    (fastTest k i (fun _ ↦ true) ⟨c, g⟩).Agree (fun f ↦ f ≠ .af ∨ g f = g' f)
      (fastTest k i (fun _ ↦ true) ⟨c, g'⟩) := by
  refine ⟨by simp [fastTest], fun f hf ↦ ?_⟩
  cases f <;> simp_all [fastTest, State.flag_emit]

theorem same_incDec (step : U64) (af : U64 → U64 → U64) (of : U64 → U64 → Size → U64) :
    (incDec k i (fun _ ↦ true) step af of ⟨c, g⟩).Agree (fun f ↦ f ≠ .cf ∨ g f = g' f)
      (incDec k i (fun _ ↦ true) step af of ⟨c, g'⟩) := by
  simp only [incDec]
  cases atomicOperand i with
  | some p =>
    refine ⟨by simp, fun f hf ↦ ?_⟩
    cases f <;> simp_all [State.flag_emit]
  | none =>
    refine ⟨by simp, fun f hf ↦ ?_⟩
    cases f <;> simp_all [State.flag_emit]

/-- A shift by zero. -/
theorem same_shiftZero :
    (shiftZero k i ⟨c, g⟩).Agree (fun f ↦ g f = g' f) (shiftZero k i ⟨c, g'⟩) := by
  unfold shiftZero
  split <;> exact ⟨rfl, fun _ h ↦ h⟩

theorem same_fastShl : (fastShl k i (fun _ ↦ true) ⟨c, g⟩).Agree
    (fun f ↦ Instr.writes k ⟨.shl, i⟩ c f = true ∨ g f = g' f)
    (fastShl k i (fun _ ↦ true) ⟨c, g'⟩) := by
  simp only [fastShl, Instr.writes, Instr.shiftCount, Bool.or_true, Bool.not_true, Bool.and_false,
    Bool.false_eq_true, if_false]
  split
  · next himm =>
    simp only [fastShlImm]
    split
    · next hcount =>
      refine ⟨by simp, fun f hf ↦ ?_⟩
      by_cases hone : immediateCount i = 1 <;>
        cases f <;> simp_all [State.flag_emit, setShiftFlags]
    · next hcount => exact same_shiftZero.mono fun f hf ↦ by simpa [not_not.mp hcount] using hf
  · next himm =>
    split
    · next hcount => exact ⟨rfl, fun f hf ↦ by simpa [hcount] using hf⟩
    · next hcount =>
      refine ⟨by simp, fun f hf ↦ ?_⟩
      cases f <;> simp_all [State.flag_emit, setShiftFlags]

theorem same_fastShr : (fastShr k i (fun _ ↦ true) ⟨c, g⟩).Agree
    (fun f ↦ Instr.writes k ⟨.shr, i⟩ c f = true ∨ g f = g' f)
    (fastShr k i (fun _ ↦ true) ⟨c, g'⟩) := by
  simp only [fastShr, Instr.writes, Instr.shiftCount, Bool.or_true, Bool.not_true, Bool.and_false,
    Bool.false_eq_true, if_false]
  split
  · next himm =>
    simp only [fastShrImm]
    split
    · next hcount =>
      refine ⟨by simp, fun f hf ↦ ?_⟩
      by_cases hone : immediateCount i = 1 <;>
        cases f <;> simp_all [State.flag_emit, setShiftFlags]
    · next hcount => exact same_shiftZero.mono fun f hf ↦ by simpa [not_not.mp hcount] using hf
  · next himm =>
    split
    · next hcount => exact ⟨rfl, fun f hf ↦ by simpa [hcount] using hf⟩
    · next hcount =>
      refine ⟨by simp, fun f hf ↦ ?_⟩
      cases f <;> simp_all [State.flag_emit, setShiftFlags]

theorem same_fastSar : (fastSar k i (fun _ ↦ true) ⟨c, g⟩).Agree
    (fun f ↦ Instr.writes k ⟨.sar, i⟩ c f = true ∨ g f = g' f)
    (fastSar k i (fun _ ↦ true) ⟨c, g'⟩) := by
  simp only [fastSar, Instr.writes, Instr.shiftCount]
  split
  · next himm =>
    simp only [fastSarImm]
    split
    · next hcount =>
      refine ⟨by simp, fun f hf ↦ ?_⟩
      cases f <;> simp_all [State.flag_emit, setShiftFlags]
    · next hcount => exact same_shiftZero.mono fun f hf ↦ by simpa [not_not.mp hcount] using hf
  · next himm =>
    split
    · next hcount => exact ⟨rfl, fun f hf ↦ by simpa [hcount] using hf⟩
    · next hcount =>
      refine ⟨by simp, fun f hf ↦ ?_⟩
      cases f <;> simp_all [State.flag_emit, setShiftFlags]

theorem same_doubleShift (value carry : U64 → U64 → U64 → U64 → U64) :
    (doubleShift k i (fun _ ↦ true) value carry ⟨c, g⟩).Agree
      (fun f ↦ (variableCount k i i.width i.op2 c).toNat ≠ 0 ∧ f ≠ .af ∨ g f = g' f)
      (doubleShift k i (fun _ ↦ true) value carry ⟨c, g'⟩) := by
  simp only [doubleShift]
  split
  · next hcount => exact ⟨rfl, fun f hf ↦ by simpa [hcount] using hf⟩
  · next hcount =>
    refine ⟨by simp, fun f hf ↦ ?_⟩
    cases f <;> simp_all [State.flag_emit]

theorem same_fastRol : (fastRol k i (fun _ ↦ true) ⟨c, g⟩).Agree
    (fun f ↦ Instr.writes k ⟨.rol, i⟩ c f = true ∨ g f = g' f)
    (fastRol k i (fun _ ↦ true) ⟨c, g'⟩) := by
  simp only [fastRol, Instr.writes, Instr.shiftCount, Bool.or_true, Bool.not_true, Bool.and_false,
    Bool.false_eq_true, if_false]
  split
  · next hcount => exact ⟨rfl, fun f hf ↦ by simpa [hcount] using hf⟩
  · next hcount =>
    refine ⟨by simp, fun f hf ↦ ?_⟩
    cases f <;> simp_all [State.flag_setFlag]

theorem same_fastRor : (fastRor k i ⟨c, g⟩).Agree
    (fun f ↦ Instr.writes k ⟨.ror, i⟩ c f = true ∨ g f = g' f) (fastRor k i ⟨c, g'⟩) := by
  simp only [fastRor, Instr.writes, Instr.shiftCount]
  split
  · next hcount => exact ⟨rfl, fun f hf ↦ by simpa [hcount] using hf⟩
  · next hcount =>
    refine ⟨by simp, fun f hf ↦ ?_⟩
    cases f <;> simp_all [State.flag_setFlag]

theorem same_fastRcl (hcf : g .cf = g' .cf) : (fastRcl k i (fun _ ↦ true) ⟨c, g⟩).Agree
    (fun f ↦ (f = .cf ∨ f = .of) ∨ g f = g' f) (fastRcl k i (fun _ ↦ true) ⟨c, g'⟩) := by
  refine ⟨by simp [fastRcl, hcf], fun f hf ↦ ?_⟩
  cases f <;> simp_all [fastRcl, State.flag_emit, State.flag_setFlag]

theorem same_fastRcr (hcf : g .cf = g' .cf) : (fastRcr k i (fun _ ↦ true) ⟨c, g⟩).Agree
    (fun f ↦ (f = .cf ∨ f = .of) ∨ g f = g' f) (fastRcr k i (fun _ ↦ true) ⟨c, g'⟩) := by
  refine ⟨by simp [fastRcr, hcf], fun f hf ↦ ?_⟩
  cases f <;> simp_all [fastRcr, State.flag_emit, State.flag_setFlag]

theorem same_setMulFlags (v : U64) : (setMulFlags (fun _ ↦ true) v ⟨c, g⟩).Agree
    (fun f ↦ (f = .cf ∨ f = .of) ∨ g f = g' f) (setMulFlags (fun _ ↦ true) v ⟨c, g'⟩) := by
  refine ⟨by simp, fun f hf ↦ ?_⟩
  cases f <;> simp_all [setMulFlags, State.flag_setFlag]

theorem same_fastMul : (fastMul k i (fun _ ↦ true) ⟨c, g⟩).Agree
    (fun f ↦ (f = .cf ∨ f = .of) ∨ g f = g' f) (fastMul k i (fun _ ↦ true) ⟨c, g'⟩) := by
  simp only [fastMul]
  split <;> exact (same_setMulFlags _).map _

theorem same_fastImul (opcount : ℕ) : (fastImul k i (fun _ ↦ true) opcount ⟨c, g⟩).Agree
    (fun f ↦ (f = .cf ∨ f = .of) ∨ g f = g' f) (fastImul k i (fun _ ↦ true) opcount ⟨c, g'⟩) := by
  simp only [fastImul]
  split
  · simp only [imul1]
    split <;> exact (same_setMulFlags _).map _
  · simp only [imul23, Bool.not_true, Bool.and_false, Bool.false_eq_true, if_false]
    refine ⟨by simp, fun f hf ↦ ?_⟩
    cases f <;> simp_all [State.flag_setFlag]

theorem same_divide (value : Core ρ → Option (Core ρ)) :
    Option.Rel (State.Agree fun f ↦ g f = g' f) (divide i value ⟨c, g⟩)
      (divide i value ⟨c, g'⟩) := by
  simp only [divide]
  cases value c with
  | none => exact .none
  | some c' =>
    refine .some ⟨rfl, fun f hf ↦ ?_⟩
    dsimp only
    split
    · exact congrArg zextb hf
    · exact hf

theorem same_bitScan (value : U64 → U64) : (bitScan k i value ⟨c, g⟩).Agree
    (fun f ↦ f = .zf ∨ g f = g' f) (bitScan k i value ⟨c, g'⟩) := by
  simp only [bitScan]
  split
  · refine ⟨rfl, fun f hf ↦ ?_⟩
    cases f <;> simp_all [State.flag_setFlag]
  · refine ⟨rfl, fun f hf ↦ ?_⟩
    cases f <;> simp_all [State.flag_setFlag]

theorem same_fastTzcnt : (fastTzcnt k i ⟨c, g⟩).Agree
    (fun f ↦ (f = .cf ∨ f = .zf) ∨ g f = g' f) (fastTzcnt k i ⟨c, g'⟩) := by
  refine ⟨rfl, fun f hf ↦ ?_⟩
  cases f <;> simp_all [fastTzcnt, State.flag_setFlag]

theorem same_bitInstruction (update : Option (U64 → U64 → U64))
    (updateByte : BitVec 8 → BitVec 8 → BitVec 8) :
    (bitInstruction k i true update updateByte ⟨c, g⟩).Agree (fun f ↦ f = .cf ∨ g f = g' f)
      (bitInstruction k i true update updateByte ⟨c, g'⟩) := by
  simp only [bitInstruction]
  split
  · refine ⟨rfl, fun f hf ↦ ?_⟩
    cases f <;> simp_all [bitString, State.throughThreadState, State.flag_setFlag]
  · simp only [bitTest]
    cases update with
    | some u =>
      refine ⟨rfl, fun f hf ↦ ?_⟩
      cases f <;> simp_all [State.flag_emit]
    | none =>
      refine ⟨rfl, fun f hf ↦ ?_⟩
      cases f <;> simp_all [State.flag_emit]

theorem same_fastBlsr : (fastBlsr k i (fun _ ↦ true) ⟨c, g⟩).Agree
    (fun f ↦ (f = .cf ∨ f = .zf ∨ f = .sf) ∨ g f = g' f) (fastBlsr k i (fun _ ↦ true) ⟨c, g'⟩) := by
  refine ⟨by simp [fastBlsr], fun f hf ↦ ?_⟩
  cases f <;> simp_all [fastBlsr, State.flag_emit]

theorem same_fastXadd :
    (fastXadd k i (fun _ ↦ true) ⟨c, g⟩).Agree l (fastXadd k i (fun _ ↦ true) ⟨c, g'⟩) := by
  simp only [fastXadd, setAddFlags_eq]
  cases atomicOperand i with
  | some p =>
    dsimp only
    cases i.op1 with
    | reg r size => exact (same_assign rfl _).map _
    | _ => exact same_assign rfl _
  | none => exact (same_assign rfl _).map _

theorem same_cmpxchgLock (m : MemOperand) :
    Option.Rel (State.Agree l) (cmpxchgLock k i (fun _ ↦ true) m ⟨c, g⟩)
      (cmpxchgLock k i (fun _ ↦ true) m ⟨c, g'⟩) := by
  have hfinish (old dst : U64) (c : Core ρ) (g g' : Flag → U64) :
      (let u := setCmpFlags k (fun _ ↦ true) old dst (old - dst) i.width false false ⟨c, g⟩
        if old - dst = 0 then u else u.map (k.setRef rax i.width dst)).Agree l
      (let u := setCmpFlags k (fun _ ↦ true) old dst (old - dst) i.width false false ⟨c, g'⟩
        if old - dst = 0 then u else u.map (k.setRef rax i.width dst)) := by
    simp only [setCmpFlags_eq, Bool.false_or]
    split
    · exact same_assign rfl _
    · exact (same_assign rfl _).map _
  unfold cmpxchgLock
  dsimp only
  split
  · split
    · exact .none
    · exact .some (hfinish ..)
  · split
    · exact .none
    · exact .some (hfinish ..)
  · split
    · exact .none
    · exact .some (hfinish ..)
  · exact .some (hfinish ..)
  · exact .some (hfinish ..)

theorem same_fastCmpxchg :
    Option.Rel (State.Agree l) (fastCmpxchg k i (fun _ ↦ true) ⟨c, g⟩)
      (fastCmpxchg k i (fun _ ↦ true) ⟨c, g'⟩) := by
  unfold fastCmpxchg
  split
  · exact same_cmpxchgLock _
  · simp only [setCmpFlags_eq, Bool.false_or]
    exact .some ((same_assign rfl _).map _)

theorem same_fastCmpxchg8b : (fastCmpxchg8b k i ⟨c, g⟩).Agree
    (fun f ↦ (i.op0.isMem = true ∧ f = .zf) ∨ g f = g' f) (fastCmpxchg8b k i ⟨c, g'⟩) := by
  unfold fastCmpxchg8b
  split
  · dsimp only
    split
    all_goals
      refine ⟨rfl, fun f hf ↦ ?_⟩
      cases f <;> simp_all [State.flag_setFlag]
  · next hop =>
    refine ⟨rfl, fun f hf ↦ ?_⟩
    refine hf.resolve_left fun h ↦ ?_
    cases hop0 : i.op0 <;> simp_all [Operand.isMem]

theorem same_fastCmpxchg16b : (fastCmpxchg16b k i ⟨c, g⟩).Agree
    (fun f ↦ (i.op0.isMem = true ∧ f = .zf) ∨ g f = g' f) (fastCmpxchg16b k i ⟨c, g'⟩) := by
  unfold fastCmpxchg16b
  split
  · refine ⟨rfl, fun f hf ↦ ?_⟩
    cases f <;> simp_all [State.flag_setFlag]
  · next hop =>
    refine ⟨rfl, fun f hf ↦ ?_⟩
    refine hf.resolve_left fun h ↦ ?_
    cases hop0 : i.op0 <;> simp_all [Operand.isMem]

theorem same_fastPopf : (fastPopf k ⟨c, g⟩).Agree l (fastPopf k ⟨c, g'⟩) := by
  refine ⟨rfl, fun f _ ↦ ?_⟩
  cases f <;> simp [fastPopf, setFlags, State.flag_setFlag]

theorem same_fastSahf :
    (fastSahf k ⟨c, g⟩).Agree (fun f ↦ f ≠ .of ∨ g f = g' f) (fastSahf k ⟨c, g'⟩) := by
  refine ⟨rfl, fun f hf ↦ ?_⟩
  cases f <;> simp_all [fastSahf, State.flag_setFlag]

theorem same_comis (r : Comparison) :
    (comis (fun _ ↦ true) r ⟨c, g⟩).Agree l (comis (fun _ ↦ true) r ⟨c, g'⟩) := by
  refine ⟨rfl, fun f _ ↦ ?_⟩
  cases f <;> simp [comis, State.flag_emit, State.flag_setFlag]

theorem same_fastPtest (zero carry : Bool) :
    (fastPtest (fun _ ↦ true) zero carry ⟨c, g⟩).Agree l
      (fastPtest (fun _ ↦ true) zero carry ⟨c, g'⟩) := by
  refine ⟨rfl, fun f _ ↦ ?_⟩
  cases f <;> simp [fastPtest, State.flag_emit]

theorem same_fcomi (r : Comparison) (next : ρ) : (fcomi r next ⟨c, g⟩).Agree
    (fun f ↦ (f = .cf ∨ f = .pf ∨ f = .zf) ∨ g f = g' f) (fcomi r next ⟨c, g'⟩) := by
  refine ⟨rfl, fun f hf ↦ ?_⟩
  cases f <;> simp_all [fcomi, State.flag_setFlag]

/-- The flags are those of the last comparison. -/
theorem same_compareRun (k : Config) (i : Insn) (c : Core ρ) (g g' : Flag → U64)
    (body : StringRegs → U64 × U64 × StringRegs) :
    (compareRun k i (fun _ ↦ true) body ⟨c, g⟩).1 = (compareRun k i (fun _ ↦ true) body ⟨c, g'⟩).1 ∧
      ∀ f, (i.rep = .none ∨ (stringRegs k i c).rcx ≠ 0) ∨ g f = g' f →
        (compareRun k i (fun _ ↦ true) body ⟨c, g⟩).2 f =
          (compareRun k i (fun _ ↦ true) body ⟨c, g'⟩).2 f := by
  simp only [compareRun, stringRun, setCmpFlags_eq, Bool.or_true, State.assign, if_true]
  split
  · exact ⟨rfl, fun f _ ↦ rfl⟩
  · next hrep =>
    split
    · next hcx => 
      refine ⟨rfl, fun f hf ↦ ?_⟩
      obtain (h | h) | h := hf
      · exact absurd h hrep
      · exact absurd hcx h
      · exact h
    · next hcx =>
      -- the first round writes all flags
      have hne : (stringRegs k i c).rcx.toNat ≠ 0 := fun h ↦ hcx (BitVec.eq_of_toNat_eq h)
      obtain ⟨n, hn⟩ := Nat.exists_eq_succ_of_ne_zero hne
      rw [hn]
      exact ⟨rfl, fun f _ ↦ rfl⟩

theorem same_fastCmps : (fastCmps k i (fun _ ↦ true) ⟨c, g⟩).Agree
    (fun f ↦ (i.rep = .none ∨ (stringRegs k i c).rcx ≠ 0) ∨ g f = g' f)
    (fastCmps k i (fun _ ↦ true) ⟨c, g'⟩) := by
  obtain ⟨hregs, hflag⟩ := same_compareRun k i c g g' fun r ↦
    (c.mem.load r.rsi i.width.bytes, c.mem.load r.rdi i.width.bytes,
      { r with rdi := r.rdi + stringStep i c, rsi := r.rsi + stringStep i c })
  simp only [fastCmps]
  rw [hregs]
  exact ⟨rfl, hflag⟩

theorem same_fastScas : (fastScas k i (fun _ ↦ true) ⟨c, g⟩).Agree
    (fun f ↦ (i.rep = .none ∨ (stringRegs k i c).rcx ≠ 0) ∨ g f = g' f)
    (fastScas k i (fun _ ↦ true) ⟨c, g'⟩) := by
  obtain ⟨hregs, hflag⟩ := same_compareRun k i c g g' fun r ↦
    (k.getRef rax i.width c, c.mem.load r.rdi i.width.bytes,
      { r with rdi := r.rdi + stringStep i c })
  simp only [fastScas]
  rw [hregs]
  exact ⟨rfl, hflag⟩

end Same

/-! ## Instructions -/

/-- The short path of a handler, if it has one. -/
def Mnemonic.fastOp : Mnemonic ρ → Option FastOp
  | .add => some .add
  | .sub => some .sub
  | .or => some .or
  | .xor => some .xor
  | .shl => some .shl
  | .shr => some .shr
  | .sar => some .sar
  | .imul opcount => some (.imul opcount)
  | .rol => some .rol
  | _ => none

/-- The flags that are needed do not get in each other's way. `TEST` asks for `OF` to decide about
`CF` and the reverse, `SHL` takes `OF` from the register of `CF`, and the short path of `ROL` clears
the upper half of a register. -/
structure Instr.NeedsOk (k : Config) (e : Flag → Bool) (x : Instr ρ) (c : Core ρ) : Prop where
  zext : k.mode32 → Zext c
  test : x.mnemonic = .test → e .cf = e .of
  shl : x.mnemonic = .shl → x.shiftCount k c = 1 → e .of = true → e .cf = true
  rol : x.mnemonic = .rol → ¬FastOp.ClearsUpper k x.insn e .rol (⟨c, fun _ ↦ 0⟩ : State ρ)

section Exec

variable {l l' : Flag → Prop} {o o' o'' : Option (State ρ)}

theorem rel_mono (h : Option.Rel (State.Agree l) o o') (hl : ∀ f, l' f → l f) :
    Option.Rel (State.Agree l') o o' := by
  cases h with
  | some h => exact .some (h.mono hl)
  | none => exact .none

theorem rel_trans (h : Option.Rel (State.Agree l) o o') (h' : Option.Rel (State.Agree l) o' o'') :
    Option.Rel (State.Agree l) o o'' := by
  cases h with
  | some h =>
    cases h' with
    | some h' => exact .some (h.trans h')
  | none => exact h'

theorem rel_refl (o : Option (State ρ)) : Option.Rel (State.Agree l) o o := by
  cases o with
  | some s => exact .some (.refl s)
  | none => exact .none

variable {k : Config} {e : Flag → Bool} {x : Instr ρ} {s : State ρ}

/-- A flag that is needed is computed as if all of them were. -/
theorem exec_needed (hops : ∀ op, x.mnemonic.fastOp = some op → op.Decoded x.insn)
    (hok : x.NeedsOk k e s.core) :
    Option.Rel (State.Agree fun f ↦ e f = true ∧ x.undefines k s.core f = false) (x.exec k e s)
      (x.exec k (fun _ ↦ true) s) := by
  obtain ⟨m, i⟩ := x
  have hneeded {t t' : State ρ} (h : t.Agree (fun f ↦ e f = true) t') :
      Option.Rel (State.Agree fun f ↦ e f = true ∧ Instr.undefines k ⟨m, i⟩ s.core f = false)
        (some t) (some t') :=
    .some (h.mono fun f hf ↦ hf.1)
  cases m with
  | add => exact rel_mono (agree_fastAdd (hops _ rfl)) fun f hf ↦ hf.1
  | sub => exact hneeded (agree_fastSub (hops _ rfl))
  | sbb => exact hneeded agree_fastSbb
  | adc => exact hneeded agree_fastAdc
  | cmp => exact hneeded agree_fastCmp
  | or =>
    have hi : i.Sized := hops _ rfl
    refine hneeded ?_
    rw [fastOr_eq k s hi, fastOr_eq k s hi]
    exact agree_logic _
  | xor => exact hneeded (agree_fastXor (hops _ rfl))
  | and => exact hneeded (agree_logic _)
  | test =>
    refine .some ((agree_fastTest (hok.test rfl)).mono fun f hf ↦ ⟨hf.1, ?_⟩)
    simpa [Instr.undefines] using hf.2
  | inc => exact hneeded (agree_incDec ..)
  | dec => exact hneeded (agree_incDec ..)
  | neg => exact hneeded agree_fastNeg
  | shl =>
    refine .some ((agree_fastShl (hops _ rfl) fun himm hone ↦ ?_).mono fun f hf ↦ ⟨hf.1, ?_⟩)
    · exact hok.shl rfl (by simpa [Instr.shiftCount, himm] using hone)
    · -- `OF` is undefined unless the count is one
      rintro himm rfl hcount
      refine hok.shl rfl ?_ hf.1
      have hne : (variableCount k i i.width i.op1 s.core).toNat ≠ 0 := fun h ↦
        hcount (BitVec.eq_of_toNat_eq h)
      simpa [Instr.undefines, Instr.shiftCount, himm, hne] using hf.2
  | shr => exact hneeded (agree_fastShr (hops _ rfl) hok.zext)
  | sar => exact hneeded agree_fastSar
  | shld => exact hneeded (agree_doubleShift ..)
  | shrd => exact hneeded (agree_doubleShift ..)
  | rol => exact hneeded (agree_fastRol (hops _ rfl) hok.zext (hok.rol rfl))
  | rcl => exact hneeded agree_fastRcl
  | rcr => exact hneeded agree_fastRcr
  | imul opcount => exact hneeded (agree_fastImul (hops _ rfl))
  | mul => exact hneeded agree_fastMul
  | bts => exact hneeded agree_fastBts
  | blsr => exact hneeded agree_fastBlsr
  | xadd => exact hneeded agree_fastXadd
  | cmpxchg => exact rel_mono agree_fastCmpxchg fun f hf ↦ hf.1
  | cmps => exact hneeded agree_fastCmps
  | scas => exact hneeded agree_fastScas
  | comis compare => exact hneeded (agree_comis _)
  | ptest zero carry => exact hneeded (agree_fastPtest ..)
  | _ => exact rel_refl _

end Exec

section ExecSame

variable {k : Config} {x : Instr ρ} {c : Core ρ} {g g' : Flag → U64} {l : Flag → Prop}

theorem getCond_congr {cond : Fin 16} (h : ∀ f, condTests cond f → g f = g' f) :
    getCond cond g = getCond cond g' := by
  fin_cases cond <;> simp_all [getCond, condTests]

theorem rel_map (h : ∀ f, l f → g f = g' f) (a : Core ρ → Core ρ) :
    Option.Rel (State.Agree l) (some (State.map ⟨c, g⟩ a)) (some (State.map ⟨c, g'⟩ a)) :=
  .some ⟨rfl, h⟩

theorem rel_throughThreadState (h : ∀ f, l f → g f = g' f) (a : Core ρ → Core ρ) :
    Option.Rel (State.Agree l) (some ((State.throughThreadState ⟨c, g⟩).map a))
      (some ((State.throughThreadState ⟨c, g'⟩).map a)) :=
  .some ⟨rfl, fun f hf ↦ congrArg zextb (h f hf)⟩

/-- An instruction depends on the flags it tests, and changes the flags that it writes. -/
theorem exec_same (hops : ∀ op, x.mnemonic.fastOp = some op → op.Decoded x.insn)
    (htests : ∀ f, x.mnemonic.tests f → g f = g' f) :
    Option.Rel (State.Agree fun f ↦ x.writes k c f = true ∨ g f = g' f)
      (x.exec k (fun _ ↦ true) ⟨c, g⟩) (x.exec k (fun _ ↦ true) ⟨c, g'⟩) := by
  obtain ⟨m, i⟩ := x
  -- the flags of an instruction that writes none
  have hkeep (hm : ∀ f, Instr.writes k ⟨m, i⟩ c f = false) (f : Flag)
      (hf : Instr.writes k ⟨m, i⟩ c f = true ∨ g f = g' f) : g f = g' f := by
    rw [hm f] at hf
    exact hf.resolve_left Bool.false_ne_true
  have hwrites {t t' : State ρ} {l : Flag → Prop} (h : t.Agree l t')
      (hl : ∀ f, Instr.writes k ⟨m, i⟩ c f = true ∨ g f = g' f → l f) :
      Option.Rel (State.Agree fun f ↦ Instr.writes k ⟨m, i⟩ c f = true ∨ g f = g' f)
        (some t) (some t') := .some (h.mono hl)
  cases m with
  | add => exact same_fastAdd (hops _ rfl)
  | sub => exact .some (same_fastSub (hops _ rfl))
  | sbb => exact .some (same_fastSbb (htests .cf rfl))
  | adc => exact .some (same_fastAdc (htests .cf rfl))
  | cmp => exact .some same_fastCmp
  | or =>
    have hi : i.Sized := hops _ rfl
    simp only [Instr.exec, fastOr_eq k _ hi]
    exact hwrites (same_logic _) (by simp [Instr.writes])
  | xor => exact hwrites (same_fastXor (hops _ rfl)) (by simp [Instr.writes])
  | and => exact hwrites (same_logic _) (by simp [Instr.writes])
  | test => exact hwrites same_fastTest (by simp [Instr.writes])
  | inc | dec => exact hwrites (same_incDec ..) (by simp [Instr.writes])
  | neg => exact .some same_fastNeg
  | shl => exact .some same_fastShl
  | shr => exact .some same_fastShr
  | sar => exact .some same_fastSar
  | shld | shrd =>
    refine hwrites (same_doubleShift ..) fun f hf ↦ hf.imp_left fun h ↦ ?_
    change (decide ((variableCount k i i.width i.op2 c).toNat ≠ 0) && decide (f ≠ .af)) = true at h
    simpa using h
  | rol => exact .some same_fastRol
  | ror => exact .some same_fastRor
  | rcl => exact hwrites (same_fastRcl (htests .cf rfl)) (by simp [Instr.writes])
  | rcr => exact hwrites (same_fastRcr (htests .cf rfl)) (by simp [Instr.writes])
  | imul opcount => exact hwrites (same_fastImul _) (by simp [Instr.writes])
  | mul => exact hwrites same_fastMul (by simp [Instr.writes])
  | div | idiv => exact rel_mono (same_divide _) (hkeep fun _ ↦ rfl)
  | bsf | bsr => exact hwrites (same_bitScan _) (by simp [Instr.writes])
  | tzcnt => exact hwrites same_fastTzcnt (by simp [Instr.writes])
  | bt | btc | bts | btr => exact hwrites (same_bitInstruction ..) (by simp [Instr.writes])
  | blsr => exact hwrites same_fastBlsr (by simp [Instr.writes, or_assoc])
  | xadd => exact .some same_fastXadd
  | cmpxchg => exact same_fastCmpxchg
  | cmpxchg8b => exact hwrites same_fastCmpxchg8b (by simp [Instr.writes])
  | cmpxchg16b => exact hwrites same_fastCmpxchg16b (by simp [Instr.writes])
  | mov | pop =>
    simp only [Instr.exec, fastMov, fastPop, segmentCall]
    split
    · exact rel_throughThreadState (hkeep fun _ ↦ rfl) _
    · exact rel_map (hkeep fun _ ↦ rfl) _
  | popf => exact .some same_fastPopf
  | pushf =>
    obtain rfl : g = g' := funext fun f ↦ htests f rfl
    exact rel_refl _
  | lahf =>
    simp only [Instr.exec, fastLahf, htests .cf rfl, htests .pf rfl, htests .af rfl, htests .zf rfl,
      htests .sf rfl]
    exact rel_map (hkeep fun _ ↦ rfl) _
  | sahf => exact hwrites same_fastSahf (by simp [Instr.writes])
  | clc | stc =>
    refine .some ⟨rfl, fun f hf ↦ ?_⟩
    cases f <;> simp_all [State.flag_setFlag, Instr.writes]
  | cmc =>
    have hcf := htests .cf rfl
    refine .some ⟨rfl, fun f hf ↦ ?_⟩
    cases f <;> simp_all [State.flag_setFlag, Instr.writes]
  | jcc cond | cmov cond | setcc cond | fcmov cond =>
    simp only [Instr.exec]
    rw [getCond_congr htests]
    exact rel_map (hkeep fun _ ↦ rfl) _
  | loope | loopne =>
    simp only [Instr.exec, htests .zf rfl]
    exact rel_map (hkeep fun _ ↦ rfl) _
  | cmps => exact hwrites same_fastCmps (by simp [Instr.writes])
  | scas => exact hwrites same_fastScas (by simp [Instr.writes])
  | comis compare => exact .some (same_comis _)
  | ptest zero carry => exact .some (same_fastPtest ..)
  | fcomi compare next => exact hwrites (same_fcomi ..) (by simp [Instr.writes, or_assoc])
  | pcmpxstrx index next flags => exact .some ⟨rfl, fun _ _ ↦ rfl⟩
  | cpuid | int | syscall | iretd => exact rel_throughThreadState (hkeep fun _ ↦ rfl) _
  | _ => exact rel_map (hkeep fun _ ↦ rfl) _

end ExecSame

end Jit

end Felix86
