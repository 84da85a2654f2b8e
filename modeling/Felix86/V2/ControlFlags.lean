import Felix86.V2.Instruction

/-!
# `DF`, `ID` and `AC`

Three bits of `RFLAGS` are bytes of `ThreadState` that only a few instructions write. All handlers
of the others leave them alone, since they write through `set`, `setRef`, `write` and `writeMemory`.
-/

namespace Felix86

namespace Jit

open Riscv

variable {ρ : Type*} (k : Config) (i : Insn) (e : Flag → Bool)

/-- The flags that no handler of an integer instruction computes: `DF`, `ID` and `AC`. -/
def Core.control (c : Core ρ) : BitVec 8 × BitVec 8 × BitVec 8 := (c.df, c.cpuidBit, c.acBit)

section Control

variable (c : Core ρ) (s : State ρ)

@[simp] theorem control_write (r : Ref) (v : U64) : (c.write r v).control = c.control := rfl

@[simp] theorem control_setRef (r : Ref) (size : Size) (v : U64) :
    (k.setRef r size v c).control = c.control := rfl

@[simp] theorem control_writeMemory (a v : U64) (size : Size) :
    (Config.writeMemory a v size c).control = c.control := rfl

@[simp] theorem control_set (op : Operand) (v : U64) : (k.set i op v c).control = c.control := by
  cases op <;> rfl

@[simp] theorem control_put (h : Host) (v : U64) : (h.put v c).2.control = c.control := by
  cases h <;> rfl

@[simp] theorem control_addRsp (v : U64) : (addRsp k v c).control = c.control := rfl

@[simp] theorem control_jcc (v : U64) : (jcc k i v c).control = c.control := rfl

@[simp] theorem control_felix86SetSegment (v : U64) (seg : Seg) :
    (felix86SetSegment v seg c).control = c.control := rfl

theorem control_lockedAdd {src dst : U64} {c c' : Core ρ}
    (h : lockedAdd k i src c = some (dst, c')) : c'.control = c.control := by
  simp only [lockedAdd] at h
  split at h
  · split at h <;> (try split at h) <;> (try split at h) <;> cases h <;> rfl
  · cases h

@[simp] theorem control_opNoflagsDestreg (f f32 : U64 → U64 → U64) :
    (opNoflagsDestreg k i f f32 s).core.control = s.core.control := by
  rw [opNoflagsDestreg]
  split <;> rfl

theorem control_fastAdd {t : State ρ} (ht : fastAdd k i e s = some t) :
    t.core.control = s.core.control := by
  rw [fastAdd] at ht
  split at ht
  · obtain rfl := Option.some.inj ht
    simp
  · dsimp only at ht
    split at ht
    · obtain ⟨⟨dst, c⟩, hc, rfl⟩ := Option.map_eq_some_iff.mp ht
      simpa using control_lockedAdd k i hc
    · obtain rfl := Option.some.inj ht
      simp

@[simp] theorem control_fastSub : (fastSub k i e s).core.control = s.core.control := by
  rw [fastSub]
  split
  · simp
  · dsimp only
    split
    · simp [amo]
    · simp

@[simp] theorem control_fastCmp : (fastCmp k i e s).core.control = s.core.control := by
  rw [fastCmp]
  split <;> simp

@[simp] theorem control_logic (op : U64 → U64 → U64) :
    (logic k i e op s).core.control = s.core.control := by
  rw [logic]
  split <;> simp [amo]

@[simp] theorem control_fastOr : (fastOr k i e s).core.control = s.core.control := by
  rw [fastOr]
  split <;> simp

@[simp] theorem control_fastXor : (fastXor k i e s).core.control = s.core.control := by
  rw [fastXor]
  split <;> (try split) <;> simp

@[simp] theorem control_fastTest : (fastTest k i e s).core.control = s.core.control := by
  rw [fastTest]
  dsimp only
  split <;> simp

@[simp] theorem control_incDec (step : U64) (af : U64 → U64 → U64) (of : U64 → U64 → Size → U64) :
    (incDec k i e step af of s).core.control = s.core.control := by
  rw [incDec]
  split <;> simp [amo]

@[simp] theorem control_shiftZero : (shiftZero k i s).core.control = s.core.control := by
  rw [shiftZero]
  split <;> simp

@[simp] theorem control_fastShl : (fastShl k i e s).core.control = s.core.control := by
  simp only [fastShl, fastShlImm, shiftNoflags]
  repeat' split
  all_goals simp

@[simp] theorem control_fastShr : (fastShr k i e s).core.control = s.core.control := by
  simp only [fastShr, fastShrImm, shiftNoflags]
  repeat' split
  all_goals simp

@[simp] theorem control_fastSar : (fastSar k i e s).core.control = s.core.control := by
  simp only [fastSar, fastSarImm]
  repeat' split
  all_goals simp

@[simp] theorem control_doubleShift (v w : U64 → U64 → U64 → U64 → U64) :
    (doubleShift k i e v w s).core.control = s.core.control := by
  simp only [doubleShift]
  repeat' split
  all_goals simp

@[simp] theorem control_fastRol : (fastRol k i e s).core.control = s.core.control := by
  simp only [fastRol, rolNoflags]
  repeat' split
  all_goals simp

@[simp] theorem control_fastRor : (fastRor k i s).core.control = s.core.control := by
  simp only [fastRor]
  repeat' split
  all_goals simp

@[simp] theorem control_fastImul (n : ℕ) : (fastImul k i e n s).core.control = s.core.control := by
  simp only [fastImul, imul1, imul23, imulNoflags]
  repeat' split
  all_goals simp

@[simp] theorem control_fastMul : (fastMul k i e s).core.control = s.core.control := by
  simp only [fastMul]
  repeat' split
  all_goals simp

theorem control_divDword (q r : U64 → U64 → U64) (ext : Option (U64 → U64)) :
    (divDword k i q r ext c).control = c.control := by
  simp [divDword]

theorem control_divQword {q r : U64 → U64 → U64} {slow : U64 → Core ρ → Option (Core ρ)}
    (hslow : ∀ v c c', slow v c = some c' → c'.control = c.control) {c c' : Core ρ}
    (h : divQword k i q r slow c = some c') : c'.control = c.control := by
  rw [divQword] at h
  dsimp only at h
  split at h
  · obtain rfl := Option.some.inj h
    rfl
  · exact hslow _ _ _ h

theorem control_divCore {c c' : Core ρ} (h : divCore k i c = some c') :
    c'.control = c.control := by
  have hslow : ∀ v (c c' : Core ρ), felix86Divu128 v c = some c' → c'.control = c.control := by
    intro v c c' hc
    rw [felix86Divu128] at hc
    split at hc <;> cases hc
    rfl
  rw [divCore] at h
  dsimp only at h
  split at h
  case h_5 => exact control_divQword k i hslow h
  all_goals
    obtain rfl := Option.some.inj h
    simp [control_divDword]

theorem control_idivCore {c c' : Core ρ} (h : idivCore k i c = some c') :
    c'.control = c.control := by
  have hslow : ∀ v (c c' : Core ρ), felix86Div128 v c = some c' → c'.control = c.control := by
    intro v c c' hc
    rw [felix86Div128] at hc
    split at hc <;> cases hc
    rfl
  rw [idivCore] at h
  dsimp only at h
  split at h
  case h_5 => exact control_divQword k i hslow h
  all_goals
    obtain rfl := Option.some.inj h
    simp [control_divDword]

theorem control_divide {value : Core ρ → Option (Core ρ)}
    (hvalue : ∀ c c', value c = some c' → c'.control = c.control) {t : State ρ}
    (ht : divide i value s = some t) : t.core.control = s.core.control := by
  obtain ⟨c, hc, rfl⟩ := Option.map_eq_some_iff.mp ht
  exact hvalue _ _ hc

@[simp] theorem control_bitScan (v : U64 → U64) :
    (bitScan k i v s).core.control = s.core.control := by
  simp only [bitScan]
  split <;> simp

@[simp] theorem control_bitInstruction (b : Bool) (u : Option (U64 → U64 → U64))
    (w : BitVec 8 → BitVec 8 → BitVec 8) :
    (bitInstruction k i b u w s).core.control = s.core.control := by
  rw [bitInstruction]
  split
  · rfl
  · cases u <;> simp [bitTest]

theorem control_segmentCall {g : Core ρ → Core ρ} (hg : ∀ c, (g c).control = c.control) :
    (segmentCall k i g s).core.control = s.core.control := by
  rw [segmentCall]
  split <;> simp [hg]

@[simp] theorem control_movCore : (movCore k i c).control = c.control := by
  rw [movCore]
  repeat' split
  all_goals simp

@[simp] theorem control_fastMovzx : (fastMovzx k i c).control = c.control := by
  rw [fastMovzx]
  repeat' split
  all_goals simp

@[simp] theorem control_fastLea : (fastLea k i c).control = c.control := by
  rw [fastLea]
  split <;> simp

@[simp] theorem control_fastXchg : (fastXchg k i c).control = c.control := by
  simp only [fastXchg, xchgLock]
  repeat' split
  all_goals simp [amo, lrsc]

@[simp] theorem control_fastXadd : (fastXadd k i e s).core.control = s.core.control := by
  simp only [fastXadd, xaddStore]
  repeat' split
  all_goals simp [amo]

@[simp] theorem control_casPart (ones a src rax : U64) :
    (casPart ones a src rax c).2.control = c.control := by
  simp only [casPart]
  split <;> rfl

@[simp] theorem control_casWhole (a src rax : U64) (size : Size) :
    (casWhole a src rax size c).2.control = c.control := by
  simp only [casWhole]
  split <;> rfl

theorem control_fastCmpxchg {t : State ρ} (ht : fastCmpxchg k i e s = some t) :
    t.core.control = s.core.control := by
  simp only [fastCmpxchg, cmpxchgLock] at ht
  repeat' split at ht
  all_goals cases ht
  all_goals simp

theorem control_fastCmpxchg8b : (fastCmpxchg8b k i s).core.control = s.core.control := by
  simp only [fastCmpxchg8b]
  repeat' split
  all_goals simp

theorem control_fastCmpxchg16b : (fastCmpxchg16b k i s).core.control = s.core.control := by
  simp only [fastCmpxchg16b]
  repeat' split
  all_goals simp

theorem control_popCore : (popCore k i c).control = c.control := by
  simp only [popCore]
  repeat' split
  all_goals simp

theorem control_fastCall : (fastCall k i c).control = c.control := by
  simp only [fastCall]
  split <;> rfl

theorem control_fastLeave : (fastLeave k i c).control = c.control := by
  simp [fastLeave]

theorem control_fastLoop (more : U64) : (fastLoop k i more c).control = c.control := by
  simp [fastLoop]

theorem control_fastJmp : (fastJmp k i c).control = c.control := by
  simp only [fastJmp]
  split <;> rfl

theorem control_felix86Pcmpxstrx (index : Option (BitVec 5)) (next : ρ) (flags : Flag → Bool) :
   (felix86Pcmpxstrx index next flags s).core.control = s.core.control := by
  cases index <;> rfl

end Control

/-- The three flags are bits. -/
def BitControl (c : Core ρ) : Prop := c.df.toNat < 2 ∧ c.cpuidBit.toNat < 2 ∧ c.acBit.toNat < 2

theorem BitControl.congr {c c' : Core ρ} (h : BitControl c) (heq : c'.control = c.control) :
    BitControl c' := by
  simp only [Core.control, Prod.mk.injEq] at heq
  obtain ⟨h₁, h₂, h₃⟩ := heq
  rw [BitControl, h₁, h₂, h₃]
  exact h

/-- The instructions that do not leave `DF`, `ID` and `AC` alone. -/
def Mnemonic.setsControl : Mnemonic ρ → Bool
  | .cld => true
  | .std => true
  | .popf => true
  | .int _ _ _ => true
  | .syscall _ => true
  | .other _ => true
  | _ => false

theorem control_exec {x : Instr ρ} {s t : State ρ} (hx : x.mnemonic.setsControl = false)
    (ht : x.exec k e s = some t) : t.core.control = s.core.control := by
  obtain ⟨m, i⟩ := x
  cases m
  case add => exact control_fastAdd k i e s ht
  case div => exact control_divide i s (fun c c' ↦ control_divCore k i) ht
  case idiv => exact control_divide i s (fun c c' ↦ control_idivCore k i) ht
  case cmpxchg => exact control_fastCmpxchg k i e s ht
  case cld => cases hx
  case std => cases hx
  case popf => cases hx
  case int => cases hx
  case syscall => cases hx
  case other => cases hx
  all_goals
    obtain rfl := Option.some.inj ht
  case mov => exact control_segmentCall k i s (control_movCore k i)
  case pop => exact control_segmentCall k i s (control_popCore k i)
  case fcmov =>
    rw [State.core_map]
    split <;> rfl
  case pcmpxstrx => exact control_felix86Pcmpxstrx _ _ _ _
  case fromUnit => exact control_set k i _ _ _
  case cmpxchg8b => exact control_fastCmpxchg8b k i s
  case cmpxchg16b => exact control_fastCmpxchg16b k i s
  case call => exact control_fastCall k i s.core
  case leave => exact control_fastLeave k i s.core
  case jmp => exact control_fastJmp k i s.core
  case loop => exact control_fastLoop k i s.core _
  case loope => exact control_fastLoop k i s.core _
  case loopne => exact control_fastLoop k i s.core _
  -- the others only write registers, memory and flags
  all_goals first
    | rfl
    | simp [fastSbb, fastAdc, fastNeg, fastRcl, fastRcr, fastAnd, fastInc, fastDec,
        fastNot, fastShld, fastShrd, fastBsf, fastBsr, fastTzcnt, fastBt, fastBtc, fastBts, fastBtr,
          fastBlsr, fastBswap,
        fastMovsx, fastMovsxd, comis, fastPtest, cmov]

end Jit

end Felix86
