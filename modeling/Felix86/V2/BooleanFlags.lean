import Felix86.Lib.Run
import Felix86.V2.ControlFlags
import Felix86.V2.FlagValues
import Mathlib.Tactic.FinCases
import Mathlib.Tactic.IntervalCases

/-!
# Flag registers hold bits

Four flags are host registers and are combined as if they held zero or one: `getCond` negates with
an exclusive or, `getFlags` shifts each flag to its place. This file shows that the handlers keep it
so, whatever flags they are told to compute, except two: `ROL` shifts the result down for `OF` and
does not mask it, and the byte and word forms of `CMPXCHG` compare in the registers of flags that
may not be computed afterwards.

Inside an instruction a register can hold something else: `updateZero` puts the result there before
it compares it with zero, `updateSign` and `updateCarryAdd` work in the same way. A signal that
arrives there makes `reconstruct_state` read it.
-/

namespace Felix86

namespace Jit

open Riscv

/-- Zero or one. -/
def Bit (v : U64) : Prop := v = 0 ∨ v = 1

instance (v : U64) : Decidable (Bit v) := inferInstanceAs (Decidable (_ ∨ _))

section Bit

@[simp] theorem bit_zero : Bit 0 := Or.inl rfl

@[simp] theorem bit_one : Bit 1 := Or.inr rfl

@[simp] theorem bit_ite (p : Prop) [Decidable p] : Bit (if p then 1 else 0) := by
  split
  · exact bit_one
  · exact bit_zero

@[simp] theorem bit_sltu (a b : U64) : Bit (sltu a b) := bit_ite _

@[simp] theorem bit_seqz (a : U64) : Bit (seqz a) := bit_ite _

@[simp] theorem bit_snez (a : U64) : Bit (snez a) := by
  rw [snez]
  split
  · exact bit_zero
  · exact bit_one

theorem bit_of_toNat_lt {v : U64} (h : v.toNat < 2) : Bit v := by
  rcases Nat.lt_succ_iff_lt_or_eq.mp h with h | h
  · exact Or.inl (BitVec.eq_of_toNat_eq (by simpa using h))
  · exact Or.inr (BitVec.eq_of_toNat_eq (by simpa using h))

@[simp] theorem bit_and_one (a : U64) : Bit (a &&& 1) := by
  refine bit_of_toNat_lt ?_
  have hmask := toNat_and_mask a (show 1 ≤ 64 by decide)
  have heq : (a &&& 1).toNat = a.toNat % 2 ^ 1 := hmask
  omega

theorem Bit.or {a b : U64} (ha : Bit a) (hb : Bit b) : Bit (a ||| b) := by
  rcases ha with rfl | rfl <;> rcases hb with rfl | rfl <;> decide

theorem Bit.xor {a b : U64} (ha : Bit a) (hb : Bit b) : Bit (a ^^^ b) := by
  rcases ha with rfl | rfl <;> rcases hb with rfl | rfl <;> decide

theorem Bit.zextb {a : U64} (ha : Bit a) : Riscv.zextb a = a := by
  rcases ha with rfl | rfl <;> decide

@[simp] theorem bit_updateZero (k : Config) (result : U64) (size : Size) :
    Bit (k.updateZero result size) := bit_seqz _

@[simp] theorem bit_updateSign (result : U64) (size : Size) :
    Bit (Config.updateSign result size) := bit_and_one _

@[simp] theorem bit_updateParity (k : Config) (result : U64) : Bit (k.updateParity result) :=
  (bit_and_one _).xor bit_one

@[simp] theorem bit_topBits (size : Size) (v : U64) : Bit (Config.topBits size v) := bit_and_one _

@[simp] theorem bit_updateOverflowSub (a b r : U64) (size : Size) :
    Bit (Config.updateOverflowSub a b r size) := bit_topBits _ _

@[simp] theorem bit_updateOverflowAdd (a b r : U64) (size : Size) :
    Bit (Config.updateOverflowAdd a b r size) := bit_topBits _ _

@[simp] theorem bit_updateAuxiliaryAdd (a b : U64) : Bit (Config.updateAuxiliaryAdd a b) :=
  bit_sltu _ _

@[simp] theorem bit_updateAuxiliarySub (a b : U64) : Bit (Config.updateAuxiliarySub a b) :=
  bit_sltu _ _

@[simp] theorem bit_updateAuxiliaryAdc (a b c d : U64) : Bit (Config.updateAuxiliaryAdc a b c d) :=
  (bit_sltu _ _).or (bit_sltu _ _)

@[simp] theorem bit_updateAuxiliarySbb (a b c d : U64) : Bit (Config.updateAuxiliarySbb a b c d) :=
  (bit_sltu _ _).or (bit_sltu _ _)

@[simp] theorem bit_updateCarryAdd (k : Config) (a b : U64) (size : Size) :
    Bit (k.updateCarryAdd a b size) := bit_sltu _ _

@[simp] theorem bit_updateCarrySub (a b : U64) : Bit (Config.updateCarrySub a b) := bit_sltu _ _

@[simp] theorem bit_updateCarryAdc (k : Config) (a b c d : U64) (size : Size) :
    Bit (k.updateCarryAdc a b c d size) := (bit_sltu _ _).or (bit_sltu _ _)

@[simp] theorem bit_sbbOverflow (a b c d r : U64) (size : Size) :
    Bit (sbbOverflow a b c d r size) :=
  (bit_snez _).or (bit_snez _)

@[simp] theorem bit_comparison (r : Comparison) (l : List Comparison) : Bit (r.bit l) := bit_ite _

end Bit

/-! ## Flags that are written with bits -/

variable {ρ : Type*} (k : Config) (i : Insn) (e : Flag → Bool)

theorem stored_of_bit {f : Flag} {v : U64} (hv : Bit v) : f.stored v = v := by
  cases f with
  | pf => exact hv.zextb
  | af => exact hv.zextb
  | _ => rfl

/-- Every flag is a bit. -/
def BitFlags (s : State ρ) : Prop := ∀ f, Bit (s.flag f)

namespace BitFlags

variable {s : State ρ}

theorem setFlag (h : BitFlags s) {f : Flag} {v : U64} (hv : Bit v) : BitFlags (s.setFlag f v) := by
  intro f'
  rw [State.flag_setFlag, stored_of_bit hv]
  split
  · exact hv
  · exact h f'

theorem emit (h : BitFlags s) {f : Flag} {v : U64} (hv : Bit v) : BitFlags (s.emit e f v) := by
  rw [State.emit]
  split
  · exact h.setFlag hv
  · exact h

/-- A handler that leaves the flags alone. -/
theorem map (h : BitFlags s) (g : Core ρ → Core ρ) : BitFlags (s.map g) := h

theorem withCore (h : BitFlags s) (c : Core ρ) : BitFlags { s with core := c } := h

theorem throughThreadState (h : BitFlags s) : BitFlags s.throughThreadState := by
  intro f
  simp only [State.throughThreadState, (h f).zextb]
  exact h f

theorem setCmpFlags (h : BitFlags s) (dst src result : U64) (size : Size) (zextSrc always : Bool) :
    BitFlags (setCmpFlags k e dst src result size zextSrc always s) :=
  h.emit _ (bit_updateCarrySub _ _) |>.emit _ (bit_updateParity _ _)
    |>.emit _ (bit_updateAuxiliarySub _ _) |>.emit _ (bit_updateZero _ _ _)
    |>.emit _ (bit_updateSign _ _) |>.emit _ (bit_updateOverflowSub _ _ _ _)

theorem setAddFlags (h : BitFlags s) (dst src result aux : U64) (size : Size) :
    BitFlags (setAddFlags k e dst src result aux size s) :=
  h.emit _ (bit_updateCarryAdd _ _ _ _) |>.emit _ (bit_updateParity _ _)
    |>.emit _ (bit_updateAuxiliaryAdd _ _) |>.emit _ (bit_updateZero _ _ _)
    |>.emit _ (bit_updateSign _ _) |>.emit _ (bit_updateOverflowAdd _ _ _ _)

theorem setLogicFlags (h : BitFlags s) (result : U64) (size : Size) :
    BitFlags (setLogicFlags k e result size s) :=
  h.emit _ bit_zero |>.emit _ (bit_updateParity _ _) |>.emit _ (bit_updateZero _ _ _)
    |>.emit _ (bit_updateSign _ _) |>.emit _ bit_zero

theorem setShiftFlags (h : BitFlags s) (result : U64) (size : Size) :
    BitFlags (setShiftFlags k e result size s) :=
  h.emit _ (bit_updateParity _ _) |>.emit _ (bit_updateZero _ _ _) |>.emit _ (bit_updateSign _ _)

theorem setMulFlags (h : BitFlags s) {v : U64} (hv : Bit v) : BitFlags (setMulFlags e v s) := by
  rw [Jit.setMulFlags]
  split
  · exact (h.setFlag hv).setFlag hv
  · exact h

theorem setFlags (h : BitFlags s) (flags : U64) : BitFlags (setFlags flags s) :=
  (h.withCore _).setFlag (bit_and_one _) |>.setFlag (bit_and_one _) |>.setFlag (bit_and_one _)
    |>.setFlag (bit_and_one _) |>.setFlag (bit_and_one _) |>.setFlag (bit_and_one _)

end BitFlags

/-! ## Handlers -/

section Handlers

variable {s t : State ρ} (h : BitFlags s)

include h

theorem bits_opNoflagsDestreg (f f32 : U64 → U64 → U64) :
    BitFlags (opNoflagsDestreg k i f f32 s) := by
  rw [opNoflagsDestreg]
  split <;> exact h

theorem bits_fastAdd (ht : fastAdd k i e s = some t) : BitFlags t := by
  rw [fastAdd] at ht
  split at ht
  · obtain rfl := Option.some.inj ht
    exact bits_opNoflagsDestreg k i h _ _
  · dsimp only at ht
    split at ht
    · obtain ⟨⟨dst, c⟩, -, rfl⟩ := Option.map_eq_some_iff.mp ht
      exact (h.withCore c).setAddFlags k e _ _ _ _ _
    · obtain rfl := Option.some.inj ht
      exact (h.setAddFlags k e _ _ _ _ _).map _

theorem bits_fastSub : BitFlags (fastSub k i e s) := by
  rw [fastSub]
  split
  · exact bits_opNoflagsDestreg k i h _ _
  · dsimp only
    split
    · exact (h.withCore _).setCmpFlags k e _ _ _ _ _ _
    · exact (h.setCmpFlags k e _ _ _ _ _ _).map _

theorem bits_fastSbb : BitFlags (fastSbb k i e s) :=
  ((h.emit e (bit_updateParity _ _)).emit e (bit_updateAuxiliarySbb _ _ _ _)
    |>.emit e (bit_sbbOverflow _ _ _ _ _ _) |>.emit e ((bit_sltu _ _).or (bit_sltu _ _))
    |>.emit e (bit_updateZero _ _ _) |>.emit e (bit_updateSign _ _)).map _

theorem bits_fastAdc : BitFlags (fastAdc k i e s) :=
  ((h.emit e (bit_updateParity _ _)).emit e (bit_updateAuxiliaryAdc _ _ _ _)
    |>.emit e (bit_updateOverflowAdd _ _ _ _) |>.emit e (bit_updateCarryAdc _ _ _ _ _ _)
    |>.emit e (bit_updateZero _ _ _) |>.emit e (bit_updateSign _ _)).map _

theorem bits_fastCmp : BitFlags (fastCmp k i e s) := by
  rw [fastCmp]
  split
  · exact h
  · exact h.setCmpFlags k e _ _ _ _ _ _

theorem bits_logic (op : U64 → U64 → U64) : BitFlags (logic k i e op s) := by
  rw [logic]
  split
  · exact (h.withCore _).setLogicFlags k e _ _
  · exact (h.setLogicFlags k e _ _).map _

theorem bits_fastOr : BitFlags (fastOr k i e s) := by
  rw [fastOr]
  split
  · exact bits_opNoflagsDestreg k i h _ _
  · exact bits_logic k i e h _

theorem bits_fastXor : BitFlags (fastXor k i e s) := by
  rw [fastXor]
  split
  · exact (h.map _).emit e bit_zero |>.emit e bit_one |>.emit e bit_one |>.emit e bit_zero
      |>.emit e bit_zero
  · split
    · exact bits_opNoflagsDestreg k i h _ _
    · exact bits_logic k i e h _

theorem bits_fastTest : BitFlags (fastTest k i e s) := by
  rw [fastTest]
  dsimp only
  split
  · exact h
  · exact h.emit _ bit_zero |>.emit e (bit_updateParity _ _) |>.emit e (bit_updateZero _ _ _)
      |>.emit e (bit_updateSign _ _) |>.emit _ bit_zero

theorem bits_incDec (step : U64) {af : U64 → U64 → U64} {of : U64 → U64 → Size → U64}
    (haf : ∀ a b, Bit (af a b)) (hof : ∀ a b size, Bit (of a b size)) :
    BitFlags (incDec k i e step af of s) := by
  have hflags {s : State ρ} (h : BitFlags s) (dst res : U64) :
      BitFlags (s.emit e .af (af dst res) |>.emit e .of (of dst res i.op0.size)
        |>.emit e .pf (k.updateParity res) |>.emit e .zf (k.updateZero res i.op0.size)
        |>.emit e .sf (Config.updateSign res i.op0.size)) :=
    h.emit e (haf _ _) |>.emit e (hof _ _ _) |>.emit e (bit_updateParity _ _)
      |>.emit e (bit_updateZero _ _ _) |>.emit e (bit_updateSign _ _)
  rw [incDec]
  split
  · exact hflags (h.withCore _) _ _
  · exact (hflags h _ _).map _

theorem bits_fastNeg : BitFlags (fastNeg k i e s) :=
  (h.emit e (bit_snez _) |>.emit e (bit_updateZero _ _ _) |>.emit e (bit_updateOverflowSub _ _ _ _)
    |>.emit e (bit_updateSign _ _) |>.emit e (bit_snez _) |>.emit e (bit_updateParity _ _)).map _

theorem bits_shiftZero : BitFlags (shiftZero k i s) := by
  rw [shiftZero]
  split <;> exact h

theorem bits_fastShlImm : BitFlags (fastShlImm k i e s) := by
  rw [fastShlImm]
  dsimp only
  split
  · have hcf := (h.setShiftFlags k e (k.get i i.op0 s.core <<< immediateCount i) i.op0.size).emit e
      (f := .cf) (bit_and_one (k.get i i.op0 s.core >>>
        ((i.op0.size.bits + 64 - immediateCount i) % 64)))
    exact (hcf.emit _ ((bit_and_one _).xor (hcf .cf))).map _
  · exact bits_shiftZero k i h

theorem bits_fastShrImm : BitFlags (fastShrImm k i e s) := by
  rw [fastShrImm]
  dsimp only
  split
  · exact ((h.setShiftFlags k e _ _).emit e (bit_and_one _) |>.emit _ (bit_and_one _)).map _
  · exact bits_shiftZero k i h

theorem bits_fastSarImm : BitFlags (fastSarImm k i e s) := by
  rw [fastSarImm]
  dsimp only
  split
  · exact ((h.setShiftFlags k e _ _).emit e (bit_and_one _) |>.emit _ bit_zero).map _
  · exact bits_shiftZero k i h

theorem bits_fastShl : BitFlags (fastShl k i e s) := by
  rw [fastShl]
  split
  · exact bits_fastShlImm k i e h
  · split
    · exact h
    · dsimp only
      split
      · exact h
      · set dst := k.get i i.op0 s.core
        set count := variableCount k i i.width i.op1 s.core
        have hcf := (h.setShiftFlags k e (sll dst count) i.op0.size).emit e (f := .cf)
          (bit_and_one (srl dst (BitVec.ofNat 64 i.op0.size.bits - count)))
        exact (hcf.emit e ((bit_and_one _).xor (hcf .cf))).map _

theorem bits_fastShr : BitFlags (fastShr k i e s) := by
  rw [fastShr]
  split
  · exact bits_fastShrImm k i e h
  · split
    · exact h
    · dsimp only
      split
      · exact h
      · exact ((h.setShiftFlags k e _ _).emit e (bit_and_one _) |>.emit e (bit_and_one _)).map _

theorem bits_fastSar : BitFlags (fastSar k i e s) := by
  rw [fastSar]
  split
  · exact bits_fastSarImm k i e h
  · dsimp only
    split
    · exact h
    · exact ((h.setShiftFlags k e _ _).emit e (bit_and_one _) |>.emit e bit_zero).map _

theorem bits_doubleShift (value carry : U64 → U64 → U64 → U64 → U64) :
    BitFlags (doubleShift k i e value carry s) := by
  rw [doubleShift]
  dsimp only
  split
  · exact h
  · exact (h.emit e (bit_and_one _) |>.emit e (bit_and_one _) |>.emit e (bit_updateZero _ _ _)
      |>.emit e (bit_updateSign _ _) |>.emit e (bit_updateParity _ _)).map _

theorem bits_fastRor : BitFlags (fastRor k i s) := by
  rw [fastRor]
  dsimp only
  split
  · exact h
  · exact (h.setFlag (bit_and_one _) |>.setFlag ((bit_and_one _).xor (bit_and_one _))).map _

omit h in
theorem bit_rclLoop (bits n : ℕ) {p : U64 × U64} (hp : Bit p.2) : Bit (rclLoop bits n p).2 := by
  induction n generalizing p with
  | zero => exact hp
  | succ n ih => exact ih (bit_and_one _)

omit h in
theorem bit_rcrLoop (bits n : ℕ) {p : U64 × U64} (hp : Bit p.2) : Bit (rcrLoop bits n p).2 := by
  induction n generalizing p with
  | zero => exact hp
  | succ n ih => exact ih (bit_and_one _)

theorem bits_fastRcl : BitFlags (fastRcl k i e s) := by
  have hcf := bit_rclLoop i.width.bits (carryCount k i s.core)
    (p := (k.get i i.op0 s.core, s.flag .cf)) (h .cf)
  exact ((h.setFlag hcf).emit e ((bit_and_one _).xor hcf)).map _

theorem bits_fastRcr : BitFlags (fastRcr k i e s) := by
  have hcf := bit_rcrLoop i.width.bits (carryCount k i s.core)
    (p := (k.get i i.op0 s.core, s.flag .cf)) (h .cf)
  exact ((h.emit e ((bit_and_one _).xor (h .cf))).setFlag hcf).map _

theorem bits_fastImul (opcount : ℕ) : BitFlags (fastImul k i e opcount s) := by
  rw [fastImul]
  split
  · rw [imul1]
    dsimp only
    split <;> exact (h.setMulFlags e (bit_snez _)).map _
  · rw [imul23]
    split
    · exact h
    · exact (h.setFlag (bit_snez _) |>.setFlag (bit_snez _)).map _

theorem bits_fastMul : BitFlags (fastMul k i e s) := by
  rw [fastMul]
  dsimp only
  split <;> exact (h.setMulFlags e (bit_snez _)).map _

theorem bits_divide {value : Core ρ → Option (Core ρ)} (ht : divide i value s = some t) :
    BitFlags t := by
  obtain ⟨c, -, rfl⟩ := Option.map_eq_some_iff.mp ht
  split
  · exact h.throughThreadState.withCore c
  · exact h

theorem bits_bitScan (value : U64 → U64) : BitFlags (bitScan k i value s) := by
  rw [bitScan]
  split
  · exact h.setFlag (bit_seqz _)
  · exact (h.setFlag (bit_seqz _)).map _

theorem bits_fastTzcnt : BitFlags (fastTzcnt k i s) :=
  (h.setFlag (bit_seqz _) |>.setFlag (bit_seqz _)).map _

theorem bits_bitString (m : MemOperand) (update : BitVec 8 → BitVec 8 → BitVec 8) :
    BitFlags (bitString k i m update s) := by
  refine (h.throughThreadState.withCore _).setFlag ?_
  rw [BitVec.setWidth_and]
  exact bit_and_one _

theorem bits_bitInstruction (emitsCf : Bool) (update : Option (U64 → U64 → U64))
    (updateByte : BitVec 8 → BitVec 8 → BitVec 8) :
    BitFlags (bitInstruction k i emitsCf update updateByte s) := by
  rw [bitInstruction]
  split
  · exact bits_bitString k i h _ _
  · cases update with
    | some f => exact (h.emit _ (bit_and_one _)).map _
    | none => exact h.emit _ (bit_and_one _)

theorem bits_fastBlsr : BitFlags (fastBlsr k i e s) :=
  (h.emit e (bit_seqz _) |>.emit e (bit_updateZero _ _ _) |>.emit e (bit_updateSign _ _)).map _

theorem bits_segmentCall (g : Core ρ → Core ρ) : BitFlags (segmentCall k i g s) := by
  rw [segmentCall]
  split
  · exact h.throughThreadState.map g
  · exact h

theorem bits_fastXadd : BitFlags (fastXadd k i e s) := by
  rw [fastXadd]
  split
  · dsimp only
    split
    · exact ((h.withCore _).setAddFlags k e _ _ _ _ _).map _
    · exact (h.withCore _).setAddFlags k e _ _ _ _ _
  · exact (h.setAddFlags k e _ _ _ _ _).map _

theorem bits_fastCmpxchg8b : BitFlags (fastCmpxchg8b k i s) := by
  rw [fastCmpxchg8b]
  split
  · dsimp only
    split
    · exact (h.map _).setFlag bit_one
    · exact (h.setFlag bit_zero).map _
  · exact h

theorem bits_fastCmpxchg16b : BitFlags (fastCmpxchg16b k i s) := by
  rw [fastCmpxchg16b]
  split
  · exact (h.setFlag (bit_ite _)).map _
  · exact h

theorem bits_fastPopf : BitFlags (fastPopf k s) := (h.map _).setFlags _

theorem bits_fastSahf : BitFlags (fastSahf k s) :=
  h.setFlag (bit_and_one _) |>.setFlag (bit_and_one _) |>.setFlag (bit_and_one _)
    |>.setFlag (bit_and_one _) |>.setFlag (bit_and_one _)

theorem bits_comis (r : Comparison) : BitFlags (comis e r s) :=
  h.emit e bit_zero |>.emit e bit_zero |>.emit e bit_zero |>.setFlag (bit_comparison _ _)
    |>.setFlag (bit_comparison _ _) |>.setFlag (bit_comparison _ _)

theorem bits_fastPtest (zero carry : Bool) : BitFlags (fastPtest e zero carry s) :=
  h.emit e (bit_ite _) |>.emit e (bit_ite _) |>.emit e bit_zero |>.emit e bit_zero
    |>.emit e bit_zero |>.emit e bit_zero

theorem bits_fcomi (r : Comparison) (next : ρ) : BitFlags (fcomi r next s) :=
  (h.map _).setFlag (bit_comparison _ _) |>.setFlag (bit_comparison _ _)
    |>.setFlag (bit_comparison _ _)

omit h in
theorem repLoop_invariant {α : Type*} {body : α → α} {again : α → Bool} {I : α → Prop}
    (hbody : ∀ x, I x → I (body x)) (n : ℕ) {x : α} (hx : I x) : I (repLoop body again n x) := by
  induction n generalizing x with
  | zero => exact hx
  | succ n ih =>
    rw [repLoop]
    split
    · exact ih (hbody x hx)
    · exact hbody x hx

omit h in
theorem stringRun_invariant {α : Type*} {body count : α → α} {again : α → Bool} {I : α → Prop}
    (hbody : ∀ x, I x → I (body x)) (hcount : ∀ x, I x → I (count x)) (rcx : U64) {x : α}
    (hx : I x) : I (stringRun i body count again rcx x) := by
  rw [stringRun]
  split
  · exact hbody x hx
  · split
    · exact hx
    · exact repLoop_invariant (fun y hy ↦ hcount _ (hbody y hy)) _ hx

theorem bits_compareRun (body : StringRegs → U64 × U64 × StringRegs) (f : Flag) :
    Bit ((compareRun k i e body s).2 f) := by
  refine stringRun_invariant i (I := fun x : StringRegs × (Flag → U64) ↦ ∀ f, Bit (x.2 f)) ?_ ?_ _
    (x := (stringRegs k i s.core, s.flag)) h f
  · intro x hx
    have hround : BitFlags { s with flag := x.2 } := hx
    exact hround.setCmpFlags k e _ _ _ _ _ _
  · exact fun _ hx ↦ hx

theorem bits_fastCmps : BitFlags (fastCmps k i e s) := fun f ↦ by
  simp only [fastCmps]
  exact bits_compareRun k i e h _ f

theorem bits_fastScas : BitFlags (fastScas k i e s) := fun f ↦ by
  simp only [fastScas]
  exact bits_compareRun k i e h _ f

end Handlers

/-! ## `ROL` and `CMPXCHG` -/

/-- `ROL` takes the path that computes both flags. -/
def rolComputes : Bool :=
  !(k.noflagOpts && (i.op0.size = .qword || i.op0.size = .dword) && i.op1.isImm &&
    !(e .cf || e .of))

/-- No set bit is rotated out of the operand. -/
def RolFits (c : Core ρ) : Prop :=
  rolComputes k i e = true → variableCount k i i.op0.size i.op1 c ≠ 0 → i.op0.size ≠ .qword →
    (k.get i i.op0 c).toNat * 2 ^ (variableCount k i i.op0.size i.op1 c).toNat < 2 ^ i.op0.size.bits

theorem bit_rolValue {size : Size} {dst count : U64}
    (hfits : size ≠ .qword → dst.toNat * 2 ^ count.toNat < 2 ^ size.bits)
    (hcount : count.toNat < 64) :
    Bit (rolValue size dst count >>> (size.bits - 1)) := by
  have hlt : (rolValue size dst count).toNat < 2 ^ size.bits := by
    by_cases hsize : size = .qword
    · subst hsize
      exact (rolValue .qword dst count).isLt
    · have hmul := hfits hsize
      have hbits : size.bits ≤ 32 := by cases size <;> first | decide | exact absurd rfl hsize
      have hpow : 2 ^ size.bits ≤ 2 ^ 64 := Nat.pow_le_pow_right (by decide) (by omega)
      have hdst : dst.toNat ≤ dst.toNat * 2 ^ count.toNat :=
        Nat.le_mul_of_pos_right _ (Nat.two_pow_pos _)
      rw [rolValue, BitVec.toNat_or]
      refine Nat.or_lt_two_pow ?_ ?_
      · rw [sll, toNat_shl, Nat.mod_eq_of_lt hcount]
        exact (Nat.mod_le _ _).trans_lt hmul
      · rw [srl, toNat_shr]
        exact (Nat.div_le_self _ _).trans_lt (hdst.trans_lt hmul)
  refine bit_of_toNat_lt ?_
  have hpos : 0 < size.bits := by cases size <;> decide
  rw [toNat_shr, Nat.div_lt_iff_lt_mul (Nat.two_pow_pos _), ← Nat.pow_succ', Nat.succ_eq_add_one,
    Nat.sub_add_cancel hpos]
  exact hlt

theorem variableCount_lt (size : Size) (op : Operand) (c : Core ρ) :
    (variableCount k i size op c).toNat < 64 := by
  have hmask : countMask size < 64 := by
    rw [countMask]
    split <;> decide
  rw [variableCount, BitVec.toNat_and]
  refine Nat.and_le_right.trans_lt ?_
  rw [BitVec.toNat_ofNat]
  exact (Nat.mod_le _ _).trans_lt hmask

theorem bits_fastRol {s : State ρ} (h : BitFlags s) (hfits : RolFits k i e s.core) :
    BitFlags (fastRol k i e s) := by
  rw [fastRol]
  dsimp only
  split
  · rw [rolNoflags]
    dsimp only
    split <;> exact h
  · next hpath =>
    split
    · exact h
    · next hcount =>
      have hgeneral : rolComputes k i e = true := by
        rw [rolComputes, Bool.not_eq_true']
        exact Bool.eq_false_iff.mpr hpath
      have hof := bit_rolValue (hfits hgeneral hcount) (variableCount_lt k i _ _ _)
      exact (h.setFlag (bit_and_one _) |>.setFlag (hof.xor (bit_and_one _))).map _

/-- The values that the byte and word forms of `CMPXCHG` leave in the flag registers are bits, or
the flags are computed afterwards. -/
def CmpxchgClean (c : Core ρ) : Prop :=
  match i.op0 with
  | .mem m _ =>
    let a := k.lea i m true c
    let old := k.getRef rax i.width c
    let src := k.get i i.op1 c
    match i.width with
    | .byte | .byteHigh =>
      (e .cf ∨ Bit (sllw old (a <<< 3))) ∧ (e .zf ∨ Bit (sllw src (a <<< 3)))
    | .word => (e .cf ∨ Bit (sllw old (a <<< 3))) ∧ (e .zf ∨ Bit (sllw src (a <<< 3))) ∧ e .sf
    | _ => True
  | _ => True

/-- Every flag that is not computed later is a bit. -/
def BitsOr (s : State ρ) : Prop := ∀ f, e f ∨ Bit (s.flag f)

theorem BitsOr.setFlag {s : State ρ} (h : BitsOr e s) {f : Flag} {v : U64} (hv : e f ∨ Bit v) :
    BitsOr e (s.setFlag f v) := by
  intro f'
  rw [State.flag_setFlag]
  split
  · next hf =>
    subst hf
    refine hv.imp_right fun hbit ↦ ?_
    rwa [stored_of_bit hbit]
  · exact h f'

/-- Flags that are not bits may be overwritten. -/
theorem BitsOr.setCmpFlags {s : State ρ} (h : BitsOr e s) (dst src result : U64) (size : Size)
    (zextSrc : Bool) : BitFlags (setCmpFlags k e dst src result size zextSrc false s) := by
  intro f
  have hall := (show BitFlags (⟨s.core, fun _ ↦ 0⟩ : State ρ) from fun _ ↦ bit_zero).setCmpFlags k
    (fun _ ↦ true) dst src result size zextSrc false f
  rw [setCmpFlags_eq, State.flag_assign, if_pos (by simp)] at hall
  rw [setCmpFlags_eq, State.flag_assign]
  split
  · exact hall
  · next hf => exact (h f).resolve_left (by simpa using hf)

theorem bits_cmpxchgLock {s t : State ρ} {m : MemOperand} {size : Size} (h : BitFlags s)
    (hop : i.op0 = .mem m size) (hclean : CmpxchgClean k i e s.core)
    (ht : cmpxchgLock k i e m s = some t) : BitFlags t := by
  have hfinish {s : State ρ} (hs : BitsOr e s) (a dst : U64) (c : Core ρ) :
      BitFlags (if a - dst = 0 then
          setCmpFlags k e a dst (a - dst) i.width false false { s with core := c }
        else (setCmpFlags k e a dst (a - dst) i.width false false { s with core := c }).map
          (k.setRef rax i.width dst)) := by
    have hcore : BitsOr e { s with core := c } := hs
    have hflags := hcore.setCmpFlags k e a dst (a - dst) i.width false
    split
    · exact hflags
    · exact hflags.map _
  have hor : BitsOr e s := fun f ↦ Or.inr (h f)
  have hbyte (hcf : e .cf ∨ Bit (sllw (k.getRef rax i.width s.core) (k.lea i m true s.core <<< 3)))
      (hzf : e .zf ∨ Bit (sllw (k.get i i.op1 s.core) (k.lea i m true s.core <<< 3))) :=
    BitsOr.setFlag e (hor.setFlag e hzf) hcf
  rw [CmpxchgClean, hop] at hclean
  rw [cmpxchgLock] at ht
  dsimp only at hclean ht
  split at ht
  · next hwidth =>
    rw [hwidth] at hclean
    dsimp only at hclean
    rw [← hwidth] at hclean
    split at ht
    · cases ht
    · obtain rfl := Option.some.inj ht
      exact hfinish (hbyte hclean.1 hclean.2) _ _ _
  · next hwidth =>
    rw [hwidth] at hclean
    dsimp only at hclean
    rw [← hwidth] at hclean
    split at ht
    · cases ht
    · obtain rfl := Option.some.inj ht
      exact hfinish (hbyte hclean.1 hclean.2) _ _ _
  · next hwidth =>
    rw [hwidth] at hclean
    dsimp only at hclean
    rw [← hwidth] at hclean
    obtain ⟨hcf, hzf, hsf⟩ := hclean
    split at ht
    · cases ht
    · obtain rfl := Option.some.inj ht
      exact hfinish (((hor.setFlag e hcf).setFlag e (Or.inl hsf)).setFlag e hzf) _ _ _
  · obtain rfl := Option.some.inj ht
    exact hfinish hor _ _ _
  · obtain rfl := Option.some.inj ht
    exact hfinish hor _ _ _

theorem bits_fastCmpxchg {s t : State ρ} (h : BitFlags s) (hclean : CmpxchgClean k i e s.core)
    (ht : fastCmpxchg k i e s = some t) : BitFlags t := by
  rw [fastCmpxchg] at ht
  split at ht
  · next m size hop => exact bits_cmpxchgLock k i e h hop hclean ht
  · obtain rfl := Option.some.inj ht
    exact (h.setCmpFlags k e _ _ _ _ _ _).map _

/-! ## Instructions -/

/-- The instruction leaves bits in the flag registers. -/
def Instr.KeepsBits (x : Instr ρ) (c : Core ρ) : Prop :=
  match x.mnemonic with
  | .rol => RolFits k x.insn e c
  | .cmpxchg => CmpxchgClean k x.insn e c
  | _ => True

/-- What a system call or another unit does keeps `DF`, `ID` and `AC` bits. -/
def Instr.WorldOk (x : Instr ρ) : Prop :=
  match x.mnemonic with
  | .int _ _ world => ∀ c, BitControl c → BitControl (world c)
  | .syscall world => ∀ c, BitControl c → BitControl (world c)
  | .other world => ∀ c, BitControl c → BitControl (world c)
  | _ => True

theorem bits_exec {x : Instr ρ} {s t : State ρ} (h : BitFlags s) (hok : x.KeepsBits k e s.core)
    (ht : x.exec k e s = some t) : BitFlags t := by
  obtain ⟨m, i⟩ := x
  cases m
  case add => exact bits_fastAdd k i e h ht
  case div => exact bits_divide i h ht
  case idiv => exact bits_divide i h ht
  case cmpxchg => exact bits_fastCmpxchg k i e h hok ht
  all_goals
    obtain rfl := Option.some.inj ht
  case sub => exact bits_fastSub k i e h
  case sbb => exact bits_fastSbb k i e h
  case adc => exact bits_fastAdc k i e h
  case cmp => exact bits_fastCmp k i e h
  case or => exact bits_fastOr k i e h
  case xor => exact bits_fastXor k i e h
  case and => exact bits_logic k i e h _
  case test => exact bits_fastTest k i e h
  case inc =>
    exact bits_incDec k i e h _ bit_updateAuxiliaryAdd fun _ _ _ ↦ bit_updateOverflowAdd _ _ _ _
  case dec =>
    exact bits_incDec k i e h _ (fun _ _ ↦ bit_updateAuxiliarySub _ _) fun _ _ _ ↦
      bit_updateOverflowSub _ _ _ _
  case neg => exact bits_fastNeg k i e h
  case shl => exact bits_fastShl k i e h
  case shr => exact bits_fastShr k i e h
  case sar => exact bits_fastSar k i e h
  case shld => exact bits_doubleShift k i e h _ _
  case shrd => exact bits_doubleShift k i e h _ _
  case rol => exact bits_fastRol k i e h hok
  case ror => exact bits_fastRor k i h
  case rcl => exact bits_fastRcl k i e h
  case rcr => exact bits_fastRcr k i e h
  case imul opcount => exact bits_fastImul k i e h opcount
  case mul => exact bits_fastMul k i e h
  case bsf => exact bits_bitScan k i h _
  case bsr => exact bits_bitScan k i h _
  case tzcnt => exact bits_fastTzcnt k i h
  case bt => exact bits_bitInstruction k i h _ _ _
  case btc => exact bits_bitInstruction k i h _ _ _
  case bts => exact bits_bitInstruction k i h _ _ _
  case btr => exact bits_bitInstruction k i h _ _ _
  case blsr => exact bits_fastBlsr k i e h
  case mov => exact bits_segmentCall k i h _
  case pop => exact bits_segmentCall k i h _
  case xadd => exact bits_fastXadd k i e h
  case cmpxchg8b => exact bits_fastCmpxchg8b k i h
  case cmpxchg16b => exact bits_fastCmpxchg16b k i h
  case popf => exact bits_fastPopf k h
  case cmps => exact bits_fastCmps k i e h
  case scas => exact bits_fastScas k i e h
  case clc => exact h.setFlag bit_zero
  case stc => exact h.setFlag bit_one
  case cmc => exact h.setFlag ((h .cf).xor bit_one)
  case sahf => exact bits_fastSahf k h
  case cpuid => exact h.throughThreadState.map _
  case int => exact h.throughThreadState.map _
  case syscall => exact h.throughThreadState.map _
  case iretd => exact h.throughThreadState.map _
  case comis => exact bits_comis e h _
  case ptest => exact bits_fastPtest e h _ _
  case fcomi => exact bits_fcomi h _ _
  case pcmpxstrx => exact fun f ↦ bit_ite _
  -- the others leave the flags alone
  all_goals exact h

theorem toNat_bit_lt (v : U64) : ((v &&& 1).setWidth 8).toNat < 2 := by
  rcases bit_and_one v with h | h <;> rw [h] <;> decide

theorem bitControl_exec {x : Instr ρ} {s t : State ρ} (h : BitControl s.core) (hok : x.WorldOk)
    (ht : x.exec k e s = some t) : BitControl t.core := by
  obtain ⟨m, i⟩ := x
  by_cases hx : m.setsControl
  · cases m
    case cld =>
      obtain rfl := Option.some.inj ht
      exact ⟨show (0 : BitVec 8).toNat < 2 by decide, h.2⟩
    case std =>
      obtain rfl := Option.some.inj ht
      exact ⟨show (1 : BitVec 8).toNat < 2 by decide, h.2⟩
    case popf =>
      obtain rfl := Option.some.inj ht
      exact ⟨toNat_bit_lt _, toNat_bit_lt _, toNat_bit_lt _⟩
    case int result child world =>
      obtain rfl := Option.some.inj ht
      exact hok _ h
    case syscall world =>
      obtain rfl := Option.some.inj ht
      exact hok _ h
    case other world =>
      obtain rfl := Option.some.inj ht
      exact hok _ h
    all_goals cases hx
  · exact h.congr (control_exec k e (by simpa using hx) ht)

/-! ## Reading flags -/

/-- The flag is set. -/
def State.isSet (s : State ρ) (f : Flag) : Bool := s.flag f = 1

/-- The condition with the given number, from the manual: the last bit negates. -/
def condHolds (cond : Fin 16) (f : Flag → Bool) : Bool :=
  let base := match cond.val / 2 with
    | 0 => f .of
    | 1 => f .cf
    | 2 => f .zf
    | 3 => f .cf || f .zf
    | 4 => f .sf
    | 5 => f .pf
    | 6 => f .sf != f .of
    | _ => f .zf || f .sf != f .of
  base != (cond.val % 2 = 1)

/-- The bits of `RFLAGS`. Bit 1 is reserved and set, bit 9 is `IF`. -/
def rflagsBit (f : Flag → Bool) (df id ac : Bool) (n : ℕ) : Bool :=
  match n with
  | 0 => f .cf
  | 1 => true
  | 2 => f .pf
  | 4 => f .af
  | 6 => f .zf
  | 7 => f .sf
  | 9 => true
  | 10 => df
  | 11 => f .of
  | 18 => ac
  | 21 => id
  | _ => false

/-- The bits one after the other. -/
theorem rflagsBit_eq (f : Flag → Bool) (df id ac : Bool) (n : ℕ) : rflagsBit f df id ac n =
    (f .of && decide (n = 11) || df && decide (n = 10) || f .sf && decide (n = 7) ||
      f .zf && decide (n = 6) || f .af && decide (n = 4) || f .pf && decide (n = 2) ||
      f .cf && decide (n = 0) || decide (n = 1) || decide (n = 9) || id && decide (n = 21) ||
      ac && decide (n = 18)) := by
  unfold rflagsBit
  split
  case h_12 => simp_all
  all_goals simp

theorem flag_eq_of_bits {s : State ρ} (h : BitFlags s) (f : Flag) :
    s.flag f = if s.isSet f then 1 else 0 := by
  rw [State.isSet]
  rcases h f with hf | hf <;> rw [hf] <;> decide

theorem getCond_ofBool (cond : Fin 16) (f : Flag → Bool) :
    getCond cond (fun f' ↦ if f f' then (1 : U64) else 0) = if condHolds cond f then 1 else 0 := by
  generalize hcf : f .cf = cf
  generalize hpf : f .pf = pf
  generalize hzf : f .zf = zf
  generalize hsf : f .sf = sf
  generalize hof : f .of = of
  fin_cases cond <;> simp only [getCond, condHolds, hcf, hpf, hzf, hsf, hof] <;>
    clear hcf hpf hzf hsf hof <;> revert cf pf zf sf of <;> decide

theorem getCond_eq {s : State ρ} (h : BitFlags s) (cond : Fin 16) :
    getCond cond s.flag = if condHolds cond s.isSet then 1 else 0 := by
  have hflag : s.flag = fun f ↦ if s.isSet f then 1 else 0 := funext (flag_eq_of_bits h)
  rw [hflag]
  exact getCond_ofBool cond s.isSet

theorem getLsbD_shl_bit (b : Bool) (m n : ℕ) (hn : n < 64) :
    ((if b then (1 : U64) else 0) <<< m).getLsbD n = (b && n = m) := by
  cases b
  · simp
  · simp only [if_true, BitVec.getLsbD_shiftLeft]
    by_cases h : n = m <;> simp [h] <;> omega

theorem setWidth_of_lt_two {v : BitVec 8} (h : v.toNat < 2) :
    v.setWidth 64 = if decide (v = 1) then (1 : U64) else 0 := by
  have hv : v = 0 ∨ v = 1 := by
    rcases Nat.lt_succ_iff_lt_or_eq.mp h with h | h
    · exact Or.inl (BitVec.eq_of_toNat_eq (by simpa using h))
    · exact Or.inr (BitVec.eq_of_toNat_eq (by simpa using h))
  rcases hv with rfl | rfl <;> decide

theorem getLsbD_getFlags {s : State ρ} (h : BitFlags s) (hc : BitControl s.core) {n : ℕ}
    (hn : n < 64) : (getFlags s).getLsbD n =
      rflagsBit s.isSet (s.core.df = 1) (s.core.cpuidBit = 1) (s.core.acBit = 1) n := by
  have hcf : s.flag .cf = (if s.isSet .cf then (1 : U64) else 0) <<< 0 := by
    rw [flag_eq_of_bits h .cf]
    simp
  have hfixed : (0b10 : U64).getLsbD n = decide (n = 1) := getLsbD_shl_bit true 1 n hn
  have hif : (0x200 : U64).getLsbD n = decide (n = 9) := getLsbD_shl_bit true 9 n hn
  simp only [getFlags, setWidth_of_lt_two hc.1, setWidth_of_lt_two hc.2.1,
    setWidth_of_lt_two hc.2.2]
  rw [hcf, flag_eq_of_bits h .pf, flag_eq_of_bits h .af, flag_eq_of_bits h .zf,
    flag_eq_of_bits h .sf, flag_eq_of_bits h .of]
  simp only [BitVec.getLsbD_or, getLsbD_shl_bit _ _ n hn, rflagsBit_eq, hfixed, hif]

/-! ## Runs -/

/-- The flags after some rounds of an instruction's own loop. Those of a string comparison do not
depend on the counter, so they are the flags of the instruction with a smaller one. -/
def Instr.Rounds (x : Instr ρ) (s : State ρ) (flag : Flag → U64) : Prop :=
  let i := x.insn
  match x.mnemonic with
  | .cmps => ∃ n, flag = (fastCmps k i e (s.map (k.setRef rcx i.addressWidth n))).flag
  | .scas => ∃ n, flag = (fastScas k i e (s.map (k.setRef rcx i.addressWidth n))).flag
  | .rcl => ∃ n, flag =
      (s.setFlag .cf (rclLoop i.width.bits n (k.get i i.op0 s.core, s.flag .cf)).2).flag
  | .rcr => ∃ n, flag =
      (s.setFlag .cf (rcrLoop i.width.bits n (k.get i i.op0 s.core, s.flag .cf)).2).flag
  | _ => False

/-- The value of a flag between two of its computations: the one before the instruction, the one
after it, or the one after some rounds of its loop. -/
def Instr.Settled (x : Instr ρ) (s : State ρ) (f : Flag) (v : U64) : Prop :=
  v = s.flag f ∨ (∃ t, x.exec k e s = some t ∧ v = t.flag f) ∨
    ∃ flag, x.Rounds k e s flag ∧ v = flag f

/-- A thread with the flags that `reconstruct_state` has read so far. -/
structure FlagRun (ρ : Type*) where
  state : State ρ
  reads : List (Flag → U64)

/-- An instruction with the flags that are needed after it, or a signal inside its code that finds
the registers as they are `read`. The register of a flag that is in `computing` has been written by
the instruction and will be written again: anything may be there. -/
inductive FlagEvent (ρ : Type*)
  | exec (x : Instr ρ) (needed : Flag → Bool)
  | signal (x : Instr ρ) (needed computing : Flag → Bool) (read : Flag → U64)

/-- A step. When the handler returns, the kernel gives the registers back and the instruction goes
on; what the handler does to the memory is a step of its own. -/
def FlagStep (s : FlagRun ρ) : FlagEvent ρ → FlagRun ρ → Prop
  | .exec x needed, t => ∃ u, x.exec k needed s.state = some u ∧ t = { s with state := u }
  | .signal x needed computing read, t =>
    (∀ f, computing f = false → x.Settled k needed s.state f (read f)) ∧
      t = { s with reads := read :: s.reads }

/-- No step takes one of the paths that leave something else than a bit, and no signal arrives while
the register of a flag is being computed or borrowed. -/
def FlagOk (s : FlagRun ρ) : FlagEvent ρ → Prop
  | .exec x needed => x.WorldOk ∧ x.KeepsBits k needed s.state.core
  | .signal x needed computing _ =>
    x.KeepsBits k needed s.state.core ∧ ∀ f, computing f = false

/-- The flag registers hold bits, also whenever they were read for a signal, and what is read from
them is what the architecture says. -/
structure Readable (s : FlagRun ρ) : Prop where
  bits : BitFlags s.state
  reads : ∀ read ∈ s.reads, ∀ f, Bit (read f)
  cond : ∀ cond, getCond cond s.state.flag = if condHolds cond s.state.isSet then 1 else 0
  rflags : ∀ n < 64, (getFlags s.state).getLsbD n = rflagsBit s.state.isSet
    (s.state.core.df = 1) (s.state.core.cpuidBit = 1) (s.state.core.acBit = 1) n
  threadState : s.state.throughThreadState = s.state

/-- The loops leave bits after each round. -/
theorem bits_of_rounds {x : Instr ρ} {s : State ρ} (h : BitFlags s) {flag : Flag → U64}
    (hrounds : x.Rounds k e s flag) (f : Flag) : Bit (flag f) := by
  obtain ⟨m, i⟩ := x
  cases m
  case cmps =>
    obtain ⟨n, rfl⟩ := hrounds
    exact bits_fastCmps k i e (h.map _) f
  case scas =>
    obtain ⟨n, rfl⟩ := hrounds
    exact bits_fastScas k i e (h.map _) f
  case rcl =>
    obtain ⟨n, rfl⟩ := hrounds
    exact h.setFlag (bit_rclLoop i.width.bits n (p := (k.get i i.op0 s.core, s.flag .cf)) (h .cf)) f
  case rcr =>
    obtain ⟨n, rfl⟩ := hrounds
    exact h.setFlag (bit_rcrLoop i.width.bits n (p := (k.get i i.op0 s.core, s.flag .cf)) (h .cf)) f
  all_goals cases hrounds

/-- So a register that is not being computed holds a bit, wherever the instruction is
interrupted. -/
theorem bit_of_settled {x : Instr ρ} {s : State ρ} (h : BitFlags s) (hok : x.KeepsBits k e s.core)
    {f : Flag} {v : U64} (hv : x.Settled k e s f v) : Bit v := by
  rcases hv with rfl | ⟨t, ht, rfl⟩ | ⟨flag, hrounds, rfl⟩
  · exact h f
  · exact bits_exec k e h hok ht f
  · exact bits_of_rounds k e h hrounds f

/-- The invariant of a run. -/
structure FlagRun.Inv (s : FlagRun ρ) : Prop where
  bits : BitFlags s.state
  control : BitControl s.state.core
  reads : ∀ read ∈ s.reads, ∀ f, Bit (read f)

theorem FlagRun.Inv.step {s t : FlagRun ρ} {ev : FlagEvent ρ} (h : s.Inv)
    (hstep : Guarded (FlagOk k) (FlagStep k) s ev t) : t.Inv := by
  cases ev with
  | exec x needed =>
    obtain ⟨⟨hworld, hkeeps⟩, u, hu, rfl⟩ := hstep
    exact ⟨bits_exec k needed h.bits hkeeps hu, bitControl_exec k needed h.control hworld hu,
      h.reads⟩
  | signal x needed computing read =>
    obtain ⟨⟨hkeeps, hdone⟩, hsettled, rfl⟩ := hstep
    refine ⟨h.bits, h.control, fun read' hmem f ↦ ?_⟩
    rcases List.mem_cons.mp hmem with rfl | hmem
    · exact bit_of_settled k needed h.bits hkeeps (hsettled f (hdone f))
    · exact h.reads read' hmem f

theorem FlagRun.Inv.readable {s : FlagRun ρ} (h : s.Inv) : Readable s where
  bits := h.bits
  reads := h.reads
  cond := getCond_eq h.bits
  rflags _ hn := getLsbD_getFlags h.bits h.control hn
  threadState := State.ext rfl fun f ↦ (h.bits f).zextb

/-- **Flag registers hold bits.** After every sequence of instructions and signals, with any flags
needed after each instruction, in which `ROL` rotates no set bit around a small operand, a byte or
word `CMPXCHG` is followed by a use of the flags whose registers it borrows, and no signal arrives
while a flag is being computed. -/
theorem readable_of_run {s : State ρ} {t : FlagRun ρ} {events : List (FlagEvent ρ)}
    (hrun : Run (Guarded (FlagOk k) (FlagStep k)) ⟨s, []⟩ events t) (hs : BitFlags s)
    (hc : BitControl s.core) : Readable t :=
  (hrun.invariant (I := FlagRun.Inv) ⟨hs, hc, fun _ hread ↦ by cases hread⟩
    fun _ _ _ h hstep ↦ h.step k hstep).readable

/-- `add al, al`, with all flags needed. -/
def addAl : Instr Unit := Mnemonic.on .add .byte (.reg rax .byte) (.reg rax .byte)

/-- The law is not empty: a signal arrives after `add al, al` with zero in `al` has computed its
flags, and then `ZF` is one bit of `RFLAGS`. -/
theorem readable_addAl : ∃ t, addAl.exec (.default false) (fun _ ↦ true) State.zero = some t ∧
    Readable ⟨t, [t.flag]⟩ := by
  obtain ⟨t, ht⟩ : ∃ t, addAl.exec (.default false) (fun _ ↦ true) State.zero = some t := ⟨_, rfl⟩
  have hsignal : Guarded (FlagOk (.default false)) (FlagStep (.default false)) ⟨State.zero, []⟩
      (.signal addAl (fun _ ↦ true) (fun _ ↦ false) t.flag) ⟨State.zero, [t.flag]⟩ :=
    ⟨⟨trivial, fun _ ↦ rfl⟩, fun f _ ↦ Or.inr (Or.inl ⟨t, ht, rfl⟩), rfl⟩
  have hexec : Guarded (FlagOk (.default false)) (FlagStep (.default false))
      ⟨State.zero, [t.flag]⟩ (.exec addAl fun _ ↦ true) ⟨t, [t.flag]⟩ :=
    ⟨⟨trivial, trivial⟩, t, ht, rfl⟩
  have hcontrol : BitControl State.zero.core := ⟨by decide, by decide, by decide⟩
  exact ⟨t, ht, readable_of_run _ (Run.cons hsignal (Run.single hexec)) (fun _ ↦ bit_zero) hcontrol⟩

/-- `rol al, 1`. -/
def rolAl : Instr Unit := Mnemonic.on .rol .byte (.reg rax .byte) (.imm 1 .byte)

/-- `0x80` in `al`. -/
def highBit : State Unit := State.zero.map fun c ↦ c.write rax 0x80

/-- Without the condition the law fails: `rol al, 1` of `0x80` leaves `3` in the register of
`OF`. -/
theorem not_readable_rolAl : ¬∀ (k : Config) (s : State Unit) (t : FlagRun Unit)
    (events : List (FlagEvent Unit)), BitFlags s → BitControl s.core →
      Run (FlagStep k) ⟨s, []⟩ events t → Readable t := by
  intro hall
  obtain ⟨t, ht⟩ : ∃ t, rolAl.exec (.default false) (fun _ ↦ true) highBit = some t := ⟨_, rfl⟩
  have hbits : BitFlags highBit := fun _ ↦ bit_zero
  have hcontrol : BitControl highBit.core := ⟨by decide, by decide, by decide⟩
  have hstep : FlagStep (.default false) ⟨highBit, []⟩ (.exec rolAl fun _ ↦ true) ⟨t, []⟩ :=
    ⟨t, ht, rfl⟩
  have hof := (hall _ _ _ _ hbits hcontrol (Run.single hstep)).bits .of
  have hvalue : (rolAl.exec (.default false) (fun _ ↦ true) highBit).map (fun t ↦ t.flag .of) =
      some 3 := by decide
  rw [ht] at hvalue
  have hthree : t.flag .of = 3 := Option.some.inj hvalue
  rw [hthree] at hof
  exact absurd hof (by decide)

end Jit

end Felix86
