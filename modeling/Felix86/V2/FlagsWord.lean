import Felix86.Hle.SignalContext
import Felix86.V2.PushPop

/-!
# The flags word

Five pieces of code know where the flags stand in the flags word: `getFlags` and `setFlags` of the
recompiler, which `PUSHF` and `POPF` use, the handlers of `LAHF` and `SAHF`,
`ThreadState::GetFlags`, which fills signal frames, and `felix86_iret`.

The recompiler keeps nine bits of the word, gives bit 1 and `IF` as set and all others as clear. The
first four pieces agree on the bits they have in common. `GetFlags` leaves out the two constant bits
and the two bits that only the recompiler keeps. `IRET` reads the word and drops it, and the 16-bit
forms of `PUSHF` and `POPF` have no handler.
-/

namespace Felix86

namespace Jit

open Riscv

variable {ρ : Type*} (k : Config)

/-! ## Handlers -/

/-- `ThreadState::GetFlags`, after `writebackState`. -/
def threadStateFlags (s : State ρ) : U64 :=
  packFlags (s.isSet .cf) (s.isSet .pf) (s.isSet .af) (s.isSet .zf) (s.isSet .sf) (s.core.df = 1)
    (s.isSet .of)

/-- `felix86_iret` in 64-bit mode. It reads `ss` and drops it. -/
def felix86IretLong (c : Core ρ) : Core ρ :=
  let stack := c.gpr rsp
  { c.write rsp (c.mem.load (stack + 24) 8) with rip := c.mem.load stack 8 }

/-- `IRETD` and `IRETQ`. -/
def fastIret (s : State ρ) : State ρ :=
  s.throughThreadState.map fun c ↦ if k.mode32 then felix86Iret c else felix86IretLong c

/-- `PUSHF` of any size. `handlers.inc` has `PUSHFD` and `PUSHFQ`, and every other mnemonic ends in
`ERROR`. -/
def pushf (width : Size) (s : State ρ) : Option (State ρ) :=
  if width = .word then none else some (fastPushf k s)

/-- `POPF` of any size. -/
def popf (width : Size) (s : State ρ) : Option (State ρ) :=
  if width = .word then none else some (fastPopf k s)

/-! ## What the instructions should do -/

/-- `CF`, `PF`, `AF`, `ZF`, `SF`, `DF`, `OF`, `AC` and `ID`. -/
def tracked : U64 := 0x240CD5

/-- The flags word after `POPF` of an image. -/
def flagsWord (image : U64) : U64 := image &&& tracked ||| 0x202

/-- The position of a flag in the flags word. -/
def Flag.index : Flag → ℕ
  | .cf => 0
  | .pf => 2
  | .af => 4
  | .zf => 6
  | .sf => 7
  | .of => 11

/-- The two states have the same flags. -/
structure FlagsEq (s t : State ρ) : Prop where
  flag : s.flag = t.flag
  df : s.core.df = t.core.df
  cpuidBit : s.core.cpuidBit = t.core.cpuidBit
  acBit : s.core.acBit = t.core.acBit

/-- What the pieces of code owe each other. -/
inductive FlagLaw
  /-- `POPF` after `PUSHF`. -/
  | restores (width : Size)
  /-- `PUSHF` after `POPF`. -/
  | returns (width : Size)
  | lahf
  | sahf
  /-- `ThreadState::GetFlags` and `getFlags` agree on some bits. -/
  | threadState (bits : U64)
  | iret
deriving DecidableEq, Repr

/-- The word that `IRET` pops into the flags. -/
def iretImage (c : Core ρ) : U64 :=
  c.mem.load (c.gpr rsp + 2 * k.stackPointerSize) k.stackWidth.bytes

def FlagLaw.Holds (law : FlagLaw) (s : State ρ) : Prop :=
  let stack := s.core.gpr rsp
  match law with
  | .restores width => ∃ s₁ s₂, pushf k width s = some s₁ ∧ popf k width s₁ = some s₂ ∧
      FlagsEq s s₂ ∧ s₂.core.gpr rsp = stack
  | .returns width => ∃ s₁ s₂, popf k width s = some s₁ ∧ pushf k width s₁ = some s₂ ∧
      s₂.core.gpr rsp = stack ∧ s₂.core.mem.load stack width.bytes =
        (low width (flagsWord (s.core.mem.load stack width.bytes))).setWidth 64
  | .lahf => FlagsEq s (fastLahf k s) ∧
      k.getRef rax .byteHigh (fastLahf k s).core = getFlags s &&& 0xff
  | .sahf => (fastSahf k s).core = s.core ∧ (fastSahf k s).flag .of = s.flag .of ∧
      ∀ image : U64, image &&& (0xff : U64) = (s.core.gpr rax >>> 8) &&& 0xff → ∀ f ≠ .of,
        (fastSahf k s).flag f = (setFlags image s).flag f
  | .threadState bits => threadStateFlags s &&& bits = getFlags s &&& bits
  | .iret => (fastIret k s).core.rip = s.core.mem.load stack k.stackWidth.bytes ∧
      (fastIret k s).core.gpr rsp =
        (if k.mode32 then k.wrap (stack + 12) else s.core.mem.load (stack + 24) 8) ∧
      FlagsEq (setFlags (iretImage k s.core) s) (fastIret k s)

/-- The operand sizes that the instruction can have. -/
def FlagLaw.Width : FlagLaw → Prop
  | .restores width => width = .word ∨ width = k.stackWidth
  | .returns width => width = .word ∨ width = k.stackWidth
  | _ => True

/-- When the code does what it should. -/
def FlagLaw.Right (law : FlagLaw) (s : State ρ) : Prop :=
  match law with
  | .restores width => width ≠ .word
  | .returns width => width ≠ .word
  | .lahf => True
  | .sahf => True
  | .threadState bits => bits &&& 0x202 = 0 ∧ (s.core.acBit = 1 → bits.getLsbD 18 = false) ∧
      (s.core.cpuidBit = 1 → bits.getLsbD 21 = false)
  | .iret => getFlags s &&& tracked = iretImage k s.core &&& tracked ∧
      (k.mode32 → (s.core.gpr rsp).toNat + 12 < 2 ^ 32)

/-- Flags and registers are as the recompiler keeps them. -/
structure FlagsReady (s : State ρ) : Prop where
  bits : BitFlags s
  control : BitControl s.core
  zext : k.mode32 → Zext s.core

/-! ## Bits of the word -/

section

variable {s t : State ρ}

theorem Flag.index_lt (f : Flag) : f.index < 64 := by cases f <;> decide

/-- The bit that `setFlags` extracts. -/
theorem shr_and_one (v : U64) (n : ℕ) :
    (v >>> n) &&& 1 = if v.getLsbD n then 1 else 0 := by
  apply BitVec.eq_of_getLsbD_eq
  intro j hj
  rw [BitVec.getLsbD_and, BitVec.getLsbD_ushiftRight]
  by_cases h0 : j = 0
  · subst h0
    cases v.getLsbD n <;> simp
  · cases v.getLsbD n <;> simp [h0]

theorem stored_and_one (f : Flag) (w : U64) : f.stored (w &&& 1#64) = w &&& 1#64 :=
  stored_of_bit (bit_and_one w)

theorem flag_setFlags (v : U64) (s : State ρ) (f : Flag) :
    (setFlags v s).flag f = if v.getLsbD f.index then 1 else 0 := by
  rw [← shr_and_one v f.index]
  cases f <;> simp [setFlags, State.flag_setFlag, stored_and_one, Flag.index]

theorem isSet_setFlags (v : U64) (s : State ρ) (f : Flag) :
    (setFlags v s).isSet f = v.getLsbD f.index := by
  rw [State.isSet, flag_setFlags]
  cases v.getLsbD f.index <;> decide

/-- A flag that `setFlags` stores in a byte. -/
theorem setWidth_shr_and_one (v : U64) (n : ℕ) :
    (((v >>> n) &&& 1).setWidth 8 : BitVec 8) = if v.getLsbD n then 1 else 0 := by
  rw [shr_and_one v n]
  cases v.getLsbD n <;> decide

theorem bitControl_setFlags (v : U64) (s : State ρ) : BitControl (setFlags v s).core :=
  ⟨toNat_bit_lt _, toNat_bit_lt _, toNat_bit_lt _⟩

theorem getLsbD_flagsWord (v : U64) {n : ℕ} (hn : n < 64) :
    (flagsWord v).getLsbD n = rflagsBit (fun f ↦ v.getLsbD f.index) (v.getLsbD 10) (v.getLsbD 21)
      (v.getLsbD 18) n := by
  have hmask : ∀ n < 64, tracked.getLsbD n =
    decide (n ∈ [0, 2, 4, 6, 7, 10, 11, 18, 21]) := by decide
  have hfixed : ∀ n < 64, (0x202 : U64).getLsbD n = decide (n ∈ [1, 9]) := by decide
  rw [flagsWord, BitVec.getLsbD_or, BitVec.getLsbD_and, hmask n hn, hfixed n hn]
  unfold rflagsBit
  split
  case h_12 => simp_all
  all_goals simp [Flag.index]

/-- **`getFlags` after `setFlags`.** -/
theorem getFlags_setFlags (h : BitFlags s) (v : U64) : getFlags (setFlags v s) = flagsWord v := by
  apply BitVec.eq_of_getLsbD_eq
  intro n hn
  have hset : (setFlags v s).isSet = fun f ↦ v.getLsbD f.index := funext (isSet_setFlags v s)
  have hbit : ∀ m, decide ((((v >>> m) &&& 1).setWidth 8 : BitVec 8) = 1) = v.getLsbD m := by
    intro m
    rw [setWidth_shr_and_one v m]
    cases v.getLsbD m <;> decide
  rw [getLsbD_getFlags (h.setFlags v) (bitControl_setFlags v s) hn, hset, getLsbD_flagsWord v hn,
    ← hbit 10, ← hbit 18, ← hbit 21]
  rfl

end

section

variable {s t : State ρ} {v w : U64}

theorem flagsWord_eq_iff : flagsWord v = flagsWord w ↔ v &&& tracked = w &&& tracked := by
  have hmask : ∀ u, flagsWord u &&& tracked = u &&& tracked := fun u ↦ by
    rw [flagsWord, BitVec.and_or_distrib_right, BitVec.and_assoc, BitVec.and_self,
      show (0x202 : U64) &&& tracked = 0#64 by decide, BitVec.or_zero]
  constructor
  · intro h
    rw [← hmask v, h, hmask w]
  · intro h
    rw [flagsWord, h, flagsWord]

/-- The tracked bits are in the lower half. -/
theorem flagsWord_congr (h : LowEq .dword v w) : flagsWord v = flagsWord w := by
  rw [flagsWord_eq_iff]
  apply BitVec.eq_of_getLsbD_eq
  intro n hn
  rw [BitVec.getLsbD_and, BitVec.getLsbD_and]
  by_cases hlow : n < 32
  · rw [h.getLsbD hlow]
  · have hclear : tracked.getLsbD n = false :=
      (BitVec.testBit_toNat tracked).symm.trans (Nat.testBit_lt_two_pow
        (lt_of_lt_of_le (show tracked.toNat < 2 ^ 32 by decide)
          (Nat.pow_le_pow_right two_pos (not_lt.mp hlow))))
    rw [hclear, Bool.and_false, Bool.and_false]

theorem flagsWord_getFlags (h : BitFlags s) (hc : BitControl s.core) :
    flagsWord (getFlags s) = getFlags s := by
  apply BitVec.eq_of_getLsbD_eq
  intro n hn
  have hbit : ∀ m < 64, (getFlags s).getLsbD m = _ := fun m hm ↦ getLsbD_getFlags h hc hm
  have hflag : (fun f : Flag ↦ (getFlags s).getLsbD f.index) = s.isSet := by
    funext f
    rw [hbit _ f.index_lt]
    cases f <;> rfl
  rw [getLsbD_flagsWord _ hn, hflag, hbit 10 (by decide), hbit 18 (by decide),
    hbit 21 (by decide), hbit n hn]
  rfl

theorem eq_of_lt_two {a b : BitVec 8} (ha : a.toNat < 2) (hb : b.toNat < 2)
    (h : decide (a = 1) = decide (b = 1)) : a = b := by
  have heq := setWidth_of_lt_two ha
  rw [h, ← setWidth_of_lt_two hb] at heq
  have hnat := congrArg BitVec.toNat heq
  rw [BitVec.toNat_setWidth, BitVec.toNat_setWidth] at hnat
  apply BitVec.eq_of_toNat_eq
  omega

/-- The flags word has all that the flags have. -/
theorem flagsEq_iff (hs : BitFlags s) (hcs : BitControl s.core) (ht : BitFlags t)
    (hct : BitControl t.core) : FlagsEq s t ↔ getFlags s = getFlags t := by
  constructor
  · rintro ⟨hflag, hdf, hid, hac⟩
    rw [getFlags, getFlags, hflag, hdf, hid, hac]
  · intro h
    have hbit : ∀ m < 64, rflagsBit s.isSet (s.core.df = 1) (s.core.cpuidBit = 1)
        (s.core.acBit = 1) m = rflagsBit t.isSet (t.core.df = 1) (t.core.cpuidBit = 1)
          (t.core.acBit = 1) m := by
      intro m hm
      rw [← getLsbD_getFlags hs hcs hm, h, getLsbD_getFlags ht hct hm]
    refine ⟨funext fun f ↦ ?_, eq_of_lt_two hcs.1 hct.1 (hbit 10 (by decide)),
      eq_of_lt_two hcs.2.1 hct.2.1 (hbit 21 (by decide)),
      eq_of_lt_two hcs.2.2 hct.2.2 (hbit 18 (by decide))⟩
    have hset : s.isSet f = t.isSet f := by
      have hf := hbit f.index f.index_lt
      cases f <;> exact hf
    rw [flag_eq_of_bits hs f, flag_eq_of_bits ht f, hset]

/-- **`POPF` of a word leaves the flags as they were** exactly if the tracked bits of the word are
those of the flags. -/
theorem flagsEq_setFlags_iff (hs : BitFlags s) (hcs : BitControl s.core) (ht : BitFlags t) :
    FlagsEq s (setFlags v t) ↔ getFlags s &&& tracked = v &&& tracked := by
  rw [flagsEq_iff hs hcs (ht.setFlags v) (bitControl_setFlags v t), getFlags_setFlags ht,
    ← flagsWord_eq_iff, flagsWord_getFlags hs hcs]

end

/-! ## `PUSHF` and `POPF` -/

section

variable {k} {s : State ρ} {v w : U64}

/-- A load of eight bytes begins with what a smaller load gives. -/
theorem lowEq_load (m : Mem) (a : U64) (size : Size) : 
    LowEq size (m.load a 8) (m.load a size.bytes) := by
  rw [LowEq, size.bits_eq]
  exact mod_of_bytes fun j hj ↦ by
    rw [byte_load m a le_rfl (lt_of_lt_of_le hj size.bytes_le), byte_load m a size.bytes_le hj]

theorem lowEq_dword_of_stack (h : LowEq k.stackWidth v w) : LowEq .dword v w :=
  h.mod (show 32 ≤ k.stackWidth.bits by rw [Config.stackWidth]; split <;> decide)

/-- The stack pointer comes back, whichever of the two is done first. -/
theorem wrap_add_wrap (hz : k.mode32 → v.toNat < 2 ^ 32) (n : U64) :
    k.wrap (k.wrap (v + n) + -n) = v := by
  cases hmode : k.mode32 with
  | false =>
    rw [wrap_long hmode, wrap_long hmode, BitVec.add_assoc, BitVec.add_right_neg, BitVec.add_zero]
  | true =>
    have hv := hz hmode
    apply BitVec.eq_of_toNat_eq
    rw [toNat_wrap_32 hmode, BitVec.toNat_add, toNat_wrap_32 hmode, BitVec.toNat_add,
      BitVec.toNat_neg]
    have hn := n.isLt
    omega

theorem core_fastPushf (s : State ρ) : (fastPushf k s).core =
    { moveRsp k (-k.stackPointerSize) s.core with
      mem := s.core.mem.store (k.wrap (s.core.gpr rsp + -k.stackPointerSize)) (getFlags s)
        k.stackWidth.bytes } := by
  rw [fastPushf, State.core_map, addRsp_eq, Config.writeMemory, moveRsp, Core.gpr_write, if_pos rfl]
  rfl

theorem fastPopf_eq (s : State ρ) : fastPopf k s =
    setFlags (s.core.mem.load (s.core.gpr rsp) 8) (s.map (moveRsp k k.stackPointerSize)) := by
  rw [fastPopf, show addRsp k k.stackPointerSize = moveRsp k k.stackPointerSize from
    funext (addRsp_eq k.stackPointerSize)]

theorem FlagsReady.toNat_rsp_lt (h : FlagsReady k s) (hmode : k.mode32) :
    (s.core.gpr rsp).toNat < 2 ^ 32 :=
  low32_iff.mp (h.zext hmode rsp)

theorem gpr_rsp_moveRsp (n : U64) (c : Core ρ) :
    (moveRsp k n c).gpr rsp = k.wrap (c.gpr rsp + n) :=
  (Core.gpr_write ..).trans (if_pos rfl)

theorem gpr_rsp_fastPopf (s : State ρ) : (fastPopf k s).core.gpr rsp =
    k.wrap (s.core.gpr rsp + k.stackPointerSize) := by
  rw [fastPopf_eq]
  exact gpr_rsp_moveRsp k.stackPointerSize s.core

theorem gpr_rsp_fastPushf (s : State ρ) : (fastPushf k s).core.gpr rsp =
    k.wrap (s.core.gpr rsp + -k.stackPointerSize) := by
  rw [core_fastPushf]
  exact gpr_rsp_moveRsp (-k.stackPointerSize) s.core

/-- **`POPF` after `PUSHF`.** -/
theorem flagsEq_fastPopf_fastPushf (h : FlagsReady k s) :
    FlagsEq s (fastPopf k (fastPushf k s)) ∧
      (fastPopf k (fastPushf k s)).core.gpr rsp = s.core.gpr rsp := by
  have hbits : BitFlags (fastPushf k s) := h.bits
  constructor
  · have hword : LowEq k.stackWidth
        ((fastPushf k s).core.mem.load ((fastPushf k s).core.gpr rsp) 8) (getFlags s) := by
      refine (lowEq_load _ _ k.stackWidth).trans ?_
      rw [gpr_rsp_fastPushf, core_fastPushf, Mem.toNat_load_store _ _ _ k.stackWidth.bytes_le,
        ← k.stackWidth.bits_eq, Nat.mod_mod]
    rw [fastPopf_eq, flagsEq_setFlags_iff h.bits h.control (hbits.map _), ← flagsWord_eq_iff]
    exact flagsWord_congr (lowEq_dword_of_stack hword).symm
  · rw [gpr_rsp_fastPopf, gpr_rsp_fastPushf]
    have hback := wrap_add_wrap (h.toNat_rsp_lt (s := s)) (-k.stackPointerSize)
    rwa [BitVec.neg_neg] at hback

/-- **`PUSHF` after `POPF`.** -/
theorem load_fastPushf_fastPopf (h : FlagsReady k s) :
    (fastPushf k (fastPopf k s)).core.gpr rsp = s.core.gpr rsp ∧
      (fastPushf k (fastPopf k s)).core.mem.load (s.core.gpr rsp) k.stackWidth.bytes =
        (low k.stackWidth
          (flagsWord (s.core.mem.load (s.core.gpr rsp) k.stackWidth.bytes))).setWidth 64 := by
  have hback := wrap_add_wrap (h.toNat_rsp_lt (s := s)) k.stackPointerSize
  constructor
  · rw [gpr_rsp_fastPushf, gpr_rsp_fastPopf, hback]
  · have hflags : getFlags (fastPopf k s) =
        flagsWord (s.core.mem.load (s.core.gpr rsp) k.stackWidth.bytes) := by
      rw [fastPopf_eq, getFlags_setFlags (h.bits.map _)]
      exact flagsWord_congr (lowEq_dword_of_stack (lowEq_load _ _ _))
    rw [core_fastPushf, gpr_rsp_fastPopf, hback, hflags]
    apply BitVec.eq_of_toNat_eq
    rw [Mem.toNat_load_store _ _ _ k.stackWidth.bytes_le, ← k.stackWidth.bits_eq,
      BitVec.toNat_setWidth, toNat_low]
    exact (Nat.mod_eq_of_lt (lt_of_lt_of_le (Nat.mod_lt _ (Nat.two_pow_pos _))
      (Nat.pow_le_pow_right two_pos k.stackWidth.bits_le))).symm

end

/-! ## The other pieces -/

section

variable {k} {s : State ρ}

/-- What `LAHF` computes. -/
def lahfWord (s : State ρ) : U64 :=
  s.flag .cf ||| (s.flag .pf <<< 2) ||| (s.flag .af <<< 4) ||| (s.flag .zf <<< 6) |||
    (s.flag .sf <<< 7) ||| 0b10

/-- `LAHF` stores the low byte of what `PUSHF` pushes. -/
theorem getRef_fastLahf (h : FlagsReady k s) :
    k.getRef rax .byteHigh (fastLahf k s).core = getFlags s &&& 0xff := by
  have hbits : LowEq .byte (lahfWord s) (getFlags s) := by
    refine lowEq_of_getLsbD fun n hn ↦ ?_
    have hn' : n < 8 := hn
    have hcf : s.flag .cf = (if s.isSet .cf then (1 : U64) else 0) <<< 0 := by
      rw [flag_eq_of_bits h.bits .cf]
      simp
    have hfixed : (0b10 : U64) = (if true then (1 : U64) else 0) <<< 1 := by decide
    rw [getLsbD_getFlags h.bits h.control (by omega), lahfWord, hcf, flag_eq_of_bits h.bits .pf,
      flag_eq_of_bits h.bits .af, flag_eq_of_bits h.bits .zf, flag_eq_of_bits h.bits .sf, hfixed]
    have hn64 : n < 64 := by omega
    simp only [BitVec.getLsbD_or, getLsbD_shl_bit _ _ n hn64]
    interval_cases n <;> simp [rflagsBit]
  have hah : (fastLahf k s).core.gpr rax = k.merge .byteHigh (s.core.gpr rax) (lahfWord s) :=
    (Core.gpr_write ..).trans (if_pos rfl)
  apply BitVec.eq_of_toNat_eq
  have hlow : (lahfWord s).toNat % 2 ^ 8 = (getFlags s).toNat % 2 ^ 8 := hbits
  have hmerge := k.toNat_merge_byteHigh (s.core.gpr rax) (lahfWord s)
  have hand := toNat_and_ff (getFlags s)
  rw [Config.getRef, hah, k.toNat_zext, toNat_shr, hmerge, hand, Size.bits]
  omega

/-- `SAHF` does what `POPF` does with the low byte. -/
theorem flag_fastSahf (s : State ρ) {image : U64}
    (himage : image &&& (0xff : U64) = (s.core.gpr rax >>> 8) &&& 0xff) {f : Flag} (hf : f ≠ .of) :
    (fastSahf k s).flag f = (setFlags image s).flag f := by
  have hah : k.getRef rax .byteHigh s.core = image &&& 0xff := by
    apply BitVec.eq_of_toNat_eq
    rw [himage, toNat_and_ff, Config.getRef, k.toNat_zext]
    rfl
  have hflag : (fastSahf k s).flag f = (((image &&& 0xff) >>> f.index) &&& 1) := by
    rw [← hah]
    cases f <;> simp_all [fastSahf, State.flag_setFlag, stored_and_one, Flag.index]
  have hindex : f.index < 8 := by cases f <;> simp_all [Flag.index]
  have hmask : (0xff : U64).getLsbD f.index = true := by
    generalize f.index = n at hindex
    interval_cases n <;> decide
  rw [hflag, shr_and_one, flag_setFlags, BitVec.getLsbD_and, hmask, Bool.and_true]

theorem setWidth_ofBool (b : Bool) :
    (BitVec.ofBool b).setWidth 64 = if b then (1 : U64) else 0 := by
  cases b <;> decide

theorem getLsbD_threadStateFlags (s : State ρ) {n : ℕ} (hn : n < 64) :
    (threadStateFlags s).getLsbD n = (rflagsBit s.isSet (s.core.df = 1) false false n &&
      decide (n ≠ 1) && decide (n ≠ 9)) := by
  have hcf : ∀ b : Bool, (if b then (1 : U64) else 0) = (if b then (1 : U64) else 0) <<< 0 :=
    fun b ↦ by cases b <;> decide
  rw [threadStateFlags, packFlags]
  simp only [setWidth_ofBool]
  rw [hcf (s.isSet .cf), rflagsBit_eq]
  simp only [BitVec.getLsbD_or, getLsbD_shl_bit _ _ n hn]
  by_cases h1 : n = 1
  · simp [h1]
  · by_cases h9 : n = 9
    · simp [h9]
    · -- the two words have the flags in opposite orders
      simp only [h1, h9, decide_false, Bool.or_false, Bool.false_and, ne_eq,
        not_false_eq_true, decide_true, Bool.and_true]
      ac_rfl

theorem and_0x202_eq_zero_iff (bits : U64) :
    bits &&& 0x202 = 0 ↔ bits.getLsbD 1 = false ∧ bits.getLsbD 9 = false := by
  constructor
  · intro h
    have hbit : ∀ n, (bits.getLsbD n && (0x202 : U64).getLsbD n) = false := fun n ↦ by
      rw [← BitVec.getLsbD_and, h]
      exact BitVec.getLsbD_zero
    have h1 := hbit 1
    have h9 := hbit 9
    exact ⟨by simpa using h1, by simpa using h9⟩
  · rintro ⟨h1, h9⟩
    apply BitVec.eq_of_getLsbD_eq
    intro n hn
    rw [BitVec.getLsbD_and]
    by_cases hn1 : n = 1
    · rw [hn1, h1]
      rfl
    · by_cases hn9 : n = 9
      · rw [hn9, h9]
        rfl
      · have hclear : (0x202 : U64).getLsbD n = false := by interval_cases n <;> first | rfl | omega
        rw [hclear, Bool.and_false]
        exact BitVec.getLsbD_zero.symm

theorem rflagsBit_of_ne (f : Flag → Bool) (df id ac : Bool) {n : ℕ} (h18 : n ≠ 18)
    (h21 : n ≠ 21) : rflagsBit f df id ac n = rflagsBit f df false false n := by
  unfold rflagsBit
  split <;> first | rfl | contradiction

/-- `GetFlags` lacks the constant bits and the two bits that only the recompiler keeps. -/
theorem threadState_iff (h : FlagsReady k s) (bits : U64) :
    (FlagLaw.threadState bits).Holds k s ↔ (FlagLaw.threadState bits).Right k s := by
  have hT : ∀ n < 64, (threadStateFlags s).getLsbD n = _ := fun n hn ↦
    getLsbD_threadStateFlags s hn
  have hG : ∀ n < 64, (getFlags s).getLsbD n = _ := fun n hn ↦
    getLsbD_getFlags h.bits h.control hn
  rw [FlagLaw.Holds, FlagLaw.Right, and_0x202_eq_zero_iff]
  constructor
  · intro heq
    have hbit : ∀ n, ((threadStateFlags s).getLsbD n && bits.getLsbD n) =
        ((getFlags s).getLsbD n && bits.getLsbD n) := fun n ↦ by
      rw [← BitVec.getLsbD_and, ← BitVec.getLsbD_and, heq]
    have h1 := hbit 1
    have h9 := hbit 9
    have h18 := hbit 18
    have h21 := hbit 21
    rw [hT _ (by decide), hG _ (by decide)] at h1 h9 h18 h21
    refine ⟨⟨?_, ?_⟩, fun hac ↦ ?_, fun hid ↦ ?_⟩
    · simpa [rflagsBit] using h1
    · simpa [rflagsBit] using h9
    · simpa [rflagsBit, hac] using h18
    · simpa [rflagsBit, hid] using h21
  · rintro ⟨⟨h1, h9⟩, h18, h21⟩
    apply BitVec.eq_of_getLsbD_eq
    intro n hn
    rw [BitVec.getLsbD_and, BitVec.getLsbD_and, hT n hn, hG n hn]
    by_cases hn1 : n = 1
    · rw [hn1, h1, Bool.and_false, Bool.and_false]
    · by_cases hn9 : n = 9
      · rw [hn9, h9, Bool.and_false, Bool.and_false]
      · rw [decide_eq_true hn1, decide_eq_true hn9, Bool.and_true, Bool.and_true]
        by_cases hn18 : n = 18
        · subst hn18
          by_cases hac : s.core.acBit = 1
          · rw [h18 hac, Bool.and_false, Bool.and_false]
          · rw [decide_eq_false hac]
            rfl
        · by_cases hn21 : n = 21
          · subst hn21
            by_cases hid : s.core.cpuidBit = 1
            · rw [h21 hid, Bool.and_false, Bool.and_false]
            · rw [decide_eq_false hid]
              rfl
          · rw [rflagsBit_of_ne s.isSet _ (s.core.cpuidBit = 1) _ hn18 hn21]

/-- The core after `IRET`. -/
def iretCore (k : Config) (c : Core ρ) : Core ρ :=
  if k.mode32 then felix86Iret c else felix86IretLong c

theorem fastIret_eq (h : BitFlags s) : fastIret k s = s.map (iretCore k) := by
  have hflag : s.throughThreadState = s := State.ext rfl fun f ↦ (h f).zextb
  rw [fastIret, hflag]
  rfl

theorem control_iretCore (c : Core ρ) : (iretCore k c).control = c.control := by
  rw [iretCore]
  split <;> rfl

/-- `IRET` leaves the flags as they are. -/
theorem flagsEq_fastIret_iff (h : FlagsReady k s) :
    FlagsEq (setFlags (iretImage k s.core) s) (fastIret k s) ↔
      getFlags s &&& tracked = iretImage k s.core &&& tracked := by
  have hcontrol := control_iretCore (k := k) s.core
  simp only [Core.control, Prod.mk.injEq] at hcontrol
  obtain ⟨hdf, hid, hac⟩ := hcontrol
  rw [← flagsEq_setFlags_iff h.bits h.control h.bits, fastIret_eq h.bits]
  constructor
  · rintro ⟨hflag, hdf', hid', hac'⟩
    exact ⟨hflag.symm, (hdf'.trans hdf).symm, (hid'.trans hid).symm, (hac'.trans hac).symm⟩
  · rintro ⟨hflag, hdf', hid', hac'⟩
    exact ⟨hflag.symm, (hdf.trans hdf').symm, (hid.trans hid').symm, (hac.trans hac').symm⟩

theorem iret_iff (h : FlagsReady k s) : FlagLaw.iret.Holds k s ↔ FlagLaw.iret.Right k s := by
  rw [FlagLaw.Holds, FlagLaw.Right, flagsEq_fastIret_iff h, fastIret_eq h.bits]
  cases hmode : k.mode32 with
  | false =>
    have hcore : iretCore k s.core = felix86IretLong s.core := by rw [iretCore, hmode]; rfl
    have hwidth : k.stackWidth = .qword := by rw [Config.stackWidth, hmode]; rfl
    have hrsp : (felix86IretLong s.core).gpr rsp = s.core.mem.load (s.core.gpr rsp + 24) 8 := by
      simp only [felix86IretLong, Core.gpr_write, if_true]
    rw [State.core_map, hcore, hwidth, hrsp]
    exact ⟨fun h' ↦ ⟨h'.2.2, fun hfalse ↦ absurd hfalse Bool.false_ne_true⟩,
      fun h' ↦ ⟨rfl, rfl, h'.1⟩⟩
  | true =>
    have hcore : iretCore k s.core = felix86Iret s.core := by rw [iretCore, hmode]; rfl
    have hwidth : k.stackWidth = .dword := by rw [Config.stackWidth, hmode]; rfl
    have hrsp : (felix86Iret s.core).gpr rsp = s.core.gpr rsp + 12 := by
      simp only [felix86Iret, Core.gpr_write, if_true]
    have hlt := h.toNat_rsp_lt hmode
    -- the new stack pointer is not reduced to 32 bits
    have hwrap : s.core.gpr rsp + 12 = k.wrap (s.core.gpr rsp + 12) ↔
        (s.core.gpr rsp).toNat + 12 < 2 ^ 32 := by
      have h12 : (12 : U64).toNat = 12 := rfl
      rw [← BitVec.toNat_inj, toNat_wrap_32 hmode, BitVec.toNat_add, h12]
      omega
    rw [State.core_map, hcore, hwidth, hrsp, if_pos rfl, hwrap]
    exact ⟨fun h' ↦ ⟨h'.2.2, fun _ ↦ h'.2.1⟩, fun h' ↦ ⟨rfl, h'.2 rfl, h'.1⟩⟩

end

/-- **When the pieces agree.** -/
theorem flagLaw_iff {law : FlagLaw} {s : State ρ} (h : FlagsReady k s) (hw : law.Width k) :
    law.Holds k s ↔ law.Right k s := by
  have hwidth : ∀ w : Size, w ≠ .word → w = .word ∨ w = k.stackWidth → w = k.stackWidth :=
    fun w hne hor ↦ hor.resolve_left hne
  cases law with
  | restores width =>
    constructor
    · rintro ⟨s₁, _, hpush, -⟩ rfl
      cases hpush
    · intro hne
      obtain ⟨hflags, hrsp⟩ := flagsEq_fastPopf_fastPushf h
      exact ⟨_, _, if_neg hne, if_neg hne, hflags, hrsp⟩
  | returns width =>
    constructor
    · rintro ⟨s₁, _, hpop, -⟩ rfl
      cases hpop
    · intro hne
      obtain rfl := hwidth width hne hw
      obtain ⟨hrsp, hload⟩ := load_fastPushf_fastPopf h
      exact ⟨_, _, if_neg hne, if_neg hne, hrsp, hload⟩
  | lahf => exact iff_of_true ⟨⟨rfl, rfl, rfl, rfl⟩, getRef_fastLahf h⟩ trivial
  | sahf => exact iff_of_true ⟨rfl, rfl, fun _ himage _ hf ↦ flag_fastSahf s himage hf⟩ trivial
  | threadState bits => exact threadState_iff h bits
  | iret => exact iret_iff h

/-- A state with `CF` and `ID` set and zeros on the stack. -/
def carried : State Unit :=
  (State.zero.map fun c ↦ { c with cpuidBit := 1 }.write rsp 0x10000).setFlag .cf 1

theorem flagsReady_carried : FlagsReady (.default false) carried where
  bits := by
    intro f
    cases f <;> decide
  control := ⟨by decide, by decide, by decide⟩
  zext := nofun

theorem flagLaw_iff_carried : (FlagLaw.restores .qword).Holds (.default false) carried ∧
    (FlagLaw.threadState 0x40CD5).Holds (.default false) carried :=
  ⟨(flagLaw_iff _ flagsReady_carried (Or.inr rfl) :
      (FlagLaw.restores .qword).Holds _ _ ↔ _).mpr Size.noConfusion,
    (flagLaw_iff _ flagsReady_carried trivial :
      (FlagLaw.threadState 0x40CD5).Holds _ _ ↔ _).mpr
      ⟨by decide, fun h ↦ absurd h (by decide), fun _ ↦ by decide⟩⟩

/-- `IRET` with a word of zeros leaves `CF` set, `GetFlags` has no `ID`, and a 16-bit `PUSHF` is no
instruction of the recompiler. -/
theorem not_flagLaw : FlagsReady (.default false) carried ∧
    ¬FlagLaw.iret.Holds (.default false) carried ∧
    ¬(FlagLaw.threadState tracked).Holds (.default false) carried ∧
    ¬(FlagLaw.restores .word).Holds (.default false) carried := by
  refine ⟨flagsReady_carried, ?_, ?_, ?_⟩
  · rw [iret_iff flagsReady_carried]
    exact fun h ↦ absurd h.1 (by decide)
  · rw [threadState_iff flagsReady_carried]
    exact fun h ↦ absurd (h.2.2 (by decide)) (by decide)
  · rintro ⟨_, _, hpush, -⟩
    cases hpush

end Jit

end Felix86
