import Felix86.V2.FlagValues
import Felix86.V2.Instruction
import Felix86.V2.Outcomes
import Felix86.Lib.Numerals
import Mathlib.Tactic.IntervalCases

/-!
# The `LOCK` prefix

With a `LOCK` prefix some handlers emit an atomic instruction, or a loop of `LR` and `SC` on the
aligned word around the operand. Run by one thread this should leave what the form without the
prefix leaves. Memory and registers do; what goes wrong is in the flags. The register an atomic
instruction loads is sign extended, where `updateCarryAdd` and `updateCarrySub` compare whole
registers. Without `Zabha` the handler of `ADD` shifts the old byte or halfword down by the wrong
amount. And the form of `XADD` without the prefix computes the address again after it has written
the register operand.

The atomic forms have the whole address in a register, and the others leave a small displacement to
the access. With 32-bit addresses the two can be different, and `exec_withLock_iff` compares the
forms there as well: each of them changes what is at its own address.
-/

namespace Felix86

namespace Jit

open Numerals Riscv

variable {ρ : Type*} (k : Config) (e : Flag → Bool)

/-! ## The atomic part -/

theorem lowEq_signExtend {n : ℕ} (old : U64) (hn : n ≤ 64) :
    ((old.setWidth n).signExtend 64).toNat % 2 ^ n = old.toNat % 2 ^ n := by
  rw [← BitVec.toNat_setWidth, setWidth_signExtend _ hn, BitVec.toNat_setWidth]

theorem lowEq_amoLoaded (size : Size) (old : U64) : LowEq size (amoLoaded size old) old := by
  cases size with
  | byte => exact lowEq_signExtend old (n := 8) (by decide)
  | byteHigh => exact lowEq_signExtend old (n := 8) (by decide)
  | word => exact lowEq_signExtend old (n := 16) (by decide)
  | dword => exact toNat_sextw_mod old
  | qword => rfl

theorem low_amoLoaded (size : Size) (old : U64) : low size (amoLoaded size old) = low size old := by
  apply BitVec.eq_of_toNat_eq
  rw [toNat_low, toNat_low]
  exact lowEq_amoLoaded size old

/-- Where a mask has ones, a selected byte is the first one. -/
theorem byte_select_ones {x y mask : U64} {j : ℕ} (h : byte mask j = 0xff) :
    byte (((x ^^^ y) &&& mask) ^^^ y) j = byte x j := by
  apply BitVec.eq_of_getLsbD_eq
  intro b hb
  have hmask := congrArg (fun w ↦ w.getLsbD b) h
  have hones : (0xff : BitVec 8).getLsbD b = true := by
    change (BitVec.allOnes 8).getLsbD b = true
    rw [BitVec.getLsbD_allOnes, decide_eq_true hb]
  simp only [getLsbD_byte, hones, hb, decide_true, Bool.true_and] at hmask
  simp only [getLsbD_byte, BitVec.getLsbD_xor, BitVec.getLsbD_and, hmask]
  simp

/-- Where a mask has zeros, a selected byte is the second one. -/
theorem byte_select_zero {x y mask : U64} {j : ℕ} (h : byte mask j = 0) :
    byte (((x ^^^ y) &&& mask) ^^^ y) j = byte y j := by
  apply BitVec.eq_of_getLsbD_eq
  intro b hb
  have hmask := congrArg (fun w ↦ w.getLsbD b) h
  simp only [getLsbD_byte, hb, decide_true, Bool.true_and, BitVec.ofNat_eq_ofNat,
    BitVec.getLsbD_zero] at hmask
  simp only [getLsbD_byte, BitVec.getLsbD_xor, BitVec.getLsbD_and, hmask]
  simp

theorem byte_mask : ∀ r < 4, ∀ n < 3, r + n ≤ 4 → ∀ j < 4,
    byte (slliw (BitVec.ofNat 64 (2 ^ (8 * n) - 1)) (8 * r)) j =
      if r ≤ j ∧ j < r + n then 0xff else 0 := by
  decide

theorem shift_amount (a : U64) : (a <<< 3).toNat % 32 = 8 * (a.toNat % 4) := by
  rw [toNat_shl]
  omega

/-- A byte of a sum whose second summand starts at a byte. -/
theorem byte_add_slliw (old src : U64) {r j : ℕ} (hj : r + j < 4) :
    byte (old + slliw src (8 * r)) (r + j) = byte ((old >>> (8 * r)) + src) j := by
  have hlow := toNat_slliw_mod src (8 * r)
  apply BitVec.eq_of_toNat_eq
  rw [toNat_byte, toNat_byte, BitVec.toNat_add, BitVec.toNat_add, toNat_shr]
  generalize (slliw src (8 * r)).toNat = shifted at hlow ⊢
  have hr : r < 4 := by omega
  have hj' : j < 4 := by omega
  interval_cases r <;> interval_cases j <;> omega

theorem byte_shr_bytes (v : U64) (r j : ℕ) : byte (v >>> (8 * r)) j = byte v (r + j) := by
  apply BitVec.eq_of_getLsbD_eq
  intro b hb
  rw [getLsbD_byte, getLsbD_byte, BitVec.getLsbD_ushiftRight]
  congr 2
  omega

/-- The loop of `ADD` writes the sum at the address of the operand. -/
theorem lrsc_add (c : Core ρ) {a src : U64} {n : ℕ} (hn : n < 3) (ha : a.toNat % 4 + n ≤ 4) :
    (lrsc (· + ·) (BitVec.ofNat 64 (2 ^ (8 * n) - 1)) a (sllw src (a <<< 3)) c).2.mem =
      c.mem.store a (c.mem.load a n + src) n := by
  have hr : a.toNat % 4 < 4 := Nat.mod_lt _ (by decide)
  have hmask := byte_mask _ hr n hn ha
  simp only [lrsc, Config.writeMemory, sllw, shift_amount]
  set word := sextw (c.mem.load (a &&& ~~~(3 : U64)) 4) with hword
  have hbyte (j : ℕ) (hj : j < 4) : byte word j = byte (c.mem.load (a &&& ~~~(3 : U64)) 4) j :=
    byte_congr hj (toNat_sextw_mod _)
  refine Mem.store_part c.mem ha (fun j hj ↦ ?_) fun j hj hout ↦ ?_
  · have hones := hmask (a.toNat % 4 + j) (by omega)
    rw [if_pos (by omega)] at hones
    rw [byte_select_ones hones, byte_add_slliw word src (by omega)]
    -- the sum is that of the part, as far as the part goes
    have hpart : (word >>> (8 * (a.toNat % 4))).toNat % 2 ^ (8 * n) =
        (c.mem.load a n).toNat % 2 ^ (8 * n) :=
      mod_of_bytes fun j hj ↦ by
        rw [byte_shr_bytes, hbyte _ (by omega), Mem.load_part c.mem a ha hj]
    have hdvd : 2 ^ (8 * n) ∣ 2 ^ 64 := pow_dvd_pow 2 (by omega)
    refine byte_congr hj ?_
    rw [BitVec.toNat_add, BitVec.toNat_add, Nat.mod_mod_of_dvd _ hdvd, Nat.mod_mod_of_dvd _ hdvd]
    exact Nat.ModEq.add hpart rfl
  · have hzero := hmask j hj
    rw [if_neg (by omega)] at hzero
    rw [byte_select_zero hzero, hbyte j hj]

/-! ## The two forms -/

/-- The instruction with or without a `LOCK` prefix. -/
def Instr.withLock (x : Instr ρ) (lock : Bool) : Instr ρ :=
  { x with insn := { x.insn with lock := lock } }

/-- The mnemonics whose forms with and without `LOCK` are compared. -/
def Mnemonic.lockable : Mnemonic ρ → Bool
  | .add | .sub | .and | .or | .xor | .inc | .dec | .xadd | .xchg | .cmpxchg => true
  | _ => false

/-- `ADD` has an atomic instruction for this size. -/
def hasAmo (size : Size) : Bool := size = .dword || size = .qword || k.zabha

/-- What the handler of `ADD` shifts down without `Zabha`, for a byte or a halfword. The source,
moved to where the operand is in its word, is taken for the distance: its last five bits at the
start of a word, and zero elsewhere. -/
def broughtDown (size : Size) (a src : U64) (mem : Mem) : BitVec size.bits :=
  low size (mem.load (a &&& ~~~(3 : U64)) 4 >>> if a.toNat % 4 = 0 then src.toNat % 32 else 0)

/-- The old value as the locked `ADD` computes flags from it. -/
def lockedOld (size : Size) (a src : U64) (mem : Mem) : U64 :=
  if hasAmo k size then amoLoaded size (mem.load a size.bytes)
  else if size = .word then (broughtDown size a src mem).signExtend 64
  else (broughtDown size a src mem).setWidth 64

/-- The flags of a sum. `CF` compares it with the whole register of a summand. -/
def sumFlag (size : Size) (dst src : U64) : Flag → Bool
  | .cf => decide ((dst + src).toNat % 2 ^ size.bits < dst.toNat)
  | .pf => X86.parity (low size (dst + src))
  | .af => X86.addAuxiliary (low size dst) (low size src) false
  | .zf => low size (dst + src) == BitVec.ofNat size.bits 0
  | .sf => (low size (dst + src)).msb
  | .of => X86.addOverflow (low size dst) (low size src) false

/-- The flags of a difference. `CF` compares two whole registers. -/
def differenceFlag (size : Size) (dst src test : U64) : Flag → Bool
  | .cf => decide (dst.toNat < test.toNat)
  | .pf => X86.parity (low size (dst - src))
  | .af => X86.subAuxiliary (low size dst) (low size src) false
  | .zf => low size (dst - src) == BitVec.ofNat size.bits 0
  | .sf => (low size (dst - src)).msb
  | .of => X86.subOverflow (low size dst) (low size src) false

/-- The flags of a logic operation. -/
def resultFlag (size : Size) (result : U64) : Flag → Bool
  | .cf => false
  | .pf => X86.parity (low size result)
  | .af => false
  | .zf => low size result == BitVec.ofNat size.bits 0
  | .sf => (low size result).msb
  | .of => false

/-- `CF` is left alone. -/
def butCf (e : Flag → Bool) (f : Flag) : Bool := e f && f ≠ .cf

/-- The flags of `ADD` with the prefix are those without it. -/
def AddAgrees (size : Size) (a src : U64) (mem : Mem) : Prop :=
  let old := mem.load a size.bytes
  if hasAmo k size then
    size ≠ .qword → e .cf →
      old.toNat < 2 ^ (size.bits - 1) ∨ (old.toNat + src.toNat) % 2 ^ size.bits < old.toNat
  else ∀ f, e f → sumFlag size (lockedOld k size a src mem) src f = sumFlag size old src f

/-- The carry of `SUB` with the prefix is that without it. -/
def SubAgrees (size : Size) (old test : U64) : Prop :=
  size = .dword → e .cf → old.toNat < 2 ^ 31 ∨ test ≤ old ∨ sextw old < test

/-- The address `XADD` writes to without the prefix, after the register operand has the old value,
leads to the same memory. It is the same address if that register is not part of it. -/
def XaddAgrees (i : Insn) (m : MemOperand) (size : Size) (c : Core ρ) : Prop :=
  size = .dword ∨ size = .qword →
    let a := k.address i m c
    let old := c.mem.load a size.bytes
    let result := old + k.get i i.op1 c
    let later := if k.keepsLea i m then a else k.address i m (k.set i i.op1 old c)
    c.mem.store later result size.bytes = c.mem.store a result size.bytes

/-- When the form with the prefix does what the form without it does, at one address. -/
def LockAgrees (x : Instr ρ) (m : MemOperand) (size : Size) (c : Core ρ) : Prop :=
  let i := x.insn
  let a := k.address i m c
  let src := k.get i i.op1 c
  match x.mnemonic with
  | .add => AddAgrees k e size a src c.mem
  | .sub =>
    SubAgrees e size (c.mem.load a size.bytes) (if zextSrc i size then k.zext size src else src)
  | .xadd => XaddAgrees k i m size c
  | _ => True

/-- A value that is stored, and flags. -/
structure Stored where
  address : U64
  value : U64
  flag : Flag → Bool

/-- The same memory and the same flags. -/
def Stored.Alike (e : Flag → Bool) (mem : Mem) (n : ℕ) (x y : Stored) : Prop :=
  mem.store x.address x.value n = mem.store y.address y.value n ∧ ∀ f, e f → x.flag f = y.flag f

/-- When the form with the prefix at the one address does what the form without it does at the
other. Only the sizes that have an atomic form matter. -/
def ApartAgrees (x : Instr ρ) (m : MemOperand) (size : Size) (c : Core ρ) : Prop :=
  let i := x.insn
  let a := k.lea i m true c
  let a' := k.address i m c
  let old := c.mem.load a size.bytes
  let old' := c.mem.load a' size.bytes
  let src := k.get i i.op1 c
  let test := if zextSrc i size then k.zext size src else src
  let alike (e : Flag → Bool) := Stored.Alike e c.mem size.bytes
  match x.mnemonic with
  | .add => alike e ⟨a, old + src, sumFlag size (lockedOld k size a src c.mem) src⟩
      ⟨a', old' + src, sumFlag size old' src⟩
  | .sub => size = .dword ∨ size = .qword →
      alike e ⟨a, old - src, differenceFlag size (amoLoaded size old) src test⟩
        ⟨a', old' - src, differenceFlag size old' src test⟩
  | .and => size = .dword ∨ size = .qword →
      alike (butAf e) ⟨a, old &&& src, resultFlag size (old &&& src)⟩
        ⟨a', old' &&& src, resultFlag size (old' &&& src)⟩
  | .or => size = .dword ∨ size = .qword →
      alike (butAf e) ⟨a, old ||| src, resultFlag size (old ||| src)⟩
        ⟨a', old' ||| src, resultFlag size (old' ||| src)⟩
  | .xor => size = .dword ∨ size = .qword →
      alike (butAf e) ⟨a, old ^^^ src, resultFlag size (old ^^^ src)⟩
        ⟨a', old' ^^^ src, resultFlag size (old' ^^^ src)⟩
  | .inc => size = .dword ∨ size = .qword →
      alike (butCf e) ⟨a, old + 1, sumFlag size old 1⟩ ⟨a', old' + 1, sumFlag size old' 1⟩
  | .dec => size = .dword ∨ size = .qword →
      alike (butCf e) ⟨a, old - 1, differenceFlag size old 1 1⟩
        ⟨a', old' - 1, differenceFlag size old' 1 1⟩
  | .xadd => size = .dword ∨ size = .qword → old = old' ∧
      c.mem.store a (old + src) size.bytes =
        c.mem.store (if k.keepsLea i m then a' else k.address i m (k.set i i.op1 old' c))
          (old' + src) size.bytes
  | _ => True

/-! ## Flags as bits -/

section

variable {k : Config} {size : Size} {dst src : U64}

theorem stored_addValues (f : Flag) :
    f.stored (addValues k dst src (dst + src) (dst + src) size f) =
      asFlag (sumFlag size dst src f) := by
  have hsum : low size (dst + src) = X86.sum (low size dst) (low size src) false :=
    (sum_low_false size dst src).symm
  rw [← stored_asFlag]
  congr 1
  cases f with
  | cf => rw [addValues, Config.updateCarryAdd, sltu_eq_asFlag, k.toNat_zext, sumFlag]
  | pf => exact k.updateParity_eq size _
  | af => exact Config.updateAuxiliaryAdd_eq size dst src
  | zf => exact k.updateZero_eq size _
  | sf => exact Config.updateSign_eq size _
  | of => exact Config.updateOverflowAdd_eq hsum

theorem stored_cmpValues (z : Bool) (f : Flag) :
    f.stored (cmpValues k dst src (dst - src) size z f) =
      asFlag (differenceFlag size dst src (if z then k.zext size src else src) f) := by
  have hdiff : low size (dst - src) = X86.difference (low size dst) (low size src) false :=
    (difference_low_false size dst src).symm
  rw [← stored_asFlag]
  congr 1
  cases f with
  | cf => exact sltu_eq_asFlag _ _
  | pf => exact k.updateParity_eq size _
  | af => exact Config.updateAuxiliarySub_eq size dst src
  | zf => exact k.updateZero_eq size _
  | sf => exact Config.updateSign_eq size _
  | of => exact Config.updateOverflowSub_eq hdiff

theorem stored_logicValues (result : U64) (f : Flag) :
    f.stored (logicValues k result size f) = asFlag (resultFlag size result f) := by
  rw [← stored_asFlag]
  congr 1
  cases f with
  | cf => rfl
  | pf => exact k.updateParity_eq size _
  | af => rfl
  | zf => exact k.updateZero_eq size _
  | sf => exact Config.updateSign_eq size _
  | of => rfl

theorem sumFlag_congr {dst' : U64} (h : low size dst = low size dst') {f : Flag} (hf : f ≠ .cf) :
    sumFlag size dst src f = sumFlag size dst' src f := by
  cases f with
  | cf => exact absurd rfl hf
  | _ => simp only [sumFlag, low_add, h]

theorem differenceFlag_congr {dst' test : U64} (h : low size dst = low size dst') {f : Flag}
    (hf : f ≠ .cf) : differenceFlag size dst src test f = differenceFlag size dst' src test f := by
  cases f with
  | cf => exact absurd rfl hf
  | _ => simp only [differenceFlag, low_sub, h]

/-- Two states that differ in what they store and in their flags are the same if these are. -/
theorem State.assign_map_eq_iff {s : State ρ} {e : Flag → Bool} {g h : Core ρ → Core ρ}
    {v w : Flag → U64} :
    (s.map g).assign e v = (s.map h).assign e w ↔
      g s.core = h s.core ∧ ∀ f, e f → f.stored (v f) = f.stored (w f) := by
  constructor
  · intro heq
    refine ⟨congrArg State.core heq, fun f hf ↦ ?_⟩
    have hflag := congrArg (fun t ↦ t.flag f) heq
    simpa only [State.flag_assign, hf, if_true] using hflag
  · rintro ⟨hcore, hflag⟩
    refine State.ext hcore fun f ↦ ?_
    rw [State.flag_assign, State.flag_assign]
    split
    · next hf => exact hflag f hf
    · rfl

/-- Two forms that store a value and assign flags are alike or not as these are. -/
theorem alike_iff {s : State ρ} {e : Flag → Bool} {a a' r r' : U64} {v w : Flag → U64}
    {p q : Flag → Bool} (hv : ∀ f, e f → f.stored (v f) = asFlag (p f))
    (hw : ∀ f, e f → f.stored (w f) = asFlag (q f)) :
    (s.map (Config.writeMemory a r size)).assign e v =
        (s.map (Config.writeMemory a' r' size)).assign e w ↔
      Stored.Alike e s.core.mem size.bytes ⟨a, r, p⟩ ⟨a', r', q⟩ := by
  have hcore : Config.writeMemory a r size s.core = Config.writeMemory a' r' size s.core ↔
      s.core.mem.store a r size.bytes = s.core.mem.store a' r' size.bytes := by
    simp [Config.writeMemory]
  have hflag : (∀ f, e f → f.stored (v f) = f.stored (w f)) ↔ ∀ f, e f → p f = q f := by
    refine forall_congr' fun f ↦ forall_congr' fun hf ↦ ?_
    rw [hv f hf, hw f hf, asFlag_inj]
  rw [State.assign_map_eq_iff, hcore, hflag, Stored.Alike]

end

/-! ## Addition -/

theorem toNat_signExtend_of_lt {old : U64} {n : ℕ} (hold : old.toNat < 2 ^ n) :
    ((old.setWidth n).signExtend 64).toNat =
      if old.toNat < 2 ^ (n - 1) then old.toNat else old.toNat + (2 ^ 64 - 2 ^ n) := by
  rw [BitVec.toNat_signExtend, BitVec.msb_eq_decide, BitVec.toNat_setWidth, BitVec.toNat_setWidth,
    Nat.mod_eq_of_lt hold, Nat.mod_eq_of_lt old.isLt]
  by_cases h : old.toNat < 2 ^ (n - 1)
  · rw [if_pos h, if_neg (by simpa using h), Nat.add_zero]
  · rw [if_neg h, if_pos (by simpa using h)]

theorem toNat_amoLoaded {size : Size} (hsize : size ≠ .qword) {old : U64}
    (hold : old.toNat < 2 ^ size.bits) :
    (amoLoaded size old).toNat =
      if old.toNat < 2 ^ (size.bits - 1) then old.toNat
      else old.toNat + (2 ^ 64 - 2 ^ size.bits) := by
  cases size with
  | qword => exact absurd rfl hsize
  | _ => exact toNat_signExtend_of_lt hold

theorem sltu_eq_iff {a b c d : U64} : sltu a b = sltu c d ↔ (a < b ↔ c < d) := by
  by_cases hab : a < b <;> by_cases hcd : c < d <;> simp [sltu, hab, hcd]

theorem updateCarryAdd_amoLoaded {size : Size} (hsize : size ≠ .qword) {old src : U64}
    (hold : old.toNat < 2 ^ size.bits) :
    k.updateCarryAdd (amoLoaded size old) (amoLoaded size old + src) size =
        k.updateCarryAdd old (old + src) size ↔
      old.toNat < 2 ^ (size.bits - 1) ∨ (old.toNat + src.toNat) % 2 ^ size.bits < old.toNat := by
  have hsum : LowEq size (amoLoaded size old + src) (old + src) :=
    (lowEq_amoLoaded size old).add rfl
  have hload := toNat_amoLoaded hsize hold
  have hzext : (k.zext size (old + src)).toNat = (old.toNat + src.toNat) % 2 ^ size.bits := by
    rw [k.toNat_zext, BitVec.toNat_add, Nat.mod_mod_of_dvd _ (pow_dvd_pow 2 size.bits_le)]
  rw [Config.updateCarryAdd, Config.updateCarryAdd, k.zext_congr hsum, sltu_eq_iff,
    BitVec.lt_def, BitVec.lt_def, hzext, hload]
  have hmod : (old.toNat + src.toNat) % 2 ^ size.bits < 2 ^ size.bits :=
    Nat.mod_lt _ (Nat.two_pow_pos _)
  have hhalf : 2 ^ size.bits = 2 ^ (size.bits - 1) * 2 := by
    rw [← Nat.pow_succ]
    congr 1
    have := size.le_bits
    omega
  have hbound : 2 ^ size.bits ≤ 2 ^ 32 :=
    Nat.pow_le_pow_right (by decide) (by cases size <;> simp_all [Size.bits])
  split <;> omega

section

variable {k e} {i : Insn} {m : MemOperand} {size : Size} {s : State ρ}

theorem fastAdd_plain (hop : i.op0 = .mem m size) (hlock : i.lock = false) :
    let old := s.core.mem.load (k.address i m s.core) size.bytes
    let src := k.get i i.op1 s.core
    fastAdd k i e s =
      some ((s.map (Config.writeMemory (k.address i m s.core) (old + src) size)).assign e
        (addValues k old src (old + src) (old + src) size)) := by
  intro old src
  simp only [fastAdd, hop, hlock, Operand.isReg, Bool.and_false, Bool.false_eq_true, if_false,
    setAddFlags_eq]
  rfl

/-- The loop of `LR` and `SC` as a store. -/
theorem lrsc_add_eq (size : Size) (c : Core ρ) (a src ones : U64) (hn : size.bytes < 3)
    (hones : ones = BitVec.ofNat 64 (2 ^ (8 * size.bytes) - 1))
    (ha : a.toNat % 4 + size.bytes ≤ 4) :
    lrsc (· + ·) ones a (sllw src (a <<< 3)) c =
      (sextw (c.mem.load (a &&& ~~~(3 : U64)) 4),
        Config.writeMemory a (c.mem.load a size.bytes + src) size c) := by
  rw [Config.writeMemory, ← lrsc_add c hn ha, hones]
  rfl

/-- The distance by which the handler shifts down. -/
theorem shiftDistance (a src : U64) :
    (sllw src (a <<< 3)).toNat % 32 = if a.toNat % 4 = 0 then src.toNat % 32 else 0 := by
  have hr : a.toNat % 4 < 4 := Nat.mod_lt _ (by decide)
  have hlow := toNat_slliw_mod src (8 * (a.toNat % 4))
  rw [sllw, shift_amount]
  generalize (slliw src (8 * (a.toNat % 4))).toNat = shifted at hlow ⊢
  generalize a.toNat % 4 = r at hr hlow ⊢
  split
  · next hzero =>
    rw [hzero] at hlow
    omega
  · next hne => interval_cases r <;> omega

theorem and_mask_eq_setWidth {n : ℕ} (hn : n = 8) (v : U64) :
    v &&& 0xff = (v.setWidth n).setWidth 64 := by
  subst hn
  apply BitVec.eq_of_toNat_eq
  rw [BitVec.toNat_setWidth, BitVec.toNat_setWidth]
  have hmask : (v &&& 0xff).toNat = v.toNat % 2 ^ 8 := toNat_and_mask v (show 8 ≤ 64 by decide)
  omega

theorem sexth_eq (v : U64) : k.sexth v = (v.setWidth 16).signExtend 64 := by
  rw [Config.sexth]
  split
  · rfl
  · apply BitVec.eq_of_getLsbD_eq
    intro n hn
    have hmsb : (v <<< 48).msb = (v.setWidth 16).msb := by
      rw [BitVec.msb_eq_getLsbD_last, BitVec.msb_eq_getLsbD_last]
      simp
    rw [BitVec.getLsbD_sshiftRight, BitVec.getLsbD_signExtend, hmsb]
    by_cases hlow : n < 16
    · simp [hlow, hn, show 48 + n < 64 by omega]
    · simp [hlow, hn, show ¬ 48 + n < 64 by omega]

/-- The last bits of what is shifted down. -/
theorem low_shiftedDown (hsize : size.bits ≤ 16) (a src : U64) (mem : Mem) :
    low size (srlw (sextw (mem.load (a &&& ~~~(3 : U64)) 4)) (sllw src (a <<< 3))) =
      broughtDown size a src mem := by
  rw [srlw, shiftDistance, broughtDown]
  have hword := Mem.load_lt mem (a &&& ~~~(3 : U64)) (show 4 ≤ 8 by decide)
  generalize mem.load (a &&& ~~~(3 : U64)) 4 = word at hword ⊢
  generalize (if a.toNat % 4 = 0 then src.toNat % 32 else 0) = n
  have hdvd : 2 ^ size.bits ∣ 2 ^ 32 := pow_dvd_pow 2 (by omega)
  apply BitVec.eq_of_toNat_eq
  rw [toNat_low, toNat_low, ← Nat.mod_mod_of_dvd _ hdvd, toNat_srliw_mod, toNat_sextw_mod,
    Nat.mod_eq_of_lt hword, toNat_shr]

theorem lockedAdd_byte (hop : i.op0 = .mem m size) (hsize : size = .byte ∨ size = .byteHigh)
    {c : Core ρ} {a : U64} (src : U64) (haddress : k.lea i m true c = a) :
    lockedAdd k i src c =
      some (lockedOld k size a src c.mem,
        Config.writeMemory a (c.mem.load a size.bytes + src) size c) := by
  have hbytes : size.bytes = 1 := by obtain rfl | rfl := hsize <;> rfl
  have hloop := lrsc_add_eq size c a src 0xff (by omega)
    (by rw [hbytes]; decide) (by omega)
  have hsmall : size ≠ .dword ∧ size ≠ .qword ∧ size ≠ .word := by
    obtain rfl | rfl := hsize <;> decide
  have hhandler : lockedAdd k i src c =
      if k.zabha then some (amo (· + ·) .byte a src c)
      else
        let p := lrsc (· + ·) 0xff a (sllw src (a <<< 3)) c
        some (srlw p.1 (sllw src (a <<< 3)) &&& 0xff, p.2) := by
    obtain rfl | rfl := hsize <;> simp only [lockedAdd, hop, haddress]
  rw [hhandler, hloop, lockedOld]
  by_cases hz : k.zabha = true
  · rw [if_pos hz, if_pos (by simp [hasAmo, hz])]
    obtain rfl | rfl := hsize <;> rfl
  · have hbyte : srlw (sextw (c.mem.load (a &&& ~~~(3 : U64)) 4)) (sllw src (a <<< 3)) &&& 0xff =
        (broughtDown size a src c.mem).setWidth 64 := by
      have hbits : size.bits = 8 := by obtain rfl | rfl := hsize <;> rfl
      rw [← low_shiftedDown (by omega), low, and_mask_eq_setWidth hbits]
    rw [if_neg hz, if_neg (by simp [hasAmo, hz, hsmall]), if_neg hsmall.2.2, ← hbyte]

theorem lockedAdd_word (hop : i.op0 = .mem m .word) {c : Core ρ} {a : U64} (src : U64)
    (haddress : k.lea i m true c = a) (haligned : 2 ∣ a.toNat) :
    lockedAdd k i src c =
      some (lockedOld k .word a src c.mem,
        Config.writeMemory a (c.mem.load a Size.word.bytes + src) .word c) := by
  have hbytes : Size.word.bytes = 2 := rfl
  have hloop := lrsc_add_eq .word c a src 0xffff (by decide)
    (by decide) (by omega)
  have hin : ¬ a &&& 3 = 3 := by
    intro h
    have hmask : (a &&& 3).toNat = a.toNat % 4 := toNat_and_mask a (show 2 ≤ 64 by decide)
    have hthree : (a &&& 3).toNat = 3 := congrArg BitVec.toNat h
    omega
  simp only [lockedAdd, hop, haddress]
  rw [hloop, if_neg hin, lockedOld]
  by_cases hz : k.zabha = true
  · rw [if_pos hz, if_pos (by simp [hasAmo, hz])]
    rfl
  · rw [if_neg hz, if_neg (by simp [hasAmo, hz]), if_pos rfl, sexth_eq,
      ← low_shiftedDown (show Size.word.bits ≤ 16 by decide)]
    rfl

theorem lockedAdd_eq (hop : i.op0 = .mem m size) {c : Core ρ} {a : U64} (src : U64)
    (haddress : k.lea i m true c = a) (haligned : size.bytes ∣ a.toNat) :
    lockedAdd k i src c =
      some (lockedOld k size a src c.mem,
        Config.writeMemory a (c.mem.load a size.bytes + src) size c) := by
  cases size with
  | byte => exact lockedAdd_byte hop (.inl rfl) src haddress
  | byteHigh => exact lockedAdd_byte hop (.inr rfl) src haddress
  | word => exact lockedAdd_word hop src haddress haligned
  | dword =>
    simp only [lockedAdd, hop, haddress]
    rfl
  | qword =>
    simp only [lockedAdd, hop, haddress]
    rfl

theorem fastAdd_locked (hop : i.op0 = .mem m size) (hlock : i.lock = true)
    (haligned : size.bytes ∣ (k.lea i m true s.core).toNat) :
    let a := k.lea i m true s.core
    let old := s.core.mem.load a size.bytes
    let src := k.get i i.op1 s.core
    let dst := lockedOld k size a src s.core.mem
    fastAdd k i e s =
      some ((s.map (Config.writeMemory a (old + src) size)).assign e
        (addValues k dst src (dst + src) (dst + src) size)) := by
  intro a old src dst
  simp only [fastAdd, hop, hlock, Operand.isReg, Operand.isMem, Bool.and_false, Bool.and_true,
    Bool.false_eq_true, if_false, if_true]
  rw [lockedAdd_eq hop _ rfl haligned, Option.map_some, setAddFlags_eq]
  rfl

/-- The two forms of `ADD`, each at its address. -/
theorem fastAdd_alike_iff (hop : i.op0 = .mem m size)
    (haligned : size.bytes ∣ (k.lea i m true s.core).toNat) :
    let a := k.lea i m true s.core
    let a' := k.address i m s.core
    let src := k.get i i.op1 s.core
    fastAdd k { i with lock := true } e s = fastAdd k { i with lock := false } e s ↔
      Stored.Alike e s.core.mem size.bytes
        ⟨a, s.core.mem.load a size.bytes + src,
          sumFlag size (lockedOld k size a src s.core.mem) src⟩
        ⟨a', s.core.mem.load a' size.bytes + src,
          sumFlag size (s.core.mem.load a' size.bytes) src⟩ := by
  intro a a' src
  rw [fastAdd_locked (i := { i with lock := true }) hop rfl haligned,
    fastAdd_plain (i := { i with lock := false }) hop rfl, Option.some_inj]
  exact alike_iff (fun f _ ↦ stored_addValues f) fun f _ ↦ stored_addValues f

/-- At one address the flags are left, and with an atomic instruction only `CF`. -/
theorem addAgrees_iff {mem : Mem} {a src : U64} :
    (∀ f, e f → sumFlag size (lockedOld k size a src mem) src f =
      sumFlag size (mem.load a size.bytes) src f) ↔ AddAgrees k e size a src mem := by
  have hold : (mem.load a size.bytes).toNat < 2 ^ size.bits := by
    rw [size.bits_eq]
    exact Mem.load_lt mem a size.bytes_le
  rw [AddAgrees]
  split
  · next hamo =>
    rw [lockedOld, if_pos hamo]
    generalize mem.load a size.bytes = old at hold ⊢
    by_cases hq : size = .qword
    · subst hq
      simp [amoLoaded]
    · have hcf : sumFlag size (amoLoaded size old) src .cf = sumFlag size old src .cf ↔
          old.toNat < 2 ^ (size.bits - 1) ∨
            (old.toNat + src.toNat) % 2 ^ size.bits < old.toNat := by
        rw [← updateCarryAdd_amoLoaded k hq hold, ← asFlag_inj, ← stored_addValues (k := k),
          ← stored_addValues (k := k)]
        rfl
      constructor
      · intro h _ he
        exact hcf.mp (h .cf he)
      · intro h f hf
        by_cases hne : f = .cf
        · subst hne
          exact hcf.mpr (h hq hf)
        · exact sumFlag_congr (low_amoLoaded size old) hne
  · exact Iff.rfl

/-! ## The other instructions -/

theorem atomicOperand_plain (hlock : i.lock = false) : atomicOperand i = none := by
  rw [atomicOperand]
  split <;> simp [hlock]

theorem atomicOperand_small (hop : i.op0 = .mem m size)
    (hsize : ¬ (size = .dword ∨ size = .qword)) :
    atomicOperand i = none := by
  cases size <;> simp_all [atomicOperand]

theorem atomicOperand_locked (hop : i.op0 = .mem m size) (hsize : size = .dword ∨ size = .qword)
    (hlock : i.lock = true) : atomicOperand i = some (m, size) := by
  obtain rfl | rfl := hsize <;> simp [atomicOperand, hop, hlock]

theorem fastSub_plain (hop : i.op0 = .mem m size) (hnone : atomicOperand i = none) :
    let old := s.core.mem.load (k.address i m s.core) size.bytes
    let src := k.get i i.op1 s.core
    fastSub k i e s =
      (s.map (Config.writeMemory (k.address i m s.core) (old - src) size)).assign e
        (cmpValues k old src (old - src) size (zextSrc i size)) := by
  intro old src
  simp only [fastSub, hop, hnone, Operand.isReg, Bool.and_false, Bool.false_eq_true, if_false,
    setCmpFlags_eq]
  rfl

theorem fastSub_locked (hop : i.op0 = .mem m size) (hsome : atomicOperand i = some (m, size)) :
    let a := k.lea i m true s.core
    let old := s.core.mem.load a size.bytes
    let src := k.get i i.op1 s.core
    fastSub k i e s =
      (s.map (Config.writeMemory a (old - src) size)).assign e
        (cmpValues k (amoLoaded size old) src (amoLoaded size old - src) size
          (zextSrc i size)) := by
  intro a old src
  simp only [fastSub, hop, hsome, Operand.isReg, Bool.and_false, Bool.false_eq_true, if_false,
    setCmpFlags_eq, amo, BitVec.sub_eq_add_neg]
  rfl

/-- The two forms of `SUB`, each at its address. -/
theorem fastSub_alike_iff (hop : i.op0 = .mem m size) :
    let a := k.lea i m true s.core
    let a' := k.address i m s.core
    let old := s.core.mem.load a size.bytes
    let old' := s.core.mem.load a' size.bytes
    let src := k.get i i.op1 s.core
    let test := if zextSrc i size then k.zext size src else src
    fastSub k { i with lock := true } e s = fastSub k { i with lock := false } e s ↔
      (size = .dword ∨ size = .qword → Stored.Alike e s.core.mem size.bytes
        ⟨a, old - src, differenceFlag size (amoLoaded size old) src test⟩
        ⟨a', old' - src, differenceFlag size old' src test⟩) := by
  intro a a' old old' src test
  rw [fastSub_plain (i := { i with lock := false }) hop (atomicOperand_plain rfl)]
  by_cases hsize : size = .dword ∨ size = .qword
  · rw [fastSub_locked (i := { i with lock := true }) hop (atomicOperand_locked hop hsize rfl),
      forall_prop_of_true hsize]
    exact alike_iff (fun f _ ↦ stored_cmpValues _ f) fun f _ ↦ stored_cmpValues _ f
  · rw [fastSub_plain (i := { i with lock := true }) hop (atomicOperand_small hop hsize)]
    exact iff_of_true rfl fun h ↦ absurd h hsize

/-- At one address the flags are left, and of these `CF`. -/
theorem subAgrees_iff (hsize : size = .dword ∨ size = .qword) {old src test : U64}
    (hold : old.toNat < 2 ^ size.bits) :
    (∀ f, e f → differenceFlag size (amoLoaded size old) src test f =
      differenceFlag size old src test f) ↔ SubAgrees e size old test := by
  have hcarry : differenceFlag size (amoLoaded size old) src test .cf =
      differenceFlag size old src test .cf ↔
        (size = .dword → old.toNat < 2 ^ 31 ∨ test ≤ old ∨ sextw old < test) := by
    rw [differenceFlag, differenceFlag, decide_eq_decide]
    obtain rfl | rfl := hsize
    · have hload : (amoLoaded .dword old).toNat =
          if old.toNat < 2 ^ 31 then old.toNat else old.toNat + (2 ^ 64 - 2 ^ 32) :=
        toNat_amoLoaded (by decide) hold
      have hsext : (sextw old).toNat = (amoLoaded .dword old).toNat := rfl
      have hfits : old.toNat < 2 ^ 32 := hold
      simp only [BitVec.lt_def, BitVec.le_def, forall_const, hsext]
      split at hload <;> omega
    · simp [amoLoaded]
  constructor
  · intro h hdword hcf
    exact hcarry.mp (h .cf hcf) hdword
  · intro h f hf
    by_cases hcf : f = .cf
    · subst hcf
      exact hcarry.mpr fun hdword ↦ h hdword hf
    · exact differenceFlag_congr (low_amoLoaded size old) hcf

theorem logic_plain {op : U64 → U64 → U64} (hop : i.op0 = .mem m size)
    (hnone : atomicOperand i = none) :
    let result := op (s.core.mem.load (k.address i m s.core) size.bytes) (k.get i i.op1 s.core)
    logic k i e op s =
      (s.map (Config.writeMemory (k.address i m s.core) result size)).assign (butAf e)
        (logicValues k result size) := by
  intro result
  simp only [logic, hop, hnone, setLogicFlags_eq]
  rfl

theorem logic_locked {op : U64 → U64 → U64}
    (hlow : ∀ {a a' b b' : U64}, LowEq size a a' → LowEq size b b' → LowEq size (op a b) (op a' b'))
    (hop : i.op0 = .mem m size) (hsome : atomicOperand i = some (m, size)) :
    let a := k.lea i m true s.core
    let result := op (s.core.mem.load a size.bytes) (k.get i i.op1 s.core)
    logic k i e op s =
      (s.map (Config.writeMemory a result size)).assign (butAf e) (logicValues k result size) := by
  intro a result
  have hresult := hlow (lowEq_amoLoaded size (s.core.mem.load a size.bytes))
    (rfl : LowEq size (k.get i i.op1 s.core) _)
  simp only [logic, hop, hsome, amo, setLogicFlags_eq]
  rw [show (Operand.mem m size).size = size from rfl, k.logicValues_congr hresult]
  rfl

/-- The two forms of a logic instruction, each at its address. -/
theorem logic_alike_iff {op : U64 → U64 → U64}
    (hlow : ∀ {a a' b b' : U64}, LowEq size a a' → LowEq size b b' → LowEq size (op a b) (op a' b'))
    (hop : i.op0 = .mem m size) :
    let a := k.lea i m true s.core
    let a' := k.address i m s.core
    let result := op (s.core.mem.load a size.bytes) (k.get i i.op1 s.core)
    let result' := op (s.core.mem.load a' size.bytes) (k.get i i.op1 s.core)
    logic k { i with lock := true } e op s = logic k { i with lock := false } e op s ↔
      (size = .dword ∨ size = .qword → Stored.Alike (butAf e) s.core.mem size.bytes
        ⟨a, result, resultFlag size result⟩ ⟨a', result', resultFlag size result'⟩) := by
  intro a a' result result'
  rw [logic_plain (i := { i with lock := false }) hop (atomicOperand_plain rfl)]
  by_cases hsize : size = .dword ∨ size = .qword
  · rw [logic_locked (i := { i with lock := true }) hlow hop (atomicOperand_locked hop hsize rfl),
      forall_prop_of_true hsize]
    exact alike_iff (fun f _ ↦ stored_logicValues _ f) fun f _ ↦ stored_logicValues _ f
  · rw [logic_plain (i := { i with lock := true }) hop (atomicOperand_small hop hsize)]
    exact iff_of_true rfl fun h ↦ absurd h hsize

/-- The flags of `INC` and `DEC`. -/
def incDecValues (k : Config) (af : U64 → U64 → U64) (of : U64 → U64 → Size → U64) (dst res : U64)
    (size : Size) : Flag → U64
  | .cf => 0
  | .pf => k.updateParity res
  | .af => af dst res
  | .zf => k.updateZero res size
  | .sf => Config.updateSign res size
  | .of => of dst res size

section IncDec

variable {step : U64} {af : U64 → U64 → U64} {of : U64 → U64 → Size → U64}

theorem incDec_plain (hop : i.op0 = .mem m size) (hnone : atomicOperand i = none) :
    let old := s.core.mem.load (k.address i m s.core) size.bytes
    incDec k i e step af of s =
      (s.map (Config.writeMemory (k.address i m s.core) (old + step) size)).assign (butCf e)
        (incDecValues k af of old (old + step) size) := by
  intro old
  simp only [incDec, hop, hnone]
  refine State.ext ?_ fun f ↦ ?_
  · simp only [State.core_map, State.core_emit, State.core_assign]
    rfl
  · cases f <;>
      simp [State.map, State.flag_emit, State.flag_assign, incDecValues, butCf, Config.get,
        Operand.size, old]

theorem incDec_locked
    (haf : ∀ {a a' : U64}, LowEq size a a' → af a (a + step) = af a' (a' + step))
    (hof : ∀ {a a' : U64}, LowEq size a a' → of a (a + step) size = of a' (a' + step) size)
    (hop : i.op0 = .mem m size) (hsome : atomicOperand i = some (m, size)) :
    let a := k.lea i m true s.core
    let old := s.core.mem.load a size.bytes
    incDec k i e step af of s =
      (s.map (Config.writeMemory a (old + step) size)).assign (butCf e)
        (incDecValues k af of old (old + step) size) := by
  intro a old
  have hlow := lowEq_amoLoaded size old
  have hresult := hlow.add (rfl : LowEq size step step)
  simp only [incDec, hop, hsome, amo]
  refine State.ext ?_ fun f ↦ ?_
  · simp only [State.core_map, State.core_emit, State.core_assign]
    rfl
  · cases f <;>
      simp [State.map, State.flag_emit, State.flag_assign, incDecValues, butCf, Operand.size,
        ← haf hlow, ← hof hlow, ← k.updateParity_congr hresult, ← k.updateZero_congr hresult,
        ← Config.updateSign_congr hresult, old, a]

/-- The two forms of `INC` or `DEC`, each at its address. -/
theorem incDec_alike_iff {flag : U64 → Flag → Bool}
    (haf : ∀ {a a' : U64}, LowEq size a a' → af a (a + step) = af a' (a' + step))
    (hof : ∀ {a a' : U64}, LowEq size a a' → of a (a + step) size = of a' (a' + step) size)
    (hflag : ∀ old f, f ≠ .cf →
      f.stored (incDecValues k af of old (old + step) size f) = asFlag (flag old f))
    (hop : i.op0 = .mem m size) :
    let a := k.lea i m true s.core
    let a' := k.address i m s.core
    let old := s.core.mem.load a size.bytes
    let old' := s.core.mem.load a' size.bytes
    incDec k { i with lock := true } e step af of s =
        incDec k { i with lock := false } e step af of s ↔
      (size = .dword ∨ size = .qword → Stored.Alike (butCf e) s.core.mem size.bytes
        ⟨a, old + step, flag old⟩ ⟨a', old' + step, flag old'⟩) := by
  intro a a' old old'
  have hne {f : Flag} (hf : butCf e f) : f ≠ .cf := by simpa using (Bool.and_eq_true_iff.mp hf).2
  rw [incDec_plain (i := { i with lock := false }) hop (atomicOperand_plain rfl)]
  by_cases hsize : size = .dword ∨ size = .qword
  · rw [incDec_locked (i := { i with lock := true }) haf hof hop
      (atomicOperand_locked hop hsize rfl), forall_prop_of_true hsize]
    exact alike_iff (fun f hf ↦ hflag _ f (hne hf)) fun f hf ↦ hflag _ f (hne hf)
  · rw [incDec_plain (i := { i with lock := true }) hop (atomicOperand_small hop hsize)]
    exact iff_of_true rfl fun h ↦ absurd h hsize

end IncDec

/-! ## Exchange and add -/

/-- The core after `XADD` with a result stored at an address. -/
def xaddCore (r : Ref) (old result a : U64) (size : Size) (c : Core ρ) : Core ρ :=
  { c.write r old with mem := c.mem.store a result size.bytes }

theorem xaddCore_inj {r : Ref} {old old' result result' a a' : U64} {c : Core ρ} :
    xaddCore r old result a size c = xaddCore r old' result' a' size c ↔
      old = old' ∧ c.mem.store a result size.bytes = c.mem.store a' result' size.bytes := by
  constructor
  · intro h
    have hreg := congrFun (congrArg Core.gpr h) r
    simp only [xaddCore, Core.write, Function.update_self] at hreg
    exact ⟨hreg, congrArg Core.mem h⟩
  · rintro ⟨rfl, hmem⟩
    rw [xaddCore, hmem, xaddCore]

theorem merge_whole (hsize : size = .dword ∨ size = .qword) {v : U64} (hv : v.toNat < 2 ^ size.bits)
    (old : U64) : k.merge size old v = v := by
  obtain rfl | rfl := hsize
  · apply BitVec.eq_of_toNat_eq
    rw [k.toNat_merge_dword]
    exact Nat.mod_eq_of_lt hv
  · rfl

theorem fastXadd_plain {r : Ref} (hop : i.op0 = .mem m size) (hop1 : i.op1 = .reg r size)
    (hsize : size = .dword ∨ size = .qword) (hnone : atomicOperand i = none) :
    let old := s.core.mem.load (k.address i m s.core) size.bytes
    let src := k.get i i.op1 s.core
    let later := if k.keepsLea i m then k.address i m s.core
      else k.address i m (k.set i i.op1 old s.core)
    fastXadd k i e s =
      (s.map (xaddCore r old (old + src) later size)).assign e
        (addValues k old src (old + src) src size) := by
  intro old src later
  have hold : old.toNat < 2 ^ size.bits := by
    rw [size.bits_eq]
    exact Mem.load_lt _ _ size.bytes_le
  simp only [fastXadd, hop, hnone, setAddFlags_eq, xaddStore]
  refine State.ext ?_ fun f ↦ rfl
  have hset : k.set i i.op1 old s.core = s.core.write r old := by
    rw [hop1]
    exact congrArg (s.core.write r) (merge_whole hsize hold _)
  change Config.writeMemory later (old + src) size (k.set i i.op1 old s.core) = _
  rw [hset]
  rfl

theorem fastXadd_locked {r : Ref} (hop : i.op0 = .mem m size) (hop1 : i.op1 = .reg r size)
    (hsize : size = .dword ∨ size = .qword) (hsome : atomicOperand i = some (m, size)) :
    let a := k.lea i m true s.core
    let old := s.core.mem.load a size.bytes
    let src := k.get i i.op1 s.core
    fastXadd k i e s =
      (s.map (xaddCore r old (old + src) a size)).assign e
        (addValues k old src (old + src) src size) := by
  intro a old src
  have hold : old.toNat < 2 ^ size.bits := by
    rw [size.bits_eq]
    exact Mem.load_lt _ _ size.bytes_le
  have hdst : (if size = .dword then k.zext .dword (amoLoaded size old) else amoLoaded size old) =
      old := by
    obtain rfl | rfl := hsize
    · apply BitVec.eq_of_toNat_eq
      rw [if_pos rfl, k.toNat_zext]
      exact (toNat_sextw_mod old).trans (Nat.mod_eq_of_lt hold)
    · rfl
  have hhandler : fastXadd k i e s =
      (fun dst ↦ (setAddFlags k e dst src (dst + src) src size
        (s.map (Config.writeMemory a (old + src) size))).map (k.setRef r .qword dst))
      (if size = .dword then k.zext .dword (amoLoaded size old) else amoLoaded size old) := by
    simp only [fastXadd, hsome, amo, src]
    rw [hop1, hop]
    rfl
  rw [hhandler, hdst]
  beta_reduce
  rw [setAddFlags_eq]
  exact State.ext rfl fun f ↦ rfl

/-- The two forms of `XADD`, each at its address. -/
theorem fastXadd_alike_iff {r : Ref} {size' : Size} (hop : i.op0 = .mem m size)
    (hop1 : i.op1 = .reg r size') (hbits : size'.bits = size.bits) :
    let a := k.lea i m true s.core
    let a' := k.address i m s.core
    let old := s.core.mem.load a size.bytes
    let old' := s.core.mem.load a' size.bytes
    let src := k.get i i.op1 s.core
    let later := if k.keepsLea i m then a' else k.address i m (k.set i i.op1 old' s.core)
    fastXadd k { i with lock := true } e s = fastXadd k { i with lock := false } e s ↔
      (size = .dword ∨ size = .qword → old = old' ∧
        s.core.mem.store a (old + src) size.bytes =
          s.core.mem.store later (old' + src) size.bytes) := by
  intro a a' old old' src later
  by_cases hsize : size = .dword ∨ size = .qword
  · obtain rfl : size' = size := by
      obtain rfl | rfl := hsize <;> cases size' <;> first | rfl | exact absurd hbits (by decide)
    rw [fastXadd_locked (i := { i with lock := true }) hop hop1 hsize
        (atomicOperand_locked hop hsize rfl),
      fastXadd_plain (i := { i with lock := false }) hop hop1 hsize (atomicOperand_plain rfl),
      forall_prop_of_true hsize]
    refine State.assign_map_eq_iff.trans
      ⟨fun h ↦ xaddCore_inj.mp h.1, fun h ↦ ⟨xaddCore_inj.mpr h, fun f _ ↦ ?_⟩⟩
    exact congrArg (fun v ↦ f.stored (addValues k v src (v + src) src size' f)) h.1
  · have hnone : atomicOperand { i with lock := true } = none := atomicOperand_small hop hsize
    have hnone' : atomicOperand { i with lock := false } = none := atomicOperand_plain rfl
    refine iff_of_true ?_ fun h ↦ absurd h hsize
    simp only [fastXadd, hnone, hnone']
    rfl

theorem fastOr_mem (hop : i.op0 = .mem m size) : fastOr k i e s = logic k i e (· ||| ·) s := by
  simp only [fastOr, hop, Operand.isReg, Bool.and_false, Bool.false_eq_true, if_false]

theorem fastXor_mem (hop : i.op0 = .mem m size) : fastXor k i e s = logic k i e (· ^^^ ·) s := by
  have hidiom : zeroIdiom i = none := by simp only [zeroIdiom, hop]
  simp only [fastXor, hidiom, hop, Operand.isReg, Bool.and_false, Bool.false_eq_true, if_false]

theorem fastOr_alike_iff (hop : i.op0 = .mem m size) :
    let a := k.lea i m true s.core
    let a' := k.address i m s.core
    let result := s.core.mem.load a size.bytes ||| k.get i i.op1 s.core
    let result' := s.core.mem.load a' size.bytes ||| k.get i i.op1 s.core
    fastOr k { i with lock := true } e s = fastOr k { i with lock := false } e s ↔
      (size = .dword ∨ size = .qword → Stored.Alike (butAf e) s.core.mem size.bytes
        ⟨a, result, resultFlag size result⟩ ⟨a', result', resultFlag size result'⟩) := by
  rw [fastOr_mem (i := { i with lock := true }) hop, fastOr_mem (i := { i with lock := false }) hop]
  exact logic_alike_iff LowEq.or hop

theorem fastXor_alike_iff (hop : i.op0 = .mem m size) :
    let a := k.lea i m true s.core
    let a' := k.address i m s.core
    let result := s.core.mem.load a size.bytes ^^^ k.get i i.op1 s.core
    let result' := s.core.mem.load a' size.bytes ^^^ k.get i i.op1 s.core
    fastXor k { i with lock := true } e s = fastXor k { i with lock := false } e s ↔
      (size = .dword ∨ size = .qword → Stored.Alike (butAf e) s.core.mem size.bytes
        ⟨a, result, resultFlag size result⟩ ⟨a', result', resultFlag size result'⟩) := by
  rw [fastXor_mem (i := { i with lock := true }) hop,
    fastXor_mem (i := { i with lock := false }) hop]
  exact logic_alike_iff LowEq.xor hop

theorem stored_incValues {f : Flag} (old : U64) (hf : f ≠ .cf) :
    f.stored (incDecValues k Config.updateAuxiliaryAdd
      (fun dst res ↦ Config.updateOverflowAdd dst 1 res) old (old + 1) size f) =
        asFlag (sumFlag size old 1 f) := by
  rw [← stored_addValues (k := k)]
  cases f with
  | cf => exact absurd rfl hf
  | _ => rfl

theorem stored_decValues {f : Flag} (old : U64) (hf : f ≠ .cf) :
    f.stored (incDecValues k (fun dst _ ↦ Config.updateAuxiliarySub dst 1)
      (fun dst res ↦ Config.updateOverflowSub dst 1 res) old (old + -1) size f) =
        asFlag (differenceFlag size old 1 1 f) := by
  have hstored := @stored_cmpValues k size old 1 false f
  rw [if_neg Bool.false_ne_true] at hstored
  rw [← hstored, ← BitVec.sub_eq_add_neg]
  cases f with
  | cf => exact absurd rfl hf
  | _ => rfl

theorem fastInc_alike_iff (hop : i.op0 = .mem m size) :
    let a := k.lea i m true s.core
    let a' := k.address i m s.core
    let old := s.core.mem.load a size.bytes
    let old' := s.core.mem.load a' size.bytes
    fastInc k { i with lock := true } e s = fastInc k { i with lock := false } e s ↔
      (size = .dword ∨ size = .qword → Stored.Alike (butCf e) s.core.mem size.bytes
        ⟨a, old + 1, sumFlag size old 1⟩ ⟨a', old' + 1, sumFlag size old' 1⟩) := by
  refine incDec_alike_iff (fun h ↦ ?_) (fun h ↦ ?_) (fun old f hf ↦ stored_incValues old hf) hop
  · exact congrArg₂ sltu (Config.and_f_congr (h.add rfl)) (Config.and_f_congr h)
  · exact Config.topBits_congr (((h.add rfl).not.and (h.or rfl)).or (h.and rfl))

theorem fastDec_alike_iff (hop : i.op0 = .mem m size) :
    let a := k.lea i m true s.core
    let a' := k.address i m s.core
    let old := s.core.mem.load a size.bytes
    let old' := s.core.mem.load a' size.bytes
    fastDec k { i with lock := true } e s = fastDec k { i with lock := false } e s ↔
      (size = .dword ∨ size = .qword → Stored.Alike (butCf e) s.core.mem size.bytes
        ⟨a, old - 1, differenceFlag size old 1 1⟩ ⟨a', old' - 1,
            differenceFlag size old' 1 1⟩) := by
  simp only [BitVec.sub_eq_add_neg]
  refine incDec_alike_iff (fun h ↦ ?_) (fun h ↦ ?_) (fun old f hf ↦ stored_decValues old hf) hop
  · exact congrArg (sltu · _) (Config.and_f_congr h)
  · exact Config.topBits_congr (((h.not.or rfl).and (h.add rfl)).or (h.not.and rfl))

end

/-! ## At one address -/

section

variable {k e} {i : Insn} {m : MemOperand} {size : Size} {s : State ρ}

theorem fastAdd_lock_iff (hop : i.op0 = .mem m size)
    (haddress : k.lea i m true s.core = k.address i m s.core)
    (haligned : size.bytes ∣ (k.address i m s.core).toNat) :
    fastAdd k { i with lock := true } e s = fastAdd k { i with lock := false } e s ↔
      AddAgrees k e size (k.address i m s.core) (k.get i i.op1 s.core) s.core.mem := by
  refine (fastAdd_alike_iff hop (haddress ▸ haligned)).trans ?_
  rw [haddress, Stored.Alike, and_iff_right rfl]
  exact addAgrees_iff

theorem fastSub_lock_iff (hop : i.op0 = .mem m size)
    (haddress : k.lea i m true s.core = k.address i m s.core) :
    fastSub k { i with lock := true } e s = fastSub k { i with lock := false } e s ↔
      SubAgrees e size (s.core.mem.load (k.address i m s.core) size.bytes)
        (if zextSrc i size then k.zext size (k.get i i.op1 s.core) else k.get i i.op1 s.core) := by
  have hold : (s.core.mem.load (k.address i m s.core) size.bytes).toNat < 2 ^ size.bits := by
    rw [size.bits_eq]
    exact Mem.load_lt _ _ size.bytes_le
  refine (fastSub_alike_iff hop).trans ?_
  rw [haddress]
  by_cases hsize : size = .dword ∨ size = .qword
  · rw [forall_prop_of_true hsize, Stored.Alike, and_iff_right rfl]
    exact subAgrees_iff hsize hold
  · exact iff_of_true (fun h ↦ absurd h hsize) fun hdword ↦ absurd (.inl hdword) hsize

theorem logic_lock {op : U64 → U64 → U64}
    (hlow : ∀ {a a' b b' : U64}, LowEq size a a' → LowEq size b b' → LowEq size (op a b) (op a' b'))
    (hop : i.op0 = .mem m size) (haddress : k.lea i m true s.core = k.address i m s.core) :
    logic k { i with lock := true } e op s = logic k { i with lock := false } e op s := by
  refine (logic_alike_iff hlow hop).mpr fun _ ↦ ?_
  rw [haddress]
  exact ⟨rfl, fun _ _ ↦ rfl⟩

theorem fastOr_lock (hop : i.op0 = .mem m size)
    (haddress : k.lea i m true s.core = k.address i m s.core) :
    fastOr k { i with lock := true } e s = fastOr k { i with lock := false } e s := by
  refine (fastOr_alike_iff hop).mpr fun _ ↦ ?_
  rw [haddress]
  exact ⟨rfl, fun _ _ ↦ rfl⟩

theorem fastXor_lock (hop : i.op0 = .mem m size)
    (haddress : k.lea i m true s.core = k.address i m s.core) :
    fastXor k { i with lock := true } e s = fastXor k { i with lock := false } e s := by
  refine (fastXor_alike_iff hop).mpr fun _ ↦ ?_
  rw [haddress]
  exact ⟨rfl, fun _ _ ↦ rfl⟩

theorem fastInc_lock (hop : i.op0 = .mem m size)
    (haddress : k.lea i m true s.core = k.address i m s.core) :
    fastInc k { i with lock := true } e s = fastInc k { i with lock := false } e s := by
  refine (fastInc_alike_iff hop).mpr fun _ ↦ ?_
  rw [haddress]
  exact ⟨rfl, fun _ _ ↦ rfl⟩

theorem fastDec_lock (hop : i.op0 = .mem m size)
    (haddress : k.lea i m true s.core = k.address i m s.core) :
    fastDec k { i with lock := true } e s = fastDec k { i with lock := false } e s := by
  refine (fastDec_alike_iff hop).mpr fun _ ↦ ?_
  rw [haddress]
  exact ⟨rfl, fun _ _ ↦ rfl⟩

theorem fastXadd_lock_iff {r : Ref} {size' : Size} (hop : i.op0 = .mem m size)
    (hop1 : i.op1 = .reg r size') (hbits : size'.bits = size.bits)
    (haddress : k.lea i m true s.core = k.address i m s.core) :
    fastXadd k { i with lock := true } e s = fastXadd k { i with lock := false } e s ↔
      XaddAgrees k i m size s.core := by
  refine (fastXadd_alike_iff hop hop1 hbits).trans ?_
  rw [haddress]
  exact forall_congr' fun _ ↦ (and_iff_right rfl).trans eq_comm

theorem getRef_write_of_ne {c : Core ρ} {q r : Ref} (hne : q ≠ r) (width : Size) (v : U64) :
    k.getRef q width (c.write r v) = k.getRef q width c := by
  have hgpr : (c.write r v).gpr q = c.gpr q := Function.update_of_ne hne _ _
  cases width <;> simp only [Config.getRef, hgpr]

theorem lea_write_of_ne {c : Core ρ} {r : Ref} (hbase : ∀ q width, m.base = .reg q width → q ≠ r)
    (hindex : ∀ q width, m.index = some (q, width) → q ≠ r) (useTemp : Bool) (v : U64) :
    k.lea i m useTemp (c.write r v) = k.lea i m useTemp c := by
  obtain ⟨base, index, shift, disp, segment⟩ := m
  unfold Config.lea
  cases base with
  | reg q width =>
    have hq := hbase q width rfl
    cases index with
    | none =>
      simp only [getRef_write_of_ne hq]
      rfl
    | some p =>
      have hp := hindex p.1 p.2 rfl
      simp only [getRef_write_of_ne hq, getRef_write_of_ne hp]
      rfl
  | _ =>
    cases index with
    | none => rfl
    | some p =>
      have hp := hindex p.1 p.2 rfl
      simp only [getRef_write_of_ne hp]
      rfl

/-- `XADD` with a register that is not part of the address writes where it has read. -/
theorem xaddAgrees_of_ne {c : Core ρ} {r : Ref} {size' : Size} (hop1 : i.op1 = .reg r size')
    (hbase : ∀ q width, m.base = .reg q width → q ≠ r)
    (hindex : ∀ q width, m.index = some (q, width) → q ≠ r) : XaddAgrees k i m size c := by
  intro _ a old result later
  have haddress : k.address i m (k.set i i.op1 old c) = a := by
    rw [hop1]
    change k.address i m (c.write r _) = _
    rw [Config.address, lea_write_of_ne (m := { m with disp := 0 }) hbase hindex,
      lea_write_of_ne hbase hindex]
    rfl
  have hlater : later = a := (congrArg (ite _ a) haddress).trans (ite_self a)
  rw [hlater]

end

/-- The prefix changes nothing exactly if the flags that go wrong are not needed, or come out right
nevertheless. The operand is aligned. Where a small displacement wraps in one form only, so that the
forms have two addresses, it changes nothing if they leave the same there. -/
theorem exec_withLock_iff (x : Instr ρ) (hx : x.mnemonic.lockable) {m : MemOperand} {size : Size}
    (s : State ρ) (hop : x.insn.op0 = .mem m size)
    (hreg : x.mnemonic = .xadd → ∃ r size', x.insn.op1 = .reg r size' ∧ size'.bits = size.bits)
    (haligned : size.bytes ∣ (k.lea x.insn m true s.core).toNat) :
    (x.withLock true).exec k e s = (x.withLock false).exec k e s ↔
      if k.lea x.insn m true s.core = k.address x.insn m s.core then LockAgrees k e x m size s.core
      else ApartAgrees k e x m size s.core := by
  obtain ⟨mnemonic, i⟩ := x
  split
  · next haddress =>
    cases mnemonic with
    | add => exact fastAdd_lock_iff hop haddress (haddress ▸ haligned)
    | sub => exact (Option.some_inj ..).trans (fastSub_lock_iff hop haddress)
    | and => exact iff_of_true (congrArg some (logic_lock LowEq.and hop haddress)) trivial
    | or => exact iff_of_true (congrArg some (fastOr_lock hop haddress)) trivial
    | xor => exact iff_of_true (congrArg some (fastXor_lock hop haddress)) trivial
    | inc => exact iff_of_true (congrArg some (fastInc_lock hop haddress)) trivial
    | dec => exact iff_of_true (congrArg some (fastDec_lock hop haddress)) trivial
    | xadd =>
      obtain ⟨r, size', hop1, hbits⟩ := hreg rfl
      exact (Option.some_inj ..).trans (fastXadd_lock_iff hop hop1 hbits haddress)
    | xchg => exact iff_of_true rfl trivial
    | cmpxchg => exact iff_of_true rfl trivial
    | _ => exact absurd hx Bool.false_ne_true
  · cases mnemonic with
    | add => exact fastAdd_alike_iff hop haligned
    | sub => exact (Option.some_inj ..).trans (fastSub_alike_iff hop)
    | and => exact (Option.some_inj ..).trans (logic_alike_iff LowEq.and hop)
    | or => exact (Option.some_inj ..).trans (fastOr_alike_iff hop)
    | xor => exact (Option.some_inj ..).trans (fastXor_alike_iff hop)
    | inc => exact (Option.some_inj ..).trans (fastInc_alike_iff hop)
    | dec => exact (Option.some_inj ..).trans (fastDec_alike_iff hop)
    | xadd =>
      obtain ⟨r, size', hop1, hbits⟩ := hreg rfl
      exact (Option.some_inj ..).trans (fastXadd_alike_iff hop hop1 hbits)
    | xchg => exact iff_of_true rfl trivial
    | cmpxchg => exact iff_of_true rfl trivial
    | _ => exact absurd hx Bool.false_ne_true

/-- `ADD` of an immediate to the doubleword that `RDI` points to. -/
def addAt (v : U64) : Instr Unit :=
  let x := Mnemonic.add.on .dword
    (.mem { base := .reg rdi .qword, index := none, shift := 0, disp := 0, segment := .ds } .dword)
    (.imm v .dword)
  { x with insn := { x.insn with addressWidth := .qword } }

/-- `RDI` points to a doubleword with a value. -/
def State.withDword (v : U64) : State Unit :=
  State.zero.map fun c ↦ { c with mem := c.mem.store 0x10000 v 4 }.write rdi 0x10000

theorem exec_withLock_addAt :
    ((addAt 1).withLock true).exec (.default false) (fun _ ↦ true) (.withDword 5) =
      ((addAt 1).withLock false).exec (.default false) (fun _ ↦ true) (.withDword 5) :=
  (exec_withLock_iff _ _ (addAt 1) rfl (.withDword 5) rfl (fun h ↦ by cases h)
    (by decide)).mpr (by rw [if_pos (by decide)]; exact fun _ _ ↦ .inl (by decide))

/-- `LOCK ADD` of zero to `0x80000000` sets `CF`. -/
theorem not_exec_withLock_addAt :
    ((addAt 0).withLock true).exec (.default false) (fun _ ↦ true) (.withDword 0x80000000) ≠
      ((addAt 0).withLock false).exec (.default false) (fun _ ↦ true) (.withDword 0x80000000) := by
  intro h
  have hcf := congrArg (fun t ↦ t.map fun s ↦ s.flag .cf) h
  revert hcf
  decide

end Jit

end Felix86
