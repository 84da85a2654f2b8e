import Felix86.V2.FastPaths
import Felix86.V2.FlagValues
import Felix86.V2.Instruction

/-!
# With and without the bit manipulation extension

Where the host has no bit manipulation, the recompiler emits shifts, masks and loops in place of one
instruction. Here a handler computes the same either way. The extensions, the merge into a part of a
register, the parity and the byte reversal agree as functions; the two bit scans agree on the
sources that get as far as the scan, where the loops end; and the path of `ADD`, `SUB`, `OR` and
`XOR` that only a host with the extension takes is `OP_noflags_destreg`, which leaves what the
general path leaves.
-/

namespace Felix86

namespace Jit

open Riscv

/-- The same settings on a host with or without the extension. -/
def Config.withB (k : Config) (b : Bool) : Config := { k with b := b }

namespace Config

variable {ρ : Type*} (k : Config) (b : Bool)

@[simp] theorem mode32_withB : (k.withB b).mode32 = k.mode32 := rfl
@[simp] theorem zabha_withB : (k.withB b).zabha = k.zabha := rfl
@[simp] theorem zacas_withB : (k.withB b).zacas = k.zacas := rfl
@[simp] theorem zicond_withB : (k.withB b).zicond = k.zicond := rfl
@[simp] theorem noflagOpts_withB : (k.withB b).noflagOpts = k.noflagOpts := rfl
@[simp] theorem folds_withB : (k.withB b).folds = k.folds := rfl
@[simp] theorem keepsLea_withB : (k.withB b).keepsLea = k.keepsLea := rfl
@[simp] theorem stackWidth_withB : (k.withB b).stackWidth = k.stackWidth := rfl
@[simp] theorem stackPointerSize_withB : (k.withB b).stackPointerSize = k.stackPointerSize := rfl

/-! ## Parts of registers -/

@[simp] theorem zext_withB : (k.withB b).zext = k.zext := by
  funext size v
  apply BitVec.eq_of_toNat_eq
  rw [toNat_zext, toNat_zext]

theorem sextb_eq (v : U64) : k.sextb v = Riscv.sextb v := by
  rw [sextb, shl_sshiftRight (w := 8) v (by decide) (by decide)]
  exact ite_self _

theorem sexth_eq (v : U64) : k.sexth v = Riscv.sexth v := by
  rw [sexth, shl_sshiftRight (w := 16) v (by decide) (by decide)]
  exact ite_self _

@[simp] theorem sextb_withB : (k.withB b).sextb = k.sextb := by
  funext v
  rw [sextb_eq, sextb_eq]

@[simp] theorem sexth_withB : (k.withB b).sexth = k.sexth := by
  funext v
  rw [sexth_eq, sexth_eq]

@[simp] theorem sext_withB : (k.withB b).sext = k.sext := by
  funext size v
  cases size <;> simp [sext]

@[simp] theorem getRef_withB : @getRef ρ (k.withB b) = @getRef ρ k := by
  funext r size c
  cases size <;> simp [getRef]

@[simp] theorem merge_withB : (k.withB b).merge = k.merge := by
  funext size old v
  apply BitVec.eq_of_toNat_eq
  cases size with
  | byte => rw [toNat_merge_byte, toNat_merge_byte]
  | byteHigh => rw [toNat_merge_byteHigh, toNat_merge_byteHigh]
  | word => rw [toNat_merge_word, toNat_merge_word]
  | dword => rw [toNat_merge_dword, toNat_merge_dword]
  | qword => rfl

@[simp] theorem setRef_withB : @setRef ρ (k.withB b) = @setRef ρ k := by
  funext r size v c
  simp [setRef]

/-! ## Operands -/

@[simp] theorem lea_withB : @lea ρ (k.withB b) = @lea ρ k := by
  funext i m useTemp c
  simp [lea]

@[simp] theorem address_withB : @address ρ (k.withB b) = @address ρ k := by
  funext i m c
  simp [address]

@[simp] theorem get_withB : @get ρ (k.withB b) = @get ρ k := by
  funext i op c
  cases op <;> simp [get]

@[simp] theorem getWhole_withB : @getWhole ρ (k.withB b) = @getWhole ρ k := by
  funext i op c
  cases op <;> simp [getWhole]

@[simp] theorem set_withB : @set ρ (k.withB b) = @set ρ k := by
  funext i op v c
  cases op <;> simp [set]

@[simp] theorem hostRef_withB : @hostRef ρ (k.withB b) = @hostRef ρ k := by
  funext r size c
  cases size <;> simp [hostRef]

@[simp] theorem host_withB : @host ρ (k.withB b) = @host ρ k := by
  funext i op c
  cases op <;> simp [host]

/-! ## Flags -/

theorem parity_byte : ∀ x : BitVec 8,
    (cpopw (x.setWidth 64 &&& 0xff) &&& 1) ^^^ 1 =
      (let pf : U64 := (x.setWidth 64 >>> 4) ^^^ x.setWidth 64
       let temp := pf ^^^ (pf >>> 2)
       ((temp >>> 1) ^^^ temp) &&& 1) ^^^ 1 := by
  decide +kernel

@[simp] theorem updateParity_withB : (k.withB b).updateParity = k.updateParity := by
  funext v
  -- only the lowest byte counts
  have hlow : LowEq .byte v ((v.setWidth 8).setWidth 64) :=
    (toNat_zextb v ▸ (Nat.mod_mod _ _).symm :)
  rw [updateParity_congr _ hlow, updateParity_congr _ hlow, updateParity, updateParity]
  have hbyte := parity_byte (v.setWidth 8)
  dsimp only [withB] at hbyte ⊢
  cases b <;> cases k.b
  · rfl
  · exact hbyte.symm
  · exact hbyte
  · rfl

@[simp] theorem updateZero_withB : (k.withB b).updateZero = k.updateZero := by
  funext v size
  simp [updateZero]

@[simp] theorem updateCarryAdd_withB : (k.withB b).updateCarryAdd = k.updateCarryAdd := by
  funext lhs result size
  simp [updateCarryAdd]

@[simp] theorem updateCarryAdc_withB : (k.withB b).updateCarryAdc = k.updateCarryAdc := by
  funext lhs result result2 cf size
  simp [updateCarryAdc]

end Config

/-! ## Bit scans -/

/-- A loop that looks for a bit of `src`, from `start` on and in steps of `step`. -/
structure BitLoop where
  src : U64
  start : U64
  step : U64

/-- The bit at which the loop leaves after `n` rounds. -/
def BitLoop.at (l : BitLoop) (n : ℕ) : U64 := l.start + BitVec.ofNat 64 n * l.step

/-- Some round finds a bit, so the loop ends. -/
def BitLoop.Ends (l : BitLoop) : Prop := ∃ n, srl l.src (l.at n) &&& 1 ≠ 0

/-- The loop of `CTZ` finds the lowest bit. -/
theorem ctzLoop_eq {src : U64} {t : ℕ} (ht : t < 64) (hbit : src.getLsbD t = true)
    (hbelow : ∀ j < t, src.getLsbD j = false) :
    ∀ (fuel r : ℕ), r ≤ t → t < r + fuel → ctzLoop src fuel (BitVec.ofNat 64 r) =
        BitVec.ofNat 64 t := by
  intro fuel
  induction fuel with
  | zero =>
    intro r hr hlt
    omega
  | succ fuel ih =>
    intro r hr hlt
    have hmod : (BitVec.ofNat 64 r).toNat % 64 = r := by
      rw [BitVec.toNat_ofNat]
      omega
    simp only [ctzLoop, srl_and_one_eq_zero, hmod]
    obtain rfl | hrt := hr.eq_or_lt
    · rw [hbit, if_neg (by decide)]
    · have hnext : BitVec.ofNat 64 r + 1 = BitVec.ofNat 64 (r + 1) := (BitVec.ofNat_add r 1).symm
      rw [hbelow r hrt, if_pos rfl, hnext]
      exact ih (r + 1) hrt (by omega)

/-- The loop of `BSR` finds the highest bit. -/
theorem bsrLoop_eq {src : U64} {t : ℕ} (hbit : src.getLsbD t = true)
    (habove : ∀ j, t < j → src.getLsbD j = false) :
    ∀ (fuel r : ℕ), r < 64 → t ≤ r → r < t + fuel →
      bsrLoop src fuel (BitVec.ofNat 64 r) = BitVec.ofNat 64 t := by
  intro fuel
  induction fuel with
  | zero =>
    intro r hr htr hlt
    omega
  | succ fuel ih =>
    intro r hr htr hlt
    have hmod : (BitVec.ofNat 64 r).toNat % 64 = r := by
      rw [BitVec.toNat_ofNat]
      omega
    simp only [bsrLoop, srl_and_one_eq_zero, hmod]
    obtain rfl | hrt := htr.eq_or_lt
    · rw [hbit, if_neg (by decide)]
    · have hprev : BitVec.ofNat 64 r - 1 = BitVec.ofNat 64 (r - 1) := by
        apply BitVec.eq_of_toNat_eq
        rw [BitVec.toNat_sub, BitVec.toNat_ofNat, BitVec.toNat_ofNat]
        change (2 ^ 64 - 1 + r % 2 ^ 64) % 2 ^ 64 = (r - 1) % 2 ^ 64
        omega
      rw [habove r hrt, if_pos rfl, hprev]
      exact ih (r - 1) (by omega) (by omega) (by omega)

section Scans

variable (k : Config) {src : U64}

theorem toNat_ctz_lt (hsrc : src ≠ 0) : src.ctz.toNat < 64 := by
  have hlt := BitVec.ctz_lt_iff_ne_zero.mpr hsrc
  simpa [BitVec.lt_def] using hlt

theorem countTrailing_eq (hsrc : src ≠ 0) : countTrailing k src = ctz src := by
  rw [countTrailing]
  split
  · rfl
  · have hloop := ctzLoop_eq (toNat_ctz_lt hsrc) (BitVec.getLsbD_true_ctz_of_ne_zero hsrc)
      (fun _ ↦ BitVec.getLsbD_false_of_lt_ctz) 64 0 (Nat.zero_le _) (by
        have hlt := toNat_ctz_lt hsrc
        omega)
    rw [BitVec.ofNat_toNat, BitVec.setWidth_eq] at hloop
    exact hloop

/-- The loop of `CTZ` ends. -/
theorem ctz_ends (hsrc : src ≠ 0) : BitLoop.Ends ⟨src, 0, 1⟩ := by
  refine ⟨src.ctz.toNat, ?_⟩
  have hat : BitLoop.at ⟨src, 0, 1⟩ src.ctz.toNat = src.ctz := by simp [BitLoop.at]
  rw [ne_eq, srl_and_one_eq_zero, hat, Nat.mod_eq_of_lt (toNat_ctz_lt hsrc),
    BitVec.getLsbD_true_ctz_of_ne_zero hsrc]
  decide

/-- The highest bit of a number that is not zero. -/
structure HighBit (src : U64) (t : ℕ) : Prop where
  low : 2 ^ t ≤ src.toNat
  high : src.toNat < 2 ^ (t + 1)

theorem exists_highBit (hsrc : src ≠ 0) : ∃ t, HighBit src t :=
  ⟨src.toNat.log2, Nat.log2_self_le (Nat.pos_iff_ne_zero.mp (toNat_pos hsrc)), Nat.lt_log2_self⟩

variable {t : ℕ}

theorem HighBit.lt (ht : HighBit src t) {n : ℕ} (hlt : src.toNat < 2 ^ n) : t < n :=
  (Nat.pow_lt_pow_iff_right (by decide)).mp (ht.low.trans_lt hlt)

theorem HighBit.getLsbD (ht : HighBit src t) : src.getLsbD t = true :=
  Nat.testBit_of_two_pow_le_and_two_pow_add_one_gt ht.low ht.high

theorem HighBit.getLsbD_of_lt (ht : HighBit src t) {j : ℕ} (hj : t < j) : src.getLsbD j = false :=
  Nat.testBit_lt_two_pow (ht.high.trans_le (Nat.pow_le_pow_right (by decide) hj))

/-- Complementing a count of leading zeros gives the index of the bit. -/
theorem xor_ones_eq {c ones : U64} {n m : ℕ} (hn : n ≤ 6) (hones : ones.toNat = 2 ^ n - 1)
    (hc : c.toNat = 2 ^ n - 1 - m) (hm : m < 2 ^ n) : c ^^^ ones = BitVec.ofNat 64 m := by
  have hbits : (2 ^ n - 1 - m) ^^^ (2 ^ n - 1) = m := by
    apply Nat.eq_of_testBit_eq
    intro i
    rw [Nat.sub_sub, Nat.add_comm, Nat.testBit_xor, Nat.testBit_two_pow_sub_succ hm,
      Nat.testBit_two_pow_sub_one]
    by_cases hi : i < n
    · simp [hi]
    · have hzero := Nat.testBit_lt_two_pow
        (hm.trans_le (Nat.pow_le_pow_right (by decide) (not_lt.mp hi)))
      simp [hi, hzero]
  have hpow : 2 ^ n ≤ 2 ^ 6 := Nat.pow_le_pow_right (by decide) hn
  apply BitVec.eq_of_toNat_eq
  rw [BitVec.toNat_xor, hc, hones, hbits, BitVec.toNat_ofNat, Nat.mod_eq_of_lt (by omega)]

/-- `CLZW` of a value that has its highest bit in the lower half. -/
theorem toNat_clzw {v : U64} (ht : t < 32) (hlow : 2 ^ t ≤ v.toNat)
    (hhigh : v.toNat < 2 ^ (t + 1)) :
    (clzw v).toNat = 31 - t := by
  have hpow : 2 ^ (t + 1) ≤ 2 ^ 32 := Nat.pow_le_pow_right (by decide) ht
  have hwidth : (v.setWidth 32).toNat = v.toNat := by
    rw [BitVec.toNat_setWidth, Nat.mod_eq_of_lt (hhigh.trans_le hpow)]
  have hclz : (v.setWidth 32).clz.toNat = 32 - 1 - t :=
    toNat_clz_of_bounds ht (hwidth ▸ hlow) (hwidth ▸ hhigh)
  rw [clzw, BitVec.toNat_setWidth, hclz]
  omega

/-- Both ways to scan backwards give the highest bit, for a source of the operand's width. -/
theorem bsrValue_eq {width : Size} (hwidth : width.bits ≠ 8) (ht : HighBit src t)
    (hlt : src.toNat < 2 ^ width.bits) : bsrValue k src width = BitVec.ofNat 64 t := by
  have htw := ht.lt hlt
  have hbits := width.bits_le
  unfold bsrValue
  split
  swap
  · exact bsrLoop_eq ht.getLsbD (fun _ ↦ ht.getLsbD_of_lt) 64 (width.bits - 1) (by omega) (by omega)
      (by omega)
  cases width with
  | byte => exact absurd rfl hwidth
  | byteHigh => exact absurd rfl hwidth
  | word =>
    -- the source is moved to the top of the lower half
    have hlow := ht.low
    have hhigh := ht.high
    simp only [Size.bits] at hlt htw
    have hshift : (src <<< 16).toNat = src.toNat * 2 ^ 16 := by
      rw [toNat_shl]
      omega
    have hpow : 2 ^ (t + 16) = 2 ^ t * 2 ^ 16 := Nat.pow_add ..
    have hpow' : 2 ^ (t + 16 + 1) = 2 ^ (t + 1) * 2 ^ 16 := by
      rw [Nat.add_right_comm, Nat.pow_add]
    have hclz : (clzw (src <<< 16)).toNat = 31 - (t + 16) :=
      toNat_clzw (by omega) (by omega) (by omega)
    dsimp only
    exact xor_ones_eq (n := 4) (by decide) rfl (by omega) htw
  | dword =>
    have hclz := toNat_clzw htw ht.low ht.high
    dsimp only
    exact xor_ones_eq (n := 5) (by decide) rfl hclz htw
  | qword =>
    have hclz : src.clz.toNat = 64 - 1 - t := toNat_clz_of_bounds htw ht.low ht.high
    dsimp only
    exact xor_ones_eq (n := 6) (by decide) rfl hclz htw

/-- The loop of `BSR` ends. -/
theorem bsr_ends {width : Size} (ht : HighBit src t) (hlt : src.toNat < 2 ^ width.bits) :
    BitLoop.Ends ⟨src, BitVec.ofNat 64 (width.bits - 1), -1⟩ := by
  have htw := ht.lt hlt
  have hbits := width.bits_le
  refine ⟨width.bits - 1 - t, ?_⟩
  have hat : (BitLoop.at ⟨src, BitVec.ofNat 64 (width.bits - 1), -1⟩ (width.bits - 1 - t)).toNat =
      t := by
    have hsub : BitLoop.at ⟨src, BitVec.ofNat 64 (width.bits - 1), -1⟩ (width.bits - 1 - t) =
        BitVec.ofNat 64 (width.bits - 1) - BitVec.ofNat 64 (width.bits - 1 - t) := by
      rw [BitLoop.at, mul_neg, mul_one, BitVec.sub_eq_add_neg]
    rw [hsub, BitVec.toNat_sub, BitVec.toNat_ofNat, BitVec.toNat_ofNat]
    omega
  rw [ne_eq, srl_and_one_eq_zero, hat, Nat.mod_eq_of_lt (by omega), ht.getLsbD]
  decide

end Scans

/-! ## The order of bytes -/

theorem reverseBytes_eq (k : Config) (src : U64) : reverseBytes k src = rev8 src := by
  rw [reverseBytes]
  split
  · rfl
  -- each of the eight parts is one byte in its place
  have h0 : src <<< 56 = zextb (src >>> (8 * 0)) <<< (56 - 8 * 0) := by
    apply BitVec.eq_of_toNat_eq
    rw [toNat_shl, toNat_shl, toNat_zextb, toNat_shr]
    omega
  have h1 : ((0xff00 : U64) &&& src) <<< 40 = zextb (src >>> (8 * 1)) <<< (56 - 8 * 1) := by
    apply BitVec.eq_of_toNat_eq
    rw [toNat_shl, toNat_shl, toNat_zextb, toNat_shr, BitVec.and_comm, toNat_and_ff00]
    omega
  have h2 : ((0xff0000 : U64) &&& src) <<< 24 = zextb (src >>> (8 * 2)) <<< (56 - 8 * 2) := by
    apply BitVec.eq_of_toNat_eq
    rw [toNat_shl, toNat_shl, toNat_zextb, toNat_shr, BitVec.and_comm, toNat_and_ff0000]
    omega
  have h3 : srliw src 24 <<< 32 = zextb (src >>> (8 * 3)) <<< (56 - 8 * 3) := by
    apply BitVec.eq_of_toNat_eq
    rw [toNat_shl, toNat_shl, toNat_zextb, toNat_shr, toNat_srliw _ (by decide)]
    omega
  have h4 : srliw (src >>> 8) 24 <<< 24 = zextb (src >>> (8 * 4)) <<< (56 - 8 * 4) := by
    apply BitVec.eq_of_toNat_eq
    rw [toNat_shl, toNat_shl, toNat_zextb, toNat_shr, toNat_srliw _ (by decide), toNat_shr]
    omega
  have h5 : (src >>> 24) &&& (0xff0000 : U64) = zextb (src >>> (8 * 5)) <<< (56 - 8 * 5) := by
    apply BitVec.eq_of_toNat_eq
    rw [toNat_shl, toNat_zextb, toNat_shr, toNat_and_ff0000, toNat_shr]
    omega
  have h6 : (src >>> 40) &&& (0xff00 : U64) = zextb (src >>> (8 * 6)) <<< (56 - 8 * 6) := by
    apply BitVec.eq_of_toNat_eq
    rw [toNat_shl, toNat_zextb, toNat_shr, toNat_and_ff00, toNat_shr]
    omega
  have h7 : src >>> 56 = zextb (src >>> (8 * 7)) <<< (56 - 8 * 7) := by
    have hsrc := src.isLt
    apply BitVec.eq_of_toNat_eq
    rw [toNat_shl, toNat_zextb, toNat_shr]
    omega
  dsimp only
  rw [h0, h1, h2, h3, h4, h5, h6, h7, BitVec.or_comm (zextb (src >>> (8 * 3)) <<< (56 - 8 * 3)),
    BitVec.or_comm (zextb (src >>> (8 * 6)) <<< (56 - 8 * 6) ||| _)]
  simp only [rev8, List.range, List.range.loop, List.foldl, BitVec.ofNat_eq_ofNat, BitVec.zero_or,
    BitVec.or_assoc]

@[simp] theorem reverseBytes_withB (k : Config) (b : Bool) :
    reverseBytes (k.withB b) = reverseBytes k := by
  funext src
  rw [reverseBytes_eq, reverseBytes_eq]

/-! ## The handlers that test for the extension -/

section Direct

variable {ρ : Type*} (k : Config) (b : Bool) {i : Insn} {e : Flag → Bool} (s : State ρ)

theorem State.assign_none {s : State ρ} {e : Flag → Bool} (he : ∀ f, e f = false) (v : Flag → U64) :
    s.assign e v = s :=
  State.ext rfl fun f ↦ by rw [State.flag_assign, he f, if_neg (by decide)]

theorem eq_false_of_needsAny (he : needsAny e = false) (f : Flag) : e f = false := by
  simp only [needsAny, Bool.or_eq_false_iff] at he
  cases f <;> simp [he]

theorem butAf_eq_false (he : needsAnyButAf e = false) (f : Flag) : butAf e f = false := by
  simp only [needsAnyButAf, Bool.or_eq_false_iff] at he
  cases f <;> simp [butAf, he]

/-- `ADD` is its general path, on any host. -/
theorem fastAdd_eq (hi : i.Sized) : fastAdd k i e s =
    let src := k.get i i.op1 s.core
    if i.op0.isMem && i.lock then
      (lockedAdd k i src s.core).map fun (dst, c) ↦
        setAddFlags k e dst src (dst + src) (dst + src) i.op0.size { s with core := c }
    else
      let dst := k.get i i.op0 s.core
      let result := dst + src
      some ((setAddFlags k e dst src result result i.op0.size s).map (k.set i i.op0 result)) := by
  by_cases he : (k.b && k.noflagOpts && !needsAny e && i.op0.isReg) = true
  · have hreg : i.op0.isReg = true := (Bool.and_eq_true_iff.mp he).2
    have hmem : i.op0.isMem = false := by
      cases hop : i.op0 <;> simp_all [Operand.isReg, Operand.isMem]
    have hnone : needsAny e = false := by simp_all
    have h32 : ∀ a b, LowEq .dword (addw a b) (a + b) := fun a b ↦ lowEq_sextw (by decide) _
    rw [fastAdd, if_pos he, opNoflagsDestreg_eq k i laneOp_add h32 hi hreg]
    simp only [hmem, Bool.false_and, Bool.false_eq_true, if_false, setAddFlags_eq,
      State.assign_none (eq_false_of_needsAny hnone)]
  · rw [fastAdd, if_neg he]

theorem fastSub_eq (hi : i.Sized) : fastSub k i e s =
    let src := k.get i i.op1 s.core
    let size := i.op0.size
    match atomicOperand i with
    | some (m, width) =>
      let (dst, c) := amo (· + ·) width (k.lea i m true s.core) (-src) s.core
      setCmpFlags k e dst src (dst - src) size (zextSrc i size) false { s with core := c }
    | none =>
      let dst := k.get i i.op0 s.core
      let result := dst - src
      (setCmpFlags k e dst src result size (zextSrc i size) false s).map
          (k.set i i.op0 result) := by
  by_cases he : (k.b && k.noflagOpts && !needsAny e && i.op0.isReg) = true
  · have hreg : i.op0.isReg = true := (Bool.and_eq_true_iff.mp he).2
    have hnone : needsAny e = false := by simp_all
    have h32 : ∀ a b, LowEq .dword (subw a b) (a - b) := fun a b ↦ lowEq_sextw (by decide) _
    rw [fastSub, if_pos he, opNoflagsDestreg_eq k i laneOp_sub h32 hi hreg,
      FastOp.atomicOperand_of_isReg hreg]
    simp only [setCmpFlags_eq, Bool.false_or, State.assign_none (eq_false_of_needsAny hnone)]
  · unfold fastSub
    exact if_neg he

/-- A logical operation is its general path, on any host. -/
theorem opNoflags_eq_logic {f : U64 → U64 → U64} (hf : LaneOp f) (hi : i.Sized)
    (he : (k.b && k.noflagOpts && !needsAnyButAf e && i.op0.isReg) = true) :
    opNoflagsDestreg k i f f s = logic k i e f s := by
  have hreg : i.op0.isReg = true := (Bool.and_eq_true_iff.mp he).2
  have hnone : needsAnyButAf e = false := by simp_all
  rw [opNoflagsDestreg_eq k i hf (fun _ _ ↦ rfl) hi hreg, logic, FastOp.atomicOperand_of_isReg hreg]
  simp only [setLogicFlags_eq, State.assign_none (butAf_eq_false hnone)]

theorem fastOr_eq (hi : i.Sized) : fastOr k i e s = logic k i e (· ||| ·) s := by
  rw [fastOr]
  split
  · next he => exact opNoflags_eq_logic k s laneOp_or hi he
  · rfl

theorem fastXor_eq (hi : i.Sized) (hzero : zeroIdiom i = none) :
    fastXor k i e s = logic k i e (· ^^^ ·) s := by
  rw [fastXor, hzero]
  dsimp only
  split
  · next he => exact opNoflags_eq_logic k s laneOp_xor hi he
  · rfl

/-- The rotation of `ROL` by an immediate, with or without the extension. -/
def rolShort (size : Size) (b : Bool) (dst : U64) (count : ℕ) : U64 :=
  let rotate := (size.bits - count) % size.bits
  if size = .dword then if b then roriw dst rotate else slliw dst count ||| srliw dst rotate
  else if b then rori dst rotate else (dst <<< count) ||| (dst >>> rotate)

theorem lowEq_rolShort {size : Size} (hsize : size = .dword ∨ size = .qword) (b b' : Bool)
    (dst : U64)
    {count : ℕ} (hcount : count < size.bits) :
    LowEq size (rolShort size b dst count) (rolShort size b' dst count) := by
  have hle := size.bits_le
  have hnat : (BitVec.ofNat 64 count).toNat = count := by
    rw [BitVec.toNat_ofNat]
    omega
  have hd := (toNat_and_mask dst size.bits_le).symm
  have hlt : (BitVec.ofNat 64 count).toNat < size.bits := by rwa [hnat]
  have hboth (b : Bool) := lowEq_rolNoflags hsize b hd hlt
  simp only [hnat] at hboth
  exact (hboth b).trans (hboth b').symm

/-- The count of a `ROL` by an immediate is below the width. -/
theorem rolCount_lt (i : Insn) : (match i.op1 with
    | .imm v _ => v.toNat % 256 % i.op0.size.bits
    | _ => 0) < i.op0.size.bits := by
  have hpos : 0 < i.op0.size.bits := lt_of_lt_of_le (by decide) i.op0.size.le_bits
  split
  · exact Nat.mod_lt _ hpos
  · exact hpos

theorem rolNoflags_withB (hsize : i.op0.size = .dword ∨ i.op0.size = .qword) :
    rolNoflags (k.withB b) i i.op0.size s = rolNoflags k i i.op0.size s := by
  have hset (dst : U64) {count : ℕ} (hcount : count < i.op0.size.bits) :
      @Config.set ρ k i i.op0 (rolShort i.op0.size b dst count) =
        k.set i i.op0 (rolShort i.op0.size k.b dst count) :=
    funext (k.set_congr i (lowEq_rolShort hsize b k.b dst hcount))
  have hd : Size.qword ≠ .dword := by decide
  simp only [rolNoflags, Config.getWhole_withB, Config.get_withB, Config.set_withB]
  obtain h | h := hsize
  · have := hset (k.getWhole i i.op0 s.core) (rolCount_lt i)
    simp only [rolShort, h, if_true] at this ⊢
    exact congrArg s.map this
  · have := hset (k.get i i.op0 s.core) (rolCount_lt i)
    simp only [rolShort, h, if_neg hd] at this ⊢
    exact congrArg s.map this

end Direct

/-! ## What handlers share -/

section Shared

variable {ρ : Type*} (k : Config) (b : Bool)

@[simp] theorem setCmpFlags_withB : @setCmpFlags ρ (k.withB b) = @setCmpFlags ρ k := by
  funext e dst src result size zextSrc always s
  simp [setCmpFlags]

@[simp] theorem setAddFlags_withB : @setAddFlags ρ (k.withB b) = @setAddFlags ρ k := by
  funext e dst src result aux size s
  simp [setAddFlags]

@[simp] theorem setLogicFlags_withB : @setLogicFlags ρ (k.withB b) = @setLogicFlags ρ k := by
  funext e result size s
  simp [setLogicFlags]

@[simp] theorem setShiftFlags_withB : @setShiftFlags ρ (k.withB b) = @setShiftFlags ρ k := by
  funext e result size s
  simp [setShiftFlags]

@[simp] theorem lockedAdd_withB : @lockedAdd ρ (k.withB b) = @lockedAdd ρ k := by
  funext i src c
  simp [lockedAdd]

@[simp] theorem logic_withB : @logic ρ (k.withB b) = @logic ρ k := by
  funext i e op s
  simp [logic]

@[simp] theorem incDec_withB : @incDec ρ (k.withB b) = @incDec ρ k := by
  funext i e step af of s
  simp [incDec]

@[simp] theorem variableCount_withB : @variableCount ρ (k.withB b) = @variableCount ρ k := by
  funext i size op c
  simp [variableCount]

@[simp] theorem shiftZero_withB : @shiftZero ρ (k.withB b) = @shiftZero ρ k := by
  funext i s
  simp [shiftZero]

@[simp] theorem shiftNoflags_withB : @shiftNoflags ρ (k.withB b) = @shiftNoflags ρ k := by
  funext i left func64 func32 s
  simp [shiftNoflags, shiftNoflagsSource]

@[simp] theorem doubleShift_withB : @doubleShift ρ (k.withB b) = @doubleShift ρ k := by
  funext i e value carry s
  simp [doubleShift]

@[simp] theorem carryCount_withB : @carryCount ρ (k.withB b) = @carryCount ρ k := by
  funext i c
  simp [carryCount]

@[simp] theorem imulProduct_withB : imulProduct (k.withB b) = imulProduct k := by
  funext size src1 src2
  simp [imulProduct]

@[simp] theorem divDword_withB : @divDword ρ (k.withB b) = @divDword ρ k := by
  funext i quotient remainder ext c
  simp [divDword]

@[simp] theorem divQword_withB : @divQword ρ (k.withB b) = @divQword ρ k := by
  funext i quotient remainder slow c
  simp [divQword]

@[simp] theorem divCore_withB : @divCore ρ (k.withB b) = @divCore ρ k := by
  funext i c
  simp [divCore]

@[simp] theorem idivCore_withB : @idivCore ρ (k.withB b) = @idivCore ρ k := by
  funext i c
  simp [idivCore]

@[simp] theorem bitInstruction_withB : @bitInstruction ρ (k.withB b) = @bitInstruction ρ k := by
  funext i emitsCf update updateByte s
  simp [bitInstruction, bitString, bitTest]

@[simp] theorem movCore_withB : @movCore ρ (k.withB b) = @movCore ρ k := by
  funext i c
  simp [movCore]

@[simp] theorem xchgLock_withB : @xchgLock ρ (k.withB b) = @xchgLock ρ k := by
  funext i m size c
  simp [xchgLock]

@[simp] theorem xaddStore_withB : @xaddStore ρ (k.withB b) = @xaddStore ρ k := by
  funext i result before c
  simp [xaddStore]

@[simp] theorem cmpxchgLock_withB : @cmpxchgLock ρ (k.withB b) = @cmpxchgLock ρ k := by
  funext i e m s
  simp [cmpxchgLock]

@[simp] theorem addRsp_withB : @addRsp ρ (k.withB b) = @addRsp ρ k := by
  funext v c
  simp [addRsp]

@[simp] theorem popCore_withB : @popCore ρ (k.withB b) = @popCore ρ k := by
  funext i c
  simp [popCore]

@[simp] theorem jcc_withB : @jcc ρ (k.withB b) = @jcc ρ k := by
  funext i cond c
  simp [jcc, jumpOffset]

@[simp] theorem stringRegs_withB : @stringRegs ρ (k.withB b) = @stringRegs ρ k := by
  funext i c
  simp [stringRegs]

@[simp] theorem compareRun_withB : @compareRun ρ (k.withB b) = @compareRun ρ k := by
  funext i e body s
  simp [compareRun]

end Shared

/-! ## All instructions -/

/-- The sizes of the operands as the decoder gives them, where a handler relies on them. -/
def Instr.Sized {ρ : Type*} (x : Instr ρ) : Prop :=
  match x.mnemonic with
  | .add | .sub | .or | .xor => x.insn.Sized
  | .bsr => x.insn.op1.size.bits = x.insn.width.bits ∧ x.insn.width.bits ≠ 8 ∧
      (x.insn.op1.isReg || x.insn.op1.isMem)
  | _ => True

section Exec

variable {ρ : Type*} (k : Config) (b : Bool) (e : Flag → Bool)

theorem fastBsr_withB {i : Insn} (hsize : i.op1.size.bits = i.width.bits) (hne : i.width.bits ≠ 8)
    (hop : i.op1.isReg || i.op1.isMem) {s : State ρ} (hz : k.mode32 → Zext s.core) :
    fastBsr (k.withB b) i s = fastBsr k i s := by
  have hlt := k.get_lt i (c := s.core) (fun r _ hmode ↦ hz hmode r) hop
  rw [hsize] at hlt
  simp only [fastBsr, bitScan, Config.get_withB, Config.set_withB]
  split
  · rfl
  · next hsrc =>
    obtain ⟨t, ht⟩ := exists_highBit hsrc
    rw [bsrValue_eq _ hne ht hlt, bsrValue_eq _ hne ht hlt]

theorem countTrailing_withB {src : U64} (hsrc : src ≠ 0) :
    countTrailing (k.withB b) src = countTrailing k src := by
  rw [countTrailing_eq _ hsrc, countTrailing_eq _ hsrc]

/-- **A handler leaves the same state with the extension and without it.** In 32-bit mode the upper
halves of the registers are zero, which is the invariant of that mode. -/
theorem exec_withB {x : Instr ρ} (hx : x.Sized) {s : State ρ} (hz : k.mode32 → Zext s.core) :
    x.exec (k.withB b) e s = x.exec k e s := by
  obtain ⟨m, i⟩ := x
  cases m
  case add => simp only [Instr.exec, fastAdd_eq _ s hx]; simp
  case sub => simp only [Instr.exec, fastSub_eq _ s hx]; simp
  case or => simp only [Instr.exec, fastOr_eq _ s hx, logic_withB]
  case xor =>
    simp only [Instr.exec]
    cases hzero : zeroIdiom i with
    | some r => simp [fastXor, hzero]
    | none => rw [fastXor_eq _ s hx hzero, fastXor_eq _ s hx hzero, logic_withB]
  case rol =>
    simp only [Instr.exec, fastRol, Config.noflagOpts_withB]
    split
    · next h =>
      have hsize : i.op0.size = .dword ∨ i.op0.size = .qword := by
        simp only [Bool.and_eq_true, Bool.or_eq_true, decide_eq_true_eq] at h
        exact h.1.1.2.symm
      rw [rolNoflags_withB k b s hsize]
    · simp
  case bsf =>
    simp only [Instr.exec, fastBsf, bitScan, Config.get_withB, Config.set_withB]
    split
    · rfl
    · next hsrc => rw [countTrailing_withB k b hsrc]
  case bsr => exact congrArg some (fastBsr_withB k b hx.1 hx.2.1 hx.2.2 hz)
  case tzcnt =>
    simp only [Instr.exec, fastTzcnt, Config.get_withB, Config.set_withB]
    split
    · rfl
    · next hsrc => rw [countTrailing_withB k b hsrc]
  all_goals simp [Instr.exec, State.map, fastSbb, fastAdc, fastCmp, fastAnd, fastTest,
    fastInc, fastDec, fastNot, fastNeg, fastShl, fastShlImm, fastShr, fastShrImm, fastSar,
      fastSarImm, fastShld, fastShrd,
    fastRor, fastRcl, fastRcr, fastImul, imul1, imul23, imulNoflags, fastMul, fastDiv, fastIdiv,
    fastBt, fastBtc, fastBts, fastBtr, fastBlsr, fastBswap, fastMov, segmentCall,
      fastMovzx, fastMovsx,
    fastMovsxd, fastLea, fastCbw, fastCwde, fastCdqe, fastCwd, fastCdq, fastCqo, fastXchg, fastXadd,
    fastCmpxchg, fastCmpxchg8b, fastCmpxchg16b, fastPush, fastPop, fastCall, jumpOffset, fastRet,
    fastLeave, fastPushf, fastPopf, fastJmp, fastJcxz, fastLoop, cmov, fastMovs, fastStos, fastLods,
    fastCmps, fastScas, fastLahf, fastSahf, fastRdtsc, fastXgetbv]

end Exec

end Jit

end Felix86
