import Felix86.V2.WideDivision
import Felix86.V2.ExtensionB
import Felix86.V2.Shifts

/-!
# Divisions

The handlers of `DIV` and `IDIV` divide with the instructions of the host. A dividend is twice as
long as its divisor, so a byte, a word and a doubleword are divided in one instruction of the host,
and only the dividend of the 64-bit forms is too long for it. Unless its upper half is zero, or for
`IDIV` the sign of the lower one, that division is done by a helper (`V2.WideDivision`).

The manual's division is that of the integers, rounded towards zero, and faults if the quotient does
not fit. What is compared here are the divisions that do not fault: the registers afterwards, for
every size of the operand, and the short way for quadwords with the helper it stands in for
(`divide_iff`).

The handlers for doublewords put the dividend together in `RDX` and divide by the register that the
operand is in. In 64-bit mode that is a scratch register with a copy. In 32-bit mode it is the
guest's own, and may be one of the two that the dividend is in, which are overwritten on the way: a
division by `EAX` takes its remainder modulo the quotient, and one by `EDX` divides by the dividend.

## The shape of the argument

The host's quotient and remainder are numbers (`sdiv_eq_ofInt`, `srem_eq_ofInt`), and so are the
manual's. What is left is that the values that reach the host are those of the operands, one size
after the other, and for the doublewords which registers still have them when they are read.
-/

namespace Felix86

namespace Jit

open Riscv

variable {ρ : Type*} (k : Config) (i : Insn)

/-! ## Host divisions as divisions of numbers -/

section

variable {w : ℕ} {size : Size} {a b : U64}

theorem sdiv_eq_ofInt (a b : BitVec w) : a.sdiv b = BitVec.ofInt w (a.toInt.tdiv b.toInt) := by
  rw [← @BitVec.ofInt_toInt w (a.sdiv b), BitVec.toInt_sdiv]
  apply BitVec.eq_of_toInt_eq
  rw [BitVec.toInt_ofInt, BitVec.toInt_ofInt, Int.bmod_bmod]

theorem srem_eq_ofInt (a b : BitVec w) : a.srem b = BitVec.ofInt w (a.toInt.tmod b.toInt) := by
  rw [← @BitVec.ofInt_toInt w (a.srem b), BitVec.toInt_srem]

theorem setWidth_ofInt {v : ℕ} (hv : v ≤ w) (n : ℤ) :
    (BitVec.ofInt w n).setWidth v = BitVec.ofInt v n := by
  apply BitVec.eq_of_toInt_eq
  rw [BitVec.toInt_setWidth, BitVec.toInt_ofInt, BitVec.toNat_ofInt]
  have hpos : (0 : ℤ) ≤ n % ((2 ^ w : ℕ) : ℤ) := Int.emod_nonneg _ (by positivity)
  rw [Int.toNat_of_nonneg hpos]
  have hdvd : ((2 ^ v : ℕ) : ℤ) ∣ ((2 ^ w : ℕ) : ℤ) :=
    Int.natCast_dvd_natCast.mpr (Nat.pow_dvd_pow 2 hv)
  rw [← Int.emod_bmod (n % _), Int.emod_emod_of_dvd _ hdvd, Int.emod_bmod]

/-- A host division of words, as far as the lower bits go. -/
theorem low_half {f : BitVec 32 → BitVec 32 → BitVec 32} {zero : BitVec 32 → BitVec 32}
    (hsize : size.bits ≤ 32) (hb : b.setWidth 32 ≠ 0) :
    low size (half f zero a b) = (f (a.setWidth 32) (b.setWidth 32)).setWidth size.bits := by
  apply BitVec.eq_of_getLsbD_eq
  intro j hj
  have hj32 : j < 32 := by omega
  have hj64 : j < 64 := by omega
  rw [half, if_neg hb, getLsbD_low _ hj, BitVec.getLsbD_signExtend, BitVec.getLsbD_setWidth]
  simp [hj, hj32, hj64]

section

variable {n d : ℕ} (hd : d ≠ 0)
include hd

theorem ne_zero_of_toNat {x : BitVec w} (hx : x.toNat = d) : x ≠ 0 := by
  rintro rfl
  rw [BitVec.ofNat_eq_ofNat, BitVec.toNat_zero] at hx
  exact hd hx.symm

variable (hsize : size.bits ≤ 32) (ha : (a.setWidth 32).toNat = n) (hb : (b.setWidth 32).toNat = d)

include hsize ha hb in
theorem low_divuw : low size (divuw a b) = BitVec.ofNat size.bits (n / d) := by
  rw [divuw, low_half hsize (ne_zero_of_toNat hd hb), ← ha, ← hb, ← BitVec.toNat_udiv]
  exact (BitVec.ofNat_toNat _ _).symm

include hsize ha hb in
theorem low_remuw : low size (remuw a b) = BitVec.ofNat size.bits (n % d) := by
  rw [remuw, low_half hsize (ne_zero_of_toNat hd hb), ← ha, ← hb, ← BitVec.toNat_umod]
  exact (BitVec.ofNat_toNat _ _).symm

theorem low_divu (ha : a.toNat = n) (hb : b.toNat = d) :
    low size (divu a b) = BitVec.ofNat size.bits (n / d) := by
  rw [divu, if_neg (ne_zero_of_toNat hd hb), ← ha, ← hb, ← BitVec.toNat_udiv]
  exact (BitVec.ofNat_toNat _ _).symm

theorem low_remu (ha : a.toNat = n) (hb : b.toNat = d) :
    low size (remu a b) = BitVec.ofNat size.bits (n % d) := by
  rw [remu, if_neg (ne_zero_of_toNat hd hb), ← ha, ← hb, ← BitVec.toNat_umod]
  exact (BitVec.ofNat_toNat _ _).symm

end

section

variable {n d : ℤ} (hd : d ≠ 0)
include hd

theorem ne_zero_of_toInt {x : BitVec w} (hx : x.toInt = d) : x ≠ 0 := by
  rintro rfl
  rw [BitVec.ofNat_eq_ofNat, BitVec.toInt_zero] at hx
  exact hd hx.symm

variable (hsize : size.bits ≤ 32) (ha : (a.setWidth 32).toInt = n) (hb : (b.setWidth 32).toInt = d)

include hsize ha hb in
theorem low_divw : low size (divw a b) = BitVec.ofInt size.bits (n.tdiv d) := by
  rw [divw, low_half hsize (ne_zero_of_toInt hd hb), sdiv_eq_ofInt, ha, hb, setWidth_ofInt hsize]

include hsize ha hb in
theorem low_remw : low size (remw a b) = BitVec.ofInt size.bits (n.tmod d) := by
  rw [remw, low_half hsize (ne_zero_of_toInt hd hb), srem_eq_ofInt, ha, hb, setWidth_ofInt hsize]

theorem low_div (ha : a.toInt = n) (hb : b.toInt = d) :
    low size (Riscv.div a b) = BitVec.ofInt size.bits (n.tdiv d) := by
  rw [Riscv.div, if_neg (ne_zero_of_toInt hd hb), sdiv_eq_ofInt, ha, hb, low,
    setWidth_ofInt size.bits_le]

theorem low_rem (ha : a.toInt = n) (hb : b.toInt = d) :
    low size (Riscv.rem a b) = BitVec.ofInt size.bits (n.tmod d) := by
  rw [Riscv.rem, if_neg (ne_zero_of_toInt hd hb), srem_eq_ofInt, ha, hb, low,
    setWidth_ofInt size.bits_le]

end

end

/-! ## Division instructions -/

inductive DivOp
  | div
  | idiv
deriving DecidableEq, Repr

def DivOp.mnemonic : DivOp → Mnemonic ρ
  | .div => .div
  | .idiv => .idiv

def DivOp.outcome {w : ℕ} (op : DivOp) (hi lo d : BitVec w) : Option (BitVec w × BitVec w) :=
  match op with
  | .div => X86.div hi lo d
  | .idiv => X86.idiv hi lo d

/-- The registers with the upper and the lower half of the dividend. The remainder replaces the
upper half, and the quotient the lower. -/
def dividendHalves : Size → (Ref × Size) × (Ref × Size)
  | .byte | .byteHigh => ((rax, .byteHigh), (rax, .byte))
  | size => ((rdx, size), (rax, size))

def readHalf (w : ℕ) (half : Ref × Size) (c : Core ρ) : BitVec w :=
  (readPart half.2 (c.gpr half.1)).setWidth w

def writeHalf {w : ℕ} (half : Ref × Size) (v : BitVec w) (c : Core ρ) : Core ρ :=
  c.write half.1 (writePart half.2 (c.gpr half.1) (v.setWidth half.2.bits))

/-- The registers after a division by `d`, unless the processor faults. -/
def DivOp.divided {w : ℕ} (op : DivOp) (halves : (Ref × Size) × (Ref × Size)) (d : BitVec w)
    (c : Core ρ) : Option (Core ρ) :=
  (op.outcome (readHalf w halves.1 c) (readHalf w halves.2 c) d).map fun p ↦
    writeHalf halves.1 p.2 (writeHalf halves.2 p.1 c)

def DivOp.expected (op : DivOp) (c : Core ρ) : Option (Core ρ) :=
  op.divided (dividendHalves i.op0.size) (i.op0.value k i i.op0.size.bits c) c

section

variable {k} {w : ℕ} {halves : (Ref × Size) × (Ref × Size)} {d : BitVec w} {c c' : Core ρ}

/-- What is divided, as a number. -/
def dividend (w : ℕ) (halves : (Ref × Size) × (Ref × Size)) (c : Core ρ) : BitVec (w + w) :=
  readHalf w halves.1 c ++ readHalf w halves.2 c

theorem eq_of_div (h : DivOp.div.divided halves d c = some c') :
    let n := (dividend w halves c).toNat
    d.toNat ≠ 0 ∧ n / d.toNat < 2 ^ w ∧
      c' = writeHalf halves.1 (BitVec.ofNat w (n % d.toNat))
        (writeHalf halves.2 (BitVec.ofNat w (n / d.toNat)) c) := by
  intro n
  rw [DivOp.divided, DivOp.outcome, X86.div, Option.map_eq_some_iff] at h
  obtain ⟨p, hp, rfl⟩ := h
  split at hp
  · cases hp
  · next hfault =>
    obtain ⟨hd, hq⟩ := not_or.mp hfault
    cases hp
    refine ⟨fun h ↦ hd (BitVec.eq_of_toNat_eq h), Nat.not_le.mp hq, rfl⟩

theorem eq_of_idiv (h : DivOp.idiv.divided halves d c = some c') :
    let n := (dividend w halves c).toInt
    d.toInt ≠ 0 ∧ X86.InRange w (n.tdiv d.toInt) ∧
      c' = writeHalf halves.1 (BitVec.ofInt w (n.tmod d.toInt))
        (writeHalf halves.2 (BitVec.ofInt w (n.tdiv d.toInt)) c) := by
  intro n
  rw [DivOp.divided, DivOp.outcome, X86.idiv, Option.map_eq_some_iff] at h
  obtain ⟨p, hp, rfl⟩ := h
  split at hp
  · cases hp
  · next hfault =>
    obtain ⟨hd, hq⟩ := not_or.mp hfault
    cases hp
    refine ⟨fun h ↦ hd (BitVec.eq_of_toInt_eq (h.trans BitVec.toInt_zero.symm)), not_not.mp hq, rfl⟩

theorem setRef_eq_writeHalf {r : Ref} {size : Size} {v : U64} {x : BitVec w}
    (h : low size v = x.setWidth size.bits) : k.setRef r size v c = writeHalf (r, size) x c := by
  rw [Config.setRef, k.merge_eq, h]
  rfl

end

/-! ## Bytes and words -/

section

variable {k i} {c c' : Core ρ} {src : U64}

theorem toNat_readHalf_word (r : Ref) (c : Core ρ) :
    (readHalf 16 (r, .word) c).toNat = (c.gpr r).toNat % 2 ^ 16 := by
  rw [readHalf]
  exact (congrArg BitVec.toNat (BitVec.setWidth_eq _)).trans (BitVec.toNat_setWidth ..)

theorem toNat_readHalf_byte (r : Ref) (c : Core ρ) :
    (readHalf 8 (r, .byte) c).toNat = (c.gpr r).toNat % 2 ^ 8 := by
  rw [readHalf]
  exact (congrArg BitVec.toNat (BitVec.setWidth_eq _)).trans (BitVec.toNat_setWidth ..)

theorem toNat_readHalf_byteHigh (r : Ref) (c : Core ρ) :
    (readHalf 8 (r, .byteHigh) c).toNat = (c.gpr r).toNat / 2 ^ 8 % 2 ^ 8 := by
  rw [readHalf]
  refine (congrArg BitVec.toNat (BitVec.setWidth_eq _)).trans ?_
  exact (BitVec.toNat_setWidth ..).trans (by rw [toNat_shr])

/-- `AX` is the dividend of a byte division. -/
theorem dividend_byte (c : Core ρ) :
    dividend 8 (dividendHalves .byte) c = (c.gpr rax).setWidth 16 := by
  apply BitVec.eq_of_toNat_eq
  refine (toNat_append_eq _ _).trans ?_
  have hhi := toNat_readHalf_byteHigh rax c
  have hlo := toNat_readHalf_byte rax c
  rw [BitVec.toNat_setWidth]
  simp only [dividendHalves] at hhi hlo ⊢
  omega

theorem or_eq_add {a b n : ℕ} (hb : b < 2 ^ n) : a * 2 ^ n ||| b = a * 2 ^ n + b := by
  rw [← Nat.shiftLeft_eq, ← Nat.shiftLeft_add_eq_or_of_lt hb]

/-- `DX` and `AX` put together. -/
theorem dividend_word (c : Core ρ) :
    (slliw (k.getRef rdx .word c) 16 ||| k.getRef rax .word c).setWidth 32 =
      dividend 16 (dividendHalves .word) c := by
  apply BitVec.eq_of_toNat_eq
  refine Eq.trans ?_ (toNat_append_eq _ _).symm
  have hhi := toNat_readHalf_word rdx c
  have hlo := toNat_readHalf_word rax c
  have hdx := k.toNat_zext .word (c.gpr rdx)
  have hax := k.toNat_zext .word (c.gpr rax)
  simp only [Size.bits] at hdx hax
  have hlt (n : ℕ) : n % 2 ^ 16 * 2 ^ 16 < 2 ^ 32 ∧ n % 2 ^ 16 < 2 ^ 32 := by omega
  simp only [dividendHalves]
  rw [slliw, BitVec.setWidth_or, setWidth_signExtend _ (by decide), BitVec.toNat_or,
    BitVec.toNat_shiftLeft, BitVec.toNat_setWidth, BitVec.toNat_setWidth, Config.getRef,
    Config.getRef, hdx, hax, hhi, hlo, Nat.shiftLeft_eq, Nat.mod_eq_of_lt (hlt _).2,
    Nat.mod_eq_of_lt (hlt _).2, Nat.mod_eq_of_lt (hlt _).1, or_eq_add (Nat.mod_lt _ (by decide))]

theorem toInt_setWidth_signExtend {w : ℕ} (hw : w ≤ 32) (x : BitVec w) :
    ((x.signExtend 64).setWidth 32).toInt = x.toInt := by
  have hsign : (x.signExtend 64).setWidth 32 = x.signExtend 32 :=
    setWidth_ofInt (by decide) x.toInt
  rw [hsign, BitVec.toInt_signExtend_of_le hw]

theorem toNat_setWidth_of_lt {v : U64} {n : ℕ} (hn : n ≤ 32) (hv : v.toNat < 2 ^ n) :
    (v.setWidth 32).toNat = v.toNat := by
  have hpow : 2 ^ n ≤ 2 ^ 32 := Nat.pow_le_pow_right (by decide) hn
  rw [BitVec.toNat_setWidth, Nat.mod_eq_of_lt (by omega)]

/-- A zero extended divisor is read as it is. -/
theorem toNat_divisor {size : Size} (hsize : size.bits ≤ 32) (hsrc : src.toNat < 2 ^ size.bits) :
    (src.setWidth 32).toNat = (low size src).toNat := by
  rw [toNat_setWidth_of_lt hsize hsrc, toNat_low, Nat.mod_eq_of_lt hsrc]

/-- A sign extended one as a signed number. -/
theorem toInt_sextb (v : U64) : ((k.sextb v).setWidth 32).toInt = (low .byte v).toInt := by
  rw [k.sextb_eq]
  exact toInt_setWidth_signExtend (by decide) _

theorem toInt_sexth (v : U64) : ((k.sexth v).setWidth 32).toInt = (low .word v).toInt := by
  rw [k.sexth_eq]
  exact toInt_setWidth_signExtend (by decide) _

theorem divByte_eq (hsrc : src.toNat < 2 ^ 8)
    (h : DivOp.div.divided (dividendHalves .byte) (low .byte src) c = some c') :
    k.setRef rax .byteHigh (remuw (k.getRef rax .word c) src)
      (k.setRef rax .byte (divuw (k.getRef rax .word c) src) c) = c' := by
  obtain ⟨hd, -, rfl⟩ := eq_of_div h
  have hax := k.toNat_zext .word (c.gpr rax)
  have hn : ((k.getRef rax .word c).setWidth 32).toNat =
      (dividend 8 (dividendHalves .byte) c).toNat := by
    rw [dividend_byte, toNat_setWidth_of_lt (n := 16) (by decide)]
    · exact hax.trans (BitVec.toNat_setWidth ..).symm
    · exact hax.trans_lt (Nat.mod_lt _ (by decide))
  have hb := @toNat_divisor src .byte (by decide) hsrc
  rw [setRef_eq_writeHalf ((low_divuw hd (by decide) hn hb).trans (BitVec.setWidth_eq _).symm),
    setRef_eq_writeHalf ((low_remuw hd (by decide) hn hb).trans (BitVec.setWidth_eq _).symm)]
  rfl

theorem idivByte_eq
    (h : DivOp.idiv.divided (dividendHalves .byte) (low .byte src) c = some c') :
    k.setRef rax .byteHigh (remw (k.sexth (k.getRef rax .word c)) (k.sextb src))
      (k.setRef rax .byte (divw (k.sexth (k.getRef rax .word c)) (k.sextb src)) c) = c' := by
  obtain ⟨hd, -, rfl⟩ := eq_of_idiv h
  have hn : ((k.sexth (k.getRef rax .word c)).setWidth 32).toInt =
      (dividend 8 (dividendHalves .byte) c).toInt := by
    rw [toInt_sexth, k.low_getRef, dividend_byte]
    rfl
  have hb := @toInt_sextb k src
  rw [setRef_eq_writeHalf ((low_divw hd (by decide) hn hb).trans (BitVec.setWidth_eq _).symm),
    setRef_eq_writeHalf ((low_remw hd (by decide) hn hb).trans (BitVec.setWidth_eq _).symm)]
  rfl

theorem divWord_eq (hsrc : src.toNat < 2 ^ 16)
    (h : DivOp.div.divided (dividendHalves .word) (low .word src) c = some c') :
    let dx := slliw (k.getRef rdx .word c) 16 ||| k.getRef rax .word c
    k.setRef rdx .word (remuw dx src) (k.setRef rax .word (divuw dx src) c) = c' := by
  intro dx
  obtain ⟨hd, -, rfl⟩ := eq_of_div h
  have hn := congrArg BitVec.toNat (dividend_word (k := k) c)
  have hb := @toNat_divisor src .word (by decide) hsrc
  rw [setRef_eq_writeHalf ((low_divuw hd (by decide) hn hb).trans (BitVec.setWidth_eq _).symm),
    setRef_eq_writeHalf ((low_remuw hd (by decide) hn hb).trans (BitVec.setWidth_eq _).symm)]
  rfl

theorem idivWord_eq
    (h : DivOp.idiv.divided (dividendHalves .word) (low .word src) c = some c') :
    let dx := slliw (k.getRef rdx .word c) 16 ||| k.getRef rax .word c
    k.setRef rdx .word (remw dx (k.sexth src)) (k.setRef rax .word (divw dx (k.sexth src)) c) =
      c' := by
  intro dx
  obtain ⟨hd, -, rfl⟩ := eq_of_idiv h
  have hn := congrArg BitVec.toInt (dividend_word (k := k) c)
  have hb := @toInt_sexth k src
  rw [setRef_eq_writeHalf ((low_divw hd (by decide) hn hb).trans (BitVec.setWidth_eq _).symm),
    setRef_eq_writeHalf ((low_remw hd (by decide) hn hb).trans (BitVec.setWidth_eq _).symm)]
  rfl

end

/-! ## Doublewords -/

section

variable {k i} {c c' : Core ρ}

theorem Core.write_write (c : Core ρ) (r : Ref) (v w : U64) :
    (c.write r v).write r w = c.write r w := by
  rw [Core.write, Core.write, Core.write, Function.update_idem]

theorem Core.write_comm (c : Core ρ) {r r' : Ref} (h : r ≠ r') (v w : U64) :
    (c.write r v).write r' w = (c.write r' w).write r v := by
  simp only [Core.write, Function.update_comm h]

theorem Core.write_inj {c : Core ρ} {r : Ref} {v w : U64} : c.write r v = c.write r w ↔ v = w := by
  refine ⟨fun h ↦ ?_, fun h ↦ h ▸ rfl⟩
  have hreg := congrFun (congrArg Core.gpr h) r
  simpa only [Core.write, Function.update_self] using hreg

theorem Core.gpr_write (c : Core ρ) (r r' : Ref) (v : U64) :
    (c.write r v).gpr r' = if r' = r then v else c.gpr r' := by
  exact Function.update_apply ..

/-- What the doubleword forms divide. -/
def dividendDword (c : Core ρ) : U64 := (c.gpr rdx <<< 32) ||| k.getRef rax .dword c

/-- The registers once the quotient and the remainder have been put where they are held, and then
where they belong. -/
theorem divTail_eq {c1 : Core ρ} {d : U64} (hc1 : c1 = c.write rdx d) (eax src : Host)
    (heax : eax = .live rax ∨ ∃ v, eax = .scratch v) (quotient remainder : U64 → U64 → U64) :
    let p := eax.put (quotient (c1.gpr rdx) (src.val c1)) c1
    let c2 := p.2.write rdx (remainder (p.2.gpr rdx) (src.val p.2))
    let c3 := k.setRef rax .dword (p.1.val c2) c2
    k.setRef rdx .dword (c3.gpr rdx) c3 =
      k.setRef rdx .dword (remainder d (src.val p.2))
        (k.setRef rax .dword (quotient d (src.val c1)) c) := by
  subst hc1
  have hne : rax ≠ rdx := by decide
  have hcomm (c : Core ρ) (v w : U64) : (c.write rdx v).write rax w = (c.write rax w).write rdx v :=
    c.write_comm hne.symm v w
  have hmerge (r : Ref) (c : Core ρ) (v : U64) :
      k.setRef r .dword v c = c.write r (k.merge .dword 0 v) := rfl
  obtain rfl | ⟨v, rfl⟩ := heax
  · simp only [Host.put, Host.val, hmerge, Core.gpr_write, if_pos, if_neg hne, if_neg hne.symm,
      hcomm, Core.write_write]
  · simp only [Host.put, Host.val, hmerge, Core.gpr_write, if_pos, if_neg hne.symm, hcomm,
      Core.write_write]

/-- Writes to the registers on the way do not last, but what they are read for may be the
divisor. -/
theorem divDword_eq (quotient remainder : U64 → U64 → U64) (ext : Option (U64 → U64)) (c : Core ρ) :
    let d := @dividendDword ρ k c
    let src := match ext with
      | some f => Host.scratch (f ((k.host i i.op0 c).val (c.write rdx d)))
      | none => k.host i i.op0 c
    let q := quotient d (src.val (c.write rdx d))
    let r := remainder d (src.val ((k.hostRef rax .dword c).put q (c.write rdx d)).2)
    divDword k i quotient remainder ext c = k.setRef rdx .dword r (k.setRef rax .dword q c) := by
  intro d src q r
  have hne : rax ≠ rdx := by decide
  have heax : k.hostRef rax .dword c = .live rax ∨ ∃ v, k.hostRef rax .dword c = .scratch v := by
    rw [Config.hostRef]
    split
    · exact .inl rfl
    · exact .inr ⟨_, rfl⟩
  have hval : (k.hostRef rax .dword c).val (c.write rdx (c.gpr rdx <<< 32)) =
      k.getRef rax .dword c := by
    rw [Config.hostRef]
    split
    · next hmode => simp only [Host.val, Core.gpr_write, if_neg hne, Config.getRef, hmode, if_true]
    · rfl
  have hfirst : (c.write rdx (c.gpr rdx <<< 32)).write rdx
      ((c.write rdx (c.gpr rdx <<< 32)).gpr rdx |||
        (k.hostRef rax .dword c).val (c.write rdx (c.gpr rdx <<< 32))) = c.write rdx d := by
    rw [Core.write_write, hval, Core.gpr_write, if_pos rfl]
    rfl
  have hrdx : (c.write rdx d).gpr rdx = d := by rw [Core.gpr_write, if_pos rfl]
  cases ext with
  | none =>
    refine (divTail_eq hfirst _ _ heax quotient remainder).trans ?_
    rw [hfirst, hrdx]
  | some f =>
    refine (divTail_eq hfirst _ _ heax quotient remainder).trans ?_
    rw [hfirst, hrdx]

end

section

variable {k i} {c c' : Core ρ} {v : U64}

theorem getRef_dword_lt (hz : k.mode32 → Zext c) (r : Ref) : (k.getRef r .dword c).toNat < 2 ^ 32 :=
  k.getRef_lt fun _ hmode ↦ hz hmode r

theorem toNat_getRef_dword (hz : k.mode32 → Zext c) (r : Ref) :
    (k.getRef r .dword c).toNat = (c.gpr r).toNat % 2 ^ 32 := by
  have hlow := congrArg BitVec.toNat (k.low_getRef r .dword c)
  rw [toNat_low] at hlow
  rw [← Nat.mod_eq_of_lt (getRef_dword_lt hz r)]
  exact hlow.trans (BitVec.toNat_setWidth ..)

theorem toNat_readHalf_dword (r : Ref) (c : Core ρ) :
    (readHalf 32 (r, .dword) c).toNat = (c.gpr r).toNat % 2 ^ 32 := by
  rw [readHalf]
  exact (congrArg BitVec.toNat (BitVec.setWidth_eq _)).trans (BitVec.toNat_setWidth ..)

/-- `EDX` and `EAX` put together. -/
theorem dividendDword_eq (hz : k.mode32 → Zext c) :
    @dividendDword ρ k c = dividend 32 (dividendHalves .dword) c := by
  apply BitVec.eq_of_toNat_eq
  refine Eq.trans ?_ (toNat_append_eq _ _).symm
  have hhi := toNat_readHalf_dword rdx c
  have hlo := toNat_readHalf_dword rax c
  have hmul : (c.gpr rdx).toNat * 2 ^ 32 % 2 ^ 64 = (c.gpr rdx).toNat % 2 ^ 32 * 2 ^ 32 := by omega
  simp only [dividendHalves]
  rw [dividendDword, BitVec.toNat_or, toNat_shl, toNat_getRef_dword hz, hhi, hlo, hmul,
    or_eq_add (Nat.mod_lt _ (by decide))]

theorem toNat_dword (hv : v.toNat < 2 ^ 32) : v.toNat = (low .dword v).toNat := by
  rw [toNat_low]
  exact (Nat.mod_eq_of_lt hv).symm

theorem toInt_sextw (v : U64) : (sextw v).toInt = (low .dword v).toInt :=
  BitVec.toInt_signExtend_of_le (by decide)

theorem divDword_core (hz : k.mode32 → Zext c) (hv : v.toNat < 2 ^ 32)
    (h : DivOp.div.divided (dividendHalves .dword) (low .dword v) c = some c') :
    k.setRef rdx .dword (remu (@dividendDword ρ k c) v)
      (k.setRef rax .dword (divu (@dividendDword ρ k c) v) c) = c' := by
  obtain ⟨hd, -, rfl⟩ := eq_of_div h
  have hn := congrArg BitVec.toNat (dividendDword_eq hz)
  have hb := toNat_dword hv
  rw [setRef_eq_writeHalf ((low_divu hd hn hb).trans (BitVec.setWidth_eq _).symm),
    setRef_eq_writeHalf ((low_remu hd hn hb).trans (BitVec.setWidth_eq _).symm)]
  rfl

theorem idivDword_core (hz : k.mode32 → Zext c)
    (h : DivOp.idiv.divided (dividendHalves .dword) (low .dword v) c = some c') :
    k.setRef rdx .dword (Riscv.rem (@dividendDword ρ k c) (sextw v))
      (k.setRef rax .dword (Riscv.div (@dividendDword ρ k c) (sextw v)) c) = c' := by
  obtain ⟨hd, -, rfl⟩ := eq_of_idiv h
  have hn := congrArg BitVec.toInt (dividendDword_eq hz)
  have hb := toInt_sextw v
  rw [setRef_eq_writeHalf ((low_div hd hn hb).trans (BitVec.setWidth_eq _).symm),
    setRef_eq_writeHalf ((low_rem hd hn hb).trans (BitVec.setWidth_eq _).symm)]
  rfl

/-- A register that is held keeps the value of an operand if it is not written. -/
theorem host_val (hsize : i.op0.size = .dword) {c1 : Core ρ}
    (hkeep : ∀ r, k.mode32 → i.op0 = .reg r .dword → c1.gpr r = c.gpr r) :
    (k.host i i.op0 c).val c1 = k.get i i.op0 c := by
  cases hop : i.op0 with
  | reg r size =>
    rw [hop] at hsize
    cases hsize
    by_cases hmode : k.mode32
    · simp only [Config.host, Config.hostRef, Config.get, Config.getRef, hmode, if_true, Host.val]
      exact hkeep r hmode hop
    · simp only [Config.host, Config.hostRef, Config.get, Config.getRef, hmode, if_false, Host.val,
        Bool.false_eq_true]
  | mem m size => rfl
  | imm v size => rfl
  | seg s => rfl

end

/-! ## A dividend that is overwritten -/

/-- Where the dividend of a doubleword division is also the divisor, the code is right if: the
remainder of a division by `EAX` is less than the quotient, which it is divided by; a division by
`EDX`, which is in the upper half of the dividend then, is one of a number by itself. -/
def DivOp.Right (op : DivOp) (c : Core ρ) : Prop :=
  let eax := (low .dword (c.gpr rax)).toNat
  let edx := (low .dword (c.gpr rdx)).toNat
  let n := edx * 2 ^ 32 + eax
  match op with
  | .div => k.mode32 → i.op0 = .reg rax .dword → eax ≠ 0 → n / eax < 2 ^ 32 → n % eax < n / eax
  | .idiv => k.mode32 → i.op0 = .reg rdx .dword → edx = 2 ^ 32 - 1 → 2 ^ 31 < eax →
      eax = 2 ^ 32 - 1

section

variable {k i} {c c' : Core ρ}

theorem toNat_dividend_dword (c : Core ρ) :
    (dividend 32 (dividendHalves .dword) c).toNat =
      (low .dword (c.gpr rdx)).toNat * 2 ^ 32 + (low .dword (c.gpr rax)).toNat := by
  refine (toNat_append_eq _ _).trans ?_
  have hhi := toNat_readHalf_dword rdx c
  have hlo := toNat_readHalf_dword rax c
  simp only [dividendHalves]
  rw [hhi, hlo, toNat_low, toNat_low]
  rfl

theorem writeHalf_inj {w : ℕ} {r : Ref} {size : Size} {x y : BitVec w} {c : Core ρ}
    (hw : w = size.bits) (h : writeHalf (r, size) x c = writeHalf (r, size) y c) : x = y := by
  subst hw
  have hreg := congrFun (congrArg Core.gpr h) r
  simp only [writeHalf, Core.gpr_write, if_pos, BitVec.setWidth_eq] at hreg
  exact writePart_inj.mp hreg

/-- The divisor is still there when it is read, if it is not one of the two registers. -/
theorem divDword_keep (hsize : i.op0.size = .dword) (quotient remainder : U64 → U64 → U64)
    (hrax : k.mode32 → i.op0 ≠ .reg rax .dword) (hrdx : k.mode32 → i.op0 ≠ .reg rdx .dword) :
    divDword k i quotient remainder none c =
      k.setRef rdx .dword (remainder (@dividendDword ρ k c) (k.get i i.op0 c))
        (k.setRef rax .dword (quotient (@dividendDword ρ k c) (k.get i i.op0 c)) c) := by
  have hfirst : (k.host i i.op0 c).val (c.write rdx (@dividendDword ρ k c)) = k.get i i.op0 c := by
    refine host_val hsize fun r hmode hr ↦ ?_
    have hne : r ≠ rdx := fun h ↦ hrdx hmode (h ▸ hr)
    rw [Core.gpr_write, if_neg hne]
  have hsecond (q : U64) : (k.host i i.op0 c).val
      ((k.hostRef rax .dword c).put q (c.write rdx (@dividendDword ρ k c))).2 =
          k.get i i.op0 c := by
    refine host_val hsize fun r hmode hr ↦ ?_
    have hne : r ≠ rdx := fun h ↦ hrdx hmode (h ▸ hr)
    have hne' : r ≠ rax := fun h ↦ hrax hmode (h ▸ hr)
    simp only [Config.hostRef, hmode, if_true, Host.put, Core.gpr_write, if_neg hne, if_neg hne']
  refine (divDword_eq quotient remainder none c).trans ?_
  simp only [hfirst, hsecond]

/-- A divisor that is sign extended first only has to be there when it is. -/
theorem divDword_ext (hsize : i.op0.size = .dword) (quotient remainder : U64 → U64 → U64)
    (f : U64 → U64) (hrdx : k.mode32 → i.op0 ≠ .reg rdx .dword) :
    divDword k i quotient remainder (some f) c =
      k.setRef rdx .dword (remainder (@dividendDword ρ k c) (f (k.get i i.op0 c)))
        (k.setRef rax .dword (quotient (@dividendDword ρ k c) (f (k.get i i.op0 c))) c) := by
  have hfirst : (k.host i i.op0 c).val (c.write rdx (@dividendDword ρ k c)) = k.get i i.op0 c := by
    refine host_val hsize fun r hmode hr ↦ ?_
    have hne : r ≠ rdx := fun h ↦ hrdx hmode (h ▸ hr)
    rw [Core.gpr_write, if_neg hne]
  refine (divDword_eq quotient remainder (some f) c).trans ?_
  simp only [hfirst]
  rfl

end

section

variable {k i} {c c' : Core ρ}

theorem setRef_dword_eq (r : Ref) (v : U64) (c : Core ρ) :
    k.setRef r .dword v c = writeHalf (r, .dword) (low .dword v) c :=
  setRef_eq_writeHalf (BitVec.setWidth_eq _).symm

/-- By `EAX` the remainder is taken modulo the quotient. -/
theorem divDword_rax (hmode : k.mode32) (hop : i.op0 = .reg rax .dword)
    (quotient remainder : U64 → U64 → U64) :
    let q := quotient (@dividendDword ρ k c) (c.gpr rax)
    divDword k i quotient remainder none c =
      k.setRef rdx .dword (remainder (@dividendDword ρ k c) q) (k.setRef rax .dword q c) := by
  intro q
  have hhost : k.host i i.op0 c = .live rax := by
    simp only [hop, Config.host, Config.hostRef, hmode, if_true]
  have heax : k.hostRef rax .dword c = .live rax := by
    simp only [Config.hostRef, hmode, if_true]
  have hne : rax ≠ rdx := by decide
  refine (divDword_eq quotient remainder none c).trans ?_
  simp only [hhost, heax, Host.val, Host.put, Core.gpr_write, if_pos, if_neg hne]
  rfl

/-- By `EDX` the dividend is divided by itself. -/
theorem divDword_rdx (hmode : k.mode32) (hop : i.op0 = .reg rdx .dword)
    (quotient remainder : U64 → U64 → U64) (f : U64 → U64) :
    let d := @dividendDword ρ k c
    divDword k i quotient remainder (some f) c =
      k.setRef rdx .dword (remainder d (f d)) (k.setRef rax .dword (quotient d (f d)) c) := by
  intro d
  have hhost : k.host i i.op0 c = .live rdx := by
    simp only [hop, Config.host, Config.hostRef, hmode, if_true]
  refine (divDword_eq quotient remainder (some f) c).trans ?_
  simp only [hhost, Host.val, Core.gpr_write, if_pos]
  rfl

/-- A remainder is a remainder of the division by the quotient as well only if it is less. -/
theorem mod_div_eq_mod_iff {n d : ℕ} (hq : n / d ≠ 0) : n % (n / d) = n % d ↔ n % d < n / d := by
  have hdiv := Nat.div_add_mod' n d
  generalize n / d = q, n % d = r at *
  have hmod : n % q = r % q := by rw [← hdiv, Nat.mul_add_mod]
  constructor
  · intro h
    rw [← h]
    exact Nat.mod_lt _ (Nat.pos_of_ne_zero hq)
  · intro h
    rw [hmod, Nat.mod_eq_of_lt h]

theorem ofNat_inj {w m n : ℕ} (hm : m < 2 ^ w) (hn : n < 2 ^ w) :
    BitVec.ofNat w m = BitVec.ofNat w n ↔ m = n := by
  rw [← BitVec.toNat_inj, BitVec.toNat_ofNat, BitVec.toNat_ofNat, Nat.mod_eq_of_lt hm,
    Nat.mod_eq_of_lt hn]

theorem divRax_iff (hz : k.mode32 → Zext c) (hmode : k.mode32) (hop : i.op0 = .reg rax .dword)
    (h : DivOp.div.divided (dividendHalves .dword) (low .dword (c.gpr rax)) c = some c') :
    divDword k i divu remu none c = c' ↔ DivOp.div.Right k i c := by
  have hrax : (c.gpr rax).toNat < 2 ^ 32 := low32_iff.mp (hz hmode rax)
  have hv := toNat_dword hrax
  have hn := (congrArg BitVec.toNat (dividendDword_eq hz)).trans (toNat_dividend_dword c)
  obtain ⟨hd, hq, rfl⟩ := eq_of_div h
  have hdividend := toNat_dividend_dword c
  rw [DivOp.Right]
  change (dividend 32 (dividendHalves .dword) c).toNat / (low .dword (c.gpr rax)).toNat <
    2 ^ 32 at hq
  change _ = writeHalf (rdx, .dword)
    (BitVec.ofNat 32 ((dividend 32 (dividendHalves .dword) c).toNat %
      (low .dword (c.gpr rax)).toNat))
    (writeHalf (rax, .dword)
    (BitVec.ofNat 32 ((dividend 32 (dividendHalves .dword) c).toNat /
      (low .dword (c.gpr rax)).toNat))
      c) ↔ _
  rw [hdividend] at hq ⊢
  have hle : (low .dword (c.gpr rax)).toNat ≤
      (low .dword (c.gpr rdx)).toNat * 2 ^ 32 + (low .dword (c.gpr rax)).toNat :=
        Nat.le_add_left _ _
  have hlt : (low .dword (c.gpr rax)).toNat < 2 ^ 32 := (low .dword (c.gpr rax)).isLt
  rw [divDword_rax hmode hop, setRef_dword_eq rax, low_divu hd hn hv, setRef_dword_eq rdx]
  generalize (low .dword (c.gpr rdx)).toNat * 2 ^ 32 + (low .dword (c.gpr rax)).toNat = n at *
  generalize (low .dword (c.gpr rax)).toNat = e at *
  have hpos : n / e ≠ 0 := (Nat.div_pos hle (Nat.pos_of_ne_zero hd)).ne'
  have hquot : (divu (@dividendDword ρ k c) (c.gpr rax)).toNat = n / e := by
    rw [divu, if_neg (ne_zero_of_toNat hd hv), BitVec.toNat_udiv, hn, hv]
  rw [low_remu hpos hn hquot]
  have hcond : (k.mode32 → i.op0 = .reg rax .dword → e ≠ 0 → n / e < 2 ^ 32 → n % e < n / e) ↔
      n % e < n / e := ⟨fun h ↦ h hmode hop hd hq, fun h _ _ _ _ ↦ h⟩
  refine Iff.trans ?_ hcond.symm
  have hmod : n % (n / e) < 2 ^ 32 := (Nat.mod_lt _ (Nat.pos_of_ne_zero hpos)).trans hq
  have hmod' : n % e < 2 ^ 32 := (Nat.mod_lt _ (Nat.pos_of_ne_zero hd)).trans hlt
  rw [← mod_div_eq_mod_iff hpos]
  constructor
  · intro h
    exact (ofNat_inj hmod hmod').mp (writeHalf_inj rfl h)
  · intro h
    rw [h]
    rfl

end

section

variable {k i} {c c' : Core ρ}

/-- A dividend whose upper half is the divisor has a quotient that fits only for the divisor
`-1`. -/
theorem eq_neg_one_of_inRange {s : ℤ} {e : ℕ} (hs : s ≠ 0) (he : e < 2 ^ 32)
    (hq : X86.InRange 32 ((s * 2 ^ 32 + e).tdiv s)) : s = -1 ∧ 2 ^ 31 < e := by
  have hdiv := Int.mul_tdiv_add_tmod (s * 2 ^ 32 + e) s
  obtain ⟨-, hlt⟩ := hq
  obtain hneg | hpos := lt_or_gt_of_ne hs
  · have hrem : s < (s * 2 ^ 32 + e).tmod s := by
      have h := Int.lt_tmod_of_pos (s * 2 ^ 32 + e) (show 0 < -s by omega)
      rw [Int.tmod_neg] at h
      omega
    generalize (s * 2 ^ 32 + e).tdiv s = q at *
    generalize (s * 2 ^ 32 + e).tmod s = r at *
    have hle : -s * (2 ^ 31 : ℤ) ≤ -s * (2 ^ 32 - q - 1) :=
      Int.mul_le_mul_of_nonneg_left (by omega) (by omega)
    have hprod : -s * (2 ^ 32 - q - 1) = e - r + s := by linarith
    omega
  · have hrem : 0 ≤ (s * 2 ^ 32 + e).tmod s := Int.tmod_nonneg _ (by omega)
    have hrem' := Int.tmod_lt_of_pos (s * 2 ^ 32 + e) hpos
    generalize (s * 2 ^ 32 + e).tdiv s = q at *
    generalize (s * 2 ^ 32 + e).tmod s = r at *
    have hle : s * 1 ≤ s * (2 ^ 32 - q) := Int.mul_le_mul_of_nonneg_left (by omega) (by omega)
    have hprod : s * (2 ^ 32 - q) = r - e := by linarith
    omega

/-- In particular an unsigned one never does. -/
theorem not_div_rdx :
    DivOp.div.divided (dividendHalves .dword) (low .dword (c.gpr rdx)) c ≠ some c' := by
  intro h
  obtain ⟨hd, hq, -⟩ := eq_of_div h
  have hdividend := toNat_dividend_dword c
  change (dividend 32 (dividendHalves .dword) c).toNat / (low .dword (c.gpr rdx)).toNat <
    2 ^ 32 at hq
  rw [hdividend, Nat.mul_add_div (Nat.pos_of_ne_zero hd)] at hq
  exact absurd hq (Nat.not_lt.mpr (Nat.le_add_right _ _))

theorem toInt_dividend_dword (c : Core ρ) :
    (dividend 32 (dividendHalves .dword) c).toInt =
      (low .dword (c.gpr rdx)).toInt * 2 ^ 32 + ((low .dword (c.gpr rax)).toNat : ℤ) := by
  have hhalf (r : Ref) : readHalf 32 (r, .dword) c = low .dword (c.gpr r) := BitVec.setWidth_eq _
  refine BitVec.toInt_append.trans ?_
  rw [if_neg (by decide), Int.mul_comm]
  simp only [dividendHalves, hhalf]
  rfl

/-- The quotient is still there once the remainder is written. -/
theorem eq_of_writeHalves {x x' y y' : BitVec 32}
    (h : writeHalf (rdx, .dword) x (writeHalf (rax, .dword) y c) =
      writeHalf (rdx, .dword) x' (writeHalf (rax, .dword) y' c)) : y = y' := by
  have hne : rax ≠ rdx := by decide
  have hrax := congrFun (congrArg Core.gpr h) rax
  simp only [writeHalf, Core.gpr_write, if_neg hne, if_pos] at hrax
  exact writePart_inj.mp hrax

/-- The lower half of the dividend is `EAX`. -/
theorem low_dividendDword : low .dword (@dividendDword ρ k c) = low .dword (c.gpr rax) := by
  have hax := k.low_getRef rax .dword c
  rw [dividendDword, low_or, low_shl, hax]
  have hzero : low .dword (c.gpr rdx) <<< 32 = BitVec.ofNat Size.dword.bits 0 :=
    BitVec.shiftLeft_eq_zero le_rfl
  rw [hzero]
  exact BitVec.zero_or

theorem toInt_dword (v : BitVec Size.dword.bits) :
    v.toInt = if 2 * v.toNat < 2 ^ 32 then (v.toNat : ℤ) else v.toNat - 2 ^ 32 :=
  @BitVec.toInt_eq_toNat_cond 32 v

theorem idivRdx_iff (hz : k.mode32 → Zext c) (hmode : k.mode32) (hop : i.op0 = .reg rdx .dword)
    (h : DivOp.idiv.divided (dividendHalves .dword) (low .dword (c.gpr rdx)) c = some c') :
    divDword k i Riscv.div Riscv.rem (some sextw) c = c' ↔ DivOp.idiv.Right k i c := by
  obtain ⟨hd, hq, rfl⟩ := eq_of_idiv h
  have hdividend := toInt_dividend_dword c
  have he : (low .dword (c.gpr rax)).toNat < 2 ^ 32 := (low .dword (c.gpr rax)).isLt
  have hn := (congrArg BitVec.toInt (dividendDword_eq hz)).trans hdividend
  have hb : (sextw (@dividendDword ρ k c)).toInt = (low .dword (c.gpr rax)).toInt := by
    rw [toInt_sextw, low_dividendDword]
  change X86.InRange 32 ((dividend 32 (dividendHalves .dword) c).toInt.tdiv
    (low .dword (c.gpr rdx)).toInt) at hq
  change _ = writeHalf (rdx, .dword)
    (BitVec.ofInt 32 ((dividend 32 (dividendHalves .dword) c).toInt.tmod
      (low .dword (c.gpr rdx)).toInt))
    (writeHalf (rax, .dword) (BitVec.ofInt 32 ((dividend 32 (dividendHalves .dword) c).toInt.tdiv
      (low .dword (c.gpr rdx)).toInt)) c) ↔ _
  rw [hdividend] at hq ⊢
  obtain ⟨hs, hlt⟩ := eq_neg_one_of_inRange hd he hq
  -- the upper half, which is `-1`, is the sign of the lower
  have heax : (low .dword (c.gpr rax)).toInt =
      -1 * 2 ^ 32 + ((low .dword (c.gpr rax)).toNat : ℤ) := by
    rw [toInt_dword, if_neg (by omega)]
    omega
  have hedx : (low .dword (c.gpr rdx)).toNat = 2 ^ 32 - 1 := by
    have hlt : (low .dword (c.gpr rdx)).toNat < 2 ^ 32 := (low .dword (c.gpr rdx)).isLt
    rw [toInt_dword] at hs
    split at hs <;> omega
  rw [heax] at hb
  rw [hs] at hn ⊢
  have hcond : DivOp.idiv.Right k i c ↔ (low .dword (c.gpr rax)).toNat = 2 ^ 32 - 1 :=
    ⟨fun h ↦ h hmode hop hedx hlt, fun h _ _ _ _ ↦ h⟩
  rw [hcond, divDword_rdx hmode hop, setRef_dword_eq rax, setRef_dword_eq rdx]
  generalize (low .dword (c.gpr rax)).toNat = e at *
  have hne : -1 * 2 ^ 32 + (e : ℤ) ≠ 0 := by omega
  have hquot := @low_div .dword _ _ _ _ hne hn hb
  have hrem := @low_rem .dword _ _ _ _ hne hn hb
  rw [Int.tdiv_self hne] at hquot
  rw [Int.tmod_self] at hrem
  rw [hquot, hrem, Int.tmod_neg, Int.tmod_one, Int.tdiv_neg, Int.tdiv_one]
  have hnat : -(-1 * 2 ^ 32 + (e : ℤ)) = ((2 ^ 32 - e : ℕ) : ℤ) := by omega
  rw [hnat]
  constructor
  · intro h
    have hrax : BitVec.ofNat 32 1 = BitVec.ofNat 32 (2 ^ 32 - e) :=
      (eq_of_writeHalves h).trans (BitVec.ofInt_natCast _ _)
    have hone := (ofNat_inj (by decide) (by omega)).mp hrax
    omega
  · rintro rfl
    rfl

end

/-! ## Quadwords -/

/-- The helper that divides 128 bits. -/
def DivOp.helper (op : DivOp) (src : U64) (c : Core ρ) : Option (Core ρ) :=
  match op with
  | .div => felix86Divu128 src c
  | .idiv => felix86Div128 src c

/-- The result of the unsigned helper is an error code where the quotient does not fit. -/
def DivOp.Fits (op : DivOp) (src : U64) (c : Core ρ) : Prop :=
  match op with
  | .div => (c.gpr rdx).toNat < src.toNat
  | .idiv => True

/-- What one host instruction each makes of `RAX`. -/
def DivOp.fast (op : DivOp) (src : U64) (c : Core ρ) : Core ρ :=
  match op with
  | .div =>
    k.setRef rdx .qword (remu (c.gpr rax) src) (k.setRef rax .qword (divu (c.gpr rax) src) c)
  | .idiv => k.setRef rdx .qword (Riscv.rem (c.gpr rax) src)
      (k.setRef rax .qword (Riscv.div (c.gpr rax) src) c)

section

variable {k} {c c' : Core ρ} {src : U64}

theorem dividend_qword (c : Core ρ) :
    dividend 64 (dividendHalves .qword) c = c.gpr rdx ++ c.gpr rax := by
  have hhalf (r : Ref) : readHalf 64 (r, .qword) c = c.gpr r := by
    rw [readHalf]
    exact (BitVec.setWidth_eq _).trans (BitVec.setWidth_eq _)
  simp only [dividend, dividendHalves, hhalf]

theorem writeHalf_qword (r : Ref) (v : BitVec 64) (c : Core ρ) :
    writeHalf (r, .qword) v c = c.write r v := by
  rw [writeHalf]
  exact congrArg (c.write r) (BitVec.setWidth_eq v)

/-- The unsigned helper. -/
theorem felix86Divu128_eq (hfit : DivOp.div.Fits src c) :
    felix86Divu128 src c =
      some ((c.write rax (BitVec.ofNat 64 ((c.gpr rdx ++ c.gpr rax).toNat / src.toNat))).write rdx
        (BitVec.ofNat 64 ((c.gpr rdx ++ c.gpr rax).toNat % src.toNat))) := by
  have hne : src ≠ 0 := by
    rintro rfl
    exact Nat.not_lt_zero _ hfit
  rw [felix86Divu128, if_neg hne, libdivide128Div64To64_eq hfit, toNat_append_eq]

/-- The signed one truncates the quotient to the registers' size. -/
theorem felix86Div128_eq (hne : src ≠ 0) :
    felix86Div128 src c =
      some ((c.write rax (BitVec.ofInt 64 ((c.gpr rdx ++ c.gpr rax).toInt.tdiv
        src.toInt))).write rdx
        (BitVec.ofInt 64 ((c.gpr rdx ++ c.gpr rax).toInt.tmod src.toInt))) := by
  have hsrc : (src.signExtend 128).toInt = src.toInt := BitVec.toInt_signExtend_of_le (by decide)
  rw [felix86Div128, if_neg hne]
  simp only []
  rw [sdiv_eq_ofInt, srem_eq_ofInt, hsrc, setWidth_ofInt (by decide), setWidth_ofInt (by decide)]

/-- Where the processor does not fault, the helper is right. -/
theorem helper_eq {op : DivOp}
    (h : op.divided (dividendHalves .qword) (low .qword src) c = some c') :
    op.helper src c = some c' ∧ op.Fits src c := by
  have hsrc : low .qword src = src := BitVec.setWidth_eq _
  have hdividend := dividend_qword c
  cases op with
  | div =>
    obtain ⟨hd, hq, rfl⟩ := eq_of_div h
    have hnat : (low .qword src).toNat = src.toNat := congrArg BitVec.toNat hsrc
    change (dividend 64 (dividendHalves .qword) c).toNat / (low .qword src).toNat < 2 ^ 64 at hq
    rw [hnat] at hd hq
    have hfit : DivOp.div.Fits src c := by
      rw [hdividend, toNat_append_eq, Nat.div_lt_iff_lt_mul (Nat.pos_of_ne_zero hd)] at hq
      rw [DivOp.Fits]
      omega
    refine ⟨(felix86Divu128_eq hfit).trans (congrArg some ?_), hfit⟩
    change _ = writeHalf (rdx, .qword)
      (BitVec.ofNat 64 ((dividend 64 (dividendHalves .qword) c).toNat % (low .qword src).toNat))
      (writeHalf (rax, .qword)
        (BitVec.ofNat 64 ((dividend 64 (dividendHalves .qword) c).toNat / (low .qword src).toNat))
          c)
    rw [hnat, hdividend, writeHalf_qword, writeHalf_qword]
  | idiv =>
    obtain ⟨hd, hq, rfl⟩ := eq_of_idiv h
    have hint : (low .qword src).toInt = src.toInt := congrArg BitVec.toInt hsrc
    rw [hint] at hd
    refine ⟨(felix86Div128_eq (ne_zero_of_toInt hd rfl)).trans (congrArg some ?_), trivial⟩
    change _ = writeHalf (rdx, .qword)
      (BitVec.ofInt 64 ((dividend 64 (dividendHalves .qword) c).toInt.tmod (low .qword src).toInt))
      (writeHalf (rax, .qword)
        (BitVec.ofInt 64
          ((dividend 64 (dividendHalves .qword) c).toInt.tdiv (low .qword src).toInt)) c)
    rw [hint, hdividend, writeHalf_qword, writeHalf_qword]

/-- A dividend whose upper half is the sign of the lower is that number. -/
theorem toInt_signed {hi lo : U64} (h : lo.sshiftRight 63 = hi) : (hi ++ lo).toInt = lo.toInt := by
  subst h
  have hlo := lo.isLt
  rw [BitVec.toInt_append, if_neg (by decide), BitVec.toInt_sshiftRight, Int.shiftRight_eq_div_pow,
    BitVec.toInt_eq_toNat_cond]
  split <;> omega

/-- So one instruction is enough, where the helper has a result. -/
theorem fast_eq_helper {op : DivOp} (hsign : (c.gpr rax).sshiftRight 63 = c.gpr rdx)
    (hfit : op.Fits src c) (h : op.helper src c = some c') : op.fast k src c = c' := by
  have hset (r : Ref) (v : U64) (c : Core ρ) : k.setRef r .qword v c = c.write r v := rfl
  have hlow (v : U64) : low .qword v = v := BitVec.setWidth_eq v
  cases op with
  | div =>
    have heq := h.symm.trans (felix86Divu128_eq hfit)
    cases heq
    have hne : src.toNat ≠ 0 := by
      intro h0
      rw [DivOp.Fits, h0] at hfit
      exact Nat.not_lt_zero _ hfit
    have hzero : (c.gpr rdx).toNat = 0 := by
      have hint := congrArg BitVec.toInt hsign
      have hsrc := src.isLt
      have hrax := (c.gpr rax).isLt
      rw [DivOp.Fits] at hfit
      rw [BitVec.toInt_sshiftRight, Int.shiftRight_eq_div_pow, BitVec.toInt_eq_toNat_cond,
        BitVec.toInt_eq_toNat_cond] at hint
      split at hint <;> split at hint <;> omega
    have hn : (c.gpr rdx ++ c.gpr rax).toNat = (c.gpr rax).toNat := by
      rw [toNat_append_eq, hzero, Nat.zero_mul, Nat.zero_add]
    have hq := @low_divu .qword (c.gpr rax) src _ _ hne rfl rfl
    have hr := @low_remu .qword (c.gpr rax) src _ _ hne rfl rfl
    rw [hlow] at hq hr
    rw [DivOp.fast, hset, hset, hn, hq, hr]
    rfl
  | idiv =>
    have hne : src ≠ 0 := by
      rintro rfl
      cases h
    have heq := h.symm.trans (felix86Div128_eq hne)
    cases heq
    have hint : src.toInt ≠ 0 :=
      fun h0 ↦ hne (BitVec.eq_of_toInt_eq (h0.trans BitVec.toInt_zero.symm))
    have hq := @low_div .qword (c.gpr rax) src _ _ hint rfl rfl
    have hr := @low_rem .qword (c.gpr rax) src _ _ hint rfl rfl
    rw [hlow] at hq hr
    rw [DivOp.fast, hset, hset, toInt_signed hsign, hq, hr]
    rfl

end

/-! ## Every size -/

/-- What the handler makes of the registers. -/
def DivOp.core (op : DivOp) (c : Core ρ) : Option (Core ρ) :=
  match op with
  | .div => divCore k i c
  | .idiv => idivCore k i c

/-- Unless the processor faults, the registers are what it leaves. -/
def Divides (op : DivOp) (s : State ρ) : Prop :=
  ∀ c, op.expected k i s.core = some c →
    ∃ s', Instr.exec k live ⟨op.mnemonic, i⟩ s = some s' ∧ s'.core = c

/-- The two ways to divide a quadword agree, where both are defined. -/
def FastAgrees (op : DivOp) (src : U64) (c : Core ρ) : Prop :=
  (c.gpr rax).sshiftRight 63 = c.gpr rdx → op.Fits src c → ∀ c', op.helper src c = some c' →
    op.fast k src c = c'

section

variable {k i} {c c' : Core ρ} {s : State ρ}

theorem divides_iff (op : DivOp) :
    Divides k i op s ↔ ∀ c, op.expected k i s.core = some c → op.core k i s.core = some c := by
  refine forall_congr' fun c ↦ imp_congr_right fun _ ↦ ?_
  have hexec : Instr.exec k live ⟨op.mnemonic, i⟩ s = divide i (op.core k i) s := by
    cases op <;> rfl
  rw [hexec, divide]
  constructor
  · rintro ⟨s', hs', rfl⟩
    obtain ⟨c, hc, rfl⟩ := Option.map_eq_some_iff.mp hs'
    exact hc
  · intro hc
    rw [hc]
    exact ⟨_, rfl, rfl⟩

/-- Whichever way is taken. -/
theorem divQword_eq (op : DivOp) (hsize : i.op0.size = .qword) (c : Core ρ) :
    op.core k i c =
      if (c.gpr rax).sshiftRight 63 = c.gpr rdx then some (op.fast k (k.get i i.op0 c) c)
      else op.helper (k.get i i.op0 c) c := by
  cases op with
  | div =>
    rw [DivOp.core, divCore, hsize]
    rfl
  | idiv =>
    rw [DivOp.core, idivCore, hsize]
    rfl

theorem core_qword {op : DivOp} (hsize : i.op0.size = .qword)
    (h : op.divided (dividendHalves .qword) (low .qword (k.get i i.op0 c)) c = some c') :
    op.core k i c = some c' := by
  obtain ⟨hhelper, hfit⟩ := helper_eq h
  rw [divQword_eq op hsize]
  split
  · next hsign => rw [fast_eq_helper hsign hfit hhelper]
  · exact hhelper

theorem core_byte {op : DivOp} (hz : k.mode32 → Zext c) (hop : i.op0.Place)
    (hsize : i.op0.size = .byte ∨ i.op0.size = .byteHigh)
    (h : op.divided (dividendHalves .byte) (low .byte (k.get i i.op0 c)) c = some c') :
    op.core k i c = some c' := by
  have hlt := get_place_lt k i hz hop
  cases op with
  | div =>
    obtain hbyte | hbyte := hsize
    · rw [hbyte] at hlt
      rw [DivOp.core, divCore, hbyte]
      exact congrArg some (divByte_eq hlt h)
    · rw [hbyte] at hlt
      rw [DivOp.core, divCore, hbyte]
      exact congrArg some (divByte_eq hlt h)
  | idiv =>
    obtain hbyte | hbyte := hsize
    · rw [DivOp.core, idivCore, hbyte]
      exact congrArg some (idivByte_eq h)
    · rw [DivOp.core, idivCore, hbyte]
      exact congrArg some (idivByte_eq h)

theorem core_word {op : DivOp} (hz : k.mode32 → Zext c) (hop : i.op0.Place)
    (hsize : i.op0.size = .word)
    (h : op.divided (dividendHalves .word) (low .word (k.get i i.op0 c)) c = some c') :
    op.core k i c = some c' := by
  have hlt := get_place_lt k i hz hop
  rw [hsize] at hlt
  cases op with
  | div =>
    rw [DivOp.core, divCore, hsize]
    exact congrArg some (divWord_eq hlt h)
  | idiv =>
    rw [DivOp.core, idivCore, hsize]
    exact congrArg some (idivWord_eq h)

/-- A doubleword division does as it should exactly if the condition holds. -/
theorem core_dword_iff {op : DivOp} (hz : k.mode32 → Zext c) (hop : i.op0.Place)
    (hsize : i.op0.size = .dword)
    (h : op.divided (dividendHalves .dword) (low .dword (k.get i i.op0 c)) c = some c') :
    op.core k i c = some c' ↔ op.Right k i c := by
  have hlt := get_place_lt k i hz hop
  rw [hsize] at hlt
  have hget (r : Ref) (hmode : k.mode32) (hr : i.op0 = .reg r .dword) :
      k.get i i.op0 c = c.gpr r := by
    simp only [hr, Config.get, Config.getRef, hmode, if_true]
  cases op with
  | div =>
    have hcore : DivOp.div.core k i c = some (divDword k i divu remu none c) := by
      rw [DivOp.core, divCore, hsize]
    rw [hcore, Option.some_inj]
    by_cases hrax : k.mode32 ∧ i.op0 = .reg rax .dword
    · obtain ⟨hmode, hr⟩ := hrax
      rw [hget rax hmode hr] at h
      exact divRax_iff hz hmode hr h
    · have hright : DivOp.div.Right k i c := fun hmode hr ↦ absurd ⟨hmode, hr⟩ hrax
      refine iff_of_true ?_ hright
      rw [divDword_keep hsize divu remu (fun hmode hr ↦ hrax ⟨hmode, hr⟩) fun hmode hr ↦ ?_]
      · exact divDword_core hz hlt h
      · rw [hget rdx hmode hr] at h
        exact not_div_rdx h
  | idiv =>
    have hcore : DivOp.idiv.core k i c =
        some (divDword k i Riscv.div Riscv.rem (some sextw) c) := by
      rw [DivOp.core, idivCore, hsize]
    rw [hcore, Option.some_inj]
    by_cases hrdx : k.mode32 ∧ i.op0 = .reg rdx .dword
    · obtain ⟨hmode, hr⟩ := hrdx
      rw [hget rdx hmode hr] at h
      exact idivRdx_iff hz hmode hr h
    · have hright : DivOp.idiv.Right k i c := fun hmode hr ↦ absurd ⟨hmode, hr⟩ hrdx
      refine iff_of_true ?_ hright
      rw [divDword_ext hsize _ _ _ fun hmode hr ↦ hrdx ⟨hmode, hr⟩]
      exact idivDword_core hz h

end

section

variable {k i} {w : ℕ} {halves : (Ref × Size) × (Ref × Size)} {d : BitVec w} {c : Core ρ}

theorem exists_div (hd : d.toNat ≠ 0) (hq : (dividend w halves c).toNat / d.toNat < 2 ^ w) :
    ∃ c', DivOp.div.divided halves d c = some c' := by
  have hne : ¬ (d = 0 ∨ 2 ^ w ≤ (dividend w halves c).toNat / d.toNat) :=
    not_or.mpr ⟨ne_zero_of_toNat hd rfl, Nat.not_le.mpr hq⟩
  rw [dividend] at hne
  rw [DivOp.divided, DivOp.outcome, X86.div]
  simp only [if_neg hne, Option.map_some]
  exact ⟨_, rfl⟩

theorem exists_idiv (hd : d.toInt ≠ 0)
    (hq : X86.InRange w ((dividend w halves c).toInt.tdiv d.toInt)) :
    ∃ c', DivOp.idiv.divided halves d c = some c' := by
  have hne : ¬ (d = 0 ∨ ¬ X86.InRange w ((dividend w halves c).toInt.tdiv d.toInt)) :=
    not_or.mpr ⟨ne_zero_of_toInt hd rfl, not_not.mpr hq⟩
  rw [dividend] at hne
  rw [DivOp.divided, DivOp.outcome, X86.idiv]
  simp only [if_neg hne, Option.map_some]
  exact ⟨_, rfl⟩

/-- The condition is about divisions that do not fault. -/
theorem right_of_core {op : DivOp} (hz : k.mode32 → Zext c) (hop : i.op0.Place)
    (h : ∀ c', op.expected k i c = some c' → op.core k i c = some c') : op.Right k i c := by
  have hdword (r : Ref) (hmode : k.mode32) (hr : i.op0 = .reg r .dword) (c' : Core ρ)
      (hc' : op.divided (dividendHalves .dword) (low .dword (c.gpr r)) c = some c') :
      op.Right k i c := by
    have hget : k.get i i.op0 c = c.gpr r := by
      simp only [hr, Config.get, Config.getRef, hmode, if_true]
    have hsize : i.op0.size = .dword := by rw [hr]; rfl
    rw [← hget] at hc'
    refine (core_dword_iff hz hop hsize hc').mp (h c' ?_)
    rw [DivOp.expected, ← k.low_get_place i hop, hsize]
    exact hc'
  cases op with
  | div =>
    intro hmode hr hd hq
    rw [← toNat_dividend_dword] at hq
    obtain ⟨c', hc'⟩ := @exists_div ρ 32 (dividendHalves .dword) (low .dword (c.gpr rax)) c hd hq
    exact hdword rax hmode hr c' hc' hmode hr hd (by rw [← toNat_dividend_dword]; exact hq)
  | idiv =>
    intro hmode hr hedx hlt
    have hs : (low .dword (c.gpr rdx)).toInt = -1 := by
      rw [toInt_dword, if_neg (by omega)]
      omega
    have hne : (low .dword (c.gpr rdx)).toInt ≠ 0 := by
      rw [hs]
      decide
    have hq : X86.InRange 32 ((dividend 32 (dividendHalves .dword) c).toInt.tdiv
        (low .dword (c.gpr rdx)).toInt) := by
      have he : (low .dword (c.gpr rax)).toNat < 2 ^ 32 := (low .dword (c.gpr rax)).isLt
      rw [toInt_dividend_dword, hs, Int.tdiv_neg, Int.tdiv_one]
      constructor <;> omega
    obtain ⟨c', hc'⟩ := @exists_idiv ρ 32 (dividendHalves .dword) (low .dword (c.gpr rdx)) c hne hq
    exact hdword rdx hmode hr c' hc' hmode hr hedx hlt

end

/-- A division that does not fault leaves the quotient and the remainder where the processor does,
and the short way for quadwords agrees with the helpers, except in 32-bit mode for a division by the
half of its own dividend that has been overwritten when it is needed. -/
theorem divide_iff (op : DivOp) (s : State ρ) (hop : i.op0.Place) (hz : k.mode32 → Zext s.core) :
    (Divides k i op s ∧ FastAgrees k op (k.get i i.op0 s.core) s.core) ↔ op.Right k i s.core := by
  have hagrees : FastAgrees k op (k.get i i.op0 s.core) s.core := fun hsign hfit c' hc' ↦
    fast_eq_helper hsign hfit hc'
  rw [and_iff_left hagrees, divides_iff]
  refine ⟨right_of_core hz hop, fun hright c' hc' ↦ ?_⟩
  rw [DivOp.expected, value_eq hop] at hc'
  cases hsize : i.op0.size with
  | byte =>
    rw [hsize] at hc'
    exact core_byte hz hop (.inl hsize) hc'
  | byteHigh =>
    rw [hsize] at hc'
    exact core_byte hz hop (.inr hsize) hc'
  | word =>
    rw [hsize] at hc'
    exact core_word hz hop hsize hc'
  | dword =>
    rw [hsize] at hc'
    exact (core_dword_iff hz hop hsize hc').mpr hright
  | qword =>
    rw [hsize] at hc'
    exact core_qword hsize hc'

/-- A division by a 32-bit register. -/
def divideBy (m : Mnemonic Unit) (r : Ref) : Insn :=
  (m.on .dword (.reg r .dword) (.imm 0 .byte)).insn

/-- The dividend `0x1c0000000` in `EDX` and `EAX`. -/
def dividedByEax : State Unit := (State.withReg rax 0xc0000000).map fun c ↦ c.write rdx 1

theorem zext_dividedByEax : Zext dividedByEax.core := by
  intro r
  by_cases hrdx : r = rdx
  · subst hrdx
    decide
  · by_cases hrax : r = rax
    · subst hrax
      decide
    · have hzero : dividedByEax.core.gpr r = 0 := by
        refine (Core.gpr_write _ rdx r 1).trans ?_
        rw [if_neg hrdx]
        refine (Core.gpr_write _ rax r _).trans ?_
        rw [if_neg hrax]
        rfl
      rw [hzero]
      decide

/-- The same dividend, and a divisor in `ECX`. -/
def dividedByEcx : State Unit := dividedByEax.map fun c ↦ c.write rcx 7

theorem zext_dividedByEcx : Zext dividedByEcx.core := by
  intro r
  rw [dividedByEcx, State.core_map, Core.gpr_write]
  split
  · decide
  · exact zext_dividedByEax r

/-- In 32-bit mode the quotient and the remainder of `0x1c0000000` by `7` are right. -/
theorem divide_iff_rcx :
    (Divides (.default true) (divideBy .div rcx) .div dividedByEcx ∧
      FastAgrees (.default true) .div
        ((Config.default true).get (divideBy .div rcx) (divideBy .div rcx).op0 dividedByEcx.core)
        dividedByEcx.core) ↔
      DivOp.Right (.default true) (divideBy .div rcx) .div dividedByEcx.core :=
  divide_iff (.default true) (divideBy .div rcx) .div dividedByEcx trivial
    fun _ ↦ zext_dividedByEcx

/-- Divided by `EAX` it has the quotient `2`, and the remainder is taken modulo that. -/
theorem not_divides_eax :
    ¬ Divides (.default true) (divideBy .div rax) .div dividedByEax := by
  rw [divides_iff]
  intro h
  have hplace : (divideBy .div rax).op0.Place := trivial
  have hright := right_of_core (fun _ ↦ zext_dividedByEax) hplace h
  have hlt := hright rfl rfl (by decide) (by decide)
  revert hlt
  decide

end Jit

end Felix86
