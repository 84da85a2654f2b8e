import Felix86.V2.Recompiler

/-!
# Handlers of multiplication, division and bit scans

The one operand forms write `RAX` and `RDX`, which in 32-bit mode are also the registers a 32-bit
operand is read from. So a register that a handler holds is `Host`: either the guest's register,
where a write shows up in every later read, or a scratch register with a value of its own.
-/

namespace Felix86

namespace Jit

open Riscv

variable {ρ : Type*} (k : Config) (i : Insn) (e : Flag → Bool)

inductive Host
  | live (r : Ref)
  | scratch (v : U64)
deriving DecidableEq, Repr

def Host.val {ρ : Type*} (h : Host) (c : Core ρ) : U64 :=
  match h with
  | .live r => c.gpr r
  | .scratch v => v

/-- A write to a register a handler holds. -/
def Host.put {ρ : Type*} (h : Host) (v : U64) (c : Core ρ) : Host × Core ρ :=
  match h with
  | .live r => (.live r, c.write r v)
  | .scratch _ => (.scratch v, c)

/-- The register that `getGPR(ref, size)` returns. -/
def Config.hostRef (r : Ref) (size : Size) (c : Core ρ) : Host :=
  match size with
  | .dword => if k.mode32 then .live r else .scratch (k.getRef r .dword c)
  | .qword => .live r
  | size => .scratch (k.getRef r size c)

/-- The register that `getGPR(operand)` returns. -/
def Config.host (op : Operand) (c : Core ρ) : Host :=
  match op with
  | .reg r size => k.hostRef r size c
  | op => .scratch (k.get i op c)

/-! ## Multiplication -/

/-- `CF` and `OF` of a product, if either is needed. -/
def setMulFlags (v : U64) (s : State ρ) : State ρ :=
  if e .cf || e .of then s.setFlag .cf v |>.setFlag .of v else s

@[simp] theorem core_setMulFlags (v : U64) (s : State ρ) : (setMulFlags e v s).core = s.core := by
  rw [setMulFlags]
  split <;> rfl

/-- `IMUL` with one operand. A byte source is not sign extended. -/
def imul1 (s : State ρ) : State ρ :=
  let c := s.core
  let src := k.get i i.op0 c
  match i.op0.size with
  | .byte | .byteHigh =>
    let result := mulw (k.sextb (k.getRef rax .byte c)) src
    (setMulFlags e (snez (k.sextb result ^^^ result)) s).map (k.setRef rax .word result)
  | .word =>
    let result := mulw (k.sexth (k.getRef rax .word c)) (k.sexth src)
    (setMulFlags e (snez (k.sexth result ^^^ result)) s).map fun c ↦
      k.setRef rdx .word (sraiw result 16) (k.setRef rax .word result c)
  | .dword =>
    let result := sextw (k.getRef rax .dword c) * sextw src
    (setMulFlags e (snez (sextw result ^^^ result)) s).map fun c ↦
      k.setRef rdx .dword (result >>> 32) (k.setRef rax .dword result c)
  | .qword =>
    let low := c.gpr rax * src
    let high := mulh (c.gpr rax) src
    (setMulFlags e (snez (low.sshiftRight 63 ^^^ high)) s).map fun c ↦
      k.setRef rdx .qword high (k.setRef rax .qword low c)

/-- The sources of `IMUL` with two or three operands. -/
def imulSources (three : Bool) : Operand × Operand :=
  if three then (i.op1, i.op2) else (i.op0, i.op1)

/-- `IMUL_2_noflags` and `IMUL_3_noflags`. Only the first extends both sources of a 16-bit
product. -/
def imulNoflags (three : Bool) (s : State ρ) : State ρ :=
  let src1 := k.getWhole i (imulSources i three).1 s.core
  let src2 :=
    if three then k.get i i.op2 s.core else k.getWhole i i.op1 s.core
  let result := match i.op0.size with
    | .word => mulw (k.sexth src1) (if three then src2 else k.sexth src2)
    | .dword => mulw src1 src2
    | _ => src1 * src2
  s.map (k.set i i.op0 result)

/-- The product of `IMUL` with two or three operands, and a value that is zero if it fits. -/
def imulProduct (size : Size) (src1 src2 : U64) : U64 × U64 :=
  match size with
  | .word =>
    let result := mulw (k.sexth src2) (k.sexth src1)
    (result, k.sexth result ^^^ result)
  | .dword =>
    let result := sextw src2 * sextw src1
    (result, sextw result ^^^ result)
  | _ =>
    let result := src1 * src2
    (result, result.sshiftRight 63 ^^^ mulh src1 src2)

/-- `IMUL` with two or three operands, which writes both flags when one is needed. -/
def imul23 (three : Bool) (s : State ρ) : State ρ :=
  if k.noflagOpts && !e .cf && !e .of then imulNoflags k i three s
  else
    let src1 := k.get i (imulSources i three).1 s.core
    let src2 := k.get i (imulSources i three).2 s.core
    let (result, wide) := imulProduct k i.op0.size src1 src2
    (s.setFlag .cf (snez wide) |>.setFlag .of (snez wide)).map (k.set i i.op0 result)

/-- `IMUL`, by the number of its operands. -/
def fastImul (opcount : ℕ) (s : State ρ) : State ρ :=
  if opcount = 1 then imul1 k i e s else imul23 k i e (opcount = 3) s

def fastMul (s : State ρ) : State ρ :=
  let c := s.core
  let src := k.get i i.op0 c
  match i.op0.size with
  | .byte | .byteHigh =>
    let result := mulw (k.getRef rax .byte c) src
    (setMulFlags e (snez (result >>> 8)) s).map (k.setRef rax .word result)
  | .word =>
    let result := mulw (k.getRef rax .word c) src
    let high := srliw result 16
    (setMulFlags e (snez high) s).map fun c ↦
      k.setRef rdx .word high (k.setRef rax .word result c)
  | .dword =>
    let result := k.getRef rax .dword c * src
    let high := result >>> 32
    (setMulFlags e (snez high) s).map fun c ↦
      k.setRef rdx .dword high (k.setRef rax .dword result c)
  | .qword =>
    let low := c.gpr rax * src
    let high := mulhu (c.gpr rax) src
    (setMulFlags e (snez high) s).map fun c ↦
      k.setRef rdx .qword high (k.setRef rax .qword low c)

/-! ## Division -/

/-- One digit of the long division: the estimate of a quotient digit, corrected. -/
def divDigit (num den1 den0 den next : U64) : U64 :=
  let qhat := num / den1
  let rhat := num % den1
  let c1 := qhat * den0
  let c2 := (rhat <<< 32) + next
  let qhat := if c2 < c1 then qhat - (if den < c1 - c2 then 2 else 1) else qhat
  zextw qhat

/-- `libdivide_128_div_64_to_64`: the quotient and the remainder. -/
def libdivide128Div64To64 (numhi numlo den : U64) : U64 × U64 :=
  if den ≤ numhi then (BitVec.allOnes 64, BitVec.allOnes 64)
  else
    let shift := den.clz.toNat
    let den := den <<< shift
    let numhi := (numhi <<< shift) ||| (if shift = 0 then 0 else numlo >>> (64 - shift))
    let numlo := numlo <<< shift
    let num1 := numlo >>> 32
    let num0 := zextw numlo
    let den1 := den >>> 32
    let den0 := zextw den
    let q1 := divDigit numhi den1 den0 den num1
    let rem := (numhi <<< 32) + num1 - q1 * den
    let q0 := divDigit rem den1 den0 den num0
    ((q1 <<< 32) ||| q0, ((rem <<< 32) + num0 - q0 * den) >>> shift)

/-- `felix86_divu128`, which asserts that the divisor is not zero. -/
def felix86Divu128 (divisor : U64) (c : Core ρ) : Option (Core ρ) :=
  if divisor = 0 then none
  else
    let (quotient, remainder) := libdivide128Div64To64 (c.gpr rdx) (c.gpr rax) divisor
    some ((c.write rax quotient).write rdx remainder)

/-- `felix86_div128`. -/
def felix86Div128 (divisor : U64) (c : Core ρ) : Option (Core ρ) :=
  if divisor = 0 then none
  else
    let dividend : BitVec 128 := c.gpr rdx ++ c.gpr rax
    let quotient := (dividend.sdiv (divisor.signExtend 128)).setWidth 64
    let remainder := (dividend.srem (divisor.signExtend 128)).setWidth 64
    some ((c.write rax quotient).write rdx remainder)

/-- The 32-bit division, on `RAX` and `RDX` themselves in 32-bit mode; `ext` is what the divisor
goes through before the division. -/
def divDword (quotient remainder : U64 → U64 → U64) (ext : Option (U64 → U64)) (c : Core ρ) :
    Core ρ :=
  let src := k.host i i.op0 c
  let eax := k.hostRef rax .dword c
  let c := c.write rdx (c.gpr rdx <<< 32)
  let c := c.write rdx (c.gpr rdx ||| eax.val c)
  let src := match ext with
    | some f => Host.scratch (f (src.val c))
    | none => src
  let (eax, c) := eax.put (quotient (c.gpr rdx) (src.val c)) c
  let c := c.write rdx (remainder (c.gpr rdx) (src.val c))
  let c := k.setRef rax .dword (eax.val c) c
  k.setRef rdx .dword (c.gpr rdx) c

/-- The 64-bit division: one instruction if `RDX` is the sign extension of `RAX`, and else a
call. -/
def divQword (quotient remainder : U64 → U64 → U64) (slow : U64 → Core ρ → Option (Core ρ))
    (c : Core ρ) : Option (Core ρ) :=
  let src := k.get i i.op0 c
  if (c.gpr rax).sshiftRight 63 = c.gpr rdx then
    let div := quotient (c.gpr rax) src
    let mod := remainder (c.gpr rax) src
    some (k.setRef rdx .qword mod (k.setRef rax .qword div c))
  else slow src c

def divCore (c : Core ρ) : Option (Core ρ) :=
  let src := k.get i i.op0 c
  match i.op0.size with
  | .byte | .byteHigh =>
    let ax := k.getRef rax .word c
    some (k.setRef rax .byteHigh (remuw ax src) (k.setRef rax .byte (divuw ax src) c))
  | .word =>
    let dx := slliw (k.getRef rdx .word c) 16 ||| k.getRef rax .word c
    some (k.setRef rdx .word (remuw dx src) (k.setRef rax .word (divuw dx src) c))
  | .dword => some (divDword k i divu remu none c)
  | .qword => divQword k i divu remu felix86Divu128 c

def idivCore (c : Core ρ) : Option (Core ρ) :=
  let src := k.get i i.op0 c
  match i.op0.size with
  | .byte | .byteHigh =>
    let ax := k.sexth (k.getRef rax .word c)
    let divisor := k.sextb src
    some (k.setRef rax .byteHigh (remw ax divisor) (k.setRef rax .byte (divw ax divisor) c))
  | .word =>
    let dx := slliw (k.getRef rdx .word c) 16 ||| k.getRef rax .word c
    let divisor := k.sexth src
    some (k.setRef rdx .word (remw dx divisor) (k.setRef rax .word (divw dx divisor) c))
  | .dword => some (divDword k i div rem (some sextw) c)
  | .qword => divQword k i div rem felix86Div128 c

/-- The division is a call. -/
def divCalls (c : Core ρ) : Bool :=
  i.op0.size = .qword && (c.gpr rax).sshiftRight 63 ≠ c.gpr rdx

/-- `DIV` and `IDIV` leave the flags alone. -/
def divide (value : Core ρ → Option (Core ρ)) (s : State ρ) : Option (State ρ) :=
  (value s.core).map fun c ↦
    { (if divCalls i s.core then s.throughThreadState else s) with core := c }

def fastDiv (s : State ρ) : Option (State ρ) := divide i (divCore k i) s

def fastIdiv (s : State ρ) : Option (State ρ) := divide i (idivCore k i) s

/-! ## Bits -/

/-- The loop of `CTZ` without the bit manipulation extension. The source is not zero, so it ends
within 64 rounds. -/
def ctzLoop (src : U64) : ℕ → U64 → U64
  | 0, result => result
  | n + 1, result => if srl src result &&& 1 = 0 then ctzLoop src n (result + 1) else result

def countTrailing (src : U64) : U64 := if k.b then ctz src else ctzLoop src 64 0

/-- The loop of `BSR`, downwards. -/
def bsrLoop (src : U64) : ℕ → U64 → U64
  | 0, result => result
  | n + 1, result => if srl src result &&& 1 = 0 then bsrLoop src n (result - 1) else result

def bsrValue (src : U64) (width : Size) : U64 :=
  if k.b then
    match width with
    | .qword => clz src ^^^ 63
    | .dword => clzw src ^^^ 31
    | _ => clzw (src <<< 16) ^^^ 15
  else bsrLoop src 64 (BitVec.ofNat 64 (width.bits - 1))

/-- A bit scan leaves the destination alone when the source is zero. -/
def bitScan (value : U64 → U64) (s : State ρ) : State ρ :=
  let src := k.get i i.op1 s.core
  let s := s.setFlag .zf (seqz src)
  if src = 0 then s else s.map (k.set i i.op0 (value src))

def fastBsf (s : State ρ) : State ρ := bitScan k i (countTrailing k) s

def fastBsr (s : State ρ) : State ρ := bitScan k i (fun src ↦ bsrValue k src i.width) s

def fastTzcnt (s : State ρ) : State ρ :=
  let src := k.get i i.op1 s.core
  let result := if src = 0 then BitVec.ofNat 64 i.width.bits else countTrailing k src
  (s.setFlag .cf (seqz src) |>.setFlag .zf (seqz result)).map (k.set i i.op0 result)

/-- The byte that `felix86_bt` and its relatives access. -/
def bitStringAddress (a offset : U64) : U64 :=
  a + offset.sshiftRight 3 - (if offset.msb && (offset &&& 7) ≠ 0 then 1 else 0)

/-- `BITSTRING_func`: the bit of a string in memory. `update` is what the helper does to the byte,
for the mask of the bit. -/
def bitString (m : MemOperand) (update : BitVec 8 → BitVec 8 → BitVec 8) (s : State ρ) : State ρ :=
  let c := s.core
  let offset := k.sext i.op1.size (k.get i i.op1 c)
  let a := bitStringAddress (k.lea i m true c) offset
  let bit := (offset &&& 7).toNat
  let old := c.mem a
  let core := { c with mem := Function.update c.mem a (update old (1 <<< bit)) }
  State.setFlag { s.throughThreadState with core := core } .cf (((old >>> bit) &&& 1).setWidth 64)

/-- `BT` and its relatives on a register or with an immediate offset. `BTS` looks whether the flag
is needed, the others do not. -/
def bitTest (emitsCf : Bool) (update : Option (U64 → U64 → U64)) (s : State ρ) : State ρ :=
  let dst := k.get i i.op0 s.core
  let shift := k.get i i.op1 s.core &&& BitVec.ofNat 64 (i.op0.size.bits - 1)
  let s := s.emit (fun _ ↦ emitsCf) .cf (srl dst shift &&& 1)
  match update with
  | some f => s.map (k.set i i.op0 (f dst (sll 1 shift)))
  | none => s

def bitInstruction (emitsCf : Bool) (update : Option (U64 → U64 → U64))
    (updateByte : BitVec 8 → BitVec 8 → BitVec 8) (s : State ρ) : State ρ :=
  match i.op0, i.op1 with
  | .mem m _, .reg _ _ => bitString k i m updateByte s
  | _, _ => bitTest k i emitsCf update s

def fastBt (s : State ρ) : State ρ := bitInstruction k i true none (fun old _ ↦ old) s

def fastBtc (s : State ρ) : State ρ :=
  bitInstruction k i true (some (· ^^^ ·)) (· ^^^ ·) s

def fastBts (s : State ρ) : State ρ :=
  bitInstruction k i (e .cf) (some (· ||| ·)) (· ||| ·) s

def fastBtr (s : State ρ) : State ρ :=
  bitInstruction k i true (some fun dst one ↦ dst &&& ~~~one) (fun old one ↦ old &&& ~~~one) s

def fastBlsr (s : State ρ) : State ρ :=
  let src := k.get i i.op1 s.core
  let result := src &&& (src - 1)
  let size := i.op0.size
  let s := s.emit e .cf (seqz src)
    |>.emit e .zf (k.updateZero result size)
    |>.emit e .sf (Config.updateSign result size)
  s.map (k.set i i.op0 result)

/-- `REV8`. The code without the extension is the one a compiler emits for it. -/
def reverseBytes (src : U64) : U64 :=
  if k.b then rev8 src
  else
    let a2 : U64 := 0xff00
    let a5 : U64 := 0xff0000
    let a1 := ((src >>> 40) &&& a2) ||| (src >>> 56)
    let a3 := (srliw (src >>> 8) 24 <<< 24) ||| ((src >>> 24) &&& a5)
    let a4 := (srliw src 24 <<< 32) ||| ((a5 &&& src) <<< 24)
    (src <<< 56) ||| ((a2 &&& src) <<< 40) ||| a4 ||| (a1 ||| a3)

def fastBswap (s : State ρ) : State ρ :=
  s.map fun c ↦
    let result := reverseBytes k (k.get i i.op0 c)
    k.set i i.op0 (if i.op0.size = .dword then result >>> 32 else result) c

end Jit

end Felix86
