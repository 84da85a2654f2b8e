import Felix86.V2.Recompiler

/-!
# Handlers of addition, subtraction and logic

`e` is `shouldEmitFlag` at the instruction. Where no flag is needed several handlers take a shorter
path that works on the guest's register directly.
-/

namespace Felix86

namespace Jit

open Riscv

variable {ρ : Type*} (k : Config) (i : Insn) (e : Flag → Bool)

/-! ## Atomic instructions -/

/-- The register an atomic instruction loads: the old value, sign extended. -/
def amoLoaded (size : Size) (old : U64) : U64 :=
  match size with
  | .byte => Riscv.sextb old
  | .byteHigh => Riscv.sextb old
  | .word => Riscv.sexth old
  | .dword => sextw old
  | .qword => old

/-- An atomic read, modify and write. -/
def amo (op : U64 → U64 → U64) (size : Size) (a src : U64) (c : Core ρ) : U64 × Core ρ :=
  let old := c.mem.load a size.bytes
  (amoLoaded size old, Config.writeMemory a (op old src) size c)

/-- An operation on part of an aligned word, in a loop of `LR.W` and `SC.W`. `shifted` is the source
moved to its place in the word; the old word and the new core come back. -/
def lrsc (op : U64 → U64 → U64) (ones a shifted : U64) (c : Core ρ) : U64 × Core ρ :=
  let masked := a &&& ~~~(3 : U64)
  let mask := sllw ones (a <<< 3)
  let old := sextw (c.mem.load masked 4)
  let result := ((op old shifted ^^^ old) &&& mask) ^^^ old
  (old, Config.writeMemory masked result .dword c)

/-- The atomic part of `ADD`. Without `Zabha` the old byte or halfword is shifted down by the
shifted source, because `address` has been overwritten with it; a halfword that crosses an aligned
word is a breakpoint. -/
def lockedAdd (src : U64) (c : Core ρ) : Option (U64 × Core ρ) :=
  match i.op0 with
  | .mem m size =>
    let a := k.lea i m true c
    match size with
    | .byte | .byteHigh =>
      if k.zabha then some (amo (· + ·) .byte a src c)
      else
        let shifted := sllw src (a <<< 3)
        let (old, c) := lrsc (· + ·) 0xff a shifted c
        some (srlw old shifted &&& 0xff, c)
    | .word =>
      if k.zabha then some (amo (· + ·) .word a src c)
      else if a &&& 3 = 3 then none
      else
        let shifted := sllw src (a <<< 3)
        let (old, c) := lrsc (· + ·) 0xffff a shifted c
        some (k.sexth (srlw old shifted), c)
    | .dword => some (amo (· + ·) .dword a src c)
    | .qword => some (amo (· + ·) .qword a src c)
  | _ => none

/-- `needs_atomic && !too_small_for_atomic`, with the operand. -/
def atomicOperand : Option (MemOperand × Size) :=
  match i.op0 with
  | .mem m .dword => if i.lock then some (m, .dword) else none
  | .mem m .qword => if i.lock then some (m, .qword) else none
  | _ => none

/-! ## Without flags -/

def Operand.isHigh : Operand → Bool
  | .reg _ .byteHigh => true
  | _ => false

/-- The register after `OP_noflags_destreg`: the operands are moved to the top of the word, so that
what leaves the operand is lost. -/
def opNoflagsValue (func64 func32 : U64 → U64 → U64) (width : Size) (dstHigh srcHigh : Bool)
    (dst src : U64) : U64 :=
  let temp := if srcHigh then (src >>> 8) <<< 56 else src <<< 56
  match width with
  | .byte | .byteHigh =>
    if dstHigh then rori (func64 (rori dst 16) temp) 48 else rori (func64 (rori dst 8) temp) 56
  | .word => rori (func64 (rori dst 16) (src <<< 48)) 48
  | .dword => k.zext .dword (func32 dst src)
  | .qword => func64 dst src

/-- `OP_noflags_destreg`. -/
def opNoflagsDestreg (func64 func32 : U64 → U64 → U64) (s : State ρ) : State ρ :=
  match i.op0 with
  | .reg r _ =>
    let src := k.getWhole i i.op1 s.core
    s.map fun c ↦ c.write r
      (opNoflagsValue k func64 func32 i.width i.op0.isHigh i.op1.isHigh (c.gpr r) src)
  | _ => s

/-! ## Handlers -/

/-- `SetCmpFlags`. -/
def setCmpFlags (dst src result : U64) (size : Size) (zextSrc always : Bool) (s : State ρ) :
    State ρ :=
  let e := fun f ↦ always || e f
  let test := if zextSrc then k.zext size src else src
  s.emit e .cf (Config.updateCarrySub dst test)
    |>.emit e .pf (k.updateParity result)
    |>.emit e .af (Config.updateAuxiliarySub dst src)
    |>.emit e .zf (k.updateZero result size)
    |>.emit e .sf (Config.updateSign result size)
    |>.emit e .of (Config.updateOverflowSub dst src result size)

/-- The flags of `ADD` and `XADD`, which differ in what they compare for `AF`. -/
def setAddFlags (dst src result aux : U64) (size : Size) (s : State ρ) : State ρ :=
  s.emit e .cf (k.updateCarryAdd dst result size)
    |>.emit e .pf (k.updateParity result)
    |>.emit e .af (Config.updateAuxiliaryAdd dst aux)
    |>.emit e .zf (k.updateZero result size)
    |>.emit e .sf (Config.updateSign result size)
    |>.emit e .of (Config.updateOverflowAdd dst src result size)

/-- The flags of `OR`, `XOR` and `AND`. -/
def setLogicFlags (result : U64) (size : Size) (s : State ρ) : State ρ :=
  s.emit e .cf 0
    |>.emit e .pf (k.updateParity result)
    |>.emit e .zf (k.updateZero result size)
    |>.emit e .sf (Config.updateSign result size)
    |>.emit e .of 0

@[simp] theorem core_setCmpFlags (dst src result : U64) (size : Size) (zextSrc always : Bool)
    (s : State ρ) : (setCmpFlags k e dst src result size zextSrc always s).core = s.core := by
  simp [setCmpFlags]

@[simp] theorem core_setAddFlags (dst src result aux : U64) (size : Size) (s : State ρ) :
    (setAddFlags k e dst src result aux size s).core = s.core := by
  simp [setAddFlags]

@[simp] theorem core_setLogicFlags (result : U64) (size : Size) (s : State ρ) :
    (setLogicFlags k e result size s).core = s.core := by
  simp [setLogicFlags]

def needsAny : Bool := e .cf || e .of || e .pf || e .sf || e .zf || e .af

def needsAnyButAf : Bool := e .cf || e .of || e .pf || e .sf || e .zf

def fastAdd (s : State ρ) : Option (State ρ) :=
  if k.b && k.noflagOpts && !needsAny e && i.op0.isReg then
    some (opNoflagsDestreg k i (· + ·) addw s)
  else
    let src := k.get i i.op1 s.core
    if i.op0.isMem && i.lock then
      (lockedAdd k i src s.core).map fun (dst, c) ↦
        setAddFlags k e dst src (dst + src) (dst + src) i.op0.size { s with core := c }
    else
      let dst := k.get i i.op0 s.core
      let result := dst + src
      some ((setAddFlags k e dst src result result i.op0.size s).map (k.set i i.op0 result))

/-- An immediate source is sign extended and is compared zero extended. -/
def zextSrc (size : Size) : Bool := i.op1.isImm && size ≠ .qword

def fastSub (s : State ρ) : State ρ :=
  if k.b && k.noflagOpts && !needsAny e && i.op0.isReg then
    opNoflagsDestreg k i (· - ·) subw s
  else
    let src := k.get i i.op1 s.core
    let size := i.op0.size
    match atomicOperand i with
    | some (m, width) =>
      let (dst, c) := amo (· + ·) width (k.lea i m true s.core) (-src) s.core
      setCmpFlags k e dst src (dst - src) size (zextSrc i size) false { s with core := c }
    | none =>
      let dst := k.get i i.op0 s.core
      let result := dst - src
      (setCmpFlags k e dst src result size (zextSrc i size) false s).map (k.set i i.op0 result)

/-- `getSignMask`. -/
def getSignMask (size : Size) : U64 := 1 <<< (size.bits - 1)

def sbbOverflow (dst src result cf result2 : U64) (size : Size) : U64 :=
  snez (((dst ^^^ result) &&& (dst ^^^ src)) &&& getSignMask size) |||
    snez (((result ^^^ cf) &&& (result ^^^ result2)) &&& getSignMask size)

def fastSbb (s : State ρ) : State ρ :=
  let src := k.get i i.op1 s.core
  let dst := k.get i i.op0 s.core
  let cf := s.flag .cf
  let size := i.op0.size
  let result := dst - src
  let result2 := result - cf
  let test := if zextSrc i size then k.zext size src else src
  let s := s.emit e .pf (k.updateParity result2)
    |>.emit e .af (Config.updateAuxiliarySbb dst src result cf)
    |>.emit e .of (sbbOverflow dst src result cf result2 size)
    |>.emit e .cf (sltu dst test ||| sltu (k.zext size result) cf)
    |>.emit e .zf (k.updateZero result2 size)
    |>.emit e .sf (Config.updateSign result2 size)
  s.map (k.set i i.op0 result2)

def fastAdc (s : State ρ) : State ρ :=
  let src := k.get i i.op1 s.core
  let dst := k.get i i.op0 s.core
  let cf := s.flag .cf
  let size := i.op0.size
  let result := dst + src
  let result2 := result + cf
  let s := s.emit e .pf (k.updateParity result2)
    |>.emit e .af (Config.updateAuxiliaryAdc dst result cf result2)
    |>.emit e .of (Config.updateOverflowAdd dst src result2 size)
    |>.emit e .cf (k.updateCarryAdc dst result result2 cf size)
    |>.emit e .zf (k.updateZero result2 size)
    |>.emit e .sf (Config.updateSign result2 size)
  s.map (k.set i i.op0 result2)

def fastCmp (s : State ρ) : State ρ :=
  if !needsAny e then s
  else
    let src := k.get i i.op1 s.core
    let dst := k.get i i.op0 s.core
    let size := i.op0.size
    setCmpFlags k e dst src (dst - src) size (zextSrc i size) false s

/-- The general path of `OR`, `XOR` and `AND`. -/
def logic (op : U64 → U64 → U64) (s : State ρ) : State ρ :=
  let src := k.get i i.op1 s.core
  match atomicOperand i with
  | some (m, width) =>
    let (dst, c) := amo op width (k.lea i m true s.core) src s.core
    setLogicFlags k e (op dst src) i.op0.size { s with core := c }
  | none =>
    let result := op (k.get i i.op0 s.core) src
    (setLogicFlags k e result i.op0.size s).map (k.set i i.op0 result)

def fastOr (s : State ρ) : State ρ :=
  if k.b && k.noflagOpts && !needsAnyButAf e && i.op0.isReg then
    opNoflagsDestreg k i (· ||| ·) (· ||| ·) s
  else logic k i e (· ||| ·) s

/-- The register that a 32-bit or 64-bit `xor` of a register with itself sets to zero. -/
def zeroIdiom : Option Ref :=
  match i.op0, i.op1 with
  | .reg r size, .reg r' size' =>
    if r = r' ∧ size = size' ∧ (size = .dword ∨ size = .qword) then some r else none
  | _, _ => none

def fastXor (s : State ρ) : State ρ :=
  match zeroIdiom i with
  | some r =>
    (s.map fun c ↦ k.setRef r .qword 0 c)
      |>.emit e .cf 0
      |>.emit e .pf 1
      |>.emit e .zf 1
      |>.emit e .sf 0
      |>.emit e .of 0
  | none =>
    if k.b && k.noflagOpts && !needsAnyButAf e && i.op0.isReg then
      opNoflagsDestreg k i (· ^^^ ·) (· ^^^ ·) s
    else logic k i e (· ^^^ ·) s

def fastAnd (s : State ρ) : State ρ := logic k i e (· &&& ·) s

/-- `TEST` asks for `OF` to decide about `CF` and for `CF` to decide about `OF`. -/
def fastTest (s : State ρ) : State ρ :=
  let needsCf := e .of
  let needsOf := e .cf
  if !(e .pf || e .sf || e .zf || needsCf || needsOf) then s
  else
    let src := k.get i i.op1 s.core
    let dst := k.get i i.op0 s.core
    let result := dst &&& src
    let size := i.op0.size
    s.emit (fun _ ↦ needsCf) .cf 0
      |>.emit e .pf (k.updateParity result)
      |>.emit e .zf (k.updateZero result size)
      |>.emit e .sf (Config.updateSign result size)
      |>.emit (fun _ ↦ needsOf) .of 0

/-- `INC` adds `1` and `DEC` adds `-1`; `af` and `of` are how they compute these flags. -/
def incDec (step : U64) (af : U64 → U64 → U64) (of : U64 → U64 → Size → U64) (s : State ρ) :
    State ρ :=
  let size := i.op0.size
  let flags (dst res : U64) (s : State ρ) : State ρ :=
    s.emit e .af (af dst res)
      |>.emit e .of (of dst res size)
      |>.emit e .pf (k.updateParity res)
      |>.emit e .zf (k.updateZero res size)
      |>.emit e .sf (Config.updateSign res size)
  match atomicOperand i with
  | some (m, width) =>
    let (dst, c) := amo (· + ·) width (k.lea i m true s.core) step s.core
    flags dst (dst + step) { s with core := c }
  | none =>
    let dst := k.get i i.op0 s.core
    (flags dst (dst + step) s).map (k.set i i.op0 (dst + step))

def fastInc (s : State ρ) : State ρ :=
  incDec k i e 1 Config.updateAuxiliaryAdd (fun dst res ↦ Config.updateOverflowAdd dst 1 res) s

def fastDec (s : State ρ) : State ρ :=
  incDec k i e (-1) (fun dst _ ↦ Config.updateAuxiliarySub dst 1)
    (fun dst res ↦ Config.updateOverflowSub dst 1 res) s

def fastNot (s : State ρ) : State ρ := s.map fun c ↦ k.set i i.op0 (~~~(k.get i i.op0 c)) c

def fastNeg (s : State ρ) : State ρ :=
  let size := i.op0.size
  let dst := k.get i i.op0 s.core
  let result := match size with
    | .byte | .byteHigh => -(k.sextb dst)
    | .word => -(k.sexth dst)
    | .dword => subw 0 dst
    | .qword => -dst
  let s := s.emit e .cf (snez dst)
    |>.emit e .zf (k.updateZero result size)
    |>.emit e .of (Config.updateOverflowSub 0 dst result size)
    |>.emit e .sf (Config.updateSign result size)
    |>.emit e .af (snez (dst &&& 0xf))
    |>.emit e .pf (k.updateParity result)
  s.map (k.set i i.op0 result)

end Jit

end Felix86
