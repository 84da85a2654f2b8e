import Felix86.V2.HandlersArith
import Felix86.V2.HandlersMul

/-!
# Handlers of moves, exchanges, the stack, strings and jumps

The handlers that compute no flags, or only those of a comparison. Each is a function from the
guest's state to the guest's state: what the emitted code does to registers, flags and memory, in
the order in which it does it. Where two steps of the code could be in each other's way (a register
that is written and then used for an address, a `RSP` that is moved before the operand is read) the
order is that of the source, since the claims about these handlers are about such cases.

## What a handler reads twice

`lea` is asked for an operand's address once for the read and once for the write. The second time it
may find the register of the first one, or compute the address anew, from registers that have been
written in the meantime (`Config.keepsLea`). `xaddStore` and `popCore` are where this shows.

## Exchanges

A locked exchange is one access here, as if no other thread was there; that the loops of `LR` and
`SC` that are emitted for it are one access among other threads is the subject of `V2.AtomicLoops`.

## Jumps and strings

Jumps end a block; where they go is in `rip`, which holds the block's address until then. A string
instruction is its loop, run on the counter in `RCX`; the loop as emitted code, with the registers
it needs, is in `V2.StringLoops`.
-/

namespace Felix86

namespace Jit

open Riscv

variable {ρ : Type*} (k : Config) (i : Insn) (e : Flag → Bool)

/-! ## Moves -/

/-- `felix86_set_segment`. -/
def felix86SetSegment (value : U64) (seg : Seg) (c : Core ρ) : Core ρ :=
  { c with
    segment := Function.update c.segment seg (value.setWidth 16)
    base := Function.update c.base seg ((c.gdt (value >>> 3)).setWidth 64) }

/-- A register source of `MOV`: the whole register, shifted for a high byte. -/
def movSource (r : Ref) (size : Size) (c : Core ρ) : U64 :=
  if size = .byteHigh then c.gpr r >>> 8 else c.gpr r

def movCore (c : Core ρ) : Core ρ :=
  match i.op0, i.op1 with
  | .seg seg, op => if k.mode32 then felix86SetSegment (k.get i op c) seg c else c
  | op, .seg seg => if k.mode32 then k.set i op ((c.segment seg).setWidth 64) c else c
  | .reg r size, .reg r' size' =>
    if r = r' then k.setRef r size (k.getRef r' size' c) c
    else k.setRef r size (movSource r' size' c) c
  | .mem m size, .reg r size' => k.set i (.mem m size) (movSource r size' c) c
  | .reg r .dword, .mem m _ => c.write r (c.mem.load (k.address i m c) 4)
  | .reg r .qword, .mem m _ => c.write r (c.mem.load (k.address i m c) 8)
  | op, op' => k.set i op (k.get i op' c) c

def Operand.isSeg : Operand → Bool
  | .seg _ => true
  | _ => false

/-- A segment register is set by a call, in 32-bit mode. -/
def segmentCall (g : Core ρ → Core ρ) (s : State ρ) : State ρ :=
  (if k.mode32 && i.op0.isSeg then s.throughThreadState else s).map g

def fastMov (s : State ρ) : State ρ := segmentCall k i (movCore k i) s

def fastMovzx (c : Core ρ) : Core ρ :=
  match i.op0 with
  | .reg r size =>
    let value := match i.op1 with
      | .reg r' .byteHigh => (c.gpr r' >>> 8) &&& 0xff
      | .reg r' size' => k.zext size' (c.gpr r')
      | .mem m size' => c.mem.load (k.lea i m false c) size'.bytes
      | _ => 0
    if size = .word then c.write r (((c.gpr r >>> 16) <<< 16) ||| value) else c.write r value
  | _ => c

def fastMovsx (c : Core ρ) : Core ρ :=
  let src := k.get i i.op1 c
  let result := match i.op1.size with
    | .word => k.sexth src
    | _ => k.sextb src
  k.set i i.op0 result c

def fastMovsxd (c : Core ρ) : Core ρ := k.set i i.op0 (sextw (k.get i i.op1 c)) c

def fastLea (c : Core ρ) : Core ρ :=
  match i.op1 with
  | .mem m _ => k.set i i.op0 (k.lea i m true c) c
  | _ => c

def fastCbw (c : Core ρ) : Core ρ := k.setRef rax .word (k.sextb (k.getRef rax .byte c)) c

/-- `CWDE` extends `RAX` in place first. -/
def fastCwde (c : Core ρ) : Core ρ :=
  let c := c.write rax (k.sexth (c.gpr rax))
  k.setRef rax .dword (c.gpr rax) c

def fastCdqe (c : Core ρ) : Core ρ :=
  let c := c.write rax (sextw (c.gpr rax))
  k.setRef rax .qword (c.gpr rax) c

def fastCwd (c : Core ρ) : Core ρ := k.setRef rdx .word (k.sexth (c.gpr rax) >>> 16) c

def fastCdq (c : Core ρ) : Core ρ :=
  let c := c.write rdx (sraiw (c.gpr rax) 31)
  k.setRef rdx .dword (c.gpr rdx) c

def fastCqo (c : Core ρ) : Core ρ :=
  let c := c.write rdx ((c.gpr rax).sshiftRight 63)
  k.setRef rdx .qword (c.gpr rdx) c

/-! ## Exchanges -/

/-- `XCHG_lock`. A halfword that crosses an aligned word is read and written in two steps. -/
def xchgLock (m : MemOperand) (size : Size) (c : Core ρ) : Core ρ :=
  let a := k.lea i m true c
  let src := k.get i i.op1 c
  let swap (_ new : U64) : U64 := new
  let part (ones : U64) : Core ρ :=
    let (old, c) := lrsc swap ones a (sllw src (a <<< 3)) c
    k.set i i.op1 (srlw old (a <<< 3)) c
  let whole (size : Size) : Core ρ :=
    let (old, c) := amo swap size a src c
    k.set i i.op1 old c
  match size with
  | .byte | .byteHigh => if k.zabha then whole .byte else part 0xff
  | .word =>
    if k.zabha then whole .word
    else if a &&& 3 = 3 then
      k.set i i.op1 (c.mem.load a 2) (Config.writeMemory a src .word c)
    else part 0xffff
  | .dword => whole .dword
  | .qword => whole .qword

def fastXchg (c : Core ρ) : Core ρ :=
  match i.op0 with
  | .mem m size => xchgLock k i m size c
  | op =>
    let src := k.get i i.op1 c
    let dst := k.get i op c
    k.set i op src (k.set i i.op1 dst c)

/-- The write of a sum to memory by `XADD`, after the other operand has been written. -/
def xaddStore (result : U64) (before c : Core ρ) : Core ρ :=
  match i.op0 with
  | .mem m size =>
    let a := if k.keepsLea i m then k.address i m before else k.address i m c
    Config.writeMemory a result size c
  | op => k.set i op result c

/-- `XADD`. `AF` is computed from the source in place of the result. -/
def fastXadd (s : State ρ) : State ρ :=
  match atomicOperand i with
  | some (m, width) =>
    let src := k.get i i.op1 s.core
    let (old, c) := amo (· + ·) width (k.lea i m true s.core) src s.core
    let dst := if width = .dword then k.zext .dword old else old
    let s := setAddFlags k e dst src (dst + src) src i.op0.size { s with core := c }
    match i.op1 with
    | .reg r _ => s.map (k.setRef r .qword dst)
    | _ => s
  | none =>
    let dst := k.get i i.op0 s.core
    let src := k.get i i.op1 s.core
    let result := dst + src
    (setAddFlags k e dst src result src i.op0.size s).map fun c ↦
      xaddStore k i result c (k.set i i.op1 dst c)

/-- Compare and exchange in part of an aligned word: the part that was there, and the core after. -/
def casPart (ones a src rax : U64) (c : Core ρ) : U64 × Core ρ :=
  let masked := a &&& ~~~(3 : U64)
  let mask := sllw ones (a <<< 3)
  let old := sextw (c.mem.load masked 4)
  let new := ((old ^^^ sllw src (a <<< 3)) &&& mask) ^^^ old
  let c := if old &&& mask = sllw rax (a <<< 3) then Config.writeMemory masked new .dword c else c
  (srlw old (a <<< 3) &&& ones, c)

/-- Compare and exchange of a word or a doubleword. -/
def casWhole (a src rax : U64) (size : Size) (c : Core ρ) : U64 × Core ρ :=
  let old := c.mem.load a size.bytes
  (old, if old = rax then Config.writeMemory a src size c else c)

/-- `CMPXCHG_lock`. The parts of a word are compared in the registers of `CF`, `ZF` and `SF`. -/
def cmpxchgLock (m : MemOperand) (s : State ρ) : Option (State ρ) :=
  let c := s.core
  let a := k.lea i m true c
  let src := k.get i i.op1 c
  let size := i.width
  let old := k.getRef rax size c
  let finish (dst : U64) (c : Core ρ) (s : State ρ) : State ρ :=
    let result := old - dst
    let s := setCmpFlags k e old dst result size false false { s with core := c }
    if result = 0 then s else s.map (k.setRef rax size dst)
  match size with
  | .byte | .byteHigh =>
    if k.zacas && k.zabha then none
    else
      let s := s.setFlag .zf (sllw src (a <<< 3)) |>.setFlag .cf (sllw old (a <<< 3))
      let (dst, c) := casPart 0xff a src old c
      some (finish dst c s)
  | .word =>
    if a &&& 3 = 3 then none
    else
      let s := s.setFlag .cf (sllw old (a <<< 3)) |>.setFlag .sf (sllw 0xffff (a <<< 3))
        |>.setFlag .zf (sllw src (a <<< 3))
      let (dst, c) := casPart 0xffff a src old c
      some (finish dst c s)
  | .dword =>
    -- `AMOCAS.W` compares 32 bits, the loop compares the whole register
    let (dst, c) := casWhole a src (if k.zacas then zextw old else old) .dword c
    some (finish dst c s)
  | .qword =>
    let (dst, c) := casWhole a src old .qword c
    some (finish dst c s)

def fastCmpxchg (s : State ρ) : Option (State ρ) :=
  match i.op0 with
  | .mem m _ => cmpxchgLock k i e m s
  | op =>
    let dst := k.get i op s.core
    let src := k.get i i.op1 s.core
    let old := k.getRef rax i.width s.core
    let s := setCmpFlags k e old dst (old - dst) i.width false false s
    some (s.map fun c ↦ if dst = old then k.set i op src c else k.setRef rax i.width dst c)

def fastCmpxchg8b (s : State ρ) : State ρ :=
  match i.op0 with
  | .mem m _ =>
    let c := s.core
    let a := k.lea i m true c
    let temp := c.mem.load a 8
    if temp = (c.gpr rdx <<< 32) ||| c.gpr rax then
      let new := (c.gpr rcx <<< 32) ||| c.gpr rbx
      (s.map (Config.writeMemory a new .qword)).setFlag .zf 1
    else
      (s.setFlag .zf 0).map fun c ↦
        let c := c.write rdx (temp >>> 32)
        let c := k.setRef rax .dword temp c
        k.setRef rdx .dword (c.gpr rdx) c
  | _ => s

def fastCmpxchg16b (s : State ρ) : State ρ :=
  match i.op0 with
  | .mem m _ =>
    let c := s.core
    let a := k.lea i m true c
    let mem0 := c.mem.load a 8
    let mem1 := c.mem.load (a + 8) 8
    let equal := mem0 = c.gpr rax ∧ mem1 = c.gpr rdx
    let write (c : Core ρ) : Core ρ :=
      if equal then
        Config.writeMemory (a + 8) (c.gpr rcx) .qword (Config.writeMemory a (c.gpr rbx) .qword c)
      else c
    (s.setFlag .zf (if equal then 1 else 0)).map fun c ↦
      k.setRef rdx .qword mem1 (k.setRef rax .qword mem0 (write c))
  | _ => s

/-! ## The stack -/

/-- `RSP` after a host instruction has added to it and `setGPR` has written it back. -/
def addRsp (v : U64) (c : Core ρ) : Core ρ :=
  let c := c.write rsp (c.gpr rsp + v)
  k.setRef rsp k.stackWidth (c.gpr rsp) c

def operandBytes (size : Size) : U64 := BitVec.ofNat 64 size.bytes

def fastPush (c : Core ρ) : Core ρ :=
  let src := match i.op0 with
    | .seg seg => (c.segment seg).setWidth 64
    | op => k.get i op c
  let n := operandBytes i.width
  addRsp k (-n) (Config.writeMemory (c.gpr rsp - n) src i.width c)

def popCore (c : Core ρ) : Core ρ :=
  let n := operandBytes i.width
  match i.op0 with
  | .seg seg => addRsp k n (felix86SetSegment (c.mem.load (c.gpr rsp) 2) seg c)
  | op =>
    let result := c.mem.load (c.gpr rsp) i.width.bytes
    let c := k.set i op result c
    match op with
    | .reg r _ => if r = rsp then k.setRef rsp k.stackWidth result c else addRsp k n c
    | _ => addRsp k n c

def fastPop (s : State ρ) : State ρ := segmentCall k i (popCore k i) s

/-- The address a jump or a call with an immediate goes to, from the address of the block. -/
def jumpOffset (displacement start : U64) : U64 :=
  let rip := start + (i.rip - i.guestAddress + i.length + displacement)
  if k.mode32 then k.zext .dword rip else rip

def displacement : U64 :=
  match i.op0 with
  | .imm v .byte => Riscv.sextb v
  | .imm v .word => Riscv.sexth v
  | .imm v .dword => sextw v
  | .imm v _ => v
  | _ => 0

def fastCall (c : Core ρ) : Core ρ :=
  let pushed (v : U64) (c : Core ρ) : Core ρ :=
    Config.writeMemory (c.gpr rsp) v k.stackWidth c
  if i.op0.isImm then
    let ret := c.rip + (i.rip - i.guestAddress + i.length)
    let c' := pushed ret (addRsp k (-k.stackPointerSize) c)
    { c' with rip := jumpOffset k i (displacement i) c.rip }
  else
    let target := k.get i i.op0 c
    let c' := pushed (i.rip + i.length) (addRsp k (-k.stackPointerSize) c)
    { c' with rip := target }

def fastRet (c : Core ρ) : Core ρ :=
  let target := c.mem.load (c.gpr rsp) k.stackWidth.bytes
  let extra := match i.op0 with
    | .imm v _ => v
    | _ => 0
  { addRsp k (k.stackPointerSize + extra) c with rip := target }

def fastLeave (c : Core ρ) : Core ρ :=
  let (frame, c) := (k.hostRef rbp i.width c).put (k.getRef rbp i.width c + k.stackPointerSize) c
  let c := k.setRef rsp i.width (frame.val c) c
  let (frame, c) := frame.put (c.mem.load (frame.val c - k.stackPointerSize) i.width.bytes) c
  k.setRef rbp i.width (frame.val c) c

def fastPushf (s : State ρ) : State ρ :=
  let flags := getFlags s
  s.map fun c ↦
    let c := addRsp k (-k.stackPointerSize) c
    Config.writeMemory (c.gpr rsp) flags k.stackWidth c

/-- `POPFQ` and `POPFD`, which both load 64 bits. -/
def fastPopf (s : State ρ) : State ρ :=
  setFlags (s.core.mem.load (s.core.gpr rsp) 8) (s.map (addRsp k k.stackPointerSize))

/-! ## Jumps and conditions -/

/-- `JCC`. -/
def jcc (cond : U64) (c : Core ρ) : Core ρ :=
  { c with rip := jumpOffset k i (if cond = 0 then 0 else displacement i) c.rip }

def fastJmp (c : Core ρ) : Core ρ :=
  if i.op0.isImm then { c with rip := jumpOffset k i (displacement i) c.rip }
  else { c with rip := k.get i i.op0 c }

/-- `JRCXZ`, `JECXZ` and `JCXZ`. -/
def fastJcxz (size : Size) (c : Core ρ) : Core ρ := jcc k i (seqz (k.getRef rcx size c)) c

/-- `LOOP`, `LOOPE` and `LOOPNE`; `more` is the rest of the condition. -/
def fastLoop (more : U64) (c : Core ρ) : Core ρ :=
  let count := k.getRef rcx i.addressWidth c - 1
  let (count', c) := (k.hostRef rcx i.addressWidth c).put count c
  jcc k i (snez count &&& more) (k.setRef rcx i.addressWidth (count'.val c) c)

/-- `CMOV`. -/
def cmov (cond : U64) (c : Core ρ) : Core ρ :=
  let dst := k.getWhole i i.op0 c
  let src := k.getWhole i i.op1 c
  let result :=
    if k.zicond then czeroNez dst cond ||| czeroEqz src cond
    else if cond = 0 then dst else src
  k.set i i.op0 result c

/-! ## Strings -/

/-- The registers a string instruction works on. -/
structure StringRegs where
  rdi : U64
  rsi : U64
  rcx : U64

/-- How far the pointers move, by the direction flag. -/
def stringStep (c : Core ρ) : U64 :=
  if c.df = 0 then operandBytes i.width else -operandBytes i.width

def stringRegs (c : Core ρ) : StringRegs where
  rdi := k.getRef rdi i.addressWidth c
  rsi := k.getRef rsi i.addressWidth c
  rcx := k.getRef rcx i.addressWidth c

/-- The loop of a string instruction after the count has been found to be positive. The counter goes
down by one in each round, so `rcx` rounds are enough. -/
def repLoop {α : Type*} (body : α → α) (again : α → Bool) : ℕ → α → α
  | 0, x => x
  | n + 1, x =>
    let x := body x
    if again x then repLoop body again n x else x

/-- A string instruction: once, or in a loop. -/
def stringRun {α : Type*} (body count : α → α) (again : α → Bool) (rcx : U64) (x : α) : α :=
  if i.rep = .none then body x
  else if rcx = 0 then x
  else repLoop (fun x ↦ count (body x)) again rcx.toNat x

def StringRegs.decrement (r : StringRegs) : StringRegs := { r with rcx := r.rcx - 1 }

def fastMovs (c : Core ρ) : Core ρ :=
  let step := stringStep i c
  let body (x : StringRegs × Mem) : StringRegs × Mem :=
    let data := x.2.load x.1.rsi i.width.bytes
    ({ x.1 with rdi := x.1.rdi + step, rsi := x.1.rsi + step },
      x.2.store x.1.rdi data i.width.bytes)
  let r := stringRegs k i c
  let (r, mem) := stringRun i body (fun x ↦ (x.1.decrement, x.2)) (fun x ↦ x.1.rcx ≠ 0) r.rcx
    (r, c.mem)
  let c := { c with mem := mem }
  k.setRef rcx i.addressWidth r.rcx (k.setRef rsi i.addressWidth r.rsi
    (k.setRef rdi i.addressWidth r.rdi c))

def fastStos (c : Core ρ) : Core ρ :=
  let step := stringStep i c
  let value := k.getRef rax i.width c
  let body (x : StringRegs × Mem) : StringRegs × Mem :=
    ({ x.1 with rdi := x.1.rdi + step }, x.2.store x.1.rdi value i.width.bytes)
  let r := stringRegs k i c
  let (r, mem) := stringRun i body (fun x ↦ (x.1.decrement, x.2)) (fun x ↦ x.1.rcx ≠ 0) r.rcx
    (r, c.mem)
  let c := { c with mem := mem }
  k.setRef rcx i.addressWidth r.rcx (k.setRef rdi i.addressWidth r.rdi c)

def fastLods (c : Core ρ) : Core ρ :=
  let r := stringRegs k i c
  let loaded := c.mem.load r.rsi i.width.bytes
  k.setRef rsi i.addressWidth (r.rsi + stringStep i c) (k.setRef rax i.width loaded c)

/-- The condition to go on with a repeated comparison: the counter, and `ZF` by the prefix. -/
def compareAgain (x : StringRegs × (Flag → U64)) : Bool :=
  x.1.rcx ≠ 0 && (if i.rep = .repz then x.2 .zf ≠ 0 else x.2 .zf = 0)

/-- The comparison that `CMPS` and `SCAS` repeat, on the registers and the flags. With a prefix all
flags are computed, needed or not. -/
def compareRun (body : StringRegs → U64 × U64 × StringRegs) (s : State ρ) :
    StringRegs × (Flag → U64) :=
  let round (x : StringRegs × (Flag → U64)) : StringRegs × (Flag → U64) :=
    let (lhs, rhs, r) := body x.1
    let s : State ρ := { s with flag := x.2 }
    (r, (setCmpFlags k e lhs rhs (lhs - rhs) i.width false (i.rep ≠ .none) s).flag)
  let r := stringRegs k i s.core
  stringRun i round (fun x ↦ (x.1.decrement, x.2)) (compareAgain i) r.rcx (r, s.flag)

def fastCmps (s : State ρ) : State ρ :=
  let c := s.core
  let step := stringStep i c
  let body (r : StringRegs) : U64 × U64 × StringRegs :=
    (c.mem.load r.rsi i.width.bytes, c.mem.load r.rdi i.width.bytes,
      { r with rdi := r.rdi + step, rsi := r.rsi + step })
  let (r, flag) := compareRun k i e body s
  { core := k.setRef rcx i.addressWidth r.rcx (k.setRef rsi i.addressWidth r.rsi
      (k.setRef rdi i.addressWidth r.rdi c)), flag := flag }

def fastScas (s : State ρ) : State ρ :=
  let c := s.core
  let step := stringStep i c
  let value := k.getRef rax i.width c
  let body (r : StringRegs) : U64 × U64 × StringRegs :=
    (value, c.mem.load r.rdi i.width.bytes, { r with rdi := r.rdi + step })
  let (r, flag) := compareRun k i e body s
  { core := k.setRef rcx i.addressWidth r.rcx (k.setRef rdi i.addressWidth r.rdi c), flag := flag }

end Jit

end Felix86
