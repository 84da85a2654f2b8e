import Felix86.V2.ExtensionB
import Felix86.Lib.Numerals

/-!
# The instructions that are emitted

A handler emits its code through the routines of the recompiler: it reads and writes operands,
extends values and computes the parity. Here are the host instructions each of these routines emits,
and which of them each integer handler calls. What a handler emits besides is in the base set. The
host can run the code if every instruction is in an extension it has.

All the instructions of the bit manipulation extension are emitted under a test for it, except one.
In 32-bit mode `lea` ends with a `ZEXTW`, so on a host without the extension the code of an
instruction is of no use as soon as an address takes more than a register.
-/

namespace Felix86

namespace Jit

open Numerals Riscv

/-- The host instructions that the routines emit. -/
inductive HostOp
  | li | lui | mv | add | addi | addiw | and | andi | or | xor | xori | not
  | slli | srli | srai | slliw | srliw | srl | ld | load | store | bnez | j
  | zexth | zextw | sextb | sexth | rori | roriw | cpopw | ctz | clz | clzw | rev8
  | sh1add | sh2add | sh3add
deriving DecidableEq, Repr

/-- The instructions of the bit manipulation extension. -/
@[simp] def HostOp.inB : HostOp → Bool
  | zexth | zextw | sextb | sexth | rori | roriw | cpopw | ctz | clz | clzw | rev8
  | sh1add | sh2add | sh3add => true
  | _ => false

/-- The host of this configuration has the instruction. -/
def HostOp.AvailableOn (op : HostOp) (k : Config) : Prop := op.inB → k.b

namespace Config

variable (k : Config) (i : Insn)

/-! ## The routines -/

/-- `zext`. The move is left out where the register is in place. -/
def zextCode (size : Size) : List HostOp :=
  match size with
  | .byte | .byteHigh => [.andi]
  | .word => if k.b then [.zexth] else [.slli, .srli]
  | .dword => if k.b then [.zextw] else [.slli, .srli]
  | .qword => [.mv]

def sextbCode : List HostOp := if k.b then [.sextb] else [.slli, .srai]

def sexthCode : List HostOp := if k.b then [.sexth] else [.slli, .srai]

def sextCode (size : Size) : List HostOp :=
  match size with
  | .byte => k.sextbCode
  | .byteHigh => []
  | .word => k.sexthCode
  | .dword => [.addiw]
  | .qword => [.mv]

/-- `getGPR(ref, size)`. -/
def getRefCode (size : Size) : List HostOp :=
  match size with
  | .byte => k.zextCode .byte
  | .byteHigh => .srli :: k.zextCode .byte
  | .word => k.zextCode .word
  | .dword => if k.mode32 then [] else k.zextCode .dword
  | .qword => []

/-- `setGPR(ref, size, reg)`. -/
def setRefCode (size : Size) : List HostOp :=
  match size with
  | .byte => [.andi, .andi, .or]
  | .byteHigh =>
    if k.b then [.andi, .rori, .andi, .or, .rori] else [.li, .slli, .and, .not, .and, .or]
  | .word => (if k.b then [.zexth] else [.slli, .srli]) ++ [.srli, .slli, .or]
  | .dword => if k.b then [.zextw] else [.slli, .srli]
  | .qword => [.mv]

def updateParityCode : List HostOp :=
  (if k.b then [.andi, .cpopw] else [.srli, .xor, .srli, .xor, .srli, .xor]) ++
    [.andi, .xori, .store]

/-- An index times its scale, added to what there is. -/
def scaledCode (shift : Fin 4) : List HostOp :=
  match shift with
  | 0 => [.add]
  | 1 => if k.b then [.sh1add] else [.slli, .add]
  | 2 => if k.b then [.sh2add] else [.slli, .add]
  | 3 => if k.b then [.sh3add] else [.slli, .add]

/-- The base and the index of an operand, as `lea` reads them. -/
def baseCode (m : MemOperand) : List HostOp :=
  match m.base with
  | .reg _ size => k.getRefCode size
  | _ => []

def indexCode (m : MemOperand) : List HostOp :=
  match m.index with
  | some (_, size) => k.getRefCode size
  | none => []

/-- The part of `lea` that adds the displacement, the base and the index. -/
def sumCode (m : MemOperand) : List HostOp :=
  if m.disp ≠ 0 then
    (if m.base ≠ .none && validSigned12 m.disp then k.baseCode m ++ [.addi]
      else if m.base ≠ .none then .li :: k.baseCode m ++ [.add] else [.li]) ++
      (if m.index ≠ none then k.indexCode m ++ k.scaledCode m.shift else [])
  else if m.index ≠ none then
    k.indexCode m ++
      (if m.base = .none then [if m.shift = 0 then .mv else .slli]
        else k.baseCode m ++ k.scaledCode m.shift)
  else k.baseCode m ++ [.mv]

end Config

/-! The early returns of `lea`: just a segment register, the base or the index itself, and the
assertion that there is a base at least. -/

def Insn.segmentOnly (i : Insn) (m : MemOperand) : Bool :=
  i.hasSegment && m.base = .none && m.index = none && m.disp = 0

def Insn.baseOnly (i : Insn) (m : MemOperand) : Bool :=
  !i.hasSegment && m.base ≠ .none && m.index = none && m.disp = 0

def Insn.indexOnly (i : Insn) (m : MemOperand) : Bool :=
  !i.hasSegment && m.base = .none && m.index ≠ none && m.disp = 0 && m.shift = 0

def MemOperand.isEmpty (m : MemOperand) : Bool := m.base = .none && m.index = none && m.disp = 0

namespace Config

variable (k : Config) (i : Insn)

/-- `lea`. The last part is not under a test for the extension. -/
def leaCode (m : MemOperand) (useTemp : Bool) : List HostOp :=
  if m.base = .rip then [.li]
  else if i.segmentOnly m then [.ld]
  else if !useTemp && i.baseOnly m then k.baseCode m
  else if !useTemp && i.indexOnly m then k.indexCode m
  else if m.isEmpty then []
  else
    k.sumCode m ++ (if i.addressWidth = .qword then [] else k.zextCode i.addressWidth) ++
      (if i.hasSegment then [.ld, .add] else []) ++ (if k.mode32 then [.zextw] else [])

/-- The operand whose address an access to a memory operand takes. -/
def folded (m : MemOperand) : MemOperand := if k.folds i m then { m with disp := 0 } else m

/-- `getGPR(operand)`. -/
def getCode (op : Operand) : List HostOp :=
  match op with
  | .reg _ size => k.getRefCode size
  | .mem m _ => k.leaCode i (k.folded i m) false ++ [.load]
  | .imm _ _ => [.li]
  | .seg _ => []

/-- `setGPR(operand, reg)`. -/
def setCode (op : Operand) : List HostOp :=
  match op with
  | .reg _ size => k.setRefCode size
  | .mem m _ => k.leaCode i (k.folded i m) false ++ [.store]
  | _ => []

/-- `CTZ`. -/
def ctzCode : List HostOp := if k.b then [.ctz] else [.li, .srl, .andi, .bnez, .addi, .j]

/-- `BSR`. -/
def bsrCode (width : Size) : List HostOp :=
  if k.b then
    match width with
    | .qword => [.clz, .xori]
    | .dword => [.clzw, .xori]
    | _ => [.slli, .clzw, .xori]
  else [.li, .srl, .andi, .bnez, .addi, .j]

/-- `REV8`. -/
def rev8Code : List HostOp :=
  if k.b then [.rev8]
  else
    [.srli, .lui, .srli, .srli, .lui, .addiw, .and, .or, .srli, .and, .srliw, .slli,
      .or, .srliw, .and, .and, .slli, .slli, .slli, .or, .slli, .or, .or, .or, .or]

/-- The rotation of `ROL` by an immediate. -/
def rolCode (size : Size) : List HostOp :=
  if size = .dword then if k.b then [.roriw] else [.srliw, .slliw, .or]
  else if k.b then [.rori] else [.srli, .slli, .or]

/-- `OP_noflags_destreg`, except for the operation itself. Its callers test for the extension. -/
def destregCode (width : Size) (srcHigh : Bool) : List HostOp :=
  match width with
  | .byte | .byteHigh => (if srcHigh then [.srli] else []) ++ [.slli, .rori, .rori]
  | .word => [.slli, .rori, .rori]
  | .dword => k.zextCode .dword
  | .qword => []

end Config

/-- A call of a routine by a handler. -/
inductive Call
  | zext (size : Size)
  | sextb
  | sexth
  | sext (size : Size)
  | getRef (size : Size)
  | setRef (size : Size)
  | get (op : Operand)
  | getWhole (op : Operand)
  | set (op : Operand)
  | lea (m : MemOperand) (useTemp : Bool)
  | updateParity
  | ctz
  | bsr (width : Size)
  | rev8
  | rol (size : Size)

/-- What the call emits. A second `lea` of one operand may find the first one's register and emit
nothing; there is no other instruction in it either way. -/
def Call.code (k : Config) (i : Insn) : Call → List HostOp
  | zext size => k.zextCode size
  | sextb => k.sextbCode
  | sexth => k.sexthCode
  | sext size => k.sextCode size
  | getRef size => k.getRefCode size
  | setRef size => k.setRefCode size
  | get op => k.getCode i op
  | getWhole (.reg _ _) => []
  | getWhole op => k.getCode i op
  | set op => k.setCode i op
  | lea m useTemp => k.leaCode i m useTemp
  | updateParity => k.updateParityCode
  | ctz => k.ctzCode
  | bsr width => k.bsrCode width
  | rev8 => k.rev8Code
  | rol size => k.rolCode size

/-! ## The handlers -/

section Calls

variable {ρ : Type*} (k : Config) (i : Insn) (e : Flag → Bool)

/-- A call that is made if a flag is needed. -/
def callIf (f : Flag) (c : Call) : List Call := if e f then [c] else []

/-- The calls for `PF` and `ZF` of a result, which are all there is for a logical operation. -/
def resultCalls (size : Size) : List Call := callIf e .pf .updateParity ++ callIf e .zf (.zext size)

def addCalls (size : Size) : List Call := callIf e .cf (.zext size) ++ resultCalls e size

def cmpCalls (size : Size) (zextSrc always : Bool) : List Call :=
  let e := fun f ↦ always || e f
  (if zextSrc then callIf e .cf (.zext size) else []) ++ resultCalls e size

/-- The operand that an instruction reads and writes, which is an address if it is atomic. -/
def updateCalls : List Call :=
  match atomicOperand i with
  | some (m, _) => [.lea m true]
  | none => [.get i.op0, .set i.op0]

def lockedAddCalls : List Call :=
  match i.op0 with
  | .mem m size => .lea m true :: if size = .word && !k.zabha then [.sexth] else []
  | _ => []

/-- The write of a shift by an immediate zero. -/
def shiftZeroCalls : List Call :=
  match i.op0 with
  | .reg _ .dword => [.setRef .qword]
  | _ => []

/-- The calls of a shift; `short` is whether the handler has a path without flags. -/
def shiftCalls (left short : Bool) : List Call :=
  if i.op1.isImm then
    .get i.op0 ::
      if immediateCount i ≠ 0 then resultCalls e i.op0.size ++ [.set i.op0] else shiftZeroCalls i
  else if short && k.noflagOpts && !(e .cf || e .of || e .pf || e .sf || e .zf) then
    [if left || i.op0.size = .dword then .getWhole i.op0
      else .get i.op0, .getWhole i.op1, .set i.op0]
  else [.get i.op0, .get i.op1] ++ resultCalls e i.op0.size ++ [.set i.op0]

def rolCalls : List Call :=
  let size := i.op0.size
  if k.noflagOpts && (size = .qword || size = .dword) && i.op1.isImm && !(e .cf || e .of) then
    [if size = .dword then .getWhole i.op0 else .get i.op0, .rol size, .set i.op0]
  else [.get i.op0, .get i.op1, .set i.op0]

def imul1Calls : List Call :=
  let flags (c : Call) := if e .cf || e .of then [c] else []
  .get i.op0 :: match i.op0.size with
    | .byte | .byteHigh => [.getRef .byte, .sextb, .sextb, .setRef .word] ++ flags .sextb
    | .word => [.getRef .word, .sexth, .sexth, .setRef .word] ++ flags .sexth ++ [.setRef .word]
    | size => [.getRef size, .setRef size, .setRef size]

def imul23Calls (three : Bool) : List Call :=
  if k.noflagOpts && !e .cf && !e .of then
    [Call.getWhole i.op0, .getWhole i.op1] ++ (if three then [Call.get i.op2] else []) ++
      (if i.op0.size = .word then Call.sexth :: if three then [] else [.sexth] else []) ++
      [.set i.op0]
  else
    [Call.get i.op0, .get i.op1] ++ (if three then [Call.get i.op2] else []) ++
      (if i.op0.size = .word then [Call.sexth, .sexth, .sexth] else []) ++ [.set i.op0]

def mulCalls : List Call :=
  .get i.op0 :: match i.op0.size with
    | .byte | .byteHigh => [.getRef .byte, .setRef .word]
    | size => [.getRef size, .setRef size, .setRef size]

/-- The calls of `DIV` and `IDIV`. -/
def divideCalls (signed : Bool) : List Call :=
  .get i.op0 :: match i.op0.size with
    | .byte | .byteHigh =>
      .getRef .word :: (if signed then [.sexth, .sextb] else []) ++
        [.setRef .byte, .setRef .byteHigh]
    | .word =>
      [.getRef .word, .getRef .word] ++ (if signed then [.sexth] else []) ++
        [.setRef .word, .setRef .word]
    | size => [.getRef size, .setRef size, .setRef size]

/-- The calls of `BT` and its relatives. -/
def bitCalls (updates : Bool) : List Call :=
  match i.op0, i.op1 with
  | .mem m _, .reg _ _ => [.lea m true, .get i.op1, .sext i.op1.size]
  | _, _ => [.get i.op0, .get i.op1] ++ if updates then [.set i.op0] else []

def movCalls : List Call :=
  match i.op0, i.op1 with
  | .seg _, op => if k.mode32 then [.get op] else []
  | op, .seg _ => if k.mode32 then [.set op] else []
  | .reg r size, .reg r' size' =>
    if r = r' then [.getRef size', .setRef size] else [.setRef size]
  | .mem m size, .reg _ _ => [.set (.mem m size)]
  | .reg _ .dword, .mem m size => [.get (.mem m size)]
  | .reg _ .qword, .mem m size => [.get (.mem m size)]
  | op, op' => [.get op', .set op]

def movzxCalls : List Call :=
  match i.op1 with
  | .reg _ .byteHigh => []
  | .reg _ size => [.zext size]
  | .mem m _ => [.lea m false]
  | _ => []

def xchgCalls : List Call :=
  match i.op0 with
  | .mem m _ => [.lea m true, .get i.op1, .set i.op1]
  | op => [.get i.op1, .get op, .set i.op1, .set op]

def xaddCalls : List Call :=
  match atomicOperand i with
  | some (m, width) =>
    [.get i.op1, .lea m true] ++ (if width = .dword then [.zext .dword] else []) ++
      addCalls e i.op0.size ++ [.setRef .qword]
  | none => [.get i.op0, .get i.op1] ++ addCalls e i.op0.size ++ [.set i.op1, .set i.op0]

def cmpxchgCalls : List Call :=
  match i.op0 with
  | .mem m _ =>
    [.lea m true, .get i.op1, .getRef i.width] ++ cmpCalls e i.width false false ++
    [.setRef i.width]
  | op =>
    [.get op, .get i.op1, .getRef i.width] ++ cmpCalls e i.width false false ++
      [.set op, .setRef i.width]

/-- The address of the operand of `CMPXCHG8B` and `CMPXCHG16B`. -/
def wholeCalls : List Call :=
  match i.op0 with
  | .mem m _ => [.lea m true]
  | _ => []

def pushCalls : List Call :=
  (if i.op0.isSeg then [] else [.get i.op0]) ++ [.setRef k.stackWidth]

def popCalls : List Call :=
  (if i.op0.isSeg then [] else [.set i.op0]) ++ [.setRef k.stackWidth]

/-- A jump truncates its target in 32-bit mode. -/
def jumpCalls : List Call := if k.mode32 then [.zext .dword] else []

/-- The target of a jump or a call. -/
def targetCalls : List Call := if i.op0.isImm then jumpCalls k else [.get i.op0]

/-- The registers of a string instruction. -/
def stringCalls : List Call := [.getRef i.addressWidth, .setRef i.addressWidth]

/-- The calls that the handler of an integer instruction makes, outside `OP_noflags_destreg`. -/
def Instr.calls (x : Instr ρ) : List Call :=
  let i := x.insn
  let size := i.op0.size
  match x.mnemonic with
  | .add => .get i.op1 ::
      (if i.op0.isMem && i.lock then lockedAddCalls k i else [.get i.op0, .set i.op0]) ++
      addCalls e size
  | .sub => .get i.op1 :: updateCalls i ++ cmpCalls e size (zextSrc i size) false
  | .sbb => [.get i.op1, .get i.op0] ++ cmpCalls e size (zextSrc i size) false ++
      callIf e .cf (.zext size) ++ [.set i.op0]
  | .adc => [.get i.op1, .get i.op0] ++ addCalls e size ++ callIf e .cf (.zext size) ++ [.set i.op0]
  | .cmp =>
    if !needsAny e then [] else [.get i.op1, .get i.op0] ++ cmpCalls e size (zextSrc i size) false
  | .or | .and => .get i.op1 :: updateCalls i ++ resultCalls e size
  | .xor =>
    match zeroIdiom i with
    | some _ => [.setRef .qword]
    | none => .get i.op1 :: updateCalls i ++ resultCalls e size
  | .test => if !needsAnyButAf e then [] else [.get i.op1, .get i.op0] ++ resultCalls e size
  | .inc | .dec => updateCalls i ++ resultCalls e size
  | .neg => .get i.op0 :: (match size with
      | .byte | .byteHigh => [.sextb]
      | .word => [.sexth]
      | _ => []) ++ resultCalls e size ++ [.set i.op0]
  | .not => [.get i.op0, .set i.op0]
  | .shl => shiftCalls k i e true true
  | .shr => shiftCalls k i e false true
  | .sar => shiftCalls k i e false false
  | .shld | .shrd => [.get i.op0, .get i.op1, .get i.op2] ++ resultCalls e i.width ++ [.set i.op0]
  | .rol => rolCalls k i e
  | .ror | .rcl | .rcr => [.get i.op0, .get i.op1, .set i.op0]
  | .imul opcount => if opcount = 1 then imul1Calls i e else imul23Calls k i e (opcount = 3)
  | .mul => mulCalls i
  | .div => divideCalls i false
  | .idiv => divideCalls i true
  | .bsf | .tzcnt => [.get i.op1, .get i.op0, .ctz, .set i.op0]
  | .bsr => [.get i.op1, .get i.op0, .bsr i.width, .set i.op0]
  | .bt => bitCalls i false
  | .btc | .bts | .btr => bitCalls i true
  | .blsr => .get i.op1 :: callIf e .zf (.zext size) ++ [.set i.op0]
  | .bswap => [.get i.op0, .rev8, .set i.op0]
  | .mov => movCalls k i
  | .movzx => movzxCalls i
  | .movsx => [.get i.op1, if i.op1.size = .word then .sexth else .sextb, .set i.op0]
  | .movsxd => [.get i.op1, .set i.op0]
  | .lea =>
    match i.op1 with
    | .mem m _ => [.lea m true, .set i.op0]
    | _ => []
  | .cbw => [.getRef .byte, .sextb, .setRef .word]
  | .cwde => [.sexth, .setRef .dword]
  | .cdqe | .cqo => [.setRef .qword]
  | .cwd => [.sexth, .setRef .word]
  | .cdq => [.setRef .dword]
  | .xchg => xchgCalls i
  | .xadd => xaddCalls i e
  | .cmpxchg => cmpxchgCalls i e
  | .cmpxchg8b => wholeCalls i ++ [.setRef .dword]
  | .cmpxchg16b => wholeCalls i ++ [.setRef .qword]
  | .push => pushCalls k i
  | .pop => popCalls k i
  | .call => targetCalls k i ++ [.setRef k.stackWidth]
  | .ret | .pushf | .popf => [.setRef k.stackWidth]
  | .leave => [.getRef i.width, .setRef i.width]
  | .jmp => targetCalls k i
  | .jcc _ => jumpCalls k
  | .jcxz size => .getRef size :: jumpCalls k
  | .loop | .loope | .loopne => stringCalls i ++ jumpCalls k
  | .cmov _ => [.getWhole i.op0, .getWhole i.op1, .set i.op0]
  | .setcc _ => [.set i.op0]
  | .movs => stringCalls i
  | .lods => stringCalls i ++ [.setRef i.width]
  | .stos => stringCalls i ++ [.getRef i.width]
  | .cmps => stringCalls i ++ cmpCalls e i.width false (i.rep ≠ .none)
  | .scas => stringCalls i ++ [.getRef i.width] ++ cmpCalls e i.width false (i.rep ≠ .none)
  | .lahf => [.setRef .byteHigh]
  | .sahf => [.getRef .byteHigh]
  | .rdtsc _ => [.setRef .dword, .setRef .qword]
  | .xgetbv => [.setRef .qword]
  | _ => []

/-- The instructions whose handlers are in `calls`: all but those of other units and of the
system. -/
def Mnemonic.isInteger : Mnemonic ρ → Bool
  | .cpuid .. | .int .. | .syscall _ | .iretd | .comis _ | .ptest .. | .fcomi .. | .fcmov ..
  | .pcmpxstrx .. | .fromUnit .. | .other _ => false
  | _ => true

/-- The handler takes the path through `OP_noflags_destreg`. -/
def Instr.takesDestreg (x : Instr ρ) : Bool :=
  match x.mnemonic with
  | .add | .sub => k.b && k.noflagOpts && !needsAny e && x.insn.op0.isReg
  | .or => k.b && k.noflagOpts && !needsAnyButAf e && x.insn.op0.isReg
  | .xor =>
    zeroIdiom x.insn = none && k.b && k.noflagOpts && !needsAnyButAf e && x.insn.op0.isReg
  | _ => false

/-- The code that an integer instruction gets from the routines. -/
def Instr.code (x : Instr ρ) : List HostOp :=
  let i := x.insn
  if x.takesDestreg k e then
    Call.code k i (.getWhole i.op1) ++ k.destregCode i.width i.op1.isHigh
  else (x.calls k e).flatMap (Call.code k i)

end Calls

/-! ## Available instructions -/

/-- `lea` computes a sum, and so does not return early. -/
def Insn.sumsAddress (i : Insn) (m : MemOperand) (useTemp : Bool) : Bool :=
  m.base ≠ .rip && !i.segmentOnly m && !(!useTemp && i.baseOnly m) &&
    !(!useTemp && i.indexOnly m) &&
    !m.isEmpty

/-- The call takes the address of a memory operand that is a sum. -/
def Call.sumsAddress (k : Config) (i : Insn) : Call → Bool
  | get (.mem m _) => i.sumsAddress (k.folded i m) false
  | getWhole (.mem m _) => i.sumsAddress (k.folded i m) false
  | set (.mem m _) => i.sumsAddress (k.folded i m) false
  | lea m useTemp => i.sumsAddress m useTemp
  | _ => false

/-- No instruction of the extension. -/
def Plain (code : List HostOp) : Prop := ∀ op ∈ code, op.inB = false

instance (code : List HostOp) : Decidable (Plain code) := inferInstanceAs (Decidable (∀ _ ∈ _, _))

@[simp] theorem plain_nil : Plain [] := fun _ h ↦ absurd h (by simp)

@[simp] theorem plain_cons {op : HostOp} {code : List HostOp} :
    Plain (op :: code) ↔ op.inB = false ∧ Plain code := List.forall_mem_cons

@[simp] theorem plain_append {code code' : List HostOp} :
    Plain (code ++ code') ↔ Plain code ∧ Plain code' := List.forall_mem_append

theorem plain_iff_available {k : Config} (hb : k.b = false) {code : List HostOp} :
    Plain code ↔ ∀ op ∈ code, op.AvailableOn k := by
  refine forall₂_congr fun op _ ↦ ?_
  simp [HostOp.AvailableOn, hb]

section Plain

variable {k : Config} (hb : k.b = false) (i : Insn)

include hb

theorem plain_zextCode (size : Size) : Plain (k.zextCode size) := by
  cases size <;> simp [Config.zextCode, hb]

theorem plain_sextbCode : Plain k.sextbCode := by simp [Config.sextbCode, hb]

theorem plain_sexthCode : Plain k.sexthCode := by simp [Config.sexthCode, hb]

theorem plain_sextCode (size : Size) : Plain (k.sextCode size) := by
  cases size <;> simp [Config.sextCode, plain_sextbCode hb, plain_sexthCode hb]

theorem plain_getRefCode (size : Size) : Plain (k.getRefCode size) := by
  cases size with
  | dword =>
    rw [Config.getRefCode]
    split <;> simp [plain_zextCode hb]
  | _ => simp [Config.getRefCode, plain_zextCode hb]

theorem plain_setRefCode (size : Size) : Plain (k.setRefCode size) := by
  cases size <;> simp [Config.setRefCode, hb]

theorem plain_updateParityCode : Plain k.updateParityCode := by
  simp [Config.updateParityCode, hb]

theorem plain_scaledCode (shift : Fin 4) : Plain (k.scaledCode shift) := by
  unfold Config.scaledCode
  split <;> simp [hb]

theorem plain_baseCode (m : MemOperand) : Plain (k.baseCode m) := by
  rw [Config.baseCode]
  split <;> simp [plain_getRefCode hb]

theorem plain_indexCode (m : MemOperand) : Plain (k.indexCode m) := by
  rw [Config.indexCode]
  split <;> simp [plain_getRefCode hb]

theorem plain_sumCode (m : MemOperand) : Plain (k.sumCode m) := by
  rw [Config.sumCode]
  split_ifs <;>
    simp [plain_baseCode hb, plain_indexCode hb, plain_scaledCode hb]

/-- The instruction that is not under a test. -/
theorem plain_leaCode (m : MemOperand) (useTemp : Bool) :
    Plain (k.leaCode i m useTemp) ↔ ¬(k.mode32 ∧ i.sumsAddress m useTemp) := by
  have hwidth : Plain (if i.addressWidth = .qword then [] else k.zextCode i.addressWidth) := by
    split
    · exact plain_nil
    · exact plain_zextCode hb _
  have hsegment : Plain (if i.hasSegment then [.ld, .add] else []) := by
    split <;> simp
  have hlast : Plain (if k.mode32 then [.zextw] else []) ↔ ¬k.mode32 := by
    split <;> simp [*]
  unfold Config.leaCode Insn.sumsAddress
  split
  · next h => simp [h]
  split
  · next h => simp [h]
  split
  · next h => simp [h, plain_baseCode hb]
  split
  · next h => simp [h, plain_indexCode hb]
  split
  · next h => simp [h]
  next h1 h2 h3 h4 h5 =>
  simp [plain_sumCode hb, hwidth, hsegment, hlast, h1, h2, h3, h4, h5]

/-- The code of a call. -/
theorem plain_code (c : Call) : Plain (c.code k i) ↔ ¬(k.mode32 ∧ c.sumsAddress k i) := by
  have hget (m : MemOperand) (op : HostOp) (hop : op.inB = false) :
      Plain (k.leaCode i (k.folded i m) false ++ [op]) ↔
        ¬(k.mode32 ∧ i.sumsAddress (k.folded i m) false) := by
    simp only [plain_append, plain_cons, plain_nil, hop, and_true, plain_leaCode hb]
  cases c with
  | zext size => simp [Call.code, Call.sumsAddress, plain_zextCode hb]
  | sextb => simp [Call.code, Call.sumsAddress, plain_sextbCode hb]
  | sexth => simp [Call.code, Call.sumsAddress, plain_sexthCode hb]
  | sext size => simp [Call.code, Call.sumsAddress, plain_sextCode hb]
  | getRef size => simp [Call.code, Call.sumsAddress, plain_getRefCode hb]
  | setRef size => simp [Call.code, Call.sumsAddress, plain_setRefCode hb]
  | get op =>
    cases op with
    | mem m size => exact hget m .load rfl
    | _ => simp [Call.code, Call.sumsAddress, Config.getCode, plain_getRefCode hb]
  | getWhole op =>
    cases op with
    | mem m size => exact hget m .load rfl
    | _ => simp [Call.code, Call.sumsAddress, Config.getCode]
  | set op =>
    cases op with
    | mem m size => exact hget m .store rfl
    | _ => simp [Call.code, Call.sumsAddress, Config.setCode, plain_setRefCode hb]
  | lea m useTemp => exact plain_leaCode hb i m useTemp
  | updateParity => simp [Call.code, Call.sumsAddress, plain_updateParityCode hb]
  | ctz => simp [Call.code, Call.sumsAddress, Config.ctzCode, hb]
  | bsr width => simp [Call.code, Call.sumsAddress, Config.bsrCode, hb]
  | rev8 => simp [Call.code, Call.sumsAddress, Config.rev8Code, hb]
  | rol size =>
    simp only [Call.code, Call.sumsAddress, Config.rolCode, hb]
    split <;> simp

theorem takesDestreg_eq_false {ρ : Type*} (x : Instr ρ) (e : Flag → Bool) :
    x.takesDestreg k e = false := by
  rw [Instr.takesDestreg]
  split <;> simp [hb]

/-- The code without the extension does without its instructions unless an address is a sum. -/
theorem plain_instr_code {ρ : Type*} (x : Instr ρ) (e : Flag → Bool) :
    Plain (x.code k e) ↔ ¬(k.mode32 ∧ ∃ c ∈ x.calls k e, c.sumsAddress k x.insn) := by
  rw [Instr.code, takesDestreg_eq_false hb, if_neg (by decide)]
  simp only [Plain, List.mem_flatMap, forall_exists_index, and_imp]
  constructor
  · rintro hplain ⟨hmode, c, hc, hsum⟩
    exact (plain_code hb x.insn c).mp (fun op hop ↦ hplain op c hc hop) ⟨hmode, hsum⟩
  · intro hnot op c hc hop
    exact (plain_code hb x.insn c).mpr (fun h ↦ hnot ⟨h.1, c, hc, h.2⟩) op hop

end Plain

/-! ## Independence of the extension -/

namespace Instr

section Independence

variable {ρ : Type*} (k : Config) (e : Flag → Bool) (x : Instr ρ)

/-- The loop that the code runs in place of an instruction of the extension, if it gets there. -/
def fallbackLoop (s : State ρ) : Option BitLoop :=
  let src := k.get x.insn x.insn.op1 s.core
  if k.b || src = 0 then none
  else
    match x.mnemonic with
    | .bsf | .tzcnt => some ⟨src, 0, 1⟩
    | .bsr => some ⟨src, BitVec.ofNat 64 (x.insn.width.bits - 1), -1⟩
    | _ => none

/-- The code for a host with the extension and the code for one without it do the same, neither has
an instruction that its host lacks, and the loops end. -/
structure IndependentOfB : Prop where
  same : ∀ s, (k.mode32 → Zext s.core) → x.exec (k.withB true) e s = x.exec (k.withB false) e s
  available : ∀ b, ∀ op ∈ x.code (k.withB b) e, op.AvailableOn (k.withB b)
  ends : ∀ s, (k.mode32 → Zext s.core) → ∀ l ∈ x.fallbackLoop (k.withB false) s, l.Ends

variable {k e x}

theorem ends_of_mem_fallbackLoop (hx : x.Sized) {s : State ρ} (hz : k.mode32 → Zext s.core)
    {l : BitLoop}
    (hl : l ∈ x.fallbackLoop k s) : l.Ends := by
  have hlt (hop : x.insn.op1.isReg || x.insn.op1.isMem) :=
    k.get_lt x.insn (c := s.core) (fun r _ hmode ↦ hz hmode r) hop
  obtain ⟨m, i⟩ := x
  simp only [fallbackLoop] at hl
  split at hl
  · cases hl
  next hcond =>
  have hsrc : k.get i i.op1 s.core ≠ 0 := fun h ↦ hcond (by simp [h])
  split at hl
  · cases hl
    exact ctz_ends hsrc
  · cases hl
    exact ctz_ends hsrc
  · cases hl
    obtain ⟨hsize, -, hop⟩ := hx
    obtain ⟨t, ht⟩ := exists_highBit hsrc
    exact bsr_ends ht (hsize ▸ hlt hop)
  · cases hl

/-- **The bit manipulation extension makes no difference**, unless an address is a sum in 32-bit
mode: `lea` then ends with a `ZEXTW` that is emitted on every host. -/
theorem independentOfB_iff (_hx : x.mnemonic.isInteger) (hsized : x.Sized) :
    x.IndependentOfB k e ↔ ¬(k.mode32 ∧ ∃ c ∈ x.calls k e, c.sumsAddress k x.insn) := by
  have hplain := plain_instr_code (k := k.withB false) rfl x e
  constructor
  · intro h
    exact hplain.mp ((plain_iff_available rfl).mpr (h.available false))
  · intro h
    constructor
    · intro s hz
      rw [exec_withB k true e hsized hz, exec_withB k false e hsized hz]
    · intro b
      cases b with
      | true => exact fun op _ _ ↦ rfl
      | false => exact (plain_iff_available rfl).mp (hplain.mpr h)
    · intro s hz l hl
      exact ends_of_mem_fallbackLoop (k := k.withB false) hsized hz hl

end Independence

/-- `bsf eax, ecx` and `bsf eax, [ebx + 4 * ecx]` in 32-bit code. -/
def bsfEax (src : Operand) : Instr Unit := Mnemonic.bsf.on .dword (.reg rax .dword) src

def scaledOperand : Operand :=
  .mem ⟨.reg rbx .dword, some (rcx, .dword), 2, 0, .ds⟩ .dword

/-- A register has no address. -/
theorem independentOfB_bsf_ecx :
    (bsfEax (.reg rcx .dword)).IndependentOfB (Config.default true) fun _ ↦ true := by
  have hsized : (bsfEax (.reg rcx .dword)).Sized := trivial
  refine (independentOfB_iff rfl hsized).mpr ?_
  rintro ⟨-, hsum⟩
  exact absurd hsum (by decide)

/-- With an index there is an instruction that the host does not have. -/
theorem not_independentOfB_bsf_scaled : ¬∀ (k : Config) (e : Flag → Bool) (x : Instr Unit),
    x.mnemonic.isInteger → x.Sized → x.IndependentOfB k e := by
  intro hall
  have h := (hall (Config.default true) (fun _ ↦ true) (bsfEax scaledOperand) rfl trivial).available
    false
  have hmem : HostOp.zextw ∈ (bsfEax scaledOperand).code ((Config.default true).withB false)
      fun _ ↦ true := by decide
  exact absurd (h _ hmem rfl) (by decide)

end Instr

end Jit

end Felix86
