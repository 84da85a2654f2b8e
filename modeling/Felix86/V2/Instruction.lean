import Felix86.V2.HandlersShift
import Felix86.V2.HandlersData

/-!
# Instructions

`compileInstruction` picks the handler by mnemonic. The integer handlers are those of the other
modules; here are the few that are left, and the instructions of the other units as far as they
touch general registers and flags: what they compute from vector or x87 registers is a function they
carry. So are the results of system calls and of the clock.
-/

namespace Felix86

namespace Jit

open Riscv

/-- What a comparison of floating point numbers finds. -/
inductive Comparison
  | unordered
  | less
  | equal
  | greater
deriving DecidableEq, Repr

def Comparison.bit (r : Comparison) (l : List Comparison) : U64 := if r ∈ l then 1 else 0

/-- A mnemonic, or a family of them that share a handler. -/
inductive Mnemonic (ρ : Type*)
  | add | sub | sbb | adc | cmp | or | xor | and | test | inc | dec | neg | not
  | shl | shr | sar | shld | shrd | rol | ror | rcl | rcr
  | imul (opcount : ℕ) | mul | div | idiv
  | bsf | bsr | tzcnt | bt | btc | bts | btr | blsr | bswap
  | mov | movzx | movsx | movsxd | lea | cbw | cwde | cdqe | cwd | cdq | cqo
  | xchg | xadd | cmpxchg | cmpxchg8b | cmpxchg16b
  | push | pop | call | ret | leave | pushf | popf
  | jmp | jcc (cond : Fin 16) | jcxz (size : Size) | loop | loope | loopne
  | cmov (cond : Fin 16) | setcc (cond : Fin 16)
  | movs | cmps | scas | lods | stos
  | clc | stc | cmc | cld | std | lahf | sahf
  | rdtsc (time : U64) | xgetbv
  /-- `felix86_cpuid`. -/
  | cpuid (eax ebx ecx edx : Core ρ → BitVec 32)
  /-- `INT 0x80`: the result of `felix86_syscall32`, whether this is the child of a `vfork`, and all
  else it does. -/
  | int (result : Core ρ → U64) (child : Core ρ → Bool) (world : Core ρ → Core ρ)
  | syscall (world : Core ρ → Core ρ)
  | iretd
  /-- `COMISS` and its relatives. -/
  | comis (compare : Core ρ → Comparison)
  | ptest (zero carry : Core ρ → Bool)
  /-- `FCOMI` and its relatives, and what they pop. -/
  | fcomi (compare : Core ρ → Comparison) (next : Core ρ → ρ)
  /-- `FCMOVcc`, by the condition of the `Jcc` it is like, with the state if it holds. -/
  | fcmov (cond : Fin 16) (next : Core ρ → ρ)
  /-- `PCMPxSTRx`: the index for `ECX` if there is one, the rest, and the flags. -/
  | pcmpxstrx (index : Core ρ → Option (BitVec 5)) (next : Core ρ →
      ρ) (flags : Core ρ → Flag → Bool)
  /-- An instruction that moves a value from another unit to a general register or to memory. -/
  | fromUnit (value : Core ρ → U64) (next : Core ρ → ρ)
  /-- An instruction of another unit that leaves general registers and flags alone. -/
  | other (world : Core ρ → Core ρ)

structure Instr (ρ : Type*) where
  mnemonic : Mnemonic ρ
  insn : Insn

variable {ρ : Type*} (k : Config) (i : Insn) (e : Flag → Bool)

/-! ## Handlers -/

def fastLahf (s : State ρ) : State ρ :=
  let result := s.flag .cf ||| (s.flag .pf <<< 2) ||| (s.flag .af <<< 4) ||| (s.flag .zf <<< 6) |||
    (s.flag .sf <<< 7) ||| 0b10
  s.map (k.setRef rax .byteHigh result)

def fastSahf (s : State ρ) : State ρ :=
  let ah := k.getRef rax .byteHigh s.core
  s.setFlag .cf (ah &&& 1)
    |>.setFlag .pf ((ah >>> 2) &&& 1)
    |>.setFlag .af ((ah >>> 4) &&& 1)
    |>.setFlag .zf ((ah >>> 6) &&& 1)
    |>.setFlag .sf ((ah >>> 7) &&& 1)

def fastRdtsc (time : U64) (c : Core ρ) : Core ρ :=
  k.setRef rdx .qword (time >>> 32) (k.setRef rax .dword time c)

def fastXgetbv (c : Core ρ) : Core ρ := k.setRef rdx .qword 0 (k.setRef rax .qword 0b11 c)

/-- `felix86_cpuid`, on `ThreadState`. -/
def felix86Cpuid (eax ebx ecx edx : Core ρ → BitVec 32) (c : Core ρ) : Core ρ :=
  c.write rax ((eax c).setWidth 64) |>.write rbx ((ebx c).setWidth 64)
    |>.write rcx ((ecx c).setWidth 64) |>.write rdx ((edx c).setWidth 64)

/-- `felix86_syscall32`, on `ThreadState`: the result goes to `RAX` as the 64-bit integer it is. The
child of a `vfork` gets the stack in `RCX`. The assertions about the upper halves of the arguments
are left out: they always hold, since the complement of a mask of 32 ones is zero in `unsigned
int`. -/
def felix86Syscall32 (result : Core ρ → U64) (child : Core ρ → Bool) (world : Core ρ → Core ρ)
    (c : Core ρ) : Core ρ :=
  let gpr := if child c && c.gpr rcx ≠ 0 then Function.update c.gpr rsp (c.gpr rcx) else c.gpr
  { world c with gpr := Function.update gpr rax (result c) }

/-- `felix86_iret` in 32-bit mode. -/
def felix86Iret (c : Core ρ) : Core ρ :=
  let stack := c.gpr rsp
  let c' := felix86SetSegment (c.mem.load (stack + 4) 4) .cs c
  { c'.write rsp (stack + 12) with rip := c.mem.load stack 4 }

/-- `COMIS`: `CF`, `ZF` and `PF` are always computed. -/
def comis (r : Comparison) (s : State ρ) : State ρ :=
  s.emit e .af 0 |>.emit e .of 0 |>.emit e .sf 0
    |>.setFlag .pf (r.bit [.unordered])
    |>.setFlag .cf (r.bit [.less, .unordered])
    |>.setFlag .zf (r.bit [.equal, .unordered])

def fastPtest (zero carry : Bool) (s : State ρ) : State ρ :=
  s.emit e .zf (if zero then 1 else 0) |>.emit e .cf (if carry then 1 else 0)
    |>.emit e .af 0 |>.emit e .of 0 |>.emit e .sf 0 |>.emit e .pf 0

/-- `FCOMI`, which leaves `OF`, `SF` and `AF` alone. -/
def fcomi (r : Comparison) (next : ρ) (s : State ρ) : State ρ :=
  (s.map fun c ↦ { c with rest := next })
    |>.setFlag .pf (r.bit [.unordered])
    |>.setFlag .zf (r.bit [.equal, .unordered])
    |>.setFlag .cf (r.bit [.less, .unordered])

/-- `felix86_pcmpxstrx`, on `ThreadState`. -/
def felix86Pcmpxstrx (index : Option (BitVec 5)) (next : ρ) (flags : Flag → Bool) (s : State ρ) :
    State ρ where
  core :=
    let c := { s.core with rest := next }
    match index with
    | some v => c.write rcx (v.setWidth 64)
    | none => c
  flag := fun f ↦ if flags f then 1 else 0

/-- The code emitted for an instruction, where `e` says which flags are needed after it. There is no
state after it if it stops at a breakpoint or an assertion. The assertion of `scratch` is left out:
here there are always enough scratch registers. -/
def Instr.exec (x : Instr ρ) (s : State ρ) : Option (State ρ) :=
  let i := x.insn
  match x.mnemonic with
  | .add => fastAdd k i e s
  | .sub => some (fastSub k i e s)
  | .sbb => some (fastSbb k i e s)
  | .adc => some (fastAdc k i e s)
  | .cmp => some (fastCmp k i e s)
  | .or => some (fastOr k i e s)
  | .xor => some (fastXor k i e s)
  | .and => some (fastAnd k i e s)
  | .test => some (fastTest k i e s)
  | .inc => some (fastInc k i e s)
  | .dec => some (fastDec k i e s)
  | .neg => some (fastNeg k i e s)
  | .not => some (fastNot k i s)
  | .shl => some (fastShl k i e s)
  | .shr => some (fastShr k i e s)
  | .sar => some (fastSar k i e s)
  | .shld => some (fastShld k i e s)
  | .shrd => some (fastShrd k i e s)
  | .rol => some (fastRol k i e s)
  | .ror => some (fastRor k i s)
  | .rcl => some (fastRcl k i e s)
  | .rcr => some (fastRcr k i e s)
  | .imul opcount => some (fastImul k i e opcount s)
  | .mul => some (fastMul k i e s)
  | .div => fastDiv k i s
  | .idiv => fastIdiv k i s
  | .bsf => some (fastBsf k i s)
  | .bsr => some (fastBsr k i s)
  | .tzcnt => some (fastTzcnt k i s)
  | .bt => some (fastBt k i s)
  | .btc => some (fastBtc k i s)
  | .bts => some (fastBts k i e s)
  | .btr => some (fastBtr k i s)
  | .blsr => some (fastBlsr k i e s)
  | .bswap => some (fastBswap k i s)
  | .mov => some (fastMov k i s)
  | .movzx => some (s.map (fastMovzx k i))
  | .movsx => some (s.map (fastMovsx k i))
  | .movsxd => some (s.map (fastMovsxd k i))
  | .lea => some (s.map (fastLea k i))
  | .cbw => some (s.map (fastCbw k))
  | .cwde => some (s.map (fastCwde k))
  | .cdqe => some (s.map (fastCdqe k))
  | .cwd => some (s.map (fastCwd k))
  | .cdq => some (s.map (fastCdq k))
  | .cqo => some (s.map (fastCqo k))
  | .xchg => some (s.map (fastXchg k i))
  | .xadd => some (fastXadd k i e s)
  | .cmpxchg => fastCmpxchg k i e s
  | .cmpxchg8b => some (fastCmpxchg8b k i s)
  | .cmpxchg16b => some (fastCmpxchg16b k i s)
  | .push => some (s.map (fastPush k i))
  | .pop => some (fastPop k i s)
  | .call => some (s.map (fastCall k i))
  | .ret => some (s.map (fastRet k i))
  | .leave => some (s.map (fastLeave k i))
  | .pushf => some (fastPushf k s)
  | .popf => some (fastPopf k s)
  | .jmp => some (s.map (fastJmp k i))
  | .jcc cond => some (s.map (jcc k i (getCond cond s.flag)))
  | .jcxz size => some (s.map (fastJcxz k i size))
  | .loop => some (s.map (fastLoop k i 1))
  | .loope => some (s.map (fastLoop k i (s.flag .zf)))
  | .loopne => some (s.map (fastLoop k i (s.flag .zf ^^^ 1)))
  | .cmov cond => some (s.map (cmov k i (getCond cond s.flag)))
  | .setcc cond => some (s.map (k.set i i.op0 (getCond cond s.flag)))
  | .movs => some (s.map (fastMovs k i))
  | .cmps => some (fastCmps k i e s)
  | .scas => some (fastScas k i e s)
  | .lods => some (s.map (fastLods k i))
  | .stos => some (s.map (fastStos k i))
  | .clc => some (s.setFlag .cf 0)
  | .stc => some (s.setFlag .cf 1)
  | .cmc => some (s.setFlag .cf (s.flag .cf ^^^ 1))
  | .cld => some (s.map fun c ↦ { c with df := 0 })
  | .std => some (s.map fun c ↦ { c with df := 1 })
  | .lahf => some (fastLahf k s)
  | .sahf => some (fastSahf k s)
  | .rdtsc time => some (s.map (fastRdtsc k time))
  | .xgetbv => some (s.map (fastXgetbv k))
  | .cpuid eax ebx ecx edx => some (s.throughThreadState.map (felix86Cpuid eax ebx ecx edx))
  | .int result child world =>
    some (s.throughThreadState.map (felix86Syscall32 result child world))
  | .syscall world =>
    some (s.throughThreadState.map fun c ↦ world (c.write rcx (i.rip + i.length)))
  | .iretd => some (s.throughThreadState.map felix86Iret)
  | .comis compare => some (comis e (compare s.core) s)
  | .ptest zero carry => some (fastPtest e (zero s.core) (carry s.core) s)
  | .fcomi compare next => some (fcomi (compare s.core) (next s.core) s)
  | .fcmov cond next =>
    some (s.map fun c ↦ if getCond cond s.flag = 0 then c else { c with rest := next c })
  | .pcmpxstrx index next flags =>
    some (felix86Pcmpxstrx (index s.core) (next s.core) (flags s.core) s)
  | .fromUnit value next => some (s.map fun c ↦ k.set i i.op0 (value c) { c with rest := next c })
  | .other world => some (s.map fun c ↦ { world c with gpr := c.gpr })

/-! ## For examples -/

/-- The state in which everything is zero. -/
def State.zero : State Unit where
  core :=
    { gpr := fun _ ↦ 0
      rip := 0
      mem := fun _ ↦ 0
      df := 0
      cpuidBit := 0
      acBit := 0
      segment := fun _ ↦ 0
      base := fun _ ↦ 0
      gdt := fun _ ↦ 0
      rest := () }
  flag := fun _ ↦ 0

/-- A host with the bit manipulation extension and the default settings. -/
def Config.default (mode32 : Bool) : Config where
  mode32 := mode32
  b := true
  zabha := false
  zacas := false
  zicond := false
  paranoid := false
  noflagOpts := true
  sameCopy := false

/-- An instruction with two operands and no prefixes at the start of a block. -/
def Mnemonic.on (m : Mnemonic ρ) (width : Size) (op0 op1 : Operand) : Instr ρ where
  mnemonic := m
  insn :=
    { guestAddress := 0
      rip := 0
      length := 2
      width := width
      addressWidth := .dword
      lock := false
      hasSegment := false
      rep := .none
      op0 := op0
      op1 := op1
      op2 := .imm 0 .byte }

end Jit

end Felix86
