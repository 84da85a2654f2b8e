import Felix86.Lib.Riscv

/-!
# Emitted code as a function on the guest's state

A handler of the recompiler emits host code for one guest instruction. Here a handler is the
function that this code computes. The guest's registers and four of its flags live in host
registers, the other two flags in `ThreadState`; a scratch register is just the value it has. What
the recompiler decides while it emits (the extensions of the host, the mode, the flags that are
needed) is an argument, so that two ways to compile an instruction are two values of it.

Accesses to memory do not fault here, and the order in which other threads see them is left out.
-/

namespace Felix86

namespace Jit

open Riscv

/-- `x86_size_e`, as far as general registers go. -/
inductive Size
  | byte
  | byteHigh
  | word
  | dword
  | qword
deriving DecidableEq, Repr

/-- `getBitSize`. -/
def Size.bits : Size → ℕ
  | .byte => 8
  | .byteHigh => 8
  | .word => 16
  | .dword => 32
  | .qword => 64

/-- `size_to_bytes`. -/
def Size.bytes (size : Size) : ℕ := size.bits / 8

/-- The flags in the order of `flag_access_cpazso`. -/
inductive Flag
  | cf
  | pf
  | af
  | zf
  | sf
  | of
deriving DecidableEq, Repr

inductive Seg
  | es
  | cs
  | ss
  | ds
  | fs
  | gs
deriving DecidableEq, Repr

/-- A guest register by its number in the encoding. -/
abbrev Ref := Fin 16

def rax : Ref := 0
def rcx : Ref := 1
def rdx : Ref := 2
def rbx : Ref := 3
def rsp : Ref := 4
def rbp : Ref := 5
def rsi : Ref := 6
def rdi : Ref := 7

/-- The guest's state except the flags. `rest` has what no integer instruction computes with: vector
and x87 registers and their control words. -/
structure Core (ρ : Type*) where
  gpr : Ref → U64
  rip : U64
  mem : Mem
  df : BitVec 8
  cpuidBit : BitVec 8
  acBit : BitVec 8
  segment : Seg → BitVec 16
  base : Seg → U64
  gdt : U64 → BitVec 32
  rest : ρ

/-- The guest's state while a block runs. -/
structure State (ρ : Type*) where
  core : Core ρ
  flag : Flag → U64

/-- What is fixed while a block is compiled: the mode, the host's extensions, and the settings.
`sameCopy` is whether the copies of an operand that `getGPR` and `setGPR` make on the stack happen
to be at one address, in which case the second finds the first one's address computation in the
cache. -/
structure Config where
  mode32 : Bool
  b : Bool
  zabha : Bool
  zacas : Bool
  zicond : Bool
  paranoid : Bool
  noflagOpts : Bool
  sameCopy : Bool

inductive Base
  | none
  | rip
  | reg (r : Ref) (size : Size)
deriving DecidableEq, Repr

/-- A memory operand; the scale is `2 ^ shift`. -/
structure MemOperand where
  base : Base
  index : Option (Ref × Size)
  shift : Fin 4
  disp : U64
  segment : Seg
deriving DecidableEq, Repr

inductive Operand
  | reg (r : Ref) (size : Size)
  | mem (m : MemOperand) (size : Size)
  | imm (value : U64) (size : Size)
  | seg (s : Seg)
deriving DecidableEq, Repr

inductive Rep
  | none
  | rep
  | repz
  | repnz
deriving DecidableEq, Repr

/-- The parts of a decoded instruction that handlers look at, and the address of its block. -/
structure Insn where
  guestAddress : U64
  rip : U64
  length : U64
  width : Size
  addressWidth : Size
  lock : Bool
  hasSegment : Bool
  rep : Rep
  op0 : Operand
  op1 : Operand
  op2 : Operand
deriving DecidableEq, Repr

/-- `getSize`. -/
def Operand.size : Operand → Size
  | .reg _ size => size
  | .mem _ size => size
  | .imm _ size => size
  | .seg _ => .word

def Operand.isReg : Operand → Bool
  | .reg _ _ => true
  | .seg _ => true
  | _ => false

def Operand.isMem : Operand → Bool
  | .mem _ _ => true
  | _ => false

def Operand.isImm : Operand → Bool
  | .imm _ _ => true
  | _ => false

/-- `IsValidSigned12BitImm`. -/
def validSigned12 (v : U64) : Bool := -2048 ≤ v.toInt && v.toInt < 2048

namespace Config

variable {ρ : Type*} (k : Config) (i : Insn)

/-- `stackWidth`. -/
def stackWidth : Size := if k.mode32 then .dword else .qword

/-- `stackPointerSize`. -/
def stackPointerSize : U64 := if k.mode32 then 4 else 8

/-! ## Extensions -/

def zext (size : Size) (v : U64) : U64 :=
  match size with
  | .byte => v &&& 0xff
  | .byteHigh => v &&& 0xff
  | .word => if k.b then Riscv.zexth v else (v <<< 48) >>> 48
  | .dword => if k.b then Riscv.zextw v else (v <<< 32) >>> 32
  | .qword => v

def sextb (v : U64) : U64 := if k.b then Riscv.sextb v else (v <<< 56).sshiftRight 56

def sexth (v : U64) : U64 := if k.b then Riscv.sexth v else (v <<< 48).sshiftRight 48

def sext (size : Size) (v : U64) : U64 :=
  match size with
  | .byte => k.sextb v
  | .byteHigh => v
  | .word => k.sexth v
  | .dword => Riscv.sextw v
  | .qword => v

/-! ## Guest registers -/

/-- `getGPR(ref, size)`. In 32-bit mode a 32-bit read is the register as it is. -/
def getRef (r : Ref) (size : Size) (c : Core ρ) : U64 :=
  match size with
  | .byte => k.zext .byte (c.gpr r)
  | .byteHigh => k.zext .byte (c.gpr r >>> 8)
  | .word => k.zext .word (c.gpr r)
  | .dword => if k.mode32 then c.gpr r else k.zext .dword (c.gpr r)
  | .qword => c.gpr r

end Config

/-- A host instruction that writes a guest register. -/
def Core.write {ρ : Type*} (c : Core ρ) (r : Ref) (v : U64) : Core ρ :=
  { c with gpr := Function.update c.gpr r v }

namespace Config

variable {ρ : Type*} (k : Config) (i : Insn)

/-- The value `setGPR(ref, size, reg)` leaves in a register that held `old`. -/
def merge (size : Size) (old v : U64) : U64 :=
  match size with
  | .byte => (old &&& ~~~(0xff : U64)) ||| (v &&& 0xff)
  | .byteHigh =>
    if k.b then Riscv.rori ((Riscv.rori old 8 &&& ~~~(0xff : U64)) ||| (v &&& 0xff)) 56
    else (old &&& ~~~(0xff00 : U64)) ||| ((v <<< 8) &&& 0xff00)
  | .word =>
    ((old >>> 16) <<< 16) ||| (if k.b then Riscv.zexth v else (v <<< 48) >>> 48)
  | .dword => if k.b then Riscv.zextw v else (v <<< 32) >>> 32
  | .qword => v

/-- `setGPR(ref, size, reg)`. -/
def setRef (r : Ref) (size : Size) (v : U64) (c : Core ρ) : Core ρ :=
  c.write r (k.merge size (c.gpr r) v)

/-! ## Memory operands -/

/-- `lea`, as the address it computes. An operand with neither base nor index whose displacement is
zero or goes into the access trips `ASSERT(has_base)`; that assertion is left out. -/
def lea (m : MemOperand) (useTemp : Bool) (c : Core ρ) : U64 :=
  if m.base = .rip then i.rip + i.length + m.disp
  else
    let base := match m.base with
      | .reg r size => k.getRef r size c
      | _ => 0
    let index := match m.index with
      | some (r, size) => k.getRef r size c
      | none => 0
    -- just a segment register
    if i.hasSegment && m.base = .none && m.index = none && m.disp = 0 then c.base m.segment
    -- the base or the index itself is the address
    else if !useTemp && !i.hasSegment && m.index = none && m.disp = 0 && m.base ≠ .none then base
    else if !useTemp && !i.hasSegment && m.base = .none && m.index ≠ none && m.disp = 0 &&
        m.shift = 0 then index
    else
      let address := m.disp + base + (index <<< m.shift.val)
      let address :=
        if i.addressWidth = .qword then address else k.zext i.addressWidth address
      let address := if i.hasSegment then address + c.base m.segment else address
      if k.mode32 then Riscv.zextw address else address

/-- A small displacement goes into the access itself. -/
def folds (m : MemOperand) : Bool := validSigned12 m.disp && !i.hasSegment && !k.paranoid

/-- The address a memory operand is read and written at. -/
def address (m : MemOperand) (c : Core ρ) : U64 :=
  if k.folds i m then k.lea i { m with disp := 0 } false c + m.disp else k.lea i m false c

/-- A second `lea` of the same operand finds the first one's register. It does not if that register
is the guest's own, and for a copy of the operand only if the copies are at one address. -/
def keepsLea (m : MemOperand) : Bool :=
  let disp := if k.folds i m then 0 else m.disp
  let direct := !i.hasSegment && disp = 0 &&
    ((m.index = none && m.base ≠ .none && m.base ≠ .rip) ||
      (m.base = .none && m.index ≠ none && m.shift = 0))
  !direct && (!k.folds i m || k.sameCopy)

/-- `getGPR(operand)`. -/
def get (op : Operand) (c : Core ρ) : U64 :=
  match op with
  | .reg r size => k.getRef r size c
  | .mem m size => c.mem.load (k.address i m c) size.bytes
  | .imm v _ => v
  | .seg _ => 0

/-- `getGPR(operand, X86_SIZE_QWORD)` for a register operand, `getGPR(operand)` for another one. -/
def getWhole (op : Operand) (c : Core ρ) : U64 :=
  match op with
  | .reg r _ => c.gpr r
  | op => k.get i op c

/-- `writeMemory`. -/
def writeMemory (a v : U64) (size : Size) (c : Core ρ) : Core ρ :=
  { c with mem := c.mem.store a v size.bytes }

/-- `setGPR(operand, reg)`. -/
def set (op : Operand) (v : U64) (c : Core ρ) : Core ρ :=
  match op with
  | .reg r size => k.setRef r size v c
  | .mem m size => writeMemory (k.address i m c) v size c
  | _ => c

end Config

/-! ## Flags -/

/-- `PF` and `AF` are bytes of `ThreadState`. -/
def Flag.stored : Flag → U64 → U64
  | .pf, v => Riscv.zextb v
  | .af, v => Riscv.zextb v
  | _, v => v

namespace State

variable {ρ : Type*}

def setFlag (s : State ρ) (f : Flag) (v : U64) : State ρ :=
  { s with flag := Function.update s.flag f (f.stored v) }

/-- `if (shouldEmitFlag(rip, f))` around code that computes `f`. -/
def emit (s : State ρ) (e : Flag → Bool) (f : Flag) (v : U64) : State ρ :=
  if e f then s.setFlag f v else s

def map (s : State ρ) (g : Core ρ → Core ρ) : State ρ := { s with core := g s.core }

/-- The flags after `writebackState` and `restoreState`, which keep them in bytes. -/
def throughThreadState (s : State ρ) : State ρ := { s with flag := fun f ↦ Riscv.zextb (s.flag f) }

@[simp] theorem core_setFlag (s : State ρ) (f : Flag) (v : U64) : (s.setFlag f v).core = s.core :=
  rfl

@[simp] theorem core_emit (s : State ρ) (e : Flag → Bool) (f : Flag) (v : U64) :
    (s.emit e f v).core = s.core := by
  rw [emit]
  split <;> rfl

@[simp] theorem core_map (s : State ρ) (g : Core ρ → Core ρ) : (s.map g).core = g s.core := rfl

@[simp] theorem core_throughThreadState (s : State ρ) : s.throughThreadState.core = s.core := rfl

end State

namespace Config

variable (k : Config)

/-- The two top bits of a carry vector, exclusive. -/
def topBits (size : Size) (v : U64) : U64 :=
  ((v >>> (size.bits - 1)) ^^^ (v >>> (size.bits - 2))) &&& 1

def updateOverflowSub (lhs rhs result : U64) (size : Size) : U64 :=
  topBits size (((~~~lhs ||| rhs) &&& result) ||| (~~~lhs &&& rhs))

def updateOverflowAdd (lhs rhs result : U64) (size : Size) : U64 :=
  topBits size ((~~~result &&& (lhs ||| rhs)) ||| (lhs &&& rhs))

def updateAuxiliaryAdd (lhs result : U64) : U64 := sltu (result &&& 0xf) (lhs &&& 0xf)

def updateAuxiliarySub (lhs rhs : U64) : U64 := sltu (lhs &&& 0xf) (rhs &&& 0xf)

def updateAuxiliaryAdc (lhs result cf result2 : U64) : U64 :=
  sltu (result &&& 0xf) (lhs &&& 0xf) ||| sltu (result2 &&& 0xf) cf

def updateAuxiliarySbb (lhs rhs result cf : U64) : U64 :=
  sltu (lhs &&& 0xf) (rhs &&& 0xf) ||| sltu (result &&& 0xf) cf

def updateCarryAdd (lhs result : U64) (size : Size) : U64 := sltu (k.zext size result) lhs

def updateCarrySub (lhs rhs : U64) : U64 := sltu lhs rhs

def updateCarryAdc (lhs result result2 cf : U64) (size : Size) : U64 :=
  sltu (k.zext size result) lhs ||| sltu (k.zext size result2) cf

def updateParity (result : U64) : U64 :=
  let pf :=
    if k.b then cpopw (result &&& 0xff)
    else
      let pf := (result >>> 4) ^^^ result
      let temp := pf ^^^ (pf >>> 2)
      (temp >>> 1) ^^^ temp
  (pf &&& 1) ^^^ 1

def updateZero (result : U64) (size : Size) : U64 := seqz (k.zext size result)

def updateSign (result : U64) (size : Size) : U64 := (result >>> (size.bits - 1)) &&& 1

end Config

/-- `getCond`, by the low four bits of the opcode. -/
def getCond (cond : Fin 16) (flag : Flag → U64) : U64 :=
  match cond.val with
  | 0 => flag .of
  | 1 => flag .of ^^^ 1
  | 2 => flag .cf
  | 3 => flag .cf ^^^ 1
  | 4 => flag .zf
  | 5 => flag .zf ^^^ 1
  | 6 => flag .cf ||| flag .zf
  | 7 => (flag .cf ||| flag .zf) ^^^ 1
  | 8 => flag .sf
  | 9 => flag .sf ^^^ 1
  | 10 => flag .pf
  | 11 => flag .pf ^^^ 1
  | 12 => flag .sf ^^^ flag .of
  | 13 => (flag .sf ^^^ flag .of) ^^^ 1
  | 14 => (flag .sf ^^^ flag .of) ||| flag .zf
  | _ => ((flag .sf ^^^ flag .of) ||| flag .zf) ^^^ 1

/-- `getFlags`. -/
def getFlags {ρ : Type*} (s : State ρ) : U64 :=
  let bit (v : BitVec 8) (n : ℕ) : U64 := v.setWidth 64 <<< n
  (s.flag .of <<< 11) ||| bit s.core.df 10 ||| (s.flag .sf <<< 7) ||| (s.flag .zf <<< 6) |||
    (s.flag .af <<< 4) ||| (s.flag .pf <<< 2) ||| s.flag .cf ||| 0b10 ||| 0x200 |||
    bit s.core.cpuidBit 21 ||| bit s.core.acBit 18

/-- `setFlags`. -/
def setFlags {ρ : Type*} (flags : U64) (s : State ρ) : State ρ :=
  let bit (n : ℕ) : U64 := (flags >>> n) &&& 1
  let core := { s.core with
    df := (bit 10).setWidth 8
    cpuidBit := (bit 21).setWidth 8
    acBit := (bit 18).setWidth 8 }
  let s := { s with core := core }
  s.setFlag .cf (bit 0) |>.setFlag .pf (bit 2) |>.setFlag .zf (bit 6) |>.setFlag .af (bit 4)
    |>.setFlag .sf (bit 7) |>.setFlag .of (bit 11)

end Jit

end Felix86
