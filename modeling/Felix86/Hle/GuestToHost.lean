import Felix86.Lib.Straight
import Mathlib.Data.List.Pairwise

/-!
# Calls from the guest to the host

`GuestToHostMarshaller` emits the code around the call of a host function from a signature: one
character for the result, an underscore, one character for each argument. Four counters say where an
argument is for the guest and where it goes for the host.

Both conventions are stated on their own: `sysv` and `lp64d` assign places from left to right. They
part where the float registers are used up. Then the guest has further floats in memory, and so has
the code for the host, but the convention of the host takes the integer registers that are left.

`Meets` is the condition on the signature under which the code implements both. The other limits are
those of the immediates: the offsets of what is loaded and stored, and the size of the frame, which
is subtracted before the call and added after it.
-/

namespace Felix86

namespace Abi

open Riscv Straight

/-! ## The marshaller -/

/-- `gprarg`. -/
def gprarg : ℕ → Option Reg
  | 0 => some 10
  | 1 => some 11
  | 2 => some 12
  | 3 => some 13
  | 4 => some 14
  | 5 => some 15
  | 6 => some 16
  | 7 => some 17
  | _ => none

/-- `fprarg`. -/
def fprarg : ℕ → Option Reg
  | 0 => some 10
  | 1 => some 11
  | 2 => some 12
  | 3 => some 13
  | 4 => some 14
  | 5 => some 15
  | 6 => some 16
  | 7 => some 17
  | _ => none

/-- The numbers of `x86_ref_e`, with `X86_REF_RAX` as zero. -/
abbrev X86Ref := ℕ

def X86_REF_R15 : X86Ref := 15
def X86_REF_XMM0 : X86Ref := 32
def X86_REF_XMM15 : X86Ref := 47

/-- `x86arg`: `RDI`, `RSI`, `RDX`, `RCX`, `R8` and `R9`. -/
def x86arg : ℕ → Option X86Ref
  | 0 => some 7
  | 1 => some 6
  | 2 => some 2
  | 3 => some 1
  | 4 => some 8
  | 5 => some 9
  | _ => none

/-- `get_size`. -/
def getSize : Char → Option ℕ
  | 'x' => some 0
  | 'q' => some 8
  | 'd' => some 4
  | 'w' => some 2
  | 'b' => some 1
  | 'F' => some 4
  | 'D' => some 8
  | _ => none

/-- `x86_location`. -/
inductive X86Location
  | reg (ref : X86Ref)
  | stack (position : ℕ)
deriving DecidableEq, Repr

/-- `riscv_location`. -/
inductive RiscvLocation
  | gpr (index : Reg)
  | fpr (index : Reg)
  | stack (position : ℕ)
deriving DecidableEq, Repr

/-- `Marshalling`. -/
structure Marshalling where
  x86 : X86Location
  riscv : RiscvLocation
  size : ℕ
deriving DecidableEq, Repr

/-- The variables of the loop over the signature. -/
structure Counters where
  gprcount : ℕ
  fprcount : ℕ
  guestStackpos : ℕ
  hostStackpos : ℕ
deriving DecidableEq, Repr

/-- One round of the loop. -/
def marshalling (c : Counters) (type : Char) : Option (Marshalling × Counters) := do
  if type = 'x' ∨ type = 'q' ∨ type = 'd' ∨ type = 'w' ∨ type = 'b' then
    let size ← getSize type
    if c.gprcount < 6 then
      let x86Reg ← x86arg c.gprcount
      let riscvReg ← gprarg c.gprcount
      some (⟨.reg x86Reg, .gpr riscvReg, size⟩, { c with gprcount := c.gprcount + 1 })
    else if c.gprcount = 6 ∨ c.gprcount = 7 then
      -- two of the arguments in memory are in registers of the host
      let riscvReg ← gprarg c.gprcount
      some (⟨.stack c.guestStackpos, .gpr riscvReg, size⟩,
        { c with gprcount := c.gprcount + 1, guestStackpos := c.guestStackpos + 8 })
    else
      some (⟨.stack c.guestStackpos, .stack c.hostStackpos, size⟩,
        { c with
          gprcount := c.gprcount + 1
          guestStackpos := c.guestStackpos + 8
          hostStackpos := c.hostStackpos + 8 })
  else if type = 'F' ∨ type = 'D' then
    let size ← getSize type
    if c.fprcount < 8 then
      let riscvReg ← fprarg c.fprcount
      some (⟨.reg (X86_REF_XMM0 + c.fprcount), .fpr riscvReg, size⟩,
        { c with fprcount := c.fprcount + 1 })
    else
      some (⟨.stack c.guestStackpos, .stack c.hostStackpos, size⟩,
        { c with
          fprcount := c.fprcount + 1
          guestStackpos := c.guestStackpos + 8
          hostStackpos := c.hostStackpos + 8 })
  else none

/-- The loop over the arguments. -/
def marshallings : Counters → List Char → Option (List Marshalling × Counters)
  | c, [] => some ([], c)
  | c, type :: types => do
    let (m, c) ← marshalling c type
    let (ms, c) ← marshallings c types
    some (m :: ms, c)

/-- `sp`, `x7`, `a0`, `fa0`, `allocatedGPR(X86_REF_RSP)` and `threadStatePointer()`. -/
def sp : Reg := 2
def x7 : Reg := 7
def a0 : Reg := 10
def fa0 : Reg := 10
def rspReg : Reg := 9
def threadStatePointer : Reg := 27

/-- `offsetof` of the members of `ThreadState`. -/
def offsetGprs : ℕ := 0
def offsetXmm : ℕ := 200

/-- An instruction, and the assertion of the assembler about its immediate. `ADDI` has none. -/
def emit : Insn → Option (List Insn)
  | .addi rd rs imm => some [.addi rd rs imm]
  | .li rd value => some [.li rd value]
  | .slli rd rs shift => some [.slli rd rs shift]
  | .srli rd rs shift => some [.srli rd rs shift]
  | .load width rd imm rs =>
    if IsValidSigned12BitImm imm then some [.load width rd imm rs] else none
  | .loadu width rd imm rs =>
    if IsValidSigned12BitImm imm then some [.loadu width rd imm rs] else none
  | .store width rs2 imm rs1 =>
    if IsValidSigned12BitImm imm then some [.store width rs2 imm rs1] else none
  | .fload precision rd imm rs =>
    if IsValidSigned12BitImm imm then some [.fload precision rd imm rs] else none
  | .fstore precision rs2 imm rs1 =>
    if IsValidSigned12BitImm imm then some [.fstore precision rs2 imm rs1] else none

/-- `MV`. -/
def mv (rd rs : Reg) : Option (List Insn) := emit (.addi rd rs 0)

/-- The register and the offset from which an argument is loaded. -/
def address : X86Location → Option (Reg × ℕ)
  | .stack position => some (rspReg, position)
  | .reg ref =>
    if ref ≤ X86_REF_R15 then some (threadStatePointer, offsetGprs + ref * 8)
    else if X86_REF_XMM0 ≤ ref ∧ ref ≤ X86_REF_XMM15 then
      some (threadStatePointer, offsetXmm + (ref - X86_REF_XMM0) * 16)
    else none

/-- The load into an integer register. -/
def emitLoad (size : ℕ) (dest : Reg) (offset : ℕ) (addressReg : Reg) : Option (List Insn) :=
  match size with
  | 8 => emit (.load .double dest offset addressReg)
  | 4 => emit (.load .word dest offset addressReg)
  | 2 => emit (.load .half dest offset addressReg)
  | 1 => emit (.load .byte dest offset addressReg)
  | 0 => mv dest 0
  | _ => none

/-- The store into the frame. -/
def emitStore (size : ℕ) (dest : Reg) (position : ℕ) : Option (List Insn) :=
  match size with
  | 8 => emit (.store .double dest position sp)
  | 4 => emit (.store .word dest position sp)
  | 2 => emit (.store .half dest position sp)
  | 1 => emit (.store .byte dest position sp)
  | 0 => emit (.store .double 0 position sp)
  | _ => none

/-- One round of the loop over the marshallings. -/
def emitMarshalling (m : Marshalling) : Option (List Insn) := do
  let (addressReg, offset) ← address m.x86
  match m.riscv with
  | .gpr index => emitLoad m.size index offset addressReg
  | .stack position =>
    let load ← emitLoad m.size x7 offset addressReg
    let store ← emitStore m.size x7 position
    some (load ++ store)
  | .fpr index =>
    if addressReg = threadStatePointer then
      match m.size with
      | 8 => emit (.fload .double index offset addressReg)
      | 4 => emit (.fload .single index offset addressReg)
      | _ => some []
    else none

/-- `GuestToHostMarshaller::emitPrologue`, with `stack_size`. -/
def emitPrologue (signature : List Char) : Option (List Insn × ℕ) := do
  if signature[1]? = some '_' then
    let (ms, c) ← marshallings ⟨0, 0, 8, 0⟩ (signature.drop 2)
    let stackSize := (c.hostStackpos + 15) / 16 * 16
    let frame ← if stackSize ≠ 0 then emit (.addi sp sp (-stackSize)) else some []
    let code ← ms.mapM emitMarshalling
    some (frame ++ code.flatten, stackSize)
  else none

/-- The store of the result. -/
def emitResult (returnType : Char) : Option (List Insn) :=
  match returnType with
  | 'v' => some []
  | 'b' => emit (.store .byte a0 offsetGprs threadStatePointer)
  | 'w' => emit (.store .half a0 offsetGprs threadStatePointer)
  | 'd' => do
    let low ← emit (.store .word a0 offsetGprs threadStatePointer)
    let high ← emit (.store .word 0 (offsetGprs + 4) threadStatePointer)
    some (low ++ high)
  | 'q' => emit (.store .double a0 offsetGprs threadStatePointer)
  | 'F' => do
    let low ← emit (.fstore .single fa0 offsetXmm threadStatePointer)
    let high ← emit (.store .word 0 (offsetXmm + 4) threadStatePointer)
    let upper ← emit (.store .double 0 (offsetXmm + 8) threadStatePointer)
    some (low ++ high ++ upper)
  | 'D' => do
    let low ← emit (.fstore .double fa0 offsetXmm threadStatePointer)
    let upper ← emit (.store .double 0 (offsetXmm + 8) threadStatePointer)
    some (low ++ upper)
  | _ => none

/-- `GuestToHostMarshaller::emitEpilogue`. -/
def emitEpilogue (signature : List Char) (stackSize : ℕ) : Option (List Insn) := do
  let returnType ← signature[0]?
  let result ← emitResult returnType
  let frame ← if stackSize ≠ 0 then emit (.addi sp sp stackSize) else some []
  some (result ++ frame)

/-! ## The conventions -/

/-- The types of arguments. -/
inductive Ty
  | b
  | w
  | d
  | q
  | x
  | F
  | D
deriving DecidableEq, Repr

namespace Ty

def char : Ty → Char
  | b => 'b'
  | w => 'w'
  | d => 'd'
  | q => 'q'
  | x => 'x'
  | F => 'F'
  | D => 'D'

def isFloat : Ty → Bool
  | F => true
  | D => true
  | _ => false

/-- The bytes of a value. Nothing is passed of an argument that is zeroed. -/
def bytes : Ty → ℕ
  | b => 1
  | w => 2
  | d => 4
  | q => 8
  | x => 0
  | F => 4
  | D => 8

/-- What the host function is given. Integers are widened to a register. -/
def widen : Ty → U64 → U64
  | b, v => sextb v
  | w, v => sexth v
  | d, v => sextw v
  | x, _ => 0
  | _, v => v

/-- The bytes of a place that the convention says something about. It widens integers on the stack
as it does in registers; `widened` is whether that is asked for. -/
def significant (widened : Bool) : Ty → ℕ
  | b => if widened then 8 else 1
  | w => if widened then 8 else 2
  | d => if widened then 8 else 4
  | F => 4
  | _ => 8

/-- Integers that are narrower than a register. -/
def Narrow (t : Ty) : Prop := t = b ∨ t = w ∨ t = d

end Ty

/-- The types of results. -/
inductive Ret
  | v
  | b
  | w
  | d
  | q
  | F
  | D
deriving DecidableEq, Repr

def Ret.char : Ret → Char
  | v => 'v'
  | b => 'b'
  | w => 'w'
  | d => 'd'
  | q => 'q'
  | F => 'F'
  | D => 'D'

def signature (ret : Ret) (args : List Ty) : List Char := ret.char :: '_' :: args.map Ty.char

/-- A place for an argument of a guest function: a register, or a slot behind the return address. -/
inductive GuestPlace
  | gpr (i : ℕ)
  | xmm (i : ℕ)
  | stack (slot : ℕ)
deriving DecidableEq, Repr

/-- A place for an argument of a host function. -/
inductive HostPlace
  | gpr (i : ℕ)
  | fpr (i : ℕ)
  | stack (slot : ℕ)
deriving DecidableEq, Repr

/-- The convention of the guest, with the integer registers, the vector registers and the slots that
are taken. -/
def sysv : ℕ → ℕ → ℕ → List Ty → List GuestPlace
  | _, _, _, [] => []
  | gprs, xmms, slots, t :: ts =>
    if t.isFloat then
      if xmms < 8 then .xmm xmms :: sysv gprs (xmms + 1) slots ts
      else .stack slots :: sysv gprs xmms (slots + 1) ts
    else if gprs < 6 then .gpr gprs :: sysv (gprs + 1) xmms slots ts
    else .stack slots :: sysv gprs xmms (slots + 1) ts

/-- The convention of the host. Floats beyond the eighth are passed as integers are. -/
def lp64d : ℕ → ℕ → ℕ → List Ty → List HostPlace
  | _, _, _, [] => []
  | gprs, fprs, slots, t :: ts =>
    if t.isFloat ∧ fprs < 8 then .fpr fprs :: lp64d gprs (fprs + 1) slots ts
    else if gprs < 8 then .gpr gprs :: lp64d (gprs + 1) fprs slots ts
    else .stack slots :: lp64d gprs fprs (slots + 1) ts

/-- The numbers of `RDI`, `RSI`, `RDX`, `RCX`, `R8` and `R9`. -/
def sysvGpr (i : ℕ) : ℕ := [7, 6, 2, 1, 8, 9].getD i 0

namespace GuestPlace

/-- Registers of the guest are in `ThreadState` when host code runs. -/
def base : GuestPlace → Reg
  | gpr _ => threadStatePointer
  | xmm _ => threadStatePointer
  | stack _ => rspReg

def offset : GuestPlace → ℕ
  | gpr i => offsetGprs + sysvGpr i * 8
  | xmm i => offsetXmm + i * 16
  | stack slot => 8 + 8 * slot

/-- The lower bytes of what is there. -/
def value (p : GuestPlace) (m : Machine) (n : ℕ) : U64 :=
  m.mem.load (m.get p.base + BitVec.ofNat 64 p.offset) n

end GuestPlace

/-- The lower bytes are the same. -/
def LowBytes (n : ℕ) (a b : U64) : Prop := a.toNat % 2 ^ (8 * n) = b.toNat % 2 ^ (8 * n)

/-- The registers `a0` to `a7`, and `fa0` to `fa7`. -/
def argReg (i : ℕ) : Reg := BitVec.ofNat 5 (10 + i)

/-- The argument `v` is there. A float in an integer register or on the stack has undefined upper
bits. -/
def HostPlace.Holds (widened : Bool) (m : Machine) (t : Ty) (v : U64) : HostPlace → Prop
  | gpr i => LowBytes (if t.isFloat then t.bytes else 8) (m.get (argReg i)) (t.widen v)
  | fpr i => m.f (argReg i) = box (if t = .F then .single else .double) v
  | stack slot => LowBytes (t.significant widened)
      (m.mem.load (m.get sp + BitVec.ofNat 64 (8 * slot)) 8) (t.widen v)

/-- The host function returns: it keeps `sp` and the saved registers. -/
structure Returned (m m' : Machine) : Prop where
  sp : m'.get sp = m.get sp
  saved : m'.get threadStatePointer = m.get threadStatePointer

/-- The lower `n` bytes of a register are replaced. -/
def merge (n : ℕ) (old v : U64) : U64 :=
  old >>> (8 * n) <<< (8 * n) ||| v <<< (64 - 8 * n) >>> (64 - 8 * n)

namespace Ret

/-- `RAX` after the call: narrow results keep the upper bits, except that 32 bits clear them. -/
def rax : Ret → U64 → U64 → U64
  | b, old, value => merge 1 old value
  | w, old, value => merge 2 old value
  | d, _, value => zextw value
  | q, _, value => value
  | _, old, _ => old

/-- The lower half of `XMM0`. -/
def xmmLow : Ret → U64 → U64 → U64
  | F, _, value => zextw value
  | D, _, value => value
  | _, old, _ => old

/-- The upper half of `XMM0`. -/
def xmmHigh : Ret → U64 → U64
  | F, _ => 0
  | D, _ => 0
  | _, old => old

end Ret

/-- The result is where the guest expects it, and the rest of memory is as the host function left
it. -/
structure Result (ret : Ret) (state : U64) (m m' : Machine) : Prop where
  rax : m'.mem.load (state + BitVec.ofNat 64 offsetGprs) 8 =
    ret.rax (m.mem.load (state + BitVec.ofNat 64 offsetGprs) 8) (m.get a0)
  xmmLow : m'.mem.load (state + BitVec.ofNat 64 offsetXmm) 8 =
    ret.xmmLow (m.mem.load (state + BitVec.ofNat 64 offsetXmm) 8) (m.f fa0)
  xmmHigh : m'.mem.load (state + BitVec.ofNat 64 (offsetXmm + 8)) 8 =
    ret.xmmHigh (m.mem.load (state + BitVec.ofNat 64 (offsetXmm + 8)) 8)
  other : ∀ x, 8 ≤ (x - (state + BitVec.ofNat 64 offsetGprs)).toNat →
    16 ≤ (x - (state + BitVec.ofNat 64 offsetXmm)).toNat → m'.mem x = m.mem x

/-- The registers of the guest in `ThreadState` and its arguments in memory are not in the part of
the host's stack that the call uses. -/
structure Laid (args : List Ty) (stackSize : ℕ) (m : Machine) : Prop where
  state : Apart (m.get threadStatePointer) 456 (m.get sp - BitVec.ofNat 64 stackSize) stackSize
  guest : ∀ slot, GuestPlace.stack slot ∈ sysv 0 0 0 args →
    Apart (m.get rspReg + BitVec.ofNat 64 (8 + 8 * slot)) 8
      (m.get sp - BitVec.ofNat 64 stackSize) stackSize

/-- A call with this code, from its first instruction to its last. -/
structure Calls (widened : Bool) (ret : Ret) (args : List Ty) (prologue epilogue : List Insn)
    (m : Machine) : Prop where
  aligned : ((run prologue m).get sp).toNat % 16 = 0
  args : ∀ p ∈ args.zip ((sysv 0 0 0 args).zip (lp64d 0 0 0 args)),
    p.2.2.Holds widened (run prologue m) p.1 (p.2.1.value m p.1.bytes)
  restored : ∀ m', Returned (run prologue m) m' → (run epilogue m').get sp = m.get sp
  result : ∀ m', Returned (run prologue m) m' →
    Result ret (m.get threadStatePointer) m' (run epilogue m')

/-- The code for a signature is emitted, its immediates fit, and a call with the host's stack at
`stack` implements both conventions, whatever is in registers and memory. -/
def Marshals (widened : Bool) (ret : Ret) (args : List Ty) (stack : U64) : Prop :=
  ∃ prologue stackSize epilogue, emitPrologue (signature ret args) = some (prologue, stackSize) ∧
    emitEpilogue (signature ret args) stackSize = some epilogue ∧
    (∀ i ∈ prologue ++ epilogue, i.Fits) ∧
    ∀ m : Machine, m.get sp = stack → Laid args stackSize m →
      Calls widened ret args prologue epilogue m

/-! ## The condition -/

/-- An argument, with the numbers of integers and of floats before it. -/
structure Arg where
  ty : Ty
  ints : ℕ
  floats : ℕ
deriving DecidableEq, Repr

/-- The arguments of a signature, behind `ints` integers and `floats` floats. -/
def counted : ℕ → ℕ → List Ty → List Arg
  | _, _, [] => []
  | ints, floats, t :: ts =>
    ⟨t, ints, floats⟩ ::
      if t.isFloat then counted ints (floats + 1) ts else counted (ints + 1) floats ts

def ints (args : List Ty) : ℕ := args.countP fun t ↦ !t.isFloat

def floats (args : List Ty) : ℕ := args.countP Ty.isFloat

namespace Arg

/-- The guest passes the argument in memory. -/
def InMemory (a : Arg) : Prop := if a.ty.isFloat then 8 ≤ a.floats else 6 ≤ a.ints

/-- The arguments that the guest passes in memory before it. -/
def slot (a : Arg) : ℕ := a.ints - 6 + (a.floats - 8)

end Arg

/-- The signatures that the marshaller gets right: the integer registers are used up before a ninth
float, no argument in memory has more than 254 others before it, and at most 254 arguments are on
the stack of the host. -/
structure Meets (widened : Bool) (args : List Ty) : Prop where
  registers : ∀ a ∈ counted 0 0 args, a.ty.isFloat → 8 ≤ a.floats → 8 ≤ a.ints
  loads : ∀ a ∈ counted 0 0 args, a.ty ≠ .x → a.InMemory → a.slot ≤ 254
  frame : ints args - 8 + (floats args - 8) ≤ 254
  narrow : widened = true → ∀ a ∈ counted 0 0 args, a.ty.Narrow → a.ints < 8

/-! ## Where the arguments are -/

namespace Arg

/-- The place of the guest, from the numbers of arguments before it. -/
def guest (a : Arg) : GuestPlace :=
  if a.ty.isFloat then if a.floats < 8 then .xmm a.floats else .stack a.slot
  else if a.ints < 6 then .gpr a.ints
  else .stack a.slot

/-- The arguments that the code puts on the stack of the host before it. -/
def hostSlot (a : Arg) : ℕ := a.ints - 8 + (a.floats - 8)

/-- The place to which the code moves it. -/
def host (a : Arg) : HostPlace :=
  if a.ty.isFloat then if a.floats < 8 then .fpr a.floats else .stack a.hostSlot
  else if a.ints < 8 then .gpr a.ints
  else .stack a.hostSlot

/-- The place that the convention of the host has for it. -/
def prescribed (a : Arg) : HostPlace :=
  if a.ty.isFloat ∧ a.floats < 8 then .fpr a.floats
  else if a.ints + (a.floats - 8) < 8 then .gpr (a.ints + (a.floats - 8))
  else .stack (a.ints + (a.floats - 8) - 8)

end Arg

/-- The location that stands for a place. -/
def GuestPlace.location : GuestPlace → X86Location
  | gpr i => .reg (sysvGpr i)
  | xmm i => .reg (X86_REF_XMM0 + i)
  | stack slot => .stack (8 + 8 * slot)

def HostPlace.location : HostPlace → RiscvLocation
  | gpr i => .gpr (argReg i)
  | fpr i => .fpr (argReg i)
  | stack slot => .stack (8 * slot)

def Arg.marshalling (a : Arg) : Marshalling := ⟨a.guest.location, a.host.location, a.ty.bytes⟩

section Places

variable {args : List Ty} {g f : ℕ} {a : Arg}

theorem map_ty_counted (g f : ℕ) (args : List Ty) : (counted g f args).map Arg.ty = args := by
  induction args generalizing g f with
  | nil => rfl
  | cons t ts ih =>
    rw [counted]
    split
    · rw [List.map_cons, ih]
    · rw [List.map_cons, ih]

theorem sysv_eq (g f : ℕ) (args : List Ty) :
    sysv (min g 6) (min f 8) (g - 6 + (f - 8)) args = (counted g f args).map Arg.guest := by
  induction args generalizing g f with
  | nil => rfl
  | cons t ts ih =>
    rw [sysv, counted, List.map_cons, Arg.guest]
    dsimp only
    by_cases ht : t.isFloat = true
    · rw [if_pos ht, if_pos ht, if_pos ht, ← ih g (f + 1)]
      by_cases hf : f < 8
      · rw [if_pos (by omega), if_pos hf, Nat.min_eq_left (by omega : f ≤ 8),
          Nat.min_eq_left (by omega : f + 1 ≤ 8), show f + 1 - 8 = f - 8 by omega]
      · rw [if_neg (by omega), if_neg hf, Arg.slot, Nat.min_eq_right (by omega : 8 ≤ f),
          Nat.min_eq_right (by omega : 8 ≤ f + 1),
          show g - 6 + (f + 1 - 8) = g - 6 + (f - 8) + 1 by omega]
    · rw [if_neg ht, if_neg ht, if_neg ht, ← ih (g + 1) f]
      by_cases hg : g < 6
      · rw [if_pos (by omega), if_pos hg, Nat.min_eq_left (by omega : g ≤ 6),
          Nat.min_eq_left (by omega : g + 1 ≤ 6), show g + 1 - 6 = g - 6 by omega]
      · rw [if_neg (by omega), if_neg hg, Arg.slot, Nat.min_eq_right (by omega : 6 ≤ g),
          Nat.min_eq_right (by omega : 6 ≤ g + 1),
          show g + 1 - 6 + (f - 8) = g - 6 + (f - 8) + 1 by omega]

theorem lp64d_eq (g f : ℕ) (args : List Ty) :
    lp64d (min (g + (f - 8)) 8) (min f 8) (g + (f - 8) - 8) args =
      (counted g f args).map Arg.prescribed := by
  induction args generalizing g f with
  | nil => rfl
  | cons t ts ih =>
    rw [lp64d, counted, List.map_cons, Arg.prescribed]
    dsimp only
    by_cases hfpr : t.isFloat = true ∧ f < 8
    · obtain ⟨ht, hf⟩ := hfpr
      rw [if_pos ⟨ht, by omega⟩, if_pos ht, if_pos ⟨ht, hf⟩, ← ih g (f + 1),
        Nat.min_eq_left (by omega : f ≤ 8), Nat.min_eq_left (by omega : f + 1 ≤ 8),
        show f + 1 - 8 = f - 8 by omega]
    · -- the argument takes the next integer register or slot, whatever it is
      have hnext : lp64d (min (g + (f - 8) + 1) 8) (min f 8) (g + (f - 8) + 1 - 8) ts =
          (if t.isFloat = true then counted g (f + 1) ts else counted (g + 1) f ts).map
            Arg.prescribed := by
        by_cases ht : t.isFloat = true
        · have hf : 8 ≤ f := Nat.not_lt.mp fun hf ↦ hfpr ⟨ht, hf⟩
          rw [if_pos ht, ← ih g (f + 1), show g + (f + 1 - 8) = g + (f - 8) + 1 by omega,
            Nat.min_eq_right hf, Nat.min_eq_right (by omega : 8 ≤ f + 1)]
        · rw [if_neg ht, ← ih (g + 1) f, show g + 1 + (f - 8) = g + (f - 8) + 1 by omega]
      rw [if_neg (fun h ↦ hfpr ⟨h.1, by omega⟩), if_neg hfpr, ← hnext]
      by_cases hg : g + (f - 8) < 8
      · rw [if_pos (by omega), if_pos hg, Nat.min_eq_left (by omega : g + (f - 8) ≤ 8),
          Nat.min_eq_left (by omega : g + (f - 8) + 1 ≤ 8),
          show g + (f - 8) + 1 - 8 = g + (f - 8) - 8 by omega]
      · rw [if_neg (by omega), if_neg hg, Nat.min_eq_right (by omega : 8 ≤ g + (f - 8)),
          Nat.min_eq_right (by omega : 8 ≤ g + (f - 8) + 1),
          show g + (f - 8) + 1 - 8 = g + (f - 8) - 8 + 1 by omega]

theorem sysv_zero (args : List Ty) : sysv 0 0 0 args = (counted 0 0 args).map Arg.guest :=
  sysv_eq 0 0 args

theorem lp64d_zero (args : List Ty) : lp64d 0 0 0 args = (counted 0 0 args).map Arg.prescribed :=
  lp64d_eq 0 0 args

/-- The arguments with both of their places. -/
theorem zip_places (args : List Ty) : args.zip ((sysv 0 0 0 args).zip (lp64d 0 0 0 args)) =
    (counted 0 0 args).map fun a ↦ (a.ty, a.guest, a.prescribed) := by
  rw [sysv_zero, lp64d_zero, List.zip_map']
  nth_rewrite 1 [← map_ty_counted 0 0 args]
  rw [List.zip_map']

/-- The counters behind `g` integers and `f` floats. -/
def counters (g f : ℕ) : Counters := ⟨g, f, 8 + 8 * (g - 6 + (f - 8)), 8 * (g - 8 + (f - 8))⟩

theorem x86arg_eq : ∀ i < 6, x86arg i = some (sysvGpr i) := by decide

theorem gprarg_eq : ∀ i < 8, gprarg i = some (argReg i) := by decide

theorem fprarg_eq : ∀ i < 8, fprarg i = some (argReg i) := by decide

theorem getSize_char (t : Ty) : getSize t.char = some t.bytes := by cases t <;> rfl

theorem char_of_float {t : Ty} (h : t.isFloat = true) :
    ¬(t.char = 'x' ∨ t.char = 'q' ∨ t.char = 'd' ∨
    t.char = 'w' ∨ t.char = 'b') ∧ (t.char = 'F' ∨ t.char = 'D') := by
  revert h
  cases t <;> decide

theorem char_of_int {t : Ty} (h : ¬t.isFloat = true) : t.char = 'x' ∨ t.char = 'q' ∨ t.char = 'd' ∨
    t.char = 'w' ∨ t.char = 'b' := by
  revert h
  cases t <;> decide

theorem marshalling_float {t : Ty} (h : t.isFloat = true) (g f : ℕ) :
    Abi.marshalling (counters g f) t.char =
      some (Arg.marshalling ⟨t, g, f⟩, counters g (f + 1)) := by
  obtain ⟨hint, hfloat⟩ := char_of_float h
  rw [Abi.marshalling, if_neg hint, if_pos hfloat, getSize_char, Option.bind_eq_bind,
    Option.bind_some]
  by_cases hf : f < 8
  · have hnext : counters g (f + 1) = { counters g f with fprcount := f + 1 } := by
      simp only [counters, show f + 1 - 8 = f - 8 by omega]
    rw [if_pos (show (counters g f).fprcount < 8 from hf),
      show fprarg (counters g f).fprcount = some (argReg f) from fprarg_eq f hf,
        Option.bind_eq_bind, Option.bind_some,
      hnext]
    simp only [Arg.marshalling, Arg.guest, Arg.host, h, hf, if_true, GuestPlace.location,
      HostPlace.location]
    rfl
  · have hnext : counters g (f + 1) = ⟨g, f + 1, (counters g f).guestStackpos + 8,
        (counters g f).hostStackpos + 8⟩ := by
      simp only [counters, Counters.mk.injEq, true_and]
      omega
    rw [if_neg (show ¬(counters g f).fprcount < 8 from hf), hnext]
    simp only [Arg.marshalling, Arg.guest, Arg.host, h, hf, if_true, if_false, GuestPlace.location,
      HostPlace.location]
    rfl

theorem marshalling_int {t : Ty} (h : ¬t.isFloat = true) (g f : ℕ) :
    Abi.marshalling (counters g f) t.char =
      some (Arg.marshalling ⟨t, g, f⟩, counters (g + 1) f) := by
  rw [Abi.marshalling, if_pos (char_of_int h), getSize_char, Option.bind_eq_bind, Option.bind_some]
  by_cases hg : g < 6
  · have hnext : counters (g + 1) f = { counters g f with gprcount := g + 1 } := by
      simp only [counters, show g + 1 - 6 = g - 6 by omega, show g + 1 - 8 = g - 8 by omega]
    rw [if_pos (show (counters g f).gprcount < 6 from hg),
      show x86arg (counters g f).gprcount = some (sysvGpr g) from x86arg_eq g hg,
        Option.bind_eq_bind,
      Option.bind_some, show gprarg (counters g f).gprcount =
        some (argReg g) from gprarg_eq g (by omega),
      Option.bind_some, hnext]
    simp only [Arg.marshalling, Arg.guest, Arg.host, h, hg, if_true, if_false, GuestPlace.location,
      HostPlace.location, show g < 8 by omega, Bool.false_eq_true]
    rfl
  · rw [if_neg (show ¬(counters g f).gprcount < 6 from hg)]
    by_cases hg' : g = 6 ∨ g = 7
    · have hnext : counters (g + 1) f = { counters g f with
          gprcount := g + 1, guestStackpos := (counters g f).guestStackpos + 8 } := by
        simp only [counters, Counters.mk.injEq, true_and]
        omega
      rw [if_pos (show (counters g f).gprcount = 6 ∨ (counters g f).gprcount = 7 from hg'),
        show gprarg (counters g f).gprcount = some (argReg g) from gprarg_eq g (by omega),
        Option.bind_eq_bind, Option.bind_some, hnext]
      simp only [Arg.marshalling, Arg.guest, Arg.host, h, hg, if_true, if_false,
        GuestPlace.location, HostPlace.location, show g < 8 by omega, Bool.false_eq_true]
      rfl
    · have hnext : counters (g + 1) f = ⟨g + 1, f, (counters g f).guestStackpos + 8,
          (counters g f).hostStackpos + 8⟩ := by
        simp only [counters, Counters.mk.injEq, true_and]
        omega
      rw [if_neg (show ¬((counters g f).gprcount = 6 ∨ (counters g f).gprcount = 7) from hg'),
        hnext]
      simp only [Arg.marshalling, Arg.guest, Arg.host, h, hg, if_false, GuestPlace.location,
        HostPlace.location, show ¬g < 8 by omega, Bool.false_eq_true]
      rfl

/-- What the loop over the signature collects. -/
theorem marshallings_eq (g f : ℕ) (args : List Ty) :
    marshallings (counters g f) (args.map Ty.char) =
      some ((counted g f args).map Arg.marshalling,
          counters (g + ints args) (f + floats args)) := by
  induction args generalizing g f with
  | nil => rfl
  | cons t ts ih =>
    rw [List.map_cons, marshallings, counted, ints, floats, List.countP_cons, List.countP_cons]
    by_cases h : t.isFloat = true
    · rw [marshalling_float h, Option.bind_eq_bind, Option.bind_some]
      dsimp only
      rw [ih, Option.bind_eq_bind, Option.bind_some, if_pos h]
      simp only [List.map_cons, h, Bool.not_true, Bool.false_eq_true, if_false,
        if_true, ints, floats, Nat.add_zero, Nat.add_assoc, Nat.add_comm 1]
    · rw [marshalling_int h, Option.bind_eq_bind, Option.bind_some]
      dsimp only
      rw [ih, Option.bind_eq_bind, Option.bind_some, if_neg h]
      simp only [Bool.not_eq_true] at h
      simp only [List.map_cons, h, Bool.not_false, Bool.false_eq_true, if_false, if_true, ints,
        floats, Nat.add_zero, Nat.add_assoc, Nat.add_comm 1]

end Places

/-! ## What is emitted -/

/-- The load of an argument into an integer register. -/
def Ty.loadCode (rd : Reg) (offset : ℕ) (base : Reg) : Ty → List Insn
  | b => [.load .byte rd offset base]
  | w => [.load .half rd offset base]
  | d => [.load .word rd offset base]
  | q => [.load .double rd offset base]
  | x => [.addi rd 0 0]
  | F => [.load .word rd offset base]
  | D => [.load .double rd offset base]

/-- The store of an argument to the stack of the host. -/
def Ty.storeCode (position : ℕ) : Ty → List Insn
  | b => [.store .byte x7 position sp]
  | w => [.store .half x7 position sp]
  | d => [.store .word x7 position sp]
  | q => [.store .double x7 position sp]
  | x => [.store .double 0 position sp]
  | F => [.store .word x7 position sp]
  | D => [.store .double x7 position sp]

/-- The position on the stack of the host. -/
def HostPlace.position : HostPlace → ℕ
  | gpr _ => 0
  | fpr _ => 0
  | stack slot => 8 * slot

namespace Arg

variable (a : Arg)

def code : List Insn :=
  match a.host with
  | .gpr i => a.ty.loadCode (argReg i) a.guest.offset a.guest.base
  | .fpr i =>
    [.fload (if a.ty = .F then .single else .double) (argReg i) a.guest.offset a.guest.base]
  | .stack slot => a.ty.loadCode x7 a.guest.offset a.guest.base ++ a.ty.storeCode (8 * slot)

/-- The assembler accepts the offsets. An argument that is zeroed is not loaded. -/
def Emitted : Prop := (a.ty = .x ∨ a.guest.offset ≤ 2047) ∧ a.host.position ≤ 2047

instance : Decidable a.Emitted := inferInstanceAs (Decidable (_ ∧ _))

end Arg

/-- The size of the frame. -/
def frameSize (args : List Ty) : ℕ := (8 * (ints args - 8 + (floats args - 8)) + 15) / 16 * 16

def prologueCode (args : List Ty) : List Insn :=
  (if frameSize args ≠ 0 then [Insn.addi sp sp (-frameSize args)] else []) ++
    ((counted 0 0 args).map Arg.code).flatten

section Emission

variable {a : Arg} {args : List Ty} {g f : ℕ}

theorem isValid_natCast {n : ℕ} : IsValidSigned12BitImm n ↔ n ≤ 2047 := by
  rw [IsValidSigned12BitImm]
  omega

theorem emitLoad_eq (t : Ty) (rd base : Reg) (offset : ℕ) : emitLoad t.bytes rd offset base =
    if t = .x ∨ offset ≤ 2047 then some (t.loadCode rd offset base) else none := by
  cases t <;> simp [emitLoad, Ty.bytes, emit, isValid_natCast, Ty.loadCode, mv]

theorem emitStore_eq (t : Ty) (position : ℕ) : emitStore t.bytes x7 position =
    if position ≤ 2047 then some (t.storeCode position) else none := by
  cases t <;> simp [emitStore, Ty.bytes, emit, isValid_natCast, Ty.storeCode]

/-- A register of the guest is loaded from `ThreadState`. -/
theorem address_guest (a : Arg) :
    address a.guest.location = some (a.guest.base, a.guest.offset) := by
  rw [Arg.guest]
  split
  · split
    · next hf =>
      have hgpr : ¬X86_REF_XMM0 + a.floats ≤ X86_REF_R15 :=
        Nat.not_le.mpr (show 15 < 32 + a.floats by omega)
      have hxmm : X86_REF_XMM0 ≤ X86_REF_XMM0 + a.floats ∧ X86_REF_XMM0 + a.floats ≤
          X86_REF_XMM15 :=
        ⟨Nat.le_add_right .., show 32 + a.floats ≤ 47 by omega⟩
      rw [GuestPlace.location, address, if_neg hgpr, if_pos hxmm, Nat.add_sub_cancel_left]
      rfl
    · rfl
  · split
    · next hg =>
      have hle : ∀ i < 6, sysvGpr i ≤ X86_REF_R15 := by decide
      rw [GuestPlace.location, address, if_pos (hle a.ints hg)]
      rfl
    · rfl

theorem guest_of_fpr {i : ℕ} (h : a.host = .fpr i) :
    a.ty.isFloat = true ∧ i < 8 ∧ a.guest = .xmm i := by
  rw [Arg.host] at h
  split at h
  · next hfloat =>
    split at h
    · next hf =>
      obtain rfl := HostPlace.fpr.inj h
      exact ⟨hfloat, hf, by rw [Arg.guest, if_pos hfloat, if_pos hf]⟩
    · exact nomatch h
  · split at h
    · exact nomatch h
    · exact nomatch h

theorem emitMarshalling_bind (a : Arg) : emitMarshalling a.marshalling =
    match a.host with
    | .gpr i => emitLoad a.ty.bytes (argReg i) a.guest.offset a.guest.base
    | .stack slot => do
      let load ← emitLoad a.ty.bytes x7 a.guest.offset a.guest.base
      let store ← emitStore a.ty.bytes x7 (8 * slot)
      some (load ++ store)
    | .fpr _ => some a.code := by
  have haddress : address a.marshalling.x86 = some (a.guest.base, a.guest.offset) := address_guest a
  rw [emitMarshalling, haddress, Option.bind_eq_bind, Option.bind_some,
    show a.marshalling.riscv = a.host.location from rfl,
    show a.marshalling.size = a.ty.bytes from rfl, Arg.code]
  cases hhost : a.host with
  | gpr i => rfl
  | stack slot => rfl
  | fpr i =>
    obtain ⟨hfloat, hi, hguest⟩ := guest_of_fpr hhost
    have hoffset : IsValidSigned12BitImm (200 + i * 16) := ⟨by omega, by omega⟩
    rw [hguest]
    revert hfloat
    cases a.ty <;> simp [Ty.isFloat, Ty.bytes, emit, hoffset, GuestPlace.base, GuestPlace.offset,
      HostPlace.location, offsetXmm]

theorem emitMarshalling_eq (a : Arg) :
    emitMarshalling a.marshalling = if a.Emitted then some a.code else none := by
  rw [emitMarshalling_bind]
  by_cases h : a.Emitted
  · rw [if_pos h]
    obtain ⟨hload, hstore⟩ := h
    rw [Arg.code]
    cases hhost : a.host with
    | gpr i =>
      dsimp only
      rw [emitLoad_eq, if_pos hload]
    | fpr i => rfl
    | stack slot =>
      rw [hhost, HostPlace.position] at hstore
      dsimp only
      rw [emitLoad_eq, if_pos hload, emitStore_eq, if_pos hstore]
      rfl
  · rw [if_neg h]
    cases hhost : a.host with
    | gpr i =>
      dsimp only
      rw [emitLoad_eq, if_neg]
      exact fun hload ↦ h ⟨hload, by rw [hhost]; exact Nat.zero_le _⟩
    | fpr i =>
      obtain ⟨-, hi, hguest⟩ := guest_of_fpr hhost
      refine absurd ⟨.inr ?_, by rw [hhost]; exact Nat.zero_le _⟩ h
      rw [hguest, GuestPlace.offset, offsetXmm]
      omega
    | stack slot =>
      dsimp only
      rw [emitLoad_eq, emitStore_eq]
      by_cases hload : a.ty = .x ∨ a.guest.offset ≤ 2047
      · rw [if_pos hload, if_neg]
        · rfl
        · exact fun hstore ↦ h ⟨hload, by rw [hhost]; exact hstore⟩
      · rw [if_neg hload]
        rfl

theorem mapM_emitMarshalling (l : List Arg) : (l.map Arg.marshalling).mapM emitMarshalling =
    if ∀ a ∈ l, a.Emitted then some (l.map Arg.code) else none := by
  induction l with
  | nil => rfl
  | cons a l ih =>
    rw [List.map_cons, List.mapM_cons, emitMarshalling_eq, ih]
    by_cases ha : a.Emitted
    · by_cases hl : ∀ b ∈ l, b.Emitted
      · rw [if_pos ha, if_pos hl, if_pos (List.forall_mem_cons.mpr ⟨ha, hl⟩)]
        rfl
      · rw [if_pos ha, if_neg hl, if_neg fun h ↦ hl (List.forall_mem_cons.mp h).2]
        rfl
    · rw [if_neg ha, if_neg fun h ↦ ha (List.forall_mem_cons.mp h).1]
      rfl

theorem emitPrologue_eq (ret : Ret) (args : List Ty) : emitPrologue (signature ret args) =
    if ∀ a ∈ counted 0 0 args, a.Emitted then some (prologueCode args, frameSize args)
        else none := by
  have hloop : marshallings ⟨0, 0, 8, 0⟩ (args.map Ty.char) =
      some ((counted 0 0 args).map Arg.marshalling, counters (0 + ints args) (0 + floats args)) :=
    marshallings_eq 0 0 args
  have hsize : ((counters (0 + ints args) (0 + floats args)).hostStackpos + 15) / 16 * 16 =
      frameSize args := by rw [Nat.zero_add, Nat.zero_add]; rfl
  rw [emitPrologue, if_pos (show (signature ret args)[1]? = some '_' from rfl),
    show (signature ret args).drop 2 = args.map Ty.char from rfl, hloop, Option.bind_eq_bind,
    Option.bind_some]
  dsimp only
  rw [hsize, mapM_emitMarshalling, prologueCode]
  by_cases hframe : frameSize args ≠ 0
  · rw [if_pos hframe, if_pos hframe]
    split <;> rfl
  · rw [if_neg hframe, if_neg hframe]
    split <;> rfl

end Emission

end Abi

end Felix86
