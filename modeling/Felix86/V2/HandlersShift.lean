import Felix86.V2.Recompiler

/-!
# Handlers of shifts and rotates

A shift by an immediate is compiled for its count. A shift by `CL` tests the masked count at run
time and jumps over the flags when it is zero.
-/

namespace Felix86

namespace Jit

open Riscv

variable {ρ : Type*} (k : Config) (i : Insn) (e : Flag → Bool)

/-- The mask of a shift count. -/
def countMask (size : Size) : ℕ := if size = .qword then 63 else 31

/-- The count of a shift by an immediate. -/
def immediateCount : ℕ :=
  match i.op1 with
  | .imm v _ => v.toNat % 256 % (countMask i.width + 1)
  | _ => 0

/-- The masked count of a shift or rotate by a register or an immediate. -/
def variableCount (size : Size) (op : Operand) (c : Core ρ) : U64 :=
  k.get i op c &&& BitVec.ofNat 64 (countMask size)

def setShiftFlags (result : U64) (size : Size) (s : State ρ) : State ρ :=
  s.emit e .pf (k.updateParity result)
    |>.emit e .zf (k.updateZero result size)
    |>.emit e .sf (Config.updateSign result size)

@[simp] theorem core_setShiftFlags (result : U64) (size : Size) (s : State ρ) :
    (setShiftFlags k e result size s).core = s.core := by
  simp [setShiftFlags]

/-- A shift by an immediate zero only clears the upper half, where the operand is a 32-bit
register. -/
def shiftZero (s : State ρ) : State ρ :=
  match i.op0 with
  | .reg r .dword => s.map fun c ↦ k.setRef r .qword (k.get i i.op0 c) c
  | _ => s

/-! ## Immediate counts -/

def fastShlImm (s : State ρ) : State ρ :=
  let size := i.op0.size
  let dst := k.get i i.op0 s.core
  let shift := immediateCount i
  if shift ≠ 0 then
    let result := dst <<< shift
    let s := setShiftFlags k e result size s
    let s := s.emit e .cf ((dst >>> ((size.bits + 64 - shift) % 64)) &&& 1)
    let s := s.emit (fun f ↦ e f && shift = 1) .of
      (((dst >>> (size.bits - 1)) &&& 1) ^^^ s.flag .cf)
    s.map (k.set i i.op0 result)
  else shiftZero k i s

def fastShrImm (s : State ρ) : State ρ :=
  let size := i.op0.size
  let dst := k.get i i.op0 s.core
  let shift := immediateCount i
  if shift ≠ 0 then
    let result := dst >>> shift
    let s := setShiftFlags k e result size s
    let s := s.emit e .cf ((dst >>> (shift - 1)) &&& 1)
    let s := s.emit (fun f ↦ e f && shift = 1) .of ((dst >>> (size.bits - 1)) &&& 1)
    s.map (k.set i i.op0 result)
  else shiftZero k i s

def sarImmResult (size : Size) (dst : U64) (shift : ℕ) : U64 :=
  match size with
  | .byte | .byteHigh => (dst <<< 56).sshiftRight (if shift + 56 < 64 then 56 + shift else 63)
  | .word => (dst <<< 48).sshiftRight (if shift + 48 < 64 then 48 + shift else 63)
  | .dword => sraiw dst shift
  | .qword => dst.sshiftRight shift

def fastSarImm (s : State ρ) : State ρ :=
  let size := i.op0.size
  let dst := k.get i i.op0 s.core
  let shift := immediateCount i
  if shift ≠ 0 then
    let result := sarImmResult size dst shift
    let s := setShiftFlags k e result size s
    let s := s.emit e .cf ((dst >>> (shift - 1)) &&& 1)
    let s := s.emit e .of 0
    s.map (k.set i i.op0 result)
  else shiftZero k i s

/-! ## Counts in `CL` -/

/-- The source `SHIFT_noflags` shifts. A left shift may start from the whole register, since only
the lower part of the result is kept. -/
def shiftNoflagsSource (left : Bool) (c : Core ρ) : U64 :=
  match i.op0 with
  | .reg r .byteHigh => if left then c.gpr r >>> 8 else k.get i i.op0 c
  | .reg r .byte => if left then c.gpr r else k.get i i.op0 c
  | .reg r .word => if left then c.gpr r else k.get i i.op0 c
  | .reg r .dword => c.gpr r
  | op => k.get i op c

/-- `SHIFT_noflags`. -/
def shiftNoflags (left : Bool) (func64 func32 : U64 → U64 → U64) (s : State ρ) : State ρ :=
  let dst := shiftNoflagsSource k i left s.core
  let shift := match i.op1 with
    | .reg _ _ => s.core.gpr rcx
    | op => k.get i op s.core
  let result := if i.width = .qword then func64 dst shift else func32 dst shift
  s.map (k.set i i.op0 result)

def fastShl (s : State ρ) : State ρ :=
  if i.op1.isImm then fastShlImm k i e s
  else if k.noflagOpts && !(e .cf || e .of || e .pf || e .sf || e .zf) then
    shiftNoflags k i true sll sllw s
  else
    let size := i.op0.size
    let dst := k.get i i.op0 s.core
    let count := variableCount k i i.width i.op1 s.core
    let result := sll dst count
    let flags (s : State ρ) : State ρ :=
      let s := setShiftFlags k e result size s
      let s := s.emit e .cf (srl dst (BitVec.ofNat 64 size.bits - count) &&& 1)
      s.emit e .of (((result >>> (size.bits - 1)) &&& 1) ^^^ s.flag .cf)
    (if count = 0 then s else flags s).map (k.set i i.op0 result)

def fastShr (s : State ρ) : State ρ :=
  if i.op1.isImm then fastShrImm k i e s
  else if k.noflagOpts && !(e .cf || e .of || e .pf || e .sf || e .zf) then
    shiftNoflags k i false srl srlw s
  else
    let size := i.op0.size
    let dst := k.get i i.op0 s.core
    let count := variableCount k i i.width i.op1 s.core
    let result := srl dst count
    let flags (s : State ρ) : State ρ :=
      setShiftFlags k e result size s
        |>.emit e .cf (srl dst (count - 1) &&& 1)
        |>.emit e .of ((dst >>> (size.bits - 1)) &&& 1)
    (if count = 0 then s else flags s).map (k.set i i.op0 result)

def sarResult (size : Size) (dst count : U64) : U64 :=
  match size with
  | .byte | .byteHigh => sra ((dst <<< 56).sshiftRight 56) count
  | .word => sra ((dst <<< 48).sshiftRight 48) count
  | .dword => sraw dst count
  | .qword => sra dst count

def fastSar (s : State ρ) : State ρ :=
  if i.op1.isImm then fastSarImm k i e s
  else
    let size := i.op0.size
    let dst := k.get i i.op0 s.core
    let count := variableCount k i i.width i.op1 s.core
    let result := sarResult size dst count
    let flags (s : State ρ) : State ρ :=
      setShiftFlags k e result size s
        |>.emit e .cf (srl dst (count - 1) &&& 1)
        |>.emit e .of 0
    (if count = 0 then s else flags s).map (k.set i i.op0 result)

/-! ## Double shifts -/

/-- The parts of `SHLD` and `SHRD` that differ: the result and the bit that goes to `CF`. -/
def doubleShift (value carry : U64 → U64 → U64 → U64 → U64) (s : State ρ) : State ρ :=
  let dst := k.get i i.op0 s.core
  let src := k.get i i.op1 s.core
  let shift := variableCount k i i.width i.op2 s.core
  let shiftSub := BitVec.ofNat 64 i.width.bits - shift
  let result := if shift = 0 then dst else value dst src shift shiftSub
  let flags (s : State ρ) : State ρ :=
    s.emit e .cf (carry dst src shift shiftSub &&& 1)
      |>.emit e .of (((result ^^^ dst) >>> (i.width.bits - 1)) &&& 1)
      |>.emit e .zf (k.updateZero result i.width)
      |>.emit e .sf (Config.updateSign result i.width)
      |>.emit e .pf (k.updateParity result)
  (if shift = 0 then s else flags s).map (k.set i i.op0 result)

def fastShld (s : State ρ) : State ρ :=
  doubleShift k i e
    (fun dst src shift shiftSub ↦
      if i.width = .qword then sll dst shift ||| srl src shiftSub
      else sllw dst shift ||| srlw src shiftSub)
    (fun dst _ _ shiftSub ↦ srl dst shiftSub) s

def fastShrd (s : State ρ) : State ρ :=
  doubleShift k i e
    (fun dst src shift shiftSub ↦
      if i.width = .qword then srl dst shift ||| sll src shiftSub
      else srlw dst shift ||| sllw src shiftSub)
    (fun dst _ shift _ ↦ srl dst (shift - 1)) s

/-! ## Rotates -/

/-- `ROL` by an immediate when neither flag is needed. -/
def rolNoflags (size : Size) (s : State ρ) : State ρ :=
  let immediate := match i.op1 with
    | .imm v _ => v.toNat % 256 % size.bits
    | _ => 0
  let rotate := (size.bits - immediate) % size.bits
  if size = .dword then
    let dst := k.getWhole i i.op0 s.core
    let result :=
      if k.b then roriw dst rotate else slliw dst immediate ||| srliw dst rotate
    s.map (k.set i i.op0 result)
  else
    let dst := k.get i i.op0 s.core
    let result :=
      if k.b then rori dst rotate else (dst <<< immediate) ||| (dst >>> rotate)
    s.map (k.set i i.op0 result)

/-- The general path of `ROL`, for a count that is not zero. -/
def rolValue (size : Size) (dst count : U64) : U64 :=
  sll dst count ||| srl dst (-count &&& BitVec.ofNat 64 (size.bits - 1))

def fastRol (s : State ρ) : State ρ :=
  let size := i.op0.size
  if k.noflagOpts && (size = .qword || size = .dword) && i.op1.isImm && !(e .cf || e .of) then
    rolNoflags k i size s
  else
    let dst := k.get i i.op0 s.core
    let count := variableCount k i size i.op1 s.core
    if count = 0 then s
    else
      let result := rolValue size dst count
      let cf := result &&& 1
      let of := (result >>> (size.bits - 1)) ^^^ cf
      (s.setFlag .cf cf |>.setFlag .of of).map (k.set i i.op0 result)

def fastRor (s : State ρ) : State ρ :=
  let size := i.op0.size
  let dst := k.get i i.op0 s.core
  let count := variableCount k i size i.op1 s.core
  if count = 0 then s
  else
    let negCount := -count &&& BitVec.ofNat 64 (size.bits - 1)
    let result := srl dst count ||| sll dst negCount
    let cf := (result >>> (size.bits - 1)) &&& 1
    let of := ((result >>> (size.bits - 2)) &&& 1) ^^^ cf
    (s.setFlag .cf cf |>.setFlag .of of).map (k.set i i.op0 result)

/-- The count of `RCL` and `RCR`: the modulus is taken for 8 and 16 bits only. -/
def carryCount (c : Core ρ) : ℕ :=
  let count := variableCount k i i.width i.op1 c
  match i.width with
  | .byte | .byteHigh => (remuw count 9).toNat
  | .word => (remuw count 17).toNat
  | _ => count.toNat

/-- The loop of `RCL`, on the value and the carry. -/
def rclLoop (bits : ℕ) : ℕ → U64 × U64 → U64 × U64
  | 0, p => p
  | n + 1, (dst, cf) => rclLoop bits n ((dst <<< 1) ||| cf, (dst >>> (bits - 1)) &&& 1)

/-- The loop of `RCR`. -/
def rcrLoop (bits : ℕ) : ℕ → U64 × U64 → U64 × U64
  | 0, p => p
  | n + 1, (dst, cf) => rcrLoop bits n ((dst >>> 1) ||| (cf <<< (bits - 1)), dst &&& 1)

def fastRcl (s : State ρ) : State ρ :=
  let bits := i.width.bits
  let dst := k.get i i.op0 s.core
  let (result, cf) := rclLoop bits (carryCount k i s.core) (dst, s.flag .cf)
  let s := s.setFlag .cf cf |>.emit e .of (((result >>> (bits - 1)) &&& 1) ^^^ cf)
  s.map (k.set i i.op0 result)

def fastRcr (s : State ρ) : State ρ :=
  let bits := i.width.bits
  let dst := k.get i i.op0 s.core
  let of := ((dst >>> (bits - 1)) &&& 1) ^^^ s.flag .cf
  let (result, cf) := rcrLoop bits (carryCount k i s.core) (dst, s.flag .cf)
  let s := s.emit e .of of |>.setFlag .cf cf
  s.map (k.set i i.op0 result)

end Jit

end Felix86
