import Felix86.V2.BooleanFlags
import Felix86.V2.Division
import Felix86.Lib.Numerals

/-!
# Stack instructions

`PUSH`, `POP`, `CALL`, `RET` and `LEAVE` move values between the stack and an operand, and the stack
pointer by the size of what is moved. The manual says at which moment each of them reads `RSP`:
`PUSH` and `CALL` find their operand before they decrement it, `POP` finds its destination after it
has incremented it.

The handlers read the live register, so their order of steps decides. `PUSH`, `CALL` and `RET` have
the right order. `POP` writes a destination in memory before it increments `RSP`, and after `POP SP`
it writes the popped word to the whole register. Near calls, returns and `LEAVE` have a fixed size,
whatever the operand size.
-/

namespace Felix86

namespace Jit

open Numerals Riscv

variable {ρ : Type*} (k : Config) (i : Insn)

/-! ## The stack pointer -/

/-- A number as the stack pointer holds it: all of a register in 64-bit mode, the lower half of one
in 32-bit mode. -/
def Config.wrap (v : U64) : U64 := (low k.stackWidth v).setWidth 64

/-- The core after a push. -/
def pushValue (size : Size) (v : U64) (c : Core ρ) : Core ρ :=
  let sp := k.wrap (c.gpr rsp - operandBytes size)
  { c.write rsp sp with mem := c.mem.store sp v size.bytes }

/-- The value that a pop finds. -/
def popped (size : Size) (c : Core ρ) : U64 := c.mem.load (c.gpr rsp) size.bytes

/-- The core after `RSP` has been incremented. -/
def moveRsp (n : U64) (c : Core ρ) : Core ρ := c.write rsp (k.wrap (c.gpr rsp + n))

/-! ## What the instructions should do -/

inductive StackOp
  | push
  | pop
  | call
  | ret
  | leave
deriving DecidableEq, Repr

def StackOp.mnemonic : StackOp → Mnemonic ρ
  | .push => .push
  | .pop => .pop
  | .call => .call
  | .ret => .ret
  | .leave => .leave

/-- The bytes that `RET` releases besides the return address. -/
def Insn.released : U64 :=
  match i.op0 with
  | .imm v _ => v
  | _ => 0

/-- What `PUSH` pushes: the operand, or the selector of a segment register. -/
def Insn.pushed (c : Core ρ) : U64 :=
  match i.op0 with
  | .seg seg => (c.segment seg).setWidth 64
  | op => (op.value k i i.width.bits c).setWidth 64

/-- Where `CALL` goes. -/
def Insn.callTarget (c : Core ρ) : BitVec i.width.bits :=
  if i.op0.isImm then (i.rip + i.length + displacement i).setWidth i.width.bits
  else i.op0.value k i i.width.bits c

/-- The destination of `POP`. Its address is found after the increment. -/
def Insn.popTo (v : U64) (c : Core ρ) : Core ρ :=
  match i.op0 with
  | .seg seg => felix86SetSegment (v &&& 0xffff) seg c
  | op => op.assign k i (v.setWidth op.size.bits) c

/-- What the instruction does to the guest's state. -/
def StackOp.expected (op : StackOp) (c : Core ρ) : Core ρ :=
  let n := operandBytes i.width
  match op with
  | .push => pushValue k i.width (i.pushed k c) c
  | .pop => i.popTo k (popped i.width c) (moveRsp k n c)
  | .call =>
    { pushValue k i.width (i.rip + i.length) c with rip := (i.callTarget k c).setWidth 64 }
  | .ret => { moveRsp k (n + i.released) c with rip := popped i.width c }
  | .leave =>
    -- the stack pointer is the frame pointer when the old frame pointer is popped
    let c' := c.write rsp (k.wrap (c.gpr rbp))
    (moveRsp k n c').write rbp
      (writePart i.width (c.gpr rbp) ((popped i.width c').setWidth i.width.bits))

/-- The assertion in `POP`. -/
def StackOp.Asserts (op : StackOp) : Prop := op = .pop → i.op0.isSeg → k.mode32

/-- From one state to the other the instruction has happened, without a failed assertion. -/
structure StackOp.Done (op : StackOp) (s s' : State ρ) : Prop where
  asserts : op.Asserts k i
  core : s'.core = op.expected k i s.core
  flag : s'.flag = s.flag

/-- The operands and operand sizes that the instruction can have. -/
structure StackOp.Operands (op : StackOp) : Prop where
  width : i.width = .word ∨ i.width = k.stackWidth
  push : op = .push → i.op0.Source i.width.bits ∨ i.op0.isSeg
  pop : op = .pop → i.op0.Place ∧ i.op0.size = i.width ∨ i.op0.isSeg
  call : op = .call → i.op0.Source i.width.bits

/-- When the handler does what it should. -/
def StackOp.Right (op : StackOp) (c : Core ρ) : Prop :=
  let n := operandBytes i.width
  match op with
  | .push =>
    -- the address of the store does not wrap, or memory has the value in both places, which the
    -- host has no memory for: above 4 GiB nothing of a 32-bit guest is mapped
    k.mode32 → n ≤ c.gpr rsp ∨
      c.mem.store (c.gpr rsp - n) (i.pushed k c) i.width.bytes = c.mem ∧
      c.mem.store (k.wrap (c.gpr rsp - n)) (i.pushed k c) i.width.bytes = c.mem
  | .pop =>
    match i.op0 with
    | .seg _ => k.mode32
    | .reg r _ => r = rsp → i.width = .word → (k.wrap (c.gpr rsp + n)).toNat < 2 ^ 16
    | .mem m size =>
      c.mem.store (k.address i m c) (popped i.width c) size.bytes =
        c.mem.store (k.address i m (moveRsp k n c)) (popped i.width c) size.bytes
    | .imm _ _ => True
  | .call | .ret | .leave => i.width = k.stackWidth

/-! ## The pointer on the host -/

section

variable {k i} {c : Core ρ} {v : U64}

theorem wrap_long (hmode : k.mode32 = false) (v : U64) : k.wrap v = v := by
  rw [Config.wrap, Config.stackWidth, hmode]
  exact BitVec.setWidth_eq v

theorem toNat_wrap_32 (hmode : k.mode32 = true) (v : U64) :
    (k.wrap v).toNat = v.toNat % 2 ^ 32 := by
  have hlow : (low .dword v).toNat = v.toNat % 2 ^ 32 := toNat_low .dword v
  have hwidth : k.stackWidth = .dword := by rw [Config.stackWidth, hmode]; rfl
  rw [Config.wrap, hwidth, BitVec.toNat_setWidth, hlow]
  omega

/-- A number of 32 bits is a stack pointer in either mode. -/
theorem toNat_wrap_of_lt (h : v.toNat < 2 ^ 32) : (k.wrap v).toNat = v.toNat := by
  cases hmode : k.mode32 with
  | false => rw [wrap_long hmode]
  | true => rw [toNat_wrap_32 hmode, Nat.mod_eq_of_lt h]

theorem merge_stack (old v : U64) : k.merge k.stackWidth old v = k.wrap v := by
  rw [k.merge_eq, Config.wrap]
  cases hmode : k.mode32 with
  | false =>
    have hwidth : k.stackWidth = .qword := by rw [Config.stackWidth, hmode]; rfl
    rw [hwidth]
    exact (BitVec.setWidth_eq _).symm
  | true =>
    have hwidth : k.stackWidth = .dword := by rw [Config.stackWidth, hmode]; rfl
    rw [hwidth]
    rfl

theorem setRef_stack (r : Ref) (v : U64) (c : Core ρ) :
    k.setRef r k.stackWidth v c = c.write r (k.wrap v) :=
  congrArg (c.write r) (merge_stack (c.gpr r) v)

theorem addRsp_eq (n : U64) (c : Core ρ) : addRsp k n c = moveRsp k n c := by
  rw [addRsp, setRef_stack, Core.gpr_write, moveRsp]
  exact Core.write_write c rsp _ _

end

/-! ## `PUSH` -/

section

variable {k i} {c : Core ρ} {v : U64}

/-- A register is stored as the value of the operand is. -/
theorem store_get {op : Operand} {size : Size} (hop : op.Source size.bits) (a : U64) (c : Core ρ) :
    c.mem.store a (k.get i op c) size.bytes =
      c.mem.store a ((op.value k i size.bits c).setWidth 64) size.bytes := by
  rw [← k.low_get i hop]
  exact congrArg Core.mem (Config.writeMemory_eq a (k.get i op c) size c)

theorem fastPush_eq (h : StackOp.push.Operands k i) (c : Core ρ) :
    fastPush k i c =
      { moveRsp k (-operandBytes i.width) c with
        mem := c.mem.store (c.gpr rsp - operandBytes i.width) (i.pushed k c) i.width.bytes } := by
  rcases h.push rfl with hop | hop
  · have hpushed : i.pushed k c = (i.op0.value k i i.width.bits c).setWidth 64 := by
      rw [Insn.pushed]
      cases hseg : i.op0 with
      | seg seg =>
        rw [hseg] at hop
        exact hop.elim
      | _ => rfl
    have hsrc : fastPush k i c = addRsp k (-operandBytes i.width) (Config.writeMemory
        (c.gpr rsp - operandBytes i.width) (k.get i i.op0 c) i.width c) := by
      rw [fastPush]
      cases hseg : i.op0 with
      | seg seg =>
        rw [hseg] at hop
        exact hop.elim
      | _ => rfl
    rw [hsrc, addRsp_eq, Config.writeMemory, store_get hop, hpushed]
    rfl
  · cases hseg : i.op0 with
    | seg seg =>
      rw [fastPush, addRsp_eq, Insn.pushed, hseg]
      rfl
    | _ =>
      rw [hseg] at hop
      cases hop

/-- In 32-bit mode the address of the store is not reduced to 32 bits. -/
theorem apart_of_wrap (hmode : k.mode32 = true) (hz : Low32 (c.gpr rsp)) {n : ℕ} (hn : n ≤ 8)
    (h : ¬ BitVec.ofNat 64 n ≤ c.gpr rsp) :
    Apart (c.gpr rsp - BitVec.ofNat 64 n) n (k.wrap (c.gpr rsp - BitVec.ofNat 64 n)) n := by
  intro j hj
  have hlow := low32_iff.mp hz
  rw [BitVec.le_def, BitVec.toNat_ofNat] at h
  have hwrap := toNat_wrap_32 hmode (c.gpr rsp - BitVec.ofNat 64 n)
  rw [BitVec.toNat_sub, BitVec.toNat_ofNat] at hwrap
  rw [BitVec.toNat_sub, BitVec.toNat_add, hwrap, BitVec.toNat_sub, BitVec.toNat_ofNat,
    BitVec.toNat_ofNat]
  omega

theorem push_iff (h : StackOp.push.Operands k i) (hz : k.mode32 → Zext c) :
    fastPush k i c = StackOp.push.expected k i c ↔ StackOp.push.Right k i c := by
  have hsub : c.gpr rsp + -operandBytes i.width = c.gpr rsp - operandBytes i.width :=
    (BitVec.sub_eq_add_neg ..).symm
  have hmem : fastPush k i c = StackOp.push.expected k i c ↔
      c.mem.store (c.gpr rsp - operandBytes i.width) (i.pushed k c) i.width.bytes =
        c.mem.store (k.wrap (c.gpr rsp - operandBytes i.width)) (i.pushed k c) i.width.bytes := by
    rw [fastPush_eq h, moveRsp, hsub]
    exact ⟨congrArg Core.mem, fun heq ↦ congrArg
      (fun mem ↦ { c.write rsp (k.wrap (c.gpr rsp - operandBytes i.width)) with mem := mem }) heq⟩
  rw [hmem]
  cases hmode : k.mode32 with
  | false =>
    rw [wrap_long hmode]
    exact iff_of_true rfl fun h32 ↦ absurd (hmode.symm.trans h32) Bool.false_ne_true
  | true =>
    have hlow := low32_iff.mp (hz hmode rsp)
    by_cases hle : operandBytes i.width ≤ c.gpr rsp
    · have hle' := BitVec.le_def.mp hle
      have hsame : k.wrap (c.gpr rsp - operandBytes i.width) =
          c.gpr rsp - operandBytes i.width := by
        apply BitVec.eq_of_toNat_eq
        rw [toNat_wrap_32 hmode, BitVec.toNat_sub_of_le hle]
        omega
      rw [hsame]
      exact iff_of_true rfl fun _ ↦ .inl hle
    · have hbytes := i.width.bytes_le
      have hapart := apart_of_wrap hmode (hz hmode rsp) hbytes hle
      refine (Mem.store_eq_store_iff c.mem _ hbytes hapart).trans ?_
      exact ⟨fun hboth _ ↦ .inr hboth, fun hright ↦ (hright hmode).resolve_left hle⟩

end

/-! ## `POP` -/

section

variable {k i} {c : Core ρ}

theorem load_and_ffff (m : Mem) (a : U64) {n : ℕ} (hn : 2 ≤ n) (hn' : n ≤ 8) :
    m.load a n &&& 0xffff = m.load a 2 := by
  have hmask : (m.load a n &&& 0xffff).toNat = (m.load a n).toNat % 2 ^ 16 :=
    toNat_and_mask _ (show 16 ≤ 64 by decide)
  have hword := Mem.load_lt m a (n := 2) (by decide)
  have hbytes : (m.load a n).toNat % 2 ^ (8 * 2) = (m.load a 2).toNat % 2 ^ (8 * 2) :=
    mod_of_bytes fun j hj ↦ by
      rw [byte_load m a hn' (by omega), byte_load m a (by decide) hj]
  apply BitVec.eq_of_toNat_eq
  rw [hmask]
  exact hbytes.trans (Nat.mod_eq_of_lt hword)

theorem StackOp.Operands.bytes {op : StackOp} (h : op.Operands k i) : 2 ≤ i.width.bytes := by
  rcases h.width with hw | hw
  · rw [hw]
    decide
  · rw [hw, Config.stackWidth]
    split <;> decide

theorem popped_lt (size : Size) (c : Core ρ) : (popped size c).toNat < 2 ^ size.bits := by
  rw [size.bits_eq]
  exact Mem.load_lt _ _ size.bytes_le

theorem pop_seg {seg : Seg} (h : StackOp.pop.Operands k i) (hop : i.op0 = .seg seg) (c : Core ρ) :
    popCore k i c = StackOp.pop.expected k i c := by
  have hload := load_and_ffff c.mem (c.gpr rsp) h.bytes i.width.bytes_le
  rw [popCore, StackOp.expected, Insn.popTo, hop]
  dsimp only
  rw [popped, hload, addRsp_eq]
  rfl

theorem pop_reg {r : Ref} {size : Size} (hop : i.op0 = .reg r size) (hr : r ≠ rsp) (c : Core ρ) :
    popCore k i c = StackOp.pop.expected k i c := by
  have hother : (moveRsp k (operandBytes i.width) c).gpr r = c.gpr r := by
    rw [moveRsp, Core.gpr_write, if_neg hr]
  rw [popCore, StackOp.expected, Insn.popTo, hop]
  dsimp only
  have hset := k.set_eq i (show (Operand.reg r size).Place from trivial) (popped i.width c) c
  rw [if_neg hr, addRsp_eq, ← popped, hset]
  simp only [Operand.assign, hother]
  rw [moveRsp, Core.gpr_write, if_neg hr.symm, Core.write_comm c hr]
  rfl

/-- After `POP` of the stack pointer itself the whole register is what has been popped. -/
theorem pop_rsp_iff {size : Size} (h : StackOp.pop.Operands k i) (hop : i.op0 = .reg rsp size) :
    popCore k i c = StackOp.pop.expected k i c ↔
      (i.width = .word → (k.wrap (c.gpr rsp + operandBytes i.width)).toNat < 2 ^ 16) := by
  obtain rfl : size = i.width := by
    rcases h.pop rfl with ⟨-, hsize⟩ | hseg
    · rwa [hop] at hsize
    · rw [hop] at hseg
      cases hseg
  have hcode : popCore k i c = c.write rsp (k.wrap (popped i.width c)) := by
    rw [popCore, hop]
    dsimp only
    rw [if_pos rfl, setRef_stack]
    exact Core.write_write c rsp _ _
  have hexpected : StackOp.pop.expected k i c = c.write rsp (writePart i.width
      (k.wrap (c.gpr rsp + operandBytes i.width)) (low i.width (popped i.width c))) := by
    rw [StackOp.expected, Insn.popTo, hop]
    dsimp only
    rw [Operand.assign, moveRsp, Core.gpr_write, if_pos rfl]
    exact Core.write_write c rsp _ _
  have hlt := popped_lt i.width c
  rw [hcode, hexpected, Core.write_inj]
  generalize popped i.width c = v at hlt
  by_cases hw : i.width = .word
  · rw [hw] at hlt ⊢
    have hwrap : (k.wrap v).toNat = v.toNat := toNat_wrap_of_lt (hlt.trans (by decide))
    have hlow : (low .word v).toNat = v.toNat := (toNat_low .word v).trans (Nat.mod_eq_of_lt hlt)
    have hv : v.toNat < 2 ^ 16 := hlt
    have hpart (old : U64) : (writePart .word old (low .word v)).toNat =
        old.toNat / 2 ^ 16 * 2 ^ 16 + v.toNat :=
      (toNat_writePart_word old _).trans (congrArg (_ + ·) hlow)
    rw [← BitVec.toNat_inj, hwrap, hpart]
    refine ⟨fun h' _ ↦ by omega, fun h' ↦ ?_⟩
    have hhigh := h' rfl
    omega
  · have hstack := h.width.resolve_left hw
    rw [hstack, ← k.merge_eq, merge_stack]
    exact iff_of_true rfl fun h' ↦ absurd h' (hstack ▸ hw)

theorem pop_mem_iff {m : MemOperand} {size : Size} (h : StackOp.pop.Operands k i)
    (hop : i.op0 = .mem m size) :
    popCore k i c = StackOp.pop.expected k i c ↔
      c.mem.store (k.address i m c) (popped i.width c) size.bytes =
        c.mem.store (k.address i m (moveRsp k (operandBytes i.width) c)) (popped i.width c)
          size.bytes := by
  obtain rfl : size = i.width := by
    rcases h.pop rfl with ⟨-, hsize⟩ | hseg
    · rwa [hop] at hsize
    · rw [hop] at hseg
      cases hseg
  have hcode : popCore k i c = { moveRsp k (operandBytes i.width) c with
      mem := c.mem.store (k.address i m c) (popped i.width c) i.width.bytes } := by
    rw [popCore, hop]
    dsimp only
    rw [addRsp_eq]
    rfl
  have hexpected : StackOp.pop.expected k i c = { moveRsp k (operandBytes i.width) c with
      mem := c.mem.store (k.address i m (moveRsp k (operandBytes i.width) c)) (popped i.width c)
        i.width.bytes } := by
    rw [StackOp.expected, Insn.popTo, hop]
    exact (Config.writeMemory_eq _ _ _ _).symm
  rw [hcode, hexpected]
  exact ⟨congrArg Core.mem, fun heq ↦ congrArg
    (fun mem ↦ { moveRsp k (operandBytes i.width) c with mem := mem }) heq⟩

end

/-! ## Instructions of one size -/

section

variable {k i} {c : Core ρ}

theorem operandBytes_stackWidth (k : Config) : operandBytes k.stackWidth = k.stackPointerSize := by
  rw [Config.stackWidth, Config.stackPointerSize]
  split <;> rfl

theorem wrap_eq_zext (v : U64) : k.wrap v = if k.mode32 then k.zext .dword v else v := by
  cases hmode : k.mode32 with
  | false => exact wrap_long hmode v
  | true =>
    apply BitVec.eq_of_toNat_eq
    rw [toNat_wrap_32 hmode, if_pos rfl, k.toNat_zext]
    rfl

/-- The pointer moves by different amounts to different places. -/
theorem wrap_add_inj {x a b : U64} : k.wrap (x + a) = k.wrap (x + b) ↔ k.wrap a = k.wrap b := by
  have hlow (v : U64) : low k.stackWidth (k.wrap v) = low k.stackWidth v :=
    (BitVec.setWidth_setWidth_of_le _ k.stackWidth.bits_le).trans (BitVec.setWidth_eq _)
  have hiff {v w : U64} : k.wrap v = k.wrap w ↔ low k.stackWidth v = low k.stackWidth w :=
    ⟨fun h ↦ by rw [← hlow v, h, hlow], congrArg (BitVec.setWidth 64)⟩
  rw [hiff, hiff, low_add, low_add, BitVec.add_right_inj]

theorem wrap_word_ne (k : Config) : k.wrap k.stackPointerSize ≠ k.wrap (operandBytes .word) := by
  rw [Ne, ← BitVec.toNat_inj, Config.stackPointerSize]
  rw [toNat_wrap_of_lt (by split <;> decide), toNat_wrap_of_lt (by decide)]
  split <;> decide

theorem wrap_neg_word_ne (k : Config) :
    k.wrap (-k.stackPointerSize) ≠ k.wrap (-operandBytes .word) := by
  intro h
  -- both moved up by the sum of the two sizes
  have hup := (wrap_add_inj (x := k.stackPointerSize + operandBytes .word)).mpr h
  have hword : k.stackPointerSize + operandBytes .word + -k.stackPointerSize =
      operandBytes .word := by
    ring
  have hsize : k.stackPointerSize + operandBytes .word + -operandBytes .word =
      k.stackPointerSize := by
    ring
  rw [hword, hsize] at hup
  exact wrap_word_ne k hup.symm

end

/-! ## `CALL`, `RET` and `LEAVE` -/

section

variable {k i} {c : Core ρ}

/-- A near call pushes a whole stack slot. -/
theorem fastCall_eq (h : StackOp.call.Operands k i) (hz : k.mode32 → Zext c)
    (hrip : c.rip = i.guestAddress) :
    fastCall k i c = { pushValue k k.stackWidth (i.rip + i.length) c with
      rip := if i.op0.isImm then k.wrap (i.rip + i.length + displacement i)
        else (i.op0.value k i i.width.bits c).setWidth 64 } := by
  have hsub : c.gpr rsp + -k.stackPointerSize = c.gpr rsp - operandBytes k.stackWidth := by
    rw [operandBytes_stackWidth]
    exact (BitVec.sub_eq_add_neg ..).symm
  have hpush (v : U64) :
      Config.writeMemory ((moveRsp k (-k.stackPointerSize) c).gpr rsp) v k.stackWidth
        (moveRsp k (-k.stackPointerSize) c) = pushValue k k.stackWidth v c := by
    rw [moveRsp, Core.gpr_write, if_pos rfl, hsub]
    rfl
  rw [fastCall]
  dsimp only
  rw [addRsp_eq, hpush, hpush, hrip]
  cases himm : i.op0.isImm with
  | true =>
    have hreturn : i.guestAddress + (i.rip - i.guestAddress + i.length) =
      i.rip + i.length := by ring
    have htarget : i.guestAddress + (i.rip - i.guestAddress + i.length + displacement i) =
        i.rip + i.length + displacement i := by ring
    rw [if_pos rfl, if_pos rfl, hreturn, jumpOffset, wrap_eq_zext, htarget]
  | false =>
    have hlt := get_source_lt k i hz (h.call rfl) himm
    have hget : (i.op0.value k i i.width.bits c).setWidth 64 = k.get i i.op0 c := by
      rw [← k.low_get i (h.call rfl)]
      apply BitVec.eq_of_toNat_eq
      rw [BitVec.toNat_setWidth, toNat_low, Nat.mod_eq_of_lt hlt,
        Nat.mod_eq_of_lt (k.get i i.op0 c).isLt]
    rw [if_neg Bool.false_ne_true, if_neg Bool.false_ne_true, hget]

theorem call_iff (h : StackOp.call.Operands k i) (hz : k.mode32 → Zext c)
    (hrip : c.rip = i.guestAddress) :
    fastCall k i c = StackOp.call.expected k i c ↔ i.width = k.stackWidth := by
  rw [fastCall_eq h hz hrip, StackOp.expected, Insn.callTarget]
  constructor
  · intro heq
    refine h.width.resolve_left fun hw ↦ ?_
    have hrsp := congrFun (congrArg Core.gpr heq) rsp
    simp only [pushValue, Core.gpr_write, if_true, hw] at hrsp
    rw [BitVec.sub_eq_add_neg, BitVec.sub_eq_add_neg, operandBytes_stackWidth] at hrsp
    exact wrap_neg_word_ne k (wrap_add_inj.mp hrsp)
  · intro hw
    rw [hw]
    split <;> rfl

theorem ret_iff (h : StackOp.ret.Operands k i) :
    fastRet k i c = StackOp.ret.expected k i c ↔ i.width = k.stackWidth := by
  have hcode : fastRet k i c = { moveRsp k (k.stackPointerSize + i.released) c with
      rip := popped k.stackWidth c } := by
    rw [fastRet, addRsp_eq]
    rfl
  rw [hcode, StackOp.expected]
  constructor
  · intro heq
    refine h.width.resolve_left fun hw ↦ ?_
    have hrsp := congrFun (congrArg Core.gpr heq) rsp
    simp only [moveRsp, Core.gpr_write, if_true, hw] at hrsp
    have hmoved (n : U64) : c.gpr rsp + (n + i.released) = c.gpr rsp + i.released + n := by ring
    rw [hmoved, hmoved] at hrsp
    exact wrap_word_ne k (wrap_add_inj.mp hrsp)
  · intro hw
    rw [hw, operandBytes_stackWidth]

/-- With a full operand size `LEAVE` works on the live register. -/
theorem fastLeave_full (hwidth : i.width = k.stackWidth) (c : Core ρ) :
    fastLeave k i c =
      (c.write rsp (k.wrap (c.gpr rbp + k.stackPointerSize))).write rbp
        (k.wrap (c.mem.load (c.gpr rbp) k.stackWidth.bytes)) := by
  have hhost : k.hostRef rbp k.stackWidth c = .live rbp := by
    rw [Config.stackWidth]
    cases hmode : k.mode32 with
    | false => rfl
    | true => exact if_pos hmode
  have hread : k.getRef rbp k.stackWidth c = c.gpr rbp := by
    rw [Config.stackWidth]
    cases hmode : k.mode32 with
    | false => rfl
    | true => exact if_pos hmode
  have hne : rbp ≠ rsp := by decide
  rw [fastLeave, hwidth, hhost, hread]
  simp only [Host.put, Host.val, setRef_stack, Core.gpr_write, if_true, if_neg hne]
  rw [BitVec.add_sub_cancel, Core.write_comm c hne, Core.write_write, Core.write_write]
  rfl

/-- A word of the frame pointer is not enough. -/
theorem gpr_fastLeave_word (hwidth : i.width = .word) (c : Core ρ) :
    ((fastLeave k i c).gpr rsp).toNat % 2 ^ 16 =
      ((c.gpr rbp).toNat + k.stackPointerSize.toNat) % 2 ^ 16 := by
  have hne : rsp ≠ rbp := by decide
  have hcode : (fastLeave k i c).gpr rsp =
      k.merge .word (c.gpr rsp) (k.getRef rbp .word c + k.stackPointerSize) := by
    rw [fastLeave, hwidth]
    simp only [Config.hostRef, Host.put, Host.val, Config.setRef, Core.gpr_write,
      if_true, if_neg hne]
  have hbp : (k.getRef rbp .word c).toNat = (c.gpr rbp).toNat % 2 ^ 16 := k.toNat_zext .word _
  rw [hcode, k.toNat_merge_word, BitVec.toNat_add, hbp]
  omega

theorem toNat_wrap_mod (v : U64) : (k.wrap v).toNat % 2 ^ 16 = v.toNat % 2 ^ 16 := by
  cases hmode : k.mode32 with
  | false => rw [wrap_long hmode]
  | true =>
    rw [toNat_wrap_32 hmode]
    omega

theorem leave_iff (h : StackOp.leave.Operands k i) (hz : k.mode32 → Zext c) :
    fastLeave k i c = StackOp.leave.expected k i c ↔ i.width = k.stackWidth := by
  have hwrap : k.wrap (c.gpr rbp) = c.gpr rbp := by
    cases hmode : k.mode32 with
    | false => exact wrap_long hmode _
    | true =>
      exact BitVec.eq_of_toNat_eq (toNat_wrap_of_lt (low32_iff.mp (hz hmode rbp)))
  have hexpected : StackOp.leave.expected k i c =
      (c.write rsp (k.wrap (c.gpr rbp + operandBytes i.width))).write rbp
        (writePart i.width (c.gpr rbp) (low i.width (c.mem.load (c.gpr rbp) i.width.bytes))) := by
    rw [StackOp.expected]
    simp only [moveRsp, popped, Core.gpr_write, if_true, hwrap, Core.write_write]
    rfl
  rw [hexpected]
  constructor
  · intro heq
    refine h.width.resolve_left fun hw ↦ ?_
    have hrsp := congrArg BitVec.toNat (congrFun (congrArg Core.gpr heq) rsp)
    have hcode := gpr_fastLeave_word (k := k) hw c
    have hne : rsp ≠ rbp := by decide
    simp only [Core.gpr_write, if_true, if_neg hne] at hrsp
    rw [hrsp, toNat_wrap_mod, hw, BitVec.toNat_add] at hcode
    have hbytes : (operandBytes .word).toNat = 2 := rfl
    have hsize : k.stackPointerSize.toNat = 4 ∨ k.stackPointerSize.toNat = 8 := by
      rw [Config.stackPointerSize]
      cases k.mode32
      · exact .inr rfl
      · exact .inl rfl
    omega
  · intro hw
    rw [fastLeave_full hw, hw, operandBytes_stackWidth, ← k.merge_eq, merge_stack]

end

/-! ## Every form -/

section

variable {k i} {e : Flag → Bool} {s : State ρ}

theorem pop_iff (h : StackOp.pop.Operands k i) (c : Core ρ) :
    StackOp.pop.Asserts k i ∧ popCore k i c = StackOp.pop.expected k i c ↔
      StackOp.pop.Right k i c := by
  rw [StackOp.Asserts, StackOp.Right]
  cases hop : i.op0 with
  | reg r size =>
    refine (and_iff_right fun _ hseg ↦ Bool.noConfusion hseg).trans ?_
    by_cases hr : r = rsp
    · subst hr
      exact (pop_rsp_iff h hop).trans ⟨fun hhigh _ ↦ hhigh, fun hhigh ↦ hhigh rfl⟩
    · exact iff_of_true (pop_reg hop hr c) fun hrsp ↦ absurd hrsp hr
  | mem m size =>
    refine (and_iff_right fun _ hseg ↦ Bool.noConfusion hseg).trans ?_
    exact pop_mem_iff h hop
  | imm v size =>
    rcases h.pop rfl with ⟨hplace, -⟩ | hseg
    · rw [hop] at hplace
      exact hplace.elim
    · rw [hop] at hseg
      cases hseg
  | seg seg =>
    exact ⟨fun hdone ↦ hdone.1 rfl rfl, fun hmode ↦ ⟨fun _ _ ↦ hmode, pop_seg h hop c⟩⟩

theorem done_map_iff {op : StackOp} (hop : op ≠ .pop) (g : Core ρ → Core ρ) :
    (∃ s', some (s.map g) = some s' ∧ op.Done k i s s') ↔ g s.core = op.expected k i s.core := by
  simp only [Option.some_inj, exists_eq_left']
  exact ⟨fun hdone ↦ hdone.core, fun hcore ↦ ⟨fun hpop ↦ absurd hpop hop, hcore, rfl⟩⟩

end

/-- A stack instruction does what the manual says exactly if its operand is not among those that the
handler finds at the wrong moment, and calls, returns and `LEAVE` have their full size. -/
theorem stacked_iff (op : StackOp) (e : Flag → Bool) (s : State ρ) (h : op.Operands k i)
    (hz : k.mode32 → Zext s.core) (hflags : BitFlags s) (hrip : s.core.rip = i.guestAddress) :
    (∃ s', Instr.exec k e ⟨op.mnemonic, i⟩ s = some s' ∧ op.Done k i s s') ↔
      op.Right k i s.core := by
  cases op with
  | push => exact (done_map_iff (by decide) (fastPush k i)).trans (push_iff h hz)
  | pop =>
    have hflag : (fastPop k i s).flag = s.flag := by
      rw [fastPop, segmentCall]
      split
      · exact funext fun f ↦ (hflags f).zextb
      · rfl
    have hcore : (fastPop k i s).core = popCore k i s.core := by
      rw [fastPop, segmentCall]
      split <;> rfl
    have hexec : Instr.exec k e ⟨StackOp.pop.mnemonic, i⟩ s = some (fastPop k i s) := rfl
    rw [hexec, ← pop_iff h, ← hcore]
    simp only [Option.some_inj, exists_eq_left']
    exact ⟨fun hdone ↦ ⟨hdone.asserts, hdone.core⟩, fun hdone ↦ ⟨hdone.1, hdone.2, hflag⟩⟩
  | call => exact (done_map_iff (by decide) (fastCall k i)).trans (call_iff h hz hrip)
  | ret => exact (done_map_iff (by decide) (fastRet k i)).trans (ret_iff h)
  | leave => exact (done_map_iff (by decide) (fastLeave k i)).trans (leave_iff h hz)

/-- `POP SP`. -/
def popSp : Insn := ((Mnemonic.pop : Mnemonic Unit).on .word (.reg rsp .word) (.imm 0 .byte)).insn

/-- `POP` of a quadword to the place `RSP` points to. -/
def popThrough : Insn :=
  { ((Mnemonic.pop : Mnemonic Unit).on .qword
    (.mem { base := .reg rsp .qword, index := none, shift := 0, disp := 0, segment := .ss } .qword)
    (.imm 0 .byte)).insn with addressWidth := .qword }

/-- `LEAVE` with an operand size prefix. -/
def leaveWord : Insn :=
  ((Mnemonic.leave : Mnemonic Unit).on .word (.imm 0 .byte) (.imm 0 .byte)).insn

/-- `POP FS`. -/
def popFs : Insn := ((Mnemonic.pop : Mnemonic Unit).on .qword (.seg .fs) (.imm 0 .byte)).insn

/-- `RSP` points to a quadword with a value. -/
def withTop (v : U64) : State Unit :=
  (State.withReg rsp 0x10000).map fun c ↦ { c with mem := c.mem.store 0x10000 v 8 }

theorem stacked_iff_popSp :
    (∃ s', Instr.exec (.default false) live ⟨StackOp.pop.mnemonic, popSp⟩ (withTop 1) = some s' ∧
      StackOp.pop.Done (.default false) popSp (withTop 1) s') ↔
      StackOp.pop.Right (.default false) popSp (withTop 1).core :=
  stacked_iff (.default false) popSp .pop live (withTop 1)
    ⟨.inl rfl, nofun, fun _ ↦ .inl ⟨trivial, rfl⟩, nofun⟩
    (fun h ↦ absurd h (by decide)) (fun f ↦ .inl rfl) rfl

/-- `POP SP` clears the rest of `RSP`, `POP` to `[RSP]` writes back to where the value was, `LEAVE`
of a word moves the pointer too far, and `POP FS` in 64-bit mode fails an assertion. -/
theorem not_stacked :
    (¬ ∃ s', Instr.exec (.default false) live ⟨StackOp.pop.mnemonic, popSp⟩
        (withTop 1) = some s' ∧
      StackOp.pop.Done (.default false) popSp (withTop 1) s') ∧
    (¬ ∃ s', Instr.exec (.default false) live ⟨StackOp.pop.mnemonic, popThrough⟩
        (withTop 1) = some s' ∧
      StackOp.pop.Done (.default false) popThrough (withTop 1) s') ∧
    (¬ ∃ s', Instr.exec (.default false) live ⟨StackOp.leave.mnemonic, leaveWord⟩
        (State.withReg rbp 0x10000) = some s' ∧
      StackOp.leave.Done (.default false) leaveWord (State.withReg rbp 0x10000) s') ∧
    ¬ ∃ s', Instr.exec (.default false) live ⟨StackOp.pop.mnemonic, popFs⟩ (withTop 1) = some s' ∧
      StackOp.pop.Done (.default false) popFs (withTop 1) s' := by
  refine ⟨?_, ?_, ?_, ?_⟩
  · rintro ⟨s', hexec, hdone⟩
    have hcode := congrArg (fun t ↦ t.map fun s : State Unit ↦ s.core.gpr rsp) hexec
    rw [Option.map_some, hdone.core] at hcode
    revert hcode
    decide +kernel
  · rintro ⟨s', hexec, hdone⟩
    have hcode := congrArg (fun t ↦ t.map fun s : State Unit ↦ s.core.mem 0x10008) hexec
    rw [Option.map_some, hdone.core] at hcode
    revert hcode
    decide +kernel
  · rintro ⟨s', hexec, hdone⟩
    have hcode := congrArg (fun t ↦ t.map fun s : State Unit ↦ s.core.gpr rsp) hexec
    rw [Option.map_some, hdone.core] at hcode
    revert hcode
    decide +kernel
  · rintro ⟨s', -, hdone⟩
    exact absurd (hdone.asserts rfl rfl) (by decide)

end Jit

end Felix86
