import Felix86.Hle.GuestToHost

/-!
# Calls through the marshaller

The code that is emitted for a signature (`Hle.GuestToHost`), run on the host. It sets up a frame,
goes through the arguments from the first to the last, moves each from where the guest's convention
has it to the place that the code has for it, calls the host function, and stores the result where
the guest expects it. `marshals_iff` says for which signatures, and for which stack of the host, the
function called finds its arguments where the host's convention has them and the guest gets the
result.

## Places

An argument has three places: the one of the guest's convention, the one the code moves it to, and
the one of the host's convention. That the first is read right and the second filled right does not
depend on the signature. Moves could get into each other's way, but no two arguments share a place,
host places lie in the frame or in registers that no guest place is in, and so each argument is read
as it was before the first move (`Filling`).

The second place is not always the third. The code counts integers and floats apart on the host as
on the guest, but the host passes a float for which there is no float register left in an integer
register, as long as there is one. The ninth float is therefore put on the stack where the host
function looks for it in `a0`.

## How a wrong place shows

That the condition is necessary is shown on one machine (`mark`), on which everything is zero except
for one byte of the guest's stack. Each argument that is not in its place has a byte that can be
chosen such that the host function finds something else, and the same machine shows what becomes of
an integer that is narrower than a register, if the host function expects its sign in the bytes
above it.
-/

namespace Felix86

namespace Abi

open Riscv Straight

/-! ## The result

After the call the result is in `a0` or `fa0`. It goes to `RAX` or to the lower half of `XMM0` in
the guest's state; the upper half of that register is cleared by the instruction on the guest, and
it has to be here. -/

def Ret.code : Ret → List Insn
  | v => []
  | b => [.store .byte a0 offsetGprs threadStatePointer]
  | w => [.store .half a0 offsetGprs threadStatePointer]
  | d => [.store .word a0 offsetGprs threadStatePointer,
      .store .word 0 (offsetGprs + 4) threadStatePointer]
  | q => [.store .double a0 offsetGprs threadStatePointer]
  | F => [.fstore .single fa0 offsetXmm threadStatePointer,
      .store .word 0 (offsetXmm + 4) threadStatePointer,
      .store .double 0 (offsetXmm + 8) threadStatePointer]
  | D => [.fstore .double fa0 offsetXmm threadStatePointer,
      .store .double 0 (offsetXmm + 8) threadStatePointer]

def epilogueCode (ret : Ret) (stackSize : ℕ) : List Insn :=
  ret.code ++ if stackSize ≠ 0 then [Insn.addi sp sp stackSize] else []

section Epilogue

variable {m : Machine}

theorem emitEpilogue_eq (ret : Ret) (args : List Ty) (stackSize : ℕ) :
    emitEpilogue (signature ret args) stackSize = some (epilogueCode ret stackSize) := by
  have hresult : emitResult ret.char = some ret.code := by cases ret <;> rfl
  rw [emitEpilogue, show (signature ret args)[0]? = some ret.char from rfl, Option.bind_eq_bind,
    Option.bind_some, hresult, Option.bind_eq_bind, Option.bind_some, epilogueCode]
  by_cases hframe : stackSize ≠ 0
  · rw [if_pos hframe, if_pos hframe]
    rfl
  · rw [if_neg hframe, if_neg hframe]
    rfl

theorem byte_merge {n j : ℕ} (old v : U64) (hn : n ≤ 8) (hj : j < 8) :
    byte (merge n old v) j = if j < n then byte v j else byte old j := by
  apply BitVec.eq_of_getLsbD_eq
  intro b hb
  rw [getLsbD_byte, merge, BitVec.getLsbD_or, BitVec.getLsbD_shiftLeft, BitVec.getLsbD_ushiftRight,
    BitVec.getLsbD_ushiftRight, BitVec.getLsbD_shiftLeft]
  by_cases hlt : j < n
  · rw [if_pos hlt, getLsbD_byte, show 64 - 8 * n + (8 * j + b) - (64 - 8 * n) = 8 * j + b by omega]
    simp [hb, show 8 * j + b < 8 * n by omega, show 64 - 8 * n + (8 * j + b) < 64 by omega]
  · rw [if_neg hlt, getLsbD_byte, show 8 * n + (8 * j + b - 8 * n) = 8 * j + b by omega]
    simp [hb, show ¬8 * j + b < 8 * n by omega, show 8 * j + b < 64 by omega,
      show ¬64 - 8 * n + (8 * j + b) < 64 by omega]

theorem byte_zextw {j : ℕ} (v : U64) : byte (zextw v) j = if j < 4 then byte v j else 0 := by
  apply BitVec.eq_of_getLsbD_eq
  intro b hb
  rw [getLsbD_byte, zextw, BitVec.getLsbD_setWidth, BitVec.getLsbD_setWidth]
  by_cases hlt : j < 4
  · rw [if_pos hlt, getLsbD_byte]
    simp [hb, show 8 * j + b < 32 by omega, show 8 * j + b < 64 by omega]
  · rw [if_neg hlt]
    simp [show ¬8 * j + b < 32 by omega]

theorem byte_zero (j : ℕ) : byte 0 j = 0 := by
  apply BitVec.eq_of_getLsbD_eq
  intro b hb
  rw [getLsbD_byte]
  simp

/-- The registers are as the host function left them. -/
theorem get_code (ret : Ret) (m : Machine) (r : Reg) : (run ret.code m).get r = m.get r := by
  cases ret <;> rfl

theorem get_epilogueCode (ret : Ret) {stackSize : ℕ} (h : stackSize ≤ 2047) (m : Machine) :
    (run (epilogueCode ret stackSize) m).get sp = m.get sp + BitVec.ofNat 64 stackSize := by
  rw [epilogueCode, run_append]
  by_cases hframe : stackSize ≠ 0
  · rw [if_pos hframe, run_cons, run_nil, exec, Machine.get_set_self (by decide), get_code,
      imm12_natCast h]
  · rw [if_neg hframe, run_nil, get_code, not_not.mp hframe]
    exact (BitVec.add_zero _).symm

theorem mem_epilogueCode (ret : Ret) (stackSize : ℕ) (m : Machine) :
    (run (epilogueCode ret stackSize) m).mem = (run ret.code m).mem := by
  rw [epilogueCode, run_append]
  split
  · rw [run_cons, run_nil, exec, Machine.mem_set]
  · rw [run_nil]

/-- Memory after the result has been stored. -/
def Ret.mem (ret : Ret) (m : Machine) : Mem :=
  let state := m.get threadStatePointer
  match ret with
  | .v => m.mem
  | .b => m.mem.store (state + BitVec.ofNat 64 0) (m.get a0) 1
  | .w => m.mem.store (state + BitVec.ofNat 64 0) (m.get a0) 2
  | .d =>
    (m.mem.store (state + BitVec.ofNat 64 0) (m.get a0) 4).store (state + BitVec.ofNat 64 4) 0 4
  | .q => m.mem.store (state + BitVec.ofNat 64 0) (m.get a0) 8
  | .F => ((m.mem.store (state + BitVec.ofNat 64 200) (m.f fa0) 4).store
      (state + BitVec.ofNat 64 204) 0 4).store (state + BitVec.ofNat 64 208) 0 8
  | .D => (m.mem.store (state + BitVec.ofNat 64 200) (m.f fa0) 8).store
      (state + BitVec.ofNat 64 208) 0 8

theorem mem_code (ret : Ret) (m : Machine) : (run ret.code m).mem = ret.mem m := by
  have h0 : imm12 offsetGprs = BitVec.ofNat 64 0 := rfl
  have h4 : imm12 (offsetGprs + 4) = BitVec.ofNat 64 4 := rfl
  have h200 : imm12 offsetXmm = BitVec.ofNat 64 200 := rfl
  have h204 : imm12 (offsetXmm + 4) = BitVec.ofNat 64 204 := rfl
  have h208 : imm12 (offsetXmm + 8) = BitVec.ofNat 64 208 := rfl
  cases ret <;> simp only [Ret.code, run_cons, run_nil, exec, Ret.mem, h0, h4, h200, h204, h208,
    Machine.get_setMem, Machine.mem_setMem, Machine.get_zero, Width.bytes, Precision.bytes]

theorem load_mem_rax (ret : Ret) (m : Machine) :
    (ret.mem m).load (m.get threadStatePointer + BitVec.ofNat 64 0) 8 =
      ret.rax (m.mem.load (m.get threadStatePointer + BitVec.ofNat 64 0) 8) (m.get a0) := by
  refine Mem.load_offset_eq fun j hj ↦ ?_
  cases ret <;> simp (disch := omega) only [Ret.mem, Ret.rax, Mem.store_offset, byte_merge,
    byte_zextw, byte_load_offset, byte_zero] <;> grind

theorem load_mem_xmmLow (ret : Ret) (m : Machine) :
    (ret.mem m).load (m.get threadStatePointer + BitVec.ofNat 64 200) 8 =
      ret.xmmLow (m.mem.load (m.get threadStatePointer + BitVec.ofNat 64 200) 8) (m.f fa0) := by
  refine Mem.load_offset_eq fun j hj ↦ ?_
  cases ret <;> simp (disch := omega) only [Ret.mem, Ret.xmmLow, Mem.store_offset, byte_zextw,
    byte_load_offset, byte_zero] <;> grind

theorem load_mem_xmmHigh (ret : Ret) (m : Machine) :
    (ret.mem m).load (m.get threadStatePointer + BitVec.ofNat 64 208) 8 =
      ret.xmmHigh (m.mem.load (m.get threadStatePointer + BitVec.ofNat 64 208) 8) := by
  refine Mem.load_offset_eq fun j hj ↦ ?_
  cases ret <;> simp (disch := omega) only [Ret.mem, Ret.xmmHigh, Mem.store_offset,
    byte_load_offset, byte_zero] <;> grind

/-- A store into a part of memory does not touch the rest. -/
theorem store_outside (mem : Mem) (base v : U64) {x : U64} {o k n N : ℕ} (hn : n ≤ 8)
    (hk : k + n ≤ N)
    (hN : N ≤ 2 ^ 32) (ho : o ≤ 2 ^ 32) (hx : N ≤ (x - (base + BitVec.ofNat 64 o)).toNat) :
    mem.store (base + BitVec.ofNat 64 (o + k)) v n x = mem x := by
  have hbase := base.isLt
  have hlt := x.isLt
  rw [Mem.store_apply _ _ _ hn, if_neg]
  simp only [BitVec.toNat_sub, BitVec.toNat_add, BitVec.toNat_ofNat] at hx ⊢
  omega

theorem mem_other (ret : Ret) (m : Machine) {x : U64}
    (hrax : 8 ≤ (x - (m.get threadStatePointer + BitVec.ofNat 64 0)).toNat)
    (hxmm : 16 ≤ (x - (m.get threadStatePointer + BitVec.ofNat 64 200)).toNat) :
    ret.mem m x = m.mem x := by
  have hgpr : ∀ (mem : Mem) (v : U64) (i n : ℕ), n ≤ 8 → i + n ≤ 8 →
      mem.store (m.get threadStatePointer + BitVec.ofNat 64 i) v n x = mem x := by
    intro mem v i n hn hi
    have hstore := store_outside mem (m.get threadStatePointer) v hn hi (by decide) (by decide) hrax
    rwa [Nat.zero_add] at hstore
  have hvec : ∀ (mem : Mem) (v : U64) (i n : ℕ), n ≤ 8 → 200 ≤ i → i + n ≤ 216 →
      mem.store (m.get threadStatePointer + BitVec.ofNat 64 i) v n x = mem x := by
    intro mem v i n hn hle hi
    obtain ⟨k, rfl⟩ := Nat.exists_eq_add_of_le hle
    exact store_outside mem _ v hn (by omega) (by decide) (by decide) hxmm
  cases ret <;> dsimp only [Ret.mem]
  · rw [hgpr _ _ _ _ (by decide) (by decide)]
  · rw [hgpr _ _ _ _ (by decide) (by decide)]
  · rw [hgpr _ _ _ _ (by decide) (by decide), hgpr _ _ _ _ (by decide) (by decide)]
  · rw [hgpr _ _ _ _ (by decide) (by decide)]
  · rw [hvec _ _ _ _ (by decide) (by decide) (by decide),
      hvec _ _ _ _ (by decide) (by decide) (by decide),
      hvec _ _ _ _ (by decide) (by decide) (by decide)]
  · rw [hvec _ _ _ _ (by decide) (by decide) (by decide),
      hvec _ _ _ _ (by decide) (by decide) (by decide)]

/-- The result is stored where the guest expects it. -/
theorem result_epilogueCode (ret : Ret) (stackSize : ℕ) (m : Machine) :
    Result ret (m.get threadStatePointer) m (run (epilogueCode ret stackSize) m) := by
  have hmem : (run (epilogueCode ret stackSize) m).mem = ret.mem m := by
    rw [mem_epilogueCode, mem_code]
  refine ⟨?_, ?_, ?_, fun x hrax hxmm ↦ ?_⟩
  · rw [hmem]
    exact load_mem_rax ret m
  · rw [hmem]
    exact load_mem_xmmLow ret m
  · rw [hmem]
    exact load_mem_xmmHigh ret m
  · rw [hmem]
    exact mem_other ret m hrax hxmm

end Epilogue

/-! ## Filling a place

One argument: a load with the extension that its type has on the guest, and for a slot of the stack
a store of as many bytes as the type has. What is above these bytes in the slot stays as it was. -/

/-- What the load of an argument leaves in an integer register. -/
def Ty.extended : Ty → U64 → U64
  | F, v => sextw v
  | t, v => t.widen v

/-- The bytes that are written to the stack of the host. -/
def Ty.stored : Ty → ℕ
  | x => 8
  | t => t.bytes

namespace HostPlace

/-- What the code of an argument does. -/
def fill (m : Machine) (t : Ty) (v : U64) : HostPlace → Machine
  | gpr i => m.set (argReg i) (t.extended v)
  | fpr i => m.setF (argReg i) (box (if t = .F then .single else .double) v)
  | stack slot => (m.set x7 (t.extended v)).setMem
      (m.mem.store (m.get sp + BitVec.ofNat 64 (8 * slot)) (t.extended v) t.stored)

/-- There is such a register, or the slot is in a frame of `n` bytes. -/
def Valid (n : ℕ) : HostPlace → Prop
  | gpr i => i < 8
  | fpr i => i < 8
  | stack slot => 8 * slot + 8 ≤ n

variable {p p' : HostPlace} {m : Machine} {t t' : Ty} {v v' : U64} {n : ℕ} {widened : Bool}

theorem argReg_ne {i : ℕ} (hi : i < 8) {r : Reg} (hr : r.toNat < 10 ∨ 18 ≤ r.toNat) :
    r ≠ argReg i := by
  rintro rfl
  rw [argReg, BitVec.toNat_ofNat] at hr
  omega

theorem argReg_injective {i j : ℕ} (hi : i < 8) (hj : j < 8) (h : i ≠ j) : argReg i ≠ argReg j := by
  intro heq
  have hnat := congrArg BitVec.toNat heq
  rw [argReg, argReg, BitVec.toNat_ofNat, BitVec.toNat_ofNat] at hnat
  omega

theorem get_fill (hp : p.Valid n) {r : Reg} (hr : r.toNat < 10 ∨ 18 ≤ r.toNat) (hx7 : r ≠ x7) :
    (p.fill m t v).get r = m.get r := by
  cases p with
  | gpr i => exact Machine.get_set_of_ne (argReg_ne hp hr)
  | fpr i => rfl
  | stack slot => exact Machine.get_set_of_ne hx7

theorem stored_le (t : Ty) : t.stored ≤ 8 := by cases t <;> decide

/-- Nothing outside of the frame is written. -/
theorem mem_fill (hp : p.Valid n) (hn : n ≤ 2 ^ 32) {x : U64} (hx : n ≤ (x - m.get sp).toNat) :
    (p.fill m t v).mem x = m.mem x := by
  cases p with
  | gpr i => rw [fill, Machine.mem_set]
  | fpr i => rfl
  | stack slot =>
    have hp : 8 * slot + 8 ≤ n := hp
    have hle := stored_le t
    have hfar : n ≤ (x - (m.get sp + BitVec.ofNat 64 0)).toNat := by
      rw [show BitVec.ofNat 64 0 = 0#64 from rfl, BitVec.add_zero]
      exact hx
    have hstore := store_outside m.mem (m.get sp) (t.extended v) hle (k := 8 * slot) (by omega) hn
      (by decide) hfar
    rwa [Nat.zero_add] at hstore

theorem lowBytes_of_bytes {a b : U64} (h : ∀ j < n, byte a j = byte b j) : LowBytes n a b :=
  mod_of_bytes h

theorem byte_sextw {j : ℕ} (hj : j < 4) (v : U64) : byte (sextw v) j = byte v j :=
  byte_congr hj (toNat_sextw_mod v)

/-- The bytes that count are those of the argument. -/
theorem byte_extended {j : ℕ} (hj : j < t.significant widened) :
    byte (t.extended v) j = byte (t.widen v) j := by
  cases t with
  | F => exact byte_sextw hj v
  | _ => rfl

theorem significant_le (h : widened = true → ¬t.Narrow) : t.significant widened ≤ t.stored := by
  cases widened with
  | false => cases t <;> decide
  | true =>
    have hnarrow := h rfl
    revert hnarrow
    cases t <;> simp [Ty.Narrow, Ty.significant, Ty.stored, Ty.bytes]

/-- What has been stored in a slot. -/
theorem byte_stored (mem : Mem) (base w : U64) {slot k j : ℕ} (hk : k ≤ 8) (hj : j < k)
    (hslot : 8 * slot + 8 ≤ 2 ^ 32) :
    byte ((mem.store (base + BitVec.ofNat 64 (8 * slot)) w k).load
      (base + BitVec.ofNat 64 (8 * slot)) 8) j = byte w j := by
  rw [byte_load_offset _ _ _ le_rfl (by omega), Mem.store_offset _ _ _ hk (by omega) (by omega),
    if_pos ⟨by omega, by omega⟩, Nat.add_sub_cancel_left]

/-- A place holds what it has been filled with. -/
theorem holds_fill (hp : p.Valid n) (hn : n ≤ 2 ^ 32)
    (hwide : ∀ slot, p = .stack slot → widened = true → ¬t.Narrow)
    (hfpr : ∀ i, p = .gpr i → t.isFloat = false) : p.Holds widened (p.fill m t v) t v := by
  cases p with
  | gpr i =>
    have hint := hfpr i rfl
    have hreg : (0 : Reg) ≠ argReg i := argReg_ne hp (.inl (by decide))
    have hvalue : t.extended v = t.widen v := by
      cases t with
      | F => exact nomatch hint
      | _ => rfl
    rw [Holds, fill, Machine.get_set_self hreg.symm, hvalue]
    rfl
  | fpr i => exact Machine.f_setF_self
  | stack slot =>
    have hp : 8 * slot + 8 ≤ n := hp
    have hle := significant_le (hwide slot rfl)
    refine lowBytes_of_bytes fun j hj ↦ ?_
    rw [← byte_extended hj]
    exact byte_stored m.mem (m.get sp) (t.extended v) (stored_le t) (by omega) (by omega)

/-- Filling another place does not change it. -/
theorem Holds.fill (h : p.Holds widened m t v) (hp : p.Valid n) (hp' : p'.Valid n) (hn : n ≤ 2 ^ 32)
    (hne : p ≠ p') : p.Holds widened (p'.fill m t' v') t v := by
  cases p with
  | gpr i =>
    have hget : (p'.fill m t' v').get (argReg i) = m.get (argReg i) := by
      cases p' with
      | gpr j => exact Machine.get_set_of_ne (argReg_injective hp hp' fun hij ↦ hne (by rw [hij]))
      | fpr j => rfl
      | stack slot =>
        have hx7 : x7 ≠ argReg i := argReg_ne hp (.inl (by decide))
        exact Machine.get_set_of_ne hx7.symm
    rw [Holds, hget]
    exact h
  | fpr i =>
    have hf : (p'.fill m t' v').f (argReg i) = m.f (argReg i) := by
      cases p' with
      | gpr j => rw [HostPlace.fill, Machine.f_set]
      | fpr j => exact Machine.f_setF_of_ne (argReg_injective hp hp' fun hij ↦ hne (by rw [hij]))
      | stack slot => rw [HostPlace.fill, Machine.f_setMem, Machine.f_set]
    rw [Holds, hf]
    exact h
  | stack slot =>
    have hsp : (p'.fill m t' v').get sp = m.get sp :=
      get_fill hp' (.inl (by decide)) (by decide)
    have hload : (p'.fill m t' v').mem.load (m.get sp + BitVec.ofNat 64 (8 * slot)) 8 =
        m.mem.load (m.get sp + BitVec.ofNat 64 (8 * slot)) 8 := by
      cases p' with
      | gpr j => rw [HostPlace.fill, Machine.mem_set]
      | fpr j => rfl
      | stack slot' =>
        have hslot : slot ≠ slot' := fun hij ↦ hne (by rw [hij])
        have hp : 8 * slot + 8 ≤ n := hp
        have hp' : 8 * slot' + 8 ≤ n := hp'
        have hle := stored_le t'
        exact Mem.load_store_of_apart _ _ hle (apart_of_offsets _ (by omega) (by omega) (by omega))
    rw [Holds, hsp, hload]
    exact h

end HostPlace

/-! ## Running the code

All arguments, one after the other. The induction carries that the registers with addresses are
those at the start, that memory outside of the frame is, and that the places filled so far hold
their arguments. -/

section Order

variable {args : List Ty} {g f : ℕ} {a b : Arg}

/-- The second argument comes later. -/
structure Arg.Before (a b : Arg) : Prop where
  ints : a.ints ≤ b.ints
  floats : a.floats ≤ b.floats
  lt : if a.ty.isFloat then a.floats < b.floats else a.ints < b.ints

theorem le_of_mem_counted (h : a ∈ counted g f args) : g ≤ a.ints ∧ f ≤ a.floats := by
  induction args generalizing g f with
  | nil => exact nomatch h
  | cons t ts ih =>
    obtain rfl | h := List.mem_cons.mp h
    · exact ⟨le_rfl, le_rfl⟩
    · split at h
      · have hle := ih h
        omega
      · have hle := ih h
        omega

theorem lt_of_mem_counted (h : a ∈ counted g f args) :
    a.ints ≤ g + ints args ∧ a.floats ≤ f + floats args ∧
      if a.ty.isFloat then a.floats < f + floats args else a.ints < g + ints args := by
  induction args generalizing g f with
  | nil => exact nomatch h
  | cons t ts ih =>
    rw [ints, floats, List.countP_cons, List.countP_cons]
    by_cases ht : t.isFloat = true
    · rw [counted, if_pos ht] at h
      simp only [ht, Bool.not_true, Bool.false_eq_true, if_false, if_true]
      obtain rfl | h := List.mem_cons.mp h
      · rw [if_pos ht]
        dsimp only
        omega
      · obtain ⟨hints, hfloats, hlt⟩ := ih h
        rw [ints] at hints hlt
        rw [floats] at hfloats hlt
        refine ⟨by omega, by omega, ?_⟩
        split at hlt
        · next hfloat => rw [if_pos hfloat]; omega
        · next hint => rw [if_neg hint]; omega
    · rw [counted, if_neg ht] at h
      simp only [Bool.not_eq_true] at ht
      simp only [ht, Bool.not_false, Bool.false_eq_true, if_false, if_true]
      obtain rfl | h := List.mem_cons.mp h
      · simp only [ht, Bool.false_eq_true, if_false]
        omega
      · obtain ⟨hints, hfloats, hlt⟩ := ih h
        rw [ints] at hints hlt
        rw [floats] at hfloats hlt
        refine ⟨by omega, by omega, ?_⟩
        split at hlt
        · next hfloat => rw [if_pos hfloat]; omega
        · next hint => rw [if_neg hint]; omega

theorem pairwise_counted (g f : ℕ) (args : List Ty) : (counted g f args).Pairwise Arg.Before := by
  induction args generalizing g f with
  | nil => exact List.Pairwise.nil
  | cons t ts ih =>
    refine List.pairwise_cons.mpr ⟨fun b hb ↦ ?_, ?_⟩
    · by_cases ht : t.isFloat = true
      · rw [if_pos ht] at hb
        obtain ⟨hints, hfloats⟩ := le_of_mem_counted hb
        exact ⟨hints, Nat.le_of_succ_le hfloats, by rw [if_pos ht]; exact hfloats⟩
      · rw [if_neg ht] at hb
        obtain ⟨hints, hfloats⟩ := le_of_mem_counted hb
        exact ⟨Nat.le_of_succ_le hints, hfloats, by rw [if_neg ht]; exact hints⟩
    · split
      · exact ih g (f + 1)
      · exact ih (g + 1) f

/-- No two arguments are moved to one place. -/
theorem Arg.Before.host_ne (h : a.Before b) : a.host ≠ b.host := by
  obtain ⟨hints, hfloats, hlt⟩ := h
  rw [Arg.host, Arg.host, Arg.hostSlot, Arg.hostSlot]
  split at hlt <;> split_ifs <;> simp_all <;> omega

/-- No two arguments come from one place. -/
theorem Arg.Before.guest_ne (h : a.Before b) : a.guest ≠ b.guest := by
  obtain ⟨hints, hfloats, hlt⟩ := h
  rw [Arg.guest, Arg.guest, Arg.slot, Arg.slot]
  split at hlt <;> split_ifs <;> simp_all <;> omega

theorem frameSize_mod (args : List Ty) : frameSize args % 16 = 0 := Nat.mul_mod_left _ _

theorem le_frameSize (args : List Ty) :
    8 * (ints args - 8 + (floats args - 8)) ≤ frameSize args := by
  rw [frameSize]
  omega

theorem valid_host (h : a ∈ counted 0 0 args) : a.host.Valid (frameSize args) := by
  obtain ⟨hints, hfloats, hlt⟩ := lt_of_mem_counted h
  have hframe := le_frameSize args
  rw [Nat.zero_add] at hints hfloats hlt
  rw [Nat.zero_add] at hlt
  rw [Arg.host, Arg.hostSlot]
  split at hlt
  · next ht =>
    rw [if_pos ht]
    split
    · next hf => exact hf
    · next hf =>
      change 8 * (a.ints - 8 + (a.floats - 8)) + 8 ≤ frameSize args
      omega
  · next ht =>
    rw [if_neg ht]
    split
    · next hg => exact hg
    · next hg =>
      change 8 * (a.ints - 8 + (a.floats - 8)) + 8 ≤ frameSize args
      omega

end Order

section Run

variable {args : List Ty} {a : Arg} {m m' m₀ : Machine} {widened : Bool}

theorem run_loadCode {t : Ty} {offset : ℕ} (h : t = .x ∨ offset ≤ 2047) (rd base : Reg)
    (m : Machine) :
    run (t.loadCode rd offset base) m =
      m.set rd (t.extended (m.mem.load (m.get base + BitVec.ofNat 64 offset) t.bytes)) := by
  by_cases ht : t = .x
  · rw [ht, Ty.loadCode, run_cons, run_nil, exec, Machine.get_zero]
    rfl
  · have himm := imm12_natCast (h.resolve_left ht)
    revert ht
    cases t <;> simp [Ty.loadCode, exec, himm, Ty.extended, Ty.widen, Ty.bytes, extend, Width.bytes]

theorem run_storeCode {t : Ty} {position : ℕ} (h : position ≤ 2047) (hx : t = .x → m.get x7 = 0) :
    run (t.storeCode position) m =
      m.setMem (m.mem.store (m.get sp + BitVec.ofNat 64 position) (m.get x7) t.stored) := by
  have himm := imm12_natCast h
  by_cases ht : t = .x
  · rw [hx ht, ht, Ty.storeCode, run_cons, run_nil, exec, Machine.get_zero, himm]
    rfl
  · revert ht
    cases t <;> simp [Ty.storeCode, exec, himm, Ty.stored, Ty.bytes, Width.bytes]

/-- The code of an argument fills its place with the argument. -/
theorem run_code (h : a.Emitted) (m : Machine) :
    run a.code m = a.host.fill m a.ty (a.guest.value m a.ty.bytes) := by
  obtain ⟨hload, hstore⟩ := h
  rw [Arg.code]
  cases hhost : a.host with
  | gpr i => exact run_loadCode hload _ _ m
  | fpr i =>
    obtain ⟨hfloat, hi, hguest⟩ := guest_of_fpr hhost
    have himm : imm12 (GuestPlace.xmm i).offset = BitVec.ofNat 64 (GuestPlace.xmm i).offset := by
      refine imm12_natCast ?_
      rw [GuestPlace.offset, offsetXmm]
      omega
    dsimp only
    rw [run_cons, run_nil, exec, HostPlace.fill, GuestPlace.value, hguest, himm]
    revert hfloat
    cases a.ty <;> simp [Ty.isFloat, Ty.bytes, Precision.bytes]
  | stack slot =>
    rw [hhost, HostPlace.position] at hstore
    have hx7 : ∀ v, (m.set x7 v).get x7 = v := fun v ↦ Machine.get_set_self (by decide)
    have hsp : ∀ v, (m.set x7 v).get sp = m.get sp := fun v ↦ Machine.get_set_of_ne (by decide)
    dsimp only
    rw [run_append, run_loadCode hload, run_storeCode hstore, hx7, hsp, Machine.mem_set]
    · rfl
    · intro ht
      rw [hx7, ht]
      rfl

/-- While the places are filled, the registers with addresses stay, and memory outside of the frame
does. -/
structure Filling (args : List Ty) (m₀ m : Machine) : Prop where
  sp : m.get sp = m₀.get sp
  rsp : m.get rspReg = m₀.get rspReg
  state : m.get threadStatePointer = m₀.get threadStatePointer
  mem : ∀ x, frameSize args ≤ (x - m₀.get Abi.sp).toNat → m.mem x = m₀.mem x

theorem filling_refl (args : List Ty) (m : Machine) : Filling args m m :=
  ⟨rfl, rfl, rfl, fun _ _ ↦ rfl⟩

theorem Filling.base (h : Filling args m₀ m) (p : GuestPlace) : m.get p.base = m₀.get p.base := by
  cases p with
  | gpr i => exact h.state
  | xmm i => exact h.state
  | stack slot => exact h.rsp

theorem Filling.fill (h : Filling args m₀ m) (hn : frameSize args ≤ 2 ^ 32) {p : HostPlace}
    (hp : p.Valid (frameSize args)) (t : Ty) (v : U64) : Filling args m₀ (p.fill m t v) where
  sp := (HostPlace.get_fill hp (.inl (by decide)) (by decide)).trans h.sp
  rsp := (HostPlace.get_fill hp (.inl (by decide)) (by decide)).trans h.rsp
  state := (HostPlace.get_fill hp (.inr (by decide)) (by decide)).trans h.state
  mem x hx := (HostPlace.mem_fill hp hn (by rw [h.sp]; exact hx)).trans (h.mem x hx)

/-- Places of the guest are not in the frame. -/
theorem Laid.apart {stackSize : ℕ} (h : Laid args stackSize m) (ha : a ∈ counted 0 0 args) :
    Apart (m.get a.guest.base + BitVec.ofNat 64 a.guest.offset) 8
      (m.get sp - BitVec.ofNat 64 stackSize) stackSize := by
  have hmem : a.guest ∈ sysv 0 0 0 args := by
    rw [sysv_zero]
    exact List.mem_map_of_mem ha
  have hstate : ∀ o, o + 8 ≤ 456 → Apart (m.get threadStatePointer + BitVec.ofNat 64 o) 8
      (m.get sp - BitVec.ofNat 64 stackSize) stackSize := by
    intro o ho i hi
    have hfar := h.state (o + i) (by omega)
    rwa [BitVec.ofNat_add, ← BitVec.add_assoc] at hfar
  cases hguest : a.guest with
  | gpr i =>
    have hlt : i < 6 := by
      rw [Arg.guest] at hguest
      split_ifs at hguest with _ _ hfew
      · obtain rfl := GuestPlace.gpr.inj hguest
        exact hfew
    have hreg : ∀ i < 6, offsetGprs + sysvGpr i * 8 + 8 ≤ 456 := by decide
    exact hstate _ (hreg i hlt)
  | xmm i =>
    have hlt : i < 8 := by
      rw [Arg.guest] at hguest
      split_ifs at hguest with _ hfew
      · obtain rfl := GuestPlace.xmm.inj hguest
        exact hfew
    exact hstate _ (show 200 + i * 16 + 8 ≤ 456 by omega)
  | stack slot =>
    rw [hguest] at hmem
    exact h.guest slot hmem

/-- The frame is set up. -/
theorem run_frame (hsize : frameSize args ≤ 2048) (m : Machine) :
    ∃ m₀, run (prologueCode args) m = (counted 0 0 args).foldl (fun m a ↦ run a.code m) m₀ ∧
      m₀.get sp = m.get sp - BitVec.ofNat 64 (frameSize args) ∧ (∀ r ≠ sp, m₀.get r = m.get r) ∧
      m₀.f = m.f ∧ m₀.mem = m.mem := by
  rw [prologueCode, run_append, run_flatten, List.foldl_map]
  refine ⟨_, rfl, ?_⟩
  by_cases hframe : frameSize args ≠ 0
  · rw [if_pos hframe, run_cons, run_nil, exec]
    refine ⟨?_, fun r hr ↦ Machine.get_set_of_ne hr, Machine.f_set, Machine.mem_set⟩
    rw [Machine.get_set_self (by decide), imm12_neg hsize, BitVec.sub_eq_add_neg]
  · rw [if_neg hframe, run_nil, not_not.mp hframe]
    exact ⟨(BitVec.sub_zero _).symm, fun _ _ ↦ rfl, rfl, rfl⟩

/-- The arguments that are left are still those of the call. -/
theorem Filling.value (h : Filling args m₀ m) (hlaid : Laid args (frameSize args) m')
    (hsp : m₀.get Abi.sp = m'.get Abi.sp - BitVec.ofNat 64 (frameSize args))
    (hregs : ∀ r ≠ Abi.sp, m₀.get r = m'.get r) (hmem : m₀.mem = m'.mem)
    (ha : a ∈ counted 0 0 args) {n : ℕ} (hn : n ≤ 8) : a.guest.value m n = a.guest.value m' n := by
  have hbase : m.get a.guest.base = m'.get a.guest.base := by
    rw [h.base]
    refine hregs _ ?_
    cases a.guest with
    | gpr i => exact show threadStatePointer ≠ Abi.sp by decide
    | xmm i => exact show threadStatePointer ≠ Abi.sp by decide
    | stack slot => exact show rspReg ≠ Abi.sp by decide
  rw [GuestPlace.value, GuestPlace.value, hbase]
  refine Mem.load_congr fun i hi ↦ ?_
  rw [h.mem, hmem]
  rw [hsp]
  exact hlaid.apart ha i (by omega)

end Run

section Holds

variable {args : List Ty} {a : Arg} {m m₀ : Machine} {widened : Bool} {g f k : ℕ}

theorem bytes_le (t : Ty) : t.bytes ≤ 8 := by cases t <;> decide

theorem isFloat_of_gpr {i : ℕ} (h : a.host = .gpr i) :
    a.ty.isFloat = false ∧ i < 8 ∧ i = a.ints := by
  rw [Arg.host] at h
  split_ifs at h with hfloat _ hg
  · obtain rfl := HostPlace.gpr.inj h
    exact ⟨Bool.not_eq_true _ ▸ hfloat, hg, rfl⟩

theorem narrow_host (h : a.ty.Narrow) (hints : a.ints < 8) : a.host = .gpr a.ints := by
  have hint : ¬a.ty.isFloat = true := by
    obtain h | h | h := h <;> rw [h] <;> decide
  rw [Arg.host, if_neg hint, if_pos hints]

/-- Everything goes where the code wants it to go. -/
theorem holds_host (hemitted : ∀ a ∈ counted 0 0 args, a.Emitted) (hsize : frameSize args ≤ 2048)
    (hnarrow : widened = true → ∀ a ∈ counted 0 0 args, a.ty.Narrow → a.ints < 8)
    (hlaid : Laid args (frameSize args) m) :
    ((run (prologueCode args) m).get sp = m.get sp - BitVec.ofNat 64 (frameSize args) ∧
      (run (prologueCode args) m).get threadStatePointer = m.get threadStatePointer) ∧
    ∀ a ∈ counted 0 0 args,
      a.host.Holds widened (run (prologueCode args) m) a.ty (a.guest.value m a.ty.bytes) := by
  have hn : frameSize args ≤ 2 ^ 32 := hsize.trans (by decide)
  obtain ⟨m₀, hrun, hsp, hregs, -, hmem⟩ := run_frame hsize m
  have hstep : ∀ a ∈ counted 0 0 args, ∀ s, Filling args m₀ s →
      run a.code s = a.host.fill s a.ty (a.guest.value m a.ty.bytes) := by
    intro a ha s hs
    rw [run_code (hemitted a ha), hs.value hlaid hsp hregs hmem ha (bytes_le _)]
  have hfilling : ∀ a ∈ counted 0 0 args, ∀ s, Filling args m₀ s →
      Filling args m₀ (run a.code s) := by
    intro a ha s hs
    rw [hstep a ha s hs]
    exact hs.fill hn (valid_host ha) _ _
  have hend := invariant_foldl (filling_refl args m₀) hfilling
  rw [hrun]
  refine ⟨⟨hend.sp.trans hsp, hend.state.trans (hregs _ (by decide))⟩, ?_⟩
  refine holds_foldl (P := fun a s ↦ a.host.Holds widened s a.ty (a.guest.value m a.ty.bytes))
    (filling_refl args m₀) hfilling (fun a ha s hs ↦ ?_) ?_
  · rw [hstep a ha s hs]
    refine HostPlace.holds_fill (valid_host ha) hn (fun slot hslot hwide htype ↦ ?_) fun i hi ↦ ?_
    · rw [narrow_host htype (hnarrow hwide a ha htype)] at hslot
      exact nomatch hslot
    · exact (isFloat_of_gpr hi).1
  · refine (pairwise_counted 0 0 args).imp_of_mem fun ha hb hbefore s hs hholds ↦ ?_
    rw [hstep _ hb s hs]
    exact hholds.fill (valid_host ha) (valid_host hb) hn hbefore.host_ne

/-- An earlier float. -/
theorem exists_float (h : a ∈ counted g f args) (hk : f ≤ k) (hlt : k < a.floats) :
    ∃ b ∈ counted g f args, b.ty.isFloat = true ∧ b.floats = k ∧ b.ints ≤ a.ints := by
  induction args generalizing g f with
  | nil => exact nomatch h
  | cons t ts ih =>
    obtain rfl | h := List.mem_cons.mp h
    · exact absurd hlt (Nat.not_lt.mpr hk)
    · rw [counted]
      by_cases ht : t.isFloat = true
      · rw [if_pos ht] at h ⊢
        obtain rfl | hk := Nat.eq_or_lt_of_le hk
        · exact ⟨_, List.mem_cons_self, ht, rfl, (le_of_mem_counted h).1⟩
        · obtain ⟨b, hb, hrest⟩ := ih h hk
          exact ⟨b, List.mem_cons_of_mem _ hb, hrest⟩
      · rw [if_neg ht] at h ⊢
        obtain ⟨b, hb, hrest⟩ := ih h hk
        exact ⟨b, List.mem_cons_of_mem _ hb, hrest⟩

/-- The places are those of the convention if no float is left over while there are integer
registers. -/
theorem host_eq_prescribed
    (h : ∀ a ∈ counted 0 0 args, a.ty.isFloat → 8 ≤ a.floats → 8 ≤ a.ints)
    (ha : a ∈ counted 0 0 args) : a.host = a.prescribed := by
  have hregisters : 8 < a.floats → 8 ≤ a.ints := by
    intro hlt
    obtain ⟨b, hb, hfloat, hfloats, hints⟩ := exists_float ha (Nat.zero_le 8) hlt
    exact (h b hb hfloat hfloats.ge).trans hints
  have hfloat := h a ha
  rw [Arg.host, Arg.prescribed, Arg.hostSlot]
  by_cases ht : a.ty.isFloat = true
  · rw [if_pos ht]
    by_cases hf : a.floats < 8
    · rw [if_pos hf, if_pos ⟨ht, hf⟩]
    · have hints := hfloat ht (by omega)
      rw [if_neg hf, if_neg fun hand ↦ hf hand.2, if_neg (by omega)]
      congr 1
      omega
  · have hfpr : ¬(a.ty.isFloat = true ∧ a.floats < 8) := fun hand ↦ ht hand.1
    rw [if_neg ht, if_neg hfpr]
    by_cases hg : a.ints < 8
    · rw [if_pos hg, if_pos (by omega), show a.ints + (a.floats - 8) = a.ints by omega]
    · rw [if_neg hg, if_neg (by omega)]
      congr 1
      omega

/-- The condition is enough. -/
theorem calls_of_meets {ret : Ret} (h : Meets widened args) (haligned : (m.get sp).toNat % 16 = 0)
    (hemitted : ∀ a ∈ counted 0 0 args, a.Emitted) (hsize : frameSize args ≤ 2047)
    (hlaid : Laid args (frameSize args) m) :
    Calls widened ret args (prologueCode args) (epilogueCode ret (frameSize args)) m := by
  obtain ⟨⟨hsp, hstate⟩, hholds⟩ := holds_host hemitted (hsize.trans (by decide)) h.narrow hlaid
  have hmod := frameSize_mod args
  refine ⟨?_, fun p hp ↦ ?_, fun m' hret ↦ ?_, fun m' hret ↦ ?_⟩
  · rw [hsp, BitVec.toNat_sub, BitVec.toNat_ofNat]
    omega
  · rw [zip_places] at hp
    obtain ⟨a, ha, rfl⟩ := List.mem_map.mp hp
    dsimp only
    rw [← host_eq_prescribed h.registers ha]
    exact hholds a ha
  · rw [get_epilogueCode ret hsize, hret.sp, hsp, BitVec.sub_add_cancel]
  · rw [← hstate, ← hret.saved]
    exact result_epilogueCode ret _ m'

end Holds

/-! ## Where it goes wrong

The converse. If the call is right for every machine then it is right for `mark`, at every byte of
every slot, and this leaves only the signatures of the condition. -/

section Wrong

variable {args : List Ty} {a b : Arg} {stack : U64} {o : ℕ} {c : BitVec 8}

/-- A machine on which everything is zero, except for one byte of the guest's stack. -/
def mark (stack : U64) (o : ℕ) (c : BitVec 8) : Machine where
  x r := if r = sp then stack else if r = threadStatePointer then stack + BitVec.ofNat 64 4096
    else if r = rspReg then stack + BitVec.ofNat 64 8192 else 0
  f _ := 0
  mem := Function.update (fun _ ↦ 0) (stack + BitVec.ofNat 64 (8192 + o)) c

theorem sp_mark : (mark stack o c).get sp = stack := by
  simp [Machine.get, mark, sp]

theorem state_mark : (mark stack o c).get threadStatePointer = stack + BitVec.ofNat 64 4096 := by
  simp [Machine.get, mark, sp, threadStatePointer]

theorem rsp_mark : (mark stack o c).get rspReg = stack + BitVec.ofNat 64 8192 := by
  simp [Machine.get, mark, sp, threadStatePointer, rspReg]

theorem arg_mark {i : ℕ} (hi : i < 8) : (mark stack o c).get (argReg i) = 0 := by
  have hsp : sp ≠ argReg i := HostPlace.argReg_ne hi (.inl (by decide))
  have hstate : threadStatePointer ≠ argReg i := HostPlace.argReg_ne hi (.inr (by decide))
  have hrsp : rspReg ≠ argReg i := HostPlace.argReg_ne hi (.inl (by decide))
  simp only [Machine.get, mark, if_neg hsp.symm, if_neg hstate.symm, if_neg hrsp.symm, ite_self]

theorem mem_mark (x : U64) : (mark stack o c).mem x =
    if x = stack + BitVec.ofNat 64 (8192 + o) then c else 0 := by
  simp only [mark, Function.update_apply]

theorem slot_le (hframe : ints args - 8 + (floats args - 8) ≤ 254) (ha : a ∈ counted 0 0 args) :
    a.slot ≤ 256 := by
  obtain ⟨hints, hfloats, -⟩ := lt_of_mem_counted ha
  rw [Arg.slot]
  omega

theorem slot_of_stack {slot : ℕ} (h : a.guest = .stack slot) : slot = a.slot := by
  rw [Arg.guest] at h
  split_ifs at h
  · exact (GuestPlace.stack.inj h).symm
  · exact (GuestPlace.stack.inj h).symm

/-- The frame is small enough for the immediates of the epilogue. -/
theorem frameSize_le (hframe : ints args - 8 + (floats args - 8) ≤ 254) :
    frameSize args ≤ 2032 := by
  rw [frameSize]
  omega

theorem laid_mark (hframe : ints args - 8 + (floats args - 8) ≤ 254) (stack : U64) (o : ℕ)
    (c : BitVec 8) : Laid args (frameSize args) (mark stack o c) := by
  have hsize := frameSize_le hframe
  have hstack := stack.isLt
  refine ⟨fun i hi ↦ ?_, fun slot hslot i hi ↦ ?_⟩
  · rw [state_mark, sp_mark]
    simp only [BitVec.toNat_sub, BitVec.toNat_add, BitVec.toNat_ofNat]
    omega
  · rw [sysv_zero] at hslot
    obtain ⟨a, ha, hguest⟩ := List.mem_map.mp hslot
    have hle := slot_le hframe ha
    have hslot := slot_of_stack hguest
    rw [rsp_mark, sp_mark]
    simp only [BitVec.toNat_sub, BitVec.toNat_add, BitVec.toNat_ofNat]
    omega

/-- Bytes of arguments, relative to the stack of the host. -/
theorem address_mark (ha : a.slot ≤ 256) (stack : U64) (o : ℕ) (c : BitVec 8) : ∃ k, k < 16384 ∧
    (mark stack o c).get a.guest.base + BitVec.ofNat 64 a.guest.offset = stack + BitVec.ofNat 64 k ∧
    ((∃ slot, a.guest = .stack slot ∧ k = 8192 + (8 + 8 * slot)) ∨ k + 8 ≤ 8192) := by
  cases hguest : a.guest with
  | gpr i =>
    have hreg : ∀ i, sysvGpr i ≤ 9 := by
      intro i
      match i with
      | 0 | 1 | 2 | 3 | 4 | 5 => decide
      | i + 6 => exact Nat.zero_le 9
    have hle := hreg i
    refine ⟨4096 + (offsetGprs + sysvGpr i * 8), ?_, ?_, .inr ?_⟩
    · rw [offsetGprs]
      omega
    · rw [GuestPlace.base, GuestPlace.offset, state_mark, BitVec.add_assoc, ← BitVec.ofNat_add]
    · rw [offsetGprs]
      omega
  | xmm i =>
    have hi : i < 8 := by
      rw [Arg.guest] at hguest
      split_ifs at hguest with _ hfew
      · obtain rfl := GuestPlace.xmm.inj hguest
        exact hfew
    refine ⟨4096 + (offsetXmm + i * 16), ?_, ?_, .inr ?_⟩
    · rw [offsetXmm]
      omega
    · rw [GuestPlace.base, GuestPlace.offset, state_mark, BitVec.add_assoc, ← BitVec.ofNat_add]
    · rw [offsetXmm]
      omega
  | stack slot =>
    have hslot := slot_of_stack hguest
    refine ⟨8192 + (8 + 8 * slot), by omega, ?_, .inl ⟨slot, rfl, rfl⟩⟩
    rw [GuestPlace.base, GuestPlace.offset, rsp_mark, BitVec.add_assoc, ← BitVec.ofNat_add]

theorem load_zero {mem : Mem} {x : U64} {n : ℕ} (hn : n ≤ 8)
    (h : ∀ i < n, mem (x + BitVec.ofNat 64 i) = 0) : mem.load x n = 0 := by
  have hlt := mem.load_lt x hn
  have hbytes := mod_of_bytes (v := mem.load x n) (w := 0) (n := n) fun j hj ↦ by
    rw [byte_load _ _ hn hj, h j hj, byte_zero]
  apply BitVec.eq_of_toNat_eq
  rwa [Nat.mod_eq_of_lt hlt] at hbytes

/-- All other arguments are zero. -/
theorem value_mark (ha : a.slot ≤ 256) (hb : b.slot ≤ 256) {j : ℕ} (hj : j < 8)
    (hguest : b.guest = .stack b.slot) (hne : a.guest ≠ b.guest) {n : ℕ} (hn : n ≤ 8) :
    a.guest.value (mark stack (8 + 8 * b.slot + j) c) n = 0 := by
  obtain ⟨k, hk, haddress, hplace⟩ := address_mark ha stack (8 + 8 * b.slot + j) c
  have hzero : ∀ i < n, (mark stack (8 + 8 * b.slot + j) c).mem
      (stack + BitVec.ofNat 64 k + BitVec.ofNat 64 i) = 0 := by
    intro i hi
    rw [mem_mark, if_neg]
    intro heq
    have hstack := stack.isLt
    have hnat := congrArg BitVec.toNat heq
    simp only [BitVec.toNat_add, BitVec.toNat_ofNat] at hnat
    obtain ⟨slot, hslot, hk⟩ | hsmall := hplace
    · have hdistinct : slot ≠ b.slot := fun h ↦ hne (by rw [hslot, hguest, h])
      omega
    · omega
  rw [GuestPlace.value, haddress]
  exact load_zero hn hzero

theorem regs_prologueCode {m : Machine} (hemitted : ∀ a ∈ counted 0 0 args, a.Emitted)
    (hsize : frameSize args ≤ 2048) (hlaid : Laid args (frameSize args) m) :
    (run (prologueCode args) m).get sp = m.get sp - BitVec.ofNat 64 (frameSize args) ∧
      (run (prologueCode args) m).get threadStatePointer = m.get threadStatePointer := by
  have hnarrow : false = true → ∀ a ∈ counted 0 0 args, a.ty.Narrow → a.ints < 8 := nofun
  exact (holds_host hemitted hsize hnarrow hlaid).1

theorem guest_ne (ha : a ∈ counted 0 0 args) (hb : b ∈ counted 0 0 args) (hne : a ≠ b) :
    a.guest ≠ b.guest := by
  have hsymm : Std.Symm fun a b : Arg ↦ a.guest ≠ b.guest := ⟨fun _ _ h ↦ h.symm⟩
  exact ((pairwise_counted 0 0 args).imp Arg.Before.guest_ne).forall ha hb hne

theorem host_ne (ha : a ∈ counted 0 0 args) (hb : b ∈ counted 0 0 args) (hne : a ≠ b) :
    a.host ≠ b.host := by
  have hsymm : Std.Symm fun a b : Arg ↦ a.host ≠ b.host := ⟨fun _ _ h ↦ h.symm⟩
  exact ((pairwise_counted 0 0 args).imp Arg.Before.host_ne).forall ha hb hne

theorem extended_zero (t : Ty) : t.extended 0 = 0 := by cases t <;> decide

/-- If only a float is not zero, the integer registers are zero before the call. -/
theorem args_mark (hemitted : ∀ a ∈ counted 0 0 args, a.Emitted)
    (hframe : ints args - 8 + (floats args - 8) ≤ 254) (hb : b ∈ counted 0 0 args)
    (hfloat : b.ty.isFloat = true) (hguest : b.guest = .stack b.slot) {i : ℕ} (hi : i < 8) :
    (run (prologueCode args) (mark stack (8 + 8 * b.slot + 0) c)).get (argReg i) = 0 := by
  have hsize : frameSize args ≤ 2048 := (frameSize_le hframe).trans (by decide)
  have hn : frameSize args ≤ 2 ^ 32 := hsize.trans (by decide)
  have hlaid := laid_mark hframe stack (8 + 8 * b.slot + 0) c
  obtain ⟨m₀, hrun, hsp, hregs, -, hmem⟩ := run_frame hsize (mark stack (8 + 8 * b.slot + 0) c)
  have hstart : ∀ i < 8, m₀.get (argReg i) = 0 := by
    intro i hi
    rw [hregs _ (HostPlace.argReg_ne hi (.inl (by decide))).symm]
    exact arg_mark hi
  rw [hrun]
  refine (invariant_foldl (I := fun s ↦ Filling args m₀ s ∧ ∀ i < 8, s.get (argReg i) = 0)
    ⟨filling_refl args m₀, hstart⟩ fun a ha s hs ↦ ?_).2 i hi
  obtain ⟨hs, hzero⟩ := hs
  rw [run_code (hemitted a ha), hs.value hlaid hsp hregs hmem ha (bytes_le _)]
  refine ⟨hs.fill hn (valid_host ha) _ _, fun i hi ↦ ?_⟩
  cases hhost : a.host with
  | gpr k =>
    obtain ⟨hint, hk, -⟩ := isFloat_of_gpr hhost
    have hne : a.guest ≠ b.guest := by
      have hab : a ≠ b := fun h ↦ by rw [h, hfloat] at hint; exact nomatch hint
      exact guest_ne ha hb hab
    rw [value_mark (slot_le hframe ha) (slot_le hframe hb) (by decide) hguest hne (bytes_le _),
      HostPlace.fill, extended_zero]
    by_cases hki : i = k
    · have hreg : (0 : Reg) ≠ argReg k := HostPlace.argReg_ne hk (.inl (by decide))
      rw [hki, Machine.get_set_self hreg.symm]
    · rw [Machine.get_set_of_ne (HostPlace.argReg_injective hi hk hki), hzero i hi]
  | fpr k => exact hzero i hi
  | stack slot =>
    have hx7 : x7 ≠ argReg i := HostPlace.argReg_ne hi (.inl (by decide))
    exact (Machine.get_set_of_ne hx7.symm).trans (hzero i hi)

/-- The last byte of a slot for a narrow integer is not written. -/
theorem upper_mark (hemitted : ∀ a ∈ counted 0 0 args, a.Emitted)
    (hframe : ints args - 8 + (floats args - 8) ≤ 254) (hb : b ∈ counted 0 0 args)
    (hnarrow : b.ty.Narrow) (hhost : b.host = .stack b.hostSlot) (ho : o ≤ 4096) :
    (run (prologueCode args) (mark stack o c)).mem
      (stack - BitVec.ofNat 64 (frameSize args) + BitVec.ofNat 64 (8 * b.hostSlot + 7)) = 0 := by
  have hsize : frameSize args ≤ 2048 := (frameSize_le hframe).trans (by decide)
  have hn : frameSize args ≤ 2 ^ 32 := hsize.trans (by decide)
  have hvalid : 8 * b.hostSlot + 8 ≤ frameSize args := by
    have hvalid := valid_host hb
    rwa [hhost] at hvalid
  have hlaid := laid_mark hframe stack o c
  obtain ⟨m₀, hrun, hsp, hregs, -, hmem⟩ := run_frame hsize (mark stack o c)
  have hsp' := hsp
  rw [sp_mark] at hsp
  rw [hrun, ← hsp]
  refine (invariant_foldl (I := fun s ↦ Filling args m₀ s ∧
    s.mem (m₀.get sp + BitVec.ofNat 64 (8 * b.hostSlot + 7)) = 0)
    ⟨filling_refl args m₀, ?_⟩ fun a ha s hs ↦ ?_).2
  · have hstack := stack.isLt
    rw [hmem, mem_mark, if_neg]
    intro heq
    have hnat := congrArg BitVec.toNat heq
    rw [hsp] at hnat
    simp only [BitVec.toNat_add, BitVec.toNat_sub, BitVec.toNat_ofNat] at hnat
    omega
  · obtain ⟨hs, hzero⟩ := hs
    rw [run_code (hemitted a ha), hs.value hlaid hsp' hregs hmem ha (bytes_le _)]
    refine ⟨hs.fill hn (valid_host ha) _ _, ?_⟩
    have hvalid' := valid_host ha
    cases hplace : a.host with
    | gpr k => rw [HostPlace.fill, Machine.mem_set, hzero]
    | fpr k => exact hzero
    | stack slot =>
      rw [hplace] at hvalid'
      have hvalid' : 8 * slot + 8 ≤ frameSize args := hvalid'
      have hlt : slot = b.hostSlot → a.ty.stored < 8 := by
        intro heq
        have hab : a = b := by
          by_contra hne
          exact host_ne ha hb hne (by rw [hplace, hhost, heq])
        rw [hab]
        obtain h | h | h := hnarrow <;> rw [h] <;> decide
      have hle := HostPlace.stored_le a.ty
      rw [HostPlace.fill, Machine.mem_setMem, hs.sp,
        Mem.store_offset _ _ _ hle (by omega) (by omega), if_neg, hzero]
      omega

/-- The byte that is not zero. -/
theorem byte_mark (hguest : b.guest = .stack b.slot) {n j : ℕ} (hn : n ≤ 8) (hj : j < n) :
    byte (b.guest.value (mark stack (8 + 8 * b.slot + j) c) n) j = c := by
  rw [hguest, GuestPlace.value, byte_load_offset _ _ _ hn hj, GuestPlace.base, GuestPlace.offset,
    rsp_mark, mem_mark, if_pos]
  rw [BitVec.add_assoc, ← BitVec.ofNat_add]

/-- The sign goes to the last byte. -/
theorem byte_signExtend {w : ℕ} (hw : w ≤ 56) (hpos : 0 < w) {v : U64}
    (h : v.getLsbD (w - 1) = true) :
    byte ((v.setWidth w).signExtend 64) 7 = 0xFF := by
  have hmsb : (v.setWidth w).msb = true := by
    rw [BitVec.msb_eq_getLsbD_last, BitVec.getLsbD_setWidth, h]
    simp only [Bool.and_true, decide_eq_true_eq]
    omega
  apply BitVec.eq_of_getLsbD_eq
  intro j hj
  have hones : (0xFF : BitVec 8).getLsbD j = true := by
    revert j
    decide
  rw [getLsbD_byte, BitVec.getLsbD_signExtend, hmsb, hones, if_neg (by omega)]
  simp only [hj, decide_true, Bool.true_and, Bool.and_true, decide_eq_true_eq]
  omega

theorem byte_widen {t : Ty} (h : t.Narrow) {v : U64} (hv : byte v (t.bytes - 1) = 0x80) :
    byte (t.widen v) 7 = 0xFF := by
  have hbit : v.getLsbD (8 * (t.bytes - 1) + 7) = true := by
    have hbyte := congrArg (fun x : BitVec 8 ↦ x.getLsbD 7) hv
    simp only [getLsbD_byte] at hbyte
    simpa using hbyte
  obtain rfl | rfl | rfl := h
  · exact byte_signExtend (by decide) (by decide) hbit
  · exact byte_signExtend (by decide) (by decide) hbit
  · exact byte_signExtend (by decide) (by decide) hbit

/-- The arguments of a ninth float and of a narrow integer, and what becomes of them. -/
theorem meets_of_calls {widened : Bool} {ret : Ret} {epilogue : List Insn}
    (hemitted : ∀ a ∈ counted 0 0 args, a.Emitted)
    (hframe : ints args - 8 + (floats args - 8) ≤ 254)
    (h : ∀ m : Machine, m.get sp = stack → Laid args (frameSize args) m →
      Calls widened ret args (prologueCode args) epilogue m) : Meets widened args := by
  have hholds : ∀ o c, ∀ a ∈ counted 0 0 args, a.prescribed.Holds widened
      (run (prologueCode args) (mark stack o c)) a.ty
          (a.guest.value (mark stack o c) a.ty.bytes) := by
    intro o c a ha
    have hcalls := h (mark stack o c) sp_mark (laid_mark hframe stack o c)
    refine hcalls.args (a.ty, a.guest, a.prescribed) ?_
    rw [zip_places]
    exact List.mem_map_of_mem ha
  refine ⟨fun a ha hfloat hfloats ↦ ?_, fun a ha hx hmemory ↦ ?_, hframe,
    fun hwide a ha hnarrow ↦ ?_⟩
  · by_contra hints
    obtain ⟨b, hb, hbfloat, hbfloats, hbints⟩ :
        ∃ b ∈ counted 0 0 args, b.ty.isFloat = true ∧ b.floats = 8 ∧ b.ints ≤ a.ints := by
      obtain heq | hlt := Nat.eq_or_lt_of_le hfloats
      · exact ⟨a, ha, hfloat, heq.symm, le_rfl⟩
      · exact exists_float ha (Nat.zero_le 8) hlt
    have hguest : b.guest = .stack b.slot := by
      rw [Arg.guest, if_pos hbfloat, if_neg (by omega)]
    have hplace : b.prescribed = .gpr b.ints := by
      rw [Arg.prescribed, if_neg (fun hand ↦ by omega), hbfloats, Nat.sub_self, Nat.add_zero,
        if_pos (by omega)]
    have hbytes : 0 < b.ty.bytes := by
      revert hbfloat
      cases b.ty <;> decide
    have hwiden : ∀ v, b.ty.widen v = v := by
      intro v
      revert hbfloat
      cases b.ty <;> simp [Ty.isFloat, Ty.widen]
    have hlow := hholds (8 + 8 * b.slot + 0) 1 b hb
    rw [hplace, HostPlace.Holds, if_pos hbfloat, hwiden,
      args_mark hemitted hframe hb hbfloat hguest (by omega)] at hlow
    have hbyte := byte_congr hbytes hlow
    rw [byte_mark hguest (bytes_le _) hbytes, byte_zero] at hbyte
    exact absurd hbyte (by decide)
  · have hguest : a.guest = .stack a.slot := by
      rw [Arg.InMemory] at hmemory
      rw [Arg.guest]
      split at hmemory
      · next ht => rw [if_pos ht, if_neg (by omega)]
      · next ht => rw [if_neg ht, if_neg (by omega)]
    have hoffset := (hemitted a ha).1.resolve_left hx
    rw [hguest, GuestPlace.offset] at hoffset
    omega
  · by_contra hints
    have hint : ¬a.ty.isFloat = true := by
      obtain h | h | h := hnarrow <;> rw [h] <;> decide
    have hbytes : 0 < a.ty.bytes ∧ a.ty.bytes ≤ 8 := by
      obtain h | h | h := hnarrow <;> rw [h] <;> decide
    have hsig : a.ty.significant widened = 8 := by
      rw [hwide]
      obtain h | h | h := hnarrow <;> rw [h] <;> rfl
    have hguest : a.guest = .stack a.slot := by
      rw [Arg.guest, if_neg hint, if_neg (by omega)]
    have hhost : a.host = .stack a.hostSlot := by
      rw [Arg.host, if_neg hint, if_neg hints]
    have hplace : a.prescribed = .stack a.hostSlot := by
      have hfpr : ¬(a.ty.isFloat = true ∧ a.floats < 8) := fun hand ↦ hint hand.1
      rw [Arg.prescribed, if_neg hfpr, if_neg (by omega), Arg.hostSlot]
      congr 1
      omega
    have hslot := slot_le hframe ha
    have hsize : frameSize args ≤ 2048 := (frameSize_le hframe).trans (by decide)
    obtain ⟨hsp, -⟩ := regs_prologueCode hemitted hsize
      (laid_mark hframe stack (8 + 8 * a.slot + (a.ty.bytes - 1)) 0x80)
    have hlow := hholds (8 + 8 * a.slot + (a.ty.bytes - 1)) 0x80 a ha
    rw [hplace, HostPlace.Holds, hsig, hsp, sp_mark] at hlow
    have hbyte := byte_congr (show 7 < 8 by decide) hlow
    rw [byte_load_offset _ _ _ le_rfl (by decide),
      upper_mark hemitted hframe ha hnarrow hhost (by omega),
      byte_widen hnarrow (byte_mark hguest hbytes.2 (by omega))] at hbyte
    exact absurd hbyte (by decide)

end Wrong

/-! ## Exactly when it is right

Here the code need not be known to exist any more: the offsets of its loads and stores fit their
instructions as long as the frame is small, and otherwise the marshaller stops with an assertion. -/

section Exact

variable {args : List Ty} {a : Arg} {stack : U64} {widened : Bool} {ret : Ret}

theorem fits_loadCode {t : Ty} {offset : ℕ} (h : t = .x ∨ offset ≤ 2047) (rd base : Reg) :
    ∀ i ∈ t.loadCode rd offset base, i.Fits := by
  intro i hi
  by_cases ht : t = .x
  · rw [ht] at hi
    obtain rfl := List.mem_singleton.mp hi
    exact ⟨by decide, by decide⟩
  · have hvalid := isValid_natCast.mpr (h.resolve_left ht)
    cases t with
    | x => exact absurd rfl ht
    | _ =>
      obtain rfl := List.mem_singleton.mp hi
      exact hvalid

theorem fits_storeCode {position : ℕ} (h : position ≤ 2047) (t : Ty) :
    ∀ i ∈ t.storeCode position, i.Fits := by
  intro i hi
  have hvalid := isValid_natCast.mpr h
  cases t with
  | _ =>
    obtain rfl := List.mem_singleton.mp hi
    exact hvalid

theorem fits_code (h : a.Emitted) : ∀ i ∈ a.code, i.Fits := by
  obtain ⟨hload, hstore⟩ := h
  rw [Arg.code]
  cases hhost : a.host with
  | gpr k => exact fits_loadCode hload _ _
  | fpr k =>
    obtain ⟨hfloat, hk, hguest⟩ := guest_of_fpr hhost
    intro i hi
    obtain rfl := List.mem_singleton.mp hi
    refine isValid_natCast.mpr ?_
    rw [hguest]
    exact show 200 + k * 16 ≤ 2047 by omega
  | stack slot =>
    rw [hhost, HostPlace.position] at hstore
    intro i hi
    obtain hi | hi := List.mem_append.mp hi
    · exact fits_loadCode hload _ _ i hi
    · exact fits_storeCode hstore _ i hi

theorem fits_result (ret : Ret) : ∀ i ∈ ret.code, i.Fits := by
  cases ret <;> simp [Ret.code, Insn.Fits, IsValidSigned12BitImm, offsetGprs, offsetXmm]

theorem fits_of_size (hemitted : ∀ a ∈ counted 0 0 args, a.Emitted)
    (hsize : frameSize args ≤ 2047) :
    ∀ i ∈ prologueCode args ++ epilogueCode ret (frameSize args), i.Fits := by
  intro i hi
  rw [prologueCode, epilogueCode] at hi
  simp only [List.mem_append, List.mem_flatten, List.mem_map] at hi
  obtain (hi | ⟨code, ⟨a, ha, rfl⟩, hi⟩) | hi | hi := hi
  · split at hi
    · obtain rfl := List.mem_singleton.mp hi
      exact ⟨by omega, by omega⟩
    · exact absurd hi List.not_mem_nil
  · exact fits_code (hemitted a ha) i hi
  · exact fits_result ret i hi
  · split at hi
    · obtain rfl := List.mem_singleton.mp hi
      exact isValid_natCast.mpr hsize
    · exact absurd hi List.not_mem_nil

theorem emitted_of_meets (h : Meets widened args) : ∀ a ∈ counted 0 0 args, a.Emitted := by
  have hframe := h.frame
  have hsize := frameSize_le hframe
  intro a ha
  refine ⟨?_, ?_⟩
  · by_cases hx : a.ty = .x
    · exact .inl hx
    · refine .inr ?_
      have hloads := h.loads a ha hx
      rw [Arg.InMemory] at hloads
      rw [Arg.guest]
      split
      · next ht =>
        rw [if_pos ht] at hloads
        split
        · next hf => exact show 200 + a.floats * 16 ≤ 2047 by omega
        · next hf =>
          have hle := hloads (by omega)
          exact show 8 + 8 * a.slot ≤ 2047 by omega
      · next ht =>
        rw [if_neg ht] at hloads
        split
        · next hg =>
          have hreg : ∀ i < 6, offsetGprs + sysvGpr i * 8 ≤ 2047 := by decide
          exact hreg a.ints hg
        · next hg =>
          have hle := hloads (by omega)
          exact show 8 + 8 * a.slot ≤ 2047 by omega
  · have hvalid := valid_host ha
    cases hhost : a.host with
    | gpr i => exact Nat.zero_le _
    | fpr i => exact Nat.zero_le _
    | stack slot =>
      rw [hhost] at hvalid
      have hvalid : 8 * slot + 8 ≤ frameSize args := hvalid
      exact show 8 * slot ≤ 2047 by omega

theorem marshals_of_meets (haligned : stack.toNat % 16 = 0) (h : Meets widened args) :
    Marshals widened ret args stack := by
  have hemitted := emitted_of_meets h
  have hframe := h.frame
  have hsize : frameSize args ≤ 2047 := (frameSize_le hframe).trans (by decide)
  refine ⟨prologueCode args, frameSize args, epilogueCode ret (frameSize args), ?_,
    emitEpilogue_eq ret args _, fits_of_size hemitted hsize, fun m hsp hlaid ↦ ?_⟩
  · rw [emitPrologue_eq, if_pos hemitted]
  · exact calls_of_meets h (by rw [hsp]; exact haligned) hemitted hsize hlaid

theorem of_marshals (h : Marshals widened ret args stack) :
    stack.toNat % 16 = 0 ∧ Meets widened args := by
  obtain ⟨prologue, stackSize, epilogue, hpro, hepi, hfits, hcalls⟩ := h
  rw [emitPrologue_eq] at hpro
  split at hpro
  · next hemitted =>
    obtain ⟨rfl, rfl⟩ := Prod.mk.inj (Option.some.inj hpro)
    rw [emitEpilogue_eq] at hepi
    obtain rfl := Option.some.inj hepi
    have hmod := frameSize_mod args
    have hsize : frameSize args ≤ 2047 := by
      by_contra hlarge
      have hmem : Insn.addi sp sp (frameSize args) ∈ epilogueCode ret (frameSize args) := by
        rw [epilogueCode, if_pos (by omega)]
        exact List.mem_append_right _ List.mem_cons_self
      exact hlarge (isValid_natCast.mp (hfits _ (List.mem_append_right _ hmem)))
    have hframe : ints args - 8 + (floats args - 8) ≤ 254 := by
      have hle := le_frameSize args
      omega
    refine ⟨?_, meets_of_calls hemitted hframe hcalls⟩
    have hlaid := laid_mark hframe stack 0 0
    have haligned := (hcalls (mark stack 0 0) sp_mark hlaid).aligned
    rw [(regs_prologueCode hemitted (by omega) hlaid).1, sp_mark, BitVec.toNat_sub,
      BitVec.toNat_ofNat] at haligned
    omega
  · exact nomatch hpro

/-- The marshaller implements both conventions for exactly these signatures, if the stack of the
host is aligned. -/
theorem marshals_iff (widened : Bool) (ret : Ret) (args : List Ty) (stack : U64) :
    Marshals widened ret args stack ↔ stack.toNat % 16 = 0 ∧ Meets widened args := by
  constructor
  · exact of_marshals
  · rintro ⟨haligned, h⟩
    exact marshals_of_meets haligned h

/-- Nine doubles: the ninth is passed on the stack, and the host function looks for it in `a0`. -/
theorem not_marshals_nineDoubles :
    ¬Marshals false .v (List.replicate 9 .D) 0x7FFF0000 := by
  intro h
  have hints := (of_marshals h).2.registers ⟨.D, 0, 8⟩ (by decide) (by decide) (by decide)
  exact absurd hints (by decide)

/-- `sizeof(felix86_frame)`: the magic number, the state and fifteen registers. -/
def sizeofFrame : ℕ := 8 + 8 + 15 * 8

/-- `enter_dispatcher` moves the stack down by one frame, which is no multiple of sixteen. Emitted
code that runs in a dispatcher that was entered with an aligned stack calls with one that is not. -/
theorem not_marshals_of_entered (widened : Bool) (ret : Ret) (args : List Ty)
    (h : stack.toNat % 16 = 0) :
        ¬Marshals widened ret args (stack - BitVec.ofNat 64 sizeofFrame) := by
  intro hmarshals
  have haligned := (of_marshals hmarshals).1
  rw [BitVec.toNat_sub, BitVec.toNat_ofNat, sizeofFrame] at haligned
  omega

end Exact

end Abi

end Felix86
