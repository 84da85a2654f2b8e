import Felix86.V2.AddSubLogic
import Felix86.V2.Shifts
import Felix86.Lib.Numerals

/-!
# Exchange and add

`XADD` leaves the old destination in its source register and the sum in its destination. Both can be
parts of one register, and the register can be part of the destination's address.

The handler is right about the two values. It computes `AF` from the source where the sum belongs,
and it asks for the address of a destination in memory a second time, after the source register has
been written.
-/

namespace Felix86

namespace Jit

open Numerals Riscv X86

variable {ρ : Type*} (k : Config) (i : Insn)

/-! ## Operands at an address -/

/-- The value of an operand that is at this address if it is in memory. -/
def Operand.valueAt (a : U64) (op : Operand) (w : ℕ) (c : Core ρ) : BitVec w :=
  match op with
  | .reg r size => (readPart size (c.gpr r)).setWidth w
  | .mem _ size => (c.mem.load a size.bytes).setWidth w
  | .imm v _ => v.setWidth w
  | .seg _ => 0

/-- A write to an operand that is at this address if it is in memory. -/
def Operand.assignAt (a : U64) (op : Operand) (v : BitVec op.size.bits) (c : Core ρ) : Core ρ :=
  match op, v with
  | .reg r size, v => c.write r (writePart size (c.gpr r) v)
  | .mem _ size, v => { c with mem := c.mem.store a (v.setWidth 64) size.bytes }
  | _, _ => c

/-! ## What `XADD` should do -/

/-- The address of the destination, as the handler computes it first. -/
def xaddAddress (c : Core ρ) : U64 :=
  match i.op0 with
  | .mem m _ => if (atomicOperand i).isSome then k.lea i m true c else k.address i m c
  | _ => 0

/-- The source register has the old destination. -/
def xaddExchanged (c : Core ρ) : Core ρ :=
  i.op1.assign k i (i.op0.valueAt (xaddAddress k i c) _ c) c

/-- The outcome of the addition. -/
def xaddOutcome (c : Core ρ) : Outcome i.op0.size.bits :=
  X86.add (i.op0.valueAt (xaddAddress k i c) _ c) (i.op1.value k i _ c)

/-- The sum. -/
def xaddSum (c : Core ρ) : BitVec i.op0.size.bits :=
  i.op0.valueAt (xaddAddress k i c) _ c + i.op1.value k i _ c

/-- From one state to the other an exchange and an addition have happened. The flags in `e` are
needed. -/
structure Xadded (e : Flag → Bool) (s s' : State ρ) : Prop where
  core : s'.core =
    i.op0.assignAt (xaddAddress k i s.core) (xaddSum k i s.core) (xaddExchanged k i s.core)
  flag : ∀ f, e f → Effect.Holds (Flags.get (xaddOutcome k i s.core).flags f) (s.flag f) (s'.flag f)

/-- The operands that `XADD` has. -/
structure Insn.Xadd : Prop where
  place : i.op0.Place
  reg : ∃ r size, i.op1 = .reg r size ∧ size.bits = i.op0.size.bits

/-- The address the sum is stored at. Unless the first address has been kept, it is computed again,
and by then the source register has the old destination. -/
def xaddLater (c : Core ρ) : U64 :=
  match i.op0 with
  | .mem m _ =>
    if (atomicOperand i).isSome || k.keepsLea i m then xaddAddress k i c
    else k.address i m (xaddExchanged k i c)
  | _ => 0

/-- The lowest four bits of the source are below those of the destination exactly if those of the
sum are, and storing the sum at the later address is as good as at the first. -/
structure XaddRight (e : Flag → Bool) (c : Core ρ) : Prop where
  auxiliary : e .af →
    ((i.op1.value k i i.op0.size.bits c).toNat % 16 <
        (i.op0.valueAt (xaddAddress k i c) i.op0.size.bits c).toNat % 16 ↔
      16 ≤ (i.op0.valueAt (xaddAddress k i c) i.op0.size.bits c).toNat % 16 +
        (i.op1.value k i i.op0.size.bits c).toNat % 16)
  address : i.op0.assignAt (xaddLater k i c) (xaddSum k i c) (xaddExchanged k i c) =
    i.op0.assignAt (xaddAddress k i c) (xaddSum k i c) (xaddExchanged k i c)

/-! ## The two forms -/

section

variable {k i} {e : Flag → Bool} {s : State ρ}

/-- The state after the sum has been stored at an address, with the flags that the handler computes
from this old destination. -/
def xaddState (k : Config) (i : Insn) (e : Flag → Bool) (dst a : U64) (s : State ρ) : State ρ :=
  let src := k.get i i.op1 s.core
  let core := i.op0.assignAt a (xaddSum k i s.core) (xaddExchanged k i s.core)
  ({ s with core := core } : State ρ).assign e (addValues k dst src (dst + src) src i.op0.size)

theorem Insn.Xadd.source (h : i.Xadd) : i.op1.Source i.op0.size.bits := by
  obtain ⟨r, size, hop1, hbits⟩ := h.reg
  rw [hop1]
  exact hbits

theorem xaddSum_eq (h : i.Xadd) {c : Core ρ} {dst : U64}
    (hdst : low i.op0.size dst = i.op0.valueAt (xaddAddress k i c) i.op0.size.bits c) :
    xaddSum k i c = low i.op0.size (dst + k.get i i.op1 c) := by
  rw [xaddSum, low_add, hdst, ← k.low_get i h.source]

/-- The old destination in the source register. -/
theorem set_exchanged (h : i.Xadd) {c : Core ρ} {dst : U64}
    (hdst : low i.op0.size dst = i.op0.valueAt (xaddAddress k i c) i.op0.size.bits c) :
    k.set i i.op1 dst c = xaddExchanged k i c := by
  obtain ⟨r, size, hop1, hbits⟩ := h.reg
  have hplace : i.op1.Place := by
    rw [hop1]
    trivial
  have hsize : i.op1.size.bits = i.op0.size.bits := by
    rw [hop1, ← hbits]
    rfl
  have hlow : dst.setWidth i.op1.size.bits =
      i.op0.valueAt (xaddAddress k i c) i.op1.size.bits c := by
    rw [hsize]
    exact hdst
  rw [k.set_eq i hplace, xaddExchanged, low, hlow]

theorem xaddStore_eq (hop : i.op0.Place) (result : U64) (before c : Core ρ) :
    xaddStore k i result before c =
      i.op0.assignAt (match i.op0 with
        | .mem m _ => if k.keepsLea i m then k.address i m before else k.address i m c
        | _ => 0) (low i.op0.size result) c := by
  rw [xaddStore]
  generalize i.op0 = op at hop ⊢
  cases op with
  | reg r size => exact k.set_eq i hop result c
  | mem m size => exact Config.writeMemory_eq _ result size c
  | imm v size => exact hop.elim
  | seg s => exact hop.elim

theorem low_get_none (h : i.Xadd) (hnone : atomicOperand i = none) (c : Core ρ) :
    low i.op0.size (k.get i i.op0 c) =
      i.op0.valueAt (xaddAddress k i c) i.op0.size.bits c := by
  rw [k.low_get_place i h.place, xaddAddress, hnone]
  cases i.op0 <;> rfl

theorem fastXadd_none (h : i.Xadd) (hnone : atomicOperand i = none) :
    fastXadd k i e s =
      xaddState k i e (k.get i i.op0 s.core) (xaddLater k i s.core) s := by
  have hdst := low_get_none (k := k) h hnone s.core
  have hlater : xaddLater k i s.core = match i.op0 with
      | .mem m _ => if k.keepsLea i m then k.address i m s.core
        else k.address i m (xaddExchanged k i s.core)
      | _ => 0 := by
    rw [xaddLater, xaddAddress, hnone]
    cases i.op0 <;> rfl
  simp only [fastXadd, hnone, setAddFlags_eq]
  refine State.ext ?_ fun f ↦ rfl
  simp only [State.core_map, State.core_assign, xaddState]
  rw [set_exchanged h hdst, xaddStore_eq h.place, xaddSum_eq h hdst, hlater]

theorem of_atomicOperand {m : MemOperand} {size : Size} (h : atomicOperand i = some (m, size)) :
    i.op0 = .mem m size ∧ (size = .dword ∨ size = .qword) ∧ i.lock := by
  rw [atomicOperand] at h
  split at h
  · next m' hop =>
    obtain ⟨hlock, heq⟩ := Option.ite_none_right_eq_some.mp h
    cases heq
    exact ⟨hop, .inl rfl, hlock⟩
  · next m' hop =>
    obtain ⟨hlock, heq⟩ := Option.ite_none_right_eq_some.mp h
    cases heq
    exact ⟨hop, .inr rfl, hlock⟩
  · cases h

/-- The atomic forms. -/
theorem fastXadd_some (h : i.Xadd) {m : MemOperand} {size : Size}
    (hsome : atomicOperand i = some (m, size)) :
    fastXadd k i e s =
      xaddState k i e (s.core.mem.load (xaddAddress k i s.core) size.bytes)
          (xaddLater k i s.core) s := by
  obtain ⟨hop, hsize, hlock⟩ := of_atomicOperand hsome
  obtain ⟨r, size', hop1, hbits⟩ := h.reg
  have haddress : xaddAddress k i s.core = k.lea i m true s.core := by
    simp only [xaddAddress, hop, hsome, Option.isSome_some, if_true]
  have hlater : xaddLater k i s.core = xaddAddress k i s.core := by
    simp only [xaddLater, hop, hsome, Option.isSome_some, Bool.true_or, if_true]
  have hreg : i.op1 = .reg r size := by
    rw [hop1]
    rw [hop] at hbits
    obtain rfl | rfl := hsize <;> cases size' <;> first | rfl | cases hbits
  have hlocked := fastXadd_locked (k := k) (e := e) (s := s) hop hreg hsize hsome
  rw [← haddress] at hlocked
  have hdst : low i.op0.size (s.core.mem.load (xaddAddress k i s.core) size.bytes) =
      i.op0.valueAt (xaddAddress k i s.core) i.op0.size.bits s.core := by
    rw [hop]
    rfl
  have hold : (s.core.mem.load (xaddAddress k i s.core) size.bytes).toNat < 2 ^ size.bits := by
    rw [size.bits_eq]
    exact Mem.load_lt _ _ size.bytes_le
  have hset := set_exchanged h hdst
  rw [hreg] at hset
  have hwrite : s.core.write r (s.core.mem.load (xaddAddress k i s.core) size.bytes) =
      xaddExchanged k i s.core :=
    (congrArg (s.core.write r) (merge_whole hsize hold _)).symm.trans hset
  have hsum (v a : U64) (c : Core ρ) :
      i.op0.assignAt a (low i.op0.size v) c = Config.writeMemory a v size c := by
    rw [hop]
    exact (Config.writeMemory_eq a v size c).symm
  rw [hlocked, hlater, xaddState, xaddSum_eq h hdst]
  refine State.ext ?_ fun f ↦ ?_
  · rw [State.core_assign, State.core_assign, hsum, ← hwrite]
    rfl
  · rw [hop]
    rfl

end

/-! ## The flags -/

section

variable {k i} {e : Flag → Bool} {s : State ρ} {dst src : U64}

/-- Only `AF` depends on what it is computed from. -/
theorem holds_xaddValues {size : Size} (hdst : dst.toNat < 2 ^ size.bits) {f : Flag} (hf : f ≠ .af)
    (old : U64) :
    Effect.Holds (Flags.get (X86.add (low size dst) (low size src)).flags f) old
      (f.stored (addValues k dst src (dst + src) src size f)) := by
  have hadd : Effect.Holds (Flags.get (X86.add (low size dst) (low size src)).flags f) old
      (f.stored (addValues k dst src (dst + src) (dst + src) size f)) :=
    holds_addValues k hdst f old
  cases f with
  | af => exact absurd rfl hf
  | _ => exact hadd

theorem holds_xaddAuxiliary {size : Size} (old : U64) :
    Effect.Holds (Flags.get (X86.add (low size dst) (low size src)).flags .af) old
        (Flag.stored .af (addValues k dst src (dst + src) src size .af)) ↔
      ((low size src).toNat % 16 < (low size dst).toNat % 16 ↔
        16 ≤ (low size dst).toNat % 16 + (low size src).toNat % 16) := by
  have hvalue : addValues k dst src (dst + src) src size .af =
      asFlag (decide ((low size src).toNat % 16 < (low size dst).toNat % 16)) := by
    rw [addValues, Config.updateAuxiliaryAdd, sltu_eq_asFlag, Config.toNat_and_f,
      Config.toNat_and_f, Config.toNat_low_mod_16, Config.toNat_low_mod_16]
  rw [hvalue, stored_asFlag]
  refine asFlag_inj.trans ?_
  rw [X86.addAuxiliary, Bool.toNat_false, Nat.add_zero, decide_eq_decide]

/-- In either form the old destination is in a register without anything above it. -/
theorem exists_fastXadd_eq (h : i.Xadd) (hz : k.mode32 → Zext s.core) :
    ∃ dst : U64, dst.toNat < 2 ^ i.op0.size.bits ∧
      low i.op0.size dst = i.op0.valueAt (xaddAddress k i s.core) i.op0.size.bits s.core ∧
      fastXadd k i e s = xaddState k i e dst (xaddLater k i s.core) s := by
  cases hatomic : atomicOperand i with
  | none =>
    refine ⟨_, get_place_lt k i hz h.place, ?_, fastXadd_none h hatomic⟩
    exact low_get_none h hatomic s.core
  | some operand =>
    obtain ⟨m, size⟩ := operand
    obtain ⟨hop, -, -⟩ := of_atomicOperand hatomic
    refine ⟨_, ?_, ?_, fastXadd_some h hatomic⟩
    · rw [hop]
      exact (Mem.load_lt _ _ size.bytes_le).trans_eq (congrArg (2 ^ ·) size.bits_eq.symm)
    · rw [hop]
      rfl

end

/-! ## Every form -/

/-- `XADD` does what it should exactly if its `AF` comes out right by chance and, where the sum goes
to memory, the address has not changed, or memory is the same nevertheless. -/
theorem xadded_iff (e : Flag → Bool) (s : State ρ) (h : i.Xadd) (hz : k.mode32 → Zext s.core) :
    (∃ s', Instr.exec k e ⟨.xadd, i⟩ s = some s' ∧ Xadded k i e s s') ↔ XaddRight k i e s.core := by
  obtain ⟨dst, hlt, hdst, heq⟩ := exists_fastXadd_eq (e := e) h hz
  have hexec : Instr.exec k e ⟨.xadd, i⟩ s = some (fastXadd k i e s) := rfl
  have hsrc := k.low_get i h.source s.core
  rw [hexec, heq]
  simp only [Option.some_inj, exists_eq_left']
  have hflag (f : Flag) (he : e f) : (xaddState k i e dst (xaddLater k i s.core) s).flag f =
      f.stored (addValues k dst (k.get i i.op1 s.core) (dst + k.get i i.op1 s.core)
        (k.get i i.op1 s.core) i.op0.size f) := if_pos he
  constructor
  · intro hxadd
    refine ⟨fun he ↦ ?_, hxadd.core⟩
    have haf := hxadd.flag .af he
    rw [hflag .af he, xaddOutcome, ← hdst, ← hsrc] at haf
    rw [← hdst, ← hsrc]
    exact (holds_xaddAuxiliary _).mp haf
  · rintro ⟨haux, haddress⟩
    refine ⟨haddress, fun f he ↦ ?_⟩
    rw [hflag f he, xaddOutcome, ← hdst, ← hsrc]
    by_cases hf : f = .af
    · subst hf
      refine (holds_xaddAuxiliary _).mpr ?_
      rw [hsrc, hdst]
      exact haux he
    · exact holds_xaddValues hlt hf _

/-- `XADD AL, BL`. -/
def xaddLow : Insn :=
  ((Mnemonic.xadd : Mnemonic Unit).on .byte (.reg rax .byte) (.reg rbx .byte)).insn

/-- `XADD [EBX], EBX`. -/
def xaddThrough : Insn :=
  ((Mnemonic.xadd : Mnemonic Unit).on .dword
    (.mem { base := .reg rbx .dword, index := none, shift := 0, disp := 0, segment := .ds } .dword)
    (.reg rbx .dword)).insn

/-- `EBX` points to another address. -/
def ebxThrough : State Unit :=
  (State.withReg rbx 0x10000).map fun c ↦ { c with mem := c.mem.store 0x10000 0x11000 4 }

theorem xadded_iff_xaddLow :
    (∃ s', Instr.exec (.default false) live ⟨.xadd, xaddLow⟩ (State.withReg rax 0x10) = some s' ∧
      Xadded (.default false) xaddLow live (State.withReg rax 0x10) s') ↔
      XaddRight (.default false) xaddLow live (State.withReg rax 0x10).core :=
  xadded_iff (.default false) xaddLow live (State.withReg rax 0x10) ⟨trivial, rbx, .byte, rfl, rfl⟩
    fun h ↦ absurd h (by decide)

/-- `1 + 0` sets `AF`, and with no flag needed the sum of what is at `[EBX]` and `EBX` goes to the
address that was at `[EBX]`. -/
theorem not_xadded :
    (¬ ∃ s', Instr.exec (.default false) live ⟨.xadd, xaddLow⟩ (State.withReg rax 1) = some s' ∧
      Xadded (.default false) xaddLow live (State.withReg rax 1) s') ∧
    ¬ ∃ s', Instr.exec (.default false) (fun _ ↦ false) ⟨.xadd, xaddThrough⟩ ebxThrough = some s' ∧
      Xadded (.default false) xaddThrough (fun _ ↦ false) ebxThrough s' := by
  constructor
  · rintro ⟨s', hexec, hxadd⟩
    have hcode := congrArg (fun t ↦ t.map fun s : State Unit ↦ s.flag .af) hexec
    rw [Option.map_some, hxadd.flag .af rfl] at hcode
    revert hcode
    decide +kernel
  · rintro ⟨s', hexec, hxadd⟩
    have hcode := congrArg (fun t ↦ t.map fun s : State Unit ↦ s.core.mem 0x10002) hexec
    rw [Option.map_some, hxadd.core] at hcode
    revert hcode
    decide +kernel

end Jit

end Felix86
