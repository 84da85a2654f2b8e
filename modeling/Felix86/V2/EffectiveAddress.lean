import Felix86.V2.Instruction
import Felix86.V2.SubRegisters

/-!
# Effective addresses

`lea` emits the code that adds up the base, the scaled index and the displacement of a memory
operand, truncates the sum to the address size and adds the base of the segment. `getGPR` and
`setGPR` leave a small displacement to the access itself, which adds it after the truncation. The
operand that was added up last is cached: until the next instruction, and until the registers are
stored or loaded, the register that has its address is returned once more and no code is emitted.

Six things go wrong. A displacement that the access adds can lead out of the address size. An
operand that is only a small displacement has nothing left to emit, and an assertion fails. An
address relative to `RIP` is returned before the segment is looked at, and `LEA` gets the base of a
segment. Without a prefix no base is added, though in 32-bit mode `DS` and `SS` can have one. The
decoder reports `EIP` as the base of a relative address of 32 bits, which is a register the
recompiler does not know. And there can be too few scratch registers.

## The shape of the argument

Registers that `scratch` has handed out are not handed out again before they are given back, so what
is known of them, and of the guest's registers, is still known after the next part of the code.
`Emits` says so for each part. What the code computes is `Config.lea`, which is then compared with
the sum. `Costs` counts the registers that each part needs.
-/

namespace Felix86

namespace EffectiveAddress

open Numerals
open Jit (Config Core Size Seg)
open SubRegisters (GuestReg)
open Transfer (allocatedGPR scratchGprs)

/-! ## Operands -/

/-- The base of a memory operand. The decoder has `EIP` for a relative address of 32 bits. -/
inductive BaseReg
  | none
  | rip
  | eip
  | gpr (r : Jit.Ref) (size : Size)
deriving DecidableEq, Repr

/-- A memory operand; the scale is `2 ^ shift`. -/
structure MemOperand where
  base : BaseReg
  index : Option (Jit.Ref × Size)
  shift : Fin 4
  disp : U64
  segment : Seg
deriving DecidableEq, Repr

/-- The operand for a recompiler that does not know `EIP`. -/
def MemOperand.known (m : MemOperand) : Jit.MemOperand where
  base := match m.base with
    | .none => .none
    | .rip => .rip
    | .eip => .rip
    | .gpr r size => .reg r size
  index := m.index
  shift := m.shift
  disp := m.disp
  segment := m.segment

/-! ## The host -/

abbrev Reg := SubRegisters.Reg

abbrev HostRegs := SubRegisters.HostRegs

/-- The instructions that `lea` emits: those of `getGPR` and `zext`, additions, and the load of a
segment base from `ThreadState`. -/
inductive Insn
  | part (i : SubRegisters.Insn)
  | addi (rd rs : Reg) (imm : U64)
  | add (rd rs1 rs2 : Reg)
  /-- `SH1ADD`, `SH2ADD` and `SH3ADD`. -/
  | shadd (shift : Fin 4) (rd rs1 rs2 : Reg)
  | ld (rd : Reg) (seg : Seg)
deriving DecidableEq, Repr

def Insn.rd : Insn → Reg
  | part i => i.rd
  | addi rd _ _ => rd
  | add rd _ _ => rd
  | shadd _ rd _ _ => rd
  | ld rd _ => rd

/-- What the instruction writes. -/
def Insn.value (t : Seg → U64) (g : HostRegs) : Insn → U64
  | part i => i.value g
  | addi _ rs imm => g.x rs + imm
  | add _ rs1 rs2 => g.x rs1 + g.x rs2
  | shadd shift _ rs1 rs2 => g.x rs1 <<< shift.val + g.x rs2
  | ld _ seg => t seg

def exec (t : Seg → U64) (g : HostRegs) (i : Insn) : HostRegs := g.set i.rd (i.value t g)

def run (t : Seg → U64) (code : List Insn) (g : HostRegs) : HostRegs := code.foldl (exec t) g

/-! ## The recompiler -/

/-- How many scratch registers are in use, and the code so far. `cached` is `cached_lea`, if
`cached_lea_operand` is the operand that the address is needed of. -/
structure Emitter where
  scratchIndex : ℕ
  code : List Insn
  cached : Option Reg

/-- The scratch registers that are not in use. -/
def Emitter.free (e : Emitter) : List Reg := scratchGprs.drop e.scratchIndex

/-- The recompiler emits, or an assertion stops it. -/
abbrev Emit := StateT Emitter Option

def emit (code : List Insn) : Emit Unit := fun e ↦ some ((), { e with code := e.code ++ code })

/-- `ERROR` and `UNREACHABLE`. -/
def fail {α : Type} : Emit α := fun _ ↦ none

/-- What another part of the recompiler emits. -/
def emitPart {α : Type} (m : SubRegisters.Emit α) : Emit α := fun e ↦
  (m ⟨e.scratchIndex, []⟩).map fun (a, e') ↦
    (a, ⟨e'.scratchIndex, e.code ++ e'.code.map .part, e.cached⟩)

/-- `cached_lea_operand` is the operand now, or no operand. -/
def setCached (r : Option Reg) : Emit Unit := fun e ↦ some ((), { e with cached := r })

section Recompiler

variable (k : Config) (i : Jit.Insn)

/-- `getGPR(ZydisRegister)`, for a base. -/
def getBase : BaseReg → Emit Reg
  | .gpr r size => emitPart (SubRegisters.getGPR k (.gpr r) size)
  | _ => fail

/-- `getGPR(ZydisRegister)`, for an index. -/
def getIndex : Option (Jit.Ref × Size) → Emit Reg
  | some (r, size) => emitPart (SubRegisters.getGPR k (.gpr r) size)
  | none => fail

/-- The scaled index and another register are added. -/
def addScaled (shift : Fin 4) (address index term : Reg) : Emit Unit :=
  if shift ≠ 0 then
    if k.b then emit [.shadd shift address index term]
    else do
      let scaleReg ← emitPart SubRegisters.scratch
      emit [.part (.slli scaleReg index shift), .add address term scaleReg]
      emitPart SubRegisters.popScratch
  else emit [.add address term index]

/-- The displacement is loaded or added to the base. -/
def emitDisp (m : MemOperand) (address : Reg) : Emit Unit :=
  if m.base ≠ .none ∧ Jit.validSigned12 m.disp then do
    let base ← getBase k m.base
    emit [.addi address base m.disp]
  else if m.base ≠ .none then do
    emit [.part (.li address m.disp)]
    let base ← getBase k m.base
    emit [.add address address base]
  else emit [.part (.li address m.disp)]

/-- The part of `lea` that adds up base, index and displacement. -/
def emitSum (m : MemOperand) (address : Reg) : Emit Unit :=
  if m.disp ≠ 0 then
    if m.index ≠ none then do
      emitDisp k m address
      let index ← getIndex k m.index
      addScaled k m.shift address index address
    else emitDisp k m address
  else if m.index ≠ none then do
    let index ← getIndex k m.index
    if m.base = .none then
      if m.shift = 0 then emit [.part (.mv address index)]
      else emit [.part (.slli address index m.shift)]
    else
      let base ← getBase k m.base
      addScaled k m.shift address index base
  else if m.base ≠ .none then do
    let base ← getBase k m.base
    emit [.part (.mv address base)]
  else fail

/-- The address size. -/
def emitWidth (address : Reg) : Emit Unit :=
  if i.addressWidth ≠ .qword then emitPart (SubRegisters.zext k address address i.addressWidth)
  else pure ()

/-- The base of the segment is added. -/
def emitSegment (seg : Seg) (address : Reg) : Emit Unit :=
  if i.hasSegment then
    if seg = .fs ∨ seg = .gs ∨ k.mode32 then do
      let segReg ← emitPart SubRegisters.scratch
      emit [.ld segReg seg, .add address address segReg]
      emitPart SubRegisters.popScratch
    else fail
  else pure ()

/-- In 32-bit mode the additions may have overflown the address. -/
def emitMode (address : Reg) : Emit Unit :=
  if k.mode32 then emit [.part (.zextw address address)] else pure ()

/-- Just a segment register. -/
def SegmentOnly (m : MemOperand) : Prop :=
  i.hasSegment ∧ m.base = .none ∧ m.index = none ∧ m.disp = 0

/-- The base is the address. -/
def BaseOnly (m : MemOperand) : Prop :=
  ¬i.hasSegment ∧ m.base ≠ .none ∧ m.index = none ∧ m.disp = 0

/-- The index is the address. -/
def IndexOnly (m : MemOperand) : Prop :=
  ¬i.hasSegment ∧ m.base = .none ∧ m.index ≠ none ∧ m.disp = 0 ∧ m.shift = 0

instance (m : MemOperand) : Decidable (SegmentOnly i m) := inferInstanceAs (Decidable (_ ∧ _))

instance (m : MemOperand) : Decidable (BaseOnly i m) := inferInstanceAs (Decidable (_ ∧ _))

instance (m : MemOperand) : Decidable (IndexOnly i m) := inferInstanceAs (Decidable (_ ∧ _))

/-- `lea` for an operand that is not the cached one. -/
def addUp (m : MemOperand) (useTemp : Bool) : Emit Reg := do
  let address ← emitPart SubRegisters.scratch
  setCached (some address)
  if m.base = .rip then
    if k.mode32 then fail
    else
      emit [.part (.li address (i.rip + i.length + m.disp))]
      return address
  else if SegmentOnly i m then
    if m.segment = .fs ∨ m.segment = .gs then
      emit [.ld address m.segment]
      return address
    else fail
  else if ¬useTemp ∧ BaseOnly i m then do
    setCached none
    getBase k m.base
  else if ¬useTemp ∧ IndexOnly i m then do
    setCached none
    getIndex k m.index
  else
    emitSum k m address
    -- the segment is not subject to the address size
    emitWidth k i address
    emitSegment k i m.segment address
    emitMode k address
    return address

/-- `lea`. -/
def lea (m : MemOperand) (useTemp : Bool) : Emit Reg := fun e ↦
  match e.cached with
  | some address => some (address, e)
  | none => addUp k i m useTemp e

/-- What the address of a memory operand is used for: in itself, by `LEA` and by the instructions
that access it on their own, or in `getGPR` or `setGPR`. -/
inductive Use
  | lea (access useTemp : Bool)
  | get
  | set
deriving DecidableEq, Repr

/-- The memory at the address is accessed. -/
def Use.access : Use → Bool
  | lea access _ => access
  | get => true
  | set => true

/-- The displacement is left to the access. -/
def Use.folds (u : Use) (m : MemOperand) : Bool :=
  match u with
  | lea _ _ => false
  | get => k.folds i m.known
  | set => k.folds i m.known

/-- The register and the immediate that `getGPR` and `setGPR` pass to `readMemory` and
`writeMemory`. -/
def accessAddress (m : MemOperand) : Emit (Reg × U64) :=
  if k.folds i m.known then do
    let address ← lea k i { m with disp := 0 } false
    return (address, m.disp)
  else do
    let address ← lea k i m false
    return (address, 0)

/-- The register and the immediate that together are the address. -/
def Use.address (u : Use) (m : MemOperand) : Emit (Reg × U64) :=
  match u with
  | .lea _ useTemp => do
    let address ← EffectiveAddress.lea k i m useTemp
    return (address, 0)
  | .get => do
    let _dest ← emitPart SubRegisters.scratch
    accessAddress k i m
  | .set => accessAddress k i m

end Recompiler

/-! ## What is emitted -/

section Emission

variable {α β : Type} {e e' e₁ : Emitter}

theorem bind_eq_some {m : Emit α} {f : α → Emit β} {b : β} :
    (m >>= f) e = some (b, e') ↔ ∃ a e₁, m e = some (a, e₁) ∧ f a e₁ = some (b, e') := by
  change (m e).bind (fun p ↦ f p.1 p.2) = _ ↔ _
  simp [Option.bind_eq_some_iff, Prod.exists]

theorem pure_eq_some {a b : α} : (pure a : Emit α) e = some (b, e') ↔ a = b ∧ e = e' := by
  change some (a, e) = some (b, e') ↔ _
  simp

theorem emit_eq_some {code : List Insn} {u : Unit} :
    emit code e = some (u, e') ↔ { e with code := e.code ++ code } = e' := by
  simp [emit]

theorem not_fail {a : α} : fail e ≠ some (a, e') := by simp [fail]

theorem scratch_eq_some {s : Reg} : emitPart SubRegisters.scratch e = some (s, e') ↔
    scratchGprs[e.scratchIndex]? = some s ∧ { e with scratchIndex := e.scratchIndex + 1 } = e' := by
  cases hs : scratchGprs[e.scratchIndex]? <;> simp [emitPart, SubRegisters.scratch, hs]

theorem popScratch_eq_some {u : Unit} : emitPart SubRegisters.popScratch e = some (u, e') ↔
    e.scratchIndex ≠ 0 ∧ { e with scratchIndex := e.scratchIndex - 1 } = e' := by
  by_cases hzero : e.scratchIndex = 0 <;> simp [emitPart, SubRegisters.popScratch, hzero]

theorem emitPart_eq_some {m : SubRegisters.Emit α} {a : α} : emitPart m e = some (a, e') ↔
    ∃ e'', m ⟨e.scratchIndex, []⟩ = some (a, e'') ∧
      ⟨e''.scratchIndex, e.code ++ e''.code.map .part, e.cached⟩ = e' := by
  cases hm : m ⟨e.scratchIndex, []⟩ with
  | none => simp [emitPart, hm]
  | some p => simp [emitPart, hm, Prod.ext_iff, and_comm]

theorem setCached_eq_some {r : Option Reg} {u : Unit} :
    setCached r e = some (u, e') ↔ { e with cached := r } = e' := by
  simp [setCached]

end Emission

/-! ## Running the code -/

section Running

variable {t : Seg → U64} {g : HostRegs} {code code' : List Insn} {r : Reg} {i : Insn}

theorem run_append : run t (code ++ code') g = run t code' (run t code g) :=
  List.foldl_append

theorem exec_x_of_ne (h : r ≠ i.rd) : (exec t g i).x r = g.x r := by
  rw [exec]
  by_cases hz : i.rd = 0
  · rw [SubRegisters.HostRegs.set, dif_pos hz]
  · rw [SubRegisters.set_x hz, Function.update_of_ne h]

theorem exec_x_self (h : i.rd ≠ 0) : (exec t g i).x i.rd = i.value t g := by
  rw [exec, SubRegisters.set_x h, Function.update_self]

/-- Code changes its destinations only. -/
theorem run_x_of_forall_ne (h : ∀ i ∈ code, r ≠ i.rd) : (run t code g).x r = g.x r := by
  induction code generalizing g with
  | nil => rfl
  | cons i code ih =>
    have hstep : run t (i :: code) g = run t code (exec t g i) := rfl
    rw [hstep, ih fun j hj ↦ h j (List.mem_cons_of_mem i hj), exec_x_of_ne (h i List.mem_cons_self)]

theorem run_map_part (code : List SubRegisters.Insn) :
    run t (code.map .part) g = SubRegisters.run code g := by
  induction code generalizing g with
  | nil => rfl
  | cons i code ih => exact ih

end Running

/-- From `e` to `e₁` code has been emitted that changes some of the registers `dests`, and `step` is
what it does. -/
structure Emits (t : Seg → U64) (e e₁ : Emitter) (dests : List Reg) (step : HostRegs → HostRegs) :
    Prop where
  exists_code : ∃ code, e₁.code = e.code ++ code ∧ step = run t code ∧ ∀ i ∈ code, i.rd ∈ dests
  le : e.scratchIndex ≤ e₁.scratchIndex

namespace Emits

variable {t : Seg → U64} {e e₁ e₂ : Emitter} {dests dests' : List Reg}
  {step step' : HostRegs → HostRegs} {r : Reg}

theorem of_code {code : List Insn} (h : e₁.code = e.code ++ code)
    (hle : e.scratchIndex ≤ e₁.scratchIndex) (hrd : ∀ i ∈ code, i.rd ∈ dests) :
    Emits t e e₁ dests (run t code) := ⟨⟨code, h, rfl, hrd⟩, hle⟩

theorem nil (h : e.scratchIndex ≤ e₁.scratchIndex) (hcode : e₁.code = e.code) :
    Emits t e e₁ dests id :=
  ⟨⟨[], by rw [hcode, List.append_nil], rfl, by simp⟩, h⟩

theorem mono (h : Emits t e e₁ dests step) (hsub : dests ⊆ dests') :
    Emits t e e₁ dests' step := by
  obtain ⟨⟨code, hcode, hstep, hrd⟩, hle⟩ := h
  exact ⟨⟨code, hcode, hstep, fun i hi ↦ hsub (hrd i hi)⟩, hle⟩

theorem trans (h : Emits t e e₁ dests step) (h' : Emits t e₁ e₂ dests step') :
    Emits t e e₂ dests fun g ↦ step' (step g) := by
  obtain ⟨⟨code, hcode, rfl, hrd⟩, hle⟩ := h
  obtain ⟨⟨code', hcode', rfl, hrd'⟩, hle'⟩ := h'
  refine ⟨⟨code ++ code', ?_, ?_, ?_⟩, hle.trans hle'⟩
  · rw [hcode', hcode, List.append_assoc]
  · exact funext fun g ↦ run_append.symm
  · exact List.forall_mem_append.mpr ⟨hrd, hrd'⟩

theorem frame (h : Emits t e e₁ dests step) (hr : r ∉ dests) (g : HostRegs) :
    (step g).x r = g.x r := by
  obtain ⟨⟨code, -, rfl, hrd⟩, -⟩ := h
  exact run_x_of_forall_ne fun i hi heq ↦ hr (heq ▸ hrd i hi)

theorem free_subset (h : Emits t e e₁ dests step) : e₁.free ⊆ e.free :=
  List.drop_subset_drop_left _ h.le

end Emits

/-! ### Registers -/

/-- A scratch register that is in use. -/
structure Taken (e : Emitter) (s : Reg) : Prop where
  scratch : s ∈ scratchGprs
  held : s ∉ e.free

theorem notMem_free_succ {n : ℕ} {s : Reg} (h : scratchGprs[n]? = some s) :
    s ∉ scratchGprs.drop (n + 1) := by
  intro hmem
  obtain ⟨j, hj⟩ := List.mem_iff_getElem?.mp hmem
  rw [List.getElem?_drop] at hj
  obtain ⟨hlt, -⟩ := List.getElem?_eq_some_iff.mp h
  have hnodup : scratchGprs.Nodup := by decide
  have := (List.getElem?_inj hlt hnodup).mp (h.trans hj.symm)
  omega

theorem host_notMem_free (ref : GuestReg) (e : Emitter) : ref.host ∉ e.free := fun hmem ↦
  SubRegisters.host_ne_free (e := ⟨e.scratchIndex, []⟩) ref hmem rfl

section Taken

variable {e e₁ : Emitter} {s : Reg}

theorem Taken.ne_zero (h : Taken e s) : s ≠ 0 := Transfer.scratch_ne_zero h.scratch

theorem Taken.host_ne (h : Taken e s) (ref : GuestReg) : ref.host ≠ s :=
  SubRegisters.host_ne_free (e := ⟨0, []⟩) ref h.scratch

theorem Taken.mono (h : Taken e s) (hsub : e₁.free ⊆ e.free) : Taken e₁ s :=
  ⟨h.scratch, fun hmem ↦ h.held (hsub hmem)⟩

/-- `scratch` hands out a register that was free and is not any more. -/
theorem taken_of_scratch (h : emitPart SubRegisters.scratch e = some (s, e₁)) :
    Taken e₁ s ∧ s ∈ e.free ∧ Emits t e e₁ [] id := by
  obtain ⟨hs, rfl⟩ := scratch_eq_some.mp h
  have hmem : s ∈ e.free := SubRegisters.Emitter.mem_free (e := ⟨e.scratchIndex, []⟩) hs
  exact ⟨⟨List.mem_of_mem_drop hmem, notMem_free_succ hs⟩, hmem, .nil (Nat.le_succ _) rfl⟩

end Taken

/-- The cached operand has nothing to do with what is emitted. -/
theorem Emits.of_setCached {r : Option Reg} {dests : List Reg} {step : HostRegs → HostRegs}
    {e e₁ : Emitter} (h : Emits t { e with cached := r } e₁ dests step) : Emits t e e₁ dests step :=
  ⟨h.exists_code, h.le⟩

theorem Taken.setCached {e e₁ : Emitter} {s : Reg} (h : Taken e₁ s) (r : Option Reg)
    (hfirst : Emits t e e₁ [] id) :
    Taken { e₁ with cached := r } s ∧ Emits t e { e₁ with cached := r } [] id :=
  ⟨⟨h.scratch, h.held⟩, ⟨hfirst.exists_code, hfirst.le⟩⟩

/-! ### Operands -/

section Parts

variable (k : Config) {t : Seg → U64} {e e₁ : Emitter} {a s : Reg}

/-- The value of a base. -/
def BaseReg.value (g : HostRegs) : BaseReg → U64
  | .gpr r size => SubRegisters.part k size (g.x (allocatedGPR r))
  | _ => 0

/-- The value of an index. -/
def indexValue (g : HostRegs) : Option (Jit.Ref × Size) → U64
  | some (r, size) => SubRegisters.part k size (g.x (allocatedGPR r))
  | none => 0

/-- The register `getGPR` returns is the guest's own or the next scratch register. -/
theorem getGPR_result {ref : GuestReg} {size : Size} {e e₁ : SubRegisters.Emitter}
    (h : SubRegisters.getGPR k ref size e = some (a, e₁)) :
    a = ref.host ∧ e₁.scratchIndex = e.scratchIndex ∨
      scratchGprs[e.scratchIndex]? = some a ∧ e₁.scratchIndex = e.scratchIndex + 1 := by
  cases size with
  | byte =>
    obtain ⟨hs, rfl⟩ := (SubRegisters.getGPR_byte_eq_some k).mp h
    exact .inr ⟨hs, rfl⟩
  | byteHigh =>
    obtain ⟨hs, rfl⟩ := (SubRegisters.getGPR_byteHigh_eq_some k).mp h
    exact .inr ⟨hs, rfl⟩
  | word =>
    obtain ⟨hs, rfl⟩ := (SubRegisters.getGPR_word_eq_some k).mp h
    exact .inr ⟨hs, rfl⟩
  | dword =>
    by_cases hmode : k.mode32
    · obtain ⟨rfl, rfl⟩ := (SubRegisters.getGPR_dword_eq_some_mode32 k hmode).mp h
      exact .inl ⟨rfl, rfl⟩
    · obtain ⟨hs, rfl⟩ := (SubRegisters.getGPR_dword_eq_some k hmode).mp h
      exact .inr ⟨hs, rfl⟩
  | qword =>
    obtain ⟨rfl, rfl⟩ := (SubRegisters.getGPR_qword_eq_some k).mp h
    exact .inl ⟨rfl, rfl⟩

/-- What `getGPR` emits for a base or an index. -/
structure Reads (t : Seg → U64) (e e₁ : Emitter) (a : Reg) (value : HostRegs → U64)
    (step : HostRegs → HostRegs) : Prop where
  emits : Emits t e e₁ e.free step
  value : ∀ g, (step g).x a = value g
  held : a ∉ e₁.free
  ne : ∀ s, Taken e s → a ≠ s

theorem getReg_spec {r : Jit.Ref} {size : Size}
    (h : emitPart (SubRegisters.getGPR k (.gpr r) size) e = some (a, e₁)) :
    ∃ step, Reads t e e₁ a (fun g ↦ SubRegisters.part k size (g.x (allocatedGPR r))) step := by
  obtain ⟨e₂, h₂, rfl⟩ := emitPart_eq_some.mp h
  obtain ⟨code, hcode⟩ := SubRegisters.getGPR_spec k h₂
  have hrd : ∀ i ∈ e₂.code.map Insn.part, i.rd ∈ e.free := by
    rw [hcode.code_eq, List.nil_append]
    intro i hi
    obtain ⟨j, hj, rfl⟩ := List.mem_map.mp hi
    exact hcode.rd j hj
  have hvalue (g : HostRegs) : (run t (e₂.code.map Insn.part) g).x a =
      SubRegisters.part k size (g.x (allocatedGPR r)) := by
    rw [run_map_part, hcode.code_eq, List.nil_append]
    exact hcode.value g
  rcases getGPR_result k h₂ with ⟨rfl, hindex⟩ | ⟨hs, hindex⟩
  · exact ⟨_, .of_code rfl hindex.ge hrd, hvalue, host_notMem_free _ _, fun s hs ↦ hs.host_ne _⟩
  · have hmem : a ∈ e.free := SubRegisters.Emitter.mem_free (e := ⟨e.scratchIndex, []⟩) hs
    refine ⟨_, .of_code rfl (hindex ▸ Nat.le_succ _) hrd, hvalue, ?_,
      fun s hs heq ↦ hs.held (heq ▸ hmem)⟩
    rw [Emitter.free, hindex]
    exact notMem_free_succ hs

theorem getBase_spec {base : BaseReg} (h : getBase k base e = some (a, e₁)) :
    ∃ step, Reads t e e₁ a (base.value k) step := by
  cases base with
  | gpr r size => exact getReg_spec k h
  | none => exact absurd h (not_fail (e := e))
  | rip => exact absurd h (not_fail (e := e))
  | eip => exact absurd h (not_fail (e := e))

theorem getIndex_spec {index : Option (Jit.Ref × Size)} (h : getIndex k index e = some (a, e₁)) :
    ∃ step, Reads t e e₁ a (fun g ↦ indexValue k g index) step := by
  cases index with
  | some p => exact getReg_spec k h
  | none => exact absurd h (not_fail (e := e))

end Parts

/-! ### The sum -/

section Sum

variable (k : Config) {t : Seg → U64} {e e₁ : Emitter} {address index term : Reg} {u : Unit}

/-- What is emitted to put a value into the address register. -/
structure Puts (t : Seg → U64) (e e₁ : Emitter) (address : Reg) (value : HostRegs → U64)
    (step : HostRegs → HostRegs) : Prop where
  emits : Emits t e e₁ (address :: e.free) step
  value : ∀ g, (step g).x address = value g

theorem Puts.of_emit {i : Insn} (h : emit [i] e = some (u, e₁)) (ha : Taken e address)
    (hrd : i.rd = address) : ∃ step, Puts t e e₁ address (i.value t) step := by
  obtain rfl := emit_eq_some.mp h
  subst hrd
  exact ⟨_, .of_code rfl le_rfl (by simp), fun g ↦ exec_x_self ha.ne_zero⟩

/-- Code for the address changes no register of the guest. -/
theorem Emits.guest {step : HostRegs → HostRegs} (h : Emits t e e₁ (address :: e.free) step)
    (ha : Taken e address) (ref : GuestReg) (g : HostRegs) :
    (step g).x ref.host = g.x ref.host := by
  refine h.frame (fun hmem ↦ ?_) g
  rcases List.mem_cons.mp hmem with heq | hfree
  · exact ha.host_ne ref heq
  · exact host_notMem_free ref e hfree

/-- Code before, for a register that is taken. -/
theorem Puts.comp {e₂ : Emitter} {value : HostRegs → U64} {step step' : HostRegs → HostRegs}
    (h : Emits t e e₁ (address :: e.free) step) (h' : Puts t e₁ e₂ address value step') :
    Puts t e e₂ address (fun g ↦ value (step g)) fun g ↦ step' (step g) :=
  ⟨h.trans (h'.emits.mono (List.cons_subset_cons _ h.free_subset)), fun g ↦ h'.value (step g)⟩

theorem BaseReg.value_congr (base : BaseReg) {g g' : HostRegs}
    (h : ∀ r, g'.x (allocatedGPR r) = g.x (allocatedGPR r)) : base.value k g' = base.value k g := by
  cases base <;> simp [BaseReg.value, h]

theorem indexValue_congr (index : Option (Jit.Ref × Size)) {g g' : HostRegs}
    (h : ∀ r, g'.x (allocatedGPR r) = g.x (allocatedGPR r)) :
    indexValue k g' index = indexValue k g index := by
  cases index <;> simp [indexValue, h]

theorem addScaled_spec {shift : Fin 4} (h : addScaled k shift address index term e = some (u, e₁))
    (haddress : Taken e address) (hterm : term ∉ e.free) :
    ∃ step, Puts t e e₁ address (fun g ↦ g.x term + g.x index <<< shift.val) step := by
  rw [addScaled] at h
  split at h
  · split at h
    · obtain ⟨step, hstep⟩ := Puts.of_emit (t := t) h haddress rfl
      exact ⟨step, hstep.emits, fun g ↦ (hstep.value g).trans (BitVec.add_comm _ _)⟩
    · -- the scaled index is in a register of its own
      obtain ⟨s, e₂, hs, h⟩ := bind_eq_some.mp h
      obtain ⟨⟨⟩, e₃, hcode, hpop⟩ := bind_eq_some.mp h
      obtain ⟨htaken, hfree, -⟩ := taken_of_scratch (t := t) hs
      obtain ⟨-, rfl⟩ := scratch_eq_some.mp hs
      obtain rfl := emit_eq_some.mp hcode
      obtain ⟨-, rfl⟩ := popScratch_eq_some.mp hpop
      have hst : s ≠ term := fun heq ↦ hterm (heq ▸ hfree)
      refine ⟨_, .of_code rfl le_rfl (by simp [Insn.rd, SubRegisters.Insn.rd, hfree]), fun g ↦ ?_⟩
      have hrun : run t [.part (.slli s index shift), .add address term s] g =
          exec t (exec t g (.part (.slli s index shift))) (.add address term s) := rfl
      have hscaled : (exec t g (.part (.slli s index shift))).x s = g.x index <<< shift.val :=
        exec_x_self (i := .part (.slli s index shift)) htaken.ne_zero
      have hkept : (exec t g (.part (.slli s index shift))).x term = g.x term :=
        exec_x_of_ne hst.symm
      have hsum (g : HostRegs) : (exec t g (.add address term s)).x address = g.x term + g.x s :=
        exec_x_self (i := .add address term s) haddress.ne_zero
      rw [hrun, hsum, hscaled, hkept]
  · next hshift =>
    obtain ⟨step, hstep⟩ := Puts.of_emit (t := t) h haddress rfl
    refine ⟨step, hstep.emits, fun g ↦ (hstep.value g).trans ?_⟩
    rw [Insn.value, not_not.mp hshift]
    exact congrArg _ (BitVec.shiftLeft_zero _).symm

theorem emitDisp_spec {m : MemOperand} (h : emitDisp k m address e = some (u, e₁))
    (haddress : Taken e address) :
    ∃ step, Puts t e e₁ address (fun g ↦ m.disp + m.base.value k g) step := by
  rw [emitDisp] at h
  split at h
  · obtain ⟨a, e₂, hbase, h⟩ := bind_eq_some.mp h
    obtain ⟨step, hread⟩ := getBase_spec (t := t) k hbase
    have hread' := hread.emits.mono (List.subset_cons_self address _)
    obtain ⟨step', hput⟩ := Puts.of_emit (t := t) h (haddress.mono hread'.free_subset) rfl
    refine ⟨_, (Puts.comp hread' hput).emits, fun g ↦ ?_⟩
    rw [hput.value, Insn.value, hread.value, BitVec.add_comm]
  · split at h
    · obtain ⟨⟨⟩, e₂, hload, h⟩ := bind_eq_some.mp h
      obtain ⟨a, e₃, hget, h⟩ := bind_eq_some.mp h
      obtain ⟨step, hload⟩ := Puts.of_emit (t := t) hload haddress rfl
      have haddress₂ := haddress.mono hload.emits.free_subset
      obtain ⟨step', hread⟩ := getBase_spec (t := t) k hget
      have hread' := hread.emits.mono (List.subset_cons_self address _)
      obtain ⟨step'', hput⟩ :=
        Puts.of_emit (t := t) h (haddress₂.mono hread'.free_subset) rfl
      refine ⟨_, (Puts.comp hload.emits (Puts.comp hread' hput)).emits, fun g ↦ ?_⟩
      rw [hput.value, Insn.value, hread.value, hread.emits.frame haddress₂.held, hload.value,
        m.base.value_congr k fun r ↦ hload.emits.guest haddress (.gpr r) g]
      rfl
    · next hnone =>
      obtain ⟨step, hstep⟩ := Puts.of_emit (t := t) h haddress rfl
      refine ⟨step, hstep.emits, fun g ↦ (hstep.value g).trans ?_⟩
      rw [not_not.mp hnone]
      exact (BitVec.add_zero _).symm

end Sum

section Sum

variable (k : Config) {t : Seg → U64} {e e₁ : Emitter} {address : Reg} {u : Unit}

theorem add_zero_shl (v : U64) (n : ℕ) : v + (0 : U64) <<< n = v :=
  (congrArg (v + ·) (BitVec.zero_shiftLeft n)).trans (BitVec.add_zero v)

theorem emitSum_spec {m : MemOperand} (h : emitSum k m address e = some (u, e₁))
    (haddress : Taken e address) :
    ∃ step, Puts t e e₁ address
      (fun g ↦ m.disp + m.base.value k g + indexValue k g m.index <<< m.shift.val) step := by
  rw [emitSum] at h
  split at h
  · split at h
    · obtain ⟨⟨⟩, e₂, hdisp, h⟩ := bind_eq_some.mp h
      obtain ⟨a, e₃, hget, h⟩ := bind_eq_some.mp h
      obtain ⟨step, hdisp⟩ := emitDisp_spec (t := t) k hdisp haddress
      have haddress₂ := haddress.mono hdisp.emits.free_subset
      obtain ⟨step', hread⟩ := getIndex_spec (t := t) k hget
      have hread' := hread.emits.mono (List.subset_cons_self address _)
      have haddress₃ := haddress₂.mono hread'.free_subset
      obtain ⟨step'', hput⟩ := addScaled_spec (t := t) k h haddress₃ haddress₃.held
      refine ⟨_, (Puts.comp hdisp.emits (Puts.comp hread' hput)).emits, fun g ↦ ?_⟩
      rw [hput.value, hread.value, hread.emits.frame haddress₂.held, hdisp.value,
        indexValue_congr k m.index fun r ↦ hdisp.emits.guest haddress (.gpr r) g]
    · next hnone =>
      obtain ⟨step, hdisp⟩ := emitDisp_spec (t := t) k h haddress
      refine ⟨step, hdisp.emits, fun g ↦ (hdisp.value g).trans ?_⟩
      rw [not_not.mp hnone, indexValue, add_zero_shl]
  · next hdisp =>
    have hdisp : m.disp = 0 := not_not.mp hdisp
    have hzero (v : U64) : m.disp + v = v := by rw [hdisp]; exact BitVec.zero_add v
    split at h
    · obtain ⟨a, e₂, hget, h⟩ := bind_eq_some.mp h
      obtain ⟨step, hread⟩ := getIndex_spec (t := t) k hget
      have hread' := hread.emits.mono (List.subset_cons_self address _)
      have haddress₂ := haddress.mono hread'.free_subset
      split at h
      · next hbase =>
        have hscaled (g : HostRegs) : m.disp + m.base.value k g +
            indexValue k g m.index <<< m.shift.val = indexValue k g m.index <<< m.shift.val := by
          rw [hzero, hbase]
          exact BitVec.zero_add _
        split at h
        · next hshift =>
          obtain ⟨step', hput⟩ := Puts.of_emit (t := t) h haddress₂ rfl
          refine ⟨_, (Puts.comp hread' hput).emits, fun g ↦ ?_⟩
          rw [hput.value, hscaled, Insn.value, SubRegisters.Insn.value, hread.value, hshift]
          exact (BitVec.shiftLeft_zero _).symm
        · obtain ⟨step', hput⟩ := Puts.of_emit (t := t) h haddress₂ rfl
          refine ⟨_, (Puts.comp hread' hput).emits, fun g ↦ ?_⟩
          rw [hput.value, hscaled, Insn.value, SubRegisters.Insn.value, hread.value]
      · obtain ⟨b, e₃, hget, h⟩ := bind_eq_some.mp h
        obtain ⟨step', hbase⟩ := getBase_spec (t := t) k hget
        have hbase' := hbase.emits.mono (List.subset_cons_self address _)
        have haddress₃ := haddress₂.mono hbase'.free_subset
        obtain ⟨step'', hput⟩ := addScaled_spec (t := t) k h haddress₃ hbase.held
        refine ⟨_, (Puts.comp hread' (Puts.comp hbase' hput)).emits, fun g ↦ ?_⟩
        rw [hput.value, hbase.value, hbase.emits.frame hread.held, hread.value, hzero,
          m.base.value_congr k fun r ↦ hread'.guest haddress (.gpr r) g]
    · next hindex =>
      split at h
      · obtain ⟨a, e₂, hget, h⟩ := bind_eq_some.mp h
        obtain ⟨step, hread⟩ := getBase_spec (t := t) k hget
        have hread' := hread.emits.mono (List.subset_cons_self address _)
        obtain ⟨step', hput⟩ :=
          Puts.of_emit (t := t) h (haddress.mono hread'.free_subset) rfl
        refine ⟨_, (Puts.comp hread' hput).emits, fun g ↦ ?_⟩
        rw [hput.value, Insn.value, SubRegisters.Insn.value, hread.value, hzero, not_not.mp hindex,
          indexValue, add_zero_shl]
      · exact absurd h (not_fail (e := e))

end Sum

/-! ### `lea` -/

section Lea

variable (k : Config) (i : Jit.Insn) {t : Seg → U64} {e e₁ : Emitter} {address a : Reg} {u : Unit}

theorem emitWidth_spec (h : emitWidth k i address e = some (u, e₁)) (haddress : Taken e address) :
    ∃ step, Puts t e e₁ address (fun g ↦
      if i.addressWidth = .qword then g.x address
          else k.zext i.addressWidth (g.x address)) step := by
  rw [emitWidth] at h
  split at h
  · next hwidth =>
    obtain ⟨e₂, h₂, rfl⟩ := emitPart_eq_some.mp h
    rw [SubRegisters.zext_eq] at h₂
    obtain rfl := SubRegisters.emit_eq_some.mp h₂
    refine ⟨_, .of_code rfl le_rfl ?_, fun g ↦ ?_⟩
    · intro j hj
      obtain ⟨j', hj', rfl⟩ := List.mem_map.mp hj
      exact List.mem_cons.mpr (.inl (SubRegisters.rd_of_mem_zextCode hj'))
    · rw [run_map_part, if_neg hwidth]
      exact SubRegisters.run_zextCode k _ haddress.ne_zero
  · next hwidth =>
    obtain ⟨-, rfl⟩ := pure_eq_some.mp h
    exact ⟨id, .nil le_rfl rfl, fun g ↦ (if_pos (not_not.mp hwidth)).symm⟩

theorem emitSegment_spec {seg : Seg} (h : emitSegment k i seg address e = some (u, e₁))
    (haddress : Taken e address) :
    ∃ step, Puts t e e₁ address
      (fun g ↦ if i.hasSegment then g.x address + t seg else g.x address) step := by
  rw [emitSegment] at h
  split at h
  · next hsegment =>
    split at h
    · obtain ⟨s, e₂, hs, h⟩ := bind_eq_some.mp h
      obtain ⟨⟨⟩, e₃, hcode, hpop⟩ := bind_eq_some.mp h
      obtain ⟨htaken, hfree, -⟩ := taken_of_scratch (t := t) hs
      obtain ⟨-, rfl⟩ := scratch_eq_some.mp hs
      obtain rfl := emit_eq_some.mp hcode
      obtain ⟨-, rfl⟩ := popScratch_eq_some.mp hpop
      have hne : s ≠ address := fun heq ↦ haddress.held (heq ▸ hfree)
      refine ⟨_, .of_code rfl le_rfl (by simp [Insn.rd, hfree]), fun g ↦ ?_⟩
      have hrun : run t [.ld s seg, .add address address s] g =
          exec t (exec t g (.ld s seg)) (.add address address s) := rfl
      have hsum (g : HostRegs) :
          (exec t g (.add address address s)).x address = g.x address + g.x s :=
        exec_x_self (i := .add address address s) haddress.ne_zero
      have hloaded : (exec t g (.ld s seg)).x s = t seg :=
        exec_x_self (i := .ld s seg) htaken.ne_zero
      have hkept : (exec t g (.ld s seg)).x address = g.x address := exec_x_of_ne hne.symm
      rw [hrun, hsum, hloaded, hkept, if_pos hsegment]
    · exact absurd h (not_fail (e := e))
  · next hsegment =>
    obtain ⟨-, rfl⟩ := pure_eq_some.mp h
    exact ⟨id, .nil le_rfl rfl, fun g ↦ (if_neg hsegment).symm⟩

theorem emitMode_spec (h : emitMode k address e = some (u, e₁)) (haddress : Taken e address) :
    ∃ step, Puts t e e₁ address
      (fun g ↦ if k.mode32 then Riscv.zextw (g.x address) else g.x address) step := by
  rw [emitMode] at h
  split at h
  · next hmode =>
    obtain ⟨step, hput⟩ := Puts.of_emit (t := t) h haddress rfl
    exact ⟨step, hput.emits, fun g ↦ (hput.value g).trans (if_pos hmode).symm⟩
  · next hmode =>
    obtain ⟨-, rfl⟩ := pure_eq_some.mp h
    exact ⟨id, .nil le_rfl rfl, fun g ↦ (if_neg hmode).symm⟩

section Spec

variable {ρ : Type*} (k : Config) (i : Jit.Insn) {t : Seg → U64} {e e₁ : Emitter} {a : Reg}
  {m : MemOperand} {useTemp : Bool} {g : HostRegs} {c : Core ρ}

/-- The base that `Config.lea` adds. -/
def baseTerm (m : MemOperand) (c : Core ρ) : U64 :=
  match m.known.base with
  | .reg r size => k.getRef r size c
  | _ => 0

/-- The index that `Config.lea` adds. -/
def indexTerm (m : MemOperand) (c : Core ρ) : U64 :=
  match m.known.index with
  | some (r, size) => k.getRef r size c
  | none => 0

theorem value_eq_baseTerm (h : SubRegisters.Holds g c) : m.base.value k g = baseTerm k m c := by
  rw [baseTerm, MemOperand.known]
  cases m.base with
  | gpr r size => exact (congrArg _ (h r)).trans SubRegisters.getRef_eq_part.symm
  | none => rfl
  | rip => rfl
  | eip => rfl

theorem indexValue_eq_indexTerm (h : SubRegisters.Holds g c) :
    indexValue k g m.index = indexTerm k m c := by
  rw [indexTerm, MemOperand.known]
  cases m.index with
  | some p => exact (congrArg _ (h p.1)).trans SubRegisters.getRef_eq_part.symm
  | none => rfl

/-- The sum after the address size, the segment and the mode. -/
def finish (m : MemOperand) (c : Core ρ) : U64 :=
  let address := m.disp + baseTerm k m c + (indexTerm k m c <<< m.shift.val)
  let address := if i.addressWidth = .qword then address else k.zext i.addressWidth address
  let address := if i.hasSegment then address + c.base m.segment else address
  if k.mode32 then Riscv.zextw address else address

theorem known_base_eq_none : m.known.base = .none ↔ m.base = .none := by
  rw [MemOperand.known]
  cases m.base <;> simp

theorem lea_known (hrip : m.known.base ≠ .rip) : k.lea i m.known useTemp c =
    if SegmentOnly i m then c.base m.segment
    else if ¬useTemp ∧ BaseOnly i m then baseTerm k m c
    else if ¬useTemp ∧ IndexOnly i m then indexTerm k m c
    else finish k i m c := by
  have hif {p : Prop} {b : Bool} [Decidable p] {x y y' : U64} (h : b = true ↔ p) (hy : y = y') :
      (if b = true then x else y) = if p then x else y' := by
    rw [hy]
    exact if_congr h rfl rfl
  rw [Config.lea, if_neg hrip]
  refine hif ?_ (hif ?_ (hif ?_ rfl))
  · simp only [Bool.and_eq_true, decide_eq_true_eq, known_base_eq_none, SegmentOnly, and_assoc]
    rfl
  · simp only [Bool.and_eq_true, Bool.not_eq_true', decide_eq_true_eq, ne_eq, known_base_eq_none,
      BaseOnly, and_assoc, Bool.not_eq_true]
    constructor
    · rintro ⟨h₁, h₂, h₃, h₄, h₅⟩
      exact ⟨h₁, h₂, h₅, h₃, h₄⟩
    · rintro ⟨h₁, h₂, h₅, h₃, h₄⟩
      exact ⟨h₁, h₂, h₃, h₄, h₅⟩
  · simp only [Bool.and_eq_true, Bool.not_eq_true', decide_eq_true_eq, ne_eq, known_base_eq_none,
      IndexOnly, and_assoc, Bool.not_eq_true]
    rfl

theorem known_base_ne_rip (hrip : m.base ≠ .rip) (heip : m.base ≠ .eip) : m.known.base ≠ .rip := by
  rw [MemOperand.known]
  cases hbase : m.base with
  | none => simp
  | rip => exact absurd hbase hrip
  | eip => exact absurd hbase heip
  | gpr r size => simp

/-- What `addUp` emits: it changes free registers only, and the register it returns has the
address. -/
theorem addUp_spec (h : addUp k i m useTemp e = some (a, e₁)) (heip : m.base ≠ .eip) :
    ∃ step, Emits t e e₁ e.free step ∧ ∀ (g : HostRegs) (c : Core ρ), SubRegisters.Holds g c →
      t = c.base → (step g).x a = k.lea i m.known useTemp c := by
  obtain ⟨address, e', hscratch, h⟩ := bind_eq_some.mp h
  obtain ⟨⟨⟩, e₀, hset, h⟩ := bind_eq_some.mp h
  obtain ⟨haddress, hmem, hfirst⟩ := taken_of_scratch (t := t) hscratch
  obtain rfl := setCached_eq_some.mp hset
  obtain ⟨haddress, hfirst⟩ := haddress.setCached (some address) hfirst
  set e₀ : Emitter := { e' with cached := some address }
  have hsub : address :: e₀.free ⊆ e.free := List.cons_subset.mpr ⟨hmem, hfirst.free_subset⟩
  have hput {value : HostRegs → U64} {step : HostRegs → HostRegs} {e₂ : Emitter}
      (hp : Puts t e₀ e₂ address value step) : Emits t e e₂ e.free step :=
    (hfirst.mono (List.nil_subset _)).trans (hp.emits.mono hsub)
  have hread {value : HostRegs → U64} {step : HostRegs → HostRegs} {e₂ : Emitter}
      (hr : Reads t { e₀ with cached := none } e₂ a value step) : Emits t e e₂ e.free step :=
    (hfirst.mono (List.nil_subset _)).trans ((hr.emits.mono hfirst.free_subset).of_setCached)
  split at h
  · -- the address of the next instruction is known
    next hrip =>
    split at h
    · exact absurd h (not_fail (e := e))
    · obtain ⟨⟨⟩, e₂, hcode, hret⟩ := bind_eq_some.mp h
      obtain ⟨rfl, rfl⟩ := pure_eq_some.mp hret
      obtain ⟨step, hp⟩ := Puts.of_emit (t := t) hcode haddress rfl
      refine ⟨_, hput hp, fun g c _ _ ↦ (hp.value g).trans ?_⟩
      rw [Config.lea, if_pos (by rw [MemOperand.known, hrip])]
      rfl
  next hrip =>
  have hknown := known_base_ne_rip hrip heip
  split at h
  · next hsegment =>
    split at h
    · obtain ⟨⟨⟩, e₂, hcode, hret⟩ := bind_eq_some.mp h
      obtain ⟨rfl, rfl⟩ := pure_eq_some.mp hret
      obtain ⟨step, hp⟩ := Puts.of_emit (t := t) hcode haddress rfl
      refine ⟨_, hput hp, fun g c _ hbases ↦ (hp.value g).trans ?_⟩
      rw [lea_known k i hknown, if_pos hsegment, ← hbases]
      rfl
    · exact absurd h (not_fail (e := e))
  next hsegment =>
  split at h
  · next hbase =>
    obtain ⟨⟨⟩, e₂, hset, h⟩ := bind_eq_some.mp h
    obtain rfl := setCached_eq_some.mp hset
    obtain ⟨step, hr⟩ := getBase_spec (t := t) k h
    refine ⟨_, hread hr, fun g c hg _ ↦ (hr.value g).trans ?_⟩
    rw [lea_known k i hknown, if_neg hsegment, if_pos hbase]
    exact value_eq_baseTerm k hg
  next hbase =>
  split at h
  · next hindex =>
    obtain ⟨⟨⟩, e₂, hset, h⟩ := bind_eq_some.mp h
    obtain rfl := setCached_eq_some.mp hset
    obtain ⟨step, hr⟩ := getIndex_spec (t := t) k h
    refine ⟨_, hread hr, fun g c hg _ ↦ (hr.value g).trans ?_⟩
    rw [lea_known k i hknown, if_neg hsegment, if_neg hbase, if_pos hindex]
    exact indexValue_eq_indexTerm k hg
  next hindex =>
  obtain ⟨⟨⟩, e₂, hsum, h⟩ := bind_eq_some.mp h
  obtain ⟨⟨⟩, e₃, hwidth, h⟩ := bind_eq_some.mp h
  obtain ⟨⟨⟩, e₄, hseg, h⟩ := bind_eq_some.mp h
  obtain ⟨⟨⟩, e₅, hmode, hret⟩ := bind_eq_some.mp h
  obtain ⟨rfl, rfl⟩ := pure_eq_some.mp hret
  obtain ⟨step₁, hsum⟩ := emitSum_spec (t := t) k hsum haddress
  have haddress₂ := haddress.mono hsum.emits.free_subset
  obtain ⟨step₂, hwidth⟩ := emitWidth_spec (t := t) k i hwidth haddress₂
  have haddress₃ := haddress₂.mono hwidth.emits.free_subset
  obtain ⟨step₃, hseg⟩ := emitSegment_spec (t := t) k i hseg haddress₃
  have haddress₄ := haddress₃.mono hseg.emits.free_subset
  obtain ⟨step₄, hmode⟩ := emitMode_spec (t := t) k hmode haddress₄
  refine ⟨_, hput (Puts.comp hsum.emits (Puts.comp hwidth.emits (Puts.comp hseg.emits hmode))),
    fun g c hg hbases ↦ ?_⟩
  rw [hmode.value, hseg.value, hwidth.value, hsum.value, lea_known k i hknown, if_neg hsegment,
    if_neg hbase, if_neg hindex, value_eq_baseTerm k hg, indexValue_eq_indexTerm k hg, hbases]
  rfl

end Spec

end Lea

/-! ## When it is emitted -/

/-- `m` emits if `p` holds and `need` scratch registers are free, and it leaves `take` of them in
use. -/
structure Costs {α : Type} (p : Prop) (need take : ℕ) (m : Emit α) : Prop where
  isSome : ∀ e, (m e).isSome ↔ p ∧ need ≤ e.free.length
  index : ∀ {e a e₁}, m e = some (a, e₁) → e₁.scratchIndex = e.scratchIndex + take
  le : take ≤ need

namespace Costs

variable {α β : Type} {p q : Prop} {need need' take take' : ℕ} {m : Emit α} {f : α → Emit β}

theorem congr (h : Costs p need take m) (hp : q ↔ p) (hneed : p → need' = need)
    (htake : take' = take) (hle : take' ≤ need') : Costs q need' take' m where
  isSome e := by
    rw [h.isSome, hp]
    exact and_congr_right fun hp ↦ by rw [hneed hp]
  index := htake ▸ h.index
  le := hle

theorem fail : Costs (α := α) False take take EffectiveAddress.fail where
  isSome e := by simp [EffectiveAddress.fail]
  index h := absurd h (by simp [EffectiveAddress.fail])
  le := le_rfl

theorem pure (a : α) : Costs True 0 0 (Pure.pure a : Emit α) where
  isSome _ := iff_of_true rfl ⟨trivial, Nat.zero_le _⟩
  index h := by
    obtain ⟨-, rfl⟩ := pure_eq_some.mp h
    rfl
  le := le_rfl

theorem emit (code : List Insn) : Costs True 0 0 (EffectiveAddress.emit code) where
  isSome e := by simp [EffectiveAddress.emit]
  index h := by
    obtain rfl := emit_eq_some.mp h
    rfl
  le := le_rfl

theorem setCached (r : Option Reg) : Costs True 0 0 (EffectiveAddress.setCached r) where
  isSome e := by simp [EffectiveAddress.setCached]
  index h := by
    obtain rfl := setCached_eq_some.mp h
    rfl
  le := le_rfl

theorem free_length (h : Costs p need take m) {e e₁ : Emitter} {a : α} (hm : m e = some (a, e₁)) :
    e₁.free.length = e.free.length - take := by
  rw [Emitter.free, Emitter.free, List.length_drop, List.length_drop, h.index hm, Nat.sub_sub]

theorem bind [Inhabited α] (h : Costs p need take m) (h' : ∀ a, Costs q need' take' (f a)) :
    Costs (p ∧ q) (max need (take + need')) (take + take') (m >>= f) where
  isSome e := by
    have hle := h.le
    rw [Option.isSome_iff_exists]
    constructor
    · rintro ⟨⟨b, e₂⟩, hb⟩
      obtain ⟨a, e₁, hm, hf⟩ := bind_eq_some.mp hb
      obtain ⟨hp, hneed⟩ := (h.isSome e).mp (Option.isSome_of_eq_some hm)
      obtain ⟨hq, hneed'⟩ := ((h' a).isSome e₁).mp (Option.isSome_of_eq_some hf)
      rw [h.free_length hm] at hneed'
      exact ⟨⟨hp, hq⟩, by omega⟩
    · rintro ⟨⟨hp, hq⟩, hneed⟩
      obtain ⟨⟨a, e₁⟩, hm⟩ := Option.isSome_iff_exists.mp ((h.isSome e).mpr ⟨hp, by omega⟩)
      have hneed' : need' ≤ e₁.free.length := by
        rw [h.free_length hm]
        omega
      obtain ⟨⟨b, e₂⟩, hf⟩ := Option.isSome_iff_exists.mp (((h' a).isSome e₁).mpr ⟨hq, hneed'⟩)
      exact ⟨(b, e₂), bind_eq_some.mpr ⟨a, e₁, hm, hf⟩⟩
  index hb := by
    obtain ⟨a, e₁, hm, hf⟩ := bind_eq_some.mp hb
    rw [(h' a).index hf, h.index hm, Nat.add_assoc]
  le := by
    have hle := (h' default).le
    omega

theorem scratch : Costs True 1 1 (emitPart SubRegisters.scratch) where
  isSome e := by
    rw [Option.isSome_iff_exists]
    simp only [Prod.exists, scratch_eq_some, Emitter.free, List.length_drop]
    constructor
    · rintro ⟨s, e₁, hs, -⟩
      obtain ⟨hlt, -⟩ := List.getElem?_eq_some_iff.mp hs
      exact ⟨trivial, by omega⟩
    · rintro ⟨-, hfree⟩
      exact ⟨_, _, List.getElem?_eq_getElem (by omega), rfl⟩
  index h := by
    obtain ⟨-, rfl⟩ := scratch_eq_some.mp h
    rfl
  le := le_rfl

/-- A register that is given back at once. -/
theorem scratch_pop (code : Reg → List Insn) : Costs True 1 0 (do
    let s ← emitPart SubRegisters.scratch
    EffectiveAddress.emit (code s)
    emitPart SubRegisters.popScratch) where
  isSome e := by
    rw [← scratch.isSome e, Option.isSome_iff_exists, Option.isSome_iff_exists]
    constructor
    · rintro ⟨⟨u, e₂⟩, h⟩
      obtain ⟨s, e₁, hs, -⟩ := bind_eq_some.mp h
      exact ⟨(s, e₁), hs⟩
    · rintro ⟨⟨s, e₁⟩, hs⟩
      obtain ⟨hs', rfl⟩ := scratch_eq_some.mp hs
      exact ⟨((), { e with code := e.code ++ code s }), bind_eq_some.mpr ⟨s, _, hs, bind_eq_some.mpr
        ⟨(), _, emit_eq_some.mpr rfl, popScratch_eq_some.mpr ⟨Nat.succ_ne_zero _, rfl⟩⟩⟩⟩
  index h := by
    obtain ⟨s, e₁, hs, h⟩ := bind_eq_some.mp h
    obtain ⟨⟨⟩, e₂, hcode, hpop⟩ := bind_eq_some.mp h
    obtain ⟨-, rfl⟩ := scratch_eq_some.mp hs
    obtain rfl := emit_eq_some.mp hcode
    obtain ⟨-, rfl⟩ := popScratch_eq_some.mp hpop
    rfl
  le := Nat.zero_le _

end Costs

section Parts

variable (k : Config) (i : Jit.Insn)

/-- The scratch registers that a base takes. -/
def baseScratches : BaseReg → ℕ
  | .gpr _ size => SubRegisters.getScratches k size
  | _ => 0

/-- The scratch registers that an index takes. -/
def indexScratches : Option (Jit.Ref × Size) → ℕ
  | some (_, size) => SubRegisters.getScratches k size
  | none => 0

/-- The scratch register that a scaled index takes for a while. -/
def shiftScratches (shift : Fin 4) : ℕ := if shift ≠ 0 ∧ ¬k.b then 1 else 0

/-- An index that is shifted into the address takes none. -/
def scaleScratches (m : MemOperand) : ℕ :=
  if m.index ≠ none ∧ (m.disp ≠ 0 ∨ m.base ≠ .none) then shiftScratches k m.shift else 0

/-- The scratch register that the base of a segment takes for a while. -/
def segmentScratches : ℕ := if i.hasSegment then 1 else 0

def BaseReg.IsGpr (base : BaseReg) : Prop := base ≠ .none ∧ base ≠ .rip ∧ base ≠ .eip

/-- `getGPR` takes a register unless it returns the guest's own. -/
theorem getGPR_index {ref : GuestReg} {size : Size} {e e₁ : SubRegisters.Emitter} {a : Reg}
    (h : SubRegisters.getGPR k ref size e = some (a, e₁)) :
    e₁.scratchIndex = e.scratchIndex + SubRegisters.getScratches k size := by
  cases size with
  | byte =>
    obtain ⟨-, rfl⟩ := (SubRegisters.getGPR_byte_eq_some k).mp h
    rfl
  | byteHigh =>
    obtain ⟨-, rfl⟩ := (SubRegisters.getGPR_byteHigh_eq_some k).mp h
    rfl
  | word =>
    obtain ⟨-, rfl⟩ := (SubRegisters.getGPR_word_eq_some k).mp h
    rfl
  | dword =>
    rw [SubRegisters.getScratches]
    by_cases hmode : k.mode32
    · obtain ⟨-, rfl⟩ := (SubRegisters.getGPR_dword_eq_some_mode32 k hmode).mp h
      rw [if_pos hmode, Nat.add_zero]
    · obtain ⟨-, rfl⟩ := (SubRegisters.getGPR_dword_eq_some k hmode).mp h
      rw [if_neg hmode]
  | qword =>
    obtain ⟨-, rfl⟩ := (SubRegisters.getGPR_qword_eq_some k).mp h
    rfl

namespace Costs

theorem getReg (ref : GuestReg) (size : Size) : Costs True (SubRegisters.getScratches k size)
    (SubRegisters.getScratches k size) (emitPart (SubRegisters.getGPR k ref size)) where
  isSome e := by
    rw [emitPart, Option.isSome_map, SubRegisters.getGPR_isSome]
    exact (true_and _).symm ▸ Iff.rfl
  index h := by
    obtain ⟨e₂, h₂, rfl⟩ := emitPart_eq_some.mp h
    exact getGPR_index k h₂
  le := le_rfl

theorem getBase (base : BaseReg) :
    Costs base.IsGpr (baseScratches k base) (baseScratches k base) (getBase k base) := by
  cases base with
  | gpr r size =>
    exact (getReg k (.gpr r) size).congr (by simp [BaseReg.IsGpr]) (fun _ ↦ rfl) rfl le_rfl
  | none => exact Costs.fail.congr (by simp [BaseReg.IsGpr]) (fun _ ↦ rfl) rfl le_rfl
  | rip => exact Costs.fail.congr (by simp [BaseReg.IsGpr]) (fun _ ↦ rfl) rfl le_rfl
  | eip => exact Costs.fail.congr (by simp [BaseReg.IsGpr]) (fun _ ↦ rfl) rfl le_rfl

theorem getIndex (index : Option (Jit.Ref × Size)) :
    Costs (index ≠ none) (indexScratches k index) (indexScratches k index) (getIndex k index) := by
  cases index with
  | some p => exact (getReg k (.gpr p.1) p.2).congr (by simp) (fun _ ↦ rfl) rfl le_rfl
  | none => exact Costs.fail.congr (by simp) (fun _ ↦ rfl) rfl le_rfl

theorem addScaled (shift : Fin 4) (address index term : Reg) :
    Costs True (shiftScratches k shift) 0 (addScaled k shift address index term) := by
  rw [EffectiveAddress.addScaled]
  split
  · next hshift =>
    split
    · next hb =>
      exact (Costs.emit _).congr Iff.rfl (fun _ ↦ if_neg fun h ↦ h.2 hb) rfl (Nat.zero_le _)
    · next hb =>
        exact (Costs.scratch_pop _).congr Iff.rfl (fun _ ↦ if_pos ⟨hshift, hb⟩) rfl (Nat.zero_le _)
  · next hshift =>
    exact (Costs.emit _).congr Iff.rfl (fun _ ↦ if_neg fun h ↦ hshift h.1) rfl (Nat.zero_le _)

theorem emitDisp (m : MemOperand) (address : Reg) :
    Costs (m.base = .none ∨ m.base.IsGpr) (baseScratches k m.base)
    (baseScratches k m.base) (emitDisp k m address) := by
  rw [EffectiveAddress.emitDisp]
  split
  · next h =>
    exact ((getBase k m.base).bind fun _ ↦ Costs.emit _).congr (by simp [h.1])
      (fun _ ↦ by simp) rfl le_rfl
  · split
    · next h =>
      have hcosts := (Costs.emit [.part (.li address m.disp)]).bind fun _ ↦
        (getBase k m.base).bind fun base ↦ Costs.emit [.add address address base]
      exact hcosts.congr (by simp [h]) (fun _ ↦ by simp) (by simp) le_rfl
    · next h =>
      have hzero : baseScratches k m.base = 0 := by rw [not_not.mp h]; rfl
      rw [hzero]
      exact (Costs.emit _).congr (by simp [not_not.mp h]) (fun _ ↦ rfl) rfl le_rfl

end Costs

end Parts

section Address

variable (k : Config) (i : Jit.Insn) {m : MemOperand}

/-- Base, index or displacement is there. -/
def HasTerm (m : MemOperand) : Prop := m.base ≠ .none ∨ m.index ≠ none ∨ m.disp ≠ 0

/-- `lea` knows the base and the segment, and has something to add up. -/
def Emittable (m : MemOperand) : Prop :=
  if m.base = .rip then ¬k.mode32
  else if SegmentOnly i m then m.segment = .fs ∨ m.segment = .gs
  else m.base ≠ .eip ∧ HasTerm m ∧ (i.hasSegment → m.segment = .fs ∨ m.segment = .gs ∨ k.mode32)

/-- The scratch registers that `lea` takes besides the one for the address. -/
def operandScratches (m : MemOperand) (useTemp : Bool) : ℕ :=
  if m.base = .rip ∨ SegmentOnly i m then 0
  else
    baseScratches k m.base + indexScratches k m.index +
      if ¬useTemp ∧ (BaseOnly i m ∨ IndexOnly i m) then 0
      else max (scaleScratches k m) (segmentScratches i)

namespace Costs

theorem emitSum (address : Reg) (hrip : m.base ≠ .rip) :
    Costs (m.base ≠ .eip ∧ HasTerm m)
      (baseScratches k m.base + indexScratches k m.index + scaleScratches k m)
      (baseScratches k m.base + indexScratches k m.index) (emitSum k m address) := by
  have hgpr : m.base.IsGpr ↔ m.base ≠ .none ∧ m.base ≠ .eip :=
    and_congr_right fun _ ↦ and_iff_right hrip
  have hterm (h : m.index = none) : indexScratches k m.index = 0 := by rw [h]; rfl
  have hbase (h : m.base = .none) : baseScratches k m.base = 0 := by rw [h]; rfl
  have hnonempty : m.base ≠ .eip ∧ HasTerm m ↔
      (m.base = .none ∨ m.base.IsGpr) ∧ (m.base ≠ .none ∨ m.index ≠ none ∨ m.disp ≠ 0) := by
    rw [hgpr, HasTerm]
    refine and_congr_left fun _ ↦ ⟨fun h ↦ ?_, ?_⟩
    · exact (em _).imp_right fun hne ↦ ⟨hne, h⟩
    · rintro (h | h)
      · simp [h]
      · exact h.2
  rw [hnonempty, EffectiveAddress.emitSum]
  split
  · next hdisp =>
    split
    · next hindex =>
      have hcosts := (emitDisp k m address).bind fun _ ↦
        (getIndex k m.index).bind fun index ↦ addScaled k m.shift address index address
      have hscale : scaleScratches k m = shiftScratches k m.shift := if_pos ⟨hindex, .inl hdisp⟩
      exact hcosts.congr (by simp [hindex]) (fun _ ↦ by rw [hscale]; omega) (by omega) (by omega)
    · next hindex =>
      have hscale : scaleScratches k m = 0 := if_neg fun h ↦ hindex h.1
      have hindex := hterm (not_not.mp hindex)
      exact (emitDisp k m address).congr (and_iff_left (.inr (.inr hdisp))) (fun _ ↦ by omega)
        (by omega) (by omega)
  · next hdisp =>
    split
    · next hindex =>
      have hget := getIndex k m.index
      split
      · next hnone =>
        have hscale : scaleScratches k m = 0 := if_neg fun h ↦ h.2.elim hdisp (absurd hnone)
        have hzero := hbase hnone
        split
        · exact (hget.bind fun index ↦ Costs.emit [.part (.mv address index)]).congr
            (by simp [hnone, hindex]) (fun _ ↦ by omega) (by omega) (by omega)
        · exact (hget.bind fun index ↦ Costs.emit [.part (.slli address index m.shift)]).congr
            (by simp [hnone, hindex]) (fun _ ↦ by omega) (by omega) (by omega)
      · next hsome =>
        have hcosts := hget.bind fun index ↦ (getBase k m.base).bind fun base ↦
          addScaled k m.shift address index base
        have hscale : scaleScratches k m = shiftScratches k m.shift :=
          if_pos ⟨hindex, .inr hsome⟩
        exact hcosts.congr (by simp [hindex, hsome]) (fun _ ↦ by rw [hscale]; omega) (by omega)
          (by omega)
    · next hindex =>
      have hscale : scaleScratches k m = 0 := if_neg fun h ↦ hindex h.1
      have hzero := hterm (not_not.mp hindex)
      split
      · next hsome =>
        exact ((getBase k m.base).bind fun base ↦ Costs.emit [.part (.mv address base)]).congr
          (by simp [hsome]) (fun _ ↦ by omega) (by omega) (by omega)
      · next hnone =>
        have hzero' := hbase (not_not.mp hnone)
        refine Costs.fail.congr ?_ (fun h ↦ absurd h not_false) rfl (by omega)
        simp [not_not.mp hnone, not_not.mp hindex, not_not.mp hdisp]

theorem emitWidth (address : Reg) : Costs True 0 0 (emitWidth k i address) := by
  rw [EffectiveAddress.emitWidth]
  split
  · constructor
    · intro e
      rw [emitPart, SubRegisters.zext_eq]
      simp [SubRegisters.emit]
    · intro e a e₁ h
      obtain ⟨e₂, h₂, rfl⟩ := emitPart_eq_some.mp h
      rw [SubRegisters.zext_eq] at h₂
      obtain rfl := SubRegisters.emit_eq_some.mp h₂
      rfl
    · exact le_rfl
  · exact Costs.pure ()

theorem emitSegment (seg : Seg) (address : Reg) :
    Costs (i.hasSegment → seg = .fs ∨ seg = .gs ∨ k.mode32)
    (segmentScratches i) 0 (emitSegment k i seg address) := by
  rw [EffectiveAddress.emitSegment]
  split
  · next hsegment =>
    have hone : segmentScratches i = 1 := if_pos hsegment
    split
    · next hseg =>
      exact (Costs.scratch_pop _).congr (by simp [hseg]) (fun _ ↦ hone) rfl (Nat.zero_le _)
    · next hseg =>
      exact Costs.fail.congr (by simp [hsegment,
        hseg]) (fun h ↦ absurd h not_false) rfl (Nat.zero_le _)
  · next hsegment =>
    have hzero : segmentScratches i = 0 := if_neg hsegment
    exact (Costs.pure ()).congr (by simp [hsegment]) (fun _ ↦ hzero) rfl (Nat.zero_le _)

theorem emitMode (address : Reg) : Costs True 0 0 (emitMode k address) := by
  rw [EffectiveAddress.emitMode]
  split
  · exact Costs.emit _
  · exact Costs.pure ()

/-- The scratch registers that `lea` leaves in use besides the one for the address. -/
def operandTaken (m : MemOperand) : ℕ :=
  if m.base = .rip ∨ SegmentOnly i m then 0 else baseScratches k m.base + indexScratches k m.index

theorem addUp (m : MemOperand) (useTemp : Bool) : Costs (Emittable k i m)
    (1 + operandScratches k i m useTemp) (1 + operandTaken k i m) (addUp k i m useTemp) := by
  have hle : operandTaken k i m ≤ operandScratches k i m useTemp := by
    rw [operandTaken, operandScratches]
    split
    · exact le_rfl
    · exact Nat.le_add_right _ _
  refine Costs.congr (scratch.bind fun address ↦ (setCached (some address)).bind fun _ ↦
    (?_ : Costs (Emittable k i m) (operandScratches k i m useTemp) (operandTaken k i m) _))
    (by simp) (fun _ ↦ by omega) (by omega) (by omega)
  have hp {p q r : Prop} [Decidable r] (h : r) : (if r then p else q) ↔ p := iff_of_eq (if_pos h)
  have hn {p q r : Prop} [Decidable r] (h : ¬r) : (if r then p else q) ↔ q := iff_of_eq (if_neg h)
  by_cases hrip : m.base = .rip
  · have htaken : operandTaken k i m = 0 := if_pos (.inl hrip)
    have hscratches : operandScratches k i m useTemp = 0 := if_pos (.inl hrip)
    have hemit : Emittable k i m ↔ ¬k.mode32 := hp hrip
    rw [if_pos hrip, htaken, hscratches]
    split
    · next hmode => exact fail.congr (by simp [hemit, hmode]) (fun _ ↦ rfl) rfl le_rfl
    · next hmode =>
      exact ((emit _).bind fun _ ↦ pure address).congr (by simp [hemit,
        hmode]) (fun _ ↦ rfl) rfl le_rfl
  rw [if_neg hrip]
  by_cases hsegment : SegmentOnly i m
  · have htaken : operandTaken k i m = 0 := if_pos (.inr hsegment)
    have hscratches : operandScratches k i m useTemp = 0 := if_pos (.inr hsegment)
    have hemit : Emittable k i m ↔ m.segment = .fs ∨ m.segment = .gs :=
      (hn hrip).trans (hp hsegment)
    rw [if_pos hsegment, htaken, hscratches]
    split
    · next hseg =>
      exact ((emit _).bind fun _ ↦ pure address).congr (by simp [hemit,
        hseg]) (fun _ ↦ rfl) rfl le_rfl
    · next hseg => exact fail.congr (by simp [hemit, hseg]) (fun _ ↦ rfl) rfl le_rfl
  have hneither := not_or.mpr ⟨hrip, hsegment⟩
  have htaken : operandTaken k i m = baseScratches k m.base + indexScratches k m.index :=
    if_neg hneither
  have hscratches : operandScratches k i m useTemp =
      baseScratches k m.base + indexScratches k m.index +
        if ¬useTemp ∧ (BaseOnly i m ∨ IndexOnly i m) then 0
        else max (scaleScratches k m) (segmentScratches i) := if_neg hneither
  have hemit : Emittable k i m ↔ m.base ≠ .eip ∧ HasTerm m ∧
      (i.hasSegment → m.segment = .fs ∨ m.segment = .gs ∨ k.mode32) := (hn hrip).trans (hn hsegment)
  rw [if_neg hsegment, htaken]
  by_cases hbase : ¬useTemp ∧ BaseOnly i m
  · obtain ⟨hnoseg, hsome, hindex, -⟩ := hbase.2
    rw [if_pos hbase]
    rw [if_pos ⟨hbase.1, .inl hbase.2⟩] at hscratches
    have hzero : indexScratches k m.index = 0 := by rw [hindex]; rfl
    refine ((setCached none).bind fun _ ↦ getBase k m.base).congr ?_ (fun _ ↦ by omega) (by omega)
      (by omega)
    rw [hemit, BaseReg.IsGpr, HasTerm]
    simp [hsome, hrip, hnoseg]
  rw [if_neg hbase]
  by_cases hindex : ¬useTemp ∧ IndexOnly i m
  · obtain ⟨hnoseg, hnone, hsome, -⟩ := hindex.2
    rw [if_pos hindex]
    rw [if_pos ⟨hindex.1, .inr hindex.2⟩] at hscratches
    have hzero : baseScratches k m.base = 0 := by rw [hnone]; rfl
    refine ((setCached none).bind fun _ ↦ getIndex k m.index).congr ?_ (fun _ ↦ by omega) (by omega)
      (by omega)
    rw [hemit, HasTerm]
    simp [hsome, hnone, hnoseg]
  rw [if_neg hindex]
  rw [if_neg fun h ↦ h.2.elim (fun h' ↦ hbase ⟨h.1, h'⟩) fun h' ↦ hindex ⟨h.1, h'⟩] at hscratches
  have hcosts := (emitSum k address hrip).bind fun _ ↦
    (emitWidth k i address).bind fun _ ↦
      (emitSegment k i m.segment address).bind fun _ ↦
        (emitMode k address).bind fun _ ↦ pure address
  refine hcosts.congr ?_ (fun _ ↦ by omega) (by omega) (by omega)
  rw [hemit]
  simp [and_assoc]

end Costs

end Address

/-! ## The cached operand -/

/-- The cached operand stays what it is. -/
def KeepsCached {α : Type} (m : Emit α) : Prop :=
  ∀ (e : Emitter) (a : α) (e₁ : Emitter), m e = some (a, e₁) → e₁.cached = e.cached

namespace KeepsCached

variable {α β : Type} {m : Emit α} {f : α → Emit β} (k : Config) (i : Jit.Insn)

theorem fail : KeepsCached (α := α) EffectiveAddress.fail := fun _ _ _ h ↦ absurd h not_fail

theorem pure (a : α) : KeepsCached (Pure.pure a : Emit α) := fun _ _ _ h ↦ by
  rw [← (pure_eq_some.mp h).2]

theorem emit (code : List Insn) : KeepsCached (EffectiveAddress.emit code) := fun _ _ _ h ↦ by
  rw [← emit_eq_some.mp h]

theorem emitPart (m : SubRegisters.Emit α) : KeepsCached (EffectiveAddress.emitPart m) := by
  intro e a e₁ h
  obtain ⟨e'', -, rfl⟩ := emitPart_eq_some.mp h
  rfl

theorem bind (h : KeepsCached m) (h' : ∀ a, KeepsCached (f a)) : KeepsCached (m >>= f) := by
  intro e b e₁ hb
  obtain ⟨a, e', hm, hf⟩ := bind_eq_some.mp hb
  rw [h' a _ _ _ hf, h _ _ _ hm]

theorem getBase (base : BaseReg) : KeepsCached (EffectiveAddress.getBase k base) := by
  cases base with
  | gpr r size => exact emitPart _
  | _ => exact fail

theorem getIndex (index : Option (Jit.Ref × Size)) :
    KeepsCached (EffectiveAddress.getIndex k index) := by
  cases index with
  | some p => exact emitPart _
  | none => exact fail

theorem addScaled (shift : Fin 4) (address index term : Reg) :
    KeepsCached (EffectiveAddress.addScaled k shift address index term) := by
  rw [EffectiveAddress.addScaled]
  split
  · split
    · exact emit _
    · exact (emitPart _).bind fun _ ↦ (emit _).bind fun _ ↦ emitPart _
  · exact emit _

theorem emitDisp (m : MemOperand) (address : Reg) :
    KeepsCached (EffectiveAddress.emitDisp k m address) := by
  rw [EffectiveAddress.emitDisp]
  split
  · exact (getBase k _).bind fun _ ↦ emit _
  · split
    · exact (emit _).bind fun _ ↦ (getBase k _).bind fun _ ↦ emit _
    · exact emit _

theorem emitSum (m : MemOperand) (address : Reg) :
    KeepsCached (EffectiveAddress.emitSum k m address) := by
  rw [EffectiveAddress.emitSum]
  split
  · split
    · exact (emitDisp k _ _).bind fun _ ↦ (getIndex k _).bind fun _ ↦ addScaled k _ _ _ _
    · exact emitDisp k _ _
  · split
    · refine (getIndex k _).bind fun index ↦ ?_
      split
      · split <;> exact emit _
      · exact (getBase k _).bind fun _ ↦ addScaled k _ _ _ _
    · split
      · exact (getBase k _).bind fun _ ↦ emit _
      · exact fail

theorem emitWidth (address : Reg) : KeepsCached (EffectiveAddress.emitWidth k i address) := by
  rw [EffectiveAddress.emitWidth]
  split
  · exact emitPart _
  · exact pure _

theorem emitSegment (seg : Seg) (address : Reg) :
    KeepsCached (EffectiveAddress.emitSegment k i seg address) := by
  rw [EffectiveAddress.emitSegment]
  split
  · split
    · exact (emitPart _).bind fun _ ↦ (emit _).bind fun _ ↦ emitPart _
    · exact fail
  · exact pure _

theorem emitMode (address : Reg) : KeepsCached (EffectiveAddress.emitMode k address) := by
  rw [EffectiveAddress.emitMode]
  split
  · exact emit _
  · exact pure _

end KeepsCached

/-! ## The address an operand has -/

section Operand

variable {ρ : Type*} (k : Config) (i : Jit.Insn) (u : Use) (m : MemOperand) (c : Core ρ)

/-- A base as a number. -/
def BaseReg.offset : BaseReg → ℕ
  | .none => 0
  | .rip => (i.rip + i.length).toNat
  | .eip => (i.rip + i.length).toNat
  | .gpr r size => (c.gpr r).toNat % 2 ^ size.bits

/-- An index as a number. -/
def indexOffset : Option (Jit.Ref × Size) → ℕ
  | some (r, size) => (c.gpr r).toNat % 2 ^ size.bits
  | none => 0

/-- The sum of base, scaled index and displacement wraps around at the address size. -/
def offset : ℕ :=
  (m.base.offset i c + indexOffset c m.index * 2 ^ m.shift.val + m.disp.toNat) %
    2 ^ i.addressWidth.bits

/-- In 64-bit mode `CS`, `DS`, `ES` and `SS` have no base. -/
def segmentBase : ℕ :=
  if k.mode32 ∨ m.segment = .fs ∨ m.segment = .gs then (c.base m.segment).toNat else 0

/-- The number of bits of a linear address. -/
def linearBits : ℕ := if k.mode32 then 32 else 64

/-- The linear address of an access, and the offset that `LEA` is after. -/
def linear : ℕ :=
  (offset i m c + if u.access then segmentBase k m c else 0) % 2 ^ linearBits k

/-- What the decoder does. A relative address is one of 64-bit mode and has no index, and in 64-bit
mode other prefixes than those of `FS` and `GS` are ignored. -/
structure Decoded : Prop where
  width : i.addressWidth = (if k.mode32 then Size.dword else .qword) ∨
    i.addressWidth = (if k.mode32 then Size.word else .dword)
  base : ∀ r size, m.base = .gpr r size → size = i.addressWidth
  index : ∀ r size, m.index = some (r, size) → size = i.addressWidth
  rip : m.base = .rip → ¬k.mode32 ∧ i.addressWidth = .qword ∧ m.index = none
  segment : ¬k.mode32 → (i.hasSegment ↔ m.segment = .fs ∨ m.segment = .gs)

/-- The state of a 32-bit program: registers and bases are 32 bits wide. -/
structure Mode32State : Prop where
  gpr : Jit.Zext c
  base : ∀ seg, (c.base seg).toNat < 2 ^ 32

end Operand

section Value

variable {ρ : Type*} {k : Config} {i : Jit.Insn} {m : MemOperand} {c : Core ρ} {useTemp : Bool}

theorem toNat_getRef {r : Jit.Ref} {size : Size} (hsize : size ∈ [Size.word, .dword, .qword])
    (hz : k.mode32 → Jit.Zext c) : (k.getRef r size c).toNat = (c.gpr r).toNat % 2 ^ size.bits := by
  have hmem : size = .word ∨ size = .dword ∨ size = .qword := by simpa using hsize
  rcases hmem with rfl | rfl | rfl
  · exact Config.toNat_zext k .word _
  · rw [Config.getRef]
    split
    · next hmode => exact (Nat.mod_eq_of_lt (Jit.low32_iff.mp (hz hmode r))).symm
    · exact Config.toNat_zext k .dword _
  · exact (Nat.mod_eq_of_lt (c.gpr r).isLt).symm

namespace Decoded

theorem width_mem (h : Decoded k i m) : i.addressWidth ∈ [Size.word, .dword, .qword] := by
  obtain hwidth | hwidth := h.width <;> rw [hwidth] <;> cases k.mode32 <;> decide

theorem width_le (h : Decoded k i m) : i.addressWidth.bits ≤ linearBits k := by
  rw [linearBits]
  obtain hwidth | hwidth := h.width <;> rw [hwidth] <;> cases k.mode32 <;> decide

theorem offset_lt (i : Jit.Insn) (m : MemOperand) (c : Core ρ) :
    offset i m c < 2 ^ i.addressWidth.bits := Nat.mod_lt _ (Nat.two_pow_pos _)

theorem offset_lt_linear (h : Decoded k i m) : offset i m c < 2 ^ linearBits k :=
  (offset_lt i m c).trans_le (Nat.pow_le_pow_right Nat.two_pos h.width_le)

/-- Without its displacement an operand is decoded the same way. -/
theorem withDisp (h : Decoded k i m) (d : U64) : Decoded k i { m with disp := d } :=
  ⟨h.width, h.base, h.index, h.rip, h.segment⟩

theorem toNat_baseTerm (h : Decoded k i m) (hz : k.mode32 → Jit.Zext c) (hrip : m.base ≠ .rip)
    (heip : m.base ≠ .eip) : (baseTerm k m c).toNat = m.base.offset i c := by
  rw [baseTerm, MemOperand.known]
  cases hbase : m.base with
  | gpr r size => exact toNat_getRef (h.base r size hbase ▸ h.width_mem) hz
  | none => rfl
  | rip => exact absurd hbase hrip
  | eip => exact absurd hbase heip

theorem toNat_indexTerm (h : Decoded k i m) (hz : k.mode32 → Jit.Zext c) :
    (indexTerm k m c).toNat = indexOffset c m.index := by
  rw [indexTerm, MemOperand.known]
  cases hindex : m.index with
  | some p => exact toNat_getRef (h.index p.1 p.2 hindex ▸ h.width_mem) hz
  | none => rfl

/-- The sum that `lea` emits, as a number. -/
theorem toNat_finish (h : Decoded k i m) (hz : k.mode32 → Jit.Zext c) (hrip : m.base ≠ .rip)
    (heip : m.base ≠ .eip) : (finish k i m c).toNat =
      (offset i m c + if i.hasSegment then (c.base m.segment).toNat else 0) % 2 ^ linearBits k := by
  have hsum : (m.disp + baseTerm k m c + (indexTerm k m c <<< m.shift.val)).toNat =
      (m.base.offset i c + indexOffset c m.index * 2 ^ m.shift.val + m.disp.toNat) % 2 ^ 64 := by
    rw [BitVec.toNat_add, BitVec.toNat_add, BitVec.toNat_shiftLeft, h.toNat_baseTerm hz hrip heip,
      h.toNat_indexTerm hz, Nat.shiftLeft_eq]
    omega
  have hdvd : 2 ^ i.addressWidth.bits ∣ 2 ^ 64 := by
    obtain hwidth | hwidth := h.width <;> rw [hwidth] <;> cases k.mode32 <;> decide
  have hwidth : (if i.addressWidth = .qword then m.disp + baseTerm k m c +
    (indexTerm k m c <<< m.shift.val)
      else k.zext i.addressWidth (m.disp + baseTerm k m c +
        (indexTerm k m c <<< m.shift.val))).toNat =
      offset i m c := by
    rw [offset, ← Nat.mod_mod_of_dvd _ hdvd, ← hsum]
    split
    · next hq => rw [hq]; exact (Nat.mod_eq_of_lt (BitVec.isLt _)).symm
    · exact Config.toNat_zext k _ _
  have hmode (v : U64) : (if k.mode32 then Riscv.zextw v else v).toNat =
      v.toNat % 2 ^ linearBits k := by
    rw [linearBits]
    split
    · exact Riscv.toNat_zextw v
    · exact (Nat.mod_eq_of_lt v.isLt).symm
  have hdvd' : 2 ^ linearBits k ∣ 2 ^ 64 := by
    rw [linearBits]
    cases k.mode32 <;> decide
  rw [finish, hmode]
  split
  · rw [BitVec.toNat_add, hwidth, Nat.mod_mod_of_dvd _ hdvd']
  · rw [hwidth, Nat.add_zero]

theorem offset_direct (h : Decoded k i m) (hz : k.mode32 → Jit.Zext c) (hrip : m.base ≠ .rip)
    (heip : m.base ≠ .eip) (hdisp : m.disp = 0) (hindex : m.index = none) :
    (baseTerm k m c).toNat = offset i m c := by
  have hzero : (m.disp).toNat = 0 := by rw [hdisp]; rfl
  rw [h.toNat_baseTerm hz hrip heip, offset, hindex, hzero, indexOffset, Nat.zero_mul, Nat.add_zero]
  refine (Nat.mod_eq_of_lt ?_).symm
  cases hbase : m.base with
  | gpr r size =>
    rw [← h.base r size hbase]
    exact Nat.mod_lt _ (Nat.two_pow_pos _)
  | none => exact Nat.two_pow_pos _
  | rip => exact absurd hbase hrip
  | eip => exact absurd hbase heip

theorem offset_index (h : Decoded k i m) (hz : k.mode32 → Jit.Zext c) (hbase : m.base = .none)
    (hdisp : m.disp = 0) (hshift : m.shift = 0) : (indexTerm k m c).toNat = offset i m c := by
  have hzero : (m.disp).toNat = 0 := by rw [hdisp]; rfl
  have hone : 2 ^ (0 : Fin 4).val = 1 := rfl
  rw [h.toNat_indexTerm hz, offset, hbase, hzero, hshift, hone, BaseReg.offset, Nat.zero_add,
    Nat.add_zero, Nat.mul_one]
  refine (Nat.mod_eq_of_lt ?_).symm
  cases hindex : m.index with
  | some p =>
    rw [← h.index p.1 p.2 hindex]
    exact Nat.mod_lt _ (Nat.two_pow_pos _)
  | none => exact Nat.two_pow_pos _

/-- What `lea` computes for an operand that is not relative. -/
theorem toNat_lea (h : Decoded k i m) (hs : k.mode32 → Mode32State c) (hrip : m.base ≠ .rip)
    (heip : m.base ≠ .eip) : (k.lea i m.known useTemp c).toNat =
      (offset i m c + if i.hasSegment then (c.base m.segment).toNat else 0) % 2 ^ linearBits k := by
  have hz (hmode : k.mode32) : Jit.Zext c := (hs hmode).gpr
  have hnoseg (hseg : ¬i.hasSegment) :
      (offset i m c + if i.hasSegment then (c.base m.segment).toNat else 0) % 2 ^ linearBits k =
        offset i m c := by
    rw [if_neg hseg, Nat.add_zero, Nat.mod_eq_of_lt h.offset_lt_linear]
  rw [lea_known k i (known_base_ne_rip hrip heip)]
  split
  · next hsegment =>
    obtain ⟨hseg, hbase, hindex, hdisp⟩ := hsegment
    have hzero : offset i m c = 0 := by
      simp [offset, hbase, hindex, hdisp, BaseReg.offset, indexOffset]
    have hlt : (c.base m.segment).toNat < 2 ^ linearBits k := by
      rw [linearBits]
      split
      · next hmode => exact (hs hmode).base m.segment
      · exact BitVec.isLt _
    rw [hzero, if_pos hseg, Nat.zero_add, Nat.mod_eq_of_lt hlt]
  split
  · next hbase =>
    obtain ⟨-, hseg, -, hindex, hdisp⟩ := hbase
    rw [hnoseg hseg]
    exact h.offset_direct hz hrip heip hdisp hindex
  split
  · next hindex =>
    obtain ⟨-, hseg, hbase, -, hdisp, hshift⟩ := hindex
    rw [hnoseg hseg]
    exact h.offset_index hz hbase hdisp hshift
  · exact h.toNat_finish hz hrip heip

theorem toNat_lea_rip (h : Decoded k i m) (hrip : m.base = .rip) :
    (k.lea i m.known useTemp c).toNat = offset i m c := by
  obtain ⟨-, hwidth, hindex⟩ := h.rip hrip
  rw [Config.lea, if_pos (by rw [MemOperand.known, hrip]), offset, hrip, hindex,
    hwidth, indexOffset, Nat.zero_mul, Nat.add_zero]
  exact BitVec.toNat_add _ _

end Decoded

end Value

/-! ## The result -/

section Result

variable {ρ : Type*} (k : Config) (i : Jit.Insn) (u : Use) (m : MemOperand)
    (c : Core ρ) (e : Emitter)

/-- The operand that `lea` gets. -/
def Use.operand : MemOperand := if u.folds k i m then { m with disp := 0 } else m

/-- What is left to the access. -/
def Use.imm : U64 := if u.folds k i m then m.disp else 0

def Use.useTemp : Use → Bool
  | lea _ useTemp => useTemp
  | _ => false

/-- The scratch registers that have to be free. `getGPR` takes one for the result first, and an
address that is cached takes none. -/
def Use.scratches : ℕ :=
  (if u = .get then 1 else 0) +
    if e.cached.isSome then 0 else 1 + operandScratches k i (u.operand k i m) u.useTemp

/-- An address that is cached was added up by `lea` before, into a scratch register. -/
structure Caches (r : Reg) : Prop where
  scratch : r ∈ scratchGprs
  emitted : Emittable k i (u.operand k i m)

/-- The code is emitted, the sum of what it returns is the address, and the guest's registers are
unchanged. A register with a cached address has what `lea` left in it. -/
def Right : Prop :=
  ∃ a imm e₁ code, u.address k i m e = some ((a, imm), e₁) ∧ e₁.code = e.code ++ code ∧
    ∀ g : HostRegs, SubRegisters.Holds g c →
      (∀ r ∈ e.cached, g.x r = k.lea i (u.operand k i m).known u.useTemp c) →
        ((run c.base code g).x a + imm).toNat = linear k i u m c ∧
          ∀ ref : GuestReg, (run c.base code g).x ref.host = g.x ref.host

/-- The sum of base, index and a displacement that is left to the access. -/
def reached : ℤ := offset i { m with disp := 0 } c + m.disp.toInt

/-- A 16-bit address that should have wrapped around to the start of a segment at `0x10000`. -/
def Cancels : Prop :=
  u.folds k i m ∧ i.addressWidth = .word ∧ 2 ^ 16 ≤ reached i m c ∧
    (c.base m.segment).toNat = 2 ^ 16

/-- What can go wrong. The two failures of an access without prefix cancel out in one case. -/
structure Ok : Prop where
  base : m.base ≠ .eip
  term : HasTerm (u.operand k i m) ∨ i.hasSegment ∧ (m.segment = .fs ∨ m.segment = .gs)
  scratches : u.scratches k i m e ≤ e.free.length
  segment : i.hasSegment → c.base m.segment = 0 ∨ (u.access ↔ m.base ≠ .rip)
  implicit : ¬i.hasSegment → k.mode32 → u.access → c.base m.segment = 0 ∨ Cancels k i u m c
  disp : u.folds k i m → i.addressWidth ≠ .qword →
    0 ≤ reached i m c ∧ reached i m c < 2 ^ i.addressWidth.bits ∨ Cancels k i u m c

end Result

section Result

variable {ρ : Type*} {k : Config} {i : Jit.Insn} {u : Use} {m : MemOperand} {c : Core ρ}
  {e : Emitter}

theorem Use.address_eq : u.address k i m =
    if u = .get then do
      let _dest ← emitPart SubRegisters.scratch
      let address ← EffectiveAddress.lea k i (u.operand k i m) u.useTemp
      return (address, u.imm k i m)
    else do
      let address ← EffectiveAddress.lea k i (u.operand k i m) u.useTemp
      return (address, u.imm k i m) := by
  cases u with
  | lea access useTemp => rfl
  | get =>
    rw [if_pos rfl, Use.address, accessAddress, operand, imm, folds]
    cases k.folds i m.known <;> rfl
  | set =>
    rw [if_neg (by decide), Use.address, accessAddress, operand, imm, folds]
    cases k.folds i m.known <;> rfl

/-- `address` for an operand that is not the cached one. -/
def Use.addUp (k : Config) (i : Jit.Insn) (u : Use) (m : MemOperand) : Emit (Reg × U64) :=
  if u = .get then do
    let _dest ← emitPart SubRegisters.scratch
    let address ← EffectiveAddress.addUp k i (u.operand k i m) u.useTemp
    return (address, u.imm k i m)
  else do
    let address ← EffectiveAddress.addUp k i (u.operand k i m) u.useTemp
    return (address, u.imm k i m)

theorem Use.address_of_not_cached (h : e.cached = none) :
    u.address k i m e = Use.addUp k i u m e := by
  have hbind (e' : Emitter) (h' : e'.cached = none) : (do
      let address ← EffectiveAddress.lea k i (u.operand k i m) u.useTemp
      return (address, u.imm k i m) : Emit (Reg × U64)) e' = (do
      let address ← EffectiveAddress.addUp k i (u.operand k i m) u.useTemp
      return (address, u.imm k i m) : Emit (Reg × U64)) e' := by
    refine congrArg (Option.bind · _) ?_
    rw [EffectiveAddress.lea, h']
  rw [Use.address_eq, Use.addUp]
  split
  · refine Option.ext fun p ↦ ?_
    obtain ⟨b, e'⟩ := p
    refine bind_eq_some.trans (Iff.trans ?_ bind_eq_some.symm)
    refine exists₂_congr fun dest e₂ ↦ and_congr_right fun hdest ↦ ?_
    obtain ⟨-, rfl⟩ := scratch_eq_some.mp hdest
    rw [hbind { e with scratchIndex := e.scratchIndex + 1 } h]
  · exact hbind e h

/-- A cached address is returned, and nothing is emitted. -/
theorem Use.address_of_cached {r : Reg} (h : e.cached = some r) {p : Reg × U64} {e₁ : Emitter} :
    u.address k i m e = some (p, e₁) ↔ p = (r, u.imm k i m) ∧
      if u = .get then ∃ dest, emitPart SubRegisters.scratch e = some (dest, e₁) else e = e₁ := by
  have hlea (e' : Emitter) (h' : e'.cached = some r) : (do
      let address ← EffectiveAddress.lea k i (u.operand k i m) u.useTemp
      return (address, u.imm k i m) : Emit (Reg × U64)) e' = some ((r, u.imm k i m), e') := by
    refine bind_eq_some.mpr ⟨r, e', ?_, rfl⟩
    rw [EffectiveAddress.lea, h']
  rw [Use.address_eq]
  split
  · refine bind_eq_some.trans ⟨?_, ?_⟩
    · rintro ⟨dest, e₂, hdest, hrest⟩
      obtain ⟨-, rfl⟩ := scratch_eq_some.mp hdest
      rw [hlea { e with scratchIndex := e.scratchIndex + 1 } h] at hrest
      obtain ⟨rfl, rfl⟩ := Prod.mk.inj (Option.some.inj hrest)
      exact ⟨rfl, dest, hdest⟩
    · rintro ⟨rfl, dest, hdest⟩
      refine ⟨dest, e₁, hdest, ?_⟩
      obtain ⟨-, rfl⟩ := scratch_eq_some.mp hdest
      exact hlea { e with scratchIndex := e.scratchIndex + 1 } h
  · rw [hlea e h, Option.some.injEq, Prod.mk.injEq]
    exact and_congr_left fun _ ↦ eq_comm

theorem Costs.address : Costs (Emittable k i (u.operand k i m))
    ((if u = .get then 1 else 0) + (1 + operandScratches k i (u.operand k i m) u.useTemp))
    ((if u = .get then 1 else 0) + (1 + operandTaken k i (u.operand k i m)))
    (Use.addUp k i u m) := by
  have hlea := (Costs.addUp k i (u.operand k i m) u.useTemp).bind fun address ↦
    Costs.pure (address, u.imm k i m)
  have hle := (Costs.addUp k i (u.operand k i m) u.useTemp).le
  rw [Use.addUp]
  split
  · exact (Costs.scratch.bind fun _ ↦ hlea).congr (by simp) (fun _ ↦ by omega) (by omega) (by omega)
  · exact hlea.congr (by simp) (fun _ ↦ by omega) (by omega) (by omega)

/-- The code is emitted if the operand is one that `lea` knows, now or before, and there are enough
registers. -/
theorem address_isSome_iff (hcached : ∀ r ∈ e.cached, Caches k i u m r) :
    (u.address k i m e).isSome ↔
      Emittable k i (u.operand k i m) ∧ u.scratches k i m e ≤ e.free.length := by
  rw [Use.scratches]
  cases hcase : e.cached with
  | none =>
    rw [Use.address_of_not_cached hcase, Costs.address.isSome]
    rfl
  | some r =>
    have hscratch := Costs.scratch.isSome e
    rw [true_and, Option.isSome_iff_exists] at hscratch
    rw [and_iff_right (hcached r hcase).emitted, Option.isSome_iff_exists]
    simp only [Use.address_of_cached hcase, Option.isSome_some, if_true, Nat.add_zero]
    split
    · rw [← hscratch]
      constructor
      · rintro ⟨⟨p, e₁⟩, -, dest, hdest⟩
        exact ⟨(dest, e₁), hdest⟩
      · rintro ⟨⟨dest, e₁⟩, hdest⟩
        exact ⟨((r, u.imm k i m), e₁), rfl, dest, hdest⟩
    · exact iff_of_true ⟨((r, u.imm k i m), e), rfl, rfl⟩ (Nat.zero_le _)

/-- The hypothesis on a cached address is what `lea` leaves behind: the cached register is the one
that it returned. -/
theorem caches_of_addUp {useTemp : Bool} {a : Reg} {e₁ : Emitter}
    (h : addUp k i (u.operand k i m) useTemp e = some (a, e₁)) :
    ∀ r ∈ e₁.cached, r = a ∧ Caches k i u m r := by
  have hemitted := (((Costs.addUp k i (u.operand k i m) useTemp).isSome e).mp
    (Option.isSome_of_eq_some h)).1
  obtain ⟨address, e', hscratch, h⟩ := bind_eq_some.mp h
  obtain ⟨⟨⟩, e₀, hset, h⟩ := bind_eq_some.mp h
  obtain rfl := setCached_eq_some.mp hset
  have hmem := (taken_of_scratch (t := fun _ ↦ 0) hscratch).1.scratch
  have hreturned {e₂ : Emitter} (hkept : e₂.cached = some address)
      (hret : (pure address : Emit Reg) e₂ = some (a, e₁)) :
      ∀ r ∈ e₁.cached, r = a ∧ Caches k i u m r := by
    obtain ⟨rfl, rfl⟩ := pure_eq_some.mp hret
    intro r hr
    obtain rfl := Option.some.inj (hkept.symm.trans hr)
    exact ⟨rfl, hmem, hemitted⟩
  have hdirect {e₂ : Emitter} {m' : Emit Reg} (hm' : KeepsCached m')
      (hrest : (do setCached none; m') e₂ = some (a, e₁)) :
      ∀ r ∈ e₁.cached, r = a ∧ Caches k i u m r := by
    obtain ⟨⟨⟩, e₃, hnone, hrest⟩ := bind_eq_some.mp hrest
    obtain rfl := setCached_eq_some.mp hnone
    intro r hr
    have hkept := hm' _ _ _ hrest
    rw [hr] at hkept
    cases hkept
  split at h
  · split at h
    · exact absurd h (not_fail (e := e))
    · obtain ⟨⟨⟩, e₂, hcode, hret⟩ := bind_eq_some.mp h
      exact hreturned (KeepsCached.emit _ _ _ _ hcode) hret
  split at h
  · split at h
    · obtain ⟨⟨⟩, e₂, hcode, hret⟩ := bind_eq_some.mp h
      exact hreturned (KeepsCached.emit _ _ _ _ hcode) hret
    · exact absurd h (not_fail (e := e))
  split at h
  · exact hdirect (KeepsCached.getBase k _) h
  split at h
  · exact hdirect (KeepsCached.getIndex k _) h
  obtain ⟨⟨⟩, e₂, hsum, h⟩ := bind_eq_some.mp h
  obtain ⟨⟨⟩, e₃, hwidth, h⟩ := bind_eq_some.mp h
  obtain ⟨⟨⟩, e₄, hseg, h⟩ := bind_eq_some.mp h
  obtain ⟨⟨⟩, e₅, hmode, hret⟩ := bind_eq_some.mp h
  refine hreturned ?_ hret
  rw [KeepsCached.emitMode k address _ _ _ hmode, KeepsCached.emitSegment k i _ address _ _ _ hseg,
    KeepsCached.emitWidth k i address _ _ _ hwidth, KeepsCached.emitSum k _ address _ _ _ hsum]

theorem Decoded.operand (h : Decoded k i m) : Decoded k i (u.operand k i m) := by
  rw [Use.operand]
  split
  · exact h.withDisp 0
  · exact h

theorem base_operand : (u.operand k i m).base = m.base := by
  rw [Use.operand]
  split <;> rfl

theorem segment_operand : (u.operand k i m).segment = m.segment := by
  rw [Use.operand]
  split <;> rfl

/-- The assertions of `lea`, for what the decoder gives. -/
theorem Decoded.emittable_iff (h : Decoded k i m) : Emittable k i m ↔
    m.base ≠ .eip ∧ (HasTerm m ∨ i.hasSegment ∧ (m.segment = .fs ∨ m.segment = .gs)) := by
  rw [Emittable]
  split
  · next hrip =>
    have hterm : HasTerm m := .inl (by rw [hrip]; decide)
    have hne : m.base ≠ .eip := by rw [hrip]; decide
    exact iff_of_true (h.rip hrip).1 ⟨hne, .inl hterm⟩
  split
  · next hsegment =>
    obtain ⟨hseg, hbase, hindex, hdisp⟩ := hsegment
    have hterm : ¬HasTerm m := by simp [HasTerm, hbase, hindex, hdisp]
    have hne : m.base ≠ .eip := by rw [hbase]; decide
    simp [hterm, hseg, hne]
  · next hsegment =>
    have hterm (hseg : i.hasSegment) : HasTerm m := by
      by_contra hnone
      simp only [HasTerm, not_or, not_not] at hnone
      exact hsegment ⟨hseg, hnone⟩
    refine and_congr_right fun _ ↦ ⟨fun hm ↦ .inl hm.1, fun hm ↦ ?_⟩
    refine ⟨hm.elim id fun hseg ↦ hterm hseg.1, fun hseg ↦ ?_⟩
    by_cases hmode : k.mode32
    · exact .inr (.inr hmode)
    · exact ((h.segment hmode).mp hseg).imp_right .inl

theorem address_isSome (h : Decoded k i m) (hcached : ∀ r ∈ e.cached, Caches k i u m r) :
    (u.address k i m e).isSome ↔ m.base ≠ .eip ∧ (HasTerm (u.operand k i m) ∨
      i.hasSegment ∧ (m.segment = .fs ∨ m.segment = .gs)) ∧
        u.scratches k i m e ≤ e.free.length := by
  rw [address_isSome_iff hcached, h.operand.emittable_iff, base_operand, segment_operand, and_assoc]

/-- What `address` emits: free registers are changed, and the address is what `lea` computes. -/
theorem address_spec {a : Reg} {imm : U64} {e₁ : Emitter}
    (h : u.address k i m e = some ((a, imm), e₁))
    (heip : m.base ≠ .eip) : imm = u.imm k i m ∧
      ∃ step, Emits c.base e e₁ e.free step ∧ ∀ g, SubRegisters.Holds g c →
        (∀ r ∈ e.cached, g.x r = k.lea i (u.operand k i m).known u.useTemp c) →
          (step g).x a = k.lea i (u.operand k i m).known u.useTemp c := by
  cases hcase : e.cached with
  | some r =>
    obtain ⟨hpair, hrest⟩ := (Use.address_of_cached hcase).mp h
    obtain ⟨rfl, rfl⟩ := Prod.mk.inj hpair
    refine ⟨rfl, id, ?_, fun g _ hg ↦ hg a rfl⟩
    split at hrest
    · obtain ⟨dest, hdest⟩ := hrest
      exact (taken_of_scratch hdest).2.2.mono (List.nil_subset _)
    · subst hrest
      exact .nil le_rfl rfl
  | none =>
    have hlea {e' : Emitter} (h' : (do
        let address ← EffectiveAddress.addUp k i (u.operand k i m) u.useTemp
        return (address, u.imm k i m) : Emit (Reg × U64)) e' = some ((a, imm), e₁)) :
        imm = u.imm k i m ∧ ∃ step, Emits c.base e' e₁ e'.free step ∧ ∀ g, SubRegisters.Holds g c →
          (step g).x a = k.lea i (u.operand k i m).known u.useTemp c := by
      obtain ⟨b, e₂, hb, hret⟩ := bind_eq_some.mp h'
      obtain ⟨hpair, rfl⟩ := pure_eq_some.mp hret
      obtain ⟨rfl, rfl⟩ := Prod.mk.inj hpair
      obtain ⟨step, hstep, hvalue⟩ :=
        addUp_spec (ρ := ρ) (t := c.base) k i hb (by rwa [base_operand])
      exact ⟨rfl, step, hstep, fun g hg ↦ hvalue g c hg rfl⟩
    rw [Use.address_of_not_cached hcase, Use.addUp] at h
    split at h
    · obtain ⟨dest, e₂, hdest, h⟩ := bind_eq_some.mp h
      obtain ⟨-, -, hfirst⟩ := taken_of_scratch (t := c.base) hdest
      obtain ⟨himm, step, hstep, hvalue⟩ := hlea h
      exact ⟨himm, step, (hfirst.mono (List.nil_subset _)).trans (hstep.mono hfirst.free_subset),
        fun g hg _ ↦ hvalue g hg⟩
    · obtain ⟨himm, step, hstep, hvalue⟩ := hlea h
      exact ⟨himm, step, hstep, fun g hg _ ↦ hvalue g hg⟩

/-- There are host registers that hold the guest's, with any value in the register of a cached
address. -/
theorem exists_holds (c : Core ρ) (v : U64) (hcached : ∀ r ∈ e.cached, Caches k i u m r) :
    ∃ g : HostRegs, SubRegisters.Holds g c ∧ ∀ r ∈ e.cached, g.x r = v := by
  set x : Reg → U64 := Function.extend allocatedGPR c.gpr 0 with hx
  have hzero : x 0 = 0 :=
    Function.extend_apply' _ _ _ fun ⟨r, hr⟩ ↦ Transfer.allocatedGPR_ne_zero r hr
  have hguest (r : Jit.Ref) : x (allocatedGPR r) = c.gpr r :=
    Transfer.allocatedGPR_injective.extend_apply _ _ r
  cases hcase : e.cached with
  | none => exact ⟨⟨x, hzero⟩, hguest, fun r hr ↦ by cases hr⟩
  | some s =>
    have hs := (hcached s hcase).scratch
    refine ⟨⟨Function.update x s v, ?_⟩, fun r ↦ ?_, ?_⟩
    · exact (Function.update_of_ne (Transfer.scratch_ne_zero hs).symm _ _).trans hzero
    · have hne : allocatedGPR r ≠ s := SubRegisters.host_ne_free (e := ⟨0, []⟩) (.gpr r) hs
      exact (Function.update_of_ne hne _ _).trans (hguest r)
    · rintro r ⟨⟩
      exact Function.update_self _ _ _

theorem folds_known (h : u.folds k i m) : k.folds i m.known := by
  cases u with
  | lea access useTemp => exact absurd h (by simp [Use.folds])
  | get => exact h
  | set => exact h

theorem not_segment_of_folds (h : u.folds k i m) : ¬i.hasSegment := by
  intro hseg
  have hfolds := folds_known h
  simp [Config.folds, hseg] at hfolds

theorem segmentBase_lt (hs : k.mode32 → Mode32State c) : segmentBase k m c < 2 ^ linearBits k := by
  rw [segmentBase, linearBits]
  by_cases hmode : k.mode32
  · rw [if_pos (.inl hmode), if_pos hmode]
    exact (hs hmode).base m.segment
  · rw [if_neg hmode]
    split
    · exact BitVec.isLt _
    · exact Nat.two_pow_pos _

/-- A prefix names a segment with a base. -/
theorem Decoded.segmentBase_eq (h : Decoded k i m) (hseg : i.hasSegment) :
    segmentBase k m c = (c.base m.segment).toNat := by
  refine if_pos ?_
  by_cases hmode : k.mode32
  · exact .inl hmode
  · exact .inr ((h.segment hmode).mp hseg)

/-- Without a prefix only the segments of 32-bit mode have a base. -/
theorem Decoded.segmentBase_of_no_prefix (h : Decoded k i m) (hseg : ¬i.hasSegment) :
    segmentBase k m c = if k.mode32 then (c.base m.segment).toNat else 0 := by
  rw [segmentBase]
  by_cases hmode : k.mode32
  · rw [if_pos (.inl hmode), if_pos hmode]
  · rw [if_neg hmode, if_neg]
    rintro (hmode' | hseg')
    · exact hmode hmode'
    · exact hseg ((h.segment hmode).mpr hseg')

theorem add_mod_eq_self {o b n : ℕ} (ho : o < n) (hb : b < n) : (o + b) % n = o ↔ b = 0 := by
  constructor
  · intro h
    by_contra hne
    rcases lt_or_ge (o + b) n with hlt | hge
    · rw [Nat.mod_eq_of_lt hlt] at h
      omega
    · rw [Nat.mod_eq_sub_mod hge, Nat.mod_eq_of_lt (by omega)] at h
      omega
  · rintro rfl
    exact Nat.mod_eq_of_lt ho

/-- Without a displacement that is left to the access only the segment can go wrong. -/
theorem Decoded.value_of_not_folds (h : Decoded k i m) (hs : k.mode32 → Mode32State c)
    (heip : m.base ≠ .eip) : (k.lea i m.known u.useTemp c).toNat = linear k i u m c ↔
      (i.hasSegment → c.base m.segment = 0 ∨ (u.access ↔ m.base ≠ .rip)) ∧
        (¬i.hasSegment → k.mode32 → u.access → c.base m.segment = 0) := by
  have hoffset := h.offset_lt_linear (c := c)
  have hzero : c.base m.segment = 0 ↔ (c.base m.segment).toNat = 0 := BitVec.toNat_inj.symm
  have hid : offset i m c % 2 ^ linearBits k = offset i m c := Nat.mod_eq_of_lt hoffset
  by_cases hseg : i.hasSegment
  · have hbase := h.segmentBase_eq (c := c) hseg
    have hlt : (c.base m.segment).toNat < 2 ^ linearBits k := hbase ▸ segmentBase_lt hs
    have hself := add_mod_eq_self hoffset hlt
    rw [and_iff_left fun hne ↦ absurd hseg hne, linear, hbase, hzero]
    by_cases hrip : m.base = .rip
    · rw [h.toNat_lea_rip hrip]
      have hself' := eq_comm.trans hself
      cases u.access <;> simp [hrip, hseg, hid, hself']
    · rw [h.toNat_lea hs hrip heip]
      cases u.access <;> simp [hrip, hseg, hid, hself]
  · have hvalue : (k.lea i m.known u.useTemp c).toNat = offset i m c := by
      by_cases hrip : m.base = .rip
      · exact h.toNat_lea_rip hrip
      · rw [h.toNat_lea hs hrip heip, if_neg hseg, Nat.add_zero, hid]
    have hlt := segmentBase_lt (m := m) hs
    rw [and_iff_right fun hyes ↦ absurd hyes hseg, hvalue, linear, hzero]
    rw [h.segmentBase_of_no_prefix hseg] at hlt ⊢
    have hself := eq_comm.trans (add_mod_eq_self hoffset hlt)
    by_cases haccess : u.access
    · rw [if_pos haccess, hself]
      simp [hseg, haccess]
    · rw [if_neg haccess, Nat.add_zero, hid]
      simp [haccess]

theorem disp_of_folds (h : u.folds k i m) : -2048 ≤ m.disp.toInt ∧ m.disp.toInt < 2048 := by
  have hfolds := folds_known h
  simp only [Config.folds, Jit.validSigned12, Bool.and_eq_true, decide_eq_true_eq] at hfolds
  exact hfolds.1.1

/-- A small displacement is added to a shorter address in 64 bits. -/
theorem wrapped_sum {o w : ℕ} {d : U64} (ho : o < 2 ^ w) (hw : w ∈ [16, 32])
    (hd : -2048 ≤ d.toInt ∧ d.toInt < 2048) : (o + d.toNat) % 2 ^ 64 = (o + d.toNat) % 2 ^ w ↔
      0 ≤ o + d.toInt ∧ o + d.toInt < 2 ^ w := by
  have hlt := d.isLt
  rw [BitVec.toInt_eq_toNat_cond] at hd ⊢
  obtain rfl | rfl : w = 16 ∨ w = 32 := by simpa using hw
  · split <;> rename_i hsign <;> simp only [hsign, if_true, if_false] at hd <;> omega
  · split <;> rename_i hsign <;> simp only [hsign, if_true, if_false] at hd <;> omega

/-- In 32-bit mode the base of the segment may make up for it. -/
theorem wrapped_sum_base {o w b : ℕ} {d : U64} (ho : o < 2 ^ w) (hw : w ∈ [16, 32])
    (hd : -2048 ≤ d.toInt ∧ d.toInt < 2048) (hb : b < 2 ^ 32) :
    (o + d.toNat) % 2 ^ 64 = ((o + d.toNat) % 2 ^ w + b) % 2 ^ 32 ↔
      (b = 0 ∨ w = 16 ∧ 2 ^ 16 ≤ o + d.toInt ∧ b = 2 ^ 16) ∧
        (0 ≤ o + d.toInt ∧ o + d.toInt < 2 ^ w ∨ w = 16 ∧ 2 ^ 16 ≤ o + d.toInt ∧ b = 2 ^ 16) := by
  have hlt := d.isLt
  rw [BitVec.toInt_eq_toNat_cond] at hd ⊢
  obtain rfl | rfl : w = 16 ∨ w = 32 := by simpa using hw
  · split <;> rename_i hsign <;> simp only [hsign, if_true, if_false] at hd <;> omega
  · split <;> rename_i hsign <;> simp only [hsign, if_true, if_false] at hd <;> omega

theorem access_of_folds (h : u.folds k i m) : u.access := by
  cases u with
  | lea access useTemp => exact absurd h (by simp [Use.folds])
  | get => rfl
  | set => rfl

/-- A displacement that is left to the access has to stay in the address size. -/
theorem Decoded.value_of_folds (h : Decoded k i m) (hs : k.mode32 → Mode32State c)
    (heip : m.base ≠ .eip) (hfolds : u.folds k i m) :
    (k.lea i (MemOperand.known { m with disp := 0 }) u.useTemp c + m.disp).toNat =
    linear k i u m c ↔
      (k.mode32 → c.base m.segment = 0 ∨ Cancels k i u m c) ∧ (i.addressWidth ≠ .qword →
        0 ≤ reached i m c ∧ reached i m c < 2 ^ i.addressWidth.bits ∨ Cancels k i u m c) := by
  have hseg := not_segment_of_folds hfolds
  have hvalue : (k.lea i (MemOperand.known { m with disp := 0 }) u.useTemp c).toNat =
      offset i { m with disp := 0 } c := by
    by_cases hrip : m.base = .rip
    · exact (h.withDisp 0).toNat_lea_rip hrip
    · rw [(h.withDisp 0).toNat_lea hs hrip heip, if_neg hseg, Nat.add_zero,
        Nat.mod_eq_of_lt (h.withDisp 0).offset_lt_linear]
  have hsum : offset i m c = (offset i { m with disp := 0 } c + m.disp.toNat) %
      2 ^ i.addressWidth.bits :=
    (Nat.mod_add_mod _ _ _).symm
  have hlt : offset i { m with disp := 0 } c < 2 ^ i.addressWidth.bits := Decoded.offset_lt i _ c
  have hdisp : -2048 ≤ m.disp.toInt ∧ m.disp.toInt < 2048 := disp_of_folds hfolds
  have hcancels : Cancels k i u m c ↔ i.addressWidth = .word ∧ 2 ^ 16 ≤ reached i m c ∧
      (c.base m.segment).toNat = 2 ^ 16 := and_iff_right hfolds
  have hzero : c.base m.segment = 0 ↔ (c.base m.segment).toNat = 0 := BitVec.toNat_inj.symm
  rw [linear, if_pos (access_of_folds hfolds), h.segmentBase_of_no_prefix hseg, BitVec.toNat_add,
    hvalue, hcancels, hzero]
  by_cases hmode : k.mode32
  · have hwidth : i.addressWidth = .dword ∨ i.addressWidth = .word := by
      simpa [hmode] using h.width
    have hsmall : i.addressWidth.bits ∈ [16, 32] := by
      rcases hwidth with hwidth | hwidth <;> rw [hwidth] <;> decide
    have hword : i.addressWidth = .word ↔ i.addressWidth.bits = 16 := by
      rcases hwidth with hwidth | hwidth <;> rw [hwidth] <;> decide
    have hne : i.addressWidth ≠ .qword := by
      rcases hwidth with hwidth | hwidth <;> rw [hwidth] <;> decide
    rw [if_pos hmode, linearBits, if_pos hmode, hsum,
      wrapped_sum_base hlt hsmall hdisp ((hs hmode).base m.segment), hword]
    simp only [hmode, ne_eq, hne, not_false_eq_true, forall_const]
    rfl
  · have hwidth : i.addressWidth = .qword ∨ i.addressWidth = .dword := by
      simpa [hmode] using h.width
    have hnone : ¬(i.addressWidth = .word ∧ 2 ^ 16 ≤ reached i m c ∧
        (c.base m.segment).toNat = 2 ^ 16) := by
      rintro ⟨hword, -⟩
      rw [hword] at hwidth
      exact absurd hwidth (by decide)
    rw [if_neg hmode, Nat.add_zero, Nat.mod_eq_of_lt h.offset_lt_linear, hsum,
      and_iff_right fun hyes ↦ absurd hyes hmode]
    simp only [hnone, or_false]
    rcases hwidth with hwidth | hwidth
    · rw [hwidth]
      exact iff_of_true rfl fun hne ↦ absurd rfl hne
    · rw [hwidth] at hlt ⊢
      rw [wrapped_sum hlt (by decide) hdisp]
      exact ⟨fun hrange _ ↦ hrange, fun hrange ↦ hrange (by decide)⟩

/-- **Effective addresses.** The operand is addressed, and no register of the guest changed, if and
only if none of the six things happens. -/
theorem effectiveAddress (hdec : Decoded k i m) (hs : k.mode32 → Mode32State c)
    (hcached : ∀ r ∈ e.cached, Caches k i u m r) : Right k i u m c e ↔ Ok k i u m c e := by
  have hvalue (heip : m.base ≠ .eip) :
      (k.lea i (u.operand k i m).known u.useTemp c + u.imm k i m).toNat = linear k i u m c ↔
        (i.hasSegment → c.base m.segment = 0 ∨ (u.access ↔ m.base ≠ .rip)) ∧
        (¬i.hasSegment → k.mode32 → u.access → c.base m.segment = 0 ∨ Cancels k i u m c) ∧
        (u.folds k i m → i.addressWidth ≠ .qword →
          0 ≤ reached i m c ∧ reached i m c < 2 ^ i.addressWidth.bits ∨ Cancels k i u m c) := by
    rw [Use.operand, Use.imm]
    by_cases hfolds : u.folds k i m
    · rw [if_pos hfolds, if_pos hfolds, hdec.value_of_folds hs heip hfolds]
      simp [hfolds, not_segment_of_folds hfolds, access_of_folds hfolds]
    · rw [if_neg hfolds, if_neg hfolds]
      have hzero (v : U64) : v + (0 : U64) = v := BitVec.add_zero v
      rw [hzero, hdec.value_of_not_folds hs heip]
      simp [hfolds, Cancels]
  constructor
  · rintro ⟨a, imm, e₁, code, haddr, hcode, hright⟩
    obtain ⟨heip, hterm, hscratches⟩ :=
      (address_isSome hdec hcached).mp (Option.isSome_of_eq_some haddr)
    obtain ⟨rfl, step, hstep, hlea⟩ := address_spec (c := c) haddr heip
    obtain ⟨⟨code', hcode', rfl, -⟩, -⟩ := hstep
    obtain rfl : code = code' := List.append_cancel_left (hcode.symm.trans hcode')
    obtain ⟨g, hg, hg'⟩ := exists_holds c (k.lea i (u.operand k i m).known u.useTemp c) hcached
    have hsum := (hright g hg hg').1
    rw [hlea g hg hg'] at hsum
    obtain ⟨hsegment, himplicit, hdisp⟩ := (hvalue heip).mp hsum
    exact ⟨heip, hterm, hscratches, hsegment, himplicit, hdisp⟩
  · rintro ⟨heip, hterm, hscratches, hsegment, himplicit, hdisp⟩
    obtain ⟨⟨⟨a, imm⟩, e₁⟩, haddr⟩ := Option.isSome_iff_exists.mp
      ((address_isSome hdec hcached).mpr ⟨heip, hterm, hscratches⟩)
    obtain ⟨rfl, step, hstep, hlea⟩ := address_spec (c := c) haddr heip
    have hframe (ref : GuestReg) (g : HostRegs) := hstep.frame (host_notMem_free ref e) g
    obtain ⟨⟨code, hcode, rfl, -⟩, -⟩ := hstep
    refine ⟨a, _, e₁, code, haddr, hcode, fun g hg hg' ↦ ⟨?_, fun ref ↦ hframe ref g⟩⟩
    rw [hlea g hg hg']
    exact (hvalue heip).mpr ⟨hsegment, himplicit, hdisp⟩

end Result

/-! ### Two instructions -/

/-- `MOV EAX, [RCX + 8]`. -/
def movRcx : Jit.Insn :=
  ⟨0, 0, 3, .dword, .qword, false, false, .none, .reg 0 .dword,
    .mem ⟨.reg 1 .qword, none, 0, 8, .ds⟩ .dword, .imm 0 .dword⟩

/-- `MOV EAX, [EAX - 4]` in 64-bit mode. -/
def movEax : Jit.Insn :=
  ⟨0, 0, 4, .dword, .dword, false, false, .none, .reg 0 .dword,
    .mem ⟨.reg 0 .dword, none, 0, -4, .ds⟩ .dword, .imm 0 .dword⟩

/-- A host without extensions. -/
def plain : Config := ⟨false, false, false, false, false, false, false, false⟩

/-- An operand without index that has a register for a base is decoded. -/
theorem decoded_gpr {i : Jit.Insn} {m : MemOperand} {r : Jit.Ref}
    (hbase : m.base = .gpr r i.addressWidth)
    (hindex : m.index = none) (hsegment : ¬i.hasSegment ∧ m.segment = .ds)
    (hwidth : i.addressWidth = .qword ∨ i.addressWidth = .dword) : Decoded plain i m where
  width := hwidth
  base r' size h := by
    rw [hbase] at h
    injection h with _ h
    exact h.symm
  index r' size h := absurd (hindex.symm.trans h) (by simp)
  rip h := absurd (hbase.symm.trans h) (by simp)
  segment _ := by simp [hsegment]

/-- Registers with `RCX` in the guest's memory and a small `EAX`. -/
def smallEax : Core Unit := (Jit.State.zero.core.write 1 0x601000).write 0 2

/-- The first instruction is right, also when the address is cached. The second one reads below the
address size instead of at its top. -/
theorem effectiveAddress_mov :
    (∀ cached ∈ [none, some scratchGprs[0]],
      Right plain movRcx .get ⟨.gpr 1 .qword, none, 0, 8, .ds⟩ smallEax ⟨1, [], cached⟩) ∧
      ¬Right plain movEax .get ⟨.gpr 0 .dword, none, 0, -4, .ds⟩ smallEax ⟨0, [], none⟩ := by
  have hrcx : Decoded plain movRcx ⟨.gpr 1 .qword, none, 0, 8, .ds⟩ :=
    decoded_gpr rfl rfl (by decide) (by decide)
  have heax : Decoded plain movEax ⟨.gpr 0 .dword, none, 0, -4, .ds⟩ :=
    decoded_gpr rfl rfl (by decide) (by decide)
  have hmode {p : Prop} : plain.mode32 → p := fun h ↦ absurd h (by decide)
  have hscratches : ∀ cached ∈ [none, some scratchGprs[0]],
      Use.get.scratches plain movRcx ⟨.gpr 1 .qword, none, 0, 8, .ds⟩ ⟨1, [], cached⟩ ≤
        (⟨1, [], cached⟩ : Emitter).free.length := by decide
  refine ⟨fun cached hcached ↦ (effectiveAddress hrcx hmode ?_).mpr ?_, fun h ↦ ?_⟩
  · rintro r (hr : cached = some r)
    subst hr
    obtain rfl : r = scratchGprs[0] := by simpa using hcached
    exact ⟨by decide, hrcx.operand.emittable_iff.mpr ⟨by decide, .inl (.inl (by decide))⟩⟩
  · exact ⟨by decide, .inl (.inl (by decide)), hscratches cached hcached,
      fun h ↦ absurd h (by decide), fun _ h ↦ absurd h (by decide), fun _ h ↦ absurd rfl h⟩
  · have hok := (effectiveAddress heax hmode fun r hr ↦ by cases hr).mp h
    rcases hok.disp (by decide) (by decide) with hrange | hcancels
    · exact absurd hrange.1 (by decide)
    · exact absurd hcancels.2.1 (by decide)

end EffectiveAddress

end Felix86
