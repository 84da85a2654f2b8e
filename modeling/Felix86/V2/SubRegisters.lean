import Felix86.Lib.Straight
import Felix86.V2.ExtensionB
import Felix86.V2.StateTransfer
import Felix86.Lib.Numerals

/-!
# Parts of registers, instruction by instruction

`getGPR(ref, size)` emits the code that isolates a part of a guest register and returns the host
register the part is in; `setGPR(ref, size, reg)` emits the code that puts the lower bits of `reg`
into a part of a guest register. `Config.getRef` and `Config.merge` are the values this code
computes. Here is the code itself, because the value is right only if the registers play along: the
guest register is changed in place, on the way its own value goes through the registers that
`scratch` hands out, and a read of a whole register returns the guest register and not a copy.

## The shape of the argument

A sequence changes no register but those it names as destinations. `setGPR` names the guest register
and the scratch registers that are free when it is called, so what holds for every register that is
not free holds for the other guest registers and for the source. For the guest register itself each
sequence is run once and gives `Config.merge`, whose laws are those of `V2.Registers`.
-/

namespace Felix86

namespace SubRegisters

open Numerals
open Jit (Config Size)
open Transfer (allocatedGPR ripReg scratchGprs)

/-! ## The host -/

abbrev Reg := Fin 32

/-- The host's registers. The first one is always zero. -/
structure HostRegs where
  x : Reg → U64
  zero : x 0 = 0

/-- The instructions that the two routines emit. -/
inductive Insn
  | mv (rd rs : Reg)
  | li (rd : Reg) (value : U64)
  | not (rd rs : Reg)
  | and (rd rs1 rs2 : Reg)
  | or (rd rs1 rs2 : Reg)
  | andi (rd rs : Reg) (imm : ℤ)
  | slli (rd rs : Reg) (shift : ℕ)
  | srli (rd rs : Reg) (shift : ℕ)
  | rori (rd rs : Reg) (shift : ℕ)
  | zexth (rd rs : Reg)
  | zextw (rd rs : Reg)
deriving DecidableEq, Repr

def Insn.rd : Insn → Reg
  | mv rd _ => rd
  | li rd _ => rd
  | not rd _ => rd
  | and rd _ _ => rd
  | or rd _ _ => rd
  | andi rd _ _ => rd
  | slli rd _ _ => rd
  | srli rd _ _ => rd
  | rori rd _ _ => rd
  | zexth rd _ => rd
  | zextw rd _ => rd

/-- What the instruction writes. -/
def Insn.value (g : HostRegs) : Insn → U64
  | mv _ rs => g.x rs
  | li _ value => value
  | not _ rs => ~~~g.x rs
  | and _ rs1 rs2 => g.x rs1 &&& g.x rs2
  | or _ rs1 rs2 => g.x rs1 ||| g.x rs2
  | andi _ rs imm => g.x rs &&& Straight.imm12 imm
  | slli _ rs shift => g.x rs <<< shift
  | srli _ rs shift => g.x rs >>> shift
  | rori _ rs shift => Riscv.rori (g.x rs) shift
  | zexth _ rs => Riscv.zexth (g.x rs)
  | zextw _ rs => Riscv.zextw (g.x rs)

/-- A write to the first register is dropped. -/
def HostRegs.set (g : HostRegs) (rd : Reg) (value : U64) : HostRegs :=
  if h : rd = 0 then g
  else ⟨Function.update g.x rd value, (Function.update_of_ne (Ne.symm h) ..).trans g.zero⟩

def exec (g : HostRegs) (i : Insn) : HostRegs := g.set i.rd (i.value g)

def run (code : List Insn) (g : HostRegs) : HostRegs := code.foldl exec g

/-! ## The recompiler -/

/-- How many scratch registers are in use, and the code so far. -/
structure Emitter where
  scratchIndex : ℕ
  code : List Insn

/-- The recompiler emits, or an assertion stops it. -/
abbrev Emit := StateT Emitter Option

def emit (code : List Insn) : Emit Unit := fun e ↦ some ((), { e with code := e.code ++ code })

/-- `ASSERT`. -/
def check (p : Prop) [Decidable p] : Emit Unit := fun e ↦ if p then some ((), e) else none

/-- `scratch`. -/
def scratch : Emit Reg := fun e ↦
  (scratchGprs[e.scratchIndex]?).map fun reg ↦ (reg, { e with scratchIndex := e.scratchIndex + 1 })

/-- `popScratch`. -/
def popScratch : Emit Unit := fun e ↦
  if e.scratchIndex = 0 then none
  else some ((), { e with scratchIndex := e.scratchIndex - 1 })

/-- The guest registers that have a host register. -/
inductive GuestReg
  | rip
  | gpr (r : Jit.Ref)
  | flag (f : Transfer.Flag)
deriving DecidableEq, Repr

/-- `allocatedGPR`. -/
def GuestReg.host : GuestReg → Reg
  | rip => ripReg
  | gpr r => allocatedGPR r
  | flag f => f.reg

variable (k : Config)

/-- `zext`. -/
def zext (dest src : Reg) (size : Size) : Emit Unit :=
  match size with
  | .byte => emit [.andi dest src 0xff]
  | .byteHigh => emit [.andi dest src 0xff]
  | .word =>
    if k.b then emit [.zexth dest src] else emit [.slli dest src 48, .srli dest dest 48]
  | .dword =>
    if k.b then emit [.zextw dest src] else emit [.slli dest src 32, .srli dest dest 32]
  | .qword => if dest ≠ src then emit [.mv dest src] else pure ()

/-- `getGPR(ref, size)`. -/
def getGPR (ref : GuestReg) (size : Size) : Emit Reg :=
  match size with
  | .byte => do
    let gpr8 ← scratch
    zext k gpr8 ref.host .byte
    return gpr8
  | .byteHigh => do
    let gpr8 ← scratch
    emit [.srli gpr8 ref.host 8]
    zext k gpr8 gpr8 .byte
    return gpr8
  | .word => do
    let gpr16 ← scratch
    zext k gpr16 ref.host .word
    return gpr16
  | .dword =>
    if ¬k.mode32 then do
      let gpr32 ← scratch
      zext k gpr32 ref.host .dword
      return gpr32
    else
      -- already a zero extended register
      return ref.host
  | .qword => return ref.host

/-- `setGPR(ref, size, reg)`. -/
def setGPR (ref : GuestReg) (size : Size) (reg : Reg) : Emit Unit :=
  match size with
  | .byte => do
    check (reg ≠ ref.host)
    let dest ← getGPR k ref .qword
    let gpr8 ← scratch
    emit [.andi gpr8 reg 0xff, .andi dest dest (~~~0xff), .or dest dest gpr8]
    popScratch
  | .byteHigh => do
    check (reg ≠ ref.host)
    if ¬k.b then
      let dest ← getGPR k ref .qword
      let gpr8 ← scratch
      let mask ← scratch
      emit [.li mask 0xff00, .slli gpr8 reg 8, .and gpr8 gpr8 mask, .not mask mask,
        .and dest dest mask, .or dest dest gpr8]
      popScratch
      popScratch
    else
      let dest ← getGPR k ref .qword
      let gpr8 ← scratch
      emit [.andi gpr8 reg 0xff, .rori dest dest 8, .andi dest dest (~~~0xff), .or dest dest gpr8,
        .rori dest dest 56]
      popScratch
  | .word => do
    check (reg ≠ ref.host)
    let dest ← getGPR k ref .qword
    let gpr16 ← scratch
    if k.b then emit [.zexth gpr16 reg] else emit [.slli gpr16 reg 48, .srli gpr16 gpr16 48]
    emit [.srli dest dest 16, .slli dest dest 16, .or dest dest gpr16]
    popScratch
  | .dword =>
    let dest := ref.host
    if k.b then emit [.zextw dest reg] else emit [.slli dest reg 32, .srli dest dest 32]
  | .qword =>
    let dest := ref.host
    if dest ≠ reg then emit [.mv dest reg] else pure ()

/-! ## What is emitted -/

section Emission

variable {α β : Type} {e e' : Emitter}

theorem bind_eq_some {m : Emit α} {f : α → Emit β} {b : β} :
    (m >>= f) e = some (b, e') ↔ ∃ a e₁, m e = some (a, e₁) ∧ f a e₁ = some (b, e') := by
  change (m e).bind (fun p ↦ f p.1 p.2) = _ ↔ _
  simp [Option.bind_eq_some_iff, Prod.exists]

@[simp] theorem map_eq_some {m : Emit α} {f : α → β} {b : β} :
    (f <$> m) e = some (b, e') ↔ ∃ a, m e = some (a, e') ∧ f a = b := by
  change (m e).bind (fun p ↦ some (f p.1, p.2)) = _ ↔ _
  simp [Option.bind_eq_some_iff, Prod.exists]

@[simp] theorem pure_eq_some {a b : α} :
    (pure a : Emit α) e = some (b, e') ↔ a = b ∧ e = e' := by
  change some (a, e) = some (b, e') ↔ _
  simp

@[simp] theorem emit_eq_some {code : List Insn} {u : Unit} :
    emit code e = some (u, e') ↔ { e with code := e.code ++ code } = e' := by
  simp [emit]

@[simp] theorem check_eq_some {p : Prop} [Decidable p] {u : Unit} :
    check p e = some (u, e') ↔ p ∧ e = e' := by
  simp [check]

@[simp] theorem scratch_eq_some {s : Reg} : scratch e = some (s, e') ↔
    scratchGprs[e.scratchIndex]? = some s ∧
      { e with scratchIndex := e.scratchIndex + 1 } = e' := by
  simp [scratch]

@[simp] theorem popScratch_eq_some {u : Unit} : popScratch e = some (u, e') ↔
    e.scratchIndex ≠ 0 ∧ { e with scratchIndex := e.scratchIndex - 1 } = e' := by
  simp [popScratch]

end Emission

/-! ## Running the code -/

section Running

variable {g : HostRegs} {code code' : List Insn} {r rd : Reg} {i : Insn}

@[simp] theorem run_nil : run [] g = g := rfl

@[simp] theorem run_cons : run (i :: code) g = run code (exec g i) := rfl

theorem run_append : run (code ++ code') g = run code' (run code g) := List.foldl_append

theorem set_x {v : U64} (h : rd ≠ 0) : (g.set rd v).x = Function.update g.x rd v := by
  rw [HostRegs.set, dif_neg h]

theorem exec_x_of_ne (h : r ≠ i.rd) : (exec g i).x r = g.x r := by
  rw [exec]
  by_cases hz : i.rd = 0
  · rw [HostRegs.set, dif_pos hz]
  · rw [set_x hz, Function.update_of_ne h]

/-- Code changes its destinations only. -/
theorem run_x_of_forall_ne (h : ∀ i ∈ code, r ≠ i.rd) : (run code g).x r = g.x r := by
  induction code generalizing g with
  | nil => rfl
  | cons i code ih =>
    rw [run_cons, ih fun j hj ↦ h j (List.mem_cons_of_mem i hj),
      exec_x_of_ne (h i List.mem_cons_self)]

end Running

theorem imm12_ff : Straight.imm12 0xff = 0xff := by decide

theorem imm12_not_ff : Straight.imm12 (~~~0xff) = ~~~(0xff : U64) := by decide

section Values

variable (k : Config) {g : HostRegs} {dest reg s mask : Reg}

theorem run_set_byte (hdest : dest ≠ 0) (hs : s ≠ 0) (hds : dest ≠ s) :
    (run [.andi s reg 0xff, .andi dest dest (~~~0xff), .or dest dest s] g).x dest =
      k.merge .byte (g.x dest) (g.x reg) := by
  simp [exec, Insn.rd, Insn.value, set_x, Config.merge, imm12_ff, imm12_not_ff, hdest, hs, hds,
    hds.symm]

theorem run_set_byteHigh (hb : k.b) (hdest : dest ≠ 0) (hs : s ≠ 0) (hds : dest ≠ s) :
    (run [.andi s reg 0xff, .rori dest dest 8, .andi dest dest (~~~0xff), .or dest dest s,
      .rori dest dest 56] g).x dest = k.merge .byteHigh (g.x dest) (g.x reg) := by
  simp [exec, Insn.rd, Insn.value, set_x, Config.merge, imm12_ff, imm12_not_ff, hb, hdest, hs, hds,
    hds.symm]

/-- Without the rotation the mask is loaded first, so the source must not be its register. -/
theorem run_set_byteHigh_mask (hb : ¬k.b) (hdest : dest ≠ 0) (hs : s ≠ 0) (hmask : mask ≠ 0)
    (hds : dest ≠ s) (hdm : dest ≠ mask) (hsm : s ≠ mask) (hrm : reg ≠ mask) :
    (run [.li mask 0xff00, .slli s reg 8, .and s s mask, .not mask mask, .and dest dest mask,
      .or dest dest s] g).x dest = k.merge .byteHigh (g.x dest) (g.x reg) := by
  simp [exec, Insn.rd, Insn.value, set_x, Config.merge, hb, hdest, hs, hmask, hds,
    hds.symm, hdm, hsm, hsm.symm, hrm]

theorem run_set_word (hdest : dest ≠ 0) (hs : s ≠ 0) (hds : dest ≠ s) :
    (run ((if k.b then [.zexth s reg] else [.slli s reg 48, .srli s s 48]) ++
      [.srli dest dest 16, .slli dest dest 16, .or dest dest s]) g).x dest =
      k.merge .word (g.x dest) (g.x reg) := by
  split
  · next hb =>
    simp [exec, Insn.rd, Insn.value, set_x, Config.merge, hb, hdest, hs, hds, hds.symm]
  · next hb =>
    simp [exec, Insn.rd, Insn.value, set_x, Config.merge, hb, hdest, hs, hds, hds.symm]

/-- `zext`, for two registers that may be one. -/
def zextCode (dest src : Reg) (size : Size) : List Insn :=
  match size with
  | .byte => [.andi dest src 0xff]
  | .byteHigh => [.andi dest src 0xff]
  | .word => if k.b then [.zexth dest src] else [.slli dest src 48, .srli dest dest 48]
  | .dword => if k.b then [.zextw dest src] else [.slli dest src 32, .srli dest dest 32]
  | .qword => if dest ≠ src then [.mv dest src] else []

theorem emit_nil : emit [] = pure () := by
  funext e
  simp [emit]
  rfl

theorem zext_eq (dest src : Reg) (size : Size) :
    zext k dest src size = emit (zextCode k dest src size) := by
  cases size with
  | byte => rfl
  | byteHigh => rfl
  | word => exact (apply_ite emit ..).symm
  | dword => exact (apply_ite emit ..).symm
  | qword =>
    rw [zext, zextCode, apply_ite emit, emit_nil]

theorem run_zextCode (size : Size) (hdest : dest ≠ 0) :
    (run (zextCode k dest reg size) g).x dest = k.zext size (g.x reg) := by
  cases size with
  | byte => simp [zextCode, exec, Insn.rd, Insn.value, set_x, Config.zext, imm12_ff, hdest]
  | byteHigh => simp [zextCode, exec, Insn.rd, Insn.value, set_x, Config.zext, imm12_ff, hdest]
  | word =>
    rw [zextCode, Config.zext]
    split <;> simp [exec, Insn.rd, Insn.value, set_x, hdest]
  | dword =>
    rw [zextCode, Config.zext]
    split <;> simp [exec, Insn.rd, Insn.value, set_x, hdest]
  | qword =>
    rw [zextCode, Config.zext]
    split
    · simp [exec, Insn.rd, Insn.value, set_x, hdest]
    · next h => rw [not_not.mp h, run_nil]

end Values

/-! ## What the two routines emit -/

/-- The scratch registers that are not in use. -/
def Emitter.free (e : Emitter) : List Reg := scratchGprs.drop e.scratchIndex

section Free

variable {e : Emitter} {s t : Reg}

theorem Emitter.mem_free (h : scratchGprs[e.scratchIndex]? = some s) : s ∈ e.free :=
  List.mem_of_getElem? (i := 0) (by rw [Emitter.free, List.getElem?_drop, Nat.add_zero, h])

theorem Emitter.mem_free_succ (h : scratchGprs[e.scratchIndex + 1]? = some s) : s ∈ e.free :=
  List.mem_of_getElem? (i := 1) (by rw [Emitter.free, List.getElem?_drop, h])

theorem Emitter.free_ne_zero (h : s ∈ e.free) : s ≠ 0 :=
  Transfer.scratch_ne_zero (List.mem_of_mem_drop h)

theorem scratch_ne_next {n : ℕ} (hs : scratchGprs[n]? = some s)
    (ht : scratchGprs[n + 1]? = some t) :
    s ≠ t := by
  rintro rfl
  obtain ⟨hlt, -⟩ := List.getElem?_eq_some_iff.mp hs
  have hnodup : scratchGprs.Nodup := by decide
  have := (List.getElem?_inj hlt hnodup).mp (hs.trans ht.symm)
  omega

theorem host_ne_zero (ref : GuestReg) : ref.host ≠ 0 := by
  cases ref with
  | rip => decide
  | gpr r => exact Transfer.allocatedGPR_ne_zero r
  | flag f => exact Transfer.flagReg_ne_zero f

theorem host_ne_free (ref : GuestReg) (h : s ∈ e.free) : ref.host ≠ s := by
  have hs := List.mem_of_mem_drop h
  cases ref with
  | rip => exact Transfer.ripReg_ne_scratch hs
  | gpr r => exact Transfer.allocatedGPR_ne_scratch hs r
  | flag f => exact Transfer.flagReg_ne_scratch hs f

theorem host_injective : Function.Injective GuestReg.host := by
  have hrip (r : Jit.Ref) : ripReg ≠ allocatedGPR r := by revert r; decide
  have hflag (f : Transfer.Flag) (r : Jit.Ref) : f.reg ≠ allocatedGPR r := by
    cases f <;> revert r <;> decide
  rintro (_ | a | a) (_ | b | b) h
  · rfl
  · exact absurd h (hrip b)
  · exact absurd h (by cases b <;> decide)
  · exact absurd h.symm (hrip a)
  · exact congrArg _ (Transfer.allocatedGPR_injective h)
  · exact absurd h.symm (hflag b a)
  · exact absurd h (by cases a <;> decide)
  · exact absurd h (hflag a b)
  · refine congrArg _ ?_
    revert h
    cases a <;> cases b <;> decide

end Free

/-! ### `setGPR` -/

section Set

variable (k : Config) {ref : GuestReg} {reg : Reg} {e e₁ : Emitter} {u : Unit}

theorem setGPR_byte_eq_some : setGPR k ref .byte reg e = some (u, e₁) ↔
    reg ≠ ref.host ∧ ∃ s, scratchGprs[e.scratchIndex]? = some s ∧
      { e with code := e.code ++ [.andi s reg 0xff, .andi ref.host ref.host (~~~0xff),
        .or ref.host ref.host s] } = e₁ := by
  simp [setGPR, getGPR, bind_eq_some]

theorem setGPR_byteHigh_eq_some (hb : k.b) : setGPR k ref .byteHigh reg e = some (u, e₁) ↔
    reg ≠ ref.host ∧ ∃ s, scratchGprs[e.scratchIndex]? = some s ∧
      { e with code := e.code ++ [.andi s reg 0xff, .rori ref.host ref.host 8,
        .andi ref.host ref.host (~~~0xff), .or ref.host ref.host s,
        .rori ref.host ref.host 56] } = e₁ := by
  simp [setGPR, getGPR, bind_eq_some, hb]

theorem setGPR_byteHigh_mask_eq_some (hb : ¬k.b) :
    setGPR k ref .byteHigh reg e = some (u, e₁) ↔
      reg ≠ ref.host ∧ ∃ s mask, scratchGprs[e.scratchIndex]? = some s ∧
        scratchGprs[e.scratchIndex + 1]? = some mask ∧
        { e with code := e.code ++ [.li mask 0xff00, .slli s reg 8, .and s s mask, .not mask mask,
          .and ref.host ref.host mask, .or ref.host ref.host s] } = e₁ := by
  simp [setGPR, getGPR, bind_eq_some, hb]

theorem setGPR_word_eq_some : setGPR k ref .word reg e = some (u, e₁) ↔
    reg ≠ ref.host ∧ ∃ s, scratchGprs[e.scratchIndex]? = some s ∧
      { e with
        code := e.code ++ ((if k.b then [.zexth s reg] else [.slli s reg 48, .srli s s 48]) ++
          [.srli ref.host ref.host 16, .slli ref.host ref.host 16, .or ref.host ref.host s]) } =
        e₁ := by
  by_cases hb : k.b <;> simp [setGPR, getGPR, bind_eq_some, hb]

theorem setGPR_dword_eq_some : setGPR k ref .dword reg e = some (u, e₁) ↔
    { e with code := e.code ++ zextCode k ref.host reg .dword } = e₁ := by
  by_cases hb : k.b <;> simp [setGPR, zextCode, hb]

theorem setGPR_qword_eq_some : setGPR k ref .qword reg e = some (u, e₁) ↔
    { e with code := e.code ++ zextCode k ref.host reg .qword } = e₁ := by
  by_cases hsame : ref.host = reg <;> simp [setGPR, zextCode, hsame]

end Set

/-- What `setGPR` emits: it takes no register for good, changes the guest register and free
registers, and leaves `Config.merge` in the guest register. -/
structure Sets (k : Config) (ref : GuestReg) (size : Size) (reg : Reg) (e e₁ : Emitter)
    (code : List Insn) : Prop where
  eq : e₁ = { e with code := e.code ++ code }
  rd : ∀ i ∈ code, i.rd = ref.host ∨ i.rd ∈ e.free
  value : reg ∉ e.free → ∀ g : HostRegs,
    (run code g).x ref.host = k.merge size (g.x ref.host) (g.x reg)

theorem setGPR_spec (k : Config) {ref : GuestReg} {size : Size} {reg : Reg} {e e₁ : Emitter}
    {u : Unit} (h : setGPR k ref size reg e = some (u, e₁)) :
    ∃ code, Sets k ref size reg e e₁ code := by
  have hdest := host_ne_zero ref
  cases size with
  | byte =>
    obtain ⟨-, s, hs, rfl⟩ := (setGPR_byte_eq_some k).mp h
    have hfree := e.mem_free hs
    exact ⟨_, rfl, by simp [Insn.rd, hfree], fun _ _ ↦
      run_set_byte k hdest (e.free_ne_zero hfree) (host_ne_free ref hfree)⟩
  | byteHigh =>
    by_cases hb : k.b
    · obtain ⟨-, s, hs, rfl⟩ := (setGPR_byteHigh_eq_some k hb).mp h
      have hfree := e.mem_free hs
      exact ⟨_, rfl, by simp [Insn.rd, hfree], fun _ _ ↦
        run_set_byteHigh k hb hdest (e.free_ne_zero hfree) (host_ne_free ref hfree)⟩
    · obtain ⟨-, s, mask, hs, hmask, rfl⟩ := (setGPR_byteHigh_mask_eq_some k hb).mp h
      have hfree := e.mem_free hs
      have hfree' := e.mem_free_succ hmask
      refine ⟨_, rfl, by simp [Insn.rd, hfree, hfree'], fun hreg _ ↦ ?_⟩
      have hrm : reg ≠ mask := fun heq ↦ hreg (heq ▸ hfree')
      exact run_set_byteHigh_mask k hb hdest (e.free_ne_zero hfree) (e.free_ne_zero hfree')
        (host_ne_free ref hfree) (host_ne_free ref hfree') (scratch_ne_next hs hmask) hrm
  | word =>
    obtain ⟨-, s, hs, rfl⟩ := (setGPR_word_eq_some k).mp h
    have hfree := e.mem_free hs
    refine ⟨_, rfl, ?_, fun _ _ ↦
      run_set_word k hdest (e.free_ne_zero hfree) (host_ne_free ref hfree)⟩
    split <;> simp [Insn.rd, hfree]
  | dword =>
    obtain rfl := (setGPR_dword_eq_some k).mp h
    refine ⟨_, rfl, ?_, fun _ _ ↦ run_zextCode k .dword hdest⟩
    rw [zextCode]
    split <;> simp [Insn.rd]
  | qword =>
    obtain rfl := (setGPR_qword_eq_some k).mp h
    refine ⟨_, rfl, ?_, fun _ _ ↦ run_zextCode k .qword hdest⟩
    rw [zextCode]
    split <;> simp [Insn.rd]

/-! ### `getGPR` -/

section Get

variable (k : Config) {ref : GuestReg} {result : Reg} {e e₁ : Emitter}

theorem getGPR_byte_eq_some : getGPR k ref .byte e = some (result, e₁) ↔
    scratchGprs[e.scratchIndex]? = some result ∧
      ⟨e.scratchIndex + 1, e.code ++ zextCode k result ref.host .byte⟩ = e₁ := by
  simp [getGPR, zext_eq, bind_eq_some]

theorem getGPR_byteHigh_eq_some : getGPR k ref .byteHigh e = some (result, e₁) ↔
    scratchGprs[e.scratchIndex]? = some result ∧
      ⟨e.scratchIndex + 1,
        e.code ++ .srli result ref.host 8 :: zextCode k result result .byte⟩ = e₁ := by
  simp [getGPR, zext_eq, bind_eq_some]

theorem getGPR_word_eq_some : getGPR k ref .word e = some (result, e₁) ↔
    scratchGprs[e.scratchIndex]? = some result ∧
      ⟨e.scratchIndex + 1, e.code ++ zextCode k result ref.host .word⟩ = e₁ := by
  simp [getGPR, zext_eq, bind_eq_some]

theorem getGPR_dword_eq_some (hmode : ¬k.mode32) : getGPR k ref .dword e = some (result, e₁) ↔
    scratchGprs[e.scratchIndex]? = some result ∧
      ⟨e.scratchIndex + 1, e.code ++ zextCode k result ref.host .dword⟩ = e₁ := by
  simp [getGPR, zext_eq, bind_eq_some, hmode]

theorem getGPR_dword_eq_some_mode32 (hmode : k.mode32) :
    getGPR k ref .dword e = some (result, e₁) ↔ ref.host = result ∧ e = e₁ := by
  simp [getGPR, hmode]

theorem getGPR_qword_eq_some :
    getGPR k ref .qword e = some (result, e₁) ↔ ref.host = result ∧ e = e₁ := by
  simp [getGPR]

end Get

/-- The value `getGPR` isolates. -/
def part (k : Config) (size : Size) (v : U64) : U64 :=
  match size with
  | .byte => k.zext .byte v
  | .byteHigh => k.zext .byte (v >>> 8)
  | .word => k.zext .word v
  | .dword => if k.mode32 then v else k.zext .dword v
  | .qword => v

/-- What `getGPR` emits: it changes free registers only, and the register it returns has the
part. -/
structure Gets (k : Config) (ref : GuestReg) (size : Size) (result : Reg) (e e₁ : Emitter)
    (code : List Insn) : Prop where
  code_eq : e₁.code = e.code ++ code
  rd : ∀ i ∈ code, i.rd ∈ e.free
  value : ∀ g : HostRegs, (run code g).x result = part k size (g.x ref.host)

/-- The registers of `zext` are its destination. -/
theorem rd_of_mem_zextCode {k : Config} {dest src : Reg} {size : Size} {i : Insn}
    (h : i ∈ zextCode k dest src size) : i.rd = dest := by
  cases size with
  | byte =>
    obtain rfl := List.mem_singleton.mp h
    rfl
  | byteHigh =>
    obtain rfl := List.mem_singleton.mp h
    rfl
  | word =>
    rw [zextCode] at h
    split at h
    · obtain rfl := List.mem_singleton.mp h
      rfl
    · rcases List.mem_pair.mp h with rfl | rfl <;> rfl
  | dword =>
    rw [zextCode] at h
    split at h
    · obtain rfl := List.mem_singleton.mp h
      rfl
    · rcases List.mem_pair.mp h with rfl | rfl <;> rfl
  | qword =>
    rw [zextCode] at h
    split at h
    · obtain rfl := List.mem_singleton.mp h
      rfl
    · exact absurd h List.not_mem_nil

theorem getGPR_spec (k : Config) {ref : GuestReg} {size : Size} {result : Reg} {e e₁ : Emitter}
    (h : getGPR k ref size e = some (result, e₁)) :
    ∃ code, Gets k ref size result e e₁ code := by
  have hrd (size : Size) (hs : scratchGprs[e.scratchIndex]? = some result) {src : Reg} :
      ∀ i ∈ zextCode k result src size, i.rd ∈ e.free :=
    fun i hi ↦ (rd_of_mem_zextCode hi).symm ▸ e.mem_free hs
  have hvalue (size : Size) (hs : scratchGprs[e.scratchIndex]? = some result) {src : Reg}
      (g : HostRegs) : (run (zextCode k result src size) g).x result = k.zext size (g.x src) :=
    run_zextCode k size (e.free_ne_zero (e.mem_free hs))
  cases size with
  | byte =>
    obtain ⟨hs, rfl⟩ := (getGPR_byte_eq_some k).mp h
    exact ⟨_, rfl, hrd .byte hs, hvalue .byte hs⟩
  | byteHigh =>
    obtain ⟨hs, rfl⟩ := (getGPR_byteHigh_eq_some k).mp h
    have hne := e.free_ne_zero (e.mem_free hs)
    refine ⟨_, rfl, List.forall_mem_cons.mpr ⟨e.mem_free hs, hrd .byte hs⟩, fun g ↦ ?_⟩
    have hshift : (exec g (.srli result ref.host 8)).x result = g.x ref.host >>> 8 := by
      simp [exec, Insn.rd, Insn.value, set_x, hne]
    rw [run_cons, hvalue .byte hs, hshift, part]
  | word =>
    obtain ⟨hs, rfl⟩ := (getGPR_word_eq_some k).mp h
    exact ⟨_, rfl, hrd .word hs, hvalue .word hs⟩
  | dword =>
    by_cases hmode : k.mode32
    · obtain ⟨rfl, rfl⟩ := (getGPR_dword_eq_some_mode32 k hmode).mp h
      exact ⟨[], (List.append_nil _).symm, by simp, fun _ ↦ by rw [run_nil, part, if_pos hmode]⟩
    · obtain ⟨hs, rfl⟩ := (getGPR_dword_eq_some k hmode).mp h
      refine ⟨_, rfl, hrd .dword hs, fun g ↦ ?_⟩
      rw [hvalue .dword hs, part, if_neg hmode]
  | qword =>
    obtain ⟨rfl, rfl⟩ := (getGPR_qword_eq_some k).mp h
    exact ⟨[], (List.append_nil _).symm, by simp, fun _ ↦ rfl⟩

/-! ## The laws -/

/-- The position of the part in its register. -/
def lowBit : Size → ℕ
  | .byteHigh => 8
  | _ => 0

/-- The registers before a write, after it, and after the part was read back. -/
structure Laws (ref : GuestReg) (size : Size) (reg result : Reg) (g g₁ g₂ : HostRegs) : Prop where
  read : (g₂.x result).toNat = (g.x reg).toNat % 2 ^ size.bits
  /-- A write of 8 or 16 bits keeps the others. -/
  kept : size.bits < 32 → ∀ i, ¬(lowBit size ≤ i ∧ i < lowBit size + size.bits) →
    (g₁.x ref.host).getLsbD i = (g.x ref.host).getLsbD i
  upper : size = .dword → g₁.x ref.host >>> 32 = 0
  others : ∀ other, other ≠ ref → g₁.x other.host = g.x other.host
  source : reg ≠ ref.host → g₁.x reg = g.x reg
  /-- Reading changes none of these registers. -/
  reading : (∀ guest : GuestReg, g₂.x guest.host = g₁.x guest.host) ∧ g₂.x reg = g₁.x reg

/-- The scratch registers that `setGPR` takes. -/
def setScratches (k : Config) : Size → ℕ
  | .byte => 1
  | .byteHigh => if k.b then 1 else 2
  | .word => 1
  | .dword => 0
  | .qword => 0

/-- The scratch registers that `getGPR` takes. -/
def getScratches (k : Config) : Size → ℕ
  | .byte => 1
  | .byteHigh => 1
  | .word => 1
  | .dword => if k.mode32 then 0 else 1
  | .qword => 0

/-- A write of a part that is read back. -/
def roundTrip (k : Config) (ref : GuestReg) (size : Size) (reg : Reg) : Emit Reg := do
  setGPR k ref size reg
  getGPR k ref size

/-- What is asked of the two routines where `reg` is written. -/
structure SubRegister (k : Config) (ref : GuestReg) (size : Size) (reg : Reg) (e : Emitter) :
    Prop where
  /-- The assertions are the only thing that stops the recompiler. -/
  emits : (roundTrip k ref size reg e).isSome ↔
    (size.bits < 32 → reg ≠ ref.host) ∧
      max (setScratches k size) (getScratches k size) ≤ e.free.length
  laws : ∀ e₁ e₂ result, setGPR k ref size reg e = some ((), e₁) →
    getGPR k ref size e₁ = some (result, e₂) → ∀ g₀,
      Laws ref size reg result (run e.code g₀) (run e₁.code g₀) (run e₂.code g₀)
  /-- With and without the bit manipulation extension. -/
  extension : ∀ b e₁ e₂ result e₁' e₂' result', setGPR k ref size reg e = some ((), e₁) →
    getGPR k ref size e₁ = some (result, e₂) →
    setGPR (k.withB b) ref size reg e = some ((), e₁') →
    getGPR (k.withB b) ref size e₁' = some (result', e₂') → ∀ g₀,
      (∀ r ∉ e.free, (run e₁.code g₀).x r = (run e₁'.code g₀).x r) ∧
      (run e₂.code g₀).x result = (run e₂'.code g₀).x result'

/-- A register that a caller can hold: not one that `scratch` would hand out. `IDIV` of a byte holds
one that it has popped (`not_subRegister_idiv`). -/
structure Source (e : Emitter) where
  reg : Reg
  held : reg ∉ e.free

/-! ### The value -/

theorem getLsbD_of_div_eq {a b : U64} {n i : ℕ} (h : a.toNat / 2 ^ n = b.toNat / 2 ^ n)
    (hi : n ≤ i) : a.getLsbD i = b.getLsbD i := by
  obtain ⟨j, rfl⟩ := Nat.exists_eq_add_of_le' hi
  rw [← BitVec.testBit_toNat, ← BitVec.testBit_toNat, Nat.testBit_add, Nat.testBit_add, h]

theorem getLsbD_of_mod_eq {a b : U64} {n i : ℕ} (h : a.toNat % 2 ^ n = b.toNat % 2 ^ n)
    (hi : i < n) : a.getLsbD i = b.getLsbD i := by
  have hbit := congrArg (fun m ↦ m.testBit i) h
  simpa only [Nat.testBit_mod_two_pow, hi, decide_true, Bool.true_and, BitVec.testBit_toNat]
    using hbit

section Value

variable (k : Config) {size : Size} (old v : U64)

/-- What lies above the part, and what lies below it. -/
theorem merge_outside (hsize : size.bits < 32) :
    (k.merge size old v).toNat / 2 ^ (lowBit size + size.bits) =
        old.toNat / 2 ^ (lowBit size + size.bits) ∧
      (k.merge size old v).toNat % 2 ^ lowBit size = old.toNat % 2 ^ lowBit size := by
  cases size with
  | byte =>
    rw [Config.toNat_merge_byte]
    simp only [lowBit, Size.bits]
    omega
  | byteHigh =>
    rw [Config.toNat_merge_byteHigh]
    simp only [lowBit, Size.bits]
    omega
  | word =>
    rw [Config.toNat_merge_word]
    simp only [lowBit, Size.bits]
    omega
  | dword => simp [Size.bits] at hsize
  | qword => simp [Size.bits] at hsize

theorem getLsbD_merge {i : ℕ} (hsize : size.bits < 32)
    (hi : ¬(lowBit size ≤ i ∧ i < lowBit size + size.bits)) :
    (k.merge size old v).getLsbD i = old.getLsbD i := by
  obtain ⟨hdiv, hmod⟩ := merge_outside k old v hsize
  by_cases hlow : i < lowBit size
  · exact getLsbD_of_mod_eq hmod hlow
  · exact getLsbD_of_div_eq hdiv (by omega)

theorem merge_dword_shr : k.merge .dword old v >>> 32 = 0 := by
  apply BitVec.eq_of_toNat_eq
  rw [Riscv.toNat_shr, Config.toNat_merge_dword]
  exact Nat.div_eq_of_lt (Nat.mod_lt _ (by decide))

/-- **The round trip of the value.** -/
theorem toNat_part_merge :
    (part k size (k.merge size old v)).toNat = v.toNat % 2 ^ size.bits := by
  cases size with
  | byte =>
    rw [part, Config.toNat_zext, Config.toNat_merge_byte]
    simp only [Size.bits]
    omega
  | byteHigh =>
    rw [part, Config.toNat_zext, Riscv.toNat_shr, Config.toNat_merge_byteHigh]
    simp only [Size.bits]
    omega
  | word =>
    rw [part, Config.toNat_zext, Config.toNat_merge_word]
    simp only [Size.bits]
    omega
  | dword =>
    rw [part]
    split
    · exact Config.toNat_merge_dword k old v
    · rw [Config.toNat_zext, Config.toNat_merge_dword]
      exact Nat.mod_mod _ _
  | qword => exact (Nat.mod_eq_of_lt v.isLt).symm

end Value

/-! ### The assertions -/

section Assertions

variable (k : Config) {ref : GuestReg} {size : Size} {reg : Reg} {e e₁ : Emitter}

theorem exists_scratch_iff {n : ℕ} :
    (∃ s, scratchGprs[e.scratchIndex + n]? = some s) ↔ n < e.free.length := by
  rw [← Option.isSome_iff_exists, isSome_getElem?, Emitter.free, List.length_drop]
  omega

theorem setGPR_isSome : (setGPR k ref size reg e).isSome ↔
    (size.bits < 32 → reg ≠ ref.host) ∧ setScratches k size ≤ e.free.length := by
  have hone : (∃ s, scratchGprs[e.scratchIndex]? = some s) ↔ 1 ≤ e.free.length :=
    exists_scratch_iff (n := 0)
  have htwo : (∃ s, scratchGprs[e.scratchIndex + 1]? = some s) ↔ 2 ≤ e.free.length :=
    exists_scratch_iff
  rw [Option.isSome_iff_exists, Prod.exists]
  cases size with
  | byte => simp [setGPR_byte_eq_some, setScratches, Size.bits, hone]
  | byteHigh =>
    by_cases hb : k.b
    · simp [setGPR_byteHigh_eq_some k hb, setScratches, Size.bits, hb, hone]
    · simp [setGPR_byteHigh_mask_eq_some k hb, setScratches, Size.bits, hb, hone, htwo]
      omega
  | word => simp [setGPR_word_eq_some, setScratches, Size.bits, hone]
  | dword => simp [setGPR_dword_eq_some, setScratches, Size.bits]
  | qword => simp [setGPR_qword_eq_some, setScratches, Size.bits]

theorem getGPR_isSome :
    (getGPR k ref size e).isSome ↔ getScratches k size ≤ e.free.length := by
  have hone : (∃ s, scratchGprs[e.scratchIndex]? = some s) ↔ 1 ≤ e.free.length :=
    exists_scratch_iff (n := 0)
  rw [Option.isSome_iff_exists, Prod.exists]
  cases size with
  | byte => simp [getGPR_byte_eq_some, getScratches, hone]
  | byteHigh => simp [getGPR_byteHigh_eq_some, getScratches, hone]
  | word => simp [getGPR_word_eq_some, getScratches, hone]
  | dword =>
    by_cases hmode : k.mode32
    · simp [getGPR_dword_eq_some_mode32 k hmode, getScratches, hmode]
    · simp [getGPR_dword_eq_some k hmode, getScratches, hmode, hone]
  | qword => simp [getGPR_qword_eq_some, getScratches]

end Assertions

/-! ### The routines together -/

theorem Sets.free_eq {k : Config} {ref : GuestReg} {size : Size} {reg : Reg} {e e₁ : Emitter}
    {code : List Insn} (h : Sets k ref size reg e e₁ code) : e₁.free = e.free := by
  rw [h.eq, Emitter.free, Emitter.free]

/-- The registers around a write and a read. -/
structure Around (k : Config) (ref : GuestReg) (size : Size) (reg result : Reg) (free : List Reg)
    (g g₁ g₂ : HostRegs) : Prop where
  value : g₁.x ref.host = k.merge size (g.x ref.host) (g.x reg)
  result_eq : g₂.x result = part k size (g₁.x ref.host)
  set_frame : ∀ r, r ≠ ref.host → r ∉ free → g₁.x r = g.x r
  get_frame : ∀ r ∉ free, g₂.x r = g₁.x r

section Around

variable {k : Config} {ref : GuestReg} {size : Size} {reg result : Reg} {e e₁ e₂ : Emitter}

theorem around_run (hset : setGPR k ref size reg e = some ((), e₁))
    (hget : getGPR k ref size e₁ = some (result, e₂)) (hreg : reg ∉ e.free) (g₀ : HostRegs) :
    Around k ref size reg result e.free (run e.code g₀) (run e₁.code g₀) (run e₂.code g₀) := by
  obtain ⟨code, hcode⟩ := setGPR_spec k hset
  obtain ⟨code', hcode'⟩ := getGPR_spec k hget
  obtain rfl := hcode.eq
  have hrun : run (e.code ++ code) g₀ = run code (run e.code g₀) := run_append
  have hrun' : run e₂.code g₀ = run code' (run (e.code ++ code) g₀) := by
    rw [hcode'.code_eq, run_append]
  refine ⟨?_, ?_, fun r hne hr ↦ ?_, fun r hr ↦ ?_⟩
  · rw [hrun, hcode.value hreg]
  · rw [hrun', hcode'.value]
  · rw [hrun, run_x_of_forall_ne fun i hi ↦ ?_]
    rintro rfl
    exact (hcode.rd i hi).elim hne hr
  · rw [hrun', run_x_of_forall_ne fun i hi ↦ ?_]
    rintro rfl
    exact hr (hcode'.rd i hi)

variable {g g₁ g₂ : HostRegs}

theorem Around.laws (h : Around k ref size reg result e.free g g₁ g₂) (hreg : reg ∉ e.free) :
    Laws ref size reg result g g₁ g₂ := by
  have hhost (guest : GuestReg) : guest.host ∉ e.free := fun hmem ↦ host_ne_free guest hmem rfl
  refine ⟨?_, fun hsize i hi ↦ ?_, fun hsize ↦ ?_, fun other hother ↦ ?_, fun hne ↦ ?_,
    fun guest ↦ h.get_frame _ (hhost guest), h.get_frame reg hreg⟩
  · rw [h.result_eq, h.value, toNat_part_merge]
  · rw [h.value, getLsbD_merge k _ _ hsize hi]
  · rw [h.value, hsize, merge_dword_shr]
  · exact h.set_frame _ (fun heq ↦ hother (host_injective heq)) (hhost other)
  · exact h.set_frame reg hne hreg

theorem part_withB (b : Bool) : part (k.withB b) size = part k size := by
  funext v
  cases size <;> simp [part]

theorem Around.extension {b : Bool} {result' : Reg} {g₁' g₂' : HostRegs}
    (h : Around k ref size reg result e.free g g₁ g₂)
    (h' : Around (k.withB b) ref size reg result' e.free g g₁' g₂') :
    (∀ r ∉ e.free, g₁.x r = g₁'.x r) ∧ g₂.x result = g₂'.x result' := by
  have hhost : g₁.x ref.host = g₁'.x ref.host := by
    rw [h.value, h'.value, Config.merge_withB]
  refine ⟨fun r hr ↦ ?_, ?_⟩
  · by_cases hne : r = ref.host
    · rw [hne, hhost]
    · rw [h.set_frame r hne hr, h'.set_frame r hne hr]
  · rw [h.result_eq, h'.result_eq, part_withB, hhost]

end Around

theorem roundTrip_isSome (k : Config) {ref : GuestReg} {size : Size} {reg : Reg} {e : Emitter} :
    (roundTrip k ref size reg e).isSome ↔ (size.bits < 32 → reg ≠ ref.host) ∧
      max (setScratches k size) (getScratches k size) ≤ e.free.length := by
  rw [Option.isSome_iff_exists, Prod.exists]
  simp only [roundTrip, bind_eq_some]
  constructor
  · rintro ⟨result, e₂, ⟨⟩, e₁, hset, hget⟩
    obtain ⟨code, hcode⟩ := setGPR_spec k hset
    obtain ⟨hne, hset⟩ := (setGPR_isSome k).mp (Option.isSome_iff_exists.mpr ⟨_, hset⟩)
    have hget := (getGPR_isSome k).mp (Option.isSome_iff_exists.mpr ⟨_, hget⟩)
    exact ⟨hne, max_le hset (hcode.free_eq ▸ hget)⟩
  · rintro ⟨hne, hmax⟩
    obtain ⟨⟨⟨⟩, e₁⟩, hset⟩ := Option.isSome_iff_exists.mp
      ((setGPR_isSome k).mpr ⟨hne, (le_max_left _ _).trans hmax⟩)
    obtain ⟨code, hcode⟩ := setGPR_spec k hset
    obtain ⟨⟨result, e₂⟩, hget⟩ := Option.isSome_iff_exists.mp
      ((getGPR_isSome k).mpr (hcode.free_eq ▸ (le_max_right _ _).trans hmax))
    exact ⟨result, e₂, (), e₁, hset, hget⟩

/-- **Parts of registers.** What is written into a part is read back from it, and nothing else
changes, whichever register the caller holds the value in. -/
theorem subRegister (k : Config) (ref : GuestReg) (size : Size) (e : Emitter) (source : Source e) :
    SubRegister k ref size source.reg e where
  emits := roundTrip_isSome k
  laws _ _ _ hset hget g₀ := (around_run hset hget source.held g₀).laws source.held
  extension _ _ _ _ _ _ _ hset hget hset' hget' g₀ :=
    (around_run hset hget source.held g₀).extension (around_run hset' hget' source.held g₀)

/-- Minus one in one register. -/
def onlyIn (reg : Reg) (h : reg ≠ 0) : HostRegs :=
  ⟨fun r ↦ if r = reg then -1 else 0, if_neg h.symm⟩

/-- `IDIV` of a byte pops the scratch register that has the quotient and then writes `AL` from it:
the write takes the same register, and the quotient of -1 by 1 becomes 0xff in it. -/
theorem not_subRegister_idiv :
    ¬ SubRegister ⟨false, false, false, false, false, false, false, false⟩ (.gpr Jit.rax) .byte
      scratchGprs[4] ⟨4, []⟩ := by
  intro h
  have hsource := (h.laws _ _ _ rfl rfl (onlyIn scratchGprs[4] (by decide))).source (by decide)
  exact absurd hsource (by decide)

/-- The second scratch register is in use, the third one is free: `AH` is written from the
second. -/
example : (roundTrip ⟨false, false, false, false, false, false, false, false⟩
    (.gpr Jit.rax) .byteHigh
    6 ⟨2, []⟩).isSome := by decide

/-! ## The values the handlers compute with -/

section Core

variable {ρ : Type*} {k : Config} {r : Jit.Ref} {size : Size} {reg result : Reg} {e e₁ : Emitter}
  {g₀ : HostRegs} {c : Jit.Core ρ}

/-- The host registers hold the general registers of the guest. -/
def Holds (g : HostRegs) (c : Jit.Core ρ) : Prop := ∀ r, g.x (allocatedGPR r) = c.gpr r

theorem getRef_eq_part : k.getRef r size c = part k size (c.gpr r) := by
  cases size <;> rfl

/-- The register `getGPR` returns has the value of `Config.getRef`. -/
theorem getGPR_eq_getRef (h : getGPR k (.gpr r) size e = some (result, e₁))
    (hc : Holds (run e.code g₀) c) : (run e₁.code g₀).x result = k.getRef r size c := by
  obtain ⟨code, hcode⟩ := getGPR_spec k h
  have hrun : run e₁.code g₀ = run code (run e.code g₀) := by rw [hcode.code_eq, run_append]
  rw [hrun, hcode.value, getRef_eq_part, ← hc r]
  rfl

theorem gpr_setRef (v : U64) :
    (k.setRef r size v c).gpr = Function.update c.gpr r (k.merge size (c.gpr r) v) := rfl

/-- `setGPR` computes `Config.setRef`. -/
theorem holds_setGPR {u : Unit} (h : setGPR k (.gpr r) size reg e = some (u, e₁))
    (hreg : reg ∉ e.free) (hc : Holds (run e.code g₀) c) :
    Holds (run e₁.code g₀) (k.setRef r size ((run e.code g₀).x reg) c) := by
  obtain ⟨code, hcode⟩ := setGPR_spec k h
  obtain rfl := hcode.eq
  have hrun : run (e.code ++ code) g₀ = run code (run e.code g₀) := run_append
  intro r'
  rw [hrun, gpr_setRef]
  by_cases hr : r' = r
  · subst hr
    have hvalue := hcode.value hreg (run e.code g₀)
    rw [Function.update_self, ← hc r']
    exact hvalue
  · rw [Function.update_of_ne hr, ← hc r',
      run_x_of_forall_ne fun i hi heq ↦ ?_]
    rcases hcode.rd i hi with hi | hi
    · exact hr (Transfer.allocatedGPR_injective (heq.trans hi))
    · exact host_ne_free (.gpr r') hi heq

end Core

end SubRegisters

end Felix86
