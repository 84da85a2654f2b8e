import Felix86.V2.HostPc
import Felix86.V2.Instruction
import Felix86.V2.LinkCode
import Felix86.V2.Registers

/-!
# The register that holds `RIP`

No direct branch stores an address. Each one adds a constant, computed from the address the block
was compiled for, to whatever the register held when the block was entered. So everything depends on
how blocks are entered: through a link, which must have been written for the block it leads to,
through the address cache, through `compile`, or when a signal handler has changed `RIP`.

The state here is one thread: its recompiler with the history of translations, the register and its
copy in `ThreadState`, where the host is, and what signals have interrupted. Inside a block the host
is at some address of it; on the way from block to block it executes the pairs that the recompiler
writes, one instruction at a time. The invariant is that the host is never anywhere else.

A block that calls a function of the emulator stores the register first (`writebackState`) and loads
it afterwards (`restoreState`), and so do the dispatcher and the thunk. In between only the copy
counts, and a signal that arrives in translated code puts the address of the instruction there.
-/

namespace Felix86

open Recompiler Jit Riscv

/-- The exits of a translation. -/
def Copy.exits (c : Copy) : List (ℕ × Option ℕ) :=
  Recompiler.exits c.start (c.insns.flatMap InsnCode.items)

/-- The handlers in the mode of the recompiler. -/
def Layout.config (L : Layout) (k : Config) : Config := { k with mode32 := L.mode32 }

/-- The argument of `jumpAndLink` in the direct branches. -/
def linkTarget (k : Config) (i : Insn) (displacement : U64) : U64 :=
  if k.mode32 then k.zext .dword (i.rip + i.length + displacement)
  else i.rip + i.length + displacement

/-- A branch that is executed with the address of its block in the register ends at the address the
block was linked to. -/
theorem jumpOffset_guestAddress (k : Config) (i : Insn) (displacement : U64) :
    jumpOffset k i displacement i.guestAddress = linkTarget k i displacement := by
  have hsum : i.guestAddress + (i.rip - i.guestAddress + i.length + displacement) =
      i.rip + i.length + displacement := by
    rw [BitVec.add_assoc (i.rip - i.guestAddress), ← BitVec.add_assoc,
      BitVec.add_comm i.guestAddress, BitVec.sub_add_cancel, BitVec.add_assoc]
  rw [jumpOffset, linkTarget, hsum]

/-! ## The machine -/

/-- Where the host is: in the dispatcher, on the way to a block or to the thunk, or in a block. -/
inductive Position
  | dispatcher
  | running (host : HostState)
  | inside (c : Copy) (pc : ℕ)

/-- What a signal has interrupted: `inJit` is `in_jit_code`, and `old` the `RIP` the handler is
shown. -/
structure Interrupted where
  pos : Position
  rip : U64
  fromState : Bool
  inJit : Bool
  old : U64

/-- The `RIP` with which the interrupted code goes on if the handler returns the one it was
shown. -/
def Interrupted.ahead (f : Interrupted) : U64 := if f.fromState then f.old else f.rip

/-- A thread: `saved` is `ThreadState::rip`, and `fromState` says that the code ahead loads the
register from there before it uses it. -/
structure RipMachine where
  trace : Traced
  rip : U64
  saved : U64
  fromState : Bool
  pos : Position
  frames : List Interrupted

namespace RipMachine

/-- The `RIP` that the code ahead goes on with. -/
def ahead (s : RipMachine) : U64 := if s.fromState then s.saved else s.rip

/-- What can happen next. A signal that arrives in translated code is reported at the guest address
`actual` of an instruction. -/
inductive Label
  | writeback
  | restore
  | dispatch (b : Translation)
  | enter (c : Copy)
  | host
  | thunk
  | advance (pc : ℕ)
  | derail
  | leave (exit : ℕ × Option ℕ) (rip : U64)
  | invalidateRange (start stop : ℕ)
  | signal (actual : Option U64) (handler : U64)
  | sigreturn (rip : U64)

variable (L : Layout) (k : Config)

def initial (code : ℕ → HostInsn) (entrypoint : U64) : RipMachine where
  trace := Traced.initial L code
  rip := 0
  saved := entrypoint
  fromState := true
  pos := .dispatcher
  frames := []

/-- The instruction at `pc` is the block's own: the pair that invalidation writes is elsewhere. -/
def OwnCode (s : Traced) (c : Copy) (pc : ℕ) : Prop := c.start ∈ s.jit.patched → c.start + 8 ≤ pc

/-- What leaving a block through an exit does to the register: a direct branch adds its offset, the
other ones store an address. -/
def Leaves (c : Copy) (kind : Option ℕ) (rip rip' : U64) : Prop :=
  ∀ target ∈ kind, ∃ (i : Insn) (displacement : U64), i.guestAddress.toNat = c.rip ∧
    (linkTarget (L.config k) i displacement).toNat = target ∧
    rip' = jumpOffset (L.config k) i displacement rip

/-- Where the host is after an instruction of a pair. -/
def arrive (host : HostState) : Position :=
  if host.pc.toNat = L.compileNextHandler then .dispatcher else .running host

/-- Where the thread goes on when a handler returns with `rip` in its frame: `sigreturn` has put it
in `ThreadState`, and the kernel gives the host registers back. Only translated code is left for the
dispatcher if `RIP` has changed. -/
def resume (s : RipMachine) (f : Interrupted) (rest : List Interrupted) (rip : U64) : RipMachine :=
  if f.inJit = true ∧ rip ≠ f.old then
    { s with rip := rip, saved := rip, fromState := false, pos := .dispatcher, frames := rest }
  else
    { s with rip := f.rip, saved := rip, fromState := f.fromState, pos := f.pos, frames := rest }

/-- The code that `writebackState` is part of: the dispatcher, the thunk, or a block that calls a
function. -/
def WritesBack (s : RipMachine) : Prop :=
  match s.pos with
  | .dispatcher => True
  | .running host => host.pc.toNat = L.invalidateCallerThunk
  | .inside c pc => OwnCode s.trace c pc

/-- The address the host is at. When the dispatcher has the address of a block and has not loaded
the registers yet, it is not there. -/
def hostPc (s : RipMachine) : Option ℕ :=
  match s.pos with
  | .dispatcher => none
  | .running host => if s.fromState then none else some host.pc.toNat
  | .inside _ pc => some pc

/-- `is_in_jit_code` and `get_actual_rip`: the host is in translated code and the signal is reported
at `rip`, or it is elsewhere, in the dispatcher, in the thunk, or in a function of the emulator. -/
def ReportedAt (s : RipMachine) : Option U64 → Prop
  | some rip => ∃ pc, s.hostPc = some pc ∧ L.startOfCodeCache ≤ pc ∧
      pc < s.trace.jit.tables.cursor ∧ s.trace.ripAt pc = some rip.toNat
  | none => s.fromState = true ∨ ∀ pc, s.hostPc = some pc →
      pc < L.startOfCodeCache ∨ s.trace.jit.tables.cursor ≤ pc

/-- The lookup that the dispatcher makes before it calls `CompileNext`. -/
def InCache (s : RipMachine) : Prop :=
  L.addressCache ∧
    (s.trace.jit.tables.addressCache (s.rip.toNat % 2 ^ addressCacheBits)).guest = s.rip.toNat

/-- What the machine does next. -/
def Step (s : RipMachine) : Label → RipMachine → Prop
  | .writeback, t => s.fromState = false ∧ WritesBack L s ∧
      t = { s with saved := s.rip, fromState := true }
  | .restore, t => s.fromState = true ∧ t = { s with rip := s.saved, fromState := false }
  | .dispatch b, t => s.pos = .dispatcher ∧ (s.fromState = true ∨ InCache L s) ∧
      ∃ address r' host trace,
        s.trace.jit.tables.getCompiledBlock L s.ahead.toNat b.sequence = some (address, r') ∧
        s.trace.Step L (.dispatch s.ahead.toNat b) trace ∧
        host.pc.toNat = address ∧ host.reg .t5 = 0 ∧
        t = { s with trace := trace, pos := .running host }
  | .enter c, t => s.fromState = false ∧ ∃ host, s.pos = .running host ∧ c ∈ s.trace.copies ∧
      host.pc.toNat = c.start ∧ c.start ∉ s.trace.jit.patched ∧
      t = { s with pos := .inside c c.start }
  | .host, t => s.fromState = false ∧ ∃ host host', s.pos = .running host ∧
      L.startOfCodeCache ≤ host.pc.toNat ∧ host.pc.toNat < s.trace.jit.tables.cursor ∧
      (∀ c ∈ s.trace.copies, host.pc.toNat = c.start → c.start ∈ s.trace.jit.patched) ∧
      host.step s.trace.jit.tables.code = some host' ∧ t = { s with pos := arrive L host' }
  | .thunk, t => s.fromState = true ∧ ∃ host r', s.pos = .running host ∧
      host.pc.toNat = L.invalidateCallerThunk ∧
      s.trace.jit.tables.invalidateAt L (host.reg .t6).toNat (host.reg .t5).toNat = some r' ∧
      t = { s with trace.jit.tables := r', pos := .dispatcher }
  | .advance pc', t => ∃ c pc, s.pos = .inside c pc ∧ OwnCode s.trace c pc ∧ c.start ≤ pc' ∧
      pc' < c.stop ∧ t = { s with pos := .inside c pc' }
  | .derail, t => ∃ c pc host, s.pos = .inside c pc ∧ ¬OwnCode s.trace c pc ∧
      host.pc.toNat = pc ∧ t = { s with fromState := false, pos := .running host }
  | .leave exit rip, t => s.fromState = false ∧ ∃ c pc host, s.pos = .inside c pc ∧
      OwnCode s.trace c pc ∧ exit ∈ c.exits ∧ host.pc.toNat = exit.1 ∧
      Leaves L k c exit.2 s.rip rip ∧
      t = { s with rip := rip, pos := .running host }
  | .invalidateRange start stop, t => ∃ trace,
      s.trace.Step L (.invalidateRange start stop) trace ∧ t = { s with trace := trace }
  | .signal actual handler, t => L.mode32 = false ∧ ReportedAt L s actual ∧
      t = { s with
        saved := handler
        fromState := true
        pos := .dispatcher
        frames := ⟨s.pos, s.rip, s.fromState, actual.isSome, actual.getD s.saved⟩ :: s.frames }
  | .sigreturn rip, t => ∃ f rest, s.frames = f :: rest ∧ t = s.resume f rest rip

/-! ## The law -/

/-- The return address that a call pushes. -/
def pushed (k : Config) {ρ : Type*} (c : Core ρ) : U64 := c.mem.load (c.gpr rsp) k.stackWidth.bytes

/-- What the branches of a block do to the register and to the stack. -/
structure BranchLaw (k : Config) (i : Insn) {ρ : Type*} (c : Core ρ) : Prop where
  jmp : i.op0.isImm → (fastJmp k i c).rip = linkTarget k i (displacement i)
  jcc : ∀ cond, (jcc k i cond c).rip = linkTarget k i (if cond = 0 then 0 else displacement i)
  jcxz : ∀ size, (fastJcxz k i size c).rip =
    linkTarget k i (if seqz (k.getRef rcx size c) = 0 then 0 else displacement i)
  loop : ∀ more, (fastLoop k i more c).rip = linkTarget k i
    (if snez (k.getRef rcx i.addressWidth c - 1) &&& more = 0 then 0 else displacement i)
  call : i.op0.isImm → (fastCall k i c).rip = linkTarget k i (displacement i)
  jmpAbsolute : ¬i.op0.isImm → (fastJmp k i c).rip = k.get i i.op0 c
  callAbsolute : ¬i.op0.isImm → (fastCall k i c).rip = k.get i i.op0 c
  ret : (fastRet k i c).rip = pushed k c
  returnAddress : pushed k (fastCall k i c) = linkTarget k i 0

/-- Inside a block the register has the address the block was compiled for, which is the one in its
metadata, and so has `ThreadState` if the register is to be loaded from there; and the branches of
the block go where they should. -/
def RipLaw (s : RipMachine) : Prop :=
  ∀ c pc, s.pos = .inside c pc → s.rip.toNat = c.rip ∧ s.ahead.toNat = c.rip ∧
    (s.trace.jit.tables.blockMetadata c.rip).guestAddress = c.rip ∧
    ∀ (ρ : Type) (i : Insn) (core : Core ρ), i.guestAddress.toNat = c.rip → core.rip = s.rip →
      BranchLaw (L.config k) i core

/-! ### The branches -/

section Branch

variable {ρ : Type*} {k : Config} {i : Insn} {c : Core ρ}

theorem jumpOffset_rip (hrip : c.rip = i.guestAddress) (displacement : U64) :
    jumpOffset k i displacement c.rip = linkTarget k i displacement := by
  rw [hrip, jumpOffset_guestAddress]

theorem rip_jcc (hrip : c.rip = i.guestAddress) (cond : U64) :
    (jcc k i cond c).rip = linkTarget k i (if cond = 0 then 0 else displacement i) :=
  jumpOffset_rip hrip _

theorem rip_fastLoop (hrip : c.rip = i.guestAddress) (more : U64) :
    (fastLoop k i more c).rip = linkTarget k i
      (if snez (k.getRef rcx i.addressWidth c - 1) &&& more = 0 then 0 else displacement i) := by
  refine rip_jcc ?_ _
  rw [← hrip]
  cases k.hostRef rcx i.addressWidth c <;> rfl

/-- The value a call pushes is the address of the next instruction. -/
theorem pushed_writeMemory (v : U64) :
    (pushed k (Config.writeMemory (c.gpr rsp) v k.stackWidth c)).toNat =
      v.toNat % 2 ^ (8 * k.stackWidth.bytes) :=
  Mem.toNat_load_store _ _ _ (by unfold Config.stackWidth; split <;> decide)

theorem pushed_eq_linkTarget {v : U64} (hv : v = i.rip + i.length) :
    pushed k (Config.writeMemory (c.gpr rsp) v k.stackWidth c) = linkTarget k i 0 := by
  subst hv
  apply BitVec.eq_of_toNat_eq
  have hzero : i.rip + i.length + 0 = i.rip + i.length := BitVec.add_zero _
  rw [pushed_writeMemory, linkTarget, hzero, Config.stackWidth]
  split
  · rw [Config.toNat_zext]
    rfl
  · exact Nat.mod_eq_of_lt (i.rip + i.length).isLt

theorem branchLaw (hrip : c.rip = i.guestAddress) : BranchLaw k i c where
  jmp himm := by
    rw [fastJmp, if_pos himm]
    exact jumpOffset_rip hrip _
  jcc := rip_jcc hrip
  jcxz size := rip_jcc hrip _
  loop := rip_fastLoop hrip
  call himm := by
    rw [fastCall, if_pos himm]
    exact jumpOffset_rip hrip _
  jmpAbsolute himm := by rw [fastJmp, if_neg himm]
  callAbsolute himm := by rw [fastCall, if_neg himm]
  ret := rfl
  returnAddress := by
    rw [fastCall]
    split
    · refine pushed_eq_linkTarget (c := addRsp k (-k.stackPointerSize) c) ?_
      rw [hrip, ← BitVec.add_assoc, BitVec.add_comm i.guestAddress, BitVec.sub_add_cancel]
    · exact pushed_eq_linkTarget (c := addRsp k (-k.stackPointerSize) c) rfl

end Branch

/-! ## What the law needs -/

/-- The exits of the block lie behind the pair that invalidation writes over its start, and so does
its last byte. -/
def Roomy (b : Translation) : Prop :=
  (∀ p ∈ Recompiler.exits 0 b.sequence.items, 8 ≤ p.1) ∧ 8 < byteSize b.sequence.items

/-- The host is between the two instructions of a pair. -/
def MidPair (s : RipMachine) : Prop :=
  ∃ host, s.pos = .running host ∧
    ((∃ c ∈ s.trace.copies, ∃ p ∈ c.exits, host.pc.toNat = p.1 + 4) ∨
      ∃ c ∈ s.trace.copies, host.pc.toNat = c.start + 4)

/-- The condition on what happens. -/
def Ok (s : RipMachine) : Label → Prop
  | .dispatch b =>
    (L.mode32 = true → s.ahead.toNat < 2 ^ 32) ∧
      (¬s.trace.jit.Hit L s.ahead.toNat → Roomy b ∧
        (s.trace.full L = true → ∀ f ∈ s.frames, f.pos = .dispatcher))
  | .advance pc => ∀ c pc₀, s.pos = .inside c pc₀ → OwnCode s.trace c pc
  | .invalidateRange start stop => ∀ rip ∈ s.trace.jit.tables.handed start stop, ∀ c pc,
      c.start = (s.trace.jit.tables.blockMetadata rip).address →
      (s.pos = .inside c pc ∨ ∃ f ∈ s.frames, f.pos = .inside c pc) → c.start + 8 ≤ pc
  | .signal actual _ => ¬MidPair s ∧ (s.fromState = true → ∀ rip ∈ actual, rip = s.saved)
  | .sigreturn rip => ∀ f rest, s.frames = f :: rest → f.inJit = false → f.fromState = true →
      rip = f.old
  | _ => True

/-- Where `emitNecessaryStuff` puts things. -/
structure Emitted (L : Layout) : Prop where
  codeCache_le : L.codeCache ≤ L.compileNextHandler
  handler_lt : L.compileNextHandler < L.startOfCodeCache
  handler_even : L.compileNextHandler % 2 = 0
  start_even : L.startOfCodeCache % 2 = 0

/-! ## The invariant -/

/-- A translation of the block starts there. -/
def StartOf (s : Traced) (rip a : ℕ) : Prop := ∃ c ∈ s.copies, c.rip = rip ∧ c.start = a

/-- The exits of all translations. -/
def exitSet (s : Traced) : Set (ℕ × Option ℕ) := {p | ∃ c ∈ s.copies, p ∈ c.exits}

/-- What holds of the recompiler. -/
structure Sound (L : Layout) (s : Traced) : Prop where
  jit : s.jit.Sound L
  recorded : s.Recorded L
  kept : s.jit.Kept L
  cache : Traced.CacheOk L s.jit.tables
  wired : Wired L (StartOf s) (exitSet s) s.jit.tables
  roomy : ∀ c ∈ s.copies, c.start + 8 < c.stop ∧ ∀ p ∈ c.exits, c.start + 8 ≤ p.1
  even : ∀ c ∈ s.copies, c.start % 2 = 0
  cursor_even : s.jit.tables.cursor % 2 = 0
  covered : ∀ b ∈ s.jit.blocks, ∃ c ∈ s.copies, c.start = b.1
  sites : L.link → ∀ c ∈ s.copies, ∀ site rip, (site, some rip) ∈ c.exits → site ∈ s.jit.sites

variable {L} {s t : Traced}

theorem bounds_of_mem_exits (h : s.Recorded L) {c : Copy} (hc : c ∈ s.copies) {p : ℕ × Option ℕ}
    (hp : p ∈ c.exits) : c.start ≤ p.1 ∧ p.1 + 8 ≤ c.stop := by
  have hbounds := Recompiler.bounds_of_mem_exits hp
  rw [← h.size c hc] at hbounds
  exact hbounds

theorem exitsApart (h : s.Recorded L) : ExitsApart (exitSet s) := by
  rintro p ⟨c, hc, hp⟩ q ⟨c', hc', hq⟩
  rcases h.apart hc hc' with rfl | hle | hle
  · exact exits_apart hp hq
  · have h₁ := bounds_of_mem_exits h hc hp
    have h₂ := bounds_of_mem_exits h hc' hq
    omega
  · have h₁ := bounds_of_mem_exits h hc hp
    have h₂ := bounds_of_mem_exits h hc' hq
    omega

theorem sound_initial (hL : Emitted L) (code : ℕ → HostInsn) : Sound L (Traced.initial L code) where
  jit := Jit.sound_initial code
  recorded := Traced.recorded_initial code
  kept := Jit.kept_initial code
  cache := Traced.cacheOk_initial code
  wired := by
    refine ⟨?_, ?_, ?_⟩
    · rintro p ⟨c, hc, -⟩
      cases hc
    · intro rip link hlink
      cases hlink
    · intro rip hne
      exact absurd rfl hne
  roomy c hc := by cases hc
  even c hc := by cases hc
  cursor_even := hL.start_even
  covered b hb := hb.elim
  sites _ c hc := by cases hc

theorem Sound.space (hL : Emitted L) (h : Sound L s) : Sound L (s.space L) := by
  unfold Traced.space
  split
  · exact sound_initial hL _
  · exact h

theorem linksClear_of_roomy {b : Translation} (h : Roomy b) : Jit.LinksClear b.sequence := by
  intro site hsite
  obtain ⟨rip, hexit⟩ := mem_linkSites_iff.mp hsite
  exact h.1 _ hexit

/-- Compiling a block into the space there is. -/
theorem Sound.compiled (h : Sound L s) {rip : ℕ} {b : Translation} {r' : Recompiler}
    (hc : s.jit.tables.compileAt L rip b.sequence = some r') (hroomy : Roomy b) :
    Sound L (s.compiled rip b (s.jit.compiled L b.sequence r')) := by
  obtain ⟨hcompiled, hspace⟩ := compiled_of_compileAt hc h.jit.cursor_le
  have hregistered := registered_of_compileAt hc h.jit.cursor_le
  have hrecorded := h.recorded.compiled hcompiled hregistered h.jit.start_le
  set s' := s.compiled rip b (s.jit.compiled L b.sequence r') with hs'
  set c : Copy := ⟨rip, s.jit.tables.cursor, r'.cursor, b.insns⟩ with hcopy
  have hcopies : s'.copies = s.copies ++ [c] := rfl
  have hmem : c ∈ s'.copies := by simp [hcopies]
  have hexits : exitSet s' = exitSet s ∪ {p | p ∈ Recompiler.exits s.jit.tables.cursor
      b.sequence.items} := by
    ext p
    simp only [exitSet, hcopies, List.mem_append, List.mem_singleton, Set.mem_ofPred_eq,
      Set.mem_union, or_and_right, exists_or, exists_eq_left]
    rfl
  have hexit_le : ∀ p ∈ c.exits, c.start + 8 ≤ p.1 := by
    intro p hp
    obtain ⟨q, hq, heq⟩ := exits_add s.jit.tables.cursor 0 hp
    have := hroomy.1 q hq
    show s.jit.tables.cursor + 8 ≤ p.1
    omega
  refine ⟨h.jit.compiled hcompiled hspace, hrecorded,
    h.kept.compiled h.jit hcompiled fun _ ↦ linksClear_of_roomy hroomy, ?_, ?_, ?_, ?_, ?_, ?_, ?_⟩
  · refine h.cache.update rip hregistered.addressCache (fun hon ↦ ?_) hregistered.address
    exact Or.inr ⟨hon, rfl, h.jit.cursor_pos.ne', hregistered.address_self⟩
  · have hapart := exitsApart hrecorded
    rw [hexits] at hapart ⊢
    refine wired_compileAt (h.wired.mono ?_) ⟨c, hmem, rfl, rfl⟩ hapart ?_ hc
    · rintro rip' a ⟨d, hd, hrip, ha⟩
      exact ⟨d, List.mem_append_left _ hd, hrip, ha⟩
    · rintro p ⟨d, hd, hp⟩
      have h₁ := bounds_of_mem_exits h.recorded hd hp
      have h₂ := (h.recorded.bounds d hd).2.2
      omega
  · intro d hd
    rcases List.mem_append.mp hd with hd | hd
    · exact h.roomy d hd
    · obtain rfl := List.mem_singleton.mp hd
      refine ⟨?_, hexit_le⟩
      have h₁ := hcompiled.cursor
      have h₂ := hroomy.2
      show s.jit.tables.cursor + 8 < r'.cursor
      omega
  · intro d hd
    rcases List.mem_append.mp hd with hd | hd
    · exact h.even d hd
    · obtain rfl := List.mem_singleton.mp hd
      exact h.cursor_even
  · have h₁ := hcompiled.cursor
    have h₂ := even_byteSize b.sequence.items
    have h₃ := h.cursor_even
    show r'.cursor % 2 = 0
    omega
  · rintro d (rfl | hd)
    · exact ⟨c, hmem, rfl⟩
    · obtain ⟨e, he, heq⟩ := h.covered d hd
      exact ⟨e, List.mem_append_left _ he, heq⟩
  · intro hlink d hd site rip' hsite
    rcases List.mem_append.mp hd with hd | hd
    · exact Or.inl (h.sites hlink d hd site rip' hsite)
    · obtain rfl := List.mem_singleton.mp hd
      exact Or.inr ⟨hlink, mem_linkSites_iff.mpr ⟨rip', hsite⟩⟩

/-- A change of the tables that keeps the history. -/
theorem Sound.of_jit (h : Sound L s) {j : Jit} (hjit : j.Sound L)
    (hrecorded : Traced.Recorded L { s with jit := j }) (hkept : j.Kept L)
    (hcache : Traced.CacheOk L j.tables) (hwired : Wired L (StartOf s) (exitSet s) j.tables)
    (hcursor : j.tables.cursor = s.jit.tables.cursor) (hblocks : j.blocks = s.jit.blocks)
    (hsites : j.sites = s.jit.sites) : Sound L { s with jit := j } where
  jit := hjit
  recorded := hrecorded
  kept := hkept
  cache := hcache
  wired := hwired
  roomy := h.roomy
  even := h.even
  cursor_even := hcursor ▸ h.cursor_even
  covered := hblocks ▸ h.covered
  sites := hsites ▸ h.sites

theorem startOf_address (h : Sound L s) {rip : ℕ}
    (hne : (s.jit.tables.blockMetadata rip).address ≠ 0) :
    StartOf s rip (s.jit.tables.blockMetadata rip).address :=
  h.recorded.exists_copy hne

/-- On a hit the dispatcher continues at the start of a translation of the block, or nowhere if the
empty slot of the cache was found for address zero. -/
theorem address_of_hit (h : Sound L s) {rip address : ℕ} {seq : Sequence} {r' : Recompiler}
    (hd : s.jit.tables.getCompiledBlock L rip seq = some (address, r')) (hhit : s.jit.Hit L rip) :
    address = 0 ∨ StartOf s rip address := by
  rw [getCompiledBlock] at hd
  dsimp only at hd
  split at hd
  · next hcache =>
    obtain ⟨rfl, -⟩ := Prod.mk.inj (Option.some.inj hd)
    rcases h.cache (rip % 2 ^ addressCacheBits) with hempty | ⟨-, -, hne, haddress⟩
    · exact Or.inl (by rw [hempty])
    · rw [hcache.2] at haddress
      rw [← haddress] at hne ⊢
      exact Or.inr (startOf_address h hne)
  · next hcache =>
    have hexists := hhit.resolve_left hcache
    rw [if_pos hexists] at hd
    obtain ⟨rfl, -⟩ := Prod.mk.inj (Option.some.inj hd)
    exact Or.inr (startOf_address h hexists)

theorem address_of_miss {rip address : ℕ} {seq : Sequence} {r' : Recompiler}
    (hd : s.jit.tables.getCompiledBlock L rip seq = some (address, r')) (hmiss : ¬s.jit.Hit L rip) :
    address = (s.jit.tables.makeSpace L).cursor := by
  obtain ⟨hcache, hexists⟩ := not_or.mp hmiss
  rw [getCompiledBlock, if_neg hcache, if_neg hexists] at hd
  obtain ⟨r₁, -, h₂⟩ := Option.bind_eq_some_iff.mp hd
  exact (congrArg Prod.fst (Option.some.inj h₂)).symm

/-- The dispatcher's step. -/
theorem Sound.dispatch (hL : Emitted L) (h : Sound L s) {rip address : ℕ} {b : Translation}
    {r' : Recompiler} (hd : s.jit.tables.getCompiledBlock L rip b.sequence = some (address, r'))
    (hstep : s.Step L (.dispatch rip b) t) (hrip : L.mode32 = true → rip < 2 ^ 32)
    (hroomy : ¬s.jit.Hit L rip → Roomy b) :
    Sound L t ∧ (address = 0 ∨ StartOf t rip address) := by
  have hrecorded := h.recorded.step h.jit hstep
  obtain ⟨j, hj, rfl⟩ := hstep
  have hjit := h.jit.step hj
  have hcache := h.cache.step (e := .dispatch rip b) h.jit h.recorded hj
  obtain ⟨address', r'', hd', hcases⟩ := hj
  obtain ⟨rfl, rfl⟩ := Prod.mk.inj (Option.some.inj (hd'.symm.trans hd))
  rcases hcases with ⟨hhit, rfl⟩ | ⟨hmiss, rfl⟩
  · obtain ⟨hframe, hcursor⟩ := (Jit.of_getCompiledBlock hd).1 hhit
    have hkept := h.kept.of_frame hframe hcursor
    simp only [Traced.record, if_pos hhit] at hrecorded ⊢
    refine ⟨h.of_jit hjit hrecorded hkept hcache ?_ hcursor rfl rfl, address_of_hit h hd hhit⟩
    refine ⟨fun p hp ↦ (h.wired.exit p hp).congr fun x _ ↦ hframe.code x (by simp), ?_, ?_⟩
    · intro rip' link hlink
      exact h.wired.pending rip' link
        ((hframe.pendingLinks rip' link hlink).resolve_right (by simp))
    · intro rip' hne
      rw [hframe.address] at hne ⊢
      exact h.wired.address rip' hne
  · have hc := (Jit.of_getCompiledBlock hd).2 hmiss
    have hwrap : wrapRip L rip = rip := by
      rw [wrapRip, if_neg]
      rintro ⟨hmode, hle, -⟩
      have := hrip hmode
      omega
    simp only [Traced.record, if_neg hmiss] at hrecorded ⊢
    rw [hwrap, ← Traced.space_jit]
    rw [compile, hwrap, ← Jit.space_tables, ← Traced.space_jit] at hc
    refine ⟨(h.space hL).compiled hc (hroomy hmiss), Or.inr ?_⟩
    rw [address_of_miss hd hmiss, ← Jit.space_tables, ← Traced.space_jit]
    exact ⟨_, List.mem_append_right _ List.mem_cons_self, rfl, rfl⟩

theorem Sound.invalidateRange (h : Sound L s) {start stop : ℕ}
    (hstep : s.Step L (.invalidateRange start stop) t) : Sound L t ∧ t.copies = s.copies ∧
      (∀ a, a ∈ t.jit.patched ↔ a ∈ s.jit.patched ∨ ∃ rip ∈ s.jit.tables.handed start stop,
        a = (s.jit.tables.blockMetadata rip).address) ∧
      ∀ p ∈ exitSet s, t.jit.tables.code p.1 = s.jit.tables.code p.1 := by
  obtain ⟨j, ⟨r', hr, rfl⟩, rfl⟩ := hstep
  -- exits lie behind the first pair of their block, and the blocks are apart
  have hclear : ∀ p ∈ exitSet s, ∀ rip ∈ s.jit.tables.handed start stop,
      (s.jit.tables.blockMetadata rip).address + 8 ≤ p.1 ∨
        p.1 + 8 ≤ (s.jit.tables.blockMetadata rip).address := by
    rintro p ⟨c, hc, hp⟩ rip hrip
    obtain ⟨d, hd, -, hstart⟩ := h.recorded.exists_copy (address_ne_of_invalidateRange hr rip hrip)
    rw [← hstart]
    have h₁ := bounds_of_mem_exits h.recorded hc hp
    have h₂ := (h.roomy c hc).2 p hp
    have h₃ := (h.roomy d hd).1
    rcases h.recorded.apart hc hd with rfl | hle | hle
    · exact Or.inl h₂
    · exact Or.inr (by omega)
    · exact Or.inl (by omega)
  refine ⟨?_, rfl, fun a ↦ Iff.rfl, fun p hp ↦ code_of_invalidateRange hr fun rip hrip hx ↦ ?_⟩
  rotate_left
  · have h₁ := hclear p hp rip hrip
    have h₂ := hx.1
    have h₃ := hx.2
    omega
  have hstep : s.jit.Step L (.invalidateRange start stop) { s.jit with
      tables := r'
      patched := s.jit.patched ∪ {a | ∃ rip ∈ s.jit.tables.handed start stop,
        a = (s.jit.tables.blockMetadata rip).address} } := ⟨r', hr, rfl⟩
  obtain ⟨-, hcursor, -⟩ := of_invalidateRange hr
  refine h.of_jit (h.jit.step hstep)
    (h.recorded.step (e := .invalidateRange start stop) h.jit ⟨_, hstep, rfl⟩)
    (h.kept.invalidateRange h.jit hr) (h.cache.step (e := .invalidateRange start stop) h.jit
      h.recorded hstep) (wired_invalidateRange h.wired hclear hr) hcursor rfl rfl

/-- The address behind a link to the block, or zero. -/
def Came (L : Layout) (s : Traced) (rip : ℕ) (t5 : U64) : Prop :=
  t5 = 0 ∨ L.link ∧ ∃ c ∈ s.copies, ∃ site, (site, some rip) ∈ c.exits ∧
    t5 = BitVec.ofNat 64 (site + 8)

theorem Came.exists_link (h : Sound L s) {rip : ℕ} {t5 : U64} (hcame : Came L s rip t5) :
    ∃ link, t5.toNat = Jit.linkedBlock link ∧ ∀ site ∈ link, site ∈ s.jit.sites ∧
      (site, some rip) ∈ exitSet s ∧ site + 8 < 2 ^ 63 := by
  rcases hcame with rfl | ⟨hlink, c, hc, site, hsite, rfl⟩
  · exact ⟨none, rfl, by simp⟩
  · have h₁ := bounds_of_mem_exits h.recorded hc hsite
    have h₂ := (h.recorded.bounds c hc).2.2
    have h₃ := h.jit.cursor_le
    have h₄ := L.codeCache_lt
    refine ⟨some site, ?_, ?_⟩
    · rw [BitVec.toNat_ofNat, Nat.mod_eq_of_lt (by omega)]
      rfl
    · rintro site' ⟨⟩
      exact ⟨h.sites hlink c hc site rip hsite, ⟨c, hc, hsite⟩, by omega⟩

/-- The thunk's step, for a block that was patched and entered through a link to it or by the
dispatcher. -/
theorem Sound.thunk (h : Sound L s) {c : Copy} (hc : c ∈ s.copies)
    (hpatched : c.start ∈ s.jit.patched)
    {t5 : U64} (hcame : Came L s c.rip t5) {r' : Recompiler}
    (hr : s.jit.tables.invalidateAt L (c.start + 8) t5.toNat = some r') :
    Sound L { s with jit.tables := r' } := by
  obtain ⟨link, ht5, hlink⟩ := hcame.exists_link h
  rw [ht5] at hr
  have hstep : s.jit.Step L (.thunk c.start link) { s.jit with tables := r' } :=
    ⟨hpatched, fun site hsite ↦ (hlink site hsite).1, r', hr, rfl⟩
  obtain ⟨hcursor, -⟩ := of_invalidateAt hr
  refine h.of_jit (h.jit.step hstep) (h.recorded.step (e := .thunk c.start link) h.jit
    ⟨_, hstep, rfl⟩) (h.kept.thunk h.jit (fun site hsite ↦ (hlink site hsite).1) hr)
    (h.cache.step (e := .thunk c.start link) h.jit h.recorded hstep) ?_ hcursor rfl rfl
  refine wired_invalidateAt h.wired (exitsApart h.recorded) (fun hne key rip hlower ↦ ?_) hr
  -- the lookup finds the block of the patched translation, which is what the link links to
  have hlookup := h.recorded.lowerBound hc (Nat.le_add_right c.start 8) (h.roomy c hc).1
  obtain ⟨-, rfl⟩ := Prod.mk.inj (Option.some.inj (hlower.symm.trans hlookup))
  rw [h.recorded.guestAddress hlower]
  cases link with
  | none => exact absurd rfl hne
  | some site =>
    obtain ⟨-, hexit, hlt⟩ := hlink site rfl
    rwa [Jit.linkOf_linkedBlock (by omega)]

/-! ## Where the host can be -/

/-- The host has arrived somewhere: at the start of a block, through a link to it or from the
dispatcher; at the thunk, from a patched block; or at an exit. A jump to address zero ends the
run. -/
inductive Settled (L : Layout) (s : Traced) (rip : U64) (host : HostState) : Prop
  | start (c : Copy) (hc : c ∈ s.copies) (hpc : host.pc.toNat = c.start) (hrip : rip.toNat = c.rip)
      (hcame : Came L s c.rip (host.reg .t5))
  | thunk (c : Copy) (hc : c ∈ s.copies) (hpatched : c.start ∈ s.jit.patched)
      (hpc : host.pc.toNat = L.invalidateCallerThunk)
      (ht6 : host.reg .t6 = BitVec.ofNat 64 (c.start + 8)) (hcame : Came L s c.rip (host.reg .t5))
  | exit (c : Copy) (hc : c ∈ s.copies) (p : ℕ × Option ℕ) (hp : p ∈ c.exits)
      (hpc : host.pc.toNat = p.1) (hrip : ∀ target ∈ p.2, rip.toNat = target)
  | null (hpc : host.pc.toNat = 0)

/-- The host has executed the first instruction of a pair. -/
inductive Half (L : Layout) (s : Traced) (rip : U64) (host : HostState) : Prop
  | start (c : Copy) (hc : c ∈ s.copies) (hpatched : c.start ∈ s.jit.patched) (host₀ : HostState)
      (hpc : host₀.pc.toNat = c.start) (hcame : Came L s c.rip (host₀.reg .t5))
      (hstep : host₀.step s.jit.tables.code = some host)
  | exit (c : Copy) (hc : c ∈ s.copies) (p : ℕ × Option ℕ) (hp : p ∈ c.exits) (host₀ : HostState)
      (hpc : host₀.pc.toNat = p.1) (hrip : ∀ target ∈ p.2, rip.toNat = target)
      (hstep : host₀.step s.jit.tables.code = some host)

/-- A position at which a thread can be interrupted. -/
def Rests (L : Layout) (s : Traced) (rip : U64) : Position → Prop
  | .dispatcher => True
  | .running host => Settled L s rip host
  | .inside c pc => c ∈ s.copies ∧ rip.toNat = c.rip ∧ OwnCode s c pc

theorem Came.mono {rip : ℕ} {t5 : U64} (h : Came L s rip t5)
    (hcopies : ∀ c ∈ s.copies, c ∈ t.copies) :
    Came L t rip t5 :=
  h.imp_right fun ⟨hlink, c, hc, hsite⟩ ↦ ⟨hlink, c, hcopies c hc, hsite⟩

/-- Nothing changes for a position while translations are added and blocks are patched, unless the
host is in the first instructions of a block that is patched. -/
theorem Rests.mono {rip : U64} {pos : Position} (h : Rests L s rip pos)
    (hcopies : ∀ c ∈ s.copies, c ∈ t.copies) (hpatched : ∀ a ∈ s.jit.patched, a ∈ t.jit.patched)
    (hown : ∀ c pc, pos = .inside c pc → OwnCode s c pc → OwnCode t c pc) : Rests L t rip pos := by
  cases pos with
  | dispatcher => trivial
  | inside c pc =>
    obtain ⟨hc, hrip, hclear⟩ := h
    exact ⟨hcopies c hc, hrip, hown c pc rfl hclear⟩
  | running host =>
    cases h with
    | start c hc hpc hrip hcame => exact .start c (hcopies c hc) hpc hrip (hcame.mono hcopies)
    | thunk c hc hp hpc ht6 hcame =>
      exact .thunk c (hcopies c hc) (hpatched _ hp) hpc ht6 (hcame.mono hcopies)
    | exit c hc p hp hpc hrip => exact .exit c (hcopies c hc) p hp hpc hrip
    | null hpc => exact .null hpc

/-- Addresses of translations, for the arithmetic of pairs. -/
theorem Sound.near (h : Sound L s) {c d : Copy} (hc : c ∈ s.copies) (hd : d ∈ s.copies) {a b : ℕ}
    (ha : a + 8 ≤ c.stop) (hb : d.start ≤ b) : a + 8 < 2 ^ 63 ∧ a ≤ b + 2 ^ 30 := by
  have h₁ := (h.recorded.bounds c hc).2.2
  have h₂ := h.jit.cursor_le
  have h₃ := L.codeCache_lt
  have h₄ := (h.recorded.bounds d hd).1
  have h₅ := L.codeCache_le_thunk
  have h₆ := L.thunk_lt_start
  unfold codeCacheSize at h₂ h₃
  omega

/-- The pair at an exit leads to the dispatcher, or to the block that the exit links to. -/
theorem Sound.exit_steps (hL : Emitted L) (h : Sound L s) {c : Copy} (hc : c ∈ s.copies)
    {p : ℕ × Option ℕ} (hp : p ∈ c.exits) {host : HostState} (hpc : host.pc.toNat = p.1) :
    ∃ h₁ h₂, host.step s.jit.tables.code = some h₁ ∧ h₁.pc.toNat = p.1 + 4 ∧
      h₁.step s.jit.tables.code = some h₂ ∧ (h₂.pc.toNat = L.compileNextHandler ∨
        L.link ∧ ∃ d ∈ s.copies, p.2 = some d.rip ∧ h₂.pc.toNat = d.start ∧
          h₂.reg .t5 = BitVec.ofNat 64 (p.1 + 8)) := by
  have hbounds := bounds_of_mem_exits h.recorded hc hp
  have hcopy := (h.recorded.bounds c hc).1
  rcases h.wired.exit p ⟨c, hc, hp⟩ with ⟨hauipc, hjalr⟩ | ⟨hlink, rip, a, hkind, ⟨d, hd, rfl, rfl⟩,
    hjump⟩
  · have h₁ := h.near hc hc hbounds.2 le_rfl
    have h₂ := hL.codeCache_le
    have h₃ := hL.handler_lt
    have h₄ := (h.recorded.bounds c hc).2.2
    have h₅ := h.jit.cursor_le
    have h₆ := L.codeCache_lt
    unfold codeCacheSize at h₅ h₆
    obtain ⟨h₁, h₂, hfirst, hpc₁, hsecond, hpc₂, -⟩ := step_auipc_jalr (by decide) hpc h₁.1
      (by omega) hL.handler_even ⟨by omega, by omega⟩ hauipc hjalr
    exact ⟨h₁, h₂, hfirst, hpc₁, hsecond, Or.inl hpc₂⟩
  · have hroomy := (h.roomy d hd).1
    have h₁ := h.near hc hd hbounds.2 le_rfl
    have h₂ := h.near hd hc (a := d.start) (by omega) hbounds.1
    obtain ⟨h₁, h₂, hfirst, hpc₁, hsecond, hpc₂, ht5⟩ := step_jumpPair hjump hpc h₁.1 (by omega)
      (h.even d hd) ⟨h₂.2, h₁.2⟩
    exact ⟨h₁, h₂, hfirst, hpc₁, hsecond, Or.inr ⟨hlink, d, hd, hkind, hpc₂, ht5⟩⟩

/-- The pair at the start of a patched block leads to the thunk. -/
theorem Sound.patched_steps (h : Sound L s) {c : Copy} (hc : c ∈ s.copies)
    (hpatched : c.start ∈ s.jit.patched) {host : HostState} (hpc : host.pc.toNat = c.start) :
    ∃ h₁ h₂, host.step s.jit.tables.code = some h₁ ∧ h₁.pc.toNat = c.start + 4 ∧
      h₁.step s.jit.tables.code = some h₂ ∧ h₂.pc.toNat = L.invalidateCallerThunk ∧
      h₂.reg .t6 = BitVec.ofNat 64 (c.start + 8) ∧ h₂.reg .t5 = host.reg .t5 := by
  obtain ⟨hauipc, hjalr⟩ := h.kept.patched c.start hpatched
  have hroomy := (h.roomy c hc).1
  obtain ⟨hstart, -, hstop⟩ := h.recorded.bounds c hc
  have h₁ := L.codeCache_le_thunk
  have h₂ := L.thunk_lt_start
  have h₃ := L.codeCache_lt
  have h₄ := h.jit.cursor_le
  unfold codeCacheSize at h₃ h₄
  obtain ⟨h₁, h₂, hfirst, hpc₁, hsecond, hpc₂, hkeep, ht6⟩ := step_auipc_jalr (by decide) hpc
    (by omega) (by omega) L.thunk_even ⟨by omega, by omega⟩ hauipc hjalr
  exact ⟨h₁, h₂, hfirst, hpc₁, hsecond, hpc₂, ht6 (by decide), hkeep .t5 (by decide) (by decide)⟩

/-- Half a pair is at no place where the host could have arrived. -/
theorem Half.pc (hL : Emitted L) (h : Sound L s) {rip : U64} {host : HostState}
    (hhalf : Half L s rip host) : (∃ c ∈ s.copies, host.pc.toNat = c.start + 4) ∨
      ∃ c ∈ s.copies, ∃ p ∈ c.exits, host.pc.toNat = p.1 + 4 := by
  cases hhalf with
  | start c hc hpatched host₀ hpc hcame hstep =>
    obtain ⟨h₁, -, hfirst, hpc₁, -⟩ := h.patched_steps hc hpatched hpc
    obtain rfl := Option.some.inj (hstep.symm.trans hfirst)
    exact Or.inl ⟨c, hc, hpc₁⟩
  | exit c hc p hp host₀ hpc hrip hstep =>
    obtain ⟨h₁, -, hfirst, hpc₁, -⟩ := h.exit_steps hL hc hp hpc
    obtain rfl := Option.some.inj (hstep.symm.trans hfirst)
    exact Or.inr ⟨c, hc, p, hp, hpc₁⟩

/-- An address inside a translation is not the start of one. -/
theorem Sound.ne_start (h : Sound L s) {c d : Copy} (hc : c ∈ s.copies) (hd : d ∈ s.copies) {a : ℕ}
    (ha : c.start < a ∧ a < c.stop) : a ≠ d.start := by
  rintro rfl
  have hroomy := (h.roomy d hd).1
  rcases h.recorded.apart hc hd with rfl | hle | hle <;> omega

theorem Half.inside (hL : Emitted L) (h : Sound L s) {rip : U64} {host : HostState}
    (hhalf : Half L s rip host) :
        ∃ c ∈ s.copies, c.start < host.pc.toNat ∧ host.pc.toNat < c.stop := by
  rcases hhalf.pc hL h with ⟨c, hc, hpc⟩ | ⟨c, hc, p, hp, hpc⟩
  · have := (h.roomy c hc).1
    exact ⟨c, hc, by omega, by omega⟩
  · have := bounds_of_mem_exits h.recorded hc hp
    exact ⟨c, hc, by omega, by omega⟩

/-! ## The run -/

/-- The invariant of a run. -/
structure Inv (L : Layout) (s : RipMachine) : Prop where
  sound : Sound L s.trace
  pos : Rests L s.trace s.ahead s.pos ∨
    ∃ host, s.pos = .running host ∧ Half L s.trace s.ahead host
  saved : ∀ c pc, s.pos = .inside c pc → s.ahead = s.rip
  frames : ∀ f ∈ s.frames, Rests L s.trace f.ahead f.pos
  framesSaved : ∀ f ∈ s.frames, ∀ c pc, f.pos = .inside c pc → f.ahead = f.rip

variable {m m' : RipMachine}

theorem ahead_of_loaded (h : m.fromState = false) : m.ahead = m.rip := by rw [ahead, h]; rfl

theorem ahead_of_stored (h : m.fromState = true) : m.ahead = m.saved := by rw [ahead, h]; rfl

theorem inv_initial (hL : Emitted L) (code : ℕ → HostInsn) (entrypoint : U64) :
    Inv L (initial L code entrypoint) where
  sound := sound_initial hL code
  pos := Or.inl trivial
  saved _ _ hpos := nomatch hpos
  frames f hf := by cases hf
  framesSaved f hf := by cases hf

/-- Below the code that is emitted for blocks there is no block. -/
theorem Sound.start_le (h : Sound L s) {c : Copy} (hc : c ∈ s.copies) :
    L.invalidateCallerThunk < c.start ∧ 0 < L.invalidateCallerThunk := by
  have h₁ := (h.recorded.bounds c hc).1
  have h₂ := L.codeCache_pos
  have h₃ := L.codeCache_le_thunk
  have h₄ := L.thunk_lt_start
  omega

/-- A thread on the way that is at the start of a block was on the way to it. -/
theorem Inv.at_start (hL : Emitted L) (h : Inv L m) {host : HostState}
    (hpos : m.pos = .running host)
    {c : Copy} (hc : c ∈ m.trace.copies) (hpc : host.pc.toNat = c.start) :
    m.ahead.toNat = c.rip ∧ Came L m.trace c.rip (host.reg .t5) := by
  have hpos' := h.pos
  rw [hpos] at hpos'
  obtain ⟨hthunk, hnull⟩ := h.sound.start_le hc
  rcases hpos' with hsettled | ⟨host', heq, hhalf⟩
  · cases hsettled with
    | start c' hc' hpc' hrip hcame =>
      obtain rfl : c' = c := by
        by_contra hne
        have h₁ := (h.sound.roomy c hc).1
        have h₂ := (h.sound.roomy c' hc').1
        rcases h.sound.recorded.apart hc' hc with heq | hle | hle
        · exact hne heq
        · omega
        · omega
      exact ⟨hrip, hcame⟩
    | thunk c' hc' hpatched hpc' ht6 hcame => omega
    | exit c' hc' p hp hpc' hrip =>
      have h₁ := (h.sound.roomy c' hc').2 p hp
      have h₂ := bounds_of_mem_exits h.sound.recorded hc' hp
      exact absurd (hpc'.symm.trans hpc) (h.sound.ne_start hc' hc ⟨by omega, by omega⟩)
    | null hpc' => omega
  · obtain rfl := Position.running.inj heq
    obtain ⟨c', hc', hin⟩ := hhalf.inside hL h.sound
    exact absurd hpc (h.sound.ne_start hc' hc hin)

/-- A thread that has arrived at the thunk comes from a patched block. -/
theorem Inv.at_thunk (hL : Emitted L) (h : Inv L m) {host : HostState}
    (hpos : m.pos = .running host)
    (hpc : host.pc.toNat = L.invalidateCallerThunk) : ∃ c ∈ m.trace.copies,
      c.start ∈ m.trace.jit.patched ∧ (host.reg .t6).toNat = c.start + 8 ∧
      Came L m.trace c.rip (host.reg .t5) := by
  have hpos' := h.pos
  rw [hpos] at hpos'
  have h₁ := L.codeCache_pos
  have h₂ := L.codeCache_le_thunk
  rcases hpos' with hsettled | ⟨host', heq, hhalf⟩
  · cases hsettled with
    | start c hc hpc' hrip hcame =>
      have := (h.sound.start_le hc).1
      omega
    | thunk c hc hpatched hpc' ht6 hcame =>
      refine ⟨c, hc, hpatched, ?_, hcame⟩
      have h₃ := (h.sound.roomy c hc).1
      have h₄ := (h.sound.recorded.bounds c hc).2.2
      have h₅ := h.sound.jit.cursor_le
      have h₆ := L.codeCache_lt
      rw [ht6, BitVec.toNat_ofNat, Nat.mod_eq_of_lt (by omega)]
    | exit c hc p hp hpc' hrip =>
      have h₃ := (h.sound.start_le hc).1
      have h₄ := bounds_of_mem_exits h.sound.recorded hc hp
      omega
    | null hpc' => omega
  · obtain rfl := Position.running.inj heq
    obtain ⟨c, hc, hin⟩ := hhalf.inside hL h.sound
    have := (h.sound.start_le hc).1
    omega

/-- One instruction of a pair. -/
theorem Inv.host (hL : Emitted L) (h : Inv L m) {host host' : HostState}
    (hpos : m.pos = .running host) (hle : L.startOfCodeCache ≤ host.pc.toNat)
    (hpatched : ∀ c ∈ m.trace.copies, host.pc.toNat = c.start → c.start ∈ m.trace.jit.patched)
    (hstep : host.step m.trace.jit.tables.code = some host') :
    Rests L m.trace m.ahead (.running host') ∨ Half L m.trace m.ahead host' ∨
      host'.pc.toNat = L.compileNextHandler := by
  have hpos' := h.pos
  rw [hpos] at hpos'
  have hthunk := L.thunk_lt_start
  rcases hpos' with hsettled | ⟨host₁, heq, hhalf⟩
  · cases hsettled with
    | start c hc hpc hrip hcame =>
      exact Or.inr (Or.inl (.start c hc (hpatched c hc hpc) host hpc hcame hstep))
    | thunk c hc _ hpc ht6 hcame => omega
    | exit c hc p hp hpc hrip => exact Or.inr (Or.inl (.exit c hc p hp host hpc hrip hstep))
    | null hpc => omega
  · obtain rfl := Position.running.inj heq
    cases hhalf with
    | start c hc hpatched host₀ hpc hcame hstep₀ =>
      obtain ⟨h₁, h₂, hfirst, -, hsecond, hpc₂, ht6, ht5⟩ := h.sound.patched_steps hc hpatched hpc
      obtain rfl := Option.some.inj (hstep₀.symm.trans hfirst)
      obtain rfl := Option.some.inj (hstep.symm.trans hsecond)
      exact Or.inl (.thunk c hc hpatched hpc₂ ht6 (ht5.symm ▸ hcame))
    | exit c hc p hp host₀ hpc hrip hstep₀ =>
      obtain ⟨h₁, h₂, hfirst, -, hsecond, hlands⟩ := h.sound.exit_steps hL hc hp hpc
      obtain rfl := Option.some.inj (hstep₀.symm.trans hfirst)
      obtain rfl := Option.some.inj (hstep.symm.trans hsecond)
      rcases hlands with hpc₂ | ⟨hlink, d, hd, hkind, hpc₂, ht5⟩
      · exact Or.inr (Or.inr hpc₂)
      · refine Or.inl (.start d hd hpc₂ (hrip d.rip hkind) (Or.inr ⟨hlink, c, hc, p.1, ?_, ht5⟩))
        rwa [← hkind]

/-- Unless the code cache is cleared, dispatching only adds a translation. -/
theorem of_dispatch {rip : ℕ} {b : Translation} (hstep : s.Step L (.dispatch rip b) t)
    (hfull : ¬s.jit.Hit L rip → s.full L = false) :
    (∀ c ∈ s.copies, c ∈ t.copies) ∧ t.jit.patched = s.jit.patched := by
  obtain ⟨j, ⟨address, r', hd, ⟨hhit, rfl⟩ | ⟨hmiss, rfl⟩⟩, rfl⟩ := hstep
  · simp only [Traced.record, if_pos hhit]
    exact ⟨fun _ hc ↦ hc, trivial⟩
  · have hspace := Traced.space_of_not_full (hfull hmiss)
    simp only [Traced.record, if_neg hmiss]
    rw [← Traced.space_jit, hspace]
    exact ⟨fun c hc ↦ List.mem_append_left _ hc, rfl⟩

theorem Inv.dispatch (hL : Emitted L) (h : Inv L m) {b : Translation} (hok : Ok L m (.dispatch b))
    (hstep : Step L k m (.dispatch b) m') : Inv L m' := by
  obtain ⟨hmode, hmiss⟩ := hok
  obtain ⟨-, -, address, r', host, trace, hd, htrace, hpc, ht5, rfl⟩ := hstep
  obtain ⟨hsound, haddress⟩ := h.sound.dispatch hL hd htrace hmode fun hn ↦ (hmiss hn).1
  refine ⟨hsound, Or.inl ?_, fun c pc hin ↦ ?_, fun f hf ↦ ?_, h.framesSaved⟩
  · rcases haddress with hzero | ⟨c, hc, hrip, hstart⟩
    · exact .null (hpc.trans hzero)
    · exact .start c hc (hpc.trans hstart.symm) hrip.symm (Or.inl ht5)
  · cases hin
  · by_cases hclear : ¬m.trace.jit.Hit L m.ahead.toNat ∧ m.trace.full L = true
    · have hpos := (hmiss hclear.1).2 hclear.2 f hf
      show Rests L trace f.ahead f.pos
      rw [hpos]
      trivial
    · obtain ⟨hcopies, hpatched⟩ := of_dispatch htrace fun hn ↦ by
        by_contra hfull
        exact hclear ⟨hn, by simpa using hfull⟩
      refine (h.frames f hf).mono hcopies (fun a ha ↦ hpatched ▸ ha) fun c pc _ hown ↦ ?_
      show c.start ∈ trace.jit.patched → _
      rw [hpatched]
      exact hown

theorem Inv.thunk (hL : Emitted L) (h : Inv L m) (hstep : Step L k m .thunk m') : Inv L m' := by
  obtain ⟨-, host, r', hpos, hpc, hr, rfl⟩ := hstep
  obtain ⟨c, hc, hpatched, ht6, hcame⟩ := h.at_thunk hL hpos hpc
  rw [ht6] at hr
  refine ⟨h.sound.thunk hc hpatched hcame hr, Or.inl trivial, fun _ _ hin ↦ ?_, fun f hf ↦ ?_,
    h.framesSaved⟩
  · cases hin
  · exact (h.frames f hf).mono (fun _ hc ↦ hc) (fun _ ha ↦ ha) fun _ _ _ hown ↦ hown

theorem Inv.leave (h : Inv L m) {p : ℕ × Option ℕ} {rip : U64}
    (hstep : Step L k m (.leave p rip) m') : Inv L m' := by
  obtain ⟨hloaded, c, pc, host, hpos, -, hp, hpc, hleaves, rfl⟩ := hstep
  have hpos' := h.pos
  rw [hpos, ahead_of_loaded hloaded] at hpos'
  rcases hpos' with ⟨hc, hrip, -⟩ | ⟨host', heq, -⟩
  · have hahead : ({ m with rip := rip, pos := .running host } : RipMachine).ahead = rip :=
      ahead_of_loaded hloaded
    refine ⟨h.sound, Or.inl ?_, fun _ _ hin ↦ ?_, h.frames, h.framesSaved⟩
    · rw [hahead]
      refine .exit c hc p hp hpc fun target htarget ↦ ?_
      obtain ⟨i, displacement, hguest, hlink, rfl⟩ := hleaves target htarget
      have hreg : m.rip = i.guestAddress := BitVec.eq_of_toNat_eq (hrip.trans hguest.symm)
      show (jumpOffset (L.config k) i displacement m.rip).toNat = target
      rw [hreg, jumpOffset_guestAddress, hlink]
    · cases hin
  · cases heq

theorem Inv.invalidateRange (h : Inv L m) {start stop : ℕ}
    (hok : Ok L m (.invalidateRange start stop))
    (hstep : Step L k m (.invalidateRange start stop) m') : Inv L m' := by
  obtain ⟨trace, htrace, rfl⟩ := hstep
  obtain ⟨hsound, hcopies, hpatched, hcode⟩ := h.sound.invalidateRange htrace
  have hmem : ∀ c ∈ m.trace.copies, c ∈ trace.copies := fun c hc ↦ hcopies ▸ hc
  have hgrows : ∀ a ∈ m.trace.jit.patched, a ∈ trace.jit.patched := fun a ha ↦
    (hpatched a).mpr (Or.inl ha)
  have hown (c : Copy) (pc : ℕ) (hin : m.pos = .inside c pc ∨ ∃ f ∈ m.frames, f.pos = .inside c pc)
      (hclear : OwnCode m.trace c pc) : OwnCode trace c pc := by
    intro ha
    rcases (hpatched c.start).mp ha with hold | ⟨rip, hrip, hstart⟩
    · exact hclear hold
    · exact hok rip hrip c pc hstart hin
  refine ⟨hsound, ?_, h.saved, fun f hf ↦ ?_, h.framesSaved⟩
  · rcases h.pos with hrests | ⟨host, hpos, hhalf⟩
    · exact Or.inl (hrests.mono hmem hgrows fun c pc hin ↦ hown c pc (Or.inl hin))
    · refine Or.inr ⟨host, hpos, ?_⟩
      cases hhalf with
      | start c hc hp host₀ hpc hcame hstep₀ =>
        refine .start c (hmem c hc) (hgrows _ hp) host₀ hpc (hcame.mono hmem) ?_
        -- both times the instruction is the first of the pair to the thunk
        rw [HostState.step, hpc, (h.sound.kept.patched _ hp).1] at hstep₀
        rw [HostState.step, hpc, (hsound.kept.patched _ (hgrows _ hp)).1]
        exact hstep₀
      | exit c hc p hp host₀ hpc hrip hstep₀ =>
        refine .exit c (hmem c hc) p hp host₀ hpc hrip ?_
        rw [HostState.step, hpc] at hstep₀ ⊢
        rw [hcode p ⟨c, hc, hp⟩]
        exact hstep₀
  · exact (h.frames f hf).mono hmem hgrows fun c pc hin ↦ hown c pc (Or.inr ⟨f, hf, hin⟩)

/-- Storing the register and loading it again changes nothing. -/
theorem Inv.writeback (h : Inv L m) (hstep : Step L k m .writeback m') : Inv L m' := by
  obtain ⟨hloaded, -, rfl⟩ := hstep
  have hahead := ahead_of_loaded hloaded
  refine ⟨h.sound, ?_, fun _ _ _ ↦ rfl, h.frames, h.framesSaved⟩
  have hpos := h.pos
  rwa [hahead] at hpos

theorem Inv.restore (h : Inv L m) (hstep : Step L k m .restore m') : Inv L m' := by
  obtain ⟨hstored, rfl⟩ := hstep
  have hahead := ahead_of_stored hstored
  refine ⟨h.sound, ?_, fun _ _ _ ↦ rfl, h.frames, h.framesSaved⟩
  have hpos := h.pos
  rwa [hahead] at hpos

/-- Signals that come and handlers that return. -/
theorem Inv.signal (hL : Emitted L) (h : Inv L m) {actual : Option U64} {handler : U64}
    (hok : Ok L m (.signal actual handler)) (hstep : Step L k m (.signal actual handler) m') :
    Inv L m' := by
  obtain ⟨-, -, rfl⟩ := hstep
  obtain ⟨hpair, hactual⟩ := hok
  set f : Interrupted :=
    ⟨m.pos, m.rip, m.fromState, actual.isSome, actual.getD m.saved⟩ with hf
  -- what the handler is shown is what the interrupted code loads, if it loads anything
  have hshown : f.ahead = m.ahead := by
    show (if m.fromState then actual.getD m.saved else m.rip) =
      if m.fromState then m.saved else m.rip
    split
    · next hstored =>
      cases actual with
      | none => rfl
      | some rip => exact hactual hstored rip rfl
    · rfl
  refine ⟨h.sound, Or.inl trivial, fun _ _ hin ↦ ?_, fun g hg ↦ ?_, fun g hg c pc hin ↦ ?_⟩
  · cases hin
  · rcases List.mem_cons.mp hg with rfl | hg
    · rw [hshown]
      refine h.pos.resolve_right ?_
      rintro ⟨host, hpos, hhalf⟩
      exact hpair ⟨host, hpos, (hhalf.pc hL h.sound).symm⟩
    · exact h.frames g hg
  · rcases List.mem_cons.mp hg with rfl | hg
    · exact hshown.trans (h.saved c pc hin)
    · exact h.framesSaved g hg c pc hin

theorem Inv.sigreturn (h : Inv L m) {rip : U64} (hok : Ok L m (.sigreturn rip))
    (hstep : Step L k m (.sigreturn rip) m') : Inv L m' := by
  obtain ⟨f, rest, hframes, rfl⟩ := hstep
  have hmem : f ∈ m.frames := by rw [hframes]; exact List.mem_cons_self
  have hrest : ∀ g ∈ rest, g ∈ m.frames := fun g hg ↦ by
    rw [hframes]; exact List.mem_cons_of_mem _ hg
  unfold resume
  split
  · exact ⟨h.sound, Or.inl trivial, (fun _ _ hin ↦ nomatch hin), fun g hg ↦ h.frames g (hrest g hg),
      fun g hg ↦ h.framesSaved g (hrest g hg)⟩
  · next hsame =>
    have hahead : (if f.fromState then rip else f.rip) = f.ahead := by
      unfold Interrupted.ahead
      split
      · next hstored =>
        by_contra hne
        refine hsame ⟨?_, hne⟩
        by_contra hout
        exact hne (hok f rest hframes (by simpa using hout) hstored)
      · rfl
    refine ⟨h.sound, Or.inl ?_, fun c pc hin ↦ ?_, fun g hg ↦ h.frames g (hrest g hg),
      fun g hg ↦ h.framesSaved g (hrest g hg)⟩
    · show Rests L m.trace (if f.fromState then rip else f.rip) f.pos
      rw [hahead]
      exact h.frames f hmem
    · exact hahead.trans (h.framesSaved f hmem c pc hin)

theorem Inv.step (hL : Emitted L) {label : Label} (h : Inv L m)
    (hstep : Guarded (Ok L) (Step L k) m label m') : Inv L m' := by
  obtain ⟨hok, hstep⟩ := hstep
  cases label with
  | dispatch b => exact h.dispatch k hL hok hstep
  | writeback => exact h.writeback k hstep
  | restore => exact h.restore k hstep
  | enter c =>
    obtain ⟨hloaded, host, hpos, hc, hpc, hpatched, rfl⟩ := hstep
    have hrip := (h.at_start hL hpos hc hpc).1
    exact ⟨h.sound, Or.inl ⟨hc, hrip, fun hp ↦ absurd hp hpatched⟩,
      fun _ _ _ ↦ ahead_of_loaded hloaded, h.frames, h.framesSaved⟩
  | host =>
    obtain ⟨hloaded, host, host', hpos, hle, -, hpatched, hstep, rfl⟩ := hstep
    refine ⟨h.sound, ?_, fun _ _ _ ↦ ahead_of_loaded hloaded, h.frames, h.framesSaved⟩
    show Rests L m.trace m.ahead (arrive L host') ∨ _
    unfold arrive
    split
    · exact Or.inl trivial
    · next hne =>
      rcases h.host hL hpos hle hpatched hstep with hrests | hhalf | hpc
      · exact Or.inl hrests
      · exact Or.inr ⟨host', rfl, hhalf⟩
      · exact absurd hpc hne
  | thunk => exact h.thunk k hL hstep
  | advance pc =>
    obtain ⟨c, pc₀, hpos, -, -, -, rfl⟩ := hstep
    have hpos' := h.pos
    rw [hpos] at hpos'
    rcases hpos' with ⟨hc, hrip, -⟩ | ⟨host', heq, -⟩
    · refine ⟨h.sound, Or.inl ⟨hc, hrip, hok c pc₀ hpos⟩, fun _ _ _ ↦ ?_, h.frames, h.framesSaved⟩
      exact h.saved c pc₀ hpos
    · cases heq
  | derail =>
    obtain ⟨c, pc, host, hpos, hnot, -⟩ := hstep
    have hpos' := h.pos
    rw [hpos] at hpos'
    rcases hpos' with ⟨-, -, hown⟩ | ⟨host', heq, -⟩
    · exact absurd hown hnot
    · cases heq
  | leave p rip => exact h.leave k hstep
  | invalidateRange start stop => exact h.invalidateRange k hok hstep
  | signal actual handler => exact h.signal k hL hok hstep
  | sigreturn rip => exact h.sigreturn k hok hstep

theorem Inv.ripLaw (h : Inv L m) : RipLaw L k m := by
  intro c pc hpos
  have hpos' := h.pos
  rw [hpos] at hpos'
  rcases hpos' with ⟨hc, hrip, -⟩ | ⟨host', heq, -⟩
  · have hroomy := (h.sound.roomy c hc).1
    have hlower := h.sound.recorded.lowerBound hc le_rfl (by omega)
    have hreg : m.rip.toNat = c.rip := by rw [← h.saved c pc hpos, hrip]
    refine ⟨hreg, hrip, h.sound.recorded.guestAddress hlower, fun ρ i core hguest hcore ↦ ?_⟩
    exact branchLaw (hcore.trans (BitVec.eq_of_toNat_eq (hreg.trans hguest.symm)))
  · cases heq

section Runs

variable (L) in
/-- The recompiler after a dispatch that left the tables `r'`. -/
def dispatched (s : Traced) (rip : ℕ) (b : Translation) (r' : Recompiler) : Traced :=
  s.record L (if s.jit.Hit L rip then { s.jit with tables := r' }
    else (s.jit.space L).compiled L b.sequence r') (.dispatch rip b)

/-- A host that has just been sent to an address by the dispatcher. -/
def hostAt (address : ℕ) : HostState := ⟨BitVec.ofNat 64 address, fun _ ↦ 0⟩

theorem step_dispatched {b : Translation} {address : ℕ} {r' : Recompiler}
    (hpos : m.pos = .dispatcher)
    (hcalls : m.fromState = true ∨ InCache L m)
    (hd : m.trace.jit.tables.getCompiledBlock L m.ahead.toNat b.sequence = some (address, r'))
    (haddress : address < 2 ^ 64) :
    Step L k m (.dispatch b) { m with
      trace := dispatched L m.trace m.ahead.toNat b r', pos := .running (hostAt address) } := by
  refine ⟨hpos, hcalls, address, r', hostAt address, _, hd, ⟨_, ⟨address, r', hd, ?_⟩, rfl⟩, ?_,
    rfl, rfl⟩
  · by_cases hhit : m.trace.jit.Hit L m.ahead.toNat
    · exact Or.inl ⟨hhit, if_pos hhit⟩
    · exact Or.inr ⟨hhit, if_neg hhit⟩
  · exact Nat.mod_eq_of_lt haddress

/-- The thread with these tables. -/
def thread (s : Traced) (rip saved : U64) (pos : Position) : RipMachine :=
  ⟨s, rip, saved, false, pos, []⟩

/-- The dispatcher stores the registers, calls `CompileNext` and loads them again. -/
theorem run_dispatched {s : Traced} {rip saved : U64} {b : Translation} {address : ℕ}
    {r' : Recompiler} (hd : s.jit.tables.getCompiledBlock L rip.toNat b.sequence =
      some (address, r'))
    (haddress : address < 2 ^ 64) :
    Run (Step L k) (thread s rip saved .dispatcher) [.writeback, .dispatch b, .restore]
      (thread (dispatched L s rip.toNat b r') rip rip (.running (hostAt address))) :=
  Run.cons ⟨rfl, trivial, rfl⟩ (Run.cons
    (step_dispatched k (m := ⟨s, rip, rip, true, .dispatcher, []⟩) rfl (Or.inl rfl) hd haddress)
    (Run.single ⟨rfl, rfl⟩))

theorem patched_dispatched {s : Traced} {rip : ℕ} {b : Translation} {r' : Recompiler}
    (hspace : ¬codeCacheSize - (s.jit.tables.cursor - L.codeCache) < 100000) :
    (dispatched L s rip b r').jit.patched = s.jit.patched := by
  rw [dispatched, Traced.jit_record]
  split
  · rfl
  · show (s.jit.space L).patched = s.jit.patched
    rw [Jit.space, if_neg hspace]

/-- The host executes an instruction in the buffer that is not at the start of a block. -/
theorem step_host {host host' : HostState} (hloaded : m.fromState = false)
    (hpos : m.pos = .running host)
    (hle : L.startOfCodeCache ≤ host.pc.toNat) (hlt : host.pc.toNat < m.trace.jit.tables.cursor)
    (hfree : ∀ c ∈ m.trace.copies, host.pc.toNat ≠ c.start)
    (hstep : host.step m.trace.jit.tables.code = some host') :
    Step L k m .host { m with pos := arrive L host' } :=
  ⟨hloaded, host, host', hpos, hle, hlt, fun c hc heq ↦ absurd heq (hfree c hc), hstep, rfl⟩

/-- A block leaves through an exit that goes to the dispatcher. -/
theorem run_leave (hL : Emitted L) {c : Copy} {pc : ℕ} (hloaded : m.fromState = false)
    (hpos : m.pos = .inside c pc) (hown : OwnCode m.trace c pc) {p : ℕ × Option ℕ}
    (hp : p ∈ c.exits)
    (hpair : DispatchPair L m.trace.jit.tables.code p.1) (hle : L.startOfCodeCache ≤ p.1)
    (hlt : p.1 + 8 ≤ m.trace.jit.tables.cursor)
    (hcursor : m.trace.jit.tables.cursor ≤ L.codeCache + codeCacheSize)
    (hfree : ∀ c ∈ m.trace.copies, p.1 ≠ c.start ∧ p.1 + 4 ≠ c.start) {rip : U64}
    (hleaves : Leaves L k c p.2 m.rip rip) :
    Run (Step L k) m [.leave p rip, .host, .host] { m with rip := rip, pos := .dispatcher } := by
  have h₂ := hL.codeCache_le
  have h₃ := hL.handler_lt
  have h₄ := L.codeCache_lt
  have hpc : (hostAt p.1).pc.toNat = p.1 := Nat.mod_eq_of_lt (by omega)
  have hsize : codeCacheSize < 2 ^ 30 := by decide
  obtain ⟨host₁, host₂, hfirst, hpc₁, hsecond, hpc₂, -⟩ := step_auipc_jalr (by decide) hpc
    (by omega) (by omega) hL.handler_even ⟨by omega, by omega⟩ hpair.1 hpair.2
  have hleave : Step L k m (.leave p rip) { m with rip := rip, pos := .running (hostAt p.1) } :=
    ⟨hloaded, c, pc, hostAt p.1, hpos, hown, hp, hpc, hleaves, rfl⟩
  have hhost₁ : Step L k { m with rip := rip, pos := .running (hostAt p.1) } .host
      { m with rip := rip, pos := .running host₁ } := by
    have hstep := step_host (L := L) k (m := { m with rip := rip, pos := .running (hostAt p.1) })
      hloaded rfl (by rw [hpc]; exact hle)
      (by rw [hpc]; show p.1 < m.trace.jit.tables.cursor; omega)
      (by rw [hpc]; exact fun c hc ↦ (hfree c hc).1) hfirst
    rwa [show arrive L host₁ = .running host₁ from if_neg (by omega)] at hstep
  have hhost₂ : Step L k { m with rip := rip, pos := .running host₁ } .host
      { m with rip := rip, pos := .dispatcher } := by
    have hstep := step_host (L := L) k (m := { m with rip := rip, pos := .running host₁ })
      hloaded rfl (by rw [hpc₁]; omega)
      (by rw [hpc₁]; show p.1 + 4 < m.trace.jit.tables.cursor; omega)
      (by rw [hpc₁]; exact fun c hc ↦ (hfree c hc).2) hsecond
    rwa [show arrive L host₂ = .dispatcher from if_pos hpc₂] at hstep
  exact Run.cons hleave (Run.cons hhost₁ (Run.single hhost₂))

end Runs

/-- A `jmp` and nothing else. -/
def jumpBlock : Translation := ⟨[⟨0x1FF0, Jit.shortJump.items⟩], 0x1FF2⟩

/-- The block it jumps to. -/
def targetBlock : Translation := ⟨[⟨0x2010, Jit.jumpTarget.items⟩], 0x2012⟩

theorem isSome_dispatch_jump : (Traced.blankTrace.jit.tables.getCompiledBlock sampleLayout 0x1FF0
    jumpBlock.sequence).isSome := by decide

/-- The jump has been compiled. -/
def jumpDispatched : Traced := dispatched sampleLayout Traced.blankTrace 0x1FF0 jumpBlock
  ((Traced.blankTrace.jit.tables.getCompiledBlock sampleLayout 0x1FF0 jumpBlock.sequence).get
    isSome_dispatch_jump).2

theorem isSome_invalidate_jump :
    (jumpDispatched.jit.tables.invalidateRange sampleLayout 0x1000 0x2000).isSome := by
  decide

/-- Its page has been written. -/
def jumpInvalidated : Traced := { jumpDispatched with
  jit := { jumpDispatched.jit with
    tables := (jumpDispatched.jit.tables.invalidateRange sampleLayout 0x1000 0x2000).get
      isSome_invalidate_jump
    patched := jumpDispatched.jit.patched ∪
      {a | ∃ rip ∈ jumpDispatched.jit.tables.handed 0x1000 0x2000,
        a = (jumpDispatched.jit.tables.blockMetadata rip).address} } }

theorem isSome_dispatch_target : (jumpInvalidated.jit.tables.getCompiledBlock sampleLayout 0x2010
    targetBlock.sequence).isSome := by decide

/-- The block it jumps to has been compiled, which fills in the link. -/
def targetDispatched : Traced := dispatched sampleLayout jumpInvalidated 0x2010 targetBlock
  ((jumpInvalidated.jit.tables.getCompiledBlock sampleLayout 0x2010 targetBlock.sequence).get
    isSome_dispatch_target).2

theorem isSome_dispatch_again : (targetDispatched.jit.tables.getCompiledBlock sampleLayout 0x1FF0
    jumpBlock.sequence).isSome := by decide

/-- The address of the jump has been looked up again. -/
def jumpFound : Traced := dispatched sampleLayout targetDispatched 0x1FF0 jumpBlock
  ((targetDispatched.jit.tables.getCompiledBlock sampleLayout 0x1FF0 jumpBlock.sequence).get
    isSome_dispatch_again).2

def jumpCopy : Copy := ⟨0x1FF0, 0x10000400, 0x1000040C, jumpBlock.insns⟩

def targetCopy : Copy := ⟨0x2010, 0x1000040C, 0x10000418, targetBlock.insns⟩

theorem jumpDispatched_spec :
    ((Traced.blankTrace.jit.tables.getCompiledBlock sampleLayout 0x1FF0 jumpBlock.sequence).get
      isSome_dispatch_jump).1 = 0x10000400 ∧
    jumpDispatched.copies = [jumpCopy] ∧ jumpDispatched.jit.tables.cursor = 0x1000040C ∧
    jumpDispatched.jit.tables.handed 0x1000 0x2000 = [0x1FF0] ∧
    (jumpDispatched.jit.tables.blockMetadata 0x1FF0).address = 0x10000400 ∧
    jumpDispatched.jit.tables.code 0x10000404 =
      .auipc .t6 (hi20 (offsetTo 0x10000100 0x10000404)) ∧
    jumpDispatched.jit.tables.code 0x10000408 =
      .jalr .x0 (lo12 (offsetTo 0x10000100 0x10000404)) .t6 := by decide

theorem targetDispatched_spec :
    ((jumpInvalidated.jit.tables.getCompiledBlock sampleLayout 0x2010 targetBlock.sequence).get
      isSome_dispatch_target).1 = 0x1000040C ∧
    jumpInvalidated.jit.tables.cursor = 0x1000040C ∧
    targetDispatched.copies = [jumpCopy, targetCopy] ∧
    targetDispatched.jit.tables.cursor = 0x10000418 ∧
    targetDispatched.jit.tables.code 0x10000410 =
      .auipc .t6 (hi20 (offsetTo 0x10000100 0x10000410)) ∧
    targetDispatched.jit.tables.code 0x10000414 =
      .jalr .x0 (lo12 (offsetTo 0x10000100 0x10000410)) .t6 := by decide

/-- The start of the jump is half of a pair, and then the link. -/
theorem jumpFound_spec :
    ((targetDispatched.jit.tables.getCompiledBlock sampleLayout 0x1FF0 jumpBlock.sequence).get
      isSome_dispatch_again).1 = 0x10000400 ∧
    jumpFound.copies = [jumpCopy, targetCopy] ∧ jumpFound.jit.tables.cursor = 0x10000418 ∧
    jumpFound.jit.tables.code 0x10000400 =
      .auipc .t4 (hi20 (offsetTo 0x10000200 0x10000400)) ∧
    jumpFound.jit.tables.code 0x10000404 = .nop ∧
    jumpFound.jit.tables.code 0x10000408 = .jal .t5 4 := by decide

/-- The `jmp`, two bytes long. -/
def jumpInsn : Insn where
  guestAddress := 0x1FF0
  rip := 0x1FF0
  length := 2
  width := .byte
  addressWidth := .qword
  lock := false
  hasSegment := false
  rep := .none
  op0 := .imm 0x1E .byte
  op1 := .imm 0 .byte
  op2 := .imm 0 .byte

theorem emitted_sampleLayout : Emitted sampleLayout where
  codeCache_le := by decide
  handler_lt := by decide
  handler_even := by decide
  start_even := by decide

variable (k : Config)

theorem run_dispatch_jump : Run (Step sampleLayout k)
    (thread Traced.blankTrace 0x1FF0 0x1FF0 .dispatcher) [.writeback, .dispatch jumpBlock, .restore]
    (thread jumpDispatched 0x1FF0 0x1FF0 (.running (hostAt 0x10000400))) := by
  refine run_dispatched k (s := Traced.blankTrace) ?_ (by decide)
  rw [← jumpDispatched_spec.1]
  exact (Option.some_get isSome_dispatch_jump).symm

theorem patched_jumpDispatched : jumpDispatched.jit.patched = ∅ :=
  patched_dispatched (by decide)

theorem step_enter_jump : Step sampleLayout k
    (thread jumpDispatched 0x1FF0 0x1FF0 (.running (hostAt 0x10000400))) (.enter jumpCopy)
    (thread jumpDispatched 0x1FF0 0x1FF0 (.inside jumpCopy 0x10000400)) := by
  refine ⟨rfl, hostAt 0x10000400, rfl, ?_, by decide, ?_, rfl⟩
  · show jumpCopy ∈ jumpDispatched.copies
    rw [jumpDispatched_spec.2.1]
    exact List.mem_singleton_self _
  · show _ ∉ jumpDispatched.jit.patched
    rw [patched_jumpDispatched]
    exact Set.notMem_empty _

/-- The jump leaves through its link, which leads to the dispatcher. -/
theorem run_leave_jump : Run (Step sampleLayout k)
    (thread jumpDispatched 0x1FF0 0x1FF0 (.inside jumpCopy 0x10000400))
    [.leave (0x10000404, some 0x2010) 0x2010, .host, .host]
    (thread jumpDispatched 0x2010 0x1FF0 .dispatcher) := by
  have hown : OwnCode jumpDispatched jumpCopy 0x10000400 := by
    rw [OwnCode, patched_jumpDispatched]
    exact fun h ↦ absurd h (Set.notMem_empty _)
  obtain ⟨-, hcopies, hcursor, -, -, hpair⟩ := jumpDispatched_spec
  refine run_leave k emitted_sampleLayout (m := thread jumpDispatched 0x1FF0 0x1FF0
    (.inside jumpCopy 0x10000400)) (p := (0x10000404, some 0x2010)) rfl rfl hown (by decide) hpair
    (by decide) ?_ ?_ ?_ ?_
  · show 0x10000404 + 8 ≤ jumpDispatched.jit.tables.cursor
    omega
  · show jumpDispatched.jit.tables.cursor ≤ _
    rw [hcursor]
    decide
  · show ∀ c ∈ jumpDispatched.copies, _
    rw [hcopies]
    decide
  · rintro target ⟨⟩
    exact ⟨jumpInsn, 0x1E, rfl, rfl, rfl⟩

theorem step_invalidate_jump : Step sampleLayout k (thread jumpDispatched 0x2010 0x1FF0 .dispatcher)
    (.invalidateRange 0x1000 0x2000) (thread jumpInvalidated 0x2010 0x1FF0 .dispatcher) :=
  ⟨_, ⟨_, ⟨_, (Option.some_get isSome_invalidate_jump).symm, rfl⟩, rfl⟩, rfl⟩

theorem run_dispatch_target : Run (Step sampleLayout k)
    (thread jumpInvalidated 0x2010 0x1FF0 .dispatcher) [.writeback, .dispatch targetBlock, .restore]
    (thread targetDispatched 0x2010 0x2010 (.running (hostAt 0x1000040C))) := by
  refine run_dispatched k (s := jumpInvalidated) ?_ (by decide)
  rw [← targetDispatched_spec.1]
  exact (Option.some_get isSome_dispatch_target).symm

theorem patched_jumpInvalidated : jumpInvalidated.jit.patched = {0x10000400} := by
  obtain ⟨-, -, -, hhanded, haddress, -⟩ := jumpDispatched_spec
  show jumpDispatched.jit.patched ∪ _ = _
  rw [patched_jumpDispatched, hhanded]
  ext a
  simp [haddress]

theorem patched_targetDispatched : targetDispatched.jit.patched = {0x10000400} := by
  rw [targetDispatched, patched_dispatched, patched_jumpInvalidated]
  rw [targetDispatched_spec.2.1]
  decide

theorem step_enter_target : Step sampleLayout k
    (thread targetDispatched 0x2010 0x2010 (.running (hostAt 0x1000040C))) (.enter targetCopy)
    (thread targetDispatched 0x2010 0x2010 (.inside targetCopy 0x1000040C)) := by
  refine ⟨rfl, hostAt 0x1000040C, rfl, ?_, by decide, ?_, rfl⟩
  · show targetCopy ∈ targetDispatched.copies
    rw [targetDispatched_spec.2.2.1]
    decide
  · show targetCopy.start ∉ targetDispatched.jit.patched
    rw [patched_targetDispatched]
    decide

/-- The other block returns to the jump. -/
theorem run_leave_target : Run (Step sampleLayout k)
    (thread targetDispatched 0x2010 0x2010 (.inside targetCopy 0x1000040C))
    [.leave (0x10000410, none) 0x1FF0, .host, .host]
    (thread targetDispatched 0x1FF0 0x2010 .dispatcher) := by
  have hown : OwnCode targetDispatched targetCopy 0x1000040C := by
    rw [OwnCode, patched_targetDispatched]
    exact fun h ↦ absurd h (by decide)
  obtain ⟨-, -, hcopies, hcursor, hpair⟩ := targetDispatched_spec
  refine run_leave k emitted_sampleLayout (m := thread targetDispatched 0x2010 0x2010
    (.inside targetCopy 0x1000040C)) (p := (0x10000410, none)) rfl rfl hown (by decide) hpair
    (by decide) ?_ ?_ ?_ ?_
  · show 0x10000410 + 8 ≤ targetDispatched.jit.tables.cursor
    omega
  · show targetDispatched.jit.tables.cursor ≤ _
    rw [hcursor]
    decide
  · show ∀ c ∈ targetDispatched.copies, _
    rw [hcopies]
    decide
  · rintro target ⟨⟩

/-- The address of the jump is still in the address cache. -/
theorem inCache_again : InCache sampleLayout (thread targetDispatched 0x1FF0 0x2010 .dispatcher) :=
  ⟨by decide, by decide⟩

theorem step_dispatch_again : Step sampleLayout k
    (thread targetDispatched 0x1FF0 0x2010 .dispatcher) (.dispatch jumpBlock)
    (thread jumpFound 0x1FF0 0x2010 (.running (hostAt 0x10000400))) := by
  refine step_dispatched k (m := thread targetDispatched 0x1FF0 0x2010 .dispatcher) rfl
    (Or.inr inCache_again) ?_ (by decide)
  rw [← jumpFound_spec.1]
  exact (Option.some_get isSome_dispatch_again).symm

theorem patched_jumpFound : jumpFound.jit.patched = {0x10000400} := by
  rw [jumpFound, patched_dispatched, patched_targetDispatched]
  rw [targetDispatched_spec.2.2.2.1]
  decide

/-- An instruction at the patched start, or what follows it. -/
theorem step_found {host host' : HostState} {insn : HostInsn} {pc : ℕ} (hpc : host.pc.toNat = pc)
    (hle : 0x10000400 ≤ pc) (hlt : pc < 0x1000040C) (hcode : jumpFound.jit.tables.code pc = insn)
    (hexec : insn.exec host = some host') (hpc' : host'.pc.toNat ≠ 0x10000100) :
    Step sampleLayout k (thread jumpFound 0x1FF0 0x2010 (.running host)) .host
      (thread jumpFound 0x1FF0 0x2010 (.running host')) := by
  refine ⟨rfl, host, host', rfl, ?_, ?_, ?_, ?_, ?_⟩
  · rwa [hpc]
  · have hcursor := jumpFound_spec.2.2.1
    show host.pc.toNat < jumpFound.jit.tables.cursor
    omega
  · show ∀ c ∈ jumpFound.copies, _ → c.start ∈ jumpFound.jit.patched
    rw [jumpFound_spec.2.1, patched_jumpFound]
    simp only [List.mem_cons, List.not_mem_nil, or_false, forall_eq_or_imp, forall_eq, jumpCopy,
      targetCopy]
    exact ⟨fun _ ↦ rfl, fun heq ↦ absurd heq (by omega)⟩
  · show (jumpFound.jit.tables.code host.pc.toNat).exec host = some host'
    rw [hpc, hcode, hexec]
  · have harrive : arrive sampleLayout host' = .running host' := if_neg hpc'
    rw [harrive]
    rfl

/-- The host falls from the patched start through the link into the other block. -/
theorem run_fall : ∃ host, host.pc.toNat = 0x1000040C ∧ Run (Step sampleLayout k)
    (thread jumpFound 0x1FF0 0x2010 (.running (hostAt 0x10000400))) [.host, .host, .host]
    (thread jumpFound 0x1FF0 0x2010 (.running host)) := by
  obtain ⟨-, -, -, hfirst, hsecond, hthird⟩ := jumpFound_spec
  refine ⟨_, ?_, Run.cons (step_found k rfl (by decide) (by decide) hfirst rfl (by decide))
    (Run.cons (step_found k rfl (by decide) (by decide) hsecond rfl (by decide))
      (Run.single (step_found k rfl (by decide) (by decide) hthird rfl (by decide))))⟩
  decide

/-- The dispatcher is entered with the address in `ThreadState`. -/
theorem step_restore_initial (entrypoint : U64) : Step sampleLayout k
    (initial sampleLayout (fun _ ↦ .nop) entrypoint) .restore
    (thread Traced.blankTrace entrypoint entrypoint .dispatcher) := ⟨rfl, rfl⟩

theorem exists_run_shortJump : ∃ labels, Run (Step sampleLayout k)
    (initial sampleLayout (fun _ ↦ .nop) 0x1FF0) labels
    (thread jumpFound 0x1FF0 0x2010 (.inside targetCopy 0x1000040C)) := by
  obtain ⟨host, hpc, hfall⟩ := run_fall k
  have henter : Step sampleLayout k (thread jumpFound 0x1FF0 0x2010 (.running host))
      (.enter targetCopy) (thread jumpFound 0x1FF0 0x2010 (.inside targetCopy 0x1000040C)) := by
    refine ⟨rfl, host, rfl, ?_, hpc, ?_, rfl⟩
    · show targetCopy ∈ jumpFound.copies
      rw [jumpFound_spec.2.1]
      decide
    · show targetCopy.start ∉ jumpFound.jit.patched
      rw [patched_jumpFound]
      decide
  have hfirst : Run (Step sampleLayout k) (initial sampleLayout (fun _ ↦ .nop) 0x1FF0) _
      (thread jumpDispatched 0x2010 0x1FF0 .dispatcher) :=
    Run.cons (step_restore_initial k 0x1FF0)
      ((run_dispatch_jump k).trans (Run.cons (step_enter_jump k) (run_leave_jump k)))
  have hsecond : Run (Step sampleLayout k) (thread jumpDispatched 0x2010 0x1FF0 .dispatcher) _
      (thread targetDispatched 0x1FF0 0x2010 .dispatcher) :=
    Run.cons (step_invalidate_jump k) ((run_dispatch_target k).trans
      (Run.cons (step_enter_target k) (run_leave_target k)))
  have hthird : Run (Step sampleLayout k) (thread targetDispatched 0x1FF0 0x2010 .dispatcher) _
      (thread jumpFound 0x1FF0 0x2010 (.inside targetCopy 0x1000040C)) :=
    Run.cons (step_dispatch_again k) (hfall.snoc henter)
  exact ⟨_, hfirst.trans (hsecond.trans hthird)⟩

theorem isSome_dispatch_twoInsns : (Traced.blankTrace.jit.tables.getCompiledBlock sampleLayout
    0x1000 Traced.twoInsns.sequence).isSome := by decide

def twoInsnsDispatched : Traced := dispatched sampleLayout Traced.blankTrace 0x1000 Traced.twoInsns
  ((Traced.blankTrace.jit.tables.getCompiledBlock sampleLayout 0x1000
    Traced.twoInsns.sequence).get isSome_dispatch_twoInsns).2

theorem twoInsnsDispatched_spec :
    ((Traced.blankTrace.jit.tables.getCompiledBlock sampleLayout 0x1000
      Traced.twoInsns.sequence).get isSome_dispatch_twoInsns).1 = 0x10000400 ∧
    Traced.firstCopy ∈ twoInsnsDispatched.copies := by decide

theorem unpatched_twoInsns : Traced.firstCopy.start ∉ twoInsnsDispatched.jit.patched := by
  rw [twoInsnsDispatched, patched_dispatched (by decide)]
  exact Set.notMem_empty _

/-- The dispatcher before it calls `CompileNext`, and after it. -/
theorem step_dispatch_twoInsns :
    Guarded (Ok sampleLayout) (Step sampleLayout (Config.default false))
    (initial sampleLayout (fun _ ↦ .nop) 0x1000) (.dispatch Traced.twoInsns)
    ⟨twoInsnsDispatched, 0, 0x1000, true, .running (hostAt 0x10000400), []⟩ := by
  refine ⟨⟨fun hmode ↦ absurd hmode (by decide), fun _ ↦ ⟨⟨by decide, by decide⟩,
    fun _ f hf ↦ absurd hf List.not_mem_nil⟩⟩, ?_⟩
  refine step_dispatched _ (m := initial sampleLayout (fun _ ↦ .nop) 0x1000) rfl (Or.inl rfl) ?_
    (by decide)
  rw [← twoInsnsDispatched_spec.1]
  exact (Option.some_get isSome_dispatch_twoInsns).symm

theorem step_enter_twoInsns : Step sampleLayout (Config.default false)
    (thread twoInsnsDispatched 0x1000 0x1000 (.running (hostAt 0x10000400)))
    (.enter Traced.firstCopy)
    (thread twoInsnsDispatched 0x1000 0x1000 (.inside Traced.firstCopy 0x10000400)) :=
  ⟨rfl, hostAt 0x10000400, rfl, twoInsnsDispatched_spec.2, by decide, unpatched_twoInsns, rfl⟩

/-- The block has called a function. -/
def twoInsnsCalling : RipMachine :=
  ⟨twoInsnsDispatched, 0x1000, 0x1000, true, .inside Traced.firstCopy 0x10000400, []⟩

theorem step_call_twoInsns : Step sampleLayout (Config.default false)
    (thread twoInsnsDispatched 0x1000 0x1000 (.inside Traced.firstCopy 0x10000400)) .writeback
    twoInsnsCalling := ⟨rfl, fun hp ↦ absurd hp unpatched_twoInsns, rfl⟩

/-- A signal arrives in the function, with a handler at 0x4000. -/
def twoInsnsHandling : RipMachine := ⟨twoInsnsDispatched, 0x1000, 0x4000, true, .dispatcher,
  [⟨.inside Traced.firstCopy 0x10000400, 0x1000, true, false, 0x1000⟩]⟩

theorem step_signal_twoInsns : Guarded (Ok sampleLayout)
    (Step sampleLayout (Config.default false)) twoInsnsCalling (.signal none 0x4000)
    twoInsnsHandling := by
  refine ⟨⟨?_, fun _ rip hactual ↦ by cases hactual⟩, rfl, Or.inl rfl, rfl⟩
  rintro ⟨host, hpos, -⟩
  cases hpos

theorem step_sigreturn_twoInsns : Guarded (Ok sampleLayout)
    (Step sampleLayout (Config.default false)) twoInsnsHandling (.sigreturn 0x1000)
    twoInsnsCalling := by
  refine ⟨fun f rest hframes _ _ ↦ ?_, _, [], rfl, rfl⟩
  obtain ⟨rfl, -⟩ := List.cons.inj hframes
  rfl

end RipMachine

end Felix86
