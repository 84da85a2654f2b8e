import Felix86.Lib.Loops
import Felix86.Lib.Numerals
import Felix86.V2.AddSubLogic
import Felix86.V2.EffectiveAddress

/-!
# String instructions, element by element

The handlers of `MOVS`, `CMPS`, `SCAS`, `LODS` and `STOS` take the pointers and the counter out of
the guest's registers, loop over them in host registers and put them back at the end. The manual has
a step for each element, which moves the registers themselves, and after which the instruction can
be interrupted. Here the loop is compared with these steps.

They agree as long as the pointers stay inside the address size while the loop goes on: it adds 64
bits wide. In what is put back there is one difference. A doubleword clears the upper half of a
register, and the handlers put back what the steps have not touched: the counter without a prefix,
and everything if the counter is zero.

Not every handler gets as far as that. In 64-bit mode a 32-bit address takes a scratch register for
each pointer and for the counter, and a comparison then needs more of them than there are; `LODS`
refuses a prefix. Both are assertions of the recompiler (`Strings.Stops`).

## The shape of the argument

`Strings.put` is the guest's state for the host registers of the loop. A round of the loop and a
step lead to states that correspond again, and the states of the whole loop by `Until.simulation`.
The first step is the same from the guest's state as from what `put` makes of it, since it
overwrites every register in which the two differ. The scratch registers are those of
`Strings.registers`, what the handlers ask for without the code in between, and are counted with the
rules of `EffectiveAddress.Costs`.
-/

namespace Felix86

namespace Jit

open Numerals Riscv X86

inductive StringOp
  | movs
  | cmps
  | scas
  | lods
  | stos
deriving DecidableEq, Repr

namespace StringOp

def mnemonic {ρ : Type*} : StringOp → Mnemonic ρ
  | movs => .movs
  | cmps => .cmps
  | scas => .scas
  | lods => .lods
  | stos => .stos

/-- There is an element at `RSI`. -/
def source : StringOp → Bool
  | movs => true
  | cmps => true
  | lods => true
  | _ => false

/-- There is an element at `RDI`. -/
def dest : StringOp → Bool
  | lods => false
  | _ => true

def compares : StringOp → Bool
  | cmps => true
  | scas => true
  | _ => false

/-- The segment of the element at `RSI`, the only one that a prefix can change. -/
def segment (op : StringOp) (i : Insn) : Seg :=
  match if op = cmps then i.op0 else i.op1 with
  | .mem m _ => m.segment
  | _ => .ds

end StringOp

/-! ## The steps of the manual -/

namespace Strings

variable {ρ : Type*} (k : Config) (i : Insn) (op : StringOp)

/-- A register as the address size sees it. -/
def pointer (r : Ref) (c : Core ρ) : U64 := (readPart i.addressWidth (c.gpr r)).setWidth 64

/-- In 64-bit mode only `FS` and `GS` have a base. -/
def segmentBase (seg : Seg) (c : Core ρ) : U64 :=
  if k.mode32 ∨ seg = .fs ∨ seg = .gs then c.base seg else 0

def linear (seg : Seg) (r : Ref) (c : Core ρ) : U64 :=
  let a := segmentBase k seg c + pointer i r c
  if k.mode32 then zextw a else a

/-- How far the pointers move, by the direction flag. -/
def stride (c : Core ρ) : ℤ := if c.df = 0 then i.width.bytes else -i.width.bytes

/-- A pointer or the counter is moved, in the address size. -/
def moveBy (r : Ref) (d : ℤ) (c : Core ρ) : Core ρ :=
  c.write r (writePart i.addressWidth (c.gpr r)
    (readPart i.addressWidth (c.gpr r) + BitVec.ofInt i.addressWidth.bits d))

def advance (c : Core ρ) : Core ρ :=
  let d := stride i c
  let c := if op.source then moveBy i rsi d c else c
  if op.dest then moveBy i rdi d c else c

/-- The flags after an outcome that leaves none undefined. -/
def assignFlags (flags : X86.Flags) (s : State ρ) : State ρ :=
  { s with flag := fun f ↦
      match Flags.get flags f with
      | .set b => asFlag b
      | _ => s.flag f }

/-- What is done with the element, before the pointers move. -/
def transfer (s : State ρ) : State ρ :=
  let c := s.core
  let atSource := c.mem.load (linear k i (op.segment i) rsi c) i.width.bytes
  let atDest := c.mem.load (linear k i .es rdi c) i.width.bytes
  let store (v : U64) : State ρ :=
    s.map fun c ↦ { c with mem := c.mem.store (linear k i .es rdi c) v i.width.bytes }
  match op with
  | .movs => store atSource
  | .stos => store ((readPart i.width (c.gpr rax)).setWidth 64)
  | .lods => s.map fun c ↦ c.write rax (writePart i.width (c.gpr rax) (atSource.setWidth _))
  | .cmps =>
    assignFlags (X86.cmp (atSource.setWidth i.width.bits) (atDest.setWidth i.width.bits)).flags s
  | .scas =>
    assignFlags (X86.cmp (readPart i.width (c.gpr rax)) (atDest.setWidth i.width.bits)).flags s

def element (s : State ρ) : State ρ := (transfer k i op s).map (advance i op)

/-- An element under a prefix. -/
def round (s : State ρ) : State ρ := (element k i op s).map (moveBy i rcx (-1))

/-- The prefix asks for another element. -/
def GoesOn (s : State ρ) : Prop :=
  pointer i rcx s.core ≠ 0 ∧ (op.compares → (s.flag .zf = 1 ↔ i.rep = .repz))

/-- What the instruction does. -/
def Performs (s s' : State ρ) : Prop :=
  if i.rep = .none then s' = element k i op s
  else if pointer i rcx s.core = 0 then s' = s
  else Until (round k i op) (GoesOn i op) s s'

/-! ## What can go wrong -/

/-- The pointers do not leave the address size. -/
def Inside (c : Core ρ) : Prop :=
  i.addressWidth ≠ .qword → ∀ r, op.source ∧ r = rsi ∨ op.dest ∧ r = rdi →
    0 ≤ (pointer i r c).toNat + stride i c ∧
      (pointer i r c).toNat + stride i c < 2 ^ i.addressWidth.bits

/-- While the instruction goes on. -/
def Stays (s : State ρ) : Prop :=
  i.rep ≠ .none → ∀ t, Visited (round k i op) (GoesOn i op) s t → GoesOn i op (round k i op t) →
    Inside i op t.core

/-- Registers that are put back without having been moved have no upper half. -/
def Cleared (c : Core ρ) : Prop :=
  i.addressWidth = .dword →
    (i.rep = .none → op ≠ .lods → Low32 (c.gpr rcx)) ∧
    (i.rep ≠ .none → pointer i rcx c = 0 →
      Low32 (c.gpr rcx) ∧ Low32 (c.gpr rdi) ∧ (op.source → Low32 (c.gpr rsi)))

/-- An assertion stops the recompiler: that `LODS` has no prefix, or that there is another scratch
register. -/
def Stops : Prop :=
  op = .lods ∧ i.rep ≠ .none ∨
    ¬k.mode32 ∧ i.addressWidth = .dword ∧ (op = .cmps ∨ op = .scas ∧ i.width ≠ .qword)

instance : Decidable (Stops k i op) := inferInstanceAs (Decidable (_ ∨ _))

/-- What the handler is called with: an address size of the mode, and segments that start at zero,
which the handlers take for granted. -/
structure Called (c : Core ρ) : Prop where
  width : i.addressWidth = .dword ∨ ¬k.mode32 ∧ i.addressWidth = .qword
  zext : k.mode32 → Zext c
  source : op.source → segmentBase k (op.segment i) c = 0
  dest : op.dest → segmentBase k .es c = 0

end Strings

/-! ## The loop of the handlers -/

section Loop

variable {α β : Type*}

/-- Two loops on different data. -/
theorem repLoop_map {body : α → α} {again : α → Bool} {body' : β → β} {again' : β → Bool}
    {f : α → β}
    (hbody : ∀ x, f (body x) = body' (f x)) (hagain : ∀ x, again x = again' (f x)) (n : ℕ) (x : α) :
    f (repLoop body again n x) = repLoop body' again' n (f x) := by
  induction n generalizing x with
  | zero => rfl
  | succ n ih =>
    rw [repLoop, repLoop, ← hbody, ← hagain]
    split
    · exact ih _
    · rfl

theorem stringRun_map (i : Insn) {body count : α → α} {again : α → Bool} {body' count' : β → β}
    {again' : β → Bool} {f : α → β} (hbody : ∀ x, f (body x) = body' (f x))
    (hcount : ∀ x, f (count x) = count' (f x)) (hagain : ∀ x, again x = again' (f x))
    (n : U64) (x : α) :
    f (stringRun i body count again n x) = stringRun i body' count' again' n (f x) := by
  rw [stringRun, stringRun]
  split
  · exact hbody x
  · split
    · rfl
    · exact repLoop_map (fun y ↦ by rw [hcount, hbody]) hagain _ _

/-- The rounds that the counter leaves are enough. -/
theorem until_repLoop {body : α → α} {again : α → Bool} (variant : α → ℕ)
    (h : ∀ x, variant x ≠ 0 → again (body x) → variant (body x) ≠ 0 ∧
      variant (body x) + 1 = variant x)
    {n : ℕ} {x : α} (hx : variant x = n + 1) :
    Until body (again · = true) x (repLoop body again (n + 1) x) := by
  induction n generalizing x with
  | zero =>
    have hstop : ¬again (body x) := fun hagain ↦ by
      have := h x (by omega) hagain
      omega
    rw [repLoop, if_neg hstop]
    exact .stop hstop
  | succ n ih =>
    rw [repLoop]
    split
    · next hagain =>
      obtain ⟨-, hlt⟩ := h x (by omega) hagain
      exact .next hagain (ih (by omega))
    · next hagain => exact .stop hagain

end Loop

namespace Strings

variable {ρ : Type*} (k : Config) (e : Flag → Bool) (i : Insn) (op : StringOp)

/-- What a loop changes. -/
structure Loop where
  regs : StringRegs
  mem : Mem
  flag : Flag → U64

def Loop.count (x : Loop) : Loop := { x with regs := x.regs.decrement }

/-- The pointers after a round, in 64 bits. -/
def moveRegs (c : Core ρ) (r : StringRegs) : StringRegs where
  rdi := r.rdi + stringStep i c
  rsi := if op.source then r.rsi + stringStep i c else r.rsi
  rcx := r.rcx

/-- A round of the handlers that have a loop. -/
def loopBody (c : Core ρ) (x : Loop) : Loop :=
  let n := i.width.bytes
  let compare (lhs rhs : U64) : Flag → U64 :=
    let s : State ρ := ⟨c, x.flag⟩
    (setCmpFlags k e lhs rhs (lhs - rhs) i.width false (i.rep ≠ .none) s).flag
  match op with
  | .movs => ⟨moveRegs i op c x.regs, x.mem.store x.regs.rdi (x.mem.load x.regs.rsi n) n, x.flag⟩
  | .stos => ⟨moveRegs i op c x.regs, x.mem.store x.regs.rdi (k.getRef rax i.width c) n, x.flag⟩
  | .cmps =>
    ⟨moveRegs i op c x.regs, x.mem, compare (x.mem.load x.regs.rsi n) (x.mem.load x.regs.rdi n)⟩
  | .scas =>
    ⟨moveRegs i op c x.regs, x.mem, compare (k.getRef rax i.width c) (x.mem.load x.regs.rdi n)⟩
  | .lods => x

def loopAgain (x : Loop) : Bool :=
  if op.compares then compareAgain i (x.regs, x.flag) else x.regs.rcx ≠ 0

def loop (c : Core ρ) (x : Loop) : Loop :=
  stringRun i (loopBody k e i op c) Loop.count (loopAgain i op) x.regs.rcx x

/-- The registers and the memory that the handlers leave. -/
def put (c : Core ρ) (x : Loop) : State ρ where
  core :=
    let c' := k.setRef rdi i.addressWidth x.regs.rdi { c with mem := x.mem }
    k.setRef rcx i.addressWidth x.regs.rcx
      (if op.source then k.setRef rsi i.addressWidth x.regs.rsi c' else c')
  flag := x.flag

def start (s : State ρ) : Loop := ⟨stringRegs k i s.core, s.core.mem, s.flag⟩

/-- The four handlers with a loop are one. -/
theorem exec_eq_put (hop : op ≠ .lods) (s : State ρ) : Instr.exec k e ⟨op.mnemonic, i⟩ s =
    some (put k i op s.core (loop k e i op s.core (start k i s))) := by
  have hmem (body : StringRegs × Mem → StringRegs × Mem)
      (hbody : ∀ x, (⟨(body x).1, (body x).2, s.flag⟩ : Loop) =
        loopBody k e i op s.core ⟨x.1, x.2, s.flag⟩)
      (hcompares : op.compares = false) :
      let x := stringRun i body (fun x ↦ (x.1.decrement, x.2)) (fun x ↦ x.1.rcx ≠ 0)
        (stringRegs k i s.core).rcx (stringRegs k i s.core, s.core.mem)
      (⟨x.1, x.2, s.flag⟩ : Loop) = loop k e i op s.core (start k i s) :=
    stringRun_map (f := fun x : StringRegs × Mem ↦ (⟨x.1, x.2, s.flag⟩ : Loop)) i
      hbody (fun _ ↦ rfl)
      (fun x ↦ by simp [loopAgain, hcompares]) _ _
  have hflag (body : StringRegs → U64 × U64 × StringRegs) (hbody : ∀ r flag,
      (⟨(body r).2.2, s.core.mem,
        (setCmpFlags k e (body r).1 (body r).2.1 ((body r).1 - (body r).2.1)
        i.width false (i.rep ≠ .none) (⟨s.core, flag⟩ : State ρ)).flag⟩ : Loop) =
        loopBody k e i op s.core ⟨r, s.core.mem, flag⟩) (hcompares : op.compares = true) :
      let x := compareRun k i e body s
      (⟨x.1, s.core.mem, x.2⟩ : Loop) = loop k e i op s.core (start k i s) :=
    stringRun_map (f := fun x : StringRegs × (Flag → U64) ↦ (⟨x.1, s.core.mem, x.2⟩ : Loop)) i
      (fun x ↦ hbody x.1 x.2) (fun _ ↦ rfl)
      (fun x ↦ by simp [loopAgain, hcompares]) _ _
  cases op with
  | movs =>
    rw [← hmem (fun x ↦ (moveRegs i .movs s.core x.1,
      x.2.store x.1.rdi (x.2.load x.1.rsi i.width.bytes) i.width.bytes)) (fun _ ↦ rfl) rfl]
    rfl
  | stos =>
    rw [← hmem (fun x ↦ (moveRegs i .stos s.core x.1,
      x.2.store x.1.rdi (k.getRef rax i.width s.core) i.width.bytes)) (fun _ ↦ rfl) rfl]
    rfl
  | cmps =>
    rw [← hflag (fun r ↦ (s.core.mem.load r.rsi i.width.bytes, s.core.mem.load r.rdi i.width.bytes,
      moveRegs i .cmps s.core r)) (fun _ _ ↦ rfl) rfl]
    rfl
  | scas =>
    rw [← hflag (fun r ↦ (k.getRef rax i.width s.core, s.core.mem.load r.rdi i.width.bytes,
      moveRegs i .scas s.core r)) (fun _ _ ↦ rfl) rfl]
    rfl
  | lods => exact absurd rfl hop

end Strings

/-! ## The scratch registers of the handlers -/

namespace Strings

open EffectiveAddress (Emit emitPart)

section Registers

variable (k : Config) (e : Flag → Bool) (i : Insn) (op : StringOp)

def scratch : Emit SubRegisters.Reg := emitPart SubRegisters.scratch

/-- A scratch register that is given back after `m`. -/
def withScratch (m : Emit Unit) : Emit Unit := do
  let _ ← scratch
  m
  emitPart SubRegisters.popScratch

def getGPR (r : Ref) (size : Size) : Emit SubRegisters.Reg :=
  emitPart (SubRegisters.getGPR k (.gpr r) size)

def setGPR (r : Ref) (size : Size) (reg : SubRegisters.Reg) : Emit Unit :=
  emitPart (SubRegisters.setGPR k (.gpr r) size reg)

/-- The scratch registers of `updateParity`. -/
def updateParity : Emit Unit := withScratch (if k.b then pure () else withScratch (pure ()))

/-- The scratch registers of `updateAuxiliarySub`. -/
def updateAuxiliarySub : Emit Unit := withScratch (withScratch (pure ()))

/-- The scratch register of `updateOverflowSub`. -/
def updateOverflowSub : Emit Unit := withScratch (pure ())

def emitIf (p : Bool) (m : Emit Unit) : Emit Unit := if p then m else pure ()

/-- `SetCmpFlags`. The other flags take no scratch register. -/
def compareRegisters (alwaysEmit : Bool) : Emit Unit := do
  emitIf (alwaysEmit || e .cf) (withScratch (pure ()))
  emitIf (alwaysEmit || e .pf) (updateParity k)
  emitIf (alwaysEmit || e .af) updateAuxiliarySub
  emitIf (alwaysEmit || e .of) updateOverflowSub

/-- The handlers, without the code that they emit between the calls. -/
def registers : Emit Unit := do
  emitPart (SubRegisters.check (16 < i.addressWidth.bits))
  match op with
  | .movs =>
    let rdi ← getGPR k Jit.rdi i.addressWidth
    let rsi ← getGPR k Jit.rsi i.addressWidth
    let rcx ← getGPR k Jit.rcx i.addressWidth
    let _temp ← scratch
    let _data ← scratch
    let _df ← scratch
    setGPR k Jit.rdi i.addressWidth rdi
    setGPR k Jit.rsi i.addressWidth rsi
    setGPR k Jit.rcx i.addressWidth rcx
  | .cmps =>
    let rdi ← getGPR k Jit.rdi i.addressWidth
    let rsi ← getGPR k Jit.rsi i.addressWidth
    let rcx ← getGPR k Jit.rcx i.addressWidth
    let _temp ← scratch
    let _src1 ← scratch
    let _src2 ← scratch
    let _result ← scratch
    -- the direction flag
    withScratch (pure ())
    compareRegisters k e (i.rep ≠ .none)
    setGPR k Jit.rdi i.addressWidth rdi
    setGPR k Jit.rsi i.addressWidth rsi
    setGPR k Jit.rcx i.addressWidth rcx
  | .scas =>
    let _rax ← getGPR k Jit.rax i.width
    let rdi ← getGPR k Jit.rdi i.addressWidth
    let rcx ← getGPR k Jit.rcx i.addressWidth
    let _temp ← scratch
    let _src2 ← scratch
    let _result ← scratch
    withScratch (pure ())
    compareRegisters k e (i.rep ≠ .none)
    setGPR k Jit.rdi i.addressWidth rdi
    setGPR k Jit.rcx i.addressWidth rcx
  | .lods =>
    emitPart (SubRegisters.check (i.rep = .none))
    let rsi ← getGPR k Jit.rsi i.addressWidth
    let _temp ← scratch
    let loaded ← scratch
    let _df ← scratch
    setGPR k Jit.rax i.width loaded
    setGPR k Jit.rsi i.addressWidth rsi
  | .stos =>
    let rdi ← getGPR k Jit.rdi i.addressWidth
    let rcx ← getGPR k Jit.rcx i.addressWidth
    let _rax ← getGPR k Jit.rax i.width
    let _temp ← scratch
    withScratch (pure ())
    setGPR k Jit.rdi i.addressWidth rdi
    setGPR k Jit.rcx i.addressWidth rcx

/-- The handler is called with all scratch registers free. An assertion stops it, or what it emits
is run. -/
def handler {ρ : Type*} (s : State ρ) : Option (State ρ) :=
  if (registers k e i op ⟨0, [], none⟩).isSome then Instr.exec k e ⟨op.mnemonic, i⟩ s else none

end Registers

section Costs

open EffectiveAddress (Costs)

variable {p : Prop} {need take : ℕ} {m : Emit Unit} {k : Config} {e : Flag → Bool} {i : Insn}

theorem costs_check (p : Prop) [Decidable p] :
    Costs p 0 0 (emitPart (SubRegisters.check p)) where
  isSome e := by by_cases hp : p <;> simp [emitPart, SubRegisters.check, hp]
  index h := by
    obtain ⟨e₂, hcheck, rfl⟩ := EffectiveAddress.emitPart_eq_some.mp h
    obtain ⟨-, rfl⟩ := SubRegisters.check_eq_some.mp hcheck
    rfl
  le := le_rfl

/-- One of the registers that `m` leaves in use is given back. -/
theorem costs_pop (h : Costs p need (take + 1) m) :
    Costs p need take (m >>= fun _ ↦ emitPart SubRegisters.popScratch) where
  isSome e := by
    rw [← h.isSome e, Option.isSome_iff_exists, Option.isSome_iff_exists]
    constructor
    · rintro ⟨⟨u, e₂⟩, hm⟩
      obtain ⟨u₁, e₁, hm, -⟩ := EffectiveAddress.bind_eq_some.mp hm
      exact ⟨(u₁, e₁), hm⟩
    · rintro ⟨⟨u, e₁⟩, hm⟩
      have hindex := h.index hm
      exact ⟨((), { e₁ with scratchIndex := e₁.scratchIndex - 1 }),
        EffectiveAddress.bind_eq_some.mpr ⟨u, e₁, hm,
          EffectiveAddress.popScratch_eq_some.mpr ⟨by omega, rfl⟩⟩⟩
  index hm := by
    obtain ⟨u, e₁, hm', hpop⟩ := EffectiveAddress.bind_eq_some.mp hm
    obtain ⟨-, rfl⟩ := EffectiveAddress.popScratch_eq_some.mp hpop
    have hindex := h.index hm'
    change e₁.scratchIndex - 1 = _
    omega
  le := (Nat.le_succ take).trans h.le

theorem costs_withScratch (h : Costs p need 0 m) : Costs p (1 + need) 0 (withScratch m) := by
  have hassoc : withScratch m =
      (scratch >>= fun _ ↦ m) >>= fun _ ↦ emitPart SubRegisters.popScratch := by
    rw [withScratch, bind_assoc]
  rw [hassoc]
  exact costs_pop ((Costs.scratch.bind fun _ ↦ h).congr (iff_of_eq (true_and p).symm)
    (fun _ ↦ by omega) rfl (by omega))

theorem costs_emitIf (b : Bool) (h : Costs True need 0 m) :
    Costs True (if b then need else 0) 0 (emitIf b m) := by
  cases b with
  | true => exact h
  | false => exact Costs.pure ()

/-- What is made of the scratch register that comes next. -/
theorem costs_scratch {f : SubRegisters.Reg → Emit Unit}
    (h : ∀ r ∈ Transfer.scratchGprs, Costs p need take (f r)) :
    Costs p (1 + need) (1 + take) (scratch >>= f) where
  isSome e := by
    rw [Option.isSome_iff_exists]
    constructor
    · rintro ⟨⟨u, e₂⟩, hm⟩
      obtain ⟨r, e₁, hr, hf⟩ := EffectiveAddress.bind_eq_some.mp hm
      have hmem := List.mem_of_getElem? (EffectiveAddress.scratch_eq_some.mp hr).1
      obtain ⟨hp, hneed⟩ := ((h r hmem).isSome e₁).mp (Option.isSome_of_eq_some hf)
      obtain ⟨-, hone⟩ := (Costs.scratch.isSome e).mp (Option.isSome_of_eq_some hr)
      rw [Costs.scratch.free_length hr] at hneed
      exact ⟨hp, by omega⟩
    · rintro ⟨hp, hneed⟩
      obtain ⟨⟨r, e₁⟩, hr⟩ := Option.isSome_iff_exists.mp
        ((Costs.scratch.isSome e).mpr ⟨trivial, by omega⟩)
      have hmem := List.mem_of_getElem? (EffectiveAddress.scratch_eq_some.mp hr).1
      have hfree := Costs.scratch.free_length hr
      obtain ⟨⟨u, e₂⟩, hf⟩ := Option.isSome_iff_exists.mp
        (((h r hmem).isSome e₁).mpr ⟨hp, by omega⟩)
      exact ⟨(u, e₂), EffectiveAddress.bind_eq_some.mpr ⟨r, e₁, hr, hf⟩⟩
  index hm := by
    obtain ⟨r, e₁, hr, hf⟩ := EffectiveAddress.bind_eq_some.mp hm
    obtain ⟨hmem, rfl⟩ := EffectiveAddress.scratch_eq_some.mp hr
    rw [(h r (List.mem_of_getElem? hmem)).index hf, Nat.add_assoc]
  le := Nat.add_le_add_left (h _ (List.getElem_mem (n := 0) (by decide))).le 1

theorem costs_setGPR {r : Ref} {size : Size} {reg : SubRegisters.Reg}
    (hreg : size.bits < 32 → reg ≠ SubRegisters.GuestReg.host (.gpr r)) :
    Costs True (SubRegisters.setScratches k size) 0 (setGPR k r size reg) where
  isSome e := by
    rw [setGPR, emitPart, Option.isSome_map, SubRegisters.setGPR_isSome, and_iff_right hreg]
    exact (iff_of_eq (true_and _)).symm
  index h := by
    obtain ⟨e₂, hset, rfl⟩ := EffectiveAddress.emitPart_eq_some.mp h
    obtain ⟨code, hcode⟩ := SubRegisters.setGPR_spec k hset
    rw [hcode.eq, Nat.add_zero]
  le := Nat.zero_le _

/-- A pointer or the counter. -/
theorem costs_setPointer (h : i.addressWidth = .dword ∨ i.addressWidth = .qword) (r : Ref)
    (reg : SubRegisters.Reg) : Costs True 0 0 (setGPR k r i.addressWidth reg) := by
  have hzero : SubRegisters.setScratches k i.addressWidth = 0 := by rcases h with h | h <;>
    rw [h] <;> rfl
  have hset : Costs True (SubRegisters.setScratches k i.addressWidth) 0
      (setGPR k r i.addressWidth reg) :=
    costs_setGPR fun hlt ↦ absurd hlt (by rcases h with h | h <;> rw [h] <;> decide)
  rwa [hzero] at hset

/-- The most that the flags of a comparison take. -/
def compareScratches (k : Config) (e : Flag → Bool) (alwaysEmit : Bool) : ℕ :=
  max (if alwaysEmit || e .cf then 1
    else 0) (max (if alwaysEmit || e .pf then if k.b then 1 else 2 else 0)
    (max (if alwaysEmit || e .af then 2 else 0) (if alwaysEmit || e .of then 1 else 0)))

theorem costs_compareRegisters (k : Config) (e : Flag → Bool) (alwaysEmit : Bool) :
    Costs True (compareScratches k e alwaysEmit) 0 (compareRegisters k e alwaysEmit) := by
  have hone : Costs True 1 0 (withScratch (pure ())) := costs_withScratch (Costs.pure ())
  have hparity : Costs True (if k.b then 1 else 2) 0 (updateParity k) := by
    rw [updateParity]
    split
    · exact hone
    · exact costs_withScratch hone
  have hflags := (costs_emitIf (alwaysEmit || e .cf) hone).bind fun _ ↦
    (costs_emitIf (alwaysEmit || e .pf) hparity).bind fun _ ↦
      (costs_emitIf (alwaysEmit || e .af) (costs_withScratch hone)).bind fun _ ↦
        costs_emitIf (alwaysEmit || e .of) hone
  exact hflags.congr (by simp) (fun _ ↦ by simp [compareScratches]) rfl (Nat.zero_le _)

/-- The most that a handler takes. -/
def scratches (k : Config) (e : Flag → Bool) (i : Insn) (op : StringOp) : ℕ :=
  let a := SubRegisters.getScratches k i.addressWidth
  let w := SubRegisters.getScratches k i.width
  match op with
  | .movs => 3 * a + 3
  | .cmps => 3 * a + 4 + max 1 (compareScratches k e (i.rep ≠ .none))
  | .scas => w + 2 * a + 3 + max 1 (compareScratches k e (i.rep ≠ .none))
  | .lods => a + 3 + SubRegisters.setScratches k i.width
  | .stos => 2 * a + w + 2

theorem costs_registers (k : Config) (e : Flag → Bool) (op : StringOp)
    (h : i.addressWidth = .dword ∨ i.addressWidth = .qword) :
    ∃ take, Costs (op = .lods → i.rep = .none) (scratches k e i op) take (registers k e i op) := by
  have hget := Costs.getReg k
  have hset := costs_setPointer (k := k) h
  have hcheck : Costs True 0 0 (emitPart (SubRegisters.check (16 < i.addressWidth.bits))) :=
    (costs_check _).congr (iff_of_true trivial (by rcases h with h | h <;> rw [h] <;> decide))
      (fun _ ↦ rfl) rfl le_rfl
  have hdf : Costs True 1 0 (withScratch (pure ())) := costs_withScratch (Costs.pure ())
  have hflags := costs_compareRegisters k e (i.rep ≠ .none)
  have hlods : op ≠ .lods → ((op = .lods → i.rep = .none) ↔ True) := fun hne ↦
    iff_of_true (fun heq ↦ absurd heq hne) trivial
  cases op with
  | movs =>
    have hcosts := hcheck.bind fun _ ↦
      (hget (.gpr rdi) i.addressWidth).bind fun reg₁ ↦
      (hget (.gpr rsi) i.addressWidth).bind fun reg₂ ↦
      (hget (.gpr rcx) i.addressWidth).bind fun reg₃ ↦
      Costs.scratch.bind fun _ ↦ Costs.scratch.bind fun _ ↦ Costs.scratch.bind fun _ ↦
      (hset rdi reg₁).bind fun _ ↦ (hset rsi reg₂).bind fun _ ↦ hset rcx reg₃
    refine ⟨_, hcosts.congr ((hlods (by decide)).trans (by simp)) (fun _ ↦ ?_) rfl ?_⟩ <;>
      · rw [scratches]
        omega
  | cmps =>
    have hcosts := hcheck.bind fun _ ↦
      (hget (.gpr rdi) i.addressWidth).bind fun reg₁ ↦
      (hget (.gpr rsi) i.addressWidth).bind fun reg₂ ↦
      (hget (.gpr rcx) i.addressWidth).bind fun reg₃ ↦
      Costs.scratch.bind fun _ ↦ Costs.scratch.bind fun _ ↦ Costs.scratch.bind fun _ ↦
      Costs.scratch.bind fun _ ↦ hdf.bind fun _ ↦ hflags.bind fun _ ↦
      (hset rdi reg₁).bind fun _ ↦ (hset rsi reg₂).bind fun _ ↦ hset rcx reg₃
    refine ⟨_, hcosts.congr ((hlods (by decide)).trans (by simp)) (fun _ ↦ ?_) rfl ?_⟩ <;>
      · rw [scratches]
        omega
  | scas =>
    have hcosts := hcheck.bind fun _ ↦
      (hget (.gpr rax) i.width).bind fun _ ↦
      (hget (.gpr rdi) i.addressWidth).bind fun reg₁ ↦
      (hget (.gpr rcx) i.addressWidth).bind fun reg₂ ↦
      Costs.scratch.bind fun _ ↦ Costs.scratch.bind fun _ ↦ Costs.scratch.bind fun _ ↦
      hdf.bind fun _ ↦ hflags.bind fun _ ↦ (hset rdi reg₁).bind fun _ ↦ hset rcx reg₂
    refine ⟨_, hcosts.congr ((hlods (by decide)).trans (by simp)) (fun _ ↦ ?_) rfl ?_⟩ <;>
      · rw [scratches]
        omega
  | lods =>
    have hrax {reg : SubRegisters.Reg} (hreg : reg ∈ Transfer.scratchGprs) :
        Costs True (SubRegisters.setScratches k i.width) 0 (setGPR k rax i.width reg) :=
      costs_setGPR fun _ heq ↦ absurd (heq ▸ hreg) (by decide)
    have hcosts := hcheck.bind fun _ ↦ (costs_check (i.rep = .none)).bind fun _ ↦
      (hget (.gpr rsi) i.addressWidth).bind fun reg₁ ↦
      Costs.scratch.bind fun _ ↦ costs_scratch fun loaded hloaded ↦ Costs.scratch.bind fun _ ↦
      (hrax hloaded).bind fun _ ↦ hset rsi reg₁
    refine ⟨_, hcosts.congr (by simp) (fun _ ↦ ?_) rfl ?_⟩ <;>
      · rw [scratches]
        omega
  | stos =>
    have hcosts := hcheck.bind fun _ ↦
      (hget (.gpr rdi) i.addressWidth).bind fun reg₁ ↦
      (hget (.gpr rcx) i.addressWidth).bind fun reg₂ ↦
      (hget (.gpr rax) i.width).bind fun _ ↦
      Costs.scratch.bind fun _ ↦ hdf.bind fun _ ↦ (hset rdi reg₁).bind fun _ ↦ hset rcx reg₂
    refine ⟨_, hcosts.congr ((hlods (by decide)).trans (by simp)) (fun _ ↦ ?_) rfl ?_⟩ <;>
      · rw [scratches]
        omega

/-- The handler stops where the scratch registers run out, if it computes all flags. -/
theorem registers_isSome (h : i.addressWidth = .dword ∨ ¬k.mode32 ∧ i.addressWidth = .qword)
    (hlive : i.rep = .none → ∀ f, e f = true) (op : StringOp) :
    (registers k e i op ⟨0, [], none⟩).isSome ↔ ¬Stops k i op := by
  obtain ⟨take, hcosts⟩ := costs_registers k e op (h.imp_right And.right)
  have hflags : compareScratches k e (i.rep ≠ .none) = 2 := by
    have he (f : Flag) : (decide (i.rep ≠ .none) || e f) = true := by
      by_cases hrep : i.rep = .none
      · rw [hlive hrep f, Bool.or_true]
      · simp [hrep]
    rw [compareScratches, he, he, he, he]
    cases k.b <;> rfl
  have hseven : (EffectiveAddress.Emitter.free ⟨0, [], none⟩).length = 7 := rfl
  have haddress : SubRegisters.getScratches k i.addressWidth =
      if ¬k.mode32 ∧ i.addressWidth = .dword then 1 else 0 := by
    rcases h with h | ⟨-, h⟩ <;> rw [h, SubRegisters.getScratches]
    · simp only [and_true, ite_not]
    · rw [if_neg fun hd ↦ absurd hd.2 (by decide)]
  have hwidth : ¬k.mode32 →
      SubRegisters.getScratches k i.width = if i.width = .qword then 0 else 1 := fun hmode ↦ by
    cases i.width <;> simp [SubRegisters.getScratches, hmode]
  have hget : SubRegisters.getScratches k i.width ≤ 1 := by
    cases i.width <;> simp only [SubRegisters.getScratches] <;> grind
  have hset : SubRegisters.setScratches k i.width ≤ 2 := by
    cases i.width <;> simp only [SubRegisters.setScratches] <;> grind
  rw [hcosts.isSome, hseven, Stops, and_assoc.symm]
  by_cases ha : ¬k.mode32 ∧ i.addressWidth = .dword
  · have hwidth := hwidth ha.1
    rw [if_pos ha] at haddress
    cases op <;> simp only [scratches, haddress, hwidth, hflags] <;> grind
  · rw [if_neg ha] at haddress
    cases op <;> simp only [scratches, haddress, hflags] <;> grind

end Costs

end Strings

/-! ## Registers in the address size -/

namespace Strings

/-- A value as a write to a doubleword or a whole register leaves it. -/
def wide (size : Size) (v : U64) : U64 := (readPart size v).setWidth 64

section Wide

variable {ρ : Type*} {size : Size} {v : U64}

theorem readPart_eq_low (h : size = .dword ∨ size = .qword) (v : U64) :
    readPart size v = low size v := by
  rcases h with rfl | rfl <;> rfl

theorem writePart_eq (h : size = .dword ∨ size = .qword) (old : U64) (x : BitVec size.bits) :
    writePart size old x = x.setWidth 64 := by
  rcases h with rfl | rfl
  · rfl
  · exact (BitVec.setWidth_eq x).symm

theorem toNat_wide (h : size = .dword ∨ size = .qword) (v : U64) :
    (wide size v).toNat = v.toNat % 2 ^ size.bits := by
  rw [wide, readPart_eq_low h, BitVec.toNat_setWidth_of_le size.bits_le, toNat_low]

theorem wide_wide (h : size = .dword ∨ size = .qword) (v : U64) :
    wide size (wide size v) = wide size v := by
  apply BitVec.eq_of_toNat_eq
  rw [toNat_wide h, toNat_wide h, Nat.mod_mod]

theorem wide_congr (h : size = .dword ∨ size = .qword) {v w : U64}
    (hvw : v.toNat % 2 ^ size.bits = w.toNat % 2 ^ size.bits) : wide size v = wide size w := by
  apply BitVec.eq_of_toNat_eq
  rw [toNat_wide h, toNat_wide h, hvw]

theorem wide_add (h : size = .dword ∨ size = .qword) (v d : U64) :
    wide size (wide size v + d) = wide size (v + d) := by
  refine wide_congr h ?_
  have hdvd : 2 ^ size.bits ∣ 2 ^ 64 := by rcases h with rfl | rfl <;> decide
  rw [BitVec.toNat_add, BitVec.toNat_add, toNat_wide h, Nat.mod_mod_of_dvd _ hdvd,
    Nat.mod_mod_of_dvd _ hdvd, Nat.mod_add_mod]

theorem wide_eq_self (h : size = .dword ∨ size = .qword) :
    wide size v = v ↔ (size = .dword → Low32 v) := by
  rw [← BitVec.toNat_inj, toNat_wide h]
  rcases h with rfl | rfl
  · rw [forall_prop_of_true rfl, low32_iff]
    exact Nat.mod_eq_iff_lt (by decide)
  · exact iff_of_true (Nat.mod_eq_of_lt v.isLt) fun heq ↦ absurd heq (by decide)

theorem low_ofInt (h : size = .dword ∨ size = .qword) (d : ℤ) :
    low size (BitVec.ofInt 64 d) = BitVec.ofInt size.bits d := by
  apply BitVec.eq_of_toNat_eq
  rw [toNat_low, BitVec.toNat_ofInt, BitVec.toNat_ofInt]
  rcases h with rfl | rfl
  · change _ % 2 ^ 32 = (d % (2 ^ 32 : ℕ)).toNat
    omega
  · change _ % 2 ^ 64 = (d % (2 ^ 64 : ℕ)).toNat
    omega

theorem writePart_add (h : size = .dword ∨ size = .qword) (old : U64) (d : ℤ) :
    writePart size old (readPart size old + BitVec.ofInt size.bits d) =
      wide size (old + BitVec.ofInt 64 d) := by
  rw [writePart_eq h, wide, readPart_eq_low h, readPart_eq_low h, low_add, low_ofInt h]

theorem setRef_wide (k : Config) (h : size = .dword ∨ size = .qword) (r : Ref) (c : Core ρ) :
    k.setRef r size v c = c.write r (wide size v) := by
  rw [Config.setRef]
  refine congrArg (c.write r) (BitVec.eq_of_toNat_eq ?_)
  rw [toNat_wide h v]
  rcases h with rfl | rfl
  · simp only [Config.merge, shl_shr_32, ite_self, toNat_zextw, Size.bits]
  · exact (Nat.mod_eq_of_lt v.isLt).symm

theorem getRef_wide {k : Config} (h : size = .dword ∨ size = .qword) {c : Core ρ}
    (hz : k.mode32 → Zext c)
    (r : Ref) : k.getRef r size c = wide size (c.gpr r) := by
  apply BitVec.eq_of_toNat_eq
  rw [toNat_wide h]
  rcases h with rfl | rfl
  · rw [Config.getRef]
    split
    · next hmode => exact (Nat.mod_eq_of_lt (low32_iff.mp (hz hmode r))).symm
    · exact k.toNat_zext .dword _
  · exact (Nat.mod_eq_of_lt (c.gpr r).isLt).symm

end Wide

end Strings

namespace Strings

variable {ρ : Type*} {k : Config} {e : Flag → Bool} {i : Insn} {op : StringOp} {c : Core ρ}
  {s : State ρ} {x : Loop}

theorem stringStep_eq (i : Insn) (c : Core ρ) : stringStep i c = BitVec.ofInt 64 (stride i c) := by
  have hbytes : operandBytes i.width = BitVec.ofInt 64 i.width.bytes := by
    rw [operandBytes, BitVec.ofInt_natCast]
  rw [stringStep, stride, hbytes]
  split
  · rfl
  · exact (BitVec.ofInt_neg ..).symm

theorem moveBy_eq (h : i.addressWidth = .dword ∨ i.addressWidth = .qword) (r : Ref) (d : ℤ)
    (c : Core ρ) :
    moveBy i r d c = c.write r (wide i.addressWidth (c.gpr r + BitVec.ofInt 64 d)) := by
  rw [moveBy, writePart_add h]

/-- The guest's state fits the registers of the loop, up to the upper halves of the three
registers. -/
structure Like (i : Insn) (op : StringOp) (c : Core ρ) (s : State ρ) (x : Loop) : Prop where
  core : s.core = { c with gpr := s.core.gpr, mem := x.mem }
  flag : s.flag = x.flag
  other : ∀ q, q ≠ rcx → q ≠ rdi → ¬(op.source ∧ q = rsi) → s.core.gpr q = c.gpr q
  rcx : wide i.addressWidth (s.core.gpr rcx) = x.regs.rcx
  rdi : wide i.addressWidth (s.core.gpr rdi) = x.regs.rdi
  rsi : op.source → wide i.addressWidth (s.core.gpr rsi) = x.regs.rsi

namespace Called

theorem address (h : Called k i op c) : i.addressWidth = .dword ∨ i.addressWidth = .qword :=
  h.width.imp_right And.right

theorem zextw_wide (h : Called k i op c) (v : U64) :
    (if k.mode32 then zextw (wide i.addressWidth v) else wide i.addressWidth v) =
    wide i.addressWidth v := by
  split
  · next hmode =>
    have hdword : i.addressWidth = .dword := h.width.resolve_right fun hq ↦ hq.1 hmode
    apply BitVec.eq_of_toNat_eq
    rw [toNat_zextw, toNat_wide h.address, hdword]
    exact Nat.mod_mod _ _
  · rfl

/-- Addresses are the pointers. -/
theorem linear_eq (h : Called k i op c) {seg : Seg} (hseg : segmentBase k seg c = 0)
    (hbase : s.core.base = c.base)
    (r : Ref) : linear k i seg r s.core = wide i.addressWidth (s.core.gpr r) := by
  have hzero : segmentBase k seg s.core = 0 := by rw [← hseg, segmentBase, segmentBase, hbase]
  have hpointer : (0 : U64) + pointer i r s.core = wide i.addressWidth (s.core.gpr r) :=
    BitVec.zero_add _
  rw [linear, hzero, hpointer]
  exact h.zextw_wide _

end Called

theorem assignFlags_eq {flags : X86.Flags} {values : Flag → U64}
    (hset : ∀ f, Effect.Holds (Flags.get flags f) (s.flag f) (f.stored (values f)))
    (hdef : ∀ f, Flags.get flags f ≠ .undefined) {e' : Flag → Bool} (he : ∀ f, e' f = true) :
    assignFlags flags s = s.assign e' values := by
  refine State.ext (by simp [assignFlags]) fun f ↦ ?_
  rw [State.flag_assign, if_pos (he f)]
  have hf := hset f
  have hne := hdef f
  rw [assignFlags]
  cases heffect : Flags.get flags f with
  | undefined => exact absurd heffect hne
  | keep =>
    rw [heffect] at hf
    simp only [heffect]
    exact hf.symm
  | set b =>
    rw [heffect] at hf
    simp only [heffect]
    exact hf.symm

theorem Like.mem (h : Like i op c s x) : s.core.mem = x.mem := congrArg Core.mem h.core

theorem Like.df (h : Like i op c s x) : s.core.df = c.df := (congrArg Core.df h.core).trans rfl

theorem Like.base (h : Like i op c s x) : s.core.base = c.base :=
  (congrArg Core.base h.core).trans rfl

theorem Like.gpr_rax (h : Like i op c s x) : s.core.gpr rax = c.gpr rax :=
  h.other rax (by decide) (by decide) fun hr ↦ absurd hr.2 (by decide)

/-- The comparison of a step, and that of the handler. -/
theorem compare_eq {lhs rhs : U64} {a b : BitVec i.width.bits}
    (hlive : i.rep = .none → ∀ f, e f = true) (ha : a = low i.width lhs) (hb : b = low i.width rhs)
    (hlhs : lhs.toNat < 2 ^ i.width.bits) (hrhs : rhs.toNat < 2 ^ i.width.bits) :
    assignFlags (X86.cmp a b).flags s = { s with flag :=
      (setCmpFlags k e lhs rhs (lhs - rhs) i.width false (i.rep ≠
          .none) (⟨c, x.flag⟩ : State ρ)).flag } := by
  have htest : (if false then k.zext i.width rhs else rhs).toNat = (low i.width rhs).toNat := by
    rw [toNat_low]
    exact (Nat.mod_eq_of_lt hrhs).symm
  have he (f : Flag) : (decide (i.rep ≠ .none) || e f) = true := by
    by_cases hrep : i.rep = .none
    · rw [hlive hrep f, Bool.or_true]
    · simp [hrep]
  subst ha hb
  change assignFlags (X86.sub (low i.width lhs) (low i.width rhs)).flags s = _
  rw [assignFlags_eq (fun f ↦ holds_cmpValues k hlhs htest f (s.flag f)) (fun f ↦ by cases f <;>
    simp [Flags.get, X86.sub, X86.sbb, resultFlags]) he, setCmpFlags_eq]
  refine State.ext (by simp) fun f ↦ ?_
  simp only [State.flag_assign, he f, if_true]

theorem transfer_eq (h : Called k i op c) (hlike : Like i op c s x) (hop : op ≠ .lods)
    (hlive : i.rep = .none → ∀ f, e f = true) : transfer k i op s =
      ⟨{ s.core with mem := (loopBody k e i op c x).mem }, (loopBody k e i op c x).flag⟩ := by
  have hsource (hs : op.source) : linear k i (op.segment i) rsi s.core = x.regs.rsi :=
    (h.linear_eq (h.source hs) hlike.base rsi).trans (hlike.rsi hs)
  have hdest (hd : op.dest) : linear k i .es rdi s.core = x.regs.rdi :=
    (h.linear_eq (h.dest hd) hlike.base rdi).trans hlike.rdi
  have hload (a : U64) : (x.mem.load a i.width.bytes).toNat < 2 ^ i.width.bits := by
    rw [Size.bits_eq]
    exact Mem.load_lt _ _ i.width.bytes_le
  have hrax : (readPart i.width (s.core.gpr rax)) = low i.width (k.getRef rax i.width c) := by
    rw [k.low_getRef, hlike.gpr_rax]
  have hraxlt : (k.getRef rax i.width c).toNat < 2 ^ i.width.bits :=
    k.getRef_lt fun _ hmode ↦ h.zext hmode rax
  have hsame : ({ s.core with mem := x.mem } : Core ρ) = s.core := by rw [← hlike.mem]
  cases op with
  | movs =>
    rw [transfer, hsource rfl, hlike.mem, loopBody, ← hlike.flag]
    simp only [State.map, hdest rfl, hlike.mem]
  | stos =>
    have hstore : x.mem.store x.regs.rdi ((low i.width (k.getRef rax i.width c)).setWidth 64)
      i.width.bytes =
        x.mem.store x.regs.rdi (k.getRef rax i.width c) i.width.bytes := by
      refine Mem.store_congr _ _ ?_
      rw [BitVec.toNat_setWidth_of_le i.width.bits_le, toNat_low, ← Size.bits_eq, Nat.mod_mod]
    rw [transfer, hrax, loopBody, ← hlike.flag]
    simp only [State.map, hdest rfl, hlike.mem, hstore]
  | cmps =>
    rw [transfer, hsource rfl, hdest rfl, hlike.mem, loopBody, hsame]
    exact compare_eq hlive rfl rfl (hload _) (hload _)
  | scas =>
    rw [transfer, hdest rfl, hlike.mem, loopBody, hsame]
    exact compare_eq hlive hrax rfl hraxlt (hload _)
  | lods => exact absurd rfl hop

end Strings

namespace Strings

variable {ρ : Type*} {k : Config} {e : Flag → Bool} {i : Insn} {op : StringOp} {c : Core ρ}
  {s s' : State ρ} {x : Loop}

theorem core_ext {c c' : Core ρ} (h : { c with gpr := c'.gpr } = c') (hg : c.gpr = c'.gpr) :
    c = c' := by
  rw [← h, ← hg]

/-- Registers with new values for those of the loop. -/
def withRegs (op : StringOp) (c : Core ρ) (vrcx vrsi vrdi : U64) (q : Ref) : U64 :=
  if q = rcx then vrcx else if op.source ∧ q = rsi then vrsi else if q = rdi then vrdi else c.gpr q

theorem put_eq (h : i.addressWidth = .dword ∨ i.addressWidth = .qword) : put k i op c x =
    ⟨{ c with
        gpr := withRegs op c (wide i.addressWidth x.regs.rcx) (wide i.addressWidth x.regs.rsi)
          (wide i.addressWidth x.regs.rdi)
        mem := x.mem }, x.flag⟩ := by
  refine State.ext (core_ext ?_ (funext fun q ↦ ?_)) fun f ↦ rfl
  · simp only [put, setRef_wide k h]
    split <;> rfl
  · simp only [put, setRef_wide k h, withRegs]
    cases op.source <;> simp [Core.write, Function.update_apply]

theorem regs_loopBody (hop : op ≠ .lods) :
    (loopBody k e i op c x).regs = moveRegs i op c x.regs := by
  cases op with
  | lods => exact absurd rfl hop
  | _ => rfl

theorem advance_eq (i : Insn) (op : StringOp) (c : Core ρ) :
    advance i op c = { c with gpr := (advance i op c).gpr } := by
  rw [advance]
  split <;> split <;> rfl

theorem gpr_advance (h : i.addressWidth = .dword ∨ i.addressWidth = .qword) (hdest : op.dest = true)
    (c : Core ρ) (q : Ref) : (advance i op c).gpr q =
      if q = rdi then wide i.addressWidth (c.gpr rdi + stringStep i c)
      else if op.source ∧ q = rsi then wide i.addressWidth (c.gpr rsi + stringStep i c)
      else c.gpr q := by
  simp only [advance, hdest, if_true, moveBy_eq h, stringStep_eq]
  cases op.source <;> simp [Core.write, Function.update_apply, rdi, rsi]

/-- A step does what a round does, and leaves the counter alone. -/
theorem element_eq (h : Called k i op c) (hlike : Like i op c s x) (hop : op ≠ .lods)
    (hlive : i.rep = .none → ∀ f, e f = true) : element k i op s =
      let y := loopBody k e i op c x
      ⟨{ c with
          gpr := withRegs op c (s.core.gpr rcx) (wide i.addressWidth y.regs.rsi)
            (wide i.addressWidth y.regs.rdi)
          mem := y.mem }, y.flag⟩ := by
  have hdest : op.dest = true := by
    cases op with
    | lods => exact absurd rfl hop
    | _ => rfl
  have hmove (r : Ref) {v : U64} (hv : wide i.addressWidth (s.core.gpr r) = v) :
      wide i.addressWidth (s.core.gpr r + stringStep i s.core) =
        wide i.addressWidth (v + stringStep i c) := by
    rw [← hv, wide_add h.address, stringStep, stringStep, hlike.df]
  rw [element, transfer_eq h hlike hop hlive]
  refine State.ext (core_ext ?_ (funext fun q ↦ ?_)) fun f ↦ rfl
  · have hcore := advance_eq i op { s.core with mem := (loopBody k e i op c x).mem }
    rw [State.map, hcore, hlike.core]
  · have hother := hlike.other q
    simp only [State.map, gpr_advance h.address hdest, withRegs, regs_loopBody hop, moveRegs]
    by_cases hrcx : q = rcx
    · subst hrcx
      simp [rcx, rdi, rsi]
    by_cases hrdi : q = rdi
    · subst hrdi
      simp [rcx, rdi, rsi]
      exact hmove rdi hlike.rdi
    by_cases hrsi : op.source ∧ q = rsi
    · obtain ⟨hs, rfl⟩ := hrsi
      simp [rcx, rdi, rsi, hs]
      exact hmove rsi (hlike.rsi hs)
    · simpa [hrcx, hrdi, hrsi] using hother hrcx hrdi hrsi

end Strings

/-! ## The two loops -/

namespace Strings

variable {ρ : Type*} {k : Config} {e : Flag → Bool} {i : Insn} {op : StringOp} {c : Core ρ}
  {s s' : State ρ} {x : Loop}

/-- A step under a prefix does what a round of the loop does. -/
theorem round_eq (h : Called k i op c) (hlike : Like i op c s x) (hop : op ≠ .lods)
    (hlive : i.rep = .none → ∀ f, e f = true) :
    round k i op s = put k i op c (loopBody k e i op c x).count := by
  have hone : BitVec.ofInt 64 (-1) = (-1 : U64) := rfl
  rw [round, element_eq h hlike hop hlive, put_eq h.address]
  refine State.ext (core_ext rfl (funext fun q ↦ ?_)) fun f ↦ rfl
  simp only [State.map, moveBy_eq h.address, Core.write, hone, Loop.count, StringRegs.decrement,
    regs_loopBody hop, moveRegs, Function.update_apply]
  by_cases hq : q = rcx
  · subst hq
    simp only [withRegs, if_true]
    rw [← wide_add h.address, hlike.rcx]
    exact congrArg (wide _) (BitVec.sub_eq_add_neg _ _).symm
  · simp only [withRegs, hq, if_false]

/-- What the handler starts with. -/
theorem like_start (h : Called k i op s.core) : Like i op s.core s (start k i s) where
  core := rfl
  flag := rfl
  other _ _ _ _ := rfl
  rcx := (getRef_wide h.address h.zext rcx).symm
  rdi := (getRef_wide h.address h.zext rdi).symm
  rsi _ := (getRef_wide h.address h.zext rsi).symm

/-- Pointers and counter fit the address size. -/
structure Fits (i : Insn) (op : StringOp) (r : StringRegs) : Prop where
  rcx : wide i.addressWidth r.rcx = r.rcx
  rdi : wide i.addressWidth r.rdi = r.rdi
  rsi : op.source → wide i.addressWidth r.rsi = r.rsi

theorem like_put (h : i.addressWidth = .dword ∨ i.addressWidth = .qword)
    (hfits : Fits i op x.regs) :
    Like i op c (put k i op c x) x := by
  have hid {v : U64} (hv : wide i.addressWidth v = v) :
      wide i.addressWidth (wide i.addressWidth v) = v := hv.symm ▸ hv
  rw [put_eq h]
  refine ⟨rfl, rfl, fun q hrcx hrdi hrsi ↦ ?_, hid hfits.rcx, ?_, fun hs ↦ ?_⟩
  · simp only [withRegs, if_neg hrcx, if_neg hrsi, if_neg hrdi]
  · have hne : ¬(op.source ∧ Jit.rdi = Jit.rsi) := fun hr ↦ absurd hr.2 (by decide)
    simp only [withRegs, if_neg (show Jit.rdi ≠ Jit.rcx by decide), if_neg hne, if_true]
    exact hid hfits.rdi
  · simp only [withRegs, if_neg (show Jit.rsi ≠ Jit.rcx by decide), hs, and_self, if_true]
    exact hid (hfits.rsi hs)

theorem Like.fits (h : i.addressWidth = .dword ∨ i.addressWidth = .qword)
    (hlike : Like i op c s x) :
    Fits i op x.regs where
  rcx := hlike.rcx ▸ wide_wide h _
  rdi := hlike.rdi ▸ wide_wide h _
  rsi hs := hlike.rsi hs ▸ wide_wide h _

/-- A pointer that stays inside is moved the same in 64 bits. -/
theorem wide_move (h : i.addressWidth = .dword ∨ i.addressWidth = .qword) {v : U64}
    (hin : i.addressWidth ≠ .qword → 0 ≤ v.toNat + stride i c ∧ v.toNat + stride i c <
      2 ^ i.addressWidth.bits) :
    wide i.addressWidth (v + stringStep i c) = v + stringStep i c := by
  rw [wide_eq_self h]
  intro hdword
  obtain ⟨hlow, hhigh⟩ := hin (by rw [hdword]; decide)
  rw [hdword] at hhigh
  have hv := v.isLt
  rw [low32_iff, stringStep_eq, BitVec.toNat_add, BitVec.toNat_ofInt]
  change _ < 2 ^ 32 at hhigh
  generalize stride i c = d at hlow hhigh
  omega

/-- The counter is not zero in the address size if it is not zero in 64 bits. -/
theorem wide_pred_eq_zero (h : i.addressWidth = .dword ∨ i.addressWidth = .qword) {v : U64}
    (hv : wide i.addressWidth v = v) : wide i.addressWidth (v - 1) = 0 ↔ v - 1 = 0 := by
  have hlt : v.toNat < 2 ^ i.addressWidth.bits := by
    rw [← hv, toNat_wide h]
    exact Nat.mod_lt _ (Nat.two_pow_pos _)
  have hsub : (v - 1).toNat = (2 ^ 64 - 1 + v.toNat) % 2 ^ 64 := BitVec.toNat_sub _ _
  rw [← BitVec.toNat_inj, ← BitVec.toNat_inj, toNat_wide h, hsub]
  change _ = 0 ↔ _ = 0
  rcases h with hw | hw
  · rw [hw] at hlt ⊢
    change v.toNat < 2 ^ 32 at hlt
    change _ % 2 ^ 32 = 0 ↔ _
    omega
  · rw [hw]
    change _ % 2 ^ 64 = 0 ↔ _
    omega

/-- A round moves the pointers and counts down. -/
theorem regs_count_loopBody (hop : op ≠ .lods) : (loopBody k e i op c x).count.regs =
    { moveRegs i op c x.regs with rcx := x.regs.rcx - 1 } := by
  rw [Loop.count, StringRegs.decrement, regs_loopBody hop]
  rfl

/-- The handler goes on only with rounds left. -/
theorem rcx_ne_zero_of_loopAgain (h : loopAgain i op x) : x.regs.rcx ≠ 0 := by
  rw [loopAgain] at h
  split at h
  · exact of_decide_eq_true (Bool.and_eq_true_iff.mp h).1
  · exact of_decide_eq_true h

/-- Under a prefix `ZF` is computed in each round of a comparison. -/
theorem zf_loopBody (hrep : i.rep ≠ .none) (hop : op.compares) :
    (loopBody k e i op c x).flag .zf = 0 ∨ (loopBody k e i op c x).flag .zf = 1 := by
  have hbit (lhs rhs : U64) :
      (setCmpFlags k e lhs rhs (lhs - rhs) i.width false (decide (i.rep ≠ .none))
      (⟨c, x.flag⟩ : State ρ)).flag .zf ∈ [0, 1] := by
    have he : (decide (i.rep ≠ .none) || e .zf) = true := by simp [hrep]
    rw [setCmpFlags_eq, State.flag_assign, if_pos he]
    change Riscv.seqz _ ∈ _
    rw [Riscv.seqz]
    split <;> decide
  have hmem : (loopBody k e i op c x).flag .zf ∈ [(0 : U64), 1] := by
    cases op with
    | cmps => exact hbit _ _
    | scas => exact hbit _ _
    | _ => cases hop
  simpa using hmem

/-- The handler goes on if the prefix asks for it. -/
theorem loopAgain_iff (h : Called k i op c) (hlike : Like i op c s x) (hop : op ≠ .lods)
    (hrep : i.rep ≠ .none) : loopAgain i op (loopBody k e i op c x).count ↔
      GoesOn i op (put k i op c (loopBody k e i op c x).count) := by
  have hrcx : (loopBody k e i op c x).count.regs.rcx = x.regs.rcx - 1 := by
    rw [regs_count_loopBody hop]
  have hcount : pointer i rcx (put k i op c (loopBody k e i op c x).count).core ≠ 0 ↔
      x.regs.rcx - 1 ≠ 0 := by
    rw [put_eq h.address]
    change wide i.addressWidth (wide i.addressWidth _) ≠ 0 ↔ _
    rw [wide_wide h.address, hrcx, ne_eq, wide_pred_eq_zero h.address (hlike.fits h.address).rcx]
  rw [GoesOn, hcount, loopAgain]
  by_cases hcompares : op.compares
  · have hbit := zf_loopBody (k := k) (e := e) (c := c) (x := x) hrep hcompares
    have hflag : (put k i op c (loopBody k e i op c x).count).flag .zf =
      (loopBody k e i op c x).flag .zf := rfl
    rw [if_pos hcompares, compareAgain, hrcx, hflag, forall_prop_of_true hcompares]
    change (_ && if i.rep = .repz then decide ((loopBody k e i op c x).flag .zf ≠ 0)
      else decide ((loopBody k e i op c x).flag .zf = 0)) = true ↔ _
    generalize (loopBody k e i op c x).flag .zf = zf at hbit
    rw [Bool.and_eq_true, decide_eq_true_iff]
    refine and_congr_right fun _ ↦ ?_
    by_cases hz : i.rep = .repz
    · obtain rfl | rfl := hbit <;> simp [hz]
    · obtain rfl | rfl := hbit <;> simp [hz]
  · rw [if_neg hcompares, hrcx]
    simp [hcompares]

end Strings

/-! ## The instructions -/

namespace Strings

variable {ρ : Type*} {k : Config} {e : Flag → Bool} {i : Insn} {op : StringOp} {c : Core ρ}
  {s s' : State ρ} {x : Loop}

theorem start_regs (h : Called k i op s.core) (r : Ref) :
    k.getRef r i.addressWidth s.core = pointer i r s.core :=
  getRef_wide h.address h.zext r

theorem toNat_pred {v : U64} (h : v ≠ 0) : (v - 1).toNat + 1 = v.toNat := by
  have hlt := v.isLt
  have hne : v.toNat ≠ 0 := fun hzero ↦ h (BitVec.eq_of_toNat_eq hzero)
  have hsub : (v - 1).toNat = (2 ^ 64 - 1 + v.toNat) % 2 ^ 64 := BitVec.toNat_sub _ _
  omega

/-- While the instruction goes on, pointers and counter stay in the address size. -/
theorem like_round (h : Called k i op s.core) (hop : op ≠ .lods) (hrep : i.rep ≠ .none)
    (hstays : Stays k i op s) {t : State ρ} (hlike : Like i op s.core t x) (hx : x.regs.rcx ≠ 0)
    (hvisited : Visited (round k i op) (GoesOn i op) s t) (hgoes : GoesOn i op (round k i op t))
    (ht : round k i op t = put k i op s.core (loopBody k e i op s.core x).count) :
    Like i op s.core (round k i op t) (loopBody k e i op s.core x).count := by
  have hfits := hlike.fits h.address
  have hinside := hstays hrep t hvisited hgoes
  have hstride : stride i t.core = stride i s.core := by rw [stride, stride, hlike.df]
  have hdest : op.dest = true := by
    cases op with
    | lods => exact absurd rfl hop
    | _ => rfl
  refine ht ▸ like_put h.address ?_
  rw [regs_count_loopBody hop]
  refine ⟨?_, wide_move h.address fun hq ↦ ?_, fun hs ↦ ?_⟩
  · have hlt : x.regs.rcx.toNat < 2 ^ i.addressWidth.bits := by
      rw [← hfits.rcx, toNat_wide h.address]
      exact Nat.mod_lt _ (Nat.two_pow_pos _)
    have hpred := toNat_pred hx
    apply BitVec.eq_of_toNat_eq
    rw [toNat_wide h.address]
    change (x.regs.rcx - 1).toNat % _ = (x.regs.rcx - 1).toNat
    exact Nat.mod_eq_of_lt (by omega)
  · rw [← hstride, ← hlike.rdi]
    exact hinside hq rdi (.inr ⟨hdest, rfl⟩)
  · simp only [moveRegs, hs, if_true]
    refine wide_move h.address fun hq ↦ ?_
    rw [← hstride, ← hlike.rsi hs]
    exact hinside hq rsi (.inl ⟨hs, rfl⟩)

/-- The loop of the handler ends, in a state that the steps under the prefix lead to. -/
theorem until_put (h : Called k i op s.core) (hop : op ≠ .lods) (hrep : i.rep ≠ .none)
    (hcount : pointer i rcx s.core ≠ 0) (hstays : Stays k i op s) :
    Until (round k i op) (GoesOn i op) s
        (put k i op s.core (loop k e i op s.core (start k i s))) := by
  have hlive (h : i.rep = .none) : ∀ f, e f = true := absurd h hrep
  have hcount₀ : (start k i s).regs.rcx ≠ 0 := by
    rw [show (start k i s).regs.rcx = pointer i rcx s.core from start_regs h rcx]
    exact hcount
  have hloop : Until (fun x ↦ (loopBody k e i op s.core x).count) (loopAgain i op · = true)
      (start k i s) (loop k e i op s.core (start k i s)) := by
    rw [loop, stringRun, if_neg hrep, if_neg hcount₀, ← toNat_pred hcount₀]
    -- the counter is what is left of the rounds
    refine until_repLoop (fun x ↦ x.regs.rcx.toNat) (fun x hx hagain ↦ ?_) (toNat_pred hcount₀).symm
    have hne := rcx_ne_zero_of_loopAgain hagain
    refine ⟨fun hzero ↦ hne (BitVec.eq_of_toNat_eq hzero), ?_⟩
    rw [regs_count_loopBody hop]
    exact toNat_pred fun hzero ↦ hx (by rw [hzero]; rfl)
  have hnext (x : Loop) (t : State ρ) (hxt : Like i op s.core t x ∧ x.regs.rcx ≠ 0)
      (hvisited : Visited (round k i op) (GoesOn i op) s t) (hgoes : GoesOn i op (round k i op t))
      (ht : round k i op t = put k i op s.core (loopBody k e i op s.core x).count) :
      Like i op s.core (round k i op t) (loopBody k e i op s.core x).count ∧
        (loopBody k e i op s.core x).count.regs.rcx ≠ 0 :=
    ⟨like_round h hop hrep hstays hxt.1 hxt.2 hvisited hgoes ht,
      rcx_ne_zero_of_loopAgain ((loopAgain_iff h hxt.1 hop hrep).mpr (ht ▸ hgoes))⟩
  obtain ⟨s₁, huntil, rfl⟩ :=
    hloop.simulation (R := fun x t ↦ Like i op s.core t x ∧ x.regs.rcx ≠ 0)
    (Q := fun x t ↦ t = put k i op s.core x) ⟨like_start h, hcount₀⟩
    (fun x t hxt _ ↦ round_eq h hxt.1 hop hlive)
    (fun x t hxt hq ↦ hq ▸ loopAgain_iff h hxt.1 hop hrep) hnext
  exact huntil

theorem withRegs_inj {vrcx vrsi vrdi wrcx wrsi wrdi : U64} :
    withRegs op c vrcx vrsi vrdi = withRegs op c wrcx wrsi wrdi ↔
      vrcx = wrcx ∧ vrdi = wrdi ∧ (op.source → vrsi = wrsi) := by
  constructor
  · intro h
    refine ⟨congrFun h rcx, ?_, fun hs ↦ ?_⟩
    · simpa [withRegs, rcx, rsi, rdi] using congrFun h rdi
    · simpa [withRegs, rcx, rsi, rdi, hs] using congrFun h rsi
  · rintro ⟨rfl, rfl, hs⟩
    funext q
    by_cases hq : op.source ∧ q = rsi
    · rw [withRegs, withRegs, hs hq.1]
    · rw [withRegs, withRegs, if_neg hq, if_neg hq]

theorem withRegs_self (op : StringOp) (c : Core ρ) :
    withRegs op c (c.gpr rcx) (c.gpr rsi) (c.gpr rdi) = c.gpr := by
  funext q
  rw [withRegs]
  split
  · next hq => rw [hq]
  · split
    · next hq => rw [hq.2]
    · split
      · next hq => rw [hq]
      · rfl

/-- If there is nothing to do, what is put back decides. -/
theorem put_start (h : Called k i op s.core) : put k i op s.core (start k i s) = s ↔
    (i.addressWidth = .dword →
      Low32 (s.core.gpr rcx) ∧ Low32 (s.core.gpr rdi) ∧ (op.source → Low32 (s.core.gpr rsi))) := by
  have hw (r : Ref) : wide i.addressWidth (k.getRef r i.addressWidth s.core) =
      wide i.addressWidth (s.core.gpr r) := by rw [getRef_wide h.address h.zext,
        wide_wide h.address]
  have hput : put k i op s.core (start k i s) = ⟨{ s.core with
      gpr := withRegs op s.core (wide i.addressWidth (s.core.gpr rcx))
        (wide i.addressWidth (s.core.gpr rsi))
        (wide i.addressWidth (s.core.gpr rdi)) }, s.flag⟩ := by
    rw [put_eq h.address, ← hw rcx, ← hw rsi, ← hw rdi]
    rfl
  have hsame (g : Ref → U64) : (⟨{ s.core with gpr := g }, s.flag⟩ : State ρ) = s ↔
      g = withRegs op s.core (s.core.gpr rcx) (s.core.gpr rsi) (s.core.gpr rdi) := by
    rw [withRegs_self]
    exact ⟨fun heq ↦ congrArg (fun t : State ρ ↦ t.core.gpr) heq, fun heq ↦ by rw [heq]⟩
  rw [hput, hsame, withRegs_inj, wide_eq_self h.address, wide_eq_self h.address,
    wide_eq_self h.address]
  exact ⟨fun hr hd ↦ ⟨hr.1 hd, hr.2.1 hd, fun hs ↦ hr.2.2 hs hd⟩,
    fun hr ↦ ⟨fun hd ↦ (hr hd).1, fun hd ↦ (hr hd).2.1, fun hs hd ↦ (hr hd).2.2 hs⟩⟩

/-- Without a prefix the counter is put back. -/
theorem put_element (h : Called k i op s.core) (hop : op ≠ .lods)
    (hlive : i.rep = .none → ∀ f, e f = true) :
    put k i op s.core (loopBody k e i op s.core (start k i s)) = element k i op s ↔
      (i.addressWidth = .dword → Low32 (s.core.gpr rcx)) := by
  have hrcx : (loopBody k e i op s.core (start k i s)).regs.rcx =
      wide i.addressWidth (s.core.gpr rcx) := by
    rw [regs_loopBody hop]
    exact getRef_wide h.address h.zext rcx
  rw [element_eq h (like_start h) hop hlive, put_eq h.address, hrcx, wide_wide h.address,
    ← wide_eq_self h.address]
  constructor
  · intro heq
    exact (withRegs_inj.mp (congrArg (fun t : State ρ ↦ t.core.gpr) heq)).1
  · intro heq
    rw [heq]

theorem exec_lods (h : Called k i .lods s.core) : Instr.exec k e ⟨StringOp.lods.mnemonic, i⟩ s =
    some (element k i .lods s) := by
  have hsource : linear k i (StringOp.lods.segment i) rsi s.core =
      k.getRef rsi i.addressWidth s.core :=
    (h.linear_eq (h.source rfl) rfl rsi).trans (getRef_wide h.address h.zext rsi).symm
  have hrsi (c' : Core ρ) (hc : c'.gpr rsi = s.core.gpr rsi) :
      k.setRef rsi i.addressWidth (k.getRef rsi i.addressWidth s.core + stringStep i s.core) c' =
        moveBy i rsi (stride i s.core) c' := by
    rw [setRef_wide k h.address, moveBy_eq h.address, stringStep_eq, getRef_wide h.address h.zext,
      hc, wide_add h.address]
  refine congrArg some ?_
  rw [element, transfer, hsource]
  refine State.ext ?_ fun f ↦ rfl
  have hrax (v : U64) : k.setRef rax i.width v s.core =
      s.core.write rax (writePart i.width (s.core.gpr rax) (v.setWidth i.width.bits)) := by
    rw [Config.setRef, k.merge_eq]
    rfl
  change k.setRef rsi i.addressWidth _ (k.setRef rax i.width _ s.core) = moveBy i rsi _ _
  rw [hrax]
  have hkept (v : U64) : (s.core.write rax v).gpr rsi = s.core.gpr rsi :=
    Function.update_of_ne (show rsi ≠ rax by decide) v s.core.gpr
  exact hrsi _ (hkept _)

/-- What a handler that gets past its assertions leaves. -/
theorem performs_exec (h : Called k i op s.core) (hlive : i.rep = .none → ∀ f, e f = true)
    (hlods : op = .lods → i.rep = .none) (hstays : Stays k i op s) :
    ∃ s', Instr.exec k e ⟨op.mnemonic, i⟩ s = some s' ∧
      (Performs k i op s s' ↔ Cleared i op s.core) := by
  by_cases hop : op = .lods
  · subst hop
    have hrep : i.rep = .none := hlods rfl
    refine ⟨_, exec_lods h, ?_⟩
    rw [Performs, if_pos hrep, Cleared]
    exact iff_of_true rfl fun _ ↦ ⟨fun _ hne ↦ absurd rfl hne, fun hne ↦ absurd hrep hne⟩
  refine ⟨_, exec_eq_put k e i op hop s, ?_⟩
  have hstart : (start k i s).regs.rcx = pointer i rcx s.core := start_regs h rcx
  by_cases hrep : i.rep = .none
  · rw [Performs, if_pos hrep, loop, stringRun, if_pos hrep, put_element h hop hlive, Cleared]
    exact forall_congr' fun _ ↦ ⟨fun hlow ↦ ⟨fun _ _ ↦ hlow, fun hne ↦ absurd hrep hne⟩,
      fun hr ↦ hr.1 hrep hop⟩
  rw [Performs, if_neg hrep]
  by_cases hcount : pointer i rcx s.core = 0
  · rw [if_pos hcount, loop, stringRun, if_neg hrep, if_pos (hstart.trans hcount), put_start h,
      Cleared]
    exact forall_congr' fun _ ↦ ⟨fun hlow ↦ ⟨fun hnone ↦ absurd hnone hrep, fun _ _ ↦ hlow⟩,
      fun hr ↦ hr.2 hrep hcount⟩
  · rw [if_neg hcount]
    exact iff_of_true (until_put h hop hrep hcount hstays)
      fun _ ↦ ⟨fun hnone ↦ absurd hnone hrep, fun _ hzero ↦ absurd hzero hcount⟩

/-- **String instructions.** The handler is emitted and its loop ends if and only if no assertion
stops it. As long as the pointers stay inside the address size it then does what the manual says, if
and only if it puts back no upper half that should be kept. -/
theorem string_performs (h : Called k i op s.core) (hlive : i.rep = .none → ∀ f, e f = true)
    (hstays : Stays k i op s) :
    ((handler k e i op s).isSome ↔ ¬Stops k i op) ∧
      ((∃ s', handler k e i op s = some s' ∧ Performs k i op s s') ↔
        ¬Stops k i op ∧ Cleared i op s.core) := by
  have hemitted := registers_isSome h.width hlive op
  by_cases hstops : Stops k i op
  · have hnone : handler k e i op s = none := if_neg fun hsome ↦ hemitted.mp hsome hstops
    rw [hnone]
    refine ⟨iff_of_false (by simp) fun hnot ↦ hnot hstops, iff_of_false ?_ fun hr ↦ hr.1 hstops⟩
    rintro ⟨s', hs', -⟩
    cases hs'
  · have hlods : op = .lods → i.rep = .none := fun hop ↦
      of_not_not fun hrep ↦ hstops (.inl ⟨hop, hrep⟩)
    obtain ⟨s', hexec, hperforms⟩ := performs_exec h hlive hlods hstays
    have hsome : handler k e i op s = some s' := (if_pos (hemitted.mpr hstops)).trans hexec
    rw [hsome, ← hperforms]
    refine ⟨iff_of_true rfl hstops, fun ⟨t, ht, hp⟩ ↦ ⟨hstops, ?_⟩, fun hr ↦ ⟨s', rfl, hr.2⟩⟩
    exact Option.some.inj ht ▸ hp

end Strings

/-! ### Three instructions -/

namespace Strings

/-- A byte instruction with the given prefix and address size. -/
def byteInsn (p : Rep) (addressWidth : Size) : Insn :=
  ⟨0, 0, 2, .byte, addressWidth, false, false, p,
    .mem ⟨.reg rdi addressWidth, none, 0, 0, .es⟩ .byte, .mem ⟨.reg rsi addressWidth, none, 0, 0,
      .ds⟩ .byte, .imm 0 .byte⟩

/-- The source is a page of sevens at `0x10000`, and the destination the page after it. -/
def counted (n : U64) : State Unit :=
  State.zero.map fun c ↦ (({ c with mem := fun a ↦ if a.toNat / 4096 = 16 then 7 else 0 }.write
    rsi 0x10000).write rdi 0x11000).write rcx n

theorem called_byteInsn (op : StringOp) (p : Rep) {addressWidth : Size} (n : U64)
    (h : addressWidth = .dword ∨ addressWidth = .qword) :
    Called (Config.default false) (byteInsn p addressWidth) op (counted n).core where
  width := h.imp_right fun hq ↦ ⟨by decide, hq⟩
  zext hmode := absurd hmode (by decide)
  source _ := by cases op <;> rfl
  dest _ := rfl

/-- Under a prefix three bytes are moved as they should be. A single one with 32-bit addresses
clears the upper half of `RCX`, and a comparison with 32-bit addresses is not emitted. -/
theorem string_performs_movsb :
    (∃ s', handler (Config.default false) live (byteInsn .rep .qword) .movs (counted 3) = some s' ∧
      Performs (Config.default false) (byteInsn .rep .qword) .movs (counted 3) s') ∧
    (¬∃ s', handler (Config.default false) live (byteInsn .none .dword) .movs (counted (1 <<< 32)) =
        some s' ∧
      Performs (Config.default false) (byteInsn .none .dword) .movs (counted (1 <<< 32)) s') ∧
    handler (Config.default false) live (byteInsn .none .dword) .cmps (counted 3) = none := by
  have hlive (i : Insn) (_ : i.rep = .none) (f : Flag) : live f = true := rfl
  obtain ⟨-, hiff₁⟩ := string_performs (called_byteInsn .movs .rep 3 (.inr rfl)) (hlive _)
    fun _ _ _ _ hq ↦ absurd rfl hq
  obtain ⟨-, hiff₂⟩ := string_performs (called_byteInsn .movs .none (1 <<< 32) (.inl rfl)) (hlive _)
    fun hrep ↦ absurd rfl hrep
  obtain ⟨hsome, -⟩ := string_performs (called_byteInsn .cmps .none 3 (.inl rfl)) (hlive _)
    fun hrep ↦ absurd rfl hrep
  refine ⟨hiff₁.mpr ⟨by decide, fun hd ↦ absurd hd (by decide)⟩, fun hs ↦ ?_, ?_⟩
  · exact absurd (((hiff₂.mp hs).2 rfl).1 rfl (by decide)) (by decide)
  · refine Option.not_isSome_iff_eq_none.mp fun h ↦ hsome.mp h ?_
    exact .inr ⟨by decide, rfl, .inl rfl⟩

end Strings

end Jit

end Felix86
