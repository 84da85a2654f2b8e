import Felix86.Hle.SignalContext
import Felix86.Lib.Run
import Mathlib.Data.Fin.Basic
import Mathlib.Tactic.FinCases

/-!
# The x87 stack and the MMX registers

The processor has eight physical registers and a top of stack; `ST(i)` is the register `TOP + i` and
`MM(i)` is the register `i`. The emulator keeps `ST(0)` to `ST(7)` in floating-point registers of
the host and `MM0` to `MM7` in vector registers, rotates the first on every push and pop, and copies
one set to the other when an instruction of the other kind comes. Of a register it keeps 64 bits,
and it is those that the two sets share; the contents are a parameter here.

A push and a pop rotate as they should. The copies do not rotate at all: they are right when the top
of the stack is 0. The same holds for the instructions that change `fpu_top` without moving the
registers.
-/

namespace Felix86

namespace X87Stack

/-- Eight registers. -/
abbrev File (α : Type*) := Fin 8 → α

variable {α : Type*}

/-! ## Guest instructions -/

/-- What an x87 handler does to the stack. The values pushed and written may depend on the
registers. `fnsave` is counted as `fninit`: the processor initialises after saving. -/
inductive X87Op (α : Type*)
  | pushX87 (value : File α → α)
  | popX87
  | decrementTOP
  | setST (i : Fin 8) (value : File α → α)
  | fxch (i : Fin 8)
  | readST (i : Fin 8)
  | fcom
  | fninit
  | fldenv (top : Fin 8)
  | frstor (top : Fin 8) (st : File α)

/-- What an MMX handler does to the registers. -/
inductive MmxOp (α : Type*)
  | setMM (i : Fin 8) (value : File α → α)
  | readMM (i : Fin 8)

/-- A guest instruction, by what `compileSequence` takes it for. `EMMS` and `FXRSTOR` have no MMX
operand and are no x87 instructions. -/
inductive Insn (α : Type*)
  | x87 (ops : List (X87Op α))
  | mmx (ops : List (MmxOp α))
  | emms
  | fxrstor (top : Fin 8) (st : File α)
  | other

/-! ## Compilation -/

/-- Emitted code. -/
inductive Code (α : Type*)
  | switchToMMX
  | switchToX87
  | body (insn : Insn α)

/-- `local_x87_state`, where `none` is `Unknown`, and the switches in front of an instruction. -/
def switches (known : Option X87State) : Insn α → List (Code α) × Option X87State
  | .x87 _ => (if known = some .x87 then [] else [.switchToX87], some .x87)
  | .mmx _ => (if known = some .mmx then [] else [.switchToMMX], some .mmx)
  -- the handler of `EMMS` is a switch and nothing else
  | .emms => ([.switchToX87], some .x87)
  | .fxrstor _ _ => ([], known)
  | .other => ([], known)

/-- The loop of `compileSequence`. -/
def compileLoop : Option X87State → List (Insn α) → List (Code α)
  | _, [] => []
  | known, insn :: rest =>
    let (code, known) := switches known insn
    code ++ .body insn :: compileLoop known rest

/-- `compileSequence`: at the start of a block nothing is known. -/
def compileSequence (block : List (Insn α)) : List (Code α) := compileLoop none block

/-! ## The host -/

/-- The registers of the host, `fpu_top` and `x87_state`. -/
structure Host (α : Type*) where
  st : File α
  mm : File α
  top : BitVec 8
  x87State : X87State

/-- `FMV_D`. -/
def fmv (dst src : Fin 8) (st : File α) : File α := Function.update st dst (st src)

/-- A sequence of them. -/
def fmvs (moves : List (Fin 8 × Fin 8)) (st : File α) : File α :=
  moves.foldl (fun st move ↦ fmv move.1 move.2 st) st

namespace Host

variable (h : Host α)

/-- `pushX87`. -/
def pushX87 (value : α) : Host α :=
  let st := fmvs [(7, 6), (6, 5), (5, 4), (4, 3), (3, 2), (2, 1), (1, 0)] h.st
  { h with st := Function.update st 0 value, top := (h.top - 1) &&& 0b111#8 }

/-- `popX87`. -/
def popX87 : Host α :=
  let temp := h.st 0
  let st := fmvs [(0, 1), (1, 2), (2, 3), (3, 4), (4, 5), (5, 6), (6, 7)] h.st
  { h with st := Function.update st 7 temp, top := (h.top + 1) &&& 0b111#8 }

/-- `decrementTOP`. -/
def decrementTOP : Host α :=
  let temp := h.st 0
  let st := fmvs [(0, 7), (7, 6), (6, 5), (5, 4), (4, 3), (3, 2), (2, 1)] h.st
  { h with st := Function.update st 1 temp, top := (h.top - 1) &&& 0b111#8 }

/-- `fxch`: through a temporary. -/
def fxch (i : Fin 8) : Host α :=
  let temp := h.st 0
  { h with st := Function.update (fmv 0 i h.st) i temp }

/-- The helper writes `ThreadState::fp`, and `restoreState` loads the set `x87_state` says. -/
def restore (top : Fin 8) (fp : File α) : Host α :=
  match h.x87State with
  | .x87 => { h with st := fp, top := BitVec.ofNat 8 top }
  | .mmx => { h with mm := fp, top := BitVec.ofNat 8 top }

/-- `switchToMMX`. -/
def switchToMMX : Host α :=
  if h.x87State = .mmx then h else { h with mm := h.st, top := 0, x87State := .mmx }

/-- `switchToX87`. -/
def switchToX87 : Host α :=
  if h.x87State = .x87 then h else { h with st := h.mm, x87State := .x87 }

/-- One operation of an x87 handler. A comparison stores 32 bits to `fpu_sw` and clears the byte
behind it; `FNINIT` does not touch the stack. -/
def x87Op : X87Op α → Host α
  | .pushX87 value => h.pushX87 (value h.st)
  | .popX87 => h.popX87
  | .decrementTOP => h.decrementTOP
  | .setST i value => { h with st := Function.update h.st i (value h.st) }
  | .fxch i => h.fxch i
  | .readST _ => h
  | .fcom => { h with top := 0 }
  | .fninit => h
  | .fldenv top => { h with top := BitVec.ofNat 8 top }
  | .frstor top st => h.restore top st

/-- One operation of an MMX handler. -/
def mmxOp : MmxOp α → Host α
  | .setMM i value => { h with mm := Function.update h.mm i (value h.mm) }
  | .readMM _ => h

end Host

/-! ## The processor -/

/-- The physical registers and the top of the stack. -/
structure Phys (α : Type*) where
  r : File α
  top : Fin 8

namespace Phys

variable (p : Phys α)

/-- `ST(i)`. -/
def st : File α := fun i ↦ p.r (p.top + i)

/-- `FRSTOR` and `FXRSTOR`: the images hold the registers in stack order. -/
def restore (top : Fin 8) (st : File α) : Phys α := ⟨fun j ↦ st (j - top), top⟩

/-- One operation of an x87 instruction. -/
def x87Op : X87Op α → Phys α
  | .pushX87 value => ⟨Function.update p.r (p.top - 1) (value p.st), p.top - 1⟩
  | .popX87 => { p with top := p.top + 1 }
  | .decrementTOP => { p with top := p.top - 1 }
  | .setST i value => { p with r := Function.update p.r (p.top + i) (value p.st) }
  | .fxch i =>
    { p with r := Function.update (Function.update p.r p.top (p.st i)) (p.top + i) (p.st 0) }
  | .readST _ => p
  | .fcom => p
  | .fninit => { p with top := 0 }
  | .fldenv top => { p with top := top }
  | .frstor top st => restore top st

/-- One operation of an MMX instruction. -/
def mmxOp : MmxOp α → Phys α
  | .setMM i value => { p with r := Function.update p.r i (value p.r) }
  | .readMM _ => p

end Phys

/-! ## Runs -/

/-- The host, the processor that has executed the same instructions, the rest of the block, and
every register that was read, on both sides. -/
structure Machine (α : Type*) where
  host : Host α
  phys : Phys α
  code : List (Code α)
  reads : List (α × α)

namespace Machine

variable (s : Machine α)

/-- A new thread: MMX is active and the top of the stack is 0. -/
def initial (st file : File α) : Machine α := ⟨⟨st, file, 0, .mmx⟩, ⟨file, 0⟩, [], []⟩

/-- One operation of an x87 instruction on both sides. -/
def x87Op (op : X87Op α) : Machine α :=
  { s with
    host := s.host.x87Op op
    phys := s.phys.x87Op op
    reads := match op with
      | .readST i => s.reads ++ [(s.host.st i, s.phys.st i)]
      | _ => s.reads }

/-- One operation of an MMX instruction on both sides. -/
def mmxOp (op : MmxOp α) : Machine α :=
  { s with
    host := s.host.mmxOp op
    phys := s.phys.mmxOp op
    reads := match op with
      | .readMM i => s.reads ++ [(s.host.mm i, s.phys.r i)]
      | _ => s.reads }

/-- The instruction itself. On the processor every MMX instruction sets the top of the stack to
0. -/
def insn : Insn α → Machine α
  | .x87 ops => ops.foldl x87Op s
  | .mmx ops => ops.foldl mmxOp { s with phys := { s.phys with top := 0 } }
  | .emms => s
  | .fxrstor top st => { s with host := s.host.restore top st, phys := .restore top st }
  | .other => s

/-- One piece of emitted code. -/
def exec : Code α → Machine α
  | .switchToMMX => { s with host := s.host.switchToMMX }
  | .switchToX87 => { s with host := s.host.switchToX87 }
  | .body i => s.insn i

/-- What happens next: the rest of the block goes on, or the next block starts. -/
inductive Event (α : Type*)
  | exec (code : Code α)
  | jump (block : List (Insn α))

/-- One step. -/
inductive Step : Machine α → Event α → Machine α → Prop
  | exec {s : Machine α} {code : Code α} {rest : List (Code α)} (h : s.code = code :: rest) :
      Step s (.exec code) ({ s with code := rest }.exec code)
  | jump {s : Machine α} {block : List (Insn α)} (h : s.code = []) :
      Step s (.jump block) { s with code := compileSequence block }

/-- The two sides have the same registers, in the set that is active, and the same top of stack, and
every read gave the right value. -/
structure Refines (s : Machine α) : Prop where
  top : s.host.top = BitVec.ofNat 8 s.phys.top
  x87 : s.host.x87State = .x87 → s.host.st = s.phys.st
  mmx : s.host.x87State = .mmx → s.host.mm = s.phys.r ∧ s.phys.top = 0
  reads : ∀ r ∈ s.reads, r.1 = r.2

end Machine

/-- A comparison and `FNINIT` want the top of the stack at 0, and `FLDENV` where it is. -/
def Host.OpOk (h : Host α) : X87Op α → Prop
  | .fcom => h.top = 0
  | .fninit => h.top = 0
  | .fldenv top => h.top = BitVec.ofNat 8 top
  | _ => True

/-- The operations of one instruction, each in the state the ones before it leave. -/
def Host.OpsOk : Host α → List (X87Op α) → Prop
  | _, [] => True
  | h, op :: rest => h.OpOk op ∧ (h.x87Op op).OpsOk rest

/-- The top of the stack is 0 when the x87 registers become MMX registers, and an `FXRSTOR` loads 0
when MMX is active. -/
def Machine.StepOk (s : Machine α) : Machine.Event α → Prop
  | .exec .switchToMMX => s.host.x87State = .mmx ∨ s.host.top = 0
  | .exec (.body (.x87 ops)) => s.host.OpsOk ops
  | .exec (.body (.fxrstor top _)) => s.host.x87State = .mmx → top = 0
  | _ => True

/-! ## The emitted code is in the right mode -/

/-- The registers an instruction works on. -/
def Insn.needs : Insn α → Option X87State
  | .x87 _ => some .x87
  | .mmx _ => some .mmx
  | _ => none

/-- Code that finds the right set active at every instruction, if it starts with what is `known`. -/
inductive Moded : Option X87State → List (Code α) → Prop
  | nil (known : Option X87State) : Moded known []
  | switchToMMX {known : Option X87State} {rest : List (Code α)} (h : Moded (some .mmx) rest) :
      Moded known (.switchToMMX :: rest)
  | switchToX87 {known : Option X87State} {rest : List (Code α)} (h : Moded (some .x87) rest) :
      Moded known (.switchToX87 :: rest)
  | body {known : Option X87State} {insn : Insn α} {rest : List (Code α)}
      (hneeds : insn.needs = none ∨ insn.needs = known) (h : Moded known rest) :
      Moded known (.body insn :: rest)

theorem moded_compileLoop (known : Option X87State) (block : List (Insn α)) :
    Moded known (compileLoop known block) := by
  induction block generalizing known with
  | nil => exact .nil known
  | cons insn rest ih =>
    cases insn with
    | x87 ops =>
      have hbody : Moded (some .x87) (.body (.x87 ops) :: compileLoop (some .x87) rest) :=
        .body (.inr rfl) (ih _)
      by_cases hknown : known = some .x87
      · simpa [compileLoop, switches, hknown] using hbody
      · simpa [compileLoop, switches, hknown] using Moded.switchToX87 hbody
    | mmx ops =>
      have hbody : Moded (some .mmx) (.body (.mmx ops) :: compileLoop (some .mmx) rest) :=
        .body (.inr rfl) (ih _)
      by_cases hknown : known = some .mmx
      · simpa [compileLoop, switches, hknown] using hbody
      · simpa [compileLoop, switches, hknown] using Moded.switchToMMX hbody
    | emms => exact .switchToX87 (.body (.inl rfl) (ih _))
    | fxrstor top st => exact .body (.inl rfl) (ih _)
    | other => exact .body (.inl rfl) (ih _)

/-! ## One operation -/

namespace Host

variable (h : Host α)

theorem st_pushX87 (value : α) :
    (h.pushX87 value).st = fun i ↦ if i = 0 then value else h.st (i - 1) := by
  funext i
  fin_cases i <;> rfl

theorem st_popX87 : h.popX87.st = fun i ↦ h.st (i + 1) := by
  funext i
  fin_cases i <;> rfl

theorem st_decrementTOP : h.decrementTOP.st = fun i ↦ h.st (i - 1) := by
  funext i
  fin_cases i <;> rfl

variable {h} in
theorem restore_x87 (hx : h.x87State = .x87) (top : Fin 8) (fp : File α) :
    h.restore top fp = { h with st := fp, top := BitVec.ofNat 8 top } := by
  rw [restore, hx]

variable {h} in
theorem restore_mmx (hm : h.x87State = .mmx) (top : Fin 8) (fp : File α) :
    h.restore top fp = { h with mm := fp, top := BitVec.ofNat 8 top } := by
  rw [restore, hm]

theorem top_sub_one (top : Fin 8) :
    (BitVec.ofNat 8 top - 1) &&& 0b111#8 = BitVec.ofNat 8 (top - 1 : Fin 8) := by
  revert top
  decide

theorem top_add_one (top : Fin 8) :
    (BitVec.ofNat 8 top + 1) &&& 0b111#8 = BitVec.ofNat 8 (top + 1 : Fin 8) := by
  revert top
  decide

theorem top_inj {top other : Fin 8} (h : BitVec.ofNat 8 top = BitVec.ofNat 8 other) :
    top = other := by
  revert top other
  decide

theorem top_eq_zero {top : Fin 8} (h : BitVec.ofNat 8 top = 0) : top = 0 := @top_inj top 0 h

end Host

namespace Phys

variable (p : Phys α)

/-- A write to `ST(i)` changes that register of the stack and no other. -/
theorem st_update (i : Fin 8) (value : α) :
    ({ p with r := Function.update p.r (p.top + i) value } : Phys α).st =
      Function.update p.st i value := by
  funext j
  by_cases hj : j = i
  · subst hj
    simp [st]
  · have hne : p.top + j ≠ p.top + i := fun h ↦ hj (add_left_cancel h)
    simp [st, Function.update_of_ne hj, Function.update_of_ne hne]

theorem st_fxch (i : Fin 8) :
    (p.x87Op (.fxch i)).st = Function.update (Function.update p.st 0 (p.st i)) i (p.st 0) := by
  have hfirst : ({ p with r := Function.update p.r p.top (p.st i) } : Phys α).st =
      Function.update p.st 0 (p.st i) := by
    have hupdate := p.st_update 0 (p.st i)
    rwa [add_zero] at hupdate
  rw [← hfirst]
  exact st_update { p with r := Function.update p.r p.top (p.st i) } i (p.st 0)

theorem st_push (value : α) :
    (⟨Function.update p.r (p.top - 1) value, p.top - 1⟩ : Phys α).st =
      fun i ↦ if i = 0 then value else p.st (i - 1) := by
  funext i
  by_cases hi : i = 0
  · simp [st, hi]
  · have hne : p.top - 1 + i ≠ p.top - 1 := fun h ↦ hi (by simpa using h)
    have hadd : p.top - 1 + i = p.top + (i - 1) := by rw [sub_add_eq_add_sub, add_sub_assoc]
    rw [if_neg hi]
    exact (Function.update_of_ne hne _ _).trans (congrArg p.r hadd)

theorem st_add_one : ({ p with top := p.top + 1 } : Phys α).st = fun i ↦ p.st (i + 1) := by
  funext i
  simp only [st, add_assoc, add_comm 1 i]

theorem st_sub_one : ({ p with top := p.top - 1 } : Phys α).st = fun i ↦ p.st (i - 1) := by
  funext i
  simp only [st, sub_add_eq_add_sub, add_sub_assoc]

theorem st_restore (top : Fin 8) (fp : File α) : (restore top fp).st = fp := by
  funext i
  simp [st, restore]

end Phys

namespace Machine

variable {s t : Machine α}

/-- Between operations of an x87 instruction. -/
structure OnStack (s : Machine α) : Prop where
  active : s.host.x87State = .x87
  top : s.host.top = BitVec.ofNat 8 s.phys.top
  st : s.host.st = s.phys.st
  reads : ∀ r ∈ s.reads, r.1 = r.2

/-- Between operations of an MMX instruction. -/
structure OnMmx (s : Machine α) : Prop where
  active : s.host.x87State = .mmx
  top : s.host.top = BitVec.ofNat 8 s.phys.top
  zero : s.phys.top = 0
  mm : s.host.mm = s.phys.r
  reads : ∀ r ∈ s.reads, r.1 = r.2

theorem OnStack.refines (h : s.OnStack) : s.Refines :=
  ⟨h.top, fun _ ↦ h.st, fun hm ↦ absurd (h.active.symm.trans hm) (by decide), h.reads⟩

theorem OnMmx.refines (h : s.OnMmx) : s.Refines :=
  ⟨h.top, fun hx ↦ absurd (h.active.symm.trans hx) (by decide), fun _ ↦ ⟨h.mm, h.zero⟩, h.reads⟩

theorem Refines.onStack (h : s.Refines) (hx : s.host.x87State = .x87) : s.OnStack :=
  ⟨hx, h.top, h.x87 hx, h.reads⟩

theorem Refines.onMmx (h : s.Refines) (hm : s.host.x87State = .mmx) : s.OnMmx :=
  ⟨hm, h.top, (h.mmx hm).2, (h.mmx hm).1, h.reads⟩

theorem OnStack.x87Op (h : s.OnStack) {op : X87Op α} (hok : s.host.OpOk op) :
    (s.x87Op op).OnStack := by
  have htop : s.host.top = BitVec.ofNat 8 s.phys.top := h.top
  cases op with
  | pushX87 value =>
    refine ⟨h.active, ?_, ?_, h.reads⟩
    · exact (congrArg (fun top ↦ (top - 1) &&& 0b111#8) htop).trans (Host.top_sub_one _)
    · refine (Host.st_pushX87 _ _).trans ((Phys.st_push _ _).trans ?_).symm
      rw [h.st]
  | popX87 =>
    refine ⟨h.active, ?_, ?_, h.reads⟩
    · exact (congrArg (fun top ↦ (top + 1) &&& 0b111#8) htop).trans (Host.top_add_one _)
    · refine (Host.st_popX87 _).trans ((Phys.st_add_one _).trans ?_).symm
      rw [h.st]
  | decrementTOP =>
    refine ⟨h.active, ?_, ?_, h.reads⟩
    · exact (congrArg (fun top ↦ (top - 1) &&& 0b111#8) htop).trans (Host.top_sub_one _)
    · refine (Host.st_decrementTOP _).trans ((Phys.st_sub_one _).trans ?_).symm
      rw [h.st]
  | setST i value =>
    refine ⟨h.active, h.top, ?_, h.reads⟩
    refine Eq.trans ?_ (Phys.st_update _ _ _).symm
    rw [← h.st]
    rfl
  | fxch i =>
    refine ⟨h.active, h.top, (Eq.trans ?_ (Phys.st_fxch _ _).symm), h.reads⟩
    rw [← h.st]
    rfl
  | readST i =>
    refine ⟨h.active, h.top, h.st, fun r hr ↦ ?_⟩
    rcases List.mem_append.mp hr with hold | hnew
    · exact h.reads r hold
    · obtain rfl := List.mem_singleton.mp hnew
      exact congrFun h.st i
  | fcom =>
    have hzero : s.host.top = 0 := hok
    exact ⟨h.active, hzero.symm.trans h.top, h.st, h.reads⟩
  | fninit =>
    have hzero : s.host.top = 0 := hok
    have hphys : s.phys.top = 0 := Host.top_eq_zero (h.top.symm.trans hzero)
    have hsame : s.phys.x87Op .fninit = s.phys := by rw [Phys.x87Op, ← hphys]
    exact ⟨h.active, hzero, h.st.trans (congrArg Phys.st hsame.symm), h.reads⟩
  | fldenv top =>
    have heq : s.host.top = BitVec.ofNat 8 top := hok
    have hphys : s.phys.top = top := Host.top_inj (h.top.symm.trans heq)
    have hsame : s.phys.x87Op (.fldenv top) = s.phys := by rw [Phys.x87Op, ← hphys]
    exact ⟨h.active, rfl, h.st.trans (congrArg Phys.st hsame.symm), h.reads⟩
  | frstor top st =>
    have hhost : s.host.x87Op (.frstor top st) =
        { s.host with st := st, top := BitVec.ofNat 8 top } := by
      rw [Host.x87Op, Host.restore_x87 h.active]
    refine ⟨?_, ?_, ?_, h.reads⟩
    · exact (congrArg Host.x87State hhost).trans h.active
    · exact congrArg Host.top hhost
    · exact (congrArg Host.st hhost).trans (Phys.st_restore top st).symm

/-- All operations of an x87 instruction. -/
theorem OnStack.foldl (h : s.OnStack) {ops : List (X87Op α)} (hok : s.host.OpsOk ops) :
    (ops.foldl Machine.x87Op s).OnStack := by
  induction ops generalizing s with
  | nil => exact h
  | cons op rest ih => exact ih (h.x87Op hok.1) hok.2

theorem OnMmx.mmxOp (h : s.OnMmx) (op : MmxOp α) : (s.mmxOp op).OnMmx := by
  cases op with
  | setMM i value =>
    refine ⟨h.active, h.top, h.zero, ?_, h.reads⟩
    exact congrArg (fun mm ↦ Function.update mm i (value mm)) h.mm
  | readMM i =>
    refine ⟨h.active, h.top, h.zero, h.mm, fun r hr ↦ ?_⟩
    rcases List.mem_append.mp hr with hold | hnew
    · exact h.reads r hold
    · obtain rfl := List.mem_singleton.mp hnew
      exact congrFun h.mm i

/-- All operations of an MMX instruction. -/
theorem OnMmx.foldl (h : s.OnMmx) (ops : List (MmxOp α)) : (ops.foldl Machine.mmxOp s).OnMmx := by
  induction ops generalizing s with
  | nil => exact h
  | cons op rest ih => exact ih (h.mmxOp op)

/-! ## One step -/

/-- With the top of the stack at 0 the two numberings are one. -/
theorem st_eq_r {p : Phys α} (h : p.top = 0) : p.st = p.r := by
  funext i
  rw [Phys.st, h, zero_add]

theorem Refines.switchToMMX (h : s.Refines) (hok : s.host.x87State = .mmx ∨ s.host.top = 0) :
    (s.exec .switchToMMX).Refines ∧ (s.exec .switchToMMX).host.x87State = .mmx := by
  by_cases hm : s.host.x87State = .mmx
  · have hsame : s.host.switchToMMX = s.host := if_pos hm
    rw [exec, hsame]
    exact ⟨h, hm⟩
  · have hx : s.host.x87State = .x87 := by
      cases hs : s.host.x87State with
      | x87 => rfl
      | mmx => exact absurd hs hm
    have htop : s.phys.top = 0 := Host.top_eq_zero (h.top.symm.trans (hok.resolve_left hm))
    have hhost : s.host.switchToMMX = { s.host with mm := s.host.st, top := 0, x87State := .mmx } :=
      if_neg hm
    rw [exec, hhost]
    have hmm : s.host.st = s.phys.r := (h.x87 hx).trans (st_eq_r htop)
    exact ⟨OnMmx.refines ⟨rfl, by rw [htop]; rfl, htop, hmm, h.reads⟩, rfl⟩

theorem Refines.switchToX87 (h : s.Refines) :
    (s.exec .switchToX87).Refines ∧ (s.exec .switchToX87).host.x87State = .x87 := by
  by_cases hx : s.host.x87State = .x87
  · have hsame : s.host.switchToX87 = s.host := if_pos hx
    rw [exec, hsame]
    exact ⟨h, hx⟩
  · have hm : s.host.x87State = .mmx := by
      cases hs : s.host.x87State with
      | x87 => exact absurd hs hx
      | mmx => rfl
    have hhost : s.host.switchToX87 = { s.host with st := s.host.mm, x87State := .x87 } := if_neg hx
    rw [exec, hhost]
    obtain ⟨hmm, htop⟩ := h.mmx hm
    exact ⟨OnStack.refines ⟨rfl, h.top, hmm.trans (st_eq_r htop).symm, h.reads⟩, rfl⟩

theorem Refines.fxrstor (h : s.Refines) {top : Fin 8} {st : File α}
    (hok : s.host.x87State = .mmx → top = 0) :
    (s.insn (.fxrstor top st)).Refines ∧
      (s.insn (.fxrstor top st)).host.x87State = s.host.x87State := by
  cases hs : s.host.x87State with
  | x87 =>
    rw [insn, Host.restore_x87 hs]
    exact ⟨OnStack.refines ⟨hs, rfl, (Phys.st_restore top st).symm, h.reads⟩, hs⟩
  | mmx =>
    obtain rfl := hok hs
    rw [insn, Host.restore_mmx hs]
    refine ⟨OnMmx.refines ⟨hs, rfl, rfl, ?_, h.reads⟩, hs⟩
    funext j
    exact congrArg st (sub_zero j).symm

/-- An instruction that finds the set of registers it needs. -/
theorem Refines.insn {i : Insn α} (h : s.Refines) (hneeds : ∀ m ∈ i.needs, s.host.x87State = m)
    (hok : s.StepOk (.exec (.body i))) :
    (s.insn i).Refines ∧ (s.insn i).host.x87State = s.host.x87State := by
  cases i with
  | x87 ops =>
    have hstack := (h.onStack (hneeds _ rfl)).foldl hok
    exact ⟨hstack.refines, hstack.active.trans (hneeds _ rfl).symm⟩
  | mmx ops =>
    have hmmx := h.onMmx (hneeds _ rfl)
    have hzero : ({ s with phys := { s.phys with top := 0 } } : Machine α) = s := by
      rw [← hmmx.zero]
    rw [Machine.insn, hzero]
    exact ⟨(hmmx.foldl ops).refines, (hmmx.foldl ops).active.trans hmmx.active.symm⟩
  | emms => exact ⟨h, rfl⟩
  | fxrstor top st => exact h.fxrstor hok
  | other => exact ⟨h, rfl⟩

theorem code_insn (s : Machine α) (i : Insn α) : (s.insn i).code = s.code := by
  cases i with
  | x87 ops =>
    rw [insn]
    induction ops generalizing s with
    | nil => rfl
    | cons op rest ih => exact ih (s.x87Op op)
  | mmx ops =>
    rw [insn]
    generalize hs : ({ s with phys := { s.phys with top := 0 } } : Machine α) = t
    have hcode : t.code = s.code := by rw [← hs]
    rw [← hcode]
    clear hs hcode
    induction ops generalizing t with
    | nil => rfl
    | cons op rest ih => exact ih (t.mmxOp op)
  | emms => rfl
  | fxrstor top st => rfl
  | other => rfl

/-- The refinement, and the rest of the block is in the right mode. -/
structure Inv (s : Machine α) : Prop where
  refines : s.Refines
  moded : ∃ known, Moded known s.code ∧ ∀ m ∈ known, s.host.x87State = m

theorem inv_initial (st file : File α) : (initial st file).Inv where
  refines := OnMmx.refines ⟨rfl, rfl, rfl, rfl, by simp [initial]⟩
  moded := ⟨none, .nil none, by simp⟩

theorem Inv.step {e : Event α} (h : s.Inv) (hstep : Guarded StepOk Step s e t) : t.Inv := by
  obtain ⟨hok, hstep⟩ := hstep
  obtain ⟨known, hmoded, hknown⟩ := h.moded
  cases hstep with
  | jump hcode =>
    exact ⟨⟨h.refines.top, h.refines.x87, h.refines.mmx, h.refines.reads⟩,
      none, moded_compileLoop none _, by simp⟩
  | @exec code rest hcode =>
    have hrest : ({ s with code := rest } : Machine α).Refines :=
      ⟨h.refines.top, h.refines.x87, h.refines.mmx, h.refines.reads⟩
    rw [hcode] at hmoded
    cases hmoded with
    | switchToMMX hmoded =>
      obtain ⟨hrefines, hactive⟩ := hrest.switchToMMX hok
      exact ⟨hrefines, some .mmx, hmoded, by simpa using hactive⟩
    | switchToX87 hmoded =>
      obtain ⟨hrefines, hactive⟩ := hrest.switchToX87
      exact ⟨hrefines, some .x87, hmoded, by simpa using hactive⟩
    | @body _ i _ hneeds hmoded =>
      have hfound : ∀ m ∈ i.needs, s.host.x87State = m := by
        obtain hnone | hsame := hneeds
        · simp [hnone]
        · rwa [hsame]
      obtain ⟨hrefines, hactive⟩ := hrest.insn hfound hok
      refine ⟨hrefines, known, ?_, fun m hm ↦ hactive.trans (hknown m hm)⟩
      exact (code_insn _ i).symm ▸ hmoded

/-- In every run over any blocks whose steps avoid the defects of `StepOk`, the emulated registers
are those of the processor. -/
theorem refines_of_run {st file : File α} {events : List (Event α)}
    (hrun : Run (Guarded StepOk Step) (initial st file) events s) : s.Refines :=
  (hrun.invariant (inv_initial st file) fun _ _ _ h hstep ↦ h.step hstep).refines

/-- One register is pushed, read and popped, and then read as `MM7`. -/
theorem refines_push_pop :
    ∃ s : Machine ℕ, Run (Guarded StepOk Step) (initial 0 0)
      [.jump [.x87 [.pushX87 1, .readST 0, .popX87]],
        .exec .switchToX87, .exec (.body (.x87 [.pushX87 1, .readST 0, .popX87])),
        .jump [.mmx [.readMM 7]],
        .exec .switchToMMX, .exec (.body (.mmx [.readMM 7]))] s ∧
      s.reads = [(1, 1), (1, 1)] ∧ s.Refines := by
  have hrun : Run (Guarded StepOk Step) (initial (0 : File ℕ) 0)
      [.jump [.x87 [.pushX87 1, .readST 0, .popX87]],
        .exec .switchToX87, .exec (.body (.x87 [.pushX87 1, .readST 0, .popX87])),
        .jump [.mmx [.readMM 7]],
        .exec .switchToMMX, .exec (.body (.mmx [.readMM 7]))] _ :=
    .cons ⟨trivial, .jump rfl⟩ (.cons ⟨trivial, .exec rfl⟩
      (.cons ⟨⟨trivial, trivial, trivial, trivial⟩, .exec rfl⟩ (.cons ⟨trivial, .jump rfl⟩
        (.cons ⟨.inr (by decide), .exec rfl⟩ (.single ⟨trivial, .exec rfl⟩)))))
  exact ⟨_, hrun, by decide, refines_of_run hrun⟩

/-- A register is pushed, which puts it in the seventh physical register, and found in `MM0`. -/
theorem not_refines_push :
    ∃ s : Machine ℕ, Run Step (initial 0 0)
      [.jump [.x87 [.pushX87 1]], .exec .switchToX87, .exec (.body (.x87 [.pushX87 1])),
        .jump [.mmx [.readMM 0]], .exec .switchToMMX, .exec (.body (.mmx [.readMM 0]))] s ∧
      s.reads = [(1, 0)] ∧ ¬s.Refines := by
  refine ⟨_, .cons (.jump rfl) (.cons (.exec rfl) (.cons (.exec rfl) (.cons (.jump rfl)
    (.cons (.exec rfl) (.single (.exec rfl)))))), by decide, fun h ↦ ?_⟩
  exact absurd (h.reads (1, 0) (by decide)) (by decide)

end Machine

end X87Stack

end Felix86
