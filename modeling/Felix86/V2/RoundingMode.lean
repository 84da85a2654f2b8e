import Felix86.Lib.Run
import Mathlib.Data.BitVec
import Mathlib.Data.Option.Basic

/-!
# The rounding mode

The guest has two rounding modes, one in `MXCSR` and one in the x87 control word; the host has one,
in `frm`. `compileSequence` keeps a compile-time flag, `fsrm_sse`, that says which of the two is in
`frm` at this point of the block, and emits a reload when an instruction of the other kind comes.
The flag is reset to SSE at the start of every block. That the hardware agrees with it there is true
after the dispatcher's slow path, which reloads `frm`, but a link or a hit in the address cache goes
straight from one block to the next.

This file has the emitted code as far as it concerns `frm`, the machine that runs it, and the
condition under which the flag is right at run time. The argument is a typing of emitted code:
`Moded` says that a piece of code run with the mode `m` in `frm` finds at every classified
instruction the mode it needs, and `compileSequence` produces only such code.
-/

namespace Felix86

/-- The rounding modes both sides have, in RISC-V's order. -/
inductive RMode
  | rne
  | rtz
  | rdn
  | rup
deriving DecidableEq, Repr

namespace RMode

/-- `rounding_mode`, on the two bits of a control word. -/
def ofX86 (rc : BitVec 2) : RMode :=
  match rc.toNat with
  | 0 => rne
  | 1 => rdn
  | 2 => rup
  | _ => rtz

/-- The mode with the given RISC-V encoding. -/
def ofBits (bits : BitVec 2) : RMode :=
  match bits.toNat with
  | 0 => rne
  | 1 => rtz
  | 2 => rdn
  | _ => rup

/-- The table lookup of `FLDCW` and `LDMXCSR`: `0b01111000` shifted by twice the control bits. -/
def ofTable (rc : BitVec 2) : RMode := ofBits ((0b01111000#8 >>> (2 * rc.toNat)).setWidth 2)

/-- The inlined table and `rounding_mode` are the same function. -/
theorem ofTable_eq_ofX86 (rc : BitVec 2) : ofTable rc = ofX86 rc := by
  revert rc
  decide

end RMode

namespace Rounding

/-- Which of the two modes. -/
inductive Unit
  | sse
  | x87
deriving DecidableEq, Repr

/-- What `compileSequence` classifies an instruction as. -/
inductive Class
  | sse
  | x87
  | neither
deriving DecidableEq, Repr

/-- Guest instructions, told apart by what they do to the rounding modes. The plain ones may call a
helper, which ends in `restoreState`. `fldenv` is also `FRSTOR`. -/
inductive Guest
  | plain (class_ : Class) (helper : Bool)
  | fldcw
  | fninit
  | fldenv
  | ldmxcsr
  | fxrstor
deriving DecidableEq, Repr

/-- `is_x87` and `is_sse`. `LDMXCSR` and `FXRSTOR` have no XMM operand. -/
def Guest.class_ : Guest → Class
  | .plain c _ => c
  | .fldcw => .x87
  | .fninit => .x87
  | .fldenv => .x87
  | .ldmxcsr => .neither
  | .fxrstor => .neither

/-- Emitted code. `body` is where the instruction itself executes, `load` is a reload of `frm` from
the thread state, the others are the handlers of the control instructions. -/
inductive Op
  | body (class_ : Class)
  | load (unit_ : Unit)
  | fldcw
  | fninit
  | ldmxcsr
  | callFldenv
  | callFxrstor
deriving DecidableEq, Repr

/-! ## Compilation -/

/-- The unit whose mode `fsrm_sse` claims. -/
def unitOf (fsrmSse : Bool) : Unit := if fsrmSse then .sse else .x87

/-- The reload in front of an instruction, and `fsrm_sse` after it. -/
def reload (fsrmSse : Bool) (c : Class) : List Op × Bool :=
  if c = .x87 ∧ fsrmSse then ([.load .x87], false)
  else if c = .sse ∧ ¬fsrmSse then ([.load .sse], true)
  else ([], fsrmSse)

/-- The rounding part of `restoreState`. -/
def restoreState (fsrmSse : Bool) : Op := .load (unitOf fsrmSse)

/-- The handler, and `fsrm_sse` after it. -/
def handler (fsrmSse : Bool) : Guest → List Op × Bool
  | .plain c helper => (.body c :: if helper then [restoreState fsrmSse] else [], fsrmSse)
  | .fldcw => ([.body .x87, .fldcw], false)
  | .fninit => ([.body .x87, .fninit], false)
  | .fldenv => ([.body .x87, .callFldenv, restoreState fsrmSse], fsrmSse)
  | .ldmxcsr => ([.body .neither, .ldmxcsr], true)
  | .fxrstor => ([.body .neither, .callFxrstor, restoreState fsrmSse], fsrmSse)

/-- One round of the loop of `compileSequence`. -/
def compileInstruction (fsrmSse : Bool) (g : Guest) : List Op × Bool :=
  let (before, flag) := reload fsrmSse g.class_
  let (code, flag) := handler flag g
  (before ++ code, flag)

/-- The loop. -/
def compileLoop : Bool → List Guest → List Op × Bool
  | fsrmSse, [] => ([], fsrmSse)
  | fsrmSse, g :: rest =>
    let (code, flag) := compileInstruction fsrmSse g
    let (codes, flag) := compileLoop flag rest
    (code ++ codes, flag)

/-- `compileSequence`: every block starts from the SSE mode. -/
def compileSequence (block : List Guest) : List Op × Bool := compileLoop true block

/-! ## The machine -/

/-- `frm`, the two modes of the thread state, the recompiler's flag as the last compilation left
it, the flag the dispatcher and the thunk were emitted with, the rest of the block that is
executing, and what `fsrm_sse` was at the end of that block. -/
structure Machine where
  frm : RMode
  rmodeSse : RMode
  rmodeX87 : RMode
  fsrmSse : Bool
  dispatcherSse : Bool
  todo : List Op
  leaves : Bool
deriving DecidableEq, Repr

namespace Machine

variable (s : Machine)

/-- A new recompiler, with the dispatcher just entered. -/
def initial : Machine := ⟨.rne, .rne, .rne, true, true, [], true⟩

/-- The mode of a unit. -/
def mode : Unit → RMode
  | .sse => s.rmodeSse
  | .x87 => s.rmodeX87

/-- The control words an instruction finds in memory. -/
structure Loaded where
  cw : BitVec 16
  mxcsr : BitVec 32

/-- The control bits of `fpu_cw`. -/
def Loaded.rcX87 (v : Loaded) : BitVec 2 := (v.cw >>> 10).setWidth 2

/-- The control bits of `mxcsr`. -/
def Loaded.rcSse (v : Loaded) : BitVec 2 := (v.mxcsr >>> 13).setWidth 2

/-- One piece of emitted code. `FNINIT` writes `frm` and not `rmode_x87`. -/
def exec (v : Loaded) : Op → Machine
  | .body _ => s
  | .load u => { s with frm := s.mode u }
  | .fldcw => { s with frm := .ofTable v.rcX87, rmodeX87 := .ofTable v.rcX87 }
  | .fninit => { s with frm := .rne }
  | .ldmxcsr => { s with frm := .ofTable v.rcSse, rmodeSse := .ofTable v.rcSse }
  | .callFldenv => { s with rmodeX87 := .ofX86 v.rcX87 }
  | .callFxrstor => { s with rmodeX87 := .ofX86 v.rcX87, rmodeSse := .ofX86 v.rcSse }

/-- The `restoreState` of the dispatcher or the thunk. -/
def restore : Machine :=
  { s with frm := s.mode (unitOf s.dispatcherSse), leaves := s.dispatcherSse }

/-- Jump to a block. -/
def jump (block : List Guest) : Machine :=
  { s with todo := (compileSequence block).1, leaves := (compileSequence block).2 }

/-- The recompiler's side of `compile`. Clearing the code cache first emits the dispatcher and the
thunk again, with the flag as the last block left it. -/
def compile (block : List Guest) (clears : Bool) : Machine :=
  { s with
    dispatcherSse := if clears then s.fsrmSse else s.dispatcherSse
    fsrmSse := (compileSequence block).2 }

/-- How execution goes on. `found` is the dispatcher's slow path when the block exists already. -/
inductive Event
  | exec (v : Loaded)
  | link (block : List Guest)
  | cacheHit (block : List Guest)
  | found (block : List Guest)
  | compile (block : List Guest) (clears : Bool)
  | thunk

/-- The next state. A block is left only at its end. -/
def Step (s : Machine) : Event → Machine → Prop
  | .exec v, t => ∃ op rest, s.todo = op :: rest ∧ t = { s.exec v op with todo := rest }
  | .link block, t => s.todo = [] ∧ t = s.jump block
  | .cacheHit block, t => s.todo = [] ∧ t = s.jump block
  | .found block, t => s.todo = [] ∧ t = s.restore.jump block
  | .compile block clears, t => s.todo = [] ∧ t = (s.compile block clears).restore.jump block
  | .thunk, t => s.todo = [] ∧ t = s.restore

/-- The next instruction executes with the mode it needs. -/
def Disciplined : Prop :=
  ∀ c rest, s.todo = .body c :: rest →
    (c = .sse → s.frm = s.rmodeSse) ∧ (c = .x87 → s.frm = s.rmodeX87)

/-- The steps that reach none of the slips: execution passes from block to block without a reload
only if the block ends in the SSE mode or the two modes are equal, the dispatcher that is used was
emitted with the flag set or the modes are equal, and `FNINIT` finds the mode it sets. -/
def StepOk (s : Machine) : Event → Prop
  | .exec _ => s.todo.head? = some .fninit → s.rmodeX87 = .rne
  | .link _ => s.leaves = true ∨ s.rmodeSse = s.rmodeX87
  | .cacheHit _ => s.leaves = true ∨ s.rmodeSse = s.rmodeX87
  | .found _ => s.dispatcherSse = true ∨ s.rmodeSse = s.rmodeX87
  | .compile _ clears =>
    (if clears then s.fsrmSse else s.dispatcherSse) = true ∨ s.rmodeSse = s.rmodeX87
  | .thunk => True

end Machine

/-! ## Emitted code is moded -/

/-- What is known to be in `frm`: the mode of a unit, or nothing, between a helper and the reload
that follows it. -/
def next : Option Unit → Op → Option Unit
  | known, .body _ => known
  | _, .load u => some u
  | _, .fldcw => some .x87
  | _, .fninit => some .x87
  | _, .ldmxcsr => some .sse
  | _, .callFldenv => none
  | _, .callFxrstor => none

/-- What an instruction needs to be in `frm`. -/
def Needs (known : Option Unit) : Op → Prop
  | .body .sse => known = some .sse
  | .body .x87 => known = some .x87
  | _ => True

/-- Code that started with `known` in `frm` finds what it needs everywhere and ends with `last`. -/
inductive Moded : Option Unit → List Op → Option Unit → Prop
  | nil (known : Option Unit) : Moded known [] known
  | cons {known last : Option Unit} {op : Op} {rest : List Op} :
      Needs known op → Moded (next known op) rest last → Moded known (op :: rest) last

theorem Moded.append {a b c : Option Unit} {xs ys : List Op} (h₁ : Moded a xs b)
    (h₂ : Moded b ys c) : Moded a (xs ++ ys) c := by
  induction h₁ with
  | nil => exact h₂
  | cons hneeds _ ih => exact .cons hneeds (ih h₂)

theorem moded_reload (flag : Bool) (c : Class) :
    Moded (some (unitOf flag)) (reload flag c).1 (some (unitOf (reload flag c).2)) := by
  rw [reload]
  split
  · exact .cons trivial (.nil _)
  · split
    · exact .cons trivial (.nil _)
    · exact .nil _

/-- After the reload the flag is the one the instruction's class asks for. -/
theorem needs_reload (flag : Bool) (c : Class) :
    Needs (some (unitOf (reload flag c).2)) (.body c) := by
  cases c <;> cases flag <;> simp [Needs, reload, unitOf]

theorem moded_handler {flag : Bool} {g : Guest}
    (h : Needs (some (unitOf flag)) (.body g.class_)) :
    Moded (some (unitOf flag)) (handler flag g).1 (some (unitOf (handler flag g).2)) := by
  cases g with
  | plain c helper =>
    refine .cons h ?_
    cases helper
    · exact .nil _
    · exact .cons trivial (.nil _)
  | fldcw => exact .cons h (.cons trivial (.nil _))
  | fninit => exact .cons h (.cons trivial (.nil _))
  | fldenv => exact .cons h (.cons trivial (.cons trivial (.nil _)))
  | ldmxcsr => exact .cons h (.cons trivial (.nil _))
  | fxrstor => exact .cons h (.cons trivial (.cons trivial (.nil _)))

theorem moded_compileInstruction (flag : Bool) (g : Guest) :
    Moded (some (unitOf flag)) (compileInstruction flag g).1
      (some (unitOf (compileInstruction flag g).2)) :=
  (moded_reload flag g.class_).append (moded_handler (needs_reload flag g.class_))

theorem moded_compileLoop (flag : Bool) (block : List Guest) :
    Moded (some (unitOf flag)) (compileLoop flag block).1
      (some (unitOf (compileLoop flag block).2)) := by
  induction block generalizing flag with
  | nil => exact .nil _
  | cons g rest ih => exact (moded_compileInstruction flag g).append (ih _)

/-! ## Runs -/

namespace Machine

variable {s t : Machine}

/-- What is known to be in `frm` is there. -/
def Holds (s : Machine) (known : Option Unit) : Prop := ∀ u ∈ known, s.frm = s.mode u

/-- The rest of the block is moded for what is in `frm`, and ends in the mode the block leaves. -/
def Tracks (s : Machine) : Prop :=
  ∃ known, s.Holds known ∧ Moded known s.todo (some (unitOf s.leaves))

theorem Tracks.disciplined (h : s.Tracks) : s.Disciplined := by
  intro c rest htodo
  obtain ⟨known, hholds, hmoded⟩ := h
  rw [htodo] at hmoded
  cases hmoded with
  | cons hneeds _ =>
    constructor
    · rintro rfl
      exact hholds .sse hneeds
    · rintro rfl
      exact hholds .x87 hneeds

/-- One piece of code: what it makes known holds afterwards. -/
theorem holds_exec {known : Option Unit} {op : Op} (v : Loaded) (h : s.Holds known)
    (hok : op = .fninit → s.rmodeX87 = .rne) : (s.exec v op).Holds (next known op) := by
  cases op with
  | body c => exact h
  | load u =>
    rintro _ ⟨⟩
    cases u <;> rfl
  | fldcw =>
    rintro _ ⟨⟩
    rfl
  | fninit =>
    rintro _ ⟨⟩
    exact (hok rfl).symm
  | ldmxcsr =>
    rintro _ ⟨⟩
    rfl
  | callFldenv => simp [Holds, next]
  | callFxrstor => simp [Holds, next]

/-- At the end of a block the mode it leaves is in `frm`. -/
theorem Tracks.frm_eq (h : s.Tracks) (htodo : s.todo = []) : s.frm = s.mode (unitOf s.leaves) := by
  obtain ⟨known, hholds, hmoded⟩ := h
  rw [htodo] at hmoded
  cases hmoded with
  | nil => exact hholds _ rfl

/-- A block may be entered when the SSE mode is in `frm`. -/
theorem tracks_jump (h : s.frm = s.rmodeSse) (block : List Guest) : (s.jump block).Tracks := by
  refine ⟨some .sse, ?_, moded_compileLoop true block⟩
  rintro _ ⟨⟩
  exact h

theorem mode_unitOf {flag : Bool} (h : flag = true ∨ s.rmodeSse = s.rmodeX87) :
    s.mode (unitOf flag) = s.rmodeSse := by
  cases flag with
  | true => rfl
  | false => exact (h.resolve_left Bool.false_ne_true).symm

@[simp]
theorem mode_restore (s : Machine) (u : Unit) : s.restore.mode u = s.mode u := by
  cases u <;> rfl

theorem Tracks.step {e : Event} (h : s.Tracks) (hstep : Guarded StepOk Step s e t) : t.Tracks := by
  obtain ⟨hok, hstep⟩ := hstep
  cases e with
  | exec v =>
    obtain ⟨op, rest, htodo, rfl⟩ := hstep
    obtain ⟨known, hholds, hmoded⟩ := h
    rw [htodo] at hmoded
    cases hmoded with
    | cons _ hrest =>
      have hfninit : op = .fninit → s.rmodeX87 = .rne := by
        rintro rfl
        exact hok (by rw [htodo]; rfl)
      refine ⟨next known op, fun u hu ↦ ?_, ?_⟩
      · have hmode := holds_exec v hholds hfninit u hu
        cases u <;> exact hmode
      · cases op <;> exact hrest
  | link block =>
    obtain ⟨htodo, rfl⟩ := hstep
    exact tracks_jump ((h.frm_eq htodo).trans (mode_unitOf hok)) block
  | cacheHit block =>
    obtain ⟨htodo, rfl⟩ := hstep
    exact tracks_jump ((h.frm_eq htodo).trans (mode_unitOf hok)) block
  | found block =>
    obtain ⟨-, rfl⟩ := hstep
    exact tracks_jump (mode_unitOf hok) block
  | compile block clears =>
    obtain ⟨-, rfl⟩ := hstep
    exact tracks_jump (mode_unitOf hok) block
  | thunk =>
    obtain ⟨htodo, rfl⟩ := hstep
    refine ⟨some (unitOf s.dispatcherSse), ?_, ?_⟩
    · rintro u ⟨⟩
      exact (mode_restore s _).symm
    · simp only [restore, htodo]
      exact .nil _

/-- **Rounding-mode discipline.** Along every run of steps that meet `StepOk`, every instruction
that `compileSequence` classifies executes with its own rounding mode in `frm`. -/
theorem disciplined_of_run {events : List Event}
    (hrun : Run (Guarded StepOk Step) initial events s) : s.Disciplined := by
  have hinit : initial.Tracks := ⟨some .sse, by rintro _ ⟨⟩; rfl, .nil _⟩
  have htracks : s.Tracks := hrun.invariant hinit fun _ _ _ h hstep ↦ h.step hstep
  exact htracks.disciplined

/-- Words that ask for rounding up on both sides. -/
def roundUp : Loaded := ⟨0x0b7f#16, 0x5f80#32⟩

/-- A block with an x87 and an SSE instruction, compiled and run to the SSE instruction, which the
flag makes reload. -/
theorem disciplined_x87_then_sse :
    ∃ s, Run (Guarded StepOk Step) initial
        [.compile [.fldcw, .plain .sse false] false, .exec roundUp, .exec roundUp, .exec roundUp,
          .exec roundUp] s ∧
      s.todo = [.body .sse] ∧ s.rmodeX87 ≠ s.rmodeSse ∧ s.Disciplined := by
  have hrun : Run (Guarded StepOk Step) initial
      [.compile [.fldcw, .plain .sse false] false, .exec roundUp, .exec roundUp, .exec roundUp,
        .exec roundUp]
      ⟨.rne, .rne, .rup, true, true, [.body .sse], true⟩ := by
    refine .cons ⟨Or.inl rfl, rfl, rfl⟩ ?_
    refine .cons ⟨nofun, _, _, rfl, rfl⟩ ?_
    refine .cons ⟨nofun, _, _, rfl, rfl⟩ ?_
    refine .cons ⟨nofun, _, _, rfl, rfl⟩ ?_
    exact .single ⟨nofun, _, _, rfl, rfl⟩
  exact ⟨_, hrun, rfl, by decide, disciplined_of_run hrun⟩

/-- A block that ends in x87 code and is linked to a block that starts with an SSE instruction: the
SSE instruction rounds up where `MXCSR` asks for rounding to nearest. -/
theorem not_disciplined_linked :
    ¬∀ (events : List Event) (s : Machine), Run Step initial events s → s.Disciplined := by
  intro h
  have hrun : Run Step initial
      [.compile [.fldcw] false, .exec roundUp, .exec roundUp, .exec roundUp,
        .link [.plain .sse false]]
      ⟨.rup, .rne, .rup, false, true, [.body .sse], true⟩ := by
    refine .cons ⟨rfl, rfl⟩ ?_
    refine .cons ⟨_, _, rfl, rfl⟩ ?_
    refine .cons ⟨_, _, rfl, rfl⟩ ?_
    refine .cons ⟨_, _, rfl, rfl⟩ ?_
    exact .single ⟨rfl, rfl⟩
  have hfrm := (h _ _ hrun .sse [] rfl).1 rfl
  exact absurd hfrm (by decide)

end Machine

end Rounding

end Felix86
