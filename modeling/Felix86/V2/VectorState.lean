import Felix86.Lib.Paths
import Mathlib.Data.List.Basic

/-!
# The vector configuration

RISC-V vector instructions take the element width and the vector length from `vtype` and `vl`. The
recompiler keeps at compile time what it last put there, in `current_sew`, `current_vlen` and
`current_grouping`, and `setVectorState` emits nothing when a handler asks for the configuration
that is tracked already. The tracker follows the order of emission, and the emitted code has
branches: `switchToMMX` and `switchToX87` jump over their own `VSETIVLI` when the thread is in the
wanted state already, and `writebackState` and `restoreState` set the configuration again on one
of two paths only.

This file has the emitted code as far as it concerns the configuration, as paths over host
instructions that carry the tracker they were emitted under, and finds the blocks on which tracker
and hardware agree at every such point: the first switch of the block must find the very
configuration it would set, and the state may be saved or restored only where the block knows that
the thread is in the MMX state.
-/

namespace Felix86

namespace Vector

/-- The element widths the handlers ask for. -/
inductive Sew
  | e8
  | e16
  | e32
  | e64
deriving DecidableEq, Repr

/-- The register groupings the handlers ask for. -/
inductive Lmul
  | mf2
  | m1
  | m2
deriving DecidableEq, Repr

/-- What a `VSETIVLI` puts into `vtype` and `vl`. The host can give fewer lanes than are asked for,
but not for the vectors of at least 128 bits that the recompiler insists on; `vlen` is the number
asked for. -/
@[ext]
structure VType where
  sew : Sew
  vlen : ℕ
  grouping : Lmul := .m1
deriving DecidableEq, Repr

/-- `ThreadState::x87_state` at run time, where it is never `Unknown`. -/
inductive X87State
  | x87
  | mmx
deriving DecidableEq, Repr

/-- `current_sew`, `current_vlen` and `current_grouping`; no width stands for `SEW::E1024`. -/
structure Tracker where
  sew : Option Sew
  vlen : ℕ
  grouping : Lmul
deriving DecidableEq, Repr

namespace Tracker

/-- The value at the start of a block, and around `writebackState` and `restoreState`. -/
def reset : Tracker := { sew := none, vlen := 0, grouping := .m1 }

/-- The comparison of `setVectorState`. -/
def Is (t : Tracker) (c : VType) : Prop :=
  t.sew = some c.sew ∧ t.vlen = c.vlen ∧ t.grouping = c.grouping

instance (t : Tracker) (c : VType) : Decidable (t.Is c) := inferInstanceAs (Decidable (_ ∧ _ ∧ _))

def ofVType (c : VType) : Tracker := { sew := some c.sew, vlen := c.vlen, grouping := c.grouping }

/-- A tracker that is not reset has the configuration of the hardware. -/
def Right (t : Tracker) (hw : VType) : Prop := t.sew ≠ none → t.Is hw

@[simp]
theorem right_reset (hw : VType) : reset.Right hw := fun h ↦ absurd rfl h

@[simp]
theorem is_ofVType {c d : VType} : (ofVType c).Is d ↔ c = d := by
  simp [ofVType, Is, VType.ext_iff]

theorem Is.eq {t : Tracker} {c : VType} (h : t.Is c) : t = ofVType c := by
  obtain ⟨h₁, h₂, h₃⟩ := h
  cases t
  simp_all [ofVType]

theorem not_is_of_sew {t : Tracker} {c : VType} (h : t.sew = none) : ¬t.Is c := by
  rintro ⟨hsew, -⟩
  simp [h] at hsew

/-- Every tracker is right about some configuration. -/
theorem exists_right (t : Tracker) : ∃ hw, t.Right hw := by
  match h : t.sew with
  | none => exact ⟨⟨.e8, 16, .m1⟩, fun hn ↦ absurd h hn⟩
  | some sew => exact ⟨⟨sew, t.vlen, t.grouping⟩, fun _ ↦ ⟨h, rfl, rfl⟩⟩

end Tracker

/-! ## The emitted code -/

/-- Host instructions. `instr` stands for any run of instructions that leave `vtype`, `vl` and
`x87_state` alone, and `branch` for a side of a branch on `x87_state`. -/
inductive Host
  | instr
  | bind
  | vsetivli (c : VType)
  | call
  | branch (x : X87State) (equal : Bool)
  | store (x : X87State)
deriving DecidableEq, Repr

/-- A point of emission: the tracker there and what is emitted. -/
structure Point where
  tracker : Tracker
  host : Host

/-- The part of the machine the configuration depends on. -/
structure Hart where
  vtype : VType
  x87State : X87State

/-- What the host instructions do. A called function may leave any configuration behind. -/
def Host.step : Host → Hart → Hart → Prop
  | instr, s, t => s = t
  | bind, s, t => s = t
  | vsetivli c, s, t => { s with vtype := c } = t
  | call, s, t => s.x87State = t.x87State
  | branch x equal, s, t => decide (s.x87State = x) = equal ∧ s = t
  | store x, s, t => { s with x87State := x } = t

def Point.step (p : Point) : Hart → Hart → Prop := p.host.step

/-- Tracker and hardware agree at a point. -/
def Point.Ok (p : Point) (s : Hart) : Prop := p.tracker.Right s.vtype

/-- The compile-time state. No local state stands for `x87State::Unknown`. -/
structure Emitter where
  tracker : Tracker
  localX87State : Option X87State

/-- A stretch of code being emitted: the code and the compile-time state after it. -/
abbrev Emit := Emitter → Paths Point × Emitter

namespace Emit

/-- One piece of code after another. -/
def andThen (f g : Emit) : Emit := fun e ↦
  let (p, e₁) := f e
  let (q, e₂) := g e₁
  (.seq p q, e₂)

/-- Two pieces emitted one after the other of which one runs. The tracker has seen both. -/
def orElse (f g : Emit) : Emit := fun e ↦
  let (p, e₁) := f e
  let (q, e₂) := g e₁
  (.either p q, e₂)

/-- A piece of code that ends with a branch back to its start. -/
def repeated (f : Emit) : Emit := fun e ↦
  let (p, e₁) := f e
  (.star p, e₁)

def nothing : Emit := fun e ↦ (.nil, e)

def host (h : Host) : Emit := fun e ↦ (.atom ⟨e.tracker, h⟩, e)

def instr : Emit := host .instr

def resetTracker : Emit := fun e ↦ (.nil, { e with tracker := .reset })

/-- A sequence of pieces. -/
def all : List Emit → Emit
  | [] => nothing
  | f :: fs => f.andThen (all fs)

end Emit

open Emit

section

variable (paranoid : Bool)

/-- `Recompiler::setVectorState`. The point is the one before the tracker is assigned; loading the
operand of the `VSETVLI` of Xtheadvector is part of the instruction. -/
def setVectorState (c : VType) : Emit := fun e ↦
  if e.tracker.Is c ∧ paranoid = false then (.nil, e)
  else (.atom ⟨e.tracker, .vsetivli c⟩, { e with tracker := .ofVType c })

/-- `Recompiler::call`. -/
def call : Emit := fun e ↦
  (.atom ⟨{ e.tracker with sew := none }, .call⟩, { e with tracker.sew := none })

/-- The common body of `writebackState` and `restoreState`, which store and load the same things in
the same order. -/
def transferState : Emit :=
  all [resetTracker, instr, setVectorState paranoid ⟨.e64, 2, .m1⟩, instr,
    orElse (all [host (.branch .x87 true), instr])
      (all [host (.branch .x87 false), host .bind, setVectorState paranoid ⟨.e64, 1, .m1⟩, instr]),
    host .bind, instr, resetTracker]

def writebackState : Emit := transferState paranoid

def restoreState : Emit := transferState paranoid

/-- The common body of `switchToMMX` and `switchToX87`. -/
def switchTo (x : X87State) : Emit :=
  all [instr,
    orElse (host (.branch x true))
      (all [host (.branch x false), setVectorState paranoid ⟨.e64, 1, .m1⟩, instr,
        host (.store x)]),
    host .bind, fun e ↦ (.nil, { e with localX87State := some x })]

def switchToMMX : Emit := switchTo paranoid .mmx

def switchToX87 : Emit := switchTo paranoid .x87

/-- What a handler emits. The labels of the handlers' own code enclose instructions that leave the
configuration alone (`forward`, `backward`), except in `DIV` and `IDIV`, where the 128-bit division
on one of the two sides calls a function. -/
inductive Op
  | instr
  | setVectorState (c : VType)
  | call
  | writebackState
  | restoreState
  | forward
  | backward
  | divide128
deriving DecidableEq, Repr

def Op.emit : Op → Emit
  | .instr => Emit.instr
  | .setVectorState c => Vector.setVectorState paranoid c
  | .call => Vector.call
  | .writebackState => Vector.writebackState paranoid
  | .restoreState => Vector.restoreState paranoid
  | .forward => all [Emit.instr, orElse nothing Emit.instr, host .bind]
  | .backward => all [host .bind, repeated Emit.instr]
  | .divide128 =>
    all [Emit.instr, orElse Emit.instr (all [host .bind, Vector.writebackState paranoid,
      Emit.instr, Vector.call, Vector.restoreState paranoid]), host .bind]

/-- An instruction of the block: `is_mmx`, `is_x87` and what is emitted for it after the switches,
the reload of the rounding mode included. -/
structure Insn where
  isMmx : Bool
  isX87 : Bool
  handler : List Op

/-- What compiling an instruction asks for, in order. -/
inductive Action
  | require (x : X87State)
  | op (o : Op)
deriving DecidableEq, Repr

/-- The actions of one round of `compileSequence`. -/
def Insn.actions (i : Insn) : List Action :=
  (if i.isMmx then [.require .mmx] else []) ++ (if i.isX87 then [.require .x87] else []) ++
    i.handler.map .op

def Action.emit : Action → Emit
  | .require x => fun e ↦ if e.localX87State = some x then nothing e else
      (match x with | .mmx => switchToMMX paranoid | .x87 => switchToX87 paranoid) e
  | .op o => o.emit paranoid

/-- The compile-time state `compileSequence` starts with. -/
def Emitter.initial : Emitter := { tracker := .reset, localX87State := none }

/-- `Recompiler::compileSequence`, for the instructions of one block. -/
def compileSequence (block : List Insn) : Paths Point :=
  (all ((block.flatMap Insn.actions).map (Action.emit paranoid)) .initial).1

end

/-- At every point a path through the code can come to, from any configuration and any state the
thread can be in, the tracker is reset or has the configuration of the hardware. -/
def Tracked (code : Paths Point) : Prop :=
  ∀ s p t, code.Reaches Point.step s p t → p.Ok t

/-! ## The condition -/

/-- The configuration both switches ask for. -/
def mmxVType : VType := ⟨.e64, 1, .m1⟩

/-- The operations that save or restore the state of the thread. -/
def Op.transfers : Op → Bool
  | .writebackState | .restoreState | .divide128 => true
  | _ => false

/-- The configuration a handler last asked for, after an action. A call makes it unknown. -/
def Action.request (last : Option VType) : Action → Option VType
  | .op (.setVectorState c) => some c
  | .op .call | .op .writebackState | .op .restoreState | .op .divide128 => none
  | .require _ | .op .instr | .op .forward | .op .backward => last

/-- The register set last asked for, after an action. -/
def Action.required (last : Option X87State) : Action → Option X87State
  | .require x => some x
  | .op _ => last

def lastRequest (l : List Action) : Option VType := l.foldl Action.request none

def lastRequired (l : List Action) : Option X87State := l.foldl Action.required none

/-- The first MMX or x87 instruction comes right after a request for the configuration of the
switches, and the state is transferred only while MMX is the register set in use. -/
structure WellPlaced (l : List Action) : Prop where
  first : ∀ pre x post, l = pre ++ .require x :: post → lastRequired pre = none →
    lastRequest pre = some mmxVType
  transfer : ∀ pre o post, l = pre ++ .op o :: post → o.transfers = true →
    lastRequired pre = some .mmx

/-! ## Where the condition holds -/

section Sound

/-- The hardware is as the compile-time state says. -/
def Synced (e : Emitter) (s : Hart) : Prop :=
  e.tracker.Right s.vtype ∧ ∀ x, e.localX87State = some x → s.x87State = x

/-- The code emitted in the state `e` keeps the hardware in step with the compile-time state. -/
def Emit.Sound (f : Emit) (e : Emitter) : Prop :=
  Paths.Triple Point.step Point.Ok (Synced e) (f e).1 (Synced (f e).2)

variable {e : Emitter} {f g : Emit} {fs : List Emit} {x : X87State} {c : VType} {h : Host}

theorem Emit.all_cons (e : Emitter) :
    all (f :: fs) e = (.seq (f e).1 (all fs (f e).2).1, (all fs (f e).2).2) := rfl

theorem Emit.all_nil (e : Emitter) : all [] e = (.nil, e) := rfl

theorem Emit.host_apply (e : Emitter) : host h e = (.atom ⟨e.tracker, h⟩, e) := rfl

theorem sound_nothing : nothing.Sound e := Paths.Triple.nil fun _ hs ↦ hs

theorem sound_all_nil : (all []).Sound e := sound_nothing

theorem Emit.Sound.cons (hf : f.Sound e) (hfs : (all fs).Sound (f e).2) : (all (f :: fs)).Sound e :=
  Paths.Triple.seq hf hfs

theorem sound_host (hh : ∀ s t, h.step s t → s = t) : (host h).Sound e := by
  refine Paths.Triple.atom (fun s hs ↦ hs.1) fun s t hs hst ↦ ?_
  obtain rfl := hh s t hst
  exact hs

theorem sound_instr : instr.Sound e := sound_host fun _ _ hst ↦ hst

theorem sound_bind : (host .bind).Sound e := sound_host fun _ _ hst ↦ hst

theorem sound_resetTracker : resetTracker.Sound e :=
  Paths.Triple.nil fun _ hs ↦ ⟨Tracker.right_reset _, hs.2⟩

/-- Two sides of a branch of which the first leaves the compile-time state as it was. -/
theorem Emit.Sound.orElse (hfe : (f e).2 = e)
    (hf : Paths.Triple Point.step Point.Ok (Synced e) (f e).1 (Synced (g e).2)) (hg : g.Sound e) :
    (f.orElse g).Sound e := by
  unfold Emit.Sound Emit.orElse
  dsimp only
  rw [hfe]
  exact Paths.Triple.either hf hg

@[simp]
theorem setVectorState_snd (paranoid : Bool) (c : VType) (e : Emitter) :
    (setVectorState paranoid c e).2 = { e with tracker := .ofVType c } := by
  unfold setVectorState
  split
  · next hskip => rw [← hskip.1.eq]
  · rfl

theorem sound_setVectorState (paranoid : Bool) : (setVectorState paranoid c).Sound e := by
  unfold Emit.Sound setVectorState
  split
  · exact Paths.Triple.nil fun _ hs ↦ hs
  · refine Paths.Triple.atom (fun s hs ↦ hs.1) ?_
    rintro s t hs rfl
    exact ⟨fun _ ↦ Tracker.is_ofVType.mpr rfl, hs.2⟩

theorem sound_call : call.Sound e := by
  refine Paths.Triple.atom (fun s _ hn ↦ absurd rfl hn) fun s t hs hst ↦ ?_
  refine ⟨fun hn ↦ absurd rfl hn, fun x hx ↦ ?_⟩
  rw [← hs.2 x hx]
  exact hst.symm

/-- The side of a branch that the local state rules out may leave anything behind. -/
theorem triple_branch_of_ne {equal : Bool} {q : Paths Point} {J : Hart → Prop}
    (hne : ∀ s, Synced e s → decide (s.x87State = x) ≠ equal) :
    Paths.Triple Point.step Point.Ok (Synced e) (.seq (host (.branch x equal) e).1 q) J := by
  refine Paths.Triple.seq (J := fun _ ↦ False) (Paths.Triple.atom (fun s hs ↦ hs.1) ?_) ?_
  · rintro s t hs ⟨hequal, -⟩
    exact hne s hs hequal
  · exact fun s hs ↦ hs.elim

theorem sound_branch {equal : Bool} : (host (.branch x equal)).Sound e :=
  sound_host fun _ _ hst ↦ hst.2

variable (paranoid : Bool)

/-- Inside a block that has switched to MMX, the x87 half of a state transfer is not taken. -/
theorem sound_transferState (hmmx : e.localX87State = some .mmx) :
    (transferState paranoid).Sound e := by
  refine sound_resetTracker.cons (sound_instr.cons ((sound_setVectorState paranoid).cons
    (sound_instr.cons (Emit.Sound.cons ?_ (sound_bind.cons (sound_instr.cons
      (sound_resetTracker.cons sound_nothing)))))))
  refine Emit.Sound.orElse rfl (triple_branch_of_ne fun s hs ↦ ?_) ?_
  · have hs : s.x87State = .mmx := hs.2 .mmx (by simpa [resetTracker, instr, host] using hmmx)
    simp [hs]
  · exact sound_branch.cons (sound_bind.cons ((sound_setVectorState paranoid).cons
      (sound_instr.cons sound_nothing)))

theorem sound_op {o : Op} (ho : o.transfers = true → e.localX87State = some .mmx) :
    (o.emit paranoid).Sound e := by
  cases o with
  | instr => exact sound_instr
  | setVectorState c => exact sound_setVectorState paranoid
  | call => exact sound_call
  | writebackState => exact sound_transferState paranoid (ho rfl)
  | restoreState => exact sound_transferState paranoid (ho rfl)
  | forward =>
    refine sound_instr.cons (Emit.Sound.cons ?_ (sound_bind.cons sound_nothing))
    exact Emit.Sound.orElse rfl sound_nothing sound_instr
  | backward =>
    refine sound_bind.cons (Emit.Sound.cons ?_ sound_nothing)
    exact Paths.Triple.star sound_instr
  | divide128 =>
    have hmmx := ho rfl
    refine sound_instr.cons (Emit.Sound.cons (Emit.Sound.orElse rfl ?_ ?_)
      (sound_bind.cons sound_nothing))
    -- past the division the tracker is reset, whichever side ran
    · exact Paths.Triple.mono sound_instr (fun _ hs ↦ hs) fun s hs ↦ ⟨Tracker.right_reset _, hs.2⟩
    · exact sound_bind.cons ((sound_transferState paranoid hmmx).cons (sound_instr.cons
        (sound_call.cons (Emit.Sound.cons (sound_transferState paranoid hmmx) sound_all_nil))))

/-- The side of a switch that moves the registers over. -/
def switchSide (x : X87State) : Emit :=
  all [host (.branch x false), setVectorState paranoid mmxVType, instr, host (.store x)]

theorem switchTo_eq (e : Emitter) : switchTo paranoid x e =
    (.seq (.atom ⟨e.tracker, .instr⟩) (.seq (.either (.atom ⟨e.tracker, .branch x true⟩)
      (switchSide paranoid x e).1) (.seq (.atom ⟨.ofVType mmxVType, .bind⟩) (.seq .nil .nil))),
      { tracker := .ofVType mmxVType, localX87State := some x }) := by
  have hside : (switchSide paranoid x e).2 = { e with tracker := .ofVType mmxVType } :=
    setVectorState_snd paranoid mmxVType e
  have horElse : orElse (host (.branch x true)) (switchSide paranoid x) e =
      (.either (.atom ⟨e.tracker, .branch x true⟩) (switchSide paranoid x e).1,
        { e with tracker := .ofVType mmxVType }) := by
    rw [← hside]
    rfl
  calc switchTo paranoid x e
      = all [instr, orElse (host (.branch x true)) (switchSide paranoid x), host .bind,
          fun e ↦ (.nil, { e with localX87State := some x })] e := rfl
    _ = _ := by simp only [all_cons, all_nil, instr, host_apply, horElse]

/-- A switch is harmless if the tracker has its configuration already, or if the block knows that
the thread is in the other state. -/
theorem sound_switchTo (hx : e.localX87State ≠ some x)
    (hfirst : e.localX87State = none → e.tracker.Is mmxVType) :
    (switchTo paranoid x).Sound e := by
  let K (s : Hart) : Prop := (Tracker.ofVType mmxVType).Right s.vtype ∧ s.x87State = x
  have htaken : Paths.Triple Point.step Point.Ok (Synced e) (host (.branch x true) e).1 K := by
    refine Paths.Triple.atom (fun s hs ↦ hs.1) ?_
    rintro s t ⟨hright, hlocal⟩ ⟨hbranch, rfl⟩
    have hs : s.x87State = x := of_decide_eq_true hbranch
    cases he : e.localX87State with
    | none =>
      rw [(hfirst he).eq] at hright
      exact ⟨hright, hs⟩
    | some y => exact absurd (he.trans (congrArg some ((hlocal y he).symm.trans hs))) hx
  have hpassed : Paths.Triple Point.step Point.Ok (Synced e) (switchSide paranoid x e).1 K := by
    refine Paths.Triple.seq sound_branch (Paths.Triple.seq (sound_setVectorState paranoid)
      (Paths.Triple.seq sound_instr (Paths.Triple.seq (Paths.Triple.atom (fun s hs ↦ hs.1) ?_)
        (Paths.Triple.nil fun s hs ↦ hs))))
    rintro s t ⟨hright, -⟩ rfl
    simp only [instr, host, setVectorState_snd] at hright
    exact ⟨hright, rfl⟩
  unfold Emit.Sound
  rw [switchTo_eq]
  refine Paths.Triple.seq sound_instr (Paths.Triple.seq (Paths.Triple.either htaken hpassed)
    (Paths.Triple.seq (J := K) (Paths.Triple.atom (fun s hs ↦ hs.1) ?_)
      (Paths.Triple.seq (Paths.Triple.nil fun s hs ↦ ?_) (Paths.Triple.nil fun s hs ↦ hs))))
  · rintro s t hs rfl
    exact hs
  · exact ⟨hs.1, fun y hy ↦ hs.2.trans (Option.some.inj hy)⟩

theorem Action.emit_require (e : Emitter) : (Action.require x).emit paranoid e =
    if e.localX87State = some x then nothing e else switchTo paranoid x e := by
  cases x <;> rfl

/-- What an action needs of the compile-time state it is emitted in. -/
def Action.Placed (e : Emitter) : Action → Prop
  | .require _ => e.localX87State = none → e.tracker.Is mmxVType
  | .op o => o.transfers = true → e.localX87State = some .mmx

theorem sound_action {a : Action} (ha : a.Placed e) : (a.emit paranoid).Sound e := by
  cases a with
  | op o => exact sound_op paranoid ha
  | require x =>
    unfold Emit.Sound
    rw [Action.emit_require]
    split
    · exact sound_nothing
    · next hx => exact sound_switchTo paranoid hx ha

/-- The compile-time state after some actions. -/
def after (e : Emitter) (l : List Action) : Emitter := (all (l.map (Action.emit paranoid)) e).2

/-- Every action is placed where it needs to be, from the state `e` on. -/
def AllPlaced (e : Emitter) (l : List Action) : Prop :=
  ∀ pre a post, l = pre ++ a :: post → a.Placed (after paranoid e pre)

theorem allPlaced_cons {a : Action} {l : List Action} : AllPlaced paranoid e (a :: l) ↔
    a.Placed e ∧ AllPlaced paranoid (a.emit paranoid e).2 l := by
  constructor
  · intro h
    refine ⟨h [] a l rfl, fun pre b post hl ↦ ?_⟩
    exact h (a :: pre) b post (by rw [hl, List.cons_append])
  · rintro ⟨ha, hl⟩ pre b post heq
    cases pre with
    | nil =>
      obtain ⟨rfl, rfl⟩ := List.cons.inj heq
      exact ha
    | cons c pre =>
      obtain ⟨rfl, htail⟩ := List.cons.inj heq
      exact hl pre b post htail

theorem sound_all {l : List Action} (hl : AllPlaced paranoid e l) :
    (all (l.map (Action.emit paranoid))).Sound e := by
  induction l generalizing e with
  | nil => exact sound_all_nil
  | cons a l ih =>
    obtain ⟨ha, hrest⟩ := (allPlaced_cons paranoid).mp hl
    exact (sound_action paranoid ha).cons (ih hrest)

end Sound

/-! ## Where it does not -/

section Necessary

variable (paranoid : Bool) {e : Emitter} {f : Emit} {fs : List Emit} {x : X87State} {s t u : Hart}

/-- Some path from `s` comes to a point where tracker and hardware differ. -/
def Bad (p : Paths Point) (s : Hart) : Prop :=
  ∃ a t, p.Reaches Point.step s a t ∧ ¬a.Ok t

theorem Bad.head {p q : Paths Point} (h : Bad p s) : Bad (.seq p q) s := by
  obtain ⟨a, t, hreach, hok⟩ := h
  exact ⟨a, t, .inl hreach, hok⟩

theorem Bad.tail {p q : Paths Point} (hp : p.Ends Point.step s t) (h : Bad q t) :
    Bad (.seq p q) s := by
  obtain ⟨a, u, hreach, hok⟩ := h
  exact ⟨a, u, .inr ⟨t, hp, hreach⟩, hok⟩

theorem ends_setVectorState (c : VType) (hs : e.tracker.Right s.vtype) :
    (setVectorState paranoid c e).1.Ends Point.step s { s with vtype := c } := by
  unfold setVectorState
  split
  · next hskip =>
    have heq : c = s.vtype := by
      have hright := hs (by simp [hskip.1.1])
      rw [hskip.1.eq] at hright
      exact Tracker.is_ofVType.mp hright
    subst heq
    exact rfl
  · exact rfl

theorem exists_ends_setVectorState (c : VType) (s : Hart) :
    ∃ t, (setVectorState paranoid c e).1.Ends Point.step s t ∧ t.x87State = s.x87State := by
  unfold setVectorState
  split
  · exact ⟨s, rfl, rfl⟩
  · exact ⟨{ s with vtype := c }, rfl, rfl⟩

/-- Either half of a state transfer can be run to its end. -/
theorem ends_transferState (s : Hart) :
    ∃ t, (transferState paranoid e).1.Ends Point.step s t ∧ t.x87State = s.x87State := by
  obtain ⟨v, x⟩ := s
  cases x with
  | x87 =>
    refine ⟨⟨⟨.e64, 2, .m1⟩, .x87⟩, ⟨_, rfl, _, rfl, _, rfl, _, rfl, _, .inl ?_, _, rfl, _, rfl, _,
      rfl, rfl⟩, rfl⟩
    exact ⟨_, ⟨rfl, rfl⟩, _, rfl, rfl⟩
  | mmx =>
    refine ⟨⟨⟨.e64, 1, .m1⟩, .mmx⟩, ⟨_, rfl, _, rfl, _, rfl, _, rfl, _, .inr ?_, _, rfl, _, rfl, _,
      rfl, rfl⟩, rfl⟩
    exact ⟨_, ⟨rfl, rfl⟩, _, rfl, _, rfl, _, rfl, rfl⟩

/-- The x87 half of a state transfer leaves the configuration of the vector half behind, while the
tracker has that of the MMX half. -/
theorem bad_transferState (hs : s.x87State = .x87) : Bad (transferState paranoid e).1 s := by
  obtain ⟨v, x⟩ := s
  obtain rfl : x = .x87 := hs
  refine Bad.tail rfl (Bad.tail rfl (Bad.tail rfl (Bad.tail rfl (Bad.tail
    (t := ⟨⟨.e64, 2, .m1⟩, .x87⟩) (.inl ⟨_, ⟨rfl, rfl⟩, _, rfl, rfl⟩)
    (Bad.head ⟨_, _, ⟨rfl, rfl⟩, ?_⟩)))))
  intro hok
  have his : (Tracker.ofVType mmxVType).Is ⟨.e64, 2, .m1⟩ := hok (Option.some_ne_none _)
  exact absurd his (by decide)

theorem bad_op {o : Op} (ho : o.transfers = true) (hs : s.x87State = .x87) :
    Bad (o.emit paranoid e).1 s := by
  cases o with
  | writebackState => exact bad_transferState paranoid hs
  | restoreState => exact bad_transferState paranoid hs
  | divide128 =>
    obtain ⟨a, t, hreach, hok⟩ := bad_transferState paranoid (e := e) hs
    refine ⟨a, t, .inr ⟨s, rfl, .inl (.inr (.inr ⟨s, rfl, .inl hreach⟩))⟩, hok⟩
  | instr | setVectorState c | call | forward | backward => exact absurd ho (by simp [Op.transfers])

/-- A switch that is jumped over leaves the tracker with a configuration it has not set. -/
theorem bad_switchTo (hx : s.x87State = x) (hs : s.vtype ≠ mmxVType) :
    Bad (switchTo paranoid x e).1 s := by
  rw [switchTo_eq]
  refine Bad.tail rfl (Bad.tail (t := s) (.inl ⟨decide_eq_true hx, rfl⟩)
    (Bad.head ⟨_, s, ⟨rfl, rfl⟩, fun hok ↦ hs ?_⟩))
  exact (Tracker.is_ofVType.mp (hok (by simp [Tracker.ofVType]))).symm

/-- A switch can be run to its end from any state. -/
theorem ends_switchTo (s : Hart) :
    ∃ t, (switchTo paranoid x e).1.Ends Point.step s t ∧ t.x87State = x := by
  rw [switchTo_eq]
  by_cases hx : s.x87State = x
  · exact ⟨s, ⟨_, rfl, s, .inl ⟨decide_eq_true hx, rfl⟩, _, rfl, _, rfl, rfl⟩, hx⟩
  · obtain ⟨t, ht, -⟩ := exists_ends_setVectorState (e := e) paranoid mmxVType s
    refine ⟨{ t with x87State := x }, ⟨_, rfl, _, .inr ?_, _, rfl, _, rfl, rfl⟩, rfl⟩
    exact ⟨s, ⟨decide_eq_false hx, rfl⟩, t, ht, t, rfl, _, rfl, rfl⟩

/-- An operation can be run to its end from any state, and keeps the register set. -/
theorem ends_op (o : Op) (s : Hart) :
    ∃ t, (o.emit paranoid e).1.Ends Point.step s t ∧ t.x87State = s.x87State := by
  cases o with
  | instr => exact ⟨s, rfl, rfl⟩
  | setVectorState c => exact exists_ends_setVectorState paranoid c s
  | call => exact ⟨s, rfl, rfl⟩
  | writebackState => exact ends_transferState paranoid s
  | restoreState => exact ends_transferState paranoid s
  | forward => exact ⟨s, ⟨s, rfl, s, .inl rfl, s, rfl, rfl⟩, rfl⟩
  | backward => exact ⟨s, ⟨s, rfl, s, .refl, rfl⟩, rfl⟩
  | divide128 => exact ⟨s, ⟨s, rfl, s, .inl rfl, s, rfl, rfl⟩, rfl⟩

theorem op_localX87State (o : Op) (e : Emitter) :
    (o.emit paranoid e).2.localX87State = e.localX87State := by
  cases o with
  | setVectorState c =>
    exact (congrArg Emitter.localX87State (setVectorState_snd paranoid c e)).trans rfl
  | _ => rfl

/-- Before the first switch, an operation that does not transfer the state can leave the machine in
any state the compile-time state allows. -/
theorem exists_ends_op {o : Op} (ho : o.transfers = false) (ht : Synced (o.emit paranoid e).2 t) :
    ∃ s, Synced e s ∧ (o.emit paranoid e).1.Ends Point.step s t := by
  cases o with
  | instr => exact ⟨t, ht, rfl⟩
  | setVectorState c =>
    obtain ⟨hw, hright⟩ := e.tracker.exists_right
    obtain ⟨hvtype, hlocal⟩ : Synced (setVectorState paranoid c e).2 t := ht
    rw [setVectorState_snd] at hvtype hlocal
    refine ⟨⟨hw, t.x87State⟩, ⟨hright, hlocal⟩, ?_⟩
    obtain rfl := Tracker.is_ofVType.mp (hvtype (Option.some_ne_none _))
    exact ends_setVectorState paranoid t.vtype hright
  | call =>
    obtain ⟨hw, hright⟩ := e.tracker.exists_right
    exact ⟨⟨hw, t.x87State⟩, ⟨hright, ht.2⟩, rfl⟩
  | forward => exact ⟨t, ht, t, rfl, t, .inl rfl, t, rfl, rfl⟩
  | backward => exact ⟨t, ht, t, rfl, t, .refl, rfl⟩
  | writebackState | restoreState | divide128 => exact absurd ho (by decide)

/-- The states from which the rest of a block is watched: all that the compile-time state allows as
long as the register set is unknown, and at least one after. -/
structure Starts (e : Emitter) (S : Hart → Prop) : Prop where
  unknown : e.localX87State = none → ∀ s, Synced e s → S s
  known : ∀ x, e.localX87State = some x → ∃ s, S s ∧ s.x87State = x

theorem Starts.exists_x87State {S : Hart → Prop} (h : Starts e S)
    (hx : e.localX87State = none ∨ e.localX87State = some x) : ∃ s, S s ∧ s.x87State = x := by
  rcases hx with hx | hx
  · obtain ⟨hw, hright⟩ := e.tracker.exists_right
    exact ⟨⟨hw, x⟩, h.unknown hx _ ⟨hright, by simp [hx]⟩, rfl⟩
  · exact h.known x hx

/-- A misplaced action shows a difference from some of the states. -/
theorem placed_of_starts {a : Action} {S : Hart → Prop} (h : Starts e S)
    (hbad : ∀ s, S s → ¬Bad (a.emit paranoid e).1 s) : a.Placed e := by
  cases a with
  | op o =>
    intro ho
    by_contra hmmx
    have hx : e.localX87State = none ∨ e.localX87State = some .x87 := by
      match hlocal : e.localX87State with
      | none => exact .inl rfl
      | some .x87 => exact .inr rfl
      | some .mmx => exact absurd hlocal hmmx
    obtain ⟨s, hs, hx87⟩ := h.exists_x87State hx
    exact hbad s hs (bad_op paranoid ho hx87)
  | require x =>
    intro hnone
    by_contra htracker
    have hcode : (Action.require x).emit paranoid e = switchTo paranoid x e := by
      rw [Action.emit_require, if_neg (by simp [hnone])]
    obtain ⟨hw, hright, hne⟩ : ∃ hw, e.tracker.Right hw ∧ hw ≠ mmxVType := by
      by_cases hsew : e.tracker.sew = none
      · exact ⟨⟨.e8, 16, .m1⟩, fun hn ↦ absurd hsew hn, by decide⟩
      · obtain ⟨hw, hright⟩ := e.tracker.exists_right
        exact ⟨hw, hright, fun heq ↦ htracker (heq ▸ hright hsew)⟩
    refine hbad ⟨hw, x⟩ (h.unknown hnone _ ⟨hright, by simp [hnone]⟩) ?_
    rw [hcode]
    exact bad_switchTo paranoid rfl hne

/-- The states after a well-placed action are again enough. -/
theorem Starts.action {a : Action} {S : Hart → Prop} (h : Starts e S) (ha : a.Placed e) :
    Starts (a.emit paranoid e).2 fun t ↦ ∃ s, S s ∧ (a.emit paranoid e).1.Ends Point.step s t := by
  cases a with
  | op o =>
    have hlocal := op_localX87State paranoid o e
    refine ⟨fun hnone t ht ↦ ?_, fun x hx ↦ ?_⟩
    · have hnone' := hlocal.symm.trans hnone
      have ho : o.transfers = false := by
        by_contra htrue
        have hmmx := ha (by simpa using htrue)
        simp [hnone'] at hmmx
      obtain ⟨s, hs, hends⟩ := exists_ends_op paranoid ho ht
      exact ⟨s, h.unknown hnone' s hs, hends⟩
    · obtain ⟨s, hs, hsx⟩ := h.known x (hlocal.symm.trans hx)
      obtain ⟨t, hends, ht⟩ := ends_op (e := e) paranoid o s
      exact ⟨t, ⟨s, hs, hends⟩, ht.trans hsx⟩
  | require x =>
    rw [Action.emit_require]
    split
    · next hlocal =>
      refine ⟨fun hnone ↦ absurd (hlocal.symm.trans hnone) (Option.some_ne_none x), fun y hy ↦ ?_⟩
      obtain ⟨s, hs, hsy⟩ := h.known y hy
      exact ⟨s, ⟨s, hs, rfl⟩, hsy⟩
    · obtain ⟨s, hs⟩ : ∃ s, S s := by
        cases hlocal : e.localX87State with
        | none =>
          obtain ⟨s, hs, -⟩ := h.exists_x87State (x := x) (.inl hlocal)
          exact ⟨s, hs⟩
        | some y =>
          obtain ⟨s, hs, -⟩ := h.known y hlocal
          exact ⟨s, hs⟩
      obtain ⟨t, hends, ht⟩ := ends_switchTo (x := x) (e := e) paranoid s
      have hsnd : (switchTo paranoid x e).2.localX87State = some x := by rw [switchTo_eq]
      refine ⟨fun hnone ↦ absurd (hsnd.symm.trans hnone) (Option.some_ne_none x), fun y hy ↦ ?_⟩
      exact ⟨t, ⟨s, hs, hends⟩, ht.trans (Option.some.inj (hsnd.symm.trans hy))⟩

/-- If no path shows a difference, every action is where it needs to be. -/
theorem allPlaced_of_starts {l : List Action} {S : Hart → Prop} (h : Starts e S)
    (hbad : ∀ s, S s → ¬Bad (all (l.map (Action.emit paranoid)) e).1 s) :
    AllPlaced paranoid e l := by
  induction l generalizing e S with
  | nil =>
    intro pre a post hl
    simp at hl
  | cons a l ih =>
    have ha : a.Placed e := placed_of_starts paranoid h fun s hs hb ↦ hbad s hs hb.head
    refine (allPlaced_cons paranoid).mpr ⟨ha, ih (h.action paranoid ha) ?_⟩
    rintro t ⟨s, hs, hends⟩ hb
    exact hbad s hs (hb.tail hends)

end Necessary

/-! ## The condition on the block -/

section Block

variable (paranoid : Bool) {e : Emitter}

/-- The compile-time state has what was last asked for, up to the first switch. -/
structure Follows (e : Emitter) (request : Option VType) (required : Option X87State) : Prop where
  tracker : required = none → ∀ c, e.tracker.Is c ↔ request = some c
  localX87State : e.localX87State = required

theorem follows_of_sew {required : Option X87State} (hsew : e.tracker.sew = none)
    (hlocal : e.localX87State = required) : Follows e none required where
  tracker _ c := iff_of_false (Tracker.not_is_of_sew hsew) (Option.some_ne_none c).symm
  localX87State := hlocal

theorem Follows.action {request : Option VType} {required : Option X87State}
    (h : Follows e request required) (a : Action) :
    Follows (a.emit paranoid e).2 (a.request request) (a.required required) := by
  cases a with
  | require x =>
    refine ⟨fun hnone ↦ absurd hnone (Option.some_ne_none x), ?_⟩
    rw [Action.emit_require]
    split
    · next hlocal => exact hlocal
    · rw [switchTo_eq]
      rfl
  | op o =>
    cases o with
    | setVectorState c =>
      have hsnd : ((Action.op (.setVectorState c)).emit paranoid e).2 = _ :=
        setVectorState_snd paranoid c e
      rw [hsnd]
      exact ⟨fun _ d ↦ Tracker.is_ofVType.trans Option.some_inj.symm, h.localX87State⟩
    | instr | forward | backward => exact h
    | call => exact follows_of_sew rfl h.localX87State
    | writebackState | restoreState | divide128 => exact follows_of_sew rfl h.localX87State

theorem Follows.actions {request : Option VType} {required : Option X87State}
    (h : Follows e request required) (l : List Action) :
    Follows (after paranoid e l) (l.foldl Action.request request)
      (l.foldl Action.required required) := by
  induction l generalizing e request required with
  | nil => exact h
  | cons a l ih => exact ih (h.action paranoid a)

theorem follows_after (l : List Action) :
    Follows (after paranoid .initial l) (lastRequest l) (lastRequired l) :=
  (follows_of_sew rfl rfl).actions paranoid l

theorem allPlaced_initial_iff {l : List Action} :
    AllPlaced paranoid .initial l ↔ WellPlaced l := by
  constructor
  · intro h
    refine ⟨fun pre x post hl hnone ↦ ?_, fun pre o post hl ho ↦ ?_⟩
    · have hf := follows_after paranoid pre
      have htracker := h pre (.require x) post hl (hf.localX87State.trans hnone)
      exact (hf.tracker hnone mmxVType).mp htracker
    · have hf := follows_after paranoid pre
      exact hf.localX87State.symm.trans (h pre (.op o) post hl ho)
  · intro h pre a post hl
    have hf := follows_after paranoid pre
    cases a with
    | require x =>
      intro hlocal
      have hnone := hf.localX87State.symm.trans hlocal
      exact (hf.tracker hnone mmxVType).mpr (h.first pre x post hl hnone)
    | op o =>
      intro ho
      exact hf.localX87State.trans (h.transfer pre o post hl ho)

/-- The tracker is right on every path through a block if and only if the first switch of the block
comes right after a request for its own configuration and the state is transferred only while MMX is
the register set in use. -/
theorem tracked_compileSequence_iff (block : List Insn) :
    Tracked (compileSequence paranoid block) ↔ WellPlaced (block.flatMap Insn.actions) := by
  rw [← allPlaced_initial_iff paranoid]
  constructor
  · intro h
    refine allPlaced_of_starts paranoid (S := fun _ ↦ True)
      ⟨fun _ _ _ ↦ trivial, fun x hx ↦ absurd hx.symm (Option.some_ne_none x)⟩ ?_
    rintro s - ⟨p, t, hreach, hok⟩
    exact hok (h s p t hreach)
  · intro h s p t hreach
    have hs : Synced .initial s := ⟨Tracker.right_reset _, fun x hx ↦ absurd hx.symm
      (Option.some_ne_none x)⟩
    exact (sound_all paranoid h s hs).1 p t hreach

/-- `PSHUFW` on two MMX registers. -/
def pshufw : Insn where
  isMmx := true
  isX87 := false
  handler := [.setVectorState ⟨.e64, 1, .m1⟩, .instr, .setVectorState ⟨.e16, 4, .m1⟩, .instr]

/-- A block that starts with `PSHUFW`, entered in the MMX state with bytes as elements: the switch
is jumped over, `setVectorState` emits nothing, and `VMV_SX` finds the wrong element width. -/
theorem not_tracked_pshufw : ¬Tracked (compileSequence false [pshufw]) := by
  intro h
  have hok := h ⟨⟨.e8, 16, .m1⟩, .mmx⟩ ⟨.ofVType mmxVType, .instr⟩ ⟨⟨.e8, 16, .m1⟩, .mmx⟩ ?_
  · exact absurd (hok (Option.some_ne_none _)) (by decide)
  · refine .inr ⟨_, ?_, .inr ⟨_, rfl, .inl ⟨rfl, rfl⟩⟩⟩
    exact ⟨_, rfl, _, .inl ⟨rfl, rfl⟩, _, rfl, _, rfl, rfl⟩

end Block

end Vector

end Felix86
