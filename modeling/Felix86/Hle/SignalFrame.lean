import Felix86.Hle.SignalResume
import Felix86.V2.Recompiler

/-!
# Where a signal frame is put

`setupFrame` takes the stack pointer it finds in `ThreadState`, or `alt_stack.ss_sp` if the handler
was registered with `SA_ONSTACK`, goes down past the red zone and puts the frame there. `ss_sp` is
the lowest address of the alternate stack, so a frame that starts from it is below that stack and
never in it; whether there is an alternate stack, and whether the thread is on it already, is not
asked. The frame is aligned to 8 bytes, which gives the handler the alignment of a called function
for half of the stack pointers. And `ThreadState` has the stack pointer of the interrupted code only
where `reconstruct_state` has looked for it: a second signal in a block that a handler has returned
into finds the one of the first.

This file has the placement, the runs of nested deliveries and returns in which it happens, on the
machine that runs the emitted code, and the condition under which every frame is where it should be.
What the guest does with its stack pointer is constrained only by what a program has to respect to
use a stack at all: the frames that have not returned are not in the free part of the stack it runs
on.
-/

namespace Felix86

/-- `RSP`. -/
abbrev Reg.rsp : Reg := .gpr Jit.rsp

namespace SignalFrame

open Signals (Machine)

/-- `ThreadState::alt_stack`. -/
structure AltStack where
  ssSp : BitVec 64
  ssSize : BitVec 64
  disable : Bool
deriving DecidableEq, Repr

/-- `sizeof(x64_rt_sigframe)`. -/
def frameSize : ℕ := 1120

/-- The address of the frame, from the stack pointer it starts with. -/
def frameAddress (rsp : BitVec 64) : BitVec 64 :=
  let rsp := rsp - 128#64
  let rsp := rsp - 8#64
  let rsp := rsp - rsp % 8#64
  rsp - BitVec.ofNat 64 frameSize

/-- The stack pointer `setupFrame` starts with. It does not get the `use_altstack` that
`dispatch_guest` computes, and looks at the flags again. -/
def startRsp (onStack : Bool) (alt : AltStack) (found : BitVec 64) : BitVec 64 :=
  if onStack then alt.ssSp else found

/-- The check of `sigaltstack`: the size is compared with, and not the end. -/
def AltStack.running (alt : AltStack) (rsp : BitVec 64) : Bool :=
  !alt.disable && alt.ssSp ≤ rsp && rsp < alt.ssSize

/-- The memory of a stack of the guest, from its lowest address up. -/
structure Stack where
  lo : ℕ
  hi : ℕ
deriving DecidableEq, Repr

/-- A delivery that has not returned: where its frame is, the stack pointer and the stack of the
code it interrupted, and the stack pointer that is in the frame. -/
structure Frame where
  address : BitVec 64
  rsp : BitVec 64
  found : BitVec 64
  stack : Stack
deriving DecidableEq, Repr

/-- Everything a delivery depends on, and what it does: the frame, the stack pointer the handler
starts with, and the word at the start of the frame. `found` is the stack pointer in `ThreadState`;
`rsp`, the one of the interrupted code, and `outer` are recorded. -/
structure Delivery where
  onStack : Bool
  restorer : BitVec 64
  alt : AltStack
  rsp : BitVec 64
  found : BitVec 64
  stack : Stack
  outer : List Frame
  frame : BitVec 64
  entryRsp : BitVec 64
  pretcode : BitVec 64
deriving DecidableEq, Repr

/-- `setupFrame`, as far as the placement goes. A null stack pointer is an error, and a handler
without a restorer an assertion. -/
def setupFrame (onStack : Bool) (restorer : BitVec 64) (alt : AltStack) (rsp found : BitVec 64)
    (stack : Stack) (outer : List Frame) : Option Delivery :=
  if startRsp onStack alt found = 0 then none
  else if restorer = 0 then none
  else some
    { onStack := onStack
      restorer := restorer
      alt := alt
      rsp := rsp
      found := found
      stack := stack
      outer := outer
      frame := frameAddress (startRsp onStack alt found)
      entryRsp := frameAddress (startRsp onStack alt found)
      pretcode := restorer }

/-! ## Where it should be -/

/-- The stack pointer is in the alternate stack. -/
def AltStack.Contains (alt : AltStack) (rsp : BitVec 64) : Prop :=
  alt.ssSp.toNat ≤ rsp.toNat ∧ rsp.toNat < alt.ssSp.toNat + alt.ssSize.toNat

/-- There is an alternate stack. -/
def AltStack.Enabled (alt : AltStack) : Prop := alt.disable = false ∧ alt.ssSp ≠ 0

/-- Two ranges of bytes have none in common. -/
def Apart (start size other otherSize : ℕ) : Prop :=
  start + size ≤ other ∨ other + otherSize ≤ start

namespace Delivery

variable (d : Delivery)

/-- The handler should run on the alternate stack. -/
def UsesAlt : Prop := d.onStack = true ∧ d.alt.Enabled ∧ ¬d.alt.Contains d.rsp

/-- The frame is in the right stack, apart from what the interrupted code has on its stack and from
every frame that has not returned, and the handler finds its return address and an aligned stack. -/
structure Good : Prop where
  alt : d.UsesAlt → d.alt.ssSp.toNat ≤ d.frame.toNat ∧
    d.frame.toNat + frameSize ≤ d.alt.ssSp.toNat + d.alt.ssSize.toNat
  stack : ¬d.UsesAlt → d.stack.lo ≤ d.frame.toNat ∧ d.frame.toNat + frameSize + 128 ≤ d.rsp.toNat
  live : Apart d.frame.toNat frameSize (d.rsp.toNat - 128) (d.stack.hi - (d.rsp.toNat - 128))
  outer : ∀ f ∈ d.outer, Apart d.frame.toNat frameSize f.address.toNat frameSize
  align : d.entryRsp.toNat % 16 = 8
  entry : d.entryRsp = d.frame ∧ d.pretcode = d.restorer

end Delivery

/-! ## Runs -/

/-- A thread: the machine that runs its code, the stack the code runs on, the deliveries that have
not returned, every delivery so far, and whether `setupFrame` has given up. -/
structure Thread where
  machine : Machine
  stack : Stack
  alt : AltStack
  outer : List Frame
  log : List Delivery
  aborted : Bool

/-- The frames that have not returned are not in the free part of the stack. The return address of
the innermost may have been popped. -/
def Clear (rsp : BitVec 64) (stack : Stack) (outer : List Frame) : Prop :=
  ∀ f ∈ outer, rsp.toNat ≤ f.address.toNat + 8 ∨ f.address.toNat + frameSize ≤ stack.lo

namespace Thread

variable (s : Thread)

/-- The stack pointer of the code that is running. -/
def rsp : BitVec 64 := s.machine.taken .rsp

/-- The stack pointer in `ThreadState` when `setupFrame` asks for it: in a block `reconstruct_state`
comes before. -/
def found : BitVec 64 :=
  if Signals.inJit s.machine.code then
    (s.machine.ts.reconstructState s.machine.host).values .rsp
  else s.machine.ts.values .rsp

/-- `setupFrame`, in this state. -/
def setupFrame (onStack : Bool) (restorer : BitVec 64) : Option Delivery :=
  SignalFrame.setupFrame onStack restorer s.alt s.rsp s.found s.stack s.outer

/-- The stack a handler runs on. -/
def handlerStack (onStack : Bool) : Stack :=
  if onStack then ⟨s.alt.ssSp.toNat, s.alt.ssSp.toNat + s.alt.ssSize.toNat⟩ else s.stack

/-- What happens: the machine goes on between two signals, and may change to another stack; it calls
`sigaltstack`, a signal is delivered, or a handler returns, with what is in its frame by then. -/
inductive Event
  | guest (events : List Machine.Event) (stack : Stack)
  | sigaltstack (new : AltStack)
  | deliver (onStack : Bool) (restorer actualRip sig func : BitVec 64) (host : HostRegs)
  | sigreturn (frame : SigFrame) (stack : Stack)

/-- One step. A handler that returns leaves the stack pointer in its frame as it was, or moves it to
a place where it may be. -/
inductive Step : Thread → Event → Thread → Prop
  | guest {s : Thread} {events : List Machine.Event} {m : Machine} {stack : Stack}
      (hrun : Run Machine.Step s.machine events m) (hplain : ∀ e ∈ events, e.Plain)
      (hclear : Clear (m.taken .rsp) stack s.outer) :
      Step s (.guest events stack) { s with machine := m, stack := stack }
  | sigaltstack {s : Thread} {new : AltStack} :
      Step s (.sigaltstack new)
        { s with alt := if s.alt.running (s.machine.ts.values .rsp) then s.alt else new }
  | deliver {s : Thread} {onStack : Bool} {restorer actualRip sig func : BitVec 64}
      {host : HostRegs} {d : Delivery} (h : s.setupFrame onStack restorer = some d) :
      Step s (.deliver onStack restorer actualRip sig func host)
        { s with
          machine := s.machine.deliver actualRip d.entryRsp sig func host
          stack := s.handlerStack onStack
          outer := ⟨d.frame, s.rsp, s.found, s.stack⟩ :: s.outer
          log := s.log ++ [d] }
  | error {s : Thread} {onStack : Bool} {restorer actualRip sig func : BitVec 64}
      {host : HostRegs} (h : s.setupFrame onStack restorer = none) :
      Step s (.deliver onStack restorer actualRip sig func host) { s with aborted := true }
  | sigreturn {s : Thread} {frame : SigFrame} {m : Machine} {stack : Stack} {f : Frame}
      {rest : List Frame} (hstep : Machine.Step s.machine (.sigreturn frame) m)
      (houter : s.outer = f :: rest)
      (hstack : m.taken .rsp = f.found ∧ stack = f.stack ∨ Clear (m.taken .rsp) stack rest) :
      Step s (.sigreturn frame stack) { s with machine := m, stack := stack, outer := rest }

/-- Every frame so far was where it should be. -/
def Sound : Prop := s.aborted = false ∧ ∀ d ∈ s.log, d.Good

/-- The handler was not registered for the alternate stack and has a restorer, `ThreadState` has the
stack pointer of the interrupted code, it is in the lower half of 16 bytes, and there is room for a
frame. -/
def StepOk : Event → Prop
  | .deliver onStack restorer .. => onStack = false ∧ restorer ≠ 0 ∧ s.found = s.rsp ∧
    s.rsp.toNat % 16 < 8 ∧ s.stack.lo + 1256 + s.rsp.toNat % 8 ≤ s.rsp.toNat
  | _ => True

end Thread

/-- A thread at its start. -/
def Thread.initial (m : Machine) (stack : Stack) : Thread :=
  ⟨m, stack, ⟨0, 0, false⟩, [], [], false⟩

/-! ## One delivery -/

theorem toNat_frameAddress {rsp : BitVec 64} (h : 1256 + rsp.toNat % 8 ≤ rsp.toNat) :
    (frameAddress rsp).toNat = rsp.toNat - rsp.toNat % 8 - 1256 := by
  have hred : (rsp - 128#64 - 8#64).toNat = rsp.toNat - 136 := by bv_omega
  have halign : (rsp - 128#64 - 8#64 - (rsp - 128#64 - 8#64) % 8#64).toNat =
      rsp.toNat - 136 - rsp.toNat % 8 := by
    have hmod : (rsp - 128#64 - 8#64) % 8#64 ≤ rsp - 128#64 - 8#64 := by
      rw [BitVec.le_def, BitVec.toNat_umod]
      exact Nat.mod_le _ _
    rw [BitVec.toNat_sub_of_le hmod, BitVec.toNat_umod, hred]
    change rsp.toNat - 136 - (rsp.toNat - 136) % 8 = _
    omega
  have hle : (1120#64).toNat ≤ (rsp - 128#64 - 8#64 - (rsp - 128#64 - 8#64) % 8#64).toNat := by
    rw [halign]
    change 1120 ≤ _
    omega
  rw [frameAddress, frameSize, BitVec.toNat_sub_of_le (BitVec.le_def.mpr hle), halign]
  change _ - 1120 = _
  omega

section Placed

variable {restorer : BitVec 64} {alt : AltStack} {rsp : BitVec 64} {stack : Stack}
  {outer : List Frame}

/-- On the stack of the interrupted code the frame is below the red zone, in the free part. -/
theorem good_of_setupFrame {d : Delivery}
    (hd : setupFrame false restorer alt rsp rsp stack outer = some d)
    (hclear : Clear rsp stack outer) (halign : rsp.toNat % 16 < 8)
    (hroom : stack.lo + 1256 + rsp.toNat % 8 ≤ rsp.toNat) : d.Good := by
  rw [setupFrame] at hd
  split_ifs at hd
  obtain rfl := Option.some.inj hd
  have hframe : (frameAddress (startRsp false alt rsp)).toNat =
      rsp.toNat - rsp.toNat % 8 - 1256 := by
    change (frameAddress rsp).toNat = _
    exact toNat_frameAddress (by omega)
  refine ⟨fun h ↦ absurd h.1 Bool.false_ne_true, fun _ ↦ ?_, ?_, fun f hf ↦ ?_, ?_, rfl, rfl⟩
  · dsimp only
    rw [hframe, frameSize]
    omega
  · refine .inl ?_
    dsimp only
    rw [hframe, frameSize]
    omega
  · dsimp only
    rw [hframe]
    obtain habove | hbelow := hclear f hf
    · exact .inl (by rw [frameSize]; omega)
    · exact .inr (by omega)
  · dsimp only
    rw [hframe]
    omega

end Placed

/-- It does not give up there. -/
theorem exists_setupFrame (alt : AltStack) (stack : Stack) (outer : List Frame)
    {restorer rsp : BitVec 64} (hrestorer : restorer ≠ 0) (hrsp : rsp ≠ 0) :
    ∃ d, setupFrame false restorer alt rsp rsp stack outer = some d ∧ d.rsp = rsp ∧
      d.frame = frameAddress rsp ∧ d.entryRsp = frameAddress rsp := by
  have hstart : startRsp false alt rsp ≠ 0 := hrsp
  rw [setupFrame, if_neg hstart, if_neg hrestorer]
  exact ⟨_, rfl, rfl, rfl, rfl⟩

/-! ## The condition along runs -/

namespace Thread

variable {s t : Thread} {e : Event}

/-- The handler starts with the stack pointer that it is given. -/
theorem taken_deliver_rsp (m : Machine) (actualRip address sig func : BitVec 64)
    (host : HostRegs) : (m.deliver actualRip address sig func host).taken .rsp = address := by
  have hcode : Signals.takesFromHost .rsp Signals.enterDispatcher = false := by decide
  have htaken : (m.deliver actualRip address sig func host).taken .rsp =
      ((m.pulled actualRip).enterHandler address sig func).values .rsp := by
    rw [Machine.taken]
    exact if_neg (by rw [Machine.deliver, hcode]; exact Bool.false_ne_true)
  rw [htaken]
  rfl

/-- In a block `ThreadState` has the stack pointer unless a handler has returned into the block. -/
theorem found_eq_current (h : s.machine.Tracked) (hjit : Signals.inJit s.machine.code = true)
    (hresumed : ¬s.machine.Resumed) : s.found = s.machine.current .rsp := by
  rw [found, if_pos hjit]
  exact congrFun ((h.reconstructs_iff_not_resumed hjit).mpr hresumed).2 .rsp

/-- The interrupted code of every delivery respects the frames of the deliveries around it, and its
stack pointer is in the frame. -/
def Nested : List Frame → Prop
  | [] => True
  | f :: rest => (f.found = f.rsp ∧ Clear f.rsp f.stack rest) ∧ Nested rest

/-- What every step keeps. -/
structure Inv (s : Thread) : Prop where
  clear : Clear s.rsp s.stack s.outer
  nested : Nested s.outer
  sound : s.Sound

theorem inv_initial (m : Machine) (stack : Stack) : (initial m stack).Inv :=
  ⟨fun _ h ↦ absurd h List.not_mem_nil, trivial, rfl, fun _ h ↦ absurd h List.not_mem_nil⟩

theorem Inv.deliver (h : s.Inv) {restorer : BitVec 64} (actualRip sig func : BitVec 64)
    (host : HostRegs) {d : Delivery} (hd : s.setupFrame false restorer = some d)
    (hfound : s.found = s.rsp) (halign : s.rsp.toNat % 16 < 8)
    (hroom : s.stack.lo + 1256 + s.rsp.toNat % 8 ≤ s.rsp.toNat) :
    ({ s with
      machine := s.machine.deliver actualRip d.entryRsp sig func host
      stack := s.handlerStack false
      outer := ⟨d.frame, s.rsp, s.found, s.stack⟩ :: s.outer
      log := s.log ++ [d] } : Thread).Inv := by
  rw [setupFrame, hfound] at hd
  have hgood := good_of_setupFrame hd h.clear halign hroom
  have hentry := hgood.entry.1
  have hbelow : d.frame.toNat ≤ s.rsp.toNat := by
    rw [SignalFrame.setupFrame] at hd
    split_ifs at hd
    obtain rfl := Option.some.inj hd
    change (frameAddress s.rsp).toNat ≤ _
    rw [toNat_frameAddress (by omega)]
    omega
  refine ⟨fun f hf ↦ ?_, ⟨⟨hfound, h.clear⟩, h.nested⟩, h.sound.1, fun c hc ↦ ?_⟩
  · -- the frames of the outer deliveries are where they were, and the stack pointer went down
    rw [rsp, taken_deliver_rsp, hentry]
    obtain rfl | hold := List.mem_cons.mp hf
    · exact .inl (Nat.le_add_right _ _)
    · exact (h.clear f hold).imp_left hbelow.trans
  · obtain hold | hnew := List.mem_append.mp hc
    · exact h.sound.2 c hold
    · obtain rfl := List.mem_singleton.mp hnew
      exact hgood

theorem Inv.step (h : s.Inv) (hstep : Guarded StepOk Step s e t) : t.Inv := by
  obtain ⟨hok, hstep⟩ := hstep
  cases hstep with
  | guest hrun hplain hclear => exact ⟨hclear, h.nested, h.sound⟩
  | sigaltstack => exact ⟨h.clear, h.nested, h.sound⟩
  | deliver hd =>
    obtain ⟨rfl, -, hfound, halign, hroom⟩ := hok
    exact h.deliver _ _ _ _ hd hfound halign hroom
  | error hd =>
    obtain ⟨rfl, hrestorer, hfound, -, hroom⟩ := hok
    have hrsp : s.rsp ≠ 0 := by
      intro hzero
      rw [hzero] at hroom
      exact absurd hroom (by simp)
    obtain ⟨d, hsome, -⟩ := exists_setupFrame s.alt s.stack s.outer hrestorer hrsp
    rw [setupFrame, hfound, hsome] at hd
    exact absurd hd (by simp)
  | @sigreturn frame m stack f rest hreturn houter hstack =>
    have hnested := h.nested
    rw [houter] at hnested
    obtain ⟨⟨hfound, hclear⟩, hrest⟩ := hnested
    refine ⟨?_, hrest, h.sound⟩
    obtain ⟨hrsp, rfl⟩ | hclear' := hstack
    · change Clear (m.taken .rsp) f.stack rest
      rwa [hrsp, hfound]
    · exact hclear'

open Signals (enterDispatcher inJit takesFromHost)

/-- A new thread with a stack. -/
def started : Machine :=
  { Machine.fresh with
    ts := { Machine.fresh.ts with
      values := Function.update Machine.fresh.ts.values .rsp 0x7FFF0000#64 } }

/-- The stack of the program. -/
def mainStack : Stack := ⟨0x7FF00000, 0x7FFF8000⟩

/-- Code that moves the stack pointer. -/
def setRsp (rsp : BitVec 64) (host : HostRegs) (inPlace : InPlace) : HostRegs × InPlace :=
  ({ host with regs := Function.update host.regs .rsp rsp }, inPlace)

/-- A frame with a stack pointer and the address that was interrupted. -/
def savedFrame (rsp rip : BitVec 64) : SigFrame :=
  ⟨fun _ ↦ rsp, rip, 0, fun _ ↦ 0, fun _ ↦ ⟨0, 0⟩, 0, 0, 0, 0⟩

/-- A dispatcher that has just been entered reaches a block that moves the stack pointer. -/
theorem exists_run_setRsp {m : Machine} (hcode : m.code = enterDispatcher)
    (hphase : m.phase = .entering) (rsp : BitVec 64) :
    ∃ events u, Run Machine.Step m events u ∧ (∀ e ∈ events, e.Plain) ∧
      u.code = [⟨true, .goto⟩] ∧ u.phase = .live ∧ u.ts.stateIsCorrect = false ∧
        u.stack = m.stack ∧ u.host.regs .rsp = rsp := by
  obtain ⟨events, u, hrun, hplain, hblock, hlive, hflag, -, hstack, -⟩ :=
    Machine.exists_run_block hcode hphase [.plain (setRsp rsp)]
  have hmove : Machine.Step u .exec { u.exec (.host (setRsp rsp)) with code := [⟨true, .goto⟩] } :=
    .exec hblock trivial
  refine ⟨_, _, hrun.snoc hmove, fun e he ↦ ?_, rfl, hlive, hflag, hstack, ?_⟩
  · obtain he | he := List.mem_append.mp he
    · exact hplain e he
    · obtain rfl := List.mem_singleton.mp he
      trivial
  · exact Function.update_self Reg.rsp rsp u.host.regs

/-- Code that is about to jump reaches the system call of a handler's return. -/
theorem exists_run_return {m : Machine} {jit : Bool} (hcode : m.code = [⟨jit, .goto⟩])
    (hphase : m.phase = .live) :
    ∃ events u, Run Machine.Step m events u ∧ (∀ e ∈ events, e.Plain) ∧
      u.code = Machine.returnTail ∧
      u.ts.stateIsCorrect = true ∧ u.stack = m.stack ∧ u.taken .rsp = m.host.regs .rsp := by
  obtain ⟨events, u, hrun, hplain, hreturn, hsaved, hflag, hstack, hcurrent⟩ :=
    Machine.exists_run_returnCall hcode hphase
  refine ⟨events, u, hrun, hplain, hreturn, hflag, hstack, ?_⟩
  have hrsp := congrFun hcurrent .rsp
  rw [Machine.current, Machine.current, hphase, hsaved] at hrsp
  rw [Machine.taken, hreturn]
  exact hrsp

/-- So does a dispatcher that has just been entered. -/
theorem exists_run_enter_return {m : Machine} (hcode : m.code = enterDispatcher)
    (hphase : m.phase = .entering) :
    ∃ events u, Run Machine.Step m events u ∧ (∀ e ∈ events, e.Plain) ∧
      u.code = Machine.returnTail ∧
      u.ts.stateIsCorrect = true ∧ u.stack = m.stack ∧ u.taken .rsp = m.ts.values .rsp := by
  have hsaved : m.phase ≠ .live := by simp [hphase]
  obtain ⟨t, hload, hgoto, hlive, -, -, hstack, hcurrent⟩ := Machine.run_restoreState hcode hsaved
  obtain ⟨events, u, hrun, hplain, hreturn, hflag, hstack', htaken⟩ := exists_run_return hgoto hlive
  refine ⟨_, u, hload.trans hrun, fun e he ↦ ?_, hreturn, hflag, hstack'.trans hstack, ?_⟩
  · obtain he | he := List.mem_append.mp he
    · obtain rfl := List.eq_of_mem_replicate he
      trivial
    · exact hplain e he
  · have hrsp := congrFun hcurrent .rsp
    rw [Machine.current, Machine.current, hlive, hphase] at hrsp
    exact htaken.trans hrsp

/-- A signal that finds the stack pointer. -/
theorem exists_deliver {s : Thread} {rsp address : BitVec 64} (hrsp : s.rsp = rsp)
    (hfound : s.found = rsp) (haddress : frameAddress rsp = address) (halign : rsp.toNat % 16 < 8)
    (hroom : s.stack.lo + 1256 + rsp.toNat % 8 ≤ rsp.toNat) (actualRip : BitVec 64) :
    ∃ d, d.rsp = rsp ∧ d.frame = address ∧ Guarded StepOk Step s
      (.deliver false 0x401000#64 actualRip 10#64 0x2000#64 Machine.zeroHost)
      ⟨s.machine.deliver actualRip address 10#64 0x2000#64 Machine.zeroHost, s.stack, s.alt,
        ⟨address, rsp, rsp, s.stack⟩ :: s.outer, s.log ++ [d], s.aborted⟩ := by
  subst haddress
  have hne : rsp ≠ 0 := by
    rintro rfl
    exact absurd hroom (by simp)
  have hrestorer : 0x401000#64 ≠ 0 := by decide
  obtain ⟨d, hd, hrecorded, hframe, hentry⟩ := exists_setupFrame s.alt s.stack s.outer hrestorer hne
  have hsetup : s.setupFrame false 0x401000#64 = some d := by rw [setupFrame, hrsp, hfound, hd]
  have hok : s.StepOk
      (.deliver false 0x401000#64 actualRip 10#64 0x2000#64 Machine.zeroHost) :=
    ⟨rfl, by decide, hfound.trans hrsp.symm, by rwa [hrsp], by rwa [hrsp]⟩
  refine ⟨d, hrecorded, hframe, hok, ?_⟩
  have hstep : Step s (.deliver false 0x401000#64 actualRip 10#64 0x2000#64 Machine.zeroHost) _ :=
    .deliver hsetup
  rwa [hframe, hentry, hrsp, hfound] at hstep

section Snoc

variable {events : List Event} {f : Frame} {rest : List Frame}

/-- The machine goes on, on the same stack. -/
theorem snoc_guest (rsp : BitVec 64) {es : List Machine.Event} {m : Machine}
    (hrun : Run (Guarded StepOk Step) s events t) (hgoes : Run Machine.Step t.machine es m)
    (hplain : ∀ e ∈ es, e.Plain) (hrsp : m.taken .rsp = rsp)
    (hclear : ∀ f ∈ t.outer, rsp.toNat ≤ f.address.toNat + 8) :
    Run (Guarded StepOk Step) s (events ++ [.guest es t.stack])
      ⟨m, t.stack, t.alt, t.outer, t.log, t.aborted⟩ := by
  refine hrun.snoc ⟨trivial, .guest hgoes hplain fun f hf ↦ .inl ?_⟩
  rw [hrsp]
  exact hclear f hf

/-- A handler returns and leaves the stack pointer in its frame. -/
theorem snoc_sigreturn (frame : SigFrame) {c : Signals.Context} {contexts : List Signals.Context}
    (hrun : Run (Guarded StepOk Step) s events t) (hcode : t.machine.code = Machine.returnTail)
    (hcontext : t.machine.stack = c :: contexts) (houter : t.outer = f :: rest)
    (hrsp : (t.machine.sigreturn frame c contexts).taken .rsp = f.found) :
    Run (Guarded StepOk Step) s (events ++ [.sigreturn frame f.stack])
      ⟨t.machine.sigreturn frame c contexts, f.stack, t.alt, rest, t.log, t.aborted⟩ :=
  hrun.snoc ⟨trivial, .sigreturn (.sigreturn frame hcode hcontext) houter (.inl ⟨hrsp, rfl⟩)⟩

/-- A handler returns into the block it interrupted. -/
theorem snoc_sigreturn_block {m : Machine} {contexts : List Signals.Context} {rip : BitVec 64}
    (hrun : Run (Guarded StepOk Step) s events t) (hcode : t.machine.code = Machine.returnTail)
    (hjit : inJit m.code = true) (houter : t.outer = f :: rest)
    (hcontext : t.machine.stack = ⟨m.host, m.code, m.phase, (m.pulled rip).rip⟩ :: contexts) :
    Run (Guarded StepOk Step) s (events ++ [.sigreturn (savedFrame f.found rip) f.stack])
      ⟨⟨t.machine.ts.sigreturn (savedFrame f.found rip),
          m.host.resume (t.machine.ts.sigreturn (savedFrame f.found rip)), m.code, m.phase,
          m.phase = .live, contexts⟩,
        f.stack, t.alt, rest, t.log, t.aborted⟩ := by
  have hresume := Machine.sigreturn_of_inJit hjit (savedFrame f.found rip) rfl t.machine contexts
  rw [← hresume]
  refine snoc_sigreturn _ hrun hcode hcontext houter ?_
  -- both places have the stack pointer of the frame
  rw [hresume, Machine.taken]
  split <;> rfl

end Snoc

/-- The first frame on the stack. -/
def firstFrame : Frame := ⟨0x7FFEFB18#64, 0x7FFF0000#64, 0x7FFF0000#64, mainStack⟩

/-- The frame of a signal below it. -/
def secondFrame : Frame := ⟨0x7FFEF518#64, 0x7FFEFA00#64, 0x7FFEFA00#64, mainStack⟩

theorem frameAddress_rsp : frameAddress firstFrame.rsp = firstFrame.address ∧
    frameAddress secondFrame.rsp = secondFrame.address := by decide

/-- The second frame is below the stack pointer of the code it interrupts, and that one below the
first. -/
theorem clear_frames :
    (∀ f ∈ [firstFrame], (0x7FFEFA00#64).toNat ≤ f.address.toNat + 8) ∧
      (∀ f ∈ [secondFrame, firstFrame], (0x7FFEF518#64).toNat ≤ f.address.toNat + 8) := by
  decide

/-- A signal comes in a block, its handler returns, the block moves the stack pointer down and
another signal comes: the second frame is where the first was, above the stack pointer. -/
theorem not_sound_resumed :
    ∃ events s, Run Step (initial started mainStack) events s ∧
      s.log.map Delivery.frame = [0x7FFEFB18#64, 0x7FFEFB18#64] ∧
        s.log.map Delivery.rsp = [0x7FFF0000#64, 0x7FFEF000#64] ∧ ¬s.Sound := by
  -- a signal at the start of the block
  obtain ⟨es₀, m₀, hgoes₀, hplain₀, hcode₀, hlive₀, hflag₀, -, -, hcurrent₀⟩ :=
    Machine.exists_run_block (s := started) rfl rfl [.plain (setRsp 0x7FFEF000#64)]
  let s₀ : Thread := ⟨m₀, mainStack, ⟨0, 0, false⟩, [], [], false⟩
  have hrsp₀ : m₀.host.regs .rsp = 0x7FFF0000#64 := by
    have hrsp := congrFun hcurrent₀ .rsp
    rw [Machine.current, hlive₀] at hrsp
    exact hrsp
  have htaken₀ : s₀.rsp = 0x7FFF0000#64 := by
    rw [rsp, Machine.taken, hcode₀]
    exact hrsp₀
  have hjit₀ : inJit s₀.machine.code = true := by rw [hcode₀]; rfl
  have hfound₀ : s₀.found = 0x7FFF0000#64 := by
    rw [found, if_pos hjit₀, ThreadState.reconstructState, if_neg (by rw [hflag₀]; decide)]
    exact hrsp₀
  have hrun₀ : Run (Guarded StepOk Step) (initial started mainStack) _ s₀ :=
    snoc_guest _ (.nil _) hgoes₀ hplain₀ htaken₀ fun _ hf ↦ absurd hf List.not_mem_nil
  have hroom : mainStack.lo + 1256 + (0x7FFF0000#64).toNat % 8 ≤ (0x7FFF0000#64).toNat := by decide
  obtain ⟨d₁, hrecorded₁, hframe₁, hdeliver₁⟩ := exists_deliver htaken₀ hfound₀ frameAddress_rsp.1
    (by decide) hroom 0x3000#64
  -- its handler returns
  obtain ⟨es₁, m₁, hgoes₁, hplain₁, hcode₁, hflag₁, hstack₁, htaken₁⟩ := exists_run_enter_return
    (m := m₀.deliver 0x3000#64 0x7FFEFB18#64 10#64 0x2000#64 Machine.zeroHost) rfl rfl
  let s₁ : Thread := ⟨m₁, mainStack, ⟨0, 0, false⟩, [firstFrame], [d₁], false⟩
  have hclear₁ : ∀ f ∈ [firstFrame], (0x7FFEFB18#64).toNat ≤ f.address.toNat + 8 := by decide
  have hrun₁ : Run (Guarded StepOk Step) (initial started mainStack) _ s₁ :=
    snoc_guest 0x7FFEFB18#64 (hrun₀.snoc hdeliver₁) hgoes₁ hplain₁ htaken₁ hclear₁
  have hback₁ := snoc_sigreturn_block (m := m₀) hrun₁ hcode₁ hjit₀ rfl hstack₁
  -- the block moves the stack pointer
  let back : Machine := ⟨m₁.ts.sigreturn (savedFrame 0x7FFF0000#64 0x3000#64),
    m₀.host.resume (m₁.ts.sigreturn (savedFrame 0x7FFF0000#64 0x3000#64)), m₀.code, m₀.phase,
    m₀.phase = .live, m₀.stack⟩
  let m₂ : Machine := { back.exec (.host (setRsp 0x7FFEF000#64)) with code := [⟨true, .goto⟩] }
  let s₂ : Thread := ⟨m₂, mainStack, ⟨0, 0, false⟩, [], [d₁], false⟩
  have hmove : Run Machine.Step back [.exec] m₂ := .single (.exec hcode₀ trivial)
  have hrun₂ : Run (Guarded StepOk Step) (initial started mainStack) _ s₂ :=
    snoc_guest 0x7FFEF000#64 hback₁ hmove (by simp [Machine.Event.Plain]) rfl
      fun _ hf ↦ absurd hf List.not_mem_nil
  -- and the next signal finds the old one
  have hfound₂ : s₂.found = 0x7FFF0000#64 := by
    have hflag₂ : s₂.machine.ts.stateIsCorrect = true := hflag₁
    have hjit₂ : inJit s₂.machine.code = true := rfl
    rw [found, if_pos hjit₂, ThreadState.reconstructState, if_pos hflag₂]
    rfl
  let d₂ : Delivery := ⟨false, 0x401000#64, ⟨0, 0, false⟩, 0x7FFEF000#64, 0x7FFF0000#64,
    mainStack, [], 0x7FFEFB18#64, 0x7FFEFB18#64, 0x401000#64⟩
  have hstale : SignalFrame.setupFrame false 0x401000#64 ⟨0, 0, false⟩ 0x7FFEF000#64 0x7FFF0000#64
      mainStack [] = some d₂ := by decide
  have hrsp₂ : s₂.rsp = 0x7FFEF000#64 := rfl
  have hsetup : s₂.setupFrame false 0x401000#64 = some d₂ := by
    rw [setupFrame, hfound₂, hrsp₂]
    exact hstale
  have hdeliver₂ :
      Step s₂ (.deliver false 0x401000#64 0x3000#64 10#64 0x2000#64 Machine.zeroHost) _ :=
    .deliver hsetup
  refine ⟨_, _, hrun₂.of_guarded.snoc hdeliver₂, ?_, ?_, fun h ↦ ?_⟩
  · change [d₁.frame, _] = _
    rw [hframe₁]
    rfl
  · change [d₁.rsp, _] = _
    rw [hrecorded₁]
  · have hgood := h.2 _ (List.mem_append_right _ List.mem_cons_self)
    have hbelow := hgood.stack fun huses ↦ absurd huses.1 Bool.false_ne_true
    exact absurd hbelow.2 (by decide)

end Thread

end SignalFrame

end Felix86
