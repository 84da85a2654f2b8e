import Felix86.Hle.SignalContext
import Felix86.Lib.Run

/-!
# Whether `ThreadState` is correct

`writebackState` stores the guest's registers in `ThreadState` and then sets `state_is_correct`;
`restoreState` loads them and then clears it. A signal that comes in a block looks at the flag to
see where the registers are. The handler runs in a dispatcher of its own, and `rt_sigreturn` leaves
that dispatcher from inside a system call, so the flag is always set when the interrupted code goes
on.

Here are the emitted code, one host instruction at a time as far as the flag is concerned, the
machine that runs it with signals at any point and to any depth, and the exact account of the flag:
in a block it is set if `ThreadState` has the registers or if a handler has returned into the block
since they were last loaded.
-/

namespace Felix86

namespace Signals

/-- Where the guest's registers are: in `ThreadState`, before the first `restoreState` of a
dispatcher or after a `writebackState`, or in the host's registers. -/
inductive Phase
  | entering
  | saved
  | live
deriving DecidableEq, Repr

/-- Emitted code and the C++ it calls. `host` is any code that works on host registers and on the
fields of `ThreadState` it changes in place. `mark` is the store to `state_is_correct`. `cpp` is a
piece of C++ between two points where a signal may come; it does what it likes to `ThreadState`,
except to the flag. `goto` is the jump at the end. -/
inductive Op
  | host (f : HostRegs → InPlace → HostRegs × InPlace)
  | storeRip
  | loadRip
  | store (r : Reg)
  | load (r : Reg)
  | mark (correct : Bool)
  | cpp (f : ThreadState → ThreadState) (g : HostRegs → HostRegs)
  | sigreturn
  | goto

/-- Operations that just go on to the next one. -/
def Op.Straight : Op → Prop
  | .sigreturn => False
  | .goto => False
  | _ => True

/-- An operation and whether its address is in the code cache. -/
structure Instr where
  jit : Bool
  op : Op

/-! ## Emitted code -/

/-- The registers in the order they are stored and loaded. -/
def allRegs : List Reg :=
  (List.finRange 16).map .gpr ++ (List.finRange 16).map .xmm ++ (List.finRange 8).map .fp ++
    [.cf, .zf, .sf, .of]

theorem mem_allRegs (r : Reg) : r ∈ allRegs := by
  cases r <;> simp [allRegs]

/-- `writebackState`. -/
def writebackState : List Op := .storeRip :: allRegs.map .store ++ [.mark true]

/-- `restoreState`. -/
def restoreState : List Op := .loadRip :: allRegs.map .load ++ [.mark false]

theorem straight_writebackState : ∀ op ∈ writebackState, op.Straight := by
  intro op hop
  simp only [writebackState, List.cons_append, List.mem_cons, List.mem_append, List.mem_map,
    List.not_mem_nil, or_false] at hop
  obtain rfl | ⟨r, -, rfl⟩ | rfl := hop <;> trivial

theorem straight_restoreState : ∀ op ∈ restoreState, op.Straight := by
  intro op hop
  simp only [restoreState, List.cons_append, List.mem_cons, List.mem_append, List.mem_map,
    List.not_mem_nil, or_false] at hop
  obtain rfl | ⟨r, -, rfl⟩ | rfl := hop <;> trivial

/-- Code at addresses in the code cache, or outside it. -/
def at_ (jit : Bool) (ops : List Op) : List Instr := ops.map (Instr.mk jit)

/-- The C++ of a helper or a system call. -/
inductive Cpp
  | run (f : ThreadState → ThreadState) (g : HostRegs → HostRegs)
  | sigreturn

def Cpp.op : Cpp → Op
  | .run f g => .cpp f g
  | .sigreturn => .sigreturn

/-- A call of C++ from emitted code: the registers are written back, the arguments set up, the
result taken, and the registers loaded again. -/
structure Call where
  before : HostRegs → InPlace → HostRegs × InPlace
  body : List Cpp
  after : HostRegs → InPlace → HostRegs × InPlace

def Call.code (jit : Bool) (c : Call) : List Instr :=
  at_ jit (writebackState ++ [.host c.before]) ++ at_ false (c.body.map Cpp.op) ++
    at_ jit (.host c.after :: restoreState)

/-- A piece of a block. -/
inductive Piece
  | plain (f : HostRegs → InPlace → HostRegs × InPlace)
  | call (c : Call)

def Piece.code : Piece → List Instr
  | .plain f => [⟨true, .host f⟩]
  | .call c => c.code true

/-- What a jump can reach: a block, directly or through the address cache, or emulator code that
makes a call (the dispatcher's slow path, `invalidate_caller_thunk`). -/
inductive Target
  | block (pieces : List Piece)
  | dispatcher (c : Call)

def Target.code : Target → List Instr
  | .block pieces => pieces.flatMap Piece.code ++ [⟨true, .goto⟩]
  | .dispatcher c => c.code false ++ [⟨false, .goto⟩]

/-- `enter_dispatcher`. -/
def enterDispatcher : List Instr := at_ false restoreState ++ [⟨false, .goto⟩]

/-! ## The machine -/

/-- What is interrupted: the registers and the code that the kernel will go back to, and
`old_rip`. -/
structure Context where
  host : HostRegs
  code : List Instr
  phase : Phase
  oldRip : BitVec 64

/-- The code is in the code cache. -/
def inJit (code : List Instr) : Bool :=
  match code with
  | i :: _ => i.jit
  | [] => false

/-- A thread. `returned` is history: a handler has returned to code that has the registers in the
host's, and they have not been loaded since. -/
structure Machine where
  ts : ThreadState
  host : HostRegs
  code : List Instr
  phase : Phase
  returned : Bool
  stack : List Context

namespace Machine

variable (s : Machine)

/-- A thread at its first `enterDispatcher`. -/
def Initial : Prop := s.code = enterDispatcher ∧ s.phase = .entering ∧ s.stack = []

/-- One operation other than the jumps. -/
def exec : Op → Machine
  | .host f =>
    let (host, inPlace) := f s.host s.ts.inPlace
    { s with host := host, ts := { s.ts with inPlace := inPlace } }
  | .storeRip => { s with ts := { s.ts with rip := s.host.rip } }
  | .loadRip => { s with host := { s.host with rip := s.ts.rip } }
  | .store r =>
    let value := s.host.values s.ts.inPlace.x87State r
    { s with ts := { s.ts with values := Function.update s.ts.values r value } }
  | .load r => { s with host := s.host.set s.ts.inPlace.x87State r (s.ts.values r) }
  | .mark true => { s with ts := { s.ts with stateIsCorrect := true }, phase := .saved }
  | .mark false =>
    { s with ts := { s.ts with stateIsCorrect := false }, phase := .live, returned := false }
  | .cpp f g =>
    { s with ts := { f s.ts with stateIsCorrect := s.ts.stateIsCorrect }, host := g s.host }
  | .sigreturn => s
  | .goto => s

/-- `setupFrame` up to the frame: a signal in a block pulls the registers and the address of the
instruction. -/
def pulled (actualRip : BitVec 64) : ThreadState :=
  if inJit s.code then { s.ts.reconstructState s.host with rip := actualRip } else s.ts

/-- `dispatch_guest` up to the nested dispatcher, which finds arbitrary registers. -/
def deliver (actualRip address sig func : BitVec 64) (host : HostRegs) : Machine where
  ts := (s.pulled actualRip).enterHandler address sig func
  host := host
  code := enterDispatcher
  phase := .entering
  returned := false
  stack := ⟨s.host, s.code, s.phase, (s.pulled actualRip).rip⟩ :: s.stack

/-- `rt_sigreturn`, the rest of `dispatch_guest` and the kernel's return to the context `c`. -/
def sigreturn (frame : SigFrame) (c : Context) (rest : List Context) : Machine :=
  let ts := s.ts.sigreturn frame
  if inJit c.code then
    if frame.rip = c.oldRip then
      ⟨ts, c.host.resume ts, c.code, c.phase, c.phase = .live, rest⟩
    else ⟨ts, { c.host.resume ts with rip := frame.rip }, [⟨false, .goto⟩], .live, true, rest⟩
  else ⟨ts, c.host, c.code, c.phase, c.phase = .live, rest⟩

/-- A step: the next operation, a jump, a signal, or the return from a handler, which finds whatever
is in the frame by then. -/
inductive Event
  | exec
  | jump (target : Target)
  | deliver (actualRip address sig func : BitVec 64) (host : HostRegs)
  | sigreturn (frame : SigFrame)

/-- The next state. -/
inductive Step : Machine → Event → Machine → Prop
  | exec {s : Machine} {jit : Bool} {op : Op} {rest : List Instr} :
      s.code = ⟨jit, op⟩ :: rest → op.Straight → Step s .exec { s.exec op with code := rest }
  | jump {s : Machine} {jit : Bool} (target : Target) :
      s.code = [⟨jit, .goto⟩] → Step s (.jump target) { s with code := target.code }
  | deliver {s : Machine} (actualRip address sig func : BitVec 64) (host : HostRegs) :
      Step s (.deliver actualRip address sig func host)
        (s.deliver actualRip address sig func host)
  | sigreturn {s : Machine} {jit : Bool} {code : List Instr} {c : Context} {rest : List Context}
      (frame : SigFrame) :
      s.code = ⟨jit, .sigreturn⟩ :: code → s.stack = c :: rest →
        Step s (.sigreturn frame) (s.sigreturn frame c rest)

/-- Neither a delivery nor a return from one. -/
def Event.Plain : Event → Prop
  | .exec | .jump _ => True
  | .deliver .. | .sigreturn _ => False

/-- The guest's registers. -/
def current : Values :=
  match s.phase with
  | .live => s.host.values s.ts.inPlace.x87State
  | _ => s.ts.values

/-- A signal at this point would find the registers: the flag is set exactly if `ThreadState` has
them, and `reconstruct_state` leaves them there. -/
def Reconstructs : Prop :=
  (s.ts.stateIsCorrect = true ↔ s.phase ≠ .live) ∧
    (s.ts.reconstructState s.host).values = s.current

/-- A handler has returned into the code that is running since its registers were loaded. -/
def Resumed : Prop := s.phase = .live ∧ s.returned = true

end Machine

/-! ## Moving the registers keeps them -/

/-- Copying registers one by one copies those that are listed. -/
theorem foldl_update (l : List Reg) (src dst : Values) :
    l.foldl (fun v r ↦ Function.update v r (src r)) dst =
      fun r ↦ if r ∈ l then src r else dst r := by
  induction l generalizing dst with
  | nil => simp
  | cons a l ih =>
    rw [List.foldl_cons, ih]
    funext r
    by_cases hl : r ∈ l
    · simp [hl]
    · by_cases ha : r = a
      · subst ha
        simp [hl]
      · simp [hl, ha]

theorem foldl_update_allRegs (src dst : Values) :
    allRegs.foldl (fun v r ↦ Function.update v r (src r)) dst = src := by
  rw [foldl_update]
  funext r
  exact if_pos (mem_allRegs r)

namespace Machine

variable (s : Machine)

/-- Operations one after the other. -/
def execAll (ops : List Op) : Machine := ops.foldl exec s

theorem exec_code (op : Op) (code : List Instr) :
    ({ s with code := code }).exec op = { s.exec op with code := code } := by
  cases op with
  | mark correct => cases correct <;> rfl
  | _ => rfl

theorem execAll_code (ops : List Op) (code : List Instr) :
    ({ s with code := code }).execAll ops = { s.execAll ops with code := code } := by
  induction ops generalizing s with
  | nil => rfl
  | cons op ops ih => rw [execAll, List.foldl_cons, exec_code, ← execAll, ih]; rfl

variable {s}

/-- Straight code runs through. -/
theorem run_straight {jit : Bool} {ops : List Op} {rest : List Instr}
    (hcode : s.code = at_ jit ops ++ rest) (hops : ∀ op ∈ ops, op.Straight) :
    Run Step s (List.replicate ops.length .exec) { s.execAll ops with code := rest } := by
  induction ops generalizing s with
  | nil =>
    obtain ⟨ts, host, code, phase, returned, stack⟩ := s
    obtain rfl : code = rest := hcode
    exact .nil _
  | cons op ops ih =>
    have hop : op.Straight := hops op List.mem_cons_self
    have hfirst : Step s .exec { s.exec op with code := at_ jit ops ++ rest } := .exec hcode hop
    have hrest := ih (s := { s.exec op with code := at_ jit ops ++ rest }) rfl
      fun x hx ↦ hops x (List.mem_cons_of_mem _ hx)
    rw [execAll_code] at hrest
    exact .cons hfirst hrest

theorem execAll_store (l : List Reg) (s : Machine) :
    ∃ values : Values,
      s.execAll (l.map .store) = { s with ts := { s.ts with values := values } } ∧
        values = l.foldl (fun v r ↦ Function.update v r (s.host.values s.ts.inPlace.x87State r))
          s.ts.values := by
  induction l generalizing s with
  | nil => exact ⟨s.ts.values, rfl, rfl⟩
  | cons r l ih =>
    obtain ⟨values, heq, hvalues⟩ := ih (s.exec (.store r))
    exact ⟨values, heq, hvalues⟩

theorem execAll_load (l : List Reg) (s : Machine) :
    ∃ host : HostRegs, s.execAll (l.map .load) = { s with host := host } ∧
      host.values s.ts.inPlace.x87State =
        l.foldl (fun v r ↦ Function.update v r (s.ts.values r))
          (s.host.values s.ts.inPlace.x87State) := by
  induction l generalizing s with
  | nil => exact ⟨s.host, rfl, rfl⟩
  | cons r l ih =>
    obtain ⟨host, heq, hvalues⟩ := ih (s.exec (.load r))
    refine ⟨host, heq, ?_⟩
    rw [List.foldl_cons, ← HostRegs.values_set]
    exact hvalues

/-- `writebackState` moves the registers to `ThreadState`. -/
theorem run_writebackState {jit : Bool} {rest : List Instr}
    (hcode : s.code = at_ jit writebackState ++ rest) (hlive : s.phase = .live) :
    ∃ t, Run Step s (List.replicate writebackState.length .exec) t ∧ t.code = rest ∧
      t.phase = .saved ∧ t.ts.stateIsCorrect = true ∧ t.stack = s.stack ∧
        t.current = s.current := by
  have hrun := run_straight hcode straight_writebackState
  refine ⟨_, hrun, rfl, ?_⟩
  have hall : s.execAll writebackState =
      (((s.exec .storeRip).execAll (allRegs.map .store)).exec (.mark true)) := by
    simp only [execAll, writebackState, List.cons_append, List.foldl_cons, List.foldl_append,
      List.foldl_nil]
  obtain ⟨values, heq, hvalues⟩ := execAll_store allRegs (s.exec .storeRip)
  rw [hall, heq]
  refine ⟨rfl, rfl, rfl, ?_⟩
  have hlive' : s.current = s.host.values s.ts.inPlace.x87State := by rw [current, hlive]
  rw [hlive']
  exact hvalues.trans (foldl_update_allRegs _ _)

/-- `restoreState` moves them to the host's registers. -/
theorem run_restoreState {jit : Bool} {rest : List Instr}
    (hcode : s.code = at_ jit restoreState ++ rest) (hphase : s.phase ≠ .live) :
    ∃ t, Run Step s (List.replicate restoreState.length .exec) t ∧ t.code = rest ∧
      t.phase = .live ∧ t.ts.stateIsCorrect = false ∧ t.returned = false ∧ t.stack = s.stack ∧
        t.current = s.current := by
  have hrun := run_straight hcode straight_restoreState
  refine ⟨_, hrun, rfl, ?_⟩
  have hall : s.execAll restoreState =
      (((s.exec .loadRip).execAll (allRegs.map .load)).exec (.mark false)) := by
    simp only [execAll, restoreState, List.cons_append, List.foldl_cons, List.foldl_append,
      List.foldl_nil]
  obtain ⟨host, heq, hvalues⟩ := execAll_load allRegs (s.exec .loadRip)
  rw [hall, heq]
  refine ⟨rfl, rfl, rfl, rfl, ?_⟩
  have hstate : s.current = s.ts.values := by
    rw [current]
    cases h : s.phase <;> simp_all
  rw [hstate]
  exact hvalues.trans (foldl_update_allRegs _ _)

end Machine

/-! ## The phases of emitted code -/

/-- The phase after an operation, if it may stand there at all. -/
def Op.next : Phase → Op → Option Phase
  | p, .host _ => some p
  | .live, .storeRip => some .live
  | .live, .store _ => some .live
  | .live, .mark true => some .saved
  | .live, .goto => some .live
  | .entering, .loadRip => some .entering
  | .entering, .load _ => some .entering
  | .entering, .mark false => some .live
  | .saved, .loadRip => some .saved
  | .saved, .load _ => some .saved
  | .saved, .mark false => some .live
  | .saved, .cpp _ _ => some .saved
  | .saved, .sigreturn => some .saved
  | _, _ => none

/-- Code that may start in phase `p` and ends in phase `q`. Blocks are never entered before the
registers are loaded. -/
inductive Phased : Phase → List Instr → Phase → Prop
  | nil (p : Phase) : Phased p [] p
  | cons {p q r : Phase} {jit : Bool} {op : Op} {rest : List Instr} :
      op.next p = some q → (jit = true → p ≠ .entering) → Phased q rest r →
        Phased p (⟨jit, op⟩ :: rest) r

theorem Phased.append {p q r : Phase} {xs ys : List Instr} (h₁ : Phased p xs q)
    (h₂ : Phased q ys r) : Phased p (xs ++ ys) r := by
  induction h₁ with
  | nil => exact h₂
  | cons hnext hjit _ ih => exact .cons hnext hjit (ih h₂)

/-- Operations that all keep the phase. -/
theorem phased_at_of_forall {p : Phase} {jit : Bool} {ops : List Op}
    (hjit : jit = true → p ≠ .entering) (h : ∀ op ∈ ops, op.next p = some p) :
        Phased p (at_ jit ops) p := by
  induction ops with
  | nil => exact .nil p
  | cons op ops ih =>
    refine .cons (h op List.mem_cons_self) hjit (ih fun x hx ↦ ?_)
    exact h x (List.mem_cons_of_mem _ hx)

theorem phased_writebackState (jit : Bool) : Phased .live (at_ jit writebackState) .saved := by
  have hstores : Phased .live (at_ jit (.storeRip :: allRegs.map .store)) .live := by
    apply phased_at_of_forall fun _ ↦ by decide
    simp [Op.next]
  have hmark : Phased .live (at_ jit [.mark true]) .saved :=
    .cons rfl (fun _ ↦ by decide) (.nil _)
  have hcode := hstores.append hmark
  rwa [at_, at_, ← List.map_append] at hcode

theorem phased_restoreState {p : Phase} {jit : Bool} (hp : p ≠ .live)
    (hjit : jit = true → p ≠ .entering) : Phased p (at_ jit restoreState) .live := by
  have hloads : Phased p (at_ jit (.loadRip :: allRegs.map .load)) p := by
    apply phased_at_of_forall hjit
    cases p <;> simp_all [Op.next]
  have hmark : Phased p (at_ jit [.mark false]) .live := by
    refine .cons ?_ hjit (.nil _)
    cases p <;> simp_all [Op.next]
  have hcode := hloads.append hmark
  rwa [at_, at_, ← List.map_append] at hcode

theorem phased_call (jit : Bool) (c : Call) : Phased .live (c.code jit) .live := by
  have hsaved : jit = true → Phase.saved ≠ .entering := fun _ ↦ by decide
  have hbefore : Phased .saved (at_ jit [.host c.before]) .saved := .cons rfl hsaved (.nil _)
  have hbody : Phased .saved (at_ false (c.body.map Cpp.op)) .saved := by
    apply phased_at_of_forall fun _ ↦ by decide
    intro op hop
    obtain ⟨b, -, rfl⟩ := List.mem_map.mp hop
    cases b <;> rfl
  have hafter : Phased .saved (at_ jit (.host c.after :: restoreState)) .live :=
    .cons rfl hsaved (phased_restoreState (by decide) hsaved)
  have hcode := ((phased_writebackState jit).append hbefore).append (hbody.append hafter)
  rw [Call.code, at_, List.map_append, List.append_assoc]
  exact hcode

theorem phased_block (pieces : List Piece) :
    Phased .live (pieces.flatMap Piece.code) .live := by
  induction pieces with
  | nil => exact .nil _
  | cons piece pieces ih =>
    refine Phased.append ?_ ih
    cases piece with
    | plain f => exact .cons rfl (fun _ ↦ by decide) (.nil _)
    | call c => exact phased_call true c

theorem phased_goto (jit : Bool) : Phased .live [⟨jit, .goto⟩] .live :=
  .cons rfl (fun _ ↦ by decide) (.nil _)

theorem phased_target (target : Target) : Phased .live target.code .live := by
  cases target with
  | block pieces => exact (phased_block pieces).append (phased_goto true)
  | dispatcher c => exact (phased_call false c).append (phased_goto false)

theorem phased_enterDispatcher : Phased .entering enterDispatcher .live :=
  (phased_restoreState (by decide) fun h ↦ absurd h Bool.false_ne_true).append (phased_goto false)

/-! ## Runs -/

namespace Machine

variable {s t : Machine}

/-- The flag is as the phase says, but for a handler that has returned. -/
def FlagOk (s : Machine) : Prop :=
  match s.phase with
  | .entering => True
  | .saved => s.ts.stateIsCorrect = true
  | .live => s.ts.stateIsCorrect = s.returned

/-- The running code and all interrupted code is in the phase it was compiled for. -/
structure Tracked (s : Machine) : Prop where
  code : Phased s.phase s.code .live
  stack : ∀ c ∈ s.stack, Phased c.phase c.code .live
  flag : s.FlagOk

theorem Initial.tracked (h : s.Initial) : s.Tracked := by
  obtain ⟨hcode, hphase, hstack⟩ := h
  constructor
  · rw [hcode, hphase]
    exact phased_enterDispatcher
  · simp [hstack]
  · simp [FlagOk, hphase]

theorem phase_exec {op : Op} {q : Phase} (hnext : op.next s.phase = some q) :
    (s.exec op).phase = q := by
  obtain ⟨ts, host, code, phase, returned, stack⟩ := s
  cases phase <;> cases op with
  | mark correct => cases correct <;> simp_all [Op.next, exec]
  | _ => simp_all [Op.next, exec]

theorem stack_exec (s : Machine) (op : Op) : (s.exec op).stack = s.stack := by
  cases op with
  | mark correct => cases correct <;> rfl
  | _ => rfl

/-- Only `mark` changes the phase and the flag, and it changes both. -/
theorem FlagOk.exec (h : s.FlagOk) (op : Op) : (s.exec op).FlagOk := by
  cases op with
  | mark correct => cases correct <;> rfl
  | _ => exact h

theorem Tracked.exec {jit : Bool} {op : Op} {rest : List Instr} (h : s.Tracked)
    (hcode : s.code = ⟨jit, op⟩ :: rest) : ({ s.exec op with code := rest }).Tracked := by
  have hphased := h.code
  rw [hcode] at hphased
  cases hphased with
  | cons hnext _ hrest =>
    constructor
    · show Phased (s.exec op).phase rest .live
      rwa [phase_exec hnext]
    · show ∀ c ∈ (s.exec op).stack, _
      rw [stack_exec]
      exact h.stack
    · exact h.flag.exec op

theorem Tracked.jump {jit : Bool} (h : s.Tracked) (hcode : s.code = [⟨jit, .goto⟩])
    (target : Target) : ({ s with code := target.code }).Tracked := by
  have hphased := h.code
  rw [hcode] at hphased
  -- a jump may stand only where the registers are loaded
  have hlive : s.phase = .live := by
    cases hphased with
    | cons hnext _ _ =>
      generalize s.phase = p at hnext
      cases p <;> simp_all [Op.next]
  refine ⟨?_, h.stack, h.flag⟩
  show Phased s.phase target.code .live
  rw [hlive]
  exact phased_target target

theorem Tracked.deliver (h : s.Tracked) (actualRip address sig func : BitVec 64) (host : HostRegs) :
    (s.deliver actualRip address sig func host).Tracked := by
  refine ⟨phased_enterDispatcher, ?_, trivial⟩
  intro c hc
  obtain rfl | hc := List.mem_cons.mp hc
  · exact h.code
  · exact h.stack c hc

theorem Tracked.sigreturn {jit : Bool} {code : List Instr} {c : Context} {rest : List Context}
    (h : s.Tracked) (hcode : s.code = ⟨jit, .sigreturn⟩ :: code) (hstack : s.stack = c :: rest)
    (frame : SigFrame) : (s.sigreturn frame c rest).Tracked := by
  have hphased := h.code
  rw [hcode] at hphased
  -- `rt_sigreturn` is a system call, so the flag is set when it runs
  have hsaved : s.ts.stateIsCorrect = true := by
    have hflag := h.flag
    rw [FlagOk] at hflag
    cases hphased with
    | cons hnext _ _ =>
      generalize s.phase = p at hnext hflag
      cases p <;> simp_all [Op.next]
  have hc : Phased c.phase c.code .live := h.stack c (by rw [hstack]; exact List.mem_cons_self)
  have hrest : ∀ c ∈ rest, Phased c.phase c.code .live := by
    intro d hd
    exact h.stack d (by rw [hstack]; exact List.mem_cons_of_mem _ hd)
  unfold Machine.sigreturn
  dsimp only
  split
  · split
    · refine ⟨hc, hrest, ?_⟩
      rw [FlagOk]
      cases hphase : c.phase <;> simp [ThreadState.sigreturn, hsaved]
    · exact ⟨phased_goto false, hrest, hsaved⟩
  · refine ⟨hc, hrest, ?_⟩
    rw [FlagOk]
    cases hphase : c.phase <;> simp [ThreadState.sigreturn, hsaved]

theorem Tracked.step {e : Event} (h : s.Tracked) (hstep : Step s e t) : t.Tracked := by
  cases hstep with
  | exec hcode _ => exact h.exec hcode
  | jump target hcode => exact h.jump hcode target
  | deliver => exact h.deliver ..
  | sigreturn frame hcode hstack => exact h.sigreturn hcode hstack frame

/-- In a block the registers have been loaded at least once. -/
theorem Tracked.phase_ne_entering (h : s.Tracked) (hjit : inJit s.code = true) :
    s.phase ≠ .entering := by
  obtain ⟨ts, host, code, phase, returned, stack⟩ := s
  cases h.code with
  | nil => exact absurd hjit Bool.false_ne_true
  | cons _ hphase _ => exact hphase hjit

/-- In a block a signal finds the registers unless a handler has returned into it. -/
theorem Tracked.reconstructs_iff_not_resumed (h : s.Tracked) (hjit : inJit s.code = true) :
    s.Reconstructs ↔ ¬s.Resumed := by
  have hentering := h.phase_ne_entering hjit
  have hflag := h.flag
  rw [FlagOk] at hflag
  rw [Reconstructs, Resumed, current, ThreadState.reconstructState]
  cases hphase : s.phase with
  | entering => exact absurd hphase hentering
  | saved =>
    rw [hphase] at hflag
    simp [hflag]
  | live =>
    rw [hphase] at hflag
    cases hreturned : s.returned <;> simp [hflag, hreturned]

/-- Code that does nothing. -/
def nop (host : HostRegs) (inPlace : InPlace) : HostRegs × InPlace := (host, inPlace)

/-- Registers that are all zero. -/
def zeroHost : HostRegs where
  regs
    | .gpr _ => 0
    | .xmm _ => 0
    | .fp _ => 0
    | .cf => false
    | .zf => false
    | .sf => false
    | .of => false
  mm _ := 0
  rip := 0
  frm := .rne

/-- A new thread. -/
def fresh : Machine where
  ts := ⟨zeroHost.regs, 0x1000#64, ⟨false, false, false, .mmx, 0, .rne, .rne⟩, 0, false⟩
  host := zeroHost
  code := enterDispatcher
  phase := .entering
  returned := false
  stack := []

theorem initial_fresh : fresh.Initial := ⟨rfl, rfl, rfl⟩

/-- A dispatcher that has just been entered reaches a block. -/
theorem exists_run_block (hcode : s.code = enterDispatcher) (hphase : s.phase = .entering)
    (pieces : List Piece) :
    ∃ events t, Run Step s events t ∧ (∀ e ∈ events, e.Plain) ∧
      t.code = (Target.block pieces).code ∧ t.phase = .live ∧ t.ts.stateIsCorrect = false ∧
        t.returned = false ∧ t.stack = s.stack ∧ t.current = s.current := by
  have hsaved : s.phase ≠ .live := by simp [hphase]
  obtain ⟨t, hrun, hgoto, hlive, hflag, hreturned, hstack, hcurrent⟩ :=
    run_restoreState hcode hsaved
  refine ⟨_, _, hrun.snoc (.jump (.block pieces) hgoto), ?_, rfl, hlive, hflag, hreturned, hstack,
    hcurrent⟩
  intro e he
  obtain he | he := List.mem_append.mp he
  · obtain rfl := List.eq_of_mem_replicate he
    trivial
  · obtain rfl := List.mem_singleton.mp he
    trivial

/-- The handler's block: the system call `rt_sigreturn`. -/
def returnCall : Call := ⟨nop, [.sigreturn], nop⟩

/-- What follows the `writebackState` and the argument set-up of that call. -/
def returnTail : List Instr :=
  ⟨false, .sigreturn⟩ :: (at_ true (.host nop :: restoreState) ++ [⟨true, .goto⟩])

theorem returnCall_code :
    (Target.block [.call returnCall]).code =
      at_ true writebackState ++ ⟨true, .host nop⟩ :: returnTail := by
  simp [Target.code, Piece.code, Call.code, returnCall, returnTail, at_, Cpp.op]

/-- A handler may return at once, and `state_is_correct` is set when it does. -/
theorem exists_run_returnCall {jit : Bool} (hcode : s.code = [⟨jit, .goto⟩])
    (hlive : s.phase = .live) :
    ∃ events u, Run Step s events u ∧ (∀ e ∈ events, e.Plain) ∧ u.code = returnTail ∧
      u.phase = .saved ∧ u.ts.stateIsCorrect = true ∧ u.stack = s.stack ∧
        u.current = s.current := by
  have hjump : Step s (.jump (.block [.call returnCall])) _ := .jump _ hcode
  obtain ⟨u, hwriteback, hcall, hphase, hflag, hstack, hcurrent⟩ :=
    run_writebackState (s := { s with code := (Target.block [.call returnCall]).code })
      returnCall_code hlive
  have hnop : Step u .exec { u.exec (.host nop) with code := returnTail } := .exec hcall trivial
  have hsame : ({ u.exec (.host nop) with code := returnTail }).current = u.current := by
    simp [current, exec, nop, hphase]
  refine ⟨_, _, ((Run.single hjump).trans hwriteback).snoc hnop, ?_, rfl, hphase, hflag, hstack,
    hsame.trans hcurrent⟩
  intro e he
  obtain he | he := List.mem_append.mp he
  · obtain he | he := List.mem_append.mp he
    · obtain rfl := List.mem_singleton.mp he
      trivial
    · obtain rfl := List.eq_of_mem_replicate he
      trivial
  · obtain rfl := List.mem_singleton.mp he
    trivial

/-- A handler that has not changed `RIP` returns into the block. -/
theorem sigreturn_of_inJit {m : Machine} (hjit : inJit m.code = true) (frame : SigFrame)
    {actualRip : BitVec 64} (hrip : frame.rip = actualRip) (u : Machine) (rest : List Context) :
    u.sigreturn frame ⟨m.host, m.code, m.phase, (m.pulled actualRip).rip⟩ rest =
      ⟨u.ts.sigreturn frame, m.host.resume (u.ts.sigreturn frame), m.code, m.phase,
        m.phase = .live, rest⟩ := by
  have hpulled : frame.rip = (m.pulled actualRip).rip := by rw [pulled, if_pos hjit, hrip]
  rw [Machine.sigreturn]
  simp only [hjit, hpulled, if_true]

end Machine

end Signals

end Felix86
