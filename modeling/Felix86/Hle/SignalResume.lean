import Felix86.Hle.SignalState

/-!
# Resuming after a signal

A signal interrupts a block, a handler runs, and the block goes on. What it goes on with comes from
three places: the host registers come back from the kernel, except the sixteen general ones, which
`dispatch_guest` copies from `ThreadState`; the fields of `ThreadState` that `sigreturn` sets come
from the frame; and the others are as the handler left them. Whether that is the state that was
interrupted, with the handler's changes to the frame, depends on where the registers were.

Where they were is a question about each of them. `writebackState` stores them one by one and
`restoreState` loads them one by one, and a signal may come between two of them. From then on the
code that was interrupted takes some registers from the host's and the others from `ThreadState`,
and the handler's changes reach only the second kind.
-/

namespace Felix86

namespace Signals

/-- What the frame has for a register. -/
abbrev Reg.Field : Reg → Type
  | .gpr _ => BitVec 64
  | .xmm _ => BitVec 128
  | .fp _ => Float80
  | .cf => Bool
  | .zf => Bool
  | .sf => Bool
  | .of => Bool

instance (r : Reg) : DecidableEq (Reg.Field r) :=
  match r with
  | .gpr _ => inferInstanceAs (DecidableEq (BitVec 64))
  | .xmm _ => inferInstanceAs (DecidableEq (BitVec 128))
  | .fp _ => inferInstanceAs (DecidableEq Float80)
  | .cf => inferInstanceAs (DecidableEq Bool)
  | .zf => inferInstanceAs (DecidableEq Bool)
  | .sf => inferInstanceAs (DecidableEq Bool)
  | .of => inferInstanceAs (DecidableEq Bool)

/-- The field of a register. -/
def field (f : SigFrame) : (r : Reg) → Reg.Field r
  | .gpr i => f.gregs i
  | .xmm i => f.xmm i
  | .fp i => f.st i
  | .cf => f.efl.getLsbD 0
  | .zf => f.efl.getLsbD 6
  | .sf => f.efl.getLsbD 7
  | .of => f.efl.getLsbD 11

/-- What `setupFrame` puts in a field. -/
def encode (rm : RMode) (x : X87State) : (r : Reg) → r.Val → Reg.Field r
  | .gpr _, v => v
  | .xmm _, v => v
  | .fp _, v => encodeSt rm x v
  | .cf, v => v
  | .zf, v => v
  | .sf, v => v
  | .of, v => v

/-- What `sigreturn` takes a field for. -/
def decode : (r : Reg) → Reg.Field r → r.Val
  | .gpr _, v => v
  | .xmm _, v => v
  | .fp _, v => decodeSt v
  | .cf, v => v
  | .zf, v => v
  | .sf, v => v
  | .of, v => v

theorem values_sigreturn (ts : ThreadState) (f : SigFrame) (r : Reg) :
    (ts.sigreturn f).values r = decode r (field f r) := by
  cases r <;> rfl

theorem field_fillFrame (ts : ThreadState) (rm : RMode) (mem : SigFrame) (r : Reg) :
    field (ts.fillFrame rm mem) r = encode rm ts.inPlace.x87State r (ts.values r) := by
  obtain ⟨hcf, -, -, hzf, hsf, -, hof⟩ := getLsbD_packFlags (ts.values .cf) ts.inPlace.pf
    ts.inPlace.af (ts.values .zf) (ts.values .sf) ts.inPlace.df (ts.values .of)
  cases r with
  | gpr i => rfl
  | xmm i => rfl
  | fp i => rfl
  | cf => exact hcf
  | zf => exact hzf
  | sf => exact hsf
  | of => exact hof

/-- Everything but the x87 registers comes back as it was. -/
theorem decode_encode {rm : RMode} {x : X87State} {r : Reg} (v : r.Val) (hr : ∀ i, r ≠ .fp i) :
    decode r (encode rm x r v) = v := by
  cases r with
  | fp i => exact absurd rfl (hr i)
  | _ => rfl

/-! ## One interruption -/

/-- A point in a block where a signal comes. `inHost` says which registers the code that follows
takes from the host's, and `ripInHost` whether it takes `RIP` from there. -/
structure Interrupted where
  ts : ThreadState
  host : HostRegs
  inHost : Reg → Bool
  ripInHost : Bool
  actualRip : BitVec 64
  blocked : SigSet

/-- What the handler leaves: the frame, and `ThreadState` when it calls `rt_sigreturn`. -/
structure Handled where
  ts : ThreadState
  frame : SigFrame

/-- What the guest can see. -/
@[ext]
structure View where
  values : Values
  rip : BitVec 64
  inPlace : InPlace
  frm : RMode
  blocked : SigSet
  signalMask : SigSet

attribute [ext] InPlace

namespace Interrupted

variable (s : Interrupted) (mem : SigFrame) (h : Handled)

/-- The guest's registers. -/
def values : Values :=
  fun r ↦ if s.inHost r then s.host.values s.ts.inPlace.x87State r else s.ts.values r

/-- The state that is interrupted. -/
def view : View where
  values := s.values
  rip := if s.ripInHost then s.host.rip else s.ts.rip
  inPlace := s.ts.inPlace
  frm := s.host.frm
  blocked := s.blocked
  signalMask := s.ts.signalMask

/-- `ThreadState` when `setupFrame` fills the frame. -/
def pulled : ThreadState := { s.ts.reconstructState s.host with rip := s.actualRip }

/-- The frame the handler finds. -/
def frame : SigFrame := s.pulled.fillFrame s.host.frm mem

/-- The handler has changed `RIP`, so the dispatcher is entered instead of the block. -/
def Redirected : Prop := h.frame.rip ≠ s.actualRip

instance : Decidable (s.Redirected h) := inferInstanceAs (Decidable (_ ≠ _))

/-- The host registers that the kernel brings back. -/
def resumedHost : HostRegs :=
  let host := s.host.resume (h.ts.sigreturn h.frame)
  if s.Redirected h then { host with rip := h.frame.rip } else host

/-- The state that goes on. The dispatcher takes the registers to be in the host's. -/
def resumed : View :=
  let ts := h.ts.sigreturn h.frame
  let host := s.resumedHost h
  { values := fun r ↦
      if s.inHost r || s.Redirected h then host.values ts.inPlace.x87State r else ts.values r
    rip := if s.ripInHost || s.Redirected h then host.rip else ts.rip
    inPlace := ts.inPlace
    frm := s.host.frm
    blocked := s.blocked
    signalMask := ts.signalMask }

/-- The handler has not changed the field of a register. -/
def Untouched (r : Reg) : Prop := field h.frame r = field (s.frame mem) r

instance (r : Reg) : Decidable (s.Untouched mem h r) := inferInstanceAs (Decidable (_ = _))

/-- The register that should go on: the one that was interrupted, or the handler's. -/
def wanted (r : Reg) : r.Val :=
  if s.Untouched mem h r then s.values r else decode r (field h.frame r)

/-- The fields in place that should go on. -/
def wantedInPlace : InPlace :=
  { s.ts.inPlace with
    pf := h.frame.efl.getLsbD 2
    af := h.frame.efl.getLsbD 4
    df := h.frame.efl.getLsbD 10
    fpuTop :=
      if h.frame.swd = mem.swd then s.ts.inPlace.fpuTop
      else ((h.frame.swd >>> 11) &&& 7#16).setWidth 8
    rmodeSse :=
      if h.frame.mxcsr = mem.mxcsr then s.ts.inPlace.rmodeSse
      else .ofX86 ((h.frame.mxcsr >>> 13).setWidth 2)
    rmodeX87 :=
      if h.frame.cwd = mem.cwd then s.ts.inPlace.rmodeX87
      else .ofX86 ((h.frame.cwd >>> 10).setWidth 2) }

/-- The state that should go on: the one that was interrupted, with the handler's changes to the
frame. -/
def expected : View where
  values := s.wanted mem h
  rip := if s.Redirected h then h.frame.rip else s.view.rip
  inPlace := s.wantedInPlace mem h
  frm := s.host.frm
  blocked :=
    if h.frame.sigmask = s.ts.signalMask then s.blocked
    else SigSet.pthreadSigmask (h.frame.sigmask &&& SigSet.hostSignalMask)
  signalMask := h.frame.sigmask

theorem inPlace_pulled : s.pulled.inPlace = s.ts.inPlace := by
  rw [pulled, ThreadState.reconstructState]
  split <;> rfl

theorem signalMask_pulled : s.pulled.signalMask = s.ts.signalMask := by
  rw [pulled, ThreadState.reconstructState]
  split <;> rfl

/-- A handler that only reads its frame is expected to change nothing. -/
theorem expected_of_frame_eq (hframe : h.frame = s.frame mem) : s.expected mem h = s.view := by
  obtain ⟨-, hpf, haf, -, -, hdf, -⟩ := getLsbD_packFlags (s.pulled.values .cf)
    s.pulled.inPlace.pf s.pulled.inPlace.af (s.pulled.values .zf) (s.pulled.values .sf)
    s.pulled.inPlace.df (s.pulled.values .of)
  have hinPlace := s.inPlace_pulled
  have hmask := s.signalMask_pulled
  have hrip : ¬s.Redirected h := by
    rw [Redirected, hframe]
    exact fun hne ↦ hne rfl
  ext1
  · funext r
    exact if_pos (by rw [Untouched, hframe])
  · exact if_neg hrip
  · rw [expected, wantedInPlace, hframe]
    ext1
    · exact hpf.trans (congrArg InPlace.pf hinPlace)
    · exact haf.trans (congrArg InPlace.af hinPlace)
    · exact hdf.trans (congrArg InPlace.df hinPlace)
    · rfl
    · exact if_pos rfl
    · exact if_pos rfl
    · exact if_pos rfl
  · rfl
  · exact if_pos (by rw [hframe]; exact hmask)
  · rw [expected, hframe]
    exact hmask

/-! ## When it is restored -/

/-- A general register. -/
def IsGpr : Reg → Prop
  | .gpr _ => True
  | _ => False

/-- The condition under which the interrupted code goes on as it should.

The fields of `ThreadState` that no frame has are as they should be when the handler ends, and so is
the signal mask. `ThreadState` had the general registers. The handler has changed no other register
that the code takes from the host's. What the code takes from `ThreadState` was there when the frame
was filled and survives the conversions, and `RIP` was that of the instruction; or, when the handler
has changed `RIP`, the host's registers have by chance what is wanted. -/
structure Restored : Prop where
  x87State : h.ts.inPlace.x87State = s.ts.inPlace.x87State
  fpuTop : h.ts.inPlace.fpuTop = (s.wantedInPlace mem h).fpuTop
  rmodeSse : h.ts.inPlace.rmodeSse = (s.wantedInPlace mem h).rmodeSse
  rmodeX87 : h.ts.inPlace.rmodeX87 = (s.wantedInPlace mem h).rmodeX87
  blocked : h.frame.sigmask = s.ts.signalMask ∨
    SigSet.pthreadSigmask (h.frame.sigmask &&& SigSet.hostSignalMask) = s.blocked
  signalMask : h.ts.signalMask = h.frame.sigmask
  gprs : ∀ i, s.Untouched mem h (.gpr i) → s.pulled.values (.gpr i) = s.values (.gpr i)
  host : ∀ r, ¬IsGpr r → s.inHost r = true →
    s.Untouched mem h r ∨ decode r (field h.frame r) = s.values r
  saved : ¬s.Redirected h → ∀ r, ¬IsGpr r → s.inHost r = false → s.Untouched mem h r →
    decode r (encode s.host.frm s.ts.inPlace.x87State r (s.pulled.values r)) = s.values r
  rip : ¬s.Redirected h → s.ripInHost = false → s.actualRip = s.ts.rip
  redirected : s.Redirected h → ∀ r, ¬IsGpr r → s.inHost r = false →
    s.host.values s.ts.inPlace.x87State r = s.wanted mem h r

variable {s mem h}

/-- The general registers that go on are those of the frame. -/
theorem values_resumed_gpr (i : Fin 16) : (s.resumed h).values (.gpr i) = h.frame.gregs i := by
  unfold resumed resumedHost
  dsimp only
  split
  · split <;> rfl
  · rfl

/-- The others are the host's, if the code that goes on takes them from there. -/
theorem values_resumed_host {r : Reg} (hr : ¬IsGpr r) (hhost : s.inHost r = true ∨ s.Redirected h) :
    (s.resumed h).values r = s.host.values h.ts.inPlace.x87State r := by
  have hin : (s.inHost r || decide (s.Redirected h)) = true := by simpa using hhost
  unfold resumed resumedHost
  dsimp only
  rw [if_pos hin]
  cases r with
  | gpr i => exact absurd trivial hr
  | _ => split <;> rfl

/-- Or the frame's, if it takes them from `ThreadState`. -/
theorem values_resumed_saved {r : Reg} (hr : s.inHost r = false) (hrip : ¬s.Redirected h) :
    (s.resumed h).values r = decode r (field h.frame r) := by
  have hin : ¬(s.inHost r || decide (s.Redirected h)) = true := by simp [hr, hrip]
  unfold resumed
  dsimp only
  rw [if_neg hin]
  exact values_sigreturn h.ts h.frame r

/-- The general registers, wherever they were. -/
theorem resumed_gpr_iff (i : Fin 16) :
    (s.resumed h).values (.gpr i) = s.wanted mem h (.gpr i) ↔
      (s.Untouched mem h (.gpr i) → s.pulled.values (.gpr i) = s.values (.gpr i)) := by
  have hframe : field (s.frame mem) (.gpr i) = s.pulled.values (.gpr i) := rfl
  rw [values_resumed_gpr, wanted]
  by_cases huntouched : s.Untouched mem h (.gpr i)
  · have hgregs : h.frame.gregs i = s.pulled.values (.gpr i) := huntouched.trans hframe
    rw [if_pos huntouched, hgregs]
    simp [huntouched]
  · rw [if_neg huntouched]
    simp only [huntouched, false_implies, iff_true]
    rfl

/-- Another register that the code takes from the host's. -/
theorem resumed_host_iff {r : Reg} (hr : ¬IsGpr r) (hin : s.inHost r = true)
    (hx : h.ts.inPlace.x87State = s.ts.inPlace.x87State) :
    (s.resumed h).values r = s.wanted mem h r ↔
      s.Untouched mem h r ∨ decode r (field h.frame r) = s.values r := by
  have hvalues : s.values r = s.host.values s.ts.inPlace.x87State r := by
    rw [values, if_pos hin]
  rw [values_resumed_host hr (.inl hin), hx, ← hvalues, wanted]
  by_cases huntouched : s.Untouched mem h r
  · simp [huntouched]
  · simp only [huntouched, if_false, false_or]
    exact eq_comm

/-- A register that the code takes from `ThreadState`. -/
theorem resumed_saved_iff {r : Reg} (hin : s.inHost r = false) (hrip : ¬s.Redirected h) :
    (s.resumed h).values r = s.wanted mem h r ↔ (s.Untouched mem h r →
      decode r (encode s.host.frm s.ts.inPlace.x87State r (s.pulled.values r)) = s.values r) := by
  have hfield : field (s.frame mem) r =
      encode s.host.frm s.ts.inPlace.x87State r (s.pulled.values r) := by
    rw [frame, field_fillFrame, inPlace_pulled]
  rw [values_resumed_saved hin hrip, wanted]
  by_cases huntouched : s.Untouched mem h r
  · have hframe : field h.frame r = _ := Eq.trans huntouched hfield
    rw [if_pos huntouched, hframe]
    simp [huntouched]
  · rw [if_neg huntouched]
    simp [huntouched]

/-- The fields in place. -/
theorem resumed_inPlace_iff :
    (s.resumed h).inPlace = s.wantedInPlace mem h ↔
      h.ts.inPlace.x87State = s.ts.inPlace.x87State ∧
        h.ts.inPlace.fpuTop = (s.wantedInPlace mem h).fpuTop ∧
        h.ts.inPlace.rmodeSse = (s.wantedInPlace mem h).rmodeSse ∧
        h.ts.inPlace.rmodeX87 = (s.wantedInPlace mem h).rmodeX87 := by
  rw [InPlace.ext_iff]
  simp [resumed, ThreadState.sigreturn, wantedInPlace]

theorem resumed_rip_iff :
    (s.resumed h).rip = (s.expected mem h).rip ↔
      (¬s.Redirected h → s.ripInHost = false → s.actualRip = s.ts.rip) := by
  by_cases hrip : s.Redirected h
  · simp [resumed, resumedHost, expected, hrip]
  · have hframe : h.frame.rip = s.actualRip := not_not.mp hrip
    cases hin : s.ripInHost with
    | true => simp [resumed, resumedHost, expected, view, hrip, hin, HostRegs.resume]
    | false => simp [resumed, expected, view, hrip, hin, ThreadState.sigreturn, hframe]

theorem resumed_blocked_iff :
    (s.resumed h).blocked = (s.expected mem h).blocked ↔
      h.frame.sigmask = s.ts.signalMask ∨
        SigSet.pthreadSigmask (h.frame.sigmask &&& SigSet.hostSignalMask) = s.blocked := by
  by_cases hmask : h.frame.sigmask = s.ts.signalMask
  · simp [resumed, expected, hmask]
  · simp only [resumed, expected, hmask, if_false, false_or]
    exact eq_comm

/-- All registers. -/
theorem resumed_values_iff (hx : h.ts.inPlace.x87State = s.ts.inPlace.x87State) :
    (s.resumed h).values = s.wanted mem h ↔
      (∀ i, s.Untouched mem h (.gpr i) → s.pulled.values (.gpr i) = s.values (.gpr i)) ∧
        (∀ r, ¬IsGpr r → s.inHost r = true →
          s.Untouched mem h r ∨ decode r (field h.frame r) = s.values r) ∧
        (¬s.Redirected h → ∀ r, ¬IsGpr r → s.inHost r = false → s.Untouched mem h r →
          decode r (encode s.host.frm s.ts.inPlace.x87State r (s.pulled.values r)) =
            s.values r) ∧
        (s.Redirected h → ∀ r, ¬IsGpr r → s.inHost r = false →
          s.host.values s.ts.inPlace.x87State r = s.wanted mem h r) := by
  rw [funext_iff]
  constructor
  · intro hall
    refine ⟨fun i ↦ (resumed_gpr_iff i).mp (hall _), ?_, ?_, ?_⟩
    · intro r hr hin
      exact (resumed_host_iff hr hin hx).mp (hall r)
    · intro hrip r _ hin
      exact (resumed_saved_iff hin hrip).mp (hall r)
    · intro hrip r hr _
      rw [← hall r, values_resumed_host hr (.inr hrip), hx]
  · rintro ⟨hgprs, hhost, hsaved, hredirected⟩ r
    by_cases hr : IsGpr r
    · cases r with
      | gpr i => exact (resumed_gpr_iff i).mpr (hgprs i)
      | _ => exact absurd hr id
    · cases hin : s.inHost r with
      | true => exact (resumed_host_iff hr hin hx).mpr (hhost r hr hin)
      | false =>
        by_cases hrip : s.Redirected h
        · rw [values_resumed_host hr (.inr hrip), hx]
          exact hredirected hrip r hr hin
        · exact (resumed_saved_iff hin hrip).mpr (hsaved hrip r hr hin)

/-- Of what `ThreadState` has, only an x87 register can fail to survive. -/
theorem decode_encode_pulled {s : Interrupted} {r : Reg} (hr : ∀ i, r ≠ .fp i)
    (hin : s.inHost r = false) (hcorrect : s.ts.stateIsCorrect = true) :
    decode r (encode s.host.frm s.ts.inPlace.x87State r (s.pulled.values r)) = s.values r := by
  have hpulled : s.pulled.values r = s.ts.values r := by
    rw [pulled, ThreadState.reconstructState, if_pos hcorrect]
  have hvalues : s.values r = s.ts.values r := by simp [values, hin]
  rw [decode_encode _ hr, hpulled, hvalues]

/-- Zero in every register. -/
def zeroValues : Values
  | .gpr _ => 0
  | .xmm _ => 0
  | .fp _ => 0
  | .cf => false
  | .zf => false
  | .sf => false
  | .of => false

/-- A block with zero in all registers, interrupted while they are in the host's. -/
def zero : Interrupted where
  ts := ⟨zeroValues, 0, ⟨false, false, false, .x87, 0, .rne, .rne⟩, 0, false⟩
  host := ⟨zeroValues, fun _ ↦ 0, 0, .rne⟩
  inHost _ := true
  ripInHost := true
  actualRip := 0x1000#64
  blocked := 0

/-- The frame it finds, on a stack of zeros. -/
def zeroStack : SigFrame := ⟨fun _ ↦ 0, 0, 0, fun _ ↦ 0, fun _ ↦ ⟨0, 0⟩, 0, 0, 0, 0⟩

/-- The same in `restoreState`, between the loads of `XMM0` and of `XMM1`: one change is lost and
the other is seen. -/
example :
    let s : Interrupted :=
      { zero with
        ts := { zero.ts with stateIsCorrect := true }
        inHost := fun r ↦ r = .xmm 0 }
    let h : Handled := ⟨s.ts, { s.frame zeroStack with xmm := fun _ ↦ 1 }⟩
    (s.resumed h).values (.xmm 0) = 0#128 ∧ (s.resumed h).values (.xmm 1) = 1#128 :=
  ⟨rfl, rfl⟩

end Interrupted

/-! ## The machine's points -/

/-- Code that takes a register from the host's before it loads it. In `writebackState` a register
that has not been stored is still to be read; the flag is set when all have been. C++ works on
`ThreadState`, and a jump leaves the registers where they are. -/
def takesFromHost (r : Reg) : List Instr → Bool
  | [] => true
  | ⟨_, .store q⟩ :: rest => q = r || takesFromHost r rest
  | ⟨_, .load q⟩ :: rest => q ≠ r && takesFromHost r rest
  | ⟨_, .mark correct⟩ :: _ => !correct
  | ⟨_, .cpp _ _⟩ :: _ => false
  | ⟨_, .sigreturn⟩ :: _ => false
  | ⟨_, .goto⟩ :: _ => true
  | ⟨_, .host _⟩ :: rest => takesFromHost r rest
  | ⟨_, .storeRip⟩ :: rest => takesFromHost r rest
  | ⟨_, .loadRip⟩ :: rest => takesFromHost r rest

/-- The same of `RIP`. -/
def takesRipFromHost : List Instr → Bool
  | [] => true
  | ⟨_, .storeRip⟩ :: _ => true
  | ⟨_, .loadRip⟩ :: _ => false
  | ⟨_, .mark correct⟩ :: _ => !correct
  | ⟨_, .cpp _ _⟩ :: _ => false
  | ⟨_, .sigreturn⟩ :: _ => false
  | ⟨_, .goto⟩ :: _ => true
  | ⟨_, .host _⟩ :: rest => takesRipFromHost rest
  | ⟨_, .store _⟩ :: rest => takesRipFromHost rest
  | ⟨_, .load _⟩ :: rest => takesRipFromHost rest

/-- An operation of `writebackState` or `restoreState` that moves a register. -/
def Op.Moves : Op → Prop
  | .storeRip | .loadRip | .store _ | .load _ => True
  | _ => False

namespace Machine

/-- The guest's registers, each from where the code that follows takes it. -/
def taken (s : Machine) : Values :=
  fun r ↦ if takesFromHost r s.code then s.host.values s.ts.inPlace.x87State r else s.ts.values r

/-- What the guest can see at a point of the machine. -/
def view (s : Machine) (blocked : SigSet) : View where
  values := s.taken
  rip := if takesRipFromHost s.code then s.host.rip else s.ts.rip
  inPlace := s.ts.inPlace
  frm := s.host.frm
  blocked := blocked
  signalMask := s.ts.signalMask

/-- The point as one where a signal comes. -/
def interrupted (s : Machine) (actualRip : BitVec 64) (blocked : SigSet) : Interrupted where
  ts := s.ts
  host := s.host
  inHost r := takesFromHost r s.code
  ripInHost := takesRipFromHost s.code
  actualRip := actualRip
  blocked := blocked

variable {s : Machine}

theorem view_interrupted (actualRip : BitVec 64) (blocked : SigSet) :
    (s.interrupted actualRip blocked).view = s.view blocked := rfl

/-- Between two moves of `writebackState` or `restoreState` the guest sees what it saw before
them. -/
theorem view_exec_of_moves {jit : Bool} {op : Op} {rest : List Instr} (blocked : SigSet)
    (hcode : s.code = ⟨jit, op⟩ :: rest) (hop : op.Moves) :
    ({ s.exec op with code := rest }).view blocked = s.view blocked := by
  have hvalues : ∀ r, (({ s.exec op with code := rest }).view blocked).values r =
      (s.view blocked).values r := by
    intro r
    change taken _ r = s.taken r
    rw [taken, taken, hcode]
    cases op with
    | store q =>
      -- the stored register has the host's value in both places
      by_cases hq : q = r
      · subst hq
        simp [takesFromHost, exec]
      · simp [takesFromHost, exec, hq, Ne.symm hq]
    | load q =>
      by_cases hq : q = r
      · subst hq
        simp [takesFromHost, exec, HostRegs.values_set]
      · simp [takesFromHost, exec, HostRegs.values_set, hq, Ne.symm hq]
    | storeRip => rfl
    | loadRip => rfl
    | _ => exact absurd hop id
  have hrip : (({ s.exec op with code := rest }).view blocked).rip = (s.view blocked).rip := by
    cases op with
    | mark | host | cpp | sigreturn | goto => exact absurd hop id
    | _ => simp [view, hcode, takesRipFromHost, exec]
  have hvalues := funext hvalues
  cases op with
  | load q => exact View.ext hvalues hrip rfl (HostRegs.frm_set _ _ _ _) rfl rfl
  | mark | host | cpp | sigreturn | goto => exact absurd hop id
  | _ => exact View.ext hvalues hrip rfl rfl rfl rfl

/-- What a delivery pushes is the point, and the machine that takes it up again is at `resumed`. -/
theorem view_sigreturn (t : Machine) (frame : SigFrame) (actualRip : BitVec 64) (blocked : SigSet)
    (rest : List Context) (hjit : inJit s.code = true) :
    (t.sigreturn frame ⟨s.host, s.code, s.phase, (s.pulled actualRip).rip⟩ rest).view blocked =
      (s.interrupted actualRip blocked).resumed ⟨t.ts, frame⟩ := by
  have hrip : (s.pulled actualRip).rip = actualRip := by rw [pulled, if_pos hjit]
  rw [Machine.sigreturn]
  dsimp only
  rw [if_pos hjit, hrip]
  by_cases hkept : frame.rip = actualRip
  · have hred : ¬(s.interrupted actualRip blocked).Redirected ⟨t.ts, frame⟩ := not_not_intro hkept
    rw [if_pos hkept, Interrupted.resumed, Interrupted.resumedHost, if_neg hred]
    simp only [hred, decide_false, Bool.or_false]
    rfl
  · have hred : (s.interrupted actualRip blocked).Redirected ⟨t.ts, frame⟩ := hkept
    rw [if_neg hkept, Interrupted.resumed, Interrupted.resumedHost, if_pos hred]
    simp only [hred, decide_true, Bool.or_true, if_true]
    rfl

end Machine

end Signals

end Felix86
