import Felix86.Lib.Nesting
import Mathlib.Data.BitVec

/-!
# The signal mask

A thread has two masks: `ThreadState::signal_mask`, which is what the guest asked for and what it is
told, and the mask of the host thread, which decides what is delivered. `rt_sigprocmask` sets the
second from the first. A delivery computes the mask the guest handler runs with, sets it on the host
and writes it down nowhere: `signal_mask` stays as it was. When the handler comes back the host
kernel returns from its own signal frame and puts the host mask back.

So the host mask is always restored, to any depth (`blocked_sigreturn`), while `signal_mask` tells
the truth only where no handler has changed the host mask behind its back.
-/

namespace Felix86

/-- The first word of a `sigset_t`; signal `n` is bit `n - 1`. -/
abbrev SigSet := BitVec 64

namespace SigSet

def SIGILL : Nat := 4
def SIGKILL : Nat := 9
def SIGSEGV : Nat := 11
def SIGSTOP : Nat := 19

/-- The set of one signal. -/
def bit (sig : Nat) : SigSet := 1#64 <<< (sig - 1)

/-- The numbers of signals. -/
def valid (sig : Nat) : Bool := 0 < sig && sig ≤ 64

/-- Signals that the library puts into a set and takes out of one: two are its own. -/
def settable (sig : Nat) : Bool := valid sig && sig != 32 && sig != 33

def sigismember (set : SigSet) (sig : Nat) : Int :=
  if valid sig then if set.getLsbD (sig - 1) then 1 else 0 else -1

def sigaddset (set : SigSet) (sig : Nat) : SigSet := if settable sig then set ||| bit sig else set

def sigdelset (set : SigSet) (sig : Nat) : SigSet :=
  if settable sig then set &&& ~~~bit sig else set

/-- The library's own signals. -/
def internal : SigSet := bit 32 ||| bit 33

def sigfillset : SigSet := ~~~internal

/-- `Signals::hostSignalMask`. -/
def hostSignalMask : SigSet := sigdelset (sigdelset sigfillset SIGILL) SIGSEGV

/-- What the kernel makes of a set it is asked to block. -/
def kernelSet (set : SigSet) : SigSet := set &&& ~~~(bit SIGKILL ||| bit SIGSTOP)

/-- `pthread_sigmask (SIG_SETMASK, set)`: the mask it leaves. -/
def pthreadSigmask (set : SigSet) : SigSet := kernelSet (set &&& ~~~internal)

/-- The signals that a guest mask can keep away from the thread. -/
def blockable : SigSet := pthreadSigmask hostSignalMask

/-- Two sets are the same mask if they agree on the blockable signals. -/
def Same (a b : SigSet) : Prop := a &&& blockable = b &&& blockable

instance (a b : SigSet) : Decidable (Same a b) := inferInstanceAs (Decidable (_ = _))

variable {a b c : SigSet}

theorem Same.symm (h : Same a b) : Same b a := Eq.symm h

theorem Same.trans (h₁ : Same a b) (h₂ : Same b c) : Same a c := Eq.trans h₁ h₂

/-- What reaches the host of a guest mask. -/
theorem pthreadSigmask_and_hostSignalMask (a : SigSet) :
    pthreadSigmask (a &&& hostSignalMask) = a &&& blockable := by
  simp only [blockable, pthreadSigmask, kernelSet, BitVec.and_assoc]

theorem same_and_blockable (a : SigSet) : Same a (a &&& blockable) := by
  rw [Same, BitVec.and_assoc, BitVec.and_self]

theorem same_kernelSet (a : SigSet) : Same a (kernelSet a) := by
  have hkernel : ~~~(bit SIGKILL ||| bit SIGSTOP) &&& blockable = blockable := by decide
  rw [Same, kernelSet, BitVec.and_assoc, hkernel]

end SigSet

open SigSet

/-- `how` of `rt_sigprocmask`; `other` is any number that is none of the three. -/
inductive How
  | block
  | unblock
  | setmask
  | other
deriving DecidableEq, Repr

/-- The loop of `SIG_UNBLOCK`, over all bits of a `sigset_t`, and the intersection after it. -/
def unblockSet (mask set : SigSet) : SigSet :=
  (List.range 1024).foldl
    (fun mask i ↦ if sigismember set i ≠ 0 then sigdelset mask i else mask) mask &&& sigfillset

/-- The new `signal_mask`, or nothing for `EINVAL`. -/
def newMask (mask : SigSet) (how : How) (set : SigSet) : Option SigSet :=
  match how with
  | .block => some (mask ||| set)
  | .unblock => some (unblockSet mask set)
  | .setmask => some set
  | .other => none

/-- The parts of a `RegisteredSignal` that matter to masks. -/
structure Action where
  mask : SigSet
  nodefer : Bool
deriving DecidableEq, Repr

/-- The mask a handler runs with, before it is cut down to what the host may block. -/
def Action.during (a : Action) (sig : Nat) (signalMask : SigSet) : SigSet :=
  if a.nodefer then sigdelset (a.mask ||| signalMask) sig else sigaddset (a.mask ||| signalMask) sig

/-- What is on the host stack: handlers that have not returned, with the mask in the kernel's own
signal frame, and calls of `sigsuspend`, with the local variable `old_mask` and the mask the kernel
will put back. `guest` and `touched` are not stored anywhere: they are `signal_mask` at the
delivery, and whether `rt_sigprocmask` has set a mask since. -/
inductive HostFrame
  | handler (sig : Nat) (action : Action) (guest saved : SigSet) (touched : Bool)
  | suspend (mask old saved : SigSet) (waiting : Bool)
deriving DecidableEq, Repr

namespace HostFrame

/-- The mask the kernel restores when the frame goes away. -/
def saved : HostFrame → SigSet
  | .handler _ _ _ saved _ => saved
  | .suspend _ _ saved _ => saved

/-- A delivery ends the wait of `sigsuspend`. -/
def wake : HostFrame → HostFrame
  | .suspend mask old saved _ => .suspend mask old saved false
  | f => f

/-- `rt_sigprocmask` sets a mask. -/
def touch : HostFrame → HostFrame
  | .handler sig action guest saved _ => .handler sig action guest saved true
  | f => f

@[simp]
theorem saved_wake (f : HostFrame) : f.wake.saved = f.saved := by
  cases f <;> rfl

@[simp]
theorem saved_touch (f : HostFrame) : f.touch.saved = f.saved := by
  cases f <;> rfl

end HostFrame

/-- `signal_mask`, the host's mask, and the host stack, innermost frame first. -/
structure Thread where
  signalMask : SigSet
  blocked : SigSet
  frames : List HostFrame
deriving DecidableEq, Repr

namespace Thread

/-- `pthread_handler` unblocks everything, and `ThreadState::Create` empties `signal_mask`. -/
def initial : Thread := ⟨0, 0, []⟩

variable (s : Thread)

/-- Guest code runs: the innermost frame is not a `sigsuspend`. -/
def Running : Prop :=
  match s.frames with
  | .suspend .. :: _ => False
  | _ => True

/-- `rt_sigprocmask`. Without a set nothing changes. -/
def sigprocmask (how : How) (set : Option SigSet) : Thread :=
  match set with
  | none => s
  | some set =>
    match newMask s.signalMask how set with
    | none => s
    | some mask =>
      { signalMask := mask
        blocked := pthreadSigmask (mask &&& hostSignalMask)
        frames := s.frames.modifyHead HostFrame.touch }

/-- The call of `::sigsuspend`. -/
def sigsuspend (mask : SigSet) : Thread :=
  { signalMask := mask
    blocked := kernelSet mask
    frames := .suspend mask s.signalMask s.blocked true :: s.frames }

/-- The mask the kernel writes in its signal frame: the one in effect, or, for a signal that ends a
`sigsuspend`, the one that was in effect when it was called. -/
def toRestore : SigSet :=
  match s.frames with
  | .suspend _ _ saved true :: _ => saved
  | _ => s.blocked

/-- `dispatch_guest` up to `enterDispatcher`. -/
def deliver (sig : Nat) (action : Action) : Thread :=
  { s with
    blocked := pthreadSigmask (action.during sig s.signalMask &&& hostSignalMask)
    frames := .handler sig action s.signalMask s.toRestore false ::
      s.frames.modifyHead HostFrame.wake }

/-- What a thread does to its masks. `suspendReturn` is the end of `Signals::sigsuspend`. The kernel
delivers only signals that are not blocked. `rt_sigreturn` sets the host mask from `signal_mask`,
and the kernel's own return, right after, sets it from its frame. -/
inductive Event
  | sigprocmask (how : How) (set : Option SigSet) (oldset : Bool)
  | sigsuspend (mask : SigSet)
  | suspendReturn
  | deliver (sig : Nat) (action : Action)
  | sigreturn
deriving DecidableEq, Repr

/-- The next state. -/
def Step (s : Thread) : Event → Thread → Prop
  | .sigprocmask how set _, t => s.Running ∧ t = s.sigprocmask how set
  | .sigsuspend mask, t => s.Running ∧ t = s.sigsuspend mask
  | .suspendReturn, t =>
    ∃ mask old saved rest, s.frames = .suspend mask old saved false :: rest ∧
      t = ⟨old, s.blocked, rest⟩
  | .deliver sig action, t =>
    valid sig = true ∧ s.blocked.getLsbD (sig - 1) = false ∧ t = s.deliver sig action
  | .sigreturn, t =>
    ∃ sig action guest saved touched rest,
      s.frames = .handler sig action guest saved touched :: rest ∧
        t = ⟨s.signalMask, saved, rest⟩

/-- The mask the event reports to the guest, in `oldset` or in `uc_sigmask`. `EINVAL` leaves
`oldset` alone. -/
def reported (s : Thread) : Event → Option SigSet
  | .sigprocmask how set oldset =>
    if oldset && (set.isNone || how != .other) then some s.signalMask else none
  | .deliver _ _ => some s.signalMask
  | _ => none

/-- Where `signal_mask` is the mask in effect: outside handlers, in a handler that was delivered
with nothing to add or that has set a mask itself, and in the wait of `sigsuspend`. -/
def Truthful (frames : List HostFrame) : Prop :=
  match frames with
  | [] => True
  | .handler sig action guest _ touched :: _ =>
    touched = true ∨ Same (action.during sig guest) guest
  | .suspend mask _ saved waiting :: _ => waiting = true ∨ Same mask saved

/-- The innermost handler has `signal_mask` as it was at its delivery. -/
def KeepsMask (s : Thread) : Prop :=
  match s.frames with
  | .handler _ _ guest _ _ :: _ => Same s.signalMask guest
  | _ => True

/-- The condition on a step: masks are reported where `signal_mask` is the mask in effect, and a
handler returns with `signal_mask` as it was at its delivery. -/
def StepOk (s : Thread) (e : Event) : Prop :=
  ((s.reported e).isSome = true → Truthful s.frames) ∧ (e = .sigreturn → s.KeepsMask)

/-! ## Returning -/

def Opens : Event → Prop
  | .sigsuspend _ => True
  | .deliver _ _ => True
  | _ => False

def Closes : Event → Prop
  | .suspendReturn => True
  | .sigreturn => True
  | _ => False

variable {s}
variable {t : Thread}

/-- The masks to restore, from the innermost frame out. -/
def stack (s : Thread) : List SigSet := s.frames.map HostFrame.saved

theorem map_saved_modifyHead {f : HostFrame → HostFrame} (hf : ∀ x, (f x).saved = x.saved)
    (frames : List HostFrame) :
    (frames.modifyHead f).map HostFrame.saved = frames.map HostFrame.saved := by
  cases frames with
  | nil => rfl
  | cons x rest => simp [hf]

theorem stack_deliver (s : Thread) (sig : Nat) (action : Action) :
    (s.deliver sig action).stack = s.toRestore :: s.stack := by
  simp only [stack, deliver, List.map_cons, HostFrame.saved,
    map_saved_modifyHead HostFrame.saved_wake]

theorem stack_sigprocmask (s : Thread) (how : How) (set : Option SigSet) :
    (s.sigprocmask how set).stack = s.stack := by
  unfold sigprocmask
  split
  · rfl
  · split
    · rfl
    · exact map_saved_modifyHead HostFrame.saved_touch s.frames

theorem stack_of_plain {e : Event} (hopens : ¬Opens e) (hcloses : ¬Closes e) (h : Step s e t) :
    t.stack = s.stack := by
  cases e with
  | sigprocmask how set oldset =>
    obtain ⟨-, rfl⟩ := h
    exact stack_sigprocmask s how set
  | sigsuspend => exact absurd trivial hopens
  | deliver => exact absurd trivial hopens
  | suspendReturn => exact absurd trivial hcloses
  | sigreturn => exact absurd trivial hcloses

theorem stack_of_opens {e : Event} (hopens : Opens e) (h : Step s e t) :
    ∃ m, t.stack = m :: s.stack := by
  cases e with
  | sigsuspend mask =>
    obtain ⟨-, rfl⟩ := h
    exact ⟨s.blocked, rfl⟩
  | deliver sig action =>
    obtain ⟨-, -, rfl⟩ := h
    exact ⟨s.toRestore, stack_deliver s sig action⟩
  | sigprocmask => exact absurd hopens id
  | suspendReturn => exact absurd hopens id
  | sigreturn => exact absurd hopens id

theorem stack_of_closes {e : Event} (hcloses : Closes e) (h : Step s e t) :
    ∃ m, s.stack = m :: t.stack := by
  cases e with
  | suspendReturn =>
    obtain ⟨mask, old, saved, rest, hframes, rfl⟩ := h
    exact ⟨saved, by rw [stack, hframes]; rfl⟩
  | sigreturn =>
    obtain ⟨sig, action, guest, saved, touched, rest, hframes, rfl⟩ := h
    exact ⟨saved, by rw [stack, hframes]; rfl⟩
  | sigprocmask => exact absurd hcloses id
  | sigsuspend => exact absurd hcloses id
  | deliver => exact absurd hcloses id

/-- Whatever a handler does, with other handlers inside it to any depth: when it has returned, the
host mask is the one the kernel saved at the delivery. -/
theorem blocked_sigreturn {sig : Nat} {action : Action} {events : List Event}
    (hbalanced : Balanced Opens Closes events)
    (hrun : Run Step s (.deliver sig action :: events ++ [.sigreturn]) t) :
    t.blocked = s.toRestore := by
  obtain ⟨u, ⟨-, -, rfl⟩, hrest⟩ := Run.of_cons hrun
  obtain ⟨v, hinside, hlast⟩ := hrest.split
  have hstack : v.stack = (s.deliver sig action).stack :=
    hbalanced.stack_eq (fun _ _ _ ↦ stack_of_plain) (fun _ _ _ ↦ stack_of_opens)
      (fun _ _ _ ↦ stack_of_closes) hinside
  obtain ⟨_, _, _, saved, _, rest, hframes, rfl⟩ := hlast.of_single
  rw [stack_deliver, stack, hframes] at hstack
  exact List.head_eq_of_cons_eq hstack

/-! ## Reports -/

/-- What the frames promise about the two masks: in a truthful place they are the same, and they
will be again when the frame is gone. -/
def Sound : SigSet → SigSet → List HostFrame → Prop
  | mask, blocked, [] => Same mask blocked
  | mask, blocked, .handler sig action guest saved touched :: rest =>
    (touched = true ∨ Same (action.during sig guest) guest → Same mask blocked) ∧
      Sound guest saved rest
  | mask, blocked, .suspend m old saved waiting :: rest =>
    Same mask m ∧ (if waiting = true then Same mask blocked else blocked = saved) ∧
      Sound old saved rest

/-- The thread is as its frames promise. -/
def SoundState (s : Thread) : Prop := Sound s.signalMask s.blocked s.frames

theorem SoundState.same (h : s.SoundState) (htruthful : Truthful s.frames) :
    Same s.signalMask s.blocked := by
  obtain ⟨mask, blocked, frames⟩ := s
  match frames with
  | [] => exact h
  | .handler .. :: _ => exact h.1 htruthful
  | .suspend _ _ _ true :: _ => exact h.2.1
  | .suspend m old saved false :: _ =>
    have hblocked : blocked = saved := h.2.1
    rw [hblocked]
    exact h.1.trans (htruthful.resolve_left Bool.false_ne_true)

/-- Only the blockable part of `signal_mask` matters. -/
theorem Sound.of_same {mask mask' blocked : SigSet} {frames : List HostFrame}
    (h : Sound mask blocked frames) (hsame : Same mask' mask) : Sound mask' blocked frames := by
  match frames with
  | [] => exact hsame.trans h
  | .handler .. :: _ => exact ⟨fun htrue ↦ hsame.trans (h.1 htrue), h.2⟩
  | .suspend _ _ _ true :: _ => exact ⟨hsame.trans h.1, hsame.trans h.2.1, h.2.2⟩
  | .suspend _ _ _ false :: _ => exact ⟨hsame.trans h.1, h.2⟩

theorem SoundState.sigprocmask (h : s.SoundState) (hrunning : s.Running) (how : How)
    (set : Option SigSet) : (s.sigprocmask how set).SoundState := by
  unfold Thread.sigprocmask
  split
  · exact h
  · split
    · exact h
    · rename_i mask _
      have hsame : Same mask (pthreadSigmask (mask &&& hostSignalMask)) := by
        rw [pthreadSigmask_and_hostSignalMask]
        exact same_and_blockable mask
      obtain ⟨signalMask, blocked, frames⟩ := s
      match frames with
      | [] => exact hsame
      | .handler .. :: _ => exact ⟨fun _ ↦ hsame, h.2⟩
      | .suspend .. :: _ => exact hrunning.elim

theorem SoundState.sigsuspend (h : s.SoundState) (mask : SigSet) :
    (s.sigsuspend mask).SoundState :=
  ⟨rfl, same_kernelSet mask, h⟩

theorem SoundState.deliver (h : s.SoundState) (sig : Nat) (action : Action) :
    (s.deliver sig action).SoundState := by
  refine ⟨?_, ?_⟩
  · rintro (htouched | hquiet)
    · exact absurd htouched Bool.false_ne_true
    · show Same s.signalMask (pthreadSigmask (action.during sig s.signalMask &&& hostSignalMask))
      rw [pthreadSigmask_and_hostSignalMask]
      exact hquiet.symm.trans (same_and_blockable _)
  · obtain ⟨mask, blocked, frames⟩ := s
    match frames with
    | [] => exact h
    | .handler .. :: _ => exact h
    | .suspend _ _ _ true :: _ => exact ⟨h.1, rfl, h.2.2⟩
    | .suspend _ _ _ false :: _ => exact h

theorem SoundState.step {e : Event} (h : s.SoundState) (hstep : Guarded StepOk Step s e t) :
    t.SoundState := by
  obtain ⟨hok, hstep⟩ := hstep
  cases e with
  | sigprocmask how set oldset =>
    obtain ⟨hrunning, rfl⟩ := hstep
    exact h.sigprocmask hrunning how set
  | sigsuspend mask =>
    obtain ⟨-, rfl⟩ := hstep
    exact h.sigsuspend mask
  | suspendReturn =>
    obtain ⟨mask, old, saved, rest, hframes, rfl⟩ := hstep
    rw [SoundState, hframes] at h
    obtain ⟨-, hblocked, hrest⟩ := h
    have hsaved : s.blocked = saved := hblocked
    rw [SoundState, hsaved]
    exact hrest
  | deliver sig action =>
    obtain ⟨-, -, rfl⟩ := hstep
    exact h.deliver sig action
  | sigreturn =>
    obtain ⟨sig, action, guest, saved, touched, rest, hframes, rfl⟩ := hstep
    have hguest : s.KeepsMask := hok.2 rfl
    rw [KeepsMask, hframes] at hguest
    rw [SoundState, hframes] at h
    exact h.2.of_same hguest

end Thread

end Felix86
