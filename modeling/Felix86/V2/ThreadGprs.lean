import Felix86.Lib.Run
import Felix86.V2.ZeroExtend

/-!
# Guest registers of 32-bit threads over a run

A thread keeps its registers in the host while its code runs and in `ThreadState::gprs` while a C++
function does; a new thread starts from the `ThreadState` of the one that made it. In 32-bit mode
the upper halves stay zero in both places along every run in which no system call fails.
-/

namespace Felix86

namespace Jit

open Riscv

variable {ρ : Type*}

/-! ## One thread -/

/-- A thread of the guest: the host registers while its code runs, and `ThreadState::gprs`. -/
structure GuestThread (ρ : Type*) where
  state : State ρ
  gprs : Ref → U64

/-- What a thread does between two instruction boundaries. An instruction whose handler calls a C++
function goes through `writebackState` and `restoreState`, so `ThreadState` has the same values
after it. -/
inductive ThreadEvent (ρ : Type*)
  | instr (x : Instr ρ) (e : Flag → Bool) (calls : Bool)
  | writebackState
  | restoreState

namespace GuestThread

/-- The upper halves are zero, in the host registers and in `ThreadState`. -/
structure Low (th : GuestThread ρ) : Prop where
  core : Zext th.state.core
  gprs : ∀ r, Low32 (th.gprs r)

def step (k : Config) (th : GuestThread ρ) : ThreadEvent ρ → GuestThread ρ → Prop
  | .instr x e calls, th' => x.In32 ∧ ∃ t, x.exec k e th.state = some t ∧
      th' = ⟨t, if calls then t.core.gpr else th.gprs⟩
  | .writebackState, th' => th' = { th with gprs := th.state.core.gpr }
  | .restoreState, th' => th' = { th with state := th.state.map fun c ↦ { c with gpr := th.gprs } }

/-- The thread that `pthread_handler` starts with the state `child`: registers from the parent's
`ThreadState`, a result of zero and the stack in `RCX`. -/
def cloned (th : GuestThread ρ) (child : State ρ) : GuestThread ρ :=
  let gprs := Function.update (Function.update th.gprs rax 0) rsp (th.gprs rcx)
  { state := child.map fun c ↦ { c with gpr := gprs }, gprs := gprs }

/-- The main thread with the stack pointer of `setupMainStack`. -/
def main (sp : U64) (s : State ρ) : GuestThread ρ :=
  let gprs := Function.update (fun _ ↦ 0) rsp sp
  { state := s.map fun c ↦ { c with gpr := gprs }, gprs := gprs }

def Keeps32 (th : GuestThread ρ) : ThreadEvent ρ → Prop
  | .instr x _ _ => x.Keeps32 th.state.core
  | _ => True

theorem low_update {g : Ref → U64} (hg : ∀ r, Low32 (g r)) (r : Ref) {v : U64} (hv : Low32 v) :
    ∀ r', Low32 (Function.update g r v r') := by
  intro r'
  by_cases hr : r' = r
  · subst hr
    rwa [Function.update_self]
  · rw [Function.update_of_ne hr]
    exact hg r'

theorem Low.step {k : Config} {th th' : GuestThread ρ} {ev : ThreadEvent ρ} (h : th.Low)
    (hmode : k.mode32)
    (hok : th.Keeps32 ev) (hstep : th.step k ev th') : th'.Low := by
  cases ev with
  | instr x e calls =>
    obtain ⟨hx, t, ht, rfl⟩ := hstep
    have hcore := zext_exec hmode hx hok h.core ht
    refine ⟨hcore, ?_⟩
    cases calls with
    | true => exact hcore
    | false => exact h.gprs
  | writebackState =>
    obtain rfl := hstep
    exact ⟨h.core, h.core⟩
  | restoreState =>
    obtain rfl := hstep
    exact ⟨h.gprs, h.gprs⟩

theorem Low.cloned {th : GuestThread ρ} (h : th.Low) (child : State ρ) : (th.cloned child).Low := by
  have hgprs := low_update (low_update h.gprs rax (show Low32 0 by decide)) rsp (h.gprs rcx)
  exact ⟨hgprs, hgprs⟩

theorem low_main {sp : U64} (hsp : Low32 sp) (s : State ρ) : (main sp s).Low := by
  have hgprs := low_update (fun _ ↦ (show Low32 0 by decide)) rsp hsp
  exact ⟨hgprs, hgprs⟩

end GuestThread

/-! ## The threads of a process -/

/-- An event of a thread, or a new thread. -/
inductive ProcessEvent (ρ : Type*)
  | run (n : ℕ) (ev : ThreadEvent ρ)
  | clone (n : ℕ) (child : State ρ)

namespace Process

/-- The threads of a process, in the order they are started. -/
def step (k : Config) (p : List (GuestThread ρ)) : ProcessEvent ρ → List (GuestThread ρ) → Prop
  | .run n ev, p' => ∃ th th', p[n]? = some th ∧ th.step k ev th' ∧ p' = p.set n th'
  | .clone n child, p' => ∃ th, p[n]? = some th ∧ p' = p ++ [th.cloned child]

/-- No system call returns a number that does not fit 32 bits, such as a negative one, and no
`IRETD` pops across the end of the address space. -/
def Keeps32 (p : List (GuestThread ρ)) : ProcessEvent ρ → Prop
  | .run n ev => ∀ th, p[n]? = some th → th.Keeps32 ev
  | .clone _ _ => True

/-- In 32-bit mode the upper halves of all guest registers stay zero in every thread, as long as no
system call fails. The stack of the main thread ends below `0xBFFFF000`. -/
theorem low_of_run {k : Config} (hmode : k.mode32) {sp : U64} (hsp : sp.toNat ≤ 0xBFFFF000)
    (s : State ρ) {evs : List (ProcessEvent ρ)} {p : List (GuestThread ρ)}
    (hrun : Run (Guarded Keeps32 (step k)) [GuestThread.main sp s] evs p) : ∀ th ∈ p, th.Low := by
  refine hrun.invariant (I := fun p ↦ ∀ th ∈ p, th.Low) ?_ ?_
  · intro th hth
    obtain rfl := List.mem_singleton.mp hth
    exact GuestThread.low_main (low32_iff.mpr (by omega)) s
  · rintro p ev p' hp ⟨hok, hstep⟩ th hth
    cases ev with
    | run n ev =>
      obtain ⟨th₀, th₁, hget, hthread, rfl⟩ := hstep
      have h₀ := hp th₀ (List.mem_of_getElem? hget)
      obtain hmem | rfl := List.mem_or_eq_of_mem_set hth
      · exact hp th hmem
      · exact h₀.step hmode (hok th₀ hget) hthread
    | clone n child =>
      obtain ⟨th₀, hget, rfl⟩ := hstep
      obtain hmem | hmem := List.mem_append.mp hth
      · exact hp th hmem
      · obtain rfl := List.mem_singleton.mp hmem
        exact (hp th₀ (List.mem_of_getElem? hget)).cloned child

/-- `mov reg, imm` with 32-bit operands. -/
def movImm (r : Ref) (v : U64) : ProcessEvent Unit :=
  .run 0 (.instr (Mnemonic.mov.on .dword (.reg r .dword) (.imm v .dword)) (fun _ ↦ true) false)

/-- `int 0x80` with the given result. -/
def callResult (v : U64) : ProcessEvent Unit :=
  .run 0 (.instr ((Mnemonic.int (fun _ ↦ v) (fun _ ↦ false) id).on .dword (.imm 0x80 .byte)
    (.imm 0 .byte)) (fun _ ↦ true) true)

theorem in32_on {m : Mnemonic Unit} {op0 op1 : Operand} (hlong : m.long = false)
    (hlane : m.lane = false)
    (h0 : op0.size ≠ .qword) (h1 : op1.size ≠ .qword) : (m.on .dword op0 op1).In32 where
  short := hlong
  addressWidth := show Size.dword ≠ .qword by decide
  width _ := show Size.dword ≠ .qword by decide
  reg0 := by
    rintro r rfl
    exact h0 rfl
  reg1 := by
    rintro r rfl
    exact h1 rfl
  size0 _ := h0
  size1 _ := h1
  sized h := by simp [Mnemonic.on, hlane] at h

/-- `getpid` returns a number that fits. -/
theorem low_getpid : ∃ p, Run (Guarded Keeps32 (step (Config.default true)))
    [GuestThread.main 0xBFFF0000 State.zero] [movImm rax 20, callResult 1000] p ∧
    ∀ th ∈ p, th.Low := by
  have hmov : (Mnemonic.mov.on .dword (.reg rax .dword) (.imm 20 .dword) : Instr Unit).In32 :=
    in32_on rfl rfl (by decide) (by decide)
  have hint : ((Mnemonic.int (fun _ ↦ 1000) (fun _ ↦ false) id).on .dword (.imm 0x80 .byte)
      (.imm 0 .byte) : Instr Unit).In32 :=
    in32_on rfl rfl (by decide) (by decide)
  have hrun : ∃ p, Run (Guarded Keeps32 (step (Config.default true)))
      [GuestThread.main 0xBFFF0000 State.zero] [movImm rax 20, callResult 1000] p := by
    refine ⟨_, .cons ⟨?_, _, _, rfl, ⟨hmov, _, rfl, rfl⟩, rfl⟩
      (.single ⟨?_, _, _, rfl, ⟨hint, _, rfl, rfl⟩, rfl⟩)⟩
    · intro th _
      trivial
    · intro th _
      show Low32 1000
      decide
  obtain ⟨p, hrun⟩ := hrun
  exact ⟨p, hrun, low_of_run rfl (by decide) State.zero hrun⟩

/-- `close` of a descriptor that is not open leaves `-EBADF` in `RAX`, with 64 bits. -/
theorem not_low_close :
    ¬ ∀ (k : Config) (sp : U64) (s : State Unit) (evs : List (ProcessEvent Unit))
    (p : List (GuestThread Unit)), k.mode32 → sp.toNat ≤ 0xBFFFF000 →
      Run (step k) [GuestThread.main sp s] evs p → ∀ th ∈ p, th.Low := by
  intro h
  have heax : (Mnemonic.mov.on .dword (.reg rax .dword) (.imm 6 .dword) : Instr Unit).In32 :=
    in32_on rfl rfl (by decide) (by decide)
  have hebx : (Mnemonic.mov.on .dword (.reg rbx .dword) (.imm (-1) .dword) : Instr Unit).In32 :=
    in32_on rfl rfl (by decide) (by decide)
  have hint : ((Mnemonic.int (fun _ ↦ -9) (fun _ ↦ false) id).on .dword (.imm 0x80 .byte)
      (.imm 0 .byte) : Instr Unit).In32 :=
    in32_on rfl rfl (by decide) (by decide)
  have hrun : ∃ p th, Run (step (Config.default true)) [GuestThread.main 0xBFFF0000 State.zero]
      [movImm rax 6, movImm rbx (-1), callResult (-9)] p ∧ th ∈ p ∧ th.state.core.gpr rax = -9 := by
    refine ⟨_, _, .cons ⟨_, _, rfl, ⟨heax, _, rfl, rfl⟩, rfl⟩
      (.cons ⟨_, _, rfl, ⟨hebx, _, rfl, rfl⟩, rfl⟩
        (.single ⟨_, _, rfl, ⟨hint, _, rfl, rfl⟩, rfl⟩)), List.mem_singleton.mpr rfl, ?_⟩
    rfl
  obtain ⟨p, th, hrun, hth, hrax⟩ := hrun
  have hlow := (h _ _ _ _ _ rfl (by decide) hrun th hth).core rax
  rw [hrax] at hlow
  exact absurd hlow (by decide)

end Process

end Jit

end Felix86
