import Mathlib.Data.Set.Basic
import Mathlib.Logic.Function.Basic
import Mathlib.Tactic.Set

/-!
# Load-reserved and store-conditional

A hart runs code that reads a place in memory with a reservation, computes, and writes the place if
the reservation is still there. Between any two of its instructions others can write what they want,
and if they change the place that is reserved the reservation is gone. It can also be lost for no
reason.

A loop that reads, perhaps leaves, computes, writes and starts again if the write failed is atomic:
whatever the others do, there is one step of the hart at which memory changes as if the whole loop
had been done at once (`Loop.atomic`), and its other steps leave memory alone. If the loop leaves,
that step is the last read, else it is the write that did not fail.

## Runs

A run comes with what each of its steps did to memory. That a run is atomic is said of this list
alone (`Once`): it speaks about what happened, not about what else could have happened between the
same two states.

## Programs

A program is a loop with register instructions before and after it. It can have a test, and code to
which it branches if the test says that the loop cannot be used (`Elsewhere`). Such code has plain
loads and stores, or stops the hart; nothing is said here about its atomicity, only when it is
reached and whether it comes to an end.

Values, addresses and memory are arbitrary types. A register instruction is the register it writes
with the function it computes.
-/

namespace Felix86

namespace Reservation

variable {Reg V M : Type*}

/-- The places that code branches to. -/
inductive Label
  | loop
  | exit
  | elsewhere
  | retry
deriving DecidableEq, Repr

/-- `load` and `store` are accesses without a reservation, of any width. `trap` stops the hart. -/
inductive Insn (Reg V M : Type*)
  | op (rd : Reg) (value : (Reg → V) → V)
  | load (rd : Reg) (read : V → M → V) (rs1 : Reg)
  | store (write : V → V → M → M) (rs2 rs1 : Reg)
  | lr (rd rs1 : Reg)
  | sc (rd rs2 rs1 : Reg)
  | branch (p : (Reg → V) → Prop) (target : Label)
  | trap

/-- How memory is read and written, and which addresses can be reserved. -/
structure Access (V M : Type*) where
  load : V → M → V
  store : V → V → M → M
  Aligned : V → Prop

/-- A hart with the code that is left, and the memory it shares. -/
structure Hart (Reg V M : Type*) where
  rest : List (Insn Reg V M)
  x : Reg → V
  reserved : Option V
  mem : M

/-- What a step of the hart or of the others makes of memory. -/
inductive Event (M : Type*)
  | own (m m' : M)
  | env (m m' : M)

section

variable [DecidableEq Reg] [Zero V] (A : Access V M) (code : Label → List (Insn Reg V M))

/-- A step of the hart. There is none from a `trap`. -/
inductive Own : Hart Reg V M → Hart Reg V M → Prop
  | op (rd : Reg) (value : (Reg → V) → V) (rest : List (Insn Reg V M)) (x : Reg → V) (r : Option V)
      (m : M) : Own ⟨.op rd value :: rest, x, r, m⟩ ⟨rest, Function.update x rd (value x), r, m⟩
  | load (rd : Reg) (read : V → M → V) (rs1 : Reg) (rest : List (Insn Reg V M)) (x : Reg → V)
      (r : Option V) (m : M) : Own ⟨.load rd read rs1 :: rest, x, r, m⟩
        ⟨rest, Function.update x rd (read (x rs1) m), r, m⟩
  | store (write : V → V → M → M) (rs2 rs1 : Reg) (rest : List (Insn Reg V M)) (x : Reg → V)
      (r : Option V) (m : M) :
      Own ⟨.store write rs2 rs1 :: rest, x, r, m⟩ ⟨rest, x, r, write (x rs1) (x rs2) m⟩
  | lr (rd : Reg) {rs1 : Reg} (rest : List (Insn Reg V M)) {x : Reg → V} (r : Option V) (m : M)
      (h : A.Aligned (x rs1)) :
      Own ⟨.lr rd rs1 :: rest, x, r, m⟩
        ⟨rest, Function.update x rd (A.load (x rs1) m), some (x rs1), m⟩
  | scDone (rd rs2 : Reg) {rs1 : Reg} (rest : List (Insn Reg V M)) {x : Reg → V} {r : Option V}
      (m : M) (h : r = some (x rs1)) :
      Own ⟨.sc rd rs2 rs1 :: rest, x, r, m⟩
        ⟨rest, Function.update x rd 0, none, A.store (x rs1) (x rs2) m⟩
  | scFail (rd rs2 rs1 : Reg) (rest : List (Insn Reg V M)) (x : Reg → V) (r : Option V) (m : M)
      {v : V} (h : v ≠ 0) :
      Own ⟨.sc rd rs2 rs1 :: rest, x, r, m⟩ ⟨rest, Function.update x rd v, none, m⟩
  | taken {p : (Reg → V) → Prop} (target : Label) (rest : List (Insn Reg V M)) {x : Reg → V}
      (r : Option V) (m : M) (h : p x) :
      Own ⟨.branch p target :: rest, x, r, m⟩ ⟨code target, x, r, m⟩
  | through {p : (Reg → V) → Prop} (target : Label) (rest : List (Insn Reg V M)) {x : Reg → V}
      (r : Option V) (m : M) (h : ¬p x) :
      Own ⟨.branch p target :: rest, x, r, m⟩ ⟨rest, x, r, m⟩

/-- The others write. A reservation is only kept if the place it is about has not changed. -/
inductive Env : Hart Reg V M → Hart Reg V M → Prop
  | mk (rest : List (Insn Reg V M)) (x : Reg → V) (r r' : Option V) (m m' : M)
      (h : r' = none ∨ r' = r ∧ ∀ a ∈ r, A.load a m' = A.load a m) :
      Env ⟨rest, x, r, m⟩ ⟨rest, x, r', m'⟩

/-- A run of the hart and of the others, and what its steps make of memory. -/
inductive Steps : List (Event M) → Hart Reg V M → Hart Reg V M → Prop
  | refl (s : Hart Reg V M) : Steps [] s s
  | own {tr : List (Event M)} {s t e : Hart Reg V M} (h : Own A code s t) (hrest : Steps tr t e) :
      Steps (.own s.mem t.mem :: tr) s e
  | env {tr : List (Event M)} {s t e : Hart Reg V M} (h : Env A s t) (hrest : Steps tr t e) :
      Steps (.env s.mem t.mem :: tr) s e

end

/-! ## Atomicity -/

section

/-- Only the others change memory. -/
def Quiet (tr : List (Event M)) : Prop := ∀ m m', Event.own m m' ∈ tr → m' = m

/-- In one step of the hart memory changes as `effect` says; its other steps leave memory alone. -/
def Once (effect : M → M → Prop) (tr : List (Event M)) : Prop :=
  ∃ before m m' after, tr = before ++ .own m m' :: after ∧ Quiet before ∧ effect m m' ∧ Quiet after

variable {tr tr' : List (Event M)} {effect : M → M → Prop} {m m' : M}

theorem Quiet.nil : Quiet ([] : List (Event M)) := fun _ _ h ↦ absurd h List.not_mem_nil

theorem Quiet.own (hmem : m' = m) (h : Quiet tr) : Quiet (.own m m' :: tr) := by
  intro n n' hin
  obtain hin | hin := List.mem_cons.mp hin
  · cases hin
    exact hmem
  · exact h n n' hin

theorem Quiet.env (m m' : M) (h : Quiet tr) : Quiet (.env m m' :: tr) := by
  intro n n' hin
  obtain hin | hin := List.mem_cons.mp hin
  · cases hin
  · exact h n n' hin

theorem Quiet.append (h : Quiet tr) (h' : Quiet tr') : Quiet (tr ++ tr') := fun n n' hin ↦
  (List.mem_append.mp hin).elim (h n n') (h' n n')

theorem Once.after (h : Quiet tr) (h' : Once effect tr') : Once effect (tr ++ tr') := by
  obtain ⟨before, m, m', after, rfl, hbefore, heffect, hafter⟩ := h'
  exact ⟨tr ++ before, m, m', after, (List.append_assoc ..).symm, h.append hbefore, heffect, hafter⟩

theorem Once.before (h : Once effect tr) (h' : Quiet tr') : Once effect (tr ++ tr') := by
  obtain ⟨before, m, m', after, rfl, hbefore, heffect, hafter⟩ := h
  refine ⟨before, m, m', after ++ tr', ?_, hbefore, heffect, hafter.append h'⟩
  rw [List.append_assoc, List.cons_append]

theorem Once.mono {effect' : M → M → Prop} (h : Once effect tr)
    (heffect : ∀ m m', effect m m' → effect' m m') : Once effect' tr := by
  obtain ⟨before, m, m', after, htr, hbefore, hm, hafter⟩ := h
  exact ⟨before, m, m', after, htr, hbefore, heffect m m' hm, hafter⟩

/-- A step that changes memory is the one that counts. -/
theorem Once.effect_of_mem (h : Once effect tr) (hin : Event.own m m' ∈ tr) (hne : m' ≠ m) :
    effect m m' := by
  obtain ⟨before, n, n', after, rfl, hbefore, heffect, hafter⟩ := h
  obtain hin | hin := List.mem_append.mp hin
  · exact absurd (hbefore m m' hin) hne
  obtain hin | hin := List.mem_cons.mp hin
  · cases hin
    exact heffect
  · exact absurd (hafter m m' hin) hne

end

/-! ## Runs -/

section

variable {A : Access V M} {s t e : Hart Reg V M}

/-- What is read under the reservation is still there. -/
def Kept (A : Access V M) (r : Option V) (m : M) (a v : V) : Prop := r = some a → A.load a m = v

/-- What the others do before the next step of the hart. -/
structure Waits (A : Access V M) (s t : Hart Reg V M) : Prop where
  rest : t.rest = s.rest
  x : t.x = s.x
  kept : ∀ a v, Kept A s.reserved s.mem a v → Kept A t.reserved t.mem a v

theorem Waits.of_env (h : Env A s t) : Waits A s t := by
  obtain ⟨rest, x, r, r', m, m', hr⟩ := h
  refine ⟨rfl, rfl, fun a v hkept hr' ↦ ?_⟩
  obtain rfl | ⟨rfl, hsame⟩ := hr
  · exact absurd hr' (by simp)
  · exact (hsame a hr').trans (hkept hr')

theorem Waits.trans (h : Waits A s t) (h' : Waits A t e) : Waits A s e :=
  ⟨h'.rest.trans h.rest, h'.x.trans h.x, fun a v hk ↦ h'.kept a v (h.kept a v hk)⟩

end

section

variable [DecidableEq Reg] [Zero V] {A : Access V M} {code : Label → List (Insn Reg V M)}
  {s t e : Hart Reg V M} {tr : List (Event M)}

/-- A run that leaves no code takes a step of the hart if there is code at its start. -/
theorem Steps.peel (h : Steps A code tr s e) (hs : s.rest ≠ []) (he : e.rest = []) :
    ∃ pre t t' post, tr = pre ++ .own t.mem t'.mem :: post ∧ Quiet pre ∧ Waits A s t ∧
      Own A code t t' ∧ Steps A code post t' e := by
  induction h with
  | refl => exact absurd he hs
  | @own post s t e hstep hrest _ =>
    exact ⟨[], s, t, post, rfl, .nil, ⟨rfl, rfl, fun _ _ hk ↦ hk⟩, hstep, hrest⟩
  | @env tr s t e hstep _ ih =>
    have hwaits := Waits.of_env hstep
    obtain ⟨pre, u, u', post, rfl, hquiet, hu, hown, hrest⟩ := ih (hwaits.rest ▸ hs) he
    exact ⟨.env s.mem t.mem :: pre, u, u', post, rfl, hquiet.env _ _, hwaits.trans hu, hown, hrest⟩

/-- The rest of a run in which the hart has nothing more to do. -/
theorem Steps.quiet_of_nil (h : Steps A code tr s e) (hs : s.rest = []) : Quiet tr ∧ e.x = s.x := by
  induction h with
  | refl s => exact ⟨.nil, rfl⟩
  | own hstep _ _ => cases hstep <;> cases hs
  | env hstep _ ih =>
    have hwaits := Waits.of_env hstep
    obtain ⟨hquiet, hx⟩ := ih (hwaits.rest.trans hs)
    exact ⟨hquiet.env _ _, hx.trans hwaits.x⟩

/-! ## Steps of the hart -/

variable {rest : List (Insn Reg V M)}

theorem Own.of_op {rd : Reg} {value : (Reg → V) → V} (h : Own A code s t)
    (hs : s.rest = .op rd value :: rest) :
        t.rest = rest ∧ t.x = Function.update s.x rd (value s.x) ∧
      t.reserved = s.reserved ∧ t.mem = s.mem := by
  cases h <;> cases hs
  exact ⟨rfl, rfl, rfl, rfl⟩

theorem Own.of_lr {rd rs1 : Reg} (h : Own A code s t) (hs : s.rest = .lr rd rs1 :: rest) :
    A.Aligned (s.x rs1) ∧ t.rest = rest ∧ t.x = Function.update s.x rd (A.load (s.x rs1) s.mem) ∧
      t.reserved = some (s.x rs1) ∧ t.mem = s.mem := by
  cases h <;> cases hs
  exact ⟨‹_›, rfl, rfl, rfl, rfl⟩

theorem Own.of_sc {rd rs2 rs1 : Reg} (h : Own A code s t) (hs : s.rest = .sc rd rs2 rs1 :: rest) :
    t.rest = rest ∧
      (s.reserved = some (s.x rs1) ∧ t.x = Function.update s.x rd 0 ∧
          t.mem = A.store (s.x rs1) (s.x rs2) s.mem ∨
        ∃ v ≠ 0, t.x = Function.update s.x rd v ∧ t.mem = s.mem) := by
  cases h <;> cases hs
  · exact ⟨rfl, .inl ⟨‹_›, rfl, rfl⟩⟩
  · exact ⟨rfl, .inr ⟨_, ‹_›, rfl, rfl⟩⟩

theorem Own.of_branch {p : (Reg → V) → Prop} {target : Label} (h : Own A code s t)
    (hs : s.rest = .branch p target :: rest) :
    t.x = s.x ∧ t.reserved = s.reserved ∧ t.mem = s.mem ∧
      (p s.x ∧ t.rest = code target ∨ ¬p s.x ∧ t.rest = rest) := by
  cases h <;> cases hs
  · exact ⟨rfl, rfl, rfl, .inl ⟨‹_›, rfl⟩⟩
  · exact ⟨rfl, rfl, rfl, .inr ⟨‹_›, rfl⟩⟩

theorem not_own_of_trap (hs : s.rest = .trap :: rest) : ¬Own A code s t := by
  intro h
  cases h <;> cases hs

/-! ## Register instructions -/

/-- Register instructions one after the other. -/
def runOps (ops : List (Reg × ((Reg → V) → V))) (x : Reg → V) : Reg → V :=
  ops.foldl (fun x o ↦ Function.update x o.1 (o.2 x)) x

def emitOps (ops : List (Reg × ((Reg → V) → V))) :
    List (Insn Reg V M) := ops.map fun o ↦ .op o.1 o.2

omit [Zero V] in
theorem runOps_of_notMem {ops : List (Reg × ((Reg → V) → V))} {r : Reg} (h : r ∉ ops.map Prod.fst)
    (x : Reg → V) : runOps ops x r = x r := by
  induction ops generalizing x with
  | nil => rfl
  | cons o ops ih =>
    obtain ⟨hne, hrest⟩ : r ≠ o.1 ∧ r ∉ ops.map Prod.fst := by simpa [not_or] using h
    exact (ih hrest _).trans (Function.update_of_ne hne _ x)

/-- A run goes through register instructions quietly, and a reservation is lost or as good as
before. -/
theorem Steps.ops {ops : List (Reg × ((Reg → V) → V))}
    (h : Steps A code tr s e) (hs : s.rest = emitOps ops ++ rest) (he : e.rest = []) :
    ∃ pre t post, tr = pre ++ post ∧ Quiet pre ∧ t.rest = rest ∧ t.x = runOps ops s.x ∧
      (∀ a v, Kept A s.reserved s.mem a v → Kept A t.reserved t.mem a v) ∧
          Steps A code post t e := by
  induction ops generalizing tr s with
  | nil => exact ⟨[], s, tr, rfl, .nil, hs, rfl, fun _ _ hk ↦ hk, h⟩
  | cons o ops ih =>
    have hne : s.rest ≠ [] := by
      rw [hs]
      exact List.cons_ne_nil _ _
    obtain ⟨pre, t, t', post, rfl, hquiet, hwaits, hown, hrest⟩ := h.peel hne he
    obtain ⟨hrest', hx, hreserved, hmem⟩ := hown.of_op (hwaits.rest.trans hs)
    obtain ⟨pre', u, post', rfl, hquiet', hu, hxu, hkept, hsteps⟩ := ih hrest hrest'
    refine ⟨pre ++ .own t.mem t'.mem :: pre', u, post', ?_, hquiet.append (hquiet'.own hmem), hu,
      ?_, fun a v hs' ↦ ?_, hsteps⟩
    · rw [List.append_assoc, List.cons_append]
    · rw [hxu, hx, hwaits.x]
      rfl
    · refine hkept a v ?_
      rw [hreserved, hmem]
      exact hwaits.kept a v hs'

end

/-! ## Loops -/

/-- A loop around a load-reserved and a store-conditional. After the load `before` is computed, and
the loop is left if `leaves` holds; then `compute` is computed for the store. -/
structure Loop (Reg V : Type*) where
  old : Reg
  address : Reg
  before : List (Reg × ((Reg → V) → V))
  leaves : Option ((Reg → V) → Prop)
  compute : List (Reg × ((Reg → V) → V))
  new : Reg
  status : Reg

namespace Loop

section

variable [Zero V] (l : Loop Reg V)

def tests : List (Insn Reg V M) :=
  match l.leaves with
  | some p => [.branch p .exit]
  | none => []

/-- The code from the store on. -/
def storeCode (rest : List (Insn Reg V M)) : List (Insn Reg V M) :=
  .sc l.status l.new l.address :: .branch (fun x ↦ x l.status ≠ 0) .loop :: rest

/-- The code of the loop, before the code that follows it. -/
def code (rest : List (Insn Reg V M)) : List (Insn Reg V M) :=
  .lr l.old l.address ::
    (emitOps l.before ++ (l.tests ++ (emitOps l.compute ++ l.storeCode rest)))

/-- The registers that the loop writes. -/
def dests : List Reg := l.old :: l.before.map Prod.fst ++ l.compute.map Prod.fst ++ [l.status]

end

section

variable [DecidableEq Reg] [Zero V] (A : Access V M) (l : Loop Reg V)

/-- The registers when the loop may be left, if `v` is read. -/
def tested (x : Reg → V) (v : V) : Reg → V := runOps l.before (Function.update x l.old v)

def Leaves (x : Reg → V) (v : V) : Prop := ∃ p ∈ l.leaves, p (l.tested x v)

/-- The registers at the store. -/
def computed (x : Reg → V) (v : V) : Reg → V := runOps l.compute (l.tested x v)

/-- The loop done at once, left or not: memory before and after, and the registers after. -/
def Does (x : Reg → V) (y : Reg → V) (left : Bool) (m m' : M) : Prop :=
  let v := A.load (x l.address) m
  if left then l.Leaves x v ∧ m' = m ∧ y = l.tested x v
  else ¬l.Leaves x v ∧ m' = A.store (x l.address) (l.computed x v l.new) m ∧
    y = Function.update (l.computed x v) l.status 0

end

section

variable [DecidableEq Reg] {l : Loop Reg V}

theorem tested_of_notMem {r : Reg} (h : r ∉ l.dests) (x : Reg → V) (v : V) :
    l.tested x v r = x r := by
  have hne : r ≠ l.old ∧ r ∉ l.before.map Prod.fst := by
    simp only [dests, List.mem_append, List.mem_cons, not_or] at h
    exact h.1.1
  exact (runOps_of_notMem hne.2 _).trans (Function.update_of_ne hne.1 _ x)

theorem computed_of_notMem {r : Reg} (h : r ∉ l.dests) (x : Reg → V) (v : V) :
    l.computed x v r = x r := by
  have hne : r ∉ l.compute.map Prod.fst := by
    simp only [dests, List.mem_append, List.mem_cons, not_or] at h
    exact h.1.2
  exact (runOps_of_notMem hne _).trans (l.tested_of_notMem h x v)

end

section

variable [DecidableEq Reg] [Zero V] {A : Access V M} {l : Loop Reg V}
  {at' : Label → List (Insn Reg V M)} {rest : List (Insn Reg V M)} {s e : Hart Reg V M}
  {tr : List (Event M)}

theorem Does.of_notMem {x y : Reg → V} {left : Bool} {m m' : M} (h : l.Does A x y left m m')
    {r : Reg}
    (hr : r ∉ l.dests) : y r = x r := by
  cases left with
  | true => rw [h.2.2, l.tested_of_notMem hr]
  | false =>
    have hne : r ≠ l.status := fun heq ↦ hr (by simp [heq, dests])
    rw [h.2.2, Function.update_of_ne hne, l.computed_of_notMem hr]

/-- The first part of a round: the loop is left, or what has been read is still there when the store
comes, if it is still reserved. -/
theorem reads (h : Steps A at' tr s e) (hs : s.rest = l.code rest) (he : e.rest = []) :
    ∃ pre t post, tr = pre ++ post ∧ post.length < tr.length ∧ Steps A at' post t e ∧
      (Once (l.Does A s.x t.x true) pre ∧ t.rest = at' .exit ∨
        ∃ v, ¬l.Leaves s.x v ∧ Quiet pre ∧ t.rest = l.storeCode rest ∧ t.x = l.computed s.x v ∧
          Kept A t.reserved t.mem (s.x l.address) v) := by
  have hne : s.rest ≠ [] := by
    rw [hs]
    exact List.cons_ne_nil _ _
  obtain ⟨pre₁, s₁, s₂, post₁, rfl, hquiet₁, hwaits₁, hlr, hsteps⟩ := h.peel hne he
  obtain ⟨-, hrest₂, hx₂, hreserved₂, hmem₂⟩ := hlr.of_lr (hwaits₁.rest.trans hs)
  rw [hwaits₁.x] at hx₂ hreserved₂
  set v := A.load (s.x l.address) s₁.mem with hv
  have hkept₂ : Kept A s₂.reserved s₂.mem (s.x l.address) v := fun _ ↦ congrArg _ hmem₂
  obtain ⟨pre₃, s₃, post₃, rfl, hquiet₃, hrest₃, hx₃, hkept₃, hsteps₃⟩ := hsteps.ops hrest₂ he
  have htested : s₃.x = l.tested s.x v := by rw [hx₃, hx₂, tested]
  have hquiet₂ : Quiet (pre₁ ++ .own s₁.mem s₂.mem :: pre₃) := hquiet₁.append (hquiet₃.own hmem₂)
  have hfinish {pre₄ post₄ : List (Event M)} {s₄ : Hart Reg V M} (hpost : post₃ = pre₄ ++ post₄)
      (hsteps₄ : Steps A at' post₄ s₄ e) (hleaves : ¬l.Leaves s.x v) (hquiet₄ : Quiet pre₄)
      (hrest₄ : s₄.rest = emitOps l.compute ++ l.storeCode rest) (hx₄ : s₄.x = s₃.x)
      (hkept₄ : Kept A s₄.reserved s₄.mem (s.x l.address) v) :
      ∃ pre t post, pre₁ ++ .own s₁.mem s₂.mem :: (pre₃ ++ post₃) = pre ++ post ∧
        post.length < (pre₁ ++ .own s₁.mem s₂.mem :: (pre₃ ++ post₃)).length ∧
          Steps A at' post t e ∧
        (Once (l.Does A s.x t.x true) pre ∧ t.rest = at' .exit ∨
          ∃ v, ¬l.Leaves s.x v ∧ Quiet pre ∧ t.rest = l.storeCode rest ∧ t.x = l.computed s.x v ∧
            Kept A t.reserved t.mem (s.x l.address) v) := by
    obtain ⟨pre₅, s₅, post₅, rfl, hquiet₅, hrest₅, hx₅, hkept₅, hsteps₅⟩ := hsteps₄.ops hrest₄ he
    refine ⟨pre₁ ++ .own s₁.mem s₂.mem :: pre₃ ++ (pre₄ ++ pre₅), s₅, post₅, ?_, ?_, hsteps₅,
      .inr ⟨v, hleaves, hquiet₂.append (hquiet₄.append hquiet₅), hrest₅, ?_, hkept₅ _ _ hkept₄⟩⟩
    · simp [hpost]
    · simp [hpost]
      omega
    · rw [hx₅, hx₄, htested, computed]
  cases hp : l.leaves with
  | none =>
    have hleaves : ¬l.Leaves s.x v := by simp [Leaves, hp]
    refine hfinish rfl hsteps₃ hleaves .nil ?_ rfl (hkept₃ _ _ hkept₂)
    rw [hrest₃, tests, hp]
    rfl
  | some p =>
    have hbranch : s₃.rest = .branch p .exit :: (emitOps l.compute ++ l.storeCode rest) := by
      rw [hrest₃, tests, hp]
      rfl
    obtain ⟨pre₄, s₃', s₄, post₄, rfl, hquiet₃', hwaits₃, hown, hsteps₄⟩ :=
      hsteps₃.peel (by rw [hbranch]; exact List.cons_ne_nil _ _) he
    obtain ⟨hx₄, hreserved₄, hmem₄, htaken⟩ := hown.of_branch (hwaits₃.rest.trans hbranch)
    rw [hwaits₃.x] at hx₄ htaken
    have hquiet₄ : Quiet (pre₄ ++ [.own s₃'.mem s₄.mem]) := hquiet₃'.append (Quiet.nil.own hmem₄)
    have hiff : l.Leaves s.x v ↔ p s₃.x := by simp [Leaves, hp, htested]
    obtain ⟨hpx, hrest₄⟩ | ⟨hpx, hrest₄⟩ := htaken
    · -- the read is the step at which a loop that is left is done
      refine ⟨pre₁ ++ .own s₁.mem s₂.mem :: (pre₃ ++ (pre₄ ++ [.own s₃'.mem s₄.mem])), s₄,
        post₄, ?_, ?_, hsteps₄, .inl ⟨⟨pre₁, s₁.mem, s₂.mem, _, rfl, hquiet₁,
          ⟨hiff.mpr hpx, hmem₂, hx₄.trans htested⟩, hquiet₃.append hquiet₄⟩, hrest₄⟩⟩
      · simp
      · simp
        omega
    · refine hfinish (List.append_cons ..) hsteps₄
        (fun hl ↦ hpx (hiff.mp hl)) hquiet₄ hrest₄ hx₄ ?_
      rw [hreserved₄, hmem₄]
      exact hwaits₃.kept _ _ (hkept₃ _ _ hkept₂)

/-- A loop is only gone through if its address can be reserved. -/
theorem aligned (h : Steps A at' tr s e) (hs : s.rest = l.code rest) (he : e.rest = []) :
    A.Aligned (s.x l.address) := by
  obtain ⟨_, _, _, _, -, -, hwaits, hlr, -⟩ := h.peel (by rw [hs]; exact List.cons_ne_nil _ _) he
  exact hwaits.x ▸ (hlr.of_lr (hwaits.rest.trans hs)).1

/-- The second part of a round. -/
theorem stores (haddress : l.address ∉ l.dests) (h : Steps A at' tr s e)
    (hs : s.rest = l.storeCode rest) (he : e.rest = []) {x : Reg → V} {v : V}
    (hleaves : ¬l.Leaves x v)
    (hx : s.x = l.computed x v) (hkept : Kept A s.reserved s.mem (x l.address) v) :
    ∃ pre t post, tr = pre ++ post ∧ post.length < tr.length ∧ Steps A at' post t e ∧
      (Once (l.Does A x t.x false) pre ∧ t.rest = rest ∨
        Quiet pre ∧ t.rest = at' .loop ∧ ∀ r ∉ l.dests, t.x r = x r) := by
  have hne : s.rest ≠ [] := by
    rw [hs]
    exact List.cons_ne_nil _ _
  obtain ⟨pre₁, s₁, s₂, post₁, rfl, hquiet₁, hwaits₁, hsc, hsteps⟩ := h.peel hne he
  obtain ⟨hrest₂, hcase⟩ := hsc.of_sc (hwaits₁.rest.trans hs)
  rw [hwaits₁.x, hx, l.computed_of_notMem haddress] at hcase
  obtain ⟨pre₃, s₃, s₄, post₃, rfl, hquiet₃, hwaits₃, hown, hsteps₄⟩ :=
    hsteps.peel (by rw [hrest₂]; exact List.cons_ne_nil _ _) he
  obtain ⟨hx₄, -, hmem₄, htaken⟩ := hown.of_branch (hwaits₃.rest.trans hrest₂)
  rw [hwaits₃.x] at hx₄ htaken
  have hquiet₄ : Quiet (pre₃ ++ [.own s₃.mem s₄.mem]) := hquiet₃.append (Quiet.nil.own hmem₄)
  refine ⟨pre₁ ++ .own s₁.mem s₂.mem :: (pre₃ ++ [.own s₃.mem s₄.mem]), s₄, post₃, by simp, ?_,
    hsteps₄, ?_⟩
  · simp
    omega
  obtain ⟨hreserved, hx₂, hmem₂⟩ | ⟨status, hfailed, hx₂, hmem₂⟩ := hcase
  · -- the store has not failed, and what it writes over is what has been read
    have hstatus : ¬s₂.x l.status ≠ 0 := by
      rw [hx₂, Function.update_self]
      exact not_not.mpr rfl
    have hload := hwaits₁.kept _ _ hkept hreserved
    have hrest₄ := (htaken.resolve_left fun ht ↦ hstatus ht.1).2
    refine .inl ⟨⟨pre₁, s₁.mem, s₂.mem, _, rfl, hquiet₁, ?_, hquiet₄⟩, hrest₄⟩
    rw [Does, hload]
    exact ⟨hleaves, hmem₂, hx₄.trans hx₂⟩
  · have hstatus : s₂.x l.status ≠ 0 := by
      rw [hx₂, Function.update_self]
      exact hfailed
    have hrest₄ := (htaken.resolve_right fun ht ↦ ht.1 hstatus).2
    refine .inr ⟨hquiet₁.append (hquiet₄.own hmem₂), hrest₄, fun r hr ↦ ?_⟩
    have hne : r ≠ l.status := fun heq ↦ hr (by simp [heq, dests])
    rw [hx₄, hx₂, Function.update_of_ne hne, l.computed_of_notMem hr]

/-- **Atomicity.** Whatever the others do, the loop is done at once in one step of the hart, from
registers that differ from the first ones only where the loop writes. -/
theorem atomic (haddress : l.address ∉ l.dests) (hloop : at' .loop = l.code rest) {x₀ : Reg → V}
    (h : Steps A at' tr s e) (hs : s.rest = l.code rest) (hx : ∀ r ∉ l.dests, s.x r = x₀ r)
    (he : e.rest = []) : ∃ x left pre t post, tr = pre ++ post ∧ (∀ r ∉ l.dests, x r = x₀ r) ∧
      Once (l.Does A x t.x left) pre ∧ t.rest = (if left then at' .exit else rest) ∧
      Steps A at' post t e := by
  -- a round that fails leaves a shorter run
  induction hn : tr.length using Nat.strong_induction_on generalizing tr s with
  | _ n ih =>
    subst hn
    obtain ⟨pre, t, post, rfl, hlt, ht, ⟨honce, hrest⟩ | ⟨v, hleaves, hquiet, hrest, htx, hkept⟩⟩ :=
      reads h hs he
    · exact ⟨s.x, true, pre, t, post, rfl, hx, honce, hrest, ht⟩
    obtain ⟨pre', u, post', rfl, hlt', hu, ⟨honce, hrest'⟩ | ⟨hquiet', hrest', hux⟩⟩ :=
      stores haddress ht hrest he hleaves htx hkept
    · exact ⟨s.x, false, pre ++ pre', u, post', (List.append_assoc ..).symm, hx, honce.after hquiet,
        hrest', hu⟩
    · obtain ⟨x, left, pre'', w, post'', rfl, hxw, honce, hw, hsteps⟩ :=
        ih _ (hlt'.trans hlt) hu (hrest'.trans hloop) (fun r hr ↦ (hux r hr).trans (hx r hr)) rfl
      refine ⟨x, left, pre ++ pre' ++ pre'', w, post'', ?_, hxw,
        honce.after (hquiet.append hquiet'), hw, hsteps⟩
      simp only [List.append_assoc]

end

end Loop

/-! ## Programs -/

/-- Code that is branched to if `taken` holds, and what it branches back to itself. -/
structure Elsewhere (Reg V M : Type*) where
  taken : (Reg → V) → Prop
  code : List (Insn Reg V M)
  retry : List (Insn Reg V M)

/-- A loop in its code: what is computed before the test for other code, if there is one, what is
computed after it, and what is computed when the loop has stored or has been left. -/
structure Program (Reg V M : Type*) where
  checks : List (Reg × ((Reg → V) → V))
  elsewhere : Option (Elsewhere Reg V M)
  setup : List (Reg × ((Reg → V) → V))
  loop : Loop Reg V
  done : List (Reg × ((Reg → V) → V))
  exit : List (Reg × ((Reg → V) → V))

namespace Program

section

variable [DecidableEq Reg] [Zero V] (A : Access V M) (p : Program Reg V M)

/-- The registers when the loop starts. -/
def entered (x : Reg → V) : Reg → V := runOps p.setup (runOps p.checks x)

def code : Label → List (Insn Reg V M)
  | .loop => p.loop.code (emitOps p.done)
  | .exit => emitOps p.exit
  | .elsewhere => (p.elsewhere.map Elsewhere.code).getD []
  | .retry => (p.elsewhere.map Elsewhere.retry).getD []

def tests : List (Insn Reg V M) :=
  match p.elsewhere with
  | some f => [.branch f.taken .elsewhere]
  | none => []

def start : List (Insn Reg V M) :=
  emitOps p.checks ++ (p.tests ++ (emitOps p.setup ++ p.code .loop))

/-- The loop is not passed by. -/
def Stays (x : Reg → V) : Prop := ∀ f ∈ p.elsewhere, ¬f.taken (runOps p.checks x)

/-- The program done at once. -/
def Does (x y : Reg → V) (m m' : M) : Prop :=
  ∃ x' z left, (∀ r ∉ p.loop.dests, x' r = p.entered x r) ∧ p.loop.Does A x' z left m m' ∧
    y = runOps (if left then p.exit else p.done) z

end

section

variable [DecidableEq Reg] [Zero V] {A : Access V M} {p : Program Reg V M} {s e : Hart Reg V M}
  {tr : List (Event M)}

/-- A program that stays gets to its loop. -/
theorem enters (h : Steps A p.code tr s e) (hs : s.rest = p.start) (he : e.rest = [])
    (hstays : p.Stays s.x) : ∃ pre t post, tr = pre ++ post ∧ Quiet pre ∧ t.rest = p.code .loop ∧
      t.x = p.entered s.x ∧ Steps A p.code post t e := by
  obtain ⟨pre₁, s₁, post₁, rfl, hquiet₁, hrest₁, hx₁, -, hsteps₁⟩ := h.ops hs he
  have hsetup {pre post : List (Event M)} {t : Hart Reg V M} (hpost : post₁ = pre ++ post)
      (hquiet : Quiet pre) (ht : t.rest = emitOps p.setup ++ p.code .loop) (hx : t.x = s₁.x)
      (hsteps : Steps A p.code post t e) : ∃ pre t post, pre₁ ++ post₁ = pre ++ post ∧ Quiet pre ∧
        t.rest = p.code .loop ∧ t.x = p.entered s.x ∧ Steps A p.code post t e := by
    obtain ⟨pre₃, s₃, post₃, rfl, hquiet₃, hrest₃, hx₃, -, hsteps₃⟩ := hsteps.ops ht he
    refine ⟨pre₁ ++ (pre ++ pre₃), s₃, post₃, ?_, hquiet₁.append (hquiet.append hquiet₃), hrest₃,
      ?_, hsteps₃⟩
    · simp only [hpost, List.append_assoc]
    · rw [hx₃, hx, hx₁, entered]
  cases hf : p.elsewhere with
  | none =>
    refine hsetup rfl .nil ?_ rfl hsteps₁
    rw [hrest₁, tests, hf]
    rfl
  | some f =>
    have hbranch : s₁.rest = .branch f.taken .elsewhere :: (emitOps p.setup ++ p.code .loop) := by
      rw [hrest₁, tests, hf]
      rfl
    obtain ⟨pre₂, s₁', s₂, post₂, rfl, hquiet₂, hwaits₁, hown, hsteps₂⟩ :=
      hsteps₁.peel (by rw [hbranch]; exact List.cons_ne_nil _ _) he
    obtain ⟨hx₂, -, hmem₂, htaken⟩ := hown.of_branch (hwaits₁.rest.trans hbranch)
    rw [hwaits₁.x] at hx₂ htaken
    have hnot : ¬f.taken s₁.x := hx₁ ▸ hstays f hf
    exact hsetup (List.append_cons ..)
      (hquiet₂.append (Quiet.nil.own hmem₂)) (htaken.resolve_left fun ht ↦ hnot ht.1).2 hx₂ hsteps₂

/-- A program that does not stay gets to its other code. -/
theorem passes {f : Elsewhere Reg V M} (h : Steps A p.code tr s e) (hs : s.rest = p.start)
    (he : e.rest = []) (hf : p.elsewhere = some f) (htaken : f.taken (runOps p.checks s.x)) :
    ∃ t post, t.rest = f.code ∧ Steps A p.code post t e := by
  obtain ⟨pre₁, s₁, post₁, rfl, -, hrest₁, hx₁, -, hsteps₁⟩ := h.ops hs he
  have hbranch : s₁.rest = .branch f.taken .elsewhere :: (emitOps p.setup ++ p.code .loop) := by
    rw [hrest₁, tests, hf]
    rfl
  obtain ⟨-, s₁', s₂, post₂, -, -, hwaits₁, hown, hsteps₂⟩ :=
    hsteps₁.peel (by rw [hbranch]; exact List.cons_ne_nil _ _) he
  obtain ⟨-, -, -, hcase⟩ := hown.of_branch (hwaits₁.rest.trans hbranch)
  rw [hwaits₁.x, hx₁] at hcase
  refine ⟨s₂, post₂, (hcase.resolve_right fun ht ↦ ht.1 htaken).2.trans ?_, hsteps₂⟩
  rw [code, hf]
  rfl

/-- A program that stays and runs to its end changes memory in one step, as if it had been done at
once at that time. -/
theorem atomic (haddress : p.loop.address ∉ p.loop.dests) (h : Steps A p.code tr s e)
    (hs : s.rest = p.start) (he : e.rest = []) (hstays : p.Stays s.x) :
    Once (p.Does A s.x e.x) tr := by
  obtain ⟨pre₃, s₃, post₃, rfl, hquiet, hrest₃, hentered, hsteps₃⟩ := enters h hs he hstays
  have hloop : s₃.rest = p.loop.code (emitOps p.done) := hrest₃
  obtain ⟨x', left, pre₄, s₄, post₄, rfl, hx', honce, hrest₄, hsteps₄⟩ :=
    Loop.atomic haddress rfl hsteps₃ hloop (fun r _ ↦ congrFun hentered r) he
  have hrest : s₄.rest = emitOps (if left then p.exit else p.done) ++ [] := by
    rw [hrest₄, List.append_nil]
    cases left <;> rfl
  obtain ⟨pre₅, s₅, post₅, rfl, hquiet₅, hrest₅, hx₅, -, hsteps₅⟩ := hsteps₄.ops hrest he
  obtain ⟨hquiet₆, hx₆⟩ := hsteps₅.quiet_of_nil hrest₅
  refine ((honce.before (hquiet₅.append hquiet₆)).after hquiet).mono fun m m' hdoes ↦ ?_
  exact ⟨x', s₄.x, left, hx', hdoes, hx₆.trans hx₅⟩

end

end Program

/-! ## Runs to the end -/

section

variable [DecidableEq Reg] [Zero V]

/-- A run can leave no code, with `y` in the registers and with the events among its steps. -/
def Ends (A : Access V M) (code : Label → List (Insn Reg V M)) (s : Hart Reg V M) (y : Reg → V)
    (events : List (Event M)) : Prop :=
  ∃ tr e, Steps A code tr s e ∧ e.rest = [] ∧ e.x = y ∧ events ⊆ tr

/-- There is a run that leaves no code. -/
def Finishes (A : Access V M) (code : Label → List (Insn Reg V M)) (s : Hart Reg V M) : Prop :=
  ∃ y, Ends A code s y []

variable {A : Access V M} {code : Label → List (Insn Reg V M)} {s t : Hart Reg V M} {y : Reg → V}
  {events : List (Event M)} {os : List (Reg × ((Reg → V) → V))} {rest : List (Insn Reg V M)}
  {x : Reg → V} {r : Option V} {m : M}

theorem Ends.nil (x : Reg → V) (r : Option V) (m : M) : Ends A code ⟨[], x, r, m⟩ x [] :=
  ⟨[], _, .refl _, rfl, rfl, List.Subset.refl []⟩

theorem Ends.finishes (h : Ends A code s y events) : Finishes A code s := by
  obtain ⟨tr, e, hsteps, he, -, -⟩ := h
  exact ⟨e.x, tr, e, hsteps, he, rfl, List.nil_subset tr⟩

theorem Ends.own (h : Own A code s t) (ht : Ends A code t y events) : Ends A code s y events := by
  obtain ⟨tr, e, hsteps, he, hy, hevents⟩ := ht
  exact ⟨_, e, .own h hsteps, he, hy, fun v hv ↦ List.mem_cons_of_mem _ (hevents hv)⟩

theorem Ends.env (h : Env A s t) (ht : Ends A code t y events) : Ends A code s y events := by
  obtain ⟨tr, e, hsteps, he, hy, hevents⟩ := ht
  exact ⟨_, e, .env h hsteps, he, hy, fun v hv ↦ List.mem_cons_of_mem _ (hevents hv)⟩

/-- The others can always write, and take the reservation away. -/
theorem Ends.disturbed (m' : M) (h : Ends A code ⟨rest, x, none, m'⟩ y events) :
    Ends A code ⟨rest, x, r, m⟩ y events := .env (.mk rest x r none m m' (.inl rfl)) h

/-- A step that is one of the events. -/
theorem Ends.event (h : Own A code s t) (ht : Ends A code t y events) :
    Ends A code s y (.own s.mem t.mem :: events) := by
  obtain ⟨tr, e, hsteps, he, hy, hevents⟩ := ht
  exact ⟨_, e, .own h hsteps, he, hy, List.cons_subset_cons _ hevents⟩

theorem Ends.ops (h : Ends A code ⟨rest, runOps os x, r, m⟩ y events) :
    Ends A code ⟨emitOps os ++ rest, x, r, m⟩ y events := by
  induction os generalizing x with
  | nil => exact h
  | cons o os ih => exact .own (.op o.1 o.2 _ x r m) (ih h)

theorem Finishes.own (h : Own A code s t) (ht : Finishes A code t) : Finishes A code s :=
  ht.imp fun _ hy ↦ hy.own h

theorem Finishes.ops (h : Finishes A code ⟨rest, runOps os x, r, m⟩) :
    Finishes A code ⟨emitOps os ++ rest, x, r, m⟩ := h.imp fun _ hy ↦ hy.ops

theorem Finishes.of_ops (os : List (Reg × ((Reg → V) → V))) (x : Reg → V) (r : Option V) (m : M) :
    Finishes A code ⟨emitOps os, x, r, m⟩ := by
  rw [← List.append_nil (emitOps os)]
  exact .ops ⟨_, .nil _ r m⟩

/-- A hart that is not disturbed gets to the end of a loop if the address can be reserved. -/
theorem Loop.finishes {l : Loop Reg V} (haddress : l.address ∉ l.dests)
    (haligned : A.Aligned (x l.address)) (r : Option V) (m : M)
    (hdone : ∀ y r m, Finishes A code ⟨rest, y, r, m⟩)
    (hexit : ∀ y r m, Finishes A code ⟨code .exit, y, r, m⟩) :
    Finishes A code ⟨l.code rest, x, r, m⟩ := by
  refine .own (.lr l.old _ r m haligned) (.ops ?_)
  set v := A.load (x l.address) m
  have hstore : Finishes A code
      ⟨emitOps l.compute ++ l.storeCode rest, l.tested x v, some (x l.address), m⟩ := by
    refine .ops (.own (.scDone _ _ _ _ ?_) (.own (.through _ _ _ _ ?_) (hdone _ _ _)))
    · exact congrArg some (l.computed_of_notMem haddress x v).symm
    · simp
  rw [Loop.tests]
  cases hleaves : l.leaves with
  | none => exact hstore
  | some p =>
    by_cases hp : p (l.tested x v)
    · exact .own (.taken _ _ _ _ hp) (hexit _ _ _)
    · exact .own (.through _ _ _ _ hp) hstore

namespace Program

variable {p : Program Reg V M} {f : Elsewhere Reg V M}

/-- A program that stays can run to its end exactly if the address can be reserved. -/
theorem finishes_iff (haddress : p.loop.address ∉ p.loop.dests) (hstays : p.Stays x) :
    Finishes A p.code ⟨p.start, x, r, m⟩ ↔ A.Aligned (p.entered x p.loop.address) := by
  constructor
  · rintro ⟨_, tr, e, hsteps, he, -, -⟩
    obtain ⟨pre, t, post, -, -, hrest, hx, hsteps'⟩ := enters hsteps rfl he hstays
    exact hx ▸ Loop.aligned hsteps' hrest he
  · intro haligned
    have hloop : Finishes A p.code ⟨p.code .loop, p.entered x, r, m⟩ :=
      Loop.finishes haddress haligned r m (.of_ops p.done) (.of_ops p.exit)
    refine .ops ?_
    rw [tests]
    cases hf : p.elsewhere with
    | none => exact .ops hloop
    | some f => exact .own (.through _ _ _ _ (hstays f hf)) (.ops hloop)

theorem ends_elsewhere (hf : p.elsewhere = some f) (htaken : f.taken (runOps p.checks x))
    (h : Ends A p.code ⟨f.code, runOps p.checks x, r, m⟩ y events) :
    Ends A p.code ⟨p.start, x, r, m⟩ y events := by
  have hcode : p.code .elsewhere = f.code := by
    rw [code, hf]
    rfl
  refine .ops ?_
  rw [tests, hf]
  refine .own (.taken .elsewhere _ r m htaken) ?_
  rw [hcode]
  exact h

/-- A program with a trap in place of the loop comes to no end where it is taken. -/
theorem not_finishes_of_trap (hf : p.elsewhere = some f) (htaken : f.taken (runOps p.checks x))
    (htrap : f.code = .trap :: rest) : ¬Finishes A p.code ⟨p.start, x, r, m⟩ := by
  rintro ⟨_, tr, e, hsteps, he, -, -⟩
  obtain ⟨t, post, ht, hsteps'⟩ := passes hsteps rfl he hf htaken
  rw [htrap] at ht
  obtain ⟨_, u, _, _, -, -, hwaits, hown, -⟩ :=
    hsteps'.peel (by rw [ht]; exact List.cons_ne_nil _ _) he
  exact not_own_of_trap (hwaits.rest.trans ht) hown

end Program

end

end Reservation

end Felix86
