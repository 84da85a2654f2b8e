import Felix86.V2.FlagAccess
import Felix86.V2.ScanAhead
import Felix86.Lib.Numerals

/-!
# Flags that are not computed

By default a flag is not computed if the next instruction in the block that has to do with it
changes it. With `FlagMode::AlwaysEmit` every flag is computed. The two ways to compile a block are
meant to be the same to the guest.

The scan takes its accesses from the tables of the decoder, which say what an instruction may
change. An instruction that turns out not to change a flag lets through what was there before, so it
has to be recorded as a use. `flag_passthrough` does this for `CF` and `OF` of the shifts and
rotates, which leave all flags alone when the count is zero.

Here the two ways to compile a block run side by side. They agree on the flags that are needed later
and have a defined value, as long as an instruction that is recorded as a change is one when it
runs.
-/

namespace Felix86

namespace Jit

open Numerals Riscv

variable {ρ : Type*}

/-! ## Blocks -/

/-- The mnemonic that the scan sees. -/
def Mnemonic.ScannedAs (m : Mnemonic ρ) (d : ScanMnemonic) : Prop :=
  match m with
  | .shl => d = .shl
  | .shld => d = .shld
  | .shr => d = .shr
  | .shrd => d = .shrd
  | .sar => d = .sar
  | .rol => d = .rol
  | .ror => d = .ror
  | .jmp => d = .jmp
  | .jcc cond => d = .jcc cond
  | .jcxz .qword => d = .jrcxz
  | .jcxz .dword => d = .jecxz
  | .jcxz _ => d = .jcxz
  | .loop => d = .loop
  | .loope => d = .loope
  | .loopne => d = .loopne
  | .call => d = .call
  | .ret => d = .ret
  | .iretd => d = .iretd
  | .other _ => d = .ud2 ∨ d = .hlt ∨ ∃ id, d = .other id
  | _ => ∃ id, d = .other id

/-- What the scan sees of an instruction: the tables list what it tests, and nothing that it may not
change. -/
structure Describes (d : Decoded) (x : Instr ρ) : Prop where
  mnemonic : x.mnemonic.ScannedAs d.mnemonic
  tested : ∀ f, x.mnemonic.tests f → d.access ∧ d.tested f
  changed : ∀ f, d.changed f → x.mnemonic.mayChange f
  operands : ∀ op, x.mnemonic.fastOp = some op → op.Decoded x.insn

section Run

variable (k : Config) (instr : U64 → Instr ρ)

/-- The code of the instructions, one after the other; `emit` is `shouldEmitFlag`. -/
def runBlock (emit : U64 → Flag → Bool) : List (U64 × Decoded) → State ρ → Option (State ρ)
  | [], s => some s
  | (rip, _) :: rest, s => ((instr rip).exec k (emit rip) s).bind (runBlock emit rest)

/-- The flags without a defined value after an instruction, from those before it. -/
def Instr.undefined (x : Instr ρ) (c : Core ρ) (u : Flag → Bool) (f : Flag) : Bool :=
  x.undefines k c f || (u f && !x.writes k c f)

/-- The flags without a defined value after a block. -/
def undefinedAfter : List (U64 × Decoded) → State ρ → (Flag → Bool) → Flag → Bool
  | [], _, u => u
  | (rip, _) :: rest, s, u =>
    match (instr rip).exec k (fun _ ↦ true) s with
    | some t => undefinedAfter rest t ((instr rip).undefined k s.core u)
    | none => u

/-- Nothing goes wrong in a step: a flag that is recorded as changed, and is needed, gets a new
value or none that is defined; no undefined flag is read; and the handler computes what is
needed. -/
structure Instr.StepOk (cfg : ScanConfig) (d : Decoded) (e u : Flag → Bool) (x : Instr ρ)
    (c : Core ρ) :
    Prop where
  overwrites : ∀ f, d.accesses cfg f = [true] → e f = true →
    x.writes k c f = true ∨ x.undefines k c f = true
  defined : ∀ f, x.mnemonic.tests f → u f = false
  needs : x.NeedsOk k e c

/-- Nothing goes wrong in a run of a block. -/
def BlockOk (cfg : ScanConfig) (emit : U64 → Flag → Bool) :
    List (U64 × Decoded) → State ρ → (Flag → Bool) → Prop
  | [], _, _ => True
  | (rip, d) :: rest, s, u =>
    (instr rip).StepOk k cfg d (emit rip) u s.core ∧
      ∀ t, (instr rip).exec k (fun _ ↦ true) s = some t →
        BlockOk cfg emit rest t ((instr rip).undefined k s.core u)

end Run

/-! ## What is needed after an instruction -/

section NextUse

variable (cfg : ScanConfig)

/-- `flag_access_cpazso` of some instructions. -/
def recorded (l : List (U64 × Decoded)) (f : Flag) : List (Bool × U64) :=
  l.flatMap fun y ↦ (y.2.accesses cfg f).map (·, y.1)

/-- The flag is needed before `l`: the first access to it is not a change. -/
def nextUse (l : List (U64 × Decoded)) (f : Flag) : Bool :=
  match (l.flatMap fun y ↦ y.2.accesses cfg f).head? with
  | some changed => !changed
  | none => true

variable {cfg} {mem : Mem} {decode : U64 → Option Decoded} {n : ℕ} {rip : U64} {sc : Scan}

/-- The accesses are those of the instructions, in order. -/
theorem access_scanAhead (h : scanAhead cfg mem decode n rip = some sc) (f : Flag) :
    sc.access f = recorded cfg sc.instructions f := by
  induction n generalizing rip sc with
  | zero => simp [scanAhead] at h
  | succ n ih =>
    simp only [scanAhead, Option.bind_eq_bind, Option.bind_eq_some_iff] at h
    obtain ⟨d, hd, h⟩ := h
    split at h
    · obtain rfl := Option.some.inj h
      simp [recorded]
    · simp only [Option.bind_eq_some_iff, Option.some.injEq] at h
      obtain ⟨next, hnext, rest, hrest, rfl⟩ := h
      simp [recorded, ih hrest]

theorem nextUse_nil (f : Flag) : nextUse cfg [] f = true := rfl

theorem mem_recorded {l : List (U64 × Decoded)} {f : Flag} {x : Bool × U64}
    (hx : x ∈ recorded cfg l f) : ∃ y ∈ l, x.2 = y.1 := by
  obtain ⟨y, hy, hx⟩ := List.mem_flatMap.mp hx
  obtain ⟨b, -, rfl⟩ := List.mem_map.mp hx
  exact ⟨y, hy, rfl⟩

theorem head?_recorded (l : List (U64 × Decoded)) (f : Flag) :
    (recorded cfg l f).head?.map Prod.fst = (l.flatMap fun y ↦ y.2.accesses cfg f).head? := by
  rw [← List.head?_map, recorded, List.map_flatMap]
  simp [Function.comp_def]

/-- A flag that is needed is computed. In the list of accesses those up to the instruction are
passed over by their addresses. -/
theorem shouldEmitFlag_of_nextUse (h : scanAhead cfg mem decode n rip = some sc)
    (hmode : cfg.flagMode = .default) (hsorted : (sc.instructions.map Prod.fst).Pairwise (· < ·))
    {pre post : List (U64 × Decoded)} {a : U64} {d : Decoded}
    (hsplit : sc.instructions = pre ++ (a, d) :: post) {f : Flag}
    (hnext : nextUse cfg post f = true) :
    shouldEmitFlag cfg sc.access a f = true := by
  rw [hsplit, List.map_append, List.map_cons, List.pairwise_append, List.pairwise_cons] at hsorted
  obtain ⟨-, ⟨hafter, -⟩, hbefore⟩ := hsorted
  have hpre : (recorded cfg (pre ++ [(a, d)]) f).find? (fun x ↦ a < x.2) = none := by
    rw [List.find?_eq_none]
    intro x hx hlt
    obtain ⟨y, hy, hxy⟩ := mem_recorded hx
    rw [hxy, decide_eq_true_eq] at hlt
    obtain hy | hy := List.mem_append.mp hy
    · exact Nat.lt_asymm hlt (hbefore y.1 (List.mem_map_of_mem hy) a List.mem_cons_self)
    · rw [List.mem_singleton.mp hy] at hlt
      exact BitVec.lt_irrefl a hlt
  have hpost : (recorded cfg post f).find? (fun x ↦ a < x.2) = (recorded cfg post f).head? := by
    cases hl : recorded cfg post f with
    | nil => rfl
    | cons x l =>
      obtain ⟨y, hy, hxy⟩ := mem_recorded (x := x) (by rw [hl]; exact List.mem_cons_self)
      have hlt : a < x.2 := hxy ▸ hafter y.1 (List.mem_map_of_mem hy)
      rw [List.find?_cons_of_pos (by simpa using hlt), List.head?_cons]
  have hfind : (sc.access f).find? (fun x ↦ a < x.2) = (recorded cfg post f).head? := by
    have happend : recorded cfg sc.instructions f =
        recorded cfg (pre ++ [(a, d)]) f ++ recorded cfg post f := by
      rw [hsplit, List.append_cons, recorded, List.flatMap_append]
      rfl
    rw [access_scanAhead h f, happend, List.find?_append, hpre, hpost]
    rfl
  rw [nextUse, ← head?_recorded] at hnext
  rw [shouldEmitFlag, hfind, hmode]
  cases hhead : (recorded cfg post f).head? with
  | none => simp
  | some x =>
    rw [hhead] at hnext
    simp [show x.1 = false by simpa using hnext]

end NextUse

/-! ## Steps -/

section Step

variable {cfg : ScanConfig} {k : Config} {d : Decoded} {x : Instr ρ}

theorem Describes.not_isInvlpg (h : Describes d x) : d.mnemonic.isInvlpg = false := by
  have hm := h.mnemonic
  unfold Mnemonic.ScannedAs at hm
  split at hm
  all_goals first
    | (rw [hm]; rfl)
    | (obtain ⟨id, hm⟩ := hm; rw [hm]; rfl)
    | (obtain hm | hm | ⟨id, hm⟩ := hm <;> rw [hm] <;> rfl)

theorem Describes.not_skips (h : Describes d x) : d.skips = false := by
  have hnot := h.not_isInvlpg
  cases hm : d.mnemonic <;> simp_all [Decoded.skips, ScanMnemonic.isInvlpg]

/-- What is recorded for an instruction that is not `INVLPG`. -/
theorem Describes.accesses_eq (h : Describes d x) (hsafe : cfg.unsafeFlags = false) (f : Flag) :
    d.accesses cfg f = if !d.access then []
      else if d.tested f || flagPassthrough d.mnemonic f then [false]
      else if d.changed f then [true] else [] := by
  simp [Decoded.accesses, hsafe, h.not_isInvlpg, h.not_skips]

/-- The flag is needed before an instruction, unless this is recorded as a change. -/
theorem nextUse_cons {a : U64} {l : List (U64 × Decoded)} {f : Flag} (h : Describes d x)
    (hsafe : cfg.unsafeFlags = false) (hnot : d.accesses cfg f ≠ [true])
    (huse : d.accesses cfg f = [] → nextUse cfg l f = true) :
        nextUse cfg ((a, d) :: l) f = true := by
  rw [nextUse, List.flatMap_cons]
  have hcases := h.accesses_eq hsafe f
  revert hnot huse
  rw [hcases]
  split
  · exact fun _ huse ↦ by simpa [nextUse] using huse rfl
  split
  · exact fun _ _ ↦ rfl
  split
  · exact fun hnot _ ↦ absurd rfl hnot
  · exact fun _ huse ↦ by simpa [nextUse] using huse rfl

/-- **One step**: the states agree afterwards on the flags that are needed and defined, if they did
so before. -/
theorem exec_agree {a : U64} {l : List (U64 × Decoded)} {e u : Flag → Bool} {s t : State ρ}
    (h : Describes d x) (hsafe : cfg.unsafeFlags = false)
    (he : ∀ f, nextUse cfg l f = true → e f = true)
    (hok : x.StepOk k cfg d e u t.core)
    (hst : s.Agree (fun f ↦ nextUse cfg ((a, d) :: l) f = true ∧ u f = false) t) :
    Option.Rel (State.Agree fun f ↦ nextUse cfg l f = true ∧ x.undefined k t.core u f = false)
      (x.exec k e s) (x.exec k (fun _ ↦ true) t) := by
  obtain ⟨c, g⟩ := s
  obtain ⟨c', g'⟩ := t
  obtain ⟨rfl, hflag⟩ := hst
  dsimp only at hok hflag
  have htests : ∀ f, x.mnemonic.tests f → g f = g' f := by
    intro f hf
    obtain ⟨haccess, htested⟩ := h.tested f hf
    have hrecorded : d.accesses cfg f = [false] := by
      rw [h.accesses_eq hsafe, haccess, htested]
      rfl
    refine hflag f ⟨nextUse_cons h hsafe ?_ ?_, hok.defined f hf⟩
    · rw [hrecorded]
      decide
    · rw [hrecorded]
      exact fun h ↦ absurd h (by decide)
  refine rel_trans (rel_mono (exec_needed h.operands hok.needs) ?_)
    (rel_mono (exec_same h.operands htests) ?_)
  · intro f hf
    exact ⟨he f hf.1, (Bool.or_eq_false_iff.mp hf.2).1⟩
  · rintro f ⟨hnext, hundefined⟩
    obtain ⟨hundefines, hold⟩ := Bool.or_eq_false_iff.mp hundefined
    by_cases hwrites : x.writes k c f = true
    · exact .inl hwrites
    · -- the flag is let through, so it was needed before
      have hu : u f = false := by simpa [hwrites] using hold
      refine .inr (hflag f ⟨nextUse_cons h hsafe ?_ fun _ ↦ hnext, hu⟩)
      intro hchanged
      obtain hw | hw := hok.overwrites f hchanged (he f hnext)
      · exact hwrites hw
      · rw [hundefines] at hw
        exact Bool.false_ne_true hw

end Step

/-! ## Runs -/

section Block

variable {cfg : ScanConfig} {k : Config} {instr : U64 → Instr ρ}

/-- The run of a block, by the instructions already run and those still to come. -/
theorem runBlock_agree {emit : U64 → Flag → Bool} {pre post : List (U64 × Decoded)} {s t : State ρ}
    {u : Flag → Bool} (hsafe : cfg.unsafeFlags = false)
    (hdesc : ∀ y ∈ pre ++ post, Describes y.2 (instr y.1))
    (hemit : ∀ l a d l', pre ++ post = l ++ (a, d) :: l' →
      ∀ f, nextUse cfg l' f = true → emit a f = true)
    (hok : BlockOk k instr cfg emit (pre ++ post) t u)
    (hst : s.Agree (fun f ↦ nextUse cfg (pre ++ post) f = true ∧ u f = false) t) :
    Option.Rel (State.Agree fun f ↦ nextUse cfg post f = true ∧
        undefinedAfter k instr pre t u f = false)
      (runBlock k instr emit pre s) (runBlock k instr (fun _ _ ↦ true) pre t) := by
  induction pre generalizing s t u with
  | nil => exact .some hst
  | cons y pre ih =>
    obtain ⟨a, d⟩ := y
    have hstep := exec_agree (hdesc _ List.mem_cons_self) hsafe (hemit [] a d _ rfl) hok.1 hst
    simp only [runBlock, undefinedAfter]
    revert hstep
    generalize (instr a).exec k (emit a) s = o
    cases ho' : (instr a).exec k (fun _ ↦ true) t with
    | none =>
      intro hstep
      cases hstep
      exact .none
    | some t' =>
      intro hstep
      cases hstep with
      | some hst' =>
        refine ih (fun y hy ↦ hdesc y (List.mem_cons_of_mem _ hy)) ?_ (hok.2 t' ho') hst'
        intro l a' d' l' hl
        exact hemit ((a, d) :: l) a' d' l' (by rw [List.cons_append, hl]; rfl)

/-- Skipping flags makes no difference to a run of a block: after any number of its instructions the
registers and the memory are the same, and at the end so are the flags that have a defined value. -/
structure Preserves (k : Config) (instr : U64 → Instr ρ) (cfg : ScanConfig) (sc : Scan)
    (s : State ρ) :
    Prop where
  core : ∀ pre, pre <+: sc.instructions →
    (runBlock k instr (shouldEmitFlag cfg sc.access) pre s).map State.core =
      (runBlock k instr (shouldEmitFlag { cfg with flagMode := .alwaysEmit } sc.access) pre s).map
        State.core
  flag : ∀ t t', runBlock k instr (shouldEmitFlag cfg sc.access) sc.instructions s = some t →
    runBlock k instr (shouldEmitFlag { cfg with flagMode := .alwaysEmit } sc.access)
      sc.instructions s = some t' →
    ∀ f, undefinedAfter k instr sc.instructions s (fun _ ↦ false) f = false → t.flag f = t'.flag f

theorem map_core_of_rel {l : Flag → Prop} {o o' : Option (State ρ)}
    (h : Option.Rel (State.Agree l) o o') : o.map State.core = o'.map State.core := by
  cases h with
  | some h => exact congrArg some h.core
  | none => rfl

variable {mem : Mem} {decode : U64 → Option Decoded} {n : ℕ} {rip : U64} {sc : Scan}

/-- **Flags can be skipped** in every run of a block in which nothing goes wrong. -/
theorem preserves_of_blockOk (h : scanAhead cfg mem decode n rip = some sc)
    (hmode : cfg.flagMode = .default) (hsafe : cfg.unsafeFlags = false)
    (hdesc : ∀ y ∈ sc.instructions, Describes y.2 (instr y.1))
    (hsorted : (sc.instructions.map Prod.fst).Pairwise (· < ·)) {s : State ρ}
    (hok : BlockOk k instr cfg (shouldEmitFlag cfg sc.access) sc.instructions s fun _ ↦ false) :
    Preserves k instr cfg sc s := by
  have halways : shouldEmitFlag { cfg with flagMode := .alwaysEmit } sc.access =
      fun _ _ ↦ true := by
    funext a f
    simp [shouldEmitFlag]
  have hrun (pre post : List (U64 × Decoded)) (hsplit : sc.instructions = pre ++ post) :
      Option.Rel (State.Agree fun f ↦ nextUse cfg post f = true ∧
          undefinedAfter k instr pre s (fun _ ↦ false) f = false)
        (runBlock k instr (shouldEmitFlag cfg sc.access) pre s)
        (runBlock k instr (fun _ _ ↦ true) pre s) := by
    refine runBlock_agree hsafe (hsplit ▸ hdesc) ?_ (hsplit ▸ hok) (.refl s)
    intro l a d l' hl f hnext
    exact shouldEmitFlag_of_nextUse h hmode hsorted (hsplit.trans hl) hnext
  constructor
  · rintro pre ⟨post, hsplit⟩
    rw [halways]
    exact map_core_of_rel (hrun pre post hsplit.symm)
  · intro t t' ht ht' f hf
    rw [halways] at ht'
    have hend := hrun sc.instructions [] (List.append_nil _).symm
    rw [ht, ht'] at hend
    cases hend with
    | some hagree => exact hagree.flag f ⟨nextUse_nil f, hf⟩

end Block

/-! ## A shift by zero -/

/-- What the scan sees of `add eax, ebx`, `shl ecx, cl` and `jz`. -/
def addDecoded : Decoded := ⟨.other 0, 2, false, true, fun _ ↦ false, fun _ ↦ true⟩

def shlDecoded : Decoded := ⟨.shl, 2, false, true, fun _ ↦ false, fun _ ↦ true⟩

def jzDecoded : Decoded := ⟨.jcc 4, 2, true, true, fun f ↦ f = .zf, fun _ ↦ false⟩

def shiftBlockDecode (rip : U64) : Option Decoded :=
  if rip = 0 then some addDecoded
  else if rip = 2 then some shlDecoded
  else if rip = 4 then some jzDecoded
  else none

/-- The three instructions. -/
def shiftBlock (rip : U64) : Instr Unit :=
  let x :=
    if rip = 0 then Mnemonic.add.on .dword (.reg rax .dword) (.reg rbx .dword)
    else if rip = 2 then Mnemonic.shl.on .dword (.reg rcx .dword) (.reg rcx .byte)
    else (Mnemonic.jcc 4).on .dword (.imm 16 .byte) (.imm 0 .byte)
  { x with insn := { x.insn with rip := rip } }

/-- What the scan finds. -/
def shiftBlockScan : Scan where
  instructions := [(0, addDecoded), (2, shlDecoded), (4, jzDecoded)]
  access := recorded (.default false) [(0, addDecoded), (2, shlDecoded), (4, jzDecoded)]

theorem scanAhead_shiftBlock :
    scanAhead (.default false) nonzeroMem shiftBlockDecode 3 0 = some shiftBlockScan := rfl

theorem describes_shiftBlock :
    ∀ y ∈ shiftBlockScan.instructions, Describes y.2 (shiftBlock y.1) := by
  have hadd : Describes addDecoded (shiftBlock 0) := by
    refine ⟨⟨0, rfl⟩, fun f hf ↦ absurd hf (by cases f <;> decide), fun f _ ↦ rfl, ?_⟩
    rintro op ⟨⟩
    exact ⟨by decide, rfl, by rintro r size ⟨⟩; rfl⟩
  have hshl : Describes shlDecoded (shiftBlock 2) := by
    refine ⟨rfl, fun f hf ↦ absurd hf (by cases f <;> decide), fun f _ ↦ rfl, ?_⟩
    rintro op ⟨⟩
    exact ⟨.inr rfl, rfl, rfl⟩
  have hjz : Describes jzDecoded (shiftBlock 4) :=
    ⟨rfl, fun f hf ↦ ⟨rfl, hf⟩, fun f hf ↦ absurd hf Bool.false_ne_true, fun op hop ↦ nomatch hop⟩
  intro y hy
  simp only [shiftBlockScan, List.mem_cons, List.not_mem_nil, or_false] at hy
  obtain rfl | rfl | rfl := hy
  · exact hadd
  · exact hshl
  · exact hjz

/-- A state with a shift count. -/
def withCl (cl : U64) : State Unit :=
  { State.zero with core := { State.zero.core with gpr := Function.update (fun _ ↦ 0) rcx cl } }

theorem blockOk_shiftBlock : BlockOk (Config.default false) shiftBlock (.default false)
    (shouldEmitFlag (.default false) shiftBlockScan.access) shiftBlockScan.instructions (withCl 1)
    fun _ ↦ false := by
  refine ⟨⟨fun f _ _ ↦ .inl rfl, fun f _ ↦ rfl, ⟨nofun, nofun, nofun, nofun⟩⟩, ?_⟩
  rintro t ⟨⟩
  refine ⟨⟨?_, ?_, ⟨nofun, nofun, fun _ _ _ ↦ by decide, nofun⟩⟩, ?_⟩
  · -- `AF` is undefined
    intro f
    cases f <;> decide
  · intro f
    cases f <;> decide
  rintro t ⟨⟩
  refine ⟨⟨?_, ?_, ⟨nofun, nofun, nofun, nofun⟩⟩, fun _ _ ↦ trivial⟩
  · intro f
    cases f <;> decide
  · intro f
    cases f <;> decide

/-- The law is not empty: with a count of one the shift overwrites the flags. -/
theorem preserves_shiftBlock_one :
    Preserves (Config.default false) shiftBlock (.default false) shiftBlockScan (withCl 1) :=
  preserves_of_blockOk scanAhead_shiftBlock rfl rfl describes_shiftBlock
    (by decide) blockOk_shiftBlock

/-- With a count of zero it does not, and `JZ` finds the `ZF` from before the addition. -/
theorem not_preserves_shiftBlock_zero :
    ¬∀ (k : Config) (cfg : ScanConfig) (mem : Mem) (decode : U64 →
      Option Decoded) (n : ℕ) (rip : U64)
      (sc : Scan) (instr : U64 → Instr Unit) (s : State Unit),
      scanAhead cfg mem decode n rip = some sc → cfg.flagMode = .default → cfg.unsafeFlags = false →
        (∀ y ∈ sc.instructions, Describes y.2 (instr y.1)) →
        (sc.instructions.map Prod.fst).Pairwise (· < ·) → (k.mode32 → Zext s.core) →
          Preserves k instr cfg sc s := by
  intro hall
  have h := hall (Config.default false) (.default false) nonzeroMem shiftBlockDecode 3 0
    shiftBlockScan
    shiftBlock (withCl 0) scanAhead_shiftBlock rfl rfl describes_shiftBlock (by decide)
    nofun
  have hrip := congrArg (Option.map Core.rip) (h.core _ List.prefix_rfl)
  exact absurd hrip (by decide)

end Jit

end Felix86
