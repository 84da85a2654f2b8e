import Felix86.V2.Recompiler
import Mathlib.Data.List.Chain

/-!
# Where a block ends

`scanAhead` decodes from the start of a block to its end, before anything is emitted, and records
which flags each instruction reads or writes. `compileSequence` then compiles the instructions it
has found. Each of them decides for itself where the block ends: the scan by mnemonic and branch
type, the compiler by the handlers that call `stopCompiling`. Each of them also keeps its own guest
address.

They are meant to agree, with two exceptions. In `single_step` mode the compiler stops after one
instruction. And `INVLPG [rdx]`, the return from guest code to the host, ends a block only for the
compiler; the host puts a `HLT` behind it for the scan.

After `INVLPG [rax]` and `INVLPG [rcx]` comes a string, which the scan skips. The handler adds the
length of the string to its own copy of the address.
-/

namespace Felix86

namespace Jit

open Riscv

/-! ## What is decoded -/

/-- The base register of the operand of `INVLPG`. -/
inductive InvlpgBase
  | rax
  | rbx
  | rcx
  | rdx
  | other
deriving DecidableEq, Repr

/-- The mnemonics that the scan or the end of a block depends on. `other` is an instruction with a
handler that does not end a block, `unhandled` one without a handler. -/
inductive ScanMnemonic
  | jmp | jcc (cond : Fin 16) | jrcxz | jecxz | jcxz | loop | loope | loopne
  | call | ret | iretd | iretq | ud2 | hlt
  | invlpg (base : InvlpgBase)
  | shl | shld | shr | shrd | sar | rol | ror
  | other (id : ℕ)
  | unhandled (id : ℕ)
deriving DecidableEq, Repr

/-- The parts of a decoded instruction that the scan looks at: whether its branch type is not
`ZYDIS_BRANCH_TYPE_NONE`, whether it accesses flags, and which ones it tests or changes. -/
structure Decoded where
  mnemonic : ScanMnemonic
  length : U64
  branch : Bool
  access : Bool
  tested : Flag → Bool
  changed : Flag → Bool

/-- `flag_passthrough`. -/
def flagPassthrough (m : ScanMnemonic) (f : Flag) : Bool :=
  match m with
  | .shl | .shld | .shr | .shrd | .sar | .rol | .ror => f = .cf || f = .of
  | _ => false

inductive FlagMode
  | default
  | alwaysEmit
  | neverEmit
deriving DecidableEq, Repr

/-- The settings of the scan. -/
structure ScanConfig where
  singleStep : Bool
  unsafeFlags : Bool
  paranoid : Bool
  flagMode : FlagMode

namespace ScanMnemonic

def isCall (m : ScanMnemonic) : Bool := m = .call

def isRet (m : ScanMnemonic) : Bool := m = .ret || m = .iretd || m = .iretq

def isInvlpg : ScanMnemonic → Bool
  | .invlpg _ => true
  | _ => false

/-- A handler that calls `stopCompiling`. -/
def stops : ScanMnemonic → Bool
  | .jmp | .jcc _ | .jrcxz | .jecxz | .jcxz | .loop | .loope | .loopne => true
  | .call | .ret | .iretd | .iretq | .ud2 | .hlt => true
  | .invlpg base => base = .rdx
  | _ => false

end ScanMnemonic

/-- A string comes after the instruction. -/
def Decoded.skips (d : Decoded) : Bool := d.mnemonic = .invlpg .rax || d.mnemonic = .invlpg .rcx

/-- The scan stops at the instruction. -/
def Decoded.ends (d : Decoded) : Bool :=
  !d.skips &&
    (d.branch || d.mnemonic.isRet || d.mnemonic.isCall || d.mnemonic = .ud2 || d.mnemonic = .hlt)

/-! ## The scan -/

/-- The accesses to a flag that are recorded for an instruction, `true` for a change. -/
def Decoded.accesses (cfg : ScanConfig) (d : Decoded) (f : Flag) : List Bool :=
  if cfg.unsafeFlags && !cfg.paranoid && (d.mnemonic.isCall || d.mnemonic.isRet) then [true]
  else
    (if d.mnemonic.isInvlpg && !cfg.paranoid then [true] else []) ++
      if d.skips || !d.access then []
      else if d.tested f || flagPassthrough d.mnemonic f then [false]
      else if d.changed f then [true]
      else []

/-- The instructions, each with the address at which it was decoded, and `flag_access_cpazso`. -/
structure Scan where
  instructions : List (U64 × Decoded)
  access : Flag → List (Bool × U64)

/-- `strlen`, for a string that ends. -/
def strlen (mem : Mem) : ℕ → U64 → Option ℕ
  | 0, _ => none
  | n + 1, a => if mem a = 0 then some 0 else (strlen mem n (a + 1)).map (· + 1)

variable (cfg : ScanConfig) (mem : Mem) (decode : U64 → Option Decoded)

/-- The address at which the scan goes on, after a string if there is one. -/
def scanNext (fuel : ℕ) (rip : U64) (d : Decoded) : Option U64 :=
  let skip (a : U64) : Option U64 := do
    let size ← strlen mem fuel a
    if size = 0 then none else some (a + BitVec.ofNat 64 size + 1)
  match d.mnemonic with
  | .invlpg .rax => skip (rip + d.length)
  | .invlpg .rcx => skip (rip + d.length + 8)
  | _ => some (rip + d.length)

/-- `scanAhead`. There is no result if it does not end, cannot decode an instruction, or finds an
empty string. -/
def scanAhead : ℕ → U64 → Option Scan
  | 0, _ => none
  | n + 1, rip => do
    let d ← decode rip
    let push (rest : Flag → List (Bool × U64)) (f : Flag) : List (Bool × U64) :=
      (d.accesses cfg f).map (·, rip) ++ rest f
    if d.ends then some { instructions := [(rip, d)], access := push fun _ ↦ [] }
    else
      let next ← scanNext mem n rip d
      let rest ← scanAhead n next
      some { instructions := (rip, d) :: rest.instructions, access := push rest.access }

/-- `shouldEmitFlag`. -/
def shouldEmitFlag (access : Flag → List (Bool × U64)) (rip : U64) (f : Flag) : Bool :=
  if cfg.flagMode = .alwaysEmit || cfg.singleStep then true
  else if cfg.flagMode = .neverEmit then false
  else
    match (access f).find? fun x ↦ rip < x.2 with
    | some x => !x.1
    | none => true

/-! ## The compiler -/

/-- What can go wrong: `instructions[index]` past the end, `ASSERT(compiling)`, or an `ERROR` or
failed assertion while an instruction is compiled. -/
inductive CompileError
  | index
  | notCompiling
  | handler
deriving DecidableEq, Repr

/-- `stopCompiling`, as the new value of `compiling`. -/
def stopCompiling (compiling : Bool) : Except CompileError Bool :=
  if compiling then .ok false else .error .notCompiling

/-- `instruction_spans` without the host's addresses, with the instruction that was compiled, and
`guest_address_end`. -/
structure CompiledBlock where
  spans : List (U64 × Decoded)
  guestAddressEnd : U64

/-- `compileInstruction`, as the new value of `compiling`. The handler gets a copy of `rip`; `fails`
is whether it ends in an `ERROR` or a failed assertion. -/
def compileInstruction (fails : U64 → Decoded → Bool) (rip : U64) (d : Decoded) :
    Except CompileError Bool :=
  match d.mnemonic with
  | .unhandled _ => .error .handler
  | m =>
    if fails rip d then .error .handler
    else if m.stops then stopCompiling true
    else .ok true

/-- The loop of `compileSequence`. -/
def compileLoop (fails : U64 → Decoded → Bool) :
    List Decoded → U64 → Except CompileError CompiledBlock
  | [], _ => .error .index
  | d :: rest, rip => do
    let compiling ← compileInstruction fails rip d
    let next := rip + d.length
    let compiling ← if cfg.singleStep && compiling then stopCompiling compiling else .ok compiling
    if compiling then
      let c ← compileLoop fails rest next
      .ok { c with spans := (rip, d) :: c.spans }
    else .ok { spans := [(rip, d)], guestAddressEnd := next }

/-- A jump to zeroes. -/
def allZeroes (rip : U64) : Bool :=
  mem rip = 0 && (List.range 16).all fun j ↦ mem (rip + BitVec.ofNat 64 (j + 1)) = 0

/-- `compileSequence`, after the scan. -/
def compileSequence (fails : U64 → Decoded → Bool) (sc : Scan) (rip : U64) :
    Except CompileError CompiledBlock :=
  if allZeroes mem rip then .error .handler
  else compileLoop cfg fails (sc.instructions.map Prod.snd) rip

/-! ## Agreement -/

/-- The branch type is right. An instruction without a handler may be a branch or not, and so may
one that the scan knows by its mnemonic. -/
def Decoded.Classified (d : Decoded) : Prop :=
  match d.mnemonic with
  | .jmp | .jcc _ | .jrcxz | .jecxz | .jcxz | .loop | .loope | .loopne => d.branch = true
  | .call | .ret | .iretd | .iretq | .ud2 | .hlt | .unhandled _ => True
  | _ => d.branch = false

/-- The instruction cannot be compiled. -/
def Decoded.Rejected (fails : U64 → Decoded → Bool) (rip : U64) (d : Decoded) : Prop :=
  fails rip d = true ∨ ∃ id, d.mnemonic = .unhandled id

/-- The compiler has done what the scan has found, from the start of the block to the first
`INVLPG [rdx]`, or one instruction of it in `single_step` mode. -/
structure CompiledBlock.Agrees (c : CompiledBlock) (sc : Scan) (rip : U64) : Prop where
  sublist : c.spans <+: sc.instructions
  start : (c.spans.head?).map Prod.fst = some rip
  contiguous : c.spans.IsChain fun x y ↦ y.1 = x.1 + x.2.length
  before : ∀ x ∈ c.spans.dropLast, x.2.mnemonic.stops = false
  last : ∃ x, c.spans.getLast? = some x ∧ c.guestAddressEnd = x.1 + x.2.length ∧
    (cfg.singleStep = false → x.2.mnemonic.stops = true)
  whole : cfg.singleStep = false → (∀ x ∈ c.spans, x.2.mnemonic ≠ .invlpg .rdx) →
    c.spans = sc.instructions
  single : cfg.singleStep = true → c.spans.length = 1

section

variable {cfg mem decode} {d : Decoded} {n : ℕ} {rip : U64} {sc : Scan}

/-- One step of the scan. -/
theorem scanAhead_succ (h : scanAhead cfg mem decode (n + 1) rip = some sc) :
    ∃ d, decode rip = some d ∧ ((d.ends = true ∧ sc.instructions = [(rip, d)]) ∨
      (d.ends = false ∧ ∃ next rest, scanNext mem n rip d = some next ∧
        scanAhead cfg mem decode n next = some rest ∧
          sc.instructions = (rip, d) :: rest.instructions)) := by
  simp only [scanAhead, Option.bind_eq_bind, Option.bind_eq_some_iff] at h
  obtain ⟨d, hd, h⟩ := h
  refine ⟨d, hd, ?_⟩
  cases hends : d.ends with
  | true =>
    simp only [hends, if_true, Option.some.injEq] at h
    exact .inl ⟨rfl, by rw [← h]⟩
  | false =>
    simp only [hends, Bool.false_eq_true, if_false, Option.bind_eq_some_iff, Option.some.injEq] at h
    obtain ⟨next, hnext, rest, hrest, h⟩ := h
    exact .inr ⟨rfl, next, rest, hnext, hrest, by rw [← h]⟩

theorem scanNext_of_not_skips (h : d.skips = false) :
    scanNext mem n rip d = some (rip + d.length) := by
  simp only [Decoded.skips, Bool.or_eq_false_iff, decide_eq_false_iff_not] at h
  rw [scanNext]
  split
  · next hm => exact absurd hm h.1
  · next hm => exact absurd hm h.2
  · rfl

/-- An instruction whose handler ends the block ends the scan. -/
theorem ends_of_stops (hclass : d.Classified) (hstops : d.mnemonic.stops = true)
    (hrdx : d.mnemonic ≠ .invlpg .rdx) : d.ends = true := by
  obtain ⟨mnemonic, _, branch, _, _, _⟩ := d
  cases mnemonic <;> simp_all [Decoded.Classified, ScanMnemonic.stops, Decoded.ends, Decoded.skips,
    ScanMnemonic.isRet, ScanMnemonic.isCall]

/-- An instruction that ends the scan has a handler that ends the block, if it has one. -/
theorem not_ends_of_not_stops (hclass : d.Classified) (hstops : d.mnemonic.stops = false)
    (hhandled : ∀ id, d.mnemonic ≠ .unhandled id) : d.ends = false := by
  obtain ⟨mnemonic, _, branch, _, _, _⟩ := d
  cases mnemonic <;> simp_all [Decoded.Classified, ScanMnemonic.stops, Decoded.ends,
    ScanMnemonic.isRet, ScanMnemonic.isCall]

/-- What compiling an instruction comes to. -/
theorem compileInstruction_cases (fails : U64 → Decoded → Bool) (rip : U64) (d : Decoded) :
    (compileInstruction fails rip d = .error .handler ∧ d.Rejected fails rip) ∨
      (compileInstruction fails rip d = .ok (!d.mnemonic.stops) ∧
        ∀ id, d.mnemonic ≠ .unhandled id) := by
  rw [compileInstruction]
  split
  · next id hm => exact .inl ⟨rfl, .inr ⟨id, hm⟩⟩
  · next hm =>
    split
    · next hfails => exact .inl ⟨rfl, .inl hfails⟩
    · refine .inr ⟨?_, fun id h ↦ hm id h⟩
      cases d.mnemonic.stops <;> rfl

/-- One step of the compiler. -/
theorem compileLoop_cons {fails : U64 → Decoded → Bool} {rest : List Decoded} {compiling : Bool}
    (h : compileInstruction fails rip d = .ok compiling) :
    compileLoop cfg fails (d :: rest) rip =
      if compiling && !cfg.singleStep then
        (compileLoop cfg fails rest (rip + d.length)).map fun c ↦
          { c with spans := (rip, d) :: c.spans }
      else .ok { spans := [(rip, d)], guestAddressEnd := rip + d.length } := by
  rw [compileLoop, h]
  cases compiling <;> cases cfg.singleStep <;> rfl

/-- The block ends with an instruction. -/
theorem CompiledBlock.agrees_single (hhead : sc.instructions.head? = some (rip, d))
    (hstops : cfg.singleStep = false → d.mnemonic.stops = true)
    (hwhole : cfg.singleStep = false → d.mnemonic ≠ .invlpg .rdx → sc.instructions = [(rip, d)]) :
    CompiledBlock.Agrees cfg { spans := [(rip, d)], guestAddressEnd := rip + d.length } sc rip where
  sublist := by
    obtain ⟨rest, hrest⟩ := List.head?_eq_some_iff.mp hhead
    exact ⟨rest, hrest.symm⟩
  start := rfl
  contiguous := List.isChain_singleton _
  before x hx := by simp at hx
  last := ⟨_, rfl, rfl, hstops⟩
  whole hstep hrdx := (hwhole hstep (hrdx (rip, d) List.mem_cons_self)).symm
  single _ := rfl

/-- The block goes on after an instruction. -/
theorem CompiledBlock.Agrees.cons {c : CompiledBlock} {rest : Scan}
    (hc : c.Agrees cfg rest (rip + d.length))
    (hsc : sc.instructions = (rip, d) :: rest.instructions) (hstops : d.mnemonic.stops = false)
    (hstep : cfg.singleStep = false) :
    CompiledBlock.Agrees cfg { c with spans := (rip, d) :: c.spans } sc rip := by
  obtain ⟨⟨address, first⟩, tail, hspans⟩ : ∃ x l, c.spans = x :: l := by
    cases hspans : c.spans with
    | nil => simpa [hspans] using hc.start
    | cons x l => exact ⟨x, l, rfl⟩
  have hstart : address = rip + d.length := by simpa [hspans] using hc.start
  constructor
  · rw [hsc]
    exact (List.prefix_cons_inj _).mpr hc.sublist
  · rfl
  · have hchain := hc.contiguous
    rw [hspans] at hchain
    simp only [hspans]
    exact hchain.cons_cons hstart
  · intro x hx
    simp only [hspans, List.dropLast_cons_cons, List.mem_cons] at hx
    obtain rfl | hx := hx
    · exact hstops
    · exact hc.before x (by rwa [hspans])
  · obtain ⟨x, hx, hend⟩ := hc.last
    refine ⟨x, ?_, hend⟩
    rw [hspans] at hx
    simp only [hspans]
    rw [List.getLast?_cons_cons]
    exact hx
  · intro _ hrdx
    rw [hsc, hc.whole hstep fun x hx ↦ hrdx x (List.mem_cons_of_mem _ hx)]
  · intro h
    rw [hstep] at h
    exact absurd h Bool.false_ne_true

theorem compileLoop_agrees (fails : U64 → Decoded → Bool) {n : ℕ} {rip : U64} {sc : Scan}
    (h : scanAhead cfg mem decode n rip = some sc)
    (hclass : ∀ x ∈ sc.instructions, x.2.Classified)
    (hstring : ∀ x ∈ sc.instructions, x.2.skips = false) :
    (compileLoop cfg fails (sc.instructions.map Prod.snd) rip = .error .handler ∧
        ∃ x ∈ sc.instructions, x.2.Rejected fails x.1) ∨
      ∃ c, compileLoop cfg fails (sc.instructions.map Prod.snd) rip = .ok c ∧
          c.Agrees cfg sc rip := by
  -- the scan and the loop of the compiler go through the same instructions
  induction n generalizing rip sc with
  | zero => simp [scanAhead] at h
  | succ n ih =>
    obtain ⟨d, hd, hcases⟩ := scanAhead_succ h
    obtain ⟨tail, htail⟩ : ∃ tail, sc.instructions = (rip, d) :: tail := by
      obtain ⟨_, hsc⟩ | ⟨_, _, rest, _, _, hsc⟩ := hcases
      · exact ⟨[], hsc⟩
      · exact ⟨rest.instructions, hsc⟩
    have hmem : (rip, d) ∈ sc.instructions := by rw [htail]; exact List.mem_cons_self
    have hd' := hclass _ hmem
    obtain ⟨herror, hrejected⟩ | ⟨hok, hhandled⟩ := compileInstruction_cases fails rip d
    · refine .inl ⟨?_, (rip, d), hmem, hrejected⟩
      rw [htail, List.map_cons, compileLoop, herror]
      rfl
    · rw [show sc.instructions.map Prod.snd = d :: tail.map Prod.snd by rw [htail]; rfl,
        compileLoop_cons hok]
      cases hstops : d.mnemonic.stops with
      | true =>
        refine .inr ⟨_, rfl, ?_⟩
        refine CompiledBlock.agrees_single (by rw [htail]; rfl) (fun _ ↦ hstops) fun _ hrdx ↦ ?_
        obtain ⟨_, hsc⟩ | ⟨hends, _⟩ := hcases
        · exact hsc
        · rw [ends_of_stops hd' hstops hrdx] at hends
          exact absurd hends (by decide)
      | false =>
        cases hstep : cfg.singleStep with
        | true =>
          refine .inr ⟨_, rfl, ?_⟩
          exact CompiledBlock.agrees_single (by rw [htail]; rfl) (by simp [hstep]) (by simp [hstep])
        | false =>
          obtain ⟨hends, _⟩ | ⟨_, next, rest, hnext, hrest, hsc⟩ := hcases
          · rw [not_ends_of_not_stops hd' hstops hhandled] at hends
            exact absurd hends (by decide)
          · have hmem' (x) (hx : x ∈ rest.instructions) : x ∈ sc.instructions := by
              rw [hsc]
              exact List.mem_cons_of_mem _ hx
            rw [scanNext_of_not_skips (hstring _ hmem)] at hnext
            obtain rfl := Option.some.inj hnext
            obtain rfl : tail = rest.instructions := by
              rw [htail] at hsc
              exact (List.cons.inj hsc).2
            obtain ⟨herror, x, hx, hrejected⟩ | ⟨c, hc, hagrees⟩ :=
              ih hrest (fun x hx ↦ hclass x (hmem' x hx)) fun x hx ↦ hstring x (hmem' x hx)
            · refine .inl ⟨?_, x, hmem' x hx, hrejected⟩
              rw [herror]
              rfl
            · refine .inr ⟨{ c with spans := (rip, d) :: c.spans }, ?_,
                hagrees.cons hsc hstops hstep⟩
              rw [hc]
              rfl

end

/-- The scan and the compiler agree on blocks without strings. Compilation ends in an error only
where it starts at zeroes or an instruction has no handler or one that gives up; it never runs past
the scanned instructions, and never stops twice. -/
theorem compileSequence_agrees (fails : U64 → Decoded → Bool) {n : ℕ} {rip : U64} {sc : Scan}
    (h : scanAhead cfg mem decode n rip = some sc)
    (hclass : ∀ x ∈ sc.instructions, x.2.Classified)
    (hstring : ∀ x ∈ sc.instructions, x.2.skips = false) :
    (compileSequence cfg mem fails sc rip = .error .handler ∧
        (allZeroes mem rip = true ∨ ∃ x ∈ sc.instructions, x.2.Rejected fails x.1)) ∨
      ∃ c, compileSequence cfg mem fails sc rip = .ok c ∧ c.Agrees cfg sc rip := by
  cases hzero : allZeroes mem rip with
  | true => exact .inl ⟨by rw [compileSequence, hzero]; rfl, .inl rfl⟩
  | false =>
    have hloop : compileSequence cfg mem fails sc rip =
        compileLoop cfg fails (sc.instructions.map Prod.snd) rip := by
      rw [compileSequence, hzero]
      rfl
    rw [hloop]
    obtain ⟨herror, hrejected⟩ | hok := compileLoop_agrees fails h hclass hstring
    · exact .inl ⟨herror, .inr hrejected⟩
    · exact .inr hok

/-! ## Two instructions -/

/-- An instruction that is no branch and does not touch flags. -/
def ScanMnemonic.plain (m : ScanMnemonic) (length : U64) : Decoded where
  mnemonic := m
  length := length
  branch := false
  access := false
  tested := fun _ ↦ false
  changed := fun _ ↦ false

/-- The settings that are the default. -/
def ScanConfig.default (singleStep : Bool) : ScanConfig where
  singleStep := singleStep
  unsafeFlags := false
  paranoid := false
  flagMode := .default

/-- An instruction of three bytes and a `HLT` behind it. -/
def beforeHlt (m : ScanMnemonic) (rip : U64) : Option Decoded :=
  if rip = 0x401000 then some (m.plain 3)
  else if rip = 0x401003 then some (ScanMnemonic.hlt.plain 1) else none

/-- Memory that does not look like a jump to zeroes. -/
def nonzeroMem : Mem := fun _ ↦ 1

/-- What the scan finds there. -/
def scanBeforeHlt (m : ScanMnemonic) : Scan where
  instructions := [(0x401000, m.plain 3), (0x401003, ScanMnemonic.hlt.plain 1)]
  access f := ((m.plain 3).accesses (.default false) f).map (·, 0x401000)

theorem compileSequence_agrees_beforeHlt :
    scanAhead (.default false) nonzeroMem (beforeHlt (.other 0)) 2 0x401000 =
        some (scanBeforeHlt (.other 0)) ∧
      ∃ c, compileSequence (.default false) nonzeroMem (fun _ _ ↦ false) (scanBeforeHlt (.other 0))
        0x401000 = .ok c ∧ c.Agrees (.default false) (scanBeforeHlt (.other 0)) 0x401000 := by
  have hscan : scanAhead (.default false) nonzeroMem (beforeHlt (.other 0)) 2 0x401000 =
      some (scanBeforeHlt (.other 0)) := rfl
  refine ⟨hscan, ?_⟩
  obtain ⟨_, hzero | ⟨x, hx, hrejected⟩⟩ | hok :=
    compileSequence_agrees (.default false) nonzeroMem (beforeHlt (.other 0))
      (fun _ _ ↦ false) hscan
      (by simp [scanBeforeHlt, Decoded.Classified, ScanMnemonic.plain]) (by decide)
  · exact absurd hzero (by decide)
  · simp only [scanBeforeHlt, List.mem_cons, List.not_mem_nil, or_false] at hx
    obtain rfl | rfl := hx <;> simp [Decoded.Rejected, ScanMnemonic.plain] at hrejected
  · exact hok

/-- The code that returns from a guest function to the host is scanned to its `HLT`, and compiled up
to `INVLPG [rdx]`. -/
theorem not_compileSequence_invlpg :
    scanAhead (.default false) nonzeroMem (beforeHlt (.invlpg .rdx)) 2 0x401000 =
        some (scanBeforeHlt (.invlpg .rdx)) ∧
      (∀ x ∈ (scanBeforeHlt (.invlpg .rdx)).instructions, x.2.Classified) ∧
      ¬ ∃ c, compileSequence (.default false) nonzeroMem (fun _ _ ↦ false)
        (scanBeforeHlt (.invlpg .rdx)) 0x401000 = .ok c ∧
          c.spans = (scanBeforeHlt (.invlpg .rdx)).instructions := by
  refine ⟨rfl, by simp [scanBeforeHlt, Decoded.Classified, ScanMnemonic.plain], ?_⟩
  rintro ⟨c, hc, hspans⟩
  have hcompiled : compileSequence (.default false) nonzeroMem (fun _ _ ↦ false)
      (scanBeforeHlt (.invlpg .rdx)) 0x401000 =
        .ok { spans := [(0x401000, (ScanMnemonic.invlpg .rdx).plain 3)],
              guestAddressEnd := 0x401003 } := rfl
  rw [hcompiled] at hc
  rw [← Except.ok.inj hc] at hspans
  exact absurd (congrArg List.length hspans) (by decide)

end Jit

end Felix86
