import Felix86.V2.BlockLiveness
import Felix86.V2.EmittedCode
import Felix86.V2.ScanAhead

/-!
# The size of a block

`invalidateBlock` writes eight bytes over the start of a block, so `compile` asserts that a block
has at least eight, and blocks start where a host instruction of four bytes may start.

A block is as long as the code of its instructions. Those that do not end it may have no code at
all, as a `NOP`, so all that can be relied on is the instruction that does end it. All the handlers
that call `stopCompiling` end with a jump of two instructions or with a load and a jump, except the
one of `UD2`. It emits the only compressed instruction in the program.
-/

namespace Felix86

namespace Jit

open Riscv

/-! ## Pieces of code -/

/-- A piece of the code of a block: instructions of 32 bits, an immediate, or `C_UNDEF`. -/
inductive Chunk
  | words (n : ℕ)
  | li (imm : U64)
  | undef
deriving DecidableEq, Repr

/-- The number of instructions `LI` emits. Each round takes at least twelve bits off the immediate,
so six are more than enough. -/
def liWords : ℕ → U64 → ℕ
  | 0, _ => 0
  | n + 1, imm =>
    if (imm.setWidth 32).signExtend 64 = imm then
      let hi20 := ((imm.setWidth 32 + 0x800) >>> 12) &&& 0xFFFFF
      let lo12 := imm.setWidth 32 &&& 0xFFF
      (if hi20 ≠ 0 then 1 else 0) + (if lo12 ≠ 0 || hi20 = 0 then 1 else 0)
    else
      let lo12 := (imm.setWidth 12).signExtend 64
      let hi52 := (imm + 0x800) >>> 12
      let shift := 12 + (ctz hi52).toNat
      let hi52 := ((hi52 >>> (shift - 12)) <<< shift).sshiftRight shift
      liWords n hi52 + 1 + (if lo12 ≠ 0 then 1 else 0)

def Chunk.bytes : Chunk → ℕ
  | words n => 4 * n
  | li imm => 4 * liWords 6 imm
  | undef => 2

def codeBytes (code : List Chunk) : ℕ := (code.map Chunk.bytes).sum

@[simp] theorem codeBytes_nil : codeBytes [] = 0 := rfl

@[simp] theorem codeBytes_cons (c : Chunk) (code : List Chunk) :
    codeBytes (c :: code) = c.bytes + codeBytes code := by
  rw [codeBytes, codeBytes, List.map_cons, List.sum_cons]

@[simp] theorem codeBytes_append (code code' : List Chunk) :
    codeBytes (code ++ code') = codeBytes code + codeBytes code' := by
  rw [codeBytes, codeBytes, codeBytes, List.map_append, List.sum_append]

/-- Only instructions of 32 bits. -/
def Wide (code : List Chunk) : Prop := 4 ∣ codeBytes code

/-! ## What a block's code depends on -/

/-- Routines whose code is not spelled out here. All they emit are instructions of 32 bits, of which
there may be none. -/
inductive Routine
  | handler | prologue | operand | condition | writebackState | restoreState | call
deriving DecidableEq, Repr

/-- The settings, the tables and the operands that the code of a block depends on. The operands and
the numbers of instructions are given for each guest address. -/
structure Emitter where
  k : Config
  link : Bool
  calltrace : Bool
  fence : Bool
  known : U64 → Bool
  immediate : U64 → Option U64
  addressWidth : U64 → Size
  words : Routine → U64 → ℕ
  exitDispatcher : U64
  pushCalltrace : U64
  popCalltrace : U64

namespace Emitter

variable (E : Emitter)

/-! ## The routines -/

/-- `addi`, in place. -/
def addiCode (imm : U64) : List Chunk :=
  if imm = 0 then []
  else if -2048 ≤ imm.toInt ∧ imm.toInt < 2048 then [.words 1]
  else [.li imm, .words 1]

/-- `backToDispatcher`: `AUIPC` and `JR`. -/
def backToDispatcherCode : List Chunk := [.words 2]

/-- `jumpAndLink`. To a block that exists it is `NOP` and `JAL`, or `AUIPC` and `JALR`. -/
def jumpAndLinkCode (rip : U64) : List Chunk :=
  if !E.link || !E.known rip then backToDispatcherCode else [.words 1, .words 1]

def zextDwordCode : List Chunk :=
  if E.k.mode32 then [.words (E.k.zextCode .dword).length] else []

/-- The instruction pointer set to an address, relative to the start of the block, and a jump
there. -/
def linkToCode (guest target : U64) : List Chunk :=
  addiCode (target - guest) ++ E.zextDwordCode ++
    E.jumpAndLinkCode (if E.k.mode32 then zextw target else target)

/-- `jumpAndLinkConditional`. -/
def jumpAndLinkConditionalCode (guest ripTrue ripFalse : U64) : List Chunk :=
  .words 1 :: E.linkToCode guest ripFalse ++ E.linkToCode guest ripTrue

def pushCalltraceCode (rip : U64) : List Chunk :=
  if E.calltrace then
    [.words (E.words .writebackState rip), .li E.pushCalltrace, .words 1, .li rip, .words 1,
      .words (E.words .restoreState rip)]
  else []

def popCalltraceCode (rip : U64) : List Chunk :=
  if E.calltrace then
    [.words (E.words .writebackState rip), .li E.popCalltrace, .words 1, .words 1,
      .words (E.words .restoreState rip)]
  else []

/-- `readMemory` and `writeMemory`. -/
def memoryCode : List Chunk := [.words (if E.fence then 2 else 1)]

def setRspCode : List Chunk := [.words (E.k.setRefCode E.k.stackWidth).length]

/-- The end of a thread of guest code: `setExitReason`, and a jump to `ExitDispatcher`. -/
def exitCode (reason rip : U64) : List Chunk :=
  [.li reason, .words 1, .words (E.words .writebackState rip), .li E.exitDispatcher,
    .words 1, .words 1]

/-! ## The handlers that end a block -/

/-- `JCC`. -/
def jccCode (guest rip length : U64) : List Chunk :=
  E.jumpAndLinkConditionalCode guest (rip + length + (E.immediate rip).getD 0) (rip + length)

def jmpCode (guest rip length : U64) : List Chunk :=
  match E.immediate rip with
  | none => [.words (E.words .operand rip), .words 1] ++ backToDispatcherCode
  | some displacement => E.linkToCode guest (rip + length + displacement)

def callCode (guest rip length : U64) : List Chunk :=
  E.pushCalltraceCode rip ++
    match E.immediate rip with
    | none => [.words (E.words .operand rip), .words 1, .words 1] ++ E.setRspCode ++
        [.li (rip + length)] ++ E.memoryCode ++ backToDispatcherCode
    | some displacement =>
      .words 1 :: E.setRspCode ++ addiCode (rip - guest + length) ++ E.memoryCode ++
        addiCode displacement ++ E.zextDwordCode ++
        E.jumpAndLinkCode (if E.k.mode32 then zextw (rip + length + displacement)
          else rip + length + displacement)

def retCode (rip : U64) : List Chunk :=
  E.popCalltraceCode rip ++ E.memoryCode ++
    addiCode (BitVec.ofNat 64 E.k.stackWidth.bytes + (E.immediate rip).getD 0) ++ E.setRspCode ++
    .words 1 :: backToDispatcherCode

/-- `IRETD` and `IRETQ`. -/
def iretCode (rip : U64) : List Chunk :=
  [.words (E.words .writebackState rip), .words 1, .words (E.words .call rip),
    .words (E.words .restoreState rip)] ++ backToDispatcherCode

/-- `JCXZ` and its relatives compare the counter first. -/
def jcxzCode (size : Size) (guest rip length : U64) : List Chunk :=
  [.words (E.k.getRefCode size).length, .words 1] ++ E.jccCode guest rip length

/-- `LOOP` and its relatives; `extra` instructions for the flag. -/
def loopCode (extra : ℕ) (guest rip length : U64) : List Chunk :=
  let size := E.addressWidth rip
  [.words (E.k.getRefCode size).length, .words 1, .words 1, .words extra,
    .words (E.k.setRefCode size).length] ++ E.jccCode guest rip length

/-- The code of an instruction in the block that starts at `guest`. -/
def insnCode (guest rip : U64) (d : Decoded) : List Chunk :=
  match d.mnemonic with
  | .jmp => E.jmpCode guest rip d.length
  | .jcc _ => .words (E.words .condition rip) :: E.jccCode guest rip d.length
  | .jrcxz => E.jcxzCode .qword guest rip d.length
  | .jecxz => E.jcxzCode .dword guest rip d.length
  | .jcxz => E.jcxzCode .word guest rip d.length
  | .loop => E.loopCode 0 guest rip d.length
  | .loope => E.loopCode 1 guest rip d.length
  | .loopne => E.loopCode 2 guest rip d.length
  | .call => E.callCode guest rip d.length
  | .ret => E.retCode rip
  | .iretd | .iretq => E.iretCode rip
  | .ud2 => [.undef]
  | .hlt => E.exitCode 1 rip
  | .invlpg .rdx => E.exitCode 4 rip
  | _ => [.words (E.words .handler rip)]

/-- The code of the instructions of a block. In `single_step` mode it goes back to the dispatcher
after the first, if that does not end the block by itself. -/
def blockCode (cfg : ScanConfig) (guest : U64) : List (U64 × Decoded) → List Chunk
  | [] => []
  | (rip, d) :: rest =>
    .words (E.words .prologue rip) :: E.insnCode guest rip d ++
      (if cfg.singleStep && !d.mnemonic.stops then .li (rip + d.length) :: backToDispatcherCode
        else []) ++
      blockCode cfg guest rest

end Emitter

/-! ## Sizes of the pieces -/

section

variable {code code' : List Chunk} {E : Emitter} {guest rip length : U64}

theorem liWords_pos (n : ℕ) (imm : U64) : 0 < liWords (n + 1) imm := by
  rw [liWords]
  dsimp only
  split
  · generalize ((imm.setWidth 32 + 0x800) >>> 12) &&& 0xFFFFF = hi20
    by_cases h : hi20 = 0
    · simp only [h, decide_true, Bool.or_true, if_true]
      omega
    · rw [if_pos h]
      omega
  · omega

theorem wide_of_ne (h : ∀ c ∈ code, c ≠ .undef) : Wide code := by
  induction code with
  | nil => exact ⟨0, rfl⟩
  | cons c code ih =>
    obtain ⟨hc, hcode⟩ := List.forall_mem_cons.mp h
    rw [Wide, codeBytes_cons]
    refine Nat.dvd_add ?_ (ih hcode)
    cases c with
    | words n => exact Nat.dvd_mul_right 4 n
    | li imm => exact Nat.dvd_mul_right 4 _
    | undef => exact absurd rfl hc

theorem Wide.append (h : Wide code) (h' : Wide code') : Wide (code ++ code') := by
  rw [Wide, codeBytes_append]
  exact Nat.dvd_add h h'

/-- Only instructions of 32 bits, and at least two of them. -/
structure Ample (code : List Chunk) : Prop where
  wide : Wide code
  size : 8 ≤ codeBytes code

theorem Ample.append_left (h : Wide code) (h' : Ample code') : Ample (code ++ code') where
  wide := h.append h'.wide
  size := by
    rw [codeBytes_append]
    exact h'.size.trans (Nat.le_add_left _ _)

namespace Emitter

theorem wide_addiCode (imm : U64) : Wide (addiCode imm) := by
  refine wide_of_ne ?_
  rw [addiCode]
  split_ifs <;> simp

theorem wide_zextDwordCode : Wide E.zextDwordCode := by
  refine wide_of_ne ?_
  rw [zextDwordCode]
  split <;> simp

theorem wide_pushCalltraceCode : Wide (E.pushCalltraceCode rip) := by
  refine wide_of_ne ?_
  rw [pushCalltraceCode]
  split <;> simp

theorem wide_popCalltraceCode : Wide (E.popCalltraceCode rip) := by
  refine wide_of_ne ?_
  rw [popCalltraceCode]
  split <;> simp

theorem wide_memoryCode : Wide E.memoryCode := wide_of_ne (by simp [memoryCode])

theorem wide_setRspCode : Wide E.setRspCode := wide_of_ne (by simp [setRspCode])

theorem ample_backToDispatcherCode : Ample backToDispatcherCode := ⟨⟨2, rfl⟩, le_rfl⟩

theorem ample_jumpAndLinkCode (target : U64) : Ample (E.jumpAndLinkCode target) := by
  rw [jumpAndLinkCode]
  split
  · exact ample_backToDispatcherCode
  · exact ⟨⟨2, rfl⟩, le_rfl⟩

theorem ample_linkToCode (target : U64) : Ample (E.linkToCode guest target) :=
  (ample_jumpAndLinkCode _).append_left ((wide_addiCode _).append wide_zextDwordCode)

/-- `jumpAndLinkConditional` links twice, so there is more than enough. -/
theorem ample_jccCode : Ample (E.jccCode guest rip length) :=
  (ample_linkToCode _).append_left <|
    Wide.append (wide_of_ne (by simp) : Wide [.words 1]) (ample_linkToCode _).wide

theorem ample_exitCode (reason : U64) : Ample (E.exitCode reason rip) where
  wide := wide_of_ne (by simp [exitCode])
  size := by
    have hli := liWords_pos 5 reason
    simp only [exitCode, codeBytes_cons, codeBytes_nil, Chunk.bytes]
    omega

theorem ample_jmpCode : Ample (E.jmpCode guest rip length) := by
  rw [jmpCode]
  split
  · exact ample_backToDispatcherCode.append_left (wide_of_ne (by simp))
  · exact ample_linkToCode _

theorem ample_callCode : Ample (E.callCode guest rip length) := by
  refine Ample.append_left wide_pushCalltraceCode ?_
  split
  · refine ample_backToDispatcherCode.append_left (Wide.append ?_ wide_memoryCode)
    exact ((wide_of_ne (by simp)).append wide_setRspCode).append (wide_of_ne (by simp))
  · refine (ample_jumpAndLinkCode _).append_left (Wide.append ?_ wide_zextDwordCode)
    refine (Wide.append ?_ wide_memoryCode).append (wide_addiCode _)
    exact (Wide.append (wide_of_ne (by simp) : Wide [.words 1]) wide_setRspCode).append
      (wide_addiCode _)

theorem ample_retCode : Ample (E.retCode rip) := by
  refine Ample.append_left ?_ (ample_backToDispatcherCode.append_left (?_ : Wide [.words 1]))
  · exact ((wide_popCalltraceCode.append wide_memoryCode).append (wide_addiCode _)).append
      wide_setRspCode
  · exact wide_of_ne (by simp)

theorem ample_iretCode : Ample (E.iretCode rip) :=
  ample_backToDispatcherCode.append_left (wide_of_ne (by simp))

theorem ample_jcxzCode (size : Size) : Ample (E.jcxzCode size guest rip length) :=
  ample_jccCode.append_left (wide_of_ne (by simp))

theorem ample_loopCode (extra : ℕ) : Ample (E.loopCode extra guest rip length) :=
  ample_jccCode.append_left (wide_of_ne (by simp))

/-- Every handler that ends a block emits two instructions at least, apart from the one of `UD2`. -/
theorem ample_insnCode {d : Decoded} (hstops : d.mnemonic.stops = true) (hud2 : d.mnemonic ≠ .ud2) :
    Ample (E.insnCode guest rip d) := by
  rw [insnCode]
  cases hm : d.mnemonic with
  | jmp => exact ample_jmpCode
  | jcc cond =>
    exact ample_jccCode.append_left (wide_of_ne (by simp) : Wide [.words (E.words .condition rip)])
  | jrcxz => exact ample_jcxzCode _
  | jecxz => exact ample_jcxzCode _
  | jcxz => exact ample_jcxzCode _
  | loop => exact ample_loopCode _
  | loope => exact ample_loopCode _
  | loopne => exact ample_loopCode _
  | call => exact ample_callCode
  | ret => exact ample_retCode
  | iretd => exact ample_iretCode
  | iretq => exact ample_iretCode
  | ud2 => exact absurd hm hud2
  | hlt => exact ample_exitCode _
  | invlpg base =>
    rw [hm] at hstops
    cases base with
    | rdx => exact ample_exitCode _
    | _ => cases hstops
  | _ =>
    rw [hm] at hstops
    cases hstops

theorem wide_insnCode {d : Decoded} (hud2 : d.mnemonic ≠ .ud2) : Wide (E.insnCode guest rip d) := by
  by_cases hstops : d.mnemonic.stops = true
  · exact (ample_insnCode hstops hud2).wide
  · refine wide_of_ne ?_
    rw [insnCode]
    cases hm : d.mnemonic with
    | invlpg base => cases base <;> simp_all [ScanMnemonic.stops]
    | _ => simp_all [ScanMnemonic.stops]

end Emitter

end

/-! ## The instructions of a block -/

/-- The block ends with `UD2`. -/
def CompiledBlock.EndsUd2 (c : CompiledBlock) : Prop :=
  ∃ x ∈ c.spans.getLast?, x.2.mnemonic = .ud2

section

variable {cfg : ScanConfig} {mem : Mem} {fails : U64 → Decoded → Bool} {l : List Decoded}
  {rip : U64} {c : CompiledBlock} {E : Emitter} {guest : U64}

/-- Only the last instruction of a block ends it, or is followed by the jump of `single_step`. -/
theorem compileLoop_ends (h : compileLoop cfg fails l rip = .ok c) :
    ∃ init x, c.spans = init ++ [x] ∧ (∀ y ∈ init, y.2.mnemonic.stops = false) ∧
      (x.2.mnemonic.stops = true ∨ cfg.singleStep = true) := by
  induction l generalizing rip c with
  | nil => cases h
  | cons d rest ih =>
    obtain ⟨hfail, -⟩ | ⟨hok, -⟩ := compileInstruction_cases fails rip d
    · rw [compileLoop, hfail] at h
      cases h
    · rw [compileLoop_cons hok] at h
      split at h
      · next hgo =>
        obtain ⟨hstops, -⟩ := Bool.and_eq_true_iff.mp hgo
        cases hrest : compileLoop cfg fails rest (rip + d.length) with
        | error err =>
          rw [hrest] at h
          cases h
        | ok c' =>
          rw [hrest] at h
          cases h
          obtain ⟨init, x, hspans, hinit, hlast⟩ := ih hrest
          refine ⟨(rip, d) :: init, x, congrArg ((rip, d) :: ·) hspans, ?_, hlast⟩
          rintro y (_ | ⟨_, hy⟩)
          · exact Bool.not_eq_true' _ ▸ hstops
          · exact hinit y hy
      · next hgo =>
        cases h
        refine ⟨[], (rip, d), rfl, by simp, ?_⟩
        cases hstops : d.mnemonic.stops
        · right
          simpa [hstops] using hgo
        · exact .inl rfl

theorem Emitter.blockCode_append (init : List (U64 × Decoded)) (spans : List (U64 × Decoded)) :
    E.blockCode cfg guest (init ++ spans) =
      E.blockCode cfg guest init ++ E.blockCode cfg guest spans := by
  induction init with
  | nil => rfl
  | cons x init ih =>
    obtain ⟨rip, d⟩ := x
    simp only [List.cons_append, Emitter.blockCode, ih, List.append_assoc]

theorem wide_singleStep (d : Decoded) : Wide
    (if cfg.singleStep && !d.mnemonic.stops then .li
      (rip + d.length) :: Emitter.backToDispatcherCode
      else []) := by
  refine wide_of_ne ?_
  split <;> simp [Emitter.backToDispatcherCode]

theorem wide_blockCode {spans : List (U64 × Decoded)} (h : ∀ x ∈ spans, x.2.mnemonic ≠ .ud2) :
    Wide (E.blockCode cfg guest spans) := by
  induction spans with
  | nil => exact ⟨0, rfl⟩
  | cons x spans ih =>
    obtain ⟨rip, d⟩ := x
    obtain ⟨hd, hspans⟩ := List.forall_mem_cons.mp h
    refine Wide.append (Wide.append ?_ (wide_singleStep d)) (ih hspans)
    exact Wide.append (wide_of_ne (by simp) : Wide [.words (E.words .prologue rip)])
      (Emitter.wide_insnCode hd)

/-- The code of the last instruction of a block, and what follows it. -/
theorem ample_lastCode {x : U64 × Decoded} (hud2 : x.2.mnemonic ≠ .ud2)
    (hlast : x.2.mnemonic.stops = true ∨ cfg.singleStep = true) :
    Ample (E.blockCode cfg guest [x]) := by
  obtain ⟨rip, d⟩ := x
  have hprologue : Wide [.words (E.words .prologue rip)] := wide_of_ne (by simp)
  rw [Emitter.blockCode, Emitter.blockCode, List.append_nil]
  by_cases hstops : d.mnemonic.stops = true
  · have hinsn : Ample (E.insnCode guest rip d) := Emitter.ample_insnCode hstops hud2
    have hcode := hinsn.append_left hprologue
    rw [hstops, Bool.not_true, Bool.and_false, if_neg Bool.false_ne_true, List.append_nil]
    exact hcode
  · have hstep : (cfg.singleStep && !d.mnemonic.stops) = true := by
      rw [hlast.resolve_left hstops, Bool.eq_false_iff.mpr hstops]
      rfl
    rw [if_pos hstep]
    refine Ample.append_left (hprologue.append (Emitter.wide_insnCode hud2)) ?_
    exact Emitter.ample_backToDispatcherCode.append_left
      (wide_of_ne (by simp) : Wide [.li (rip + d.length)])

/-- The code of `UD2` is two bytes, whatever comes before it. -/
theorem codeBytes_ud2 {x : U64 × Decoded} (hud2 : x.2.mnemonic = .ud2) :
    codeBytes (E.blockCode cfg guest [x]) = 4 * E.words .prologue x.1 + 2 := by
  obtain ⟨rip, d⟩ := x
  have hcode : E.insnCode guest rip d = [.undef] := by
    rw [Emitter.insnCode, hud2]
  have hstops : d.mnemonic.stops = true := by rw [hud2]; rfl
  rw [Emitter.blockCode, Emitter.blockCode, hcode, hstops]
  simp [Chunk.bytes]

/-- A block has room for eight bytes and leaves the next one aligned, unless it ends with `UD2`. -/
theorem ample_blockCode_iff (h : compileLoop cfg fails l rip = .ok c) :
    Ample (E.blockCode cfg guest c.spans) ↔ ¬ c.EndsUd2 := by
  obtain ⟨init, x, hspans, hinit, hlast⟩ := compileLoop_ends h
  have hwide : Wide (E.blockCode cfg guest init) := by
    refine wide_blockCode fun y hy hud2 ↦ ?_
    have hstops := hinit y hy
    rw [hud2] at hstops
    cases hstops
  have hends : c.EndsUd2 ↔ x.2.mnemonic = .ud2 := by
    rw [CompiledBlock.EndsUd2, hspans, List.getLast?_concat]
    simp
  rw [hends, hspans, Emitter.blockCode_append]
  constructor
  · intro hample hud2
    have hsum := hample.wide
    rw [Wide, codeBytes_append, Nat.dvd_add_right hwide, codeBytes_ud2 hud2] at hsum
    omega
  · intro hud2
    exact (ample_lastCode hud2 hlast).append_left hwide

end

/-! ## The code cache -/

/-- The code and the block that `compile` may find at a guest address: for some settings, some guest
memory and some operands. -/
def Emits (code : List Chunk) (c : CompiledBlock) : Prop :=
  ∃ (cfg : ScanConfig) (mem : Mem) (decode : U64 → Option Decoded) (fails : U64 → Decoded → Bool)
    (fuel : ℕ) (rip : U64) (sc : Scan) (E : Emitter), scanAhead cfg mem decode fuel rip = some sc ∧
      compileSequence cfg mem fails sc rip = .ok c ∧ code = E.blockCode cfg rip c.spans

theorem ample_iff_of_emits {code : List Chunk} {c : CompiledBlock} (h : Emits code c) :
    Ample code ↔ ¬ c.EndsUd2 := by
  obtain ⟨cfg, mem, decode, fails, fuel, rip, sc, E, -, hc, rfl⟩ := h
  rw [compileSequence] at hc
  split at hc
  · cases hc
  · exact ample_blockCode_iff hc

/-- Where the next block goes, and the blocks that were compiled since the cache was cleared last:
where each of them starts and ends, with the latest first. -/
structure CodeBuffer where
  cursor : ℕ
  blocks : List (ℕ × ℕ)
deriving DecidableEq, Repr

namespace CodeBuffer

variable (L : Layout) (b : CodeBuffer)

def initial : CodeBuffer := ⟨L.startOfCodeCache, []⟩

/-- `clearCodeCache`, if there is less than 100 KB left. -/
def makeSpace : CodeBuffer :=
  if codeCacheSize - (b.cursor - L.codeCache) < 100000 then initial L else b

/-- `compile`, with its `ASSERT`. -/
def compile (code : List Chunk) : Option CodeBuffer :=
  let b := b.makeSpace L
  let stop := b.cursor + codeBytes code
  if 8 ≤ stop - b.cursor then some ⟨stop, (b.cursor, stop) :: b.blocks⟩ else none

/-- Every block starts at a multiple of four, the eight bytes that `invalidateBlock` writes over it
are in the block, no two blocks overlap, and the next one will be aligned too. -/
structure Sound : Prop where
  cursor : 4 ∣ b.cursor
  start : ∀ x ∈ b.blocks, 4 ∣ x.1
  room : ∀ x ∈ b.blocks, x.1 + 8 ≤ x.2
  below : ∀ x ∈ b.blocks, x.2 ≤ b.cursor
  apart : b.blocks.Pairwise fun x y ↦ y.2 ≤ x.1

/-- What a run of `compile` reaches if no block ends with `UD2`. -/
inductive Reached : CodeBuffer → Prop
  | initial : Reached (initial L)
  | compile {b b' : CodeBuffer} {code : List Chunk} {c : CompiledBlock} : Reached b → Emits code c →
      ¬ c.EndsUd2 → b.compile L code = some b' → Reached b'

section

variable {L b} {code : List Chunk}

theorem sound_initial (halign : 4 ∣ L.startOfCodeCache) : (initial L).Sound where
  cursor := halign
  start x hx := by cases hx
  room x hx := by cases hx
  below x hx := by cases hx
  apart := .nil

theorem Sound.makeSpace (halign : 4 ∣ L.startOfCodeCache) (h : b.Sound) :
    (b.makeSpace L).Sound := by
  rw [CodeBuffer.makeSpace]
  split
  · exact sound_initial halign
  · exact h

/-- One more block. -/
theorem Sound.compile_iff (halign : 4 ∣ L.startOfCodeCache) (h : b.Sound) :
    (∃ b', b.compile L code = some b' ∧ b'.Sound) ↔ Ample code := by
  have hspace := h.makeSpace halign
  rw [CodeBuffer.compile]
  generalize b.makeSpace L = b at hspace
  simp only [Nat.add_sub_cancel_left]
  constructor
  · rintro ⟨b', hb', hsound⟩
    split at hb'
    · next hsize =>
      cases hb'
      exact ⟨(Nat.dvd_add_right hspace.cursor).mp hsound.cursor, hsize⟩
    · cases hb'
  · intro hample
    rw [if_pos hample.size]
    refine ⟨_, rfl, Nat.dvd_add hspace.cursor hample.wide, ?_, ?_, ?_, ?_⟩
    · exact List.forall_mem_cons.mpr ⟨hspace.cursor, hspace.start⟩
    · exact List.forall_mem_cons.mpr ⟨Nat.add_le_add_left hample.size _, hspace.room⟩
    · refine List.forall_mem_cons.mpr ⟨le_rfl, fun x hx ↦ ?_⟩
      exact (hspace.below x hx).trans (Nat.le_add_right _ _)
    · exact List.pairwise_cons.mpr ⟨hspace.below, hspace.apart⟩

theorem sound_of_reached (halign : 4 ∣ L.startOfCodeCache) (h : Reached L b) : b.Sound := by
  induction h with
  | initial => exact sound_initial halign
  | compile _ hemits hud2 hcompile ih =>
    obtain ⟨b', hb', hsound⟩ := (ih.compile_iff halign).mpr ((ample_iff_of_emits hemits).mpr hud2)
    rw [hcompile] at hb'
    cases hb'
    exact hsound

end

/-- After any blocks that do not end with `UD2`, the next one is compiled, starts aligned, and has
room for the eight bytes of `invalidateBlock`, exactly if it does not end with `UD2` either. -/
theorem compile_sound_iff {code : List Chunk} {c : CompiledBlock} (halign : 4 ∣ L.startOfCodeCache)
    (hb : Reached L b) (hc : Emits code c) :
    (∃ b', b.compile L code = some b' ∧ b'.Sound) ↔ ¬ c.EndsUd2 :=
  ((sound_of_reached halign hb).compile_iff halign).trans (ample_iff_of_emits hc)

/-! ## Two guest programs -/

/-- Settings and operands, and some code for each routine. -/
def sampleEmitter : Emitter where
  k := .default false
  link := true
  calltrace := false
  fence := false
  known _ := false
  immediate _ := none
  addressWidth _ := .qword
  words
    | .prologue, _ => 0
    | .writebackState, _ | .restoreState, _ => 60
    | _, _ => 3
  exitDispatcher := 0x10000300
  pushCalltrace := 0x555555600000
  popCalltrace := 0x555555600100

/-- An instruction of three bytes and a `HLT`. -/
def hltBlock : CompiledBlock :=
  { spans := (scanBeforeHlt (.other 0)).instructions, guestAddressEnd := 0x401004 }

def hltCode : List Chunk := sampleEmitter.blockCode (.default false) 0x401000 hltBlock.spans

theorem emits_hlt : Emits hltCode hltBlock := by
  refine ⟨.default false, nonzeroMem, beforeHlt (.other 0), fun _ _ ↦ false, 2, 0x401000,
    scanBeforeHlt (.other 0), sampleEmitter, ?_, ?_, rfl⟩ <;> rfl

theorem not_endsUd2_hlt : ¬ hltBlock.EndsUd2 := by
  rintro ⟨x, hx, hud2⟩
  cases hx
  cases hud2

theorem isSome_compile_hlt :
    ((initial sampleLayout).compile sampleLayout hltCode).isSome := by decide

/-- The block has been compiled. -/
def hltCompiled : CodeBuffer :=
  ((initial sampleLayout).compile sampleLayout hltCode).get isSome_compile_hlt

/-- The same block behind another one. -/
theorem compile_sound_iff_hlt :
    hltCompiled.blocks = [(0x10000400, 0x10000400 + codeBytes hltCode)] ∧
      ∃ b', hltCompiled.compile sampleLayout hltCode = some b' ∧ b'.Sound := by
  have hreached : Reached sampleLayout hltCompiled :=
    .compile .initial emits_hlt not_endsUd2_hlt (Option.some_get isSome_compile_hlt).symm
  exact ⟨by decide,
    (compile_sound_iff sampleLayout hltCompiled (by decide) hreached emits_hlt).mpr not_endsUd2_hlt⟩

/-- A guest program that is one `UD2`. -/
def onlyUd2 (rip : U64) : Option Decoded :=
  if rip = 0x401000 then some (ScanMnemonic.ud2.plain 2) else none

def ud2Block : CompiledBlock :=
  { spans := [(0x401000, ScanMnemonic.ud2.plain 2)], guestAddressEnd := 0x401002 }

def ud2Code : List Chunk := sampleEmitter.blockCode (.default false) 0x401000 ud2Block.spans

theorem emits_ud2 : Emits ud2Code ud2Block := by
  refine ⟨.default false, nonzeroMem, onlyUd2, fun _ _ ↦ false, 1, 0x401000,
    ⟨ud2Block.spans,
      fun f ↦ ((ScanMnemonic.ud2.plain 2).accesses (.default false) f).map (·, 0x401000)⟩,
    sampleEmitter, ?_, ?_, rfl⟩ <;> rfl

/-- The code of a lone `UD2` is two bytes, and `compile` fails its `ASSERT`. -/
theorem not_compile_ud2 :
    Emits ud2Code ud2Block ∧
      ¬ ∃ b', (initial sampleLayout).compile sampleLayout ud2Code = some b' ∧ b'.Sound := by
  refine ⟨emits_ud2, ?_⟩
  rintro ⟨b', hb', -⟩
  have hnone : (initial sampleLayout).compile sampleLayout ud2Code = none := by decide
  rw [hnone] at hb'
  cases hb'

end CodeBuffer

end Jit

end Felix86
