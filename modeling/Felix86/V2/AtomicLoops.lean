import Felix86.Lib.Numerals
import Felix86.Lib.Reservation
import Felix86.V2.FlagValues
import Felix86.V2.Instruction

/-!
# Locked instructions between other threads

A handler is a function on the state of one thread, and a loop of `LR` and `SC` is in it as one
access. Here are the loops as the code that is emitted, a host instruction at a time, with other
threads that write between any two of them. The byte and halfword forms of `ADD`, `XCHG` and
`CMPXCHG` take the aligned word around the operand, `CMPXCHG` and `CMPXCHG8B` the operand itself.

The code expects its operand in a certain place: a halfword inside an aligned word, a doubleword or
quadword at a multiple of its size. If it is there, then whatever the others write, memory changes
in one step of the thread, as the handler changes the memory of that moment, and the handler's
result is what the loop leaves in its register (`lockedLoop_atomic`).

## Operands out of place

There are three ways to go on with an operand that is not in place. `ADD` and `CMPXCHG` on a
halfword stop at a breakpoint, and the reservation of a doubleword, or of `CMPXCHG8B`, faults: no
run gets to the end. `XCHG` on a halfword reads it and writes it with plain accesses. `CMPXCHG` on a
quadword reads it, reserves the aligned quadword in which it starts, writes that one back as it was,
and then writes the operand. The comments in the code say that these two are not atomic, and they
are not: in each there is a moment at which another write is lost (`xchgWord_torn`,
`cmpxchgQword_torn`).

The handlers as functions on one thread's state do these two forms at once as well, which is right
as long as no other thread is there. `CMPXCHG16B` has no loop and is left out.
-/

namespace Felix86

namespace Jit

namespace AtomicLoops

open Numerals Reservation Riscv

/-- The host registers of the loops, under the names the handlers have for them. `cf`, `zf` and `sf`
are the registers of flags, which `CMPXCHG` borrows. -/
inductive Reg
  | address | src | rax | dst | result | scratch | temp
  | masked | mask | maskShifted
  | cf | zf | sf
  | eax | edx | ebx | ecx | edxEax | ecxEbx | bit
deriving DecidableEq, Repr

abbrev Op := Reg × ((Reg → U64) → U64)

abbrev Code := Program Reg U64 Mem

abbrev Thread := Hart Reg U64 Mem

/-- `LR.W` and `SC.W`. -/
def wordAccess : Access U64 Mem where
  load a m := sextw (m.load a 4)
  store a v m := m.store a v 4
  Aligned a := a &&& 3 = 0

/-- `LR.D` and `SC.D`. -/
def doubleAccess : Access U64 Mem where
  load a m := m.load a 8
  store a v m := m.store a v 8
  Aligned a := a &&& 7 = 0

/-! ## The emitted code -/

/-- Where the part of the word is: its address, and the place of the part in the word. -/
def maskAddress : List Op :=
  [(.masked, fun x ↦ x .address &&& ~~~(3 : U64)), (.address, fun x ↦ x .address <<< 3)]

/-- `rd` where the mask has ones and `dst` elsewhere. -/
def select (rd ones : Reg) : List Op :=
  [(rd, fun x ↦ x rd ^^^ x .dst), (rd, fun x ↦ x rd &&& x ones), (rd, fun x ↦ x rd ^^^ x .dst)]

def addLoop : Loop Reg U64 where
  old := .dst
  address := .masked
  before := []
  leaves := none
  compute := (.result, fun x ↦ x .dst + x .address) :: select .result .mask
  new := .result
  status := .result

def addSetup (ones : U64) : List Op :=
  maskAddress ++ [(.mask, fun _ ↦ ones), (.mask, fun x ↦ sllw (x .mask) (x .address)),
    (.address, fun x ↦ sllw (x .src) (x .address))]

def addByte : Code where
  checks := []
  elsewhere := none
  setup := addSetup 0xff
  loop := addLoop
  done := [(.dst, fun x ↦ srlw (x .dst) (x .address)), (.dst, fun x ↦ x .dst &&& 0xff)]
  exit := []

def addWord (k : Config) : Code where
  checks := [(.mask, fun _ ↦ 3), (.masked, fun x ↦ x .address &&& 3)]
  elsewhere := some ⟨fun x ↦ x .masked = x .mask, [.trap], []⟩
  setup := addSetup 0xffff
  loop := addLoop
  done := [(.dst, fun x ↦ srlw (x .dst) (x .address)), (.dst, fun x ↦ k.sexth (x .dst))]
  exit := []

def xchgLoop : Loop Reg U64 where
  old := .dst
  address := .masked
  before := []
  leaves := none
  compute := (.scratch, fun x ↦ x .src) :: select .scratch .maskShifted
  new := .scratch
  status := .scratch

def xchgSetup (ones : U64) : List Op :=
  maskAddress ++ [(.mask, fun _ ↦ ones), (.maskShifted, fun x ↦ sllw (x .mask) (x .address)),
    (.src, fun x ↦ sllw (x .src) (x .address))]

def xchgByte : Code where
  checks := []
  elsewhere := none
  setup := xchgSetup 0xff
  loop := xchgLoop
  done := [(.dst, fun x ↦ srlw (x .dst) (x .address))]
  exit := []

/-- A halfword that crosses an aligned word. -/
def xchgWordElsewhere : Elsewhere Reg U64 Mem where
  taken x := x .mask = 0
  code := [.load .scratch (fun a m ↦ m.load a 2) .address,
    .store (fun a v m ↦ m.store a v 2) .src .address, .op .dst fun x ↦ x .scratch]
  retry := []

def xchgWord : Code where
  checks := [(.mask, fun x ↦ x .address &&& 3), (.mask, fun x ↦ x .mask + -3)]
  elsewhere := some xchgWordElsewhere
  setup := xchgSetup 0xffff
  loop := xchgLoop
  done := [(.dst, fun x ↦ srlw (x .dst) (x .address))]
  exit := []

/-- The loop of `CMPXCHG` on a part of a word. -/
def cmpxchgLoop (ones : Reg) : Loop Reg U64 where
  old := .dst
  address := .masked
  before := [(.temp, fun x ↦ x .dst &&& x ones)]
  leaves := some fun x ↦ x .temp ≠ x .cf
  compute := [(.temp, fun x ↦ x .dst ^^^ x .zf), (.temp, fun x ↦ x .temp &&& x ones),
    (.temp, fun x ↦ x .temp ^^^ x .dst)]
  new := .temp
  status := .temp

def cmpxchgByte : Code where
  checks := []
  elsewhere := none
  setup := maskAddress ++ [(.mask, fun _ ↦ 0xff), (.mask, fun x ↦ sllw (x .mask) (x .address)),
    (.zf, fun x ↦ sllw (x .src) (x .address)), (.cf, fun x ↦ sllw (x .rax) (x .address))]
  loop := cmpxchgLoop .mask
  done := [(.dst, fun x ↦ srlw (x .dst) (x .address)), (.dst, fun x ↦ x .dst &&& 0xff)]
  exit := [(.dst, fun x ↦ srlw (x .dst) (x .address)), (.dst, fun x ↦ x .dst &&& 0xff)]

def cmpxchgWord : Code where
  checks := [(.masked, fun x ↦ x .address &&& 3), (.temp, fun _ ↦ 3)]
  elsewhere := some ⟨fun x ↦ x .masked = x .temp, [.trap], []⟩
  setup := maskAddress ++ [(.mask, fun _ ↦ 0xffff), (.cf, fun x ↦ sllw (x .rax) (x .address)),
    (.sf, fun x ↦ sllw (x .mask) (x .address)), (.zf, fun x ↦ sllw (x .src) (x .address))]
  loop := cmpxchgLoop .sf
  done := [(.dst, fun x ↦ srlw (x .dst) (x .address)), (.dst, fun x ↦ x .dst &&& x .mask)]
  exit := [(.dst, fun x ↦ srlw (x .dst) (x .address)), (.dst, fun x ↦ x .dst &&& x .mask)]

/-- The loop of `CMPXCHG` on a whole operand. -/
def cmpxchgWholeLoop (before : List Op) : Loop Reg U64 where
  old := .dst
  address := .address
  before := before
  leaves := some fun x ↦ x .dst ≠ x .rax
  compute := []
  new := .src
  status := .scratch

def cmpxchgDword (k : Config) : Code where
  checks := []
  elsewhere := none
  setup := []
  loop := cmpxchgWholeLoop [(.dst, fun x ↦ k.zext .dword (x .dst))]
  done := []
  exit := []

/-- The code from `start_unaligned` on. Only the aligned quadword in which the operand starts is
watched. -/
def cmpxchgQwordRetry : List (Reservation.Insn Reg U64 Mem) :=
  [.load .dst (fun a m ↦ m.load a 8) .address, .lr .scratch .masked,
    .branch (fun x ↦ x .dst ≠ x .rax) .exit, .sc .scratch .scratch .masked,
    .branch (fun x ↦ x .scratch ≠ 0) .retry, .store (fun a v m ↦ m.store a v 8) .src .address]

/-- A quadword that is not aligned. -/
def cmpxchgQwordElsewhere : Elsewhere Reg U64 Mem where
  taken x := x .masked ≠ 0
  code := .op .masked (fun x ↦ x .address &&& ~~~(7 : U64)) :: cmpxchgQwordRetry
  retry := cmpxchgQwordRetry

def cmpxchgQword : Code where
  checks := [(.masked, fun x ↦ x .address &&& 7)]
  elsewhere := some cmpxchgQwordElsewhere
  setup := []
  loop := cmpxchgWholeLoop []
  done := []
  exit := []

def cmpxchg8bLoop : Loop Reg U64 where
  old := .temp
  address := .address
  before := []
  leaves := some fun x ↦ x .temp ≠ x .edxEax
  compute := []
  new := .ecxEbx
  status := .bit

def cmpxchg8b (k : Config) : Code where
  checks := []
  elsewhere := none
  setup := [(.edxEax, fun x ↦ x .edx <<< 32), (.edxEax, fun x ↦ x .edxEax ||| x .eax),
    (.ecxEbx, fun x ↦ x .ecx <<< 32), (.ecxEbx, fun x ↦ x .ecxEbx ||| x .ebx)]
  loop := cmpxchg8bLoop
  done := [(.zf, fun _ ↦ 1)]
  exit := [(.zf, fun _ ↦ 0), (.edx, fun x ↦ x .temp >>> 32),
    (.eax, fun x ↦ k.zext .dword (x .temp)), (.edx, fun x ↦ k.zext .dword (x .edx))]

/-- The loop a handler emits, with the access it loops on. The sizes that are left out have an
atomic instruction of the host. -/
def lockedLoop {ρ : Type*} (k : Config) (mnemonic : Mnemonic ρ) (i : Insn) :
    Option (Access U64 Mem × Code) :=
  match mnemonic, i.op0 with
  | .add, .mem _ .byte => if k.zabha then none else some (wordAccess, addByte)
  | .add, .mem _ .word => if k.zabha then none else some (wordAccess, addWord k)
  | .xchg, .mem _ .byte => if k.zabha then none else some (wordAccess, xchgByte)
  | .xchg, .mem _ .word => if k.zabha then none else some (wordAccess, xchgWord)
  | .cmpxchg, .mem _ _ =>
    match i.width with
    | .byte => if k.zacas && k.zabha then none else some (wordAccess, cmpxchgByte)
    | .word => some (wordAccess, cmpxchgWord)
    | .dword => if k.zacas then none else some (wordAccess, cmpxchgDword k)
    | .qword => if k.zacas then none else some (doubleAccess, cmpxchgQword)
    | .byteHigh => none
  | .cmpxchg8b, .mem _ _ => some (doubleAccess, cmpxchg8b k)
  | _, _ => none

/-! ## What a loop does at once -/

def withMem {ρ : Type*} (m : Mem) (c : Core ρ) : Core ρ := { c with mem := m }

section

variable {ρ : Type*} {k : Config} {l : Loop Reg U64} {x z : Reg → U64} {left : Bool} {m m' : Mem}
  {a shifted src old : U64}

/-- A loop that writes part of a word and is never left. -/
theorem lrsc_of_does (op : U64 → U64 → U64) (rs ones : Reg) {v : U64}
    (haddress : l.address = .masked)
    (hleaves : l.leaves = none) (hdst : ∀ w, Function.update (l.computed x w) l.status 0 .dst = w)
    (hnew : ∀ w, l.computed x w l.new = ((op w (x rs) ^^^ w) &&& x ones) ^^^ w)
    (hmasked : x .masked = a &&& ~~~(3 : U64)) (hshifted : x rs = shifted)
    (hones : x ones = sllw v (a <<< 3)) (h : l.Does wordAccess x z left m m') (c : Core ρ) :
    left = false ∧ lrsc op v a shifted (withMem m c) = (z .dst, withMem m' c) := by
  have hold : wordAccess.load (x l.address) m = sextw (m.load (a &&& ~~~(3 : U64)) 4) := by
    rw [haddress, hmasked]
    rfl
  cases left with
  | true =>
    obtain ⟨⟨q, hq, -⟩, -, -⟩ := h
    simp [hleaves] at hq
  | false =>
    obtain ⟨-, hmem, hz⟩ := h
    rw [hold, hnew, haddress, hmasked, hshifted, hones] at hmem
    rw [hold] at hz
    refine ⟨rfl, ?_⟩
    rw [hmem, hz, hdst]
    rfl

/-- The loop of `CMPXCHG` on a part of a word. -/
theorem casPart_of_does {ones : Reg} {v : U64} (hones : ones = .mask ∨ ones = .sf)
    (hmasked : x .masked = a &&& ~~~(3 : U64)) (hmask : x ones = sllw v (a <<< 3))
    (hzf : x .zf = sllw src (a <<< 3)) (hcf : x .cf = sllw old (a <<< 3))
    (h : (cmpxchgLoop ones).Does wordAccess x z left m m') (c : Core ρ) :
    casPart v a src old (withMem m c) =
      (srlw (z .dst) (a <<< 3) &&& v, withMem m' c) := by
  have haddress : (cmpxchgLoop ones).address = .masked := rfl
  have hload : wordAccess.load (x .masked) m = sextw (m.load (a &&& ~~~(3 : U64)) 4) := by
    rw [hmasked]
    rfl
  have hleaves (w : U64) : (cmpxchgLoop ones).Leaves x w ↔ w &&& x ones ≠ x .cf := by
    obtain rfl | rfl := hones <;> simp [Loop.Leaves, cmpxchgLoop, Loop.tested, runOps,
      Function.update]
  have hnew (w : U64) : (cmpxchgLoop ones).computed x w .temp =
      ((w ^^^ x .zf) &&& x ones) ^^^ w := by
    obtain rfl | rfl := hones <;> rfl
  have hdst (w : U64) : (cmpxchgLoop ones).tested x w .dst = w := rfl
  have hdst' (w : U64) : (cmpxchgLoop ones).computed x w .dst = w := rfl
  have hpart : casPart v a src old (withMem m c) =
      (srlw (wordAccess.load (x .masked) m) (a <<< 3) &&& v,
        if wordAccess.load (x .masked) m &&& x ones = x .cf then
          withMem (wordAccess.store (x .masked)
            ((cmpxchgLoop ones).computed x (wordAccess.load (x .masked) m) .temp) m) c
        else withMem m c) := by
    rw [hnew, hload, hmasked, hmask, hzf, hcf]
    rfl
  cases left with
  | true =>
    obtain ⟨hleave, hmem, hz⟩ := h
    rw [haddress] at hleave hz
    rw [hpart, if_neg ((hleaves _).mp hleave), hmem, hz, hdst]
  | false =>
    obtain ⟨hstay, hmem, hz⟩ := h
    rw [haddress] at hstay hmem hz
    have hne : Reg.dst ≠ (cmpxchgLoop ones).status := by
      change Reg.dst ≠ .temp
      decide
    rw [hpart, if_pos (not_not.mp fun hne ↦ hstay ((hleaves _).mpr hne)), hmem, hz,
      Function.update_of_ne hne, hdst']
    rfl

/-- The loop of `CMPXCHG` on a whole operand. -/
theorem casWhole_of_does {A : Access U64 Mem} {size : Size} {before : List Op}
    (hold : ∀ w, runOps before (Function.update x .dst w) .dst = k.zext size w)
    (hbefore : ∀ r ∈ before.map Prod.fst, r = .dst)
    (hload : k.zext size (A.load (x .address) m) = m.load (x .address) size.bytes)
    (hstore : A.store (x .address) (x .src) m = m.store (x .address) (x .src) size.bytes)
    (h : (cmpxchgWholeLoop before).Does A x z left m m') (c : Core ρ) :
    casWhole (x .address) (x .src) (x .rax) size (withMem m c) = (z .dst, withMem m' c) ∧
      ∀ r, r ≠ .dst → r ≠ .scratch → z r = x r := by
  have hdests (r : Reg) (hdst : r ≠ .dst) (hscratch : r ≠ .scratch) :
      r ∉ (cmpxchgWholeLoop before).dests := by
    have hr : r ∉ before.map Prod.fst := fun hmem ↦ hdst (hbefore r hmem)
    simp only [Loop.dests, cmpxchgWholeLoop, List.map_nil, List.mem_append, List.mem_cons, not_or]
    exact ⟨⟨⟨hdst, hr⟩, List.not_mem_nil⟩, hscratch, List.not_mem_nil⟩
  refine ⟨?_, fun r hdst hscratch ↦ h.of_notMem (hdests r hdst hscratch)⟩
  have haddress : (cmpxchgWholeLoop before).address = .address := rfl
  have htested (w : U64) : (cmpxchgWholeLoop before).tested x w .dst = k.zext size w := hold w
  have hleaves (w : U64) : (cmpxchgWholeLoop before).Leaves x w ↔ k.zext size w ≠ x .rax := by
    rw [← htested, ← Loop.tested_of_notMem (hdests .rax (by decide) (by decide)) x w]
    simp [Loop.Leaves, cmpxchgWholeLoop]
  have hwhole : casWhole (x .address) (x .src) (x .rax) size (withMem m c) =
      (k.zext size (A.load (x .address) m),
        if k.zext size (A.load (x .address) m) = x .rax then
          withMem (A.store (x .address) (x .src) m) c else withMem m c) := by
    rw [hload, hstore]
    rfl
  rw [hwhole]
  cases left with
  | true =>
    obtain ⟨hleave, hmem, hz⟩ := h
    rw [haddress] at hleave hz
    rw [if_neg ((hleaves _).mp hleave), hmem, hz, htested]
  | false =>
    obtain ⟨hstay, hmem, hz⟩ := h
    rw [haddress] at hstay hmem hz
    rw [show (cmpxchgWholeLoop before).new = .src from rfl,
      Loop.computed_of_notMem (hdests .src (by decide) (by decide))] at hmem
    have hne : Reg.dst ≠ .scratch := by decide
    rw [if_pos (not_not.mp fun hne ↦ hstay ((hleaves _).mpr hne)), hmem, hz,
      Function.update_of_ne (show Reg.dst ≠ (cmpxchgWholeLoop before).status from hne)]
    exact congrArg (fun v ↦ (v, _)) (htested _).symm

end

/-! ## The handlers -/

section

variable {ρ : Type*} (k : Config) (e : Flag → Bool)

/-- The host registers when the code of the loop starts. -/
structure Entered (i : Insn) (s : State ρ) (x : Reg → U64) : Prop where
  address : ∀ o size, i.op0 = .mem o size → x .address = k.lea i o true s.core
  src : x .src = k.get i i.op1 s.core
  rax : x .rax = k.getRef Jit.rax i.width s.core
  eax : x .eax = s.core.gpr Jit.rax
  edx : x .edx = s.core.gpr rdx
  ebx : x .ebx = s.core.gpr rbx
  ecx : x .ecx = s.core.gpr rcx
  cf : x .cf = s.flag .cf
  zf : x .zf = s.flag .zf
  sf : x .sf = s.flag .sf

/-- The guest's state after the code of the loop, from the host registers that it leaves. -/
def stateAfter (s : State ρ) (y : Reg → U64) (m : Mem) : State ρ where
  core := withMem m s.core
  flag
    | .cf => y .cf
    | .zf => y .zf
    | .sf => y .sf
    | f => s.flag f

/-- What `CMPXCHG_lock` does after its loop. -/
def cmpxchgRest (i : Insn) (y : Reg → U64) (s : State ρ) : State ρ :=
  let result := y .rax - y .dst
  let s := setCmpFlags k e (y .rax) (y .dst) result i.width false false s
  if result = 0 then s else s.map (k.setRef Jit.rax i.width (y .dst))

/-- The handler, on the memory before a step, is the code after the loop, on the memory after the
step and on the registers that the loop leaves. -/
def Acts (mnemonic : Mnemonic ρ) (i : Insn) (s : State ρ) (y : Reg → U64) (m m' : Mem) : Prop :=
  match mnemonic with
  | .add =>
    lockedAdd k i (k.get i i.op1 s.core) (withMem m s.core) = some (y .dst, withMem m' s.core)
  | .xchg => fastXchg k i (withMem m s.core) = k.set i i.op1 (y .dst) (withMem m' s.core)
  | .cmpxchg => fastCmpxchg k i e { s with core := withMem m s.core } =
      some (cmpxchgRest k e i y (stateAfter s y m'))
  | .cmpxchg8b => fastCmpxchg8b k i { s with core := withMem m s.core } =
      (stateAfter s y m').map fun c ↦ (c.write Jit.rax (y .eax)).write rdx (y .edx)
  | _ => False

/-- The size of what is loaded and stored. -/
def operandSize (mnemonic : Mnemonic ρ) (i : Insn) : Size :=
  match mnemonic with
  | .cmpxchg => i.width
  | .cmpxchg8b => .qword
  | _ => i.op0.size

/-- Where an operand of a size has to be. -/
def Placed (size : Size) (a : U64) : Prop :=
  match size with
  | .word => a &&& 3 ≠ 3
  | .dword => a &&& 3 = 0
  | .qword => a &&& 7 = 0
  | _ => True

variable {k e} {i : Insn} {s : State ρ} {x y : Reg → U64} {m m' : Mem}

theorem lea_withMem (o : MemOperand) (b : Bool) :
    k.lea i o b (withMem m s.core) = k.lea i o b s.core := rfl

theorem getRef_withMem (r : Ref) (size : Size) :
    k.getRef r size (withMem m s.core) = k.getRef r size s.core := rfl

theorem get_withMem {op : Operand} (h : op.isMem = false) :
    k.get i op (withMem m s.core) = k.get i op s.core := by
  cases op with
  | mem => cases h
  | reg | imm | seg => rfl

/-- The loop of `ADD`, from the registers with which it starts. -/
theorem add_of_does {p : Code} {v : U64} (hloop : p.loop = addLoop)
    (hmasked : p.entered x .masked = x .address &&& ~~~(3 : U64))
    (haddress : p.entered x .address = sllw (x .src) (x .address <<< 3))
    (hmask : p.entered x .mask = sllw v (x .address <<< 3)) (h : p.Does wordAccess x y m m')
    (c : Core ρ) : ∃ z, y = runOps p.done z ∧ z .address = sllw (x .src) (x .address <<< 3) ∧
      lrsc (· + ·) v (x .address) (sllw (x .src) (x .address <<< 3)) (withMem m c) =
        (z .dst, withMem m' c) := by
  obtain ⟨x', z, left, hx', hdoes, hy⟩ := h
  rw [hloop] at hx' hdoes
  have hz := hdoes.of_notMem (r := .address) (by decide)
  obtain ⟨rfl, hlrsc⟩ := lrsc_of_does (· + ·) .address .mask rfl rfl
    (fun _ ↦ rfl) (fun _ ↦ rfl) ((hx' .masked (by decide)).trans hmasked)
    ((hx' .address (by decide)).trans haddress) ((hx' .mask (by decide)).trans hmask) hdoes c
  exact ⟨z, hy, hz.trans ((hx' .address (by decide)).trans haddress), hlrsc⟩

theorem acts_addByte {o : MemOperand} (hop0 : i.op0 = .mem o .byte) (hzabha : k.zabha = false)
    (hx : Entered k i s x) (h : addByte.Does wordAccess x y m m') : Acts k e .add i s y m m' := by
  obtain ⟨z, rfl, hz, hlrsc⟩ := add_of_does (v := 0xff) rfl rfl rfl rfl h s.core
  have hdst : runOps addByte.done z .dst =
      srlw (z .dst) (sllw (x .src) (x .address <<< 3)) &&& 0xff := by
    rw [← hz]
    rfl
  simp only [Acts, lockedAdd, hop0, hzabha, lea_withMem, ← hx.address _ _ hop0, ← hx.src, hlrsc,
    Bool.false_eq_true, if_false, hdst]

theorem acts_addWord {o : MemOperand} (hop0 : i.op0 = .mem o .word) (hzabha : k.zabha = false)
    (hplaced : x .address &&& 3 ≠ 3) (hx : Entered k i s x)
    (h : (addWord k).Does wordAccess x y m m') : Acts k e .add i s y m m' := by
  obtain ⟨z, rfl, hz, hlrsc⟩ := add_of_does (v := 0xffff) rfl rfl rfl rfl h s.core
  have hdst : runOps (addWord k).done z .dst =
      k.sexth (srlw (z .dst) (sllw (x .src) (x .address <<< 3))) := by
    rw [← hz]
    rfl
  simp only [Acts, lockedAdd, hop0, hzabha, lea_withMem, ← hx.address _ _ hop0, ← hx.src, hlrsc,
    Bool.false_eq_true, if_false, hplaced, hdst]

/-- The loop of `XCHG`, from the registers with which it starts. -/
theorem xchg_of_does {p : Code} {v : U64} (hloop : p.loop = xchgLoop)
    (hmasked : p.entered x .masked = x .address &&& ~~~(3 : U64))
    (haddress : p.entered x .address = x .address <<< 3)
    (hsrc : p.entered x .src = sllw (x .src) (x .address <<< 3))
    (hmask : p.entered x .maskShifted = sllw v (x .address <<< 3)) (h : p.Does wordAccess x y m m')
    (c : Core ρ) : ∃ z, y = runOps p.done z ∧ z .address = x .address <<< 3 ∧
      lrsc (fun _ new ↦ new) v (x .address) (sllw (x .src) (x .address <<< 3)) (withMem m c) =
        (z .dst, withMem m' c) := by
  obtain ⟨x', z, left, hx', hdoes, hy⟩ := h
  rw [hloop] at hx' hdoes
  have hz := hdoes.of_notMem (r := .address) (by decide)
  obtain ⟨rfl, hlrsc⟩ := lrsc_of_does (fun _ new ↦ new) .src .maskShifted rfl rfl
    (fun _ ↦ rfl) (fun _ ↦ rfl) ((hx' .masked (by decide)).trans hmasked)
    ((hx' .src (by decide)).trans hsrc) ((hx' .maskShifted (by decide)).trans hmask) hdoes c
  exact ⟨z, hy, hz.trans ((hx' .address (by decide)).trans haddress), hlrsc⟩

theorem acts_xchgByte {o : MemOperand} (hop0 : i.op0 = .mem o .byte) (hop1 : i.op1.isMem = false)
    (hzabha : k.zabha = false) (hx : Entered k i s x) (h : xchgByte.Does wordAccess x y m m') :
    Acts k e .xchg i s y m m' := by
  obtain ⟨z, rfl, hz, hlrsc⟩ := xchg_of_does (v := 0xff) rfl rfl rfl rfl rfl h s.core
  have hdst : runOps xchgByte.done z .dst = srlw (z .dst) (x .address <<< 3) := by
    rw [← hz]
    rfl
  simp only [Acts, fastXchg, xchgLock, hop0, hzabha, lea_withMem, get_withMem hop1,
    ← hx.address _ _ hop0, ← hx.src, hlrsc, Bool.false_eq_true, if_false, hdst]

theorem acts_xchgWord {o : MemOperand} (hop0 : i.op0 = .mem o .word) (hop1 : i.op1.isMem = false)
    (hzabha : k.zabha = false) (hplaced : x .address &&& 3 ≠ 3) (hx : Entered k i s x)
    (h : xchgWord.Does wordAccess x y m m') : Acts k e .xchg i s y m m' := by
  obtain ⟨z, rfl, hz, hlrsc⟩ := xchg_of_does (v := 0xffff) rfl rfl rfl rfl rfl h s.core
  have hdst : runOps xchgWord.done z .dst = srlw (z .dst) (x .address <<< 3) := by
    rw [← hz]
    rfl
  simp only [Acts, fastXchg, xchgLock, hop0, hzabha, lea_withMem, get_withMem hop1,
    ← hx.address _ _ hop0, ← hx.src, hlrsc, Bool.false_eq_true, if_false, hplaced, hdst]

/-- A loop of `CMPXCHG` on a part of a word, from the registers with which it starts. -/
theorem cmpxchg_of_does {p : Code} {ones : Reg} {v : U64} (hloop : p.loop = cmpxchgLoop ones)
    (hexit : p.exit = p.done) (hones : ones = .mask ∨ ones = .sf)
    (hmasked : p.entered x .masked = x .address &&& ~~~(3 : U64))
    (hmask : p.entered x ones = sllw v (x .address <<< 3))
    (hzf : p.entered x .zf = sllw (x .src) (x .address <<< 3))
    (hcf : p.entered x .cf = sllw (x .rax) (x .address <<< 3)) (h : p.Does wordAccess x y m m')
    (c : Core ρ) : ∃ z, y = runOps p.done z ∧ (∀ r, r ≠ .dst → r ≠ .temp → z r = p.entered x r) ∧
      casPart v (x .address) (x .src) (x .rax) (withMem m c) =
        (srlw (z .dst) (x .address <<< 3) &&& v, withMem m' c) := by
  obtain ⟨x', z, left, hx', hdoes, hy⟩ := h
  rw [hloop] at hx' hdoes
  have hdests (r : Reg) (hdst : r ≠ .dst) (htemp : r ≠ .temp) : r ∉ (cmpxchgLoop ones).dests := by
    simp [Loop.dests, cmpxchgLoop, hdst, htemp]
  have hentered (r : Reg) (hdst : r ≠ .dst) (htemp : r ≠ .temp) : x' r = p.entered x r :=
    hx' r (hdests r hdst htemp)
  have hmask' : x' ones = p.entered x ones := by
    obtain rfl | rfl := hones
    · exact hentered .mask (by decide) (by decide)
    · exact hentered .sf (by decide) (by decide)
  refine ⟨z, ?_, fun r hdst htemp ↦
    (hdoes.of_notMem (hdests r hdst htemp)).trans (hentered r hdst htemp), ?_⟩
  · rw [hy, hexit, ite_self]
  · exact casPart_of_does hones ((hentered .masked (by decide) (by decide)).trans hmasked)
      (hmask'.trans hmask) ((hentered .zf (by decide) (by decide)).trans hzf)
      ((hentered .cf (by decide) (by decide)).trans hcf) hdoes c

theorem mk_eq_stateAfter (s : State ρ) (y : Reg → U64) (m' : Mem) {flag : Flag → U64}
    (h : ∀ f, flag f = (stateAfter s y m').flag f) :
    (⟨withMem m' s.core, flag⟩ : State ρ) = stateAfter s y m' := by
  rw [funext h]
  rfl

theorem acts_cmpxchgByte {o : MemOperand} {size : Size} (hop0 : i.op0 = .mem o size)
    (hop1 : i.op1.isMem = false) (hwidth : i.width = .byte) (hzacas : (k.zacas && k.zabha) = false)
    (hx : Entered k i s x) (h : cmpxchgByte.Does wordAccess x y m m') :
        Acts k e .cmpxchg i s y m m' := by
  obtain ⟨z, rfl, hz, hcas⟩ :=
    cmpxchg_of_does (v := 0xff) rfl rfl (.inl rfl) rfl rfl rfl rfl h s.core
  have haddress := hz .address (by decide) (by decide)
  have hrax : runOps cmpxchgByte.done z .rax = x .rax := hz .rax (by decide) (by decide)
  have hdst : runOps cmpxchgByte.done z .dst = srlw (z .dst) (x .address <<< 3) &&& 0xff := by
    rw [← show z .address = x .address <<< 3 from haddress]
    rfl
  have hflags : (⟨withMem m' s.core, Function.update (Function.update s.flag .zf
      (sllw (x .src) (x .address <<< 3))) .cf (sllw (x .rax) (x .address <<< 3))⟩ : State ρ) =
        stateAfter s (runOps cmpxchgByte.done z) m' :=
      mk_eq_stateAfter _ _ _ fun f ↦ by
        cases f with
        | cf => exact (hz .cf (by decide) (by decide)).symm
        | zf => exact (hz .zf (by decide) (by decide)).symm
        | sf => exact hx.sf.symm.trans (hz .sf (by decide) (by decide)).symm
        | pf | af | of => rfl
  have hentry := hx.rax
  rw [hwidth] at hentry
  rw [Acts, cmpxchgRest, hrax, hdst, ← hflags]
  simp only [fastCmpxchg, cmpxchgLock, hop0, hwidth, hzacas, lea_withMem, get_withMem hop1,
    getRef_withMem, ← hx.address _ _ hop0, ← hx.src, ← hentry, hcas, Bool.false_eq_true, if_false]
  rfl

theorem acts_cmpxchgWord {o : MemOperand} {size : Size} (hop0 : i.op0 = .mem o size)
    (hop1 : i.op1.isMem = false) (hwidth : i.width = .word) (hplaced : x .address &&& 3 ≠ 3)
    (hx : Entered k i s x) (h : cmpxchgWord.Does wordAccess x y m m') :
        Acts k e .cmpxchg i s y m m' := by
  obtain ⟨z, rfl, hz, hcas⟩ :=
    cmpxchg_of_does (v := 0xffff) rfl rfl (.inr rfl) rfl rfl rfl rfl h s.core
  have haddress := hz .address (by decide) (by decide)
  have hmask := hz .mask (by decide) (by decide)
  have hrax : runOps cmpxchgWord.done z .rax = x .rax := hz .rax (by decide) (by decide)
  have hdst : runOps cmpxchgWord.done z .dst = srlw (z .dst) (x .address <<< 3) &&& 0xffff := by
    rw [← show z .address = x .address <<< 3 from haddress, ← show z .mask = 0xffff from hmask]
    rfl
  have hflags : (⟨withMem m' s.core, Function.update (Function.update (Function.update s.flag .cf
      (sllw (x .rax) (x .address <<< 3))) .sf (sllw 0xffff (x .address <<< 3))) .zf
      (sllw (x .src) (x .address <<< 3))⟩ : State ρ) =
          stateAfter s (runOps cmpxchgWord.done z) m' :=
      mk_eq_stateAfter _ _ _ fun f ↦ by
        cases f with
        | cf => exact (hz .cf (by decide) (by decide)).symm
        | zf => exact (hz .zf (by decide) (by decide)).symm
        | sf => exact (hz .sf (by decide) (by decide)).symm
        | pf | af | of => rfl
  have hentry := hx.rax
  rw [hwidth] at hentry
  rw [Acts, cmpxchgRest, hrax, hdst, ← hflags]
  simp only [fastCmpxchg, cmpxchgLock, hop0, hwidth, lea_withMem, get_withMem hop1,
    getRef_withMem, ← hx.address _ _ hop0, ← hx.src, ← hentry, hcas, if_false, hplaced]
  rfl

/-- The other sizes of `CMPXCHG`. -/
theorem acts_cmpxchgWhole {A : Access U64 Mem} {p : Code} {before : List Op} {o : MemOperand}
    {size : Size} (hop0 : i.op0 = .mem o size) (hop1 : i.op1.isMem = false)
    (hzacas : k.zacas = false)
    (hwidth : i.width = .dword ∨ i.width = .qword) (hloop : p.loop = cmpxchgWholeLoop before)
    (hdone : p.done = []) (hexit : p.exit = [])
    (hentered : ∀ r, r ≠ .dst → r ≠ .scratch → r ≠ .masked → p.entered x r = x r)
    (hold : ∀ x w, runOps before (Function.update x .dst w) .dst = k.zext i.width w)
    (hbefore : ∀ r ∈ before.map Prod.fst, r = .dst)
    (hload : k.zext i.width (A.load (x .address) m) = m.load (x .address) i.width.bytes)
    (hstore : A.store (x .address) (x .src) m = m.store (x .address) (x .src) i.width.bytes)
    (hx : Entered k i s x) (h : p.Does A x y m m') : Acts k e .cmpxchg i s y m m' := by
  obtain ⟨x', z, left, hx', hdoes, hy⟩ := h
  obtain rfl : y = z := by
    rw [hy, hdone, hexit, ite_self]
    rfl
  rw [hloop] at hx' hdoes
  have hx'' (r : Reg) (hdst : r ≠ .dst) (hscratch : r ≠ .scratch) (hmasked : r ≠ .masked) :
      x' r = x r := by
    refine (hx' r fun hr ↦ ?_).trans (hentered r hdst hscratch hmasked)
    simp only [Loop.dests, cmpxchgWholeLoop, List.map_nil, List.append_nil, List.mem_append,
      List.mem_cons, List.not_mem_nil, or_false] at hr
    obtain (hr | hr) | hr := hr
    exacts [hdst hr, hdst (hbefore r hr), hscratch hr]
  have haddress := hx'' .address (by decide) (by decide) (by decide)
  have hsrc := hx'' .src (by decide) (by decide) (by decide)
  have hrax := hx'' .rax (by decide) (by decide) (by decide)
  rw [← haddress, ← hsrc] at hstore
  rw [← haddress] at hload
  obtain ⟨hcas, hy'⟩ := casWhole_of_does (hold x') hbefore hload hstore hdoes s.core
  rw [haddress, hsrc, hrax] at hcas
  have hflags : (⟨withMem m' s.core, s.flag⟩ : State ρ) = stateAfter s y m' :=
    mk_eq_stateAfter s y m' fun f ↦ by
      cases f with
      | cf => exact hx.cf.symm.trans ((hx'' .cf (by decide) (by decide) (by decide)).symm.trans
          (hy' .cf (by decide) (by decide)).symm)
      | zf => exact hx.zf.symm.trans ((hx'' .zf (by decide) (by decide) (by decide)).symm.trans
          (hy' .zf (by decide) (by decide)).symm)
      | sf => exact hx.sf.symm.trans ((hx'' .sf (by decide) (by decide) (by decide)).symm.trans
          (hy' .sf (by decide) (by decide)).symm)
      | pf | af | of => rfl
  have hrax' : y .rax = x .rax := (hy' .rax (by decide) (by decide)).trans hrax
  have hentry := hx.rax
  rw [Acts, cmpxchgRest, hrax', ← hflags]
  obtain hwidth | hwidth := hwidth <;> rw [hwidth] at hcas hentry <;>
    simp only [fastCmpxchg, cmpxchgLock, hop0, hwidth, hzacas, lea_withMem, get_withMem hop1,
      getRef_withMem, ← hx.address _ _ hop0, ← hx.src, ← hentry, hcas, Bool.false_eq_true, if_false]

end

section

variable {ρ : Type*} {k : Config} {e : Flag → Bool} {i : Insn} {s : State ρ}
  {x y : Reg → U64} {m m' : Mem}

theorem write_write_of_ne (c : Core ρ) {r r' : Ref} (h : r ≠ r') (u v w : U64) :
    ((c.write r u).write r' v).write r w = (c.write r' v).write r w := by
  simp only [Core.write]
  rw [Function.update_comm h, Function.update_idem]

theorem acts_cmpxchg8b {o : MemOperand} {size : Size} (hop0 : i.op0 = .mem o size)
    (hx : Entered k i s x)
    (h : (cmpxchg8b k).Does doubleAccess x y m m') : Acts k e .cmpxchg8b i s y m m' := by
  obtain ⟨x', z, left, hx', hdoes, rfl⟩ := h
  rw [show (cmpxchg8b k).loop = cmpxchg8bLoop from rfl] at hx' hdoes
  have hsame (r : Reg) (hr : r ∉ cmpxchg8bLoop.dests) : z r = (cmpxchg8b k).entered x r :=
    (hdoes.of_notMem hr).trans (hx' r hr)
  have haddress : x' cmpxchg8bLoop.address = k.lea i o true s.core :=
    (hx' .address (by decide)).trans (hx.address _ _ hop0)
  have hwanted : x' .edxEax = (s.core.gpr rdx <<< 32) ||| s.core.gpr rax := by
    rw [← hx.edx, ← hx.eax]
    exact hx' .edxEax (by decide)
  have hnew : x' cmpxchg8bLoop.new = (s.core.gpr rcx <<< 32) ||| s.core.gpr rbx := by
    rw [← hx.ecx, ← hx.ebx]
    exact hx' .ecxEbx (by decide)
  have hleaves (v : U64) : cmpxchg8bLoop.Leaves x' v ↔ v ≠ x' .edxEax := by
    simp [Loop.Leaves, cmpxchg8bLoop, Loop.tested, runOps, Function.update]
  have hload : doubleAccess.load (x' cmpxchg8bLoop.address) m = m.load (k.lea i o true s.core) 8 :=
    congrArg (fun a ↦ m.load a 8) haddress
  have hcf : s.flag .cf = z .cf := hx.cf.symm.trans (hsame .cf (by decide)).symm
  have hsf : s.flag .sf = z .sf := hx.sf.symm.trans (hsame .sf (by decide)).symm
  rw [Loop.Does, hload] at hdoes
  simp only [Acts, fastCmpxchg8b, hop0, lea_withMem]
  cases left with
  | true =>
    obtain ⟨hleave, rfl, hz⟩ := hdoes
    rw [hleaves, hwanted] at hleave
    have hflags : (⟨withMem m' s.core, Function.update s.flag .zf 0⟩ : State ρ) =
        stateAfter s (runOps (cmpxchg8b k).exit z) m' :=
      mk_eq_stateAfter _ _ _ fun f ↦ by
        cases f with
        | cf => exact hcf
        | sf => exact hsf
        | zf | pf | af | of => rfl
    have htemp : z .temp = m'.load (k.lea i o true s.core) 8 := congrFun hz .temp
    refine (if_neg hleave).trans ?_
    rw [if_pos rfl, ← hflags, show (withMem m' s.core).mem.load _ 8 = _ from htemp.symm]
    exact congrArg (State.mk · _) (write_write_of_ne _ (by decide) _ _ _)
  | false =>
    obtain ⟨hstay, rfl, hz⟩ := hdoes
    rw [hleaves, not_not, hwanted] at hstay
    have hflags : (⟨withMem (m.store (k.lea i o true s.core)
        ((s.core.gpr rcx <<< 32) ||| s.core.gpr rbx) 8) s.core,
          Function.update s.flag .zf 1⟩ : State ρ) = stateAfter s (runOps (cmpxchg8b k).done z) _ :=
      mk_eq_stateAfter _ _ _ fun f ↦ by
        cases f with
        | cf => exact hcf
        | sf => exact hsf
        | zf | pf | af | of => rfl
    have heax : runOps (cmpxchg8b k).done z .eax = s.core.gpr rax :=
      (hsame .eax (by decide)).trans hx.eax
    have hedx : runOps (cmpxchg8b k).done z .edx = s.core.gpr rdx :=
      (hsame .edx (by decide)).trans hx.edx
    have hstored : doubleAccess.store (x' cmpxchg8bLoop.address)
        (cmpxchg8bLoop.computed x' (m.load (k.lea i o true s.core) 8) cmpxchg8bLoop.new) m =
          m.store (k.lea i o true s.core) ((s.core.gpr rcx <<< 32) ||| s.core.gpr rbx) 8 := by
      rw [Loop.computed_of_notMem (by decide), haddress, hnew]
      rfl
    have hsame' (c : Core ρ) : (c.write rax (c.gpr rax)).write rdx (c.gpr rdx) = c := by
      simp only [Core.write, Function.update_eq_self]
    refine (if_pos hstay).trans ?_
    rw [hstored, if_neg Bool.false_ne_true, ← hflags, heax, hedx]
    exact congrArg (State.mk · _) (hsame' _).symm

end

/-! ## Atomicity -/

/-- The loops that go on with plain accesses if the operand is not in place. -/
def Splits {ρ : Type*} (mnemonic : Mnemonic ρ) (i : Insn) : Prop :=
  match mnemonic with
  | .xchg => i.op0.size = .word
  | .cmpxchg => i.width = .qword
  | _ => False

/-- A run gets to its end and has not acted in one step. -/
def Torn (A : Access U64 Mem) (p : Code) (s : Thread) (act : (Reg → U64) → Mem → Mem → Prop) :
    Prop :=
  ∃ tr t, Steps A p.code tr s t ∧ t.rest = [] ∧ ¬Once (act t.x) tr

/-- Whatever others write, code with its operand in place acts in one step on what memory is then.
With an operand out of place it gets to its end only if it splits its access, and not always in one
step. -/
structure Atomically (A : Access U64 Mem) (p : Code) (x : Reg → U64) (placed splits : Prop)
    (act : (Reg → U64) → Mem → Mem → Prop) : Prop where
  once : placed → ∀ {tr : List (Reservation.Event Mem)} {r : Option U64} {m : Mem} {t : Thread},
    Steps A p.code tr ⟨p.start, x, r, m⟩ t → t.rest = [] → Once (act t.x) tr
  finishes : ∀ (r : Option U64) (m : Mem), Finishes A p.code ⟨p.start, x, r, m⟩ ↔ placed ∨ splits
  torn : ¬placed → splits → ∀ (r : Option U64) (m : Mem), Torn A p ⟨p.start, x, r, m⟩ act

section

variable {A : Access U64 Mem} {p : Code} {x : Reg → U64} {placed splits : Prop}
  {act : (Reg → U64) → Mem → Mem → Prop}

theorem Torn.finishes {s : Thread} (h : Torn A p s act) : Finishes A p.code s := by
  obtain ⟨tr, t, hsteps, ht, -⟩ := h
  exact ⟨t.x, tr, t, hsteps, ht, rfl, List.nil_subset tr⟩

theorem Atomically.of_does (haddress : p.loop.address ∉ p.loop.dests) (hstays : placed → p.Stays x)
    (haligned : placed → A.Aligned (p.entered x p.loop.address))
    (hact : placed → ∀ y m m', p.Does A x y m m' → act y m m')
    (hstops : ¬placed → ¬splits → ∀ r m, ¬Finishes A p.code ⟨p.start, x, r, m⟩)
    (htorn : ¬placed → splits → ∀ r m, Torn A p ⟨p.start, x, r, m⟩ act) :
    Atomically A p x placed splits act where
  once hin {tr r m t} hsteps ht :=
    (Program.atomic haddress hsteps rfl ht (hstays hin)).mono fun m m' ↦ hact hin t.x m m'
  finishes r m := by
    refine ⟨fun hfinishes ↦ ?_, fun h ↦ ?_⟩
    · by_contra hout
      obtain ⟨hplaced, hsplits⟩ := not_or.mp hout
      exact hstops hplaced hsplits r m hfinishes
    · by_cases hplaced : placed
      · exact (Program.finishes_iff haddress (hstays hplaced)).mpr (haligned hplaced)
      · exact (htorn hplaced (h.resolve_left hplaced) r m).finishes
  torn := htorn

/-- Code without a test, whose loop needs the address that it reserves. -/
theorem Atomically.of_aligned (haddress : p.loop.address ∉ p.loop.dests)
    (helsewhere : p.elsewhere = none)
    (haligned : A.Aligned (p.entered x p.loop.address) ↔ placed) (hsplits : ¬splits)
    (hact : placed → ∀ y m m', p.Does A x y m m' → act y m m') :
        Atomically A p x placed splits act := by
  have hstays : p.Stays x := by simp [Program.Stays, helsewhere]
  refine .of_does haddress (fun _ ↦ hstays) haligned.mpr hact (fun hout _ r m hfinishes ↦ ?_)
    fun _ h ↦ absurd h hsplits
  exact hout (haligned.mp ((Program.finishes_iff haddress hstays).mp hfinishes))

/-- Code with a test that stops at a breakpoint. -/
theorem Atomically.of_trap {f : Elsewhere Reg U64 Mem} (haddress : p.loop.address ∉ p.loop.dests)
    (hf : p.elsewhere = some f) (htrap : f.code = [.trap])
    (htaken : ¬f.taken (runOps p.checks x) ↔ placed)
    (haligned : A.Aligned (p.entered x p.loop.address)) (hsplits : ¬splits)
    (hact : placed → ∀ y m m', p.Does A x y m m' → act y m m') :
        Atomically A p x placed splits act := by
  refine .of_does haddress (fun hin g hg ↦ ?_) (fun _ ↦ haligned) hact (fun hout _ r m ↦ ?_)
    fun _ h ↦ absurd h hsplits
  · obtain rfl : f = g := Option.some.inj (hf.symm.trans hg)
    exact htaken.mpr hin
  · exact Program.not_finishes_of_trap hf (not_not.mp (mt htaken.mp hout)) htrap

end

theorem aligned_mask (a : U64) : (a &&& ~~~(3 : U64)) &&& 3 = 0 := by
  rw [BitVec.and_assoc, show ~~~(3 : U64) &&& 3 = 0#64 by decide, BitVec.and_zero]
  rfl

section

variable {ρ : Type*} (k : Config) (e : Flag → Bool)

theorem zext_dword_load (m : Mem) (a : U64) : k.zext .dword (sextw (m.load a 4)) = m.load a 4 := by
  apply BitVec.eq_of_toNat_eq
  rw [k.toNat_zext]
  exact (toNat_sextw_mod _).trans (Nat.mod_eq_of_lt (m.load_lt a (by decide)))

variable {k e} {i : Insn} {s : State ρ} {x y : Reg → U64} {m m' : Mem}

theorem acts_cmpxchgDword {o : MemOperand} {size : Size} (hop0 : i.op0 = .mem o size)
    (hop1 : i.op1.isMem = false) (hzacas : k.zacas = false) (hwidth : i.width = .dword)
    (hx : Entered k i s x) (h : (cmpxchgDword k).Does wordAccess x y m m') :
    Acts k e .cmpxchg i s y m m' := by
  have hloop : (cmpxchgDword k).loop =
    cmpxchgWholeLoop [(.dst, fun x ↦ k.zext .dword (x .dst))] := rfl
  refine acts_cmpxchgWhole hop0 hop1 hzacas (.inl hwidth) hloop rfl rfl (fun _ _ _ _ ↦ rfl)
    (fun _ _ ↦ ?_) (fun r hr ↦ List.mem_singleton.mp hr) ?_ ?_ hx h
  · rw [hwidth]
    rfl
  · rw [hwidth]
    exact zext_dword_load k m _
  · rw [hwidth]
    rfl

theorem acts_cmpxchgQword {o : MemOperand} {size : Size} (hop0 : i.op0 = .mem o size)
    (hop1 : i.op1.isMem = false) (hzacas : k.zacas = false) (hwidth : i.width = .qword)
    (hx : Entered k i s x) (h : cmpxchgQword.Does doubleAccess x y m m') :
    Acts k e .cmpxchg i s y m m' := by
  have hloop : cmpxchgQword.loop = cmpxchgWholeLoop [] := rfl
  have hentered (r : Reg) (hmasked : r ≠ .masked) : cmpxchgQword.entered x r = x r := by
    change Function.update x .masked (x .address &&& 7) r = x r
    exact Function.update_of_ne hmasked _ _
  refine acts_cmpxchgWhole hop0 hop1 hzacas (.inr hwidth) hloop rfl rfl (fun r _ _ ↦ hentered r)
    (fun _ _ ↦ ?_) (fun r hr ↦ absurd hr List.not_mem_nil) ?_ ?_ hx h
  all_goals
    rw [hwidth]
    rfl

/-! ## Split accesses -/

theorem exists_ne_ne (u v : ℕ) : ∃ w : U64, w.toNat < 2 ^ 16 ∧ w.toNat ≠ u ∧ w.toNat ≠ v := by
  obtain ⟨n, hn, hu, hv⟩ : ∃ n < 3, n ≠ u ∧ n ≠ v := by
    by_contra hall
    have h (n : ℕ) (hn : n < 3) : n ≠ u → n = v :=
      fun hne ↦ by_contra fun hv ↦ hall ⟨n, hn, hne, hv⟩
    have h0 := h 0
    have h1 := h 1
    have h2 := h 2
    omega
  have htoNat : (BitVec.ofNat 64 n).toNat = n := by
    rw [BitVec.toNat_ofNat, Nat.mod_eq_of_lt (by omega)]
  exact ⟨BitVec.ofNat 64 n, by omega, htoNat.trans_ne hu, htoNat.trans_ne hv⟩

/-- Another thread writes between the read and the write of `XCHG`: what it wrote is lost. -/
theorem xchgWord_torn {o : MemOperand} {ref : Ref} (hop0 : i.op0 = .mem o .word)
    (hop1 : i.op1 = .reg ref .word) (hzabha : k.zabha = false) (hout : x .address &&& 3 = 3)
    (hx : Entered k i s x) (r : Option U64) (m : Mem) :
    Torn wordAccess xchgWord ⟨xchgWord.start, x, r, m⟩ (Acts k e .xchg i s) := by
  obtain ⟨w, hw, hold, hsrc⟩ :=
    exists_ne_ne ((m.load (x .address) 2).toNat % 2 ^ 16) ((x .src).toNat % 2 ^ 16)
  obtain ⟨m₁, hread⟩ : ∃ m₁ : Mem, (m₁.load (x .address) 2).toNat = w.toNat :=
    ⟨m.store (x .address) w 2, by
      rw [Mem.toNat_load_store _ _ _ (by decide), Nat.mod_eq_of_lt hw]⟩
  have hne : m₁.store (x .address) (x .src) 2 ≠ m₁ := by
    intro heq
    have hstored := Mem.toNat_load_store m₁ (x .address) (x .src) (n := 2) (by decide)
    rw [heq, hread] at hstored
    exact hsrc hstored
  have htaken : xchgWordElsewhere.taken (runOps xchgWord.checks x) := add_neg_eq_zero.mpr hout
  obtain ⟨y, hy, tr, t, hsteps, ht, htx, hin⟩ : ∃ y : Reg → U64, y .dst = m.load (x .address) 2 ∧
      Ends wordAccess xchgWord.code ⟨xchgWord.start, x, r, m⟩ y
        [.own m₁ (m₁.store (x .address) (x .src) 2)] :=
    ⟨_, rfl, Program.ends_elsewhere rfl htaken (.own (.load ..) (.disturbed m₁
      (.event (.store ..) (.own (.op ..) (.nil ..)))))⟩
  refine ⟨tr, t, hsteps, ht, fun honce ↦ ?_⟩
  have hacts := honce.effect_of_mem (hin (List.mem_singleton_self _)) hne
  simp only [Acts, fastXchg, xchgLock, hop0, hop1, hzabha, lea_withMem, ← hx.address _ _ hop0, hout,
    Bool.false_eq_true, if_false, if_true, htx, hy] at hacts
  have hmerge := congrArg (fun c : Core ρ ↦ (c.gpr ref).toNat) hacts
  simp only [Config.set, Config.setRef, Core.write, Function.update_self,
    k.toNat_merge_word] at hmerge
  have hupper : (Config.writeMemory (x .address)
    (k.get i (.reg ref .word) (withMem m₁ s.core)) .word
      (withMem m₁ s.core)).gpr ref = s.core.gpr ref := rfl
  have hupper' : (withMem (m₁.store (x .address) (x .src) 2) s.core).gpr ref = s.core.gpr ref := rfl
  have hlow : ((withMem m₁ s.core).mem.load (x .address) 2).toNat = w.toNat := hread
  rw [hupper, hupper', hlow, Nat.mod_eq_of_lt hw] at hmerge
  exact hold (Nat.add_left_cancel hmerge)

theorem mem_cmpxchgRest (y : Reg → U64) (s : State ρ) :
    (cmpxchgRest k e i y s).core.mem = s.core.mem := by
  rw [cmpxchgRest]
  split
  · rw [core_setCmpFlags]
  · rw [State.map, Config.setRef, Core.write, core_setCmpFlags]

/-- `CMPXCHG` of a value that is not there writes nothing. -/
theorem mem_fastCmpxchg {o : MemOperand} {size : Size} {s' : State ρ} (hop0 : i.op0 = .mem o size)
    (hwidth : i.width = .qword)
    (hne : s.core.mem.load (k.lea i o true s.core) 8 ≠ k.getRef Jit.rax .qword s.core)
    (h : fastCmpxchg k i e s = some s') : s'.core.mem = s.core.mem := by
  have hcas : casWhole (k.lea i o true s.core) (k.get i i.op1 s.core)
    (k.getRef Jit.rax .qword s.core)
      .qword s.core = (s.core.mem.load (k.lea i o true s.core) 8, s.core) :=
    congrArg (Prod.mk _) (if_neg hne)
  simp only [fastCmpxchg, cmpxchgLock, hop0, hwidth, hcas, Option.some.injEq] at h
  rw [← h]
  split
  · rw [core_setCmpFlags]
  · rw [State.map, Config.setRef, Core.write, core_setCmpFlags]

theorem aligned_mask_qword (a : U64) : (a &&& ~~~(7 : U64)) &&& 7 = 0 := by
  rw [BitVec.and_assoc, show ~~~(7 : U64) &&& 7 = 0#64 by decide, BitVec.and_zero]
  rfl

/-- The code from `start_unaligned` on, if what is read is what is compared, and another thread
writes between the `SC.D` and the write of the operand. -/
theorem ends_cmpxchgQwordRetry {z : Reg → U64} {m₀ : Mem} (m₁ : Mem)
    (haligned : z .masked &&& 7 = 0)
    (hsame : m₀.load (z .address) 8 = z .rax) (r : Option U64) :
    ∃ y, Ends doubleAccess cmpxchgQword.code ⟨cmpxchgQwordRetry, z, r, m₀⟩ y
      [.own m₁ (m₁.store (z .address) (z .src) 8)] := by
  have hstore {y : Reg → U64} (haddress : y .address = z .address) (hsrc : y .src = z .src) :
      Ends doubleAccess cmpxchgQword.code
        ⟨[.store (fun a v m ↦ m.store a v 8) .src .address], y, none, m₁⟩ y
        [.own m₁ (m₁.store (z .address) (z .src) 8)] := by
    rw [← haddress, ← hsrc]
    exact .event (.store ..) (.nil ..)
  refine ⟨_, .own (.load ..)
    (.own (.lr _ _ _ _ haligned) (.own (.through _ _ _ _ (not_not.mpr hsame))
    (.own (.scDone _ _ _ _ rfl) (.own (.through _ _ _ _ (not_not.mpr rfl))
      (.disturbed m₁ (hstore rfl rfl))))))⟩

/-- Another thread writes between the `SC.D` and the write of `CMPXCHG`: what it wrote is lost,
although it is not what was compared. -/
theorem cmpxchgQword_torn {o : MemOperand} {size : Size} (hop0 : i.op0 = .mem o size)
    (hwidth : i.width = .qword) (hout : ¬x .address &&& 7 = 0) (hx : Entered k i s x)
    (r : Option U64)
    (m : Mem) :
    Torn doubleAccess cmpxchgQword ⟨cmpxchgQword.start, x, r, m⟩ (Acts k e .cmpxchg i s) := by
  have hstored (m : Mem) (v : U64) : (m.store (x .address) v 8).load (x .address) 8 = v := by
    apply BitVec.eq_of_toNat_eq
    rw [Mem.toNat_load_store _ _ _ le_rfl]
    exact Nat.mod_eq_of_lt v.isLt
  obtain ⟨w, -, hrax, hsrc⟩ := exists_ne_ne (x .rax).toNat (x .src).toNat
  -- the others first write what is compared, and then something that is neither that nor the new
  -- value
  obtain ⟨m₀, hm₀⟩ : ∃ m₀ : Mem, m₀.load (x .address) 8 = x .rax := ⟨_, hstored m _⟩
  obtain ⟨m₁, hm₁⟩ : ∃ m₁ : Mem, m₁.load (x .address) 8 = w := ⟨_, hstored m _⟩
  have hne : m₁.store (x .address) (x .src) 8 ≠ m₁ := by
    intro heq
    have hread := hstored m₁ (x .src)
    rw [heq, hm₁] at hread
    exact hsrc (congrArg BitVec.toNat hread)
  obtain ⟨y, hends⟩ := ends_cmpxchgQwordRetry (z := Function.update (runOps cmpxchgQword.checks x)
    .masked (x .address &&& ~~~(7 : U64))) m₁ (aligned_mask_qword _) hm₀ none
  obtain ⟨tr, t, hsteps, ht, -, hin⟩ : Ends doubleAccess cmpxchgQword.code
      ⟨cmpxchgQword.start, x, r, m⟩ y [.own m₁ (m₁.store (x .address) (x .src) 8)] :=
    .disturbed m₀ (Program.ends_elsewhere rfl hout (.own (.op ..) hends))
  refine ⟨tr, t, hsteps, ht, fun honce ↦ ?_⟩
  have hacts : fastCmpxchg k i e ⟨withMem m₁ s.core, s.flag⟩ = some _ :=
    honce.effect_of_mem (hin (List.mem_singleton_self _)) hne
  have hread : m₁.load (k.lea i o true s.core) 8 = w := by
    rw [← hx.address _ _ hop0]
    exact hm₁
  have hentry := hx.rax
  rw [hwidth] at hentry
  have hother : m₁.load (k.lea i o true s.core) 8 ≠ k.getRef Jit.rax .qword s.core := fun heq ↦
    hrax (congrArg BitVec.toNat (hread.symm.trans (heq.trans hentry.symm)))
  have hmem := mem_fastCmpxchg (s := ⟨withMem m₁ s.core, s.flag⟩) hop0 hwidth hother hacts
  rw [mem_cmpxchgRest] at hmem
  exact hne hmem

/-! ## All loops -/

/-- **Locked instructions are atomic.** The second operand of `XCHG` is a register of the first
one's size. -/
theorem lockedLoop_atomic {mnemonic : Mnemonic ρ} {i : Insn} {A : Access U64 Mem} {p : Code}
    (h : lockedLoop k mnemonic i = some (A, p)) (hop1 : i.op1.isMem = false)
    (hreg : mnemonic = .xchg → ∃ r size, i.op1 = .reg r size ∧ size.bits = i.op0.size.bits)
    (s : State ρ) {x : Reg → U64} (hx : Entered k i s x) :
    Atomically A p x (Placed (operandSize mnemonic i) (x .address)) (Splits mnemonic i)
      (Acts k e mnemonic i s) := by
  unfold lockedLoop at h
  split at h
  case h_1 o hop0 =>
    obtain ⟨hzabha, rfl, rfl⟩ : k.zabha = false ∧ wordAccess = A ∧ addByte = p := by simpa using h
    change Atomically _ _ _ (Placed i.op0.size _) _ _
    rw [hop0]
    exact .of_aligned (by decide) rfl (iff_of_true (aligned_mask _) trivial) id
      fun _ _ _ _ ↦ acts_addByte hop0 hzabha hx
  case h_2 o hop0 =>
    obtain ⟨hzabha, rfl, rfl⟩ : k.zabha = false ∧ wordAccess = A ∧ addWord k = p := by simpa using h
    change Atomically _ _ _ (Placed i.op0.size _) _ _
    rw [hop0]
    exact .of_trap (show Reg.masked ∉ addLoop.dests by decide) rfl rfl Iff.rfl (aligned_mask _) id
      fun hplaced _ _ _ ↦ acts_addWord hop0 hzabha hplaced hx
  case h_3 o hop0 =>
    obtain ⟨hzabha, rfl, rfl⟩ : k.zabha = false ∧ wordAccess = A ∧ xchgByte = p := by simpa using h
    change Atomically _ _ _ (Placed i.op0.size _) (i.op0.size = .word) _
    rw [hop0]
    exact .of_aligned (by decide) rfl (iff_of_true (aligned_mask _) trivial)
      (show Size.byte ≠ .word by decide) fun _ _ _ _ ↦ acts_xchgByte hop0 hop1 hzabha hx
  case h_4 o hop0 =>
    obtain ⟨hzabha, rfl, rfl⟩ : k.zabha = false ∧ wordAccess = A ∧ xchgWord = p := by simpa using h
    obtain ⟨ref, size, hregister, hbits⟩ := hreg rfl
    rw [hop0] at hbits
    obtain rfl : size = .word := by cases size <;> first | rfl | cases hbits
    change Atomically _ _ _ (Placed i.op0.size _) (i.op0.size = .word) _
    rw [hop0]
    refine .of_does (by decide) (fun hplaced f hf ↦ ?_) (fun _ ↦ aligned_mask _)
      (fun hplaced _ _ _ ↦ acts_xchgWord hop0 hop1 hzabha hplaced hx) (fun _ h ↦ absurd rfl h)
      fun hout _ r m ↦ xchgWord_torn hop0 hregister hzabha (not_not.mp hout) hx r m
    cases hf
    exact fun htaken ↦ hplaced (add_neg_eq_zero.mp htaken)
  case h_5 o size hop0 =>
    change Atomically _ _ _ (Placed i.width _) (i.width = .qword) _
    split at h
    case h_1 hwidth =>
      obtain ⟨hzacas, rfl, rfl⟩ :
          (k.zacas && k.zabha) = false ∧ wordAccess = A ∧ cmpxchgByte = p := by
        rw [Bool.eq_false_iff]
        simpa only [Option.ite_none_left_eq_some, Option.some.injEq, Prod.mk.injEq] using h
      rw [hwidth]
      exact .of_aligned (by decide) rfl (iff_of_true (aligned_mask _) trivial) (by decide)
        fun _ _ _ _ ↦ acts_cmpxchgByte hop0 hop1 hwidth hzacas hx
    case h_2 hwidth =>
      cases h
      rw [hwidth]
      exact .of_trap (by decide) rfl rfl Iff.rfl (aligned_mask _) (by decide)
        fun hplaced _ _ _ ↦ acts_cmpxchgWord hop0 hop1 hwidth hplaced hx
    case h_3 hwidth =>
      obtain ⟨hzacas, rfl, rfl⟩ : k.zacas = false ∧ wordAccess = A ∧ cmpxchgDword k = p := by
        simpa using h
      rw [hwidth]
      have haddress : (cmpxchgDword k).loop.address ∉ (cmpxchgDword k).loop.dests := by
        simp [Loop.dests, cmpxchgDword, cmpxchgWholeLoop]
      exact .of_aligned haddress rfl Iff.rfl (by decide)
        fun _ _ _ _ ↦ acts_cmpxchgDword hop0 hop1 hzacas hwidth hx
    case h_4 hwidth =>
      obtain ⟨hzacas, rfl, rfl⟩ : k.zacas = false ∧ doubleAccess = A ∧ cmpxchgQword = p := by
        simpa using h
      have htorn (hout : ¬x .address &&& 7 = 0) := cmpxchgQword_torn (e := e) hop0 hwidth hout hx
      rw [hwidth]
      refine .of_does (by decide) (fun hplaced f hf ↦ ?_) id
        (fun _ _ _ _ ↦ acts_cmpxchgQword hop0 hop1 hzacas hwidth hx) (fun _ h ↦ absurd rfl h)
        fun hout _ ↦ htorn hout
      cases hf
      exact not_not.mpr hplaced
    case h_5 => cases h
  case h_6 o size hop0 =>
    obtain ⟨rfl, rfl⟩ : doubleAccess = A ∧ cmpxchg8b k = p := by simpa using h
    exact .of_aligned (show Reg.address ∉ cmpxchg8bLoop.dests by decide) rfl Iff.rfl id
      fun _ _ _ _ ↦ acts_cmpxchg8b hop0 hx
  case h_7 => cases h

end

/-- `LOCK CMPXCHG [RDI], RSI`. -/
def lockCmpxchg : Insn :=
  ⟨0x401000, 0, 5, .qword, .qword, true, false, .none,
    .mem ⟨.reg rdi .qword, none, 0, 0, .ds⟩ .qword, .reg rsi .qword, .imm 0 .byte⟩

/-- `RDI` points to a quadword that is the 5 in `RAX`, and `RSI` is 7. -/
def exchanging (a : U64) : State Unit :=
  State.zero.map fun c ↦
    (({ c with mem := c.mem.store a 5 8 }.write rdi a).write rax 5).write rsi 7

/-- The host registers of `exchanging`. -/
def exchangingRegs (a : U64) : Reg → U64
  | .address => a
  | .src => 7
  | .rax | .eax => 5
  | _ => 0

theorem entered_exchanging (a : U64) :
    Entered (Config.default false) lockCmpxchg (exchanging a) (exchangingRegs a) where
  address o size h := by
    injection h with ho
    rw [← ho]
    change a = (0 : U64) + a + (0 : U64) <<< 0
    exact ((BitVec.add_zero _).trans (BitVec.zero_add a)).symm
  src := rfl
  rax := rfl
  eax := rfl
  edx := rfl
  ebx := rfl
  ecx := rfl
  cf := rfl
  zf := rfl
  sf := rfl

/-- The exchange is done at once at `0x10000`, and not always at `0x10004`. -/
theorem lockedLoop_atomic_cmpxchg :
    (∀ {tr r t}, Steps doubleAccess cmpxchgQword.code tr
        ⟨cmpxchgQword.start, exchangingRegs 0x10000, r, (exchanging 0x10000).core.mem⟩ t →
          t.rest = [] →
        Once (Acts (Config.default false) (fun _ ↦ true) .cmpxchg lockCmpxchg
          (exchanging 0x10000) t.x)
          tr) ∧
      Torn doubleAccess cmpxchgQword
        ⟨cmpxchgQword.start, exchangingRegs 0x10004, none, (exchanging 0x10004).core.mem⟩
        (Acts (Config.default false) (fun _ ↦ true) .cmpxchg lockCmpxchg (exchanging 0x10004)) := by
  have hloop : lockedLoop (Config.default false) (.cmpxchg : Mnemonic Unit) lockCmpxchg =
      some (doubleAccess, cmpxchgQword) := rfl
  have hatomic (a : U64) := lockedLoop_atomic (e := fun _ ↦ true) hloop rfl (fun h ↦ by cases h)
    (exchanging a) (entered_exchanging a)
  have hplaced : (0x10000 : U64) &&& 7 = 0 := by decide
  have hout : ¬(0x10004 : U64) &&& 7 = 0 := by decide
  exact ⟨(hatomic 0x10000).once hplaced, (hatomic 0x10004).torn hout rfl none _⟩

end AtomicLoops

end Jit

end Felix86
