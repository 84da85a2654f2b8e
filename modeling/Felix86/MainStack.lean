import Mathlib.Tactic.Ring
import Felix86.Lib.PushDown

/-!
# The stack a program starts with

The strings come first, from the top of the stack down. Below them are the random bytes and, with
what it takes to end up on a multiple of 16, the table of the argument count, the pointers and the
auxiliary vector. A store below the stack is not modelled: the stack is not set up then.
-/

namespace Felix86

namespace Emulator

open PushDown

/-! ## Strings -/

/-- A string of C, without the zero that ends it. -/
structure CString where
  bytes : List (BitVec 8)
  noNul : 0#8 ∉ bytes

/-- What `strcpy` copies. -/
def CString.stored (s : CString) : List (BitVec 8) := s.bytes ++ [0]

def asciiBytes (s : String) : List (BitVec 8) := s.toList.map fun c ↦ BitVec.ofNat 8 c.toNat

def x86String : CString := ⟨asciiBytes "i686", by decide⟩

def x8664String : CString := ⟨asciiBytes "x86_64", by decide⟩

def platformString (gMode32 : Bool) : CString := if gMode32 then x86String else x8664String

/-! ## The auxiliary vector -/

/-- What the auxiliary vector says about the program. -/
structure Elf where
  entrypoint : ℕ
  programBase : ℕ
  phdr : ℕ
  phent : ℕ
  phnum : ℕ

def atNull : ℕ := 0
def atPhdr : ℕ := 3
def atPhent : ℕ := 4
def atPhnum : ℕ := 5
def atPagesz : ℕ := 6
def atBase : ℕ := 7
def atFlags : ℕ := 8
def atEntry : ℕ := 9
def atUid : ℕ := 11
def atEuid : ℕ := 12
def atGid : ℕ := 13
def atEgid : ℕ := 14
def atPlatform : ℕ := 15
def atHwcap : ℕ := 16
def atClktck : ℕ := 17
def atSecure : ℕ := 23
def atRandom : ℕ := 25
def atExecfn : ℕ := 31

def auxvEntries (elf : Elf) (programName platformName randAddress : ℕ) : List (ℕ × ℕ) :=
  [(atPagesz, 4096),
    (atExecfn, programName),
    (atClktck, 100),
    (atEntry, elf.entrypoint),
    (atPlatform, platformName),
    (atBase, elf.programBase),
    (atFlags, 0),
    (atUid, 1000),
    (atEuid, 1000),
    (atGid, 1000),
    (atEgid, 1000),
    (atSecure, 0),
    (atPhdr, elf.phdr),
    (atPhent, elf.phent),
    (atPhnum, elf.phnum),
    (atRandom, randAddress),
    (atHwcap, 0xbfebfbff),
    (atNull, 0)]

/-! ## Pushes -/

def pointerSize (gMode32 : Bool) : ℕ := if gMode32 then 4 else 8

/-- `stack_push64` and `stack_push32`. -/
def stackPush (bottom : ℕ) (gMode32 : Bool) (value : ℕ) : PushDown → Option PushDown :=
  push bottom (Buffer.ofNat (pointerSize gMode32) value)

/-- `stack_push_string`. -/
def stackPushString (bottom : ℕ) (s : CString) : PushDown → Option PushDown := push bottom s.stored

/-- The loops that push strings, which keep their addresses. -/
def pushStrings (bottom : ℕ) (strings : List CString) : PushDown → Option (List ℕ × PushDown) :=
  pushAll bottom (strings.map CString.stored)

/-- The loops over a table, from its end to its start. -/
def pushTable (bottom : ℕ) (gMode32 : Bool) (values : List ℕ) (s : PushDown) : Option PushDown :=
  (pushAll bottom (values.reverse.map (Buffer.ofNat (pointerSize gMode32))) s).map Prod.snd

/-! ## `setupMainStack` -/

/-- Where the strings and the random bytes are. -/
structure Addresses where
  programName : ℕ
  platformName : ℕ
  argv : List ℕ
  envp : List ℕ
  rand : ℕ

/-- The strings, and the random bytes on a multiple of 16 below them. -/
def pushStringsAndRandom (gMode32 : Bool) (bottom : ℕ) (argv envp : List CString)
    (getrandom : Option (List (BitVec 8))) (s : PushDown) : Option (Addresses × PushDown) := do
  let path ← argv.head?
  let s ← stackPushString bottom path s
  let programName := s.pointer
  let s ← stackPushString bottom (platformString gMode32) s
  let platformName := s.pointer
  let (argvAddresses, s) ← pushStrings bottom argv s
  let (envpAddresses, s) ← pushStrings bottom envp s
  let s := s.lower (s.pointer % 16)
  let s ← stackPush bottom false 0 s
  let s ← stackPush bottom false 0 s
  let randAddress := s.pointer
  let random ← getrandom
  if random.length = 16 then
    some (⟨programName, platformName, argvAddresses, envpAddresses, randAddress⟩,
      { s with mem := s.mem.write randAddress random })
  else none

/-- The bytes of the table, in a `u16`. -/
def sizeNeeded (gMode32 : Bool) (argc envc auxvCount : ℕ) : ℕ :=
  let pointerSize := pointerSize gMode32
  (2 * pointerSize * auxvCount + pointerSize + envc * pointerSize + pointerSize +
    argc * pointerSize +
    pointerSize) % 2 ^ 16

/-- The table, and where the auxiliary vector in it starts. -/
def pushTables (gMode32 : Bool) (bottom : ℕ) (entries : List (ℕ × ℕ))
    (argvAddresses envpAddresses : List ℕ) (s : PushDown) : Option (ℕ × PushDown) := do
  let s ← pushTable bottom gMode32 (entries.flatMap fun e ↦ [e.1, e.2]) s
  let guestAuxv := s.pointer
  let s ← stackPush bottom gMode32 0 s
  let s ← pushTable bottom gMode32 envpAddresses s
  let s ← stackPush bottom gMode32 0 s
  let s ← pushTable bottom gMode32 argvAddresses s
  let s ← stackPush bottom gMode32 argvAddresses.length s
  some (guestAuxv, s)

/-- What is set up: the guest's `RSP`, the contents of the stack, and where the auxiliary vector
is. -/
structure MainStack where
  rsp : ℕ
  mem : Buffer
  guestAuxv : ℕ
  guestAuxvSize : ℕ

/-- `Emulator::setupMainStack`, on a stack from `bottom` to `top`. `none` is an `ERROR`. -/
def setupMainStack (gMode32 : Bool) (bottom top : ℕ) (mem : Buffer) (argv envp : List CString)
    (elf : Elf) (getrandom : Option (List (BitVec 8))) : Option MainStack := do
  let (a, s) ← pushStringsAndRandom gMode32 bottom argv envp getrandom ⟨top, mem⟩
  let entries := auxvEntries elf a.programName a.platformName a.rand
  let sizeNeeded := sizeNeeded gMode32 argv.length envp.length entries.length
  let s := if sizeNeeded % 16 ≠ 0 then s.lower (16 - sizeNeeded % 16) else s
  let finalRsp := s.pointer - sizeNeeded
  let (guestAuxv, s) ← pushTables gMode32 bottom entries a.argv a.envp s
  if s.pointer = finalRsp ∧ s.pointer % 16 = 0 then
    some {
      rsp := s.pointer
      mem := s.mem
      guestAuxv := guestAuxv
      guestAuxvSize := entries.length * pointerSize gMode32 }
  else none

/-! ## The layout -/

/-- The words of the table, from the argument count to the end of the auxiliary vector. -/
def tableWords (entries : List (ℕ × ℕ)) (argvAddresses envpAddresses : List ℕ) : List ℕ :=
  argvAddresses.length :: (argvAddresses ++ 0 :: (envpAddresses ++ 0 ::
    entries.flatMap fun e ↦ [e.1, e.2]))

def Addresses.words (a : Addresses) (elf : Elf) : List ℕ :=
  tableWords (auxvEntries elf a.programName a.platformName a.rand) a.argv a.envp

/-- The blocks above the table, from the lowest on. -/
def Addresses.above (a : Addresses) (gMode32 : Bool) (path : CString) (argv envp : List CString)
    (random : List (BitVec 8)) : List (ℕ × List (BitVec 8)) :=
  (a.rand, random) :: ((a.envp.zip (envp.map CString.stored)).reverse ++
    ((a.argv.zip (argv.map CString.stored)).reverse ++
      [(a.platformName, (platformString gMode32).stored), (a.programName, path.stored)]))

/-- The bytes of the table. -/
def tableBytes (gMode32 : Bool) (values : List ℕ) : List (BitVec 8) :=
  (values.map (Buffer.ofNat (pointerSize gMode32))).flatten

section

variable {gMode32 : Bool} {bottom top : ℕ} {s s' : PushDown} {argv envp : List CString}
  {path : CString} {elf : Elf} {random : List (BitVec 8)} {a : Addresses}

theorem length_tableBytes (values : List ℕ) :
    (tableBytes gMode32 values).length = pointerSize gMode32 * values.length := by
  induction values with
  | nil => rfl
  | cons v values ih =>
    rw [tableBytes] at ih ⊢
    rw [List.map_cons, List.flatten_cons, List.length_append, ih, Buffer.length_ofNat,
      List.length_cons, Nat.mul_succ, Nat.add_comm]

theorem tableBytes_append (values values' : List ℕ) :
    tableBytes gMode32 (values ++ values') = tableBytes gMode32 values ++
        tableBytes gMode32 values' := by
  rw [tableBytes, List.map_append, List.flatten_append]
  rfl

theorem tableBytes_cons (v : ℕ) (values : List ℕ) :
    tableBytes gMode32 (v :: values) =
      Buffer.ofNat (pointerSize gMode32) v ++ tableBytes gMode32 values := by
  rw [tableBytes, List.map_cons, List.flatten_cons]
  rfl

theorem size_table (values : List ℕ) :
    PushDown.size (values.reverse.map (Buffer.ofNat (pointerSize gMode32))) =
      pointerSize gMode32 * values.length := by
  rw [List.map_reverse, PushDown.size_reverse]
  induction values with
  | nil => rfl
  | cons v values ih =>
    rw [List.map_cons, PushDown.size_cons, ih, Buffer.length_ofNat, List.length_cons, Nat.mul_succ,
      Nat.add_comm]

/-- A table from its end to its start is one block. -/
theorem push_of_pushTable {values : List ℕ} (hbottom : bottom ≤ s.pointer)
    (h : pushTable bottom gMode32 values s = some s') :
    push bottom (tableBytes gMode32 values) s = some s' := by
  obtain ⟨p, hp, rfl⟩ := Option.map_eq_some_iff.mp h
  have hpush := push_of_pushAll hbottom hp
  rwa [List.map_reverse, List.reverse_reverse] at hpush

theorem exists_pushTable {values : List ℕ}
    (h : bottom + pointerSize gMode32 * values.length ≤ s.pointer) :
    ∃ s', pushTable bottom gMode32 values s = some s' ∧
      s'.pointer = s.pointer - pointerSize gMode32 * values.length := by
  rw [← size_table] at h ⊢
  obtain ⟨addresses, s', hall, hpointer⟩ := exists_pushAll h
  exact ⟨s', by rw [pushTable, hall]; rfl, hpointer⟩

end

section

variable {gMode32 : Bool} {bottom top : ℕ} {s s' : PushDown} {entries : List (ℕ × ℕ)}
  {argvAddresses envpAddresses : List ℕ} {guestAuxv : ℕ}

theorem length_entries (entries : List (ℕ × ℕ)) :
    (entries.flatMap fun e ↦ [e.1, e.2]).length = 2 * entries.length := by
  induction entries with
  | nil => rfl
  | cons e entries ih =>
    rw [List.flatMap_cons, List.length_append, ih, List.length_cons]
    simp only [List.length_cons, List.length_nil]
    omega

theorem length_tableWords :
    (tableWords entries argvAddresses envpAddresses).length =
      argvAddresses.length + envpAddresses.length + 3 + 2 * entries.length := by
  simp only [tableWords, List.length_cons, List.length_append, length_entries]
  omega

/-- The pushes of the table are the push of one block. -/
theorem push_of_pushTables
    (h : pushTables gMode32 bottom entries argvAddresses envpAddresses s = some (guestAuxv, s')) :
    push bottom (tableBytes gMode32 (tableWords entries argvAddresses envpAddresses)) s =
        some s' := by
  obtain ⟨s₁, h₁, h⟩ := Option.bind_eq_some_iff.mp h
  obtain ⟨s₂, h₂, h⟩ := Option.bind_eq_some_iff.mp h
  obtain ⟨s₃, h₃, h⟩ := Option.bind_eq_some_iff.mp h
  obtain ⟨s₄, h₄, h⟩ := Option.bind_eq_some_iff.mp h
  obtain ⟨s₅, h₅, h⟩ := Option.bind_eq_some_iff.mp h
  obtain ⟨s₆, h₆, h⟩ := Option.bind_eq_some_iff.mp h
  cases h
  have hfit {bytes : List (BitVec 8)} {s s' : PushDown} (h : push bottom bytes s = some s') :
      bottom ≤ s'.pointer := by
    obtain ⟨hfit, hpointer, -⟩ := push_eq_some h
    omega
  have hbottom : bottom ≤ s.pointer := by
    obtain ⟨p, hp, rfl⟩ := Option.map_eq_some_iff.mp h₁
    have hle := pointer_le_of_pushAll hp
    have hzero := (push_eq_some h₂).1
    omega
  have p₁ := push_of_pushTable hbottom h₁
  have p₂ := push_push p₁ h₂
  have p₃ := push_push p₂ (push_of_pushTable (hfit p₂) h₃)
  have p₄ := push_push p₃ h₄
  have p₅ := push_push p₄ (push_of_pushTable (hfit p₄) h₅)
  have p₆ := push_push p₅ h₆
  rwa [tableWords, tableBytes_cons, tableBytes_append, tableBytes_cons, tableBytes_append,
    tableBytes_cons]

theorem exists_pushTables
    (h : bottom + pointerSize gMode32 *
      (argvAddresses.length + envpAddresses.length + 3 + 2 * entries.length) ≤ s.pointer) :
    ∃ guestAuxv s', pushTables gMode32 bottom entries argvAddresses envpAddresses s =
      some (guestAuxv, s') := by
  have hentries := length_entries entries
  have hsplit : pointerSize gMode32 *
        (argvAddresses.length + envpAddresses.length + 3 + 2 * entries.length) =
      pointerSize gMode32 * argvAddresses.length + pointerSize gMode32 * envpAddresses.length +
        pointerSize gMode32 * (entries.flatMap fun e ↦ [e.1, e.2]).length +
        3 * pointerSize gMode32 := by
    rw [hentries]
    ring
  have hword (v : ℕ) : (Buffer.ofNat (pointerSize gMode32) v).length = pointerSize gMode32 :=
    Buffer.length_ofNat _ _
  rw [hsplit] at h
  have hstep {s : PushDown} (v : ℕ) (h : bottom + pointerSize gMode32 ≤ s.pointer) :
      ∃ s', stackPush bottom gMode32 v s = some s' ∧ s'.pointer =
          s.pointer - pointerSize gMode32 := by
    rw [← hword v] at h
    obtain ⟨s', hpush, hpointer⟩ := exists_push h
    exact ⟨s', hpush, hpointer.trans (by rw [hword])⟩
  obtain ⟨s₁, h₁, p₁⟩ := @exists_pushTable gMode32 bottom s (entries.flatMap fun e ↦ [e.1, e.2])
    (by omega)
  obtain ⟨s₂, h₂, p₂⟩ := @hstep s₁ 0 (by omega)
  obtain ⟨s₃, h₃, p₃⟩ := @exists_pushTable gMode32 bottom s₂ envpAddresses (by omega)
  obtain ⟨s₄, h₄, p₄⟩ := @hstep s₃ 0 (by omega)
  obtain ⟨s₅, h₅, p₅⟩ := @exists_pushTable gMode32 bottom s₄ argvAddresses (by omega)
  obtain ⟨s₆, h₆, p₆⟩ := @hstep s₅ argvAddresses.length (by omega)
  refine ⟨s₁.pointer, s₆, ?_⟩
  simp only [pushTables, h₁, h₂, h₃, h₄, h₅, h₆, Option.bind_eq_bind, Option.bind_some]

end

section

variable {gMode32 : Bool} {bottom top : ℕ} {s s' : PushDown} {argv envp : List CString}
  {path : CString} {random : List (BitVec 8)} {a : Addresses}

/-- What the strings take. -/
def stringsSize (gMode32 : Bool) (path : CString) (argv envp : List CString) : ℕ :=
  path.stored.length + (platformString gMode32).stored.length +
    PushDown.size (argv.map CString.stored) + PushDown.size (envp.map CString.stored)

/-- Everything above the table is laid out, with the random bytes at the lowest address. -/
theorem pushStringsAndRandom_eq_some (hargv : argv.head? = some path) (hrandom : random.length = 16)
    (h : pushStringsAndRandom gMode32 bottom argv envp (some random) s = some (a, s')) :
    let above := stringsSize gMode32 path argv envp
    Laid s.pointer s' (a.above gMode32 path argv envp random) ∧ a.rand = s'.pointer ∧
      a.argv.length = argv.length ∧ a.envp.length = envp.length ∧ s'.pointer % 16 = 0 ∧
      bottom + (above + (s.pointer - above) % 16 + 16) ≤ s.pointer ∧
      s'.pointer = s.pointer - (above + (s.pointer - above) % 16 + 16) := by
  intro above
  rw [pushStringsAndRandom, hargv] at h
  simp only [Option.bind_eq_bind, Option.bind_some, hrandom, if_true] at h
  obtain ⟨s₁, h₁, h⟩ := Option.bind_eq_some_iff.mp h
  obtain ⟨s₂, h₂, h⟩ := Option.bind_eq_some_iff.mp h
  obtain ⟨⟨argvAddresses, s₃⟩, h₃, h⟩ := Option.bind_eq_some_iff.mp h
  obtain ⟨⟨envpAddresses, s₄⟩, h₄, h⟩ := Option.bind_eq_some_iff.mp h
  obtain ⟨s₅, h₅, h⟩ := Option.bind_eq_some_iff.mp h
  obtain ⟨s₆, h₆, h⟩ := Option.bind_eq_some_iff.mp h
  cases h
  simp only at h₃ h₄ h₅ h₆
  obtain ⟨f₁, p₁, -⟩ := push_eq_some h₁
  obtain ⟨f₂, p₂, -⟩ := push_eq_some h₂
  obtain ⟨f₃, p₃, l₃⟩ := pushAll_eq_some (by omega) h₃
  obtain ⟨f₄, p₄, l₄⟩ := pushAll_eq_some (by omega) h₄
  obtain ⟨f₅, p₅, -⟩ := push_eq_some h₅
  obtain ⟨f₆, p₆, -⟩ := push_eq_some h₆
  have hword : (Buffer.ofNat (pointerSize false) 0).length = 8 := rfl
  simp only [PushDown.lower, hword] at f₅ p₅ f₆ p₆
  have habove : above = path.stored.length + (platformString gMode32).stored.length +
      PushDown.size (argv.map CString.stored) + PushDown.size (envp.map CString.stored) := rfl
  have hpointer : s₄.pointer = s.pointer - above := by omega
  rw [List.length_map] at l₃ l₄
  have hlaid := ((((laid_nil le_rfl).push h₁).push h₂).pushAll h₃).pushAll h₄
  -- the two zeros are one block, and the random bytes take its place
  have hzeros := (hlaid.lower (s₄.pointer % 16)).push (push_push h₅ h₆)
  have hrand := hzeros.replace (show random.length = _ from hrandom)
  exact ⟨hrand, rfl, l₃, l₄, by simp only; omega, by omega, by simp only; omega⟩

theorem exists_pushStringsAndRandom (hargv : argv.head? = some path) (hrandom : random.length = 16)
    (h : bottom + (stringsSize gMode32 path argv envp +
      (s.pointer - stringsSize gMode32 path argv envp) % 16 + 16) ≤ s.pointer) :
    ∃ a s', pushStringsAndRandom gMode32 bottom argv envp (some random) s = some (a, s') := by
  have habove : stringsSize gMode32 path argv envp =
      path.stored.length + (platformString gMode32).stored.length +
        PushDown.size (argv.map CString.stored) + PushDown.size (envp.map CString.stored) := rfl
  have hword : (Buffer.ofNat (pointerSize false) 0).length = 8 := rfl
  obtain ⟨s₁, h₁, p₁⟩ := @exists_push bottom path.stored s (by omega)
  obtain ⟨s₂, h₂, p₂⟩ := @exists_push bottom (platformString gMode32).stored s₁ (by omega)
  obtain ⟨argvAddresses, s₃, h₃, p₃⟩ :=
    @exists_pushAll bottom s₂ (argv.map CString.stored) (by omega)
  obtain ⟨envpAddresses, s₄, h₄, p₄⟩ :=
    @exists_pushAll bottom s₃ (envp.map CString.stored) (by omega)
  have hpointer : s₄.pointer = s.pointer - stringsSize gMode32 path argv envp := by omega
  have hlower : (s₄.lower (s₄.pointer % 16)).pointer = s₄.pointer - s₄.pointer % 16 := rfl
  obtain ⟨s₅, h₅, p₅⟩ := @exists_push bottom (Buffer.ofNat (pointerSize false) 0)
    (s₄.lower (s₄.pointer % 16)) (by omega)
  obtain ⟨s₆, h₆, p₆⟩ := @exists_push bottom (Buffer.ofNat (pointerSize false) 0) s₅ (by omega)
  refine ⟨⟨s₁.pointer, s₂.pointer, argvAddresses, envpAddresses, s₆.pointer⟩,
    { s₆ with mem := s₆.mem.write s₆.pointer random }, ?_⟩
  simp only [pushStringsAndRandom, hargv, stackPushString, pushStrings, stackPush, h₁,
    h₂, h₃, h₄, h₅, h₆, hrandom, Option.bind_eq_bind, Option.bind_some, if_true]

end

/-! ## Words of a table -/

section

variable {gMode32 : Bool} {m : Buffer} {address : ℕ} {values : List ℕ}

theorem toNat_ofNat_mod (n v : ℕ) : Buffer.toNat (Buffer.ofNat n v) = v % 256 ^ n := by
  induction n generalizing v with
  | zero => rw [Nat.pow_zero, Nat.mod_one]; rfl
  | succ n ih =>
    have hbyte : (BitVec.ofNat 8 v).toNat = v % 256 := BitVec.toNat_ofNat ..
    rw [Buffer.ofNat, Buffer.toNat, ih, hbyte, Nat.pow_succ, Nat.mul_comm (256 ^ n), Nat.mod_mul]

/-- Each word of a table is at its place. -/
theorem number_table (h : m.read address (tableBytes gMode32 values).length =
    tableBytes gMode32 values)
    {i v : ℕ} (hi : values[i]? = some v) :
    m.number (address + pointerSize gMode32 * i) (pointerSize gMode32) =
      v % 256 ^ pointerSize gMode32 := by
  induction values generalizing address i with
  | nil => cases hi
  | cons w values ih =>
    rw [tableBytes_cons, List.length_append] at h
    obtain ⟨hfirst, hrest⟩ := (Buffer.read_append_iff rfl).mp h
    rw [Buffer.length_ofNat] at hfirst hrest
    obtain _ | i := i
    · cases hi
      rw [Nat.mul_zero, Nat.add_zero, Buffer.number, hfirst, toNat_ofNat_mod]
    · rw [Nat.mul_succ, Nat.add_comm (_ * i), ← Nat.add_assoc]
      exact ih hrest hi

end

/-! ## The layout -/

/-- The table, in front of everything else. -/
def Addresses.blocks (a : Addresses) (gMode32 : Bool) (rsp : ℕ) (path : CString)
    (argv envp : List CString) (elf : Elf) (random : List (BitVec 8)) :
    List (ℕ × List (BitVec 8)) :=
  (rsp, tableBytes gMode32 (a.words elf)) :: a.above gMode32 path argv envp random

/-- What a program expects of the stack it starts with. -/
structure Layout (gMode32 : Bool) (bottom top : ℕ) (path : CString) (argv envp : List CString)
    (elf : Elf) (random : List (BitVec 8)) (a : Addresses) (r : MainStack) : Prop where
  aligned : r.rsp % 16 = 0
  table : ∀ i v, (a.words elf)[i]? = some v →
    r.mem.number (r.rsp + pointerSize gMode32 * i) (pointerSize gMode32) =
      v % 256 ^ pointerSize gMode32
  fits : ∀ v ∈ a.argv.length :: a.programName :: a.platformName :: a.rand :: (a.argv ++ a.envp),
    v < 256 ^ pointerSize gMode32
  arguments : List.Forall₂ (fun address s ↦ r.mem.read address s.stored.length =
    s.stored) a.argv argv
  environment : List.Forall₂ (fun address s ↦ r.mem.read address s.stored.length =
    s.stored) a.envp envp
  programName : r.mem.read a.programName path.stored.length = path.stored
  platformName : r.mem.read a.platformName (platformString gMode32).stored.length =
    (platformString gMode32).stored
  rand : r.mem.read a.rand 16 = random
  apart : (a.blocks gMode32 r.rsp path argv envp elf random).Pairwise fun b b' ↦
    b.1 + b.2.length ≤ b'.1
  inside : ∀ b ∈ a.blocks gMode32 r.rsp path argv envp elf random,
    bottom ≤ b.1 ∧ b.1 + b.2.length ≤ top

def auxvCount : ℕ := 18

/-- The size of the table. -/
def tableSize (gMode32 : Bool) (argc envc : ℕ) : ℕ :=
  pointerSize gMode32 * (argc + envc + 3 + 2 * auxvCount)

/-- The bytes left out below the random bytes. -/
def padding (n : ℕ) : ℕ := if n % 16 ≠ 0 then 16 - n % 16 else 0

/-- What all of it takes. -/
def needed (gMode32 : Bool) (top : ℕ) (path : CString) (argv envp : List CString) : ℕ :=
  let strings := stringsSize gMode32 path argv envp
  let table := tableSize gMode32 argv.length envp.length
  strings + (top - strings) % 16 + 16 + padding table + table

section

variable {gMode32 : Bool} {bottom top : ℕ} {s s' : PushDown} {argv envp : List CString}
  {path : CString} {elf : Elf} {random : List (BitVec 8)} {a : Addresses} {r : MainStack}

theorem sizeNeeded_eq (argc envc : ℕ) :
    sizeNeeded gMode32 argc envc auxvCount = tableSize gMode32 argc envc % 2 ^ 16 := by
  have hsum : 2 * pointerSize gMode32 * auxvCount + pointerSize gMode32 +
    envc * pointerSize gMode32 +
      pointerSize gMode32 + argc * pointerSize gMode32 + pointerSize gMode32 =
      tableSize gMode32 argc envc := by
    rw [tableSize]
    ring
  rw [sizeNeeded, hsum]

/-- The blocks that pushes have laid out are the layout. -/
theorem forall₂_of_laid {addresses : List ℕ} {strings : List CString} {m : Buffer}
    (hlength : addresses.length = strings.length)
    (h : ∀ b ∈ addresses.zip (strings.map CString.stored), m.read b.1 b.2.length = b.2) :
    List.Forall₂ (fun address s ↦ m.read address s.stored.length = s.stored) addresses strings := by
  induction strings generalizing addresses with
  | nil =>
    obtain rfl := List.length_eq_zero_iff.mp hlength
    exact .nil
  | cons string strings ih =>
    obtain _ | ⟨address, addresses⟩ := addresses
    · cases hlength
    · rw [List.map_cons, List.zip_cons_cons] at h
      exact .cons (h _ List.mem_cons_self)
        (ih (Nat.succ.inj hlength) fun b hb ↦ h b (List.mem_cons_of_mem _ hb))

/-- The lowest of the addresses is that of the table, and a block has a byte at least. -/
theorem lt_top_of_block {n : ℕ} {b : ℕ × List (BitVec 8)} (hb : b.1 + b.2.length ≤ n)
    (hlength : b.2 ≠ []) : b.1 < n := by
  have hpos := List.length_pos_iff.mpr hlength
  omega

theorem stored_ne_nil (s : CString) : s.stored ≠ [] :=
  List.append_ne_nil_of_right_ne_nil _ (by simp)

/-- The strings are in the address space. -/
theorem lt_of_mem_addresses {addresses : List ℕ} {strings : List CString} {n : ℕ}
    (hlength : addresses.length = strings.length)
    (h : ∀ b ∈ addresses.zip (strings.map CString.stored), b.1 + b.2.length ≤ n) {v : ℕ}
    (hv : v ∈ addresses) : v < n := by
  have hfst : (addresses.zip (strings.map CString.stored)).map Prod.fst = addresses :=
    List.map_fst_zip (by rw [List.length_map, hlength])
  rw [← hfst] at hv
  obtain ⟨b, hb, rfl⟩ := List.mem_map.mp hv
  obtain ⟨s, -, hs⟩ := List.mem_map.mp (List.of_mem_zip hb).2
  exact lt_top_of_block (h b hb) (hs ▸ stored_ne_nil s)

/-- The table below the rest is the layout. -/
theorem layout_of_laid (htop : top ≤ 256 ^ pointerSize gMode32) (hrandom : random.length = 16)
    (hargv : a.argv.length = argv.length) (henvp : a.envp.length = envp.length)
    (hcount : argv.length < 256 ^ pointerSize gMode32) (hbottom : bottom ≤ r.rsp)
    (haligned : r.rsp % 16 = 0)
    (hlaid : Laid top ⟨r.rsp, r.mem⟩ (a.blocks gMode32 r.rsp path argv envp elf random)) :
    Layout gMode32 bottom top path argv envp elf random a r := by
  have habove (b : ℕ × List (BitVec 8)) (hb : b ∈ a.above gMode32 path argv envp random) :
      r.mem.read b.1 b.2.length = b.2 ∧ b.1 + b.2.length ≤ top :=
    ⟨hlaid.read b (List.mem_cons_of_mem _ hb), (hlaid.inside b (List.mem_cons_of_mem _ hb)).2⟩
  have hrand := habove (a.rand, random) List.mem_cons_self
  have hplatform := habove (a.platformName, (platformString gMode32).stored)
    (by simp [Addresses.above])
  have hprogram := habove (a.programName, path.stored) (by simp [Addresses.above])
  have hargs (b) (hb : b ∈ a.argv.zip (argv.map CString.stored)) := habove b (by
    simp only [Addresses.above, List.mem_cons, List.mem_append, List.mem_reverse, hb,
      true_or, or_true])
  have henvs (b) (hb : b ∈ a.envp.zip (envp.map CString.stored)) := habove b (by
    simp only [Addresses.above, List.mem_cons, List.mem_append, List.mem_reverse, hb,
      true_or, or_true])
  refine ⟨haligned, fun i v hi ↦ number_table (hlaid.read _ List.mem_cons_self) hi, ?_,
    forall₂_of_laid hargv fun b hb ↦ (hargs b hb).1, forall₂_of_laid henvp fun b hb ↦
      (henvs b hb).1,
    hprogram.1, hplatform.1, ?_, hlaid.ascending, fun b hb ↦ ?_⟩
  · intro v hv
    rw [List.mem_cons, List.mem_cons, List.mem_cons, List.mem_cons, List.mem_append] at hv
    obtain rfl | rfl | rfl | rfl | hv | hv := hv
    · exact hargv ▸ hcount
    · exact (lt_top_of_block hprogram.2 (stored_ne_nil _)).trans_le htop
    · exact (lt_top_of_block hplatform.2 (stored_ne_nil _)).trans_le htop
    · have hlt := hrand.2
      simp only [hrandom] at hlt
      omega
    · exact (lt_of_mem_addresses hargv (fun b hb ↦ (hargs b hb).2) hv).trans_le htop
    · exact (lt_of_mem_addresses henvp (fun b hb ↦ (henvs b hb).2) hv).trans_le htop
  · have hread := hrand.1
    rwa [hrandom] at hread
  · exact ⟨hbottom.trans (hlaid.inside b hb).1, (hlaid.inside b hb).2⟩

end

/-! ## When the stack is set up -/

section

variable {gMode32 : Bool} {bottom top : ℕ} {mem : Buffer} {argv envp : List CString}
  {path : CString} {elf : Elf} {random : List (BitVec 8)} {r : MainStack}

theorem pointer_padded (n : ℕ) (s : PushDown) :
    (if n % 2 ^ 16 % 16 ≠ 0 then s.lower (16 - n % 2 ^ 16 % 16) else s).pointer =
      s.pointer - padding n := by
  have hmod : n % 2 ^ 16 % 16 = n % 16 := Nat.mod_mod_of_dvd _ (by decide)
  rw [hmod, padding]
  split
  · rfl
  · rfl

theorem laid_padded {n : ℕ} {s : PushDown} {blocks : List (ℕ × List (BitVec 8))}
    (h : Laid top s blocks) :
    Laid top (if n % 2 ^ 16 % 16 ≠ 0 then s.lower (16 - n % 2 ^ 16 % 16) else s) blocks := by
  split
  · exact h.lower _
  · exact h

theorem padding_add_mod (n : ℕ) : (padding n + n) % 16 = 0 := by
  rw [padding]
  split <;> omega

theorem tableSize_pos (argc envc : ℕ) : 0 < tableSize gMode32 argc envc := by
  cases gMode32 <;> simp [tableSize, pointerSize]

/-- The argument count of so small a table is a word. -/
theorem argc_lt {argc envc : ℕ} (hsmall : tableSize gMode32 argc envc < 2 ^ 16) :
    argc < 256 ^ pointerSize gMode32 := by
  cases gMode32 with
  | true =>
    simp only [tableSize, pointerSize, auxvCount, if_true] at hsmall ⊢
    omega
  | false =>
    simp only [tableSize, pointerSize, auxvCount, Bool.false_eq_true, if_false] at hsmall ⊢
    omega

theorem setupMainStack_eq_some (hargv : argv.head? = some path) (hrandom : random.length = 16)
    (htop : top ≤ 256 ^ pointerSize gMode32)
    (h : setupMainStack gMode32 bottom top mem argv envp elf (some random) = some r) :
    tableSize gMode32 argv.length envp.length < 2 ^ 16 ∧
      bottom + needed gMode32 top path argv envp ≤ top ∧
      ∃ a, Layout gMode32 bottom top path argv envp elf random a r := by
  obtain ⟨⟨a, s⟩, habove, h⟩ := Option.bind_eq_some_iff.mp h
  simp only at h
  obtain ⟨⟨guestAuxv, s'⟩, htables, h⟩ := Option.bind_eq_some_iff.mp h
  obtain ⟨hlaid, -, hargc, henvc, haligned, hfit, hpointer⟩ :=
    pushStringsAndRandom_eq_some hargv hrandom habove
  have hlength : (auxvEntries elf a.programName a.platformName a.rand).length = auxvCount := rfl
  rw [hlength, sizeNeeded_eq] at htables h
  have hpadded := pointer_padded (tableSize gMode32 argv.length envp.length) s
  have hlaid' := @laid_padded top (tableSize gMode32 argv.length envp.length) s _ hlaid
  generalize (if tableSize gMode32 argv.length envp.length % 2 ^ 16 % 16 ≠ 0 then
    s.lower (16 - tableSize gMode32 argv.length envp.length % 2 ^ 16 % 16) else s) = s₁ at *
  have htable := push_of_pushTables htables
  obtain ⟨hfit', hpointer', hmem'⟩ := push_eq_some htable
  have hsize : (tableBytes gMode32 (tableWords (auxvEntries elf a.programName a.platformName a.rand)
      a.argv a.envp)).length = tableSize gMode32 argv.length envp.length := by
    rw [length_tableBytes, length_tableWords, hargc, henvc, hlength, tableSize]
  rw [hsize] at hfit' hpointer'
  split at h
  · next hfinal =>
    obtain ⟨hfinal, hmod⟩ := hfinal
    cases h
    simp only at hfit hpointer hpointer' hfit' hfinal hmod
    have hsmall : tableSize gMode32 argv.length envp.length < 2 ^ 16 := by
      have hlt := Nat.mod_lt (tableSize gMode32 argv.length envp.length) (show 0 < 2 ^ 16 by decide)
      omega
    refine ⟨hsmall, ?_, a, ?_⟩
    · have hpos := @tableSize_pos gMode32 argv.length envp.length
      simp only [needed]
      omega
    · exact layout_of_laid htop hrandom hargc henvc (argc_lt hsmall) (by simp only; omega) hmod
        (hlaid'.push htable)
  · cases h

theorem exists_setupMainStack (hargv : argv.head? = some path) (hrandom : random.length = 16)
    (hsmall : tableSize gMode32 argv.length envp.length < 2 ^ 16)
    (hfit : bottom + needed gMode32 top path argv envp ≤ top) :
    ∃ r, setupMainStack gMode32 bottom top mem argv envp elf (some random) = some r := by
  simp only [needed] at hfit
  obtain ⟨a, s, habove⟩ :=
    @exists_pushStringsAndRandom gMode32 bottom ⟨top, mem⟩ argv envp path random
    hargv hrandom (by simp only; omega)
  obtain ⟨-, -, hargc, henvc, haligned, -, hpointer⟩ :=
    pushStringsAndRandom_eq_some hargv hrandom habove
  have hlength : (auxvEntries elf a.programName a.platformName a.rand).length = auxvCount := rfl
  have hpadded := pointer_padded (tableSize gMode32 argv.length envp.length) s
  have hmod := padding_add_mod (tableSize gMode32 argv.length envp.length)
  rw [setupMainStack, habove]
  simp only [Option.bind_eq_bind, Option.bind_some]
  rw [hlength, sizeNeeded_eq]
  generalize (if tableSize gMode32 argv.length envp.length % 2 ^ 16 % 16 ≠ 0 then
    s.lower (16 - tableSize gMode32 argv.length envp.length % 2 ^ 16 % 16) else s) = s₁ at *
  have hsize : pointerSize gMode32 * (a.argv.length + a.envp.length + 3 +
      2 * (auxvEntries elf a.programName a.platformName a.rand).length) =
      tableSize gMode32 argv.length envp.length := by
    rw [hargc, henvc, hlength, tableSize]
  obtain ⟨guestAuxv, s₂, htables⟩ := @exists_pushTables gMode32 bottom s₁
    (auxvEntries elf a.programName a.platformName a.rand) a.argv a.envp (by
      rw [hsize]
      simp only at hpointer
      omega)
  obtain ⟨hfit', hpointer', -⟩ := push_eq_some (push_of_pushTables htables)
  rw [length_tableBytes, length_tableWords, hsize] at hfit' hpointer'
  rw [htables, Option.bind_some]
  refine ⟨_, if_pos ⟨?_, ?_⟩⟩
  · rw [Nat.mod_eq_of_lt hsmall]
    exact hpointer'
  · simp only at hpointer ⊢
    omega

end

/-- The stack is set up as a program expects it exactly if the table is smaller than 64 KiB and
everything fits on the stack. -/
theorem setupMainStack_iff (gMode32 : Bool) (bottom top : ℕ) (mem : Buffer) {path : CString}
    {argv : List CString} (envp : List CString) (elf : Elf) {random : List (BitVec 8)}
    (hargv : argv.head? = some path) (hrandom : random.length = 16)
    (htop : top ≤ 256 ^ pointerSize gMode32) :
    (∃ r a, setupMainStack gMode32 bottom top mem argv envp elf (some random) = some r ∧
        Layout gMode32 bottom top path argv envp elf random a r) ↔
      tableSize gMode32 argv.length envp.length < 2 ^ 16 ∧
        bottom + needed gMode32 top path argv envp ≤ top := by
  constructor
  · rintro ⟨r, -, h, -⟩
    obtain ⟨hsmall, hfit, -⟩ := setupMainStack_eq_some hargv hrandom htop h
    exact ⟨hsmall, hfit⟩
  · rintro ⟨hsmall, hfit⟩
    obtain ⟨r, hr⟩ := @exists_setupMainStack gMode32 bottom top mem argv envp path elf random hargv
      hrandom hsmall hfit
    obtain ⟨-, -, a, hlayout⟩ := setupMainStack_eq_some hargv hrandom htop hr
    exact ⟨r, a, hr, hlayout⟩

/-- The first 32-bit program of a guest: linked at the usual address, with nine program headers. -/
def sampleElf : Elf := ⟨0x8049040, 0x8048000, 0x8048034, 32, 9⟩

def listProgram : CString := ⟨asciiBytes "/bin/ls", by decide⟩

/-- `/bin/ls -l`, with `HOME` in the environment. -/
def sampleArguments : List CString := [listProgram, ⟨asciiBytes "-l", by decide⟩]

def sampleEnvironment : List CString := [⟨asciiBytes "HOME=/root", by decide⟩]

def sampleRandom : List (BitVec 8) := (List.range 16).map fun i ↦ BitVec.ofNat 8 (17 * i + 3)

theorem setupMainStack_iff_page :
    (∃ r a, setupMainStack true 0xffff0000 0xffff8000 (fun _ ↦ 0xcc) sampleArguments
          sampleEnvironment sampleElf (some sampleRandom) = some r ∧
        Layout true 0xffff0000 0xffff8000 listProgram sampleArguments sampleEnvironment sampleElf
          sampleRandom a r) ∧
      tableSize true 2 1 = 168 :=
  ⟨(setupMainStack_iff true 0xffff0000 0xffff8000 (fun _ ↦ 0xcc) sampleEnvironment sampleElf rfl rfl
    (by decide)).mpr ⟨by decide, by decide⟩, rfl⟩

/-- With 8200 arguments the size of the table does not fit in 16 bits, and there is no stack,
however large it is. -/
theorem not_layout_manyArguments :
    ¬ ∃ r a, setupMainStack false 0 (2 ^ 23) (fun _ ↦ 0)
      (List.replicate 8200 x86String) [] sampleElf
        (some (List.replicate 16 1)) = some r ∧
      Layout false 0 (2 ^ 23) x86String (List.replicate 8200 x86String) [] sampleElf
        (List.replicate 16 1) a r := by
  rintro ⟨r, a, h, -⟩
  have hhead : (List.replicate 8200 x86String).head? = some x86String := rfl
  obtain ⟨hsmall, -⟩ := setupMainStack_eq_some hhead rfl (by decide) h
  rw [List.length_replicate] at hsmall
  revert hsmall
  decide

end Emulator

end Felix86
