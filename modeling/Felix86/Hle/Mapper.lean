import Felix86.Common.Freelist
import Felix86.Lib.Dialogue

/-!
# The mapper

`hle/mmap.cpp` places the guest's mappings in the low 4 GiB: it asks the host kernel and keeps the
freelist in step. The five functions below are the translation. What the kernel does is not theirs
to know, so they are dialogues whose questions are the system calls they make; the kernel itself is
in `Felix86.Hle.Kernel`.

A function returns what the source returns, an address or zero as a natural number and an error as
a negative integer, together with the mapper's new state. `ASSERT` and `ERROR` both end the
process, so both are the fault `assertion`.
-/

namespace Felix86

/-! ## The system calls -/

/-- The flags of `mmap` that decide placement; `rest` has the others. -/
structure MapFlags where
  fixed : Bool
  fixedNoreplace : Bool
  rest : ℕ
deriving DecidableEq, Repr

/-- The flags of `mremap`. -/
structure RemapFlags where
  mayMove : Bool
  fixed : Bool
  dontUnmap : Bool
deriving DecidableEq, Repr

/-- The flags of `shmat` that decide placement; `rest` has the others. -/
structure ShmFlags where
  remap : Bool
  rest : ℕ
deriving DecidableEq, Repr

/-- The system calls the mapper makes. -/
inductive SysCall
  | mmap (addr size prot : ℕ) (flags : MapFlags) (fd : ℤ) (offset : ℕ)
  | munmap (addr size : ℕ)
  | mremap (oldAddress oldSize newSize : ℕ) (flags : RemapFlags) (newAddress : ℕ)
  | shmctl (shmid : ℤ)
  | shmat (shmid : ℤ) (address : ℕ) (flags : ShmFlags)
  | shmdt (address : ℕ)
deriving DecidableEq, Repr

/-- What a system call returns: a value (the address of a placement, the `shm_segsz` of `shmctl`,
zero otherwise) or a failure with its `errno`. -/
inductive Answer
  | ok (value : ℕ)
  | failed (errno : ℕ)
deriving DecidableEq, Repr

/-! ## The mapper -/

/-- The freelist, and the segment attached at a page. -/
structure Mapper where
  freelist : List Freelist.Node
  pageToShmid : ℕ → Option ℤ

namespace Mapper

open Freelist (Fault Reply)
open Dialogue

/-- Code of the mapper. -/
abbrev Code (α : Type) := Dialogue Fault SysCall Answer α

def einval : ℤ := 22

def enomem : ℤ := 12

/-- `MAP_FAILED`, which is `(void*)-1`. -/
def mapFailed : BitVec 64 := BitVec.allOnes 64

/-- What `allocate` returns, as a signed pointer. -/
def pointer : Reply → ℤ
  | .address addr => addr
  | .enomem => -enomem

/-- `ASSERT`. -/
def assert (c : Prop) [Decidable c] : Code PUnit := require c Fault.assertion

/-- `(size + 0xFFF) & ~0xFFF`, a `u64`. -/
def roundUp (size : ℕ) : ℕ := u64 (size + 0xFFF) / 0x1000 * 0x1000

/-- `freelist.allocate`, whose address is a `u32`. -/
def allocate (m : Mapper) (addr size : ℕ) : Code (Reply × Mapper) := do
  let (reply, list) ← ofExcept (Freelist.allocate m.freelist (u32 addr) size)
  return (reply, { m with freelist := list })

/-- `freelist.deallocate`, whose address is a `u32`. -/
def deallocate (m : Mapper) (addr size : ℕ) : Code Mapper := do
  let list ← ofExcept (Freelist.deallocate m.freelist (u32 addr) size)
  return { m with freelist := list }

/-- A fixed mapping may replace others, so `map32` gives its range back before it takes it. -/
def makeRoom (m : Mapper) (flags : MapFlags) (result size : ℕ) : Code Mapper :=
  if flags.fixed then do
    assert (result < uint32Max)
    deallocate m result size
  else pure m

/-- The first half of `map32`: the guest chose the address. -/
def map32Fixed (m : Mapper) (addr size prot : ℕ) (flags : MapFlags) (fd : ℤ) (offset : ℕ) :
    Code (ℤ × Mapper) := do
  assert (addr < uint32Max)
  match ← query (.mmap addr size prot flags fd offset) with
  | .failed errno => return (-errno, m)
  | .ok result =>
    let m ← makeRoom m flags result size
    let (mapping, m) ← allocate m result size
    assert (pointer mapping = result)
    return (result, m)

/-- The second half of `map32`: the freelist chooses the address. -/
def map32Anywhere (m : Mapper) (size prot : ℕ) (flags : MapFlags) (fd : ℤ) (offset : ℕ) :
    Code (ℤ × Mapper) := do
  let (reply, m) ← allocate m 0 size
  match reply with
  | .enomem => return (-enomem, m)
  | .address address =>
    match ← query (.mmap address size prot { flags with fixedNoreplace := true } fd offset) with
    | .failed errno => return (-errno, m)
    | .ok result =>
      assert (result = address)
      return (address, m)

/-- `Mapper::map32`. -/
def map32 (m : Mapper) (addr size prot : ℕ) (flags : MapFlags) (fd : ℤ) (offset : ℕ) :
    Code (ℤ × Mapper) :=
  if flags.fixed ∨ flags.fixedNoreplace then
    map32Fixed m addr (roundUp size) prot flags fd offset
  else
    map32Anywhere m (roundUp size) prot flags fd offset

/-- `Mapper::unmap32`. -/
def unmap32 (m : Mapper) (addr size : ℕ) : Code (ℤ × Mapper) := do
  assert (addr < uint32Max)
  match ← query (.munmap addr (roundUp size)) with
  | .failed errno => return (-errno, m)
  | .ok result =>
    let m ← deallocate m addr (roundUp size)
    return (result, m)

/-- `remap32` gives the old range back unless it stays mapped. -/
def releaseOld (m : Mapper) (flags : RemapFlags) (oldAddress oldSize : ℕ) : Code Mapper :=
  if flags.dontUnmap then pure m else deallocate m oldAddress oldSize

/-- The first half of `remap32`: the kernel is told where the mapping goes, or that it stays. -/
def remap32Fixed (m : Mapper) (oldAddress oldSize newSize : ℕ) (flags : RemapFlags)
    (newAddress : ℕ) : Code (ℤ × Mapper) := do
  assert (newAddress < uint32Max)
  match ← query (.mremap oldAddress oldSize newSize flags newAddress) with
  | .failed _ => return (-1, m)
  | .ok result =>
    assert (result = newAddress)
    let m ← releaseOld m flags oldAddress oldSize
    let (mapping, m) ← allocate m result newSize
    assert (pointer mapping = result)
    return (result, m)

/-- The second half of `remap32`: the freelist chooses the new address. A kernel that refuses it
is an `ERROR`. -/
def remap32Anywhere (m : Mapper) (oldAddress oldSize newSize : ℕ) (flags : RemapFlags) :
    Code (ℤ × Mapper) := do
  let (reply, m) ← allocate m 0 newSize
  if pointer reply ≤ 0 then return (pointer reply, m)
  match reply with
  | .enomem => return (-enomem, m)
  | .address newAddress =>
    match ← query (.mremap oldAddress oldSize newSize
      { flags with mayMove := true, fixed := true } newAddress) with
    | .failed _ => fault Fault.assertion
    | .ok result =>
      let m ← releaseOld m flags oldAddress oldSize
      assert (result = newAddress)
      return (result, m)

/-- `Mapper::remap32`. -/
def remap32 (m : Mapper) (oldAddress oldSize newSize : ℕ) (flags : RemapFlags)
    (newAddress : ℕ) : Code (ℤ × Mapper) := do
  assert (oldAddress ≠ 0)
  assert (oldSize ≠ 0)
  assert (newSize ≠ 0)
  if flags.fixed ∨ ¬flags.mayMove then
    remap32Fixed m oldAddress (roundUp oldSize) (roundUp newSize) flags newAddress
  else
    remap32Anywhere m oldAddress (roundUp oldSize) (roundUp newSize) flags

/-- `shm_segsz`, rounded up if it is not a multiple of the page size. -/
def segmentSize (shmSegsz : ℕ) : ℕ :=
  if shmSegsz % 0x1000 ≠ 0 then roundUp shmSegsz else shmSegsz

/-- The result of `shmat32`: what it returns, what it stores through `result_address`, and the new
state. -/
abbrev Attachment := (ℤ × Option ℕ) × Mapper

/-- The end of `shmat32`: the segment is in place. -/
def shmatDone (m : Mapper) (shmid : ℤ) (shmMem : ℕ) : Code Attachment := do
  assert (shmMem / 2 ^ 32 = 0 ∨ shmMem / 2 ^ 32 = uint32Max)
  let page := u32 shmMem / 0x1000 * 0x1000
  return ((0, some (u32 shmMem)),
    { m with pageToShmid := Function.update m.pageToShmid page (some shmid) })

/-- `shmat32` without an address: the freelist chooses it, and a segment that did not get there is
an `ERROR`. -/
def shmatAnywhere (m : Mapper) (shmid : ℤ) (size : ℕ) (flags : ShmFlags) :
    Code Attachment := do
  let (ourMem, m) ← allocate m 0 size
  match ourMem with
  | .enomem => return ((-enomem, none), m)
  | .address address =>
    match ← query (.shmat shmid address flags) with
    | .failed _ => fault Fault.assertion
    | .ok shmMem =>
      assert (shmMem = address)
      shmatDone m shmid shmMem

/-- `shmat32` at an address: the kernel goes first, and a freelist that disagrees is an `ERROR`. -/
def shmatFixed (m : Mapper) (shmid : ℤ) (address size : ℕ) (flags : ShmFlags) :
    Code Attachment := do
  assert (u64 (address + size) ≤ uint32Max)
  match ← query (.shmat shmid address flags) with
  | .failed _ => return ((-1, none), m)
  | .ok shmMem =>
    assert (shmMem / 2 ^ 32 = 0 ∨ shmMem / 2 ^ 32 = uint32Max)
    let (ourMem, m) ← allocate m shmMem size
    assert (pointer ourMem = shmMem)
    shmatDone m shmid shmMem

/-- `Mapper::shmat32`. -/
def shmat32 (m : Mapper) (shmid : ℤ) (address : ℕ) (flags : ShmFlags) : Code Attachment := do
  match ← query (.shmctl shmid) with
  | .failed _ => return ((-einval, none), m)
  | .ok shmSegsz =>
    assert (segmentSize shmSegsz < 0xFFFFFFFF)
    if address = 0 then shmatAnywhere m shmid (segmentSize shmSegsz) flags
    else shmatFixed m shmid address (segmentSize shmSegsz) flags

/-- `shmdt32` gives the whole segment back if it can find out its size. -/
def releaseSegment (m : Mapper) (shmid : ℤ) (address : ℕ) : Code Mapper := do
  match ← query (.shmctl shmid) with
  | .ok shmSegsz => deallocate m address (segmentSize shmSegsz)
  | .failed _ => return m

/-- `Mapper::shmdt32`. The freelist is updated before the kernel is asked. -/
def shmdt32 (m : Mapper) (address : ℕ) : Code (ℤ × Mapper) := do
  let page := u32 address / 0x1000 * 0x1000
  match m.pageToShmid page with
  | none => return (-einval, m)
  | some shmid =>
    let m ← releaseSegment m shmid address
    match ← query (.shmdt address) with
    | .ok _ => return (0, { m with pageToShmid := Function.update m.pageToShmid page none })
    | .failed _ => return (-1, m)

/-- `Mapper::map`, with the `void*` it returns. Outside of 32-bit mode it is `mmap`, which returns
`MAP_FAILED` whatever the reason. -/
def map (m : Mapper) (mode32 : Bool) (addr size prot : ℕ) (flags : MapFlags) (fd : ℤ)
    (offset : ℕ) : Code (BitVec 64 × Mapper) :=
  if mode32 then do
    let (result, m) ← m.map32 addr size prot flags fd offset
    return (BitVec.ofInt 64 result, m)
  else do
    match ← query (.mmap addr size prot flags fd offset) with
    | .failed _ => return (mapFailed, m)
    | .ok result => return (BitVec.ofNat 64 result, m)

end Mapper

end Felix86
