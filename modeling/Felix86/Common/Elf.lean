import Felix86.Lib.Bytes
import Felix86.Lib.Riscv

/-!
# Loading an ELF file

`Elf::Load` reads the headers, finds the range of the segments, reserves it for a position
independent file, and then maps segment after segment: the pages of the file, and for what the file
does not hold zeros in the rest of the last page and pages of zeros after it.

Addresses are those of the host. A page of a file that is wholly past its end can be mapped and has
no bytes. What the host may refuse beyond what is modelled makes the loader accept less.
-/

namespace Felix86

namespace Elf

abbrev Bytes := List (BitVec 8)

/-! ## Pages -/

def pageDown (n : ℕ) : ℕ := n / 4096 * 4096
def pageUp (n : ℕ) : ℕ := (n + 4095) / 4096 * 4096

/-- `PAGE_START`. -/
def pageStart (x : U64) : U64 := x &&& ~~~4095

/-- `PAGE_OFFSET`. -/
def pageOffset (x : U64) : U64 := x &&& 4095

/-- `PAGE_ALIGN`. -/
def pageAlign (x : U64) : U64 := (x + 4095) &&& ~~~4095

/-! ## Memory -/

structure Prot where
  read : Bool
  write : Bool
  exec : Bool

/-- A mapped byte. It has no value in a page past the end of a file. -/
structure Cell where
  value : Option (BitVec 8)
  prot : Prot

/-- The memory of the process, which ends at `taskSize`. -/
structure Memory (taskSize : ℕ) where
  cell : ℕ → Option Cell
  lt_taskSize : ∀ a, cell a ≠ none → a < taskSize

variable {taskSize : ℕ}

def Memory.value (m : Memory taskSize) (a : ℕ) : Option (BitVec 8) := (m.cell a).bind Cell.value

/-- `mmap` with `MAP_FIXED`, with what the mapped pages hold. -/
def Memory.map (m : Memory taskSize) (addr size : ℕ) (prot : Prot)
    (value : ℕ → Option (BitVec 8)) : Option (Memory taskSize) :=
  if h : addr % 4096 = 0 ∧ size ≠ 0 ∧ addr + pageUp size ≤ taskSize then
    some
      { cell := fun a ↦ if addr ≤ a ∧ a < addr + pageUp size then some ⟨value a, prot⟩ else m.cell a
        lt_taskSize := by
          intro a ha
          split at ha
          · omega
          · exact m.lt_taskSize a ha }
  else none

/-- What a mapping of a file holds: zeros after its end in its last page. -/
def fileByte (file : Bytes) (pos : ℕ) : Option (BitVec 8) :=
  if pos < file.length then file[pos]? else if pos < pageUp file.length then some 0 else none

def Memory.mapFile (m : Memory taskSize) (file : Bytes) (addr size : ℕ) (prot : Prot) (offset : ℕ) :
    Option (Memory taskSize) :=
  if offset % 4096 = 0 then m.map addr size prot fun a ↦ fileByte file (offset + (a - addr))
  else none

def Memory.mapAnonymous (m : Memory taskSize) (addr size : ℕ) (prot : Prot) :
    Option (Memory taskSize) :=
  m.map addr size prot fun _ ↦ some 0

def Cell.isWritable (c : Cell) : Bool := c.prot.write && c.value.isSome

/-- `memset` with zero, which faults where it may not write. -/
def Memory.zero (m : Memory taskSize) (addr n : ℕ) : Option (Memory taskSize) :=
  if ∀ k < n, (m.cell (addr + k)).any Cell.isWritable then
    some
      { cell := fun a ↦
          if addr ≤ a ∧ a < addr + n then (m.cell a).map fun c ↦ { c with value := some 0 }
          else m.cell a
        lt_taskSize := by
          intro a ha
          refine m.lt_taskSize a fun hnone ↦ ha ?_
          simp [hnone] }
  else none

/-! ## Headers -/

structure Ehdr where
  type : U64
  machine : U64
  version : U64
  entry : U64
  phoff : U64
  phentsize : U64
  phnum : U64
deriving DecidableEq

structure Phdr where
  type : U64
  flags : U64
  offset : U64
  vaddr : U64
  filesz : U64
  memsz : U64
deriving DecidableEq

/-- A field of a header. -/
def field (file : Bytes) (at' n : ℕ) : U64 :=
  BitVec.ofNat 64 (Buffer.toNat ((file.drop at').take n))

def ehdrSize (mode32 : Bool) : ℕ := if mode32 then 52 else 64
def phdrSize (mode32 : Bool) : ℕ := if mode32 then 32 else 56

def parseEhdr (mode32 : Bool) (file : Bytes) : Ehdr :=
  if mode32 then
    ⟨field file 16 2, field file 18 2, field file 20 4, field file 24 4, field file 28 4,
      field file 42 2, field file 44 2⟩
  else
    ⟨field file 16 2, field file 18 2, field file 20 4, field file 24 8, field file 32 8,
      field file 54 2, field file 56 2⟩

def parsePhdr (mode32 : Bool) (file : Bytes) (at' : ℕ) : Option Phdr :=
  if at' + phdrSize mode32 ≤ file.length then
    some <|
      if mode32 then
        ⟨field file at' 4, field file (at' + 24) 4, field file (at' + 4) 4, field file (at' + 8) 4,
          field file (at' + 16) 4, field file (at' + 20) 4⟩
      else
        ⟨field file at' 4, field file (at' + 4) 4, field file (at' + 8) 8, field file (at' + 16) 8,
          field file (at' + 32) 8, field file (at' + 40) 8⟩
  else none

def ELFCLASS32 : U64 := 1
def ELFCLASS64 : U64 := 2
def ELFDATA2LSB : U64 := 1
def EM_386 : U64 := 3
def EM_X86_64 : U64 := 62
def ET_EXEC : U64 := 2
def ET_DYN : U64 := 3
def PT_LOAD : U64 := 1
def PF_X : U64 := 1
def PF_W : U64 := 2
def PF_R : U64 := 4

/-- The checks of the header. -/
def checkEhdr (gMode32 : Bool) (file : Bytes) : Option Ehdr :=
  let mode32 : Bool := field file 4 1 = ELFCLASS32
  let ehdr := parseEhdr mode32 file
  if file.length < ehdrSize false then none
  else if gMode32 ≠ mode32 then none
  else if field file 0 4 ≠ 0x464C457F then none
  else if field file 4 1 ≠ ELFCLASS64 ∧ field file 4 1 ≠ ELFCLASS32 then none
  else if field file 5 1 ≠ ELFDATA2LSB then none
  else if field file 6 1 ≠ 1 ∨ ehdr.version ≠ 1 then none
  else if ehdr.machine ≠ EM_X86_64 ∧ ehdr.machine ≠ EM_386 then none
  else if ehdr.entry = 0 ∧ ehdr.type = ET_EXEC then none
  else if ehdr.phoff = 0 then none
  else if ehdr.phnum = 0xFFFF then none
  else if ehdr.type ≠ ET_EXEC ∧ ehdr.type ≠ ET_DYN then none
  else if ehdr.phentsize ≠ BitVec.ofNat 64 (phdrSize mode32) then none
  else some ehdr

/-- Where the program headers are read. An offset that is negative as a `long` leaves the position
after the header. -/
def tableStart (mode32 : Bool) (ehdr : Ehdr) : ℕ :=
  if ehdr.phoff.toNat < 2 ^ 63 then ehdr.phoff.toNat else ehdrSize mode32

/-- `phdrtable`. -/
def phdrTable (mode32 : Bool) (file : Bytes) (ehdr : Ehdr) : Option (List Phdr) :=
  (List.range ehdr.phnum.toNat).mapM fun i ↦
    parsePhdr mode32 file (tableStart mode32 ehdr + i * phdrSize mode32)

/-! ## The range of the segments -/

structure Range where
  lowest : U64
  highest : U64

def Range.add (r : Range) (phdr : Phdr) : Range :=
  if phdr.type = PT_LOAD then
    if phdr.filesz = 0 then r
    else
      { highest := if phdr.vaddr + phdr.memsz > r.highest then phdr.vaddr + phdr.memsz
        else r.highest
        lowest := if phdr.vaddr < r.lowest then phdr.vaddr else r.lowest }
  else r

/-- `lowest_vaddr` and `highest_vaddr`. -/
def range (phdrs : List Phdr) : Range := phdrs.foldl Range.add ⟨0xFFFFFFFFFFFFFFFF, 0⟩

/-! ## Segments -/

def Phdr.prot (phdr : Phdr) : Prot where
  read := phdr.flags &&& PF_R ≠ 0
  write := phdr.flags &&& PF_W ≠ 0
  exec := phdr.flags &&& PF_X ≠ 0

/-- The pages of the file. -/
def mapSegment (file : Bytes) (base : U64) (m : Memory taskSize) (phdr : Phdr) :
    Option (Memory taskSize) :=
  let segmentBase := base + pageStart phdr.vaddr
  let segmentSize := phdr.filesz + pageOffset phdr.vaddr
  let offset := phdr.offset - pageOffset phdr.vaddr
  if segmentSize ≠ 0 then
    m.mapFile file segmentBase.toNat segmentSize.toNat phdr.prot offset.toNat
  else if phdr.memsz = 0 then none
  else some m

def Phdr.bssStart (base : U64) (phdr : Phdr) : U64 := base + phdr.vaddr + phdr.filesz

def Phdr.bssPageStart (base : U64) (phdr : Phdr) : U64 := pageAlign (phdr.bssStart base)

def Phdr.bssPageEnd (base : U64) (phdr : Phdr) : U64 := pageAlign (base + phdr.vaddr + phdr.memsz)

/-- The rest of the last page of the file. -/
def zeroRest (base : U64) (m : Memory taskSize) (phdr : Phdr) : Option (Memory taskSize) :=
  if phdr.prot.write then
    m.zero (phdr.bssStart base).toNat (phdr.bssPageStart base - phdr.bssStart base).toNat
  else some m

/-- The pages after it. -/
def mapExcess (base : U64) (m : Memory taskSize) (phdr : Phdr) : Option (Memory taskSize) :=
  if phdr.bssPageStart base ≠ phdr.bssPageEnd base then do
    let excessSize := (phdr.bssPageEnd base - phdr.bssPageStart base).toNat
    let m ← m.mapAnonymous (phdr.bssPageStart base).toNat excessSize phdr.prot
    m.zero (phdr.bssPageStart base).toNat excessSize
  else some m

/-- What the file does not hold. -/
def mapBss (base : U64) (m : Memory taskSize) (phdr : Phdr) : Option (Memory taskSize) :=
  if phdr.memsz > phdr.filesz then do
    let m ← zeroRest base m phdr
    mapExcess base m phdr
  else some m

def loadSegment (file : Bytes) (base : U64) (m : Memory taskSize) (phdr : Phdr) :
    Option (Memory taskSize) :=
  if phdr.type = PT_LOAD then do
    let m ← mapSegment file base m phdr
    mapBss base m phdr
  else some m

/-! ## `Elf::Load` -/

/-- The host, with the place that it finds for a mapping without `MAP_FIXED`. -/
structure Host where
  taskSize : ℕ
  taskSize_le : taskSize ≤ 2 ^ 63
  place : (hint size : U64) → Option U64
  place_aligned : ∀ {hint size base}, place hint size = some base → base.toNat % 4096 = 0

structure Process (host : Host) where
  mem : Memory host.taskSize
  /-- `g_program_end`. -/
  programEnd : U64

/-- What is known of the file after loading. -/
structure Loaded where
  programBase : U64
  entry : U64
  phdr : U64
  phnum : U64
  phent : U64

variable {host : Host}

/-- The base of the segments, with the memory in which a position independent file has its range. -/
def reserve (baseHint : U64) (ehdr : Ehdr) (highest : U64) (m : Memory host.taskSize) :
    Option (U64 × Memory host.taskSize) :=
  if baseHint &&& 0xFFF ≠ 0 then none
  else if ehdr.type = ET_DYN then do
    let base ← host.place baseHint highest
    let m ← m.mapAnonymous base.toNat highest.toNat ⟨false, false, false⟩
    some (base, m)
  else some (0, m)

/-- `Elf::Load`. Neither the interpreter that the file asks for nor the flags of its stack change
the image. -/
def load (host : Host) (gMode32 : Bool) (baseHint : U64) (file : Bytes) (p : Process host) :
    Option (Process host × Loaded) := do
  let ehdr ← checkEhdr gMode32 file
  let phdrs ← phdrTable gMode32 file ehdr
  let r := range phdrs
  let (base, m) ← reserve baseHint ehdr r.highest p.mem
  let m ← phdrs.foldlM (loadSegment file base) m
  let programEnd := base + pageAlign r.highest
  some
    ({ mem := m
       programEnd := if programEnd < p.programEnd then p.programEnd else programEnd },
     { programBase := base
       entry := ehdr.entry
       phdr := base + r.lowest + ehdr.phoff
       phnum := ehdr.phnum
       phent := ehdr.phentsize })

end Elf

end Felix86
