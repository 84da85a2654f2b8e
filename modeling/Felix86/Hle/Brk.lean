import Felix86.Hle.MapReply
import Felix86.Lib.Run

/-!
# The program break

`BRK::allocate` reserves an area of `g_max_brk_size` bytes without access and commits the start of
it; `BRK::set` moves the break and commits more when the break passes the committed part. The break
is moved before anything is checked: a break below the area is accepted, one beyond it is mapped
over whatever is there, and one that cannot be committed ends the process, as does the second
growth of an area whose size, twice the distance of the break, is not a multiple of the page size.

`CallOk` is the condition under which a call does none of this. The kernel is an oracle that keeps
to what `mmap` documents.
-/

namespace Felix86

namespace Brk

open Dialogue Mapper

/-! ## The code -/

/-- The globals of `brk.cpp`. -/
structure Globals where
  initialBrk : BitVec 64
  currentBrk : BitVec 64
  currentBrkSize : BitVec 64
  maxBrkSize : BitVec 64
deriving DecidableEq, Repr

/-- What `allocate` goes by: `g_config.max_brk_size`, `g_config.brk_base`, `g_program_end`, and the
`totalram` of `sysinfo` if that call succeeds. -/
structure Config where
  maxBrkSize : BitVec 64
  brkBase : BitVec 64
  programEnd : BitVec 64
  totalram : Option (BitVec 64)

def size32 : BitVec 64 := 32 * 1024 * 1024

def size64 : BitVec 64 := 128 * 1024 * 1024

def gib : BitVec 64 := 1024 * 1024 * 1024

/-- `PROT_NONE`. -/
def protNone : ℕ := 0

/-- `PROT_READ | PROT_WRITE`. -/
def protRw : ℕ := 3

/-- `MAP_ANONYMOUS | MAP_PRIVATE`. -/
def anonymous : ℕ := 0x22

/-- `MAP_ANONYMOUS | MAP_PRIVATE | MAP_NORESERVE`. -/
def noreserve : ℕ := 0x4022

/-- The start of the area that the configuration asks for. -/
def Config.base (c : Config) : BitVec 64 :=
  (if c.brkBase ≠ 0 then c.brkBase else c.programEnd) &&& ~~~0xFFF#64

def Config.max32 (c : Config) : BitVec 64 := if c.maxBrkSize = 0 then gib else c.maxBrkSize

def Config.max64 (c : Config) : BitVec 64 :=
  let maxBrkSize : BitVec 64 :=
    if c.maxBrkSize = 0 then (c.totalram.map fun (ram : BitVec 64) ↦ ram >>> 1).getD 0
    else c.maxBrkSize
  if maxBrkSize = 0 then gib else maxBrkSize

/-- The initial size is at most the maximum. -/
def initialSize (maxBrkSize size : BitVec 64) : BitVec 64 :=
  if maxBrkSize < size then maxBrkSize else size

/-- The first half of `allocate32`: the area, at its base or where the mapper finds room. -/
def reserve32 (m : Mapper) (base maxBrkSize : BitVec 64) : Code (BitVec 64 × Mapper) := do
  let (maxBrk, m) ← m.map true base.toNat maxBrkSize.toNat protNone ⟨false, true, anonymous⟩ (-1) 0
  if maxBrk.toInt < 0 then
    let (maxBrk, m) ← m.map true 0 maxBrkSize.toNat protNone ⟨false, false, anonymous⟩ (-1) 0
    assert (0 < maxBrk.toInt)
    return (maxBrk, m)
  else
    assert (base = maxBrk)
    return (base, m)

/-- `BRK::allocate32`. -/
def allocate32 (c : Config) (m : Mapper) : Code (Globals × Mapper) := do
  assert (c.base.toNat ≤ uint32Max)
  let (base, m) ← reserve32 m c.base c.max32
  let size := initialSize c.max32 size32
  let (current, m) ← m.map true base.toNat size.toNat protRw ⟨true, false, anonymous⟩ (-1) 0
  assert (0 ≤ current.toInt)
  return (⟨current, current, size, c.max32⟩, m)

/-- The loop of `allocate64`. Every attempt is at the same address: what is moved on to the next
page is not what the next attempt uses. -/
def reserve64 (m : Mapper) (base maxBrkSize : BitVec 64) : ℕ → Code (BitVec 64 × Mapper)
  | 0 => do
    let (brkBase, m) ← m.map false 0 maxBrkSize.toNat protNone ⟨false, false, noreserve⟩ (-1) 0
    assert (brkBase ≠ mapFailed)
    return (brkBase, m)
  | attempts + 1 => do
    let (brkBase, m) ← m.map false base.toNat maxBrkSize.toNat protNone ⟨false, true, noreserve⟩
      (-1) 0
    if brkBase ≠ mapFailed then return (brkBase, m) else reserve64 m base maxBrkSize attempts

/-- `BRK::allocate64`. -/
def allocate64 (c : Config) (m : Mapper) : Code (Globals × Mapper) := do
  let (base, m) ← reserve64 m c.base c.max64 30
  let size := initialSize c.max64 size64
  let (current, m) ← m.map false base.toNat size.toNat protRw ⟨true, false, anonymous⟩ (-1) 0
  assert (current ≠ mapFailed)
  return (⟨current, current, size, c.max64⟩, m)

/-- `BRK::allocate`. -/
def allocate (mode32 : Bool) (c : Config) (m : Mapper) : Code (Globals × Mapper) :=
  if mode32 then allocate32 c m else allocate64 c m

/-- The size that `set` grows to. -/
def newSize (g : Globals) : BitVec 64 :=
  let size := (g.currentBrk - g.initialBrk) * 2
  if g.currentBrkSize < g.maxBrkSize ∧ g.maxBrkSize < size then g.maxBrkSize else size

/-- The second half of `set`: the break has passed the committed part. -/
def grow (mode32 : Bool) (g : Globals) (m : Mapper) : Code (Globals × Mapper) := do
  let endBrk := g.initialBrk + g.currentBrkSize
  assert (endBrk &&& 0xFFF = 0)
  let sizePastEnd := newSize g - g.currentBrkSize
  let (newMap, m) ← m.map mode32 endBrk.toNat sizePastEnd.toNat protRw ⟨true, false, anonymous⟩
    (-1) 0
  assert (newMap = endBrk)
  return ({ g with currentBrkSize := newSize g }, m)

/-- `BRK::set`. -/
def set (mode32 : Bool) (newBrk : BitVec 64) (g : Globals) (m : Mapper) :
    Code (BitVec 64 × Globals × Mapper) := do
  let result := if newBrk = 0 then g.currentBrk else newBrk
  let g := if newBrk = 0 then g else { g with currentBrk := newBrk }
  if g.initialBrk + g.currentBrkSize < g.currentBrk then
    let (g, m) ← grow mode32 g m
    return (result, g, m)
  else return (result, g, m)

/-! ## What it is for -/

/-- The mapping that a call left behind has the page. -/
def Covers (entry : SysCall × Answer) (page : ℕ) : Prop :=
  match entry with
  | (.mmap _ size _ _ _ _, .ok r) => r ≤ page * 0x1000 ∧ page * 0x1000 < r + size
  | _ => False

instance (entry : SysCall × Answer) (page : ℕ) : Decidable (Covers entry page) := by
  unfold Covers
  split <;> infer_instance

/-- The access that a call asks for. -/
def access : SysCall → ℕ
  | .mmap _ _ prot _ _ _ => prot
  | _ => 0

/-- The access to a page, given by the last mapping that has it. -/
def accessOf (h : History) (page : ℕ) : Option ℕ :=
  (h.reverse.find? fun entry ↦ Covers entry page).map fun entry ↦ access entry.1

/-- The page is in the reserved area. -/
def Globals.Reserves (g : Globals) (page : ℕ) : Prop :=
  g.initialBrk.toNat ≤ page * 0x1000 ∧
    page * 0x1000 < g.initialBrk.toNat + g.maxBrkSize.toNat

/-- The globals, and the calls that have been made to the kernel. -/
structure Snapshot where
  globals : Globals
  history : History

/-- A call that has returned. -/
structure Call where
  newBrk : BitVec 64
  before : Snapshot
  result : BitVec 64
  after : Snapshot

/-- The process: how many of its calls to the kernel were made before the first request, whether it
has ended, and the requests so far. -/
structure Process where
  now : Snapshot
  mapper : Mapper
  booted : ℕ
  aborted : Bool
  log : List Call

/-- The area can have this break. -/
def Globals.Satisfies (g : Globals) (newBrk : BitVec 64) : Prop :=
  g.initialBrk.toNat ≤ newBrk.toNat ∧ newBrk.toNat ≤ g.initialBrk.toNat + g.maxBrkSize.toNat

/-- The kernel granted what it was asked for in the call. -/
def Call.Granted (c : Call) : Prop :=
  ∀ entry ∈ c.after.history.drop c.before.history.length, ∃ r, entry.2 = .ok r

/-- The call has changed nothing, and returned the break. -/
structure Call.Unchanged (c : Call) : Prop where
  result : c.result = c.before.globals.currentBrk
  globals : c.after.globals = c.before.globals
  access : ∀ page, accessOf c.after.history page = accessOf c.before.history page

/-- As on Linux: the break is where it was asked to be, or it was only asked for, or it was
impossible; and then nothing has changed. -/
def Call.Right (c : Call) : Prop :=
  (c.before.globals.Satisfies c.newBrk ∧ c.result = c.newBrk ∧
    c.after.globals.currentBrk = c.newBrk) ∨
  ((c.newBrk = 0 ∨ ¬(c.before.globals.Satisfies c.newBrk ∧ c.Granted)) ∧ c.Unchanged)

/-- The law of the break. -/
structure Process.Sound (s : Process) : Prop where
  running : s.aborted = false
  lower : s.now.globals.initialBrk.toNat ≤ s.now.globals.currentBrk.toNat
  upper : s.now.globals.currentBrk.toNat ≤
    s.now.globals.initialBrk.toNat + s.now.globals.currentBrkSize.toNat
  limit : s.now.globals.initialBrk.toNat + s.now.globals.currentBrkSize.toNat ≤
    s.now.globals.initialBrk.toNat + s.now.globals.maxBrkSize.toNat
  committed : ∀ page, s.now.globals.Reserves page →
    (accessOf s.now.history page = some protRw ↔
      page * 0x1000 < s.now.globals.initialBrk.toNat + s.now.globals.currentBrkSize.toNat)
  inside : ∀ entry ∈ s.now.history.drop s.booted, ∀ page, Covers entry page →
    s.now.globals.Reserves page
  right : ∀ c ∈ s.log, c.Right

/-! ## Runs -/

section

variable (mode32 : Bool) (host : History → SysCall → Answer)

/-- `allocate` has returned. -/
def Boots (c : Config) (m : Mapper) (h : History) (s : Process) : Prop :=
  ∃ g m' h', run (oracle host) h (allocate mode32 c m) = (.ok (g, m'), h') ∧
    s = ⟨⟨g, h'⟩, m', h'.length, false, []⟩

/-- One call of `brk`. -/
inductive Step : Process → BitVec 64 → Process → Prop
  | returns {s : Process} {newBrk result : BitVec 64} {g : Globals} {m : Mapper} {h : History}
      (hrun : run (oracle host) s.now.history (set mode32 newBrk s.now.globals s.mapper) =
        (.ok (result, g, m), h)) :
      Step s newBrk
        { s with now := ⟨g, h⟩, mapper := m, log := s.log ++ [⟨newBrk, s.now, result, ⟨g, h⟩⟩] }
  | aborts {s : Process} {newBrk : BitVec 64} {e : Freelist.Fault} {h : History}
      (hrun : run (oracle host) s.now.history (set mode32 newBrk s.now.globals s.mapper) =
        (.error e, h)) :
      Step s newBrk { s with aborted := true }

/-- The bytes that are committed when the break passes the committed part. -/
def growth (g : Globals) (newBrk : BitVec 64) : ℕ :=
  min (2 * (newBrk.toNat - g.initialBrk.toNat)) g.maxBrkSize.toNat - g.currentBrkSize.toNat

/-- The kernel call that commits them. -/
def commit (g : Globals) (newBrk : BitVec 64) : SysCall :=
  .mmap (g.initialBrk.toNat + g.currentBrkSize.toNat)
    (if mode32 then roundUp (growth g newBrk) else growth g newBrk) protRw
    ⟨true, false, anonymous⟩ (-1) 0

/-- The break is only asked for, or it stays in the committed part, or it stays in the area, the
committed part ends with a page, the kernel commits what is missing, and the freelist of a 32-bit
guest follows. -/
def CallOk (s : Process) (newBrk : BitVec 64) : Prop :=
  newBrk = 0 ∨
  (s.now.globals.initialBrk.toNat ≤ newBrk.toNat ∧
    newBrk.toNat ≤ s.now.globals.initialBrk.toNat + s.now.globals.currentBrkSize.toNat) ∨
  (s.now.globals.initialBrk.toNat + s.now.globals.currentBrkSize.toNat < newBrk.toNat ∧
    s.now.globals.Satisfies newBrk ∧
    PageAligned (s.now.globals.initialBrk.toNat + s.now.globals.currentBrkSize.toNat) ∧
    (∃ r, host s.now.history (commit mode32 s.now.globals newBrk) = .ok r) ∧
    (mode32 = true →
      s.now.globals.initialBrk.toNat + s.now.globals.currentBrkSize.toNat < uint32Max ∧
      Replaces s.mapper.freelist
        (s.now.globals.initialBrk.toNat + s.now.globals.currentBrkSize.toNat)
        (roundUp (growth s.now.globals newBrk))))

end

/-! ## Pages -/

section

variable {h : History} {g : Globals}

theorem accessOf_append (h : History) (entry : SysCall × Answer) (page : ℕ) :
    accessOf (h ++ [entry]) page =
      if Covers entry page then some (access entry.1) else accessOf h page := by
  rw [accessOf, List.reverse_append, List.reverse_singleton, List.singleton_append,
    List.find?_cons]
  by_cases hcover : Covers entry page
  · rw [if_pos hcover, decide_eq_true hcover]
    rfl
  · rw [if_neg hcover, decide_eq_false hcover]
    rfl

/-- The pages of a mapping do not depend on whether its size was rounded up. -/
theorem page_lt_roundUp {start n page : ℕ} (hstart : PageAligned start) (hn : n ≤ 2 ^ 56)
    (mode32 : Bool) : page * 0x1000 < start + (if mode32 then roundUp n else n) ↔
      page * 0x1000 < start + n := by
  unfold PageAligned at hstart
  cases mode32 with
  | false => exact Iff.rfl
  | true =>
    rw [if_pos rfl, roundUp, u64]
    omega

/-- What a granted request covers. -/
theorem covers_of_granted {mode32 : Bool} {addr size prot : ℕ} {flags : MapFlags} {v : BitVec 64}
    {h h' : History} (hg : Granted mode32 addr size prot flags h v h') (hsize : size ≤ 2 ^ 56) :
    ∃ entry, h' = h ++ [entry] ∧ access entry.1 = prot ∧
      ∀ page, Covers entry page ↔ v.toNat ≤ page * 0x1000 ∧ page * 0x1000 < v.toNat + size := by
  obtain ⟨at', flags', fd, offset, rfl⟩ := hg.asked
  refine ⟨_, rfl, rfl, fun page ↦ and_congr_right fun _ ↦ ?_⟩
  exact page_lt_roundUp hg.aligned hsize mode32

end

/-! ## The start -/

section

variable {mode32 : Bool} {host : History → SysCall → Answer} {h h' : History} {m m' : Mapper}

theorem size_le_of_granted {addr prot : ℕ} {size v : BitVec 64} {flags : MapFlags}
    (hg : Granted mode32 addr size.toNat prot flags h v h') : v.toNat + size.toNat ≤ 2 ^ 56 := by
  have hle := hg.bounded
  have hpos := hg.nonempty
  have hsize := size.isLt
  cases mode32 with
  | false => exact hle
  | true =>
    rw [if_pos rfl, roundUp, u64] at hle hpos
    omega

theorem reserve32_inv (hlaw : Lawful host) {base maxBrkSize b : BitVec 64}
    (hrun : run (oracle host) h (reserve32 m base maxBrkSize) = (.ok (b, m'), h')) :
    ∃ addr flags h₁, Granted true addr maxBrkSize.toNat protNone flags h₁ b h' := by
  obtain ⟨⟨maxBrk, m₁⟩, h₁, hmap, hrest⟩ := exists_of_run_bind hrun
  have hcases := map_inv hlaw hmap
  simp only at hrest
  split at hrest
  · -- no room at the base
    obtain ⟨⟨maxBrk', m₂⟩, h₂, hmap', hassert⟩ := exists_of_run_bind hrest
    obtain ⟨_, h₃, hcheck, hend⟩ := exists_of_run_bind hassert
    obtain ⟨hpos, rfl⟩ := of_run_require hcheck
    simp only [run_pure, Prod.mk.injEq, Except.ok.injEq] at hend
    obtain ⟨⟨rfl, -⟩, rfl⟩ := hend
    obtain hr | hg := map_inv hlaw hmap'
    · exact absurd hr.toInt_neg (not_lt.mpr hpos.le)
    · exact ⟨_, _, _, hg⟩
  · next hnonneg =>
    obtain ⟨_, h₂, heq, hend⟩ := exists_of_run_bind hrest
    obtain ⟨rfl, rfl⟩ := of_run_require heq
    simp only [run_pure, Prod.mk.injEq, Except.ok.injEq] at hend
    obtain ⟨⟨rfl, -⟩, rfl⟩ := hend
    obtain hr | hg := hcases
    · exact absurd hr.toInt_neg hnonneg
    · exact ⟨_, _, _, hg⟩

theorem reserve64_inv (hlaw : Lawful host) {base maxBrkSize b : BitVec 64} {attempts : ℕ}
    (hrun : run (oracle host) h (reserve64 m base maxBrkSize attempts) = (.ok (b, m'), h')) :
    ∃ addr flags h₁, Granted false addr maxBrkSize.toNat protNone flags h₁ b h' := by
  induction attempts generalizing h m with
  | zero =>
    obtain ⟨⟨brkBase, m₁⟩, h₁, hmap, hrest⟩ := exists_of_run_bind hrun
    obtain ⟨_, h₂, hassert, hend⟩ := exists_of_run_bind hrest
    obtain ⟨hne, rfl⟩ := of_run_require hassert
    simp only [run_pure, Prod.mk.injEq, Except.ok.injEq] at hend
    obtain ⟨⟨rfl, -⟩, rfl⟩ := hend
    obtain hr | hg := map_inv hlaw hmap
    · exact absurd hr.eq_mapFailed hne
    · exact ⟨_, _, _, hg⟩
  | succ attempts ih =>
    obtain ⟨⟨brkBase, m₁⟩, h₁, hmap, hrest⟩ := exists_of_run_bind hrun
    simp only at hrest
    split at hrest
    · next hne =>
      simp only [run_pure, Prod.mk.injEq, Except.ok.injEq] at hrest
      obtain ⟨⟨rfl, -⟩, rfl⟩ := hrest
      obtain hr | hg := map_inv hlaw hmap
      · exact absurd hr.eq_mapFailed hne
      · exact ⟨_, _, _, hg⟩
    · exact ih hrest

/-- What `allocate` leaves behind: an area without access, and its start committed. -/
structure Allocated (mode32 : Bool) (g : Globals) (h' : History) : Prop where
  current : g.currentBrk = g.initialBrk
  size : g.currentBrkSize.toNat ≤ g.maxBrkSize.toNat
  mapped : ∃ addr flags h₁ h₂,
    Granted mode32 addr g.maxBrkSize.toNat protNone flags h₁ g.initialBrk h₂ ∧
    Granted mode32 g.initialBrk.toNat g.currentBrkSize.toNat protRw ⟨true, false, anonymous⟩ h₂
      g.initialBrk h'

theorem initialSize_le (maxBrkSize size : BitVec 64) :
    (initialSize maxBrkSize size).toNat ≤ maxBrkSize.toNat := by
  rw [initialSize]
  split
  · exact le_rfl
  · next hlt => exact Nat.not_lt.mp hlt

theorem allocated_of_granted {addr : ℕ} {flags : MapFlags} {h₁ h₂ : History}
    {b current size maxBrkSize : BitVec 64} (hsize : size.toNat ≤ maxBrkSize.toNat)
    (hreserve : Granted mode32 addr maxBrkSize.toNat protNone flags h₁ b h₂)
    (hcommit : Granted mode32 b.toNat size.toNat protRw ⟨true, false, anonymous⟩ h₂ current h') :
    Allocated mode32 ⟨current, current, size, maxBrkSize⟩ h' := by
  have heq : current = b := by
    rw [hcommit.fixed (.inl rfl), BitVec.ofNat_toNat, BitVec.setWidth_eq]
  subst heq
  exact ⟨rfl, hsize, addr, flags, h₁, h₂, hreserve, hcommit⟩

theorem allocate_inv (hlaw : Lawful host) {c : Config} {g : Globals}
    (hrun : run (oracle host) h (allocate mode32 c m) = (.ok (g, m'), h')) :
    Allocated mode32 g h' := by
  cases mode32 with
  | true =>
    obtain ⟨_, h₁, hbase, hrest⟩ := exists_of_run_bind hrun
    obtain ⟨-, rfl⟩ := of_run_require hbase
    obtain ⟨⟨b, m₁⟩, h₂, hreserve, hcommit⟩ := exists_of_run_bind hrest
    obtain ⟨⟨current, m₂⟩, h₃, hmap, hassert⟩ := exists_of_run_bind hcommit
    obtain ⟨_, h₄, hcheck, hend⟩ := exists_of_run_bind hassert
    obtain ⟨hnonneg, rfl⟩ := of_run_require hcheck
    simp only [run_pure, Prod.mk.injEq, Except.ok.injEq] at hend
    obtain ⟨⟨rfl, -⟩, rfl⟩ := hend
    obtain ⟨addr, flags, h₀, hgranted⟩ := reserve32_inv hlaw hreserve
    obtain hr | hg := map_inv hlaw hmap
    · exact absurd hr.toInt_neg (not_lt.mpr hnonneg)
    · exact allocated_of_granted (initialSize_le _ _) hgranted hg
  | false =>
    obtain ⟨⟨b, m₁⟩, h₂, hreserve, hcommit⟩ := exists_of_run_bind hrun
    obtain ⟨⟨current, m₂⟩, h₃, hmap, hassert⟩ := exists_of_run_bind hcommit
    obtain ⟨_, h₄, hcheck, hend⟩ := exists_of_run_bind hassert
    obtain ⟨hne, rfl⟩ := of_run_require hcheck
    simp only [run_pure, Prod.mk.injEq, Except.ok.injEq] at hend
    obtain ⟨⟨rfl, -⟩, rfl⟩ := hend
    obtain ⟨addr, flags, h₀, hgranted⟩ := reserve64_inv hlaw hreserve
    obtain hr | hg := map_inv hlaw hmap
    · exact absurd hr.eq_mapFailed hne
    · exact allocated_of_granted (initialSize_le _ _) hgranted hg

end

/-! ## The law -/

/-- What every step keeps: the law, and what keeps the arithmetic from wrapping. -/
structure Process.Inv (s : Process) : Prop where
  sound : s.Sound
  aligned : PageAligned s.now.globals.initialBrk.toNat
  room : s.now.globals.initialBrk.toNat + s.now.globals.maxBrkSize.toNat ≤ 2 ^ 56
  booted : s.booted ≤ s.now.history.length

section

variable {mode32 : Bool} {host : History → SysCall → Answer} {s t : Process} {newBrk : BitVec 64}

theorem inv_of_boots (hlaw : Lawful host) {c : Config} {m : Mapper} {h : History}
    (hboot : Boots mode32 host c m h s) : s.Inv := by
  obtain ⟨g, m', h', hrun, rfl⟩ := hboot
  have ha := allocate_inv hlaw hrun
  obtain ⟨addr, flags, h₁, h₂, hreserve, hcommit⟩ := ha.mapped
  have hroom := size_le_of_granted hreserve
  have hsize := ha.size
  obtain ⟨reserve, rfl, hnone, hreserved⟩ := covers_of_granted hreserve (by omega)
  obtain ⟨commit, rfl, hrw, hcommitted⟩ := covers_of_granted hcommit (by omega)
  refine ⟨⟨rfl, ?_, ?_, ?_, fun page hpage ↦ ?_, ?_, fun _ hc ↦ absurd hc List.not_mem_nil⟩,
    hcommit.aligned, hroom, le_rfl⟩
  · rw [ha.current]
  · rw [ha.current]
    exact Nat.le_add_right _ _
  · exact Nat.add_le_add_left hsize _
  · -- the commitment comes last, and what it does not cover is reserved
    rw [accessOf_append, accessOf_append, hnone, hrw]
    by_cases hin : Covers commit page
    · rw [if_pos hin]
      exact iff_of_true rfl ((hcommitted page).mp hin).2
    · rw [if_neg hin, if_pos ((hreserved page).mpr hpage)]
      exact iff_of_false (by decide) fun hlt ↦ hin ((hcommitted page).mpr ⟨hpage.1, hlt⟩)
  · rw [List.drop_length]
    exact fun _ hentry ↦ absurd hentry List.not_mem_nil

/-- The globals after the first lines of `set`. -/
def moved (newBrk : BitVec 64) (g : Globals) : Globals :=
  if newBrk = 0 then g else { g with currentBrk := newBrk }

theorem run_set_of_le {g : Globals} {m : Mapper} {h : History}
    (hle : ¬(moved newBrk g).initialBrk + (moved newBrk g).currentBrkSize <
      (moved newBrk g).currentBrk) :
    run (oracle host) h (set mode32 newBrk g m) =
      (.ok (if newBrk = 0 then g.currentBrk else newBrk, moved newBrk g, m), h) := by
  rw [set]
  exact congrArg (run (oracle host) h) (if_neg hle)

theorem run_set_of_lt {g g' : Globals} {m m' : Mapper} {h h' : History}
    (hlt : (moved newBrk g).initialBrk + (moved newBrk g).currentBrkSize <
      (moved newBrk g).currentBrk)
    (hgrow : run (oracle host) h (grow mode32 (moved newBrk g) m) = (.ok (g', m'), h')) :
    run (oracle host) h (set mode32 newBrk g m) =
      (.ok (if newBrk = 0 then g.currentBrk else newBrk, g', m'), h') := by
  rw [set]
  refine (congrArg (run (oracle host) h) (if_pos hlt)).trans ?_
  exact run_bind_of_ok _ hgrow

/-- The break stays in the committed part, or is only asked for. -/
theorem Process.Inv.stay (mode32 : Bool) (host : History → SysCall → Answer) (hinv : s.Inv)
    (hin : newBrk = 0 ∨ (s.now.globals.initialBrk.toNat ≤ newBrk.toNat ∧
      newBrk.toNat ≤ s.now.globals.initialBrk.toNat + s.now.globals.currentBrkSize.toNat)) :
    ∃ result, run (oracle host) s.now.history (set mode32 newBrk s.now.globals s.mapper) =
        (.ok (result, moved newBrk s.now.globals, s.mapper), s.now.history) ∧
      Process.Inv { s with
        now := ⟨moved newBrk s.now.globals, s.now.history⟩
        log := s.log ++
          [⟨newBrk, s.now, result, ⟨moved newBrk s.now.globals, s.now.history⟩⟩] } := by
  obtain ⟨⟨hrunning, hlower, hupper, hlimit, hcommitted, hinside, hright⟩, haligned, hroom,
    hbooted⟩ := id hinv
  have hsum : (s.now.globals.initialBrk + s.now.globals.currentBrkSize).toNat =
      s.now.globals.initialBrk.toNat + s.now.globals.currentBrkSize.toNat := by
    rw [BitVec.toNat_add, Nat.mod_eq_of_lt (by omega)]
  by_cases hzero : newBrk = 0
  · have hmoved : moved newBrk s.now.globals = s.now.globals := if_pos hzero
    refine ⟨_, run_set_of_le ?_, ?_⟩
    · rw [hmoved, BitVec.lt_def, hsum]
      exact Nat.not_lt.mpr hupper
    · rw [hmoved, if_pos hzero]
      refine ⟨⟨hrunning, hlower, hupper, hlimit, hcommitted, hinside, fun c hc ↦ ?_⟩, haligned,
        hroom, hbooted⟩
      obtain hold | hnew := List.mem_append.mp hc
      · exact hright c hold
      · obtain rfl := List.mem_singleton.mp hnew
        exact .inr ⟨.inl hzero, rfl, rfl, fun _ ↦ rfl⟩
  · have hmoved : moved newBrk s.now.globals = { s.now.globals with currentBrk := newBrk } :=
      if_neg hzero
    obtain ⟨hlo, hhi⟩ := hin.resolve_left hzero
    refine ⟨_, run_set_of_le ?_, ?_⟩
    · rw [hmoved, BitVec.lt_def, hsum]
      exact Nat.not_lt.mpr hhi
    · rw [hmoved, if_neg hzero]
      refine ⟨⟨hrunning, hlo, hhi, hlimit, hcommitted, hinside, fun c hc ↦ ?_⟩, haligned,
        hroom, hbooted⟩
      obtain hold | hnew := List.mem_append.mp hc
      · exact hright c hold
      · obtain rfl := List.mem_singleton.mp hnew
        exact .inl ⟨⟨hlo, hhi.trans hlimit⟩, rfl, rfl⟩

/-- The size that the area grows to, without the wrapping. -/
theorem toNat_newSize {g : Globals} (hroom : g.initialBrk.toNat + g.maxBrkSize.toNat ≤ 2 ^ 56)
    (hpast : g.initialBrk.toNat + g.currentBrkSize.toNat < newBrk.toNat)
    (hfits : newBrk.toNat ≤ g.initialBrk.toNat + g.maxBrkSize.toNat) :
    (newSize { g with currentBrk := newBrk }).toNat =
      min (2 * (newBrk.toNat - g.initialBrk.toNat)) g.maxBrkSize.toNat := by
  have hdouble : ((newBrk - g.initialBrk) * 2).toNat =
      2 * (newBrk.toNat - g.initialBrk.toNat) := by
    have hle : g.initialBrk ≤ newBrk := BitVec.le_def.mpr (by omega)
    have htwo : (2 : BitVec 64).toNat = 2 := rfl
    rw [BitVec.toNat_mul, BitVec.toNat_sub_of_le hle, htwo, Nat.mod_eq_of_lt (by omega)]
    omega
  rw [newSize]
  simp only
  split
  · next hcap =>
    rw [BitVec.lt_def, BitVec.lt_def, hdouble] at hcap
    omega
  · next hcap =>
    rw [BitVec.lt_def, BitVec.lt_def, hdouble] at hcap
    rw [hdouble]
    omega

/-- The committed part grows to the size that `set` computes. -/
theorem run_grow (hlaw : Lawful host) {g : Globals} {m : Mapper} {h : History}
    (hroom : g.initialBrk.toNat + g.maxBrkSize.toNat ≤ 2 ^ 56)
    (hpast : g.initialBrk.toNat + g.currentBrkSize.toNat < newBrk.toNat)
    (hfits : newBrk.toNat ≤ g.initialBrk.toNat + g.maxBrkSize.toNat)
    (haligned : PageAligned (g.initialBrk.toNat + g.currentBrkSize.toNat)) {r : ℕ}
    (hgrant : host h (commit mode32 g newBrk) = .ok r)
    (hlist : mode32 = true → g.initialBrk.toNat + g.currentBrkSize.toNat < uint32Max ∧
      Replaces m.freelist (g.initialBrk.toNat + g.currentBrkSize.toNat)
        (roundUp (growth g newBrk))) :
    ∃ m', run (oracle host) h (grow mode32 { g with currentBrk := newBrk } m) =
      (.ok ({ g with
        currentBrk := newBrk
        currentBrkSize := newSize { g with currentBrk := newBrk } }, m'),
        h ++ [(commit mode32 g newBrk,
          .ok (g.initialBrk.toNat + g.currentBrkSize.toNat))]) := by
  have hsize := toNat_newSize hroom hpast hfits
  have hend : (g.initialBrk + g.currentBrkSize).toNat =
      g.initialBrk.toNat + g.currentBrkSize.toNat := by
    rw [BitVec.toNat_add, Nat.mod_eq_of_lt (by omega)]
  have hpage : (g.initialBrk + g.currentBrkSize) &&& 0xFFF = 0 := by
    apply BitVec.eq_of_toNat_eq
    rw [BitVec.toNat_and, hend]
    have hmask := Nat.and_two_pow_sub_one_eq_mod (g.initialBrk.toNat + g.currentBrkSize.toNat) 12
    unfold PageAligned at haligned
    exact hmask.trans haligned
  have hgrowth : (newSize { g with currentBrk := newBrk } - g.currentBrkSize).toNat =
      growth g newBrk := by
    rw [BitVec.toNat_sub_of_le (BitVec.le_def.mpr (by omega)), hsize]
    rfl
  obtain rfl : r = g.initialBrk.toNat + g.currentBrkSize.toNat :=
    hlaw.fixed _ _ _ _ _ _ _ _ hgrant (.inl rfl)
  have hmap : ∃ m', run (oracle host) h (m.map mode32
      (g.initialBrk.toNat + g.currentBrkSize.toNat) (growth g newBrk) protRw
      ⟨true, false, anonymous⟩ (-1) 0) = (.ok (BitVec.ofNat 64 (g.initialBrk.toNat +
        g.currentBrkSize.toNat), m'), h ++ [(commit mode32 g newBrk,
          .ok (g.initialBrk.toNat + g.currentBrkSize.toNat))]) :=
    run_map_of_grant rfl hgrant hlist
  obtain ⟨m', hmap⟩ := hmap
  refine ⟨m', ?_⟩
  rw [grow]
  refine (run_require_bind hpage _ _).trans ?_
  simp only [hgrowth, hend]
  refine (run_bind_of_ok _ hmap).trans ?_
  refine (run_require_bind ?_ _ _).trans rfl
  rw [← hend, BitVec.ofNat_toNat, BitVec.setWidth_eq]

/-- The break passes the committed part and stays in the area. -/
theorem Process.Inv.pass (hinv : s.Inv) {m : Mapper}
    (hpast : s.now.globals.initialBrk.toNat + s.now.globals.currentBrkSize.toNat < newBrk.toNat)
    (hsat : s.now.globals.Satisfies newBrk)
    (haligned : PageAligned (s.now.globals.initialBrk.toNat +
      s.now.globals.currentBrkSize.toNat)) {g : Globals} {h : History}
    (hg : g = { s.now.globals with
      currentBrk := newBrk
      currentBrkSize := newSize { s.now.globals with currentBrk := newBrk } })
    (hh : h = s.now.history ++ [(commit mode32 s.now.globals newBrk,
      .ok (s.now.globals.initialBrk.toNat + s.now.globals.currentBrkSize.toNat))]) :
    Process.Inv { s with
      now := ⟨g, h⟩
      mapper := m
      log := s.log ++ [⟨newBrk, s.now, newBrk, ⟨g, h⟩⟩] } := by
  obtain ⟨⟨hrunning, hlower, hupper, hlimit, hcommitted, hinside, hright⟩, hstart, hroom,
    hbooted⟩ := id hinv
  have hsize := toNat_newSize hroom hpast hsat.2
  obtain ⟨hlo, hhi⟩ := hsat
  set old := s.now.globals with hold
  -- the pages that the new mapping has
  have hcovers : ∀ page, Covers (commit mode32 old newBrk,
      .ok (old.initialBrk.toNat + old.currentBrkSize.toNat)) page ↔
      old.initialBrk.toNat + old.currentBrkSize.toNat ≤ page * 0x1000 ∧
        page * 0x1000 < old.initialBrk.toNat +
          (newSize { old with currentBrk := newBrk }).toNat := by
    intro page
    have hgrowth : old.initialBrk.toNat + old.currentBrkSize.toNat + growth old newBrk =
        old.initialBrk.toNat + (newSize { old with currentBrk := newBrk }).toNat := by
      rw [hsize, growth]
      omega
    refine and_congr_right fun _ ↦ ?_
    rw [← hgrowth]
    refine page_lt_roundUp haligned ?_ mode32
    rw [growth]
    omega
  subst hg hh
  refine ⟨⟨hrunning, hlo, ?_, ?_, fun page hpage ↦ ?_, fun entry hentry page hpage ↦ ?_,
    fun c hc ↦ ?_⟩, hstart, hroom, ?_⟩
  · change newBrk.toNat ≤ old.initialBrk.toNat + (newSize { old with currentBrk := newBrk }).toNat
    rw [hsize]
    omega
  · change old.initialBrk.toNat + (newSize { old with currentBrk := newBrk }).toNat ≤
      old.initialBrk.toNat + old.maxBrkSize.toNat
    rw [hsize]
    omega
  · rw [accessOf_append]
    change _ ↔ page * 0x1000 < old.initialBrk.toNat +
      (newSize { old with currentBrk := newBrk }).toNat
    split
    · next hin => exact iff_of_true rfl ((hcovers page).mp hin).2
    · next hout =>
      rw [hcommitted page hpage]
      rw [hcovers] at hout
      omega
  · rw [List.drop_append_of_le_length hbooted] at hentry
    obtain hbefore | hnew := List.mem_append.mp hentry
    · exact hinside entry hbefore page hpage
    · obtain rfl := List.mem_singleton.mp hnew
      obtain ⟨hge, hlt⟩ := (hcovers page).mp hpage
      refine ⟨?_, ?_⟩
      · change old.initialBrk.toNat ≤ page * 0x1000
        omega
      · change page * 0x1000 < old.initialBrk.toNat + old.maxBrkSize.toNat
        omega
  · obtain hbefore | hnew := List.mem_append.mp hc
    · exact hright c hbefore
    · obtain rfl := List.mem_singleton.mp hnew
      exact .inl ⟨⟨hlo, hhi⟩, rfl, rfl⟩
  · refine hbooted.trans ?_
    rw [List.length_append]
    exact Nat.le_add_right _ _

/-- One call that reaches none of the defects. -/
theorem Process.Inv.step (hlaw : Lawful host) (hinv : s.Inv)
    (hstep : Guarded (CallOk mode32 host) (Step mode32 host) s newBrk t) : t.Inv := by
  obtain ⟨hok, hstep⟩ := hstep
  -- the call returns, and the process it returns to is the only one
  have hreturns : ∃ result g m h,
      run (oracle host) s.now.history (set mode32 newBrk s.now.globals s.mapper) =
        (.ok (result, g, m), h) ∧
      Process.Inv { s with
        now := ⟨g, h⟩
        mapper := m
        log := s.log ++ [⟨newBrk, s.now, result, ⟨g, h⟩⟩] } := by
    by_cases hin : newBrk = 0 ∨ (s.now.globals.initialBrk.toNat ≤ newBrk.toNat ∧
        newBrk.toNat ≤ s.now.globals.initialBrk.toNat + s.now.globals.currentBrkSize.toNat)
    · obtain ⟨result, hrun, ht⟩ := hinv.stay mode32 host hin
      exact ⟨_, _, _, _, hrun, ht⟩
    · have hzero : newBrk ≠ 0 := fun h ↦ hin (.inl h)
      obtain ⟨hpast, hsat, haligned, ⟨r, hgrant⟩, hlist⟩ :=
        (hok.resolve_left hzero).resolve_left fun h ↦ hin (.inr h)
      obtain ⟨m', hgrow⟩ := run_grow (m := s.mapper) hlaw hinv.room hpast hsat.2 haligned hgrant
        hlist
      have hmoved : moved newBrk s.now.globals = { s.now.globals with currentBrk := newBrk } :=
        if_neg hzero
      have hlt : (moved newBrk s.now.globals).initialBrk +
          (moved newBrk s.now.globals).currentBrkSize <
          (moved newBrk s.now.globals).currentBrk := by
        have hroom := hinv.room
        have hlimit := hinv.sound.limit
        rw [hmoved, BitVec.lt_def, BitVec.toNat_add, Nat.mod_eq_of_lt (by simp only; omega)]
        exact hpast
      rw [← hmoved] at hgrow
      have hrun := run_set_of_lt hlt hgrow
      rw [if_neg hzero] at hrun
      exact ⟨_, _, _, _, hrun, hinv.pass hpast hsat haligned (by rw [hmoved]) rfl⟩
  obtain ⟨result, g, m, h, hrun, ht⟩ := hreturns
  cases hstep with
  | returns hrun' =>
    have heq := hrun'.symm.trans hrun
    simp only [Prod.mk.injEq, Except.ok.injEq] at heq
    obtain ⟨⟨rfl, rfl, rfl⟩, rfl⟩ := heq
    exact ht
  | aborts hrun' =>
    have heq := hrun'.symm.trans hrun
    simp at heq

/-- In every run of a process that `allocate` has set up, in either mode, whose calls all meet
`CallOk`, the law of the break holds. -/
theorem brk_of_run (hlaw : Lawful host) {c : Config} {m : Mapper} {h : History} {s₀ : Process}
    {calls : List (BitVec 64)} (hboot : Boots mode32 host c m h s₀)
    (hrun : Run (Guarded (CallOk mode32 host) (Step mode32 host)) s₀ calls s) : s.Sound :=
  (hrun.invariant (inv_of_boots hlaw hboot) fun _ _ _ hinv hstep ↦ hinv.step hlaw hstep).sound

end

/-- A kernel that grants every mapping at a chosen address. -/
def generous : History → SysCall → Answer
  | _, .mmap addr size _ flags _ _ =>
    if (flags.fixed ∨ flags.fixedNoreplace) ∧ 0 < size ∧ addr % 0x1000 = 0 ∧ addr + size ≤ 2 ^ 56
    then .ok addr else .failed 12
  | _, _ => .failed 38

theorem lawful_generous : Lawful generous := by
  have hmmap : ∀ h addr size prot flags fd offset r,
      generous h (.mmap addr size prot flags fd offset) = .ok r →
        r = addr ∧ 0 < size ∧ addr % 0x1000 = 0 ∧ addr + size ≤ 2 ^ 56 := by
    intro h addr size prot flags fd offset r hr
    simp only [generous] at hr
    split at hr
    · next hc =>
      injection hr with hr
      exact ⟨hr.symm, hc.2⟩
    · exact Answer.noConfusion hr
  refine ⟨fun h call e he ↦ ?_, fun _ _ _ _ _ _ _ _ hr _ ↦ (hmmap _ _ _ _ _ _ _ _ hr).1,
    fun _ _ _ _ _ _ _ _ hr ↦ (hmmap _ _ _ _ _ _ _ _ hr).2.1,
    fun _ _ _ _ _ _ _ _ hr ↦ ?_, fun _ _ _ _ _ _ _ _ hr ↦ ?_⟩
  · have hcode : e = 12 ∨ e = 38 := by
      cases call with
      | mmap addr size prot flags fd offset =>
        simp only [generous] at he
        split at he
        · exact Answer.noConfusion he
        · injection he with he
          exact .inl he.symm
      | _ =>
        injection he with he
        exact .inr he.symm
    omega
  · obtain ⟨rfl, -, haligned, -⟩ := hmmap _ _ _ _ _ _ _ _ hr
    exact haligned
  · obtain ⟨rfl, -, -, hle⟩ := hmmap _ _ _ _ _ _ _ _ hr
    exact hle

/-- No size and no base are configured, and the host has 8 GiB of memory. -/
def plainConfig : Config := ⟨0, 0, 0x555555556000, some 0x200000000⟩

/-- The first calls of a 64-bit process. -/
def plainStart : History :=
  [(.mmap 0x555555556000 0x100000000 0 ⟨false, true, 0x4022⟩ (-1) 0, .ok 0x555555556000),
    (.mmap 0x555555556000 0x8000000 3 ⟨true, false, 0x22⟩ (-1) 0, .ok 0x555555556000)]

def plainMapper : Mapper := ⟨[], fun _ ↦ none⟩

def plain : Process :=
  ⟨⟨⟨0x555555556000, 0x555555556000, 0x8000000, 0x100000000⟩, plainStart⟩, plainMapper, 2,
    false, []⟩

theorem boots_plain : Boots false generous plainConfig plainMapper [] plain :=
  ⟨_, _, _, rfl, rfl⟩

/-- The break is asked for, passes the committed part, and comes back. -/
theorem sound_grown : ∃ s, Run (Guarded (CallOk false generous) (Step false generous)) plain
    [0, 0x55555D557000, 0x555555557000] s ∧ s.Sound ∧
      s.now.globals = ⟨0x555555556000, 0x555555557000, 0x10002000, 0x100000000⟩ := by
  have hrun : Run (Guarded (CallOk false generous) (Step false generous)) plain
      [0, 0x55555D557000, 0x555555557000] _ :=
    .cons ⟨.inl rfl, .returns rfl⟩
      (.cons ⟨.inr (.inr ⟨by decide, ⟨by decide, by decide⟩, by decide, ⟨_, rfl⟩,
        fun hmode ↦ nomatch hmode⟩), .returns rfl⟩
        (.single ⟨.inr (.inl ⟨by decide, by decide⟩), .returns rfl⟩))
  exact ⟨_, hrun, brk_of_run lawful_generous boots_plain hrun, by decide⟩

/-- A break below the area is taken. -/
theorem not_sound_below : ¬∀ (mode32 : Bool) (host : History → SysCall → Answer) (c : Config)
    (m : Mapper) (h : History) (s₀ s : Process) (calls : List (BitVec 64)), Lawful host →
    Boots mode32 host c m h s₀ → Run (Step mode32 host) s₀ calls s → s.Sound := by
  intro hall
  have hsound := hall false generous plainConfig plainMapper [] plain _ [0x1000] lawful_generous
    boots_plain (.single (.returns rfl))
  exact absurd hsound.lower (by decide)

end Brk

end Felix86
