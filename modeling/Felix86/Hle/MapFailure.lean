import Felix86.Hle.Brk

/-!
# Who notices that a mapping failed

Every caller of `Mapper::map` looks at what comes back and either goes on with it as an address or
takes a fallback or an error path. The callers test for different things: for `MAP_FAILED`, for a
negative number, for a positive one, for the address they asked for. `Site` has the places where a
mapping is requested, with the values that go into the request; `request` is what is asked for and
`accepts` the test. The callers of `brk.cpp` are in `Felix86.Hle.Brk`; the stack, the loader and the
two system calls are here.

In 32-bit mode an error is a negated `errno`, and only `-EPERM` is `MAP_FAILED`. The reservation of
the stack, the reservation for a program and the one for its zeroed pages test for `MAP_FAILED`.
-/

namespace Felix86

namespace MapFailure

open Dialogue Mapper Brk

/-! ## The places -/

/-- The requests that are made, with their arguments. -/
inductive Site
  | brkReserve32 (base maxBrkSize : BitVec 64)
  | brkAnywhere32 (maxBrkSize : BitVec 64)
  | brkCommit32 (base size : BitVec 64)
  | brkReserve64 (base maxBrkSize : BitVec 64)
  | brkAnywhere64 (maxBrkSize : BitVec 64)
  | brkCommit64 (base size : BitVec 64)
  | brkGrow (endBrk sizePastEnd : BitVec 64)
  | stackReserve (stackHint maxStackSize : BitVec 64)
  | stackCommit (address stackSize : BitVec 64)
  | elfBaseHint (baseHint highestVaddr : BitVec 64)
  | elfBase (highestVaddr : BitVec 64)
  | elfSegment (segmentBase segmentSize : BitVec 64) (prot : ℕ) (fd : ℤ) (offset : BitVec 64)
  | elfBss (bssPageStart excessSize : BitVec 64) (prot : ℕ)
  | mmap (low : Bool) (addr size : BitVec 64) (prot : ℕ) (flags : MapFlags) (fd : ℤ)
      (offset : BitVec 64) (errno : ℕ)
  | mmapPgoff (addr size : BitVec 64) (prot : ℕ) (flags : MapFlags) (fd : ℤ) (offset : BitVec 64)
      (errno : ℕ)

namespace Site

/-- Whether the request is served by `map32`. The 64-bit `mmap` uses it for low addresses too. -/
def mode32 (gMode32 : Bool) : Site → Bool
  | mmap low .. => low
  | _ => gMode32

/-- `MAP_PRIVATE | MAP_ANONYMOUS | MAP_GROWSDOWN | MAP_NORESERVE`. -/
def growsdownNoreserve : ℕ := 0x4122

/-- `MAP_PRIVATE | MAP_ANONYMOUS | MAP_GROWSDOWN`. -/
def growsdown : ℕ := 0x122

/-- `MAP_PRIVATE`. -/
def mapPrivate : ℕ := 2

/-- The arguments of `Mapper::map`. -/
structure Arguments where
  addr : BitVec 64
  size : BitVec 64
  prot : ℕ
  flags : MapFlags
  fd : ℤ
  offset : BitVec 64

def arguments : Site → Arguments
  | brkReserve32 base size => ⟨base, size, protNone, ⟨false, true, anonymous⟩, -1, 0⟩
  | brkAnywhere32 size => ⟨0, size, protNone, ⟨false, false, anonymous⟩, -1, 0⟩
  | brkCommit32 base size => ⟨base, size, protRw, ⟨true, false, anonymous⟩, -1, 0⟩
  | brkReserve64 base size => ⟨base, size, protNone, ⟨false, true, noreserve⟩, -1, 0⟩
  | brkAnywhere64 size => ⟨0, size, protNone, ⟨false, false, noreserve⟩, -1, 0⟩
  | brkCommit64 base size => ⟨base, size, protRw, ⟨true, false, anonymous⟩, -1, 0⟩
  | brkGrow endBrk size => ⟨endBrk, size, protRw, ⟨true, false, anonymous⟩, -1, 0⟩
  | stackReserve hint size => ⟨hint, size, protNone, ⟨false, true, growsdownNoreserve⟩, -1, 0⟩
  | stackCommit address size => ⟨address, size, protRw, ⟨true, false, growsdown⟩, -1, 0⟩
  | elfBaseHint hint size => ⟨hint, size, 0, ⟨false, true, anonymous⟩, -1, 0⟩
  | elfBase size => ⟨0, size, 0, ⟨false, false, anonymous⟩, -1, 0⟩
  | elfSegment base size prot fd offset => ⟨base, size, prot, ⟨true, false, mapPrivate⟩, fd, offset⟩
  | elfBss start size prot => ⟨start, size, prot, ⟨true, false, anonymous⟩, -1, 0⟩
  | mmap _ addr size prot flags fd offset _ => ⟨addr, size, prot, flags, fd, offset⟩
  | mmapPgoff addr size prot flags fd offset _ => ⟨addr, size, prot, flags, fd, offset⟩

/-- The request. -/
def request (s : Site) (gMode32 : Bool) (m : Mapper) : Code (BitVec 64 × Mapper) :=
  m.map (s.mode32 gMode32) s.arguments.addr.toNat s.arguments.size.toNat s.arguments.prot
    s.arguments.flags s.arguments.fd s.arguments.offset.toNat

/-- `Result::operator=`, which takes `-1` for a failed system call. -/
def result (errno : ℕ) (inner : BitVec 64) : BitVec 64 :=
  if inner = -1 then BitVec.ofInt 64 (-errno) else inner

/-- The test of what comes back: the caller goes on with it as an address. -/
def accepts (gMode32 : Bool) (v : BitVec 64) : Site → Bool
  | brkReserve32 .. => decide ¬v.toInt < 0
  | brkAnywhere32 .. => decide (0 < v.toInt)
  | brkCommit32 .. => decide (0 ≤ v.toInt)
  | brkReserve64 .. => v != mapFailed
  | brkAnywhere64 .. => v != mapFailed
  | brkCommit64 .. => v != mapFailed
  | brkGrow endBrk _ => v == endBrk
  | stackReserve .. => v != mapFailed
  | stackCommit .. => v != mapFailed && (!gMode32 || decide (v.toNat < uint32Max))
  | elfBaseHint .. => v != mapFailed
  | elfBase .. => v != mapFailed
  | elfSegment base .. => v != mapFailed && v == base
  | elfBss .. => v != mapFailed
  | mmap _ _ _ _ _ _ _ errno => decide (0 < (result errno v).toInt)
  | mmapPgoff _ _ _ _ _ _ errno => decide (0 < (result errno v).toInt)

/-- The request and the test. -/
def judge (s : Site) (gMode32 : Bool) (m : Mapper) : Code (Option (BitVec 64) × Mapper) := do
  let (v, m) ← s.request gMode32 m
  return (if s.accepts gMode32 v then some v else none, m)

/-- The place is reached in this mode. The committed end is page aligned by the assertion before
`brkGrow`, and `errno` is one. -/
def Reached (gMode32 : Bool) : Site → Prop
  | brkReserve32 .. | brkAnywhere32 .. | brkCommit32 .. => gMode32 = true
  | brkReserve64 .. | brkAnywhere64 .. | brkCommit64 .. => gMode32 = false
  | brkGrow endBrk _ => PageAligned endBrk.toNat
  | mmap low _ _ _ _ _ _ errno => (gMode32 = true → low = true) ∧ errno ≤ 4095
  | mmapPgoff _ _ _ _ _ _ errno => gMode32 = true ∧ errno ≤ 4095
  | _ => True

/-- The test is for `MAP_FAILED` only, and there is no other. -/
def TestsMapFailed : Site → Bool
  | stackReserve .. | elfBaseHint .. | elfBase .. | elfBss .. => true
  | _ => false

/-- The test takes address zero for a failure. -/
def TestsPositive : Site → Bool
  | brkAnywhere32 .. | mmap .. | mmapPgoff .. => true
  | _ => false

/-! ## What each test does -/

section

variable {s : Site} {gMode32 : Bool} {host : History → SysCall → Answer} {h h' : History}
  {m m' : Mapper} {v : BitVec 64}

/-- The request got a mapping at the address that came back. -/
def Got (s : Site) (gMode32 : Bool) (h : History) (v : BitVec 64) (h' : History) : Prop :=
  Granted (s.mode32 gMode32) s.arguments.addr.toNat s.arguments.size.toNat s.arguments.prot
    s.arguments.flags h v h'

theorem toInt_result_nonpos {errno : ℕ} (herrno : errno ≤ 4095) (hv : v.toInt < 0) :
    ¬0 < (result errno v).toInt := by
  rw [result]
  split
  · rw [BitVec.toInt_ofInt, Int.bmod_eq_of_le (by omega) (by omega)]
    omega
  · omega

theorem result_of_nonneg {errno : ℕ} (hv : 0 ≤ v.toInt) : result errno v = v := by
  refine if_neg ?_
  rintro rfl
  exact absurd hv (by decide)

theorem eq_zero_of_toInt (hv : v.toInt = 0) : v = 0 := BitVec.eq_of_toInt_eq hv

theorem zero_lt_toInt_iff (hv : 0 ≤ v.toInt) : 0 < v.toInt ↔ v ≠ 0 := by
  constructor
  · rintro hpos rfl
    exact absurd hpos (by decide)
  · intro hne
    have hzero : v.toInt ≠ 0 := fun h ↦ hne (eq_zero_of_toInt h)
    omega

/-- A failure passes the tests for `MAP_FAILED` unless it is that. -/
theorem accepts_of_refused (hreach : s.Reached gMode32)
    (hlow : s.mode32 gMode32 = true → s.arguments.flags.fixed = true →
      s.arguments.addr.toNat < uint32Max)
    (hr : Refused (s.mode32 gMode32) h v h') :
    s.accepts gMode32 v = true ↔ s.TestsMapFailed = true ∧ v ≠ mapFailed := by
  have hneg := hr.toInt_neg
  have hge := hr.toNat_ge
  have hfailed : s.mode32 gMode32 = false → v = mapFailed := by
    intro hmode
    rw [hmode] at hr
    exact hr.eq_mapFailed
  cases s with
  | brkReserve32 => simp [accepts, TestsMapFailed, hneg]
  | brkAnywhere32 => simp [accepts, TestsMapFailed, hneg.le]
  | brkCommit32 => simp [accepts, TestsMapFailed, hneg]
  | brkReserve64 => simp [accepts, TestsMapFailed, hfailed hreach]
  | brkAnywhere64 => simp [accepts, TestsMapFailed, hfailed hreach]
  | brkCommit64 => simp [accepts, TestsMapFailed, hfailed hreach]
  | brkGrow endBrk sizePastEnd =>
    have hne : v ≠ endBrk := by
      rintro rfl
      have haligned : v.toNat % 0x1000 = 0 := hreach
      have hlt := v.isLt
      omega
    simp [accepts, TestsMapFailed, hne]
  | stackReserve => simp [accepts, TestsMapFailed]
  | stackCommit address stackSize =>
    cases gMode32 with
    | false => simp [accepts, TestsMapFailed, hfailed rfl]
    | true =>
      have hlarge : ¬v.toNat < uint32Max := by
        unfold uint32Max
        omega
      simp [accepts, TestsMapFailed, hlarge]
  | elfBaseHint => simp [accepts, TestsMapFailed]
  | elfBase => simp [accepts, TestsMapFailed]
  | elfSegment segmentBase segmentSize prot fd offset =>
    cases gMode32 with
    | false => simp [accepts, TestsMapFailed, hfailed rfl]
    | true =>
      have hne : v ≠ segmentBase := by
        rintro rfl
        have hlt : v.toNat < uint32Max := hlow rfl rfl
        unfold uint32Max at hlt
        omega
      simp [accepts, TestsMapFailed, hne]
  | elfBss => simp [accepts, TestsMapFailed]
  | mmap low addr size prot flags fd offset errno =>
    have hnot := toInt_result_nonpos hreach.2 hneg
    simp only [accepts, TestsMapFailed, decide_eq_true_eq]
    simpa using hnot
  | mmapPgoff addr size prot flags fd offset errno =>
    have hnot := toInt_result_nonpos hreach.2 hneg
    simp only [accepts, TestsMapFailed, decide_eq_true_eq]
    simpa using hnot

/-- A mapping passes every test, unless it is at address zero and the test is for a positive
number. -/
theorem accepts_of_got
    (hlow : s.mode32 gMode32 = true → s.arguments.flags.fixed = true →
      s.arguments.addr.toNat < uint32Max)
    (hg : s.Got gMode32 h v h') :
    s.accepts gMode32 v = true ↔ ¬(s.TestsPositive = true ∧ v = 0) := by
  have hnonneg : 0 ≤ v.toInt := hg.toInt_nonneg
  have hne : v ≠ mapFailed := hg.ne_mapFailed
  have hfixed : s.arguments.flags.fixed = true → v = s.arguments.addr := by
    intro hflag
    rw [hg.fixed (.inl hflag), BitVec.ofNat_toNat, BitVec.setWidth_eq]
  cases s with
  | brkReserve32 => simp [accepts, TestsPositive, hnonneg]
  | brkAnywhere32 => simp [accepts, TestsPositive, zero_lt_toInt_iff hnonneg]
  | brkCommit32 => simp [accepts, TestsPositive, hnonneg]
  | brkReserve64 => simp [accepts, TestsPositive, hne]
  | brkAnywhere64 => simp [accepts, TestsPositive, hne]
  | brkCommit64 => simp [accepts, TestsPositive, hne]
  | brkGrow endBrk sizePastEnd =>
    have heq : v = endBrk := hfixed rfl
    simp [accepts, TestsPositive, heq]
  | stackReserve => simp [accepts, TestsPositive, hne]
  | stackCommit address stackSize =>
    cases gMode32 with
    | false => simp [accepts, TestsPositive, hne]
    | true =>
      have heq : v = address := hfixed rfl
      have hlt : address.toNat < uint32Max := hlow rfl rfl
      rw [heq] at hne
      simp [accepts, TestsPositive, hne, heq, hlt]
  | elfBaseHint => simp [accepts, TestsPositive, hne]
  | elfBase => simp [accepts, TestsPositive, hne]
  | elfSegment segmentBase segmentSize prot fd offset =>
    have heq : v = segmentBase := hfixed rfl
    rw [heq] at hne
    simp [accepts, TestsPositive, heq, hne]
  | elfBss => simp [accepts, TestsPositive, hne]
  | mmap => simp [accepts, TestsPositive, result_of_nonneg hnonneg, zero_lt_toInt_iff hnonneg]
  | mmapPgoff => simp [accepts, TestsPositive, result_of_nonneg hnonneg, zero_lt_toInt_iff hnonneg]

/-- The failures that are taken for an address, and the addresses that are taken for a failure. -/
def Misjudged (s : Site) (gMode32 : Bool) (v : BitVec 64) : Prop :=
  (s.TestsMapFailed = true ∧ gMode32 = true ∧ v.toInt < 0 ∧ v ≠ mapFailed) ∨
    (s.TestsPositive = true ∧ v = 0)

theorem mode32_of_testsMapFailed (gMode32 : Bool) (hs : s.TestsMapFailed = true) :
    s.mode32 gMode32 = gMode32 := by
  cases s with
  | mmap => exact Bool.noConfusion hs
  | _ => rfl

/-- For every place, every request there and everything that can come back: the caller goes on with
it exactly if it is the address of a mapping, unless it is one of those that are misjudged. -/
theorem accepts_iff_got (hlaw : Lawful host) (hreach : s.Reached gMode32)
    (hrun : run (oracle host) h (s.request gMode32 m) = (.ok (v, m'), h')) :
    (s.accepts gMode32 v = true ↔ s.Got gMode32 h v h') ↔ ¬s.Misjudged gMode32 v := by
  have hlow : s.mode32 gMode32 = true → s.arguments.flags.fixed = true →
      s.arguments.addr.toNat < uint32Max := by
    intro hmode hfixed
    rw [request, hmode] at hrun
    exact lt_of_run_map (.inl hfixed) hrun
  obtain hr | hg := map_inv hlaw hrun
  · have hneg := hr.toInt_neg
    have hnot : ¬s.Got gMode32 h v h' := fun hg ↦ absurd hg.toInt_nonneg (not_le.mpr hneg)
    have hzero : v ≠ 0 := by
      rintro rfl
      exact absurd hneg (by decide)
    rw [accepts_of_refused hreach hlow hr, iff_false_right hnot, not_iff_not, Misjudged]
    constructor
    · rintro ⟨hs, hne⟩
      refine .inl ⟨hs, ?_, hneg, hne⟩
      rw [← mode32_of_testsMapFailed gMode32 hs]
      by_contra hmode
      rw [Bool.not_eq_true] at hmode
      rw [hmode] at hr
      exact hne hr.eq_mapFailed
    · rintro (⟨hs, -, -, hne⟩ | ⟨-, rfl⟩)
      · exact ⟨hs, hne⟩
      · exact absurd rfl hzero
  · have hnonneg := hg.toInt_nonneg
    have hgot : s.Got gMode32 h v h' := hg
    rw [accepts_of_got hlow hgot, iff_true_right hgot, not_iff_not, Misjudged]
    constructor
    · exact .inr
    · rintro (⟨-, -, hneg, -⟩ | h)
      · exact absurd hneg (not_lt.mpr hnonneg)
      · exact h

end

end Site

/-! ## The callers -/

/-- `ERROR`. -/
def error {α : Type} : Code α := fault Freelist.Fault.assertion

/-- `allocate32` and `allocate64` judge as their places do. -/
theorem reserve32_eq (m : Mapper) (base maxBrkSize : BitVec 64) :
    reserve32 m base maxBrkSize = (do
      match ← (Site.brkReserve32 base maxBrkSize).judge true m with
      | (some maxBrk, m) => if base = maxBrk then return (base, m) else error
      | (none, m) =>
        match ← (Site.brkAnywhere32 maxBrkSize).judge true m with
        | (some maxBrk, m) => return (maxBrk, m)
        | (none, _) => error) := by
  simp only [reserve32, Site.judge, Site.accepts, Mapper.assert, require_bind, bind_assoc,
    pure_bind]
  refine bind_congr fun r ↦ ?_
  by_cases hneg : r.1.toInt < 0
  · simp only [hneg, if_true, not_true_eq_false, decide_false, Bool.false_eq_true, if_false]
    refine bind_congr fun r' ↦ ?_
    by_cases hpos : 0 < r'.1.toInt
    · simp [hpos]
    · simp [hpos, error]
  · simp [hneg, error]

theorem allocate32_eq (c : Config) (m : Mapper) :
    allocate32 c m = (do
      if c.base.toNat ≤ uint32Max then
        let (base, m) ← reserve32 m c.base c.max32
        let size := initialSize c.max32 size32
        match ← (Site.brkCommit32 base size).judge true m with
        | (some current, m) => return (⟨current, current, size, c.max32⟩, m)
        | (none, _) => error
      else error) := by
  simp only [allocate32, Site.judge, Site.accepts, Mapper.assert, require_bind, bind_assoc,
    pure_bind]
  refine if_congr Iff.rfl (bind_congr fun r ↦ bind_congr fun r' ↦ ?_) rfl
  by_cases hnonneg : 0 ≤ r'.1.toInt
  · simp [hnonneg]
  · simp [hnonneg, error]

theorem reserve64_zero_eq (m : Mapper) (base maxBrkSize : BitVec 64) :
    reserve64 m base maxBrkSize 0 = (do
      match ← (Site.brkAnywhere64 maxBrkSize).judge false m with
      | (some brkBase, m) => return (brkBase, m)
      | (none, _) => error) := by
  simp only [reserve64, Site.judge, Site.accepts, Mapper.assert, require_bind, bind_assoc,
    pure_bind]
  refine bind_congr fun r ↦ ?_
  by_cases hfail : r.1 = mapFailed
  · simp [hfail, error]
  · simp [hfail]

theorem reserve64_succ_eq (m : Mapper) (base maxBrkSize : BitVec 64) (attempts : ℕ) :
    reserve64 m base maxBrkSize (attempts + 1) = (do
      match ← (Site.brkReserve64 base maxBrkSize).judge false m with
      | (some brkBase, m) => return (brkBase, m)
      | (none, m) => reserve64 m base maxBrkSize attempts) := by
  simp only [reserve64, Site.judge, Site.accepts, bind_assoc, pure_bind]
  refine bind_congr fun r ↦ ?_
  by_cases hfail : r.1 = mapFailed
  · simp [hfail]
  · simp [hfail]

theorem allocate64_eq (c : Config) (m : Mapper) :
    allocate64 c m = (do
      let (base, m) ← reserve64 m c.base c.max64 30
      let size := initialSize c.max64 size64
      match ← (Site.brkCommit64 base size).judge false m with
      | (some current, m) => return (⟨current, current, size, c.max64⟩, m)
      | (none, _) => error) := by
  simp only [allocate64, Site.judge, Site.accepts, Mapper.assert, require_bind, bind_assoc,
    pure_bind]
  refine bind_congr fun r ↦ bind_congr fun r' ↦ ?_
  by_cases hfail : r'.1 = mapFailed
  · simp [hfail, error]
  · simp [hfail]

/-- And so does `set`. -/
theorem grow_eq (gMode32 : Bool) (g : Globals) (m : Mapper) :
    grow gMode32 g m = (do
      let endBrk := g.initialBrk + g.currentBrkSize
      if endBrk &&& 0xFFF = 0 then
        match ← (Site.brkGrow endBrk (newSize g - g.currentBrkSize)).judge gMode32 m with
        | (some _, m) => return ({ g with currentBrkSize := newSize g }, m)
        | (none, _) => error
      else error) := by
  simp only [grow, Site.judge, Site.accepts, Mapper.assert, require_bind, bind_assoc, pure_bind]
  refine if_congr Iff.rfl (bind_congr fun r ↦ ?_) rfl
  by_cases heq : r.1 = g.initialBrk + g.currentBrkSize
  · simp [heq]
  · simp [heq, error]

/-- The two limits that `getrlimit` gives for the stack. -/
structure Limits where
  rlimCur : BitVec 64
  rlimMax : BitVec 64

def rlimInfinity : BitVec 64 := BitVec.allOnes 64

def Limits.stackSize (l : Limits) : BitVec 64 :=
  if l.rlimCur = rlimInfinity then 8 * 1024 * 1024 else l.rlimCur

def Limits.maxStackSize (l : Limits) : BitVec 64 :=
  (if l.rlimMax = rlimInfinity then 16 * 1024 * 1024 else l.rlimMax) &&& ~~~0xFFF#64

/-- The loop of `AllocateStack`: `attempts` more after this one, each below the last. -/
def reserveStack (gMode32 : Bool) (maxStackSize : BitVec 64) :
    ℕ → BitVec 64 → Mapper → Code (BitVec 64 × Mapper)
  | attempts, stackHint, m => do
    match ← (Site.stackReserve stackHint maxStackSize).judge gMode32 m with
    | (some base, m) => return (base, m)
    | (none, m) =>
      match attempts with
      | 0 => error
      | attempts + 1 => reserveStack gMode32 maxStackSize attempts (stackHint - maxStackSize) m

/-- `Threads::AllocateStack`. The limits are missing if `getrlimit` failed. -/
def allocateStack (gMode32 : Bool) (limits : Option Limits) (m : Mapper) :
    Code ((BitVec 64 × BitVec 64) × Mapper) := do
  match limits with
  | none => error
  | some l =>
    let top : BitVec 64 := if gMode32 then 0xBFFFF000 else 0x2AFFFFF000
    let (base, m) ← reserveStack gMode32 l.maxStackSize 14 (top - l.maxStackSize) m
    match ← (Site.stackCommit (base + l.maxStackSize - l.stackSize) l.stackSize).judge gMode32 m
      with
    | (some stackPointer, m) => return ((stackPointer + l.stackSize, l.maxStackSize), m)
    | (none, _) => error

/-- A program header, as far as the loader looks at it: `load` is `p_type == PT_LOAD`. -/
structure Phdr where
  load : Bool
  readable : Bool
  writable : Bool
  executable : Bool
  offset : BitVec 64
  vaddr : BitVec 64
  filesz : BitVec 64
  memsz : BitVec 64

def Phdr.prot (p : Phdr) : ℕ :=
  p.readable.toNat + 2 * p.writable.toNat + 4 * p.executable.toNat

def pageStart (x : BitVec 64) : BitVec 64 := x &&& ~~~4095#64

def pageOffset (x : BitVec 64) : BitVec 64 := x &&& 4095#64

def pageAlign (x : BitVec 64) : BitVec 64 := (x + 4095#64) &&& ~~~4095#64

/-- The first loop over the headers. -/
def highestVaddr (phdrs : List Phdr) : BitVec 64 :=
  phdrs.foldl (fun highest p ↦
    if p.load ∧ p.filesz ≠ 0 ∧ highest < p.vaddr + p.memsz then p.vaddr + p.memsz else highest) 0

/-- The pages of a segment that are not in the file. -/
def loadBss (gMode32 : Bool) (basePtr : BitVec 64) (p : Phdr) (m : Mapper) : Code Mapper := do
  let bssPageStart := pageAlign (basePtr + p.vaddr + p.filesz)
  let bssPageEnd := pageAlign (basePtr + p.vaddr + p.memsz)
  if p.filesz < p.memsz ∧ bssPageStart ≠ bssPageEnd then
    match ← (Site.elfBss bssPageStart (bssPageEnd - bssPageStart) p.prot).judge gMode32 m with
    | (some _, m) => return m
    | (none, _) => error
  else return m

/-- One round of the second loop over the headers. -/
def loadSegment (gMode32 : Bool) (fd : ℤ) (basePtr : BitVec 64) (m : Mapper) (p : Phdr) :
    Code Mapper := do
  if !p.load then return m
  let segmentBase := basePtr + pageStart p.vaddr
  let segmentSize := p.filesz + pageOffset p.vaddr
  if segmentSize ≠ 0 then
    match ← (Site.elfSegment segmentBase segmentSize p.prot fd
      (p.offset - pageOffset p.vaddr)).judge gMode32 m with
    | (some _, m) => loadBss gMode32 basePtr p m
    | (none, _) => error
  else if p.memsz = 0 then error
  else loadBss gMode32 basePtr p m

/-- The reservation of the loader. A program that is not position independent needs none. -/
def reserveElf (gMode32 dyn : Bool) (baseHint : BitVec 64) (phdrs : List Phdr) (m : Mapper) :
    Code (BitVec 64 × Mapper) := do
  if dyn then
    let site := if baseHint ≠ 0 then Site.elfBaseHint baseHint (highestVaddr phdrs)
      else Site.elfBase (highestVaddr phdrs)
    match ← site.judge gMode32 m with
    | (some basePtr, m) => return (basePtr, m)
    | (none, _) => error
  else return (0, m)

/-- The mappings of `Elf::Load`: the reservation and the segments. -/
def loadElf (gMode32 dyn : Bool) (fd : ℤ) (baseHint : BitVec 64) (phdrs : List Phdr) (m : Mapper) :
    Code (BitVec 64 × Mapper) := do
  if pageOffset baseHint ≠ 0 then error
  let (basePtr, m) ← reserveElf gMode32 dyn baseHint phdrs m
  let m ← phdrs.foldlM (loadSegment gMode32 fd basePtr) m
  return (basePtr, m)

/-- `MAP_32BIT`. -/
def is32Bit (flags : MapFlags) : Bool := flags.rest.testBit 6

/-- The `mmap` of the 64-bit table is served by `map32`. -/
def isLow (gMode32 : Bool) (addr : BitVec 64) (flags : MapFlags) : Bool :=
  is32Bit flags || ((flags.fixed || flags.fixedNoreplace) && decide (addr.toNat < uint32Max)) ||
    gMode32

/-- `felix86_riscv64_mmap` and `felix86_x86_32_mmap_pgoff`: what the guest gets, and the range in
which compiled code is invalidated. `errno` is the one that `Result` reads. -/
def mmapSyscall (site : Site) (errno : ℕ) (gMode32 : Bool) (m : Mapper) :
    Code ((BitVec 64 × Option (BitVec 64 × BitVec 64)) × Mapper) := do
  let (v, m) ← site.request gMode32 m
  let result := Site.result errno v
  if site.accepts gMode32 v then
    return ((result, some (result, result + site.arguments.size)), m)
  else return ((result, none), m)

def riscv64Mmap (gMode32 : Bool) (addr size : BitVec 64) (prot : ℕ) (flags : MapFlags) (fd : ℤ)
    (offset : BitVec 64) (errno : ℕ) (m : Mapper) :
    Code ((BitVec 64 × Option (BitVec 64 × BitVec 64)) × Mapper) :=
  mmapSyscall (.mmap (isLow gMode32 addr flags) addr size prot flags fd offset errno)
    errno gMode32 m

/-- The offset of `mmap2` is in pages. -/
def x86MmapPgoff (addr size : BitVec 64) (prot : ℕ) (flags : MapFlags) (fd : ℤ)
    (pages : BitVec 64) (errno : ℕ) (m : Mapper) :
    Code ((BitVec 64 × Option (BitVec 64 × BitVec 64)) × Mapper) :=
  mmapSyscall (.mmapPgoff addr size prot flags fd (pages * 4096) errno) errno true m

/-! ## What the callers go on with -/

section

variable {host : History → SysCall → Answer} {h h' : History} {m m' : Mapper} {s : Site}
  {gMode32 : Bool} {v : BitVec 64}

theorem Site.got_of_judge (hlaw : Lawful host) (hreach : s.Reached gMode32)
    (hrun : run (oracle host) h (s.judge gMode32 m) = (.ok (some v, m'), h'))
    (hok : ¬s.Misjudged gMode32 v) : s.Got gMode32 h v h' := by
  obtain ⟨⟨v', m₁⟩, h₁, hrequest, hend⟩ := exists_of_run_bind hrun
  simp only [run_pure, Prod.mk.injEq, Except.ok.injEq] at hend
  obtain ⟨⟨haccept, rfl⟩, rfl⟩ := hend
  split at haccept
  · next hyes =>
    obtain rfl := Option.some.inj haccept
    exact (accepts_iff_got hlaw hreach hrequest).mpr hok |>.mp hyes
  · exact nomatch haccept

theorem reserveStack_got (hlaw : Lawful host) {maxStackSize stackHint : BitVec 64} {attempts : ℕ}
    (hrun : run (oracle host) h (reserveStack false maxStackSize attempts stackHint m) =
      (.ok (v, m'), h')) :
    ∃ hint h₁, (Site.stackReserve hint maxStackSize).Got false h₁ v h' := by
  induction attempts generalizing h stackHint m with
  | zero =>
    rw [reserveStack] at hrun
    obtain ⟨⟨r, m₁⟩, h₁, hjudge, hrest⟩ := exists_of_run_bind hrun
    cases r with
    | none => exact nomatch congrArg Prod.fst (hrest : (Except.error _, h₁) = _)
    | some base =>
      simp only [run_pure, Prod.mk.injEq, Except.ok.injEq] at hrest
      obtain ⟨⟨rfl, rfl⟩, rfl⟩ := hrest
      exact ⟨_, _, Site.got_of_judge hlaw trivial hjudge
        (by simp [Site.Misjudged, Site.TestsPositive])⟩
  | succ attempts ih =>
    rw [reserveStack] at hrun
    obtain ⟨⟨r, m₁⟩, h₁, hjudge, hrest⟩ := exists_of_run_bind hrun
    cases r with
    | none => exact ih hrest
    | some base =>
      simp only [run_pure, Prod.mk.injEq, Except.ok.injEq] at hrest
      obtain ⟨⟨rfl, rfl⟩, rfl⟩ := hrest
      exact ⟨_, _, Site.got_of_judge hlaw trivial hjudge
        (by simp [Site.Misjudged, Site.TestsPositive])⟩

/-- The stack of a 64-bit program is the end of an area that was reserved, and is mapped. -/
theorem allocateStack_got (hlaw : Lawful host) {limits : Option Limits}
    {stackPointer maxStackSize : BitVec 64}
    (hrun : run (oracle host) h (allocateStack false limits m) =
      (.ok ((stackPointer, maxStackSize), m'), h')) :
    ∃ l hint base h₁ h₂, limits = some l ∧ maxStackSize = l.maxStackSize ∧
      (Site.stackReserve hint maxStackSize).Got false h₁ base h₂ ∧
      (Site.stackCommit (base + maxStackSize - l.stackSize) l.stackSize).Got false h₂
        (stackPointer - l.stackSize) h' := by
  cases limits with
  | none => exact nomatch congrArg Prod.fst (hrun : (Except.error _, h) = _)
  | some l =>
    obtain ⟨⟨base, m₁⟩, h₂, hreserve, hrest⟩ := exists_of_run_bind hrun
    obtain ⟨⟨r, m₂⟩, h₃, hjudge, hend⟩ := exists_of_run_bind hrest
    obtain ⟨hint, h₁, hgot⟩ := reserveStack_got hlaw hreserve
    cases r with
    | none => exact nomatch congrArg Prod.fst (hend : (Except.error _, h₃) = _)
    | some committed =>
      simp only [run_pure, Prod.mk.injEq, Except.ok.injEq] at hend
      obtain ⟨⟨⟨rfl, rfl⟩, rfl⟩, rfl⟩ := hend
      refine ⟨l, hint, base, h₁, h₂, rfl, rfl, hgot, ?_⟩
      rw [BitVec.add_sub_cancel]
      exact Site.got_of_judge hlaw trivial hjudge
        (by simp [Site.Misjudged, Site.TestsPositive, Site.TestsMapFailed])

end

/-- A kernel in which something is at the first place for a stack, and everything else is
granted. -/
def crowded : History → SysCall → Answer
  | h, .mmap addr size prot flags fd offset =>
    if addr = 0xBEFFF000 then .failed 17 else generous h (.mmap addr size prot flags fd offset)
  | _, _ => .failed 38

theorem lawful_crowded : Lawful crowded := by
  have hgrant : ∀ {h addr size prot flags fd offset r},
      crowded h (.mmap addr size prot flags fd offset) = .ok r →
        generous h (.mmap addr size prot flags fd offset) = .ok r := by
    intro h addr size prot flags fd offset r hr
    simp only [crowded] at hr
    split at hr
    · exact nomatch hr
    · exact hr
  refine ⟨fun h call e he ↦ ?_,
    fun _ _ _ _ _ _ _ _ hr ↦ lawful_generous.fixed _ _ _ _ _ _ _ _ (hgrant hr),
    fun _ _ _ _ _ _ _ _ hr ↦ lawful_generous.nonempty _ _ _ _ _ _ _ _ (hgrant hr),
    fun _ _ _ _ _ _ _ _ hr ↦ lawful_generous.aligned _ _ _ _ _ _ _ _ (hgrant hr),
    fun _ _ _ _ _ _ _ _ hr ↦ lawful_generous.bounded _ _ _ _ _ _ _ _ (hgrant hr)⟩
  cases call with
  | mmap addr size prot flags fd offset =>
    simp only [crowded] at he
    split at he
    · injection he with he
      omega
    · exact lawful_generous.errno _ _ _ he
  | _ =>
    injection he with he
    omega

/-- A program grows its break, and the mapping is taken for what it is. Where something is in the
way, the refusal is taken for a refusal. -/
theorem accepts_brkGrow :
    ((Site.brkGrow 0x8000000 0x1000).accepts false 0x8000000 = true ∧
      (Site.brkGrow 0x8000000 0x1000).Got false [] 0x8000000
        [(.mmap 0x8000000 0x1000 3 ⟨true, false, 0x22⟩ (-1) 0, .ok 0x8000000)]) ∧
    (Site.brkGrow 0xBEFFF000 0x1000).accepts false (-1) = false ∧
      ¬(Site.brkGrow 0xBEFFF000 0x1000).Got false [] (-1)
        [(.mmap 0xBEFFF000 0x1000 3 ⟨true, false, 0x22⟩ (-1) 0, .failed 17)] := by
  have hjudged (a v : BitVec 64) : ¬(Site.brkGrow a 0x1000).Misjudged false v := by
    simp [Site.Misjudged, Site.TestsPositive, Site.TestsMapFailed]
  have hgranted :
      run (oracle crowded) [] ((Site.brkGrow 0x8000000 0x1000).request false plainMapper) =
      (.ok (0x8000000, plainMapper),
        [(.mmap 0x8000000 0x1000 3 ⟨true, false, 0x22⟩ (-1) 0, .ok 0x8000000)]) := rfl
  have hrefused :
      run (oracle crowded) [] ((Site.brkGrow 0xBEFFF000 0x1000).request false plainMapper) =
      (.ok (-1, plainMapper),
        [(.mmap 0xBEFFF000 0x1000 3 ⟨true, false, 0x22⟩ (-1) 0, .failed 17)]) := rfl
  have hreach : (Site.brkGrow 0x8000000 0x1000).Reached false :=
    show PageAligned 0x8000000 by decide
  have hreach' : (Site.brkGrow 0xBEFFF000 0x1000).Reached false :=
    show PageAligned 0xBEFFF000 by decide
  have hgot := (Site.accepts_iff_got lawful_crowded hreach hgranted).mpr (hjudged _ _)
  have hnot := (Site.accepts_iff_got lawful_crowded hreach' hrefused).mpr (hjudged _ _)
  exact ⟨⟨by decide, hgot.mp (by decide)⟩, by decide, fun h ↦ absurd (hnot.mpr h) (by decide)⟩

/-- The first place for the stack of a 32-bit program is taken, and `-EEXIST` is gone on with as the
base of the stack. -/
theorem not_accepts_iff_got : ¬∀ (s : Site) (gMode32 : Bool) (host : History → SysCall → Answer)
    (h h' : History) (m m' : Mapper) (v : BitVec 64), Lawful host → s.Reached gMode32 →
    run (oracle host) h (s.request gMode32 m) = (.ok (v, m'), h') →
    (s.accepts gMode32 v = true ↔ s.Got gMode32 h v h') := by
  intro hall
  have hiff := hall (.stackReserve 0xBEFFF000 0x1000000) true crowded [] _ plainMapper _ _
    lawful_crowded trivial rfl
  have hgot := hiff.mp (by decide)
  exact absurd hgot.toInt_nonneg (by decide)

end MapFailure

end Felix86
