import Felix86.Hle.SignalFrame
import Felix86.Lib.Memory

/-!
# The alternate signal stack

`sigaltstack` reports the stack that is recorded, in the record its second argument points to, and
then records the one its first argument points to, unless the thread is running on the recorded one.
The two syscall tables do the same with different layouts of the record.

Four things in it are not what the call is for. Whether the thread is on the stack is decided by
comparing the stack pointer with the size of the stack and not with its end. An enabled stack that
is not in use is reported as disabled. The report is written before the request is read, so a
caller that passes one record for both, which exchanges them, records what was just reported. And
`-EPERM` is -1, which the assignment to a `Result` takes for the failure of a host call: a refused
request returns whatever error the last one left in `errno`, or none.

`CallOk` is the condition under which none of the four is reached; `right_of_callOk` is the law of
one call, `right_of_run` the one of a thread that also takes and returns from signals. A record of
size zero is no stack, which is what a thread starts with.
-/

namespace Felix86

namespace AltStack

open Riscv

/-! ## The record -/

/-- `stack_t`, as the thread keeps it in `alt_stack`. -/
structure Record where
  ssSp : U64
  ssFlags : BitVec 32
  ssSize : U64
deriving DecidableEq, Repr

def ssOnstack : BitVec 32 := 1

def ssDisable : BitVec 32 := 2

def eperm : ℤ := 1

/-- `Result::operator=`, with `errno`. -/
def assignResult (errno inner : ℤ) : ℤ := if inner = -1 then -errno else inner

/-- The two syscall tables: `felix86_riscv64_sigaltstack` with the `stack_t` of the host, and
`felix86_x86_32_sigaltstack` with `x86_stack_t`. -/
inductive Table
  | riscv64
  | x86
deriving DecidableEq, Repr

namespace Table

/-- The bytes of `ss_sp`, and of `ss_size`. -/
def wordSize : Table → ℕ
  | riscv64 => 8
  | x86 => 4

def flagsOffset : Table → ℕ
  | riscv64 => 8
  | x86 => 4

def sizeOffset : Table → ℕ
  | riscv64 => 16
  | x86 => 8

/-- The size of the record. -/
def size : Table → ℕ
  | riscv64 => 24
  | x86 => 12

end Table

/-- The record at an address. The words of the 32-bit record are zero extended. -/
def readRecord (t : Table) (m : Mem) (a : U64) : Record where
  ssSp := m.load (a + BitVec.ofNat 64 0) t.wordSize
  ssFlags := (m.load (a + BitVec.ofNat 64 t.flagsOffset) 4).setWidth 32
  ssSize := m.load (a + BitVec.ofNat 64 t.sizeOffset) t.wordSize

/-! ## The call -/

/-- What the call sees of a thread. -/
structure Thread where
  rsp : U64
  alt : Record
  mem : Mem

/-- `on_stack`. -/
def onStack (s : Thread) : Bool :=
  s.alt.ssFlags &&& ssDisable == 0 && decide (s.alt.ssSp ≤ s.rsp) && decide (s.rsp < s.alt.ssSize)

/-- The report to an `old_ss` that is not null. -/
def writeOld (t : Table) (s : Thread) (oldSs : U64) : Mem :=
  let mem := s.mem.store (oldSs + BitVec.ofNat 64 0) s.alt.ssSp t.wordSize
  let mem := mem.store (oldSs + BitVec.ofNat 64 t.flagsOffset) 0 4
  let mem := mem.store (oldSs + BitVec.ofNat 64 t.sizeOffset) s.alt.ssSize t.wordSize
  if onStack s then mem.store (oldSs + BitVec.ofNat 64 t.flagsOffset) (ssOnstack.setWidth 64) 4
  else mem.store (oldSs + BitVec.ofNat 64 t.flagsOffset) (ssDisable.setWidth 64) 4

/-- The first part of the call. -/
def report (t : Table) (oldSs : U64) (s : Thread) : Mem :=
  if oldSs ≠ 0 then writeOld t s oldSs else s.mem

/-- `sigaltstack`, with its result and the thread after it. `errno` is the host's when the result is
assigned. -/
def sigaltstack (t : Table) (newSs oldSs : U64) (errno : ℤ) (s : Thread) : ℤ × Thread :=
  let mem := report t oldSs s
  if newSs ≠ 0 then
    if onStack s then (assignResult errno (-eperm), { s with mem := mem })
    else (assignResult errno 0, { s with mem := mem, alt := readRecord t mem newSs })
  else (assignResult errno 0, { s with mem := mem })

/-! ## What it is for -/

/-- There is no stack. -/
def Record.Disabled (r : Record) : Prop := r.ssFlags &&& ssDisable ≠ 0 ∨ r.ssSize = 0

instance (r : Record) : Decidable r.Disabled := inferInstanceAs (Decidable (_ ∨ _))

/-- The stack pointer is in the stack. -/
def Record.InUse (r : Record) (rsp : U64) : Prop :=
  r.ssFlags &&& ssDisable = 0 ∧ r.ssSp.toNat ≤ rsp.toNat ∧
    rsp.toNat < r.ssSp.toNat + r.ssSize.toNat

instance (r : Record) (rsp : U64) : Decidable (r.InUse rsp) := inferInstanceAs (Decidable (_ ∧ _))

/-- The flags that describe a stack. -/
def Record.describe (r : Record) (rsp : U64) : BitVec 32 :=
  if r.Disabled then ssDisable else if r.InUse rsp then ssOnstack else 0

/-- A call that has returned. -/
structure Call where
  table : Table
  newSs : U64
  oldSs : U64
  before : Thread
  result : ℤ
  after : Thread

/-- The call did what it is for: it was refused exactly if the stack is in use and otherwise
recorded the request as it was given, it reported the stack recorded before, and it did nothing
else. -/
structure Call.Right (c : Call) : Prop where
  result : c.result = if c.newSs ≠ 0 ∧ c.before.alt.InUse c.before.rsp then -eperm else 0
  recorded : c.after.alt = if c.newSs ≠ 0 ∧ ¬c.before.alt.InUse c.before.rsp then
    readRecord c.table c.before.mem c.newSs else c.before.alt
  reported : c.oldSs ≠ 0 → readRecord c.table c.after.mem c.oldSs =
    ⟨c.before.alt.ssSp, c.before.alt.describe c.before.rsp, c.before.alt.ssSize⟩
  frame : ∀ a, c.oldSs = 0 ∨ c.table.size ≤ (a - c.oldSs).toNat → c.after.mem a = c.before.mem a
  rsp : c.after.rsp = c.before.rsp

/-- `sigaltstack`, as a call. -/
def call (t : Table) (newSs oldSs : U64) (errno : ℤ) (s : Thread) : Call :=
  ⟨t, newSs, oldSs, s, (sigaltstack t newSs oldSs errno s).1, (sigaltstack t newSs oldSs errno s).2⟩

/-- The stack pointer is not in the part of the stack that the comparison with the size misses, an
enabled stack is reported only while it is in use, a request that is going to be recorded is not in
the record that the report goes to, and one that is going to be refused finds `EPERM` in `errno`. -/
structure CallOk (t : Table) (newSs oldSs : U64) (errno : ℤ) (s : Thread) : Prop where
  test : newSs = 0 ∧ oldSs = 0 ∨ s.alt.ssFlags &&& ssDisable ≠ 0 ∨ s.rsp < s.alt.ssSp ∨
    s.rsp < s.alt.ssSize ∨ s.alt.ssSp.toNat + s.alt.ssSize.toNat ≤ s.rsp.toNat
  report : oldSs = 0 ∨ s.alt.Disabled ∨ s.alt.InUse s.rsp
  order : newSs = 0 ∨ oldSs = 0 ∨ s.alt.InUse s.rsp ∨ Apart newSs t.size oldSs t.size
  error : newSs = 0 ∨ ¬s.alt.InUse s.rsp ∨ errno = eperm

/-! ## One call -/

variable {t : Table} {newSs oldSs : U64} {errno : ℤ} {s : Thread}

@[simp] theorem assignResult_zero : assignResult errno 0 = 0 := by simp [assignResult]

/-- A refusal returns what is in `errno`. -/
@[simp] theorem assignResult_eperm : assignResult errno (-eperm) = -errno := by
  simp [assignResult, eperm]

theorem onStack_iff : onStack s = true ↔
    s.alt.ssFlags &&& ssDisable = 0 ∧ s.alt.ssSp ≤ s.rsp ∧ s.rsp < s.alt.ssSize := by
  simp [onStack, and_assoc]

/-- Outside of the part that is missed, the test is right. -/
theorem onStack_iff_inUse (h : s.alt.ssFlags &&& ssDisable ≠ 0 ∨ s.rsp < s.alt.ssSp ∨
    s.rsp < s.alt.ssSize ∨ s.alt.ssSp.toNat + s.alt.ssSize.toNat ≤ s.rsp.toNat) :
    onStack s = true ↔ s.alt.InUse s.rsp := by
  rw [onStack_iff, Record.InUse, BitVec.le_def, BitVec.lt_def]
  rw [BitVec.lt_def, BitVec.lt_def] at h
  constructor
  · rintro ⟨hflags, hlo, hhi⟩
    exact ⟨hflags, hlo, by omega⟩
  · rintro ⟨hflags, hlo, hhi⟩
    refine ⟨hflags, hlo, ?_⟩
    rcases h with h | h | h | h
    · exact absurd hflags h
    · omega
    · exact h
    · omega

/-- The words of a record fit in the table's. -/
def Fits (t : Table) (r : Record) : Prop :=
  r.ssSp.toNat < 2 ^ (8 * t.wordSize) ∧ r.ssSize.toNat < 2 ^ (8 * t.wordSize)

theorem fits_readRecord (t : Table) (m : Mem) (a : U64) : Fits t (readRecord t m a) := by
  have hword : t.wordSize ≤ 8 := by cases t <;> decide
  exact ⟨Mem.load_lt _ _ hword, Mem.load_lt _ _ hword⟩

/-- The flags that are reported. -/
def reportedFlags (s : Thread) : BitVec 32 := if onStack s then ssOnstack else ssDisable

theorem writeOld_eq (t : Table) (s : Thread) (oldSs : U64) : writeOld t s oldSs =
    (((s.mem.store (oldSs + BitVec.ofNat 64 0) s.alt.ssSp t.wordSize).store
      (oldSs + BitVec.ofNat 64 t.flagsOffset) 0 4).store
      (oldSs + BitVec.ofNat 64 t.sizeOffset) s.alt.ssSize t.wordSize).store
      (oldSs + BitVec.ofNat 64 t.flagsOffset) ((reportedFlags s).setWidth 64) 4 := by
  rw [writeOld, reportedFlags]
  cases onStack s <;> rfl

/-- A stored word that fits is loaded again. -/
theorem load_store_of_lt (m : Mem) (a v : U64) {n : ℕ} (hn : n ≤ 8) (hv : v.toNat < 2 ^ (8 * n)) :
    (m.store a v n).load a n = v := by
  apply BitVec.eq_of_toNat_eq
  rw [Mem.toNat_load_store _ _ _ hn, Nat.mod_eq_of_lt hv]

theorem readRecord_writeOld (hfits : Fits t s.alt) :
    readRecord t (writeOld t s oldSs) oldSs = ⟨s.alt.ssSp, reportedFlags s, s.alt.ssSize⟩ := by
  have hword : t.wordSize ≤ 8 := by cases t <;> decide
  have hflags : Apart (oldSs + BitVec.ofNat 64 0) t.wordSize
      (oldSs + BitVec.ofNat 64 t.flagsOffset) 4 :=
    apart_of_offsets _ (by cases t <;> decide) (by cases t <;> decide) (by cases t <;> decide)
  have hsize : Apart (oldSs + BitVec.ofNat 64 0) t.wordSize
      (oldSs + BitVec.ofNat 64 t.sizeOffset) t.wordSize :=
    apart_of_offsets _ (by cases t <;> decide) (by cases t <;> decide) (by cases t <;> decide)
  have hboth : Apart (oldSs + BitVec.ofNat 64 t.sizeOffset) t.wordSize
      (oldSs + BitVec.ofNat 64 t.flagsOffset) 4 :=
    apart_of_offsets _ (by cases t <;> decide) (by cases t <;> decide) (by cases t <;> decide)
  have hlt : ((reportedFlags s).setWidth 64).toNat < 2 ^ (8 * 4) := by
    rw [BitVec.toNat_setWidth]
    have := (reportedFlags s).isLt
    omega
  rw [writeOld_eq, readRecord, load_store_of_lt _ _ _ (by decide) hlt,
    Mem.load_store_of_apart _ _ (by decide) hflags, Mem.load_store_of_apart _ _ hword hsize,
    Mem.load_store_of_apart _ _ (by decide) hflags, load_store_of_lt _ _ _ hword hfits.1,
    Mem.load_store_of_apart _ _ (by decide) hboth, load_store_of_lt _ _ _ hword hfits.2]
  simp

/-- The report stays in its record. -/
theorem writeOld_apply {a : U64} (h : t.size ≤ (a - oldSs).toNat) :
    writeOld t s oldSs a = s.mem a := by
  have hword : t.wordSize ≤ 8 := by cases t <;> decide
  have hold := oldSs.isLt
  have ha := a.isLt
  have hpart : ∀ {x k : ℕ}, x + k ≤ t.size → ¬(a - (oldSs + BitVec.ofNat 64 x)).toNat < k := by
    intro x k hk
    have hsize : t.size ≤ 24 := by cases t <;> decide
    simp only [BitVec.toNat_sub, BitVec.toNat_add, BitVec.toNat_ofNat] at h ⊢
    omega
  rw [writeOld_eq, Mem.store_apply _ _ _ (by decide), if_neg (hpart (by cases t <;> decide)),
    Mem.store_apply _ _ _ hword, if_neg (hpart (by cases t <;> decide)),
    Mem.store_apply _ _ _ (by decide), if_neg (hpart (by cases t <;> decide)),
    Mem.store_apply _ _ _ hword, if_neg (hpart (by cases t <;> decide))]

theorem readRecord_congr {m m' : Mem} {a : U64}
    (h : ∀ i < t.size, m (a + BitVec.ofNat 64 i) = m' (a + BitVec.ofNat 64 i)) :
    readRecord t m a = readRecord t m' a := by
  have hload : ∀ {x n : ℕ}, x + n ≤ t.size →
      m.load (a + BitVec.ofNat 64 x) n = m'.load (a + BitVec.ofNat 64 x) n := by
    intro x n hn
    refine Mem.load_congr fun i hi ↦ ?_
    rw [BitVec.add_assoc, ← BitVec.ofNat_add]
    exact h _ (by omega)
  rw [readRecord, readRecord, hload (by cases t <;> decide), hload (by cases t <;> decide),
    hload (by cases t <;> decide)]

/-- A request that is apart from the report is read as it was given. -/
theorem readRecord_writeOld_of_apart (h : Apart newSs t.size oldSs t.size) :
    readRecord t (writeOld t s oldSs) newSs = readRecord t s.mem newSs :=
  readRecord_congr fun i hi ↦ writeOld_apply (h i hi)

theorem reportedFlags_eq (htest : onStack s = true ↔ s.alt.InUse s.rsp)
    (hreport : s.alt.Disabled ∨ s.alt.InUse s.rsp) :
    reportedFlags s = s.alt.describe s.rsp := by
  have hempty : s.alt.InUse s.rsp → ¬s.alt.Disabled := by
    rintro ⟨hflags, hlo, hhi⟩ (hdisabled | hzero)
    · exact hdisabled hflags
    · rw [hzero] at hhi
      simp only [BitVec.ofNat_eq_ofNat, BitVec.toNat_ofNat] at hhi
      omega
  rw [reportedFlags, Record.describe]
  by_cases huse : s.alt.InUse s.rsp
  · rw [if_pos (htest.mpr huse), if_neg (hempty huse), if_pos huse]
  · rw [if_neg fun h ↦ huse (htest.mp h), if_pos (hreport.resolve_right huse)]

theorem sigaltstack_mem : (sigaltstack t newSs oldSs errno s).2.mem = report t oldSs s := by
  rw [sigaltstack]
  split
  · split <;> rfl
  · rfl

theorem sigaltstack_rsp : (sigaltstack t newSs oldSs errno s).2.rsp = s.rsp := by
  rw [sigaltstack]
  split
  · split <;> rfl
  · rfl

theorem sigaltstack_result (htest : onStack s = true ↔ s.alt.InUse s.rsp) :
    (sigaltstack t newSs oldSs errno s).1 =
      if newSs ≠ 0 ∧ s.alt.InUse s.rsp then -errno else 0 := by
  rw [sigaltstack]
  by_cases hnew : newSs ≠ 0
  · by_cases hon : onStack s = true
    · rw [if_pos hnew, if_pos hon, if_pos ⟨hnew, htest.mp hon⟩, assignResult_eperm]
    · rw [if_pos hnew, if_neg hon, if_neg fun h ↦ hon (htest.mpr h.2), assignResult_zero]
  · rw [if_neg hnew, if_neg fun h ↦ hnew h.1, assignResult_zero]

/-- The result is the error exactly if that is what `errno` has. -/
theorem sigaltstack_result_iff (htest : onStack s = true ↔ s.alt.InUse s.rsp) :
    (sigaltstack t newSs oldSs errno s).1 = (if newSs ≠ 0 ∧ s.alt.InUse s.rsp then -eperm else 0) ↔
      newSs = 0 ∨ ¬s.alt.InUse s.rsp ∨ errno = eperm := by
  rw [sigaltstack_result htest]
  by_cases hrefused : newSs ≠ 0 ∧ s.alt.InUse s.rsp
  · rw [if_pos hrefused, if_pos hrefused, neg_inj]
    refine ⟨fun herror ↦ .inr (.inr herror), fun h ↦ ?_⟩
    obtain hnull | hout | herror := h
    · exact absurd hnull hrefused.1
    · exact absurd hrefused.2 hout
    · exact herror
  · rw [if_neg hrefused, if_neg hrefused]
    simp only [true_iff]
    by_contra hnone
    push Not at hnone
    exact hrefused ⟨hnone.1, hnone.2.1⟩

theorem sigaltstack_alt (htest : onStack s = true ↔ s.alt.InUse s.rsp)
    (horder : newSs = 0 ∨ oldSs = 0 ∨ s.alt.InUse s.rsp ∨ Apart newSs t.size oldSs t.size) :
    (sigaltstack t newSs oldSs errno s).2.alt =
      if newSs ≠ 0 ∧ ¬s.alt.InUse s.rsp then readRecord t s.mem newSs else s.alt := by
  rw [sigaltstack]
  by_cases hnew : newSs ≠ 0
  · by_cases hon : onStack s = true
    · rw [if_pos hnew, if_pos hon, if_neg fun h ↦ h.2 (htest.mp hon)]
    · rw [if_pos hnew, if_neg hon, if_pos ⟨hnew, fun h ↦ hon (htest.mpr h)⟩]
      -- only here the memory that the report has been written to is read
      change readRecord t (report t oldSs s) newSs = _
      rw [report]
      by_cases hold : oldSs ≠ 0
      · rw [if_pos hold]
        obtain h | h | h | hapart := horder
        · exact absurd h hnew
        · exact absurd h hold
        · exact absurd (htest.mpr h) hon
        · exact readRecord_writeOld_of_apart hapart
      · rw [if_neg hold]
  · rw [if_neg hnew, if_neg fun h ↦ hnew h.1]

/-- One call that reaches none of the four defects. -/
theorem right_of_callOk (hfits : Fits t s.alt) (hok : CallOk t newSs oldSs errno s) :
    (call t newSs oldSs errno s).Right := by
  obtain hnull | htest := hok.test
  · obtain ⟨rfl, rfl⟩ := hnull
    have hresult : assignResult errno 0 = 0 := assignResult_zero
    exact ⟨hresult, rfl, fun h ↦ absurd rfl h, fun _ _ ↦ rfl, rfl⟩
  have huse := onStack_iff_inUse htest
  refine ⟨(sigaltstack_result_iff huse).mpr hok.error, sigaltstack_alt huse hok.order,
    fun hold ↦ ?_, fun a ha ↦ ?_, sigaltstack_rsp⟩
  · have hold : oldSs ≠ 0 := hold
    change readRecord t (sigaltstack t newSs oldSs errno s).2.mem oldSs = _
    rw [sigaltstack_mem, report, if_pos hold, readRecord_writeOld hfits,
      reportedFlags_eq huse (hok.report.resolve_left hold)]
    rfl
  · change (sigaltstack t newSs oldSs errno s).2.mem a = s.mem a
    rw [sigaltstack_mem, report]
    obtain hzero | hfar := ha
    · exact congrFun (if_neg (not_not_intro hzero)) a
    · split
      · exact writeOld_apply hfar
      · rfl

/-! ## Runs -/

/-- A thread, the stack pointers of the code that deliveries have interrupted, and the calls it has
made. -/
structure Guest where
  thread : Thread
  outer : List U64
  log : List Call

/-- What happens to a thread. Its own code does what it wants with its stack pointer and with
memory, and a delivery writes a frame, below the stack pointer it finds in `ThreadState`. -/
inductive Event
  | move (rsp : U64) (mem : Mem)
  | sigaltstack (newSs oldSs : U64) (errno : ℤ)
  | deliver (onStack : Bool) (found : U64) (mem : Mem)
  | sigreturn

/-- The record, as far as a delivery looks at it. -/
def Record.placement (r : Record) : SignalFrame.AltStack :=
  ⟨r.ssSp, r.ssSize, r.ssFlags &&& ssDisable != 0⟩

/-- One step. A delivery in 32-bit mode is an assertion, and so is one from a null stack pointer. -/
inductive Step (t : Table) : Guest → Event → Guest → Prop
  | move {g : Guest} {rsp : U64} {mem : Mem} :
      Step t g (.move rsp mem) { g with thread := { g.thread with rsp := rsp, mem := mem } }
  | sigaltstack {g : Guest} {newSs oldSs : U64} {errno : ℤ} :
      Step t g (.sigaltstack newSs oldSs errno)
        { g with
          thread := (sigaltstack t newSs oldSs errno g.thread).2
          log := g.log ++ [call t newSs oldSs errno g.thread] }
  | deliver {g : Guest} {onStack : Bool} {found : U64} {mem : Mem} (hmode : t = .riscv64)
      (h : SignalFrame.startRsp onStack g.thread.alt.placement found ≠ 0) :
      Step t g (.deliver onStack found mem)
        { g with
          thread :=
            { g.thread with
              rsp := SignalFrame.frameAddress
                (SignalFrame.startRsp onStack g.thread.alt.placement found)
              mem := mem }
          outer := g.thread.rsp :: g.outer }
  | sigreturn {g : Guest} {rsp : U64} {rest : List U64} (h : g.outer = rsp :: rest) :
      Step t g .sigreturn { g with thread := { g.thread with rsp := rsp }, outer := rest }

/-- Every call reaches none of the defects. -/
def StepOk (t : Table) (g : Guest) : Event → Prop
  | .sigaltstack newSs oldSs errno => CallOk t newSs oldSs errno g.thread
  | _ => True

/-- A thread at its start: `alt_stack` is all zero. -/
def initial (rsp : U64) (mem : Mem) : Guest := ⟨⟨rsp, ⟨0, 0, 0⟩, mem⟩, [], []⟩

/-- What every step keeps. -/
structure Inv (t : Table) (g : Guest) : Prop where
  fits : Fits t g.thread.alt
  right : ∀ c ∈ g.log, c.Right

theorem Inv.call {g : Guest} (h : Inv t g) (hok : CallOk t newSs oldSs errno g.thread) :
    Inv t { g with
      thread := (AltStack.sigaltstack t newSs oldSs errno g.thread).2
      log := g.log ++ [AltStack.call t newSs oldSs errno g.thread] } := by
  have hright := right_of_callOk h.fits hok
  constructor
  · have hrecorded := hright.recorded
    change Fits t (AltStack.call t newSs oldSs errno g.thread).after.alt
    rw [hrecorded]
    split
    · exact fits_readRecord _ _ _
    · exact h.fits
  · intro c hc
    obtain hold | hnew := List.mem_append.mp hc
    · exact h.right c hold
    · obtain rfl := List.mem_singleton.mp hnew
      exact hright

theorem Inv.step {g g' : Guest} {e : Event} (h : Inv t g)
    (hstep : Guarded (StepOk t) (Step t) g e g') : Inv t g' := by
  obtain ⟨hok, hstep⟩ := hstep
  cases hstep with
  | move => exact ⟨h.fits, h.right⟩
  | sigaltstack => exact h.call hok
  | deliver hmode hstart => exact ⟨h.fits, h.right⟩
  | sigreturn houter => exact ⟨h.fits, h.right⟩

theorem inv_initial (t : Table) (rsp : U64) (mem : Mem) : Inv t (initial rsp mem) := by
  have hzero : Fits t ⟨0, 0, 0⟩ := by cases t <;> exact ⟨by decide, by decide⟩
  exact ⟨hzero, fun _ h ↦ absurd h List.not_mem_nil⟩

/-- In every run of a thread, in either table, whose calls all meet `CallOk`, every call did what it
is for. -/
theorem right_of_run {rsp : U64} {mem : Mem} {events : List Event} {g : Guest}
    (hrun : Run (Guarded (StepOk t) (Step t)) (initial rsp mem) events g) :
    ∀ c ∈ g.log, c.Right :=
  (hrun.invariant (inv_initial t rsp mem) fun _ _ _ h hstep ↦ h.step hstep).right

/-- Memory with a request for the stack from `0x10000` on, of two sizes, in the layout of the
host. -/
def requests : Mem := fun a ↦
  if a = 0x1002 ∨ a = 0x3002 ∨ a = 0x3012 then 1 else if a = 0x1012 then 2 else 0

/-- A stack is recorded, a handler runs on it, and its request for another one is refused while the
stack in use is reported. `errno` has an error of another call when nothing is refused, and `EPERM`
when it is. -/
theorem right_refused :
    ∃ g, Run (Guarded (StepOk .riscv64) (Step .riscv64)) (initial 0x7FFF0000 requests)
      [.sigaltstack 0x1000 0 11, .deliver true 0x7FFF0000 requests, .move 0x18000 requests,
        .sigaltstack 0x3000 0x2000 1, .sigreturn] g ∧
      g.log.map Call.result = [0, -1] ∧ g.thread.alt = ⟨0x10000, 0, 0x20000⟩ ∧
      readRecord .riscv64 g.thread.mem 0x2000 = ⟨0x10000, ssOnstack, 0x20000⟩ ∧
      ∀ c ∈ g.log, c.Right := by
  have hset : CallOk .riscv64 0x1000 0 11 (initial 0x7FFF0000 requests).thread :=
    ⟨.inr (by decide), .inl rfl, .inr (.inl rfl), .inr (.inl (by decide))⟩
  have hrun : Run (Guarded (StepOk .riscv64) (Step .riscv64)) (initial 0x7FFF0000 requests)
      [.sigaltstack 0x1000 0 11, .deliver true 0x7FFF0000 requests, .move 0x18000 requests,
        .sigaltstack 0x3000 0x2000 1, .sigreturn] _ :=
    .cons ⟨hset, .sigaltstack⟩
      (.cons ⟨trivial, .deliver rfl (by decide)⟩ (.cons ⟨trivial, .move⟩
        (.cons ⟨⟨.inr (by decide), .inr (by decide), .inr (.inr (.inl (by decide))),
            .inr (.inr rfl)⟩, .sigaltstack⟩
          (.single ⟨trivial, .sigreturn rfl⟩))))
  exact ⟨_, hrun, by decide, by decide, by decide, right_of_run hrun⟩

/-- The upper half of a stack from `0x10000` to `0x20000`: the request is not refused. -/
theorem not_right_upperHalf :
    ¬∀ (t : Table) (rsp : U64) (mem : Mem) (events : List Event) (g : Guest),
      Run (Step t) (initial rsp mem) events g → ∀ c ∈ g.log, c.Right := by
  intro hall
  have hright := hall .riscv64 0x7FFF0000 requests
    [.sigaltstack 0x3000 0 0, .move 0x18000 requests, .sigaltstack 0x1000 0 0] _
    (.cons .sigaltstack (.cons .move (.single .sigaltstack))) _
    (List.mem_append_right _ List.mem_cons_self)
  exact absurd hright.result (by decide)

end AltStack

end Felix86
