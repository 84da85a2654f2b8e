import Felix86.Lib.Run
import Mathlib.Data.BitVec

/-!
# Segments of a 32-bit guest

A thread keeps the bases of 32 descriptors, and for each segment register its selector and a copy of
the base that it names. `set_thread_area` changes a base and the copies of it, a load of a segment
register makes a copy, and `get_thread_area` reads a base.

Three things are not checked. A descriptor that is asked for by its number can be any of the 32, and
the number can be outside of the table, as can be the number in a selector. And a descriptor counts
as free if its base is zero, so one that was given out with the base zero is given out again.

`bases` is what the table should hold: the base last set for each entry, read off the calls and
their answers. `Coherent` says that it does and that the copies are right, `AnswerRight` what a call
should answer, and `segments_of_run` that both hold in every run that stays clear of what is not
checked.
-/

namespace Felix86

namespace Segments

/-! ## The code -/

inductive Segment
  | cs
  | ds
  | ss
  | es
  | fs
  | gs
deriving DecidableEq, Repr

/-- The part of `ThreadState` that describes segments. -/
structure State where
  gdt : Fin 32 → BitVec 32
  selector : Segment → BitVec 16
  base : Segment → BitVec 64

/-- `x86_user_desc`. -/
structure UserDesc where
  entryNumber : BitVec 32
  baseAddr : BitVec 32
  limit : BitVec 32
  seg32bit : Bool
  contents : BitVec 2
  readExecOnly : Bool
  limitInPages : Bool
  segNotPresent : Bool
  usable : Bool
deriving DecidableEq, Repr

/-- An access outside of the table. -/
inductive Fault
  | outOfRange
deriving DecidableEq, Repr

def einval : ℤ := 22

def esrch : ℤ := 3

/-- An `int` as an index of `gdt`. -/
def entry (index : ℤ) : Except Fault (Fin 32) :=
  if h : 0 ≤ index ∧ index < 32 then .ok ⟨index.toNat, by omega⟩ else .error .outOfRange

/-- The search for an empty slot. -/
def emptySlot (s : State) : Option (Fin 32) := [12, 13, 14].find? fun i ↦ s.gdt i = 0

/-- Change a base, and with `CHECK_SEG` the copies of it. -/
def State.setBase (s : State) (i : Fin 32) (base : BitVec 32) : State :=
  { s with
    gdt := Function.update s.gdt i base
    base := fun seg ↦
      if (s.selector seg).toNat >>> 3 = i then base.setWidth 64 else s.base seg }

/-- `SetUserDesc`: the thread, the descriptor and the result after it. -/
def setUserDesc (s : State) (udesc : UserDesc) : Except Fault (State × UserDesc × ℤ) :=
  if udesc.entryNumber.toInt = -1 then
    match emptySlot s with
    | none => .ok (s, udesc, -esrch)
    | some i =>
      .ok (s.setBase i udesc.baseAddr, { udesc with entryNumber := BitVec.ofNat 32 i }, 0)
  else do
    let i ← entry udesc.entryNumber.toInt
    return (s.setBase i udesc.baseAddr, udesc, 0)

/-- `felix86_x86_32_get_thread_area`: the descriptor after it. -/
def getThreadArea (s : State) (udesc : UserDesc) : Except Fault UserDesc := do
  let i ← entry udesc.entryNumber.toInt
  if s.gdt i ≠ 0 then return ⟨0, s.gdt i, 0xFFFFF, true, 0, false, true, false, true⟩
  else return ⟨0, s.gdt i, 0, false, 0, true, false, true, false⟩

/-- `felix86_set_segment`. -/
def setSegment (s : State) (value : BitVec 64) (segment : Segment) : Except Fault State := do
  let i ← entry ((value >>> 3).setWidth 32).toInt
  return { s with
    selector := Function.update s.selector segment (value.setWidth 16)
    base := Function.update s.base segment ((s.gdt i).setWidth 64) }

/-! ## Calls and answers -/

/-- What a guest can do. A load is a `MOV` or a `POP` to a segment register, or the one of `cs` in
an `IRET`; the value of a `MOV` is a register of up to 32 bits. -/
inductive Call
  | setThreadArea (udesc : UserDesc)
  | getThreadArea (udesc : UserDesc)
  | load (value : BitVec 32) (segment : Segment)
deriving DecidableEq, Repr

inductive Answer
  | setThreadArea (udesc : UserDesc) (result : ℤ)
  | getThreadArea (udesc : UserDesc) (result : ℤ)
  | load
deriving DecidableEq, Repr

def perform (s : State) : Call → Except Fault (State × Answer)
  | .setThreadArea udesc => do
    let (s, udesc, result) ← setUserDesc s udesc
    return (s, .setThreadArea udesc result)
  | .getThreadArea udesc => do
    let udesc ← getThreadArea s udesc
    return (s, .getThreadArea udesc 0)
  | .load value segment => do
    let s ← setSegment s (value.setWidth 64) segment
    return (s, .load)

/-- A thread and what it has done. -/
structure Guest where
  state : State
  log : List (Call × Answer)

/-- One call. -/
inductive Step : Guest → Call → Guest → Prop
  | mk {g : Guest} {call : Call} {s : State} {answer : Answer}
      (h : perform g.state call = .ok (s, answer)) :
      Step g call ⟨s, g.log ++ [(call, answer)]⟩

/-- A thread at its start. -/
def initial : Guest := ⟨⟨fun _ ↦ 0, fun _ ↦ 0, fun _ ↦ 0⟩, []⟩

/-! ## What they are for -/

/-- The numbers of the descriptors for thread-local storage. -/
def tlsRange : List ℕ := [12, 13, 14]

/-- The base that a call has set. -/
def record (bases : ℕ → Option (BitVec 32)) : Call × Answer → ℕ → Option (BitVec 32)
  | (.setThreadArea udesc, .setThreadArea udesc' result) =>
    if result = 0 then Function.update bases udesc'.entryNumber.toNat (some udesc.baseAddr)
    else bases
  | _ => bases

/-- The base last set for each entry. -/
def bases (log : List (Call × Answer)) : ℕ → Option (BitVec 32) := log.foldl record fun _ ↦ none

/-- The entry that a call has handed out. -/
def handed : Call × Answer → Option ℕ
  | (.setThreadArea udesc, .setThreadArea udesc' result) =>
    if udesc.entryNumber.toInt = -1 ∧ result = 0 then some udesc'.entryNumber.toNat else none
  | _ => none

/-- The value last loaded into a segment register. -/
def loaded (segment : Segment) (value : BitVec 16) : Call × Answer → BitVec 16
  | (.load value' segment', _) => if segment' = segment then value'.setWidth 16 else value
  | _ => value

def selector (log : List (Call × Answer)) (segment : Segment) : BitVec 16 :=
  log.foldl (loaded segment) 0

/-- The table holds what has been set, the selectors are those that were loaded, and each copy is of
the base that its selector names. -/
structure Coherent (s : State) (log : List (Call × Answer)) : Prop where
  gdt : ∀ i, s.gdt i = (bases log i).getD 0
  selector : ∀ seg, s.selector seg = selector log seg
  base : ∀ seg, ∃ i : Fin 32, (s.selector seg).toNat >>> 3 = i ∧ s.base seg = (s.gdt i).setWidth 64

/-- What a call should answer after others. -/
def AnswerRight (log : List (Call × Answer)) : Call → Answer → Prop
  | .setThreadArea udesc, answer =>
    if udesc.entryNumber.toInt = -1 then
      if ∀ i ∈ tlsRange, (bases log i).isSome then answer = .setThreadArea udesc (-esrch)
      else ∃ i ∈ tlsRange, bases log i = none ∧ i ∉ log.filterMap handed ∧
        answer = .setThreadArea { udesc with entryNumber := BitVec.ofNat 32 i } 0
    else if udesc.entryNumber.toNat ∈ tlsRange then answer = .setThreadArea udesc 0
    else answer = .setThreadArea udesc (-einval)
  | .getThreadArea udesc, answer =>
    if udesc.entryNumber.toNat ∈ tlsRange then
      ∃ udesc', answer = .getThreadArea udesc' 0 ∧
        udesc'.baseAddr = (bases log udesc.entryNumber.toNat).getD 0
    else ∃ udesc', answer = .getThreadArea udesc' (-einval)
  | .load _ _, answer => answer = .load

/-- Before each descriptor that was given the base zero there is a free one. -/
def FreeFirst (log : List (Call × Answer)) : Prop :=
  ∀ i ∈ tlsRange, bases log i = some 0 → ∃ j ∈ tlsRange, j < i ∧ bases log j = none

instance (log : List (Call × Answer)) : Decidable (FreeFirst log) :=
  inferInstanceAs (Decidable (∀ i ∈ tlsRange, bases log i = some 0 →
    ∃ j ∈ tlsRange, j < i ∧ bases log j = none))

/-- The number of a descriptor is one for thread-local storage, a selector is one of the table, and
when any descriptor is asked for, one that was given the base zero comes only behind one that is
free. -/
def StepOk (g : Guest) : Call → Prop
  | .setThreadArea udesc =>
    if udesc.entryNumber.toInt = -1 then FreeFirst g.log
    else udesc.entryNumber.toNat ∈ tlsRange
  | .getThreadArea udesc => udesc.entryNumber.toNat ∈ tlsRange
  | .load value _ => value.toNat < 256

/-! ## The table -/

section Table

variable {s : State} {log : List (Call × Answer)} {udesc udesc' : UserDesc} {i : Fin 32}

theorem bases_snoc (log : List (Call × Answer)) (e : Call × Answer) :
    bases (log ++ [e]) = record (bases log) e := by
  rw [bases, List.foldl_append]
  rfl

theorem selector_snoc (log : List (Call × Answer)) (e : Call × Answer) (seg : Segment) :
    selector (log ++ [e]) seg = loaded seg (selector log seg) e := by
  rw [selector, List.foldl_append]
  rfl

theorem entry_toInt {number : BitVec 32} (h : number.toNat < 32) :
    entry number.toInt = .ok ⟨number.toNat, h⟩ := by
  have hint : number.toInt = number.toNat := BitVec.toInt_eq_toNat_of_lt (by omega)
  have hrange : 0 ≤ number.toInt ∧ number.toInt < 32 := by omega
  rw [entry, dif_pos hrange]
  simp only [hint, Int.toNat_natCast]

theorem lt_of_mem_tlsRange {n : ℕ} (h : n ∈ tlsRange) : n < 32 := by
  simp only [tlsRange, List.mem_cons, List.not_mem_nil, or_false] at h
  omega

/-- A number of the range does not ask for any. -/
theorem toInt_ne_of_mem {number : BitVec 32} (h : number.toNat ∈ tlsRange) :
    number.toInt ≠ -1 := by
  have hlt := lt_of_mem_tlsRange h
  rw [BitVec.toInt_eq_toNat_of_lt (by omega)]
  omega

theorem setBase_gdt (s : State) (i : Fin 32) (base : BitVec 32) :
    (s.setBase i base).gdt = Function.update s.gdt i base := rfl

theorem setBase_base (s : State) (i : Fin 32) (base : BitVec 32) (seg : Segment) :
    (s.setBase i base).base seg =
      if (s.selector seg).toNat >>> 3 = i then base.setWidth 64 else s.base seg := rfl

/-- A base is set, and every copy follows. -/
theorem Coherent.setBase (h : Coherent s log) (hnumber : udesc'.entryNumber.toNat = i) :
    Coherent (s.setBase i udesc.baseAddr)
      (log ++ [(.setThreadArea udesc, .setThreadArea udesc' 0)]) := by
  have hrecord : bases (log ++ [(.setThreadArea udesc, .setThreadArea udesc' 0)]) =
      Function.update (bases log) i (some udesc.baseAddr) := by
    rw [bases_snoc, record, if_pos rfl, hnumber]
  refine ⟨fun j ↦ ?_, fun seg ↦ ?_, fun seg ↦ ?_⟩
  · rw [hrecord, setBase_gdt]
    by_cases hj : j = i
    · rw [hj, Function.update_self, Function.update_self, Option.getD_some]
    · rw [Function.update_of_ne hj, Function.update_of_ne fun heq ↦ hj (Fin.ext heq), h.gdt]
  · rw [selector_snoc]
    exact h.selector seg
  · obtain ⟨j, hsel, hbase⟩ := h.base seg
    refine ⟨j, hsel, ?_⟩
    rw [setBase_gdt, setBase_base]
    by_cases hj : j = i
    · rw [hj, Function.update_self, if_pos (hsel.trans (congrArg Fin.val hj))]
    · rw [Function.update_of_ne hj, if_neg fun heq ↦ hj (Fin.ext (hsel.symm.trans heq)), hbase]

/-- A call that sets nothing and loads nothing. -/
theorem Coherent.snoc (h : Coherent s log) {e : Call × Answer} (hrecord : ∀ f, record f e = f)
    (hload : ∀ seg v, loaded seg v e = v) : Coherent s (log ++ [e]) := by
  refine ⟨fun i ↦ ?_, fun seg ↦ ?_, h.base⟩
  · rw [bases_snoc, hrecord, h.gdt]
  · rw [selector_snoc, hload, h.selector]

theorem Coherent.gdt_eq_zero (h : Coherent s log) (hnone : bases log i = none) : s.gdt i = 0 := by
  rw [h.gdt, hnone]
  rfl

theorem Coherent.bases_eq (h : Coherent s log) (hgdt : s.gdt i = 0) :
    bases log i = none ∨ bases log i = some 0 := by
  rw [h.gdt] at hgdt
  cases hbase : bases log i with
  | none => exact .inl rfl
  | some base =>
    rw [hbase, Option.getD_some] at hgdt
    exact .inr (congrArg some hgdt)

/-- The search finds the first entry with the base zero. -/
theorem emptySlot_some (h : emptySlot s = some i) :
    i.val ∈ tlsRange ∧ s.gdt i = 0 ∧ ∀ j : Fin 32, j.val ∈ tlsRange → j < i → s.gdt j ≠ 0 := by
  obtain ⟨hzero, l, l', hlist, hbefore⟩ := List.find?_eq_some_iff_append.mp h
  have hmem : i ∈ ([12, 13, 14] : List (Fin 32)) := by
    rw [hlist]
    exact List.mem_append_right _ List.mem_cons_self
  have hsorted : ([12, 13, 14] : List (Fin 32)).Pairwise (· < ·) := by decide
  refine ⟨List.mem_map_of_mem (f := Fin.val) hmem, of_decide_eq_true hzero, fun j hj hlt ↦ ?_⟩
  have hmem' : j ∈ ([12, 13, 14] : List (Fin 32)) := by simpa [tlsRange, Fin.ext_iff] using hj
  rw [hlist] at hsorted hmem'
  obtain ⟨-, htail, -⟩ := List.pairwise_append.mp hsorted
  obtain hfront | hback := List.mem_append.mp hmem'
  · have hne := hbefore j hfront
    rw [Bool.not_eq_true'] at hne
    exact of_decide_eq_false hne
  · -- the entries from `i` on are not before it
    obtain rfl | hlater := List.mem_cons.mp hback
    · exact absurd hlt (lt_irrefl j)
    · exact absurd hlt (lt_asymm (List.rel_of_pairwise_cons htail hlater))

theorem emptySlot_none (h : emptySlot s = none) (hi : i.val ∈ tlsRange) : s.gdt i ≠ 0 := by
  have hmem : i ∈ ([12, 13, 14] : List (Fin 32)) := by simpa [tlsRange, Fin.ext_iff] using hi
  have hne := List.find?_eq_none.mp h i hmem
  exact fun heq ↦ hne (decide_eq_true heq)

end Table

instance (g : Guest) : (call : Call) → Decidable (StepOk g call)
  | .setThreadArea udesc => inferInstanceAs (Decidable
      (if udesc.entryNumber.toInt = -1 then FreeFirst g.log
        else udesc.entryNumber.toNat ∈ tlsRange))
  | .getThreadArea udesc => inferInstanceAs (Decidable (udesc.entryNumber.toNat ∈ tlsRange))
  | .load value _ => inferInstanceAs (Decidable (value.toNat < 256))

/-! ## One call -/

section OneCall

variable {g : Guest} {udesc : UserDesc}

/-- What every step keeps. -/
structure Inv (g : Guest) : Prop where
  coherent : Coherent g.state g.log
  used : ∀ i ∈ g.log.filterMap handed, (bases g.log i).isSome
  right : ∀ before call answer after, g.log = before ++ (call, answer) :: after →
    AnswerRight before call answer

/-- A call does not fault, answers what it should, and leaves a coherent state. -/
def Performs (g : Guest) (call : Call) : Prop :=
  ∃ s answer, perform g.state call = .ok (s, answer) ∧ AnswerRight g.log call answer ∧
    Coherent s (g.log ++ [(call, answer)])

/-- A request for any descriptor. -/
theorem Inv.performs_any (hinv : Inv g) (hany : udesc.entryNumber.toInt = -1)
    (hfirst : FreeFirst g.log) : Performs g (.setThreadArea udesc) := by
  cases hslot : emptySlot g.state with
  | none =>
    have hperform : perform g.state (.setThreadArea udesc) =
        .ok (g.state, .setThreadArea udesc (-esrch)) := by
      rw [perform, setUserDesc, if_pos hany, hslot]
      rfl
    have hall : ∀ i ∈ tlsRange, (bases g.log i).isSome := by
      intro i hi
      have hne := emptySlot_none (i := ⟨i, lt_of_mem_tlsRange hi⟩) hslot hi
      exact Option.isSome_iff_ne_none.mpr fun hnone ↦ hne (hinv.coherent.gdt_eq_zero hnone)
    refine ⟨_, _, hperform, ?_, hinv.coherent.snoc (fun f ↦ ?_) fun seg v ↦ rfl⟩
    · rw [AnswerRight, if_pos hany, if_pos hall]
    · rw [record, if_neg (by decide)]
  | some i =>
    obtain ⟨hi, hgdt, hbefore⟩ := emptySlot_some hslot
    have hfree : bases g.log i = none := by
      obtain hnone | hzero := hinv.coherent.bases_eq hgdt
      · exact hnone
      · -- there would be a free one before it
        obtain ⟨j, hj, hlt, hnone⟩ := hfirst i hi hzero
        have hgdt' := hinv.coherent.gdt_eq_zero (i := ⟨j, lt_of_mem_tlsRange hj⟩) hnone
        exact absurd hgdt' (hbefore ⟨j, lt_of_mem_tlsRange hj⟩ hj hlt)
    have hperform : perform g.state (.setThreadArea udesc) =
        .ok (g.state.setBase i udesc.baseAddr,
          .setThreadArea { udesc with entryNumber := BitVec.ofNat 32 i } 0) := by
      rw [perform, setUserDesc, if_pos hany, hslot]
      rfl
    have hsome : ¬∀ i ∈ tlsRange, (bases g.log i).isSome := by
      intro hall
      have hused := hall i hi
      rw [hfree] at hused
      exact nomatch hused
    have hnew : i.val ∉ g.log.filterMap handed := by
      intro hmem
      have hused := hinv.used i hmem
      rw [hfree] at hused
      exact nomatch hused
    refine ⟨_, _, hperform, ?_, hinv.coherent.setBase ?_⟩
    · rw [AnswerRight, if_pos hany, if_neg hsome]
      exact ⟨i, hi, hfree, hnew, rfl⟩
    · exact Nat.mod_eq_of_lt (lt_of_lt_of_le i.isLt (by decide))

/-- A request for a descriptor by its number. -/
theorem Inv.performs_number (hinv : Inv g) (hnumber : udesc.entryNumber.toNat ∈ tlsRange) :
    Performs g (.setThreadArea udesc) := by
  have hne := toInt_ne_of_mem hnumber
  have hperform : perform g.state (.setThreadArea udesc) =
      .ok (g.state.setBase ⟨udesc.entryNumber.toNat, lt_of_mem_tlsRange hnumber⟩ udesc.baseAddr,
        .setThreadArea udesc 0) := by
    rw [perform, setUserDesc, if_neg hne, entry_toInt (lt_of_mem_tlsRange hnumber)]
    rfl
  refine ⟨_, _, hperform, ?_, hinv.coherent.setBase rfl⟩
  rw [AnswerRight, if_neg hne, if_pos hnumber]

theorem Inv.performs_get (hinv : Inv g) (hnumber : udesc.entryNumber.toNat ∈ tlsRange) :
    Performs g (.getThreadArea udesc) := by
  have hentry := entry_toInt (lt_of_mem_tlsRange hnumber)
  have hget : ∃ udesc', getThreadArea g.state udesc = .ok udesc' ∧
      udesc'.baseAddr = (bases g.log udesc.entryNumber.toNat).getD 0 := by
    have hgdt := hinv.coherent.gdt ⟨udesc.entryNumber.toNat, lt_of_mem_tlsRange hnumber⟩
    rw [getThreadArea, hentry]
    by_cases hzero : g.state.gdt ⟨udesc.entryNumber.toNat, lt_of_mem_tlsRange hnumber⟩ ≠ 0
    · exact ⟨_, if_pos hzero, hgdt⟩
    · exact ⟨_, if_neg hzero, hgdt⟩
  obtain ⟨udesc', hget, hbase⟩ := hget
  have hperform : perform g.state (.getThreadArea udesc) =
      .ok (g.state, .getThreadArea udesc' 0) := by
    rw [perform, hget]
    rfl
  refine ⟨_, _, hperform, ?_, hinv.coherent.snoc (fun f ↦ rfl) fun seg v ↦ rfl⟩
  rw [AnswerRight, if_pos hnumber]
  exact ⟨udesc', rfl, hbase⟩

theorem Inv.performs_load (hinv : Inv g) {value : BitVec 32} (hvalue : value.toNat < 256)
    (segment : Segment) : Performs g (.load value segment) := by
  have hindex : (((value.setWidth 64) >>> 3).setWidth 32 : BitVec 32).toNat = value.toNat / 8 := by
    simp only [BitVec.toNat_setWidth, BitVec.toNat_ushiftRight, Nat.shiftRight_eq_div_pow]
    omega
  have hlt : (((value.setWidth 64) >>> 3).setWidth 32 : BitVec 32).toNat < 32 := by omega
  have hsel : ((value.setWidth 64).setWidth 16 : BitVec 16) = value.setWidth 16 := by
    rw [BitVec.setWidth_setWidth_of_le _ (by decide)]
  have hperform : perform g.state (.load value segment) =
      .ok ({ g.state with
          selector := Function.update g.state.selector segment (value.setWidth 16)
          base := Function.update g.state.base segment
            ((g.state.gdt ⟨_, hlt⟩).setWidth 64) }, .load) := by
    rw [perform, setSegment, entry_toInt hlt, hsel]
    rfl
  refine ⟨_, _, hperform, rfl, fun i ↦ ?_, fun seg ↦ ?_, fun seg ↦ ?_⟩
  · rw [bases_snoc]
    exact hinv.coherent.gdt i
  · rw [selector_snoc, loaded]
    dsimp only
    by_cases hseg : segment = seg
    · rw [if_pos hseg, hseg, Function.update_self]
    · rw [if_neg hseg, Function.update_of_ne (Ne.symm hseg), hinv.coherent.selector]
  · dsimp only
    by_cases hseg : seg = segment
    · refine ⟨⟨_, hlt⟩, ?_, ?_⟩
      · rw [hseg, Function.update_self, BitVec.toNat_setWidth, Nat.shiftRight_eq_div_pow,
          Nat.mod_eq_of_lt (by omega)]
        exact hindex.symm
      · rw [hseg, Function.update_self]
    · rw [Function.update_of_ne hseg, Function.update_of_ne hseg]
      exact hinv.coherent.base seg

theorem Inv.performs (hinv : Inv g) {call : Call} (hok : StepOk g call) : Performs g call := by
  cases call with
  | setThreadArea udesc =>
    by_cases hany : udesc.entryNumber.toInt = -1
    · rw [StepOk, if_pos hany] at hok
      exact hinv.performs_any hany hok
    · rw [StepOk, if_neg hany] at hok
      exact hinv.performs_number hok
  | getThreadArea udesc => exact hinv.performs_get hok
  | load value segment => exact hinv.performs_load hok segment

theorem isSome_record {f : ℕ → Option (BitVec 32)} {i : ℕ} (h : (f i).isSome) (e : Call × Answer) :
    (record f e i).isSome := by
  unfold record
  split
  · split
    · rw [Function.update_apply]
      split
      · rfl
      · exact h
    · exact h
  · exact h

theorem isSome_record_of_handed {f : ℕ → Option (BitVec 32)} {i : ℕ} {e : Call × Answer}
    (h : handed e = some i) : (record f e i).isSome := by
  unfold handed at h
  split at h
  · split at h
    · next hzero =>
      obtain rfl := Option.some.inj h
      rw [record, if_pos hzero.2, Function.update_self]
      rfl
    · exact nomatch h
  · exact nomatch h

theorem Inv.step (hinv : Inv g) {call : Call} {g' : Guest} (hok : StepOk g call)
    (hstep : Step g call g') : Inv g' := by
  obtain ⟨hperform⟩ := hstep
  obtain ⟨s, answer, hperform', hright, hcoherent⟩ := hinv.performs hok
  obtain ⟨rfl, rfl⟩ := Prod.mk.inj (Except.ok.inj (hperform.symm.trans hperform'))
  refine ⟨hcoherent, fun i hi ↦ ?_, fun before call' answer' after hlog ↦ ?_⟩
  · dsimp only at hi ⊢
    rw [bases_snoc]
    rw [List.filterMap_append, List.mem_append] at hi
    obtain hi | hi := hi
    · exact isSome_record (hinv.used i hi) _
    · obtain ⟨e, he, hhanded⟩ := List.mem_filterMap.mp hi
      rw [List.mem_singleton.mp he] at hhanded
      exact isSome_record_of_handed hhanded
  · -- the call is one of the earlier ones or the last one
    dsimp only at hlog
    obtain rfl | ⟨init, last, rfl⟩ := List.eq_nil_or_concat' after
    · obtain ⟨rfl, hlast⟩ := List.append_inj' hlog rfl
      obtain ⟨rfl, rfl⟩ := Prod.mk.inj (List.cons.inj hlast).1
      exact hright
    · rw [← List.cons_append, ← List.append_assoc] at hlog
      exact hinv.right _ _ _ _ (List.append_inj' hlog rfl).1

theorem inv_initial : Inv initial := by
  have hzero : ∀ seg, (initial.state.selector seg).toNat >>> 3 = 0 := by
    intro seg
    cases seg <;> decide
  refine ⟨⟨fun i ↦ rfl, fun seg ↦ rfl, fun seg ↦ ⟨0, hzero seg, rfl⟩⟩, (fun i hi ↦ nomatch hi), ?_⟩
  intro before call answer after hlog
  exact absurd hlog.symm (List.append_ne_nil_of_right_ne_nil before (List.cons_ne_nil _ _))

end OneCall

/-! ## Runs -/

/-- In every state of a run that stays clear of what is not checked, the table and the copies are
right, all calls have been answered as they should, and the next call does not leave the table. -/
theorem segments_of_run {calls : List Call} {g : Guest}
    (hrun : Run (Guarded StepOk Step) initial calls g) :
    Coherent g.state g.log ∧
    (∀ before call answer after, g.log = before ++ (call, answer) :: after →
      AnswerRight before call answer) ∧
    ∀ call, StepOk g call → ∃ g', Step g call g' := by
  have hinv : Inv g := hrun.invariant inv_initial fun _ _ _ hinv ⟨hok, hstep⟩ ↦ hinv.step hok hstep
  refine ⟨hinv.coherent, hinv.right, fun call hok ↦ ?_⟩
  obtain ⟨s, answer, hperform, -, -⟩ := hinv.performs hok
  exact ⟨_, .mk hperform⟩

section Examples

/-- A request for any descriptor. -/
def anyDesc (base : BitVec 32) : UserDesc :=
  ⟨-1, base, 0xFFFFF, true, 0, false, true, false, true⟩

/-- The thread after a first request: it has been given the descriptor 12. -/
def afterFirst (base : BitVec 32) : Guest :=
  ⟨initial.state.setBase 12 base, [(.setThreadArea (anyDesc base),
    .setThreadArea { anyDesc base with entryNumber := 12 } 0)]⟩

theorem step_first (base : BitVec 32) :
    Step initial (.setThreadArea (anyDesc base)) (afterFirst base) := .mk rfl

/-- After a load of `0x63`, `gs` has the base that was set for the descriptor 12. -/
theorem right_gs : ∃ g, Run (Guarded StepOk Step) initial
      [.setThreadArea (anyDesc 0x1000), .load 0x63 .gs] g ∧
    Coherent g.state g.log ∧ g.state.base .gs = 0x1000 := by
  have hload : ∃ g, Step (afterFirst 0x1000) (.load 0x63 .gs) g ∧ g.state.base .gs = 0x1000 :=
    ⟨_, .mk rfl, rfl⟩
  obtain ⟨g, hload, hbase⟩ := hload
  have hrun : Run (Guarded StepOk Step) initial
      [.setThreadArea (anyDesc 0x1000), .load 0x63 .gs] g :=
    Run.cons ⟨by decide, step_first 0x1000⟩ (Run.single ⟨by decide, hload⟩)
  exact ⟨g, hrun, (segments_of_run hrun).1, hbase⟩

/-- Two requests with the base zero are both given the descriptor 12. -/
theorem not_right_zeroBase : ∃ g, Run Step initial
      [.setThreadArea (anyDesc 0), .setThreadArea (anyDesc 0)] g ∧
    ¬∀ before call answer after, g.log = before ++ (call, answer) :: after →
      AnswerRight before call answer := by
  have hsecond : Step (afterFirst 0) (.setThreadArea (anyDesc 0))
      ⟨(afterFirst 0).state.setBase 12 0, (afterFirst 0).log ++ [(.setThreadArea (anyDesc 0),
        .setThreadArea { anyDesc 0 with entryNumber := 12 } 0)]⟩ := .mk rfl
  refine ⟨_, Run.cons (step_first 0) (Run.single hsecond), fun hright ↦ ?_⟩
  have hanswer := hright (afterFirst 0).log _ _ [] rfl
  rw [AnswerRight, if_pos (by decide), if_neg (by decide)] at hanswer
  obtain ⟨i, hi, hfree, -, heq⟩ := hanswer
  simp only [tlsRange, List.mem_cons, List.not_mem_nil, or_false] at hi
  obtain rfl | rfl | rfl := hi
  · exact nomatch hfree
  · exact absurd heq (by decide)
  · exact absurd heq (by decide)

end Examples

end Segments

end Felix86
