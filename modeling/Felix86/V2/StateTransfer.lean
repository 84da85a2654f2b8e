import Felix86.Hle.SignalContext
import Felix86.Lib.Numerals
import Mathlib.Data.Fin.VecNotation
import Mathlib.Data.List.FinRange
import Mathlib.Tactic.FinCases

/-!
# Writing the state back and restoring it

Around every call of a helper the recompiler emits `writebackState`, which stores the registers of
the guest to `ThreadState`, and `restoreState`, which loads them again. Which of the x87 and the MMX
registers are moved is decided at run time by `x87_state`; the addresses of the vector registers go
through a scratch register, and the compile-time flag `fsrm_sse` chooses the rounding mode that is
loaded at the end.

This file has the two pieces of code on the registers `allocatedGPR`, `allocatedFPR` and
`allocatedVec` name. They are inverse, and what the helper changes in between is what the host
registers have afterwards.
-/

namespace Felix86

namespace Transfer

open Numerals

/-! ## The register allocation -/

/-- `allocatedGPR` of `RAX` to `R15`, as the number of a host register. -/
def allocatedGPR : Fin 16 → Fin 32 :=
  ![5, 26, 12, 8, 9, 18, 11, 10, 14, 15, 13, 16, 17, 22, 19, 20]

/-- `gp`, for `RIP`. -/
def ripReg : Fin 32 := 3

/-- The flags that have a register. -/
inductive Flag
  | cf
  | zf
  | sf
  | of
deriving DecidableEq, Repr

/-- `allocatedGPR` of a flag. -/
def Flag.reg : Flag → Fin 32
  | .cf => 21
  | .zf => 23
  | .sf => 24
  | .of => 25

/-- `allocatedFPR`. -/
def allocatedFPR (i : Fin 8) : Fin 32 := ⟨i, by omega⟩

/-- `allocatedVec` of an XMM register. -/
def allocatedXMM (i : Fin 16) : Fin 32 := ⟨2 + i, by omega⟩

/-- `allocatedVec` of an MMX register. -/
def allocatedMM (i : Fin 8) : Fin 32 := ⟨18 + i, by omega⟩

/-- `scratch_gprs`. -/
def scratchGprs : List (Fin 32) := [1, 6, 28, 29, 7, 30, 31]

/-! ## The two places -/

/-- The registers of the host. Of a vector register two elements of 64 bits are kept. -/
structure Regs where
  x : Fin 32 → BitVec 64
  f : Fin 32 → BitVec 64
  v : Fin 32 → BitVec 64 × BitVec 64
  vl : ℕ
  frm : BitVec 64

/-- The fields of `ThreadState` that are moved or looked at. A `bool` is a byte. -/
structure Fields where
  gprs : Fin 16 → BitVec 64
  rip : BitVec 64
  fp : Fin 8 → BitVec 64
  xmm : Fin 16 → BitVec 64 × BitVec 64
  flags : Flag → BitVec 8
  x87State : X87State
  rmodeSse : BitVec 8
  rmodeX87 : BitVec 8
  stateIsCorrect : BitVec 8

/-- Both, while the code runs. -/
structure State where
  regs : Regs
  ts : Fields

/-- The value of `x87State` in memory. -/
def x87Code : X87State → BitVec 8
  | .x87 => 1
  | .mmx => 2

/-! ## The code -/

/-- The emitted instructions. The address of a vector access is computed into a scratch register
first. -/
inductive Op
  | sdRip (src : Fin 32)
  | sd (src : Fin 32) (i : Fin 16)
  | ldRip (dst : Fin 32)
  | ld (dst : Fin 32) (i : Fin 16)
  | sb (src : Fin 32) (flag : Flag)
  | lbu (dst : Fin 32) (flag : Flag)
  | mark (src : Fin 32)
  | li (dst : Fin 32) (imm : BitVec 64)
  /-- `vl` is the number of lanes that is asked for, which fit in a register of 128 bits. -/
  | vsetivli (vl : ℕ)
  | vseXmm (address src : Fin 32) (i : Fin 16)
  | vleXmm (address dst : Fin 32) (i : Fin 16)
  | vseFp (address src : Fin 32) (i : Fin 8)
  | vleFp (address dst : Fin 32) (i : Fin 8)
  | fsd (src : Fin 32) (i : Fin 8)
  | fld (dst : Fin 32) (i : Fin 8)
  | lbuRmode (dst : Fin 32) (sse : Bool)
  | fsrm (src : Fin 32)

namespace State

variable (s : State)

/-- Read a general register; `x0` is zero. -/
def getX (r : Fin 32) : BitVec 64 := if r = 0 then 0 else s.regs.x r

/-- Write a general register. -/
def setX (r : Fin 32) (value : BitVec 64) : State :=
  if r = 0 then s
  else { s with regs := { s.regs with x := Function.update s.regs.x r value } }

/-- The first `vl` elements, in the place of those of `old`. -/
def elements (vl : ℕ) (new old : BitVec 64 × BitVec 64) : BitVec 64 × BitVec 64 :=
  (if 1 ≤ vl then new.1 else old.1, if 2 ≤ vl then new.2 else old.2)

/-- `fp[j]` as an element of an access that starts at `fp[i]`. -/
def fpElement (fp : Fin 8 → BitVec 64) (i j : ℕ) : BitVec 64 :=
  if h : i + j < 8 then fp ⟨i + j, h⟩ else 0

/-- One instruction. `base` is where the thread state is in memory; only the scratch register sees
it. -/
def exec (base : BitVec 64) : Op → State
  | .sdRip src => { s with ts := { s.ts with rip := s.getX src } }
  | .sd src i => { s with ts := { s.ts with gprs := Function.update s.ts.gprs i (s.getX src) } }
  | .ldRip dst => s.setX dst s.ts.rip
  | .ld dst i => s.setX dst (s.ts.gprs i)
  | .sb src flag =>
    { s with ts := { s.ts with
      flags := Function.update s.ts.flags flag ((s.getX src).setWidth 8) } }
  | .lbu dst flag => s.setX dst ((s.ts.flags flag).setWidth 64)
  | .mark src => { s with ts := { s.ts with stateIsCorrect := (s.getX src).setWidth 8 } }
  | .li dst imm => s.setX dst imm
  | .vsetivli vl => { s with regs := { s.regs with vl := vl } }
  | .vseXmm address src i =>
    { s.setX address (base + BitVec.ofNat 64 (200 + 16 * i)) with ts := { s.ts with
      xmm := Function.update s.ts.xmm i (elements s.regs.vl (s.regs.v src) (s.ts.xmm i)) } }
  | .vleXmm address dst i =>
    let t := s.setX address (base + BitVec.ofNat 64 (200 + 16 * i))
    { t with regs := { t.regs with
      v := Function.update s.regs.v dst (elements s.regs.vl (s.ts.xmm i) (s.regs.v dst)) } }
  | .vseFp address src i =>
    { s.setX address (base + BitVec.ofNat 64 (136 + 8 * i)) with ts := { s.ts with
      fp := fun j ↦
        if 1 ≤ s.regs.vl ∧ j = i then (s.regs.v src).1
        else if 2 ≤ s.regs.vl ∧ j.val = i + 1 then (s.regs.v src).2
        else s.ts.fp j } }
  | .vleFp address dst i =>
    let t := s.setX address (base + BitVec.ofNat 64 (136 + 8 * i))
    { t with regs := { t.regs with
      v := Function.update s.regs.v dst
        (elements s.regs.vl (fpElement s.ts.fp i 0, fpElement s.ts.fp i 1) (s.regs.v dst)) } }
  | .fsd src i => { s with ts := { s.ts with fp := Function.update s.ts.fp i (s.regs.f src) } }
  | .fld dst i => { s with regs := { s.regs with f := Function.update s.regs.f dst (s.ts.fp i) } }
  | .lbuRmode dst sse =>
    s.setX dst ((if sse then s.ts.rmodeSse else s.ts.rmodeX87).setWidth 64)
  | .fsrm src => { s with regs := { s.regs with frm := s.getX src } }

/-- A sequence of them. -/
def execAll (base : BitVec 64) (ops : List Op) : State := ops.foldl (fun s op ↦ s.exec base op) s

end State

/-- Code with the run-time branch on `x87_state` in the middle. -/
structure Code where
  head : List Op
  address : Fin 32
  onX87 : List Op
  onMmx : List Op
  tail : List Op

/-- Run it: `LBU`, `XORI` and `BNEZ` on the scratch register decide. -/
def State.run (s : State) (base : BitVec 64) (code : Code) : State :=
  let s := s.execAll base code.head
  let s := s.setX code.address ((x87Code s.ts.x87State).setWidth 64 ^^^ 1)
  let s := s.execAll base (if s.getX code.address = 0 then code.onX87 else code.onMmx)
  s.execAll base code.tail

/-- `Recompiler::writebackState`. -/
def writebackState (address temp : Fin 32) : Code where
  head := .sdRip ripReg :: (List.finRange 16).map (fun i ↦ .sd (allocatedGPR i) i) ++
    .vsetivli 2 :: (List.finRange 16).map fun i ↦ .vseXmm address (allocatedXMM i) i
  address := address
  onX87 := (List.finRange 8).map fun i ↦ .fsd (allocatedFPR i) i
  onMmx := .vsetivli 1 :: (List.finRange 8).map fun i ↦ .vseFp address (allocatedMM i) i
  tail := [.sb Flag.cf.reg .cf, .sb Flag.zf.reg .zf, .sb Flag.sf.reg .sf, .sb Flag.of.reg .of,
    .li temp 1, .mark temp]

/-- `Recompiler::restoreState`. -/
def restoreState (address rm : Fin 32) (fsrmSse : Bool) : Code where
  head := .ldRip ripReg :: (List.finRange 16).map (fun i ↦ .ld (allocatedGPR i) i) ++
    .vsetivli 2 :: (List.finRange 16).map fun i ↦ .vleXmm address (allocatedXMM i) i
  address := address
  onX87 := (List.finRange 8).map fun i ↦ .fld (allocatedFPR i) i
  onMmx := .vsetivli 1 :: (List.finRange 8).map fun i ↦ .vleFp address (allocatedMM i) i
  tail := [.lbu Flag.cf.reg .cf, .lbu Flag.zf.reg .zf, .lbu Flag.sf.reg .sf, .lbu Flag.of.reg .of,
    .lbuRmode rm fsrmSse, .fsrm rm, .mark 0]

/-! ## What the two places hold -/

/-- The registers of the guest that are moved. -/
structure Guest where
  gprs : Fin 16 → BitVec 64
  rip : BitVec 64
  flags : Flag → Bool
  xmm : Fin 16 → BitVec 64 × BitVec 64
  fp : Fin 8 → BitVec 64

/-- They are in the registers of the host. Of the x87 and the MMX registers one set holds the
guest's state. -/
structure Regs.Holds (r : Regs) (x87State : X87State) (g : Guest) : Prop where
  gprs : ∀ i, r.x (allocatedGPR i) = g.gprs i
  rip : r.x ripReg = g.rip
  flags : ∀ flag, r.x flag.reg = (BitVec.ofBool (g.flags flag)).setWidth 64
  xmm : ∀ i, r.v (allocatedXMM i) = g.xmm i
  x87 : x87State = .x87 → ∀ i, r.f (allocatedFPR i) = g.fp i
  mmx : x87State = .mmx → ∀ i, (r.v (allocatedMM i)).1 = g.fp i

/-- They are in the thread state. -/
structure Fields.Holds (ts : Fields) (g : Guest) : Prop where
  gprs : ts.gprs = g.gprs
  rip : ts.rip = g.rip
  flags : ∀ flag, ts.flags flag = (BitVec.ofBool (g.flags flag)).setWidth 8
  xmm : ts.xmm = g.xmm
  fp : ts.fp = g.fp

theorem Fields.Holds.mark {ts : Fields} {g : Guest} (h : ts.Holds g) (value : BitVec 8) :
    ({ ts with stateIsCorrect := value } : Fields).Holds g := ⟨h.gprs, h.rip, h.flags, h.xmm, h.fp⟩

/-! ## Loops -/

section Loops

variable {ι κ β : Type*} [DecidableEq κ]

/-- A loop that writes one place after the other. -/
def writes (home : ι → κ) (val : ι → β) (l : List ι) (f : κ → β) : κ → β :=
  l.foldl (fun f i ↦ Function.update f (home i) (val i)) f

theorem writes_of_forall_ne {home : ι → κ} {val : ι → β} {l : List ι} {k : κ}
    (h : ∀ i ∈ l, k ≠ home i) (f : κ → β) : writes home val l f k = f k := by
  induction l generalizing f with
  | nil => rfl
  | cons i rest ih =>
    have hrest := ih (fun j hj ↦ h j (List.mem_cons_of_mem i hj))
      (Function.update f (home i) (val i))
    exact hrest.trans (Function.update_of_ne (h i List.mem_cons_self) _ _)

theorem writes_of_mem {home : ι → κ} {val : ι → β} (hinj : Function.Injective home) {l : List ι}
    {i : ι} (h : i ∈ l) (f : κ → β) : writes home val l f (home i) = val i := by
  induction l generalizing f with
  | nil => cases h
  | cons j rest ih =>
    by_cases hrest : i ∈ rest
    · exact ih hrest _
    · obtain rfl : i = j := (List.mem_cons.mp h).resolve_right hrest
      have hne : ∀ k ∈ rest, home i ≠ home k := fun k hk heq ↦ hrest (hinj heq ▸ hk)
      exact (writes_of_forall_ne hne _).trans (Function.update_self _ _ _)

end Loops

theorem allocatedGPR_injective : Function.Injective allocatedGPR := by decide

theorem allocatedXMM_injective : Function.Injective allocatedXMM := by decide

theorem allocatedFPR_injective : Function.Injective allocatedFPR := by decide

theorem allocatedMM_injective : Function.Injective allocatedMM := by decide

namespace State

variable (s : State) (base : BitVec 64)

theorem execAll_append (xs ys : List Op) :
    s.execAll base (xs ++ ys) = (s.execAll base xs).execAll base ys := List.foldl_append

theorem execAll_cons (op : Op) (ops : List Op) :
    s.execAll base (op :: ops) = (s.exec base op).execAll base ops := rfl

variable {s} in
theorem setX_of_ne {r : Fin 32} (h : r ≠ 0) (value : BitVec 64) :
    s.setX r value = { s with regs := { s.regs with x := Function.update s.regs.x r value } } :=
  if_neg h

variable {s} in
theorem getX_setX_self {r : Fin 32} (h : r ≠ 0) (value : BitVec 64) :
    (s.setX r value).getX r = value := by
  rw [setX_of_ne h, getX, if_neg h]
  exact Function.update_self _ _ _

theorem execAll_sd (l : List (Fin 16)) :
    s.execAll base (l.map fun i ↦ .sd (allocatedGPR i) i) = { s with ts := { s.ts with
      gprs := writes id (fun i ↦ s.getX (allocatedGPR i)) l s.ts.gprs } } := by
  induction l generalizing s with
  | nil => rfl
  | cons i rest ih => exact ih _

theorem execAll_fsd (l : List (Fin 8)) :
    s.execAll base (l.map fun i ↦ .fsd (allocatedFPR i) i) = { s with ts := { s.ts with
      fp := writes id (fun i ↦ s.regs.f (allocatedFPR i)) l s.ts.fp } } := by
  induction l generalizing s with
  | nil => rfl
  | cons i rest ih => exact ih _

theorem execAll_fld (l : List (Fin 8)) :
    s.execAll base (l.map fun i ↦ .fld (allocatedFPR i) i) = { s with regs := { s.regs with
      f := writes allocatedFPR s.ts.fp l s.regs.f } } := by
  induction l generalizing s with
  | nil => rfl
  | cons i rest ih => exact ih _

theorem execAll_ld (l : List (Fin 16)) :
    s.execAll base (l.map fun i ↦ .ld (allocatedGPR i) i) = { s with regs := { s.regs with
      x := writes allocatedGPR s.ts.gprs l s.regs.x } } := by
  induction l generalizing s with
  | nil => rfl
  | cons i rest ih =>
    have hne : allocatedGPR i ≠ 0 := by
      revert i
      decide
    rw [List.map_cons, execAll_cons, exec, setX_of_ne hne, ih]
    rfl

/-! The vector accesses also leave an address in the scratch register. -/

variable {s} {address : Fin 32}

/-- Only the scratch register is another one. -/
def OnlyAt (address : Fin 32) (x y : Fin 32 → BitVec 64) : Prop := ∀ r ≠ address, y r = x r

theorem OnlyAt.update {x y : Fin 32 → BitVec 64} {value : BitVec 64}
    (h : OnlyAt address (Function.update x address value) y) : OnlyAt address x y :=
  fun r hr ↦ (h r hr).trans (Function.update_of_ne hr _ _)

theorem execAll_vseXmm (haddress : address ≠ 0) (hvl : s.regs.vl = 2) (l : List (Fin 16)) :
    ∃ x, OnlyAt address s.regs.x x ∧
      s.execAll base (l.map fun i ↦ .vseXmm address (allocatedXMM i) i) =
        ⟨{ s.regs with x := x }, { s.ts with
          xmm := writes id (fun i ↦ s.regs.v (allocatedXMM i)) l s.ts.xmm }⟩ := by
  induction l generalizing s with
  | nil => exact ⟨s.regs.x, fun _ _ ↦ rfl, rfl⟩
  | cons i rest ih =>
    rw [List.map_cons, execAll_cons, exec, setX_of_ne haddress, hvl]
    obtain ⟨x, hx, heq⟩ := ih (s := ⟨{ s.regs with x := Function.update s.regs.x address _ },
      { s.ts with xmm := Function.update s.ts.xmm i (s.regs.v (allocatedXMM i)) }⟩) hvl
    exact ⟨x, hx.update, heq⟩

theorem execAll_vleXmm (haddress : address ≠ 0) (hvl : s.regs.vl = 2) (l : List (Fin 16)) :
    ∃ x, OnlyAt address s.regs.x x ∧
      s.execAll base (l.map fun i ↦ .vleXmm address (allocatedXMM i) i) =
        ⟨{ s.regs with x := x, v := writes allocatedXMM s.ts.xmm l s.regs.v }, s.ts⟩ := by
  induction l generalizing s with
  | nil => exact ⟨s.regs.x, fun _ _ ↦ rfl, rfl⟩
  | cons i rest ih =>
    rw [List.map_cons, execAll_cons, exec, setX_of_ne haddress, hvl]
    obtain ⟨x, hx, heq⟩ := ih (s := ⟨{ s.regs with
      x := Function.update s.regs.x address _
      v := Function.update s.regs.v (allocatedXMM i) (s.ts.xmm i) }, s.ts⟩) hvl
    exact ⟨x, hx.update, heq⟩

theorem execAll_vseFp (haddress : address ≠ 0) (hvl : s.regs.vl = 1) (l : List (Fin 8)) :
    ∃ x, OnlyAt address s.regs.x x ∧
      s.execAll base (l.map fun i ↦ .vseFp address (allocatedMM i) i) =
        ⟨{ s.regs with x := x }, { s.ts with
          fp := writes id (fun i ↦ (s.regs.v (allocatedMM i)).1) l s.ts.fp }⟩ := by
  induction l generalizing s with
  | nil => exact ⟨s.regs.x, fun _ _ ↦ rfl, rfl⟩
  | cons i rest ih =>
    -- with one element the store does not reach the next register
    have hone : (fun j : Fin 8 ↦ if 1 ≤ s.regs.vl ∧ j = i then (s.regs.v (allocatedMM i)).1
        else if 2 ≤ s.regs.vl ∧ j.val = i + 1 then (s.regs.v (allocatedMM i)).2 else s.ts.fp j) =
        Function.update s.ts.fp i (s.regs.v (allocatedMM i)).1 := by
      funext j
      rw [hvl]
      by_cases hj : j = i
      · simp [hj]
      · simp [hj]
    rw [List.map_cons, execAll_cons, exec, setX_of_ne haddress, hone]
    obtain ⟨x, hx, heq⟩ := ih (s := ⟨{ s.regs with x := Function.update s.regs.x address _ },
      { s.ts with fp := Function.update s.ts.fp i (s.regs.v (allocatedMM i)).1 }⟩) hvl
    exact ⟨x, hx.update, heq⟩

/-- One element is loaded, and the other one of the register stays. -/
theorem execAll_vleFp (haddress : address ≠ 0) (hvl : s.regs.vl = 1) (l : List (Fin 8)) :
    ∃ x v, OnlyAt address s.regs.x x ∧ (∀ i ∈ l, (v (allocatedMM i)).1 = s.ts.fp i) ∧
      (∀ r, (∀ i ∈ l, r ≠ allocatedMM i) → v r = s.regs.v r) ∧
      s.execAll base (l.map fun i ↦ .vleFp address (allocatedMM i) i) =
        ⟨{ s.regs with x := x, v := v }, s.ts⟩ := by
  induction l generalizing s with
  | nil => exact ⟨s.regs.x, s.regs.v, fun _ _ ↦ rfl, by simp, fun _ _ ↦ rfl, rfl⟩
  | cons i rest ih =>
    have hfirst : fpElement s.ts.fp i 0 = s.ts.fp i := dif_pos i.isLt
    rw [List.map_cons, execAll_cons, exec, setX_of_ne haddress, hvl, hfirst]
    obtain ⟨x, v, hx, hloaded, hother, heq⟩ := ih (s := ⟨{ s.regs with
      x := Function.update s.regs.x address _
      v := Function.update s.regs.v (allocatedMM i)
        (elements 1 (s.ts.fp i, _) (s.regs.v (allocatedMM i))) }, s.ts⟩) hvl
    refine ⟨x, v, hx.update, fun j hj ↦ ?_, fun r hr ↦ ?_, heq⟩
    · by_cases hrest : j ∈ rest
      · exact hloaded j hrest
      · obtain rfl : j = i := (List.mem_cons.mp hj).resolve_right hrest
        have hne : ∀ k ∈ rest, allocatedMM j ≠ allocatedMM k :=
          fun k hk heq ↦ hrest (allocatedMM_injective heq ▸ hk)
        rw [(hother _ hne).trans (Function.update_self _ _ _)]
        rfl
    · exact (hother r fun k hk ↦ hr k (List.mem_cons_of_mem i hk)).trans
        (Function.update_of_ne (hr i List.mem_cons_self) _ _)

/-- A loop over all registers of a set. -/
theorem writes_finRange {n : ℕ} {β : Type*} (val f : Fin n → β) :
    writes id val (List.finRange n) f = val :=
  funext fun i ↦ writes_of_mem Function.injective_id (List.mem_finRange i) f

/-- The general and the vector registers are stored. -/
theorem execAll_writeback_head (haddress : address ≠ 0) (temp : Fin 32) :
    ∃ x, OnlyAt address s.regs.x x ∧
      s.execAll base (writebackState address temp).head =
        ⟨{ s.regs with x := x, vl := 2 }, { s.ts with
          rip := s.getX ripReg
          gprs := fun i ↦ s.getX (allocatedGPR i)
          xmm := fun i ↦ s.regs.v (allocatedXMM i) }⟩ := by
  rw [writebackState, execAll_append, execAll_cons, execAll_cons, execAll_sd, writes_finRange]
  obtain ⟨x, hx, heq⟩ := execAll_vseXmm (s := ⟨{ s.regs with vl := 2 }, { s.ts with
    rip := s.getX ripReg
    gprs := fun i ↦ s.getX (allocatedGPR i) }⟩) base haddress rfl (List.finRange 16)
  rw [writes_finRange] at heq
  exact ⟨x, hx, heq⟩

/-- The values of the set of registers that is active. -/
def active (s : State) : Fin 8 → BitVec 64 :=
  match s.ts.x87State with
  | .x87 => fun i ↦ s.regs.f (allocatedFPR i)
  | .mmx => fun i ↦ (s.regs.v (allocatedMM i)).1

/-- The branch: `x87_state` is compared in the scratch register. -/
theorem branch_eq (haddress : address ≠ 0) (onX87 onMmx : List Op) :
    (if (s.setX address ((x87Code s.ts.x87State).setWidth 64 ^^^ 1)).getX address = 0 then onX87
      else onMmx) = if s.ts.x87State = .x87 then onX87 else onMmx := by
  rw [getX_setX_self haddress]
  cases s.ts.x87State <;> rfl

/-- One set of the registers is stored. -/
theorem execAll_writeback_branch (haddress : address ≠ 0) (temp : Fin 32) :
    ∃ x vl, OnlyAt address s.regs.x x ∧
      s.execAll base (if s.ts.x87State = .x87 then (writebackState address temp).onX87
        else (writebackState address temp).onMmx) =
        ⟨{ s.regs with x := x, vl := vl }, { s.ts with fp := s.active }⟩ := by
  rw [active]
  cases hs : s.ts.x87State with
  | x87 =>
    refine ⟨s.regs.x, s.regs.vl, fun _ _ ↦ rfl, ?_⟩
    rw [if_pos rfl, writebackState, execAll_fsd, writes_finRange]
  | mmx =>
    rw [if_neg (by decide), writebackState, execAll_cons]
    obtain ⟨x, hx, heq⟩ := execAll_vseFp (s := ⟨{ s.regs with vl := 1 }, s.ts⟩) base haddress rfl
      (List.finRange 8)
    rw [writes_finRange] at heq
    exact ⟨x, 1, hx, heq⟩

/-- The flags are stored. -/
def flagStores : List Op :=
  [.sb Flag.cf.reg .cf, .sb Flag.zf.reg .zf, .sb Flag.sf.reg .sf, .sb Flag.of.reg .of]

theorem execAll_flagStores : s.execAll base flagStores =
    { s with ts := { s.ts with flags := fun flag ↦ (s.getX flag.reg).setWidth 8 } } := by
  have hflags : Function.update (Function.update (Function.update (Function.update s.ts.flags
      .cf ((s.getX Flag.cf.reg).setWidth 8)) .zf ((s.getX Flag.zf.reg).setWidth 8))
      .sf ((s.getX Flag.sf.reg).setWidth 8)) .of ((s.getX Flag.of.reg).setWidth 8) =
      fun flag ↦ (s.getX flag.reg).setWidth 8 := by
    funext flag
    cases flag <;> rfl
  rw [← hflags]
  rfl

theorem writebackState_tail (address temp : Fin 32) :
    (writebackState address temp).tail = flagStores ++ [.li temp 1, .mark temp] := by
  rw [writebackState, flagStores]
  rfl

/-- The flags are stored, and the state is marked. -/
theorem execAll_writeback_tail {temp : Fin 32} (htemp : temp ≠ 0) (haddress : Fin 32) :
    s.execAll base (writebackState haddress temp).tail =
      ⟨{ s.regs with x := Function.update s.regs.x temp 1 }, { s.ts with
        flags := fun flag ↦ (s.getX flag.reg).setWidth 8
        stateIsCorrect := 1 }⟩ := by
  rw [writebackState_tail, execAll_append, execAll_flagStores, execAll_cons, execAll_cons, exec,
    exec, getX_setX_self htemp, setX_of_ne htemp]
  rfl

end State

/-! ## No scratch register holds guest state -/

section Scratch

variable {a : Fin 32} (ha : a ∈ scratchGprs)

include ha

theorem scratch_ne_zero : a ≠ 0 := by
  revert a
  decide

theorem allocatedGPR_ne_scratch (i : Fin 16) : allocatedGPR i ≠ a := by
  revert a i
  decide

theorem ripReg_ne_scratch : ripReg ≠ a := by
  revert a
  decide

theorem flagReg_ne_scratch (flag : Flag) : flag.reg ≠ a := by
  cases flag <;> revert a <;> decide

end Scratch

theorem allocatedGPR_ne_zero (i : Fin 16) : allocatedGPR i ≠ 0 := by
  revert i
  decide

theorem flagReg_ne_zero (flag : Flag) : flag.reg ≠ 0 := by cases flag <;> decide

namespace State

variable {s : State} {address temp : Fin 32} (base : BitVec 64)

/-- The three parts of a transfer; the branch compares `x87_state` itself. -/
theorem run_eq {code : Code} {t u : State} (haddress : code.address ≠ 0)
    (hhead : s.execAll base code.head = t)
    (hbranch : (t.setX code.address ((x87Code t.ts.x87State).setWidth 64 ^^^ 1)).execAll base
      (if t.ts.x87State = .x87 then code.onX87 else code.onMmx) = u) :
    s.run base code = u.execAll base code.tail := by
  subst hhead hbranch
  simp only [run, branch_eq haddress]

/-- `writebackState` stores every register and changes two scratch registers. -/
theorem run_writebackState (haddress : address ∈ scratchGprs) (htemp : temp ∈ scratchGprs) :
    ∃ x vl, (∀ r, r ≠ address → r ≠ temp → x r = s.regs.x r) ∧
      s.run base (writebackState address temp) = ⟨{ s.regs with x := x, vl := vl }, { s.ts with
        rip := s.regs.x ripReg
        gprs := fun i ↦ s.regs.x (allocatedGPR i)
        xmm := fun i ↦ s.regs.v (allocatedXMM i)
        fp := s.active
        flags := fun flag ↦ (s.regs.x flag.reg).setWidth 8
        stateIsCorrect := 1 }⟩ := by
  have hne := scratch_ne_zero haddress
  obtain ⟨x₁, hx₁, h₁⟩ := execAll_writeback_head (s := s) base hne temp
  obtain ⟨x₂, vl, hx₂, h₂⟩ := execAll_writeback_branch (s := ⟨{ s.regs with
    x := Function.update x₁ address ((x87Code s.ts.x87State).setWidth 64 ^^^ 1)
    vl := 2 }, { s.ts with
      rip := s.getX ripReg
      gprs := fun i ↦ s.getX (allocatedGPR i)
      xmm := fun i ↦ s.regs.v (allocatedXMM i) }⟩) base hne temp
  have hrun := run_eq base hne h₁ ((congrArg (execAll · base _) (setX_of_ne hne _)).trans h₂)
  have hx (r : Fin 32) (hr : r ≠ address) : x₂ r = s.regs.x r :=
    (hx₂ r hr).trans ((Function.update_of_ne hr _ _).trans (hx₁ r hr))
  refine ⟨Function.update x₂ temp 1, vl, fun r hr ht ↦ ?_, ?_⟩
  · rw [Function.update_of_ne ht, hx r hr]
  · rw [hrun, execAll_writeback_tail base (scratch_ne_zero htemp)]
    have hflags (flag : Flag) : (⟨{ s.regs with x := x₂, vl := vl }, s.ts⟩ : State).getX flag.reg =
        s.regs.x flag.reg :=
      (if_neg (flagReg_ne_zero flag)).trans (hx _ (flagReg_ne_scratch haddress flag))
    have hgprs (i : Fin 16) : s.getX (allocatedGPR i) = s.regs.x (allocatedGPR i) :=
      if_neg (allocatedGPR_ne_zero i)
    have hrip : s.getX ripReg = s.regs.x ripReg := if_neg (by decide)
    refine congrArg (State.mk _) ?_
    rw [Fields.mk.injEq]
    exact ⟨funext hgprs, hrip, rfl, rfl,
      funext fun flag ↦ congrArg (BitVec.setWidth 8) (hflags flag),
      rfl, rfl, rfl, rfl⟩

/-! ## Loading -/

/-- The general and the vector registers are loaded. -/
theorem execAll_restore_head (haddress : address ∈ scratchGprs) (rm : Fin 32) (fsrmSse : Bool) :
    ∃ x, (∀ i, x (allocatedGPR i) = s.ts.gprs i) ∧ x ripReg = s.ts.rip ∧
      s.execAll base (restoreState address rm fsrmSse).head =
        ⟨{ s.regs with
          x := x
          v := writes allocatedXMM s.ts.xmm (List.finRange 16) s.regs.v
          vl := 2 }, s.ts⟩ := by
  have hrip : s.exec base (.ldRip ripReg) = { s with regs := { s.regs with
      x := Function.update s.regs.x ripReg s.ts.rip } } := setX_of_ne (by decide) _
  rw [restoreState, execAll_append, execAll_cons, execAll_cons, hrip, execAll_ld]
  obtain ⟨x, hx, heq⟩ := execAll_vleXmm (s := ⟨{ s.regs with
    x := writes allocatedGPR s.ts.gprs (List.finRange 16)
      (Function.update s.regs.x ripReg s.ts.rip)
    vl := 2 }, s.ts⟩) base (scratch_ne_zero haddress) rfl (List.finRange 16)
  refine ⟨x, fun i ↦ ?_, ?_, heq⟩
  · rw [hx _ (allocatedGPR_ne_scratch haddress i)]
    exact writes_of_mem allocatedGPR_injective (List.mem_finRange i) _
  · rw [hx _ (ripReg_ne_scratch haddress)]
    have hne : ∀ i ∈ List.finRange 16, ripReg ≠ allocatedGPR i := by decide
    have hload : writes allocatedGPR s.ts.gprs (List.finRange 16)
        (Function.update s.regs.x ripReg s.ts.rip) ripReg = _ := writes_of_forall_ne hne _
    exact hload.trans (Function.update_self _ _ _)

/-- One set of the registers is loaded. -/
theorem execAll_restore_branch (haddress : address ≠ 0) (rm : Fin 32) (fsrmSse : Bool) :
    ∃ x f v vl, OnlyAt address s.regs.x x ∧
      (s.ts.x87State = .x87 → ∀ i, f (allocatedFPR i) = s.ts.fp i) ∧
      (s.ts.x87State = .mmx → ∀ i, (v (allocatedMM i)).1 = s.ts.fp i) ∧
      (∀ i, v (allocatedXMM i) = s.regs.v (allocatedXMM i)) ∧
      s.execAll base (if s.ts.x87State = .x87 then (restoreState address rm fsrmSse).onX87
        else (restoreState address rm fsrmSse).onMmx) =
        ⟨⟨x, f, v, vl, s.regs.frm⟩, s.ts⟩ := by
  cases hs : s.ts.x87State with
  | x87 =>
    rw [if_pos rfl, restoreState, execAll_fld]
    refine ⟨_, _, _, _, fun _ _ ↦ rfl, fun _ i ↦ ?_, fun h ↦ absurd h (by decide), fun _ ↦ rfl,
      rfl⟩
    exact writes_of_mem allocatedFPR_injective (List.mem_finRange i) _
  | mmx =>
    rw [if_neg (by decide), restoreState, execAll_cons]
    obtain ⟨x, v, hx, hloaded, hother, heq⟩ := execAll_vleFp
      (s := ⟨{ s.regs with vl := 1 }, s.ts⟩) base haddress rfl (List.finRange 8)
    refine ⟨x, _, v, _, hx, fun h ↦ absurd h (by decide), fun _ i ↦ hloaded i (List.mem_finRange i),
      fun i ↦ hother _ ?_, heq⟩
    revert i
    decide

/-- The flags are loaded. -/
def flagLoads : List Op :=
  [.lbu Flag.cf.reg .cf, .lbu Flag.zf.reg .zf, .lbu Flag.sf.reg .sf, .lbu Flag.of.reg .of]

theorem execAll_flagLoads :
    ∃ x, (∀ r, (∀ flag : Flag, r ≠ flag.reg) → x r = s.regs.x r) ∧
      (∀ flag : Flag, x flag.reg = (s.ts.flags flag).setWidth 64) ∧
      s.execAll base flagLoads = { s with regs := { s.regs with x := x } } := by
  have hlbu (t : State) (flag : Flag) : t.exec base (.lbu flag.reg flag) = { t with regs :=
      { t.regs with x := Function.update t.regs.x flag.reg ((t.ts.flags flag).setWidth 64) } } :=
    setX_of_ne (flagReg_ne_zero flag) _
  simp only [flagLoads, execAll_cons, hlbu]
  refine ⟨_, fun r hr ↦ ?_, fun flag ↦ ?_, rfl⟩
  · rw [Function.update_of_ne (hr .of), Function.update_of_ne (hr .sf),
      Function.update_of_ne (hr .zf), Function.update_of_ne (hr .cf)]
  · cases flag <;> rfl

theorem restoreState_tail (address rm : Fin 32) (fsrmSse : Bool) :
    (restoreState address rm fsrmSse).tail =
      flagLoads ++ [.lbuRmode rm fsrmSse, .fsrm rm, .mark 0] := by
  rw [restoreState, flagLoads]
  rfl

variable (address) in
/-- The rounding mode is loaded too, and the mark is removed. -/
theorem execAll_restore_tail {rm : Fin 32} (hrm : rm ∈ scratchGprs) (fsrmSse : Bool) :
    ∃ x frm, (∀ r, (∀ flag : Flag, r ≠ flag.reg) → r ≠ rm → x r = s.regs.x r) ∧
      (∀ flag : Flag, x flag.reg = (s.ts.flags flag).setWidth 64) ∧
      s.execAll base (restoreState address rm fsrmSse).tail =
        ⟨{ s.regs with x := x, frm := frm }, { s.ts with stateIsCorrect := 0 }⟩ := by
  obtain ⟨x, hother, hflags, heq⟩ := execAll_flagLoads (s := s) base
  rw [restoreState_tail, execAll_append, heq, execAll_cons, exec, setX_of_ne (scratch_ne_zero hrm)]
  refine ⟨Function.update x rm _, _, fun r hr hne ↦ ?_, fun flag ↦ ?_, rfl⟩
  · rw [Function.update_of_ne hne, hother r hr]
  · rw [Function.update_of_ne (flagReg_ne_scratch hrm flag), hflags flag]

/-- `restoreState` loads every register, whatever the registers held. -/
theorem holds_restoreState {rm : Fin 32} {g : Guest} (fsrmSse : Bool)
    (haddress : address ∈ scratchGprs) (hrm : rm ∈ scratchGprs) (h : s.ts.Holds g) :
    (s.run base (restoreState address rm fsrmSse)).regs.Holds s.ts.x87State g ∧
      (s.run base (restoreState address rm fsrmSse)).ts = { s.ts with stateIsCorrect := 0 } := by
  have hne := scratch_ne_zero haddress
  obtain ⟨x₁, hgprs, hrip, h₁⟩ := execAll_restore_head (s := s) base haddress rm fsrmSse
  obtain ⟨x₂, f, v, vl, hx₂, hx87, hmmx, hxmm, h₂⟩ := execAll_restore_branch (s := ⟨{ s.regs with
    x := Function.update x₁ address ((x87Code s.ts.x87State).setWidth 64 ^^^ 1)
    v := writes allocatedXMM s.ts.xmm (List.finRange 16) s.regs.v
    vl := 2 }, s.ts⟩) base hne rm fsrmSse
  have hrun := run_eq base hne h₁ ((congrArg (execAll · base _) (setX_of_ne hne _)).trans h₂)
  obtain ⟨x₃, frm, hx₃, hflags, h₃⟩ := execAll_restore_tail
    (s := ⟨⟨x₂, f, v, vl, s.regs.frm⟩, s.ts⟩) address base hrm fsrmSse
  rw [hrun, h₃]
  have hx (r : Fin 32) (hflag : ∀ flag : Flag, r ≠ flag.reg) (ha : r ≠ address) (hr : r ≠ rm) :
      x₃ r = x₁ r :=
    (hx₃ r hflag hr).trans ((hx₂ r ha).trans (Function.update_of_ne ha _ _))
  refine ⟨⟨fun i ↦ ?_, ?_, fun flag ↦ ?_, fun i ↦ ?_, fun hs i ↦ ?_, fun hs i ↦ ?_⟩, rfl⟩
  · have hflag (flag : Flag) : allocatedGPR i ≠ flag.reg := by
      revert i
      cases flag <;> decide
    exact (hx _ hflag (allocatedGPR_ne_scratch haddress i) (allocatedGPR_ne_scratch hrm i)).trans
      ((hgprs i).trans (congrFun h.gprs i))
  · have hflag (flag : Flag) : ripReg ≠ flag.reg := by cases flag <;> decide
    exact (hx _ hflag (ripReg_ne_scratch haddress) (ripReg_ne_scratch hrm)).trans (hrip.trans h.rip)
  · refine (hflags flag).trans ?_
    rw [h.flags flag]
    cases g.flags flag <;> rfl
  · refine (hxmm i).trans ?_
    exact (writes_of_mem allocatedXMM_injective (List.mem_finRange i) _).trans (congrFun h.xmm i)
  · exact (hx87 hs i).trans (congrFun h.fp i)
  · exact (hmmx hs i).trans (congrFun h.fp i)

/-- `writebackState` leaves the guest's state in both places. -/
theorem holds_writebackState {g : Guest} (haddress : address ∈ scratchGprs)
    (htemp : temp ∈ scratchGprs) (h : s.regs.Holds s.ts.x87State g) :
    (s.run base (writebackState address temp)).ts.Holds g ∧
      (s.run base (writebackState address temp)).regs.Holds s.ts.x87State g ∧
      (s.run base (writebackState address temp)).ts.x87State = s.ts.x87State := by
  obtain ⟨x, vl, hx, hrun⟩ := run_writebackState (s := s) base haddress htemp
  rw [hrun]
  have hactive : s.active = g.fp := by
    funext i
    rw [active]
    cases hs : s.ts.x87State with
    | x87 => exact h.x87 hs i
    | mmx => exact h.mmx hs i
  refine ⟨⟨funext h.gprs, h.rip, fun flag ↦ ?_, funext h.xmm, hactive⟩,
    ⟨fun i ↦ ?_, ?_, fun flag ↦ ?_, h.xmm, h.x87, h.mmx⟩, rfl⟩
  · refine (congrArg (BitVec.setWidth 8) (h.flags flag)).trans ?_
    cases g.flags flag <;> rfl
  · exact (hx _ (allocatedGPR_ne_scratch haddress i) (allocatedGPR_ne_scratch htemp i)).trans
      (h.gprs i)
  · exact (hx _ (ripReg_ne_scratch haddress) (ripReg_ne_scratch htemp)).trans h.rip
  · exact (hx _ (flagReg_ne_scratch haddress flag) (flagReg_ne_scratch htemp flag)).trans
      (h.flags flag)

/-- After `writebackState` the thread state has the guest's registers. Whatever the helper then does
to the registers of the host, `restoreState` puts back the guest's registers if the helper left the
thread state alone, and otherwise the registers the helper put there, in the set of registers that
`x87_state` names. -/
theorem holds_restore_writeback {g : Guest} {addressOut rm : Fin 32} (fsrmSse : Bool)
    (haddress : address ∈ scratchGprs) (htemp : temp ∈ scratchGprs)
    (haddressOut : addressOut ∈ scratchGprs) (hrm : rm ∈ scratchGprs)
    (h : s.regs.Holds s.ts.x87State g) :
    (s.run base (writebackState address temp)).ts.Holds g ∧
      (∀ helper : State → State,
        (helper (s.run base (writebackState address temp))).ts =
          (s.run base (writebackState address temp)).ts →
        ((helper (s.run base (writebackState address temp))).run base
          (restoreState addressOut rm fsrmSse)).regs.Holds s.ts.x87State g ∧
        ((helper (s.run base (writebackState address temp))).run base
          (restoreState addressOut rm fsrmSse)).ts.Holds g) ∧
      ∀ (helper : State → State) (g' : Guest),
        (helper (s.run base (writebackState address temp))).ts.Holds g' →
        ((helper (s.run base (writebackState address temp))).run base
          (restoreState addressOut rm fsrmSse)).regs.Holds
            (helper (s.run base (writebackState address temp))).ts.x87State g' ∧
        ((helper (s.run base (writebackState address temp))).run base
          (restoreState addressOut rm fsrmSse)).ts.Holds g' := by
  obtain ⟨hts, -, hactive⟩ := holds_writebackState base haddress htemp h
  have hrestore (t : State) (g' : Guest) (ht : t.ts.Holds g') :
      (t.run base (restoreState addressOut rm fsrmSse)).regs.Holds t.ts.x87State g' ∧
        (t.run base (restoreState addressOut rm fsrmSse)).ts.Holds g' := by
    obtain ⟨hregs, heq⟩ := holds_restoreState base fsrmSse haddressOut hrm ht
    exact ⟨hregs, heq ▸ ht.mark 0⟩
  refine ⟨hts, fun helper hsame ↦ ?_, fun helper g' hg ↦ hrestore _ g' hg⟩
  rw [← hactive, ← hsame]
  exact hrestore _ g (hsame ▸ hts)

/-- A thread in the MMX state, with something else in every register and an old thread state. -/
def running : State where
  regs :=
    { x := fun r ↦
        if r = Flag.cf.reg ∨ r = Flag.sf.reg then 1
        else if r = Flag.zf.reg ∨ r = Flag.of.reg then 0 else BitVec.ofNat 64 (0x1000 + r)
      f := fun r ↦ BitVec.ofNat 64 (0x2000 + r)
      v := fun r ↦ (BitVec.ofNat 64 (0x3000 + r), BitVec.ofNat 64 (0x4000 + r))
      vl := 0
      frm := 0 }
  ts := ⟨fun _ ↦ 0, 0, fun _ ↦ 0, fun _ ↦ (0, 0), fun _ ↦ 0, .mmx, 0, 0, 0⟩

/-- The guest's registers in it. -/
def runningGuest : Guest where
  gprs i := BitVec.ofNat 64 (0x1000 + allocatedGPR i)
  rip := 0x1003
  flags
    | .cf | .sf => true
    | .zf | .of => false
  xmm i := (BitVec.ofNat 64 (0x3002 + i), BitVec.ofNat 64 (0x4002 + i))
  fp i := BitVec.ofNat 64 (0x3012 + i)

theorem running_holds : running.regs.Holds running.ts.x87State runningGuest where
  gprs := by decide
  rip := by decide
  flags flag := by cases flag <;> decide
  xmm := by decide
  x87 h := by cases h
  mmx _ := by decide

/-- C++ code that uses every register of the host. -/
def clobber (s : State) : State :=
  { s with regs := ⟨fun _ ↦ 0xDEAD, fun _ ↦ 0xDEAD, fun _ ↦ (0xDEAD, 0xDEAD), 2, 0⟩ }

/-- The same, with a result in `RAX`. -/
def clobberRax (s : State) : State :=
  { s.clobber with ts := { s.ts with gprs := Function.update s.ts.gprs 0 0x1234 } }

/-- The registers are back after a helper that changes only those of the host, and the result of one
that has a result is in `RAX`. -/
theorem holds_restore_writeback_running :
    ((running.run 0 (writebackState 1 6)).clobber.run 0 (restoreState 1 6 true)).regs.Holds .mmx
        runningGuest ∧
      ((running.run 0 (writebackState 1 6)).clobberRax.run 0 (restoreState 1 6 true)).regs.Holds
        (running.run 0 (writebackState 1 6)).clobberRax.ts.x87State
        { runningGuest with gprs := Function.update runningGuest.gprs 0 0x1234 } := by
  have hscratch : (1 : Fin 32) ∈ scratchGprs ∧ (6 : Fin 32) ∈ scratchGprs := by decide
  obtain ⟨hts, hsame, hchanged⟩ :=
    holds_restore_writeback 0 true hscratch.1 hscratch.2 hscratch.1 hscratch.2 running_holds
  have hresult : (running.run 0 (writebackState 1 6)).clobberRax.ts.Holds
      { runningGuest with gprs := Function.update runningGuest.gprs 0 0x1234 } :=
    ⟨congrArg (fun gprs ↦ Function.update gprs 0 0x1234) hts.gprs, hts.rip, hts.flags,
      hts.xmm, hts.fp⟩
  exact ⟨(hsame clobber rfl).1, (hchanged clobberRax _ hresult).1⟩

end State

end Transfer

end Felix86
