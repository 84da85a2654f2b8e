import Felix86.Lib.Memory

/-!
# Code without branches

Registers and memory of a 64-bit host, and the loads, stores and additions that move values between
them. Immediates are the integers an assembler is given; twelve bits of them are encoded, whether
they fit or not, and the host extends the sign of those.

Code that fills places one after the other is correct if every part of it fills its own place and no
other part touches it: `holds_foldl`.
-/

namespace Felix86

namespace Straight

open Riscv

/-! ## Instructions -/

abbrev Reg := BitVec 5

/-- The widths of integer loads and stores. -/
inductive Width
  | byte
  | half
  | word
  | double
deriving DecidableEq, Repr

def Width.bytes : Width → ℕ
  | byte => 1
  | half => 2
  | word => 4
  | double => 8

/-- The widths of float loads and stores. -/
inductive Precision
  | single
  | double
deriving DecidableEq, Repr

def Precision.bytes : Precision → ℕ
  | single => 4
  | double => 8

inductive Insn
  | addi (rd rs : Reg) (imm : ℤ)
  | li (rd : Reg) (value : U64)
  | slli (rd rs : Reg) (shift : ℕ)
  | srli (rd rs : Reg) (shift : ℕ)
  | load (width : Width) (rd : Reg) (imm : ℤ) (rs : Reg)
  | loadu (width : Width) (rd : Reg) (imm : ℤ) (rs : Reg)
  | store (width : Width) (rs2 : Reg) (imm : ℤ) (rs1 : Reg)
  | fload (precision : Precision) (rd : Reg) (imm : ℤ) (rs : Reg)
  | fstore (precision : Precision) (rs2 : Reg) (imm : ℤ) (rs1 : Reg)
deriving DecidableEq, Repr

/-- The integers that twelve bits stand for. -/
def IsValidSigned12BitImm (value : ℤ) : Prop := -2048 ≤ value ∧ value ≤ 2047

instance (value : ℤ) : Decidable (IsValidSigned12BitImm value) :=
  inferInstanceAs (Decidable (_ ∧ _))

/-- The immediate is encoded as it is. -/
def Insn.Fits : Insn → Prop
  | addi _ _ imm => IsValidSigned12BitImm imm
  | li _ _ => True
  | slli _ _ _ => True
  | srli _ _ _ => True
  | load _ _ imm _ => IsValidSigned12BitImm imm
  | loadu _ _ imm _ => IsValidSigned12BitImm imm
  | store _ _ imm _ => IsValidSigned12BitImm imm
  | fload _ _ imm _ => IsValidSigned12BitImm imm
  | fstore _ _ imm _ => IsValidSigned12BitImm imm

/-! ## Execution -/

/-- Registers and memory. -/
structure Machine where
  x : Reg → U64
  f : Reg → U64
  mem : Mem

namespace Machine

/-- The register zero reads as zero. -/
def get (m : Machine) (r : Reg) : U64 := if r = 0 then 0 else m.x r

/-- Writes to the register zero are dropped. -/
def set (m : Machine) (rd : Reg) (value : U64) : Machine :=
  if rd = 0 then m else { m with x := Function.update m.x rd value }

def setF (m : Machine) (rd : Reg) (value : U64) : Machine :=
  { m with f := Function.update m.f rd value }

def setMem (m : Machine) (mem : Mem) : Machine := { m with mem }

end Machine

/-- The immediate as the host sees it. -/
def imm12 (imm : ℤ) : U64 := (BitVec.ofInt 12 imm).signExtend 64

/-- The sign of a loaded value is extended. -/
def extend : Width → U64 → U64
  | .byte, v => sextb v
  | .half, v => sexth v
  | .word, v => sextw v
  | .double, v => v

/-- A float in a wider register: the upper bits are ones. -/
def box : Precision → U64 → U64
  | .single, v => zextw v ||| 0xFFFFFFFF00000000
  | .double, v => v

def exec (m : Machine) : Insn → Machine
  | .addi rd rs imm => m.set rd (m.get rs + imm12 imm)
  | .li rd value => m.set rd value
  | .slli rd rs shift => m.set rd (m.get rs <<< shift)
  | .srli rd rs shift => m.set rd (m.get rs >>> shift)
  | .load width rd imm rs => m.set rd (extend width (m.mem.load (m.get rs + imm12 imm) width.bytes))
  | .loadu width rd imm rs => m.set rd (m.mem.load (m.get rs + imm12 imm) width.bytes)
  | .store width rs2 imm rs1 =>
    m.setMem (m.mem.store (m.get rs1 + imm12 imm) (m.get rs2) width.bytes)
  | .fload precision rd imm rs =>
    m.setF rd (box precision (m.mem.load (m.get rs + imm12 imm) precision.bytes))
  | .fstore precision rs2 imm rs1 =>
    m.setMem (m.mem.store (m.get rs1 + imm12 imm) (m.f rs2) precision.bytes)

/-- One instruction after the other. -/
def run (code : List Insn) (m : Machine) : Machine := code.foldl exec m

variable {m : Machine} {r rd : Reg} {v : U64} {code code' : List Insn} {i : Insn}

@[simp] theorem run_nil : run [] m = m := rfl

@[simp] theorem run_cons : run (i :: code) m = run code (exec m i) := rfl

theorem run_append : run (code ++ code') m = run code' (run code m) := List.foldl_append

theorem run_flatten (codes : List (List Insn)) (m : Machine) :
    run codes.flatten m = codes.foldl (fun m code ↦ run code m) m := by
  induction codes generalizing m with
  | nil => rfl
  | cons code codes ih => rw [List.flatten_cons, run_append, ih, List.foldl_cons]

namespace Machine

@[simp] theorem get_zero : m.get 0 = 0 := if_pos rfl

theorem get_set_self (h : rd ≠ 0) : (m.set rd v).get rd = v := by
  rw [set, if_neg h, get, if_neg h]
  exact Function.update_self ..

theorem get_set_of_ne (h : r ≠ rd) : (m.set rd v).get r = m.get r := by
  rw [set]
  split
  · rfl
  · simp only [get, Function.update_of_ne h]

@[simp] theorem mem_set : (m.set rd v).mem = m.mem := by
  rw [set]
  split <;> rfl

@[simp] theorem f_set : (m.set rd v).f = m.f := by
  rw [set]
  split <;> rfl

@[simp] theorem get_setF : (m.setF rd v).get r = m.get r := rfl

@[simp] theorem mem_setF : (m.setF rd v).mem = m.mem := rfl

theorem f_setF_self : (m.setF rd v).f rd = v := Function.update_self ..

theorem f_setF_of_ne (h : r ≠ rd) : (m.setF rd v).f r = m.f r := Function.update_of_ne h ..

@[simp] theorem get_setMem {mem : Mem} : (m.setMem mem).get r = m.get r := rfl

@[simp] theorem f_setMem {mem : Mem} : (m.setMem mem).f = m.f := rfl

@[simp] theorem mem_setMem {mem : Mem} : (m.setMem mem).mem = mem := rfl

end Machine

/-! ## Immediates -/

/-- What fits is what the host sees. -/
theorem imm12_of_fits {imm : ℤ} (h : IsValidSigned12BitImm imm) :
    imm12 imm = BitVec.ofInt 64 imm := by
  obtain ⟨hlo, hhi⟩ := h
  apply BitVec.eq_of_toInt_eq
  rw [imm12, BitVec.toInt_signExtend_of_le (by decide), BitVec.toInt_ofInt, BitVec.toInt_ofInt,
    Int.bmod_eq_of_le (by omega) (by omega), Int.bmod_eq_of_le (by omega) (by omega)]

theorem imm12_natCast {n : ℕ} (h : n ≤ 2047) : imm12 n = BitVec.ofNat 64 n := by
  rw [imm12_of_fits ⟨by omega, by omega⟩, BitVec.ofInt_natCast]

theorem imm12_neg {n : ℕ} (h : n ≤ 2048) : imm12 (-n) = -BitVec.ofNat 64 n := by
  rw [imm12_of_fits ⟨by omega, by omega⟩, BitVec.ofInt_neg, BitVec.ofInt_natCast]

/-! ## Places filled one after the other -/

section Places

variable {σ ι : Type*} {step : σ → ι → σ} {I : σ → Prop} {P : ι → σ → Prop} {l : List ι} {s : σ}

theorem invariant_foldl (hI : I s) (hstep : ∀ i ∈ l, ∀ s, I s → I (step s i)) :
    I (l.foldl step s) := by
  induction l generalizing s with
  | nil => exact hI
  | cons i l ih =>
    exact ih (hstep i List.mem_cons_self s hI) fun j hj ↦ hstep j (List.mem_cons_of_mem i hj)

/-- Every step fills a place of its own, and no later step touches it. -/
theorem holds_foldl (hI : I s) (hstep : ∀ i ∈ l, ∀ s, I s → I (step s i))
    (hset : ∀ i ∈ l, ∀ s, I s → P i (step s i))
    (hkeep : l.Pairwise fun i j ↦ ∀ s, I s → P i s → P i (step s j)) :
    ∀ i ∈ l, P i (l.foldl step s) := by
  induction l generalizing s with
  | nil => exact fun i hi ↦ nomatch hi
  | cons i l ih =>
    have hI' := hstep i List.mem_cons_self s hI
    have hstep' : ∀ j ∈ l, ∀ s, I s → I (step s j) := fun j hj ↦ hstep j (List.mem_cons_of_mem i hj)
    obtain ⟨hfirst, hrest⟩ := List.pairwise_cons.mp hkeep
    intro j hj
    obtain rfl | hj := List.mem_cons.mp hj
    · -- the place of the first step stays as it is
      have hboth : I (l.foldl step (step s j)) ∧ P j (l.foldl step (step s j)) :=
        invariant_foldl (I := fun s ↦ I s ∧ P j s) ⟨hI', hset j List.mem_cons_self s hI⟩
          fun k hk s hs ↦ ⟨hstep' k hk s hs.1, hfirst k hk s hs.1 hs.2⟩
      exact hboth.2
    · exact ih hI' hstep' (fun k hk ↦ hset k (List.mem_cons_of_mem i hk)) hrest j hj

end Places

end Straight

end Felix86
