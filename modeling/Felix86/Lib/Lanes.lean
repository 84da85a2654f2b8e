import Mathlib.Data.BitVec
import Mathlib.Data.List.Basic

/-!
# Vectors as bits, and their lanes

A vector register is a sequence of bits. It has lanes of any width at the same time: lane `i` of
width `w` is the bits from `w * i` on. The vector instructions of RISC-V compute lanes of one width,
as many as the vector length says, and leave the other bits of the destination alone. Here each
instruction is a function of the old destination and the sources; `VLMAX` is the number of lanes
that the register has.

A scalar is a 64-bit value, and an offset or an index that is past the last lane of the register
reads as zero.
-/

namespace Felix86

abbrev Bits := ℕ → Bool

namespace Lanes

/-- Lane `i` of width `w`. -/
def lane (w : ℕ) (v : Bits) (i : ℕ) : BitVec w :=
  (BitVec.ofBoolListLE ((List.range w).map fun j ↦ v (w * i + j))).setWidth w

/-- The register with these lanes. -/
def ofLanes {w : ℕ} (f : ℕ → BitVec w) : Bits := fun k ↦ (f (k / w)).getLsbD (k % w)

/-- Put the first `vl` lanes. -/
def setLanes {w : ℕ} (vl : ℕ) (f : ℕ → BitVec w) (old : Bits) : Bits := fun k ↦
  if k < w * vl then ofLanes f k else old k

/-- The same bits below `n`. -/
def Agree (n : ℕ) (a b : Bits) : Prop := ∀ k < n, a k = b k

variable {w n i vl : ℕ} {a b c v old : Bits} {f g : ℕ → BitVec w}

theorem getLsbD_lane (w : ℕ) (v : Bits) (i j : ℕ) :
    (lane w v i).getLsbD j = (decide (j < w) && v (w * i + j)) := by
  rw [lane, BitVec.getLsbD_setWidth, BitVec.getLsbD_ofBoolListLE, List.getD_eq_getElem?_getD]
  by_cases hj : j < w
  · rw [List.getElem?_map, List.getElem?_range hj]
    rfl
  · rw [decide_eq_false hj, Bool.false_and, Bool.false_and]

theorem lane_congr (h : ∀ j < w, a (w * i + j) = b (w * i + j)) : lane w a i = lane w b i := by
  refine BitVec.eq_of_getLsbD_eq fun j hj ↦ ?_
  rw [getLsbD_lane, getLsbD_lane, h j hj]

theorem bit_of_lane (hw : 0 < w) (v : Bits) (k : ℕ) : v k = (lane w v (k / w)).getLsbD (k % w) := by
  rw [getLsbD_lane, decide_eq_true (Nat.mod_lt k hw), Bool.true_and, Nat.div_add_mod]

theorem lane_ofLanes (hw : 0 < w) (f : ℕ → BitVec w) (i : ℕ) : lane w (ofLanes f) i = f i := by
  refine BitVec.eq_of_getLsbD_eq fun j hj ↦ ?_
  rw [getLsbD_lane, decide_eq_true hj, Bool.true_and, ofLanes, Nat.mul_add_div hw,
    Nat.div_eq_of_lt hj, Nat.add_zero, Nat.mul_add_mod, Nat.mod_eq_of_lt hj]

theorem setLanes_of_ge {k : ℕ} (h : w * vl ≤ k) : setLanes vl f old k = old k :=
  if_neg (not_lt.mpr h)

theorem lane_setLanes (hi : i < vl) : lane w (setLanes vl f old) i = f i := by
  rcases Nat.eq_zero_or_pos w with rfl | hw
  · exact BitVec.eq_of_getLsbD_eq fun j hj ↦ absurd hj (Nat.not_lt_zero j)
  rw [← lane_ofLanes hw f i]
  refine lane_congr fun j hj ↦ if_pos ?_
  calc w * i + j < w * i + w := Nat.add_lt_add_left hj _
    _ = w * (i + 1) := (Nat.mul_succ w i).symm
    _ ≤ w * vl := Nat.mul_le_mul_left w hi

/-- A narrow lane is a part of a wide one. -/
theorem lane_extract (w' m j : ℕ) (v : Bits) (hw : w' * m = w) (hi : i < m) :
    lane w' v (m * j + i) = (lane w v j).extractLsb' (w' * i) w' := by
  refine BitVec.eq_of_getLsbD_eq fun t ht ↦ ?_
  have hlt : w' * i + t < w := by
    calc w' * i + t < w' * i + w' := Nat.add_lt_add_left ht _
      _ = w' * (i + 1) := (Nat.mul_succ w' i).symm
      _ ≤ w' * m := Nat.mul_le_mul_left w' hi
      _ = w := hw
  rw [getLsbD_lane, BitVec.getLsbD_extractLsb', getLsbD_lane, decide_eq_true ht, decide_eq_true hlt,
    Bool.true_and, Bool.true_and, Bool.true_and, Nat.mul_add, ← Nat.mul_assoc, hw, Nat.add_assoc]

/-! ## Registers that agree -/

theorem Agree.refl (n : ℕ) (a : Bits) : Agree n a a := fun _ _ ↦ rfl

theorem Agree.symm (h : Agree n a b) : Agree n b a := fun k hk ↦ (h k hk).symm

theorem Agree.trans (h : Agree n a b) (h' : Agree n b c) : Agree n a c := fun k hk ↦
  (h k hk).trans (h' k hk)

theorem Agree.mono {m : ℕ} (h : Agree n a b) (hm : m ≤ n) : Agree m a b := fun k hk ↦
  h k (hk.trans_le hm)

theorem Agree.lane_eq (h : Agree n a b) (hi : w * (i + 1) ≤ n) : lane w a i = lane w b i :=
  lane_congr fun j hj ↦ h _ (by rw [Nat.mul_succ] at hi; omega)

/-- Registers agree if their lanes are the same, whatever the width. -/
theorem agree_of_lanes (hw : 0 < w) (h : ∀ i < n, lane w a i = lane w b i) : Agree (w * n) a b := by
  intro k hk
  rw [bit_of_lane hw a, bit_of_lane hw b, h (k / w) (Nat.div_lt_of_lt_mul hk)]

/-- The first lanes that are put, as a register of its own. -/
theorem agree_setLanes (f : ℕ → BitVec w) (old : Bits) :
    Agree (w * vl) (setLanes vl f old) (ofLanes f) :=
  fun _ hk ↦ if_pos hk

end Lanes

/-! ## Instructions -/

namespace Rvv

open Lanes

variable (vlen w vl : ℕ) (old src idx mask : Bits) (x : BitVec 64)

/-- `VLMAX`. -/
def vlmax : ℕ := vlen / w

/-- A lane by its index, which may be past the last one. -/
def gather (j : ℕ) : BitVec w := if j < vlmax vlen w then lane w src j else 0

/-- `vmv.v.v`. -/
def vmvV : Bits := setLanes vl (lane w src) old

/-- `vmv.v.x` and, for the immediates that are the same at all widths, `vmv.v.i`. -/
def vmvX : Bits := setLanes vl (fun _ ↦ x.setWidth w) old

/-- `vmv.s.x`. -/
def vmvSX : Bits := setLanes (min 1 vl) (fun _ ↦ x.setWidth w) old

/-- `vmv.x.s`. -/
def vmvXS : BitVec 64 := (lane w src 0).signExtend 64

/-- `vid.v`. -/
def vid : Bits := setLanes vl (BitVec.ofNat w) old

/-- `vor.vv`. -/
def vor (src' : Bits) : Bits := setLanes vl (fun i ↦ lane w src i ||| lane w src' i) old

/-- `vand.vx`. -/
def vandX : Bits := setLanes vl (fun i ↦ lane w src i &&& x.setWidth w) old

/-- `vand.vx` with a mask: the lanes whose bit is not set stay. -/
def vandXMasked : Bits :=
  setLanes vl (fun i ↦ if mask i then lane w src i &&& x.setWidth w else lane w old i) old

/-- The shift amount is taken modulo the width. -/
def vsll : Bits := setLanes vl (fun i ↦ lane w src i <<< (x.toNat % w)) old
def vsrl : Bits := setLanes vl (fun i ↦ lane w src i >>> (x.toNat % w)) old
def vsra : Bits := setLanes vl (fun i ↦ (lane w src i).sshiftRight (x.toNat % w)) old

/-- `vslideup.vi`: the lanes below the offset stay. -/
def vslideup (offset : ℕ) : Bits :=
  setLanes vl (fun i ↦ if i < offset then lane w old i else lane w src (i - offset)) old

/-- `vslidedown.vi`. -/
def vslidedown (offset : ℕ) : Bits :=
  setLanes vl (fun i ↦ gather vlen w src (i + offset)) old

/-- `vslide1up.vx`. -/
def vslide1up : Bits :=
  setLanes vl (fun i ↦ if i = 0 then x.setWidth w else lane w src (i - 1)) old

/-- `vrgather.vv`. -/
def vrgather : Bits := setLanes vl (fun i ↦ gather vlen w src (lane w idx i).toNat) old

/-- `vrgather.vv` with a mask. -/
def vrgatherMasked : Bits :=
  setLanes vl (fun i ↦ if mask i then gather vlen w src (lane w idx i).toNat else lane w old i) old

/-- `vrgatherei16.vv`: the indices have 16 bits. -/
def vrgatherei16 : Bits := setLanes vl (fun i ↦ gather vlen w src (lane 16 idx i).toNat) old

variable {vlen w vl old src idx mask x}

section

variable {i : ℕ} (hi : i < vl)

include hi

theorem lane_vmvV : lane w (vmvV w vl old src) i = lane w src i := lane_setLanes hi

theorem lane_vmvX : lane w (vmvX w vl old x) i = x.setWidth w := lane_setLanes hi

theorem lane_vid : lane w (vid w vl old) i = BitVec.ofNat w i := lane_setLanes hi

theorem lane_vor {src' : Bits} :
    lane w (vor w vl old src src') i = lane w src i ||| lane w src' i := lane_setLanes hi

theorem lane_vandX : lane w (vandX w vl old src x) i = lane w src i &&& x.setWidth w :=
  lane_setLanes hi

theorem lane_vandXMasked : lane w (vandXMasked w vl old src mask x) i =
    if mask i then lane w src i &&& x.setWidth w else lane w old i := lane_setLanes hi

theorem lane_vslideup {offset : ℕ} : lane w (vslideup w vl old src offset) i =
    if i < offset then lane w old i else lane w src (i - offset) := lane_setLanes hi

theorem lane_vslidedown {offset : ℕ} : lane w (vslidedown vlen w vl old src offset) i =
    gather vlen w src (i + offset) := lane_setLanes hi

theorem lane_vslide1up : lane w (vslide1up w vl old src x) i =
    if i = 0 then x.setWidth w else lane w src (i - 1) := lane_setLanes hi

theorem lane_vrgather : lane w (vrgather vlen w vl old src idx) i =
    gather vlen w src (lane w idx i).toNat := lane_setLanes hi

theorem lane_vrgatherMasked : lane w (vrgatherMasked vlen w vl old src idx mask) i =
    if mask i then gather vlen w src (lane w idx i).toNat else lane w old i := lane_setLanes hi

theorem lane_vrgatherei16 : lane w (vrgatherei16 vlen w vl old src idx) i =
    gather vlen w src (lane 16 idx i).toNat := lane_setLanes hi

end

/-- The scalar is in the first lane. -/
theorem vmvSX_apply {k : ℕ} (hk : k < w) (hvl : 0 < vl) :
    vmvSX w vl old x k = x.getLsbD k := by
  have hone : min 1 vl = 1 := Nat.min_eq_left hvl
  rw [vmvSX, hone, setLanes, if_pos (by omega), ofLanes, Nat.mod_eq_of_lt hk,
    BitVec.getLsbD_setWidth, decide_eq_true hk, Bool.true_and]

theorem lane_vmvSX (hvl : 0 < vl) : lane w (vmvSX w vl old x) 0 = x.setWidth w :=
  lane_setLanes (Nat.lt_min.mpr ⟨Nat.one_pos, hvl⟩)

theorem vmvV_apply (hw : 0 < w) (k : ℕ) :
    vmvV w vl old src k = if k < w * vl then src k else old k := by
  rw [vmvV, setLanes, ofLanes, ← bit_of_lane hw]

theorem gather_of_lt {j : ℕ} (h : j < vlmax vlen w) : gather vlen w src j = lane w src j := if_pos h

theorem gather_of_ge {j : ℕ} (h : vlmax vlen w ≤ j) : gather vlen w src j = 0 :=
  if_neg (not_lt.mpr h)

end Rvv

end Felix86
