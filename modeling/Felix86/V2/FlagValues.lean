import Felix86.V2.HandlersArith
import Felix86.V2.Registers

/-!
# Flags as one assignment

A handler computes its flags one after the other, each if it is needed. `State.assign` is the same
as one simultaneous assignment, which is the form to compare handlers in: which flags are written,
and with what.
-/

namespace Felix86

namespace Jit

variable {ρ : Type*}

/-- Write the flags in `e`. -/
def State.assign (s : State ρ) (e : Flag → Bool) (v : Flag → U64) : State ρ :=
  { s with flag := fun f ↦ if e f then f.stored (v f) else s.flag f }

@[simp] theorem State.core_assign (s : State ρ) (e : Flag → Bool) (v : Flag → U64) :
    (s.assign e v).core = s.core := rfl

theorem State.flag_assign (s : State ρ) (e : Flag → Bool) (v : Flag → U64) (f : Flag) :
    (s.assign e v).flag f = if e f then f.stored (v f) else s.flag f := rfl

theorem State.flag_setFlag (s : State ρ) (f f' : Flag) (v : U64) :
    (s.setFlag f v).flag f' = if f' = f then f.stored v else s.flag f' := by
  by_cases hf : f' = f
  · subst hf
    rw [if_pos rfl]
    exact Function.update_self ..
  · rw [if_neg hf]
    exact Function.update_of_ne hf ..

theorem State.flag_emit (s : State ρ) (e : Flag → Bool) (f f' : Flag) (v : U64) :
    (s.emit e f v).flag f' = if f' = f ∧ e f then f.stored v else s.flag f' := by
  rw [State.emit]
  by_cases he : e f = true
  · rw [if_pos he, State.flag_setFlag]
    simp [he]
  · rw [if_neg he]
    simp [he]

theorem State.ext {s t : State ρ} (hcore : s.core = t.core) (hflag : ∀ f, s.flag f = t.flag f) :
    s = t := by
  cases s
  cases t
  simp only at hcore hflag
  rw [hcore, funext hflag]

variable (k : Config) (e : Flag → Bool)

/-- The flags of a comparison. -/
def cmpValues (dst src result : U64) (size : Size) (zextSrc : Bool) : Flag → U64
  | .cf => Config.updateCarrySub dst (if zextSrc then k.zext size src else src)
  | .pf => k.updateParity result
  | .af => Config.updateAuxiliarySub dst src
  | .zf => k.updateZero result size
  | .sf => Config.updateSign result size
  | .of => Config.updateOverflowSub dst src result size

theorem setCmpFlags_eq (dst src result : U64) (size : Size) (zextSrc always : Bool) (s : State ρ) :
    setCmpFlags k e dst src result size zextSrc always s =
      s.assign (fun f ↦ always || e f) (cmpValues k dst src result size zextSrc) := by
  refine State.ext (by simp) fun f ↦ ?_
  cases f <;> simp [setCmpFlags, State.flag_emit, State.flag_assign, cmpValues]

/-- The flags of an addition. -/
def addValues (dst src result aux : U64) (size : Size) : Flag → U64
  | .cf => k.updateCarryAdd dst result size
  | .pf => k.updateParity result
  | .af => Config.updateAuxiliaryAdd dst aux
  | .zf => k.updateZero result size
  | .sf => Config.updateSign result size
  | .of => Config.updateOverflowAdd dst src result size

theorem setAddFlags_eq (dst src result aux : U64) (size : Size) (s : State ρ) :
    setAddFlags k e dst src result aux size s =
      s.assign e (addValues k dst src result aux size) := by
  refine State.ext (by simp) fun f ↦ ?_
  cases f <;> simp [setAddFlags, State.flag_emit, State.flag_assign, addValues]

/-- The flags of a logic instruction. -/
def logicValues (result : U64) (size : Size) : Flag → U64
  | .cf => 0
  | .pf => k.updateParity result
  | .af => 0
  | .zf => k.updateZero result size
  | .sf => Config.updateSign result size
  | .of => 0

/-- `AF` is left alone. -/
def butAf (e : Flag → Bool) (f : Flag) : Bool := e f && f ≠ .af

theorem setLogicFlags_eq (result : U64) (size : Size) (s : State ρ) :
    setLogicFlags k e result size s = s.assign (butAf e) (logicValues k result size) := by
  refine State.ext (by simp) fun f ↦ ?_
  cases f <;> simp [setLogicFlags, State.flag_emit, State.flag_assign, logicValues, butAf]

/-! ## The bits that flags depend on -/

section

open Riscv

theorem and_one_congr {v w : U64} (h : v.getLsbD 0 = w.getLsbD 0) : v &&& 1 = w &&& 1 := by
  change v &&& 1#64 = w &&& 1#64
  rw [BitVec.and_one_eq_setWidth_ofBool_getLsbD, BitVec.and_one_eq_setWidth_ofBool_getLsbD, h]

theorem and_mask_congr {v w : U64} {n : ℕ} (hn : n ≤ 64) (h : v.toNat % 2 ^ n = w.toNat % 2 ^ n) :
    v &&& BitVec.ofNat 64 (2 ^ n - 1) = w &&& BitVec.ofNat 64 (2 ^ n - 1) := by
  apply BitVec.eq_of_toNat_eq
  rw [toNat_and_mask v hn, toNat_and_mask w hn, h]

namespace Config

variable (k : Config) {size : Size} {v w : U64}

theorem zext_congr (h : LowEq size v w) : k.zext size v = k.zext size w := by
  apply BitVec.eq_of_toNat_eq
  rw [k.toNat_zext, k.toNat_zext, h]

theorem updateZero_congr (h : LowEq size v w) : k.updateZero v size = k.updateZero w size := by
  rw [updateZero, updateZero, k.zext_congr h]

theorem updateSign_congr (h : LowEq size v w) : updateSign v size = updateSign w size := by
  have hpos := size.le_bits
  apply and_one_congr
  rw [BitVec.getLsbD_ushiftRight, BitVec.getLsbD_ushiftRight]
  exact h.getLsbD (by omega)

theorem topBits_congr (h : LowEq size v w) : topBits size v = topBits size w := by
  have hpos := size.le_bits
  apply and_one_congr
  simp only [BitVec.getLsbD_xor, BitVec.getLsbD_ushiftRight]
  rw [h.getLsbD (by omega), h.getLsbD (by omega)]

theorem and_f_congr (h : LowEq size v w) : v &&& 0xf = w &&& 0xf :=
  and_mask_congr (show 4 ≤ 64 by decide) (h.mod (size.le_bits.trans' (by decide)))

theorem updateParity_congr (h : LowEq size v w) : k.updateParity v = k.updateParity w := by
  have hbits := size.le_bits
  have hbyte : v &&& 0xff = w &&& 0xff :=
    and_mask_congr (show 8 ≤ 64 by decide) (h.mod hbits)
  rw [updateParity, updateParity]
  cases k.b with
  | true => rw [if_pos rfl, if_pos rfl, hbyte]
  | false =>
    rw [if_neg (by decide), if_neg (by decide)]
    congr 1
    apply and_one_congr
    have hbit (j : ℕ) (hj : j < 8) : v.getLsbD j = w.getLsbD j := h.getLsbD (by omega)
    simp (disch := omega) only [BitVec.getLsbD_xor, BitVec.getLsbD_ushiftRight, hbit]

/-- The flags of a logic instruction depend on the lower bits of its result only. -/
theorem logicValues_congr {result result' : U64} (h : LowEq size result result') :
    logicValues k result size = logicValues k result' size := by
  funext f
  cases f with
  | pf => exact k.updateParity_congr h
  | zf => exact k.updateZero_congr h
  | sf => exact updateSign_congr h
  | _ => rfl

end Config

end

end Jit

end Felix86
