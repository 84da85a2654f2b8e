import Felix86.Hle.SignalContext
import Felix86.Lib.Positions
import Felix86.Lib.Numerals
import Mathlib

/-!
# Packed string comparison

`felix86_pcmpxstrx` runs the four instructions that compare two vectors as strings. Every element of
one is compared with every element of the other, an element past the end of its string gets an
answer that does not depend on what is there, the answers are put together to one bit for each
position, and an index or a mask is made of the bits.

The loops of the function are kept, with what it leaves undefined: a place outside of `BoolRes` and
a shift by more than the width are `none`, as is a failed `ASSERT`. What the instructions are to do
is written once more without loops, and the two are compared.
-/

namespace Felix86

open Numerals Positions

/-- The instruction: `enum class pcmpxstrx`. -/
inductive Pcmpxstrx
  | implicitIndex
  | implicitMask
  | explicitIndex
  | explicitMask
deriving DecidableEq, Repr

namespace Pcmpxstrx

def implicit : Pcmpxstrx → Bool
  | implicitIndex | implicitMask => true
  | explicitIndex | explicitMask => false

def index : Pcmpxstrx → Bool
  | implicitIndex | explicitIndex => true
  | implicitMask | explicitMask => false

/-- Bits 0 and 1 of the immediate. -/
inductive ElemType
  | unsignedBytes
  | unsignedWords
  | signedBytes
  | signedWords
deriving DecidableEq, Repr

/-- Bits 2 and 3. -/
inductive Mode
  | equalAny
  | ranges
  | equalEach
  | equalOrdered
deriving DecidableEq, Repr

/-- Bits 4 and 5. -/
inductive Polarity
  | positive
  | negative
  | maskedPositive
  | maskedNegative
deriving DecidableEq, Repr

def ElemType.ofControl (control : BitVec 8) : ElemType :=
  match (control &&& 3#8).toNat with
  | 0 => .unsignedBytes
  | 1 => .unsignedWords
  | 2 => .signedBytes
  | _ => .signedWords

def Mode.ofControl (control : BitVec 8) : Mode :=
  match (control >>> 2 &&& 3#8).toNat with
  | 0 => .equalAny
  | 1 => .ranges
  | 2 => .equalEach
  | _ => .equalOrdered

def Polarity.ofControl (control : BitVec 8) : Polarity :=
  match (control >>> 4 &&& 3#8).toNat with
  | 0 => .positive
  | 1 => .negative
  | 2 => .maskedPositive
  | _ => .maskedNegative

/-- Bit 6: the last index instead of the first, or a mask of elements instead of bits. -/
def outputSelection (control : BitVec 8) : Bool := control.getLsbD 6

namespace ElemType

/-- The bits of an element. -/
def width : ElemType → ℕ
  | unsignedBytes | signedBytes => 8
  | unsignedWords | signedWords => 16

/-- `Count`. -/
def count (t : ElemType) : ℕ := 128 / t.width

/-- An element as the integer that it is promoted to. -/
def element (t : ElemType) (x : BitVec 128) (i : ℕ) : ℤ :=
  match t with
  | unsignedBytes | unsignedWords => (x.extractLsb' (i * t.width) t.width).toNat
  | signedBytes | signedWords => (x.extractLsb' (i * t.width) t.width).toInt

/-- The length of a string that ends with a zero. -/
def lengthOf (t : ElemType) (x : BitVec 128) : ℕ :=
  (firstBelow t.count fun i ↦ t.element x i = 0).getD t.count

end ElemType

/-- What the lambdas of `pcmpxstrx_impl` capture. -/
structure Comparison where
  elem : ElemType
  mode : Mode
  dst : BitVec 128
  src : BitVec 128
  dstLength : ℕ
  srcLength : ℕ

namespace Comparison

variable (c : Comparison)

abbrev count : ℕ := c.elem.count

/-- Element `j` of the second string with element `i` of the first. -/
def compare (j i : ℕ) : Bool :=
  match c.mode with
  | .ranges =>
    if i % 2 = 0 then decide (c.elem.element c.dst i ≤ c.elem.element c.src j)
    else decide (c.elem.element c.src j ≤ c.elem.element c.dst i)
  | _ => decide (c.elem.element c.dst i = c.elem.element c.src j)

/-! ## The function -/

/-- A read of `BoolRes`. -/
def boolRes (n : ℕ) : Option Bool :=
  if n < c.count * c.count then some (c.compare (n / c.count) (n % c.count)) else none

def overrideIfInvalid (dstIndex srcIndex : ℕ) : Option Bool :=
  let dstinv := decide (c.dstLength ≤ dstIndex)
  let srcinv := decide (c.srcLength ≤ srcIndex)
  match c.mode with
  | .ranges | .equalAny =>
    if !dstinv && !srcinv then c.boolRes (srcIndex * c.count + dstIndex) else some false
  | .equalEach =>
    if !dstinv && !srcinv then c.boolRes (srcIndex * c.count + dstIndex)
    else some (dstinv && srcinv)
  | .equalOrdered =>
    if !dstinv && !srcinv then c.boolRes (srcIndex * c.count + dstIndex)
    else some (dstinv && srcinv || dstinv && !srcinv)

/-- The inner loop of `EqualOrdered`, with `n` more elements to go. -/
def matchOrdered (j : ℕ) : ℕ → ℕ → Option Bool
  | 0, _ => some true
  | n + 1, i => (c.overrideIfInvalid i (j + i)).bind fun same ↦
      if same then matchOrdered j n (i + 1) else some false

/-- Pairs in the order of two nested loops. -/
def nested (outer inner : List ℕ) : List (ℕ × ℕ) :=
  outer.flatMap fun j ↦ inner.map fun i ↦ (j, i)

def aggregate : Option (BitVec 32) :=
  let positions := List.range c.count
  match c.mode with
  | .equalAny =>
    setBits Prod.fst (fun p ↦ c.overrideIfInvalid p.2 p.1) (nested positions positions) 0
  | .ranges =>
    setBits Prod.fst (fun p ↦ (c.overrideIfInvalid p.2 p.1).bind fun bit1 ↦
      (c.overrideIfInvalid (p.2 + 1) p.1).map fun bit2 ↦ bit1 && bit2)
      (nested positions ((List.range (c.count / 2)).map (2 * ·))) 0
  | .equalEach => setBits id (fun i ↦ c.overrideIfInvalid i i) positions 0
  | .equalOrdered =>
    setBits id (fun j ↦ c.matchOrdered j (min c.dstLength (c.srcLength - j)) 0)
      (List.range c.srcLength) 0

/-- The polarity, and the mask of `Count` bits. -/
def polarize (polarity : Polarity) (intres1 : BitVec 32) : Option (BitVec 32) :=
  let intres2 := match polarity with
    | .positive | .maskedPositive => some intres1
    | .negative => some (BitVec.allOnes 32 ^^^ intres1)
    | .maskedNegative =>
      setBits id (fun i ↦
        let oldBit := intres1.getLsbD i
        some (if c.srcLength ≤ i then oldBit else oldBit ^^ true)) (List.range c.count) 0
  intres2.map (· &&& BitVec.ofNat 32 (2 ^ c.count - 1))

/-- `state->gprs[1]` of the forms with an index. -/
def indexOf (last : Bool) (intres2 : BitVec 32) : BitVec 64 :=
  if intres2 = 0 then BitVec.ofNat 64 c.count
  else if last then BitVec.ofNat 64 (c.count - 1 - (intres2 <<< (32 - c.count)).clz.toNat)
  else BitVec.ofNat 64 intres2.ctz.toNat

/-- `state->xmm[0]` of the forms with a mask. -/
def maskOf (elements : Bool) (intres2 : BitVec 32) : BitVec 128 :=
  if elements then BitVec.ofFnLE fun k ↦ intres2.getLsbD (k / c.elem.width)
  else intres2.setWidth 128

end Comparison

/-- The registers that the function writes. -/
def store (ts : ThreadState) (gpr1 : BitVec 64) (xmm0 : BitVec 128) (cf zf sf of : Bool) :
    ThreadState :=
  { ts with
    values := fun
      | .gpr i => if i = 1 then gpr1 else ts.values (.gpr i)
      | .xmm i => if i = 0 then xmm0 else ts.values (.xmm i)
      | .fp i => ts.values (.fp i)
      | .cf => cf
      | .zf => zf
      | .sf => sf
      | .of => of
    inPlace := { ts.inPlace with af := false, pf := false } }

end Pcmpxstrx

namespace Pcmpxstrx

/-- `EAX` or `EDX` as an `int`. -/
def lengthIn (ts : ThreadState) (i : Fin 16) : ℤ := ((ts.values (.gpr i)).setWidth 32).toInt

/-- `dst_length` and `src_length`. A negative one fails its `ASSERT`. -/
def lengths (ts : ThreadState) (type : Pcmpxstrx) (elem : ElemType) (dst src : BitVec 128) :
    Option (ℕ × ℕ) :=
  if type.implicit then some (elem.lengthOf dst, elem.lengthOf src)
  else if 0 ≤ lengthIn ts 0 ∧ 0 ≤ lengthIn ts 2 then
    some ((lengthIn ts 0).toNat, (lengthIn ts 2).toNat)
  else none

end Pcmpxstrx

open Pcmpxstrx in
/-- `felix86_pcmpxstrx` with `pcmpxstrx_impl`. -/
def felix86Pcmpxstrx (ts : ThreadState) (type : Pcmpxstrx) (dst src : BitVec 128)
    (control : BitVec 8) : Option ThreadState :=
  let elem := ElemType.ofControl control
  (lengths ts type elem dst src).bind fun (dstLength, srcLength) ↦
    let c : Comparison := ⟨elem, Mode.ofControl control, dst, src, dstLength, srcLength⟩
    c.aggregate.bind fun intres1 ↦
      (c.polarize (Polarity.ofControl control) intres1).map fun intres2 ↦
        store ts
          (if type.index then c.indexOf (outputSelection control) intres2 else ts.values (.gpr 1))
          (if type.index then ts.values (.xmm 0) else c.maskOf (outputSelection control) intres2)
          (intres2 ≠ 0) (srcLength < c.count) (dstLength < c.count) (intres2.getLsbD 0)

/-! ## The definition of the instructions -/

namespace Pcmpxstrx

namespace Comparison

variable (c : Comparison)

/-- The answer for an element of each string, with the table for those that are not valid. -/
def overridden (j i : ℕ) : Bool :=
  let dstValid := decide (i < c.dstLength)
  let srcValid := decide (j < c.srcLength)
  match c.mode with
  | .equalAny | .ranges => dstValid && srcValid && c.compare j i
  | .equalEach => if dstValid && srcValid then c.compare j i else !dstValid && !srcValid
  | .equalOrdered => !dstValid || srcValid && c.compare j i

/-- One bit for every position of the second string. -/
def intRes1 (j : ℕ) : Bool :=
  match c.mode with
  | .equalAny => (List.range c.count).any fun i ↦ c.overridden j i
  | .ranges =>
    (List.range (c.count / 2)).any fun h ↦ c.overridden j (2 * h) && c.overridden j (2 * h + 1)
  | .equalEach => c.overridden j j
  | .equalOrdered => (List.range (c.count - j)).all fun i ↦ c.overridden (j + i) i

/-- What the polarity makes of a row of bits. -/
def polarized (polarity : Polarity) (bits : ℕ → Bool) (j : ℕ) : Bool :=
  match polarity with
  | .positive | .maskedPositive => bits j
  | .negative => !bits j
  | .maskedNegative => if j < c.srcLength then !bits j else bits j

def intRes2 (polarity : Polarity) : ℕ → Bool := c.polarized polarity c.intRes1

/-- The registers after an instruction whose last row of bits is `bits`. -/
def outcome (ts : ThreadState) (type : Pcmpxstrx) (selection : Bool) (bits : ℕ → Bool) :
    ThreadState :=
  store ts
    (if type.index then
      BitVec.ofNat 64 ((if selection then lastBelow c.count bits
        else firstBelow c.count bits).getD c.count)
      else ts.values (.gpr 1))
    (if type.index then ts.values (.xmm 0)
      else if selection then BitVec.ofFnLE fun k ↦ bits (k / c.elem.width)
      else BitVec.ofFnLE fun k ↦ decide (k < c.count) && bits k)
    ((List.range c.count).any bits) (c.srcLength < c.count) (c.dstLength < c.count) (bits 0)

end Comparison

/-- The lengths of the explicit forms are those of the numbers without their sign, and at most that
of a vector. -/
def comparison (ts : ThreadState) (type : Pcmpxstrx) (dst src : BitVec 128) (control : BitVec 8) :
    Comparison :=
  let elem := ElemType.ofControl control
  { elem, mode := Mode.ofControl control, dst, src,
    dstLength := if type.implicit then elem.lengthOf dst
      else min (lengthIn ts 0).natAbs elem.count
    srcLength := if type.implicit then elem.lengthOf src
      else min (lengthIn ts 2).natAbs elem.count }

/-- What the instruction leaves. -/
def expected (ts : ThreadState) (type : Pcmpxstrx) (dst src : BitVec 128) (control : BitVec 8) :
    ThreadState :=
  let c := comparison ts type dst src control
  c.outcome ts type (outputSelection control) (c.intRes2 (Polarity.ofControl control))

/-! ## Bits of the function's loops -/

namespace Comparison

variable {c : Comparison}

/-- The lengths cut to that of a vector. -/
def saturated (c : Comparison) : Comparison :=
  { c with dstLength := min c.dstLength c.count, srcLength := min c.srcLength c.count }

theorem count_eq (t : ElemType) : t.count = 8 ∨ t.count = 16 := by
  cases t <;> decide

theorem boolRes_eq {i j : ℕ} (hi : i < c.count) (hj : j < c.count) :
    c.boolRes (j * c.count + i) = some (c.compare j i) := by
  have hpos : 0 < c.count := by omega
  have hlt : j * c.count + i < c.count * c.count := by
    calc j * c.count + i < j * c.count + c.count := by omega
      _ = (j + 1) * c.count := by ring
      _ ≤ c.count * c.count := Nat.mul_le_mul_right _ hj
  have hdiv : (j * c.count + i) / c.count = j := by
    rw [mul_comm, Nat.mul_add_div hpos, Nat.div_eq_of_lt hi, add_zero]
  have hmod : (j * c.count + i) % c.count = i := by
    rw [mul_comm, Nat.mul_add_mod, Nat.mod_eq_of_lt hi]
  rw [boolRes, if_pos hlt, hdiv, hmod]

theorem overrideIfInvalid_eq {i j : ℕ} (hi : i < c.count) (hj : j < c.count) :
    c.overrideIfInvalid i j = some (c.saturated.overridden j i) := by
  have hdst : i < min c.dstLength c.count ↔ ¬ c.dstLength ≤ i := by omega
  have hsrc : j < min c.srcLength c.count ↔ ¬ c.srcLength ≤ j := by omega
  have hcmp : c.saturated.compare j i = c.compare j i := rfl
  rw [overrideIfInvalid, overridden]
  simp only [saturated] at hcmp ⊢
  rw [hcmp, boolRes_eq hi hj]
  simp only [hdst, hsrc]
  cases c.mode <;> by_cases hd : c.dstLength ≤ i <;> by_cases hs : c.srcLength ≤ j <;>
    simp [hd, hs]

end Comparison

end Pcmpxstrx

namespace Pcmpxstrx

namespace Comparison

section Aggregate

variable {c : Comparison}

theorem mem_nested {outer inner : List ℕ} {p : ℕ × ℕ} :
    p ∈ nested outer inner ↔ p.1 ∈ outer ∧ p.2 ∈ inner := by
  rw [nested, List.mem_flatMap]
  constructor
  · rintro ⟨j, hj, hp⟩
    obtain ⟨i, hi, rfl⟩ := List.mem_map.mp hp
    exact ⟨hj, hi⟩
  · rintro ⟨hj, hi⟩
    exact ⟨p.1, hj, List.mem_map.mpr ⟨p.2, hi, rfl⟩⟩

/-- A row of nested loops: a position is set if one of the inner steps sets it. -/
theorem any_nested {n k : ℕ} (hk : k < n) (inner : List ℕ) (b : ℕ → ℕ → Bool) :
    ((nested (List.range n) inner).any fun p ↦ b p.1 p.2 && p.1 == k) = inner.any (b k) := by
  rw [Bool.eq_iff_iff, List.any_eq_true, List.any_eq_true]
  constructor
  · rintro ⟨p, hp, hset⟩
    rw [Bool.and_eq_true, beq_iff_eq] at hset
    exact ⟨p.2, (mem_nested.mp hp).2, by rw [← hset.2]; exact hset.1⟩
  · rintro ⟨i, hi, hset⟩
    refine ⟨(k, i), mem_nested.mpr ⟨List.mem_range.mpr hk, hi⟩, ?_⟩
    rw [Bool.and_eq_true, beq_iff_eq]
    exact ⟨hset, rfl⟩

theorem any_range_eq {n k : ℕ} (hk : k < n) (b : ℕ → Bool) :
    ((List.range n).any fun j ↦ b j && id j == k) = b k := by
  rw [Bool.eq_iff_iff, List.any_eq_true]
  constructor
  · rintro ⟨j, -, hset⟩
    rw [Bool.and_eq_true, beq_iff_eq] at hset
    rw [← hset.2]
    exact hset.1
  · intro hset
    refine ⟨k, List.mem_range.mpr hk, ?_⟩
    rw [Bool.and_eq_true, beq_iff_eq]
    exact ⟨hset, rfl⟩

theorem count_le (t : ElemType) : t.count ≤ 16 := by
  rcases count_eq t with h | h <;> omega

theorem aggregate_equalAny (h : c.mode = .equalAny) :
    ∃ r, c.aggregate = some r ∧ ∀ k < c.count, r.getLsbD k = c.saturated.intRes1 k := by
  have hcount : c.count ≤ 16 := count_le c.elem
  have hbit : ∀ p ∈ nested (List.range c.count) (List.range c.count),
      c.overrideIfInvalid p.2 p.1 = some (c.saturated.overridden p.1 p.2) := fun p hp ↦ by
    obtain ⟨hj, hi⟩ := mem_nested.mp hp
    exact overrideIfInvalid_eq (List.mem_range.mp hi) (List.mem_range.mp hj)
  obtain ⟨r, hr, hbits⟩ := setBits_eq_some (w := 32) (f := Prod.fst) hbit
    (fun p hp _ ↦ by
      have hj := List.mem_range.mp (mem_nested.mp hp).1
      omega) 0
  have hmode : c.saturated.mode = .equalAny := h
  refine ⟨r, ?_, fun k hk ↦ ?_⟩
  · rw [aggregate, h]
    exact hr
  · rw [hbits k, any_nested hk _ c.saturated.overridden, intRes1, hmode]
    simp [saturated]

theorem aggregate_ranges (h : c.mode = .ranges) :
    ∃ r, c.aggregate = some r ∧ ∀ k < c.count, r.getLsbD k = c.saturated.intRes1 k := by
  have hcount : c.count ≤ 16 := count_le c.elem
  have hbit : ∀ p ∈ nested (List.range c.count) ((List.range (c.count / 2)).map (2 * ·)),
      ((c.overrideIfInvalid p.2 p.1).bind fun bit1 ↦
        (c.overrideIfInvalid (p.2 + 1) p.1).map fun bit2 ↦ bit1 && bit2) =
        some (c.saturated.overridden p.1 p.2 && c.saturated.overridden p.1 (p.2 + 1)) :=
    fun p hp ↦ by
      obtain ⟨hj, hi⟩ := mem_nested.mp hp
      obtain ⟨i, hi, heq⟩ := List.mem_map.mp hi
      rw [List.mem_range] at hi hj
      rw [overrideIfInvalid_eq (by omega) hj, overrideIfInvalid_eq (by omega) hj]
      rfl
  obtain ⟨r, hr, hbits⟩ := setBits_eq_some (w := 32) (f := Prod.fst) hbit
    (fun p hp _ ↦ by
      have hj := List.mem_range.mp (mem_nested.mp hp).1
      omega) 0
  have hmode : c.saturated.mode = .ranges := h
  refine ⟨r, ?_, fun k hk ↦ ?_⟩
  · rw [aggregate, h]
    exact hr
  · rw [hbits k, any_nested hk _ fun j i ↦
      c.saturated.overridden j i && c.saturated.overridden j (i + 1), intRes1, hmode]
    simp [saturated, List.any_map, Function.comp_def]

theorem aggregate_equalEach (h : c.mode = .equalEach) :
    ∃ r, c.aggregate = some r ∧ ∀ k < c.count, r.getLsbD k = c.saturated.intRes1 k := by
  have hcount : c.count ≤ 16 := count_le c.elem
  have hbit : ∀ i ∈ List.range c.count,
      c.overrideIfInvalid i i = some (c.saturated.overridden i i) := fun i hi ↦
    overrideIfInvalid_eq (List.mem_range.mp hi) (List.mem_range.mp hi)
  obtain ⟨r, hr, hbits⟩ := setBits_eq_some (w := 32) (f := id) hbit
    (fun i hi _ ↦ by
      have hi := List.mem_range.mp hi
      simp only [id]
      omega) 0
  have hmode : c.saturated.mode = .equalEach := h
  refine ⟨r, ?_, fun k hk ↦ ?_⟩
  · rw [aggregate, h]
    exact hr
  · rw [hbits k, any_range_eq hk fun i ↦ c.saturated.overridden i i, intRes1, hmode]
    simp

/-! ### Equal ordered -/

/-- Positions before the end of the second string, where the first one fits as far as the second
goes. -/
def orderedBit (c : Comparison) (j : ℕ) : Bool :=
  decide (j < c.srcLength) &&
    (List.range (min c.dstLength (c.srcLength - j))).all fun i ↦ c.compare (j + i) i

theorem matchOrdered_eq (h : c.mode = .equalOrdered) {j : ℕ} (n i : ℕ)
    (hdst : i + n ≤ c.dstLength) (hsrc : j + i + n ≤ c.srcLength) (hcount : j + i + n ≤ c.count) :
    c.matchOrdered j n i =
      some ((List.range n).all fun m ↦ c.compare (j + (i + m)) (i + m)) := by
  induction n generalizing i with
  | zero => simp [matchOrdered]
  | succ n ih =>
    have hcmp : c.overrideIfInvalid i (j + i) = some (c.compare (j + i) i) := by
      rw [overrideIfInvalid_eq (by omega) (by omega), overridden]
      have hmode : c.saturated.mode = .equalOrdered := h
      have hi : i < c.saturated.dstLength := lt_min (by omega) (by omega)
      have hj : j + i < c.saturated.srcLength := lt_min (by omega) (by omega)
      rw [hmode]
      simp only [hi, hj, decide_true, Bool.not_true, Bool.false_or, Bool.true_and]
      rfl
    rw [matchOrdered, hcmp, Option.bind_some, ih (i + 1) (by omega) (by omega) (by omega),
      List.range_succ_eq_map, List.all_cons, List.all_map]
    have hshift : (fun m ↦ c.compare (j + (i + 1 + m)) (i + 1 + m)) =
        (fun m ↦ c.compare (j + (i + m)) (i + m)) ∘ Nat.succ := by
      funext m
      have hm : i + 1 + m = i + m.succ := by omega
      rw [Function.comp_apply, hm]
    rw [hshift, add_zero]
    cases c.compare (j + i) i <;> rfl

/-- Lengths with which the loop stays in `BoolRes` and in the width of a shift. -/
def InBounds (c : Comparison) : Prop :=
  c.srcLength ≤ c.count ∨ c.dstLength = 0 ∧ c.srcLength ≤ 32

theorem aggregate_equalOrdered (h : c.mode = .equalOrdered) (hb : c.InBounds) :
    ∃ r, c.aggregate = some r ∧ ∀ k < c.count, r.getLsbD k = c.orderedBit k := by
  have hcount : c.count ≤ 16 := count_le c.elem
  have hbit : ∀ j ∈ List.range c.srcLength,
      c.matchOrdered j (min c.dstLength (c.srcLength - j)) 0 =
        some ((List.range (min c.dstLength (c.srcLength - j))).all fun i ↦
          c.compare (j + i) i) := fun j hj ↦ by
    have hj := List.mem_range.mp hj
    rcases hb with hsrc | ⟨hdst, -⟩
    · rw [matchOrdered_eq h _ 0 (by omega) (by omega) (by omega)]
      simp only [zero_add]
    · rw [hdst, Nat.zero_min]
      rfl
  obtain ⟨r, hr, hbits⟩ := setBits_eq_some (w := 32) (f := id) hbit
    (fun j hj _ ↦ by
      have hj := List.mem_range.mp hj
      simp only [id]
      rcases hb with hsrc | ⟨-, hsrc⟩ <;> omega) 0
  refine ⟨r, ?_, fun k hk ↦ ?_⟩
  · rw [aggregate, h]
    exact hr
  · rw [hbits k, orderedBit]
    by_cases hlt : k < c.srcLength
    · rw [any_range_eq hlt fun j ↦
        (List.range (min c.dstLength (c.srcLength - j))).all fun i ↦ c.compare (j + i) i]
      simp [hlt]
    · have hnone : ((List.range c.srcLength).any fun j ↦
          ((List.range (min c.dstLength (c.srcLength - j))).all fun i ↦ c.compare (j + i) i) &&
            id j == k) = false := by
        rw [List.any_eq_false]
        intro j hj hset
        rw [Bool.and_eq_true, beq_iff_eq] at hset
        exact hlt (hset.2 ▸ List.mem_range.mp hj)
      rw [hnone]
      simp [hlt]

/-- Past them a read or a shift is not defined. -/
theorem aggregate_eq_none (h : c.mode = .equalOrdered) (hb : ¬ c.InBounds) :
    c.aggregate = none := by
  rw [InBounds, not_or, not_le, not_and, not_le] at hb
  obtain ⟨hsrc, hshift⟩ := hb
  have hcount : c.count ≤ 16 := count_le c.elem
  rw [aggregate, h]
  rcases Nat.eq_zero_or_pos c.dstLength with hzero | hpos
  · -- the bit at 32 is set
    apply setBits_eq_none (List.mem_range.mpr (hshift hzero))
    intro r
    rw [hzero, Nat.zero_min]
    rfl
  · -- the row at `Count` is read
    apply setBits_eq_none (List.mem_range.mpr hsrc)
    intro r
    obtain ⟨n, hn⟩ : ∃ n, min c.dstLength (c.srcLength - c.count) = n + 1 :=
      Nat.exists_eq_add_one_of_ne_zero (by omega)
    have hread : c.overrideIfInvalid 0 c.count = none := by
      have hdst : ¬ c.dstLength ≤ 0 := by omega
      have hsrc : ¬ c.srcLength ≤ c.count := by omega
      rw [overrideIfInvalid, h, boolRes, if_neg (by omega : ¬ c.count * c.count + 0 < _)]
      simp [hdst, hsrc]
    rw [hn, matchOrdered, add_zero, hread]
    rfl

end Aggregate

end Comparison

end Pcmpxstrx

namespace Pcmpxstrx

namespace Comparison

section Astray

variable {c : Comparison}

/-- Where the loop of `EqualOrdered` gives another bit: past the end of the second string when the
first is empty, and where the second ends in the middle of what would fit. -/
def Astray (c : Comparison) (j : ℕ) : Prop :=
  c.dstLength = 0 ∧ c.srcLength ≤ j ∨
    j < c.srcLength ∧ c.srcLength < c.count ∧ c.srcLength < j + c.dstLength ∧
      ∀ i < c.srcLength - j, c.elem.element c.dst i = c.elem.element c.src (j + i)

theorem compare_eq (h : c.mode = .equalOrdered) (j i : ℕ) :
    c.compare j i = true ↔ c.elem.element c.dst i = c.elem.element c.src j := by
  rw [compare, h, decide_eq_true_iff]

theorem orderedBit_iff (h : c.mode = .equalOrdered) (j : ℕ) :
    c.orderedBit j = true ↔ j < c.srcLength ∧ ∀ i < c.dstLength, j + i < c.srcLength →
      c.elem.element c.dst i = c.elem.element c.src (j + i) := by
  rw [orderedBit, Bool.and_eq_true, decide_eq_true_iff, List.all_eq_true]
  constructor
  · rintro ⟨hj, hall⟩
    exact ⟨hj, fun i hi hji ↦ (compare_eq h _ _).mp (hall i (List.mem_range.mpr (by omega)))⟩
  · rintro ⟨hj, hall⟩
    refine ⟨hj, fun i hi ↦ (compare_eq h _ _).mpr ?_⟩
    have hi := List.mem_range.mp hi
    exact hall i (by omega) (by omega)

theorem intRes1_iff (h : c.mode = .equalOrdered) (j : ℕ) :
    c.intRes1 j = true ↔ ∀ i < c.count - j, i < c.dstLength →
      j + i < c.srcLength ∧ c.elem.element c.dst i = c.elem.element c.src (j + i) := by
  rw [intRes1, h, List.all_eq_true]
  have hone : ∀ i, c.overridden (j + i) i = true ↔ (i < c.dstLength →
      j + i < c.srcLength ∧ c.elem.element c.dst i = c.elem.element c.src (j + i)) := fun i ↦ by
    rw [← compare_eq h, overridden, h]
    by_cases hi : i < c.dstLength
    · simp [hi]
    · simp [hi]
  constructor
  · intro hall i hi
    exact (hone i).mp (hall i (List.mem_range.mpr hi))
  · intro hall i hi
    exact (hone i).mpr (hall i (List.mem_range.mp hi))

theorem saturated_count (c : Comparison) : c.saturated.count = c.count := rfl

theorem saturated_elem (c : Comparison) : c.saturated.elem = c.elem := rfl

theorem saturated_dst (c : Comparison) : c.saturated.dst = c.dst := rfl

theorem saturated_src (c : Comparison) : c.saturated.src = c.src := rfl

theorem saturated_dstLength (c : Comparison) :
    c.saturated.dstLength = min c.dstLength c.count := rfl

theorem saturated_srcLength (c : Comparison) :
    c.saturated.srcLength = min c.srcLength c.count := rfl

theorem orderedBit_ne_iff (h : c.mode = .equalOrdered) (hb : c.InBounds) {j : ℕ}
    (hj : j < c.count) : c.orderedBit j ≠ c.saturated.intRes1 j ↔ c.saturated.Astray j := by
  have hcode := orderedBit_iff h j
  have hspec := intRes1_iff (c := c.saturated) h j
  rw [Astray]
  simp only [saturated_count, saturated_elem, saturated_dst, saturated_src, saturated_dstLength,
    saturated_srcLength] at hspec ⊢
  rw [Ne, Bool.eq_iff_iff, hcode, hspec]
  rcases hb with hsrc | ⟨hdst, -⟩
  · rw [Nat.min_eq_left hsrc]
    by_cases hlt : j < c.srcLength
    · constructor
      · intro hne
        have hall : ∀ i < c.dstLength, j + i < c.srcLength →
            c.elem.element c.dst i = c.elem.element c.src (j + i) := by
          by_contra hnot
          refine hne ⟨fun hyp ↦ absurd hyp.2 hnot, fun hyp ↦ ?_⟩
          exact absurd (fun i hi hji ↦ (hyp i (by omega) (by omega)).2) hnot
        -- some element of the first string falls past the end of the second
        have hpast : ∃ i, i < c.count - j ∧ i < min c.dstLength c.count ∧ c.srcLength ≤ j + i := by
          by_contra hnone
          refine hne ⟨fun _ i hi hid ↦ ?_, fun _ ↦ ⟨hlt, hall⟩⟩
          have hji : j + i < c.srcLength := by
            by_contra hge
            exact hnone ⟨i, hi, hid, by omega⟩
          exact ⟨hji, hall i (by omega) hji⟩
        obtain ⟨i, hi, hid, hpast⟩ := hpast
        exact Or.inr ⟨hlt, by omega, by omega, fun i hi ↦ hall i (by omega) (by omega)⟩
      · rintro (⟨-, hle⟩ | ⟨-, hshort, hpast, hall⟩) hiff
        · omega
        · have hcodes := hiff.mp ⟨hlt, fun i _ hji ↦ hall i (by omega)⟩
          have := (hcodes (c.srcLength - j) (by omega) (by omega)).1
          omega
    · constructor
      · intro hne
        refine Or.inl ⟨?_, by omega⟩
        by_contra hzero
        refine hne ⟨fun hyp ↦ absurd hyp.1 hlt, fun hyp ↦ ?_⟩
        have := (hyp 0 (by omega) (by omega)).1
        omega
      · rintro (⟨hzero, -⟩ | ⟨hj', -⟩) hiff
        · exact hlt (hiff.mpr fun i _ hid ↦ by omega).1
        · exact hlt hj'
  · constructor
    · intro hne
      by_cases hlt : j < c.srcLength
      · exact absurd ⟨fun _ i _ hid ↦ by omega, fun _ ↦ ⟨hlt, fun i hi ↦ by omega⟩⟩ hne
      · exact Or.inl ⟨by omega, by omega⟩
    · rintro (⟨-, hle⟩ | ⟨hlt, -, hpast, -⟩) hiff
      · have := (hiff.mpr fun i _ hid ↦ by omega).1
        omega
      · omega

/-- A polarity keeps apart what is apart. -/
theorem polarized_ne_iff (polarity : Polarity) (f g : ℕ → Bool) (j : ℕ) :
    c.polarized polarity f j ≠ c.polarized polarity g j ↔ f j ≠ g j := by
  cases polarity <;> simp only [polarized]
  · simp
  · split_ifs <;> simp

theorem polarize_eq (polarity : Polarity) {r : BitVec 32} {f : ℕ → Bool}
    (hf : ∀ k < c.count, r.getLsbD k = f k) :
    ∃ r', c.polarize polarity r = some r' ∧
      ∀ k, r'.getLsbD k = (decide (k < c.count) && c.saturated.polarized polarity f k) := by
  have hcount : c.count ≤ 16 := count_le c.elem
  have hmask : ∀ (s : BitVec 32) (k : ℕ), (s &&& BitVec.ofNat 32 (2 ^ c.count - 1)).getLsbD k =
      (decide (k < c.count) && s.getLsbD k) := fun s k ↦ by
    rw [BitVec.getLsbD_and, BitVec.getLsbD_ofNat, Nat.testBit_two_pow_sub_one, Bool.and_comm]
    by_cases hk : k < c.count
    · have h32 : k < 32 := by omega
      simp [hk, h32]
    · simp [hk]
  have hrow : ∃ s : BitVec 32, c.polarize polarity r =
    some (s &&& BitVec.ofNat 32 (2 ^ c.count - 1)) ∧
      ∀ k < c.count, s.getLsbD k = c.saturated.polarized polarity f k := by
    cases polarity with
    | positive => exact ⟨r, rfl, hf⟩
    | maskedPositive => exact ⟨r, rfl, hf⟩
    | negative =>
      refine ⟨BitVec.allOnes 32 ^^^ r, rfl, fun k hk ↦ ?_⟩
      have h32 : k < 32 := by omega
      rw [BitVec.getLsbD_xor, hf k hk, polarized, BitVec.getLsbD_allOnes, decide_eq_true h32,
        Bool.true_xor]
    | maskedNegative =>
      obtain ⟨s, hs, hbits⟩ := setBits_eq_some (w := 32) (f := id) (l := List.range c.count)
        (fun i _ ↦ rfl : ∀ i ∈ List.range c.count,
          some (if c.srcLength ≤ i then r.getLsbD i else r.getLsbD i ^^ true) = some _)
        (fun i hi _ ↦ by
          have hi := List.mem_range.mp hi
          simp only [id]
          omega) 0
      refine ⟨s, by rw [polarize, hs]; rfl, fun k hk ↦ ?_⟩
      rw [hbits k, any_range_eq hk, hf k hk, polarized]
      have hvalid : k < c.saturated.srcLength ↔ ¬ c.srcLength ≤ k := by
        simp only [saturated]
        omega
      by_cases hle : c.srcLength ≤ k
      · simp [hvalid, hle]
      · simp [hvalid, hle]
  obtain ⟨s, hs, hbits⟩ := hrow
  refine ⟨_, hs, fun k ↦ ?_⟩
  rw [hmask]
  by_cases hk : k < c.count
  · rw [hbits k hk]
  · simp [hk]

end Astray

end Comparison

end Pcmpxstrx

/-! ## What is made of the bits -/

namespace Pcmpxstrx

namespace Comparison

section Outcome

variable {c : Comparison} {r : BitVec 32} {g h : ℕ → Bool}

theorem any_range_iff {n : ℕ} : (List.range n).any g = true ↔ ∃ k < n, g k = true := by
  rw [List.any_eq_true]
  simp only [List.mem_range]

theorem eq_zero_iff (hr : ∀ k, r.getLsbD k = (decide (k < c.count) && g k)) :
    r = 0 ↔ ∀ k < c.count, g k = false := by
  constructor
  · rintro rfl k hk
    have := hr k
    simpa [hk] using this.symm
  · intro hzero
    apply BitVec.eq_of_getLsbD_eq
    intro k _
    rw [hr k]
    by_cases hk : k < c.count
    · simp [hk, hzero k hk]
    · simp [hk]

theorem ctz_eq (hr : ∀ k, r.getLsbD k = (decide (k < c.count) && g k)) (hne : r ≠ 0) :
    firstBelow c.count g = some r.ctz.toNat := by
  have hset := BitVec.getLsbD_true_ctz_of_ne_zero hne
  rw [hr, Bool.and_eq_true, decide_eq_true_iff] at hset
  refine firstBelow_eq_some.mpr ⟨hset.1, hset.2, fun j hj ↦ ?_⟩
  have hbelow := BitVec.getLsbD_false_of_lt_ctz hj
  have hlt : j < c.count := hj.trans hset.1
  rw [hr] at hbelow
  simpa [hlt] using hbelow

theorem clz_eq (hr : ∀ k, r.getLsbD k = (decide (k < c.count) && g k)) (hne : r ≠ 0) :
    lastBelow c.count g = some (c.count - 1 - (r <<< (32 - c.count)).clz.toNat) := by
  have hcount : c.count ≤ 16 := count_le c.elem
  have hshift : ∀ k < c.count, (r <<< (32 - c.count)).getLsbD (k + (32 - c.count)) = g k :=
    fun k hk ↦ by
      have h32 : k + (32 - c.count) < 32 := by omega
      rw [BitVec.getLsbD_shiftLeft, Nat.add_sub_cancel, hr k]
      simp [h32, hk]
  have hnez : r <<< (32 - c.count) ≠ 0 := fun hz ↦ hne <| (eq_zero_iff hr).mpr fun k hk ↦ by
    rw [← hshift k hk, hz]
    exact BitVec.getLsbD_zero
  have hset := BitVec.getLsbD_true_clz_of_ne_zero (by norm_num) hnez
  have hclear := BitVec.getLsbD_false_of_clzAuxRec (x := r <<< (32 - c.count)) (n := 31)
    fun i hi ↦ BitVec.getLsbD_of_ge _ _ (by omega)
  change ∀ j, (r <<< (32 - c.count)).getLsbD (32 - (r <<< (32 - c.count)).clz.toNat + j) = false
    at hclear
  obtain ⟨n, hn⟩ : ∃ n, n = (r <<< (32 - c.count)).clz.toNat := ⟨_, rfl⟩
  rw [← hn] at hset hclear ⊢
  -- the last set bit of the shifted row is one of the shifted bits
  have hlt : n < c.count := by
    by_contra hge
    rw [BitVec.getLsbD_shiftLeft] at hset
    have hlow : 32 - 1 - n < 32 - c.count := by omega
    simp [hlow] at hset
  have hidx : 32 - 1 - n = c.count - 1 - n + (32 - c.count) := by omega
  rw [hidx, hshift _ (by omega)] at hset
  refine lastBelow_eq_some.mpr ⟨by omega, hset, fun j hj hjc ↦ ?_⟩
  obtain ⟨m, hm⟩ : ∃ m, j + (32 - c.count) = 32 - n + m := ⟨j + n - c.count, by omega⟩
  rw [← hshift j hjc, hm]
  exact hclear m

theorem indexOf_eq (hr : ∀ k, r.getLsbD k = (decide (k < c.count) && g k)) (last : Bool) :
    c.indexOf last r = BitVec.ofNat 64
      ((if last then lastBelow c.count g else firstBelow c.count g).getD c.count) := by
  rw [indexOf]
  by_cases hzero : r = 0
  · have hg := (eq_zero_iff hr).mp hzero
    rw [if_pos hzero, firstBelow_eq_none.mpr hg, lastBelow_eq_none.mpr hg, ite_self]
    rfl
  · rw [if_neg hzero, ctz_eq hr hzero, clz_eq hr hzero]
    cases last <;> rfl

theorem width_mul_count (t : ElemType) : t.count * t.width = 128 := by
  cases t <;> rfl

theorem maskOf_eq (hr : ∀ k, r.getLsbD k = (decide (k < c.count) && g k)) (elements : Bool) :
    c.maskOf elements r =
      if elements then BitVec.ofFnLE fun k ↦ g (k / c.elem.width)
      else BitVec.ofFnLE fun k ↦ decide (k < c.count) && g k := by
  rw [maskOf]
  split_ifs
  · congr 1
    funext k
    have hlt : (k : ℕ) / c.elem.width < c.count :=
      Nat.div_lt_of_lt_mul (by rw [mul_comm, width_mul_count]; exact k.isLt)
    rw [hr, decide_eq_true hlt, Bool.true_and]
  · apply BitVec.eq_of_getLsbD_eq
    intro k hk
    rw [BitVec.getLsbD_setWidth, hr, BitVec.getLsbD_ofFnLE]
    simp [hk]

end Outcome

end Comparison

end Pcmpxstrx

namespace Pcmpxstrx

namespace Comparison

section Equality

variable {c : Comparison} {g h : ℕ → Bool} (ts : ThreadState)

theorem getD_ofNat_inj {n : ℕ} {a b : Option ℕ} (hn : n ≤ 16) (ha : ∀ m, a = some m → m < n)
    (hb : ∀ m, b = some m → m < n)
    (heq : BitVec.ofNat 64 (a.getD n) = BitVec.ofNat 64 (b.getD n)) : a = b := by
  have ha' : a.getD n ≤ n := by
    rcases a with _ | m
    · exact le_rfl
    · exact (ha m rfl).le
  have hb' : b.getD n ≤ n := by
    rcases b with _ | m
    · exact le_rfl
    · exact (hb m rfl).le
  have hnat := congrArg BitVec.toNat heq
  rw [BitVec.toNat_ofNat, BitVec.toNat_ofNat, Nat.mod_eq_of_lt (by omega),
    Nat.mod_eq_of_lt (by omega)] at hnat
  rcases a with _ | m <;> rcases b with _ | m'
  · rfl
  · exact absurd (hb m' rfl) (by simp only [Option.getD_none, Option.getD_some] at hnat; omega)
  · exact absurd (ha m rfl) (by simp only [Option.getD_none, Option.getD_some] at hnat; omega)
  · simp only [Option.getD_some] at hnat
    rw [hnat]

theorem any_eq_isSome_firstBelow {n : ℕ} :
    (List.range n).any g = (firstBelow n g).isSome := by
  rw [Bool.eq_iff_iff, any_range_iff, Option.isSome_iff_ne_none, Ne, firstBelow_eq_none]
  push Not
  simp

theorem any_eq_isSome_lastBelow {n : ℕ} : (List.range n).any g = (lastBelow n g).isSome := by
  rw [Bool.eq_iff_iff, any_range_iff, Option.isSome_iff_ne_none, Ne, lastBelow_eq_none]
  push Not
  simp

theorem count_pos (t : ElemType) : 0 < t.count := by
  rcases count_eq t with h | h <;> omega

theorem width_pos (t : ElemType) : 0 < t.width := by
  cases t <;> decide

/-- The forms with the first index. -/
theorem outcome_eq_iff_first {type : Pcmpxstrx} (hindex : type.index = true) :
    c.outcome ts type false g = c.outcome ts type false h ↔
      firstBelow c.count g = firstBelow c.count h := by
  have hcount : c.count ≤ 16 := count_le c.elem
  have hpos : 0 < c.count := count_pos c.elem
  rw [outcome, outcome, hindex]
  constructor
  · intro heq
    have hgpr : BitVec.ofNat 64 ((firstBelow c.count g).getD c.count) =
        BitVec.ofNat 64 ((firstBelow c.count h).getD c.count) :=
      congrArg (fun t : ThreadState ↦ t.values (.gpr 1)) heq
    exact getD_ofNat_inj hcount (fun m hm ↦ (firstBelow_eq_some.mp hm).1)
      (fun m hm ↦ (firstBelow_eq_some.mp hm).1) hgpr
  · intro heq
    -- the bit at 0 is the first or is not set
    have hzero : g 0 = h 0 := by
      by_contra hne
      obtain ⟨k, hk, -⟩ := firstBelow_eq_iff.mp heq 0 hpos hne
      omega
    simp only [any_eq_isSome_firstBelow, heq, hzero, Bool.false_eq_true, if_true, if_false]

theorem outcome_eq_iff_last {type : Pcmpxstrx} (hindex : type.index = true) :
    c.outcome ts type true g = c.outcome ts type true h ↔
      lastBelow c.count g = lastBelow c.count h ∧ g 0 = h 0 := by
  have hcount : c.count ≤ 16 := count_le c.elem
  rw [outcome, outcome, hindex]
  constructor
  · intro heq
    have hgpr : BitVec.ofNat 64 ((lastBelow c.count g).getD c.count) =
        BitVec.ofNat 64 ((lastBelow c.count h).getD c.count) :=
      congrArg (fun t : ThreadState ↦ t.values (.gpr 1)) heq
    exact ⟨getD_ofNat_inj hcount (fun m hm ↦ (lastBelow_eq_some.mp hm).1)
      (fun m hm ↦ (lastBelow_eq_some.mp hm).1) hgpr,
      congrArg (fun t : ThreadState ↦ t.values .of) heq⟩
  · rintro ⟨heq, hzero⟩
    simp only [any_eq_isSome_lastBelow, heq, hzero, if_true]

/-- The forms with a mask show every bit. -/
theorem outcome_eq_iff_mask {type : Pcmpxstrx} (hindex : type.index = false) (selection : Bool) :
    c.outcome ts type selection g = c.outcome ts type selection h ↔
      ∀ j < c.count, g j = h j := by
  have hmul := width_mul_count c.elem
  have hcount : c.count ≤ 16 := count_le c.elem
  constructor
  · intro heq j hj
    rw [outcome, outcome, hindex] at heq
    cases selection
    · have hxmm := congrArg (fun t : ThreadState ↦ (t.values (.xmm 0)).getLsbD j) heq
      change (BitVec.ofFnLE fun k : Fin 128 ↦ decide ((k : ℕ) < c.count) && g k).getLsbD j =
        (BitVec.ofFnLE fun k : Fin 128 ↦ decide ((k : ℕ) < c.count) && h k).getLsbD j at hxmm
      have hlt : j < 128 := by omega
      rw [BitVec.getLsbD_ofFnLE, BitVec.getLsbD_ofFnLE, dif_pos hlt, dif_pos hlt] at hxmm
      simpa [hj] using hxmm
    · have hxmm := congrArg (fun t : ThreadState ↦
        (t.values (.xmm 0)).getLsbD (j * c.elem.width)) heq
      change (BitVec.ofFnLE fun k : Fin 128 ↦ g (k / c.elem.width)).getLsbD (j * c.elem.width) =
        (BitVec.ofFnLE fun k : Fin 128 ↦ h (k / c.elem.width)).getLsbD (j * c.elem.width) at hxmm
      have hlt : j * c.elem.width < 128 := by
        rw [← hmul]
        exact Nat.mul_lt_mul_of_pos_right hj (width_pos c.elem)
      rw [BitVec.getLsbD_ofFnLE, BitVec.getLsbD_ofFnLE, dif_pos hlt, dif_pos hlt,
        Nat.mul_div_cancel _ (width_pos c.elem)] at hxmm
      exact hxmm
  · intro heq
    have hany : (List.range c.count).any g = (List.range c.count).any h := by
      rw [Bool.eq_iff_iff, any_range_iff, any_range_iff]
      exact ⟨fun ⟨k, hk, hg⟩ ↦ ⟨k, hk, heq k hk ▸ hg⟩, fun ⟨k, hk, hh⟩ ↦ ⟨k, hk, heq k hk ▸ hh⟩⟩
    have helements : (BitVec.ofFnLE fun k : Fin 128 ↦ g (k / c.elem.width)) =
        BitVec.ofFnLE fun k : Fin 128 ↦ h (k / c.elem.width) := by
      congr 1
      funext k
      exact heq _ (Nat.div_lt_of_lt_mul (by rw [mul_comm, hmul]; exact k.isLt))
    have hbits : (BitVec.ofFnLE fun k : Fin 128 ↦ decide ((k : ℕ) < c.count) && g k) =
        BitVec.ofFnLE fun k : Fin 128 ↦ decide ((k : ℕ) < c.count) && h k := by
      congr 1
      funext k
      by_cases hk : (k : ℕ) < c.count
      · rw [heq k hk]
      · simp [hk]
    rw [outcome, outcome, hindex, hany, heq 0 (count_pos c.elem), helements, hbits]
    rfl

end Equality

end Comparison

end Pcmpxstrx

/-! ## When the function does what the instruction does -/

namespace Pcmpxstrx

/-- The wrong bits do not show: there is none, or the index is that of another bit. The lowest bit
is a flag. -/
def Comparison.Hidden (c : Comparison) (type : Pcmpxstrx) (selection : Bool)
    (polarity : Polarity) : Prop :=
  ∀ j < c.count, c.Astray j → type.index = true ∧
    if selection then 0 < j ∧ ∃ k, j < k ∧ k < c.count ∧ c.intRes2 polarity k = true
    else ∃ k < j, c.intRes2 polarity k = true

section Main

variable {c : Comparison} (ts : ThreadState) (type : Pcmpxstrx)

theorem outcome_eq_iff_of_astray (selection : Bool) (polarity : Polarity) {f : ℕ → Bool}
    (hf : ∀ j < c.count, f j ≠ c.intRes1 j ↔ c.Astray j) :
    c.outcome ts type selection (c.polarized polarity f) =
        c.outcome ts type selection (c.intRes2 polarity) ↔ c.Hidden type selection polarity := by
  have hne : ∀ j < c.count,
      c.polarized polarity f j ≠ c.intRes2 polarity j ↔ c.Astray j := fun j hj ↦ by
    rw [Comparison.intRes2, Comparison.polarized_ne_iff, hf j hj]
  rw [Comparison.Hidden]
  cases hindex : type.index
  · rw [Comparison.outcome_eq_iff_mask ts hindex]
    constructor
    · intro heq j hj hastray
      exact absurd (heq j hj) ((hne j hj).mpr hastray)
    · intro hnone j hj
      by_contra hdiff
      exact Bool.false_ne_true (hnone j hj ((hne j hj).mp hdiff)).1
  · cases selection
    · rw [Comparison.outcome_eq_iff_first ts hindex, firstBelow_eq_iff]
      constructor
      · intro hfirst j hj hastray
        exact ⟨rfl, hfirst j hj ((hne j hj).mpr hastray)⟩
      · intro hhidden j hj hdiff
        exact (hhidden j hj ((hne j hj).mp hdiff)).2
    · rw [Comparison.outcome_eq_iff_last ts hindex, lastBelow_eq_iff]
      constructor
      · rintro ⟨hlast, hzero⟩ j hj hastray
        have hdiff := (hne j hj).mpr hastray
        refine ⟨rfl, Nat.pos_of_ne_zero ?_, hlast j hj hdiff⟩
        rintro rfl
        exact hdiff hzero
      · intro hhidden
        refine ⟨fun j hj hdiff ↦ (hhidden j hj ((hne j hj).mp hdiff)).2.2, ?_⟩
        by_contra hdiff
        have hpos := Comparison.count_pos c.elem
        exact absurd (hhidden 0 hpos ((hne 0 hpos).mp hdiff)).2.1 (lt_irrefl 0)

/-- What follows the aggregation, for any row of bits. -/
theorem finish_eq {dst src : BitVec 128} {control : BitVec 8} {dstLength srcLength : ℕ}
    (hlengths : lengths ts type (ElemType.ofControl control) dst src = some (dstLength, srcLength))
    (hc : c = ⟨ElemType.ofControl control, Mode.ofControl control, dst, src, dstLength, srcLength⟩)
    {r : BitVec 32} (hr : c.aggregate = some r) {f : ℕ → Bool}
    (hf : ∀ k < c.count, r.getLsbD k = f k) :
    felix86Pcmpxstrx ts type dst src control =
      some (c.saturated.outcome ts type (outputSelection control)
        (c.saturated.polarized (Polarity.ofControl control) f)) := by
  obtain ⟨r', hr', hbits⟩ := Comparison.polarize_eq (Polarity.ofControl control) hf
  have hzero : decide (r' ≠ 0) =
      (List.range c.count).any (c.saturated.polarized (Polarity.ofControl control) f) := by
    rw [Bool.eq_iff_iff, decide_eq_true_iff, Comparison.any_range_iff, Ne,
      Comparison.eq_zero_iff hbits]
    push Not
    simp
  have hsrc : decide (srcLength < c.count) = decide (min srcLength c.count < c.count) :=
    decide_eq_decide.mpr (by omega)
  have hdst : decide (dstLength < c.count) = decide (min dstLength c.count < c.count) :=
    decide_eq_decide.mpr (by omega)
  have hpos := Comparison.count_pos c.elem
  have hlow : r'.getLsbD 0 = c.saturated.polarized (Polarity.ofControl control) f 0 := by
    rw [hbits 0, decide_eq_true hpos, Bool.true_and]
  rw [felix86Pcmpxstrx]
  simp only [hlengths, Option.bind_some]
  rw [← hc, hr, Option.bind_some, hr', Option.map_some, Comparison.indexOf_eq hbits,
    Comparison.maskOf_eq hbits, hzero, hlow, hsrc, hdst, Comparison.outcome]
  subst hc
  rfl

theorem natAbs_min {z : ℤ} (h : 0 ≤ z) (n : ℕ) : min z.natAbs n = min z.toNat n := by
  omega

/-- The lengths of the definition are those of the function, cut to the vector. -/
theorem comparison_eq {dst src : BitVec 128} {control : BitVec 8} {dstLength srcLength : ℕ}
    (hlengths : lengths ts type (ElemType.ofControl control) dst src =
      some (dstLength, srcLength)) :
    comparison ts type dst src control = Comparison.saturated
      ⟨ElemType.ofControl control, Mode.ofControl control, dst, src, dstLength, srcLength⟩ := by
  have hle : ∀ (t : ElemType) (x : BitVec 128), t.lengthOf x ≤ t.count := fun t x ↦ by
    rw [ElemType.lengthOf]
    cases hfirst : firstBelow t.count fun i ↦ decide (t.element x i = 0) with
    | none => exact le_rfl
    | some m => exact (firstBelow_eq_some.mp hfirst).1.le
  rw [lengths] at hlengths
  split_ifs at hlengths with himp hsigns
  · obtain ⟨rfl, rfl⟩ := Prod.mk.inj (Option.some.inj hlengths)
    rw [comparison, Comparison.saturated]
    simp only [himp, if_true, Nat.min_eq_left (hle _ _)]
  · obtain ⟨rfl, rfl⟩ := Prod.mk.inj (Option.some.inj hlengths)
    rw [comparison, Comparison.saturated]
    simp only [himp, Bool.false_eq_true, if_false, natAbs_min hsigns.1, natAbs_min hsigns.2]

theorem lengths_eq_none {elem : ElemType} {dst src : BitVec 128}
    (h : lengths ts type elem dst src = none) :
    type.implicit = false ∧ ¬ (0 ≤ lengthIn ts 0 ∧ 0 ≤ lengthIn ts 2) := by
  rw [lengths] at h
  split_ifs at h with himp hsigns
  exact ⟨Bool.eq_false_iff.mpr himp, hsigns⟩

end Main

/-- Lengths that are asserted and, for equal ordered, stay in bounds. -/
def LengthsHold (ts : ThreadState) (control : BitVec 8) : Prop :=
  0 ≤ lengthIn ts 0 ∧ 0 ≤ lengthIn ts 2 ∧
    (Mode.ofControl control = .equalOrdered →
      lengthIn ts 2 ≤ (ElemType.ofControl control).count ∨
        lengthIn ts 0 = 0 ∧ lengthIn ts 2 ≤ 32)

/-- What is asked of the lengths when none of them is negative. -/
theorem lengthsHold_iff {ts : ThreadState} {type : Pcmpxstrx} {dst src : BitVec 128}
    {control : BitVec 8} {dstLength srcLength : ℕ}
    (hlengths : lengths ts type (ElemType.ofControl control) dst src =
      some (dstLength, srcLength)) :
    (type.implicit = false → LengthsHold ts control) ↔
      (Mode.ofControl control = .equalOrdered → Comparison.InBounds
        ⟨ElemType.ofControl control, Mode.ofControl control, dst, src, dstLength, srcLength⟩) := by
  have hsat := comparison_eq ts type hlengths
  rw [lengths] at hlengths
  rw [LengthsHold, Comparison.InBounds]
  split_ifs at hlengths with himp hsigns
  · have hsrc := congrArg Comparison.srcLength hsat
    rw [comparison, Comparison.saturated] at hsrc
    simp only [himp, if_true] at hsrc
    obtain ⟨rfl, rfl⟩ := Prod.mk.inj (Option.some.inj hlengths)
    simp only [himp, Bool.true_eq_false, false_imp_iff, true_iff]
    intro _
    exact Or.inl (hsrc ▸ min_le_right _ _)
  · obtain ⟨rfl, rfl⟩ := Prod.mk.inj (Option.some.inj hlengths)
    have himp : type.implicit = false := Bool.eq_false_iff.mpr himp
    simp only [himp, true_imp_iff, hsigns.1, hsigns.2, true_and]
    refine imp_congr_right fun _ ↦ ?_
    have hcount : Comparison.count ⟨ElemType.ofControl control, Mode.ofControl control, dst, src,
      (lengthIn ts 0).toNat, (lengthIn ts 2).toNat⟩ = (ElemType.ofControl control).count := rfl
    rw [hcount]
    omega

end Pcmpxstrx

open Pcmpxstrx in
/-- The function is right for the three aggregations that look at one pair of positions after the
other, if it gets to them. For equal ordered it is not where the second string is too short. -/
theorem felix86Pcmpxstrx_iff (ts : ThreadState) (type : Pcmpxstrx) (dst src : BitVec 128)
    (control : BitVec 8) :
    felix86Pcmpxstrx ts type dst src control = some (expected ts type dst src control) ↔
      (type.implicit = false → LengthsHold ts control) ∧
        (Mode.ofControl control = .equalOrdered →
          (comparison ts type dst src control).Hidden type (outputSelection control)
            (Polarity.ofControl control)) := by
  rcases hl : lengths ts type (ElemType.ofControl control) dst src with _ | ⟨dstLength, srcLength⟩
  · obtain ⟨himp, hsigns⟩ := lengths_eq_none ts type hl
    rw [felix86Pcmpxstrx]
    simp only [hl, Option.bind_none]
    constructor
    · exact fun h ↦ absurd h (Option.some_ne_none _).symm
    · rintro ⟨hhold, -⟩
      exact absurd ⟨(hhold himp).1, (hhold himp).2.1⟩ hsigns
  · rw [lengthsHold_iff hl]
    have hcmp := comparison_eq ts type hl
    obtain ⟨c, hc⟩ : ∃ c : Comparison, c =
      ⟨ElemType.ofControl control, Mode.ofControl control, dst, src, dstLength, srcLength⟩ :=
      ⟨_, rfl⟩
    have hmode : c.mode = Mode.ofControl control := by rw [hc]
    rw [← hc] at hcmp ⊢
    by_cases hordered : c.mode = .equalOrdered
    · rw [← hmode, hcmp]
      simp only [hordered, true_imp_iff]
      by_cases hbounds : c.InBounds
      · obtain ⟨r, hr, hbits⟩ := Comparison.aggregate_equalOrdered hordered hbounds
        rw [finish_eq ts type hl hc hr hbits, expected, hcmp, Option.some_inj,
          outcome_eq_iff_of_astray ts type _ _
            fun j hj ↦ Comparison.orderedBit_ne_iff hordered hbounds hj]
        exact ⟨fun hhidden ↦ ⟨hbounds, hhidden⟩, fun h ↦ h.2⟩
      · have hnone := Comparison.aggregate_eq_none hordered hbounds
        rw [felix86Pcmpxstrx]
        simp only [hl, Option.bind_some]
        rw [← hc, hnone, Option.bind_none]
        exact ⟨fun h ↦ absurd h (Option.some_ne_none _).symm, fun h ↦ absurd h.1 hbounds⟩
    · have hrow : ∃ r, c.aggregate = some r ∧
          ∀ k < c.count, r.getLsbD k = c.saturated.intRes1 k := by
        rcases hm : c.mode with _ | _ | _ | _
        · exact Comparison.aggregate_equalAny hm
        · exact Comparison.aggregate_ranges hm
        · exact Comparison.aggregate_equalEach hm
        · exact absurd hm hordered
      obtain ⟨r, hr, hbits⟩ := hrow
      rw [finish_eq ts type hl hc hr hbits, expected, hcmp, Option.some_inj, ← hmode]
      exact ⟨fun _ ↦ ⟨fun h ↦ absurd h hordered, fun h ↦ absurd h hordered⟩, fun _ ↦ rfl⟩

/-- A thread whose registers are zero, but for a length. -/
def threadWithLength (eax : BitVec 64) : ThreadState where
  values := fun
    | .gpr i => if i = 0 then eax else 0
    | .xmm _ => 0
    | .fp _ => 0
    | .cf => false
    | .zf => false
    | .sf => false
    | .of => false
  rip := 0
  inPlace := ⟨false, false, false, .x87, 0, .rne, .rne⟩
  signalMask := 0#64
  stateIsCorrect := true

open Pcmpxstrx in
/-- A search for "ab" in "xa" answers with the position of the last letter, and a length of minus
one fails an `ASSERT`. -/
theorem not_felix86Pcmpxstrx_ab :
    (felix86Pcmpxstrx (threadWithLength 0) .implicitIndex 0x6261#128 0x6178#128 0x0C#8).map
        (fun ts ↦ ts.values (.gpr 1)) = some 1#64 ∧
      (expected (threadWithLength 0) .implicitIndex 0x6261#128 0x6178#128 0x0C#8).values (.gpr 1) =
        16#64 ∧
      felix86Pcmpxstrx (threadWithLength 0) .implicitIndex 0x6261#128 0x6178#128 0x0C#8 ≠
        some (expected (threadWithLength 0) .implicitIndex 0x6261#128 0x6178#128 0x0C#8) ∧
      felix86Pcmpxstrx (threadWithLength 0xFFFFFFFF#64) .explicitIndex 0 0 0 = none := by
  have hcode : (felix86Pcmpxstrx (threadWithLength 0) .implicitIndex 0x6261#128 0x6178#128
      0x0C#8).map (fun ts ↦ ts.values (.gpr 1)) = some 1#64 := by decide +kernel
  have hspec : (expected (threadWithLength 0) .implicitIndex 0x6261#128 0x6178#128
      0x0C#8).values (.gpr 1) = 16#64 := by decide +kernel
  refine ⟨hcode, hspec, fun heq ↦ ?_, by decide +kernel⟩
  rw [heq, Option.map_some, hspec] at hcode
  exact absurd hcode (by decide)

end Felix86
