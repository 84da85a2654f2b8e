import Mathlib.Order.Basic
import Mathlib.Data.List.Basic
import Mathlib.Order.Defs.LinearOrder
import Mathlib.Algebra.Order.Group.Nat

/-!
# Positions in a row of bits

A row of bits that a loop sets one after the other, and the first and the last of the positions that
are set.
-/

namespace Felix86

namespace Positions

/-! ## The first and the last -/

section Ends

variable {n m : ℕ} {p q : ℕ → Bool}

/-- The first position below `n` that is set. -/
def firstBelow (n : ℕ) (p : ℕ → Bool) : Option ℕ := (List.range n).find? p

/-- The last one. -/
def lastBelow : ℕ → (ℕ → Bool) → Option ℕ
  | 0, _ => none
  | n + 1, p => if p n then some n else lastBelow n p

theorem firstBelow_eq_some : firstBelow n p = some m ↔ m < n ∧ p m ∧ ∀ j < m, p j = false := by
  rw [firstBelow, List.find?_range_eq_some, List.mem_range]
  constructor
  · rintro ⟨hp, hm, hbefore⟩
    exact ⟨hm, hp, fun j hj ↦ by simpa using hbefore j hj⟩
  · rintro ⟨hm, hp, hbefore⟩
    exact ⟨hp, hm, fun j hj ↦ by simpa using hbefore j hj⟩

theorem firstBelow_eq_none : firstBelow n p = none ↔ ∀ j < n, p j = false := by
  rw [firstBelow, List.find?_range_eq_none]
  simp

theorem lastBelow_eq_some :
    lastBelow n p = some m ↔ m < n ∧ p m ∧ ∀ j, m < j → j < n → p j = false := by
  induction n with
  | zero => simp [lastBelow]
  | succ n ih =>
    rw [lastBelow]
    split_ifs with hn
    · constructor
      · intro h
        obtain rfl : n = m := Option.some.inj h
        exact ⟨Nat.lt_succ_self _, hn, fun j hj hjn ↦ by omega⟩
      · rintro ⟨hm, -, hafter⟩
        rcases Nat.lt_succ_iff_lt_or_eq.mp hm with hlt | rfl
        · exact absurd hn (by simp [hafter n hlt (Nat.lt_succ_self n)])
        · rfl
    · rw [ih]
      constructor
      · rintro ⟨hm, hp, hafter⟩
        refine ⟨by omega, hp, fun j hj hjn ↦ ?_⟩
        rcases Nat.lt_succ_iff_lt_or_eq.mp hjn with hlt | rfl
        · exact hafter j hj hlt
        · simpa using hn
      · rintro ⟨hm, hp, hafter⟩
        rcases Nat.lt_succ_iff_lt_or_eq.mp hm with hlt | rfl
        · exact ⟨hlt, hp, fun j hj hjn ↦ hafter j hj (by omega)⟩
        · exact absurd hp hn

theorem lastBelow_eq_none : lastBelow n p = none ↔ ∀ j < n, p j = false := by
  induction n with
  | zero => simp [lastBelow]
  | succ n ih =>
    rw [lastBelow, Nat.forall_lt_succ_right]
    split_ifs with hn
    · simp [hn]
    · rw [ih]
      simp [hn]

/-- Rows have the same first position if each position where they are not the same comes after one
that is set. -/
theorem firstBelow_eq_iff :
    firstBelow n p = firstBelow n q ↔ ∀ j < n, p j ≠ q j → ∃ k < j, q k = true := by
  constructor
  · intro heq j hj hne
    rcases hq : firstBelow n q with _ | m
    · rw [hq] at heq
      exact absurd ((firstBelow_eq_none.mp heq j hj).trans (firstBelow_eq_none.mp hq j hj).symm) hne
    · rw [hq] at heq
      obtain ⟨-, hqm, hqb⟩ := firstBelow_eq_some.mp hq
      obtain ⟨-, hpm, hpb⟩ := firstBelow_eq_some.mp heq
      refine ⟨m, ?_, hqm⟩
      by_contra hle
      rcases Nat.lt_or_eq_of_le (not_lt.mp hle) with hlt | rfl
      · exact hne ((hpb j hlt).trans (hqb j hlt).symm)
      · exact hne (hpm.trans hqm.symm)
  · intro h
    rcases hq : firstBelow n q with _ | m
    · have hqn := firstBelow_eq_none.mp hq
      rw [firstBelow_eq_none]
      intro j hj
      by_contra hp
      obtain ⟨k, hk, hqk⟩ := h j hj (by rw [hqn j hj]; exact hp)
      rw [hqn k (hk.trans hj)] at hqk
      exact Bool.false_ne_true hqk
    · obtain ⟨hm, hqm, hqb⟩ := firstBelow_eq_some.mp hq
      -- up to the first position of one row the other is the same
      have hsame : ∀ j ≤ m, p j = q j := fun j hj ↦ by
        by_contra hne
        obtain ⟨k, hk, hqk⟩ := h j (by omega) hne
        rw [hqb k (by omega)] at hqk
        exact Bool.false_ne_true hqk
      rw [firstBelow_eq_some]
      exact ⟨hm, by rw [hsame m le_rfl, hqm], fun j hj ↦ by rw [hsame j hj.le, hqb j hj]⟩

theorem lastBelow_eq_iff :
    lastBelow n p = lastBelow n q ↔
      ∀ j < n, p j ≠ q j → ∃ k, j < k ∧ k < n ∧ q k = true := by
  constructor
  · intro heq j hj hne
    rcases hq : lastBelow n q with _ | m
    · rw [hq] at heq
      exact absurd ((lastBelow_eq_none.mp heq j hj).trans (lastBelow_eq_none.mp hq j hj).symm) hne
    · rw [hq] at heq
      obtain ⟨hm, hqm, hqa⟩ := lastBelow_eq_some.mp hq
      obtain ⟨-, hpm, hpa⟩ := lastBelow_eq_some.mp heq
      refine ⟨m, ?_, hm, hqm⟩
      by_contra hle
      rcases Nat.lt_or_eq_of_le (not_lt.mp hle) with hlt | rfl
      · exact hne ((hpa j hlt hj).trans (hqa j hlt hj).symm)
      · exact hne (hpm.trans hqm.symm)
  · intro h
    rcases hq : lastBelow n q with _ | m
    · have hqn := lastBelow_eq_none.mp hq
      rw [lastBelow_eq_none]
      intro j hj
      by_contra hp
      obtain ⟨k, -, hk, hqk⟩ := h j hj (by rw [hqn j hj]; exact hp)
      rw [hqn k hk] at hqk
      exact Bool.false_ne_true hqk
    · obtain ⟨hm, hqm, hqa⟩ := lastBelow_eq_some.mp hq
      have hsame : ∀ j, m ≤ j → j < n → p j = q j := fun j hj hjn ↦ by
        by_contra hne
        obtain ⟨k, hk, hkn, hqk⟩ := h j hjn hne
        rw [hqa k (by omega) hkn] at hqk
        exact Bool.false_ne_true hqk
      rw [lastBelow_eq_some]
      exact ⟨hm, by rw [hsame m le_rfl hm, hqm],
        fun j hj hjn ↦ by rw [hsame j hj.le hjn, hqa j hj hjn]⟩

end Ends

/-! ## Loops that set bits -/

section Loops

variable {ι : Type*} {w : ℕ} {f : ι → ℕ} {bit : ι → Option Bool} {b : ι → Bool} {l : List ι}

/-- `r |= bit << pos`. A shift by the width or more is not defined. -/
def setBit (r : BitVec w) (pos : ℕ) (bit : Bool) : Option (BitVec w) :=
  if bit then if pos < w then some (r ||| BitVec.twoPow w pos) else none else some r

/-- The loop, where a bit may not be defined either. -/
def setBits (pos : ι → ℕ) (bit : ι → Option Bool) (l : List ι) (r : BitVec w) : Option (BitVec w) :=
  l.foldlM (fun r x ↦ (bit x).bind (setBit r (pos x))) r

theorem getLsbD_setBit {r : BitVec w} {n : ℕ} {c : Bool} (hn : c = true → n < w) :
    ∃ r', setBit r n c = some r' ∧ ∀ k, r'.getLsbD k = (r.getLsbD k || c && n == k) := by
  rw [setBit]
  cases c with
  | false => exact ⟨r, rfl, fun k ↦ by simp⟩
  | true =>
    refine ⟨r ||| BitVec.twoPow w n, by rw [if_pos rfl, if_pos (hn rfl)], fun k ↦ ?_⟩
    rw [BitVec.getLsbD_or, BitVec.getLsbD_twoPow, decide_eq_true (hn rfl)]
    rfl

/-- A position is set in the end if it was before or one of the steps sets it. -/
theorem setBits_eq_some (hbit : ∀ x ∈ l, bit x = some (b x)) (hpos : ∀ x ∈ l, b x → f x < w)
    (r : BitVec w) :
    ∃ r', setBits f bit l r = some r' ∧
      ∀ k, r'.getLsbD k = (r.getLsbD k || l.any fun x ↦ b x && f x == k) := by
  induction l generalizing r with
  | nil => exact ⟨r, rfl, fun k ↦ by simp⟩
  | cons x l ih =>
    have hx := hbit x List.mem_cons_self
    have hxpos := hpos x List.mem_cons_self
    obtain ⟨r₁, hr₁, hbits₁⟩ := getLsbD_setBit (r := r) hxpos
    obtain ⟨r', hr', hbits⟩ := ih (fun y hy ↦ hbit y (List.mem_cons_of_mem x hy))
      (fun y hy ↦ hpos y (List.mem_cons_of_mem x hy)) r₁
    refine ⟨r', ?_, fun k ↦ ?_⟩
    · rw [setBits, List.foldlM_cons, hx, Option.bind_some, hr₁]
      exact hr'
    · rw [hbits k, hbits₁ k, List.any_cons, Bool.or_assoc]

/-- One step that is not defined is enough. -/
theorem setBits_eq_none {x : ι} (hx : x ∈ l)
    (h : ∀ r : BitVec w, (bit x).bind (setBit r (f x)) = none) (r : BitVec w) :
    setBits f bit l r = none := by
  induction l generalizing r with
  | nil => exact absurd hx List.not_mem_nil
  | cons y l ih =>
    rw [setBits, List.foldlM_cons]
    rcases List.mem_cons.mp hx with rfl | hx
    · rw [h r]
      rfl
    · cases (bit y).bind (setBit r (f y)) with
      | none => rfl
      | some r' => exact ih hx r'

/-- Of the positions in a row, one step sets each. -/
theorem any_range_add (c m k : ℕ) (b : ℕ → Bool) :
    ((List.range c).any fun i ↦ b i && m + i == k) =
      (decide (m ≤ k ∧ k < m + c) && b (k - m)) := by
  rw [Bool.eq_iff_iff, List.any_eq_true]
  constructor
  · rintro ⟨i, hi, hbit⟩
    obtain ⟨hb, hk⟩ := Bool.and_eq_true_iff.mp hbit
    obtain rfl := eq_of_beq hk
    have hlt := List.mem_range.mp hi
    rw [Nat.add_sub_cancel_left, hb, Bool.and_true, decide_eq_true_iff]
    omega
  · intro h
    obtain ⟨hrange, hb⟩ := Bool.and_eq_true_iff.mp h
    obtain ⟨hle, hlt⟩ := of_decide_eq_true hrange
    refine ⟨k - m, List.mem_range.mpr (by omega), ?_⟩
    rw [hb, Bool.true_and, beq_iff_eq]
    omega

end Loops

end Positions

end Felix86
