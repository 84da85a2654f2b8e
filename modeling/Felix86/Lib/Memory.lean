import Felix86.Lib.Riscv

/-!
# Memory byte by byte

A store writes the bytes of a word, a load collects them. An operation on part of an aligned word,
done by reading and writing the whole word, is the same as a store of the part.
-/

namespace Felix86

namespace Riscv

/-! ## Loads and stores -/

theorem Mem.load_lt (m : Mem) (a : U64) {n : ℕ} (hn : n ≤ 8) :
    (m.load a n).toNat < 2 ^ (8 * n) := by
  induction n generalizing a with
  | zero => simp [Mem.load]
  | succ n ih =>
    have hrest := ih (a + 1) (by omega)
    have hpow : 2 ^ (8 * (n + 1)) = 2 ^ (8 * n) * 2 ^ 8 := by rw [← Nat.pow_add]; congr 1
    have hbyte : ((m a).setWidth 64).toNat < 2 ^ (8 * (n + 1)) := by
      have hlt := (m a).isLt
      have hpos := Nat.two_pow_pos (8 * n)
      simp only [BitVec.toNat_setWidth]
      rw [hpow, Nat.mod_eq_of_lt (by omega)]
      omega
    have htail : (Mem.load m (a + 1) n <<< 8).toNat < 2 ^ (8 * (n + 1)) := by
      rw [toNat_shl, hpow]
      exact lt_of_le_of_lt (Nat.mod_le _ _) (by omega)
    rw [Mem.load, BitVec.toNat_or]
    exact Nat.or_lt_two_pow hbyte htail

theorem toNat_load_succ (m : Mem) (a : U64) {n : ℕ} (hn : n + 1 ≤ 8) :
    (m.load a (n + 1)).toNat = (m.load (a + 1) n).toNat * 2 ^ 8 + (m a).toNat := by
  have hrest := Mem.load_lt m (a + 1) (n := n) (by omega)
  have hbyte := (m a).isLt
  have hle : 2 ^ (8 * n) ≤ 2 ^ 56 := Nat.pow_le_pow_right (by decide) (by omega)
  have hshl : (Mem.load m (a + 1) n <<< 8).toNat = (m.load (a + 1) n).toNat * 2 ^ 8 := by
    rw [toNat_shl, Nat.mod_eq_of_lt]
    omega
  have hlow : ((m a).setWidth 64).toNat = (m a).toNat := by
    rw [BitVec.toNat_setWidth, Nat.mod_eq_of_lt (by omega)]
  rw [Mem.load, BitVec.or_comm, toNat_or_disjoint (n := 8) _ _ (by omega) (by omega), hshl, hlow]

/-- Writing back what is there changes nothing. -/
theorem Mem.store_load (m : Mem) (a : U64) {n : ℕ} (hn : n ≤ 8) : m.store a (m.load a n) n = m := by
  induction n generalizing a with
  | zero => rfl
  | succ n ih =>
    have hload := toNat_load_succ m a hn
    have hbyte := (m a).isLt
    have hfirst : (m.load a (n + 1)).setWidth 8 = m a := by
      apply BitVec.eq_of_toNat_eq
      rw [BitVec.toNat_setWidth, hload]
      omega
    have hrest : m.load a (n + 1) >>> 8 = m.load (a + 1) n := by
      apply BitVec.eq_of_toNat_eq
      rw [toNat_shr, hload]
      omega
    rw [Mem.store, hfirst, hrest, Function.update_eq_self]
    exact ih _ (by omega)

/-- Only the bytes that are written count. -/
theorem Mem.store_congr (m : Mem) (a : U64) {v w : U64} {n : ℕ}
    (h : v.toNat % 2 ^ (8 * n) = w.toNat % 2 ^ (8 * n)) : m.store a v n = m.store a w n := by
  induction n generalizing m a v w with
  | zero => rfl
  | succ n ih =>
    have hpow : 2 ^ (8 * (n + 1)) = 2 ^ 8 * 2 ^ (8 * n) := by rw [← Nat.pow_add]; congr 1; omega
    rw [hpow] at h
    have hbyte : v.setWidth 8 = w.setWidth 8 := by
      apply BitVec.eq_of_toNat_eq
      rw [BitVec.toNat_setWidth, BitVec.toNat_setWidth, ← Nat.mod_mul_right_mod v.toNat (2 ^ 8), h,
        Nat.mod_mul_right_mod]
    have hrest : (v >>> 8).toNat % 2 ^ (8 * n) = (w >>> 8).toNat % 2 ^ (8 * n) := by
      rw [toNat_shr, toNat_shr, ← Nat.mod_mul_right_div_self, h, Nat.mod_mul_right_div_self]
    rw [Mem.store, Mem.store, hbyte]
    exact ih _ _ hrest

/-! ## Bytes -/

/-- One byte of a word. -/
def byte (v : U64) (j : ℕ) : BitVec 8 := (v >>> (8 * j)).setWidth 8

theorem getLsbD_byte (v : U64) (j b : ℕ) :
    (byte v j).getLsbD b = (decide (b < 8) && v.getLsbD (8 * j + b)) := by
  simp [byte, BitVec.getLsbD_setWidth, BitVec.getLsbD_ushiftRight]

theorem byte_shr (v : U64) (j : ℕ) : byte (v >>> 8) j = byte v (j + 1) := by
  apply BitVec.eq_of_getLsbD_eq
  intro b hb
  rw [getLsbD_byte, getLsbD_byte, BitVec.getLsbD_ushiftRight]
  congr 2
  omega

/-- The distance to the byte behind the first one. -/
theorem toNat_sub_succ {x a : U64} (h : x ≠ a) : (x - a).toNat = (x - (a + 1)).toNat + 1 := by
  have hne : x.toNat ≠ a.toNat := fun heq ↦ h (BitVec.eq_of_toNat_eq heq)
  have hx := x.isLt
  have ha := a.isLt
  simp only [BitVec.toNat_sub, BitVec.toNat_add, BitVec.ofNat_eq_ofNat, BitVec.toNat_ofNat]
  omega

theorem Mem.store_apply (m : Mem) (a v : U64) {n : ℕ} (hn : n ≤ 8) (x : U64) :
    m.store a v n x = if (x - a).toNat < n then byte v (x - a).toNat else m x := by
  induction n generalizing m a v with
  | zero => rfl
  | succ n ih =>
    rw [Mem.store, ih _ _ _ (by omega)]
    by_cases hx : x = a
    · subst hx
      have hlast : (x - (x + 1)).toNat = 2 ^ 64 - 1 := by
        have hx := x.isLt
        simp only [BitVec.toNat_sub, BitVec.toNat_add, BitVec.ofNat_eq_ofNat, BitVec.toNat_ofNat]
        omega
      rw [if_neg (by omega), Function.update_self, BitVec.sub_self, if_pos (by simp)]
      simp [byte]
    · rw [Function.update_of_ne hx, toNat_sub_succ hx, byte_shr]
      simp only [Nat.add_lt_add_iff_right]

theorem byte_load (m : Mem) (a : U64) {n j : ℕ} (hn : n ≤ 8) (hj : j < n) :
    byte (m.load a n) j = m (a + BitVec.ofNat 64 j) := by
  induction n generalizing a j with
  | zero => omega
  | succ n ih =>
    cases j with
    | zero =>
      apply BitVec.eq_of_getLsbD_eq
      intro b hb
      rw [getLsbD_byte, Mem.load, BitVec.getLsbD_or, BitVec.getLsbD_setWidth,
        BitVec.getLsbD_shiftLeft]
      simp [hb, show b < 64 by omega]
    | succ j =>
      have haddress : a + 1 + BitVec.ofNat 64 j = a + BitVec.ofNat 64 (j + 1) := by
        rw [BitVec.add_assoc]
        congr 1
        apply BitVec.eq_of_toNat_eq
        simp
        omega
      rw [← haddress, ← ih (a + 1) (by omega) (by omega)]
      apply BitVec.eq_of_getLsbD_eq
      intro b hb
      have hhigh : (m a).getLsbD (8 * (j + 1) + b) = false := BitVec.getLsbD_of_ge _ _ (by omega)
      rw [getLsbD_byte, getLsbD_byte, Mem.load, BitVec.getLsbD_or, BitVec.getLsbD_setWidth,
        BitVec.getLsbD_shiftLeft, hhigh, show 8 * (j + 1) + b - 8 = 8 * j + b by omega]
      simp [hb, show 8 * (j + 1) + b < 64 by omega, show ¬ 8 * (j + 1) + b < 8 by omega]

theorem toNat_byte (v : U64) (j : ℕ) : (byte v j).toNat = v.toNat / 2 ^ (8 * j) % 2 ^ 8 := by
  rw [byte, BitVec.toNat_setWidth, toNat_shr]

/-- A byte depends on the bits below its end only. -/
theorem byte_congr {v w : U64} {j n : ℕ} (hj : j < n)
    (h : v.toNat % 2 ^ (8 * n) = w.toNat % 2 ^ (8 * n)) : byte v j = byte w j := by
  have hpow : 2 ^ (8 * n) = 2 ^ (8 * j) * (2 ^ 8 * 2 ^ (8 * (n - (j + 1)))) := by
    rw [← Nat.pow_add, ← Nat.pow_add]
    congr 1
    omega
  rw [hpow] at h
  apply BitVec.eq_of_toNat_eq
  rw [toNat_byte, toNat_byte, ← Nat.mod_mul_right_mod (v.toNat / 2 ^ (8 * j)) (2 ^ 8),
    ← Nat.mod_mul_right_div_self, h, Nat.mod_mul_right_div_self, Nat.mod_mul_right_mod]

theorem mod_of_bytes {v w : U64} {n : ℕ} (h : ∀ j < n, byte v j = byte w j) :
    v.toNat % 2 ^ (8 * n) = w.toNat % 2 ^ (8 * n) := by
  induction n with
  | zero => rw [Nat.mul_zero, Nat.pow_zero, Nat.mod_one, Nat.mod_one]
  | succ n ih =>
    have hlast := congrArg BitVec.toNat (h n (Nat.lt_succ_self n))
    rw [toNat_byte, toNat_byte] at hlast
    rw [Nat.mul_succ, Nat.pow_add, Nat.mod_mul, Nat.mod_mul, ih fun j hj ↦ h j (by omega), hlast]

/-- What was stored is loaded, as far as it fits. -/
theorem Mem.toNat_load_store (m : Mem) (a v : U64) {n : ℕ} (hn : n ≤ 8) :
    ((m.store a v n).load a n).toNat = v.toNat % 2 ^ (8 * n) := by
  have hbytes : ∀ j < n, byte ((m.store a v n).load a n) j = byte v j := by
    intro j hj
    have hdist : (a + BitVec.ofNat 64 j - a).toNat = j := by
      rw [BitVec.add_comm, BitVec.add_sub_cancel, BitVec.toNat_ofNat, Nat.mod_eq_of_lt (by omega)]
    rw [byte_load _ _ hn hj, Mem.store_apply _ _ _ hn, hdist, if_pos hj]
  rw [← mod_of_bytes hbytes, Nat.mod_eq_of_lt (Mem.load_lt _ _ hn)]

/-! ## Ranges -/

/-- No byte of the first range is in the second one. -/
def Apart (a : U64) (n : ℕ) (b : U64) (k : ℕ) : Prop :=
  ∀ i < n, k ≤ (a + BitVec.ofNat 64 i - b).toNat

/-- A load depends on the bytes it collects. -/
theorem Mem.load_congr {m m' : Mem} {a : U64} {n : ℕ}
    (h : ∀ i < n, m (a + BitVec.ofNat 64 i) = m' (a + BitVec.ofNat 64 i)) :
    m.load a n = m'.load a n := by
  induction n generalizing a with
  | zero => rfl
  | succ n ih =>
    have hfirst : m a = m' a := by simpa using h 0 (Nat.succ_pos n)
    rw [Mem.load, Mem.load, hfirst, ih]
    intro i hi
    have hnext : a + 1 + BitVec.ofNat 64 i = a + BitVec.ofNat 64 (i + 1) := by
      rw [BitVec.add_assoc, Nat.add_comm i 1, BitVec.ofNat_add]
      rfl
    rw [hnext]
    exact h (i + 1) (Nat.succ_lt_succ hi)

theorem Mem.load_store_of_apart (m : Mem) (v : U64) {a b : U64} {n k : ℕ} (hk : k ≤ 8)
    (h : Apart a n b k) : (m.store b v k).load a n = m.load a n := by
  refine Mem.load_congr fun i hi ↦ ?_
  rw [Mem.store_apply _ _ _ hk, if_neg (Nat.not_lt.mpr (h i hi))]

/-- One value in either of two places: memory is the same only if both have it already. -/
theorem Mem.store_eq_store_iff (m : Mem) (v : U64) {a b : U64} {n : ℕ} (hn : n ≤ 8)
    (h : Apart a n b n) :
        m.store a v n = m.store b v n ↔ m.store a v n = m ∧ m.store b v n = m := by
  refine ⟨fun heq ↦ ?_, fun ⟨ha, hb⟩ ↦ ha.trans hb.symm⟩
  have hsame : m.store a v n = m := by
    funext x
    by_cases hx : (x - a).toNat < n
    · have hfar := h _ hx
      rw [BitVec.ofNat_toNat, BitVec.setWidth_eq, BitVec.add_comm, BitVec.sub_add_cancel] at hfar
      rw [heq, Mem.store_apply _ _ _ hn, if_neg (Nat.not_lt.mpr hfar)]
    · rw [Mem.store_apply _ _ _ hn, if_neg hx]
  exact ⟨hsame, heq.symm.trans hsame⟩

/-- Words are equal if their bytes are. -/
theorem eq_of_bytes {v w : U64} (h : ∀ j < 8, byte v j = byte w j) : v = w := by
  apply BitVec.eq_of_toNat_eq
  have hmod := mod_of_bytes h
  rwa [Nat.mod_eq_of_lt v.isLt, Nat.mod_eq_of_lt w.isLt] at hmod

/-- The bytes of an object, by their offsets. -/
theorem byte_load_offset (m : Mem) (base : U64) (o : ℕ) {n j : ℕ} (hn : n ≤ 8) (hj : j < n) :
    byte (m.load (base + BitVec.ofNat 64 o) n) j = m (base + BitVec.ofNat 64 (o + j)) := by
  rw [byte_load m _ hn hj, BitVec.add_assoc, ← BitVec.ofNat_add]

theorem Mem.load_offset_eq {m : Mem} {base v : U64} {o : ℕ}
    (h : ∀ j < 8, m (base + BitVec.ofNat 64 (o + j)) = byte v j) :
    m.load (base + BitVec.ofNat 64 o) 8 = v :=
  eq_of_bytes fun j hj ↦ by rw [byte_load_offset m base o le_rfl hj, h j hj]

/-- A store into an object, by offsets. -/
theorem Mem.store_offset (m : Mem) (base v : U64) {o i n : ℕ} (hn : n ≤ 8) (ho : o < 2 ^ 32)
    (hi : i < 2 ^ 32) : m.store (base + BitVec.ofNat 64 o) v n (base + BitVec.ofNat 64 i) =
      if o ≤ i ∧ i < o + n then byte v (i - o) else m (base + BitVec.ofNat 64 i) := by
  have hbase := base.isLt
  have hdist : (base + BitVec.ofNat 64 i - (base + BitVec.ofNat 64 o)).toNat =
      if o ≤ i then i - o else 2 ^ 64 + i - o := by
    simp only [BitVec.toNat_sub, BitVec.toNat_add, BitVec.toNat_ofNat]
    split <;> omega
  rw [Mem.store_apply _ _ _ hn, hdist]
  by_cases hle : o ≤ i
  · rw [if_pos hle]
    by_cases hlt : i < o + n
    · rw [if_pos (by omega), if_pos ⟨hle, hlt⟩]
    · rw [if_neg (by omega), if_neg fun h ↦ hlt h.2]
  · rw [if_neg hle, if_neg (by omega), if_neg fun h ↦ hle h.1]

/-- Two parts of one object. -/
theorem apart_of_offsets (base : U64) {x n y k : ℕ} (h : x + n ≤ y ∨ y + k ≤ x)
    (hx : x + n ≤ 2 ^ 32) (hy : y + k ≤ 2 ^ 32) :
    Apart (base + BitVec.ofNat 64 x) n (base + BitVec.ofNat 64 y) k := by
  intro i hi
  have hbase := base.isLt
  simp only [BitVec.toNat_sub, BitVec.toNat_add, BitVec.toNat_ofNat]
  omega

/-! ## Part of an aligned word -/

theorem toNat_aligned (a : U64) : (a &&& ~~~(3 : U64)).toNat = a.toNat - a.toNat % 4 := by
  have hmask : (a &&& 3).toNat = a.toNat % 4 := toNat_and_mask a (show 2 ≤ 64 by decide)
  rw [toNat_and_not, hmask]

theorem aligned_add (a : U64) : (a &&& ~~~(3 : U64)) + BitVec.ofNat 64 (a.toNat % 4) = a := by
  have ha := a.isLt
  apply BitVec.eq_of_toNat_eq
  rw [BitVec.toNat_add, toNat_aligned, BitVec.toNat_ofNat]
  omega

/-- A store of `n` bytes is a store of the aligned word that agrees with memory outside of them. -/
theorem Mem.store_part (m : Mem) {a w v : U64} {n : ℕ} (hn : a.toNat % 4 + n ≤ 4)
    (hin : ∀ j < n, byte w (a.toNat % 4 + j) = byte v j)
    (hout : ∀ j < 4, j < a.toNat % 4 ∨ a.toNat % 4 + n ≤ j →
      byte w j = byte (m.load (a &&& ~~~(3 : U64)) 4) j) :
    m.store (a &&& ~~~(3 : U64)) w 4 = m.store a v n := by
  funext x
  rw [Mem.store_apply _ _ _ (by decide), Mem.store_apply _ _ _ (by omega)]
  have hbase := toNat_aligned a
  have ha := a.isLt
  have hx := x.isLt
  by_cases hd : (x - (a &&& ~~~(3 : U64))).toNat < 4
  · rw [if_pos hd]
    by_cases hpart : a.toNat % 4 ≤ (x - (a &&& ~~~(3 : U64))).toNat ∧
        (x - (a &&& ~~~(3 : U64))).toNat < a.toNat % 4 + n
    · obtain ⟨j, hj⟩ := Nat.exists_eq_add_of_le hpart.1
      have hoffset : (x - a).toNat = j := by
        rw [BitVec.toNat_sub] at hj ⊢
        omega
      rw [hoffset, if_pos (by omega), hj]
      exact hin j (by omega)
    · have hoffset : ¬ (x - a).toNat < n := by
        rw [BitVec.toNat_sub] at hd hpart ⊢
        omega
      rw [if_neg hoffset, hout _ hd (by omega), byte_load m _ (by decide) hd]
      congr 1
      apply BitVec.eq_of_toNat_eq
      rw [BitVec.toNat_add, BitVec.toNat_ofNat, BitVec.toNat_sub]
      omega
  · have hoffset : ¬ (x - a).toNat < n := by
      rw [BitVec.toNat_sub] at hd ⊢
      omega
    rw [if_neg hd, if_neg hoffset]

/-- The part of an aligned word at an address. -/
theorem Mem.load_part (m : Mem) (a : U64) {n j : ℕ} (hn : a.toNat % 4 + n ≤ 4) (hj : j < n) :
    byte (m.load (a &&& ~~~(3 : U64)) 4) (a.toNat % 4 + j) = byte (m.load a n) j := by
  rw [byte_load m _ (by decide) (by omega), byte_load m a (by omega) hj]
  congr 1
  rw [BitVec.ofNat_add, ← BitVec.add_assoc, aligned_add]

end Riscv

end Felix86
