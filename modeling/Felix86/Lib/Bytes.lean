import Mathlib.Data.BitVec
import Mathlib.Data.List.Basic

/-!
# Buffers of bytes

A buffer is a function from addresses to bytes: what lies outside of the part in use is there, and
holds whatever it holds. Numbers are little endian.
-/

namespace Felix86

/-- The contents of memory, by address. -/
abbrev Buffer := ℕ → BitVec 8

namespace Buffer

/-- The `n` bytes from an address on. -/
def read (m : Buffer) (a : ℕ) : ℕ → List (BitVec 8)
  | 0 => []
  | n + 1 => m a :: read m (a + 1) n

/-- Put bytes at an address. -/
def write (m : Buffer) (a : ℕ) (bytes : List (BitVec 8)) : Buffer := fun x ↦
  if a ≤ x then (bytes[x - a]?).getD (m x) else m x

variable {m m' : Buffer} {a b n k : ℕ} {bytes : List (BitVec 8)}

@[simp] theorem length_read (m : Buffer) (a n : ℕ) : (m.read a n).length = n := by
  induction n generalizing a with
  | zero => rfl
  | succ n ih => rw [read, List.length_cons, ih]

theorem getElem?_read {i : ℕ} (h : i < n) : (m.read a n)[i]? = some (m (a + i)) := by
  induction n generalizing a i with
  | zero => exact absurd h (Nat.not_lt_zero i)
  | succ n ih =>
    obtain _ | i := i
    · rfl
    · rw [read, List.getElem?_cons_succ, ih (Nat.lt_of_succ_lt_succ h), Nat.add_right_comm,
        Nat.add_assoc]

theorem read_append (m : Buffer) (a n k : ℕ) :
    m.read a (n + k) = m.read a n ++ m.read (a + n) k := by
  induction n generalizing a with
  | zero => rw [Nat.zero_add, Nat.add_zero, read, List.nil_append]
  | succ n ih => rw [Nat.succ_add, read, read, ih, List.cons_append, Nat.succ_add_eq_add_succ]

theorem read_append_iff {bytes' : List (BitVec 8)} (h : bytes.length = n) :
    m.read a (n + k) = bytes ++ bytes' ↔ m.read a n = bytes ∧ m.read (a + n) k = bytes' := by
  rw [read_append]
  constructor
  · intro heq
    exact List.append_inj heq (by rw [length_read, h])
  · rintro ⟨rfl, rfl⟩
    rfl

theorem read_congr (h : ∀ x, a ≤ x → x < a + n → m x = m' x) : m.read a n = m'.read a n := by
  induction n generalizing a with
  | zero => rfl
  | succ n ih =>
    rw [read, read, h a le_rfl (by omega), ih fun x hlo hhi ↦ h x (by omega) (by omega)]

theorem write_of_lt {x : ℕ} (h : x < a) : m.write a bytes x = m x := if_neg (Nat.not_le.mpr h)

theorem write_of_ge {x : ℕ} (h : a + bytes.length ≤ x) : m.write a bytes x = m x := by
  rw [write, if_pos (by omega), List.getElem?_eq_none (by omega), Option.getD_none]

/-- What has been written is read. -/
theorem read_write (m : Buffer) (a : ℕ) (bytes : List (BitVec 8)) :
    (m.write a bytes).read a bytes.length = bytes := by
  induction bytes generalizing m a with
  | nil => rfl
  | cons byte bytes ih =>
    have hfirst : m.write a (byte :: bytes) a = byte := by
      rw [write, if_pos le_rfl, Nat.sub_self, List.getElem?_cons_zero, Option.getD_some]
    have hrest : (m.write a (byte :: bytes)).read (a + 1) bytes.length =
        (m.write (a + 1) bytes).read (a + 1) bytes.length := by
      refine read_congr fun x hlo hhi ↦ ?_
      obtain ⟨i, rfl⟩ := Nat.exists_eq_add_of_le hlo
      rw [write, write, if_pos (by omega), if_pos hlo, Nat.add_sub_cancel_left,
        show a + 1 + i - a = i + 1 by omega, List.getElem?_cons_succ]
    rw [List.length_cons, read, hfirst, hrest, ih]

/-- What lies elsewhere stays. -/
theorem read_write_of_disjoint (h : b + n ≤ a ∨ a + bytes.length ≤ b) :
    (m.write a bytes).read b n = m.read b n := by
  refine read_congr fun x hlo hhi ↦ ?_
  obtain h | h := h
  · exact write_of_lt (by omega)
  · exact write_of_ge (by omega)

/-! ## Numbers -/

/-- The number that bytes stand for. -/
def toNat : List (BitVec 8) → ℕ
  | [] => 0
  | byte :: bytes => byte.toNat + 256 * toNat bytes

/-- The `n` bytes of a number. -/
def ofNat : ℕ → ℕ → List (BitVec 8)
  | 0, _ => []
  | n + 1, v => BitVec.ofNat 8 v :: ofNat n (v / 256)

@[simp] theorem length_ofNat (n v : ℕ) : (ofNat n v).length = n := by
  induction n generalizing v with
  | zero => rfl
  | succ n ih => rw [ofNat, List.length_cons, ih]

theorem toNat_ofNat {n v : ℕ} (h : v < 256 ^ n) : toNat (ofNat n v) = v := by
  induction n generalizing v with
  | zero =>
    rw [Nat.pow_zero] at h
    rw [ofNat, toNat]
    omega
  | succ n ih =>
    rw [Nat.pow_succ] at h
    rw [ofNat, toNat, ih (by omega), BitVec.toNat_ofNat]
    omega

/-- The number at an address. -/
def number (m : Buffer) (a n : ℕ) : ℕ := toNat (m.read a n)

theorem number_of_read {v : ℕ} (h : m.read a n = ofNat n v) (hv : v < 256 ^ n) :
    m.number a n = v := by
  rw [number, h, toNat_ofNat hv]

end Buffer

end Felix86
