import Felix86.Lib.Bytes
import Mathlib.Data.List.Basic

/-!
# Arrays in buffers

An `Element` says how the values of a type lie in a buffer: what is written for one, and how it is
read. An array is a list of values, one after the other. `storeAll` writes an array in a temporary
of so many bytes and fails if a value does not fit, and `copyAll` is the loop that converts an array
of one type to one of another.
-/

namespace Felix86

open Buffer

structure Element (α : Type) where
  /-- `sizeof`. -/
  size : ℕ
  put : Buffer → ℕ → α → Buffer
  get : Buffer → ℕ → α
  get_put : ∀ m a x, get (put m a x) a = x
  put_apply : ∀ m a x b, b < a ∨ a + size ≤ b → put m a x b = m b
  get_congr : ∀ m m' a, (∀ b, a ≤ b → b < a + size → m b = m' b) → get m a = get m' a

namespace Element

/-! ## Structures of two fields -/

/-- A number that has been written is read. -/
theorem number_write {w k : ℕ} (m : Buffer) (a : ℕ) (hw : w = 8 * k) (y : BitVec w) :
    (m.write a (ofNat k y.toNat)).number a k = y.toNat := by
  have hread := read_write m a (ofNat k y.toNat)
  rw [length_ofNat] at hread
  refine number_of_read hread ?_
  calc y.toNat < 2 ^ w := y.isLt
    _ = 256 ^ k := by rw [hw, Nat.pow_mul]

section Fields

variable {α : Type} {v w n offset k : ℕ} {mk : BitVec v → BitVec w → α} {first : α → BitVec v}
  {second : α → BitVec w}

theorem fields_get_put (hmk : ∀ x, mk (first x) (second x) = x) (hv : v = 8 * n) (hw : w = 8 * k)
    (hoffset : n ≤ offset) (m : Buffer) (a : ℕ) (x : α) :
    let m' := (m.write a (ofNat n (first x).toNat)).write (a + offset) (ofNat k (second x).toNat)
    mk (BitVec.ofNat v (m'.number a n)) (BitVec.ofNat w (m'.number (a + offset) k)) = x := by
  intro m'
  have hfirst : m'.number a n = (first x).toNat := by
    rw [number, read_write_of_disjoint (.inl (by omega))]
    exact number_write m a hv (first x)
  rw [hfirst, number_write _ _ hw, BitVec.ofNat_toNat, BitVec.ofNat_toNat, BitVec.setWidth_eq,
    BitVec.setWidth_eq, hmk]

theorem fields_put_apply (hoffset : n ≤ offset) (m : Buffer) (a : ℕ) (x : α) {b : ℕ}
    (hb : b < a ∨ a + (offset + k) ≤ b) :
    (m.write a (ofNat n (first x).toNat)).write (a + offset) (ofNat k (second x).toNat) b =
    m b := by
  obtain hb | hb := hb
  · rw [write_of_lt (by omega), write_of_lt hb]
  · rw [write_of_ge (by rw [length_ofNat]; omega), write_of_ge (by rw [length_ofNat]; omega)]

theorem fields_get_congr (hoffset : n ≤ offset) {m m' : Buffer} {a : ℕ}
    (h : ∀ x, a ≤ x → x < a + (offset + k) → m x = m' x) :
    mk (BitVec.ofNat v (m.number a n)) (BitVec.ofNat w (m.number (a + offset) k)) =
      mk (BitVec.ofNat v (m'.number a n)) (BitVec.ofNat w (m'.number (a + offset) k)) := by
  have hfirst : m.number a n = m'.number a n :=
    congrArg toNat (read_congr fun x hlo hhi ↦ h x hlo (by omega))
  have hsecond : m.number (a + offset) k = m'.number (a + offset) k :=
    congrArg toNat (read_congr fun x hlo hhi ↦ h x (by omega) (by omega))
  rw [hfirst, hsecond]

end Fields

/-- A structure whose second field is at `offset`. There can be padding before it. -/
def fields {α : Type} {v w : ℕ} (n offset k : ℕ) (mk : BitVec v → BitVec w → α)
    (first : α → BitVec v) (second : α → BitVec w) (hmk : ∀ x, mk (first x) (second x) = x)
    (hv : v = 8 * n) (hw : w = 8 * k) (hoffset : n ≤ offset) : Element α where
  size := offset + k
  put m a x := (m.write a (ofNat n (first x).toNat)).write (a + offset) (ofNat k (second x).toNat)
  get m a := mk (BitVec.ofNat v (m.number a n)) (BitVec.ofNat w (m.number (a + offset) k))
  get_put := fields_get_put hmk hv hw hoffset
  put_apply m a x _ hb := fields_put_apply hoffset m a x hb
  get_congr _ _ _ h := fields_get_congr hoffset h

/-! ## Arrays -/

variable {α β : Type} (e : Element α)

/-- Write an array. -/
def putAll (m : Buffer) : ℕ → List α → Buffer
  | _, [] => m
  | a, x :: xs => putAll (e.put m a x) (a + e.size) xs

/-- Write an array in a temporary of `room` bytes. -/
def storeAll (room : ℕ) (m : Buffer) : ℕ → List α → Option Buffer
  | _, [] => some m
  | a, x :: xs =>
    if a + e.size ≤ room then storeAll room (e.put m a x) (a + e.size) xs else none

/-- The loop that copies `n` elements and converts each of them. -/
def copyAll (dst : Element β) (convert : α → β) (source : Buffer) (a p n : ℕ) (m : Buffer) :
    Buffer :=
  (List.range n).foldl
    (fun m i ↦ dst.put m (p + dst.size * i) (convert (e.get source (a + e.size * i)))) m

variable {e} {m source : Buffer} {a p room : ℕ} {x : α} {xs : List α}

theorem size_mul_length_cons : e.size * (x :: xs).length = e.size + e.size * xs.length := by
  rw [List.length_cons, Nat.mul_succ, Nat.add_comm]

/-- An array is stored if all of it fits. -/
theorem storeAll_eq_some (h : a + e.size * xs.length ≤ room) :
    e.storeAll room m a xs = some (e.putAll m a xs) := by
  induction xs generalizing m a with
  | nil => rfl
  | cons x xs ih =>
    rw [size_mul_length_cons] at h
    rw [storeAll, if_pos (by omega), putAll]
    exact ih (by omega)

/-- The last element says how much room an array takes. -/
theorem le_of_storeAll {m' : Buffer} (h : e.storeAll room m a xs = some m') (ha : a ≤ room) :
    a + e.size * xs.length ≤ room := by
  induction xs generalizing m a with
  | nil => exact ha
  | cons x xs ih =>
    rw [storeAll] at h
    split at h
    · next hfits =>
      have hrest := ih h hfits
      rw [size_mul_length_cons]
      omega
    · cases h

theorem putAll_apply {b : ℕ} (hb : b < a ∨ a + e.size * xs.length ≤ b) :
    e.putAll m a xs b = m b := by
  induction xs generalizing m a with
  | nil => rfl
  | cons x xs ih =>
    rw [size_mul_length_cons] at hb
    rw [putAll, ih (by omega)]
    exact e.put_apply m a x b (by omega)

theorem putAll_append (ys : List α) :
    e.putAll m a (xs ++ ys) = e.putAll (e.putAll m a xs) (a + e.size * xs.length) ys := by
  induction xs generalizing m a with
  | nil => rfl
  | cons x xs ih =>
    rw [List.cons_append, putAll, putAll, ih, size_mul_length_cons, Nat.add_assoc]

/-- What has been written is read, element by element. -/
theorem get_putAll {i : ℕ} (hi : i < xs.length) :
    e.get (e.putAll m a xs) (a + e.size * i) = xs[i] := by
  induction xs generalizing m a i with
  | nil => exact absurd hi (Nat.not_lt_zero i)
  | cons x xs ih =>
    rw [putAll]
    obtain _ | i := i
    · have hkept : e.get (e.putAll (e.put m a x) (a + e.size) xs) a = e.get (e.put m a x) a :=
        e.get_congr _ _ a fun b _ hb ↦ putAll_apply (.inl hb)
      rw [Nat.mul_zero, Nat.add_zero, hkept, e.get_put, List.getElem_cons_zero]
    · have hplace : a + e.size * (i + 1) = a + e.size + e.size * i := by
        rw [Nat.mul_succ, Nat.add_assoc, Nat.add_comm (e.size * i)]
      rw [hplace, List.getElem_cons_succ]
      exact ih (Nat.lt_of_succ_lt_succ hi)

/-- The loop writes the converted array, and nothing else. -/
theorem copyAll_eq (dst : Element β) (convert : α → β)
    (hsource : ∀ i (hi : i < xs.length), e.get source (a + e.size * i) = xs[i]) :
    e.copyAll dst convert source a p xs.length m = dst.putAll m p (xs.map convert) := by
  induction xs using List.reverseRecOn with
  | nil => rfl
  | append_singleton xs x ih =>
    have hlast : e.get source (a + e.size * xs.length) = x := by
      rw [hsource xs.length (by simp), List.getElem_concat_length rfl]
    have hfirst := ih fun i hi ↦ by
      rw [hsource i (by rw [List.length_append]; omega), List.getElem_append_left hi]
    rw [copyAll] at hfirst
    rw [copyAll, List.length_append, List.length_singleton, List.range_succ, List.foldl_append,
      hfirst, List.foldl_cons, List.foldl_nil, hlast, List.map_append, putAll_append,
      List.length_map]
    rfl

end Element

end Felix86
