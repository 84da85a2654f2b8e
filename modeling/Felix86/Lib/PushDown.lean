import Felix86.Lib.Bytes

/-!
# Stacks that grow down

Blocks of bytes are put one below the other into a buffer, down to a limit. What has been put there
stays, since everything that is put there later is below it. Blocks that are pushed right after each
other are one block, in the other order.
-/

namespace Felix86

/-- A buffer with the address that the next block is put below. -/
structure PushDown where
  pointer : ℕ
  mem : Buffer

namespace PushDown

/-- Put a block below the pointer, unless it would start below the limit. -/
def push (bottom : ℕ) (bytes : List (BitVec 8)) (s : PushDown) : Option PushDown :=
  if bottom + bytes.length ≤ s.pointer then
    some ⟨s.pointer - bytes.length, s.mem.write (s.pointer - bytes.length) bytes⟩
  else none

/-- Leave some bytes out. -/
def lower (n : ℕ) (s : PushDown) : PushDown := { s with pointer := s.pointer - n }

/-- Put blocks, and collect their addresses. -/
def pushAll (bottom : ℕ) : List (List (BitVec 8)) → PushDown → Option (List ℕ × PushDown)
  | [], s => some ([], s)
  | bytes :: rest, s => do
    let s ← push bottom bytes s
    let (addresses, s') ← pushAll bottom rest s
    some (s.pointer :: addresses, s')

/-- The blocks that are there between the pointer and the top, with their addresses in ascending
order. -/
structure Laid (top : ℕ) (s : PushDown) (blocks : List (ℕ × List (BitVec 8))) : Prop where
  pointer_le : s.pointer ≤ top
  inside : ∀ b ∈ blocks, s.pointer ≤ b.1 ∧ b.1 + b.2.length ≤ top
  ascending : blocks.Pairwise fun b b' ↦ b.1 + b.2.length ≤ b'.1
  read : ∀ b ∈ blocks, s.mem.read b.1 b.2.length = b.2

variable {bottom top : ℕ} {bytes bytes' : List (BitVec 8)} {s s' s'' : PushDown}
  {blocks : List (ℕ × List (BitVec 8))}

/-! ## One block -/

theorem push_eq_some (h : push bottom bytes s = some s') :
    bottom + bytes.length ≤ s.pointer ∧ s'.pointer = s.pointer - bytes.length ∧
      s'.mem = s.mem.write s'.pointer bytes := by
  rw [push] at h
  split at h
  · next hfit =>
    cases h
    exact ⟨hfit, rfl, rfl⟩
  · cases h

theorem exists_push (h : bottom + bytes.length ≤ s.pointer) :
    ∃ s', push bottom bytes s = some s' ∧ s'.pointer = s.pointer - bytes.length :=
  ⟨_, if_pos h, rfl⟩

theorem laid_nil (h : s.pointer ≤ top) : Laid top s [] where
  pointer_le := h
  inside _ hb := absurd hb List.not_mem_nil
  ascending := List.Pairwise.nil
  read _ hb := absurd hb List.not_mem_nil

/-- Everything that is there is above the new block. -/
theorem Laid.push (hl : Laid top s blocks) (h : push bottom bytes s = some s') :
    Laid top s' ((s'.pointer, bytes) :: blocks) := by
  obtain ⟨hfit, hpointer, hmem⟩ := push_eq_some h
  have htop := hl.pointer_le
  refine ⟨by omega, ?_, ?_, ?_⟩
  · intro b hb
    obtain rfl | hb := List.mem_cons.mp hb
    · exact ⟨le_rfl, show s'.pointer + bytes.length ≤ top by omega⟩
    · have hinside := hl.inside b hb
      exact ⟨by omega, hinside.2⟩
  · refine List.pairwise_cons.mpr ⟨fun b hb ↦ ?_, hl.ascending⟩
    have hinside := hl.inside b hb
    simp only
    omega
  · intro b hb
    rw [hmem]
    obtain rfl | hb := List.mem_cons.mp hb
    · exact Buffer.read_write _ _ _
    · have hinside := hl.inside b hb
      rw [Buffer.read_write_of_disjoint (.inr (by omega))]
      exact hl.read b hb

theorem Laid.lower (hl : Laid top s blocks) (n : ℕ) : Laid top (s.lower n) blocks where
  pointer_le := (Nat.sub_le _ _).trans hl.pointer_le
  inside b hb := ⟨(Nat.sub_le _ _).trans (hl.inside b hb).1, (hl.inside b hb).2⟩
  ascending := hl.ascending
  read := hl.read

/-- The lowest block may be overwritten by one of the same size. -/
theorem Laid.replace {a : ℕ} (hl : Laid top s ((a, bytes) :: blocks))
    (hlength : bytes'.length = bytes.length) :
    Laid top { s with mem := s.mem.write a bytes' } ((a, bytes') :: blocks) where
  pointer_le := hl.pointer_le
  inside b hb := by
    obtain rfl | hb := List.mem_cons.mp hb
    · have hinside := hl.inside (a, bytes) List.mem_cons_self
      simp only at hinside ⊢
      omega
    · exact hl.inside b (List.mem_cons_of_mem _ hb)
  ascending := by
    obtain ⟨hfirst, hrest⟩ := List.pairwise_cons.mp hl.ascending
    refine List.pairwise_cons.mpr ⟨fun b hb ↦ ?_, hrest⟩
    rw [hlength]
    exact hfirst b hb
  read b hb := by
    obtain rfl | hb := List.mem_cons.mp hb
    · exact Buffer.read_write _ _ _
    · have habove := (List.pairwise_cons.mp hl.ascending).1 b hb
      rw [Buffer.read_write_of_disjoint (.inr (by rw [hlength]; exact habove))]
      exact hl.read b (List.mem_cons_of_mem _ hb)

/-! ## Several blocks -/

/-- What all of them take. -/
def size (rest : List (List (BitVec 8))) : ℕ := (rest.map List.length).sum

@[simp] theorem size_nil : size [] = 0 := rfl

@[simp] theorem size_cons (bytes : List (BitVec 8)) (rest : List (List (BitVec 8))) :
    size (bytes :: rest) = bytes.length + size rest := by
  rw [size, List.map_cons, List.sum_cons, size]

theorem size_reverse (rest : List (List (BitVec 8))) : size rest.reverse = size rest := by
  rw [size, List.map_reverse, List.sum_reverse, size]

variable {rest : List (List (BitVec 8))} {addresses : List ℕ}

theorem pushAll_cons_eq_some (h : pushAll bottom (bytes :: rest) s = some (addresses, s'')) :
    ∃ s' addresses', push bottom bytes s = some s' ∧ pushAll bottom rest s' =
      some (addresses', s'') ∧
      addresses = s'.pointer :: addresses' := by
  obtain ⟨s', hpush, h⟩ := Option.bind_eq_some_iff.mp h
  obtain ⟨p, hrest, h⟩ := Option.bind_eq_some_iff.mp h
  cases h
  exact ⟨s', p.1, hpush, hrest, rfl⟩

theorem pushAll_eq_some (hbottom : bottom ≤ s.pointer)
    (h : pushAll bottom rest s = some (addresses, s')) :
    bottom + size rest ≤ s.pointer ∧ s'.pointer = s.pointer - size rest ∧
      addresses.length = rest.length := by
  induction rest generalizing s addresses with
  | nil =>
    cases h
    exact ⟨hbottom, rfl, rfl⟩
  | cons bytes rest ih =>
    obtain ⟨s₁, addresses', hpush, hrest, rfl⟩ := pushAll_cons_eq_some h
    obtain ⟨hfit, hpointer, -⟩ := push_eq_some hpush
    obtain ⟨hfit', hpointer', hlength⟩ := ih (by omega) hrest
    rw [size_cons, List.length_cons, List.length_cons, hlength]
    exact ⟨by omega, by omega, rfl⟩

theorem pointer_le_of_pushAll (h : pushAll bottom rest s = some (addresses, s')) :
    s'.pointer ≤ s.pointer := by
  induction rest generalizing s addresses with
  | nil =>
    cases h
    exact le_rfl
  | cons bytes rest ih =>
    obtain ⟨s₁, addresses', hpush, hrest, rfl⟩ := pushAll_cons_eq_some h
    obtain ⟨-, hpointer, -⟩ := push_eq_some hpush
    have hle := ih hrest
    omega

theorem exists_pushAll (h : bottom + size rest ≤ s.pointer) :
    ∃ addresses s', pushAll bottom rest s = some (addresses, s') ∧
      s'.pointer = s.pointer - size rest := by
  induction rest generalizing s with
  | nil => exact ⟨[], s, rfl, rfl⟩
  | cons bytes rest ih =>
    rw [size_cons] at h
    obtain ⟨s₁, hpush, hpointer⟩ := @exists_push bottom bytes s (by omega)
    obtain ⟨addresses, s', hrest, hpointer'⟩ := @ih s₁ (by omega)
    refine ⟨s₁.pointer :: addresses, s', ?_, by rw [size_cons]; omega⟩
    rw [pushAll, hpush]
    simp only [Option.bind_eq_bind, Option.bind_some, hrest]

/-- The blocks are there in the opposite order. -/
theorem Laid.pushAll (hl : Laid top s blocks) (h : pushAll bottom rest s = some (addresses, s')) :
    Laid top s' ((addresses.zip rest).reverse ++ blocks) := by
  induction rest generalizing s addresses blocks with
  | nil =>
    cases h
    exact hl
  | cons bytes rest ih =>
    obtain ⟨s₁, addresses', hpush, hrest, rfl⟩ := pushAll_cons_eq_some h
    rw [List.zip_cons_cons, List.reverse_cons, List.append_assoc]
    exact ih (hl.push hpush) hrest

/-! ## Blocks right below each other -/

theorem write_append (m : Buffer) (a : ℕ) (b b' : List (BitVec 8)) :
    (m.write (a + b.length) b').write a b = m.write a (b ++ b') := by
  funext x
  simp only [Buffer.write]
  by_cases hle : a ≤ x
  · rw [if_pos hle, if_pos hle]
    by_cases hlt : x - a < b.length
    · rw [List.getElem?_append_left hlt, List.getElem?_eq_getElem hlt, Option.getD_some,
        Option.getD_some]
    · have hge : a + b.length ≤ x := by omega
      rw [List.getElem?_eq_none (Nat.not_lt.mp hlt), Option.getD_none, if_pos hge,
        List.getElem?_append_right (Nat.not_lt.mp hlt)]
      congr 2
      omega
  · rw [if_neg hle, if_neg hle, if_neg (by omega)]

theorem push_push (h : push bottom bytes s = some s') (h' : push bottom bytes' s' = some s'') :
    push bottom (bytes' ++ bytes) s = some s'' := by
  obtain ⟨hfit, hpointer, hmem⟩ := push_eq_some h
  obtain ⟨hfit', hpointer', hmem'⟩ := push_eq_some h'
  have hlength := @List.length_append _ bytes' bytes
  have hat : s''.pointer + bytes'.length = s'.pointer := by omega
  have hall : s.pointer - (bytes' ++ bytes).length = s''.pointer := by omega
  rw [push, if_pos (by omega), hall, ← write_append, hat, ← hmem, ← hmem']

theorem push_nil (h : bottom ≤ s.pointer) : push bottom [] s = some s := by
  have hmem : s.mem.write s.pointer [] = s.mem := by
    funext x
    rw [Buffer.write, List.getElem?_nil, Option.getD_none, ite_self]
  exact (if_pos h).trans (congrArg (fun m ↦ some (PushDown.mk s.pointer m)) hmem)

/-- So the blocks are one block. -/
theorem push_of_pushAll (hbottom : bottom ≤ s.pointer)
    (h : pushAll bottom rest s = some (addresses, s')) :
    push bottom rest.reverse.flatten s = some s' := by
  induction rest generalizing s addresses with
  | nil =>
    cases h
    exact push_nil hbottom
  | cons bytes rest ih =>
    obtain ⟨s₁, addresses', hpush, hrest, rfl⟩ := pushAll_cons_eq_some h
    obtain ⟨hfit, hpointer, -⟩ := push_eq_some hpush
    have hbelow := ih (by omega) hrest
    rw [List.reverse_cons, List.flatten_append, List.flatten_singleton]
    exact push_push hpush hbelow

end PushDown

end Felix86
