import Felix86.Common.Freelist
import Mathlib.Data.Set.Basic
import Mathlib.Logic.Function.Basic

/-!
# The guest's address space, and the calls that change it

A page of the guest is mapped to a page of memory, its frame, and the host lets it be written or
not. Two pages with the same frame show the same memory: that is what a shared mapping made twice
is.

The guest changes its mappings with six system calls. What the host kernel may do is what is
documented of it: a call changes no page outside its range, no call changes memory that was mapped,
and a call that fails may have given up some of the pages of its range already. What the emulator
adds in `hle/syscall.cpp` is which range of addresses it hands to `invalidateRangeGlobal`
afterwards.
-/

namespace Felix86

/-- What is mapped at a page. -/
structure MappedPage where
  frame : ℕ
  writable : Bool
deriving DecidableEq, Repr

/-- What is mapped where, and the bytes of the frames. Only user addresses are mapped. -/
structure AddressSpace where
  page : ℕ → Option MappedPage
  content : ℕ → ℕ → UInt8
  user : ∀ p g, page p = some g → p < 2 ^ 51

/-- The page numbers of the addresses from `start` to `stop`. -/
def pageSpan (start stop : ℕ) : Set ℕ := {p | ∃ a, start ≤ a ∧ a < stop ∧ p = a / 0x1000}

namespace AddressSpace

variable (m : AddressSpace)

/-- The byte at an address, if something is mapped there. -/
def byte (a : ℕ) : Option UInt8 :=
  (m.page (a / 0x1000)).map fun g ↦ m.content g.frame (a % 0x1000)

/-- `mprotect` on the pages from `first` up to `last`. -/
def protect (first last : ℕ) (writable : Bool) : AddressSpace where
  page p :=
    if first ≤ p ∧ p < last then (m.page p).map fun g ↦ { g with writable := writable }
    else m.page p
  content := m.content
  user p g hg := by
    split at hg
    · obtain ⟨g₀, hg₀, -⟩ := Option.map_eq_some_iff.mp hg
      exact m.user p g₀ hg₀
    · exact m.user p g hg

/-- A store that the host lets through. -/
def write (a : ℕ) (v : UInt8) : AddressSpace :=
  match m.page (a / 0x1000) with
  | none => m
  | some g =>
    let shown := Function.update (m.content g.frame) (a % 0x1000) v
    { m with content := Function.update m.content g.frame shown }

variable {m}

@[simp] theorem byte_protect {first last : ℕ} {writable : Bool} (a : ℕ) :
    (m.protect first last writable).byte a = m.byte a := by
  rw [byte, protect]
  dsimp only
  split
  · rw [Option.map_map]
    rfl
  · rfl

theorem page_protect_of_notMem {first last p : ℕ} {writable : Bool} (h : ¬(first ≤ p ∧ p < last)) :
    (m.protect first last writable).page p = m.page p := if_neg h

theorem page_protect_of_mem {first last p : ℕ} {writable : Bool} {g : MappedPage}
    (h : first ≤ p ∧ p < last) (hg : m.page p = some g) :
    (m.protect first last writable).page p = some { g with writable := writable } := by
  rw [protect]
  simp only [if_pos h, hg, Option.map_some]

@[simp] theorem page_write (a : ℕ) (v : UInt8) : (m.write a v).page = m.page := by
  rw [write]
  split <;> rfl

/-- A store changes what the pages with its frame show, and nothing else. -/
theorem byte_write {a b : ℕ} (v : UInt8)
    (h : ∀ g g', m.page (a / 0x1000) = some g → m.page (b / 0x1000) = some g' →
      g'.frame ≠ g.frame) : (m.write a v).byte b = m.byte b := by
  rw [byte, byte, page_write]
  refine Option.map_congr fun g' hg' ↦ ?_
  rw [write]
  split
  · rfl
  · next g hg =>
    dsimp only
    rw [Function.update_of_ne (h g g' hg hg')]

/-- The bytes of a page that is kept, frame and content. -/
theorem byte_congr {m' : AddressSpace} {a : ℕ}
    (hpage : m'.page (a / 0x1000) = m.page (a / 0x1000) ∨
      (m'.page (a / 0x1000)).map MappedPage.frame = (m.page (a / 0x1000)).map MappedPage.frame)
    (hcontent : ∀ g, m.page (a / 0x1000) = some g → m'.content g.frame = m.content g.frame) :
    m'.byte a = m.byte a := by
  have hframe : (m'.page (a / 0x1000)).map MappedPage.frame =
      (m.page (a / 0x1000)).map MappedPage.frame := by
    rcases hpage with h | h
    · rw [h]
    · exact h
  have hbyte (m : AddressSpace) : m.byte a =
      ((m.page (a / 0x1000)).map MappedPage.frame).map fun f ↦ m.content f (a % 0x1000) := by
    rw [Option.map_map]
    rfl
  rw [hbyte, hbyte, hframe]
  refine Option.map_congr fun f hf ↦ ?_
  obtain ⟨g, hg, rfl⟩ := Option.map_eq_some_iff.mp hf
  rw [hcontent g hg]

end AddressSpace

/-! ## The system calls -/

/-- The calls that change mappings. Sizes are as the guest passes them; the size of a segment is the
kernel's to know. -/
inductive MemoryCall
  | mprotect (start size : ℕ) (write : Bool)
  | mmap (addr size : ℕ)
  | munmap (addr size : ℕ)
  | mremap (oldAddress oldSize newSize newAddress : ℕ)
  | shmat (address segsz : ℕ)
  | shmdt (address segsz : ℕ)
deriving DecidableEq, Repr

namespace MemoryCall

/-- Where a call that places memory was asked or has decided to place it. -/
def place (asked : ℕ) (result : ℤ) : ℕ := if 0 ≤ result then result.toNat else asked

/-- The pages a call may change, given what it returned. -/
def touched : MemoryCall → ℤ → Set ℕ
  | mprotect start size _, _ => pageSpan start (start + size)
  | mmap addr size, result => pageSpan (place addr result) (place addr result + size)
  | munmap addr size, _ => pageSpan addr (addr + size)
  | mremap oldAddress oldSize newSize newAddress, result =>
    pageSpan oldAddress (oldAddress + oldSize) ∪
      pageSpan (place newAddress result) (place newAddress result + newSize)
  | shmat address segsz, result => pageSpan (place address result) (place address result + segsz)
  | shmdt address segsz, _ => pageSpan address (address + segsz)

/-- What a page of the range can be after the call. The source of `mremap` is gone, or new memory
with `MREMAP_DONTUNMAP`, or still there if nothing was moved. -/
def Leaves (m : AddressSpace) : MemoryCall → ℤ → ℕ → Option MappedPage → Prop
  | mprotect _ _ write, result, p, g =>
    g = (m.page p).map (fun g ↦ { g with writable := write }) ∨ (result ≠ 0 ∧ g = m.page p)
  | munmap _ _, result, p, g => if result = 0 then g = none else g = m.page p
  | mremap _ _ newSize _, result, p, g =>
    if 0 ≤ result then p ∈ pageSpan result.toNat (result.toNat + newSize) → g.isSome
    else g = none ∨ g = m.page p
  | shmdt _ _, result, p, g => g = m.page p ∨ (result = 0 ∧ g = none)
  | _, result, p, g => if 0 ≤ result then g.isSome else g = none ∨ g = m.page p

/-- The end of the range the emulator invalidates, as far as the kernel has accepted it. -/
def stop : MemoryCall → ℤ → ℕ
  | mprotect start size _, _ => start + size
  | mmap _ size, result => result.toNat + size
  | mremap _ _ newSize _, result => result.toNat + newSize
  | _, _ => 0

/-- What the host kernel may do. It accepts user addresses only. -/
structure Serves (m : AddressSpace) (call : MemoryCall) (result : ℤ)
    (m' : AddressSpace) : Prop where
  outside : ∀ p ∉ call.touched result, m'.page p = m.page p
  inside : ∀ p ∈ call.touched result, call.Leaves m result p (m'.page p)
  content : ∀ p g, m.page p = some g → m'.content g.frame = m.content g.frame
  user : 0 ≤ result → call.stop result ≤ 2 ^ 63

/-- The range that the emulator invalidates after the call. -/
def invalidates : MemoryCall → ℤ → Option (ℕ × ℕ)
  | mprotect start size write, result =>
    if write ∧ result = 0 then some (start, u64 (start + size)) else none
  | mmap _ size, result =>
    if 0 < result then some (result.toNat, u64 (result.toNat + size)) else none
  | mremap _ _ newSize _, result =>
    if 0 < result then some (result.toNat, u64 (result.toNat + newSize)) else none
  | _, _ => none

/-- The pages that a call may change although the emulator does not invalidate them: `munmap`,
`shmat` and `shmdt` invalidate nothing, `mremap` not the place it moves from, and no call does if it
fails, or if it returns zero as an address. -/
def unseen : MemoryCall → ℤ → Set ℕ
  | mprotect start size write, result =>
    {p | write = true ∧ result ≠ 0 ∧ p ∈ pageSpan start (start + size)}
  | mmap addr size, result =>
    {p | ¬0 < result ∧ p ∈ pageSpan (place addr result) (place addr result + size)}
  | mremap oldAddress oldSize newSize newAddress, result =>
    if 0 < result then
      pageSpan oldAddress (oldAddress + oldSize) \ pageSpan result.toNat (result.toNat + newSize)
    else (mremap oldAddress oldSize newSize newAddress).touched result
  | call, result => call.touched result

variable {m m' : AddressSpace} {call : MemoryCall} {result : ℤ}

theorem Serves.le_of_invalidates (h : call.Serves m result m') {start stop : ℕ}
    (hinv : call.invalidates result = some (start, stop)) : stop ≤ 2 ^ 63 := by
  have huser := h.user
  cases call with
  | mprotect start' size write =>
    simp only [invalidates, Option.ite_none_right_eq_some, Option.some.injEq, Prod.mk.injEq] at hinv
    obtain ⟨⟨-, rfl⟩, -, rfl⟩ := hinv
    exact (Nat.mod_le _ _).trans (huser le_rfl)
  | mmap addr size =>
    simp only [invalidates, Option.ite_none_right_eq_some, Option.some.injEq, Prod.mk.injEq] at hinv
    obtain ⟨hpos, -, rfl⟩ := hinv
    exact (Nat.mod_le _ _).trans (huser hpos.le)
  | mremap oldAddress oldSize newSize newAddress =>
    simp only [invalidates, Option.ite_none_right_eq_some, Option.some.injEq, Prod.mk.injEq] at hinv
    obtain ⟨hpos, -, rfl⟩ := hinv
    exact (Nat.mod_le _ _).trans (huser hpos.le)
  | munmap addr size => cases hinv
  | shmat address segsz => cases hinv
  | shmdt address segsz => cases hinv

theorem u64_of_le {n : ℕ} (h : n ≤ 2 ^ 63) : u64 n = n := Nat.mod_eq_of_lt (by omega)

theorem place_of_pos {asked : ℕ} (h : 0 < result) : place asked result = result.toNat :=
  if_pos h.le

/-- A page that the call leaves alone unless the emulator knows of it is kept, or at most locked. -/
theorem Serves.page_eq_or (h : call.Serves m result m') {p : ℕ}
    (hunseen : p ∈ call.unseen result → m'.page p = m.page p)
    (hseen : ∀ start stop, call.invalidates result = some (start, stop) → p ∉ pageSpan start stop) :
    m'.page p = m.page p ∨ m'.page p = (m.page p).map fun g ↦ { g with writable := false } := by
  by_cases hp : p ∈ call.touched result
  swap
  · exact Or.inl (h.outside p hp)
  have hleaves := h.inside p hp
  have huser := h.user
  cases call with
  | mprotect start size write =>
    cases write with
    | false => exact hleaves.symm.imp And.right id
    | true =>
      by_cases hzero : result = 0
      · subst hzero
        refine absurd hp (hseen start (start + size) ?_)
        have hstop : u64 (start + size) = start + size := u64_of_le (huser le_rfl)
        rw [invalidates, hstop]
        rfl
      · exact Or.inl (hunseen ⟨rfl, hzero, hp⟩)
  | mmap addr size =>
    by_cases hpos : 0 < result
    · rw [touched, place_of_pos hpos] at hp
      have hstop : u64 (result.toNat + size) = result.toNat + size := u64_of_le (huser hpos.le)
      refine absurd hp (hseen _ _ ?_)
      rw [invalidates, if_pos hpos, hstop]
    · exact Or.inl (hunseen ⟨hpos, hp⟩)
  | mremap oldAddress oldSize newSize newAddress =>
    refine Or.inl (hunseen ?_)
    rw [unseen]
    split
    · next hpos =>
      have hnew : p ∉ pageSpan result.toNat (result.toNat + newSize) := by
        have hstop : u64 (result.toNat + newSize) = result.toNat + newSize :=
          u64_of_le (huser hpos.le)
        refine hseen _ _ ?_
        rw [invalidates, if_pos hpos, hstop]
      rw [touched, place_of_pos hpos] at hp
      exact ⟨hp.resolve_right hnew, hnew⟩
    · exact hp
  | munmap addr size => exact Or.inl (hunseen hp)
  | shmat address segsz => exact Or.inl (hunseen hp)
  | shmdt address segsz => exact Or.inl (hunseen hp)

end MemoryCall

end Felix86
