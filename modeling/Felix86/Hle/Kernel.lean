import Felix86.Hle.Mapper
import Mathlib.Data.Set.Lattice
import Mathlib.Order.CompletePartialOrder

/-!
# The host kernel the mapper talks to

A page map with the documented placement rules of the five calls, and a caller-supplied decision
to refuse. The mapper only ever asks for placements at a given address, so where the kernel would
put a mapping on its own is not modelled.

A page of a shared segment remembers the segment and the page number it starts at. The second is
what `shmdt` goes by, and it moves along when `mremap` moves the page.
-/

namespace Felix86

/-- What is at a page of the address space. -/
inductive Page
  | free
  | plain
  | attached (shmid base : ℤ)
deriving DecidableEq

/-- Where the segment of a page starts. -/
def Page.base : Page → Option ℤ
  | .free => none
  | .plain => none
  | .attached _ base => some base

@[simp] theorem Page.base_free : Page.free.base = none := rfl

theorem Page.base_eq_some {p : Page} {base : ℤ} :
    p.base = some base ↔ ∃ shmid, p = .attached shmid base := by
  cases p <;> simp [Page.base]

/-- The page after its mapping has been moved by `delta` pages. -/
def Page.shift (delta : ℤ) : Page → Page
  | .free => .free
  | .plain => .plain
  | .attached shmid base => .attached shmid (base + delta)

@[simp] theorem Page.shift_eq_free {delta : ℤ} {p : Page} : p.shift delta = .free ↔ p = .free := by
  cases p <;> simp [Page.shift]

/-- What the host decides in one call besides the rules: whether `shmctl` fails, whether the call
that changes the mappings is refused, and the `errno` of a failure. -/
structure Host where
  statFails : Bool
  refusesChange : Bool
  errno : ℕ
  errno_pos : 0 < errno

def Host.refuses (host : Host) : SysCall → Bool
  | .shmctl _ => host.statFails
  | _ => host.refusesChange

/-- The page map, `vm.mmap_min_addr`, and the sizes of the shared segments, which obey `SHMMIN`
and `SHMMAX`. -/
structure Kernel where
  minAddr : ℕ
  segsz : ℤ → Option ℕ
  segsz_bounds : ∀ shmid n, segsz shmid = some n → 0 < n ∧ n < 2 ^ 64 - 2 ^ 24
  page : ℕ → Page

namespace Kernel

variable (k : Kernel)

/-- The mapped addresses. -/
def mapped : Set ℕ := {a | k.page (a / 0x1000) ≠ .free}

/-- The page number lies in the given range of addresses. -/
def InPages (addr size p : ℕ) : Prop := addr / 0x1000 ≤ p ∧ p < (addr + size) / 0x1000

instance (addr size p : ℕ) : Decidable (InPages addr size p) := inferInstanceAs (Decidable (_ ∧ _))

/-- Nothing is mapped in the range. -/
def Vacant (addr size : ℕ) : Prop := ∀ p, InPages addr size p → k.page p = .free

/-- Everything is mapped in the range, and something at its start. -/
def Occupied (addr size : ℕ) : Prop :=
  k.page (addr / 0x1000) ≠ .free ∧ ∀ p, InPages addr size p → k.page p ≠ .free

/-- Put new pages in place of a range. -/
def fill (addr size : ℕ) (f : ℕ → Page) : Kernel :=
  { k with page := fun p ↦ if InPages addr size p then f p else k.page p }

/-- The size of a segment in memory. -/
def attachedSize (shmSegsz : ℕ) : ℕ := (shmSegsz + 0xFFF) / 0x1000 * 0x1000

/-- Where `mremap` leaves the mapping. -/
def remapTarget (oldAddress : ℕ) (flags : RemapFlags) (newAddress : ℕ) : ℕ :=
  if flags.fixed then newAddress else oldAddress

/-- The documented conditions of each call. -/
def Allows : SysCall → Prop
  | .mmap addr size _ flags _ _ =>
    (flags.fixed ∨ flags.fixedNoreplace) ∧ PageAligned addr ∧ 0 < size ∧ k.minAddr ≤ addr ∧
      (flags.fixedNoreplace → k.Vacant addr size)
  | .munmap addr size => PageAligned addr ∧ 0 < size
  | .mremap oldAddress oldSize newSize flags newAddress =>
    PageAligned oldAddress ∧ 0 < newSize ∧ k.Occupied oldAddress oldSize ∧
      (flags.fixed ∨ ¬flags.mayMove) ∧
      (flags.fixed → flags.mayMove ∧ PageAligned newAddress ∧ k.minAddr ≤ newAddress ∧
        (newAddress + newSize ≤ oldAddress ∨ oldAddress + oldSize ≤ newAddress)) ∧
      (flags.dontUnmap → flags.mayMove ∧ oldSize = newSize) ∧
      (¬flags.mayMove → k.Vacant (oldAddress + oldSize) (newSize - oldSize))
  | .shmctl shmid => (k.segsz shmid).isSome
  | .shmat shmid address flags => ∃ n, k.segsz shmid = some n ∧ PageAligned address ∧
      k.minAddr ≤ address ∧ (¬flags.remap → k.Vacant address (attachedSize n))
  | .shmdt address => ∃ p, (k.page p).base = some ((address / 0x1000 : ℕ) : ℤ)

/-- What a successful call returns. -/
def value : SysCall → ℕ
  | .mmap addr _ _ _ _ _ => addr
  | .munmap _ _ => 0
  | .mremap oldAddress _ _ flags newAddress => remapTarget oldAddress flags newAddress
  | .shmctl shmid => (k.segsz shmid).getD 0
  | .shmat _ address _ => address
  | .shmdt _ => 0

/-- What a successful call leaves behind. The pages `mremap` adds at the end belong to the mapping
it extends. -/
def after : SysCall → Kernel
  | .mmap addr size _ _ _ _ => k.fill addr size fun _ ↦ .plain
  | .munmap addr size => k.fill addr size fun _ ↦ .free
  | .mremap oldAddress oldSize newSize flags newAddress =>
    let target := remapTarget oldAddress flags newAddress
    let rest := if flags.dontUnmap then k else k.fill oldAddress oldSize fun _ ↦ .free
    rest.fill target newSize fun p ↦
      (k.page (oldAddress / 0x1000 + min (p - target / 0x1000) (oldSize / 0x1000 - 1))).shift
        ((target / 0x1000 : ℕ) - (oldAddress / 0x1000 : ℕ))
  | .shmctl _ => k
  | .shmat shmid address _ =>
    k.fill address (attachedSize ((k.segsz shmid).getD 0)) fun _ ↦
      .attached shmid (address / 0x1000 : ℕ)
  | .shmdt address =>
    { k with page := fun p ↦
        if (k.page p).base = some ((address / 0x1000 : ℕ) : ℤ) then .free else k.page p }

/-- The call succeeds: the rules allow it and the host does not refuse it. -/
def Grants (host : Host) (call : SysCall) : Prop := k.Allows call ∧ host.refuses call = false

open Classical in
/-- One system call. A call that fails changes nothing. -/
noncomputable def serve (host : Host) (k : Kernel) (call : SysCall) : Answer × Kernel :=
  if k.Grants host call then (.ok (k.value call), k.after call) else (.failed host.errno, k)

variable {k} {host : Host} {call : SysCall}

theorem serve_of_grants (h : k.Grants host call) :
    serve host k call = (.ok (k.value call), k.after call) := if_pos h

theorem serve_of_not_grants (h : ¬k.Grants host call) :
    serve host k call = (.failed host.errno, k) := if_neg h

@[simp] theorem after_segsz (k : Kernel) (call : SysCall) : (k.after call).segsz = k.segsz := by
  cases call with
  | mremap oldAddress oldSize newSize flags newAddress =>
    simp only [after, fill]
    split <;> rfl
  | _ => rfl

@[simp] theorem after_minAddr (k : Kernel) (call : SysCall) :
    (k.after call).minAddr = k.minAddr := by
  cases call with
  | mremap oldAddress oldSize newSize flags newAddress =>
    simp only [after, fill]
    split <;> rfl
  | _ => rfl

/-! ## Mapped addresses -/

theorem inPages_iff {addr size a : ℕ} (haddr : PageAligned addr) (hsize : PageAligned size) :
    InPages addr size (a / 0x1000) ↔ a ∈ Set.Ico addr (addr + size) := by
  unfold PageAligned at haddr hsize
  rw [InPages, Set.mem_Ico]
  omega

theorem inPages_div {addr size p : ℕ} (haddr : PageAligned addr) (hsize : PageAligned size) :
    InPages addr size p ↔ p * 0x1000 ∈ Set.Ico addr (addr + size) := by
  rw [← inPages_iff haddr hsize, Nat.mul_div_cancel _ (by decide)]

theorem mapped_fill_free {addr size : ℕ} (haddr : PageAligned addr) (hsize : PageAligned size) :
    (k.fill addr size fun _ ↦ .free).mapped = k.mapped \ Set.Ico addr (addr + size) := by
  ext a
  rw [Set.mem_sdiff, ← inPages_iff haddr hsize]
  simp only [mapped, fill, Set.mem_ofPred_eq]
  split <;> simp_all

theorem mapped_fill {addr size : ℕ} {f : ℕ → Page} (haddr : PageAligned addr)
    (hsize : PageAligned size) (hf : ∀ p, InPages addr size p → f p ≠ .free) :
    (k.fill addr size f).mapped = k.mapped ∪ Set.Ico addr (addr + size) := by
  ext a
  rw [Set.mem_union, ← inPages_iff haddr hsize]
  simp only [mapped, fill, Set.mem_ofPred_eq]
  split
  · next hp => simp [hf _ hp, hp]
  · next hp => simp [hp]

theorem Vacant.disjoint {addr size : ℕ} (haddr : PageAligned addr) (hsize : PageAligned size)
    (h : k.Vacant addr size) : Disjoint (Set.Ico addr (addr + size)) k.mapped := by
  refine Set.disjoint_left.mpr fun a ha hmap ↦ ?_
  exact hmap (h _ ((inPages_iff haddr hsize).mpr ha))

theorem vacant_of_disjoint {addr size : ℕ} (haddr : PageAligned addr) (hsize : PageAligned size)
    (h : Disjoint (Set.Ico addr (addr + size)) k.mapped) : k.Vacant addr size := by
  intro p hp
  by_contra hmap
  refine Set.disjoint_left.mp h ((inPages_div haddr hsize).mp hp) ?_
  rwa [mapped, Set.mem_ofPred_eq, Nat.mul_div_cancel _ (by decide)]

theorem Occupied.subset {addr size : ℕ} (haddr : PageAligned addr) (hsize : PageAligned size)
    (h : k.Occupied addr size) : Set.Ico addr (addr + size) ⊆ k.mapped :=
  fun _ ha ↦ h.2 _ ((inPages_iff haddr hsize).mpr ha)

/-- A successful `mremap` maps its target, and unmaps the old range unless told not to. -/
theorem mapped_after_mremap {oldAddress oldSize newSize newAddress : ℕ} {flags : RemapFlags}
    (hold : PageAligned oldAddress) (holdSize : PageAligned oldSize)
    (hnew : PageAligned (remapTarget oldAddress flags newAddress))
    (hnewSize : PageAligned newSize) (hocc : k.Occupied oldAddress oldSize) :
    (k.after (.mremap oldAddress oldSize newSize flags newAddress)).mapped =
      (if flags.dontUnmap then k.mapped
        else k.mapped \ Set.Ico oldAddress (oldAddress + oldSize)) ∪
      Set.Ico (remapTarget oldAddress flags newAddress)
        (remapTarget oldAddress flags newAddress + newSize) := by
  rw [after, mapped_fill hnew hnewSize]
  · split
    · rfl
    · rw [mapped_fill_free hold holdSize]
  · intro p _
    rw [Ne, Page.shift_eq_free]
    -- the page copied is the first one, or one of the old range
    rcases Nat.eq_zero_or_pos (oldSize / 0x1000 - 1) with hzero | hpos
    · rw [hzero, Nat.min_zero, Nat.add_zero]
      exact hocc.1
    · refine hocc.2 _ ⟨Nat.le_add_right _ _, ?_⟩
      unfold PageAligned at hold
      omega

end Kernel

end Felix86
