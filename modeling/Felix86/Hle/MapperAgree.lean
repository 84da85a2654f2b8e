import Felix86.Common.FreelistProgress
import Felix86.Hle.Kernel
import Felix86.Lib.Run
import Mathlib.Order.Interval.Set.Disjoint

/-!
# The mapper and the kernel agree

The low pages missing from the freelist should be the ones the guest has mapped, after every call
and whatever the kernel answers. The five functions update the two sides in different orders, and
in several of them a failure in between is not undone: `map32` keeps a range the kernel then
refuses, `remap32` and `shmat32` end the process there, and `shmdt32` gives a segment back before it
knows whether it will be detached. `CallOk` is the condition under which a call does none of this,
told from its arguments, the state before it and the host's decisions.

## The shape of the argument

`Tracks` is what is kept between calls: the freelist is exact for the unmapped part of the low
space, and nothing is mapped below `vm.mmap_min_addr`. Every function's effect is that some pages
`gone` leave the page map and some pages `added` enter it, and `Tracks.of_mapped` is the one place
where list and page map are compared. For each function a `served_` lemma plays its code against
the kernel, once for a grant and once for a refusal.
-/

namespace Felix86

open ClosedRange Freelist Mapper

/-! ## Playing the mapper's code against the kernel -/

section Run

variable (host : Host) (k : Kernel) {m : Mapper} {α : Type} {addr size : ℕ} {list' : List Node}

theorem run_assert_bind {c : Prop} [Decidable c] (hc : c) (f : PUnit → Code α) :
    Dialogue.run (Kernel.serve host) k (Mapper.assert c >>= f) =
      Dialogue.run (Kernel.serve host) k (f ⟨⟩) :=
  Dialogue.run_require_bind hc _ f

theorem u32_of_lt {a : ℕ} (h : a < 2 ^ 32) : u32 a = a := Nat.mod_eq_of_lt h

theorem run_allocate {reply : Reply} (haddr : addr < 2 ^ 32)
    (h : Freelist.allocate m.freelist addr size = .ok (reply, list')) :
    Dialogue.run (Kernel.serve host) k (m.allocate addr size) =
      (.ok (reply, { m with freelist := list' }), k) := by
  rw [← u32_of_lt haddr] at h
  rw [Mapper.allocate, Dialogue.run_ofExcept_bind h, Dialogue.run_pure]

theorem run_deallocate (haddr : addr < 2 ^ 32)
    (h : Freelist.deallocate m.freelist addr size = .ok list') :
    Dialogue.run (Kernel.serve host) k (m.deallocate addr size) =
      (.ok { m with freelist := list' }, k) := by
  rw [← u32_of_lt haddr] at h
  rw [Mapper.deallocate, Dialogue.run_ofExcept_bind h, Dialogue.run_pure]

end Run

theorem roundUp_aligned (size : ℕ) : PageAligned (roundUp size) := by
  rw [PageAligned, roundUp]
  omega

/-! ## The system -/

/-- The mapper and the kernel it runs on. -/
structure System where
  mapper : Mapper
  kernel : Kernel

/-- A page-aligned address below 4 GiB. -/
structure GuestPage where
  addr : ℕ
  lt : addr < 2 ^ 32
  aligned : PageAligned addr

theorem GuestPage.lt_uint32Max (p : GuestPage) : p.addr < uint32Max := by
  have h₁ := p.lt
  have h₂ := p.aligned
  unfold PageAligned at h₂
  unfold uint32Max
  omega

/-- A call of the mapper. -/
inductive Request
  | map32 (addr : GuestPage) (size : Fin (2 ^ 64)) (prot : ℕ) (flags : MapFlags) (fd : ℤ)
      (offset : ℕ)
  | unmap32 (addr : GuestPage) (size : Fin (2 ^ 64))
  | remap32 (oldAddress : GuestPage) (oldSize newSize : Fin (2 ^ 64)) (flags : RemapFlags)
      (newAddress : GuestPage)
  | shmat32 (shmid : ℤ) (address : GuestPage) (flags : ShmFlags)
  | shmdt32 (address : GuestPage)

def Request.code (m : Mapper) : Request → Code (ℤ × Mapper)
  | map32 addr size prot flags fd offset => m.map32 addr.addr size prot flags fd offset
  | unmap32 addr size => m.unmap32 addr.addr size
  | remap32 oldAddress oldSize newSize flags newAddress =>
    m.remap32 oldAddress.addr oldSize newSize flags newAddress.addr
  | shmat32 shmid address flags => do
    let ((result, _), m) ← m.shmat32 shmid address.addr flags
    return (result, m)
  | shmdt32 address => m.shmdt32 address.addr

/-- What the freelist should cover. -/
def Kernel.guestFree (k : Kernel) : Set ℕ := Set.Ico k.minAddr (2 ^ 32) \ k.mapped

/-- What `shmdt` takes away. -/
def Kernel.detached (k : Kernel) (host : Host) (address : ℕ) : Set ℕ :=
  {a | host.refusesChange = false ∧
    (k.page (a / 0x1000)).base = some ((address / 0x1000 : ℕ) : ℤ)}

namespace System

/-- The code ends with a result and in the given system. -/
def Ends (s : System) (host : Host) (code : Code (ℤ × Mapper)) (result : ℤ) (t : System) : Prop :=
  code.run (Kernel.serve host) s.kernel = (.ok (result, t.mapper), t.kernel)

/-- A call that returned, with what the host decided in it. -/
def Step (s : System) (call : Request × Host) (t : System) : Prop :=
  ∃ result, s.Ends call.2 (call.1.code s.mapper) result t

/-- The low pages missing from the freelist are those the guest has mapped. -/
def Agree (s : System) : Prop := ∀ a ∈ Set.Ico s.kernel.minAddr (2 ^ 32),
  a ∉ cover s.mapper.freelist ↔ a ∈ s.kernel.mapped

/-- Before the first call: nothing is mapped and the freelist is new. -/
structure Initial (s : System) : Prop where
  unmapped : ∀ p, s.kernel.page p = .free
  list_eq : s.mapper.freelist = Freelist.initial s.kernel.minAddr
  shmid_eq : ∀ a, s.mapper.pageToShmid a = none
  min_pos : 0 < s.kernel.minAddr
  min_lt : s.kernel.minAddr < 2 ^ 32
  min_aligned : PageAligned s.kernel.minAddr

/-- What is kept between calls: exactness, and that nothing lives below `vm.mmap_min_addr`. -/
structure Tracks (s : System) : Prop where
  exact : Exact s.mapper.freelist s.kernel.guestFree
  above : ∀ a ∈ s.kernel.mapped, s.kernel.minAddr ≤ a
  shmids : ∀ a shmid, s.mapper.pageToShmid a = some shmid → s.kernel.minAddr ≤ a
  min_pos : 0 < s.kernel.minAddr
  min_aligned : PageAligned s.kernel.minAddr

/-- The call returns, keeps the agreement, and on failure leaves the freelist as it was. -/
def Served (s : System) (host : Host) (code : Code (ℤ × Mapper)) : Prop :=
  ∃ result t, s.Ends host code result t ∧ t.Tracks ∧
    (result < 0 → t.mapper.freelist = s.mapper.freelist)

variable {s : System} {host : Host}

theorem Tracks.agree (h : s.Tracks) : s.Agree := by
  intro a ha
  rw [h.exact.cover_eq, Kernel.guestFree, Set.mem_sdiff, not_and_not_right]
  exact ⟨fun himp ↦ himp ha, fun hmap _ ↦ hmap⟩

theorem Initial.tracks (h : s.Initial) : s.Tracks := by
  have hmap : s.kernel.mapped = ∅ := by
    refine Set.eq_empty_of_forall_notMem fun a ha ↦ ha (h.unmapped _)
  refine ⟨?_, ?_, ?_, h.min_pos, h.min_aligned⟩
  · have hexact := exact_initial s.kernel.minAddr
    have hset : (State.initial s.kernel.minAddr).free = s.kernel.guestFree := by
      rw [State.initial, Kernel.guestFree, hmap, Set.sdiff_empty, u32_of_lt h.min_lt]
      ext a
      simp only [Set.mem_Icc, Set.mem_Ico, uint32Max]
      omega
    rw [hset] at hexact
    rw [h.list_eq]
    exact hexact
  · simp [hmap]
  · simp [h.shmid_eq]

theorem Tracks.paged (h : s.Tracks) : Paged s.kernel.guestFree := by
  rintro a b hab ⟨⟨hlo, hhi⟩, hmap⟩
  have hmin := h.min_aligned
  unfold PageAligned at hmin
  refine ⟨⟨by omega, by omega⟩, fun hb ↦ hmap ?_⟩
  rw [Kernel.mapped, Set.mem_ofPred_eq, hab]
  exact hb

theorem Tracks.zero_notMem (h : s.Tracks) : 0 ∉ s.kernel.guestFree := by
  rintro ⟨⟨hlo, -⟩, -⟩
  exact absurd h.min_pos (Nat.not_lt.mpr hlo)

/-- What the freelist should cover after `gone` was unmapped and `added` mapped. -/
theorem guestFree_of_mapped {k k' : Kernel} {gone added : Set ℕ} (hmin : k'.minAddr = k.minAddr)
    (hmap : k'.mapped = k.mapped \ gone ∪ added) (hgone : gone ⊆ Set.Ico k.minAddr (2 ^ 32)) :
    k'.guestFree = (k.guestFree ∪ gone) \ added := by
  ext a
  have := @hgone a
  simp only [Kernel.guestFree, hmin, hmap, Set.mem_sdiff, Set.mem_union]
  tauto

/-- The state after a call whose effect on list and kernel is known. -/
theorem Tracks.of_mapped (h : s.Tracks) {t : System} (gone added : Set ℕ)
    (hmin : t.kernel.minAddr = s.kernel.minAddr)
    (hmap : t.kernel.mapped = s.kernel.mapped \ gone ∪ added)
    (hgone : gone ⊆ Set.Ico s.kernel.minAddr (2 ^ 32))
    (hadded : ∀ a ∈ added, s.kernel.minAddr ≤ a)
    (hexact : Exact t.mapper.freelist ((s.kernel.guestFree ∪ gone) \ added))
    (hshm : ∀ a shmid, t.mapper.pageToShmid a = some shmid → s.kernel.minAddr ≤ a) :
    t.Tracks := by
  refine ⟨?_, ?_, ?_, ?_, ?_⟩
  · rwa [guestFree_of_mapped hmin hmap hgone]
  · intro a ha
    rw [hmap] at ha
    rw [hmin]
    rcases ha with ha | ha
    · exact h.above a ha.1
    · exact hadded a ha
  · rwa [hmin]
  · exact hmin ▸ h.min_pos
  · exact hmin ▸ h.min_aligned

/-- A call that failed in the kernel before the freelist was touched. -/
theorem Tracks.served_unchanged (h : s.Tracks) {code : Code (ℤ × Mapper)} (result : ℤ)
    (hend : s.Ends host code result s) : s.Served host code :=
  ⟨result, s, hend, h, fun _ ↦ rfl⟩

/-- An unmapped range of the low space is free. -/
theorem Tracks.subset_guestFree {addr size : ℕ} (haddr : PageAligned addr)
    (hsize : PageAligned size) (hmin : s.kernel.minAddr ≤ addr) (hfit : addr + size ≤ 2 ^ 32)
    (hvac : s.kernel.Vacant addr size) : Set.Ico addr (addr + size) ⊆ s.kernel.guestFree := by
  intro a ha
  refine ⟨⟨hmin.trans ha.1, ha.2.trans_le hfit⟩, ?_⟩
  exact Set.disjoint_left.mp (hvac.disjoint haddr hsize) ha

/-! ## `map32` -/

/-- The range the kernel has just mapped is free in the list that `map32` then allocates from. -/
theorem run_makeRoom (h : s.Tracks) (addr : GuestPage) {size : ℕ} (hsize : PageAligned size)
    {flags : MapFlags} (hsub : ¬flags.fixed → Set.Ico addr.addr (addr.addr + size) ⊆
      s.kernel.guestFree) (hok : flags.fixed → DeallocateOk s.mapper.freelist addr.addr size)
    (host : Host) (k : Kernel) :
    ∃ list', Exact list' (s.kernel.guestFree ∪ Set.Ico addr.addr (addr.addr + size)) ∧
      Dialogue.run (Kernel.serve host) k (s.mapper.makeRoom flags addr.addr size) =
        (.ok { s.mapper with freelist := list' }, k) := by
  rw [makeRoom]
  by_cases hfix : flags.fixed = true
  · obtain ⟨list', hret, hexact⟩ := h.exact.deallocate_of_ok addr.aligned hsize (hok hfix)
    refine ⟨list', hexact, ?_⟩
    rw [if_pos hfix, run_assert_bind _ _ addr.lt_uint32Max]
    exact run_deallocate host k addr.lt hret
  · refine ⟨s.mapper.freelist, ?_, ?_⟩
    · rw [Set.union_eq_self_of_subset_right (hsub hfix)]
      exact h.exact
    · rw [if_neg hfix]
      rfl

theorem served_map32Fixed (h : s.Tracks) (addr : GuestPage) {size : ℕ} (hsize : PageAligned size)
    (prot : ℕ) {flags : MapFlags} (fd : ℤ) (offset : ℕ)
    (hok : s.kernel.Grants host (.mmap addr.addr size prot flags fd offset) →
      addr.addr + size ≤ 2 ^ 32 ∧
        (flags.fixed → DeallocateOk s.mapper.freelist addr.addr size)) :
    s.Served host (s.mapper.map32Fixed addr.addr size prot flags fd offset) := by
  by_cases hg : s.kernel.Grants host (.mmap addr.addr size prot flags fd offset)
  · obtain ⟨hfit, hdealloc⟩ := hok hg
    obtain ⟨⟨hflag, -, hpos, hmin, hvac⟩, -⟩ := id hg
    set k' := s.kernel.after (.mmap addr.addr size prot flags fd offset) with hk'
    have hsub : ¬flags.fixed → Set.Ico addr.addr (addr.addr + size) ⊆ s.kernel.guestFree :=
      fun hfix ↦
        Tracks.subset_guestFree addr.aligned hsize hmin hfit (hvac (hflag.resolve_left hfix))
    obtain ⟨list', hexact', hroom⟩ := run_makeRoom h addr hsize hsub hdealloc host k'
    have hne : addr.addr ≠ 0 := (h.min_pos.trans_le hmin).ne'
    obtain ⟨list'', hret, hexact''⟩ := hexact'.allocate_of_subset addr.aligned hsize hne hpos hfit
      Set.subset_union_right
    refine ⟨addr.addr, ⟨{ s.mapper with freelist := list'' }, k'⟩, ?_, ?_, fun hneg ↦ ?_⟩
    · have halloc := run_allocate host k' (m := { s.mapper with freelist := list' }) addr.lt hret
      rw [Ends, map32Fixed, run_assert_bind _ _ addr.lt_uint32Max, Dialogue.run_query_bind,
        Kernel.serve_of_grants hg]
      refine (Dialogue.run_bind_of_ok _ hroom).trans ((Dialogue.run_bind_of_ok _ halloc).trans ?_)
      exact run_assert_bind host k' (c := pointer (.address addr.addr) = addr.addr) rfl _
    · refine h.of_mapped ∅ (Set.Ico addr.addr (addr.addr + size)) rfl ?_ (Set.empty_subset _)
        (fun a ha ↦ hmin.trans ha.1) ?_ h.shmids
      · rw [Set.sdiff_empty]
        exact Kernel.mapped_fill addr.aligned hsize fun _ _ ↦ Page.noConfusion
      · rw [Set.union_empty]
        rwa [Set.union_sdiff_right] at hexact''
    · omega
  · refine h.served_unchanged (-host.errno) ?_
    rw [Ends, map32Fixed, run_assert_bind _ _ addr.lt_uint32Max, Dialogue.run_query_bind,
      Kernel.serve_of_not_grants hg]
    rfl

/-- What a search without an address offers: the start of a node, free in the kernel too. -/
structure Offer (s : System) (size : ℕ) (best : Node) (list' : List Node) : Prop where
  mem : best ∈ s.mapper.freelist
  found : findBest size s.mapper.freelist = some best
  fits : size ≤ extent best
  allocated : Freelist.allocate s.mapper.freelist 0 size = .ok (.address best.start, list')
  exact : Exact list' (s.kernel.guestFree \ Set.Ico best.start (best.start + size))
  unchanged : size = 0 → list' = s.mapper.freelist
  aligned : PageAligned best.start
  min_le : s.kernel.minAddr ≤ best.start
  lt : best.start < 2 ^ 32
  vacant : s.kernel.Vacant best.start size

theorem Tracks.exists_offer (h : s.Tracks) {size : ℕ} (hsize : PageAligned size)
    (hlarge : ¬∀ n ∈ s.mapper.freelist, extent n < size) :
    ∃ best list', s.Offer size best list' := by
  obtain ⟨best, hmem, list', hbest, hle, hret, hexact, hzero⟩ :=
    h.exact.allocate_zero h.paged h.zero_notMem hsize hlarge
  have haligned := h.exact.start_aligned h.paged hmem
  have hsub : Set.Icc best.start best.stop ⊆ s.kernel.guestFree := fun x hx ↦
    h.exact.cover_eq ▸ ⟨best, hmem, hx⟩
  have hstart := hsub ⟨le_rfl, h.exact.canonical.nonempty best hmem⟩
  refine ⟨best, list', hmem, hbest, hle, hret, hexact, hzero, haligned, hstart.1.1, hstart.1.2, ?_⟩
  refine Kernel.vacant_of_disjoint haligned hsize (Set.disjoint_left.mpr fun x hx ↦ ?_)
  refine (hsub ⟨hx.1, ?_⟩).2
  obtain ⟨hlo, hhi⟩ := hx
  unfold extent at hle
  omega

theorem served_map32Anywhere (h : s.Tracks) {size : ℕ} (hsize : PageAligned size) (prot : ℕ)
    (flags : MapFlags) (fd : ℤ) (offset : ℕ)
    (hok : host.refusesChange → size = 0 ∨ ∀ n ∈ s.mapper.freelist, extent n < size) :
    s.Served host (s.mapper.map32Anywhere size prot flags fd offset) := by
  by_cases hsmall : ∀ n ∈ s.mapper.freelist, extent n < size
  · have hret := allocate_zero_of_small h.exact h.zero_notMem hsize hsmall
    refine h.served_unchanged (-enomem) ?_
    rw [Ends, map32Anywhere]
    exact Dialogue.run_bind_of_ok _ (run_allocate host s.kernel (by decide) hret)
  · obtain ⟨best, list', ho⟩ := h.exists_offer hsize hsmall
    have halloc := run_allocate host s.kernel (by decide) ho.allocated
    set call : SysCall :=
      .mmap best.start size prot { flags with fixedNoreplace := true } fd offset
    by_cases hg : s.kernel.Grants host call
    · refine ⟨best.start, ⟨{ s.mapper with freelist := list' }, s.kernel.after call⟩, ?_, ?_,
        fun hneg ↦ ?_⟩
      · rw [Ends, map32Anywhere]
        refine (Dialogue.run_bind_of_ok _ halloc).trans ?_
        refine (Dialogue.run_query_bind _ _).trans ?_
        rw [Kernel.serve_of_grants hg]
        exact run_assert_bind host _ (c := best.start = best.start) rfl _
      · refine h.of_mapped ∅ (Set.Ico best.start (best.start + size)) rfl ?_ (Set.empty_subset _)
          (fun a ha ↦ ho.min_le.trans ha.1) ?_ h.shmids
        · rw [Set.sdiff_empty]
          exact Kernel.mapped_fill ho.aligned hsize fun _ _ ↦ Page.noConfusion
        · rw [Set.union_empty]
          exact ho.exact
      · omega
    · -- the rules allow the placement, so it was refused, and then nothing was taken
      have hempty : size = 0 := by
        by_contra hpos
        have hallows : s.kernel.Allows call :=
          ⟨Or.inr rfl, ho.aligned, Nat.pos_of_ne_zero hpos, ho.min_le, fun _ ↦ ho.vacant⟩
        have hrefuse : host.refusesChange = true := by
          by_contra hno
          exact hg ⟨hallows, Bool.eq_false_of_not_eq_true hno⟩
        exact (hok hrefuse).elim hpos hsmall
      rw [ho.unchanged hempty] at halloc
      refine h.served_unchanged (-host.errno) ?_
      rw [Ends, map32Anywhere]
      refine (Dialogue.run_bind_of_ok _ halloc).trans ?_
      refine (Dialogue.run_query_bind _ _).trans ?_
      rw [Kernel.serve_of_not_grants hg]
      rfl

/-! ## `unmap32` -/

theorem served_unmap32 (h : s.Tracks) (addr : GuestPage) (size : ℕ)
    (hok : s.kernel.Grants host (.munmap addr.addr (roundUp size)) → s.kernel.minAddr ≤ addr.addr ∧
      DeallocateOk s.mapper.freelist addr.addr (roundUp size)) :
    s.Served host (s.mapper.unmap32 addr.addr size) := by
  have hsize := roundUp_aligned size
  by_cases hg : s.kernel.Grants host (.munmap addr.addr (roundUp size))
  · obtain ⟨hmin, hdealloc⟩ := hok hg
    obtain ⟨list', hret, hexact⟩ := h.exact.deallocate_of_ok addr.aligned hsize hdealloc
    refine ⟨(0 : ℕ), ⟨{ s.mapper with freelist := list' },
      s.kernel.after (.munmap addr.addr (roundUp size))⟩, ?_, ?_, fun hneg ↦ ?_⟩
    · rw [Ends, unmap32, run_assert_bind _ _ addr.lt_uint32Max, Dialogue.run_query_bind,
        Kernel.serve_of_grants hg]
      exact Dialogue.run_bind_of_ok _ (run_deallocate host _ addr.lt hret)
    · refine h.of_mapped (Set.Ico addr.addr (addr.addr + roundUp size)) ∅ rfl ?_ ?_ (by simp) ?_
        h.shmids
      · rw [Set.union_empty]
        exact Kernel.mapped_fill_free addr.aligned hsize
      · exact Set.Ico_subset_Ico hmin hdealloc.2.1
      · rwa [Set.sdiff_empty]
    · omega
  · refine h.served_unchanged (-host.errno) ?_
    rw [Ends, unmap32, run_assert_bind _ _ addr.lt_uint32Max, Dialogue.run_query_bind,
      Kernel.serve_of_not_grants hg]
    rfl

/-! ## `remap32` -/

/-- The part of the old range that `remap32` gives back. -/
def released (flags : RemapFlags) (oldAddress oldSize : ℕ) : Set ℕ :=
  if flags.dontUnmap then ∅ else Set.Ico oldAddress (oldAddress + oldSize)

/-- A range that is mapped and may be given back is part of the low space. -/
theorem Tracks.released_subset (h : s.Tracks) {oldAddress : GuestPage} {oldSize : ℕ}
    (hsize : PageAligned oldSize) {flags : RemapFlags}
    (hocc : s.kernel.Occupied oldAddress.addr oldSize)
    (hfit : ¬flags.dontUnmap → oldAddress.addr + oldSize ≤ 2 ^ 32) :
    released flags oldAddress.addr oldSize ⊆ Set.Ico s.kernel.minAddr (2 ^ 32) := by
  rw [released]
  split
  · exact Set.empty_subset _
  · next hflag =>
    intro a ha
    have hmap := hocc.subset oldAddress.aligned hsize ha
    exact ⟨h.above a hmap, ha.2.trans_le (hfit hflag)⟩

theorem run_releaseOld {m : Mapper} {free : Set ℕ} (hexact : Exact m.freelist free)
    (oldAddress : GuestPage) {oldSize : ℕ} (hsize : PageAligned oldSize) {flags : RemapFlags}
    (hok : ¬flags.dontUnmap → DeallocateOk m.freelist oldAddress.addr oldSize) (host : Host)
    (k : Kernel) :
    ∃ list', Exact list' (free ∪ released flags oldAddress.addr oldSize) ∧
      Dialogue.run (Kernel.serve host) k (m.releaseOld flags oldAddress.addr oldSize) =
        (.ok { m with freelist := list' }, k) := by
  rw [releaseOld, released]
  split
  · exact ⟨m.freelist, by rwa [Set.union_empty], rfl⟩
  · next hflag =>
    obtain ⟨list', hret, hexact'⟩ := hexact.deallocate_of_ok oldAddress.aligned hsize (hok hflag)
    exact ⟨list', hexact', run_deallocate host k oldAddress.lt hret⟩

theorem mapped_after_remap {k : Kernel} (oldAddress newAddress : GuestPage) {oldSize newSize : ℕ}
    (holdSize : PageAligned oldSize) (hnewSize : PageAligned newSize) {flags : RemapFlags}
    (hocc : k.Occupied oldAddress.addr oldSize)
    (htarget : Kernel.remapTarget oldAddress.addr flags newAddress.addr = newAddress.addr) :
    (k.after (.mremap oldAddress.addr oldSize newSize flags newAddress.addr)).mapped =
      k.mapped \ released flags oldAddress.addr oldSize ∪
        Set.Ico newAddress.addr (newAddress.addr + newSize) := by
  have hnew : PageAligned (Kernel.remapTarget oldAddress.addr flags newAddress.addr) := by
    rw [htarget]
    exact newAddress.aligned
  rw [Kernel.mapped_after_mremap oldAddress.aligned holdSize hnew hnewSize hocc, htarget, released]
  split
  · rw [Set.sdiff_empty]
  · rfl

theorem served_remap32Fixed (h : s.Tracks) (oldAddress newAddress : GuestPage)
    {oldSize newSize : ℕ} (holdSize : PageAligned oldSize) (hnewSize : PageAligned newSize)
    {flags : RemapFlags}
    (hok : s.kernel.Grants host
        (.mremap oldAddress.addr oldSize newSize flags newAddress.addr) →
      newAddress.addr + newSize ≤ 2 ^ 32 ∧
        (if flags.fixed then s.kernel.Vacant newAddress.addr newSize
          else newAddress.addr = oldAddress.addr) ∧
        (¬flags.dontUnmap → DeallocateOk s.mapper.freelist oldAddress.addr oldSize)) :
    s.Served host
      (s.mapper.remap32Fixed oldAddress.addr oldSize newSize flags newAddress.addr) := by
  set call : SysCall := .mremap oldAddress.addr oldSize newSize flags newAddress.addr
  by_cases hg : s.kernel.Grants host call
  · obtain ⟨hfit, hplace, hdealloc⟩ := hok hg
    obtain ⟨⟨-, hpos, hocc, hasked, hfixed, hdont, htail⟩, -⟩ := id hg
    have hmin : s.kernel.minAddr ≤ oldAddress.addr := h.above _ hocc.1
    have htarget : Kernel.remapTarget oldAddress.addr flags newAddress.addr =
        newAddress.addr := by
      rw [Kernel.remapTarget]
      split
      · rfl
      · next hno =>
        rw [if_neg hno] at hplace
        exact hplace.symm
    have hvalue : s.kernel.value call = newAddress.addr := htarget
    have hmin' : s.kernel.minAddr ≤ newAddress.addr := by
      split at hplace
      · next hyes => exact (hfixed hyes).2.2.1
      · exact hplace ▸ hmin
    -- the new range is free once the old one has been given back
    have hroom : Set.Ico newAddress.addr (newAddress.addr + newSize) ⊆
        s.kernel.guestFree ∪ released flags oldAddress.addr oldSize := by
      split at hplace
      · exact (Tracks.subset_guestFree newAddress.aligned hnewSize hmin' hfit hplace).trans
          Set.subset_union_left
      · next hno =>
        have hmove := hasked.resolve_left hno
        have hback : ¬flags.dontUnmap := fun hd ↦ hmove (hdont hd).1
        rw [released, if_neg hback]
        intro a ha
        rw [hplace] at ha hfit
        rcases lt_or_ge a (oldAddress.addr + oldSize) with hlt | hge
        · exact Or.inr ⟨ha.1, hlt⟩
        · refine Or.inl ⟨⟨hmin.trans ha.1, ha.2.trans_le hfit⟩, fun hmap ↦ hmap ?_⟩
          refine htail hmove _ ((Kernel.inPages_iff ?_ ?_).mpr ⟨hge, ?_⟩)
          · have := oldAddress.aligned
            unfold PageAligned at *
            omega
          · unfold PageAligned at *
            omega
          · have := ha.2
            omega
    obtain ⟨list', hexact', hold⟩ := run_releaseOld h.exact oldAddress holdSize hdealloc host
      (s.kernel.after call)
    have hne : newAddress.addr ≠ 0 := (h.min_pos.trans_le hmin').ne'
    obtain ⟨list'', hret, hexact''⟩ :=
      hexact'.allocate_of_subset newAddress.aligned hnewSize hne hpos hfit hroom
    refine ⟨newAddress.addr, ⟨{ s.mapper with freelist := list'' }, s.kernel.after call⟩, ?_, ?_,
      fun hneg ↦ ?_⟩
    · have halloc := run_allocate host (s.kernel.after call)
        (m := { s.mapper with freelist := list' }) newAddress.lt hret
      rw [Ends, remap32Fixed, run_assert_bind _ _ newAddress.lt_uint32Max,
        Dialogue.run_query_bind, Kernel.serve_of_grants hg, hvalue]
      refine (run_assert_bind host _ (c := newAddress.addr = newAddress.addr) rfl _).trans ?_
      refine (Dialogue.run_bind_of_ok _ hold).trans ?_
      refine (Dialogue.run_bind_of_ok _ halloc).trans ?_
      exact run_assert_bind host _ (c := pointer (.address newAddress.addr) = newAddress.addr)
        rfl _
    · refine h.of_mapped (released flags oldAddress.addr oldSize)
        (Set.Ico newAddress.addr (newAddress.addr + newSize)) (Kernel.after_minAddr _ _) ?_ ?_
        (fun a ha ↦ hmin'.trans ha.1) hexact'' h.shmids
      · exact mapped_after_remap oldAddress newAddress holdSize hnewSize hocc htarget
      · exact h.released_subset holdSize hocc fun hd ↦ (hdealloc hd).2.1
    · omega
  · refine h.served_unchanged (-1) ?_
    rw [Ends, remap32Fixed, run_assert_bind _ _ newAddress.lt_uint32Max, Dialogue.run_query_bind,
      Kernel.serve_of_not_grants hg]
    rfl

/-- After the search has taken its range some node still starts above a mapped address, if one did
before that the range does not use up. -/
theorem Offer.exists_above {size : ℕ} {best : Node} {list' : List Node}
    (ho : s.Offer size best list') (h : s.Tracks) {a : ℕ} (hmap : a ∈ s.kernel.mapped)
    (habove : ∃ n ∈ s.mapper.freelist, a ≤ n.start ∧
      (findBest size s.mapper.freelist = some n → size < extent n)) :
    ∃ n ∈ list', a ≤ n.start := by
  obtain ⟨n, hn, hle, hroom⟩ := habove
  have hnne := h.exact.canonical.nonempty n hn
  have hfree : n.stop ∈ s.kernel.guestFree := h.exact.cover_eq ▸ ⟨n, hn, hnne, le_rfl⟩
  have hkept : n.stop ∉ Set.Ico best.start (best.start + size) := by
    rintro ⟨hlo, hhi⟩
    have hfits := ho.fits
    unfold extent at hfits hroom
    rcases h.exact.canonical.eq_or_apart hn ho.mem with rfl | hap | hap
    · have := hroom ho.found
      omega
    · have := apart_iff.mp hap
      omega
    · have := apart_iff.mp hap
      omega
  have hcover : n.stop ∈ cover list' := by
    rw [ho.exact.cover_eq]
    exact ⟨hfree, hkept⟩
  obtain ⟨m, hm, hmlo, hmhi⟩ := hcover
  refine ⟨m, hm, ?_⟩
  by_contra hlt
  have ha : a ∈ cover list' := ⟨m, hm, (not_le.mp hlt).le, hle.trans (hnne.trans hmhi)⟩
  rw [ho.exact.cover_eq] at ha
  exact ha.1.2 hmap

theorem served_remap32Anywhere (h : s.Tracks) (oldAddress : GuestPage) {oldSize newSize : ℕ}
    (holdSize : PageAligned oldSize) (hnewSize : PageAligned newSize) {flags : RemapFlags}
    (hok : (∀ n ∈ s.mapper.freelist, extent n < newSize) ∨
      (host.refusesChange = false ∧ 0 < oldSize ∧ 0 < newSize ∧
        s.kernel.Occupied oldAddress.addr oldSize ∧
        if flags.dontUnmap then oldSize = newSize
        else oldAddress.addr + oldSize < 2 ^ 32 ∧
          ∃ n ∈ s.mapper.freelist, oldAddress.addr ≤ n.start ∧
            (findBest newSize s.mapper.freelist = some n → newSize < extent n))) :
    s.Served host (s.mapper.remap32Anywhere oldAddress.addr oldSize newSize flags) := by
  by_cases hsmall : ∀ n ∈ s.mapper.freelist, extent n < newSize
  · have hret := allocate_zero_of_small h.exact h.zero_notMem hnewSize hsmall
    refine h.served_unchanged (-enomem) ?_
    rw [Ends, remap32Anywhere]
    exact Dialogue.run_bind_of_ok _ (run_allocate host s.kernel (by decide) hret)
  · obtain ⟨hrefuse, holdPos, hnewPos, hocc, hflags⟩ := hok.resolve_left hsmall
    obtain ⟨best, list', ho⟩ := h.exists_offer hnewSize hsmall
    let newAddress : GuestPage := ⟨best.start, ho.lt, ho.aligned⟩
    set call : SysCall := .mremap oldAddress.addr oldSize newSize
      { flags with mayMove := true, fixed := true } best.start
    have hdisjoint : Disjoint (Set.Ico best.start (best.start + newSize))
        (Set.Ico oldAddress.addr (oldAddress.addr + oldSize)) :=
      (ho.vacant.disjoint ho.aligned hnewSize).mono_right (hocc.subset oldAddress.aligned holdSize)
    have hg : s.kernel.Grants host call := by
      refine ⟨⟨oldAddress.aligned, hnewPos, hocc, Or.inl rfl, fun _ ↦ ⟨rfl, ho.aligned, ho.min_le,
        ?_⟩, fun hd ↦ ⟨rfl, ?_⟩, fun hno ↦ absurd rfl hno⟩, hrefuse⟩
      · rw [Set.Ico_disjoint_Ico] at hdisjoint
        omega
      · rwa [if_pos hd] at hflags
    have hdealloc : ¬flags.dontUnmap → DeallocateOk list' oldAddress.addr oldSize := by
      intro hd
      rw [if_neg hd] at hflags
      exact ⟨holdPos, hflags.1.le, Or.inr (Or.inl ⟨ho.exists_above h hocc.1 hflags.2, hflags.1⟩)⟩
    obtain ⟨list'', hexact'', hold⟩ := run_releaseOld (m := { s.mapper with freelist := list' })
      ho.exact oldAddress holdSize hdealloc host (s.kernel.after call)
    have hbestPos : 0 < best.start := h.min_pos.trans_le ho.min_le
    refine ⟨best.start, ⟨{ s.mapper with freelist := list'' }, s.kernel.after call⟩, ?_, ?_,
      fun hneg ↦ ?_⟩
    · have halloc := run_allocate host s.kernel (by decide) ho.allocated
      rw [Ends, remap32Anywhere]
      refine (Dialogue.run_bind_of_ok _ halloc).trans ?_
      have hpos : ¬pointer (.address best.start) ≤ 0 := by
        simp only [pointer]
        omega
      simp only [hpos, if_false]
      refine (Dialogue.run_query_bind _ _).trans ?_
      rw [Kernel.serve_of_grants hg]
      refine (Dialogue.run_bind_of_ok _ hold).trans ?_
      exact run_assert_bind host _ (c := best.start = best.start) rfl _
    · refine h.of_mapped (released flags oldAddress.addr oldSize)
        (Set.Ico best.start (best.start + newSize)) (Kernel.after_minAddr _ _) ?_ ?_
        (fun a ha ↦ ho.min_le.trans ha.1) ?_ h.shmids
      · exact mapped_after_remap oldAddress newAddress holdSize hnewSize hocc rfl
      · exact h.released_subset holdSize hocc fun hd ↦ (hdealloc hd).2.1
      · -- the old range is mapped and the new one was free, so the order does not matter
        have hswap : s.kernel.guestFree \ Set.Ico best.start (best.start + newSize) ∪
            released flags oldAddress.addr oldSize =
            (s.kernel.guestFree ∪ released flags oldAddress.addr oldSize) \
              Set.Ico best.start (best.start + newSize) := by
          have hsub : released flags oldAddress.addr oldSize ⊆
              Set.Ico oldAddress.addr (oldAddress.addr + oldSize) := by
            rw [released]
            split
            · exact Set.empty_subset _
            · exact le_rfl
          rw [Set.union_sdiff_distrib, sdiff_eq_left.mpr (hdisjoint.mono_right hsub).symm]
        rwa [hswap] at hexact''
    · omega

/-! ## `shmat32` and `shmdt32` -/

theorem segmentSize_eq {n : ℕ} (hn : n < 2 ^ 64 - 2 ^ 24) :
    segmentSize n = Kernel.attachedSize n := by
  have hu : u64 (n + 0xFFF) = n + 0xFFF := Nat.mod_eq_of_lt (by omega)
  rw [segmentSize, roundUp, hu, Kernel.attachedSize]
  split
  · rfl
  · omega

theorem attachedSize_aligned (n : ℕ) : PageAligned (Kernel.attachedSize n) := by
  rw [PageAligned, Kernel.attachedSize]
  omega

theorem attachedSize_pos {n : ℕ} (hn : 0 < n) : 0 < Kernel.attachedSize n := by
  rw [Kernel.attachedSize]
  omega

/-- The end of both halves of `shmat32`: the segment is at `address`, which has just been taken
from the freelist. -/
theorem Tracks.shmat_done (h : s.Tracks) {shmid : ℤ} (address : GuestPage) {n : ℕ}
    (flags : ShmFlags) {list' : List Node} (hn : s.kernel.segsz shmid = some n)
    (hmin : s.kernel.minAddr ≤ address.addr)
    (hexact : Exact list' (s.kernel.guestFree \
      Set.Ico address.addr (address.addr + Kernel.attachedSize n))) :
    System.Tracks ⟨⟨list', Function.update s.mapper.pageToShmid
      (u32 address.addr / 0x1000 * 0x1000) (some shmid)⟩,
      s.kernel.after (.shmat shmid address.addr flags)⟩ := by
  have hpage : u32 address.addr / 0x1000 * 0x1000 = address.addr := by
    have := address.aligned
    unfold PageAligned at this
    rw [u32_of_lt address.lt]
    omega
  rw [hpage]
  refine h.of_mapped ∅ (Set.Ico address.addr (address.addr + Kernel.attachedSize n)) rfl ?_
    (Set.empty_subset _) (fun a ha ↦ hmin.trans ha.1) (by rwa [Set.union_empty]) ?_
  · rw [Set.sdiff_empty, Kernel.after, hn]
    exact Kernel.mapped_fill address.aligned (attachedSize_aligned n) fun _ _ ↦ Page.noConfusion
  · intro a id ha
    by_cases heq : a = address.addr
    · exact heq ▸ hmin
    · simp only [Function.update_of_ne heq] at ha
      exact h.shmids a id ha

theorem run_shmatDone {m : Mapper} {shmid : ℤ} (address : GuestPage) (host : Host) (k : Kernel) :
    Dialogue.run (Kernel.serve host) k (m.shmatDone shmid address.addr) =
      (.ok ((0, some (u32 address.addr)), ⟨m.freelist, Function.update m.pageToShmid
        (u32 address.addr / 0x1000 * 0x1000) (some shmid)⟩), k) := by
  rw [shmatDone, run_assert_bind host k (Or.inl (Nat.div_eq_of_lt address.lt))]
  rfl

/-- `Served` for code that also returns the attached address. -/
def ServedAttach (s : System) (host : Host) (code : Code Attachment) : Prop :=
  ∃ (result : ℤ) (address : Option ℕ) (t : System),
    code.run (Kernel.serve host) s.kernel = (.ok ((result, address), t.mapper), t.kernel) ∧
      t.Tracks ∧ (result < 0 → t.mapper.freelist = s.mapper.freelist)

theorem served_shmatAnywhere (h : s.Tracks) {shmid : ℤ} {n : ℕ} {flags : ShmFlags}
    (hn : s.kernel.segsz shmid = some n)
    (hok : (∀ m ∈ s.mapper.freelist, extent m < segmentSize n) ∨ host.refusesChange = false) :
    s.ServedAttach host (s.mapper.shmatAnywhere shmid (segmentSize n) flags) := by
  obtain ⟨hpos, hmax⟩ := s.kernel.segsz_bounds shmid n hn
  rw [segmentSize_eq hmax] at hok ⊢
  have hsize := attachedSize_aligned n
  by_cases hsmall : ∀ m ∈ s.mapper.freelist, extent m < Kernel.attachedSize n
  · have hret := allocate_zero_of_small h.exact h.zero_notMem hsize hsmall
    refine ⟨-enomem, none, s, ?_, h, fun _ ↦ rfl⟩
    rw [shmatAnywhere]
    exact Dialogue.run_bind_of_ok _ (run_allocate host s.kernel (by decide) hret)
  · obtain ⟨best, list', ho⟩ := h.exists_offer hsize hsmall
    have halloc := run_allocate host s.kernel (by decide) ho.allocated
    have hg : s.kernel.Grants host (.shmat shmid best.start flags) :=
      ⟨⟨n, hn, ho.aligned, ho.min_le, fun _ ↦ ho.vacant⟩, hok.resolve_left hsmall⟩
    let address : GuestPage := ⟨best.start, ho.lt, ho.aligned⟩
    refine ⟨0, some (u32 best.start), ⟨_, _⟩, ?_,
      h.shmat_done address flags hn ho.min_le ho.exact, fun hneg ↦ ?_⟩
    · rw [shmatAnywhere]
      refine (Dialogue.run_bind_of_ok _ halloc).trans ?_
      refine (Dialogue.run_query_bind _ _).trans ?_
      rw [Kernel.serve_of_grants hg]
      refine (run_assert_bind host _ (c := best.start = best.start) rfl _).trans ?_
      exact run_shmatDone address host _
    · omega

theorem served_shmatFixed (h : s.Tracks) {shmid : ℤ} (address : GuestPage) {n : ℕ}
    {flags : ShmFlags} (hn : s.kernel.segsz shmid = some n)
    (hfit : address.addr + segmentSize n ≤ uint32Max)
    (hok : s.kernel.Grants host (.shmat shmid address.addr flags) →
      s.kernel.Vacant address.addr (segmentSize n)) :
    s.ServedAttach host (s.mapper.shmatFixed shmid address.addr (segmentSize n) flags) := by
  obtain ⟨hpos, hmax⟩ := s.kernel.segsz_bounds shmid n hn
  rw [segmentSize_eq hmax] at hok hfit ⊢
  have hsize := attachedSize_aligned n
  have hinside : u64 (address.addr + Kernel.attachedSize n) ≤ uint32Max :=
    (Nat.mod_le _ _).trans hfit
  by_cases hg : s.kernel.Grants host (.shmat shmid address.addr flags)
  · obtain ⟨⟨-, -, -, hmin, -⟩, -⟩ := id hg
    have hfit' : address.addr + Kernel.attachedSize n ≤ 2 ^ 32 := by
      unfold uint32Max at hfit
      omega
    obtain ⟨list', hret, hexact⟩ := h.exact.allocate_of_subset address.aligned hsize
      (h.min_pos.trans_le hmin).ne' (attachedSize_pos hpos) hfit'
      (Tracks.subset_guestFree address.aligned hsize hmin hfit' (hok hg))
    refine ⟨0, some (u32 address.addr), ⟨_, _⟩, ?_,
      h.shmat_done address flags hn hmin hexact, fun hneg ↦ ?_⟩
    · rw [shmatFixed, run_assert_bind host _ hinside, Dialogue.run_query_bind,
        Kernel.serve_of_grants hg]
      refine (run_assert_bind host _ (c := address.addr / 2 ^ 32 = 0 ∨ _)
        (Or.inl (Nat.div_eq_of_lt address.lt)) _).trans ?_
      refine (Dialogue.run_bind_of_ok _ (run_allocate host _ address.lt hret)).trans ?_
      refine (run_assert_bind host _ (c := pointer (.address address.addr) = address.addr) rfl
        _).trans ?_
      exact run_shmatDone address host _
    · omega
  · refine ⟨-1, none, s, ?_, h, fun _ ↦ rfl⟩
    rw [shmatFixed, run_assert_bind host _ hinside, Dialogue.run_query_bind,
      Kernel.serve_of_not_grants hg]
    rfl

theorem served_shmat32 (h : s.Tracks) (shmid : ℤ) (address : GuestPage) (flags : ShmFlags)
    (hok : ∀ n, s.kernel.segsz shmid = some n → host.statFails = false →
      segmentSize n < 0xFFFFFFFF ∧
        if address.addr = 0 then
          (∀ m ∈ s.mapper.freelist, extent m < segmentSize n) ∨ host.refusesChange = false
        else address.addr + segmentSize n ≤ uint32Max ∧
          (s.kernel.Grants host (.shmat shmid address.addr flags) →
            s.kernel.Vacant address.addr (segmentSize n))) :
    s.ServedAttach host (s.mapper.shmat32 shmid address.addr flags) := by
  by_cases hg : s.kernel.Grants host (.shmctl shmid)
  · obtain ⟨n, hn⟩ := Option.isSome_iff_exists.mp hg.1
    obtain ⟨hlt, hplace⟩ := hok n hn hg.2
    have hvalue : s.kernel.value (.shmctl shmid) = n := by
      rw [Kernel.value, hn]
      rfl
    have hstart : Dialogue.run (Kernel.serve host) s.kernel
        (s.mapper.shmat32 shmid address.addr flags) =
        Dialogue.run (Kernel.serve host) s.kernel
          (if address.addr = 0 then s.mapper.shmatAnywhere shmid (segmentSize n) flags
            else s.mapper.shmatFixed shmid address.addr (segmentSize n) flags) := by
      rw [shmat32, Dialogue.run_query_bind, Kernel.serve_of_grants hg, hvalue]
      exact run_assert_bind host _ hlt _
    rw [ServedAttach, hstart]
    split at hplace
    · next hzero =>
      rw [if_pos hzero]
      exact served_shmatAnywhere h hn hplace
    · next hne =>
      rw [if_neg hne]
      exact served_shmatFixed h address hn hplace.1 hplace.2
  · refine ⟨-einval, none, s, ?_, h, fun _ ↦ rfl⟩
    rw [shmat32, Dialogue.run_query_bind, Kernel.serve_of_not_grants hg]
    rfl

/-- What `shmdt32` gives back before it asks the kernel. Its mapped pages are those that `shmdt`
detaches, so if that is nothing the list does not change. -/
theorem run_releaseSegment (h : s.Tracks) {shmid : ℤ} (address : GuestPage)
    (hmin : s.kernel.minAddr ≤ address.addr)
    (hstat : ∀ n, s.kernel.segsz shmid = some n → host.statFails = false →
      DeallocateOk s.mapper.freelist address.addr (segmentSize n) ∧
        Set.Ico address.addr (address.addr + segmentSize n) ∩ s.kernel.mapped =
          s.kernel.detached host address.addr)
    (hlost : ¬s.kernel.Grants host (.shmctl shmid) → s.kernel.detached host address.addr = ∅) :
    ∃ list' gone, Dialogue.run (Kernel.serve host) s.kernel
        (s.mapper.releaseSegment shmid address.addr) =
        (.ok { s.mapper with freelist := list' }, s.kernel) ∧
      Exact list' (s.kernel.guestFree ∪ gone) ∧ gone ⊆ Set.Ico s.kernel.minAddr (2 ^ 32) ∧
      gone ∩ s.kernel.mapped = s.kernel.detached host address.addr ∧
      (s.kernel.detached host address.addr = ∅ → list' = s.mapper.freelist) := by
  rw [releaseSegment, Dialogue.run_query_bind]
  by_cases hg : s.kernel.Grants host (.shmctl shmid)
  · obtain ⟨n, hn⟩ := Option.isSome_iff_exists.mp hg.1
    obtain ⟨hdealloc, hinter⟩ := hstat n hn hg.2
    have hvalue : s.kernel.value (.shmctl shmid) = n := by
      rw [Kernel.value, hn]
      rfl
    have hsize : PageAligned (segmentSize n) := by
      rw [segmentSize_eq (s.kernel.segsz_bounds shmid n hn).2]
      exact attachedSize_aligned n
    obtain ⟨list', hret, hexact⟩ := h.exact.deallocate_of_ok address.aligned hsize hdealloc
    have hgone : Set.Ico address.addr (address.addr + segmentSize n) ⊆
        Set.Ico s.kernel.minAddr (2 ^ 32) := Set.Ico_subset_Ico hmin hdealloc.2.1
    refine ⟨list', _, ?_, hexact, hgone, hinter, fun hempty ↦ ?_⟩
    · rw [Kernel.serve_of_grants hg, hvalue]
      exact run_deallocate host _ address.lt hret
    · refine h.exact.deallocate_of_subset hdealloc.1 hdealloc.2.1 (fun a ha ↦ ⟨hgone ha, ?_⟩) hret
      intro hmap
      have hmem : a ∈ s.kernel.detached host address.addr := hinter ▸ ⟨ha, hmap⟩
      simp [hempty] at hmem
  · refine ⟨s.mapper.freelist, ∅, ?_, ?_, Set.empty_subset _, ?_, fun _ ↦ rfl⟩
    · rw [Kernel.serve_of_not_grants hg]
      rfl
    · rw [Set.union_empty]
      exact h.exact
    · rw [Set.empty_inter, hlost hg]

theorem mapped_after_shmdt {k : Kernel} {address : ℕ} (hg : k.Grants host (.shmdt address)) :
    (k.after (.shmdt address)).mapped = k.mapped \ k.detached host address := by
  have hrefuse : host.refusesChange = false := hg.2
  ext a
  simp only [Kernel.mapped, Kernel.after, Kernel.detached, Set.mem_sdiff, Set.mem_ofPred_eq,
    hrefuse, true_and]
  split <;> simp_all

theorem detached_eq_empty {k : Kernel} {address : ℕ} (hg : ¬k.Grants host (.shmdt address)) :
    k.detached host address = ∅ := by
  refine Set.eq_empty_of_forall_notMem fun a ha ↦ hg ⟨⟨a / 0x1000, ha.2⟩, ha.1⟩

theorem served_shmdt32 (h : s.Tracks) (address : GuestPage)
    (hok : ∀ shmid, s.mapper.pageToShmid address.addr = some shmid →
      (∀ n, s.kernel.segsz shmid = some n → host.statFails = false →
        DeallocateOk s.mapper.freelist address.addr (segmentSize n) ∧
          Set.Ico address.addr (address.addr + segmentSize n) ∩ s.kernel.mapped =
            s.kernel.detached host address.addr) ∧
      (¬s.kernel.Grants host (.shmctl shmid) → s.kernel.detached host address.addr = ∅)) :
    s.Served host (s.mapper.shmdt32 address.addr) := by
  have hpage : u32 address.addr / 0x1000 * 0x1000 = address.addr := by
    have := address.aligned
    unfold PageAligned at this
    rw [u32_of_lt address.lt]
    omega
  cases hid : s.mapper.pageToShmid address.addr with
  | none =>
    refine h.served_unchanged (-einval) ?_
    simp only [Ends, shmdt32, hpage, hid]
    rfl
  | some shmid =>
    obtain ⟨hstat, hlost⟩ := hok shmid hid
    obtain ⟨list', gone, hrun, hexact, hgone, hinter, hsame⟩ :=
      run_releaseSegment h address (h.shmids _ _ hid) hstat hlost
    by_cases hg : s.kernel.Grants host (.shmdt address.addr)
    · refine ⟨0, ⟨⟨list', Function.update s.mapper.pageToShmid address.addr none⟩,
        s.kernel.after (.shmdt address.addr)⟩, ?_, ?_, fun hneg ↦ ?_⟩
      · simp only [Ends, shmdt32, hpage, hid]
        refine (Dialogue.run_bind_of_ok _ hrun).trans ?_
        refine (Dialogue.run_query_bind _ _).trans ?_
        rw [Kernel.serve_of_grants hg]
        rfl
      · refine h.of_mapped gone ∅ rfl ?_ hgone (by simp) (by rwa [Set.sdiff_empty]) ?_
        · rw [Set.union_empty, ← Set.sdiff_inter_self_eq_sdiff, hinter]
          exact mapped_after_shmdt hg
        · intro a id ha
          by_cases heq : a = address.addr
          · simp [heq] at ha
          · simp only [Function.update_of_ne heq] at ha
            exact h.shmids a id ha
      · omega
    · rw [hsame (detached_eq_empty hg)] at hrun
      refine h.served_unchanged (-1) ?_
      simp only [Ends, shmdt32, hpage, hid]
      refine (Dialogue.run_bind_of_ok _ hrun).trans ?_
      refine (Dialogue.run_query_bind _ _).trans ?_
      rw [Kernel.serve_of_not_grants hg]
      rfl

/-! ## Runs -/

/-- The calls that reach none of the mapper's slips, each told from its arguments, the state before
it and what the host decides:

* a range that is given back or replaced meets `DeallocateOk` and does not reach below
  `vm.mmap_min_addr`, and a range the guest chose fits in the low space;
* the kernel does not refuse a placement at an address the freelist chose;
* `remap32` gets nonzero arguments, its target is free, and an in-place call names the address it
  already has;
* `shmat32` stays below the last page and does not replace mappings;
* the pages `shmdt32` gives back are the ones `shmdt` detaches. -/
def CallOk (s : System) (call : Request × Host) : Prop :=
  match call with
  | (.map32 addr size prot flags fd offset, host) =>
    if flags.fixed ∨ flags.fixedNoreplace then
      s.kernel.Grants host (.mmap addr.addr (roundUp size) prot flags fd offset) →
        addr.addr + roundUp size ≤ 2 ^ 32 ∧
          (flags.fixed → DeallocateOk s.mapper.freelist addr.addr (roundUp size))
    else host.refusesChange →
      roundUp size = 0 ∨ ∀ n ∈ s.mapper.freelist, extent n < roundUp size
  | (.unmap32 addr size, host) =>
    s.kernel.Grants host (.munmap addr.addr (roundUp size)) →
      s.kernel.minAddr ≤ addr.addr ∧ DeallocateOk s.mapper.freelist addr.addr (roundUp size)
  | (.remap32 oldAddress oldSize newSize flags newAddress, host) =>
    oldAddress.addr ≠ 0 ∧ oldSize ≠ 0 ∧ newSize ≠ 0 ∧
      if flags.fixed ∨ ¬flags.mayMove then
        s.kernel.Grants host (.mremap oldAddress.addr (roundUp oldSize) (roundUp newSize) flags
            newAddress.addr) →
          newAddress.addr + roundUp newSize ≤ 2 ^ 32 ∧
            (if flags.fixed then s.kernel.Vacant newAddress.addr (roundUp newSize)
              else newAddress.addr = oldAddress.addr) ∧
            (¬flags.dontUnmap →
              DeallocateOk s.mapper.freelist oldAddress.addr (roundUp oldSize))
      else (∀ n ∈ s.mapper.freelist, extent n < roundUp newSize) ∨
        (host.refusesChange = false ∧ 0 < roundUp oldSize ∧ 0 < roundUp newSize ∧
          s.kernel.Occupied oldAddress.addr (roundUp oldSize) ∧
          if flags.dontUnmap then roundUp oldSize = roundUp newSize
          else oldAddress.addr + roundUp oldSize < 2 ^ 32 ∧
            ∃ n ∈ s.mapper.freelist, oldAddress.addr ≤ n.start ∧
              (findBest (roundUp newSize) s.mapper.freelist = some n →
                roundUp newSize < extent n))
  | (.shmat32 shmid address flags, host) =>
    ∀ n, s.kernel.segsz shmid = some n → host.statFails = false →
      segmentSize n < 0xFFFFFFFF ∧
        if address.addr = 0 then
          (∀ m ∈ s.mapper.freelist, extent m < segmentSize n) ∨ host.refusesChange = false
        else address.addr + segmentSize n ≤ uint32Max ∧
          (s.kernel.Grants host (.shmat shmid address.addr flags) →
            s.kernel.Vacant address.addr (segmentSize n))
  | (.shmdt32 address, host) =>
    ∀ shmid, s.mapper.pageToShmid address.addr = some shmid →
      (∀ n, s.kernel.segsz shmid = some n → host.statFails = false →
        DeallocateOk s.mapper.freelist address.addr (segmentSize n) ∧
          Set.Ico address.addr (address.addr + segmentSize n) ∩ s.kernel.mapped =
            s.kernel.detached host address.addr) ∧
      (¬s.kernel.Grants host (.shmctl shmid) → s.kernel.detached host address.addr = ∅)

theorem served_map32 (h : s.Tracks) (addr : GuestPage) (size : Fin (2 ^ 64)) (prot : ℕ)
    (flags : MapFlags) (fd : ℤ) (offset : ℕ)
    (hok : s.CallOk (.map32 addr size prot flags fd offset, host)) :
    s.Served host (s.mapper.map32 addr.addr size prot flags fd offset) := by
  have hsize := roundUp_aligned size
  simp only [CallOk] at hok
  rw [map32]
  split at hok
  · next hfixed =>
    rw [if_pos hfixed]
    exact served_map32Fixed h addr hsize prot fd offset hok
  · next hfree =>
    rw [if_neg hfree]
    exact served_map32Anywhere h hsize prot flags fd offset hok

theorem served_remap32 (h : s.Tracks) (oldAddress newAddress : GuestPage)
    (oldSize newSize : Fin (2 ^ 64)) (flags : RemapFlags)
    (hok : s.CallOk (.remap32 oldAddress oldSize newSize flags newAddress, host)) :
    s.Served host (s.mapper.remap32 oldAddress.addr oldSize newSize flags newAddress.addr) := by
  obtain ⟨hold, holdSize, hnewSize, hok⟩ := hok
  have hos : (oldSize : ℕ) ≠ 0 := fun h0 ↦ holdSize (Fin.ext h0)
  have hns : (newSize : ℕ) ≠ 0 := fun h0 ↦ hnewSize (Fin.ext h0)
  simp only [Served, Ends, remap32]
  rw [run_assert_bind _ _ hold, run_assert_bind _ _ hos, run_assert_bind _ _ hns]
  split at hok
  · next hfixed =>
    rw [if_pos hfixed]
    exact served_remap32Fixed h oldAddress newAddress (roundUp_aligned _) (roundUp_aligned _) hok
  · next hmove =>
    rw [if_neg hmove]
    exact served_remap32Anywhere h oldAddress (roundUp_aligned _) (roundUp_aligned _) hok

/-- One call: it returns, keeps the agreement, and a failure leaves the freelist alone. -/
theorem served_of_callOk (h : s.Tracks) {call : Request × Host} (hok : s.CallOk call) :
    s.Served call.2 (call.1.code s.mapper) := by
  obtain ⟨request, host⟩ := call
  cases request with
  | map32 addr size prot flags fd offset => exact served_map32 h addr size prot flags fd offset hok
  | unmap32 addr size => exact served_unmap32 h addr size hok
  | remap32 oldAddress oldSize newSize flags newAddress =>
    exact served_remap32 h oldAddress newAddress oldSize newSize flags hok
  | shmat32 shmid address flags =>
    obtain ⟨result, attached, t, hrun, ht, hkeep⟩ := served_shmat32 h shmid address flags hok
    exact ⟨result, t, Dialogue.run_bind_of_ok _ hrun, ht, hkeep⟩
  | shmdt32 address => exact served_shmdt32 h address hok

theorem Tracks.step {t : System} {call : Request × Host} (h : s.Tracks)
    (hstep : Guarded CallOk Step s call t) : t.Tracks := by
  obtain ⟨hok, result, hend⟩ := hstep
  obtain ⟨result', t', hend', ht', -⟩ := served_of_callOk h hok
  -- the code is deterministic once the host has decided
  have heq := hend.symm.trans hend'
  simp only [Prod.mk.injEq, Except.ok.injEq] at heq
  obtain ⟨⟨-, hmapper⟩, hkernel⟩ := heq
  have hsys : t = t' := by
    cases t
    cases t'
    simp_all
  exact hsys ▸ ht'

/-- **The mapper and the kernel agree** after every run of calls that meet `CallOk`, and the next
such call returns without tripping an assertion, keeps the agreement, and leaves the freelist as it
was if it reports failure. -/
theorem agree_of_run {s₀ : System} {calls : List (Request × Host)} (hinit : s₀.Initial)
    (hrun : Run (Guarded CallOk Step) s₀ calls s) :
    s.Agree ∧ ∀ call, s.CallOk call →
      ∃ result t, s.Ends call.2 (call.1.code s.mapper) result t ∧ t.Agree ∧
        (result < 0 → t.mapper.freelist = s.mapper.freelist) := by
  have htracks : s.Tracks := hrun.invariant hinit.tracks fun _ _ _ h hstep ↦ h.step hstep
  refine ⟨htracks.agree, fun call hok ↦ ?_⟩
  obtain ⟨result, t, hend, ht, hkeep⟩ := served_of_callOk htracks hok
  exact ⟨result, t, hend, ht.agree, hkeep⟩

/-- A new system whose lowest address is the usual one. -/
def fresh : System where
  mapper := ⟨Freelist.initial 0x10000, fun _ ↦ none⟩
  kernel :=
    { minAddr := 0x10000
      segsz := fun _ ↦ none
      segsz_bounds := fun _ _ h ↦ nomatch h
      page := fun _ ↦ .free }

theorem initial_fresh : fresh.Initial := by
  refine ⟨fun _ ↦ rfl, rfl, fun _ ↦ rfl, ?_, ?_, ?_⟩ <;> decide

/-- A guest asks for one page, anywhere. -/
def onePage : Request := .map32 ⟨0, by decide, by decide⟩ 0x1000 3 ⟨false, false, 0x22⟩ (-1) 0

/-- The kernel call it leads to. -/
abbrev onePageCall : SysCall :=
  .mmap 0x10000 (roundUp (0x1000 : Fin (2 ^ 64))) 3 ⟨false, true, 0x22⟩ (-1) 0

theorem allocate_onePage : Freelist.allocate fresh.mapper.freelist 0
    (roundUp (0x1000 : Fin (2 ^ 64))) = .ok (.address 0x10000, [⟨0x11000, uint32Max⟩]) := by
  decide

/-- The law is not empty: a page is mapped where the freelist puts it. -/
theorem agree_of_run_onePage : ∃ calls t, Run (Guarded CallOk Step) fresh calls t ∧ t.Agree ∧
    t.mapper.freelist = [⟨0x11000, uint32Max⟩] ∧ 0x10000 ∈ t.kernel.mapped := by
  let host : Host := ⟨false, false, 12, by decide⟩
  let t : System := ⟨⟨[⟨0x11000, uint32Max⟩], fun _ ↦ none⟩, fresh.kernel.after onePageCall⟩
  have hok : CallOk fresh (onePage, host) := by
    simp [CallOk, onePage, host]
  have hg : fresh.kernel.Grants host onePageCall :=
    ⟨⟨Or.inr rfl, by decide, by decide, by decide, fun _ _ _ ↦ rfl⟩, rfl⟩
  have hend : fresh.Ends host (onePage.code fresh.mapper) (0x10000 : ℕ) t := by
    rw [Ends, onePage, Request.code, map32, if_neg (by decide), map32Anywhere]
    refine (Dialogue.run_bind_of_ok _ (run_allocate host _ (by decide) allocate_onePage)).trans ?_
    refine (Dialogue.run_query_bind _ _).trans ?_
    rw [Kernel.serve_of_grants hg]
    rfl
  have hrun : Run (Guarded CallOk Step) fresh [(onePage, host)] t :=
    Run.single ⟨hok, _, hend⟩
  refine ⟨_, t, hrun, (agree_of_run initial_fresh hrun).1, rfl, ?_⟩
  have hsize : PageAligned (roundUp (0x1000 : Fin (2 ^ 64))) := roundUp_aligned _
  have hmapped : t.kernel.mapped = _ :=
    Kernel.mapped_fill (k := fresh.kernel) (by decide) hsize fun _ _ ↦ Page.noConfusion
  rw [hmapped]
  exact Or.inr ⟨le_rfl, by decide⟩

/-- Without the condition the law fails: the kernel refuses the same mapping, the call reports the
failure, and the page it never got stays taken in the freelist. -/
theorem not_agree_refused : ¬∀ (s₀ s : System) (calls : List (Request × Host)), s₀.Initial →
    Run Step s₀ calls s → s.Agree ∧ ∀ call : Request × Host,
      ∃ result t, s.Ends call.2 (call.1.code s.mapper) result t ∧ t.Agree ∧
        (result < 0 → t.mapper.freelist = s.mapper.freelist) := by
  intro hall
  let host : Host := ⟨false, true, 12, by decide⟩
  let t : System := ⟨⟨[⟨0x11000, uint32Max⟩], fun _ ↦ none⟩, fresh.kernel⟩
  have hg : ¬fresh.kernel.Grants host onePageCall := fun hg ↦ Bool.noConfusion hg.2
  have hend : fresh.Ends host (onePage.code fresh.mapper) (-(12 : ℕ)) t := by
    rw [Ends, onePage, Request.code, map32, if_neg (by decide), map32Anywhere]
    refine (Dialogue.run_bind_of_ok _ (run_allocate host _ (by decide) allocate_onePage)).trans ?_
    refine (Dialogue.run_query_bind _ _).trans ?_
    rw [Kernel.serve_of_not_grants hg]
    rfl
  obtain ⟨-, hcall⟩ := hall fresh fresh [] initial_fresh (Run.nil fresh)
  obtain ⟨result, t', hend', -, hkeep⟩ := hcall (onePage, host)
  have heq := hend'.symm.trans hend
  simp only [Prod.mk.injEq, Except.ok.injEq] at heq
  obtain ⟨⟨rfl, hmapper⟩, -⟩ := heq
  have hlist := hkeep (by decide)
  rw [hmapper] at hlist
  exact absurd hlist (by decide)

end System

end Felix86
