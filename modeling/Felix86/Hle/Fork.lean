import Felix86.Hle.MapperAgree

/-!
# The mapper after a fork

A child that gets a copy of the address space has the mappings of its parent, and goes on as a
process of its own. `ForkMe` makes it start with a new mapper: nothing is taken in its freelist and
no shared segment is known, while everything is mapped as before. `VForkMe`, which uses `fork` as
well, leaves the mapper alone, and the copy is right. A clone that shares memory has no mapper of
its own, and one that does not but brings its own stack is an assertion in `CloneMe`.

The breaks of a 32-bit program are fixed mappings, so their history is one of `map32` calls.

`TableExact` is the other half of the bookkeeping: the table has the segments that are attached,
where they are, and no others, so that `shmdt` gives back what it takes away. The table follows
neither an `munmap` nor a mapping on top of a segment nor an `mremap`, so pages of a segment may
leave only with it.
-/

namespace Felix86

open ClosedRange Freelist Mapper Dialogue

/-! ## Cloning -/

def cloneVm : BitVec 64 := 0x100

def cloneVfork : BitVec 64 := 0x4000

/-- `CLONE_VM | CLONE_VFORK | SIGCLD`. -/
def vforkFlags : BitVec 64 := 0x4111

/-- `CSIGNAL`. -/
def csignal : BitVec 64 := 0xFF

/-- The flags `Threads::Clone` supports. -/
def allowedFlags : BitVec 64 := 0x813D4F00

/-- What a clone is: the process goes on with another thread, or there is a child with a copy of
its memory. -/
inductive CloneKind
  | vforkMe
  | forkMe
  | cloneMe
deriving DecidableEq, Repr

/-- `Threads::Clone`, with the assertions of the three functions it chooses from. -/
def cloneKind (guestFlags newRsp : BitVec 64) : Option CloneKind :=
  if guestFlags &&& ~~~csignal &&& ~~~allowedFlags ≠ 0 then none
  else if guestFlags = vforkFlags then some .vforkMe
  else if newRsp = 0 then
    if guestFlags &&& cloneVm = 0 ∧ guestFlags &&& cloneVfork = 0 then some .forkMe else none
  else if guestFlags &&& cloneVm ≠ 0 ∧ guestFlags &&& cloneVfork = 0 then some .cloneMe
  else none

/-- A new `Mapper`. -/
def Mapper.new (minAddr : ℕ) : Mapper := ⟨Freelist.initial minAddr, fun _ ↦ none⟩

/-- The process that goes on with what follows: the child if there is one. `ForkMe` runs
`ProcessGlobals::initialize` in it. -/
def System.clone (s : System) : CloneKind → System
  | .vforkMe => s
  | .forkMe => { s with mapper := Mapper.new s.kernel.minAddr }
  | .cloneMe => s

namespace System

/-- A call of the mapper, or a clone. -/
inductive Event
  | call (request : Request) (host : Host)
  | clone (guestFlags newRsp : BitVec 64)

/-- One step, of the child after a clone that made one. -/
inductive ForkStep : System → Event → System → Prop
  | call {s t : System} {request : Request} {host : Host} (h : s.Step (request, host) t) :
      ForkStep s (.call request host) t
  | clone {s : System} {guestFlags newRsp : BitVec 64} {kind : CloneKind}
      (h : cloneKind guestFlags newRsp = some kind) :
      ForkStep s (.clone guestFlags newRsp) (s.clone kind)

/-! ## What the tables should say -/

/-- The table has exactly the segments that are attached: a page is one of a segment if and only if
the table has the segment at an address from which it reaches the page. -/
structure TableExact (s : System) : Prop where
  page : ∀ p shmid base, s.kernel.page p = .attached shmid base ↔
    ∃ a n, base = ((a / 0x1000 : ℕ) : ℤ) ∧ s.mapper.pageToShmid a = some shmid ∧
      s.kernel.segsz shmid = some n ∧ Kernel.InPages a (Kernel.attachedSize n) p
  entry : ∀ a shmid, s.mapper.pageToShmid a = some shmid →
    PageAligned a ∧ (s.kernel.segsz shmid).isSome

/-- `shmdt` of the segment of `n` bytes at an address takes its pages away and no others, and gives
their range back. -/
def Detaches (s : System) (host : Host) (address : GuestPage) (n : ℕ) : Prop :=
  ∃ t, s.Ends host (s.mapper.shmdt32 address.addr) 0 t ∧
    (∀ p, t.kernel.page p =
      if Kernel.InPages address.addr (Kernel.attachedSize n) p then .free else s.kernel.page p) ∧
    cover t.mapper.freelist =
      cover s.mapper.freelist ∪ Set.Ico address.addr (address.addr + Kernel.attachedSize n) ∧
    t.mapper.pageToShmid = Function.update s.mapper.pageToShmid address.addr none

/-- The two system calls of `shmdt32` succeed or fail together, and the range it gives back meets
`DeallocateOk`. -/
def DetachOk (s : System) (host : Host) (address : GuestPage) : Prop :=
  ∀ shmid, s.mapper.pageToShmid address.addr = some shmid →
    host.statFails = host.refusesChange ∧ (host.statFails = false →
      ∀ n, s.kernel.segsz shmid = some n →
        DeallocateOk s.mapper.freelist address.addr (segmentSize n))

/-- A call reaches none of the mapper's own slips. That `shmdt32` gives back the pages it detaches
is not asked. -/
def RequestOk (s : System) (call : Request × Host) : Prop :=
  match call with
  | (.shmdt32 address, host) => s.DetachOk host address
  | call => s.CallOk call

/-- The tables describe the mappings: what is missing from the freelist is mapped and what it offers
is not, the segments in the table are those that are attached, `shmdt` of one of them releases it,
and a request that meets `RequestOk` is served and keeps it so. -/
structure Described (s : System) : Prop where
  agree : s.Agree
  table : s.TableExact
  offers : ∀ size address list', PageAligned size →
    Freelist.allocate s.mapper.freelist 0 size = .ok (.address address, list') →
      s.kernel.Vacant address size
  detaches : ∀ (host : Host) (address : GuestPage) shmid n,
    s.mapper.pageToShmid address.addr = some shmid → s.kernel.segsz shmid = some n →
      s.DetachOk host address → host.refusesChange = false → s.Detaches host address n
  next : ∀ call, s.RequestOk call → ∃ result t, s.Ends call.2 (call.1.code s.mapper) result t ∧
    t.Agree ∧ (result < 0 → t.mapper.freelist = s.mapper.freelist)

/-- No page of a shared segment is unmapped, replaced or moved. -/
def LeavesSegments (s : System) : Request → Prop
  | .map32 addr size _ flags _ _ => flags.fixed → ∀ p, Kernel.InPages addr.addr (roundUp size) p →
      (s.kernel.page p).base = none
  | .unmap32 addr size => ∀ p, Kernel.InPages addr.addr (roundUp size) p →
      (s.kernel.page p).base = none
  | .remap32 oldAddress oldSize _ _ _ => ∀ i ≤ roundUp oldSize / 0x1000 - 1,
      (s.kernel.page (oldAddress.addr / 0x1000 + i)).base = none
  | .shmat32 .. => True
  | .shmdt32 _ => True

/-- A call reaches none of the mapper's own slips and leaves the segments alone, and a clone leaves
the mapper alone or starts from an address space in which there is nothing to know. -/
def EventOk (s : System) : Event → Prop
  | .call request host => s.RequestOk (request, host) ∧ s.LeavesSegments request
  | .clone guestFlags newRsp => cloneKind guestFlags newRsp = some .forkMe →
      Disjoint (Set.Ico s.kernel.minAddr (2 ^ 32)) s.kernel.mapped ∧
        ∀ p, (s.kernel.page p).base = none

end System

/-! ## What the kernel does to attached pages -/

namespace Kernel

variable {k : Kernel} {host : Host} {p : ℕ} {base : ℤ}

theorem serve_minAddr (host : Host) (k : Kernel) (call : SysCall) :
    (serve host k call).2.minAddr = k.minAddr := by
  rw [serve]
  split
  · exact after_minAddr k call
  · rfl

theorem run_minAddr {α : Type} (code : Code α) (host : Host) (k : Kernel) :
    (code.run (serve host) k).2.minAddr = k.minAddr := by
  induction code generalizing k with
  | done a => rfl
  | fault e => rfl
  | ask q next ih => exact (ih _ _).trans (serve_minAddr host k q)

/-- The same segments are attached at the same pages. -/
structure SameSegments (k' k : Kernel) : Prop where
  segsz : k'.segsz = k.segsz
  page : ∀ p shmid base, k'.page p = .attached shmid base ↔ k.page p = .attached shmid base

theorem SameSegments.refl (k : Kernel) : SameSegments k k := ⟨rfl, fun _ _ _ ↦ Iff.rfl⟩

theorem SameSegments.trans {k₁ k₂ k₃ : Kernel} (h₁ : SameSegments k₁ k₂) (h₂ : SameSegments k₂ k₃) :
    SameSegments k₁ k₃ :=
  ⟨h₁.segsz.trans h₂.segsz, fun p shmid base ↦ (h₁.page p shmid base).trans (h₂.page p shmid base)⟩

theorem attached_of_base_eq_none {q : Page} (h : q.base = none) (shmid base : ℤ) :
    q ≠ .attached shmid base := by
  rintro rfl
  cases h

theorem sameSegments_fill {addr size : ℕ} {f : ℕ → Page}
    (hold : ∀ p, InPages addr size p → (k.page p).base = none)
    (hnew : ∀ p, InPages addr size p → (f p).base = none) :
    SameSegments (k.fill addr size f) k := by
  refine ⟨rfl, fun p shmid base ↦ ?_⟩
  simp only [fill]
  split
  · next hp =>
    have hneither : f p ≠ .attached shmid base ∧ k.page p ≠ .attached shmid base :=
      ⟨attached_of_base_eq_none (hnew p hp) _ _, attached_of_base_eq_none (hold p hp) _ _⟩
    simp [hneither.1, hneither.2]
  · exact Iff.rfl

theorem sameSegments_serve {call : SysCall}
    (h : k.Grants host call → SameSegments (k.after call) k) :
    SameSegments (serve host k call).2 k := by
  by_cases hg : k.Grants host call
  · rw [serve_of_grants hg]
    exact h hg
  · rw [serve_of_not_grants hg]
    exact .refl k

theorem Vacant.base_eq_none {addr size : ℕ} (h : k.Vacant addr size) (p : ℕ)
    (hp : InPages addr size p) : (k.page p).base = none := by
  rw [h p hp, Page.base_free]

theorem base_shift_eq_none {q : Page} {delta : ℤ} (h : q.base = none) :
    (q.shift delta).base = none := by
  cases q with
  | attached shmid base => cases h
  | free => rfl
  | plain => rfl

/-- `mremap` of pages that are no segment's to where there is none. -/
theorem sameSegments_mremap {oldAddress oldSize : ℕ} (newSize newAddress : ℕ) (flags : RemapFlags)
    (haddr : PageAligned oldAddress)
    (hold : ∀ i ≤ oldSize / 0x1000 - 1, (k.page (oldAddress / 0x1000 + i)).base = none)
    (htarget : ∀ p, InPages (remapTarget oldAddress flags newAddress) newSize p →
      (k.page p).base = none) :
    SameSegments (k.after (.mremap oldAddress oldSize newSize flags newAddress)) k := by
  have hrest : SameSegments (if flags.dontUnmap then k
      else k.fill oldAddress oldSize fun _ ↦ .free) k := by
    split
    · exact .refl k
    · refine sameSegments_fill (fun p hp ↦ ?_) fun _ _ ↦ rfl
      obtain ⟨hlo, hhi⟩ := hp
      unfold PageAligned at haddr
      have hp := hold (p - oldAddress / 0x1000) (by omega)
      rwa [Nat.add_sub_cancel' hlo] at hp
  refine SameSegments.trans (sameSegments_fill (fun p hp ↦ ?_) fun p _ ↦ ?_) hrest
  · have hp := htarget p hp
    cases hq : (if flags.dontUnmap then k else k.fill oldAddress oldSize fun _ ↦ .free).page p with
    | attached shmid base =>
      rw [(hrest.page p shmid base).mp hq] at hp
      cases hp
    | free => rfl
    | plain => rfl
  · exact base_shift_eq_none (hold _ (Nat.min_le_right _ _))

end Kernel

/-! ## What the mapper does to its table -/

namespace Mapper

open Kernel

section

variable {host : Host} {k : Kernel} {m : Mapper} {addr size : ℕ}

theorem ensures_allocate : Ensures (serve host) k (m.allocate addr size) fun r k' ↦
    (∃ list', Freelist.allocate m.freelist (u32 addr) size = .ok (r.1, list') ∧
      r.2 = { m with freelist := list' }) ∧ k' = k :=
  .ofExcept fun r hr ↦ .pure ⟨⟨r.2, hr, rfl⟩, rfl⟩

theorem ensures_deallocate : Ensures (serve host) k (m.deallocate addr size) fun m' k' ↦
    m'.pageToShmid = m.pageToShmid ∧ k' = k :=
  .ofExcept fun _ _ ↦ .pure ⟨rfl, rfl⟩

theorem ensures_makeRoom {flags : MapFlags} {result : ℕ} :
    Ensures (serve host) k (m.makeRoom flags result size) fun m' k' ↦
      m'.pageToShmid = m.pageToShmid ∧ k' = k := by
  rw [makeRoom]
  split
  · exact .require fun _ ↦ ensures_deallocate
  · exact .pure ⟨rfl, rfl⟩

theorem ensures_releaseOld {flags : RemapFlags} :
    Ensures (serve host) k (m.releaseOld flags addr size) fun m' k' ↦
      m'.pageToShmid = m.pageToShmid ∧ k' = k := by
  rw [releaseOld]
  split
  · exact .pure ⟨rfl, rfl⟩
  · exact ensures_deallocate

/-- The table is as it was, and so are the segments. -/
def Keeps (k : Kernel) (m : Mapper) (r : ℤ × Mapper) (k' : Kernel) : Prop :=
  r.2.pageToShmid = m.pageToShmid ∧ SameSegments k' k

/-- What the freelist offers is not mapped. -/
def OffersVacant (k : Kernel) (m : Mapper) : Prop := ∀ size address list', PageAligned size →
  Freelist.allocate m.freelist 0 size = .ok (.address address, list') → k.Vacant address size

theorem keeps_map32 (prot : ℕ) (flags : MapFlags) (fd : ℤ) (offset : ℕ)
    (h : flags.fixed → ∀ p, InPages addr (roundUp size) p → (k.page p).base = none) :
    Ensures (serve host) k (m.map32 addr size prot flags fd offset) (Keeps k m) := by
  -- a mapping that may not replace others is put where there is nothing
  have hmmap : ∀ address flags', (flags'.fixed → flags.fixed ∧ address = addr) →
      SameSegments (serve host k (.mmap address (roundUp size) prot flags' fd offset)).2 k := by
    intro address flags' hfixed
    refine sameSegments_serve fun hg ↦ sameSegments_fill (fun p hp ↦ ?_) fun _ _ ↦ rfl
    obtain hf | hn := hg.1.1
    · obtain ⟨hf, rfl⟩ := hfixed hf
      exact h hf p hp
    · exact (hg.1.2.2.2.2 hn).base_eq_none p hp
  rw [map32]
  split
  · refine .require fun _ ↦ .query ?_
    have hsame := hmmap addr flags fun hf ↦ ⟨hf, rfl⟩
    split
    · exact .pure ⟨rfl, hsame⟩
    · refine .bind (ensures_makeRoom.mono ?_)
      rintro m₁ k₁ ⟨hm₁, rfl⟩
      refine .bind (ensures_allocate.mono ?_)
      rintro ⟨reply, m₂⟩ k₂ ⟨⟨list', -, rfl⟩, rfl⟩
      exact .require fun _ ↦ .pure ⟨hm₁, hsame⟩
  · next hfree =>
    refine .bind (ensures_allocate.mono ?_)
    rintro ⟨reply, m₁⟩ k₁ ⟨⟨list', -, rfl⟩, rfl⟩
    cases reply with
    | enomem => exact .pure ⟨rfl, .refl _⟩
    | address address =>
      refine .query ?_
      have hsame := hmmap address { flags with fixedNoreplace := true }
        fun hf ↦ absurd (.inl hf) hfree
      split
      · exact .pure ⟨rfl, hsame⟩
      · exact .require fun _ ↦ .pure ⟨rfl, hsame⟩

theorem keeps_unmap32 (h : ∀ p, InPages addr (roundUp size) p → (k.page p).base = none) :
    Ensures (serve host) k (m.unmap32 addr size) (Keeps k m) := by
  refine .require fun _ ↦ .query ?_
  have hsame : SameSegments (serve host k (.munmap addr (roundUp size))).2 k :=
    sameSegments_serve fun _ ↦ sameSegments_fill h fun _ _ ↦ rfl
  split
  · exact .pure ⟨rfl, hsame⟩
  · refine .bind (ensures_deallocate.mono ?_)
    rintro m₁ k₁ ⟨hm₁, rfl⟩
    exact .pure ⟨hm₁, hsame⟩

theorem keeps_remap32 {oldAddress oldSize newSize newAddress : ℕ} {flags : RemapFlags}
    (haddr : PageAligned oldAddress) (hoffers : OffersVacant k m)
    (h : ∀ i ≤ roundUp oldSize / 0x1000 - 1, (k.page (oldAddress / 0x1000 + i)).base = none)
    (htarget : flags.fixed ∨ ¬flags.mayMove →
      k.Grants host (.mremap oldAddress (roundUp oldSize) (roundUp newSize) flags newAddress) →
      ∀ p, InPages (remapTarget oldAddress flags newAddress) (roundUp newSize) p →
        (k.page p).base = none) :
    Ensures (serve host) k (m.remap32 oldAddress oldSize newSize flags newAddress) (Keeps k m) := by
  refine .require fun _ ↦ .require fun _ ↦ .require fun _ ↦ ?_
  split
  · next hfixed =>
    refine .require fun _ ↦ .query ?_
    have hsame : SameSegments (serve host k (.mremap oldAddress (roundUp oldSize) (roundUp newSize)
        flags newAddress)).2 k :=
      sameSegments_serve fun hg ↦ sameSegments_mremap _ _ _ haddr h (htarget hfixed hg)
    split
    · exact .pure ⟨rfl, hsame⟩
    · refine .require fun _ ↦ .bind (ensures_releaseOld.mono ?_)
      rintro m₁ k₁ ⟨hm₁, rfl⟩
      refine .bind (ensures_allocate.mono ?_)
      rintro ⟨reply, m₂⟩ k₂ ⟨⟨list', -, rfl⟩, rfl⟩
      exact .require fun _ ↦ .pure ⟨hm₁, hsame⟩
  · refine .bind (ensures_allocate.mono ?_)
    rintro ⟨reply, m₁⟩ k₁ ⟨⟨list', halloc, rfl⟩, rfl⟩
    simp only
    split
    · exact .pure ⟨rfl, .refl _⟩
    · cases reply with
      | enomem => exact .pure ⟨rfl, .refl _⟩
      | address address =>
        refine .query ?_
        have hvac := hoffers _ _ _ (roundUp_aligned newSize) halloc
        have hsame : SameSegments (serve host k₁ (.mremap oldAddress (roundUp oldSize)
            (roundUp newSize) { flags with mayMove := true, fixed := true } address)).2 k₁ :=
          sameSegments_serve fun _ ↦ sameSegments_mremap _ _ _ haddr h hvac.base_eq_none
        split
        · exact .fault
        · refine .bind (ensures_releaseOld.mono ?_)
          rintro m₂ k₂ ⟨hm₂, rfl⟩
          exact .require fun _ ↦ .pure ⟨hm₂, hsame⟩

theorem keeps_releaseSegment {shmid : ℤ} :
    Ensures (serve host) k (m.releaseSegment shmid addr) fun m' k' ↦
      m'.pageToShmid = m.pageToShmid ∧ k' = k := by
  refine .query ?_
  have hsame : (serve host k (.shmctl shmid)).2 = k := by
    rw [serve]
    split <;> rfl
  rw [hsame]
  split
  · refine ensures_deallocate.mono ?_
    rintro m₁ k₁ ⟨hm₁, rfl⟩
    exact ⟨hm₁, rfl⟩
  · exact .pure ⟨rfl, rfl⟩

end

end Mapper

namespace System

open Kernel (InPages attachedSize SameSegments)

variable {s t : System} {host : Host}

/-- What the freelist offers is not mapped. -/
theorem Tracks.offered (h : s.Tracks) {size address : ℕ} (hsize : PageAligned size)
    {list' : List Node}
    (halloc : Freelist.allocate s.mapper.freelist 0 size = .ok (.address address, list')) :
    address < 2 ^ 32 ∧ PageAligned address ∧ s.kernel.Vacant address size := by
  by_cases hsmall : ∀ n ∈ s.mapper.freelist, extent n < size
  · rw [allocate_zero_of_small h.exact h.zero_notMem hsize hsmall] at halloc
    cases halloc
  · obtain ⟨best, list'', ho⟩ := h.exists_offer hsize hsmall
    rw [ho.allocated] at halloc
    injection halloc with halloc
    injection halloc with haddress
    injection haddress with haddress
    exact haddress ▸ ⟨ho.lt, ho.aligned, ho.vacant⟩

theorem Tracks.offersVacant (h : s.Tracks) : OffersVacant s.kernel s.mapper :=
  fun _ _ _ hsize halloc ↦ (h.offered hsize halloc).2.2

namespace TableExact

variable {a : ℕ} {shmid : ℤ} {n : ℕ}

/-- The pages of a segment in the table. -/
theorem base_iff (h : s.TableExact) (hid : s.mapper.pageToShmid a = some shmid)
    (hn : s.kernel.segsz shmid = some n) (p : ℕ) :
    (s.kernel.page p).base = some ((a / 0x1000 : ℕ) : ℤ) ↔ InPages a (attachedSize n) p := by
  rw [Page.base_eq_some]
  constructor
  · rintro ⟨other, hp⟩
    obtain ⟨b, m, hbase, hid', hm, hin⟩ := (h.page p other _).mp hp
    -- two entries that start at one page are one
    have hab : a = b := by
      have ha := (h.entry a _ hid).1
      have hb := (h.entry b _ hid').1
      unfold PageAligned at ha hb
      have hdiv : a / 0x1000 = b / 0x1000 := by exact_mod_cast hbase
      omega
    subst hab
    obtain rfl : shmid = other := by simpa [hid] using hid'
    obtain rfl : n = m := by simpa [hn] using hm
    exact hin
  · exact fun hin ↦ ⟨shmid, (h.page p shmid _).mpr ⟨a, n, rfl, hid, hn, hin⟩⟩

/-- A segment has a first page. -/
theorem inPages_start (k : Kernel) (hn : k.segsz shmid = some n) (ha : PageAligned a) :
    InPages a (attachedSize n) (a / 0x1000) := by
  have hpos := attachedSize_pos (k.segsz_bounds shmid n hn).1
  have hsize := attachedSize_aligned n
  unfold PageAligned at ha hsize
  exact ⟨le_rfl, by omega⟩

/-- A call that keeps the table and the segments. -/
theorem of_keeps {code : Code (ℤ × Mapper)} {result : ℤ} (h : s.TableExact)
    (hkeeps : Ensures (Kernel.serve host) s.kernel code (Keeps s.kernel s.mapper))
    (hend : s.Ends host code result t) : t.TableExact := by
  obtain ⟨htable, hsame⟩ := hkeeps _ _ hend
  have htable : t.mapper.pageToShmid = s.mapper.pageToShmid := htable
  refine ⟨fun p shmid base ↦ ?_, fun a shmid hid ↦ ?_⟩
  · rw [hsame.page, htable, hsame.segsz]
    exact h.page p shmid base
  · rw [hsame.segsz]
    exact h.entry a shmid (htable ▸ hid)

/-- A vacant address has no entry: that would be a segment that is attached there. -/
theorem pageToShmid_eq_none (h : s.TableExact) (hn : s.kernel.segsz shmid = some n) {address : ℕ}
    (haligned : PageAligned address) (hvac : s.kernel.Vacant address (attachedSize n)) :
    s.mapper.pageToShmid address = none := by
  by_contra hsome
  obtain ⟨other, hother⟩ := Option.ne_none_iff_exists'.mp hsome
  obtain ⟨m, hm⟩ := Option.isSome_iff_exists.mp (h.entry address other hother).2
  have hbase := (h.base_iff hother hm _).mpr (inPages_start s.kernel hm haligned)
  rw [hvac.base_eq_none _ (inPages_start s.kernel hn haligned)] at hbase
  cases hbase

/-- A segment is attached where nothing is mapped. -/
theorem shmat (h : s.TableExact) (hn : s.kernel.segsz shmid = some n) {address : ℕ}
    (hlt : address < 2 ^ 32) (haligned : PageAligned address)
    (hvac : s.kernel.Vacant address (attachedSize n)) (flags : ShmFlags) (list' : List Node) :
    System.TableExact ⟨⟨list', Function.update s.mapper.pageToShmid (u32 address / 0x1000 * 0x1000)
      (some shmid)⟩, s.kernel.after (.shmat shmid address flags)⟩ := by
  have hpage : u32 address / 0x1000 * 0x1000 = address := by
    unfold PageAligned at haligned
    rw [u32_of_lt hlt]
    omega
  have hnew := h.pageToShmid_eq_none hn haligned hvac
  have hpages : ∀ p, (s.kernel.after (.shmat shmid address flags)).page p =
      if InPages address (attachedSize n) p then .attached shmid (address / 0x1000 : ℕ)
      else s.kernel.page p := by
    intro p
    simp only [Kernel.after, Kernel.fill, hn, Option.getD_some]
  rw [hpage]
  refine ⟨fun p id base ↦ ?_, fun a id hid ↦ ?_⟩
  · change (s.kernel.after (.shmat shmid address flags)).page p = _ ↔ ∃ a m, _ ∧
      Function.update s.mapper.pageToShmid address (some shmid) a = some id ∧
        (s.kernel.after (.shmat shmid address flags)).segsz id = some m ∧ _
    rw [hpages, Kernel.after_segsz]
    by_cases hin : InPages address (attachedSize n) p
    · rw [if_pos hin]
      constructor
      · intro heq
        obtain ⟨rfl, rfl⟩ : shmid = id ∧ ((address / 0x1000 : ℕ) : ℤ) = base := by
          simpa using heq
        exact ⟨address, n, rfl, Function.update_self _ _ _, hn, hin⟩
      · rintro ⟨a, m, rfl, hid, hm, hpa⟩
        by_cases ha : a = address
        · subst ha
          rw [Function.update_self] at hid
          rw [Option.some.inj hid]
        · rw [Function.update_of_ne ha] at hid
          have hold := (h.page p id _).mpr ⟨a, m, rfl, hid, hm, hpa⟩
          exact absurd hold (Kernel.attached_of_base_eq_none (hvac.base_eq_none p hin) _ _)
    · rw [if_neg hin, h.page]
      constructor
      · rintro ⟨a, m, hbase, hid, hm, hpa⟩
        have ha : a ≠ address := by
          rintro rfl
          rw [hnew] at hid
          cases hid
        exact ⟨a, m, hbase, by rwa [Function.update_of_ne ha], hm, hpa⟩
      · rintro ⟨a, m, hbase, hid, hm, hpa⟩
        by_cases ha : a = address
        · subst ha
          rw [Function.update_self] at hid
          obtain rfl := Option.some.inj hid
          obtain rfl : n = m := by simpa [hn] using hm
          exact absurd hpa hin
        · rw [Function.update_of_ne ha] at hid
          exact ⟨a, m, hbase, hid, hm, hpa⟩
  · change Function.update s.mapper.pageToShmid address (some shmid) a = some id at hid
    change PageAligned a ∧ ((s.kernel.after (.shmat shmid address flags)).segsz id).isSome
    rw [Kernel.after_segsz]
    by_cases ha : a = address
    · subst ha
      rw [Function.update_self] at hid
      obtain rfl := Option.some.inj hid
      exact ⟨haligned, by rw [hn]; rfl⟩
    · rw [Function.update_of_ne ha] at hid
      exact h.entry a id hid

/-- A segment is detached and its entry erased. -/
theorem shmdt (h : s.TableExact) (hid : s.mapper.pageToShmid a = some shmid) (list' : List Node) :
    System.TableExact ⟨⟨list', Function.update s.mapper.pageToShmid a none⟩,
      s.kernel.after (.shmdt a)⟩ := by
  refine ⟨fun p id base ↦ ?_, fun b id hb ↦ ?_⟩
  · change (if (s.kernel.page p).base = some ((a / 0x1000 : ℕ) : ℤ) then Page.free
        else s.kernel.page p) = _ ↔ ∃ b m, _ ∧
      Function.update s.mapper.pageToShmid a none b = some id ∧ s.kernel.segsz id = some m ∧ _
    split
    · next hbase =>
      refine ⟨Page.noConfusion, ?_⟩
      rintro ⟨b, m, rfl, hb, hm, hpb⟩
      have hne : b ≠ a := by
        rintro rfl
        rw [Function.update_self] at hb
        cases hb
      rw [Function.update_of_ne hne] at hb
      have hold := (h.base_iff hb hm p).mpr hpb
      -- the page would be of two segments
      have ha := (h.entry a _ hid).1
      have hb' := (h.entry b _ hb).1
      unfold PageAligned at ha hb'
      have hdiv : a / 0x1000 = b / 0x1000 := by
        rw [hbase] at hold
        exact_mod_cast Option.some.inj hold
      omega
    · next hbase =>
      rw [h.page]
      constructor
      · rintro ⟨b, m, rfl, hb, hm, hpb⟩
        have hne : b ≠ a := by
          rintro rfl
          exact hbase ((h.base_iff hb hm p).mpr hpb)
        exact ⟨b, m, rfl, by rwa [Function.update_of_ne hne], hm, hpb⟩
      · rintro ⟨b, m, hb', hb, hm, hpb⟩
        have hne : b ≠ a := by
          rintro rfl
          rw [Function.update_self] at hb
          cases hb
        rw [Function.update_of_ne hne] at hb
        exact ⟨b, m, hb', hb, hm, hpb⟩
  · change Function.update s.mapper.pageToShmid a none b = some id at hb
    have hne : b ≠ a := by
      rintro rfl
      rw [Function.update_self] at hb
      cases hb
    rw [Function.update_of_ne hne] at hb
    exact h.entry b id hb

/-- `TableExact` of a mapper and a kernel that code ends with. -/
def After (r : Attachment) (k : Kernel) : Prop := System.TableExact ⟨r.2, k⟩

theorem ensures_shmatDone {m : Mapper} {k : Kernel} {shmMem : ℕ}
    (h : System.TableExact ⟨⟨m.freelist, Function.update m.pageToShmid
      (u32 shmMem / 0x1000 * 0x1000) (some shmid)⟩, k⟩) :
    Ensures (Kernel.serve host) k (m.shmatDone shmid shmMem) After :=
  .require fun _ ↦ .pure h

theorem shmat32 (h : s.TableExact) (htracks : s.Tracks) (address : GuestPage) {flags : ShmFlags}
    (hok : s.CallOk (.shmat32 shmid address flags, host)) :
    Ensures (Kernel.serve host) s.kernel (s.mapper.shmat32 shmid address.addr flags) After := by
  refine .query ?_
  have hsame : (Kernel.serve host s.kernel (.shmctl shmid)).2 = s.kernel := by
    rw [Kernel.serve]
    split <;> rfl
  by_cases hstat : s.kernel.Grants host (.shmctl shmid)
  · obtain ⟨n, hn⟩ := Option.isSome_iff_exists.mp hstat.1
    obtain ⟨-, hplace⟩ := hok n hn hstat.2
    have hvalue : s.kernel.value (.shmctl shmid) = n := by
      rw [Kernel.value, hn]
      rfl
    have hsize : segmentSize n = attachedSize n :=
      segmentSize_eq (s.kernel.segsz_bounds shmid n hn).2
    rw [hsame, Kernel.serve_of_grants hstat, hvalue]
    rw [hsize] at hplace
    refine .require fun _ ↦ ?_
    rw [hsize]
    split
    · refine .bind (ensures_allocate.mono ?_)
      rintro ⟨reply, m₁⟩ k₁ ⟨⟨list', halloc, rfl⟩, rfl⟩
      cases reply with
      | enomem => exact .pure ⟨h.page, h.entry⟩
      | address offered =>
        obtain ⟨hlt, haligned, hvac⟩ := htracks.offered (attachedSize_aligned n) halloc
        refine .query ?_
        by_cases hg : s.kernel.Grants host (.shmat shmid offered flags)
        · rw [Kernel.serve_of_grants hg]
          exact .require fun _ ↦ ensures_shmatDone (h.shmat hn hlt haligned hvac flags list')
        · rw [Kernel.serve_of_not_grants hg]
          exact .fault
    · next hne =>
      rw [if_neg hne] at hplace
      refine .require fun _ ↦ .query ?_
      by_cases hg : s.kernel.Grants host (.shmat shmid address.addr flags)
      · rw [Kernel.serve_of_grants hg]
        refine .require fun _ ↦ .bind (ensures_allocate.mono ?_)
        rintro ⟨reply, m₁⟩ k₁ ⟨⟨list', -, rfl⟩, rfl⟩
        exact .require fun _ ↦ ensures_shmatDone
          (h.shmat hn address.lt address.aligned (hplace.2 hg) flags list')
      · rw [Kernel.serve_of_not_grants hg]
        exact .pure h
  · rw [hsame, Kernel.serve_of_not_grants hstat]
    exact .pure h

theorem u32_page (address : GuestPage) :
    u32 address.addr / 0x1000 * 0x1000 = address.addr := by
  have := address.aligned
  unfold PageAligned at this
  rw [u32_of_lt address.lt]
  omega

theorem shmdt32 (h : s.TableExact) (address : GuestPage) {result : ℤ}
    (hend : s.Ends host (s.mapper.shmdt32 address.addr) result t) : t.TableExact := by
  have hensures : Ensures (Kernel.serve host) s.kernel (s.mapper.shmdt32 address.addr)
      fun r k ↦ System.TableExact ⟨r.2, k⟩ := by
    rw [Mapper.shmdt32]
    simp only [u32_page]
    cases hid : s.mapper.pageToShmid address.addr with
    | none => exact .pure h
    | some shmid =>
      refine .bind (keeps_releaseSegment.mono ?_)
      rintro m₁ k₁ ⟨htable, rfl⟩
      refine .query ?_
      by_cases hg : s.kernel.Grants host (.shmdt address.addr)
      · rw [Kernel.serve_of_grants hg]
        refine .pure ?_
        rw [htable]
        exact h.shmdt hid m₁.freelist
      · rw [Kernel.serve_of_not_grants hg]
        refine .pure ⟨?_, ?_⟩
        · rw [htable]
          exact h.page
        · rw [htable]
          exact h.entry
  exact hensures _ _ hend

/-- Where `mremap` puts pages there is no segment. -/
theorem target_base_eq_none {oldAddress newAddress : GuestPage} {oldSize newSize : Fin (2 ^ 64)}
    {flags : RemapFlags}
    (hok : s.CallOk (.remap32 oldAddress oldSize newSize flags newAddress, host))
    (hleaves : s.LeavesSegments (.remap32 oldAddress oldSize newSize flags newAddress))
    (hfixed : flags.fixed ∨ ¬flags.mayMove)
    (hg : s.kernel.Grants host (.mremap oldAddress.addr (roundUp oldSize) (roundUp newSize) flags
      newAddress.addr)) (p : ℕ)
    (hp : InPages (Kernel.remapTarget oldAddress.addr flags newAddress.addr) (roundUp newSize) p) :
    (s.kernel.page p).base = none := by
  obtain ⟨-, -, -, hplace⟩ := hok
  rw [if_pos hfixed] at hplace
  obtain ⟨-, htarget, -⟩ := hplace hg
  rw [Kernel.remapTarget] at hp
  by_cases hf : flags.fixed = true
  · rw [if_pos hf] at hp htarget
    exact htarget.base_eq_none p hp
  · -- the mapping stays, and what it grows by was free
    rw [if_neg hf] at hp
    have hgrow := hg.1.2.2.2.2.2.2 (hfixed.resolve_left hf)
    have haligned := oldAddress.aligned
    have hsize := roundUp_aligned oldSize
    unfold PageAligned at haligned hsize
    obtain ⟨hlo, hhi⟩ := hp
    by_cases hin : p - oldAddress.addr / 0x1000 ≤ roundUp oldSize / 0x1000 - 1
    · have hpage := hleaves (p - oldAddress.addr / 0x1000) hin
      rwa [Nat.add_sub_cancel' hlo] at hpage
    · exact hgrow.base_eq_none p ⟨by omega, by omega⟩

/-- What `shmdt32` gives back are the pages that `shmdt` detaches. -/
theorem callOk (h : s.TableExact) {address : GuestPage} (hok : s.DetachOk host address) :
    s.CallOk (.shmdt32 address, host) := by
  intro shmid hid
  obtain ⟨hfate, hdealloc⟩ := hok shmid hid
  refine ⟨fun n hn hstat ↦ ⟨hdealloc hstat n hn, ?_⟩, fun hg ↦ ?_⟩
  · have hsize : segmentSize n = attachedSize n :=
      segmentSize_eq (s.kernel.segsz_bounds shmid n hn).2
    have hdetached : s.kernel.detached host address.addr =
        Set.Ico address.addr (address.addr + attachedSize n) := by
      ext x
      rw [Kernel.detached, Set.mem_ofPred_eq, ← hfate, h.base_iff hid hn,
        Kernel.inPages_iff address.aligned (attachedSize_aligned n)]
      simp [hstat]
    rw [hdetached, hsize]
    refine Set.inter_eq_left.mpr fun x hx ↦ ?_
    have hin := (Kernel.inPages_iff address.aligned (attachedSize_aligned n)).mpr hx
    have hbase := (h.base_iff hid hn _).mpr hin
    intro hfree
    rw [hfree] at hbase
    cases hbase
  · have hfails : host.refusesChange = true := by
      rw [← hfate]
      by_contra hstat
      exact hg ⟨(h.entry _ _ hid).2, by simpa [Host.refuses] using hstat⟩
    refine Set.eq_empty_of_forall_notMem fun x hx ↦ ?_
    rw [Kernel.detached, Set.mem_ofPred_eq, hfails] at hx
    exact absurd hx.1 (by decide)

end TableExact

/-- In a system whose table is exact, a request that meets `RequestOk` meets `CallOk`. -/
theorem RequestOk.callOk {call : Request × Host} (hok : s.RequestOk call) (h : s.TableExact) :
    s.CallOk call := by
  obtain ⟨request, host⟩ := call
  cases request with
  | shmdt32 address => exact h.callOk hok
  | _ => exact hok

/-- The release of a segment. -/
theorem Tracks.detaches (h : s.Tracks) (htable : s.TableExact) {address : GuestPage} {shmid : ℤ}
    {n : ℕ} (hid : s.mapper.pageToShmid address.addr = some shmid)
    (hn : s.kernel.segsz shmid = some n) (hok : s.DetachOk host address)
    (hrefuses : host.refusesChange = false) : s.Detaches host address n := by
  have hcall := htable.callOk hok
  obtain ⟨hstat, hlost⟩ := hcall shmid hid
  obtain ⟨list', gone, hrun, -⟩ := run_releaseSegment h address (h.shmids _ _ hid) hstat hlost
  have hg : s.kernel.Grants host (.shmdt address.addr) :=
    ⟨⟨_, (htable.base_iff hid hn _).mpr (TableExact.inPages_start s.kernel hn address.aligned)⟩,
      hrefuses⟩
  let t : System := ⟨⟨list', Function.update s.mapper.pageToShmid address.addr none⟩,
    s.kernel.after (.shmdt address.addr)⟩
  have hend : s.Ends host (s.mapper.shmdt32 address.addr) 0 t := by
    simp only [Ends, Mapper.shmdt32, TableExact.u32_page, hid]
    refine (Dialogue.run_bind_of_ok _ hrun).trans ?_
    refine (Dialogue.run_query_bind _ _).trans ?_
    rw [Kernel.serve_of_grants hg]
    rfl
  have hpages : ∀ p, t.kernel.page p =
      if InPages address.addr (attachedSize n) p then .free else s.kernel.page p := by
    intro p
    change (if (s.kernel.page p).base = some ((address.addr / 0x1000 : ℕ) : ℤ) then Page.free
      else s.kernel.page p) = _
    exact if_congr (htable.base_iff hid hn p) rfl rfl
  refine ⟨t, hend, hpages, ?_, rfl⟩
  -- both lists are exact, so it is enough to compare what is mapped
  have ht : t.Tracks := h.step ⟨hcall, 0, hend⟩
  have hsize := attachedSize_aligned n
  have hstat' : host.statFails = false := by rw [(hok shmid hid).1, hrefuses]
  have hfit := ((hok shmid hid).2 hstat' n hn).2.1
  rw [segmentSize_eq (s.kernel.segsz_bounds shmid n hn).2] at hfit
  have hmin := h.shmids _ _ hid
  rw [ht.exact.cover_eq, h.exact.cover_eq]
  ext x
  have hmapped : x ∈ t.kernel.mapped ↔
      x ∉ Set.Ico address.addr (address.addr + attachedSize n) ∧ x ∈ s.kernel.mapped := by
    rw [← Kernel.inPages_iff address.aligned hsize]
    simp only [Kernel.mapped, Set.mem_ofPred_eq, hpages]
    split <;> simp_all
  have hminAddr : t.kernel.minAddr = s.kernel.minAddr := rfl
  simp only [Kernel.guestFree, Set.mem_sdiff, Set.mem_union, hmapped, hminAddr, Set.mem_Ico]
  by_cases hx : address.addr ≤ x ∧ x < address.addr + attachedSize n
  · have hlow : s.kernel.minAddr ≤ x ∧ x < 2 ^ 32 := ⟨hmin.trans hx.1, hx.2.trans_le hfit⟩
    simp only [hx, hlow, not_true_eq_false, false_and, not_false_eq_true, and_self, or_true]
  · simp only [hx, not_false_eq_true, true_and, or_false]

/-! ## Runs -/

/-- What every step keeps. -/
structure ForkInv (s : System) : Prop where
  tracks : s.Tracks
  table : s.TableExact
  min_lt : s.kernel.minAddr < 2 ^ 32

theorem ForkInv.call (h : s.ForkInv) {request : Request} (hok : s.RequestOk (request, host))
    (hleaves : s.LeavesSegments request) (hstep : s.Step (request, host) t) : t.ForkInv := by
  have hcall := hok.callOk h.table
  obtain ⟨result, hend⟩ := id hstep
  refine ⟨h.tracks.step ⟨hcall, hstep⟩, ?_, ?_⟩
  · cases request with
    | map32 addr size prot flags fd offset =>
      exact h.table.of_keeps (keeps_map32 _ _ _ _ hleaves) hend
    | unmap32 addr size => exact h.table.of_keeps (keeps_unmap32 hleaves) hend
    | remap32 oldAddress oldSize newSize flags newAddress =>
      exact h.table.of_keeps (keeps_remap32 oldAddress.aligned h.tracks.offersVacant hleaves
        (TableExact.target_base_eq_none hcall hleaves)) hend
    | shmat32 shmid address flags =>
      have hensures : Ensures (Kernel.serve host) s.kernel
          (Request.code s.mapper (.shmat32 shmid address flags))
          fun r k ↦ System.TableExact ⟨r.2, k⟩ :=
        .bind ((h.table.shmat32 h.tracks address hcall).mono fun _ _ hafter ↦ .pure hafter)
      exact hensures _ _ hend
    | shmdt32 address => exact h.table.shmdt32 address hend
  · have hmin := Kernel.run_minAddr (request.code s.mapper) host s.kernel
    rw [Ends] at hend
    rw [hend] at hmin
    exact hmin ▸ h.min_lt

/-- A new mapper is right where nothing is mapped. -/
theorem ForkInv.fork (h : s.ForkInv)
    (hempty : Disjoint (Set.Ico s.kernel.minAddr (2 ^ 32)) s.kernel.mapped)
    (hnone : ∀ p, (s.kernel.page p).base = none) : (s.clone .forkMe).ForkInv := by
  refine ⟨⟨?_, h.tracks.above, fun _ _ hid ↦ (by cases hid), h.tracks.min_pos,
    h.tracks.min_aligned⟩, ⟨fun p shmid base ↦ ?_, fun _ _ hid ↦ (by cases hid)⟩, h.min_lt⟩
  · have hfree : s.kernel.guestFree = (State.initial s.kernel.minAddr).free := by
      rw [Kernel.guestFree, hempty.sdiff_eq_left, State.initial, u32_of_lt h.min_lt]
      ext a
      simp only [Set.mem_Icc, Set.mem_Ico, uint32Max]
      omega
    change Exact (Freelist.initial s.kernel.minAddr) s.kernel.guestFree
    rw [hfree]
    exact exact_initial s.kernel.minAddr
  · refine ⟨fun hp ↦ absurd hp (Kernel.attached_of_base_eq_none (hnone p) _ _), ?_⟩
    rintro ⟨a, n, -, hid, -⟩
    cases hid

theorem ForkInv.step {e : Event} (h : s.ForkInv) (hstep : Guarded EventOk ForkStep s e t) :
    t.ForkInv := by
  obtain ⟨hok, hstep⟩ := hstep
  cases hstep with
  | call hcall => exact h.call hok.1 hok.2 hcall
  | @clone guestFlags newRsp kind hkind =>
    cases kind with
    | vforkMe => exact h
    | forkMe =>
      obtain ⟨hempty, hnone⟩ := hok hkind
      exact h.fork hempty hnone
    | cloneMe => exact h

theorem Initial.forkInv (h : s.Initial) : s.ForkInv := by
  refine ⟨h.tracks, ⟨fun p shmid base ↦ ?_, fun a shmid hid ↦ ?_⟩, h.min_lt⟩
  · rw [h.unmapped p]
    refine ⟨Page.noConfusion, ?_⟩
    rintro ⟨a, n, -, hid, -⟩
    rw [h.shmid_eq] at hid
    cases hid
  · rw [h.shmid_eq] at hid
    cases hid

/-- After every run of calls and clones that meet `EventOk`, the tables of the process that goes on
describe its mappings. -/
theorem described_of_run {s₀ : System} {events : List Event} (hinit : s₀.Initial)
    (hrun : Run (Guarded EventOk ForkStep) s₀ events s) : s.Described := by
  have hinv : s.ForkInv := hrun.invariant hinit.forkInv fun _ _ _ h hstep ↦ h.step hstep
  refine ⟨hinv.tracks.agree, hinv.table, hinv.tracks.offersVacant, ?_, fun call hok ↦ ?_⟩
  · intro host address shmid n hid hn hok hrefuses
    exact hinv.tracks.detaches hinv.table hid hn hok hrefuses
  · obtain ⟨result, t, hend, ht, hkeep⟩ :=
      served_of_callOk hinv.tracks (hok.callOk hinv.table)
    exact ⟨result, t, hend, ht.agree, hkeep⟩

/-- The flags of `fork`: `SIGCLD`. -/
def forkFlags : BitVec 64 := 0x11

/-- A page is mapped where the freelist puts it. -/
theorem step_onePage : ∃ t, fresh.Step (onePage, ⟨false, false, 12, by decide⟩) t ∧
    0x10000 ∈ t.kernel.mapped := by
  let host : Host := ⟨false, false, 12, by decide⟩
  have hg : fresh.kernel.Grants host onePageCall :=
    ⟨⟨Or.inr rfl, by decide, by decide, by decide, fun _ _ _ ↦ rfl⟩, rfl⟩
  refine ⟨⟨⟨[⟨0x11000, uint32Max⟩], fun _ ↦ none⟩, fresh.kernel.after onePageCall⟩,
    ⟨(0x10000 : ℕ), ?_⟩, ?_⟩
  · rw [Ends, onePage, Request.code, map32, if_neg (by decide), map32Anywhere]
    refine (Dialogue.run_bind_of_ok _ (run_allocate host _ (by decide) allocate_onePage)).trans ?_
    refine (Dialogue.run_query_bind _ _).trans ?_
    rw [Kernel.serve_of_grants hg]
    rfl
  · have hmapped : (fresh.kernel.after onePageCall).mapped = _ :=
      Kernel.mapped_fill (k := fresh.kernel) (by decide) (roundUp_aligned _)
        fun _ _ ↦ Page.noConfusion
    rw [hmapped]
    exact Or.inr ⟨le_rfl, by decide⟩

/-- A new system with a segment of two pages. -/
def oneSegment : System where
  mapper := fresh.mapper
  kernel :=
    { fresh.kernel with
      segsz := fun shmid ↦ if shmid = 7 then some 0x2000 else none
      segsz_bounds := by
        intro shmid n hn
        split at hn
        · obtain rfl := Option.some.inj hn
          decide
        · cases hn }

theorem initial_oneSegment : oneSegment.Initial := by
  refine ⟨fun _ ↦ rfl, rfl, fun _ ↦ rfl, ?_, ?_, ?_⟩ <;> decide

theorem null_lt : 0 < 2 ^ 32 := by decide

theorem null_aligned : PageAligned 0 := by decide

/-- The guest attaches it, anywhere. -/
def attach : Request := .shmat32 7 ⟨0, null_lt, null_aligned⟩ ⟨false, 0⟩

/-- A host that refuses nothing. -/
def willing : Host := ⟨false, false, 12, by decide⟩

theorem allocate_oneSegment : Freelist.allocate oneSegment.mapper.freelist 0 0x2000 =
    .ok (.address 0x10000, [⟨0x12000, uint32Max⟩]) := by
  decide

/-- The system it is attached in. -/
def attached : System where
  mapper := ⟨[⟨0x12000, uint32Max⟩], Function.update (fun _ ↦ none) 0x10000 (some 7)⟩
  kernel := oneSegment.kernel.after (.shmat 7 0x10000 ⟨false, 0⟩)

theorem step_attach : oneSegment.Step (attach, willing) attached := by
  have hstat : oneSegment.kernel.Grants willing (.shmctl 7) := ⟨rfl, rfl⟩
  have hg : oneSegment.kernel.Grants willing (.shmat 7 0x10000 ⟨false, 0⟩) :=
    ⟨⟨0x2000, rfl, by decide, by decide, fun _ _ _ ↦ rfl⟩, rfl⟩
  have hshmat : Dialogue.run (Kernel.serve willing) oneSegment.kernel
      (oneSegment.mapper.shmat32 7 0 ⟨false, 0⟩) =
      (.ok ((0, some 0x10000), attached.mapper), attached.kernel) := ?_
  · exact ⟨0, Dialogue.run_bind_of_ok _ hshmat⟩
  rw [Mapper.shmat32, Dialogue.run_query_bind, Kernel.serve_of_grants hstat]
  refine (run_assert_bind willing oneSegment.kernel (c := segmentSize 0x2000 < 0xFFFFFFFF)
    (by decide) _).trans ?_
  rw [if_pos rfl, shmatAnywhere]
  refine (Dialogue.run_bind_of_ok _
    (run_allocate willing _ (by decide) allocate_oneSegment)).trans ?_
  refine (Dialogue.run_query_bind _ _).trans ?_
  rw [Kernel.serve_of_grants hg]
  rfl

/-- A segment is attached, and the child of a `vfork` knows where it is and releases it. -/
theorem described_vfork : ∃ s, Run (Guarded EventOk ForkStep) oneSegment
    [.call attach willing, .clone vforkFlags 0] s ∧ s.Described ∧ 0x11000 ∈ s.kernel.mapped ∧
      s.Detaches willing ⟨0x10000, by decide, by decide⟩ 0x2000 := by
  have hsegsz : ∀ n, oneSegment.kernel.segsz 7 = some n → n = 0x2000 := by
    intro n hn
    exact (Option.some.inj hn).symm
  have hplaced : oneSegment.RequestOk (attach, willing) := by
    intro n hn _
    rw [hsegsz n hn]
    exact ⟨by decide, .inr rfl⟩
  have hrun : Run (Guarded EventOk ForkStep) oneSegment
      [.call attach willing, .clone vforkFlags 0] (attached.clone .vforkMe) :=
    .cons ⟨⟨hplaced, trivial⟩, .call step_attach⟩
      (.single ⟨fun hkind ↦ absurd hkind (by decide), .clone (by decide)⟩)
  have hdescribed := described_of_run initial_oneSegment hrun
  have hentry : attached.mapper.pageToShmid 0x10000 = some 7 := rfl
  have hin : Kernel.InPages 0x10000 (Kernel.attachedSize 0x2000) 0x11 := by decide
  refine ⟨_, hrun, hdescribed, ?_, ?_⟩
  · have hpage : attached.kernel.page 0x11 = .attached 7 (0x10000 / 0x1000 : ℕ) :=
      (hdescribed.table.page _ _ _).mpr ⟨0x10000, 0x2000, rfl, hentry, rfl, hin⟩
    change attached.kernel.page (0x11000 / 0x1000) ≠ .free
    rw [hpage]
    exact Page.noConfusion
  · have hok : attached.DetachOk willing ⟨0x10000, by decide, by decide⟩ := by
      refine fun shmid hid ↦ ⟨rfl, fun _ n hn ↦ ?_⟩
      obtain rfl : 7 = shmid := Option.some.inj (hentry.symm.trans hid)
      rw [hsegsz n hn]
      have habove : ∃ m ∈ attached.mapper.freelist, 0x10000 ≤ m.start :=
        ⟨_, List.mem_singleton.mpr rfl, by decide⟩
      exact ⟨by decide, by decide, .inr (.inl ⟨habove, by decide⟩)⟩
    exact hdescribed.detaches willing _ 7 0x2000 hentry rfl hok rfl

/-- The child of a `fork` has the same page and takes it for free. -/
theorem not_described_fork : ¬∀ (s₀ s : System) (events : List Event), s₀.Initial →
    Run ForkStep s₀ events s → s.Described := by
  intro hall
  obtain ⟨t, hstep, hmapped⟩ := step_onePage
  have hdescribed := hall fresh (t.clone .forkMe)
    [.call onePage ⟨false, false, 12, by decide⟩, .clone forkFlags 0] initial_fresh
    (.cons (.call hstep) (.single (.clone (by decide))))
  have hmin : t.kernel.minAddr = 0x10000 := by
    obtain ⟨result, hend⟩ := hstep
    have hmin := Kernel.run_minAddr (onePage.code fresh.mapper) ⟨false, false, 12, by decide⟩
      fresh.kernel
    rw [Ends] at hend
    rw [hend] at hmin
    exact hmin
  have hiff := hdescribed.agree 0x10000 ⟨hmin.le, by decide⟩
  refine hiff.mpr hmapped ?_
  refine ⟨⟨0x10000, uint32Max⟩, ?_, mem_toSet.mpr (by decide)⟩
  change _ ∈ Freelist.initial t.kernel.minAddr
  rw [hmin]
  exact List.mem_singleton.mpr rfl

end System

end Felix86
