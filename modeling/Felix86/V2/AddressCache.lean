import Felix86.V2.CompiledCopies
import Felix86.V2.StaleCode

/-!
# The address cache

`address_cache` is a direct-mapped table from guest addresses to host addresses in front of
`block_metadata`. `compile` and `getCompiledBlock` fill a slot, `invalidateAt` empties one, and
clearing the code cache empties them all. It is read by `getCompiledBlock` and, so that the common
case needs no call, by a few instructions of the dispatcher.

A slot that is not empty always repeats what the metadata of its block says. That is the invariant
here, and with the history of copies it says what the host address of a slot is. An empty slot is
one that holds zero for both addresses, so slot zero is found, when it is empty, by a jump to
address zero.
-/

namespace Felix86

open Recompiler

namespace Recompiler

variable (L : Layout) (r : Recompiler)

/-- What the dispatcher's loads see of the table: the host address is the first field of an
entry. -/
def cacheField (offset : ℕ) : ℕ :=
  if offset % 16 = 0 then (r.addressCache (offset / 16)).host
    else (r.addressCache (offset / 16)).guest

/-- The instructions of `emitDispatcher` that read the cache. -/
def inlinedLookup (rip : ℕ) : Option ℕ :=
  let offset := u64 (rip * 2 ^ (64 - addressCacheBits)) / 2 ^ (64 - addressCacheBits - 4)
  if r.cacheField (offset + 8) = rip then some (r.cacheField offset) else none

/-- The dispatcher: the inlined lookup, and if it fails `Emulator::CompileNext`. -/
def dispatcher (rip : ℕ) (seq : Sequence) : Option (ℕ × Recompiler) :=
  match if L.addressCache then r.inlinedLookup rip else none with
  | some host => some (host, r)
  | none => r.getCompiledBlock L rip seq

theorem inlinedLookup_eq (rip : ℕ) : r.inlinedLookup rip =
    if (r.addressCache (rip % 2 ^ addressCacheBits)).guest = rip then
      some (r.addressCache (rip % 2 ^ addressCacheBits)).host else none := by
  have hoffset : u64 (rip * 2 ^ (64 - addressCacheBits)) / 2 ^ (64 - addressCacheBits - 4) =
      16 * (rip % 2 ^ addressCacheBits) := by
    simp only [u64, addressCacheBits]
    omega
  have hguest : (16 * (rip % 2 ^ addressCacheBits) + 8) % 16 ≠ 0 := by omega
  have hdiv : (16 * (rip % 2 ^ addressCacheBits) + 8) / 16 = rip % 2 ^ addressCacheBits := by omega
  simp only [inlinedLookup, hoffset, cacheField]
  rw [if_neg hguest, hdiv, if_pos (Nat.mul_mod_right _ _), Nat.mul_div_cancel_left _ (by decide)]

/-- The dispatcher continues where `getCompiledBlock` says. -/
theorem dispatcher_eq (rip : ℕ) (seq : Sequence) :
    r.dispatcher L rip seq = r.getCompiledBlock L rip seq := by
  rw [dispatcher, inlinedLookup_eq]
  by_cases hcache : L.addressCache = true ∧
      (r.addressCache (rip % 2 ^ addressCacheBits)).guest = rip
  · rw [if_pos hcache.1, if_pos hcache.2, getCompiledBlock, if_pos hcache]
  · have hnone : (if L.addressCache = true then
        if (r.addressCache (rip % 2 ^ addressCacheBits)).guest = rip then
          some (r.addressCache (rip % 2 ^ addressCacheBits)).host else none
        else none) = none := by
      split
      · next hon => rw [if_neg fun hguest ↦ hcache ⟨hon, hguest⟩]
      · rfl
    rw [hnone]

end Recompiler

namespace Traced

variable {L : Layout} {s t : Traced}

/-! ## A slot repeats the metadata -/

/-- The slot is empty, or it is the slot of a block that exists and holds its address. -/
def SlotOk (L : Layout) (r : Recompiler) (i : ℕ) (entry : AddressCacheEntry) : Prop :=
  entry = ⟨0, 0⟩ ∨ (L.addressCache ∧ entry.guest % 2 ^ addressCacheBits = i ∧ entry.host ≠ 0 ∧
    (r.blockMetadata entry.guest).address = entry.host)

def CacheOk (L : Layout) (r : Recompiler) : Prop := ∀ i, SlotOk L r i (r.addressCache i)

theorem cacheOk_initial (code : ℕ → HostInsn) : CacheOk L (Recompiler.initial L code) := fun _ ↦
  Or.inl rfl

theorem CacheOk.space {j : Jit} (h : CacheOk L j.tables) : CacheOk L (j.space L).tables := by
  rw [Jit.space]
  split
  · exact cacheOk_initial _
  · exact h

/-- A change that leaves the addresses alone. -/
theorem CacheOk.congr {r r' : Recompiler} (h : CacheOk L r)
    (hcache : r'.addressCache = r.addressCache)
    (haddress : ∀ rip, (r'.blockMetadata rip).address = (r.blockMetadata rip).address) :
    CacheOk L r' := by
  intro i
  rw [hcache]
  refine (h i).imp_right fun hentry ↦ ?_
  rw [haddress]
  exact hentry

/-- Filling or emptying the slot of the only block whose address changes. -/
theorem CacheOk.update {r r' : Recompiler} (h : CacheOk L r) (rip : ℕ) {entry : AddressCacheEntry}
    (hcache : r'.addressCache = if L.addressCache then
      Function.update r.addressCache (rip % 2 ^ addressCacheBits) entry else r.addressCache)
    (hentry : L.addressCache → SlotOk L r' (rip % 2 ^ addressCacheBits) entry)
    (haddress : ∀ rip' ≠ rip, (r'.blockMetadata rip').address = (r.blockMetadata rip').address) :
    CacheOk L r' := by
  intro i
  rw [hcache]
  split
  · next hon =>
    by_cases hi : i = rip % 2 ^ addressCacheBits
    · rw [hi, Function.update_self]
      exact hentry hon
    · rw [Function.update_of_ne hi]
      refine (h i).imp_right fun hold ↦ ⟨hold.1, hold.2.1, hold.2.2.1, ?_⟩
      -- another slot is another block's
      rw [haddress _ fun hguest ↦ hi (by rw [← hguest, hold.2.1]), hold.2.2.2]
  · next hoff => exact Or.inl ((h i).resolve_right fun hold ↦ hoff hold.1)

theorem CacheOk.compile {j : Jit} (h : CacheOk L j.tables) (hsound : j.Sound L) {rip : ℕ}
    {seq : Sequence} {r' : Recompiler} (hc : j.tables.compile L rip seq = some r') :
    CacheOk L r' := by
  have hr := registered_of_compile hsound hc
  refine h.space.update (wrapRip L rip) hr.addressCache (fun hon ↦ ?_) hr.address
  exact Or.inr ⟨hon, rfl, hsound.space.cursor_pos.ne', hr.address_self⟩

/-- The block that the thunk's callback looks up has its own guest address. -/
theorem Recorded.guestAddress (h : Recorded L s) {addressOfBlock key rip : ℕ}
    (hlower : Recompiler.lowerBound addressOfBlock s.jit.tables.hostPcMap = some (key, rip)) :
    (s.jit.tables.blockMetadata rip).guestAddress = rip := by
  have hmem := List.mem_of_find?_eq_some hlower
  rw [h.hostPcMap] at hmem
  obtain ⟨c, hc, heq⟩ := List.mem_map.mp hmem
  obtain rfl : c.rip = rip := congrArg Prod.snd heq
  obtain ⟨pre, d, post, hsplit, hrip, hpost⟩ :=
    Felix86.exists_last (p := fun d : Copy ↦ d.rip = c.rip) hc rfl
  obtain ⟨-, hguest, -⟩ := h.last pre d post hsplit (by rwa [hrip])
  rwa [hrip] at hguest

/-- A hit leaves the addresses alone and at most fills the slot of the block. -/
theorem CacheOk.hit {r r' : Recompiler} (h : CacheOk L r) {rip host : ℕ} {seq : Sequence}
    (hhit : (L.addressCache ∧ (r.addressCache (rip % 2 ^ addressCacheBits)).guest = rip) ∨
      r.blockExists rip) (hd : r.getCompiledBlock L rip seq = some (host, r')) : CacheOk L r' := by
  rw [getCompiledBlock] at hd
  dsimp only at hd
  split at hd
  · obtain ⟨-, rfl⟩ := Prod.mk.inj (Option.some.inj hd)
    exact h
  · next hcache =>
    have hexists := hhit.resolve_left hcache
    rw [if_pos hexists] at hd
    obtain ⟨-, rfl⟩ := Prod.mk.inj (Option.some.inj hd)
    refine h.update rip (show _ = if L.addressCache then Function.update r.addressCache
      (rip % 2 ^ addressCacheBits) ⟨(r.blockMetadata rip).address, rip⟩ else r.addressCache from ?_)
      (fun hon ↦ ?_) ?_
    · split <;> rfl
    · exact Or.inr ⟨hon, rfl, hexists, by rw [if_pos hon]; rfl⟩
    · intro rip' _
      split <;> rfl

theorem CacheOk.step {e : TracedEvent} (h : CacheOk L s.jit.tables) (hsound : s.jit.Sound L)
    (hrecorded : Recorded L s) {j : Jit} (hj : s.jit.Step L e.event j) : CacheOk L j.tables := by
  cases e with
  | compile rip b =>
    obtain ⟨r', hc, rfl⟩ := hj
    exact h.compile hsound hc
  | dispatch rip b =>
    obtain ⟨host, r', hd, ⟨hhit, rfl⟩ | ⟨hmiss, rfl⟩⟩ := hj
    · exact h.hit hhit hd
    · exact h.compile hsound ((Jit.of_getCompiledBlock hd).2 hmiss)
  | invalidateRange start stop =>
    obtain ⟨r', hr, rfl⟩ := hj
    exact h.congr (maps_of_invalidateRange hr).2 fun rip ↦ by rw [(of_invalidateRange hr).1]
  | thunk block link =>
    obtain ⟨-, -, r', hr, rfl⟩ := hj
    obtain ⟨key, rip, hlower, hun⟩ := unregistered_of_invalidateAt hr
    have hcache := hun.addressCache
    rw [hrecorded.guestAddress hlower] at hcache
    exact h.update rip hcache (fun _ ↦ Or.inl rfl) hun.address
  | clearCodeCache =>
    obtain rfl := hj
    exact cacheOk_initial _

/-! ## What a slot leads to -/

/-- The address is the start of a copy of the block that is in the buffer: the current translation,
or one that was invalidated and leads to the thunk. -/
def LeadsTo (L : Layout) (s : Traced) (rip host : ℕ) : Prop :=
  (∃ c ∈ s.copies, c.rip = rip ∧ c.start = host ∧ L.startOfCodeCache ≤ c.start ∧
    c.start + 8 ≤ c.stop ∧ c.stop ≤ s.jit.tables.cursor) ∧
  ((host ∉ s.jit.patched ∧ (s.jit.tables.blockMetadata rip).address = host) ∨
    (host ∈ s.jit.patched ∧ Jit.EntersThunk L s.jit.tables host))

/-- No compiled block has a link in its first eight bytes. -/
def ClearOk (L : Layout) (s : Traced) (e : TracedEvent) : Prop := Jit.ClearOk L s.jit e.event

/-- The invariants of the tables, along a run that keeps the condition. -/
theorem invariants_of_run {code : ℕ → HostInsn} {events : List TracedEvent}
    (hrun : Run (Guarded (ClearOk L) (Step L)) (initial L code) events s) :
    s.jit.Sound L ∧ s.jit.Kept L ∧ Recorded L s ∧ CacheOk L s.jit.tables := by
  refine hrun.invariant (I := fun s ↦ s.jit.Sound L ∧ s.jit.Kept L ∧ Recorded L s ∧
    CacheOk L s.jit.tables) ⟨Jit.sound_initial code, Jit.kept_initial code, recorded_initial code,
      cacheOk_initial code⟩ ?_
  rintro u e v ⟨hsound, hkept, hrecorded, hcache⟩ ⟨hok, hstep⟩
  have hnext := hrecorded.step hsound hstep
  obtain ⟨j, hj, rfl⟩ := hstep
  rw [jit_record]
  exact ⟨hsound.step hj, hkept.step hsound ⟨hok, hj⟩, hnext, hcache.step hsound hrecorded hj⟩

/-- A slot that holds the guest address and is not empty leads to the block. -/
theorem leadsTo_of_slot (hsound : s.jit.Sound L) (hkept : s.jit.Kept L) (hrecorded : Recorded L s)
    (hcache : CacheOk L s.jit.tables) {i rip : ℕ}
    (hguest : (s.jit.tables.addressCache i).guest = rip)
    (hne : s.jit.tables.addressCache i ≠ ⟨0, 0⟩) :
    LeadsTo L s rip (s.jit.tables.addressCache i).host := by
  obtain ⟨-, -, hhost, haddress⟩ := (hcache i).resolve_left hne
  rw [hguest] at haddress
  have hne' : (s.jit.tables.blockMetadata rip).address ≠ 0 := by rwa [haddress]
  obtain ⟨c, hc, hrip, hstart⟩ := hrecorded.exists_copy hne'
  obtain ⟨h₁, h₂, h₃⟩ := hrecorded.bounds c hc
  refine ⟨⟨c, hc, hrip, hstart.trans haddress, h₁, h₂, h₃⟩, ?_⟩
  by_cases hpatched : (s.jit.tables.addressCache i).host ∈ s.jit.patched
  · exact Or.inr ⟨hpatched, hkept.entersThunk hsound hpatched⟩
  · exact Or.inl ⟨hpatched, haddress⟩

/-- **The address cache.** After every run in which no compiled block has a link in its first eight
bytes: a slot that holds the guest address of a jump leads to the block, unless it is the empty slot
and the jump goes to address zero. The lookup in the dispatcher and `getCompiledBlock` agree. -/
theorem leadsTo_of_run {code : ℕ → HostInsn} {events : List TracedEvent}
    (hrun : Run (Guarded (ClearOk L) (Step L)) (initial L code) events s) (rip : ℕ) :
    ((s.jit.tables.addressCache (rip % 2 ^ addressCacheBits)).guest = rip →
      (LeadsTo L s rip (s.jit.tables.addressCache (rip % 2 ^ addressCacheBits)).host ↔
        rip ≠ 0 ∨ s.jit.tables.addressCache 0 ≠ ⟨0, 0⟩)) ∧
    ∀ seq, s.jit.tables.dispatcher L rip seq = s.jit.tables.getCompiledBlock L rip seq := by
  obtain ⟨hsound, hkept, hrecorded, hcache⟩ := invariants_of_run hrun
  refine ⟨fun hguest ↦ ⟨?_, ?_⟩, dispatcher_eq L _ rip⟩
  · rintro ⟨⟨c, -, -, hstart, hle, -⟩, -⟩
    rw [← not_and_or]
    rintro ⟨rfl, hempty⟩
    rw [Nat.zero_mod, hempty] at hstart
    have h₁ := L.codeCache_pos
    have h₂ := L.codeCache_le_thunk
    have h₃ := L.thunk_lt_start
    dsimp only at hstart
    omega
  · intro hne
    refine leadsTo_of_slot hsound hkept hrecorded hcache hguest fun hempty ↦ ?_
    rw [hempty] at hguest
    dsimp only at hguest
    subst hguest
    exact hne.elim (fun h ↦ h rfl) fun h ↦ h hempty

/-- The law is not empty: a block that has been compiled is found through its slot. -/
theorem leadsTo_compiledOnce : LeadsTo Jit.sampleLayout compiledOnce 0x1000 0x10000400 := by
  have hclear : Jit.LinksClear twoInsns.sequence := by
    simp [Jit.LinksClear, Translation.sequence, twoInsns, linkSites]
  have hguest :
      (compiledOnce.jit.tables.addressCache (0x1000 % 2 ^ addressCacheBits)).guest = 0x1000 := by
    decide
  have hhost : (compiledOnce.jit.tables.addressCache (0x1000 % 2 ^ addressCacheBits)).host =
      0x10000400 := by decide
  have hok : ClearOk Jit.sampleLayout blankTrace (.compile 0x1000 twoInsns) := fun _ ↦ hclear
  have hlaw := (leadsTo_of_run (Run.single ⟨hok, step_compiledOnce⟩) 0x1000).1 hguest
  rw [hhost] at hlaw
  exact hlaw.mpr (Or.inl (by decide))

/-- Without the condition the law fails, also for jumps to other addresses than zero: the slot of a
block that is only a jump still leads to its invalidated copy, and the pair there is gone. -/
theorem not_leadsTo_shortJump : ¬∀ (L : Layout) (code : ℕ → HostInsn) (events : List TracedEvent)
    (s : Traced), Run (Step L) (initial L code) events s → ∀ rip ≠ 0,
      (s.jit.tables.addressCache (rip % 2 ^ addressCacheBits)).guest = rip →
        LeadsTo L s rip (s.jit.tables.addressCache (rip % 2 ^ addressCacheBits)).host := by
  intro hall
  obtain ⟨t, hrun, hjit⟩ : ∃ t : Traced, Run (Step Jit.sampleLayout)
      (initial Jit.sampleLayout fun _ ↦ .nop)
      [.compile 0x1FF0 ⟨[⟨0x1FF0, Jit.shortJump.items⟩], 0x1FF2⟩, .invalidateRange 0x1000 0x2000,
        .compile 0x2010 ⟨[⟨0x2010, Jit.jumpTarget.items⟩], 0x2012⟩] t ∧
      t.jit = Jit.jumpTargetCompiled := exists_of_run Jit.run_jumpTargetCompiled
  have hguest : (Jit.jumpTargetCompiled.tables.addressCache (0x1FF0 % 2 ^ addressCacheBits)).guest =
      0x1FF0 := by decide
  have hhost : (Jit.jumpTargetCompiled.tables.addressCache (0x1FF0 % 2 ^ addressCacheBits)).host =
      0x10000400 := by decide
  obtain ⟨-, ⟨hnot, -⟩ | ⟨-, henters⟩⟩ :=
    hall _ _ _ _ hrun 0x1FF0 (by decide) (by rw [hjit]; exact hguest)
  · rw [hjit, hhost] at hnot
    exact hnot Jit.mem_patched_jumpTarget
  · rw [hjit, hhost] at henters
    exact Jit.not_entersThunk_jumpTarget henters

end Traced

end Felix86
