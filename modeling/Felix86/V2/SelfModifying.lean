import Felix86.Hle.AddressSpace
import Felix86.V2.HostPc
import Felix86.V2.StaleCode

/-!
# Self-modifying code

A block is right as long as the bytes it was translated from are the bytes that are there. Three
things keep it so: `compile` makes the pages of the block read-only, a store to such a page faults
and `handle_smc` invalidates the blocks of the page before it lets the store through, and the calls
that change mappings invalidate the range they have changed. The last of these is where the argument
has holes: `munmap`, `shmat`, `shmdt` and the source of `mremap` change pages without a word to the
recompiler, and a page that shows the same memory as a page with code can be written freely.

Here the recompiler of one thread and its address space run side by side. Of every translation in
the code buffer the machine remembers the bytes it was made from. A translation is fresh while its
block is on the lists of all of its pages, the pages are locked and the bytes are the ones that are
there. Whatever has not been patched is fresh.
-/

namespace Felix86

open Recompiler

/-- What a block was translated from: the bytes as they were, up to `guest_address_end`. -/
structure Source where
  stop : ℕ
  byte : ℕ → Option UInt8

/-- A thread's recompiler, the address space, and what the translation at a host address was made
from. -/
structure SmcMachine where
  trace : Traced
  space : AddressSpace
  source : ℕ → Source

/-- `markPagesAsReadOnly`. -/
def markPagesAsReadOnly (protectPages : Bool) (m : AddressSpace) (start stop : ℕ) : AddressSpace :=
  if protectPages then m.protect (start / 0x1000) ((stop + 0xFFF) / 0x1000) false else m

/-- The arguments `invalidateRangeGlobal` gives to `invalidateRange`. -/
def globalRange (start stop : ℕ) : ℕ × ℕ :=
  (start / 0x1000 * 0x1000, u64 (stop + 0xFFF) / 0x1000 * 0x1000)

/-! ## The page lists -/

namespace Recompiler

variable {L : Layout} {r r' : Recompiler}

theorem mem_pages {first last page : ℕ} :
    page ∈ pages first last ↔ page % 0x1000 = 0 ∧ first ≤ page ∧ page ≤ last := by
  simp only [pages, List.mem_map, List.mem_range'_1]
  constructor
  · rintro ⟨n, hn, rfl⟩
    omega
  · intro h
    exact ⟨page / 0x1000, by omega, by omega⟩

/-- Compiling a block puts it on the lists of all of its pages, and takes none off. -/
theorem listed_of_compileAt {rip : ℕ} {seq : Sequence} (h : r.compileAt L rip seq = some r')
    (hspace : r.cursor ≤ L.codeCache + codeCacheSize) :
    (∀ page, ∀ rip' ∈ r.pageMap page, rip' ∈ r'.pageMap page) ∧
      ∀ p ∈ pageSpan rip seq.guestEnd, rip ∈ r'.pageMap (p * 0x1000) := by
  obtain ⟨r₂, h₂, h₃⟩ := Option.bind_eq_some_iff.mp h
  obtain ⟨hframe, -, -⟩ := of_emitItems h₂ hspace
  dsimp only at h₃
  split at h₃
  · set r₃ := r₂.modifyBlock rip fun m ↦
      { m with guestAddressEnd := seq.guestEnd, addressEnd := r₂.cursor } with hr₃
    have hguest : (r₃.blockMetadata rip).guestAddress = rip := by
      rw [hr₃, modifyBlock_self]
      exact (hframe.guestAddress rip).trans (by rw [modifyBlock_self])
    have hend : (r₃.blockMetadata rip).guestAddressEnd = seq.guestEnd := by
      rw [hr₃, modifyBlock_self]
    have hmap : r₃.pageMap = r.pageMap := hframe.pageMap
    unfold finishBlock at h₃
    dsimp only at h₃
    set key := (r₃.blockMetadata rip).addressEnd - 1
    set r₄ := ({ r₃ with hostPcMap := insertKey key rip r₃.hostPcMap } :
      Recompiler).registerPages rip
    have hmap₄ : r₄.pageMap = fun page ↦
        if page ∈ pagesOf (r₃.blockMetadata rip) then r.pageMap page ++ [rip]
            else r.pageMap page := by
      rw [← hmap]
      rfl
    obtain ⟨hframe', -⟩ := of_expirePendingLinks h₃
    have hmap' : r'.pageMap = r₄.pageMap := by
      rw [hframe'.pageMap]
      split <;> rfl
    rw [hmap', hmap₄]
    refine ⟨fun page rip' hrip' ↦ ?_, fun p hp ↦ ?_⟩
    · dsimp only
      split
      · exact List.mem_append_left _ hrip'
      · exact hrip'
    · obtain ⟨a, h₁, h₂, rfl⟩ := hp
      have hmem : a / 0x1000 * 0x1000 ∈ pagesOf (r₃.blockMetadata rip) := by
        rw [pagesOf, hguest, hend, mem_pages]
        omega
      simp only [if_pos hmem]
      exact List.mem_append_right _ List.mem_cons_self
  · cases h₃

/-- Invalidating a range leaves the lists of other pages alone. -/
theorem pageMap_of_invalidateRange {start stop page : ℕ}
    (h : r.invalidateRange L start stop = some r') (hpage : page ∉ pagesIn start stop) :
    r'.pageMap page = r.pageMap page := by
  obtain ⟨r₁, h₁, h₂⟩ := Option.bind_eq_some_iff.mp h
  obtain rfl := Option.some.inj h₂
  simp only [if_neg hpage]
  rw [(of_invalidateBlocks h₁).1]

/-- The pages of a range of user addresses are on the way of `invalidateRangeGlobal`. -/
theorem mem_pagesIn_globalRange {start stop p : ℕ} (hstop : stop ≤ 2 ^ 63)
    (hp : p ∈ pageSpan start stop) :
    p * 0x1000 ∈ pagesIn (globalRange start stop).1 (globalRange start stop).2 := by
  obtain ⟨a, h₁, h₂, rfl⟩ := hp
  rw [pagesIn, mem_pages, globalRange, u64, u64]
  dsimp only
  omega

end Recompiler

namespace SmcMachine

/-- What can happen next. A store of several bytes is several stores. -/
inductive Label
  | dispatch (rip : ℕ) (b : Translation)
  | thunk (block : ℕ) (link : Option ℕ)
  | store (a : ℕ) (v : UInt8) (inJit : Bool)
  | call (c : MemoryCall) (result : ℤ) (space : AddressSpace)

variable (L : Layout)

def initial (code : ℕ → HostInsn) (space : AddressSpace) : SmcMachine where
  trace := Traced.initial L code
  space := space
  source := fun _ ↦ ⟨0, fun _ ↦ none⟩

/-- `invalidateRangeGlobal`, with one thread. -/
def InvalidateRangeGlobal (s : Traced) (start stop : ℕ) (t : Traced) : Prop :=
  s.Step L (.invalidateRange (globalRange start stop).1 (globalRange start stop).2) t

/-- The memory after `compile` has translated a block, and what is remembered of it. A block can
only be translated if its bytes can be read. -/
def Translates (s : SmcMachine) (rip : ℕ) (b : Translation) (t : SmcMachine) : Prop :=
  (∀ p ∈ pageSpan rip b.guestEnd, (s.space.page p).isSome) ∧
    t.space = markPagesAsReadOnly true s.space rip b.guestEnd ∧
    t.source = Function.update s.source (s.trace.space L).jit.tables.cursor
      ⟨b.guestEnd, s.space.byte⟩

/-- One step. A store to a page that is not writable is `handle_smc`'s if it comes from translated
code; otherwise the guest gets the signal and nothing is stored. -/
def Step (s : SmcMachine) : Label → SmcMachine → Prop
  | .dispatch rip b, t => s.trace.Step L (.dispatch rip b) t.trace ∧
      ((s.trace.jit.Hit L rip ∧ t.space = s.space ∧ t.source = s.source) ∨
        (¬s.trace.jit.Hit L rip ∧ s.Translates L (wrapRip L rip) b t))
  | .thunk block link, t => ∃ trace, s.trace.Step L (.thunk block link) trace ∧
      t = { s with trace := trace }
  | .store a v inJit, t => ∃ g, s.space.page (a / 0x1000) = some g ∧
      ((g.writable = true ∧ t = { s with space := s.space.write a v }) ∨
        (g.writable = false ∧ inJit = true ∧ ∃ trace,
          InvalidateRangeGlobal L s.trace (a / 0x1000 * 0x1000) (a / 0x1000 * 0x1000 +
            0x1000) trace ∧
          t = { s with
            trace := trace
            space := (s.space.protect (a / 0x1000) (a / 0x1000 + 1) true).write a v }) ∨
        (g.writable = false ∧ inJit = false ∧ t = s))
  | .call c result space, t => c.Serves s.space result space ∧
      ((c.invalidates result = none ∧ t = { s with space := space }) ∨
        ∃ start stop trace, c.invalidates result = some (start, stop) ∧
          InvalidateRangeGlobal L s.trace start stop trace ∧
          t = { s with trace := trace, space := space })

/-! ## Coherence -/

/-- Every block that can be entered without going through the thunk was translated from the bytes
that are there. -/
def Coherent (s : SmcMachine) : Prop :=
  ∀ c ∈ s.trace.copies, ¬Jit.EntersThunk L s.trace.jit.tables c.start →
    ∀ a, c.rip ≤ a → a < (s.source c.start).stop → s.space.byte a = (s.source c.start).byte a

/-- A block that has not been invalidated was read from the page. -/
def Holds (s : SmcMachine) (p : ℕ) : Prop :=
  ∃ c ∈ s.trace.copies, c.start ∉ s.trace.jit.patched ∧ p ∈ pageSpan c.rip (s.source c.start).stop

/-- The condition on what happens. -/
def Ok (s : SmcMachine) : Label → Prop
  | .dispatch rip b => (L.mode32 = true → rip < 2 ^ 32) ∧ (¬s.trace.jit.Hit L rip →
      (L.link → Jit.LinksClear b.sequence) ∧ 8 < byteSize b.sequence.items)
  | .thunk _ _ => True
  | .store a _ _ => ∀ g, s.space.page (a / 0x1000) = some g → ∀ q ≠ a / 0x1000, ∀ g',
      s.space.page q = some g' → g'.frame = g.frame → ¬s.Holds q
  | .call c result space => ∀ p ∈ c.unseen result, s.Holds p → space.page p = s.space.page p

/-! ## The invariant -/

/-- What holds of the recompiler. -/
structure Tables (L : Layout) (s : Traced) : Prop where
  jit : s.jit.Sound L
  recorded : s.Recorded L
  kept : s.jit.Kept L
  long : ∀ c ∈ s.copies, c.start + 8 < c.stop
  covered : ∀ b ∈ s.jit.blocks, ∃ c ∈ s.copies, c.start = b.1

/-- The tables know the translation: it is the current one of its block, and the block is on the
lists of all pages it was read from. -/
structure Filed (r : Recompiler) (c : Copy) (stop : ℕ) : Prop where
  address : (r.blockMetadata c.rip).address = c.start
  listed : ∀ p ∈ pageSpan c.rip stop, c.rip ∈ r.pageMap (p * 0x1000)

/-- The memory is as the translation found it, and locked. -/
structure Intact (m : AddressSpace) (c : Copy) (source : Source) : Prop where
  locked : ∀ p ∈ pageSpan c.rip source.stop, ∃ g, m.page p = some g ∧ g.writable = false
  byte : ∀ a, c.rip ≤ a → a < source.stop → m.byte a = source.byte a

structure Inv (L : Layout) (s : SmcMachine) : Prop where
  tables : Tables L s.trace
  filed : ∀ c ∈ s.trace.copies, c.start ∉ s.trace.jit.patched →
    Filed s.trace.jit.tables c (s.source c.start).stop
  intact : ∀ c ∈ s.trace.copies, c.start ∉ s.trace.jit.patched →
    Intact s.space c (s.source c.start)

variable {L} {s t : SmcMachine}

theorem tables_initial (code : ℕ → HostInsn) : Tables L (Traced.initial L code) where
  jit := Jit.sound_initial code
  recorded := Traced.recorded_initial code
  kept := Jit.kept_initial code
  long c hc := by cases hc
  covered b hb := hb.elim

theorem inv_initial (code : ℕ → HostInsn) (space : AddressSpace) :
    Inv L (initial L code space) where
  tables := tables_initial code
  filed c hc := by cases hc
  intact c hc := by cases hc

/-- A block that can be entered without going through the thunk has not been patched. -/
theorem Inv.coherent (h : Inv L s) : Coherent L s := by
  intro c hc hnot a h₁ h₂
  refine (h.intact c hc fun hp ↦ hnot ?_).byte a h₁ h₂
  exact h.tables.kept.entersThunk h.tables.jit hp

/-! ### The tables -/

section Tables

variable {s t : Traced}

theorem Tables.space (h : Tables L s) : Tables L (s.space L) := by
  unfold Traced.space
  split
  · exact tables_initial _
  · exact h

/-- A change of the tables that keeps the history. -/
theorem Tables.of_jit (h : Tables L s) {j : Jit} (hjit : j.Sound L)
    (hrecorded : Traced.Recorded L { s with jit := j }) (hkept : j.Kept L)
    (hblocks : j.blocks = s.jit.blocks) : Tables L { s with jit := j } where
  jit := hjit
  recorded := hrecorded
  kept := hkept
  long := h.long
  covered := hblocks ▸ h.covered

/-- Compiling a block into the space there is. -/
theorem Tables.compiled (h : Tables L s) {rip : ℕ} {b : Translation} {r' : Recompiler}
    (hc : s.jit.tables.compileAt L rip b.sequence = some r')
    (hclear : L.link → Jit.LinksClear b.sequence) (hlong : 8 < byteSize b.sequence.items) :
    Tables L (s.compiled rip b (s.jit.compiled L b.sequence r')) := by
  obtain ⟨hcompiled, hspace⟩ := compiled_of_compileAt hc h.jit.cursor_le
  have hregistered := registered_of_compileAt hc h.jit.cursor_le
  refine ⟨h.jit.compiled hcompiled hspace, h.recorded.compiled hcompiled hregistered h.jit.start_le,
    h.kept.compiled h.jit hcompiled hclear, ?_, ?_⟩
  · intro c hcm
    rcases List.mem_append.mp hcm with hcm | hcm
    · exact h.long c hcm
    · obtain rfl := List.mem_singleton.mp hcm
      have hcursor := hcompiled.cursor
      show s.jit.tables.cursor + 8 < r'.cursor
      omega
  · rintro d (rfl | hd)
    · exact ⟨_, List.mem_append_right _ List.mem_cons_self, rfl⟩
    · obtain ⟨e, he, heq⟩ := h.covered d hd
      exact ⟨e, List.mem_append_left _ he, heq⟩

theorem Tables.invalidateRange (h : Tables L s) {start stop : ℕ}
    (hstep : s.Step L (.invalidateRange start stop) t) : Tables L t := by
  have hrecorded := h.recorded.step h.jit hstep
  obtain ⟨j, ⟨r', hr, rfl⟩, rfl⟩ := hstep
  exact h.of_jit (h.jit.step (e := .invalidateRange start stop) ⟨r', hr, rfl⟩) hrecorded
    (h.kept.invalidateRange h.jit hr) rfl

theorem Tables.thunk (h : Tables L s) {block : ℕ} {link : Option ℕ}
    (hstep : s.Step L (.thunk block link) t) : Tables L t := by
  have hrecorded := h.recorded.step h.jit hstep
  obtain ⟨j, ⟨hblock, hlink, r', hr, rfl⟩, rfl⟩ := hstep
  exact h.of_jit (h.jit.step (e := .thunk block link) ⟨hblock, hlink, r', hr, rfl⟩) hrecorded
    (h.kept.thunk h.jit hlink hr) rfl

/-- Invalidation patches what is on the lists of the range; what it does not patch keeps its entries
and has no page in the range. -/
theorem filed_invalidateRange {start stop : ℕ} (hstep : s.Step L (.invalidateRange start stop) t) :
    t.copies = s.copies ∧ (∀ a ∈ s.jit.patched, a ∈ t.jit.patched) ∧
      ∀ c end_, Filed s.jit.tables c end_ → c.start ∉ t.jit.patched →
        Filed t.jit.tables c end_ ∧ ∀ p ∈ pageSpan c.rip end_, p * 0x1000 ∉ pagesIn start stop := by
  obtain ⟨j, ⟨r', hr, rfl⟩, rfl⟩ := hstep
  refine ⟨rfl, fun a ha ↦ Or.inl ha, fun c end_ hfiled hclear ↦ ?_⟩
  have hpages : ∀ p ∈ pageSpan c.rip end_, p * 0x1000 ∉ pagesIn start stop := by
    intro p hp hmem
    refine hclear (Or.inr ⟨c.rip, ?_, hfiled.address.symm⟩)
    exact List.mem_flatMap.mpr ⟨_, hmem, hfiled.listed p hp⟩
  refine ⟨⟨?_, fun p hp ↦ ?_⟩, hpages⟩
  · show (r'.blockMetadata c.rip).address = c.start
    rw [(of_invalidateRange hr).1]
    exact hfiled.address
  · show c.rip ∈ r'.pageMap (p * 0x1000)
    rw [pageMap_of_invalidateRange hr (hpages p hp)]
    exact hfiled.listed p hp

/-- The thunk only sets the address of a patched translation to zero. -/
theorem filed_thunk (h : Tables L s) {block : ℕ} {link : Option ℕ}
    (hstep : s.Step L (.thunk block link) t) :
    t.copies = s.copies ∧ t.jit.patched = s.jit.patched ∧
      ∀ c ∈ s.copies, ∀ end_, c.start ∉ s.jit.patched → Filed s.jit.tables c end_ →
        Filed t.jit.tables c end_ := by
  obtain ⟨j, ⟨hblock, -, r', hr, rfl⟩, rfl⟩ := hstep
  refine ⟨rfl, rfl, fun c hc end_ hclear hfiled ↦ ?_⟩
  obtain ⟨-, hpages, haddress, -⟩ := of_invalidateAt hr
  refine ⟨?_, fun p hp ↦ ?_⟩
  · rcases haddress c.rip with heq | ⟨hzero, -⟩
    · exact heq.trans hfiled.address
    · exfalso
      -- the lookup finds the patched translation, another one of the same block
      obtain ⟨b, hb, hstart⟩ := h.kept.start block hblock
      obtain ⟨d, hd, hd_start⟩ := h.covered b hb
      have hdstart : d.start = block := hd_start.trans hstart
      have hlong := h.long d hd
      have hle : d.start ≤ block + 8 := by omega
      have hlower := h.recorded.lowerBound hd hle (by omega)
      rw [zeroes, hlower] at hzero
      simp only [Option.bind_eq_bind, Option.bind_some, Option.ite_none_right_eq_some,
        Option.some.injEq] at hzero
      obtain ⟨⟨h₁, h₂⟩, hrip⟩ := hzero
      rw [hrip, hfiled.address] at h₁
      have hne : c ≠ d := by
        rintro rfl
        exact hclear (hdstart ▸ hblock)
      -- the range in the metadata is that of `c`, which is apart
      have hend := h.recorded.addressEnd_eq hc hfiled.address
      rw [hrip, hend] at h₂
      have hlongc := h.long c hc
      rcases h.recorded.apart hc hd with heq | hle | hle
      · exact hne heq
      · omega
      · omega
  · show c.rip ∈ r'.pageMap (p * 0x1000)
    rw [hpages]
    exact hfiled.listed p hp

end Tables

/-! ### The memory -/

section Memory

variable {m m' : AddressSpace} {c : Copy} {source : Source}

theorem Intact.mark (h : Intact m c source) (start stop : ℕ) :
    Intact (markPagesAsReadOnly true m start stop) c source := by
  rw [markPagesAsReadOnly, if_pos rfl]
  refine ⟨fun p hp ↦ ?_, fun a h₁ h₂ ↦ ?_⟩
  · obtain ⟨g, hg, hw⟩ := h.locked p hp
    by_cases hin : start / 0x1000 ≤ p ∧ p < (stop + 0xFFF) / 0x1000
    · exact ⟨_, AddressSpace.page_protect_of_mem hin hg, rfl⟩
    · exact ⟨g, (AddressSpace.page_protect_of_notMem hin).trans hg, hw⟩
  · rw [AddressSpace.byte_protect]
    exact h.byte a h₁ h₂

/-- The block that has just been translated. -/
theorem intact_mark {stop : ℕ} (hread : ∀ p ∈ pageSpan c.rip stop, (m.page p).isSome) :
    Intact (markPagesAsReadOnly true m c.rip stop) c ⟨stop, m.byte⟩ := by
  rw [markPagesAsReadOnly, if_pos rfl]
  refine ⟨fun p hp ↦ ?_, fun a _ _ ↦ AddressSpace.byte_protect a⟩
  obtain ⟨g, hg⟩ := Option.isSome_iff_exists.mp (hread p hp)
  obtain ⟨a, h₁, h₂, rfl⟩ := hp
  have h₃ : a < stop := h₂
  exact ⟨_, AddressSpace.page_protect_of_mem (by omega) hg, rfl⟩

/-- Making a page writable that the block was not read from. -/
theorem Intact.unprotect (h : Intact m c source) {p : ℕ} (hp : p ∉ pageSpan c.rip source.stop) :
    Intact (m.protect p (p + 1) true) c source := by
  refine ⟨fun q hq ↦ ?_, fun a h₁ h₂ ↦ ?_⟩
  · obtain ⟨g, hg, hw⟩ := h.locked q hq
    refine ⟨g, (AddressSpace.page_protect_of_notMem ?_).trans hg, hw⟩
    rintro ⟨h₁, h₂⟩
    obtain rfl : q = p := by omega
    exact hp hq
  · rw [AddressSpace.byte_protect]
    exact h.byte a h₁ h₂

/-- A store to memory that no page of the block shows. -/
theorem Intact.write (h : Intact m c source) {a : ℕ} (v : UInt8)
    (hclear : ∀ g, m.page (a / 0x1000) = some g → ∀ q ∈ pageSpan c.rip source.stop, ∀ g',
      m.page q = some g' → g'.frame ≠ g.frame) : Intact (m.write a v) c source := by
  refine ⟨fun q hq ↦ ?_, fun b h₁ h₂ ↦ ?_⟩
  · rw [AddressSpace.page_write]
    exact h.locked q hq
  · rw [AddressSpace.byte_write v fun g g' hg hg' ↦ hclear g hg _ ⟨b, h₁, h₂, rfl⟩ g' hg']
    exact h.byte b h₁ h₂

/-- A change of mappings that keeps the pages of the block, or at most locks them. -/
theorem Intact.remapped (h : Intact m c source)
    (hpage : ∀ p ∈ pageSpan c.rip source.stop, m'.page p = m.page p ∨
      m'.page p = (m.page p).map fun g ↦ { g with writable := false })
    (hcontent : ∀ p g, m.page p = some g → m'.content g.frame = m.content g.frame) :
    Intact m' c source := by
  refine ⟨fun p hp ↦ ?_, fun a h₁ h₂ ↦ ?_⟩
  · obtain ⟨g, hg, hw⟩ := h.locked p hp
    rcases hpage p hp with heq | heq
    · exact ⟨g, heq.trans hg, hw⟩
    · rw [hg] at heq
      exact ⟨_, heq, rfl⟩
  · rw [← h.byte a h₁ h₂]
    refine AddressSpace.byte_congr ?_ fun g hg ↦ hcontent _ g hg
    rcases hpage _ ⟨a, h₁, h₂, rfl⟩ with heq | heq
    · exact Or.inl heq
    · refine Or.inr ?_
      rw [heq, Option.map_map]
      rfl

end Memory

/-! ### The steps -/

theorem Inv.space (h : Inv L s) : Inv L { s with trace := s.trace.space L } := by
  unfold Traced.space
  split
  · exact ⟨tables_initial _, fun c hc _ ↦ absurd hc List.not_mem_nil,
      fun c hc _ ↦ absurd hc List.not_mem_nil⟩
  · exact h

theorem wrapRip_of_lt {rip : ℕ} (h : L.mode32 = true → rip < 2 ^ 32) : wrapRip L rip = rip := by
  rw [wrapRip, if_neg]
  rintro ⟨hmode, hle, -⟩
  have := h hmode
  omega

/-- Compiling a block that the tables do not have. -/
theorem Inv.compiled (h : Inv L s) {rip : ℕ} {b : Translation} {r' : Recompiler}
    (habsent : (s.trace.jit.tables.blockMetadata rip).address = 0)
    (hc : s.trace.jit.tables.compileAt L rip b.sequence = some r')
    (hclear : L.link → Jit.LinksClear b.sequence) (hlong : 8 < byteSize b.sequence.items)
    (hread : ∀ p ∈ pageSpan rip b.guestEnd, (s.space.page p).isSome) :
    Inv L ⟨s.trace.compiled rip b (s.trace.jit.compiled L b.sequence r'),
      markPagesAsReadOnly true s.space rip b.guestEnd,
      Function.update s.source s.trace.jit.tables.cursor ⟨b.guestEnd, s.space.byte⟩⟩ := by
  have hspace := h.tables.jit.cursor_le
  obtain ⟨hcompiled, -⟩ := compiled_of_compileAt hc hspace
  obtain ⟨hkeep, hnew⟩ := listed_of_compileAt hc hspace
  have hold (c : Copy) (hcm : c ∈ s.trace.copies) : c.start ≠ s.trace.jit.tables.cursor := by
    have hbounds := h.tables.recorded.bounds c hcm
    omega
  refine ⟨h.tables.compiled hc hclear hlong, fun c hcm hclean ↦ ?_, fun c hcm hclean ↦ ?_⟩
  · rcases List.mem_append.mp hcm with hcm | hcm
    · have hfiled := h.filed c hcm hclean
      have hpos := h.tables.recorded.start_pos hcm
      have hrip : c.rip ≠ rip := by
        rintro rfl
        exact hpos (hfiled.address.symm.trans habsent)
      dsimp only
      rw [Function.update_of_ne (hold c hcm)]
      exact ⟨(hcompiled.address _ hrip).trans hfiled.address,
        fun p hp ↦ hkeep _ _ (hfiled.listed p hp)⟩
    · obtain rfl := List.mem_singleton.mp hcm
      dsimp only
      rw [Function.update_self]
      exact ⟨hcompiled.address_self, hnew⟩
  · rcases List.mem_append.mp hcm with hcm | hcm
    · dsimp only
      rw [Function.update_of_ne (hold c hcm)]
      exact (h.intact c hcm hclean).mark _ _
    · obtain rfl := List.mem_singleton.mp hcm
      dsimp only
      rw [Function.update_self]
      exact intact_mark (c := ⟨rip, s.trace.jit.tables.cursor, r'.cursor, b.insns⟩) hread

theorem Inv.dispatch (h : Inv L s) {rip : ℕ} {b : Translation} (hok : Ok L s (.dispatch rip b))
    (hstep : Step L s (.dispatch rip b) t) : Inv L t := by
  obtain ⟨hrip, hmissing⟩ := hok
  obtain ⟨htrace, hmemory⟩ := hstep
  have hrecorded := h.tables.recorded.step h.tables.jit htrace
  obtain ⟨trace, space, source⟩ := t
  obtain ⟨j, hj, rfl⟩ := htrace
  obtain ⟨host, r', hd, ⟨hhit, rfl⟩ | ⟨hmiss, rfl⟩⟩ := id hj
  · obtain ⟨-, rfl, rfl⟩ := hmemory.resolve_right fun hnot ↦ hnot.1 hhit
    obtain ⟨hframe, hcursor⟩ := (Jit.of_getCompiledBlock hd).1 hhit
    simp only [Traced.record, if_pos hhit] at hrecorded ⊢
    refine ⟨h.tables.of_jit (h.tables.jit.step (e := .dispatch rip b.sequence) hj) hrecorded
      (h.tables.kept.of_frame hframe hcursor) rfl, fun c hc hclean ↦ ?_, h.intact⟩
    have hfiled := h.filed c hc hclean
    refine ⟨(hframe.address _).trans hfiled.address, fun p hp ↦ ?_⟩
    show c.rip ∈ r'.pageMap _
    rw [hframe.pageMap]
    exact hfiled.listed p hp
  · obtain ⟨-, hread, rfl, rfl⟩ := hmemory.resolve_left fun hnot ↦ hmiss hnot.1
    obtain ⟨hclear, hlong⟩ := hmissing hmiss
    have hc := (Jit.of_getCompiledBlock hd).2 hmiss
    simp only [Traced.record, if_neg hmiss]
    rw [compile, ← Jit.space_tables, ← Traced.space_jit] at hc
    rw [← Traced.space_jit]
    rw [wrapRip_of_lt hrip] at hc hread ⊢
    refine h.space.compiled ?_ hc hclear hlong hread
    show ((s.trace.space L).jit.tables.blockMetadata rip).address = 0
    unfold Traced.space
    split
    · rfl
    · by_contra hne
      exact hmiss (Or.inr hne)

/-- After an invalidation the pages of the range hold no code. -/
theorem Inv.invalidate (h : Inv L s) {start stop : ℕ} {trace : Traced} (hstop : stop ≤ 2 ^ 63)
    (hstep : InvalidateRangeGlobal L s.trace start stop trace) :
    Inv L { s with trace := trace } ∧ (∀ p, Holds { s with trace := trace } p → s.Holds p) ∧
      ∀ p ∈ pageSpan start stop, ¬Holds { s with trace := trace } p := by
  obtain ⟨hcopies, hpatched, hfiled⟩ := filed_invalidateRange hstep
  have hold (c : Copy) (hclean : c.start ∉ trace.jit.patched) : c.start ∉ s.trace.jit.patched :=
    fun hp ↦ hclean (hpatched _ hp)
  refine ⟨⟨h.tables.invalidateRange hstep, fun c hc hclean ↦ ?_, fun c hc hclean ↦ ?_⟩, ?_, ?_⟩
  · exact (hfiled c _ (h.filed c (hcopies ▸ hc) (hold c hclean)) hclean).1
  · exact h.intact c (hcopies ▸ hc) (hold c hclean)
  · rintro p ⟨c, hc, hclean, hp⟩
    exact ⟨c, hcopies ▸ hc, hold c hclean, hp⟩
  · rintro p hp ⟨c, hc, hclean, hpc⟩
    have hclear := (hfiled c _ (h.filed c (hcopies ▸ hc) (hold c hclean)) hclean).2
    exact hclear p hpc (mem_pagesIn_globalRange hstop hp)

theorem Inv.thunk (h : Inv L s) {block : ℕ} {link : Option ℕ}
    (hstep : Step L s (.thunk block link) t) : Inv L t := by
  obtain ⟨trace, htrace, rfl⟩ := hstep
  obtain ⟨hcopies, hpatched, hfiled⟩ := filed_thunk h.tables htrace
  refine ⟨h.tables.thunk htrace, fun c hc hclean ↦ ?_, fun c hc hclean ↦ ?_⟩
  · have hclean' : c.start ∉ s.trace.jit.patched := hpatched ▸ hclean
    exact hfiled c (hcopies ▸ hc) _ hclean' (h.filed c (hcopies ▸ hc) hclean')
  · exact h.intact c (hcopies ▸ hc) (hpatched ▸ hclean)

/-- A store that nothing stands in the way of. -/
theorem Inv.write (h : Inv L s) {a : ℕ} (v : UInt8)
    (hclear : ∀ g, s.space.page (a / 0x1000) = some g → ∀ q g', s.space.page q = some g' →
      g'.frame = g.frame → ¬s.Holds q) : Inv L { s with space := s.space.write a v } := by
  refine ⟨h.tables, h.filed, fun c hc hclean ↦ (h.intact c hc hclean).write v ?_⟩
  intro g hg q hq g' hg' heq
  exact hclear g hg q g' hg' heq ⟨c, hc, hclean, hq⟩

theorem Inv.store (h : Inv L s) {a : ℕ} {v : UInt8} {inJit : Bool} (hok : Ok L s (.store a v inJit))
    (hstep : Step L s (.store a v inJit) t) : Inv L t := by
  obtain ⟨g, hg, ⟨hw, rfl⟩ | ⟨-, -, trace, htrace, rfl⟩ | ⟨-, -, rfl⟩⟩ := hstep
  · refine h.write v fun g' hg' q g'' hg'' hframe hholds ↦ ?_
    by_cases hq : q = a / 0x1000
    · -- the page is writable, so no block was read from it
      subst hq
      obtain ⟨c, hc, hclean, hpc⟩ := hholds
      obtain ⟨g₀, hg₀, hlocked⟩ := (h.intact c hc hclean).locked _ hpc
      rw [hg] at hg₀
      obtain rfl := Option.some.inj hg₀
      rw [hw] at hlocked
      cases hlocked
    · exact hok g' hg' q hq g'' hg'' hframe hholds
  · have huser := s.space.user _ g hg
    obtain ⟨hinv, hmono, hempty⟩ := h.invalidate (by omega) htrace
    have hnone : ¬Holds { s with trace := trace } (a / 0x1000) :=
      hempty _ ⟨a / 0x1000 * 0x1000, le_rfl, by omega, by omega⟩
    set m := s.space.protect (a / 0x1000) (a / 0x1000 + 1) true with hm
    have hopen : Inv L { s with trace := trace, space := m } := by
      refine ⟨hinv.tables, hinv.filed, fun c hc hclean ↦ (hinv.intact c hc hclean).unprotect ?_⟩
      exact fun hp ↦ hnone ⟨c, hc, hclean, hp⟩
    refine hopen.write v fun g' hg' q g'' hg'' hframe hholds ↦ ?_
    have hholds' : Holds { s with trace := trace } q := hholds
    by_cases hq : q = a / 0x1000
    · exact hnone (hq ▸ hholds')
    · have hg₀ : m.page (a / 0x1000) = some { g with writable := true } :=
        AddressSpace.page_protect_of_mem (by omega) hg
      have hq₀ : m.page q = s.space.page q := AddressSpace.page_protect_of_notMem (by omega)
      have heq : g' = { g with writable := true } := Option.some.inj (hg'.symm.trans hg₀)
      rw [heq] at hframe
      exact hok g hg q hq g'' (hq₀.symm.trans hg'') hframe (hmono q hholds')
  · exact h

theorem Inv.call (h : Inv L s) {c : MemoryCall} {result : ℤ} {space : AddressSpace}
    (hok : Ok L s (.call c result space)) (hstep : Step L s (.call c result space) t) :
        Inv L t := by
  obtain ⟨hserves, ⟨hnone, rfl⟩ | ⟨start, stop, trace, hsome, htrace, rfl⟩⟩ := hstep
  · refine ⟨h.tables, h.filed, fun d hd hclean ↦ (h.intact d hd hclean).remapped ?_ hserves.content⟩
    refine fun p hp ↦ hserves.page_eq_or (fun hun ↦ hok p hun ⟨d, hd, hclean, hp⟩) ?_
    rw [hnone]
    rintro _ _ ⟨⟩
  · obtain ⟨hinv, hmono, hempty⟩ := h.invalidate (hserves.le_of_invalidates hsome) htrace
    refine ⟨hinv.tables, hinv.filed, fun d hd hclean ↦
      (hinv.intact d hd hclean).remapped ?_ hserves.content⟩
    refine fun p hp ↦ hserves.page_eq_or
      (fun hun ↦ hok p hun (hmono p ⟨d, hd, hclean, hp⟩)) ?_
    rw [hsome]
    rintro _ _ ⟨⟩ hmem
    exact hempty p hmem ⟨d, hd, hclean, hp⟩

theorem Inv.step {label : Label} (h : Inv L s) (hstep : Guarded (Ok L) (Step L) s label t) :
    Inv L t := by
  obtain ⟨hok, hstep⟩ := hstep
  cases label with
  | dispatch rip b => exact h.dispatch hok hstep
  | thunk block link => exact h.thunk hstep
  | store a v inJit => exact h.store hok hstep
  | call c result space => exact h.call hok hstep

/-- **Translated code is what the memory says** in every state of every run that keeps the
condition. -/
theorem coherent_of_run {code : ℕ → HostInsn} {space : AddressSpace} {labels : List Label}
    (hrun : Run (Guarded (Ok L) (Step L)) (initial L code space) labels s) : Coherent L s :=
  (hrun.invariant (inv_initial code space) fun _ _ _ h hstep ↦ h.step hstep).coherent

/-! ## A segment in place of code -/

/-- Two instructions at `0x401000`. -/
def codeBlock : Translation :=
  ⟨[⟨0x401000, [.insn 0, .insn 0]⟩, ⟨0x401002, [.dispatch]⟩], 0x401004⟩

/-- One page, with the bytes of a frame or with nothing. -/
def onePage (frame : Option ℕ) : AddressSpace where
  page p := if p = 0x401 then frame.map fun f ↦ ⟨f, true⟩ else none
  content f _ := UInt8.ofNat f
  user p g hg := by
    split at hg
    · omega
    · cases hg

theorem isSome_dispatch_codeBlock : (Traced.blankTrace.jit.tables.getCompiledBlock Jit.sampleLayout
    0x401000 codeBlock.sequence).isSome := by decide

/-- The block has been compiled. -/
def codeCompiled : Traced := Traced.blankTrace.record Jit.sampleLayout
  ((Traced.blankTrace.jit.space Jit.sampleLayout).compiled Jit.sampleLayout codeBlock.sequence
    ((Traced.blankTrace.jit.tables.getCompiledBlock Jit.sampleLayout 0x401000
      codeBlock.sequence).get isSome_dispatch_codeBlock).2) (.dispatch 0x401000 codeBlock)

def codeCopy : Copy := ⟨0x401000, 0x10000400, 0x10000410, codeBlock.insns⟩

theorem codeCompiled_spec : codeCopy ∈ codeCompiled.copies ∧
    codeCompiled.jit.tables.code 0x10000400 = .other 0 ∧
    ¬Traced.blankTrace.jit.Hit Jit.sampleLayout 0x401000 := by decide

/-- What the block was made from. -/
def codeSource : ℕ → Source :=
  Function.update (fun _ ↦ ⟨0, fun _ ↦ none⟩) 0x10000400 ⟨0x401004, (onePage (some 0)).byte⟩

theorem mem_pageSpan_page {p : ℕ} {stop : ℕ} (hstop : stop ≤ 0x402000)
    (hp : p ∈ pageSpan 0x401000 stop) : p = 0x401 := by
  obtain ⟨a, h₁, h₂, rfl⟩ := hp
  omega

theorem page_onePage_of_ne {frame : Option ℕ} {p : ℕ} (hp : p ≠ 0x401) :
    (onePage frame).page p = none := if_neg hp

theorem step_codeBlock : Step Jit.sampleLayout (initial Jit.sampleLayout (fun _ ↦ .nop)
    (onePage (some 0))) (.dispatch 0x401000 codeBlock)
    ⟨codeCompiled, markPagesAsReadOnly true (onePage (some 0)) 0x401000 0x401004, codeSource⟩ := by
  have hmiss := codeCompiled_spec.2.2
  refine ⟨⟨_, ⟨_, _, (Option.some_get isSome_dispatch_codeBlock).symm, Or.inr ⟨hmiss, rfl⟩⟩, rfl⟩,
    Or.inr ⟨hmiss, ?_, rfl, ?_⟩⟩
  · intro p hp
    obtain rfl := mem_pageSpan_page (by decide) hp
    rfl
  · have hcursor : ((initial Jit.sampleLayout (fun _ ↦ .nop) (onePage (some 0))).trace.space
        Jit.sampleLayout).jit.tables.cursor = 0x10000400 := by decide
    rw [hcursor]
    rfl

/-- The memory when the block has been compiled. -/
def lockedSpace : AddressSpace := markPagesAsReadOnly true (onePage (some 0)) 0x401000 0x401004

theorem page_lockedSpace_of_ne {p : ℕ} (hp : p ≠ 0x401) : lockedSpace.page p = none := by
  rw [lockedSpace, markPagesAsReadOnly, if_pos rfl, AddressSpace.page_protect_of_notMem (by omega),
    page_onePage_of_ne hp]

theorem ok_codeBlock (s : SmcMachine) : Ok Jit.sampleLayout s (.dispatch 0x401000 codeBlock) := by
  refine ⟨fun _ ↦ by decide, fun _ ↦ ⟨fun _ ↦ ?_, by decide⟩⟩
  simp [Jit.LinksClear, Translation.sequence, codeBlock, linkSites]

/-! ### The block writes to itself -/

theorem isSome_invalidate_codePage : (codeCompiled.jit.tables.invalidateRange Jit.sampleLayout
    0x401000 0x402000).isSome := by decide

/-- The page of the block has been invalidated. -/
def codeInvalidated : Traced := { codeCompiled with
  jit := { codeCompiled.jit with
    tables := (codeCompiled.jit.tables.invalidateRange Jit.sampleLayout 0x401000 0x402000).get
      isSome_invalidate_codePage
    patched := codeCompiled.jit.patched ∪
      {a | ∃ rip ∈ codeCompiled.jit.tables.handed 0x401000 0x402000,
        a = (codeCompiled.jit.tables.blockMetadata rip).address} } }

/-- The memory when 7 has been stored at the start of the block. -/
def storedSpace : AddressSpace := (lockedSpace.protect 0x401 0x402 true).write 0x401000 7

theorem step_store : Guarded (Ok Jit.sampleLayout) (Step Jit.sampleLayout)
    ⟨codeCompiled, lockedSpace, codeSource⟩ (.store 0x401000 7 true)
    ⟨codeInvalidated, storedSpace, codeSource⟩ := by
  refine ⟨fun g _ q hq g' hg' ↦ ?_, ⟨0, false⟩, rfl,
    .inr (.inl ⟨rfl, rfl, codeInvalidated, ?_, rfl⟩)⟩
  · cases (page_lockedSpace_of_ne hq).symm.trans hg'
  · exact ⟨_, ⟨_, (Option.some_get isSome_invalidate_codePage).symm, rfl⟩, rfl⟩

theorem isSome_thunk_codeBlock : (codeInvalidated.jit.tables.invalidateAt Jit.sampleLayout
    (0x10000400 + 8) 0).isSome := by decide

/-- The old code has been entered once more. -/
def codeEntered : Traced := { codeInvalidated with
  jit := { codeInvalidated.jit with
    tables := (codeInvalidated.jit.tables.invalidateAt Jit.sampleLayout (0x10000400 + 8) 0).get
      isSome_thunk_codeBlock } }

theorem step_thunk : Guarded (Ok Jit.sampleLayout) (Step Jit.sampleLayout)
    ⟨codeInvalidated, storedSpace, codeSource⟩ (.thunk 0x10000400 none)
    ⟨codeEntered, storedSpace, codeSource⟩ := by
  refine ⟨trivial, codeEntered, ⟨_, ⟨.inr ⟨0x401000, by decide, by decide⟩, by simp, _,
    (Option.some_get isSome_thunk_codeBlock).symm, rfl⟩, rfl⟩, rfl⟩

/-! ### It is compiled again -/

theorem isSome_dispatch_again : (codeEntered.jit.tables.getCompiledBlock Jit.sampleLayout
    0x401000 codeBlock.sequence).isSome := by decide

/-- The block has been compiled again. -/
def codeAgain : Traced := codeEntered.record Jit.sampleLayout
  ((codeEntered.jit.space Jit.sampleLayout).compiled Jit.sampleLayout codeBlock.sequence
    ((codeEntered.jit.tables.getCompiledBlock Jit.sampleLayout 0x401000
      codeBlock.sequence).get isSome_dispatch_again).2) (.dispatch 0x401000 codeBlock)

def codeCopyAgain : Copy := ⟨0x401000, 0x10000410, 0x10000420, codeBlock.insns⟩

theorem codeAgain_spec : codeCopyAgain ∈ codeAgain.copies ∧
    codeAgain.jit.tables.code 0x10000410 = .other 0 ∧
    ¬codeEntered.jit.Hit Jit.sampleLayout 0x401000 := by decide

def sourceAgain : ℕ → Source :=
  Function.update codeSource 0x10000410 ⟨0x401004, storedSpace.byte⟩

/-- The memory when the block has been compiled again. -/
def lockedAgain : AddressSpace := markPagesAsReadOnly true storedSpace 0x401000 0x401004

theorem step_dispatch_codeAgain : Guarded (Ok Jit.sampleLayout) (Step Jit.sampleLayout)
    ⟨codeEntered, storedSpace, codeSource⟩ (.dispatch 0x401000 codeBlock)
    ⟨codeAgain, lockedAgain, sourceAgain⟩ := by
  have hmiss := codeAgain_spec.2.2
  refine ⟨ok_codeBlock _, ⟨_, ⟨_, _, (Option.some_get isSome_dispatch_again).symm,
    Or.inr ⟨hmiss, rfl⟩⟩, rfl⟩, Or.inr ⟨hmiss, ?_, rfl, ?_⟩⟩
  · intro p hp
    obtain rfl := mem_pageSpan_page (by decide) hp
    rfl
  · have hcursor : (codeEntered.space Jit.sampleLayout).jit.tables.cursor = 0x10000410 := by decide
    rw [hcursor]
    rfl

/-! ### The next page is mapped -/

theorem isSome_invalidate_nextPage : (codeAgain.jit.tables.invalidateRange Jit.sampleLayout
    0x402000 0x403000).isSome := by decide

/-- The page behind the block has been invalidated. -/
def nextInvalidated : Traced := { codeAgain with
  jit := { codeAgain.jit with
    tables := (codeAgain.jit.tables.invalidateRange Jit.sampleLayout 0x402000 0x403000).get
      isSome_invalidate_nextPage
    patched := codeAgain.jit.patched ∪
      {a | ∃ rip ∈ codeAgain.jit.tables.handed 0x402000 0x403000,
        a = (codeAgain.jit.tables.blockMetadata rip).address} } }

/-- The memory with something behind the block. -/
def nextMapped : AddressSpace where
  page p := if p = 0x402 then some ⟨1, true⟩ else lockedAgain.page p
  content := lockedAgain.content
  user p g hg := by
    split at hg
    · omega
    · exact lockedAgain.user p g hg

theorem step_mmap : Guarded (Ok Jit.sampleLayout) (Step Jit.sampleLayout)
    ⟨codeAgain, lockedAgain, sourceAgain⟩ (.call (.mmap 0x402000 0x1000) 0x402000 nextMapped)
    ⟨nextInvalidated, nextMapped, sourceAgain⟩ := by
  refine ⟨fun p hp ↦ absurd (show (0 : ℤ) < 0x402000 by decide) hp.1, ⟨fun p hp ↦ ?_, fun p hp ↦ ?_,
    fun _ _ _ ↦ rfl, fun _ ↦ by decide⟩, .inr ⟨0x402000, 0x403000, nextInvalidated, rfl, ?_, rfl⟩⟩
  · refine if_neg fun heq ↦ hp ⟨0x402000, le_rfl, ?_, heq⟩
    decide
  · obtain ⟨a, h₁, h₂, rfl⟩ := hp
    have hpage : a / 0x1000 = 0x402 := by
      change 0x402000 ≤ a at h₁
      change a < 0x403000 at h₂
      omega
    change (nextMapped.page (a / 0x1000)).isSome
    rw [hpage]
    rfl
  · exact ⟨_, ⟨_, (Option.some_get isSome_invalidate_nextPage).symm, rfl⟩, rfl⟩

/-- The law is not empty: a block writes to its own page, is thrown away and compiled again, a page
is mapped behind it, and the new code is what the memory says, with the byte that was written. -/
theorem coherent_codeBlock :
    Coherent Jit.sampleLayout ⟨nextInvalidated, nextMapped, sourceAgain⟩ ∧
      codeCopyAgain ∈ nextInvalidated.copies ∧ nextMapped.byte 0x401000 = some 7 := by
  have hrun : Run (Guarded (Ok Jit.sampleLayout) (Step Jit.sampleLayout))
      (initial Jit.sampleLayout (fun _ ↦ .nop) (onePage (some 0)))
      [.dispatch 0x401000 codeBlock, .store 0x401000 7 true, .thunk 0x10000400 none,
        .dispatch 0x401000 codeBlock, .call (.mmap 0x402000 0x1000) 0x402000 nextMapped]
      ⟨nextInvalidated, nextMapped, sourceAgain⟩ :=
    .cons ⟨ok_codeBlock _, step_codeBlock⟩ (.cons step_store (.cons step_thunk
      (.cons step_dispatch_codeAgain (.single step_mmap))))
  exact ⟨coherent_of_run hrun, codeAgain_spec.1, by decide⟩

/-! ### The page is replaced -/

theorem serves_munmap : (MemoryCall.munmap 0x401000 0x1000).Serves
    (markPagesAsReadOnly true (onePage (some 0)) 0x401000 0x401004) 0 (onePage none) where
  outside p hp := by
    have hne : p ≠ 0x401 := by
      rintro rfl
      exact hp ⟨0x401000, le_rfl, by decide, rfl⟩
    rw [page_onePage_of_ne hne, markPagesAsReadOnly, if_pos rfl,
      AddressSpace.page_protect_of_notMem (by omega), page_onePage_of_ne hne]
  inside p hp := by
    obtain rfl := mem_pageSpan_page (by decide) hp
    rfl
  content p g _ := rfl
  user _ := by decide

theorem serves_shmat : (MemoryCall.shmat 0x401000 0x1000).Serves (onePage none) 0x401000
    (onePage (some 1)) where
  outside p hp := by
    have hne : p ≠ 0x401 := by
      rintro rfl
      exact hp ⟨0x401000, le_rfl, by decide, rfl⟩
    rw [page_onePage_of_ne hne, page_onePage_of_ne hne]
  inside p hp := by
    obtain rfl := mem_pageSpan_page (by decide) hp
    rfl
  content p g _ := rfl
  user _ := by decide

/-- Without the condition the law fails: the page of a block is unmapped, a shared segment is
attached in its place, and the block can still be entered. -/
theorem not_coherent_shmat : ¬∀ (L : Layout) (code : ℕ → HostInsn) (space : AddressSpace)
    (labels : List Label) (s : SmcMachine), Run (Step L) (initial L code space) labels s →
      Coherent L s := by
  intro hall
  have hmunmap : Step Jit.sampleLayout
      ⟨codeCompiled, markPagesAsReadOnly true (onePage (some 0)) 0x401000 0x401004, codeSource⟩
      (.call (.munmap 0x401000 0x1000) 0 (onePage none)) ⟨codeCompiled, onePage none, codeSource⟩ :=
    ⟨serves_munmap, Or.inl ⟨rfl, rfl⟩⟩
  have hshmat : Step Jit.sampleLayout ⟨codeCompiled, onePage none, codeSource⟩
      (.call (.shmat 0x401000 0x1000) 0x401000 (onePage (some 1)))
      ⟨codeCompiled, onePage (some 1), codeSource⟩ :=
    ⟨serves_shmat, Or.inl ⟨rfl, rfl⟩⟩
  have hcoherent := hall _ _ _ _ _
    (Run.cons step_codeBlock (Run.cons hmunmap (Run.single hshmat)))
  obtain ⟨hcopy, hcode, -⟩ := codeCompiled_spec
  have hnot : ¬Jit.EntersThunk Jit.sampleLayout codeCompiled.jit.tables codeCopy.start := by
    intro henters
    let host : HostState := ⟨0x10000400, fun _ ↦ 0⟩
    obtain ⟨host', hrun, -⟩ := henters host rfl
    obtain ⟨host₁, hstep, -⟩ := Option.bind_eq_some_iff.mp hrun
    have hfirst : codeCompiled.jit.tables.code host.pc.toNat = .other 0 := hcode
    rw [HostState.step, hfirst] at hstep
    cases hstep
  have hbyte := hcoherent codeCopy hcopy hnot 0x401000 le_rfl (by decide)
  exact absurd hbyte (by decide)

end SmcMachine

end Felix86
