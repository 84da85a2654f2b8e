import Felix86.V2.BlockFrame

/-!
# Invalidation writes into live code

The block tables as a system: the operations are taken in any order, the thunk's callback whenever
some patched block is entered, and the state is extended by a history of what was emitted since the
code cache was last cleared.

Every address the tables hold is zero or the start of a block in the buffer; that needs no
condition (`Sound`). What can go wrong is the zero. A block that was read from two pages is listed
under both, invalidating one page patches it and takes it off that page's list, and the thunk then
sets its address to zero while the other page still lists it. `EventOk` excludes this: the block
the thunk zeroes is listed nowhere.
-/

namespace Felix86

open Recompiler

/-- The tables, and since the last clearing of the code cache: the blocks (first byte and end), the
places where links were emitted, and the starts that were patched. -/
structure Jit where
  tables : Recompiler
  blocks : Set (ℕ × ℕ)
  sites : Set ℕ
  patched : Set ℕ

namespace Jit

/-- What happens to a recompiler. -/
inductive Event
  | compile (rip : ℕ) (seq : Sequence)
  | dispatch (rip : ℕ) (seq : Sequence)
  | invalidateRange (start stop : ℕ)
  | thunk (block : ℕ) (link : Option ℕ)
  | clearCodeCache

variable (L : Layout)

def initial (code : ℕ → HostInsn) : Jit := ⟨Recompiler.initial L code, ∅, ∅, ∅⟩

def cleared (s : Jit) : Jit := initial L s.tables.code

/-- The state in which `compile` starts to emit. -/
def space (s : Jit) : Jit :=
  if codeCacheSize - (s.tables.cursor - L.codeCache) < 100000 then s.cleared L else s

theorem space_tables (s : Jit) : (s.space L).tables = s.tables.makeSpace L := by
  rw [space, makeSpace]
  split <;> rfl

/-- The history after a block was compiled. Without linking there are no links. -/
def compiled (s : Jit) (seq : Sequence) (r' : Recompiler) : Jit where
  tables := r'
  blocks := insert (s.tables.cursor, r'.cursor) s.blocks
  sites := s.sites ∪ {site | L.link ∧ site ∈ linkSites s.tables.cursor seq.items}
  patched := s.patched

/-- The dispatcher finds the block in the cache or in the tables. -/
def Hit (s : Jit) (rip : ℕ) : Prop :=
  (L.addressCache ∧ (s.tables.addressCache (rip % 2 ^ addressCacheBits)).guest = rip) ∨
    s.tables.blockExists rip

/-- The second argument of `invalidateAt`: the address behind the link the patched block was entered
through, or zero if the dispatcher entered it. -/
def linkedBlock : Option ℕ → ℕ
  | none => 0
  | some site => site + 8

/-- An operation that returned. The thunk is reached from the pair of a patched block, which leaves
the address behind the pair in `t6`, and `t5` is the address behind a link or zero. -/
def Step (s : Jit) : Event → Jit → Prop
  | .compile rip seq, t => ∃ r', s.tables.compile L rip seq = some r' ∧
      t = (s.space L).compiled L seq r'
  | .dispatch rip seq, t => ∃ host r', s.tables.getCompiledBlock L rip seq = some (host, r') ∧
      ((s.Hit L rip ∧ t = { s with tables := r' }) ∨
        (¬s.Hit L rip ∧ t = (s.space L).compiled L seq r'))
  | .invalidateRange start stop, t => ∃ r', s.tables.invalidateRange L start stop = some r' ∧
      t = { s with
        tables := r'
        patched := s.patched ∪
          {a | ∃ rip ∈ s.tables.handed start stop, a = (s.tables.blockMetadata rip).address} }
  | .thunk block link, t => block ∈ s.patched ∧ (∀ site ∈ link, site ∈ s.sites) ∧
      ∃ r', s.tables.invalidateAt L (block + 8) (linkedBlock link) = some r' ∧
        t = { s with tables := r' }
  | .clearCodeCache, t => t = s.cleared L

/-- Every block is at least eight bytes long and lies in the buffer, blocks do not overlap, and
every address the tables hold is zero or the start of a block. -/
structure Sound (s : Jit) : Prop where
  start_le : L.startOfCodeCache ≤ s.tables.cursor
  cursor_le : s.tables.cursor ≤ L.codeCache + codeCacheSize
  blocks : ∀ b ∈ s.blocks, L.startOfCodeCache ≤ b.1 ∧ b.1 + 8 ≤ b.2 ∧ b.2 ≤ s.tables.cursor
  apart : ∀ b ∈ s.blocks, ∀ c ∈ s.blocks, b.1 = c.1 ∨ b.2 ≤ c.1 ∨ c.2 ≤ b.1
  address : ∀ rip, (s.tables.blockMetadata rip).address ≠ 0 →
    ∃ b ∈ s.blocks, b.1 = (s.tables.blockMetadata rip).address

variable {L} {s t : Jit}

theorem sound_initial (code : ℕ → HostInsn) : Sound L (initial L code) := by
  refine ⟨le_rfl, L.start_le, by simp [initial], by simp [initial], ?_⟩
  intro rip hne
  exact absurd rfl hne

theorem Sound.space (h : Sound L s) : Sound L (s.space L) := by
  rw [Jit.space]
  split
  · exact sound_initial _
  · exact h

/-- A new block is put behind all others. -/
theorem Sound.compiled (h : Sound L s) {rip : ℕ} {seq : Sequence} {r' : Recompiler}
    (hc : Compiled L s.tables r' rip seq.items) (hspace : r'.cursor ≤ L.codeCache + codeCacheSize) :
    Sound L (s.compiled L seq r') := by
  have hle := hc.eight_le
  refine ⟨?_, hspace, ?_, ?_, ?_⟩
  · exact h.start_le.trans (by simp only [Jit.compiled]; omega)
  · rintro b (rfl | hb)
    · exact ⟨h.start_le, hle, le_rfl⟩
    · obtain ⟨h₁, h₂, h₃⟩ := h.blocks b hb
      exact ⟨h₁, h₂, h₃.trans (by simp only [Jit.compiled]; omega)⟩
  · rintro b (rfl | hb) c (rfl | hcm)
    · exact Or.inl rfl
    · exact Or.inr (Or.inr (h.blocks c hcm).2.2)
    · exact Or.inr (Or.inl (h.blocks b hb).2.2)
    · exact h.apart b hb c hcm
  · intro rip' hne
    by_cases hrip : rip' = rip
    · exact ⟨_, Set.mem_insert _ _, by rw [hrip]; exact hc.address_self.symm⟩
    · simp only [Jit.compiled] at hne ⊢
      rw [hc.address rip' hrip] at hne ⊢
      obtain ⟨b, hb, heq⟩ := h.address rip' hne
      exact ⟨b, Set.mem_insert_of_mem _ hb, heq⟩

/-- A change of the tables that keeps the cursor and sets no address but to zero. -/
theorem Sound.of_address (h : Sound L s) {t : Jit} (hblocks : t.blocks = s.blocks)
    (hcursor : t.tables.cursor = s.tables.cursor)
    (haddress : ∀ rip, (t.tables.blockMetadata rip).address =
      (s.tables.blockMetadata rip).address ∨ (t.tables.blockMetadata rip).address = 0) :
    Sound L t := by
  refine ⟨?_, ?_, ?_, ?_, ?_⟩
  · rw [hcursor]
    exact h.start_le
  · rw [hcursor]
    exact h.cursor_le
  · rw [hblocks, hcursor]
    exact h.blocks
  · rw [hblocks]
    exact h.apart
  · intro rip hne
    rcases haddress rip with heq | hzero
    · rw [hblocks, heq]
      exact h.address rip (heq ▸ hne)
    · exact absurd hzero hne

/-- The step of `compile`, told from the state in which it starts to emit. -/
theorem of_compile (h : Sound L s) {rip : ℕ} {seq : Sequence} {r' : Recompiler}
    (hc : s.tables.compile L rip seq = some r') :
    Compiled L (s.space L).tables r' (wrapRip L rip) seq.items ∧
      r'.cursor ≤ L.codeCache + codeCacheSize := by
  rw [compile, ← space_tables] at hc
  exact compiled_of_compileAt hc h.space.cursor_le

/-- What a dispatch does: on a hit at most the cache changes, on a miss the block is compiled. -/
theorem of_getCompiledBlock {rip host : ℕ} {seq : Sequence} {r' : Recompiler}
    (hd : s.tables.getCompiledBlock L rip seq = some (host, r')) :
    (s.Hit L rip → Frame s.tables r' ∅ ∅ ∧ r'.cursor = s.tables.cursor) ∧
      (¬s.Hit L rip → s.tables.compile L rip seq = some r') := by
  rw [getCompiledBlock] at hd
  dsimp only at hd
  split at hd
  · next hcache =>
    obtain ⟨-, rfl⟩ := Prod.mk.inj (Option.some.inj hd)
    exact ⟨fun _ ↦ ⟨Frame.refl _, rfl⟩, fun hmiss ↦ absurd (Or.inl hcache) hmiss⟩
  · next hcache =>
    split at hd
    · next hexists =>
      obtain ⟨-, rfl⟩ := Prod.mk.inj (Option.some.inj hd)
      refine ⟨fun _ ↦ ?_, fun hmiss ↦ absurd (Or.inr hexists) hmiss⟩
      split
      · exact ⟨Frame.setCacheEntry _ _ _, rfl⟩
      · exact ⟨Frame.refl _, rfl⟩
    · next hexists =>
      refine ⟨fun hhit ↦ absurd hhit (not_or.mpr ⟨hcache, hexists⟩), fun _ ↦ ?_⟩
      obtain ⟨r₁, h₁, h₂⟩ := Option.bind_eq_some_iff.mp hd
      obtain ⟨-, rfl⟩ := Prod.mk.inj (Option.some.inj h₂)
      exact h₁

theorem Sound.step {e : Event} (h : Sound L s) (hstep : Step L s e t) : Sound L t := by
  cases e with
  | compile rip seq =>
    obtain ⟨r', hc, rfl⟩ := hstep
    obtain ⟨hcompiled, hspace⟩ := of_compile h hc
    exact h.space.compiled hcompiled hspace
  | dispatch rip seq =>
    obtain ⟨host, r', hd, ⟨hhit, rfl⟩ | ⟨hmiss, rfl⟩⟩ := hstep
    · obtain ⟨hframe, hcursor⟩ := (of_getCompiledBlock hd).1 hhit
      exact h.of_address rfl hcursor fun rip' ↦ Or.inl (hframe.address rip')
    · obtain ⟨hcompiled, hspace⟩ := of_compile h ((of_getCompiledBlock hd).2 hmiss)
      exact h.space.compiled hcompiled hspace
  | invalidateRange start stop =>
    obtain ⟨r', hr, rfl⟩ := hstep
    obtain ⟨hmeta, hcursor, -⟩ := of_invalidateRange hr
    exact h.of_address rfl hcursor fun rip ↦ Or.inl (by rw [hmeta])
  | thunk block link =>
    obtain ⟨-, -, r', hr, rfl⟩ := hstep
    obtain ⟨hcursor, -, haddress, -⟩ := of_invalidateAt hr
    exact h.of_address rfl hcursor fun rip ↦ (haddress rip).imp_right And.right
  | clearCodeCache =>
    obtain rfl := hstep
    exact sound_initial _

/-! ## The listed blocks -/

/-- Every block that a page lists has an address. -/
def Listed (s : Jit) : Prop :=
  ∀ page, ∀ rip ∈ s.tables.pageMap page, (s.tables.blockMetadata rip).address ≠ 0

/-- The thunk's callback sets no address to zero that a page still lists. -/
def EventOk (s : Jit) : Event → Prop
  | .thunk block _ => ∀ rip, s.tables.zeroes (block + 8) = some rip →
      ∀ page, rip ∉ s.tables.pageMap page
  | _ => True

theorem listed_initial (code : ℕ → HostInsn) : Listed (initial L code) := by
  simp [Listed, initial, Recompiler.initial]

theorem Listed.space (h : Listed s) : Listed (s.space L) := by
  rw [Jit.space]
  split
  · exact listed_initial _
  · exact h

theorem Listed.compiled (h : Listed s) {rip : ℕ} {seq : Sequence} {r' : Recompiler}
    (hc : Compiled L s.tables r' rip seq.items) (hpos : 0 < s.tables.cursor) :
    Listed (s.compiled L seq r') := by
  intro page rip' hmem
  by_cases hrip : rip' = rip
  · simp only [Jit.compiled, hrip, hc.address_self]
    exact hpos.ne'
  · simp only [Jit.compiled, hc.address rip' hrip]
    exact h page rip' ((hc.pageMap page rip' hmem).resolve_right fun heq ↦ hrip heq.1)

theorem Sound.cursor_pos (h : Sound L s) : 0 < s.tables.cursor := by
  have h₁ := L.codeCache_pos
  have h₂ := L.codeCache_le_thunk
  have h₃ := L.thunk_lt_start
  have h₄ := h.start_le
  omega

theorem Listed.step {e : Event} (h : Listed s) (hsound : Sound L s)
    (hstep : Guarded EventOk (Step L) s e t) : Listed t := by
  obtain ⟨hok, hstep⟩ := hstep
  cases e with
  | compile rip seq =>
    obtain ⟨r', hc, rfl⟩ := hstep
    exact h.space.compiled (of_compile hsound hc).1 hsound.space.cursor_pos
  | dispatch rip seq =>
    obtain ⟨host, r', hd, ⟨hhit, rfl⟩ | ⟨hmiss, rfl⟩⟩ := hstep
    · obtain ⟨hframe, -⟩ := (of_getCompiledBlock hd).1 hhit
      intro page rip' hmem
      rw [hframe.pageMap] at hmem
      rw [hframe.address]
      exact h page rip' hmem
    · have hc := (of_getCompiledBlock hd).2 hmiss
      exact h.space.compiled (of_compile hsound hc).1 hsound.space.cursor_pos
  | invalidateRange start stop =>
    obtain ⟨r', hr, rfl⟩ := hstep
    obtain ⟨hmeta, -, hpages⟩ := of_invalidateRange hr
    intro page rip hmem
    simp only [hmeta]
    exact h page rip (hpages page rip hmem)
  | thunk block link =>
    obtain ⟨-, -, r', hr, rfl⟩ := hstep
    obtain ⟨-, hpages, haddress, -⟩ := of_invalidateAt hr
    intro page rip hmem
    simp only [hpages] at hmem
    rcases haddress rip with heq | ⟨hzero, -⟩
    · simp only [heq]
      exact h page rip hmem
    · exact absurd hmem (hok rip hzero page)
  | clearCodeCache =>
    obtain rfl := hstep
    exact listed_initial _

/-- The block is live: it has a nonzero address, which is the first byte of a compiled block of at
least eight bytes inside the buffer. -/
def Live (L : Layout) (s : Jit) (rip : ℕ) : Prop :=
  (s.tables.blockMetadata rip).address ≠ 0 ∧
    ∃ b ∈ s.blocks, b.1 = (s.tables.blockMetadata rip).address ∧ b.1 + 8 ≤ b.2 ∧
      L.startOfCodeCache ≤ b.1 ∧ b.2 ≤ s.tables.cursor

theorem Sound.live (h : Sound L s) {rip : ℕ} (hne : (s.tables.blockMetadata rip).address ≠ 0) :
    Live L s rip := by
  obtain ⟨b, hb, heq⟩ := h.address rip hne
  obtain ⟨h₁, h₂, h₃⟩ := h.blocks b hb
  exact ⟨hne, b, hb, heq, h₂, h₁, h₃⟩

/-- **Invalidation only writes into live code** after every run in which the thunk never sets an
address to zero that a page still lists. -/
theorem live_of_run {code : ℕ → HostInsn} {events : List Event}
    (hrun : Run (Guarded EventOk (Step L)) (initial L code) events s) (start stop : ℕ) :
    ∀ rip ∈ s.tables.handed start stop, Live L s rip := by
  have hinv : Sound L s ∧ Listed s := by
    refine hrun.invariant (I := fun s ↦ Sound L s ∧ Listed s)
      ⟨sound_initial code, listed_initial code⟩ ?_
    rintro u e v ⟨hsound, hlisted⟩ hstep
    exact ⟨hsound.step hstep.2, hlisted.step hsound hstep⟩
  intro rip hrip
  obtain ⟨page, -, hmem⟩ := List.mem_flatMap.mp hrip
  exact hinv.1.live (hinv.2 page rip hmem)

/-! ## A block on two pages -/

/-- A code cache like the ones the emulator sets up. -/
def sampleLayout : Layout where
  link := true
  addressCache := true
  mode32 := false
  codeCache := 0x10000000
  compileNextHandler := 0x10000100
  invalidateCallerThunk := 0x10000200
  startOfCodeCache := 0x10000400
  codeCache_pos := by decide
  codeCache_le_thunk := by decide
  thunk_lt_start := by decide
  start_le := by decide
  thunk_even := by decide
  codeCache_lt := by decide

/-- Some block that was read from the last bytes of one page and the first of the next. -/
def twoPages : Sequence := ⟨[.insn 0, .insn 0, .dispatch], 0x2002⟩

def blank : Jit := initial sampleLayout fun _ ↦ .nop

theorem isSome_compile_twoPages :
    (blank.tables.compile sampleLayout 0x1FFE twoPages).isSome := by decide

/-- The block has been compiled. -/
def twoPagesCompiled : Jit := (blank.space sampleLayout).compiled sampleLayout twoPages
  ((blank.tables.compile sampleLayout 0x1FFE twoPages).get isSome_compile_twoPages)

theorem step_twoPagesCompiled :
    Step sampleLayout blank (.compile 0x1FFE twoPages) twoPagesCompiled :=
  ⟨_, (Option.some_get _).symm, rfl⟩

theorem isSome_invalidate_bothPages :
    (twoPagesCompiled.tables.invalidateRange sampleLayout 0x1000 0x3000).isSome := by
  decide

/-- Both pages have been invalidated. -/
def bothPagesInvalidated : Jit := { twoPagesCompiled with
  tables := (twoPagesCompiled.tables.invalidateRange sampleLayout 0x1000 0x3000).get
    isSome_invalidate_bothPages
  patched := twoPagesCompiled.patched ∪
    {a | ∃ rip ∈ twoPagesCompiled.tables.handed 0x1000 0x3000,
      a = (twoPagesCompiled.tables.blockMetadata rip).address} }

theorem step_bothPagesInvalidated : Step sampleLayout twoPagesCompiled
    (.invalidateRange 0x1000 0x3000) bothPagesInvalidated :=
  ⟨_, (Option.some_get isSome_invalidate_bothPages).symm, rfl⟩

/-- No page lists the block any more. -/
theorem notMem_pageMap_bothPages (page : ℕ) :
    0x1FFE ∉ bothPagesInvalidated.tables.pageMap page := by
  intro hmem
  obtain ⟨-, -, hpages⟩ := of_invalidateRange (Option.some_get isSome_invalidate_bothPages).symm
  obtain ⟨hcompiled, -⟩ :=
    of_compile (sound_initial fun _ ↦ .nop) (Option.some_get isSome_compile_twoPages).symm
  obtain hold | ⟨-, hpage⟩ := hcompiled.pageMap page _ (hpages page _ hmem)
  · exact absurd hold List.not_mem_nil
  have hof : pagesOf (twoPagesCompiled.tables.blockMetadata 0x1FFE) = [0x1000, 0x2000] := by decide
  have hin : page ∈ [0x1000, 0x2000] := hof ▸ hpage
  obtain rfl | rfl : page = 0x1000 ∨ page = 0x2000 := by simpa using hin
  all_goals
    revert hmem
    decide

theorem isSome_thunk_bothPages :
    (bothPagesInvalidated.tables.invalidateAt sampleLayout (0x10000400 + 8) 0).isSome := by
  decide

/-- The block has been entered, and its address is zero. -/
def bothPagesEntered : Jit := { bothPagesInvalidated with
  tables := (bothPagesInvalidated.tables.invalidateAt sampleLayout (0x10000400 + 8) 0).get
    isSome_thunk_bothPages }

theorem step_bothPagesEntered : Guarded EventOk (Step sampleLayout) bothPagesInvalidated
    (.thunk 0x10000400 none) bothPagesEntered := by
  refine ⟨fun rip hzero page ↦ ?_, Or.inr ⟨0x1FFE, by decide, by decide⟩, by simp, _,
    (Option.some_get isSome_thunk_bothPages).symm, rfl⟩
  have hrip : bothPagesInvalidated.tables.zeroes (0x10000400 + 8) = some 0x1FFE := by decide
  obtain rfl : 0x1FFE = rip := Option.some.inj (hrip.symm.trans hzero)
  exact notMem_pageMap_bothPages page

theorem isSome_dispatch_twoPages :
    (bothPagesEntered.tables.getCompiledBlock sampleLayout 0x1FFE twoPages).isSome := by decide

/-- The block has been compiled again. -/
def twoPagesAgain : Jit := (bothPagesEntered.space sampleLayout).compiled sampleLayout twoPages
  ((bothPagesEntered.tables.getCompiledBlock sampleLayout 0x1FFE twoPages).get
    isSome_dispatch_twoPages).2

theorem step_twoPagesAgain :
    Step sampleLayout bothPagesEntered (.dispatch 0x1FFE twoPages) twoPagesAgain := by
  refine ⟨_, _, (Option.some_get isSome_dispatch_twoPages).symm, .inr ⟨?_, rfl⟩⟩
  rintro (⟨-, hcache⟩ | hexists)
  · revert hcache
    decide
  · revert hexists
    decide

/-- The law is not empty: both pages are invalidated, the thunk sets the block's address to zero,
the block is compiled again, and then its first page lists it and it is live. -/
theorem live_of_run_twoPages :
    (twoPagesAgain.tables.blockMetadata 0x1FFE).address ≠ 0x10000400 ∧
      0x1FFE ∈ twoPagesAgain.tables.handed 0x1000 0x2000 ∧
          Live sampleLayout twoPagesAgain 0x1FFE := by
  have hmem : 0x1FFE ∈ twoPagesAgain.tables.handed 0x1000 0x2000 := by decide
  have hrun : Run (Guarded EventOk (Step sampleLayout)) blank [.compile 0x1FFE twoPages,
      .invalidateRange 0x1000 0x3000, .thunk 0x10000400 none, .dispatch 0x1FFE twoPages]
      twoPagesAgain :=
    .cons ⟨trivial, step_twoPagesCompiled⟩ (.cons ⟨trivial, step_bothPagesInvalidated⟩
      (.cons step_bothPagesEntered (.single ⟨trivial, step_twoPagesAgain⟩)))
  exact ⟨by decide, hmem, live_of_run hrun 0x1000 0x2000 _ hmem⟩

theorem isSome_invalidate_firstPage :
    (twoPagesCompiled.tables.invalidateRange sampleLayout 0x1000 0x2000).isSome := by
  decide

/-- The first page has been invalidated. -/
def firstPageInvalidated : Jit := { twoPagesCompiled with
  tables := (twoPagesCompiled.tables.invalidateRange sampleLayout 0x1000 0x2000).get
    isSome_invalidate_firstPage
  patched := twoPagesCompiled.patched ∪
    {a | ∃ rip ∈ twoPagesCompiled.tables.handed 0x1000 0x2000,
      a = (twoPagesCompiled.tables.blockMetadata rip).address} }

theorem isSome_thunk_twoPages :
    (firstPageInvalidated.tables.invalidateAt sampleLayout (0x10000400 + 8) 0).isSome := by
  decide

/-- The block has been entered once more. -/
def firstPageEntered : Jit := { firstPageInvalidated with
  tables := (firstPageInvalidated.tables.invalidateAt sampleLayout (0x10000400 + 8) 0).get
    isSome_thunk_twoPages }

theorem step_firstPageInvalidated : Step sampleLayout twoPagesCompiled
    (.invalidateRange 0x1000 0x2000) firstPageInvalidated :=
  ⟨_, (Option.some_get isSome_invalidate_firstPage).symm, rfl⟩

theorem mem_patched_firstPage : 0x10000400 ∈ firstPageInvalidated.patched := by
  refine Or.inr ⟨0x1FFE, ?_, ?_⟩ <;> decide

theorem run_firstPageEntered : Run (Step sampleLayout) blank [.compile 0x1FFE twoPages,
    .invalidateRange 0x1000 0x2000, .thunk 0x10000400 none] firstPageEntered := by
  have hthunk : Step sampleLayout firstPageInvalidated (.thunk 0x10000400 none)
      firstPageEntered :=
    ⟨mem_patched_firstPage, by simp, _, (Option.some_get isSome_thunk_twoPages).symm, rfl⟩
  exact Run.cons step_twoPagesCompiled (Run.cons step_firstPageInvalidated (Run.single hthunk))

/-- Without the condition the law fails: the first page is invalidated, the block is entered once
more and the thunk sets its address to zero, and then the second page is invalidated. -/
theorem not_live_second_page :
    ¬∀ (L : Layout) (code : ℕ → HostInsn) (events : List Event) (s : Jit),
    Run (Step L) (initial L code) events s → ∀ start stop,
      ∀ rip ∈ s.tables.handed start stop, Live L s rip := by
  intro hall
  have hlisted : 0x1FFE ∈ firstPageEntered.tables.handed 0x2000 0x3000 := by decide
  have hzero : (firstPageEntered.tables.blockMetadata 0x1FFE).address = 0 := by decide
  exact (hall _ _ _ _ run_firstPageEntered _ _ _ hlisted).1 hzero

end Jit

end Felix86
