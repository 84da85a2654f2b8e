import Felix86.V2.BlockLiveness

/-!
# No stale code after invalidation

Once a block has been patched, whoever jumps to its old host address must end up in the thunk. The
pair stays in place if nothing writes over it, and three operations write into code that is already
there: `invalidateBlock` itself, which writes the same pair again, `expirePendingLinks`, and the
unlinking in `invalidateAt`. The last two write at places where a link was emitted.

So everything depends on where a block's links are. A link that starts within the first eight bytes
of its block overlaps the pair, and a block that consists of little more than a jump has one there.
`LinksClear` says that no link does; then the pairs are kept along every run.
-/

namespace Felix86

open Recompiler

namespace Jit

variable {L : Layout} {s t : Jit}

/-- No link of the block starts in its first eight bytes. -/
def LinksClear (seq : Sequence) : Prop := ∀ site ∈ linkSites 0 seq.items, 8 ≤ site

/-- Blocks that are compiled have clear links, if the recompiler links at all. -/
def ClearOk (L : Layout) (_ : Jit) : Event → Prop
  | .compile _ seq => L.link → LinksClear seq
  | .dispatch _ seq => L.link → LinksClear seq
  | _ => True

theorem linkSites_add (offset start : ℕ) {site : ℕ} {items : List Item}
    (h : site ∈ linkSites (offset + start) items) :
    ∃ site₀ ∈ linkSites start items, site = offset + site₀ := by
  induction items generalizing start with
  | nil => simp [linkSites] at h
  | cons item items ih =>
    rcases mem_linkSites_cons.mp h with ⟨rfl, hlink⟩ | hrest
    · exact ⟨start, mem_linkSites_cons.mpr (Or.inl ⟨rfl, hlink⟩), rfl⟩
    · rw [Nat.add_assoc] at hrest
      obtain ⟨site₀, hmem, rfl⟩ := ih _ hrest
      exact ⟨site₀, mem_linkSites_cons.mpr (Or.inr hmem), rfl⟩

theorem LinksClear.le {seq : Sequence} (h : LinksClear seq) {start site : ℕ}
    (hsite : site ∈ linkSites start seq.items) : start + 8 ≤ site := by
  obtain ⟨site₀, hmem, rfl⟩ := linkSites_add start 0 hsite
  exact Nat.add_le_add_left (h site₀ hmem) start

/-- Links lie behind the first pair of every block, pending links are links, and the pairs of
patched blocks are in place. -/
structure Kept (L : Layout) (s : Jit) : Prop where
  sites : ∀ site ∈ s.sites, site + 8 ≤ s.tables.cursor
  pending : ∀ rip, ∀ link ∈ (s.tables.blockMetadata rip).pendingLinks, link ∈ s.sites
  clear : ∀ b ∈ s.blocks, ∀ site ∈ s.sites, b.1 + 8 ≤ site ∨ site + 8 ≤ b.1
  start : ∀ a ∈ s.patched, ∃ b ∈ s.blocks, b.1 = a
  patched : ∀ a ∈ s.patched, Patched L s.tables a

theorem kept_initial (code : ℕ → HostInsn) : Kept L (initial L code) := by
  refine ⟨?_, ?_, ?_, ?_, ?_⟩ <;> simp [initial, Recompiler.initial, BlockMetadata.empty]

theorem Kept.space (h : Kept L s) : Kept L (s.space L) := by
  rw [Jit.space]
  split
  · exact kept_initial _
  · exact h

/-- Rewriting links leaves the pairs of patched blocks alone. -/
theorem Kept.patched_congr (h : Kept L s) {r' : Recompiler} (links : Set ℕ)
    (hlinks : ∀ link ∈ links, link ∈ s.sites) {a : ℕ} (ha : a ∈ s.patched)
    (hcode : ∀ x ∈ pair a, x ∉ pairs links → r'.code x = s.tables.code x) : Patched L r' a := by
  refine (h.patched a ha).congr fun x hx ↦ hcode x hx ?_
  rintro ⟨link, hlink, hx'⟩
  obtain ⟨b, hb, rfl⟩ := h.start a ha
  have h₁ := h.clear b hb link (hlinks link hlink)
  have h₂ := hx.1
  have h₃ := hx.2
  have h₄ := hx'.1
  have h₅ := hx'.2
  omega

theorem Kept.compiled (h : Kept L s) (hsound : Sound L s) {rip : ℕ} {seq : Sequence}
    {r' : Recompiler} (hc : Compiled L s.tables r' rip seq.items)
    (hclear : L.link → LinksClear seq) : Kept L (s.compiled L seq r') := by
  have hlen := hc.eight_le
  have hcursor := hc.cursor
  refine ⟨?_, ?_, ?_, ?_, ?_⟩
  · rintro site (hsite | ⟨-, hsite⟩)
    · have := h.sites site hsite
      simp only [Jit.compiled]
      omega
    · have := (bounds_of_mem_linkSites hsite).2
      simp only [Jit.compiled]
      omega
  · intro rip' link hlink
    rcases hc.pendingLinks rip' link hlink with ⟨owner, hold⟩ | hnew
    · exact Or.inl (h.pending owner link hold)
    · exact Or.inr hnew
  · rintro b (rfl | hb) site (hsite | ⟨hlink, hsite⟩)
    · exact Or.inr (h.sites site hsite)
    · exact Or.inl ((hclear hlink).le hsite)
    · exact h.clear b hb site hsite
    · -- an earlier block ends before this one starts
      have h₁ := hsound.blocks b hb
      have h₂ := bounds_of_mem_linkSites hsite
      exact Or.inl (by omega)
  · intro a ha
    obtain ⟨b, hb, heq⟩ := h.start a ha
    exact ⟨b, Set.mem_insert_of_mem _ hb, heq⟩
  · intro a ha
    obtain ⟨b, hb, heq⟩ := h.start a ha
    have hblock := hsound.blocks b hb
    refine h.patched_congr _ (fun link hlink ↦ h.pending rip link hlink) ha fun x hx hout ↦ ?_
    have := hx.2
    exact hc.code x (by omega) hout

theorem Kept.invalidateRange (h : Kept L s) (hsound : Sound L s) {start stop : ℕ}
    {r' : Recompiler} (hr : s.tables.invalidateRange L start stop = some r') :
    Kept L { s with
      tables := r'
      patched := s.patched ∪
        {a | ∃ rip ∈ s.tables.handed start stop, a = (s.tables.blockMetadata rip).address} } := by
  obtain ⟨hmeta, hcursor, -⟩ := of_invalidateRange hr
  have hne := address_ne_of_invalidateRange hr
  have hstart : ∀ a, a ∈ s.patched ∨ (∃ rip ∈ s.tables.handed start stop,
      a = (s.tables.blockMetadata rip).address) → ∃ b ∈ s.blocks, b.1 = a := by
    rintro a (ha | ⟨rip, hrip, rfl⟩)
    · exact h.start a ha
    · exact hsound.address rip (hne rip hrip)
  refine ⟨fun site hsite ↦ ?_, fun rip link hlink ↦ ?_, h.clear, hstart, fun a ha ↦ ?_⟩
  · exact hcursor ▸ h.sites site hsite
  · exact h.pending rip link (hmeta ▸ hlink)
  · refine patched_of_invalidateRange hr h.patched ?_ a ha
    intro rip hrip a' ha'
    obtain ⟨b, hb, rfl⟩ := hstart a' ha'
    obtain ⟨c, hcm, heq⟩ := hsound.address rip (hne rip hrip)
    rw [← heq]
    have hb' := (hsound.blocks b hb).2.1
    have hc' := (hsound.blocks c hcm).2.1
    rcases hsound.apart b hb c hcm with heq' | hlt | hlt
    · exact Or.inl heq'
    · exact Or.inr (Or.inl (by omega))
    · exact Or.inr (Or.inr (by omega))

theorem linkOf_linkedBlock {site : ℕ} (h : site < 2 ^ 64) :
    linkOf (linkedBlock (some site)) = site := by
  simp only [linkOf, u64, linkedBlock]
  omega

theorem Kept.thunk (h : Kept L s) (hsound : Sound L s) {block : ℕ} {link : Option ℕ}
    {r' : Recompiler} (hlink : ∀ site ∈ link, site ∈ s.sites)
    (hr : s.tables.invalidateAt L (block + 8) (linkedBlock link) = some r') :
    Kept L { s with tables := r' } := by
  obtain ⟨hcursor, -, -, hcode, hpending⟩ := of_invalidateAt hr
  -- the place that is unlinked is a link
  have hsite : linkedBlock link ≠ 0 → linkOf (linkedBlock link) ∈ s.sites := by
    intro hne
    cases link with
    | none => exact absurd rfl hne
    | some site =>
      have hmem := hlink site rfl
      have h₁ := h.sites site hmem
      have h₂ := hsound.cursor_le
      have h₃ := L.codeCache_lt
      rwa [linkOf_linkedBlock (by omega)]
  refine ⟨?_, ?_, h.clear, h.start, ?_⟩
  · intro site hmem
    exact hcursor ▸ h.sites site hmem
  · intro rip pendingLink hmem
    rcases hpending rip pendingLink hmem with hold | ⟨hne, heq⟩
    · exact h.pending rip pendingLink hold
    · rw [heq]
      exact hsite hne
  · intro a ha
    refine h.patched_congr {x | linkedBlock link ≠ 0 ∧ x = linkOf (linkedBlock link)} ?_ ha ?_
    · rintro x ⟨hne, heq⟩
      rw [heq]
      exact hsite hne
    · exact fun x _ hout ↦ hcode x fun hne hx ↦ hout ⟨_, ⟨hne, rfl⟩, hx⟩

/-- A change of the tables that leaves the code and the pending links alone. -/
theorem Kept.of_frame (h : Kept L s) {r' : Recompiler} (hframe : Frame s.tables r' ∅ ∅)
    (hcursor : r'.cursor = s.tables.cursor) : Kept L { s with tables := r' } := by
  refine ⟨?_, ?_, h.clear, h.start, ?_⟩
  · exact fun site hsite ↦ hcursor ▸ h.sites site hsite
  · intro rip' link hlink
    exact h.pending rip' link ((hframe.pendingLinks rip' link hlink).resolve_right (by simp))
  · exact fun a ha ↦ (h.patched a ha).congr fun x _ ↦ hframe.code x (by simp)

theorem Kept.step {e : Event} (h : Kept L s) (hsound : Sound L s)
    (hstep : Guarded (ClearOk L) (Step L) s e t) : Kept L t := by
  obtain ⟨hok, hstep⟩ := hstep
  cases e with
  | compile rip seq =>
    obtain ⟨r', hc, rfl⟩ := hstep
    exact h.space.compiled hsound.space (of_compile hsound hc).1 hok
  | dispatch rip seq =>
    obtain ⟨host, r', hd, ⟨hhit, rfl⟩ | ⟨hmiss, rfl⟩⟩ := hstep
    · obtain ⟨hframe, hcursor⟩ := (of_getCompiledBlock hd).1 hhit
      exact h.of_frame hframe hcursor
    · have hc := (of_getCompiledBlock hd).2 hmiss
      exact h.space.compiled hsound.space (of_compile hsound hc).1 hok
  | invalidateRange start stop =>
    obtain ⟨r', hr, rfl⟩ := hstep
    exact h.invalidateRange hsound hr
  | thunk block link =>
    obtain ⟨-, hlink, r', hr, rfl⟩ := hstep
    exact h.thunk hsound hlink hr
  | clearCodeCache =>
    obtain rfl := hstep
    exact kept_initial _

/-! ## Entering a patched block -/

/-- Whatever the registers hold, two instructions from the block's start lead to the thunk with the
address behind the pair in `t6`. -/
def EntersThunk (L : Layout) (r : Recompiler) (address : ℕ) : Prop :=
  ∀ host : HostState, host.pc = BitVec.ofNat 64 address →
    ∃ host', (host.step r.code).bind (HostState.step r.code) = some host' ∧
      host'.pc = BitVec.ofNat 64 L.invalidateCallerThunk ∧
      host'.reg .t6 = BitVec.ofNat 64 (address + 8)

theorem and_not_one_of_even {x : BitVec 64} (h : x.toNat % 2 = 0) : x &&& ~~~1#64 = x := by
  ext i hi
  rw [BitVec.getElem_and, BitVec.getElem_not, BitVec.getElem_one]
  rcases Nat.eq_zero_or_pos i with rfl | hpos
  · have hbit : x[0] = false := by
      rw [BitVec.getElem_eq_testBit_toNat, Nat.testBit_zero]
      simp [h]
    rw [hbit, Bool.false_and]
  · simp [hpos.ne']

theorem entersThunk_of_patched {r : Recompiler} {address : ℕ} (h : Patched L r address)
    (hstart : L.startOfCodeCache ≤ address) (hend : address + 8 ≤ L.codeCache + codeCacheSize) :
    EntersThunk L r address := by
  intro host hpc
  have h₁ := L.codeCache_le_thunk
  have h₂ := L.thunk_lt_start
  have h₃ := L.codeCache_lt
  set offset := offsetTo L.invalidateCallerThunk address with hoffset
  have hsum : host.pc + offset = BitVec.ofNat 64 L.invalidateCallerThunk := by
    rw [hpc, hoffset, offsetTo, BitVec.add_comm, BitVec.sub_add_cancel]
  -- the thunk lies below the block, but not further than the code cache is long
  have hreach : Reaches offset := by
    refine Or.inl ?_
    rw [hoffset, offsetTo, BitVec.toNat_sub, BitVec.toNat_ofNat, BitVec.toNat_ofNat]
    unfold codeCacheSize at *
    omega
  have heven : (host.pc + offset) &&& ~~~1#64 = host.pc + offset := by
    rw [hsum]
    refine and_not_one_of_even ?_
    have hlt : L.invalidateCallerThunk < 2 ^ 64 := by omega
    rw [BitVec.toNat_ofNat, Nat.mod_eq_of_lt hlt]
    exact L.thunk_even
  have hpc₀ : host.pc.toNat = address := by
    rw [hpc, BitVec.toNat_ofNat, Nat.mod_eq_of_lt (by omega)]
  have hpc₄ : (host.pc + 4).toNat = address + 4 := by
    rw [BitVec.toNat_add, hpc₀]
    exact Nat.mod_eq_of_lt (show address + 4 < 2 ^ 64 by omega)
  have hauipc : r.code host.pc.toNat = .auipc .t4 (hi20 offset) := by
    rw [hpc₀]
    exact h.1
  have hjalr : r.code (host.pc + 4).toNat = .jalr .t6 (lo12 offset) .t4 := by
    rw [hpc₄]
    exact h.2
  obtain ⟨host', hrun, hpc', hreg⟩ := step_pair (by decide) hreach heven hauipc hjalr
  refine ⟨host', hrun, hpc'.trans hsum, ?_⟩
  rw [hreg, hpc, BitVec.ofNat_add]
  rfl

theorem Kept.entersThunk (h : Kept L s) (hsound : Sound L s) {a : ℕ} (ha : a ∈ s.patched) :
    EntersThunk L s.tables a := by
  obtain ⟨b, hb, rfl⟩ := h.start a ha
  obtain ⟨h₁, h₂, h₃⟩ := hsound.blocks b hb
  have h₄ := hsound.cursor_le
  exact entersThunk_of_patched (h.patched _ ha) h₁ (by omega)

/-- **No stale code.** Along every run in which no compiled block has a link in its first eight
bytes, every block that was patched since the code cache was last cleared still sends whoever enters
it to the thunk. -/
theorem entersThunk_of_run {code : ℕ → HostInsn} {events : List Event}
    (hrun : Run (Guarded (ClearOk L) (Step L)) (initial L code) events s) :
    ∀ a ∈ s.patched, EntersThunk L s.tables a := by
  have hinv : Sound L s ∧ Kept L s := by
    refine hrun.invariant (I := fun s ↦ Sound L s ∧ Kept L s)
      ⟨sound_initial code, kept_initial code⟩ ?_
    rintro u e v ⟨hsound, hkept⟩ hstep
    exact ⟨hsound.step hstep.2, hkept.step hsound hstep⟩
  exact fun a ha ↦ hinv.2.entersThunk hinv.1 ha

/-- The law is not empty: a block is compiled, its page is invalidated, and whoever enters it is
sent to the thunk. -/
theorem entersThunk_of_run_twoPages : 0x10000400 ∈ firstPageInvalidated.patched ∧
    EntersThunk sampleLayout firstPageInvalidated.tables 0x10000400 := by
  have hclear : LinksClear twoPages := by simp [LinksClear, twoPages, linkSites]
  have hcompile : Guarded (ClearOk sampleLayout) (Step sampleLayout) blank
      (.compile 0x1FFE twoPages) twoPagesCompiled :=
    ⟨fun _ ↦ hclear, step_twoPagesCompiled⟩
  have hinvalidate : Guarded (ClearOk sampleLayout) (Step sampleLayout) twoPagesCompiled
      (.invalidateRange 0x1000 0x2000) firstPageInvalidated :=
    ⟨trivial, step_firstPageInvalidated⟩
  exact ⟨mem_patched_firstPage,
    entersThunk_of_run ((Run.single hcompile).snoc hinvalidate) _ mem_patched_firstPage⟩

/-! ## A block that is only a jump -/

/-- `jmp` to an address nearby: one instruction to update the instruction pointer, then the link. -/
def shortJump : Sequence := ⟨[.insn 0x02050513, .link 0x2010], 0x1FF2⟩

/-- The block it jumps to. -/
def jumpTarget : Sequence := ⟨[.insn 0, .dispatch], 0x2012⟩

theorem isSome_compile_shortJump :
    (blank.tables.compile sampleLayout 0x1FF0 shortJump).isSome := by decide

def shortJumpCompiled : Jit := (blank.space sampleLayout).compiled sampleLayout shortJump
  ((blank.tables.compile sampleLayout 0x1FF0 shortJump).get isSome_compile_shortJump)

theorem isSome_invalidate_shortJump :
    (shortJumpCompiled.tables.invalidateRange sampleLayout 0x1000 0x2000).isSome := by
  decide

def shortJumpInvalidated : Jit := { shortJumpCompiled with
  tables := (shortJumpCompiled.tables.invalidateRange sampleLayout 0x1000 0x2000).get
    isSome_invalidate_shortJump
  patched := shortJumpCompiled.patched ∪
    {a | ∃ rip ∈ shortJumpCompiled.tables.handed 0x1000 0x2000,
      a = (shortJumpCompiled.tables.blockMetadata rip).address} }

theorem isSome_compile_jumpTarget :
    (shortJumpInvalidated.tables.compile sampleLayout 0x2010 jumpTarget).isSome := by
  decide

def jumpTargetCompiled : Jit :=
  (shortJumpInvalidated.space sampleLayout).compiled sampleLayout jumpTarget
    ((shortJumpInvalidated.tables.compile sampleLayout 0x2010 jumpTarget).get
      isSome_compile_jumpTarget)

theorem run_jumpTargetCompiled : Run (Step sampleLayout) blank [.compile 0x1FF0 shortJump,
    .invalidateRange 0x1000 0x2000, .compile 0x2010 jumpTarget] jumpTargetCompiled := by
  have hcompile : Step sampleLayout blank (.compile 0x1FF0 shortJump) shortJumpCompiled :=
    ⟨_, (Option.some_get isSome_compile_shortJump).symm, rfl⟩
  have hinvalidate : Step sampleLayout shortJumpCompiled (.invalidateRange 0x1000 0x2000)
      shortJumpInvalidated :=
    ⟨_, (Option.some_get isSome_invalidate_shortJump).symm, rfl⟩
  have htarget : Step sampleLayout shortJumpInvalidated (.compile 0x2010 jumpTarget)
      jumpTargetCompiled :=
    ⟨_, (Option.some_get isSome_compile_jumpTarget).symm, rfl⟩
  exact Run.cons hcompile (Run.cons hinvalidate (Run.single htarget))

theorem mem_patched_jumpTarget : 0x10000400 ∈ jumpTargetCompiled.patched := by
  have hmem : 0x10000400 ∈ shortJumpInvalidated.patched := by
    refine Or.inr ⟨0x1FF0, ?_, ?_⟩ <;> decide
  have hspace : ¬codeCacheSize - (shortJumpInvalidated.tables.cursor - sampleLayout.codeCache) <
      100000 := by decide
  rw [jumpTargetCompiled, Jit.compiled, Jit.space, if_neg hspace]
  exact hmem

/-- The second half of the pair is gone. -/
theorem not_entersThunk_jumpTarget :
    ¬EntersThunk sampleLayout jumpTargetCompiled.tables 0x10000400 := by
  intro henters
  let host : HostState := ⟨0x10000400, fun _ ↦ 0⟩
  obtain ⟨host', hrun, hpc, -⟩ := henters host rfl
  have hfirst : jumpTargetCompiled.tables.code (0x10000400#64).toNat =
      .auipc .t4 (hi20 (offsetTo 0x10000200 0x10000400)) := by decide
  have hsecond : jumpTargetCompiled.tables.code (0x10000404#64).toNat = .nop := by decide
  obtain ⟨host₁, hstep₁, hstep₂⟩ := Option.bind_eq_some_iff.mp hrun
  have hauipc : jumpTargetCompiled.tables.code host.pc.toNat = _ := hfirst
  rw [HostState.step, hauipc] at hstep₁
  obtain rfl := Option.some.inj hstep₁
  -- control just falls through
  have hnop : jumpTargetCompiled.tables.code (host.pc + 4).toNat = .nop := hsecond
  rw [HostState.step, hnop] at hstep₂
  obtain rfl := Option.some.inj hstep₂
  exact absurd hpc (by decide)

/-- Without the condition the law fails: the jump's block is patched, then the block it was waiting
for is compiled, and filling in the link overwrites the second instruction of the pair. -/
theorem not_entersThunk_shortJump : ¬∀ (L : Layout) (code : ℕ → HostInsn) (events : List Event)
    (s : Jit), Run (Step L) (initial L code) events s →
      ∀ a ∈ s.patched, EntersThunk L s.tables a := fun hall ↦
  not_entersThunk_jumpTarget (hall _ _ _ _ run_jumpTargetCompiled _ mem_patched_jumpTarget)

end Jit

end Felix86
