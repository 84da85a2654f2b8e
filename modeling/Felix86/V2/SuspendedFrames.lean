import Felix86.V2.CompiledCopies
import Felix86.V2.RoundingMode

/-!
# Clearing the code cache under suspended frames

A guest signal handler runs in a dispatcher of its own, on top of the frame that was interrupted,
and the interrupted block goes on where it was when the handler has returned. If the handler's code
fills the code cache, `compile` clears it: the buffer is rewound, `emitNecessaryStuff` emits the
dispatcher and the thunk again, and new blocks are written over the old ones. Nothing looks at the
frames below.

A frame waits for translated code not only when it was interrupted there. Signals that arrive during
`CompileNext` are delivered when it returns, and then the dispatcher has the address of a block. And
the thunk has the addresses of a block and of a link in registers, which it gives to `invalidateAt`.

The state here is the recompiler with its history, the frames that are suspended, and the part of
the dispatcher that is not the same every time it is emitted: `restoreState` loads the rounding mode
that `fsrm_sse` names, and `clearCodeCache` does not reset `fsrm_sse`.
-/

namespace Felix86

open Recompiler

namespace Recompiler

variable {L : Layout} {r r' : Recompiler}

/-- Invalidating a range writes to the first pairs of its blocks only. -/
theorem code_of_invalidateRange {start stop : ℕ} (h : r.invalidateRange L start stop = some r')
    {x : ℕ} (hx : ∀ rip ∈ r.handed start stop, x ∉ pair (r.blockMetadata rip).address) :
    r'.code x = r.code x := by
  obtain ⟨r₁, hloop, hcode, -⟩ := exists_of_invalidateRange h
  rw [hcode]
  refine (foldlM_invariant hloop (I := fun s ↦ s.blockMetadata = r.blockMetadata ∧
    s.code x = r.code x) ⟨rfl, rfl⟩ ?_).2
  rintro rip hrip s t ⟨hmeta, hs⟩ hst
  obtain ⟨-, hframe, hmeta', -⟩ := of_invalidateBlock hst
  refine ⟨hmeta'.trans hmeta, (hframe.code x ?_).trans hs⟩
  rw [hmeta]
  exact hx rip hrip

end Recompiler

/-! ## Steps that do not clear -/

namespace Traced

variable (L : Layout)

/-- `compile` would clear the code cache. -/
def full (s : Traced) : Bool :=
  decide (codeCacheSize - (s.jit.tables.cursor - L.codeCache) < 100000)

/-- The event compiles a block. -/
def compiles (s : Traced) : TracedEvent → Bool
  | .compile _ _ => true
  | .dispatch rip _ => decide (¬s.jit.Hit L rip)
  | _ => false

/-- The event clears the code cache. -/
def clears (s : Traced) : TracedEvent → Bool
  | .clearCodeCache => true
  | e => s.compiles L e && s.full L

/-- Every link is in a block that is in the buffer, and every pending link is a link. -/
structure Linked (s : Traced) : Prop where
  sites : ∀ site ∈ s.jit.sites, ∃ c ∈ s.copies, c.start ≤ site ∧ site + 8 ≤ c.stop
  pending : ∀ rip, ∀ link ∈ (s.jit.tables.blockMetadata rip).pendingLinks, link ∈ s.jit.sites

/-- Code that was emitted stays, apart from links and the pairs of patched blocks. -/
structure Grows (s t : Traced) : Prop where
  copies : ∀ c ∈ s.copies, c ∈ t.copies
  sites : s.jit.sites ⊆ t.jit.sites
  patched : s.jit.patched ⊆ t.jit.patched
  code : ∀ x < s.jit.tables.cursor, x ∉ pairs t.jit.sites → x ∉ pairs t.jit.patched →
    t.jit.tables.code x = s.jit.tables.code x

variable {L} {s t : Traced}

theorem linked_initial (code : ℕ → HostInsn) : Linked (initial L code) := by
  refine ⟨?_, ?_⟩ <;> simp [initial, Jit.initial, Recompiler.initial, BlockMetadata.empty]

theorem Linked.space (h : Linked s) : Linked (s.space L) := by
  unfold Traced.space
  split
  · exact linked_initial _
  · exact h

theorem Linked.compiled (h : Linked s) {rip : ℕ} {b : Translation} {r' : Recompiler}
    (hc : Compiled L s.jit.tables r' rip b.sequence.items) :
    Linked (s.compiled rip b (s.jit.compiled L b.sequence r')) := by
  refine ⟨?_, ?_⟩
  · rintro site (hsite | ⟨-, hsite⟩)
    · obtain ⟨c, hcm, hbounds⟩ := h.sites site hsite
      exact ⟨c, List.mem_append_left _ hcm, hbounds⟩
    · have hbounds := bounds_of_mem_linkSites hsite
      rw [← hc.cursor] at hbounds
      exact ⟨_, List.mem_append_right _ List.mem_cons_self, hbounds⟩
  · intro rip' link hlink
    rcases hc.pendingLinks rip' link hlink with ⟨owner, hold⟩ | hnew
    · exact Or.inl (h.pending owner link hold)
    · exact Or.inr hnew

theorem Grows.compiled (h : Linked s) {rip : ℕ} {b : Translation} {r' : Recompiler}
    (hc : Compiled L s.jit.tables r' rip b.sequence.items) :
    Grows s (s.compiled rip b (s.jit.compiled L b.sequence r')) := by
  refine ⟨fun c hcm ↦ List.mem_append_left _ hcm, Set.subset_union_left, subset_rfl, ?_⟩
  intro x hx hsites _
  refine hc.code x hx ?_
  rintro ⟨link, hlink, hmem⟩
  exact hsites ⟨link, Or.inl (h.pending rip link hlink), hmem⟩

theorem not_full_of_not_clears {e : TracedEvent} (hcompiles : s.compiles L e = true)
    (hclear : s.clears L e = false) : s.full L = false := by
  have hand : (s.compiles L e && s.full L) = false := by
    cases e with
    | clearCodeCache => cases hclear
    | _ => exact hclear
  rwa [hcompiles, Bool.true_and] at hand

theorem space_of_not_full (h : s.full L = false) : s.space L = s := if_neg (of_decide_eq_false h)

theorem linked_of_compile (h : Linked s) (hsound : s.jit.Sound L) {rip : ℕ} {b : Translation}
    {r' : Recompiler} (hc : s.jit.tables.compile L rip b.sequence = some r') :
    Linked ((s.space L).compiled (wrapRip L rip) b ((s.jit.space L).compiled L b.sequence r')) := by
  have hcompiled := (Jit.of_compile hsound hc).1
  rw [← space_jit] at hcompiled ⊢
  exact h.space.compiled hcompiled

theorem grows_of_compile (h : Linked s) (hsound : s.jit.Sound L) {rip : ℕ} {b : Translation}
    {r' : Recompiler} (hc : s.jit.tables.compile L rip b.sequence = some r')
    (hfull : s.full L = false) :
    Grows s ((s.space L).compiled (wrapRip L rip) b
        ((s.jit.space L).compiled L b.sequence r')) := by
  have hcompiled := (Jit.of_compile hsound hc).1
  rw [← space_jit, space_of_not_full hfull] at hcompiled ⊢
  exact Grows.compiled h hcompiled

/-- The link that the thunk's callback rewrites is a link. -/
theorem linkOf_mem (h : Linked s) (hrecorded : Recorded L s) (hsound : s.jit.Sound L)
    {link : Option ℕ} (hlink : ∀ site ∈ link, site ∈ s.jit.sites)
    (hne : Jit.linkedBlock link ≠ 0) : linkOf (Jit.linkedBlock link) ∈ s.jit.sites := by
  cases link with
  | none => exact absurd rfl hne
  | some site =>
    have hmem := hlink site rfl
    obtain ⟨c, hc, h₁, h₂⟩ := h.sites site hmem
    have h₃ := (hrecorded.bounds c hc).2.2
    have h₄ := hsound.cursor_le
    have h₅ := L.codeCache_lt
    have heq : linkOf (Jit.linkedBlock (some site)) = site := by
      simp only [linkOf, u64, Jit.linkedBlock]
      omega
    rwa [heq]

theorem Linked.step {e : TracedEvent} (h : Linked s) (hsound : s.jit.Sound L)
    (hrecorded : Recorded L s) (hstep : s.Step L e t) : Linked t := by
  obtain ⟨j, hj, rfl⟩ := hstep
  cases e with
  | compile rip b =>
    obtain ⟨r', hc, rfl⟩ := hj
    exact linked_of_compile h hsound hc
  | dispatch rip b =>
    obtain ⟨host, r', hd, ⟨hhit, rfl⟩ | ⟨hmiss, rfl⟩⟩ := hj
    · obtain ⟨hframe, -⟩ := (Jit.of_getCompiledBlock hd).1 hhit
      simp only [record, if_pos hhit]
      refine ⟨h.sites, fun rip' link hlink ↦ h.pending rip' link ?_⟩
      exact (hframe.pendingLinks rip' link hlink).resolve_right (by simp)
    · simp only [record, if_neg hmiss]
      exact linked_of_compile h hsound ((Jit.of_getCompiledBlock hd).2 hmiss)
  | invalidateRange start stop =>
    obtain ⟨r', hr, rfl⟩ := hj
    obtain ⟨hmeta, -⟩ := of_invalidateRange hr
    exact ⟨h.sites, fun rip link hlink ↦ h.pending rip link (hmeta ▸ hlink)⟩
  | thunk block link =>
    obtain ⟨-, hlink, r', hr, rfl⟩ := hj
    obtain ⟨-, -, -, -, hpending⟩ := of_invalidateAt hr
    refine ⟨h.sites, fun rip pendingLink hmem ↦ ?_⟩
    rcases hpending rip pendingLink hmem with hold | ⟨hne, heq⟩
    · exact h.pending rip pendingLink hold
    · rw [heq]
      exact linkOf_mem h hrecorded hsound hlink hne
  | clearCodeCache =>
    obtain rfl := hj
    exact linked_initial _

theorem grows_of_step {e : TracedEvent} (h : Linked s) (hsound : s.jit.Sound L)
    (hrecorded : Recorded L s) (hstep : s.Step L e t) (hclear : s.clears L e = false) :
    Grows s t := by
  obtain ⟨j, hj, rfl⟩ := hstep
  cases e with
  | compile rip b =>
    obtain ⟨r', hc, rfl⟩ := hj
    exact grows_of_compile h hsound hc (not_full_of_not_clears rfl hclear)
  | dispatch rip b =>
    obtain ⟨host, r', hd, ⟨hhit, rfl⟩ | ⟨hmiss, rfl⟩⟩ := hj
    · obtain ⟨hframe, -⟩ := (Jit.of_getCompiledBlock hd).1 hhit
      simp only [record, if_pos hhit]
      exact ⟨fun _ hc ↦ hc, subset_rfl, subset_rfl, fun x _ _ _ ↦ hframe.code x (by simp)⟩
    · simp only [record, if_neg hmiss]
      have hcompiles : s.compiles L (.dispatch rip b) = true := decide_eq_true hmiss
      exact grows_of_compile h hsound ((Jit.of_getCompiledBlock hd).2 hmiss)
        (not_full_of_not_clears hcompiles hclear)
  | invalidateRange start stop =>
    obtain ⟨r', hr, rfl⟩ := hj
    refine ⟨fun _ hc ↦ hc, subset_rfl, Set.subset_union_left, fun x _ _ hpatched ↦ ?_⟩
    exact code_of_invalidateRange hr fun rip hrip hmem ↦
      hpatched ⟨_, Or.inr ⟨rip, hrip, rfl⟩, hmem⟩
  | thunk block link =>
    obtain ⟨-, hlink, r', hr, rfl⟩ := hj
    obtain ⟨-, -, -, hcode, -⟩ := of_invalidateAt hr
    refine ⟨fun _ hc ↦ hc, subset_rfl, subset_rfl, fun x _ hsites _ ↦ ?_⟩
    exact hcode x fun hne hmem ↦
      hsites ⟨_, linkOf_mem h hrecorded hsound hlink hne, hmem⟩
  | clearCodeCache => cases hclear

end Traced

/-! ## Frames -/

/-- The rounding part of `emitNecessaryStuff`: the dispatcher restores the state when it is entered
and when it comes back from `CompileNext`, the thunk when it comes back from `invalidateAt`. The
rest of what is emitted depends on nothing that changes. -/
def Rounding.emitNecessaryStuff (fsrmSse : Bool) : List Rounding.Op :=
  [restoreState fsrmSse, restoreState fsrmSse, restoreState fsrmSse]

/-- A frame that goes on in the code of a block, with the code as it was when it was suspended. -/
structure Suspended where
  copy : Copy
  pc : ℕ
  code : ℕ → HostInsn

/-- Where a frame goes on: in the dispatcher, which looks for a block; in the code of a block; or in
the thunk, which was reached from the copy `c` and will call `invalidateAt`. -/
inductive Frame
  | dispatcher
  | block (f : Suspended)
  | thunk (c : Copy) (link : Option ℕ)

/-- The recompiler of a thread and the dispatcher frames below the one that is running. -/
structure Nested where
  trace : Traced
  fsrmSse : Bool
  necessaryStuff : List Rounding.Op
  frames : List Frame

namespace Nested

/-- Where a signal is delivered. `block` is an address in a block: the host is there, or in a
function that the block has called there, or it is in the dispatcher, which has the address of the
block and goes on at its start. -/
inductive Place
  | dispatcher
  | block (c : Copy) (pc : ℕ)
  | thunk (c : Copy) (link : Option ℕ)

/-- What happens in a thread: the recompiler does something, after which `fsrm_sse` is as the last
block left it, a signal is delivered, and a handler returns. -/
inductive Event
  | recompiler (e : TracedEvent) (leaves : Bool)
  | signal (place : Place)
  | sigreturn

variable (L : Layout)

/-- A new recompiler. -/
def initial (code : ℕ → HostInsn) : Nested :=
  ⟨Traced.initial L code, true, Rounding.emitNecessaryStuff true, []⟩

/-- The state after the recompiler did something. -/
def after (s : Nested) (e : TracedEvent) (leaves : Bool) (t : Traced) : Nested where
  trace := t
  fsrmSse := if s.trace.compiles L e then leaves else s.fsrmSse
  necessaryStuff :=
    if s.trace.clears L e then Rounding.emitNecessaryStuff s.fsrmSse else s.necessaryStuff
  frames := s.frames

/-- The place is one at which the thread can be. The thunk is reached from the pair of a patched
block, through a link or from the dispatcher. -/
def Reaches (s : Nested) : Place → Prop
  | .dispatcher => True
  | .block c pc => c ∈ s.trace.copies ∧ c.start ≤ pc ∧ pc < c.stop
  | .thunk c link => c ∈ s.trace.copies ∧ c.start ∈ s.trace.jit.patched ∧
      ∀ site ∈ link, site ∈ s.trace.jit.sites

/-- The frame that is suspended at a place. -/
def suspend (s : Nested) : Place → Frame
  | .dispatcher => .dispatcher
  | .block c pc => .block ⟨c, pc, s.trace.jit.tables.code⟩
  | .thunk c link => .thunk c link

/-- What a frame does to the tables when it goes on: the thunk calls `invalidateAt` with the
addresses it had. -/
def Resumes (s : Nested) : Frame → Nested → Prop
  | .thunk c link, t => ∃ r', s.trace.jit.tables.invalidateAt L (c.start + 8)
      (Jit.linkedBlock link) = some r' ∧ t = { s with trace.jit.tables := r' }
  | _, t => t = s

/-- A step of the thread. -/
def Step (s : Nested) : Event → Nested → Prop
  | .recompiler e leaves, t => ∃ trace, s.trace.Step L e trace ∧ t = s.after L e leaves trace
  | .signal place, t => s.Reaches place ∧ t = { s with frames := s.suspend place :: s.frames }
  | .sigreturn, t => ∃ f rest, s.frames = f :: rest ∧ Resumes L { s with frames := rest } f t

/-- The code that a frame goes on in is in the buffer as it was, apart from links and the pairs of
patched blocks. -/
def Kept (s : Nested) (f : Suspended) : Prop :=
  f.copy ∈ s.trace.copies ∧ ∀ x, f.copy.start ≤ x → x < f.copy.stop →
    x ∉ pairs s.trace.jit.sites → x ∉ pairs s.trace.jit.patched →
      s.trace.jit.tables.code x = f.code x

/-- The code that frames go on in is kept, every address that is recorded, in the tables or in the
registers of a frame, is in a block that is in the buffer, and the dispatcher is the one the frames
were entered through. -/
structure Safe (s : Nested) : Prop where
  frames : ∀ f, .block f ∈ s.frames → s.Kept f
  thunks : ∀ c link, .thunk c link ∈ s.frames → c ∈ s.trace.copies ∧
    ∀ site ∈ link, ∃ d ∈ s.trace.copies, d.start ≤ site ∧ site + 8 ≤ d.stop
  pending : ∀ rip, ∀ link ∈ (s.trace.jit.tables.blockMetadata rip).pendingLinks,
    ∃ c ∈ s.trace.copies, c.start ≤ link ∧ link + 8 ≤ c.stop
  address : ∀ rip, (s.trace.jit.tables.blockMetadata rip).address ≠ 0 →
    ∃ c ∈ s.trace.copies, c.rip = rip ∧
      c.start = (s.trace.jit.tables.blockMetadata rip).address
  necessaryStuff : s.necessaryStuff = Rounding.emitNecessaryStuff true

/-- The code cache is cleared only while no frame waits to go on in a block or in the thunk, and
after a block that left the SSE rounding mode. -/
def EventOk (s : Nested) : Event → Prop
  | .recompiler e _ =>
    s.trace.clears L e = true → s.fsrmSse = true ∧ ∀ f ∈ s.frames, f = .dispatcher
  | _ => True

variable {L} {s t : Nested}

/-- What the history adds to the safety of a state. -/
structure Sound (L : Layout) (s : Nested) : Prop where
  jit : s.trace.jit.Sound L
  recorded : s.trace.Recorded L
  linked : s.trace.Linked
  frames : ∀ f, .block f ∈ s.frames → s.Kept f
  thunks : ∀ c link, .thunk c link ∈ s.frames → s.Reaches (.thunk c link)
  necessaryStuff : s.necessaryStuff = Rounding.emitNecessaryStuff true

theorem sound_initial (code : ℕ → HostInsn) : Sound L (initial L code) :=
  ⟨Jit.sound_initial code, Traced.recorded_initial code, Traced.linked_initial code,
    by simp [initial], by simp [initial], rfl⟩

theorem Sound.safe (h : Sound L s) : Safe s where
  frames := h.frames
  thunks := fun c link hf ↦
    ⟨(h.thunks c link hf).1,
      fun site hsite ↦ h.linked.sites site ((h.thunks c link hf).2.2 site hsite)⟩
  pending := fun rip link hlink ↦ h.linked.sites link (h.linked.pending rip link hlink)
  address := fun _ hne ↦ h.recorded.exists_copy hne
  necessaryStuff := h.necessaryStuff

/-- Frames below survive what only adds code. -/
theorem Kept.grows {f : Suspended} (h : s.Kept f) (hrecorded : s.trace.Recorded L)
    (hgrows : s.trace.Grows t.trace) : t.Kept f := by
  obtain ⟨hmem, hcode⟩ := h
  refine ⟨hgrows.copies _ hmem, fun x h₁ h₂ hsites hpatched ↦ ?_⟩
  have hold := (hrecorded.bounds _ hmem).2.2
  rw [hgrows.code x (by omega) hsites hpatched]
  refine hcode x h₁ h₂ ?_ ?_
  · rintro ⟨site, hsite, hx⟩
    exact hsites ⟨site, hgrows.sites hsite, hx⟩
  · rintro ⟨a, ha, hx⟩
    exact hpatched ⟨a, hgrows.patched ha, hx⟩

/-- Fewer frames are no harder to keep. -/
theorem Sound.frames_subset (h : Sound L s) {frames : List Frame}
    (hsub : ∀ f ∈ frames, f ∈ s.frames) :
    Sound L { s with frames := frames } :=
  ⟨h.jit, h.recorded, h.linked, fun f hf ↦ h.frames f (hsub _ hf),
    fun c link hf ↦ h.thunks c link (hsub _ hf), h.necessaryStuff⟩

theorem Sound.recompiler (h : Sound L s) {e : TracedEvent} {leaves : Bool} {trace : Traced}
    (hok : EventOk L s (.recompiler e leaves)) (hstep : s.trace.Step L e trace) :
    Sound L (s.after L e leaves trace) := by
  have hrecorded := h.recorded.step h.jit hstep
  have hlinked := h.linked.step h.jit h.recorded hstep
  have hjit : trace.jit.Sound L := by
    obtain ⟨j, hj, rfl⟩ := hstep
    rw [Traced.jit_record]
    exact h.jit.step hj
  by_cases hclear : s.trace.clears L e = true
  · obtain ⟨hflag, hnone⟩ := hok hclear
    refine ⟨hjit, hrecorded, hlinked, fun f hf ↦ ?_, fun c link hf ↦ ?_, ?_⟩
    · cases hnone _ hf
    · cases hnone _ hf
    · rw [after, if_pos hclear, hflag]
  · have hgrows := Traced.grows_of_step h.linked h.jit h.recorded hstep (by simpa using hclear)
    refine ⟨hjit, hrecorded, hlinked, fun f hf ↦ (h.frames f hf).grows h.recorded hgrows,
      fun c link hf ↦ ?_, ?_⟩
    · obtain ⟨hc, hpatched, hlink⟩ := h.thunks c link hf
      exact ⟨hgrows.copies c hc, hgrows.patched hpatched, fun site hsite ↦
        hgrows.sites (hlink site hsite)⟩
    · rw [after, if_neg hclear]
      exact h.necessaryStuff

/-- A signal adds a frame whose code is the code that is there. -/
theorem Sound.signal (h : Sound L s) {place : Place} (hreaches : s.Reaches place) :
    Sound L { s with frames := s.suspend place :: s.frames } := by
  refine ⟨h.jit, h.recorded, h.linked, fun f hf ↦ ?_, fun c link hf ↦ ?_, h.necessaryStuff⟩
  · rcases List.mem_cons.mp hf with hf | hf
    · cases place with
      | block c pc =>
        obtain rfl := Frame.block.inj hf
        exact ⟨hreaches.1, fun _ _ _ _ _ ↦ rfl⟩
      | _ => cases hf
    · exact h.frames f hf
  · rcases List.mem_cons.mp hf with hf | hf
    · cases place with
      | thunk d link' =>
        obtain ⟨rfl, rfl⟩ := Frame.thunk.inj hf
        exact hreaches
      | _ => cases hf
    · exact h.thunks c link hf

/-- A frame that goes on. What the thunk has in its registers is still there. -/
theorem Sound.sigreturn (h : Sound L s) {f : Frame} {rest : List Frame}
    (hframes : s.frames = f :: rest)
    (hstep : Resumes L { s with frames := rest } f t) : Sound L t := by
  have hrest : Sound L { s with frames := rest } := h.frames_subset fun g hg ↦ by
    rw [hframes]
    exact List.mem_cons_of_mem _ hg
  cases f with
  | dispatcher =>
    obtain rfl := hstep
    exact hrest
  | block f =>
    obtain rfl := hstep
    exact hrest
  | thunk c link =>
    obtain ⟨r', hr, rfl⟩ := hstep
    obtain ⟨-, hpatched, hlink⟩ := h.thunks c link (by rw [hframes]; exact List.mem_cons_self)
    have hthunk : s.trace.Step L (.thunk c.start link) { s.trace with jit.tables := r' } :=
      ⟨{ s.trace.jit with tables := r' }, ⟨hpatched, hlink, r', hr, rfl⟩, rfl⟩
    have hok : EventOk L { s with frames := rest } (.recompiler (.thunk c.start link) s.fsrmSse) :=
      fun hclear ↦ by cases hclear
    exact hrest.recompiler hok hthunk

theorem Sound.step {e : Event} (h : Sound L s) (hstep : Guarded (EventOk L) (Step L) s e t) :
    Sound L t := by
  obtain ⟨hok, hstep⟩ := hstep
  cases e with
  | recompiler e leaves =>
    obtain ⟨trace, htrace, rfl⟩ := hstep
    exact h.recompiler hok htrace
  | signal place =>
    obtain ⟨hreaches, rfl⟩ := hstep
    exact h.signal hreaches
  | sigreturn =>
    obtain ⟨f, rest, hframes, hresumes⟩ := hstep
    exact h.sigreturn hframes hresumes

/-- **Clearing under suspended frames.** Along every run in which the code cache is only cleared
while no frame waits to go on in a block or in the thunk, and after a block that left the SSE
rounding mode, the code that frames go on in is kept, the recorded addresses are those of blocks
that are in the buffer, and the dispatcher stays what it was. -/
theorem safe_of_run {code : ℕ → HostInsn} {events : List Event}
    (hrun : Run (Guarded (EventOk L) (Step L)) (initial L code) events s) : Safe s :=
  (hrun.invariant (sound_initial code) fun _ _ _ h hstep ↦ h.step hstep).safe

/-! ## A handler that fills the code cache -/

open Traced in
/-- The law is not empty: a block is compiled and interrupted, and its code is kept. -/
theorem safe_interruptedOnce :
    ∃ s : Nested, .block ⟨firstCopy, 0x10000408, compiledOnce.jit.tables.code⟩ ∈
        s.frames ∧ Safe s := by
  have hcompile : Guarded (EventOk Jit.sampleLayout) (Step Jit.sampleLayout)
      (initial Jit.sampleLayout fun _ ↦ .nop) (.recompiler (.compile 0x1000 twoInsns) true) _ :=
    ⟨fun _ ↦ ⟨rfl, by simp [initial]⟩, compiledOnce, step_compiledOnce, rfl⟩
  have hsignal : Guarded (EventOk Jit.sampleLayout) (Step Jit.sampleLayout)
      ((initial Jit.sampleLayout fun _ ↦ .nop).after Jit.sampleLayout
        (.compile 0x1000 twoInsns) true
        compiledOnce) (.signal (.block firstCopy 0x10000408)) _ :=
    ⟨trivial, ⟨mem_compiledOnce, by decide, by decide⟩, rfl⟩
  exact ⟨_, List.mem_cons_self, safe_of_run (Run.cons hcompile (Run.single hsignal))⟩

end Nested

namespace Recompiler

variable {L : Layout} {r : Recompiler}

/-- A long piece of straight code. -/
def straight (n : ℕ) : List Item := List.replicate n (.insn 0) ++ [.dispatch]

theorem exists_emit (insn : HostInsn) (hspace : r.cursor + 4 ≤ L.codeCache + codeCacheSize) :
    ∃ r', r.emit L insn = some r' ∧ r'.cursor = r.cursor + 4 := by
  rw [emit, if_pos hspace]
  exact ⟨_, rfl, rfl⟩

theorem exists_emitItems_replicate (n : ℕ) (hspace : r.cursor + 4 * n ≤
    L.codeCache + codeCacheSize) :
    ∃ r', r.emitItems L (List.replicate n (.insn 0)) = some r' := by
  induction n generalizing r with
  | zero => exact ⟨r, rfl⟩
  | succ n ih =>
    obtain ⟨r₁, h₁, hcursor⟩ := exists_emit (.other 0) (r := r) (L := L) (by omega)
    obtain ⟨r', hr'⟩ := ih (r := r₁) (by omega)
    refine ⟨r', ?_⟩
    rw [List.replicate_succ, emitItems, List.foldlM_cons, emitItem, h₁]
    exact hr'

theorem byteSize_replicate (n : ℕ) : byteSize (List.replicate n (.insn 0)) = 4 * n := by
  induction n with
  | zero => rfl
  | succ n ih =>
    rw [List.replicate_succ, byteSize_cons, ih, Item.size]
    omega

theorem exists_backToDispatcher (hspace : r.cursor + 8 ≤ L.codeCache + codeCacheSize)
    (hreach : isValid2GBImm (offsetTo L.compileNextHandler r.cursor)) :
    ∃ r', r.backToDispatcher L = some r' := by
  obtain ⟨r₁, h₁, hcursor⟩ := exists_emit
    (.auipc .t6 (hi20 (offsetTo L.compileNextHandler r.cursor))) (r := r) (L := L) (by omega)
  obtain ⟨r₂, h₂, -⟩ := exists_emit
    (.jalr .x0 (lo12 (offsetTo L.compileNextHandler r.cursor)) .t6) (r := r₁) (L := L) (by omega)
  rw [backToDispatcher]
  split
  · exact ⟨r₂, Option.bind_eq_some_iff.mpr ⟨r₁, h₁, h₂⟩⟩
  · next hfar => exact absurd hreach hfar

/-- The code cache is small enough to jump back from. -/
theorem isValid2GBImm_offsetTo {target address : ℕ} (hlt : target < address)
    (hle : address ≤ target + 2 ^ 31) (hword : address < 2 ^ 64) :
    isValid2GBImm (offsetTo target address) := by
  have htarget : target < 2 ^ 64 := hlt.trans hword
  have hnat : (offsetTo target address).toNat = 2 ^ 64 - (address - target) := by
    rw [offsetTo, BitVec.toNat_sub, BitVec.toNat_ofNat, BitVec.toNat_ofNat,
      Nat.mod_eq_of_lt htarget, Nat.mod_eq_of_lt hword]
    omega
  have hint : (offsetTo target address).toInt =
      (2 ^ 64 - (address - target) : ℕ) - (2 ^ 64 : ℤ) := by
    rw [BitVec.toInt_eq_toNat_cond, hnat, if_neg (by omega)]
    norm_cast
  constructor <;> rw [hint] <;> omega

theorem exists_emitItems_straight {n : ℕ}
    (hspace : r.cursor + 4 * n + 8 ≤ L.codeCache + codeCacheSize)
    (hreach : isValid2GBImm (offsetTo L.compileNextHandler (r.cursor + 4 * n))) :
    ∃ r', r.emitItems L (straight n) = some r' := by
  obtain ⟨r₁, h₁⟩ := exists_emitItems_replicate (L := L) (r := r) n (by omega)
  obtain ⟨-, hcursor, -⟩ := of_emitItems h₁ (by omega)
  rw [byteSize_replicate] at hcursor
  rw [← hcursor] at hspace hreach
  obtain ⟨r₂, h₂⟩ := exists_backToDispatcher hspace hreach
  refine ⟨r₂, ?_⟩
  have h₁' : (List.replicate n (Item.insn 0)).foldlM (fun r item ↦ r.emitItem L item) r = some r₁ :=
    h₁
  rw [straight, emitItems, List.foldlM_append, h₁']
  simp [emitItem, h₂]

theorem linkSites_straight (start n : ℕ) : linkSites start (straight n) = [] := by
  induction n generalizing start with
  | zero => rfl
  | succ n ih => exact ih _

theorem exists_expirePendingLinks {rip : ℕ} (h : (r.blockMetadata rip).pendingLinks = []) :
    ∃ r', r.expirePendingLinks L rip = some r' := by
  rw [expirePendingLinks, h]
  split
  · exact ⟨_, rfl⟩
  · exact ⟨_, rfl⟩

/-- Straight code that fits is compiled, if nothing waits for it. -/
theorem exists_compileAt_straight {rip n guestEnd : ℕ}
    (hspace : r.cursor + 4 * n + 8 ≤ L.codeCache + codeCacheSize)
    (hreach : isValid2GBImm (offsetTo L.compileNextHandler (r.cursor + 4 * n)))
    (hpending : (r.blockMetadata rip).pendingLinks = []) :
    ∃ r', r.compileAt L rip ⟨straight n, guestEnd⟩ = some r' := by
  set r₁ := r.modifyBlock rip fun m ↦ { m with address := r.cursor, guestAddress := rip } with hr₁
  obtain ⟨r₂, h₂⟩ : ∃ r₂, r₁.emitItems L (straight n) = some r₂ :=
    exists_emitItems_straight hspace hreach
  obtain ⟨hframe, hcursor, -⟩ := of_emitItems h₂ (show r.cursor ≤ _ by omega)
  have hsize : byteSize (straight n) = 4 * n + 8 := by
    rw [straight, byteSize_append, byteSize_replicate]
    rfl
  have hpending₂ : (r₂.blockMetadata rip).pendingLinks = [] := by
    refine List.eq_nil_iff_forall_not_mem.mpr fun link hlink ↦ ?_
    rcases hframe.pendingLinks rip link hlink with hold | ⟨-, hnew⟩
    · rw [hr₁, modifyBlock_self] at hold
      simp [hpending] at hold
    · simp [linkSites_straight] at hnew
  have hend : r.cursor + 8 ≤ r₂.cursor := by
    have hstart : r₁.cursor = r.cursor := rfl
    omega
  have hcompile : r.compileAt L rip ⟨straight n, guestEnd⟩ = (r₂.modifyBlock rip fun m ↦
      { m with guestAddressEnd := guestEnd, addressEnd := r₂.cursor }).finishBlock L rip := by
    rw [compileAt]
    dsimp only
    rw [← hr₁, h₂]
    exact if_pos hend
  rw [hcompile, finishBlock]
  refine exists_expirePendingLinks ?_
  have hpending₃ : ((r₂.modifyBlock rip fun m ↦ { m with
      guestAddressEnd := guestEnd, addressEnd :=
        r₂.cursor }).blockMetadata rip).pendingLinks = [] := by
    rw [modifyBlock_self]
    exact hpending₂
  split <;> exact hpending₃

end Recompiler

namespace Nested

open Traced

/-- A block of straight code. -/
def straightBlock (rip n : ℕ) : Translation := ⟨[⟨rip, straight n⟩], rip + 1⟩

theorem sequence_straightBlock (rip n : ℕ) :
    (straightBlock rip n).sequence = ⟨straight n, rip + 1⟩ := by
  simp [Translation.sequence, straightBlock]

theorem byteSize_straight (n : ℕ) : byteSize (straight n) = 4 * n + 8 := by
  rw [straight, byteSize_append, byteSize_replicate]
  rfl

/-- In an empty buffer a block of straight code is compiled if it fits. -/
theorem exists_step_straight {s : Traced} {code : ℕ → HostInsn}
    (hs : s.space Jit.sampleLayout = Traced.initial Jit.sampleLayout code)
    (hsound : s.jit.Sound Jit.sampleLayout) (rip n : ℕ) (hn : 4 * n < 0x4000000 - 0x408) :
    ∃ t : Traced, s.Step Jit.sampleLayout (.compile rip (straightBlock rip n)) t ∧
      t.copies = [⟨rip, 0x10000400, 0x10000400 + 4 * n + 8, (straightBlock rip n).insns⟩] ∧
      t.jit.tables.cursor = 0x10000400 + 4 * n + 8 := by
  have hwrap : wrapRip Jit.sampleLayout rip = rip := by simp [wrapRip, Jit.sampleLayout]
  have hjit : s.jit.space Jit.sampleLayout = Jit.initial Jit.sampleLayout code := by
    rw [← space_jit, hs]
    rfl
  have hreach : isValid2GBImm (offsetTo Jit.sampleLayout.compileNextHandler
      (0x10000400 + 4 * n)) :=
    isValid2GBImm_offsetTo (show 0x10000100 < _ by omega) (show _ ≤ 0x10000100 + 2 ^ 31 by omega)
      (by omega)
  obtain ⟨r', hr'⟩ :
      ∃ r', s.jit.tables.compile Jit.sampleLayout rip (straightBlock rip n).sequence =
      some r' := by
    rw [Recompiler.compile, ← Jit.space_tables, hjit, hwrap, sequence_straightBlock]
    refine exists_compileAt_straight ?_ hreach rfl
    change 0x10000400 + 4 * n + 8 ≤ 0x10000000 + 64 * 1024 * 1024
    omega
  have hcompiled := (Jit.of_compile hsound hr').1
  have hcursor : r'.cursor = 0x10000400 + 4 * n + 8 := by
    rw [hcompiled.cursor, hjit, sequence_straightBlock, byteSize_straight]
    rfl
  refine ⟨_, ⟨_, ⟨r', hr', rfl⟩, rfl⟩, ?_, hcursor⟩
  simp only [record, Traced.compiled, hs, hwrap, Jit.compiled]
  rw [hcursor]
  rfl

/-- Without the condition the law fails: a block is interrupted, the handler needs one more block,
the code cache is cleared for it, and the code that the frame would go on in is gone. -/
theorem not_safe_straightBlock : ¬∀ (L : Layout) (code : ℕ → HostInsn) (events : List Event)
    (s : Nested), Run (Step L) (initial L code) events s → Safe s := by
  intro hall
  obtain ⟨n, hn⟩ : ∃ n, n = 16752000 := ⟨_, rfl⟩
  -- the first block leaves less than 100000 bytes
  have hblank : blankTrace.space Jit.sampleLayout = blankTrace :=
    space_of_not_full (by decide)
  have hsound : blankTrace.jit.Sound Jit.sampleLayout := Jit.sound_initial _
  obtain ⟨t, hstep, hcopies, hcursor⟩ :=
    exists_step_straight hblank hsound 0x1000 n (by omega)
  have hfull : t.space Jit.sampleLayout = Traced.initial Jit.sampleLayout t.jit.tables.code := by
    refine if_pos ?_
    rw [hcursor]
    change 64 * 1024 * 1024 - (0x10000400 + 4 * n + 8 - 0x10000000) < 100000
    omega
  have hsound' : t.jit.Sound Jit.sampleLayout := by
    obtain ⟨j, hj, rfl⟩ := hstep
    rw [jit_record]
    exact hsound.step hj
  -- the handler's block takes its place
  obtain ⟨u, hstep', hcopies', -⟩ :=
    exists_step_straight hfull hsound' 0x4000 1 (by omega)
  set c : Copy :=
    ⟨0x1000, 0x10000400, 0x10000400 + 4 * n + 8, (straightBlock 0x1000 n).insns⟩ with hc
  set s₁ := (initial Jit.sampleLayout fun _ ↦ .nop).after Jit.sampleLayout
    (.compile 0x1000 (straightBlock 0x1000 n)) true t
  have h₁ : Step Jit.sampleLayout (initial Jit.sampleLayout fun _ ↦ .nop)
      (.recompiler (.compile 0x1000 (straightBlock 0x1000 n)) true) s₁ := ⟨t, hstep, rfl⟩
  have h₂ : Step Jit.sampleLayout s₁ (.signal (.block c 0x10000400))
      { s₁ with frames := [.block ⟨c, 0x10000400, t.jit.tables.code⟩] } :=
    ⟨⟨hcopies ▸ List.mem_cons_self, le_rfl, by simp only [hc]; omega⟩, rfl⟩
  have h₃ : Step Jit.sampleLayout { s₁ with frames := [.block ⟨c, 0x10000400, t.jit.tables.code⟩] }
      (.recompiler (.compile 0x4000 (straightBlock 0x4000 1)) true) _ := ⟨u, hstep', rfl⟩
  have hsafe := hall _ _ _ _ (Run.cons h₁ (Run.cons h₂ (Run.single h₃)))
  obtain ⟨hmem, -⟩ := hsafe.frames _ List.mem_cons_self
  have hmem' : c ∈ u.copies := hmem
  rw [hcopies', List.mem_singleton] at hmem'
  have hrip : 0x1000 = 0x4000 := congrArg Copy.rip hmem'
  omega

end Nested

end Felix86
