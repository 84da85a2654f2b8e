import Felix86.V2.CompiledCopies

/-!
# From a host address to a guest address

A signal that arrives in translated code is reported at a guest address: `get_block_metadata` looks
up the block that the host address belongs to, and `get_actual_rip` the instruction. The first
compares the address with the range in the block's metadata, which is the range of its last copy. So
the code of an older copy, which may still be running, is found as long as the block has not been
compiled again; `ripAt_iff` says that this is all that can go wrong.
-/

namespace Felix86

open Recompiler

/-- `get_block_metadata`, which ends the process if the address is not in the range of the block. -/
def Recompiler.getBlockMetadata (r : Recompiler) (hostPc : ℕ) : Option ℕ := do
  let (_, rip) ← lowerBound hostPc r.hostPcMap
  let m := r.blockMetadata rip
  if m.address ≤ hostPc ∧ hostPc ≤ m.addressEnd then some rip else none

/-- The loop of `get_actual_rip`, from the value of `ret_value`. -/
def actualRipLoop (hostPc : ℕ) (ret : ℕ) : List (ℕ × ℕ) → Option ℕ
  | [] => if ret ≠ 0 then some ret else none
  | span :: rest =>
    if span.2 ≤ hostPc then actualRipLoop hostPc span.1 rest
    else if ret ≠ 0 then some ret else none

/-- `get_actual_rip`. -/
def getActualRip (spans : List (ℕ × ℕ)) (hostPc : ℕ) : Option ℕ := actualRipLoop hostPc 0 spans

/-- The instruction whose code `pc` is in, by its guest address. -/
def Copy.Emits (c : Copy) (pc rip : ℕ) : Prop :=
  ∃ pre x post, c.insns = pre ++ x :: post ∧ x.rip = rip ∧
    c.start + byteSize (pre.flatMap InsnCode.items) ≤ pc ∧
    pc < c.start + byteSize (pre.flatMap InsnCode.items) + byteSize x.items

/-! ## The instruction -/

/-- Every byte of a copy belongs to an instruction. -/
theorem exists_insn (insns : List InsnCode) {n : ℕ}
    (h : n < byteSize (insns.flatMap InsnCode.items)) :
    ∃ pre x post, insns = pre ++ x :: post ∧ byteSize (pre.flatMap InsnCode.items) ≤ n ∧
      n < byteSize (pre.flatMap InsnCode.items) + byteSize x.items := by
  induction insns generalizing n with
  | nil => simp [byteSize] at h
  | cons x insns ih =>
    rw [List.flatMap_cons, byteSize_append] at h
    by_cases hx : n < byteSize x.items
    · exact ⟨[], x, insns, rfl, by simp [byteSize], by simpa [byteSize] using hx⟩
    · obtain ⟨pre, y, post, rfl, h₁, h₂⟩ := ih (n := n - byteSize x.items) (by omega)
      refine ⟨x :: pre, y, post, rfl, ?_, ?_⟩ <;> rw [List.flatMap_cons, byteSize_append] <;> omega

theorem spansFrom_append (start : ℕ) (l l' : List InsnCode) :
    spansFrom start (l ++ l') =
      spansFrom start l ++ spansFrom (start + byteSize (l.flatMap InsnCode.items)) l' := by
  induction l generalizing start with
  | nil => simp [spansFrom, byteSize]
  | cons x l ih =>
    rw [List.cons_append, spansFrom, spansFrom, ih, List.flatMap_cons, byteSize_append,
      Nat.add_assoc]
    rfl

theorem bounds_of_mem_spansFrom {start : ℕ} {insns : List InsnCode} {span : ℕ × ℕ}
    (h : span ∈ spansFrom start insns) :
    start ≤ span.2 ∧ span.2 ≤ start + byteSize (insns.flatMap InsnCode.items) := by
  induction insns generalizing start with
  | nil => simp [spansFrom] at h
  | cons x insns ih =>
    rw [List.flatMap_cons, byteSize_append]
    rcases List.mem_cons.mp h with rfl | h
    · exact ⟨le_rfl, by omega⟩
    · have hrest := ih h
      omega

theorem actualRipLoop_of_le {hostPc : ℕ} {spans : List (ℕ × ℕ)} (ret : ℕ) (rest : List (ℕ × ℕ))
    (h : ∀ span ∈ spans, span.2 ≤ hostPc) :
    ∃ ret', actualRipLoop hostPc ret (spans ++ rest) = actualRipLoop hostPc ret' rest := by
  induction spans generalizing ret with
  | nil => exact ⟨ret, rfl⟩
  | cons span spans ih =>
    obtain ⟨ret', hret⟩ := ih span.1 fun sp hsp ↦ h sp (List.mem_cons_of_mem _ hsp)
    refine ⟨ret', ?_⟩
    rw [List.cons_append, actualRipLoop, if_pos (h span List.mem_cons_self), hret]

theorem actualRipLoop_of_lt {hostPc ret : ℕ} {spans : List (ℕ × ℕ)}
    (h : ∀ span ∈ spans, hostPc < span.2) :
    actualRipLoop hostPc ret spans = if ret ≠ 0 then some ret else none := by
  cases spans with
  | nil => rfl
  | cons span spans =>
    have hlt := h span List.mem_cons_self
    rw [actualRipLoop, if_neg (by omega)]

namespace Traced

variable {L : Layout} {s : Traced}

/-- The guest address that is reported for a host address. -/
def ripAt (s : Traced) (hostPc : ℕ) : Option ℕ := do
  let rip ← s.jit.tables.getBlockMetadata hostPc
  getActualRip (s.spans rip) hostPc

/-- The lookup finds the copy that has the address. -/
theorem Recorded.lowerBound (h : Recorded L s) {c : Copy} (hc : c ∈ s.copies) {pc : ℕ}
    (h₁ : c.start ≤ pc) (h₂ : pc < c.stop) :
    lowerBound pc s.jit.tables.hostPcMap = some (c.stop - 1, c.rip) := by
  obtain ⟨pre, post, hsplit⟩ := List.append_of_mem hc
  have hbefore : ∀ c' ∈ pre, c'.stop ≤ c.start := by
    have hsorted := h.sorted
    rw [hsplit, List.pairwise_append] at hsorted
    exact fun c' hc' ↦ hsorted.2.2 c' hc' c List.mem_cons_self
  have hpre : (pre.map fun c ↦ (c.stop - 1, c.rip)).find? (fun p ↦ decide (pc ≤ p.1)) = none := by
    refine List.find?_eq_none.mpr fun p hp ↦ ?_
    obtain ⟨c', hc', rfl⟩ := List.mem_map.mp hp
    have hle := hbefore c' hc'
    have hpos := (h.bounds c' (by simp [hsplit, hc'])).2.1
    simp only [decide_eq_true_eq]
    omega
  rw [h.hostPcMap, hsplit, Recompiler.lowerBound, List.map_append, List.find?_append, hpre,
    Option.none_or, List.map_cons, List.find?_cons_of_pos]
  simp only [decide_eq_true_eq]
  omega

/-- The spans of the block lead to the instruction, whichever copy the address is in. -/
theorem Recorded.getActualRip (h : Recorded L s) {c : Copy} (hc : c ∈ s.copies) {pc rip : ℕ}
    (hpc : c.Emits pc rip) :
    getActualRip (s.spans c.rip) pc = if rip ≠ 0 then some rip else none := by
  obtain ⟨front, x, back, hinsns, rfl, h₁, h₂⟩ := hpc
  obtain ⟨pre, post, hsplit⟩ := List.append_of_mem hc
  have hsorted := h.sorted
  rw [hsplit, List.pairwise_append, List.pairwise_cons] at hsorted
  obtain ⟨-, ⟨hafter, -⟩, hbefore⟩ := hsorted
  have hsize := h.size c hc
  rw [hinsns, List.flatMap_append, byteSize_append, List.flatMap_cons, byteSize_append] at hsize
  -- earlier copies end before this one
  have hold : ∀ span ∈ (pre.filter (·.rip = c.rip)).flatMap (fun c ↦ spansFrom c.start c.insns),
      span.2 ≤ pc := by
    intro span hspan
    obtain ⟨c', hc', hmem⟩ := List.mem_flatMap.mp hspan
    have hc'' := (List.mem_filter.mp hc').1
    have hle := hbefore c' hc'' c List.mem_cons_self
    have hb := (bounds_of_mem_spansFrom hmem).2
    have hs := h.size c' (by simp [hsplit, hc''])
    omega
  have hfront : ∀ span ∈ spansFrom c.start front, span.2 ≤ pc := fun span hspan ↦
    (bounds_of_mem_spansFrom hspan).2.trans h₁
  -- what comes behind the instruction lies behind the address
  have hlater : ∀ span ∈ spansFrom
      (c.start + byteSize (front.flatMap InsnCode.items) + byteSize x.items) back ++
      (post.filter (·.rip = c.rip)).flatMap (fun c ↦ spansFrom c.start c.insns), pc < span.2 := by
    intro span hspan
    rcases List.mem_append.mp hspan with hspan | hspan
    · exact h₂.trans_le (bounds_of_mem_spansFrom hspan).1
    · obtain ⟨c', hc', hmem⟩ := List.mem_flatMap.mp hspan
      have hle := hafter c' (List.mem_filter.mp hc').1
      have hb := (bounds_of_mem_spansFrom hmem).1
      omega
  have hspans : s.spans c.rip =
      (pre.filter (·.rip = c.rip)).flatMap (fun c ↦ spansFrom c.start c.insns) ++
        (spansFrom c.start front ++ ((x.rip, c.start + byteSize (front.flatMap InsnCode.items)) ::
          (spansFrom (c.start + byteSize (front.flatMap InsnCode.items) + byteSize x.items) back ++
            (post.filter (·.rip = c.rip)).flatMap fun c ↦ spansFrom c.start c.insns))) := by
    rw [h.spans, hsplit, List.filter_append, List.flatMap_append,
      List.filter_cons_of_pos (by simp), List.flatMap_cons, hinsns, spansFrom_append, spansFrom]
    simp
  rw [Felix86.getActualRip, hspans]
  obtain ⟨ret₁, hret₁⟩ := actualRipLoop_of_le 0 _ hold
  obtain ⟨ret₂, hret₂⟩ := actualRipLoop_of_le ret₁ _ hfront
  rw [hret₁, hret₂, actualRipLoop, if_pos h₁, actualRipLoop_of_lt hlater]

/-- The metadata belongs to the last copy, which is this one or lies behind it. -/
theorem Recorded.exists_last (h : Recorded L s) {c : Copy} (hc : c ∈ s.copies) :
    ∃ d : Copy, (c = d ∨ c.stop ≤ d.start) ∧ c.stop ≤ d.stop ∧
      (s.jit.tables.blockMetadata c.rip).addressEnd = d.stop ∧
      ((s.jit.tables.blockMetadata c.rip).address = d.start ∨
        (s.jit.tables.blockMetadata c.rip).address = 0) := by
  obtain ⟨pre, d, post, hsplit, hrip, hpost⟩ :=
    Felix86.exists_last (p := fun d : Copy ↦ d.rip = c.rip) hc rfl
  obtain ⟨hend, -, haddress⟩ := h.last pre d post hsplit (by rwa [hrip])
  rw [hrip] at hend haddress
  have hsorted := h.sorted
  rw [hsplit, List.pairwise_append] at hsorted
  have hpos := (h.bounds d (by simp [hsplit])).2.1
  have hmem : c ∈ pre ∨ c = d := by
    rw [hsplit, List.mem_append, List.mem_cons] at hc
    rcases hc with hc | hc | hc
    · exact Or.inl hc
    · exact Or.inr hc
    · exact absurd rfl (hpost c hc)
  rcases hmem with hmem | rfl
  · have hle := hsorted.2.2 c hmem d List.mem_cons_self
    exact ⟨d, Or.inr hle, by omega, hend, haddress⟩
  · exact ⟨c, Or.inl rfl, le_rfl, hend, haddress⟩

theorem Recorded.getBlockMetadata_iff (h : Recorded L s) {c : Copy} (hc : c ∈ s.copies) {pc : ℕ}
    (h₁ : c.start ≤ pc) (h₂ : pc < c.stop) :
    s.jit.tables.getBlockMetadata pc = some c.rip ↔
      (s.jit.tables.blockMetadata c.rip).address = 0 ∨
        (s.jit.tables.blockMetadata c.rip).address = c.start := by
  obtain ⟨d, hd, hstop, hend, haddress⟩ := h.exists_last hc
  have hlookup : s.jit.tables.getBlockMetadata pc =
      if (s.jit.tables.blockMetadata c.rip).address ≤ pc ∧
        pc ≤ (s.jit.tables.blockMetadata c.rip).addressEnd then some c.rip else none := by
    rw [Recompiler.getBlockMetadata, h.lowerBound hc h₁ h₂]
    rfl
  rw [hlookup]
  constructor
  · intro hsome
    split at hsome
    · next hrange =>
      rcases haddress with haddress | hzero
      · rcases hd with rfl | hd
        · exact Or.inr haddress
        · omega
      · exact Or.inl hzero
    · cases hsome
  · intro hcopy
    refine if_pos ⟨?_, by omega⟩
    rcases hcopy with hzero | hcopy <;> omega

/-- **The guest address of a host address.** After every run, for every address in a copy of a block
that is still in the buffer: the lookup reports the instruction whose code is there if and only if
the block has no newer copy that is in use, and the instruction is not at address zero. -/
theorem ripAt_iff {code : ℕ → HostInsn} {events : List TracedEvent}
    (hrun : Run (Step L) (initial L code) events s) {c : Copy} (hc : c ∈ s.copies) {pc : ℕ}
    (h₁ : c.start ≤ pc) (h₂ : pc < c.stop) :
    ∃ rip, c.Emits pc rip ∧ (s.ripAt pc = some rip ↔
      rip ≠ 0 ∧ ((s.jit.tables.blockMetadata c.rip).address = 0 ∨
        (s.jit.tables.blockMetadata c.rip).address = c.start)) := by
  have h := (recorded_of_run hrun).2
  have hsize := h.size c hc
  obtain ⟨pre, x, post, hinsns, hle, hlt⟩ :=
    exists_insn c.insns (n := pc - c.start) (by omega)
  have hemits : c.Emits pc x.rip := ⟨pre, x, post, hinsns, rfl, by omega, by omega⟩
  refine ⟨x.rip, hemits, ?_⟩
  have hiff := h.getBlockMetadata_iff hc h₁ h₂
  have hrip := h.getActualRip hc hemits
  constructor
  · intro hsome
    obtain ⟨rip, hblock, hactual⟩ := Option.bind_eq_some_iff.mp hsome
    have hfound := h.lowerBound hc h₁ h₂
    -- the block that is found is the one of this copy
    have hrip' : rip = c.rip := by
      rw [Recompiler.getBlockMetadata, hfound] at hblock
      simp only [Option.bind_eq_bind, Option.bind_some] at hblock
      split at hblock
      · exact (Option.some.inj hblock).symm
      · cases hblock
    subst hrip'
    rw [hrip] at hactual
    refine ⟨?_, hiff.mp hblock⟩
    intro hzero
    rw [hzero] at hactual
    simp at hactual
  · rintro ⟨hne, hcopy⟩
    rw [ripAt, hiff.mpr hcopy]
    simp only [Option.bind_eq_bind, Option.bind_some]
    rw [hrip, if_pos hne]

/-! ## A block that is compiled twice -/

/-- The law is not empty: the second instruction of the block is found. -/
theorem ripAt_compiledOnce : ∃ rip, firstCopy.Emits 0x10000408 rip ∧
    compiledOnce.ripAt 0x10000408 = some rip := by
  have haddress : (compiledOnce.jit.tables.blockMetadata firstCopy.rip).address =
      firstCopy.start := by
    decide
  have h₂ : 0x10000408 < firstCopy.stop := by decide
  obtain ⟨rip, hemits, hiff⟩ :=
    ripAt_iff (Run.single step_compiledOnce) mem_compiledOnce (by decide) h₂
  refine ⟨rip, hemits, hiff.mpr ⟨?_, Or.inr haddress⟩⟩
  obtain ⟨pre, x, post, hinsns, rfl, -⟩ := hemits
  have hx : x ∈ firstCopy.insns := by simp [hinsns]
  have hall : ∀ x ∈ firstCopy.insns, x.rip ≠ 0 := by decide
  exact hall x hx

theorem isSome_invalidate_twoInsns :
    (compiledOnce.jit.tables.invalidateRange Jit.sampleLayout 0x1000 0x2000).isSome := by
  decide

/-- The page of the block has been written, so the first pair of instructions is patched. -/
def invalidatedOnce : Traced := { compiledOnce with
  jit := { compiledOnce.jit with
    tables := (compiledOnce.jit.tables.invalidateRange Jit.sampleLayout 0x1000 0x2000).get
      isSome_invalidate_twoInsns
    patched := compiledOnce.jit.patched ∪
      {a | ∃ rip ∈ compiledOnce.jit.tables.handed 0x1000 0x2000,
        a = (compiledOnce.jit.tables.blockMetadata rip).address} } }

theorem isSome_thunk_twoInsns : (invalidatedOnce.jit.tables.invalidateAt Jit.sampleLayout
    (0x10000400 + 8) (Jit.linkedBlock none)).isSome := by decide

/-- The block was entered once more, which reached the thunk. -/
def unlinkedOnce : Traced := { invalidatedOnce with
  jit := { invalidatedOnce.jit with
    tables := (invalidatedOnce.jit.tables.invalidateAt Jit.sampleLayout (0x10000400 + 8)
      (Jit.linkedBlock none)).get isSome_thunk_twoInsns } }

theorem isSome_recompile_twoInsns : (unlinkedOnce.jit.tables.compile Jit.sampleLayout 0x1000
    twoInsns.sequence).isSome := by decide

/-- The dispatcher has compiled the block again. -/
def compiledTwice : Traced := unlinkedOnce.record Jit.sampleLayout
  ((unlinkedOnce.jit.space Jit.sampleLayout).compiled Jit.sampleLayout twoInsns.sequence
    ((unlinkedOnce.jit.tables.compile Jit.sampleLayout 0x1000 twoInsns.sequence).get
      isSome_recompile_twoInsns)) (.compile 0x1000 twoInsns)

theorem run_compiledTwice : Run (Step Jit.sampleLayout) blankTrace [.compile 0x1000 twoInsns,
    .invalidateRange 0x1000 0x2000, .thunk 0x10000400 none, .compile 0x1000 twoInsns]
    compiledTwice := by
  have hinvalidate : Step Jit.sampleLayout compiledOnce (.invalidateRange 0x1000 0x2000)
      invalidatedOnce :=
    ⟨_, ⟨_, (Option.some_get isSome_invalidate_twoInsns).symm, rfl⟩, rfl⟩
  have hpatched : 0x10000400 ∈ invalidatedOnce.jit.patched :=
    Or.inr ⟨0x1000, by decide, by decide⟩
  have hthunk : Step Jit.sampleLayout invalidatedOnce (.thunk 0x10000400 none) unlinkedOnce :=
    ⟨_, ⟨hpatched, by simp, _, (Option.some_get isSome_thunk_twoInsns).symm, rfl⟩, rfl⟩
  have hcompile : Step Jit.sampleLayout unlinkedOnce (.compile 0x1000 twoInsns) compiledTwice :=
    ⟨_, ⟨_, (Option.some_get isSome_recompile_twoInsns).symm, rfl⟩, rfl⟩
  exact Run.cons step_compiledOnce (Run.cons hinvalidate (Run.cons hthunk (Run.single hcompile)))

/-- Without the condition the law fails: a thread that is still in the first copy when the block has
been compiled again is not found, and the process ends. -/
theorem not_ripAt_compiledTwice : ¬∀ (L : Layout) (code : ℕ → HostInsn) (events : List TracedEvent)
    (s : Traced), Run (Step L) (initial L code) events s → ∀ c ∈ s.copies, ∀ pc, c.start ≤ pc →
      pc < c.stop → ∃ rip, c.Emits pc rip ∧ s.ripAt pc = some rip := by
  intro hall
  have hmem : firstCopy ∈ compiledTwice.copies := by decide
  obtain ⟨rip, -, hrip⟩ := hall _ _ _ _ run_compiledTwice _ hmem 0x10000408 (by decide) (by decide)
  have hnone : compiledTwice.ripAt 0x10000408 = none := by decide
  rw [hnone] at hrip
  cases hrip

end Traced

end Felix86
