import Felix86.V2.BlockLiveness

/-!
# Copies of blocks

A guest block can be in the code buffer several times: once it has been invalidated it is compiled
again behind everything else, and all copies share one `BlockMetadata`. Here the history of the
recompiler is a list of copies, in the order of their addresses, and the tables are functions of it:
`host_pc_map` has one entry for each copy, a block's `instruction_spans` are those of its copies one
after the other, and its addresses are those of its last copy unless the thunk has set the start to
zero.
-/

namespace Felix86

namespace Recompiler

variable {L : Layout} {r r' : Recompiler}

/-! ## The address cache is left alone -/

theorem addressCache_emit {insn : HostInsn} (h : r.emit L insn = some r') :
    r'.addressCache = r.addressCache := by
  unfold emit at h
  split at h
  · obtain rfl := Option.some.inj h
    rfl
  · cases h

theorem addressCache_emit_pair {first second : HostInsn}
    (h : ((r.emit L first).bind fun r ↦ r.emit L second) = some r') :
    r'.addressCache = r.addressCache := by
  obtain ⟨r₁, h₁, h₂⟩ := Option.bind_eq_some_iff.mp h
  exact (addressCache_emit h₂).trans (addressCache_emit h₁)

theorem addressCache_backToDispatcher (h : r.backToDispatcher L = some r') :
    r'.addressCache = r.addressCache := by
  unfold backToDispatcher at h
  dsimp only at h
  split at h
  · exact addressCache_emit_pair h
  · cases h

theorem addressCache_jumpTo {target : ℕ} (h : r.jumpTo L target = some r') :
    r'.addressCache = r.addressCache := by
  unfold jumpTo at h
  dsimp only at h
  split at h
  · exact addressCache_emit_pair h
  · split at h
    · exact addressCache_emit_pair h
    · cases h

theorem addressCache_jumpAndLink {rip : ℕ} (h : r.jumpAndLink L rip = some r') :
    r'.addressCache = r.addressCache := by
  unfold jumpAndLink at h
  split at h
  · exact addressCache_backToDispatcher h
  · split at h
    · exact addressCache_jumpTo h
    · obtain ⟨r₁, h₁, h₂⟩ := Option.bind_eq_some_iff.mp h
      obtain rfl := Option.some.inj h₂
      have hkeep := addressCache_backToDispatcher h₁
      exact hkeep

theorem addressCache_relink {rip link : ℕ} (h : r.relink L rip link = some r') :
    r'.addressCache = r.addressCache := by
  obtain ⟨r₁, h₁, h₂⟩ := Option.bind_eq_some_iff.mp h
  obtain rfl := Option.some.inj h₂
  have hkeep := addressCache_jumpAndLink h₁
  exact hkeep

theorem addressCache_expirePendingLinks {rip : ℕ} (h : r.expirePendingLinks L rip = some r') :
    r'.addressCache = r.addressCache := by
  unfold expirePendingLinks at h
  split at h
  · obtain rfl := Option.some.inj h
    rfl
  · obtain ⟨r₁, h₁, h₂⟩ := Option.bind_eq_some_iff.mp h
    obtain rfl := Option.some.inj h₂
    refine foldlM_invariant h₁ (I := fun s ↦ s.addressCache = r.addressCache) rfl ?_
    intro link _ s t hs hst
    exact (addressCache_relink hst).trans hs

theorem addressCache_emitItems {items : List Item} (h : r.emitItems L items = some r') :
    r'.addressCache = r.addressCache := by
  refine foldlM_invariant h (I := fun s ↦ s.addressCache = r.addressCache) rfl ?_
  intro item _ s t hs hst
  refine Eq.trans ?_ hs
  cases item with
  | insn word => exact addressCache_emit hst
  | link rip => exact addressCache_jumpAndLink hst
  | dispatch => exact addressCache_backToDispatcher hst

/-! ## Where a block is recorded -/

/-- The entries that compiling a block changes in the tables. -/
structure Registered (L : Layout) (r r' : Recompiler) (rip : ℕ) (guestEnd : ℕ) : Prop where
  hostPcMap : r'.hostPcMap = insertKey (r'.cursor - 1) rip r.hostPcMap
  addressCache : r'.addressCache = if L.addressCache then
    Function.update r.addressCache (rip % 2 ^ addressCacheBits) ⟨r.cursor, rip⟩ else r.addressCache
  address_self : (r'.blockMetadata rip).address = r.cursor
  addressEnd_self : (r'.blockMetadata rip).addressEnd = r'.cursor
  guestAddress_self : (r'.blockMetadata rip).guestAddress = rip
  guestAddressEnd_self : (r'.blockMetadata rip).guestAddressEnd = guestEnd
  address : ∀ rip' ≠ rip, (r'.blockMetadata rip').address = (r.blockMetadata rip').address
  addressEnd : ∀ rip' ≠ rip, (r'.blockMetadata rip').addressEnd = (r.blockMetadata rip').addressEnd
  guestAddress : ∀ rip' ≠ rip,
    (r'.blockMetadata rip').guestAddress = (r.blockMetadata rip').guestAddress

theorem registered_of_compileAt {rip : ℕ} {seq : Sequence} (h : r.compileAt L rip seq = some r')
    (hspace : r.cursor ≤ L.codeCache + codeCacheSize) : Registered L r r' rip seq.guestEnd := by
  obtain ⟨r₂, h₂, h₃⟩ := Option.bind_eq_some_iff.mp h
  set r₁ := r.modifyBlock rip fun m ↦ { m with address := r.cursor, guestAddress := rip } with hr₁
  obtain ⟨hframe, -, -⟩ := of_emitItems h₂ hspace
  have hkeep := addressCache_emitItems h₂
  have hcache₂ : r₂.addressCache = r.addressCache := hkeep
  dsimp only at h₃
  split at h₃
  · set r₃ := r₂.modifyBlock rip fun m ↦
      { m with guestAddressEnd := seq.guestEnd, addressEnd := r₂.cursor } with hr₃
    -- the block's own entry, as `finishBlock` sees it
    have haddress₃ : (r₃.blockMetadata rip).address = r.cursor := by
      rw [hr₃, modifyBlock_self]
      exact (hframe.address rip).trans (by rw [hr₁, modifyBlock_self])
    have hguest₃ : (r₃.blockMetadata rip).guestAddress = rip := by
      rw [hr₃, modifyBlock_self]
      exact (hframe.guestAddress rip).trans (by rw [hr₁, modifyBlock_self])
    have hend₃ : (r₃.blockMetadata rip).addressEnd = r₂.cursor := by rw [hr₃, modifyBlock_self]
    have hguestEnd₃ : (r₃.blockMetadata rip).guestAddressEnd = seq.guestEnd := by
      rw [hr₃, modifyBlock_self]
    unfold finishBlock at h₃
    dsimp only at h₃
    rw [haddress₃, hguest₃, hend₃] at h₃
    set r₄ : Recompiler := { r₃ with hostPcMap := insertKey (r₂.cursor - 1) rip r₃.hostPcMap }
    set r₅ := r₄.registerPages rip
    set r₆ := if L.addressCache then r₅.setCacheEntry rip ⟨r.cursor, rip⟩ else r₅ with hr₆
    have hmeta₆ : r₆.blockMetadata = r₃.blockMetadata := by
      rw [hr₆]
      split <;> rfl
    have hpc₆ : r₆.hostPcMap = insertKey (r₂.cursor - 1) rip r₂.hostPcMap := by
      rw [hr₆]
      split <;> rfl
    have hcursor₆ : r₆.cursor = r₂.cursor := by
      rw [hr₆]
      split <;> rfl
    obtain ⟨hframe', hcursor'⟩ := of_expirePendingLinks h₃
    have hcursor : r'.cursor = r₂.cursor := hcursor'.trans hcursor₆
    -- other blocks keep their entries
    have hother (rip' : ℕ) (hne : rip' ≠ rip) : r₃.blockMetadata rip' = r₂.blockMetadata rip' ∧
        r₁.blockMetadata rip' = r.blockMetadata rip' :=
      ⟨modifyBlock_of_ne hne, modifyBlock_of_ne hne⟩
    refine ⟨?_, ?_, ?_, ?_, ?_, ?_, fun rip' hne ↦ ?_, fun rip' hne ↦ ?_, fun rip' hne ↦ ?_⟩
    · rw [hframe'.hostPcMap, hpc₆, hframe.hostPcMap, hcursor]
      rfl
    · rw [addressCache_expirePendingLinks h₃, hr₆]
      split
      · exact congrArg (Function.update · _ _) hcache₂
      · exact hcache₂
    · rw [hframe'.address, hmeta₆, haddress₃]
    · rw [hframe'.addressEnd, hmeta₆, hend₃, hcursor]
    · rw [hframe'.guestAddress, hmeta₆, hguest₃]
    · rw [hframe'.guestAddressEnd, hmeta₆, hguestEnd₃]
    · rw [hframe'.address, hmeta₆, (hother rip' hne).1, hframe.address, (hother rip' hne).2]
    · rw [hframe'.addressEnd, hmeta₆, (hother rip' hne).1, hframe.addressEnd, (hother rip' hne).2]
    · rw [hframe'.guestAddress, hmeta₆, (hother rip' hne).1, hframe.guestAddress,
        (hother rip' hne).2]
  · cases h₃

/-- Invalidating a range leaves the lookup tables alone. -/
theorem maps_of_invalidateRange {start stop : ℕ} (h : r.invalidateRange L start stop = some r') :
    r'.hostPcMap = r.hostPcMap ∧ r'.addressCache = r.addressCache := by
  obtain ⟨r₁, h₁, h₂⟩ := Option.bind_eq_some_iff.mp h
  obtain rfl := Option.some.inj h₂
  refine foldlM_invariant h₁ (I := fun s ↦ s.hostPcMap = r.hostPcMap ∧
    s.addressCache = r.addressCache) ⟨rfl, rfl⟩ ?_
  intro rip _ s t hs hst
  unfold invalidateBlock at hst
  dsimp only at hst
  split at hst
  · cases hst
  · obtain rfl := Option.some.inj hst
    exact hs

/-- The tables after the thunk's callback: it works on the block that the lookup finds, whose
address may become zero and whose cache entry is emptied. -/
structure Unregistered (L : Layout) (r r' : Recompiler) (rip : ℕ) : Prop where
  hostPcMap : r'.hostPcMap = r.hostPcMap
  addressCache : r'.addressCache = if L.addressCache then
    Function.update r.addressCache ((r.blockMetadata rip).guestAddress % 2 ^ addressCacheBits)
      ⟨0, 0⟩
    else r.addressCache
  address_self : (r'.blockMetadata rip).address = (r.blockMetadata rip).address ∨
    (r'.blockMetadata rip).address = 0
  address : ∀ rip' ≠ rip, (r'.blockMetadata rip').address = (r.blockMetadata rip').address
  addressEnd : ∀ rip', (r'.blockMetadata rip').addressEnd = (r.blockMetadata rip').addressEnd
  guestAddress : ∀ rip', (r'.blockMetadata rip').guestAddress = (r.blockMetadata rip').guestAddress

theorem unregistered_of_invalidateAt {addressOfBlock linkedBlock : ℕ}
    (h : r.invalidateAt L addressOfBlock linkedBlock = some r') :
    ∃ key rip, lowerBound addressOfBlock r.hostPcMap = some (key, rip) ∧
        Unregistered L r r' rip := by
  obtain ⟨⟨key, rip⟩, hlower, h⟩ := Option.bind_eq_some_iff.mp h
  refine ⟨key, rip, hlower, ?_⟩
  dsimp only at h
  set m := r.blockMetadata rip with hm
  set r₁ := if m.address ≤ addressOfBlock ∧ addressOfBlock ≤ m.addressEnd then
      r.modifyBlock rip fun m ↦ { m with address := 0 } else r with hr₁
  set r₂ := if L.addressCache then r₁.setCacheEntry m.guestAddress ⟨0, 0⟩ else r₁ with hr₂
  have hmaps₁ : r₁.hostPcMap = r.hostPcMap ∧ r₁.addressCache = r.addressCache := by
    rw [hr₁]
    split <;> exact ⟨rfl, rfl⟩
  have hmeta₁ (rip' : ℕ) : (r₁.blockMetadata rip').addressEnd = (r.blockMetadata rip').addressEnd ∧
      (r₁.blockMetadata rip').guestAddress = (r.blockMetadata rip').guestAddress := by
    rw [hr₁]
    split
    · by_cases hrip : rip' = rip
      · rw [hrip, modifyBlock_self]
        exact ⟨rfl, rfl⟩
      · rw [modifyBlock_of_ne hrip]
        exact ⟨rfl, rfl⟩
    · exact ⟨rfl, rfl⟩
  have hself : (r₁.blockMetadata rip).address = (r.blockMetadata rip).address ∨
      (r₁.blockMetadata rip).address = 0 := by
    rw [hr₁]
    split
    · exact Or.inr (by rw [modifyBlock_self])
    · exact Or.inl rfl
  have hother (rip' : ℕ) (hne : rip' ≠ rip) : r₁.blockMetadata rip' = r.blockMetadata rip' := by
    rw [hr₁]
    split
    · exact modifyBlock_of_ne hne
    · rfl
  have hmeta₂ : r₂.blockMetadata = r₁.blockMetadata := by
    rw [hr₂]
    split <;> rfl
  have hpc₂ : r₂.hostPcMap = r.hostPcMap := by
    rw [hr₂]
    split <;> exact hmaps₁.1
  have hcache₂ : r₂.addressCache = if L.addressCache then
      Function.update r.addressCache (m.guestAddress % 2 ^ addressCacheBits) ⟨0, 0⟩
      else r.addressCache := by
    rw [hr₂]
    split
    · exact congrArg (Function.update · _ _) hmaps₁.2
    · exact hmaps₁.2
  have hr₂' : Unregistered L r r₂ rip := by
    refine ⟨hpc₂, hcache₂, ?_, fun rip' hne ↦ ?_, fun rip' ↦ ?_, fun rip' ↦ ?_⟩ <;> rw [hmeta₂]
    · exact hself
    · rw [hother rip' hne]
    · exact (hmeta₁ rip').1
    · exact (hmeta₁ rip').2
  split at h
  · obtain rfl := Option.some.inj h
    exact hr₂'
  · split at h
    · obtain ⟨hframe, -⟩ := of_relink h
      refine ⟨hframe.hostPcMap.trans hr₂'.hostPcMap,
        (addressCache_relink h).trans hr₂'.addressCache, ?_, fun rip' hne ↦ ?_, fun rip' ↦ ?_,
        fun rip' ↦ ?_⟩
      · rw [hframe.address]
        exact hr₂'.address_self
      · rw [hframe.address, hr₂'.address rip' hne]
      · rw [hframe.addressEnd, hr₂'.addressEnd]
      · rw [hframe.guestAddress, hr₂'.guestAddress]
    · cases h

end Recompiler

open Recompiler

/-! ## The history -/

/-- What the handler of one guest instruction emits. -/
structure InsnCode where
  rip : ℕ
  items : List Item
deriving DecidableEq, Repr

/-- A block with its instructions apart. -/
structure Translation where
  insns : List InsnCode
  guestEnd : ℕ
deriving DecidableEq, Repr

/-- The block as the tables see it. -/
def Translation.sequence (b : Translation) : Sequence :=
  ⟨b.insns.flatMap InsnCode.items, b.guestEnd⟩

/-- The `instruction_spans` that compiling the instructions from `start` on appends. -/
def spansFrom (start : ℕ) : List InsnCode → List (ℕ × ℕ)
  | [] => []
  | x :: rest => (x.rip, start) :: spansFrom (start + byteSize x.items) rest

/-- The loop of `compileSequence`: a span is pushed, then the instruction is emitted. -/
def emitInsns (L : Layout) (insns : List InsnCode) (p : Recompiler × List (ℕ × ℕ)) :
    Option (Recompiler × List (ℕ × ℕ)) :=
  insns.foldlM (fun p x ↦ (p.1.emitItems L x.items).map fun r ↦ (r, p.2 ++ [(x.rip, p.1.cursor)])) p

theorem byteSize_append (l l' : List Item) : byteSize (l ++ l') = byteSize l + byteSize l' := by
  simp [byteSize]

/-- The loop emits what the sequence says and pushes the spans. -/
theorem emitInsns_eq {L : Layout} {insns : List InsnCode} {r r' : Recompiler}
    (spans : List (ℕ × ℕ)) (hspace : r.cursor ≤ L.codeCache + codeCacheSize)
    (h : r.emitItems L (insns.flatMap InsnCode.items) = some r') :
    emitInsns L insns (r, spans) = some (r', spans ++ spansFrom r.cursor insns) := by
  induction insns generalizing r spans with
  | nil =>
    obtain rfl := Option.some.inj h
    simp [emitInsns, spansFrom]
  | cons x insns ih =>
    rw [List.flatMap_cons, emitItems, List.foldlM_append] at h
    obtain ⟨r₁, h₁, h₂⟩ := Option.bind_eq_some_iff.mp h
    have h₁' : r.emitItems L x.items = some r₁ := h₁
    obtain ⟨-, hcursor, hspace₁⟩ := of_emitItems h₁' hspace
    have hrest := ih (spans ++ [(x.rip, r.cursor)]) hspace₁ h₂
    have hspans : spans ++ spansFrom r.cursor (x :: insns) =
        spans ++ [(x.rip, r.cursor)] ++ spansFrom r₁.cursor insns := by
      rw [spansFrom, hcursor]
      simp
    rw [hspans, emitInsns, List.foldlM_cons, h₁', Option.map_some]
    exact hrest

/-- The last element with a property. -/
theorem exists_last {α : Type*} {l : List α} {p : α → Prop} {a : α} (ha : a ∈ l) (hp : p a) :
    ∃ pre d post, l = pre ++ d :: post ∧ p d ∧ ∀ b ∈ post, ¬p b := by
  classical
  induction l using List.reverseRecOn with
  | nil => cases ha
  | append_singleton l b ih =>
    by_cases hb : p b
    · exact ⟨l, b, [], rfl, hb, by simp⟩
    · have hmem : a ∈ l := by
        rcases List.mem_append.mp ha with hmem | hmem
        · exact hmem
        · obtain rfl := List.mem_singleton.mp hmem
          exact absurd hp hb
      obtain ⟨pre, d, post, rfl, hd, hpost⟩ := ih hmem
      refine ⟨pre, d, post ++ [b], by simp, hd, ?_⟩
      intro x hx
      rcases List.mem_append.mp hx with hx | hx
      · exact hpost x hx
      · obtain rfl := List.mem_singleton.mp hx
        exact hb

/-- One translation of a block in the code buffer. -/
structure Copy where
  rip : ℕ
  start : ℕ
  stop : ℕ
  insns : List InsnCode
deriving DecidableEq, Repr

/-- The recompiler with its spans, and the copies since the code cache was last cleared. -/
structure Traced where
  jit : Jit
  spans : ℕ → List (ℕ × ℕ)
  copies : List Copy

/-- What happens to a recompiler. -/
inductive TracedEvent
  | compile (rip : ℕ) (b : Translation)
  | dispatch (rip : ℕ) (b : Translation)
  | invalidateRange (start stop : ℕ)
  | thunk (block : ℕ) (link : Option ℕ)
  | clearCodeCache

/-- What it is for the tables. -/
def TracedEvent.event : TracedEvent → Jit.Event
  | .compile rip b => .compile rip b.sequence
  | .dispatch rip b => .dispatch rip b.sequence
  | .invalidateRange start stop => .invalidateRange start stop
  | .thunk block link => .thunk block link
  | .clearCodeCache => .clearCodeCache

instance (L : Layout) (s : Jit) (rip : ℕ) : Decidable (s.Hit L rip) :=
  inferInstanceAs (Decidable ((_ ∧ _) ∨ _))

namespace Traced

variable (L : Layout)

def initial (code : ℕ → HostInsn) : Traced := ⟨Jit.initial L code, fun _ ↦ [], []⟩

/-- The state in which `compile` starts to emit. -/
def space (s : Traced) : Traced :=
  if codeCacheSize - (s.jit.tables.cursor - L.codeCache) < 100000 then
    initial L s.jit.tables.code
  else s

theorem space_jit (s : Traced) : (s.space L).jit = s.jit.space L := by
  unfold space Jit.space
  split <;> rfl

/-- The history after a block was compiled. -/
def compiled (s : Traced) (rip : ℕ) (b : Translation) (j : Jit) : Traced where
  jit := j
  spans := Function.update s.spans rip (s.spans rip ++ spansFrom s.jit.tables.cursor b.insns)
  copies := s.copies ++ [⟨rip, s.jit.tables.cursor, j.tables.cursor, b.insns⟩]

/-- The history after an event that leaves the tables `j`. -/
def record (s : Traced) (j : Jit) : TracedEvent → Traced
  | .compile rip b => (s.space L).compiled (wrapRip L rip) b j
  | .dispatch rip b =>
    if s.jit.Hit L rip then { s with jit := j } else (s.space L).compiled (wrapRip L rip) b j
  | .clearCodeCache => ⟨j, fun _ ↦ [], []⟩
  | _ => { s with jit := j }

def Step (s : Traced) (e : TracedEvent) (t : Traced) : Prop :=
  ∃ j, s.jit.Step L e.event j ∧ t = s.record L j e

/-- The tables as functions of the history. -/
structure Recorded (s : Traced) : Prop where
  sorted : s.copies.Pairwise fun c c' ↦ c.stop ≤ c'.start
  bounds : ∀ c ∈ s.copies, L.startOfCodeCache ≤ c.start ∧ c.start + 8 ≤ c.stop ∧
    c.stop ≤ s.jit.tables.cursor
  size : ∀ c ∈ s.copies, c.stop = c.start + byteSize (c.insns.flatMap InsnCode.items)
  blocks : ∀ c ∈ s.copies, (c.start, c.stop) ∈ s.jit.blocks
  hostPcMap : s.jit.tables.hostPcMap = s.copies.map fun c ↦ (c.stop - 1, c.rip)
  spans : ∀ rip, s.spans rip =
    (s.copies.filter (·.rip = rip)).flatMap fun c ↦ spansFrom c.start c.insns
  last : ∀ pre c post, s.copies = pre ++ c :: post → (∀ c' ∈ post, c'.rip ≠ c.rip) →
    (s.jit.tables.blockMetadata c.rip).addressEnd = c.stop ∧
      (s.jit.tables.blockMetadata c.rip).guestAddress = c.rip ∧
      ((s.jit.tables.blockMetadata c.rip).address = c.start ∨
        (s.jit.tables.blockMetadata c.rip).address = 0)
  absent : ∀ rip, (∀ c ∈ s.copies, c.rip ≠ rip) → (s.jit.tables.blockMetadata rip).address = 0

variable {L} {s t : Traced}

theorem recorded_initial (code : ℕ → HostInsn) : Recorded L (initial L code) := by
  refine ⟨.nil, by simp [initial], by simp [initial], by simp [initial], rfl, fun _ ↦ rfl, ?_,
    fun _ _ ↦ rfl⟩
  intro pre c post h
  simp [initial] at h

theorem Recorded.space (h : Recorded L s) : Recorded L (s.space L) := by
  unfold Traced.space
  split
  · exact recorded_initial _
  · exact h

/-- A key above all others goes to the end. -/
theorem insertKey_of_lt {key rip : ℕ} {map : List (ℕ × ℕ)} (h : ∀ p ∈ map, p.1 < key) :
    insertKey key rip map = map ++ [(key, rip)] := by
  induction map with
  | nil => rfl
  | cons p map ih =>
    have hp := h p List.mem_cons_self
    simp only [insertKey]
    rw [if_neg (by omega), if_neg (by omega), ih fun q hq ↦ h q (List.mem_cons_of_mem _ hq)]
    rfl

/-- A split of a list with one more element at the end: the split point is that element or the old
list is split. -/
theorem append_singleton_split {α : Type*} {l pre post : List α} {a c : α}
    (h : l ++ [a] = pre ++ c :: post) :
    (pre = l ∧ c = a ∧ post = []) ∨ ∃ post', post = post' ++ [a] ∧ l = pre ++ c :: post' := by
  induction post using List.reverseRecOn with
  | nil =>
    obtain ⟨h₁, h₂⟩ := List.append_inj' h rfl
    exact Or.inl ⟨h₁.symm, (List.singleton_inj.mp h₂).symm, rfl⟩
  | append_singleton post' b =>
    have h' : l ++ [a] = (pre ++ c :: post') ++ [b] := by rw [h]; simp
    obtain ⟨h₁, h₂⟩ := List.append_inj' h' rfl
    exact Or.inr ⟨post', by rw [List.singleton_inj.mp h₂], h₁⟩

theorem Recorded.compiled (h : Recorded L s) {rip : ℕ} {b : Translation} {r' : Recompiler}
    (hc : Compiled L s.jit.tables r' rip b.sequence.items)
    (hr : Registered L s.jit.tables r' rip b.guestEnd)
    (hstart : L.startOfCodeCache ≤ s.jit.tables.cursor) :
    Recorded L (s.compiled rip b (s.jit.compiled L b.sequence r')) := by
  have hlen := hc.eight_le
  have hbounds := h.bounds
  refine ⟨?_, ?_, ?_, ?_, ?_, ?_, ?_, ?_⟩
  · refine List.pairwise_append.mpr ⟨h.sorted, List.pairwise_singleton _ _, ?_⟩
    intro c hcm c' hc'
    obtain rfl := List.mem_singleton.mp hc'
    exact (hbounds c hcm).2.2
  · intro c hcm
    rcases List.mem_append.mp hcm with hcm | hcm
    · obtain ⟨h₁, h₂, h₃⟩ := hbounds c hcm
      exact ⟨h₁, h₂, h₃.trans (show s.jit.tables.cursor ≤ r'.cursor by omega)⟩
    · obtain rfl := List.mem_singleton.mp hcm
      exact ⟨hstart, hlen, le_rfl⟩
  · intro c hcm
    rcases List.mem_append.mp hcm with hcm | hcm
    · exact h.size c hcm
    · obtain rfl := List.mem_singleton.mp hcm
      exact hc.cursor
  · intro c hcm
    rcases List.mem_append.mp hcm with hcm | hcm
    · exact Set.mem_insert_of_mem _ (h.blocks c hcm)
    · obtain rfl := List.mem_singleton.mp hcm
      exact Set.mem_insert _ _
  · have hkeys : ∀ p ∈ s.jit.tables.hostPcMap, p.1 < r'.cursor - 1 := by
      rw [h.hostPcMap]
      intro p hp
      obtain ⟨c, hcm, rfl⟩ := List.mem_map.mp hp
      have hb := hbounds c hcm
      dsimp only
      omega
    have hmap := hr.hostPcMap
    rw [insertKey_of_lt hkeys, h.hostPcMap] at hmap
    simp only [Traced.compiled, List.map_append, List.map_cons, List.map_nil]
    exact hmap
  · intro rip'
    simp only [Traced.compiled, List.filter_append, List.flatMap_append]
    by_cases hrip : rip' = rip
    · subst hrip
      rw [Function.update_self, h.spans]
      simp
    · rw [Function.update_of_ne hrip, h.spans]
      simp [Ne.symm hrip]
  · intro pre c post hsplit hlast
    rcases append_singleton_split hsplit with ⟨-, rfl, -⟩ | ⟨post', rfl, hold⟩
    · exact ⟨hr.addressEnd_self, hr.guestAddress_self, Or.inl hr.address_self⟩
    · have hne : c.rip ≠ rip := (hlast _ (List.mem_append_right _ List.mem_cons_self)).symm
      have hprev := h.last pre c post' hold fun c' hc' ↦ hlast c' (List.mem_append_left _ hc')
      simp only [Traced.compiled, Jit.compiled]
      rw [hr.addressEnd _ hne, hr.guestAddress _ hne, hr.address _ hne]
      exact hprev
  · intro rip' habsent
    have hne : rip' ≠ rip := (habsent _ (List.mem_append_right _ List.mem_cons_self)).symm
    simp only [Traced.compiled, Jit.compiled]
    rw [hr.address _ hne]
    exact h.absent rip' fun c hcm ↦ habsent c (List.mem_append_left _ hcm)

/-- A change of the tables that keeps the maps and sets no address but to zero. -/
theorem Recorded.of_tables (h : Recorded L s) {j : Jit} (hblocks : j.blocks = s.jit.blocks)
    (hcursor : j.tables.cursor = s.jit.tables.cursor)
    (hmap : j.tables.hostPcMap = s.jit.tables.hostPcMap)
    (hend : ∀ rip, (j.tables.blockMetadata rip).addressEnd =
      (s.jit.tables.blockMetadata rip).addressEnd)
    (hguest : ∀ rip, (j.tables.blockMetadata rip).guestAddress =
      (s.jit.tables.blockMetadata rip).guestAddress)
    (haddress : ∀ rip, (j.tables.blockMetadata rip).address =
      (s.jit.tables.blockMetadata rip).address ∨ (j.tables.blockMetadata rip).address = 0) :
    Recorded L { s with jit := j } := by
  refine ⟨h.sorted, ?_, h.size, ?_, hmap.trans h.hostPcMap, h.spans, ?_, ?_⟩
  · simp only [hcursor]
    exact h.bounds
  · simp only [hblocks]
    exact h.blocks
  · intro pre c post hsplit hlast
    obtain ⟨h₁, h₂, h₃⟩ := h.last pre c post hsplit hlast
    simp only [hend, hguest]
    refine ⟨h₁, h₂, ?_⟩
    rcases haddress c.rip with heq | hzero
    · rwa [heq]
    · exact Or.inr hzero
  · intro rip habsent
    rcases haddress rip with heq | hzero
    · exact heq.trans (h.absent rip habsent)
    · exact hzero

theorem registered_of_compile {j : Jit} (h : j.Sound L) {rip : ℕ} {seq : Sequence} {r' : Recompiler}
    (hc : j.tables.compile L rip seq = some r') :
    Registered L (j.space L).tables r' (wrapRip L rip) seq.guestEnd := by
  rw [compile, ← Jit.space_tables] at hc
  exact registered_of_compileAt hc h.space.cursor_le

theorem Recorded.compile (h : Recorded L s) (hsound : s.jit.Sound L) {rip : ℕ} {b : Translation}
    {r' : Recompiler} (hc : s.jit.tables.compile L rip b.sequence = some r') :
    Recorded L ((s.space L).compiled (wrapRip L rip) b
      ((s.jit.space L).compiled L b.sequence r')) := by
  have hcompiled := (Jit.of_compile hsound hc).1
  have hregistered := registered_of_compile hsound hc
  have hstart := hsound.space.start_le
  rw [← space_jit] at hcompiled hregistered hstart ⊢
  exact h.space.compiled hcompiled hregistered hstart

theorem Recorded.step {e : TracedEvent} (h : Recorded L s) (hsound : s.jit.Sound L)
    (hstep : s.Step L e t) : Recorded L t := by
  obtain ⟨j, hj, rfl⟩ := hstep
  cases e with
  | compile rip b =>
    obtain ⟨r', hc, rfl⟩ := hj
    exact h.compile hsound hc
  | dispatch rip b =>
    obtain ⟨host, r', hd, ⟨hhit, rfl⟩ | ⟨hmiss, rfl⟩⟩ := hj
    · obtain ⟨hframe, hcursor⟩ := (Jit.of_getCompiledBlock hd).1 hhit
      simp only [record, if_pos hhit]
      exact h.of_tables rfl hcursor hframe.hostPcMap hframe.addressEnd hframe.guestAddress
        fun rip' ↦ Or.inl (hframe.address rip')
    · simp only [record, if_neg hmiss]
      exact h.compile hsound ((Jit.of_getCompiledBlock hd).2 hmiss)
  | invalidateRange start stop =>
    obtain ⟨r', hr, rfl⟩ := hj
    obtain ⟨hmeta, hcursor, -⟩ := of_invalidateRange hr
    refine h.of_tables rfl hcursor (maps_of_invalidateRange hr).1 ?_ ?_ ?_ <;> intro rip <;>
      rw [hmeta]
    exact Or.inl rfl
  | thunk block link =>
    obtain ⟨-, -, r', hr, rfl⟩ := hj
    obtain ⟨hcursor, -, haddress, -⟩ := of_invalidateAt hr
    obtain ⟨key, rip₀, -, hun⟩ := unregistered_of_invalidateAt hr
    exact h.of_tables rfl hcursor hun.hostPcMap hun.addressEnd hun.guestAddress
      fun rip ↦ (haddress rip).imp_right And.right
  | clearCodeCache =>
    obtain rfl := hj
    exact recorded_initial _

/-- The copy that the address of a block is the start of. -/
theorem Recorded.exists_copy (h : Recorded L s) {rip : ℕ}
    (hne : (s.jit.tables.blockMetadata rip).address ≠ 0) :
    ∃ c ∈ s.copies, c.rip = rip ∧ c.start = (s.jit.tables.blockMetadata rip).address := by
  obtain ⟨c, hc, hrip⟩ : ∃ c ∈ s.copies, c.rip = rip := by
    by_contra hall
    push Not at hall
    exact hne (h.absent rip hall)
  obtain ⟨pre, d, post, hsplit, rfl, hpost⟩ := exists_last (p := fun d : Copy ↦ d.rip = rip) hc hrip
  obtain ⟨-, -, haddress⟩ := h.last pre d post hsplit hpost
  exact ⟨d, by simp [hsplit], rfl, (haddress.resolve_right hne).symm⟩

/-- Copies do not overlap. -/
theorem Recorded.apart (h : Recorded L s) {c c' : Copy} (hc : c ∈ s.copies) (hc' : c' ∈ s.copies) :
    c = c' ∨ c.stop ≤ c'.start ∨ c'.stop ≤ c.start := by
  exact List.Pairwise.forall_of_forall_of_flip (R := fun c c' : Copy ↦
    c = c' ∨ c.stop ≤ c'.start ∨ c'.stop ≤ c.start) (fun _ _ ↦ Or.inl rfl)
    (h.sorted.imp fun hle ↦ Or.inr (Or.inl hle)) (h.sorted.imp fun hle ↦ Or.inr (Or.inr hle)) hc hc'

theorem Recorded.start_pos (h : Recorded L s) {c : Copy} (hc : c ∈ s.copies) : c.start ≠ 0 := by
  have h₁ := L.codeCache_pos
  have h₂ := L.codeCache_le_thunk
  have h₃ := L.thunk_lt_start
  have h₄ := (h.bounds c hc).1
  omega

/-- The metadata that has the start of a copy has its end too. -/
theorem Recorded.addressEnd_eq (h : Recorded L s) {c : Copy} (hc : c ∈ s.copies)
    (haddress : (s.jit.tables.blockMetadata c.rip).address = c.start) :
    (s.jit.tables.blockMetadata c.rip).addressEnd = c.stop := by
  obtain ⟨pre, d, post, hsplit, hrip, hpost⟩ :=
    exists_last (p := fun d : Copy ↦ d.rip = c.rip) hc rfl
  have hd : d ∈ s.copies := by simp [hsplit]
  obtain ⟨hend, -, hstart⟩ := h.last pre d post hsplit (hrip.symm ▸ hpost)
  rw [hrip] at hend hstart
  rw [haddress] at hstart
  have heq : c.start = d.start := hstart.resolve_right (h.start_pos hc)
  have h₁ := (h.bounds c hc).2.1
  have h₂ := (h.bounds d hd).2.1
  rcases h.apart hc hd with rfl | hle | hle
  · exact hend
  · omega
  · omega

theorem jit_record (j : Jit) (e : TracedEvent) : (s.record L j e).jit = j := by
  cases e with
  | dispatch rip b =>
    rw [record]
    split <;> rfl
  | _ => rfl

/-- In every run the tables are what the history says. -/
theorem recorded_of_run {code : ℕ → HostInsn} {events : List TracedEvent}
    (hrun : Run (Step L) (initial L code) events s) : s.jit.Sound L ∧ Recorded L s := by
  refine hrun.invariant (I := fun s ↦ s.jit.Sound L ∧ Recorded L s)
    ⟨Jit.sound_initial code, recorded_initial code⟩ ?_
  rintro u e v ⟨hsound, hrecorded⟩ hstep
  refine ⟨?_, hrecorded.step hsound hstep⟩
  obtain ⟨j, hj, rfl⟩ := hstep
  rw [jit_record]
  exact hsound.step hj

/-- Every run of the tables has a history. -/
theorem exists_of_run {code : ℕ → HostInsn} {events : List TracedEvent} {j : Jit}
    (hrun : Run (Jit.Step L) (Jit.initial L code) (events.map TracedEvent.event) j) :
    ∃ t : Traced, Run (Step L) (initial L code) events t ∧ t.jit = j := by
  generalize hevents : events.map TracedEvent.event = jevents at hrun
  induction hrun generalizing events with
  | nil =>
    rw [List.map_eq_nil_iff] at hevents
    exact ⟨_, hevents ▸ Run.nil _, rfl⟩
  | snoc hrun hlast ih =>
    obtain ⟨pre, last, rfl, rfl, hlast'⟩ := List.map_eq_append_iff.mp hevents
    obtain ⟨e, rfl, rfl⟩ := List.map_eq_singleton_iff.mp hlast'
    obtain ⟨t, ht, rfl⟩ := ih rfl
    exact ⟨_, ht.snoc ⟨_, hlast, rfl⟩, jit_record _ _⟩

/-- Two instructions at `0x1000` and `0x1002`. -/
def twoInsns : Translation := ⟨[⟨0x1000, [.insn 0, .insn 0]⟩, ⟨0x1002, [.dispatch]⟩], 0x1004⟩

def blankTrace : Traced := initial Jit.sampleLayout fun _ ↦ .nop

theorem isSome_compile_twoInsns : (blankTrace.jit.tables.compile Jit.sampleLayout 0x1000
    twoInsns.sequence).isSome := by decide

/-- The block has been compiled. -/
def compiledOnce : Traced := blankTrace.record Jit.sampleLayout
  ((blankTrace.jit.space Jit.sampleLayout).compiled Jit.sampleLayout twoInsns.sequence
    ((blankTrace.jit.tables.compile Jit.sampleLayout 0x1000 twoInsns.sequence).get
      isSome_compile_twoInsns)) (.compile 0x1000 twoInsns)

theorem step_compiledOnce :
    Step Jit.sampleLayout blankTrace (.compile 0x1000 twoInsns) compiledOnce :=
  ⟨_, ⟨_, (Option.some_get _).symm, rfl⟩, rfl⟩

/-- The code of the first compilation. -/
def firstCopy : Copy := ⟨0x1000, 0x10000400, 0x10000410, twoInsns.insns⟩

theorem mem_compiledOnce : firstCopy ∈ compiledOnce.copies := by decide

end Traced

end Felix86
