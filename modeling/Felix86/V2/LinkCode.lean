import Felix86.V2.AddressCache
import Felix86.V2.SuspendedFrames

/-!
# Where the exits of a block lead

A block leaves through its links and its jumps to the dispatcher. Both are pairs of instructions at
known places; the pair of a link is rewritten whenever its target is compiled or invalidated. This
file says what a pair can be at any time: it goes to the dispatcher, or it is the pair of a link and
goes to the start of a translation of the link's target. `Wired` is that statement for a set of
places, and every operation of the recompiler keeps it, provided the places do not overlap.
-/

namespace Felix86

namespace Recompiler

/-! ## The pairs -/

/-- The pair that `backToDispatcher` emits. -/
def DispatchPair (L : Layout) (code : ℕ → HostInsn) (site : ℕ) : Prop :=
  code site = .auipc .t6 (hi20 (offsetTo L.compileNextHandler site)) ∧
    code (site + 4) = .jalr .x0 (lo12 (offsetTo L.compileNextHandler site)) .t6

/-- The pairs that `jumpTo` emits. -/
def JumpPair (code : ℕ → HostInsn) (site target : ℕ) : Prop :=
  (code site = .nop ∧ code (site + 4) = .jal .t5 (offsetTo target site - 4)) ∨
    (code site = .auipc .t4 (hi20 (offsetTo target site)) ∧
      code (site + 4) = .jalr .t5 (lo12 (offsetTo target site)) .t4)

/-- What the pair at an exit can be. The exit of a link carries the address it links to, and `Start`
says where translations of an address start. -/
def Exit (L : Layout) (Start : ℕ → ℕ → Prop) (code : ℕ → HostInsn) (p : ℕ × Option ℕ) : Prop :=
  DispatchPair L code p.1 ∨
    (L.link ∧ ∃ rip a, p.2 = some rip ∧ Start rip a ∧ JumpPair code p.1 a)

/-- The exits of a block that starts at `start`. -/
def exits (start : ℕ) : List Item → List (ℕ × Option ℕ)
  | [] => []
  | .insn _ :: rest => exits (start + 4) rest
  | .link rip :: rest => (start, some rip) :: exits (start + 8) rest
  | .dispatch :: rest => (start, none) :: exits (start + 8) rest

section Pairs

variable {L : Layout} {Start Start' : ℕ → ℕ → Prop} {code code' : ℕ → HostInsn} {p : ℕ × Option ℕ}

theorem Exit.congr (h : Exit L Start code p) (hcode : ∀ x ∈ pair p.1, code' x = code x) :
    Exit L Start code' p := by
  have hfirst := hcode p.1 ⟨le_rfl, by omega⟩
  have hsecond := hcode (p.1 + 4) ⟨by omega, by omega⟩
  rcases h with h | ⟨hlink, rip, a, hp, hstart, hjump⟩
  · refine Or.inl ?_
    rw [DispatchPair, hfirst, hsecond]
    exact h
  · refine Or.inr ⟨hlink, rip, a, hp, hstart, ?_⟩
    rw [JumpPair, hfirst, hsecond]
    exact hjump

theorem Exit.mono (h : Exit L Start code p) (hStart : ∀ rip a, Start rip a → Start' rip a) :
    Exit L Start' code p := by
  rcases h with h | ⟨hlink, rip, a, hp, hstart, hjump⟩
  · exact Or.inl h
  · exact Or.inr ⟨hlink, rip, a, hp, hStart rip a hstart, hjump⟩

theorem mem_exits_cons {start : ℕ} {item : Item} {items : List Item} :
    p ∈ exits start (item :: items) ↔
      (p.1 = start ∧ ((∃ rip, item = .link rip ∧ p.2 = some rip) ∨
        (item = .dispatch ∧ p.2 = none))) ∨ p ∈ exits (start + item.size) items := by
  obtain ⟨site, kind⟩ := p
  cases item <;> simp [exits, Item.size]

theorem bounds_of_mem_exits {start : ℕ} {items : List Item} (h : p ∈ exits start items) :
    start ≤ p.1 ∧ p.1 + 8 ≤ start + byteSize items := by
  induction items generalizing start with
  | nil => simp [exits] at h
  | cons item items ih =>
    rw [byteSize_cons]
    rcases mem_exits_cons.mp h with ⟨hp, ⟨rip, rfl, -⟩ | ⟨rfl, -⟩⟩ | hrest
    · simp only [Item.size]
      omega
    · simp only [Item.size]
      omega
    · have := ih hrest
      omega

/-- The links of a block are exits. -/
theorem mem_linkSites_iff {start site : ℕ} {items : List Item} :
    site ∈ linkSites start items ↔ ∃ rip, (site, some rip) ∈ exits start items := by
  induction items generalizing start with
  | nil => simp [exits, linkSites]
  | cons item items ih =>
    simp only [mem_linkSites_cons, mem_exits_cons, ih]
    constructor
    · rintro (⟨rfl, rip, rfl⟩ | ⟨rip, hrest⟩)
      · exact ⟨rip, Or.inl ⟨rfl, Or.inl ⟨rip, rfl, rfl⟩⟩⟩
      · exact ⟨rip, Or.inr hrest⟩
    · rintro ⟨rip, ⟨hsite, ⟨rip', rfl, -⟩ | ⟨-, hnone⟩⟩ | hrest⟩
      · exact Or.inl ⟨hsite, rip', rfl⟩
      · cases hnone
      · exact Or.inr ⟨rip, hrest⟩

theorem exits_add (offset start : ℕ) {items : List Item} (h : p ∈ exits (offset + start) items) :
    ∃ q ∈ exits start items, p.1 = offset + q.1 := by
  induction items generalizing start with
  | nil => simp [exits] at h
  | cons item items ih =>
    rcases mem_exits_cons.mp h with ⟨hp, hkind⟩ | hrest
    · exact ⟨(start, p.2), mem_exits_cons.mpr (Or.inl ⟨rfl, hkind⟩), hp⟩
    · rw [Nat.add_assoc] at hrest
      obtain ⟨q, hq, heq⟩ := ih _ hrest
      exact ⟨q, mem_exits_cons.mpr (Or.inr hq), heq⟩

/-- The exits of a block do not overlap. -/
theorem exits_apart {q : ℕ × Option ℕ} {start : ℕ} {items : List Item} (hp : p ∈ exits start items)
    (hq : q ∈ exits start items) : p = q ∨ p.1 + 8 ≤ q.1 ∨ q.1 + 8 ≤ p.1 := by
  induction items generalizing start with
  | nil => simp [exits] at hp
  | cons item items ih =>
    have hsize {p : ℕ × Option ℕ} (hkind : (∃ rip, item = .link rip ∧ p.2 = some rip) ∨
        (item = .dispatch ∧ p.2 = none)) : item.size = 8 := by
      rcases hkind with ⟨rip, rfl, -⟩ | ⟨rfl, -⟩ <;> rfl
    rcases mem_exits_cons.mp hp with ⟨hp₁, hp₂⟩ | hp'
    · rcases mem_exits_cons.mp hq with ⟨hq₁, hq₂⟩ | hq'
      · refine Or.inl (Prod.ext (hp₁.trans hq₁.symm) ?_)
        rcases hp₂ with ⟨rip, rfl, hp₂⟩ | ⟨rfl, hp₂⟩
        · rcases hq₂ with ⟨rip', heq, hq₂⟩ | ⟨heq, -⟩
          · obtain rfl := Item.link.inj heq
            rw [hp₂, hq₂]
          · cases heq
        · rcases hq₂ with ⟨rip', heq, -⟩ | ⟨-, hq₂⟩
          · cases heq
          · rw [hp₂, hq₂]
      · have h₁ := (bounds_of_mem_exits hq').1
        have h₂ := hsize hp₂
        omega
    · rcases mem_exits_cons.mp hq with ⟨hq₁, hq₂⟩ | hq'
      · have h₁ := (bounds_of_mem_exits hp').1
        have h₂ := hsize hq₂
        omega
      · exact ih hp' hq'

theorem even_byteSize (items : List Item) : byteSize items % 2 = 0 := by
  induction items with
  | nil => rfl
  | cons item items ih =>
    have hitem : item.size % 2 = 0 := by cases item <;> simp [Item.size]
    rw [byteSize_cons]
    omega

end Pairs

/-! ## Exits under the operations of the recompiler -/

/-- Exits do not overlap. -/
def ExitsApart (S : Set (ℕ × Option ℕ)) : Prop :=
  ∀ p ∈ S, ∀ q ∈ S, p = q ∨ p.1 + 8 ≤ q.1 ∨ q.1 + 8 ≤ p.1

/-- The exits in `S` have one of their pairs, a link is pending for the address it links to, and the
addresses in the tables are starts. -/
structure Wired (L : Layout) (Start : ℕ → ℕ → Prop) (S : Set (ℕ × Option ℕ)) (r : Recompiler) :
    Prop where
  exit : ∀ p ∈ S, Exit L Start r.code p
  pending : ∀ rip, ∀ link ∈ (r.blockMetadata rip).pendingLinks, (link, some rip) ∈ S
  address : ∀ rip, (r.blockMetadata rip).address ≠ 0 → Start rip (r.blockMetadata rip).address

variable {L : Layout} {Start Start' : ℕ → ℕ → Prop} {S : Set (ℕ × Option ℕ)} {r r' : Recompiler}

theorem ExitsApart.mono {S' : Set (ℕ × Option ℕ)} (h : ExitsApart S) (hS : S' ⊆ S) :
    ExitsApart S' :=
  fun p hp q hq ↦ h p (hS hp) q (hS hq)

theorem Wired.mono (h : Wired L Start S r) (hStart : ∀ rip a, Start rip a → Start' rip a) :
    Wired L Start' S r where
  exit p hp := (h.exit p hp).mono hStart
  pending := h.pending
  address rip hne := hStart _ _ (h.address rip hne)

/-- Operations that leave code, pending links and addresses alone. -/
theorem Wired.congr (h : Wired L Start S r) (hcode : r'.code = r.code)
    (hpending : ∀ rip, (r'.blockMetadata rip).pendingLinks = (r.blockMetadata rip).pendingLinks)
    (haddress : ∀ rip, (r'.blockMetadata rip).address = (r.blockMetadata rip).address ∨
      (r'.blockMetadata rip).address = 0) : Wired L Start S r' where
  exit p hp := by
    rw [hcode]
    exact h.exit p hp
  pending rip link hlink := h.pending rip link (hpending rip ▸ hlink)
  address rip hne := by
    rcases haddress rip with heq | hzero
    · rw [heq] at hne ⊢
      exact h.address rip hne
    · exact absurd hzero hne

theorem code_emit {insn : HostInsn} (h : r.emit L insn = some r') :
    r'.code r.cursor = insn ∧ r'.blockMetadata = r.blockMetadata := by
  rw [emit] at h
  split at h
  · obtain rfl := Option.some.inj h
    exact ⟨Function.update_self .., rfl⟩
  · cases h

theorem code_emit_pair {first second : HostInsn}
    (h : (do let r ← r.emit L first; r.emit L second) = some r') :
    (r'.code r.cursor = first ∧ r'.code (r.cursor + 4) = second) ∧
      r'.blockMetadata = r.blockMetadata := by
  obtain ⟨r₁, h₁, h₂⟩ := Option.bind_eq_some_iff.mp h
  obtain ⟨-, hcursor, -⟩ := of_emit h₁
  obtain ⟨hframe, -, -⟩ := of_emit h₂
  obtain ⟨hcode₁, hmeta₁⟩ := code_emit h₁
  obtain ⟨hcode₂, hmeta₂⟩ := code_emit h₂
  rw [hcursor] at hcode₂
  refine ⟨⟨?_, hcode₂⟩, hmeta₂.trans hmeta₁⟩
  rw [hframe.code r.cursor (by rw [Set.mem_singleton_iff, hcursor]; omega), hcode₁]

theorem code_backToDispatcher (h : r.backToDispatcher L = some r') :
    DispatchPair L r'.code r.cursor ∧ r'.blockMetadata = r.blockMetadata := by
  rw [backToDispatcher] at h
  split at h
  · exact code_emit_pair h
  · cases h

theorem code_jumpTo {target : ℕ} (h : r.jumpTo L target = some r') :
    JumpPair r'.code r.cursor target ∧ r'.blockMetadata = r.blockMetadata := by
  rw [jumpTo] at h
  split at h
  · exact (code_emit_pair h).imp_left Or.inl
  · split at h
    · exact (code_emit_pair h).imp_left Or.inr
    · cases h

/-- A pair written at one exit leaves the pairs of the others. -/
theorem Wired.write {p : ℕ × Option ℕ} (h : Wired L Start S r) (hS : ExitsApart (insert p S))
    (hcode : ∀ x ∉ pair p.1, r'.code x = r.code x) (hp : Exit L Start r'.code p) :
    ∀ q ∈ insert p S, Exit L Start r'.code q := by
  intro q hq
  rcases hS p (Set.mem_insert _ _) q hq with rfl | hapart
  · exact hp
  · have hq' : q ∈ S := hq.resolve_left (by rintro rfl; omega)
    refine (h.exit q hq').congr fun x hx ↦ hcode x fun hx' ↦ ?_
    have h₁ := hx.1
    have h₂ := hx.2
    have h₃ := hx'.1
    have h₄ := hx'.2
    omega

theorem wired_backToDispatcher (h : Wired L Start S r) (hS : ExitsApart (insert (r.cursor, none) S))
    (hj : r.backToDispatcher L = some r') : Wired L Start (insert (r.cursor, none) S) r' := by
  obtain ⟨hpair, hmeta⟩ := code_backToDispatcher hj
  obtain ⟨hframe, -, -⟩ := of_backToDispatcher hj
  refine ⟨h.write hS hframe.code (Or.inl hpair), fun rip link hlink ↦ ?_, fun rip hne ↦ ?_⟩
  · exact Set.mem_insert_of_mem _ (h.pending rip link (hmeta ▸ hlink))
  · rw [hmeta] at hne ⊢
    exact h.address rip hne

theorem wired_jumpAndLink {rip : ℕ} (h : Wired L Start S r)
    (hS : ExitsApart (insert (r.cursor, some rip) S)) (hj : r.jumpAndLink L rip = some r') :
    Wired L Start (insert (r.cursor, some rip) S) r' := by
  obtain ⟨hframe, -, -⟩ := of_jumpAndLink hj
  rw [jumpAndLink] at hj
  have hdispatch {r₁ : Recompiler} (h₁ : r.backToDispatcher L = some r₁) :
      Exit L Start r₁.code (r.cursor, some rip) := Or.inl (code_backToDispatcher h₁).1
  split at hj
  · have hmeta := (code_backToDispatcher hj).2
    refine ⟨h.write hS hframe.code (hdispatch hj), fun rip' link hlink ↦ ?_, fun rip' hne ↦ ?_⟩
    · exact Set.mem_insert_of_mem _ (h.pending rip' link (hmeta ▸ hlink))
    · rw [hmeta] at hne ⊢
      exact h.address rip' hne
  · next hlink =>
    split at hj
    · next hexists =>
      obtain ⟨hpair, hmeta⟩ := code_jumpTo hj
      have hexit : Exit L Start r'.code (r.cursor, some rip) :=
        Or.inr ⟨not_not.mp hlink, rip, _, rfl, h.address rip hexists, hpair⟩
      refine ⟨h.write hS hframe.code hexit, fun rip' link hmem ↦ ?_, fun rip' hne ↦ ?_⟩
      · exact Set.mem_insert_of_mem _ (h.pending rip' link (hmeta ▸ hmem))
      · rw [hmeta] at hne ⊢
        exact h.address rip' hne
    · obtain ⟨r₁, h₁, h₂⟩ := Option.bind_eq_some_iff.mp hj
      obtain rfl := Option.some.inj h₂
      have hmeta := (code_backToDispatcher h₁).2
      have hexit : Exit L Start r₁.code (r.cursor, some rip) := hdispatch h₁
      refine ⟨h.write hS hframe.code hexit, fun rip' link hmem ↦ ?_, fun rip' hne ↦ ?_⟩
      · by_cases hrip : rip' = rip
        · subst hrip
          rw [modifyBlock_self, hmeta] at hmem
          rcases List.mem_append.mp hmem with hold | hnew
          · exact Set.mem_insert_of_mem _ (h.pending rip' link hold)
          · rw [List.mem_singleton.mp hnew]
            exact Set.mem_insert _ _
        · rw [modifyBlock_of_ne hrip, hmeta] at hmem
          exact Set.mem_insert_of_mem _ (h.pending rip' link hmem)
      · rw [hframe.address] at hne ⊢
        exact h.address rip' hne

theorem wired_relink {rip link : ℕ} (h : Wired L Start S r) (hS : ExitsApart S)
    (hmem : (link, some rip) ∈ S) (hj : r.relink L rip link = some r') : Wired L Start S r' := by
  obtain ⟨r₁, h₁, h₂⟩ := Option.bind_eq_some_iff.mp hj
  obtain rfl := Option.some.inj h₂
  have hS' : insert (link, some rip) S = S := Set.insert_eq_of_mem hmem
  have hw : Wired L Start S (r.setCursor link) := ⟨h.exit, h.pending, h.address⟩
  have hw₁ := wired_jumpAndLink hw (show ExitsApart (insert (link, some rip) S) by rwa [hS']) h₁
  rw [show insert ((r.setCursor link).cursor, some rip) S = S from hS'] at hw₁
  exact ⟨hw₁.exit, hw₁.pending, hw₁.address⟩

/-- Expiring links keeps every exit, because the links that are pending for a block link to it. -/
theorem wired_expirePendingLinks {rip : ℕ} (h : Wired L Start S r) (hS : ExitsApart S)
    (hj : r.expirePendingLinks L rip = some r') : Wired L Start S r' := by
  rw [expirePendingLinks] at hj
  split at hj
  · obtain rfl := Option.some.inj hj
    exact h
  · obtain ⟨r₁, h₁, h₂⟩ := Option.bind_eq_some_iff.mp hj
    obtain rfl := Option.some.inj h₂
    have hloop : Wired L Start S r₁ := by
      refine foldlM_invariant h₁ h fun link hlink s t hs hst ↦ ?_
      exact wired_relink hs hS (h.pending rip link hlink) hst
    refine ⟨hloop.exit, fun rip' link hmem ↦ ?_, fun rip' hne ↦ ?_⟩
    · by_cases hrip : rip' = rip
      · rw [hrip, modifyBlock_self] at hmem
        cases hmem
      · rw [modifyBlock_of_ne hrip] at hmem
        exact hloop.pending rip' link hmem
    · by_cases hrip : rip' = rip
      · rw [hrip, modifyBlock_self] at hne ⊢
        exact hloop.address rip hne
      · rw [modifyBlock_of_ne hrip] at hne ⊢
        exact hloop.address rip' hne

theorem wired_emitItem {item : Item} (h : Wired L Start S r)
    (hS : ExitsApart (S ∪ {p | p ∈ exits r.cursor [item]})) (hlt : ∀ p ∈ S, p.1 + 8 ≤ r.cursor)
    (hj : r.emitItem L item = some r') :
    Wired L Start (S ∪ {p | p ∈ exits r.cursor [item]}) r' := by
  cases item with
  | insn word =>
    obtain ⟨hframe, -, -⟩ := of_emit hj
    have hmeta := (code_emit hj).2
    have hempty : {p : ℕ × Option ℕ | p ∈ exits r.cursor [.insn word]} = ∅ := by simp [exits]
    rw [hempty, Set.union_empty]
    refine ⟨fun p hp ↦ (h.exit p hp).congr fun x hx ↦ ?_, fun rip link hlink ↦ ?_, fun rip hne ↦ ?_⟩
    · refine hframe.code x fun heq ↦ ?_
      have h₁ := hlt p hp
      have h₂ := hx.2
      rw [Set.mem_singleton_iff] at heq
      omega
    · exact h.pending rip link (hmeta ▸ hlink)
    · rw [hmeta] at hne ⊢
      exact h.address rip hne
  | link rip =>
    have hset : S ∪ {p | p ∈ exits r.cursor [.link rip]} = insert (r.cursor, some rip) S := by
      simp [exits]
    rw [hset] at hS ⊢
    exact wired_jumpAndLink h hS hj
  | dispatch =>
    have hset : S ∪ {p | p ∈ exits r.cursor [.dispatch]} = insert (r.cursor, none) S := by
      simp [exits]
    rw [hset] at hS ⊢
    exact wired_backToDispatcher h hS hj

theorem exits_cons (start : ℕ) (item : Item) (items : List Item) :
    {p | p ∈ exits start (item :: items)} =
      {p | p ∈ exits start [item]} ∪ {p | p ∈ exits (start + item.size) items} := by
  cases item with
  | insn word => simp [exits, Item.size]
  | link rip =>
    simp only [exits, Item.size]
    ext p
    simp
  | dispatch =>
    simp only [exits, Item.size]
    ext p
    simp

/-- The exits of a block that is emitted behind all others get their pairs. -/
theorem wired_emitItems {items : List Item} (h : Wired L Start S r)
    (hS : ExitsApart (S ∪ {p | p ∈ exits r.cursor items})) (hlt : ∀ p ∈ S, p.1 + 8 ≤ r.cursor)
    (hj : r.emitItems L items = some r') :
    Wired L Start (S ∪ {p | p ∈ exits r.cursor items}) r' := by
  induction items generalizing r S with
  | nil =>
    obtain rfl := Option.some.inj hj
    simpa [exits] using h
  | cons item items ih =>
    rw [emitItems, List.foldlM_cons] at hj
    obtain ⟨r₁, h₁, h₂⟩ := Option.bind_eq_some_iff.mp hj
    obtain ⟨-, hcursor, -⟩ := of_emitItem h₁
    rw [exits_cons, ← Set.union_assoc] at hS ⊢
    rw [← hcursor] at hS ⊢
    have hw₁ := wired_emitItem h (hS.mono Set.subset_union_left) hlt h₁
    refine ih hw₁ hS ?_ h₂
    rintro p (hp | hp)
    · have := hlt p hp
      omega
    · have := bounds_of_mem_exits hp
      simp only [byteSize, List.map_cons, List.map_nil, List.sum_cons, List.sum_nil] at this
      omega

theorem wired_finishBlock {rip : ℕ} (h : Wired L Start S r) (hS : ExitsApart S)
    (hj : r.finishBlock L rip = some r') : Wired L Start S r' := by
  rw [finishBlock] at hj
  refine wired_expirePendingLinks (h.congr ?_ (fun rip' ↦ ?_) (fun rip' ↦ Or.inl ?_)) hS hj
  all_goals split <;> rfl

/-- **Compiling keeps the exits**: those of the new block lead to the dispatcher or to blocks that
exist, the new one included. -/
theorem wired_compileAt {rip : ℕ} {seq : Sequence} (h : Wired L Start S r)
    (hself : Start rip r.cursor) (hS : ExitsApart (S ∪ {p | p ∈ exits r.cursor seq.items}))
    (hlt : ∀ p ∈ S, p.1 + 8 ≤ r.cursor) (hj : r.compileAt L rip seq = some r') :
    Wired L Start (S ∪ {p | p ∈ exits r.cursor seq.items}) r' := by
  obtain ⟨r₂, h₂, h₃⟩ := Option.bind_eq_some_iff.mp hj
  set r₁ := r.modifyBlock rip fun m ↦ { m with address := r.cursor, guestAddress := rip } with hr₁
  have hw₁ : Wired L Start S r₁ := by
    refine ⟨h.exit, fun rip' link hlink ↦ ?_, fun rip' hne ↦ ?_⟩
    · by_cases hrip : rip' = rip
      · rw [hrip, hr₁, modifyBlock_self] at hlink
        exact hrip ▸ h.pending rip link hlink
      · rw [hr₁, modifyBlock_of_ne hrip] at hlink
        exact h.pending rip' link hlink
    · by_cases hrip : rip' = rip
      · rw [hrip, hr₁, modifyBlock_self]
        exact hself
      · rw [hr₁, modifyBlock_of_ne hrip] at hne ⊢
        exact h.address rip' hne
  have hw₂ := wired_emitItems hw₁ hS hlt h₂
  dsimp only at h₃
  split at h₃
  · set r₃ := r₂.modifyBlock rip fun m ↦
      { m with guestAddressEnd := seq.guestEnd, addressEnd := r₂.cursor } with hr₃
    have hmeta₃ (rip' : ℕ) : (r₃.blockMetadata rip').pendingLinks =
        (r₂.blockMetadata rip').pendingLinks ∧
        (r₃.blockMetadata rip').address = (r₂.blockMetadata rip').address := by
      by_cases hrip : rip' = rip
      · rw [hrip, hr₃, modifyBlock_self]
        exact ⟨rfl, rfl⟩
      · rw [hr₃, modifyBlock_of_ne hrip]
        exact ⟨rfl, rfl⟩
    have hw₃ : Wired L Start (S ∪ {p | p ∈ exits r.cursor seq.items}) r₃ :=
      hw₂.congr rfl (fun rip' ↦ (hmeta₃ rip').1) fun rip' ↦ Or.inl (hmeta₃ rip').2
    exact wired_finishBlock hw₃ hS h₃
  · cases h₃

/-- Patching the starts of blocks keeps the exits that lie behind them. -/
theorem wired_invalidateRange {start stop : ℕ} (h : Wired L Start S r)
    (hclear : ∀ p ∈ S, ∀ rip ∈ r.handed start stop,
      (r.blockMetadata rip).address + 8 ≤ p.1 ∨ p.1 + 8 ≤ (r.blockMetadata rip).address)
    (hj : r.invalidateRange L start stop = some r') : Wired L Start S r' := by
  obtain ⟨hmeta, -, -⟩ := of_invalidateRange hj
  refine ⟨fun p hp ↦ (h.exit p hp).congr fun x hx ↦ ?_, ?_, ?_⟩
  · refine code_of_invalidateRange hj fun rip hrip hx' ↦ ?_
    have h₁ := hclear p hp rip hrip
    have h₂ := hx.1
    have h₃ := hx.2
    have h₄ := hx'.1
    have h₅ := hx'.2
    omega
  · rw [hmeta]
    exact h.pending
  · rw [hmeta]
    exact h.address

/-- The thunk's callback keeps the exits if the link it rewrites links to the block it has found. -/
theorem wired_invalidateAt {addressOfBlock linkedBlock : ℕ} (h : Wired L Start S r)
    (hS : ExitsApart S) (hlink : linkedBlock ≠ 0 → ∀ key rip,
      lowerBound addressOfBlock r.hostPcMap = some (key, rip) →
        (linkOf linkedBlock, some (r.blockMetadata rip).guestAddress) ∈ S)
    (hj : r.invalidateAt L addressOfBlock linkedBlock = some r') : Wired L Start S r' := by
  obtain ⟨⟨key, rip⟩, hlower, hj⟩ := Option.bind_eq_some_iff.mp hj
  dsimp only at hj
  set m := r.blockMetadata rip
  set r₁ := if m.address ≤ addressOfBlock ∧ addressOfBlock ≤ m.addressEnd then
      r.modifyBlock rip fun m ↦ { m with address := 0 } else r with hr₁
  set r₂ := if L.addressCache then r₁.setCacheEntry m.guestAddress ⟨0, 0⟩ else r₁ with hr₂
  have hw₁ : Wired L Start S r₁ := by
    rw [hr₁]
    split
    · refine h.congr rfl (fun rip' ↦ ?_) fun rip' ↦ ?_
      · by_cases hrip : rip' = rip
        · rw [hrip, modifyBlock_self]
        · rw [modifyBlock_of_ne hrip]
      · by_cases hrip : rip' = rip
        · exact Or.inr (by rw [hrip, modifyBlock_self])
        · exact Or.inl (by rw [modifyBlock_of_ne hrip])
    · exact h
  have hw₂ : Wired L Start S r₂ := by
    rw [hr₂]
    split
    · exact ⟨hw₁.exit, hw₁.pending, hw₁.address⟩
    · exact hw₁
  split at hj
  · obtain rfl := Option.some.inj hj
    exact hw₂
  · next hne =>
    split at hj
    · exact wired_relink hw₂ hS (hlink hne key rip hlower) hj
    · cases hj

/-! ## Running the pairs -/

section Host

variable {code : ℕ → HostInsn} {h : HostState} {site target : ℕ}

theorem toNat_add_four (hpc : h.pc.toNat = site) (hsite : site + 8 < 2 ^ 63) :
    (h.pc + 4).toNat = site + 4 := by
  rw [BitVec.toNat_add, hpc]
  exact Nat.mod_eq_of_lt (show site + 4 < 2 ^ 64 by omega)

theorem add_offsetTo (hpc : h.pc.toNat = site) :
    h.pc + offsetTo target site = BitVec.ofNat 64 target := by
  have hpc' : h.pc = BitVec.ofNat 64 site := by
    rw [← hpc, BitVec.ofNat_toNat, BitVec.setWidth_eq]
  rw [hpc', offsetTo, BitVec.add_comm, BitVec.sub_add_cancel]

/-- A pair that loads a near address and jumps there, instruction by instruction. -/
theorem step_auipc_jalr {rs rd : HostReg} (hrs : rs ≠ .x0) (hpc : h.pc.toNat = site)
    (hsite : site + 8 < 2 ^ 63) (htarget : target < 2 ^ 63) (heven : target % 2 = 0)
    (hnear : target ≤ site + 2 ^ 30 ∧ site ≤ target + 2 ^ 30)
    (hauipc : code site = .auipc rs (hi20 (offsetTo target site)))
    (hjalr : code (site + 4) = .jalr rd (lo12 (offsetTo target site)) rs) :
    ∃ h₁ h₂, h.step code = some h₁ ∧ h₁.pc.toNat = site + 4 ∧ h₁.step code = some h₂ ∧
      h₂.pc.toNat = target ∧ (∀ q, q ≠ rs → q ≠ rd → h₂.reg q = h.reg q) ∧
      (rd ≠ .x0 → h₂.reg rd = BitVec.ofNat 64 (site + 8)) := by
  have hreach : Reaches (offsetTo target site) := by
    rw [Reaches, offsetTo, BitVec.toNat_sub, BitVec.toNat_ofNat, BitVec.toNat_ofNat]
    omega
  have hsum : h.pc + offsetTo target site = BitVec.ofNat 64 target := add_offsetTo hpc
  have hpc₄ := toNat_add_four hpc hsite
  have hpc₈ : h.pc + 4 + 4 = BitVec.ofNat 64 (site + 8) := by
    apply BitVec.eq_of_toNat_eq
    rw [BitVec.toNat_add, hpc₄, BitVec.toNat_ofNat]
    rfl
  set h₁ : HostState := { h.set rs (h.pc + ((hi20 (offsetTo target site)).setWidth 32 <<<
    12).signExtend 64) with pc := h.pc + 4 } with hh₁
  have hfirst : h.step code = some h₁ := by
    rw [HostState.step, hpc, hauipc]
    rfl
  have hrs₁ : h₁.reg rs + (lo12 (offsetTo target site)).signExtend 64 = BitVec.ofNat 64 target := by
    rw [hh₁]
    simp only [HostState.set, hrs, if_false, Function.update_self]
    rw [BitVec.add_assoc, hi20_add_lo12 hreach, hsum]
  have hmask : BitVec.ofNat 64 target &&& ~~~1#64 = BitVec.ofNat 64 target := by
    refine Jit.and_not_one_of_even ?_
    have hlt : target < 2 ^ 64 := by omega
    rw [BitVec.toNat_ofNat, Nat.mod_eq_of_lt hlt]
    exact heven
  have hsecond :
      h₁.step code = some { h₁.set rd (h₁.pc + 4) with pc := BitVec.ofNat 64 target } := by
    rw [HostState.step, show h₁.pc.toNat = site + 4 from hpc₄, hjalr]
    simp only [HostInsn.exec]
    rw [hrs₁, hmask]
  refine ⟨h₁, _, hfirst, hpc₄, hsecond, ?_, fun q hq hq' ↦ ?_, fun hrd ↦ ?_⟩
  · rw [BitVec.toNat_ofNat, Nat.mod_eq_of_lt (by omega)]
  · have hkeep : h₁.reg q = h.reg q := by
      rw [hh₁]
      simp only [HostState.set, hrs, if_false]
      exact Function.update_of_ne hq _ _
    rw [← hkeep]
    simp only [HostState.set]
    split
    · rfl
    · exact Function.update_of_ne hq' _ _
  · simp only [HostState.set, hrd, if_false, Function.update_self]
    exact hpc₈

/-- The pair of a link to a block that exists, instruction by instruction. -/
theorem step_jumpPair (hpair : JumpPair code site target) (hpc : h.pc.toNat = site)
    (hsite : site + 8 < 2 ^ 63) (htarget : target < 2 ^ 63) (heven : target % 2 = 0)
    (hnear : target ≤ site + 2 ^ 30 ∧ site ≤ target + 2 ^ 30) :
    ∃ h₁ h₂, h.step code = some h₁ ∧ h₁.pc.toNat = site + 4 ∧ h₁.step code = some h₂ ∧
      h₂.pc.toNat = target ∧ h₂.reg .t5 = BitVec.ofNat 64 (site + 8) := by
  rcases hpair with ⟨hnop, hjal⟩ | ⟨hauipc, hjalr⟩
  · have hpc₄ := toNat_add_four hpc hsite
    have hsum : h.pc + offsetTo target site = BitVec.ofNat 64 target := add_offsetTo hpc
    refine ⟨{ h with pc := h.pc + 4 }, { ({ h with pc := h.pc + 4 } : HostState).set .t5
      (h.pc + 4 + 4) with pc := h.pc + 4 + (offsetTo target site - 4) }, ?_, hpc₄, ?_, ?_, ?_⟩
    · rw [HostState.step, hpc, hnop]
      rfl
    · rw [HostState.step, hpc₄, hjal]
      rfl
    · dsimp only
      rw [BitVec.add_assoc, BitVec.add_comm 4, BitVec.sub_add_cancel, hsum, BitVec.toNat_ofNat,
        Nat.mod_eq_of_lt (by omega)]
    · simp only [HostState.set, reduceCtorEq, if_false, Function.update_self]
      apply BitVec.eq_of_toNat_eq
      rw [BitVec.toNat_add, hpc₄, BitVec.toNat_ofNat]
      rfl
  · obtain ⟨h₁, h₂, hfirst, hpc₁, hsecond, hpc₂, -, ht5⟩ := step_auipc_jalr (by decide) hpc hsite
      htarget heven hnear hauipc hjalr
    exact ⟨h₁, h₂, hfirst, hpc₁, hsecond, hpc₂, ht5 (by decide)⟩

end Host

end Recompiler

end Felix86
