import Felix86.Lib.Run
import Felix86.V2.BlockTables
import Mathlib.Data.Set.Basic

/-!
# What each operation on the code buffer touches

The claims about blocks are about every run of the recompiler, and most of what a step does to the
code buffer and the block tables is not about a given block at all. So each operation gets one lemma
that says what it touches, and the invariants are proved from these lemmas, without looking into the
operations again.

## Frames

Emitting and linking change the code in a known region and may add pending links; everything else
that the block tables hold stays. `Frame r r' region links` says this once for all of them. Frames
compose (`Frame.append`), so the frame of a loop over items, over pending links or over blocks is
the union of the frames of its rounds.

Pending links are kept in lists, one for each block that is waited for. A frame only bounds them
from above: a link that is pending after a step was pending before or is one of `links`. That links
are also taken off the lists is said apart, where it is needed (`of_expirePendingLinks`).

## Compiling and invalidating

On the frames stand the two results that the modules above use. `compiled_of_compileAt` has
everything about a block that has just been compiled: where its code is, where its exits are, and
that only its own entry of the tables is new. `patched_of_invalidateRange` has everything about the
blocks of a page that is invalidated: each of them starts with the pair of instructions that goes to
the thunk, as long as the starts of two blocks are never less than a pair apart (`StartsApart`).
-/

namespace Felix86

namespace Recompiler

/-- `r'` differs from `r` only in the code of `region`, in pending links, all new ones of which are
in `links`, and in the cursor and the address cache. -/
structure Frame (r r' : Recompiler) (region links : Set ℕ) : Prop where
  code : ∀ x ∉ region, r'.code x = r.code x
  address : ∀ rip, (r'.blockMetadata rip).address = (r.blockMetadata rip).address
  addressEnd : ∀ rip, (r'.blockMetadata rip).addressEnd = (r.blockMetadata rip).addressEnd
  guestAddress : ∀ rip, (r'.blockMetadata rip).guestAddress = (r.blockMetadata rip).guestAddress
  guestAddressEnd : ∀ rip,
    (r'.blockMetadata rip).guestAddressEnd = (r.blockMetadata rip).guestAddressEnd
  pendingLinks : ∀ rip, ∀ link ∈ (r'.blockMetadata rip).pendingLinks,
    link ∈ (r.blockMetadata rip).pendingLinks ∨ link ∈ links
  pageMap : r'.pageMap = r.pageMap
  hostPcMap : r'.hostPcMap = r.hostPcMap

namespace Frame

variable {r r' r'' : Recompiler} {region region' links links' : Set ℕ}

theorem refl (r : Recompiler) : Frame r r ∅ ∅ :=
  ⟨fun _ _ ↦ rfl, fun _ ↦ rfl, fun _ ↦ rfl, fun _ ↦ rfl, fun _ ↦ rfl, fun _ _ h ↦ Or.inl h, rfl,
    rfl⟩

theorem mono (h : Frame r r' region links) (hregion : region ⊆ region') (hlinks : links ⊆ links') :
    Frame r r' region' links' where
  code := fun x hx ↦ h.code x fun hmem ↦ hx (hregion hmem)
  address := h.address
  addressEnd := h.addressEnd
  guestAddress := h.guestAddress
  guestAddressEnd := h.guestAddressEnd
  pendingLinks := fun rip link hlink ↦ (h.pendingLinks rip link hlink).imp_right (@hlinks link)
  pageMap := h.pageMap
  hostPcMap := h.hostPcMap

theorem trans (h : Frame r r' region links) (h' : Frame r' r'' region links) :
    Frame r r'' region links where
  code := fun x hx ↦ (h'.code x hx).trans (h.code x hx)
  address := fun rip ↦ (h'.address rip).trans (h.address rip)
  addressEnd := fun rip ↦ (h'.addressEnd rip).trans (h.addressEnd rip)
  guestAddress := fun rip ↦ (h'.guestAddress rip).trans (h.guestAddress rip)
  guestAddressEnd := fun rip ↦ (h'.guestAddressEnd rip).trans (h.guestAddressEnd rip)
  pendingLinks := by
    intro rip link hlink
    rcases h'.pendingLinks rip link hlink with hmem | hmem
    · exact h.pendingLinks rip link hmem
    · exact Or.inr hmem
  pageMap := h'.pageMap.trans h.pageMap
  hostPcMap := h'.hostPcMap.trans h.hostPcMap

/-- Frames of different regions, joined. -/
theorem append (h : Frame r r' region links) (h' : Frame r' r'' region' links') :
    Frame r r'' (region ∪ region') (links ∪ links') :=
  (h.mono Set.subset_union_left Set.subset_union_left).trans
    (h'.mono Set.subset_union_right Set.subset_union_right)

theorem setCursor (r : Recompiler) (cursor : ℕ) : Frame r (r.setCursor cursor) ∅ ∅ :=
  { refl r with }

theorem store (r : Recompiler) (address : ℕ) (insn : HostInsn) :
    Frame r (r.store address insn) {address} ∅ :=
  { refl r with code := fun _ hx ↦ Function.update_of_ne hx _ _ }

/-- Changing a block's pending links. -/
theorem modifyPending (r : Recompiler) (rip : ℕ) (f : List ℕ → List ℕ) (links : Set ℕ)
    (hf : ∀ l, ∀ link ∈ f l, link ∈ l ∨ link ∈ links) :
    Frame r (r.modifyBlock rip fun m ↦ { m with pendingLinks := f m.pendingLinks }) ∅ links := by
  have hother : ∀ {β : Type} (g : BlockMetadata → β),
      (∀ m : BlockMetadata, g { m with pendingLinks := f m.pendingLinks } = g m) → ∀ rip',
      g ((r.modifyBlock rip fun m ↦ { m with pendingLinks := f m.pendingLinks }).blockMetadata
        rip') = g (r.blockMetadata rip') := by
    intro β g hg rip'
    simp only [modifyBlock]
    by_cases h : rip' = rip
    · rw [h, Function.update_self, hg]
    · rw [Function.update_of_ne h]
  refine ⟨fun _ _ ↦ rfl, hother _ fun _ ↦ rfl, hother _ fun _ ↦ rfl, hother _ fun _ ↦ rfl,
    hother _ fun _ ↦ rfl, ?_, rfl, rfl⟩
  intro rip' link hlink
  simp only [modifyBlock] at hlink
  by_cases h : rip' = rip
  · rw [h, Function.update_self] at hlink
    rw [h]
    exact hf _ link hlink
  · rw [Function.update_of_ne h] at hlink
    exact Or.inl hlink

end Frame

variable {L : Layout} {r r' : Recompiler}

/-- The bytes of a pair of instructions. -/
def pair (address : ℕ) : Set ℕ := Set.Ico address (address + 8)

theorem of_emit {insn : HostInsn} (h : r.emit L insn = some r') :
    Frame r r' {r.cursor} ∅ ∧ r'.cursor = r.cursor + 4 ∧
      r'.cursor ≤ L.codeCache + codeCacheSize := by
  rw [emit] at h
  split at h
  · next hspace =>
    obtain rfl := Option.some.inj h
    refine ⟨?_, rfl, hspace⟩
    have hframe := (Frame.store r r.cursor insn).append
      (Frame.setCursor (r.store r.cursor insn) (r.cursor + 4))
    simpa using hframe
  · cases h

theorem of_emit_pair {first second : HostInsn}
    (h : (do let r ← r.emit L first; r.emit L second) = some r') :
    Frame r r' (pair r.cursor) ∅ ∧ r'.cursor = r.cursor + 8 ∧
      r'.cursor ≤ L.codeCache + codeCacheSize := by
  obtain ⟨r₁, h₁, h₂⟩ := Option.bind_eq_some_iff.mp h
  obtain ⟨hframe₁, hcursor₁, -⟩ := of_emit h₁
  obtain ⟨hframe₂, hcursor₂, hspace⟩ := of_emit h₂
  refine ⟨?_, by omega, hspace⟩
  refine (hframe₁.append hframe₂).mono ?_ (by simp)
  rintro x (rfl | hx)
  · exact ⟨le_rfl, by omega⟩
  · rw [Set.mem_singleton_iff, hcursor₁] at hx
    exact ⟨by omega, by omega⟩

theorem of_backToDispatcher (h : r.backToDispatcher L = some r') :
    Frame r r' (pair r.cursor) ∅ ∧ r'.cursor = r.cursor + 8 ∧
      r'.cursor ≤ L.codeCache + codeCacheSize := by
  rw [backToDispatcher] at h
  split at h
  · exact of_emit_pair h
  · cases h

theorem of_jumpTo {target : ℕ} (h : r.jumpTo L target = some r') :
    Frame r r' (pair r.cursor) ∅ ∧ r'.cursor = r.cursor + 8 ∧
      r'.cursor ≤ L.codeCache + codeCacheSize := by
  rw [jumpTo] at h
  split at h
  · exact of_emit_pair h
  · split at h
    · exact of_emit_pair h
    · cases h

/-- A link is two instructions, and the only place it may leave pending is itself. -/
theorem of_jumpAndLink {rip : ℕ} (h : r.jumpAndLink L rip = some r') :
    Frame r r' (pair r.cursor) {link | L.link ∧ link = r.cursor} ∧ r'.cursor = r.cursor + 8 ∧
      r'.cursor ≤ L.codeCache + codeCacheSize := by
  have hweak : Frame r r' (pair r.cursor) ∅ ∧ r'.cursor = r.cursor + 8 ∧
      r'.cursor ≤ L.codeCache + codeCacheSize →
      Frame r r' (pair r.cursor) {link | L.link ∧ link = r.cursor} ∧
        r'.cursor = r.cursor + 8 ∧ r'.cursor ≤ L.codeCache + codeCacheSize :=
    And.imp_left fun hframe ↦ hframe.mono le_rfl (Set.empty_subset _)
  rw [jumpAndLink] at h
  split at h
  · exact hweak (of_backToDispatcher h)
  · next hlink =>
    split at h
    · exact hweak (of_jumpTo h)
    · obtain ⟨r₁, h₁, h₂⟩ := Option.bind_eq_some_iff.mp h
      obtain ⟨hframe, hcursor, hspace⟩ := of_backToDispatcher h₁
      obtain rfl := Option.some.inj h₂
      refine ⟨?_, hcursor, hspace⟩
      have hpending := Frame.modifyPending r₁ rip (· ++ [r.cursor])
        {link | L.link ∧ link = r.cursor} (by simp [not_not.mp hlink])
      exact (hframe.append hpending).mono (by simp) (by simp)

theorem of_relink {rip link : ℕ} (h : r.relink L rip link = some r') :
    Frame r r' (pair link) {link} ∧ r'.cursor = r.cursor := by
  obtain ⟨r₁, h₁, h₂⟩ := Option.bind_eq_some_iff.mp h
  obtain ⟨hframe, -, -⟩ := of_jumpAndLink h₁
  obtain rfl := Option.some.inj h₂
  refine ⟨?_, rfl⟩
  have h₀ := (Frame.setCursor r link).append hframe
  refine (h₀.append (Frame.setCursor r₁ r.cursor)).mono (by simp [Recompiler.setCursor]) ?_
  rintro x ((hx | hx) | hx)
  · exact absurd hx (Set.notMem_empty x)
  · exact hx.2
  · exact absurd hx (Set.notMem_empty x)

/-- The bytes of the links in `links`. -/
def pairs (links : Set ℕ) : Set ℕ := {x | ∃ link ∈ links, x ∈ pair link}

theorem pair_subset_pairs {link : ℕ} {links : Set ℕ} (h : link ∈ links) :
    pair link ⊆ pairs links := fun _ hx ↦ ⟨link, h, hx⟩

/-- Expiring links rewrites the places that were pending for the block. -/
theorem of_expirePendingLinks {rip : ℕ} (h : r.expirePendingLinks L rip = some r') :
    Frame r r' (pairs {link | link ∈ (r.blockMetadata rip).pendingLinks})
      {link | link ∈ (r.blockMetadata rip).pendingLinks} ∧ r'.cursor = r.cursor := by
  set links : Set ℕ := {link | link ∈ (r.blockMetadata rip).pendingLinks}
  have hrefl : Frame r r (pairs links) links :=
    (Frame.refl r).mono (Set.empty_subset _) (Set.empty_subset _)
  rw [expirePendingLinks] at h
  split at h
  · obtain rfl := Option.some.inj h
    exact ⟨hrefl, rfl⟩
  · obtain ⟨r₁, h₁, h₂⟩ := Option.bind_eq_some_iff.mp h
    obtain rfl := Option.some.inj h₂
    have hloop : Frame r r₁ (pairs links) links ∧ r₁.cursor = r.cursor := by
      refine foldlM_invariant h₁ (I := fun s ↦ Frame r s (pairs links) links ∧
        s.cursor = r.cursor) ⟨hrefl, rfl⟩ ?_
      rintro link hlink s t ⟨hframe, hcursor⟩ hst
      obtain ⟨hframe', hcursor'⟩ := of_relink hst
      have hlink' : link ∈ links := hlink
      refine ⟨hframe.trans (hframe'.mono (pair_subset_pairs hlink') ?_), hcursor'.trans hcursor⟩
      simpa using hlink'
    refine ⟨hloop.1.trans ?_, hloop.2⟩
    exact (Frame.modifyPending r₁ rip (fun _ ↦ []) ∅ (by simp)).mono (Set.empty_subset _)
      (Set.empty_subset _)

/-! ## Emitting a block

Items are emitted from the cursor on, each in as many bytes as its kind takes. The exits of a block
lie inside of it, and each of them is a pair. -/

/-- The bytes an item takes. -/
def Item.size : Item → ℕ
  | .insn _ => 4
  | .link _ => 8
  | .dispatch => 8

/-- The bytes of a block. -/
def byteSize (items : List Item) : ℕ := (items.map Item.size).sum

/-- Where the links of a block that starts at `start` are. -/
def linkSites (start : ℕ) : List Item → List ℕ
  | [] => []
  | .link _ :: rest => start :: linkSites (start + 8) rest
  | item :: rest => linkSites (start + item.size) rest

theorem byteSize_cons (item : Item) (items : List Item) :
    byteSize (item :: items) = item.size + byteSize items := by
  simp [byteSize]

theorem mem_linkSites_cons {start site : ℕ} {item : Item} {items : List Item} :
    site ∈ linkSites start (item :: items) ↔
      (site = start ∧ ∃ rip, item = .link rip) ∨ site ∈ linkSites (start + item.size) items := by
  cases item <;> simp [linkSites, Item.size]

theorem bounds_of_mem_linkSites {start site : ℕ} {items : List Item}
    (h : site ∈ linkSites start items) : start ≤ site ∧ site + 8 ≤ start + byteSize items := by
  induction items generalizing start with
  | nil => simp [linkSites] at h
  | cons item items ih =>
    rw [byteSize_cons]
    rcases mem_linkSites_cons.mp h with ⟨rfl, rip, rfl⟩ | hrest
    · simp only [Item.size]
      omega
    · have := ih hrest
      omega

theorem of_emitItem {item : Item} (h : r.emitItem L item = some r') :
    Frame r r' (Set.Ico r.cursor r'.cursor)
      {link | L.link ∧ link = r.cursor ∧ ∃ rip, item = .link rip} ∧
      r'.cursor = r.cursor + item.size ∧
      r'.cursor ≤ L.codeCache + codeCacheSize := by
  cases item with
  | insn word =>
    obtain ⟨hframe, hcursor, hspace⟩ := of_emit h
    refine ⟨hframe.mono ?_ (Set.empty_subset _), hcursor, hspace⟩
    rintro x rfl
    exact ⟨le_rfl, by omega⟩
  | link rip =>
    obtain ⟨hframe, hcursor, hspace⟩ := of_jumpAndLink h
    refine ⟨hframe.mono ?_ ?_, hcursor, hspace⟩
    · rw [pair, hcursor]
    · rintro x ⟨hlink, rfl⟩
      exact ⟨hlink, rfl, rip, rfl⟩
  | dispatch =>
    obtain ⟨hframe, hcursor, hspace⟩ := of_backToDispatcher h
    refine ⟨hframe.mono ?_ (Set.empty_subset _), hcursor, hspace⟩
    rw [pair, hcursor]

/-- Emitting a block writes from the cursor on, and the links it leaves pending are its own. -/
theorem of_emitItems {items : List Item} (h : r.emitItems L items = some r')
    (hspace : r.cursor ≤ L.codeCache + codeCacheSize) :
    Frame r r' (Set.Ico r.cursor r'.cursor)
        {link | L.link ∧ link ∈ linkSites r.cursor items} ∧
      r'.cursor = r.cursor + byteSize items ∧ r'.cursor ≤ L.codeCache + codeCacheSize := by
  induction items generalizing r with
  | nil =>
    obtain rfl := Option.some.inj h
    exact ⟨(Frame.refl r).mono (Set.empty_subset _) (Set.empty_subset _), rfl, hspace⟩
  | cons item items ih =>
    rw [emitItems, List.foldlM_cons] at h
    obtain ⟨r₁, h₁, h₂⟩ := Option.bind_eq_some_iff.mp h
    obtain ⟨hframe₁, hcursor₁, hspace₁⟩ := of_emitItem h₁
    obtain ⟨hframe₂, hcursor₂, hspace₂⟩ := ih h₂ hspace₁
    refine ⟨(hframe₁.append hframe₂).mono ?_ ?_, ?_, hspace₂⟩
    · rintro x (hx | hx)
      · exact ⟨hx.1, hx.2.trans_le (by omega)⟩
      · exact ⟨le_trans (by omega) hx.1, hx.2⟩
    · rw [hcursor₁]
      rintro x (hx | hx)
      · exact ⟨hx.1, mem_linkSites_cons.mpr (Or.inl hx.2)⟩
      · exact ⟨hx.1, mem_linkSites_cons.mpr (Or.inr hx.2)⟩
    · rw [byteSize_cons]
      omega

theorem modifyBlock_of_ne {rip rip' : ℕ} {f : BlockMetadata → BlockMetadata} (h : rip' ≠ rip) :
    (r.modifyBlock rip f).blockMetadata rip' = r.blockMetadata rip' :=
  Function.update_of_ne h _ _

theorem modifyBlock_self {rip : ℕ} {f : BlockMetadata → BlockMetadata} :
    (r.modifyBlock rip f).blockMetadata rip = f (r.blockMetadata rip) :=
  Function.update_self ..

/-- What compiling a block at the cursor leaves behind. -/
structure Compiled (L : Layout) (r r' : Recompiler) (rip : ℕ) (items : List Item) : Prop where
  cursor : r'.cursor = r.cursor + byteSize items
  eight_le : r.cursor + 8 ≤ r'.cursor
  address_self : (r'.blockMetadata rip).address = r.cursor
  address : ∀ rip', rip' ≠ rip →
    (r'.blockMetadata rip').address = (r.blockMetadata rip').address
  code : ∀ x < r.cursor, x ∉ pairs {link | link ∈ (r.blockMetadata rip).pendingLinks} →
    r'.code x = r.code x
  pendingLinks : ∀ rip', ∀ link ∈ (r'.blockMetadata rip').pendingLinks,
    (∃ owner, link ∈ (r.blockMetadata owner).pendingLinks) ∨
      (L.link ∧ link ∈ linkSites r.cursor items)
  pageMap : ∀ page, ∀ rip' ∈ r'.pageMap page,
    rip' ∈ r.pageMap page ∨ rip' = rip ∧ page ∈ pagesOf (r'.blockMetadata rip)

theorem Frame.setCacheEntry (r : Recompiler) (guest : ℕ) (entry : AddressCacheEntry) :
    Frame r (r.setCacheEntry guest entry) ∅ ∅ :=
  { Frame.refl r with }

/-- The part of `compile` behind `compileSequence` registers the block and expires its links. -/
theorem of_finishBlock {rip : ℕ} (h : r.finishBlock L rip = some r') :
    r'.cursor = r.cursor ∧
      (∀ rip', (r'.blockMetadata rip').address = (r.blockMetadata rip').address) ∧
      (∀ x, x ∉ pairs {link | link ∈ (r.blockMetadata rip).pendingLinks} → r'.code x = r.code x) ∧
      (∀ rip', ∀ link ∈ (r'.blockMetadata rip').pendingLinks,
        link ∈ (r.blockMetadata rip').pendingLinks ∨
          link ∈ (r.blockMetadata rip).pendingLinks) ∧
      ∀ page, ∀ rip' ∈ r'.pageMap page,
        rip' ∈ r.pageMap page ∨ rip' = rip ∧ page ∈ pagesOf (r'.blockMetadata rip) := by
  rw [finishBlock] at h
  set m := r.blockMetadata rip
  set r₁ : Recompiler := { r with hostPcMap := insertKey (m.addressEnd - 1) rip r.hostPcMap }
  set r₂ := r₁.registerPages rip
  set r₃ := if L.addressCache then r₂.setCacheEntry m.guestAddress ⟨m.address, m.guestAddress⟩
    else r₂
  have hcache : Frame r₂ r₃ ∅ ∅ ∧ r₃.cursor = r₂.cursor := by
    simp only [r₃]
    split
    · exact ⟨Frame.setCacheEntry _ _ _, rfl⟩
    · exact ⟨Frame.refl _, rfl⟩
  have hmeta : r₃.blockMetadata = r.blockMetadata := by
    simp only [r₃]
    split <;> rfl
  have hcode : r₃.code = r.code := by
    simp only [r₃]
    split <;> rfl
  obtain ⟨hframe, hcursor⟩ := of_expirePendingLinks h
  rw [hmeta] at hframe
  refine ⟨hcursor.trans hcache.2, fun rip' ↦ ?_, fun x hx ↦ ?_, fun rip' link hlink ↦ ?_, ?_⟩
  · rw [hframe.address, hmeta]
  · rw [hframe.code x hx, hcode]
  · have hmem := hframe.pendingLinks rip' link hlink
    rwa [hmeta] at hmem
  · intro page rip' hrip'
    rw [hframe.pageMap, hcache.1.pageMap] at hrip'
    simp only [r₂, registerPages, r₁] at hrip'
    split at hrip'
    · next hpage =>
      rw [pagesOf, hframe.guestAddress, hframe.guestAddressEnd, hmeta]
      exact (List.mem_append.mp hrip').imp_right fun heq ↦ ⟨List.mem_singleton.mp heq, hpage⟩
    · exact Or.inl hrip'

/-- **Compiling a block.** -/
theorem compiled_of_compileAt {rip : ℕ} {seq : Sequence} (h : r.compileAt L rip seq = some r')
    (hspace : r.cursor ≤ L.codeCache + codeCacheSize) :
    Compiled L r r' rip seq.items ∧ r'.cursor ≤ L.codeCache + codeCacheSize := by
  obtain ⟨r₂, h₂, h₃⟩ := Option.bind_eq_some_iff.mp h
  set r₁ := r.modifyBlock rip fun m ↦ { m with address := r.cursor, guestAddress := rip } with hr₁
  obtain ⟨hframe, hcursor, hspace₂⟩ := of_emitItems h₂ hspace
  have hcursor₁ : r₁.cursor = r.cursor := rfl
  rw [hcursor₁] at hframe hcursor
  dsimp only at h₃
  split at h₃
  · next height =>
    set r₃ := r₂.modifyBlock rip fun m ↦
      { m with guestAddressEnd := seq.guestEnd, addressEnd := r₂.cursor }
    have haddress₃ : ∀ rip', (r₃.blockMetadata rip').address = (r₂.blockMetadata rip').address := by
      intro rip'
      by_cases hrip : rip' = rip
      · rw [hrip, modifyBlock_self]
      · rw [modifyBlock_of_ne hrip]
    have hpending₃ : ∀ rip',
        (r₃.blockMetadata rip').pendingLinks = (r₂.blockMetadata rip').pendingLinks := by
      intro rip'
      by_cases hrip : rip' = rip
      · rw [hrip, modifyBlock_self]
      · rw [modifyBlock_of_ne hrip]
    have hpending₁ : ∀ rip',
        (r₁.blockMetadata rip').pendingLinks = (r.blockMetadata rip').pendingLinks := by
      intro rip'
      by_cases hrip : rip' = rip
      · rw [hrip, hr₁, modifyBlock_self]
      · rw [hr₁, modifyBlock_of_ne hrip]
    -- a link that is pending at the end was pending before, or is one of this block
    have hpending : ∀ rip', ∀ link ∈ (r₂.blockMetadata rip').pendingLinks,
        link ∈ (r.blockMetadata rip').pendingLinks ∨
          (L.link ∧ link ∈ linkSites r.cursor seq.items) := by
      intro rip' link hlink
      have hmem := hframe.pendingLinks rip' link hlink
      rwa [hpending₁] at hmem
    obtain ⟨hcursor₄, haddress₄, hcode₄, hpending₄, hpages₄⟩ := of_finishBlock h₃
    have hcursor' : r'.cursor = r₂.cursor := hcursor₄
    refine ⟨⟨?_, ?_, ?_, ?_, ?_, ?_, ?_⟩, ?_⟩
    · rw [hcursor', hcursor]
    · rw [hcursor']
      exact height
    · rw [haddress₄, haddress₃, hframe.address, hr₁, modifyBlock_self]
    · intro rip' hrip
      rw [haddress₄, haddress₃, hframe.address, hr₁, modifyBlock_of_ne hrip]
    · intro x hx hout
      have hout' : x ∉ pairs {link | link ∈ (r₃.blockMetadata rip).pendingLinks} := by
        rintro ⟨link, hlink, hmem⟩
        have hlink₂ : link ∈ (r₂.blockMetadata rip).pendingLinks := hpending₃ rip ▸ hlink
        rcases hpending rip link hlink₂ with hold | hnew
        · exact hout ⟨link, hold, hmem⟩
        · exact absurd (bounds_of_mem_linkSites hnew.2).1 (by have := hmem.1; omega)
      rw [hcode₄ x hout']
      exact hframe.code x fun hmem ↦ absurd hmem.1 (by omega)
    · intro rip' link hlink
      rcases hpending₄ rip' link hlink with hmem | hmem
      · exact (hpending rip' link (hpending₃ rip' ▸ hmem)).imp_left fun hold ↦ ⟨rip', hold⟩
      · exact (hpending rip link (hpending₃ rip ▸ hmem)).imp_left fun hold ↦ ⟨rip, hold⟩
    · intro page rip' hrip'
      have hmem := hpages₄ page rip' hrip'
      have hpage : r₃.pageMap = r.pageMap := hframe.pageMap
      rwa [hpage] at hmem
    · rw [hcursor']
      exact hspace₂
  · cases h₃

/-! ## Invalidation

A block is invalidated by overwriting its first pair of instructions, and `invalidateRange` does so
for every block on the lists of the pages, which it then empties. -/

/-- The code at a block's start is the pair that goes to the thunk. -/
def Patched (L : Layout) (r : Recompiler) (address : ℕ) : Prop :=
  r.code address = .auipc .t4 (hi20 (offsetTo L.invalidateCallerThunk address)) ∧
    r.code (address + 4) = .jalr .t6 (lo12 (offsetTo L.invalidateCallerThunk address)) .t4

theorem Patched.congr {address : ℕ} (h : Patched L r address)
    (hcode : ∀ x ∈ pair address, r'.code x = r.code x) : Patched L r' address := by
  have hfirst := hcode address ⟨le_rfl, by omega⟩
  have hsecond := hcode (address + 4) ⟨by omega, by omega⟩
  exact ⟨hfirst.trans h.1, hsecond.trans h.2⟩

theorem of_invalidateBlock {rip : ℕ} (h : r.invalidateBlock L rip = some r') :
    (r.blockMetadata rip).address ≠ 0 ∧ Frame r r' (pair (r.blockMetadata rip).address) ∅ ∧
      r'.blockMetadata = r.blockMetadata ∧ r'.cursor = r.cursor ∧
      Patched L r' (r.blockMetadata rip).address := by
  rw [invalidateBlock] at h
  split at h
  · cases h
  · next hne =>
    obtain rfl := Option.some.inj h
    set address := (r.blockMetadata rip).address
    refine ⟨hne, ?_, rfl, rfl, ?_, ?_⟩
    · refine ((Frame.store r address _).append (Frame.store _ (address + 4) _)).mono ?_ (by simp)
      rintro x (rfl | rfl)
      · exact ⟨le_rfl, by omega⟩
      · exact ⟨by omega, by omega⟩
    · simp only [store]
      rw [Function.update_of_ne (by omega), Function.update_self]
    · exact Function.update_self ..

/-- The loop of `invalidateRange` changes only code, and hands out no null pointer. -/
theorem of_invalidateBlocks {rips : List ℕ}
    (h : rips.foldlM (fun r rip ↦ r.invalidateBlock L rip) r = some r') :
    r'.pageMap = r.pageMap ∧ r'.blockMetadata = r.blockMetadata ∧ r'.cursor = r.cursor ∧
      ∀ rip ∈ rips, (r.blockMetadata rip).address ≠ 0 := by
  induction rips generalizing r with
  | nil =>
    obtain rfl := Option.some.inj h
    exact ⟨rfl, rfl, rfl, by simp⟩
  | cons rip rips ih =>
    rw [List.foldlM_cons] at h
    obtain ⟨r₁, h₁, h₂⟩ := Option.bind_eq_some_iff.mp h
    obtain ⟨hne, hframe₁, hmeta₁, hcursor₁, -⟩ := of_invalidateBlock h₁
    obtain ⟨hpages₂, hmeta₂, hcursor₂, hne₂⟩ := ih h₂
    rw [hmeta₁] at hne₂ hmeta₂
    refine ⟨hpages₂.trans hframe₁.pageMap, hmeta₂, hcursor₂.trans hcursor₁, ?_⟩
    intro rip' hrip'
    rcases List.mem_cons.mp hrip' with rfl | hrip'
    · exact hne
    · exact hne₂ rip' hrip'

/-- Invalidating a range is the loop, after which the pages' lists are empty. -/
theorem exists_of_invalidateRange {start stop : ℕ} (h : r.invalidateRange L start stop = some r') :
    ∃ r₁, (r.handed start stop).foldlM (fun r rip ↦ r.invalidateBlock L rip) r = some r₁ ∧
      r'.code = r₁.code ∧ r'.blockMetadata = r₁.blockMetadata ∧ r'.cursor = r₁.cursor ∧
      ∀ page, ∀ rip ∈ r'.pageMap page, rip ∈ r₁.pageMap page := by
  rw [invalidateRange] at h
  obtain ⟨r₁, h₁, h₂⟩ := Option.bind_eq_some_iff.mp h
  obtain rfl := Option.some.inj h₂
  refine ⟨r₁, h₁, rfl, rfl, rfl, fun page rip hmem ↦ ?_⟩
  dsimp only at hmem
  split at hmem
  · simp at hmem
  · exact hmem

theorem of_invalidateRange {start stop : ℕ} (h : r.invalidateRange L start stop = some r') :
    r'.blockMetadata = r.blockMetadata ∧ r'.cursor = r.cursor ∧
      ∀ page, ∀ rip ∈ r'.pageMap page, rip ∈ r.pageMap page := by
  obtain ⟨r₁, hloop, -, hmeta, hcursor, hpages⟩ := exists_of_invalidateRange h
  obtain ⟨hpageMap, hmeta₁, hcursor₁, -⟩ := of_invalidateBlocks hloop
  refine ⟨hmeta.trans hmeta₁, hcursor.trans hcursor₁, fun page rip hmem ↦ ?_⟩
  exact hpageMap ▸ hpages page rip hmem

theorem address_ne_of_invalidateRange {start stop : ℕ}
    (h : r.invalidateRange L start stop = some r') :
    ∀ rip ∈ r.handed start stop, (r.blockMetadata rip).address ≠ 0 := by
  obtain ⟨r₁, hloop, -⟩ := exists_of_invalidateRange h
  exact (of_invalidateBlocks hloop).2.2.2

/-- Two starts are the same or their pairs do not meet. -/
def StartsApart (a b : ℕ) : Prop := a = b ∨ a + 8 ≤ b ∨ b + 8 ≤ a

/-- The loop of `invalidateRange` patches every block it is given and keeps the pairs that were
there. -/
theorem patched_of_invalidateBlocks {rips : List ℕ} {starts : Set ℕ}
    (h : rips.foldlM (fun r rip ↦ r.invalidateBlock L rip) r = some r')
    (hstarts : ∀ a ∈ starts, Patched L r a)
    (hapart : ∀ rip ∈ rips, ∀ a, a ∈ starts ∨ (∃ rip' ∈ rips,
      a = (r.blockMetadata rip').address) → StartsApart a (r.blockMetadata rip).address) :
    ∀ a, a ∈ starts ∨ (∃ rip ∈ rips, a = (r.blockMetadata rip).address) → Patched L r' a := by
  induction rips generalizing r starts with
  | nil =>
    obtain rfl := Option.some.inj h
    rintro a (ha | ⟨rip, hrip, -⟩)
    · exact hstarts a ha
    · cases hrip
  | cons rip rips ih =>
    rw [List.foldlM_cons] at h
    obtain ⟨r₁, h₁, h₂⟩ := Option.bind_eq_some_iff.mp h
    obtain ⟨-, hframe, hmeta, -, hpatched⟩ := of_invalidateBlock h₁
    have hkeep : ∀ a ∈ insert (r.blockMetadata rip).address starts, Patched L r₁ a := by
      rintro a (rfl | ha)
      · exact hpatched
      · rcases hapart rip List.mem_cons_self a (Or.inl ha) with rfl | hlt
        · exact hpatched
        · refine (hstarts a ha).congr fun x hx ↦ hframe.code x fun hx' ↦ ?_
          have h₃ := hx.1
          have h₄ := hx.2
          have h₅ := hx'.1
          have h₆ := hx'.2
          omega
    intro a ha
    refine ih h₂ hkeep ?_ a ?_
    · intro rip₁ hrip₁ b hb
      rw [hmeta] at hb ⊢
      refine hapart rip₁ (List.mem_cons_of_mem _ hrip₁) b ?_
      rcases hb with (rfl | hb) | ⟨rip₂, hrip₂, rfl⟩
      · exact Or.inr ⟨rip, List.mem_cons_self, rfl⟩
      · exact Or.inl hb
      · exact Or.inr ⟨rip₂, List.mem_cons_of_mem _ hrip₂, rfl⟩
    · rw [hmeta]
      rcases ha with ha | ⟨rip₁, hrip₁, rfl⟩
      · exact Or.inl (Set.mem_insert_of_mem _ ha)
      · rcases List.mem_cons.mp hrip₁ with rfl | hrip₁
        · exact Or.inl (Set.mem_insert _ _)
        · exact Or.inr ⟨rip₁, hrip₁, rfl⟩

theorem patched_of_invalidateRange {start stop : ℕ} {starts : Set ℕ}
    (h : r.invalidateRange L start stop = some r') (hstarts : ∀ a ∈ starts, Patched L r a)
    (hapart : ∀ rip ∈ r.handed start stop, ∀ a, a ∈ starts ∨ (∃ rip' ∈ r.handed start stop,
      a = (r.blockMetadata rip').address) → StartsApart a (r.blockMetadata rip).address) :
    ∀ a, a ∈ starts ∨ (∃ rip ∈ r.handed start stop, a = (r.blockMetadata rip).address) →
      Patched L r' a := by
  obtain ⟨r₁, hloop, hcode, -⟩ := exists_of_invalidateRange h
  intro a ha
  exact (patched_of_invalidateBlocks hloop hstarts hapart a ha).congr fun x _ ↦ by rw [hcode]

/-- What the thunk's callback leaves behind: at most one address becomes zero, and the code changes
only at the caller's link. -/
theorem of_invalidateAt {addressOfBlock linkedBlock : ℕ}
    (h : r.invalidateAt L addressOfBlock linkedBlock = some r') :
    r'.cursor = r.cursor ∧ r'.pageMap = r.pageMap ∧
      (∀ rip, (r'.blockMetadata rip).address = (r.blockMetadata rip).address ∨
        (r.zeroes addressOfBlock = some rip ∧ (r'.blockMetadata rip).address = 0)) ∧
      (∀ x, (linkedBlock ≠ 0 → x ∉ pair (linkOf linkedBlock)) →
        r'.code x = r.code x) ∧
      ∀ rip, ∀ link ∈ (r'.blockMetadata rip).pendingLinks,
        link ∈ (r.blockMetadata rip).pendingLinks ∨
          (linkedBlock ≠ 0 ∧ link = linkOf linkedBlock) := by
  obtain ⟨⟨key, rip₀⟩, hlower, h⟩ := Option.bind_eq_some_iff.mp h
  dsimp only at h
  set m := r.blockMetadata rip₀ with hm
  set r₁ := if m.address ≤ addressOfBlock ∧ addressOfBlock ≤ m.addressEnd then
      r.modifyBlock rip₀ fun m ↦ { m with address := 0 } else r with hr₁
  set r₂ := if L.addressCache then r₁.setCacheEntry m.guestAddress ⟨0, 0⟩ else r₁ with hr₂
  -- up to here only the address of the found block can have changed
  have hzero : ∀ rip, (r₁.blockMetadata rip).address = (r.blockMetadata rip).address ∨
      (r.zeroes addressOfBlock = some rip ∧ (r₁.blockMetadata rip).address = 0) := by
    intro rip
    rw [hr₁]
    split
    · next hin =>
      by_cases hrip : rip = rip₀
      · refine Or.inr ⟨?_, by rw [hrip, modifyBlock_self]⟩
        rw [zeroes, hlower, hrip]
        exact if_pos hin
      · exact Or.inl (by rw [modifyBlock_of_ne hrip])
    · exact Or.inl rfl
  have hpending₁ : ∀ rip,
      (r₁.blockMetadata rip).pendingLinks = (r.blockMetadata rip).pendingLinks := by
    intro rip
    rw [hr₁]
    split
    · by_cases hrip : rip = rip₀
      · rw [hrip, modifyBlock_self]
      · rw [modifyBlock_of_ne hrip]
    · rfl
  have hsame₁ : r₁.code = r.code ∧ r₁.cursor = r.cursor ∧ r₁.pageMap = r.pageMap := by
    rw [hr₁]
    split <;> exact ⟨rfl, rfl, rfl⟩
  have hsame₂ : r₂.code = r₁.code ∧ r₂.cursor = r₁.cursor ∧ r₂.pageMap = r₁.pageMap ∧
      r₂.blockMetadata = r₁.blockMetadata := by
    rw [hr₂]
    split <;> exact ⟨rfl, rfl, rfl, rfl⟩
  obtain ⟨hcode₁, hcursor₁, hpages₁⟩ := hsame₁
  obtain ⟨hcode₂, hcursor₂, hpages₂, hmeta₂⟩ := hsame₂
  split at h
  · next hlink =>
    obtain rfl := Option.some.inj h
    refine ⟨hcursor₂.trans hcursor₁, hpages₂.trans hpages₁, ?_, ?_, ?_⟩
    · rwa [hmeta₂]
    · intro x _
      rw [hcode₂, hcode₁]
    · intro rip link hmem
      rw [hmeta₂, hpending₁] at hmem
      exact Or.inl hmem
  · next hlink =>
    split at h
    · obtain ⟨hframe, hcursor⟩ := of_relink h
      refine ⟨hcursor.trans (hcursor₂.trans hcursor₁),
        hframe.pageMap.trans (hpages₂.trans hpages₁), fun rip ↦ ?_, fun x hx ↦ ?_, ?_⟩
      · rw [hframe.address, hmeta₂]
        exact hzero rip
      · rw [hframe.code x (hx hlink), hcode₂, hcode₁]
      · intro rip link hmem
        have hmem' := hframe.pendingLinks rip link hmem
        rw [hmeta₂, hpending₁] at hmem'
        exact hmem'.imp_right fun heq ↦ ⟨hlink, heq⟩
    · cases h

end Recompiler

end Felix86
