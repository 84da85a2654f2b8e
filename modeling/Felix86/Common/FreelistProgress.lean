import Felix86.Common.FreelistExact

/-!
# When the freelist's calls return, and with what

Exactness says what the list covers after a call that returned. Its users also need the call to
return and to return the right thing: a range that is free is handed out, a range that may be given
back is taken, and a search without an address finds a node whenever one is large enough.

The search ends in an allocation at the start of a node, whose `ASSERT` wants that start aligned.
The list does not record alignment; it follows from the free space being a union of pages.
-/

namespace Felix86

namespace ClosedRange

variable {α : Type*} [LinearOrder α]

/-- Two nodes of a canonical list are the same node or lie apart. -/
theorem Canonical.eq_or_apart {l : List (ClosedRange α)} (hl : Canonical l) {a b : ClosedRange α}
    (ha : a ∈ l) (hb : b ∈ l) : a = b ∨ Apart a b ∨ Apart b a := by
  induction l with
  | nil => cases ha
  | cons c l ih =>
    obtain ⟨-, hap, hl'⟩ := canonical_cons.mp hl
    rcases List.mem_cons.mp ha with rfl | ha' <;> rcases List.mem_cons.mp hb with rfl | hb'
    · exact Or.inl rfl
    · exact Or.inr (Or.inl (hap b hb'))
    · exact Or.inr (Or.inr (hap a ha'))
    · exact ih hl' ha' hb'

end ClosedRange

namespace Freelist

open ClosedRange

/-- Membership depends on the page only. -/
def Paged (s : Set ℕ) : Prop := ∀ ⦃a b : ℕ⦄, a / 0x1000 = b / 0x1000 → a ∈ s → b ∈ s

variable {list : List Node} {free : Set ℕ} {addr size : ℕ}

/-- A free range lies inside one node. -/
theorem Exact.exists_node (h : Exact list free) (hpos : 0 < size)
    (hsub : Set.Ico addr (addr + size) ⊆ free) :
    ∃ n ∈ list, n.start ≤ addr ∧ addr + size - 1 ≤ n.stop := by
  have hcov : ∀ x, addr ≤ x → x < addr + size → ∃ n ∈ list, n.start ≤ x ∧ x ≤ n.stop := by
    intro x hlo hhi
    have hx : x ∈ cover list := h.cover_eq ▸ hsub ⟨hlo, hhi⟩
    exact hx
  obtain ⟨n, hn, hlo, hhi⟩ := hcov addr le_rfl (by omega)
  refine ⟨n, hn, hlo, ?_⟩
  by_contra hlt
  -- the point behind the node is covered too, and no other node is that close
  obtain ⟨m, hm, hmlo, hmhi⟩ := hcov (n.stop + 1) (by omega) (by omega)
  rcases h.canonical.eq_or_apart hn hm with rfl | hap | hap
  · omega
  · have := apart_iff.mp hap
    omega
  · have := apart_iff.mp hap
    omega

theorem exists_breakOff {endAddr : ℕ} (h : ∃ n ∈ list, n.start ≤ addr ∧ endAddr ≤ n.stop) :
    ∃ list', breakOff addr endAddr list = some list' := by
  induction list with
  | nil => simp at h
  | cons c l ih =>
    rw [breakOff]
    by_cases hc : c.start ≤ addr ∧ endAddr ≤ c.stop
    · split
      · exact ⟨_, rfl⟩
      · split
        · exact ⟨_, rfl⟩
        · split
          · exact ⟨_, rfl⟩
          · rw [if_pos (by omega)]
            exact ⟨_, rfl⟩
    · rw [if_neg (by omega), if_neg (by omega), if_neg (by omega), if_neg (by omega)]
      obtain ⟨n, hn, hns⟩ := h
      rcases List.mem_cons.mp hn with rfl | hn
      · exact absurd hns hc
      · obtain ⟨l', hl'⟩ := ih ⟨n, hn, hns⟩
        exact ⟨c :: l', by rw [hl', Option.map_some]⟩

theorem exists_allocateFixed (h : Exact list free) (haddr : PageAligned addr) (hpos : 0 < size)
    (hfit : addr + size ≤ 2 ^ 32) (hsub : Set.Ico addr (addr + size) ⊆ free) :
    ∃ list', allocateFixed list addr size = .ok (.address addr, list') := by
  obtain ⟨list', hlist'⟩ := exists_breakOff (h.exists_node hpos hsub)
  refine ⟨list', ?_⟩
  rw [allocateFixed, if_neg (not_not.mpr haddr), u64_add_pred addr size (by omega) hfit,
    if_neg (by unfold uint32Max; omega), hlist']

/-- **A free range is handed out.** -/
theorem Exact.allocate_of_subset (h : Exact list free) (haddr : PageAligned addr)
    (hsize : PageAligned size) (hne : addr ≠ 0) (hpos : 0 < size) (hfit : addr + size ≤ 2 ^ 32)
    (hsub : Set.Ico addr (addr + size) ⊆ free) :
    ∃ list', allocate list addr size = .ok (.address addr, list') ∧
      Exact list' (free \ Set.Ico addr (addr + size)) := by
  obtain ⟨list', hlist'⟩ := exists_allocateFixed h haddr hpos hfit hsub
  refine ⟨list', ?_, exact_allocateFixed h hpos hfit hlist'⟩
  rw [allocate, if_neg (not_not.mpr hsize), if_pos hne, hlist']

/-- **A range that may be given back is taken.** -/
theorem Exact.deallocate_of_ok (h : Exact list free) (haddr : PageAligned addr)
    (hsize : PageAligned size) (hok : DeallocateOk list addr size) :
    ∃ list', deallocate list addr size = .ok list' ∧
      Exact list' (free ∪ Set.Ico addr (addr + size)) := by
  obtain ⟨-, hfit, -⟩ := id hok
  have hret : ∃ list', deallocate list addr size = .ok list' := by
    have hu : u64 (addr + size) = addr + size := Nat.mod_eq_of_lt (by omega)
    rw [deallocate, if_neg (by rw [hu]; simp [haddr, hsize]; omega)]
    exact ⟨_, rfl⟩
  obtain ⟨list', hlist'⟩ := hret
  exact ⟨list', hlist', exact_deallocate h hok hlist'⟩

/-- Giving back what is free already changes nothing. -/
theorem Exact.deallocate_of_subset (h : Exact list free) (hpos : 0 < size)
    (hfit : addr + size ≤ 2 ^ 32) (hsub : Set.Ico addr (addr + size) ⊆ free) {list' : List Node}
    (hret : deallocate list addr size = .ok list') : list' = list := by
  obtain ⟨n, hn, hlo, hhi⟩ := h.exists_node hpos hsub
  rw [deallocate] at hret
  split at hret
  · cases hret
  · simp only [u32_add_pred hpos hfit, Except.ok.injEq] at hret
    rw [place_of_contained h.canonical ⟨n, hn, hlo, hhi⟩, if_pos rfl] at hret
    exact hret.symm

/-! ## The search -/

/-- In a list that covers a union of pages every node starts at a page. -/
theorem Exact.start_aligned (h : Exact list free) (hpaged : Paged free) {n : Node}
    (hn : n ∈ list) : PageAligned n.start := by
  by_contra hmis
  rw [PageAligned] at hmis
  have hne := h.canonical.nonempty n hn
  have hstart : n.start ∈ free := h.cover_eq ▸ ⟨n, hn, le_rfl, hne⟩
  -- the point before the start is on the same page, so some node covers it
  have hpred : n.start - 1 ∈ cover list := by
    rw [h.cover_eq]
    exact hpaged (by omega) hstart
  obtain ⟨m, hm, hmlo, hmhi⟩ := hpred
  rcases h.canonical.eq_or_apart hn hm with rfl | hap | hap
  · omega
  · have := apart_iff.mp hap
    omega
  · have := apart_iff.mp hap
    omega

theorem findBest_eq_none_iff {list : List Node} :
    findBest size list = none ↔ ∀ n ∈ list, curSize n < size := by
  have key : ∀ (l : List Node) (acc : Option Node × ℕ),
      (l.foldl (updateBest size) acc).1 = none ↔
        acc.1 = none ∧ ∀ n ∈ l, curSize n < size := by
    intro l
    induction l with
    | nil => simp
    | cons c l ih =>
      intro acc
      rw [List.foldl_cons, ih, updateBest]
      by_cases hc : size ≤ curSize c
      · by_cases hacc : acc.1 = none
        · simp [hc, hacc]
        · split <;> simp [hacc]
      · rw [if_neg (fun h ↦ hc h.1)]
        simp [not_le.mp hc]
  rw [findBest, key]
  simp

/-- The bytes of a node. -/
def extent (n : Node) : ℕ := n.stop + 1 - n.start

theorem Exact.curSize_eq_extent (h : Exact list free) (hzero : 0 ∉ free) {n : Node}
    (hn : n ∈ list) : curSize n = extent n := by
  have hne := h.canonical.nonempty n hn
  refine curSize_eq hne (h.bounded n hn) fun hstart ↦ hzero ?_
  rw [← h.cover_eq]
  exact ⟨n, hn, by simp [hstart]⟩

theorem allocate_zero_of_small (h : Exact list free) (hzero : 0 ∉ free)
    (hsize : PageAligned size) (hsmall : ∀ n ∈ list, extent n < size) :
    allocate list 0 size = .ok (.enomem, list) := by
  have hnone : findBest size list = none := findBest_eq_none_iff.mpr fun n hn ↦ by
    rw [h.curSize_eq_extent hzero hn]
    exact hsmall n hn
  rw [allocate, if_neg (not_not.mpr hsize), if_neg (not_not.mpr rfl), hnone]

theorem allocateFixed_start_zero (h : Exact list free) (hpaged : Paged free) {best : Node}
    (hmem : best ∈ list) (hstart : best.start ≠ 0) :
    allocateFixed list best.start 0 = .ok (.address best.start, list) := by
  have hne := h.canonical.nonempty best hmem
  have hbd := h.bounded best hmem
  unfold uint32Max at hbd
  rw [allocateFixed, if_neg (not_not.mpr (h.start_aligned hpaged hmem)),
    u64_add_pred best.start 0 (by omega) (by omega), Nat.add_zero,
    if_neg (by unfold uint32Max; omega), breakOff_start_pred h.canonical h.bounded hmem hstart]

/-- **A search that finds a node** hands out the start of the one it prefers. An empty range is
handed out too, and costs nothing. -/
theorem Exact.allocate_zero (h : Exact list free) (hpaged : Paged free) (hzero : 0 ∉ free)
    (hsize : PageAligned size) (hlarge : ¬∀ n ∈ list, extent n < size) :
    ∃ best ∈ list, ∃ list', findBest size list = some best ∧ size ≤ extent best ∧
      allocate list 0 size = .ok (.address best.start, list') ∧
      Exact list' (free \ Set.Ico best.start (best.start + size)) ∧ (size = 0 → list' = list) := by
  have hsome : findBest size list ≠ none := by
    rw [Ne, findBest_eq_none_iff]
    intro hall
    exact hlarge fun n hn ↦ h.curSize_eq_extent hzero hn ▸ hall n hn
  obtain ⟨best, hbest⟩ := Option.ne_none_iff_exists'.mp hsome
  obtain ⟨hmem, hle⟩ := mem_of_findBest hbest
  rw [h.curSize_eq_extent hzero hmem] at hle
  have hne := h.canonical.nonempty best hmem
  have hbd := h.bounded best hmem
  have hsub : Set.Icc best.start best.stop ⊆ free := fun x hx ↦ h.cover_eq ▸ ⟨best, hmem, hx⟩
  have hstart : best.start ≠ 0 := fun h0 ↦ hzero (hsub ⟨h0.le, Nat.zero_le _⟩)
  have hred : allocate list 0 size = allocateFixed list best.start size := by
    rw [allocate, if_neg (not_not.mpr hsize), if_neg (not_not.mpr rfl), hbest]
    exact if_neg hstart
  refine ⟨best, hmem, ?_⟩
  rcases Nat.eq_zero_or_pos size with rfl | hpos
  · refine ⟨list, hbest, hle, ?_, by simpa using h, fun _ ↦ rfl⟩
    rw [hred, allocateFixed_start_zero h hpaged hmem hstart]
  · unfold extent at hle
    have hfit : best.start + size ≤ 2 ^ 32 := by unfold uint32Max at hbd; omega
    have hsub' : Set.Ico best.start (best.start + size) ⊆ free := by
      refine fun x hx ↦ hsub ⟨hx.1, ?_⟩
      have := hx.2
      omega
    obtain ⟨list', hlist'⟩ :=
      exists_allocateFixed h (h.start_aligned hpaged hmem) hpos hfit hsub'
    exact ⟨list', hbest, hle, hred.trans hlist', exact_allocateFixed h hpos hfit hlist',
      fun h0 ↦ absurd h0 hpos.ne'⟩

end Freelist

end Felix86
