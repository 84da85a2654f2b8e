import Felix86.Common.FreelistProgress
import Mathlib.Data.List.MinMax

/-!
# The search without an address

Without an address `allocate` looks for the largest node and calls itself with that node's start.
The search is right about every list that a run of the two calls leaves, exact or not, except in
three cases. The size of the whole space is zero as a `u32`. A start of zero is taken for no
address, and the call repeats itself. And where nodes overlap, as they do after a deallocation at
the end of the space, the range is taken out of one of them only.

## Which lists there are

The nodes that a run leaves are inside the space, and none is shorter than empty. That is all the
search needs to know; in particular the list need not be sorted.
-/

namespace Felix86

namespace Freelist

open ClosedRange

/-- The nodes end in the 32-bit space, and no node is shorter than empty. -/
def Inside (list : List Node) : Prop := ∀ n ∈ list, n.start ≤ n.stop + 1 ∧ n.stop ≤ uint32Max

/-- The node that is the whole space. -/
def whole : Node := ⟨0, uint32Max⟩

/-! ## What the call should do -/

/-- The call returns. If a node is large enough it returns a range that was free and is not listed
afterwards, and else it fails and the list is the same. -/
def Serves (list : List Node) (size : ℕ) : Prop :=
  ∃ reply list', allocate list 0 size = .ok (reply, list') ∧
    match reply with
    | .address addr =>
      (∃ n ∈ list, size ≤ extent n) ∧ Set.Ico addr (addr + size) ⊆ cover list ∧
        cover list' = cover list \ Set.Ico addr (addr + size)
    | .enomem => (∀ n ∈ list, extent n < size) ∧ list' = list

/-- The node has something of the range. -/
def Meets (addr size : ℕ) (n : Node) : Prop :=
  0 < size ∧ n.start ≤ n.stop ∧ n.start < addr + size ∧ addr ≤ n.stop

instance (addr size : ℕ) (n : Node) : Decidable (Meets addr size n) :=
  inferInstanceAs (Decidable (_ ∧ _))

/-- The whole space is not one node, unless nothing is asked for or too much. The first of the nodes
that are largest, if it is large enough, does not start at zero but at a page, and no other node has
anything of the range at its start. -/
structure Searchable (list : List Node) (size : ℕ) : Prop where
  notWhole : 0 < size → size ≤ 2 ^ 32 → whole ∉ list
  ofLargest : ∀ best ∈ list.argmax curSize, size ≤ curSize best →
    best.start ≠ 0 ∧ PageAligned best.start ∧
      list.countP (fun n ↦ decide (Meets best.start size n)) ≤ 1

/-! ## Every run -/

theorem inside_initial (mmapMinAddr : ℕ) : Inside (initial mmapMinAddr) := by
  intro n hn
  obtain rfl := List.mem_singleton.mp hn
  have hlt : u32 mmapMinAddr < 2 ^ 32 := Nat.mod_lt _ (by decide)
  have hbound : uint32Max = 2 ^ 32 - 1 := rfl
  refine ⟨?_, le_rfl⟩
  change u32 mmapMinAddr ≤ uint32Max + 1
  omega

theorem Inside.cons {a : Node} {l : List Node} (ha : a.start ≤ a.stop + 1) (hb : a.stop ≤ uint32Max)
    (hl : Inside l) : Inside (a :: l) := by
  intro n hn
  rcases List.mem_cons.mp hn with rfl | hn
  · exact ⟨ha, hb⟩
  · exact hl n hn

theorem Inside.tail {a : Node} {l : List Node} (h : Inside (a :: l)) : Inside l :=
  fun n hn ↦ h n (List.mem_cons_of_mem _ hn)

theorem inside_breakOff {addr endAddr : ℕ} {l l' : List Node} (h : Inside l)
    (haddr : addr ≤ endAddr + 1) (hbreak : breakOff addr endAddr l = some l') : Inside l' := by
  induction l generalizing l' with
  | nil => cases hbreak
  | cons a t ih =>
    obtain ⟨ha, hb⟩ := h a List.mem_cons_self
    have hbound : uint32Max = 2 ^ 32 - 1 := rfl
    have hbelow (hlo : a.start < addr) (hhi : endAddr ≤ a.stop) :
        a.start ≤ addr - 1 + 1 ∧ addr - 1 ≤ uint32Max := by omega
    have habove (hhi : endAddr < a.stop) : u32 (endAddr + 1) ≤ a.stop + 1 := by
      have hu : u32 (endAddr + 1) = endAddr + 1 := Nat.mod_eq_of_lt (by omega)
      omega
    rw [breakOff] at hbreak
    split at hbreak
    · cases hbreak
      exact h.tail
    · split at hbreak
      · next hcase =>
        cases hbreak
        exact h.tail.cons (hbelow hcase.1 hcase.2.le).1 (hbelow hcase.1 hcase.2.le).2
      · split at hbreak
        · next hcase =>
          cases hbreak
          exact h.tail.cons (habove hcase.2) hb
        · split at hbreak
          · next hcase =>
            cases hbreak
            have hupper : Inside (⟨u32 (endAddr + 1), a.stop⟩ :: t) :=
              h.tail.cons (habove hcase.2) hb
            exact hupper.cons (hbelow hcase.1 hcase.2.le).1 (hbelow hcase.1 hcase.2.le).2
          · obtain ⟨t', ht', rfl⟩ := Option.map_eq_some_iff.mp hbreak
            exact (ih h.tail ht').cons ha hb

/-- The end of a range that does not reach around the 64-bit space. -/
theorem u64_end {addr size : ℕ} (hpos : 0 < addr + size) (hfit : addr + size < 2 ^ 64) :
    u64 (addr + size + (2 ^ 64 - 1)) = addr + size - 1 := by
  rw [u64]
  omega

theorem inside_allocateFixed {list list' : List Node} {addr size : ℕ} {reply : Reply}
    (h : Inside list) (hpos : 0 < addr + size) (hfit : addr + size < 2 ^ 64)
    (hret : allocateFixed list addr size = .ok (reply, list')) : Inside list' := by
  rw [allocateFixed, u64_end hpos hfit] at hret
  split at hret
  · cases hret
  · split at hret
    · cases hret
    · split at hret
      · next l hbreak =>
        cases hret
        exact inside_breakOff h (by omega) hbreak
      · cases hret
        exact h

theorem curSize_lt (n : Node) : curSize n < 2 ^ 32 := Nat.mod_lt _ (by decide)

theorem inside_allocate {list list' : List Node} {addr size : ℕ} {reply : Reply} (h : Inside list)
    (hfit : addr + size < 2 ^ 64) (hret : allocate list addr size = .ok (reply, list')) :
    Inside list' := by
  rw [allocate] at hret
  split at hret
  · cases hret
  · split at hret
    · exact inside_allocateFixed h (by omega) hfit hret
    · split at hret
      · cases hret
        exact h
      · next best hbest =>
        split at hret
        · cases hret
        · obtain ⟨hmem, hle⟩ := mem_of_findBest hbest
          have hlt := curSize_lt best
          have hstop := h best hmem
          have hbound : uint32Max = 2 ^ 32 - 1 := rfl
          exact inside_allocateFixed h (by omega) (by omega) hret

theorem inside_place {new : Node} {l : List Node} (hnew : new.start ≤ new.stop + 1)
    (hnewb : new.stop ≤ uint32Max) (h : Inside l) : Inside (place new l).1 := by
  induction l with
  | nil => exact h
  | cons a t ih =>
    obtain ⟨ha, hb⟩ := h a List.mem_cons_self
    rw [place]
    split
    · exact h
    · split
      · exact ((ih h.tail).cons ha hb).cons hnew hnewb
      · exact (ih h.tail).cons ha hb

theorem inside_coalesce {a : Node} {t : List Node} (h : Inside (a :: t)) :
    Inside (coalesce a t) := by
  induction t generalizing a with
  | nil => exact h
  | cons b t ih =>
    obtain ⟨ha, hab⟩ := h a List.mem_cons_self
    obtain ⟨hb, hbb⟩ := h b (List.mem_cons_of_mem _ List.mem_cons_self)
    rw [coalesce]
    split
    · refine ih (h.tail.tail.cons ?_ (max_le hab hbb))
      exact ha.trans (Nat.succ_le_succ (le_max_left _ _))
    · exact (ih h.tail).cons ha hab

theorem inside_consolidate {l : List Node} (h : Inside l) : Inside (consolidate l) := by
  cases l with
  | nil => exact h
  | cons a t =>
    rw [consolidate_cons]
    exact inside_coalesce h

theorem inside_deallocate {list list' : List Node} {addr size : ℕ} (h : Inside list)
    (hfit : addr + size < 2 ^ 64) (hret : deallocate list addr size = .ok list') :
        Inside list' := by
  rw [deallocate] at hret
  split at hret
  · cases hret
  · next hassert =>
    have hspace : addr + size ≤ 2 ^ 32 := by
      have hu : u64 (addr + size) = addr + size := Nat.mod_eq_of_lt hfit
      by_contra hlarge
      exact hassert (.inr (.inr (by omega)))
    have hnew : addr ≤ u32 (addr + size + (2 ^ 32 - 1)) + 1 := by
      unfold u32
      omega
    have hnewb : u32 (addr + size + (2 ^ 32 - 1)) ≤ uint32Max :=
      Nat.le_sub_one_of_lt (Nat.mod_lt _ (by decide))
    have hplaced := @inside_place ⟨addr, u32 (addr + size + (2 ^ 32 - 1))⟩ _ hnew hnewb h
    cases hret
    split
    · exact hplaced
    · exact inside_consolidate hplaced

/-- The range a call names does not reach around the 64-bit space. The mapper names only ranges that
the kernel has mapped or unmapped. -/
def Named (_ : State) : Call → Prop
  | .allocate addr size => addr.val + size.val < 2 ^ 64
  | .deallocate addr size => addr.val + size.val < 2 ^ 64

/-- The nodes are inside the space after every run. -/
theorem inside_of_run {mmapMinAddr : ℕ} {calls : List Call} {t : State}
    (hrun : Run (Guarded Named Step) (State.initial mmapMinAddr) calls t) : Inside t.list := by
  refine hrun.invariant (I := fun s ↦ Inside s.list) (inside_initial mmapMinAddr) ?_
  rintro s call t h ⟨hnamed, hstep⟩
  cases call with
  | allocate addr size =>
    obtain ⟨reply, hret, -⟩ := hstep
    exact inside_allocate h hnamed hret
  | deallocate addr size => exact inside_deallocate h hnamed hstep.1

/-! ## The node that is chosen -/

/-- The loop keeps the first of the largest elements, if it is large enough. -/
theorem foldl_argmax {α : Type*} (f : α → ℕ) (size start : ℕ) (l : List α) :
    l.foldl (fun (best : Option α × ℕ) current ↦
        if size ≤ f current ∧ (best.1 = none ∨ best.2 < f current) then (some current, f current)
        else best) (none, start) =
      match l.argmax f with
      | none => (none, start)
      | some best => if size ≤ f best then (some best, f best) else (none, start) := by
  induction l using List.reverseRecOn with
  | nil => rfl
  | append_singleton l a ih =>
    rw [List.foldl_append, ih, List.argmax_concat, List.foldl_cons, List.foldl_nil]
    cases l.argmax f with
    | none => by_cases ha : size ≤ f a <;> simp [ha]
    | some b =>
      by_cases hlt : f b < f a
      · by_cases hb : size ≤ f b <;> by_cases ha : size ≤ f a <;> simp [ha, hb, hlt]
        omega
      · by_cases hb : size ≤ f b
        · simp [hb, hlt]
        · have ha : ¬ size ≤ f a := by omega
          simp [ha, hb, hlt]

/-- The search finds the first of the largest nodes, if it is large enough. -/
theorem findBest_eq (size : ℕ) (list : List Node) :
    findBest size list = (list.argmax curSize).filter (fun n ↦ decide (size ≤ curSize n)) := by
  have hloop := congrArg Prod.fst (foldl_argmax curSize size uint32Max list)
  refine Eq.trans hloop ?_
  generalize curSize = f
  cases list.argmax f with
  | none => rfl
  | some best => by_cases hb : size ≤ f best <;> simp [Option.filter, hb]

/-- Only the size of the whole space is computed wrong. -/
theorem curSize_eq_of_inside {n : Node} (hn : n.start ≤ n.stop + 1) (hb : n.stop ≤ uint32Max) :
    curSize n = if n = whole then 0 else extent n := by
  obtain ⟨start, stop⟩ := n
  have hwhole : (⟨start, stop⟩ : Node) = whole ↔ start = 0 ∧ stop = uint32Max := by
    rw [whole, ClosedRange.mk.injEq]
  simp only [curSize, extent, u32, hwhole, uint32Max] at hn hb ⊢
  split <;> omega

/-! ## The range that is broken off -/

/-- The first node that has all of the range loses it, and the others stay. -/
theorem cover_breakOff {addr endAddr : ℕ} {list list' : List Node} (h : Inside list)
    (hpos : 0 < addr)
    (hend : addr ≤ endAddr + 1) (hbreak : breakOff addr endAddr list = some list') :
    ∃ l₁ n l₂, list = l₁ ++ n :: l₂ ∧ n.start ≤ addr ∧ endAddr ≤ n.stop ∧
      cover list' = cover l₁ ∪ (n.toSet \ Set.Ico addr (endAddr + 1)) ∪ cover l₂ := by
  induction list generalizing list' with
  | nil => cases hbreak
  | cons a t ih =>
    obtain ⟨-, hb⟩ := h a List.mem_cons_self
    have hbound : uint32Max = 2 ^ 32 - 1 := rfl
    -- what is left of the node in the four cases
    have hrest (l : List Node) (hl : cover l = a.toSet \ Set.Ico addr (endAddr + 1))
      (hlo : a.start ≤ addr)
        (hhi : endAddr ≤ a.stop) : ∃ l₁ n l₂, a :: t = l₁ ++ n :: l₂ ∧ n.start ≤ addr ∧
          endAddr ≤ n.stop ∧ cover (l ++ t) =
            cover l₁ ∪ (n.toSet \ Set.Ico addr (endAddr + 1)) ∪ cover l₂ :=
      ⟨[], a, t, rfl, hlo, hhi, by rw [cover_append, hl, cover_nil, Set.empty_union]⟩
    rw [breakOff] at hbreak
    split at hbreak
    · next hcase =>
      cases hbreak
      refine hrest [] ?_ hcase.1.ge hcase.2.le
      ext x
      simp only [cover_nil, Set.mem_empty_iff_false, Set.mem_sdiff, mem_toSet,
        Set.mem_Ico, false_iff]
      omega
    · split at hbreak
      · next hcase =>
        cases hbreak
        refine hrest [⟨a.start, addr - 1⟩] ?_ hcase.1.le hcase.2.le
        ext x
        simp only [cover_cons, cover_nil, Set.union_empty, Set.mem_sdiff, mem_toSet, Set.mem_Ico]
        omega
      · split at hbreak
        · next hcase =>
          cases hbreak
          have hu : u32 (endAddr + 1) = endAddr + 1 := Nat.mod_eq_of_lt (by omega)
          refine hrest [⟨u32 (endAddr + 1), a.stop⟩] ?_ hcase.1.ge hcase.2.le
          ext x
          simp only [hu, cover_cons, cover_nil, Set.union_empty, Set.mem_sdiff,
            mem_toSet, Set.mem_Ico]
          omega
        · split at hbreak
          · next hcase =>
            cases hbreak
            have hu : u32 (endAddr + 1) = endAddr + 1 := Nat.mod_eq_of_lt (by omega)
            refine hrest [⟨a.start, addr - 1⟩, ⟨u32 (endAddr + 1), a.stop⟩] ?_ hcase.1.le hcase.2.le
            ext x
            simp only [hu, cover_cons, cover_nil, Set.union_empty, Set.mem_union,
              Set.mem_sdiff, mem_toSet, Set.mem_Ico]
            omega
          · obtain ⟨t', ht', rfl⟩ := Option.map_eq_some_iff.mp hbreak
            obtain ⟨l₁, n, l₂, rfl, hlo, hhi, hcover⟩ := ih h.tail ht'
            refine ⟨a :: l₁, n, l₂, rfl, hlo, hhi, ?_⟩
            rw [cover_cons, cover_cons, hcover, Set.union_assoc, Set.union_assoc, Set.union_assoc]

theorem meets_iff {addr size : ℕ} {n : Node} :
    Meets addr size n ↔ ∃ x ∈ n.toSet, x ∈ Set.Ico addr (addr + size) := by
  constructor
  · rintro ⟨hpos, hne, hlo, hhi⟩
    exact ⟨max n.start addr, ⟨le_max_left _ _, max_le hne hhi⟩, le_max_right _ _,
      max_lt hlo (by omega)⟩
  · rintro ⟨x, ⟨hlo, hhi⟩, hlo', hhi'⟩
    exact ⟨by omega, hlo.trans hhi, hlo.trans_lt hhi', hlo'.trans hhi⟩

/-- No node of the list has anything of the range. -/
theorem countP_meets_eq_zero {addr size : ℕ} {l : List Node} :
    l.countP (fun n ↦ decide (Meets addr size n)) = 0 ↔
      ∀ x ∈ cover l, x ∉ Set.Ico addr (addr + size) := by
  simp only [List.countP_eq_zero, decide_eq_true_eq, meets_iff]
  constructor
  · rintro h x ⟨n, hn, hx⟩ hin
    exact h n hn ⟨x, hx, hin⟩
  · rintro h n hn ⟨x, hx, hin⟩
    exact h x ⟨n, hn, hx⟩ hin

section

variable {addr size : ℕ} {list list' l₁ l₂ : List Node} {n : Node}

/-- One node has all of the range, so the others must have nothing of it. -/
theorem countP_meets_le_one (hlo : n.start ≤ addr) (hhi : addr + size ≤ n.stop + 1) :
    (l₁ ++ n :: l₂).countP (fun n ↦ decide (Meets addr size n)) ≤ 1 ↔
      (∀ x ∈ cover l₁, x ∉ Set.Ico addr (addr + size)) ∧
        ∀ x ∈ cover l₂, x ∉ Set.Ico addr (addr + size) := by
  rw [← countP_meets_eq_zero, ← countP_meets_eq_zero, List.countP_append, List.countP_cons]
  rcases Nat.eq_zero_or_pos size with rfl | hpos
  · have hnone (m : Node) : ¬ Meets addr 0 m := fun hmeets ↦ absurd hmeets.1 (lt_irrefl 0)
    simp [hnone]
  · have hmeets : Meets addr size n := ⟨hpos, by omega, by omega, by omega⟩
    simp only [hmeets, decide_true, if_true]
    omega

/-- Nothing of the range is listed any more exactly if only one node had something of it. -/
theorem cover_eq_iff (hlo : n.start ≤ addr) (hhi : addr + size ≤ n.stop + 1)
    (hcover : cover list' = cover l₁ ∪ (n.toSet \ Set.Ico addr (addr + size)) ∪ cover l₂) :
    cover list' = cover (l₁ ++ n :: l₂) \ Set.Ico addr (addr + size) ↔
      (l₁ ++ n :: l₂).countP (fun n ↦ decide (Meets addr size n)) ≤ 1 := by
  rw [countP_meets_le_one hlo hhi, hcover, cover_append, cover_cons]
  constructor
  · intro h
    refine ⟨fun x hx hin ↦ ?_, fun x hx hin ↦ ?_⟩
    · exact (h.subset (.inl (.inl hx))).2 hin
    · exact (h.subset (.inr hx)).2 hin
  · rintro ⟨h₁, h₂⟩
    ext x
    constructor
    · rintro ((hx | hx) | hx)
      · exact ⟨.inl hx, h₁ x hx⟩
      · exact ⟨.inr (.inl hx.1), hx.2⟩
      · exact ⟨.inr (.inr hx), h₂ x hx⟩
    · rintro ⟨hx | hx | hx, hout⟩
      · exact .inl (.inl hx)
      · exact .inl (.inr ⟨hx, hout⟩)
      · exact .inr hx

/-- Two different nodes that have something of the range are one too many. -/
theorem eq_of_countP_meets (hlo : n.start ≤ addr) (hhi : addr + size ≤ n.stop + 1)
    (hcount : (l₁ ++ n :: l₂).countP (fun n ↦ decide (Meets addr size n)) ≤ 1) {m : Node}
    (hm : m ∈ l₁ ++ n :: l₂) (hmeets : Meets addr size m) : m = n := by
  obtain ⟨h₁, h₂⟩ := (countP_meets_le_one hlo hhi).mp hcount
  obtain ⟨x, hx, hin⟩ := meets_iff.mp hmeets
  rcases List.mem_append.mp hm with hm | hm
  · exact absurd hin (h₁ x ⟨m, hm, hx⟩)
  · rcases List.mem_cons.mp hm with rfl | hm
    · rfl
    · exact absurd hin (h₂ x ⟨m, hm, hx⟩)

end

/-! ## The search -/

section

variable {list : List Node} {size : ℕ}

/-- A node that is found is cut at its start. -/
theorem allocateFixed_best (h : Inside list) {best : Node} (hmem : best ∈ list)
    (hle : best.start + size ≤ best.stop + 1) (hne : best.start ≠ 0)
    (haligned : PageAligned best.start) :
    ∃ list', allocateFixed list best.start size = .ok (.address best.start, list') ∧
      ∃ l₁ n l₂, list = l₁ ++ n :: l₂ ∧ n.start ≤ best.start ∧ best.start + size ≤ n.stop + 1 ∧
        cover list' = cover l₁ ∪ (n.toSet \ Set.Ico best.start (best.start + size)) ∪ cover l₂ := by
  have hbound : uint32Max = 2 ^ 32 - 1 := rfl
  have hstop := (h best hmem).2
  have hinside : ∃ n ∈ list, n.start ≤ best.start ∧ best.start + size - 1 ≤ n.stop :=
    ⟨best, hmem, le_rfl, by omega⟩
  obtain ⟨list', hbreak⟩ := exists_breakOff hinside
  have hcover := cover_breakOff h (by omega) (by omega) hbreak
  have hsucc : best.start + size - 1 + 1 = best.start + size := by omega
  rw [hsucc] at hcover
  obtain ⟨l₁, n, l₂, heq, hlo, hhi, hcover⟩ := hcover
  refine ⟨list', ?_, l₁, n, l₂, heq, hlo, by omega, hcover⟩
  rw [allocateFixed, if_neg (not_not.mpr haligned), u64_end (by omega) (by omega),
    if_neg (by omega), hbreak]

/-- Where nothing is found, only the node that is the whole space can have been missed. -/
theorem serves_of_none (h : Inside list) (hsize : PageAligned size)
    (hnone : findBest size list = none) :
    Serves list size ↔ Searchable list size := by
  have hsmall := findBest_eq_none_iff.mp hnone
  have hcall : allocate list 0 size = .ok (.enomem, list) := by
    rw [allocate, if_neg (not_not.mpr hsize), if_neg (not_not.mpr rfl), hnone]
  have hserves : Serves list size ↔ ∀ n ∈ list, extent n < size := by
    rw [Serves, hcall]
    constructor
    · rintro ⟨reply, list', heq, hreply⟩
      cases heq
      exact hreply.1
    · intro hall
      exact ⟨.enomem, list, rfl, hall, rfl⟩
  have hwhole : extent whole = 2 ^ 32 := rfl
  rw [hserves]
  constructor
  · intro hall
    refine ⟨fun _ hle hmem ↦ ?_, fun best hbest hle ↦ ?_⟩
    · have hlt := hall whole hmem
      omega
    · exact absurd hle (not_le.mpr (hsmall best (List.argmax_mem hbest)))
  · rintro ⟨hnot, -⟩ n hn
    have hcur := hsmall n hn
    rw [curSize_eq_of_inside (h n hn).1 (h n hn).2] at hcur
    split at hcur
    · next heq =>
      subst heq
      by_contra hge
      exact hnot hcur (by omega) hn
    · exact hcur

theorem serves_of_some (h : Inside list) (hsize : PageAligned size) {best : Node}
    (hbest : best ∈ list.argmax curSize) (hle : size ≤ curSize best)
    (hfind : findBest size list = some best) :
    Serves list size ↔ Searchable list size := by
  have hmem := List.argmax_mem hbest
  have hcall : allocate list 0 size =
      if best.start = 0 then .error .stackOverflow else allocateFixed list best.start size := by
    rw [allocate, if_neg (not_not.mpr hsize), if_neg (not_not.mpr rfl), hfind]
  by_cases hzero : best.start = 0
  · refine iff_of_false ?_ fun hright ↦ (hright.ofLargest best hbest hle).1 hzero
    rintro ⟨reply, list', heq, -⟩
    rw [hcall, if_pos hzero] at heq
    cases heq
  by_cases haligned : PageAligned best.start
  · have hextent : best.start + size ≤ best.stop + 1 := by
      have hne : best ≠ whole := fun heq ↦ hzero (congrArg ClosedRange.start heq)
      rw [curSize_eq_of_inside (h best hmem).1 (h best hmem).2, if_neg hne, extent] at hle
      have hstart := (h best hmem).1
      omega
    obtain ⟨list', hfixed, l₁, n, l₂, heq, hlo, hhi, hcover⟩ :=
      allocateFixed_best h hmem hextent hzero haligned
    rw [hfixed, if_neg hzero] at hcall
    have hcount := cover_eq_iff hlo hhi hcover
    rw [← heq] at hcount
    have hserves : Serves list size ↔
        list.countP (fun n ↦ decide (Meets best.start size n)) ≤ 1 := by
      rw [Serves, hcall, ← hcount]
      constructor
      · rintro ⟨reply, l, hret, hreply⟩
        cases hret
        exact hreply.2.2
      · intro hcov
        refine ⟨_, list', rfl, ⟨best, hmem, by rw [extent]; omega⟩, ?_, hcov⟩
        intro x hx
        exact ⟨best, hmem, hx.1, by have := hx.2; omega⟩
    rw [hserves]
    constructor
    · intro hone
      refine ⟨fun hpos hfits hin ↦ ?_, fun b hb _ ↦ ?_⟩
      · -- the whole space and the node that was found are two
        have hsingle {m : Node} (hm : m ∈ list) (hmeets : Meets best.start size m) : m = n :=
          eq_of_countP_meets hlo hhi (heq ▸ hone) (heq ▸ hm) hmeets
        have hbound : uint32Max = 2 ^ 32 - 1 := rfl
        have hstop := (h best hmem).2
        have hbest : best = n := hsingle hmem ⟨hpos, by omega, by omega, by omega⟩
        have hall : whole = n := hsingle hin ⟨hpos, Nat.zero_le _, by simp [whole]; omega,
          by simp [whole]; omega⟩
        exact hzero (congrArg ClosedRange.start (hbest.trans hall.symm))
      · obtain rfl := Option.some.inj (hbest.symm.trans hb)
        exact ⟨hzero, haligned, hone⟩
    · intro hright
      exact (hright.ofLargest best hbest hle).2.2
  · refine iff_of_false ?_ fun hright ↦ haligned (hright.ofLargest best hbest hle).2.1
    rintro ⟨reply, list', heq, -⟩
    rw [hcall, if_neg hzero, allocateFixed, if_pos haligned] at heq
    cases heq

/-- **The search serves** exactly the lists and sizes that avoid the three cases. -/
theorem serves_iff (h : Inside list) (hsize : PageAligned size) :
    Serves list size ↔ Searchable list size := by
  cases hfind : findBest size list with
  | none => exact serves_of_none h hsize hfind
  | some best =>
    have hbest := hfind
    rw [findBest_eq, Option.filter_eq_some_iff] at hbest
    exact serves_of_some h hsize hbest.1 (of_decide_eq_true hbest.2) hfind

end

/-- After every run of calls of the mapper, an allocation without an address does what it should
exactly if it is none of the three cases. -/
theorem serves_iff_of_run {mmapMinAddr : ℕ} {calls : List Call} {t : State} {size : ℕ}
    (hrun : Run (Guarded Named Step) (State.initial mmapMinAddr) calls t)
    (hsize : PageAligned size) :
    Serves t.list size ↔ Searchable t.list size :=
  serves_iff (inside_of_run hrun) hsize

/-- After two pages have been taken and one of them has been given back, the next page comes from
the larger one of two nodes. -/
theorem serves_iff_of_run_middle :
    ∃ calls t, Run (Guarded Named Step) (State.initial 0x10000) calls t ∧
    t.list = [⟨0x10000, 0x20FFF⟩, ⟨0x22000, uint32Max⟩] ∧ Serves t.list 0x1000 := by
  let s₁ : State := ⟨[⟨0x10000, 0x1FFFF⟩, ⟨0x22000, uint32Max⟩],
    (State.initial 0x10000).free \ Set.Ico 0x20000 (0x20000 + 0x2000)⟩
  let s₂ : State := ⟨[⟨0x10000, 0x20FFF⟩, ⟨0x22000, uint32Max⟩],
    s₁.free ∪ Set.Ico 0x20000 (0x20000 + 0x1000)⟩
  have h₁ : Guarded Named Step (State.initial 0x10000) (.allocate 0x20000 0x2000) s₁ :=
    ⟨show 0x20000 + 0x2000 < 2 ^ 64 by decide, .address 0x20000, by decide, rfl⟩
  have h₂ : Guarded Named Step s₁ (.deallocate 0x20000 0x1000) s₂ :=
    ⟨show 0x20000 + 0x1000 < 2 ^ 64 by decide, by decide +kernel, rfl⟩
  have hrun := (Run.single h₁).snoc h₂
  refine ⟨_, s₂, hrun, rfl, (serves_iff_of_run hrun (by decide)).mpr ⟨fun _ _ ↦ by decide, ?_⟩⟩
  intro best hbest _
  obtain rfl : (⟨0x22000, uint32Max⟩ : Node) = best := Option.some.inj hbest
  decide

/-- With `mmap_min_addr` zero nothing is found in the whole space, and once a page in the middle is
taken the search calls itself for ever. -/
theorem not_serves : ¬ Serves (State.initial 0).list 0x1000 ∧
    ∃ calls t, Run (Guarded Named Step) (State.initial 0) calls t ∧ ¬ Serves t.list 0x1000 ∧
      allocate t.list 0 0x1000 = .error .stackOverflow := by
  constructor
  · intro hserves
    have hright := (serves_iff (inside_initial 0) (by decide)).mp hserves
    exact hright.notWhole (by decide) (by decide) (by decide)
  · let t : State := ⟨[⟨0, 0x7FFFFFFF⟩, ⟨0x80001000, uint32Max⟩],
      (State.initial 0).free \ Set.Ico 0x80000000 (0x80000000 + 0x1000)⟩
    have hstep : Guarded Named Step (State.initial 0) (.allocate 0x80000000 0x1000) t :=
      ⟨show 0x80000000 + 0x1000 < 2 ^ 64 by decide, .address 0x80000000, by decide, rfl⟩
    have hcall : allocate t.list 0 0x1000 = .error .stackOverflow := by decide
    refine ⟨_, t, Run.single hstep, ?_, hcall⟩
    rintro ⟨reply, list', hret, -⟩
    rw [hcall] at hret
    cases hret

end Freelist

end Felix86
