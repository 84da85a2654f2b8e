import Felix86.Common.Freelist
import Felix86.Lib.Run

/-!
# What the freelist represents

The list is meant to be exact: canonical in the sense of `ClosedRange.Canonical`, and covering the
initial space minus what was allocated plus what was given back. This file says which calls keep it
exact.

Allocation does, for every range that fits in the 32-bit space. Deallocation does not: a range that
starts above the last node's start is dropped, and because `end + 1` is a `u32`, a range that ends
at the last byte of the space is not merged with the nodes it overlaps. `DeallocateOk` is the
condition that neither happens.

## The shape of the argument

`consolidate` is a fixpoint of "merge the first pair that touches". Merging keeps the start of the
left node, so a pair that does not touch never starts to, and the fixpoint is the single pass
`coalesce`. The walk of `deallocate` links the new node in before every node above it, so the list
handed to `consolidate` is `below ++ interleave new above`, which `coalesce` is then run on.
-/

namespace Felix86

namespace Freelist

open ClosedRange

/-! ## The fixpoint is a single pass -/

/-- One left-to-right pass that merges a node with its successors for as long as they touch. -/
def coalesce : Node → List Node → List Node
  | current, [] => [current]
  | current, next :: rest =>
    if Touches current next then coalesce (merge current next) rest
    else current :: coalesce next rest

theorem length_of_mergeFirst {l l' : List Node} (h : mergeFirst l = some l') :
    l'.length + 1 = l.length := by
  induction l generalizing l' with
  | nil => simp [mergeFirst] at h
  | cons a t ih =>
    cases t with
    | nil => simp [mergeFirst] at h
    | cons b r =>
      rw [mergeFirst] at h
      split at h
      · obtain rfl := Option.some.inj h
        simp
      · obtain ⟨m, hm, rfl⟩ := Option.map_eq_some_iff.mp h
        simpa using ih hm

theorem coalesce_of_mergeFirst_eq_none {a : Node} {t : List Node}
    (h : mergeFirst (a :: t) = none) : coalesce a t = a :: t := by
  induction t generalizing a with
  | nil => rfl
  | cons b r ih =>
    rw [mergeFirst] at h
    split at h
    · cases h
    · next hab =>
      rw [coalesce, if_neg hab, ih (Option.map_eq_none_iff.mp h)]

/-- A round of the loop keeps the start of the head, and keeps the result of the pass. -/
theorem coalesce_of_mergeFirst_eq_some {a : Node} {t l : List Node}
    (h : mergeFirst (a :: t) = some l) :
    ∃ a' t', l = a' :: t' ∧ a'.start = a.start ∧ coalesce a' t' = coalesce a t := by
  induction t generalizing a l with
  | nil => simp [mergeFirst] at h
  | cons b r ih =>
    rw [mergeFirst] at h
    split at h
    · next hab =>
      obtain rfl := Option.some.inj h
      exact ⟨merge a b, r, rfl, rfl, by rw [coalesce, if_pos hab]⟩
    · next hab =>
      obtain ⟨m, hm, rfl⟩ := Option.map_eq_some_iff.mp h
      obtain ⟨b', r', rfl, hstart, hpass⟩ := ih hm
      refine ⟨a, b' :: r', rfl, rfl, ?_⟩
      have hab' : ¬Touches a b' := by rwa [Touches, hstart]
      rw [coalesce, if_neg hab', hpass, coalesce, if_neg hab]

theorem consolidateLoop_eq_coalesce {fuel : ℕ} {a : Node} {t : List Node}
    (h : t.length ≤ fuel) : consolidateLoop fuel (a :: t) = coalesce a t := by
  induction fuel generalizing a t with
  | zero =>
    obtain rfl := List.length_eq_zero_iff.mp (Nat.le_zero.mp h)
    rfl
  | succ fuel ih =>
    rw [consolidateLoop]
    cases hm : mergeFirst (a :: t) with
    | none => exact (coalesce_of_mergeFirst_eq_none hm).symm
    | some l =>
      have hlen := length_of_mergeFirst hm
      obtain ⟨a', t', rfl, -, hpass⟩ := coalesce_of_mergeFirst_eq_some hm
      simp only [List.length_cons] at hlen
      exact (ih (by omega)).trans hpass

theorem consolidate_cons (a : Node) (t : List Node) : consolidate (a :: t) = coalesce a t :=
  consolidateLoop_eq_coalesce (by simp)

/-! ## Exactness -/

/-- The list is canonical, stays inside the 32-bit space and covers exactly `free`. -/
structure Exact (list : List Node) (free : Set ℕ) : Prop where
  canonical : Canonical list
  bounded : ∀ r ∈ list, r.stop ≤ uint32Max
  cover_eq : cover list = free

theorem apart_iff {a b : Node} : Apart a b ↔ a.stop + 1 < b.start := by
  constructor
  · rintro ⟨x, hax, hxb⟩
    omega
  · intro h
    exact ⟨a.stop + 1, by omega, h⟩

theorem touches_iff {a b : Node} (ha : a.stop < uint32Max) :
    Touches a b ↔ b.start ≤ a.stop + 1 := by
  have hu : u32 (a.stop + 1) = a.stop + 1 := Nat.mod_eq_of_lt (by unfold uint32Max at ha; omega)
  rw [Touches, hu]

theorem not_touches_of_apart {a b : Node} (h : Apart a b) (hb : b.start ≤ uint32Max) :
    ¬Touches a b := by
  rw [apart_iff] at h
  rw [touches_iff (by omega)]
  omega

/-! ## Deallocation -/

/-- The part of the list above the new node, as `place` leaves it. -/
def interleave (new : Node) : List Node → List Node
  | [] => []
  | current :: rest => new :: current :: interleave new rest

/-- `l` is exact for `free` and nothing in it starts below `bound`. -/
structure ExactAbove (bound : ℕ) (l : List Node) (free : Set ℕ) : Prop extends Exact l free where
  le_start : ∀ r ∈ l, bound ≤ r.start

theorem ExactAbove.cons {bound : ℕ} {a : Node} {l : List Node} {free : Set ℕ}
    (hl : ExactAbove bound l free) (ha : a.start ≤ a.stop) (hgap : a.stop + 1 < bound)
    (hb : a.stop ≤ uint32Max) : ExactAbove a.start (a :: l) (a.toSet ∪ free) := by
  refine ⟨⟨canonical_cons.mpr ⟨ha, fun r hr ↦ ?_, hl.canonical⟩, ?_, ?_⟩, ?_⟩
  · exact apart_iff.mpr (hgap.trans_le (hl.le_start r hr))
  · intro r hr
    rcases List.mem_cons.mp hr with rfl | hr
    · exact hb
    · exact hl.bounded r hr
  · rw [cover_cons, hl.cover_eq]
  · intro r hr
    rcases List.mem_cons.mp hr with rfl | hr
    · exact le_rfl
    · have := hl.le_start r hr
      omega

theorem exactAbove_singleton {a : Node} (ha : a.start ≤ a.stop) (hb : a.stop ≤ uint32Max) :
    ExactAbove a.start [a] a.toSet := by
  refine ⟨⟨canonical_cons.mpr ⟨ha, by simp, canonical_nil⟩, ?_, by simp⟩, ?_⟩
  · simpa using hb
  · simp

/-- Merging two touching nodes, the left of which starts first, loses and invents nothing. -/
theorem toSet_merge {a b : Node} (hstart : a.start ≤ b.start) (htouch : b.start ≤ a.stop + 1) :
    (merge a b).toSet = a.toSet ∪ b.toSet := by
  ext x
  simp only [merge, mem_toSet, Set.mem_union]
  omega

/-- The pass over the nodes above the new one. `current` has already absorbed the new node, or is
one of the nodes behind it; either way the next copy of the new node disappears into it. -/
theorem coalesce_interleave {new : Node} (current : Node) {cs : List Node}
    (hnew : new.start ≤ new.stop) (hnewb : new.stop < uint32Max)
    (hcur : current.start ≤ current.stop) (hcurb : current.stop ≤ uint32Max)
    (hle : new.stop ≤ current.stop) (hcs : Canonical cs) (hcsb : ∀ c ∈ cs, c.stop ≤ uint32Max)
    (hstart : ∀ c ∈ cs, current.start ≤ c.start)
    (hsep : current.stop = new.stop ∨ ∀ c ∈ cs, Apart current c) :
    ExactAbove current.start (coalesce current (interleave new cs))
      (current.toSet ∪ cover cs) := by
  induction cs generalizing current with
  | nil =>
    rw [interleave, coalesce, cover_nil, Set.union_empty]
    exact exactAbove_singleton hcur hcurb
  | cons c cs ih =>
    obtain ⟨hc, hcap, hcs'⟩ := canonical_cons.mp hcs
    have hcb : c.stop ≤ uint32Max := hcsb c List.mem_cons_self
    have hcsb' : ∀ d ∈ cs, d.stop ≤ uint32Max := fun d hd ↦ hcsb d (List.mem_cons_of_mem _ hd)
    have hcc : current.start ≤ c.start := hstart c List.mem_cons_self
    have hlt : current.stop < uint32Max := by
      rcases hsep with h | h
      · omega
      · have := apart_iff.mp (h c List.mem_cons_self)
        omega
    have htouch : Touches current new := (touches_iff hlt).mpr (by omega)
    have hmerge : merge current new = current := by
      rw [merge, max_eq_left hle]
    rw [interleave, coalesce, if_pos htouch, hmerge, coalesce]
    split
    · next htc =>
      rw [touches_iff hlt] at htc
      have hset := toSet_merge hcc htc
      -- either the node was inside the part the new node covers, or it now sets the end
      have hsep' : (merge current c).stop = new.stop ∨ ∀ d ∈ cs, Apart (merge current c) d := by
        have heq : current.stop = new.stop := by
          rcases hsep with h | h
          · exact h
          · have := apart_iff.mp (h c List.mem_cons_self)
            omega
        rcases le_total c.stop current.stop with hle' | hle'
        · exact Or.inl (by rw [merge, max_eq_left hle', heq])
        · refine Or.inr fun d hd ↦ ?_
          have := apart_iff.mp (hcap d hd)
          exact apart_iff.mpr (by rw [merge, max_eq_right hle']; exact this)
      have hstart' : ∀ d ∈ cs, (merge current c).start ≤ d.start :=
        fun d hd ↦ hstart d (List.mem_cons_of_mem _ hd)
      have hrest := @ih (merge current c) (le_trans hcur (le_max_left _ _))
        (max_le hcurb hcb) (le_trans hle (le_max_left _ _)) hcs' hcsb' hstart' hsep'
      rw [hset, Set.union_assoc] at hrest
      rw [cover_cons]
      exact hrest
    · next htc =>
      rw [touches_iff hlt] at htc
      have hstart' : ∀ d ∈ cs, c.start ≤ d.start := fun d hd ↦ by
        have := (hcap d hd).lt
        omega
      have hrest := @ih c hc hcb (by omega) hcs' hcsb' hstart' (Or.inr hcap)
      rw [cover_cons]
      exact hrest.cons hcur (by omega) hcurb

/-- A node that reaches the new one and already ends behind it swallows the next copy. -/
theorem coalesce_absorb {new current : Node} (rest : List Node) (hlt : current.stop < uint32Max)
    (hle : new.stop ≤ current.stop) (hstart : new.start ≤ current.stop + 1) :
    coalesce current (new :: rest) = coalesce current rest := by
  rw [coalesce, if_pos ((touches_iff hlt).mpr hstart), merge, max_eq_left hle]

/-- No node of the list contains the new one. -/
def Uncontained (new : Node) (l : List Node) : Prop :=
  ∀ c ∈ l, ¬(c.start ≤ new.start ∧ new.stop ≤ c.stop)

theorem Uncontained.tail {new c : Node} {l : List Node} (h : Uncontained new (c :: l)) :
    Uncontained new l := fun d hd ↦ h d (List.mem_cons_of_mem _ hd)

theorem place_above {new : Node} {l : List Node} (hun : Uncontained new l)
    (h : ∀ c ∈ l, new.start ≤ c.start) : place new l = (interleave new l, false) := by
  induction l with
  | nil => rfl
  | cons c l ih =>
    have hrest := ih hun.tail fun d hd ↦ h d (List.mem_cons_of_mem _ hd)
    rw [place, if_neg (hun c List.mem_cons_self), if_pos (h c List.mem_cons_self), hrest,
      interleave]

/-- The walk stops at the node that contains the new one, before anything was linked in. -/
theorem place_of_contained {new : Node} {l : List Node} (hl : Canonical l)
    (hc : ∃ c ∈ l, c.start ≤ new.start ∧ new.stop ≤ c.stop) : place new l = (l, true) := by
  induction l with
  | nil => simp at hc
  | cons a l ih =>
    obtain ⟨hane, hap, hl'⟩ := canonical_cons.mp hl
    rw [place]
    split
    · rfl
    · next hna =>
      obtain ⟨c, hmem, hcs⟩ := hc
      rcases List.mem_cons.mp hmem with rfl | hmem
      · exact absurd hcs hna
      · have hlt := (hap c hmem).lt
        rw [if_neg (by omega), ih hl' ⟨c, hmem, hcs⟩]

/-- Everything above the new node, when the nodes below it play no part. -/
theorem coalesce_new {new y : Node} {ys : List Node} (hnew : new.start ≤ new.stop)
    (hnewb : new.stop < uint32Max) (hl : Canonical (y :: ys))
    (hb : ∀ c ∈ y :: ys, c.stop ≤ uint32Max) (hy : ∀ c ∈ y :: ys, new.start ≤ c.start) :
    ExactAbove new.start (coalesce new (y :: interleave new ys))
      (new.toSet ∪ cover (y :: ys)) := by
  have h := coalesce_interleave new hnew hnewb hnew hnewb.le le_rfl hl hb hy (Or.inl rfl)
  rwa [interleave, coalesce_absorb _ hnewb le_rfl (by omega)] at h

theorem start_le_of_canonical_cons {y c : Node} {ys : List Node} (hl : Canonical (y :: ys))
    (hc : c ∈ y :: ys) : y.start ≤ c.start := by
  obtain ⟨hy, hap, -⟩ := canonical_cons.mp hl
  rcases List.mem_cons.mp hc with rfl | hc
  · exact le_rfl
  · have := (hap c hc).lt
    omega

/-- The whole pass: the nodes below the new one are kept, the last of them takes the new one in if
it reaches it, and the rest is `coalesce_interleave`. -/
theorem coalesce_place {new x : Node} {xs : List Node} (hnew : new.start ≤ new.stop)
    (hnewb : new.stop < uint32Max) (hl : Canonical (x :: xs))
    (hb : ∀ c ∈ x :: xs, c.stop ≤ uint32Max) (hx : x.start < new.start)
    (hun : Uncontained new (x :: xs)) (hab : ∃ y ∈ xs, new.start ≤ y.start) :
    ExactAbove x.start (coalesce x (place new xs).1) (new.toSet ∪ cover (x :: xs)) ∧
      (place new xs).2 = false := by
  induction xs generalizing x with
  | nil => simp at hab
  | cons y ys ih =>
    obtain ⟨hxne, hap, hl'⟩ := canonical_cons.mp hl
    have hxy := apart_iff.mp (hap y List.mem_cons_self)
    have hyb : y.stop ≤ uint32Max := hb y (by simp)
    have hyne : y.start ≤ y.stop := hl'.nonempty y List.mem_cons_self
    have hb' : ∀ c ∈ y :: ys, c.stop ≤ uint32Max := fun c hc ↦ hb c (List.mem_cons_of_mem _ hc)
    by_cases hy : new.start ≤ y.start
    · have hall : ∀ c ∈ y :: ys, new.start ≤ c.start := fun c hc ↦
        hy.trans (start_le_of_canonical_cons hl' hc)
      rw [place_above hun.tail hall, interleave]
      refine ⟨?_, rfl⟩
      have hxun := hun x List.mem_cons_self
      rw [coalesce]
      split
      · next htouch =>
        rw [touches_iff (by omega)] at htouch
        have hstop : (merge x new).stop = new.stop := max_eq_right (by omega)
        have hset := toSet_merge hx.le htouch
        have h := coalesce_interleave (merge x new) hnew hnewb
          (hxne.trans (le_max_left _ _)) (hstop.le.trans hnewb.le) hstop.ge hl' hb'
          (fun c hc ↦ hx.le.trans (hall c hc)) (Or.inl hstop)
        have hreach : new.start ≤ (merge x new).stop + 1 := by omega
        rw [interleave, coalesce_absorb _ (hstop.trans_lt hnewb) hstop.ge hreach, hset] at h
        rw [cover_cons x, Set.union_left_comm, ← Set.union_assoc]
        exact h
      · next htouch =>
        rw [touches_iff (by omega)] at htouch
        have h := (coalesce_new hnew hnewb hl' hb' hall).cons hxne (by omega)
          (hb x List.mem_cons_self)
        rw [cover_cons x, Set.union_left_comm]
        exact h
    · have hab' : ∃ z ∈ ys, new.start ≤ z.start := by
        obtain ⟨z, hz, hzs⟩ := hab
        rcases List.mem_cons.mp hz with rfl | hz
        · exact absurd hzs hy
        · exact ⟨z, hz, hzs⟩
      obtain ⟨h, hfalse⟩ := ih hl' hb' (not_le.mp hy) hun.tail hab'
      rw [place, if_neg (hun.tail y List.mem_cons_self), if_neg hy]
      refine ⟨?_, hfalse⟩
      have hnot := not_touches_of_apart (hap y List.mem_cons_self) (hyne.trans hyb)
      rw [coalesce, if_neg hnot, cover_cons x, Set.union_left_comm]
      exact h.cons hxne hxy (hb x List.mem_cons_self)

/-- The deallocations that reach neither of the two slips: the range exists, and either it is free
already, or some node starts at or above it and it stops short of the last byte, or it is the whole
space and meets a single node that starts at zero. -/
def DeallocateOk (list : List Node) (addr size : ℕ) : Prop :=
  0 < size ∧ addr + size ≤ 2 ^ 32 ∧
    ((∃ n ∈ list, n.start ≤ addr ∧ addr + size ≤ n.stop + 1) ∨
      ((∃ n ∈ list, addr ≤ n.start) ∧ addr + size < 2 ^ 32) ∨
      (addr = 0 ∧ list.map ClosedRange.start = [0]))

theorem u32_add_pred {addr size : ℕ} (hpos : 0 < size) (hfit : addr + size ≤ 2 ^ 32) :
    u32 (addr + size + (2 ^ 32 - 1)) = addr + size - 1 := by
  have h : addr + size + (2 ^ 32 - 1) = addr + size - 1 + 2 ^ 32 := by omega
  rw [u32, h, Nat.add_mod_right, Nat.mod_eq_of_lt (by omega)]

theorem toSet_eq_Ico {addr size : ℕ} (hpos : 0 < size) :
    (⟨addr, addr + size - 1⟩ : Node).toSet = Set.Ico addr (addr + size) := by
  ext x
  simp only [mem_toSet, Set.mem_Ico]
  omega

theorem exact_consolidate_place {list : List Node} {free : Set ℕ} {new : Node}
    (h : Exact list free) (hnew : new.start ≤ new.stop) (hnewb : new.stop < uint32Max)
    (hun : Uncontained new list) (hab : ∃ n ∈ list, new.start ≤ n.start) :
    Exact (consolidate (place new list).1) (free ∪ new.toSet) ∧ (place new list).2 = false := by
  obtain ⟨hcan, hb, rfl⟩ := h
  rw [Set.union_comm]
  cases list with
  | nil => simp at hab
  | cons x xs =>
    by_cases hx : new.start ≤ x.start
    · have hall : ∀ c ∈ x :: xs, new.start ≤ c.start := fun c hc ↦
        hx.trans (start_le_of_canonical_cons hcan hc)
      rw [place_above hun hall, interleave, consolidate_cons]
      exact ⟨(coalesce_new hnew hnewb hcan hb hall).toExact, rfl⟩
    · have hab' : ∃ y ∈ xs, new.start ≤ y.start := by
        obtain ⟨y, hy, hys⟩ := hab
        rcases List.mem_cons.mp hy with rfl | hy
        · exact absurd hys hx
        · exact ⟨y, hy, hys⟩
      rw [place, if_neg (hun x List.mem_cons_self), if_neg hx, consolidate_cons]
      obtain ⟨hex, hfalse⟩ := coalesce_place hnew hnewb hcan hb (not_le.mp hx) hun hab'
      exact ⟨hex.toExact, hfalse⟩

/-- **Deallocation.** -/
theorem exact_deallocate {list list' : List Node} {free : Set ℕ} {addr size : ℕ}
    (h : Exact list free) (hok : DeallocateOk list addr size)
    (hret : deallocate list addr size = .ok list') :
    Exact list' (free ∪ Set.Ico addr (addr + size)) := by
  obtain ⟨hpos, hfit, hcase⟩ := hok
  rw [deallocate] at hret
  split at hret
  · cases hret
  · simp only [u32_add_pred hpos hfit, Except.ok.injEq] at hret
    rw [← toSet_eq_Ico hpos]
    set new : Node := ⟨addr, addr + size - 1⟩ with hnew
    by_cases hcont : ∃ c ∈ list, c.start ≤ new.start ∧ new.stop ≤ c.stop
    · rw [place_of_contained h.canonical hcont, if_pos rfl] at hret
      subst hret
      obtain ⟨c, hc, hlo, hhi⟩ := hcont
      have hsub : new.toSet ⊆ free := by
        intro x hx
        rw [← h.cover_eq]
        exact ⟨c, hc, hlo.trans hx.1, hx.2.trans hhi⟩
      rwa [Set.union_eq_self_of_subset_right hsub]
    · have hun : Uncontained new list := fun c hc hcs ↦ hcont ⟨c, hc, hcs⟩
      have hne : new.start ≤ new.stop := by simp only [hnew]; omega
      rcases hcase with ⟨n, hn, hlo, hhi⟩ | ⟨hab, hlt⟩ | ⟨hzero, hstarts⟩
      · exact absurd ⟨n, hn, hlo, by simp only [hnew]; omega⟩ hcont
      · have hnewb : new.stop < uint32Max := by simp only [hnew, uint32Max]; omega
        obtain ⟨hex, hfalse⟩ := exact_consolidate_place h hne hnewb hun hab
        rw [hfalse, if_neg Bool.false_ne_true] at hret
        exact hret ▸ hex
      · -- the wrapped `end + 1` is zero here, which the only node does not start above
        obtain ⟨n, rfl, hns⟩ := List.map_eq_singleton_iff.mp hstarts
        have hnb : n.stop ≤ uint32Max := h.bounded n (by simp)
        have hall : ∀ c ∈ [n], new.start ≤ c.start := by simp [hnew, hzero]
        have htouch : Touches new n := by rw [Touches, hns]; exact Nat.zero_le _
        rw [place_above hun hall, if_neg Bool.false_ne_true, interleave, interleave,
          consolidate_cons, coalesce, if_pos htouch, coalesce] at hret
        have hset : (merge new n).toSet = new.toSet ∪ n.toSet :=
          toSet_merge (by simp [hnew, hzero, hns]) (by omega)
        have hstop : (merge new n).stop ≤ uint32Max :=
          max_le (by simp only [hnew, uint32Max]; omega) hnb
        have hex := exactAbove_singleton (a := merge new n) (hne.trans (le_max_left _ _)) hstop
        rw [← h.cover_eq, cover_cons, cover_nil, Set.union_empty, Set.union_comm, ← hset]
        exact hret ▸ hex.toExact

/-! ## Allocation -/

theorem exists_of_breakOff {list list' : List Node} {addr endAddr : ℕ}
    (h : breakOff addr endAddr list = some list') :
    ∃ n ∈ list, n.start ≤ addr ∧ endAddr ≤ n.stop := by
  induction list generalizing list' with
  | nil => simp [breakOff] at h
  | cons c l ih =>
    by_cases hc : c.start ≤ addr ∧ endAddr ≤ c.stop
    · exact ⟨c, List.mem_cons_self, hc⟩
    · rw [breakOff, if_neg (by omega), if_neg (by omega), if_neg (by omega),
        if_neg (by omega)] at h
      obtain ⟨m, hm, -⟩ := Option.map_eq_some_iff.mp h
      obtain ⟨n, hn, hns⟩ := ih hm
      exact ⟨n, List.mem_cons_of_mem _ hn, hns⟩

/-- What breaking a range off leaves: the same space without the range, in nodes that start no
lower than the old ones did. -/
theorem exactAbove_breakOff {list list' : List Node} (bound : ℕ) {addr endAddr : ℕ}
    (hcan : Canonical list) (hb : ∀ r ∈ list, r.stop ≤ uint32Max)
    (hbound : ∀ r ∈ list, bound ≤ r.start) (hle : addr ≤ endAddr)
    (h : breakOff addr endAddr list = some list') :
    ExactAbove bound list' (cover list \ Set.Icc addr endAddr) := by
  induction list generalizing list' bound with
  | nil => simp [breakOff] at h
  | cons c l ih =>
    obtain ⟨hc, hap, hl⟩ := canonical_cons.mp hcan
    have hcb : c.stop ≤ uint32Max := hb c List.mem_cons_self
    have hb' : ∀ r ∈ l, r.stop ≤ uint32Max := fun r hr ↦ hb r (List.mem_cons_of_mem _ hr)
    have hcbound : bound ≤ c.start := hbound c List.mem_cons_self
    -- the rest of the list, seen from a node that ends where `c` does
    have hrest : ExactAbove (c.stop + 2) l (cover l) := by
      refine ⟨⟨hl, hb', rfl⟩, fun r hr ↦ ?_⟩
      have := apart_iff.mp (hap r hr)
      omega
    have hu : endAddr < c.stop → u32 (endAddr + 1) = endAddr + 1 := fun hlt ↦
      Nat.mod_eq_of_lt (by unfold uint32Max at hcb; omega)
    have hout : ∀ {a b : ℕ}, b ≤ c.stop → cover l \ Set.Icc a b = cover l := by
      intro a b hab
      refine sdiff_eq_left.mpr (Set.disjoint_left.mpr ?_)
      rintro x ⟨r, hr, hxr⟩ hx
      have := apart_iff.mp (hap r hr)
      simp only [mem_toSet, Set.mem_Icc] at hx hxr
      omega
    rw [breakOff] at h
    rw [cover_cons, Set.union_sdiff_distrib]
    split at h
    · next heq =>
      obtain rfl := Option.some.inj h
      have hempty : c.toSet \ Set.Icc addr endAddr = ∅ := by
        rw [heq.1, heq.2]
        exact Set.sdiff_self
      rw [hempty, Set.empty_union, hout heq.2.le]
      exact ⟨hrest.toExact, fun r hr ↦ by have := hrest.le_start r hr; omega⟩
    · split at h
      · next heq =>
        obtain rfl := Option.some.inj h
        have hset : c.toSet \ Set.Icc addr endAddr = (⟨c.start, addr - 1⟩ : Node).toSet := by
          ext x
          simp only [Set.mem_sdiff, mem_toSet, Set.mem_Icc]
          omega
        rw [hset, hout heq.2.le]
        have h' := hrest.cons (a := ⟨c.start, addr - 1⟩) (by simp only; omega)
          (by simp only; omega) (by simp only; omega)
        exact ⟨h'.toExact, fun r hr ↦ hcbound.trans (h'.le_start r hr)⟩
      · split at h
        · next heq =>
          obtain rfl := Option.some.inj h
          rw [hu heq.2]
          have hset : c.toSet \ Set.Icc addr endAddr = (⟨endAddr + 1, c.stop⟩ : Node).toSet := by
            ext x
            simp only [Set.mem_sdiff, mem_toSet, Set.mem_Icc]
            omega
          rw [hset, hout heq.2.le]
          have h' := hrest.cons (a := ⟨endAddr + 1, c.stop⟩) (by simp only; omega)
            (by simp only; omega) hcb
          refine ⟨h'.toExact, fun r hr ↦ ?_⟩
          have := h'.le_start r hr
          simp only at this
          omega
        · split at h
          · next heq =>
            obtain rfl := Option.some.inj h
            rw [hu heq.2]
            have hset : c.toSet \ Set.Icc addr endAddr
                = (⟨c.start, addr - 1⟩ : Node).toSet ∪ (⟨endAddr + 1, c.stop⟩ : Node).toSet := by
              ext x
              simp only [Set.mem_sdiff, Set.mem_union, mem_toSet, Set.mem_Icc]
              omega
            rw [hset, hout heq.2.le, Set.union_assoc]
            have h₂ := hrest.cons (a := ⟨endAddr + 1, c.stop⟩) (by simp only; omega)
              (by simp only; omega) hcb
            have h₁ := h₂.cons (a := ⟨c.start, addr - 1⟩) (by simp only; omega)
              (by simp only; omega) (by simp only; omega)
            exact ⟨h₁.toExact, fun r hr ↦ hcbound.trans (h₁.le_start r hr)⟩
          · obtain ⟨m, hm, rfl⟩ := Option.map_eq_some_iff.mp h
            obtain ⟨n, hn, hlo, -⟩ := exists_of_breakOff hm
            have hcn := apart_iff.mp (hap n hn)
            have hkeep : c.toSet \ Set.Icc addr endAddr = c.toSet := by
              refine sdiff_eq_left.mpr (Set.disjoint_left.mpr fun x hx hx' ↦ ?_)
              simp only [mem_toSet, Set.mem_Icc] at hx hx'
              omega
            rw [hkeep]
            have h' := (ih _ hl hb' hrest.le_start hm).cons hc (by omega) hcb
            exact ⟨h'.toExact, fun r hr ↦ hcbound.trans (h'.le_start r hr)⟩

/-- The allocations at a given address that name a range of the 32-bit space. Without an address
the range is always one. -/
def AllocateOk (addr size : ℕ) : Prop := addr = 0 ∨ (0 < size ∧ addr + size ≤ 2 ^ 32)

/-- The free space after `allocate`, as its reply describes it. -/
def freeAfter (free : Set ℕ) (size : ℕ) : Reply → Set ℕ
  | .address addr => free \ Set.Ico addr (addr + size)
  | .enomem => free

theorem u64_add_pred (addr size : ℕ) (hpos : 0 < addr + size) (hfit : addr + size ≤ 2 ^ 32) :
    u64 (addr + size + (2 ^ 64 - 1)) = addr + size - 1 := by
  have h : addr + size + (2 ^ 64 - 1) = addr + size - 1 + 2 ^ 64 := by omega
  rw [u64, h, Nat.add_mod_right, Nat.mod_eq_of_lt (by omega)]

theorem exact_allocateFixed {list list' : List Node} {free : Set ℕ} {addr size : ℕ}
    {reply : Reply} (h : Exact list free) (hpos : 0 < size) (hfit : addr + size ≤ 2 ^ 32)
    (hret : allocateFixed list addr size = .ok (reply, list')) :
    Exact list' (freeAfter free size reply) := by
  rw [allocateFixed, u64_add_pred addr size (by omega) hfit] at hret
  split at hret
  · cases hret
  · split at hret
    · cases hret
    · split at hret
      · next l hl =>
        simp only [Except.ok.injEq, Prod.mk.injEq] at hret
        obtain ⟨rfl, rfl⟩ := hret
        have h' := exactAbove_breakOff 0 h.canonical h.bounded
          (fun _ _ ↦ Nat.zero_le _) (by omega) hl
        have hIco : Set.Icc addr (addr + size - 1) = Set.Ico addr (addr + size) := by
          ext x
          simp only [Set.mem_Icc, Set.mem_Ico]
          omega
        rw [h.cover_eq, hIco] at h'
        exact h'.toExact
      · simp only [Except.ok.injEq, Prod.mk.injEq] at hret
        obtain ⟨rfl, rfl⟩ := hret
        exact h

theorem mem_of_findBest {size : ℕ} {list : List Node} {best : Node}
    (h : findBest size list = some best) : best ∈ list ∧ size ≤ curSize best := by
  have key : ∀ (l : List Node) (acc : Option Node × ℕ),
      (∀ b, acc.1 = some b → b ∈ list ∧ size ≤ curSize b) → (∀ c ∈ l, c ∈ list) →
        ∀ b, (l.foldl (updateBest size) acc).1 = some b → b ∈ list ∧ size ≤ curSize b := by
    intro l
    induction l with
    | nil => exact fun acc hacc _ ↦ hacc
    | cons c l ih =>
      intro acc hacc hmem
      rw [List.foldl_cons]
      refine ih _ (fun b hb ↦ ?_) fun d hd ↦ hmem d (List.mem_cons_of_mem _ hd)
      rw [updateBest] at hb
      split at hb
      · next hc =>
        obtain rfl := Option.some.inj hb
        exact ⟨hmem _ List.mem_cons_self, hc.1⟩
      · exact hacc b hb
  exact key list (none, uint32Max) (by simp) (fun _ hc ↦ hc) best h

/-- Breaking nothing off the front of a node leaves the list as it was. -/
theorem breakOff_start_pred {list : List Node} {best : Node} (hcan : Canonical list)
    (hb : ∀ r ∈ list, r.stop ≤ uint32Max) (hmem : best ∈ list) (hpos : best.start ≠ 0) :
    breakOff best.start (best.start - 1) list = some list := by
  induction list with
  | nil => simp at hmem
  | cons c l ih =>
    obtain ⟨hc, hap, hl⟩ := canonical_cons.mp hcan
    have hcb := hb c List.mem_cons_self
    rw [breakOff]
    rcases List.mem_cons.mp hmem with rfl | hmem
    · have hu : u32 (best.start - 1 + 1) = best.start := by
        rw [Nat.sub_add_cancel (Nat.one_le_iff_ne_zero.mpr hpos)]
        exact Nat.mod_eq_of_lt (by unfold uint32Max at hcb; omega)
      rw [if_neg (by omega), if_neg (by omega), if_pos ⟨rfl, by omega⟩, hu]
    · have hgap := apart_iff.mp (hap best hmem)
      rw [if_neg (by omega), if_neg (by omega), if_neg (by omega), if_neg (by omega),
        ih hl (fun r hr ↦ hb r (List.mem_cons_of_mem _ hr)) hmem, Option.map_some]

theorem curSize_eq {n : Node} (hn : n.start ≤ n.stop) (hb : n.stop ≤ uint32Max)
    (hpos : n.start ≠ 0) : curSize n = n.stop + 1 - n.start := by
  unfold uint32Max at hb
  unfold curSize u32
  omega

/-- **Allocation.** -/
theorem exact_allocate {list list' : List Node} {free : Set ℕ} {addr size : ℕ} {reply : Reply}
    (h : Exact list free) (hok : AllocateOk addr size)
    (hret : allocate list addr size = .ok (reply, list')) :
    Exact list' (freeAfter free size reply) := by
  rw [allocate] at hret
  split at hret
  · cases hret
  · split at hret
    · next haddr =>
      obtain ⟨hpos, hfit⟩ := hok.resolve_left haddr
      exact exact_allocateFixed h hpos hfit hret
    · split at hret
      · simp only [Except.ok.injEq, Prod.mk.injEq] at hret
        obtain ⟨rfl, rfl⟩ := hret
        exact h
      · next best hbest =>
        split at hret
        · cases hret
        · next hstart =>
          obtain ⟨hmem, hsize⟩ := mem_of_findBest hbest
          have hne := h.canonical.nonempty best hmem
          have hbd := h.bounded best hmem
          rw [curSize_eq hne hbd hstart] at hsize
          have hmax : best.stop < 2 ^ 32 := by unfold uint32Max at hbd; omega
          rcases Nat.eq_zero_or_pos size with rfl | hpos
          · rw [allocateFixed, u64_add_pred best.start 0 (by omega) (by omega), Nat.add_zero,
              breakOff_start_pred h.canonical h.bounded hmem hstart] at hret
            split at hret
            · cases hret
            · split at hret
              · cases hret
              · simp only [Except.ok.injEq, Prod.mk.injEq] at hret
                obtain ⟨rfl, rfl⟩ := hret
                simpa [freeAfter] using h
          · exact exact_allocateFixed h hpos (by omega) hret

/-! ## Runs -/

/-- A call, with arguments of the source's types. -/
inductive Call
  | allocate (addr : Fin (2 ^ 32)) (size : Fin (2 ^ 64))
  | deallocate (addr : Fin (2 ^ 32)) (size : Fin (2 ^ 64))

/-- The list, and the space that should be free: what was free at first, minus every allocated
range, plus every range given back. -/
structure State where
  list : List Node
  free : Set ℕ

def State.initial (mmapMinAddr : ℕ) : State :=
  ⟨Freelist.initial mmapMinAddr, Set.Icc (u32 mmapMinAddr) uint32Max⟩

/-- A call that returned. A call that failed an `ASSERT` or overflowed the stack has no next
state. -/
def Step (s : State) : Call → State → Prop
  | .allocate addr size, t => ∃ reply, Freelist.allocate s.list addr size = .ok (reply, t.list) ∧
      t.free = freeAfter s.free size reply
  | .deallocate addr size, t => Freelist.deallocate s.list addr size = .ok t.list ∧
      t.free = s.free ∪ Set.Ico addr.val (addr + size)

/-- The calls that reach none of the slips of the two functions. -/
def CallOk (s : State) : Call → Prop
  | .allocate addr size => AllocateOk addr size
  | .deallocate addr size => DeallocateOk s.list addr size

theorem exact_initial (mmapMinAddr : ℕ) :
    Exact (State.initial mmapMinAddr).list (State.initial mmapMinAddr).free := by
  have hle : u32 mmapMinAddr ≤ uint32Max := by unfold u32 uint32Max; omega
  exact (exactAbove_singleton (a := ⟨u32 mmapMinAddr, uint32Max⟩) hle le_rfl).toExact

theorem exact_step {s t : State} {call : Call} (h : Exact s.list s.free)
    (hstep : Guarded CallOk Step s call t) : Exact t.list t.free := by
  obtain ⟨hok, hstep⟩ := hstep
  cases call with
  | allocate addr size =>
    obtain ⟨reply, hret, hfree⟩ := hstep
    exact hfree ▸ exact_allocate h hok hret
  | deallocate addr size =>
    obtain ⟨hret, hfree⟩ := hstep
    exact hfree ▸ exact_deallocate h hok hret

/-- **The freelist is exact** after every run of calls that all name a range of the 32-bit space
and whose deallocations meet `DeallocateOk`. -/
theorem exact_of_run {mmapMinAddr : ℕ} {calls : List Call} {t : State}
    (hrun : Run (Guarded CallOk Step) (State.initial mmapMinAddr) calls t) :
    Exact t.list t.free :=
  hrun.invariant (I := fun s ↦ Exact s.list s.free) (exact_initial mmapMinAddr)
    fun _ _ _ h hstep ↦ exact_step h hstep

/-- The law is not empty: two pages are taken from the middle of the space and the first of them is
given back. -/
theorem exact_of_run_middle : ∃ t : State, t.list = [⟨0x10000, 0x20FFF⟩, ⟨0x22000, uint32Max⟩] ∧
    Exact t.list t.free := by
  let s₁ : State := ⟨[⟨0x10000, 0x1FFFF⟩, ⟨0x22000, uint32Max⟩],
    Set.Icc (u32 0x10000) uint32Max \ Set.Ico 0x20000 (0x20000 + 0x2000)⟩
  let s₂ : State := ⟨[⟨0x10000, 0x20FFF⟩, ⟨0x22000, uint32Max⟩],
    s₁.free ∪ Set.Ico 0x20000 (0x20000 + 0x1000)⟩
  have h₁ : Guarded CallOk Step (State.initial 0x10000) (.allocate 0x20000 0x2000) s₁ :=
    ⟨Or.inr (by decide), .address 0x20000, by decide, rfl⟩
  have h₂ : Guarded CallOk Step s₁ (.deallocate 0x20000 0x1000) s₂ := by
    refine ⟨⟨by decide, by decide, Or.inr (Or.inl ⟨?_, by decide⟩)⟩, by decide +kernel, rfl⟩
    exact ⟨⟨0x22000, uint32Max⟩, List.mem_cons_of_mem _ List.mem_cons_self, by decide⟩
  exact ⟨s₂, rfl, exact_of_run ((Run.single h₁).snoc h₂)⟩

/-- Without the condition the law fails: the last page of the space is allocated and given back,
no node starts at or above it, and it is lost. -/
theorem not_exact_last_page : ¬∀ (mmapMinAddr : ℕ) (calls : List Call) (t : State),
    Run Step (State.initial mmapMinAddr) calls t → Exact t.list t.free := by
  intro h
  let s₁ : State := ⟨[⟨0x10000, 0xFFFFEFFF⟩],
    Set.Icc (u32 0x10000) uint32Max \ Set.Ico 0xFFFFF000 (0xFFFFF000 + 0x1000)⟩
  let s₂ : State := ⟨[⟨0x10000, 0xFFFFEFFF⟩],
    s₁.free ∪ Set.Ico 0xFFFFF000 (0xFFFFF000 + 0x1000)⟩
  have h₁ : Step (State.initial 0x10000) (.allocate 0xFFFFF000 0x1000) s₁ :=
    ⟨.address 0xFFFFF000, by decide, rfl⟩
  have h₂ : Step s₁ (.deallocate 0xFFFFF000 0x1000) s₂ := ⟨by decide, rfl⟩
  have hexact := h 0x10000 _ s₂ ((Run.single h₁).snoc h₂)
  have hfree : 0xFFFFF000 ∈ s₂.free := Or.inr ⟨le_rfl, by decide⟩
  rw [← hexact.cover_eq] at hfree
  obtain ⟨r, hr, hlo, hhi⟩ := hfree
  obtain rfl := List.mem_singleton.mp hr
  simp at hhi

end Freelist

end Felix86
