import Felix86.Common.FreelistExact
import Mathlib.Logic.Relation

/-!
# Consolidation by itself

`FreelistExact` follows `consolidate` on the lists that `deallocate` builds from an exact list. This
file takes it by itself: which sorted lists does it bring into canonical form?

Nothing is assumed of the nodes except the order of their starts. They may overlap, touch, contain
each other, and even end before they start, as a deallocation of size zero makes them.

Two things stand between a list and its canonical form. `end + 1` is a `u32`, so a node that ends at
the last address touches only nodes that start at zero and the nodes it overlaps stay in the list.
And a node that ends before it starts covers nothing, so it has to disappear into a neighbour.
`Clean` says that neither occurs.

## The shape of the argument

The set of covered addresses is kept on every list. For the form, `coalesce a t` is canonical if and
only if `a :: t` is clean, by induction on `t`: where the first two nodes touch, merging them
changes neither side, and where they do not touch, both sides split into a statement about the first
node and the statement about the rest.
-/

namespace Felix86

namespace Freelist

open ClosedRange

/-! ## Lists and their canonical form -/

/-- In the order of the starts. -/
def Sorted (l : List Node) : Prop := l.Pairwise fun a b ↦ a.start ≤ b.start

instance (l : List Node) : Decidable (Sorted l) := inferInstanceAs (Decidable (List.Pairwise _ _))

/-- A linked list as `consolidate` may find it. -/
structure SortedNodes where
  list : List Node
  sorted : Sorted list
  bounded : ∀ n ∈ list, n.start ≤ uint32Max ∧ n.stop ≤ uint32Max

/-- One turn of the `do` loop that sets `changed`. -/
def Round (l l' : List Node) : Prop := mergeFirst l = some l'

/-- What `consolidate` is for: the loop ends, and with the canonical list of the same addresses. -/
structure Consolidates (l : List Node) : Prop where
  /-- The result is what the loop has reached when its test fails. -/
  reached : Relation.ReflTransGen Round l (consolidate l)
  ended : ∀ l', ¬Round (consolidate l) l'
  cover_eq : cover (consolidate l) = cover l
  canonical : Canonical (consolidate l)
  unique : ∀ l', Canonical l' → cover l' = cover l → l' = consolidate l
  again : consolidate (consolidate l) = consolidate l

/-- Some node `before` overlaps `n` or ends right before it. -/
def Reached (before : List Node) (n : Node) : Prop := ∃ p ∈ before, n.start ≤ p.stop + 1

instance (before : List Node) (n : Node) : Decidable (Reached before n) :=
  inferInstanceAs (Decidable (∃ p ∈ before, n.start ≤ p.stop + 1))

/-- Some node `after` covers the address that `n` starts at and ends right before. -/
def Replaced (n : Node) (after : List Node) : Prop :=
  n.start = n.stop + 1 ∧ ∃ q ∈ after, q.start = n.start ∧ q.start ≤ q.stop

instance (n : Node) (after : List Node) : Decidable (Replaced n after) :=
  inferInstanceAs (Decidable (_ ∧ ∃ q ∈ after, q.start = n.start ∧ q.start ≤ q.stop))

/-- The condition on a node between those `before` and those `after` it. -/
structure CleanNode (before : List Node) (n : Node) (after : List Node) : Prop where
  /-- A node that ends at the last address is followed only by nodes that start at zero. -/
  last : n.stop = uint32Max → ∀ b ∈ after, b.start = 0
  /-- A node that covers nothing is merged into one that does. -/
  empty : n.stop < n.start → Reached before n ∨ Replaced n after

instance (before : List Node) (n : Node) (after : List Node) :
    Decidable (CleanNode before n after) :=
  decidable_of_iff ((n.stop = uint32Max → ∀ b ∈ after, b.start = 0) ∧
    (n.stop < n.start → Reached before n ∨ Replaced n after))
    ⟨fun h ↦ ⟨h.1, h.2⟩, fun h ↦ ⟨h.last, h.empty⟩⟩

def CleanAfter : List Node → List Node → Prop
  | _, [] => True
  | before, n :: after => CleanNode before n after ∧ CleanAfter (n :: before) after

instance CleanAfter.decidable : (before l : List Node) → Decidable (CleanAfter before l)
  | _, [] => inferInstanceAs (Decidable True)
  | before, n :: after =>
    have := CleanAfter.decidable (n :: before) after
    inferInstanceAs (Decidable (CleanNode before n after ∧ CleanAfter (n :: before) after))

/-- Every node of the list is clean where it stands. -/
def Clean (l : List Node) : Prop := CleanAfter [] l

instance (l : List Node) : Decidable (Clean l) := inferInstanceAs (Decidable (CleanAfter [] l))

/-! ## The loop -/

theorem reflTransGen_consolidateLoop (fuel : ℕ) (l : List Node) :
    Relation.ReflTransGen Round l (consolidateLoop fuel l) := by
  induction fuel generalizing l with
  | zero => exact .refl
  | succ fuel ih =>
    rw [consolidateLoop]
    cases hm : mergeFirst l with
    | none => exact .refl
    | some l' => exact Relation.ReflTransGen.head hm (ih l')

/-- A round shortens the list, so the loop has ended after as many rounds as there are nodes. -/
theorem mergeFirst_consolidateLoop {fuel : ℕ} {l : List Node} (h : l.length ≤ fuel) :
    mergeFirst (consolidateLoop fuel l) = none := by
  induction fuel generalizing l with
  | zero =>
    obtain rfl := List.length_eq_zero_iff.mp (Nat.le_zero.mp h)
    rfl
  | succ fuel ih =>
    rw [consolidateLoop]
    cases hm : mergeFirst l with
    | none => exact hm
    | some l' =>
      have hlen := length_of_mergeFirst hm
      exact ih (by omega)

theorem mergeFirst_consolidate (l : List Node) : mergeFirst (consolidate l) = none :=
  mergeFirst_consolidateLoop le_rfl

theorem consolidateLoop_of_mergeFirst_eq_none {l : List Node} (h : mergeFirst l = none)
    (fuel : ℕ) : consolidateLoop fuel l = l := by
  cases fuel with
  | zero => rfl
  | succ fuel => rw [consolidateLoop, h]

theorem consolidate_consolidate (l : List Node) :
    consolidate (consolidate l) = consolidate l :=
  consolidateLoop_of_mergeFirst_eq_none (mergeFirst_consolidate l) _

/-! ## The addresses -/

theorem le_of_touches {a b : Node} (h : Touches a b) : b.start ≤ a.stop + 1 :=
  le_trans h (Nat.mod_le _ _)

theorem Sorted.tail {a : Node} {t : List Node} (h : Sorted (a :: t)) : Sorted t :=
  (List.pairwise_cons.mp h).2

theorem Sorted.start_le {a b : Node} {t : List Node} (h : Sorted (a :: t)) (hb : b ∈ t) :
    a.start ≤ b.start :=
  (List.pairwise_cons.mp h).1 b hb

/-- Merging keeps the start of the left node. -/
theorem Sorted.merge {a b : Node} {r : List Node} (h : Sorted (a :: b :: r)) :
    Sorted (Freelist.merge a b :: r) :=
  List.pairwise_cons.mpr ⟨fun _ hx ↦ h.start_le (List.mem_cons_of_mem _ hx), h.tail.tail⟩

theorem cover_coalesce {a : Node} {t : List Node} (h : Sorted (a :: t)) :
    cover (coalesce a t) = cover (a :: t) := by
  induction t generalizing a with
  | nil => rfl
  | cons b r ih =>
    rw [coalesce]
    split
    · next hab =>
      have hset := toSet_merge (h.start_le List.mem_cons_self) (le_of_touches hab)
      rw [ih h.merge, cover_cons, hset, cover_cons, cover_cons, Set.union_assoc]
    · rw [cover_cons, ih h.tail, ← cover_cons]

theorem start_le_of_mem_coalesce {a x : Node} {t : List Node} (h : Sorted (a :: t))
    (hx : x ∈ coalesce a t) : a.start ≤ x.start := by
  induction t generalizing a with
  | nil =>
    obtain rfl := List.mem_singleton.mp hx
    exact le_rfl
  | cons b r ih =>
    rw [coalesce] at hx
    split at hx
    · have hle : (merge a b).start ≤ x.start := ih h.merge hx
      exact hle
    · rcases List.mem_cons.mp hx with rfl | hx
      · exact le_rfl
      · exact (h.start_le List.mem_cons_self).trans (ih h.tail hx)

/-- The node that the pass puts first starts where the first node did. -/
theorem exists_start_eq_of_coalesce (a : Node) (t : List Node) :
    ∃ x ∈ coalesce a t, x.start = a.start := by
  induction t generalizing a with
  | nil => exact ⟨a, List.mem_singleton_self a, rfl⟩
  | cons b r ih =>
    rw [coalesce]
    split
    · exact ih (merge a b)
    · exact ⟨a, List.mem_cons_self, rfl⟩

/-! ## The form -/

@[simp] theorem not_reached_nil {n : Node} : ¬Reached [] n := by
  simp [Reached]

theorem reached_cons {p n : Node} {before : List Node} :
    Reached (p :: before) n ↔ n.start ≤ p.stop + 1 ∨ Reached before n := by
  simp [Reached]

theorem replaced_cons {n q : Node} {after : List Node} :
    Replaced n (q :: after) ↔
      n.start = n.stop + 1 ∧ q.start = n.start ∧ q.start ≤ q.stop ∨ Replaced n after := by
  simp only [Replaced, List.exists_mem_cons_iff]
  tauto

/-- Of the nodes before a list only how far they reach matters. -/
theorem cleanAfter_congr {before before' l : List Node}
    (h : ∀ n ∈ l, Reached before n ↔ Reached before' n) :
    CleanAfter before l ↔ CleanAfter before' l := by
  induction l generalizing before before' with
  | nil => exact Iff.rfl
  | cons n after ih =>
    have hn := h n List.mem_cons_self
    have hnode : CleanNode before n after ↔ CleanNode before' n after :=
      ⟨fun hc ↦ ⟨hc.last, fun he ↦ (hc.empty he).imp_left hn.mp⟩,
        fun hc ↦ ⟨hc.last, fun he ↦ (hc.empty he).imp_left hn.mpr⟩⟩
    have hrest : CleanAfter (n :: before) after ↔ CleanAfter (n :: before') after := by
      refine ih fun x hx ↦ ?_
      rw [reached_cons, reached_cons, h x (List.mem_cons_of_mem _ hx)]
    exact and_congr hnode hrest

theorem reached_merge {a b n : Node} : Reached [b, a] n ↔ Reached [merge a b] n := by
  simp only [reached_cons, not_reached_nil, or_false, merge]
  omega

/-- A node that touches its predecessor is never left over, so whether it is clean depends on its
end alone. -/
theorem cleanNode_of_touches {a b : Node} {before r : List Node} (h : Touches a b) :
    CleanNode (a :: before) b r ↔ (b.stop = uint32Max → ∀ x ∈ r, x.start = 0) :=
  ⟨CleanNode.last, fun hlast ↦ ⟨hlast, fun _ ↦ Or.inl (reached_cons.mpr (.inl (le_of_touches h)))⟩⟩

/-- A first node can only be replaced. -/
theorem cleanNode_nil {n : Node} {after : List Node} : CleanNode [] n after ↔
    (n.stop = uint32Max → ∀ b ∈ after, b.start = 0) ∧ (n.stop < n.start → Replaced n after) := by
  exact ⟨fun h ↦ ⟨h.last, fun he ↦ (h.empty he).resolve_left not_reached_nil⟩,
    fun h ↦ ⟨h.1, fun he ↦ Or.inr (h.2 he)⟩⟩

/-- Merging two nodes that touch decides nothing about whether what is left over is replaced. -/
theorem replaced_merge {a b : Node} {r : List Node} (hab : a.start ≤ b.start)
    (h : b.start ≤ a.stop + 1) :
    (a.stop < a.start → Replaced a (b :: r)) ↔
      ((merge a b).stop < (merge a b).start → Replaced (merge a b) r) := by
  rw [replaced_cons]
  by_cases ha : a.stop < a.start
  · by_cases hb : b.stop < b.start
    · have hmerge : merge a b = a := by rw [merge, max_eq_left (by omega)]
      have hnot : ¬(a.start = a.stop + 1 ∧ b.start = a.start ∧ b.start ≤ b.stop) := by omega
      rw [hmerge, or_iff_right hnot]
    · have hne : ¬(merge a b).stop < (merge a b).start := by
        simp only [merge]
        omega
      exact ⟨fun _ he ↦ absurd he hne, fun _ _ ↦ Or.inl (by omega)⟩
  · have hne : ¬(merge a b).stop < (merge a b).start := by
      simp only [merge]
      omega
    exact ⟨fun _ he ↦ absurd he hne, fun _ he ↦ absurd he ha⟩

/-- **The first two nodes touch.** The merged node is clean if and only if both of them are. -/
theorem cleanNode_merge {a b : Node} {r : List Node} (hsorted : Sorted (a :: b :: r))
    (ha : a.stop ≤ uint32Max) (hb : b.stop ≤ uint32Max) (h : Touches a b) :
    CleanNode [] a (b :: r) ∧ CleanNode [a] b r ↔ CleanNode [] (merge a b) r := by
  have hab : a.start ≤ b.start := hsorted.start_le List.mem_cons_self
  rw [cleanNode_nil, cleanNode_of_touches h, cleanNode_nil, List.forall_mem_cons]
  by_cases hmax : a.stop = uint32Max
  · -- the sum wraps: `b` touches because it starts at zero, and so does `a`
    have hb0 : b.start = 0 := by
      rw [Touches, hmax] at h
      exact Nat.le_zero.mp h
    have hmerge : (merge a b).stop = uint32Max := by rw [merge, hmax, max_eq_left hb]
    have hne : ¬a.stop < a.start := by omega
    have hm : ¬(merge a b).stop < (merge a b).start := by
      rw [hmerge]
      change ¬uint32Max < a.start
      omega
    constructor
    · rintro ⟨⟨hlast, -⟩, -⟩
      exact ⟨fun _ ↦ (hlast hmax).2, fun he ↦ absurd he hm⟩
    · rintro ⟨hlast, -⟩
      exact ⟨⟨fun _ ↦ ⟨hb0, hlast hmerge⟩, fun he ↦ absurd he hne⟩, fun _ ↦ hlast hmerge⟩
  · have hlast : (merge a b).stop = uint32Max ↔ b.stop = uint32Max := by
      simp only [merge]
      omega
    rw [hlast, ← replaced_merge hab (le_of_touches h)]
    tauto

/-- **The first two nodes do not touch.** Nothing behind them touches the first either, so it is
clean if and only if it can stand in a canonical list as it is. -/
theorem cleanNode_of_not_touches {a b : Node} {r : List Node} (hsorted : Sorted (a :: b :: r))
    (ha : a.stop ≤ uint32Max) (hb : b.start ≤ uint32Max) (h : ¬Touches a b) :
    CleanNode [] a (b :: r) ↔ a.start ≤ a.stop ∧ Apart a b := by
  rw [cleanNode_nil, apart_iff]
  by_cases hmax : a.stop = uint32Max
  · have hb0 : b.start ≠ 0 := fun hb0 ↦ h (by rw [Touches, hb0]; exact Nat.zero_le _)
    constructor
    · rintro ⟨hlast, -⟩
      exact absurd (hlast hmax b List.mem_cons_self) hb0
    · rintro ⟨-, hap⟩
      omega
  · have hgap : a.stop + 1 < b.start := by
      rw [touches_iff (by omega)] at h
      omega
    have hnot : ¬Replaced a (b :: r) := by
      rintro ⟨heq, q, hq, hqa, -⟩
      have hbq : b.start ≤ q.start := by
        rcases List.mem_cons.mp hq with rfl | hq
        · exact le_rfl
        · exact hsorted.tail.start_le hq
      omega
    constructor
    · rintro ⟨-, he⟩
      exact ⟨not_lt.mp fun hlt ↦ hnot (he hlt), hgap⟩
    · rintro ⟨hne, -⟩
      exact ⟨fun hm ↦ absurd hm hmax, fun hlt ↦ absurd hlt (not_lt.mpr hne)⟩

theorem clean_cons_of_apart {a b : Node} {r : List Node} (hsorted : Sorted (a :: b :: r))
    (h : Apart a b) : CleanAfter [a] (b :: r) ↔ Clean (b :: r) := by
  rw [apart_iff] at h
  refine cleanAfter_congr fun n hn ↦ ?_
  have hbn : b.start ≤ n.start := by
    rcases List.mem_cons.mp hn with rfl | hn
    · exact le_rfl
    · exact hsorted.tail.start_le hn
  rw [reached_cons, or_iff_right (by omega)]

/-- **The pass ends in canonical form exactly on the clean lists.** -/
theorem canonical_coalesce_iff {a : Node} {t : List Node} (hsorted : Sorted (a :: t))
    (hb : ∀ n ∈ a :: t, n.start ≤ uint32Max ∧ n.stop ≤ uint32Max) :
    Canonical (coalesce a t) ↔ Clean (a :: t) := by
  induction t generalizing a with
  | nil =>
    rw [coalesce, canonical_cons, Clean, CleanAfter, cleanNode_nil]
    simp [canonical_nil, CleanAfter, Replaced]
  | cons b r ih =>
    obtain ⟨⟨-, ha⟩, hbr⟩ := List.forall_mem_cons.mp hb
    obtain ⟨⟨hbs, hbe⟩, hr⟩ := List.forall_mem_cons.mp hbr
    rw [coalesce]
    split
    · next htouch =>
      have hm : ∀ n ∈ merge a b :: r, n.start ≤ uint32Max ∧ n.stop ≤ uint32Max :=
        List.forall_mem_cons.mpr ⟨⟨(hb a List.mem_cons_self).1, max_le ha hbe⟩, hr⟩
      rw [ih hsorted.merge hm, Clean, Clean, CleanAfter, CleanAfter, CleanAfter,
        ← cleanNode_merge hsorted ha hbe htouch, and_assoc,
        cleanAfter_congr fun _ _ ↦ reached_merge]
    · next htouch =>
      have hap : (∀ x ∈ coalesce b r, Apart a x) ↔ Apart a b := by
        obtain ⟨y, hy, hyb⟩ := exists_start_eq_of_coalesce b r
        constructor
        · intro h
          have := h y hy
          rwa [apart_iff, hyb, ← apart_iff] at this
        · intro h x hx
          exact apart_iff.mpr ((apart_iff.mp h).trans_le (start_le_of_mem_coalesce hsorted.tail hx))
      rw [canonical_cons, hap, ih hsorted.tail hbr, Clean, CleanAfter, ← and_assoc,
        ← cleanNode_of_not_touches hsorted ha hbs htouch]
      refine and_congr_right fun hclean ↦ ?_
      have := (cleanNode_of_not_touches hsorted ha hbs htouch).mp hclean
      exact (clean_cons_of_apart hsorted this.2).symm

theorem canonical_consolidate_iff (s : SortedNodes) :
    Canonical (consolidate s.list) ↔ Clean s.list := by
  obtain ⟨l, hsorted, hb⟩ := s
  cases l with
  | nil => exact ⟨fun _ ↦ trivial, fun _ ↦ canonical_nil⟩
  | cons a t => rw [consolidate_cons, canonical_coalesce_iff hsorted hb]

theorem cover_consolidate (s : SortedNodes) : cover (consolidate s.list) = cover s.list := by
  obtain ⟨l, hsorted, -⟩ := s
  cases l with
  | nil => rfl
  | cons a t => rw [consolidate_cons, cover_coalesce hsorted]

/-! ## The result -/

/-- **Consolidation.** It ends, keeps the addresses and gives the one canonical list of them exactly
on the clean lists. -/
theorem consolidates_iff (s : SortedNodes) : Consolidates s.list ↔ Clean s.list := by
  rw [← canonical_consolidate_iff]
  refine ⟨Consolidates.canonical, fun hcanonical ↦ ?_⟩
  refine ⟨reflTransGen_consolidateLoop _ _, fun l' h ↦ ?_, cover_consolidate s, hcanonical,
    fun l' hl' hcover ↦ ?_, consolidate_consolidate s.list⟩
  · rw [Round, mergeFirst_consolidate] at h
    cases h
  · exact hl'.eq_of_cover_eq hcanonical (hcover.trans (cover_consolidate s).symm)

/-- Nested, overlapping and adjacent nodes up to the last address are fine, and so is what a
deallocation of size zero leaves inside a node. -/
example : Clean [⟨0x1000, 0x4FFF⟩, ⟨0x2000, 0x2FFF⟩, ⟨0x3000, 0x2FFF⟩, ⟨0x4000, 0x7FFF⟩,
    ⟨0x8000, uint32Max⟩] := by decide

/-- The free page range `0x30000` to `0x3ffff`, when everything from `0x20000` to the end of the
space is given back. -/
def overlapping : SortedNodes where
  list := [⟨0x20000, uint32Max⟩, ⟨0x30000, 0x3FFFF⟩]
  sorted := by decide
  bounded := by decide

/-- It is the list that `deallocate` hands over. -/
example : place ⟨0x20000, uint32Max⟩ [⟨0x30000, 0x3FFFF⟩] = (overlapping.list, false) := by decide

/-- The first node covers the second one, and both stay. -/
theorem not_consolidates : ¬∀ s : SortedNodes, Consolidates s.list := by
  intro h
  have hap := (h overlapping).canonical.apart
  have hlist : consolidate overlapping.list = overlapping.list := by decide
  rw [hlist] at hap
  have := apart_iff.mp (List.rel_of_pairwise_cons hap List.mem_cons_self)
  simp [uint32Max] at this

end Freelist

end Felix86
