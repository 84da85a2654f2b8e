import Mathlib.Order.Interval.Set.Basic

/-!
# Lists of closed ranges

A set of addresses is kept in the program as a list of nodes with inclusive bounds. This file has
the set such a list denotes, `cover`, and the normal form the program aims at, `Canonical`: every
node is nonempty and between two consecutive nodes at least one point is left out. Nothing here
depends on the points being addresses, so the points are those of any linear order.
-/

namespace Felix86

/-- A range with inclusive bounds, `start` first. Nothing forces `start ≤ stop`. -/
structure ClosedRange (α : Type*) where
  start : α
  stop : α
deriving DecidableEq, Repr

namespace ClosedRange

variable {α : Type*} [LinearOrder α]

/-- The points of one range. -/
def toSet (r : ClosedRange α) : Set α := Set.Icc r.start r.stop

@[simp] theorem mem_toSet {r : ClosedRange α} {x : α} :
    x ∈ r.toSet ↔ r.start ≤ x ∧ x ≤ r.stop := Iff.rfl

/-- `a` ends before `b` starts and some point lies strictly between them. -/
def Apart (a b : ClosedRange α) : Prop := ∃ x, a.stop < x ∧ x < b.start

theorem Apart.lt {a b : ClosedRange α} (h : Apart a b) : a.stop < b.start := by
  obtain ⟨x, hax, hxb⟩ := h
  exact hax.trans hxb

/-- The points covered by a list of ranges. -/
def cover (l : List (ClosedRange α)) : Set α := {x | ∃ r ∈ l, x ∈ r.toSet}

theorem mem_cover {l : List (ClosedRange α)} {x : α} :
    x ∈ cover l ↔ ∃ r ∈ l, r.start ≤ x ∧ x ≤ r.stop := Iff.rfl

@[simp] theorem cover_nil : cover ([] : List (ClosedRange α)) = ∅ := by
  ext x
  simp [mem_cover]

@[simp] theorem cover_cons (r : ClosedRange α) (l : List (ClosedRange α)) :
    cover (r :: l) = r.toSet ∪ cover l := by
  ext x
  simp [mem_cover]

@[simp] theorem cover_append (l₁ l₂ : List (ClosedRange α)) :
    cover (l₁ ++ l₂) = cover l₁ ∪ cover l₂ := by
  ext x
  simp only [mem_cover, List.mem_append, Set.mem_union]
  constructor
  · rintro ⟨r, hr | hr, hx⟩
    · exact Or.inl ⟨r, hr, hx⟩
    · exact Or.inr ⟨r, hr, hx⟩
  · rintro (⟨r, hr, hx⟩ | ⟨r, hr, hx⟩)
    · exact ⟨r, Or.inl hr, hx⟩
    · exact ⟨r, Or.inr hr, hx⟩

/-- Sorted, pairwise disjoint and non-adjacent, with no empty node. -/
structure Canonical (l : List (ClosedRange α)) : Prop where
  apart : l.Pairwise Apart
  nonempty : ∀ r ∈ l, r.start ≤ r.stop

theorem canonical_nil : Canonical ([] : List (ClosedRange α)) :=
  ⟨List.Pairwise.nil, fun _ hr ↦ absurd hr List.not_mem_nil⟩

theorem canonical_cons {r : ClosedRange α} {l : List (ClosedRange α)} :
    Canonical (r :: l) ↔ r.start ≤ r.stop ∧ (∀ b ∈ l, Apart r b) ∧ Canonical l := by
  constructor
  · rintro ⟨hap, hne⟩
    rw [List.pairwise_cons] at hap
    exact ⟨hne r List.mem_cons_self, hap.1, hap.2, fun b hb ↦ hne b (List.mem_cons_of_mem _ hb)⟩
  · rintro ⟨hr, hap, hl⟩
    refine ⟨List.pairwise_cons.mpr ⟨hap, hl.apart⟩, fun b hb ↦ ?_⟩
    rcases List.mem_cons.mp hb with rfl | hb
    · exact hr
    · exact hl.nonempty b hb

/-! ## A set has one canonical list -/

/-- The head of a canonical list starts at the least point covered. -/
theorem Canonical.start_le {r : ClosedRange α} {l : List (ClosedRange α)} (h : Canonical (r :: l))
    {x : α} (hx : x ∈ cover (r :: l)) : r.start ≤ x := by
  obtain ⟨hr, hap, -⟩ := canonical_cons.mp h
  obtain ⟨b, hb, hbx, -⟩ := hx
  rcases List.mem_cons.mp hb with rfl | hb
  · exact hbx
  · exact (hr.trans (hap b hb).lt.le).trans hbx

theorem Canonical.start_mem {r : ClosedRange α} {l : List (ClosedRange α)}
    (h : Canonical (r :: l)) : r.start ∈ cover (r :: l) :=
  ⟨r, List.mem_cons_self, le_rfl, h.nonempty r List.mem_cons_self⟩

/-- Nothing that is covered without a gap from the head's start on goes past the head's stop. -/
theorem Canonical.le_stop {r : ClosedRange α} {l : List (ClosedRange α)} (h : Canonical (r :: l))
    {x : α} (hx : Set.Icc r.start x ⊆ cover (r :: l)) : x ≤ r.stop := by
  obtain ⟨hr, hap, hl⟩ := canonical_cons.mp h
  by_contra hlt
  rw [not_le] at hlt
  have hxl : x ∈ cover l := by
    have := hx ⟨hr.trans hlt.le, le_rfl⟩
    rw [cover_cons] at this
    exact this.resolve_left fun hin ↦ absurd hin.2 (not_le.mpr hlt)
  cases l with
  | nil => simp at hxl
  | cons c l =>
    -- the point left out between the head and its successor
    obtain ⟨gap, hrgap, hgapc⟩ := hap c List.mem_cons_self
    have hcx : c.start ≤ x := hl.start_le hxl
    have hgap := hx ⟨hr.trans hrgap.le, (hgapc.trans_le hcx).le⟩
    rw [cover_cons] at hgap
    rcases hgap with hgap | hgap
    · exact absurd hgap.2 (not_le.mpr hrgap)
    · exact absurd (hl.start_le hgap) (not_le.mpr hgapc)

theorem Canonical.cover_tail {r : ClosedRange α} {l : List (ClosedRange α)}
    (h : Canonical (r :: l)) : cover l = cover (r :: l) \ r.toSet := by
  obtain ⟨-, hap, -⟩ := canonical_cons.mp h
  have hdisj : Disjoint (cover l) r.toSet := by
    refine Set.disjoint_left.mpr fun x ⟨b, hb, hbx, _⟩ hr ↦ ?_
    exact absurd ((hap b hb).lt.trans_le hbx) (not_lt.mpr hr.2)
  rw [cover_cons, Set.union_sdiff_left, hdisj.sdiff_eq_left]

theorem Canonical.stop_le_of_cover_eq {a b : ClosedRange α} {t r : List (ClosedRange α)}
    (ha : Canonical (a :: t)) (hcover : cover (a :: t) = cover (b :: r))
    (hstart : a.start = b.start) : b.stop ≤ a.stop := by
  refine ha.le_stop fun x hx ↦ ?_
  rw [hcover]
  exact ⟨b, List.mem_cons_self, hstart ▸ hx.1, hx.2⟩

/-- **A set has at most one canonical list.** -/
theorem Canonical.eq_of_cover_eq {l₁ l₂ : List (ClosedRange α)} (h₁ : Canonical l₁)
    (h₂ : Canonical l₂) (hcover : cover l₁ = cover l₂) : l₁ = l₂ := by
  induction l₁ generalizing l₂ with
  | nil =>
    cases l₂ with
    | nil => rfl
    | cons b r => exact absurd (hcover ▸ h₂.start_mem) (by simp)
  | cons a t ih =>
    cases l₂ with
    | nil => exact absurd (hcover ▸ h₁.start_mem) (by simp)
    | cons b r =>
      have hstart : a.start = b.start :=
        le_antisymm (h₁.start_le (hcover ▸ h₂.start_mem)) (h₂.start_le (hcover ▸ h₁.start_mem))
      have hstop : a.stop = b.stop :=
        le_antisymm (h₂.stop_le_of_cover_eq hcover.symm hstart.symm)
          (h₁.stop_le_of_cover_eq hcover hstart)
      have hab : a = b := by
        cases a
        cases b
        simp only at hstart hstop
        rw [hstart, hstop]
      subst hab
      have htail : cover t = cover r := by rw [h₁.cover_tail, h₂.cover_tail, hcover]
      rw [ih (canonical_cons.mp h₁).2.2 (canonical_cons.mp h₂).2.2 htail]

end ClosedRange

end Felix86
