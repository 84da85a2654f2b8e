import Mathlib.Data.List.Infix

/-!
# Lists in one list

A separator joins lists to one, and splitting at the separator gives the lists back if none of them
contains it. Without that condition splitting gives the pieces of each list. A pattern without the
separator occurs in the joined list exactly when it occurs in a piece, so a filter that looks for a
pattern can be compared before and after.
-/

namespace Felix86

namespace Delimited

open List

variable {α : Type*} {sep : α} {pattern s s' : List α} {pieces strings : List (List α)}

/-! ## Joining -/

/-- A separator after each list is one separator too many. -/
theorem foldl_append_sep (start : List α) :
    strings.foldl (fun acc s ↦ acc ++ s ++ [sep]) start =
      start ++ strings.flatMap (· ++ [sep]) := by
  induction strings generalizing start with
  | nil => simp
  | cons s rest ih => rw [foldl_cons, ih, flatMap_cons, append_assoc, append_assoc, append_assoc]

theorem dropLast_flatMap_append_sep (h : strings ≠ []) :
    (strings.flatMap (· ++ [sep])).dropLast = [sep].intercalate strings := by
  induction strings with
  | nil => exact absurd rfl h
  | cons s rest ih =>
    rcases eq_or_ne rest [] with rfl | hrest
    · simp
    · have hne : rest.flatMap (· ++ [sep]) ≠ [] := by
        obtain ⟨t, rest, rfl⟩ := exists_cons_of_ne_nil hrest
        simp
      rw [flatMap_cons, dropLast_append_of_ne_nil hne, ih hrest, intercalate_cons_of_ne_nil hrest]

/-! ## Patterns -/

theorem prefix_of_prefix_append_sep (hp : sep ∉ pattern) (h : pattern <+: s ++ sep :: s') :
    pattern <+: s := by
  rcases prefix_or_prefix_of_prefix h (prefix_append s (sep :: s')) with h' | ⟨t, rfl⟩
  · exact h'
  · -- what of the pattern is beyond `s` starts with the separator
    rw [prefix_append_right_inj, prefix_cons_iff] at h
    rcases h with rfl | ⟨u, rfl, -⟩
    · simp
    · simp at hp

/-- A pattern without the separator is on one side of it. -/
theorem infix_append_sep_iff (hp : sep ∉ pattern) :
    pattern <:+: s ++ sep :: s' ↔ pattern <:+: s ∨ pattern <:+: s' := by
  constructor
  · intro h
    induction s with
    | nil =>
      rcases infix_cons_iff.1 h with h | h
      · exact .inl (prefix_of_prefix_append_sep hp (s := []) h).isInfix
      · exact .inr h
    | cons x s ih =>
      rcases infix_cons_iff.1 h with h | h
      · exact .inl (prefix_of_prefix_append_sep hp (s := x :: s) h).isInfix
      · exact (ih h).imp_left fun h ↦ infix_cons_iff.2 (.inr h)
  · rintro (h | h)
    · exact h.trans (prefix_append s _).isInfix
    · exact h.trans ((suffix_cons sep s').trans (suffix_append s _)).isInfix

theorem infix_intercalate_iff (hp : sep ∉ pattern) (h : pieces ≠ []) :
    pattern <:+: [sep].intercalate pieces ↔ ∃ piece ∈ pieces, pattern <:+: piece := by
  induction pieces with
  | nil => exact absurd rfl h
  | cons piece rest ih =>
    rcases eq_or_ne rest [] with rfl | hrest
    · simp
    · rw [intercalate_cons_of_ne_nil hrest, append_assoc, singleton_append, infix_append_sep_iff hp,
        ih hrest, exists_mem_cons_iff]

/-! ## Splitting -/

variable [DecidableEq α]

/-- Splitting gives the pieces of each of the joined lists. -/
theorem splitOn_intercalate_eq_flatMap (h : strings ≠ []) :
    ([sep].intercalate strings).splitOn sep = strings.flatMap (·.splitOn sep) := by
  induction strings with
  | nil => exact absurd rfl h
  | cons s rest ih =>
    rcases eq_or_ne rest [] with rfl | hrest
    · simp
    · rw [intercalate_cons_of_ne_nil hrest, append_assoc, singleton_append,
        splitOn_append_cons_self, ih hrest, flatMap_cons]

theorem splitOn_eq_singleton_iff : s.splitOn sep = [s] ↔ sep ∉ s := by
  constructor
  · intro h hmem
    obtain ⟨a, b, rfl⟩ := append_of_mem hmem
    have hlength := congrArg length h
    rw [splitOn_append_cons_self, length_append, length_singleton] at hlength
    have ha := length_pos_iff.2 (splitOn_ne_nil sep a)
    have hb := length_pos_iff.2 (splitOn_ne_nil sep b)
    omega
  · exact splitOn_eq_singleton

theorem infix_iff_exists_piece (hp : sep ∉ pattern) :
    pattern <:+: s ↔ ∃ piece ∈ s.splitOn sep, pattern <:+: piece := by
  rw [← infix_intercalate_iff hp (splitOn_ne_nil sep s), intercalate_splitOn]

/-! ## Filters -/

/-- The lists without the pattern. -/
def without (pattern : List α) (strings : List (List α)) : List (List α) :=
  strings.filter fun s ↦ ¬ pattern <:+: s

theorem without_append (strings strings' : List (List α)) :
    without pattern (strings ++ strings') = without pattern strings ++ without pattern strings' :=
  filter_append _ _

theorem without_eq_self (h : ∀ s ∈ strings, ¬ pattern <:+: s) : without pattern strings = strings :=
  filter_eq_self.2 fun s hs ↦ decide_eq_true (h s hs)

theorem without_eq_nil_iff : without pattern strings = [] ↔ ∀ s ∈ strings, pattern <:+: s := by
  simp [without, filter_eq_nil_iff]

/-- Nothing is lost of a list without the pattern. -/
theorem without_splitOn (hp : sep ∉ pattern) (h : ¬ pattern <:+: s) :
    without pattern (s.splitOn sep) = s.splitOn sep := by
  refine without_eq_self fun piece hpiece hinfix ↦ h ?_
  exact (infix_iff_exists_piece hp).2 ⟨piece, hpiece, hinfix⟩

theorem length_without_le (hp : sep ∉ pattern) (s : List α) :
    (without pattern [s]).length ≤ (without pattern (s.splitOn sep)).length := by
  by_cases h : pattern <:+: s
  · simp [without, h]
  · rw [without_splitOn hp h, without_eq_self (by simpa using h)]
    exact length_pos_iff.2 (splitOn_ne_nil sep s)

/-- One list comes back if it does not contain the separator, or if nothing is to come back. -/
theorem without_splitOn_eq_iff (hp : sep ∉ pattern) :
    without pattern (s.splitOn sep) = without pattern [s] ↔
      sep ∉ s ∨ ∀ piece ∈ s.splitOn sep, pattern <:+: piece := by
  by_cases h : pattern <:+: s
  · have hnone : without pattern [s] = [] := without_eq_nil_iff.2 (by simpa using h)
    rw [hnone, without_eq_nil_iff]
    refine ⟨.inr, fun h' ↦ h'.elim (fun hsep ↦ ?_) id⟩
    simpa [splitOn_eq_singleton hsep] using h
  · have hself : without pattern [s] = [s] := without_eq_self (by simpa using h)
    rw [without_splitOn hp h, hself, splitOn_eq_singleton_iff]
    refine ⟨.inl, fun h' ↦ h'.elim id fun hall ↦ ?_⟩
    obtain ⟨piece, hpiece⟩ := exists_mem_of_ne_nil _ (splitOn_ne_nil sep s)
    exact absurd ((infix_iff_exists_piece hp).2 ⟨piece, hpiece, hall piece hpiece⟩) h

/-- Lists come back, up to those with the pattern, exactly when each of them does. -/
theorem without_flatMap_splitOn_eq_iff (hp : sep ∉ pattern) :
    without pattern (strings.flatMap (·.splitOn sep)) = without pattern strings ↔
      ∀ s ∈ strings, sep ∉ s ∨ ∀ piece ∈ s.splitOn sep, pattern <:+: piece := by
  have hle : ∀ rest : List (List α), (without pattern rest).length ≤
      (without pattern (rest.flatMap (·.splitOn sep))).length := by
    intro rest
    induction rest with
    | nil => simp [without]
    | cons s rest ih =>
      rw [← singleton_append, without_append, singleton_append, flatMap_cons, without_append,
        length_append, length_append]
      exact Nat.add_le_add (length_without_le hp s) ih
  induction strings with
  | nil => simp [without]
  | cons s rest ih =>
    rw [forall_mem_cons, ← without_splitOn_eq_iff hp, flatMap_cons, without_append,
      ← singleton_append (x := s), without_append]
    constructor
    · intro h
      -- both parts are at least as long as what they are compared with
      have hlength := congrArg length h
      rw [length_append, length_append] at hlength
      have hs := length_without_le hp s
      have hrest := hle rest
      obtain ⟨hs, hrest⟩ := append_inj h (by omega)
      exact ⟨hs, ih.1 hrest⟩
    · rintro ⟨hs, hrest⟩
      rw [hs, ih.2 hrest]

end Delimited

end Felix86
