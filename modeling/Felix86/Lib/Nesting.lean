import Felix86.Lib.Run
import Mathlib.Data.List.Induction

/-!
# Properly nested runs

Labels that open, labels that close, and words over them in which every opening is closed. A machine
that pushes when it opens and pops when it closes has the same stack before and after such a word.
-/

namespace Felix86

variable {σ ι φ : Type*}

/-- Words in which every opening label is closed, in order. -/
inductive Balanced (opens closes : ι → Prop) : List ι → Prop
  | nil : Balanced opens closes []
  | plain {i : ι} {is : List ι} :
      ¬opens i → ¬closes i → Balanced opens closes is → Balanced opens closes (i :: is)
  | bracket {i j : ι} {is js : List ι} :
      opens i → Balanced opens closes is → closes j → Balanced opens closes js →
        Balanced opens closes (i :: is ++ j :: js)

namespace Run

variable {step : σ → ι → σ → Prop} {s t : σ} {is js : List ι} {i : ι}

/-- A run over a word in two parts passes through a state between them. -/
theorem split (h : Run step s (is ++ js) t) : ∃ u, Run step s is u ∧ Run step u js t := by
  induction js using List.reverseRecOn generalizing t with
  | nil => exact ⟨t, by simpa using h, .nil t⟩
  | append_singleton js j ih =>
    rw [← List.append_assoc] at h
    generalize hw : is ++ js ++ [j] = w at h
    cases h with
    | nil => simp at hw
    | snoc hrun hlast =>
      obtain ⟨rfl, rfl⟩ := List.append_singleton_inj.mp hw
      obtain ⟨u, hfirst, hrest⟩ := ih hrun
      exact ⟨u, hfirst, .snoc hrest hlast⟩

theorem eq_of_nil (h : Run step s [] t) : s = t := by
  generalize hw : ([] : List ι) = w at h
  cases h with
  | nil => rfl
  | snoc => simp at hw

theorem of_single (h : Run step s [i] t) : step s i t := by
  generalize hw : [i] = w at h
  cases h with
  | nil => simp at hw
  | snoc hrun hlast =>
    rw [← List.nil_append [i]] at hw
    obtain ⟨rfl, rfl⟩ := List.append_singleton_inj.mp hw
    rwa [eq_of_nil hrun]

theorem of_cons (h : Run step s (i :: is) t) : ∃ u, step s i u ∧ Run step u is t := by
  rw [← List.singleton_append] at h
  obtain ⟨u, hfirst, hrest⟩ := h.split
  exact ⟨u, of_single hfirst, hrest⟩

end Run

/-- A properly nested run leaves the stack as it found it. -/
theorem Balanced.stack_eq {opens closes : ι → Prop} {step : σ → ι → σ → Prop} {s t : σ}
    {is : List ι} {stack : σ → List φ}
    (hplain : ∀ s i t, ¬opens i → ¬closes i → step s i t → stack t = stack s)
    (hopens : ∀ s i t, opens i → step s i t → ∃ f, stack t = f :: stack s)
    (hcloses : ∀ s i t, closes i → step s i t → ∃ f, stack s = f :: stack t)
    (h : Balanced opens closes is) (hrun : Run step s is t) : stack t = stack s := by
  induction h generalizing s t with
  | nil => rw [hrun.eq_of_nil]
  | plain hi hi' _ ih =>
    obtain ⟨u, hstep, hrest⟩ := hrun.of_cons
    rw [ih hrest, hplain _ _ _ hi hi' hstep]
  | bracket hi _ hj _ ih₁ ih₂ =>
    obtain ⟨u, hopen, hrest⟩ := Run.of_cons hrun
    obtain ⟨v, hinside, hrest⟩ := hrest.split
    obtain ⟨w, hclose, hrest⟩ := hrest.of_cons
    obtain ⟨f, hf⟩ := hopens _ _ _ hi hopen
    obtain ⟨g, hg⟩ := hcloses _ _ _ hj hclose
    have hpop : g :: stack w = f :: stack s := by rw [← hg, ih₁ hinside, hf]
    rw [ih₂ hrest]
    exact List.tail_eq_of_cons_eq hpop

end Felix86
