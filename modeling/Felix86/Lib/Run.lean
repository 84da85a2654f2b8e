import Mathlib.Data.Set.Basic
import Mathlib.Data.List.Basic

/-!
# Runs of a labelled transition relation

Every component of the emulator that keeps state between calls is modelled as a relation
`step : σ → ι → σ → Prop`, where the label `ι` carries the call together with whatever its
environment decides (the reply of the kernel, the block being compiled). A run is a list of labels.

Most of the laws proved about these systems hold only along runs whose steps avoid some defect of
the code, so the guard is part of the vocabulary: `Guarded ok step` is `step` restricted to the
labels that are `ok` in the state they are taken from.
-/

namespace Felix86

variable {σ ι : Type*}

/-- `Run step s is t`: taking the labels `is` in order leads from `s` to `t`. -/
inductive Run (step : σ → ι → σ → Prop) : σ → List ι → σ → Prop
  | nil (s : σ) : Run step s [] s
  | snoc {s t u : σ} {is : List ι} {i : ι} :
      Run step s is t → step t i u → Run step s (is ++ [i]) u

/-- The steps of `step` whose label is acceptable in the state it is taken from. -/
def Guarded (ok : σ → ι → Prop) (step : σ → ι → σ → Prop) (s : σ) (i : ι) (t : σ) : Prop :=
  ok s i ∧ step s i t

namespace Run

variable {step : σ → ι → σ → Prop} {s t u : σ} {is js : List ι} {i : ι}

/-- What holds at the start and is kept by every step holds at the end of every run. -/
theorem invariant {I : σ → Prop} (hrun : Run step s is t) (hs : I s)
    (hstep : ∀ s i t, I s → step s i t → I t) : I t := by
  induction hrun with
  | nil => exact hs
  | snoc _ hlast ih => exact hstep _ _ _ ih hlast

/-- A run whose steps are guarded is a run. -/
theorem of_guarded {ok : σ → ι → Prop} (hrun : Run (Guarded ok step) s is t) : Run step s is t := by
  induction hrun with
  | nil => exact .nil _
  | snoc _ hlast ih => exact ih.snoc hlast.2

theorem single (h : step s i t) : Run step s [i] t := by
  have hrun : Run step s ([] ++ [i]) t := snoc (nil s) h
  simpa using hrun

theorem trans (h₁ : Run step s is t) (h₂ : Run step t js u) : Run step s (is ++ js) u := by
  induction h₂ with
  | nil => simpa using h₁
  | snoc _ hlast ih =>
    rw [← List.append_assoc]
    exact snoc ih hlast

theorem cons (h : step s i t) (hrun : Run step t is u) : Run step s (i :: is) u :=
  (single h).trans hrun

end Run

/-- What holds before a loop that may stop early and is kept by every round holds after it. -/
theorem foldlM_invariant {α β : Type*} {f : β → α → Option β} {I : β → Prop} {l : List α} {b c : β}
    (h : l.foldlM f b = some c) (hb : I b)
    (hstep : ∀ a ∈ l, ∀ b c, I b → f b a = some c → I c) : I c := by
  induction l generalizing b with
  | nil =>
    obtain rfl := Option.some.inj h
    exact hb
  | cons a l ih =>
    rw [List.foldlM_cons] at h
    obtain ⟨d, hd, hrest⟩ := Option.bind_eq_some_iff.mp h
    refine ih hrest (hstep a List.mem_cons_self b d hb hd) fun x hx ↦ ?_
    exact hstep x (List.mem_cons_of_mem _ hx)

end Felix86
