import Mathlib.Logic.Relation

/-!
# Paths through structured code

Code as the set of paths through it: a sequence, a choice of two continuations, or a loop, over
atoms that are the single instructions. What an instruction does is a relation `step`, so a test is
an atom whose step is a restriction of the identity. `Ends` says how a path can leave the code and
`Reaches` which instruction it can stand at on the way, also on a path that never leaves a loop.

A `Triple` bounds both: from a state with the precondition every instruction is reached in a state
that is `ok` for it, and every end has the postcondition.
-/

namespace Felix86

/-- Structured code over the instructions `α`. -/
inductive Paths (α : Type*)
  | nil
  | atom (a : α)
  | seq (p q : Paths α)
  | either (p q : Paths α)
  | star (p : Paths α)

namespace Paths

variable {α σ : Type*} (step : α → σ → σ → Prop)

/-- Some path through the code leads from one state to the other. -/
def Ends : Paths α → σ → σ → Prop
  | nil, s, t => s = t
  | atom a, s, t => step a s t
  | seq p q, s, t => ∃ u, Ends p s u ∧ Ends q u t
  | either p q, s, t => Ends p s t ∨ Ends q s t
  | star p, s, t => Relation.ReflTransGen (Ends p) s t

/-- Some path from `s` arrives at the instruction `a` in the state `t`. -/
def Reaches : Paths α → σ → α → σ → Prop
  | nil, _, _, _ => False
  | atom b, s, a, t => b = a ∧ s = t
  | seq p q, s, a, t => Reaches p s a t ∨ ∃ u, Ends step p s u ∧ Reaches q u a t
  | either p q, s, a, t => Reaches p s a t ∨ Reaches q s a t
  | star p, s, a, t => ∃ u, Relation.ReflTransGen (Ends step p) s u ∧ Reaches p u a t

variable (ok : α → σ → Prop)

/-- From a state with `I` every instruction is reached in a state that is `ok` for it, and every
path out of the code ends with `J`. -/
def Triple (I : σ → Prop) (p : Paths α) (J : σ → Prop) : Prop :=
  ∀ s, I s → (∀ a t, Reaches step p s a t → ok a t) ∧ ∀ t, Ends step p s t → J t

variable {step ok} {I J K : σ → Prop} {p q : Paths α} {a : α}

theorem Triple.nil (h : ∀ s, I s → J s) : Triple step ok I nil J := by
  intro s hs
  refine ⟨fun a t hr ↦ hr.elim, ?_⟩
  rintro t rfl
  exact h s hs

theorem Triple.atom (hok : ∀ s, I s → ok a s) (h : ∀ s t, I s → step a s t → J t) :
    Triple step ok I (atom a) J := by
  intro s hs
  constructor
  · rintro b t ⟨rfl, rfl⟩
    exact hok s hs
  · intro t ht
    exact h s t hs ht

theorem Triple.seq (hp : Triple step ok I p J) (hq : Triple step ok J q K) :
    Triple step ok I (seq p q) K := by
  intro s hs
  obtain ⟨hreach, hends⟩ := hp s hs
  constructor
  · rintro a t (hr | ⟨u, hu, hr⟩)
    · exact hreach a t hr
    · exact (hq u (hends u hu)).1 a t hr
  · rintro t ⟨u, hu, ht⟩
    exact (hq u (hends u hu)).2 t ht

theorem Triple.either (hp : Triple step ok I p J) (hq : Triple step ok I q J) :
    Triple step ok I (either p q) J := by
  intro s hs
  constructor
  · rintro a t (hr | hr)
    · exact (hp s hs).1 a t hr
    · exact (hq s hs).1 a t hr
  · rintro t (ht | ht)
    · exact (hp s hs).2 t ht
    · exact (hq s hs).2 t ht

/-- The rule of the loop: what every round keeps holds at every arrival at its label. -/
theorem Triple.star (hp : Triple step ok I p I) : Triple step ok I (star p) I := by
  intro s hs
  have hrounds : ∀ t, Relation.ReflTransGen (Ends step p) s t → I t := by
    intro t ht
    induction ht with
    | refl => exact hs
    | tail _ hround ih => exact (hp _ ih).2 _ hround
  constructor
  · rintro a t ⟨u, hu, hr⟩
    exact (hp u (hrounds u hu)).1 a t hr
  · exact hrounds

theorem Triple.mono {I' J' : σ → Prop} (h : Triple step ok I p J) (hI : ∀ s, I' s → I s)
    (hJ : ∀ s, J s → J' s) : Triple step ok I' p J' := by
  intro s hs
  obtain ⟨hreach, hends⟩ := h s (hI s hs)
  exact ⟨hreach, fun t ht ↦ hJ t (hends t ht)⟩

end Paths

end Felix86
