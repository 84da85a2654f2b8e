import Mathlib.Data.Set.Basic

/-!
# Loops that test after each round

`do x := body x while again x` as a relation between the state before and the state after it, so
that a loop that does not end is related to nothing. The rule for two loops asks for a relation
between the states at the start of a round and one between those at its end: what is only known
while the loop goes on can be used for the next round, and does not have to hold after the last one.
-/

namespace Felix86

variable {α β : Type*}

/-- From `x` the loop ends in `y`. -/
inductive Until (body : α → α) (again : α → Prop) : α → α → Prop
  | stop {x : α} (h : ¬again (body x)) : Until body again x (body x)
  | next {x y : α} (h : again (body x)) (hy : Until body again (body x) y) : Until body again x y

/-- From `x` the loop comes to a round that starts in `y`. -/
inductive Visited (body : α → α) (again : α → Prop) (x : α) : α → Prop
  | first : Visited body again x x
  | next {y : α} (hy : Visited body again x y) (h : again (body y)) : Visited body again x (body y)

variable {body : α → α} {again : α → Prop} {body' : β → β} {again' : β → Prop}

theorem Visited.cons {x y : α} (h : again (body x)) (hy : Visited body again (body x) y) :
    Visited body again x y := by
  induction hy with
  | first => exact .next .first h
  | next _ hagain ih => exact .next ih hagain

namespace Until

/-- Two loops whose rounds agree. `R` relates the states before a round and `Q` those after it. -/
theorem simulation {R Q : α → β → Prop} {x x₁ : α} {y : β} (h : Until body again x x₁) (hxy : R x y)
    (hbody : ∀ x' y', R x' y' → Visited body' again' y y' → Q (body x') (body' y'))
    (hagain : ∀ x' y', R x' y' → Q (body x') (body' y') → (again (body x') ↔ again' (body' y')))
    (hnext : ∀ x' y', R x' y' → Visited body' again' y y' → again' (body' y') →
      Q (body x') (body' y') → R (body x') (body' y')) :
    ∃ y₁, Until body' again' y y₁ ∧ Q x₁ y₁ := by
  induction h generalizing y with
  | @stop x h =>
    have hq := hbody x y hxy .first
    exact ⟨_, .stop fun h' ↦ h ((hagain x y hxy hq).mpr h'), hq⟩
  | @next x x₁ h hx ih =>
    have hq := hbody x y hxy .first
    have h' := (hagain x y hxy hq).mp h
    have hlater {y' : β} (hy' : Visited body' again' (body' y) y') : Visited body' again' y y' :=
      .cons h' hy'
    obtain ⟨y₁, hy₁, hq₁⟩ :=
      ih (hnext x y hxy .first h' hq) (fun x' y' hr hv ↦ hbody x' y' hr (hlater hv))
      fun x' y' hr hv ↦ hnext x' y' hr (hlater hv)
    exact ⟨y₁, .next h' hy₁, hq₁⟩

end Until

end Felix86
