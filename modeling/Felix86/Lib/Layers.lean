import Mathlib.Data.List.Basic

/-!
# Layers

A layer covers some places and puts something there. Of layers that are painted one over the other
the last one that covers a place is seen there, and where there is none what was there before.
-/

namespace Felix86

structure Layer (α β : Type*) where
  covers : α → Bool
  content : α → β

namespace Layer

variable {α β : Type*} {layer top : Layer α β} {layers : List (Layer α β)} {f g : α → β} {a : α}

/-- Put a layer over what is there. -/
def paint (layer : Layer α β) (f : α → β) : α → β := fun a ↦
  if layer.covers a then layer.content a else f a

def paintAll (layers : List (Layer α β)) (f : α → β) : α → β := layers.foldl (fun f l ↦ l.paint f) f

/-- The layer that is seen at a place. -/
def seen (layers : List (Layer α β)) (a : α) : Option (Layer α β) :=
  (layers.filter fun l ↦ l.covers a).getLast?

/-- What is seen in the end. -/
theorem paintAll_apply (layers : List (Layer α β)) (f : α → β) (a : α) :
    paintAll layers f a = ((seen layers a).map fun l ↦ l.content a).getD (f a) := by
  induction layers generalizing f with
  | nil => rfl
  | cons layer layers ih =>
    have hstep : paintAll (layer :: layers) f a = paintAll layers (layer.paint f) a := rfl
    rw [hstep, ih, seen, seen, List.filter_cons]
    by_cases hcovers : layer.covers a
    · rw [if_pos hcovers, List.getLast?_cons, paint, if_pos hcovers]
      cases (layers.filter fun l ↦ l.covers a).getLast? <;> rfl
    · rw [if_neg hcovers, paint, if_neg hcovers]

end Layer

end Felix86
