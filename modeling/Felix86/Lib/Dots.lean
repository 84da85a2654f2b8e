import Mathlib.Data.List.Infix
import Mathlib.Data.Nat.Notation

/-!
# Names and steps up

A place in a tree of names is the list of the names that lead to it, the last one first. A path is a
list of moves: down to a name, up, or nowhere, where going up from the root stays there. What a path
does does not depend on where it starts: it goes up some levels and then down some names. That is
enough to say when it ends below its start.
-/

namespace Felix86

namespace Dots

variable {α : Type*}

inductive Move (α : Type*)
  | stay
  | up
  | down (name : α)

open Move

def move (place : List α) : Move α → List α
  | stay => place
  | up => place.tail
  | down name => name :: place

/-- Where a path leads. -/
def walk (place : List α) (path : List (Move α)) : List α := path.foldl move place

/-- How many levels a path goes up and which names it then goes down. -/
structure Effect (α : Type*) where
  levels : ℕ
  names : List α

def Effect.then (e : Effect α) : Move α → Effect α
  | stay => e
  | up => match e.names with
    | [] => ⟨e.levels + 1, []⟩
    | _ :: names => ⟨e.levels, names⟩
  | down name => ⟨e.levels, name :: e.names⟩

def effect (path : List (Move α)) : Effect α := path.foldl Effect.then ⟨0, []⟩

def Effect.apply (e : Effect α) (place : List α) : List α := e.names ++ place.drop e.levels

theorem Effect.apply_then (e : Effect α) (m : Move α) (place : List α) :
    (e.then m).apply place = move (e.apply place) m := by
  obtain ⟨levels, names⟩ := e
  cases m with
  | stay => rfl
  | down name => rfl
  | up =>
    cases names with
    | nil => simp [Effect.then, Effect.apply, move, List.tail_drop]
    | cons name names => rfl

theorem walk_append (place : List α) (path path' : List (Move α)) :
    walk place (path ++ path') = walk (walk place path) path' := List.foldl_append

/-- A path leads from every place to where its effect does. -/
theorem walk_eq (place : List α) (path : List (Move α)) :
    walk place path = (effect path).apply place := by
  induction path using List.reverseRecOn with
  | nil => rfl
  | append_singleton path m ih =>
    rw [effect, List.foldl_concat, Effect.apply_then, walk, List.foldl_concat]
    exact congrArg (move · m) ih

/-- A path ends at or below its start if it goes down again by the names that it went up. -/
theorem suffix_walk_iff (place : List α) (path : List (Move α)) :
    place <:+ walk place path ↔ place.take (effect path).levels <:+ (effect path).names := by
  rw [walk_eq, Effect.apply]
  generalize effect path = e
  calc place <:+ e.names ++ place.drop e.levels
      ↔ place.take e.levels ++ place.drop e.levels <:+ e.names ++ place.drop e.levels := by
        rw [List.take_append_drop]
    _ ↔ place.take e.levels <:+ e.names := List.suffix_append_self_iff

end Dots

end Felix86
