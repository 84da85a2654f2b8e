import Mathlib.Data.Set.Card
import Mathlib.Logic.Relation

/-!
# Loops from place to place

A loop whose round either goes on from another place or stops with an outcome. Where it goes on
depends on the place alone, so a loop that comes back to a place never stops. If it can go on from
finitely many places only, coming back is the one way not to stop.
-/

namespace Felix86

namespace Orbit

open Relation

variable {α β : Type*} (next : α → α ⊕ β)

/-- The loop, with a bound on its rounds. -/
def loop : ℕ → α → Option β
  | 0, _ => none
  | fuel + 1, a =>
    match next a with
    | .inl b => loop fuel b
    | .inr o => some o

/-- The loop goes on from the first place to the second. -/
def Leads (a b : α) : Prop := next a = .inl b

variable {next} {a b c : α} {o : β} {fuel : ℕ}

theorem Leads.loop_eq (h : Leads next a b) (fuel : ℕ) :
    loop next (fuel + 1) a = loop next fuel b := by
  rw [loop, h]

/-- From where the loop goes on there is one next place. -/
theorem Leads.reflTransGen_of_transGen (h : Leads next a b) (hc : TransGen (Leads next) a c) :
    ReflTransGen (Leads next) b c := by
  obtain ⟨b', hb', hrest⟩ := TransGen.head'_iff.mp hc
  obtain rfl : b' = b := Sum.inl_injective (hb'.symm.trans h)
  exact hrest

/-! ## Outcomes -/

/-- The outcome is the one of a place that the start leads to. -/
theorem loop_eq_some (h : loop next fuel a = some o) :
    ∃ b, ReflTransGen (Leads next) a b ∧ next b = .inr o := by
  induction fuel generalizing a with
  | zero => cases h
  | succ fuel ih =>
    rw [loop] at h
    split at h
    · next b hb =>
      obtain ⟨c, hc, hout⟩ := ih h
      exact ⟨c, hc.head hb, hout⟩
    · next o' ho' =>
      cases h
      exact ⟨a, ReflTransGen.refl, ho'⟩

theorem exists_loop_eq_some (hb : ReflTransGen (Leads next) a b) (ho : next b = .inr o) :
    ∃ fuel, loop next fuel a = some o := by
  induction hb using ReflTransGen.head_induction_on with
  | refl => exact ⟨1, by rw [loop, ho]⟩
  | head hlead _ ih =>
    obtain ⟨fuel, hfuel⟩ := ih
    exact ⟨fuel + 1, (hlead.loop_eq fuel).trans hfuel⟩

/-- Two bounds that are enough give the same outcome. -/
theorem loop_unique {fuel' : ℕ} {o' : β} (h : loop next fuel a = some o)
    (h' : loop next fuel' a = some o') : o = o' := by
  induction fuel generalizing a fuel' with
  | zero => cases h
  | succ fuel ih =>
    cases fuel' with
    | zero => cases h'
    | succ fuel' =>
      rw [loop] at h h'
      split at h
      · next b hb =>
        rw [hb] at h'
        exact ih h h'
      · next o₁ ho₁ =>
        rw [ho₁] at h'
        exact Option.some_injective _ (h.symm.trans h')

/-! ## Termination -/

/-- A loop that stops has not been anywhere twice. -/
theorem not_transGen_of_loop_eq_some (h : loop next fuel a = some o)
    (hb : ReflTransGen (Leads next) a b) : ¬ TransGen (Leads next) b b := by
  induction fuel generalizing a with
  | zero => cases h
  | succ fuel ih =>
    rcases hb.cases_head with rfl | ⟨c, hc, hcb⟩
    · intro hcycle
      obtain ⟨c, hc, -⟩ := TransGen.head'_iff.mp hcycle
      exact ih ((hc.loop_eq fuel).symm.trans h) (hc.reflTransGen_of_transGen hcycle) hcycle
    · exact ih ((hc.loop_eq fuel).symm.trans h) hcb

/-- A loop that comes back nowhere stops, as there are fewer and fewer places to go on from. -/
theorem exists_loop_eq_some_of_acyclic (hfin : {b | (next b).isLeft}.Finite)
    (h : ∀ b, ReflTransGen (Leads next) a b → ¬ TransGen (Leads next) b b) :
    ∃ fuel o, loop next fuel a = some o := by
  -- the measure is the number of places still ahead from which the loop goes on
  induction hn : {b | ReflTransGen (Leads next) a b ∧ (next b).isLeft}.ncard
    using Nat.strong_induction_on generalizing a with
  | _ n ih =>
    cases hnext : next a with
    | inr o => exact ⟨1, o, by rw [loop, hnext]⟩
    | inl b =>
      have hlead : Leads next a b := hnext
      have hsub : {c | ReflTransGen (Leads next) b c ∧ (next c).isLeft} ⊂
          {c | ReflTransGen (Leads next) a c ∧ (next c).isLeft} := by
        refine ⟨fun c hc ↦ ⟨hc.1.head hlead, hc.2⟩, fun hback ↦ ?_⟩
        have ha := hback ⟨ReflTransGen.refl, by rw [hnext]; rfl⟩
        exact h a ReflTransGen.refl (TransGen.head' hlead ha.1)
      have hlt := Set.ncard_lt_ncard hsub (hfin.subset fun c hc ↦ hc.2)
      obtain ⟨fuel, o, hloop⟩ := ih _ (hn ▸ hlt) (fun c hc ↦ h c (hc.head hlead)) rfl
      exact ⟨fuel + 1, o, (hlead.loop_eq fuel).trans hloop⟩

/-- A loop that can go on from finitely many places stops exactly if it never comes back. -/
theorem exists_loop_eq_some_iff (hfin : {b | (next b).isLeft}.Finite) :
    (∃ fuel o, loop next fuel a = some o) ↔
      ∀ b, ReflTransGen (Leads next) a b → ¬ TransGen (Leads next) b b := by
  constructor
  · rintro ⟨fuel, o, h⟩ b hb
    exact not_transGen_of_loop_eq_some h hb
  · exact exists_loop_eq_some_of_acyclic hfin

end Orbit

end Felix86
