import Mathlib.Data.List.Basic

/-!
# Code that talks to its environment

Much of the emulator is a sequence of decisions with questions to the host kernel in between. Such
code is a `Dialogue`: a tree that ends in a result or in a fault, and whose inner nodes ask a
question and continue with the answer. The code can then be read without knowing who answers;
`run` plays it against an environment that has a state of its own.
-/

namespace Felix86

universe u

/-- Code with result `α` that may fault with `ε` and that asks questions `Q`, answered by `A`. -/
inductive Dialogue (ε Q A : Type u) (α : Type u) : Type u
  | done (a : α)
  | fault (e : ε)
  | ask (q : Q) (next : A → Dialogue ε Q A α)

namespace Dialogue

variable {ε Q A κ α β : Type u}

/-- Sequencing: the second part continues where the first one ends. -/
def bind : Dialogue ε Q A α → (α → Dialogue ε Q A β) → Dialogue ε Q A β
  | done a, f => f a
  | fault e, _ => fault e
  | ask q next, f => ask q fun a ↦ (next a).bind f

instance : Monad (Dialogue ε Q A) where
  pure := done
  bind := bind

theorem id_map_eq (p : Dialogue ε Q A α) : id <$> p = p := by
  induction p with
  | done a => rfl
  | fault e => rfl
  | ask q next ih => exact congrArg (ask q) (funext ih)

theorem bind_bind {γ : Type u} (p : Dialogue ε Q A α) (f : α → Dialogue ε Q A β)
    (g : β → Dialogue ε Q A γ) : p >>= f >>= g = p >>= fun a ↦ f a >>= g := by
  induction p with
  | done a => rfl
  | fault e => rfl
  | ask q next ih => exact congrArg (ask q) (funext ih)

instance : LawfulMonad (Dialogue ε Q A) :=
  LawfulMonad.mk' _ id_map_eq (fun _ _ ↦ rfl) bind_bind

/-- One question, with its answer as the result. -/
def query (q : Q) : Dialogue ε Q A A := ask q done

/-- Fault unless the condition holds. -/
def require (c : Prop) [Decidable c] (e : ε) : Dialogue ε Q A PUnit :=
  if c then done ⟨⟩ else fault e

theorem require_bind (c : Prop) [Decidable c] (e : ε) (f : PUnit → Dialogue ε Q A α) :
    require c e >>= f = if c then f ⟨⟩ else fault e := by
  rw [require]
  split <;> rfl

/-- Code that asks nothing. -/
def ofExcept : Except ε α → Dialogue ε Q A α
  | .ok a => done a
  | .error e => fault e

/-- The dialogue held with an environment in state `k`. -/
def run (serve : κ → Q → A × κ) : κ → Dialogue ε Q A α → Except ε α × κ
  | k, done a => (.ok a, k)
  | k, fault e => (.error e, k)
  | k, ask q next => run serve (serve k q).2 (next (serve k q).1)

variable {serve : κ → Q → A × κ} {k k' : κ}

@[simp] theorem run_pure (a : α) :
    run serve k (pure a : Dialogue ε Q A α) = (.ok a, k) := rfl

theorem run_bind_of_ok {p : Dialogue ε Q A α} (f : α → Dialogue ε Q A β) {a : α}
    (h : run serve k p = (.ok a, k')) : run serve k (p >>= f) = run serve k' (f a) := by
  induction p generalizing k with
  | done b =>
    simp only [run, Prod.mk.injEq, Except.ok.injEq] at h
    obtain ⟨rfl, rfl⟩ := h
    rfl
  | fault e => simp [run] at h
  | ask q next ih => exact ih _ h

@[simp] theorem run_pure_bind (a : α) (f : α → Dialogue ε Q A β) :
    run serve k (pure a >>= f) = run serve k (f a) := rfl

@[simp] theorem run_query_bind (q : Q) (f : A → Dialogue ε Q A β) :
    run serve k (query q >>= f) = run serve (serve k q).2 (f (serve k q).1) := rfl

theorem run_require_bind {c : Prop} [Decidable c] (hc : c) (e : ε)
    (f : PUnit → Dialogue ε Q A β) :
    run serve k (require c e >>= f) = run serve k (f ⟨⟩) := by
  rw [require, if_pos hc]
  rfl

theorem run_ofExcept_bind {x : Except ε α} {a : α} (h : x = .ok a)
    (f : α → Dialogue ε Q A β) : run serve k (ofExcept x >>= f) = run serve k (f a) := by
  rw [h]
  rfl

/-- A sequence that ends without a fault consists of two that do. -/
theorem exists_of_run_bind {p : Dialogue ε Q A α} {f : α → Dialogue ε Q A β} {b : β}
    (h : run serve k (p >>= f) = (.ok b, k')) :
    ∃ a k₁, run serve k p = (.ok a, k₁) ∧ run serve k₁ (f a) = (.ok b, k') := by
  induction p generalizing k with
  | done a => exact ⟨a, k, rfl, h⟩
  | fault e =>
    have hfault : ((.error e, k) : Except ε β × κ) = (.ok b, k') := h
    simp at hfault
  | ask q next ih => exact ih _ h

theorem of_run_require {c : Prop} [Decidable c] {e : ε} {u : PUnit}
    (h : run serve k (require c e : Dialogue ε Q A PUnit) = (.ok u, k')) : c ∧ k' = k := by
  rw [require] at h
  split at h
  · next hc =>
    simp only [run, Prod.mk.injEq] at h
    exact ⟨hc, h.2.symm⟩
  · simp [run] at h

theorem of_run_ofExcept {x : Except ε α} {a : α}
    (h : run serve k (ofExcept x : Dialogue ε Q A α) = (.ok a, k')) : x = .ok a ∧ k' = k := by
  cases x with
  | ok b =>
    simp only [ofExcept, run, Prod.mk.injEq, Except.ok.injEq] at h
    exact ⟨by rw [h.1], h.2.symm⟩
  | error e => simp [ofExcept, run] at h

/-! ## What code ensures

`Ensures serve k p post` is partial correctness: if `p` ends without a fault, `post` holds of its
result and of the environment's state. -/

def Ensures (serve : κ → Q → A × κ) (k : κ) (p : Dialogue ε Q A α) (post : α → κ → Prop) : Prop :=
  ∀ a k', run serve k p = (.ok a, k') → post a k'

namespace Ensures

variable {post : β → κ → Prop}

theorem bind {p : Dialogue ε Q A α} {f : α → Dialogue ε Q A β}
    (h : Ensures serve k p fun a k₁ ↦ Ensures serve k₁ (f a) post) :
    Ensures serve k (p >>= f) post := by
  intro b k' hrun
  obtain ⟨a, k₁, hfirst, hlast⟩ := exists_of_run_bind hrun
  exact h a k₁ hfirst b k' hlast

theorem pure {b : β} (h : post b k) : Ensures serve k (pure b : Dialogue ε Q A β) post := by
  intro b' k' hrun
  simp only [run_pure, Prod.mk.injEq, Except.ok.injEq] at hrun
  obtain ⟨rfl, rfl⟩ := hrun
  exact h

theorem fault {e : ε} : Ensures serve k (fault e : Dialogue ε Q A β) post := by
  intro b k' hrun
  simp [run] at hrun

theorem query {q : Q} {f : A → Dialogue ε Q A β}
    (h : Ensures serve (serve k q).2 (f (serve k q).1) post) :
    Ensures serve k (query q >>= f) post := h

theorem require {c : Prop} [Decidable c] {e : ε} {f : PUnit → Dialogue ε Q A β}
    (h : c → Ensures serve k (f ⟨⟩) post) : Ensures serve k (require c e >>= f) post := by
  intro b k' hrun
  obtain ⟨_, k₁, hfirst, hlast⟩ := exists_of_run_bind hrun
  obtain ⟨hc, rfl⟩ := of_run_require hfirst
  exact h hc b k' hlast

theorem ofExcept {x : Except ε α} {f : α → Dialogue ε Q A β}
    (h : ∀ a, x = .ok a → Ensures serve k (f a) post) :
        Ensures serve k (ofExcept x >>= f) post := by
  intro b k' hrun
  obtain ⟨a, k₁, hfirst, hlast⟩ := exists_of_run_bind hrun
  obtain ⟨hx, rfl⟩ := of_run_ofExcept hfirst
  exact h a hx b k' hlast

theorem mono {post' : β → κ → Prop} {p : Dialogue ε Q A β} (h : Ensures serve k p post)
    (himp : ∀ b k', post b k' → post' b k') : Ensures serve k p post' :=
  fun b k' hrun ↦ himp b k' (h b k' hrun)

end Ensures

/-- An environment about which nothing is known but what it was asked and answered before. -/
def oracle (host : List (Q × A) → Q → A) (history : List (Q × A)) (q : Q) : A × List (Q × A) :=
  (host history q, history ++ [(q, host history q)])

end Dialogue

end Felix86
