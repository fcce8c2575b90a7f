/- Reachable states of a transition system and the invariance rule. -/
import Mathlib.Logic.Relation

namespace Transition

variable {σ : Type*} {init : σ → Prop} {step : σ → σ → Prop}

/-- States reached from an initial state by finitely many steps. -/
def Reachable (init : σ → Prop) (step : σ → σ → Prop) (s : σ) : Prop :=
  ∃ s₀, init s₀ ∧ Relation.ReflTransGen step s₀ s

theorem Reachable.start {s : σ} (h : init s) : Reachable init step s :=
  ⟨s, h, .refl⟩

theorem Reachable.next {s t : σ} (h : Reachable init step s) (st : step s t) : Reachable init step t := by
  obtain ⟨s₀, h₀, run⟩ := h
  exact ⟨s₀, h₀, run.tail st⟩

theorem Reachable.foldl {α : Type*} {f : σ → α → σ} {s : σ} (h : Reachable init step s)
    (steps : ∀ s a, step s (f s a)) (l : List α) : Reachable init step (l.foldl f s) := by
  induction l generalizing s with
  | nil => exact h
  | cons a l ih => exact ih (h.next (steps s a))

/-- What holds initially and survives each step holds of every reachable state. -/
theorem Reachable.invariant (Inv : σ → Prop) (base : ∀ s, init s → Inv s)
    (keep : ∀ s t, Inv s → step s t → Inv t) {s : σ} (h : Reachable init step s) : Inv s := by
  obtain ⟨s₀, h₀, run⟩ := h
  induction run with
  | refl => exact base _ h₀
  | tail _ st ih => exact keep _ _ ih st

end Transition
