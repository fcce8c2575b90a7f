/- Computations with a bound on their steps: when they end, and what holds wherever they are cut. -/
import Mathlib.Data.Nat.Notation

namespace Fuel

universe u

variable {ε α β : Type u}

/-- With enough fuel the computation ends with this result. -/
def Ends (f : Nat → Except ε α) (a : α) : Prop := ∃ k, ∀ n, k ≤ n → f n = .ok a

variable {a : α}

theorem Ends.const : Ends (ε := ε) (fun _ => .ok a) a := ⟨0, fun _ _ => rfl⟩

variable {f : Nat → Except ε α} {g : Nat → α → Except ε β}

theorem Ends.bind {b : β} (h : Ends f a) (h' : Ends (fun n => g n a) b) : Ends (fun n => f n >>= g n) b := by
  obtain ⟨k, run⟩ := h
  obtain ⟨k', run'⟩ := h'
  refine ⟨max k k', fun n le => ?_⟩
  change f n >>= g n = _
  rw [run n (Nat.le_trans (Nat.le_max_left k k') le)]
  exact run' n (Nat.le_trans (Nat.le_max_right k k') le)

theorem Ends.succ {f g : Nat → Except ε α} (h : Ends g a) (step : ∀ n, f (n + 1) = g n) : Ends f a := by
  obtain ⟨k, run⟩ := h
  refine ⟨k + 1, fun n le => ?_⟩
  obtain ⟨m, rfl⟩ := Nat.exists_eq_add_of_lt le
  rw [step]
  exact run _ (by omega)

theorem Ends.unique {a b : α} (h : Ends f a) (h' : Ends f b) : a = b := by
  obtain ⟨k, run⟩ := h
  obtain ⟨k', run'⟩ := h'
  have both := (run _ (Nat.le_max_left k k')).symm.trans (run' _ (Nat.le_max_right k k'))
  exact Except.ok.inj both

/-- With enough fuel the computation ends, with a result for which `Q` holds. -/
def Ensures (f : Nat → Except ε α) (Q : α → Prop) : Prop := ∃ a, Ends f a ∧ Q a

variable {Q : α → Prop}

theorem Ensures.const (h : Q a) : Ensures (ε := ε) (fun _ => .ok a) Q := ⟨a, .const, h⟩

theorem Ensures.mono {Q Q' : α → Prop} (h : Ensures f Q) (imp : ∀ a, Q a → Q' a) : Ensures f Q' := by
  obtain ⟨a, ends, q⟩ := h
  exact ⟨a, ends, imp a q⟩

theorem Ensures.bind {P : α → Prop} {Q : β → Prop}
    (h : Ensures f P) (h' : ∀ a, P a → Ensures (fun n => g n a) Q) : Ensures (fun n => f n >>= g n) Q := by
  obtain ⟨a, ends, p⟩ := h
  obtain ⟨b, ends', q⟩ := h' a p
  exact ⟨b, ends.bind ends', q⟩

theorem Ensures.succ {f g : Nat → Except ε α} (h : Ensures g Q) (step : ∀ n, f (n + 1) = g n) : Ensures f Q := by
  obtain ⟨a, ends, q⟩ := h
  exact ⟨a, ends.succ step, q⟩

/-- `P` where the computation is cut and `Q` where it ends. -/
def Holds (P : ε → Prop) (Q : α → Prop) : Except ε α → Prop
  | .error e => P e
  | .ok a => Q a

theorem Holds.mono {P P' : ε → Prop} {Q Q' : α → Prop} {x : Except ε α} (h : Holds P Q x)
    (cut : ∀ e, P e → P' e) (ends : ∀ a, Q a → Q' a) : Holds P' Q' x := by
  cases x with
  | error e => exact cut e h
  | ok a => exact ends a h

theorem Holds.bind {P : ε → Prop} {R : β → Prop} {x : Except ε α} {g : α → Except ε β}
    (h : Holds P Q x) (h' : ∀ a, Q a → Holds P R (g a)) : Holds P R (x >>= g) := by
  cases x with
  | error e => exact h
  | ok a => exact h' a h

end Fuel
