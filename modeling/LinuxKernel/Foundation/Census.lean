/- What a finite number of parties contribute to a quantity. -/
import Mathlib.Algebra.BigOperators.Group.Finset.Basic
import Mathlib.Algebra.Order.BigOperators.Group.Finset
import Mathlib.Algebra.BigOperators.Group.Finset.Piecewise
import Mathlib.Algebra.Group.Action.Defs
import Mathlib.Data.Fintype.Card

namespace Census

open Function Finset

variable {T α : Type*} [Fintype T]

def total (f : α → ℕ) (g : T → α) : ℕ :=
  ∑ t, f (g t)

variable {f f' : α → ℕ} {g : T → α}

theorem le_total (f : α → ℕ) (g : T → α) (t : T) : f (g t) ≤ total f g :=
  single_le_sum (f := fun t => f (g t)) (fun _ _ => Nat.zero_le _) (mem_univ t)

theorem total_mono (le : ∀ a, f a ≤ f' a) : total f g ≤ total f' g :=
  sum_le_sum fun t _ => le (g t)

theorem total_add : total (fun a => f a + f' a) g = total f g + total f' g :=
  sum_add_distrib

theorem total_le_card (le : ∀ t, f (g t) ≤ 1) : total f g ≤ Fintype.card T := by
  have bound := sum_le_card_nsmul univ (fun t => f (g t)) 1 fun t _ => le t
  rwa [smul_eq_mul, Nat.mul_one] at bound

theorem exists_of_total_pos (pos : 0 < total f g) : ∃ t, 0 < f (g t) := by
  by_contra none
  have zero : total f g = 0 := sum_eq_zero fun t _ => by
    by_contra ne
    exact none ⟨t, Nat.pos_of_ne_zero ne⟩
  omega

theorem total_eq_zero (zero : ∀ t, f (g t) = 0) : total f g = 0 :=
  sum_eq_zero fun t _ => zero t

section Update

variable [DecidableEq T]

theorem total_update (f : α → ℕ) (g : T → α) (t : T) (a : α) :
    total f (update g t a) + f (g t) = total f g + f a := by
  have mem := mem_univ t
  have rest : ∑ u ∈ univ.erase t, f (update g t a u) = ∑ u ∈ univ.erase t, f (g u) := by
    refine sum_congr rfl fun u other => ?_
    rw [update_of_ne (ne_of_mem_erase other)]
  have new := add_sum_erase _ (fun u => f (update g t a u)) mem
  have old := add_sum_erase _ (fun u => f (g u)) mem
  simp only [update_self] at new
  unfold total
  omega

theorem total_mark {l : List T} (nodup : l.Nodup) {n : ℕ} (old : ∀ t ∈ l, f (g t) = n) (a : α) :
    total f (fun t => if t ∈ l then a else g t) + l.length * n = total f g + l.length * f a := by
  induction l with
  | nil => simp
  | cons u l ih =>
    obtain ⟨out, nodup⟩ := List.nodup_cons.mp nodup
    have tail := ih nodup fun t mem => old t (List.mem_cons_of_mem u mem)
    have split : (fun t => if t ∈ u :: l then a else g t) =
        update (fun t => if t ∈ l then a else g t) u a := by
      funext t
      by_cases same : t = u
      all_goals simp [same]
    have head := total_update f (fun t => if t ∈ l then a else g t) u a
    rw [← split] at head
    simp only [out, if_false, old u List.mem_cons_self] at head
    rw [List.length_cons, Nat.succ_mul, Nat.succ_mul]
    omega

end Update

end Census
