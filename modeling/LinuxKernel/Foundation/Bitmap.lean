/- Bitmaps: the number of set bits, and the search for the next clear one. -/
import Mathlib.Algebra.BigOperators.Fin
import Mathlib.Algebra.Order.BigOperators.Group.Finset
import Mathlib.Data.List.FinRange

namespace Bitmap

open Function Finset

section Weight

variable {ι : Type*} [Fintype ι] [DecidableEq ι]

def weight (f : ι → Bool) : Nat := ∑ i, (f i).toNat

theorem weight_update (f : ι → Bool) (i : ι) (b : Bool) :
    weight (update f i b) + (f i).toNat = weight f + b.toNat := by
  have rest : ∀ j ∈ univ.erase i, (update f i b j).toNat = (f j).toNat := by
    intro j hj
    rw [update_of_ne (ne_of_mem_erase hj)]
  unfold weight
  rw [← add_sum_erase _ _ (mem_univ i), sum_congr rfl rest,
    ← add_sum_erase _ (fun j => (f j).toNat) (mem_univ i), update_self]
  omega

omit [DecidableEq ι] in
theorem weight_eq_zero {f : ι → Bool} (h : weight f = 0) (i : ι) : f i = false := by
  have := (sum_eq_zero_iff.mp h) i (mem_univ i)
  simpa using this

omit [DecidableEq ι] in
theorem weight_eq_card {f : ι → Bool} : weight f = Fintype.card ι ↔ ∀ i, f i = true := by
  have card : Fintype.card ι = ∑ _i : ι, 1 := by simp
  unfold weight
  rw [card, sum_eq_sum_iff_of_le fun i _ => Bool.toNat_le (f i)]
  simp

end Weight

def findNextZero {n : Nat} (f : Fin n → Bool) (start : Nat) : Option (Fin n) :=
  (List.finRange n).find? fun m => decide (start ≤ m) && !f m

theorem findNextZero_none {n : Nat} {f : Fin n → Bool} {start : Nat}
    (h : findNextZero f start = none) (m : Fin n) (hm : start ≤ m) : f m = true := by
  have := List.find?_eq_none.mp h m (List.mem_finRange m)
  simpa [hm] using this

theorem findNextZero_some {n : Nat} {f : Fin n → Bool} {start : Nat} {m : Fin n} (h : findNextZero f start = some m) :
    start ≤ m ∧ f m = false ∧ ∀ o : Fin n, start ≤ o → o < m → f o = true := by
  obtain ⟨hit, i, hi, eq, before⟩ := List.find?_eq_some_iff_getElem.mp h
  have val : i = m := by simpa using congrArg Fin.val eq
  refine ⟨by simpa using And.left (by simpa using hit), And.right (by simpa using hit), ?_⟩
  intro o ho lt
  have := before o (by rw [val]; exact lt)
  simpa [ho] using this

end Bitmap
