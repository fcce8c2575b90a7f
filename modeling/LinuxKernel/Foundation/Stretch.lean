/- What a partial function gives along a stretch of numbers, in ascending order. -/
import Mathlib.Data.List.Range

namespace Stretch

variable {β : Type*} {f : Nat → Option β} {lo mid hi : Nat}

/-- The values at the numbers from `lo` up to but not including `hi`. -/
def stretch (f : Nat → Option β) (lo hi : Nat) : List β := (List.range' lo (hi - lo)).filterMap f

theorem stretch_self : stretch f lo lo = [] := by
  simp [stretch]

theorem stretch_append (low : lo ≤ mid) (high : mid ≤ hi) :
    stretch f lo hi = stretch f lo mid ++ stretch f mid hi := by
  have split : hi - lo = (mid - lo) + (hi - mid) := by omega
  have start : mid = lo + (mid - lo) := by omega
  rw [stretch, split, ← List.range'_append_1, List.filterMap_append, stretch, stretch, ← start]

theorem stretch_eq_nil (none : ∀ j, lo ≤ j → j < hi → f j = none) : stretch f lo hi = [] := by
  apply List.filterMap_eq_nil_iff.mpr
  intro j mem
  obtain ⟨low, high⟩ := List.mem_range'_1.mp mem
  exact none j low (by omega)

theorem stretch_succ : stretch f lo (lo + 1) = (f lo).toList := by
  rw [stretch, Nat.add_sub_cancel_left]
  cases h : f lo with
  | none | some b => simp [h]

end Stretch
