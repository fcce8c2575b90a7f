/- Lists cut in two: reading and writing at the cut, and cutting where a test first fails. -/
import Mathlib.Data.List.TakeWhile

namespace List

variable {α : Type*}

@[simp] theorem getD_middle (l r : List α) (x d : α) : (l ++ x :: r).getD l.length d = x := by
  simp [getD_eq_getElem?_getD]

@[simp] theorem set_middle (l r : List α) (x y : α) : (l ++ x :: r).set l.length y = l ++ y :: r := by
  simp

theorem getD_middle_of_eq {l r m : List α} {x : α} {i : Nat} (d : α) (hm : m = l ++ x :: r)
    (hi : i = l.length) : m.getD i d = x := by
  rw [hm, hi, getD_middle]

theorem set_middle_of_eq {l r m : List α} {x : α} {i : Nat} (y : α) (hm : m = l ++ x :: r)
    (hi : i = l.length) : m.set i y = l ++ y :: r := by
  rw [hm, hi, set_middle]

theorem cut_while {l r : List α} (test : α → Bool) (low : ∀ y ∈ l, test y = true)
    (high : ∀ y, r.head? = some y → test y = false) : (l ++ r).takeWhile test = l ∧ (l ++ r).dropWhile test = r := by
  rw [takeWhile_append_of_pos low, dropWhile_append_of_pos low]
  cases r with
  | nil => simp
  | cons y r => simp [high y rfl]

theorem exists_cut (test : α → Bool) (m : List α) :
    ∃ l r, m = l ++ r ∧ (∀ y ∈ l, test y = true) ∧ ∀ y, r.head? = some y → test y = false := by
  refine ⟨m.takeWhile test, m.dropWhile test, takeWhile_append_dropWhile.symm, fun _ => mem_takeWhile_imp,
    fun y hy => ?_⟩
  simpa [hy] using head?_dropWhile_not test m

end List
