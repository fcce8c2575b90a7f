/- Circular buffers: the window of a rotated list, and copies that go on at the front of the buffer. -/
import Mathlib.Data.List.Rotate

namespace Ring

open List

variable {α : Type*}

/-- `n` elements of `src` are copied over `buf` from `off` on. A copy that goes past the end makes the
buffer longer. -/
def splice (buf : List α) (off : Nat) (src : List α) (n : Nat) : List α :=
  buf.take off ++ src.take n ++ buf.drop (off + n)

/-- The `n` elements from the position `pos` on, which wraps. -/
def window (buf : List α) (pos n : Nat) : List α := (buf.rotate pos).take n

theorem splice_zero (buf : List α) (off : Nat) (src : List α) : splice buf off src 0 = buf := by
  simp [splice]

variable {buf : List α} {n : Nat}

theorem length_window {pos : Nat} (h : n ≤ buf.length) : (window buf pos n).length = n := by
  simp [window, h]

theorem window_mod (buf : List α) (pos n : Nat) : window buf (pos % buf.length) n = window buf pos n := by
  rw [window, window, rotate_mod]

theorem take_append_take_eq_window {off : Nat} (inside : off < buf.length) (h : n ≤ buf.length) :
    (buf.drop off).take (min n (buf.length - off)) ++ buf.take (n - min n (buf.length - off)) = window buf off n := by
  rw [window, rotate_eq_drop_append_take inside.le, take_append, length_drop, take_take]
  by_cases short : n ≤ buf.length - off
  · simp [short]
  have whole : min n (buf.length - off) = buf.length - off := by omega
  have rest : min (n - (buf.length - off)) off = n - (buf.length - off) := by omega
  have upto : ∀ m, buf.length - off ≤ m → (buf.drop off).take m = buf.drop off := fun m le =>
    take_of_length_le (by rw [length_drop]; exact le)
  rw [whole, rest, upto _ le_rfl, upto _ (by omega)]

theorem window_drop {pos m : Nat} (h : n ≤ buf.length) (le : m ≤ n) :
    window buf (pos + m) (n - m) = (window buf pos n).drop m := by
  have len : (buf.rotate pos).length = buf.length := length_rotate _ _
  rw [window, window, ← rotate_rotate, rotate_eq_drop_append_take (by omega), take_append,
    drop_take]
  have rest : n - m - ((buf.rotate pos).drop m).length = 0 := by rw [length_drop]; omega
  rw [rest, take_zero, append_nil]

theorem rotate_append_of_length {l l' : List α} (h : l.length = n) : (l ++ l').rotate n = l' ++ l := by
  rw [← h, rotate_append_length_eq]

theorem rotate_splice_splice {buf src : List α} {off : Nat} (inside : off < buf.length)
    (h : n ≤ buf.length) (enough : n ≤ src.length) :
    (splice (splice buf off src (min n (buf.length - off))) 0 (src.drop (min n (buf.length - off)))
      (n - min n (buf.length - off))).rotate off = src.take n ++ (buf.rotate off).drop n := by
  have off_take : (buf.take off).length = off := length_take_of_le inside.le
  rw [rotate_eq_drop_append_take inside.le, drop_append, drop_drop, length_drop]
  by_cases short : n ≤ buf.length - off
  · have rest : n - (buf.length - off) = 0 := by omega
    rw [min_eq_left short, Nat.sub_self, splice_zero, splice, append_assoc, rest, drop_zero]
    rw [rotate_append_of_length off_take, append_assoc]
  have whole : min n (buf.length - off) = buf.length - off := by omega
  have end_ : buf.drop (off + (buf.length - off)) = [] := drop_of_length_le (by omega)
  have end' : buf.drop (off + n) = [] := drop_of_length_le (by omega)
  have front : ((src.drop (buf.length - off)).take (n - (buf.length - off)) ++
      (buf.take off).drop (n - (buf.length - off))).length = off := by
    simp only [length_append, length_take, length_drop]
    omega
  rw [whole, splice, splice, end_, end', append_nil, take_zero, nil_append, Nat.zero_add,
    drop_append_of_le_length (by omega), ← append_assoc]
  rw [rotate_append_of_length front, ← append_assoc, ← take_add]
  congr 2
  omega

theorem set_splice {buf src : List α} {off i : Nat} (b : α) (inside : off ≤ buf.length) (enough : n ≤ src.length)
    (apart : i < off ∨ off + n ≤ i) : (splice buf off src n).set i b = splice (buf.set i b) off src n := by
  have length : (buf.take off ++ src.take n).length = off + n := by simp [inside, enough]
  rcases apart with less | more
  · rw [splice, splice, append_assoc, append_assoc, set_append_left _ _ (by simp; omega), take_set,
      drop_set_of_lt (by omega)]
  · rw [splice, splice, set_append_right _ _ (by omega), length, drop_set, if_neg (by omega),
      take_set_of_le (by omega)]

theorem window_of_rotate {buf buf' src : List α} {pos m : Nat} (len : buf'.length = buf.length)
    (h : n + m ≤ buf.length) (enough : m ≤ src.length)
    (wrote : buf'.rotate (pos + n) = src.take m ++ (buf.rotate (pos + n)).drop m) :
    window buf' pos (n + m) = window buf pos n ++ src.take m := by
  have lens : (buf.rotate pos).length = buf.length := length_rotate _ _
  have lens' : (buf'.rotate pos).length = buf.length := by rw [length_rotate, len]
  rw [← rotate_rotate, ← rotate_rotate,
    rotate_eq_drop_append_take (by omega),
    rotate_eq_drop_append_take (l := buf.rotate pos) (by omega),
    drop_append_of_le_length (by rw [length_drop]; omega), ← append_assoc] at wrote
  obtain ⟨behind, same⟩ := append_inj' wrote (by simp only [length_take]; omega)
  rw [window, window, take_add, behind, same, take_append_of_le_length (by simp [enough]),
    take_take, min_self]

end Ring
