/- Indices read as digits in a base that is a power of two. -/
import Mathlib.Data.Nat.Bitwise
import Mathlib.Tactic.Ring

namespace Digits

/-- Digit `h` of an index in base `2 ^ k`, cut out with a shift and a mask. -/
def digit (k h i : Nat) : Fin (2 ^ k) :=
  ⟨(i >>> (h * k)) &&& (2 ^ k - 1), Nat.and_lt_two_pow _ (by
    have := Nat.two_pow_pos k
    omega)⟩

theorem digit_val (k h i : Nat) : (digit k h i : Nat) = i / 2 ^ (h * k) % 2 ^ k := by
  simp only [digit, Nat.shiftRight_eq_div_pow, Nat.and_two_pow_sub_one_eq_mod]

theorem two_pow_succ_mul (k h : Nat) : 2 ^ ((h + 1) * k) = 2 ^ (h * k) * 2 ^ k := by
  rw [Nat.succ_mul, Nat.pow_add]

theorem two_pow_le_succ (k h : Nat) : 2 ^ (h * k) ≤ 2 ^ ((h + 1) * k) :=
  Nat.pow_le_pow_right (by omega) (Nat.mul_le_mul_right _ (Nat.le_succ h))

theorem mod_succ_eq_iff (k h i j : Nat) : i % 2 ^ ((h + 1) * k) = j % 2 ^ ((h + 1) * k) ↔
    digit k h i = digit k h j ∧ i % 2 ^ (h * k) = j % 2 ^ (h * k) := by
  have pos := Nat.two_pow_pos (h * k)
  rw [Fin.ext_iff, digit_val, digit_val, two_pow_succ_mul, Nat.mod_mul, Nat.mod_mul]
  constructor
  · intro eq
    have low : i % 2 ^ (h * k) = j % 2 ^ (h * k) := by
      have := congrArg (· % 2 ^ (h * k)) eq
      simpa using this
    refine ⟨?_, low⟩
    rw [low, Nat.add_left_cancel_iff] at eq
    exact Nat.eq_of_mul_eq_mul_left pos eq
  · rintro ⟨high, low⟩
    rw [high, low]

theorem div_eq_iff (k h i j : Nat) : i / 2 ^ (h * k) = j / 2 ^ (h * k) ↔
    i / 2 ^ ((h + 1) * k) = j / 2 ^ ((h + 1) * k) ∧ digit k h i = digit k h j := by
  have high : ∀ i, i / 2 ^ ((h + 1) * k) = i / 2 ^ (h * k) / 2 ^ k := by
    intro i
    rw [two_pow_succ_mul, Nat.div_div_eq_div_mul]
  rw [Fin.ext_iff, digit_val, digit_val, high, high]
  constructor
  · intro eq
    rw [eq]
    exact ⟨rfl, rfl⟩
  · rintro ⟨div, mod⟩
    rw [← Nat.div_add_mod (i / 2 ^ (h * k)) (2 ^ k), div, mod, Nat.div_add_mod]

theorem div_eq_of_div_eq {k l h i j : Nat} (le : l ≤ h)
    (same : i / 2 ^ (l * k) = j / 2 ^ (l * k)) : i / 2 ^ (h * k) = j / 2 ^ (h * k) := by
  have split : 2 ^ (h * k) = 2 ^ (l * k) * 2 ^ ((h - l) * k) := by
    rw [← Nat.pow_add, ← Nat.add_mul, Nat.add_sub_cancel' le]
  rw [split, ← Nat.div_div_eq_div_mul, ← Nat.div_div_eq_div_mul, same]

theorem digit_add (k h o i : Nat) (ho : o < 2 ^ k) (hi : i < 2 ^ (h * k)) :
    (digit k h (o * 2 ^ (h * k) + i) : Nat) = o := by
  rw [digit_val, Nat.add_comm, Nat.add_mul_div_right _ _ (Nat.two_pow_pos _),
    Nat.div_eq_of_lt hi, Nat.zero_add, Nat.mod_eq_of_lt ho]

theorem digit_eq_zero (k h i : Nat) (hi : i < 2 ^ (h * k)) : (digit k h i : Nat) = 0 := by
  rw [digit_val, Nat.div_eq_of_lt hi, Nat.zero_mod]

theorem digit_ne_zero (k h i : Nat) (lo : 2 ^ (h * k) ≤ i) (hi : i < 2 ^ ((h + 1) * k)) :
    (digit k h i : Nat) ≠ 0 := by
  have pos := Nat.two_pow_pos (h * k)
  have lt : i / 2 ^ (h * k) < 2 ^ k := by
    rwa [Nat.div_lt_iff_lt_mul pos, Nat.mul_comm, ← two_pow_succ_mul]
  rw [digit_val, Nat.mod_eq_of_lt lt]
  exact Nat.ne_of_gt (Nat.div_pos lo pos)

theorem xor_digit_shift (k h i m : Nat) (hm : m < 2 ^ k) :
    ((i >>> (h * k)) ^^^ (digit k h i : Nat) ^^^ m) <<< (h * k) =
      i / 2 ^ ((h + 1) * k) * 2 ^ ((h + 1) * k) + m * 2 ^ (h * k) := by
  have clear : ∀ x, x ^^^ x % 2 ^ k = 2 ^ k * (x / 2 ^ k) := by
    intro x
    apply Nat.eq_of_testBit_eq
    intro b
    by_cases hb : b < k
    · simp [Nat.testBit_two_pow_mul, hb]
    · have ge : k ≤ b := by omega
      simp [Nat.testBit_two_pow_mul, hb, ge, Nat.testBit_div_two_pow]
  have put : ∀ x, 2 ^ k * x ^^^ m = 2 ^ k * x + m := by
    intro x
    rw [Nat.two_pow_add_eq_or_of_lt hm]
    apply Nat.eq_of_testBit_eq
    intro b
    by_cases hb : b < k
    · simp [Nat.testBit_two_pow_mul, show ¬ k ≤ b by omega]
    · have : m.testBit b = false :=
        Nat.testBit_lt_two_pow (lt_of_lt_of_le hm (Nat.pow_le_pow_right (by omega) (by omega)))
      simp [this]
  rw [digit_val, Nat.shiftRight_eq_div_pow, clear, put, Nat.shiftLeft_eq, Nat.div_div_eq_div_mul,
    two_pow_succ_mul]
  ring

theorem or_mask_succ (n i : Nat) : (i ||| (2 ^ n - 1)) + 1 = (i / 2 ^ n + 1) * 2 ^ n := by
  have pos := Nat.two_pow_pos n
  have low : 2 ^ n - 1 < 2 ^ n := by omega
  have fill : i ||| (2 ^ n - 1) = 2 ^ n * (i / 2 ^ n) + (2 ^ n - 1) := by
    rw [Nat.two_pow_add_eq_or_of_lt low]
    apply Nat.eq_of_testBit_eq
    intro b
    by_cases hb : b < n
    · simp [hb]
    · have ge : n ≤ b := by omega
      simp [Nat.testBit_two_pow_mul, ge, Nat.testBit_div_two_pow]
  rw [Nat.add_mul, Nat.mul_comm]
  omega

theorem lt_carry (k h i : Nat) : i < (i / 2 ^ ((h + 1) * k) + 1) * 2 ^ ((h + 1) * k) := by
  have := Nat.lt_div_mul_add (a := i) (Nat.two_pow_pos ((h + 1) * k))
  rw [Nat.add_mul]
  omega

theorem carry_le {k n h i : Nat} (hh : h < n) (hi : i < 2 ^ (n * k)) :
    (i / 2 ^ ((h + 1) * k) + 1) * 2 ^ ((h + 1) * k) ≤ 2 ^ (n * k) := by
  have pos := Nat.two_pow_pos ((h + 1) * k)
  have split : 2 ^ (n * k) = 2 ^ ((n - (h + 1)) * k) * 2 ^ ((h + 1) * k) := by
    rw [← Nat.pow_add, ← Nat.add_mul]
    congr 2
    omega
  rw [split] at hi ⊢
  exact Nat.mul_le_mul_right _ ((Nat.div_lt_iff_lt_mul pos).mpr hi)

theorem div_eq_of_lt_carry {n i j : Nat} (ge : i ≤ j) (lt : j < (i / n + 1) * n) : j / n = i / n := by
  apply Nat.div_eq_of_lt_le
  · exact (Nat.div_mul_le_self i n).trans ge
  · exact lt

theorem digit_le_of_le {k h i j : Nat} (same : j / 2 ^ ((h + 1) * k) = i / 2 ^ ((h + 1) * k))
    (le : i ≤ j) : (digit k h i : Nat) ≤ digit k h j := by
  have high : ∀ x, x / 2 ^ ((h + 1) * k) = x / 2 ^ (h * k) / 2 ^ k := by
    intro x
    rw [two_pow_succ_mul, Nat.div_div_eq_div_mul]
  have step := Nat.div_le_div_right (c := 2 ^ (h * k)) le
  have := Nat.div_add_mod (i / 2 ^ (h * k)) (2 ^ k)
  have := Nat.div_add_mod (j / 2 ^ (h * k)) (2 ^ k)
  rw [digit_val, digit_val]
  rw [high, high] at same
  rw [same] at this
  omega

theorem set_digit {k h i m i' : Nat} (hm : m < 2 ^ k) (gt : digit k h i < m)
    (hi' : i' = i / 2 ^ ((h + 1) * k) * 2 ^ ((h + 1) * k) + m * 2 ^ (h * k)) :
    i < i' ∧ i' / 2 ^ ((h + 1) * k) = i / 2 ^ ((h + 1) * k) ∧ (digit k h i' : Nat) = m ∧
      ∀ j, i ≤ j → j < i' → j / 2 ^ ((h + 1) * k) = i / 2 ^ ((h + 1) * k) ∧ digit k h j < m := by
  have posJ := Nat.two_pow_pos (h * k)
  have quot : i' / 2 ^ (h * k) = i / 2 ^ ((h + 1) * k) * 2 ^ k + m := by
    rw [hi', two_pow_succ_mul, Nat.mul_comm (2 ^ (h * k)), ← Nat.mul_assoc, ← Nat.add_mul,
      Nat.mul_div_cancel _ posJ]
  have high : ∀ x, x / 2 ^ ((h + 1) * k) = x / 2 ^ (h * k) / 2 ^ k := by
    intro x
    rw [two_pow_succ_mul, Nat.div_div_eq_div_mul]
  have same : i' / 2 ^ ((h + 1) * k) = i / 2 ^ ((h + 1) * k) := by
    rw [high i', quot, Nat.add_comm, Nat.add_mul_div_right _ _ (Nat.two_pow_pos k),
      Nat.div_eq_of_lt hm, Nat.zero_add]
  have digit' : (digit k h i' : Nat) = m := by
    rw [digit_val, quot, Nat.add_comm, Nat.add_mul_mod_self_right, Nat.mod_eq_of_lt hm]
  have lt : i < i' := by
    by_contra ge
    have := digit_le_of_le same.symm (Nat.le_of_not_lt ge)
    omega
  refine ⟨lt, same, digit', fun j hj hlt => ?_⟩
  have same_j : j / 2 ^ ((h + 1) * k) = i / 2 ^ ((h + 1) * k) := by
    apply le_antisymm
    · rw [← same]
      exact Nat.div_le_div_right hlt.le
    · exact Nat.div_le_div_right hj
  refine ⟨same_j, ?_⟩
  have : j / 2 ^ (h * k) < i / 2 ^ ((h + 1) * k) * 2 ^ k + m := by
    rw [Nat.div_lt_iff_lt_mul posJ, Nat.add_mul, Nat.mul_assoc, Nat.mul_comm (2 ^ k),
      ← two_pow_succ_mul, ← hi']
    exact hlt
  have split := Nat.div_add_mod (j / 2 ^ (h * k)) (2 ^ k)
  rw [high j] at same_j
  rw [same_j, Nat.mul_comm] at split
  rw [digit_val]
  omega

end Digits
