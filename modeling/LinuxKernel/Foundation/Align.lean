/- Rounding up to a power of two in the arithmetic of an unsigned word. -/
import Mathlib.Data.Nat.Bitwise

namespace Align

/-- `ALIGN(x, a)` where no sum wraps. -/
def ceil (x a : Nat) : Nat := (x + (a - 1)) - ((x + (a - 1)) &&& (a - 1))

/-- `ALIGN(x, a)`, that is `(x + (a - 1)) & ~(a - 1)`, on `bits` bits. -/
def alignUp (bits x a : Nat) : Nat :=
  let y := (x + (a - 1)) % 2 ^ bits
  y - (y &&& (a - 1))

variable {bits k x t : Nat}

theorem ceil_eq (x k : Nat) : ceil x (2 ^ k) = (x + (2 ^ k - 1)) / 2 ^ k * 2 ^ k := by
  have := Nat.div_add_mod (x + (2 ^ k - 1)) (2 ^ k)
  rw [ceil, Nat.and_two_pow_sub_one_eq_mod, Nat.mul_comm]
  omega

theorem dvd_ceil (x k : Nat) : 2 ^ k ∣ ceil x (2 ^ k) := by
  rw [ceil_eq]
  exact Nat.dvd_mul_left _ _

theorem le_ceil (x k : Nat) : x ≤ ceil x (2 ^ k) := by
  have := Nat.lt_div_mul_add (a := x + (2 ^ k - 1)) (Nat.two_pow_pos k)
  rw [ceil_eq]
  omega

theorem ceil_le (le : x ≤ t) (dvd : 2 ^ k ∣ t) : ceil x (2 ^ k) ≤ t := by
  have pos := Nat.two_pow_pos k
  obtain ⟨c, rfl⟩ := dvd
  rw [ceil_eq, Nat.mul_comm]
  apply Nat.mul_le_mul_left
  have : (x + (2 ^ k - 1)) / 2 ^ k < c + 1 := by
    apply (Nat.div_lt_iff_lt_mul pos).mpr
    rw [Nat.add_mul, Nat.mul_comm c]
    omega
  omega

@[simp] theorem ceil_zero (k : Nat) : ceil 0 (2 ^ k) = 0 := Nat.le_zero.mp (ceil_le le_rfl (Nat.dvd_zero _))

theorem alignUp_eq_ceil {a : Nat} (fits : x + (a - 1) < 2 ^ bits) : alignUp bits x a = ceil x a := by
  rw [alignUp, ceil, Nat.mod_eq_of_lt fits]

theorem alignUp_eq (bits x k : Nat) : alignUp bits x (2 ^ k) = (x + (2 ^ k - 1)) % 2 ^ bits / 2 ^ k * 2 ^ k := by
  have := Nat.div_add_mod ((x + (2 ^ k - 1)) % 2 ^ bits) (2 ^ k)
  rw [alignUp, Nat.and_two_pow_sub_one_eq_mod, Nat.mul_comm]
  omega

theorem dvd_alignUp (bits x k : Nat) : 2 ^ k ∣ alignUp bits x (2 ^ k) := by
  rw [alignUp_eq]
  exact Nat.dvd_mul_left _ _

theorem alignUp_lt (bits x k : Nat) : alignUp bits x (2 ^ k) < 2 ^ bits := by
  have := Nat.mod_lt (x + (2 ^ k - 1)) (Nat.two_pow_pos bits)
  rw [alignUp_eq]
  exact lt_of_le_of_lt (Nat.div_mul_le_self _ _) this

theorem le_alignUp (fits : x + (2 ^ k - 1) < 2 ^ bits) : x ≤ alignUp bits x (2 ^ k) := by
  rw [alignUp_eq_ceil fits]
  exact le_ceil x k

theorem alignUp_wrap (hx : x < 2 ^ bits) (hk : k ≤ bits) (wraps : 2 ^ bits ≤ x + (2 ^ k - 1)) :
    alignUp bits x (2 ^ k) = 0 := by
  have le := Nat.pow_le_pow_right (n := 2) (by omega) hk
  have rest : (x + (2 ^ k - 1)) % 2 ^ bits = x + (2 ^ k - 1) - 2 ^ bits := by
    rw [Nat.mod_eq_sub_mod wraps, Nat.mod_eq_of_lt (by omega)]
  rw [alignUp_eq, Nat.div_eq_of_lt (by omega), Nat.zero_mul]

theorem add_lt_of_dvd (hk : k ≤ bits) (le : x ≤ t) (ht : t < 2 ^ bits) (dvd : 2 ^ k ∣ t) :
    x + (2 ^ k - 1) < 2 ^ bits := by
  obtain ⟨c, rfl⟩ := dvd
  have split : 2 ^ bits = 2 ^ k * 2 ^ (bits - k) := by
    rw [← Nat.pow_add, Nat.add_sub_cancel' hk]
  rw [split] at ht ⊢
  have next := Nat.mul_le_mul_left (2 ^ k) (Nat.succ_le_of_lt (Nat.lt_of_mul_lt_mul_left ht))
  rw [Nat.mul_succ] at next
  omega

theorem alignUp_le (hk : k ≤ bits) (le : x ≤ t) (ht : t < 2 ^ bits) (dvd : 2 ^ k ∣ t) :
    alignUp bits x (2 ^ k) ≤ t := by
  rw [alignUp_eq_ceil (add_lt_of_dvd hk le ht dvd)]
  exact ceil_le le dvd

theorem alignUp_of_dvd (hk : k ≤ bits) (ht : t < 2 ^ bits) (dvd : 2 ^ k ∣ t) : alignUp bits t (2 ^ k) = t :=
  le_antisymm (alignUp_le hk le_rfl ht dvd) (le_alignUp (add_lt_of_dvd hk le_rfl ht dvd))

theorem dvd_alignUp_of_dvd {j : Nat} (hk : k ≤ bits) (dvd : 2 ^ j ∣ t) (fits : t + (2 ^ k - 1) < 2 ^ bits) :
    2 ^ j ∣ alignUp bits t (2 ^ k) := by
  rcases le_total j k with le | le
  · exact (Nat.pow_dvd_pow 2 le).trans (dvd_alignUp bits t k)
  · rwa [alignUp_of_dvd hk (by omega) ((Nat.pow_dvd_pow 2 le).trans dvd)]

end Align
