/- Values cut to the width of a type of C. -/
import Mathlib.Algebra.Group.Int.Defs
import Mathlib.Algebra.Group.Nat.Defs

namespace Width

def u32 (n : Nat) : Nat := n % 2 ^ 32

def u64 (n : Nat) : Nat := n % 2 ^ 64

/-- The arithmetic of an `int`. -/
def int (x : Int) : Int := x.bmod (2 ^ 32)

/-- An `int` that becomes an `unsigned int`. -/
def uint (x : Int) : Nat := (x % 2 ^ 32).toNat

variable {n : Nat} {x : Int}

theorem u32_eq (h : n < 2 ^ 32) : u32 n = n := Nat.mod_eq_of_lt h

theorem u64_eq (h : n < 2 ^ 64) : u64 n = n := Nat.mod_eq_of_lt h

theorem int_eq (low : -2 ^ 31 ≤ x) (high : x < 2 ^ 31) : int x = x := by
  apply Int.bmod_eq_of_le <;> omega

theorem uint_eq (eq : x = n) (h : n < 2 ^ 32) : uint x = n := by
  rw [uint]
  omega

end Width
