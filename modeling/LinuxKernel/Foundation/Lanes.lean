/- Machine words as rows of bytes, and operations on all bytes at once. -/
import Mathlib.Data.Nat.Bitwise
import Mathlib.Tactic.Ring

namespace Lanes

open BitVec

def byte {w : Nat} (x : BitVec w) (j : Nat) : BitVec 8 := x.extractLsb' (8 * j) 8

def ofBytes : (n : Nat) → (Nat → BitVec 8) → BitVec (8 * n)
  | 0, _ => 0
  | n + 1, f => (f n ++ ofBytes n f).cast (by omega)

section Bits

variable {w : Nat}

theorem getLsbD_byte (x : BitVec w) (j i : Nat) : (byte x j).getLsbD i = (decide (i < 8) && x.getLsbD (8 * j + i)) :=
  getLsbD_extractLsb' ..

theorem byte_ext {a b : BitVec 8} (bits : ∀ i < 8, a.getLsbD i = b.getLsbD i) : a = b :=
  eq_of_getLsbD_eq bits

theorem byte_xor (x y : BitVec w) (j : Nat) : byte (x ^^^ y) j = byte x j ^^^ byte y j := by
  apply byte_ext
  intro i lt
  simp only [getLsbD_byte, getLsbD_xor, lt, decide_true, Bool.true_and]

theorem byte_and (x y : BitVec w) (j : Nat) : byte (x &&& y) j = byte x j &&& byte y j := by
  apply byte_ext
  intro i lt
  simp only [getLsbD_byte, getLsbD_and, lt, decide_true, Bool.true_and]

theorem byte_ofBytes {n : Nat} (f : Nat → BitVec 8) {j : Nat} (lt : j < n) : byte (ofBytes n f) j = f j := by
  induction n with
  | zero => cases lt
  | succ n ih =>
    apply byte_ext
    intro i hi
    rw [getLsbD_byte, ofBytes, getLsbD_cast, getLsbD_append]
    rcases Nat.lt_succ_iff_lt_or_eq.mp lt with less | rfl
    · rw [if_pos (by omega), ← ih less, getLsbD_byte]
    · have off : 8 * j + i - 8 * j = i := by omega
      rw [if_neg (by omega), off, decide_eq_true hi, Bool.true_and]

theorem getLsbD_ofBytes (n : Nat) (f : Nat → BitVec 8) (i : Nat) :
    (ofBytes n f).getLsbD i = (decide (i < 8 * n) && (f (i / 8)).getLsbD (i % 8)) := by
  by_cases inside : i < 8 * n
  · have bit := getLsbD_byte (ofBytes n f) (i / 8) (i % 8)
    have lt : i % 8 < 8 := Nat.mod_lt _ (by decide)
    rw [byte_ofBytes f (show i / 8 < n by omega), Nat.div_add_mod, decide_eq_true lt, Bool.true_and] at bit
    rw [← bit, decide_eq_true inside, Bool.true_and]
  · rw [getLsbD_of_ge _ _ (Nat.le_of_not_lt inside), decide_eq_false inside, Bool.false_and]

theorem ofBytes_byte (n : Nat) (x : BitVec w) : ofBytes n (byte x) = x.setWidth (8 * n) := by
  apply eq_of_getLsbD_eq
  intro i lt
  rw [getLsbD_ofBytes, getLsbD_byte, getLsbD_setWidth, Nat.div_add_mod,
    decide_eq_true (Nat.mod_lt i (show 0 < 8 by decide)), Bool.true_and]

theorem ofBytes_congr {n : Nat} {f g : Nat → BitVec 8} (h : ∀ j < n, f j = g j) : ofBytes n f = ofBytes n g := by
  induction n with
  | zero => rfl
  | succ n ih => rw [ofBytes, ofBytes, h n (Nat.lt_succ_self n), ih fun j lt => h j (Nat.lt_succ_of_lt lt)]

theorem byte_shl (x mask : BitVec w) {j : Nat} (inside : 8 * j + 8 ≤ w)
    (bits : ∀ i < 8, mask.getLsbD (8 * j + i) = decide (i ≠ 0)) : byte ((x <<< 1) &&& mask) j = byte x j <<< 1 := by
  apply byte_ext
  intro i lt
  rw [getLsbD_byte, getLsbD_and, getLsbD_shiftLeft, getLsbD_shiftLeft,
    getLsbD_byte, bits i lt]
  rcases Nat.eq_zero_or_pos i with rfl | pos
  · simp
  · have next : 8 * j + i - 1 = 8 * j + (i - 1) := by omega
    have high : 8 * j + i < w := by omega
    simp [next, high, pos.ne', show i - 1 < 8 by omega]

end Bits

section Mask

/-- A number whose digits in base 256 are zeros and ones. -/
def Binary (y : Nat) : Prop := ∀ j, y / 256 ^ j % 256 ≤ 1

theorem Binary.mul_mod_lt {y : Nat} (bin : Binary y) (j : Nat) : 255 * (y % 256 ^ j) < 256 ^ j := by
  induction j with
  | zero => simp [Nat.mod_one]
  | succ j ih =>
    have top := bin j
    have split : y % 256 ^ (j + 1) = y % 256 ^ j + 256 ^ j * (y / 256 ^ j % 256) := by
      rw [Nat.pow_succ, Nat.mod_mul]
    have bound : 256 ^ j * (y / 256 ^ j % 256) ≤ 256 ^ j * 1 := Nat.mul_le_mul_left _ top
    omega

/-- Times 255 every digit is zero or 255: there are no carries. -/
theorem Binary.mul_digit {y : Nat} (bin : Binary y) (j : Nat) :
    255 * y / 256 ^ j % 256 = 255 * (y / 256 ^ j % 256) := by
  have pos : 0 < 256 ^ j := Nat.pow_pos (by omega)
  have split : 255 * y = 255 * (y % 256 ^ j) + 255 * (y / 256 ^ j) * 256 ^ j := by
    have := Nat.mod_add_div y (256 ^ j)
    calc 255 * y = 255 * (y % 256 ^ j + 256 ^ j * (y / 256 ^ j)) := by rw [this]
      _ = 255 * (y % 256 ^ j) + 255 * (y / 256 ^ j) * 256 ^ j := by ring
  rw [split, Nat.add_mul_div_right _ _ pos, Nat.div_eq_of_lt (bin.mul_mod_lt j)]
  have := bin j
  omega

theorem toNat_byte {w : Nat} (x : BitVec w) (j : Nat) : (byte x j).toNat = x.toNat / 256 ^ j % 256 := by
  rw [byte, extractLsb'_toNat, Nat.shiftRight_eq_div_pow, Nat.pow_mul]

/-- `high` has the high bit of every byte. -/
def IsHigh {n : Nat} (high : BitVec (8 * n)) : Prop :=
  ∀ i < 8 * n, high.getLsbD i = decide (i % 8 = 7)

variable {n : Nat} {high : BitVec (8 * n)}

section

variable (hh : IsHigh high) (x : BitVec (8 * n))
include hh x

theorem getLsbD_high (j i : Nat) (lt : i < 8) :
    ((x &&& high) >>> 7).getLsbD (8 * j + i) = (decide (i = 0) && x.getLsbD (8 * j + 7)) := by
  rw [getLsbD_ushiftRight, getLsbD_and]
  by_cases inside : 7 + (8 * j + i) < 8 * n
  · rw [hh _ inside]
    rcases Nat.eq_zero_or_pos i with rfl | pos
    · rw [show 7 + (8 * j + 0) = 8 * j + 7 by omega]
      simp
    · rw [decide_eq_false (show ¬ (7 + (8 * j + i)) % 8 = 7 by omega), Bool.and_false,
        decide_eq_false (show ¬ i = 0 by omega), Bool.false_and]
  · rw [getLsbD_of_ge x _ (by omega), Bool.false_and]
    rcases Nat.eq_zero_or_pos i with rfl | pos
    · rw [getLsbD_of_ge x _ (by omega), Bool.and_false]
    · rw [decide_eq_false (show ¬ i = 0 by omega), Bool.false_and]

theorem byte_high (j : Nat) :
    byte ((x &&& high) >>> 7) j = if (byte x j).getLsbD 7 then 1 else 0 := by
  have bit : (byte x j).getLsbD 7 = x.getLsbD (8 * j + 7) := by
    rw [getLsbD_byte]
    rfl
  apply byte_ext
  intro i lt
  rw [getLsbD_byte, getLsbD_high hh x j i lt, bit, decide_eq_true lt]
  cases x.getLsbD (8 * j + 7) with
  | false => simp
  | true => simp [getLsbD_one]

theorem binary_high : Binary ((x &&& high) >>> 7).toNat := by
  intro j
  rw [← toNat_byte, byte_high hh]
  split <;> decide

theorem high_eq_shl : x &&& high = ((x &&& high) >>> 7) <<< 7 := by
  apply eq_of_getLsbD_eq
  intro i lt
  rw [getLsbD_shiftLeft, getLsbD_ushiftRight, decide_eq_true lt]
  by_cases low : i < 7
  · rw [getLsbD_and, hh i lt, decide_eq_false (show ¬ i % 8 = 7 by omega), Bool.and_false,
      decide_eq_true low]
    rfl
  · rw [decide_eq_false low, show 7 + (i - 7) = i by omega]
    rfl

/-- `(vv << 1) - (vv >> 7)` has all bits of the bytes whose high bit is set. -/
theorem byte_mask (j : Nat) :
    byte (((x &&& high) <<< 1) - ((x &&& high) >>> 7)) j = if (byte x j).getLsbD 7 then 0xff else 0 := by
  set y := (x &&& high) >>> 7
  have bin : Binary y.toNat := binary_high hh x
  have size : 2 ^ (8 * n) = 256 ^ n := by rw [Nat.pow_mul]
  have shifted : (x &&& high) <<< 1 = y <<< 8 := by
    rw [high_eq_shl hh x, ← shiftLeft_add]
  have value : (((x &&& high) <<< 1) - y).toNat = 255 * y.toNat := by
    have lt : y.toNat < 256 ^ n := by
      rw [← size]
      exact y.isLt
    have small := bin.mul_mod_lt n
    rw [Nat.mod_eq_of_lt lt] at small
    have sum : 256 ^ n - y.toNat + y.toNat * 2 ^ 8 = 255 * y.toNat + 256 ^ n := by omega
    rw [shifted, toNat_sub, toNat_shiftLeft, Nat.shiftLeft_eq, size, Nat.add_mod_mod, sum,
      Nat.add_mod_right, Nat.mod_eq_of_lt small]
  apply eq_of_toNat_eq
  rw [toNat_byte, value, bin.mul_digit, ← toNat_byte, byte_high hh]
  split <;> rfl

end

end Mask

end Lanes
