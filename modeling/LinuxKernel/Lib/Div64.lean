/- The 64-bit divisions of lib/div64.c for 32-bit kernels. -/
import Mathlib.Data.Nat.Size
import Mathlib.Tactic.Ring
import LinuxKernel.Foundation.Loop

namespace Div64

/-- `while ((int64_t)b > 0 && b < rem)`, with `b` and `d`. -/
def scaleTurn (rem : Nat) (s : Nat × Nat) : (Nat × Nat) ⊕ (Nat × Nat) :=
  if 0 < s.1 ∧ s.1 < 2 ^ 63 ∧ s.1 < rem then .inl ((s.1 + s.1) % 2 ^ 64, (s.2 + s.2) % 2 ^ 64) else .inr s

structure Division where
  rem : Nat
  res : Nat
  b : Nat
  d : Nat

def Division.subtract (s : Division) : Division :=
  if s.b ≤ s.rem then { s with rem := s.rem - s.b, res := (s.res + s.d) % 2 ^ 64 } else s

/-- The second loop, which leaves with `*n` and the value returned. -/
def subtractTurn (s : Division) : Division ⊕ (Nat × Nat) :=
  let s := s.subtract
  if s.d / 2 = 0 then .inr (s.res, s.rem % 2 ^ 32) else .inl { s with b := s.b / 2, d := s.d / 2 }

/-- `__div64_32`, with a bound on the turns of each loop. -/
def div6432 (fuel n base : Nat) : Option (Nat × Nat) :=
  let high := n / 2 ^ 32
  let (res, rem) :=
    if base ≤ high then (high / base * 2 ^ 32, n - high / base * base % 2 ^ 32 * 2 ^ 32) else (0, n)
  (Loop.run (scaleTurn rem) fuel (base, 1)).bind fun s => Loop.run subtractTurn fuel ⟨rem, res, s.1, s.2⟩

/-- `div_u64_rem`, with `do_div` -/
def divU64Rem (fuel dividend divisor : Nat) : Option (Nat × Nat) :=
  if dividend / 2 ^ 32 = 0 then some (dividend % 2 ^ 32 / divisor, dividend % 2 ^ 32 % divisor)
  else div6432 fuel dividend divisor

def divS64Rem (fuel : Nat) (dividend divisor : Int) : Option (Int × Int) :=
  let base := ((if divisor < 0 then -divisor else divisor) % 2 ^ 32).toNat
  if dividend < 0 then
    (divU64Rem fuel ((-dividend) % 2 ^ 64).toNat base).map fun r =>
      ((if 0 < divisor then -(r.1 : Int) else r.1).bmod (2 ^ 64), (-(r.2 : Int).bmod (2 ^ 32)).bmod (2 ^ 32))
  else
    (divU64Rem fuel dividend.toNat base).map fun r =>
      ((if divisor < 0 then -(r.1 : Int) else r.1).bmod (2 ^ 64), (r.2 : Int).bmod (2 ^ 32))

def div64U64 (fuel dividend divisor : Nat) : Option Nat :=
  let high := divisor / 2 ^ 32
  let shift := high.size
  if high ≠ 0 then (divU64Rem fuel (dividend >>> shift) ((divisor >>> shift) % 2 ^ 32)).map (·.1)
  else (divU64Rem fuel dividend (divisor % 2 ^ 32)).map (·.1)

theorem mul_two_pow_succ (x k : Nat) : x * 2 ^ (k + 1) = x * 2 ^ k + x * 2 ^ k := by
  rw [Nat.two_pow_succ, Nat.mul_add]

section

variable {fuel base : Nat} (pos : 0 < base) (small : base < 2 ^ 32)
include pos small

/-- The divisor is doubled until it is above half of the rest. -/
theorem scale_spec {rem : Nat} (lt : rem < 2 ^ 64) (hf : 64 < fuel) :
    ∃ s, Loop.run (scaleTurn rem) fuel (base, 1) = some s ∧
      ∃ k < 64, s = (base * 2 ^ k, 2 ^ k) ∧ rem < 2 * (base * 2 ^ k) := by
  refine Loop.run_total _ (fun m s => ∃ k, m = 64 - k ∧ s = (base * 2 ^ k, 2 ^ k) ∧ base * 2 ^ k < 2 ^ 64) _ ?_
    ⟨0, rfl, by simp, by omega⟩ hf
  rintro _ _ ⟨k, rfl, rfl, fits⟩
  have one := Nat.two_pow_pos k
  have le : 2 ^ k ≤ base * 2 ^ k := Nat.le_mul_of_pos_left _ pos
  have hk : k < 64 := (Nat.pow_lt_pow_iff_right (by decide : 1 < 2)).mp (le.trans_lt fits)
  simp only [scaleTurn]
  split_ifs with more
  · have twice := mul_two_pow_succ base k
    left
    refine ⟨_, _, rfl, (by omega : 64 - (k + 1) < 64 - k), k + 1, rfl, ?_, by omega⟩
    rw [twice, Nat.two_pow_succ k, Nat.mod_eq_of_lt (by omega), Nat.mod_eq_of_lt (by omega)]
  · exact .inr ⟨_, rfl, k, hk, rfl, by omega⟩

theorem subtract_spec {n k rem res : Nat} (hn : n < 2 ^ 64) (sum : base * res + rem = n)
    (lt : rem < 2 * (base * 2 ^ k)) (hf : k < fuel) :
    Loop.run subtractTurn fuel ⟨rem, res, base * 2 ^ k, 2 ^ k⟩ = some (n / base, n % base) := by
  induction fuel generalizing k rem res with
  | zero => cases hf
  | succ fuel ih =>
    obtain ⟨rem', res', step, sum', lt'⟩ : ∃ rem' res',
        Division.subtract ⟨rem, res, base * 2 ^ k, 2 ^ k⟩ = ⟨rem', res', base * 2 ^ k, 2 ^ k⟩ ∧
          base * res' + rem' = n ∧ rem' < base * 2 ^ k := by
      simp only [Division.subtract]
      split_ifs with ge
      · have sum' : base * (res + 2 ^ k) + (rem - base * 2 ^ k) = n := by
          rw [Nat.mul_add]
          omega
        have := Nat.le_mul_of_pos_left (res + 2 ^ k) pos
        exact ⟨_, _, by rw [Nat.mod_eq_of_lt (by omega)], sum', by omega⟩
      · exact ⟨rem, res, rfl, sum, by omega⟩
    rw [Loop.run, subtractTurn, step]
    cases k with
    | zero =>
      rw [pow_zero, Nat.mul_one] at lt'
      obtain ⟨rfl, rfl⟩ := (Nat.div_mod_unique pos).mpr ⟨(Nat.add_comm ..).trans sum', lt'⟩
      simpa using lt'.trans small
    | succ k =>
      have twice := mul_two_pow_succ base k
      have half : base * 2 ^ (k + 1) / 2 = base * 2 ^ k := by omega
      have half' : 2 ^ (k + 1) / 2 = 2 ^ k := Nat.mul_div_cancel _ (by decide)
      simp only [half, half', (Nat.two_pow_pos k).ne', if_false]
      exact ih sum' (by omega) (by omega)

theorem div6432_spec {n : Nat} (hn : n < 2 ^ 64) (hf : 64 < fuel) :
    div6432 fuel n base = some (n / base, n % base) := by
  have start : ∀ res rem, base * res + rem = n →
      ((Loop.run (scaleTurn rem) fuel (base, 1)).bind fun s => Loop.run subtractTurn fuel ⟨rem, res, s.1, s.2⟩) =
        some (n / base, n % base) := by
    intro res rem sum
    obtain ⟨_, run, k, hk, rfl, lt⟩ := scale_spec pos small (by omega : rem < 2 ^ 64) hf
    rw [run]
    exact subtract_spec pos small hn sum lt (by omega)
  simp only [div6432]
  split_ifs with more
  · have := Nat.div_mul_le_self (n / 2 ^ 32) base
    apply start
    rw [Nat.mod_eq_of_lt (by omega), ← Nat.mul_assoc, Nat.mul_comm base]
    omega
  · exact start 0 n (by simp)

theorem divU64Rem_spec {n : Nat} (hn : n < 2 ^ 64) (hf : 64 < fuel) :
    divU64Rem fuel n base = some (n / base, n % base) := by
  rw [divU64Rem]
  split_ifs with low
  · rw [Nat.mod_eq_of_lt (by omega)]
  · exact div6432_spec pos small hn hf

end

/-- `__div64_32` and `div_s64_rem` return, with 64 turns at most, the quotient and the remainder of the division that
rounds toward zero. -/
theorem div64_exact {fuel : Nat} (hf : 64 < fuel) :
    (∀ n base, n < 2 ^ 64 → 0 < base → base < 2 ^ 32 → div6432 fuel n base = some (n / base, n % base)) ∧
    ∀ dividend divisor : Int, -2 ^ 63 ≤ dividend → dividend < 2 ^ 63 → -2 ^ 31 ≤ divisor → divisor < 2 ^ 31 →
      divisor ≠ 0 → ¬(dividend = -2 ^ 63 ∧ divisor = -1) → divS64Rem fuel dividend divisor =
        some (dividend.tdiv divisor, dividend - dividend.tdiv divisor * divisor) := by
  refine ⟨fun n base hn pos small => div6432_spec pos small hn hf, ?_⟩
  intro dividend divisor low high low' high' ne minimal
  have base : ((if divisor < 0 then -divisor else divisor) % 2 ^ 32).toNat = divisor.natAbs := by
    split_ifs <;> omega
  have arg : (if dividend < 0 then ((-dividend) % 2 ^ 64).toNat else dividend.toNat) = dividend.natAbs := by
    split_ifs <;> omega
  have run := @divU64Rem_spec fuel divisor.natAbs (by omega) (by omega) dividend.natAbs (by omega) hf
  have nonneg := Int.natCast_nonneg (dividend.natAbs / divisor.natAbs)
  have le := Nat.div_le_self dividend.natAbs divisor.natAbs
  have half : 2 ≤ divisor.natAbs → dividend.natAbs / divisor.natAbs ≤ dividend.natAbs / 2 := fun two =>
    Nat.div_le_div_left two (by decide)
  have less := Nat.mod_lt dividend.natAbs (by omega : divisor.natAbs > 0)
  have wide {x : Int} (ge : -2 ^ 63 ≤ x) (lt : x < 2 ^ 63) : x.bmod (2 ^ 64) = x :=
    Int.bmod_eq_of_le (by omega) (by omega)
  have narrow {x : Int} (ge : -2 ^ 31 < x) (lt : x < 2 ^ 31) : x.bmod (2 ^ 32) = x :=
    Int.bmod_eq_of_le (by omega) (by omega)
  rw [Int.mul_comm, ← Int.tmod_def, divS64Rem, base]
  have nat (n : Nat) : ¬(n : Int) < 0 := by omega
  rcases dividend with a | a <;> rcases divisor with b | b
  all_goals simp only [Int.ofNat_eq_natCast, Int.negSucc_lt_zero, nat, if_true, if_false, Int.natAbs_natCast,
    Int.natAbs_negSucc, Int.negSucc_not_pos, Int.toNat_natCast] at *
  all_goals
    simp (disch := omega) only [arg, run, if_pos, Option.map_some, wide, narrow]
    rfl

/-- Sixty-four turns are enough for a dividend with its top bit set, and negative numbers are rounded toward zero. -/
theorem div64_exact_seven : div6432 65 (2 ^ 63 + 3) 7 = some ((2 ^ 63 + 3) / 7, (2 ^ 63 + 3) % 7) ∧
    divS64Rem 65 (-9) (-4) = some (2, -1) :=
  ⟨(div64_exact (by decide)).1 _ _ (by decide) (by decide) (by decide),
    (div64_exact (by decide)).2 _ _ (by decide) (by decide) (by decide) (by decide) (by decide) (by decide)⟩

/-- The divisor without the bits that are shifted out. -/
def cut (divisor : Nat) : Nat := divisor >>> (divisor / 2 ^ 32).size <<< (divisor / 2 ^ 32).size

theorem div64U64_eq {fuel dividend divisor : Nat} (hf : 64 < fuel) (fits : dividend < 2 ^ 64)
    (fits' : divisor < 2 ^ 64)
    (pos : 0 < divisor) : cut divisor ≤ divisor ∧ 0 < cut divisor ∧
      div64U64 fuel dividend divisor = some (dividend / cut divisor) := by
  have above := Nat.lt_size_self (divisor / 2 ^ 32)
  simp only [cut, div64U64, Nat.shiftLeft_eq, Nat.shiftRight_eq_div_pow]
  split_ifs with high
  · obtain ⟨s, size⟩ := Nat.exists_eq_succ_of_ne_zero (mt Nat.size_eq_zero.mp high)
    have below : 2 ^ s ≤ divisor / 2 ^ 32 := Nat.lt_size.mp (by omega)
    have double := Nat.two_pow_succ s
    rw [size] at above ⊢
    have small : divisor / 2 ^ (s + 1) < 2 ^ 32 := (Nat.div_lt_iff_lt_mul (Nat.two_pow_pos _)).mpr (by omega)
    have pos' : 0 < divisor / 2 ^ (s + 1) := Nat.div_pos (by omega) (Nat.two_pow_pos _)
    refine ⟨Nat.div_mul_le_self _ _, Nat.mul_pos pos' (Nat.two_pow_pos _), ?_⟩
    rw [Nat.mod_eq_of_lt small, divU64Rem_spec pos' small ((Nat.div_le_self _ _).trans_lt fits) hf,
      Nat.div_div_eq_div_mul, Nat.mul_comm]
    rfl
  · have small : divisor < 2 ^ 32 := by omega
    rw [not_not.mp high, Nat.mod_eq_of_lt small, divU64Rem_spec pos small fits hf]
    simpa using pos

/-- "64bit divisor, dividend and result. dynamic precision": for a divisor of more than 32 bits the quotient is that
of the divisor with its low bits cut off, which is the right one unless a multiple of the divisor lies above the
dividend and the same multiple of the cut one does not. -/
theorem div64_u64_exact_iff {fuel dividend divisor : Nat} (hf : 64 < fuel) (fits : dividend < 2 ^ 64)
    (fits' : divisor < 2 ^ 64) (pos : 0 < divisor) :
    div64U64 fuel dividend divisor = some (dividend / cut divisor) ∧
      (div64U64 fuel dividend divisor = some (dividend / divisor) ↔
        ¬∃ k, k * cut divisor ≤ dividend ∧ dividend < k * divisor) := by
  obtain ⟨le, cut_pos, run⟩ := div64U64_eq hf fits fits' pos
  refine ⟨run, ?_⟩
  rw [run, Option.some_inj]
  constructor
  · rintro same ⟨k, low, high⟩
    rw [← Nat.le_div_iff_mul_le cut_pos, same, Nat.le_div_iff_mul_le pos] at low
    omega
  · intro none
    refine Nat.le_antisymm ?_ (Nat.div_le_div_left le cut_pos)
    rw [Nat.le_div_iff_mul_le pos]
    by_contra high
    exact none ⟨_, Nat.div_mul_le_self dividend _, by omega⟩

theorem div64_u64_exact_even : div64U64 65 (2 ^ 63) (2 ^ 33) = some (2 ^ 30) :=
  (div64_u64_exact_iff (by decide) (by decide) (by decide) (by decide)).2.mpr (by
    rintro ⟨k, low, high⟩
    rw [(by decide : cut (2 ^ 33) = 2 ^ 33)] at low
    omega)

theorem div64_u64_cuts : div64U64 65 (2 ^ 32) (2 ^ 32 + 1) = some 1 ∧ 2 ^ 32 / (2 ^ 32 + 1) = 0 := by decide

end Div64
