/- The bytes with the multiplication of mktables.c are the field of 256 elements. -/
import Mathlib.Algebra.Ring.Basic
import Mathlib.Data.Fintype.EquivFin
import Mathlib.GroupTheory.OrderOfElement
import Mathlib.Tactic.LinearCombination
import LinuxKernel.Foundation.XorMap
import LinuxKernel.Drivers.Raid6

namespace Raid6

open XorMap Finset BitVec

theorem high_bit (a : U8) : (a &&& 0x80 ≠ 0) ↔ a.getLsbD 7 = true := by
  revert a
  decide

theorem xtime_eq (a : U8) : xtime a = (a <<< 1) ^^^ (if a.getLsbD 7 then 0x1d else 0) := by
  simp only [xtime, high_bit]

theorem isXorMap_xtime : IsXorMap xtime := by
  intro x y
  rw [xtime_eq, xtime_eq, xtime_eq, shiftLeft_xor_distrib, getLsbD_xor, ite_xor]
  ac_rfl

def multiples : Nat → U8 → U8 → U8
  | 0, _, _ => 0
  | k + 1, a, b => (if b.getLsbD 0 then a else 0) ^^^ multiples k (xtime a) (b >>> 1)

theorem multiples_zero (k : Nat) (a : U8) : multiples k a 0 = 0 := by
  induction k generalizing a with
  | zero => rfl
  | succ k ih =>
    have shifted : (0 : U8) >>> 1 = 0 := rfl
    rw [multiples, shifted, ih]
    simp

theorem low_bit (b : U8) : (b &&& 1 ≠ 0) ↔ b.getLsbD 0 = true := by
  revert b
  decide

theorem gfmulLoop_eq (k : Nat) (v a b : U8) : gfmulLoop k v a b = v ^^^ multiples k a b := by
  induction k generalizing v a b with
  | zero => exact (xor_zero).symm
  | succ k ih =>
    rw [gfmulLoop]
    by_cases zero : b = 0
    · rw [zero, multiples_zero]
      exact (xor_zero).symm
    rw [if_neg zero, ih, multiples]
    simp only [low_bit]
    cases b.getLsbD 0 with
    | false => simp
    | true => simp [BitVec.xor_assoc]

theorem gfmul_eq (a b : U8) : gfmul a b = multiples 8 a b := by
  rw [gfmul, gfmulLoop_eq]
  exact zero_xor

theorem isXorMap_multiples_left (k : Nat) (b : U8) : IsXorMap fun a => multiples k a b := by
  induction k generalizing b with
  | zero => exact isXorMap_zero
  | succ k ih =>
    have first : IsXorMap fun a : U8 => if b.getLsbD 0 then a else 0 := by
      cases b.getLsbD 0 with
      | false => exact isXorMap_zero
      | true => exact isXorMap_id
    exact first.xor ((ih (b >>> 1)).comp isXorMap_xtime)

theorem isXorMap_multiples_right (k : Nat) (a : U8) : IsXorMap fun b => multiples k a b := by
  induction k generalizing a with
  | zero => exact isXorMap_zero
  | succ k ih =>
    have first : IsXorMap fun b : U8 => if b.getLsbD 0 then a else 0 := by
      intro x y
      simp only [getLsbD_xor, ite_xor]
    have shift : IsXorMap fun b : U8 => b >>> 1 := fun x y => ushiftRight_xor_distrib x y 1
    exact first.xor ((ih (xtime a)).comp shift)

theorem isXorMap_gfmul_left (b : U8) : IsXorMap fun a => gfmul a b := by
  simp only [gfmul_eq]
  exact isXorMap_multiples_left 8 b

theorem isXorMap_gfmul_right (a : U8) : IsXorMap fun b => gfmul a b := by
  simp only [gfmul_eq]
  exact isXorMap_multiples_right 8 a

theorem gfmul_comm (a b : U8) : gfmul a b = gfmul b a := by
  refine (isXorMap_gfmul_left b).eq_of_bits (isXorMap_gfmul_right b) (fun i hi => ?_) a
  refine (isXorMap_gfmul_right _).eq_of_bits (isXorMap_gfmul_left _) (fun j hj => ?_) b
  revert i j
  decide

theorem gfmul_assoc (a b c : U8) : gfmul (gfmul a b) c = gfmul a (gfmul b c) := by
  refine ((isXorMap_gfmul_left c).comp (isXorMap_gfmul_left b)).eq_of_bits
    (isXorMap_gfmul_left (gfmul b c)) (fun i hi => ?_) a
  refine ((isXorMap_gfmul_left c).comp (isXorMap_gfmul_right _)).eq_of_bits
    ((isXorMap_gfmul_right _).comp (isXorMap_gfmul_left c)) (fun j hj => ?_) b
  refine (isXorMap_gfmul_right _).eq_of_bits
    ((isXorMap_gfmul_right _).comp (isXorMap_gfmul_right _)) (fun k hk => ?_) c
  revert i j k
  decide +kernel

theorem one_gfmul (a : U8) : gfmul 1 a = a := by
  refine (isXorMap_gfmul_right 1).eq_of_bits isXorMap_id (fun i hi => ?_) a
  revert i
  decide

theorem gfmul_two (a : U8) : gfmul a 2 = xtime a := by
  refine (isXorMap_gfmul_left 2).eq_of_bits isXorMap_xtime (fun i hi => ?_) a
  revert i
  decide

/-- A byte as an element of the field. -/
@[ext] structure Gf where
  bits : U8
  deriving DecidableEq

namespace Gf

instance : Zero Gf := ⟨⟨0⟩⟩
instance : One Gf := ⟨⟨1⟩⟩
instance : Add Gf := ⟨fun a b => ⟨a.bits ^^^ b.bits⟩⟩
instance : Neg Gf := ⟨fun a => a⟩
instance : Mul Gf := ⟨fun a b => ⟨gfmul a.bits b.bits⟩⟩

theorem mk_xor (a b : U8) : (⟨a ^^^ b⟩ : Gf) = ⟨a⟩ + ⟨b⟩ := rfl
theorem mk_gfmul (a b : U8) : (⟨gfmul a b⟩ : Gf) = ⟨a⟩ * ⟨b⟩ := rfl

instance : CommRing Gf where
  add_assoc a b c := Gf.ext (BitVec.xor_assoc ..)
  zero_add a := Gf.ext zero_xor
  add_zero a := Gf.ext xor_zero
  add_comm a b := Gf.ext (BitVec.xor_comm ..)
  neg_add_cancel a := Gf.ext xor_self
  mul_assoc a b c := Gf.ext (gfmul_assoc ..)
  one_mul a := Gf.ext (one_gfmul _)
  mul_one a := Gf.ext ((gfmul_comm ..).trans (one_gfmul _))
  mul_comm a b := Gf.ext (gfmul_comm ..)
  left_distrib a b c := Gf.ext (isXorMap_gfmul_right a.bits b.bits c.bits)
  right_distrib a b c := Gf.ext (isXorMap_gfmul_left c.bits a.bits b.bits)
  zero_mul a := Gf.ext (isXorMap_gfmul_left a.bits).zero
  mul_zero a := Gf.ext (isXorMap_gfmul_right a.bits).zero
  nsmul := nsmulRec
  zsmul := zsmulRec

theorem add_self (a : Gf) : a + a = 0 := Gf.ext xor_self

theorem two_eq_zero : (2 : Gf) = 0 := by
  exact add_self 1

theorem gfpowLoop_eq (k : Nat) (v a : U8) {n : Nat} (lt : n < 2 ^ k) :
    (⟨gfpowLoop k v a n⟩ : Gf) = ⟨v⟩ * ⟨a⟩ ^ n := by
  induction k generalizing v a n with
  | zero =>
    obtain rfl : n = 0 := by omega
    rw [pow_zero, mul_one]
    rfl
  | succ k ih =>
    rw [gfpowLoop]
    by_cases zero : n = 0
    · rw [if_pos zero, zero, pow_zero, mul_one]
    have square : (⟨gfmul a a⟩ : Gf) = ⟨a⟩ ^ 2 := (pow_two (⟨a⟩ : Gf)).symm
    rw [if_neg zero, ih _ _ (by omega), square, ← pow_mul]
    by_cases odd : n % 2 = 1
    · have step : (⟨gfmul v a⟩ : Gf) = ⟨v⟩ * ⟨a⟩ := rfl
      rw [if_pos odd, step, mul_assoc, ← pow_succ']
      congr 2
      omega
    · rw [if_neg odd]
      congr 2
      omega

theorem gfpow_eq (a : U8) {n : Nat} (lt : n < 255) : (⟨gfpow a n⟩ : Gf) = ⟨a⟩ ^ n := by
  have mod : (n : Int).tmod 255 = n := Int.tmod_eq_of_lt (by omega) (by omega)
  have one : (⟨1⟩ : Gf) = 1 := rfl
  rw [gfpow, mod]
  simp only [Int.not_lt.mpr (Int.natCast_nonneg n), if_false, Int.toNat_natCast]
  rw [gfpowLoop_eq 8 1 a (by omega), one, one_mul]

/-- The element two, whose powers are all elements but zero. -/
def generator : Gf := ⟨2⟩

theorem orderOf_generator : orderOf generator = 255 := by
  have pow : generator ^ 255 = 1 := by
    have last : generator ^ 254 = ⟨0x8e⟩ := by
      rw [generator, ← gfpow_eq 2 (show 254 < 255 by omega)]
      exact Gf.ext (by decide)
    rw [pow_succ, last]
    exact Gf.ext (by decide)
  have ne : ∀ m : Nat, m < 255 → 0 < m → gfpow 2 m ≠ 1 := by decide +kernel
  refine (orderOf_eq_iff (by omega)).mpr ⟨pow, fun m lt pos one => ?_⟩
  rw [generator, ← gfpow_eq 2 lt] at one
  exact ne m lt pos (congrArg bits one)

theorem generator_pow_eq_one : generator ^ 255 = 1 := by
  rw [← orderOf_generator]
  exact pow_orderOf_eq_one generator

theorem generator_pow_injOn : Set.InjOn (generator ^ ·) (Set.Iio 255) := by
  rw [← orderOf_generator]
  exact pow_injOn_Iio_orderOf

theorem generator_pow_ne_zero (n : Nat) : generator ^ n ≠ 0 := by
  intro zero
  have one : generator ^ (n * 255) = 1 := by
    rw [mul_comm, pow_mul, generator_pow_eq_one, one_pow]
  rw [pow_mul, zero] at one
  exact absurd (congrArg bits one) (by decide)

instance : Fintype Gf :=
  .ofEquiv (Fin 256) ⟨fun i => ⟨⟨i⟩⟩, fun a => a.bits.toFin, fun _ => rfl, fun _ => rfl⟩

theorem card_gf : Fintype.card Gf = 256 :=
  (Fintype.ofEquiv_card _).trans (Fintype.card_fin 256)

/-- Every element but zero is a power of two: there are as many of them as powers. -/
theorem exists_pow {x : Gf} (ne : x ≠ 0) : ∃ k, x = generator ^ k := by
  have image : (range 255).image (generator ^ ·) = univ.erase 0 := by
    apply eq_of_subset_of_card_le
    · intro y mem
      obtain ⟨k, -, rfl⟩ := mem_image.mp mem
      exact mem_erase.mpr ⟨generator_pow_ne_zero k, mem_univ _⟩
    · rw [card_erase_of_mem (mem_univ _), card_univ, card_gf,
        card_image_of_injOn, card_range]
      simpa using generator_pow_injOn
  have mem : x ∈ univ.erase 0 := mem_erase.mpr ⟨ne, mem_univ _⟩
  rw [← image] at mem
  obtain ⟨k, -, eq⟩ := mem_image.mp mem
  exact ⟨k, eq.symm⟩

theorem mul_gfinv {x : Gf} (ne : x ≠ 0) : x * ⟨raid6Gfinv x.bits⟩ = 1 := by
  obtain ⟨k, rfl⟩ := exists_pow ne
  have inv : (⟨raid6Gfinv (generator ^ k).bits⟩ : Gf) = (generator ^ k) ^ 254 :=
    gfpow_eq _ (show 254 < 255 by omega)
  rw [inv, ← pow_succ', ← pow_mul, mul_comm, pow_mul, generator_pow_eq_one, one_pow]

theorem gfexp_eq {i : Nat} (lt : i < 255) : (⟨raid6Gfexp i⟩ : Gf) = generator ^ i := by
  induction i with
  | zero => rfl
  | succ i ih =>
    have step : (⟨gfmul (raid6Gfexp i) 2⟩ : Gf) = generator ^ (i + 1) := by
      rw [pow_succ, ← ih (by omega)]
      rfl
    have ne : gfmul (raid6Gfexp i) 2 ≠ 1 := by
      intro one
      have one' : generator ^ (i + 1) = generator ^ 0 := by
        rw [← step, one]
        rfl
      have := generator_pow_injOn (Set.mem_Iio.mpr lt) (Set.mem_Iio.mpr (by omega)) one'
      omega
    rw [raid6Gfexp, if_neg ne]
    exact step

end Gf

end Raid6
