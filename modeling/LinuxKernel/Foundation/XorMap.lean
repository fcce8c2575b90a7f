/- Maps of bit vectors that keep exclusive or are given by their values at the single bits. -/
import Mathlib.Data.Nat.Bitwise

namespace XorMap

open BitVec

variable {w v : Nat}

/-- The map takes exclusive or to exclusive or. -/
def IsXorMap (f : BitVec w → BitVec v) : Prop := ∀ x y, f (x ^^^ y) = f x ^^^ f y

theorem IsXorMap.zero {f : BitVec w → BitVec v} (hf : IsXorMap f) : f 0 = 0 := by
  have := hf 0 0
  rw [BitVec.xor_self, BitVec.xor_self] at this
  exact this

theorem IsXorMap.comp {u : Nat} {g : BitVec v → BitVec u} {f : BitVec w → BitVec v}
    (hg : IsXorMap g) (hf : IsXorMap f) : IsXorMap fun x => g (f x) := by
  intro x y
  simp [hf x y, hg (f x) (f y)]

variable {f g : BitVec w → BitVec v}

theorem IsXorMap.xor (hf : IsXorMap f) (hg : IsXorMap g) : IsXorMap fun x => f x ^^^ g x := by
  intro x y
  simp only [hf x y, hg x y]
  ac_rfl

theorem isXorMap_id : IsXorMap fun x : BitVec w => x := fun _ _ => rfl

theorem isXorMap_zero : IsXorMap fun _ : BitVec w => (0 : BitVec v) :=
  fun _ _ => BitVec.xor_self.symm

theorem ite_xor (c : BitVec w) (p q : Bool) :
    (if (p ^^ q) then c else 0) = (if p then c else 0) ^^^ (if q then c else 0) := by
  cases p <;> cases q <;> simp

theorem IsXorMap.eq_of_bits (hf : IsXorMap f) (hg : IsXorMap g)
    (bits : ∀ i < w, f (.twoPow w i) = g (.twoPow w i)) (x : BitVec w) : f x = g x := by
  -- the induction is on a bound for the bits that are set
  have low : ∀ k x, (∀ i, k ≤ i → x.getLsbD i = false) → f x = g x := by
    intro k
    induction k with
    | zero =>
      intro x clear
      have zero : x = 0 := by
        apply eq_of_getLsbD_eq
        intro i _
        rw [clear i (Nat.zero_le i)]
        exact getLsbD_zero.symm
      rw [zero, hf.zero, hg.zero]
    | succ k ih =>
      intro x clear
      cases top : x.getLsbD k with
      | false =>
        apply ih
        intro i hi
        rcases Nat.eq_or_lt_of_le hi with rfl | lt
        · exact top
        · exact clear i lt
      | true =>
        have lt : k < w := lt_of_getLsbD top
        have rest : f (x ^^^ .twoPow w k) = g (x ^^^ .twoPow w k) := by
          apply ih
          intro i hi
          rcases Nat.eq_or_lt_of_le hi with rfl | gt
          · simp [top, lt]
          · simp [clear i gt, Nat.ne_of_lt gt]
        have split : x = (x ^^^ .twoPow w k) ^^^ .twoPow w k := by
          rw [xor_assoc, BitVec.xor_self, xor_zero]
        rw [split, hf, hg, rest, bits k lt]
  exact low w x fun i hi => getLsbD_of_ge x i hi

end XorMap
