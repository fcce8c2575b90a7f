/- RAID-6 recovers every two data blocks, and every data block with P. -/
import Mathlib.Algebra.BigOperators.Group.Finset.Basic
import Mathlib.Algebra.BigOperators.Ring.Finset
import LinuxKernel.Drivers.Raid6Field

namespace Raid6

open Lanes Function

section Words

variable (cfg : Config)

theorem nsize_pos : 0 < cfg.nsize := by
  unfold Config.nsize
  split <;> omega

variable {j : Nat}

theorem byte_nbytes_poly (lt : j < cfg.nsize) : byte (cfg.nbytes 0x1d) j = 0x1d := by
  obtain ⟨long, bigEndian, unroll, pos⟩ := cfg
  cases long with
  | bits32 =>
    revert j
    change ∀ j < 4, byte (BitVec.ofNat 32 _) j = _
    decide
  | bits64 =>
    revert j
    change ∀ j < 8, byte (BitVec.ofNat 64 _) j = _
    decide

theorem isHigh_nbytes : IsHigh (cfg.nbytes 0x80) := by
  obtain ⟨long, bigEndian, unroll, pos⟩ := cfg
  cases long with
  | bits32 =>
    change ∀ i < 32, (BitVec.ofNat 32 _).getLsbD i = _
    decide
  | bits64 =>
    change ∀ i < 64, (BitVec.ofNat 64 _).getLsbD i = _
    decide

theorem nbytes_shift (lt : j < cfg.nsize) : ∀ i < 8, (cfg.nbytes 0xfe).getLsbD (8 * j + i) = decide (i ≠ 0) := by
  obtain ⟨long, bigEndian, unroll, pos⟩ := cfg
  cases long with
  | bits32 =>
    revert j
    change ∀ j < 4, ∀ i < 8, (BitVec.ofNat 32 _).getLsbD (8 * j + i) = _
    decide
  | bits64 =>
    revert j
    change ∀ j < 8, ∀ i < 8, (BitVec.ofNat 64 _).getLsbD (8 * j + i) = _
    decide

theorem byte_double (v : cfg.Word) (lt : j < cfg.nsize) :
    byte (cfg.shlbyte v ^^^ (cfg.mask v &&& cfg.nbytes 0x1d)) j = xtime (byte v j) := by
  rw [byte_xor, byte_and, Config.shlbyte, byte_shl _ _ (by omega) (nbytes_shift cfg lt), Config.mask,
    byte_mask (isHigh_nbytes cfg), byte_nbytes_poly cfg lt, xtime_eq]
  split <;> rfl

/-- `wp` for one byte of each disk, or `wq` if the step is `xtime`. -/
def sumByte (step : U8 → U8) (d : Nat → U8) : Nat → U8 → U8
  | 0, w => w
  | z + 1, w => sumByte step d z (step w ^^^ d z)

theorem sumByte_congr {d d' : Nat → U8} {z : Nat} (agree : ∀ i < z, d i = d' i) (step : U8 → U8) (w : U8) :
    sumByte step d z w = sumByte step d' z w := by
  induction z generalizing w with
  | zero => rfl
  | succ z ih => rw [sumByte, sumByte, agree z (Nat.lt_succ_self z), ih fun i lt => agree i (by omega)]

theorem byte_syndromeLoop (wd : Nat → cfg.Word) (z : Nat) (wp wq : cfg.Word) (lt : j < cfg.nsize) :
    byte (cfg.syndromeLoop wd z wp wq).1 j = sumByte id (fun z => byte (wd z) j) z (byte wp j) ∧
      byte (cfg.syndromeLoop wd z wp wq).2 j = sumByte xtime (fun z => byte (wd z) j) z (byte wq j) := by
  induction z generalizing wp wq with
  | zero => exact ⟨rfl, rfl⟩
  | succ z ih =>
    obtain ⟨ihp, ihq⟩ := ih (wp ^^^ wd z)
      ((cfg.shlbyte wq ^^^ (cfg.mask wq &&& cfg.nbytes 0x1d)) ^^^ wd z)
    rw [byte_xor] at ihp ihq
    rw [byte_double cfg wq lt] at ihq
    exact ⟨ihp, ihq⟩

theorem lane_lt {t : Nat} (lt : t < cfg.nsize) : cfg.lane t < cfg.nsize := by
  unfold Config.lane
  split <;> omega

theorem lane_lane {t : Nat} (lt : t < cfg.nsize) : cfg.lane (cfg.lane t) = t := by
  unfold Config.lane
  split <;> omega

end Words

section Syndrome

variable {cfg : Config} {Ptr : Type} [DecidableEq Ptr]

theorem storeAll_apply (p : Ptr) (d : Nat) (w : Nat → cfg.Word) (k : Nat) (mem : Mem Ptr) (r : Ptr) (o : Nat) :
    cfg.storeAll p d w k mem r o = if r = p ∧ d ≤ o ∧ o < d + k * cfg.nsize then
        byte (w ((o - d) / cfg.nsize)) (cfg.lane ((o - d) % cfg.nsize)) else mem r o := by
  have pos := nsize_pos cfg
  induction k with
  | zero =>
    rw [if_neg (by omega)]
    rfl
  | succ k ih =>
    rw [Config.storeAll, Config.store, Nat.add_mul]
    by_cases same : r = p
    · subst same
      rw [update_self]
      by_cases last : d + k * cfg.nsize ≤ o ∧ o < d + k * cfg.nsize + cfg.nsize
      · have index : o - d = o - (d + k * cfg.nsize) + cfg.nsize * k := by
          rw [Nat.mul_comm cfg.nsize k]
          omega
        have off : o - (d + k * cfg.nsize) < cfg.nsize := by omega
        rw [if_pos last, if_pos ⟨rfl, by omega, by omega⟩, index, Nat.add_mul_div_left _ _ pos,
          Nat.div_eq_of_lt off, Nat.zero_add, Nat.add_mul_mod_self_left, Nat.mod_eq_of_lt off]
      · rw [if_neg last, ih]
        congr 1
        apply propext
        constructor
        all_goals
          rintro ⟨-, ge, lt⟩
          exact ⟨rfl, ge, by omega⟩
    · rw [update_of_ne same, ih, if_neg (fun h => same h.1), if_neg (fun h => same h.1)]

/-- The byte of P or of Q that `gen_syndrome` writes at an offset. -/
def syndrome (step : U8 → U8) (mem : Mem Ptr) (dptr : Nat → Ptr) (z₀ o : Nat) : U8 :=
  sumByte step (fun z => mem (dptr z) o) z₀ (mem (dptr z₀) o)

omit [DecidableEq Ptr] in
theorem byte_syndromeWord (mem : Mem Ptr) (dptr : Nat → Ptr) (z₀ d : Nat) {o : Nat} (ge : d ≤ o) :
    byte (cfg.syndromeWord mem dptr z₀ (d + (o - d) / cfg.nsize * cfg.nsize)).1
        (cfg.lane ((o - d) % cfg.nsize)) = syndrome id mem dptr z₀ o ∧
      byte (cfg.syndromeWord mem dptr z₀ (d + (o - d) / cfg.nsize * cfg.nsize)).2
        (cfg.lane ((o - d) % cfg.nsize)) = syndrome xtime mem dptr z₀ o := by
  have lt : (o - d) % cfg.nsize < cfg.nsize := Nat.mod_lt _ (nsize_pos cfg)
  have off : d + (o - d) / cfg.nsize * cfg.nsize + (o - d) % cfg.nsize = o := by
    have := Nat.div_add_mod (o - d) cfg.nsize
    rw [Nat.mul_comm] at this
    omega
  have load (z : Nat) : byte (cfg.load (mem (dptr z)) (d + (o - d) / cfg.nsize * cfg.nsize))
      (cfg.lane ((o - d) % cfg.nsize)) = mem (dptr z) o := by
    rw [Config.load, byte_ofBytes _ (lane_lt cfg lt), lane_lane cfg lt, off]
  have loop := byte_syndromeLoop cfg
    (fun z => cfg.load (mem (dptr z)) (d + (o - d) / cfg.nsize * cfg.nsize)) z₀
    (cfg.load (mem (dptr z₀)) (d + (o - d) / cfg.nsize * cfg.nsize))
    (cfg.load (mem (dptr z₀)) (d + (o - d) / cfg.nsize * cfg.nsize)) (lane_lt cfg lt)
  simp only [load] at loop
  exact loop

/-- The disks of a stripe with that many data disks: the blocks of P and Q are apart from each other
and from those of the data. -/
structure Apart (dptr : Nat → Ptr) (n : Nat) : Prop where
  pq : dptr n ≠ dptr (n + 1)
  p : ∀ z < n, dptr z ≠ dptr n
  q : ∀ z < n, dptr z ≠ dptr (n + 1)

section Run

variable {dptr : Nat → Ptr} {n : Nat}

/-- What `gen_syndrome` has done to the blocks, up to an offset: P and Q of the data are in place, and
no other block has changed. -/
structure Generated (dptr : Nat → Ptr) (n bytes : Nat) (mem mem' : Mem Ptr) : Prop where
  p : ∀ o < bytes, mem' (dptr n) o = syndrome id mem dptr (n - 1) o
  q : ∀ o < bytes, mem' (dptr (n + 1)) o = syndrome xtime mem dptr (n - 1) o
  rest : ∀ r, r ≠ dptr n → r ≠ dptr (n + 1) → mem' r = mem r

theorem syndromeRound_apply (two : 2 ≤ n) (d : Nat) (mem : Mem Ptr) (r : Ptr) (o : Nat) :
    cfg.syndromeRound (n + 2) dptr d mem r o =
      if r = dptr (n + 1) ∧ d ≤ o ∧ o < d + cfg.stride then syndrome xtime mem dptr (n - 1) o
      else if r = dptr n ∧ d ≤ o ∧ o < d + cfg.stride then syndrome id mem dptr (n - 1) o else mem r o := by
  have z₀ : n + 2 - 3 = n - 1 := by omega
  have zp : n - 1 + 1 = n := by omega
  have zq : n - 1 + 2 = n + 1 := by omega
  have stride : cfg.unroll * cfg.nsize = cfg.stride := rfl
  simp only [Config.syndromeRound, z₀, zp, zq, storeAll_apply, stride]
  by_cases inQ : r = dptr (n + 1) ∧ d ≤ o ∧ o < d + cfg.stride
  · rw [if_pos inQ, if_pos inQ, (byte_syndromeWord mem dptr (n - 1) d inQ.2.1).2]
  rw [if_neg inQ, if_neg inQ]
  by_cases inP : r = dptr n ∧ d ≤ o ∧ o < d + cfg.stride
  · rw [if_pos inP, if_pos inP, (byte_syndromeWord mem dptr (n - 1) d inP.2.1).1]
  · rw [if_neg inP, if_neg inP]

theorem Generated.round (apart : Apart dptr n) (two : 2 ≤ n) {mem mem' : Mem Ptr} {k : Nat}
    (gen : Generated dptr n (k * cfg.stride) mem mem') : Generated dptr n ((k + 1) * cfg.stride) mem
      (cfg.syndromeRound (n + 2) dptr (k * cfg.stride) mem') := by
  have data : ∀ z, z < n → mem' (dptr z) = mem (dptr z) :=
    fun z lt => gen.rest _ (apart.p z lt) (apart.q z lt)
  have same (step : U8 → U8) (o : Nat) : syndrome step mem' dptr (n - 1) o = syndrome step mem dptr (n - 1) o := by
    rw [syndrome, data (n - 1) (by omega)]
    exact sumByte_congr (fun i lt => by rw [data i (by omega)]) _ _
  have edge : (k + 1) * cfg.stride = k * cfg.stride + cfg.stride := Nat.succ_mul ..
  refine ⟨fun o lt => ?_, fun o lt => ?_, fun r hp hq => ?_⟩
  · rw [syndromeRound_apply two, if_neg (fun h => apart.pq h.1)]
    by_cases new : k * cfg.stride ≤ o
    · rw [if_pos ⟨rfl, new, by omega⟩, same]
    · rw [if_neg (fun h => new h.2.1), gen.p o (by omega)]
  · rw [syndromeRound_apply two]
    by_cases new : k * cfg.stride ≤ o
    · rw [if_pos ⟨rfl, new, by omega⟩, same]
    · rw [if_neg (fun h => new h.2.1), if_neg (fun h => new h.2.1), gen.q o (by omega)]
  · funext o
    rw [syndromeRound_apply two, if_neg (fun h => hq h.1), if_neg (fun h => hp h.1), gen.rest r hp hq]

theorem syndromeRounds_spec (apart : Apart dptr n) (two : 2 ≤ n) (mem : Mem Ptr) (k : Nat) :
    Generated dptr n (k * cfg.stride) mem (cfg.syndromeRounds (n + 2) dptr k mem) := by
  induction k with
  | zero =>
    refine ⟨fun o lt => ?_, fun o lt => ?_, fun _ _ _ => rfl⟩
    all_goals
      rw [Nat.zero_mul] at lt
      cases lt
  | succ k ih => exact ih.round apart two

theorem syndromeRounds_past (two : 2 ≤ n) (mem : Mem Ptr) (k : Nat) (r : Ptr) {o : Nat}
    (past : k * cfg.stride ≤ o) : cfg.syndromeRounds (n + 2) dptr k mem r o = mem r o := by
  induction k with
  | zero => rfl
  | succ k ih =>
    have edge : (k + 1) * cfg.stride = k * cfg.stride + cfg.stride := Nat.succ_mul ..
    rw [Config.syndromeRounds, syndromeRound_apply two, if_neg (by omega), if_neg (by omega),
      ih (by omega)]

theorem genSyndrome_past (two : 2 ≤ n) {bytes : Nat} (whole : cfg.stride ∣ bytes) (mem : Mem Ptr)
    (r : Ptr) {o : Nat} (past : bytes ≤ o) : cfg.genSyndrome (n + 2) bytes dptr mem r o = mem r o := by
  have pos : 0 < cfg.stride := Nat.mul_pos cfg.unroll_pos (nsize_pos cfg)
  obtain ⟨k, rfl⟩ := whole
  have rounds : (cfg.stride * k + cfg.stride - 1) / cfg.stride = k := by
    rw [show cfg.stride * k + cfg.stride - 1 = cfg.stride - 1 + cfg.stride * k by omega,
      Nat.add_mul_div_left _ _ pos, Nat.div_eq_of_lt (by omega), Nat.zero_add]
  rw [Config.genSyndrome, rounds]
  exact syndromeRounds_past two mem k r (by rwa [Nat.mul_comm])

theorem genSyndrome_spec (cfg : Config) (apart : Apart dptr n) (two : 2 ≤ n) (bytes : Nat) (mem : Mem Ptr) :
    Generated dptr n bytes mem (cfg.genSyndrome (n + 2) bytes dptr mem) := by
  have pos : 0 < cfg.stride := Nat.mul_pos cfg.unroll_pos (nsize_pos cfg)
  have rounds := @syndromeRounds_spec cfg _ _ _ _ apart two mem ((bytes + cfg.stride - 1) / cfg.stride)
  have enough : bytes ≤ (bytes + cfg.stride - 1) / cfg.stride * cfg.stride := by
    have := Nat.lt_div_mul_add (a := bytes + cfg.stride - 1) pos
    omega
  exact ⟨fun o lt => rounds.p o (by omega), fun o lt => rounds.q o (by omega), rounds.rest⟩

end Run

end Syndrome

section Sums

open Gf Finset

variable {step : U8 → U8} {g : Gf} (hs : ∀ w, (⟨step w⟩ : Gf) = ⟨w⟩ * g)

include hs

theorem sumByte_eq (d : Nat → U8) (z : Nat) (w : U8) :
    (⟨sumByte step d z w⟩ : Gf) = g ^ z * ⟨w⟩ + ∑ k ∈ range z, g ^ k * ⟨d k⟩ := by
  induction z generalizing w with
  | zero =>
    rw [pow_zero, one_mul]
    exact (add_zero _).symm
  | succ z ih =>
    rw [sumByte, ih, mk_xor, hs, sum_range_succ]
    ring

variable {Ptr : Type} {mem : Mem Ptr} {dptr : Nat → Ptr}

theorem syndrome_eq {n : Nat} (pos : 0 < n) (o : Nat) :
    (⟨syndrome step mem dptr (n - 1) o⟩ : Gf) = ∑ k ∈ range n, g ^ k * ⟨mem (dptr k) o⟩ := by
  obtain ⟨z, rfl⟩ : ∃ z, n = z + 1 := ⟨n - 1, by omega⟩
  rw [syndrome, Nat.add_sub_cancel, sumByte_eq hs, sum_range_succ, add_comm]

omit hs in
theorem sum_add_without {f g : Nat → Gf} {n : Nat} {s : Finset Nat} (sub : s ⊆ range n)
    (left : ∀ k < n, g k = if k ∈ s then 0 else f k) : ∑ k ∈ range n, f k + ∑ k ∈ range n, g k = ∑ k ∈ s, f k := by
  have gone : ∑ k ∈ s, g k = 0 := sum_eq_zero fun k hk => by rw [left k (mem_range.mp (sub hk)), if_pos hk]
  have rest : ∑ k ∈ range n \ s, g k = ∑ k ∈ range n \ s, f k := by
    apply sum_congr rfl
    intro k hk
    obtain ⟨lt, out⟩ := mem_sdiff.mp hk
    rw [left k (mem_range.mp lt), if_neg out]
  rw [← sum_sdiff sub, ← sum_sdiff sub, gone, rest]
  linear_combination (∑ k ∈ range n \ s, f k) * two_eq_zero

theorem syndrome_add {mem' : Mem Ptr} {dptr' : Nat → Ptr} {n o : Nat} {s : Finset Nat} (pos : 0 < n)
    (sub : s ⊆ range n) (left : ∀ k < n, mem' (dptr' k) o = if k ∈ s then 0 else mem (dptr k) o) :
    (⟨syndrome step mem dptr (n - 1) o⟩ + ⟨syndrome step mem' dptr' (n - 1) o⟩ : Gf) =
      ∑ k ∈ s, g ^ k * ⟨mem (dptr k) o⟩ := by
  rw [syndrome_eq hs pos, syndrome_eq hs pos]
  refine sum_add_without sub fun k hk => ?_
  rw [left k hk, apply_ite mk, mul_ite]
  exact if_congr Iff.rfl (mul_zero _) rfl

end Sums

section Solution

open Gf

theorem eq_of_add_eq_zero {x y : Gf} (zero : x + y = 0) : x = y := by
  linear_combination zero - y * two_eq_zero

variable {a : Nat}

theorem solve_two {b : Nat} (ab : a < b) (lt : b < 255) (x y : Gf) :
    ⟨raid6Gfexi (b - a)⟩ * (x + y) + ⟨raid6Gfinv (raid6Gfexp a ^^^ raid6Gfexp b)⟩ *
      (generator ^ a * x + generator ^ b * y) = y := by
  set i : Gf := ⟨raid6Gfinv (raid6Gfexp a ^^^ raid6Gfexp b)⟩ with hi
  set e : Gf := ⟨raid6Gfexi (b - a)⟩ with he
  have distinct {j k : Nat} (jl : j < 255) (kl : k < 255) (ne : j ≠ k) :
      generator ^ j + generator ^ k ≠ 0 :=
    fun zero => ne (generator_pow_injOn (Set.mem_Iio.mpr jl) (Set.mem_Iio.mpr kl)
      (eq_of_add_eq_zero zero))
  have inv : (generator ^ a + generator ^ b) * i = 1 := by
    have bits : raid6Gfexp a ^^^ raid6Gfexp b = (generator ^ a + generator ^ b).bits := by
      rw [← gfexp_eq (ab.trans lt), ← gfexp_eq lt]
      rfl
    rw [hi, bits]
    exact mul_gfinv (distinct (ab.trans lt) lt ab.ne)
  have inv' : (generator ^ (b - a) + 1) * e = 1 := by
    have bits : raid6Gfexp (b - a) ^^^ 1 = (generator ^ (b - a) + generator ^ 0).bits := by
      rw [← gfexp_eq (show b - a < 255 by omega)]
      rfl
    rw [he, raid6Gfexi, bits, ← pow_zero generator]
    exact mul_gfinv (distinct (by omega) (by omega) (by omega))
  have shift : generator ^ b = generator ^ a * generator ^ (b - a) := by
    rw [← pow_add, Nat.add_sub_cancel' ab.le]
  rw [shift] at inv ⊢
  have same : e = generator ^ a * i := by
    linear_combination -e * inv + generator ^ a * i * inv'
  rw [same]
  linear_combination y * inv + generator ^ a * i * x * two_eq_zero

theorem solve_one (lt : a < 255) (x : Gf) : ⟨raid6Gfinv (raid6Gfexp a)⟩ * (generator ^ a * x) = x := by
  have inv : generator ^ a * ⟨raid6Gfinv (raid6Gfexp a)⟩ = 1 := by
    have := mul_gfinv (generator_pow_ne_zero a)
    rwa [← gfexp_eq lt] at this ⊢
  linear_combination x * inv

theorem solve_two_bytes {b : Nat} (ab : a < b) (lt : b < 255) {x y px qx : U8} (hp : (⟨px⟩ : Gf) = ⟨x⟩ + ⟨y⟩)
    (hq : (⟨qx⟩ : Gf) = generator ^ a * ⟨x⟩ + generator ^ b * ⟨y⟩) : raid6Gfmul (raid6Gfexi (b - a)) px ^^^
        raid6Gfmul (raid6Gfinv (raid6Gfexp a ^^^ raid6Gfexp b)) qx = y ∧ y ^^^ px = x := by
  constructor
  · have solved := solve_two ab lt ⟨x⟩ ⟨y⟩
    rw [← hp, ← hq, ← mk_gfmul, ← mk_gfmul] at solved
    exact congrArg bits solved
  · have sum : (⟨y⟩ + ⟨px⟩ : Gf) = ⟨x⟩ := by
      rw [hp]
      linear_combination (⟨y⟩ : Gf) * two_eq_zero
    exact congrArg bits sum

end Solution

section Tables

variable {Ptr : Type}

/-- The pointers of a stripe with that many data disks, to blocks of their own. -/
structure Stripe (zeroPage : Ptr) (ptrs : Nat → Ptr) (n : Nat) : Prop where
  inj : ∀ y < n + 2, ∀ z < n + 2, ptrs y = ptrs z → y = z
  noZero : ∀ z < n + 2, ptrs z ≠ zeroPage

variable {zeroPage : Ptr} {ptrs : Nat → Ptr} {n a b : Nat}

theorem Stripe.ne (stripe : Stripe zeroPage ptrs n) {y z : Nat} (hy : y < n + 2)
    (hz : z < n + 2) (ne : y ≠ z) : ptrs y ≠ ptrs z :=
  fun eq => ne (stripe.inj y hy z hz eq)

theorem Stripe.apart (stripe : Stripe zeroPage ptrs n) : Apart ptrs n where
  pq := stripe.ne (by omega) (by omega) (by omega)
  p z lt := stripe.ne (by omega) (by omega) (by omega)
  q z lt := stripe.ne (by omega) (by omega) (by omega)

/-- The pointer table with which `raid6_2data_recov` calls `gen_syndrome`. -/
def blankTwo (zeroPage : Ptr) (ptrs : Nat → Ptr) (n a b : Nat) : Nat → Ptr :=
  update (update (update (update ptrs a zeroPage) n (ptrs a))
    b zeroPage) (n + 1) (ptrs b)

/-- A table in which the blocks `x` and `y` are lost: `gen_syndrome` reads zeros for them and writes into them. -/
structure Blanks (zeroPage : Ptr) (ptrs : Nat → Ptr) (n x y : Nat) (dptr : Nat → Ptr) : Prop where
  data : ∀ z < n, dptr z = if z = x ∨ z = y then zeroPage else ptrs z
  p : dptr n = ptrs x
  q : dptr (n + 1) = ptrs y

theorem Blanks.apart {x y : Nat} {dptr : Nat → Ptr} (h : Blanks zeroPage ptrs n x y dptr)
    (stripe : Stripe zeroPage ptrs n)
    (hx : x < n + 2) (hy : y < n + 2) (ne : x ≠ y) : Apart dptr n := by
  have apart (c : Nat) (hc : c = x ∨ c = y) : ∀ z < n, dptr z ≠ ptrs c := by
    intro z lt
    rw [h.data z lt]
    split
    · exact (stripe.noZero c (by omega)).symm
    · exact stripe.ne (by omega) (by omega) (by omega)
  refine ⟨?_, ?_, ?_⟩
  · rw [h.p, h.q]
    exact stripe.ne hx hy ne
  · rw [h.p]
    exact apart x (.inl rfl)
  · rw [h.q]
    exact apart y (.inr rfl)

theorem blankTwo_blanks (ab : a < b) (bn : b < n) : Blanks zeroPage ptrs n a b (blankTwo zeroPage ptrs n a b) where
  data z lt := by
    simp only [blankTwo]
    grind
  p := by
    simp only [blankTwo]
    grind
  q := update_self ..

/-- The pointer table with which `raid6_datap_recov` calls `gen_syndrome`. -/
def blankOne (zeroPage : Ptr) (ptrs : Nat → Ptr) (n a : Nat) : Nat → Ptr :=
  update (update ptrs a zeroPage) (n + 1) (ptrs a)

theorem blankOne_blanks (an : a < n) : Blanks zeroPage ptrs n n a (blankOne zeroPage ptrs n a) where
  data z lt := by
    simp only [blankOne]
    grind
  p := by
    simp only [blankOne]
    grind
  q := update_self ..

end Tables

section Recovery

variable {Ptr : Type} [DecidableEq Ptr]

/-- A loop whose every round computes the next byte of two blocks from that byte of all blocks. -/
theorem bytewise_apply {u v : Ptr} {loop : Nat → Mem Ptr → Mem Ptr} (fu fv : (Ptr → U8) → U8)
    (zero : ∀ mem, loop 0 mem = mem) (succ : ∀ i mem, loop (i + 1) mem =
      let now := loop i mem
      update (update now v (update (now v) i (fv (now · i)))) u (update (now u) i (fu (now · i))))
    (k : Nat) (mem : Mem Ptr) (r : Ptr) (o : Nat) : loop k mem r o =
      if o < k then if r = u then fu (mem · o) else if r = v then fv (mem · o) else mem r o else mem r o := by
  induction k generalizing r o with
  | zero => rw [zero, if_neg (Nat.not_lt_zero o)]
  | succ k ih =>
    have here : (loop k mem · k) = (mem · k) := funext fun r => by rw [ih, if_neg (Nat.lt_irrefl k)]
    have later : o < k + 1 ↔ o < k ∨ o = k := Nat.lt_succ_iff_lt_or_eq
    simp only [succ, here]
    by_cases hu : r = u
    · by_cases last : o = k <;> simp [hu, ih, later, last]
    by_cases hv : r = v
    · by_cases last : o = k <;> simp [hv ▸ hu, hv, ih, later, last]
    · simp [hu, hv, ih]

theorem recov2_apply {p q dp dq : Ptr} (ne : dp ≠ dq) (pbmul qmul : U8 → U8) (k : Nat)
    (mem : Mem Ptr) (r : Ptr) (o : Nat) : recov2 p q dp dq pbmul qmul k mem r o = if o < k then
        if r = dp then (pbmul (mem p o ^^^ mem dp o) ^^^ qmul (mem q o ^^^ mem dq o)) ^^^ (mem p o ^^^ mem dp o)
        else if r = dq then pbmul (mem p o ^^^ mem dp o) ^^^ qmul (mem q o ^^^ mem dq o) else mem r o
        else mem r o := by
  let db (now : Ptr → U8) := pbmul (now p ^^^ now dp) ^^^ qmul (now q ^^^ now dq)
  refine bytewise_apply (fun now => db now ^^^ (now p ^^^ now dp)) db (fun _ => rfl) (fun i mem => ?_) k mem r o
  rw [recov2]
  rw [update_of_ne ne]

theorem recov1_apply {p q dq : Ptr} (ne : p ≠ dq) (qmul : U8 → U8) (k : Nat) (mem : Mem Ptr) (r : Ptr) (o : Nat) :
    recov1 p q dq qmul k mem r o = if o < k then if r = p then mem p o ^^^ qmul (mem q o ^^^ mem dq o)
        else if r = dq then qmul (mem q o ^^^ mem dq o) else mem r o else mem r o := by
  let x (now : Ptr → U8) := qmul (now q ^^^ now dq)
  refine bytewise_apply (fun now => now p ^^^ x now) x (fun _ => rfl) (fun i mem => ?_) k mem r o
  rw [recov1]
  rw [update_of_ne ne]

/-- `raid6_2data_recov` in one piece: the table is as before, and the loop works on the syndrome of
the data that is left. -/
theorem raid62dataRecov_eq {zeroPage : Ptr} {ptrs : Nat → Ptr} {n a b : Nat} (cfg : Config)
    (ab : a < b) (bn : b < n) (bytes : Nat) (mem : Mem Ptr) :
    raid62dataRecov cfg zeroPage (n + 2) bytes a b ptrs mem =
      (recov2 (ptrs n) (ptrs (n + 1)) (ptrs a) (ptrs b) (raid6Gfmul (raid6Gfexi (b - a)))
        (raid6Gfmul (raid6Gfinv (raid6Gfexp a ^^^ raid6Gfexp b))) bytes
        (cfg.genSyndrome (n + 2) bytes (blankTwo zeroPage ptrs n a b) mem), ptrs) := by
  have dq : update (update ptrs a zeroPage) n (ptrs a) b = ptrs b := by
    rw [update_of_ne (by omega), update_of_ne (by omega)]
  simp only [raid62dataRecov, Nat.add_sub_cancel, dq]
  refine congrArg (Prod.mk _) (funext fun z => ?_)
  grind

open Gf

section Blocks

variable {zeroPage : Ptr} {ptrs : Nat → Ptr} {n bytes : Nat} {mem gen : Mem Ptr}

section Lost

variable {lost mid : Mem Ptr} {x y : Nat} {dptr : Nat → Ptr} (stripe : Stripe zeroPage ptrs n)
  (made : Generated ptrs n bytes mem gen) (hx : x < n + 2) (hy : y < n + 2)
  (kept : ∀ r, r ≠ ptrs x → r ≠ ptrs y → lost r = gen r) (blanks : Blanks zeroPage ptrs n x y dptr)
  (syn : Generated dptr n bytes lost mid)

omit [DecidableEq Ptr]

include blanks syn

theorem mid_rest : ∀ r, r ≠ ptrs x → r ≠ ptrs y → mid r = lost r := by
  have := syn.rest
  rwa [blanks.p, blanks.q] at this

include stripe kept hx hy

theorem mid_kept {z : Nat} (lt : z < n + 2) (zx : z ≠ x) (zy : z ≠ y) : mid (ptrs z) = gen (ptrs z) := by
  have ne_x := stripe.ne lt hx zx
  have ne_y := stripe.ne lt hy zy
  rw [mid_rest blanks syn _ ne_x ne_y, kept _ ne_x ne_y]

include made

theorem lost_sum (zero : ∀ o, mem zeroPage o = 0) {s : Finset Nat} (hs : ∀ z, z ∈ s ↔ z < n ∧ (z = x ∨ z = y))
    (pos : 0 < n) {o : Nat} (lt : o < bytes) :
    (⟨gen (ptrs n) o⟩ + ⟨mid (ptrs x) o⟩ : Gf) = ∑ k ∈ s, ⟨mem (ptrs k) o⟩ ∧
      (⟨gen (ptrs (n + 1)) o⟩ + ⟨mid (ptrs y) o⟩ : Gf) = ∑ k ∈ s, generator ^ k * ⟨mem (ptrs k) o⟩ := by
  -- the data that `gen_syndrome` sees
  have left (k : Nat) (hk : k < n) : lost (dptr k) o = if k ∈ s then 0 else mem (ptrs k) o := by
    simp only [blanks.data k hk, hs, hk, true_and]
    split
    · rw [kept _ (stripe.noZero x (by omega)).symm (stripe.noZero y (by omega)).symm,
        made.rest _ (stripe.noZero n (by omega)).symm (stripe.noZero (n + 1) (by omega)).symm, zero]
    · rw [kept _ (stripe.ne (by omega) hx (by omega)) (stripe.ne (by omega) hy (by omega)),
        made.rest _ (stripe.apart.p k hk) (stripe.apart.q k hk)]
  have sub : s ⊆ Finset.range n := fun z hz => Finset.mem_range.mpr ((hs z).mp hz).1
  rw [made.p o lt, made.q o lt, ← blanks.p, ← blanks.q, syn.p o lt, syn.q o lt]
  have sum := syndrome_add (fun w => (mul_one (⟨w⟩ : Gf)).symm) pos sub left
  simp only [one_pow, one_mul] at sum
  exact ⟨sum, syndrome_add (fun w => congrArg mk (gfmul_two w).symm) pos sub left⟩

end Lost

variable (cfg : Config) (stripe : Stripe zeroPage ptrs n) (two : 2 ≤ n) (le : n ≤ 255)
    (zero : ∀ o, mem zeroPage o = 0)
  (made : Generated ptrs n bytes mem gen) {a : Nat} {lost : Mem Ptr}

include stripe two le zero made

theorem two_data_restored {b : Nat} (ab : a < b) (bn : b < n) (kept : ∀ r, r ≠ ptrs a → r ≠ ptrs b → lost r = gen r) :
    ∃ mem', raid62dataRecov cfg zeroPage (n + 2) bytes a b ptrs lost = (mem', ptrs) ∧
      (∀ o < bytes, mem' (ptrs a) o = mem (ptrs a) o ∧ mem' (ptrs b) o = mem (ptrs b) o) ∧
      (∀ r, r ≠ ptrs a → r ≠ ptrs b → mem' r = lost r) ∧
      (cfg.stride ∣ bytes → ∀ r o, bytes ≤ o → mem' r o = lost r o) := by
  have ne : ptrs a ≠ ptrs b := stripe.ne (by omega) (by omega) (by omega)
  have blanks : Blanks zeroPage ptrs n a b _ := blankTwo_blanks ab bn
  let mid := cfg.genSyndrome (n + 2) bytes (blankTwo zeroPage ptrs n a b) lost
  have syn : Generated (blankTwo zeroPage ptrs n a b) n bytes lost mid :=
    genSyndrome_spec cfg (blanks.apart stripe (by omega) (by omega) ab.ne) two bytes lost
  refine ⟨_, raid62dataRecov_eq cfg ab bn bytes lost, fun o lt => ?_, fun r ha hb => ?_, fun whole r o past => ?_⟩
  · obtain ⟨hp, hq⟩ := lost_sum stripe made (by omega) (by omega) kept blanks syn zero
      (s := {a, b}) (by simp only [Finset.mem_insert, Finset.mem_singleton]; omega) (by omega) lt
    rw [Finset.sum_pair ab.ne] at hp hq
    have whole := @mid_kept _ _ _ _ _ _ _ _ _ _ _ stripe (by omega) (by omega) kept blanks syn
    have px : (⟨mid (ptrs n) o ^^^ mid (ptrs a) o⟩ : Gf) = ⟨mem (ptrs a) o⟩ + ⟨mem (ptrs b) o⟩ := by
      rw [mk_xor, whole (by omega) (by omega) (by omega), hp]
    have qx : (⟨mid (ptrs (n + 1)) o ^^^ mid (ptrs b) o⟩ : Gf) =
        generator ^ a * ⟨mem (ptrs a) o⟩ + generator ^ b * ⟨mem (ptrs b) o⟩ := by
      rw [mk_xor, whole (by omega) (by omega) (by omega), hq]
    obtain ⟨db, da⟩ := solve_two_bytes ab (show b < 255 by omega) px qx
    rw [recov2_apply ne, recov2_apply ne, if_pos lt, if_pos lt, if_pos rfl, if_neg ne.symm, if_pos rfl, db]
    exact ⟨da, rfl⟩
  · funext o
    rw [recov2_apply ne, if_neg ha, if_neg hb, ite_self]
    exact congrFun (mid_rest blanks syn r ha hb) o
  · rw [recov2_apply ne, if_neg (by omega), genSyndrome_past two whole _ _ past]

theorem data_and_p_restored (an : a < n) (kept : ∀ r, r ≠ ptrs a → r ≠ ptrs n → lost r = gen r) :
    ∃ mem', raid6DatapRecov cfg zeroPage (n + 2) bytes a ptrs lost = (mem', ptrs) ∧
      (∀ o < bytes, mem' (ptrs a) o = mem (ptrs a) o ∧ mem' (ptrs n) o = gen (ptrs n) o) ∧
      (∀ r, r ≠ ptrs a → r ≠ ptrs n → mem' r = lost r) ∧
      (cfg.stride ∣ bytes → ∀ r o, bytes ≤ o → mem' r o = lost r o) := by
  have ne : ptrs n ≠ ptrs a := stripe.ne (by omega) (by omega) (by omega)
  have blanks : Blanks zeroPage ptrs n n a _ := blankOne_blanks an
  let mid := cfg.genSyndrome (n + 2) bytes (blankOne zeroPage ptrs n a) lost
  have syn : Generated (blankOne zeroPage ptrs n a) n bytes lost mid :=
    genSyndrome_spec cfg (blanks.apart stripe (by omega) (by omega) (by omega)) two bytes lost
  have kept' : ∀ r, r ≠ ptrs n → r ≠ ptrs a → lost r = gen r := fun r hn ha => kept r ha hn
  refine ⟨recov1 (ptrs n) (ptrs (n + 1)) (ptrs a) (raid6Gfmul (raid6Gfinv (raid6Gfexp a))) bytes mid,
    congrArg (Prod.mk _) (funext fun z => by grind), fun o lt => ?_, fun r ha hn => ?_, fun whole r o past => ?_⟩
  · obtain ⟨px, qx⟩ := lost_sum stripe made (by omega) (by omega) kept' blanks syn zero
      (s := {a}) (by simp only [Finset.mem_singleton]; omega) (by omega) lt
    rw [Finset.sum_singleton] at px qx
    rw [← mid_kept stripe (by omega) (by omega) kept' blanks syn (by omega) (by omega) (by omega)] at qx
    have solved := solve_one (show a < 255 by omega) ⟨mem (ptrs a) o⟩
    rw [← qx, ← mk_gfmul] at solved
    have da : raid6Gfmul _ (mid (ptrs (n + 1)) o ^^^ mid (ptrs a) o) = _ := congrArg bits solved
    rw [recov1_apply ne, recov1_apply ne, if_pos lt, if_pos lt, if_neg ne.symm, if_pos rfl, if_pos rfl, da]
    refine ⟨rfl, ?_⟩
    have sum : (⟨mid (ptrs n) o⟩ + ⟨mem (ptrs a) o⟩ : Gf) = ⟨gen (ptrs n) o⟩ := by
      rw [← px]
      linear_combination (⟨mid (ptrs n) o⟩ : Gf) * two_eq_zero
    exact congrArg bits sum
  · funext o
    rw [recov1_apply ne, if_neg ha, if_neg hn, ite_self]
    exact congrFun (mid_rest blanks syn r hn ha) o
  · rw [recov1_apply ne, if_neg (by omega)]
    exact genSyndrome_past two whole _ _ past

end Blocks

/-- For every number of data disks that the tables reach, with P and Q from `gen_syndrome`: whatever
two data blocks were overwritten with, `raid6_2data_recov` restores them, and whatever a data block
and P were overwritten with, `raid6_datap_recov` restores them. Both leave every other block and the
pointer table alone, and write nothing past the blocks if their size is a multiple of the stride. The
words of the two runs of `gen_syndrome` may be different ones. -/
theorem raid6_recovers (made used : Config) {zeroPage : Ptr} {ptrs : Nat → Ptr} {n : Nat}
    (stripe : Stripe zeroPage ptrs n) (two : 2 ≤ n) (le : n ≤ 255) (bytes : Nat) {mem : Mem Ptr}
    (zero : ∀ o, mem zeroPage o = 0) : (∀ a b, a < b → b < n → ∀ lost : Mem Ptr,
      (∀ r, r ≠ ptrs a → r ≠ ptrs b → lost r = made.genSyndrome (n + 2) bytes ptrs mem r) →
      ∃ mem', raid62dataRecov used zeroPage (n + 2) bytes a b ptrs lost = (mem', ptrs) ∧
        (∀ o < bytes, mem' (ptrs a) o = mem (ptrs a) o ∧ mem' (ptrs b) o = mem (ptrs b) o) ∧
        (∀ r, r ≠ ptrs a → r ≠ ptrs b → mem' r = lost r) ∧
        (used.stride ∣ bytes → ∀ r o, bytes ≤ o → mem' r o = lost r o)) ∧ ∀ a, a < n → ∀ lost : Mem Ptr,
      (∀ r, r ≠ ptrs a → r ≠ ptrs n → lost r = made.genSyndrome (n + 2) bytes ptrs mem r) →
      ∃ mem', raid6DatapRecov used zeroPage (n + 2) bytes a ptrs lost = (mem', ptrs) ∧
        (∀ o < bytes, mem' (ptrs a) o = mem (ptrs a) o ∧
          mem' (ptrs n) o = made.genSyndrome (n + 2) bytes ptrs mem (ptrs n) o) ∧
        (∀ r, r ≠ ptrs a → r ≠ ptrs n → mem' r = lost r) ∧
        (used.stride ∣ bytes → ∀ r o, bytes ≤ o → mem' r o = lost r o) := by
  have gen := genSyndrome_spec made stripe.apart two bytes mem
  exact ⟨fun _ _ ab bn _ kept => two_data_restored used stripe two le zero gen ab bn kept,
    fun _ an _ kept => data_and_p_restored used stripe two le zero gen an kept⟩

/-- Three data disks, of which the last two are lost and come back. -/
theorem raid6_recovers_three : ∃ mem' : Mem Nat, raid62dataRecov ⟨.bits64, false, 1, one_pos⟩ 9 5 8 1 2 (fun z => z)
        (update (update (Config.genSyndrome ⟨.bits32, true, 2, two_pos⟩ 5 8
          (fun z => z) fun r o => if r = 9 then 0 else .ofNat 8 (r + o)) 1 fun _ => 0) 2 fun _ => 0) =
        (mem', fun z => z) ∧ ∀ o < 8, mem' 1 o = .ofNat 8 (1 + o) ∧ mem' 2 o = .ofNat 8 (2 + o) := by
  have stripe : Stripe 9 (fun z => z) 3 := ⟨fun _ _ _ _ eq => eq, fun z lt => by omega⟩
  have kept (gen : Mem Nat) (r : Nat) (h₁ : r ≠ 1) (h₂ : r ≠ 2) :
      update (update gen 1 fun _ => 0) 2 (fun _ => 0) r = gen r := by
    rw [update_of_ne h₂, update_of_ne h₁]
  obtain ⟨mem', run, restored, -⟩ :=
    (@raid6_recovers _ _ ⟨.bits32, true, 2, two_pos⟩ ⟨.bits64, false, 1, one_pos⟩ _ _ _ stripe
      (by decide) (by decide) 8 (fun r o => if r = 9 then 0 else .ofNat 8 (r + o)) fun _ => rfl).1
      1 2 (by decide) (by decide) _ (kept _)
  exact ⟨mem', run, restored⟩

end Recovery

end Raid6
