/- `region_count`, which keeps the ends of a segment in an int. -/
import LinuxKernel.Mm.HugetlbRegion

namespace HugetlbRegion

open List

/-- The loop of `region_count`: longs are narrowed to ints, and ints wrap. No segment adds or takes more
than its length, so the long it is summed in does not. -/
def countLoop (f t : Int) : Int → List FileRegion → Int
  | chg, [] => chg
  | chg, rg :: rest =>
    if rg.to_ ≤ f then countLoop f t chg rest
    else if t ≤ rg.from_ then chg
    else
      let segFrom := (max rg.from_ f).bmod (2 ^ 32)
      let segTo := (min rg.to_ t).bmod (2 ^ 32)
      countLoop f t (chg + (segTo - segFrom).bmod (2 ^ 32)) rest

def regionCount (head : List FileRegion) (f t : Int) : Int := countLoop f t 0 head

/-- The part of a region inside a range, with no length when the region is outside. -/
def FileRegion.clip (f t : Int) (rg : FileRegion) : FileRegion :=
  ⟨max rg.from_ f, max (max rg.from_ f) (min rg.to_ t)⟩

/-- The sum of the lengths as ints. -/
def intSum (l : List FileRegion) : Int := (l.map fun rg => (rg.to_ - rg.from_).bmod (2 ^ 32)).sum

section

variable {l : List FileRegion} {f t : Int}

theorem covered_clip (x : Int) : Covered (l.map (.clip f t)) x ↔ Covered l x ∧ f ≤ x ∧ x < t := by
  constructor
  · rintro ⟨_, clipped, low, high⟩
    obtain ⟨rg, mem, rfl⟩ := mem_map.mp clipped
    dsimp only [FileRegion.clip] at low high
    exact ⟨⟨rg, mem, by omega, by omega⟩, by omega, by omega⟩
  · rintro ⟨⟨rg, mem, from_, to_⟩, low, high⟩
    exact ⟨_, mem_map_of_mem mem, max_le from_ low, lt_max_of_lt_right (lt_min to_ high)⟩

/-- An int difference is never above the difference, and below it from `2 ^ 31` on. -/
theorem intSum_le (proper : ∀ rg ∈ l, rg.from_ ≤ rg.to_) :
    intSum l ≤ lenSum l ∧ (intSum l = lenSum l ↔ ∀ rg ∈ l, rg.to_ - rg.from_ < 2 ^ 31) := by
  induction l with
  | nil => simp [intSum]
  | cons rg l ih =>
    rw [forall_mem_cons] at proper
    obtain ⟨le, iff⟩ := ih proper.2
    rw [intSum, map_cons, sum_cons, ← intSum, lenSum_cons, forall_mem_cons, ← iff, Int.bmod_def]
    split_ifs <;> omega

variable (apart : l.Pairwise fun a b => a.to_ ≤ b.from_) (proper : ∀ rg ∈ l, rg.from_ ≤ rg.to_)
include apart proper

theorem ncard_clip : ({x | Covered l x ∧ f ≤ x ∧ x < t}.ncard : Int) = lenSum (l.map (.clip f t)) := by
  simp only [← covered_clip]
  refine ncard_covered (pairwise_map.mpr (apart.imp_of_mem fun {a b} ha hb le => ?_)) ?_
  · have := proper a ha
    simp only [FileRegion.clip]
    omega
  · exact forall_mem_map.mpr fun _ _ => le_max_left _ _

theorem countLoop_eq (le : f ≤ t) (chg : Int) : countLoop f t chg l = chg + intSum (l.map (.clip f t)) := by
  induction l generalizing chg with
  | nil => simp [countLoop, intSum]
  | cons rg l ih =>
    rw [pairwise_cons] at apart
    have := proper rg mem_cons_self
    rw [countLoop]
    split_ifs with before behind
    · rw [ih apart.2 (forall_mem_cons.mp proper).2]
      simp [intSum, FileRegion.clip, before]
    · rw [intSum, sum_eq_zero, add_zero]
      simp only [forall_mem_map, FileRegion.clip]
      intro r mem
      have : t ≤ r.from_ := by grind
      rw [max_eq_left (by omega), sub_self, Int.zero_bmod]
    · rw [ih apart.2 (forall_mem_cons.mp proper).2, ← Int.sub_bmod, intSum, intSum, map_cons, map_cons, sum_cons,
        add_assoc, FileRegion.clip, max_eq_right (by omega : max rg.from_ f ≤ min rg.to_ t)]

end

theorem region_count_exact_iff (head : List FileRegion) (f t : Int) (le : f ≤ t)
    (apart : head.Pairwise fun a b => a.to_ ≤ b.from_) (proper : ∀ rg ∈ head, rg.from_ ≤ rg.to_) :
    regionCount head f t = ({x | Covered head x ∧ f ≤ x ∧ x < t}.ncard : Int) ↔
      ∀ rg ∈ head, min rg.to_ t - max rg.from_ f < 2 ^ 31 := by
  rw [regionCount, countLoop_eq apart proper le, zero_add, ncard_clip apart proper,
    (intSum_le (forall_mem_map.mpr fun _ _ => le_max_left _ _)).2, forall_mem_map]
  refine forall₂_congr fun rg _ => ?_
  simp only [FileRegion.clip]
  omega

theorem region_count_exact_two : regionCount [⟨0, 4⟩, ⟨6, 9⟩] 2 7 =
    ({x | Covered [⟨0, 4⟩, ⟨6, 9⟩] x ∧ 2 ≤ x ∧ x < 7}.ncard : Int) :=
  (region_count_exact_iff _ 2 7 (by decide) (by decide) (by decide)).mpr (by decide)

theorem region_count_narrow :
    regionCount [⟨0, 2 ^ 31⟩] 0 (2 ^ 31) ≠ ({x | Covered [⟨0, 2 ^ 31⟩] x ∧ 0 ≤ x ∧ x < 2 ^ 31}.ncard : Int) := by
  have : regionCount [⟨0, 2 ^ 31⟩] 0 (2 ^ 31) < 0 := by decide
  omega

end HugetlbRegion
