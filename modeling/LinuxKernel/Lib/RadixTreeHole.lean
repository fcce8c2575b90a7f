/- Holes of the radix tree: radix_tree_next_hole and radix_tree_prev_hole of lib/radix-tree.c. -/
import LinuxKernel.Lib.RadixTreeRefinement

namespace RadixTree

variable {α : Type} (cfg : Config)

/-- The loop of `radix_tree_next_hole`, with what is left of `max_scan`. -/
def nextHoleLoop (root : cfg.Root α) : Nat → Nat → Nat
  | 0, index => index
  | n + 1, index =>
    if (radixTreeLookup cfg root index).isNone then index
    else
      let index := (index + 1) % 2 ^ cfg.bits
      if index = 0 then index else nextHoleLoop root n index

def radixTreeNextHole (root : cfg.Root α) (index maxScan : Nat) : Nat := nextHoleLoop cfg root maxScan index

def Config.longMax : Nat := 2 ^ (cfg.bits - 1) - 1

def prevHoleLoop (root : cfg.Root α) : Nat → Nat → Nat
  | 0, index => index
  | n + 1, index =>
    if (radixTreeLookup cfg root index).isNone then index
    else
      let index := (index + (2 ^ cfg.bits - 1)) % 2 ^ cfg.bits
      if index = cfg.longMax then index else prevHoleLoop root n index

def radixTreePrevHole (root : cfg.Root α) (index maxScan : Nat) : Nat := prevHoleLoop cfg root maxScan index

/-- The indices from `index` on, `maxScan` of them and none past the last. -/
def NextRange (index maxScan j : Nat) : Prop := index ≤ j ∧ j < index + maxScan ∧ j < 2 ^ cfg.bits

/-- The indices down from `index`, `maxScan` of them. -/
def PrevRange (index maxScan j : Nat) : Prop := j ≤ index ∧ index < j + maxScan

/-- The first absent index of a range, or an index outside it if all are present. -/
def FirstHole (M : Map α) (range : Nat → Prop) (before : Nat → Nat → Prop) (r : Nat) : Prop :=
  (range r ∧ M r = none ∧ ∀ j, range j → M j = none → before r j) ∨ (∀ j, range j → M j ≠ none) ∧ ¬range r

variable {cfg} {root : cfg.Root α} {M : Map α}

theorem lookup_isNone (ref : Refines cfg root M) {i : Nat} (hi : i < 2 ^ cfg.bits) :
    (radixTreeLookup cfg root i).isNone = true ↔ M i = none := by
  rw [radixTreeLookup_eq ref hi, Option.isNone_map, Option.isNone_iff_eq_none]

theorem FirstHole.extend {range range' : Nat → Prop} {before : Nat → Nat → Prop} {r i : Nat}
    (first : FirstHole M range before r) (present : M i ≠ none) (ne : r ≠ i)
    (same : ∀ j, range' j ↔ j = i ∨ range j) : FirstHole M range' before r := by
  rcases first with ⟨inside, hole, least⟩ | ⟨full, outside⟩
  · refine .inl ⟨(same r).mpr (.inr inside), hole, fun j hj none => ?_⟩
    rcases (same j).mp hj with rfl | hj
    · exact absurd none present
    · exact least j hj none
  refine .inr ⟨fun j hj => ?_, fun inside => ?_⟩
  · rcases (same j).mp hj with rfl | hj
    · exact present
    · exact full j hj
  · rcases (same r).mp inside with eq | inside
    · exact ne eq
    · exact outside inside

variable {index : Nat}

theorem succ_mod_eq (hi : index < 2 ^ cfg.bits) :
    (index + 1) % 2 ^ cfg.bits = if index + 1 = 2 ^ cfg.bits then 0 else index + 1 := by
  split_ifs with last
  · rw [last, Nat.mod_self]
  · exact Nat.mod_eq_of_lt (by omega)

theorem pred_mod_eq (hi : index < 2 ^ cfg.bits) :
    (index + (2 ^ cfg.bits - 1)) % 2 ^ cfg.bits = if index = 0 then 2 ^ cfg.bits - 1 else index - 1 := by
  split_ifs with zero
  · rw [zero, Nat.zero_add]
    exact Nat.mod_eq_of_lt (by omega)
  · have shift : index + (2 ^ cfg.bits - 1) = index - 1 + 2 ^ cfg.bits := by omega
    rw [shift, Nat.add_mod_right]
    exact Nat.mod_eq_of_lt (by omega)

/-- The running index goes up, and comes to 0 only past the last index. -/
theorem le_nextHoleLoop (root : cfg.Root α) (n : Nat) (hi : index < 2 ^ cfg.bits) :
    index ≤ nextHoleLoop cfg root n index ∨ nextHoleLoop cfg root n index = 0 ∧ 2 ^ cfg.bits ≤ index + n := by
  induction n generalizing index with
  | zero => exact .inl (Nat.le_refl _)
  | succ n ih =>
    rw [nextHoleLoop, succ_mod_eq hi]
    by_cases hole : (radixTreeLookup cfg root index).isNone = true
    · rw [if_pos hole]
      exact .inl (Nat.le_refl _)
    rw [if_neg hole]
    by_cases last : index + 1 = 2 ^ cfg.bits
    · simp only [if_pos last, if_true]
      exact .inr ⟨trivial, by omega⟩
    · simp only [if_neg last, if_neg (Nat.succ_ne_zero index)]
      have rest := ih (show index + 1 < 2 ^ cfg.bits by omega)
      omega

theorem nextHoleLoop_spec (ref : Refines cfg root M) (n : Nat) (hi : index < 2 ^ cfg.bits)
    (short : n < 2 ^ cfg.bits) : FirstHole M (NextRange cfg index n) (· ≤ ·) (nextHoleLoop cfg root n index) := by
  induction n generalizing index with
  | zero =>
    refine .inr ⟨fun j hj => ?_, fun hr => ?_⟩
    · have := hj.2.1
      have := hj.1
      omega
    · have := hr.2.1
      rw [nextHoleLoop] at this
      omega
  | succ n ih =>
    by_cases hole : M index = none
    · rw [nextHoleLoop, if_pos ((lookup_isNone ref hi).mpr hole)]
      exact .inl ⟨⟨Nat.le_refl _, by omega, hi⟩, hole, fun j hj _ => hj.1⟩
    rw [nextHoleLoop, if_neg (mt (lookup_isNone ref hi).mp hole), succ_mod_eq hi]
    by_cases last : index + 1 = 2 ^ cfg.bits
    · -- the last index of all was present
      simp only [if_pos last, if_true]
      refine .inr ⟨fun j hj => ?_, fun hr => ?_⟩
      · obtain ⟨low, -, high⟩ := hj
        obtain rfl : j = index := by omega
        exact hole
      · have := hr.1
        omega
    · simp only [if_neg last]
      have next : index + 1 < 2 ^ cfg.bits := by omega
      have up := le_nextHoleLoop root n next
      refine (ih next (by omega)).extend hole (by omega) fun j => ?_
      unfold NextRange
      omega

theorem prevHoleLoop_back (root : cfg.Root α) (n : Nat) (hi : index < 2 ^ cfg.bits)
    (short : n < 2 ^ cfg.bits) : prevHoleLoop cfg root n index < 2 ^ cfg.bits ∧ ∃ d ≤ n,
      prevHoleLoop cfg root n index + d = index ∨ prevHoleLoop cfg root n index + d = index + 2 ^ cfg.bits := by
  induction n generalizing index with
  | zero => exact ⟨hi, 0, Nat.le_refl 0, .inl rfl⟩
  | succ n ih =>
    rw [prevHoleLoop, pred_mod_eq hi]
    by_cases hole : (radixTreeLookup cfg root index).isNone = true
    · rw [if_pos hole]
      exact ⟨hi, 0, Nat.zero_le _, .inl rfl⟩
    rw [if_neg hole]
    have bound : (if index = 0 then 2 ^ cfg.bits - 1 else index - 1) < 2 ^ cfg.bits := by
      split_ifs <;> omega
    obtain ⟨low, d, le, back⟩ := ih bound (by omega)
    generalize here : (if index = 0 then 2 ^ cfg.bits - 1 else index - 1) = i at low back bound ⊢
    have step : i + 1 = index ∨ i + 1 = index + 2 ^ cfg.bits := by
      split_ifs at here <;> omega
    by_cases stop : i = cfg.longMax
    · rw [if_pos stop]
      exact ⟨bound, 1, by omega, step⟩
    · rw [if_neg stop]
      exact ⟨low, d + 1, by omega, by omega⟩

/-- Where the loop of `radix_tree_prev_hole` takes `LONG_MAX` for the end of the scan. -/
def StopsEarly (cfg : Config) (M : Map α) (index maxScan : Nat) : Prop :=
  cfg.longMax < index ∧ PrevRange index maxScan cfg.longMax ∧ ∀ j, cfg.longMax ≤ j → j ≤ index → M j ≠ none

theorem longMax_lt (bits : 0 < cfg.bits) : cfg.longMax + 1 < 2 ^ cfg.bits := by
  have half : 2 ^ cfg.bits = 2 ^ (cfg.bits - 1) * 2 := by
    rw [← Nat.pow_succ, Nat.succ_eq_add_one, Nat.sub_add_cancel bits]
  have := Nat.two_pow_pos (cfg.bits - 1)
  unfold Config.longMax
  omega

theorem prevHoleLoop_spec (ref : Refines cfg root M) (bits : 0 < cfg.bits) (n : Nat)
    (hi : index < 2 ^ cfg.bits) (short : n < 2 ^ cfg.bits) (free : ¬StopsEarly cfg M index n) :
    FirstHole M (PrevRange index n) (· ≥ ·) (prevHoleLoop cfg root n index) := by
  have half := longMax_lt bits
  induction n generalizing index with
  | zero =>
    refine .inr ⟨fun j hj => ?_, fun hr => ?_⟩
    · obtain ⟨high, low⟩ := hj
      omega
    · obtain ⟨high, low⟩ := hr
      omega
  | succ n ih =>
    by_cases hole : M index = none
    · rw [prevHoleLoop, if_pos ((lookup_isNone ref hi).mpr hole)]
      exact .inl ⟨⟨Nat.le_refl _, by omega⟩, hole, fun j hj _ => hj.1⟩
    rw [prevHoleLoop, if_neg (mt (lookup_isNone ref hi).mp hole), pred_mod_eq hi]
    by_cases zero : index = 0
    · -- the rest of the scan is above the range
      subst zero
      have apart : 2 ^ cfg.bits - 1 ≠ cfg.longMax := by omega
      simp only [if_true, if_neg apart]
      obtain ⟨-, d, le, back⟩ := prevHoleLoop_back root n (show 2 ^ cfg.bits - 1 < 2 ^ cfg.bits by omega) (by omega)
      refine .inr ⟨fun j hj => ?_, fun hr => ?_⟩
      · obtain rfl : j = 0 := Nat.le_zero.mp hj.1
        exact hole
      · have := hr.1
        omega
    simp only [if_neg zero]
    by_cases stop : index - 1 = cfg.longMax
    · rw [if_pos stop, stop]
      by_cases more : n = 0
      · refine .inr ⟨fun j hj => ?_, fun hr => ?_⟩
        · obtain ⟨high, low⟩ := hj
          obtain rfl : j = index := by omega
          exact hole
        · have := hr.2
          omega
      have inside : PrevRange index (n + 1) cfg.longMax := ⟨by omega, by omega⟩
      have none : M cfg.longMax = none := by
        by_contra present
        refine free ⟨by omega, inside, fun j low high => ?_⟩
        rcases Nat.lt_or_ge cfg.longMax j with above | below
        · obtain rfl : j = index := by omega
          exact hole
        · obtain rfl : j = cfg.longMax := by omega
          exact present
      refine .inl ⟨inside, none, fun j hj absent => ?_⟩
      have : j ≠ index := fun eq => hole (eq ▸ absent)
      have := hj.1
      omega
    · rw [if_neg stop]
      have next : index - 1 < 2 ^ cfg.bits := by omega
      obtain ⟨-, d, le, back⟩ := prevHoleLoop_back root n next (by omega)
      have free' : ¬StopsEarly cfg M (index - 1) n := by
        rintro ⟨above, ⟨-, low⟩, full⟩
        refine free ⟨by omega, ⟨by omega, by omega⟩, fun j hj high => ?_⟩
        by_cases top : j = index
        · exact top ▸ hole
        · exact full j hj (by omega)
      refine (ih next (by omega) free').extend hole (by omega) fun j => ?_
      unfold PrevRange
      omega

theorem prevHoleLoop_stops (ref : Refines cfg root M) (n : Nat) (hi : index < 2 ^ cfg.bits)
    (early : StopsEarly cfg M index n) : prevHoleLoop cfg root n index = cfg.longMax := by
  induction n generalizing index with
  | zero =>
    obtain ⟨above, ⟨-, low⟩, -⟩ := early
    omega
  | succ n ih =>
    obtain ⟨above, ⟨-, low⟩, full⟩ := early
    have present := full index (Nat.le_of_lt above) (Nat.le_refl _)
    have pos : index ≠ 0 := by omega
    rw [prevHoleLoop, if_neg (mt (lookup_isNone ref hi).mp present), pred_mod_eq hi]
    simp only [if_neg pos]
    by_cases stop : index - 1 = cfg.longMax
    · rw [if_pos stop, stop]
    · rw [if_neg stop]
      exact ih (by omega) ⟨by omega, ⟨by omega, by omega⟩, fun j low high => full j low (by omega)⟩

/-- Scanning up finds the lowest hole of the range. Scanning down finds the highest one, except where
the indices from `LONG_MAX` up to the first one are all present. -/
theorem radix_tree_holes {s : State cfg α} (h : Transition.Reachable (Init cfg) (Step cfg) s) (bits : 0 < cfg.bits)
    (index maxScan : Nat) (hi : index < 2 ^ cfg.bits) (hm : maxScan < 2 ^ cfg.bits) :
    FirstHole s.map (NextRange cfg index maxScan) (· ≤ ·) (radixTreeNextHole cfg s.root index maxScan) ∧
    (FirstHole s.map (PrevRange index maxScan) (· ≥ ·) (radixTreePrevHole cfg s.root index maxScan) ↔
      ¬StopsEarly cfg s.map index maxScan) := by
  obtain ⟨ref, -⟩ := reachable_refines h
  refine ⟨nextHoleLoop_spec ref maxScan hi hm, fun first early => ?_, prevHoleLoop_spec ref bits maxScan hi hm⟩
  have result : radixTreePrevHole cfg s.root index maxScan = cfg.longMax := prevHoleLoop_stops ref maxScan hi early
  obtain ⟨above, inside, full⟩ := early
  rw [result] at first
  rcases first with ⟨-, hole, -⟩ | ⟨-, outside⟩
  · exact full _ (Nat.le_refl _) (Nat.le_of_lt above) hole
  · exact outside inside

def config64 : Config := ⟨6, 64, by decide⟩

theorem middle_reachable : ∃ s : State config64 Nat, Transition.Reachable (Init _) (Step _) s ∧
    s.map (2 ^ 63) ≠ none ∧ s.map (2 ^ 63 - 1) ≠ none ∧ s.map (2 ^ 63 - 2) = none := by
  have one := (empty_reachable config64 Nat).next
    (@Step.insert _ _ _ (2 ^ 63 - 1) 8 (List.replicate 11 .fresh) _ _ _ (by decide) rfl)
  have two := one.next (@Step.insert _ _ _ (2 ^ 63) 9 (List.replicate 11 .fresh) _ _ _ (by decide) rfl)
  exact ⟨_, two, Option.some_ne_none (9, fun _ => false), Option.some_ne_none (8, fun _ => false), rfl⟩

theorem radix_tree_holes_middle : ∃ s : State config64 Nat,
    FirstHole s.map (NextRange config64 (2 ^ 63 - 1) 3) (· ≤ ·) (radixTreeNextHole _ s.root (2 ^ 63 - 1) 3) ∧
    FirstHole s.map (PrevRange (2 ^ 63 - 1) 3) (· ≥ ·) (radixTreePrevHole _ s.root (2 ^ 63 - 1) 3) := by
  obtain ⟨s, reach, -⟩ := middle_reachable
  obtain ⟨next, prev⟩ := radix_tree_holes reach (by decide) (2 ^ 63 - 1) 3 (by decide) (by decide)
  exact ⟨s, next, prev.mpr fun early => absurd early.1 (by decide)⟩

/-- The hole at `LONG_MAX - 1` is in the range, but the scan stops above it, at a page. -/
theorem radix_tree_prev_hole_stops : ∃ s : State config64 Nat,
    Transition.Reachable (Init _) (Step _) s ∧ PrevRange (2 ^ 63) 3 (2 ^ 63 - 2) ∧ s.map (2 ^ 63 - 2) = none ∧
    radixTreePrevHole _ s.root (2 ^ 63) 3 = 2 ^ 63 - 1 ∧ s.map (2 ^ 63 - 1) ≠ none ∧
    ¬FirstHole s.map (PrevRange (2 ^ 63) 3) (· ≥ ·) (radixTreePrevHole _ s.root (2 ^ 63) 3) := by
  obtain ⟨s, reach, upper, lower, hole⟩ := middle_reachable
  obtain ⟨ref, -⟩ := reachable_refines reach
  have early : StopsEarly config64 s.map (2 ^ 63) 3 := by
    refine ⟨by decide, ⟨by decide, by decide⟩, fun j low high => ?_⟩
    rcases Nat.lt_or_ge j (2 ^ 63) with less | more
    · obtain rfl : j = 2 ^ 63 - 1 := by
        have low : 2 ^ 63 - 1 ≤ j := low
        omega
      exact lower
    · obtain rfl : j = 2 ^ 63 := by omega
      exact upper
  have result : radixTreePrevHole _ s.root (2 ^ 63) 3 = 2 ^ 63 - 1 := prevHoleLoop_stops ref 3 (by decide) early
  refine ⟨s, reach, ⟨by decide, by decide⟩, hole, result, lower, ?_⟩
  rw [result]
  rintro (⟨-, none, -⟩ | ⟨-, outside⟩)
  · exact lower none
  · exact outside ⟨by decide, by decide⟩

end RadixTree
