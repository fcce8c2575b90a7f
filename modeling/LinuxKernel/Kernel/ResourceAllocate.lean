/- Allocation of a range among the children of a resource: find_resource and allocate_resource. -/
import Mathlib.Data.Nat.Find
import LinuxKernel.Kernel.ResourceRun

namespace Resource

open Align Function List

variable {ρ : Type} {s : State ρ} {root new : ρ} {w : Wanted} {bits k : Nat}

/-- A start for the range that is wanted: aligned, inside `min` and `max` and the root, and clear of the children. -/
structure Suits (s : State ρ) (root : ρ) (w : Wanted) (t : Nat) : Prop where
  aligned : w.align ∣ t
  min_le : w.min ≤ t
  le_max : t + w.size - 1 ≤ w.max
  start : (s.range root).start ≤ t
  stop : t + w.size - 1 ≤ (s.range root).stop
  clear : ∀ c ∈ s.child root, t + w.size - 1 < (s.range c).start ∨ (s.range c).stop < t

/-- What a call may ask for: no callback, a power of two, and numbers that `resource_size_t` has. -/
structure Request (bits k : Nat) (s : State ρ) (root : ρ) (w : Wanted) : Prop where
  alignf : w.alignf = none
  align : w.align = 2 ^ k
  align_le : k ≤ bits
  one_le : 1 ≤ w.size
  size_le : w.size ≤ 2 ^ bits
  min_lt : w.min < 2 ^ bits
  max_lt : w.max < 2 ^ bits
  root_lt : (s.range root).stop < 2 ^ bits

/-- The lowest start of all. -/
structure Lowest (s : State ρ) (root : ρ) (w : Wanted) (t : Nat) : Prop extends Suits s root w t where
  le : ∀ u, Suits s root w u → t ≤ u

theorem Suits.lowest {t : Nat} (suits : Suits s root w t) : ∃ a, Lowest s root w a := by
  classical
  exact ⟨Nat.find ⟨t, suits⟩, Nat.find_spec ⟨t, suits⟩, fun u => Nat.find_min' ⟨t, suits⟩⟩

/-- The address is neither the last one of a gap nor `max`. -/
def Loose (s : State ρ) (root : ρ) (w : Wanted) (t : Nat) : Prop :=
  t + 1 ≤ w.max ∧ t + 1 ≤ (s.range root).stop ∧ ∀ c ∈ s.child root, (s.range c).start ≠ t + 1

def Begins (bits : Nat) (s : State ρ) (root : ρ) (y : Nat) : Prop :=
  y = (s.range root).start ∨ ∃ c ∈ s.child root, y = ((s.range c).stop + 1) % 2 ^ bits

theorem pred_eq {n : Nat} (pos : 0 < n) (le : n ≤ 2 ^ bits) : (n + (2 ^ bits - 1)) % 2 ^ bits = n - 1 := by
  rw [show n + (2 ^ bits - 1) = n - 1 + 2 ^ bits by omega, Nat.add_mod_right, Nat.mod_eq_of_lt (by omega)]

section Search

variable (req : Request bits k s root w)

include req

theorem clampGap_eq (busy : Bool) (x stop : Nat) :
    clampGap bits w busy x stop = (alignUp bits (max x w.min) (2 ^ k), min stop w.max) := by
  have low : (if x < w.min then w.min else x) = max x w.min := by split_ifs <;> omega
  have high : (if w.max < stop then w.max else stop) = min stop w.max := by split_ifs <;> omega
  simp [clampGap, req.alignf, req.align, low, high]

theorem roomy_iff {gap : Nat × Nat} : roomy bits w gap = true ↔ gap.1 < gap.2 ∧ gap.1 + w.size - 1 ≤ gap.2 := by
  have := req.one_le
  have size := pred_eq req.one_le req.size_le
  simp only [roomy, Bool.and_eq_true, decide_eq_true_eq]
  omega

theorem alignUp_suits {x t : Nat} (suits : Suits s root w t) (le : x ≤ t) :
    max x w.min ≤ alignUp bits (max x w.min) (2 ^ k) ∧ alignUp bits (max x w.min) (2 ^ k) ≤ t ∧
      w.align ∣ alignUp bits (max x w.min) (2 ^ k) := by
  have low : max x w.min ≤ t := max_le le suits.min_le
  have lt : t < 2 ^ bits := by
    have := suits.stop
    have := req.root_lt
    have := req.one_le
    omega
  have dvd : 2 ^ k ∣ t := req.align ▸ suits.aligned
  refine ⟨le_alignUp (add_lt_of_dvd req.align_le low lt dvd), alignUp_le req.align_le low lt dvd, ?_⟩
  rw [req.align]
  exact dvd_alignUp ..

theorem roomy_of_suits {x t stop : Nat} (wide : 2 ≤ w.size ∨ Loose s root w t) (suits : Suits s root w t) (le : x ≤ t)
    (inside : t + w.size - 1 ≤ stop) (last : Loose s root w t → t < stop) :
    roomy bits w (alignUp bits (max x w.min) (2 ^ k), min stop w.max) = true := by
  have := suits.le_max
  obtain ⟨-, low, -⟩ := alignUp_suits req suits le
  rw [roomy_iff req]
  rcases wide with two | loose
  · omega
  · have := last loose
    have := loose.1
    omega

/-- If some start suits, the loop finds one, and none below it suits. -/
theorem findLoop_suits {t : Nat} (node : NodeOk s root) (wide : 2 ≤ w.size ∨ Loose s root w t) (pre : List ρ)
    {l : List ρ} {x : Nat} (chain : s.child root = pre ++ l) (before : ∀ p ∈ pre, (s.range p).stop < x)
    (hx : (s.range root).start ≤ x)
    (pos : ∀ c ∈ l, 0 < (s.range c).start) (suits : Suits s root w t) (le : x ≤ t) :
    ∃ a, findLoop bits s root new w l x = some a ∧ a ≤ t ∧ Suits s root w a := by
  have top := suits.stop
  have bound := req.root_lt
  have one := req.one_le
  have max_bound := suits.le_max
  induction l generalizing pre x with
  | nil =>
    obtain ⟨above, low, aligned⟩ := alignUp_suits req suits le
    rw [findLoop, clampGap_eq req, if_pos]
    · refine ⟨_, rfl, low, aligned, by omega, by omega, by omega, by omega, fun c hc => .inr ?_⟩
      rw [chain, append_nil] at hc
      have := before c hc
      omega
    · exact roomy_of_suits req wide suits le suits.stop fun loose => loose.2.1
  | cons c rest ih =>
    obtain ⟨above, low, aligned⟩ := alignUp_suits req suits le
    have sorted := node.sorted
    rw [chain, pairwise_append, pairwise_cons] at sorted
    have mem : c ∈ s.child root := by simp [chain]
    have inside := node.inside c mem
    have ordered := node.ordered c mem
    have c_pos := pos c (by simp)
    rw [findLoop, clampGap_eq req, pred_eq c_pos (by omega)]
    by_cases room : roomy bits w (alignUp bits (max x w.min) (2 ^ k), min ((s.range c).start - 1) w.max) = true
    · rw [if_pos room]
      have := (roomy_iff req).mp room
      refine ⟨_, rfl, low, aligned, by omega, by omega, by omega, by omega, fun d hd => ?_⟩
      rw [chain, mem_append, mem_cons] at hd
      rcases hd with hd | rfl | hd
      · have := before d hd
        exact .inr (by omega)
      · exact .inl (by omega)
      · have := sorted.2.1.1 d hd
        exact .inl (by omega)
    · -- the start lies after this child
      have after : (s.range c).stop < t := by
        rcases suits.clear c mem with lower | upper
        · refine absurd (roomy_of_suits req wide suits le (by omega) fun loose => ?_) room
          have := loose.2.2 c mem
          omega
        · exact upper
      rw [if_neg room, Nat.mod_eq_of_lt (by omega)]
      have chain' : s.child root = (pre ++ [c]) ++ rest := by simp [chain]
      refine ih (pre ++ [c]) chain' ?_ (by omega) (fun d hd => pos d (by simp [hd])) after
      intro p hp
      rcases mem_append.mp hp with hp | hp
      · have := sorted.2.2 p hp c (by simp)
        omega
      · obtain rfl := mem_singleton.mp hp
        exact Nat.lt_succ_self _

theorem findLoop_some {l : List ρ} {x a : Nat} (h : findLoop bits s root new w l x = some a) :
    a + w.size - 1 ≤ w.max ∧ ∃ y, (y = x ∨ ∃ c ∈ l, y = ((s.range c).stop + 1) % 2 ^ bits) ∧
      a = alignUp bits (max y w.min) (2 ^ k) := by
  induction l generalizing x with
  | nil =>
    rw [findLoop, clampGap_eq req] at h
    split_ifs at h with room
    obtain rfl := Option.some.inj h
    have := ((roomy_iff req).mp room).2
    exact ⟨by simp only at this; omega, x, .inl rfl, rfl⟩
  | cons c rest ih =>
    rw [findLoop, clampGap_eq req] at h
    split_ifs at h with room
    · obtain rfl := Option.some.inj h
      have := ((roomy_iff req).mp room).2
      exact ⟨by simp only at this; omega, x, .inl rfl, rfl⟩
    obtain ⟨le, y, from_, eq⟩ := ih h
    refine ⟨le, y, .inr ?_, eq⟩
    rcases from_ with rfl | ⟨d, hd, hy⟩
    · exact ⟨c, by simp, rfl⟩
    · exact ⟨d, by simp [hd], hy⟩

theorem findResource_suits {t : Nat} (node : NodeOk s root) (wide : 2 ≤ w.size ∨ Loose s root w t)
    (suits : Suits s root w t) : ∃ a, findResource bits s root new w = some a ∧ a ≤ t ∧ Suits s root w a := by
  have top := suits.stop
  have bound := req.root_lt
  have one := req.one_le
  have sorted := node.sorted
  unfold findResource
  cases chain : s.child root with
  | nil => exact findLoop_suits req node wide [] chain nofun le_rfl nofun suits suits.start
  | cons c rest =>
    rw [chain, pairwise_cons] at sorted
    have mem : c ∈ s.child root := by simp [chain]
    have later : ∀ d ∈ rest, 0 < (s.range d).start := fun d hd => Nat.zero_lt_of_lt (sorted.1 d hd)
    by_cases zero : (s.range c).start = 0
    · have after : (s.range c).stop < t := (suits.clear c mem).resolve_left (by omega)
      have := node.inside c mem
      simp only [zero]
      rw [Nat.mod_eq_of_lt (by omega)]
      exact findLoop_suits req node wide [c] chain (by simp) (by omega) later suits after
    · simp only [zero]
      refine findLoop_suits req node wide [] chain nofun le_rfl ?_ suits suits.start
      exact forall_mem_cons.mpr ⟨Nat.pos_of_ne_zero zero, later⟩

/-- Nothing wraps: neither the end of a child plus one nor a rounding. -/
structure Unwrapped (bits : Nat) (s : State ρ) (root : ρ) (w : Wanted) : Prop where
  ends : ∀ c ∈ s.child root, (s.range c).stop + 1 < 2 ^ bits
  rounds : ∀ y, Begins bits s root y → max y w.min + (w.align - 1) < 2 ^ bits

omit req in
theorem Unwrapped.child (h : Unwrapped bits s root w) {c : ρ} (mem : c ∈ s.child root) :
    max ((s.range c).stop + 1) w.min + (w.align - 1) < 2 ^ bits :=
  h.rounds _ (.inr ⟨c, mem, (Nat.mod_eq_of_lt (h.ends c mem)).symm⟩)

/-- A start that is found is not the last address of its gap. -/
theorem findLoop_loose (node : NodeOk s root) (unwrapped : Unwrapped bits s root w) (pre : List ρ) {l : List ρ}
    {x a : Nat} (chain : s.child root = pre ++ l) (before : ∀ p ∈ pre, (s.range p).stop < x)
    (pos : ∀ c ∈ l, 0 < (s.range c).start) (fits : max x w.min + (w.align - 1) < 2 ^ bits)
    (h : findLoop bits s root new w l x = some a) : Loose s root w a := by
  have bound := req.root_lt
  induction l generalizing pre x with
  | nil =>
    rw [findLoop, clampGap_eq req] at h
    split_ifs at h with room
    obtain rfl := Option.some.inj h
    have low := le_alignUp (req.align ▸ fits)
    have := ((roomy_iff req).mp room).1
    simp only at this
    refine ⟨by omega, by omega, fun c hc => ?_⟩
    have := before c (by simpa [chain] using hc)
    have := node.ordered c hc
    omega
  | cons c rest ih =>
    have mem : c ∈ s.child root := by simp [chain]
    have sorted := node.sorted
    rw [chain, pairwise_append, pairwise_cons] at sorted
    have inside := node.inside c mem
    have ordered := node.ordered c mem
    have c_pos := pos c (by simp)
    rw [findLoop, clampGap_eq req] at h
    split_ifs at h with room
    · obtain rfl := Option.some.inj h
      have low := le_alignUp (req.align ▸ fits)
      have := ((roomy_iff req).mp room).1
      simp only [pred_eq c_pos (show (s.range c).start ≤ 2 ^ bits by omega)] at this
      refine ⟨by omega, by omega, fun d hd => ?_⟩
      rw [chain, mem_append, mem_cons] at hd
      rcases hd with hd | rfl | hd
      · have := before d hd
        have := node.ordered d (by simp [chain, hd])
        omega
      · omega
      · have := sorted.2.1.1 d hd
        omega
    · rw [Nat.mod_eq_of_lt (unwrapped.ends c mem)] at h
      refine ih (pre ++ [c]) (by simp [chain]) (fun p hp => ?_) (fun d hd => pos d (by simp [hd]))
        (unwrapped.child mem) h
      rcases mem_append.mp hp with hp | hp
      · have := sorted.2.2 p hp c (by simp)
        omega
      · obtain rfl := mem_singleton.mp hp
        exact Nat.lt_succ_self _

theorem findResource_loose {a : Nat} (node : NodeOk s root) (unwrapped : Unwrapped bits s root w)
    (h : findResource bits s root new w = some a) : Loose s root w a := by
  have sorted := node.sorted
  have fits := unwrapped.rounds _ (.inl rfl)
  unfold findResource at h
  cases chain : s.child root with
  | nil =>
    rw [chain] at h
    exact findLoop_loose req node unwrapped [] chain nofun nofun fits h
  | cons c rest =>
    rw [chain, pairwise_cons] at sorted
    have mem : c ∈ s.child root := by simp [chain]
    have later : ∀ d ∈ rest, 0 < (s.range d).start := fun d hd => Nat.zero_lt_of_lt (sorted.1 d hd)
    simp only [chain] at h
    split_ifs at h with zero
    · rw [Nat.mod_eq_of_lt (unwrapped.ends c mem)] at h
      exact findLoop_loose req node unwrapped [c] chain (by simp) later (unwrapped.child mem) h
    · exact findLoop_loose req node unwrapped [] chain nofun
        (forall_mem_cons.mpr ⟨Nat.pos_of_ne_zero zero, later⟩) fits h

theorem findResource_some {a : Nat} (h : findResource bits s root new w = some a) :
    a + w.size - 1 ≤ w.max ∧ ∃ y, Begins bits s root y ∧ a = alignUp bits (max y w.min) (2 ^ k) := by
  unfold findResource at h
  cases chain : s.child root with
  | nil =>
    rw [chain] at h
    obtain ⟨le, y, rfl | ⟨c, hc, -⟩, eq⟩ := findLoop_some req h
    · exact ⟨le, _, .inl rfl, eq⟩
    · cases hc
  | cons c rest =>
    have mem : c ∈ s.child root := by simp [chain]
    have rest_mem : ∀ d ∈ rest, d ∈ s.child root := fun d hd => by simp [chain, hd]
    simp only [chain] at h
    split_ifs at h with zero
    · obtain ⟨le, y, rfl | ⟨d, hd, hy⟩, eq⟩ := findLoop_some req h
      · exact ⟨le, _, .inr ⟨c, mem, rfl⟩, eq⟩
      · exact ⟨le, y, .inr ⟨d, rest_mem d hd, hy⟩, eq⟩
    · obtain ⟨le, y, rfl | ⟨d, hd, hy⟩, eq⟩ := findLoop_some req h
      · exact ⟨le, _, .inl rfl, eq⟩
      · exact ⟨le, y, .inr ⟨d, chain ▸ hd, hy⟩, eq⟩

end Search

variable [DecidableEq ρ]

def found (s : State ρ) (new : ρ) (w : Wanted) (a : Nat) : State ρ :=
  { s with range := update s.range new { s.range new with start := a, stop := a + w.size - 1 } }

section Request

variable (node : NodeOk s root) (fresh : new ∉ s.child root) (other : root ≠ new) (one : 1 ≤ w.size)

include node fresh other one

theorem request_found (a : Nat) : ∃ s' conflict, requestResource (found s new w a) root new = (s', conflict) ∧
    (conflict = none → Placed (found s new w a) root new s') ∧
    (conflict = none ↔ (s.range root).start ≤ a ∧ a + w.size - 1 ≤ (s.range root).stop ∧
      ∀ c ∈ s.child root, a + w.size - 1 < (s.range c).start ∨ (s.range c).stop < a) := by
  have own : (found s new w a).range new = { s.range new with start := a, stop := a + w.size - 1 } :=
    update_self ..
  have root_eq : (found s new w a).range root = s.range root := update_of_ne other ..
  have child_eq : ∀ c ∈ s.child root, (found s new w a).range c = s.range c := by
    intro c hc
    exact update_of_ne (ne_of_mem_of_not_mem hc fresh) ..
  have node' : NodeOk (found s new w a) root := node.congr rfl root_eq fun c hc => ⟨child_eq c hc, rfl⟩
  rcases requestResource_cases _ node' new with ⟨small, eq⟩ | ⟨t, -, meets, eq⟩ | ⟨s', fits, placed, eq⟩
  · refine ⟨_, _, eq, nofun, nofun, fun ⟨low, high, _⟩ => absurd ⟨?_, ?_, ?_⟩ small⟩
    · rw [own]
      simp only
      omega
    all_goals rwa [own, root_eq]
  · have start := meets.start
    have stop := meets.stop
    rw [own, child_eq t meets.mem] at start stop
    simp only at start stop
    refine ⟨_, _, eq, nofun, nofun, fun ⟨_, _, clear⟩ => ?_⟩
    have := clear t meets.mem
    omega
  · have start := fits.start
    have stop := fits.stop
    rw [own, root_eq] at start stop
    refine ⟨s', _, eq, fun _ => placed, fun _ => ⟨start, stop, fun c hc => ?_⟩, fun _ => rfl⟩
    obtain ⟨pre, post, chain, -, low, high⟩ := placed.child
    have mem : c ∈ pre ++ post := chain ▸ hc
    rcases mem_append.mp mem with mem | mem
    · have := low c mem
      rw [own, child_eq c hc] at this
      exact .inr this
    · have := high c mem
      rw [own, child_eq c hc] at this
      exact .inl this

end Request

/-- The allocation succeeds exactly if a start suits, and takes the lowest. -/
def AllocatesLowest (bits : Nat) (s : State ρ) (root new : ρ) (w : Wanted) : Prop :=
  ((allocateResource bits s root new w).2 = true ↔ ∃ t, Suits s root w t) ∧
    ((allocateResource bits s root new w).2 = true → ∃ a, Lowest s root w a ∧
      Placed (found s new w a) root new (allocateResource bits s root new w).1)

/-- No start suits, the addresses from 0 on are free, and a rounding wraps to 0. -/
structure WrapsToZero (bits : Nat) (s : State ρ) (root : ρ) (w : Wanted) : Prop where
  none_suits : ∀ t, ¬Suits s root w t
  free : Suits s root { w with min := 0 } 0
  wraps : ∃ y, Begins bits s root y ∧ 2 ^ bits ≤ max y w.min + (w.align - 1)

section Allocate

variable (ok : TreeOk s root) (notMem : ¬Member s root new) (req : Request bits k s root w)

include ok notMem req

theorem allocateResource_cases :
    (findResource bits s root new w = none ∧ (allocateResource bits s root new w).2 = false) ∨
    ∃ a y, findResource bits s root new w = some a ∧ a + w.size - 1 ≤ w.max ∧ Begins bits s root y ∧
      a = alignUp bits (max y w.min) (2 ^ k) ∧
      ((allocateResource bits s root new w).2 = true →
        Placed (found s new w a) root new (allocateResource bits s root new w).1) ∧
      ((allocateResource bits s root new w).2 = true ↔ (s.range root).start ≤ a ∧
        a + w.size - 1 ≤ (s.range root).stop ∧
        ∀ c ∈ s.child root, a + w.size - 1 < (s.range c).start ∨ (s.range c).stop < a) := by
  have fresh : new ∉ s.child root := fun h => notMem (Member.child .refl h)
  have other : root ≠ new := by
    rintro rfl
    exact notMem .refl
  have one := req.one_le
  have max_lt := req.max_lt
  cases result : findResource bits s root new w with
  | none => exact .inl ⟨rfl, by simp [allocateResource, result]⟩
  | some a =>
    obtain ⟨le_max, y, begins, rounded⟩ := findResource_some req result
    obtain ⟨s', conflict, eq, placed, clear⟩ := request_found (ok.node root .refl) fresh other one a
    have call : allocateResource bits s root new w = (s', conflict.isNone) := by
      simp only [found] at eq
      simp only [allocateResource, result, lastOf_eq one (by omega : a + w.size ≤ 2 ^ bits), eq]
      cases conflict <;> rfl
    refine .inr ⟨a, y, rfl, le_max, begins, rounded, ?_⟩
    rw [call]
    exact ⟨fun success => placed (Option.isNone_iff_eq_none.mp success), Option.isNone_iff_eq_none.trans clear⟩

theorem allocates_lowest (wide : ∀ a, Lowest s root w a → 2 ≤ w.size ∨ Loose s root w a)
    (noWrap : ¬WrapsToZero bits s root w) : AllocatesLowest bits s root new w := by
  have lowest (t) (suits : Suits s root w t) : ∃ a, findResource bits s root new w = some a ∧ Lowest s root w a := by
    obtain ⟨a, low⟩ := suits.lowest
    obtain ⟨a', result, le, suits'⟩ := findResource_suits req (ok.node root .refl) (wide a low) low.toSuits
    rw [le_antisymm le (low.le a' suits')] at result
    exact ⟨a, result, low⟩
  rcases allocateResource_cases ok notMem req with ⟨result, failed⟩ |
    ⟨a, y, result, le_max, begins, rounded, placed, clear⟩
  · rw [AllocatesLowest, failed]
    refine ⟨⟨nofun, fun ⟨t, suits⟩ => ?_⟩, nofun⟩
    obtain ⟨a, result', -⟩ := lowest t suits
    cases result.symm.trans result'
  have found_lowest (t) (suits : Suits s root w t) : Lowest s root w a := by
    obtain ⟨a', result', low⟩ := lowest t suits
    rwa [← Option.some.inj (result.symm.trans result')] at low
  have suits_of (success : (allocateResource bits s root new w).2 = true) : ∃ t, Suits s root w t := by
    by_contra none_suits
    have none_suits := not_exists.mp none_suits
    obtain ⟨low, high, apart⟩ := clear.mp success
    have aligned : w.align ∣ a := by
      rw [req.align, rounded]
      exact dvd_alignUp ..
    by_cases fits : max y w.min + (2 ^ k - 1) < 2 ^ bits
    · exact none_suits a ⟨aligned, (le_max_right ..).trans (rounded ▸ le_alignUp fits), le_max, low, high, apart⟩
    · have wraps := not_lt.mp fits
      have small : y < 2 ^ bits := by
        have := req.root_lt
        have := req.one_le
        rcases begins with rfl | ⟨c, -, rfl⟩
        · omega
        · exact Nat.mod_lt _ (Nat.two_pow_pos bits)
      rw [alignUp_wrap (max_lt small req.min_lt) req.align_le wraps] at rounded
      subst rounded
      exact noWrap ⟨none_suits, ⟨aligned, le_rfl, le_max, low, high, apart⟩, y, begins, req.align ▸ wraps⟩
  refine ⟨⟨suits_of, fun ⟨t, suits⟩ => ?_⟩, fun success => ?_⟩
  · have := found_lowest t suits
    exact clear.mpr ⟨this.start, this.stop, this.clear⟩
  · obtain ⟨t, suits⟩ := suits_of success
    exact ⟨a, found_lowest t suits, placed success⟩

theorem loose_of_allocates (unwrapped : Unwrapped bits s root w) (right : AllocatesLowest bits s root new w) {a : Nat}
    (low : Lowest s root w a) : Loose s root w a := by
  have success := right.1.mpr ⟨a, low.toSuits⟩
  obtain ⟨a₁, low₁, placed₁⟩ := right.2 success
  rcases allocateResource_cases ok notMem req with ⟨-, failed⟩ | ⟨a₂, y, result, -, -, -, placed, -⟩
  · cases failed.symm.trans success
  have same := congrArg (fun range => (range new).start) ((placed success).range.symm.trans placed₁.range)
  simp only [found, update_self] at same
  rw [le_antisymm (low.le a₁ low₁.toSuits) (low₁.le a low.toSuits), ← same]
  exact findResource_loose req (ok.node root .refl) unwrapped result

end Allocate

/-- The allocation is right if the lowest start is not the last address of its gap, for a range of one address, and
no rounding wraps to addresses that are free. Where nothing wraps, it is right only then. -/
theorem allocate_resource_lowest_iff (ok : TreeOk s root) (notMem : ¬Member s root new)
    (req : Request bits k s root w) :
    ((∀ a, Lowest s root w a → 2 ≤ w.size ∨ Loose s root w a) → ¬WrapsToZero bits s root w →
      AllocatesLowest bits s root new w) ∧
    (Unwrapped bits s root w → (AllocatesLowest bits s root new w ↔
      ∀ a, Lowest s root w a → 2 ≤ w.size ∨ Loose s root w a)) := by
  refine ⟨allocates_lowest ok notMem req, fun unwrapped => ⟨fun right a low => ?_, fun wide => ?_⟩⟩
  · exact .inr (loose_of_allocates ok notMem req unwrapped right low)
  · refine allocates_lowest ok notMem req wide fun zero => ?_
    obtain ⟨y, begins, wraps⟩ := zero.wraps
    exact absurd (unwrapped.rounds y begins) (not_lt.mpr wraps)

def vacant : State Nat := ⟨fun _ => ⟨0, 255, false⟩, fun _ => none, fun _ => []⟩

theorem vacant_ok : TreeOk vacant 0 := by
  have only : ∀ x c, c ∉ vacant.child x := fun x c => not_mem_nil
  refine ⟨fun x _ => ⟨.nil, ?_, ?_, ?_⟩, fun _ => 0, ?_⟩ <;> simp [only]

theorem vacant_notMem : ¬Member vacant 0 1 := by
  intro h
  have : 1 = 0 := h.of_closed (T := (· = 0)) rfl fun x _ c hc => absurd hc not_mem_nil
  cases this

/-- A single address is given out, though the last address suits as well. -/
theorem allocate_resource_lowest_iff_single : (allocateResource 8 vacant 0 1 ⟨1, 20, 255, 16, none⟩).2 = true := by
  have req : Request 8 4 vacant 0 ⟨1, 20, 255, 16, none⟩ := by constructor <;> decide
  have suits : Suits vacant 0 ⟨1, 20, 255, 16, none⟩ 32 := by constructor <;> simp [vacant]
  have unwrapped : Unwrapped 8 vacant 0 ⟨1, 20, 255, 16, none⟩ := by
    refine ⟨fun c hc => absurd hc not_mem_nil, fun y begins => ?_⟩
    obtain rfl : y = 0 := by simpa [Begins, vacant] using begins
    decide
  refine (((allocate_resource_lowest_iff vacant_ok vacant_notMem req).2 unwrapped).mpr fun a low =>
    .inr ?_).1.mpr ⟨32, suits⟩
  have := low.le 32 suits
  refine ⟨?_, ?_, fun c hc => absurd hc not_mem_nil⟩
  · change a + 1 ≤ 255
    omega
  · change a + 1 ≤ 255
    omega

/-- The address 5 is free and is not given out to a request for it alone. And a request for two addresses at 255
is rounded up to the address 0. -/
theorem allocate_resource_misses :
    (Suits vacant 0 ⟨1, 5, 5, 1, none⟩ 5 ∧ (allocateResource 8 vacant 0 1 ⟨1, 5, 5, 1, none⟩).2 = false) ∧
    (allocateResource 8 vacant 0 1 ⟨2, 255, 255, 2, none⟩).2 = true ∧
      ((allocateResource 8 vacant 0 1 ⟨2, 255, 255, 2, none⟩).1.range 1).start = 0 := by
  refine ⟨⟨by constructor <;> simp [vacant], by decide⟩, by decide, by decide⟩

end Resource
