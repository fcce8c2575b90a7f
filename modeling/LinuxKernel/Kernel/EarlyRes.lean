/- Early reservations: freeing a part of a range, and free areas between the ranges. -/
import Mathlib.Data.List.Nodup
import Mathlib.Logic.Relation
import LinuxKernel.Foundation.Digits
import LinuxKernel.Foundation.ListIndex
import LinuxKernel.Foundation.Loop
import LinuxKernel.Foundation.Width

namespace EarlyRes

open List Width

/-- `struct early_res`. A slot whose `end_` is 0 is free. -/
structure Res where
  start : Nat
  end_ : Nat

/-- The array `early_res` with `max_early_res` slots, and `early_res_count`. -/
structure Table where
  slots : List Res
  count : Nat

def findOverlappedEarly (t : Table) (start end_ : Nat) : Nat :=
  t.slots.findIdx fun r => r.end_ = 0 ∨ (r.start < end_ ∧ start < r.end_)

/-- The ranges behind the `i`-th one move down by a slot, and the slot of the last one is cleared. -/
def dropRange (t : Table) (i : Nat) : Table :=
  let j := i + 1 + (t.slots.drop (i + 1)).findIdx fun r => r.end_ = 0
  ⟨t.slots.take i ++ (t.slots.take j).drop (i + 1) ++ { t.slots.getD (j - 1) ⟨0, 0⟩ with end_ := 0 } ::
    t.slots.drop j,
    t.count - 1⟩

/-- `__check_and_double_early_res` finds enough slots left. -/
def Spare (t : Table) : Prop := max (t.slots.length / 8) 2 < t.slots.length - t.count

instance (t : Table) : Decidable (Spare t) := inferInstanceAs (Decidable (_ < _))

/-- `none` where the array would have to be doubled. -/
def reserveEarlyWithoutCheck (t : Table) (start end_ : Nat) : Option Table :=
  if end_ ≤ start then some t
  else if Spare t then some ⟨t.slots.set t.count ⟨start, end_⟩, t.count + 1⟩
  else none

def dropRangePartial (t : Table) (i start end_ : Nat) : Option Table :=
  let old := t.slots.getD i ⟨0, 0⟩
  let commonStart := max old.start start
  let commonEnd := min old.end_ end_
  if commonEnd ≤ commonStart then some t
  else if old.start < commonStart then
    let t := { t with slots := t.slots.set i ⟨old.start, commonStart⟩ }
    if commonEnd < old.end_ then reserveEarlyWithoutCheck t commonEnd old.end_ else some t
  else if commonEnd < old.end_ then some { t with slots := t.slots.set i ⟨commonEnd, old.end_⟩ }
  else some (dropRange t i)

/-- The code at `try_next`. -/
def tryNext (start end_ : Nat) (t : Table) : Table ⊕ Option Table :=
  let i := findOverlappedEarly t start end_
  let r := t.slots.getD i ⟨0, 0⟩
  if t.slots.length ≤ i then .inr (some t)
  else if end_ ≤ r.end_ ∧ r.start ≤ start then .inr (dropRangePartial t i start end_)
  else (dropRangePartial t i start end_).elim (.inr none) .inl

def freeEarlyPartial (n : Nat) (t : Table) (start end_ : Nat) : Option (Option Table) :=
  if end_ ≤ start then some (some t) else Loop.run (tryNext start end_) n t

def Apart (r s : Res) : Prop := r.end_ ≤ s.start ∨ s.end_ ≤ r.start

/-- Disjoint ranges at the front of the array. -/
structure Ranges (t : Table) (l : List Res) : Prop where
  slots : ∃ free, t.slots = l ++ free ∧ ∀ r ∈ free, r.end_ = 0
  count : t.count = l.length
  nonempty : ∀ r ∈ l, r.start < r.end_
  apart : l.Pairwise Apart

def Reserved (t : Table) (x : Nat) : Prop := ∃ r ∈ t.slots, r.start ≤ x ∧ x < r.end_

/-- Nothing is reserved, and the search returns the first free slot for ever. -/
theorem free_early_partial_loops : Ranges ⟨[⟨0, 0⟩, ⟨0, 0⟩, ⟨0, 0⟩], 0⟩ [] ∧ Spare ⟨[⟨0, 0⟩, ⟨0, 0⟩, ⟨0, 0⟩], 0⟩ ∧
    ∀ n, freeEarlyPartial n ⟨[⟨0, 0⟩, ⟨0, 0⟩, ⟨0, 0⟩], 0⟩ 1 2 = none := by
  refine ⟨⟨⟨_, rfl, by decide⟩, rfl, by simp, .nil⟩, by decide, fun n => ?_⟩
  induction n with
  | zero => rfl
  | succ n ih => exact ih

variable {t : Table} {l a b p q : List Res} {r : Res} {start end_ : Nat}

theorem Ranges.reserved (h : Ranges t l) (x : Nat) : Reserved t x ↔ ∃ r ∈ l, r.start ≤ x ∧ x < r.end_ := by
  obtain ⟨free, slots, cleared⟩ := h.slots
  have none : ¬∃ r ∈ free, r.start ≤ x ∧ x < r.end_ := by
    rintro ⟨r, mem, -, lt⟩
    rw [cleared r mem] at lt
    exact Nat.not_lt_zero x lt
  unfold Reserved
  rw [slots]
  simp only [mem_append, or_and_right, exists_or, or_iff_left none]

theorem Apart.symm {r s : Res} (h : Apart r s) : Apart s r := Or.symm h

/-- The pieces that are left of a range take its place. -/
theorem Ranges.replace (h : Ranges t (a ++ r :: b)) (hole : r.start ≤ start ∧ end_ ≤ r.end_) {t' : Table}
    (slots : ∃ free, t'.slots = l ++ free ∧ ∀ r ∈ free, r.end_ = 0) (count : t'.count = l.length)
    (perm : l.Perm (p ++ (a ++ b))) (inside : ∀ s ∈ p, s.start < s.end_ ∧ r.start ≤ s.start ∧ s.end_ ≤ r.end_)
    (apart : p.Pairwise Apart)
    (left : ∀ x, (∃ s ∈ p, s.start ≤ x ∧ x < s.end_) ↔ (r.start ≤ x ∧ x < r.end_) ∧ ¬(start ≤ x ∧ x < end_)) :
    Ranges t' l ∧ ∀ x, Reserved t' x ↔ Reserved t x ∧ ¬(start ≤ x ∧ x < end_) := by
  have old : (a ++ r :: b).Perm (r :: (a ++ b)) := perm_middle
  generalize a ++ b = c at perm old
  obtain ⟨away, rest⟩ := pairwise_cons.mp ((old.pairwise_iff Apart.symm).mp h.apart)
  have new : Ranges t' l := by
    refine ⟨slots, count, fun s mem => ?_, ?_⟩
    · rcases mem_append.mp (perm.subset mem) with mem | mem
      · exact (inside s mem).1
      · exact h.nonempty s (old.mem_iff.mpr (mem_cons_of_mem r mem))
    · rw [perm.pairwise_iff Apart.symm, pairwise_append]
      refine ⟨apart, rest, fun s hs u hu => ?_⟩
      have := inside s hs
      have := away u hu
      unfold Apart at this ⊢
      omega
  refine ⟨new, fun x => ?_⟩
  have others : (∃ s ∈ c, s.start ≤ x ∧ x < s.end_) → ¬(start ≤ x ∧ x < end_) := by
    rintro ⟨s, mem, within⟩
    have := away s mem
    unfold Apart at this
    omega
  rw [new.reserved, h.reserved]
  simp only [perm.mem_iff, old.mem_iff, mem_append, mem_cons, or_and_right, exists_or, left, exists_eq_left]
  exact or_congr_right ⟨fun h => ⟨h, others h⟩, And.left⟩

theorem findOverlappedEarly_eq (h : Ranges t (a ++ r :: b)) (pos : start < end_)
    (hole : r.start ≤ start ∧ end_ ≤ r.end_) : findOverlappedEarly t start end_ = a.length := by
  obtain ⟨free, slots, -⟩ := h.slots
  have none : ∀ s ∈ a, decide (s.end_ = 0 ∨ (s.start < end_ ∧ start < s.end_)) = false := by
    intro s mem
    have := h.nonempty s (mem_append_left _ mem)
    have := (pairwise_append.mp h.apart).2.2 s mem r mem_cons_self
    unfold Apart at this
    rw [decide_eq_false_iff_not]
    omega
  rw [findOverlappedEarly, slots, append_assoc, findIdx_append, findIdx_eq_length_of_false none,
    if_neg (Nat.lt_irrefl _), cons_append, findIdx_cons, decide_eq_true (by omega)]
  exact Nat.zero_add _

theorem dropRange_slots (h : Ranges t (a ++ r :: b)) {free : List Res} (slots : t.slots = a ++ r :: b ++ free)
    (cleared : ∀ r ∈ free, r.end_ = 0) : ∃ s, (dropRange t a.length).slots = a ++ b ++ ⟨s, 0⟩ :: free := by
  have last : (t.slots.drop (a.length + 1)).findIdx (fun r => r.end_ = 0) = b.length := by
    have behind : (a ++ r :: b ++ free).drop (a.length + 1) = b ++ free := by simp
    rw [slots, behind, findIdx_append, findIdx_eq_length_of_false, if_neg (Nat.lt_irrefl _)]
    · cases free with
      | nil => exact Nat.zero_add _
      | cons f free => simp [findIdx_cons, cleared f mem_cons_self]
    · intro s mem
      have := h.nonempty s (by simp [mem])
      simpa using Nat.ne_of_gt (Nat.zero_lt_of_lt this)
  have j : a.length + 1 + b.length = (a ++ r :: b).length := by
    simp only [length_append, length_cons]
    omega
  simp only [dropRange, last, j]
  rw [slots, take_left, drop_left]
  simp

theorem freeEarlyPartial_inside (h : Ranges t l) (spare : Spare t) (pos : start < end_)
    (inside : ∃ r ∈ l, r.start ≤ start ∧ end_ ≤ r.end_) :
    ∃ t' l', freeEarlyPartial 1 t start end_ = some (some t') ∧ Ranges t' l' ∧
      ∀ x, Reserved t' x ↔ Reserved t x ∧ ¬(start ≤ x ∧ x < end_) := by
  obtain ⟨r, mem, hole⟩ := inside
  obtain ⟨a, b, rfl⟩ := append_of_mem mem
  obtain ⟨free, slots, cleared⟩ := h.slots
  have here := slots
  rw [append_assoc, cons_append] at here
  suffices ∃ t' l', dropRangePartial t a.length start end_ = some t' ∧ Ranges t' l' ∧
      ∀ x, Reserved t' x ↔ Reserved t x ∧ ¬(start ≤ x ∧ x < end_) by
    obtain ⟨t', l', run, rest⟩ := this
    have turn : tryNext start end_ t = .inr (some t') := by
      simp only [tryNext, findOverlappedEarly_eq h pos hole, here, getD_middle]
      rw [if_neg (by simp), if_pos hole.symm, run]
    exact ⟨t', l', by rw [freeEarlyPartial, if_neg (by omega), Loop.run, turn], rest⟩
  simp only [dropRangePartial, here, getD_middle, Nat.max_eq_right hole.1, Nat.min_eq_right hole.2]
  rw [if_neg (by omega)]
  split_ifs with head tail tail
  · -- the piece behind the hole goes to the first free slot
    cases free with
    | nil => simp [Spare, slots, h.count] at spare
    | cons f free =>
      have moved : ((a ++ ⟨r.start, start⟩ :: (b ++ f :: free)).set t.count ⟨end_, r.end_⟩) =
          a ++ ⟨r.start, start⟩ :: b ++ [⟨end_, r.end_⟩] ++ free := by
        rw [set_middle_of_eq (l := a ++ ⟨r.start, start⟩ :: b) (r := free) (x := f) _ (by simp) (by simp [h.count])]
        simp
      refine ⟨⟨_, t.count + 1⟩, a ++ ⟨r.start, start⟩ :: b ++ [⟨end_, r.end_⟩], ?_,
        h.replace hole (p := [⟨r.start, start⟩, ⟨end_, r.end_⟩]) ⟨free, moved, fun s mem => ?_⟩ ?_ ?_ ?_ ?_
          fun x => ?_⟩
      · rw [set_middle, reserveEarlyWithoutCheck, if_neg (by omega), if_pos (by simpa [Spare, here] using spare)]
      · exact cleared s (mem_cons_of_mem f mem)
      · simp only [h.count, length_append, length_cons, length_nil]
      · have tail (s : Res) : (a ++ (b ++ [s])).Perm (s :: (a ++ b)) := by
          rw [← append_assoc]
          exact perm_append_singleton _ _
        rw [append_assoc, cons_append]
        exact perm_middle.trans ((tail _).cons _)
      · simp
        omega
      · simp [Apart]
        omega
      · simp
        omega
  · refine ⟨_, a ++ ⟨r.start, start⟩ :: b, rfl,
      h.replace hole (p := [⟨r.start, start⟩]) ⟨free, by simp, cleared⟩ (by simp [h.count])
      perm_middle (by simp; omega) (pairwise_singleton _ _) fun x => ?_⟩
    simp only [mem_singleton, exists_eq_left]
    omega
  · refine ⟨_, a ++ ⟨end_, r.end_⟩ :: b, rfl,
      h.replace hole (p := [⟨end_, r.end_⟩]) ⟨free, by simp, cleared⟩ (by simp [h.count])
      perm_middle (by simp; omega) (pairwise_singleton _ _) fun x => ?_⟩
    simp only [mem_singleton, exists_eq_left]
    omega
  · obtain ⟨s, dropped⟩ := dropRange_slots h slots cleared
    refine ⟨_, a ++ b, rfl, h.replace hole (p := []) ⟨_, dropped, forall_mem_cons.mpr ⟨rfl, cleared⟩⟩
      (by simp [dropRange, h.count]) (.refl _) (by simp) .nil fun x => ?_⟩
    simp
    omega

/-- A slot is free, and none holds all of `[start, end_)`. -/
def Misses (start end_ : Nat) (t : Table) : Prop :=
  (∃ r ∈ t.slots, r.end_ = 0) ∧ ∀ r ∈ t.slots, ¬(end_ ≤ r.end_ ∧ r.start ≤ start)

theorem Misses.set (h : Misses start end_ t) {i : Nat} (used : (t.slots.getD i ⟨0, 0⟩).end_ ≠ 0) {s : Res}
    (new : ¬(end_ ≤ s.end_ ∧ s.start ≤ start)) : Misses start end_ { t with slots := t.slots.set i s } := by
  obtain ⟨⟨r, mem, free⟩, none⟩ := h
  obtain ⟨k, here⟩ := mem_iff_getElem?.mp mem
  have ne : i ≠ k := by
    rintro rfl
    exact used (by rwa [getD_eq_getElem?_getD, here])
  refine ⟨⟨r, mem_iff_getElem?.mpr ⟨k, by rwa [getElem?_set_ne ne]⟩, free⟩, fun q mem => ?_⟩
  rcases mem_or_eq_of_mem_set mem with mem | rfl
  · exact none q mem
  · exact new

/-- A turn that finds no range around `[start, end_)` leaves none behind. -/
theorem Misses.turn (h : Misses start end_ t) (pos : start < end_) :
    (tryNext start end_ t).elim (Misses start end_) fun _ => False := by
  have found : findOverlappedEarly t start end_ < t.slots.length := by
    obtain ⟨r, mem, free⟩ := h.1
    exact findIdx_lt_length_of_exists ⟨r, mem, by simp [free]⟩
  dsimp only [tryNext]
  generalize findOverlappedEarly t start end_ = i at found
  have misses := h.2 (t.slots.getD i ⟨0, 0⟩) (by simp [found])
  rw [if_neg (Nat.not_le.mpr found), if_neg misses]
  suffices ∃ t', dropRangePartial t i start end_ = some t' ∧ Misses start end_ t' by
    obtain ⟨t', run, kept⟩ := this
    rwa [run]
  dsimp only [dropRangePartial]
  split_ifs with none head tail tail
  · exact ⟨t, rfl, h⟩
  · omega
  · exact ⟨_, rfl, h.set (by omega) (by dsimp only; omega)⟩
  · exact ⟨_, rfl, h.set (by omega) (by dsimp only; omega)⟩
  · refine ⟨_, rfl, ⟨_, mem_append_right _ mem_cons_self, rfl⟩, fun r mem => ?_⟩
    simp only [dropRange, mem_append, mem_cons] at mem
    rcases mem with (mem | mem) | rfl | mem
    · exact h.2 r (mem_of_mem_take mem)
    · exact h.2 r (mem_of_mem_take (mem_of_mem_drop mem))
    · dsimp only
      omega
    · exact h.2 r (mem_of_mem_drop mem)

/-- The call ends, and then frees `[start, end_)` and nothing else, if and only if one range holds all of it. -/
theorem free_early_partial_inside (h : Ranges t l) (spare : Spare t) (pos : start < end_) :
    (∃ n t' l', freeEarlyPartial n t start end_ = some (some t') ∧ Ranges t' l' ∧
      ∀ x, Reserved t' x ↔ Reserved t x ∧ ¬(start ≤ x ∧ x < end_)) ↔ ∃ r ∈ l, r.start ≤ start ∧ end_ ≤ r.end_ := by
  constructor
  · rintro ⟨n, t', -, run, -⟩
    by_contra outside
    obtain ⟨free, slots, cleared⟩ := h.slots
    have misses : Misses start end_ t := by
      constructor
      · cases free with
        | nil => simp [Spare, slots, h.count] at spare
        | cons f free => exact ⟨f, by simp [slots], cleared f mem_cons_self⟩
      · intro r mem around
        rw [slots] at mem
        rcases mem_append.mp mem with mem | mem
        · exact outside ⟨r, mem, around.symm⟩
        · have := cleared r mem
          omega
    rw [freeEarlyPartial, if_neg (by omega)] at run
    exact Loop.run_post _ _ (fun _ h => h.turn pos) misses run
  · intro inside
    exact ⟨1, freeEarlyPartial_inside h spare pos inside⟩

theorem free_early_partial_inside_middle : ∃ n t' l', freeEarlyPartial n ⟨[⟨0, 10⟩, ⟨0, 0⟩, ⟨0, 0⟩, ⟨0, 0⟩], 1⟩ 3 5 =
    some (some t') ∧ Ranges t' l' ∧ ∀ x, Reserved t' x ↔
      Reserved ⟨[⟨0, 10⟩, ⟨0, 0⟩, ⟨0, 0⟩, ⟨0, 0⟩], 1⟩ x ∧ ¬(3 ≤ x ∧ x < 5) := by
  have ranges : Ranges ⟨[⟨0, 10⟩, ⟨0, 0⟩, ⟨0, 0⟩, ⟨0, 0⟩], 1⟩ [⟨0, 10⟩] :=
    ⟨⟨_, rfl, by decide⟩, rfl, by decide, pairwise_singleton _ _⟩
  exact (free_early_partial_inside ranges (by decide) (by decide)).mpr ⟨_, mem_singleton_self _, by decide⟩

/-- `round_up(x, 1 << k)`. -/
def roundUp (k x : Nat) : Nat := u64 ((u64 (x + (2 ^ 64 - 1)) ||| (2 ^ k - 1)) + 1)

/-- What the loop of `bad_addr_size` does at a range: go on with another area, give up, or look at the next range. -/
def clash (k addr size : Nat) (r : Res) : Option (Option (Nat × Nat)) :=
  let last := u64 (addr + size)
  if r.start < last ∧ addr < r.start then some (some (addr, r.start - addr))
  else if r.end_ < last ∧ addr < r.end_ then some (some (roundUp k r.end_, u64 (last + 2 ^ 64 - roundUp k r.end_)))
  else if last ≤ r.end_ ∧ r.start ≤ addr then some none
  else none

def live (t : Table) : List Res := t.slots.takeWhile fun r => r.end_ ≠ 0

/-- The code at `again`; the last part of the state is `changed`. -/
def again (t : Table) (k : Nat) (s : (Nat × Nat) × Bool) : ((Nat × Nat) × Bool) ⊕ Option ((Nat × Nat) × Bool) :=
  match (live t).findSome? (clash k s.1.1 s.1.2) with
  | some (some area) => .inl (area, true)
  | some none => .inr none
  | none => .inr (some s)

/-- The result with `*addrp` and `*sizep`. -/
def badAddrSize (n : Nat) (t : Table) (k : Nat) (area : Nat × Nat) : Option ((Nat × Nat) × Bool) :=
  (Loop.run (again t k) n (area, false)).map fun r => r.getD ((area.1, u64 (area.2 + 1)), false)

/-- The loop of `find_early_area_size`. -/
def areaTurn (n : Nat) (t : Table) (k eiLast : Nat) (area : Nat × Nat) : (Nat × Nat) ⊕ Option (Nat × Nat) :=
  match badAddrSize n t k area with
  | none => .inr none
  | some (area, changed) => if changed ∧ u64 (area.1 + area.2) ≤ eiLast then .inl area else .inr (some area)

/-- The address at which the search begins. -/
def firstAddr (k eiStart start : Nat) : Nat :=
  let addr := roundUp k eiStart
  if addr < start then roundUp k start else addr

/-- The address with `*sizep`, or `none` for `-1ULL`; the alignment is `1 << k`. -/
def findEarlyAreaSize (n : Nat) (t : Table) (eiStart eiLast start k : Nat) : Option (Option (Nat × Nat)) :=
  let addr := firstAddr k eiStart start
  if eiLast ≤ addr then some none
  else ((Loop.run (areaTurn n t k eiLast) n (addr, eiLast - addr)).bind id).map fun area =>
    if eiLast < u64 (area.1 + area.2) then none else some area

section Areas

variable {n k lo eiLast : Nat} {area next : Nat × Nat}

theorem dvd_roundUp (hk : k ≤ 64) (x : Nat) : 2 ^ k ∣ roundUp k x := by
  rw [roundUp, u64, Digits.or_mask_succ, Nat.dvd_mod_iff (Nat.pow_dvd_pow 2 hk)]
  exact Nat.dvd_mul_left _ _

/-- From one area to the next in `bad_addr_size`, by the first range of the table that is in the way. -/
def Step (l : List Res) (k : Nat) (area next : Nat × Nat) : Prop :=
  l.findSome? (clash k area.1 area.2) = some (some next)

abbrev Reaches (l : List Res) (k : Nat) : Nat × Nat → Nat × Nat → Prop := Relation.ReflTransGen (Step l k)

/-- On the way no address is rounded up to a smaller one. -/
def Forward (l : List Res) (k lo eiLast : Nat) : Prop :=
  ∀ area next, Reaches l k (lo, eiLast - lo) area → Step l k area next → area.1 ≤ next.1

/-- On the way the end of a range is rounded up to the end of the area or past it, and no range there makes the code
give up. -/
def Overshoots (l : List Res) (k lo eiLast : Nat) : Prop :=
  ∃ area next, Reaches l k (lo, eiLast - lo) area ∧ Step l k area next ∧ area.1 + area.2 ≤ next.1 ∧
    ∀ q ∈ l, area.1 + area.2 ≤ q.end_ → next.1 < q.start

/-- An aligned area in the memory. -/
structure Fits (l : List Res) (k lo eiLast : Nat) (area : Nat × Nat) : Prop where
  aligned : 2 ^ k ∣ area.1
  reached : Reaches l k (lo, eiLast - lo) area
  low : lo ≤ area.1
  pos : 0 < area.2
  high : area.1 + area.2 ≤ eiLast

/-- The address was rounded up to the end of the area or past it. -/
def Past (area : Nat × Nat) : Prop := u64 (area.1 + area.2) ≤ area.1

theorem Past.clash (past : Past area) (r : Res) : clash k area.1 area.2 r =
    if u64 (area.1 + area.2) ≤ r.end_ ∧ r.start ≤ area.1 then some none else none := by
  unfold Past at past
  simp only [EarlyRes.clash]
  rw [if_neg (by omega), if_neg (by omega)]

theorem Past.not_step (past : Past area) : ¬Step l k area next := by
  intro step
  obtain ⟨r, -, eq⟩ := exists_of_findSome?_eq_some step
  rw [past.clash] at eq
  split_ifs at eq
  cases eq

section

variable (nonempty : ∀ r ∈ l, r.start < r.end_) (hk : k ≤ 64) (small : eiLast < 2 ^ 64)
  (forward : Forward l k lo eiLast)

include nonempty hk small forward

theorem Fits.step (fits : Fits l k lo eiLast area) (step : Step l k area next) :
    (Fits l k lo eiLast next ∧ next.1 < area.1 + area.2) ∨
      Past next ∧ u64 (next.1 + next.2) = area.1 + area.2 ∧ area.1 + area.2 ≤ next.1 := by
  obtain ⟨r, mem, eq⟩ := exists_of_findSome?_eq_some step
  obtain ⟨aligned, reached, low, pos, high⟩ := fits
  have le := forward area next reached step
  have long := nonempty r mem
  have last : u64 (area.1 + area.2) = area.1 + area.2 := Nat.mod_eq_of_lt (by omega)
  simp only [EarlyRes.clash, last] at eq
  split_ifs at eq with trim move give
  · cases eq
    exact .inl ⟨⟨aligned, reached.tail step, low, by omega, by omega⟩, by omega⟩
  · cases eq
    have lt : roundUp k r.end_ < 2 ^ 64 := Nat.mod_lt _ (Nat.two_pow_pos 64)
    by_cases past : roundUp k r.end_ < area.1 + area.2
    · have left : u64 (area.1 + area.2 + 2 ^ 64 - roundUp k r.end_) = area.1 + area.2 - roundUp k r.end_ := by
        unfold u64
        omega
      refine .inl ⟨⟨dvd_roundUp hk _, reached.tail step, low.trans le, ?_, ?_⟩, past⟩
      all_goals
        rw [left]
        omega
    · have sum : u64 (roundUp k r.end_ + u64 (area.1 + area.2 + 2 ^ 64 - roundUp k r.end_)) = area.1 + area.2 := by
        unfold u64
        omega
      exact .inr ⟨sum.trans_le (not_lt.mp past), sum, not_lt.mp past⟩
  · cases eq

theorem fits_or_past (first : Fits l k lo eiLast (lo, eiLast - lo)) (reached : Reaches l k (lo, eiLast - lo) area) :
    Fits l k lo eiLast area ∨ Past area := by
  induction reached with
  | refl => exact .inl first
  | tail _ step ih =>
    rcases ih with fits | past
    · exact (fits.step nonempty hk small forward step).imp And.left And.left
    · exact absurd step past.not_step

/-- Unless the search overshoots, it gives up where it is past the end of the area. -/
theorem gives_up (safe : ¬Overshoots l k lo eiLast) (first : Fits l k lo eiLast (lo, eiLast - lo))
    (reached : Reaches l k (lo, eiLast - lo) area) :
    Fits l k lo eiLast area ∨ l.findSome? (clash k area.1 area.2) = some none := by
  cases reached with
  | refl => exact .inl first
  | tail before step =>
    have fits := (fits_or_past nonempty hk small forward first before).resolve_right fun past => past.not_step step
    refine (fits.step nonempty hk small forward step).imp And.left fun ⟨past, sum, le⟩ => ?_
    obtain ⟨q, hq, covers⟩ : ∃ q ∈ l, u64 (area.1 + area.2) ≤ q.end_ ∧ q.start ≤ area.1 := by
      rw [sum]
      by_contra none
      push Not at none
      exact safe ⟨_, _, before, step, le, none⟩
    cases found : l.findSome? (clash k area.1 area.2) with
    | none =>
      have free := findSome?_eq_none_iff.mp found q hq
      rw [past.clash, if_pos covers] at free
      cases free
    | some x =>
      obtain ⟨r, -, eq⟩ := exists_of_findSome?_eq_some found
      rw [past.clash] at eq
      split_ifs at eq
      exact eq.symm

end

/-- No range is in the way of the area. -/
def Clean (l : List Res) (k lo eiLast : Nat) (area : Nat × Nat) : Prop :=
  Fits l k lo eiLast area ∧ l.findSome? (clash k area.1 area.2) = none

section

variable (nonempty : ∀ r ∈ l, r.start < r.end_) (hk : k ≤ 64) (small : eiLast < 2 ^ 64 - 1)
  (forward : Forward l k lo eiLast) (first : Fits l k lo eiLast (lo, eiLast - lo)) (ranges : live t = l)

include nonempty hk small forward first ranges

theorem again_clean (safe : ¬Overshoots l k lo eiLast) (reached : Reaches l k (lo, eiLast - lo) area)
    {changed : Bool} (run : Loop.run (again t k) n (area, false) = some (some (next, changed))) :
    Clean l k lo eiLast next := by
  have post := Loop.run_post (fun s => Reaches l k (lo, eiLast - lo) s.1)
    (fun r => ∀ area changed, r = some (area, changed) → Clean l k lo eiLast area) ?_ reached run
  · exact post next changed rfl
  · intro s reached
    unfold again
    rw [ranges]
    split
    · rename_i found
      exact reached.tail found
    · rintro _ _ ⟨⟩
    · rename_i found
      rintro _ _ ⟨⟩
      refine ⟨(gives_up nonempty hk (by omega) forward safe first reached).resolve_right fun up => ?_, found⟩
      cases found.symm.trans up

/-- An area that is returned is free, or it is the whole memory with the size that marks the failure. -/
theorem badAddrSize_clean (safe : ¬Overshoots l k lo eiLast)
    (inv : area = (lo, eiLast - lo) ∨ Clean l k lo eiLast area)
    {changed : Bool} (bad : badAddrSize n t k area = some (next, changed)) :
    Clean l k lo eiLast next ∨ changed = false ∧ eiLast < u64 (next.1 + next.2) := by
  obtain ⟨_ | ⟨left, _⟩, loop, eq⟩ := Option.map_eq_some_iff.mp bad
  · obtain ⟨rfl, rfl⟩ := Prod.mk.inj eq
    rcases inv with rfl | ⟨-, free⟩
    · have high := first.high
      refine .inr ⟨rfl, ?_⟩
      simp only [u64]
      omega
    cases n with
    | zero => cases loop
    | succ n =>
      rw [Loop.run, again, ranges, free] at loop
      cases loop
  · obtain ⟨rfl, rfl⟩ := Prod.mk.inj eq
    have reached : Reaches l k (lo, eiLast - lo) area := inv.elim (fun h => h ▸ .refl) fun clean => clean.1.reached
    exact .inl (again_clean nonempty hk small forward first ranges safe reached loop)

omit nonempty hk small forward first in
theorem run_of_reaches (reached : Reaches l k area next) (free : l.findSome? (clash k next.1 next.2) = none) :
    ∃ m, Loop.run (again t k) m (area, true) = some (some (next, true)) := by
  induction reached using Relation.ReflTransGen.head_induction_on with
  | refl => exact ⟨1, by rw [Loop.run, again, ranges, free]⟩
  | head step _ ih =>
    obtain ⟨m, run⟩ := ih
    exact ⟨m + 1, by rw [Loop.run, again, ranges, step]; exact run⟩

/-- An area past the end of the memory is returned. -/
theorem overshoots_returns (overshoots : Overshoots l k lo eiLast) : ∃ n next,
    Loop.run (areaTurn n t k eiLast) n (lo, eiLast - lo) = some (some next) ∧ u64 (next.1 + next.2) ≤ eiLast ∧
      Past next := by
  obtain ⟨area, next, reached, step, past, none⟩ := overshoots
  have fits := (fits_or_past nonempty hk (by omega) forward first reached).resolve_right fun past =>
    past.not_step step
  obtain ⟨isPast, sum, -⟩ := (fits.step nonempty hk (by omega) forward step).resolve_left fun h => by omega
  have free : l.findSome? (clash k next.1 next.2) = Option.none := by
    refine findSome?_eq_none_iff.mpr fun q hq => ?_
    rw [isPast.clash, sum, if_neg fun covers => ?_]
    exact absurd (none q hq covers.1) (not_lt.mpr covers.2)
  obtain ⟨c, begin, rest⟩ := Relation.TransGen.head'_iff.mp (.tail' reached step)
  obtain ⟨m, run⟩ := run_of_reaches ranges rest free
  have inside : u64 (next.1 + next.2) ≤ eiLast := sum.trans_le fits.high
  refine ⟨m + 2, next, ?_, inside, isPast⟩
  have moves : badAddrSize (m + 2) t k (lo, eiLast - lo) = some (next, true) := by
    rw [badAddrSize, Loop.run, again, ranges, begin]
    exact congrArg _ (Loop.run_mono (Nat.le_succ m) run)
  have stays : badAddrSize (m + 2) t k next = some (next, false) := by
    rw [badAddrSize, Loop.run, again, ranges, free]
    rfl
  rw [Loop.run, areaTurn, moves]
  simp only [inside, and_self, if_true]
  rw [Loop.run, areaTurn, stays]
  simp

end

/-- An area is aligned, not below the start, in the memory and free. -/
structure FreeArea (l : List Res) (k lo eiLast : Nat) (area : Nat × Nat) : Prop where
  aligned : 2 ^ k ∣ area.1
  low : lo ≤ area.1
  pos : 0 < area.2
  high : area.1 + area.2 ≤ eiLast
  free : ∀ r ∈ l, r.end_ ≤ area.1 ∨ area.1 + area.2 ≤ r.start

theorem Ranges.live_eq (h : Ranges t l) : live t = l := by
  obtain ⟨free, slots, cleared⟩ := h.slots
  rw [live, slots]
  refine (cut_while _ (fun r mem => ?_) fun r first => ?_).1
  · simpa using (Nat.zero_lt_of_lt (h.nonempty r mem)).ne'
  · simpa using cleared r (mem_of_mem_head? first)

theorem Clean.freeArea {lo base : Nat} (clean : Clean l k lo eiLast area) (small : eiLast < 2 ^ 64 - 1)
    (low : base ≤ lo) : FreeArea l k base eiLast area := by
  obtain ⟨fits, free⟩ := clean
  refine ⟨fits.aligned, low.trans fits.low, fits.pos, fits.high, fun r mem => ?_⟩
  have none := findSome?_eq_none_iff.mp free r mem
  have high := fits.high
  simp only [clash, u64_eq (by omega : area.1 + area.2 < 2 ^ 64)] at none
  split_ifs at none
  omega

def lowRange : List Res := [⟨0, 0x800⟩]

theorem lowRange_step {area next : Nat × Nat} (reached : Reaches lowRange 12 (0, 0x3000) area)
    (step : Step lowRange 12 area next) : area = (0, 0x3000) ∧ next = (0x1000, 0x2000) := by
  have moves : lowRange.findSome? (clash 12 0 0x3000) = some (some (0x1000, 0x2000)) := by decide +kernel
  have stays : lowRange.findSome? (clash 12 0x1000 0x2000) = none := by decide +kernel
  have ends : area = (0, 0x3000) ∨ area = (0x1000, 0x2000) := by
    clear step
    induction reached with
    | refl => exact .inl rfl
    | tail _ step ih =>
      rcases ih with rfl | rfl
      · exact .inr (Option.some.inj (Option.some.inj (step.symm.trans moves)))
      · cases stays.symm.trans step
  rcases ends with rfl | rfl
  · exact ⟨rfl, Option.some.inj (Option.some.inj (step.symm.trans moves))⟩
  · cases stays.symm.trans step

end Areas

end EarlyRes
