/- kernel/range.c: arrays of half-open ranges in which an entry with `end` 0 is a free slot. -/
import Mathlib.Data.Fin.VecNotation
import Mathlib.Data.List.FinRange
import Mathlib.Logic.Function.Basic

namespace RangeArray

open Function

structure Range where
  start : Nat
  stop : Nat

variable {az : Nat}

def addRange (range : Fin az → Range) (nrRange start stop : Nat) : (Fin az → Range) × Nat :=
  if stop ≤ start then (range, nrRange)
  else if h : nrRange < az then (update range ⟨nrRange, h⟩ ⟨start, stop⟩, nrRange + 1)
  else (range, nrRange)

/-- The entries that the loop of `add_range_with_merge` does not pass over. -/
def meets (r : Range) (start stop : Nat) : Bool := r.stop ≠ 0 && max r.start start ≤ min r.stop stop

def addRangeWithMerge (range : Fin az → Range) (nrRange start stop : Nat) : (Fin az → Range) × Nat :=
  if stop ≤ start then (range, nrRange)
  else
    match (List.finRange az).find? fun i : Fin az => i.val < nrRange && meets (range i) start stop with
    | some i => (update range i ⟨min (range i).start start, max (range i).stop stop⟩, nrRange)
    | none => addRange range nrRange start stop

/-- The turn of `subtract_range` for one entry, and whether it has printed "run of slot in ranges". -/
def subtractTurn (start stop : Nat) : (Fin az → Range) × Bool → Fin az → (Fin az → Range) × Bool
  | (range, printed), j =>
    let r := range j
    if r.stop = 0 then (range, printed)
    else if start ≤ r.start ∧ r.stop ≤ stop then (update range j ⟨0, 0⟩, printed)
    else if start ≤ r.start ∧ stop < r.stop ∧ r.start < stop then (update range j ⟨stop, r.stop⟩, printed)
    else if r.start < start ∧ r.stop ≤ stop ∧ start < r.stop then (update range j ⟨r.start, start⟩, printed)
    else if r.start < start ∧ stop < r.stop then
      match (List.finRange az).find? fun i => (range i).stop = 0 with
      | some i => (update (update range i ⟨stop, r.stop⟩) j ⟨r.start, start⟩, printed)
      | none => (update range j ⟨r.start, start⟩, true)
    else (range, printed)

def subtractRange (range : Fin az → Range) (start stop : Nat) : (Fin az → Range) × Bool :=
  if stop ≤ start then (range, false)
  else (List.finRange az).foldl (subtractTurn start stop) (range, false)

def Range.Holds (r : Range) (x : Nat) : Prop := r.start ≤ x ∧ x < r.stop

def Covers (range : Fin az → Range) (x : Nat) : Prop := ∃ i, (range i).Holds x

variable {range range' : Fin az → Range} {start stop x : Nat}

theorem covers_update (range : Fin az → Range) (j : Fin az) (r : Range) (x : Nat) :
    Covers (update range j r) x ↔ r.Holds x ∨ ∃ i, i ≠ j ∧ (range i).Holds x :=
  exists_update_iff range fun _ r => r.Holds x

theorem covers_split (range : Fin az → Range) (j : Fin az) (x : Nat) :
    Covers range x ↔ (range j).Holds x ∨ ∃ i, i ≠ j ∧ (range i).Holds x := by
  rw [← covers_update, update_eq_self]

theorem addRangeWithMerge_spec (nrRange : Fin az) (free : (range nrRange).stop = 0) (lt : start < stop) (x : Nat) :
    Covers (addRangeWithMerge range nrRange start stop).1 x ↔ Covers range x ∨ start ≤ x ∧ x < stop := by
  rw [addRangeWithMerge, if_neg (by omega)]
  split
  · next i found =>
    have hit := List.find?_some found
    simp only [meets, Bool.and_eq_true, decide_eq_true_eq] at hit
    rw [covers_update, covers_split range i, or_right_comm]
    refine or_congr_left ?_
    simp only [Range.Holds]
    omega
  · rw [addRange, if_neg (by omega), dif_pos nrRange.2, covers_update, covers_split range nrRange]
    rw [or_right_comm]
    refine or_congr_left ?_
    simp only [Range.Holds]
    omega

/-- One turn takes the positions of `start` to `stop` out of the entry, and nothing else. -/
structure Trims (start stop : Nat) (range range' : Fin az → Range) (j : Fin az) : Prop where
  outside : ∀ x, x < start ∨ stop ≤ x → (Covers range' x ↔ Covers range x)
  inside : ∀ i x, start ≤ x → x < stop → (range' i).Holds x → i ≠ j ∧ (range i).Holds x

theorem Trims.of_update {j : Fin az} {r : Range}
    (outside : ∀ x, x < start ∨ stop ≤ x → (r.Holds x ↔ (range j).Holds x))
    (inside : ∀ x, start ≤ x → x < stop → ¬ r.Holds x) : Trims start stop range (update range j r) j where
  outside x out := by rw [covers_update, covers_split range j, outside x out]
  inside := (forall_update_iff range fun i r => ∀ x, start ≤ x → x < stop → r.Holds x → i ≠ j ∧ (range i).Holds x).mpr
    ⟨fun x low high holds => absurd holds (inside x low high), fun i ne x _ _ holds => ⟨ne, holds⟩⟩

theorem Trims.of_split {i j : Fin az} (free : (range i).stop = 0) (low : (range j).start < start) (lt : start < stop)
    (high : stop < (range j).stop) :
    Trims start stop range (update (update range i ⟨stop, (range j).stop⟩) j ⟨(range j).start, start⟩) j := by
  have ne : i ≠ j := by
    rintro rfl
    omega
  have none : ∀ x, ¬ (range i).Holds x := fun x holds => Nat.not_lt_zero x (free ▸ holds.2)
  refine ⟨fun x out => ?_, ?_⟩
  · have tail : (∃ k, k ≠ j ∧ (update range i ⟨stop, (range j).stop⟩ k).Holds x) ↔
        (stop ≤ x ∧ x < (range j).stop) ∨ ∃ k, k ≠ j ∧ (range k).Holds x := by
      rw [exists_update_iff range fun k r => k ≠ j ∧ r.Holds x]
      refine or_congr (and_iff_right ne) (exists_congr fun k => and_iff_right_of_imp ?_)
      rintro ⟨-, holds⟩ rfl
      exact none x holds
    rw [covers_update, covers_split range j, tail, ← or_assoc]
    refine or_congr_left ?_
    simp only [Range.Holds]
    omega
  · refine (forall_update_iff _ fun k (r : Range) => ∀ x, start ≤ x → x < stop → r.Holds x → k ≠ j ∧
      (range k).Holds x).mpr
      ⟨fun x from_start _ holds => absurd holds.2 (Nat.not_lt.mpr from_start), ?_⟩
    refine (forall_update_iff range fun k r => k ≠ j → ∀ x, start ≤ x → x < stop → r.Holds x →
      k ≠ j ∧ (range k).Holds x).mpr ⟨fun _ x _ to_stop holds => absurd holds.1 (Nat.not_le.mpr to_stop), ?_⟩
    exact fun k _ kj x _ _ holds => ⟨kj, holds⟩

/-- The entry has to be split only if a slot is free. -/
def HasRoom (start stop : Nat) (range : Fin az → Range) (j : Fin az) : Prop :=
  (range j).start < start → stop < (range j).stop → ∃ i, (range i).stop = 0

theorem subtractTurn_trims (printed : Bool) {j : Fin az} (lt : start < stop) (room : HasRoom start stop range j) :
    Trims start stop range (subtractTurn start stop (range, printed) j).1 j := by
  have same (out : ∀ x, start ≤ x → x < stop → ¬ (range j).Holds x) : Trims start stop range range j := by
    conv => arg 4; rw [← update_eq_self j range]
    exact .of_update (fun _ _ => Iff.rfl) out
  unfold Range.Holds at same
  rw [subtractTurn]
  split_ifs with empty all front back middle
  · exact same (by omega)
  · refine .of_update ?_ ?_ <;> simp only [Range.Holds] <;> omega
  · refine .of_update ?_ ?_ <;> simp only [Range.Holds] <;> omega
  · refine .of_update ?_ ?_ <;> simp only [Range.Holds] <;> omega
  · split
    · next i found => exact .of_split (by simpa using List.find?_some found) middle.1 lt middle.2
    · next none_free =>
      obtain ⟨i, free⟩ := room middle.1 middle.2
      simpa [free] using List.find?_eq_none.mp none_free i (List.mem_finRange i)
  · exact same (by omega)

theorem foldl_subtractTurn (lt : start < stop) (l : List (Fin az)) {s : (Fin az → Range) × Bool}
    (room : ∀ l₁ j l₂, l = l₁ ++ j :: l₂ → HasRoom start stop (l₁.foldl (subtractTurn start stop) s).1 j) :
      (∀ x, x < start ∨ stop ≤ x → (Covers (l.foldl (subtractTurn start stop) s).1 x ↔ Covers s.1 x)) ∧
      ∀ i x, start ≤ x → x < stop → ((l.foldl (subtractTurn start stop) s).1 i).Holds x → i ∉ l ∧
        (s.1 i).Holds x := by
  induction l generalizing s with
  | nil => exact ⟨fun _ _ => Iff.rfl, fun _ _ _ _ holds => ⟨List.not_mem_nil, holds⟩⟩
  | cons j l ih =>
    obtain ⟨outside, inside⟩ := ih fun l₁ k l₂ eq => room (j :: l₁) k l₂ (by rw [eq, List.cons_append])
    have trims := subtractTurn_trims s.2 lt (room [] j l rfl)
    refine ⟨fun x out => (outside x out).trans (trims.outside x out), fun i x low high holds => ?_⟩
    obtain ⟨later, holds⟩ := inside i x low high holds
    obtain ⟨ne, holds⟩ := trims.inside i x low high holds
    exact ⟨by simp [ne, later], holds⟩

/-- The array when the loop of `subtract_range` comes to the entry. -/
def atTurn (range : Fin az → Range) (start stop : Nat) (j : Fin az) : Fin az → Range :=
  (((List.finRange az).take j).foldl (subtractTurn start stop) (range, false)).1

/-- With a free slot at `nr_range`, `add_range_with_merge` gives the union with the range; `subtract_range` gives the
union without it if there is a free slot whenever it comes to an entry that it has to split. -/
theorem range_array_union (range : Fin az → Range) (lt : start < stop) :
    (∀ nrRange : Fin az, (range nrRange).stop = 0 → ∀ x,
      Covers (addRangeWithMerge range nrRange start stop).1 x ↔ Covers range x ∨ start ≤ x ∧ x < stop) ∧
    ((∀ j, HasRoom start stop (atTurn range start stop j) j) → ∀ x,
      Covers (subtractRange range start stop).1 x ↔ Covers range x ∧ ¬ (start ≤ x ∧ x < stop)) := by
  refine ⟨fun nrRange free => addRangeWithMerge_spec nrRange free lt, fun room x => ?_⟩
  rw [subtractRange, if_neg (by omega)]
  obtain ⟨outside, inside⟩ := foldl_subtractTurn (s := (range, false)) lt (List.finRange az) fun l₁ j l₂ eq => by
    have index : l₁.length = j := by
      have at_j : (List.finRange az)[l₁.length]? = some j := by simp [eq]
      obtain ⟨_, rfl⟩ := List.getElem?_eq_some_iff.mp at_j
      simp
    have before : (List.finRange az).take j = l₁ := by rw [eq, ← index, List.take_left]
    exact before ▸ room j
  by_cases cut : start ≤ x ∧ x < stop
  · refine iff_of_false ?_ fun h => h.2 cut
    rintro ⟨i, holds⟩
    exact (inside i x cut.1 cut.2 holds).1 (List.mem_finRange i)
  · rw [outside x (by omega), and_iff_left cut]

/-- The range 2 to 4 cuts 1 to 9 in two and 3 to 5 short, and the tail takes the last slot. -/
theorem range_array_union_of_three : (∀ j, HasRoom 2 4 (atTurn ![⟨1, 9⟩, ⟨3, 5⟩, ⟨0, 0⟩] 2 4 j) j) ∧
    ¬ Covers (subtractRange ![⟨1, 9⟩, ⟨3, 5⟩, ⟨0, 0⟩] 2 4).1 3 ∧
    Covers (subtractRange ![⟨1, 9⟩, ⟨3, 5⟩, ⟨0, 0⟩] 2 4).1 8 ∧
    Covers (addRangeWithMerge ![⟨1, 9⟩, ⟨3, 5⟩, ⟨0, 0⟩] 2 12 14).1 13 := by
  have room : ∀ j, HasRoom 2 4 (atTurn ![⟨1, 9⟩, ⟨3, 5⟩, ⟨0, 0⟩] 2 4 j) j := by
    unfold HasRoom
    decide
  have left := (range_array_union ![⟨1, 9⟩, ⟨3, 5⟩, ⟨0, 0⟩] (by decide : 2 < 4)).2 room
  refine ⟨room, fun covers => ((left 3).mp covers).2 (by decide),
    (left 8).mpr ⟨⟨0, by unfold Range.Holds; decide⟩, by decide⟩, ?_⟩
  exact ((range_array_union ![⟨1, 9⟩, ⟨3, 5⟩, ⟨0, 0⟩] (by decide : 12 < 14)).1 2 rfl 13).mpr (.inr (by decide))

end RangeArray
