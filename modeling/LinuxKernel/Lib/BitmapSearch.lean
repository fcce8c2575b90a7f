/- The searches of lib/bitmap.c: zero areas, and the maps between the positions and the ordinals of set bits. -/
import Mathlib.Data.Nat.Count
import LinuxKernel.Foundation.Align
import LinuxKernel.Foundation.Loop

namespace BitmapSearch

open List
open Nat (testBit zero_le)

open Function (update)

/-- `find_next_bit`: the first set bit from `offset` on, or `size`; `find_first_bit` starts at 0. -/
def findNextBit (map : Nat → Bool) (size offset : Nat) : Nat :=
  ((range' offset (size - offset)).find? map).getD size

def findNextZeroBit (map : Nat → Bool) : Nat → Nat → Nat := findNextBit fun i => !map i

variable {map : Nat → Bool} {size offset start nr k : Nat}

theorem findNextBit_spec (map : Nat → Bool) (le : offset ≤ size) :
    offset ≤ findNextBit map size offset ∧ findNextBit map size offset ≤ size ∧
      (findNextBit map size offset < size → map (findNextBit map size offset) = true) ∧
      ∀ i, offset ≤ i → i < findNextBit map size offset → map i = false := by
  unfold findNextBit
  cases found : (range' offset (size - offset)).find? map with
  | none =>
    refine ⟨le, le_rfl, fun lt => absurd lt (Nat.lt_irrefl _), fun i low high => ?_⟩
    rw [Option.getD_none] at high
    exact Bool.eq_false_of_not_eq_true (find?_eq_none.mp found i (mem_range'_1.mpr ⟨low, by omega⟩))
  | some r =>
    obtain ⟨set, j, hj, eq, before⟩ := find?_eq_some_iff_getElem.mp found
    rw [length_range'] at hj
    rw [getElem_range', Nat.one_mul] at eq
    refine ⟨?_, ?_, fun _ => set, fun i low high => ?_⟩
    · rw [Option.getD_some]
      omega
    · rw [Option.getD_some]
      omega
    · rw [Option.getD_some] at high
      have := before (i - offset) (by omega)
      rwa [getElem_range', Nat.one_mul, Nat.add_sub_cancel' low, Bool.not_eq_true'] at this

/-- From `again:` to the jump back or the return. -/
def zeroAreaTurn (map : Nat → Bool) (size nr alignMask start : Nat) : Nat ⊕ Nat :=
  let index := Align.alignUp 64 (findNextZeroBit map size start) (alignMask + 1)
  let stop := (index + nr) % 2 ^ 64
  if size < stop then .inr stop
  else
    let i := findNextBit map stop index
    if i < stop then .inl (i + 1) else .inr index

def bitmapFindNextZeroArea (map : Nat → Bool) (size start nr alignMask n : Nat) : Option Nat :=
  Loop.run (zeroAreaTurn map size nr alignMask) n start

/-- An aligned position at which `nr` clear bits of the bitmap begin. -/
def ZeroArea (map : Nat → Bool) (size nr alignMask r : Nat) : Prop :=
  alignMask + 1 ∣ r ∧ r + nr ≤ size ∧ ∀ i, r ≤ i → i < r + nr → map i = false

/-- The least of these positions from `start` on, or a value above the size if there is none. -/
def Answers (map : Nat → Bool) (size start nr alignMask r : Nat) : Prop :=
  (ZeroArea map size nr alignMask r ∧ start ≤ r ∧ ∀ t, start ≤ t → ZeroArea map size nr alignMask t → r ≤ t) ∨
    size < r ∧ ∀ t, start ≤ t → ¬ ZeroArea map size nr alignMask t

theorem zeroAreaTurn_spec (le : start ≤ size) (pos : 1 ≤ nr) (fits : size + nr + (2 ^ k - 1) < 2 ^ 64) :
    (zeroAreaTurn map size nr (2 ^ k - 1) start).elim
      (fun s => start < s ∧ s ≤ size ∧ ∀ t, start ≤ t → ZeroArea map size nr (2 ^ k - 1) t → s ≤ t)
      (fun r => Answers map size start nr (2 ^ k - 1) r ∧ r ≤ size + nr + (2 ^ k - 1)) := by
  have one : 2 ^ k - 1 + 1 = 2 ^ k := Nat.sub_add_cancel (Nat.two_pow_pos k)
  have hk : k ≤ 64 := (Nat.pow_le_pow_iff_right (by decide : 1 < 2)).mp (by omega)
  obtain ⟨low, high, -, ones⟩ := findNextBit_spec (fun i => !map i) le
  rw [zeroAreaTurn, one, findNextZeroBit]
  generalize findNextBit (fun i => !map i) size start = first at *
  have first_le : first ≤ Align.alignUp 64 first (2 ^ k) := Align.le_alignUp (by omega)
  have le_first : Align.alignUp 64 first (2 ^ k) ≤ first + (2 ^ k - 1) := by
    rw [Align.alignUp_eq]
    exact (Nat.div_mul_le_self _ _).trans (Nat.mod_le _ _)
  have least : ∀ t, start ≤ t → ZeroArea map size nr (2 ^ k - 1) t → Align.alignUp 64 first (2 ^ k) ≤ t := by
    rintro t ht ⟨dvd, inside, zero⟩
    refine Align.alignUp_le hk (not_lt.mp fun lt => ?_) (by omega) (one ▸ dvd)
    have := ones t ht lt
    rw [zero t le_rfl (by omega)] at this
    cases this
  have dvd := Align.dvd_alignUp 64 first k
  generalize Align.alignUp 64 first (2 ^ k) = index at *
  rw [Nat.mod_eq_of_lt (by omega)]
  dsimp only
  split_ifs with outside hit
  · refine ⟨.inr ⟨outside, fun t ht area => ?_⟩, by omega⟩
    have := least t ht area
    have := area.2.1
    omega
  · obtain ⟨from_index, -, set, -⟩ := findNextBit_spec map (Nat.le_add_right index nr)
    refine ⟨by omega, by omega, fun t ht area => ?_⟩
    -- an area from the index on that does not begin behind the set bit would contain it
    by_contra lt
    have := least t ht area
    have := area.2.2 (findNextBit map (index + nr) index) (by omega) (by omega)
    rw [set hit] at this
    cases this
  · obtain ⟨-, -, -, zero⟩ := findNextBit_spec map (Nat.le_add_right index nr)
    exact ⟨.inl ⟨⟨one ▸ dvd, by omega, fun i h h' => zero i h (by omega)⟩, by omega, least⟩, by omega⟩

theorem zeroArea_found (map : Nat → Bool) (le : start ≤ size) (pos : 1 ≤ nr)
    (fits : size + nr + (2 ^ k - 1) < 2 ^ 64) :
    ∃ r, (∀ n > size - start, bitmapFindNextZeroArea map size start nr (2 ^ k - 1) n = some r) ∧
      Answers map size start nr (2 ^ k - 1) r ∧ r ≤ size + nr + (2 ^ k - 1) := by
  suffices ends : ∃ r, bitmapFindNextZeroArea map size start nr (2 ^ k - 1) (size - start + 1) = some r ∧
      Answers map size start nr (2 ^ k - 1) r ∧ r ≤ size + nr + (2 ^ k - 1) from
    ends.imp fun r found => ⟨fun n hn => Loop.run_mono hn found.1, found.2⟩
  refine Loop.run_total (zeroAreaTurn map size nr (2 ^ k - 1))
    (fun m s => s ≤ size ∧ size - s = m ∧ start ≤ s ∧ ∀ t, start ≤ t → ZeroArea map size nr (2 ^ k - 1) t → s ≤ t)
    (fun r => Answers map size start nr (2 ^ k - 1) r ∧ r ≤ size + nr + (2 ^ k - 1)) ?_
    ⟨le, rfl, le_rfl, fun _ ht _ => ht⟩ (Nat.lt_succ_self _)
  rintro m s ⟨inside, rfl, from_start, least⟩
  have turn := @zeroAreaTurn_spec map _ _ _ _ inside pos fits
  cases step : zeroAreaTurn map size nr (2 ^ k - 1) s with
  | inl s' =>
    rw [step] at turn
    obtain ⟨lt, inside', least'⟩ := turn
    exact .inl ⟨size - s', s', rfl, by omega, inside', rfl, by omega,
      fun t ht area => least' t (least t ht area) area⟩
  | inr r =>
    rw [step] at turn
    obtain ⟨turn, bound⟩ := turn
    refine .inr ⟨r, rfl, ?_, bound⟩
    rcases turn with ⟨area, ge, least'⟩ | ⟨above, none⟩
    · exact .inl ⟨area, from_start.trans ge, fun t ht area => least' t (least t ht area) area⟩
    · exact .inr ⟨above, fun t ht area => none t (least t ht area) area⟩

/-- `bitmap_find_next_zero_area` returns: the least aligned position from `start` on at which `nr` clear bits begin
inside the bitmap, or a value above the size if there is none. -/
theorem find_next_zero_area (map : Nat → Bool) (le : start ≤ size) (pos : 1 ≤ nr)
    (fits : size + nr + (2 ^ k - 1) < 2 ^ 64) :
    ∃ r, (∀ n > size - start, bitmapFindNextZeroArea map size start nr (2 ^ k - 1) n = some r) ∧
      Answers map size start nr (2 ^ k - 1) r := by
  obtain ⟨r, run, answers, -⟩ := zeroArea_found map le pos fits
  exact ⟨r, run, answers⟩

/-- In the bits `11101000` the first aligned pair of clear bits behind position 1 begins at 6. -/
theorem find_next_zero_area_of_eight : bitmapFindNextZeroArea (fun i => testBit 23 i) 8 1 2 1 8 = some 6 ∧
    Answers (fun i => testBit 23 i) 8 1 2 1 6 := by
  have six : bitmapFindNextZeroArea (fun i => testBit 23 i) 8 1 2 1 8 = some 6 := by decide +kernel
  obtain ⟨r, run, answer⟩ := find_next_zero_area (k := 1) (fun i => testBit 23 i) (by decide : 1 ≤ 8)
    (by decide : 1 ≤ 2) (by decide)
  obtain rfl := Option.some.inj ((run 8 (by decide)).symm.trans six)
  exact ⟨six, answer⟩

/-- `bitmap_weight`: with a position in place of the size, the ordinal of the bit there. -/
def weight (buf : Nat → Bool) (bits : Nat) : Nat := Nat.count (fun i => buf i = true) bits

/-- The loop of `bitmap_pos_to_ord`; it leaves through `BUG_ON` without a result. -/
def ordTurn (buf : Nat → Bool) (pos bits : Nat) : Nat × Nat → (Nat × Nat) ⊕ Option Int
  | (i, ord) =>
    if i < pos then .inl (findNextBit buf bits (i + 1), ord + 1) else .inr (if i = pos then some ord else none)

def bitmapPosToOrd (n : Nat) (buf : Nat → Bool) (pos bits : Nat) : Option Int :=
  if bits ≤ pos ∨ buf pos = false then some (-1)
  else (Loop.run (ordTurn buf pos bits) n (findNextBit buf bits 0, 0)).join

def posTurn (buf : Nat → Bool) (bits : Nat) : Nat × Nat → (Nat × Nat) ⊕ Nat
  | (i, ord) =>
    if i < bits ∧ 0 < ord then .inl (findNextBit buf bits (i + 1), ord - 1)
    else .inr (if i < bits ∧ ord = 0 then i else 0)

def bitmapOrdToPos (n : Nat) (buf : Nat → Bool) (ord bits : Nat) : Option Nat :=
  if ord < bits then Loop.run (posTurn buf bits) n (findNextBit buf bits 0, ord) else some 0

def bitmapBitremap (n oldbit : Nat) (old new : Nat → Bool) (bits : Nat) : Option Nat := do
  let w := weight new bits
  let ord ← bitmapPosToOrd n old oldbit bits
  if ord < 0 ∨ w = 0 then some oldbit else bitmapOrdToPos n new (ord.toNat % w) bits

/-- The body of the loop over the set bits of `src`. -/
def remapBit (n : Nat) (old new : Nat → Bool) (bits w : Nat) (dst : Nat → Bool) (oldbit : Nat) :
    Option (Nat → Bool) := do
  let ord ← bitmapPosToOrd n old oldbit bits
  if ord < 0 ∨ w = 0 then some (update dst oldbit true)
  else return update dst (← bitmapOrdToPos n new (ord.toNat % w) bits) true

/-- `bitmap_remap` into an array of its own. -/
def bitmapRemap (n : Nat) (src old new : Nat → Bool) (bits : Nat) : Option (Nat → Bool) :=
  ((range bits).filter src).foldlM (remapBit n old new bits (weight new bits)) fun _ => false

variable {buf src old new : Nat → Bool} {bits i j n pos ord : Nat}

theorem weight_findNextBit (buf : Nat → Bool) (le : i ≤ bits) :
    weight buf (findNextBit buf bits i) = weight buf i := by
  obtain ⟨low, -, -, clear⟩ := findNextBit_spec buf le
  generalize findNextBit buf bits i = r at low clear
  induction r, low using Nat.le_induction with
  | base => rfl
  | succ m low ih =>
    have off : ¬ buf m = true := by simp [clear m low (Nat.lt_succ_self m)]
    exact (Nat.count_succ_eq_count_iff.mpr off).trans (ih fun l h h' => clear l h (Nat.lt_succ_of_lt h'))

theorem weight_lt (set : buf i = true) (lt : i < bits) :
    weight buf i < weight buf bits := Nat.count_strict_mono set lt

theorem weight_succ (set : buf i = true) : weight buf (i + 1) = weight buf i + 1 := Nat.count_succ_eq_succ_count set

theorem bitmapPosToOrd_spec (lt : pos < bits) (set : buf pos = true) (hn : bits < n) :
    bitmapPosToOrd n buf pos bits = some (weight buf pos : Int) := by
  have up_to : ∀ i ≤ pos, findNextBit buf bits i ≤ pos ∧ buf (findNextBit buf bits i) = true := by
    intro i le
    obtain ⟨-, -, hit, clear⟩ := findNextBit_spec buf (le.trans lt.le)
    have before := not_lt.mp fun after => Bool.false_ne_true ((clear pos le after).symm.trans set)
    exact ⟨before, hit (by omega)⟩
  obtain ⟨r, run, rfl⟩ := Loop.run_total (ordTurn buf pos bits)
    (fun m s => s.1 ≤ pos ∧ pos - s.1 = m ∧ buf s.1 = true ∧ s.2 = weight buf s.1)
      (· = some (weight buf pos : Int)) (by
      rintro _ ⟨i, ord⟩ ⟨le, rfl, here, count⟩
      dsimp only at le here count
      rw [ordTurn]
      split_ifs with before at_pos
      · have next := up_to (i + 1) before
        have inside : i + 1 ≤ bits := by omega
        have low := (findNextBit_spec buf inside).1
        refine .inl ⟨_, _, rfl, ?_, next.1, rfl, next.2, ?_⟩
        · dsimp only
          omega
        · rw [weight_findNextBit buf inside, weight_succ here, count]
      · exact .inr ⟨_, rfl, by rw [count, at_pos]⟩
      · exact absurd (le_antisymm le (not_lt.mp before)) at_pos)
    (s := (findNextBit buf bits 0, 0)) (n := n) ⟨(up_to 0 (zero_le _)).1, rfl, (up_to 0 (zero_le _)).2,
      (weight_findNextBit buf (zero_le _)).symm⟩ (by omega)
  rw [bitmapPosToOrd, if_neg (by simp [lt, set]), run]
  rfl

theorem bitmapOrdToPos_spec (lt : ord < weight buf bits) (hn : bits < n) :
    ∃ p, bitmapOrdToPos n buf ord bits = some p ∧ p < bits ∧ buf p = true ∧ weight buf p = ord := by
  have inside : ∀ i ≤ bits, weight buf i ≤ ord → findNextBit buf bits i < bits ∧
      buf (findNextBit buf bits i) = true := by
    intro i le few
    obtain ⟨-, high, hit, -⟩ := findNextBit_spec buf le
    have same := weight_findNextBit buf le
    have below := high.lt_of_ne fun eq => by
      rw [eq] at same
      omega
    exact ⟨below, hit below⟩
  rw [bitmapOrdToPos, if_pos (lt.trans_le (Nat.count_le _))]
  refine Loop.run_total (posTurn buf bits)
    (fun m s => s.1 < bits ∧ bits - s.1 = m ∧ buf s.1 = true ∧ weight buf s.1 + s.2 = ord) _ ?_
    ⟨(inside 0 (zero_le _) (zero_le _)).1, rfl, (inside 0 (zero_le _) (zero_le _)).2, ?_⟩ (by omega)
  · rintro _ ⟨i, o⟩ ⟨below, rfl, here, rfl⟩
    rw [posTurn]
    split_ifs with more last
    · have later : i + 1 ≤ bits := below
      have low := (findNextBit_spec buf later).1
      have next := inside (i + 1) below (by rw [weight_succ here]; dsimp only; omega)
      refine .inl ⟨_, _, rfl, ?_, next.1, rfl, next.2, ?_⟩
      · dsimp only
        omega
      · rw [weight_findNextBit buf later, weight_succ here]
        omega
    · exact .inr ⟨i, rfl, below, here, by rw [last.2]; rfl⟩
    · exact absurd ⟨below, by omega⟩ last
  · rw [weight_findNextBit buf (zero_le _)]
    exact Nat.zero_add _

/-- Where a position goes: the set bits of `old` to those of `new` by their ordinals, the others to themselves. -/
def Image (old new : Nat → Bool) (bits i j : Nat) : Prop :=
  if i < bits ∧ old i = true ∧ weight new bits ≠ 0 then
    j < bits ∧ new j = true ∧ weight new j = weight old i % weight new bits
  else j = i

theorem bitmapBitremap_spec (old new : Nat → Bool) (hn : bits < n) (i : Nat) :
    ∃ j, bitmapBitremap n i old new bits = some j ∧ Image old new bits i j := by
  by_cases moved : i < bits ∧ old i = true ∧ weight new bits ≠ 0
  · have run : bitmapBitremap n i old new bits = bitmapOrdToPos n new (weight old i % weight new bits) bits := by
      simp [bitmapBitremap, bitmapPosToOrd_spec moved.1 moved.2.1 hn, moved.2.2]
    simp only [Image, if_pos moved, run]
    exact bitmapOrdToPos_spec (Nat.mod_lt _ (Nat.pos_of_ne_zero moved.2.2)) hn
  refine ⟨i, ?_, (if_neg moved).mpr rfl⟩
  by_cases set : i < bits ∧ old i = true
  · have empty : weight new bits = 0 := not_not.mp fun ne => moved ⟨set.1, set.2, ne⟩
    simp [bitmapBitremap, bitmapPosToOrd_spec set.1 set.2 hn, empty]
  · rw [bitmapBitremap, bitmapPosToOrd, if_pos (by simpa [or_iff_not_imp_left] using set)]
    rfl

theorem foldlM_remapBit (old new : Nat → Bool) (hn : bits < n) (l : List Nat) (dst : Nat → Bool) :
    ∃ dst', l.foldlM (remapBit n old new bits (weight new bits)) dst = some dst' ∧
      ∀ j, dst' j = true ↔ dst j = true ∨ ∃ i ∈ l, bitmapBitremap n i old new bits = some j := by
  induction l generalizing dst with
  | nil => exact ⟨dst, rfl, by simp⟩
  | cons i l ih =>
    obtain ⟨p, image, -⟩ := bitmapBitremap_spec old new hn i
    have step : remapBit n old new bits (weight new bits) dst i = some (update dst p true) := by
      rw [bitmapBitremap] at image
      rw [remapBit]
      cases ord : bitmapPosToOrd n old i bits with
      | none => simp [ord] at image
      | some o =>
        simp only [ord, Option.bind_eq_bind, Option.bind_some] at image ⊢
        split_ifs at image ⊢ with identity
        · rw [Option.some.inj image]
        · rw [image]
          rfl
    obtain ⟨dst', run, spec⟩ := ih (update dst p true)
    refine ⟨dst', by rw [foldlM_cons, step]; exact run, fun j => ?_⟩
    rw [spec]
    simp only [mem_cons, exists_eq_or_imp, image]
    by_cases eq : j = p
    · simp [eq]
    · simp [eq, Ne.symm eq]

/-- `bitmap_remap` gives the images of the bits of `src` under `bitmap_bitremap`, and these are the ones described;
between maps of the same weight, a subset of `old` comes back. -/
theorem remap_images (src old new : Nat → Bool) (hn : bits < n) :
    (∀ i, ∃ j, bitmapBitremap n i old new bits = some j ∧ Image old new bits i j) ∧
    ∃ dst, bitmapRemap n src old new bits = some dst ∧
      (∀ j, dst j = true ↔ ∃ i < bits, src i = true ∧ bitmapBitremap n i old new bits = some j) ∧
      (weight old bits = weight new bits → (∀ i < bits, src i = true → old i = true) →
        ∃ back, bitmapRemap n dst new old bits = some back ∧ ∀ i < bits, back i = src i) := by
  have images (src old new : Nat → Bool) : ∃ dst, bitmapRemap n src old new bits = some dst ∧
      ∀ j, dst j = true ↔ ∃ i < bits, src i = true ∧ bitmapBitremap n i old new bits = some j := by
    obtain ⟨dst, run, spec⟩ := foldlM_remapBit old new hn ((range bits).filter src) fun _ => false
    refine ⟨dst, run, fun j => ?_⟩
    simp [spec, and_assoc]
  refine ⟨bitmapBitremap_spec old new hn, ?_⟩
  obtain ⟨dst, run, spec⟩ := images src old new
  refine ⟨dst, run, spec, fun same sub => ?_⟩
  obtain ⟨back, run', spec'⟩ := images dst new old
  refine ⟨back, run', ?_⟩
  have forth : ∀ i < bits, old i = true → ∃ j < bits, bitmapBitremap n i old new bits = some j ∧
      bitmapBitremap n j new old bits = some i := by
    intro i lt set
    have below := weight_lt set lt
    obtain ⟨j, move, image⟩ := bitmapBitremap_spec old new hn i
    rw [Image, if_pos ⟨lt, set, by omega⟩, Nat.mod_eq_of_lt (by omega)] at image
    obtain ⟨k, move', image'⟩ := bitmapBitremap_spec new old hn j
    rw [Image, if_pos ⟨image.1, image.2.1, by omega⟩, image.2.2, Nat.mod_eq_of_lt below] at image'
    rw [Nat.count_injective image'.2.1 set image'.2.2] at move'
    exact ⟨j, image.1, move, move'⟩
  intro i lt
  rw [Bool.eq_iff_iff, spec']
  constructor
  · rintro ⟨j, -, hj, move'⟩
    obtain ⟨i', lt', set, move⟩ := (spec j).mp hj
    obtain ⟨j', -, move₁, move₂⟩ := forth i' lt' (sub i' lt' set)
    obtain rfl := Option.some.inj (move.symm.trans move₁)
    obtain rfl := Option.some.inj (move'.symm.trans move₂)
    exact set
  · intro set
    obtain ⟨j, lt', move, move'⟩ := forth i lt (sub i lt set)
    exact ⟨j, lt', (spec j).mpr ⟨i, lt, set, move⟩, move'⟩

theorem remap_images_of_four : ∃ dst back, bitmapRemap 5 (testBit 2) (testBit 6) (testBit 9) 4 = some dst ∧
    dst 0 = true ∧ bitmapRemap 5 dst (testBit 9) (testBit 6) 4 = some back ∧ ∀ i < 4, back i = testBit 2 i := by
  obtain ⟨-, dst, run, images, back⟩ :=
    remap_images (testBit 2) (testBit 6) (testBit 9) (by decide : 4 < 5)
  obtain ⟨back, run', same⟩ := back (by decide) (by decide)
  exact ⟨dst, back, run, (images 0).mpr ⟨1, by decide⟩, run', same⟩

end BitmapSearch
