/- The text searches of lib/ts_kmp.c and lib/ts_bm.c in a text that comes in blocks. -/
import Mathlib.Data.Nat.Find
import Mathlib.Order.Monotone.Basic
import LinuxKernel.Foundation.Loop
import LinuxKernel.Lib.TextSearchBm

namespace TextSearch

open Matching List Width

/-- A text whose length is an unsigned int, and the block that `get_next_block` gives at each position. -/
structure Source where
  text : List UInt8
  fits : text.length < 2 ^ 32
  block : Nat → List UInt8
  front : ∀ i, block i <+: text.drop i
  nonempty : ∀ i < text.length, block i ≠ []

section Source

variable (src : Source) {consumed : Nat}

theorem Source.next (more : src.block consumed ≠ []) : consumed < consumed + (src.block consumed).length ∧
    consumed + (src.block consumed).length ≤ src.text.length := by
  have le := (src.front consumed).length_le
  have pos := length_pos_iff.mpr more
  rw [length_drop] at le
  omega

theorem Source.drop_eq (consumed : Nat) :
    src.text.drop consumed = src.block consumed ++ src.text.drop (consumed + (src.block consumed).length) := by
  obtain ⟨rest, eq⟩ := src.front consumed
  rw [← drop_drop, ← eq, drop_left]

end Source

def Source.cut (text : List UInt8) (fits : text.length < 2 ^ 32) (size : Nat) (pos : 0 < size) : Source where
  text := text
  fits := fits
  block i := (text.drop i).take size
  front i := take_prefix size _
  nonempty i lt := by
    apply ne_nil_of_length_pos
    rw [length_take, length_drop]
    omega

/-- The inner loop of `kmp_find`: `q` at the end of the block, or the place behind the pattern. -/
def kmpBlock (kmp : TsKmp) (icase : Bool) : List UInt8 → Nat → Nat → Nat ⊕ Nat
  | [], _, q => .inl q
  | c :: block, i, q =>
    let q := advance kmp.pattern kmp.prefixTbl q (fold icase c)
    if q = kmp.pattern.length then .inr (i + 1) else kmpBlock kmp icase block (i + 1) q

/-- The body of the loop of `kmp_find` with `consumed` and `q`; it returns a position and leaves `state->offset`. -/
def kmpRound (src : Source) (kmp : TsKmp) (icase : Bool) (offset : Nat) : Nat × Nat → (Nat × Nat) ⊕ (Nat × Nat)
  | (consumed, q) =>
    let block := src.block consumed
    if block.length = 0 then .inr (UINT_MAX, offset)
    else
      match kmpBlock kmp icase block 0 q with
      | .inl q => .inl (u32 (consumed + block.length), q)
      | .inr i =>
        let offset := u32 (consumed + i)
        .inr (u32 (2 ^ 32 + offset - kmp.pattern.length), offset)

/-- `kmp_find` with at most so many blocks. -/
def kmpFindIn (src : Source) (kmp : TsKmp) (icase : Bool) (fuel offset : Nat) : Option (Nat × Nat) :=
  Loop.run (kmpRound src kmp icase offset) fuel (offset, 0)

/-- The results of so many calls, each from the `state->offset` of the one before. -/
def kmpFindAgain (src : Source) (kmp : TsKmp) (icase : Bool) (fuel : Nat) : Nat → Nat → Option (List Nat)
  | 0, _ => some []
  | n + 1, offset => do
    let (position, offset) ← kmpFindIn src kmp icase fuel offset
    let rest ← kmpFindAgain src kmp icase fuel n offset
    return position :: rest

def LeastFrom (p t : List UInt8) (offset : Nat) : Option Nat → Prop := LeastOf fun s => offset ≤ s ∧ Occurs p t s

/-- Occurrences one behind the other: each is the least that does not overlap the one before. -/
inductive Successive (p t : List UInt8) : Nat → List Nat → Prop
  | nil (offset : Nat) : Successive p t offset []
  | found {offset s : Nat} {l : List Nat} (least : LeastFrom p t offset (some s))
      (rest : Successive p t (s + p.length) l) : Successive p t offset (s :: l)
  | missing {offset : Nat} {l : List Nat} (none_left : LeastFrom p t offset none)
      (rest : Successive p t offset l) : Successive p t offset (UINT_MAX :: l)

theorem leastFrom_of_isFirst {p t : List UInt8} {offset : Nat} {r : Option Nat}
    (first : IsFirst p (t.drop offset) r) :
    LeastFrom p t offset (r.map (offset + ·)) := by
  have shift : ∀ s, Occurs p (t.drop offset) s ↔ Occurs p t (offset + s) := by
    intro s
    rw [Occurs, Occurs, drop_drop]
  cases r with
  | none =>
    rintro s ⟨le, occurs⟩
    exact first (s - offset) ((shift _).mpr (by rwa [Nat.add_sub_cancel' le]))
  | some s =>
    refine ⟨⟨Nat.le_add_right _ _, (shift s).mp first.1⟩, ?_⟩
    rintro s' lt ⟨le, occurs⟩
    exact first.2 (s' - offset) (Nat.sub_lt_left_of_lt_add le lt) ((shift _).mpr (by rwa [Nat.add_sub_cancel' le]))

section Kmp

variable {src : Source} {kmp : TsKmp} {icase : Bool} {q consumed offset : Nat}

theorem kmpSearch_append (block rest : List UInt8) (i j : Nat) : kmpSearch kmp icase (block ++ rest) (i + j) q =
    (kmpBlock kmp icase block j q).elim (kmpSearch kmp icase rest (i + j + block.length)) fun k => some (i + k) := by
  induction block generalizing j q with
  | nil => rfl
  | cons c block ih =>
    rw [cons_append, kmpSearch, kmpBlock]
    split
    · rfl
    · rw [Nat.add_assoc i j 1, ih, length_cons, show i + (j + 1) + block.length = i + j + (block.length + 1) by omega]

/-- The position and the `state->offset` for a place behind the pattern, counted from `offset` on. -/
def answer (kmp : TsKmp) (offset : Nat) : Option Nat → Nat × Nat
  | none => (UINT_MAX, offset)
  | some i => (u32 (2 ^ 32 + u32 (offset + i) - kmp.pattern.length), u32 (offset + i))

theorem run_kmpRound (le : offset ≤ consumed) {n : Nat} (enough : src.text.length - consumed < n) :
    Loop.run (kmpRound src kmp icase offset) n (consumed, q) =
      some (answer kmp offset (kmpSearch kmp icase (src.text.drop consumed) (consumed - offset) q)) := by
  induction n generalizing consumed q with
  | zero => cases enough
  | succ n ih =>
    rw [Loop.run, kmpRound]
    by_cases empty : src.block consumed = []
    · have past : src.text.length ≤ consumed := not_lt.mp fun inside => src.nonempty consumed inside empty
      rw [drop_of_length_le past, empty]
      rfl
    have pos := length_pos_iff.mpr empty
    have next := src.next empty
    have fits := src.fits
    have search := @kmpSearch_append kmp icase q (src.block consumed)
      (src.text.drop (consumed + (src.block consumed).length)) (consumed - offset) 0
    rw [Nat.add_zero, ← src.drop_eq] at search
    rw [search, if_neg pos.ne']
    cases kmpBlock kmp icase (src.block consumed) 0 q with
    | inl q =>
      have same : u32 (consumed + (src.block consumed).length) = consumed + (src.block consumed).length :=
        Nat.mod_eq_of_lt (by omega)
      dsimp only [Sum.elim_inl]
      rw [same, ih (by omega) (by omega), Nat.sub_add_comm le]
    | inr i =>
      dsimp only [Sum.elim_inr, answer]
      rw [show offset + (consumed - offset + i) = consumed + i by omega]

theorem kmpFindIn_spec {pattern : List UInt8} (nonempty : pattern ≠ []) (src : Source) (icase : Bool) {fuel : Nat}
    (enough : src.text.length < fuel) (offset : Nat) :
    ∃ r, LeastFrom (pattern.map (fold icase)) (src.text.map (fold icase)) offset r ∧
      kmpFindIn src (kmpInit pattern icase) icase fuel offset =
        some (r.elim (UINT_MAX, offset) fun s => (s, s + pattern.length)) := by
  obtain ⟨le, first⟩ := kmpFind_first nonempty icase (src.text.drop offset)
  have run := @run_kmpRound src (kmpInit pattern icase) icase 0 offset offset le_rfl fuel (by omega)
  rw [Nat.sub_self] at run
  refine ⟨_, leastFrom_of_isFirst (map_drop ▸ first), run.trans (congrArg some ?_)⟩
  cases found : kmpSearch (kmpInit pattern icase) icase (src.text.drop offset) 0 0 with
  | none => rfl
  | some i =>
    have length : (kmpInit pattern icase).pattern.length = pattern.length := length_map _
    have pos := length_pos_iff.mpr nonempty
    have le := le i found
    rw [found] at first
    have inside := first.1.length_le (by simpa using nonempty)
    simp only [length_map, length_drop] at inside
    have fits := src.fits
    dsimp only [answer, Option.map_some, Option.elim_some]
    rw [u32, u32, Prod.mk.injEq]
    omega

end Kmp

/-- `kmp_find` over any blocks returns the least occurrence of the folded pattern from `state->offset` on, and calls
one after the other list occurrences that do not overlap. -/
theorem kmp_find_over_blocks {pattern : List UInt8} (nonempty : pattern ≠ []) (src : Source) (icase : Bool)
    {fuel : Nat}
    (enough : src.text.length < fuel) (offset : Nat) :
    (∃ r, LeastFrom (pattern.map (fold icase)) (src.text.map (fold icase)) offset r ∧
      kmpFindIn src (kmpInit pattern icase) icase fuel offset =
        some (r.elim (UINT_MAX, offset) fun s => (s, s + pattern.length))) ∧
    ∀ n, ∃ l, l.length = n ∧ kmpFindAgain src (kmpInit pattern icase) icase fuel n offset = some l ∧
      Successive (pattern.map (fold icase)) (src.text.map (fold icase)) offset l := by
  refine ⟨kmpFindIn_spec nonempty src icase enough offset, fun n => ?_⟩
  induction n generalizing offset with
  | zero => exact ⟨[], rfl, rfl, .nil offset⟩
  | succ n ih =>
    obtain ⟨r, least, call⟩ := kmpFindIn_spec nonempty src icase enough offset
    cases r with
    | none =>
      obtain ⟨l, length, run, rest⟩ := ih offset
      refine ⟨UINT_MAX :: l, by rw [length_cons, length], ?_, .missing least rest⟩
      simp [kmpFindAgain, call, run]
    | some s =>
      obtain ⟨l, length, run, rest⟩ := ih (s + pattern.length)
      refine ⟨s :: l, by rw [length_cons, length], ?_, .found least (by rwa [length_map])⟩
      simp [kmpFindAgain, call, run]

theorem kmp_find_over_blocks_of_two :
    kmpFindAgain (.cut [97, 97, 98, 65, 98] (by decide) 2 (by decide)) (kmpInit [97, 98] true) true 6 3 0 =
      some [1, 3, UINT_MAX] ∧
    ∃ l, Successive [65, 66] [65, 65, 66, 65, 66] 0 l ∧ l.length = 3 := by
  refine ⟨by decide +kernel, ?_⟩
  obtain ⟨l, length, -, successive⟩ := (@kmp_find_over_blocks [97, 98] (by decide)
    (.cut [97, 97, 98, 65, 98] (by decide) 2 (by decide)) true 6 (by decide) 0).2 3
  exact ⟨l, successive, length⟩

/-- The inner loop of `bm_find`, for at most so many rounds: `shift` at the end of the block, or where the pattern
is found. -/
def bmBlock (bm : TsBm) (icase : Bool) (text : List UInt8) : Nat → Nat → Nat ⊕ Nat
  | 0, shift => .inl shift
  | n + 1, shift =>
    if shift < text.length then
      match mismatch bm icase text shift with
      | none => .inr shift
      | some i =>
        let bs := bm.badShift (text.getD (shift - i) 0)
        bmBlock bm icase text n (maxInt (u32 (2 ^ 32 + shift - i + bs)) (u32 (shift + bm.goodShift i)))
    else .inl shift

/-- The body of the loop of `bm_find` with `consumed` and `shift`, which starts in a block where it was in the
block before. -/
def bmRound (src : Source) (bm : TsBm) (icase : Bool) : Nat × Nat → (Nat × Nat) ⊕ Nat
  | (consumed, shift) =>
    let block := src.block consumed
    if block.length = 0 then .inr UINT_MAX
    else
      match bmBlock bm icase block (block.length + 1) shift with
      | .inl shift => .inl (u32 (consumed + block.length), shift)
      | .inr shift => .inr (u32 (consumed + (shift - (bm.pattern.length - 1))))

/-- `bm_find` with at most so many blocks. -/
def bmFindIn (src : Source) (bm : TsBm) (icase : Bool) (fuel offset : Nat) : Option Nat :=
  Loop.run (bmRound src bm icase) fuel (offset, bm.pattern.length - 1)

def Source.start (src : Source) (offset : Nat) : Nat → Nat
  | 0 => offset
  | k + 1 => src.start offset k + (src.block (src.start offset k)).length

def Source.nth (src : Source) (offset k : Nat) : List UInt8 := src.block (src.start offset k)

def InBlock (src : Source) (p : List UInt8) (offset s : Nat) : Prop :=
  ∃ k r, s = src.start offset k + r ∧ Occurs p (src.nth offset k) r

/-- The `shift` with which the search comes to a block. -/
def Source.entry (src : Source) (bm : TsBm) (offset : Nat) : Nat → Nat
  | 0 => bm.pattern.length - 1
  | k + 1 =>
    let block := src.nth offset k
    (bmBlock bm false block (block.length + 1) (src.entry bm offset k)).elim id id

/-- An occurrence in a block that does not end before the search of the block begins. -/
def Ahead (src : Source) (p : List UInt8) (offset s : Nat) : Prop :=
  ∃ k r, s = src.start offset k + r ∧ Occurs p (src.nth offset k) r ∧
    src.entry (bmInit p false) offset k ≤ r + (p.length - 1)

section Bm

variable {p text : List UInt8} {src : Source} {offset n shift : Nat}

theorem bmBlock_getRight {bm : TsBm} {icase : Bool} :
    (bmBlock bm icase text n shift).getRight? = bmSearch bm icase text n shift := by
  induction n generalizing shift with
  | zero => rfl
  | succ n ih =>
    rw [bmBlock, bmSearch]
    split
    · cases mismatch bm icase text shift with
      | none => rfl
      | some i => exact ih
    · rfl

theorem map_fold_false (l : List UInt8) : l.map (fold false) = l :=
  map_id l

theorem bmInit_false (p : List UInt8) : bmInit p false = tables p false := by rw [bmInit, map_fold_false]

theorem le_of_bmBlock (short : p.length + text.length < 2 ^ 31) (low : p.length - 1 ≤ shift) :
    shift ≤ (bmBlock (bmInit p false) false text n shift).elim id id := by
  rw [bmInit_false]
  induction n generalizing shift with
  | zero => exact le_rfl
  | succ n ih =>
    rw [bmBlock]
    split
    · rename_i inside
      cases found : mismatch (tables p false) false text shift with
      | none => exact le_rfl
      | some i =>
        have round : Round (tables p false) false text shift i _ := ⟨inside, found, rfl⟩
        have later := (round.spec short low).2.2.2.2.le
        exact later.trans (ih (low.trans later))
    · exact le_rfl

theorem start_mono (src : Source) (offset : Nat) : Monotone (src.start offset) :=
  monotone_nat_of_le_succ fun _ => Nat.le_add_right _ _

/-- The search of one block finds the first occurrence that does not end before `shift`. -/
theorem bmBlock_least (nonempty : p ≠ []) (short : p.length + text.length < 2 ^ 31) (low : p.length - 1 ≤ shift) :
    LeastOf (fun s => Occurs p text s ∧ shift ≤ s + (p.length - 1))
      ((bmBlock (bmInit p false) false text (text.length + 1) shift).getRight?.map (· - (p.length - 1))) := by
  have least := @bmSearch_least _ (text.length + 1) _ false text short nonempty low (by omega)
    fun e i next reach round s occurs before => by
      have low' := low.trans (bmSearch_of_reaches (n := text.length + 1) short reach low (by omega)).1
      have := badShift_skips (e := s + (p.length - 1)) (fun unlisted => Bool.false_ne_true unlisted.1) low'
        (round.spec short low').1 (by rwa [Nat.add_sub_cancel]) before
      exact this
  rw [map_fold_false] at least
  rwa [bmBlock_getRight, bmInit_false]

/-- Behind an empty block the text is at its end. -/
theorem not_occurs_of_empty (nonempty : p ≠ []) {j k r : Nat} (empty : src.nth offset k = []) (le : k ≤ j) :
    ¬Occurs p (src.nth offset j) r := by
  intro occurs
  have past := not_lt.mp fun inside => src.nonempty _ inside empty
  have front : src.nth offset j <+: _ := src.front (src.start offset j)
  rw [drop_of_length_le (past.trans (start_mono src offset le))] at front
  rw [prefix_nil.mp front] at occurs
  have inside := occurs.length_le nonempty
  exact nonempty (length_eq_zero_iff.mp (Nat.eq_zero_of_le_zero ((Nat.le_add_left _ r).trans inside)))

theorem run_bmRound (nonempty : p ≠ []) (short : p.length + src.text.length < 2 ^ 31) {k : Nat}
    (enough : src.text.length - src.start offset k < n)
    (low : p.length - 1 ≤ src.entry (bmInit p false) offset k) (before : ∀ j < k, ∀ r, Occurs p (src.nth offset j) r →
      ¬ src.entry (bmInit p false) offset j ≤ r + (p.length - 1)) :
    ∃ r, LeastOf (Ahead src p offset) r ∧ Loop.run (bmRound src (bmInit p false) false) n
      (src.start offset k, src.entry (bmInit p false) offset k) = some (r.getD UINT_MAX) := by
  induction n generalizing k with
  | zero => cases enough
  | succ n ih =>
    have step : src.start offset (k + 1) = src.start offset k + (src.nth offset k).length := rfl
    rw [Loop.run, bmRound]
    simp only [show src.block (src.start offset k) = src.nth offset k from rfl]
    by_cases empty : src.nth offset k = []
    · refine ⟨none, ?_, by rw [empty]; rfl⟩
      rintro s ⟨j, r, -, occurs, ahead⟩
      by_cases earlier : j < k
      · exact before j earlier r occurs ahead
      · exact not_occurs_of_empty nonempty empty (not_lt.mp earlier) occurs
    have pos := length_pos_iff.mpr empty
    have next : _ ∧ src.start offset k + (src.nth offset k).length ≤ _ := src.next empty
    have short' : p.length + (src.nth offset k).length < 2 ^ 31 := by omega
    have least := bmBlock_least nonempty short' low
    rw [if_neg pos.ne']
    cases turn : bmBlock (bmInit p false) false (src.nth offset k) ((src.nth offset k).length + 1)
      (src.entry (bmInit p false) offset k) with
    | inl shift' =>
      have le := le_of_bmBlock (n := (src.nth offset k).length + 1) short' low
      have same : u32 (src.start offset k + (src.nth offset k).length) = src.start offset (k + 1) :=
        u32_eq (by omega)
      have entry : src.entry (bmInit p false) offset (k + 1) = shift' := by
        rw [Source.entry, turn]
        rfl
      rw [turn] at least
      rw [same, ← entry]
      refine ih (by omega) ?_ fun j earlier r occurs ahead => ?_
      · rw [turn] at le
        exact entry ▸ low.trans le
      · rcases Nat.lt_succ_iff_lt_or_eq.mp earlier with earlier | rfl
        · exact before j earlier r occurs ahead
        · exact least r ⟨occurs, ahead⟩
    | inr s =>
      rw [turn] at least
      have inside : s - (p.length - 1) + p.length ≤ _ := least.1.1.length_le nonempty
      refine ⟨some (src.start offset k + (s - (p.length - 1))), ⟨⟨k, _, rfl, least.1⟩, ?_⟩, ?_⟩
      · rintro s' less ⟨j, r, rfl, occurs, ahead⟩
        rcases Nat.lt_trichotomy j k with earlier | rfl | later
        · exact before j earlier r occurs ahead
        · exact least.2 r (Nat.add_lt_add_iff_left.mp less) ⟨occurs, ahead⟩
        · have le : src.start offset (k + 1) ≤ src.start offset j := start_mono src offset later
          omega
      · have length : (bmInit p false).pattern.length = p.length := length_map _
        dsimp only [Option.getD_some]
        rw [length, u32_eq (by omega)]

end Bm

theorem LeastOf.unique {P : Nat → Prop} {r r' : Option Nat} (h : LeastOf P r) (h' : LeastOf P r') : r = r' := by
  match r, r' with
  | none, none => rfl
  | none, some s => exact absurd h'.1 (h s)
  | some s, none => exact absurd h.1 (h' s)
  | some s, some s' =>
    have := mt (h.2 s') (not_not.mpr h'.1)
    have := mt (h'.2 s) (not_not.mpr h.1)
    rw [show s = s' by omega]

theorem exists_leastOf (P : Nat → Prop) : ∃ r, LeastOf P r := by
  classical
  by_cases some_ : ∃ s, P s
  · exact ⟨some (Nat.find some_), Nat.find_spec some_, fun _ => Nat.find_min some_⟩
  · exact ⟨none, fun s hs => some_ ⟨s, hs⟩⟩

def inTwos (text : List UInt8) (fits : text.length < 2 ^ 32) : Source := .cut text fits 2 (by decide)

end TextSearch
