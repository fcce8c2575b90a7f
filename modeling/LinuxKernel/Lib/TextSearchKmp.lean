/- The automaton of the Knuth-Morris-Pratt search is in the longest prefix of the pattern that ends the text. -/
import LinuxKernel.Foundation.Matching
import LinuxKernel.Lib.TextSearch

namespace TextSearch

open Matching List

variable {pattern u : List UInt8} {tbl : Nat → Nat} {c : UInt8}

/-- The table has the longest proper borders of the first prefixes. -/
def Borders (pattern : List UInt8) (tbl : Nat → Nat) (n : Nat) : Prop :=
  ∀ q, 0 < q → q ≤ n → Longest pattern (pattern.take q).tail (tbl (q - 1))

/-- No prefix longer than `q` can go on with the character. -/
structure Candidate (pattern u : List UInt8) (c : UInt8) (q : Nat) : Prop where
  lt : q < pattern.length
  suffix : pattern.take q <:+ u
  longer : ∀ k < pattern.length, pattern.take k <:+ u → pattern.getD k 0 = c → k ≤ q

theorem Borders.lt {n q : Nat} (h : Borders pattern tbl n) (pos : 0 < q) (le : q ≤ n) (len : q ≤ pattern.length) :
    tbl (q - 1) < q := by
  have suffix := (h q pos le).suffix.length_le
  rw [length_take, length_tail, length_take] at suffix
  omega

theorem Candidate.fall {n q : Nat} (borders : Borders pattern tbl n) (le : q ≤ n) (h : Candidate pattern u c q)
    (pos : 0 < q) (other : pattern.getD q 0 ≠ c) : Candidate pattern u c (tbl (q - 1)) := by
  have border := borders q pos le
  refine ⟨(borders.lt pos le h.lt.le).trans h.lt, ?_, ?_⟩
  · exact (border.suffix.trans (tail_suffix _)).trans h.suffix
  · intro k len suffix eq
    have le := h.longer k len suffix eq
    have ne : k ≠ q := by
      rintro rfl
      exact other eq
    exact border.longest k len.le (take_suffix_tail (by omega) h.lt.le suffix h.suffix)

theorem fallBack_candidate {n m q : Nat} (borders : Borders pattern tbl n) (le : q ≤ n) (fuel : q ≤ m)
    (h : Candidate pattern u c q) : Candidate pattern u c (fallBack pattern tbl c m q) ∧
      (fallBack pattern tbl c m q = 0 ∨ pattern.getD (fallBack pattern tbl c m q) 0 = c) := by
  induction m generalizing q with
  | zero => exact ⟨h, .inl (Nat.le_zero.mp fuel)⟩
  | succ m ih =>
    rw [fallBack]
    split
    · rename_i again
      have shorter := borders.lt again.1 le h.lt.le
      exact ih (by omega) (by omega) (h.fall borders le again.1 again.2)
    rename_i stop
    refine ⟨h, ?_⟩
    by_cases zero : q = 0
    · exact .inl zero
    · exact .inr (not_not.mp fun other => stop ⟨by omega, other⟩)

theorem getD_eq_iff {k : Nat} (lt : k < pattern.length) : pattern.getD k 0 = c ↔ pattern[k]? = some c := by
  rw [getD_eq_getElem?_getD, List.getElem?_eq_getElem lt, Option.getD_some, Option.some.injEq]

theorem advance_longest {n q : Nat} (borders : Borders pattern tbl n) (le : q ≤ n) (lt : q < pattern.length)
    (h : Longest pattern u q) : Longest pattern (u ++ [c]) (advance pattern tbl q c) := by
  have first : Candidate pattern u c q := ⟨lt, h.suffix, fun k len suffix _ => h.longest k len.le suffix⟩
  obtain ⟨candidate, stop⟩ := fallBack_candidate borders le le_rfl first
  rw [advance]
  generalize fallBack pattern tbl c q q = q' at *
  -- a prefix that ends the longer text goes on with the character
  have bound : ∀ k ≤ pattern.length, pattern.take k <:+ u ++ [c] → k = 0 ∨ k ≤ q' + 1 ∧
      pattern.getD (k - 1) 0 = c := by
    intro k len suffix
    cases k with
    | zero => exact .inl rfl
    | succ k =>
      obtain ⟨suffix, get⟩ := (take_succ_suffix len).mp suffix
      have eq := (getD_eq_iff len).mpr get
      exact .inr ⟨Nat.succ_le_succ (candidate.longer k len suffix eq), eq⟩
  split
  · rename_i eq
    refine ⟨candidate.lt, ?_, ?_⟩
    · exact (take_succ_suffix candidate.lt).mpr ⟨candidate.suffix, (getD_eq_iff candidate.lt).mp eq⟩
    · intro k len suffix
      rcases bound k len suffix with rfl | ⟨le, -⟩
      · exact Nat.zero_le _
      · exact le
  · rename_i other
    have zero := stop.resolve_right other
    subst zero
    refine ⟨Nat.zero_le _, by simp, ?_⟩
    intro k len suffix
    rcases bound k len suffix with rfl | ⟨le, eq⟩
    · exact le_rfl
    · by_contra pos
      rw [show k - 1 = 0 by omega] at eq
      exact other eq

theorem prefixTblLoop_borders {n : Nat} (lt : n < pattern.length) :
    Longest pattern (pattern.take (n + 1)).tail (prefixTblLoop pattern n).1 ∧
      Borders pattern (prefixTblLoop pattern n).2 (n + 1) := by
  induction n with
  | zero =>
    have empty : (pattern.take 1).tail = [] := by
      cases pattern <;> rfl
    refine ⟨empty ▸ longest_nil pattern, ?_⟩
    intro q pos le
    rw [show q = 1 by omega, empty]
    exact longest_nil pattern
  | succ n ih =>
    obtain ⟨longest, borders⟩ := ih (by omega)
    have short := longest.suffix.length_le
    rw [length_take, length_tail, length_take] at short
    have next : (pattern.take (n + 2)).tail = (pattern.take (n + 1)).tail ++ [pattern.getD (n + 1) 0] := by
      have get := (getD_eq_iff lt).mp rfl
      rw [take_add_one, get, tail_append_of_ne_nil, Option.toList_some]
      exact ne_nil_of_length_pos (by rw [length_take]; omega)
    have longest' := advance_longest (c := pattern.getD (n + 1) 0) borders (by omega) (by omega) longest
    rw [← next] at longest'
    refine ⟨longest', ?_⟩
    intro q pos le
    by_cases last : q = n + 2
    · subst last
      simpa [prefixTblLoop] using longest'
    · have old := borders q pos (by omega)
      have other : q - 1 ≠ n + 1 := by omega
      simpa [prefixTblLoop, Function.update_of_ne other] using old

variable {text done : List UInt8}

/-- The search goes on behind `done`, in which the pattern does not end. -/
theorem kmpSearch_first {kmp : TsKmp} {icase : Bool} {q : Nat}
    (borders : Borders kmp.pattern kmp.prefixTbl kmp.pattern.length) (lt : q < kmp.pattern.length)
    (longest : Longest kmp.pattern done q)
    (none_before : ∀ s, Occurs kmp.pattern (done ++ text.map (fold icase)) s → done.length < s + kmp.pattern.length) :
    (∀ i, kmpSearch kmp icase text done.length q = some i → kmp.pattern.length ≤ i) ∧
      IsFirst kmp.pattern (done ++ text.map (fold icase))
        ((kmpSearch kmp icase text done.length q).map (· - kmp.pattern.length)) := by
  have nonempty : kmp.pattern ≠ [] := ne_nil_of_length_pos (by omega)
  induction text generalizing done q with
  | nil =>
    refine ⟨nofun, fun s occurs => ?_⟩
    have le := occurs.length_le nonempty
    have := none_before s occurs
    simp only [map_nil, append_nil] at le
    omega
  | cons c text ih =>
    have longest' := advance_longest (c := fold icase c) borders lt.le lt longest
    have whole : done ++ (c :: text).map (fold icase) = (done ++ [fold icase c]) ++ text.map (fold icase) := by simp
    have length : (done ++ [fold icase c]).length = done.length + 1 := by simp
    -- where the pattern ends with this character
    have ends : ∀ s, s + kmp.pattern.length = done.length + 1 →
        (Occurs kmp.pattern (done ++ (c :: text).map (fold icase)) s ↔ kmp.pattern <:+ done ++ [fold icase c]) := by
      intro s eq
      rw [whole, occurs_iff_suffix (by rw [length_append]; omega), eq, take_left' length]
    rw [kmpSearch]
    split
    · rename_i full
      have suffix := longest'.suffix
      rw [full, take_length] at suffix
      have le := suffix.length_le
      rw [length] at le
      refine ⟨fun i eq => Option.some.inj eq ▸ le, (ends _ (Nat.sub_add_cancel le)).mpr suffix, ?_⟩
      intro s (before : s < done.length + 1 - kmp.pattern.length) occurs
      have := none_before s occurs
      omega
    · rename_i more
      rw [whole, ← length]
      rw [whole] at none_before ends
      apply ih (Nat.lt_of_le_of_ne longest'.le more) longest'
      intro s occurs
      have after := none_before s occurs
      by_contra here
      have suffix := (ends s (by omega)).mp occurs
      have le := longest'.longest _ le_rfl (by rw [take_length]; exact suffix)
      exact more (le_antisymm longest'.le le)

theorem kmpInit_borders {pattern : List UInt8} (nonempty : pattern ≠ []) (icase : Bool) :
    Borders (kmpInit pattern icase).pattern (kmpInit pattern icase).prefixTbl
      (kmpInit pattern icase).pattern.length := by
  have pos : 0 < (kmpInit pattern icase).pattern.length := by
    rw [kmpInit, length_map]
    exact length_pos_iff.mpr nonempty
  have borders : Borders (kmpInit pattern icase).pattern (kmpInit pattern icase).prefixTbl
      ((kmpInit pattern icase).pattern.length - 1 + 1) :=
    (prefixTblLoop_borders (Nat.sub_lt pos Nat.one_pos)).2
  rw [Nat.sub_add_cancel pos] at borders
  exact borders

theorem kmpFind_first {pattern : List UInt8} (nonempty : pattern ≠ []) (icase : Bool) (text : List UInt8) :
    (∀ i, kmpSearch (kmpInit pattern icase) icase text 0 0 = some i → pattern.length ≤ i) ∧
      IsFirst (pattern.map (fold icase)) (text.map (fold icase))
        ((kmpSearch (kmpInit pattern icase) icase text 0 0).map (· - pattern.length)) := by
  have pos : 0 < pattern.length := length_pos_iff.mpr nonempty
  have length : (kmpInit pattern icase).pattern.length = pattern.length := length_map _
  have first : _ ∧ IsFirst _ ([] ++ text.map (fold icase)) _ :=
    kmpSearch_first (kmpInit_borders nonempty icase) (by omega) (longest_nil _) fun s _ => by
      rw [length_nil]
      omega
  rw [length] at first
  exact first

end TextSearch
