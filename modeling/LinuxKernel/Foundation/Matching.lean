/- Occurrences of a pattern in a text, and the longest prefix of a pattern that ends a text. -/
import Mathlib.Data.List.Infix

namespace Matching

open List

variable {α : Type*} {p t u : List α} {c : α}

/-- The pattern is in the text from `s` on. -/
def Occurs (p t : List α) (s : Nat) : Prop := p <+: t.drop s

/-- The first occurrence, or none. -/
def IsFirst (p t : List α) : Option Nat → Prop
  | some s => Occurs p t s ∧ ∀ s' < s, ¬ Occurs p t s'
  | none => ∀ s, ¬ Occurs p t s

theorem IsFirst.unique {r r' : Option Nat} (h : IsFirst p t r) (h' : IsFirst p t r') : r = r' := by
  cases r with
  | none =>
    cases r' with
    | none => rfl
    | some s => exact absurd h'.1 (h s)
  | some s =>
    cases r' with
    | none => exact absurd h.1 (h' s)
    | some s' =>
      have le : ¬ s < s' := fun lt => h'.2 s lt h.1
      have ge : ¬ s' < s := fun lt => h.2 s' lt h'.1
      rw [show s = s' by omega]

theorem occurs_iff {s : Nat} : Occurs p t s ↔ ∀ k < p.length, t[s + k]? = p[k]? := by
  rw [Occurs, prefix_iff_getElem?]
  simp only [List.getElem?_drop]
  constructor
  all_goals
    intro h k lt
    rw [h k lt, List.getElem?_eq_getElem lt]

theorem Occurs.length_le {s : Nat} (h : Occurs p t s) (nonempty : p ≠ []) : s + p.length ≤ t.length := by
  have le := List.IsPrefix.length_le h
  have pos := length_pos_iff.mpr nonempty
  rw [length_drop] at le
  omega

theorem occurs_iff_suffix {s : Nat} (le : s + p.length ≤ t.length) : Occurs p t s ↔ p <:+ t.take (s + p.length) := by
  rw [Occurs, prefix_iff_eq_take, suffix_iff_eq_drop, length_take, min_eq_left le,
    Nat.add_sub_cancel, drop_take, Nat.add_sub_cancel_left]

/-- The longest prefix of the pattern that is a suffix of the text. -/
structure Longest (p u : List α) (q : Nat) : Prop where
  le : q ≤ p.length
  suffix : p.take q <:+ u
  longest : ∀ k ≤ p.length, p.take k <:+ u → k ≤ q

theorem longest_nil (p : List α) : Longest p [] 0 := by
  refine ⟨Nat.zero_le _, by simp, fun k le suffix => ?_⟩
  have := suffix.length_le
  simp only [length_take, length_nil] at this
  omega

theorem concat_suffix_concat {l : List α} {a : α} : l ++ [a] <:+ u ++ [c] ↔ l <:+ u ∧ a = c := by
  rw [← reverse_prefix]
  simp [and_comm]

theorem take_succ_suffix {k : Nat} (lt : k < p.length) :
    p.take (k + 1) <:+ u ++ [c] ↔ p.take k <:+ u ∧ p[k]? = some c := by
  rw [take_succ_eq_append_getElem lt, concat_suffix_concat, List.getElem?_eq_getElem lt, Option.some.injEq]

theorem suffix_tail {l : List α} (h : l <:+ u) (lt : l.length < u.length) : l <:+ u.tail := by
  cases u with
  | nil => exact h
  | cons a u =>
    rcases suffix_cons_iff.mp h with rfl | h
    · exact absurd lt (Nat.lt_irrefl _)
    · exact h

theorem take_suffix_tail {k q : Nat} (lt : k < q) (le : q ≤ p.length) (hk : p.take k <:+ u)
    (hq : p.take q <:+ u) : p.take k <:+ (p.take q).tail := by
  have len : (p.take k).length < (p.take q).length := by
    rw [length_take, length_take]
    omega
  exact suffix_tail (suffix_of_suffix_length_le hk hq len.le) len

end Matching
