/- Output that counts on past the end of its buffer: the buffer holds the start of the whole output. -/
import Mathlib.Logic.Function.Basic
import Mathlib.Data.Nat.Notation
import Mathlib.Data.List.GetD

namespace Emit

open Function List

variable {α σ τ : Type*}

/-- Where output goes: one item at a time, or a run of them at once. -/
structure Sink (α σ : Type*) where
  put : α → σ → σ
  copy : List α → σ → σ

def Sink.puts (sink : Sink α σ) (items : List α) (s : σ) : σ := items.foldl (fun s c => sink.put c s) s

def Sink.pad (sink : Sink α σ) (c : α) (n : ℕ) (s : σ) : σ := sink.puts (replicate n c) s

/-- A place in a memory, which may lie past the end of the buffer there. -/
structure Cursor (α : Type*) where
  mem : ℕ → α
  pos : ℕ

def write (mem : ℕ → α) (pos : ℕ) (items : List α) : ℕ → α :=
  fun i => if pos ≤ i then items.getD (i - pos) (mem i) else mem i

/-- Output into the first `limit` places of the memory. -/
def bounded (limit : ℕ) : Sink α (Cursor α) where
  put c k := { mem := if k.pos < limit then update k.mem k.pos c else k.mem, pos := k.pos + 1 }
  copy items k :=
    { mem := if k.pos < limit then write k.mem k.pos (items.take (limit - k.pos)) else k.mem
      pos := k.pos + items.length }

def whole : Sink α (List α) where
  put c out := out ++ [c]
  copy items out := out ++ items

theorem rel_ite {R : σ → τ → Prop} (p : Prop) [Decidable p] {s s' : σ} {t t' : τ} (h : R s t) (h' : R s' t') :
    R (if p then s else s') (if p then t else t') := by
  split
  · exact h
  · exact h'

/-- What the operations of two sinks keep between their states. -/
structure Related (R : σ → τ → Prop) (a : Sink α σ) (b : Sink α τ) : Prop where
  put : ∀ c s t, R s t → R (a.put c s) (b.put c t)
  copy : ∀ items s t, R s t → R (a.copy items s) (b.copy items t)

namespace Related

variable {R : σ → τ → Prop} {a : Sink α σ} {b : Sink α τ} (related : Related R a b) {s : σ} {t : τ}

include related

theorem puts (items : List α) (h : R s t) : R (a.puts items s) (b.puts items t) := by
  induction items generalizing s t with
  | nil => exact h
  | cons c items ih => exact ih (related.put c s t h)

theorem put_if (p : Prop) [Decidable p] (c : α) (h : R s t) :
    R (if p then a.put c s else s) (if p then b.put c t else t) := rel_ite p (related.put c s t h) h

theorem pad (c : α) (n : ℕ) (h : R s t) : R (a.pad c n s) (b.pad c n t) := related.puts _ h

end Related

/-- The buffer has the start of the output, the rest of the memory is as it was. -/
structure Shows (mem : ℕ → α) (limit : ℕ) (k : Cursor α) (out : List α) : Prop where
  pos : k.pos = out.length
  mem : ∀ i, k.mem i = if i < limit then out.getD i (mem i) else mem i

theorem getD_concat (out : List α) (c d : α) (i : ℕ) :
    (out ++ [c]).getD i d = if i = out.length then c else out.getD i d := by
  rcases Nat.lt_trichotomy i out.length with less | rfl | more
  · rw [getD_append _ _ _ _ less, if_neg (Nat.ne_of_lt less)]
  · simp
  · have out' : (out ++ [c]).length ≤ i := by rw [length_append]; exact more
    rw [getD_eq_default _ _ out', if_neg (Nat.ne_of_gt more), getD_eq_default _ _ (Nat.le_of_lt more)]

theorem getD_append_take (out items : List α) (d : α) {i limit : ℕ} (h : i < limit) : (out ++ items).getD i d =
      if out.length ≤ i then (items.take (limit - out.length)).getD (i - out.length) d else out.getD i d := by
  split
  · next le =>
      rw [getD_append_right _ _ _ _ le]
      simp only [getD_eq_getElem?_getD]
      rw [getElem?_take_of_lt (by omega)]
  · next less => exact getD_append _ _ _ _ (by omega)

theorem bounded_whole (mem : ℕ → α) (limit : ℕ) : Related (Shows mem limit) (bounded limit) whole where
  put c k out h := by
    refine ⟨by simp [bounded, whole, h.pos], fun i => ?_⟩
    simp only [bounded, whole, getD_concat, h.pos]
    by_cases room : out.length < limit
    · rw [if_pos room]
      by_cases here : i = out.length
      · rw [here, update_self, if_pos room, if_pos rfl]
      · rw [update_of_ne here, h.mem i, if_neg here]
    · rw [if_neg room, h.mem i]
      by_cases inside : i < limit
      · rw [if_pos inside, if_pos inside, if_neg (by omega)]
      · rw [if_neg inside, if_neg inside]
  copy items k out h := by
    refine ⟨by simp [bounded, whole, h.pos], fun i => ?_⟩
    simp only [bounded, whole, h.pos]
    by_cases inside : i < limit
    · rw [if_pos inside, getD_append_take out items (mem i) inside]
      by_cases room : out.length < limit
      · rw [if_pos room, write, h.mem i, if_pos inside]
        by_cases le : out.length ≤ i
        · rw [if_pos le, if_pos le, getD_eq_default out _ le]
        · rw [if_neg le, if_neg le]
      · rw [if_neg room, h.mem i, if_pos inside, if_neg (by omega)]
    · rw [if_neg inside]
      by_cases room : out.length < limit
      · have past : (items.take (limit - out.length)).length ≤ i - out.length := by
          rw [length_take]
          omega
        rw [if_pos room, write, getD_eq_default _ _ past, h.mem i, if_neg inside, ite_self]
      · rw [if_neg room, h.mem i, if_neg inside]

end Emit
