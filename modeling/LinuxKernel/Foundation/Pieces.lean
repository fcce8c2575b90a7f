/- Pieces of a text at offsets: chains of disjoint pieces, and chains without a hole. -/
import Mathlib.Data.List.TakeDrop
import Mathlib.Algebra.Order.Ring.Nat

namespace Pieces

variable {α : Type*}

structure Piece (α : Type*) where
  offset : Nat
  data : List α

namespace Piece

def stop (f : Piece α) : Nat := f.offset + f.data.length

def pull (f : Piece α) (i : Nat) : Piece α := ⟨f.offset + i, f.data.drop i⟩

def Of (t : List α) (f : Piece α) : Prop := f.data = (t.drop f.offset).take f.data.length

theorem stop_pull {f : Piece α} {i : Nat} (le : i ≤ f.data.length) : (f.pull i).stop = f.stop := by
  simp only [stop, pull, List.length_drop]
  omega

theorem Of.pull {t : List α} {f : Piece α} (h : f.Of t) (i : Nat) : (f.pull i).Of t := by
  change f.data.drop i = (t.drop (f.offset + i)).take (f.data.drop i).length
  conv_lhs => rw [h]
  rw [List.drop_take, List.drop_drop, List.length_drop]

end Piece

/-- Each piece ends before the ones behind it start. -/
def Chain (l : List (Piece α)) : Prop := l.Pairwise fun f g => f.stop ≤ g.offset

def total (l : List (Piece α)) : Nat := (l.map fun f => f.data.length).sum

@[simp] theorem total_cons (f : Piece α) (l : List (Piece α)) : total (f :: l) = f.data.length + total l := rfl

@[simp] theorem total_append (l l' : List (Piece α)) : total (l ++ l') = total l + total l' := by
  simp [total]

def glue (l : List (Piece α)) : List α := l.flatMap Piece.data

theorem length_glue (l : List (Piece α)) : (glue l).length = total l := by
  rw [glue, List.length_flatMap, total]

section Cover

variable {t : List α} {b L : Nat}

theorem Chain.total_le {l : List (Piece α)} (chain : Chain l) (low : ∀ f ∈ l, b ≤ f.offset)
    (high : ∀ f ∈ l, f.stop ≤ L) : total l ≤ L - b := by
  induction l generalizing b with
  | nil => exact Nat.zero_le _
  | cons f l ih =>
    rw [Chain, List.pairwise_cons] at chain
    have rest := ih chain.2 chain.1 fun g member => high g (.tail f member)
    have first := low f (.head l)
    have last := high f (.head l)
    rw [Piece.stop] at rest last
    rw [total_cons]
    omega

theorem Chain.glue_eq {l : List (Piece α)} (chain : Chain l) (low : ∀ f ∈ l, b ≤ f.offset)
    (high : ∀ f ∈ l, f.stop ≤ L) (pieces : ∀ f ∈ l, f.Of t) (full : total l = L - b) :
    glue l = (t.drop b).take (L - b) := by
  induction l generalizing b with
  | nil =>
    rw [← full]
    rfl
  | cons f l ih =>
    rw [Chain, List.pairwise_cons] at chain
    have high' := fun g member => high g (.tail f member)
    have rest := Chain.total_le chain.2 chain.1 high'
    have first := low f (.head l)
    have last := high f (.head l)
    rw [total_cons] at full
    have start : f.offset = b := by
      rw [Piece.stop] at rest last
      omega
    have left : total l = L - f.stop := by
      rw [Piece.stop] at rest last ⊢
      omega
    have data : f.data = (t.drop b).take f.data.length := start ▸ pieces f (.head l)
    have behind : f.stop = b + f.data.length := by rw [Piece.stop, start]
    have size : L - b = f.data.length + (L - f.stop) := by omega
    change f.data ++ glue l = _
    rw [ih chain.2 chain.1 high' (fun g member => pieces g (.tail f member)) left, size, List.take_add, ← data,
      List.drop_drop, behind]

end Cover

end Pieces
