/- Creating an LRU cache: what is freed when an object cannot be allocated. -/
import Mathlib.Algebra.Group.Nat.Defs
import Mathlib.Data.List.Perm.Basic
import Mathlib.Tactic.SplitIfs

namespace LruCache

open List

/-- Memory by where it came from. What is read beyond the elements that were stored is no such memory. -/
inductive Block where
  | slot
  | element
  | lc
  | object (i : Nat)
  | wild (i : Nat)
  deriving DecidableEq, Repr

/-- The sizes and the count that `lc_create` is called with, and which of its allocations succeed. -/
structure Call where
  cacheObjSize : Nat
  eSize : Nat
  eCount : Nat
  slot : Bool
  element : Bool
  lc : Bool
  object : Nat → Bool

/-- Whether NULL is returned, the indices at which `element` is used, and what is freed. -/
structure Outcome where
  isNull : Bool
  touched : List Nat
  freed : List Block
  deriving DecidableEq, Repr

def LC_MAX_ACTIVE : Nat := 2 ^ 24

/-- `i--` of an `unsigned`. -/
def decr (i : Nat) : Nat := (i + (2 ^ 32 - 1)) % 2 ^ 32

/-- The values of `i` in the body of `for (; i; i--)`. -/
def downFrom : Nat → List Nat
  | 0 => []
  | i + 1 => (i + 1) :: downFrom i

/-- Where the loop that allocates the objects ends. -/
def prealloc (c : Call) : Nat := (range c.eCount).findIdx fun i => !c.object i

/-- `element[i]` once `n` objects are stored. -/
def elementAt (n i : Nat) : Block := if i < n then .object i else .wild i

def lcCreate (c : Call) : Outcome :=
  if c.cacheObjSize < c.eSize then ⟨true, [], []⟩
  else if LC_MAX_ACTIVE < c.eCount then ⟨true, [], []⟩
  else if !c.slot then ⟨true, [], []⟩
  else if !c.element then ⟨true, [], [.slot]⟩
  else if !c.lc then ⟨true, [], [.element, .slot]⟩
  else
    let i := prealloc c
    if i = c.eCount then ⟨false, range i, []⟩
    else
      let given := downFrom (decr i)
      ⟨true, range i ++ given, given.map (elementAt i) ++ [.lc, .element, .slot]⟩

/-- All that was allocated before the object `k` is freed once, and no other index is used. -/
def Unwound (k : Nat) (o : Outcome) : Prop :=
  o.isNull ∧ o.freed.Perm (.slot :: .element :: .lc :: (range k).map .object) ∧ ∀ i ∈ o.touched, i < k

instance (k : Nat) (o : Outcome) : Decidable (Unwound k o) := inferInstanceAs (Decidable (_ ∧ _))

/-- The second of two objects cannot be allocated, and the first one is not freed. -/
theorem lc_create_leaks_first :
    ¬Unwound 1 (lcCreate ⟨64, 64, 2, true, true, true, fun i => i == 0⟩) := by
  decide

theorem mem_downFrom {i j : Nat} : i ∈ downFrom j ↔ 0 < i ∧ i ≤ j := by
  induction j with
  | zero =>
    rw [downFrom, iff_false_left not_mem_nil]
    omega
  | succ j ih =>
    rw [downFrom, mem_cons, ih]
    omega

variable {c : Call} {k : Nat}

theorem prealloc_eq (lt : k < c.eCount) (before : ∀ j < k, c.object j = true) (fails : c.object k = false) :
    prealloc c = k := by
  refine (findIdx_eq (by rwa [length_range])).mpr ⟨by simp [fails], fun j less => ?_⟩
  simp [before j less]

/-- Wherever the first allocation of an object fails, the unwinding misses the object 0 or, if there is none to free,
starts at the index `UINT_MAX`. -/
theorem lc_create_never_unwinds (size : c.eSize ≤ c.cacheObjSize) (count : c.eCount ≤ LC_MAX_ACTIVE)
    (blocks : c.slot = true ∧ c.element = true ∧ c.lc = true) (lt : k < c.eCount)
    (before : ∀ j < k, c.object j = true) (fails : c.object k = false) : ¬Unwound k (lcCreate c) := by
  have outcome : lcCreate c = ⟨true, range k ++ downFrom (decr k),
      (downFrom (decr k)).map (elementAt k) ++ [.lc, .element, .slot]⟩ := by
    simp [lcCreate, prealloc_eq lt before fails, Nat.not_lt.mpr size, Nat.not_lt.mpr count, blocks, Nat.ne_of_lt lt]
  rw [outcome]
  rintro ⟨-, freed, touched⟩
  rcases Nat.eq_zero_or_pos k with rfl | pos
  · exact Nat.not_lt_zero _ (touched (decr 0) (mem_append_right _ (mem_downFrom.mpr (by decide))))
  · have first : Block.object 0 ∈ (downFrom (decr k)).map (elementAt k) ++ [.lc, .element, .slot] :=
      freed.mem_iff.mpr (by simp [pos])
    simp only [mem_append, mem_map, mem_downFrom, mem_cons, not_mem_nil, reduceCtorEq, or_false] at first
    obtain ⟨i, ⟨positive, -⟩, eq⟩ := first
    unfold elementAt at eq
    split_ifs at eq
    cases eq
    exact absurd positive (Nat.lt_irrefl 0)

theorem lc_create_never_unwinds_third :
    ¬Unwound 2 (lcCreate ⟨64, 32, 5, true, true, true, fun i => i == 0 || i == 1⟩) :=
  lc_create_never_unwinds (by decide) (by decide) (by decide) (by decide) (by decide) rfl

end LruCache
