/- `try_atomic_semop`: it performs its operations in order or leaves the array as it was. -/
import Mathlib.Data.List.Perm.Basic
import Mathlib.Data.BitVec
import LinuxKernel.Ipc.Sem

namespace Sem

open Function

variable {τ υ : Type} [DecidableEq υ] {adj : Nat → BitVec 16} {semval : Nat → Int}
  {done sops : List Sembuf}

def InRange (semval : Nat → Int) : Prop := ∀ i, 0 ≤ semval i ∧ semval i ≤ SEMVMX

def add (semval : Nat → Int) (sop : Sembuf) : Nat → Int :=
  update semval sop.semNum (semval sop.semNum + sop.semOp)

theorem wouldBlock_cases (sop : Sembuf) : wouldBlock sop = 1 ∨ wouldBlock sop = -EAGAIN := by
  unfold wouldBlock
  split_ifs
  · exact .inr rfl
  · exact .inl rfl

theorem wouldBlock_ne_zero (sop : Sembuf) : wouldBlock sop ≠ 0 := by
  rcases wouldBlock_cases sop with eq | eq <;> simp [eq, EAGAIN]

/-- What the loop can do with an operation: stop, or go on with a value in range. -/
theorem performOps_cons (sop : Sembuf) : (∃ result, result ≠ 0 ∧ (0 < result → result = 1) ∧
      performOps adj semval done (sop :: sops) = (semval, done, result)) ∨
    (0 ≤ add semval sop sop.semNum ∧ add semval sop sop.semNum ≤ SEMVMX ∧
      performOps adj semval done (sop :: sops) = performOps adj (add semval sop) (sop :: done) sops) := by
  have block : wouldBlock sop ≠ 0 ∧ (0 < wouldBlock sop → wouldBlock sop = 1) := by
    rcases wouldBlock_cases sop with eq | eq <;> simp [eq, EAGAIN]
  have range : -ERANGE ≠ 0 ∧ (0 < -ERANGE → -ERANGE = 1) := by simp [ERANGE]
  simp only [performOps, add, update_self]
  split_ifs with zero low high undo
  · exact .inl ⟨_, block.1, block.2, rfl⟩
  · exact .inl ⟨_, block.1, block.2, rfl⟩
  · exact .inl ⟨_, range.1, range.2, rfl⟩
  · exact .inl ⟨_, range.1, range.2, rfl⟩
  · exact .inr ⟨by omega, by omega, rfl⟩

theorem performOps_spec : let r := performOps adj semval done sops
    (0 < r.2.2 → r.2.2 = 1) ∧ r.2.1.foldl takeBack r.1 = done.foldl takeBack semval ∧
      (r.2.2 = 0 → r = (sops.foldl add semval, sops.reverse ++ done, 0)) ∧ (InRange semval → InRange r.1) := by
  induction sops generalizing semval done with
  | nil => exact ⟨by simp [performOps], rfl, fun _ => rfl, id⟩
  | cons sop sops ih =>
    rcases performOps_cons sop with ⟨result, ne, one, eq⟩ | ⟨low, high, eq⟩ <;> rw [eq]
    · exact ⟨one, rfl, fun zero => absurd zero ne, id⟩
    obtain ⟨one, back, zero, keeps⟩ := @ih (add semval sop) (sop :: done)
    refine ⟨one, back.trans (by simp [takeBack, add]), fun h => (zero h).trans (by simp),
      fun range => keeps fun i => ?_⟩
    by_cases here : i = sop.semNum
    · rw [here]
      exact ⟨low, high⟩
    · rw [add, update_of_ne here]
      exact range i

theorem performOps_congr {adj' : Nat → BitVec 16} {semval' : Nat → Int} {done' : List Sembuf}
    (same : ∀ sop ∈ sops, semval' sop.semNum = semval sop.semNum ∧ adj' sop.semNum = adj sop.semNum) :
    (performOps adj' semval' done' sops).2.2 = (performOps adj semval done sops).2.2 := by
  induction sops generalizing semval semval' done done' with
  | nil => rfl
  | cons sop sops ih =>
    obtain ⟨value, adjustment⟩ := same sop (by simp)
    simp only [performOps, value, adjustment]
    split_ifs
    · rfl
    · rfl
    · rfl
    · rfl
    apply ih
    intro x hx
    obtain ⟨old, oldAdj⟩ := same x (by simp [hx])
    refine ⟨?_, oldAdj⟩
    by_cases here : x.semNum = sop.semNum
    · rw [here, update_self, update_self]
    · rw [update_of_ne here, update_of_ne here, old]

section Try

variable {s : SemArray τ υ} {un : Option υ} {pid : Int}

/-- The effect of one operation; the adjustment is a `short` and wraps. -/
def perform (un : Option υ) (pid : Int) (s : SemArray τ υ) (sop : Sembuf) : SemArray τ υ :=
  { s with
    semval := update s.semval sop.semNum (s.semval sop.semNum + sop.semOp)
    sempid := update s.sempid sop.semNum pid
    semadj := fun u =>
      if un = some u ∧ sop.semUndo then
        (s.semadj u).map fun adj => update adj sop.semNum (adj sop.semNum - BitVec.ofInt 16 sop.semOp)
      else s.semadj u }

theorem perform_eq (un : Option υ) (pid : Int) (s : SemArray τ υ) (sop : Sembuf) :
    perform un pid s sop = stamp un pid { s with semval := add s.semval sop } sop := by
  unfold perform stamp
  congr 1
  funext v
  cases un with
  | none => simp
  | some u =>
    by_cases same : v = u
    · subst same
      by_cases undo : sop.semUndo = true <;> simp [undo]
    · by_cases undo : sop.semUndo = true <;> simp [undo, same, Ne.symm same]

theorem update_sub_comm (f : Nat → BitVec 16) (a b : Nat) (x y : BitVec 16) :
    update (update f a (f a - x)) b (update f a (f a - x) b - y) =
      update (update f b (f b - y)) a (update f b (f b - y) a - x) := by
  by_cases same : a = b
  · subst same
    simp [sub_right_comm]
  · rw [update_of_ne (Ne.symm same), update_of_ne same, update_comm same]

/-- The second loop runs backwards, but the order makes no difference. -/
instance stamp_comm : RightCommutative (stamp un pid : SemArray τ υ → Sembuf → SemArray τ υ) where
  right_comm s a b := by
    have pids : update (update s.sempid a.semNum pid) b.semNum pid =
        update (update s.sempid b.semNum pid) a.semNum pid := by
      by_cases same : a.semNum = b.semNum
      · rw [same]
      · rw [update_comm same]
    cases un with
    | none => simp only [stamp, pids]
    | some u =>
      cases ha : a.semUndo with
      | false => simp [stamp, pids, ha]
      | true =>
        cases hb : b.semUndo with
        | false => simp [stamp, pids, ha, hb]
        | true =>
          simp only [stamp, pids, ha, hb, if_true, update_self, update_idem,
            Option.map_map, comp_def, update_sub_comm]

theorem foldl_perform : sops.foldl (perform un pid) s =
    sops.foldl (stamp un pid) { s with semval := sops.foldl add s.semval } := by
  induction sops generalizing s with
  | nil => rfl
  | cons sop sops ih =>
    rw [List.foldl_cons, ih, perform_eq]
    rfl

theorem tryAtomicSemop_result : (tryAtomicSemop s sops un pid).2 = (performOps (s.adj un) s.semval [] sops).2.2 := by
  unfold tryAtomicSemop
  dsimp only
  split_ifs with zero
  · rw [zero]
  · rfl

theorem tryAtomicSemop_of_ne (h : (tryAtomicSemop s sops un pid).2 ≠ 0) : (tryAtomicSemop s sops un pid).1 = s := by
  rw [tryAtomicSemop_result] at h
  unfold tryAtomicSemop
  dsimp only
  rw [if_neg h, performOps_spec.2.1]
  rfl

theorem tryAtomicSemop_of_eq (h : (tryAtomicSemop s sops un pid).2 = 0) :
    (tryAtomicSemop s sops un pid).1 = sops.foldl (perform un pid) s := by
  rw [tryAtomicSemop_result] at h
  unfold tryAtomicSemop
  dsimp only
  rw [if_pos h, performOps_spec.2.2.1 h, List.append_nil, (List.reverse_perm sops).foldl_eq, foldl_perform]

theorem tryAtomicSemop_pos (h : 0 < (tryAtomicSemop s sops un pid).2) : (tryAtomicSemop s sops un pid).2 = 1 := by
  rw [tryAtomicSemop_result] at h ⊢
  exact performOps_spec.1 h

end Try

end Sem
