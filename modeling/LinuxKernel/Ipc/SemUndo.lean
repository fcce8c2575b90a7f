/- The adjustments that `try_atomic_semop` keeps for the exit of a process. -/
import LinuxKernel.Foundation.Transition
import LinuxKernel.Ipc.SemOps

namespace Sem

open Function List

variable {τ υ : Type} [DecidableEq υ] {u : υ} {pid : Int} {s : SemArray τ υ} {sops : List Sembuf}

/-- The operations on semaphore `i` that a vector performs with `SEM_UNDO`. -/
def undoOps (sops : List Sembuf) (i : Nat) : List Sembuf := sops.filter fun sop => sop.semUndo && sop.semNum == i

def undoSum (sops : List Sembuf) (i : Nat) : Int := ((undoOps sops i).map Sembuf.semOp).sum

def UndoRange (undo : Int) : Prop := -SEMAEM - 1 ≤ undo ∧ undo ≤ SEMAEM

/-- Calls of the process with the undo structure `u`. The sum of what was performed with `SEM_UNDO` since the
last reset stands beside the array. Whatever else happens to the array leaves the adjustments of `u` alone. -/
inductive UndoStep (u : υ) (Ok : (Nat → Int) → List Sembuf → Prop) :
    SemArray τ υ × (Nat → Int) → SemArray τ υ × (Nat → Int) → Prop
  | semop {s s' total} (sops pid) : Ok total sops → tryAtomicSemop s sops (some u) pid = (s', 0) →
      UndoStep u Ok (s, total) (s', fun i => total i + undoSum sops i)
  | reset {s s' total} (i) : s'.semadj u = (s.semadj u).map (fun adj => update adj i 0) →
      UndoStep u Ok (s, total) (s', update total i 0)
  | other {s s' total} : s'.semadj u = s.semadj u → UndoStep u Ok (s, total) (s', total)

def UndoStart (u : υ) (st : SemArray τ υ × (Nat → Int)) : Prop :=
  st.1.semadj u = some (fun _ => 0) ∧ st.2 = fun _ => 0

/-- A vector with several operations on one semaphore does not leave the range with their sum. -/
def UndoFits (total : Nat → Int) (sops : List Sembuf) : Prop :=
  ∀ i, (undoOps sops i).length ≤ 1 ∨ UndoRange (-(total i + undoSum sops i))

theorem perform_semadj (sop : Sembuf) : (perform (some u) pid s sop).semadj u =
    (s.semadj u).map fun adj i => adj i - BitVec.ofInt 16 (undoSum [sop] i) := by
  cases undo : sop.semUndo with
  | false => simp [perform_eq, stamp, undo, undoSum, undoOps]
  | true =>
    simp only [perform_eq, stamp, undo, if_true, update_self]
    congr 1
    funext adj i
    by_cases here : sop.semNum = i
    · subst here
      simp [undoSum, undoOps, undo]
    · rw [update_of_ne (Ne.symm here)]
      simp [undoSum, undoOps, here]

theorem undoSum_cons (sop : Sembuf) (i : Nat) : undoSum (sop :: sops) i = undoSum [sop] i + undoSum sops i := by
  rw [undoSum, undoOps, ← singleton_append, filter_append, map_append, sum_append]
  rfl

/-- The adjustments are what the sums leave of them in a `short`. -/
theorem foldl_perform_semadj : (sops.foldl (perform (some u) pid) s).semadj u =
    (s.semadj u).map fun adj i => adj i - BitVec.ofInt 16 (undoSum sops i) := by
  induction sops generalizing s with
  | nil => simp [undoSum, undoOps]
  | cons sop sops ih =>
    rw [foldl_cons, ih, perform_semadj, Option.map_map]
    congr 1
    funext adj i
    rw [undoSum_cons, BitVec.ofInt_add, Function.comp, sub_add_eq_sub_sub]

variable {adj : Nat → BitVec 16}

/-- The check of the first loop, which compares each operation with the adjustment from before the call. -/
theorem performOps_checked {semval : Nat → Int} {done : List Sembuf} (h : (performOps adj semval done sops).2.2 = 0) :
    ∀ sop ∈ sops, sop.semUndo → UndoRange ((adj sop.semNum).toInt - sop.semOp) := by
  induction sops generalizing semval done with
  | nil => simp
  | cons sop sops ih =>
    simp only [performOps] at h
    split_ifs at h with zero low high undo
    · exact absurd h (wouldBlock_ne_zero sop)
    · exact absurd h (wouldBlock_ne_zero sop)
    · cases h
    · cases h
    intro x mem flag
    rcases mem_cons.mp mem with rfl | mem
    · have range := not_and.mp undo flag
      rw [UndoRange]
      omega
    · exact ih h x mem flag

def UndoExact (u : υ) (st : SemArray τ υ × (Nat → Int)) : Prop :=
  ∃ adj, st.1.semadj u = some adj ∧ ∀ i, (adj i).toInt = -st.2 i

theorem UndoFits.range {total : Nat → Int} (fits : UndoFits total sops)
    (have_ : s.semadj u = some adj) (exact_ : ∀ i, (adj i).toInt = -total i)
    (ok : (tryAtomicSemop s sops (some u) pid).2 = 0) (i : Nat) : UndoRange (-(total i + undoSum sops i)) := by
  rcases fits i with once | range
  · rcases Nat.le_one_iff_eq_zero_or_eq_one.mp once with none | one
    · have bounds := (adj i).toInt_lt
      have bounds' := (adj i).le_toInt
      rw [undoSum, length_eq_zero_iff.mp none, UndoRange, map_nil, sum_nil, add_zero, ← exact_ i, SEMAEM, SEMVMX]
      omega
    obtain ⟨sop, one⟩ := length_eq_one_iff.mp one
    have mem : sop ∈ undoOps sops i := one ▸ mem_singleton_self sop
    obtain ⟨inside, undo, rfl⟩ := by simpa [undoOps] using mem
    rw [tryAtomicSemop_result, SemArray.adj, Option.bind_some, have_] at ok
    have checked := performOps_checked ok sop inside undo
    rw [Option.getD_some, exact_] at checked
    rw [undoSum, one, map_singleton, sum_singleton, neg_add]
    exact checked
  · exact range

theorem UndoStep.exact {st st' : SemArray τ υ × (Nat → Int)} (h : UndoExact u st)
    (step : UndoStep u UndoFits st st') :
    UndoExact u st' := by
  obtain ⟨adj, have_, exact_⟩ := h
  cases step with
  | @semop s s' total sops pid fits eq =>
    have ok := congrArg Prod.snd eq
    have after := tryAtomicSemop_of_eq ok
    rw [eq] at after
    subst after
    refine ⟨_, (foldl_perform_semadj).trans (by rw [have_]; rfl), fun i => ?_⟩
    obtain ⟨low, high⟩ := fits.range have_ exact_ ok i
    rw [SEMAEM, SEMVMX] at low high
    have sum : adj i - BitVec.ofInt 16 (undoSum sops i) = BitVec.ofInt 16 (-(total i + undoSum sops i)) := by
      rw [neg_add, BitVec.ofInt_add, ← exact_ i, BitVec.ofInt_toInt, BitVec.ofInt_neg, sub_eq_add_neg]
    simp only [sum]
    exact BitVec.toInt_ofInt_eq_self (by decide) (by simp; omega) (by simp; omega)
  | reset i eq =>
    refine ⟨_, eq.trans (by rw [have_]; rfl), fun j => ?_⟩
    by_cases here : j = i
    · subst here
      simp
    · simp only [update_of_ne here]
      exact exact_ j
  | other eq => exact ⟨adj, eq.trans have_, exact_⟩

/-- In every run whose vectors fit, the adjustment is minus the sum of the operations. -/
theorem semadj_exact {st : SemArray τ υ × (Nat → Int)}
    (h : Transition.Reachable (UndoStart u) (UndoStep u UndoFits) st) :
    ∃ adj, st.1.semadj u = some adj ∧ ∀ i, UndoRange (adj i).toInt ∧ (adj i).toInt = -st.2 i := by
  obtain ⟨adj, have_, exact_⟩ := h.invariant (UndoExact u) (fun st start => ⟨_, start.1, by simp [start.2]⟩)
    fun _ _ ok step => step.exact ok
  refine ⟨adj, have_, fun i => ⟨?_, exact_ i⟩⟩
  have low := (adj i).le_toInt
  have high := (adj i).toInt_lt
  rw [UndoRange, SEMAEM, SEMVMX]
  omega

/-- One semaphore, and a process that has an undo structure. -/
def undoArray : SemArray Nat Unit :=
  ⟨1, fun _ => 0, fun _ => 0, [], fun _ => [], 0, fun _ => some fun _ => 0, fun _ => 0, fun _ => none, fun _ => 1⟩

/-- Two calls with two operations each, one of them without `SEM_UNDO`. -/
theorem semadj_exact_twice : ∃ st : SemArray Nat Unit × (Nat → Int),
    Transition.Reachable (UndoStart ()) (UndoStep () UndoFits) st ∧ st.1.semval 0 = 3 ∧
      ∃ adj, st.1.semadj () = some adj ∧ (adj 0).toInt = -7 := by
  have start : UndoStart () (undoArray, fun _ => 0) := ⟨rfl, rfl⟩
  have both : UndoFits (fun _ => 0) [⟨0, 3, false, true⟩, ⟨0, -1, false, true⟩] := by
    rintro (_ | i)
    · exact .inr ⟨by decide, by decide⟩
    · exact .inl (by simp [undoOps])
  have first : Transition.Reachable (UndoStart ()) (UndoStep () UndoFits) _ :=
    (Transition.Reachable.start start).next (.semop _ 7 both rfl)
  have one : ∀ total, UndoFits total [⟨0, 5, false, true⟩, ⟨0, -4, false, false⟩] := by
    rintro total (_ | i) <;> exact .inl (by simp [undoOps])
  have second := first.next (.semop _ 7 (one _) rfl)
  obtain ⟨adj, have_, exact_⟩ := semadj_exact second
  exact ⟨_, second, rfl, adj, have_, (exact_ 0).2⟩

/-- Twice 20000 with `SEM_UNDO`, and 20000 taken back without it in between. -/
theorem semadj_wraps : ∃ st : SemArray Nat Unit × (Nat → Int),
    Transition.Reachable (UndoStart ()) (UndoStep () fun _ _ => True) st ∧ st.2 0 = 40000 ∧
      ∃ adj, st.1.semadj () = some adj ∧ (adj 0).toInt = 25536 := by
  have start : UndoStart () (undoArray, fun _ => 0) := ⟨rfl, rfl⟩
  exact ⟨_, (Transition.Reachable.start start).next
    (.semop [⟨0, 20000, false, true⟩, ⟨0, -20000, false, false⟩, ⟨0, 20000, false, true⟩] 7 trivial rfl), rfl, _, rfl,
    by decide⟩

end Sem
