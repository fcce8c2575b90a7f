/- Runs of system calls on a semaphore array. -/
import Mathlib.Data.Finset.Card
import LinuxKernel.Foundation.Transition
import LinuxKernel.Ipc.SemQueue

namespace Sem

open List Function

variable {τ υ : Type} [DecidableEq τ] [DecidableEq υ]

structure Start (s : SemArray τ υ) : Prop where
  semval : ∀ i, s.semval i = 0
  semPending : s.semPending = []
  simple : ∀ i, s.simple i = []
  complexCount : s.complexCount = 0
  semadj : ∀ u, s.semadj u = none
  undoList : ∀ t, s.undoList t = none
  refcnt : ∀ u, s.refcnt u = 0

def Awake (s : SemArray τ υ) (task : τ) : Prop := ∀ q ∈ s.semPending, q.sleeper ≠ task

/-- What happens while the array is locked is one step. A sleeping task makes no call; new undo lists are
at unused addresses. -/
inductive Step (semopm : Nat) : SemArray τ υ → SemArray τ υ → Prop
  | getUndoList (s : SemArray τ υ) (task : τ) (u : υ) (awake : Awake s task)
      (free : s.refcnt u = 0 ∧ s.semadj u = none) : Step semopm s (getUndoList s task u)
  | findAllocUndo (s : SemArray τ υ) (task : τ) : Step semopm s (findAllocUndo s task)
  | copySemundo (s : SemArray τ υ) (parent child : τ) (awake : Awake s child)
      (new : s.undoList child = none) : Step semopm s (copySemundo s parent child)
  | semtimedop (s : SemArray τ υ) (task : τ) (pid : Int) (sops : List Sembuf) (permitted : Bool)
      (awake : Awake s task)
      (ready : (sops.any fun sop => sop.semUndo) = true →
        ∃ u, s.undoList task = some u ∧ (s.semadj u).isSome = true) :
      Step semopm s (semtimedop semopm s task pid sops permitted).1
  | interrupted (s : SemArray τ υ) (q : SemQueue τ υ) (mem : q ∈ s.semPending) :
      Step semopm s (interrupted s q)
  | setval (s : SemArray τ υ) (semnum val pid : Int) : Step semopm s (setval s semnum val pid).1
  | setall (s : SemArray τ υ) (semIo : Nat → Nat) : Step semopm s (setall s semIo).1
  | exitSem (s : SemArray τ υ) (task : τ) (pid : Int) (awake : Awake s task) :
      Step semopm s (exitSem s task pid)

/-- The reference counts, for the tasks that share an undo list. -/
def Counted (s : SemArray τ υ) : Prop :=
  ∃ users : υ → Finset τ, ∀ u, s.refcnt u = (users u).card ∧ ∀ t, t ∈ users u ↔ s.undoList t = some u

/-- The undo structure of an operation that waits belongs to the task that sleeps. -/
def UndoKept (s : SemArray τ υ) : Prop :=
  ∀ q ∈ s.semPending, ∀ u, q.undo = some u → s.undoList q.sleeper = some u ∧ (s.semadj u).isSome = true

structure Sound (s : SemArray τ υ) : Prop where
  queues : Queues s
  range : InRange s.semval
  blocked : ∀ q ∈ s.semPending, Blocked s q
  undo : UndoKept s
  counted : Counted s

variable {s s' : SemArray τ υ} {task : τ}

omit [DecidableEq τ] in
theorem Blocked.single {q : SemQueue τ υ} (blocked : Blocked s q) (range : InRange s.semval) {sop : Sembuf}
    (only : q.sops = [sop]) : sop.semOp ≤ 0 ∧ sop.ipcNowait = false := by
  unfold Blocked at blocked
  rw [tryAtomicSemop_result, only] at blocked
  have low := (range sop.semNum).1
  have wait : wouldBlock sop = 1 → sop.ipcNowait = false := by
    unfold wouldBlock
    split_ifs with nowait
    · simp [EAGAIN]
    · exact fun _ => by simpa using nowait
  simp only [performOps] at blocked
  split_ifs at blocked with zero negative high undo
  · exact ⟨by omega, wait blocked⟩
  · exact ⟨by omega, wait blocked⟩
  · simp [ERANGE] at blocked
  · simp [ERANGE] at blocked
  · simp at blocked

omit [DecidableEq υ] in
theorem Queues.enqueue (ok : Queues s) {q : SemQueue τ υ} (awake : Awake s q.sleeper)
    (alter : q.alter = q.sops.any fun sop => sop.semOp ≠ 0)
    (waits : ∀ sop, q.sops = [sop] → sop.semOp ≤ 0 ∧ sop.ipcNowait = false) : Queues (enqueue s q) := by
  have pending : (Sem.enqueue s q).semPending = if q.alter then s.semPending ++ [q] else q :: s.semPending := by
    unfold Sem.enqueue
    dsimp only
    split <;> rfl
  have perm : (Sem.enqueue s q).semPending.Perm (q :: s.semPending) := by
    rw [pending]
    split_ifs
    · exact perm_append_singleton q s.semPending
    · exact .refl _
  have mem : ∀ x ∈ (Sem.enqueue s q).semPending, x = q ∨ x ∈ s.semPending :=
    fun x hx => mem_cons.mp (perm.subset hx)
  have fresh : q.sleeper ∉ s.semPending.map SemQueue.sleeper := by
    intro h
    obtain ⟨x, hx, same⟩ := mem_map.mp h
    exact awake x hx same
  constructor
  · rw [(perm.map _).nodup_iff, map_cons, nodup_cons]
    exact ⟨fresh, ok.nodup⟩
  · intro i
    have add : (Sem.enqueue s q).semPending.filter (fun x => onlySem x.sops = some i) =
        if onlySem q.sops = some i then if q.alter then s.simple i ++ [q] else q :: s.simple i
        else s.simple i := by
      rw [pending, ok.simple i]
      split_ifs with alters here here
      all_goals simp [here]
    rw [add]
    cases only : onlySem q.sops with
    | none => simp [Sem.enqueue, only]
    | some j =>
      by_cases here : i = j
      · subst here
        simp [Sem.enqueue, only]
      · simp [Sem.enqueue, only, here, Ne.symm here]
  · rw [perm.countP_eq, countP_cons, ← ok.complex]
    cases only : onlySem q.sops with
    | none | some j => simp [Sem.enqueue, only]
  · rw [pending]
    split_ifs with alters
    · rw [pairwise_append]
      refine ⟨ok.order, pairwise_singleton _ _, ?_⟩
      intro x _ y hy _
      rw [mem_singleton.mp hy]
      exact alters
    · rw [pairwise_cons]
      exact ⟨fun x _ h => absurd h alters, ok.order⟩
  · intro x hx
    rcases mem x hx with rfl | old
    · exact alter
    · exact ok.alter x old
  · intro x hx
    rcases mem x hx with rfl | old
    · exact waits
    · exact ok.waits x old

section Steps

variable {q : SemQueue τ υ} {semopm : Nat}

omit [DecidableEq τ] [DecidableEq υ] in
theorem UndoKept.congr (kept : UndoKept s) (same : SameTasks s s')
    (sub : ∀ x ∈ s'.semPending, x ∈ s.semPending) : UndoKept s' := by
  intro x hx u undo
  obtain ⟨own, some⟩ := kept x (sub x hx) u undo
  exact ⟨same.undoList ▸ own, same.alloc u some⟩

omit [DecidableEq τ] [DecidableEq υ] in
theorem Counted.congr (counted : Counted s) (same : SameTasks s s') : Counted s' := by
  obtain ⟨users, h⟩ := counted
  refine ⟨users, ?_⟩
  rw [same.undoList, same.refcnt]
  exact h

omit [DecidableEq τ] in
theorem Start.sound (start : Start s) : Sound s := by
  constructor
  · constructor <;> simp [start.semPending, start.simple, start.complexCount]
  · intro i
    rw [start.semval]
    exact ⟨Int.le_refl 0, by decide⟩
  · simp [start.semPending]
  · simp [UndoKept, start.semPending]
  · exact ⟨fun _ => ∅, by simp [start.refcnt, start.undoList]⟩

theorem Sound.update {semnum : Option Nat} (ok : Sound s) (queues : Queues s') (range : InRange s'.semval)
    (undo : UndoKept s') (counted : Counted s') (pending : s'.semPending = s.semPending)
    (others : ∀ i, semnum = some i → ∀ j, j ≠ i → SameAt s s' j) : Sound (updateQueue s' semnum) := by
  have blocked : ∀ i, semnum = some i → ∀ x ∈ s'.semPending, ∀ sop, x.sops = [sop] → sop.semNum ≠ i →
      Blocked s' x := by
    intro i only x hx sop eq ne
    apply (ok.blocked x (pending ▸ hx)).congr
    intro sop' hsop'
    obtain rfl : sop' = sop := by simpa [eq] using hsop'
    exact others i only sop'.semNum ne
  obtain ⟨queues', range', tasks, sub, blocked'⟩ := updateQueue_spec queues range blocked
  exact ⟨queues', range', blocked', undo.congr tasks sub, counted.congr tasks⟩

omit [DecidableEq τ] in
/-- Fewer operations may wait, and nothing they read has changed. -/
theorem Sound.congr (ok : Sound s) (queues : Queues s') (same : ∀ j, SameAt s s' j) (tasks : SameTasks s s')
    (sub : ∀ x ∈ s'.semPending, x ∈ s.semPending) : Sound s' := by
  constructor
  · exact queues
  · intro i
    rw [(same i).1]
    exact ok.range i
  · exact fun x hx => (ok.blocked x (sub x hx)).congr fun sop _ => same sop.semNum
  · exact ok.undo.congr tasks sub
  · exact ok.counted.congr tasks

theorem Sound.unlink (ok : Sound s) (mem : q ∈ s.semPending) : Sound (unlinkQueue s q) := by
  have sub : ∀ x ∈ (unlinkQueue s q).semPending, x ∈ s.semPending := by
    rw [unlinkQueue_semPending]
    exact fun x hx => mem_of_mem_filter hx
  have tasks : SameTasks s (unlinkQueue s q) := by
    unfold unlinkQueue
    split_ifs <;> exact ⟨rfl, rfl, fun _ => id⟩
  exact ok.congr (ok.queues.unlink mem) (unlinkQueue_sameAt s q) tasks sub

theorem Sound.enqueue (ok : Sound s) (awake : Awake s q.sleeper) (blocked : Blocked s q)
    (alter : q.alter = q.sops.any fun sop => sop.semOp ≠ 0)
    (undo : ∀ u, q.undo = some u → s.undoList q.sleeper = some u ∧ (s.semadj u).isSome = true) :
    Sound (enqueue s q) := by
  have queues := ok.queues.enqueue awake alter fun sop only => blocked.single ok.range only
  have pending : ∀ x ∈ (Sem.enqueue s q).semPending, x = q ∨ x ∈ s.semPending := by
    unfold Sem.enqueue
    dsimp only
    intro x hx
    split at hx <;> split_ifs at hx <;> simpa [or_comm] using hx
  have same : (∀ j, SameAt s (Sem.enqueue s q) j) ∧ SameTasks s (Sem.enqueue s q) := by
    unfold Sem.enqueue
    dsimp only
    split <;> exact ⟨fun _ => ⟨rfl, fun _ => rfl⟩, rfl, rfl, fun _ => id⟩
  constructor
  · exact queues
  · intro i
    rw [(same.1 i).1]
    exact ok.range i
  · intro x hx
    rcases pending x hx with rfl | old
    · exact blocked.congr fun sop _ => same.1 sop.semNum
    · exact (ok.blocked x old).congr fun sop _ => same.1 sop.semNum
  · intro x hx u use
    have kept : s.undoList x.sleeper = some u ∧ (s.semadj u).isSome = true := by
      rcases pending x hx with rfl | old
      · exact undo u use
      · exact ok.undo x old u use
    exact ⟨same.2.undoList ▸ kept.1, same.2.alloc u kept.2⟩
  · exact ok.counted.congr same.2

theorem Sound.semtimedop (ok : Sound s) (awake : Awake s task) (pid : Int) (sops : List Sembuf) (permitted : Bool)
    (ready : (sops.any fun sop => sop.semUndo) = true → ∃ u, s.undoList task = some u ∧ (s.semadj u).isSome = true) :
    Sound (semtimedop semopm s task pid sops permitted).1 := by
  unfold Sem.semtimedop
  dsimp only
  generalize un_eq : (if (sops.any fun sop => sop.semUndo) = true then s.undoList task else none) = un
  have frame : Frame s (tryAtomicSemop s sops un pid).1 := tryAtomicSemop_frame
  have queues : Queues (tryAtomicSemop s sops un pid).1 :=
    ok.queues.congr frame.semPending frame.simple frame.complexCount
  have tasks := frame.toSameTasks
  split_ifs with empty long big denied returns performed
  · exact ok
  · exact ok
  · exact ok
  · exact ok
  · -- the vector is performed and alters the array
    apply ok.update queues (tryAtomicSemop_inRange ok.range)
      (ok.undo.congr tasks fun x hx => frame.semPending ▸ hx) (ok.counted.congr tasks) frame.semPending
    intro i only j ne
    obtain ⟨sop, rfl, rfl⟩ := onlySem_eq.mp only
    apply tryAtomicSemop_sameAt
    intro _ x hx
    rw [mem_singleton.mp hx]
    exact .inl ne.symm
  · by_cases zero : (tryAtomicSemop s sops un pid).2 = 0
    · -- it is performed and alters nothing
      have none : ∀ sop ∈ sops, sop.semOp = 0 := by
        intro sop hsop
        by_contra ne
        exact performed ⟨any_eq_true.mpr ⟨sop, hsop, by simpa using ne⟩, zero⟩
      have same : ∀ j, SameAt s (tryAtomicSemop s sops un pid).1 j :=
        fun j => tryAtomicSemop_sameAt fun _ sop hsop => .inr (none sop hsop)
      exact ok.congr queues same tasks fun x hx => frame.semPending ▸ hx
    · rw [tryAtomicSemop_of_ne zero]
      exact ok
  · -- it has to wait
    have pos : 0 < (tryAtomicSemop s sops un pid).2 := by omega
    rw [tryAtomicSemop_of_ne (by omega)]
    apply ok.enqueue awake (tryAtomicSemop_pos pos) rfl
    intro u use
    subst use
    split_ifs at un_eq with undos
    obtain ⟨v, list, alloc⟩ := ready undos
    obtain rfl : v = u := Option.some.inj (list.symm.trans un_eq)
    exact ⟨list, alloc⟩

theorem Sound.setval (ok : Sound s) (semnum val pid : Int) : Sound (setval s semnum val pid).1 := by
  unfold Sem.setval
  split_ifs with index range
  · exact ok
  · exact ok
  apply ok.update
  · exact ok.queues.congr rfl rfl rfl
  · intro j
    by_cases here : j = semnum.toNat
    · subst here
      simp only [update_self]
      omega
    · simp only [update_of_ne here]
      exact ok.range j
  · exact ok.undo.congr ⟨rfl, rfl, by simp⟩ fun _ hx => hx
  · exact ok.counted.congr ⟨rfl, rfl, by simp⟩
  · rfl
  · rintro i ⟨⟩ j ne
    refine ⟨update_of_ne ne _ _, ?_⟩
    intro un
    cases un with
    | none => rfl
    | some u =>
      simp only [SemArray.adj, Option.bind_some]
      cases s.semadj u with
      | none => rfl
      | some adj => exact update_of_ne ne _ _

theorem Sound.setall (ok : Sound s) (semIo : Nat → Nat) : Sound (setall s semIo).1 := by
  unfold Sem.setall
  split_ifs with range
  · exact ok
  apply ok.update
  · exact ok.queues.congr rfl rfl rfl
  · intro j
    dsimp only
    split_ifs with low
    · have small : ¬SEMVMX < semIo j := by
        intro big
        exact range (any_eq_true.mpr ⟨j, mem_range.mpr low, by simpa using big⟩)
      omega
    · exact ok.range j
  · exact ok.undo.congr ⟨rfl, rfl, by simp⟩ fun _ hx => hx
  · exact ok.counted.congr ⟨rfl, rfl, by simp⟩
  · rfl
  · simp

/-- A task that is awake gets another undo list, or none. -/
theorem Sound.relist (ok : Sound s) (awake : Awake s task) {list : Option υ} {refcnt : υ → Nat}
    (count : ∀ (users : Finset τ) v, s.refcnt v = users.card → (task ∈ users ↔ s.undoList task = some v) →
      refcnt v = (if list = some v then insert task users else users.erase task).card) :
    Sound { s with undoList := Function.update s.undoList task list, refcnt := refcnt } := by
  constructor
  · exact ok.queues.congr rfl rfl rfl
  · exact ok.range
  · exact fun x hx => (ok.blocked x hx).congr fun _ _ => ⟨rfl, fun _ => rfl⟩
  · intro x hx v use
    simp only [update_of_ne (awake x hx)]
    exact ok.undo x hx v use
  · obtain ⟨users, h⟩ := ok.counted
    refine ⟨fun v => if list = some v then insert task (users v) else (users v).erase task, ?_⟩
    intro v
    refine ⟨count (users v) v (h v).1 ((h v).2 task), ?_⟩
    intro t
    by_cases self : t = task
    · by_cases new : list = some v <;> simp [self, new]
    · by_cases new : list = some v <;> simp [self, new, (h v).2]

/-- The task gives up its undo list; the others that share it keep it. -/
def leave (s : SemArray τ υ) (task : τ) (u : υ) : SemArray τ υ :=
  { s with
    undoList := update s.undoList task none
    refcnt := update s.refcnt u (s.refcnt u - 1) }

theorem Sound.leave (ok : Sound s) (awake : Awake s task) {u : υ} (list : s.undoList task = some u) :
    Sound (leave s task u) := by
  apply ok.relist awake
  intro users v card mem
  by_cases here : v = u
  · subst here
    simp [card, Finset.card_erase_of_mem (mem.mpr list)]
  · have other : task ∉ users := by simpa [list, Ne.symm here] using mem
    simp [here, card, Finset.erase_eq_of_notMem other]

theorem Sound.exitSem (ok : Sound s) (awake : Awake s task) (pid : Int) : Sound (exitSem s task pid) := by
  unfold Sem.exitSem
  cases list : s.undoList task with
  | none => exact ok
  | some u =>
    have left := ok.leave awake list
    dsimp only
    split_ifs with shared
    · exact left
    cases alloc : s.semadj u with
    | none => exact left
    | some adj =>
      have last : (Sem.leave s task u).refcnt u = 0 := not_not.mp shared
      apply left.update
      · exact left.queues.congr rfl rfl rfl
      · intro j
        dsimp only
        split_ifs
        · have : (0 : Int) ≤ SEMVMX := by decide
          unfold adjusted
          dsimp only
          split_ifs <;> omega
        · exact ok.range j
      · -- a task that sleeps would still hold the list
        intro x hx v use
        obtain ⟨own, allocated⟩ := left.undo x hx v use
        have ne : v ≠ u := by
          rintro rfl
          obtain ⟨users, h⟩ := left.counted
          have none := (h v).1
          rw [last, eq_comm, Finset.card_eq_zero] at none
          have := ((h v).2 x.sleeper).mpr own
          simp [none] at this
        refine ⟨own, ?_⟩
        simp only [update_of_ne ne]
        exact allocated
      · exact left.counted
      · rfl
      · simp

def join (s : SemArray τ υ) (task : τ) (u : υ) : SemArray τ υ :=
  { s with
    undoList := update s.undoList task (some u)
    refcnt := update s.refcnt u (s.refcnt u + 1) }

theorem Sound.join (ok : Sound s) (awake : Awake s task) (list : s.undoList task = none) (u : υ) :
    Sound (join s task u) := by
  apply ok.relist awake
  intro users v card mem
  have fresh : task ∉ users := by simpa [list] using mem
  by_cases here : v = u
  · simp [here, ← card, Finset.card_insert_of_notMem fresh]
  · simp [here, Ne.symm here, card, Finset.erase_eq_of_notMem fresh]

theorem Sound.getUndoList (ok : Sound s) (awake : Awake s task) {u : υ} (free : s.refcnt u = 0) :
    Sound (getUndoList s task u) := by
  unfold Sem.getUndoList
  cases list : s.undoList task with
  | some v => exact ok
  | none =>
    have joined := ok.join awake list u
    rwa [Sem.join, free] at joined

omit [DecidableEq τ] in
theorem Sound.findAllocUndo (ok : Sound s) (task : τ) : Sound (findAllocUndo s task) := by
  unfold Sem.findAllocUndo
  cases list : s.undoList task with
  | none => exact ok
  | some u =>
    cases alloc : s.semadj u with
    | some adj =>
      simp only [alloc]
      exact ok
    | none =>
      simp only [alloc]
      refine ok.congr (ok.queues.congr rfl rfl rfl) (fun j => ⟨rfl, fun un => ?_⟩) ⟨rfl, rfl, fun v some => ?_⟩
        fun _ hx => hx
      · cases un with
        | none => rfl
        | some v =>
          by_cases here : v = u
          · subst here
            simp [SemArray.adj, alloc]
          · simp [SemArray.adj, here]
      · by_cases here : v = u
        · simp [here]
        · simpa [here] using some

theorem Sound.copySemundo (ok : Sound s) {parent child : τ} (awake : Awake s child)
    (new : s.undoList child = none) : Sound (copySemundo s parent child) := by
  unfold Sem.copySemundo
  cases list : s.undoList parent with
  | none => exact ok
  | some u => exact ok.join awake new u

theorem Step.sound (step : Step semopm s s') (ok : Sound s) : Sound s' := by
  cases step with
  | getUndoList task u awake free => exact ok.getUndoList awake free.1
  | findAllocUndo task => exact ok.findAllocUndo task
  | copySemundo parent child awake new => exact ok.copySemundo awake new
  | semtimedop task pid sops permitted awake ready => exact ok.semtimedop awake pid sops permitted ready
  | interrupted q mem => exact ok.unlink mem
  | setval semnum val pid => exact ok.setval semnum val pid
  | setall semIo => exact ok.setall semIo
  | exitSem task pid awake => exact ok.exitSem awake pid

end Steps

/-- In every state of every run: the values are in range; `try_atomic_semop` performs all its operations
in order or changes nothing; and every operation on the queue has to wait. -/
theorem no_lost_wakeup {semopm : Nat} (reachable : Transition.Reachable Start (Step semopm) s) :
    (∀ i, 0 ≤ s.semval i ∧ s.semval i ≤ SEMVMX) ∧
    (∀ sops un pid, (tryAtomicSemop s sops un pid).2 ≠ 0 → (tryAtomicSemop s sops un pid).1 = s) ∧
    (∀ sops un pid, (tryAtomicSemop s sops un pid).2 = 0 →
      (tryAtomicSemop s sops un pid).1 = sops.foldl (perform un pid) s) ∧
    ∀ q ∈ s.semPending, (tryAtomicSemop s q.sops q.undo q.pid).2 = 1 := by
  have ok : Sound s := Transition.Reachable.invariant Sound (fun _ start => start.sound)
    (fun _ _ ok step => step.sound ok) reachable
  exact ⟨ok.range, fun _ _ _ => tryAtomicSemop_of_ne, fun _ _ _ => tryAtomicSemop_of_eq, ok.blocked⟩

def newArray : SemArray Nat Nat :=
  ⟨2, fun _ => 0, fun _ => 0, [], fun _ => [], 0, fun _ => none, fun _ => 0, fun _ => none, fun _ => 0⟩

/-- Task 1 waits for two semaphores. -/
def waiting : SemArray Nat Nat :=
  (semtimedop 32 newArray 1 101 [⟨0, -1, false, false⟩, ⟨1, -1, false, false⟩] true).1

/-- Task 2 increments one of them. -/
def incremented : SemArray Nat Nat := (semtimedop 32 waiting 2 102 [⟨0, 1, false, false⟩] true).1

theorem incremented_reachable : Transition.Reachable Start (Step 32) incremented := by
  have start : Start newArray :=
    ⟨fun _ => rfl, rfl, fun _ => rfl, rfl, fun _ => rfl, fun _ => rfl, fun _ => rfl⟩
  have awake : ∀ q ∈ waiting.semPending, q.sleeper ≠ 2 := by decide +kernel
  have sleeps : Transition.Reachable Start (Step 32) waiting :=
    (Transition.Reachable.start start).next (.semtimedop newArray 1 101 _ true (by simp [Awake, newArray]) (by simp))
  exact sleeps.next (.semtimedop waiting 2 102 _ true awake (by simp))

theorem no_lost_wakeup_incremented : incremented.semval 0 = 1 ∧ incremented.semPending.map SemQueue.sleeper = [1] ∧
      ∀ q ∈ incremented.semPending, (tryAtomicSemop incremented q.sops q.undo q.pid).2 = 1 :=
  ⟨by decide +kernel, by decide +kernel, (no_lost_wakeup incremented_reachable).2.2.2⟩

end Sem
