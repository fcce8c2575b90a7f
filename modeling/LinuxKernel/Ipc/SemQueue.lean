/- `update_queue`: after it, no operation on the queue can be performed. -/
import LinuxKernel.Ipc.SemOps

namespace Sem

open Function List

variable {τ υ : Type} [DecidableEq υ] {s s' : SemArray τ υ} {q : SemQueue τ υ}

/-- What belongs to the tasks is as before; their undo structures are still on the list. -/
structure SameTasks (s s' : SemArray τ υ) : Prop where
  undoList : s'.undoList = s.undoList
  refcnt : s'.refcnt = s.refcnt
  alloc : ∀ u, (s.semadj u).isSome = true → (s'.semadj u).isSome = true

/-- The queues are as before, too. -/
structure Frame (s s' : SemArray τ υ) : Prop extends SameTasks s s' where
  semPending : s'.semPending = s.semPending
  simple : s'.simple = s.simple
  complexCount : s'.complexCount = s.complexCount

omit [DecidableEq υ] in
theorem SameTasks.refl (s : SemArray τ υ) : SameTasks s s := ⟨rfl, rfl, fun _ => id⟩

omit [DecidableEq υ] in
theorem SameTasks.trans {t : SemArray τ υ} (h : SameTasks s s') (h' : SameTasks s' t) : SameTasks s t :=
  ⟨h'.undoList.trans h.undoList, h'.refcnt.trans h.refcnt, fun u some => h'.alloc u (h.alloc u some)⟩

section Effect

variable {un : Option υ} {pid : Int} {sops : List Sembuf}

theorem perform_frame (s : SemArray τ υ) (sop : Sembuf) : Frame s (perform un pid s sop) := by
  refine ⟨⟨rfl, rfl, fun u some => ?_⟩, rfl, rfl, rfl⟩
  cases un with
  | none => exact some
  | some v =>
    simp only [perform_eq, stamp]
    split_ifs
    · by_cases here : u = v
      · subst here
        simpa using some
      · rwa [update_of_ne here]
    · exact some

theorem foldl_perform_frame : Frame s (sops.foldl (perform un pid) s) := by
  induction sops generalizing s with
  | nil => exact ⟨.refl s, rfl, rfl, rfl⟩
  | cons sop sops ih =>
    have first : Frame s (perform un pid s sop) := perform_frame s sop
    have rest : Frame (perform un pid s sop) _ := ih
    exact ⟨first.toSameTasks.trans rest.toSameTasks, rest.semPending, rest.simple, rest.complexCount⟩

theorem tryAtomicSemop_frame : Frame s (tryAtomicSemop s sops un pid).1 := by
  by_cases zero : (tryAtomicSemop s sops un pid).2 = 0
  · rw [tryAtomicSemop_of_eq zero]
    exact foldl_perform_frame
  · rw [tryAtomicSemop_of_ne zero]
    exact ⟨.refl s, rfl, rfl, rfl⟩

/-- Semaphore `j` and the adjustments for it are as before. -/
def SameAt (s s' : SemArray τ υ) (j : Nat) : Prop :=
  s'.semval j = s.semval j ∧ ∀ un, s'.adj un j = s.adj un j

omit [DecidableEq υ] in
theorem SameAt.trans {t : SemArray τ υ} {j : Nat} (h : SameAt s s' j) (h' : SameAt s' t j) : SameAt s t j :=
  ⟨h'.1.trans h.1, fun un => (h'.2 un).trans (h.2 un)⟩

theorem perform_sameAt (s : SemArray τ υ) {sop : Sembuf} {j : Nat} (h : sop.semNum ≠ j ∨ sop.semOp = 0) :
    SameAt s (perform un pid s sop) j := by
  constructor
  · rcases h with ne | zero
    · exact update_of_ne ne.symm _ _
    · simp [perform_eq, stamp, add, zero]
  · intro un'
    have entry : ∀ f : Nat → BitVec 16,
        update f sop.semNum (f sop.semNum - BitVec.ofInt 16 sop.semOp) j = f j := by
      intro f
      rcases h with ne | zero
      · exact update_of_ne ne.symm _ _
      · simp [zero]
    cases un' with
    | none => rfl
    | some v =>
      cases un with
      | none => rfl
      | some u =>
        simp only [perform_eq, stamp, SemArray.adj, Option.bind_some]
        split_ifs
        · by_cases here : v = u
          · subst here
            cases alloc : s.semadj v with
            | none => simp
            | some f => simpa using entry f
          · rw [update_of_ne here]
        · rfl

theorem tryAtomicSemop_sameAt {j : Nat}
    (h : (tryAtomicSemop s sops un pid).2 = 0 → ∀ sop ∈ sops, sop.semNum ≠ j ∨ sop.semOp = 0) :
    SameAt s (tryAtomicSemop s sops un pid).1 j := by
  by_cases zero : (tryAtomicSemop s sops un pid).2 = 0
  · rw [tryAtomicSemop_of_eq zero]
    replace h := h zero
    clear zero
    induction sops generalizing s with
    | nil => exact ⟨rfl, fun _ => rfl⟩
    | cons sop sops ih => exact (perform_sameAt s (h sop (by simp))).trans (ih fun x hx => h x (by simp [hx]))
  · rw [tryAtomicSemop_of_ne zero]
    exact ⟨rfl, fun _ => rfl⟩

theorem foldl_perform_semval : (sops.foldl (perform un pid) s).semval = sops.foldl add s.semval := by
  induction sops generalizing s with
  | nil => rfl
  | cons sop sops ih => exact ih

theorem tryAtomicSemop_inRange (range : InRange s.semval) : InRange (tryAtomicSemop s sops un pid).1.semval := by
  by_cases zero : (tryAtomicSemop s sops un pid).2 = 0
  · rw [tryAtomicSemop_of_eq zero, foldl_perform_semval]
    rw [tryAtomicSemop_result] at zero
    have performed : InRange (performOps (s.adj un) s.semval [] sops).1 := performOps_spec.2.2.2 range
    rwa [performOps_spec.2.2.1 zero] at performed
  · rw [tryAtomicSemop_of_ne zero]
    exact range

end Effect

/-- The operation has to wait: `try_atomic_semop` returns 1. -/
def Blocked (s : SemArray τ υ) (q : SemQueue τ υ) : Prop :=
  (tryAtomicSemop s q.sops q.undo q.pid).2 = 1

theorem Blocked.congr (h : Blocked s q) (same : ∀ sop ∈ q.sops, SameAt s s' sop.semNum) : Blocked s' q := by
  unfold Blocked at h ⊢
  rw [tryAtomicSemop_result] at h ⊢
  rw [← h]
  apply performOps_congr
  intro sop hsop
  exact ⟨(same sop hsop).1, (same sop hsop).2 q.undo⟩

/-- The queue of all operations and those of the semaphores. Operations that alter nothing are in front
of those that do. -/
structure Queues (s : SemArray τ υ) : Prop where
  nodup : (s.semPending.map SemQueue.sleeper).Nodup
  simple : ∀ i, s.simple i = s.semPending.filter fun q => onlySem q.sops = some i
  complex : s.complexCount = s.semPending.countP fun q => onlySem q.sops = none
  order : s.semPending.Pairwise fun q q' => q.alter = true → q'.alter = true
  alter : ∀ q ∈ s.semPending, q.alter = q.sops.any fun sop => sop.semOp ≠ 0
  waits : ∀ q ∈ s.semPending, ∀ sop, q.sops = [sop] → sop.semOp ≤ 0 ∧ sop.ipcNowait = false

theorem onlySem_eq {sops : List Sembuf} {i : Nat} : onlySem sops = some i ↔ ∃ sop, sops = [sop] ∧ sop.semNum = i := by
  unfold onlySem
  split
  · simp
  rename_i more
  constructor
  · intro h
    cases h
  · rintro ⟨sop, eq, -⟩
    exact (more sop eq).elim

omit [DecidableEq υ] in
theorem Queues.congr (ok : Queues s) (pending : s'.semPending = s.semPending) (simple : s'.simple = s.simple)
    (count : s'.complexCount = s.complexCount) : Queues s' := by
  constructor <;> simp only [pending, simple, count]
  exacts [ok.nodup, ok.simple, ok.complex, ok.order, ok.alter, ok.waits]

omit [DecidableEq υ] in
theorem Queues.only_of_single (ok : Queues s) (single : s.complexCount = 0) (mem : q ∈ s.semPending) :
    ∃ sop, q.sops = [sop] := by
  have none : ∀ x ∈ s.semPending, ¬onlySem x.sops = none := by
    have count := ok.complex
    rw [single] at count
    simpa using countP_eq_zero.mp count.symm
  cases only : onlySem q.sops with
  | none => exact absurd only (none q mem)
  | some i =>
    obtain ⟨sop, eq, -⟩ := onlySem_eq.mp only
    exact ⟨sop, eq⟩

variable [DecidableEq τ]

omit [DecidableEq υ] in
theorem unlinkQueue_semPending (s : SemArray τ υ) (q : SemQueue τ υ) :
    (unlinkQueue s q).semPending = s.semPending.filter fun x => x.sleeper ≠ q.sleeper := by
  unfold unlinkQueue
  split_ifs <;> rfl

omit [DecidableEq υ] in
theorem Queues.split (ok : Queues s) (mem : q ∈ s.semPending) :
    ∃ front back, s.semPending = front ++ q :: back ∧ (unlinkQueue s q).semPending = front ++ back := by
  obtain ⟨front, back, eq⟩ := append_of_mem mem
  have nodup := ok.nodup
  rw [eq, map_append, map_cons, nodup_middle, nodup_cons, ← map_append] at nodup
  have apart : ∀ x ∈ front ++ back, x.sleeper ≠ q.sleeper :=
    fun x hx same => nodup.1 (same ▸ mem_map_of_mem hx)
  have keep : (front ++ back).filter (fun x => x.sleeper ≠ q.sleeper) = front ++ back :=
    filter_eq_self.mpr fun x hx => by simpa using apart x hx
  refine ⟨front, back, eq, ?_⟩
  rw [unlinkQueue_semPending, eq]
  simpa using keep

omit [DecidableEq υ] in
theorem Queues.unlink (ok : Queues s) (mem : q ∈ s.semPending) : Queues (unlinkQueue s q) := by
  obtain ⟨front, back, eq, rest⟩ := ok.split mem
  have sub : (front ++ back).Sublist s.semPending := by
    rw [eq]
    exact (sublist_cons_self q back).append_left front
  constructor
  · rw [rest]
    exact ok.nodup.sublist (sub.map _)
  · intro i
    by_cases simple : (onlySem q.sops).isSome
    · simp only [unlinkQueue, simple, ok.simple]
      exact filter_comm _ _ _
    · have none : onlySem q.sops = none := by simpa using simple
      have same : (unlinkQueue s q).simple = s.simple := by simp [unlinkQueue, none]
      rw [rest, same, ok.simple, eq]
      simp [none]
  · have count := ok.complex
    rw [eq, countP_append, countP_cons] at count
    rw [rest, countP_append]
    cases only : onlySem q.sops with
    | none =>
      have less : (unlinkQueue s q).complexCount = s.complexCount - 1 := by simp [unlinkQueue, only]
      simp only [only, decide_true, if_true] at count
      omega
    | some i =>
      have same : (unlinkQueue s q).complexCount = s.complexCount := by simp [unlinkQueue, only]
      simpa [only] using same.trans count
  · rw [rest]
    exact ok.order.sublist sub
  · intro x hx
    exact ok.alter x (sub.subset (rest ▸ hx))
  · intro x hx
    exact ok.waits x (sub.subset (rest ▸ hx))

/-- Between two entries of a scan for one semaphore there are only single operations, and those on the
other semaphores wait. -/
structure Scanning (semnum : Option Nat) (s : SemArray τ υ) : Prop where
  queues : Queues s
  range : InRange s.semval
  single : ∀ i, semnum = some i → s.complexCount = 0
  others : ∀ i, semnum = some i → ∀ q ∈ s.semPending, onlySem q.sops ≠ some i → Blocked s q

def finish (s : SemArray τ υ) (q : SemQueue τ υ) : SemArray τ υ :=
  let (s, error) := tryAtomicSemop s q.sops q.undo q.pid
  wakeUpSemQueue (unlinkQueue s q) q error

omit [DecidableEq υ] in
theorem unlinkQueue_sameAt (s : SemArray τ υ) (q : SemQueue τ υ) (j : Nat) : SameAt s (unlinkQueue s q) j := by
  unfold unlinkQueue
  split_ifs <;> exact ⟨rfl, fun _ => rfl⟩

theorem finish_sameAt {j : Nat}
    (h : (tryAtomicSemop s q.sops q.undo q.pid).2 = 0 → ∀ sop ∈ q.sops, sop.semNum ≠ j ∨ sop.semOp = 0) :
    SameAt s (finish s q) j :=
  (tryAtomicSemop_sameAt h).trans (unlinkQueue_sameAt _ q j)

theorem finish_semPending (s : SemArray τ υ) (q : SemQueue τ υ) :
    (finish s q).semPending = s.semPending.filter fun x => x.sleeper ≠ q.sleeper := by
  have := unlinkQueue_semPending (tryAtomicSemop s q.sops q.undo q.pid).1 q
  rwa [tryAtomicSemop_frame.semPending] at this

theorem finish_sub (s : SemArray τ υ) (q : SemQueue τ υ) : ∀ x ∈ (finish s q).semPending, x ∈ s.semPending := by
  rw [finish_semPending]
  exact fun x hx => mem_of_mem_filter hx

theorem Scanning.finish {semnum : Option Nat} (ok : Scanning semnum s) (mem : q ∈ s.semPending)
    (here : ∀ i, semnum = some i → onlySem q.sops = some i) : Scanning semnum (finish s q) := by
  have frame : Frame s (tryAtomicSemop s q.sops q.undo q.pid).1 := tryAtomicSemop_frame
  have tried : Queues (tryAtomicSemop s q.sops q.undo q.pid).1 :=
    ok.queues.congr frame.semPending frame.simple frame.complexCount
  constructor
  · exact (tried.unlink (frame.semPending ▸ mem)).congr rfl rfl rfl
  · have range : InRange (tryAtomicSemop s q.sops q.undo q.pid).1.semval := tryAtomicSemop_inRange ok.range
    intro j
    rw [show (Sem.finish s q).semval j = _ from (unlinkQueue_sameAt _ q j).1]
    exact range j
  · intro i only
    simp [Sem.finish, wakeUpSemQueue, unlinkQueue, here i only, frame.complexCount, ok.single i only]
  · intro i only x hx other
    have old := finish_sub s q x hx
    obtain ⟨sop, eq⟩ := ok.queues.only_of_single (ok.single i only) old
    apply (ok.others i only x old other).congr
    intro sop' hsop'
    obtain ⟨sop₀, eq₀, rfl⟩ := onlySem_eq.mp (here i only)
    obtain rfl : sop' = sop := by simpa [eq] using hsop'
    apply finish_sameAt
    rintro - x hx
    obtain rfl : x = sop₀ := by simpa [eq₀] using hx
    exact .inl fun same => other (onlySem_eq.mpr ⟨sop', eq, same.symm⟩)

omit [DecidableEq τ] in
/-- The break loses nothing: from here on the list has decrements only, and the value is 0. -/
theorem Scanning.blocked_of_breaks {semnum : Option Nat} (ok : Scanning semnum s) (h : breaks s semnum q)
    {x : SemQueue τ υ} (mem : x ∈ s.semPending) (here : ∀ i, semnum = some i → onlySem x.sops = some i)
    (order : q.alter = true → x.alter = true) : Blocked s x := by
  cases semnum with
  | none => simp [breaks] at h
  | some i =>
    simp only [breaks, Option.any_some, Bool.and_eq_true, decide_eq_true_eq] at h
    obtain ⟨sop, eq, rfl⟩ := onlySem_eq.mp (here i rfl)
    obtain ⟨le, wait⟩ := ok.queues.waits x mem sop eq
    have ne : sop.semOp ≠ 0 := by
      have alter := ok.queues.alter x mem
      rw [order h.2, eq] at alter
      simpa using alter.symm
    have dec : sop.semOp < 0 := by omega
    rw [Blocked, tryAtomicSemop_result, eq]
    simp [performOps, h.1, dec, wouldBlock, wait]

theorem finish_sameTasks (s : SemArray τ υ) (q : SemQueue τ υ) : SameTasks s (finish s q) := by
  have frame : Frame s (tryAtomicSemop s q.sops q.undo q.pid).1 := tryAtomicSemop_frame
  unfold finish unlinkQueue
  split_ifs <;> exact ⟨frame.undoList, frame.refcnt, frame.alloc⟩

/-- What a scan leaves. When it does not have to start over, it changed no value. -/
structure Scanned (semnum : Option Nat) (s : SemArray τ υ) (walk : List (SemQueue τ υ))
    (r : SemArray τ υ × Bool) : Prop where
  scanning : Scanning semnum r.1
  tasks : SameTasks s r.1
  sub : ∀ x ∈ r.1.semPending, x ∈ s.semPending
  less : r.2 = true → r.1.semPending.length < s.semPending.length
  same : r.2 = false → ∀ j, SameAt s r.1 j
  blocked : r.2 = false → ∀ x ∈ walk, x ∈ r.1.semPending → Blocked r.1 x

section Scanned

variable {semnum : Option Nat} {walk : List (SemQueue τ υ)} {r : SemArray τ υ × Bool}

omit [DecidableEq τ] in
theorem Scanned.of_blocked (rest : Scanned semnum s walk r) (blocked : Blocked s q) :
    Scanned semnum s (q :: walk) r := by
  refine ⟨rest.scanning, rest.tasks, rest.sub, rest.less, rest.same, ?_⟩
  intro ended x hx pending
  rcases mem_cons.mp hx with rfl | later
  · exact blocked.congr fun sop _ => rest.same ended sop.semNum
  · exact rest.blocked ended x later pending

theorem finish_length (mem : q ∈ s.semPending) : (finish s q).semPending.length < s.semPending.length := by
  rw [finish_semPending]
  exact length_filter_lt_length_iff_exists.mpr ⟨q, mem, by simp⟩

theorem Scanned.of_finish (mem : q ∈ s.semPending) (rest : Scanned semnum (finish s q) walk r)
    (keep : ∀ j, SameAt s (finish s q) j) : Scanned semnum s (q :: walk) r := by
  constructor
  · exact rest.scanning
  · exact (finish_sameTasks s q).trans rest.tasks
  · exact fun x hx => finish_sub s q x (rest.sub x hx)
  · exact fun again => Nat.lt_trans (rest.less again) (finish_length mem)
  · exact fun ended j => (keep j).trans (rest.same ended j)
  · intro ended x hx left
    rcases mem_cons.mp hx with rfl | later
    · have gone := rest.sub x left
      rw [finish_semPending] at gone
      simp at gone
    · exact rest.blocked ended x later left

theorem scan_spec (ok : Scanning semnum s) (mem : ∀ x ∈ walk, x ∈ s.semPending)
    (nodup : (walk.map SemQueue.sleeper).Nodup) (here : ∀ i, semnum = some i → ∀ x ∈ walk, onlySem x.sops = some i)
    (order : walk.Pairwise fun x x' => x.alter = true → x'.alter = true) :
    Scanned semnum s walk (scan semnum s walk) := by
  induction walk generalizing s with
  | nil => exact ⟨ok, .refl s, fun _ hx => hx, by simp [scan], fun _ _ => ⟨rfl, fun _ => rfl⟩, by simp⟩
  | cons q walk ih =>
    have hq : q ∈ s.semPending := mem q (by simp)
    have hereq : ∀ i, semnum = some i → onlySem q.sops = some i := fun i h => here i h q (by simp)
    have hereWalk : ∀ i, semnum = some i → ∀ x ∈ walk, onlySem x.sops = some i :=
      fun i h x hx => here i h x (by simp [hx])
    obtain ⟨orderq, orderWalk⟩ := pairwise_cons.mp order
    obtain ⟨notMem, nodupWalk⟩ := nodup_cons.mp nodup
    rw [scan]
    dsimp only
    split_ifs with stop pos done
    · refine ⟨ok, .refl s, fun _ hx => hx, by simp, fun _ _ => ⟨rfl, fun _ => rfl⟩, ?_⟩
      intro _ x hx _
      apply ok.blocked_of_breaks stop (mem x hx) fun i h => here i h x hx
      rcases mem_cons.mp hx with rfl | later
      · exact id
      · exact orderq x later
    · rw [tryAtomicSemop_of_ne (by omega)]
      apply Scanned.of_blocked
      · exact ih ok (fun x hx => mem x (by simp [hx])) nodupWalk hereWalk orderWalk
      · exact tryAtomicSemop_pos pos
    · exact ⟨ok.finish hq hereq, finish_sameTasks s q, finish_sub s q, fun _ => finish_length hq, by simp, by simp⟩
    · apply Scanned.of_finish hq
      · apply ih (ok.finish hq hereq) _ nodupWalk hereWalk orderWalk
        intro x hx
        have : x.sleeper ≠ q.sleeper := fun same => notMem (same ▸ mem_map_of_mem hx)
        rw [finish_semPending, mem_filter]
        exact ⟨mem x (by simp [hx]), by simpa using this⟩
      · intro j
        apply finish_sameAt
        intro zero sop hsop
        have alter : q.alter = false := by
          cases h : q.alter with
          | false => rfl
          | true => exact absurd ⟨h, zero⟩ done
        rw [ok.queues.alter q hq, any_eq_false] at alter
        right
        simpa using alter sop hsop

theorem scan_pendingList (ok : Scanning semnum s) :
    Scanned semnum s (s.pendingList semnum) (scan semnum s (s.pendingList semnum)) ∧
      ∀ x ∈ s.semPending, x ∉ s.pendingList semnum → Blocked s x := by
  cases semnum with
  | none =>
    constructor
    · exact scan_spec ok (fun _ hx => hx) ok.queues.nodup (by simp) ok.queues.order
    · exact fun x hx notMem => absurd hx notMem
  | some i =>
    have list : s.pendingList (some i) = s.semPending.filter fun q => onlySem q.sops = some i :=
      ok.queues.simple i
    rw [list]
    have sub : (s.semPending.filter fun q => onlySem q.sops = some i).Sublist s.semPending :=
      filter_sublist
    constructor
    · apply scan_spec ok (fun _ hx => sub.subset hx) (ok.queues.nodup.sublist (sub.map _)) _
        (ok.queues.order.sublist sub)
      rintro j ⟨⟩ x hx
      simpa using of_mem_filter hx
    · intro x hx notMem
      apply ok.others i rfl x hx
      intro only
      exact notMem (mem_filter.mpr ⟨hx, by simpa using only⟩)

theorem scans_spec {n : Nat} (ok : Scanning semnum s) (enough : s.semPending.length < n) :
    Scanning semnum (scans semnum n s) ∧ SameTasks s (scans semnum n s) ∧
      (∀ x ∈ (scans semnum n s).semPending, x ∈ s.semPending) ∧
      ∀ x ∈ (scans semnum n s).semPending, Blocked (scans semnum n s) x := by
  induction n generalizing s with
  | zero => omega
  | succ n ih =>
    obtain ⟨scanned, others⟩ := scan_pendingList ok
    unfold scans
    generalize scan semnum s (s.pendingList semnum) = r at scanned
    obtain ⟨s', again⟩ := r
    cases again with
    | true =>
      have less := scanned.less rfl
      obtain ⟨done, tasks, sub, blocked⟩ := ih scanned.scanning (by omega)
      exact ⟨done, scanned.tasks.trans tasks, fun x hx => scanned.sub x (sub x hx), blocked⟩
    | false =>
      refine ⟨scanned.scanning, scanned.tasks, scanned.sub, ?_⟩
      intro x hx
      by_cases listed : x ∈ s.pendingList semnum
      · exact scanned.blocked rfl x listed hx
      · exact (others x (scanned.sub x hx) listed).congr fun sop _ => scanned.same rfl sop.semNum

/-- The queue after `update_queue`, if only semaphore `semnum` or its adjustments may have changed. -/
theorem updateQueue_spec (queues : Queues s) (range : InRange s.semval)
    (others : ∀ i, semnum = some i → ∀ x ∈ s.semPending, ∀ sop, x.sops = [sop] → sop.semNum ≠ i → Blocked s x) :
    Queues (updateQueue s semnum) ∧ InRange (updateQueue s semnum).semval ∧ SameTasks s (updateQueue s semnum) ∧
      (∀ x ∈ (updateQueue s semnum).semPending, x ∈ s.semPending) ∧
      ∀ x ∈ (updateQueue s semnum).semPending, Blocked (updateQueue s semnum) x := by
  have scanning : Scanning (if s.complexCount ≠ 0 then none else semnum) s := by
    split_ifs with complex
    · exact ⟨queues, range, by simp, by simp⟩
    have single : s.complexCount = 0 := by omega
    refine ⟨queues, range, fun _ _ => single, ?_⟩
    intro i only x hx other
    obtain ⟨sop, eq⟩ := queues.only_of_single single hx
    exact others i only x hx sop eq fun same => other (onlySem_eq.mpr ⟨sop, eq, same⟩)
  obtain ⟨done, rest⟩ := scans_spec scanning (Nat.lt_succ_self _)
  exact ⟨done.queues, done.range, rest⟩

end Scanned

end Sem
