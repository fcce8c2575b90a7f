/- Deadlock detection: owners never wait for each other in a circle. -/
import LinuxKernel.Foundation.Chase
import LinuxKernel.Fs.PosixLockRun

namespace PosixLock

open Relation Chase List

variable {ι ω : Type} [DecidableEq ι] [DecidableEq ω]

def WaitsFor (s : State ι ω) (o p : ω) : Prop :=
  ∃ w ∈ s.blocked, w.request.owner = o ∧ ∃ fl ∈ s.flock w.inode, fl.id = w.next ∧ fl.owner = p

/-- Each owner waits for at most one lock, and not more wait than the detection can follow. -/
structure Followable (s : State ι ω) : Prop where
  once : (s.blocked.map fun w => w.request.owner).Nodup
  few : s.blocked.length ≤ maxDeadlkIterations + 1

/-- The owner of the lock that an owner waits for. -/
def nextOwner (s : State ι ω) (o : ω) : Option ω := (whatOwnerIsWaitingFor s o).map (·.owner)

section Detection

variable {s : State ι ω}

omit [DecidableEq ι] in
theorem posixLocksDeadlockFrom_eq (caller : ω) (n : Nat) (o : ω) :
    posixLocksDeadlockFrom s caller n o = chase (nextOwner s) caller n o := by
  induction n generalizing o with
  | zero => rfl
  | succ n ih =>
    rw [posixLocksDeadlockFrom, chase, nextOwner]
    cases whatOwnerIsWaitingFor s o with
    | none => rfl
    | some block => simp only [Option.map_some, ih]

omit [DecidableEq ω] in
theorem eq_of_id_eq {locks : List (FileLock ω)} (nodup : (ids locks).Nodup) {a b : FileLock ω}
    (ha : a ∈ locks) (hb : b ∈ locks) (h : a.id = b.id) : a = b :=
  inj_on_of_nodup_map nodup ha hb h

theorem find?_key {α κ : Type} [DecidableEq κ] {key : α → κ} {l : List α} (nodup : (l.map key).Nodup)
    {x : α} (hx : x ∈ l) : (l.find? fun y => key y = key x) = some x := by
  cases found : l.find? fun y => key y = key x with
  | none => simpa using find?_eq_none.mp found x hx
  | some y =>
    have same : key y = key x := by simpa using find?_some found
    rw [inj_on_of_nodup_map nodup (mem_of_find?_eq_some found) hx same]

omit [DecidableEq ι] in
theorem nextOwner_eq_some (ok : StateOk s) (once : (s.blocked.map fun w => w.request.owner).Nodup)
    (o p : ω) : nextOwner s o = some p ↔ WaitsFor s o p := by
  unfold nextOwner whatOwnerIsWaitingFor WaitsFor
  simp only [Option.map_eq_some_iff, Option.bind_eq_some_iff]
  constructor
  · rintro ⟨fl, ⟨w, found, lock⟩, rfl⟩
    refine ⟨w, mem_of_find?_eq_some found, by simpa using find?_some found, fl,
      mem_of_find?_eq_some lock, by simpa using find?_some lock, rfl⟩
  · rintro ⟨w, hw, rfl, fl, hfl, next, rfl⟩
    refine ⟨fl, ⟨w, find?_key once hw, ?_⟩, rfl⟩
    rw [← next]
    exact find?_key (ok.lists w.inode).nodup hfl

omit [DecidableEq ι] in
theorem posixLocksDeadlock_iff (ok : StateOk s) (followable : Followable s)
    (acyclic : ∀ o, ¬TransGen (WaitsFor s) o o) (caller block : FileLock ω) :
    posixLocksDeadlock s caller block = true ↔ TransGen (WaitsFor s) block.owner caller.owner := by
  have same : (fun o p => nextOwner s o = some p) = WaitsFor s := by
    funext o p
    exact propext (nextOwner_eq_some ok followable.once o p)
  rw [posixLocksDeadlock, posixLocksDeadlockFrom_eq]
  constructor
  · intro h
    exact same ▸ chase_sound h
  · intro path
    rw [← same] at path acyclic
    have domain : ∀ o, nextOwner s o ≠ none → o ∈ s.blocked.map fun w => w.request.owner := by
      intro o h
      obtain ⟨p, hp⟩ := Option.ne_none_iff_exists'.mp h
      obtain ⟨w, hw, rfl, -⟩ := (nextOwner_eq_some ok followable.once o p).mp hp
      exact mem_map_of_mem hw
    exact chase_complete acyclic domain (by simpa using followable.few) path

end Detection

/-- A step after which the detection can still follow the waiters. -/
def FollowableStep (s s' : State ι ω) : Prop := Step s s' ∧ Followable s'

structure Acyclic (s : State ι ω) : Prop where
  ok : StateOk s
  followable : Followable s
  acyclic : ∀ o, ¬TransGen (WaitsFor s) o o

section Run

variable {s s' : State ι ω}

omit [DecidableEq ι] in
theorem waitsFor_mono (ok : StateOk s) (ok' : StateOk s') (wakes : Wakes s s')
    (sub : s'.blocked ⊆ s.blocked) : WaitsFor s' ≤ WaitsFor s := by
  rintro o p ⟨w, hw, owner, fl', hfl', next', rfl⟩
  obtain ⟨fl, hfl, next, -⟩ := ok.blocked w (sub hw)
  rcases wakes w.inode fl hfl with ⟨fl'', hfl'', wider⟩ | gone
  · have same : fl'' = fl' :=
      eq_of_id_eq (ok'.lists w.inode).nodup hfl'' hfl' ((wider.id.trans next).trans next'.symm)
    exact ⟨w, sub hw, owner, fl, hfl, next, by rw [← wider.owner, same]⟩
  · exact absurd next.symm (gone w hw)

omit [DecidableEq ι] in
theorem waitsFor_cons (ok : StateOk s) {r : FileLock ω} {i : ι} {fl : FileLock ω} (hfl : fl ∈ s.flock i) :
    WaitsFor { s with blocked := ⟨r, i, fl.id⟩ :: s.blocked } ≤
      addEdge (WaitsFor s) r.owner fl.owner := by
  rintro o p ⟨w, hw, rfl, fl', hfl', next, rfl⟩
  rcases mem_cons.mp hw with rfl | hw
  · right
    rw [eq_of_id_eq (ok.lists i).nodup hfl' hfl next]
    exact ⟨rfl, rfl⟩
  · exact .inl ⟨w, hw, rfl, fl', hfl', next, rfl⟩

theorem Acyclic.step (inv : Acyclic s) (step : FollowableStep s s') : Acyclic s' := by
  obtain ⟨step, followable⟩ := step
  obtain ⟨ok', wakes⟩ := step.keeps inv.ok
  refine ⟨ok', followable, fun o cycle => ?_⟩
  have fewer : s'.blocked ⊆ s.blocked → False := fun sub =>
    inv.acyclic o (TransGen.mono (waitsFor_mono inv.ok ok' wakes sub) o o cycle)
  cases step with
  | request i r newFl newFl2 admits =>
    rcases posixLockFile_cases s i r newFl newFl2 with
      ⟨ret, eq, -⟩ | ⟨fl, hfl, conflict, deadlock, eq⟩ | ⟨n, n2, -, -, -, -, eq⟩
    · rw [eq] at fewer
      exact fewer (List.Subset.refl _)
    · rw [eq] at cycle
      have other : r.lock.owner ≠ fl.owner := by
        intro same
        simp [posixLocksConflict, same] at conflict
      have no_path : ¬ReflTransGen (WaitsFor s) fl.owner r.lock.owner := by
        intro path
        rcases reflTransGen_iff_eq_or_transGen.mp path with same | path
        · exact other same
        · rw [(posixLocksDeadlock_iff inv.ok inv.followable inv.acyclic r.lock fl).mpr path] at deadlock
          cases deadlock
      rcases transGen_addEdge (TransGen.mono (waitsFor_cons inv.ok hfl) o o cycle) with path | ⟨to_a, from_b⟩
      · exact inv.acyclic o path
      · exact no_path (from_b.trans to_a)
    · rw [eq] at fewer
      exact fewer (filter_subset_self _)
  | interrupt id => exact fewer (filter_subset_self _)

end Run

theorem reachable_acyclic {s : State ι ω} (reach : Transition.Reachable Initial FollowableStep s) : Acyclic s := by
  refine reach.invariant Acyclic (fun s h => ?_) fun s t inv step => inv.step step
  have none : ∀ o p, ¬WaitsFor s o p := by
    rintro o p ⟨w, hw, -⟩
    rw [h.2] at hw
    cases hw
  refine ⟨reachable_ok (.start h), ⟨by simp [h.2], by simp [h.2]⟩, fun o cycle => ?_⟩
  obtain ⟨p, edge, -⟩ := TransGen.head'_iff.mp cycle
  exact none o p edge

/-- As long as each owner waits for one lock and not more than `MAX_DEADLK_ITERATIONS + 1` wait, there is
no circle of waiting owners, and the detection reports exactly the requests that would close one. -/
theorem waitsFor_acyclic {s : State ι ω} (reach : Transition.Reachable Initial FollowableStep s) :
    (∀ o, ¬TransGen (WaitsFor s) o o) ∧ ∀ request blocker : FileLock ω, posixLocksConflict request blocker = true →
      (posixLocksDeadlock s request blocker = true ↔
        TransGen (fun o p => WaitsFor s o p ∨ (o = request.owner ∧ p = blocker.owner))
          request.owner request.owner) := by
  have inv := reachable_acyclic reach
  refine ⟨inv.acyclic, fun request blocker conflict => ?_⟩
  have other : request.owner ≠ blocker.owner := by
    intro same
    simp [posixLocksConflict, same] at conflict
  have closes := @cycle_addEdge _ (WaitsFor s) request.owner blocker.owner inv.acyclic
  rw [posixLocksDeadlock_iff inv.ok inv.followable inv.acyclic]
  refine Iff.trans ?_ closes.symm
  rw [reflTransGen_iff_eq_or_transGen]
  simp [other]

theorem waitsFor_acyclic_waiting : TransGen (fun o p => WaitsFor waiting o p ∨ (o = 0 ∧ p = 7)) 0 0 := by
  have reach : Transition.Reachable Initial FollowableStep waiting := by
    have start : Transition.Reachable Initial FollowableStep (⟨fun _ => [], []⟩ : State Unit Nat) :=
      .start ⟨fun _ => rfl, rfl⟩
    refine (start.next (t := written) ⟨?_, ?_⟩).next ⟨?_, ?_⟩
    · refine .request _ _ _ _ _ ⟨⟨by decide, by decide, by decide⟩, ?_, ?_⟩
      · exact fun _ => not_mem_nil
      · exact fun _ => ⟨by simp, by simp, by simp⟩
    · exact ⟨by decide +kernel, by decide +kernel⟩
    · exact .request _ _ _ _ _ (written_admits ⟨by decide, by decide, by decide⟩ (by decide))
    · exact ⟨by decide +kernel, by decide +kernel⟩
  exact ((waitsFor_acyclic reach).2 ⟨100, 0, .wrlck, 30, 40⟩ ⟨5, 7, .wrlck, 30, 40⟩ (by decide)).mp
    (by decide +kernel)

end PosixLock
