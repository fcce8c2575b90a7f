/- What every task of a reader/writer semaphore contributes to its counter and its wait list. -/
import LinuxKernel.Foundation.Census
import LinuxKernel.Lib.Rwsem
import Mathlib.Data.List.Nodup

namespace Rwsem

open Census Function List Waiter BitVec

/-- The counter with `a` active tasks and `w` that wait or write. -/
def word (a w : ℕ) : BitVec 32 :=
  BitVec.ofInt 32 (a - 65536 * w)

theorem word_add {a w a' w' : ℕ} {d : Int} (eq : (a : Int) - 65536 * w + d = a' - 65536 * w') :
    word a w + BitVec.ofInt 32 d = word a' w' := by
  unfold word
  rw [← ofInt_add, eq]

section

variable (a w : ℕ)
include a w

theorem word_add_active : word a w + activeBias = word (a + 1) w :=
  word_add (d := 1) (by push_cast; omega)

theorem word_sub_active : word (a + 1) w - activeBias = word a w := by
  rw [← word_add_active, add_sub_cancel]

theorem word_add_write : word a w + activeWriteBias = word (a + 1) (w + 1) := by
  rw [show activeWriteBias = BitVec.ofInt 32 (-65535) by decide]
  exact word_add (by push_cast; omega)

theorem word_add_waiting : word a w + waitingBias = word a (w + 1) := by
  rw [show waitingBias = BitVec.ofInt 32 (-65536) by decide]
  exact word_add (by push_cast; omega)

theorem word_adjust_read : word (a + 1) w + adjustment .read = word a (w + 1) := by
  rw [show adjustment .read = BitVec.ofInt 32 (-65537) by decide]
  exact word_add (by push_cast; omega)

theorem word_adjust_write : word (a + 1) w + adjustment .write = word a w := by
  rw [show adjustment .write = BitVec.ofInt 32 (-1) by decide]
  exact word_add (by push_cast; omega)

end

theorem word_add_woken (a w m : ℕ) :
    word a (w + m) + BitVec.ofNat 32 m * (activeBias - waitingBias) = word (a + m) w := by
  have product : BitVec.ofNat 32 m * (activeBias - waitingBias) = BitVec.ofInt 32 (m * 65537) := by
    rw [ofInt_mul]
    rfl
  rw [product]
  exact word_add (by push_cast; omega)

/-- Neither part of the counter overflows into the other. -/
structure Fits (a w : ℕ) : Prop where
  active : a < 2 ^ 16
  waits : w < 2 ^ 15

theorem Fits.toInt_word {a w : ℕ} (fits : Fits a w) : (word a w).toInt = a - 65536 * w := by
  have := fits.active
  have := fits.waits
  unfold word
  rw [toInt_ofInt]
  apply Int.bmod_eq_of_le <;> omega

theorem Fits.mask_word {a w : ℕ} (fits : Fits a w) : word a w &&& activeMask = 0 ↔ a = 0 := by
  have small := fits.active
  have value : (word a w &&& activeMask).toNat = a := by
    unfold word activeMask
    rw [toNat_and, toNat_ofInt, show (0x0000ffff : BitVec 32).toNat = 2 ^ 16 - 1 from rfl,
      Nat.and_two_pow_sub_one_eq_mod]
    omega
  rw [← toNat_inj, value]
  rfl

theorem Fits.word_inj {a w a' w' : ℕ} (fits : Fits a w) (fits' : Fits a' w') (eq : word a w = word a' w') :
    a = a' ∧ w = w' := by
  have value := fits.toInt_word
  rw [eq, fits'.toInt_word] at value
  have := fits.active
  have := fits'.active
  omega

inductive Quantity where
  /-- The active part of the counter. -/
  | active
  /-- The waiting part of the counter. -/
  | waits
  | holds (k : Kind)
  /-- Wakers that have taken the active part from 0 to 1 and look at the front waiter. -/
  | front
  /-- Wakers in the middle of granting a run of readers. -/
  | grants
  /-- Tasks that are about to try to wake the front waiter. -/
  | pending

def Pc.weight : Quantity → Pc → ℕ
  | .active, .holding _ | .active, .failed _ | .active, .queuing _ | .active, .downgraded => 1
  | .active, .waking true _ | .active, .waking false .undo | .active, .waking false .front => 1
  | .waits, .holding .write | .waits, .failed .write | .waits, .queuing .write => 1
  | .holds k, p => (p.holds k).toNat
  | .front, .waking false .front => 1
  | .grants, .waking _ (.granting (_ + 1)) => 1
  | .pending, .released | .pending, .waking false .start => 1
  | _, _ => 0

def Waiter.weight : Quantity → Waiter → ℕ
  | .active, .counted | .active, .granted _ => 1
  | .waits, .queued _ | .waits, .granted .write => 1
  | .holds k, w => (w.holds k).toNat
  | _, _ => 0

variable {T : Type} [Fintype T]

def State.sum (s : State T) (q : Quantity) : ℕ :=
  total (Pc.weight q) s.pc + total (weight q) s.waiter

theorem holds_le_active (s : State T) :
    s.sum (.holds .read) + s.sum (.holds .write) + s.sum .front ≤ s.sum .active := by
  have pc : total (Pc.weight (.holds .read)) s.pc + total (Pc.weight (.holds .write)) s.pc +
      total (Pc.weight .front) s.pc ≤ total (Pc.weight .active) s.pc := by
    rw [← total_add, ← total_add]
    apply total_mono
    intro p
    rcases p with _ | (_ | _) | _ | _ | _ | _ | _ | _ | _ | ⟨(_ | _), (_ | _ | _ | _ | _)⟩ <;>
      simp [Pc.weight, Pc.holds]
  have waiter : total (weight (.holds .read)) s.waiter + total (weight (.holds .write)) s.waiter +
      total (weight .front) s.waiter ≤ total (weight .active) s.waiter := by
    rw [← total_add, ← total_add]
    apply total_mono
    intro w
    rcases w with _ | _ | _ | (_ | _) <;> simp [weight, holds]
  unfold State.sum
  omega

theorem write_le_waits (s : State T) : s.sum (.holds .write) ≤ s.sum .waits := by
  apply Nat.add_le_add
  · apply total_mono
    intro p
    rcases p with _ | (_ | _) | _ | _ | _ | _ | _ | _ | _ | ⟨(_ | _), _⟩ <;> simp [Pc.weight, Pc.holds]
  · apply total_mono
    intro w
    rcases w with _ | _ | _ | (_ | _) <;> simp [weight, holds]

theorem weight_active_le (p : Pc) : p.weight .active ≤ 1 := by
  rcases p with _ | _ | _ | _ | _ | _ | _ | _ | _ | ⟨(_ | _), (_ | _ | _ | _ | _)⟩ <;> simp [Pc.weight]

/-- A place where the task may have a `struct rwsem_waiter` of its own. -/
def Pc.mayWait : Pc → Prop
  | .sleeping | .waking false _ => True
  | _ => False

theorem weight_waits_le {p : Pc} {w : Waiter} (asleep : w ≠ .none → p.mayWait) :
    p.weight .waits + w.weight .waits ≤ 1 := by
  rcases w with _ | _ | _ | (_ | _)
  · rcases p with _ | (_ | _) | _ | _ | (_ | _) | (_ | _) | _ | _ | _ | _ <;> simp [Pc.weight, weight]
  all_goals
    have may := asleep (by simp)
    rcases p with _ | _ | _ | _ | _ | _ | _ | _ | _ | ⟨(_ | _), _⟩ <;>
      first
        | exact absurd may id
        | simp [Pc.weight, weight]

theorem fits_of_few (few : Fintype.card T < 2 ^ 15) {s : State T}
    (asleep : ∀ t, s.waiter t ≠ .none → (s.pc t).mayWait) : Fits (s.sum .active) (s.sum .waits) where
  active := by
    have pc : total (Pc.weight .active) s.pc ≤ Fintype.card T := total_le_card fun t => weight_active_le _
    have waiter : total (weight .active) s.waiter ≤ Fintype.card T := by
      apply total_le_card
      intro t
      rcases s.waiter t with _ | _ | _ | _ <;> simp [weight]
    unfold State.sum
    omega
  waits := by
    have sum : s.sum .waits ≤ Fintype.card T := by
      unfold State.sum total
      rw [← Finset.sum_add_distrib]
      exact total_le_card (f := id) fun t =>
        weight_waits_le (asleep t)
    omega

section Changes

variable [DecidableEq T] (s : State T) (t : T)

theorem sum_goto (p : Pc) (q : Quantity) : (s.goto t p).sum q + (s.pc t).weight q = s.sum q + p.weight q := by
  have := total_update (Pc.weight q) s.pc t p
  unfold State.sum State.goto
  dsimp only
  omega

theorem sum_setWaiter (w : Waiter) (q : Quantity) :
    (s.setWaiter t w).sum q + (s.waiter t).weight q = s.sum q + w.weight q := by
  have := total_update (weight q) s.waiter t w
  unfold State.sum State.setWaiter
  dsimp only
  omega

end Changes

def Waiter.listed : Waiter → Bool
  | .queued _ | .counted => true
  | _ => false

/-- The wait list while `m` counted readers are still to be granted. -/
structure Queue (l : List T) (w : T → Waiter) (m : ℕ) : Prop where
  nodup : l.Nodup
  mem : ∀ t, t ∈ l ↔ (w t).listed = true
  len : m ≤ l.length
  counted : ∀ t ∈ l.take m, w t = .counted
  queued : ∀ t ∈ l.drop m, ∃ k, w t = .queued k

namespace Queue

variable {l : List T} {w : T → Waiter} {m : ℕ} {t : T}

omit [Fintype T]

theorem run_read (h : Queue (t :: l) w 0) (front : w t ≠ .queued .write) :
    ∀ u ∈ (t :: l).take (readerRun w (t :: l)), w u = .queued .read := by
  intro u mem
  have whole := prefix_iff_eq_take.mp (l.takeWhile_prefix fun u => decide (w u = .queued .read))
  rw [readerRun, Nat.add_comm, take_succ_cons, ← whole] at mem
  rcases mem_cons.mp mem with rfl | mem
  · obtain ⟨k, eq⟩ := h.queued u mem_cons_self
    cases k with
    | read => exact eq
    | write => exact absurd eq front
  · exact of_decide_eq_true (all_eq_true.mp all_takeWhile u mem)

theorem run_le (w : T → Waiter) (l : List T) : readerRun w l ≤ l.length := by
  cases l with
  | nil => exact Nat.le_refl 0
  | cons t l =>
    have := (l.takeWhile_prefix fun u => decide (w u = .queued .read)).length_le
    rw [readerRun, length_cons]
    omega

variable [DecidableEq T]

theorem push (h : Queue l w 0) (out : w t = .none) (k : Kind) : Queue (l ++ [t]) (update w t (.queued k)) 0 where
  nodup := by
    have notMem : t ∉ l := by
      rw [h.mem, out]
      exact Bool.false_ne_true
    exact nodup_append.mpr ⟨h.nodup, nodup_singleton t, fun u mem v single same =>
      notMem (by rwa [mem_singleton.mp single, ← same] at *)⟩
  mem u := by
    by_cases same : u = t
    · simp [same, listed]
    · simp [same, h.mem]
  len := Nat.zero_le _
  counted := nofun
  queued u mem := by
    by_cases same : u = t
    · exact ⟨k, by rw [same, update_self]⟩
    · rw [drop_zero, mem_append, mem_singleton, or_iff_left same] at mem
      rw [update_of_ne same]
      exact h.queued u mem

theorem pop (h : Queue (t :: l) w m) (k : Kind) : Queue l (update w t (.granted k)) (m - 1) := by
  have out := (nodup_cons.mp h.nodup).1
  have other : ∀ u ∈ l, update w t (.granted k) u = w u := by
    intro u mem
    rw [update_of_ne]
    rintro rfl
    exact out mem
  refine ⟨(nodup_cons.mp h.nodup).2, fun u => ?_, ?_, fun u mem => ?_, fun u mem => ?_⟩
  · by_cases same : u = t
    · simp [same, listed, out]
    · have mem := h.mem u
      rw [mem_cons, or_iff_right same] at mem
      rw [update_of_ne same, mem]
  · have len := h.len
    rw [length_cons] at len
    omega
  · rw [other u (mem_of_mem_take mem)]
    cases m with
    | zero => exact absurd mem (by simp)
    | succ m => exact h.counted u (mem_cons_of_mem t mem)
  · rw [other u (mem_of_mem_drop mem)]
    cases m with
    | zero => exact h.queued u (mem_cons_of_mem t mem)
    | succ m => exact h.queued u mem

theorem drop (h : Queue l w m) {k : Kind} (granted : w t = .granted k) : Queue l (update w t .none) m := by
  have out : t ∉ l := by
    rw [h.mem, granted]
    exact Bool.false_ne_true
  have other : ∀ u ∈ l, update w t .none u = w u := by
    intro u mem
    rw [update_of_ne]
    rintro rfl
    exact out mem
  refine ⟨h.nodup, fun u => ?_, h.len, fun u mem => ?_, fun u mem => ?_⟩
  · by_cases same : u = t
    · simp [same, listed, out]
    · rw [update_of_ne same, h.mem]
  · rw [other u (mem_of_mem_take mem), h.counted u mem]
  · rw [other u (mem_of_mem_drop mem)]
    exact h.queued u mem

theorem mark (h : Queue l w 0) (le : m ≤ l.length) : Queue l (fun u => if u ∈ l.take m then .counted else w u) m where
  nodup := h.nodup
  mem u := by
    by_cases mem : u ∈ l.take m
    · rw [if_pos mem]
      exact ⟨fun _ => rfl, fun _ => mem_of_mem_take mem⟩
    · rw [if_neg mem]
      exact h.mem u
  len := le
  counted u mem := if_pos mem
  queued u mem := by
    have apart : u ∉ l.take m := by
      intro mem'
      have split := h.nodup
      rw [← take_append_drop m l] at split
      exact disjoint_of_nodup_append split mem' mem
    rw [if_neg apart]
    exact h.queued u (mem_of_mem_drop mem)

end Queue

end Rwsem
