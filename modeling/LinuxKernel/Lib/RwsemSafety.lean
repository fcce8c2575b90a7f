/- A reader/writer semaphore excludes writers and loses no wakeup, in every interleaving. -/
import LinuxKernel.Foundation.Transition
import LinuxKernel.Lib.RwsemCount

namespace Rwsem

open Census Function

variable {T : Type} [Fintype T]

def Pc.locked : Pc → Bool
  | .queuing _ | .waking _ _ => true
  | _ => false

/-- How many counted readers the waker has still to grant. -/
def Pc.loop : Pc → ℕ
  | .waking _ (.granting m) => m
  | _ => 0

/-- The waker takes the list to be non-empty. -/
def Pc.needsQueue : Pc → Bool
  | .waking _ .start | .waking _ .undo | .waking _ .front => true
  | _ => false

/-- With `downgrading` set the active part is not tried. -/
def Pc.plain : Pc → Bool
  | .waking true .undo | .waking true .front => false
  | _ => true

def State.loop (s : State T) : ℕ :=
  match s.waitLock with
  | none => 0
  | some t => (s.pc t).loop

/-- The counter is the sum of the contributions, and lock, list and tasks agree. -/
structure Books (s : State T) : Prop where
  count : s.count = word (s.sum .active) (s.sum .waits)
  asleep : ∀ t, s.waiter t ≠ .none → (s.pc t).mayWait
  lock : ∀ t, (s.pc t).locked = true ↔ s.waitLock = some t
  queue : Queue s.waitList s.waiter s.loop
  needs : ∀ t, (s.pc t).needsQueue = true → s.waitList ≠ []
  plain : ∀ t, (s.pc t).plain = true

/-- A writer is alone, nobody holds the semaphore while a waker looks at the front waiter, and someone
is active or about to wake the front if there is one. -/
structure Safe (s : State T) : Prop where
  writer : s.sum (.holds .write) ≤ 1
  alone : 0 < s.sum (.holds .write) → s.sum (.holds .read) + s.sum .front + s.sum .grants = 0
  front : 0 < s.sum .front → s.sum (.holds .read) = 0
  wake : s.waitList ≠ [] → 0 < s.sum .active + s.sum .pending

variable {s s' : State T} {t : T} {p : Pc}

theorem locked_of_needsQueue (needs : p.needsQueue = true) : p.locked = true := by
  cases p with
  | waking d pt => rfl
  | _ => exact Bool.noConfusion needs

theorem plain_of_not_locked (free : p.locked = false) : p.plain = true := by
  cases p with
  | waking d pt => exact Bool.noConfusion free
  | _ => rfl

variable {q : Quantity} {p₀ : Pc} {a : ℕ}

/-- The list as the task that has `wait_lock` finds it. -/
theorem Books.queue_at (b : Books s) (place : s.pc t = p) (locked : p.locked = true) :
    Queue s.waitList s.waiter p.loop := by
  have loop : s.loop = p.loop := by
    unfold State.loop
    rw [(b.lock t).mp (place ▸ locked)]
    exact congrArg Pc.loop place
  rw [← loop]
  exact b.queue

theorem Books.not_mine (b : Books s) (free : (s.pc t).locked = false) : s.waitLock ≠ some t := by
  rw [Ne, ← b.lock t, free]
  exact Bool.false_ne_true

theorem Books.no_waiter (b : Books s) (not : ¬ (s.pc t).mayWait) : s.waiter t = .none := by
  by_contra awake
  exact not (b.asleep t awake)

theorem exists_place (none : ∀ w : Waiter, w.weight q = 0) (pos : 0 < s.sum q) :
    ∃ t, 0 < (s.pc t).weight q := by
  unfold State.sum at pos
  rw [total_eq_zero fun t => none (s.waiter t)] at pos
  exact exists_of_total_pos pos

theorem le_sum_waiter (s : State T) (u : T) (q : Quantity) : (s.waiter u).weight q ≤ s.sum q :=
  (le_total (Waiter.weight q) s.waiter u).trans (Nat.le_add_left _ _)

theorem Books.waits_of_front (b : Books s) (pos : 0 < s.sum .front) : 0 < s.sum .waits := by
  obtain ⟨t, pos⟩ := exists_place (fun w => by cases w <;> rfl) pos
  have at_front : s.pc t = .waking false .front := by
    revert pos
    rcases s.pc t with _ | _ | _ | _ | _ | _ | _ | _ | _ | ⟨(_ | _), (_ | _ | _ | _ | _)⟩ <;> simp [Pc.weight]
  obtain ⟨u, rest, eq⟩ := List.exists_cons_of_ne_nil (b.needs t (by rw [at_front]; rfl))
  obtain ⟨k, waiting⟩ := (b.queue_at at_front rfl).queued u (by rw [eq]; exact List.mem_cons_self)
  have own := le_sum_waiter s u .waits
  rw [waiting] at own
  exact own

theorem Books.active_of_grants (b : Books s) (pos : 0 < s.sum .grants) : 0 < s.sum .active := by
  obtain ⟨t, pos⟩ := exists_place (fun w => by cases w <;> rfl) pos
  have grants : ∃ d m, s.pc t = .waking d (.granting (m + 1)) := by
    revert pos
    rcases s.pc t with _ | _ | _ | _ | _ | _ | _ | _ | _ | ⟨_, (_ | _ | _ | (_ | _) | _)⟩ <;> simp [Pc.weight]
  obtain ⟨d, m, grants⟩ := grants
  have queue := b.queue_at grants rfl
  obtain ⟨u, rest, eq⟩ := List.exists_cons_of_ne_nil (l := s.waitList) (by
    intro nil
    have len := queue.len
    rw [nil] at len
    exact Nat.not_succ_le_zero m len)
  have own := le_sum_waiter s u .active
  rw [queue.counted u (by rw [eq]; exact List.mem_cons_self)] at own
  exact own

theorem Safe.relax (safe : Safe s) {old new : Quantity → ℕ} (eq : ∀ q, s'.sum q + old q = s.sum q + new q)
    (holds : ∀ k, new (.holds k) ≤ old (.holds k)) (front : new .front ≤ old .front)
    (grants : new .grants ≤ old .grants)
    (wake : s'.waitList ≠ [] → 0 < s'.sum .active + s'.sum .pending) : Safe s' := by
  have := eq (.holds .read)
  have := eq (.holds .write)
  have := eq .front
  have := eq .grants
  have := holds .read
  have := holds .write
  have := safe.writer
  have := safe.alone
  have := safe.front
  exact ⟨by omega, by omega, by omega, wake⟩

theorem le_sum (place : s.pc t = p) (q : Quantity) : p.weight q ≤ s.sum q :=
  place ▸ (le_total (Pc.weight q) s.pc t).trans (Nat.le_add_right _ _)

theorem Books.queue_counts (b : Books s) (queue : s.waitList ≠ []) : 0 < s.sum .active ∨ 0 < s.sum .waits := by
  obtain ⟨u, rest, eq⟩ := List.exists_cons_of_ne_nil queue
  have listed := (b.queue.mem u).mp (by rw [eq]; exact List.mem_cons_self)
  have active := le_sum_waiter s u .active
  have waits := le_sum_waiter s u .waits
  cases h : s.waiter u with
  | queued k =>
    rw [h] at waits
    exact .inr waits
  | counted =>
    rw [h] at active
    exact .inl active
  | none | granted k =>
    rw [h] at listed
    exact Bool.noConfusion listed

theorem exists_sum (place : s.pc t = p) (one : p.weight q = 1) : ∃ a, s.sum q = a + 1 :=
  ⟨s.sum q - 1, (Nat.sub_add_cancel (one ▸ le_sum place q)).symm⟩

theorem Safe.of_no_writer (write : s.sum (.holds .write) = 0) (front : s.sum .front = 0)
    (active : 0 < s.sum .active) :
    Safe s :=
  ⟨by omega, by omega, by omega, fun _ => Nat.add_pos_left active _⟩

structure Inv (s : State T) : Prop where
  books : Books s
  safe : Safe s

theorem Safe.congr (safe : Safe s) (sums : ∀ q, s'.sum q = s.sum q) (list : s'.waitList = s.waitList) : Safe s' := by
  have eq : ∀ q, s'.sum q + (fun _ : Quantity => 0) q = s.sum q + (fun _ : Quantity => 0) q := sums
  refine safe.relax eq (fun k => Nat.le_refl 0) (Nat.le_refl 0) (Nat.le_refl 0) fun queue => ?_
  rw [sums, sums]
  exact safe.wake (list ▸ queue)

theorem Books.mayWait_waking (b : Books s) {d : Bool} {pt pt' : Point} (waking : s.pc t = .waking d pt)
    (awake : s.waiter t ≠ .none) : (Pc.waking d pt').mayWait := by
  have may := b.asleep t awake
  rw [waking] at may
  cases d with
  | false => trivial
  | true => exact may.elim

theorem holds_false_of_mayWait {k : Kind} (may : p.mayWait) : p.holds k = false := by
  cases p with
  | sleeping => rfl
  | waking d pt =>
    cases d with
    | false => rfl
    | true => exact may.elim
  | _ => exact may.elim

theorem Books.holds_once (b : Books s) (k : Kind) (t : T) :
    (s.pc t).weight (.holds k) + (s.waiter t).weight (.holds k) = if Holds s k t then 1 else 0 := by
  have once : ∀ a b : Bool, (b = true → a = false) → a.toNat + b.toNat = if (a || b) = true then 1 else 0 := by
    decide
  refine (once ((s.pc t).holds k) ((s.waiter t).holds k) fun granted => ?_).trans (if_congr Iff.rfl rfl rfl)
  have awake : s.waiter t ≠ .none := by
    intro none
    rw [none] at granted
    exact Bool.noConfusion granted
  exact holds_false_of_mayWait (b.asleep t awake)

theorem Books.holders_eq (b : Books s) (k : Kind) : holders s k = s.sum (.holds k) := by
  unfold State.sum total holders
  rw [← Finset.sum_add_distrib, Finset.card_filter]
  exact Finset.sum_congr rfl fun t _ => (b.holds_once k t).symm

theorem Books.queued_of_quiet (b : Books s) (quiet : Quiet s) {t : T} (mem : t ∈ s.waitList) :
    ∃ k, s.waiter t = .queued k := by
  have free : s.waitLock = none := by
    cases own : s.waitLock with
    | none => rfl
    | some u =>
      have locked := (b.lock u).mpr own
      rcases quiet u with place | place | ⟨k, place⟩
      all_goals
        rw [place] at locked
        exact Bool.noConfusion locked
  have queue := b.queue
  have zero : s.loop = 0 := by
    unfold State.loop
    rw [free]
  rw [zero] at queue
  exact queue.queued t mem

theorem Inv.init : Inv (initRwsem T) := by
  have zero : ∀ q, (initRwsem T).sum q = 0 := by
    intro q
    unfold State.sum
    rw [total_eq_zero fun _ => by cases q <;> rfl, total_eq_zero fun _ => by cases q <;> rfl]
  refine ⟨⟨?_, fun _ awake => absurd rfl awake, fun _ => ⟨nofun, nofun⟩, ?_, fun _ => nofun, fun _ => rfl⟩, ?_⟩
  · rw [zero, zero]
    exact (by decide : (0 : BitVec 32) = word 0 0)
  · exact ⟨List.nodup_nil, fun _ => ⟨nofun, nofun⟩, Nat.le_refl 0, nofun, nofun⟩
  · exact ⟨by rw [zero]; decide, by rw [zero]; exact nofun, by rw [zero]; exact nofun, fun some => absurd rfl some⟩

variable [DecidableEq T]

theorem sum_goto_eq (place : s.pc t = p₀)
    (h : s.sum q + p.weight q = a + p₀.weight q) : (s.goto t p).sum q = a := by
  have := sum_goto s t p q
  rw [place] at this
  omega

namespace Books

theorem of_step (b : Books s) (pc : s'.pc = update s.pc t p)
    (count : s'.count = word (s'.sum .active) (s'.sum .waits))
    (own : s'.waiter t ≠ .none → p.mayWait) (others : ∀ u, u ≠ t → s'.waiter u ≠ .none → s.waiter u ≠ .none)
    (lock : p.locked = true ↔ s'.waitLock = some t)
      (locks : ∀ u, u ≠ t → (s'.waitLock = some u ↔ s.waitLock = some u))
    (queue : Queue s'.waitList s'.waiter s'.loop) (needs : p.needsQueue = true → s'.waitList ≠ [])
    (plain : p.plain = true) (list : s'.waitList = s.waitList ∨ s.waitLock = some t) : Books s' := by
  have self : s'.pc t = p := by rw [pc, update_self]
  have other : ∀ u, u ≠ t → s'.pc u = s.pc u := fun u ne => by rw [pc, update_of_ne ne]
  refine ⟨count, fun u awake => ?_, fun u => ?_, queue, fun u h => ?_, fun u => ?_⟩
  · by_cases same : u = t
    · subst same
      rw [self]
      exact own awake
    · rw [other u same]
      exact b.asleep u (others u same awake)
  · by_cases same : u = t
    · subst same
      rw [self]
      exact lock
    · rw [other u same, locks u same]
      exact b.lock u
  · by_cases same : u = t
    · subst same
      rw [self] at h
      exact needs h
    rw [other u same] at h
    rcases list with keep | mine
    · rw [keep]
      exact b.needs u h
    · have theirs := (b.lock u).mp (locked_of_needsQueue h)
      rw [mine] at theirs
      exact absurd (Option.some.inj theirs).symm same
  · by_cases same : u = t
    · rw [same, self]
      exact plain
    · rw [other u same]
      exact b.plain u

theorem loop_outside (b : Books s) (free : (s.pc t).locked = false) (p : Pc) : (s.goto t p).loop = s.loop := by
  unfold State.loop State.goto
  cases own : s.waitLock with
  | none => rfl
  | some u =>
    have other : u ≠ t := by
      rintro rfl
      exact b.not_mine free own
    simp [update_of_ne other]

theorem outside (b : Books s) {c : BitVec 32} {w : ℕ} (place : s.pc t = p₀)
    (active : s.sum .active + p.weight .active = a + p₀.weight .active)
    (waits : s.sum .waits + p.weight .waits = w + p₀.weight .waits) (count : c = word a w)
    (free : p₀.locked = false) (locked : p.locked = false) (awake : ¬ p₀.mayWait) :
    Books ({ s with count := c }.goto t p) := by
  subst place
  refine b.of_step rfl (count.trans ?_) (fun h => absurd (b.asleep t h) awake) (fun u _ => id) ?_ (fun u _ => Iff.rfl)
    ((congrArg (Queue s.waitList s.waiter) (b.loop_outside free p)).mpr b.queue) ?_
      (plain_of_not_locked locked) (.inl rfl)
  · exact congrArg₂ word (sum_goto_eq rfl active).symm (sum_goto_eq rfl waits).symm
  · rw [locked]
    exact ⟨nofun, fun mine => absurd mine (b.not_mine free)⟩
  · intro needs
    rw [locked_of_needsQueue needs] at locked
    exact Bool.noConfusion locked

theorem inside (b : Books s) (mine : (s.pc t).locked = true) (pc : s'.pc = update s.pc t p)
    (lock : s'.waitLock = s.waitLock) (locked : p.locked = true)
    (count : s'.count = word (s'.sum .active) (s'.sum .waits))
    (own : s'.waiter t ≠ .none → p.mayWait) (others : ∀ u, u ≠ t → s'.waiter u ≠ .none → s.waiter u ≠ .none)
    (queue : Queue s'.waitList s'.waiter p.loop) (needs : p.needsQueue = true → s'.waitList ≠ [])
    (plain : p.plain = true) : Books s' := by
  have holder := (b.lock t).mp mine
  have loop : s'.loop = p.loop := by
    unfold State.loop
    rw [lock, holder, pc]
    simp
  refine b.of_step pc count own others ?_ (fun u _ => by rw [lock]) (by rw [loop]; exact queue) needs plain
    (.inr holder)
  rw [locked, lock, holder]
  exact ⟨fun _ => rfl, fun _ => rfl⟩

end Books

theorem sum_goto_pos (s : State T) (t : T) (pos : 0 < p.weight q) : 0 < (s.goto t p).sum q := by
  have own := le_total (Pc.weight q) (s.goto t p).pc t
  rw [show (s.goto t p).pc t = p from update_self ..] at own
  exact Nat.lt_of_lt_of_le pos (own.trans (Nat.le_add_right _ _))

/-- A change of place and counter to a place where the task holds nothing. -/
theorem Safe.go (safe : Safe s) (t : T) (c : BitVec 32)
    (wake : s.waitList ≠ [] → 0 < (s.goto t p).sum .active + (s.goto t p).sum .pending)
    (calm : p.weight (.holds .read) + p.weight (.holds .write) + p.weight .front + p.weight .grants = 0) :
    Safe ({ s with count := c }.goto t p) :=
  safe.relax (sum_goto s t p) (fun k => by cases k <;> omega) (by omega) (by omega) wake

theorem Safe.takeRead (b : Books s) (free : s.sum .waits = 0) (t : T) (c : BitVec 32) :
    Safe ({ s with count := c }.goto t (.holding .read)) := by
  have write : _ = s.sum (.holds .write) + 0 := sum_goto { s with count := c } t (.holding .read) (.holds .write)
  have front : _ = s.sum .front + 0 := sum_goto { s with count := c } t (.holding .read) .front
  have := write_le_waits s
  have := b.waits_of_front
  exact .of_no_writer (by omega) (by omega) (sum_goto_pos _ t (by decide))

theorem Safe.takeWrite (b : Books s) (free : s.sum .active = 0) (t : T) (c : BitVec 32) :
    Safe ({ s with count := c }.goto t (.holding .write)) := by
  have write : _ = s.sum (.holds .write) + 1 := sum_goto { s with count := c } t (.holding .write) (.holds .write)
  have read : _ = s.sum (.holds .read) + 0 := sum_goto { s with count := c } t (.holding .write) (.holds .read)
  have front : _ = s.sum .front + 0 := sum_goto { s with count := c } t (.holding .write) .front
  have grants : _ = s.sum .grants + 0 := sum_goto { s with count := c } t (.holding .write) .grants
  have := holds_le_active s
  have := b.active_of_grants
  exact ⟨by omega, by omega, by omega, fun _ => Nat.add_pos_left (sum_goto_pos _ t (by decide)) _⟩

theorem Safe.downgrade (safe : Safe s) (writing : s.pc t = .holding .write) (c : BitVec 32)
    (write : p.weight (.holds .write) = 0) (front : p.weight .front = 0) (active : 0 < p.weight .active) :
    Safe ({ s with count := c }.goto t p) := by
  have writes : _ = s.sum (.holds .write) + _ := sum_goto { s with count := c } t p (.holds .write)
  have fronts : _ = s.sum .front + _ := sum_goto { s with count := c } t p .front
  have := safe.writer
  have := safe.alone
  rw [writing, show Pc.weight (.holds .write) (.holding .write) = 1 from rfl] at writes
  exact .of_no_writer (by omega) (by omega) (sum_goto_pos _ t active)

theorem Inv.wander (inv : Inv s) (place : s.pc t = p₀) (awake : ¬ p₀.mayWait) (free : p₀.locked = false)
    (locked : p.locked = false) (same : ∀ q, p.weight q = p₀.weight q) : Inv (s.goto t p) := by
  subst place
  refine ⟨inv.books.outside rfl (by rw [same]) (by rw [same]) inv.books.count free locked awake, ?_⟩
  exact inv.safe.congr (fun q => sum_goto_eq rfl (by rw [same])) rfl

section Fast

variable (few : Fintype.card T < 2 ^ 15)

include few

variable {c : BitVec 32}

theorem Books.fits_goto (b : Books ({ s with count := c }.goto t p)) {w : ℕ}
    (place : s.pc t = p₀) (active : s.sum .active + p.weight .active = a + p₀.weight .active)
    (waits : s.sum .waits + p.weight .waits = w + p₀.weight .waits) : Fits a w := by
  have fits : Fits ((s.goto t p).sum .active) ((s.goto t p).sum .waits) := fits_of_few few b.asleep
  rwa [sum_goto_eq place active, sum_goto_eq place waits] at fits

section

variable (inv : Inv s)
include inv

/-- The fast path of a `down`: the task has the semaphore, or goes on to `rwsem_down_failed_common`. -/
theorem Inv.down {k : Kind} {w : ℕ} {busy : Prop} [Decidable busy] (idle : s.pc t = .idle)
    (count : c = word (s.sum .active + 1) w) (waits : s.sum .waits + (Pc.holding k).weight .waits = w)
    (free : ¬ busy → Fits (s.sum .active + 1) w → Safe ({ s with count := c }.goto t (.holding k))) :
    Inv ({ s with count := c }.goto t (if busy then .failed k else .holding k)) := by
  by_cases h : busy
  · rw [if_pos h]
    refine ⟨inv.books.outside idle rfl (by cases k <;> exact waits) count rfl rfl id, ?_⟩
    exact inv.safe.go t _ (fun _ => Nat.add_pos_left (sum_goto_pos s t (by cases k <;> decide)) _) rfl
  · rw [if_neg h]
    have books : Books ({ s with count := c }.goto t (.holding k)) :=
      inv.books.outside idle rfl waits count rfl rfl id
    exact ⟨books, free h (books.fits_goto few idle rfl waits)⟩

theorem Inv.downRead (idle : s.pc t = .idle) : Inv (downRead s t) := by
  have count : s.count + activeBias = word (s.sum .active + 1) (s.sum .waits) := by
    rw [inv.books.count, word_add_active]
  refine inv.down few idle count rfl fun positive fits => Safe.takeRead inv.books ?_ t _
  rw [count, fits.toInt_word] at positive
  have := fits.active
  omega

theorem Inv.downWrite (idle : s.pc t = .idle) : Inv (downWrite s t) := by
  have count : s.count + activeWriteBias = word (s.sum .active + 1) (s.sum .waits + 1) := by
    rw [inv.books.count, word_add_write]
  refine inv.down few idle count rfl fun eq fits => Safe.takeWrite inv.books ?_ t _
  -- the sum is the bias alone only if nobody had contributed before
  have alone : word (s.sum .active + 1) (s.sum .waits + 1) = word 1 1 := by
    rw [← count, not_not.mp eq]
    decide
  have := (fits.word_inj ⟨by decide, by decide⟩ alone).1
  omega

omit few in
theorem Inv.downReadTrylockLoad (loading : s.pc t = .tryLoad) : Inv (downReadTrylockLoad s t) := by
  unfold Rwsem.downReadTrylockLoad
  split
  all_goals exact inv.wander loading id rfl rfl fun q => by cases q <;> rfl

theorem Inv.downReadTrylockCas {tmp : BitVec 32} {free : 0 ≤ tmp.toInt}
    (trying : s.pc t = .tryCas tmp free) : Inv (downReadTrylockCas s t tmp) := by
  unfold Rwsem.downReadTrylockCas
  by_cases same : s.count = tmp
  · rw [if_pos same]
    have count : tmp + activeReadBias = word (s.sum .active + 1) (s.sum .waits) := by
      rw [← same, inv.books.count]
      exact word_add_active _ _
    have books : Books ({ s with count := tmp + activeReadBias }.goto t (.holding .read)) :=
      inv.books.outside trying rfl rfl count rfl rfl id
    refine ⟨books, Safe.takeRead inv.books ?_ t _⟩
    have fits := fits_of_few few inv.books.asleep
    rw [← same, inv.books.count, fits.toInt_word] at free
    have := fits.active
    omega
  · rw [if_neg same]
    exact inv.wander trying id rfl rfl fun q => by cases q <;> rfl

theorem Inv.downWriteTrylock (idle : s.pc t = .idle) : Inv (downWriteTrylock s t) := by
  unfold Rwsem.downWriteTrylock
  by_cases zero : s.count = 0
  · rw [if_pos zero]
    have fits := fits_of_few few inv.books.asleep
    have free : word (s.sum .active) (s.sum .waits) = word 0 0 := by
      rw [← inv.books.count, zero]
      decide
    obtain ⟨active, waits⟩ := fits.word_inj ⟨by decide, by decide⟩ free
    have count : activeWriteBias = word (s.sum .active + 1) (s.sum .waits + 1) := by
      rw [active, waits]
      decide
    refine ⟨inv.books.outside idle rfl rfl count rfl rfl id, ?_⟩
    exact Safe.takeWrite inv.books active t _
  · rw [if_neg zero]
    exact inv

/-- The fast path of an `up`: who leaves tasks in the queue without anybody active goes on to `rwsem_wake`. -/
theorem Inv.up {k : Kind} {w : ℕ} {last : Prop} [Decidable last] (held : s.pc t = .holding k)
    (active : s.sum .active = a + 1) (waits : s.sum .waits = w + (Pc.holding k).weight .waits) (count : c = word a w)
    (more : ¬ last → Fits a w → 0 < a ∨ 0 < w → 0 < a) :
    Inv ({ s with count := c }.goto t (if last then .released else .idle)) := by
  by_cases h : last
  · rw [if_pos h]
    refine ⟨inv.books.outside held active waits count rfl rfl id, ?_⟩
    exact inv.safe.go t _ (fun _ => Nat.add_pos_right _ (sum_goto_pos s t (by decide))) rfl
  rw [if_neg h]
  have books : Books ({ s with count := c }.goto t .idle) := inv.books.outside held active waits count rfl rfl id
  refine ⟨books, inv.safe.go t _ (fun queue => ?_) rfl⟩
  have fits : Fits a w := books.fits_goto few held active waits
  have counts : 0 < (s.goto t .idle).sum .active ∨ 0 < (s.goto t .idle).sum .waits := books.queue_counts queue
  have left : (s.goto t .idle).sum .active = a := sum_goto_eq held active
  rw [left, show (s.goto t .idle).sum .waits = w from sum_goto_eq held waits] at counts
  rw [left]
  exact Nat.add_pos_left (more h fits counts) _

theorem Inv.upRead (reading : s.pc t = .holding .read) : Inv (upRead s t) := by
  obtain ⟨a, active⟩ := exists_sum (q := .active) reading rfl
  have count : s.count - activeBias = word a (s.sum .waits) := by
    rw [inv.books.count, active, word_sub_active]
  refine inv.up few reading active (Nat.add_zero _).symm count fun last fits counts => ?_
  rw [count, fits.mask_word, fits.toInt_word] at last
  omega

theorem Inv.upWrite (writing : s.pc t = .holding .write) : Inv (upWrite s t) := by
  obtain ⟨a, active⟩ := exists_sum (q := .active) writing rfl
  obtain ⟨w, waits⟩ := exists_sum (q := .waits) writing rfl
  have count : s.count - activeWriteBias = word a w := by
    rw [inv.books.count, active, waits, ← word_add_write, add_sub_cancel_right]
  refine inv.up few writing active waits count fun waiting fits counts => ?_
  rw [count, fits.toInt_word] at waiting
  omega

omit few in
theorem Inv.downgradeWrite (writing : s.pc t = .holding .write) : Inv (downgradeWrite s t) := by
  obtain ⟨a, active⟩ := exists_sum (q := .active) writing rfl
  obtain ⟨w, waits⟩ := exists_sum (q := .waits) writing rfl
  have count : s.count - waitingBias = word (a + 1) w := by
    rw [inv.books.count, active, waits, ← word_add_waiting, add_sub_cancel_right]
  unfold Rwsem.downgradeWrite
  dsimp only
  split
  all_goals
    refine ⟨inv.books.outside writing (by rw [active]; rfl) waits count rfl rfl id, ?_⟩
    exact inv.safe.downgrade writing _ rfl rfl (by decide)

end

end Fast

end Rwsem
