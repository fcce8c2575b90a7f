/- The slow paths of a reader/writer semaphore, and what holds in every state it can reach. -/
import LinuxKernel.Lib.RwsemSafety

namespace Rwsem

open Census Function Pc Finset

variable {T : Type} [Fintype T] [DecidableEq T] {s s' : State T} {t u : T} {p : Pc} {k : Kind}

theorem Inv.lock (inv : Inv s) {p₀ : Pc} (place : s.pc t = p₀) (awake : ¬ p₀.mayWait) (locked : p.locked = true)
    (loop : p.loop = 0) (active : p.weight .active = p₀.weight .active) (waits : p.weight .waits = p₀.weight .waits)
    (holds : ∀ k, p.weight (.holds k) ≤ p₀.weight (.holds k)) (front : p.weight .front = 0)
    (grants : p.weight .grants = 0) (needs : p.needsQueue = true → s.waitList ≠ []) (plain : p.plain = true)
    (pending : s.waitList ≠ [] → p₀.weight .pending ≤ p.weight .pending) : Inv (s.lock t p) := by
  subst place
  unfold State.lock
  by_cases free : s.waitLock = none
  · rw [if_pos free]
    have loops : ({ s with waitLock := some t }.goto t p).loop = s.loop := by
      have zero : s.loop = 0 := by
        unfold State.loop
        rw [free]
      rw [zero]
      exact (congrArg Pc.loop (update_self t p s.pc)).trans loop
    have sums : ∀ q, ({ s with waitLock := some t }.goto t p).sum q + _ = s.sum q + _ := sum_goto s t p
    have sameActive : ({ s with waitLock := some t }.goto t p).sum .active = s.sum .active :=
      sum_goto_eq (s := s) rfl (by rw [active])
    have sameWaits : ({ s with waitLock := some t }.goto t p).sum .waits = s.sum .waits :=
      sum_goto_eq (s := s) rfl (by rw [waits])
    constructor
    · refine inv.books.of_step rfl ?_ (fun h => absurd (inv.books.asleep t h) awake) (fun u _ => id) ?_ ?_ ?_
        needs plain (.inl rfl)
      · rw [sameActive, sameWaits]
        exact inv.books.count
      · exact ⟨fun _ => rfl, fun _ => locked⟩
      · intro u other
        rw [free]
        exact ⟨fun h => absurd (Option.some.inj h).symm other, nofun⟩
      · rw [loops]
        exact inv.books.queue
    · refine inv.safe.relax sums holds (by omega) (by omega) fun queue => ?_
      have := inv.safe.wake queue
      have := sums .pending
      have := pending queue
      omega
  · rw [if_neg free]
    exact inv

variable {d : Bool} {pt : Point}

/-- Only the task that has `wait_lock` can be at the front or in the middle of granting. -/
theorem Books.sum_waker (b : Books (s.goto t (.waking d pt))) {q : Quantity} (hq : q = .front ∨ q = .grants) :
    (s.goto t (.waking d pt)).sum q = (Pc.waking d pt).weight q := by
  have self : (s.goto t (.waking d pt)).pc t = .waking d pt := update_self ..
  have only (p : Pc) (out : p.locked = false) : p.weight q = 0 := by
    cases p with
    | waking d pt => exact Bool.noConfusion out
    | _ => rcases hq with rfl | rfl <;> rfl
  have none (w : Waiter) : w.weight q = 0 := by
    rcases hq with rfl | rfl <;> cases w <;> rfl
  have pcs : total (weight q) (s.goto t (.waking d pt)).pc = ((s.goto t (.waking d pt)).pc t).weight q := by
    apply sum_eq_single t
    · intro u _ other
      apply only
      by_contra theirs
      have own := (b.lock t).mp (by rw [self]; rfl)
      rw [(b.lock u).mp (Bool.eq_true_of_not_eq_false theirs)] at own
      exact other (Option.some.inj own)
    · exact fun out => absurd (mem_univ t) out
  unfold State.sum
  rw [pcs, self, total_eq_zero fun u => none _, Nat.add_zero]

theorem Inv.unlock (inv : Inv s) (out : s.pc t = .waking d .out) : Inv (unlock s t d) := by
  have mine := (inv.books.lock t).mp (by rw [out]; rfl)
  have queue := inv.books.queue_at out rfl
  have place : ∀ p : Pc, p.locked = false → (s.waiter t ≠ .none → p.mayWait) → p.needsQueue = false →
      (∀ q, p.weight q = (s.pc t).weight q) → Inv ({ s with waitLock := none }.goto t p) := by
    intro p locked may needs same
    have sums : ∀ q, ({ s with waitLock := none }.goto t p).sum q = s.sum q := fun q =>
      sum_goto_eq (s := s) rfl (by rw [same q])
    refine ⟨inv.books.of_step rfl ?_ may (fun u _ => id) ?_ ?_ queue ?_ (plain_of_not_locked locked) (.inl rfl),
      inv.safe.congr sums rfl⟩
    · rw [sums, sums]
      exact inv.books.count
    · rw [locked]
      exact ⟨nofun, nofun⟩
    · intro u other
      rw [mine]
      exact ⟨nofun, fun h => absurd (Option.some.inj h).symm other⟩
    · rw [needs]
      exact nofun
  unfold Rwsem.unlock
  cases d with
  | true =>
    refine place _ rfl (fun h => ?_) rfl fun q => ?_
    · have may := inv.books.asleep t h
      rw [out] at may
      exact may.elim
    · rw [out]
      cases q <;> rfl
  | false =>
    have same : ∀ q, weight q .idle = (s.pc t).weight q ∧ weight q .sleeping = (s.pc t).weight q := by
      intro q
      rw [out]
      cases q <;> exact ⟨rfl, rfl⟩
    by_cases none : s.waiter t = .none
    · rw [if_pos none]
      exact place _ rfl (fun h => absurd none h) rfl fun q => (same q).1
    · rw [if_neg none]
      exact place _ rfl (fun _ => trivial) rfl fun q => (same q).2

theorem sum_waiter_goto (s : State T) (t u : T) (p : Pc) (w : Waiter) (q : Quantity) :
    ((s.setWaiter u w).goto t p).sum q + ((s.pc t).weight q + (s.waiter u).weight q) =
      s.sum q + (p.weight q + w.weight q) := by
  have place := sum_goto (s.setWaiter u w) t p q
  have waiter := sum_setWaiter s u w q
  have pc : (s.setWaiter u w).pc t = s.pc t := rfl
  rw [pc] at place
  omega

theorem sums_enqueue (queuing : s.pc t = .queuing k) (none : s.waiter t = .none) (point : Point)
    (quiet : (Pc.waking false point).weight .active = 0) :
    ((s.setWaiter t (.queued k)).goto t (.waking false point)).sum .active + 1 = s.sum .active ∧
      word (s.sum .active) (s.sum .waits) + adjustment k =
        word (((s.setWaiter t (.queued k)).goto t (.waking false point)).sum .active)
          (((s.setWaiter t (.queued k)).goto t (.waking false point)).sum .waits) := by
  have active := sum_waiter_goto s t t (.waking false point) (.queued k) .active
  have waits := sum_waiter_goto s t t (.waking false point) (.queued k) .waits
  rw [none, queuing, quiet] at active
  rw [none, queuing] at waits
  have active : _ + 1 = s.sum .active := active
  refine ⟨active, ?_⟩
  rw [← active]
  cases k with
  | read =>
    have waits : _ + 0 = s.sum .waits + 1 := waits
    rw [word_adjust_read, ← waits, Nat.add_zero]
  | write =>
    have waits : _ + 1 = s.sum .waits + 1 := waits
    rw [word_adjust_write, Nat.succ.inj waits]

theorem Inv.downFailedQueue (few : Fintype.card T < 2 ^ 15) (inv : Inv s) (queuing : s.pc t = .queuing k) :
    Inv (downFailedQueue s t k) := by
  have none := inv.books.no_waiter (by rw [queuing]; exact id)
  have queue := inv.books.queue_at queuing rfl
  unfold Rwsem.downFailedQueue
  dsimp only
  generalize counted : s.count + adjustment k = c
  have books : ∀ point, (Pc.waking false point).weight .active = 0 → (Pc.waking false point).loop = 0 →
      Books (({ s with count := c, waitList := s.waitList ++ [t] }.setWaiter t (.queued k)).goto t
        (.waking false point)) := by
    intro point quiet loop
    refine inv.books.inside (by rw [queuing]; rfl) rfl rfl rfl ?_ (fun _ => trivial)
      ?_ ?_ ?_ rfl
    · rw [← counted, inv.books.count]
      exact (sums_enqueue queuing none point quiet).2
    · intro u other awake
      have awake : update s.waiter t (.queued k) u ≠ .none := awake
      rwa [update_of_ne other] at awake
    · rw [loop]
      exact queue.push none k
    · exact fun _ => List.append_ne_nil_of_right_ne_nil _ (List.cons_ne_nil t [])
  have safe : ∀ point, (Pc.waking false point).weight .front = 0 → (Pc.waking false point).weight .grants = 0 →
      0 < ((s.setWaiter t (.queued k)).goto t (.waking false point)).sum .active +
        ((s.setWaiter t (.queued k)).goto t (.waking false point)).sum .pending →
      Safe (({ s with count := c, waitList := s.waitList ++ [t] }.setWaiter t (.queued k)).goto t
        (.waking false point)) := by
    intro point front grants wake
    refine inv.safe.relax (sum_waiter_goto s t t (.waking false point) (.queued k)) (fun k => Nat.zero_le _) ?_ ?_
      fun _ => wake
    · rw [front]
      exact Nat.zero_le _
    · rw [grants]
      exact Nat.zero_le _
  by_cases zero : c &&& activeMask = 0
  · rw [if_pos zero]
    exact ⟨books .start rfl rfl, safe .start rfl rfl (Nat.add_pos_right _ (sum_goto_pos _ t (by decide)))⟩
  rw [if_neg zero]
  refine ⟨books .out rfl rfl, safe .out rfl rfl (Nat.add_pos_left ?_ _)⟩
  have fits := fits_of_few few (books .out rfl rfl).asleep
  rw [← counted, inv.books.count, (sums_enqueue queuing none .out rfl).2] at zero
  exact Nat.pos_of_ne_zero fun none => zero (fits.mask_word.mpr none)

theorem Books.inside_go (b : Books s) {c : BitVec 32} {pt pt' : Point} (waking : s.pc t = .waking d pt)
    (loop : (Pc.waking d pt').loop = (Pc.waking d pt).loop)
    (count : c = word ((s.goto t (.waking d pt')).sum .active) ((s.goto t (.waking d pt')).sum .waits))
    (needs : (Pc.waking d pt').needsQueue = true → s.waitList ≠ []) (plain : (Pc.waking d pt').plain = true) :
    Books ({ s with count := c }.goto t (.waking d pt')) := by
  exact b.inside (by rw [waking]; rfl) rfl rfl rfl count (b.mayWait_waking waking) (fun u _ => id)
    (loop ▸ b.queue_at waking rfl) needs plain

theorem Inv.stay (inv : Inv s) {pt pt' : Point} (waking : s.pc t = .waking d pt)
    (loop : (Pc.waking d pt').loop = (Pc.waking d pt).loop) (needs : (Pc.waking d pt').needsQueue = false)
    (plain : (Pc.waking d pt').plain = true) (same : ∀ q, (Pc.waking d pt').weight q = (Pc.waking d pt).weight q) :
    Inv (s.goto t (.waking d pt')) := by
  have sums : ∀ q, (s.goto t (.waking d pt')).sum q = s.sum q := fun q => sum_goto_eq waking (by rw [same q])
  refine ⟨inv.books.inside_go waking loop ?_ (by rw [needs]; exact nofun) plain, inv.safe.congr sums rfl⟩
  rw [sums, sums]
  exact inv.books.count

/-- Nobody held the semaphore when the waker took the active part from 0 to 1. -/
theorem Safe.reachFront (free : s.sum .active = 0) (t : T) (c : BitVec 32) :
    Safe ({ s with count := c }.goto t (.waking false .front)) := by
  have read : _ = s.sum (.holds .read) + 0 := sum_goto { s with count := c } t (.waking false .front) (.holds .read)
  have write : _ = s.sum (.holds .write) + 0 :=
    sum_goto { s with count := c } t (.waking false .front) (.holds .write)
  have := holds_le_active s
  exact ⟨by omega, by omega, by omega, fun _ => Nat.add_pos_left (sum_goto_pos _ t (by decide)) _⟩

theorem Inv.tryAgain (few : Fintype.card T < 2 ^ 15) (inv : Inv s) (start : s.pc t = .waking false .start) :
    Inv (tryAgain s t) := by
  have queue := inv.books.needs t (by rw [start]; rfl)
  have books : ∀ pt, (Pc.waking false pt).weight .active = 1 → (Pc.waking false pt).loop = 0 →
      Books ({ s with count := s.count + activeBias }.goto t (.waking false pt)) := by
    intro pt active loop
    refine inv.books.inside_go start loop ?_ (fun _ => queue) ?_
    have eq : (s.goto t (.waking false pt)).sum .active = s.sum .active + 1 := sum_goto_eq start (by rw [active]; rfl)
    have eq' : (s.goto t (.waking false pt)).sum .waits = s.sum .waits := sum_goto_eq start rfl
    · rw [eq, eq', inv.books.count, word_add_active]
    · cases pt <;> rfl
  unfold Rwsem.tryAgain
  dsimp only
  rw [BitVec.add_sub_cancel]
  have fits := fits_of_few few inv.books.asleep
  by_cases busy : s.count &&& activeMask ≠ 0
  · rw [if_pos busy]
    refine ⟨books .undo rfl rfl, inv.safe.go t _ (fun _ => ?_) rfl⟩
    exact Nat.add_pos_left (sum_goto_pos s t (by decide)) _
  · rw [if_neg busy]
    refine ⟨books .front rfl rfl, ?_⟩
    rw [inv.books.count, not_not, fits.mask_word] at busy
    exact Safe.reachFront busy t _

theorem Inv.undo (few : Fintype.card T < 2 ^ 15) (inv : Inv s) (undoing : s.pc t = .waking false .undo) :
    Inv (undo s t) := by
  have queue := inv.books.needs t (by rw [undoing]; rfl)
  obtain ⟨a, active⟩ := exists_sum (q := .active) undoing rfl
  have sums : ∀ pt, (Pc.waking false pt).weight .active = 0 →
      (s.goto t (.waking false pt)).sum .active = a ∧ (s.goto t (.waking false pt)).sum .waits = s.sum .waits := by
    intro pt quiet
    exact ⟨sum_goto_eq undoing (by rw [active, quiet]; rfl), sum_goto_eq undoing rfl⟩
  have count : s.count - activeBias = word a (s.sum .waits) := by
    rw [inv.books.count, active, word_sub_active]
  unfold Rwsem.undo
  dsimp only
  by_cases busy : (s.count - activeBias) &&& activeMask ≠ 0
  · rw [if_pos busy]
    have books : Books ({ s with count := s.count - activeBias }.goto t (.waking false .out)) :=
      inv.books.inside_go undoing rfl (by rw [(sums .out rfl).1, (sums .out rfl).2, count]) nofun rfl
    refine ⟨books, inv.safe.go t _ (fun _ => ?_) rfl⟩
    have fits : Fits a (s.sum .waits) := books.fits_goto few undoing active rfl
    rw [count, Ne, fits.mask_word] at busy
    rw [(sums .out rfl).1]
    omega
  · rw [if_neg busy]
    refine ⟨inv.books.inside_go undoing rfl (by rw [(sums .start rfl).1, (sums .start rfl).2, count]) (fun _ => queue)
      rfl, ?_⟩
    exact inv.safe.go t _ (fun _ => Nat.add_pos_right _ (sum_goto_pos s t (by decide))) rfl

theorem sum_waiter_pos (s : State T) (t u : T) {w : Waiter} {q : Quantity} (pos : 0 < w.weight q) :
    0 < ((s.setWaiter u w).goto t p).sum q := by
  have own := le_total (Waiter.weight q) ((s.setWaiter u w).goto t p).waiter u
  rw [show ((s.setWaiter u w).goto t p).waiter u = w from update_self ..] at own
  exact Nat.lt_of_lt_of_le pos (own.trans (Nat.le_add_left _ _))

omit [Fintype T] in
theorem had_waiter {w : T → Waiter} {l : List T} {m : ℕ} (queue : Queue (u :: l) w m) {v : T}
    (awake : update w u (.granted k) v ≠ .none) : w v ≠ .none := by
  by_cases same : v = u
  · rw [same]
    intro none
    have listed := (queue.mem u).mp List.mem_cons_self
    rw [none] at listed
    exact Bool.noConfusion listed
  · rwa [update_of_ne same] at awake

variable {rest : List T}

theorem Books.grant (b : Books s) {pt pt' : Point} (waking : s.pc t = .waking d pt)
    (list : s.waitList = u :: rest) (loop : (Pc.waking d pt').loop = (Pc.waking d pt).loop - 1)
    (active : (Pc.waking d pt').weight .active + 1 = (Pc.waking d pt).weight .active + (s.waiter u).weight .active)
    (waits : (Waiter.granted k).weight .waits = (s.waiter u).weight .waits)
    (needs : (Pc.waking d pt').needsQueue = false) (plain : (Pc.waking d pt').plain = true) :
    Books (({ s with waitList := rest }.setWaiter u (.granted k)).goto t (.waking d pt')) := by
  have queue := b.queue_at waking rfl
  rw [list] at queue
  refine b.inside (by rw [waking]; rfl) rfl rfl rfl ?_ (fun awake => b.mayWait_waking waking (had_waiter queue awake))
    (fun v _ => had_waiter queue) (by rw [loop]; exact queue.pop k) (by rw [needs]; exact nofun) plain
  · have sums := sum_waiter_goto s t u (.waking d pt') (.granted k)
    have eq : ((s.setWaiter u (.granted k)).goto t (.waking d pt')).sum .active = s.sum .active := by
      have sum := sums .active
      rw [waking] at sum
      have one : (Waiter.granted k).weight .active = 1 := rfl
      omega
    have eq' : ((s.setWaiter u (.granted k)).goto t (.waking d pt')).sum .waits = s.sum .waits := by
      have sum := sums .waits
      rw [waking, waits] at sum
      exact Nat.add_right_cancel sum
    exact b.count.trans (congrArg₂ word eq.symm eq'.symm)

theorem Inv.grantWriter (inv : Inv s) (front : s.pc t = .waking false .front)
    (list : s.waitList = u :: rest) (writer : s.waiter u = .queued .write) :
    Inv (({ s with waitList := rest }.setWaiter u (.granted .write)).goto t (.waking false .out)) := by
  have books : Books (({ s with waitList := rest }.setWaiter u (.granted .write)).goto t (.waking false .out)) :=
    inv.books.grant front list rfl (by rw [writer]; rfl) (by rw [writer]; rfl) rfl rfl
  refine ⟨books, ?_⟩
  have fronts : _ = 0 := books.sum_waker (.inl rfl)
  have grants : _ = 0 := books.sum_waker (.inr rfl)
  have read := sum_waiter_goto { s with waitList := rest } t u (.waking false .out) (.granted .write) (.holds .read)
  have write := sum_waiter_goto { s with waitList := rest } t u (.waking false .out) (.granted .write) (.holds .write)
  have read : _ = s.sum (.holds .read) + 0 := read
  have write : _ = s.sum (.holds .write) + 1 := write
  have own : 1 ≤ s.sum .front := le_sum front .front
  have := inv.safe.alone
  have := inv.safe.front
  exact ⟨by omega, by omega, by omega, fun _ => Nat.add_pos_left (sum_waiter_pos _ t u (by decide)) _⟩

theorem Inv.grantNext (inv : Inv s) {m : ℕ} (granting : s.pc t = .waking d (.granting (m + 1))) :
    Inv (grantNext s t d m) := by
  have queue := inv.books.queue_at granting rfl
  unfold Rwsem.grantNext
  cases list : s.waitList with
  | nil => exact inv
  | cons u rest =>
    dsimp only
    have counted := queue.counted u (by rw [list]; exact List.mem_cons_self)
    have books : Books (({ s with waitList := rest }.setWaiter u (.granted .read)).goto t
        (.waking d (.granting m))) :=
      inv.books.grant granting list rfl (by rw [counted]; cases d <;> rfl) (by rw [counted]; rfl) rfl
        (by cases d <;> rfl)
    refine ⟨books, ?_⟩
    have fronts : _ = weight _ _ := books.sum_waker (.inl rfl)
    have write := sum_waiter_goto { s with waitList := rest } t u (.waking d (.granting m)) (.granted .read)
      (.holds .write)
    rw [granting] at write
    have own : 1 ≤ s.sum .grants := le_sum granting .grants
    have none : ∀ n, weight (.holds .write) (.waking d (.granting n)) = 0 := by
      intro n
      cases d <;> rfl
    have calm : weight .front (.waking d (.granting m)) = 0 := by
      cases d <;> rfl
    rw [none, none] at write
    have write : _ = s.sum (.holds .write) + 0 := write
    have := inv.safe.alone
    exact .of_no_writer (by omega) (by omega) (sum_waiter_pos _ t u (by decide))

theorem sum_mark {l : List T} (nodup : l.Nodup) (reads : ∀ u ∈ l, s.waiter u = .queued .read) (p : Pc)
    (q : Quantity) :
    ({ s with waiter := fun u => if u ∈ l then .counted else s.waiter u }.goto t p).sum q +
        ((s.pc t).weight q + l.length * (Waiter.queued .read).weight q) =
      s.sum q + (p.weight q + l.length * Waiter.counted.weight q) := by
  have place := total_update (weight q) s.pc t p
  have waiters := total_mark (f := Waiter.weight q) (g := s.waiter) nodup (fun u mem => by rw [reads u mem]) .counted
  unfold State.sum State.goto
  dsimp only
  omega

theorem word_woken {a w a' w' m : ℕ} (active : a' + 1 = a + ((if d then 1 else 0) + m)) (waits : w' + m = w) :
    word a w + (BitVec.ofNat 32 m * (activeBias - waitingBias) - if d then 0 else activeBias) = word a' w' := by
  rw [← add_sub_assoc, ← waits, word_add_woken]
  cases d with
  | true =>
    rw [show a + m = a' by rw [if_pos rfl] at active; omega]
    exact BitVec.sub_zero _
  | false =>
    rw [show a + m = a' + 1 by rw [if_neg Bool.false_ne_true] at active; omega]
    exact word_sub_active _ _

theorem Inv.readersOnly (inv : Inv s) (waking : s.pc t = .waking d pt)
    (list : s.waitList = u :: rest) (reader : s.waiter u ≠ .queued .write) (loop : (Pc.waking d pt).loop = 0)
    (active : (Pc.waking d pt).weight .active = 1) (free : s.sum (.holds .write) = 0) : Inv (readersOnly s t d) := by
  have queue := inv.books.queue_at waking rfl
  rw [loop] at queue
  have le := Queue.run_le s.waiter s.waitList
  have reads : ∀ v ∈ s.waitList.take (readerRun s.waiter s.waitList), s.waiter v = .queued .read := by
    rw [list] at queue ⊢
    exact queue.run_read reader
  have some : 0 < readerRun s.waiter s.waitList := by
    rw [list, readerRun]
    omega
  unfold Rwsem.readersOnly
  generalize readerRun s.waiter s.waitList = m at le reads some
  have sums := sum_mark (t := t) (queue.nodup.sublist (List.take_sublist m _)) reads
    (.waking d (.granting m))
  rw [List.length_take_of_le le, waking] at sums
  have weight : (Pc.waking d (.granting m)).weight .active = if d then 1 else 0 := by
    cases d <;> rfl
  have actives := sums .active
  rw [active, weight] at actives
  have actives : _ + 1 = s.sum .active + (_ + m * 1) := actives
  have waits : _ + (0 + m * 1) = s.sum .waits := sums .waits
  rw [Nat.mul_one] at actives
  rw [Nat.mul_one, Nat.zero_add] at waits
  have had : ∀ v, (if v ∈ s.waitList.take m then .counted else s.waiter v) ≠ .none → s.waiter v ≠ .none := by
    intro v awake
    by_cases mem : v ∈ s.waitList.take m
    · rw [reads v mem]
      rintro ⟨⟩
    · rwa [if_neg mem] at awake
  have books : Books ({ s with
      count := s.count + (BitVec.ofNat 32 m * (activeBias - waitingBias) - if d then 0 else activeBias)
      waiter := fun v => if v ∈ s.waitList.take m then .counted else s.waiter v }.goto t
        (.waking d (.granting m))) := by
    refine inv.books.inside (by rw [waking]; rfl) rfl rfl rfl ?_
      (fun awake => inv.books.mayWait_waking waking (had t awake))
      (fun v _ => had v) (queue.mark le) (by rintro ⟨⟩) (by cases d <;> rfl)
    refine Eq.trans ?_ (word_woken actives waits)
    rw [← inv.books.count]
    rfl
  have calm : (Pc.waking d (.granting m)).weight .front = 0 := by
    cases d <;> rfl
  have none : (Pc.waking d (.granting m)).weight (.holds .write) = 0 := by
    cases d <;> rfl
  have write := sums (.holds .write)
  rw [free, none] at write
  have own := le_sum waking .active
  refine ⟨books, .of_no_writer (Nat.eq_zero_of_add_eq_zero_right write) ((books.sum_waker (.inl rfl)).trans calm) ?_⟩
  · exact (by omega : 0 < ({ s with waiter := fun v => if v ∈ s.waitList.take m then .counted else s.waiter v }.goto t
      (.waking d (.granting m))).sum .active)

theorem Inv.wakeFront (inv : Inv s) (front : s.pc t = .waking false .front) : Inv (wakeFront s t) := by
  unfold Rwsem.wakeFront
  cases list : s.waitList with
  | nil => exact inv
  | cons u rest =>
    dsimp only
    by_cases writer : s.waiter u = .queued .write
    · rw [if_pos writer]
      exact inv.grantWriter front list writer
    · rw [if_neg writer]
      have own : 1 ≤ s.sum .front := le_sum front .front
      have := inv.safe.alone
      exact inv.readersOnly front list writer rfl rfl (by omega)

theorem Inv.dontWakeWriters (inv : Inv s) (start : s.pc t = .waking true .start) : Inv (dontWakeWriters s t) := by
  unfold Rwsem.dontWakeWriters
  cases list : s.waitList with
  | nil => exact inv
  | cons u rest =>
    dsimp only
    by_cases writer : s.waiter u = .queued .write
    · rw [if_pos writer]
      exact inv.stay start rfl rfl rfl (fun q => by cases q <;> rfl)
    · rw [if_neg writer]
      have own : 1 ≤ s.sum (.holds .read) := le_sum start (.holds .read)
      have := inv.safe.alone
      exact inv.readersOnly start list writer rfl rfl (by omega)

/-- The wait loop finds `waiter->task` NULL: the grant moves from the waiter to the place. -/
theorem Inv.checkGranted (inv : Inv s) (asleep : s.pc t = .sleeping) : Inv (checkGranted s t) := by
  unfold Rwsem.checkGranted
  cases waiter : s.waiter t with
  | granted k =>
    have free : (s.pc t).locked = false := by
      rw [asleep]
      rfl
    have sums : ∀ q, ((s.setWaiter t .none).goto t (.holding k)).sum q = s.sum q := by
      intro q
      have eq := sum_waiter_goto s t t (.holding k) .none q
      have moved : (holding k).weight q + Waiter.none.weight q =
          sleeping.weight q + (Waiter.granted k).weight q := by
        cases q with
        | holds k' => exact Nat.add_comm _ _
        | _ => cases k <;> rfl
      rw [asleep, waiter, moved] at eq
      exact Nat.add_right_cancel eq
    refine ⟨inv.books.of_step rfl ?_ ?_ ?_ ?_ (fun u _ => Iff.rfl) ?_ nofun rfl (.inl rfl),
      inv.safe.congr sums rfl⟩
    · rw [sums, sums]
      exact inv.books.count
    · intro awake
      exact absurd (update_self ..) awake
    · intro u other awake
      have awake : update s.waiter t .none u ≠ .none := awake
      rwa [update_of_ne other] at awake
    · exact ⟨nofun, fun mine => absurd mine (inv.books.not_mine free)⟩
    · have loop : ((s.setWaiter t .none).goto t (.holding k)).loop = s.loop :=
        inv.books.loop_outside free (.holding k)
      rw [loop]
      exact inv.books.queue.drop waiter
  | none | queued k | counted => exact inv

section

variable (few : Fintype.card T < 2 ^ 15) (inv : Inv s)
include few inv

theorem Inv.doWake
    (waking : s.pc t = .waking d pt) : Inv (doWake s t d pt) := by
  have plain := inv.books.plain t
  rw [waking] at plain
  cases pt with
  | start =>
    cases d with
    | true => exact inv.dontWakeWriters waking
    | false => exact inv.tryAgain few waking
  | undo =>
    cases d with
    | true => exact Bool.noConfusion plain
    | false => exact inv.undo few waking
  | front =>
    cases d with
    | true => exact Bool.noConfusion plain
    | false => exact inv.wakeFront waking
  | granting m =>
    cases m with
    | zero => exact inv.stay waking rfl rfl (by cases d <;> rfl) fun q => by cases q <;> cases d <;> rfl
    | succ m => exact inv.grantNext waking
  | out => exact inv.unlock waking

theorem Inv.acquire (idle : s.pc t = .idle) (op : Op) :
    Inv (acquire s t op) := by
  cases op with
  | downRead => exact inv.downRead few idle
  | downReadTrylock => exact inv.wander idle id rfl rfl fun q => by cases q <;> rfl
  | downWrite => exact inv.downWrite few idle
  | downWriteTrylock => exact inv.downWriteTrylock few idle
  | _ => exact inv

theorem Inv.release (holding : s.pc t = .holding k) (op : Op) :
    Inv (release s t k op) := by
  cases k with
  | read =>
    cases op with
    | upRead => exact inv.upRead few holding
    | _ => exact inv
  | write =>
    cases op with
    | upWrite => exact inv.upWrite few holding
    | downgradeWrite => exact inv.downgradeWrite holding
    | _ => exact inv

end

theorem Inv.lockWake (inv : Inv s) (place : s.pc t = if d then .downgraded else .released) :
    Inv (s.lock t (.waking d (wakeUnlessEmpty s))) := by
  unfold wakeUnlessEmpty
  by_cases empty : s.waitList = []
  · rw [if_pos empty]
    cases d <;> exact inv.lock place id rfl rfl rfl rfl (fun k => Nat.le_refl _) rfl rfl nofun rfl
      fun some => absurd empty some
  · rw [if_neg empty]
    cases d <;> exact inv.lock place id rfl rfl rfl rfl (fun k => Nat.le_refl _) rfl rfl (fun _ => empty) rfl
      fun _ => Nat.le_refl _

theorem Inv.step (few : Fintype.card T < 2 ^ 15) (inv : Inv s) (t : T) (op : Op) : Inv (step s t op) := by
  unfold Rwsem.step
  cases place : s.pc t with
  | idle => exact inv.acquire few place op
  | holding k => exact inv.release few place op
  | tryLoad => exact inv.downReadTrylockLoad place
  | tryCas tmp ge => exact inv.downReadTrylockCas few place
  | failed k =>
    exact inv.lock place id rfl rfl rfl (by cases k <;> rfl) (fun k => Nat.zero_le _) rfl rfl nofun rfl
      fun _ => Nat.zero_le _
  | queuing k => exact inv.downFailedQueue few place
  | sleeping => exact inv.checkGranted place
  | released => exact inv.lockWake (d := false) place
  | downgraded => exact inv.lockWake (d := true) place
  | waking d pt => exact inv.doWake few place

theorem Books.weights_of_quiet (b : Books s) (quiet : Quiet s) (t : T) :
    (s.pc t).weight .active + (s.waiter t).weight .active =
        ((s.pc t).weight (.holds .read) + (s.waiter t).weight (.holds .read)) +
          ((s.pc t).weight (.holds .write) + (s.waiter t).weight (.holds .write)) ∧
      (s.pc t).weight .waits + (s.waiter t).weight .waits =
        ((s.pc t).weight (.holds .write) + (s.waiter t).weight (.holds .write)) + (if t ∈ s.waitList then 1 else 0) ∧
      (s.pc t).weight .pending = 0 := by
  have listed : (if t ∈ s.waitList then 1 else 0) = (s.waiter t).listed.toNat := by
    simp only [b.queue.mem t]
    cases (s.waiter t).listed <;> rfl
  have awake := b.no_waiter (t := t)
  rw [listed]
  rcases quiet t with place | place | ⟨k, place⟩
  · rw [awake (by rw [place]; exact id), place]
    exact ⟨rfl, rfl, rfl⟩
  · rw [place]
    cases waiter : s.waiter t with
    | none | queued k => exact ⟨rfl, rfl, rfl⟩
    | granted k => cases k <;> exact ⟨rfl, rfl, rfl⟩
    | counted =>
      obtain ⟨k, queued⟩ := b.queued_of_quiet quiet ((b.queue.mem t).mpr (by rw [waiter]; rfl))
      exact Waiter.noConfusion (waiter.symm.trans queued)
  · rw [awake (by rw [place]; exact id), place]
    cases k <;> exact ⟨rfl, rfl, rfl⟩

theorem Books.sums_of_quiet (b : Books s) (quiet : Quiet s) :
    s.sum .active = holders s .read + holders s .write ∧ s.sum .waits = holders s .write + s.waitList.length ∧
      s.sum .pending = 0 := by
  have waiting : s.waitList.length = ∑ t, if t ∈ s.waitList then 1 else 0 := by
    rw [← card_filter, ← List.toFinset_card_of_nodup b.queue.nodup]
    congr 1
    ext t
    simp
  rw [b.holders_eq, b.holders_eq, waiting]
  unfold State.sum total
  simp only [← sum_add_distrib]
  refine ⟨sum_congr rfl fun t _ => (b.weights_of_quiet quiet t).1,
    sum_congr rfl fun t _ => (b.weights_of_quiet quiet t).2.1, sum_eq_zero fun t _ => ?_⟩
  rw [(b.weights_of_quiet quiet t).2.2]
  cases s.waiter t <;> rfl

/-- In every interleaving a writer holds the semaphore alone. When no task is between two steps of an
operation, someone holds it if a task waits, and the counter is made up of the holders and the waiters. -/
theorem rwsem_excludes_and_wakes (few : Fintype.card T < 2 ^ 15) (h : Transition.Reachable (· = initRwsem T) Step s) :
    (∀ t u k, Holds s .write t → Holds s k u → u = t) ∧ (Quiet s → (s.waitList ≠ [] → ∃ t k, Holds s k t) ∧
        s.count.toInt = holders s .read * activeReadBias.toInt + holders s .write * activeWriteBias.toInt +
          s.waitList.length * waitingBias.toInt) := by
  have inv := h.invariant Inv (fun _ eq => eq ▸ Inv.init) fun s _ inv ⟨t, op, eq⟩ => eq ▸ inv.step few t op
  have mem : ∀ {k t}, Holds s k t → t ∈ univ.filter (Holds s k) := fun holds =>
    mem_filter.mpr ⟨mem_univ _, holds⟩
  constructor
  · intro t u k writes holds
    have one := inv.safe.writer
    rw [← inv.books.holders_eq] at one
    cases k with
    | write => exact card_le_one.mp one u (mem holds) t (mem writes)
    | read =>
      have some : 0 < holders s .write := card_pos.mpr ⟨t, mem writes⟩
      have reads : 0 < holders s .read := card_pos.mpr ⟨u, mem holds⟩
      have := inv.safe.alone
      rw [inv.books.holders_eq] at some reads
      omega
  · intro quiet
    obtain ⟨active, waits, pending⟩ := inv.books.sums_of_quiet quiet
    constructor
    · intro queue
      have wake := inv.safe.wake queue
      rw [active, pending, Nat.add_zero] at wake
      rcases Nat.add_pos_iff_pos_or_pos.mp wake with some | some
      · obtain ⟨t, mem⟩ := card_pos.mp some
        exact ⟨t, .read, (mem_filter.mp mem).2⟩
      · obtain ⟨t, mem⟩ := card_pos.mp some
        exact ⟨t, .write, (mem_filter.mp mem).2⟩
    · have fits := fits_of_few few inv.books.asleep
      rw [inv.books.count, fits.toInt_word, active, waits]
      rw [show activeReadBias.toInt = 1 by decide, show activeWriteBias.toInt = -65535 by decide,
        show waitingBias.toInt = -65536 by decide]
      push_cast
      omega

/-- Task 0 takes the semaphore for writing and task 1 waits for it to read. -/
def readerWaits : State (Fin 2) :=
  ((Fin.castSucc (Fin.last 0), Op.downWrite) :: List.replicate 4 (Fin.last 1, Op.downRead)).foldl
    (fun s call => step s call.1 call.2) (initRwsem (Fin 2))

theorem rwsem_excludes_and_wakes_reader :
    readerWaits.waitList = [1] ∧ (∃ t k, Holds readerWaits k t) ∧ readerWaits.count.toInt = -131071 := by
  have reach : Transition.Reachable (· = initRwsem (Fin 2)) Step readerWaits := by
    apply Transition.Reachable.foldl
    · exact .start rfl
    · exact fun s call => ⟨call.1, call.2, rfl⟩
  have quiet : Quiet readerWaits := by
    intro t
    match t with
    | 0 => exact .inr (.inr ⟨.write, by decide⟩)
    | 1 => exact .inr (.inl (by decide))
  obtain ⟨held, count⟩ := (rwsem_excludes_and_wakes (by decide) reach).2 quiet
  refine ⟨by decide, held (by decide), count.trans ?_⟩
  decide

end Rwsem
