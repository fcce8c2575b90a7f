/- Histories of a timer base: when each arming of a timer is run. -/
import Mathlib.Tactic.Tauto
import LinuxKernel.Foundation.Transition
import LinuxKernel.Kernel.TimerWheel

namespace Timer

open Function List

variable (cfg : Config) {τ : Type} [DecidableEq τ]

/-- A timer was added or modified at the time `time`. -/
structure Arming (τ : Type) where
  serial : Nat
  timer : τ
  expires : Nat
  time : Nat
  deriving DecidableEq

/-- The timer was late already, in the signed sense. -/
def Arming.Past (a : Arming τ) : Prop := 2 ^ (cfg.bits - 1) ≤ minus cfg a.expires (a.time % 2 ^ cfg.bits)

instance (a : Arming τ) : Decidable (a.Past cfg) := inferInstanceAs (Decidable (_ ≤ _))

def Arming.due (a : Arming τ) : Nat :=
  if a.Past cfg then a.time else a.time + minus cfg a.expires (a.time % 2 ^ cfg.bits)

/-- What happened so far. A timer that was run is listed with the time of the iteration. -/
structure Log (τ : Type) where
  armings : List (Arming τ)
  armed : τ → Option (Arming τ)
  ran : List (Arming τ × Nat)
  cancelled : List (Arming τ)

/-- The arming of the timer is over, if it has one. -/
def Log.cancel (l : Log τ) (timer : τ) : Log τ :=
  { l with
    armed := update l.armed timer none
    cancelled := (l.armed timer).toList ++ l.cancelled }

def Log.arm (l : Log τ) (timer : τ) (expires time : Nat) : Log τ :=
  let a : Arming τ := ⟨l.armings.length, timer, expires, time⟩
  { l with
    armings := a :: l.armings
    armed := update l.armed timer (some a) }

def Log.run (l : Log τ) (timer : τ) (time : Nat) : Log τ :=
  { l with
    armed := update l.armed timer none
    ran := (l.armed timer).toList.map (fun a => (a, time)) ++ l.ran }

/-- A base with its log. The time `now` counts on where `timer_jiffies` wraps. -/
structure History (τ : Type) where
  base : Base τ
  now : Nat
  log : Log τ

/-- `mod_timer`, and `add_timer` when the timer is not pending. A pending timer with the same `expires`
is left alone. -/
def History.modTimer (h : History τ) (timer : τ) (expires : Nat) : History τ :=
  { h with
    base := (Timer.modTimer cfg h.base timer expires).1
    log :=
      if h.base.pending timer && h.base.expires timer = expires then h.log
      else (h.log.cancel timer).arm timer expires h.now }

def History.modTimerPending (h : History τ) (timer : τ) (expires : Nat) : History τ :=
  { h with
    base := (Timer.modTimerPending cfg h.base timer expires).1
    log := if h.base.pending timer then (h.log.cancel timer).arm timer expires h.now else h.log }

def History.delTimer (h : History τ) (timer : τ) : History τ :=
  { h with
    base := (Timer.delTimer h.base timer).1
    log := h.log.cancel timer }

def History.startIteration (h : History τ) : History τ :=
  { h with
    base := Timer.startIteration cfg h.base
    now := h.now + 1 }

/-- The function of the timer is called, with the base as it is then; `timer_jiffies` has been
incremented for the next iteration. -/
def History.run (h : History τ) (timer : τ) (base : Base τ) : History τ :=
  { h with
    base := base
    log := h.log.run timer (h.now - 1) }

structure Start (h : History τ) : Prop where
  jiffies : h.base.timerJiffies = h.now % 2 ^ cfg.bits
  vec : ∀ v, h.base.vec v = []
  work : h.base.work = []
  pending : ∀ t, h.base.pending t = false
  log : h.log = ⟨[], fun _ => none, [], []⟩

/-- The lock is free while the function of a timer runs: timers are added, modified and deleted between
any two timers of an iteration. -/
inductive Step : History τ → History τ → Prop
  | mod (h : History τ) (timer : τ) (expires : Nat) (word : expires < 2 ^ cfg.bits) :
      Step h (h.modTimer cfg timer expires)
  | modPending (h : History τ) (timer : τ) (expires : Nat) (word : expires < 2 ^ cfg.bits) :
      Step h (h.modTimerPending cfg timer expires)
  | del (h : History τ) (timer : τ) : Step h (h.delTimer timer)
  | iteration (h : History τ) (last : h.base.work = []) : Step h (h.startIteration cfg)
  | run (h : History τ) (timer : τ) (base : Base τ) (first : runFirst h.base = some (timer, base)) :
      Step h (h.run timer base)

variable {cfg}

section Due

variable {a : Arming τ}

omit [DecidableEq τ] in
theorem Arming.due_ahead (word : a.expires < 2 ^ cfg.bits) (ahead : ¬a.Past cfg) :
    Ahead cfg a.time (a.due cfg) a.expires := by
  constructor
  · rw [Arming.due, if_neg ahead]
    omega
  · have := ahead
    simp only [Arming.Past] at this
    rw [Arming.due, if_neg ahead]
    omega
  · rw [Arming.due, if_neg ahead]
    unfold minus
    have pos : 0 < 2 ^ cfg.bits := Nat.two_pow_pos _
    generalize 2 ^ cfg.bits = m at *
    have r_lt := Nat.mod_lt a.time pos
    have sum : a.time % m + (a.expires + (m - a.time % m)) = a.expires + m := by omega
    rw [Nat.add_mod_mod, ← Nat.mod_add_mod, sum, Nat.add_mod_right, Nat.mod_eq_of_lt word]

omit [DecidableEq τ] in
theorem Arming.waits (word : a.expires < 2 ^ cfg.bits) : Waits cfg a.time (fun _ => a.time + 1) (a.due cfg) a.expires
      (vecFor cfg (a.time % 2 ^ cfg.bits) a.expires) := by
  by_cases past : a.Past cfg
  · rw [Arming.due, if_pos past]
    exact waits_past past
  · exact (Arming.due_ahead word past).waits

end Due

def Log.gone (l : Log τ) : List (Arming τ) := l.cancelled ++ l.ran.map Prod.fst

/-- Each arming has one fate: it is the current one of its timer, cancelled, or run once. -/
structure Log.Accounted (l : Log τ) : Prop where
  serial : ∀ a ∈ l.armings, a.serial < l.armings.length
  timer : ∀ t a, l.armed t = some a → a.timer = t
  mem : ∀ a, a ∈ l.armings ↔ l.armed a.timer = some a ∨ a ∈ l.gone
  nodup : l.gone.Nodup
  apart : ∀ t a, l.armed t = some a → a ∉ l.gone

namespace Log.Accounted

variable {l : Log τ}

variable {t : τ}

theorem armed_of_none {x : τ} {a : Arming τ} (h : update l.armed t none x = some a) : x ≠ t ∧ l.armed x = some a := by
  simpa [update_apply] using h

theorem finish (ok : l.Accounted) {l' : Log τ} {last : Arming τ} (h : l.armed t = some last)
    (armings : l'.armings = l.armings) (armed : l'.armed = update l.armed t none)
    (gone : l'.gone.Perm (last :: l.gone)) : l'.Accounted := by
  have timer := ok.timer t last h
  constructor
  · rw [armings]
    exact ok.serial
  · intro x a still
    rw [armed] at still
    exact ok.timer x a (armed_of_none still).2
  · intro a
    rw [armings, armed, ok.mem, gone.mem_iff, mem_cons]
    by_cases here : a.timer = t
    · rw [here, h, update_self]
      simp [eq_comm]
    · have ne : a ≠ last := fun eq => here (eq ▸ timer)
      simp [update_of_ne here, ne]
  · exact gone.nodup_iff.mpr (nodup_cons.mpr ⟨ok.apart t last h, ok.nodup⟩)
  · intro x a still
    rw [armed] at still
    obtain ⟨ne, old⟩ := armed_of_none still
    rw [gone.mem_iff, mem_cons]
    rintro (rfl | gone)
    · exact ne ((ok.timer x a old).symm.trans timer)
    · exact ok.apart x a old gone

theorem cancel (ok : l.Accounted) (t : τ) : (l.cancel t).Accounted := by
  cases h : l.armed t with
  | none =>
    have same : update l.armed t none = l.armed := by rw [← h, update_eq_self]
    rw [Log.cancel, same, h]
    exact ok
  | some last =>
    refine ok.finish h rfl rfl ?_
    simp [Log.gone, Log.cancel, h]

theorem run (ok : l.Accounted) {last : Arming τ} (h : l.armed t = some last) (time : Nat) :
    (l.run t time).Accounted := by
  refine ok.finish h rfl rfl ?_
  simp only [Log.gone, Log.run, h, Option.toList_some, map_cons, map_nil, singleton_append]
  exact perm_middle

theorem arm (ok : l.Accounted) (h : l.armed t = none) (expires time : Nat) : (l.arm t expires time).Accounted := by
  have fresh : (⟨l.armings.length, t, expires, time⟩ : Arming τ) ∉ l.armings :=
    fun mem => Nat.lt_irrefl _ (ok.serial _ mem)
  rw [ok.mem, not_or] at fresh
  have armed : ∀ x a, (l.arm t expires time).armed x = some a →
      a = ⟨l.armings.length, x, expires, time⟩ ∧ x = t ∨ l.armed x = some a := by
    intro x a eq
    by_cases here : x = t
    · subst here
      exact .inl ⟨by simpa [Log.arm, eq_comm] using eq, rfl⟩
    · exact .inr (by simpa [Log.arm, here] using eq)
  constructor
  · intro a mem
    rcases mem_cons.mp mem with rfl | old
    · exact Nat.lt_succ_self _
    · exact Nat.lt_succ_of_lt (ok.serial a old)
  · intro x a eq
    rcases armed x a eq with ⟨rfl, -⟩ | old
    · rfl
    · exact ok.timer x a old
  · intro a
    rw [show (l.arm t expires time).gone = l.gone from rfl]
    simp only [Log.arm, mem_cons, ok.mem]
    by_cases here : a.timer = t
    · rw [here, h]
      simp [eq_comm]
    · have ne : a ≠ ⟨l.armings.length, t, expires, time⟩ := fun eq => here (by rw [eq])
      simp [update_of_ne here, ne]
  · exact ok.nodup
  · intro x a eq
    rcases armed x a eq with ⟨rfl, rfl⟩ | old
    · exact fresh.2
    · exact ok.apart x a old

end Log.Accounted

section Base

variable {b b' : Base τ} {now : Nat} {from_ : Wheel → Nat} {dueOf dueOf' : τ → Nat} {t : τ}

omit [DecidableEq τ] in
theorem Good.sub (good : Good cfg b now from_ dueOf) (jiffies : b'.timerJiffies = b.timerJiffies)
    (sub : ∀ v, ∀ x ∈ b'.vec v, x ∈ b.vec v ∧ b'.expires x = b.expires x ∧ dueOf' x = dueOf x) :
    Good cfg b' now from_ dueOf' := by
  constructor
  · rw [jiffies, good.jiffies]
  · intro v x hx
    obtain ⟨mem, expires, due⟩ := sub v x hx
    rw [expires, due]
    exact good.waits v x mem

theorem detachTimer_of_not_pending (kept : Kept b b.work) (idle : b.pending t = false) : detachTimer b t = b := by
  obtain ⟨notWork, notVec⟩ := kept.notMem (t := t) (by simp [idle])
  have vec : (fun v => (b.vec v).erase t) = b.vec := by
    funext v
    exact erase_of_not_mem (notVec v)
  have pending : update b.pending t false = b.pending := by
    rw [← idle, update_eq_self]
  rw [detachTimer, vec, erase_of_not_mem notWork, pending]

/-- The base after `__mod_timer` has moved the timer. -/
def rearm (cfg : Config) (b : Base τ) (timer : τ) (expires : Nat) : Base τ :=
  let b := detachTimer b timer
  internalAddTimer cfg { b with expires := update b.expires timer expires } timer

theorem modTimerBase_eq (kept : Kept b b.work) (expires : Nat) (pendingOnly : Bool) :
    (modTimerBase cfg b t expires pendingOnly).1 =
      if b.pending t || !pendingOnly then rearm cfg b t expires else b := by
  unfold modTimerBase
  cases pending : b.pending t with
  | true => rfl
  | false =>
    cases pendingOnly with
    | true => rfl
    | false =>
      simp [rearm,
        detachTimer_of_not_pending kept pending]

end Base

def dueOf (cfg : Config) (armed : τ → Option (Arming τ)) (t : τ) : Nat :=
  match armed t with
  | some a => a.due cfg
  | none => 0

/-- The pending timers are the armed ones, and each is where it will be found in time. -/
structure Tracks (cfg : Config) (b : Base τ) (now : Nat) (armed : τ → Option (Arming τ)) : Prop where
  good : Good cfg b now (fun _ => now) (dueOf cfg armed)
  kept : Kept b b.work
  work : ∀ t ∈ b.work, dueOf cfg armed t + 1 = now
  pending : ∀ t, b.pending t = true ↔ ∃ a, armed t = some a
  expires : ∀ t a, armed t = some a → b.expires t = a.expires

section Tracks

variable {b : Base τ} {now : Nat} {armed : τ → Option (Arming τ)} {t : τ}

theorem dueOf_update_of_ne {x : τ} (ne : x ≠ t) (o : Option (Arming τ)) :
    dueOf cfg (update armed t o) x = dueOf cfg armed x := by
  unfold dueOf
  rw [update_of_ne ne]

theorem Tracks.detach (ok : Tracks cfg b now armed) (t : τ) :
    Tracks cfg (detachTimer b t) now (update armed t none) := by
  constructor
  · refine ok.good.sub rfl ?_
    intro v x hx
    obtain ⟨ne, mem⟩ := (ok.kept.nodup v).mem_erase_iff.mp hx
    exact ⟨mem, rfl, dueOf_update_of_ne ne none⟩
  · apply (ok.kept.erase t).congr
    intro x
    by_cases here : x = t
    · subst here
      simp [detachTimer]
    · simp [detachTimer, here]
  · intro x hx
    obtain ⟨ne, mem⟩ := ok.kept.extra_nodup.mem_erase_iff.mp hx
    rw [dueOf_update_of_ne ne]
    exact ok.work x mem
  · intro x
    by_cases here : x = t
    · subst here
      simp [detachTimer]
    · simp only [detachTimer, update_of_ne here]
      exact ok.pending x
  · intro x a h
    by_cases here : x = t
    · subst here
      simp at h
    · rw [update_of_ne here] at h
      exact ok.expires x a h

variable {a : Arming τ}

section

variable (ok : Tracks cfg b now armed)
include ok

theorem Tracks.add (idle : b.pending t = false)
    (time : a.time = now) (word : a.expires < 2 ^ cfg.bits) :
    Tracks cfg (internalAddTimer cfg { b with expires := update b.expires t a.expires } t) now
      (update armed t (some a)) := by
  obtain ⟨notWork, notVec⟩ := ok.kept.notMem (t := t) (by simp [idle])
  constructor
  · apply internalAddTimer_good
    · refine ok.good.sub rfl ?_
      intro v x hx
      have ne : x ≠ t := fun eq => notVec v (eq ▸ hx)
      exact ⟨hx, update_of_ne ne _ _, dueOf_update_of_ne ne _⟩
    · have due : dueOf cfg (update armed t (some a)) t = a.due cfg := by
        simp [dueOf]
      rw [due]
      simp only [update_self]
      subst time
      exact (Arming.waits word).mono (Nat.le_succ _)
  · apply (ok.kept.push (by simp [idle]) _).congr
    intro x
    by_cases here : x = t
    · subst here
      simp [internalAddTimer]
    · simp [internalAddTimer, here]
  · intro x hx
    have ne : x ≠ t := fun eq => notWork (eq ▸ hx)
    rw [dueOf_update_of_ne ne]
    exact ok.work x hx
  · intro x
    by_cases here : x = t
    · subst here
      simp [internalAddTimer]
    · simp only [internalAddTimer, update_of_ne here]
      exact ok.pending x
  · intro x a' h
    by_cases here : x = t
    · subst here
      simp only [update_self, Option.some.injEq] at h
      simp [internalAddTimer, h]
    · rw [update_of_ne here] at h
      simp only [internalAddTimer, update_of_ne here]
      exact ok.expires x a' h

theorem Tracks.iteration (last : b.work = []) :
    Tracks cfg (startIteration cfg b) (now + 1) armed := by
  have kept : Kept b [] := last ▸ ok.kept
  obtain ⟨good, kept', due, expires, pending⟩ := startIteration_good ok.good kept
  constructor
  · exact good
  · exact kept'
  · intro x hx
    rw [due x hx]
  · rw [pending]
    exact ok.pending
  · rw [expires]
    exact ok.expires

omit [DecidableEq τ] in
theorem Tracks.due (h : armed t = some a) :
    (t ∉ b.work ∧ now ≤ a.due cfg) ∨ (t ∈ b.work ∧ a.due cfg + 1 = now) := by
  have due : dueOf cfg armed t = a.due cfg := by
    unfold dueOf
    rw [h]
  rcases (ok.kept.mem t).mp ((ok.pending t).mpr ⟨a, h⟩) with mem | ⟨v, mem⟩
  · exact .inr ⟨mem, due ▸ ok.work t mem⟩
  · exact .inl ⟨fun h => ok.kept.extra_apart v t h mem, due ▸ (ok.good.waits v t mem).le (Nat.le_refl _)⟩

end

end Tracks

structure Sound (cfg : Config) (h : History τ) : Prop where
  tracks : Tracks cfg h.base h.now h.log.armed
  accounted : h.log.Accounted
  ran : ∀ a time, (a, time) ∈ h.log.ran → time = a.due cfg
  words : ∀ a ∈ h.log.armings, a.expires < 2 ^ cfg.bits

section Steps

variable {h : History τ} {t : τ} {expires : Nat}

theorem runFirst_eq_some {b base : Base τ} :
    runFirst b = some (t, base) ↔ ∃ rest, b.work = t :: rest ∧ base = detachTimer b t := by
  cases work : b.work with
  | nil => simp [runFirst, work]
  | cons x rest =>
    simp only [runFirst, work, head?_cons, Option.map_some, Option.some.injEq, Prod.mk.injEq, cons.injEq]
    constructor
    · rintro ⟨rfl, rfl⟩
      exact ⟨rest, ⟨rfl, rfl⟩, rfl⟩
    · rintro ⟨_, ⟨rfl, rfl⟩, rfl⟩
      exact ⟨rfl, rfl⟩

theorem log_run_ran {a : Arming τ} (armed : h.log.armed t = some a) (base : Base τ) :
    (h.run t base).log.ran = (a, h.now - 1) :: h.log.ran := by
  simp [History.run, Log.run, armed]

omit [DecidableEq τ] in
theorem Start.sound (start : Start cfg h) : Sound cfg h := by
  constructor
  · constructor
    · exact ⟨start.jiffies, by simp [start.vec]⟩
    · constructor <;> simp [start.vec, start.work, start.pending]
    · simp [start.work]
    · simp [start.pending, start.log]
    · simp [start.log]
  · rw [start.log]
    constructor <;> simp [Log.gone]
  all_goals simp [start.log]

section

variable (ok : Sound cfg h)
include ok

theorem Sound.rearm (word : expires < 2 ^ cfg.bits) (t : τ) :
    Sound cfg { h with
      base := rearm cfg h.base t expires
      log := (h.log.cancel t).arm t expires h.now } := by
  constructor
  · have : Tracks cfg (Timer.rearm cfg h.base t expires) _ _ := (ok.tracks.detach t).add (t := t)
      (a := ⟨h.log.armings.length, t, expires, h.now⟩) (by simp [detachTimer]) rfl word
    simpa only [Log.arm, Log.cancel, update_idem] using this
  · exact (ok.accounted.cancel t).arm (by simp [Log.cancel]) expires h.now
  · exact ok.ran
  · intro a mem
    rcases mem_cons.mp mem with rfl | old
    · exact word
    · exact ok.words a old

theorem Sound.modTimer (word : expires < 2 ^ cfg.bits) (t : τ) :
    Sound cfg (h.modTimer cfg t expires) := by
  unfold History.modTimer Timer.modTimer
  split_ifs with same
  · exact ok
  · have := ok.rearm word t
    rwa [modTimerBase_eq ok.tracks.kept, Bool.not_false, Bool.or_true]

theorem Sound.modTimerPending (word : expires < 2 ^ cfg.bits) (t : τ) :
    Sound cfg (h.modTimerPending cfg t expires) := by
  unfold History.modTimerPending Timer.modTimerPending
  rw [modTimerBase_eq ok.tracks.kept, Bool.not_true, Bool.or_false]
  split_ifs with pending
  · exact ok.rearm word t
  · exact ok

theorem Sound.delTimer (t : τ) : Sound cfg (h.delTimer t) := by
  have base : (Timer.delTimer h.base t).1 = detachTimer h.base t := by
    unfold Timer.delTimer
    split_ifs with pending
    · rfl
    · rw [detachTimer_of_not_pending ok.tracks.kept (by simpa using pending)]
  constructor
  · simp only [History.delTimer, base]
    exact ok.tracks.detach t
  · exact ok.accounted.cancel t
  · exact ok.ran
  · exact ok.words

omit [DecidableEq τ] in
theorem Sound.armed_of_work {rest : List τ} (work : h.base.work = t :: rest) :
    ∃ a, h.log.armed t = some a ∧ a.due cfg + 1 = h.now := by
  have mem : t ∈ h.base.work := by simp [work]
  obtain ⟨a, armed⟩ := (ok.tracks.pending t).mp ((ok.tracks.kept.mem t).mpr (.inl mem))
  rcases ok.tracks.due armed with ⟨notMem, -⟩ | ⟨-, due⟩
  · exact absurd mem notMem
  · exact ⟨a, armed, due⟩

theorem Sound.run {base : Base τ} (first : runFirst h.base = some (t, base)) :
    Sound cfg (h.run t base) := by
  obtain ⟨rest, work, rfl⟩ := runFirst_eq_some.mp first
  obtain ⟨a, armed, due⟩ := ok.armed_of_work work
  constructor
  · exact ok.tracks.detach t
  · exact ok.accounted.run armed _
  · intro a' time ran
    rw [log_run_ran armed, mem_cons] at ran
    rcases ran with ⟨rfl, rfl⟩ | old
    · omega
    · exact ok.ran a' time old
  · exact ok.words

end

end Steps

theorem Step.sound {h h' : History τ} (ok : Sound cfg h) (step : Step cfg h h') : Sound cfg h' := by
  cases step with
  | mod t expires word => exact ok.modTimer word t
  | modPending t expires word => exact ok.modTimerPending word t
  | del t => exact ok.delTimer t
  | iteration last => exact ⟨ok.tracks.iteration last, ok.accounted, ok.ran, ok.words⟩
  | run t base first => exact ok.run first

theorem steps_sound {h h' : History τ} (ok : Sound cfg h) (steps : Relation.ReflTransGen (Step cfg) h h') :
    Sound cfg h' := by
  induction steps with
  | refl => exact ok
  | tail _ step ih => exact step.sound ih

theorem reachable_sound {h : History τ} (reachable : Transition.Reachable (Start cfg) (Step cfg) h) :
    Sound cfg h := by
  obtain ⟨h₀, start, steps⟩ := reachable
  exact steps_sound start.sound steps

section Progress

variable {h : History τ}

/-- A timer that is armed in `h` was run on the way to `h'` if it was in the work list, and else is still armed. -/
structure Drained (cfg : Config) (h h' : History τ) : Prop where
  steps : Relation.ReflTransGen (Step cfg) h h'
  now : h'.now = h.now
  work : h'.base.work = []
  fate : ∀ t a, h.log.armed t = some a →
    if t ∈ h.base.work then (a, h.now - 1) ∈ h'.log.ran else h'.log.armed t = some a
  keeps : ∀ x ∈ h.log.ran, x ∈ h'.log.ran

/-- The loop of `__run_timers` over the work list comes to its end. -/
theorem Sound.drain (ok : Sound cfg h) : ∃ h', Drained cfg h h' := by
  induction work : h.base.work generalizing h with
  | nil => exact ⟨h, .refl, rfl, work, fun t a armed => by simpa [work] using armed, fun _ mem => mem⟩
  | cons t rest ih =>
    obtain ⟨last, armed, -⟩ := ok.armed_of_work work
    have first : runFirst h.base = some (t, detachTimer h.base t) := runFirst_eq_some.mpr ⟨rest, work, rfl⟩
    have left : (h.run t (detachTimer h.base t)).base.work = rest := by simp [History.run, detachTimer, work]
    have ran := log_run_ran armed (detachTimer h.base t)
    obtain ⟨h', drained⟩ := ih (ok.run first) left
    refine ⟨h', .head (.run h t _ first) drained.steps, drained.now, drained.work, fun x a armed' => ?_,
      fun x mem => ?_⟩
    · by_cases here : x = t
      · subst here
        obtain rfl : last = a := Option.some.inj (armed.symm.trans armed')
        rw [work, if_pos mem_cons_self]
        exact drained.keeps _ (ran ▸ mem_cons_self)
      · have fate := drained.fate x a (by simpa [History.run, Log.run, here] using armed')
        rw [left, show (h.run t _).now = h.now from rfl] at fate
        simpa only [work, mem_cons, here, false_or] using fate
    · exact drained.keeps x (ran ▸ mem_cons_of_mem _ mem)

/-- If nothing but the iterations happens, a pending timer is run after finitely many of them. -/
theorem Sound.runs (ok : Sound cfg h) {t : τ} {a : Arming τ} (armed : h.log.armed t = some a) :
    ∃ h', Relation.ReflTransGen (Step cfg) h h' ∧ (a, a.due cfg) ∈ h'.log.ran := by
  -- the measure is the number of iterations until the due one
  induction left : a.due cfg + 1 - h.now generalizing h with
  | zero =>
    obtain ⟨h', drained⟩ := ok.drain
    have fate := drained.fate t a armed
    rcases ok.tracks.due armed with ⟨-, early⟩ | ⟨mem, due⟩
    · omega
    · rw [if_pos mem, ← due] at fate
      exact ⟨h', drained.steps, fate⟩
  | succ n ih =>
    obtain ⟨h', drained⟩ := ok.drain
    have fate := drained.fate t a armed
    rcases ok.tracks.due armed with ⟨notMem, -⟩ | ⟨-, due⟩
    · rw [if_neg notMem] at fate
      have ok' : Sound cfg h' := steps_sound ok drained.steps
      have step : Step cfg h' (h'.startIteration cfg) := .iteration h' drained.work
      obtain ⟨h'', steps, ran⟩ := ih (steps_sound ok' (.single step)) fate (by
        have : (h'.startIteration cfg).now = h.now + 1 := congrArg (· + 1) drained.now
        omega)
      exact ⟨h'', drained.steps.trans (.head step steps), ran⟩
    · omega

end Progress

/-- The iteration in which an arming is to be run: the first one for a `timer_jiffies` equal to its
`expires`, or the next one if `expires` was before `timer_jiffies` in the signed sense. -/
def Arming.RunsAt (cfg : Config) (a : Arming τ) (time : Nat) : Prop :=
  if a.Past cfg then time = a.time
  else time % 2 ^ cfg.bits = a.expires ∧ a.time ≤ time ∧ time < a.time + 2 ^ (cfg.bits - 1)

omit [DecidableEq τ] in
theorem Arming.runsAt_due {a : Arming τ} (word : a.expires < 2 ^ cfg.bits) : a.RunsAt cfg (a.due cfg) := by
  unfold Arming.RunsAt
  split_ifs with past
  · rw [Arming.due, if_pos past]
  · have ahead := Arming.due_ahead word past
    exact ⟨ahead.expires, ahead.le, ahead.lt⟩

/-- Whatever is added, modified and deleted between and within the iterations, each arming is run in its
iteration and only once, unless it is cancelled before. The work list can always be run to its end, and a pending
timer comes to be run. -/
theorem timers_run_in_time {h : History τ} (reachable : Transition.Reachable (Start cfg) (Step cfg) h) :
    h.base.timerJiffies = h.now % 2 ^ cfg.bits ∧ (∀ a time, (a, time) ∈ h.log.ran → a.RunsAt cfg time) ∧
    (h.log.ran.map Prod.fst).Nodup ∧ (∀ a ∈ h.log.armings,
      a ∈ h.log.ran.map Prod.fst ∧ a ∉ h.log.cancelled ∧ h.log.armed a.timer ≠ some a ∨
      a ∈ h.log.cancelled ∧ a ∉ h.log.ran.map Prod.fst ∧ h.log.armed a.timer ≠ some a ∨
      h.log.armed a.timer = some a ∧ a ∉ h.log.ran.map Prod.fst ∧ a ∉ h.log.cancelled) ∧
    (∀ t, h.base.pending t = true ↔ ∃ a, h.log.armed t = some a) ∧
    ∀ t a, h.log.armed t = some a → a.timer = t ∧ a.expires = h.base.expires t ∧ ∃ time, a.RunsAt cfg time ∧
        (t ∉ h.base.work ∧ h.now ≤ time ∨ t ∈ h.base.work ∧ time + 1 = h.now) ∧
        (∀ rest, h.base.work = t :: rest → ∃ base, runFirst h.base = some (t, base) ∧ base.work = rest ∧
          (h.run t base).log.ran = (a, time) :: h.log.ran) ∧
        (∃ h', Relation.ReflTransGen (Step cfg) h h' ∧ h'.now = h.now ∧ h'.base.work = [] ∧
          (t ∈ h.base.work → (a, time) ∈ h'.log.ran)) ∧
        ∃ h', Relation.ReflTransGen (Step cfg) h h' ∧ (a, time) ∈ h'.log.ran := by
  have ok := reachable_sound reachable
  obtain ⟨-, ranNodup, ranApart⟩ := nodup_append.mp ok.accounted.nodup
  have words : ∀ a, h.log.armed a.timer = some a ∨ a ∈ h.log.gone → a.expires < 2 ^ cfg.bits :=
    fun a mem => ok.words a ((ok.accounted.mem a).mpr mem)
  refine ⟨ok.tracks.good.jiffies, ?_, ranNodup, ?_, ok.tracks.pending, ?_⟩
  · intro a time ran
    rw [ok.ran a time ran]
    exact Arming.runsAt_due (words a (.inr (mem_append_right _ (mem_map_of_mem ran))))
  · intro a mem
    have fate := (ok.accounted.mem a).mp mem
    have armed := ok.accounted.apart a.timer a
    have ran : a ∈ h.log.cancelled → a ∉ h.log.ran.map Prod.fst := fun c r => ranApart a c a r rfl
    rw [Log.gone, mem_append] at fate armed
    tauto
  · intro t a armed
    obtain rfl := ok.accounted.timer t a armed
    have due := ok.tracks.due armed
    refine ⟨rfl, (ok.tracks.expires _ a armed).symm, a.due cfg, Arming.runsAt_due (words a (.inl armed)), due,
      fun rest work => ⟨detachTimer h.base a.timer, runFirst_eq_some.mpr ⟨rest, work, rfl⟩, ?_, ?_⟩, ?_,
        ok.runs armed⟩
    · simp [detachTimer, work]
    · rw [log_run_ran armed, show a.due cfg = h.now - 1 by simp [work] at due; omega]
    · obtain ⟨h', drained⟩ := ok.drain
      refine ⟨h', drained.steps, drained.now, drained.work, fun mem => ?_⟩
      have fate := drained.fate a.timer a armed
      rwa [if_pos mem, show h.now - 1 = a.due cfg by simp [mem] at due; omega] at fate

def wheels32 : Config := ⟨32, 8, 6, by decide, by decide, by decide⟩

def beforeWrap : History Unit :=
  ⟨⟨4294967294, fun _ => [], [], fun _ => 0, fun _ => false⟩, 4294967294, ⟨[], fun _ => none, [], []⟩⟩

/-- A timer was added three ticks ahead, across a wrap of `timer_jiffies`. -/
def afterWrap : History Unit :=
  ((((beforeWrap.modTimer wheels32 () 1).startIteration wheels32).startIteration wheels32).startIteration
    wheels32).startIteration wheels32

theorem afterWrap_reachable : Transition.Reachable (Start wheels32) (Step wheels32) afterWrap := by
  have start : Start wheels32 beforeWrap := ⟨rfl, fun _ => rfl, rfl, fun _ => rfl, rfl⟩
  have added : Transition.Reachable (Start wheels32) (Step wheels32) (beforeWrap.modTimer wheels32 () 1) :=
    (Transition.Reachable.start start).next (.mod beforeWrap () 1 (by decide))
  have first := added.next (Step.iteration _ (by decide +kernel))
  have second := first.next (Step.iteration _ (by decide +kernel))
  have third := second.next (Step.iteration _ (by decide +kernel))
  exact third.next (Step.iteration _ (by decide +kernel))

theorem timers_run_in_time_wrapping :
    (∃ base, runFirst afterWrap.base = some ((), base) ∧ Step wheels32 afterWrap (afterWrap.run () base) ∧
      (afterWrap.run () base).base.work = [] ∧
      (afterWrap.run () base).log.ran = [(⟨0, (), 1, 4294967294⟩, 4294967297)]) ∧
    Arming.RunsAt wheels32 (⟨0, (), 1, 4294967294⟩ : Arming Unit) 4294967297 := by
  have work : afterWrap.base.work = [()] := by decide +kernel
  have armed : afterWrap.log.armed () = some ⟨0, (), 1, 4294967294⟩ := by decide +kernel
  have now : afterWrap.now = 4294967298 := by decide +kernel
  have none : afterWrap.log.ran = [] := by decide +kernel
  obtain ⟨-, -, time, runs, place, first, -⟩ :=
    (timers_run_in_time afterWrap_reachable).2.2.2.2.2 () _ armed
  obtain rfl : time = 4294967297 := by
    simp only [work, now] at place
    simp at place
    omega
  obtain ⟨base, ran_first, rest, ran⟩ := first [] work
  exact ⟨⟨base, ran_first, .run _ _ _ ran_first, rest, by rw [ran, none]⟩, runs⟩

end Timer
