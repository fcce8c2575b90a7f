/- The timer wheels of kernel/timer.c: timers in five wheels by their distance, and the iterations of
`__run_timers`. -/
import Mathlib.Algebra.Group.Int.Defs
import Mathlib.Algebra.Group.Nat.Defs
import Mathlib.Logic.Function.Basic

namespace Timer

open Function

/-- The sizes: bits of an `unsigned long`, `TVR_BITS` and `TVN_BITS`. Four wheels of `TVN_SIZE` behind one
of `TVR_SIZE` take no more than a word, and the last one starts below 4294967295, where far timers are
parked. -/
structure Config where
  bits : Nat
  tvrBits : Nat
  tvnBits : Nat
  slots : tvrBits + 4 * tvnBits ≤ bits
  far : tvrBits + 3 * tvnBits < 32
  word : 32 ≤ bits

inductive Wheel where
  | tv1
  | tv2
  | tv3
  | tv4
  | tv5
  deriving DecidableEq, Repr

/-- `struct tvec_base` and the timers on it. A timer is pending while `entry.next` is not NULL; `work` is
the `work_list` of the iteration that is going on. -/
structure Base (τ : Type) where
  timerJiffies : Nat
  vec : Wheel × Nat → List τ
  work : List τ
  expires : τ → Nat
  pending : τ → Bool

variable (cfg : Config) {τ : Type} [DecidableEq τ]

/-- `a - b` in an `unsigned long`. -/
def minus (a b : Nat) : Nat := (a + (2 ^ cfg.bits - b)) % 2 ^ cfg.bits

/-- The list that `internal_add_timer` chooses. -/
def vecFor (timerJiffies expires : Nat) : Wheel × Nat :=
  let idx := minus cfg expires timerJiffies
  let tvr := cfg.tvrBits
  let tvn := cfg.tvnBits
  if idx < 2 ^ tvr then (.tv1, expires % 2 ^ tvr)
  else if idx < 2 ^ (tvr + tvn) then (.tv2, expires / 2 ^ tvr % 2 ^ tvn)
  else if idx < 2 ^ (tvr + 2 * tvn) then (.tv3, expires / 2 ^ (tvr + tvn) % 2 ^ tvn)
  else if idx < 2 ^ (tvr + 3 * tvn) then (.tv4, expires / 2 ^ (tvr + 2 * tvn) % 2 ^ tvn)
  else if 2 ^ (cfg.bits - 1) ≤ idx then (.tv1, timerJiffies % 2 ^ tvr)
  else
    let expires := if 0xffffffff < idx then (0xffffffff + timerJiffies) % 2 ^ cfg.bits else expires
    (.tv5, expires / 2 ^ (tvr + 3 * tvn) % 2 ^ tvn)

def internalAddTimer (b : Base τ) (timer : τ) : Base τ :=
  let vec := vecFor cfg b.timerJiffies (b.expires timer)
  { b with
    vec := update b.vec vec (b.vec vec ++ [timer])
    pending := update b.pending timer true }

/-- `detach_timer` takes the timer off the list it is on. -/
def detachTimer (b : Base τ) (timer : τ) : Base τ :=
  { b with
    vec := fun v => (b.vec v).erase timer
    work := b.work.erase timer
    pending := update b.pending timer false }

/-- `__mod_timer` on the base of the timer; it returns whether the timer was pending. -/
def modTimerBase (b : Base τ) (timer : τ) (expires : Nat) (pendingOnly : Bool) : Base τ × Bool :=
  if b.pending timer then
    let b := detachTimer b timer
    (internalAddTimer cfg { b with expires := update b.expires timer expires } timer, true)
  else if pendingOnly then (b, false)
  else (internalAddTimer cfg { b with expires := update b.expires timer expires } timer, false)

def modTimer (b : Base τ) (timer : τ) (expires : Nat) : Base τ × Bool :=
  if b.pending timer && b.expires timer = expires then (b, true)
  else modTimerBase cfg b timer expires false

def modTimerPending (b : Base τ) (timer : τ) (expires : Nat) : Base τ × Bool :=
  modTimerBase cfg b timer expires true

def delTimer (b : Base τ) (timer : τ) : Base τ × Bool :=
  if b.pending timer then (detachTimer b timer, true) else (b, false)

def cascade (b : Base τ) (tv : Wheel) (index : Nat) : Base τ × Nat :=
  let list := b.vec (tv, index)
  (list.foldl (internalAddTimer cfg) { b with vec := update b.vec (tv, index) [] }, index)

/-- `INDEX(N)` -/
def indexOf (timerJiffies n : Nat) : Nat :=
  timerJiffies / 2 ^ (cfg.tvrBits + n * cfg.tvnBits) % 2 ^ cfg.tvnBits

/-- The cascades of an iteration whose slot in `tv1` is the first one. -/
def cascades (b : Base τ) : Base τ :=
  let jiffies := b.timerJiffies
  let (b, index) := cascade cfg b .tv2 (indexOf cfg jiffies 0)
  if index ≠ 0 then b
  else
    let (b, index) := cascade cfg b .tv3 (indexOf cfg jiffies 1)
    if index ≠ 0 then b
    else
      let (b, index) := cascade cfg b .tv4 (indexOf cfg jiffies 2)
      if index ≠ 0 then b else (cascade cfg b .tv5 (indexOf cfg jiffies 3)).1

/-- An iteration of `__run_timers` up to the loop over its `work_list`. -/
def startIteration (b : Base τ) : Base τ :=
  let index := b.timerJiffies % 2 ^ cfg.tvrBits
  let b := if index = 0 then cascades cfg b else b
  { b with
    timerJiffies := (b.timerJiffies + 1) % 2 ^ cfg.bits
    work := b.vec (.tv1, index)
    vec := update b.vec (.tv1, index) [] }

/-- The first timer of the `work_list`, and the base when its function is called. -/
def runFirst (b : Base τ) : Option (τ × Base τ) :=
  b.work.head?.map fun timer => (timer, detachTimer b timer)

end Timer
