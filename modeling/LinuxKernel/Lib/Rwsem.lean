/- The counter-based reader/writer semaphore: the atomic steps of lib/rwsem.c and asm/rwsem.h. -/
import Mathlib.Data.BitVec
import Mathlib.Data.Fintype.Basic
import Mathlib.Logic.Function.Basic

namespace Rwsem

def activeBias : BitVec 32 := 0x00000001
def activeMask : BitVec 32 := 0x0000ffff
def waitingBias : BitVec 32 := -0x00010000
def activeReadBias : BitVec 32 := activeBias
def activeWriteBias : BitVec 32 := waitingBias + activeBias

/-- What a task asks for: the two flags of `struct rwsem_waiter`. -/
inductive Kind where
  | read
  | write
  deriving DecidableEq

/-- The `struct rwsem_waiter` on a task's stack. `queued` and `counted` have `task` set; a `counted`
reader has its bias already moved in the counter by `readers_only`. `granted` is `task = NULL`. -/
inductive Waiter where
  | none
  | queued (k : Kind)
  | counted
  | granted (k : Kind)
  deriving DecidableEq

/-- Places inside `__rwsem_do_wake`, with `wait_lock` held. -/
inductive Point where
  | start
  | undo
  | front
  | granting (loop : ℕ)
  | out
  deriving DecidableEq

inductive Pc where
  | idle
  | holding (k : Kind)
  /-- `__down_read_trylock` about to read the counter. -/
  | tryLoad
  /-- `__down_read_trylock` about to exchange `tmp`, found not negative. -/
  | tryCas (tmp : BitVec 32) (ge : 0 ≤ tmp.toInt)
  /-- `rwsem_down_failed_common` before it has `wait_lock`. -/
  | failed (k : Kind)
  /-- `rwsem_down_failed_common` with `wait_lock`, before it queues itself. -/
  | queuing (k : Kind)
  /-- In the wait loop of `rwsem_down_failed_common`. -/
  | sleeping
  /-- `rwsem_wake` before it has `wait_lock`. -/
  | released
  /-- `rwsem_downgrade_wake` before it has `wait_lock`. -/
  | downgraded
  | waking (downgrading : Bool) (pt : Point)
  deriving DecidableEq

structure State (T : Type) where
  count : BitVec 32
  waitLock : Option T
  waitList : List T
  pc : T → Pc
  waiter : T → Waiter

def initRwsem (T : Type) : State T where
  count := 0
  waitLock := none
  waitList := []
  pc := fun _ => .idle
  waiter := fun _ => .none

variable {T : Type} [DecidableEq T]

def State.goto (s : State T) (t : T) (p : Pc) : State T :=
  { s with pc := Function.update s.pc t p }

def State.setWaiter (s : State T) (t : T) (w : Waiter) : State T :=
  { s with waiter := Function.update s.waiter t w }

def downRead (s : State T) (t : T) : State T :=
  let tmp := s.count + activeBias
  { s with count := tmp }.goto t (if tmp.toInt ≤ 0 then .failed .read else .holding .read)

def downWrite (s : State T) (t : T) : State T :=
  let tmp := s.count + activeWriteBias
  { s with count := tmp }.goto t (if tmp ≠ activeWriteBias then .failed .write else .holding .write)

/-- The load of the loop in `__down_read_trylock`. -/
def downReadTrylockLoad (s : State T) (t : T) : State T :=
  s.goto t (if ge : 0 ≤ s.count.toInt then .tryCas s.count ge else .idle)

/-- The compare-and-exchange of the loop in `__down_read_trylock`. -/
def downReadTrylockCas (s : State T) (t : T) (tmp : BitVec 32) : State T :=
  if s.count = tmp then { s with count := tmp + activeReadBias }.goto t (.holding .read)
  else s.goto t .tryLoad

def downWriteTrylock (s : State T) (t : T) : State T :=
  if s.count = 0 then { s with count := activeWriteBias }.goto t (.holding .write) else s

def upRead (s : State T) (t : T) : State T :=
  let tmp := s.count - activeBias
  { s with count := tmp }.goto t (if tmp.toInt < -1 ∧ tmp &&& activeMask = 0 then .released else .idle)

def upWrite (s : State T) (t : T) : State T :=
  let tmp := s.count - activeWriteBias
  { s with count := tmp }.goto t (if tmp.toInt < 0 then .released else .idle)

def downgradeWrite (s : State T) (t : T) : State T :=
  let tmp := s.count - waitingBias
  { s with count := tmp }.goto t (if tmp.toInt < 0 then .downgraded else .holding .read)

/-- `spin_lock(&sem->wait_lock)`: spins while another task has it. -/
def State.lock (s : State T) (t : T) (p : Pc) : State T :=
  if s.waitLock = none then { s with waitLock := some t }.goto t p else s

/-- The adjustment `rwsem_down_read_failed` or `rwsem_down_write_failed` passes on. -/
def adjustment : Kind → BitVec 32
  | .read => waitingBias - activeBias
  | .write => -activeBias

/-- `rwsem_down_failed_common`: queue, adjust the counter, wake the front if nobody is active. -/
def downFailedQueue (s : State T) (t : T) (k : Kind) : State T :=
  let count := s.count + adjustment k
  ({ s with count := count, waitList := s.waitList ++ [t] }.setWaiter t (.queued k)).goto t
    (.waking false (if count &&& activeMask = 0 then .start else .out))

/-- `rwsem_wake` and `rwsem_downgrade_wake` do nothing if the list is empty. -/
def wakeUnlessEmpty (s : State T) : Point :=
  if s.waitList = [] then .out else .start

def tryAgain (s : State T) (t : T) : State T :=
  let oldcount := s.count + activeBias - activeBias
  { s with count := s.count + activeBias }.goto t
    (.waking false (if oldcount &&& activeMask ≠ 0 then .undo else .front))

def undo (s : State T) (t : T) : State T :=
  let count := s.count - activeBias
  { s with count := count }.goto t (.waking false (if count &&& activeMask ≠ 0 then .out else .start))

/-- The run of readers `readers_only` counts; the first waiter is known to be one. -/
def readerRun (waiter : T → Waiter) : List T → ℕ
  | [] => 0
  | _ :: rest => 1 + (rest.takeWhile fun u => waiter u = .queued .read).length

def readersOnly (s : State T) (t : T) (downgrading : Bool) : State T :=
  let loop := readerRun s.waiter s.waitList
  let woken := BitVec.ofNat 32 loop * (activeBias - waitingBias) - if downgrading then 0 else activeBias
  { s with
    count := s.count + woken
    waiter := fun u => if u ∈ s.waitList.take loop then .counted else s.waiter u }.goto t
      (.waking downgrading (.granting loop))

/-- Looks at the front waiter with the active part taken from 0 to 1. -/
def wakeFront (s : State T) (t : T) : State T :=
  match s.waitList with
  | [] => s
  | u :: rest =>
    if s.waiter u = .queued .write then
      ({ s with waitList := rest }.setWaiter u (.granted .write)).goto t (.waking false .out)
    else readersOnly s t false

def dontWakeWriters (s : State T) (t : T) : State T :=
  match s.waitList with
  | [] => s
  | u :: _ => if s.waiter u = .queued .write then s.goto t (.waking true .out) else readersOnly s t true

/-- One turn of the loop that sets `waiter->task = NULL`; nobody else reads the list meanwhile. -/
def grantNext (s : State T) (t : T) (downgrading : Bool) (loop : ℕ) : State T :=
  match s.waitList with
  | [] => s
  | u :: rest =>
    ({ s with waitList := rest }.setWaiter u (.granted .read)).goto t (.waking downgrading (.granting loop))

/-- `spin_unlock` after `__rwsem_do_wake`: a task with a waiter goes on to wait for its grant. -/
def unlock (s : State T) (t : T) (downgrading : Bool) : State T :=
  { s with waitLock := none }.goto t
    (if downgrading then .holding .read else if s.waiter t = Waiter.none then .idle else .sleeping)

def doWake (s : State T) (t : T) (downgrading : Bool) : Point → State T
  | .start => if downgrading then dontWakeWriters s t else tryAgain s t
  | .undo => undo s t
  | .front => wakeFront s t
  | .granting 0 => s.goto t (.waking downgrading .out)
  | .granting (loop + 1) => grantNext s t downgrading loop
  | .out => unlock s t downgrading

/-- The wait loop ends once `waiter->task` is NULL. -/
def checkGranted (s : State T) (t : T) : State T :=
  match s.waiter t with
  | .granted k => (s.setWaiter t .none).goto t (.holding k)
  | _ => s

/-- The operation a task starts when it is not inside one. -/
inductive Op where
  | downRead
  | downReadTrylock
  | downWrite
  | downWriteTrylock
  | upRead
  | upWrite
  | downgradeWrite

/-- A call by a task that does not hold the semaphore. -/
def acquire (s : State T) (t : T) : Op → State T
  | .downRead => downRead s t
  | .downReadTrylock => s.goto t .tryLoad
  | .downWrite => downWrite s t
  | .downWriteTrylock => downWriteTrylock s t
  | _ => s

/-- A call by a task that holds the semaphore: it releases or downgrades only what it holds. -/
def release (s : State T) (t : T) : Kind → Op → State T
  | .read, .upRead => upRead s t
  | .write, .upWrite => upWrite s t
  | .write, .downgradeWrite => downgradeWrite s t
  | _, _ => s

/-- One atomic step of task `t`; `op` is the call it makes if it is not inside one. -/
def step (s : State T) (t : T) (op : Op) : State T :=
  match s.pc t with
  | .idle => acquire s t op
  | .holding k => release s t k op
  | .tryLoad => downReadTrylockLoad s t
  | .tryCas tmp _ => downReadTrylockCas s t tmp
  | .failed k => s.lock t (.queuing k)
  | .queuing k => downFailedQueue s t k
  | .sleeping => checkGranted s t
  | .released => s.lock t (.waking false (wakeUnlessEmpty s))
  | .downgraded => s.lock t (.waking true (wakeUnlessEmpty s))
  | .waking downgrading pt => doWake s t downgrading pt

def Step (s s' : State T) : Prop :=
  ∃ t op, s' = step s t op

/-- Inside the critical section, or a writer that has become a reader and still wakes others. -/
def Pc.holds (k : Kind) : Pc → Bool
  | .holding k' => k = k'
  | .downgraded | .waking true _ => k = .read
  | _ => false

/-- Granted by a waker, whether the task has noticed or not. -/
def Waiter.holds (k : Kind) : Waiter → Bool
  | .granted k' => k = k'
  | _ => false

def Holds (s : State T) (k : Kind) (t : T) : Prop :=
  ((s.pc t).holds k || (s.waiter t).holds k) = true

instance (s : State T) (k : Kind) : DecidablePred (Holds s k) :=
  fun _ => inferInstanceAs (Decidable (_ = true))

def holders [Fintype T] (s : State T) (k : Kind) : ℕ :=
  (Finset.univ.filter (Holds s k)).card

/-- No task is between two steps of an operation; tasks may hold the semaphore or wait for it. -/
def Quiet (s : State T) : Prop :=
  ∀ t, s.pc t = .idle ∨ s.pc t = .sleeping ∨ ∃ k, s.pc t = .holding k

end Rwsem
