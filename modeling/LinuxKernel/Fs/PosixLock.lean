/- POSIX locks of fs/locks.c: the locks of an inode, the requests that wait for them, and how a
request changes both. -/
import Mathlib.Algebra.Group.Int.Defs
import Mathlib.Algebra.Group.Nat.Defs
import Mathlib.Logic.Function.Basic

namespace PosixLock

/-- `fl_type`. A lock on an inode is never `F_UNLCK`. -/
inductive LockType where
  | rdlck
  | wrlck
  | unlck
  deriving DecidableEq, Repr

/-- The fields of `struct file_lock` that POSIX locks use; `id` is its address, `stop` is `fl_end`. -/
structure FileLock (ω : Type) where
  id : Nat
  owner : ω
  type : LockType
  start : Int
  stop : Int

/-- A lock with the flags `FL_SLEEP`, `FL_ACCESS` and `FL_EXISTS`, as the caller passes it. -/
structure Request (ω : Type) where
  lock : FileLock ω
  sleep : Bool
  access : Bool
  exist : Bool

/-- A request on `blocked_list`, whose `fl_next` is the lock it waits for. -/
structure Waiter (ι ω : Type) where
  request : FileLock ω
  inode : ι
  next : Nat

/-- The lists of locks of all inodes, and `blocked_list`. -/
structure State (ι ω : Type) where
  flock : ι → List (FileLock ω)
  blocked : List (Waiter ι ω)

inductive Ret where
  | ok
  | eagain
  | edeadlk
  | deferred
  | enolck
  | enoent
  deriving DecidableEq, Repr

def offsetMax : Int := 2 ^ 63 - 1

/-- The arithmetic of `loff_t`. -/
def loff (x : Int) : Int := Int.bmod x (2 ^ 64)

variable {ι ω : Type} [DecidableEq ι] [DecidableEq ω]

def locksOverlap (fl1 fl2 : FileLock ω) : Bool := fl2.start ≤ fl1.stop && fl1.start ≤ fl2.stop

def locksConflict (caller sys : FileLock ω) : Bool :=
  sys.type == .wrlck || caller.type == .wrlck

def posixLocksConflict (caller sys : FileLock ω) : Bool :=
  if caller.owner = sys.owner then false
  else if !locksOverlap caller sys then false
  else locksConflict caller sys

def maxDeadlkIterations : Nat := 10

/-- `what_owner_is_waiting_for`: the lock that the owner's first waiter on `blocked_list` points to. -/
def whatOwnerIsWaitingFor (s : State ι ω) (owner : ω) : Option (FileLock ω) :=
  (s.blocked.find? fun w => w.request.owner = owner).bind fun w =>
    (s.flock w.inode).find? fun fl => fl.id = w.next

/-- The loop of `posix_locks_deadlock`, with the hops that are left. -/
def posixLocksDeadlockFrom (s : State ι ω) (caller : ω) : Nat → ω → Bool
  | 0, _ => false
  | left + 1, owner =>
    match whatOwnerIsWaitingFor s owner with
    | none => false
    | some block =>
      if caller = block.owner then true else posixLocksDeadlockFrom s caller left block.owner

/-- `posix_locks_deadlock`. The test `i++ > MAX_DEADLK_ITERATIONS` lets one hop more through. -/
def posixLocksDeadlock (s : State ι ω) (caller block : FileLock ω) : Bool :=
  posixLocksDeadlockFrom s caller.owner (maxDeadlkIterations + 1) block.owner

/-- Writes to the lock with an address. -/
def modify (id : Nat) (f : FileLock ω → FileLock ω) (locks : List (FileLock ω)) : List (FileLock ω) :=
  locks.map fun fl => if fl.id = id then f fl else fl

/-- The variables of `__posix_lock_file` in the pass. `before` holds the locks in front of `*before`,
and `woken` those whose waiters were taken off and woken. Once `request` points into the list, what is
written to it is written to the list as well. -/
structure Pass (ω : Type) where
  before : List (FileLock ω)
  request : FileLock ω
  added : Bool
  left : Option Nat
  right : Option Nat
  woken : List Nat

/-- "Process locks with this owner", with the locks from `*before` on. -/
def processLocks (s : Pass ω) : List (FileLock ω) → Pass ω × List (FileLock ω)
  | [] => (s, [])
  | fl :: rest =>
    let request := s.request
    if request.owner ≠ fl.owner then (s, fl :: rest)
    else if request.type = fl.type then
      if fl.stop < loff (request.start - 1) then processLocks { s with before := s.before ++ [fl] } rest
      else if request.stop < loff (fl.start - 1) then (s, fl :: rest)
      else
        -- one lock from the lower start to the higher end of both
        let start := if request.start < fl.start then request.start else fl.start
        let stop := if fl.stop < request.stop then request.stop else fl.stop
        let fl' := { fl with start, stop }
        let request' := { request with start, stop }
        if s.added then
          processLocks { s with
            before := modify request.id (fun _ => request') s.before
            request := request'
            woken := s.woken ++ [fl.id] } rest
        else processLocks { s with before := s.before ++ [fl'], request := fl', added := true } rest
    else if fl.stop < request.start then processLocks { s with before := s.before ++ [fl] } rest
    else if request.stop < fl.start then (s, fl :: rest)
    else
      let added := s.added || request.type == .unlck
      let left := if fl.start < request.start then some fl.id else s.left
      if request.stop < fl.stop then ({ s with added, left, right := some fl.id }, fl :: rest)
      else if request.start ≤ fl.start then
        if added then processLocks { s with added, left, woken := s.woken ++ [fl.id] } rest
        else
          let fl' := { fl with start := request.start, stop := request.stop, type := request.type }
          processLocks { s with
            before := s.before ++ [fl']
            request := fl'
            added := true
            left
            woken := s.woken ++ [fl.id] } rest
      else processLocks { s with before := s.before ++ [fl], added, left } rest

/-- The locks of the inode after a request, and those whose waiters were woken. -/
structure Outcome (ω : Type) where
  ret : Ret
  locks : List (FileLock ω)
  woken : List Nat

/-- `right->fl_start = request->fl_end + 1` and `left->fl_end = request->fl_start - 1`, each with a
wakeup. -/
def trim (request : FileLock ω) (left right : Option Nat) (woken : List Nat) (locks : List (FileLock ω)) :
    Outcome ω :=
  let locks := right.elim locks fun r =>
    modify r (fun fl => { fl with start := loff (request.stop + 1) }) locks
  let locks := left.elim locks fun l =>
    modify l (fun fl => { fl with stop := loff (request.start - 1) }) locks
  ⟨.ok, locks, woken ++ right.toList ++ left.toList⟩

/-- The last part of `__posix_lock_file` once the new lock is in place, with the locks from `*before`
on. A lock that the request breaks in two is copied in front of it. -/
def splitAndTrim (newFl2 : Option Nat) (s : Pass ω) (rest : List (FileLock ω)) : Outcome ω :=
  match s.right, newFl2 with
  | some r, some id =>
    if s.left = s.right then
      let copy := (rest.find? fun fl => fl.id = r).map fun fl => { fl with id }
      trim s.request (some id) s.right s.woken (s.before ++ copy.toList ++ rest)
    else trim s.request s.left s.right s.woken (s.before ++ rest)
  | _, _ => trim s.request s.left s.right s.woken (s.before ++ rest)

/-- `__posix_lock_file` after the pass. -/
def finish (exist : Bool) (newFl newFl2 : Option Nat) (p : Pass ω × List (FileLock ω)) : Outcome ω :=
  let s := p.1
  let rest := p.2
  if s.right.isSome && s.left = s.right && newFl2.isNone then ⟨.enolck, s.before ++ rest, s.woken⟩
  else if s.added then splitAndTrim newFl2 s rest
  else if s.request.type = .unlck then
    ⟨if exist then .enoent else .ok, s.before ++ rest, s.woken⟩
  else
    match newFl with
    | none => ⟨.enolck, s.before ++ rest, s.woken⟩
    | some id => splitAndTrim newFl2 s ({ s.request with id } :: rest)

/-- What a request without conflict does to the locks of its inode. -/
def setLock (r : Request ω) (newFl newFl2 : Option Nat) (locks : List (FileLock ω)) : Outcome ω :=
  let others := fun fl : FileLock ω => decide (fl.owner ≠ r.lock.owner)
  finish r.exist newFl newFl2
    (processLocks ⟨locks.takeWhile others, r.lock, false, none, none, []⟩ (locks.dropWhile others))

/-- Whether the locks that a request may need are allocated in advance. -/
def needsLocks (r : Request ω) : Bool :=
  !r.access && (r.lock.type != .unlck || r.lock.start != 0 || r.lock.stop != offsetMax)

/-- `__posix_lock_file`, with the results of the two allocations. -/
def posixLockFile (s : State ι ω) (i : ι) (r : Request ω) (newFl newFl2 : Option Nat) : State ι ω × Ret :=
  let newFl := if needsLocks r then newFl else none
  let newFl2 := if needsLocks r then newFl2 else none
  let conflict :=
    if r.lock.type = .unlck then none else (s.flock i).find? (posixLocksConflict r.lock)
  match conflict with
  | some fl =>
    if !r.sleep then (s, .eagain)
    else if posixLocksDeadlock s r.lock fl then (s, .edeadlk)
    else ({ s with blocked := ⟨r.lock, i, fl.id⟩ :: s.blocked }, .deferred)
  | none =>
    if r.access then (s, .ok)
    else
      let o := setLock r newFl newFl2 (s.flock i)
      ({ flock := Function.update s.flock i o.locks
         blocked := s.blocked.filter fun w => w.next ∉ o.woken }, o.ret)

/-- `locks_delete_block`, for a request whose process was interrupted. -/
def locksDeleteBlock (s : State ι ω) (request : Nat) : State ι ω :=
  { s with blocked := s.blocked.filter fun w => w.request.id ≠ request }

end PosixLock
