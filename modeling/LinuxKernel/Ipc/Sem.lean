/- Semaphore arrays of ipc/sem.c: vectors of operations that are performed as one, and the queue of the
tasks that wait for theirs. -/
import Mathlib.Logic.Function.Basic

namespace Sem

open Function

def SEMVMX : Int := 32767
def SEMAEM : Int := SEMVMX

def EINTR : Int := 4
def E2BIG : Int := 7
def EAGAIN : Int := 11
def EACCES : Int := 13
def EINVAL : Int := 22
def EFBIG : Int := 27
def ERANGE : Int := 34

/-- `struct sembuf`, with the flags `IPC_NOWAIT` and `SEM_UNDO`. -/
structure Sembuf where
  semNum : Nat
  semOp : Int
  ipcNowait : Bool
  semUndo : Bool
  deriving DecidableEq, Repr

/-- `struct sem_queue`, on the stack of the task that sleeps. -/
structure SemQueue (τ υ : Type) where
  sleeper : τ
  undo : Option υ
  pid : Int
  sops : List Sembuf
  alter : Bool

def onlySem : List Sembuf → Option Nat
  | [sop] => some sop.semNum
  | _ => none

/-- `struct sem_array`, and what belongs to it in the tasks. Semaphore `i` has the value `semval i` and the
queue `simple i` for single operations. The undo structures of the array are listed by the undo list of
the tasks they belong to; `semadj` is an array of `short`. -/
structure SemArray (τ υ : Type) where
  nsems : Nat
  semval : Nat → Int
  sempid : Nat → Int
  semPending : List (SemQueue τ υ)
  simple : Nat → List (SemQueue τ υ)
  complexCount : Nat
  semadj : υ → Option (Nat → BitVec 16)
  status : τ → Int
  undoList : τ → Option υ
  refcnt : υ → Nat

variable {τ υ : Type} [DecidableEq τ] [DecidableEq υ]

/-- The array `un->semadj`; a vector without `SEM_UNDO` does not read it. -/
def SemArray.adj (s : SemArray τ υ) (un : Option υ) : Nat → BitVec 16 :=
  (un.bind s.semadj).getD fun _ => 0

def wouldBlock (sop : Sembuf) : Int := if sop.ipcNowait then -EAGAIN else 1

/-- The first loop: the values, the operations performed so far with the last one in front, and the
result. -/
def performOps (adj : Nat → BitVec 16) (semval : Nat → Int) (done : List Sembuf) :
    List Sembuf → (Nat → Int) × List Sembuf × Int
  | [] => (semval, done, 0)
  | sop :: sops =>
    let result := semval sop.semNum
    if sop.semOp = 0 ∧ result ≠ 0 then (semval, done, wouldBlock sop)
    else
      let result := result + sop.semOp
      let undo := (adj sop.semNum).toInt - sop.semOp
      if result < 0 then (semval, done, wouldBlock sop)
      else if SEMVMX < result then (semval, done, -ERANGE)
      else if sop.semUndo ∧ (undo < -SEMAEM - 1 ∨ SEMAEM < undo) then (semval, done, -ERANGE)
      else performOps adj (update semval sop.semNum result) (sop :: done) sops

/-- A turn of the loop under `undo`. -/
def takeBack (semval : Nat → Int) (sop : Sembuf) : Nat → Int :=
  update semval sop.semNum (semval sop.semNum - sop.semOp)

/-- A turn of the second loop. -/
def stamp (un : Option υ) (pid : Int) (s : SemArray τ υ) (sop : Sembuf) : SemArray τ υ :=
  { s with
    sempid := update s.sempid sop.semNum pid
    semadj :=
      match un with
      | some u =>
        if sop.semUndo then
          update s.semadj u ((s.semadj u).map fun adj =>
            update adj sop.semNum (adj sop.semNum - BitVec.ofInt 16 sop.semOp))
        else s.semadj
      | none => s.semadj }

def tryAtomicSemop (s : SemArray τ υ) (sops : List Sembuf) (un : Option υ) (pid : Int) : SemArray τ υ × Int :=
  let (semval, done, result) := performOps (s.adj un) s.semval [] sops
  if result = 0 then (done.foldl (stamp un pid) { s with semval := semval }, 0)
  else ({ s with semval := done.foldl takeBack semval }, result)

def wakeUpSemQueue (s : SemArray τ υ) (q : SemQueue τ υ) (error : Int) : SemArray τ υ :=
  { s with status := update s.status q.sleeper error }

def unlinkQueue (s : SemArray τ υ) (q : SemQueue τ υ) : SemArray τ υ :=
  let listDel := List.filter fun x : SemQueue τ υ => x.sleeper ≠ q.sleeper
  if (onlySem q.sops).isSome then
    { s with semPending := listDel s.semPending, simple := fun i => listDel (s.simple i) }
  else { s with semPending := listDel s.semPending, complexCount := s.complexCount - 1 }

/-- The list that is scanned for semaphore `semnum`, or for all of them. -/
def SemArray.pendingList (s : SemArray τ υ) : Option Nat → List (SemQueue τ υ)
  | some semnum => s.simple semnum
  | none => s.semPending

/-- An entry that alters a semaphore whose value is 0 ends the scan of its list. -/
def breaks (s : SemArray τ υ) (semnum : Option Nat) (q : SemQueue τ υ) : Bool :=
  semnum.any (fun i => s.semval i = 0) && q.alter

/-- One scan, from `again` on. Only the entry that is looked at leaves the list, so the ones behind it are
those of the start. The second component tells that the scan has to start over. -/
def scan (semnum : Option Nat) (s : SemArray τ υ) : List (SemQueue τ υ) → SemArray τ υ × Bool
  | [] => (s, false)
  | q :: walk =>
    if breaks s semnum q then (s, false)
    else
      let (s, error) := tryAtomicSemop s q.sops q.undo q.pid
      if 0 < error then scan semnum s walk
      else
        let s := wakeUpSemQueue (unlinkQueue s q) q error
        if q.alter ∧ error = 0 then (s, true) else scan semnum s walk

/-- The scans of `update_queue`: each new one has one entry less to look at. -/
def scans (semnum : Option Nat) : Nat → SemArray τ υ → SemArray τ υ
  | 0, s => s
  | n + 1, s =>
    match scan semnum s (s.pendingList semnum) with
    | (s, true) => scans semnum n s
    | (s, false) => s

def updateQueue (s : SemArray τ υ) (semnum : Option Nat) : SemArray τ υ :=
  let semnum := if s.complexCount ≠ 0 then none else semnum
  scans semnum (s.semPending.length + 1) s

/-- `get_undo_list`, where `u` is the memory it gets. -/
def getUndoList (s : SemArray τ υ) (task : τ) (u : υ) : SemArray τ υ :=
  match s.undoList task with
  | some _ => s
  | none =>
    { s with
      undoList := update s.undoList task (some u)
      refcnt := update s.refcnt u 1 }

/-- `find_alloc_undo` of a task that has an undo list -/
def findAllocUndo (s : SemArray τ υ) (task : τ) : SemArray τ υ :=
  match s.undoList task with
  | none => s
  | some u =>
    match s.semadj u with
    | some _ => s
    | none => { s with semadj := update s.semadj u (some fun _ => 0) }

/-- `copy_semundo` with `CLONE_SYSVSEM` -/
def copySemundo (s : SemArray τ υ) (parent child : τ) : SemArray τ υ :=
  match s.undoList parent with
  | none => s
  | some u =>
    { s with
      undoList := update s.undoList child (some u)
      refcnt := update s.refcnt u (s.refcnt u + 1) }

/-- The part of `semtimedop` that queues the current task. -/
def enqueue (s : SemArray τ υ) (q : SemQueue τ υ) : SemArray τ υ :=
  let listAdd := fun list => if q.alter then list ++ [q] else q :: list
  let s := { s with
    semPending := listAdd s.semPending
    status := update s.status q.sleeper (-EINTR) }
  match onlySem q.sops with
  | some i => { s with simple := update s.simple i (listAdd (s.simple i)) }
  | none => { s with complexCount := s.complexCount + 1 }

/-- `semtimedop` until it returns or sleeps; in the latter case the result is 1. The caller has the undo
structure from `find_alloc_undo` if it needs one. -/
def semtimedop (semopm : Nat) (s : SemArray τ υ) (task : τ) (pid : Int) (sops : List Sembuf)
    (permitted : Bool) : SemArray τ υ × Int :=
  if sops.length < 1 then (s, -EINVAL)
  else if semopm < sops.length then (s, -E2BIG)
  else
    let max := sops.foldl (fun max sop => if max ≤ sop.semNum then sop.semNum else max) 0
    let undos := sops.any fun sop => sop.semUndo
    let alter := sops.any fun sop => sop.semOp ≠ 0
    let un := if undos then s.undoList task else none
    if s.nsems ≤ max then (s, -EFBIG)
    else if !permitted then (s, -EACCES)
    else
      let (s, error) := tryAtomicSemop s sops un pid
      if error ≤ 0 then
        if alter ∧ error = 0 then (updateQueue s (onlySem sops), error) else (s, error)
      else (enqueue s ⟨task, un, pid, sops, alter⟩, error)

/-- The end of `semtimedop` after a signal or a timeout: nobody has set the status, so the entry is
removed. -/
def interrupted (s : SemArray τ υ) (q : SemQueue τ υ) : SemArray τ υ := unlinkQueue s q

/-- `semctl` with `SETVAL` -/
def setval (s : SemArray τ υ) (semnum val pid : Int) : SemArray τ υ × Int :=
  if semnum < 0 ∨ (s.nsems : Int) ≤ semnum then (s, -EINVAL)
  else if SEMVMX < val ∨ val < 0 then (s, -ERANGE)
  else
    let i := semnum.toNat
    let s := { s with
      semadj := fun u => (s.semadj u).map fun adj => update adj i 0
      semval := update s.semval i val
      sempid := update s.sempid i pid }
    (updateQueue s (some i), 0)

/-- `semctl` with `SETALL` -/
def setall (s : SemArray τ υ) (semIo : Nat → Nat) : SemArray τ υ × Int :=
  if (List.range s.nsems).any fun i => SEMVMX < semIo i then (s, -ERANGE)
  else
    let s := { s with
      semval := fun i => if i < s.nsems then semIo i else s.semval i
      semadj := fun u => (s.semadj u).map fun adj i => if i < s.nsems then 0 else adj i }
    (updateQueue s none, 0)

/-- The value of a semaphore after an adjustment, capped at both ends. -/
def adjusted (semval : Int) (semadj : BitVec 16) : Int :=
  let semval := semval + semadj.toInt
  let semval := if semval < 0 then 0 else semval
  if SEMVMX < semval then SEMVMX else semval

/-- `exit_sem`, for this array -/
def exitSem (s : SemArray τ υ) (task : τ) (pid : Int) : SemArray τ υ :=
  match s.undoList task with
  | none => s
  | some u =>
    let s := { s with
      undoList := update s.undoList task none
      refcnt := update s.refcnt u (s.refcnt u - 1) }
    if s.refcnt u ≠ 0 then s
    else
      match s.semadj u with
      | none => s
      | some adj =>
        let s := { s with
          semadj := update s.semadj u none
          semval := fun i =>
            if i < s.nsems ∧ adj i ≠ 0 then adjusted (s.semval i) (adj i) else s.semval i
          sempid := fun i => if i < s.nsems ∧ adj i ≠ 0 then pid else s.sempid i }
        updateQueue s none

end Sem
