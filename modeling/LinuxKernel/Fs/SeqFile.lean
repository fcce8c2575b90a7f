/- The sequence files of fs/seq_file.c: records are shown into a buffer that is handed to the reader piece
by piece. -/
import Mathlib.Algebra.Group.Nat.Defs
import LinuxKernel.Foundation.Fuel

namespace SeqFs

/-- What `start` and `next` return: NULL, an error or an element. -/
inductive Elem (π : Type) where
  | null
  | err (code : Int)
  | elem (p : π)

/-- The methods of a sequence and the functions that can fail. All may depend on a world and change it;
a text is what `show` appends. -/
structure Ops (ω π : Type) where
  start : ω → Nat → ω × Elem π × Nat
  next : ω → π → Nat → ω × Elem π × Nat
  show_ : ω → π → ω × List UInt8 × Int
  stop : ω → ω
  kmalloc : ω → Nat → ω × Bool
  copyToUser : ω → ω × Bool
  pageSize : Nat
  pageSize_pos : 0 < pageSize

/-- `struct seq_file`. Of the buffer there is what `show` has written from its beginning on: behind it the
buffer is stale or not initialised. -/
structure SeqFile where
  buf : Option (List UInt8)
  size : Nat
  from_ : Nat
  count : Nat
  index : Nat
  readPos : Nat
  deriving DecidableEq, Repr

/-- What happens to the buffer in `seq_read`: what is left of it is flushed, records are copied that were
just shown, or it grows. A byte that was not written has no value; the bytes of a copy that fails are
noted too. -/
inductive Event where
  | flush (from_ count size : Nat) (bytes : List (Option UInt8)) (ok : Bool)
  | fill (from_ : Nat) (bytes : List (Option UInt8)) (ok : Bool)
  | grow (ok : Bool)
  deriving DecidableEq, Repr

structure State (ω : Type) where
  m : SeqFile
  world : ω
  events : List Event

def EAGAIN : Int := 11
def ENOMEM : Int := 12
def EFAULT : Int := 14
def EINVAL : Int := 22

def seqOpen {ω : Type} (world : ω) : State ω := ⟨⟨none, 0, 0, 0, 0, 0⟩, world, []⟩

section

variable {ω π : Type} (ops : Ops ω π) (s : State ω)

namespace State

def setCount (n : Nat) : State ω := { s with m := { s.m with count := n } }

def setFrom (n : Nat) : State ω := { s with m := { s.m with from_ := n } }

def setIndex (n : Nat) : State ω := { s with m := { s.m with index := n } }

def setReadPos (n : Nat) : State ω := { s with m := { s.m with readPos := n } }

def log (e : Event) : State ω := { s with events := s.events ++ [e] }

end State

def start (pos : Nat) : State ω × Elem π × Nat :=
  let (world, p, pos) := ops.start s.world pos
  ({ s with world := world }, p, pos)

def next (p : π) (pos : Nat) : State ω × Elem π × Nat :=
  let (world, p, pos) := ops.next s.world p pos
  ({ s with world := world }, p, pos)

def stop : State ω := { s with world := ops.stop s.world }

/-- `show` appends its text as `seq_puts` and `seq_printf` do: a buffer that gets full has overflowed. -/
def append (m : SeqFile) (text : List UInt8) : SeqFile :=
  { m with
    buf := m.buf.map fun data => data.take m.count ++ text.take (m.size - m.count)
    count := if m.count + text.length < m.size then m.count + text.length else m.size }

def show_ (p : π) : State ω × Int :=
  let (world, text, ret) := ops.show_ s.world p
  ({ s with m := append s.m text, world := world }, ret)

/-- `m->buf = kmalloc(m->size = n, GFP_KERNEL)` -/
def alloc (n : Nat) : State ω × Bool :=
  let (world, ok) := ops.kmalloc s.world n
  ({ s with m := { s.m with size := n, buf := if ok then some [] else none }, world := world }, ok)

def bytesAt (m : SeqFile) (start n : Nat) : List (Option UInt8) :=
  (List.range n).map fun i => (m.buf.getD [])[start + i]?

/-- The buffer of the first use -/
def grab : State ω × Bool :=
  if s.m.buf.isNone then alloc ops s ops.pageSize else (s, true)

/-- The loop of `traverse`. The state in which it is cut when the fuel is used up is the error. -/
def traverseFrom (offset : Nat) : Nat → State ω → Elem π → Nat → Nat → Except (State ω) (State ω × Int)
  | 0, s, _, _, _ => .error s
  | fuel + 1, s, p, pos, index =>
    match p with
    | .null => .ok ((stop ops s).setIndex index, 0)
    | .err code => .ok ((stop ops s).setIndex index, code)
    | .elem p =>
      let (s, error) := show_ ops s p
      if error < 0 then .ok ((stop ops s).setIndex index, error)
      else
        let s := if error ≠ 0 then s.setCount 0 else s
        if s.m.count = s.m.size then
          -- Eoverflow
          let (s, ok) := alloc ops (stop ops s) (2 * s.m.size)
          .ok (s, if ok then -EAGAIN else -ENOMEM)
        else if offset < pos + s.m.count then
          let s := (s.setFrom (offset - pos)).setCount (s.m.count - (offset - pos))
          .ok ((stop ops s).setIndex index, 0)
        else
          let pos := pos + s.m.count
          let s := s.setCount 0
          if pos = offset then .ok ((stop ops s).setIndex (index + 1), 0)
          else
            let (s, p, index) := next ops s p index
            traverseFrom offset fuel s p pos index

def traverse (fuel offset : Nat) : Except (State ω) (State ω × Int) :=
  let s := (s.setCount 0).setFrom 0
  if offset = 0 then .ok (s.setIndex 0, 0)
  else
    let (s, ok) := grab ops s
    if !ok then .ok (s, -ENOMEM)
    else
      let (s, p, index) := start ops s 0
      traverseFrom ops offset fuel s p 0 index

/-- `while ((err = traverse(m, offset)) == -EAGAIN)` -/
def traverseAgain (fuel offset : Nat) : Nat → State ω → Except (State ω) (State ω × Int)
  | 0, s => .error s
  | n + 1, s => do
    let (s, err) ← traverse ops s fuel offset
    if err = -EAGAIN then traverseAgain fuel offset n s else return (s, err)

/-- What both callers of `traverse` do after an error. -/
def State.reset : State ω := { s with m := { s.m with readPos := 0, index := 0, count := 0 } }

/-- How the first loop of `seq_read` ends: a record is in the buffer, or there is none. -/
inductive Found (π : Type) where
  | fill (p : π) (pos : Nat)
  | done (err : Int)

/-- The first loop of `seq_read` -/
def findRecord : Nat → State ω → Elem π → Nat → Except (State ω) (State ω × Found π)
  | 0, s, _, _ => .error s
  | fuel + 1, s, p, pos =>
    match p with
    | .null => .ok ((stop ops s).setCount 0, .done 0)
    | .err code => .ok ((stop ops s).setCount 0, .done code)
    | .elem p =>
      let (s, err) := show_ ops s p
      if err < 0 then .ok ((stop ops s).setCount 0, .done err)
      else
        let s := if err ≠ 0 then s.setCount 0 else s
        if s.m.count = 0 then
          let (s, p, pos) := next ops s p pos
          findRecord fuel (s.setIndex pos) p pos
        else if s.m.count < s.m.size then .ok (s, .fill p pos)
        else
          let (s, ok) := alloc ops (stop ops s) (2 * s.m.size)
          let s := s.log (.grow ok)
          if !ok then .ok (s, .done (-ENOMEM))
          else
            let s := s.setCount 0
            let (s, p, pos) := start ops s s.m.index
            findRecord fuel s p pos

/-- The loop behind `Fill` -/
def fillMore (size : Nat) : Nat → State ω → π → Nat → Except (State ω) (State ω × Nat)
  | 0, s, _, _ => .error s
  | fuel + 1, s, p, pos =>
    if s.m.count < size then
      let offs := s.m.count
      let (s, q, nextPos) := next ops s p pos
      match q with
      | .null => .ok (stop ops s, pos)
      | .err _ => .ok (stop ops s, pos)
      | .elem q =>
        let (s, err) := show_ ops s q
        if s.m.count = s.m.size ∨ err ≠ 0 then
          let s := s.setCount offs
          if err ≤ 0 then .ok (stop ops s, pos) else fillMore size fuel s q nextPos
        else fillMore size fuel s q nextPos
    else .ok (stop ops s, pos)

/-- `Done`: the result and the new position. -/
def done (copied : Nat) (err : Int) (ppos : Nat) : State ω × Int × Nat :=
  if copied = 0 then (s, err, ppos)
  else (s.setReadPos (s.m.readPos + copied), (copied : Int), ppos + copied)

/-- `copy_to_user`, where `e` is what the copy is noted as. -/
def copyOut (e : Bool → Event) : State ω × Bool :=
  let (world, ok) := ops.copyToUser s.world
  ({ s with world := world }.log (e ok), ok)

/-- `n` bytes of the records behind `Fill` were copied. -/
def recordsCopied (n pos : Nat) : State ω :=
  let s := s.setCount (s.m.count - n)
  if s.m.count ≠ 0 then (s.setFrom n).setIndex pos else s.setIndex (pos + 1)

/-- The last part of `seq_read`: the records in the buffer are copied. -/
def copyRecords (size pos copied ppos : Nat) : State ω × Int × Nat :=
  let n := min s.m.count size
  let (s, ok) := copyOut ops s (.fill s.m.from_ (bytesAt s.m 0 n))
  if !ok then done s copied (-EFAULT) ppos else done (recordsCopied s n pos) (copied + n) 0 ppos

/-- `seq_read` once nothing is left in the buffer. -/
def readRecords (fuel size copied ppos : Nat) : Except (State ω) (State ω × Int × Nat) := do
  let (s, p, pos) := start ops s s.m.index
  let (s, found) ← findRecord ops fuel s p pos
  match found with
  | .done err => return done s copied err ppos
  | .fill p pos =>
    let (s, pos) ← fillMore ops size fuel s p pos
    return copyRecords ops s size pos copied ppos

/-- `n` bytes of what was left were copied. -/
def flushed (n : Nat) : State ω :=
  let s := (s.setCount (s.m.count - n)).setFrom (s.m.from_ + n)
  if s.m.count = 0 then s.setIndex (s.m.index + 1) else s

/-- `if (m->count)`: what is left in the buffer is flushed first. -/
def flush (fuel size ppos : Nat) : Except (State ω) (State ω × Int × Nat) :=
  let n := min s.m.count size
  let (s, ok) := copyOut ops s (.flush s.m.from_ s.m.count s.m.size (bytesAt s.m s.m.from_ n))
  if !ok then .ok (done s 0 (-EFAULT) ppos)
  else if size - n = 0 then .ok (done (flushed s n) n 0 ppos)
  else readRecords ops (flushed s n) fuel (size - n) n ppos

/-- `seq_read` behind the change of the position. -/
def readHere (fuel size ppos : Nat) : Except (State ω) (State ω × Int × Nat) :=
  let (s, ok) := grab ops s
  if !ok then .ok (done s 0 (-ENOMEM) ppos)
  else if s.m.count ≠ 0 then flush ops s fuel size ppos
  else readRecords ops s fuel size 0 ppos

/-- `seq_read`: the result and the new `*ppos`. -/
def seqRead (fuel size ppos : Nat) : Except (State ω) (State ω × Int × Nat) :=
  if ppos ≠ s.m.readPos then do
    let (s, err) ← traverseAgain ops fuel ppos fuel (s.setReadPos ppos)
    if err ≠ 0 then return done s.reset 0 err ppos else readHere ops s fuel size ppos
  else readHere ops s fuel size ppos

/-- `seq_lseek`: the result and the new `f_pos`. -/
def seqLseek (fuel : Nat) (offset origin : Int) (fPos : Nat) : Except (State ω) (State ω × Int × Nat) :=
  if origin ≠ 0 ∧ origin ≠ 1 then .ok (s, -EINVAL, fPos)
  else
    -- a `loff_t` wraps
    let offset := if origin = 1 then Int.bmod (offset + fPos) (2 ^ 64) else offset
    if offset < 0 then .ok (s, -EINVAL, fPos)
    else if offset.toNat ≠ s.m.readPos then do
      let (s, retval) ← traverseAgain ops fuel offset.toNat fuel s
      if retval ≠ 0 then return (s.reset, retval, 0)
      else return (s.setReadPos offset.toNat, offset, offset.toNat)
    else .ok (s, offset, fPos)

end

/-- An open file: `read` uses its position, `pread` brings its own. -/
structure File (ω : Type) where
  s : State ω
  fPos : Nat

def Opened {ω : Type} (f : File ω) : Prop := ∃ world, f = ⟨seqOpen world, 0⟩

inductive Call where
  | read (size : Nat)
  | pread (size pos : Nat)
  | lseek (offset origin : Int)

/-- The file after a call and what the call returns. -/
def Call.exec {ω π : Type} (ops : Ops ω π) (fuel : Nat) (f : File ω) : Call → Except (State ω) (File ω × Int)
  | .read size => do
    let (s, ret, fPos) ← seqRead ops f.s fuel size f.fPos
    return (⟨s, fPos⟩, ret)
  | .pread size pos => do
    let (s, ret, _) ← seqRead ops f.s fuel size pos
    return (⟨s, f.fPos⟩, ret)
  | .lseek offset origin => do
    let (s, ret, fPos) ← seqLseek ops f.s fuel offset origin f.fPos
    return (⟨s, fPos⟩, ret)

end SeqFs
