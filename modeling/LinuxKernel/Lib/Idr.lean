/- The id to pointer map of lib/idr.c: allocation of the next free id, removal, lookup, replacement. -/
import Mathlib.Data.Fintype.Basic
import Mathlib.Logic.Function.Basic
import LinuxKernel.Foundation.Bitmap
import LinuxKernel.Foundation.Digits
import LinuxKernel.Foundation.Loop

namespace Idr

open Function

open Digits (digit)
open Bitmap (findNextZero)

/-- `BITS_PER_LONG`. -/
inductive Arch where
  | bits32
  | bits64
  deriving DecidableEq, Repr

def Arch.idrBits : Arch → Nat
  | .bits32 => 5
  | .bits64 => 6

def maxIdBit : Nat := 2 ^ 31

def Arch.maxLevel (arch : Arch) : Nat := (31 + arch.idrBits - 1) / arch.idrBits

def Arch.idrFreeMax (arch : Arch) : Nat := arch.maxLevel + arch.maxLevel

structure Layer (B : Nat) (S : Type) where
  bitmap : Fin (2 ^ B) → Bool
  ary : Fin (2 ^ B) → S
  count : Nat
  layer : Nat

/-- An entry of `ary`: in the lowest layer a user's pointer, above it another layer. -/
inductive Slot (B : Nat) (α : Type) where
  | null
  | ptr (a : α)
  | layer (p : Layer B (Slot B α))

abbrev IdrLayer (B : Nat) (α : Type) := Layer B (Slot B α)

/-- The fields of `struct idr`; the layers on the free list are not linked through `ary[0]` here. -/
structure Handle (B : Nat) (α : Type) where
  top : Option (IdrLayer B α)
  layers : Nat
  idFree : List (IdrLayer B α)

variable {α : Type} {B : Nat}

def Slot.isNull : Slot B α → Bool
  | null => true
  | _ => false

def Slot.toPtr : Slot B α → Option α
  | ptr a => some a
  | _ => none

/-- A user's pointer may be `NULL`. -/
def Slot.ofPtr : Option α → Slot B α
  | none => null
  | some a => ptr a

/-- `idp->top` as a pointer that may be `NULL`. -/
def Handle.topSlot (idp : Handle B α) : Slot B α :=
  match idp.top with
  | none => .null
  | some p => .layer p

def idrInit : Handle B α := ⟨none, 0, []⟩

def zeroed : IdrLayer B α := ⟨fun _ => false, fun _ => .null, 0, 0⟩

def setBit (p : IdrLayer B α) (n : Fin (2 ^ B)) : IdrLayer B α :=
  { p with bitmap := update p.bitmap n true }

def clearBit (p : IdrLayer B α) (n : Fin (2 ^ B)) : IdrLayer B α :=
  { p with bitmap := update p.bitmap n false }

def setAry (p : IdrLayer B α) (n : Fin (2 ^ B)) (e : Slot B α) : IdrLayer B α :=
  { p with ary := update p.ary n e }

/-- `p->bitmap == IDR_FULL`. -/
def isFull (p : IdrLayer B α) : Bool := decide (∀ n, p.bitmap n = true)

/-- `idr_pre_get`; the number is how many of its allocations succeed. -/
def idrPreGet (arch : Arch) : Nat → Handle B α → Handle B α × Bool
  | 0, idp => (idp, decide (arch.idrFreeMax ≤ idp.idFree.length))
  | budget + 1, idp =>
    if idp.idFree.length < arch.idrFreeMax then
      idrPreGet arch budget { idp with idFree := zeroed :: idp.idFree }
    else (idp, true)

/-- A layer on the way down and the slot that was taken in it. -/
abbrev Frame (B : Nat) (α : Type) := IdrLayer B α × Fin (2 ^ B)

/-- The layer of a frame as it is once the layer below it is `p`. -/
def putBack (p : IdrLayer B α) (f : Frame B α) : IdrLayer B α := setAry f.1 f.2 (.layer p)

/-- The top of the tree, seen from a layer and the path to it. -/
def climb : IdrLayer B α → List (Frame B α) → IdrLayer B α
  | p, [] => p
  | p, f :: pa => climb (putBack p f) pa

/-- The variables of `sub_alloc`. The entries of `pa` above `l` are the frames of the path. -/
structure Cursor (B : Nat) (α : Type) where
  p : IdrLayer B α
  pa : List (Frame B α)
  l : Nat
  id : Nat
  idFree : List (IdrLayer B α)

def Cursor.top (c : Cursor B α) : IdrLayer B α := climb c.p c.pa

/-- How `sub_alloc` ends. A `BUG_ON` and an overflow of the id are both a `bug`. -/
inductive SubRet where
  | id
  | needToGrow (id : Nat)
  | noMoreSpace
  | noMem
  | bug
  deriving DecidableEq, Repr

/-- One round of the `while` loop of `sub_alloc`. -/
def subAllocStep (layers : Nat) (c : Cursor B α) : Cursor B α ⊕ SubRet × Cursor B α :=
  let n := digit B c.l c.id
  match findNextZero c.p.bitmap n with
  | none =>
    -- no space available, go back to the previous layer
    let l := c.l + 1
    let id := (c.id ||| (2 ^ (l * B) - 1)) + 1
    if maxIdBit ≤ id then .inr (.bug, c)
    else if 2 ^ (layers * B) ≤ id then .inr (.needToGrow id, c)
    else
      match c.pa with
      | [] => .inr (.bug, c)
      | f :: pa =>
        let sh := (l + 1) * B
        if c.id >>> sh = id >>> sh then .inl { c with p := putBack c.p f, pa, l, id }
        else .inl { c with p := c.top, pa := [], l := layers - 1, id }
  | some m =>
    let id := if m ≠ n then ((c.id >>> (c.l * B)) ^^^ (n : Nat) ^^^ m) <<< (c.l * B) else c.id
    if maxIdBit ≤ id then .inr (.noMoreSpace, c)
    else
      match c.l with
      | 0 => .inr (.id, { c with id })
      | l + 1 =>
        match c.p.ary m with
        | .null =>
          match c.idFree with
          | [] => .inr (.noMem, c)
          | new :: idFree =>
            let new := { new with layer := l }
            let p := { setAry c.p m (.layer new) with count := c.p.count + 1 }
            .inl ⟨new, (p, m) :: c.pa, l, id, idFree⟩
        | .layer q => .inl { c with p := q, pa := (c.p, m) :: c.pa, l, id }
        | .ptr _ => .inr (.bug, c)

/-- Each round takes a smaller layer or a larger id. -/
def subAllocBound (layers : Nat) : Nat := maxIdBit * (layers + 1) + layers + 1

def subAlloc (layers : Nat) (top : IdrLayer B α) (id : Nat) (idFree : List (IdrLayer B α)) :
    Option (SubRet × Cursor B α) :=
  Loop.run (subAllocStep layers) (subAllocBound layers) ⟨top, [], layers - 1, id, idFree⟩

/-- The loop that gives the layers built so far back to the free list; the number is how many of
them stand above `idp->top`. -/
def tearDown : Nat → IdrLayer B α → List (IdrLayer B α) → List (IdrLayer B α)
  | 0, _, idFree => idFree
  | built + 1, p, idFree =>
    let idFree := { setAry p 0 .null with bitmap := fun _ => false, count := 0 } :: idFree
    match p.ary 0 with
    | .layer q => tearDown built q idFree
    | _ => idFree

/-- The new top that is put above a top of that many layers. -/
def cover (new p : IdrLayer B α) (layers : Nat) : IdrLayer B α :=
  let new := { setAry new 0 (.layer p) with count := 1, layer := layers }
  if isFull p then setBit new 0 else new

/-- The loop of `idr_get_empty_slot` that adds layers at the top. It fails with the free list. -/
def grow (arch : Arch) (id : Nat) : Nat → Nat → IdrLayer B α → Nat → List (IdrLayer B α) →
    Except (List (IdrLayer B α)) (IdrLayer B α × Nat × List (IdrLayer B α))
  | 0, _, p, layers, idFree => .ok (p, layers, idFree)
  | bound + 1, built, p, layers, idFree =>
    if layers < arch.maxLevel - 1 ∧ 2 ^ (layers * B) ≤ id then
      if p.count = 0 then
        -- an empty tree grows by moving its top upwards
        grow arch id bound built { p with layer := p.layer + 1 } (layers + 1) idFree
      else
        match idFree with
        | [] => .error (tearDown built p [])
        | new :: idFree =>
          grow arch id bound (built + 1) (cover new p layers) (layers + 1) idFree
    else .ok (p, layers, idFree)

/-- The outcome of `idr_get_empty_slot`: the slot, as a cursor below that many layers, or why there
is none. -/
inductive EmptySlot (B : Nat) (α : Type) where
  | slot (layers : Nat) (c : Cursor B α)
  | fail (idp : Handle B α) (ret : SubRet)

/-- The top, or a new one for an empty idr, with the number of layers not below `idp->top`. -/
def topOrNew (idp : Handle B α) : Option (Nat × IdrLayer B α × Nat × List (IdrLayer B α)) :=
  match idp.top with
  | some p => some (0, p, idp.layers, idp.idFree)
  | none =>
    match idp.idFree with
    | [] => none
    | p :: idFree => some (1, { p with layer := 0 }, 1, idFree)

/-- The end of `idr_get_empty_slot`, which goes back to `build_up` if the tree is full. -/
def afterSubAlloc (layers : Nat) : Option (SubRet × Cursor B α) →
    Handle B α × Nat ⊕ Option (EmptySlot B α)
  | none => .inr none
  | some (.id, c) => .inr (some (.slot layers c))
  | some (.needToGrow id, c) => .inl (⟨some c.top, layers, c.idFree⟩, id)
  | some (ret, c) => .inr (some (.fail ⟨some c.top, layers, c.idFree⟩ ret))

/-- From `build_up` to the end of `idr_get_empty_slot`. -/
def getEmptySlotStep (arch : Arch) (s : Handle B α × Nat) : Handle B α × Nat ⊕ Option (EmptySlot B α) :=
  let (idp, id) := s
  match topOrNew idp with
  | none => .inr (some (.fail idp .noMem))
  | some (built, p, layers, idFree) =>
    match grow arch id arch.maxLevel built p layers idFree with
    | .error idFree => .inr (some (.fail { idp with idFree } .noMem))
    | .ok (p, layers, idFree) => afterSubAlloc layers (subAlloc layers p id idFree)

def idrGetEmptySlot (arch : Arch) (idp : Handle B α) (startingId : Nat) : Option (EmptySlot B α) :=
  (Loop.run (getEmptySlotStep arch) (arch.maxLevel + 2) (idp, startingId)).join

/-- `idr_mark_full` from the layer at level `l` upwards. It returns the top of the tree. -/
def idrMarkFull (id : Nat) : Nat → IdrLayer B α → List (Frame B α) → IdrLayer B α
  | l, p, [] => setBit p (digit B l id)
  | l, p, f :: pa =>
    let p := setBit p (digit B l id)
    if isFull p then idrMarkFull id (l + 1) (putBack p f) pa else climb p (f :: pa)

inductive Ret where
  | ok (id : Nat)
  | eagain
  | enospc
  | bug
  deriving DecidableEq, Repr

/-- `_idr_rc_to_errno`. -/
def rcToErrno : SubRet → Ret
  | .noMem => .eagain
  | .bug => .bug
  | _ => .enospc

/-- `idr_get_new_above_int` and `idr_get_new_above`. -/
def idrGetNewAbove (arch : Arch) (idp : Handle B α) (ptr : Option α) (startingId : Nat) : Option (Handle B α × Ret) :=
  (idrGetEmptySlot arch idp startingId).map fun
    | .slot layers c =>
      let p := { setAry c.p (digit B 0 c.id) (.ofPtr ptr) with count := c.p.count + 1 }
      (⟨some (idrMarkFull c.id 0 p c.pa), layers, c.idFree⟩, .ok c.id)
    | .fail idp ret => (idp, rcToErrno ret)

/-- `sub_remove` in the subtree of a slot: what the slot holds afterwards, and whether it was
emptied, so that `count` of the layer above goes down. -/
def subRemove (id : Nat) : Nat → Slot B α → Slot B α × Bool
  | 0, .layer p =>
    let n := digit B 0 id
    if p.bitmap n then
      let p : IdrLayer B α := { setAry (clearBit p n) n .null with count := p.count - 1 }
      if p.count = 0 then (.null, true) else (.layer p, false)
    else (.layer p, false)
  | h + 1, .layer p =>
    let n := digit B (h + 1) id
    match subRemove id h (p.ary n) with
    | (c, true) =>
      let p : IdrLayer B α := { setAry (clearBit p n) n c with count := p.count - 1 }
      if p.count = 0 then (.null, true) else (.layer p, false)
    | (c, false) => (.layer (setAry (clearBit p n) n c), false)
  | _, e => (e, false)

/-- The part of `idr_remove` that takes a top with a single leftmost child away. -/
def shrink (idp : Handle B α) : Handle B α :=
  match idp.top with
  | some p =>
    match p.ary 0 with
    | .layer q =>
      if p.count = 1 ∧ 1 < idp.layers then { idp with top := some q, layers := idp.layers - 1 }
      else idp
    | _ => idp
  | none => idp

def idrRemove (arch : Arch) (idp : Handle B α) (id : Nat) : Handle B α :=
  let id := id % maxIdBit
  let idp : Handle B α :=
    match idp.top with
    | none => idp
    | some p =>
      match subRemove id (idp.layers - 1) (.layer p) with
      | (.layer p, _) => { idp with top := some p }
      | (_, _) => { idp with top := none, layers := 0 }
  let idp := shrink idp
  { idp with idFree := idp.idFree.drop (idp.idFree.length + 1 - arch.idrFreeMax) }

/-- `idr_destroy` only gives the free list back. -/
def idrDestroy (idp : Handle B α) : Handle B α := { idp with idFree := [] }

/-- The loop of `idr_find`; a wrong layer number is a `BUG_ON`. -/
def findDown (id : Nat) : Nat → Slot B α → Option (Option α)
  | 0, e => some e.toPtr
  | _ + 1, .null => some none
  | h + 1, .layer p => if h ≠ p.layer then none else findDown id h (p.ary (digit B h id))
  | _ + 1, .ptr _ => none

def idrFind (idp : Handle B α) (id : Nat) : Option (Option α) :=
  match idp.top with
  | none => some none
  | some p =>
    let id := id % maxIdBit
    if 2 ^ ((p.layer + 1) * B) ≤ id then some none else findDown id (p.layer + 1) (.layer p)

inductive ReplaceRet (α : Type) where
  | old (ptr : Option α)
  | einval
  | enoent

/-- The descent of `idr_replace`, and its store in the lowest layer. -/
def replaceDown (id : Nat) (ptr : Option α) : Nat → Slot B α → Slot B α × ReplaceRet α
  | 0, .layer p =>
    let n := digit B 0 id
    if p.bitmap n then (.layer (setAry p n (.ofPtr ptr)), .old (p.ary n).toPtr)
    else (.layer p, .enoent)
  | h + 1, .layer p =>
    let n := digit B (h + 1) id
    let (c, ret) := replaceDown id ptr h (p.ary n)
    (.layer (setAry p n c), ret)
  | _, e => (e, .enoent)

def idrReplace (idp : Handle B α) (ptr : Option α) (id : Nat) : Handle B α × ReplaceRet α :=
  match idp.top with
  | none => (idp, .einval)
  | some p =>
    let id := id % maxIdBit
    if 2 ^ ((p.layer + 1) * B) ≤ id then (idp, .einval)
    else
      match replaceDown id ptr p.layer (.layer p) with
      | (.layer p, ret) => ({ idp with top := some p }, ret)
      | (_, ret) => (idp, ret)

end Idr
