/- The extensible bitmap of security/selinux/ss/ebitmap.c: a list of nodes, each with its first position. -/
import Mathlib.Data.Fintype.Pi
import Mathlib.Data.List.FinRange
import Mathlib.Logic.Function.Basic
import LinuxKernel.Foundation.Width

namespace Selinux

open Width

/-- The two widths of `unsigned long` and of a pointer. -/
inductive Arch where
  | bits32
  | bits64
  deriving DecidableEq, Repr

namespace Arch

def sizeofLong : Arch → Nat
  | bits32 => 4
  | bits64 => 8

/-- `EBITMAP_UNIT_NUMS` -/
def unitNums (a : Arch) : Nat := (32 - a.sizeofLong - 4) / a.sizeofLong

/-- `EBITMAP_UNIT_SIZE` -/
def unitSize (a : Arch) : Nat := 8 * a.sizeofLong

/-- `EBITMAP_SIZE` -/
def size (a : Arch) : Nat := a.unitNums * a.unitSize

/-- Sums with `EBITMAP_SIZE` are of the type `unsigned long`. -/
def long (a : Arch) (n : Nat) : Nat := n % 2 ^ a.unitSize

end Arch

variable (a : Arch)

/-- `struct ebitmap_node`; `next` is the rest of the list. -/
structure EbitmapNode where
  maps : Fin a.unitNums → BitVec a.unitSize
  startbit : Nat
  deriving DecidableEq

structure Ebitmap where
  node : List (EbitmapNode a)
  highbit : Nat
  deriving DecidableEq

inductive Ret where
  | ok
  | enomem
  deriving DecidableEq, Repr

variable {a}

def ebitmapInit : Ebitmap a := ⟨[], 0⟩

section Nodes

variable (n : EbitmapNode a) (bit : Nat)

/-- `EBITMAP_NODE_INDEX` -/
def nodeIndex : Nat := u32 (2 ^ 32 + u32 bit - n.startbit) / a.unitSize

/-- `EBITMAP_NODE_OFFSET` -/
def nodeOffset : Nat := u32 (2 ^ 32 + u32 bit - n.startbit) % a.unitSize

/-- `EBITMAP_BIT << ofs` -/
def ebitmapBit (ofs : Nat) : BitVec a.unitSize := 1#a.unitSize <<< ofs

/-- `ebitmap_node_get_bit`; without a result the `BUG_ON` was reached, as below. -/
def ebitmapNodeGetBit : Option Bool :=
  if h : nodeIndex n bit < a.unitNums then some (n.maps ⟨_, h⟩ &&& ebitmapBit (nodeOffset n bit) != 0)
  else none

def ebitmapNodeSetBit : Option (EbitmapNode a) :=
  if h : nodeIndex n bit < a.unitNums then
    some { n with maps := Function.update n.maps ⟨_, h⟩ (n.maps ⟨_, h⟩ ||| ebitmapBit (nodeOffset n bit)) }
  else none

def ebitmapNodeClrBit : Option (EbitmapNode a) :=
  if h : nodeIndex n bit < a.unitNums then
    some { n with maps := Function.update n.maps ⟨_, h⟩ (n.maps ⟨_, h⟩ &&& ~~~ebitmapBit (nodeOffset n bit)) }
  else none

/-- The bit at `ofs` of the words of a node. -/
def nodeBit (ofs : Nat) : Bool :=
  if h : ofs / a.unitSize < a.unitNums then (n.maps ⟨_, h⟩).getLsbD (ofs % a.unitSize) else false

/-- `find_first_bit(n->maps, EBITMAP_SIZE)` -/
def findFirstBit : Nat := ((List.range a.size).find? (nodeBit n)).getD a.size

/-- `n->startbit + EBITMAP_SIZE > bit` -/
def reaches : Prop := bit < a.long (n.startbit + a.size)

instance : Decidable (reaches n bit) := inferInstanceAs (Decidable (bit < _))

end Nodes

def getBitFrom (bit : Nat) : List (EbitmapNode a) → Option Bool
  | [] => some false
  | n :: next =>
    if n.startbit ≤ bit then
      if reaches n bit then ebitmapNodeGetBit n bit else getBitFrom bit next
    else some false

def ebitmapGetBit (e : Ebitmap a) (bit : Nat) : Option Bool :=
  if e.highbit < bit then some false else getBitFrom bit e.node

section SetBit

variable (bit : Nat) (value kzalloc : Bool) (highbit : Nat)

/-- The part of `ebitmap_set_bit` behind the loop: what the list at `n` becomes, `highbit` and the result. -/
def addNode (next : List (EbitmapNode a)) : Option (List (EbitmapNode a) × Nat × Ret) :=
  if !value then some (next, highbit, .ok)
  else if !kzalloc then some (next, highbit, .enomem)
  else
    let new : EbitmapNode a := ⟨fun _ => 0, u32 (bit - bit % a.size)⟩
    (ebitmapNodeSetBit new bit).map fun new =>
      (new :: next, if next.isEmpty then u32 (new.startbit + a.size) else highbit, .ok)

/-- The loop of `ebitmap_set_bit` from `n` on, with the node before it. -/
def setBitFrom : Option (EbitmapNode a) → List (EbitmapNode a) → Option (List (EbitmapNode a) × Nat × Ret)
  | _, [] => addNode bit value kzalloc highbit []
  | prev, n :: next =>
    if n.startbit ≤ bit then
      if reaches n bit then
        if value then (ebitmapNodeSetBit n bit).map fun n => (n :: next, highbit, .ok)
        else
          (ebitmapNodeClrBit n bit).map fun n =>
            if findFirstBit n < a.size then (n :: next, highbit, .ok)
            else if next.isEmpty then (next, prev.elim 0 fun p => u32 (p.startbit + a.size), .ok)
            else (next, highbit, .ok)
      else (setBitFrom (some n) next).map fun r => (n :: r.1, r.2)
    else addNode bit value kzalloc highbit (n :: next)

end SetBit

def ebitmapSetBit (e : Ebitmap a) (bit : Nat) (value kzalloc : Bool) : Option (Ebitmap a × Ret) :=
  (setBitFrom bit value kzalloc e.highbit none e.node).map fun r => (⟨r.1, r.2.1⟩, r.2.2)

/-- The loop of `ebitmap_cmp`; both lists end together. -/
def cmpFrom : List (EbitmapNode a) → List (EbitmapNode a) → Bool
  | [], [] => true
  | n1 :: next1, n2 :: next2 =>
    if n1.startbit = n2.startbit ∧ n1.maps = n2.maps then cmpFrom next1 next2 else false
  | _, _ => false

def ebitmapCmp (e1 e2 : Ebitmap a) : Bool :=
  if e1.highbit ≠ e2.highbit then false else cmpFrom e1.node e2.node

def containsFrom : List (EbitmapNode a) → List (EbitmapNode a) → Bool
  | [], next2 => next2.isEmpty
  | _ :: _, [] => true
  | n1 :: next1, n2 :: next2 =>
    if n1.startbit ≤ n2.startbit then
      if n1.startbit < n2.startbit then containsFrom next1 (n2 :: next2)
      else if (List.finRange a.unitNums).all fun i => n1.maps i &&& n2.maps i == n2.maps i then
        containsFrom next1 next2
      else false
    else false

def ebitmapContains (e1 e2 : Ebitmap a) : Bool :=
  if e1.highbit < e2.highbit then false else containsFrom e1.node e2.node

/-- The loop of `ebitmap_cpy`, with what the calls of `kzalloc` give. -/
def cpyFrom (kzalloc : Nat → Bool) : Nat → List (EbitmapNode a) → Option (List (EbitmapNode a))
  | _, [] => some []
  | i, n :: next =>
    if kzalloc i then (cpyFrom kzalloc (i + 1) next).map (⟨n.maps, n.startbit⟩ :: ·) else none

/-- `ebitmap_cpy`: the copy and the result. -/
def ebitmapCpy (src : Ebitmap a) (kzalloc : Nat → Bool) : Ebitmap a × Ret :=
  match cpyFrom kzalloc 0 src.node with
  | some node => (⟨node, src.highbit⟩, .ok)
  | none => (ebitmapInit, .enomem)

end Selinux
