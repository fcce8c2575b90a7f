/- The area map of a per-cpu chunk: pcpu_split_block, pcpu_alloc_area and pcpu_free_area. -/
import Mathlib.Data.Nat.Size
import LinuxKernel.Foundation.Align
import LinuxKernel.Foundation.Transition

namespace Percpu

def sizeofInt : Nat := 4

def pcpuSlotBaseShift : Nat := 5

/-- The fields of `struct pcpu_chunk` that the area functions read or write. `map` holds the
`map_used` entries in use: a positive entry is a free block, a negative one an allocated block.
`slot` is the index of the `pcpu_slot` list that holds the chunk, and `reserved` says that the
chunk is `pcpu_reserved_chunk`, which is on no list. -/
structure PcpuChunk where
  freeSize : Int
  contigHint : Int
  mapAlloc : Nat
  map : List Int
  slot : Nat
  reserved : Bool
  deriving DecidableEq, Repr

/-- `__pcpu_size_to_slot`; `Nat.size` is `fls`. -/
def pcpuSizeToSlotRaw (size : Nat) : Nat := max (Nat.size size + 2 - pcpuSlotBaseShift) 1

def pcpuNrSlots (unitSize : Nat) : Nat := pcpuSizeToSlotRaw unitSize + 2

def pcpuSizeToSlot (unitSize size : Nat) : Nat :=
  if size = unitSize then pcpuNrSlots unitSize - 1 else pcpuSizeToSlotRaw size

def pcpuChunkSlot (unitSize : Nat) (c : PcpuChunk) : Nat :=
  if c.freeSize < sizeofInt ∨ c.contigHint < sizeofInt then 0
  else pcpuSizeToSlot unitSize c.freeSize.toNat

def pcpuChunkRelocate (unitSize : Nat) (c : PcpuChunk) (oslot : Nat) : PcpuChunk :=
  let nslot := pcpuChunkSlot unitSize c
  if c.reserved = false ∧ oslot ≠ nslot then { c with slot := nslot } else c

/-- `pcpu_extend_area_map`, when the new map could be allocated; the entries are copied. -/
def pcpuExtendAreaMap (c : PcpuChunk) (newAlloc : Nat) : PcpuChunk :=
  if newAlloc ≤ c.mapAlloc then c else { c with mapAlloc := newAlloc }

/-- `pcpu_split_block`; `none` is the `BUG_ON` for a map without room. The entries between `i`
and `i + nr_extra` are stale after the `memmove`; all but entry `i` are written before they
are read. -/
def pcpuSplitBlock (c : PcpuChunk) (i head tail : Nat) : Option PcpuChunk :=
  let nrExtra := (if head ≠ 0 then 1 else 0) + (if tail ≠ 0 then 1 else 0)
  if c.mapAlloc < c.map.length + nrExtra then none
  else
    let m := c.map.take i ++ List.replicate nrExtra (c.map.getD i 0) ++ c.map.drop i
    let (m, i) :=
      if head ≠ 0 then ((m.set (i + 1) (m.getD i 0 - head)).set i (head : Int), i + 1) else (m, i)
    let m := if tail ≠ 0 then (m.set i (m.getD i 0 - tail)).set (i + 1) (tail : Int) else m
    some { c with map := m }

/-- A small head, or one behind a free block, is given to the previous block. -/
def absorbHead (c : PcpuChunk) (i off head : Nat) : PcpuChunk × Nat × Nat :=
  let prev := c.map.getD (i - 1) 0
  if head ≠ 0 ∧ (head < sizeofInt ∨ 0 < prev) then
    let c := if 0 < prev then { c with map := c.map.set (i - 1) (prev + head) }
      else { c with map := c.map.set (i - 1) (prev - head), freeSize := c.freeSize - head }
    ({ c with map := c.map.set i (c.map.getD i 0 - head) }, off + head, 0)
  else (c, off, head)

/-- The split of block `i`, with the index, offset and contiguity bound it leaves. -/
def splitIfWarranted (c : PcpuChunk) (i off head tail : Nat) (maxContig : Int) :
    Option (PcpuChunk × Nat × Nat × Int) :=
  if head ≠ 0 ∨ tail ≠ 0 then do
    let c ← pcpuSplitBlock c i head tail
    let (i, off, maxContig) :=
      if head ≠ 0 then (i + 1, off + head, max (c.map.getD i 0) maxContig) else (i, off, maxContig)
    let maxContig := if tail ≠ 0 then max (c.map.getD (i + 1) 0) maxContig else maxContig
    some (c, i, off, maxContig)
  else some (c, i, off, maxContig)

/-- The loop body of `pcpu_alloc_area` from the computation of the tail on. The tail is not
negative, so the unsigned comparison with `sizeof(int)` is the one written here. -/
def cutBlock (unitSize : Nat) (c : PcpuChunk) (oslot i off head size : Nat) (isLast : Bool)
    (maxContig : Int) : Option (PcpuChunk × Option Nat) := do
  let tail := (c.map.getD i 0 - head - size).toNat
  let tail := if tail < sizeofInt then 0 else tail
  let (c, i, off, maxContig) ← splitIfWarranted c i off head tail maxContig
  let c := { c with contigHint := if isLast then maxContig else max c.contigHint maxContig }
  let c := { c with
    freeSize := c.freeSize - c.map.getD i 0
    map := c.map.set i (-c.map.getD i 0) }
  some (pcpuChunkRelocate unitSize c oslot, some off)

/-- The loop body of `pcpu_alloc_area` behind the size test. -/
def takeBlock (unitSize : Nat) (c : PcpuChunk) (oslot i off head size : Nat) (isLast : Bool)
    (maxContig : Int) : Option (PcpuChunk × Option Nat) :=
  let (c, off, head) := absorbHead c i off head
  cutBlock unitSize c oslot i off head size isLast maxContig

/-- The loop of `pcpu_alloc_area` over the entries from index `i` on. -/
def allocScan (unitSize : Nat) (c : PcpuChunk) (oslot size al : Nat) :
    List Int → Nat → Nat → Int → Option (PcpuChunk × Option Nat)
  | [], _, _, maxContig =>
    some (pcpuChunkRelocate unitSize { c with contigHint := maxContig } oslot, none)
  | e :: rest, i, off, maxContig =>
    let head := Align.ceil off al - off
    if i = 0 ∧ head ≠ 0 then none
    else if e < 0 then allocScan unitSize c oslot size al rest (i + 1) (off + e.natAbs) maxContig
    else if e < head + size then
      allocScan unitSize c oslot size al rest (i + 1) (off + e.natAbs) (max e maxContig)
    else takeBlock unitSize c oslot i off head size rest.isEmpty maxContig

/-- `pcpu_alloc_area`: the outer `none` is a `BUG_ON`, the inner one the return value -1. -/
def pcpuAllocArea (unitSize : Nat) (c : PcpuChunk) (size al : Nat) : Option (PcpuChunk × Option Nat) :=
  allocScan unitSize c (pcpuChunkSlot unitSize c) size al c.map 0 0 0

/-- The index and offset at which the search loop of `pcpu_free_area` stops. -/
def freeScan (freeme : Nat) : List Int → Nat → Nat → Nat × Nat
  | [], i, off => (i, off)
  | e :: rest, i, off => if off = freeme then (i, off) else freeScan freeme rest (i + 1) (off + e.natAbs)

def mergePrev (m : List Int) (i : Nat) : List Int × Nat :=
  if 0 < i ∧ 0 ≤ m.getD (i - 1) 0 then
    let m := m.set (i - 1) (m.getD (i - 1) 0 + m.getD i 0)
    (m.take i ++ m.drop (i + 1), i - 1)
  else (m, i)

def mergeNext (m : List Int) (i : Nat) : List Int :=
  if i + 1 < m.length ∧ 0 ≤ m.getD (i + 1) 0 then
    let m := m.set i (m.getD i 0 + m.getD (i + 1) 0)
    m.take (i + 1) ++ m.drop (i + 2)
  else m

/-- `pcpu_free_area`; `none` is one of the two `BUG_ON`s. -/
def pcpuFreeArea (unitSize : Nat) (c : PcpuChunk) (freeme : Nat) : Option PcpuChunk :=
  let oslot := pcpuChunkSlot unitSize c
  let (i, off) := freeScan freeme c.map 0 0
  if off ≠ freeme then none
  else if 0 < c.map.getD i 0 then none
  else
    let m := c.map.set i (-c.map.getD i 0)
    let freeSize := c.freeSize + m.getD i 0
    let (m, i) := mergePrev m i
    let m := mergeNext m i
    some (pcpuChunkRelocate unitSize
      { c with freeSize, map := m, contigHint := max (m.getD i 0) c.contigHint } oslot)

end Percpu
