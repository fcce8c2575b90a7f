/- The id allocator without pointers of lib/idr.c, which keeps a bitmap chunk in each slot of an idr. -/
import LinuxKernel.Lib.Idr

namespace Ida

open Idr
open Digits (digit)
open Bitmap (findNextZero)

def sizeofLong : Arch → Nat
  | .bits32 => 4
  | .bits64 => 8

def idaBitmapBits (arch : Arch) : Nat := (128 / sizeofLong arch - 1) * sizeofLong arch * 8

structure IdaBitmap (arch : Arch) where
  nrBusy : Nat
  bitmap : Fin (idaBitmapBits arch) → Bool

structure Allocator (arch : Arch) where
  idr : Handle arch.idrBits (IdaBitmap arch)
  freeBitmap : Option (IdaBitmap arch)

variable {arch : Arch}

def idaInit : Allocator arch := ⟨idrInit, none⟩

/-- `free_bitmap`. -/
def putBitmap (ida : Allocator arch) (bitmap : IdaBitmap arch) : Allocator arch :=
  match ida.freeBitmap with
  | none => { ida with freeBitmap := some bitmap }
  | some _ => ida

/-- `ida_pre_get`, with the layers it can allocate and the result of its `kmalloc`. -/
def idaPreGet (budget : Nat) (kmalloc : Option (IdaBitmap arch)) (ida : Allocator arch) : Allocator arch × Bool :=
  let (idr, enough) := idrPreGet arch budget ida.idr
  let ida := { ida with idr }
  if enough then
    match ida.freeBitmap, kmalloc with
    | none, none => (ida, false)
    | none, some bitmap => (putBitmap ida bitmap, true)
    | some _, _ => (ida, true)
  else (ida, false)

/-- The chunk at a slot that `idr_get_empty_slot` returned, taken from `free_bitmap` if it is
missing. -/
def chunkAt (c : Cursor arch.idrBits (IdaBitmap arch)) (freeBitmap : Option (IdaBitmap arch)) :
    Option (IdaBitmap arch × Cursor arch.idrBits (IdaBitmap arch) × Option (IdaBitmap arch)) :=
  match c.p.ary (digit arch.idrBits 0 c.id), freeBitmap with
  | .ptr bitmap, _ => some (bitmap, c, freeBitmap)
  | _, none => none
  | _, some _ =>
    let bitmap : IdaBitmap arch := ⟨0, fun _ => false⟩
    let p := { setAry c.p (digit arch.idrBits 0 c.id) (.ptr bitmap) with count := c.p.count + 1 }
    some (bitmap, { c with p }, none)

/-- The idr of a cursor that is left where it is. -/
def close (layers : Nat) (c : Cursor arch.idrBits (IdaBitmap arch)) :
    Handle arch.idrBits (IdaBitmap arch) := ⟨some c.top, layers, c.idFree⟩

/-- Bit `t` of a chunk is set, and the chunk marked full if it was the last. -/
def takeBit (layers : Nat) (c : Cursor arch.idrBits (IdaBitmap arch)) (bitmap : IdaBitmap arch)
    (t : Fin (idaBitmapBits arch)) : Handle arch.idrBits (IdaBitmap arch) :=
  let bitmap : IdaBitmap arch := ⟨bitmap.nrBusy + 1, Function.update bitmap.bitmap t true⟩
  let p := setAry c.p (digit arch.idrBits 0 c.id) (.ptr bitmap)
  let top := if bitmap.nrBusy = idaBitmapBits arch then idrMarkFull c.id 0 p c.pa else climb p c.pa
  ⟨some top, layers, c.idFree⟩

/-- The rest of a round of `ida_get_new_above`, once `idr_get_empty_slot` has returned. -/
def afterEmptySlot (ida : Allocator arch) (idrId offset : Nat) :
    EmptySlot arch.idrBits (IdaBitmap arch) → (Allocator arch × Nat × Nat) ⊕ (Allocator arch × Ret)
  | .fail idr ret => .inr ({ ida with idr }, rcToErrno ret)
  | .slot layers c =>
    if maxIdBit ≤ c.id * idaBitmapBits arch then
      .inr ({ ida with idr := close layers c }, .enospc)
    else
      let offset := if c.id ≠ idrId then 0 else offset
      match chunkAt c ida.freeBitmap with
      | none => .inr (⟨close layers c, none⟩, .eagain)
      | some (bitmap, c, freeBitmap) =>
        match findNextZero bitmap.bitmap offset with
        | none => .inl (⟨close layers c, freeBitmap⟩, c.id + 1, 0)
        | some t =>
          let id := c.id * idaBitmapBits arch + t
          if maxIdBit ≤ id then .inr (⟨close layers c, freeBitmap⟩, .enospc)
          else
            let idr := takeBit layers c bitmap t
            -- extra layers are given back one by one
            .inr (⟨{ idr with idFree := idr.idFree.tail }, freeBitmap⟩, .ok id)

/-- From `restart` to the end of `ida_get_new_above`. -/
def getNewAboveStep (s : Allocator arch × Nat × Nat) : (Allocator arch × Nat × Nat) ⊕ Option (Allocator arch × Ret) :=
  ((idrGetEmptySlot arch s.1.idr s.2.1).map (afterEmptySlot s.1 s.2.1 s.2.2)).elim (.inr none)
    (Sum.map id some)

/-- A second round starts at the first bit of a chunk that is not full, and is the last. -/
def idaGetNewAbove (ida : Allocator arch) (startingId : Nat) : Option (Allocator arch × Ret) :=
  (Loop.run getNewAboveStep 2
    (ida, startingId / idaBitmapBits arch, startingId % idaBitmapBits arch)).join

inductive Outcome (arch : Arch) where
  | notAllocated
  | kept
  | emptied (bitmap : IdaBitmap arch)

/-- The descent of `ida_remove`, which clears the full bits, and what it does to the chunk. A chunk
that is missing is a fault. -/
def removeDown (idrId : Nat) (offset : Fin (idaBitmapBits arch)) :
    Nat → Slot arch.idrBits (IdaBitmap arch) →
      Option (Slot arch.idrBits (IdaBitmap arch) × Outcome arch)
  | 0, .layer p =>
    let n := digit arch.idrBits 0 idrId
    let p := clearBit p n
    match p.ary n with
    | .ptr bitmap =>
      if bitmap.bitmap offset then
        let bitmap : IdaBitmap arch :=
          ⟨bitmap.nrBusy - 1, Function.update bitmap.bitmap offset false⟩
        let p := setAry p n (.ptr bitmap)
        if bitmap.nrBusy = 0 then some (.layer (setBit p n), .emptied bitmap)
        else some (.layer p, .kept)
      else some (.layer p, .notAllocated)
    | _ => none
  | h + 1, .layer p =>
    let n := digit arch.idrBits (h + 1) idrId
    (removeDown idrId offset h (p.ary n)).map fun (c, out) =>
      (.layer (setAry (clearBit p n) n c), out)
  | _, e => some (e, .notAllocated)

theorem idaBitmapBits_pos (arch : Arch) : 0 < idaBitmapBits arch := by
  cases arch <;> decide

def idaRemove (ida : Allocator arch) (id : Nat) : Option (Allocator arch) :=
  let idrId := id / idaBitmapBits arch
  let offset : Fin (idaBitmapBits arch) :=
    ⟨id % idaBitmapBits arch, Nat.mod_lt _ (idaBitmapBits_pos arch)⟩
  match ida.idr.top with
  | none => some ida
  | some p =>
    (removeDown idrId offset (ida.idr.layers - 1) (.layer p)).map fun (e, out) =>
      let idr :=
        match e with
        | .layer p => { ida.idr with top := some p }
        | _ => ida.idr
      match out with
      | .emptied bitmap => putBitmap { ida with idr := idrRemove arch idr idrId } bitmap
      | _ => { ida with idr }

end Ida
