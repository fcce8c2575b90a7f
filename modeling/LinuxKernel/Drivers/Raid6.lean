/- RAID-6 of drivers/md: the tables of mktables.c, gen_syndrome of raid6int.uc, and raid6recov.c. -/
import Mathlib.Logic.Function.Basic
import LinuxKernel.Foundation.Lanes

namespace Raid6

open Function

open Lanes (byte ofBytes)

abbrev U8 := BitVec 8

/-- The statement `a = (a << 1) ^ (a & 0x80 ? 0x1d : 0)` of `gfmul`. -/
def xtime (a : U8) : U8 := (a <<< 1) ^^^ (if a &&& 0x80 ≠ 0 then 0x1d else 0)

/-- The loop of `gfmul`; a byte is zero after eight shifts. -/
def gfmulLoop : Nat → U8 → U8 → U8 → U8
  | 0, v, _, _ => v
  | k + 1, v, a, b =>
    if b = 0 then v
    else gfmulLoop k (if b &&& 1 ≠ 0 then v ^^^ a else v) (xtime a) (b >>> 1)

def gfmul (a b : U8) : U8 := gfmulLoop 8 0 a b

/-- The loop of `gfpow`; the exponent is below 255. -/
def gfpowLoop : Nat → U8 → U8 → Nat → U8
  | 0, v, _, _ => v
  | k + 1, v, a, b =>
    if b = 0 then v
    else gfpowLoop k (if b % 2 = 1 then gfmul v a else v) (gfmul a a) (b / 2)

def gfpow (a : U8) (b : Int) : U8 :=
  let b := b.tmod 255
  let b := if b < 0 then b + 255 else b
  gfpowLoop 8 1 a b.toNat

def raid6Gfmul (i j : U8) : U8 := gfmul i j

/-- The variable `v` of the loop that prints `raid6_gfexp` is the entry. -/
def raid6Gfexp : Nat → U8
  | 0 => 1
  | i + 1 =>
    let v := gfmul (raid6Gfexp i) 2
    -- for entry 255, not a real entry
    if v = 1 then 0 else v

def raid6Gfinv (x : U8) : U8 := gfpow x 254

def raid6Gfexi (i : Nat) : U8 := raid6Gfinv (raid6Gfexp i ^^^ 1)

inductive BitsPerLong where
  | bits32
  | bits64
  deriving DecidableEq, Repr

/-- How `gen_syndrome` was compiled: the word, its byte order, and how often the loop is unrolled. -/
structure Config where
  long : BitsPerLong
  bigEndian : Bool
  unroll : Nat
  unroll_pos : 0 < unroll

def Config.nsize (cfg : Config) : Nat :=
  match cfg.long with
  | .bits32 => 4
  | .bits64 => 8

/-- `unative_t`. -/
abbrev Config.Word (cfg : Config) := BitVec (8 * cfg.nsize)

/-- `NBYTES(x)`. -/
def Config.nbytes (cfg : Config) (x : U8) : cfg.Word :=
  match cfg.long with
  | .bits32 => .ofNat _ (x.toNat * 0x01010101)
  | .bits64 => .ofNat _ (x.toNat * 0x0101010101010101)

def Config.shlbyte (cfg : Config) (v : cfg.Word) : cfg.Word := (v <<< 1) &&& cfg.nbytes 0xfe

def Config.mask (cfg : Config) (v : cfg.Word) : cfg.Word :=
  let vv := v &&& cfg.nbytes 0x80
  (vv <<< 1) - (vv >>> 7)

/-- The byte of a word that stands at an offset in memory. -/
def Config.lane (cfg : Config) (t : Nat) : Nat := if cfg.bigEndian then cfg.nsize - 1 - t else t

section Blocks

variable {Ptr : Type} [DecidableEq Ptr]

/-- The blocks that pointers point to. -/
abbrev Mem (Ptr : Type) := Ptr → Nat → U8

def Config.load (cfg : Config) (block : Nat → U8) (off : Nat) : cfg.Word :=
  ofBytes cfg.nsize fun j => block (off + cfg.lane j)

def Config.store (cfg : Config) (mem : Mem Ptr) (p : Ptr) (off : Nat) (w : cfg.Word) : Mem Ptr :=
  update mem p fun o =>
    if off ≤ o ∧ o < off + cfg.nsize then byte w (cfg.lane (o - off)) else mem p o

/-- The loop over the data disks, from `z - 1` down to zero, for one word of each. -/
def Config.syndromeLoop (cfg : Config) (wd : Nat → cfg.Word) : Nat → cfg.Word → cfg.Word →
    cfg.Word × cfg.Word
  | 0, wp, wq => (wp, wq)
  | z + 1, wp, wq =>
    let w2 := cfg.mask wq &&& cfg.nbytes 0x1d
    let w1 := cfg.shlbyte wq ^^^ w2
    cfg.syndromeLoop wd z (wp ^^^ wd z) (w1 ^^^ wd z)

/-- `wp` and `wq` for the words at an offset. -/
def Config.syndromeWord (cfg : Config) (mem : Mem Ptr) (dptr : Nat → Ptr) (z₀ off : Nat) : cfg.Word × cfg.Word :=
  let wd z := cfg.load (mem (dptr z)) off
  cfg.syndromeLoop wd z₀ (wd z₀) (wd z₀)

/-- The stores of the unrolled words of a round to a block. -/
def Config.storeAll (cfg : Config) (p : Ptr) (d : Nat) (w : Nat → cfg.Word) : Nat → Mem Ptr → Mem Ptr
  | 0, mem => mem
  | k + 1, mem => cfg.store (cfg.storeAll p d w k mem) p (d + k * cfg.nsize) (w k)

/-- A round of the outer loop. All loads of a round come before its stores. -/
def Config.syndromeRound (cfg : Config) (disks : Nat) (dptr : Nat → Ptr) (d : Nat) (mem : Mem Ptr) : Mem Ptr :=
  let z₀ := disks - 3
  let p := dptr (z₀ + 1)
  let q := dptr (z₀ + 2)
  let w i := cfg.syndromeWord mem dptr z₀ (d + i * cfg.nsize)
  let mem := cfg.storeAll p d (fun i => (w i).1) cfg.unroll mem
  cfg.storeAll q d (fun i => (w i).2) cfg.unroll mem

def Config.stride (cfg : Config) : Nat := cfg.unroll * cfg.nsize

def Config.syndromeRounds (cfg : Config) (disks : Nat) (dptr : Nat → Ptr) : Nat → Mem Ptr → Mem Ptr
  | 0, mem => mem
  | k + 1, mem =>
    cfg.syndromeRound disks dptr (k * cfg.stride) (cfg.syndromeRounds disks dptr k mem)

/-- The outer loop goes on while `d < bytes`. -/
def Config.genSyndrome (cfg : Config) (disks bytes : Nat) (dptr : Nat → Ptr) (mem : Mem Ptr) : Mem Ptr :=
  cfg.syndromeRounds disks dptr ((bytes + cfg.stride - 1) / cfg.stride) mem

/-- The loop `while ( bytes-- )` of `raid6_2data_recov`, up to that byte. -/
def recov2 (p q dp dq : Ptr) (pbmul qmul : U8 → U8) : Nat → Mem Ptr → Mem Ptr
  | 0, mem => mem
  | i + 1, mem =>
    let mem := recov2 p q dp dq pbmul qmul i mem
    let px := mem p i ^^^ mem dp i
    let qx := qmul (mem q i ^^^ mem dq i)
    let db := pbmul px ^^^ qx
    let mem : Mem Ptr := update mem dq (update (mem dq) i db)
    update mem dp (update (mem dp) i (db ^^^ px))

/-- `raid6_2data_recov`: the blocks and the pointer table afterwards. -/
def raid62dataRecov (cfg : Config) (zeroPage : Ptr) (disks bytes faila failb : Nat)
    (ptrs : Nat → Ptr) (mem : Mem Ptr) : Mem Ptr × (Nat → Ptr) :=
  let p := ptrs (disks - 2)
  let q := ptrs (disks - 1)
  let dp := ptrs faila
  let ptrs := update ptrs faila zeroPage
  let ptrs := update ptrs (disks - 2) dp
  let dq := ptrs failb
  let ptrs := update ptrs failb zeroPage
  let ptrs := update ptrs (disks - 1) dq
  let mem := cfg.genSyndrome disks bytes ptrs mem
  let ptrs := update ptrs faila dp
  let ptrs := update ptrs failb dq
  let ptrs := update ptrs (disks - 2) p
  let ptrs := update ptrs (disks - 1) q
  let pbmul := raid6Gfmul (raid6Gfexi (failb - faila))
  let qmul := raid6Gfmul (raid6Gfinv (raid6Gfexp faila ^^^ raid6Gfexp failb))
  (recov2 p q dp dq pbmul qmul bytes mem, ptrs)

/-- The loop of `raid6_datap_recov`, up to that byte. -/
def recov1 (p q dq : Ptr) (qmul : U8 → U8) : Nat → Mem Ptr → Mem Ptr
  | 0, mem => mem
  | i + 1, mem =>
    let mem := recov1 p q dq qmul i mem
    let x := qmul (mem q i ^^^ mem dq i)
    let mem : Mem Ptr := update mem dq (update (mem dq) i x)
    update mem p (update (mem p) i (mem p i ^^^ x))

def raid6DatapRecov (cfg : Config) (zeroPage : Ptr) (disks bytes faila : Nat) (ptrs : Nat → Ptr)
    (mem : Mem Ptr) : Mem Ptr × (Nat → Ptr) :=
  let p := ptrs (disks - 2)
  let q := ptrs (disks - 1)
  let dq := ptrs faila
  let ptrs := update ptrs faila zeroPage
  let ptrs := update ptrs (disks - 1) dq
  let mem := cfg.genSyndrome disks bytes ptrs mem
  let ptrs := update ptrs faila dq
  let ptrs := update ptrs (disks - 1) q
  let qmul := raid6Gfmul (raid6Gfinv (raid6Gfexp faila))
  (recov1 p q dq qmul bytes mem, ptrs)

end Blocks

end Raid6
