/- The area map of a per-cpu chunk stays well formed, and areas never overlap. -/
import Mathlib.Data.List.Chain
import Mathlib.Data.Nat.Bitwise
import Mathlib.Tactic.Ring
import LinuxKernel.Foundation.ListIndex
import LinuxKernel.Mm.PercpuArea

namespace Percpu

open List

@[simp] theorem relocate_map (u : Nat) (c : PcpuChunk) (o : Nat) : (pcpuChunkRelocate u c o).map = c.map := by
  simp only [pcpuChunkRelocate]
  split <;> rfl

def optBlock (n : Nat) : List Int := if n ≠ 0 then [(n : Int)] else []

variable {l r : List Int} {c : PcpuChunk} {e : Int}

theorem pcpuSplitBlock_eq (hm : c.map = l ++ e :: r)
    (room : c.map.length + 2 ≤ c.mapAlloc) (head tail : Nat) :
    pcpuSplitBlock c l.length head tail =
      some { c with map := l ++ optBlock head ++ (e - head - tail) :: optBlock tail ++ r } := by
  have fits : ¬ c.mapAlloc <
      c.map.length + ((if head ≠ 0 then 1 else 0) + (if tail ≠ 0 then 1 else 0)) := by
    split_ifs <;> omega
  rw [pcpuSplitBlock, if_neg fits]
  by_cases h : head = 0 <;> by_cases t : tail = 0 <;>
    simp [h, t, hm, optBlock, Nat.add_assoc]

/-- The bound on the free blocks that a split leaves. -/
def contigAfter (head tail : Nat) (maxContig : Int) : Int :=
  (optBlock tail).foldr max ((optBlock head).foldr max maxContig)

theorem splitIfWarranted_eq (hm : c.map = l ++ e :: r)
    (room : c.map.length + 2 ≤ c.mapAlloc) (off head tail : Nat) (maxContig : Int) :
    splitIfWarranted c l.length off head tail maxContig =
      some ({ c with map := l ++ optBlock head ++ (e - head - tail) :: optBlock tail ++ r },
        l.length + (optBlock head).length, off + head, contigAfter head tail maxContig) := by
  rw [splitIfWarranted, pcpuSplitBlock_eq hm room]
  by_cases h : head = 0 <;> by_cases t : tail = 0 <;>
    simp [h, t, ← hm, optBlock, contigAfter, Nat.add_assoc]

/-- A tail shorter than an `int` stays with the block. -/
def tailOf (room : Int) : Nat := if room.toNat < sizeofInt then 0 else room.toNat

/-- The chunk after block `e` between `l` and `r` was cut to its allocated part. -/
def takenChunk (c : PcpuChunk) (l r : List Int) (e : Int) (head tail : Nat) (isLast : Bool)
    (maxContig : Int) : PcpuChunk :=
  { c with
    map := l ++ optBlock head ++ -(e - head - tail) :: optBlock tail ++ r
    freeSize := c.freeSize - (e - head - tail)
    contigHint := if isLast then contigAfter head tail maxContig
      else max c.contigHint (contigAfter head tail maxContig) }

variable {u : Nat}

theorem cutBlock_eq
    (hm : c.map = l ++ e :: r) (room : c.map.length + 2 ≤ c.mapAlloc) (oslot off head size : Nat)
    (isLast : Bool) (maxContig : Int) : cutBlock u c oslot l.length off head size isLast maxContig =
      some (pcpuChunkRelocate u (takenChunk c l r e head (tailOf (e - head - size)) isLast maxContig) oslot,
        some (off + head)) := by
  have he : c.map.getD l.length 0 = e := getD_middle_of_eq 0 hm rfl
  have hs := splitIfWarranted_eq hm room off head (tailOf (e - head - size)) maxContig
  have hi : l.length + (optBlock head).length = (l ++ optBlock head).length := by simp
  rw [hi] at hs
  simp only [cutBlock, he]
  simp only [tailOf] at hs
  rw [hs]
  simp only [Option.bind_eq_bind, Option.bind_some, takenChunk, append_assoc, cons_append]
  simp only [← append_assoc l, getD_middle, set_middle]
  rfl

theorem takeBlock_absorb {p e : Int}
    (hm : c.map = l ++ p :: e :: r) (room : c.map.length + 2 ≤ c.mapAlloc)
    (oslot off head size : Nat) (isLast : Bool) (maxContig : Int)
    (neg : p < 0) (pos : head ≠ 0) (small : head < sizeofInt) :
    takeBlock u c oslot (l.length + 1) off head size isLast maxContig =
      some (pcpuChunkRelocate u
        (takenChunk { c with freeSize := c.freeSize - head } (l ++ [p - head]) r (e - head) 0
          (tailOf (e - head - size)) isLast maxContig) oslot, some (off + head)) := by
  have hp : c.map.getD (l.length + 1 - 1) 0 = p := by simp [hm]
  have ha : absorbHead c (l.length + 1) off head =
      ({ c with map := (l ++ [p - head]) ++ (e - head) :: r, freeSize := c.freeSize - head },
        off + head, 0) := by
    simp only [absorbHead, hp, if_pos (And.intro pos (Or.inl small)), if_neg (not_lt.mpr neg.le)]
    simp [hm]
  have hl : l.length + 1 = (l ++ [p - head]).length := by simp
  rw [takeBlock, ha]
  simp only
  rw [hl, cutBlock_eq rfl (by simpa [hm] using room)]
  simp [takenChunk]

def absSum (m : List Int) : Nat := (m.map Int.natAbs).sum

def freeSum (m : List Int) : Int := (m.filter (0 < ·)).sum

/-- Two neighbours of the map that are not both free. -/
def Apart (a b : Int) : Prop := ¬ (0 < a ∧ 0 < b)

def blocks : Nat → List Int → List (Nat × Int)
  | _, [] => []
  | off, e :: m => (off, e) :: blocks (off + e.natAbs) m

@[simp] theorem absSum_nil : absSum [] = 0 := rfl

@[simp] theorem absSum_cons (e : Int) (m : List Int) : absSum (e :: m) = e.natAbs + absSum m := by
  simp [absSum]

@[simp] theorem absSum_append (l m : List Int) : absSum (l ++ m) = absSum l + absSum m := by
  simp [absSum]

@[simp] theorem absSum_optBlock (n : Nat) : absSum (optBlock n) = n := by
  unfold optBlock
  split <;> simp_all

@[simp] theorem freeSum_nil : freeSum [] = 0 := rfl

@[simp] theorem freeSum_cons (e : Int) (m : List Int) : freeSum (e :: m) = max e 0 + freeSum m := by
  by_cases h : 0 < e
  · simp [freeSum, h, max_eq_left h.le]
  · simp [freeSum, h, max_eq_right (not_lt.mp h)]

@[simp] theorem freeSum_append (l m : List Int) : freeSum (l ++ m) = freeSum l + freeSum m := by
  simp [freeSum]

@[simp] theorem freeSum_optBlock (n : Nat) : freeSum (optBlock n) = n := by
  unfold optBlock
  split
  · simp
  · simp_all

theorem mem_optBlock {n : Nat} : e ∈ optBlock n ↔ e = n ∧ n ≠ 0 := by
  unfold optBlock
  split <;> simp_all

theorem blocks_append (off : Nat) (l m : List Int) :
    blocks off (l ++ m) = blocks off l ++ blocks (off + absSum l) m := by
  induction l generalizing off with
  | nil => simp [blocks]
  | cons e l ih => simp [blocks, ih, Nat.add_assoc]

variable {m : List Int} {off o : Nat}

theorem blocks_split (h : (o, e) ∈ blocks off m) : ∃ l r, m = l ++ e :: r ∧ o = off + absSum l := by
  induction m generalizing off with
  | nil => simp [blocks] at h
  | cons x m ih =>
    rcases mem_cons.mp h with same | later
    · cases same
      exact ⟨[], m, rfl, by simp⟩
    · obtain ⟨l, r, hm, ho⟩ := ih later
      exact ⟨x :: l, r, by rw [hm]; rfl, by rw [absSum_cons]; omega⟩

theorem blocks_bounds (h : (o, e) ∈ blocks off m) : off ≤ o ∧ o + e.natAbs ≤ off + absSum m := by
  obtain ⟨l, r, rfl, rfl⟩ := blocks_split h
  simp only [absSum_append, absSum_cons]
  omega

theorem apart_of_neg_left {a : Int} (h : a < 0) (b : Int) : Apart a b := fun hab => by omega

theorem apart_of_neg_right {b : Int} (h : b < 0) (a : Int) : Apart a b := fun hab => by omega

variable {x : Int}

/-- A free block may be replaced by two parts of it around an allocated block. -/
theorem apart_cut {e : Int} (h : (l ++ e :: r).IsChain Apart) (pos : 0 < e) (neg : x < 0) (head tail : Nat) :
    (l ++ optBlock head ++ x :: optBlock tail ++ r).IsChain Apart := by
  obtain ⟨left, right⟩ := isChain_split.mp h
  rw [append_assoc, cons_append, isChain_split]
  constructor
  · refine (left.left_of_append.append ?_ ?_).append (.singleton x) ?_
    · unfold optBlock
      split <;> simp
    · intro a ha b _ both
      exact (isChain_append.mp left).2.2 a ha e (by simp) ⟨both.1, pos⟩
    · intro a _ b hb
      cases hb
      exact apart_of_neg_right neg a
  · refine List.IsChain.cons ?_ fun b _ => apart_of_neg_left neg b
    unfold optBlock
    split
    · exact right.imp_head fun hz both => hz ⟨pos, both.2⟩
    · exact right.tail

/-- What the map of a chunk of `size` bytes always satisfies. -/
structure MapOk (size : Nat) (m : List Int) : Prop where
  total : absSum m = size
  nonzero : ∀ e ∈ m, e ≠ 0
  apart : m.IsChain Apart

structure ChunkOk (size : Nat) (c : PcpuChunk) : Prop where
  map : MapOk size c.map
  free : c.freeSize = freeSum c.map
  hint : ∀ e ∈ c.map, 0 < e → e ≤ c.contigHint

variable {size : Nat}

theorem ChunkOk.relocate {o : Nat} (h : ChunkOk size c) : ChunkOk size (pcpuChunkRelocate u c o) := by
  simp only [pcpuChunkRelocate]
  split
  · exact ⟨h.map, h.free, h.hint⟩
  · exact h

theorem le_contigAfter {head tail : Nat} {m : Int} (hx : x ≤ m ∨ x ∈ optBlock head ∨ x ∈ optBlock tail) :
    x ≤ contigAfter head tail m := by
  unfold contigAfter optBlock at *
  split_ifs at * <;> simp_all <;> omega

theorem ChunkOk.taken
    (h : ChunkOk size c) (hm : c.map = l ++ e :: r) (head tail : Nat) (fits : (head : Int) + tail < e)
    {isLast : Bool} (last : isLast = true → r = []) (maxContig : Int) (scanned : ∀ x ∈ l, 0 < x → x ≤ maxContig) :
    ChunkOk size (takenChunk c l r e head tail isLast maxContig) := by
  obtain ⟨⟨total, nonzero, apart⟩, free, hint⟩ := h
  rw [hm] at total nonzero apart free hint
  refine ⟨⟨?_, ?_, ?_⟩, ?_, ?_⟩
  · simp only [takenChunk, absSum_append, absSum_cons, absSum_optBlock] at total ⊢
    omega
  · intro x hx
    simp only [takenChunk, mem_append, mem_cons, mem_optBlock] at hx
    grind
  · exact apart_cut apart (by omega) (by omega) head tail
  · simp only [takenChunk, freeSum_append, freeSum_cons, freeSum_optBlock, free]
    omega
  · intro x hx pos
    have bound : x ≤ contigAfter head tail maxContig ∨ x ∈ r := by
      simp only [takenChunk, mem_append, mem_cons] at hx
      rcases hx with (((hx | hx) | hx | hx) | hx)
      · exact .inl (le_contigAfter (.inl (scanned x hx pos)))
      · exact .inl (le_contigAfter (.inr (.inl hx)))
      · omega
      · exact .inl (le_contigAfter (.inr (.inr hx)))
      · exact .inr hx
    simp only [takenChunk]
    split
    · next h => simpa [last h] using bound
    · rcases bound with b | b
      · exact b.trans (le_max_right _ _)
      · exact (hint x (by simp [b]) pos).trans (le_max_left _ _)

theorem ChunkOk.absorb {p e : Int}
    (h : ChunkOk size c) (hm : c.map = l ++ p :: e :: r) (head : Nat) (neg : p < 0)
    (fits : (head : Int) < e) :
    ChunkOk size { c with
      freeSize := c.freeSize - head, map := l ++ [p - head] ++ (e - head) :: r } := by
  obtain ⟨⟨total, nonzero, apart⟩, free, hint⟩ := h
  rw [hm] at total nonzero apart free hint
  refine ⟨⟨?_, ?_, ?_⟩, ?_, ?_⟩
  · simp only [absSum_append, absSum_cons, absSum_nil] at total ⊢
    omega
  · intro x hx
    grind
  · rw [append_assoc, singleton_append, isChain_append_cons_cons]
    rw [isChain_append_cons_cons] at apart
    refine ⟨?_, apart_of_neg_left (by omega) _, apart.2.2.imp_head fun hz both => hz ⟨by omega, both.2⟩⟩
    refine apart.1.left_of_append.append (.singleton _) ?_
    intro a _ b hb
    cases hb
    exact apart_of_neg_right (by omega) a
  · simp only [freeSum_append, freeSum_cons, freeSum_nil, free]
    omega
  · simp only [forall_mem_append, forall_mem_cons] at hint ⊢
    refine ⟨⟨hint.1, by omega, by simp⟩, fun _ => ?_, hint.2.2.2⟩
    have := hint.2.2.1 (by omega)
    omega

/-- What `pcpu_alloc_area` promises when it returns `off`: the area lies aligned in a block that
was free, a block of the new map starts there, and no allocated block was moved or shrunk. -/
structure Allocated (size al : Nat) (m m' : List Int) (off : Nat) : Prop where
  aligned : al ∣ off
  wasFree : ∃ o e, (o, e) ∈ blocks 0 m ∧ 0 < e ∧ o ≤ off ∧ off + size ≤ o + e.natAbs
  block : ∃ e, (off, e) ∈ blocks 0 m' ∧ e < 0 ∧ size ≤ e.natAbs
  others : ∀ o e, (o, e) ∈ blocks 0 m → e < 0 →
    ∃ e', (o, e') ∈ blocks 0 m' ∧ e' < 0 ∧ e.natAbs ≤ e'.natAbs

theorem tailOf_le (t : Int) (h : 0 ≤ t) : (tailOf t : Int) ≤ t := by
  unfold tailOf
  split <;> omega

theorem allocated_cut {al head tail : Nat} (one : 1 ≤ size)
    (aligned : al ∣ absSum l + head) (fits : (head : Int) + size + tail ≤ e) : Allocated size al (l ++ e :: r)
      (l ++ optBlock head ++ -(e - head - tail) :: optBlock tail ++ r) (absSum l + head) := by
  refine ⟨aligned, ⟨absSum l, e, ?_, by omega, by omega, by omega⟩,
    ⟨-(e - head - tail), ?_, by omega, by omega⟩, ?_⟩
  · simp [blocks_append, blocks]
  · simp [blocks_append, blocks]
  · intro o x hx neg
    refine ⟨x, ?_, neg, le_rfl⟩
    have sums : absSum l + (e.natAbs) =
        absSum l + head + (e - head - tail).natAbs + tail := by omega
    simp only [blocks_append, blocks, mem_append, mem_cons, append_assoc,
      cons_append, absSum_optBlock, zero_add] at hx ⊢
    rcases hx with hx | hx | hx
    · exact .inl hx
    · cases hx
      omega
    · rw [sums] at hx
      grind

theorem allocated_absorb {p e : Int} {al head tail : Nat} (one : 1 ≤ size)
    (neg : p < 0) (aligned : al ∣ absSum (l ++ [p]) + head) (fits : (head : Int) + size + tail ≤ e) :
    Allocated size al (l ++ p :: e :: r)
      (l ++ [p - head] ++ optBlock 0 ++ -(e - head - (0 : Nat) - tail) :: optBlock tail ++ r)
      (absSum (l ++ [p]) + head) := by
  have grown : absSum (l ++ [p - head]) = absSum (l ++ [p]) + head := by
    simp only [absSum_append, absSum_cons]
    omega
  have cut := @allocated_cut (l ++ [p - head]) r (e - head) size al 0 tail one
    (by rwa [grown]) (by omega)
  rw [grown] at cut
  refine ⟨aligned, ⟨absSum (l ++ [p]), e, ?_, by omega, by omega, by omega⟩, cut.block, ?_⟩
  · simp [blocks_append, blocks]
  · intro o x hx negx
    -- Only the block before the cut changed on the way to the map that `cut` is about.
    have middle : ∃ x', (o, x') ∈ blocks 0 (l ++ [p - head] ++ (e - head) :: r) ∧ x' < 0 ∧
        x.natAbs ≤ x'.natAbs := by
      have rest : (p - head).natAbs + (e - head).natAbs = p.natAbs + e.natAbs := by omega
      simp only [blocks_append, blocks, mem_append, mem_cons, zero_add] at hx
      rcases hx with hx | hx | hx | hx
      · exact ⟨x, by simp [blocks_append, hx], negx, le_rfl⟩
      · cases hx
        exact ⟨p - head, by simp [blocks_append, blocks], by omega, by omega⟩
      · cases hx
        omega
      · refine ⟨x, ?_, negx, le_rfl⟩
        rw [Nat.add_assoc] at hx
        simp [blocks_append, blocks, Nat.add_assoc, rest, hx]
    obtain ⟨x', hx', negx', le⟩ := middle
    obtain ⟨y, hy, negy, le'⟩ := cut.others o x' hx' negx'
    exact ⟨y, hy, negy, le.trans le'⟩

variable {size u req : Nat}

theorem takeBlock_spec (ok : ChunkOk size c) (hm : c.map = l ++ e :: r) (room : c.map.length + 2 ≤ c.mapAlloc)
    (oslot : Nat) {head al : Nat} (one : 1 ≤ req) (first : l = [] → head = 0)
    (fits : (head : Int) + req ≤ e) (aligned : al ∣ absSum l + head) (isLast : Bool)
    (last : isLast = true → r = []) {maxContig : Int} (scanned : ∀ x ∈ l, 0 < x → x ≤ maxContig) :
    ∃ c' off, takeBlock u c oslot l.length (absSum l) head req isLast maxContig = some (c', some off) ∧
      ChunkOk size c' ∧ Allocated req al c.map c'.map off := by
  have tail := tailOf_le (e - head - req) (by omega)
  by_cases absorb : head ≠ 0 ∧ (head < sizeofInt ∨ 0 < c.map.getD (l.length - 1) 0)
  · -- The block before `e` is allocated, because `e` is free.
    obtain ⟨l, p, rfl⟩ : ∃ l' p, l = l' ++ [p] := by
      rcases eq_nil_or_concat l with rfl | ⟨l', p, h⟩
      · exact absurd (first rfl) absorb.1
      · exact ⟨l', p, by simpa using h⟩
    have hm' : c.map = l ++ p :: e :: r := by simpa using hm
    have apart : Apart p e := by
      have := ok.map.apart
      rw [hm', isChain_append_cons_cons] at this
      exact this.2.1
    have nonzero := ok.map.nonzero p (by simp [hm'])
    have neg : p < 0 := by
      simp only [Apart] at apart
      omega
    have small : head < sizeofInt := by
      have hp : c.map.getD ((l ++ [p]).length - 1) 0 = p := getD_middle_of_eq 0 hm' (by simp)
      omega
    have scanned' : ∀ x ∈ l ++ [p - head], 0 < x → x ≤ maxContig := by
      rw [forall_mem_append, forall_mem_singleton] at scanned ⊢
      exact ⟨scanned.1, by omega⟩
    have taken := (ok.absorb hm' head neg (by omega)).taken rfl 0 (tailOf (e - head - req))
      (by omega) last maxContig scanned'
    have run := takeBlock_absorb (u := u) hm' room oslot (absSum (l ++ [p])) head req isLast
      maxContig neg absorb.1 small
    rw [show l.length + 1 = (l ++ [p]).length by simp] at run
    refine ⟨_, _, run, taken.relocate, ?_⟩
    rw [relocate_map, hm']
    exact allocated_absorb one neg aligned (by omega)
  · have run := cutBlock_eq (u := u) hm room oslot (absSum l) head req isLast maxContig
    refine ⟨_, _, by rw [takeBlock, absorbHead, if_neg absorb]; exact run,
      (ok.taken hm _ _ (by omega) last _ scanned).relocate, ?_⟩
    rw [relocate_map, hm]
    exact allocated_cut one aligned (by omega)

/-- The outcome of `pcpu_alloc_area`: an area, or the proof that no free block is large enough. -/
def AllocResult (req al : Nat) (m m' : List Int) : Option Nat → Prop
  | some off => Allocated req al m m' off
  | none => m' = m ∧ ∀ o e, (o, e) ∈ blocks 0 m → 0 < e → e < (Align.ceil o al - o : Nat) + (req : Int)

theorem allocScan_spec (ok : ChunkOk size c)
    (room : c.map.length + 2 ≤ c.mapAlloc) (oslot : Nat) {k : Nat} (one : 1 ≤ req)
    (rest l : List Int) (maxContig : Int) (hm : c.map = l ++ rest) (scanned : ∀ x ∈ l, 0 < x → x ≤ maxContig)
    (unfit : ∀ o e, (o, e) ∈ blocks 0 l → 0 < e → e < (Align.ceil o (2 ^ k) - o : Nat) + (req : Int)) :
    ∃ c' r, allocScan u c oslot req (2 ^ k) rest l.length (absSum l) maxContig = some (c', r) ∧
      ChunkOk size c' ∧ AllocResult req (2 ^ k) c.map c'.map r := by
  induction rest generalizing l maxContig with
  | nil =>
    rw [append_nil] at hm
    refine ⟨_, none, rfl, ChunkOk.relocate ⟨ok.map, ok.free, ?_⟩, ?_, ?_⟩
    · rw [hm]
      exact scanned
    · exact relocate_map _ _ _
    · rw [hm]
      exact unfit
  | cons e rest ih =>
    have bound := Align.le_ceil (absSum l) k
    have first : l = [] → Align.ceil (absSum l) (2 ^ k) - absSum l = 0 := by
      rintro rfl
      simp
    have hi : ¬ (l.length = 0 ∧ Align.ceil (absSum l) (2 ^ k) - absSum l ≠ 0) := fun h =>
      h.2 (first (length_eq_zero_iff.mp h.1))
    -- The loop goes on with the entry added to the part already scanned.
    have next := fun m => ih (l ++ [e]) m (by simpa using hm)
    simp only [length_append, absSum_append, blocks_append, blocks, mem_append, mem_singleton, zero_add,
      Prod.mk.injEq,
      or_imp, and_imp, forall_and, forall_eq] at next
    simp only [allocScan, if_neg hi]
    split_ifs with neg short
    · exact next maxContig scanned (fun pos => absurd pos neg.not_gt) unfit fun o x _ same pos => by omega
    · refine next (max e maxContig) (fun x hx pos => (scanned x hx pos).trans (le_max_right _ _))
        (fun _ => le_max_left _ _) unfit ?_
      rintro _ _ rfl rfl _
      exact short
    · have aligned : 2 ^ k ∣ absSum l + (Align.ceil (absSum l) (2 ^ k) - absSum l) := by
        rw [Nat.add_sub_cancel' bound]
        exact Align.dvd_ceil _ k
      obtain ⟨c', off, run, ok', done⟩ := takeBlock_spec ok hm room oslot one first
        (not_lt.mp short) aligned rest.isEmpty (by simp) scanned
      exact ⟨c', some off, run, ok', done⟩

theorem pcpuAllocArea_spec (ok : ChunkOk size c) (room : c.map.length + 2 ≤ c.mapAlloc) {k : Nat} (one : 1 ≤ req) :
    ∃ c' r, pcpuAllocArea u c req (2 ^ k) = some (c', r) ∧ ChunkOk size c' ∧ AllocResult req (2 ^ k) c.map c'.map r :=
  allocScan_spec ok room _ one c.map [] 0 rfl (by simp) (by simp [blocks])

theorem freeScan_eq {freeme off i : Nat} (nonzero : ∀ x ∈ l, x ≠ 0) (here : off + absSum l = freeme) :
    freeScan freeme (l ++ e :: r) i off = (i + l.length, freeme) := by
  induction l generalizing off i with
  | nil =>
    have same : off = freeme := by simpa using here
    simp [freeScan, same]
  | cons x l ih =>
    have hx := nonzero x (by simp)
    rw [absSum_cons] at here
    have other : off ≠ freeme := by omega
    simp only [cons_append, freeScan, if_neg other]
    rw [ih (fun y hy => nonzero y (by simp [hy])) (by omega), length_cons]
    congr 1
    omega

/-- The free blocks in front of a block, of which there is one at most, become part of it. -/
theorem mergePrev_spec (r : List Int) (x : Int) (nonzero : ∀ z ∈ l, z ≠ 0) (apart : l.IsChain Apart) :
    ∃ l' a, l = l' ++ a ∧ (∀ z ∈ a, 0 < z) ∧ (∀ p ∈ l'.getLast?, p < 0) ∧
      mergePrev (l ++ x :: r) l.length = (l' ++ (a.sum + x) :: r, l'.length) := by
  rcases eq_nil_or_concat' l with rfl | ⟨l, p, rfl⟩
  · exact ⟨[], [], rfl, by simp, by simp, by simp [mergePrev]⟩
  have hp := nonzero p (by simp)
  by_cases h : 0 ≤ p
  · have short : List.take (l.length + 1) l = l := take_of_length_le (by omega)
    refine ⟨l, [p], rfl, by simpa using (by omega : 0 < p), fun a ha => ?_, ?_⟩
    · have hap := (isChain_append.mp apart).2.2 a ha p (by simp)
      have ha0 := nonzero a (by simp [mem_of_mem_getLast? ha])
      simp only [Apart] at hap
      omega
    · simp [mergePrev, h, take_append, short, Nat.add_assoc]
  · exact ⟨l ++ [p], [], by simp, by simp, by simpa using h, by simp [mergePrev, h]⟩

theorem mergeNext_spec (l : List Int) (x : Int) (nonzero : ∀ z ∈ r, z ≠ 0) (apart : r.IsChain Apart) :
    ∃ b r', r = b ++ r' ∧ (∀ z ∈ b, 0 < z) ∧ (∀ q ∈ r'.head?, q < 0) ∧
      mergeNext (l ++ x :: r) l.length = l ++ (x + b.sum) :: r' := by
  cases r with
  | nil => exact ⟨[], [], rfl, by simp, by simp, by simp [mergeNext]⟩
  | cons q r =>
    have hq := nonzero q (by simp)
    by_cases h : 0 ≤ q
    · have short : List.take (l.length + 1) l = l := take_of_length_le (by omega)
      refine ⟨[q], r, rfl, by simpa using (by omega : 0 < q), fun a ha => ?_, ?_⟩
      · have hqa := apart.rel_head? ha
        have ha0 := nonzero a (by simp [mem_of_mem_head? ha])
        simp only [Apart] at hqa
        omega
      · simp [mergeNext, h, take_append, short]
    · exact ⟨[], q :: r, rfl, by simp, by simpa using h, by simp [mergeNext, h]⟩

theorem sums_of_pos (pos : ∀ z ∈ m, 0 < z) : (absSum m : Int) = m.sum ∧ freeSum m = m.sum := by
  induction m with
  | nil => simp
  | cons e m ih =>
    obtain ⟨he, pos⟩ := forall_mem_cons.mp pos
    obtain ⟨abs, free⟩ := ih pos
    simp only [absSum_cons, freeSum_cons, sum_cons]
    omega

theorem blocks_of_pos (pos : ∀ z ∈ m, 0 < z) (h : (o, e) ∈ blocks off m) : 0 < e := by
  obtain ⟨l, r, rfl, -⟩ := blocks_split h
  exact pos e (by simp)

theorem pcpuFreeArea_spec (ok : ChunkOk size c) {off : Nat} (block : (off, e) ∈ blocks 0 c.map) (neg : e < 0) :
    ∃ c', pcpuFreeArea u c off = some c' ∧ ChunkOk size c' ∧
      ∀ o x, (o, x) ∈ blocks 0 c.map → x < 0 → o ≠ off → (o, x) ∈ blocks 0 c'.map := by
  obtain ⟨l, r, hm, rfl⟩ := blocks_split block
  obtain ⟨⟨total, nonzero, apart⟩, free, hint⟩ := ok
  rw [hm] at total nonzero apart free hint
  rw [forall_mem_append, forall_mem_cons] at nonzero hint
  have he : c.map.getD l.length 0 = e := getD_middle_of_eq 0 hm rfl
  have hs : c.map.set l.length (-e) = l ++ -e :: r := set_middle_of_eq _ hm rfl
  have scan : freeScan (0 + absSum l) c.map 0 0 = (l.length, 0 + absSum l) := by
    rw [hm, freeScan_eq nonzero.1 rfl, Nat.zero_add]
  have right : r.IsChain Apart := apart.right_of_append.tail
  obtain ⟨l', a, rfl, posA, lastL, hprev⟩ :=
    mergePrev_spec r (-e) nonzero.1 apart.left_of_append
  obtain ⟨b, r', rfl, posB, headR, hnext⟩ :=
    mergeNext_spec l' (a.sum + -e) nonzero.2.2 right
  obtain ⟨absA, freeA⟩ := sums_of_pos posA
  obtain ⟨absB, freeB⟩ := sums_of_pos posB
  refine ⟨_, ?_, ChunkOk.relocate (c := { c with
    freeSize := c.freeSize + -e, map := l' ++ (a.sum + -e + b.sum) :: r',
    contigHint := max (a.sum + -e + b.sum) c.contigHint })
    (o := pcpuChunkSlot u c) (u := u) ⟨⟨?_, ?_, ?_⟩, ?_, ?_⟩, ?_⟩
  · simp only [pcpuFreeArea, scan, he, hs, ne_eq, not_true_eq_false, if_false,
      if_neg (not_lt.mpr neg.le), hprev, hnext, getD_middle]
  · simp only [absSum_append, absSum_cons] at total ⊢
    omega
  · simp only [forall_mem_append, forall_mem_cons] at nonzero ⊢
    exact ⟨nonzero.1.1, by omega, nonzero.2.2.2⟩
  · refine isChain_append.mpr
      ⟨apart.left_of_append.left_of_append, ?_, fun p hp q _ => apart_of_neg_left (lastL p hp) q⟩
    exact right.right_of_append.cons fun q hq => apart_of_neg_right (headR q hq) _
  · simp only [free, freeSum_append, freeSum_cons]
    omega
  · simp only [forall_mem_append, forall_mem_cons] at hint ⊢
    exact ⟨fun z hz pos => (hint.1.1 z hz pos).trans (le_max_right _ _), fun _ => le_max_left _ _,
      fun z hz pos => (hint.2.2.2 z hz pos).trans (le_max_right _ _)⟩
  · intro o x hx negx other
    rw [relocate_map]
    rw [hm] at hx
    simp only [blocks_append, blocks, mem_append, mem_cons] at hx ⊢
    rcases hx with (hx | hx) | hx | hx | hx
    · exact .inl hx
    · exact absurd (blocks_of_pos posA hx) negx.not_gt
    · cases hx
      exact absurd rfl other
    · exact absurd (blocks_of_pos posB hx) negx.not_gt
    · refine .inr (.inr ?_)
      rw [absSum_append] at hx
      convert hx using 2
      omega

/-- A chunk with the areas handed out and not yet freed, as offset and requested size. -/
structure AreaState where
  chunk : PcpuChunk
  live : List (Nat × Nat)

/-- A map of one free block, or of one allocated block and one free block. -/
inductive AreaInit (size : Nat) : AreaState → Prop
  | free {c : PcpuChunk} (pos : 0 < size) (map : c.map = [(size : Int)]) (free : c.freeSize = size)
      (hint : c.contigHint = size) : AreaInit size ⟨c, []⟩
  | reserved {c : PcpuChunk} {a b : Nat} (total : a + b = size) (posa : 0 < a) (posb : 0 < b)
      (map : c.map = [-(a : Int), (b : Int)]) (free : c.freeSize = b) (hint : c.contigHint = b) :
      AreaInit size ⟨c, []⟩

inductive AreaStep (unitSize : Nat) : AreaState → AreaState → Prop
  | alloc {s : AreaState} {c : PcpuChunk} {off : Nat} (req k : Nat) (one : 1 ≤ req)
      (room : s.chunk.map.length + 2 ≤ s.chunk.mapAlloc)
      (run : pcpuAllocArea unitSize s.chunk req (2 ^ k) = some (c, some off)) :
      AreaStep unitSize s ⟨c, (off, req) :: s.live⟩
  | refuse {s : AreaState} {c : PcpuChunk} (req k : Nat) (one : 1 ≤ req)
      (room : s.chunk.map.length + 2 ≤ s.chunk.mapAlloc)
      (run : pcpuAllocArea unitSize s.chunk req (2 ^ k) = some (c, none)) :
      AreaStep unitSize s ⟨c, s.live⟩
  | free {s : AreaState} {c : PcpuChunk} {off req : Nat} (live : (off, req) ∈ s.live)
      (run : pcpuFreeArea unitSize s.chunk off = some c) :
      AreaStep unitSize s ⟨c, s.live.filter (·.1 ≠ off)⟩
  | extend {s : AreaState} (newAlloc : Nat) :
      AreaStep unitSize s ⟨pcpuExtendAreaMap s.chunk newAlloc, s.live⟩

structure AreaOk (size : Nat) (s : AreaState) : Prop where
  chunk : ChunkOk size s.chunk
  live : ∀ a ∈ s.live, ∃ e, (a.1, e) ∈ blocks 0 s.chunk.map ∧ e < 0 ∧ a.2 ≤ e.natAbs

variable {s : AreaState}

theorem AreaInit.ok (h : AreaInit size s) : AreaOk size s := by
  cases h with
  | free pos map free hint =>
    refine ⟨⟨⟨?_, ?_, ?_⟩, ?_, ?_⟩, by simp⟩
    · simp [map]
    · simp [map]
      omega
    · simp [map]
    · simp [map, free]
    · simp [map, hint]
  | reserved total posa posb map free hint =>
    refine ⟨⟨⟨?_, ?_, ?_⟩, ?_, ?_⟩, by simp⟩
    · simp [map, total]
    · simp [map]
      omega
    · simp [map, Apart]
    · simp [map, free]
    · simp [map, hint]

theorem AreaOk.step {s t : AreaState} (ok : AreaOk size s) (st : AreaStep u s t) : AreaOk size t := by
  cases st with
  | alloc req k one room run =>
    obtain ⟨c', r, run', ok', done⟩ := pcpuAllocArea_spec ok.chunk room one
    cases run.symm.trans run'
    refine ⟨ok', ?_⟩
    intro a ha
    rcases mem_cons.mp ha with rfl | ha
    · exact done.block
    · obtain ⟨e, he, neg, le⟩ := ok.live a ha
      obtain ⟨e', he', neg', le'⟩ := done.others _ e he neg
      exact ⟨e', he', neg', le.trans le'⟩
  | refuse req k one room run =>
    obtain ⟨c', r, run', ok', done⟩ := pcpuAllocArea_spec ok.chunk room one
    cases run.symm.trans run'
    refine ⟨ok', ?_⟩
    rw [done.1]
    exact ok.live
  | free live run =>
    obtain ⟨e, he, neg, _⟩ := ok.live _ live
    obtain ⟨c', run', ok', keep⟩ := pcpuFreeArea_spec ok.chunk he neg
    cases run.symm.trans run'
    refine ⟨ok', ?_⟩
    intro a ha
    obtain ⟨ha, other⟩ := mem_filter.mp ha
    obtain ⟨e', he', neg', le'⟩ := ok.live a ha
    exact ⟨e', keep _ e' he' neg' (by simpa using other), neg', le'⟩
  | extend newAlloc =>
    have same : (pcpuExtendAreaMap s.chunk newAlloc).map = s.chunk.map := by
      unfold pcpuExtendAreaMap
      split <;> rfl
    refine ⟨?_, by rw [same]; exact ok.live⟩
    unfold pcpuExtendAreaMap
    split
    · exact ok.chunk
    · exact ⟨ok.chunk.map, ok.chunk.free, ok.chunk.hint⟩

theorem AreaOk.disjoint (ok : AreaOk size s) {al off : Nat}
    {m' : List Int} (done : Allocated req al s.chunk.map m' off) (a : Nat × Nat) (ha : a ∈ s.live) :
    off + req ≤ a.1 ∨ a.1 + a.2 ≤ off := by
  obtain ⟨e, he, neg, le⟩ := ok.live a ha
  obtain ⟨o, x, hx, pos, lo, hi⟩ := done.wasFree
  obtain ⟨l, r, hm, ho⟩ := blocks_split hx
  rw [hm, blocks_append] at he
  rcases mem_append.mp he with he | he
  · have := blocks_bounds he
    omega
  rcases mem_cons.mp he with he | he
  · obtain ⟨_, rfl⟩ := Prod.mk.inj he
    omega
  · have := blocks_bounds he
    omega

/-- In every reachable state the map is well formed, an allocation never trips a `BUG_ON` and
either returns an aligned area that meets no live area or finds no free block that can hold the
aligned size, and every live area can be freed. -/
theorem pcpu_area_safe {size u : Nat} {s : AreaState} (h : Transition.Reachable (AreaInit size) (AreaStep u) s) :
    ChunkOk size s.chunk ∧ (∀ req k, 1 ≤ req → s.chunk.map.length + 2 ≤ s.chunk.mapAlloc →
      ∃ c' r, pcpuAllocArea u s.chunk req (2 ^ k) = some (c', r) ∧
        (∀ off, r = some off → 2 ^ k ∣ off ∧ off + req ≤ size ∧ ∀ a ∈ s.live, off + req ≤ a.1 ∨ a.1 + a.2 ≤ off) ∧
        (r = none → ∀ o e, (o, e) ∈ blocks 0 s.chunk.map → 0 < e →
          e < (Align.ceil o (2 ^ k) - o : Nat) + (req : Int))) ∧
    ∀ a ∈ s.live, ∃ c', pcpuFreeArea u s.chunk a.1 = some c' := by
  have ok := h.invariant (AreaOk size) (fun _ h₀ => h₀.ok) fun _ _ ok st => ok.step st
  refine ⟨ok.chunk, ?_, ?_⟩
  · intro req k one room
    obtain ⟨c', r, run, ok', done⟩ := pcpuAllocArea_spec (u := u) (k := k) ok.chunk room one
    refine ⟨c', r, run, ?_, ?_⟩
    · rintro off rfl
      obtain ⟨e, he, neg, le⟩ := done.block
      have inside := (blocks_bounds he).2
      rw [ok'.map.total] at inside
      exact ⟨done.aligned, by omega, ok.disjoint done⟩
    · rintro rfl
      exact done.2
  · intro a ha
    obtain ⟨e, he, neg, _⟩ := ok.live a ha
    obtain ⟨c', run, _⟩ := pcpuFreeArea_spec (u := u) ok.chunk he neg
    exact ⟨c', run⟩

/-- Eight aligned bytes of a fresh chunk of 64 bytes. -/
theorem pcpu_area_safe_first : pcpuAllocArea 64 ⟨64, 64, 16, [64], 5, false⟩ 8 8 =
      some (⟨56, 56, 16, [-8, 56], 3, false⟩, some 0) ∧ ChunkOk 64 ⟨56, 56, 16, [-8, 56], 3, false⟩ := by
  have run : pcpuAllocArea 64 ⟨64, 64, 16, [64], 5, false⟩ 8 (2 ^ 3) =
      some (⟨56, 56, 16, [-8, 56], 3, false⟩, some 0) := by decide
  exact ⟨run, (pcpu_area_safe (u := 64) ((Transition.Reachable.start
    (AreaInit.free (c := ⟨64, 64, 16, [64], 5, false⟩) (by decide) rfl rfl rfl)).next
      (.alloc 8 3 (by decide) (by decide) run))).1⟩

end Percpu
