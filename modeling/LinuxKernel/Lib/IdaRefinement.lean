/- The ida refines a set of ids. -/
import LinuxKernel.Lib.IdrRefinement
import LinuxKernel.Lib.Ida

namespace Ida

open Idr Digits Bitmap Function

variable {arch : Arch}

/-- A chunk counts its bits, and the bit of its slot says whether it is full. -/
def ChunkLeaf : Slot arch.idrBits (IdaBitmap arch) → Bool → Prop
  | .null, b => b = false
  | .ptr bitmap, b => bitmap.nrBusy = weight bitmap.bitmap ∧
      (b = true ↔ bitmap.nrBusy = idaBitmapBits arch)
  | .layer _, _ => False

theorem chunkLeaves : Leaves (@ChunkLeaf arch) := ⟨rfl, fun _ _ h => h⟩

def chunkBit (v : Slot arch.idrBits (IdaBitmap arch) × Bool) (o : Nat) : Bool :=
  match v.1 with
  | .ptr bitmap => if h : o < idaBitmapBits arch then bitmap.bitmap ⟨o, h⟩ else false
  | _ => false

def busy (idr : Handle arch.idrBits (IdaBitmap arch)) (i : Nat) : Bool :=
  chunkBit (idr.leafOf (i / idaBitmapBits arch)) (i % idaBitmapBits arch)

theorem chunkBit_ptr (bitmap : IdaBitmap arch) (b : Bool) (o : Fin (idaBitmapBits arch)) :
    chunkBit (.ptr bitmap, b) o = bitmap.bitmap o := by
  simp [chunkBit]

variable {v : Slot arch.idrBits (IdaBitmap arch) × Bool}

theorem ChunkLeaf.full (ok : ChunkLeaf v.1 v.2)
    (full : v.2 = true) {o : Nat} (ho : o < idaBitmapBits arch) : chunkBit v o = true := by
  obtain ⟨e, b⟩ := v
  cases e with
  | null =>
    rw [show b = false from ok] at full
    cases full
  | layer p => exact ok.elim
  | ptr bitmap =>
    have all : weight bitmap.bitmap = Fintype.card (Fin (idaBitmapBits arch)) := by
      rw [Fintype.card_fin, ← ok.1, ok.2.mp full]
    exact (chunkBit_ptr bitmap b ⟨o, ho⟩).trans (weight_eq_card.mp all _)

theorem ChunkLeaf.vacant {bitmap : IdaBitmap arch} (ok : ChunkLeaf (.ptr bitmap) false) :
    ∃ o, bitmap.bitmap o = false := by
  by_contra none_clear
  have all : ∀ o, bitmap.bitmap o = true := by
    intro o
    by_contra clear
    exact none_clear ⟨o, by simpa using clear⟩
  have full : bitmap.nrBusy = idaBitmapBits arch := by
    rw [ok.1, weight_eq_card.mpr all, Fintype.card_fin]
  exact Bool.false_ne_true (ok.2.mpr full)

structure Refines (ida : Allocator arch) (S : Set Nat) : Prop where
  ok : HandleOk ChunkLeaf ida.idr
  mem : ∀ i, i ∈ S ↔ busy ida.idr i = true
  lt : ∀ i ∈ S, i < maxIdBit

theorem index_iff {i k o : Nat} (ho : o < idaBitmapBits arch) :
    i = k * idaBitmapBits arch + o ↔ i / idaBitmapBits arch = k ∧ i % idaBitmapBits arch = o := by
  rw [Nat.mul_comm]
  constructor
  · rintro rfl
    rw [Nat.mul_add_div (idaBitmapBits_pos arch), Nat.div_eq_of_lt ho, Nat.mul_add_mod, Nat.mod_eq_of_lt ho]
    exact ⟨rfl, rfl⟩
  · rintro ⟨rfl, rfl⟩
    exact (Nat.div_add_mod ..).symm

theorem busy_add (idr : Handle arch.idrBits (IdaBitmap arch)) (k : Nat) {o : Nat} (ho : o < idaBitmapBits arch) :
    busy idr (k * idaBitmapBits arch + o) = chunkBit (idr.leafOf k) o := by
  obtain ⟨div, mod⟩ := (index_iff ho).mp rfl
  rw [busy, div, mod]

section Chunk

variable {layers : Nat} {c : Cursor arch.idrBits (IdaBitmap arch)}

/-- A cursor on the slot of a chunk that is not full. -/
structure AtChunk (layers : Nat) (c : Cursor arch.idrBits (IdaBitmap arch))
    (bitmap : IdaBitmap arch) : Prop extends AtSlot ChunkLeaf layers c where
  le : layers ≤ arch.maxLevel - 1
  lt : c.id < 2 ^ (layers * arch.idrBits)
  ary : c.p.ary (digit arch.idrBits 0 c.id) = .ptr bitmap

theorem AtChunk.leafOk {bitmap : IdaBitmap arch} (chunk : AtChunk layers c bitmap) :
    ChunkLeaf (.ptr bitmap) false := by
  have := chunk.focused.layerOk.slots (digit arch.idrBits 0 c.id)
  rw [chunk.ary, chunk.bit] at this
  exact this

theorem AtChunk.entry {bitmap : IdaBitmap arch} (chunk : AtChunk layers c bitmap) :
    topLeaf layers c.top c.id = (.ptr bitmap, false) := by
  rw [topLeaf, if_pos chunk.lt, Cursor.top, chunk.focused.leaf_top rfl, leaf, chunk.ary, chunk.bit]
  rfl

/-- A missing chunk is put in place, empty; an ida without one to spare fails. -/
theorem chunkAt_spec (freeBitmap : Option (IdaBitmap arch)) (le : layers ≤ arch.maxLevel - 1)
    (slot : AtSlot ChunkLeaf layers c) (low : c.id < 2 ^ (layers * arch.idrBits)) :
    chunkAt c freeBitmap = none ∨ ∃ bitmap c' freeBitmap',
      chunkAt c freeBitmap = some (bitmap, c', freeBitmap') ∧ c'.id = c.id ∧ AtChunk layers c' bitmap ∧
      ∀ j o, chunkBit (topLeaf layers c'.top j) o = chunkBit (topLeaf layers c.top j) o := by
  set n := digit arch.idrBits 0 c.id
  obtain ⟨foc, free, bit⟩ := slot
  have here : leaf c.id (layers - 1) c.top = (c.p.ary n, c.p.bitmap n) := foc.leaf_top rfl
  unfold chunkAt
  cases ary : c.p.ary n with
  | ptr bitmap =>
    exact .inr ⟨bitmap, c, freeBitmap, by cases freeBitmap <;> rfl, rfl,
      ⟨⟨foc, free, bit⟩, le, low, ary⟩, fun _ _ => rfl⟩
  | layer p =>
    have := foc.layerOk.slots n
    rw [ary] at this
    exact this.elim
  | null =>
    cases freeBitmap with
    | none => exact .inl rfl
    | some spare =>
      set bitmap : IdaBitmap arch := ⟨0, fun _ => false⟩ with hbitmap
      set p : IdrLayer arch.idrBits (IdaBitmap arch) :=
        { setAry c.p n (.ptr bitmap) with count := c.p.count + 1 }
      have agree : AgreeOff n c.p p := agreeOff_setAry c.p n _ _
      have ary' : p.ary n = .ptr bitmap := update_self ..
      have bit' : p.bitmap n = false := bit
      have pOk : LayerOk ChunkLeaf 0 p := by
        refine foc.layerOk.change agree ?_ ?_
        · rw [ary, ary', bit, bit']
          rfl
        · rw [ary', bit']
          exact ⟨by simp [hbitmap, weight], by simp [hbitmap, (idaBitmapBits_pos arch).ne]⟩
      refine .inr ⟨bitmap, { c with p }, none, rfl, rfl,
        ⟨⟨foc.replace pOk rfl, free, bit⟩, le, low, ary'⟩, fun j o => ?_⟩
      change chunkBit (topLeaf layers (climb p c.pa) j) o = _
      rw [topLeaf_put low (foc.leaf_put agree.leaf_put_zero), ary', bit', update_apply]
      split_ifs with hj
      · rw [hj, topLeaf, if_pos low, here, ary]
        simp [chunkBit, hbitmap]
      · rfl

theorem takeBit_spec {bitmap : IdaBitmap arch} (chunk : AtChunk layers c bitmap)
    {t : Fin (idaBitmapBits arch)} (clear : bitmap.bitmap t = false) :
      HandleOk ChunkLeaf (takeBit layers c bitmap t) ∧
      ∀ j o, chunkBit ((takeBit layers c bitmap t).leafOf j) o =
        if j = c.id ∧ o = t then true else chunkBit (topLeaf layers c.top j) o := by
  set n := digit arch.idrBits 0 c.id
  set bitmap' : IdaBitmap arch := ⟨bitmap.nrBusy + 1, update bitmap.bitmap t true⟩
    with hbitmap'
  set p := setAry c.p n (.ptr bitmap')
  have foc := chunk.focused
  have busy' : bitmap'.nrBusy = weight bitmap'.bitmap := by
    have := weight_update bitmap.bitmap t true
    rw [clear] at this
    simp only [Bool.toNat_false, Bool.toNat_true, Nat.add_zero] at this
    rw [hbitmap', this, chunk.leafOk.1]
  -- the new entry and the bit it should have
  set full : Bool := decide (bitmap'.nrBusy = idaBitmapBits arch) with hfull
  set q := { p with bitmap := update p.bitmap n full } with hq
  have agree : AgreeOff n c.p q :=
    ⟨rfl, fun x hx => update_of_ne hx .., fun x hx => update_of_ne hx ..⟩
  have ary' : q.ary n = .ptr bitmap' := update_self ..
  have bit' : q.bitmap n = full := update_self ..
  have qOk : LayerOk ChunkLeaf 0 q := by
    refine foc.layerOk.change agree ?_ ?_
    · rw [chunk.ary, ary', chunk.bit, bit']
      cases full <;> rfl
    · rw [ary', bit']
      exact ⟨busy', by simp [hfull]⟩
  -- in both cases the top holds the entries of the tree around `q`
  have top : ∃ top, takeBit layers c bitmap t = ⟨some top, layers, c.idFree⟩ ∧
      LayerOk ChunkLeaf (layers - 1) top ∧
      ∀ j, leaf j (layers - 1) top = leaf j (layers - 1) (climb q c.pa) := by
    have run : takeBit layers c bitmap t = ⟨some (if bitmap'.nrBusy = idaBitmapBits arch
        then idrMarkFull c.id 0 p c.pa else climb p c.pa), layers, c.idFree⟩ := rfl
    by_cases last : bitmap'.nrBusy = idaBitmapBits arch
    · have q_eq : q = setBit p n := by simp only [hq, setBit, hfull, last, decide_true]
      rw [q_eq] at qOk
      obtain ⟨topOk, marked⟩ := idrMarkFull_spec foc (isFull_eq_false chunk.bit) qOk
      refine ⟨idrMarkFull c.id 0 p c.pa, by rw [run, if_pos last], topOk, fun j => ?_⟩
      rw [marked j, q_eq]
    · have q_eq : q = p := by
        have : update p.bitmap n false = p.bitmap :=
          update_eq_self_iff.mpr chunk.bit.symm
        simp [hq, hfull, last, this]
      rw [q_eq] at qOk
      exact ⟨climb p c.pa, by rw [run, if_neg last], (foc.replace qOk rfl).top,
        fun j => by rw [q_eq]⟩
  obtain ⟨top, run, topOk, leafs⟩ := top
  rw [run]
  refine ⟨handleOk_some foc.lt chunk.le topOk chunk.free, fun j o => ?_⟩
  change chunkBit (topLeaf layers top j) o = _
  rw [topLeaf_put chunk.lt fun j => (leafs j).trans (foc.leaf_put agree.leaf_put_zero j), ary', bit']
  by_cases hj : j = c.id
  · rw [hj, update_self, chunk.entry]
    by_cases ho : o < idaBitmapBits arch
    · simp [chunkBit, ho, hbitmap', update_apply, Fin.ext_iff]
    · have : o ≠ t := by
        omega
      simp [chunkBit, ho, this]
  · rw [update_of_ne hj, if_neg (fun h => hj h.1)]
    rfl

end Chunk

def Done (start : Nat) (S : Set Nat) (r : Allocator arch × Ret) : Prop :=
  match r.2 with
  | .ok i => start ≤ i ∧ i ∉ S ∧ (∀ j, start ≤ j → j < i → j ∈ S) ∧ Refines r.1 (insert i S)
  | .bug => False
  | _ => Refines r.1 S

variable {ida : Allocator arch} {S : Set Nat}

theorem Refines.congr {ida' : Allocator arch} (ref : Refines ida S) (ok : HandleOk ChunkLeaf ida'.idr)
    (same : ∀ j o, chunkBit (ida'.idr.leafOf j) o = chunkBit (ida.idr.leafOf j) o) : Refines ida' S where
  ok := ok
  mem i := by
    rw [ref.mem i, busy, busy, same]
  lt := ref.lt

theorem Refines.room (ref : Refines ida S) {k : Nat}
    (hk : k * idaBitmapBits arch < maxIdBit + idaBitmapBits arch) :
    ∃ j, k ≤ j ∧ j < 2 ^ 30 ∧ (ida.idr.leafOf j).2 = false := by
  have far : maxIdBit ≤ (2 ^ 30 - 1) * idaBitmapBits arch ∧ k ≤ 2 ^ 30 - 1 := by
    unfold maxIdBit at *
    cases arch <;> simp only [idaBitmapBits, sizeofLong] at * <;> omega
  refine ⟨2 ^ 30 - 1, far.2, by omega, ?_⟩
  by_contra full
  have pos := idaBitmapBits_pos arch
  have bit := ChunkLeaf.full (ref.ok.leafOk chunkLeaves _) (by simpa using full) pos
  have mem : (2 ^ 30 - 1) * idaBitmapBits arch + 0 ∈ S := by
    rw [ref.mem, busy_add _ _ pos]
    exact bit
  exact absurd (ref.lt _ mem) (Nat.not_lt.mpr far.1)

section Round

variable {ida : Allocator arch} {S : Set Nat} {k o : Nat}

theorem takeBit_refines {layers : Nat} {c : Cursor arch.idrBits (IdaBitmap arch)} {bitmap : IdaBitmap arch}
    {freeBitmap : Option (IdaBitmap arch)} (chunk : AtChunk layers c bitmap)
    (closed : Refines ⟨close layers c, freeBitmap⟩ S) {t : Fin (idaBitmapBits arch)}
    (clear : bitmap.bitmap t = false) (lt : c.id * idaBitmapBits arch + t < maxIdBit) :
    Refines ⟨{ takeBit layers c bitmap t with idFree := (takeBit layers c bitmap t).idFree.tail }, freeBitmap⟩
      (insert (c.id * idaBitmapBits arch + t) S) := by
  obtain ⟨ok, leafs⟩ := takeBit_spec chunk clear
  refine ⟨⟨ok.top, fun q hq => ok.free q (List.mem_of_mem_tail hq)⟩, fun i => ?_, fun i hi => ?_⟩
  · have old : busy (close layers c) i = true ↔ i ∈ S := (closed.mem i).symm
    have new : busy { takeBit layers c bitmap t with idFree := (takeBit layers c bitmap t).idFree.tail } i =
      if i / idaBitmapBits arch = c.id ∧ i % idaBitmapBits arch = t then true
      else busy (close layers c) i := leafs _ _
    rw [new, Set.mem_insert_iff, ← old, index_iff t.2]
    split_ifs with here <;> simp [here]
  · rcases hi with rfl | hi
    · exact lt
    · exact closed.lt i hi

/-- What a round from bit `o` of chunk `k` on comes to: the call is over, or that chunk is taken from there on. -/
def RoundPost (S : Set Nat) (k o : Nat) : (Allocator arch × Nat × Nat) ⊕ (Allocator arch × Ret) → Prop
  | .inl (ida, k', o') => o ≠ 0 ∧ o' = 0 ∧ Refines ida S ∧ k' * idaBitmapBits arch < maxIdBit + idaBitmapBits arch ∧
      k * idaBitmapBits arch + o ≤ k' * idaBitmapBits arch ∧
      ∀ j, k * idaBitmapBits arch + o ≤ j → j < k' * idaBitmapBits arch → j ∈ S
  | .inr r => Done (k * idaBitmapBits arch + o) S r

theorem afterEmptySlot_chunk {layers : Nat} {c c' : Cursor arch.idrBits (IdaBitmap arch)} {bitmap : IdaBitmap arch}
    {freeBitmap : Option (IdaBitmap arch)} (found : chunkAt c ida.freeBitmap = some (bitmap, c', freeBitmap))
    (id_eq : c.id = c'.id) (chunk : AtChunk layers c' bitmap) (closed : Refines ⟨close layers c', freeBitmap⟩ S)
    (passed : ∀ j, k * idaBitmapBits arch + o ≤ j → j < c'.id * idaBitmapBits arch → j ∈ S)
    (ho : o < idaBitmapBits arch) (ge : k ≤ c'.id) (lt : c'.id * idaBitmapBits arch < maxIdBit) :
    RoundPost S k o (afterEmptySlot ida k o (.slot layers c)) := by
  have bits (x : Fin (idaBitmapBits arch)) : c'.id * idaBitmapBits arch + x ∈ S ↔ bitmap.bitmap x = true := by
    rw [closed.mem, busy_add _ _ x.2, ← chunkBit_ptr bitmap false x, ← chunk.entry]
    rfl
  simp only [afterEmptySlot, found]
  rw [id_eq, if_neg (Nat.not_le.mpr lt)]
  cases hz : findNextZero bitmap.bitmap (if c'.id ≠ k then 0 else o) with
  | none =>
    obtain ⟨x, clear⟩ := chunk.leafOk.vacant
    have here : ¬(if c'.id ≠ k then 0 else o) ≤ x := fun le => by
      simpa [clear] using findNextZero_none hz x le
    split_ifs at here hz with same
    · omega
    rw [not_not.mp same] at bits lt ⊢
    refine ⟨by omega, rfl, closed, ?_, ?_, fun j hj hlt => ?_⟩
    · rw [Nat.add_mul]
      omega
    · rw [Nat.add_mul]
      omega
    · obtain ⟨y, rfl⟩ := Nat.exists_eq_add_of_le (show k * idaBitmapBits arch ≤ j by omega)
      rw [Nat.add_mul] at hlt
      exact (bits ⟨y, by omega⟩).mpr (findNextZero_none hz _ (by change o ≤ y; omega))
  | some t =>
    obtain ⟨from_t, clear, before⟩ := findNextZero_some hz
    dsimp only
    split_ifs with past
    · exact closed
    refine ⟨?_, ?_, fun j hj hlt => ?_, takeBit_refines chunk closed clear (by omega)⟩
    · by_cases same : c'.id = k
      · rw [if_neg (not_not.mpr same)] at from_t
        rw [same]
        omega
      · have : (k + 1) * idaBitmapBits arch ≤ c'.id * idaBitmapBits arch :=
          Nat.mul_le_mul_right _ (by omega)
        rw [Nat.add_mul] at this
        omega
    · rw [bits t, clear]
      simp
    · rcases Nat.lt_or_ge j (c'.id * idaBitmapBits arch) with low | high
      · exact passed j hj low
      obtain ⟨x, rfl⟩ := Nat.exists_eq_add_of_le high
      have hx : x < t := by omega
      refine (bits ⟨x, by omega⟩).mpr (before _ ?_ hx)
      split_ifs with other
      · exact Nat.zero_le _
      · rw [not_not.mp other] at hj
        change o ≤ x
        omega

theorem getNewAboveStep_spec (ref : Refines ida S) (ho : o < idaBitmapBits arch)
    (hk : k * idaBitmapBits arch < maxIdBit + idaBitmapBits arch) :
    ∃ r, getNewAboveStep (ida, k, o) = Sum.map id some r ∧ RoundPost S k o r := by
  have pos := idaBitmapBits_pos arch
  obtain ⟨e, run, post⟩ := idrGetEmptySlot_spec chunkLeaves ref.ok (ref.room hk)
  refine ⟨afterEmptySlot ida k o e, by simp [getNewAboveStep, run], ?_⟩
  cases e with
  | fail idr ret =>
    obtain ⟨rfl, ok, same⟩ := post
    have kept : Refines ⟨idr, ida.freeBitmap⟩ S := ref.congr ok fun j o => by rw [same j]
    exact kept
  | slot layers c =>
    obtain ⟨le, slot, low, leafs, ge, vacant, before⟩ := post
    have closed (freeBitmap : Option (IdaBitmap arch)) : Refines ⟨close layers c, freeBitmap⟩ S :=
      ref.congr (handleOk_some slot.focused.lt le slot.focused.top slot.free)
        fun j o => congrArg (chunkBit · o) (leafs j)
    by_cases past : maxIdBit ≤ c.id * idaBitmapBits arch
    · simp only [afterEmptySlot, if_pos past]
      exact closed _
    rcases chunkAt_spec ida.freeBitmap le slot low with
      missing | ⟨bitmap, c', freeBitmap, found, id_eq, chunk, same⟩
    · simp only [afterEmptySlot, if_neg past, missing]
      exact closed _
    refine afterEmptySlot_chunk found id_eq.symm chunk ?_ ?_ ho (id_eq ▸ ge) (by rw [id_eq]; omega)
    · exact (closed freeBitmap).congr (handleOk_some chunk.focused.lt le chunk.focused.top chunk.free) same
    · -- the chunks passed over are full
      intro j hj lt
      rw [id_eq] at lt
      have low : k ≤ j / idaBitmapBits arch := (Nat.le_div_iff_mul_le pos).mpr (by omega)
      have high : j / idaBitmapBits arch < c.id := (Nat.div_lt_iff_lt_mul pos).mpr lt
      rw [ref.mem]
      exact ChunkLeaf.full (ref.ok.leafOk chunkLeaves _) (before _ low high) (Nat.mod_lt _ pos)

end Round

theorem idaGetNewAbove_spec (ref : Refines ida S) {start : Nat}
    (hs : start < maxIdBit) : ∃ r, idaGetNewAbove ida start = some r ∧ Done start S r := by
  have pos := idaBitmapBits_pos arch
  -- only the first round can begin inside a chunk
  let Inv (n : Nat) (s : Allocator arch × Nat × Nat) : Prop :=
    Refines s.1 S ∧ s.2.2 < idaBitmapBits arch ∧
      s.2.1 * idaBitmapBits arch < maxIdBit + idaBitmapBits arch ∧
      start ≤ s.2.1 * idaBitmapBits arch + s.2.2 ∧
      (∀ j, start ≤ j → j < s.2.1 * idaBitmapBits arch + s.2.2 → j ∈ S) ∧ (n = 1 ∨ s.2.2 = 0)
  have first : Inv 1 (ida, start / idaBitmapBits arch, start % idaBitmapBits arch) := by
    have split := Nat.div_add_mod start (idaBitmapBits arch)
    rw [Nat.mul_comm] at split
    refine ⟨ref, Nat.mod_lt _ pos, ?_, split.ge, fun j hj lt => ?_, .inl rfl⟩
    · simp only
      omega
    · rw [split] at lt
      omega
  have keep : ∀ n s, Inv n s →
      (∃ n' s', getNewAboveStep s = .inl s' ∧ n' < n ∧ Inv n' s') ∨
        ∃ r, getNewAboveStep s = .inr r ∧ ∃ d, r = some d ∧ Done start S d := by
    rintro n ⟨ida, k, o⟩ ⟨ref, ho, hk, ge, taken, last⟩
    have through {i : Nat} (rest : ∀ j, k * idaBitmapBits arch + o ≤ j → j < i → j ∈ S) (j : Nat) (hj : start ≤ j)
        (lt : j < i) : j ∈ S := by
      rcases Nat.lt_or_ge j (k * idaBitmapBits arch + o) with old | new
      · exact taken j hj old
      · exact rest j new lt
    obtain ⟨⟨ida', k', o'⟩ | ⟨ida', ret⟩, run, post⟩ := getNewAboveStep_spec ref ho hk
    · obtain ⟨more, rfl, ref', hk', le, rest⟩ := post
      have one : n = 1 := last.resolve_right more
      exact .inl ⟨0, _, run, by omega, ref', pos, hk', ge.trans le, through rest, .inr rfl⟩
    · refine .inr ⟨_, run, _, rfl, ?_⟩
      cases ret with
      | ok i =>
        obtain ⟨from_i, fresh, between, ref'⟩ := post
        exact ⟨ge.trans from_i, fresh, through between, ref'⟩
      | eagain | enospc | bug => exact post
  obtain ⟨_, run, d, rfl, done⟩ := Loop.run_total getNewAboveStep Inv _ keep first one_lt_two
  exact ⟨d, by rw [idaGetNewAbove, run]; rfl, done⟩

def IdaBitmap.clear (bitmap : IdaBitmap arch) (o : Fin (idaBitmapBits arch)) : IdaBitmap arch :=
  ⟨bitmap.nrBusy - 1, update bitmap.bitmap o false⟩

theorem ChunkLeaf.clear {bitmap : IdaBitmap arch} {b : Bool} (ok : ChunkLeaf (.ptr bitmap) b)
    {o : Fin (idaBitmapBits arch)} (set : bitmap.bitmap o = true) :
    (bitmap.clear o).nrBusy = weight (bitmap.clear o).bitmap ∧ (bitmap.clear o).nrBusy < idaBitmapBits arch := by
  have count := weight_update bitmap.bitmap o false
  have le : weight bitmap.bitmap ≤ idaBitmapBits arch := by
    refine (Finset.sum_le_card_nsmul _ _ 1 fun i _ => Bool.toNat_le _).trans ?_
    simp
  have busy := ok.1
  rw [set] at count
  simp only [Bool.toNat_true, Bool.toNat_false] at count
  simp only [IdaBitmap.clear]
  omega

/-- What the descent of `ida_remove` leaves: the chunk without the bit, in a tree that is well formed
again or, if the chunk is empty, ready for `idr_remove`. -/
structure Dropped (idrId h : Nat) (bitmap : IdaBitmap arch)
    (p' : IdrLayer arch.idrBits (IdaBitmap arch)) (out : Outcome arch) : Prop where
  kept : bitmap.nrBusy ≠ 0 → out = .kept ∧ SlotOk ChunkLeaf (h + 1) (.layer p') false
  emptied : bitmap.nrBusy = 0 → out = .emptied bitmap ∧ Holding ChunkLeaf idrId h (.layer p')

theorem removeDown_spec {idrId h : Nat} {o : Fin (idaBitmapBits arch)}
    {e : Slot arch.idrBits (IdaBitmap arch)} {b b' : Bool} {bitmap : IdaBitmap arch}
    (ok : SlotOk ChunkLeaf (h + 1) e b) (chunk : leafAt idrId (h + 1) e b = (.ptr bitmap, b'))
    (set : bitmap.bitmap o = true) : ∃ p' out, removeDown idrId o h e = some (.layer p', out) ∧
      Dropped idrId h (bitmap.clear o) p' out ∧
      ∀ j, leaf j h p' = if j % 2 ^ ((h + 1) * arch.idrBits) = idrId % 2 ^ ((h + 1) * arch.idrBits)
        then (.ptr (bitmap.clear o), decide ((bitmap.clear o).nrBusy = 0)) else leafAt j (h + 1) e b := by
  induction h generalizing e b with
  | zero =>
    obtain ⟨rfl, rfl⟩ | ⟨p, rfl, pOk, -⟩ := ok.cases
    · simp at chunk
    · set n := digit arch.idrBits 0 idrId with hn
      have ary : p.ary n = .ptr bitmap := congrArg Prod.fst chunk
      have leafOk : ChunkLeaf (p.ary n) (p.bitmap n) := pOk.slots n
      rw [ary] at leafOk
      obtain ⟨count, lt⟩ := leafOk.clear set
      -- the bit is set again only for an empty chunk
      set p' : IdrLayer arch.idrBits (IdaBitmap arch) :=
        { setAry p n (.ptr (bitmap.clear o)) with
          bitmap := update p.bitmap n (decide ((bitmap.clear o).nrBusy = 0)) } with hp'
      have agree : AgreeOff n p p' :=
        ⟨rfl, fun x hx => update_of_ne hx .., fun x hx => update_of_ne hx ..⟩
      have ary' : p'.ary n = .ptr (bitmap.clear o) := update_self ..
      have bit' : p'.bitmap n = decide ((bitmap.clear o).nrBusy = 0) := update_self ..
      have moved : p'.count + (used (p.ary n) (p.bitmap n)).toNat =
          p.count + (used (p'.ary n) (p'.bitmap n)).toNat := by
        rw [ary, ary']
        simp [used, Slot.isNull, hp', setAry]
      refine ⟨p', if (bitmap.clear o).nrBusy = 0 then .emptied (bitmap.clear o) else .kept, ?_,
        ⟨fun left => ?_, fun empty => ?_⟩, fun j => ?_⟩
      · simp only [removeDown, ← hn, clearBit, ary, set]
        by_cases empty : (bitmap.clear o).nrBusy = 0
        · have zero : bitmap.nrBusy - 1 = 0 := empty
          rw [if_pos zero, if_pos empty, hp', decide_eq_true empty]
          simp only [setBit, setAry, update_idem]
          rfl
        · have zero : bitmap.nrBusy - 1 ≠ 0 := empty
          rw [if_neg zero, if_neg empty, hp', decide_eq_false empty]
          rfl
      · rw [decide_eq_false left] at bit'
        rw [if_neg left]
        refine ⟨rfl, slotOk_layer.mpr ⟨pOk.change agree moved ?_, (isFull_eq_false bit').symm⟩⟩
        rw [ary', bit']
        exact ⟨count, (by rintro ⟨⟩), fun full => absurd full lt.ne⟩
      · rw [decide_eq_true empty] at bit'
        rw [if_pos empty]
        refine ⟨rfl, pOk.layer, agree.count moved pOk.count, bit', fun x hx => ?_⟩
        rw [agree.ary x hx, agree.bitmap x hx]
        exact pOk.slots x
      · rw [agree.leaf_put_zero, ary', bit', leafAt_layer]
  | succ h ih =>
    obtain ⟨rfl, rfl⟩ | ⟨p, rfl, pOk, -⟩ := ok.cases
    · simp at chunk
    · set n := digit arch.idrBits (h + 1) idrId with hn
      obtain ⟨q, out, run, dropped, leafs⟩ := ih (pOk.slots n) chunk
      set p' := setAry (clearBit p n) n (.layer q)
      have agree : AgreeOff n p p' := agreeOff_clear p n _ p.count
      have ary' : p'.ary n = .layer q := update_self ..
      have bit' : p'.bitmap n = false := update_self ..
      have child : used (p.ary n) (p.bitmap n) = true := by
        obtain ⟨null, clear⟩ | ⟨q, slot, -⟩ := (pOk.slots n).cases
        · simp [leafAt, ← hn, null] at chunk
        · rw [slot, used_layer]
      have moved : p'.count + (used (p.ary n) (p.bitmap n)).toNat =
          p.count + (used (p'.ary n) (p'.bitmap n)).toNat := by
        rw [child, ary', used_layer]
        rfl
      refine ⟨p', out, ?_, ⟨fun left => ?_, fun empty => ?_⟩, fun j => ?_⟩
      · simp only [removeDown, ← hn, run]
        rfl
      · obtain ⟨rfl, qOk⟩ := dropped.kept left
        refine ⟨rfl, slotOk_layer.mpr ⟨pOk.change agree moved ?_, (isFull_eq_false bit').symm⟩⟩
        rw [ary', bit']
        exact qOk
      · obtain ⟨rfl, hold⟩ := dropped.emptied empty
        refine ⟨rfl, pOk.layer, agree.count moved pOk.count, ?_, fun x hx => ?_⟩
        · rw [ary']
          exact hold
        · rw [agree.ary x hx, agree.bitmap x hx]
          exact pOk.slots x
      · refine agree.leaf_put (fun j => ?_) j
        rw [ary', leafAt_layer, leafs j]

section Remove

variable {ida : Allocator arch} {S : Set Nat}

theorem Refines.chunk (ref : Refines ida S) {id : Nat} (hid : id ∈ S) : ∃ p bitmap b, ida.idr.top = some p ∧
      id / idaBitmapBits arch < 2 ^ (ida.idr.layers * arch.idrBits) ∧
      ida.idr.leafOf (id / idaBitmapBits arch) = (.ptr bitmap, b) ∧
      bitmap.bitmap ⟨id % idaBitmapBits arch, Nat.mod_lt _ (idaBitmapBits_pos arch)⟩ = true := by
  have set := (ref.mem id).mp hid
  rw [busy] at set
  rcases entry : ida.idr.leafOf (id / idaBitmapBits arch) with ⟨e, b⟩
  rw [entry] at set
  cases e with
  | null | layer p => cases set
  | ptr bitmap =>
    rw [Handle.leafOf] at entry
    cases top : ida.idr.top with
    | none => simp [top] at entry
    | some p =>
      simp only [top, topLeaf] at entry
      refine ⟨p, bitmap, b, rfl, ?_, rfl, ?_⟩
      · by_contra high
        rw [if_neg high] at entry
        cases entry
      · rw [← set]
        exact (chunkBit_ptr bitmap b ⟨_, Nat.mod_lt _ (idaBitmapBits_pos arch)⟩).symm

theorem Refines.drop (ref : Refines ida S) {id : Nat} {bitmap : IdaBitmap arch} {b : Bool}
    {ida' : Allocator arch}
    (entry : ida.idr.leafOf (id / idaBitmapBits arch) = (.ptr bitmap, b)) (ok : HandleOk ChunkLeaf ida'.idr)
    (leafs : ida'.idr.leafOf = update ida.idr.leafOf (id / idaBitmapBits arch) v)
    (bits : ∀ x : Fin (idaBitmapBits arch), chunkBit v x =
      (bitmap.clear ⟨id % idaBitmapBits arch, Nat.mod_lt _ (idaBitmapBits_pos arch)⟩).bitmap x) :
    Refines ida' (S \ {id}) where
  ok := ok
  mem j := by
    have pos := idaBitmapBits_pos arch
    rw [Set.mem_sdiff, ref.mem j, busy, busy, leafs]
    by_cases chunk : j / idaBitmapBits arch = id / idaBitmapBits arch
    · have value := bits ⟨j % idaBitmapBits arch, Nat.mod_lt _ pos⟩
      have old := chunkBit_ptr bitmap b ⟨j % idaBitmapBits arch, Nat.mod_lt _ pos⟩
      rw [chunk, update_self, entry, value, old]
      simp only [IdaBitmap.clear, update_apply]
      have same : j % idaBitmapBits arch = id % idaBitmapBits arch ↔ j = id := by
        refine ⟨fun mod => ?_, fun h => by rw [h]⟩
        rw [← Nat.div_add_mod j (idaBitmapBits arch), chunk, mod, Nat.div_add_mod]
      simp only [Fin.mk.injEq, same]
      split_ifs with h <;> simp [h]
    · have : j ≠ id := fun h => chunk (by rw [h])
      rw [update_of_ne chunk]
      exact and_iff_left this
  lt j hj := ref.lt j hj.1

theorem putBitmap_idr (ida : Allocator arch) (bitmap : IdaBitmap arch) : (putBitmap ida bitmap).idr = ida.idr := by
  unfold putBitmap
  cases ida.freeBitmap <;> rfl

theorem idaRemove_refines (ref : Refines ida S) {id : Nat} (hid : id ∈ S) :
    ∃ ida', idaRemove ida id = some ida' ∧ Refines ida' (S \ {id}) := by
  obtain ⟨p, bitmap, b, top, low, entry, set⟩ := ref.chunk hid
  obtain ⟨pos, le, pOk⟩ := ref.ok.top p top
  obtain ⟨h, layers⟩ : ∃ h, ida.idr.layers = h + 1 := ⟨ida.idr.layers - 1, by omega⟩
  have level : ida.idr.layers - 1 = h := by omega
  rw [level] at pOk
  have chunk : leafAt (id / idaBitmapBits arch) (h + 1) (.layer p) (isFull p) = (.ptr bitmap, b) := by
    rw [leafOf_eq top, topLeaf, if_pos low, level] at entry
    exact entry
  obtain ⟨p', out, run, dropped, leafs⟩ :=
    removeDown_spec (slotOk_layer.mpr ⟨pOk, rfl⟩) chunk set
  set bitmap' := bitmap.clear ⟨id % idaBitmapBits arch, Nat.mod_lt _ (idaBitmapBits_pos arch)⟩
  -- the idr between the descent and `idr_remove`
  set mid : Handle arch.idrBits (IdaBitmap arch) := { ida.idr with top := some p' }
  have mid_leaf : mid.leafOf = update ida.idr.leafOf (id / idaBitmapBits arch)
      (.ptr bitmap', decide (bitmap'.nrBusy = 0)) := by
    have old : ida.idr.leafOf = topLeaf ida.idr.layers p := funext (leafOf_eq top)
    rw [old]
    refine topLeaf_put low fun j => ?_
    rw [level, layers]
    exact leafs j
  by_cases empty : bitmap'.nrBusy = 0
  · obtain ⟨rfl, hold⟩ := dropped.emptied empty
    rw [← level] at hold
    obtain ⟨ok, moved⟩ := idrRemove_spec chunkLeaves (show mid.top = some p' from rfl) pos le
      ref.ok.free hold low
    refine ⟨putBitmap { ida with idr := idrRemove arch mid (id / idaBitmapBits arch) } bitmap', ?_,
      ref.drop (v := (.null, false)) entry ?_ ?_ fun x => ?_⟩
    · simp only [idaRemove, top, level, run]
      rfl
    · rw [putBitmap_idr]
      exact ok
    · rw [putBitmap_idr]
      simp [moved, mid_leaf]
    · have leafOk := ref.ok.leafOk chunkLeaves (id / idaBitmapBits arch)
      rw [entry] at leafOk
      exact (weight_eq_zero ((leafOk.clear set).1.symm.trans empty) x).symm
  · obtain ⟨rfl, pOk'⟩ := dropped.kept empty
    refine ⟨{ ida with idr := mid }, ?_, ref.drop entry ⟨fun q hq => ?_, ref.ok.free⟩ mid_leaf
      fun x => chunkBit_ptr bitmap' _ x⟩
    · simp only [idaRemove, top, level, run]
      rfl
    · cases hq
      exact ⟨pos, le, by rw [level]; exact (slotOk_layer.mp pOk').1⟩

end Remove

theorem idaPreGet_refines (ref : Refines ida S) (budget : Nat)
    (kmalloc : Option (IdaBitmap arch)) : Refines (idaPreGet budget kmalloc ida).1 S := by
  obtain ⟨ok, same⟩ := idrPreGet_spec budget ref.ok
  have idr : (idaPreGet budget kmalloc ida).1.idr = (idrPreGet arch budget ida.idr).1 := by
    unfold idaPreGet
    rcases idrPreGet arch budget ida.idr with ⟨idr, enough⟩
    cases enough with
    | false => rfl
    | true => cases ida.freeBitmap <;> cases kmalloc <;> simp [putBitmap_idr]
  refine ref.congr (by rwa [idr]) fun j o => ?_
  rw [idr, same j]

theorem Refines.init : Refines (idaInit : Allocator arch) ∅ where
  ok := ⟨(fun _ hp => nomatch hp), fun _ hq => nomatch hq⟩
  mem i := iff_of_false (Set.notMem_empty i) Bool.false_ne_true
  lt _ hi := hi.elim

structure State (arch : Arch) where
  ida : Allocator arch
  ids : Set Nat

def Init (s : State arch) : Prop := s = ⟨idaInit, ∅⟩

/-- The calls. Layers and chunks may be missing at every one of them, and starting ids are
non-negative ints. -/
inductive Step : State arch → State arch → Prop
  | preGet {s : State arch} {budget : Nat} {kmalloc : Option (IdaBitmap arch)} :
      Step s ⟨(idaPreGet budget kmalloc s.ida).1, s.ids⟩
  | getNewAbove {s : State arch} {start : Nat} {ida : Allocator arch} {ret : Ret}
      (int : start < maxIdBit) (run : idaGetNewAbove s.ida start = some (ida, ret)) :
      Step s ⟨ida, match ret with
        | .ok i => insert i s.ids
        | _ => s.ids⟩
  | remove {s : State arch} {id : Nat} {ida : Allocator arch} (allocated : id ∈ s.ids)
      (run : idaRemove s.ida id = some ida) : Step s ⟨ida, s.ids \ {id}⟩

theorem Refines.step {s s' : State arch} (ref : Refines s.ida s.ids) (st : Step s s') : Refines s'.ida s'.ids := by
  cases st with
  | @preGet budget kmalloc => exact idaPreGet_refines ref budget kmalloc
  | @getNewAbove start ida ret int run =>
    obtain ⟨⟨ida', ret'⟩, run', done⟩ := idaGetNewAbove_spec ref int
    obtain ⟨rfl, rfl⟩ : ida' = ida ∧ ret' = ret := by simpa [run] using run'.symm
    cases ret' with
    | ok i => exact done.2.2.2
    | eagain | enospc => exact done
    | bug => exact done.elim
  | @remove id ida allocated run =>
    obtain ⟨ida', run', ref'⟩ := idaRemove_refines ref allocated
    obtain rfl : ida' = ida := by simpa [run] using run'.symm
    exact ref'

theorem Refines.of_reachable {s : State arch} (h : Transition.Reachable Init Step s) : Refines s.ida s.ids := by
  refine h.invariant (fun s => Refines s.ida s.ids) ?_ ?_
  · rintro _ rfl
    exact Refines.init
  · intro s t ref st
    exact ref.step st

/-- In every state reached, the ida holds a finite set of ids. Allocation returns the least id not in
the set from the starting id on and adds it, or fails and changes nothing; removal takes away its id;
every chunk counts its bits, and the idr marks it full exactly when all of them are set. -/
theorem ida_refines_set {s : State arch} (h : Transition.Reachable Init Step s) :
    (∀ i, i ∈ s.ids ↔ busy s.ida.idr i = true) ∧ s.ids.Finite ∧
    (∀ start, start < maxIdBit → ∃ ida ret, idaGetNewAbove s.ida start = some (ida, ret) ∧
      match ret with
      | .ok i => start ≤ i ∧ i ∉ s.ids ∧ (∀ j, start ≤ j → j < i → j ∈ s.ids) ∧
          ∀ j, busy ida.idr j = true ↔ j ∈ s.ids ∨ j = i
      | .bug => False
      | _ => ∀ j, busy ida.idr j = true ↔ j ∈ s.ids) ∧
    (∀ id ∈ s.ids, ∃ ida, idaRemove s.ida id = some ida ∧
      ∀ j, busy ida.idr j = true ↔ j ∈ s.ids ∧ j ≠ id) ∧
    ∀ j bitmap full, s.ida.idr.leafOf j = (.ptr bitmap, full) →
      bitmap.nrBusy = weight bitmap.bitmap ∧
        (full = true ↔ bitmap.nrBusy = idaBitmapBits arch) := by
  have ref : Refines s.ida s.ids := Refines.of_reachable h
  refine ⟨ref.mem, (Set.finite_lt_nat maxIdBit).subset ref.lt, fun start int => ?_, fun id hid => ?_,
    fun j bitmap full entry => ?_⟩
  · obtain ⟨⟨ida, ret⟩, run, done⟩ := idaGetNewAbove_spec ref int
    refine ⟨ida, ret, run, ?_⟩
    cases ret with
    | ok i =>
      obtain ⟨ge, fresh, taken, ref'⟩ := done
      refine ⟨ge, fresh, taken, fun j => ?_⟩
      rw [← ref'.mem j, Set.mem_insert_iff, or_comm]
    | eagain | enospc => exact fun j => (Refines.mem done j).symm
    | bug => exact done
  · obtain ⟨ida, run, ref'⟩ := idaRemove_refines ref hid
    refine ⟨ida, run, fun j => ?_⟩
    rw [← ref'.mem j]
    rfl
  · have := ref.ok.leafOk chunkLeaves j
    rw [entry] at this
    exact this

theorem exists_ready {P : Allocator .bits64 → Prop} (h : P (idaPreGet 20 (some ⟨0, fun _ => false⟩) idaInit).1) :
    ∃ ida, Transition.Reachable Init Step (⟨ida, ∅⟩ : State .bits64) ∧ P ida := by
  have start : Transition.Reachable Init Step (⟨idaInit, ∅⟩ : State .bits64) := .start rfl
  exact ⟨_, start.next .preGet, h⟩

theorem Step.allocated {s : State arch} {start i : Nat} {ida : Allocator arch} (int : start < maxIdBit)
    (run : idaGetNewAbove s.ida start = some (ida, .ok i)) : Step s ⟨ida, insert i s.ids⟩ :=
  Step.getNewAbove int run

/-- Two ids are allocated, the first is removed, and the next allocation finds it again. -/
theorem ida_refines_set_again : ∃ s : State .bits64, Transition.Reachable Init Step s ∧ s.ids = {0, 1} ∧
    s.ids.Finite ∧ busy s.ida.idr 0 = true ∧ busy s.ida.idr 1 = true ∧ busy s.ida.idr 2 = false := by
  obtain ⟨ida₀, ready, ok⟩ := exists_ready (P := fun ida => ((idaGetNewAbove ida 0).bind fun r =>
      (idaGetNewAbove r.1 0).bind fun r' => (idaRemove r'.1 0).bind fun ida => (idaGetNewAbove ida 0).map fun r'' =>
        (r.2, r'.2, r''.2)) = some (.ok 0, .ok 1, .ok 0)) (by decide +kernel)
  simp only [Option.bind_eq_some_iff, Option.map_eq_some_iff, Prod.mk.injEq] at ok
  obtain ⟨⟨ida₁, ret₁⟩, run₁, ⟨ida₂, ret₂⟩, run₂, ida₃, run₃, ⟨ida₄, ret₄⟩, run₄, rfl, rfl, rfl⟩ := ok
  have int : 0 < maxIdBit := by decide
  have first : Step ⟨ida₀, ∅⟩ ⟨ida₁, insert 0 ∅⟩ := .allocated int run₁
  have second : Step ⟨ida₁, insert 0 ∅⟩ ⟨ida₂, insert 1 (insert 0 ∅)⟩ := .allocated int run₂
  have third : Step ⟨ida₂, insert 1 (insert 0 ∅)⟩ ⟨ida₃, insert 1 (insert 0 ∅) \ {0}⟩ :=
    .remove (.inr (.inl rfl)) run₃
  have fourth : Step ⟨ida₃, insert 1 (insert 0 ∅) \ {0}⟩ ⟨ida₄, insert 0 (insert 1 (insert 0 ∅) \ {0})⟩ :=
    .allocated int run₄
  have ids : insert 0 (insert 1 (insert 0 (∅ : Set Nat)) \ {0}) = {0, 1} := by
    ext i
    simp
  rw [ids] at fourth
  have again := (((ready.next first).next second).next third).next fourth
  obtain ⟨mem, fin, -⟩ := ida_refines_set again
  have zero := (mem 0).mp (.inl rfl)
  have one := (mem 1).mp (.inr rfl)
  have free : ¬busy ida₄.idr 2 = true := fun two => absurd ((mem 2).mpr two) (by simp)
  exact ⟨⟨ida₄, {0, 1}⟩, again, rfl, fin, zero, one, Bool.eq_false_iff.mpr free⟩

end Ida
