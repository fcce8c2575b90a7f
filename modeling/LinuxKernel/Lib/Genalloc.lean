/- The allocator of lib/genalloc.c: chunks of memory with a bit for each granule. -/
import Mathlib.Algebra.Group.Int.Defs
import LinuxKernel.Foundation.Width
import LinuxKernel.Lib.BitmapSearch

namespace Genalloc

open BitmapSearch List Width

/-- `struct gen_pool_chunk`. -/
structure Chunk where
  startAddr : Nat
  endAddr : Nat
  bits : Nat → Bool

/-- `(size + (1UL << order) - 1) >> order`. -/
def nbits (order size : Nat) : Nat := (size + 2 ^ order - 1) % 2 ^ 64 / 2 ^ order

/-- `(chunk->end_addr - chunk->start_addr) >> order`. -/
def Chunk.granules (order : Nat) (chunk : Chunk) : Nat :=
  (chunk.endAddr + 2 ^ 64 - chunk.startAddr) % 2 ^ 64 / 2 ^ order

/-- `bitmap_set` and the loop with `__clear_bit`. -/
def setBits (v : Bool) (bits : Nat → Bool) (start n : Int) : Nat → Bool :=
  fun i => if start ≤ i ∧ i < start + n then v else bits i

/-- The loop of `gen_pool_alloc`, with a bound on the turns of each search: the address, and the chunks. -/
def allocFrom (order : Nat) (nbits : Int) (n : Nat) : List Chunk → Option (Nat × List Chunk)
  | [] => some (0, [])
  | chunk :: rest => do
    let endBit := int (int (chunk.granules order) - (nbits + 1))
    let found ← bitmapFindNextZeroArea chunk.bits (endBit % 2 ^ 64).toNat 0 (nbits % 2 ^ 32).toNat 0 n
    let startBit := int found
    if startBit ≥ endBit then (allocFrom order nbits n rest).map fun r => (r.1, chunk :: r.2)
    else
      let addr := (chunk.startAddr + (startBit % 2 ^ 64).toNat * 2 ^ order) % 2 ^ 64
      some (addr, { chunk with bits := setBits true chunk.bits startBit nbits } :: rest)

def genPoolAlloc (order : Nat) (chunks : List Chunk) (size n : Nat) : Option (Nat × List Chunk) :=
  if size = 0 then some (0, chunks) else allocFrom order (int (nbits order size)) n chunks

/-- `gen_pool_free`; without a result one of its `BUG_ON`s was reached. -/
def genPoolFree (order addr size : Nat) : List Chunk → Option (List Chunk)
  | [] => if 0 < int (nbits order size) then none else some []
  | chunk :: rest =>
    if chunk.startAddr ≤ addr ∧ addr < chunk.endAddr then
      if chunk.endAddr < (addr + size) % 2 ^ 64 then none
      else
        let bit := int ((addr - chunk.startAddr) / 2 ^ order : Nat)
        some ({ chunk with bits := setBits false chunk.bits bit (int (nbits order size)) } :: rest)
    else (genPoolFree order addr size rest).map (chunk :: ·)

/-- That many consecutive free granules of the chunk. -/
def Chunk.Free (order n : Nat) (chunk : Chunk) : Nat → Prop := ZeroArea chunk.bits (chunk.granules order) n 0

/-- Free granules that end early enough for the search, which takes the request and one off the end itself. -/
def Chunk.Early (order n : Nat) (chunk : Chunk) : Prop :=
  ∃ r, chunk.Free order n r ∧ r + 2 * n < chunk.granules order

structure Proper (order n : Nat) (chunk : Chunk) : Prop where
  start : 0 < chunk.startAddr
  le : chunk.startAddr ≤ chunk.endAddr
  stop : chunk.endAddr < 2 ^ 64
  int : chunk.granules order + n < 2 ^ 31

/-- The size that `bitmap_find_next_zero_area` gets. -/
def Chunk.limit (order n : Nat) (chunk : Chunk) : Nat := (int (int (chunk.granules order) - (n + 1)) % 2 ^ 64).toNat

/-- A bit that is looked at: it is below the size, and no area ends in front of it. -/
def Chunk.Examined (order n : Nat) (chunk : Chunk) (i : Nat) : Prop :=
  i < chunk.limit order n ∧ ∀ r, r + n ≤ i → ¬ZeroArea chunk.bits (chunk.limit order n) n 0 r

/-- The search comes to the chunk: the ones in front of it have nothing that ends early enough. -/
def Visited (order n : Nat) (chunks : List Chunk) (chunk : Chunk) : Prop :=
  ∃ pre post, chunks = pre ++ chunk :: post ∧ ∀ d ∈ pre, ¬d.Early order n

/-- A chunk with more granules than are asked for, so that `end_bit` is not negative, or with just these and all of
them free, so that the search ends with the last of them. -/
def Chunk.Roomy (order n : Nat) (chunk : Chunk) : Prop :=
  n < chunk.granules order ∨ chunk.granules order = n ∧ chunk.Free order n 0

variable {order n : Nat} {chunk : Chunk}

theorem Proper.addr_le (proper : Proper order n chunk) {r : Nat} (free : chunk.Free order n r) :
    chunk.startAddr + (r + n) * 2 ^ order ≤ chunk.endAddr := by
  have le := proper.le
  have stop := proper.stop
  have bytes : (chunk.endAddr + 2 ^ 64 - chunk.startAddr) % 2 ^ 64 = chunk.endAddr - chunk.startAddr := by omega
  have := free.2.1
  rw [Chunk.granules, bytes, Nat.le_div_iff_mul_le (Nat.two_pow_pos order)] at this
  omega

theorem allocFrom_cons (proper : Proper order n chunk) (small : n < chunk.granules order) (pos : 1 ≤ n) : ∃ r,
    Answers chunk.bits (chunk.granules order - n - 1) 0 n 0 r ∧ ∀ m > chunk.granules order, ∀ rest,
      allocFrom order n m (chunk :: rest) = if chunk.granules order - n - 1 ≤ r
        then (allocFrom order n m rest).map fun r => (r.1, chunk :: r.2)
        else some ((chunk.startAddr + r * 2 ^ order) % 2 ^ 64,
          { chunk with bits := setBits true chunk.bits r n } :: rest) := by
  have fits := proper.int
  obtain ⟨stop, hstop⟩ : ∃ stop, stop = chunk.granules order - n - 1 := ⟨_, rfl⟩
  have endBit : int (int (chunk.granules order) - (n + 1)) = stop := by
    rw [int_eq (x := chunk.granules order) (by omega) (by omega), int_eq (by omega) (by omega)]
    omega
  obtain ⟨r, run, answers, bound⟩ : ∃ r, (∀ m > stop, bitmapFindNextZeroArea chunk.bits stop 0 n 0 m = some r) ∧
    Answers chunk.bits stop 0 n 0 r ∧ r ≤ stop + n :=
    zeroArea_found (k := 0) chunk.bits (Nat.zero_le _) pos (by omega)
  rw [← hstop]
  refine ⟨r, answers, fun m hm rest => ?_⟩
  have size : ((stop : Int) % 2 ^ 64).toNat = stop := by omega
  have count : ((n : Int) % 2 ^ 32).toNat = n := by omega
  have value : ((r : Int) % 2 ^ 64).toNat = r := by omega
  have exact_r : int r = r := int_eq (by omega) (by omega)
  rw [allocFrom, endBit, size, count, run m (by omega), Option.bind_eq_bind, Option.bind_some, exact_r]
  dsimp only
  rw [value]
  exact if_congr Int.ofNat_le rfl rfl

theorem limit_of_le (proper : Proper order n chunk) (le : chunk.granules order ≤ n) :
    chunk.limit order n = 2 ^ 64 + chunk.granules order - (n + 1) := by
  have := proper.int
  rw [Chunk.limit, int_eq (x := chunk.granules order) (by omega) (by omega), int_eq (by omega) (by omega)]
  omega

/-- A chunk of just the granules that are asked for is passed over, free as they are. -/
theorem allocFrom_full (proper : Proper order n chunk) (full : chunk.granules order = n) (free : chunk.Free order n 0)
    (pos : 1 ≤ n) {m : Nat} (hm : 0 < m) (rest : List Chunk) : allocFrom order n m (chunk :: rest) =
      (allocFrom order n m rest).map fun r => (r.1, chunk :: r.2) := by
  have fits := proper.int
  have limit := limit_of_le proper full.le
  have zero (i : Nat) (lt : i < n) : chunk.bits i = false := free.2.2 i (Nat.zero_le i) (by omega)
  obtain ⟨-, -, -, ones⟩ := findNextBit_spec (fun i => !chunk.bits i) (Nat.zero_le (chunk.limit order n))
  obtain ⟨-, -, set, -⟩ := findNextBit_spec chunk.bits (Nat.zero_le n)
  have first : findNextZeroBit chunk.bits (chunk.limit order n) 0 = 0 := by
    by_contra ne
    have := ones 0 le_rfl (Nat.pos_of_ne_zero ne)
    rw [zero 0 pos] at this
    cases this
  have last : ¬findNextBit chunk.bits n 0 < n := fun lt => by
    have := set lt
    rw [zero _ lt] at this
    cases this
  have count : ((n : Int) % 2 ^ 32).toNat = n := by omega
  have turn : zeroAreaTurn chunk.bits (chunk.limit order n) n 0 0 = .inr 0 := by
    have inside : ¬chunk.limit order n < n := by omega
    have aligned : Align.alignUp 64 0 (0 + 1) = 0 := by decide +kernel
    rw [zeroAreaTurn, first, aligned, Nat.zero_add, Nat.mod_eq_of_lt (by omega : n < 2 ^ 64), if_neg inside,
      if_neg last]
  obtain ⟨m, rfl⟩ := Nat.exists_eq_add_of_le' hm
  have found : bitmapFindNextZeroArea chunk.bits (chunk.limit order n) 0 n 0 (m + 1) = some 0 := by
    rw [bitmapFindNextZeroArea, Loop.run, turn]
  have negative : int (int (chunk.granules order) - (n + 1)) = -1 := by
    rw [int_eq (x := chunk.granules order) (by omega) (by omega), int_eq (by omega) (by omega), full]
    omega
  rw [Chunk.limit, negative] at found
  rw [allocFrom, negative, count, found, Option.bind_eq_bind, Option.bind_some]
  exact if_pos (by decide)

/-- Just then no bit behind the granules is looked at. -/
theorem examined_iff (proper : Proper order n chunk) (pos : 1 ≤ n) :
    (∀ i, chunk.Examined order n i → i < chunk.granules order) ↔ chunk.Roomy order n := by
  have fits := proper.int
  by_cases small : n < chunk.granules order
  · refine iff_of_true (fun i examined => examined.1.trans ?_) (.inl small)
    rw [Chunk.limit, int_eq (x := chunk.granules order) (by omega) (by omega), int_eq (by omega) (by omega)]
    omega
  have limit := limit_of_le proper (not_lt.mp small)
  constructor
  · intro inside
    by_contra tight
    -- no area ends by the last granule
    refine absurd (inside (chunk.granules order) ⟨by omega, fun r le area => ?_⟩) (lt_irrefl _)
    obtain rfl : r = 0 := by omega
    exact tight (.inr ⟨by omega, one_dvd _, by omega, area.2.2⟩)
  · rintro (more | ⟨full, free⟩) i ⟨-, none⟩
    · exact absurd more small
    · by_contra behind
      exact none 0 (by omega) ⟨one_dvd _, by omega, free.2.2⟩

theorem zeroArea_early (pos : 1 ≤ n) {t : Nat} :
    ZeroArea chunk.bits (chunk.granules order - n - 1) n 0 t ↔
      chunk.Free order n t ∧ t + 2 * n < chunk.granules order := by
  constructor
  · rintro ⟨dvd, le, zero⟩
    exact ⟨⟨dvd, by omega, zero⟩, by omega⟩
  · rintro ⟨⟨dvd, -, zero⟩, lt⟩
    exact ⟨dvd, by omega, zero⟩

/-- The first chunk with enough free granules that end early enough gives the first of them. -/
inductive Grants (order n : Nat) : List Chunk → Nat → List Chunk → Prop
  | nil : Grants order n [] 0 []
  | pass {chunk : Chunk} {addr : Nat} {chunks chunks' : List Chunk} (roomy : chunk.Roomy order n)
      (none : ¬chunk.Early order n) (rest : Grants order n chunks addr chunks') :
      Grants order n (chunk :: chunks) addr (chunk :: chunks')
  | grant {chunk : Chunk} {r : Nat} {chunks : List Chunk} (free : chunk.Free order n r)
      (early : r + 2 * n < chunk.granules order) (least : ∀ t, chunk.Free order n t → r ≤ t) :
      Grants order n (chunk :: chunks) (chunk.startAddr + r * 2 ^ order)
        ({ chunk with bits := setBits true chunk.bits r n } :: chunks)

variable {chunks chunks' : List Chunk} {addr : Nat}

theorem exists_grants (roomy : ∀ c, Visited order n chunks c → c.Roomy order n) :
    ∃ addr chunks', Grants order n chunks addr chunks' := by
  classical
  induction chunks with
  | nil => exact ⟨0, [], .nil⟩
  | cons chunk chunks ih =>
    by_cases early : chunk.Early order n
    · obtain ⟨r, free, lt⟩ := early
      have least := fun t ht => Nat.find_min' (⟨r, free⟩ : ∃ t, chunk.Free order n t) (m := t) ht
      have := least r free
      exact ⟨_, _, .grant (Nat.find_spec ⟨r, free⟩) (by omega) least⟩
    · obtain ⟨addr, chunks', rest⟩ := ih (by
        rintro c ⟨pre, post, rfl, before⟩
        exact roomy c ⟨chunk :: pre, post, rfl, forall_mem_cons.mpr ⟨early, before⟩⟩)
      exact ⟨addr, _, .pass (roomy chunk ⟨[], chunks, rfl, nofun⟩) early rest⟩

theorem Grants.run (grants : Grants order n chunks addr chunks') (pos : 1 ≤ n)
    (proper : ∀ c ∈ chunks, Proper order n c) :
    ∃ m₀, ∀ m > m₀, allocFrom order n m chunks = some (addr, chunks') := by
  induction grants with
  | nil => exact ⟨0, fun _ _ => rfl⟩
  | @pass chunk addr chunks chunks' roomy none rest ih =>
    obtain ⟨here, proper⟩ := forall_mem_cons.mp proper
    obtain ⟨m₀, run⟩ := ih proper
    rcases roomy with small | ⟨full, free⟩
    · obtain ⟨r, ⟨area, -⟩ | ⟨above, -⟩, turn⟩ := allocFrom_cons here small pos
      · exact absurd ⟨r, (zeroArea_early pos).mp area⟩ none
      · refine ⟨max m₀ (chunk.granules order), fun m hm => ?_⟩
        rw [turn m (by omega), if_pos above.le, run m (by omega), Option.map_some]
    · refine ⟨m₀, fun m hm => ?_⟩
      rw [allocFrom_full here full free pos (by omega), run m hm, Option.map_some]
  | @grant chunk r chunks free early least =>
    obtain ⟨here, -⟩ := forall_mem_cons.mp proper
    have area := (zeroArea_early pos).mpr ⟨free, early⟩
    obtain ⟨r', ⟨area', -, least'⟩ | ⟨-, none⟩, turn⟩ := allocFrom_cons here (by omega) pos
    · obtain rfl : r' = r := le_antisymm (least' r (Nat.zero_le _) area) (least r' ((zeroArea_early pos).mp area').1)
      have inside := here.addr_le free
      have stop := here.stop
      have : r' * 2 ^ order ≤ (r' + n) * 2 ^ order := Nat.mul_le_mul_right _ (Nat.le_add_right r' n)
      refine ⟨chunk.granules order, fun m hm => ?_⟩
      rw [turn m hm, if_neg (by omega), Nat.mod_eq_of_lt (by omega)]
    · exact absurd area (none r (Nat.zero_le _))

/-- Chunks that differ at most in bits behind their granules. -/
structure SameGranules (order : Nat) (c d : Chunk) : Prop where
  start : d.startAddr = c.startAddr
  stop : d.endAddr = c.endAddr
  bits : ∀ i < c.granules order, d.bits i = c.bits i

section

variable {d : Chunk} (same : SameGranules order chunk d)
include same

theorem SameGranules.granules_eq : d.granules order = chunk.granules order := by
  rw [Chunk.granules, same.start, same.stop, Chunk.granules]

theorem SameGranules.free_iff {r : Nat} : d.Free order n r ↔ chunk.Free order n r := by
  rw [Chunk.Free, Chunk.Free, same.granules_eq]
  refine and_congr_right fun _ => and_congr_right fun le => forall_congr' fun i => forall_congr' fun _ => ?_
  exact forall_congr' fun lt => by rw [same.bits i (by omega)]

theorem SameGranules.early_iff : d.Early order n ↔ chunk.Early order n := by
  simp only [Chunk.Early, same.free_iff, same.granules_eq]

theorem SameGranules.proper (proper : Proper order n chunk) : Proper order n d := by
  constructor
  all_goals simp only [same.start, same.stop, same.granules_eq]
  exacts [proper.start, proper.le, proper.stop, proper.int]

end

theorem Grants.congr {f : Chunk → Chunk} (same : ∀ c, SameGranules order c (f c))
    (grants : Grants order n chunks addr chunks') : ∃ others, Grants order n (chunks.map f) addr others := by
  induction grants with
  | nil => exact ⟨[], .nil⟩
  | @pass chunk addr chunks chunks' roomy none rest ih =>
    obtain ⟨others, ih⟩ := ih
    have roomy : (f chunk).Roomy order n := by rwa [Chunk.Roomy, (same chunk).granules_eq, (same chunk).free_iff]
    exact ⟨_, .pass roomy (mt (same chunk).early_iff.mp none) ih⟩
  | @grant chunk r chunks free early least =>
    rw [← (same chunk).start]
    exact ⟨_, .grant ((same chunk).free_iff.mpr free) (by rwa [(same chunk).granules_eq])
      fun t ht => least t ((same chunk).free_iff.mp ht)⟩

theorem Grants.split (grants : Grants order n chunks addr chunks') (proper : ∀ c ∈ chunks, Proper order n c) :
    (addr = 0 ∧ ∀ c ∈ chunks, ¬c.Early order n) ∨ addr ≠ 0 ∧ ∃ pre c post r, chunks = pre ++ c :: post ∧
      c.Free order n r ∧ r + 2 * n < c.granules order ∧ addr = c.startAddr + r * 2 ^ order ∧
      chunks' = pre ++ { c with bits := setBits true c.bits r n } :: post := by
  induction grants with
  | nil => exact .inl ⟨rfl, nofun⟩
  | pass _ none rest ih =>
    obtain ⟨-, proper⟩ := forall_mem_cons.mp proper
    rcases ih proper with ⟨zero, nothing⟩ | ⟨nonzero, pre, c, post, r, rfl, free, early, eq, rfl⟩
    · exact .inl ⟨zero, forall_mem_cons.mpr ⟨none, nothing⟩⟩
    · exact .inr ⟨nonzero, _ :: pre, c, post, r, rfl, free, early, eq, rfl⟩
  | @grant chunk r chunks free early least =>
    have := (proper chunk mem_cons_self).start
    exact .inr ⟨by omega, [], chunk, chunks, r, rfl, free, early, rfl, rfl⟩

def Apart (c d : Chunk) : Prop := c.endAddr ≤ d.startAddr ∨ d.endAddr ≤ c.startAddr

theorem genPoolFree_granted {pre post : List Chunk} {size r : Nat} (proper : Proper order n chunk)
    (free : chunk.Free order n r) (apart : (pre ++ chunk :: post).Pairwise Apart) (pos : 0 < size)
    (fits : size ≤ n * 2 ^ order) (count : nbits order size = n) :
    genPoolFree order (chunk.startAddr + r * 2 ^ order) size
      (pre ++ { chunk with bits := setBits true chunk.bits r n } :: post) = some (pre ++ chunk :: post) := by
  have inside := proper.addr_le free
  have stop := proper.stop
  have int := proper.int
  rw [Nat.add_mul] at inside
  induction pre with
  | nil =>
    have bit : (chunk.startAddr + r * 2 ^ order - chunk.startAddr) / 2 ^ order = r := by
      rw [Nat.add_sub_cancel_left, Nat.mul_div_cancel _ (Nat.two_pow_pos order)]
    have := free.2.1
    have bits : setBits false (setBits true chunk.bits r n) r n = chunk.bits := by
      funext i
      simp only [setBits]
      split_ifs with here
      · exact (free.2.2 i (by omega) (by omega)).symm
      · rfl
    rw [nil_append, genPoolFree, if_pos ⟨by simp, by simp only; omega⟩, if_neg (by simp only; omega)]
    simp only [bit, count, int_eq (x := r) (by omega) (by omega), int_eq (x := n) (by omega) (by omega),
      bits, nil_append]
  | cons c pre ih =>
    obtain ⟨away, apart⟩ := pairwise_cons.mp apart
    have := away chunk (by simp)
    unfold Apart at this
    rw [cons_append, genPoolFree, if_neg (by omega), ih apart]
    rfl

/-- `gen_pool_alloc` returns an address just when enough granules of a chunk are free in a row. It is that of such
granules, which are marked, and no bit behind the granules is looked at or matters; `gen_pool_free` frees them
again. -/
def AllocatesFree (order : Nat) (chunks : List Chunk) (size : Nat) : Prop :=
  ∃ addr chunks', (∃ m₀, ∀ m > m₀, genPoolAlloc order chunks size m = some (addr, chunks')) ∧
    (addr ≠ 0 ↔ ∃ c ∈ chunks, ∃ r, c.Free order (nbits order size) r) ∧
    (addr ≠ 0 → (∃ pre c post r, chunks = pre ++ c :: post ∧ c.Free order (nbits order size) r ∧
      addr = c.startAddr + r * 2 ^ order ∧
      chunks' = pre ++ { c with bits := setBits true c.bits r (nbits order size) } :: post) ∧
      genPoolFree order addr size chunks' = some chunks) ∧
    (∀ c, Visited order (nbits order size) chunks c →
      ∀ i, c.Examined order (nbits order size) i → i < c.granules order) ∧
    ∀ f : Chunk → Chunk, (∀ c, SameGranules order c (f c)) →
      ∃ others m₀, ∀ m > m₀, genPoolAlloc order (chunks.map f) size m = some (addr, others)

theorem nbits_spec {size : Nat} (pos : 0 < size) (fits : size + 2 ^ order ≤ 2 ^ 64) :
    size ≤ nbits order size * 2 ^ order ∧ 1 ≤ nbits order size := by
  have unit := Nat.two_pow_pos order
  rw [nbits, Nat.mod_eq_of_lt (by omega)]
  have := Nat.div_add_mod' (size + 2 ^ order - 1) (2 ^ order)
  have := Nat.mod_lt (size + 2 ^ order - 1) unit
  have := Nat.div_pos (by omega : 2 ^ order ≤ size + 2 ^ order - 1) unit
  omega

def idle (startAddr endAddr : Nat) : Chunk := ⟨startAddr, endAddr, fun _ => false⟩

end Genalloc
