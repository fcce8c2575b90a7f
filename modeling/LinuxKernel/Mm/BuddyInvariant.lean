/- Free and live blocks of the buddy allocator tile the zone in every reachable state. -/
import Mathlib.Data.List.Nodup
import Mathlib.Data.List.Perm.Basic
import Mathlib.Data.Set.Basic
import Mathlib.Tactic.Ring
import LinuxKernel.Foundation.Transition
import LinuxKernel.Mm.Buddy

namespace Buddy

open MigrateType Function
open List (forall_mem_cons mem_cons_self pairwise_cons)

variable {p o : Nat}

theorem buddy_cases (h : 2 ^ o ∣ p) : (2 ^ (o + 1) ∣ p ∧ p ^^^ 2 ^ o = p + 2 ^ o ∧ p &&& 2 ^ o = 0) ∨
    ∃ q, 2 ^ (o + 1) ∣ q ∧ p = q + 2 ^ o ∧ p ^^^ 2 ^ o = q ∧ p &&& 2 ^ o = 2 ^ o := by
  obtain ⟨k, rfl⟩ := h
  have hx : 2 ^ o * k ^^^ 2 ^ o = 2 ^ o * (k ^^^ 1) := by
    have distrib := Nat.shiftLeft_xor_distrib (a := k) (b := 1) (i := o)
    simp only [Nat.shiftLeft_eq, one_mul] at distrib
    rw [mul_comm, ← distrib, mul_comm]
  have ha : 2 ^ o * k &&& 2 ^ o = 2 ^ o * (k &&& 1) := by
    have distrib := Nat.shiftLeft_and_distrib (a := k) (b := 1) (i := o)
    simp only [Nat.shiftLeft_eq, one_mul] at distrib
    rw [mul_comm, ← distrib, mul_comm]
  rw [hx, ha]
  rcases Nat.even_or_odd' k with ⟨m, rfl | rfl⟩
  · left
    rw [Nat.xor_one_of_even (even_two_mul m)]
    exact ⟨⟨m, by ring⟩, by ring, by simp⟩
  · right
    rw [Nat.xor_one_of_odd (odd_two_mul_add_one m)]
    exact ⟨2 ^ o * (2 * m), ⟨m, by ring⟩, by ring, rfl, by simp⟩

/-- A multiple of the next power has the lower half of a block. -/
theorem low_of_dvd (h : 2 ^ (o + 1) ∣ p) : p ^^^ 2 ^ o = p + 2 ^ o := by
  rcases buddy_cases ((Nat.pow_dvd_pow 2 o.le_succ).trans h) with ⟨-, low, -⟩ | ⟨q, high, hq, -⟩
  · exact low
  · rw [hq, Nat.dvd_add_right high] at h
    exact absurd (Nat.le_of_dvd (Nat.two_pow_pos o) h) (by simp [Nat.pow_succ])

theorem pageFindBuddy_eq {m : Nat} (h : 2 ^ o ∣ p) (ho : o < m) : pageFindBuddy p (p % 2 ^ m) o = p ^^^ 2 ^ o := by
  have hi : 2 ^ o ∣ p % 2 ^ m := (Nat.dvd_mod_iff (Nat.pow_dvd_pow 2 ho.le)).mpr h
  have same := Nat.dvd_mod_iff (m := p) (Nat.pow_dvd_pow 2 (show o + 1 ≤ m from ho))
  simp only [pageFindBuddy, Nat.one_shiftLeft]
  rcases buddy_cases h with ⟨low, hx, -⟩ | ⟨q, -, hq, hx, -⟩
  · have := low_of_dvd (same.mpr low)
    omega
  · rcases buddy_cases hi with ⟨low, -⟩ | ⟨q', -, hq', hix, -⟩
    · have := low_of_dvd (same.mp low)
      omega
    · omega

/-- The first page of the block that a block and its buddy form. -/
def combined (p o : Nat) : Nat := p - (p &&& 2 ^ o)

theorem combined_cases (h : 2 ^ o ∣ p) : 2 ^ (o + 1) ∣ combined p o ∧
      ((combined p o = p ∧ p ^^^ 2 ^ o = p + 2 ^ o) ∨ (combined p o = p ^^^ 2 ^ o ∧ p = (p ^^^ 2 ^ o) + 2 ^ o)) := by
  unfold combined
  rcases buddy_cases h with ⟨low, hx, ha⟩ | ⟨q, high, hq, hx, ha⟩
  · rw [ha]
    exact ⟨low, .inl ⟨rfl, hx⟩⟩
  · have sub : p - 2 ^ o = q := by omega
    rw [ha, sub, hx]
    exact ⟨high, .inr ⟨rfl, hq⟩⟩

theorem findCombinedIndex_eq {m : Nat} (ho : o < m) : findCombinedIndex (p % 2 ^ m) o = combined p o % 2 ^ m ∧
      p + findCombinedIndex (p % 2 ^ m) o - p % 2 ^ m = combined p o := by
  have bit : p % 2 ^ m &&& 2 ^ o = p &&& 2 ^ o := by
    apply Nat.eq_of_testBit_eq
    intro i
    by_cases hi : o = i
    · simp [← hi, ho]
    · simp [hi]
  have under : p &&& 2 ^ o ≤ p % 2 ^ m := bit ▸ Nat.and_le_left
  have hc : findCombinedIndex (p % 2 ^ m) o = p % 2 ^ m - (p &&& 2 ^ o) := by
    simp [findCombinedIndex, Nat.one_shiftLeft, bit]
  rw [hc]
  refine ⟨?_, by unfold combined; omega⟩
  have whole : p - (p &&& 2 ^ o) = (p % 2 ^ m - (p &&& 2 ^ o)) + 2 ^ m * (p / 2 ^ m) := by
    have := Nat.mod_add_div p (2 ^ m)
    omega
  have lt : p % 2 ^ m - (p &&& 2 ^ o) < 2 ^ m := by
    omega
  rw [combined, whole, Nat.add_mul_mod_self_left, Nat.mod_eq_of_lt lt]

/-- All free blocks of an order, over the lists of every type. -/
def listed (z : Zone) (o : Nat) : List Nat := migrateTypes.flatMap (z.freeList o)

theorem mem_listed {z : Zone} : p ∈ listed z o ↔ ∃ mt, p ∈ z.freeList o mt := by
  simp only [listed, List.mem_flatMap]
  constructor
  · rintro ⟨mt, -, h⟩
    exact ⟨mt, h⟩
  · rintro ⟨mt, h⟩
    exact ⟨mt, by cases mt <;> decide, h⟩

variable {l : List Nat}

theorem filter_ne_eq_erase (nodup : l.Nodup) (p : Nat) : l.filter (· ≠ p) = l.erase p := by
  rw [nodup.erase_eq_filter]
  simp [bne, beq_eq_decide]

theorem listed_listDel {z : Zone} (nodup : (listed z o).Nodup) (p : Nat) :
    listed (listDel z p) o = (listed z o).filter (· ≠ p) := by
  have each : ∀ mt, (z.freeList o mt).erase p = (z.freeList o mt).filter (· ≠ p) := by
    intro mt
    have sub : (z.freeList o mt).Nodup := by
      refine (List.nodup_flatMap.mp nodup).1 mt ?_
      cases mt <;> decide
    exact (filter_ne_eq_erase sub p).symm
  simp only [listed, List.filter_flatMap]
  congr 1
  funext mt
  exact each mt

theorem listed_listAdd (z : Zone) (o : Nat) (mt : MigrateType) (p : Nat) :
    (listed (listAdd z o mt p) o).Perm (p :: listed z o) := by
  rw [List.perm_iff_count]
  intro x
  cases mt <;> simp [listed, listAdd, migrateTypes, List.count_cons] <;> omega

theorem listed_listAdd_ne (z : Zone) {o' : Nat} (h : o' ≠ o) (mt : MigrateType) (p : Nat) :
    listed (listAdd z o mt p) o' = listed z o' := by
  simp [listed, listAdd, h]

abbrev Block := Nat × Nat

def Block.Mem (b : Block) (x : Nat) : Prop := b.1 ≤ x ∧ x < b.1 + 2 ^ b.2

def Block.Apart (b c : Block) : Prop := b.1 + 2 ^ b.2 ≤ c.1 ∨ c.1 + 2 ^ c.2 ≤ b.1

variable {b : Block}

theorem Block.Apart.symm {c : Block} (h : b.Apart c) : c.Apart b := h.elim .inr .inl

theorem Block.Apart.first_ne {c : Block} (h : b.Apart c) : b.1 ≠ c.1 := by
  have := Nat.two_pow_pos b.2
  have := Nat.two_pow_pos c.2
  rcases h with h | h <;> omega

theorem apart_halves : b.Apart (p, o) ∧ b.Apart (p + 2 ^ o, o) ↔ b.Apart (p, o + 1) := by
  have := Nat.two_pow_pos b.2
  have := Nat.two_pow_pos o
  simp only [Block.Apart]
  omega

theorem mem_halves {x : Nat} :
    Block.Mem (p, o + 1) x ↔ Block.Mem (p, o) x ∨ Block.Mem (p + 2 ^ o, o) x := by
  simp only [Block.Mem]
  omega

variable (cfg : Config)

/-- The pages whose flags the allocator reads: those of the zone, and those in its span that share
a pageblock with a page it hands out. -/
def Watched (initial : Set Nat) (p : Nat) : Prop :=
  cfg.pfnValidWithin p = true ∧ (cfg.pageZoneId p = cfg.zoneId ∨
    (cfg.zoneStartPfn ≤ p ∧ p < cfg.zoneStartPfn + cfg.spannedPages) ∧
      ∃ x ∈ initial, p / pageblockNrPages cfg = x / pageblockNrPages cfg)

/-- The pages that the zone hands out are valid pages of the zone inside its span. -/
def Owns (initial : Set Nat) : Prop :=
  ∀ x ∈ initial, cfg.pfnValidWithin x = true ∧ cfg.pageZoneId x = cfg.zoneId ∧
    cfg.zoneStartPfn ≤ x ∧ x < cfg.zoneStartPfn + cfg.spannedPages

/-- Free blocks and live blocks tile the pages in `initial`; the flags, the counters and the
lists agree; and no two free blocks below the highest order are buddies. -/
structure BuddyOk (initial : Set Nat) (z : Zone) (live : List Block) : Prop where
  free : ∀ p o, p ∈ listed z o → o < cfg.maxOrder ∧ 2 ^ o ∣ p ∧ z.page p = ⟨true, o⟩
  liveSound : ∀ b ∈ live, b.2 < cfg.maxOrder ∧ 2 ^ b.2 ∣ b.1
  freeApart : ∀ p o q r, p ∈ listed z o → q ∈ listed z r → (p, o) ≠ (q, r) →
    Block.Apart (p, o) (q, r)
  mixedApart : ∀ p o, p ∈ listed z o → ∀ b ∈ live, Block.Apart (p, o) b
  liveApart : live.Pairwise Block.Apart
  cover : ∀ x, x ∈ initial ↔
    (∃ p o, p ∈ listed z o ∧ Block.Mem (p, o) x) ∨ ∃ b ∈ live, Block.Mem b x
  count : ∀ o, z.nrFree o = (listed z o).length
  nodup : ∀ o, (listed z o).Nodup
  marked : ∀ p, Watched cfg initial p → (z.page p).buddy = true → p ∈ listed z (z.page p).order
  coalesced : ∀ p o, p ∈ listed z o → o + 1 < cfg.maxOrder → p ^^^ 2 ^ o ∉ listed z o

variable {cfg} {initial : Set Nat} {z z' : Zone} {live : List Block} {p o : Nat}

theorem BuddyOk.perm_live {live' : List Block} (ok : BuddyOk cfg initial z live)
    (perm : live'.Perm live) : BuddyOk cfg initial z live' := by
  have mem : ∀ b, b ∈ live' ↔ b ∈ live := fun b => perm.mem_iff
  refine { ok with liveSound := ?_, mixedApart := ?_, liveApart := ?_, cover := ?_ }
  · simpa only [mem] using ok.liveSound
  · simpa only [mem] using ok.mixedApart
  · exact (perm.pairwise_iff Block.Apart.symm).mpr ok.liveApart
  · simpa only [mem] using ok.cover

theorem BuddyOk.order_eq (ok : BuddyOk cfg initial z live) (hp : p ∈ listed z o) {r : Nat}
    (hr : p ∈ listed z r) : r = o := by
  have same := (ok.free p r hr).2.2
  rw [(ok.free p o hp).2.2] at same
  exact (Page.mk.inj same).2.symm

/-- Whether a block counts as free or as live, it covers the same pages. -/
theorem cover_moved {x : Nat} (mem : ∀ q r, q ∈ listed z r ↔ q ∈ listed z' r ∨ q = p ∧ r = o) :
    (∃ q r, q ∈ listed z r ∧ Block.Mem (q, r) x) ∨ (∃ b ∈ live, Block.Mem b x) ↔
      (∃ q r, q ∈ listed z' r ∧ Block.Mem (q, r) x) ∨ ∃ b ∈ (p, o) :: live, Block.Mem b x := by
  simp only [mem, or_and_right, exists_or, and_assoc, exists_and_left, exists_eq_left, List.mem_cons, or_assoc]

theorem BuddyOk.take (ok : BuddyOk cfg initial z live) (hp : p ∈ listed z o)
    (page : z'.page = update z.page p ⟨false, 0⟩) (nrFree : z'.nrFree = update z.nrFree o (z.nrFree o - 1))
    (perm : ∀ r, (listed z' r).Perm ((listed z r).filter (· ≠ p))) : BuddyOk cfg initial z' ((p, o) :: live) := by
  have mem : ∀ q r, q ∈ listed z' r ↔ q ∈ listed z r ∧ q ≠ p := by
    intro q r
    rw [(perm r).mem_iff, List.mem_filter, decide_eq_true_iff]
  have same : ∀ q, q ≠ p → z'.page q = z.page q := by
    intro q hq
    rw [page, update_of_ne hq]
  constructor
  · intro q r hq
    obtain ⟨hq, ne⟩ := (mem q r).mp hq
    rw [same q ne]
    exact ok.free q r hq
  · exact forall_mem_cons.mpr ⟨⟨(ok.free p o hp).1, (ok.free p o hp).2.1⟩, ok.liveSound⟩
  · intro q r q' r' hq hq' ne
    exact ok.freeApart q r q' r' ((mem q r).mp hq).1 ((mem q' r').mp hq').1 ne
  · intro q r hq
    obtain ⟨hq, ne⟩ := (mem q r).mp hq
    refine forall_mem_cons.mpr ⟨?_, ok.mixedApart q r hq⟩
    exact ok.freeApart q r p o hq hp fun h => ne (Prod.mk.inj h).1
  · exact pairwise_cons.mpr ⟨ok.mixedApart p o hp, ok.liveApart⟩
  · intro x
    rw [ok.cover x]
    refine cover_moved fun q r => ?_
    rw [mem]
    by_cases hq : q = p
    · subst hq
      simpa using ⟨ok.order_eq hp, fun h => h ▸ hp⟩
    · simp [hq]
  · intro r
    rw [nrFree, (perm r).length_eq]
    by_cases hr : r = o
    · subst hr
      have pos := List.length_pos_of_mem hp
      rw [update_self, ok.count r, filter_ne_eq_erase (ok.nodup r), List.length_erase_of_mem hp]
      omega
    rw [update_of_ne hr, ok.count r, List.filter_eq_self.mpr]
    intro q hq
    rw [decide_eq_true_iff]
    rintro rfl
    exact hr (ok.order_eq hp hq)
  · intro r
    exact (perm r).nodup_iff.mpr ((ok.nodup r).filter _)
  · intro q watched hb
    have ne : q ≠ p := by
      rintro rfl
      simp [page] at hb
    rw [same q ne] at hb ⊢
    exact (mem q _).mpr ⟨ok.marked q watched hb, ne⟩
  · intro q r hq hr hb
    exact ok.coalesced q r ((mem q r).mp hq).1 hr ((mem _ r).mp hb).1

theorem BuddyOk.give (ok : BuddyOk cfg initial z ((p, o) :: live))
    (lone : o + 1 < cfg.maxOrder → p ^^^ 2 ^ o ∉ listed z o) (page : z'.page = update z.page p ⟨true, o⟩)
    (nrFree : z'.nrFree = update z.nrFree o (z.nrFree o + 1))
    (perm : (listed z' o).Perm (p :: listed z o)) (rest : ∀ r, r ≠ o → listed z' r = listed z r) :
    BuddyOk cfg initial z' live := by
  obtain ⟨sound, live⟩ := forall_mem_cons.mp ok.liveSound
  obtain ⟨apart, apart'⟩ := pairwise_cons.mp ok.liveApart
  have mixed := fun q r hq => forall_mem_cons.mp (ok.mixedApart q r hq)
  have fresh : ∀ q r, q ∈ listed z r → q ≠ p := fun q r hq => (mixed q r hq).1.first_ne
  have mem : ∀ q r, q ∈ listed z' r ↔ q ∈ listed z r ∨ q = p ∧ r = o := by
    intro q r
    by_cases hr : r = o
    · subst hr
      rw [perm.mem_iff]
      simp [or_comm]
    · simp [rest r hr, hr]
  have same : ∀ q, q ≠ p → z'.page q = z.page q := by
    intro q hq
    rw [page, update_of_ne hq]
  constructor
  · intro q r hq
    rcases (mem q r).mp hq with hq | ⟨rfl, rfl⟩
    · rw [same q (fresh q r hq)]
      exact ok.free q r hq
    · exact ⟨sound.1, sound.2, by rw [page, update_self]⟩
  · exact live
  · intro q r q' r' hq hq' ne
    rcases (mem q r).mp hq with hq | ⟨rfl, rfl⟩
    · rcases (mem q' r').mp hq' with hq' | ⟨rfl, rfl⟩
      · exact ok.freeApart q r q' r' hq hq' ne
      · exact (mixed q r hq).1
    · rcases (mem q' r').mp hq' with hq' | ⟨rfl, rfl⟩
      · exact (mixed q' r' hq').1.symm
      · exact absurd rfl ne
  · intro q r hq
    rcases (mem q r).mp hq with hq | ⟨rfl, rfl⟩
    · exact (mixed q r hq).2
    · exact apart
  · exact apart'
  · intro x
    rw [ok.cover x, cover_moved mem]
  · intro r
    rw [nrFree]
    by_cases hr : r = o
    · subst hr
      rw [update_self, ok.count r, perm.length_eq, List.length_cons, Nat.cast_succ]
    · rw [update_of_ne hr, ok.count r, rest r hr]
  · intro r
    by_cases hr : r = o
    · subst hr
      exact perm.nodup_iff.mpr
        (List.nodup_cons.mpr ⟨fun h => fresh p r h rfl, ok.nodup r⟩)
    · rw [rest r hr]
      exact ok.nodup r
  · intro q watched hb
    by_cases hq : q = p
    · rw [hq, page, update_self]
      exact (mem p o).mpr (.inr ⟨rfl, rfl⟩)
    · rw [same q hq] at hb ⊢
      exact (mem q _).mpr (.inl (ok.marked q watched hb))
  · intro q r hq hr hb
    rcases (mem q r).mp hq with hq | ⟨rfl, rfl⟩
    · rcases (mem _ r).mp hb with hb | ⟨hb, rfl⟩
      · exact ok.coalesced q r hq hr hb
      · -- The new block's buddy is `q`, so `q` is not free.
        refine lone hr ?_
        rwa [← hb, Nat.xor_xor_cancel_right]
    · rcases (mem _ r).mp hb with hb | ⟨hb, -⟩
      · exact lone hr hb
      · have self := congrArg (q ^^^ ·) hb
        simp at self

theorem BuddyOk.split (ok : BuddyOk cfg initial z ((p, o + 1) :: live)) :
    BuddyOk cfg initial z ((p, o) :: (p + 2 ^ o, o) :: live) := by
  obtain ⟨sound, live⟩ := forall_mem_cons.mp ok.liveSound
  obtain ⟨apart, apart'⟩ := pairwise_cons.mp ok.liveApart
  have dvd : 2 ^ o ∣ p := (Nat.pow_dvd_pow 2 o.le_succ).trans sound.2
  have lt := Nat.lt_of_succ_lt sound.1
  refine { ok with liveSound := ?_, mixedApart := ?_, liveApart := ?_, cover := ?_ }
  · simp only [forall_mem_cons]
    exact ⟨⟨lt, dvd⟩, ⟨lt, Nat.dvd_add dvd dvd_rfl⟩, live⟩
  · intro q r hq
    obtain ⟨whole, others⟩ := forall_mem_cons.mp (ok.mixedApart q r hq)
    obtain ⟨low, high⟩ := apart_halves.mpr whole
    simp only [forall_mem_cons]
    exact ⟨low, high, others⟩
  · have halves := fun b hb => apart_halves.mpr (apart b hb).symm
    simp only [pairwise_cons, forall_mem_cons]
    exact ⟨⟨.inl le_rfl, fun b hb => (halves b hb).1.symm⟩, fun b hb => (halves b hb).2.symm, apart'⟩
  · intro x
    rw [ok.cover x]
    simp [mem_halves, or_assoc]

theorem BuddyOk.join (ok : BuddyOk cfg initial z ((p, o) :: (p + 2 ^ o, o) :: live))
    (dvd : 2 ^ (o + 1) ∣ p) (bound : o + 1 < cfg.maxOrder) : BuddyOk cfg initial z ((p, o + 1) :: live) := by
  obtain ⟨-, -, live⟩ := forall_mem_cons.mp ok.liveSound |>.imp_right forall_mem_cons.mp
  have apart := ok.liveApart
  simp only [pairwise_cons, forall_mem_cons] at apart
  refine { ok with liveSound := ?_, mixedApart := ?_, liveApart := ?_, cover := ?_ }
  · exact forall_mem_cons.mpr ⟨⟨bound, dvd⟩, live⟩
  · intro q r hq
    have halves := ok.mixedApart q r hq
    simp only [forall_mem_cons] at halves ⊢
    exact ⟨apart_halves.mp ⟨halves.1, halves.2.1⟩, halves.2.2⟩
  · refine pairwise_cons.mpr ⟨fun b hb => ?_, apart.2.2⟩
    exact (apart_halves.mp ⟨(apart.1.2 b hb).symm, (apart.2.1 b hb).symm⟩).symm
  · intro x
    rw [ok.cover x]
    simp [mem_halves, or_assoc]

theorem BuddyOk.takeStep (ok : BuddyOk cfg initial z live) (hp : p ∈ listed z o) :
    BuddyOk cfg initial (addNrFree (rmvPageOrder (listDel z p) p) o (-1)) ((p, o) :: live) := by
  refine ok.take hp rfl rfl ?_
  intro r
  exact .of_eq (listed_listDel (ok.nodup r) p)

theorem BuddyOk.mem_initial (ok : BuddyOk cfg initial z live)
    (h : b ∈ live ∨ b.1 ∈ listed z b.2) : b.1 ∈ initial := by
  have self : Block.Mem b b.1 := ⟨le_rfl, Nat.lt_add_of_pos_right (Nat.two_pow_pos _)⟩
  rw [ok.cover]
  rcases h with h | h
  · exact .inr ⟨b, h, self⟩
  · exact .inl ⟨b.1, b.2, h, self⟩

/-- The test of the loop finds exactly the buddies that are free blocks of the same order. -/
theorem BuddyOk.pageIsBuddy_iff (ok : BuddyOk cfg initial z live) (owns : Owns cfg initial)
    (hp : p ∈ initial) {b : Nat} : pageIsBuddy cfg z p b o = true ↔ b ∈ listed z o := by
  simp only [pageIsBuddy, Bool.and_eq_true, beq_iff_eq, (owns p hp).2.1]
  constructor
  · rintro ⟨⟨valid, zone⟩, buddy, order⟩
    have := ok.marked b ⟨valid, .inl zone.symm⟩ buddy
    rwa [order] at this
  · intro hb
    have hbi := owns b (ok.mem_initial (b := (b, o)) (.inr hb))
    rw [(ok.free b o hb).2.2]
    exact ⟨⟨hbi.1, hbi.2.1.symm⟩, rfl, rfl⟩

/-- The loop keeps the block in hand live while it grows, and stops where its buddy is not free. -/
theorem mergeLoop_spec (owns : Owns cfg initial) (n : Nat)
    (ok : BuddyOk cfg initial z ((p, o) :: live)) (hn : n = cfg.maxOrder - 1 - o) :
    ∃ z' p' o', mergeLoop cfg n z p (p % 2 ^ cfg.maxOrder) o = (z', p', o') ∧
      BuddyOk cfg initial z' ((p', o') :: live) ∧ (o' + 1 < cfg.maxOrder → p' ^^^ 2 ^ o' ∉ listed z' o') := by
  induction n generalizing z p o with
  | zero => exact ⟨z, p, o, rfl, ok, fun h => by omega⟩
  | succ n ih =>
    have sound := ok.liveSound (p, o) mem_cons_self
    have bound : o + 1 < cfg.maxOrder := by omega
    have test := ok.pageIsBuddy_iff (o := o) (b := p ^^^ 2 ^ o) owns
      (ok.mem_initial (.inl mem_cons_self))
    simp only [mergeLoop, pageFindBuddy_eq sound.2 sound.1]
    split
    · next free =>
        have taken := ok.takeStep (test.mp free)
        obtain ⟨idx, next⟩ := findCombinedIndex_eq sound.1
        obtain ⟨dvd, halves⟩ := combined_cases sound.2
        rw [next, idx]
        refine ih ?_ (by omega)
        -- The two buddies are live now; the lower one starts the joined block.
        rcases halves with ⟨low, hx⟩ | ⟨low, hx⟩
        · rw [low] at dvd ⊢
          rw [hx] at taken ⊢
          exact (taken.perm_live (List.Perm.swap _ _ _)).join dvd bound
        · rw [low] at dvd ⊢
          refine BuddyOk.join ?_ dvd bound
          rwa [← hx]
    · next busy => exact ⟨z, p, o, rfl, ok, fun _ h => busy (test.mpr h)⟩

theorem freeOnePage_spec (owns : Owns cfg initial) (ok : BuddyOk cfg initial z ((p, o) :: live))
    (mt : MigrateType) : BuddyOk cfg initial (freeOnePage cfg z p o mt) live := by
  obtain ⟨z', p', o', run, ok', lone⟩ := mergeLoop_spec owns _ ok rfl
  simp only [freeOnePage, Nat.and_two_pow_sub_one_eq_mod, run]
  exact ok'.give lone rfl rfl (listed_listAdd ..) fun _ hr => listed_listAdd_ne _ hr mt _

theorem expand_spec (mt : MigrateType) (low n : Nat) (ok : BuddyOk cfg initial z ((p, low + n) :: live)) :
    BuddyOk cfg initial (expand z p mt low n) ((p, low) :: live) := by
  induction n generalizing z with
  | zero => exact ok
  | succ n ih =>
    have dvd : 2 ^ (low + n + 1) ∣ p := (ok.liveSound _ mem_cons_self).2
    have halves := ok.split.perm_live (List.Perm.swap _ _ _)
    have buddy : (p + 2 ^ (low + n)) ^^^ 2 ^ (low + n) = p := by
      rw [← low_of_dvd dvd, Nat.xor_xor_cancel_right]
    refine ih ?_
    refine halves.give ?_ rfl rfl (listed_listAdd _ _ mt _) fun r hr =>
      listed_listAdd_ne _ hr mt _
    intro _ hb
    have hp : p ∈ listed z (low + n) := buddy ▸ hb
    exact (halves.mixedApart p _ hp _ (List.mem_cons_of_mem _ mem_cons_self)).first_ne rfl

/-- What a search gives: a block that is live from now on, or none, for a reason. -/
def Served (cfg : Config) (initial : Set Nat) (live : List Block) (order : Nat) (why : Prop) :
    Option (Nat × Zone) → Prop
  | some r => BuddyOk cfg initial r.2 ((r.1, order) :: live)
  | none => why

variable {mt : MigrateType} {order cur : Nat}

theorem Served.imp {why why' : Prop} {r : Option (Nat × Zone)} (h : Served cfg initial live order why r)
    (imp : why → why') : Served cfg initial live order why' r := by
  cases r with
  | none => exact imp h
  | some r => exact h

theorem rmqueueSmallestLoop_spec (ok : BuddyOk cfg initial z live) {n : Nat} (le : order ≤ cur) :
    Served cfg initial live order (∀ r, cur ≤ r → r < cur + n → z.freeList r mt = [])
      (rmqueueSmallestLoop z order mt n cur) := by
  induction n generalizing cur with
  | zero => exact fun r ge lt => by omega
  | succ n ih =>
    rw [rmqueueSmallestLoop]
    split
    · next empty =>
        refine (ih (Nat.le_succ_of_le le)).imp fun rest r ge lt => ?_
        rcases Nat.eq_or_lt_of_le ge with rfl | gt
        · exact empty
        · exact rest r gt (by omega)
    next head tl full =>
      have mem : head ∈ listed z cur := mem_listed.mpr ⟨mt, full ▸ mem_cons_self⟩
      refine expand_spec mt order _ ?_
      rw [Nat.add_sub_cancel' le]
      exact ok.takeStep mem

/-- No list of an order that does not exist has a block. -/
theorem BuddyOk.empty_above (ok : BuddyOk cfg initial z live)
    (h : ∀ r, order ≤ r → r < order + (cfg.maxOrder - order) → z.freeList r mt = []) {r : Nat} (le : order ≤ r) :
    z.freeList r mt = [] := by
  by_contra full
  obtain ⟨q, hq⟩ := List.exists_mem_of_ne_nil _ full
  have lt := (ok.free q r (mem_listed.mpr ⟨mt, hq⟩)).1
  exact full (h r le (by omega))

theorem rmqueueSmallest_spec (ok : BuddyOk cfg initial z live) (order : Nat) (mt : MigrateType) :
    Served cfg initial live order (∀ r, order ≤ r → z.freeList r mt = []) (rmqueueSmallest cfg z order mt) :=
  (rmqueueSmallestLoop_spec ok le_rfl).imp fun h _ => ok.empty_above h

/-- The page walk of `move_freepages` finds only free blocks of this zone, so that it relinks each
of them on a list of its own order and changes nothing else. The counter of an order may be off
meanwhile: `__rmqueue_fallback` has already lowered one. -/
theorem moveFreepages_spec (ok : BuddyOk cfg initial z live) {endPage : Nat}
    (n : Nat) {z₁ : Zone} {x moved : Nat} (page : z₁.page = z.page) (perm : ∀ o, (listed z₁ o).Perm (listed z o))
    (watched : ∀ y, x ≤ y → y ≤ endPage → cfg.pfnValidWithin y = true → Watched cfg initial y) :
    let z₂ := (moveFreepages cfg endPage mt n z₁ x moved).1
    z₂.page = z.page ∧ z₂.nrFree = z₁.nrFree ∧ ∀ o, (listed z₂ o).Perm (listed z o) := by
  induction n generalizing z₁ x moved with
  | zero => exact ⟨page, rfl, perm⟩
  | succ n ih =>
    have later : ∀ k, ∀ y, x + k ≤ y → y ≤ endPage → cfg.pfnValidWithin y = true →
        Watched cfg initial y := fun k y le => watched y (by omega)
    rw [moveFreepages]
    split
    · exact ⟨page, rfl, perm⟩
    next inside =>
      split
      · exact ih page perm (later 1)
      next valid =>
        split
        · exact ih page perm (later 1)
        next marked =>
          rw [page] at marked ⊢
          have mem : x ∈ listed z (z.page x).order :=
            ok.marked x (watched x le_rfl (by omega) (by simpa using valid))
              (by simpa using marked)
          have nodup : ∀ o, (listed z₁ o).Nodup := fun o =>
            (perm o).nodup_iff.mpr (ok.nodup o)
          refine ih page ?_ (later _)
          intro o
          by_cases ho : o = (z.page x).order
          · subst ho
            refine (listed_listAdd _ _ mt x).trans ?_
            rw [listed_listDel (nodup _), filter_ne_eq_erase (nodup _)]
            exact (List.perm_cons_erase ((perm _).mem_iff.mpr mem)).symm.trans (perm _)
          rw [listed_listAdd_ne _ ho, listed_listDel (nodup _), List.filter_eq_self.mpr]
          · exact perm o
          · intro y hy
            rw [decide_eq_true_iff]
            rintro rfl
            have order := (ok.free y o ((perm o).mem_iff.mp hy)).2.2
            rw [order] at ho
            exact ho rfl

theorem moveFreepagesBlock_spec (owns : Owns cfg initial) (ok : BuddyOk cfg initial z live)
    (z₁ : Zone) {x : Nat} (mt : MigrateType) (hx : x ∈ initial) (page : z₁.page = z.page)
    (perm : ∀ o, (listed z₁ o).Perm (listed z o)) : let z₂ := (moveFreepagesBlock cfg z₁ x mt).1
    z₂.page = z.page ∧ z₂.nrFree = z₁.nrFree ∧ ∀ o, (listed z₂ o).Perm (listed z o) := by
  simp only [moveFreepagesBlock]
  split
  · exact ⟨page, rfl, perm⟩
  next inside =>
    refine moveFreepages_spec ok _ page perm ?_
    intro y le le' valid
    have own := owns x hx
    have pos : 0 < pageblockNrPages cfg := Nat.two_pow_pos _
    have low : x &&& pageblockNrPages cfg - 1 = x % pageblockNrPages cfg :=
      Nat.and_two_pow_sub_one_eq_mod x cfg.pageblockOrder
    rw [low] at le le' inside
    have start : x - x % pageblockNrPages cfg =
        pageblockNrPages cfg * (x / pageblockNrPages cfg) := by
      have := Nat.mod_add_div x (pageblockNrPages cfg)
      omega
    have above : x - x % pageblockNrPages cfg ≤ y := by
      split at le <;> omega
    refine ⟨valid, .inr ⟨⟨?_, by omega⟩, x, hx, ?_⟩⟩
    · split at le <;> omega
    · rw [start] at above le'
      refine Nat.div_eq_of_lt_le ?_ ?_
      · rw [mul_comm]
        exact above
      · rw [Nat.succ_mul, mul_comm]
        omega

theorem changePageblockRange_eq (cfg : Config) (z : Zone) (mt : MigrateType) (n x : Nat) :
    ∃ types, changePageblockRange cfg z mt n x = { z with pageblockType := types } := by
  induction n generalizing z x with
  | zero => exact ⟨z.pageblockType, rfl⟩
  | succ n ih =>
    obtain ⟨types, h⟩ := ih (setPageblockMigratetype cfg z x mt) (x + pageblockNrPages cfg)
    exact ⟨types, h⟩

theorem takeFallback_spec (owns : Owns cfg initial) (ok : BuddyOk cfg initial z live)
    (startMt mt : MigrateType) (le : order ≤ cur) (hp : p ∈ listed z cur) :
    BuddyOk cfg initial (takeFallback cfg z p order cur startMt mt).2 ((p, order) :: live) := by
  -- What the block is claimed or not, the lists keep their blocks and only one counter is lower.
  have claimed : ∀ z₁ : Zone, z₁.page = z.page →
      z₁.nrFree = update z.nrFree cur (z.nrFree cur - 1) →
      (∀ o, (listed z₁ o).Perm (listed z o)) → ∀ mt',
      BuddyOk cfg initial
        (expand (if cur ≥ cfg.pageblockOrder then
          changePageblockRange cfg (rmvPageOrder (listDel z₁ p) p) startMt
            (2 ^ (cur - cfg.pageblockOrder)) p
          else rmvPageOrder (listDel z₁ p) p) p mt' order (cur - order))
        ((p, order) :: live) := by
    intro z₁ page nrFree perm mt'
    refine expand_spec mt' order _ ?_
    rw [Nat.add_sub_cancel' le]
    have taken : ∀ types, BuddyOk cfg initial
        { rmvPageOrder (listDel z₁ p) p with pageblockType := types } ((p, cur) :: live) := by
      intro types
      refine ok.take hp ?_ nrFree ?_
      · simp [rmvPageOrder, listDel, page]
      · intro r
        have nodup := (perm r).nodup_iff.mpr (ok.nodup r)
        refine .trans (.of_eq (listed_listDel nodup p)) ?_
        exact (perm r).filter _
    split
    · obtain ⟨types, h⟩ := changePageblockRange_eq cfg (rmvPageOrder (listDel z₁ p) p)
        startMt (2 ^ (cur - cfg.pageblockOrder)) p
      rw [h]
      exact taken types
    · exact taken z₁.pageblockType
  have moved := moveFreepagesBlock_spec owns ok (addNrFree z cur (-1)) startMt
    (ok.mem_initial (b := (p, cur)) (.inr hp)) rfl fun _ => .refl _
  by_cases claim : cur ≥ cfg.pageblockOrder / 2 ∨ startMt = reclaimable ∨ cfg.mobilityDisabled
  · simp only [takeFallback, if_pos claim]
    refine claimed _ ?_ ?_ ?_ startMt
    · split <;> exact moved.1
    · split <;> exact moved.2.1
    · split <;> exact moved.2.2
  · simp only [takeFallback, if_neg claim]
    exact claimed (addNrFree z cur (-1)) rfl rfl (fun _ => .refl _) mt

theorem fallbackTypes_spec (owns : Owns cfg initial) (ok : BuddyOk cfg initial z live) (le : order ≤ cur)
    (startMt : MigrateType) (row : List MigrateType) :
    Served cfg initial live order (∀ mt ∈ row, mt ≠ reserve → z.freeList cur mt = [])
      (fallbackTypes cfg z order cur startMt row) := by
  induction row with
  | nil => exact nofun
  | cons mt row ih =>
    rw [fallbackTypes]
    split
    · next skip => exact ih.imp fun rest => forall_mem_cons.mpr ⟨absurd skip, rest⟩
    split
    · next empty => exact ih.imp fun rest => forall_mem_cons.mpr ⟨fun _ => empty, rest⟩
    · next full => exact takeFallback_spec owns ok startMt mt le (mem_listed.mpr ⟨mt, full ▸ mem_cons_self⟩)

theorem rmqueueFallbackLoop_spec (owns : Owns cfg initial) (ok : BuddyOk cfg initial z live) (order : Nat)
    (startMt : MigrateType) (n : Nat) :
    Served cfg initial live order
      (∀ mt ∈ fallbacks startMt, mt ≠ reserve → ∀ r, order ≤ r → r < order + n → z.freeList r mt = [])
      (rmqueueFallbackLoop cfg z order startMt n) := by
  induction n with
  | zero => exact fun _ _ _ r ge lt => by omega
  | succ n ih =>
    have row := fallbackTypes_spec owns ok (Nat.le_add_right order n) startMt (fallbacks startMt)
    rw [rmqueueFallbackLoop]
    generalize fallbackTypes cfg z order (order + n) startMt (fallbacks startMt) = found at row
    cases found with
    | some found => exact row
    | none =>
      refine ih.imp fun rest mt mem ne r ge lt => ?_
      rcases Nat.lt_succ_iff_lt_or_eq.mp lt with lt | rfl
      · exact rest mt mem ne r ge lt
      · exact row mt mem ne

/-- The types whose lists a request of a type is served from. -/
def searched : MigrateType → List MigrateType
  | unmovable => [unmovable, reclaimable, movable, reserve]
  | reclaimable => [reclaimable, unmovable, movable, reserve]
  | movable => [movable, reclaimable, unmovable, reserve]
  | reserve => [reserve]
  | isolate => [isolate, unmovable, reserve]

theorem rmqueue_spec (owns : Owns cfg initial) (ok : BuddyOk cfg initial z live) (order : Nat) (mt : MigrateType) :
    Served cfg initial live order (∀ r, order ≤ r → ∀ mt' ∈ searched mt, z.freeList r mt' = [])
      (rmqueue cfg z order mt) := by
  have own := rmqueueSmallest_spec ok order mt
  have other := rmqueueFallbackLoop_spec owns ok order mt (cfg.maxOrder - order)
  rw [rmqueue, rmqueueFallback]
  generalize rmqueueSmallest cfg z order mt = found at own
  cases found with
  | some found => exact own
  | none =>
    dsimp only
    split
    · next hr =>
        subst hr
        simpa [Served, searched] using own
    next hr =>
      generalize rmqueueFallbackLoop cfg z order mt (cfg.maxOrder - order) = found at other
      cases found with
      | some found => exact other
      | none =>
        refine (rmqueueSmallest_spec ok order reserve).imp fun last r le mt' mem => ?_
        have cases_ : mt' = mt ∨ mt' = reserve ∨ mt' ∈ fallbacks mt := by
          revert mem
          cases mt <;> cases mt' <;> decide
        by_cases spare : mt' = reserve
        · exact spare ▸ last r le
        · rcases cases_ with rfl | h | mem
          · exact own r le
          · exact absurd h spare
          · exact ok.empty_above (other mt' mem spare) le

/-- A zone with the blocks that its callers hold. Between the calls the owner of a block may use
`page_private` of its pages. -/
inductive Step (cfg : Config) : Zone × List Block → Zone × List Block → Prop where
  | rmqueue {z z' : Zone} {live : List Block} {p : Nat} (order : Nat) (mt : MigrateType)
      (run : rmqueue cfg z order mt = some (p, z')) :
      Step cfg (z, live) (z', (p, order) :: live)
  | freeOnePage {z : Zone} {live : List Block} (b : Block) (mt : MigrateType) (held : b ∈ live) :
      Step cfg (z, live) (freeOnePage cfg z b.1 b.2 mt, live.erase b)
  | setPrivate {z : Zone} {live : List Block} (b : Block) (x n : Nat) (held : b ∈ live) (mem : b.Mem x) :
      Step cfg (z, live) ({ z with page := update z.page x ⟨false, n⟩ }, live)

theorem BuddyOk.setPrivate (ok : BuddyOk cfg initial z live) {x n : Nat}
    (held : b ∈ live) (mem : b.Mem x) :
    BuddyOk cfg initial { z with page := update z.page x ⟨false, n⟩ } live := by
  refine { ok with free := ?_, marked := ?_ }
  · intro p o hp
    have ne : p ≠ x := by
      have apart := ok.mixedApart p o hp b held
      have := Nat.two_pow_pos o
      simp only [Block.Apart, Block.Mem] at apart mem
      omega
    simp only [update_of_ne ne]
    exact ok.free p o hp
  · intro p watched marked
    by_cases hp : p = x
    · simp [hp] at marked
    · simp only [update_of_ne hp] at marked ⊢
      exact ok.marked p watched marked

theorem Step.keeps {s t : Zone × List Block} (owns : Owns cfg initial) (step : Step cfg s t)
    (ok : BuddyOk cfg initial s.1 s.2) : BuddyOk cfg initial t.1 t.2 := by
  cases step with
  | rmqueue order mt run =>
    have served := rmqueue_spec owns ok order mt
    rwa [run] at served
  | freeOnePage b mt held =>
    exact freeOnePage_spec owns (ok.perm_live (List.perm_cons_erase held).symm) mt
  | setPrivate b x n held mem => exact ok.setPrivate held mem

/-- In every run from lists that satisfy the invariant it holds again, and a request fails only if
none of the lists that serve its type has a block of its order or a higher one. -/
theorem buddy_safe (owns : Owns cfg initial) {s : Zone × List Block}
    (h : Transition.Reachable (fun t => BuddyOk cfg initial t.1 [] ∧ t.2 = []) (Step cfg) s) :
    BuddyOk cfg initial s.1 s.2 ∧ ∀ order mt, rmqueue cfg s.1 order mt = none →
      ∀ r, order ≤ r → ∀ mt' ∈ searched mt, s.1.freeList r mt' = [] := by
  have ok : BuddyOk cfg initial s.1 s.2 := by
    refine h.invariant (fun t => BuddyOk cfg initial t.1 t.2) ?_ ?_
    · rintro t ⟨ok, none⟩
      rwa [none]
    · exact fun t t' ok step => step.keeps owns ok
  refine ⟨ok, fun order mt null => ?_⟩
  have served := rmqueue_spec owns ok order mt
  rwa [null] at served

def smallConfig : Config where
  maxOrder := 2
  pageblockOrder := 1
  mobilityDisabled := false
  zoneStartPfn := 0
  spannedPages := 2
  zoneId := 0
  pageZoneId := fun p => if p < 2 then 0 else 1
  pfnValidWithin := fun p => decide (p < 2)

def smallZone (mt : MigrateType) : Zone where
  page := update (fun _ => ⟨false, 0⟩) 0 ⟨true, 1⟩
  freeList := fun o m => if o = 1 ∧ m = mt then [0] else []
  nrFree := fun o => if o = 1 then 1 else 0
  pageblockType := fun _ => mt

theorem buddyOk_smallZone (mt : MigrateType) : BuddyOk smallConfig {x | x < 2} (smallZone mt) [] := by
  -- the block of two pages is given to a zone without free blocks
  let bare : Zone := ⟨fun _ => ⟨false, 0⟩, fun _ _ => [], fun _ => 0, fun _ => mt⟩
  have none (o : Nat) : listed bare o = [] := rfl
  have held : BuddyOk smallConfig {x | x < 2} bare [(0, 1)] := by
    constructor <;> simp [none, bare, Block.Mem, smallConfig]
  refine held.give (fun lt => absurd lt (by decide)) rfl ?_ ?_ fun r ne => ?_
  · funext o
    by_cases ho : o = 1 <;> simp [smallZone, bare, ho]
  · cases mt <;> exact .refl _
  · simp [listed, smallZone, bare, ne]

theorem owns_smallConfig : Owns smallConfig {x | x < 2} := by
  intro x hx
  have lt : x < 2 := hx
  exact ⟨decide_eq_true lt, if_pos lt, Nat.zero_le x, lt⟩

/-- A request for one page splits the block of two, and the halves tile the zone. -/
theorem buddy_safe_split : ∃ z, rmqueue smallConfig (smallZone movable) 0 unmovable = some (0, z) ∧
    z.freeList 0 unmovable = [1] ∧ BuddyOk smallConfig {x | x < 2} z [(0, 0)] := by
  refine ⟨_, rfl, rfl, (buddy_safe owns_smallConfig ((Transition.Reachable.start
    (s := (smallZone movable, [])) ⟨buddyOk_smallZone movable, rfl⟩).next
      (.rmqueue 0 unmovable rfl))).1⟩

/-- A request of the reserve type never falls back: it fails while a movable block is free. -/
theorem rmqueue_reserve_null : BuddyOk smallConfig {x | x < 2} (smallZone movable) [] ∧
    rmqueue smallConfig (smallZone movable) 0 reserve = none ∧ (smallZone movable).freeList 1 movable = [0] :=
  ⟨buddyOk_smallZone movable, rfl, rfl⟩

end Buddy
