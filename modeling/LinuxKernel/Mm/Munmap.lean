/- What do_munmap of mm/mmap.c does to the pages of an address space. -/
import Mathlib.Order.Interval.Finset.Nat
import LinuxKernel.Foundation.ListIndex
import LinuxKernel.Mm.VmaMerge

namespace VmaList

open List

structure Page where
  file : Word
  pgoff : Word
  flags : Word

variable (c : Config)

def Covers (v : Vma) (p : Nat) : Prop := v.vmStart ≤ p * 2 ^ c.pageShift ∧ p * 2 ^ c.pageShift < v.vmEnd

instance (v : Vma) (p : Nat) : Decidable (Covers c v p) := inferInstanceAs (Decidable (_ ∧ _))

def pageOf (l : List Vma) (p : Nat) : Option Page :=
  (l.find? fun v => Covers c v p).map fun v =>
    ⟨v.vmFile, v.vmPgoff + .ofNat 64 (p - v.vmStart / 2 ^ c.pageShift), v.vmFlags⟩

/-- The number of pages between two addresses that are mapped. -/
def mapped (l : List Vma) (start fin : Nat) : Nat :=
  ((Finset.Ico (start / 2 ^ c.pageShift) (fin / 2 ^ c.pageShift)).filter fun p => (pageOf c l p).isSome).card

variable {c} {k m r : List Vma} {v w : Vma} {p addr start fin : Nat}

theorem pageOf_append (k m : List Vma) (p : Nat) : pageOf c (k ++ m) p = (pageOf c k p).or (pageOf c m p) := by
  rw [pageOf, List.find?_append, Option.map_or]
  rfl

theorem pageOf_eq_none : pageOf c k p = none ↔ ∀ v ∈ k, ¬Covers c v p := by
  simp [pageOf]

theorem covers_iff (hv : 2 ^ c.pageShift ∣ v.vmStart ∧ 2 ^ c.pageShift ∣ v.vmEnd) :
    Covers c v p ↔ v.vmStart / 2 ^ c.pageShift ≤ p ∧ p < v.vmEnd / 2 ^ c.pageShift := by
  have ne := (Nat.two_pow_pos c.pageShift).ne'
  rw [Covers, Nat.div_le_iff_le_mul_of_dvd ne hv.1, Nat.lt_div_iff_mul_lt_of_dvd ne hv.2]

theorem pages_sub (h : 2 ^ c.pageShift ∣ start) :
    pages c (addr - start) = addr / 2 ^ c.pageShift - start / 2 ^ c.pageShift := by
  obtain ⟨i, rfl⟩ := h
  rw [pages, Nat.sub_mul_div, Nat.mul_div_cancel_left i (Nat.two_pow_pos _)]

theorem pageSum_append (k m : List Vma) : pageSum c (k ++ m) = pageSum c k + pageSum c m := by
  simp [pageSum]

section

variable (hv : 2 ^ c.pageShift ∣ v.vmStart ∧ 2 ^ c.pageShift ∣ v.vmEnd) (ha : 2 ^ c.pageShift ∣ addr)
  (low : v.vmStart < addr) (high : addr < v.vmEnd)

include hv ha low high

theorem pageOf_parts (p : Nat) : pageOf c [v.below addr, v.above c addr] p = pageOf c [v] p := by
  have first : Covers c (v.below addr) p ↔ _ := covers_iff ⟨hv.1, ha⟩
  have second : Covers c (v.above c addr) p ↔ _ := covers_iff ⟨ha, hv.2⟩
  have le := Nat.div_le_div_right (c := 2 ^ c.pageShift) low.le
  have le' := Nat.div_le_div_right (c := 2 ^ c.pageShift) high.le
  simp only [pageOf, List.find?_cons, first, second, covers_iff hv]
  by_cases cov : v.vmStart / 2 ^ c.pageShift ≤ p ∧ p < v.vmEnd / 2 ^ c.pageShift
  · by_cases lower : p < addr / 2 ^ c.pageShift
    · simp [cov, lower, Vma.below]
    · simp [cov, lower, Nat.not_lt.mp lower, Vma.below, Vma.above, pages_sub hv.1, BitVec.add_assoc,
        ← BitVec.ofNat_add]
      congr 1
      omega
  · have out : ¬(v.vmStart / 2 ^ c.pageShift ≤ p ∧ p < addr / 2 ^ c.pageShift) ∧
        ¬(addr / 2 ^ c.pageShift ≤ p ∧ p < v.vmEnd / 2 ^ c.pageShift) := by omega
    simp [cov, out, Vma.below, Vma.above]

theorem pageSum_parts : pageSum c [v.below addr, v.above c addr] = pageSum c [v] := by
  have le := Nat.div_le_div_right (c := 2 ^ c.pageShift) low.le
  have le' := Nat.div_le_div_right (c := 2 ^ c.pageShift) high.le
  simp [pageSum, Vma.below, Vma.above, pages_sub hv.1, pages_sub ha]
  omega

end

theorem Ordered.sublist (h : Ordered c k) (sub : m.Sublist k) : Ordered c m :=
  ⟨fun v hv => h.ranges v (sub.subset hv), fun v hv => h.paged v (sub.subset hv), h.sorted.sublist sub⟩

theorem ordered_iff : Ordered c k ↔ (∀ v ∈ k, v.vmStart < v.vmEnd ∧ 2 ^ c.pageShift ∣ v.vmStart ∧
    2 ^ c.pageShift ∣ v.vmEnd) ∧ k.Pairwise fun v w => v.vmEnd ≤ w.vmStart :=
  ⟨fun h => ⟨fun v hv => ⟨h.ranges v hv, h.paged v hv⟩, h.sorted⟩,
    fun h => ⟨fun v hv => (h.1 v hv).1, fun v hv => (h.1 v hv).2, h.2⟩⟩

theorem Ordered.parts (h : Ordered c (k ++ v :: m)) (ha : 2 ^ c.pageShift ∣ addr) (low : v.vmStart < addr)
    (high : addr < v.vmEnd) : Ordered c (k ++ v.below addr :: v.above c addr :: m) := by
  simp only [ordered_iff, forall_mem_append, forall_mem_cons, pairwise_append, pairwise_cons] at h ⊢
  obtain ⟨⟨hk, ⟨-, hs, he⟩, hm⟩, before, ⟨after, rest⟩, across⟩ := h
  refine ⟨⟨hk, ⟨low, hs, ha⟩, ⟨high, ha, he⟩, hm⟩, before, ⟨⟨le_refl addr, fun w hw => ?_⟩, after, rest⟩, ?_⟩
  · exact high.le.trans (after w hw)
  · exact fun w hw => ⟨(across w hw).1, (across w hw).1.trans low.le, (across w hw).2⟩

theorem mapped_eq_pageSum (ok : Ordered c k) (inside : ∀ v ∈ k, start ≤ v.vmStart ∧ v.vmEnd ≤ fin) :
    mapped c k start fin = pageSum c k := by
  induction k with
  | nil => simp [mapped, pageSum, pageOf]
  | cons v k ih =>
    have after := (pairwise_cons.mp ok.sorted).1
    have rest := ih (ok.sublist (sublist_cons_self v k)) fun w hw => inside w (mem_cons_of_mem v hw)
    have paged := ok.paged v mem_cons_self
    have bounds := inside v mem_cons_self
    have own : (Finset.Ico (start / 2 ^ c.pageShift) (fin / 2 ^ c.pageShift)).filter (fun p => Covers c v p) =
        Finset.Ico (v.vmStart / 2 ^ c.pageShift) (v.vmEnd / 2 ^ c.pageShift) := by
      have low := Nat.div_le_div_right (c := 2 ^ c.pageShift) bounds.1
      have high := Nat.div_le_div_right (c := 2 ^ c.pageShift) bounds.2
      ext p
      simp only [Finset.mem_filter, Finset.mem_Ico, covers_iff paged]
      omega
    -- the pages of `v` and those of the vmas behind it are different ones
    have some_iff : ∀ p, (pageOf c (v :: k) p).isSome ↔ Covers c v p ∨ (pageOf c k p).isSome := by
      intro p
      simp [pageOf]
    have apart : ∀ p, Covers c v p → ¬(pageOf c k p).isSome := by
      intro p cov some_
      obtain ⟨w, hw, cov'⟩ : ∃ w ∈ k, Covers c w p := by simpa [pageOf] using some_
      have := after w hw
      have := cov.2
      have := cov'.1
      omega
    rw [mapped, Finset.filter_congr fun p _ => some_iff p, Finset.filter_or, Finset.card_union_of_disjoint, own,
      Nat.card_Ico]
    · rw [← singleton_append, pageSum_append, ← rest, mapped]
      rw [pageSum, map_singleton, sum_singleton, pages_sub paged.1]
    · rw [Finset.disjoint_filter]
      exact fun p _ => apart p

variable {mm mm' : Mm} {a b : List Word} {x new : Word} {e : Alloc}

theorem insertVmStruct_spec (split : mm.mmap = a ++ b) (low : ∀ y ∈ a, (mm.vma y).vmEnd ≤ (mm.vma new).vmStart)
    (high : ∀ y, b.head? = some y → (mm.vma new).vmStart < (mm.vma y).vmEnd ∧
      (mm.vma new).vmEnd ≤ (mm.vma y).vmStart) :
    insertVmStruct mm new = some { mm with mmap := a ++ new :: b, mapCount := mm.mapCount + 1 } := by
  obtain ⟨front, rest⟩ := cut_while (fun y => (mm.vma y).vmEnd ≤ (mm.vma new).vmStart)
    (fun y hy => decide_eq_true (low y hy)) fun y hy => decide_eq_false (Nat.not_le.mpr (high y hy).1)
  have clear : ¬(b.head?.any fun y => (mm.vma y).vmStart < (mm.vma new).vmEnd) = true := by
    cases hb : b.head? with
    | none => simp
    | some y => simpa using (high y hb).2
  rw [insertVmStruct, split]
  simp only [front, rest]
  rw [if_neg clear]

/-- The vma `x` is now two, `lo` and `hi`; one of them is new. -/
structure Parted (c : Config) (mm mm' : Mm) (a b : List Word) (x lo hi : Word) (addr : Nat) : Prop where
  split : mm.mmap = a ++ x :: b
  list : mm'.mmap = a ++ lo :: hi :: b
  nodup : mm'.mmap.Nodup
  others : ∀ y ∈ a ++ b, mm'.vma y = mm.vma y
  low : mm'.vma lo = (mm.vma x).below addr
  high : mm'.vma hi = (mm.vma x).above c addr
  count : mm'.mapCount = mm.mapCount + 1
  total : mm'.totalVm = mm.totalVm

theorem WellFormed.around (wf : WellFormed c mm) (split : mm.mmap = a ++ x :: b) :
    (∀ y ∈ a, (mm.vma y).vmEnd ≤ (mm.vma x).vmStart) ∧ ∀ y ∈ b, (mm.vma x).vmEnd ≤ (mm.vma y).vmStart ∧
      (mm.vma y).vmStart < (mm.vma y).vmEnd := by
  have sorted := wf.ordered.sorted
  rw [areas, pairwise_map, split, pairwise_append, pairwise_cons] at sorted
  refine ⟨fun y hy => sorted.2.2 y hy x mem_cons_self, fun y hy => ⟨sorted.2.1.1 y hy, ?_⟩⟩
  exact wf.ordered.ranges _ (mem_map_of_mem (by simp [split, hy]))

theorem WellFormed.fresh_ne (wf : WellFormed c mm) (split : mm.mmap = a ++ x :: b) (out : new ∉ mm.mmap) :
    x ≠ new ∧ ∀ y ∈ a ++ b, y ≠ x ∧ y ≠ new := by
  have nodup := wf.nodup
  rw [split] at nodup out
  have own := (nodup_cons.mp (nodup_middle.mp nodup)).1
  constructor
  · rintro rfl
    simp at out
  · refine fun y hy => ⟨?_, ?_⟩ <;> rintro rfl
    · exact own hy
    · simp only [mem_append] at hy out
      tauto

theorem parted_insert (mm₁ : Mm) (lo hi : Word) (wf : WellFormed c mm) (split : mm.mmap = a ++ x :: b)
    (low : (mm.vma x).vmStart < addr) (high : addr < (mm.vma x).vmEnd) (out : new ∉ mm.mmap)
    (side : lo = x ∧ hi = new ∨ lo = new ∧ hi = x) (hlo : mm₁.vma lo = (mm.vma x).below addr)
    (hhi : mm₁.vma hi = (mm.vma x).above c addr) (same : ∀ y ∈ a ++ b, mm₁.vma y = mm.vma y)
    (rest : mm₁.mmap = mm.mmap ∧ mm₁.mapCount = mm.mapCount ∧ mm₁.totalVm = mm.totalVm) :
    ∃ mm', insertVmStruct mm₁ new = some mm' ∧ Parted c mm mm' a b x lo hi addr := by
  obtain ⟨before, after⟩ := wf.around split
  obtain ⟨list, count, total⟩ := rest
  have sameA : ∀ y ∈ a, mm₁.vma y = mm.vma y := fun y hy => same y (mem_append_left b hy)
  have nodup : ∀ l k, mm.mmap = l ++ k → (l ++ new :: k).Nodup := by
    intro l k eq
    have := wf.nodup
    rw [eq] at this out
    exact nodup_middle.mpr (nodup_cons.mpr ⟨out, this⟩)
  rcases side with ⟨rfl, rfl⟩ | ⟨rfl, rfl⟩
  · -- the new vma is the upper part: it stands behind `x`, which now ends where it begins
    have parts : mm.mmap = (a ++ [lo]) ++ b := by rw [split, append_assoc, singleton_append]
    refine ⟨_, insertVmStruct_spec (list.trans parts) ?_ ?_, split, by simp, nodup _ _ parts, same, hlo, hhi,
      by simp [count],
      total⟩
    · intro y hy
      rw [hhi]
      rcases mem_append.mp hy with hy | hy
      · rw [sameA y hy]
        exact le_trans (before y hy) (le_of_lt low)
      · rw [mem_singleton.mp hy, hlo]
        exact le_refl addr
    · intro y hy
      have mem := mem_of_mem_head? hy
      have := after y mem
      rw [hhi, same y (mem_append_right a mem)]
      exact ⟨(by omega : addr < (mm.vma y).vmEnd), this.1⟩
  · refine ⟨_, insertVmStruct_spec (list.trans split) ?_ ?_, split, rfl, nodup _ _ split, same, hlo, hhi,
      by simp [count],
      total⟩
    · intro y hy
      rw [hlo, sameA y hy]
      exact before y hy
    · intro y hy
      obtain rfl : hi = y := by simpa using hy
      rw [hlo, hhi]
      exact ⟨lt_trans low high, le_refl addr⟩

theorem splitVma_spec (wf : WellFormed c mm) (split : mm.mmap = a ++ x :: b) (low : (mm.vma x).vmStart < addr)
    (high : addr < (mm.vma x).vmEnd) (fresh : ∀ new ∈ e.new, new ∉ mm.mmap) (newBelow : Bool) :
    ∃ mm' err, splitVma c e mm x addr newBelow = some (mm', err) ∧ (err.isSome → mm' = mm) ∧
      (err = none → ∃ new, e.new = some new ∧
        Parted c mm mm' a b x (bif newBelow then new else x) (bif newBelow then x else new) addr) := by
  rw [splitVma]
  by_cases huge : ((mm.vma x).hugeShift.any fun h => addr % 2 ^ h ≠ 0) = true
  · rw [if_pos huge]
    exact ⟨_, _, rfl, fun _ => rfl, (by rintro ⟨⟩)⟩
  rw [if_neg huge]
  cases hn : e.new with
  | none => exact ⟨_, _, rfl, fun _ => rfl, (by rintro ⟨⟩)⟩
  | some new =>
    have out := fresh new hn
    obtain ⟨ne, others⟩ := wf.fresh_ne split out
    split_ifs with mpol cloned below
    · exact ⟨_, _, rfl, fun _ => rfl, fun none_ => by simp [none_] at mpol⟩
    · exact ⟨_, _, rfl, fun _ => rfl, (by rintro ⟨⟩)⟩
    · subst below
      obtain ⟨mm', run, parted⟩ := parted_insert
        (setRange (mm.set new ((mm.vma x).below addr)) x addr (mm.vma x).vmEnd
          ((mm.vma x).vmPgoff + .ofNat 64 (pages c (addr - (mm.vma x).vmStart)))) new x wf split low high out
            (.inr ⟨rfl, rfl⟩)
        (by simp [setRange, Mm.set, ne.symm]) (by simp [setRange, Mm.set, ne, Vma.above])
        (fun y hy => by simp [setRange, Mm.set, others y hy]) ⟨rfl, rfl, rfl⟩
      exact ⟨mm', none, by simp [vmaAdjust, run], (by rintro ⟨⟩), fun _ => ⟨new, rfl, parted⟩⟩
    · obtain rfl := Bool.eq_false_of_not_eq_true below
      obtain ⟨mm', run, parted⟩ := parted_insert
        (setRange (mm.set new ((mm.vma x).above c addr)) x (mm.vma x).vmStart addr (mm.vma x).vmPgoff) x new
        wf split low high out (.inl ⟨rfl, rfl⟩) (by simp [setRange, Mm.set, ne, Vma.below])
        (by simp [setRange, Mm.set, ne.symm]) (fun y hy => by simp [setRange, Mm.set, others y hy]) ⟨rfl, rfl, rfl⟩
      exact ⟨mm', none, by simp [vmaAdjust, run], (by rintro ⟨⟩), fun _ => ⟨new, rfl, parted⟩⟩

def SameMap (c : Config) (mm mm' : Mm) : Prop :=
  (∀ p, pageOf c (areas mm') p = pageOf c (areas mm) p) ∧ mm'.totalVm = mm.totalVm

section

variable {lo hi : Word} (h : Parted c mm mm' a b x lo hi addr) (wf : WellFormed c mm) (dvd : 2 ^ c.pageShift ∣ addr)
  (low : (mm.vma x).vmStart < addr) (high : addr < (mm.vma x).vmEnd)

include h

theorem Parted.areas_eq : areas mm = a.map mm.vma ++ ([mm.vma x] ++ b.map mm.vma) ∧
    areas mm' = a.map mm.vma ++ ([(mm.vma x).below addr, (mm.vma x).above c addr] ++ b.map mm.vma) := by
  have same : ∀ l ⊆ a ++ b, l.map mm'.vma = l.map mm.vma :=
    fun l sub => map_congr_left fun y hy => h.others y (sub hy)
  constructor
  · rw [areas, h.split, map_append, map_cons, singleton_append]
  · rw [areas, h.list, map_append, map_cons, map_cons, h.low, h.high, same a (by simp), same b (by simp)]
    rfl

include wf dvd low high

theorem Parted.sameMap : SameMap c mm mm' := by
  obtain ⟨old, new⟩ := h.areas_eq
  have paged := wf.ordered.paged (mm.vma x) (by simp [old])
  refine ⟨fun p => ?_, h.total⟩
  rw [old, new, pageOf_append, pageOf_append, pageOf_append, pageOf_append, pageOf_parts paged dvd low high]

theorem Parted.wellFormed : WellFormed c mm' := by
  obtain ⟨old, new⟩ := h.areas_eq
  have ordered := wf.ordered
  have total := wf.total
  have paged := wf.ordered.paged (mm.vma x) (by simp [old])
  rw [old] at ordered total
  refine ⟨h.nodup, new ▸ ordered.parts dvd low high, ?_, ?_⟩
  · rw [h.count, wf.count, h.split, h.list]
    simp only [length_append, length_cons]
    omega
  · rw [pageSum_append] at total
    rwa [new, h.total, pageSum_append, pageSum_append, pageSum_parts paged dvd low high]

end

structure Zones (start fin : Nat) (k m r : List Vma) : Prop where
  below : ∀ v ∈ k, v.vmEnd ≤ start
  inside : ∀ v ∈ m, start ≤ v.vmStart ∧ v.vmEnd ≤ fin
  above : ∀ v ∈ r, fin ≤ v.vmStart

variable {l : List Word}

theorem zones_map {f : Word → Vma} : Zones start fin (a.map f) (l.map f) (b.map f) ↔
    (∀ y ∈ a, (f y).vmEnd ≤ start) ∧ (∀ y ∈ l, start ≤ (f y).vmStart ∧ (f y).vmEnd ≤ fin) ∧
      ∀ y ∈ b, fin ≤ (f y).vmStart := by
  constructor
  · exact fun h => ⟨forall_mem_map.mp h.below, forall_mem_map.mp h.inside,
      fun _ hy => h.above _ (mem_map_of_mem hy)⟩
  · exact fun h => ⟨forall_mem_map.mpr h.1, forall_mem_map.mpr h.2.1, forall_mem_map.mpr h.2.2⟩

structure Unmapped (c : Config) (mm mm' : Mm) (start fin : Nat) : Prop where
  wf : WellFormed c mm'
  inside : ∀ p, start ≤ p * 2 ^ c.pageShift → p * 2 ^ c.pageShift < fin → pageOf c (areas mm') p = none
  outside : ∀ p, ¬(start ≤ p * 2 ^ c.pageShift ∧ p * 2 ^ c.pageShift < fin) →
    pageOf c (areas mm') p = pageOf c (areas mm) p
  total : mm'.totalVm + mapped c (areas mm) start fin = mm.totalVm

theorem cutBehind_spec (nodup : (a ++ b).Nodup) : cutBehind a.getLast? (a ++ b) = (a, b) := by
  rcases eq_nil_or_concat' a with rfl | ⟨a, z, rfl⟩
  · rfl
  rw [append_assoc, singleton_append] at nodup ⊢
  have out := (nodup_append.mp nodup).2.2
  obtain ⟨take, drop⟩ := cut_while (r := z :: b) (fun y => decide (y ≠ z))
    (fun y hy => decide_eq_true (out y hy z mem_cons_self)) (by simp)
  rw [List.getLast?_concat, cutBehind, take, drop, tail_cons]

theorem foldl_pages (f : Word → Nat) (l : List Word) (n : Nat) :
    l.foldl (fun n x => n - f x) n = n - (l.map f).sum := by
  induction l generalizing n with
  | nil => rfl
  | cons x l ih => rw [foldl_cons, ih, map_cons, sum_cons, Nat.sub_sub]

theorem unlockVmas_eq (c : Config) (mm : Mm) (l : List Word) :
    ∃ lockedVm, unlockVmas c mm l = { mm with lockedVm } := by
  unfold unlockVmas
  split_ifs
  exacts [⟨_, rfl⟩, ⟨_, rfl⟩]

theorem findVma_eq (split : mm.mmap = a ++ b) (low : ∀ y ∈ a, (mm.vma y).vmEnd ≤ addr)
    (high : ∀ y, b.head? = some y → addr < (mm.vma y).vmEnd) : findVma mm addr = b.head? := by
  have none_ : a.find? (fun y => decide (addr < (mm.vma y).vmEnd)) = none :=
    List.find?_eq_none.mpr fun y hy => by simpa using low y hy
  rw [findVma, split, List.find?_append, none_, Option.none_or]
  cases b with
  | nil => rfl
  | cons y b => exact List.find?_cons_of_pos (decide_eq_true (high y rfl))

theorem Unmapped.of_sameMap {mm₁ : Mm} (same : SameMap c mm mm₁) (h : Unmapped c mm₁ mm' start fin) :
    Unmapped c mm mm' start fin := by
  refine ⟨h.wf, h.inside, fun p out => (h.outside p out).trans (same.1 p), ?_⟩
  have total := h.total
  rw [same.2] at total
  rwa [mapped, Finset.filter_congr fun p _ => by rw [← same.1 p]]

/-- What `do_munmap` leaves. On success the pages of the range are unmapped and the others are as before, and
`map_count` stays below its limit; on an error the same pages are mapped as before. -/
structure Munmapped (c : Config) (mm mm' : Mm) (start fin : Nat) (err : Option Errno) : Prop where
  wf : WellFormed c mm'
  error : err.isSome → SameMap c mm mm'
  success : err = none → Unmapped c mm mm' start fin ∧ mm'.mapCount ≤ max mm.mapCount c.maxMapCount

theorem munmapped_same {err : Option Errno} (wf : WellFormed c mm) (h : err.isSome) :
    Munmapped c mm mm start fin err :=
  ⟨wf, fun _ => ⟨fun _ => rfl, rfl⟩, fun none_ => by simp [none_] at h⟩

section

variable (hs : 2 ^ c.pageShift ∣ start) (hf : 2 ^ c.pageShift ∣ fin)

include hs hf

/-- The middle zone is taken out of the list. -/
theorem Zones.unmapped (h : Zones start fin k m r)
    (ok : Ordered c (areas mm)) (wf : WellFormed c mm') (old : areas mm = k ++ (m ++ r)) (new : areas mm' = k ++ r)
    (total : mm'.totalVm + pageSum c m = mm.totalVm) : Unmapped c mm mm' start fin := by
  have outer : ∀ p, start ≤ p * 2 ^ c.pageShift → p * 2 ^ c.pageShift < fin → pageOf c (k ++ r) p = none := by
    intro p low high
    refine pageOf_eq_none.mpr (forall_mem_append.mpr ⟨fun v hv cov => ?_, fun v hv cov => ?_⟩)
    · exact absurd cov.2 (Nat.not_lt.mpr ((h.below v hv).trans low))
    · exact absurd cov.1 (Nat.not_le.mpr (high.trans_le (h.above v hv)))
  rw [old] at ok
  refine ⟨wf, new ▸ outer, fun p out => ?_, ?_⟩
  · have none_ : pageOf c m p = none := by
      refine pageOf_eq_none.mpr fun v hv cov => out ?_
      exact ⟨(h.inside v hv).1.trans cov.1, cov.2.trans_le (h.inside v hv).2⟩
    rw [old, new, pageOf_append, pageOf_append, pageOf_append, none_, Option.none_or]
  · have sub : m.Sublist (k ++ (m ++ r)) := (sublist_append_left m r).trans (sublist_append_right k _)
    rw [← total, old, ← mapped_eq_pageSum (ok.sublist sub) h.inside, mapped, mapped]
    congr 2
    refine Finset.filter_congr fun p hp => ?_
    have ne := (Nat.two_pow_pos c.pageShift).ne'
    rw [Finset.mem_Ico, Nat.div_le_iff_le_mul_of_dvd ne hs, Nat.lt_div_iff_mul_lt_of_dvd ne hf] at hp
    have none_ := outer p hp.1 hp.2
    rw [pageOf_append, Option.or_eq_none_iff] at none_
    rw [pageOf_append, pageOf_append, none_.1, none_.2, Option.none_or, Option.or_none]

theorem unmapVmas_spec (wf : WellFormed c mm) (split : mm.mmap = a ++ (l ++ b)) (ne : l ≠ [])
    (zones : Zones start fin (a.map mm.vma) (l.map mm.vma) (b.map mm.vma)) :
    ∃ mm', unmapVmas c mm a.getLast? fin = some (mm', none) ∧ Unmapped c mm mm' start fin ∧
      mm'.mapCount + l.length = mm.mapCount := by
  have parts : areas mm = a.map mm.vma ++ (l.map mm.vma ++ b.map mm.vma) := by
    rw [areas, split, map_append, map_append]
  have ordered := wf.ordered
  have total := wf.total
  have count := wf.count
  have nodup := wf.nodup
  rw [parts] at ordered total
  rw [split] at nodup count
  obtain ⟨x, l, rfl⟩ := exists_cons_of_ne_nil ne
  obtain ⟨take, drop⟩ := cut_while (fun y => decide ((mm.vma y).vmStart < fin))
    (fun y hy => by
      have inside := (zones.inside _ (mem_map_of_mem (mem_cons_of_mem x hy))).2
      have := ordered.ranges (mm.vma y) (by simp; exact .inr (.inr (.inl ⟨y, hy, rfl⟩)))
      exact decide_eq_true (by omega))
    fun y hy => decide_eq_false (Nat.not_lt.mpr (zones.above _ (mem_map_of_mem (mem_of_mem_head? hy))))
  obtain ⟨locked, unlock⟩ := unlockVmas_eq c mm ((x :: (l ++ b)).takeWhile fun y => decide ((mm.vma y).vmStart < fin))
  have run : unmapVmas c mm a.getLast? fin = some ({ mm with
      mmap := a ++ b, mapCount := mm.mapCount - (x :: l).length,
      totalVm := mm.totalVm - pageSum c ((x :: l).map mm.vma),
      lockedVm := locked }, none) := by
    rw [unmapVmas, split, cutBehind_spec nodup]
    simp only [cons_append, unlock, take, drop, removeVmaList, foldl_pages]
    simp [pageSum, Function.comp_def]
  have rest : (a ++ b).map mm.vma = a.map mm.vma ++ b.map mm.vma := map_append
  have sub : (b.map mm.vma).Sublist ((x :: l).map mm.vma ++ b.map mm.vma) := sublist_append_right ..
  simp only [pageSum_append] at total
  simp only [length_append] at count
  refine ⟨_, run, zones.unmapped hs hf wf.ordered ⟨?_, ?_, ?_, ?_⟩ parts rest ?_, ?_⟩
  · exact nodup.sublist (List.Sublist.append_left (sublist_append_right _ b) a)
  · rw [areas, rest]
    exact ordered.sublist (sub.append_left _)
  · simp only [length_append]
    omega
  · rw [areas, rest, pageSum_append]
    dsimp only
    omega
  · dsimp only
    omega
  · dsimp only
    omega

theorem unmap_split {y new : Word} {r : List Word} {mm₁ : Mm} (wf : WellFormed c mm)
    (parted : Parted c mm mm₁ (a ++ l) r y new y fin) (below : ∀ z ∈ a, (mm.vma z).vmEnd ≤ start)
    (inside : ∀ z ∈ l, start ≤ (mm.vma z).vmStart ∧ (mm.vma z).vmEnd ≤ fin)
    (cross : start ≤ (mm.vma y).vmStart ∧ (mm.vma y).vmStart < fin) (ends : fin < (mm.vma y).vmEnd) :
    ∃ mm', unmapVmas c mm₁ a.getLast? fin = some (mm', none) ∧ Unmapped c mm mm' start fin ∧
      mm'.mapCount + l.length = mm.mapCount := by
  have same : ∀ z ∈ a ++ l ++ r, mm₁.vma z = mm.vma z := parted.others
  have list : mm₁.mmap = a ++ ((l ++ [new]) ++ y :: r) := by simpa using parted.list
  have zones : Zones start fin (a.map mm₁.vma) ((l ++ [new]).map mm₁.vma) ((y :: r).map mm₁.vma) := by
    simp only [zones_map, forall_mem_append, forall_mem_singleton, forall_mem_cons, parted.low, parted.high]
    refine ⟨fun z hz => ?_, ⟨fun z hz => ?_, cross.1, le_refl fin⟩, le_refl fin, fun z hz => ?_⟩
    · rw [same z (by simp [hz])]
      exact below z hz
    · rw [same z (by simp [hz])]
      exact inside z hz
    · have := (wf.around parted.split).2 z hz
      rw [same z (by simp [hz])]
      omega
  obtain ⟨mm', run, unmapped, count⟩ :=
    unmapVmas_spec hs hf (parted.wellFormed wf hf cross.2 ends) list (by simp) zones
  have := parted.count
  rw [length_append, length_singleton] at count
  exact ⟨mm', run, unmapped.of_sameMap (parted.sameMap wf hf cross.2 ends), by omega⟩

theorem munmapLast_spec (wf : WellFormed c mm) (split : mm.mmap = a ++ x :: b)
    (below : ∀ y ∈ a, (mm.vma y).vmEnd ≤ start)
    (first : start ≤ (mm.vma x).vmStart ∧ (mm.vma x).vmStart < fin) (fresh : ∀ new ∈ e.new, new ∉ mm.mmap) :
    ∃ mm' err, munmapLast c e mm a.getLast? fin = some (mm', err) ∧ (err.isSome → mm' = mm) ∧
      (err = none → Unmapped c mm mm' start fin ∧
        (mm'.mapCount < mm.mapCount ∨ mm'.mapCount = mm.mapCount ∧ fin < (mm.vma x).vmEnd)) := by
  obtain ⟨-, after⟩ := wf.around split
  have starts : ∀ y ∈ x :: b, start ≤ (mm.vma y).vmStart := by
    refine forall_mem_cons.mpr ⟨first.1, fun y hy => ?_⟩
    have := after y hy
    have := wf.ordered.ranges (mm.vma x) (mem_map_of_mem (by simp [split]))
    omega
  obtain ⟨l, r, cut, low, high⟩ := exists_cut (fun y => decide ((mm.vma y).vmEnd ≤ fin)) (x :: b)
  rw [cut] at split starts
  have inside : ∀ y ∈ l, start ≤ (mm.vma y).vmStart ∧ (mm.vma y).vmEnd ≤ fin := fun y hy =>
    ⟨starts y (mem_append_left r hy), of_decide_eq_true (low y hy)⟩
  have split' : mm.mmap = (a ++ l) ++ r := by rw [split, append_assoc]
  have find : findVma mm fin = r.head? := by
    refine findVma_eq split' (forall_mem_append.mpr ⟨fun y hy => ?_, fun y hy => (inside y hy).2⟩) fun y hy => ?_
    · have := below y hy
      omega
    · simpa using high y hy
  rw [munmapLast, find]
  cases hlast : r.head?.filter fun y => decide ((mm.vma y).vmStart < fin) with
  | some y =>
    obtain ⟨head, cross⟩ := Option.filter_eq_some_iff.mp hlast
    obtain ⟨r, rfl⟩ := List.head?_eq_some_iff.mp head
    have cross := of_decide_eq_true cross
    have ends : fin < (mm.vma y).vmEnd := by simpa using high y rfl
    obtain ⟨mm₁, err, run, failed, done⟩ := splitVma_spec wf split' cross ends fresh true
    simp only [run]
    cases err with
    | some err => exact ⟨mm₁, some err, rfl, fun _ => failed rfl, nofun⟩
    | none =>
      obtain ⟨new, -, parted⟩ := done rfl
      obtain ⟨mm', run, unmapped, count⟩ := unmap_split hs hf wf parted below inside ⟨starts y (by simp), cross⟩ ends
      refine ⟨mm', none, run, nofun, fun _ => ⟨unmapped, ?_⟩⟩
      -- the split adds a vma and its lower part goes again, so the count falls unless `x` itself is split
      cases l with
      | nil =>
        obtain ⟨rfl, -⟩ := List.cons.inj cut
        exact .inr ⟨count, ends⟩
      | cons z l =>
        rw [length_cons] at count
        exact .inl (by omega)
  | none =>
    have head : ∀ y, r.head? = some y → fin ≤ (mm.vma y).vmStart := fun y hy => by
      simpa [hy] using Option.filter_eq_none_iff.mp hlast y hy
    have above : ∀ z ∈ r, fin ≤ (mm.vma z).vmStart := by
      cases r with
      | nil => nofun
      | cons y r =>
        refine forall_mem_cons.mpr ⟨head y rfl, fun z hz => ?_⟩
        have := ((wf.around split').2 z hz).1
        have : fin < (mm.vma y).vmEnd := by simpa using high y rfl
        omega
    have ne : l ≠ [] := by
      rintro rfl
      have := head x (by rw [← nil_append r, ← cut, List.head?_cons])
      omega
    obtain ⟨mm', run, unmapped, count⟩ := unmapVmas_spec hs hf wf split ne (zones_map.mpr ⟨below, inside, above⟩)
    refine ⟨mm', none, run, nofun, fun _ => ⟨unmapped, .inl ?_⟩⟩
    have := length_pos_of_ne_nil ne
    omega

/-- The range begins inside a vma. Only if it also ends there, one more vma can be left than there were. -/
theorem munmap_across {e₁ e₂ : Alloc} (wf : WellFormed c mm) (split : mm.mmap = a ++ x :: b)
    (low : ∀ y ∈ a, (mm.vma y).vmEnd ≤ start) (cross : (mm.vma x).vmStart < start) (ends : start < (mm.vma x).vmEnd)
    (room : ¬(fin < (mm.vma x).vmEnd ∧ c.maxMapCount ≤ mm.mapCount)) (lt : start < fin)
    (fresh₁ : ∀ new, e₁.new = some new → new ∉ mm.mmap)
    (fresh₂ : ∀ new, e₂.new = some new → new ∉ mm.mmap ∧ e₁.new ≠ some new) :
    ∃ mm' err, ((splitVma c e₁ mm x start false).bind fun (mm, err) =>
      if err.isSome then some (mm, err) else munmapLast c e₂ mm (some x) fin) = some (mm', err) ∧
        Munmapped c mm mm' start fin err := by
  obtain ⟨mm₁, err, run, failed, done⟩ := splitVma_spec wf split cross ends fresh₁ false
  rw [run]
  cases err with
  | some err =>
    obtain rfl := failed rfl
    exact ⟨_, some err, rfl, munmapped_same wf rfl⟩
  | none =>
    obtain ⟨new, alloc, parted⟩ := done rfl
    rw [cond_false, cond_false] at parted
    have list : mm₁.mmap = (a ++ [x]) ++ new :: b := by simpa using parted.list
    have wf₁ := parted.wellFormed wf hs cross ends
    have same := parted.sameMap wf hs cross ends
    have below : ∀ y ∈ a ++ [x], (mm₁.vma y).vmEnd ≤ start := by
      rw [forall_mem_append, forall_mem_singleton, parted.low]
      refine ⟨fun y hy => ?_, le_refl start⟩
      rw [parted.others y (mem_append_left b hy)]
      exact low y hy
    have first : start ≤ (mm₁.vma new).vmStart ∧ (mm₁.vma new).vmStart < fin := by
      rw [parted.high]
      exact ⟨le_refl start, lt⟩
    have unused : ∀ y, e₂.new = some y → y ∉ mm₁.mmap := by
      intro y hy mem
      obtain ⟨out, ne⟩ := fresh₂ y hy
      have other : y ≠ new := by
        rintro rfl
        exact ne alloc
      rw [parted.list] at mem
      rw [split] at out
      simp only [mem_append, mem_cons] at mem out
      tauto
    obtain ⟨mm', err, run, failed, done⟩ := munmapLast_spec hs hf wf₁ list below first unused
    rw [List.getLast?_concat] at run
    refine ⟨mm', err, run, ?_, fun h => failed h ▸ same, fun h => ?_⟩
    · cases err with
      | some err => exact failed rfl ▸ wf₁
      | none => exact (done rfl).1.wf
    · obtain ⟨unmapped, count⟩ := done h
      refine ⟨unmapped.of_sameMap same, ?_⟩
      have more := parted.count
      rw [parted.high] at count
      change mm'.mapCount < mm₁.mapCount ∨ mm'.mapCount = mm₁.mapCount ∧ fin < (mm.vma x).vmEnd at count
      omega

end

/-- `do_munmap` returns, with the pages of the range unmapped or with an error and the pages as before. -/
theorem do_munmap_unmaps {e₁ e₂ : Alloc} (shift : c.pageShift ≤ 64)
    (task : 2 ^ c.pageShift ∣ c.taskSize ∧ c.taskSize < 2 ^ 64)
    (wf : WellFormed c mm) (fresh₁ : ∀ new, e₁.new = some new → new ∉ mm.mmap)
    (fresh₂ : ∀ new, e₂.new = some new → new ∉ mm.mmap ∧ e₁.new ≠ some new) (start len : Nat) :
    ∃ mm' err, doMunmap c e₁ e₂ mm start len = some (mm', err) ∧
      Munmapped c mm mm' start (start + Align.alignUp 64 len (2 ^ c.pageShift)) err := by
  rw [doMunmap]
  by_cases bad : start % 2 ^ c.pageShift ≠ 0 ∨ c.taskSize < start ∨ c.taskSize - start < len
  · rw [if_pos bad]
    exact ⟨mm, _, rfl, munmapped_same wf rfl⟩
  rw [if_neg bad]
  obtain ⟨mod, top, fits⟩ : start % 2 ^ c.pageShift = 0 ∧ start ≤ c.taskSize ∧ len ≤ c.taskSize - start := by omega
  have hs : 2 ^ c.pageShift ∣ start := Nat.dvd_of_mod_eq_zero mod
  have bound := Align.alignUp_le shift fits (by omega) (Nat.dvd_sub task.1 hs)
  have hf : 2 ^ c.pageShift ∣ start + Align.alignUp 64 len (2 ^ c.pageShift) :=
    Nat.dvd_add hs (Align.dvd_alignUp 64 len _)
  generalize Align.alignUp 64 len (2 ^ c.pageShift) = size at bound hf
  simp only [Nat.mod_eq_of_lt (by omega : start + size < 2 ^ 64)]
  by_cases zero : size = 0
  · rw [if_pos zero]
    exact ⟨mm, _, rfl, munmapped_same wf rfl⟩
  rw [if_neg zero]
  obtain ⟨a, r, split, low, high⟩ := exists_cut (fun y => decide ((mm.vma y).vmEnd ≤ start)) mm.mmap
  have low' : ∀ y ∈ a, (mm.vma y).vmEnd ≤ start := fun y hy => of_decide_eq_true (low y hy)
  have outside : (∀ y ∈ r, start + size ≤ (mm.vma y).vmStart) → Munmapped c mm mm start (start + size) none :=
    fun above =>
    have zones : Zones start (start + size) (a.map mm.vma) [] (r.map mm.vma) :=
      ⟨forall_mem_map.mpr low', by simp, forall_mem_map.mpr above⟩
    ⟨wf, by simp, fun _ => ⟨zones.unmapped hs hf wf.ordered wf (by rw [areas, split, map_append, nil_append])
      (by rw [areas, split, map_append]) rfl, le_max_left ..⟩⟩
  rw [findVma_eq split low' fun y hy => by simpa using high y hy]
  cases r with
  | nil => exact ⟨mm, none, rfl, outside (by simp)⟩
  | cons x b =>
    have ends : start < (mm.vma x).vmEnd := by simpa using high x rfl
    simp only [List.head?_cons]
    split_ifs with clear cross full
    · refine ⟨mm, none, rfl, outside (forall_mem_cons.mpr ⟨clear, fun y hy => ?_⟩)⟩
      have := (wf.around split).2 y hy
      have := wf.ordered.ranges (mm.vma x) (mem_map_of_mem (by simp [split]))
      omega
    · exact ⟨mm, _, rfl, munmapped_same wf rfl⟩
    · exact munmap_across hs hf wf split low' cross ends full (by omega) fresh₁ fresh₂
    · obtain ⟨mm', err, run, failed, done⟩ :=
        munmapLast_spec hs hf wf split low' (by omega) (fun y hy => (fresh₂ y hy).1)
      rw [findPrev, split, (cut_while _ low high).1]
      refine ⟨mm', err, run, ?_⟩
      cases err with
      | some err =>
        obtain rfl := failed rfl
        exact munmapped_same wf rfl
      | none =>
        obtain ⟨unmapped, count⟩ := done rfl
        exact ⟨unmapped.wf, by simp, fun _ => ⟨unmapped, by omega⟩⟩

def spare (new : Word) : Alloc := ⟨some new, none, true⟩

/-- The second of three pages is unmapped; the first and the third stay. -/
theorem do_munmap_unmaps_second : ∃ mm',
    doMunmap ⟨12, 65536, 100⟩ (spare 7) (spare 8) (threePages 0 0) 4096 100 = some (mm', none) ∧
      mm'.mmap = [1, 3] ∧ mm'.mapCount = 2 ∧ pageOf ⟨12, 65536, 100⟩ (areas mm') 1 = none ∧ ∀ p, p ≠ 1 →
        pageOf ⟨12, 65536, 100⟩ (areas mm') p = pageOf ⟨12, 65536, 100⟩ (areas (threePages 0 0)) p := by
  have fresh₁ : ∀ new, (spare 7).new = some new → new ∉ (threePages 0 0).mmap := by simp [spare, threePages]
  have fresh₂ : ∀ new, (spare 8).new = some new → new ∉ (threePages 0 0).mmap ∧ (spare 7).new ≠ some new := by
    simp [spare, threePages]
  obtain ⟨mm', err, run, done⟩ :=
    do_munmap_unmaps (by decide) (by decide) (threePages_wellFormed 0 0) fresh₁ fresh₂ 4096 100
  refine ⟨_, rfl, rfl, rfl, ?_⟩
  obtain ⟨rfl, rfl⟩ := Prod.mk.inj (Option.some.inj run)
  obtain ⟨unmapped, -⟩ := done.success rfl
  refine ⟨unmapped.inside 1 (by decide) (by decide), fun p ne => unmapped.outside p fun here => ne ?_⟩
  have size : Align.alignUp 64 100 (2 ^ 12) = 4096 := by decide
  simp only [size] at here
  omega

end VmaList
