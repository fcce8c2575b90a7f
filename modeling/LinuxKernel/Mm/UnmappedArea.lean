/- Free ranges of the address space: arch_get_unmapped_area and arch_get_unmapped_area_topdown of mm/mmap.c. -/
import LinuxKernel.Foundation.Align
import LinuxKernel.Mm.VmaFind

namespace UnmappedArea

open Rbtree VmaFind List

/-- `BITS_PER_LONG`, `PAGE_SHIFT`, `TASK_SIZE` and `TASK_UNMAPPED_BASE`. -/
structure Config where
  bits : Nat
  pageShift : Nat
  taskSize : Nat
  unmappedBase : Nat

structure Space where
  mm : Mm
  cachedHoleSize : Nat
  freeAreaCache : Nat
  mmapBase : Nat

variable (c : Config)

/-- `find_vma`; the number bounds the turns of its loop here and below. -/
def find (n : Nat) (s : Space) (addr : Nat) : Option (Word × Space) :=
  (findVma n s.mm addr).map fun (vma, mm) => (vma, { s with mm })

/-- `!vma || addr + len <= vma->vm_start` -/
def Below (s : Space) (vma : Word) (addr len : Nat) : Prop := vma = 0 ∨ addr + len ≤ (s.mm.vma vma).vmStart

instance (s : Space) (vma : Word) (addr len : Nat) : Decidable (Below s vma addr len) :=
  inferInstanceAs (Decidable (_ ∨ _))

/-- The largest hole that was seen so far. -/
def noteHole (s : Space) (vma : Word) (addr : Nat) : Space :=
  let vmStart := (s.mm.vma vma).vmStart
  if (addr + s.cachedHoleSize) % 2 ^ c.bits < vmStart then
    { s with cachedHoleSize := (vmStart + (2 ^ c.bits - addr)) % 2 ^ c.bits }
  else s

/-- The attempt at the address that the caller asks for. -/
def tryHint (n : Nat) (s : Space) (addr len : Nat) : Option (Space × Option Nat) :=
  if addr ≠ 0 then
    let addr := Align.alignUp c.bits addr (2 ^ c.pageShift)
    (find n s addr).map fun (vma, s) =>
      (s, if addr ≤ c.taskSize - len ∧ Below s vma addr len then some addr else none)
  else some (s, none)

/-- The loop of `arch_get_unmapped_area`; it may go back to `full_search`. No address is `-ENOMEM`. -/
def fullSearch (n len : Nat) : Nat → Space → Word → Nat → Nat → Option (Space × Option Nat)
  | 0, _, _, _, _ => none
  | m + 1, s, vma, addr, startAddr =>
    if c.taskSize - len < addr then
      if startAddr ≠ c.unmappedBase then
        (find n { s with cachedHoleSize := 0 } c.unmappedBase).bind fun (vma, s) =>
          fullSearch n len m s vma c.unmappedBase c.unmappedBase
      else some (s, none)
    else if Below s vma addr len then some ({ s with freeAreaCache := addr + len }, some addr)
    else fullSearch n len m (noteHole c s vma addr) (s.mm.vma vma).vmNext (s.mm.vma vma).vmEnd startAddr

/-- `arch_get_unmapped_area`; `fixed` is `MAP_FIXED` in the flags. -/
def archGetUnmappedArea (n : Nat) (s : Space) (addr len : Nat) (fixed : Bool) : Option (Space × Option Nat) :=
  if c.taskSize < len then some (s, none)
  else if fixed then some (s, some addr)
  else
    (tryHint c n s addr len).bind fun (s, hint) =>
      if hint.isSome then some (s, hint)
      else
        let (s, start) := if s.cachedHoleSize < len then (s, s.freeAreaCache)
          else ({ s with cachedHoleSize := 0 }, c.unmappedBase)
        (find n s start).bind fun (vma, s) => fullSearch c n len n s vma start start

/-- The loop of `arch_get_unmapped_area_topdown`; without an address it leaves to `bottomup`. -/
def topdownLoop (n len : Nat) : Nat → Space → Nat → Option (Space × Option Nat)
  | 0, _, _ => none
  | m + 1, s, addr =>
    (find n s addr).bind fun (vma, s) =>
      if Below s vma addr len then some ({ s with freeAreaCache := addr }, some addr)
      else
        let s := noteHole c s vma addr
        if len < (s.mm.vma vma).vmStart then topdownLoop n len m s ((s.mm.vma vma).vmStart - len) else some (s, none)

def bottomup (n : Nat) (s : Space) (addr0 len : Nat) : Option (Space × Option Nat) :=
  (archGetUnmappedArea c n { s with cachedHoleSize := 2 ^ c.bits - 1, freeAreaCache := c.unmappedBase } addr0 len
    false).map fun (s, addr) => ({ s with freeAreaCache := s.mmapBase, cachedHoleSize := 2 ^ c.bits - 1 }, addr)

/-- The test whether the cached position is useful. -/
def tryCache (n : Nat) (s : Space) (len : Nat) : Option (Space × Option Nat) :=
  let addr := s.freeAreaCache
  if len < addr then
    (find n s (addr - len)).map fun (vma, s) =>
      if Below s vma (addr - len) len then ({ s with freeAreaCache := addr - len }, some (addr - len)) else (s, none)
  else some (s, none)

def archGetUnmappedAreaTopdown (n : Nat) (s : Space) (addr0 len : Nat) (fixed : Bool) : Option (Space × Option Nat) :=
  if c.taskSize < len then some (s, none)
  else if fixed then some (s, some addr0)
  else
    (tryHint c n s addr0 len).bind fun (s, hint) =>
      if hint.isSome then some (s, hint)
      else
        let s := if len ≤ s.cachedHoleSize then { s with cachedHoleSize := 0, freeAreaCache := s.mmapBase } else s
        (tryCache n s len).bind fun (s, cached) =>
          if cached.isSome then some (s, cached)
          else if s.mmapBase < len then bottomup c n s addr0 len
          else
            (topdownLoop c n len n s (s.mmapBase - len)).bind fun (s, found) =>
              if found.isSome then some (s, found) else bottomup c n s addr0 len

structure Ok (vma : Word → VmArea) (l : List Word) (s : Space) : Prop where
  vma : s.mm.vma = vma
  ok : WellFormed s.mm l

def Free (vma : Word → VmArea) (l : List Word) (a len : Nat) : Prop :=
  ∀ x ∈ l, (vma x).vmEnd ≤ a ∨ a + len ≤ (vma x).vmStart

/-- An address with room for the range, or none if there is no room above `TASK_UNMAPPED_BASE`. -/
def Answers (vma : Word → VmArea) (l : List Word) (len : Nat) : Option Nat → Prop
  | some a => a + len ≤ c.taskSize ∧ Free vma l a len
  | none => ∀ a, c.unmappedBase ≤ a → a + len ≤ c.taskSize → ¬Free vma l a len

variable {c} {v : Word → VmArea} {l p q : List Word} {s : Space} {vma : Word} {n m addr len : Nat}

section

variable (h : Ok v l s)
include h

theorem Ok.noteHole (vma : Word) (addr : Nat) : Ok v l (noteHole c s vma addr) := by
  unfold UnmappedArea.noteHole
  simp only
  split_ifs
  · exact ⟨h.vma, h.ok⟩
  · exact h

theorem Ok.find (addr : Nat) (hn : l.length < n) : ∃ p q mm, l = p ++ q ∧
    find n s addr = some (q.head?.getD 0, { s with mm }) ∧ Ok v l { s with mm } ∧ ∀ x ∈ p, (v x).vmEnd ≤ addr := by
  obtain ⟨cache, run, ok⟩ := findVma_spec h.ok addr hn
  refine ⟨_, _, { s.mm with mmapCache := cache }, (lower_append_upper s.mm l addr).symm, ?_, ⟨h.vma, ok⟩, ?_⟩
  · rw [UnmappedArea.find, run]
    rfl
  · intro x hx
    rw [← h.vma]
    exact of_mem_lower hx

theorem Ok.free (parts : l = p ++ q) (low : ∀ x ∈ p, (v x).vmEnd ≤ addr)
    (room : Below s (q.head?.getD 0) addr len) : Free v l addr len := by
  obtain ⟨rfl, ok⟩ := h
  intro x hx
  rw [parts] at hx ok
  rcases mem_append.mp hx with hx | hx
  · exact .inl (low x hx)
  cases q with
  | nil => cases hx
  | cons y q =>
    have ne := ok.stored.ne_zero (mem_append_right p mem_cons_self)
    have above : addr + len ≤ (s.mm.vma y).vmStart := room.resolve_left ne
    have sorted := (pairwise_append.mp ok.sorted).2.1
    have := ok.ordered y (by simp)
    rcases mem_cons.mp hx with rfl | hx
    · exact .inr above
    · have := (pairwise_cons.mp sorted).1 x hx
      exact .inr (by omega)

theorem Ok.start_le {x : Word} (parts : l = p ++ x :: q) :
    ∀ y ∈ x :: q, (v x).vmStart ≤ (v y).vmStart := by
  obtain ⟨rfl, ok⟩ := h
  intro y hy
  have ordered := ok.ordered x (by simp [parts])
  have sorted := ok.sorted
  rw [parts, pairwise_append, pairwise_cons] at sorted
  rcases mem_cons.mp hy with rfl | hy
  · exact le_rfl
  · have := sorted.2.1.1 y hy
    omega

theorem Ok.blocked (parts : l = p ++ q) (full : ¬Below s (q.head?.getD 0) addr len) :
    ∃ x q', q = x :: q' ∧ (v x).vmStart < addr + len ∧ (v x).vmNext = q'.head?.getD 0 ∧
      ∀ y ∈ p ++ [x], (v y).vmEnd ≤ (v x).vmEnd := by
  obtain ⟨rfl, ok⟩ := h
  cases q with
  | nil => exact absurd (.inl rfl) full
  | cons x q =>
    have ordered := ok.ordered x (by simp [parts])
    have sorted := ok.sorted
    rw [parts, pairwise_append] at sorted
    refine ⟨x, q, rfl, ?_, ok.next p x q parts, fun y hy => ?_⟩
    · exact Nat.lt_of_not_le fun le => full (.inr le)
    · rcases mem_append.mp hy with hy | hy
      · have := sorted.2.2 y hy x (by simp)
        omega
      · rw [mem_singleton.mp hy]

theorem fullSearch_spec (hn : l.length < n) (hlen : len ≤ c.taskSize) {startAddr : Nat}
    (parts : l = p ++ q) (low : ∀ x ∈ p, (v x).vmEnd ≤ addr)
    (passed : startAddr = c.unmappedBase → ∀ a, c.unmappedBase ≤ a → Free v l a len → addr ≤ a)
    (hm : q.length + (if startAddr = c.unmappedBase then 0 else l.length + 1) < m) :
    ∃ s' r, fullSearch c n len m s (q.head?.getD 0) addr startAddr = some (s', r) ∧ Ok v l s' ∧
      Answers c v l len r := by
  induction m generalizing s p q addr startAddr with
  | zero => cases hm
  | succ m ih =>
    rw [fullSearch]
    by_cases high : c.taskSize - len < addr
    · rw [if_pos high]
      by_cases base : startAddr = c.unmappedBase
      · rw [if_neg (not_not.mpr base)]
        refine ⟨s, none, rfl, h, fun a ha fits free => ?_⟩
        have := passed base a ha free
        omega
      rw [if_pos base]
      have h₀ : Ok v l { s with cachedHoleSize := 0 } := ⟨h.vma, h.ok⟩
      obtain ⟨p, q, mm, parts', run, h', low'⟩ := h₀.find c.unmappedBase hn
      rw [run]
      refine ih h' parts' low' (fun _ a ha _ => ha) ?_
      have : q.length ≤ l.length := by simp [parts']
      rw [if_neg base] at hm
      rw [if_pos rfl]
      omega
    · rw [if_neg high]
      by_cases room : Below s (q.head?.getD 0) addr len
      · rw [if_pos room]
        exact ⟨_, _, rfl, ⟨h.vma, h.ok⟩, by omega, h.free parts low room⟩
      rw [if_neg room]
      obtain ⟨x, q, rfl, near, next, ends⟩ := h.blocked parts room
      simp only [List.head?_cons, Option.getD_some, h.vma, next]
      refine ih (h.noteHole x addr) (by simp [parts]) ends (fun base a ha free => ?_) ?_
      · have := passed base a ha free
        rcases free x (by simp [parts]) with above | before
        · exact above
        · omega
      · rw [length_cons] at hm
        omega

theorem tryHint_spec (hn : l.length < n) (hlen : len ≤ c.taskSize) (addr : Nat) :
    ∃ mm r, tryHint c n s addr len = some ({ s with mm }, r) ∧ Ok v l { s with mm } ∧
      ∀ a, r = some a → Answers c v l len r := by
  unfold tryHint
  by_cases zero : addr = 0
  · exact ⟨s.mm, none, if_neg (not_not.mpr zero), h, nofun⟩
  obtain ⟨p, q, mm, parts, run, h', low⟩ := h.find (Align.alignUp c.bits addr (2 ^ c.pageShift)) hn
  simp only [ne_eq, zero, run]
  refine ⟨mm, _, rfl, h', ?_⟩
  split_ifs with fits
  · exact fun _ _ => ⟨by omega, h'.free parts low fits.2⟩
  · exact nofun

theorem archGetUnmappedArea_spec (hn : 2 * l.length + 1 < n) (hlen : len ≤ c.taskSize) (addr : Nat) :
    ∃ s' r, archGetUnmappedArea c n s addr len false = some (s', r) ∧ Ok v l s' ∧ Answers c v l len r := by
  obtain ⟨mm, hint, run, h', answer⟩ := tryHint_spec h (by omega : l.length < n) hlen addr
  rw [archGetUnmappedArea, if_neg (by omega), run, Option.bind_some]
  cases hint with
  | some a => exact ⟨_, _, rfl, h', answer a rfl⟩
  | none =>
    have search : ∀ s' start, Ok v l s' → ∃ s'' r, ((find n s' start).bind fun (vma, s) =>
        fullSearch c n len n s vma start start) = some (s'', r) ∧ Ok v l s'' ∧ Answers c v l len r := by
      intro s' start h'
      obtain ⟨p, q, mm, parts, run, h'', low⟩ := h'.find start (by omega : l.length < n)
      rw [run]
      refine fullSearch_spec h'' (by omega) hlen parts low (fun base a ha _ => base ▸ ha) ?_
      have : q.length ≤ l.length := by simp [parts]
      split_ifs <;> omega
    simp only [Option.isSome_none, Bool.false_eq_true, if_false]
    split_ifs with hole
    · exact search _ _ h'
    · exact search _ _ ⟨h'.vma, h'.ok⟩

theorem topdownLoop_spec (hn : l.length < n) (bound : ∀ x ∈ l, (v x).vmEnd ≤ c.taskSize)
    (parts : l = p ++ q) (high : ∀ x ∈ q, addr + len ≤ (v x).vmStart) (fits : addr + len ≤ c.taskSize)
    (hm : p.length < m) :
    ∃ s' r, topdownLoop c n len m s addr = some (s', r) ∧ Ok v l s' ∧ ∀ a, r = some a → Answers c v l len r := by
  induction m generalizing s p q addr with
  | zero => cases hm
  | succ m ih =>
    obtain ⟨p', q', mm, parts', run, h', low⟩ := h.find addr hn
    rw [topdownLoop, run, Option.bind_some]
    simp only
    by_cases room : Below { s with mm } (q'.head?.getD 0) addr len
    · rw [if_pos room]
      exact ⟨_, _, rfl, ⟨h'.vma, h'.ok⟩, fun _ _ => ⟨fits, h'.free parts' low room⟩⟩
    rw [if_neg room]
    obtain ⟨x, q', rfl, near, -⟩ := h'.blocked parts' room
    have note := h'.noteHole (c := c) x addr
    simp only [List.head?_cons, Option.getD_some, note.vma]
    split_ifs with more
    · -- the vma in the way is one of the first part
      have mem : x ∈ p := by
        have : x ∈ p ++ q := by simp [← parts, parts']
        refine (mem_append.mp this).resolve_right fun hx => ?_
        have := high x hx
        omega
      have x_mem : x ∈ l := by simp [parts, mem]
      have := bound x x_mem
      have := h'.ok.ordered x x_mem
      rw [h'.vma] at this
      obtain ⟨p₁, p₂, rfl⟩ := append_of_mem mem
      have whole : l = p₁ ++ (x :: (p₂ ++ q)) := by simp [parts]
      refine ih note whole (fun y hy => ?_) (by omega) (by simp at hm; omega)
      have := h'.start_le whole y hy
      omega
    · exact ⟨_, none, rfl, note, nofun⟩

end

theorem tryCache_spec (len : Nat) (h : Ok v l s) (hn : l.length < n) (fits : s.freeAreaCache ≤ c.taskSize) :
    ∃ s' r, tryCache n s len = some (s', r) ∧ Ok v l s' ∧ s'.mmapBase = s.mmapBase ∧
      ∀ a, r = some a → Answers c v l len r := by
  unfold tryCache
  simp only
  split_ifs with more
  · obtain ⟨p, q, mm, parts, run, h', low⟩ := h.find (s.freeAreaCache - len) hn
    simp only [run, Option.map_some]
    split_ifs with room
    · exact ⟨_, _, rfl, ⟨h'.vma, h'.ok⟩, rfl, fun _ _ => ⟨by omega, h'.free parts low room⟩⟩
    · exact ⟨_, none, rfl, h', rfl, nofun⟩
  · exact ⟨s, none, rfl, h, rfl, nofun⟩

theorem bottomup_spec (h : Ok v l s) (hn : 2 * l.length + 1 < n) (hlen : len ≤ c.taskSize) (addr : Nat) :
    ∃ s' r, bottomup c n s addr len = some (s', r) ∧ Ok v l s' ∧ Answers c v l len r := by
  have h₀ : Ok v l { s with cachedHoleSize := 2 ^ c.bits - 1, freeAreaCache := c.unmappedBase } := ⟨h.vma, h.ok⟩
  obtain ⟨s', r, run, h', answer⟩ := archGetUnmappedArea_spec h₀ hn hlen addr
  refine ⟨{ s' with freeAreaCache := s'.mmapBase, cachedHoleSize := 2 ^ c.bits - 1 }, r, ?_, ⟨h'.vma, h'.ok⟩, answer⟩
  rw [bottomup, run]
  rfl

/-- Both searches return. They give an address with room below `TASK_SIZE`, or `-ENOMEM` if no range above
`TASK_UNMAPPED_BASE` is free, for any hint and any cached hole, and bottom-up for any cached position; top-down
the cached position and the base lie below `TASK_SIZE`. -/
theorem get_unmapped_area_answers (ok : WellFormed s.mm l) (bound : ∀ x ∈ l, (s.mm.vma x).vmEnd ≤ c.taskSize)
    (hn : 2 * l.length + 1 < n) (hlen : len ≤ c.taskSize) (addr : Nat) :
    (∃ s' r, archGetUnmappedArea c n s addr len false = some (s', r) ∧ Answers c s.mm.vma l len r) ∧
    (s.freeAreaCache ≤ c.taskSize → s.mmapBase ≤ c.taskSize →
      ∃ s' r, archGetUnmappedAreaTopdown c n s addr len false = some (s', r) ∧ Answers c s.mm.vma l len r) := by
  have h : Ok s.mm.vma l s := ⟨rfl, ok⟩
  constructor
  · obtain ⟨s', r, run, -, answer⟩ := archGetUnmappedArea_spec h hn hlen addr
    exact ⟨s', r, run, answer⟩
  · intro cache base
    obtain ⟨mm, hint, run, h', answer⟩ := tryHint_spec h (by omega : l.length < n) hlen addr
    rw [archGetUnmappedAreaTopdown, if_neg (by omega), if_neg Bool.false_ne_true, run, Option.bind_some]
    cases hint with
    | some a => exact ⟨_, _, rfl, answer a rfl⟩
    | none =>
      simp only [Option.isSome_none, Bool.false_eq_true, if_false]
      generalize start : (if len ≤ s.cachedHoleSize then _ else _ : Space) = s₁
      have h₁ : Ok s.mm.vma l s₁ ∧ s₁.freeAreaCache ≤ c.taskSize ∧ s₁.mmapBase = s.mmapBase := by
        rw [← start]
        split_ifs
        · exact ⟨⟨h'.vma, h'.ok⟩, base, rfl⟩
        · exact ⟨h', cache, rfl⟩
      obtain ⟨h₁, cache₁, base₁⟩ := h₁
      obtain ⟨s₂, cached, run₂, h₂, base₂, answer₂⟩ := tryCache_spec len h₁ (by omega : l.length < n) cache₁
      rw [run₂, Option.bind_some]
      cases cached with
      | some a => exact ⟨_, _, rfl, answer₂ a rfl⟩
      | none =>
        simp only [Option.isSome_none, Bool.false_eq_true, if_false]
        split_ifs with small
        · obtain ⟨s', r, run, -, answer⟩ := bottomup_spec h₂ hn hlen addr
          exact ⟨s', r, run, answer⟩
        obtain ⟨s₃, found, run₃, h₃, answer₃⟩ := topdownLoop_spec (m := n) h₂ (by omega : l.length < n) bound
          (append_nil l).symm nofun (by omega : s₂.mmapBase - len + len ≤ c.taskSize) (by omega)
        rw [run₃, Option.bind_some]
        cases found with
        | some a => exact ⟨_, _, rfl, answer₃ a rfl⟩
        | none =>
          obtain ⟨s', r, run, -, answer⟩ := bottomup_spec h₃ hn hlen addr
          exact ⟨s', r, run, answer⟩

/-- Below `TASK_SIZE` there are sixteen pages, and the searches begin at the fifth. -/
def sixteenPages : Config := ⟨64, 12, 65536, 20480⟩

/-- No range of two pages is free below the last vma, from which the search goes down. -/
theorem get_unmapped_area_answers_three : ∃ rb, WellFormed (threeVmas rb) [4, 8, 12] ∧
    ∃ s' r, archGetUnmappedAreaTopdown sixteenPages 8 ⟨threeVmas rb, 0, 28672, 28672⟩ 8192 8192 false = some (s', r) ∧
      Answers sixteenPages (threeVmas rb).vma [4, 8, 12] 8192 r := by
  obtain ⟨rb, ok⟩ := threeVmas_wellFormed
  have both := get_unmapped_area_answers (c := sixteenPages) (s := ⟨_, 0, 28672, 28672⟩) (n := 8) ok
    (by simp [sixteenPages]) (by decide) (by decide : 8192 ≤ 65536) 8192
  exact ⟨rb, ok, both.2 (by decide : 28672 ≤ 65536) (by decide : 28672 ≤ 65536)⟩

def unmapped : Mm := ⟨fun _ => ⟨0, 0, 0⟩, 0, ⟨fun _ => ⟨0, 0, 0⟩, 0⟩, 0⟩

/-- A cached position above `TASK_SIZE` is taken as it is: the range that is returned lies above `TASK_SIZE`. -/
theorem get_unmapped_area_topdown_above : WellFormed unmapped [] ∧ sixteenPages.unmappedBase ≤ 69632 ∧
    ∃ s', archGetUnmappedAreaTopdown sixteenPages 4 ⟨unmapped, 0, 69632, 65536⟩ 0 4096 false = some (s', some 65536) ∧
      sixteenPages.taskSize < 65536 + 4096 := by
  refine ⟨⟨stored_nil rfl, rfl, fun p x q eq => ?_, nofun, .nil, .inl rfl⟩, by decide, _, rfl, by decide⟩
  cases p <;> cases eq

end UnmappedArea
