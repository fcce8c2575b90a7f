/- The lookups of mm/mmap.c in the tree and the list of vmas: find_vma, find_vma_prev, find_vma_prepare. -/
import Mathlib.Data.List.TakeWhile
import LinuxKernel.Lib.RbtreeDescend

namespace VmaFind

open Rbtree PointerTree List

/-- The fields of `struct vm_area_struct` that the lookups read; its node of the tree is at its address. -/
structure VmArea where
  vmStart : Nat
  vmEnd : Nat
  vmNext : Word

structure Mm where
  vma : Word → VmArea
  mmap : Word
  mmRb : Heap
  mmapCache : Word

/-- The comparisons of `find_vma` and `find_vma_prepare`. -/
def findTest (mm : Mm) (addr : Nat) (x : Word) : Turn :=
  if addr < (mm.vma x).vmEnd then
    if (mm.vma x).vmStart ≤ addr then .stopLeft else .left
  else .right

/-- `find_vma`, with a bound on the turns of its loop. -/
def findVma (n : Nat) (mm : Mm) (addr : Nat) : Option (Word × Mm) :=
  let vma := mm.mmapCache
  if vma ≠ 0 ∧ addr < (mm.vma vma).vmEnd ∧ (mm.vma vma).vmStart ≤ addr then some (vma, mm)
  else
    (descend n mm.mmRb (findTest mm addr)).map fun d =>
      (d.next, if d.next ≠ 0 then { mm with mmapCache := d.next } else mm)

/-- The comparisons of `find_vma_prev`. -/
def prevTest (mm : Mm) (addr : Nat) (x : Word) : Turn :=
  if addr < (mm.vma x).vmEnd then .left
  else if (mm.vma x).vmNext = 0 ∨ addr < (mm.vma (mm.vma x).vmNext).vmEnd then .stopRight
  else .right

/-- `find_vma_prev`: the vma, and `*pprev`. -/
def findVmaPrev (n : Nat) (mm : Mm) (addr : Nat) : Option (Word × Word) :=
  (descend n mm.mmRb (prevTest mm addr)).map fun d =>
    (if d.prev ≠ 0 then (mm.vma d.prev).vmNext else mm.mmap, d.prev)

/-- `find_vma_prepare`: the vma is `next`, and `*pprev`, `*rb_link` and `*rb_parent` are `prev`, `link` and
`parent`. -/
def findVmaPrepare (n : Nat) (mm : Mm) (addr : Nat) : Option Descent := descend n mm.mmRb (findTest mm addr)

/-- The vmas in order: they are apart, the tree and the list have them all, and the cache is one of them. -/
structure WellFormed (mm : Mm) (l : List Word) : Prop where
  stored : Stored mm.mmRb l
  head : mm.mmap = l.head?.getD 0
  next : ∀ p x q, l = p ++ x :: q → (mm.vma x).vmNext = q.head?.getD 0
  ordered : ∀ x ∈ l, (mm.vma x).vmStart < (mm.vma x).vmEnd
  sorted : l.Pairwise fun x y => (mm.vma x).vmEnd ≤ (mm.vma y).vmStart
  cache : mm.mmapCache = 0 ∨ mm.mmapCache ∈ l

def lower (mm : Mm) (l : List Word) (addr : Nat) : List Word := l.takeWhile fun x => (mm.vma x).vmEnd ≤ addr

/-- The first vma with `addr < vm_end` and those behind it. -/
def upper (mm : Mm) (l : List Word) (addr : Nat) : List Word := l.dropWhile fun x => (mm.vma x).vmEnd ≤ addr

variable {mm : Mm} {l : List Word} {addr : Nat}

theorem lower_append_upper (mm : Mm) (l : List Word) (addr : Nat) : lower mm l addr ++ upper mm l addr = l :=
  takeWhile_append_dropWhile

variable {x : Word}

theorem of_mem_lower (h : x ∈ lower mm l addr) : (mm.vma x).vmEnd ≤ addr :=
  of_decide_eq_true (mem_takeWhile_imp (p := fun x => decide ((mm.vma x).vmEnd ≤ addr)) h)

theorem head_upper (h : (upper mm l addr).head? = some x) : addr < (mm.vma x).vmEnd := by
  have := List.head?_dropWhile_not (fun x => decide ((mm.vma x).vmEnd ≤ addr)) l
  rw [upper] at h
  rw [h] at this
  simpa using this

theorem mem_of_head (h : (upper mm l addr).head? = some x) : x ∈ l :=
  (dropWhile_sublist _).subset (mem_of_mem_head? h)

namespace WellFormed

variable (ok : WellFormed mm l)

include ok

theorem upper_cases {x : Word} (h : x ∈ upper mm l addr) :
    addr < (mm.vma x).vmEnd ∧ ((mm.vma x).vmStart ≤ addr → (upper mm l addr).head? = some x) := by
  have sorted := ok.sorted
  rw [← lower_append_upper mm l addr, pairwise_append] at sorted
  cases hu : upper mm l addr with
  | nil =>
    rw [hu] at h
    cases h
  | cons y rest =>
    have first : addr < (mm.vma y).vmEnd := head_upper (by rw [hu, List.head?_cons])
    rw [hu] at h sorted
    rcases mem_cons.mp h with rfl | later
    · exact ⟨first, fun _ => rfl⟩
    have apart := (pairwise_cons.mp sorted.2.1).1 x later
    have mem : x ∈ l := by
      rw [← lower_append_upper mm l addr, hu]
      simp [later]
    have := ok.ordered x mem
    exact ⟨by omega, fun le => absurd le (by omega)⟩

theorem head_of_contains {x : Word} (mem : x ∈ l) (start : (mm.vma x).vmStart ≤ addr)
    (above : addr < (mm.vma x).vmEnd) :
    (upper mm l addr).head? = some x := by
  rw [← lower_append_upper mm l addr] at mem
  rcases mem_append.mp mem with low | high
  · have := of_mem_lower low
    omega
  · exact (ok.upper_cases high).2 start

theorem findTest_cuts : Cuts (findTest mm addr) (lower mm l addr) (upper mm l addr) where
  low x h := by
    have := of_mem_lower h
    exact .inl (if_neg (by omega))
  high x h := by
    obtain ⟨above, first⟩ := ok.upper_cases h
    rw [findTest, if_pos above]
    by_cases inside : (mm.vma x).vmStart ≤ addr
    · exact .inr ⟨if_pos inside, first inside⟩
    · exact .inl (if_neg inside)

theorem prevTest_cuts : Cuts (prevTest mm addr) (lower mm l addr) (upper mm l addr) where
  low x h := by
    have below := of_mem_lower h
    obtain ⟨p, q, split⟩ := append_of_mem h
    have next := ok.next p x (q ++ upper mm l addr) (by
      rw [← cons_append, ← append_assoc, ← split, lower_append_upper])
    rw [prevTest, if_neg (by omega), next]
    cases q with
    | nil =>
      refine .inr ⟨if_pos ?_, by simp [split]⟩
      cases hu : upper mm l addr with
      | nil => exact .inl rfl
      | cons y rest => exact .inr (head_upper (by rw [hu]; rfl))
    | cons y q =>
      have mem : y ∈ lower mm l addr := by simp [split]
      have ne := ok.stored.ne_zero (takeWhile_subset _ mem)
      have := of_mem_lower mem
      refine .inl (if_neg ?_)
      rintro (zero | above)
      · exact ne zero
      · have above : addr < (mm.vma y).vmEnd := above
        omega
  high x h := .inl (if_pos (ok.upper_cases h).1)

theorem next_of_lower :
    (if (lower mm l addr).getLast?.getD 0 ≠ 0 then (mm.vma ((lower mm l addr).getLast?.getD 0)).vmNext
    else mm.mmap) = (upper mm l addr).head?.getD 0 := by
  rcases eq_nil_or_concat (lower mm l addr) with nil | ⟨p, x, split⟩
  · have whole := lower_append_upper mm l addr
    rw [nil, nil_append] at whole
    rw [nil, whole]
    exact ok.head
  rw [concat_eq_append] at split
  have next := ok.next p x (upper mm l addr) (by
    rw [← singleton_append, ← append_assoc, ← split, lower_append_upper])
  have ne := ok.stored.ne_zero (takeWhile_subset _ (by simp [split] : x ∈ lower mm l addr))
  rw [split, List.getLast?_concat, Option.getD_some, if_pos ne, next]

end WellFormed

theorem findTest_ne : findTest mm addr x ≠ .stopRight := by
  unfold findTest
  split_ifs <;> simp

theorem prevTest_ne : prevTest mm addr x ≠ .stopLeft := by
  unfold prevTest
  split_ifs <;> simp

theorem findVma_spec (ok : WellFormed mm l) (addr : Nat) {n : Nat} (hn : l.length < n) :
    ∃ cache, findVma n mm addr = some ((upper mm l addr).head?.getD 0, { mm with mmapCache := cache }) ∧
      WellFormed { mm with mmapCache := cache } l := by
  have whole := lower_append_upper mm l addr
  have stored : Stored mm.mmRb (lower mm l addr ++ upper mm l addr) := by
    rw [whole]
    exact ok.stored
  obtain ⟨d, run, ends⟩ := descend_spec stored ok.findTest_cuts (by rwa [whole])
  have next : d.next = (upper mm l addr).head?.getD 0 := by
    cases ends with
    | first stop head => rw [head, Option.getD_some]
    | last stop last => exact absurd stop findTest_ne
    | place next prev empty at_ => exact next
  unfold findVma
  by_cases hit : mm.mmapCache ≠ 0 ∧ addr < (mm.vma mm.mmapCache).vmEnd ∧ (mm.vma mm.mmapCache).vmStart ≤ addr
  · have mem := ok.cache.resolve_left hit.1
    simp only [if_pos hit, ok.head_of_contains mem hit.2.2 hit.2.1]
    exact ⟨_, rfl, ok⟩
  simp only [if_neg hit, run, Option.map_some, ← next]
  by_cases zero : d.next = 0
  · exact ⟨mm.mmapCache, by rw [if_neg (not_not.mpr zero)], ok⟩
  refine ⟨d.next, by rw [if_pos zero], ok.stored, ok.head, ok.next, ok.ordered, ok.sorted, .inr ?_⟩
  cases hu : (upper mm l addr).head? with
  | none => exact absurd (by rw [next, hu]; rfl) zero
  | some x =>
    rw [next, hu]
    exact mem_of_head hu

/-- The lookups agree: all give the first vma with `addr < vm_end`, and where one gives the vma before it or the
place for a new one, it is the vma before it in the list and the place between the two. -/
theorem find_vma_lookups (ok : WellFormed mm l) (addr : Nat) {n : Nat} (hn : l.length < n) :
    (∃ mm', findVma n mm addr = some ((upper mm l addr).head?.getD 0, mm') ∧ WellFormed mm' l) ∧
    findVmaPrev n mm addr = some ((upper mm l addr).head?.getD 0, (lower mm l addr).getLast?.getD 0) ∧
    ∃ d, findVmaPrepare n mm addr = some d ∧ d.next = (upper mm l addr).head?.getD 0 ∧
      (¬(d.next ≠ 0 ∧ (mm.vma d.next).vmStart ≤ addr) → d.prev = (lower mm l addr).getLast?.getD 0 ∧
        EmptyAt mm.mmRb l d.parent d.link ∧ ∀ y, insertAt l y d.link = lower mm l addr ++ y :: upper mm l addr) := by
  have whole := lower_append_upper mm l addr
  have stored : Stored mm.mmRb (lower mm l addr ++ upper mm l addr) := by
    rw [whole]
    exact ok.stored
  have long : (lower mm l addr ++ upper mm l addr).length < n := by rwa [whole]
  obtain ⟨cache, found, ok'⟩ := findVma_spec ok addr hn
  obtain ⟨d, run, ends⟩ := descend_spec stored ok.findTest_cuts long
  obtain ⟨d', run', ends'⟩ := descend_spec stored ok.prevTest_cuts long
  refine ⟨⟨_, found, ok'⟩, ?_, d, run, ?_⟩
  · have prev : d'.prev = (lower mm l addr).getLast?.getD 0 := by
      cases ends' with
      | first stop head => exact absurd stop prevTest_ne
      | last stop last => rw [last, Option.getD_some]
      | place next prev empty at_ => exact prev
    simp only [findVmaPrev, run', Option.map_some, prev, ok.next_of_lower]
  · cases ends with
    | first stop head =>
      refine ⟨by rw [head, Option.getD_some],
        fun outside => absurd ⟨ok.stored.ne_zero (mem_of_head head), ?_⟩ outside⟩
      unfold findTest at stop
      split_ifs at stop with above start
      exact start
    | last stop last => exact absurd stop findTest_ne
    | place next prev empty at_ =>
      rw [whole] at empty at_
      exact ⟨next, fun _ => ⟨prev, empty, at_⟩⟩

/-- Three vmas of one page, with a free page behind each of them. -/
def threeVmas (rb : Heap) : Mm where
  vma x := ⟨2048 * x.toNat, 2048 * x.toNat + 4096, if x = 12 then 0 else x + 4⟩
  mmap := 4
  mmRb := rb
  mmapCache := 8

theorem threeVmas_wellFormed : ∃ rb, WellFormed (threeVmas rb) [4, 8, 12] := by
  obtain ⟨rb, -, -, reaches⟩ := reaches_rising
  refine ⟨rb, reaches.stored, rfl, fun p x q eq => ?_, ?_, ?_, .inr ?_⟩
  · rcases p with _ | ⟨a, _ | ⟨b, _ | ⟨c, p⟩⟩⟩ <;> simp only [nil_append, cons_append, cons.injEq] at eq
    · obtain ⟨rfl, rfl⟩ := eq
      rfl
    · obtain ⟨-, rfl, rfl⟩ := eq
      rfl
    · obtain ⟨-, -, rfl, rfl⟩ := eq
      rfl
    · simp at eq
  · simp [threeVmas]
  · simp [threeVmas]
  · simp [threeVmas]

/-- The address is in the free page behind the first vma. -/
theorem find_vma_lookups_between : ∃ rb mm', WellFormed (threeVmas rb) [4, 8, 12] ∧
    findVma 4 (threeVmas rb) 14000 = some (8, mm') ∧ findVmaPrev 4 (threeVmas rb) 14000 = some (8, 4) := by
  obtain ⟨rb, ok⟩ := threeVmas_wellFormed
  obtain ⟨⟨mm', found, -⟩, prev, -⟩ := find_vma_lookups ok 14000 (by decide : [(4 : Word), 8, 12].length < 4)
  exact ⟨rb, mm', ok, found, prev⟩

end VmaFind
