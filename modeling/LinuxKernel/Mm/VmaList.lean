/- The vma list of an address space: vma_adjust, vma_merge, __split_vma and do_munmap of mm/mmap.c. -/
import LinuxKernel.Foundation.Align

namespace VmaList

abbrev Word := BitVec 64

/-- The fields of `struct vm_area_struct` that the functions read, with 0 for `NULL`. `close` tells whether the
operations have a `close`, `hugeShift` is the page size of a hugetlb vma. -/
structure Vma where
  vmStart : Nat
  vmEnd : Nat
  vmPgoff : Word
  vmFlags : Word
  vmFile : Word
  anonVma : Word
  policy : Word
  close : Bool
  hugeShift : Option Nat
  deriving DecidableEq, Repr

/-- `struct mm_struct`; `mmap` is the list that `vm_next` links. -/
structure Mm where
  vma : Word → Vma
  mmap : List Word
  mapCount : Nat
  totalVm : Nat
  lockedVm : Nat

/-- `PAGE_SHIFT`, `TASK_SIZE` and `sysctl_max_map_count`. -/
structure Config where
  pageShift : Nat
  taskSize : Nat
  maxMapCount : Nat

inductive Errno where
  | ENOMEM
  | EINVAL
  deriving DecidableEq, Repr

/-- What stands behind `x` in a list. -/
def following (x : Word) : List Word → Option Word
  | [] => none
  | y :: l => if y = x then l.head? else following x l

def vmNext (mm : Mm) (vma : Word) : Option Word := following vma mm.mmap

def Mm.set (mm : Mm) (x : Word) (v : Vma) : Mm := { mm with vma := Function.update mm.vma x v }

variable (c : Config)

def pages (bytes : Nat) : Nat := bytes / 2 ^ c.pageShift

/-- `vma->vm_start = start; vma->vm_end = end; vma->vm_pgoff = pgoff` -/
def setRange (mm : Mm) (vma : Word) (start fin : Nat) (pgoff : Word) : Mm :=
  mm.set vma { mm.vma vma with vmStart := start, vmEnd := fin, vmPgoff := pgoff }

/-- The expanding vma takes over the `anon_vma` of the shrinking one; `none` if `anon_vma_clone` fails. -/
def importAnon (cloned : Bool) (mm : Mm) (exporter importer : Word) : Option Mm :=
  if (mm.vma exporter).anonVma ≠ 0 ∧ (mm.vma importer).anonVma = 0 then
    if cloned then some (mm.set importer { mm.vma importer with anonVma := (mm.vma exporter).anonVma }) else none
  else some mm

/-- `__vma_unlink` with the end of its vma. -/
def unlinkVma (mm : Mm) (vma : Word) : Mm := { mm with mmap := mm.mmap.erase vma, mapCount := mm.mapCount - 1 }

/-- `find_vma_prepare` and `__insert_vm_struct`: the new vma goes before the first one that ends above its start.
Where that overlaps, the source calls `BUG()`. -/
def insertVmStruct (mm : Mm) (vma : Word) : Option Mm :=
  let start := (mm.vma vma).vmStart
  let rest := mm.mmap.dropWhile fun x => (mm.vma x).vmEnd ≤ start
  if rest.head?.any fun x => (mm.vma x).vmStart < (mm.vma vma).vmEnd then none
  else
    let front := mm.mmap.takeWhile fun x => (mm.vma x).vmEnd ≤ start
    some { mm with mmap := front ++ vma :: rest, mapCount := mm.mapCount + 1 }

/-- The turns from `again` on, where `vma` swallows the next ones: `clone r` tells whether `anon_vma_clone` succeeds
in turn `r`, the result is the error. The first number bounds the turns. -/
def again (clone : Nat → Bool) (vma : Word) (start : Nat) (pgoff : Word) :
    Nat → Nat → Mm → Word → Nat → Option (Mm × Option Errno)
  | 0, _, _, _, _ => none
  | n + 1, r, mm, next, fin =>
    let nextEnd := (mm.vma next).vmEnd
    match importAnon (clone r) mm next vma with
    | none => some (mm, some .ENOMEM)
    | some mm =>
      let mm := unlinkVma (setRange mm vma start nextEnd pgoff) next
      if nextEnd < fin then (vmNext mm vma).bind fun next => again clone vma start pgoff n (r + 1) mm next nextEnd
      else some (mm, none)

/-- The boundary between `vma` and `next` moves by this number of pages. -/
def shift (cloned : Bool) (mm : Mm) (vma next : Word) (start fin : Nat) (pgoff : Word) (adjustNext : Int)
    (exporter importer : Word) : Mm × Option Errno :=
  match importAnon cloned mm exporter importer with
  | none => (mm, some .ENOMEM)
  | some mm =>
    let mm := setRange mm vma start fin pgoff
    let v := mm.vma next
    (setRange mm next (v.vmStart + adjustNext * 2 ^ c.pageShift).toNat v.vmEnd
      (v.vmPgoff + .ofInt 64 adjustNext), none)

def vmaAdjust (clone : Nat → Bool) (n : Nat) (mm : Mm) (vma : Word) (start fin : Nat) (pgoff : Word)
    (insert : Option Word) : Option (Mm × Option Errno) :=
  match insert, vmNext mm vma with
  | some new, _ => (insertVmStruct (setRange mm vma start fin pgoff) new).map fun mm => (mm, none)
  | none, none => some (setRange mm vma start fin pgoff, none)
  | none, some next =>
    let v := mm.vma next
    if v.vmEnd ≤ fin then again clone vma start pgoff n 0 mm next fin
    else if v.vmStart < fin then
      some (shift c (clone 0) mm vma next start fin pgoff (pages c (fin - v.vmStart)) next vma)
    else if fin < (mm.vma vma).vmEnd then
      some (shift c (clone 0) mm vma next start fin pgoff (-(pages c ((mm.vma vma).vmEnd - fin))) vma next)
    else some (setRange mm vma start fin pgoff, none)

def vmSpecial : Word := 0x000c4400

def vmCanNonlinear : Word := 0x08000000

/-- The request that `vma_merge` gets. -/
structure Request where
  addr : Nat
  fin : Nat
  vmFlags : Word
  anonVma : Word
  file : Word
  pgoff : Word
  policy : Word

def isMergeableVma (v : Vma) (q : Request) : Bool :=
  (v.vmFlags ^^^ q.vmFlags) &&& ~~~vmCanNonlinear == 0 && v.vmFile == q.file && !v.close

def isMergeableAnonVma (a b : Word) : Bool := a == 0 || b == 0 || a == b

def canVmaMergeBefore (v : Vma) (q : Request) (pgoff : Word) : Bool :=
  isMergeableVma v q && isMergeableAnonVma q.anonVma v.anonVma && v.vmPgoff == pgoff

def canVmaMergeAfter (v : Vma) (q : Request) : Bool :=
  isMergeableVma v q && isMergeableAnonVma q.anonVma v.anonVma &&
    v.vmPgoff + .ofNat 64 (pages c (v.vmEnd - v.vmStart)) == q.pgoff

/-- A call of `vma_adjust` by `vma_merge`, and the vma that is returned if it succeeds. -/
structure Call where
  vma : Word
  start : Nat
  fin : Nat
  pgoff : Word
  ret : Option Word

/-- The vma behind `prev`, or the first. -/
def areaBehind (mm : Mm) : Option Word → Option Word
  | some p => vmNext mm p
  | none => mm.mmap.head?

/-- The vma behind the request; in the cases 6, 7 and 8 the request covers the one behind `prev`. -/
def nextBehind (mm : Mm) (prev : Option Word) (fin : Nat) : Option Word :=
  (areaBehind mm prev).bind fun area => if (mm.vma area).vmEnd = fin then vmNext mm area else some area

/-- Whether the request can be merged in front of `next`. -/
def mergesBefore (mm : Mm) (q : Request) (next : Option Word) : Option Word :=
  next.filter fun x => q.fin == (mm.vma x).vmStart && q.policy == (mm.vma x).policy &&
    canVmaMergeBefore (mm.vma x) q (q.pgoff + .ofNat 64 (pages c (q.fin - q.addr)))

/-- Whether it can be merged behind `prev`. -/
def mergesAfter (mm : Mm) (q : Request) (prev : Option Word) : Option Word :=
  prev.filter fun p => (mm.vma p).vmEnd == q.addr && (mm.vma p).policy == q.policy && canVmaMergeAfter c (mm.vma p) q

/-- The call that `vma_merge` makes, if any. -/
def mergeCall (mm : Mm) (prev : Option Word) (q : Request) : Option Call :=
  if q.vmFlags &&& vmSpecial ≠ 0 then none
  else
    let before := mergesBefore c mm q (nextBehind mm prev q.fin)
    match mergesAfter c mm q prev, before with
    | some p, some x =>
      let fin := if isMergeableAnonVma (mm.vma p).anonVma (mm.vma x).anonVma then (mm.vma x).vmEnd else q.fin
      some ⟨p, (mm.vma p).vmStart, fin, (mm.vma p).vmPgoff, some p⟩
    | some p, none => some ⟨p, (mm.vma p).vmStart, q.fin, (mm.vma p).vmPgoff, some p⟩
    | none, some x =>
      match prev.filter fun p => q.addr < (mm.vma p).vmEnd, areaBehind mm prev with
      | some p, area => some ⟨p, (mm.vma p).vmStart, q.addr, (mm.vma p).vmPgoff, area⟩
      | none, some area =>
        some ⟨area, q.addr, (mm.vma x).vmEnd, (mm.vma x).vmPgoff - .ofNat 64 (pages c (q.fin - q.addr)), some area⟩
      | none, none => none
    | none, none => none

def vmaMerge (clone : Nat → Bool) (n : Nat) (mm : Mm) (prev : Option Word) (q : Request) :
    Option (Mm × Option Word) :=
  match mergeCall c mm prev q with
  | none => some (mm, none)
  | some call =>
    (vmaAdjust c clone n mm call.vma call.start call.fin call.pgoff none).map fun (mm, err) =>
      (mm, if err.isSome then none else call.ret)

/-- What `__split_vma` gets: the object for the new vma, the error of `mpol_dup`, and whether `anon_vma_clone`
succeeds. -/
structure Alloc where
  new : Option Word
  mpol : Option Errno
  cloned : Bool

def Vma.below (v : Vma) (addr : Nat) : Vma := { v with vmEnd := addr }

def Vma.above (v : Vma) (addr : Nat) : Vma :=
  { v with vmStart := addr, vmPgoff := v.vmPgoff + .ofNat 64 (pages c (addr - v.vmStart)) }

/-- `__split_vma`; on an error the new object is free again. -/
def splitVma (e : Alloc) (mm : Mm) (vma : Word) (addr : Nat) (newBelow : Bool) : Option (Mm × Option Errno) :=
  let v := mm.vma vma
  if v.hugeShift.any fun h => addr % 2 ^ h ≠ 0 then some (mm, some .EINVAL)
  else
    match e.new with
    | none => some (mm, some .ENOMEM)
    | some new =>
      if e.mpol.isSome then some (mm, e.mpol)
      else if !e.cloned then some (mm, some .ENOMEM)
      else if newBelow then
        vmaAdjust c (fun _ => e.cloned) 0 (mm.set new (v.below addr)) vma addr v.vmEnd
          (v.vmPgoff + .ofNat 64 (pages c (addr - v.vmStart))) (some new)
      else vmaAdjust c (fun _ => e.cloned) 0 (mm.set new (v.above c addr)) vma v.vmStart addr v.vmPgoff (some new)

def findVma (mm : Mm) (addr : Nat) : Option Word := mm.mmap.find? fun x => addr < (mm.vma x).vmEnd

/-- The `prev` of `find_vma_prev`. -/
def findPrev (mm : Mm) (addr : Nat) : Option Word := (mm.mmap.takeWhile fun x => (mm.vma x).vmEnd ≤ addr).getLast?

/-- The list up to `prev` and behind it. -/
def cutBehind (prev : Option Word) (l : List Word) : List Word × List Word :=
  match prev with
  | none => ([], l)
  | some p => (l.takeWhile (· ≠ p) ++ [p], (l.dropWhile (· ≠ p)).tail)

def vmLocked : Word := 0x00002000

def unlockVmas (mm : Mm) (vmas : List Word) : Mm :=
  if mm.lockedVm ≠ 0 then
    let unlock locked x :=
      if (mm.vma x).vmFlags &&& vmLocked ≠ 0 then locked - pages c ((mm.vma x).vmEnd - (mm.vma x).vmStart) else locked
    { mm with lockedVm := vmas.foldl unlock mm.lockedVm }
  else mm

def removeVmaList (mm : Mm) (vmas : List Word) : Mm :=
  { mm with totalVm := vmas.foldl (fun n x => n - pages c ((mm.vma x).vmEnd - (mm.vma x).vmStart)) mm.totalVm }

/-- The end of `do_munmap` with `detach_vmas_to_be_unmapped`, whose loop takes out at least one vma. -/
def unmapVmas (mm : Mm) (prev : Option Word) (fin : Nat) : Option (Mm × Option Errno) :=
  let (front, rest) := cutBehind prev mm.mmap
  let low x := decide ((mm.vma x).vmStart < fin)
  let mm := unlockVmas c mm (rest.takeWhile low)
  match rest with
  | [] => none
  | vma :: rest =>
    let vmas := vma :: rest.takeWhile low
    let mm := { mm with mmap := front ++ rest.dropWhile low, mapCount := mm.mapCount - vmas.length }
    some (removeVmaList c mm vmas, none)

/-- From `Does it split the last one?` on. -/
def munmapLast (e : Alloc) (mm : Mm) (prev : Option Word) (fin : Nat) : Option (Mm × Option Errno) :=
  match (findVma mm fin).filter fun x => (mm.vma x).vmStart < fin with
  | none => unmapVmas c mm prev fin
  | some last =>
    (splitVma c e mm last fin true).bind fun (mm, err) =>
      if err.isSome then some (mm, err) else unmapVmas c mm prev fin

/-- `do_munmap`; the allocations are those of the first and of the second split. -/
def doMunmap (e₁ e₂ : Alloc) (mm : Mm) (start len : Nat) : Option (Mm × Option Errno) :=
  if start % 2 ^ c.pageShift ≠ 0 ∨ c.taskSize < start ∨ c.taskSize - start < len then some (mm, some .EINVAL)
  else
    let len := Align.alignUp 64 len (2 ^ c.pageShift)
    if len = 0 then some (mm, some .EINVAL)
    else
      match findVma mm start with
      | none => some (mm, none)
      | some vma =>
        let fin := (start + len) % 2 ^ 64
        if fin ≤ (mm.vma vma).vmStart then some (mm, none)
        else if (mm.vma vma).vmStart < start then
          if fin < (mm.vma vma).vmEnd ∧ c.maxMapCount ≤ mm.mapCount then some (mm, some .ENOMEM)
          else
            (splitVma c e₁ mm vma start false).bind fun (mm, err) =>
              if err.isSome then some (mm, err) else munmapLast c e₂ mm (some vma) fin
        else munmapLast c e₂ mm (findPrev mm start) fin

def areas (mm : Mm) : List Vma := mm.mmap.map mm.vma

def pageSum (l : List Vma) : Nat := (l.map fun v => pages c (v.vmEnd - v.vmStart)).sum

structure Ordered (l : List Vma) : Prop where
  ranges : ∀ v ∈ l, v.vmStart < v.vmEnd
  paged : ∀ v ∈ l, 2 ^ c.pageShift ∣ v.vmStart ∧ 2 ^ c.pageShift ∣ v.vmEnd
  sorted : l.Pairwise fun v w => v.vmEnd ≤ w.vmStart

structure WellFormed (mm : Mm) : Prop where
  nodup : mm.mmap.Nodup
  ordered : Ordered c (areas mm)
  count : mm.mapCount = mm.mmap.length
  total : pageSum c (areas mm) ≤ mm.totalVm

variable {c} {mm mm' : Mm} {x y : Word} {p r : List Word}

theorem following_append (nodup : (p ++ x :: r).Nodup) : following x (p ++ x :: r) = r.head? := by
  induction p with
  | nil => exact if_pos rfl
  | cons y p ih =>
    obtain ⟨out, nodup⟩ := List.nodup_cons.mp nodup
    have ne : y ≠ x := by
      rintro rfl
      exact out (by simp)
    rw [List.cons_append, following, if_neg ne, ih nodup]

theorem exists_of_following {l : List Word} (h : following x l = some y) : ∃ p r, l = p ++ x :: y :: r := by
  induction l with
  | nil => cases h
  | cons z l ih =>
    rw [following] at h
    split_ifs at h with eq
    · obtain ⟨r, rfl⟩ := List.head?_eq_some_iff.mp h
      exact ⟨[], r, by rw [eq, List.nil_append]⟩
    · obtain ⟨p, r, rfl⟩ := ih h
      exact ⟨z :: p, r, rfl⟩

theorem WellFormed.next_le (wf : WellFormed c mm) (h : vmNext mm x = some y) :
    (mm.vma x).vmEnd ≤ (mm.vma y).vmStart ∧ (mm.vma y).vmStart < (mm.vma y).vmEnd := by
  obtain ⟨p, r, split⟩ := exists_of_following h
  have sorted := wf.ordered.sorted
  rw [areas, List.pairwise_map, split, List.pairwise_append, List.pairwise_cons] at sorted
  exact ⟨sorted.2.1.1 y List.mem_cons_self, wf.ordered.ranges _ (List.mem_map_of_mem (by simp [split]))⟩

end VmaList
