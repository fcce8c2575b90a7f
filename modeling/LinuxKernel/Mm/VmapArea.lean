/- Areas of kernel virtual addresses: alloc_vmap_area, __insert_vmap_area and the purge of mm/vmalloc.c. -/
import LinuxKernel.Foundation.Align
import LinuxKernel.Lib.RbtreeDescend

namespace VmapArea

open Rbtree PointerTree List Align Function
open Option (bind_some getD_some)

/-- `BITS_PER_LONG` and `PAGE_SHIFT`. -/
structure Config where
  bits : Nat
  pageShift : Nat

structure Area where
  vaStart : Nat
  vaEnd : Nat

/-- The areas with `vmap_area_root` and `vmap_area_list`; of their flags only `VM_LAZY_FREE`. -/
structure Vmap where
  area : Word → Area
  lazyFree : Word → Bool
  root : Heap
  list : List Word

structure Request where
  size : Nat
  align : Nat
  vstart : Nat
  vend : Nat

inductive Errno where
  | ENOMEM
  | EBUSY
  deriving DecidableEq, Repr

/-- The way down in `__insert_vmap_area`; it stops where the source calls `BUG()`. -/
def insertTest (area : Word → Area) (va tmp : Word) : Turn :=
  if (area va).vaStart < (area tmp).vaEnd then .left
  else if (area tmp).vaStart < (area va).vaEnd then .right
  else .stopRight

/-- `__insert_vmap_area`; the number bounds the turns of every loop here and below. -/
def insertVmapArea (n : Nat) (v : Vmap) (va : Word) : Option Vmap :=
  (descend n v.root (insertTest v.area va)).bind fun d =>
    if deref v.root d.link ≠ 0 then none
    else
      (rbInsertColor n (rbLinkNode v.root va d.parent d.link) va).bind fun root =>
        (rbPrev n root va).map fun tmp =>
          { v with root, list := if tmp ≠ 0 then insertAt v.list va (.below tmp .right) else va :: v.list }

/-- `__free_vmap_area`, without the hole that is remembered for the per-cpu allocator. -/
def freeVmapArea (n : Nat) (v : Vmap) (va : Word) : Option Vmap :=
  (rbErase n v.root va).map fun root => { v with root, list := v.list.erase va }

/-- `purge_vmap_area_lazy` for the areas that are marked when it begins. -/
def purgeVmapAreaLazy (n : Nat) (v : Vmap) : Option Vmap :=
  let valist := v.list.filter v.lazyFree
  valist.foldlM (freeVmapArea n) { v with lazyFree := fun va => if va ∈ valist then false else v.lazyFree va }

variable (c : Config)

/-- One turn of the descent to the area where the walk begins; `top` is `addr + size`. -/
def searchTurn (v : Vmap) (addr top : Nat) : Word × Word → (Word × Word) ⊕ Word
  | (node, first) =>
    if node = 0 then .inr first
    else if addr ≤ (v.area node).vaEnd then
      .inl (child v.root node .left, if first = 0 ∧ (v.area node).vaStart < top then node else first)
    else .inl (child v.root node .right, node)

/-- `addr + size - 1 < addr` -/
def Overflow (q : Request) (addr : Nat) : Prop := (addr + q.size - 1) % 2 ^ c.bits < addr

instance (q : Request) (addr : Nat) : Decidable (Overflow c q addr) := inferInstanceAs (Decidable (_ < _))

/-- The walk over the areas; without an address it leaves to `overflow`. -/
def walk (n : Nat) (v : Vmap) (q : Request) : Nat → Nat → Word → Option (Option Nat)
  | 0, _, _ => none
  | m + 1, addr, first =>
    let top := (addr + q.size) % 2 ^ c.bits
    if (v.area first).vaStart < top ∧ top ≤ q.vend then
      let addr := alignUp c.bits ((v.area first).vaEnd + 2 ^ c.pageShift) q.align
      if Overflow c q addr then some none
      else
        (rbNext n v.root first).bind fun node =>
          if node = 0 then some (some addr) else walk n v q m addr node
    else some (some addr)

/-- From `retry` to `found`. -/
def findAddr (n : Nat) (v : Vmap) (q : Request) : Option (Option Nat) :=
  let addr := alignUp c.bits q.vstart q.align
  if Overflow c q addr then some none
  else
    (Loop.run (searchTurn v addr ((addr + q.size) % 2 ^ c.bits)) n (v.root.rbNode, 0)).bind fun first =>
      if first = 0 then some (some addr)
      else if (v.area first).vaEnd < addr then
        (rbNext n v.root first).bind fun node =>
          if node = 0 then some (some addr) else walk c n v q n addr node
      else walk c n v q n addr first

/-- The address with the test at `found`. -/
def tryAddr (n : Nat) (v : Vmap) (q : Request) : Option (Option Nat) :=
  (findAddr c n v q).map fun found => found.filter fun addr => (addr + q.size) % 2 ^ c.bits ≤ q.vend

/-- What follows once there is an address. -/
def useAddr (n : Nat) (v : Vmap) (va : Word) (q : Request) (addr : Nat) : Option (Except Errno Word × Vmap) :=
  if addr &&& (q.align - 1) ≠ 0 then none
  else
    let area := update v.area va ⟨addr, (addr + q.size) % 2 ^ c.bits⟩
    let lazyFree := update v.lazyFree va false
    (insertVmapArea n { v with area, lazyFree } va).map fun v => (.ok va, v)

/-- `alloc_vmap_area`; `va` is what `kmalloc_node` returned. -/
def allocVmapArea (n : Nat) (v : Vmap) (va : Word) (q : Request) : Option (Except Errno Word × Vmap) :=
  if q.size = 0 ∨ q.size % 2 ^ c.pageShift ≠ 0 then none
  else if va = 0 then some (.error .ENOMEM, v)
  else
    (tryAddr c n v q).bind fun
      | some addr => useAddr c n v va q addr
      | none =>
        (purgeVmapAreaLazy n v).bind fun v =>
          (tryAddr c n v q).bind fun
            | some addr => useAddr c n v va q addr
            | none => some (.error .EBUSY, v)

structure Linked (v : Vmap) (l : List Word) : Prop where
  stored : Stored v.root l
  list : v.list = l

structure Areas (area : Word → Area) (l : List Word) : Prop where
  nonempty : ∀ x ∈ l, (area x).vaStart < (area x).vaEnd
  bound : ∀ x ∈ l, (area x).vaEnd < 2 ^ c.bits
  paged : ∀ x ∈ l, 2 ^ c.pageShift ∣ (area x).vaStart ∧ 2 ^ c.pageShift ∣ (area x).vaEnd
  sorted : l.Pairwise fun x y => (area x).vaEnd ≤ (area y).vaStart

/-- A request that `alloc_vmap_area` takes, with `2 ^ k` as its alignment. -/
structure Valid (q : Request) (k : Nat) : Prop where
  align : q.align = 2 ^ k
  small : k ≤ c.bits
  size : 0 < q.size ∧ q.size < 2 ^ c.bits
  paged : 2 ^ c.pageShift ∣ q.size
  ends : q.vstart < q.vend ∧ q.vend < 2 ^ c.bits

/-- The request can have this address: it leaves a page behind every lower area. -/
structure Fits (q : Request) (area : Word → Area) (l : List Word) (a : Nat) : Prop where
  aligned : q.align ∣ a
  above : q.vstart ≤ a
  below : a + q.size ≤ q.vend
  apart : ∀ x ∈ l, (area x).vaEnd + 2 ^ c.pageShift ≤ a ∨ a + q.size ≤ (area x).vaStart

/-- Rounding the address up does not wrap, and the range does not end with the last address. -/
def Room (q : Request) (b : Nat) : Prop :=
  b + (q.align - 1) < 2 ^ c.bits ∧ alignUp c.bits b q.align + q.size ≠ 2 ^ c.bits

/-- The area is in the way of an address that is low enough. -/
structure InWay (q : Request) (area : Word → Area) (a : Nat) (x : Word) : Prop where
  below : a + q.size ≤ q.vend
  low : a ≤ (area x).vaEnd
  hit : (area x).vaStart < a + q.size

/-- The addresses that the search may come to: the first one, and from an address with an area in its way the one
behind that area. -/
inductive Tried (q : Request) (area : Word → Area) (l : List Word) : Nat → Prop where
  | first : Tried q area l (alignUp c.bits q.vstart q.align)
  | behind {a : Nat} {x : Word} (at_ : Tried q area l a) (mem : x ∈ l) (way : InWay q area a x) :
      Tried q area l (alignUp c.bits ((area x).vaEnd + 2 ^ c.pageShift) q.align)

/-- No area ends less than a page below the address. -/
def Clear (area : Word → Area) (l : List Word) (a : Nat) : Prop :=
  ∀ x ∈ l, (area x).vaEnd < a → (area x).vaEnd + 2 ^ c.pageShift ≤ a

/-- There is room wherever the search rounds an address up, and it begins a page behind the lower areas. -/
structure Roomy (q : Request) (area : Word → Area) (l : List Word) : Prop where
  clear : Clear c area l (alignUp c.bits q.vstart q.align)
  start : Room c q q.vstart
  behind : ∀ a x, Tried c q area l a → x ∈ l → InWay q area a x → Room c q ((area x).vaEnd + 2 ^ c.pageShift)

/-- No other address that fits is lower, or none fits. -/
def Lowest (q : Request) (area : Word → Area) (l : List Word) : Option Nat → Prop
  | some a => Fits c q area l a ∧ ∀ b, Fits c q area l b → a ≤ b
  | none => ∀ b, ¬Fits c q area l b

variable {c} {q : Request} {k n m addr : Nat} {v : Vmap} {area : Word → Area} {l p r : List Word} {first : Word}

theorem Areas.sublist (h : Areas c area l) (sub : p.Sublist l) : Areas c area p :=
  ⟨fun x hx => h.nonempty x (sub.subset hx), fun x hx => h.bound x (sub.subset hx),
    fun x hx => h.paged x (sub.subset hx), h.sorted.sublist sub⟩

theorem Areas.clear (ok : Areas c area l) (paged : 2 ^ c.pageShift ∣ addr) : Clear c area l addr := by
  intro x hx lt
  obtain ⟨i, hi⟩ := (ok.paged x hx).2
  obtain ⟨j, hj⟩ := paged
  rw [hi, hj] at lt ⊢
  exact Nat.mul_le_mul_left _ (Nat.lt_of_mul_lt_mul_left lt)

theorem Tried.sublist (sub : p.Sublist l) {a : Nat} (h : Tried c q area p a) : Tried c q area l a := by
  induction h with
  | first => exact .first
  | behind _ mem way ih => exact ih.behind (sub.subset mem) way

theorem Roomy.sublist (h : Roomy c q area l) (sub : p.Sublist l) : Roomy c q area p :=
  ⟨fun x hx => h.clear x (sub.subset hx), h.start,
    fun a x tried mem => h.behind a x (tried.sublist sub) (sub.subset mem)⟩

/-- What holds of each address that the search comes to. -/
structure Reached (c : Config) (q : Request) (area : Word → Area) (l : List Word) (addr : Nat) : Prop where
  tried : Tried c q area l addr
  aligned : q.align ∣ addr
  clear : Clear c area l addr
  above : q.vstart ≤ addr
  least : ∀ b, Fits c q area l b → addr ≤ b
  lt : addr < 2 ^ c.bits
  ne : addr + q.size ≠ 2 ^ c.bits

/-- The search has an address that is the lowest one if it lies low enough, or none fits. -/
def Found (c : Config) (q : Request) (area : Word → Area) (l : List Word) : Option Nat → Prop
  | some a => Reached c q area l a ∧ a + q.size < 2 ^ c.bits ∧ (a + q.size ≤ q.vend → Fits c q area l a)
  | none => ∀ b, ¬Fits c q area l b

theorem reached_alignUp (hq : Valid c q k) {b : Nat} (room : Room c q b)
    (tried : Tried c q area l (alignUp c.bits b q.align)) (above : q.vstart ≤ b)
    (clear : Clear c area l (alignUp c.bits b q.align)) (least : ∀ a, Fits c q area l a → b ≤ a) :
    Reached c q area l (alignUp c.bits b q.align) := by
  obtain ⟨fits, ne⟩ := room
  have aligned := dvd_alignUp c.bits b k
  have up := le_alignUp (hq.align ▸ fits)
  have lt := alignUp_lt c.bits b k
  rw [← hq.align] at aligned up lt
  refine ⟨tried, aligned, clear, le_trans above up, ?_, lt, ne⟩
  intro a ha
  have := ha.below
  have := hq.ends
  have dvd := ha.aligned
  rw [hq.align] at dvd ⊢
  exact alignUp_le hq.small (least a ha) (by omega) dvd

theorem overflow_iff (hq : Valid c q k) (lt : addr < 2 ^ c.bits) :
    Overflow c q addr ↔ 2 ^ c.bits < addr + q.size := by
  have := hq.size
  rw [Overflow]
  by_cases wrap : 2 ^ c.bits ≤ addr + q.size - 1
  · rw [Nat.mod_eq_sub_mod wrap, Nat.mod_eq_of_lt (by omega)]
    omega
  · rw [Nat.mod_eq_of_lt (by omega)]
    omega

namespace Reached

variable (hq : Valid c q k) (h : Reached c q area l addr)
include h

theorem found_none (past : q.vend < addr + q.size) : Found c q area l none := by
  intro b hb
  have := h.least b hb
  have := hb.below
  omega

include hq

theorem found_some (fits : ¬Overflow c q addr) (apart : addr + q.size ≤ q.vend →
      ∀ x ∈ l, (area x).vaEnd + 2 ^ c.pageShift ≤ addr ∨ addr + q.size ≤ (area x).vaStart) :
    Found c q area l (some addr) := by
  rw [overflow_iff hq h.lt] at fits
  have := h.ne
  exact ⟨h, by omega, fun below => ⟨h.aligned, h.above, below, apart below⟩⟩

theorem behind (ok : Areas c area l) (roomy : Roomy c q area l) {x : Word} (hx : x ∈ l) (way : InWay q area addr x)
    (high : q.vstart ≤ (area x).vaEnd + 2 ^ c.pageShift) :
    Reached c q area l (alignUp c.bits ((area x).vaEnd + 2 ^ c.pageShift) q.align) := by
  have room := roomy.behind addr x h.tried hx way
  refine reached_alignUp hq room (h.tried.behind hx way) high (ok.clear ?_) ?_
  · rw [hq.align]
    exact dvd_alignUp_of_dvd hq.small (Nat.dvd_add (ok.paged x hx).2 (Nat.dvd_refl _)) (hq.align ▸ room.1)
  · intro a ha
    have := h.least a ha
    have := way.hit
    rcases ha.apart x hx with below | above
    · exact below
    · omega

/-- The address that the search goes on with behind an area that is not in front of it: another one if the area is in
the way, and the same one if the area was left behind in the rounding. -/
theorem next (ok : Areas c area l) (roomy : Roomy c q area l) {x : Word} (hx : x ∈ l) (below : addr + q.size ≤ q.vend)
    (hit : (area x).vaStart < addr + q.size) (high : q.vstart ≤ (area x).vaEnd + 2 ^ c.pageShift)
    (least : ∀ b < 2 ^ c.bits, q.align ∣ b → (area x).vaEnd + 2 ^ c.pageShift ≤ b → addr ≤ b) :
    Reached c q area l (alignUp c.bits ((area x).vaEnd + 2 ^ c.pageShift) q.align) ∧
      (area x).vaEnd + 2 ^ c.pageShift ≤ alignUp c.bits ((area x).vaEnd + 2 ^ c.pageShift) q.align := by
  by_cases low : addr ≤ (area x).vaEnd
  · have way : InWay q area addr x := ⟨below, low, hit⟩
    refine ⟨h.behind hq ok roomy hx way high, ?_⟩
    have room := (roomy.behind addr x h.tried hx way).1
    rw [hq.align] at room ⊢
    exact le_alignUp room
  · have passed := h.clear x hx (not_le.mp low)
    have aligned := h.aligned
    have dvd := dvd_alignUp c.bits ((area x).vaEnd + 2 ^ c.pageShift) k
    have lt := alignUp_lt c.bits ((area x).vaEnd + 2 ^ c.pageShift) k
    rw [hq.align] at aligned least ⊢
    have up := le_alignUp (add_lt_of_dvd hq.small passed h.lt aligned)
    have same := le_antisymm (alignUp_le hq.small passed h.lt aligned) (least _ lt dvd up)
    rw [same]
    exact ⟨h, passed⟩

end Reached

theorem walk_spec (hq : Valid c q k) (stored : Stored v.root l) (ok : Areas c v.area l) (roomy : Roomy c q v.area l)
    (hn : l.length < n) (split : l = p ++ first :: r) (hm : r.length < m) (h : Reached c q v.area l addr)
    (fits : ¬Overflow c q addr) (high : q.vstart ≤ (v.area first).vaEnd)
    (least : ∀ b < 2 ^ c.bits, q.align ∣ b → (v.area first).vaEnd + 2 ^ c.pageShift ≤ b → addr ≤ b)
    (low : (∀ x ∈ p, (v.area x).vaEnd + 2 ^ c.pageShift ≤ addr) ∨ (v.area first).vaStart < addr + q.size) :
    ∃ found, walk c n v q m addr first = some found ∧ Found c q v.area l found := by
  induction m generalizing p first r addr with
  | zero => omega
  | succ m ih =>
    have mem : first ∈ l := by simp [split]
    have wraps := (overflow_iff hq h.lt).not.mp fits
    have ne := h.ne
    have sorted := ok.sorted
    rw [split, pairwise_append, pairwise_cons] at sorted
    obtain ⟨-, ⟨after, -⟩, before⟩ := sorted
    have nonempty := ok.nonempty first mem
    rw [walk]
    simp only [Nat.mod_eq_of_lt (by omega : addr + q.size < 2 ^ c.bits)]
    by_cases hit : (v.area first).vaStart < addr + q.size ∧ addr + q.size ≤ q.vend
    · -- the area is in the way, and the search goes on behind it
      rw [if_pos hit]
      obtain ⟨next, up⟩ := h.next hq ok roomy mem hit.2 hit.1 (Nat.le_add_right_of_le high) least
      have least' : ∀ b < 2 ^ c.bits, q.align ∣ b → (v.area first).vaEnd + 2 ^ c.pageShift ≤ b →
          alignUp c.bits ((v.area first).vaEnd + 2 ^ c.pageShift) q.align ≤ b := by
        intro b lt dvd le
        rw [hq.align] at dvd ⊢
        exact alignUp_le hq.small le lt dvd
      generalize alignUp c.bits ((v.area first).vaEnd + 2 ^ c.pageShift) q.align = addr' at next up least'
      have passed : ∀ x ∈ p ++ [first], (v.area x).vaEnd + 2 ^ c.pageShift ≤ addr' := by
        intro x hx
        rcases mem_append.mp hx with hx | hx
        · have := before x hx first mem_cons_self
          omega
        · rw [mem_singleton.mp hx]
          exact up
      by_cases past : Overflow c q addr'
      · have := (overflow_iff hq next.lt).mp past
        have := hq.ends
        exact ⟨none, if_pos past, next.found_none (by omega)⟩
      rw [if_neg past, (neighbour_spec (split ▸ stored) (split ▸ hn)).1, bind_some]
      cases r with
      | nil => exact ⟨_, if_pos rfl, next.found_some hq past fun _ x hx => .inl (passed x (split ▸ hx))⟩
      | cons y r =>
        have ynz : y ≠ 0 := stored.ne_zero (by simp [split])
        have := after y mem_cons_self
        have := ok.nonempty y (by simp [split])
        have split' : l = (p ++ [first]) ++ y :: r := by
          rw [split, append_assoc, singleton_append]
        rw [List.head?_cons, getD_some, if_neg ynz]
        exact ih split' (by simpa using hm) next past (by omega) (fun b lt dvd le => least' b lt dvd (by omega))
          (.inl passed)
    · -- if the range ends low enough, it lies in front of this area and so behind all before it
      refine ⟨_, if_neg hit, h.found_some hq fits fun below x hx => ?_⟩
      have clear : addr + q.size ≤ (v.area first).vaStart := by omega
      rw [split] at hx
      rcases mem_append.mp hx with hx | hx
      · exact .inl (low.resolve_right (by omega) x hx)
      · rcases mem_cons.mp hx with rfl | hx
        · exact .inr clear
        · have := after x hx
          exact .inr (by omega)

/-- The area that the descent keeps: the last one below the address, or, with none below, an area that is hit. -/
inductive Start (area : Word → Area) (top : Nat) : List Word → List Word → Word → Prop where
  | last (lo hi : List Word) (x : Word) : Start area top (lo ++ [x]) hi x
  | free (hi : List Word) (clear : ∀ x, hi.head? = some x → top ≤ (area x).vaStart) : Start area top [] hi 0
  | hit (hi : List Word) (x : Word) (mem : x ∈ hi) (meets : (area x).vaStart < top) : Start area top [] hi x

/-- The subtree that is left lies between areas that end below the address and others. -/
def Between (v : Vmap) (l : List Word) (addr top k : Nat) (w : Word × Word) : Prop :=
  ∃ (ctx : RbCtx) (t : RbTree), RbZip v.root ctx t ∧ l = ctx.before ++ t.inorder ++ ctx.behind ∧
    k = t.inorder.length ∧ w.1 = t.ptr ∧ (∀ x ∈ ctx.before, (v.area x).vaEnd < addr) ∧
    (∀ x ∈ ctx.behind, addr ≤ (v.area x).vaEnd) ∧ Start v.area top ctx.before ctx.behind w.2

theorem Start.left {top : Nat} {lo hi rest : List Word} {x : Word} (h : Start area top lo hi first)
    (ne : ∀ y ∈ lo ++ hi, y ≠ 0) :
    Start area top lo (x :: rest ++ hi) (if first = 0 ∧ (area x).vaStart < top then x else first) := by
  cases h with
  | last lo hi =>
    rw [if_neg fun both => ne first (by simp) both.1]
    exact .last lo _ first
  | free hi clear =>
    by_cases meets : (area x).vaStart < top
    · rw [if_pos ⟨rfl, meets⟩]
      exact .hit _ x (by simp) meets
    · rw [if_neg fun both => meets both.2]
      refine .free _ fun y hy => ?_
      obtain rfl : x = y := by simpa using hy
      exact Nat.le_of_not_lt meets
  | hit hi _ mem meets =>
    rw [if_neg fun both => ne first (by simpa using mem) both.1]
    exact .hit _ first (by simp [mem]) meets

theorem Between.turn {top : Nat} {w : Word × Word} (stored : Stored v.root l) (ok : Areas c v.area l)
    (h : Between v l addr top k w) : (∃ j w', searchTurn v addr top w = .inl w' ∧ j < k ∧ Between v l addr top j w') ∨
      ∃ first, searchTurn v addr top w = .inr first ∧ ∃ lo hi, l = lo ++ hi ∧ (∀ x ∈ lo, (v.area x).vaEnd < addr) ∧
        (∀ x ∈ hi, addr ≤ (v.area x).vaEnd) ∧ Start v.area top lo hi first := by
  obtain ⟨node, first⟩ := w
  obtain ⟨ctx, t, zip, parts, rfl, rfl, low, high, start⟩ := h
  cases t with
  | nil =>
    rw [Tree.inorder, append_nil] at parts
    exact .inr ⟨first, by rw [searchTurn, Tree.ptr, if_pos rfl], _, _, parts, low, high, start⟩
  | node a x col b =>
    have sorted := ok.sorted
    rw [parts, Tree.inorder, pairwise_append, pairwise_append, pairwise_append, pairwise_cons] at sorted
    obtain ⟨⟨-, ⟨-, ⟨after, -⟩, before⟩, -⟩, -⟩ := sorted
    have mem : ∀ y ∈ a.inorder ++ x :: b.inorder, y ∈ l := by
      intro y hy
      rw [parts, Tree.inorder]
      simp only [mem_append] at hy ⊢
      exact .inl (.inr hy)
    have nonempty := ok.nonempty x (mem x (by simp))
    refine .inl ?_
    rw [searchTurn, Tree.ptr, if_neg (RbZip.top_ne_zero (d := .left) zip)]
    by_cases above : addr ≤ (v.area x).vaEnd
    · -- the areas to the right end above the address as well
      rw [if_pos above, RbZip.top_child zip]
      refine ⟨a.inorder.length, _, rfl, by simp [Tree.inorder], ⟨.left, x, col, b⟩ :: ctx, a,
        (rbZip_mk .left).mp zip, by simp [parts, Tree.inorder, Ctx.before, Ctx.behind], rfl, rfl, low, ?_, ?_⟩
      · intro y hy
        rcases mem_append.mp hy with hy | hy
        · rcases mem_cons.mp hy with rfl | hy
          · exact above
          · have := after y hy
            have := ok.nonempty y (mem y (by simp [hy]))
            omega
        · exact high y hy
      · refine start.left fun y hy => stored.ne_zero ?_
        rw [parts]
        simp only [mem_append] at hy ⊢
        exact hy.imp_left .inl
    · rw [if_neg above, show child v.root x .right = b.ptr from RbZip.top_child_flip (d := .left) zip]
      refine ⟨b.inorder.length, _, rfl, by simp [Tree.inorder]; omega, ⟨.right, x, col, a⟩ :: ctx, b,
        (rbZip_mk .right).mp zip, by simp [parts, Tree.inorder, Ctx.before, Ctx.behind], rfl, rfl, ?_, high, ?_⟩
      · intro y hy
        simp only [Ctx.before, mem_append, mem_singleton] at hy
        rcases hy with hy | hy | rfl
        · exact low y hy
        · have := before y hy x mem_cons_self
          omega
        · exact Nat.lt_of_not_le above
      · rw [Ctx.before, ← append_assoc]
        exact .last _ _ x

theorem findAddr_spec (hq : Valid c q k) (stored : Stored v.root l) (ok : Areas c v.area l)
    (roomy : Roomy c q v.area l) (hn : l.length < n) :
    ∃ found, findAddr c n v q = some found ∧ Found c q v.area l found := by
  have h : Reached c q v.area l (alignUp c.bits q.vstart q.align) :=
    reached_alignUp hq roomy.start .first le_rfl roomy.clear fun a ha => ha.above
  rw [findAddr]
  generalize alignUp c.bits q.vstart q.align = addr at h
  by_cases past : Overflow c q addr
  · have := (overflow_iff hq h.lt).mp past
    have := hq.ends
    exact ⟨none, if_pos past, h.found_none (by omega)⟩
  have wraps := (overflow_iff hq h.lt).not.mp past
  have ne := h.ne
  have above := h.above
  rw [if_neg past, Nat.mod_eq_of_lt (by omega : addr + q.size < 2 ^ c.bits)]
  obtain ⟨t, zip, -, order⟩ := id stored
  have begin : Between v l addr (addr + q.size) l.length (v.root.rbNode, 0) :=
    ⟨[], t, zip, by simp [Ctx.before, Ctx.behind, order], by rw [order], zip.zip.around, nofun, nofun, .free _ nofun⟩
  obtain ⟨first, run, lo, hi, rfl, low, high, start⟩ :=
    Loop.run_total _ _ _ (fun k w h => Between.turn stored ok h) begin hn
  rw [run, bind_some]
  have passed : ∀ x ∈ lo, (v.area x).vaEnd + 2 ^ c.pageShift ≤ addr :=
    fun x hx => h.clear x (mem_append_left _ hx) (low x hx)
  cases start with
  | last lo hi =>
    have nz : first ≠ 0 := stored.ne_zero (by simp)
    rw [append_assoc, singleton_append] at stored hn
    rw [if_neg nz, if_pos (low first (by simp)), (neighbour_spec stored hn).1, bind_some]
    cases hi with
    | nil => exact ⟨_, if_pos rfl, h.found_some hq past fun _ x hx => .inl (passed x (by simpa using hx))⟩
    | cons y r =>
      have := high y mem_cons_self
      have ynz : y ≠ 0 := stored.ne_zero (by simp)
      rw [List.head?_cons, getD_some, if_neg ynz]
      rw [← singleton_append, ← append_assoc] at stored hn
      exact walk_spec hq stored ok roomy hn rfl (by simp at hn; omega) h past (by omega)
        (fun _ _ _ le => this.trans (Nat.le_of_add_right_le le)) (.inl passed)
  | free hi clear =>
    refine ⟨_, if_pos rfl, h.found_some hq past fun _ x hx => .inr ?_⟩
    cases hi with
    | nil => cases hx
    | cons y r =>
      have free := clear y rfl
      rcases mem_cons.mp hx with rfl | later
      · exact free
      · have := (pairwise_cons.mp ok.sorted).1 x later
        have := ok.nonempty y mem_cons_self
        omega
  | hit hi _ mem meets =>
    -- lower areas may be hit too, but any address behind one of them still meets this area
    have nz : first ≠ 0 := stored.ne_zero (by simpa using mem)
    have := high first mem
    rw [if_neg nz, if_neg (by omega)]
    obtain ⟨p, r, rfl⟩ := append_of_mem mem
    exact walk_spec hq stored ok roomy hn rfl (by simp at hn; omega) h past (by omega)
      (fun _ _ _ le => this.trans (Nat.le_of_add_right_le le)) (.inr meets)

theorem tryAddr_spec (hq : Valid c q k) (linked : Linked v l) (ok : Areas c v.area l) (roomy : Roomy c q v.area l)
    (hn : l.length < n) : ∃ found, tryAddr c n v q = some found ∧ Lowest c q v.area l found := by
  obtain ⟨found, run, h⟩ := findAddr_spec hq linked.stored ok roomy hn
  rw [tryAddr, run, Option.map_some]
  cases found with
  | none => exact ⟨none, rfl, h⟩
  | some a =>
    obtain ⟨reached, lt, fits⟩ := h
    rw [Option.filter_some, Nat.mod_eq_of_lt lt]
    by_cases below : a + q.size ≤ q.vend
    · rw [if_pos (decide_eq_true below)]
      exact ⟨_, rfl, fits below, reached.least⟩
    · rw [if_neg (by simpa using below)]
      exact ⟨_, rfl, reached.found_none (by omega)⟩

theorem Fits.cut (ok : Areas c area l) {a : Nat} (h : Fits c q area l a) :
    ∃ lo hi, l = lo ++ hi ∧ (∀ x ∈ lo, (area x).vaEnd + 2 ^ c.pageShift ≤ a) ∧
      ∀ x ∈ hi, a + q.size ≤ (area x).vaStart := by
  induction l with
  | nil => exact ⟨[], [], rfl, nofun, nofun⟩
  | cons x l ih =>
    rcases h.apart x mem_cons_self with below | above
    · obtain ⟨lo, hi, rfl, low, high⟩ := ih (ok.sublist (sublist_cons_self x l))
        ⟨h.aligned, h.above, h.below, fun y hy => h.apart y (mem_cons_of_mem x hy)⟩
      exact ⟨x :: lo, hi, rfl, forall_mem_cons.mpr ⟨below, low⟩, high⟩
    · refine ⟨[], x :: l, rfl, nofun, forall_mem_cons.mpr ⟨above, fun y hy => ?_⟩⟩
      have := ok.nonempty x mem_cons_self
      have := (pairwise_cons.mp ok.sorted).1 y hy
      omega

variable {va : Word}

theorem insertVmapArea_spec {lo hi : List Word} (linked : Linked v (lo ++ hi)) (hn : (lo ++ hi).length + 1 < n)
    (hva : va ≠ 0) (aligned : Aligned va) (fresh : va ∉ lo ++ hi)
    (low : ∀ x ∈ lo, (v.area x).vaEnd ≤ (v.area va).vaStart ∧ (v.area x).vaStart < (v.area va).vaEnd)
    (high : ∀ x ∈ hi, (v.area va).vaStart < (v.area x).vaEnd) :
    ∃ root list, insertVmapArea n v va = some { v with root, list } ∧
      Linked { v with root, list } (lo ++ va :: hi) := by
  have cuts : Cuts (insertTest v.area va) lo hi := by
    constructor
    · intro x hx
      have := low x hx
      rw [insertTest, if_neg (by omega), if_pos this.2]
      exact .inl rfl
    · intro x hx
      rw [insertTest, if_pos (high x hx)]
      exact .inl rfl
  obtain ⟨d, run, ends⟩ := descend_spec linked.stored cuts (by omega : (lo ++ hi).length < n)
  have place : EmptyAt v.root (lo ++ hi) d.parent d.link ∧ ∀ y, insertAt (lo ++ hi) y d.link = lo ++ y :: hi := by
    cases ends with
    | first stop head =>
      have := high d.next (mem_of_mem_head? head)
      rw [insertTest, if_pos this] at stop
      cases stop
    | last stop last =>
      have := low d.prev (mem_of_mem_getLast? last)
      rw [insertTest, if_neg (by omega), if_pos this.2] at stop
      cases stop
    | place _ _ empty at_ => exact ⟨empty, at_⟩
  obtain ⟨root, insert, stored⟩ := rbInsert_spec linked.stored hva aligned fresh place.1 (by omega : _ < n)
  rw [place.2] at stored
  have short : (lo ++ va :: hi).length < n := by
    simp only [length_append] at hn ⊢
    omega
  rw [insertVmapArea, run, bind_some, if_neg (not_not.mpr place.1.deref), insert, bind_some,
    (neighbour_spec stored short).2, linked.list]
  refine ⟨root, _, rfl, stored, ?_⟩
  rcases eq_nil_or_concat' lo with rfl | ⟨lo, y, rfl⟩
  · rfl
  have nodup := linked.stored.nodup
  rw [append_assoc] at nodup
  have out := (nodup_cons.mp (nodup_middle.mp nodup)).1
  rw [mem_append, not_or] at out
  have ynz : y ≠ 0 := linked.stored.ne_zero (by simp)
  rw [List.getLast?_concat, getD_some, if_pos ynz, append_assoc]
  exact (flatMap_middle out.1 out.2 fun q => [q, va]).trans (by simp)

theorem freeVmapArea_all {d : List Word} (linked : Linked v l) (sub : ∀ x ∈ d, x ∈ l) (nodup : d.Nodup)
    (hn : 2 * l.length + 1 < n) :
    ∃ v', d.foldlM (freeVmapArea n) v = some v' ∧ Linked v' (l.diff d) ∧ v'.area = v.area := by
  induction d generalizing v l with
  | nil => exact ⟨v, rfl, linked, rfl⟩
  | cons x d ih =>
    obtain ⟨out, nodup⟩ := nodup_cons.mp nodup
    have mem := sub x mem_cons_self
    obtain ⟨root, erase, stored⟩ := rbErase_spec linked.stored mem hn
    have freed : freeVmapArea n v x = some { v with root, list := l.erase x } := by
      rw [freeVmapArea, erase, linked.list, Option.map_some]
    have short := length_erase_le (a := x) (l := l)
    rw [foldlM_cons, freed, diff_cons]
    refine ih ⟨stored, rfl⟩ (fun y hy => ?_) nodup (by omega)
    have ne : y ≠ x := by
      rintro rfl
      exact out hy
    exact (mem_erase_of_ne ne).mpr (sub y (mem_cons_of_mem x hy))

def kept (v : Vmap) (l : List Word) : List Word := l.filter fun x => !v.lazyFree x

theorem purgeVmapAreaLazy_spec (linked : Linked v l) (hn : 2 * l.length + 1 < n) :
    ∃ v', purgeVmapAreaLazy n v = some v' ∧ Linked v' (kept v l) ∧ v'.area = v.area := by
  have nodup := linked.stored.nodup
  obtain ⟨v', run, linked', same⟩ := freeVmapArea_all
    (v := { v with lazyFree := fun va => if va ∈ l.filter v.lazyFree then false else v.lazyFree va })
    ⟨linked.stored, linked.list⟩ (fun x hx => mem_of_mem_filter hx) (nodup.filter _) hn
  rw [← linked.list] at run
  refine ⟨v', run, ?_, same⟩
  rw [nodup.sdiff_eq_filter] at linked'
  convert linked' using 1
  refine filter_congr fun x hx => ?_
  simp [hx]

theorem update_of_fresh (area : Word → Area) {x : Word} (fresh : va ∉ l) (range : Area) (hx : x ∈ l) :
    update area va range x = area x := by
  refine update_of_ne ?_ _ _
  rintro rfl
  exact fresh hx

theorem Areas.insert {lo hi : List Word} {a size : Nat} (ok : Areas c area (lo ++ hi)) (fresh : va ∉ lo ++ hi)
    (pos : 0 < size) (lt : a + size < 2 ^ c.bits) (paged : 2 ^ c.pageShift ∣ a ∧ 2 ^ c.pageShift ∣ a + size)
    (low : ∀ x ∈ lo, (area x).vaEnd ≤ a) (high : ∀ x ∈ hi, a + size ≤ (area x).vaStart) :
    Areas c (update area va ⟨a, a + size⟩) (lo ++ va :: hi) := by
  have others := fun x (hx : x ∈ lo ++ hi) => update_of_fresh area fresh ⟨a, a + size⟩ hx
  have cases_ : ∀ x ∈ lo ++ va :: hi, x = va ∨ x ∈ lo ++ hi := by
    intro x hx
    simp only [mem_append, mem_cons] at hx ⊢
    tauto
  have sorted : (lo ++ hi).Pairwise fun x y => (update area va ⟨a, a + size⟩ x).vaEnd ≤
      (update area va ⟨a, a + size⟩ y).vaStart := by
    refine ok.sorted.imp_of_mem fun hx hy le => ?_
    rwa [others _ hx, others _ hy]
  rw [pairwise_append] at sorted
  refine ⟨?_, ?_, ?_, pairwise_append.mpr ⟨sorted.1, pairwise_cons.mpr ⟨?_, sorted.2.1⟩, ?_⟩⟩
  · intro x hx
    rcases cases_ x hx with rfl | hx
    · simpa using pos
    · simpa [others x hx] using ok.nonempty x hx
  · intro x hx
    rcases cases_ x hx with rfl | hx
    · simpa using lt
    · simpa [others x hx] using ok.bound x hx
  · intro x hx
    rcases cases_ x hx with rfl | hx
    · simpa using paged
    · simpa [others x hx] using ok.paged x hx
  · intro y hy
    rw [others y (mem_append_right lo hy), update_self]
    exact high y hy
  · intro x hx y hy
    rcases mem_cons.mp hy with rfl | hy
    · rw [others x (mem_append_left hi hx), update_self]
      exact low x hx
    · exact sorted.2.2 x hx y hy

theorem useAddr_spec (hq : Valid c q k) (linked : Linked v l) (ok : Areas c v.area l) (hn : l.length + 1 < n)
    (hva : va ≠ 0) (aligned : Aligned va) (fresh : va ∉ l) {a : Nat} (fits : Fits c q v.area l a) :
    ∃ v' lo hi, useAddr c n v va q a = some (.ok va, v') ∧ l = lo ++ hi ∧ v'.area = update v.area va ⟨a, a + q.size⟩ ∧
      Linked v' (lo ++ va :: hi) ∧ (2 ^ c.pageShift ∣ a → Areas c v'.area (lo ++ va :: hi)) := by
  have lt : a + q.size < 2 ^ c.bits := lt_of_le_of_lt fits.below hq.ends.2
  have mask : a &&& (q.align - 1) = 0 := by
    rw [hq.align, Nat.and_two_pow_sub_one_eq_mod, ← hq.align]
    exact Nat.mod_eq_zero_of_dvd fits.aligned
  have pos := hq.size.1
  obtain ⟨lo, hi, rfl, low, high⟩ := fits.cut ok
  have low' : ∀ x ∈ lo, (v.area x).vaEnd ≤ a := fun x hx => le_trans (Nat.le_add_right _ _) (low x hx)
  have ok' := fun paged => ok.insert fresh pos lt ⟨paged, Nat.dvd_add paged hq.paged⟩ low' high
  have others := fun x (hx : x ∈ lo ++ hi) => update_of_fresh v.area fresh ⟨a, a + q.size⟩ hx
  generalize new : update v.area va ⟨a, a + q.size⟩ = area at others ok'
  have self : area va = ⟨a, a + q.size⟩ := by rw [← new, update_self]
  have below : ∀ x ∈ lo, (area x).vaEnd ≤ (area va).vaStart ∧ (area x).vaStart < (area va).vaEnd := by
    intro x hx
    have := low' x hx
    have := ok.nonempty x (mem_append_left hi hx)
    rw [others x (mem_append_left hi hx), self]
    exact ⟨low' x hx, (by omega : (v.area x).vaStart < a + q.size)⟩
  have above : ∀ x ∈ hi, (area va).vaStart < (area x).vaEnd := by
    intro x hx
    have := high x hx
    have := ok.nonempty x (mem_append_right lo hx)
    rw [others x (mem_append_right lo hx), self]
    exact (by omega : a < (v.area x).vaEnd)
  obtain ⟨root, list, run, linked'⟩ := insertVmapArea_spec
    (v := { v with area, lazyFree := update v.lazyFree va false }) ⟨linked.stored, linked.list⟩ hn hva aligned
    fresh below above
  refine ⟨_, lo, hi, ?_, rfl, rfl, linked', ok'⟩
  rw [useAddr, if_neg (not_not.mpr mask), Nat.mod_eq_of_lt lt, new]
  exact congrArg (Option.map _) run

/-- What `alloc_vmap_area` leaves: a new area at the lowest address among those there are or those that a purge
leaves, or an error and no address that would do. -/
def Outcome (c : Config) (q : Request) (v : Vmap) (l : List Word) (va : Word) : Except Errno Word → Vmap → Prop
  | .ok x, v' => x = va ∧ ∃ a lo hi, (lo ++ hi = l ∨ lo ++ hi = kept v l) ∧ Lowest c q v.area (lo ++ hi) (some a) ∧
      v'.area = update v.area va ⟨a, a + q.size⟩ ∧ Linked v' (lo ++ va :: hi) ∧
      (2 ^ c.pageShift ∣ a → Areas c v'.area (lo ++ va :: hi))
  | .error .ENOMEM, v' => va = 0 ∧ v' = v
  | .error .EBUSY, v' => Lowest c q v.area (kept v l) none ∧ Linked v' (kept v l) ∧ v'.area = v.area

/-- Sixteen pages, of which the first is left out, for an area of one page at a multiple of two pages. -/
def onePage : Request := ⟨4096, 8192, 4096, 65536⟩

def lastPages : Area := ⟨2 ^ 64 - 8192, 2 ^ 64 - 4096⟩

def unused : Vmap := ⟨fun _ => ⟨0, 0⟩, fun _ => false, ⟨fun _ => ⟨0, 0, 0⟩, 0⟩, []⟩

end VmapArea
