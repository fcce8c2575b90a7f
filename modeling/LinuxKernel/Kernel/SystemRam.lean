/- `walk_system_ram_range` of kernel/resource.c: a callback for the whole pages of system RAM in a range. -/
import LinuxKernel.Kernel.ResourceTree

namespace Resource

open List

variable {ρ : Type}

/-- The tree below `iomem_resource`, which of its resources have the flags and the name of system RAM, the width of an
address, and `PAGE_SHIFT`. -/
structure Iomem (ρ : Type) extends State ρ where
  root : ρ
  ram : ρ → Bool
  bits : Nat
  shift : Nat

/-- `find_next_system_ram` from one child on: the part of the next resource that lies in the range. -/
def findNextSystemRam (m : Iomem ρ) (start stop : Nat) : List ρ → Option (Nat × Nat)
  | [] => none
  | p :: sibling =>
    let r := m.range p
    if !m.ram p then findNextSystemRam m start stop sibling
    else if stop < r.start then none
    else if start ≤ r.stop ∧ r.start < stop then
      some (if start < r.start then r.start else start, if r.stop < stop then r.stop else stop)
    else findNextSystemRam m start stop sibling

/-- The loop of `walk_system_ram_range`: `res.start`, `ret` and the calls of `func` so far. -/
structure RamWalk where
  start : Nat
  ret : Int
  calls : List (Nat × Nat)

def walkTurn (m : Iomem ρ) (func : Nat → Nat → Int) (origEnd : Nat) (w : RamWalk) :
    RamWalk ⊕ Int × List (Nat × Nat) :=
  if w.start < origEnd then
    match findNextSystemRam m w.start origEnd (m.child m.root) with
    | none => .inr (w.ret, w.calls)
    | some (start, stop) =>
      let pfn := (start + (2 ^ m.shift - 1)) % 2 ^ m.bits / 2 ^ m.shift
      let endPfn := (stop + 1) % 2 ^ m.bits / 2 ^ m.shift
      let ret := if pfn < endPfn then func pfn (endPfn - pfn) else w.ret
      let calls := if pfn < endPfn then w.calls ++ [(pfn, endPfn - pfn)] else w.calls
      if ret ≠ 0 then .inr (ret, calls) else .inl ⟨(stop + 1) % 2 ^ m.bits, ret, calls⟩
  else .inr (w.ret, w.calls)

/-- `walk_system_ram_range` with a bound on the turns: what it returns and the calls. -/
def walkSystemRamRange (n : Nat) (m : Iomem ρ) (func : Nat → Nat → Int) (startPfn nrPages : Nat) :
    Option (Int × List (Nat × Nat)) :=
  let origEnd := ((startPfn + nrPages) % 2 ^ m.bits * 2 ^ m.shift + (2 ^ m.bits - 1)) % 2 ^ m.bits
  Loop.run (walkTurn m func origEnd) n ⟨startPfn * 2 ^ m.shift % 2 ^ m.bits, -1, []⟩

variable {m : Iomem ρ}

/-- What is found in a chain: the resources before it end before the start. -/
def Finds (m : Iomem ρ) (start stop : Nat) (l : List ρ) : Prop :=
  (findNextSystemRam m start stop l = none ∧ ∀ q ∈ l, m.ram q → (m.range q).stop < start ∨ stop ≤ (m.range q).start) ∨
  ∃ p ∈ l, m.ram p ∧ start ≤ (m.range p).stop ∧ (m.range p).start < stop ∧
    findNextSystemRam m start stop l = some (max start (m.range p).start, min stop (m.range p).stop) ∧
    ∀ q ∈ l, m.ram q → (m.range q).stop < start ∨ q = p ∨ (m.range p).stop < (m.range q).start

theorem findNextSystemRam_finds {start stop : Nat} {l : List ρ}
    (ordered : ∀ p ∈ l, (m.range p).start ≤ (m.range p).stop)
    (sorted : l.Pairwise fun p q => (m.range p).stop < (m.range q).start) : Finds m start stop l := by
  induction l with
  | nil => exact .inl ⟨rfl, by simp⟩
  | cons p l ih =>
    obtain ⟨first, ordered⟩ := forall_mem_cons.mp ordered
    obtain ⟨after, sorted⟩ := pairwise_cons.mp sorted
    have skip (pass : m.ram p → (m.range p).stop < start ∨ stop ≤ (m.range p).start)
        (eq : findNextSystemRam m start stop (p :: l) = findNextSystemRam m start stop l) :
          Finds m start stop (p :: l) := by
      rcases ih ordered sorted with ⟨none, rest⟩ | ⟨q, mem, isRam, reach, begins, found, rest⟩
      · exact .inl ⟨eq.trans none, forall_mem_cons.mpr ⟨pass, rest⟩⟩
      refine .inr ⟨q, mem_cons_of_mem p mem, isRam, reach, begins, eq.trans found,
        forall_mem_cons.mpr ⟨fun is => ?_, rest⟩⟩
      have := after q mem
      have := pass is
      omega
    cases is : m.ram p with
    | false => exact skip (by simp [is]) (by simp [findNextSystemRam, is])
    | true =>
      by_cases behind : stop < (m.range p).start
      · refine .inl ⟨by simp [findNextSystemRam, is, behind],
          forall_mem_cons.mpr ⟨fun _ => by omega, fun q mem _ => ?_⟩⟩
        have := after q mem
        omega
      by_cases inside : start ≤ (m.range p).stop ∧ (m.range p).start < stop
      · refine .inr ⟨p, mem_cons_self, is, inside.1, inside.2, ?_, forall_mem_cons.mpr
          ⟨fun _ => .inr (.inl rfl), fun q mem _ => .inr (.inr (after q mem))⟩⟩
        simp only [findNextSystemRam, is, behind, inside, Bool.not_true, Bool.false_eq_true, and_self,
          if_false, if_true]
        congr 2 <;> split_ifs <;> omega
      · exact skip (fun _ => by omega) (by simp [findNextSystemRam, behind, inside])

section Walk

variable (m : Iomem ρ) (first last : Nat)

/-- A page of the range from `first` up to `last` that lies in one system RAM. -/
def PageOf (p : ρ) (page : Nat) : Prop :=
  first ≤ page ∧ page < last ∧ (m.range p).start ≤ page * 2 ^ m.shift ∧
    page * 2 ^ m.shift + 2 ^ m.shift ≤ (m.range p).stop + 1

def RamPage (page : Nat) : Prop := ∃ p ∈ m.child m.root, m.ram p ∧ PageOf m first last p page

/-- A system RAM that reaches into the range. -/
structure InRange (p : ρ) : Prop where
  mem : p ∈ m.child m.root
  ram : m.ram p
  low : first * 2 ^ m.shift ≤ (m.range p).stop
  high : (m.range p).start < last * 2 ^ m.shift - 1

/-- The first of them. -/
structure FirstRam (p : ρ) : Prop extends InRange m first last p where
  lowest : ∀ q ∈ m.child m.root, m.ram q →
    (m.range q).stop < first * 2 ^ m.shift ∨ (m.range p).start ≤ (m.range q).start

/-- The first system RAM that reaches into the range has a page of it, unless none has. -/
def FirstWhole : Prop :=
  ∀ p, FirstRam m first last p → (∃ page, PageOf m first last p page) ∨ ∀ page, ¬RamPage m first last page

/-- Neither the end of the part in the range plus one nor its start rounded up to a page is the end of the address
space. -/
def Inner (p : ρ) : Prop :=
  min (last * 2 ^ m.shift) ((m.range p).stop + 1) < 2 ^ m.bits ∧
    max (first * 2 ^ m.shift) (m.range p).start + (2 ^ m.shift - 1) < 2 ^ m.bits

def Called (calls : List (Nat × Nat)) (page : Nat) : Prop := ∃ c ∈ calls, c.1 ≤ page ∧ page < c.1 + c.2

/-- The pages in front of the position are done. The position is the start, the end, or splits no system RAM. -/
structure Walked (w : RamWalk) : Prop where
  between : w.start = first * 2 ^ m.shift ∨ last * 2 ^ m.shift ≤ w.start ∨
    ∀ q ∈ m.child m.root, m.ram q → (m.range q).stop < w.start ∨ w.start ≤ (m.range q).start
  low : first * 2 ^ m.shift ≤ w.start
  called : ∀ page, Called w.calls page ↔ RamPage m first last page ∧ page * 2 ^ m.shift + 2 ^ m.shift ≤ w.start
  ascending : w.calls.Pairwise fun c d => c.1 + c.2 ≤ d.1
  done : ∀ c ∈ w.calls, (c.1 + c.2) * 2 ^ m.shift ≤ w.start
  ret : (w.ret = 0 ∧ ∃ page, RamPage m first last page) ∨ w = ⟨first * 2 ^ m.shift, -1, []⟩

structure Visits (calls : List (Nat × Nat)) : Prop where
  called : ∀ page, Called calls page ↔ RamPage m first last page
  ascending : calls.Pairwise fun c d => c.1 + c.2 ≤ d.1

structure Pages : Prop where
  le : first ≤ last
  pos : 0 < last
  shift : 0 < m.shift
  starts : first * 2 ^ m.shift < 2 ^ m.bits
  fits : last * 2 ^ m.shift ≤ 2 ^ m.bits

end Walk

theorem Pages.two_le {m : Iomem ρ} {first last : Nat} (pages : Pages m first last) : 2 ≤ 2 ^ m.shift :=
  Nat.le_self_pow pages.shift.ne' 2

/-- The last address of the range does not wrap. -/
theorem Pages.end_eq {m : Iomem ρ} {first last : Nat} (pages : Pages m first last) :
    (last % 2 ^ m.bits * 2 ^ m.shift + (2 ^ m.bits - 1)) % 2 ^ m.bits = last * 2 ^ m.shift - 1 := by
  have pos := pages.pos
  have fits := pages.fits
  have range := Nat.le_mul_of_pos_left (2 ^ m.shift) pos
  have twice := Nat.mul_le_mul_left last pages.two_le
  have := pages.two_le
  rw [Nat.mod_eq_of_lt (by omega : last < 2 ^ m.bits), Nat.mod_eq_sub_mod (by omega), Nat.mod_eq_of_lt (by omega)]
  omega

variable {first last pfn : Nat} {w : RamWalk}

theorem lt_iff_mul {k : Nat} : first < pfn ↔ first * 2 ^ k + 2 ^ k ≤ pfn * 2 ^ k := by
  rw [← Nat.succ_mul, Nat.mul_le_mul_right_iff (Nat.two_pow_pos k), Nat.succ_le_iff]

theorem Walked.visits (walked : Walked m first last w)
    (rest : ∀ page, RamPage m first last page → page * 2 ^ m.shift + 2 ^ m.shift ≤ w.start) :
    Visits m first last w.calls :=
  ⟨fun page => (walked.called page).trans (and_iff_left_of_imp (rest page)), walked.ascending⟩

theorem Walked.visits_of_end (walked : Walked m first last w) (two : 2 ≤ 2 ^ m.shift)
    (past : last * 2 ^ m.shift - 1 ≤ w.start) : Visits m first last w.calls := by
  refine walked.visits ?_
  rintro page ⟨q, inside, isq, lower, upper, starts, stops⟩
  have := Nat.mul_le_mul_right (2 ^ m.shift) lower
  have := (lt_iff_mul (k := m.shift)).mp upper
  rcases walked.between with eq | past | apart
  · omega
  · omega
  · have := apart q inside isq
    omega

theorem Walked.start (m : Iomem ρ) (first last : Nat) : Walked m first last ⟨first * 2 ^ m.shift, -1, []⟩ := by
  have pos := Nat.two_pow_pos m.shift
  refine ⟨.inl rfl, le_rfl, fun page => ?_, .nil, by simp, .inr rfl⟩
  simp only [Called, not_mem_nil, false_and, exists_false, false_iff]
  rintro ⟨⟨q, inside, isq, lower, -⟩, le⟩
  have := Nat.mul_le_mul_right (2 ^ m.shift) lower
  omega

theorem page_between {k a b page : Nat} : (a + (2 ^ k - 1)) / 2 ^ k ≤ page ∧ page < (b + 1) / 2 ^ k ↔
    a ≤ page * 2 ^ k ∧ page * 2 ^ k + 2 ^ k ≤ b + 1 := by
  have pos := Nat.two_pow_pos k
  rw [← Nat.succ_le_iff, Nat.le_div_iff_mul_le pos, Nat.succ_mul, Nat.div_le_iff_le_mul_add_pred pos, Nat.mul_comm]
  omega

theorem called_append {calls : List (Nat × Nat)} {c : Nat × Nat} {page : Nat} :
    Called (calls ++ [c]) page ↔ Called calls page ∨ c.1 ≤ page ∧ page < c.1 + c.2 := by
  simp [Called]

section Next

variable (walked : Walked m first last w) {p : ρ} (mem : p ∈ m.child m.root) (is : m.ram p)
  (more : w.start < last * 2 ^ m.shift - 1) (reach : w.start ≤ (m.range p).stop)
  (others : ∀ q ∈ m.child m.root, m.ram q →
    (m.range q).stop < w.start ∨ q = p ∨ (m.range p).stop < (m.range q).start)
  {b : Nat} (stop : b = min (last * 2 ^ m.shift - 1) (m.range p).stop)

include walked mem is more reach others stop

/-- The position moves behind the next system RAM, and its pages are done. -/
theorem Walked.next {calls : List (Nat × Nat)}
    (added : ∀ page, Called calls page ↔ Called w.calls page ∨
      max w.start (m.range p).start ≤ page * 2 ^ m.shift ∧ page * 2 ^ m.shift + 2 ^ m.shift ≤ b + 1)
    (ascending : calls.Pairwise fun c d => c.1 + c.2 ≤ d.1) (done : ∀ c ∈ calls, (c.1 + c.2) * 2 ^ m.shift ≤ b + 1)
    (page : ∃ page, RamPage m first last page) : Walked m first last ⟨b + 1, 0, calls⟩ where
  ret := .inl ⟨rfl, page⟩
  ascending := ascending
  done := done
  low := by
    have := walked.low
    dsimp only
    omega
  between := by
    by_cases whole : (m.range p).stop ≤ last * 2 ^ m.shift - 1
    · refine .inr (.inr fun q inside isq => ?_)
      rcases others q inside isq with before | rfl | after <;> dsimp only <;> omega
    · exact .inr (.inl (by dsimp only; omega))
  called page := by
    have pos := Nat.two_pow_pos m.shift
    have low := walked.low
    rw [added, walked.called]
    constructor
    · rintro (⟨ram, le⟩ | ⟨ge, le⟩)
      · exact ⟨ram, by dsimp only; omega⟩
      · have lower : first ≤ page := Nat.le_of_mul_le_mul_right (by omega : first * 2 ^ m.shift ≤ _) pos
        exact ⟨⟨p, mem, is, lower, lt_iff_mul.mpr (by omega : _ ≤ last * 2 ^ m.shift), by omega, by omega⟩, le⟩
    · rintro ⟨⟨q, inside, isq, lower, upper, starts, stops⟩, le⟩
      by_cases before : page * 2 ^ m.shift + 2 ^ m.shift ≤ w.start
      · exact .inl ⟨⟨q, inside, isq, lower, upper, starts, stops⟩, before⟩
      refine .inr ⟨?_, le⟩
      have from_ := Nat.mul_le_mul_right (2 ^ m.shift) lower
      dsimp only at le
      rcases others q inside isq with less | rfl | after
      · omega
      · rcases walked.between with eq | past | apart
        · omega
        · omega
        · have := apart q inside isq
          omega
      · omega

/-- The pages from `x` up to `y` are those of this system RAM. -/
theorem Walked.call {x y : Nat} (call : x < y) (between : ∀ page, x ≤ page ∧ page < y ↔
      max w.start (m.range p).start ≤ page * 2 ^ m.shift ∧ page * 2 ^ m.shift + 2 ^ m.shift ≤ b + 1)
    (below : y * 2 ^ m.shift ≤ b + 1) : Walked m first last ⟨b + 1, 0, w.calls ++ [(x, y - x)]⟩ := by
  have low := walked.low
  have pos := Nat.two_pow_pos m.shift
  have len : x + (y - x) = y := by omega
  have page := (between x).mp ⟨le_rfl, call⟩
  have lower : first ≤ x := Nat.le_of_mul_le_mul_right (by omega : first * 2 ^ m.shift ≤ _) pos
  have ram : RamPage m first last x :=
    ⟨p, mem, is, lower, lt_iff_mul.mpr (by omega : _ ≤ last * 2 ^ m.shift), by omega, by omega⟩
  refine walked.next mem is more reach others stop (fun page => ?_) ?_ (fun c old => ?_) ⟨x, ram⟩
  · rw [called_append, ← between page, len]
  · refine pairwise_append.mpr ⟨walked.ascending, pairwise_singleton _ _, fun c old d new => ?_⟩
    have le := walked.done c old
    rw [mem_singleton.mp new]
    exact Nat.le_of_mul_le_mul_right (by omega : _ ≤ x * 2 ^ m.shift) pos
  · rcases mem_append.mp old with old | new
    · exact (walked.done c old).trans (by omega)
    · rwa [mem_singleton.mp new, len]

end Next

theorem firstRam (node : NodeOk m.toState m.root) {p : ρ} (inRange : InRange m first last p)
    (others : ∀ q ∈ m.child m.root, m.ram q →
      (m.range q).stop < first * 2 ^ m.shift ∨ q = p ∨ (m.range p).stop < (m.range q).start) :
        FirstRam m first last p := by
  refine ⟨inRange, fun q inside isq => ?_⟩
  have := node.ordered p inRange.mem
  rcases others q inside isq with less | rfl | after <;> omega

section Run

variable (node : NodeOk m.toState m.root) (pages : Pages m first last)
  (inner : ∀ p, InRange m first last p → (∃ page, RamPage m first last page) ∨ FirstRam m first last p →
    Inner m first last p)

include node inner

theorem Walked.turn (walked : Walked m first last w) (pages : Pages m first last)
    (whole : FirstWhole m first last) : (∃ w', walkTurn m (fun _ _ => 0) (last * 2 ^ m.shift - 1) w = .inl w' ∧
      last * 2 ^ m.shift - w'.start < last * 2 ^ m.shift - w.start ∧ Walked m first last w') ∨
    ∃ r, walkTurn m (fun _ _ => 0) (last * 2 ^ m.shift - 1) w = .inr r ∧ Visits m first last r.2 := by
  have two := pages.two_le
  have low := walked.low
  have finds : Finds m w.start (last * 2 ^ m.shift - 1) (m.child m.root) :=
    findNextSystemRam_finds node.ordered node.sorted
  by_cases more : w.start < last * 2 ^ m.shift - 1
  · rcases finds with ⟨none, rest⟩ | ⟨p, mem, is, reach, begins, found, others⟩
    · refine .inr ⟨(w.ret, w.calls), by rw [walkTurn, if_pos more, none], walked.visits ?_⟩
      rintro page ⟨q, inside, isq, lower, upper, starts, stops⟩
      have := rest q inside isq
      have := (lt_iff_mul (k := m.shift)).mp upper
      omega
    have inRange : InRange m first last p := ⟨mem, is, low.trans reach, begins⟩
    have first_ (start : w.start = first * 2 ^ m.shift) : FirstRam m first last p :=
      firstRam node inRange (start ▸ others)
    have ends := inner p inRange (walked.ret.imp And.right fun new => first_ (by rw [new]))
    have from_ : max w.start (m.range p).start ≤ max (first * 2 ^ m.shift) (m.range p).start := by
      rcases walked.between with eq | past | apart
      · omega
      · omega
      · have := apart p mem is
        omega
    generalize stop : min (last * 2 ^ m.shift - 1) (m.range p).stop = b at found
    have wrap : (max w.start (m.range p).start + (2 ^ m.shift - 1)) % 2 ^ m.bits =
        max w.start (m.range p).start + (2 ^ m.shift - 1) := Nat.mod_eq_of_lt (by have := ends.2; omega)
    have wrap' : (b + 1) % 2 ^ m.bits = b + 1 := Nat.mod_eq_of_lt (by have := ends.1; omega)
    simp only [walkTurn, if_pos more, found, wrap, wrap']
    have between (page : Nat) := @page_between m.shift (max w.start (m.range p).start) b page
    generalize (max w.start (m.range p).start + (2 ^ m.shift - 1)) / 2 ^ m.shift = x at between ⊢
    generalize last_ : (b + 1) / 2 ^ m.shift = y at between ⊢
    have moves : last * 2 ^ m.shift - (b + 1) < last * 2 ^ m.shift - w.start := by omega
    by_cases call : x < y
    · have below : y * 2 ^ m.shift ≤ b + 1 := last_ ▸ Nat.div_mul_le_self _ _
      exact .inl ⟨_, by simp [call], moves, walked.call mem is more reach others stop.symm call between below⟩
    · have empty (page : Nat) (h : _ ∧ _) : False :=
        call (((between page).mpr h).1.trans_lt ((between page).mpr h).2)
      rcases walked.ret with ⟨zero, page⟩ | new
      · refine .inl ⟨⟨b + 1, 0, w.calls⟩, by simp [call, zero], moves, ?_⟩
        exact walked.next mem is more reach others stop.symm (fun page => (or_iff_left (empty page)).symm)
          walked.ascending (fun c old => (walked.done c old).trans (by omega)) page
      refine .inr ⟨(w.ret, w.calls), by simp [call, new], walked.visits fun page ram => ?_⟩
      have start : w.start = first * 2 ^ m.shift := by rw [new]
      rcases whole p (first_ start) with ⟨page', lower, upper, starts, stops⟩ | never
      · have := Nat.mul_le_mul_right (2 ^ m.shift) lower
        have := (lt_iff_mul (k := m.shift)).mp upper
        exact (empty page' ⟨by omega, by omega⟩).elim
      · exact absurd ram (never page)
  · exact .inr ⟨(w.ret, w.calls), by rw [walkTurn, if_neg more], walked.visits_of_end two (not_lt.mp more)⟩

/-- A first system RAM without a page of the range ends the walk at once. -/
theorem firstRam_stops {p : ρ} (is : FirstRam m first last p) (none : ∀ page, ¬PageOf m first last p page)
    (more : first * 2 ^ m.shift < last * 2 ^ m.shift - 1) :
    walkTurn m (fun _ _ => 0) (last * 2 ^ m.shift - 1) ⟨first * 2 ^ m.shift, -1, []⟩ = .inr (-1, []) := by
  have finds : Finds m (first * 2 ^ m.shift) (last * 2 ^ m.shift - 1) (m.child m.root) :=
    findNextSystemRam_finds node.ordered node.sorted
  have low := is.low
  have high := is.high
  rcases finds with ⟨-, rest⟩ | ⟨q, mem, isq, reach, begins, found, others⟩
  · have := rest p is.mem is.ram
    omega
  obtain rfl : p = q := by
    rcases others p is.mem is.ram with less | same | after
    · omega
    · exact same
    · have := is.lowest q mem isq
      have := node.ordered p is.mem
      have := node.ordered q mem
      omega
  have ends := inner p is.toInRange (.inr is)
  generalize stop : min (last * 2 ^ m.shift - 1) (m.range p).stop = b at found
  have wrap := Nat.mod_eq_of_lt ends.2
  have wrap' : (b + 1) % 2 ^ m.bits = b + 1 := Nat.mod_eq_of_lt (by have := ends.1; omega)
  have empty : ¬(max (first * 2 ^ m.shift) (m.range p).start + (2 ^ m.shift - 1)) / 2 ^ m.shift <
      (b + 1) / 2 ^ m.shift := by
    intro call
    have page := page_between.mp ⟨le_rfl, call⟩
    refine none _ ⟨?_, lt_iff_mul.mpr (page.2.trans (by omega : b + 1 ≤ last * 2 ^ m.shift)), by omega, by omega⟩
    exact Nat.le_of_mul_le_mul_right ((le_max_left ..).trans page.1) (Nat.two_pow_pos m.shift)
  simp [walkTurn, more, found, wrap, wrap', empty]

end Run

/-- A callback that returns 0 is called for the pages of system RAM, each once and in ascending order, if and only if
the first system RAM in the range has a page of it or none has. -/
theorem walk_system_ram_range_iff (node : NodeOk m.toState m.root) {startPfn nrPages n : Nat}
    (pages : Pages m startPfn (startPfn + nrPages))
    (inner : ∀ p, InRange m startPfn (startPfn + nrPages) p →
      (∃ page, RamPage m startPfn (startPfn + nrPages) page) ∨ FirstRam m startPfn (startPfn + nrPages) p →
      Inner m startPfn (startPfn + nrPages) p) (enough : nrPages * 2 ^ m.shift < n) :
    (∃ ret calls, walkSystemRamRange n m (fun _ _ => 0) startPfn nrPages = some (ret, calls) ∧
      Visits m startPfn (startPfn + nrPages) calls) ↔ FirstWhole m startPfn (startPfn + nrPages) := by
  have two := pages.two_le
  rw [walkSystemRamRange, pages.end_eq, Nat.mod_eq_of_lt pages.starts]
  constructor
  · rintro ⟨ret, calls, run, visits⟩ p first
    by_contra! neither
    obtain ⟨none, page, ram⟩ := neither
    obtain ⟨q, -, -, lower, upper, -⟩ := id ram
    have := Nat.mul_le_mul_right (2 ^ m.shift) lower
    have := (lt_iff_mul (k := m.shift)).mp upper
    cases n with
    | zero => cases enough
    | succ n =>
      rw [Loop.run, firstRam_stops node inner first none (by omega)] at run
      obtain ⟨rfl, rfl⟩ := Prod.mk.inj (Option.some.inj run)
      obtain ⟨c, mem, -⟩ := (visits.called page).mpr ram
      cases mem
  · intro whole
    let Inv (k : Nat) (w : RamWalk) : Prop :=
      k = (startPfn + nrPages) * 2 ^ m.shift - w.start ∧ Walked m startPfn (startPfn + nrPages) w
    let turn := walkTurn m (fun _ _ => 0) ((startPfn + nrPages) * 2 ^ m.shift - 1)
    have keep : ∀ k w, Inv k w → (∃ j w', turn w = .inl w' ∧ j < k ∧ Inv j w') ∨
        ∃ r, turn w = .inr r ∧ Visits m startPfn (startPfn + nrPages) r.2 := by
      rintro k w ⟨rfl, walked⟩
      refine (walked.turn node inner pages whole).imp_left ?_
      rintro ⟨w', goes, less, walked⟩
      exact ⟨_, w', goes, less, rfl, walked⟩
    have first : Inv (nrPages * 2 ^ m.shift) ⟨startPfn * 2 ^ m.shift, -1, []⟩ := by
      refine ⟨?_, .start m _ _⟩
      rw [Nat.add_mul, Nat.add_sub_cancel_left]
    obtain ⟨⟨ret, calls⟩, run, visits⟩ := Loop.run_total _ Inv _ keep first enough
    exact ⟨ret, calls, run, visits⟩

/-- Pages of 256 bytes, and two system RAMs: one of 16 bytes and one of two pages. -/
def twoRams : Iomem Nat where
  range p := if p = 1 then ⟨0x110, 0x11f, true⟩ else if p = 2 then ⟨0x200, 0x3ff, true⟩ else ⟨0, 0xffff, false⟩
  parent _ := some 0
  child p := if p = 0 then [1, 2] else []
  root := 0
  ram _ := true
  bits := 16
  shift := 8

theorem twoRams_ok : NodeOk twoRams.toState twoRams.root :=
  ⟨by decide, by decide, by decide, by decide⟩

/-- The range goes up to the end of the address space, where there is no system RAM. -/
theorem walk_system_ram_range_iff_two :
    ∃ ret calls, walkSystemRamRange 66000 twoRams (fun _ _ => 0) 2 254 = some (ret, calls) ∧
      Visits twoRams 2 256 calls := by
  have cases_ (p) (mem : p ∈ twoRams.child twoRams.root) : p = 1 ∨ p = 2 := by simpa [twoRams] using mem
  refine (walk_system_ram_range_iff twoRams_ok ⟨by decide, by decide, by decide, by decide, by decide⟩ ?_
    (by decide)).mpr ?_
  · intro p is _
    rcases cases_ p is.mem with rfl | rfl <;> exact ⟨by decide, by decide⟩
  · intro p first
    rcases cases_ p first.mem with rfl | rfl
    · exact absurd first.low (by decide)
    · exact .inl ⟨2, by unfold PageOf; decide⟩

/-- A small system RAM at the start of the range ends the walk: no page is visited, although two are system RAM. -/
theorem walk_system_ram_range_stops :
    NodeOk twoRams.toState twoRams.root ∧ Pages twoRams 1 4 ∧ RamPage twoRams 1 4 2 ∧
    walkSystemRamRange 1000 twoRams (fun _ _ => 0) 1 3 = some (-1, []) :=
  ⟨twoRams_ok, ⟨by decide, by decide, by decide, by decide, by decide⟩,
    ⟨2, by decide, rfl, by unfold PageOf; decide⟩, by decide⟩

end Resource
