/- An extensible bitmap is a finite set: its nodes are aligned, in order and not empty. -/
import Mathlib.Data.Finset.Insert
import Mathlib.Data.Finset.Erase
import LinuxKernel.Security.Ebitmap

namespace Selinux

open Function List Width

variable {a : Arch}

namespace Arch

theorem size_pos (a : Arch) : 0 < a.size := by cases a <;> decide

theorem size_le (a : Arch) : a.size ≤ 192 := by cases a <;> decide

theorem unitSize_pos (a : Arch) : 0 < a.unitSize := by cases a <;> decide

theorem long_eq {n : Nat} (a : Arch) (h : n < 2 ^ 32) : a.long n = n := by
  apply Nat.mod_eq_of_lt
  apply Nat.lt_of_lt_of_le h
  cases a <;> decide

end Arch

/-- The first position of the node a bit belongs to. -/
def base (a : Arch) (bit : Nat) : Nat := bit - bit % a.size

theorem base_le (bit : Nat) : base a bit ≤ bit := Nat.sub_le _ _

theorem lt_base_add (bit : Nat) : bit < base a bit + a.size := by
  have := Nat.mod_lt bit a.size_pos
  rw [base]
  omega

theorem base_add (bit : Nat) : base a bit + bit % a.size = bit :=
  Nat.sub_add_cancel (Nat.mod_le _ _)

theorem dvd_base (bit : Nat) : a.size ∣ base a bit := Nat.dvd_sub_mod bit

theorem base_eq {start bit : Nat} (aligned : a.size ∣ start) (le : start ≤ bit) (lt : bit < start + a.size) :
    base a bit = start := by
  obtain ⟨k, rfl⟩ := aligned
  have div : bit / a.size = k := by
    rw [Nat.div_eq_iff a.size_pos]
    constructor
    · rw [Nat.mul_comm]
      exact le
    · rw [Nat.mul_comm]
      omega
  have := Nat.div_add_mod bit a.size
  rw [base, ← div]
  omega

variable {j : Nat}

theorem mod_of_base {start : Nat} (aligned : a.size ∣ start) (lt : j < a.size) : (start + j) % a.size = j := by
  obtain ⟨k, rfl⟩ := aligned
  rw [Nat.mul_add_mod, Nat.mod_eq_of_lt lt]

theorem base_start {start : Nat} (aligned : a.size ∣ start) (lt : j < a.size) : base a (start + j) = start :=
  base_eq aligned (Nat.le_add_right _ _) (Nat.add_lt_add_left lt _)

variable {n : EbitmapNode a} {bit ofs : Nat}

theorem nodeBit_lt (h : nodeBit n ofs = true) : ofs < a.size := by
  rw [nodeBit] at h
  split at h
  · rename_i lt
    exact Nat.lt_mul_of_div_lt lt a.unitSize_pos
  · cases h

theorem nodeBit_word (i : Fin a.unitNums) (lt : j < a.unitSize) :
    nodeBit n (a.unitSize * i + j) = (n.maps i).getLsbD j := by
  have div : (a.unitSize * i + j) / a.unitSize = i := by
    rw [Nat.mul_add_div a.unitSize_pos, Nat.div_eq_of_lt lt, Nat.add_zero]
  have mod : (a.unitSize * i + j) % a.unitSize = j := by
    rw [Nat.mul_add_mod, Nat.mod_eq_of_lt lt]
  simp [nodeBit, div, mod]

theorem node_ext {m n : EbitmapNode a} (start : m.startbit = n.startbit)
    (bits : ∀ ofs, nodeBit m ofs = nodeBit n ofs) : m = n := by
  have maps : m.maps = n.maps := by
    funext i
    apply BitVec.eq_of_getLsbD_eq
    intro j lt
    rw [← nodeBit_word i lt, ← nodeBit_word i lt, bits]
  cases n
  subst start maps
  rfl

theorem words_subset {m n : EbitmapNode a} :
    ((List.finRange a.unitNums).all fun i => m.maps i &&& n.maps i == n.maps i) = true ↔
      ∀ ofs, nodeBit n ofs = true → nodeBit m ofs = true := by
  simp only [all_eq_true, mem_finRange, true_imp_iff, beq_iff_eq]
  constructor
  · intro words ofs set
    rw [nodeBit] at set ⊢
    split at set
    · rename_i lt
      rw [dif_pos lt]
      rw [← words ⟨_, lt⟩, BitVec.getLsbD_and] at set
      exact (Bool.and_eq_true_iff.mp set).1
    · cases set
  · intro bits i
    apply BitVec.eq_of_getLsbD_eq
    intro j lt
    have sub := bits (a.unitSize * i + j)
    rw [nodeBit_word i lt, nodeBit_word i lt] at sub
    rw [BitVec.getLsbD_and]
    cases h : (n.maps i).getLsbD j with
    | false => rw [Bool.and_false]
    | true => rw [sub h, Bool.and_true]

theorem findFirstBit_lt : findFirstBit n < a.size ↔ ∃ ofs, nodeBit n ofs = true := by
  rw [findFirstBit]
  cases h : (List.range a.size).find? (nodeBit n) with
  | none =>
    simp only [Option.getD_none, lt_self_iff_false, false_iff, not_exists]
    intro ofs set
    exact List.find?_eq_none.mp h ofs (mem_range.mpr (nodeBit_lt set)) set
  | some ofs =>
    have set := List.find?_some h
    exact ⟨fun _ => ⟨ofs, set⟩, fun _ => nodeBit_lt set⟩

theorem nodeIndex_eq (start : n.startbit = base a bit) (small : n.startbit + a.size < 2 ^ 32) :
    nodeIndex n bit = bit % a.size / a.unitSize ∧ nodeOffset n bit = bit % a.size % a.unitSize := by
  have lt := lt_base_add (a := a) bit
  have sum := base_add (a := a) bit
  have distance : u32 (2 ^ 32 + u32 bit - n.startbit) = bit % a.size := by
    rw [u32_eq (n := bit) (by omega)]
    have : 2 ^ 32 + bit - n.startbit = 2 ^ 32 + bit % a.size := by omega
    rw [this, u32, Nat.add_mod_left, Nat.mod_eq_of_lt (by omega)]
  rw [nodeIndex, nodeOffset, distance]
  exact ⟨rfl, rfl⟩

theorem mod_div_lt (bit : Nat) : bit % a.size / a.unitSize < a.unitNums := by
  apply Nat.div_lt_of_lt_mul
  rw [Nat.mul_comm]
  exact Nat.mod_lt _ a.size_pos

theorem getLsbD_ebitmapBit (lt : j < a.unitSize) :
    (ebitmapBit ofs : BitVec a.unitSize).getLsbD j = decide (j = ofs) := by
  rw [ebitmapBit]
  by_cases less : j < ofs
  · simp [less, less.ne]
  · have : j - ofs = 0 ↔ j = ofs := by omega
    simp [less, lt, this]

theorem nodeBit_update {t : Nat} (lt : t / a.unitSize < a.unitNums) {w : BitVec a.unitSize} {v : Bool}
    (word : ∀ j < a.unitSize, w.getLsbD j = if j = t % a.unitSize then v else (n.maps ⟨_, lt⟩).getLsbD j)
    (ofs : Nat) :
    nodeBit { n with maps := update n.maps ⟨_, lt⟩ w } ofs = if ofs = t then v else nodeBit n ofs := by
  have split_ofs := Nat.div_add_mod ofs a.unitSize
  have split_t := Nat.div_add_mod t a.unitSize
  by_cases inside : ofs / a.unitSize < a.unitNums
  · by_cases same : ofs / a.unitSize = t / a.unitSize
    · have index : (⟨ofs / a.unitSize, inside⟩ : Fin a.unitNums) = ⟨t / a.unitSize, lt⟩ := Fin.ext same
      have eq : ofs = t ↔ ofs % a.unitSize = t % a.unitSize := by
        constructor
        · intro eq
          rw [eq]
        · intro eq
          rw [← split_ofs, ← split_t, same, eq]
      rw [nodeBit, nodeBit, dif_pos inside, dif_pos inside, index]
      dsimp only
      rw [update_self, word _ (Nat.mod_lt _ a.unitSize_pos)]
      simp [eq]
    · have index : (⟨ofs / a.unitSize, inside⟩ : Fin a.unitNums) ≠ ⟨t / a.unitSize, lt⟩ := fun eq =>
        same (congrArg Fin.val eq)
      have other : ofs ≠ t := fun eq => same (by rw [eq])
      rw [nodeBit, nodeBit, dif_pos inside, dif_pos inside, if_neg other]
      dsimp only
      rw [update_of_ne index]
  · have other : ofs ≠ t := fun eq => inside (by rw [eq]; exact lt)
    rw [nodeBit, nodeBit, dif_neg inside, dif_neg inside, if_neg other]

theorem and_ebitmapBit (w : BitVec a.unitSize) (lt : ofs < a.unitSize) :
    (w &&& ebitmapBit ofs != 0) = w.getLsbD ofs := by
  have bits : ∀ j < a.unitSize, (w &&& ebitmapBit ofs).getLsbD j = (w.getLsbD j && decide (j = ofs)) := by
    intro j less
    rw [BitVec.getLsbD_and, getLsbD_ebitmapBit less]
  cases set : w.getLsbD ofs with
  | true =>
    rw [bne_iff_ne]
    intro zero
    have := bits ofs lt
    rw [zero, set] at this
    simp at this
  | false =>
    have zero : w &&& ebitmapBit ofs = 0 := by
      apply BitVec.eq_of_getLsbD_eq
      intro j less
      rw [bits j less]
      by_cases eq : j = ofs
      · simp [eq, set]
      · simp [eq]
    rw [zero, bne_self_eq_false]

section

variable (start : n.startbit = base a bit) (small : n.startbit + a.size < 2 ^ 32)
include start small

theorem ebitmapNodeGetBit_eq :
    ebitmapNodeGetBit n bit = some (nodeBit n (bit % a.size)) := by
  obtain ⟨index, offset⟩ := nodeIndex_eq start small
  have lt := mod_div_lt (a := a) bit
  simp only [ebitmapNodeGetBit, nodeBit, index, offset, lt, dite_true]
  rw [and_ebitmapBit _ (Nat.mod_lt _ a.unitSize_pos)]

theorem ebitmapNodeSetBit_spec :
    ∃ n', ebitmapNodeSetBit n bit = some n' ∧ n'.startbit = n.startbit ∧
      ∀ ofs, nodeBit n' ofs = if ofs = bit % a.size then true else nodeBit n ofs := by
  obtain ⟨index, offset⟩ := nodeIndex_eq start small
  have lt := mod_div_lt (a := a) bit
  simp only [ebitmapNodeSetBit, index, lt]
  refine ⟨_, rfl, rfl, nodeBit_update lt ?_⟩
  intro j less
  rw [BitVec.getLsbD_or, getLsbD_ebitmapBit less]
  split
  all_goals simp [*]

theorem ebitmapNodeClrBit_spec :
    ∃ n', ebitmapNodeClrBit n bit = some n' ∧ n'.startbit = n.startbit ∧
      ∀ ofs, nodeBit n' ofs = if ofs = bit % a.size then false else nodeBit n ofs := by
  obtain ⟨index, offset⟩ := nodeIndex_eq start small
  have lt := mod_div_lt (a := a) bit
  simp only [ebitmapNodeClrBit, index, lt]
  refine ⟨_, rfl, rfl, nodeBit_update lt ?_⟩
  intro j less
  rw [BitVec.getLsbD_and, BitVec.getLsbD_not, getLsbD_ebitmapBit less]
  split
  all_goals simp [*]

end

structure NodeOk (n : EbitmapNode a) : Prop where
  aligned : a.size ∣ n.startbit
  small : n.startbit + a.size < 2 ^ 32
  nonempty : ∃ ofs, nodeBit n ofs = true

structure NodesOk (l : List (EbitmapNode a)) : Prop where
  node : ∀ n ∈ l, NodeOk n
  sorted : l.Pairwise fun m n => m.startbit < n.startbit

def Mem (l : List (EbitmapNode a)) (b : Nat) : Prop :=
  ∃ n ∈ l, n.startbit = base a b ∧ nodeBit n (b % a.size) = true

variable {l l' next : List (EbitmapNode a)} {b : Nat}

theorem mem_cons : Mem (n :: l) b ↔ (n.startbit = base a b ∧ nodeBit n (b % a.size) = true) ∨ Mem l b := by
  simp [Mem]

theorem nodesOk_nil : NodesOk ([] : List (EbitmapNode a)) := ⟨by simp, .nil⟩

theorem NodesOk.head (h : NodesOk (n :: l)) : NodeOk n := h.node n mem_cons_self

theorem NodesOk.tail (h : NodesOk (n :: l)) : NodesOk l :=
  ⟨fun m mem => h.node m (mem_cons_of_mem n mem), h.sorted.of_cons⟩

theorem NodesOk.lt (h : NodesOk (n :: l)) {m : EbitmapNode a} (mem : m ∈ l) : n.startbit < m.startbit :=
  rel_of_pairwise_cons h.sorted mem

theorem NodesOk.le (h : NodesOk (n :: l)) {m : EbitmapNode a} (mem : m ∈ n :: l) : n.startbit ≤ m.startbit := by
  rcases List.mem_cons.mp mem with rfl | mem
  · rfl
  · exact (h.lt mem).le

theorem NodesOk.cons (node : NodeOk n) (rest : NodesOk l) (lt : ∀ m ∈ l, n.startbit < m.startbit) :
    NodesOk (n :: l) where
  node := forall_mem_cons.mpr ⟨node, rest.node⟩
  sorted := .cons lt rest.sorted

theorem NodesOk.not_mem (h : NodesOk (n :: l)) (le : base a b ≤ n.startbit) : ¬ Mem l b := by
  rintro ⟨m, mem, start, -⟩
  have := h.lt mem
  omega

theorem NodeOk.covers (h : NodeOk n) : n.startbit ≤ bit ∧ reaches n bit ↔ n.startbit = base a bit := by
  rw [reaches, a.long_eq h.small]
  constructor
  · rintro ⟨le, lt⟩
    exact (base_eq h.aligned le lt).symm
  · intro start
    rw [start]
    exact ⟨base_le bit, lt_base_add bit⟩

theorem NodeOk.mem (h : NodeOk n) (mem : n ∈ l) : ∃ b, base a b = n.startbit ∧ Mem l b := by
  obtain ⟨ofs, set⟩ := h.nonempty
  have lt := nodeBit_lt set
  have start := base_start h.aligned lt
  refine ⟨n.startbit + ofs, start, n, mem, start.symm, ?_⟩
  rw [mod_of_base h.aligned lt]
  exact set

theorem getBitFrom_eq (h : NodesOk l) : ∃ v, getBitFrom bit l = some v ∧ (v = true ↔ Mem l bit) := by
  induction l with
  | nil => exact ⟨false, rfl, by simp [Mem]⟩
  | cons n l ih =>
    rw [getBitFrom]
    by_cases start : n.startbit = base a bit
    · obtain ⟨le, lt⟩ := h.head.covers.mpr start
      rw [if_pos le, if_pos lt, ebitmapNodeGetBit_eq start h.head.small]
      rw [mem_cons]
      simp [start, h.not_mem start.ge]
    have other : Mem (n :: l) bit ↔ Mem l bit := by simp [mem_cons, start]
    rw [other]
    by_cases le : n.startbit ≤ bit
    · rw [if_pos le, if_neg fun lt => start (h.head.covers.mp ⟨le, lt⟩)]
      exact ih h.tail
    · have before := base_le (a := a) bit
      rw [if_neg le]
      exact ⟨false, rfl, by simp [h.not_mem (b := bit) (by omega)]⟩

/-- The end of the last node, where `prev` is in front of the list. -/
def lastEnd : Option (EbitmapNode a) → List (EbitmapNode a) → Nat
  | prev, [] => prev.elim 0 fun p => u32 (p.startbit + a.size)
  | _, n :: next => lastEnd (some n) next

theorem lastEnd_eq_getLast (prev : Option (EbitmapNode a)) (l : List (EbitmapNode a)) :
    lastEnd prev l = (l.getLast?.or prev).elim 0 fun n => u32 (n.startbit + a.size) := by
  induction l generalizing prev with
  | nil => rfl
  | cons n l ih =>
    rw [lastEnd, ih]
    cases l <;> simp [getLast?_cons]

theorem le_lastEnd (h : NodesOk l) (prev : Option (EbitmapNode a)) :
    ∀ n ∈ l, n.startbit + a.size ≤ lastEnd prev l := by
  induction l generalizing prev with
  | nil => simp
  | cons n l ih =>
    have rest := ih h.tail (some n)
    refine forall_mem_cons.mpr ⟨?_, rest⟩
    cases l with
    | nil => exact (u32_eq h.head.small).ge
    | cons m l =>
      have := rest m mem_cons_self
      have := h.lt mem_cons_self
      rw [lastEnd]
      omega

theorem lastEnd_eq (h : NodesOk l) (prev : Option (EbitmapNode a)) :
    l = [] ∨ ∃ n ∈ l, lastEnd prev l = n.startbit + a.size := by
  induction l generalizing prev with
  | nil => exact .inl rfl
  | cons n l ih =>
    right
    rcases ih h.tail (some n) with rfl | ⟨m, mem, eq⟩
    · exact ⟨n, mem_cons_self, u32_eq h.head.small⟩
    · exact ⟨m, mem_cons_of_mem n mem, eq⟩

section SetBit

variable {value kzalloc : Bool} {highbit : Nat}

/-- What the list from `n` on becomes: one bit is written, or there was no memory. -/
structure Written (bit : Nat) (value kzalloc : Bool) (prev : Option (EbitmapNode a)) (l : List (EbitmapNode a))
    (r : List (EbitmapNode a) × Nat × Ret) : Prop where
  ok : NodesOk r.1
  high : r.2.1 = lastEnd prev r.1
  starts : ∀ s < base a bit, (∀ m ∈ l, s < m.startbit) → ∀ n ∈ r.1, s < n.startbit
  failed : r.2.2 = .enomem → kzalloc = false ∧ r.1 = l
  bits : r.2.2 = .ok → ∀ b, Mem r.1 b ↔ if b = bit then value = true else Mem l b

theorem eq_iff_base_mod : b = bit ↔ base a bit = base a b ∧ b % a.size = bit % a.size := by
  constructor
  · rintro rfl
    exact ⟨rfl, rfl⟩
  · rintro ⟨eq, mod⟩
    rw [← base_add b, ← base_add bit, eq, mod]

theorem mem_written {m n : EbitmapNode a} (h : NodesOk (n :: l)) (start : n.startbit = base a bit)
    (same : m.startbit = n.startbit)
    (bits : ∀ ofs, nodeBit m ofs = if ofs = bit % a.size then value else nodeBit n ofs) (b : Nat) :
    Mem (m :: l) b ↔ if b = bit then value = true else Mem (n :: l) b := by
  rw [mem_cons, mem_cons, same, start, bits]
  by_cases eq : b = bit
  · subst eq
    simp [h.not_mem start.ge]
  rw [if_neg eq]
  apply or_congr_left
  apply and_congr_right
  intro bases
  rw [if_neg fun mod => eq (eq_iff_base_mod.mpr ⟨bases, mod⟩)]

theorem addNode_spec (h : NodesOk l) (prev : Option (EbitmapNode a)) (lt : ∀ n ∈ l, base a bit < n.startbit)
    (small : bit < 2 ^ 31) (high : highbit = lastEnd prev l) :
    ∃ r, addNode bit value kzalloc highbit l = some r ∧ Written bit value kzalloc prev l r := by
  have absent : ¬ Mem l bit := by
    rintro ⟨n, mem, start, -⟩
    have := lt n mem
    omega
  rw [addNode]
  cases value with
  | false =>
    refine ⟨_, rfl, h, high, fun _ _ => id, by simp, ?_⟩
    intro _ b
    split
    · simp_all
    · rfl
  | true =>
    cases kzalloc with
    | false => exact ⟨_, rfl, h, high, fun _ _ => id, fun _ => ⟨rfl, rfl⟩, by simp⟩
    | true =>
      have le := base_le (a := a) bit
      have size := a.size_le
      have start : u32 (bit - bit % a.size) = base a bit := u32_eq (by rw [← base]; omega)
      obtain ⟨n, set, same, bits⟩ := @ebitmapNodeSetBit_spec a ⟨fun _ => 0, u32 (bit - bit % a.size)⟩ bit start
        (by dsimp only; omega)
      have same' : n.startbit = base a bit := same.trans start
      have first : NodeOk n := ⟨same' ▸ dvd_base bit, by omega, bit % a.size, by simp [bits]⟩
      simp only [set]
      refine ⟨_, rfl, .cons first h (same' ▸ lt), ?_, fun s lt old => forall_mem_cons.mpr ⟨same' ▸ lt, old⟩,
        by simp, ?_⟩
      · cases l with
        | nil => rfl
        | cons m l => exact high
      · intro _ b
        have zero : ∀ ofs, nodeBit (⟨fun _ => 0, u32 (bit - bit % a.size)⟩ : EbitmapNode a) ofs = false := by
          intro ofs
          rw [nodeBit]
          split <;> simp
        rw [mem_cons, same', bits, zero]
        by_cases eq : b = bit
        · simp [eq]
        rw [if_neg eq]
        apply or_iff_right
        rintro ⟨bases, mod⟩
        split at mod
        · rename_i mods
          exact eq (eq_iff_base_mod.mpr ⟨bases, mods⟩)
        · cases mod

section Cases

variable {m : EbitmapNode a} {prev : Option (EbitmapNode a)} (h : NodesOk (n :: l))
    (high : highbit = lastEnd prev (n :: l))
include h high

theorem Written.first (start : n.startbit = base a bit) (same : m.startbit = n.startbit)
    (bits : ∀ ofs, nodeBit m ofs = if ofs = bit % a.size then value else nodeBit n ofs)
    (nonempty : ∃ ofs, nodeBit m ofs = true) : Written bit value kzalloc prev (n :: l) (m :: l, highbit, .ok) where
  ok := .cons ⟨same ▸ h.head.aligned, same ▸ h.head.small, nonempty⟩ h.tail fun k mem => same ▸ h.lt mem
  high := high.trans (by cases l <;> simp [lastEnd, same])
  starts := fun s lt old =>
    forall_mem_cons.mpr ⟨same ▸ old n mem_cons_self, fun k mem => old k (mem_cons_of_mem n mem)⟩
  failed := by simp
  bits := fun _ => mem_written h start same bits

theorem Written.dropped (start : n.startbit = base a bit) (same : m.startbit = n.startbit)
    (bits : ∀ ofs, nodeBit m ofs = if ofs = bit % a.size then false else nodeBit n ofs)
    (empty : ¬ ∃ ofs, nodeBit m ofs = true) : Written bit false kzalloc prev (n :: l)
      (if l.isEmpty then (l, prev.elim 0 fun p => u32 (p.startbit + a.size), .ok) else (l, highbit, .ok)) := by
  have left : ∀ b, Mem l b ↔ if b = bit then false = true else Mem (n :: l) b := by
    intro b
    rw [← mem_written h start same bits b, mem_cons]
    exact (or_iff_right fun set => empty ⟨_, set.2⟩).symm
  cases l with
  | nil => exact ⟨nodesOk_nil, rfl, by simp, by simp, fun _ => left⟩
  | cons k l => exact ⟨h.tail, high, fun s _ old m mem => old m (mem_cons_of_mem n mem), by simp, fun _ => left⟩

omit high in
theorem Written.behind (lt : n.startbit < base a bit) {r : List (EbitmapNode a) × Nat × Ret}
    (w : Written bit value kzalloc (some n) l r) : Written bit value kzalloc prev (n :: l) (n :: r.1, r.2) where
  ok := .cons h.head w.ok (w.starts n.startbit lt fun m => h.lt)
  high := w.high
  starts := fun s lt old =>
    forall_mem_cons.mpr ⟨old n mem_cons_self, w.starts s lt fun m mem => old m (mem_cons_of_mem n mem)⟩
  failed := by
    intro failed
    obtain ⟨none, same⟩ := w.failed failed
    exact ⟨none, by rw [same]⟩
  bits := by
    intro ok b
    rw [mem_cons, mem_cons, w.bits ok b]
    by_cases eq : b = bit
    · subst eq
      simp [lt.ne]
    · simp [eq]

end Cases

theorem setBitFrom_spec (h : NodesOk l) (prev : Option (EbitmapNode a)) (small : bit < 2 ^ 31)
    (high : highbit = lastEnd prev l) :
    ∃ r, setBitFrom bit value kzalloc highbit prev l = some r ∧ Written bit value kzalloc prev l r := by
  induction l generalizing prev with
  | nil => exact addNode_spec h prev (by simp) small high
  | cons n l ih =>
    have before := base_le (a := a) bit
    rw [setBitFrom]
    by_cases start : n.startbit = base a bit
    · obtain ⟨le, lt⟩ := h.head.covers.mpr start
      rw [if_pos le, if_pos lt]
      cases value with
      | true =>
        obtain ⟨m, set, same, bits⟩ := ebitmapNodeSetBit_spec start h.head.small
        rw [set]
        exact ⟨_, rfl, .first h high start same bits ⟨bit % a.size, by simp [bits]⟩⟩
      | false =>
        obtain ⟨m, clear, same, bits⟩ := ebitmapNodeClrBit_spec start h.head.small
        rw [clear, Option.map_some]
        refine ⟨_, rfl, ?_⟩
        split
        · rename_i left
          exact .first h high start same bits (findFirstBit_lt.mp left)
        · rename_i empty
          exact .dropped h high start same bits (findFirstBit_lt.not.mp empty)
    · by_cases le : n.startbit ≤ bit
      · rw [if_pos le, if_neg fun lt => start (h.head.covers.mp ⟨le, lt⟩)]
        obtain ⟨r, run, written⟩ := ih h.tail (some n) high
        rw [run]
        have lt : n.startbit < base a bit := by
          have past : ¬ reaches n bit := fun lt => start (h.head.covers.mp ⟨le, lt⟩)
          rw [reaches, a.long_eq h.head.small] at past
          have := lt_base_add (a := a) bit
          omega
        exact ⟨_, rfl, .behind h lt written⟩
      · rw [if_neg le]
        refine addNode_spec h prev (fun m mem => ?_) small high
        have := h.le mem
        omega

end SetBit

theorem NodesOk.start_of_subset (h : NodesOk (n :: l)) (sub : ∀ b, Mem (n :: l) b → Mem l' b) :
    ∃ m ∈ l', m.startbit = n.startbit := by
  obtain ⟨b, eq, mem⟩ := h.head.mem mem_cons_self
  obtain ⟨m, mem', start, -⟩ := sub b mem
  exact ⟨m, mem', start.trans eq⟩

theorem NodesOk.mem_head (h : NodesOk (n :: l)) (lt : ofs < a.size) :
    Mem (n :: l) (n.startbit + ofs) ↔ nodeBit n ofs = true := by
  have start := base_start h.head.aligned lt
  rw [mem_cons, start, mod_of_base h.head.aligned lt]
  simp [h.not_mem start.le]

theorem NodesOk.mem_tail (h : NodesOk (n :: l)) : Mem l b ↔ Mem (n :: l) b ∧ n.startbit < base a b := by
  rw [mem_cons]
  constructor
  · intro mem
    refine ⟨.inr mem, ?_⟩
    obtain ⟨m, mem, start, -⟩ := mem
    rw [← start]
    exact h.lt mem
  · rintro ⟨⟨start, -⟩ | mem, lt⟩
    · omega
    · exact mem

variable {l1 l2 : List (EbitmapNode a)}

theorem containsFrom_iff (h1 : NodesOk l1) (h2 : NodesOk l2) :
    containsFrom l1 l2 = true ↔ ∀ b, Mem l2 b → Mem l1 b := by
  induction l1 generalizing l2 with
  | nil =>
    cases l2 with
    | nil => simp [containsFrom]
    | cons n2 l2 =>
      simp only [containsFrom, isEmpty_cons, Bool.false_eq_true, false_iff]
      intro sub
      obtain ⟨m, mem, -⟩ := h2.start_of_subset sub
      cases mem
  | cons n1 l1 ih =>
    cases l2 with
    | nil => simp [containsFrom, Mem]
    | cons n2 l2 =>
      rw [containsFrom]
      rcases lt_trichotomy n1.startbit n2.startbit with lt | eq | gt
      · rw [if_pos lt.le, if_pos lt, ih h1.tail h2]
        -- nothing of the second list is in the first node
        apply forall_congr'
        intro b
        apply imp_congr_right
        rintro ⟨m, mem, start, -⟩
        have := h2.le mem
        rw [h1.mem_tail, and_iff_left (by omega)]
      · rw [if_pos eq.le, if_neg eq.not_lt, Bool.if_false_right, Bool.and_eq_true, decide_eq_true_iff,
          words_subset, ih h1.tail h2.tail]
        constructor
        · rintro ⟨bits, rest⟩ b mem
          rcases mem_cons.mp mem with ⟨start, set⟩ | mem
          · exact mem_cons.mpr (.inl ⟨eq.trans start, bits _ set⟩)
          · exact mem_cons.mpr (.inr (rest b mem))
        · intro sub
          constructor
          · intro ofs set
            have lt := nodeBit_lt set
            have mem := sub _ ((h2.mem_head lt).mpr set)
            rw [← eq] at mem
            exact (h1.mem_head lt).mp mem
          · intro b mem
            rw [h2.mem_tail] at mem
            exact h1.mem_tail.mpr ⟨sub b mem.1, eq ▸ mem.2⟩
      · rw [if_neg gt.not_ge]
        simp only [Bool.false_eq_true, false_iff]
        intro sub
        obtain ⟨m, mem, start⟩ := h2.start_of_subset sub
        have := h1.le mem
        omega

theorem lastEnd_le_of_subset (h1 : NodesOk l1) (h2 : NodesOk l2)
    (sub : ∀ b, Mem l2 b → Mem l1 b) : lastEnd none l2 ≤ lastEnd none l1 := by
  rcases lastEnd_eq h2 none with rfl | ⟨n, mem, eq⟩
  · exact Nat.zero_le _
  · obtain ⟨b, start, mem⟩ := (h2.node n mem).mem mem
    obtain ⟨m, mem, start', -⟩ := sub b mem
    have := le_lastEnd h1 none m mem
    omega

theorem nodes_ext (h1 : NodesOk l1) (h2 : NodesOk l2) (same : ∀ b, Mem l1 b ↔ Mem l2 b) : l1 = l2 := by
  induction l1 generalizing l2 with
  | nil =>
    cases l2 with
    | nil => rfl
    | cons n2 l2 =>
      obtain ⟨m, mem, -⟩ := h2.start_of_subset fun b => (same b).mpr
      cases mem
  | cons n1 l1 ih =>
    obtain ⟨m, mem, start⟩ := h1.start_of_subset fun b => (same b).mp
    cases l2 with
    | nil => cases mem
    | cons n2 l2 =>
      obtain ⟨k, mem', start'⟩ := h2.start_of_subset fun b => (same b).mpr
      have le := h2.le mem
      have le' := h1.le mem'
      have eq : n1.startbit = n2.startbit := by omega
      have bits : ∀ ofs, nodeBit n1 ofs = nodeBit n2 ofs := by
        intro ofs
        apply Bool.eq_iff_iff.mpr
        by_cases lt : ofs < a.size
        · rw [← h1.mem_head lt, ← h2.mem_head lt, eq, same]
        · exact ⟨fun set => absurd (nodeBit_lt set) lt, fun set => absurd (nodeBit_lt set) lt⟩
      have rest : l1 = l2 := by
        refine ih h1.tail h2.tail fun b => ?_
        rw [h1.mem_tail, h2.mem_tail, same, eq]
      rw [node_ext eq bits, rest]

theorem cmpFrom_iff (l1 l2 : List (EbitmapNode a)) : cmpFrom l1 l2 = true ↔ l1 = l2 := by
  induction l1 generalizing l2 with
  | nil => cases l2 <;> simp [cmpFrom]
  | cons n1 l1 ih =>
    cases l2 with
    | nil => simp [cmpFrom]
    | cons n2 l2 =>
      have node : n1 = n2 ↔ n1.startbit = n2.startbit ∧ n1.maps = n2.maps := by
        cases n1
        cases n2
        simp [and_comm]
      rw [cmpFrom]
      split <;> simp [*]

theorem cpyFrom_eq (kzalloc : Nat → Bool) {i : Nat} (run : cpyFrom kzalloc i l = some l') : l' = l := by
  induction l generalizing i l' with
  | nil => exact (Option.some.inj run).symm
  | cons n l ih =>
    rw [cpyFrom] at run
    split at run
    · obtain ⟨rest, run', rfl⟩ := Option.map_eq_some_iff.mp run
      rw [ih run']
    · cases run

/-- What calls of `ebitmap_set_bit` make of an empty bitmap, and the set they should make. -/
inductive Built : Ebitmap a → Finset Nat → Prop
  | init : Built ebitmapInit ∅
  | set {e e' : Ebitmap a} {s : Finset Nat} (bit : Nat) (value kzalloc : Bool) (built : Built e s)
      (small : bit < 2 ^ 31) (call : ebitmapSetBit e bit value kzalloc = some (e', .ok)) :
      Built e' (if value then insert bit s else s.erase bit)
  | failed {e e' : Ebitmap a} {s : Finset Nat} (bit : Nat) (value kzalloc : Bool) (built : Built e s)
      (small : bit < 2 ^ 31) (call : ebitmapSetBit e bit value kzalloc = some (e', .enomem)) : Built e' s

structure Holds (e : Ebitmap a) (s : Finset Nat) : Prop where
  nodes : NodesOk e.node
  high : e.highbit = lastEnd none e.node
  mem : ∀ b, Mem e.node b ↔ b ∈ s

variable {e e1 e2 : Ebitmap a} {s s1 s2 : Finset Nat}

theorem Holds.setBit (h : Holds e s) (small : bit < 2 ^ 31) (value kzalloc : Bool) :
    ∃ e' ret, ebitmapSetBit e bit value kzalloc = some (e', ret) ∧ (ret = .enomem → kzalloc = false ∧ e' = e) ∧
      (ret = .ok → Holds e' (if value then insert bit s else s.erase bit)) := by
  obtain ⟨r, run, written⟩ := @setBitFrom_spec a bit e.node value kzalloc _ h.nodes none small h.high
  refine ⟨⟨r.1, r.2.1⟩, r.2.2, by rw [ebitmapSetBit, run]; rfl, ?_, ?_⟩
  · intro failed
    obtain ⟨none, same⟩ := written.failed failed
    have high : r.2.1 = e.highbit := by rw [written.high, h.high, same]
    exact ⟨none, by rw [same, high]⟩
  · intro ok
    refine ⟨written.ok, written.high, fun b => ?_⟩
    rw [written.bits ok b]
    by_cases eq : b = bit <;> cases value <;> simp [eq, h.mem]

theorem Built.holds (built : Built e s) : Holds e s := by
  induction built with
  | init => exact ⟨nodesOk_nil, rfl, by simp [Mem, ebitmapInit]⟩
  | set bit value kzalloc _ small call ih =>
    obtain ⟨e', ret, run, -, ok⟩ := ih.setBit small _ _
    obtain ⟨rfl, rfl⟩ := Prod.mk.inj (Option.some.inj (run.symm.trans call))
    exact ok rfl
  | failed bit value kzalloc _ small call ih =>
    obtain ⟨e', ret, run, failed, -⟩ := ih.setBit small _ _
    obtain ⟨rfl, rfl⟩ := Prod.mk.inj (Option.some.inj (run.symm.trans call))
    rw [(failed rfl).2]
    exact ih

theorem Holds.getBit (h : Holds e s) (bit : Nat) : ebitmapGetBit e bit = some (decide (bit ∈ s)) := by
  rw [ebitmapGetBit]
  split
  · rename_i past
    have absent : ¬ Mem e.node bit := by
      rintro ⟨n, mem, start, -⟩
      have := le_lastEnd h.nodes none n mem
      have := lt_base_add (a := a) bit
      have := h.high
      omega
    simp [← h.mem, absent]
  · obtain ⟨v, run, iff⟩ := @getBitFrom_eq a bit _ h.nodes
    rw [run, Option.some.injEq, Bool.eq_iff_iff, iff, h.mem, decide_eq_true_iff]

theorem Holds.cmp (h1 : Holds e1 s1) (h2 : Holds e2 s2) : ebitmapCmp e1 e2 = decide (s1 = s2) := by
  have same : e1.node = e2.node ↔ s1 = s2 := by
    constructor
    · intro eq
      ext b
      rw [← h1.mem, ← h2.mem, eq]
    · intro eq
      refine nodes_ext h1.nodes h2.nodes fun b => ?_
      rw [h1.mem, h2.mem, eq]
  rw [Bool.eq_iff_iff, decide_eq_true_iff, ← same, ebitmapCmp]
  split
  · rename_i other
    simp only [Bool.false_eq_true, false_iff]
    intro eq
    exact other (by rw [h1.high, h2.high, eq])
  · exact cmpFrom_iff _ _

theorem Holds.contains (h1 : Holds e1 s1) (h2 : Holds e2 s2) : ebitmapContains e1 e2 = decide (s2 ⊆ s1) := by
  have sub : (∀ b, Mem e2.node b → Mem e1.node b) ↔ s2 ⊆ s1 := by simp [h1.mem, h2.mem, Finset.subset_iff]
  rw [Bool.eq_iff_iff, decide_eq_true_iff, ← sub, ebitmapContains]
  split
  · rename_i lower
    simp only [Bool.false_eq_true, false_iff]
    intro sub
    have := lastEnd_le_of_subset h1.nodes h2.nodes sub
    rw [h1.high, h2.high] at lower
    omega
  · exact containsFrom_iff h1.nodes h2.nodes

theorem ebitmapCpy_eq {kzalloc : Nat → Bool} {e' : Ebitmap a} (call : ebitmapCpy e kzalloc = (e', .ok)) : e' = e := by
  rw [ebitmapCpy] at call
  split at call
  · rename_i node run
    rw [cpyFrom_eq kzalloc run] at call
    exact (Prod.mk.inj call).1.symm
  · cases (Prod.mk.inj call).2

theorem cpyFrom_some {kzalloc : Nat → Bool} {i : Nat} {l : List (EbitmapNode a)}
    (every : ∀ j < l.length, kzalloc (i + j) = true) : cpyFrom kzalloc i l = some l := by
  induction l generalizing i with
  | nil => rfl
  | cons n next ih =>
    have first : kzalloc i = true := every 0 (Nat.succ_pos _)
    rw [cpyFrom, if_pos first, ih fun j lt => ?_]
    · rfl
    · rw [Nat.add_right_comm]
      exact every (j + 1) (Nat.succ_lt_succ lt)

theorem ebitmapCpy_ok {kzalloc : Nat → Bool} (every : ∀ i < e.node.length, kzalloc i = true) :
    ebitmapCpy e kzalloc = (e, .ok) := by
  rw [ebitmapCpy, cpyFrom_some fun j lt => by rw [Nat.zero_add]; exact every j lt]

/-- In every run `ebitmap_get_bit` is membership, a call of `ebitmap_set_bit` reaches no `BUG_ON` and changes
nothing when it fails, `ebitmap_cmp` and `ebitmap_contains` compare the sets, and a copy, which is made if there is
memory for its nodes, has the same set. -/
theorem ebitmap_refines_set (built : Built e s) : (∀ bit, ebitmapGetBit e bit = some (decide (bit ∈ s))) ∧
    (∀ bit < 2 ^ 31, ∀ value kzalloc, ∃ e' ret, ebitmapSetBit e bit value kzalloc = some (e', ret) ∧
      (ret = .enomem → kzalloc = false ∧ e' = e)) ∧ (∀ e2 s2, Built e2 s2 →
      ebitmapCmp e e2 = decide (s = s2) ∧ ebitmapContains e e2 = decide (s2 ⊆ s)) ∧
    ∀ kzalloc, ((∀ i < e.node.length, kzalloc i = true) → ∃ e', ebitmapCpy e kzalloc = (e', .ok)) ∧
      ∀ e', ebitmapCpy e kzalloc = (e', .ok) → Built e' s ∧
        ∀ bit, ebitmapGetBit e' bit = some (decide (bit ∈ s)) := by
  have h := built.holds
  refine ⟨h.getBit, ?_, ?_, ?_⟩
  · intro bit small value kzalloc
    obtain ⟨e', ret, run, failed, -⟩ := h.setBit small value kzalloc
    exact ⟨e', ret, run, failed⟩
  · intro e2 s2 built2
    exact ⟨h.cmp built2.holds, h.contains built2.holds⟩
  · intro kzalloc
    refine ⟨fun every => ⟨e, ebitmapCpy_ok every⟩, fun e' call => ?_⟩
    obtain rfl := ebitmapCpy_eq call
    exact ⟨built, h.getBit⟩

/-- The bit 200 is set behind the bit 1, and the bit 300 finds no memory. -/
theorem ebitmap_refines_set_failed :
    ∃ e : Ebitmap .bits64, Built e {200, 1} ∧ e.highbit = 256 ∧ ebitmapGetBit e 200 = some true ∧
      ebitmapGetBit e 300 = some false := by
  let one : EbitmapNode .bits64 := ⟨update (fun _ => 0) ⟨0, by decide⟩ 2, 0⟩
  let other : EbitmapNode .bits64 := ⟨update (fun _ => 0) ⟨1, by decide⟩ 256, 128⟩
  have first : Built (⟨[one], 128⟩ : Ebitmap .bits64) {1} := .set 1 true true .init (by decide) rfl
  have second : Built (⟨[one, other], 256⟩ : Ebitmap .bits64) {200, 1} :=
    .set 200 true true first (by decide) rfl
  have third : Built (⟨[one, other], 256⟩ : Ebitmap .bits64) {200, 1} :=
    .failed 300 true false second (by decide) rfl
  exact ⟨_, third, rfl, (ebitmap_refines_set third).1 200, (ebitmap_refines_set third).1 300⟩

end Selinux
