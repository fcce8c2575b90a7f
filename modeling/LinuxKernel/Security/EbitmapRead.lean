/- Reading an ebitmap from a policy: chunks of 64 bits with their positions, in the order of the file. -/
import LinuxKernel.Foundation.Lanes
import LinuxKernel.Security.EbitmapRefinement

namespace Selinux

open Function Width

variable {a : Arch}

inductive ReadError where
  | einval
  | enomem
  /-- A word behind the node would be written. -/
  | overrun
  deriving DecidableEq, Repr

/-- A little-endian word of the file after `next_entry` -/
def entry (fp : List UInt8) (bytes : Nat) : Nat := (Lanes.ofBytes bytes fun j => (fp.getD j 0).toBitVec).toNat

/-- The node for a chunk and the nodes before it, the last one first. -/
def nodeFor (kzalloc : Bool) (startbit : Nat) (nodes : List (EbitmapNode a)) :
    Except ReadError (EbitmapNode a × List (EbitmapNode a)) :=
  let tmp : EbitmapNode a := ⟨fun _ => 0, startbit - startbit % a.size⟩
  match nodes with
  | [] => if kzalloc then .ok (tmp, []) else .error .enomem
  | n :: before =>
    if a.long (n.startbit + a.size) ≤ startbit then
      if kzalloc then .ok (tmp, n :: before) else .error .enomem
    else if startbit ≤ n.startbit then .error .einval
    else .ok (n, before)

/-- The loop that writes the words of a chunk. A chunk has two of them at most. -/
def writeMap : Nat → EbitmapNode a → Nat → Nat → Option (EbitmapNode a)
  | 0, n, _, _ => some n
  | words + 1, n, index, map =>
    if map = 0 then some n
    else if h : index < a.unitNums then
      writeMap words { n with maps := update n.maps ⟨index, h⟩ (BitVec.ofNat _ map) } (index + 1)
        (map >>> a.unitSize)
    else none

/-- The loop of `ebitmap_read` over the chunks, with what `kzalloc` gives for each. -/
def readChunks (kzalloc : Nat → Bool) (highbit : Nat) :
    Nat → List (EbitmapNode a) → List UInt8 → Except ReadError (List (EbitmapNode a))
  | 0, nodes, _ => .ok nodes
  | count + 1, nodes, fp =>
    let startbit := entry fp 4
    if fp.length < 4 then .error .einval
    else if startbit % 64 ≠ 0 then .error .einval
    else if u32 (2 ^ 32 + highbit - 64) < startbit then .error .einval
    else
      match nodeFor (kzalloc count) startbit nodes with
      | .error e => .error e
      | .ok (n, before) =>
        let fp := fp.drop 4
        if fp.length < 8 then .error .einval
        else
          match writeMap 2 n ((startbit - n.startbit) / a.unitSize) (entry fp 8) with
          | none => .error .overrun
          | some n => readChunks kzalloc highbit count (n :: before) (fp.drop 8)

/-- `e->highbit` after it is rounded up -/
def roundHighbit (a : Arch) (highbit : Nat) : Nat :=
  let highbit := u32 (highbit + (a.size - 1))
  highbit - highbit % a.size

def ebitmapRead (kzalloc : Nat → Bool) (fp : List UInt8) : Except ReadError (Ebitmap a) :=
  if fp.length < 12 then .error .einval
  else if entry fp 4 ≠ 64 then .error .einval
  else
    let highbit := roundHighbit a (entry (fp.drop 4) 4)
    if highbit = 0 then .ok ⟨[], 0⟩
    else (readChunks kzalloc highbit (entry (fp.drop 8) 4) [] (fp.drop 12)).map fun nodes => ⟨nodes.reverse, highbit⟩

/-- The chunks of a file, each with its position and its map. -/
def chunksOf : Nat → List UInt8 → List (Nat × Nat)
  | 0, _ => []
  | count + 1, fp => (entry fp 4, entry (fp.drop 4) 8) :: chunksOf count (fp.drop 12)

def fileChunks (fp : List UInt8) : List (Nat × Nat) := chunksOf (entry (fp.drop 8) 4) (fp.drop 12)

theorem writeMap_spec {words index map : Nat} {n n' : EbitmapNode a} (run : writeMap words n index map = some n') :
    n'.startbit = n.startbit ∧ (map = 0 → n' = n) ∧
      (map ≠ 0 → map < 2 ^ (a.unitSize * words) → ∃ i, n'.maps i ≠ 0) := by
  induction words generalizing n index map with
  | zero =>
    cases run
    exact ⟨rfl, fun _ => rfl, fun ne lt => absurd (Nat.lt_one_iff.mp lt) ne⟩
  | succ words ih =>
    rw [writeMap] at run
    split_ifs at run with zero inside
    · cases run
      exact ⟨rfl, fun _ => rfl, fun ne => absurd zero ne⟩
    obtain ⟨same, -, rest⟩ := ih run
    refine ⟨same, fun eq => absurd eq zero, fun ne lt => ?_⟩
    by_cases last : map >>> a.unitSize = 0
    · have done (m : EbitmapNode a) (i : Nat) : writeMap words m i (map >>> a.unitSize) = some m := by
        cases words with
        | zero => rfl
        | succ words => rw [writeMap, if_pos last]
      cases run.symm.trans (done _ _)
      refine ⟨⟨index, inside⟩, fun empty => ?_⟩
      change update n.maps _ _ ⟨index, inside⟩ = 0 at empty
      rw [update_self] at empty
      have value := congrArg BitVec.toNat empty
      rw [Nat.shiftRight_eq_div_pow, Nat.div_eq_zero_iff_lt (Nat.two_pow_pos _)] at last
      rw [BitVec.toNat_ofNat, Nat.mod_eq_of_lt last] at value
      exact ne value
    · apply rest last
      rw [Nat.shiftRight_eq_div_pow, Nat.div_lt_iff_lt_mul (Nat.two_pow_pos _), ← Nat.pow_add]
      exact lt

theorem exists_nodeBit {n : EbitmapNode a} : (∃ i, n.maps i ≠ 0) ↔ ∃ ofs, nodeBit n ofs = true := by
  constructor
  · rintro ⟨i, ne⟩
    by_contra none
    refine ne (BitVec.eq_of_getLsbD_eq fun j lt => ?_)
    rw [← nodeBit_word i lt, Bool.eq_false_iff.mpr fun set => none ⟨_, set⟩]
    simp
  · rintro ⟨ofs, set⟩
    rw [nodeBit] at set
    split at set
    · next lt =>
      refine ⟨⟨_, lt⟩, fun zero => ?_⟩
      rw [zero] at set
      simp at set
    · cases set

theorem base_add_le {bit highbit : Nat} (aligned : a.size ∣ highbit) (lt : bit < highbit) :
    base a bit + a.size ≤ highbit := by
  by_contra past
  have le := base_le (a := a) bit
  have same : base a highbit = base a bit := base_eq (dvd_base bit) (by omega) (by omega)
  rw [base] at same
  omega

/-- The nodes that were read from the chunks, the last one first in both lists. -/
structure Read (highbit : Nat) (done : List (Nat × Nat)) (nodes : List (EbitmapNode a)) : Prop where
  node : ∀ n ∈ nodes, a.size ∣ n.startbit ∧ n.startbit + a.size ≤ highbit
  sorted : nodes.Pairwise fun m n => n.startbit < m.startbit
  last : nodes.head?.map (·.startbit) = done.head?.map (base a ·.1)
  start : ∀ c ∈ done, ∃ n ∈ nodes, n.startbit = base a c.1
  chunk : ∀ n ∈ nodes, ∃ c ∈ done, base a c.1 = n.startbit
  bit : ∀ n ∈ nodes, (∃ i, n.maps i ≠ 0) ↔ ∃ c ∈ done, base a c.1 = n.startbit ∧ c.2 ≠ 0

section Reading

variable {highbit startbit count : Nat} {done : List (Nat × Nat)} {nodes before : List (EbitmapNode a)}
  {n n' : EbitmapNode a} {kzalloc : Nat → Bool} {fp : List UInt8}

/-- A chunk starts a node behind the others, or it belongs to the last one. -/
structure Chosen (startbit : Nat) (done : List (Nat × Nat)) (nodes : List (EbitmapNode a)) (n : EbitmapNode a)
    (before : List (EbitmapNode a)) : Prop where
  start : n.startbit = base a startbit
  sub : before.Sublist nodes
  less : ∀ m ∈ before, m.startbit < n.startbit
  all : ∀ m ∈ nodes, m.startbit = n.startbit ∨ m ∈ before
  bit : (∃ i, n.maps i ≠ 0) ↔ ∃ c ∈ done, base a c.1 = n.startbit ∧ c.2 ≠ 0

theorem Read.nodeFor {kzalloc : Bool} (read : Read highbit done nodes) (high : highbit < 2 ^ 32)
    (run : nodeFor kzalloc startbit nodes = .ok (n, before)) : Chosen startbit done nodes n before := by
  have fresh (above : ∀ m ∈ nodes, m.startbit < base a startbit) :
      Chosen startbit done nodes ⟨fun _ => 0, base a startbit⟩ nodes := by
    refine ⟨rfl, .refl _, above, fun m mem => .inr mem, iff_of_false (by simp) ?_⟩
    rintro ⟨c, mem, eq, -⟩
    obtain ⟨m, old, start⟩ := read.start c mem
    exact absurd (above m old) (by simp only at eq; omega)
  rw [Selinux.nodeFor.eq_def] at run
  cases nodes with
  | nil =>
    dsimp only at run
    split_ifs at run
    cases run
    exact fresh (by simp)
  | cons m nodes =>
    obtain ⟨first, -⟩ := List.forall_mem_cons.mp read.node
    obtain ⟨less, -⟩ := List.pairwise_cons.mp read.sorted
    dsimp only at run
    rw [a.long_eq (by omega)] at run
    split_ifs at run with past _ le
    · cases run
      have above : m.startbit < base a startbit := by
        have := lt_base_add (a := a) startbit
        omega
      exact fresh (List.forall_mem_cons.mpr ⟨above, fun k mem => (less k mem).trans above⟩)
    · cases run
      refine ⟨(base_eq first.1 (by omega) (by omega)).symm, List.sublist_cons_self _ _, less, ?_,
        read.bit _ (by simp)⟩
      exact List.forall_mem_cons.mpr ⟨.inl rfl, fun k mem => .inr mem⟩

theorem Read.step (read : Read highbit done nodes) (aligned : a.size ∣ highbit) (lt : startbit < highbit)
    (chosen : Chosen startbit done nodes n before) {map : Nat} (same : n'.startbit = n.startbit)
    (unwritten : map = 0 → n' = n) (written : map ≠ 0 → ∃ i, n'.maps i ≠ 0) :
    Read highbit ((startbit, map) :: done) (n' :: before) := by
  have here : base a startbit = n'.startbit := chosen.start.symm.trans same.symm
  have other : ∀ m ∈ before, base a startbit ≠ m.startbit := fun m mem eq =>
    absurd (chosen.less m mem) (by omega)
  constructor
  · exact List.forall_mem_cons.mpr ⟨here ▸ ⟨dvd_base _, base_add_le aligned lt⟩,
      fun m mem => read.node m (chosen.sub.subset mem)⟩
  · exact .cons (same ▸ chosen.less) (read.sorted.sublist chosen.sub)
  · simp [here]
  · refine List.forall_mem_cons.mpr ⟨⟨n', by simp, here.symm⟩, fun c mem => ?_⟩
    obtain ⟨m, old, start⟩ := read.start c mem
    rcases chosen.all m old with eq | old
    · exact ⟨n', by simp, by omega⟩
    · exact ⟨m, List.mem_cons_of_mem _ old, start⟩
  · refine List.forall_mem_cons.mpr ⟨⟨_, List.mem_cons_self, here⟩, fun m mem => ?_⟩
    obtain ⟨c, old, eq⟩ := read.chunk m (chosen.sub.subset mem)
    exact ⟨c, List.mem_cons_of_mem _ old, eq⟩
  · refine List.forall_mem_cons.mpr ⟨?_, fun m mem => ?_⟩
    · by_cases zero : map = 0
      · rw [unwritten zero, chosen.bit]
        simp [zero]
      · exact iff_of_true (written zero) ⟨_, List.mem_cons_self, here, zero⟩
    · rw [read.bit m (chosen.sub.subset mem)]
      simp [other m mem]

theorem Read.chunks (read : Read highbit done nodes) (aligned : a.size ∣ highbit) (high : highbit < 2 ^ 32)
    (pos : highbit ≠ 0) {result : List (EbitmapNode a)}
    (run : readChunks kzalloc highbit count nodes fp = .ok result) :
    Read highbit ((chunksOf count fp).reverse ++ done) result := by
  induction count generalizing nodes fp done with
  | zero =>
    cases run
    exact read
  | succ count ih =>
    have size : 64 < a.size := by cases a <;> decide
    have le := Nat.le_of_dvd (Nat.pos_of_ne_zero pos) aligned
    rw [readChunks] at run
    dsimp only at run
    split_ifs at run with short unaligned past truncated
    · split at run <;> cases run
    split at run
    · cases run
    rename_i n before found
    split at run
    · cases run
    rename_i m wrote
    have inside : entry fp 4 < highbit := by
      rw [u32] at past
      omega
    obtain ⟨same, unwritten, written⟩ := writeMap_spec wrote
    have next := ih (read.step aligned inside (read.nodeFor high found) same unwritten fun ne =>
      written ne ((BitVec.isLt _).trans_le (by cases a <;> decide))) run
    rw [List.drop_drop] at next
    rwa [chunksOf, List.reverse_cons, List.append_assoc]

end Reading

theorem roundHighbit_spec (a : Arch) (highbit : Nat) :
    a.size ∣ roundHighbit a highbit ∧ roundHighbit a highbit < 2 ^ 32 :=
  ⟨dvd_base _, (base_le _).trans_lt (Nat.mod_lt _ (by decide))⟩

/-- The nodes and the high bit of a file that is read to its end. -/
theorem ebitmapRead_spec {kzalloc : Nat → Bool} {fp : List UInt8} {e : Ebitmap a}
    (run : ebitmapRead kzalloc fp = .ok e) : e = ⟨[], 0⟩ ∧ roundHighbit a (entry (fp.drop 4) 4) = 0 ∨
      roundHighbit a (entry (fp.drop 4) 4) ≠ 0 ∧ ∃ nodes, e = ⟨nodes.reverse, roundHighbit a (entry (fp.drop 4) 4)⟩ ∧
        Read e.highbit (fileChunks fp).reverse nodes := by
  obtain ⟨aligned, high⟩ := roundHighbit_spec a (entry (fp.drop 4) 4)
  rw [ebitmapRead] at run
  dsimp only at run
  split_ifs at run with short unit zero
  · cases run
    exact .inl ⟨rfl, zero⟩
  cases chunks : readChunks kzalloc (roundHighbit a (entry (fp.drop 4) 4)) (entry (fp.drop 8) 4) [] (fp.drop 12) with
  | error e =>
    rw [chunks] at run
    cases run
  | ok nodes =>
    rw [chunks] at run
    cases run
    have start : Read (roundHighbit a (entry (fp.drop 4) 4)) [] ([] : List (EbitmapNode a)) := by
      constructor <;> simp
    have read := start.chunks aligned high zero chunks
    rw [List.append_nil] at read
    exact .inr ⟨zero, nodes, rfl, read⟩

/-- In each node that the chunks of the file belong to some map is not 0, and the rounded high bit of the file is the
end of the node of the last chunk; or there is nothing to read. -/
def Proper (a : Arch) (fp : List UInt8) : Prop :=
  roundHighbit a (entry (fp.drop 4) 4) = 0 ∨
    (∀ c ∈ fileChunks fp, ∃ d ∈ fileChunks fp, base a d.1 = base a c.1 ∧ d.2 ≠ 0) ∧
    roundHighbit a (entry (fp.drop 4) 4) = (fileChunks fp).getLast?.elim 0 fun c => base a c.1 + a.size

instance (a : Arch) (fp : List UInt8) : Decidable (Proper a fp) := inferInstanceAs (Decidable (_ ∨ _ ∧ _))

open Classical in
theorem NodesOk.holds {e : Ebitmap a} (h : NodesOk e.node) (high : e.highbit = lastEnd none e.node) :
    Holds e ((Finset.range e.highbit).filter (Mem e.node)) where
  nodes := h
  high := high
  mem b := by
    rw [Finset.mem_filter, Finset.mem_range]
    refine ⟨fun mem => ⟨?_, mem⟩, And.right⟩
    obtain ⟨n, inside, start, -⟩ := mem
    have le := le_lastEnd h none n inside
    have := lt_base_add (a := a) b
    omega

/-- What `ebitmap_cmp` and `ebitmap_contains` rely on -/
structure Canonical (e : Ebitmap a) : Prop where
  aligned : ∀ n ∈ e.node, a.size ∣ n.startbit
  sorted : e.node.Pairwise fun m n => m.startbit < n.startbit
  bit : ∀ n ∈ e.node, ∃ ofs, nodeBit n ofs = true
  high : e.highbit = lastEnd none e.node

section Canonical

variable {kzalloc kzalloc' : Nat → Bool} {fp fp' : List UInt8} {e e' : Ebitmap a}

theorem canonical_iff (run : ebitmapRead kzalloc fp = .ok e) : Canonical e ↔ Proper a fp := by
  rcases ebitmapRead_spec run with ⟨rfl, zero⟩ | ⟨pos, nodes, rfl, read⟩
  · exact iff_of_true ⟨by simp, .nil, by simp, rfl⟩ (.inl zero)
  rw [Proper, or_iff_right pos]
  obtain ⟨-, high⟩ := roundHighbit_spec a (entry (fp.drop 4) 4)
  have last : lastEnd none nodes.reverse = (fileChunks fp).getLast?.elim 0 fun c => base a c.1 + a.size := by
    have same := read.last
    rw [lastEnd_eq_getLast, List.getLast?_reverse, Option.or_none]
    rw [List.head?_reverse] at same
    cases first : nodes.head? <;> cases chunk : (fileChunks fp).getLast? <;> rw [first, chunk] at same
    · rfl
    · cases same
    · cases same
    · next n c =>
      have := (read.node n (List.mem_of_head? first)).2
      have start : n.startbit = base a c.1 := Option.some.inj same
      rw [Option.elim, Option.elim, ← start]
      exact Nat.mod_eq_of_lt (by dsimp only at *; omega)
  constructor
  · intro canonical
    refine ⟨fun c mem => ?_, canonical.high.trans last⟩
    obtain ⟨n, node, start⟩ := read.start c (by simpa using mem)
    obtain ⟨d, old, eq, ne⟩ := (read.bit n node).mp (exists_nodeBit.mpr (canonical.bit n (by simpa using node)))
    exact ⟨d, by simpa using old, eq.trans start, ne⟩
  · rintro ⟨full, end_⟩
    refine ⟨fun n mem => (read.node n (by simpa using mem)).1, List.pairwise_reverse.mpr read.sorted, fun n mem => ?_,
      end_.trans last.symm⟩
    rw [← exists_nodeBit, read.bit n (by simpa using mem)]
    obtain ⟨c, old, start⟩ := read.chunk n (by simpa using mem)
    obtain ⟨d, mem, eq, ne⟩ := full c (by simpa using old)
    exact ⟨d, by simpa using mem, eq.trans start, ne⟩

theorem Canonical.nodesOk (canonical : Canonical e) (run : ebitmapRead kzalloc fp = .ok e) : NodesOk e.node := by
  refine ⟨fun n mem => ⟨canonical.aligned n mem, ?_, canonical.bit n mem⟩, canonical.sorted⟩
  rcases ebitmapRead_spec run with ⟨rfl, -⟩ | ⟨-, nodes, rfl, read⟩
  · simp at mem
  · have := (read.node n (by simpa using mem)).2
    have := (roundHighbit_spec a (entry (fp.drop 4) 4)).2
    dsimp only at *
    omega

/-- The bitmap that is read is canonical if and only if the file is proper. Comparisons of two such bitmaps decide
equality and inclusion. -/
theorem ebitmap_read_canonical_iff (run : ebitmapRead kzalloc fp = .ok e) (run' : ebitmapRead kzalloc' fp' = .ok e') :
    (Canonical e ↔ Proper a fp) ∧ (Proper a fp → Proper a fp' →
      (ebitmapCmp e e' = true ↔ ∀ b, Mem e.node b ↔ Mem e'.node b) ∧
      (ebitmapContains e e' = true ↔ ∀ b, Mem e'.node b → Mem e.node b)) := by
  refine ⟨canonical_iff run, fun proper proper' => ?_⟩
  have canonical := (canonical_iff run).mpr proper
  have canonical' := (canonical_iff run').mpr proper'
  have holds := (canonical.nodesOk run).holds canonical.high
  have holds' := (canonical'.nodesOk run').holds canonical'.high
  rw [holds.cmp holds', holds.contains holds', decide_eq_true_iff, decide_eq_true_iff, Finset.ext_iff,
    Finset.subset_iff]
  simp only [← holds.mem, ← holds'.mem, true_and]

end Canonical

/-- A file with one chunk at position 0, and its high bit in the first node. -/
def oneChunk (map : UInt8) : List UInt8 :=
  [64, 0, 0, 0, 64, 0, 0, 0, 1, 0, 0, 0, 0, 0, 0, 0, map, 0, 0, 0, 0, 0, 0, 0]

/-- Two chunks in the first node, of which the first is empty. -/
def twoChunks : List UInt8 :=
  [64, 0, 0, 0, 128, 0, 0, 0, 2, 0, 0, 0, 0, 0, 0, 0, 0, 0, 0, 0, 0, 0, 0, 0, 64, 0, 0, 0, 5, 0, 0, 0, 0, 0, 0, 0]

theorem ebitmap_read_canonical_iff_two : ∃ e e' : Ebitmap .bits64,
    ebitmapRead (fun _ => true) (oneChunk 5) = .ok e ∧ ebitmapRead (fun _ => true) twoChunks = .ok e' ∧
    Canonical e' ∧ ebitmapCmp e e = true := by
  have run : ebitmapRead (a := .bits64) (fun _ => true) (oneChunk 5) = .ok _ := rfl
  have run' : ebitmapRead (a := .bits64) (fun _ => true) twoChunks = .ok _ := rfl
  have proper : Proper .bits64 (oneChunk 5) := by decide
  refine ⟨_, _, run, run', (ebitmap_read_canonical_iff run' run).1.mpr (by decide), ?_⟩
  exact ((ebitmap_read_canonical_iff run run).2 proper proper).1.mpr fun b => Iff.rfl

/-- An empty chunk makes a node without bits. The bitmap is not equal to the one of a file without chunks. -/
theorem ebitmap_read_empty : ∃ e e' : Ebitmap .bits64, ebitmapRead (fun _ => true) (oneChunk 0) = .ok e ∧
    ebitmapRead (fun _ => true) [64, 0, 0, 0, 0, 0, 0, 0, 0, 0, 0, 0] = .ok e' ∧ e.node.length = 1 ∧
    (∀ b, ¬Mem e.node b) ∧ (∀ b, ¬Mem e'.node b) ∧ ebitmapCmp e e' = false := by
  refine ⟨_, _, rfl, rfl, rfl, fun b => ?_, fun b => ?_, rfl⟩
  · rintro ⟨n, mem, -, set⟩
    have zero : n = ⟨fun _ => 0, 0⟩ := List.mem_singleton.mp mem
    rw [zero, nodeBit] at set
    split at set <;> simp at set
  · simp [Mem]

end Selinux
