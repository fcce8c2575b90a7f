/- An ebitmap as a NetLabel category map and back: blocks of four words of 64 bits against nodes of machine words. -/
import Mathlib.Tactic.FinCases
import LinuxKernel.Security.EbitmapRefinement

namespace Selinux

open Function List Width

variable {a : Arch}

/-- `struct netlbl_lsm_secattr_catmap`; `next` is the rest of the list. -/
structure Catmap where
  startbit : Nat
  bitmap : Fin 4 → BitVec 64
  deriving DecidableEq

inductive NetlblError where
  | enomem
  /-- A word behind the block or the node would be written. -/
  | overrun
  /-- The first block would be read through a null pointer. -/
  | null
  deriving DecidableEq, Repr

/-- `e_iter->maps[i] << cmap_sft` in `unsigned long`, where C leaves a shift by the whole width open. -/
def shiftUnit (undef : BitVec a.unitSize → BitVec a.unitSize) (w : BitVec a.unitSize) (sft : Nat) :
    BitVec a.unitSize :=
  if sft < a.unitSize then w <<< sft else undef w

/-- `e_startbit` and `maps[i]` in the turns of the inner loop of the export -/
def EbitmapNode.units (n : EbitmapNode a) : List (Nat × BitVec a.unitSize) :=
  List.ofFn fun i => (u32 (n.startbit + i * a.unitSize), n.maps i)

/-- The block for a unit and the blocks before it, the last one first. -/
def blockFor (kzalloc : Nat → Bool) (eStartbit : Nat) (blocks : Catmap × List Catmap) :
    Option (Catmap × List Catmap) :=
  if u32 (blocks.1.startbit + 256) ≤ eStartbit then
    if kzalloc (blocks.2.length + 1) then some (⟨eStartbit - eStartbit % 256, fun _ => 0⟩, blocks.1 :: blocks.2)
    else none
  else some blocks

/-- One turn of the inner loop of `ebitmap_netlbl_export` -/
def exportUnit (undef : BitVec a.unitSize → BitVec a.unitSize) (kzalloc : Nat → Bool)
    (blocks : Catmap × List Catmap) (unit : Nat × BitVec a.unitSize) : Except NetlblError (Catmap × List Catmap) :=
  match blockFor kzalloc unit.1 blocks with
  | none => .error .enomem
  | some (c, before) =>
    let delta := u32 (2 ^ 32 + unit.1 - c.startbit)
    if h : delta / 64 < 4 then
      let word := c.bitmap ⟨_, h⟩ ||| (shiftUnit undef unit.2 (delta % 64)).setWidth 64
      .ok ({ c with bitmap := update c.bitmap ⟨_, h⟩ word }, before)
    else .error .overrun

def ebitmapNetlblExport (undef : BitVec a.unitSize → BitVec a.unitSize) (kzalloc : Nat → Bool) (e : Ebitmap a) :
    Except NetlblError (List Catmap) :=
  match e.node with
  | [] => .ok []
  | n :: _ =>
    if kzalloc 0 then do
      let blocks ← (e.node.flatMap EbitmapNode.units).foldlM (exportUnit undef kzalloc)
        (⟨n.startbit - n.startbit % 256, fun _ => 0⟩, [])
      return (blocks.1 :: blocks.2).reverse
    else .error .enomem

/-- `c_pos` and `map` in the turns of the inner loop of the import -/
def Catmap.words (c : Catmap) : List (Nat × BitVec 64) :=
  List.ofFn fun i => (u32 (c.startbit + i * 64), c.bitmap i)

/-- The node for a word and the nodes before it, the last one first. -/
def importNode (kzalloc : Nat → Bool) (cPos : Nat) (nodes : List (EbitmapNode a)) :
    Option (EbitmapNode a × List (EbitmapNode a)) :=
  let new := if kzalloc nodes.length then some (⟨fun _ => 0, cPos - cPos % a.size⟩, nodes) else none
  match nodes with
  | [] => new
  | n :: before => if a.long (n.startbit + a.size) ≤ cPos then new else some (n, before)

/-- The loop that adds a word to the units of a node. A word has two of them at most. -/
def orMap : Nat → EbitmapNode a → Nat → Nat → Option (EbitmapNode a)
  | 0, n, _, _ => some n
  | units + 1, n, index, map =>
    if map = 0 then some n
    else if h : index < a.unitNums then
      orMap units { n with maps := update n.maps ⟨index, h⟩ (n.maps ⟨index, h⟩ ||| BitVec.ofNat _ map) } (index + 1)
        (map >>> a.unitSize)
    else none

/-- One turn of the inner loop of `ebitmap_netlbl_import` -/
def importWord (kzalloc : Nat → Bool) (nodes : List (EbitmapNode a)) (word : Nat × BitVec 64) :
    Except NetlblError (List (EbitmapNode a)) :=
  if word.2 = 0 then .ok nodes
  else
    match importNode kzalloc word.1 nodes with
    | none => .error .enomem
    | some (n, before) =>
      match orMap 2 n (u32 (2 ^ 32 + word.1 - n.startbit) / a.unitSize) word.2.toNat with
      | none => .error .overrun
      | some n => .ok (n :: before)

def ebitmapNetlblImport (kzalloc : Nat → Bool) (catmap : List Catmap) : Except NetlblError (Ebitmap a) :=
  if catmap.isEmpty then .error .null
  else do
    let nodes ← (catmap.flatMap Catmap.words).foldlM (importWord kzalloc) []
    return ⟨nodes.reverse, nodes.head?.elim 0 fun n => u32 (n.startbit + a.size)⟩

section Unless

variable {α β : Type} {run : Except NetlblError α} {P : α → Prop} {Q : β → Prop}

/-- What a result satisfies, if there was memory for it. -/
def UnlessNomem (run : Except NetlblError α) (P : α → Prop) : Prop := run = .error .enomem ∨ ∃ x, run = .ok x ∧ P x

theorem UnlessNomem.bind {f : α → Except NetlblError β} (first : UnlessNomem run P)
    (rest : ∀ x, P x → UnlessNomem (f x) Q) : UnlessNomem (run >>= f) Q := by
  rcases first with rfl | ⟨x, rfl, h⟩
  · exact .inl rfl
  · exact rest x h

end Unless

/-- The bits of words that stand at their positions. -/
def InWords {k : Nat} (words : List (Nat × BitVec k)) (b : Nat) : Prop :=
  ∃ x ∈ words, x.1 ≤ b ∧ x.2.getLsbD (b - x.1) = true

section Export

variable {undef : BitVec a.unitSize → BitVec a.unitSize} {kzalloc : Nat → Bool} {pos p b : Nat}
  {nodes : List (EbitmapNode a)} {words : List (Nat × BitVec 64)} {c : Catmap} {before : List Catmap}
  {blocks : Catmap × List Catmap} {w : BitVec a.unitSize} {units : List (Nat × BitVec a.unitSize)}

/-- The words with a bit; the import passes over the others. -/
def nonzero (words : List (Nat × BitVec 64)) : List (Nat × BitVec 64) := words.filter (·.2 ≠ 0)

theorem foldlM_nonzero :
    (nonzero words).foldlM (importWord kzalloc) nodes = words.foldlM (importWord kzalloc) nodes := by
  induction words generalizing nodes with
  | nil => rfl
  | cons word words ih =>
    by_cases zero : word.2 = 0
    · rw [nonzero, filter_cons_of_neg (by simpa using zero), foldlM_cons, importWord, if_pos zero]
      exact ih
    · rw [nonzero, filter_cons_of_pos (by simpa using zero)]
      exact congrArg (importWord kzalloc nodes word >>= ·) (funext fun nodes => ih)

variable (words) in
theorem inWords_nonzero : InWords (nonzero words) b ↔ InWords words b := by
  simp only [InWords, nonzero, mem_filter, and_assoc]
  refine exists_congr fun x => and_congr_right fun _ => and_iff_right_of_imp ?_
  rintro ⟨-, set⟩
  exact decide_eq_true fun zero => by simp [zero] at set

theorem inWords_append {k : Nat} {l m : List (Nat × BitVec k)} : InWords (l ++ m) b ↔ InWords l b ∨ InWords m b := by
  simp [InWords, or_and_right, exists_or]

/-- The word of the category map that a unit goes to, and what is added to it. -/
def landed (undef : BitVec a.unitSize → BitVec a.unitSize) (unit : Nat × BitVec a.unitSize) : Nat × BitVec 64 :=
  (unit.1 - unit.1 % 64, (shiftUnit undef unit.2 (unit.1 % 64)).setWidth 64)

section Put

variable {j : Fin 4} {v : BitVec 64} {x : Nat × BitVec 64}

/-- The block with bits added to a word. -/
def put (c : Catmap) (j : Fin 4) (v : BitVec 64) : Catmap :=
  { c with bitmap := update c.bitmap j (c.bitmap j ||| v) }

theorem mem_words : x ∈ c.words ↔ ∃ i : Fin 4, (u32 (c.startbit + i * 64), c.bitmap i) = x := mem_ofFn' _ _

theorem mem_words_put (mem : x ∈ (put c j v).words) : x ∈ c.words ∨ x.1 = u32 (c.startbit + j * 64) := by
  obtain ⟨i, rfl⟩ := mem_words.mp mem
  by_cases here : i = j
  · exact .inr (here ▸ rfl)
  · exact .inl (mem_words.mpr ⟨i, by simp [put, here]⟩)

theorem inWords_put :
    InWords (put c j v).words b ↔ InWords c.words b ∨ InWords [(u32 (c.startbit + j * 64), v)] b := by
  have words (c : Catmap) : InWords c.words b ↔ ∃ i : Fin 4, u32 (c.startbit + i * 64) ≤ b ∧
      (c.bitmap i).getLsbD (b - u32 (c.startbit + i * 64)) = true := by
    simp only [InWords, mem_words, exists_exists_eq_and]
  rw [words, words]
  simp only [put, InWords, mem_singleton, exists_eq_left]
  constructor
  · rintro ⟨i, le, set⟩
    by_cases here : i = j
    · subst here
      rw [update_self, BitVec.getLsbD_or, Bool.or_eq_true] at set
      exact set.imp (fun old => ⟨i, le, old⟩) fun new => ⟨le, new⟩
    · exact .inl ⟨i, le, by rwa [update_of_ne here] at set⟩
  · rintro (⟨i, le, set⟩ | ⟨le, set⟩)
    · refine ⟨i, le, ?_⟩
      by_cases here : i = j
      · subst here
        simp [set]
      · rwa [update_of_ne here]
    · exact ⟨j, le, by simp [set]⟩

theorem words_sorted (small : c.startbit + 256 ≤ 2 ^ 32) : c.words.Pairwise fun x y => x.1 ≤ y.1 := by
  refine pairwise_ofFn.mpr fun i j lt => ?_
  have : (i : Nat) ≤ j := lt.le
  rw [u32, u32]
  omega

end Put

def allWords (blocks : Catmap × List Catmap) : List (Nat × BitVec 64) :=
  blocks.2.reverse.flatMap Catmap.words ++ blocks.1.words

theorem mem_nonzero_append {l : List (Nat × BitVec 64)} {x : Nat × BitVec 64} :
    x ∈ nonzero (words ++ l) ↔ x ∈ nonzero words ∨ x ∈ nonzero l := by
  simp [nonzero]

/-- The words with bits are in order, up to a position. -/
structure Laid (a : Arch) (blocks : Catmap × List Catmap) (p : Nat) : Prop where
  aligned : 256 ∣ blocks.1.startbit
  le : blocks.1.startbit ≤ p
  sorted : (nonzero (allWords blocks)).Pairwise fun x y => x.1 ≤ y.1
  fine : ∀ x ∈ nonzero (allWords blocks), x.1 ≤ p ∧ 64 ∣ x.1 ∧ base a x.1 + a.size < 2 ^ 32

theorem Laid.mono {q : Nat} (laid : Laid a blocks p) (le : p ≤ q) : Laid a blocks q :=
  ⟨laid.aligned, laid.le.trans le, laid.sorted, fun x mem => ⟨(laid.fine x mem).1.trans le, (laid.fine x mem).2⟩⟩

theorem Laid.put {j : Fin 4} (laid : Laid a (c, before) p) (here : p = u32 (c.startbit + j * 64)) (lt : p < 2 ^ 32)
    (dvd : 64 ∣ p) (small : base a p + a.size < 2 ^ 32) (v : BitVec 64) : Laid a (put c j v, before) p := by
  have either {x : Nat × BitVec 64} (mem : x ∈ nonzero (Selinux.put c j v).words) :
      x ∈ nonzero c.words ∨ x.1 = p := by
    obtain ⟨mem, bit⟩ := mem_filter.mp mem
    exact (mem_words_put mem).imp (fun old => mem_filter.mpr ⟨old, bit⟩) fun eq => eq.trans here.symm
  have sorted := laid.sorted
  have aligned := laid.aligned
  have le := laid.le
  rw [allWords, nonzero, filter_append, pairwise_append] at sorted
  refine ⟨aligned, le, ?_, fun x mem => ?_⟩
  · rw [allWords, nonzero, filter_append, pairwise_append]
    refine ⟨sorted.1, (words_sorted (by dsimp only [Selinux.put] at *; omega)).sublist filter_sublist,
      fun x old y new => ?_⟩
    rcases either new with old' | eq
    · exact sorted.2.2 x old y old'
    · exact eq ▸ (laid.fine x (mem_nonzero_append.mpr (.inl old))).1
  · rcases mem_nonzero_append.mp mem with old | new
    · exact laid.fine x (mem_nonzero_append.mpr (.inl old))
    · rcases either new with old | eq
      · exact laid.fine x (mem_nonzero_append.mpr (.inr old))
      · rw [eq]
        exact ⟨le_rfl, dvd, small⟩

variable (kzalloc) in
theorem blockFor_spec (laid : Laid a blocks (pos - pos % 64)) (lt : pos < 2 ^ 32) :
    blockFor kzalloc pos blocks = none ∨ ∃ c before, blockFor kzalloc pos blocks = some (c, before) ∧
      Laid a (c, before) (pos - pos % 64) ∧ pos < c.startbit + 256 ∧
      nonzero (allWords (c, before)) = nonzero (allWords blocks) := by
  rw [blockFor]
  split_ifs with past
  · have zero : nonzero (Catmap.words ⟨pos - pos % 256, fun _ => 0⟩) = [] := by simp [nonzero, Catmap.words]
    have same : nonzero (allWords (⟨pos - pos % 256, fun _ => 0⟩, blocks.1 :: blocks.2)) =
        nonzero (allWords blocks) := by
      rw [allWords, nonzero, filter_append, ← nonzero, ← nonzero, zero]
      simp [allWords]
    exact .inr ⟨_, _, rfl, ⟨Nat.dvd_sub_mod pos, by dsimp only; omega, same ▸ laid.sorted, same ▸ laid.fine⟩,
      by dsimp only; omega, same⟩
  · exact .inl rfl
  · have := laid.le
    rw [u32] at past
    exact .inr ⟨_, _, rfl, laid, by omega, rfl⟩

theorem exportUnit_spec (laid : Laid a blocks (pos - pos % 64)) (lt : pos < 2 ^ 32)
    (small : base a (pos - pos % 64) + a.size < 2 ^ 32) :
    UnlessNomem (exportUnit undef kzalloc blocks (pos, w)) fun blocks' => Laid a blocks' (pos - pos % 64) ∧
      ∀ b, InWords (allWords blocks') b ↔ InWords (allWords blocks) b ∨ InWords [landed undef (pos, w)] b := by
  rcases blockFor_spec kzalloc laid lt with fail | ⟨c, before, found, laid, inside, same⟩
  · exact .inl (by simp only [exportUnit, fail])
  have aligned : 256 ∣ c.startbit := laid.aligned
  have le : c.startbit ≤ pos - pos % 64 := laid.le
  have delta : u32 (2 ^ 32 + pos - c.startbit) = pos - c.startbit := by
    rw [u32]
    omega
  have index : (pos - c.startbit) / 64 < 4 := by omega
  have sft : (pos - c.startbit) % 64 = pos % 64 := by omega
  obtain ⟨j, eq⟩ : ∃ j : Fin 4, ⟨(pos - c.startbit) / 64, index⟩ = j := ⟨_, rfl⟩
  have here : pos - pos % 64 = u32 (c.startbit + j * 64) := by
    rw [← eq, u32]
    dsimp only
    omega
  refine .inr ⟨(put c j (landed undef (pos, w)).2, before), ?_, laid.put here (by omega) (by omega) small _,
    fun b => ?_⟩
  · simp only [exportUnit, found, delta, sft, dif_pos index, eq, put, landed]
  · rw [← inWords_nonzero (allWords blocks), ← same, inWords_nonzero, allWords, allWords, inWords_append,
      inWords_append, inWords_put, or_assoc, ← here, landed]

theorem exportUnits_spec (sorted : units.Pairwise fun x y => x.1 < y.1)
    (fine : ∀ unit ∈ units, unit.1 < 2 ^ 32 ∧ base a (unit.1 - unit.1 % 64) + a.size < 2 ^ 32)
    (laid : Laid a blocks p) (ahead : ∀ unit ∈ units, p ≤ unit.1 - unit.1 % 64) :
    UnlessNomem (units.foldlM (exportUnit undef kzalloc) blocks) fun blocks' => (∃ q, Laid a blocks' q) ∧
      ∀ b, InWords (allWords blocks') b ↔ InWords (allWords blocks) b ∨ InWords (units.map (landed undef)) b := by
  induction units generalizing blocks p with
  | nil => exact .inr ⟨blocks, rfl, ⟨p, laid⟩, by simp [InWords]⟩
  | cons unit units ih =>
    obtain ⟨⟨lt, small⟩, fine⟩ := forall_mem_cons.mp fine
    obtain ⟨less, sorted⟩ := pairwise_cons.mp sorted
    rw [foldlM_cons]
    refine (exportUnit_spec (laid.mono (ahead unit mem_cons_self)) lt small).bind ?_
    rintro blocks' ⟨laid, first⟩
    obtain fail | ⟨result, run, laid, rest⟩ := ih sorted fine laid fun other mem => by
      have := less other mem
      omega
    · exact .inl fail
    · refine .inr ⟨result, run, laid, fun b => ?_⟩
      rw [rest, first, or_assoc, ← inWords_append]
      rfl

end Export

section Import

variable {kzalloc : Nat → Bool} {n : EbitmapNode a} {pos : Nat} {nodes l : List (EbitmapNode a)} {w : BitVec 64}
  {words : List (Nat × BitVec 64)} {b : Nat}

/-- A word of the category map is a number of units. -/
theorem Arch.units_of_word (a : Arch) : ∃ k ≤ 2, a.unitSize * k = 64 ∧ 64 ∣ a.size := by
  cases a with
  | bits32 => exact ⟨2, by decide, rfl, by decide⟩
  | bits64 => exact ⟨1, by decide, rfl, by decide⟩

theorem nodeBit_or (i : Fin a.unitNums) (v : BitVec a.unitSize) (ofs : Nat) :
    nodeBit { n with maps := update n.maps i (n.maps i ||| v) } ofs = true ↔
      nodeBit n ofs = true ∨ ofs / a.unitSize = i ∧ v.getLsbD (ofs % a.unitSize) = true := by
  unfold nodeBit
  split
  · next lt =>
    by_cases here : (⟨ofs / a.unitSize, lt⟩ : Fin a.unitNums) = i
    · subst here
      simp
    · have other : ofs / a.unitSize ≠ i := fun eq => here (Fin.ext eq)
      simp [update_of_ne here, other]
  · next out =>
    have other : ofs / a.unitSize ≠ i := fun eq => out (eq ▸ i.isLt)
    simp [other]

theorem orMap_spec {fuel k index map : Nat} (le : k ≤ fuel) (inside : index + k ≤ a.unitNums)
    (small : map < 2 ^ (a.unitSize * k)) : ∃ n', orMap fuel n index map = some n' ∧ n'.startbit = n.startbit ∧
      ∀ ofs, nodeBit n' ofs = true ↔
        nodeBit n ofs = true ∨ a.unitSize * index ≤ ofs ∧ map.testBit (ofs - a.unitSize * index) = true := by
  have stop (zero : map = 0) : ∃ n', orMap fuel n index map = some n' ∧ n'.startbit = n.startbit ∧
      ∀ ofs, nodeBit n' ofs = true ↔
        nodeBit n ofs = true ∨ a.unitSize * index ≤ ofs ∧ map.testBit (ofs - a.unitSize * index) = true :=
    ⟨n, by cases fuel <;> simp [orMap, zero], rfl, by simp [zero]⟩
  induction k generalizing fuel n index map with
  | zero => exact stop (Nat.lt_one_iff.mp small)
  | succ k ih =>
    by_cases zero : map = 0
    · exact stop zero
    obtain ⟨fuel, rfl⟩ := Nat.exists_eq_add_of_le' (Nat.le_of_add_left_le le)
    have high : map >>> a.unitSize < 2 ^ (a.unitSize * k) := by
      rw [Nat.shiftRight_eq_div_pow, Nat.div_lt_iff_lt_mul (Nat.two_pow_pos _), ← Nat.pow_add]
      exact small
    have lt : index < a.unitNums := by omega
    have inside' : index + 1 + k ≤ a.unitNums := by omega
    obtain ⟨n', run, start, bits⟩ := ih (Nat.le_of_add_le_add_right le) inside' high
      (n := { n with maps := update n.maps ⟨index, lt⟩ (n.maps ⟨index, lt⟩ ||| BitVec.ofNat _ map) })
      (fun zero => ⟨_, by cases fuel <;> simp [orMap, zero], rfl, by simp [zero]⟩)
    refine ⟨n', by rw [orMap, if_neg zero, dif_pos lt, run], start, fun ofs => ?_⟩
    have unit : ofs / a.unitSize = index ↔ a.unitSize * index ≤ ofs ∧ ofs < a.unitSize * index + a.unitSize := by
      rw [Nat.div_eq_iff a.unitSize_pos, Nat.mul_comm index]
      have := a.unitSize_pos
      omega
    rw [bits, nodeBit_or, or_assoc, unit, BitVec.getLsbD_ofNat, Nat.testBit_shiftRight, Nat.mul_succ]
    refine or_congr_right ?_
    rcases Nat.lt_or_ge ofs (a.unitSize * index) with below | from_
    · simp only [not_le.mpr below, show ¬a.unitSize * index + a.unitSize ≤ ofs by omega, false_and, or_self]
    · have inUnit : ofs < a.unitSize * index + a.unitSize → ofs % a.unitSize = ofs - a.unitSize * index := by
        intro lt
        rw [Nat.mod_def, (unit.mpr ⟨from_, lt⟩)]
      rcases Nat.lt_or_ge ofs (a.unitSize * index + a.unitSize) with inside | beyond
      · rw [inUnit inside]
        simp [from_, inside, not_le.mpr inside, show ofs - a.unitSize * index < a.unitSize by omega]
      · rw [show a.unitSize + (ofs - (a.unitSize * index + a.unitSize)) = ofs - a.unitSize * index by omega]
        simp [from_, beyond, not_lt.mpr beyond]

structure HeadOk (nodes : List (EbitmapNode a)) (pos : Nat) : Prop where
  aligned : ∀ n ∈ nodes.head?, a.size ∣ n.startbit
  small : ∀ n ∈ nodes.head?, n.startbit + a.size < 2 ^ 32
  le : ∀ n ∈ nodes.head?, n.startbit ≤ pos

variable (kzalloc) in
theorem importNode_spec (ok : HeadOk nodes pos) :
    importNode kzalloc pos nodes = none ∨ ∃ n before, importNode kzalloc pos nodes = some (n, before) ∧
      n.startbit = base a pos ∧ ∀ b, Mem (n :: before) b ↔ Mem nodes b := by
  have new : let new : Option (EbitmapNode a × _) :=
      if kzalloc nodes.length then some (⟨fun _ => 0, pos - pos % a.size⟩, nodes) else none
      new = none ∨ ∃ n before, new = some (n, before) ∧ n.startbit = base a pos ∧
        ∀ b, Mem (n :: before) b ↔ Mem nodes b := by
    dsimp only
    split
    · refine .inr ⟨_, _, rfl, rfl, fun b => ?_⟩
      rw [mem_cons, or_iff_right]
      simp [nodeBit]
    · exact .inl rfl
  cases nodes with
  | nil => exact new
  | cons n before =>
    have small := ok.small n rfl
    have le := ok.le n rfl
    rw [importNode, Arch.long_eq _ small]
    split
    · exact new
    · exact .inr ⟨n, before, rfl, (base_eq (ok.aligned n rfl) le (by omega)).symm, fun b => Iff.rfl⟩

theorem importWord_spec (ok : HeadOk nodes pos) (dvd : 64 ∣ pos) (small : base a pos + a.size < 2 ^ 32) :
    UnlessNomem (importWord kzalloc nodes (pos, w)) fun nodes' =>
      HeadOk nodes' pos ∧ ∀ b, Mem nodes' b ↔ Mem nodes b ∨ InWords [(pos, w)] b := by
  by_cases zero : w = 0
  · exact .inr ⟨nodes, if_pos zero, ok, by simp [InWords, zero]⟩
  rw [importWord, if_neg zero]
  rcases importNode_spec kzalloc ok with fail | ⟨n, before, found, start, same⟩
  · exact .inl (by simp only [fail])
  obtain ⟨k, two, word, whole⟩ := a.units_of_word
  have low : 64 ∣ pos % a.size := (Nat.dvd_mod_iff whole).mpr dvd
  have rest : pos % a.size + 64 ≤ a.size := by
    have := Nat.mod_lt pos a.size_pos
    omega
  obtain ⟨i, unit⟩ : a.unitSize ∣ pos % a.size := (Dvd.intro k word).trans low
  have size : a.size = a.unitSize * a.unitNums := Nat.mul_comm ..
  have delta : u32 (2 ^ 32 + pos - n.startbit) = a.unitSize * i := by
    have := base_add (a := a) pos
    rw [u32, start]
    omega
  have inside : i + k ≤ a.unitNums := Nat.le_of_mul_le_mul_left (by rw [Nat.mul_add]; omega) a.unitSize_pos
  have small' : w.toNat < 2 ^ (a.unitSize * k) := by
    rw [word]
    exact w.isLt
  obtain ⟨n', run, start', bits⟩ := orMap_spec (n := n) two inside small'
  refine .inr ⟨n' :: before, ?_, ?_, fun b => ?_⟩
  · simp only [found, delta, Nat.mul_div_cancel_left i a.unitSize_pos, run]
  · refine ⟨?_, ?_, ?_⟩ <;> rintro _ ⟨⟩ <;> rw [start', start]
    · exact dvd_base pos
    · exact small
    · exact base_le pos
  · rw [← same, mem_cons, mem_cons, start', bits, and_or_left, or_right_comm]
    refine or_congr_right ?_
    rw [start, ← unit]
    simp only [InWords, mem_singleton, exists_eq_left, ← BitVec.testBit_toNat]
    have base_pos := base_add (a := a) pos
    have base_b := base_add (a := a) b
    constructor
    · rintro ⟨same, le, set⟩
      exact ⟨by omega, by rwa [show b - pos = b % a.size - pos % a.size by omega]⟩
    · rintro ⟨le, set⟩
      have lt : b - pos < 64 := by
        by_contra out
        rw [Nat.testBit_lt_two_pow (w.isLt.trans_le (Nat.pow_le_pow_right (by decide) (not_lt.mp out)))] at set
        cases set
      have same : base a b = base a pos := base_eq (dvd_base pos) (by omega) (by omega)
      exact ⟨same.symm, by omega, by rwa [show b % a.size - pos % a.size = b - pos by omega]⟩

theorem importWords_spec (sorted : words.Pairwise fun x y => x.1 ≤ y.1)
    (fine : ∀ x ∈ words, 64 ∣ x.1 ∧ base a x.1 + a.size < 2 ^ 32)
    (ok : ∀ x ∈ words, HeadOk nodes x.1) :
    UnlessNomem (words.foldlM (importWord kzalloc) nodes) fun nodes' =>
      ∀ b, Mem nodes' b ↔ Mem nodes b ∨ InWords words b := by
  induction words generalizing nodes with
  | nil => exact .inr ⟨nodes, rfl, by simp [InWords]⟩
  | cons x words ih =>
    obtain ⟨here, fine⟩ := forall_mem_cons.mp fine
    obtain ⟨less, sorted⟩ := pairwise_cons.mp sorted
    rw [foldlM_cons]
    refine (importWord_spec (ok x mem_cons_self) here.1 here.2).bind ?_
    rintro nodes' ⟨ok', first⟩
    obtain fail | ⟨result, run, rest⟩ := ih sorted fine fun y mem =>
      ⟨ok'.aligned, ok'.small, fun n head => (ok'.le n head).trans (less y mem)⟩
    · exact .inl fail
    · refine .inr ⟨result, run, fun b => ?_⟩
      rw [rest, first, or_assoc]
      simp [InWords]

end Import

section Units

variable {l : List (EbitmapNode a)} {n : EbitmapNode a} {b : Nat}

theorem unit_lt (i : Fin a.unitNums) : i * a.unitSize + a.unitSize ≤ a.size := by
  rw [← Nat.succ_mul]
  exact Nat.mul_le_mul_right _ i.isLt

theorem mem_units (h : NodesOk l) {unit : Nat × BitVec a.unitSize} :
    unit ∈ l.flatMap EbitmapNode.units ↔ ∃ n ∈ l, ∃ i : Fin a.unitNums,
      unit = (n.startbit + i * a.unitSize, n.maps i) := by
  rw [mem_flatMap]
  refine exists_congr fun n => and_congr_right fun mem => ?_
  rw [EbitmapNode.units, mem_ofFn']
  refine exists_congr fun i => ?_
  have := unit_lt i
  have := a.unitSize_pos
  have := (h.node n mem).small
  dsimp only
  rw [u32_eq (by omega), eq_comm]

theorem NodesOk.apart (h : NodesOk (n :: l)) {m : EbitmapNode a} (mem : m ∈ l) :
    n.startbit + a.size ≤ m.startbit := by
  have lt := h.lt mem
  have := Nat.le_of_dvd (Nat.sub_pos_of_lt lt) (Nat.dvd_sub (h.tail.node m mem).aligned h.head.aligned)
  omega

theorem units_sorted (h : NodesOk l) : (l.flatMap EbitmapNode.units).Pairwise fun x y => x.1 < y.1 := by
  induction l with
  | nil => exact .nil
  | cons n l ih =>
    rw [flatMap_cons, pairwise_append]
    have small := h.head.small
    refine ⟨pairwise_ofFn.mpr fun i j lt => ?_, ih h.tail, fun x memx y memy => ?_⟩
    · have := unit_lt i
      have := unit_lt j
      have := a.unitSize_pos
      have : (i + 1 : Nat) * a.unitSize ≤ j * a.unitSize := Nat.mul_le_mul_right _ lt
      rw [Nat.succ_mul] at this
      rw [u32_eq (by omega), u32_eq (by omega)]
      omega
    · obtain ⟨_, memn, i, rfl⟩ :=
        (mem_units (l := [n]) ⟨by simpa using h.head, pairwise_singleton _ _⟩).mp (by simpa using memx)
      obtain ⟨m, memm, j, rfl⟩ := (mem_units h.tail).mp memy
      have := unit_lt i
      have := a.unitSize_pos
      have := h.apart memm
      obtain rfl := mem_singleton.mp memn
      dsimp only
      omega

/-- The bits of the nodes are those of their units. -/
theorem mem_iff_inWords (h : NodesOk l) : Mem l b ↔ InWords (l.flatMap EbitmapNode.units) b := by
  constructor
  · rintro ⟨n, mem, start, set⟩
    rw [nodeBit] at set
    split at set
    · next lt =>
      refine ⟨_, (mem_units h).mpr ⟨n, mem, ⟨_, lt⟩, rfl⟩, ?_⟩
      have := base_add (a := a) b
      have := Nat.div_add_mod' (b % a.size) a.unitSize
      dsimp only
      rw [start]
      exact ⟨by omega, by rwa [show b - (base a b + b % a.size / a.unitSize * a.unitSize) = b % a.size % a.unitSize by
        omega]⟩
    · cases set
  · rintro ⟨_, unit, le, set⟩
    obtain ⟨n, mem, i, rfl⟩ := (mem_units h).mp unit
    dsimp only at le set
    have lt := BitVec.lt_of_getLsbD set
    have := unit_lt i
    have aligned := (h.node n mem).aligned
    obtain ⟨k, rfl⟩ := Nat.exists_eq_add_of_le le
    rw [Nat.add_sub_cancel_left] at set lt
    refine ⟨n, mem, ?_, ?_⟩ <;> rw [Nat.add_assoc]
    · exact (base_start aligned (by omega)).symm
    · rw [mod_of_base aligned (by omega), Nat.mul_comm, nodeBit_word i lt, set]

end Units

section RoundTrip

variable {undef : BitVec a.unitSize → BitVec a.unitSize} {kzalloc kzalloc' : Nat → Bool} {e : Ebitmap a}

theorem unit_fine (ok : NodesOk e.node) {n : EbitmapNode a} (mem : n ∈ e.node) (i : Fin a.unitNums) :
    let pos := n.startbit + i * a.unitSize
    pos < 2 ^ 32 ∧ n.startbit ≤ pos - pos % 64 ∧ base a (pos - pos % 64) + a.size < 2 ^ 32 := by
  have small := (ok.node n mem).small
  have aligned := (ok.node n mem).aligned
  have dvd : 64 ∣ n.startbit := (a.units_of_word.choose_spec.2.2).trans aligned
  have := unit_lt i
  have := a.unitSize_pos
  dsimp only
  refine ⟨by omega, by omega, ?_⟩
  rwa [base_eq aligned (by omega) (by omega)]

variable (undef kzalloc kzalloc') in
/-- The set that comes back has the bits of the units where they landed. -/
theorem round_trip_spec (ok : NodesOk e.node) (ne : e.node ≠ []) :
    UnlessNomem (ebitmapNetlblExport undef kzalloc e) fun catmap =>
      UnlessNomem (ebitmapNetlblImport kzalloc' catmap) fun e' : Ebitmap a =>
        ∀ b, Mem e'.node b ↔ InWords ((e.node.flatMap EbitmapNode.units).map (landed undef)) b := by
  rw [ebitmapNetlblExport]
  split
  · next eq => exact absurd eq ne
  next n rest nodes =>
  split_ifs with alloc
  · have first : ∀ m ∈ e.node, n.startbit ≤ m.startbit := fun m mem => (nodes ▸ ok).le (nodes ▸ mem)
    have zero : nonzero (allWords (⟨n.startbit - n.startbit % 256, fun _ => 0⟩, [])) = [] := by
      simp [allWords, nonzero, Catmap.words]
    have laid : Laid a (⟨n.startbit - n.startbit % 256, fun _ => 0⟩, []) n.startbit :=
      ⟨Nat.dvd_sub_mod _, Nat.sub_le _ _, by rw [zero]; exact .nil, by rw [zero]; exact nofun⟩
    refine (exportUnits_spec (units_sorted ok) (fun unit inside => ?_) laid fun unit inside => ?_).bind ?_
    · obtain ⟨m, mem, i, rfl⟩ := (mem_units ok).mp inside
      exact ⟨(unit_fine ok mem i).1, (unit_fine ok mem i).2.2⟩
    · obtain ⟨m, mem, i, rfl⟩ := (mem_units ok).mp inside
      exact (first m mem).trans (unit_fine ok mem i).2.1
    rintro blocks ⟨⟨q, laid⟩, bits⟩
    refine .inr ⟨_, rfl, ?_⟩
    have words : (blocks.1 :: blocks.2).reverse.flatMap Catmap.words = allWords blocks := by simp [allWords]
    beta_reduce
    rw [ebitmapNetlblImport, if_neg (by simp), words, ← foldlM_nonzero]
    refine (importWords_spec laid.sorted (fun x mem => (laid.fine x mem).2) fun _ _ => by
      constructor <;> simp).bind fun result imported => .inr ⟨_, rfl, fun b => ?_⟩
    have bits := bits b
    rw [← inWords_nonzero, ← inWords_nonzero (allWords _), zero] at bits
    have imported := imported b
    rw [bits] at imported
    simpa [Mem, InWords] using imported
  · exact .inl rfl

/-- No unit with a bit has to be shifted by the width of a word. -/
def Unshifted (l : List (EbitmapNode a)) : Prop :=
  a = .bits64 ∨ ∀ n ∈ l, ∀ i, i.val % 2 = 1 → n.maps i = 0

theorem Unshifted.same (keeps : undef 0 = 0) (ok : NodesOk e.node) (unshifted : Unshifted e.node) (b : Nat) :
    InWords ((e.node.flatMap EbitmapNode.units).map (landed undef)) b ↔ Mem e.node b := by
  rw [mem_iff_inWords ok]
  simp only [InWords, mem_map, exists_exists_and_eq_and]
  refine exists_congr fun unit => and_congr_right fun inside => ?_
  obtain ⟨n, mem, i, rfl⟩ := (mem_units ok).mp inside
  have dvd : 64 ∣ n.startbit := (a.units_of_word.choose_spec.2.2).trans (ok.node n mem).aligned
  by_cases aligned : 64 ∣ n.startbit + i * a.unitSize
  · have : a.unitSize ≤ 64 := by cases a <;> decide
    simp only [landed, Nat.mod_eq_zero_of_dvd aligned, shiftUnit, if_pos a.unitSize_pos, BitVec.shiftLeft_zero,
      Nat.sub_zero, BitVec.getLsbD_setWidth, Bool.and_eq_true, decide_eq_true_iff]
    refine and_congr_right fun _ => and_iff_right_of_imp fun set => ?_
    have := BitVec.lt_of_getLsbD set
    omega
  · have zero : n.maps i = 0 := by
      rcases unshifted with rfl | even
      · exact absurd (Nat.dvd_add dvd (Dvd.intro_left _ rfl)) aligned
      · refine even n mem i (by_contra fun two => aligned (Nat.dvd_add dvd ?_))
        cases a with
        | bits32 => exact show 64 ∣ i.val * 32 by omega
        | bits64 => exact Dvd.intro_left _ rfl
    have lost (sft : Nat) : shiftUnit undef 0#a.unitSize sft = 0#a.unitSize := by
      rw [shiftUnit, BitVec.zero_shiftLeft, show undef 0#a.unitSize = 0#a.unitSize from keeps, ite_self]
    simp [landed, zero, lost]

/-- The lower half of a word is all that a unit of 32 bits reaches. -/
theorem unshifted_of_same (ok : NodesOk e.node)
    (same : ∀ b, InWords ((e.node.flatMap EbitmapNode.units).map (landed undef)) b ↔ Mem e.node b) :
      Unshifted e.node := by
  cases a with
  | bits64 => exact .inl rfl
  | bits32 =>
    refine .inr fun n mem i odd => BitVec.eq_of_getLsbD_eq fun j lt => ?_
    have aligned := (ok.node n mem).aligned
    change 192 ∣ n.startbit at aligned
    cases set : (n.maps i).getLsbD j with
    | false => simp
    | true =>
      obtain ⟨_, inside, le, bit⟩ := (same (n.startbit + i * 32 + j)).mpr ((mem_iff_inWords ok).mpr
        ⟨_, (mem_units ok).mpr ⟨n, mem, i, rfl⟩, Nat.le_add_right _ _,
          (congrArg (n.maps i).getLsbD (Nat.add_sub_cancel_left ..)).trans set⟩)
      obtain ⟨unit, -, rfl⟩ := mem_map.mp inside
      rw [landed, BitVec.getLsbD_setWidth, Bool.and_eq_true] at bit
      have lt' : _ < 32 := BitVec.lt_of_getLsbD bit.2
      have lt : j < 32 := lt
      dsimp only [landed] at lt' le
      omega

/-- A canonical bitmap that is not empty comes back, and it is the same set if and only if no unit with a bit was
shifted by the width of a word: always with 64 bits, and with 32 bits if no unit with an odd index has a bit. -/
theorem ebitmap_netlbl_round_trip_iff (keeps : undef 0 = 0) (ok : NodesOk e.node) (ne : e.node ≠ []) :
    UnlessNomem (ebitmapNetlblExport undef kzalloc e) fun catmap =>
      UnlessNomem (ebitmapNetlblImport kzalloc' catmap) fun e' : Ebitmap a =>
        (∀ b, Mem e'.node b ↔ Mem e.node b) ↔ Unshifted e.node := by
  rcases round_trip_spec undef kzalloc kzalloc' ok ne with fail | ⟨catmap, exported, fail | ⟨e', imported, bits⟩⟩
  · exact .inl fail
  · exact .inr ⟨catmap, exported, .inl fail⟩
  · refine .inr ⟨catmap, exported, .inr ⟨e', imported, ?_⟩⟩
    simp only [bits]
    exact ⟨unshifted_of_same ok, fun unshifted => unshifted.same keeps ok⟩

end RoundTrip

def secondUnit (a : Arch) : Ebitmap a := ⟨[⟨fun i => if i.val = 1 then 1 else 0, 0⟩], a.size⟩

theorem secondUnit_ok : ∀ a, NodesOk (secondUnit a).node
  | .bits32 => ⟨by simpa [secondUnit] using ⟨by decide, by decide, 32, by decide⟩, pairwise_singleton _ _⟩
  | .bits64 => ⟨by simpa [secondUnit] using ⟨by decide, by decide, 64, by decide⟩, pairwise_singleton _ _⟩

/-- With 64 bits the second unit comes back. -/
theorem ebitmap_netlbl_round_trip_iff_second : ∃ catmap, ∃ e' : Ebitmap .bits64,
    ebitmapNetlblExport id (fun _ => true) (secondUnit .bits64) = .ok catmap ∧
      ebitmapNetlblImport (fun _ => true) catmap = .ok e' ∧ ∀ b, Mem e'.node b ↔ Mem (secondUnit .bits64).node b := by
  rcases @ebitmap_netlbl_round_trip_iff .bits64 id (fun _ => true) (fun _ => true) _ rfl (secondUnit_ok .bits64)
    (by decide) with ⟨⟨⟩⟩ | ⟨catmap, exported, trip⟩
  cases exported
  rcases trip with ⟨⟨⟩⟩ | ⟨e', imported, same⟩
  exact ⟨_, e', rfl, imported, same.mpr (.inl rfl)⟩

/-- With words of 32 bits the second unit is lost in the shift, whether a machine leaves the unit as it is or makes
it zero. -/
theorem ebitmap_netlbl_loses_unit : NodesOk (secondUnit .bits32).node ∧ Mem (secondUnit .bits32).node 32 ∧
    ∀ undef ∈ [id, fun _ => 0], ∃ catmap e',
      ebitmapNetlblExport undef (fun _ => true) (secondUnit .bits32) = .ok catmap ∧
      ebitmapNetlblImport (fun _ => true) catmap = .ok e' ∧ ¬Mem (a := .bits32) e'.node 32 := by
  refine ⟨secondUnit_ok .bits32, by unfold Mem; decide, ?_⟩
  intro undef mem
  simp at mem
  rcases mem with rfl | rfl
  all_goals exact ⟨_, _, rfl, rfl, by unfold Mem; decide⟩

end Selinux
