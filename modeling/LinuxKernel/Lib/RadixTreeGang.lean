/- Gang lookups of lib/radix-tree.c: the items from an index on, in ascending order. -/
import LinuxKernel.Foundation.Loop
import LinuxKernel.Foundation.Stretch
import LinuxKernel.Lib.RadixTreeRefinement

namespace RadixTree

open Digits Stretch List

variable {α : Type} {k : Nat}

def slotsFrom (o : Fin (2 ^ k)) : List (Fin (2 ^ k)) := (List.finRange (2 ^ k)).drop o

/-- The inner loop of `__lookup` and of `__lookup_tag`: the first slot in use, and the running index, which
goes to the start of the next slot with each step. -/
def skipSlots (bits shift : Nat) (used : Fin (2 ^ k) → Bool) :
    List (Fin (2 ^ k)) → Nat → Option (Fin (2 ^ k)) × Nat
  | [], index => (none, index)
  | i :: rest, index =>
    if used i then (some i, index)
    else
      let index := (index >>> shift <<< shift + 1 <<< shift) % 2 ^ bits
      if index = 0 then (none, index) else skipSlots bits shift used rest index

/-- The loop over the bottom level: the slots that are taken, `maxItems` at most, and the running index. -/
def grabSlots (bits : Nat) (pick : Fin (2 ^ k) → Bool) :
    Nat → List (Fin (2 ^ k)) → Nat → List (Fin (2 ^ k)) × Nat
  | _, [], index => ([], index)
  | maxItems, i :: rest, index =>
    let index := (index + 1) % 2 ^ bits
    if pick i then
      if maxItems = 1 then ([i], index)
      else
        let (found, index) := grabSlots bits pick (maxItems - 1) rest index
        (i :: found, index)
    else grabSlots bits pick maxItems rest index

/-- `__lookup`: entries of one leaf, and the index of the next search. -/
def lookup (bits : Nat) : Nat → Entry k α → Nat → Nat → List (Entry k α) × Nat
  | 1, .node n, index, maxItems =>
    let (found, index) := grabSlots bits (fun o => !(n.slots o).isNull) maxItems (slotsFrom (digit k 0 index)) index
    (found.map n.slots, index)
  | h + 2, .node n, index, maxItems =>
    match skipSlots bits ((h + 1) * k) (fun o => !(n.slots o).isNull) (slotsFrom (digit k (h + 1) index)) index with
    | (none, index) => ([], index)
    | (some i, index) => lookup bits (h + 1) (n.slots i) index maxItems
  | _, _, index, _ => ([], index)

/-- `__lookup_tag`: the same for the entries that carry a tag. -/
def lookupTag (bits : Nat) (t : Tag) : Nat → Entry k α → Nat → Nat → List (Entry k α) × Nat
  | h + 1, .node n, index, maxItems =>
    match skipSlots bits (h * k) (n.tags t) (slotsFrom (digit k h index)) index with
    | (none, index) => ([], index)
    | (some i, index) =>
      if h = 0 then
        let (found, index) := grabSlots bits (fun o => n.tags t o && !(n.slots o).isNull) maxItems
          (slotsFrom (digit k 0 index)) index
        (found.map n.slots, index)
      else lookupTag bits t h (n.slots i) index maxItems
  | _, _, index, _ => ([], index)

variable (cfg : Config)

/-- One turn of the loop of a gang lookup: the index of the next search and what was found. -/
def gangTurn (search : Nat → Nat → List (cfg.Entry α) × Nat) (maxIndex maxItems : Nat) :
    Nat × List (cfg.Entry α) → (Nat × List (cfg.Entry α)) ⊕ List (cfg.Entry α)
  | (cur, results) =>
    if results.length < maxItems then
      if maxIndex < cur then .inr results
      else
        let (slots, next) := search cur (maxItems - results.length)
        let results := results ++ slots.filter fun slot => !slot.isNull
        if next = 0 then .inr results else .inl (next, results)
    else .inr results

/-- What the two calls do once the tree is known to hold something. -/
def gang (n : Nat) (search : Nat → cfg.Entry α → Nat → Nat → List (cfg.Entry α) × Nat) (root : cfg.Root α)
    (firstIndex maxItems : Nat) : Option (List (cfg.Entry α)) :=
  match root.rnode with
  | .null => some []
  | .item a => if 0 < firstIndex then some [] else some [.item a]
  | .node node =>
    Loop.run (gangTurn cfg (search node.height (.node node)) (maxindex cfg node.height) maxItems) n (firstIndex, [])

def radixTreeGangLookup (n : Nat) (root : cfg.Root α) (firstIndex maxItems : Nat) : Option (List (cfg.Entry α)) :=
  gang cfg n (lookup cfg.bits) root firstIndex maxItems

def radixTreeGangLookupTag (n : Nat) (root : cfg.Root α) (firstIndex maxItems : Nat) (t : Tag) :
    Option (List (cfg.Entry α)) :=
  if !root.tagged t then some [] else gang cfg n (lookupTag cfg.bits t) root firstIndex maxItems

section Search

/-- The first index after the block of `2 ^ s` indices that holds `i`. -/
def past (s i : Nat) : Nat := (i / 2 ^ s + 1) * 2 ^ s

theorem lt_past (s i : Nat) : i < past s i := by
  have := Nat.lt_div_mul_add (a := i) (Nat.two_pow_pos s)
  rw [past, Nat.add_mul]
  omega

variable {j : Nat}

theorem past_eq {s i : Nat} (same : j / 2 ^ s = i / 2 ^ s) : past s j = past s i := by
  rw [past, past, same]

theorem past_le_past {s s' : Nat} (le : s ≤ s') (i : Nat) : past s i ≤ past s' i := by
  have split : 2 ^ s' = 2 ^ s * 2 ^ (s' - s) := by
    rw [← Nat.pow_add, Nat.add_sub_cancel' le]
  have inner := lt_past (s' - s) (i / 2 ^ s)
  rw [past, Nat.div_div_eq_div_mul, ← split] at inner
  calc past s i ≤ (i / 2 ^ s' + 1) * 2 ^ (s' - s) * 2 ^ s := Nat.mul_le_mul_right _ inner
    _ = past s' i := by rw [past, split]; ring

theorem past_le {s bits i : Nat} (le : s ≤ bits) (hi : i < 2 ^ bits) : past s i ≤ 2 ^ bits := by
  have := past_le_past le i
  rwa [past.eq_1 bits, Nat.div_eq_of_lt hi, Nat.one_mul] at this

variable {h : Nat}

/-- Goes through the slots of a node from that of an index on, a block of indices with each slot. -/
theorem slots_induction (k h : Nat) {motive : Nat → Prop} (step : ∀ i slots,
      slotsFrom (digit k h i) = digit k h i :: slots → slots = [] ∨ slots = slotsFrom (digit k h (past (h * k) i)) ∧
        past (h * k) i / 2 ^ ((h + 1) * k) = i / 2 ^ ((h + 1) * k) ∧ motive (past (h * k) i) → motive i)
    (i : Nat) : motive i := by
  obtain ⟨d, hd⟩ : ∃ d, d = 2 ^ k - (digit k h i : Nat) := ⟨_, rfl⟩
  induction d using Nat.strong_induction_on generalizing i with
  | _ d ih =>
    refine step i ((List.finRange (2 ^ k)).drop (digit k h i + 1)) ?_ ?_
    · rw [slotsFrom, drop_eq_getElem_cons (by simp)]
      simp
    by_cases more : (digit k h i : Nat) + 1 < 2 ^ k
    · have quot : past (h * k) i / 2 ^ (h * k) = i / 2 ^ (h * k) + 1 := Nat.mul_div_cancel _ (Nat.two_pow_pos _)
      have next : (digit k h (past (h * k) i) : Nat) = digit k h i + 1 := by
        rw [digit_val] at more
        rw [digit_val, digit_val, quot, ← Nat.mod_add_mod, Nat.mod_eq_of_lt more]
      refine .inr ⟨by rw [slotsFrom, next], ?_, ih _ (by omega) _ rfl⟩
      rw [digit_val] at more
      rw [two_pow_succ_mul, ← Nat.div_div_eq_div_mul, ← Nat.div_div_eq_div_mul, quot, Nat.add_div (Nat.two_pow_pos k)]
      have one : 1 < 2 ^ k := by omega
      rw [Nat.div_eq_of_lt one, Nat.mod_eq_of_lt one, if_neg (by omega)]
      rfl
    · exact .inl (drop_eq_nil_of_le (by simpa using more))

variable {f : Nat → Option α} {bits index : Nat}

/-- Where the inner loop stops: at a slot in use, or at the start of a later block; it passes nothing. -/
theorem skipSlots_spec (used : Fin (2 ^ k) → Bool) (hs : h * k ≤ bits) (hi : index < 2 ^ bits)
    (empty : ∀ j, j / 2 ^ ((h + 1) * k) = index / 2 ^ ((h + 1) * k) → used (digit k h j) = false → f j = none) :
    (∃ index', skipSlots bits (h * k) used (slotsFrom (digit k h index)) index = (some (digit k h index'), index') ∧
      used (digit k h index') = true ∧ index ≤ index' ∧ index' < 2 ^ bits ∧
      index' / 2 ^ ((h + 1) * k) = index / 2 ^ ((h + 1) * k) ∧ ∀ j, index ≤ j → j < index' → f j = none) ∨
    ∃ next, skipSlots bits (h * k) used (slotsFrom (digit k h index)) index = (none, next % 2 ^ bits) ∧
      index < next ∧ next ≤ past ((h + 1) * k) index ∧ next ≤ 2 ^ bits ∧ ∀ j, index ≤ j → j < next → f j = none := by
  induction index using slots_induction k h with
  | step index slots here rest =>
    rw [here, skipSlots]
    cases use : used (digit k h index) with
    | true => exact .inl ⟨index, by simp, use, le_rfl, hi, rfl, fun j low high => absurd low (by omega)⟩
    | false =>
      have none_here : ∀ j, index ≤ j → j < past (h * k) index → f j = none := by
        intro j low high
        obtain ⟨above, here⟩ := (div_eq_iff k h j index).mp (div_eq_of_lt_carry low high)
        exact empty j above (by rw [here, use])
      have none_to {m : Nat} (after : ∀ j, past (h * k) index ≤ j → j < m → f j = none) (j : Nat) (low : index ≤ j)
          (high : j < m) : f j = none :=
        (Nat.lt_or_ge j (past (h * k) index)).elim (none_here j low) fun ge => after j ge high
      have le := past_le hs hi
      have lt := lt_past (h * k) index
      have wider := past_le_past (Nat.mul_le_mul_right k (Nat.le_succ h)) index
      rw [Nat.shiftRight_eq_div_pow, Nat.shiftLeft_eq, Nat.shiftLeft_eq, ← Nat.add_mul, ← past]
      simp only [Bool.false_eq_true, if_false]
      by_cases wrap : past (h * k) index = 2 ^ bits
      · refine .inr ⟨past (h * k) index, ?_, lt, wider, le, none_here⟩
        rw [if_pos (by rw [wrap, Nat.mod_self])]
      have small : past (h * k) index < 2 ^ bits := by omega
      rw [Nat.mod_eq_of_lt small, if_neg (by omega)]
      rcases rest with rfl | ⟨rfl, same, ih⟩
      · exact .inr ⟨past (h * k) index, by rw [skipSlots, Nat.mod_eq_of_lt small], lt, wider, le, none_here⟩
      · rcases ih small (fun j hj => empty j (hj.trans same)) with
          ⟨index', run, found, low, high, above, none_after⟩ | ⟨next, run, low, high, bound, none_after⟩
        · exact .inl ⟨index', run, found, by omega, high, above.trans same, none_to none_after⟩
        · exact .inr ⟨next, run, by omega, by rwa [past_eq same] at high, bound, none_to none_after⟩

variable {pick : Fin (2 ^ k) → Bool} {maxItems : Nat}

/-- A search gives what `f` has from the index up to some later one, and says which. -/
def Searched (f : Nat → Option α) (bits s index maxItems : Nat) (r : List (Entry k α) × Nat) : Prop :=
  ∃ next, index < next ∧ next ≤ past s index ∧ next ≤ 2 ^ bits ∧ r.2 = next % 2 ^ bits ∧
    r.1 = (stretch f index next).map .item ∧ r.1.length ≤ maxItems

theorem Searched.skip {s s' index' : Nat} {r : List (Entry k α) × Nat}
    (found : Searched f bits s index' maxItems r) (low : index ≤ index') (le : s ≤ s')
    (same : index' / 2 ^ s' = index / 2 ^ s') (none : ∀ j, index ≤ j → j < index' → f j = none) :
    Searched f bits s' index maxItems r := by
  obtain ⟨next, lt, bound, top, after, items, len⟩ := found
  refine ⟨next, by omega, bound.trans ?_, top, after, ?_, len⟩
  · rw [← past_eq same]
    exact past_le_past le index'
  · rw [items, stretch_append low lt.le, stretch_eq_nil none, nil_append]

/-- `f` gives what `value` picks of the items below an entry, at the indices that lead to it. -/
def Shows (value : α × (Tag → Bool) → Option α) (f : Nat → Option α) (h : Nat) (e : Entry k α)
    (tagged : Tag → Bool) (i : Nat) : Prop :=
  ∀ j, j / 2 ^ (h * k) = i / 2 ^ (h * k) → f j = (get j h e tagged).bind value

variable {tagged : Tag → Bool} {n : Node k (Entry k α)}

theorem Shows.slot {value : α × (Tag → Bool) → Option α} {i : Nat}
    (shows_ : Shows value f (h + 1) (.node n) tagged i) (same : j / 2 ^ ((h + 1) * k) = i / 2 ^ ((h + 1) * k)) :
    Shows value f h (n.slots (digit k h j)) (fun t => n.tags t (digit k h j)) j := by
  intro j' hj'
  obtain ⟨above, here⟩ := (div_eq_iff k h j' j).mp hj'
  rw [shows_ j' (above.trans same), get, here]

theorem searched_leaf (hk : k ≤ bits) (hi : index < 2 ^ bits) (pos : 0 < maxItems)
    (leaf : ∀ j, j / 2 ^ k = index / 2 ^ k →
      if pick (digit k 0 j) = true then ∃ a, n.slots (digit k 0 j) = .item a ∧ f j = some a else f j = none) :
    Searched f bits k index maxItems
      ((grabSlots bits pick maxItems (slotsFrom (digit k 0 index)) index).1.map n.slots,
        (grabSlots bits pick maxItems (slotsFrom (digit k 0 index)) index).2) := by
  induction index using slots_induction k 0 generalizing maxItems with
  | step index slots first later =>
    have wider : index + 1 ≤ past k index := lt_past k index
    have top := wider.trans (past_le hk hi)
    have here := leaf index rfl
    -- what the rest of the leaf gives, for any bound that is left
    have rest : ∀ left, 0 < left → ∃ found next, grabSlots bits pick left slots ((index + 1) % 2 ^ bits) =
        (found, next % 2 ^ bits) ∧ index + 1 ≤ next ∧ next ≤ past k index ∧ next ≤ 2 ^ bits ∧
        found.map n.slots = (stretch f (index + 1) next).map .item ∧ found.length ≤ left := by
      intro left hleft
      rcases later with rfl | ⟨rfl, same, ih⟩
      · exact ⟨[], index + 1, rfl, le_rfl, wider, top, by simp [stretch_self], by simp⟩
      · have next_eq : past (0 * k) index = index + 1 := by simp [past]
        rw [next_eq, Nat.one_mul] at same
        rw [next_eq] at ih ⊢
        have small : index + 1 < 2 ^ bits := by
          have := lt_past k (index + 1)
          rw [past_eq same] at this
          exact this.trans_le (past_le hk hi)
        obtain ⟨next, low, high, top, after, items, len⟩ := ih small hleft (fun j hj => leaf j (hj.trans same))
        rw [Nat.mod_eq_of_lt small]
        exact ⟨_, next, Prod.ext rfl after, low.le, by rwa [past_eq same] at high, top, items, by simpa using len⟩
    rw [first, grabSlots]
    cases take : pick (digit k 0 index) with
    | true =>
      rw [take] at here
      obtain ⟨a, item, here⟩ := here
      by_cases one : maxItems = 1
      · refine ⟨index + 1, by omega, wider, top, by simp [one], ?_, by simp [one]⟩
        rw [stretch_succ, here]
        simp [one, item]
      obtain ⟨found, next, run, low, high, top, items, len⟩ := rest (maxItems - 1) (by omega)
      simp only [if_true, if_neg one, run]
      refine ⟨next, by omega, high, top, rfl, ?_, ?_⟩
      · rw [stretch_append (Nat.le_succ index) low, stretch_succ, here, map_cons, items, item]
        rfl
      · rw [map_cons, length_cons, length_map]
        omega
    | false =>
      rw [take] at here
      obtain ⟨found, next, run, low, high, top, items, len⟩ := rest maxItems pos
      simp only [Bool.false_eq_true, if_false, run]
      refine ⟨next, by omega, high, top, rfl, ?_, by simpa using len⟩
      rw [stretch_append (Nat.le_succ index) low, stretch_succ, here, items]
      rfl

variable {e : Entry k α} {h index maxItems : Nat}

theorem Shows.leaf {value : α × (Tag → Bool) → Option α} {p : Fin (2 ^ k) → Bool}
    (shows_ : Shows value f 1 (.node n) tagged index) (slots : ∀ i, SlotOk 0 (n.slots i) fun t => n.tags t i)
    (picks : ∀ a i, value (a, fun t => n.tags t i) = if p i then some a else none)
    (same : j / 2 ^ k = index / 2 ^ k) : if (p (digit k 0 j) && !(n.slots (digit k 0 j)).isNull) = true then
      ∃ a, n.slots (digit k 0 j) = .item a ∧ f j = some a else f j = none := by
  have here := shows_.slot (by rwa [Nat.one_mul]) j rfl
  have ok := slots (digit k 0 j)
  cases entry : n.slots (digit k 0 j) with
  | null =>
    rw [entry] at here
    simpa [Entry.isNull] using here
  | item a =>
    rw [entry] at here
    have here : f j = _ := here.trans (picks a _)
    cases set : p (digit k 0 j) <;> simp_all [Entry.isNull]
  | node n' =>
    rw [entry] at ok
    exact ok.elim

/-- A level of the search: the slots that are passed hold nothing, and the search goes on below. -/
theorem searched_level {s : Nat} {used : Fin (2 ^ k) → Bool} {search : Fin (2 ^ k) → Nat → List (Entry k α) × Nat}
    (hs : h * k ≤ bits) (hi : index < 2 ^ bits) (le : s ≤ (h + 1) * k)
    (empty : ∀ j, j / 2 ^ ((h + 1) * k) = index / 2 ^ ((h + 1) * k) → used (digit k h j) = false → f j = none)
    (inner : ∀ index', used (digit k h index') = true → index' < 2 ^ bits → index' / 2 ^ ((h + 1) * k) =
      index / 2 ^ ((h + 1) * k) → Searched f bits s index' maxItems (search (digit k h index') index')) :
    Searched f bits ((h + 1) * k) index maxItems
      (match skipSlots bits (h * k) used (slotsFrom (digit k h index)) index with
        | (none, index) => ([], index)
        | (some i, index) => search i index) := by
  rcases skipSlots_spec used hs hi empty with
    ⟨index', run, set, low, high, same, none⟩ | ⟨next, run, low, high, bound, none⟩
  · rw [run]
    exact (inner index' set high same).skip low le same none
  · rw [run]
    exact ⟨next, low, high, bound, rfl, by rw [stretch_eq_nil none, map_nil], by simp⟩

theorem lookup_spec (hs : h * k < bits) (hk : k ≤ bits)
    (hi : index < 2 ^ bits) (pos : 0 < maxItems) (ok : SlotOk (h + 1) e tagged) (used : e.isNull = false)
    (shows_ : Shows (fun v => some v.1) f (h + 1) e tagged index) :
    Searched f bits ((h + 1) * k) index maxItems (lookup bits (h + 1) e index maxItems) := by
  induction h generalizing e tagged index with
  | zero =>
    obtain ⟨n, rfl⟩ := ok.exists_node used
    rw [Nat.one_mul]
    exact searched_leaf hk hi pos fun j => shows_.leaf (p := fun _ => true) ok.2.2.1 fun _ _ => rfl
  | succ h ih =>
    obtain ⟨n, rfl⟩ := ok.exists_node used
    refine searched_level hs.le hi (Nat.mul_le_mul_right k (Nat.le_succ _)) ?_ fun index' used high same =>
      ih (by rw [Nat.succ_mul] at hs; omega) high (ok.2.2.1 _) (by simpa using used) (shows_.slot same)
    intro j hj used
    have null : (n.slots (digit k (h + 1) j)).isNull = true := by simpa using used
    rw [shows_.slot hj j rfl, eq_null_of_isNull null]
    rfl

/-- What a search for a tag wants of an item. -/
def carrying (t : Tag) (v : α × (Tag → Bool)) : Option α := if v.2 t = true then some v.1 else none

theorem SlotOk.untagged (ok : SlotOk h e tagged) {t : Tag}
    (clear : tagged t = false) (j : Nat) : (get j h e tagged).bind (carrying t) = none := by
  cases found : get j h e tagged with
  | none => rfl
  | some v =>
    refine if_neg fun set => ?_
    have low : j % 2 ^ (h * k) < 2 ^ (h * k) := Nat.mod_lt _ (Nat.two_pow_pos _)
    have : tagged t = true := (ok.tagged_iff t).mpr
      ⟨_, v.1, v.2, low, by rw [get_congr (Nat.mod_mod j _), found], set⟩
    rw [clear] at this
    cases this

theorem Shows.untagged {t : Tag} (shows_ : Shows (carrying t) f (h + 1) (.node n) tagged index)
    (slots : ∀ i, SlotOk h (n.slots i) fun t => n.tags t i)
    (same : j / 2 ^ ((h + 1) * k) = index / 2 ^ ((h + 1) * k)) (clear : n.tags t (digit k h j) = false) :
      f j = none := by
  rw [shows_.slot same j rfl]
  exact (slots (digit k h j)).untagged clear j

theorem lookupTag_spec (t : Tag) (hs : h * k < bits)
    (hk : k ≤ bits) (hi : index < 2 ^ bits) (pos : 0 < maxItems) (ok : SlotOk (h + 1) e tagged)
    (used : e.isNull = false) (shows_ : Shows (carrying t) f (h + 1) e tagged index) :
    Searched f bits ((h + 1) * k) index maxItems (lookupTag bits t (h + 1) e index maxItems) := by
  induction h generalizing e tagged index with
  | zero =>
    obtain ⟨n, rfl⟩ := ok.exists_node used
    have one : (0 + 1) * k = k := by rw [Nat.one_mul]
    refine searched_level hs.le hi one.ge (fun j => shows_.untagged ok.2.2.1) fun index' set high same => ?_
    rw [one] at same
    refine searched_leaf hk high pos fun j hj => ?_
    exact shows_.leaf ok.2.2.1 (fun _ _ => rfl) (hj.trans same)
  | succ h ih =>
    obtain ⟨n, rfl⟩ := ok.exists_node used
    refine searched_level hs.le hi (Nat.mul_le_mul_right k (Nat.le_succ _)) (fun j => shows_.untagged ok.2.2.1)
      fun index' set high same => ?_
    have used : (n.slots (digit k (h + 1) index')).isNull = false := by
      by_contra null
      rw [(ok.2.2.1 (digit k (h + 1) index')).tags_null (by simpa using null) t] at set
      cases set
    exact ih (by rw [Nat.succ_mul] at hs; omega) high (ok.2.2.1 _) used (shows_.slot same)

end Search

section Calls

variable {cfg} {root : cfg.Root α} {M : Map α}

theorem gangTurn_run {f : Nat → Option α} {search : Nat → Nat → List (cfg.Entry α) × Nat}
    {maxIndex maxItems n first : Nat}
    (high : ∀ j, maxIndex < j → f j = none) (searched : ∀ cur left, cur < 2 ^ cfg.bits → cur ≤ maxIndex → 0 < left →
      ∃ s, Searched f cfg.bits s cur left (search cur left)) (hi : first < 2 ^ cfg.bits) (hn : 2 ^ cfg.bits < n) :
    Loop.run (gangTurn cfg search maxIndex maxItems) n (first, []) =
      some (((stretch f first (2 ^ cfg.bits)).take maxItems).map .item) := by
  have done : ∀ {cur : Nat} {results : List (cfg.Entry α)}, first ≤ cur → cur ≤ 2 ^ cfg.bits →
      results = (stretch f first cur).map .item → results.length ≤ maxItems →
      results.length = maxItems ∨ stretch f cur (2 ^ cfg.bits) = [] →
      results = ((stretch f first (2 ^ cfg.bits)).take maxItems).map .item := by
    intro cur results low le items len full
    rw [items, length_map] at len full
    rw [stretch_append low le, items, take_append]
    rcases full with full | nothing
    · rw [full, Nat.sub_self, take_zero, append_nil, take_of_length_le full.le]
    · rw [nothing, take_nil, append_nil, take_of_length_le len]
  let Inv (m : Nat) (st : Nat × List (cfg.Entry α)) : Prop :=
    m = 2 ^ cfg.bits - st.1 ∧ first ≤ st.1 ∧ st.1 < 2 ^ cfg.bits ∧
      st.2 = (stretch f first st.1).map .item ∧ st.2.length ≤ maxItems
  have start : Inv (2 ^ cfg.bits - first) (first, []) :=
    ⟨rfl, le_rfl, hi, by rw [stretch_self]; rfl, Nat.zero_le _⟩
  have keep : ∀ m st, Inv m st →
      (∃ m' st', gangTurn cfg search maxIndex maxItems st = .inl st' ∧ m' < m ∧ Inv m' st') ∨
      ∃ results, gangTurn cfg search maxIndex maxItems st = .inr results ∧
        results = ((stretch f first (2 ^ cfg.bits)).take maxItems).map .item := by
    rintro m ⟨cur, results⟩ ⟨rfl, low, lt, items, len⟩
    rw [gangTurn]
    by_cases room : results.length < maxItems
    · rw [if_pos room]
      by_cases beyond : maxIndex < cur
      · rw [if_pos beyond]
        refine .inr ⟨_, rfl, done low lt.le items len (.inr ?_)⟩
        exact stretch_eq_nil fun j hj _ => high j (by omega)
      rw [if_neg beyond]
      obtain ⟨s, next, after, -, top, next_eq, found, few⟩ :=
        searched cur (maxItems - results.length) lt (by omega) (by omega)
      have all : results ++ (search cur (maxItems - results.length)).1.filter (fun slot => !slot.isNull) =
          (stretch f first next).map .item := by
        rw [found, stretch_append low after.le, map_append, filter_map]
        congr 2
        exact filter_eq_self.mpr fun a _ => rfl
      have len' : (results ++ (search cur (maxItems - results.length)).1.filter fun slot => !slot.isNull).length ≤
          maxItems := by
        have := length_filter_le (fun slot : cfg.Entry α => !slot.isNull)
          (search cur (maxItems - results.length)).1
        rw [length_append]
        omega
      by_cases wrap : next = 2 ^ cfg.bits
      · right
        refine ⟨_, if_pos (by rw [next_eq, wrap, Nat.mod_self]), ?_⟩
        exact done (low.trans after.le) top all len' (.inr (by rw [wrap, stretch_self]))
      left
      have small : next < 2 ^ cfg.bits := by omega
      rw [Nat.mod_eq_of_lt small] at next_eq
      refine ⟨_, _, if_neg (by omega), ?_, rfl, ?_, ?_, ?_, len'⟩
      all_goals simp only [next_eq]
      · omega
      · omega
      · exact small
      · exact all
    · rw [if_neg room]
      exact .inr ⟨_, rfl, done low lt.le items len (.inl (le_antisymm len (Nat.le_of_not_lt room)))⟩
  obtain ⟨results, run, rfl⟩ := Loop.run_total _ Inv _ keep start (by omega : 2 ^ cfg.bits - first < n)
  exact run

theorem shift_lt_bits {h : Nat} (hh : h + 1 ≤ cfg.maxPath) : h * cfg.mapShift < cfg.bits := by
  have pos := cfg.mapShift_pos
  have := (Nat.le_div_iff_mul_le pos).mp hh
  rw [Nat.succ_mul] at this
  omega

theorem gang_spec (ref : Refines cfg root M) {value : α × (Tag → Bool) → Option α}
    {search : Nat → cfg.Entry α → Nat → Nat → List (cfg.Entry α) × Nat} {n firstIndex maxItems : Nat}
    (single : ∀ a, root.rnode = .item a → value (a, root.tagged) = some a)
    (searched : ∀ h cur left, root.height = h + 1 → cur < 2 ^ cfg.bits → 0 < left → root.rnode.isNull = false →
      Shows value (fun j => (M j).bind value) (h + 1) root.rnode root.tagged cur →
      Searched (fun j => (M j).bind value) cfg.bits ((h + 1) * cfg.mapShift) cur left
        (search (h + 1) root.rnode cur left))
    (hi : firstIndex < 2 ^ cfg.bits) (pos : 0 < maxItems) (hn : 2 ^ cfg.bits < n) :
    gang cfg n search root firstIndex maxItems =
      some (((stretch (fun j => (M j).bind value) firstIndex (2 ^ cfg.bits)).take maxItems).map .item) := by
  rw [gang]
  cases hr : root.rnode with
  | null =>
    rw [stretch_eq_nil fun j _ _ => by rw [ref.null_none hr]; rfl, take_nil]
    rfl
  | item a =>
    have later : ∀ j, 0 < j → (M j).bind value = none := by
      intro j hj
      rw [ref.item_eq hr, if_pos hj]
      rfl
    by_cases above : 0 < firstIndex
    · simp only [if_pos above]
      rw [stretch_eq_nil fun j hj _ => later j (by omega), take_nil]
      rfl
    obtain rfl : firstIndex = 0 := by omega
    have here : (M 0).bind value = some a := by
      rw [ref.item_eq hr]
      exact single a hr
    rw [stretch_append (Nat.le_succ 0) (by omega), stretch_succ, here,
      stretch_eq_nil fun j hj _ => later j (by omega)]
    cases maxItems with
    | zero => cases pos
    | succ m => simp
  | node node =>
    obtain ⟨height, ne⟩ := ref.node_height hr
    obtain ⟨h, hh⟩ := Nat.exists_eq_succ_of_ne_zero ne
    simp only [height]
    refine gangTurn_run (fun j hj => ?_) (fun cur left hcur le hleft => ?_) hi hn
    · by_cases small : j < 2 ^ cfg.bits
      · rw [ref.eq_none ((maxindex_lt_iff cfg _ small).mp hj)]
        rfl
      have : M j = none := by
        by_contra some
        exact small (ref.keys j some)
      rw [this]
      rfl
    · have low := (Refines.low_iff hcur).mp (Nat.not_lt.mpr le)
      have shows_ : Shows value (fun j => (M j).bind value) root.height root.rnode root.tagged cur := by
        intro j hj
        rw [Nat.div_eq_of_lt low, Nat.div_eq_zero_iff_lt (Nat.two_pow_pos _)] at hj
        rw [ref.get_eq hj]
      rw [hh] at shows_ ⊢
      rw [hr] at searched shows_
      exact ⟨_, searched h cur left hh hcur hleft rfl shows_⟩

/-- The items from an index on, in ascending order of their indices. -/
def itemsFrom (cfg : Config) (M : Map α) (firstIndex : Nat) : List α :=
  stretch (fun i => (M i).bind fun v => some v.1) firstIndex (2 ^ cfg.bits)

def taggedFrom (cfg : Config) (M : Map α) (t : Tag) (firstIndex : Nat) : List α :=
  stretch (fun i => (M i).bind (carrying t)) firstIndex (2 ^ cfg.bits)

/-- In every state that can be reached, a gang lookup gives the first `maxItems` items from an index on, or
all of them if there are fewer, in ascending order up to the last index of an `unsigned long`. A leaf has no
more slots than there are indices. -/
theorem radix_tree_gang_lookups {s : State cfg α} (h : Transition.Reachable (Init cfg) (Step cfg) s)
    (leaf : cfg.mapShift ≤ cfg.bits) {firstIndex maxItems n : Nat} (hi : firstIndex < 2 ^ cfg.bits)
    (pos : 1 ≤ maxItems) (hn : 2 ^ cfg.bits < n) : radixTreeGangLookup cfg n s.root firstIndex maxItems =
        some (((itemsFrom cfg s.map firstIndex).take maxItems).map .item) ∧
      ∀ t, radixTreeGangLookupTag cfg n s.root firstIndex maxItems t =
        some (((taggedFrom cfg s.map t firstIndex).take maxItems).map .item) := by
  obtain ⟨ref, -⟩ := reachable_refines h
  have shift : ∀ {h}, s.root.height = h + 1 → h * cfg.mapShift < cfg.bits := fun hh =>
    shift_lt_bits (hh ▸ ref.height_le)
  constructor
  · refine gang_spec ref (fun a _ => rfl) (fun h cur left hh hcur hleft used shows_ => ?_) hi pos hn
    exact lookup_spec (shift hh) leaf hcur hleft (hh ▸ ref.slotOk) used shows_
  · intro t
    rw [radixTreeGangLookupTag]
    cases tagged : s.root.tagged t with
    | false =>
      have none : ∀ j, (s.map j).bind (carrying t) = none := by
        intro j
        by_cases low : j < 2 ^ (s.root.height * cfg.mapShift)
        · rw [← ref.get_eq low]
          exact ref.slotOk.untagged tagged j
        · rw [ref.eq_none low]
          rfl
      rw [taggedFrom, stretch_eq_nil fun j _ _ => none j, take_nil]
      rfl
    | true =>
      refine gang_spec ref (fun a _ => if_pos tagged) (fun h cur left hh hcur hleft used shows_ => ?_) hi pos hn
      exact lookupTag_spec t (shift hh) leaf hcur hleft (hh ▸ ref.slotOk) used shows_

/-- The page at the last index is found, and the running index that wraps to zero ends the search. -/
theorem radix_tree_gang_lookups_last : ∃ s : State ⟨6, 64, by decide⟩ Nat,
    radixTreeGangLookup _ (2 ^ 64 + 1) s.root (2 ^ 64 - 1) 3 = some [.item 9] ∧
      radixTreeGangLookupTag _ (2 ^ 64 + 1) s.root (2 ^ 64 - 1) 3 0 = some [] := by
  have one := (empty_reachable ⟨6, 64, by decide⟩ Nat).next
    (@Step.insert _ _ _ (2 ^ 64 - 1) 9 (List.replicate 11 .fresh) _ _ _ (by decide) rfl)
  have found := radix_tree_gang_lookups one (by decide) (by decide : 2 ^ 64 - 1 < 2 ^ 64) (by decide : 1 ≤ 3)
    (Nat.lt_succ_self (2 ^ 64))
  exact ⟨_, found.1, found.2 0⟩

end Calls

end RadixTree
