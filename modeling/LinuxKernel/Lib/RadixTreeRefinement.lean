/- The radix tree refines a map from indices to items with their tags. -/
import LinuxKernel.Foundation.Transition
import LinuxKernel.Lib.RadixTreeSlot

namespace RadixTree

open Digits Bitmap Function

variable {α : Type} {k : Nat}

def contents (root : Root k α) (j : Nat) : Option (α × (Tag → Bool)) :=
  if j < 2 ^ (root.height * k) then get j root.height root.rnode root.tagged else none

variable {tagged : Tag → Bool} {h : Nat}

theorem contents_first {n : Node k (Entry k α)}
    (tags : (fun t => n.tags t (first k)) = tagged) (empty : ∀ o, o ≠ first k → (n.slots o).isNull = true) (j : Nat) :
    contents ⟨h + 1, tagged, .node n⟩ j = contents ⟨h, tagged, n.slots (first k)⟩ j := by
  simp only [contents]
  by_cases low : j < 2 ^ (h * k)
  · rw [if_pos low, if_pos (lt_of_lt_of_le low (two_pow_le_succ k h)), get,
      show digit k h j = first k from Fin.ext (digit_eq_zero k h j low), tags]
  rw [if_neg low]
  split_ifs with high
  · have off : digit k h j ≠ first k := fun eq =>
      digit_ne_zero k h j (by omega) high (congrArg Fin.val eq)
    rw [get, eq_null_of_isNull (empty _ off), get_null]
  · rfl

/-- With tags in the first slot only, those of the node are its tags. -/
theorem exists_tag_iff {n : Node k (Entry k α)} {t : Tag} (off : ∀ o, o ≠ first k → n.tags t o = false) :
    (∃ o, n.tags t o = true) ↔ n.tags t (first k) = true := by
  refine ⟨?_, fun h => ⟨_, h⟩⟩
  rintro ⟨o, ho⟩
  by_cases zeroth : o = first k
  · rwa [zeroth] at ho
  · rw [off o zeroth] at ho
    cases ho

theorem radixTreeShrink_spec {e : Entry k α} {slab : Slab k α}
    (ok : SlotOk h e tagged) (nonnull : e.isNull = false) (slabOk : SlabOk slab) :
    ∃ h' e' slab', radixTreeShrink h e slab = some (h', e', slab') ∧ h' ≤ h ∧ SlotOk h' e' tagged ∧ SlabOk slab' ∧
      ∀ j, contents ⟨h', tagged, e'⟩ j = contents ⟨h, tagged, e⟩ j := by
  induction h generalizing e slab with
  | zero => exact ⟨_, _, _, rfl, le_rfl, ok, slabOk, fun _ => rfl⟩
  | succ h ih =>
    obtain ⟨n, rfl⟩ := ok.exists_node nonnull
    by_cases one : n.count = 1
    · cases zeroth : (n.slots (first k)).isNull with
      | true =>
        refine ⟨h + 1, .node n, slab, ?_, le_rfl, ok, slabOk, fun _ => rfl⟩
        simp [radixTreeShrink, zeroth]
      | false =>
        have empty : ∀ o, o ≠ first k → (n.slots o).isNull = true := by
          intro o ho
          have change := occupied_setSlot n (first k) .null
          rw [zeroth, ← ok.2.1, one] at change
          have none_left : occupied (setSlot n (first k) .null) = 0 := by
            simpa [Entry.isNull] using change
          have := occupied_eq_zero none_left o
          simpa [setSlot, update_of_ne ho] using this
        have tags : (fun t => n.tags t (first k)) = tagged := by
          funext t
          rw [Bool.eq_iff_iff, ok.2.2.2 t, exists_tag_iff fun o ho => (ok.2.2.1 o).tags_null (empty o ho) t]
        have below := ok.2.2.1 (first k)
        rw [tags] at below
        obtain ⟨h', e', slab', run, le, ok', slabOk', same⟩ :=
          ih below zeroth (nodeFree_spec slabOk ok.2.2.1 empty)
        refine ⟨h', e', slab', ?_, Nat.le_succ_of_le le, ok', slabOk', fun j => ?_⟩
        · simpa [radixTreeShrink, one, zeroth] using run
        · rw [same j, contents_first tags empty j]
    · exact ⟨h + 1, .node n, slab, by simp [radixTreeShrink, one], le_rfl, ok, slabOk,
        fun _ => rfl⟩

theorem extendLoop_spec (m : Nat) {root : Root k α} {slab : Slab k α}
    (ok : SlotOk root.height root.rnode root.tagged) (nonnull : root.rnode.isNull = false) (slabOk : SlabOk slab) :
    ∃ root' slab' ret, extendLoop m root slab = (root', slab', ret) ∧
      root'.height ≤ root.height + m ∧ (ret = .ok → root'.height = root.height + m) ∧ ret ≠ .eexist ∧
      SlotOk root'.height root'.rnode root'.tagged ∧ SlabOk slab' ∧ ∀ j, contents root' j = contents root j := by
  induction m generalizing root slab with
  | zero => exact ⟨_, _, _, rfl, le_rfl, fun _ => rfl, by simp, ok, slabOk, fun _ => rfl⟩
  | succ m ih =>
    obtain ⟨blank, slabOk'⟩ := nodeAlloc_spec slabOk
    rcases hn : nodeAlloc slab with ⟨node, slab'⟩
    rw [hn] at blank slabOk'
    cases node with
    | none =>
      exact ⟨root, slab', .enomem, by simp only [extendLoop, hn], by omega, by simp, by simp,
        ok, slabOk', fun _ => rfl⟩
    | some n =>
      obtain ⟨count, slots, tags⟩ := blank n rfl
      set n' : Node k (Entry k α) := { setSlot n (first k) root.rnode with
        tags := fun t =>
          if root.tagged t then update (n.tags t) (first k) true else n.tags t
        height := root.height + 1
        count := 1 } with hn'
      have slot0 : n'.slots (first k) = root.rnode := by
        simp [hn', setSlot]
      have slotx : ∀ o, o ≠ first k → n'.slots o = .null := by
        intro o ho
        simp [hn', setSlot, update_of_ne ho, slots]
      have tag0 : (fun t => n'.tags t (first k)) = root.tagged := by
        funext t
        cases ht : root.tagged t <;> simp [hn', ht, tags]
      have tagx : ∀ o, o ≠ first k → ∀ t, n'.tags t o = false := by
        intro o ho t
        cases ht : root.tagged t <;> simp [hn', ht, tags, update_of_ne ho]
      have okNode : SlotOk (root.height + 1) (.node n') root.tagged := by
        refine ⟨rfl, ?_, fun o => ?_, fun t => ?_⟩
        · have change := occupied_setSlot n (first k) root.rnode
          rw [nonnull, slots (first k)] at change
          have one : 1 = occupied (setSlot n (first k) root.rnode) := by
            simpa [Entry.isNull, occupied_null slots] using change.symm
          exact one
        · by_cases ho : o = first k
          · rw [ho, tag0]
            exact ok
          · rw [slotx o ho]
            exact slotOk_null.mpr (tagx o ho)
        · rw [← tag0, exists_tag_iff fun o ho => tagx o ho t]
      obtain ⟨root', slab'', ret, run, le, full, noexist, ok', slabOk'', same⟩ :=
        @ih ⟨root.height + 1, root.tagged, .node n'⟩ slab' okNode rfl slabOk'
      refine ⟨root', slab'', ret, ?_, ?_, fun h => ?_, noexist, ok', slabOk'', fun j => ?_⟩
      · simp only [extendLoop, hn]
        exact run
      · simp only at le
        omega
      · have := full h
        simp only at this
        omega
      · have empty : ∀ o, o ≠ first k → (n'.slots o).isNull = true := by
          intro o ho
          rw [slotx o ho]
          rfl
        rw [same j, contents_first tag0 empty j, slot0]

theorem Replaced.contents {i : Nat} {v : Option (α × (Tag → Bool))} {e e' : Entry k α}
    {tagged' : Tag → Bool} (rep : Replaced i h v e tagged e' tagged') (hi : i < 2 ^ (h * k)) :
    contents ⟨h, tagged', e'⟩ = update (contents ⟨h, tagged, e⟩) i v := by
  funext j
  by_cases hj : j < 2 ^ (h * k)
  · simp [RadixTree.contents, update_apply, hj, rep.get_eq j,
      Nat.mod_eq_of_lt hj, Nat.mod_eq_of_lt hi]
  · have : j ≠ i := by omega
    simp [RadixTree.contents, hj, update_of_ne this]

section Indices

variable (cfg : Config)

/-- Within `unsigned long`, the largest index of a height is the last one its digits can write. -/
theorem maxindex_lt_iff (h : Nat) {j : Nat} (hj : j < 2 ^ cfg.bits) :
    maxindex cfg h < j ↔ ¬ j < 2 ^ (h * cfg.mapShift) := by
  simp only [maxindex]
  split_ifs with wide zero
  · have := Nat.pow_lt_pow_right (show 1 < 2 by omega) wide
    omega
  · rw [zero]
    omega
  have exact_width : (2 ^ cfg.bits - 1) >>> (cfg.bits - h * cfg.mapShift) =
      2 ^ (h * cfg.mapShift) - 1 := by
    rw [Nat.shiftRight_eq_div_pow]
    have pos := Nat.two_pow_pos (cfg.bits - h * cfg.mapShift)
    have whole : 2 ^ (h * cfg.mapShift) * 2 ^ (cfg.bits - h * cfg.mapShift) = 2 ^ cfg.bits := by
      rw [← Nat.pow_add]
      congr 1
      omega
    have pos' := Nat.two_pow_pos (h * cfg.mapShift)
    apply Nat.div_eq_of_lt_le
    · rw [Nat.sub_mul]
      omega
    · rw [Nat.sub_add_cancel pos']
      omega
  have pos := Nat.two_pow_pos (h * cfg.mapShift)
  omega

theorem lt_of_maxPath_le {j : Nat} (hj : j < 2 ^ cfg.bits) (hh : cfg.maxPath ≤ h) : j < 2 ^ (h * cfg.mapShift) := by
  have pos := cfg.mapShift_pos
  have enough : cfg.bits ≤ cfg.maxPath * cfg.mapShift := by
    unfold Config.maxPath
    have := Nat.div_add_mod (cfg.bits + cfg.mapShift - 1) cfg.mapShift
    have lt := Nat.mod_lt (cfg.bits + cfg.mapShift - 1) pos
    rw [Nat.mul_comm] at this
    omega
  have := Nat.mul_le_mul_right cfg.mapShift hh
  exact lt_of_lt_of_le hj (Nat.pow_le_pow_right (by omega) (by omega))

theorem extendHeight_spec {i : Nat} (hi : i < 2 ^ cfg.bits) (n h : Nat) (hh : h ≤ cfg.maxPath)
    (hn : cfg.maxPath ≤ h + n) : h ≤ extendHeight cfg i n h ∧ extendHeight cfg i n h ≤ cfg.maxPath ∧
      i < 2 ^ (extendHeight cfg i n h * cfg.mapShift) := by
  induction n generalizing h with
  | zero => exact ⟨le_rfl, hh, lt_of_maxPath_le cfg hi hn⟩
  | succ n ih =>
    rw [extendHeight]
    split_ifs with more
    · have short : h < cfg.maxPath := by
        by_contra long
        exact (maxindex_lt_iff cfg h hi).mp more (lt_of_maxPath_le cfg hi (by omega))
      obtain ⟨le, bound, lt⟩ := ih (h + 1) short (by omega)
      exact ⟨by omega, bound, lt⟩
    · exact ⟨le_rfl, hh, not_not.mp fun ge => more ((maxindex_lt_iff cfg h hi).mpr ge)⟩

end Indices

/-- The map from indices to items with the tags that are set on them. -/
abbrev Map (α : Type) := Nat → Option (α × (Tag → Bool))

structure Refines (cfg : Config) (root : cfg.Root α) (M : Map α) : Prop where
  height_le : root.height ≤ cfg.maxPath
  slotOk : SlotOk root.height root.rnode root.tagged
  contents_eq : contents root = M
  keys : ∀ i, M i ≠ none → i < 2 ^ cfg.bits

section Operations

variable {cfg : Config} {root : cfg.Root α} {M : Map α} {slab : cfg.Slab α} {i : Nat}

theorem Refines.get_eq (ref : Refines cfg root M) (hi : i < 2 ^ (root.height * cfg.mapShift)) :
    get i root.height root.rnode root.tagged = M i := by
  rw [← ref.contents_eq, contents, if_pos hi]

theorem Refines.eq_none (ref : Refines cfg root M) (hi : ¬ i < 2 ^ (root.height * cfg.mapShift)) : M i = none := by
  rw [← ref.contents_eq, contents, if_neg hi]

/-- `radix_tree_insert` extends the tree first if the index is too large for it. -/
theorem radixTreeExtend_spec (ref : Refines cfg root M) (slabOk : SlabOk slab) (hi : i < 2 ^ cfg.bits) :
    ∃ root' slab' ret, (if maxindex cfg root.height < i then radixTreeExtend cfg root slab i
        else (root, slab, .ok)) = (root', slab', ret) ∧
      Refines cfg root' M ∧ SlabOk slab' ∧ ret ≠ .eexist ∧
      (ret = .ok → i < 2 ^ (root'.height * cfg.mapShift)) ∧ (ret ≠ .ok → M i = none) := by
  by_cases more : maxindex cfg root.height < i
  on_goal 2 =>
    refine ⟨root, slab, .ok, if_neg more, ref, slabOk, by simp, fun _ => ?_, by simp⟩
    exact not_not.mp fun ge => more ((maxindex_lt_iff cfg _ hi).mpr ge)
  have high := (maxindex_lt_iff cfg _ hi).mp more
  have short : root.height < cfg.maxPath := by
    by_contra long
    exact high (lt_of_maxPath_le cfg hi (by omega))
  obtain ⟨grow, bound, lt⟩ := extendHeight_spec cfg hi cfg.maxPath (root.height + 1) short (by omega)
  rw [if_pos more]
  set height := extendHeight cfg i cfg.maxPath (root.height + 1) with hheight
  cases null : root.rnode.isNull with
  | true =>
    -- an empty tree only changes its height
    have rnode := eq_null_of_isNull null
    refine ⟨{ root with height }, slab, .ok, ?_, ⟨bound, ?_, ?_, ref.keys⟩, slabOk, by simp,
      fun _ => lt, by simp⟩
    · simp [radixTreeExtend, null, ← hheight]
    · have ok := ref.slotOk
      rw [rnode] at ok
      simpa [rnode] using slotOk_null.mpr (slotOk_null.mp ok)
    · rw [← ref.contents_eq]
      funext j
      simp [contents, rnode]
  | false =>
    obtain ⟨root', slab', ret, run, le, full, noexist, ok, slabOk', same⟩ :=
      extendLoop_spec (height - root.height) ref.slotOk null slabOk
    refine ⟨root', slab', ret, ?_, ⟨by omega, ok, ?_, ref.keys⟩, slabOk', noexist, fun h => ?_,
      fun _ => ref.eq_none high⟩
    · simpa [radixTreeExtend, null] using run
    · rw [← ref.contents_eq]
      exact funext same
    · have := full h
      rw [this, Nat.add_sub_cancel' (by omega)]
      exact lt

variable {v : Option (α × (Tag → Bool))}

theorem keys_update (keys : ∀ j, M j ≠ none → j < 2 ^ cfg.bits)
    (hi : i < 2 ^ cfg.bits) (j : Nat) (hj : update M i v j ≠ none) : j < 2 ^ cfg.bits := by
  by_cases eq : j = i
  · rw [eq]
    exact hi
  · rw [update_of_ne eq] at hj
    exact keys j hj

theorem radixTreeInsert_spec (ref : Refines cfg root M) (slabOk : SlabOk slab) (hi : i < 2 ^ cfg.bits) (a : α) :
    ∃ root' slab' ret, radixTreeInsert cfg root slab i a = some (root', slab', ret) ∧
      Refines cfg root' (if ret = .ok then update M i (some (a, fun _ => false)) else M) ∧
      SlabOk slab' ∧ (ret = .eexist ↔ (M i).isSome) := by
  obtain ⟨root', slab', ret, run, ref', slabOk', noexist, lt, absent⟩ := radixTreeExtend_spec ref slabOk hi
  by_cases hret : ret = .ok
  · obtain ⟨e, up, slab'', ret', down, ins⟩ := insertDown_spec i a root'.height ref'.slotOk slabOk'
    refine ⟨{ root' with rnode := e }, slab'', ret', ?_, ⟨ref'.height_le, ins.slotOk, ?_, ?_⟩,
      ins.slabOk, ?_⟩
    · simp [radixTreeInsert, run, hret, down]
    · by_cases ok : ret' = .ok
      · have rep : Replaced i root'.height (some (a, fun _ => false)) root'.rnode root'.tagged e
            root'.tagged := ⟨ins.slotOk, fun j => by simpa [ok] using ins.get_eq j⟩
        rw [if_pos ok, ← ref'.contents_eq, ← rep.contents (lt hret)]
      rw [if_neg ok, ← ref'.contents_eq]
      funext j
      have := ins.get_eq j
      rw [if_neg (fun h => ok h.1)] at this
      simp [contents, this]
    · split_ifs
      · exact keys_update ref'.keys hi
      · exact ref'.keys
    · rw [ins.exists_iff, ref'.get_eq (lt hret)]
  · refine ⟨root', slab', ret, ?_, ?_, slabOk', ?_⟩
    · simp [radixTreeInsert, run, hret]
    · rw [if_neg hret]
      exact ref'
    · simp [noexist, absent hret]

theorem Refines.low_iff (hi : i < 2 ^ cfg.bits) :
    ¬ maxindex cfg root.height < i ↔ i < 2 ^ (root.height * cfg.mapShift) := by
  rw [maxindex_lt_iff cfg _ hi, not_not]

theorem Refines.lookupDown_eq (ref : Refines cfg root M) (low : i < 2 ^ (root.height * cfg.mapShift)) :
    lookupDown i root.height root.rnode = (M i).map Prod.fst := by
  rw [RadixTree.lookupDown_eq i ref.slotOk, ref.get_eq low]

theorem Refines.tagGetDown_eq (ref : Refines cfg root M) (t : Tag) (pos : root.height ≠ 0)
    (low : i < 2 ^ (root.height * cfg.mapShift)) :
    tagGetDown i t root.height root.rnode = (M i).elim false fun v => v.2 t := by
  obtain ⟨h, hh⟩ := Nat.exists_eq_succ_of_ne_zero pos
  have ok := ref.slotOk
  rw [hh] at ok
  rw [← ref.get_eq low, hh]
  exact RadixTree.tagGetDown_eq i t ok

theorem Refines.node_height {n : Node cfg.mapShift (cfg.Entry α)} (ref : Refines cfg root M)
    (hn : root.rnode = .node n) : n.height = root.height ∧ root.height ≠ 0 := by
  have ok := ref.slotOk
  rw [hn] at ok
  cases hh : root.height with
  | zero =>
    rw [hh] at ok
    exact ok.elim
  | succ h =>
    rw [hh] at ok
    exact ⟨ok.1, Nat.succ_ne_zero h⟩

variable {a : α}

section

variable (ref : Refines cfg root M)
include ref

theorem Refines.item_height (ha : root.rnode = .item a) : root.height = 0 := by
  have ok := ref.slotOk
  rw [ha] at ok
  cases hh : root.height with
  | zero => rfl
  | succ h =>
    rw [hh] at ok
    exact ok.elim

theorem Refines.null_none (null : root.rnode = .null) : M i = none := by
  rw [← ref.contents_eq, contents, null]
  simp

theorem Refines.item_eq (ha : root.rnode = .item a) :
    M i = if 0 < i then none else some (a, root.tagged) := by
  have zero := ref.item_height ha
  rw [← ref.contents_eq, contents, zero, ha]
  by_cases hi : 0 < i
  · simp [hi]
    omega
  · simp [hi, get]
    omega

theorem radixTreeLookup_eq (hi : i < 2 ^ cfg.bits) :
    radixTreeLookup cfg root i = (M i).map Prod.fst := by
  unfold radixTreeLookup
  cases hr : root.rnode with
  | null => simp [ref.null_none hr]
  | item a =>
    rw [ref.item_eq hr]
    by_cases pos : 0 < i <;> simp [pos]
  | node n =>
    obtain ⟨height, -⟩ := ref.node_height hr
    simp only [height]
    split_ifs with more
    · rw [ref.eq_none ((maxindex_lt_iff cfg _ hi).mp more)]
      rfl
    · rw [← hr, ref.lookupDown_eq ((Refines.low_iff hi).mp more)]

theorem Refines.low_of_some {v : α × (Tag → Bool)} (hv : M i = some v) :
    i < 2 ^ (root.height * cfg.mapShift) := by
  by_contra high
  rw [ref.eq_none high] at hv
  cases hv

theorem radixTreeTagged_iff (t : Tag) :
    radixTreeTagged cfg root t = true ↔ ∃ i a s, M i = some (a, s) ∧ s t = true := by
  rw [radixTreeTagged, ref.slotOk.tagged_iff t]
  constructor
  · rintro ⟨i, a, s, low, found, set⟩
    exact ⟨i, a, s, by rw [← ref.get_eq low, found], set⟩
  · rintro ⟨i, a, s, found, set⟩
    have low := ref.low_of_some found
    exact ⟨i, a, s, low, by rw [ref.get_eq low, found], set⟩

theorem radixTreeTagGet_eq (hi : i < 2 ^ cfg.bits) (t : Tag) :
    radixTreeTagGet cfg root i t = (M i).elim false fun v => v.2 t := by
  unfold radixTreeTagGet
  cases set : root.tagged t with
  | false =>
    -- with the tag of the root clear no item carries it
    cases hv : M i with
    | none => simp
    | some v =>
      obtain ⟨a, s⟩ := v
      cases hs : s t with
      | false => simp [hs]
      | true =>
        have := (radixTreeTagged_iff ref t).mpr ⟨i, a, s, hv, hs⟩
        rw [radixTreeTagged, set] at this
        cases this
  | true =>
    simp only [Bool.not_true, Bool.false_eq_true, if_false]
    cases hr : root.rnode with
    | null => simp [ref.null_none hr]
    | item a =>
      rw [ref.item_eq hr]
      by_cases pos : 0 < i
      · simp [pos]
        omega
      · simp [pos, set]
        omega
    | node n =>
      obtain ⟨height, pos⟩ := ref.node_height hr
      simp only [height]
      split_ifs with more
      · rw [ref.eq_none ((maxindex_lt_iff cfg _ hi).mp more)]
        rfl
      · rw [← hr, ref.tagGetDown_eq t pos ((Refines.low_iff hi).mp more)]

theorem Refines.replace {e : cfg.Entry α} (hi : i < 2 ^ cfg.bits)
    (low : i < 2 ^ (root.height * cfg.mapShift)) (rep : Replaced i root.height v root.rnode root.tagged e tagged) :
    Refines cfg ⟨root.height, tagged, e⟩ (update M i v) where
  height_le := ref.height_le
  slotOk := rep.slotOk
  contents_eq := by
    rw [rep.contents low, ← ref.contents_eq]
  keys := keys_update ref.keys hi

end

variable {s : Tag → Bool}

section

variable (ref : Refines cfg root M)
include ref

theorem radixTreeTagSet_spec (hv : M i = some (a, s)) (t : Tag) :
    ∃ root', radixTreeTagSet cfg root i t = some (root', some a) ∧
      Refines cfg root' (update M i (some (a, update s t true))) := by
  have low := ref.low_of_some hv
  have hi := ref.keys i (by simp [hv])
  obtain ⟨e, run, -, rep⟩ := tagSetDown_spec t ref.slotOk ((ref.get_eq low).trans hv)
  refine ⟨_, ?_, ref.replace hi low rep⟩
  simp [radixTreeTagSet, if_neg ((Refines.low_iff hi).mpr low), run]

theorem radixTreeTagClear_present (hv : M i = some (a, s)) (t : Tag) :
    ∃ root', radixTreeTagClear cfg root i t = (root', some a) ∧ root'.height = root.height ∧
      Refines cfg root' (update M i (some (a, update s t false))) := by
  have low := ref.low_of_some hv
  have hi := ref.keys i (by simp [hv])
  obtain ⟨e, up, run, -, rep⟩ := tagClearDown_spec t ref.slotOk ((ref.get_eq low).trans hv)
  have tagged : (if up && root.tagged t then update root.tagged t false
      else root.tagged) = if up then update root.tagged t false else root.tagged := by
    cases up with
    | false => rfl
    | true =>
      cases ht : root.tagged t with
      | true => rfl
      | false => exact (update_eq_self_iff.mpr ht.symm).symm
  refine ⟨⟨root.height, if up then update root.tagged t false else root.tagged, e⟩, ?_, rfl,
    ref.replace hi low rep⟩
  simp only [radixTreeTagClear, if_neg ((Refines.low_iff hi).mpr low), ref.lookupDown_eq low, hv,
    Option.map_some, run, tagged]

theorem radixTreeTagClear_absent (hi : i < 2 ^ cfg.bits)
    (hv : M i = none) (t : Tag) : radixTreeTagClear cfg root i t = (root, none) := by
  unfold radixTreeTagClear
  split_ifs with more
  · rfl
  · rw [ref.lookupDown_eq ((Refines.low_iff hi).mp more), hv]
    rfl

theorem clearItemTag_spec
    (hv : M i = some (a, s)) (pos : root.height ≠ 0) (t : Tag) {root' : cfg.Root α}
    (hroot : root' = if tagGetDown i t root.height root.rnode then (radixTreeTagClear cfg root i t).1 else root) :
    root'.height = root.height ∧ Refines cfg root' (update M i (some (a, update s t false))) := by
  rw [ref.tagGetDown_eq t pos (ref.low_of_some hv), hv] at hroot
  cases hs : s t with
  | true =>
    obtain ⟨cleared, run, height, ref'⟩ := radixTreeTagClear_present ref hv t
    have : root' = cleared := by simpa [run, hs] using hroot
    rw [this]
    exact ⟨height, ref'⟩
  | false =>
    have same : update s t false = s := update_eq_self_iff.mpr hs.symm
    have : root' = root := by simpa [hs] using hroot
    rw [this, same, update_eq_self_iff.mpr hv.symm]
    exact ⟨rfl, ref⟩

theorem clearItemTags_spec (hv : M i = some (a, s)) (pos : root.height ≠ 0) :
    (clearItemTags cfg root i).height = root.height ∧ Refines cfg (clearItemTags cfg root i)
        (update M i (some (a, fun _ => false))) := by
  obtain ⟨height, ref'⟩ := clearItemTag_spec ref hv pos 0 rfl
  obtain ⟨height', ref''⟩ :=
    clearItemTag_spec ref' (update_self ..) (by rwa [height]) 1 rfl
  have all : update (update s 0 false) 1 false = fun _ => false := by
    funext t
    match t with
    | 0 | 1 => rfl
  rw [all, update_idem] at ref''
  exact ⟨height'.trans height, ref''⟩

end

theorem Refines.empty : Refines cfg (⟨0, fun _ => false, .null⟩ : cfg.Root α) fun _ => none where
  height_le := Nat.zero_le _
  slotOk := slotOk_null.mpr fun _ => rfl
  contents_eq := by
    funext j
    simp [contents]
  keys j hj := absurd rfl hj

theorem radixTreeDelete_spec (ref : Refines cfg root M) (slabOk : SlabOk slab) (hi : i < 2 ^ cfg.bits) :
    ∃ root' slab', radixTreeDelete cfg root slab i = some (root', slab', (M i).map Prod.fst) ∧
      Refines cfg root' (update M i none) ∧ SlabOk slab' := by
  unfold radixTreeDelete
  split_ifs with more zero
  · have absent := ref.eq_none ((maxindex_lt_iff cfg _ hi).mp more)
    refine ⟨root, slab, by rw [absent]; rfl, ?_, slabOk⟩
    rwa [update_eq_self_iff.mpr absent.symm]
  · -- the item, if any, hangs directly off the root
    have low := (Refines.low_iff hi).mp more
    refine ⟨⟨root.height, fun _ => false, .null⟩, slab, ?_, ref.replace hi low ?_, slabOk⟩
    · rw [← ref.lookupDown_eq low, zero]
      rfl
    · rw [zero]
      exact ⟨fun _ => rfl, fun j => by simp [Nat.mod_one]⟩
  · have low := (Refines.low_iff hi).mp more
    rw [ref.lookupDown_eq low]
    cases hv : M i with
    | none =>
      refine ⟨root, slab, rfl, ?_, slabOk⟩
      rwa [update_eq_self_iff.mpr hv.symm]
    | some v =>
      obtain ⟨height, ref'⟩ := clearItemTags_spec ref hv zero
      have low' : i < 2 ^ ((clearItemTags cfg root i).height * cfg.mapShift) := by rwa [height]
      obtain ⟨e, slab', r, run, slabOk', gone, rep⟩ := removeDown_spec ref'.slotOk
        ((ref'.get_eq low').trans (update_self ..)) slabOk
      have after := ref'.replace hi low' rep
      rw [update_idem] at after
      simp only [run]
      cases r with
      | gone =>
        have null := eq_null_of_isNull (gone.mp rfl)
        refine ⟨_, slab', rfl, ?_, slabOk'⟩
        have only : update M i none = fun _ => none := by
          funext j
          exact after.null_none null
        rw [only]
        exact Refines.empty
      | here =>
        have nonnull : e.isNull = false := by simpa using gone
        obtain ⟨h', e', slab'', shrunk, le, ok, slabOk'', same⟩ :=
          radixTreeShrink_spec after.slotOk nonnull slabOk'
        refine ⟨⟨h', (clearItemTags cfg root i).tagged, e'⟩, slab'', ?_,
          ⟨le.trans after.height_le, ok, ?_, after.keys⟩, slabOk''⟩
        · simp [shrunk]
        · rw [← after.contents_eq]
          exact funext same
      | below => exact ⟨_, slab', rfl, after, slabOk'⟩

end Operations

/-- A tree with the node cache, beside the map it is meant to be. -/
structure State (cfg : Config) (α : Type) where
  root : cfg.Root α
  slab : cfg.Slab α
  map : Map α

def Init (cfg : Config) (s : State cfg α) : Prop :=
  s.root = ⟨0, fun _ => false, .null⟩ ∧ SlabOk s.slab ∧ s.map = fun _ => none

/-- The calls, on any index; an insertion comes with any behaviour of its allocations. -/
inductive Step (cfg : Config) : State cfg α → State cfg α → Prop
  | insert {s : State cfg α} {i : Nat} {a : α} {script : List Choice} {root : cfg.Root α}
      {slab : cfg.Slab α} {ret : Ret} (hi : i < 2 ^ cfg.bits)
      (run : radixTreeInsert cfg s.root { s.slab with script } i a = some (root, slab, ret)) :
      Step cfg s ⟨root, slab,
        if ret = .ok then update s.map i (some (a, fun _ => false)) else s.map⟩
  | delete {s : State cfg α} {i : Nat} {root : cfg.Root α} {slab : cfg.Slab α} {r : Option α}
      (hi : i < 2 ^ cfg.bits)
      (run : radixTreeDelete cfg s.root s.slab i = some (root, slab, r)) :
      Step cfg s ⟨root, slab, update s.map i none⟩
  | tagSet {s : State cfg α} {i : Nat} {t : Tag} {a : α} {tags : Tag → Bool} {root : cfg.Root α}
      {r : Option α} (present : s.map i = some (a, tags))
      (run : radixTreeTagSet cfg s.root i t = some (root, r)) :
      Step cfg s ⟨root, s.slab, update s.map i (some (a, update tags t true))⟩
  | tagClear {s : State cfg α} {i : Nat} {t : Tag} (hi : i < 2 ^ cfg.bits) :
      Step cfg s ⟨(radixTreeTagClear cfg s.root i t).1, s.slab, update s.map i
        ((s.map i).map fun v => (v.1, update v.2 t false))⟩

section Runs

variable {cfg : Config}

theorem Refines.step {s s' : State cfg α} (inv : Refines cfg s.root s.map ∧ SlabOk s.slab)
    (st : Step cfg s s') : Refines cfg s'.root s'.map ∧ SlabOk s'.slab := by
  obtain ⟨ref, slabOk⟩ := inv
  cases st with
  | @insert i a script root slab ret hi run =>
    have slabOk' : SlabOk { s.slab with script } := slabOk
    obtain ⟨root', slab', ret', run', ref', ok, -⟩ := radixTreeInsert_spec ref slabOk' hi a
    obtain ⟨rfl, rfl, rfl⟩ : root' = root ∧ slab' = slab ∧ ret' = ret := by
      simpa [run] using run'.symm
    exact ⟨ref', ok⟩
  | @delete i root slab r hi run =>
    obtain ⟨root', slab', run', ref', ok⟩ := radixTreeDelete_spec ref slabOk hi
    obtain ⟨rfl, rfl, -⟩ : root' = root ∧ slab' = slab ∧ (s.map i).map Prod.fst = r := by
      simpa [run] using run'.symm
    exact ⟨ref', ok⟩
  | @tagSet i t a tags root r present run =>
    obtain ⟨root', run', ref'⟩ := radixTreeTagSet_spec ref present t
    obtain ⟨rfl, -⟩ : root' = root ∧ some a = r := by simpa [run] using run'.symm
    exact ⟨ref', slabOk⟩
  | @tagClear i t hi =>
    refine ⟨?_, slabOk⟩
    cases hv : s.map i with
    | none =>
      rw [radixTreeTagClear_absent ref hi hv t, update_eq_self_iff.mpr hv.symm]
      exact ref
    | some v =>
      obtain ⟨root', run, -, ref'⟩ := radixTreeTagClear_present ref hv t
      simpa [run] using ref'

theorem reachable_refines {s : State cfg α} (h : Transition.Reachable (Init cfg) (Step cfg) s) :
    Refines cfg s.root s.map ∧ SlabOk s.slab := by
  refine h.invariant (fun s => Refines cfg s.root s.map ∧ SlabOk s.slab) ?_ ?_
  · rintro ⟨root, slab, map⟩ ⟨rfl, slabOk, rfl⟩
    exact ⟨Refines.empty, slabOk⟩
  · intro s t inv st
    exact Refines.step inv st

/-- In every reachable state the tree holds exactly the map: lookups, tags of an index and tags of
the whole tree agree with it, every tag bit is the disjunction of those below, and the next call,
whatever it is, runs into no `BUG_ON` and returns what the map says. -/
theorem radix_tree_refines_map {s : State cfg α} (h : Transition.Reachable (Init cfg) (Step cfg) s) :
    (∀ i, s.map i ≠ none → i < 2 ^ cfg.bits) ∧ SlotOk s.root.height s.root.rnode s.root.tagged ∧
    (∀ t, radixTreeTagged cfg s.root t = true ↔ ∃ i a tags, s.map i = some (a, tags) ∧ tags t) ∧
      ∀ i, i < 2 ^ cfg.bits →
      radixTreeLookup cfg s.root i = (s.map i).map Prod.fst ∧
      (∀ t, radixTreeTagGet cfg s.root i t = (s.map i).elim false fun v => v.2 t) ∧ (∀ a script, ∃ root slab ret,
        radixTreeInsert cfg s.root { s.slab with script } i a = some (root, slab, ret) ∧
        (ret = .eexist ↔ (s.map i).isSome)) ∧ (∃ root slab,
        radixTreeDelete cfg s.root s.slab i = some (root, slab, (s.map i).map Prod.fst)) ∧
      (∀ t, (radixTreeTagClear cfg s.root i t).2 = (s.map i).map Prod.fst) ∧ ∀ t a tags, s.map i = some (a, tags) →
        ∃ root, radixTreeTagSet cfg s.root i t = some (root, some a) := by
  obtain ⟨ref, slabOk⟩ := reachable_refines h
  refine ⟨ref.keys, ref.slotOk, radixTreeTagged_iff ref, fun i hi => ?_⟩
  refine ⟨radixTreeLookup_eq ref hi, radixTreeTagGet_eq ref hi, ?_, ?_, ?_, ?_⟩
  · intro a script
    have slabOk' : SlabOk { s.slab with script } := slabOk
    obtain ⟨root, slab, ret, run, -, -, exist⟩ := radixTreeInsert_spec ref slabOk' hi a
    exact ⟨root, slab, ret, run, exist⟩
  · obtain ⟨root, slab, run, -⟩ := radixTreeDelete_spec ref slabOk hi
    exact ⟨root, slab, run⟩
  · intro t
    cases hv : s.map i with
    | none => rw [radixTreeTagClear_absent ref hi hv t]; rfl
    | some v =>
      obtain ⟨root, run, -⟩ := radixTreeTagClear_present ref hv t
      rw [run]
      rfl
  · intro t a tags present
    obtain ⟨root, run, -⟩ := radixTreeTagSet_spec ref present t
    exact ⟨root, run⟩

theorem empty_reachable (cfg : Config) (α : Type) : Transition.Reachable (Init cfg) (Step cfg)
    (⟨⟨0, fun _ => false, .null⟩, ⟨[], []⟩, fun _ => none⟩ : State cfg α) :=
  .start ⟨rfl, (fun _ hn => nomatch hn), rfl⟩

/-- The first page goes in at index 70, below two new nodes, and is found there. -/
theorem radix_tree_refines_map_second : ∃ s : State ⟨6, 64, by decide⟩ Nat, s.root.height = 2 ∧
      radixTreeLookup _ s.root 70 = some 9 ∧ radixTreeLookup _ s.root 6 = none := by
  have one := (empty_reachable ⟨6, 64, by decide⟩ Nat).next
    (@Step.insert _ _ _ 70 9 [.fresh, .fresh] _ _ _ (by decide) rfl)
  have found := (radix_tree_refines_map one).2.2.2
  exact ⟨_, rfl, (found 70 (by decide)).1, (found 6 (by decide)).1⟩

end Runs

end RadixTree
