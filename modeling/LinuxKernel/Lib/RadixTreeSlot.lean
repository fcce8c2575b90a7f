/- What a slot of the radix tree holds, and what each descent changes in it. -/
import LinuxKernel.Foundation.Bitmap
import LinuxKernel.Lib.RadixTree

namespace RadixTree

open Digits Bitmap Function

variable {α : Type} {k : Nat}

/-- The item at an index below a slot, with its tags; those of the entry itself stand in the node
above it. -/
def get (i : Nat) : Nat → Entry k α → (Tag → Bool) → Option (α × (Tag → Bool))
  | 0, .item a, tagged => some (a, tagged)
  | 0, _, _ => none
  | h + 1, .node n, _ => get i h (n.slots (digit k h i)) fun t => n.tags t (digit k h i)
  | _ + 1, _, _ => none

@[simp] theorem get_null (i h : Nat) (tagged : Tag → Bool) : get i h (.null : Entry k α) tagged = none := by
  cases h <;> rfl

variable {h : Nat}

theorem get_congr {i j : Nat} (same : i % 2 ^ (h * k) = j % 2 ^ (h * k)) (e : Entry k α)
    (tagged : Tag → Bool) : get i h e tagged = get j h e tagged := by
  induction h generalizing e tagged with
  | zero => cases e <;> rfl
  | succ h ih =>
    obtain ⟨high, low⟩ := (mod_succ_eq_iff k h i j).mp same
    cases e with
    | null | item a => rfl
    | node n => rw [get, get, high, ih low]

def occupied (n : Node k (Entry k α)) : Nat := weight fun o => !(n.slots o).isNull

/-- The entry in a slot has the height of the slot, counts its slots in use, and the tags of each
entry in it are, or are the disjunction of, the tags further down. -/
def SlotOk : Nat → Entry k α → (Tag → Bool) → Prop
  | _, .null, tagged => ∀ t, tagged t = false
  | 0, .item _, _ => True
  | 0, .node _, _ => False
  | _ + 1, .item _, _ => False
  | h + 1, .node n, tagged => n.height = h + 1 ∧ n.count = occupied n ∧
      (∀ o, SlotOk h (n.slots o) fun t => n.tags t o) ∧
      ∀ t, tagged t = true ↔ ∃ o, n.tags t o = true

variable {tagged : Tag → Bool}

theorem slotOk_null : SlotOk h (.null : Entry k α) tagged ↔ ∀ t, tagged t = false := by
  cases h <;> exact Iff.rfl

variable {e : Entry k α}

theorem eq_null_of_isNull (null : e.isNull = true) : e = .null := by
  cases e with
  | null => rfl
  | item a | node n => cases null

theorem SlotOk.tags_null (ok : SlotOk h e tagged) (null : e.isNull = true) (t : Tag) : tagged t = false := by
  cases e with
  | null => exact slotOk_null.mp ok t
  | item a | node n => cases null

theorem SlotOk.tagged_iff (ok : SlotOk h e tagged) (t : Tag) : tagged t = true ↔
      ∃ i a s, i < 2 ^ (h * k) ∧ get i h e tagged = some (a, s) ∧ s t = true := by
  induction h generalizing e tagged with
  | zero =>
    cases e with
    | null => simp [slotOk_null.mp ok t]
    | item a => simp [get]
    | node n => exact ok.elim
  | succ h ih =>
    cases e with
    | null => simp [slotOk_null.mp ok t]
    | item a => exact ok.elim
    | node n =>
      obtain ⟨-, -, slots, tags⟩ := ok
      rw [tags t]
      have size : 2 ^ ((h + 1) * k) = 2 ^ k * 2 ^ (h * k) := by
        rw [Nat.succ_mul, Nat.pow_add, Nat.mul_comm]
      constructor
      · rintro ⟨o, ho⟩
        obtain ⟨i, a, s, lt, found, hs⟩ := (ih (slots o)).mp ho
        have off : digit k h (o * 2 ^ (h * k) + i) = o := Fin.ext (digit_add k h o i o.2 lt)
        refine ⟨o * 2 ^ (h * k) + i, a, s, ?_, ?_, hs⟩
        · have := Nat.mul_le_mul_right (2 ^ (h * k)) (Nat.succ_le_of_lt o.2)
          rw [Nat.succ_mul] at this
          omega
        · rw [get, off, ← found]
          exact get_congr (by simp) _ _
      · rintro ⟨i, a, s, -, found, hs⟩
        refine ⟨digit k h i, (ih (slots _)).mpr ⟨i % 2 ^ (h * k), a, s, ?_, ?_, hs⟩⟩
        · exact Nat.mod_lt _ (Nat.two_pow_pos _)
        · rw [get] at found
          rw [← found]
          exact get_congr (Nat.mod_mod _ _) _ _

theorem occupied_setSlot (n : Node k (Entry k α)) (o : Fin (2 ^ k)) (c : Entry k α) :
    occupied (setSlot n o c) + (!(n.slots o).isNull).toNat = occupied n + (!c.isNull).toNat := by
  have slots : (fun x => !((setSlot n o c).slots x).isNull) =
      update (fun x => !(n.slots x).isNull) o (!c.isNull) := by
    funext x
    by_cases hx : x = o
    · simp [setSlot, hx]
    · simp [setSlot, update_of_ne hx]
  rw [occupied, slots]
  exact weight_update _ o _

variable {n : Node k (Entry k α)}

theorem occupied_null (slots : ∀ o, n.slots o = .null) : occupied n = 0 := by
  simp [occupied, weight, slots, Entry.isNull]

theorem occupied_eq_zero (h : occupied n = 0) (o : Fin (2 ^ k)) : (n.slots o).isNull = true := by
  simpa using weight_eq_zero h o

def AgreeOff (o : Fin (2 ^ k)) (n n' : Node k (Entry k α)) : Prop :=
  ∀ x, x ≠ o → n'.slots x = n.slots x ∧ ∀ t, n'.tags t x = n.tags t x

theorem agreeOff_setSlot (n : Node k (Entry k α)) (o : Fin (2 ^ k)) (c : Entry k α) (count : Nat) :
    AgreeOff o n { setSlot n o c with count } := by
  intro x hx
  simp [setSlot, update_of_ne hx]

theorem AgreeOff.slotOk {o : Fin (2 ^ k)} {n n' : Node k (Entry k α)}
    (agree : AgreeOff o n n') (ok : ∀ x, SlotOk h (n.slots x) fun t => n.tags t x)
    (new : SlotOk h (n'.slots o) fun t => n'.tags t o) (x : Fin (2 ^ k)) :
    SlotOk h (n'.slots x) fun t => n'.tags t x := by
  by_cases hx : x = o
  · rw [hx]
    exact new
  · rw [(agree x hx).1, funext (agree x hx).2]
    exact ok x

variable {v : Option (α × (Tag → Bool))}

theorem AgreeOff.get {i : Nat} {n n' : Node k (Entry k α)} (agree : AgreeOff (digit k h i) n n')
    (tagged tagged' : Tag → Bool) {p : Prop} [Decidable p]
    (new : ∀ j, get j h (n'.slots (digit k h i)) (fun t => n'.tags t (digit k h i)) =
      if p ∧ j % 2 ^ (h * k) = i % 2 ^ (h * k) then v
      else get j h (n.slots (digit k h i)) fun t => n.tags t (digit k h i)) (j : Nat) :
    get j (h + 1) (.node n') tagged' = if p ∧ j % 2 ^ ((h + 1) * k) = i % 2 ^ ((h + 1) * k) then v
      else get j (h + 1) (.node n) tagged := by
  simp only [RadixTree.get, mod_succ_eq_iff]
  by_cases same : digit k h j = digit k h i
  · rw [same, new j]
    simp
  · rw [(agree _ same).1, funext (agree _ same).2]
    simp [same]

/-- A node whose slots are empty and untagged; `height` is whatever it was. -/
def Blank (n : Node k (Entry k α)) : Prop :=
  n.count = 0 ∧ (∀ o, n.slots o = .null) ∧ ∀ t o, n.tags t o = false

def SlabOk (slab : Slab k α) : Prop := ∀ n ∈ slab.free, Blank n

variable {slab : Slab k α}

theorem nodeAlloc_spec (ok : SlabOk slab) : (∀ n ∈ (nodeAlloc slab).1, Blank n) ∧ SlabOk (nodeAlloc slab).2 := by
  obtain ⟨free, script⟩ := slab
  have blank : Blank (zeroed : Node k (Entry k α)) := ⟨rfl, fun _ => rfl, fun _ _ => rfl⟩
  cases script with
  | nil => exact ⟨by simp [nodeAlloc], ok⟩
  | cons choice script =>
    cases choice with
    | fail => exact ⟨by simp [nodeAlloc], ok⟩
    | fresh =>
      refine ⟨?_, ok⟩
      rintro n ⟨⟩
      exact blank
    | reuse =>
      cases free with
      | nil => exact ⟨by simp [nodeAlloc], ok⟩
      | cons n free =>
        refine ⟨?_, fun m hm => ok m (List.mem_cons_of_mem _ hm)⟩
        rintro m ⟨⟩
        exact ok n List.mem_cons_self

/-- A node may be freed once all its slots but the first are empty. -/
theorem nodeFree_spec (ok : SlabOk slab) (slots : ∀ o, SlotOk h (n.slots o) fun t => n.tags t o)
    (empty : ∀ o, o ≠ first k → (n.slots o).isNull = true) : SlabOk (nodeFree slab n) := by
  intro m hm
  rcases List.mem_cons.mp hm with rfl | hm
  · refine ⟨rfl, fun o => ?_, fun t o => ?_⟩
    · by_cases ho : o = first k
      · simp [nodeRcuFree, ho]
      · simp only [nodeRcuFree, update_of_ne ho]
        exact eq_null_of_isNull (empty o ho)
    · by_cases ho : o = first k
      · simp [nodeRcuFree, ho]
      · simp only [nodeRcuFree, update_of_ne ho]
        exact (slots o).tags_null (empty o ho) t
  · exact ok m hm

variable {i h : Nat} {a : α}

theorem isNull_of_get {v : α × (Tag → Bool)} (found : get i h e tagged = some v) : e.isNull = false := by
  cases e with
  | null => simp at found
  | item a | node n => rfl

theorem get_zero {s : Tag → Bool} (found : get i 0 e tagged = some (a, s)) : e = .item a ∧ tagged = s := by
  cases e with
  | null | node n => cases found
  | item b =>
    cases found
    exact ⟨rfl, rfl⟩

theorem get_succ {v : α × (Tag → Bool)} (found : get i (h + 1) e tagged = some v) :
    ∃ n, e = .node n ∧ get i h (n.slots (digit k h i)) (fun t => n.tags t (digit k h i)) = some v := by
  cases e with
  | null | item a => cases found
  | node n => exact ⟨n, rfl, found⟩

theorem SlotOk.exists_node (ok : SlotOk (h + 1) e tagged) (used : e.isNull = false) : ∃ n, e = .node n := by
  cases e with
  | null => cases used
  | item a => exact ok.elim
  | node n => exact ⟨n, rfl⟩

/-- What the descent of an insertion leaves in a slot. -/
structure Inserted (i : Nat) (a : α) (h : Nat) (e : Entry k α) (tagged : Tag → Bool)
    (e' : Entry k α) (up : Bool) (slab : Slab k α) (ret : Ret) : Prop where
  slotOk : SlotOk h e' tagged
  slabOk : SlabOk slab
  linked : up = (e.isNull && !e'.isNull)
  kept : e'.isNull = true → e.isNull = true
  exists_iff : ret = .eexist ↔ (get i h e tagged).isSome
  get_eq : ∀ j, get j h e' tagged =
    if ret = .ok ∧ j % 2 ^ (h * k) = i % 2 ^ (h * k) then some (a, fun _ => false)
    else get j h e tagged

theorem Inserted.node
    {c : Entry k α} {up : Bool} {ret : Ret}
    (ok : SlotOk (h + 1) (.node n) tagged)
    (below : Inserted i a h (n.slots (digit k h i)) (fun t => n.tags t (digit k h i)) c up slab
      ret) :
    Inserted i a (h + 1) (.node n) tagged
      (.node { setSlot n (digit k h i) c with count := if up then n.count + 1 else n.count })
      false slab ret := by
  obtain ⟨height, count, slots, tags⟩ := ok
  set o := digit k h i
  have agree := agreeOff_setSlot n o c (if up then n.count + 1 else n.count)
  have at_o : (setSlot n o c).slots o = c := update_self ..
  refine ⟨⟨height, ?_, agree.slotOk slots ?_, tags⟩, below.slabOk, rfl, id, ?_, ?_⟩
  · have change := occupied_setSlot n o c
    have linked := below.linked
    have kept := below.kept
    change (if up then n.count + 1 else n.count) = occupied (setSlot n o c)
    cases hc : c.isNull <;> cases hs : (n.slots o).isNull <;> simp_all
  · change SlotOk h ((setSlot n o c).slots o) _
    rw [at_o]
    exact below.slotOk
  · exact below.exists_iff
  · refine agree.get tagged tagged fun j => ?_
    rw [at_o]
    exact below.get_eq j

theorem insertDown_spec (i : Nat) (a : α) (h : Nat) (ok : SlotOk h e tagged) (slabOk : SlabOk slab) :
    ∃ e' up slab' ret, insertDown i a h slab e tagged = some (e', up, slab', ret) ∧
      Inserted i a h e tagged e' up slab' ret := by
  induction h generalizing slab e tagged with
  | zero =>
    cases e with
    | null =>
      have clear := slotOk_null.mp ok
      refine ⟨.item a, true, slab, .ok, by simp [insertDown, Entry.isNull, clear], ?_⟩
      refine ⟨trivial, slabOk, rfl, (fun h => nomatch h), by simp, fun j => ?_⟩
      have : tagged = fun _ => false := funext clear
      simp [get, this, Nat.mod_one]
    | item b =>
      exact ⟨.item b, false, slab, .eexist, rfl, ok, slabOk, rfl, id, by simp [get],
        fun j => by simp⟩
    | node n => exact ok.elim
  | succ h ih =>
    cases e with
    | item b => exact ok.elim
    | node n =>
      obtain ⟨c, up, slab', ret, run, below⟩ := ih (ok.2.2.1 (digit k h i)) slabOk
      refine ⟨_, _, _, _, ?_, below.node ok⟩
      simp [insertDown, run]
    | null =>
      have clear := slotOk_null.mp ok
      obtain ⟨blank, slabOk'⟩ := nodeAlloc_spec slabOk
      rcases hn : nodeAlloc slab with ⟨node, slab'⟩
      rw [hn] at blank slabOk'
      cases node with
      | none =>
        refine ⟨.null, false, slab', .enomem, by simp only [insertDown, hn], ok, slabOk', rfl,
          id, by simp, fun j => by simp⟩
      | some n =>
        -- the new node is linked at once, so it stays when the descent fails further down
        obtain ⟨count, slots, tags⟩ := blank n rfl
        have fresh : SlotOk (h + 1) (.node { n with height := h + 1 }) tagged := by
          refine ⟨rfl, ?_, fun o => ?_, fun t => ?_⟩
          · exact count.trans (occupied_null slots).symm
          · rw [slots o]
            exact slotOk_null.mpr fun t => tags t o
          · simp [clear t, tags t]
        obtain ⟨c, up, slab'', ret, run, below⟩ := ih (fresh.2.2.1 (digit k h i)) slabOk'
        have new := below.node fresh
        have none_before : ∀ j, get j (h + 1) (.node { n with height := h + 1 }) tagged =
            none := by
          intro j
          simp [get, slots]
        refine ⟨_, true, slab'', ret, ?_, new.slotOk, new.slabOk, rfl, (fun h => nomatch h),
          ?_, fun j => ?_⟩
        · simp [insertDown, hn, run]
        · rw [new.exists_iff, none_before, get_null]
        · rw [new.get_eq, none_before, get_null]

theorem lookupDown_eq (i : Nat)
    (ok : SlotOk h e tagged) : lookupDown i h e = (get i h e tagged).map Prod.fst := by
  induction h generalizing e tagged with
  | zero => cases e <;> rfl
  | succ h ih =>
    cases e with
    | null | item a => rfl
    | node n => exact ih (ok.2.2.1 _)

theorem tagGetDown_eq (i : Nat) (t : Tag) (ok : SlotOk (h + 1) e tagged) :
    tagGetDown i t (h + 1) e = ((get i (h + 1) e tagged).elim false fun v => v.2 t) := by
  induction h generalizing e tagged with
  | zero =>
    cases e with
    | null | item a => rfl
    | node n =>
      have below := ok.2.2.1 (digit k 0 i)
      simp only [get]
      cases hs : n.slots (digit k 0 i) with
      | null =>
        rw [hs] at below
        exact slotOk_null.mp below t
      | item a => rfl
      | node m =>
        rw [hs] at below
        exact below.elim
  | succ h ih =>
    cases e with
    | null | item a => rfl
    | node n =>
      have below := ih (ok.2.2.1 (digit k (h + 1) i))
      exact below

/-- An entry that takes the place of another and holds the value `v` at an index. -/
structure Replaced (i h : Nat) (v : Option (α × (Tag → Bool))) (e : Entry k α)
    (tagged : Tag → Bool) (e' : Entry k α) (tagged' : Tag → Bool) : Prop where
  slotOk : SlotOk h e' tagged'
  get_eq : ∀ j, get j h e' tagged' =
    if j % 2 ^ (h * k) = i % 2 ^ (h * k) then v else get j h e tagged

/-- One level of a replacement: what is left to see to are the count and the tags of the node. -/
theorem Replaced.node {n n' : Node k (Entry k α)} {tagged tagged' : Tag → Bool} (ok : SlotOk (h + 1) (.node n) tagged)
    (agree : AgreeOff (digit k h i) n n') (height : n'.height = n.height) (count : n'.count = occupied n')
    (tags : ∀ t, tagged' t = true ↔ ∃ o, n'.tags t o = true)
    (below : Replaced i h v (n.slots (digit k h i)) (fun t => n.tags t (digit k h i))
      (n'.slots (digit k h i)) fun t => n'.tags t (digit k h i)) :
    Replaced i (h + 1) v (.node n) tagged (.node n') tagged' where
  slotOk := ⟨height.trans ok.1, count, agree.slotOk ok.2.2.1 below.slotOk, tags⟩
  get_eq j := by
    have := agree.get tagged tagged' (p := True) (fun j => by simpa using below.get_eq j) j
    simpa using this

theorem occupied_setSlot_of_isNull {o : Fin (2 ^ k)} {c : Entry k α}
    (same : c.isNull = (n.slots o).isNull) : occupied (setSlot n o c) = occupied n := by
  have := occupied_setSlot n o c
  rw [same] at this
  exact Nat.add_right_cancel this

/-- One level of a replacement that leaves its slot in use: of the tags only one may change there. -/
theorem Replaced.node_tag {n : Node k (Entry k α)} {c : Entry k α} {tagged tagged' : Tag → Bool} (t : Tag) (b : Bool)
    (ok : SlotOk (h + 1) (.node n) tagged) (used : (n.slots (digit k h i)).isNull = false) (hc : c.isNull = false)
    (tags : ∀ u, tagged' u = true ↔ ∃ o, update n.tags t (update (n.tags t) (digit k h i) b) u o = true)
    (below : Replaced i h v (n.slots (digit k h i)) (fun u => n.tags u (digit k h i)) c
      (update (fun u => n.tags u (digit k h i)) t b)) :
    Replaced i (h + 1) v (.node n) tagged (.node { setSlot n (digit k h i) c with
      tags := update n.tags t (update (n.tags t) (digit k h i) b) }) tagged' := by
  have tag : ∀ u x, update n.tags t (update (n.tags t) (digit k h i) b) u x =
      update (fun u => n.tags u x) t (if x = digit k h i then b else n.tags t x) u := by
    intro u x
    by_cases hu : u = t
    · simp [hu, update_apply]
    · simp [update_of_ne hu]
  refine .node ok (fun x hx => ⟨update_of_ne hx .., fun u => ?_⟩) rfl ?_ tags ?_
  · simp [tag, hx]
  · exact ok.2.1.trans (occupied_setSlot_of_isNull (hc.trans used.symm)).symm
  · simpa [setSlot, tag] using below

theorem tagSetDown_spec (t : Tag) {s : Tag → Bool} (ok : SlotOk h e tagged) (found : get i h e tagged = some (a, s)) :
    ∃ e', tagSetDown i t h e = some (e', some a) ∧ e'.isNull = false ∧
      Replaced i h (some (a, update s t true)) e tagged e' (update tagged t true) := by
  induction h generalizing e tagged with
  | zero =>
    obtain ⟨rfl, rfl⟩ := get_zero found
    exact ⟨_, rfl, rfl, trivial, fun j => by simp [get, Nat.mod_one]⟩
  | succ h ih =>
    obtain ⟨n, rfl, found⟩ := get_succ found
    have nonnull : (n.slots (digit k h i)).isNull = false := isNull_of_get found
    obtain ⟨c, run, hc, below⟩ := ih (ok.2.2.1 _) found
    refine ⟨_, by rw [tagSetDown, nonnull, run]; rfl, rfl, .node_tag t true ok nonnull hc (fun u => ?_) below⟩
    by_cases hu : u = t
    · subst hu
      simp only [update_self, true_iff]
      exact ⟨_, update_self ..⟩
    · simp only [update_of_ne hu]
      exact ok.2.2.2 u

theorem anyTagSet_iff (n : Node k (Entry k α)) (t : Tag) : anyTagSet n t = true ↔ ∃ o, n.tags t o = true := by
  simp [anyTagSet]

/-- The tag of an item is cleared, and so are the tags above that were set only for it. -/
theorem tagClearDown_spec (t : Tag) {s : Tag → Bool} (ok : SlotOk h e tagged)
    (found : get i h e tagged = some (a, s)) :
    ∃ e' up, tagClearDown i t h e = (e', up) ∧ e'.isNull = false ∧
      Replaced i h (some (a, update s t false)) e tagged e'
        (if up then update tagged t false else tagged) := by
  induction h generalizing e tagged with
  | zero =>
    obtain ⟨rfl, rfl⟩ := get_zero found
    exact ⟨_, _, rfl, rfl, trivial, fun j => by simp [get, Nat.mod_one]⟩
  | succ h ih =>
    obtain ⟨n, rfl, found⟩ := get_succ found
    set o := digit k h i with ho
    have nonnull : (n.slots o).isNull = false := isNull_of_get found
    obtain ⟨c, up, run, hc, below⟩ := ih (ok.2.2.1 o) found
    by_cases go : (up && n.tags t o) = true
    · -- the loop clears the tag here and goes on if no other slot carries it
      obtain ⟨rfl, tagged_o⟩ := (Bool.and_eq_true _ _).mp go
      refine ⟨.node (tagClear (setSlot n o c) t o), !anyTagSet (tagClear (setSlot n o c) t o) t,
        ?_, rfl, .node_tag t false ok nonnull hc (fun u => ?_) below⟩
      · simp only [tagClearDown, ← ho, run]
        exact if_pos go
      · change _ ↔ ∃ x, (tagClear (setSlot n o c) t o).tags u x = true
        by_cases hu : u = t
        · subst hu
          have was : tagged u = true := (ok.2.2.2 u).mpr ⟨o, tagged_o⟩
          rw [← anyTagSet_iff]
          cases anyTagSet (tagClear (setSlot n o c) u o) u <;> simp [was]
        have same : (tagClear (setSlot n o c) t o).tags u = n.tags u := update_of_ne hu ..
        rw [same, ← ok.2.2.2 u]
        cases anyTagSet (tagClear (setSlot n o c) t o) t <;>
          simp [update_of_ne hu]
    · have tags : (if up then update (fun u => n.tags u o) t false else fun u => n.tags u o) =
          fun u => n.tags u o := by
        cases up with
        | false => rfl
        | true =>
          have clear : n.tags t o = false := by simpa using go
          exact update_eq_self_iff.mpr clear.symm
      rw [tags] at below
      have kept : Replaced i (h + 1) _ _ tagged _ tagged := .node_tag t (n.tags t (digit k h i)) ok nonnull hc
        (fun u => by simpa using ok.2.2.2 u) (by simpa using below)
      rw [update_eq_self, update_eq_self] at kept
      refine ⟨.node (setSlot n o c), false, ?_, rfl, kept⟩
      simp only [tagClearDown, ← ho, run]
      exact if_neg go

theorem removeDown_spec (ok : SlotOk h e tagged)
    (found : get i h e tagged = some (a, fun _ => false)) (slabOk : SlabOk slab) :
    ∃ e' slab' r, removeDown i h e slab = (e', slab', r) ∧ SlabOk slab' ∧
      (r = .gone ↔ e'.isNull = true) ∧ Replaced i h none e tagged e' tagged := by
  induction h generalizing e tagged with
  | zero =>
    obtain ⟨rfl, rfl⟩ := get_zero found
    exact ⟨_, _, _, rfl, slabOk, by simp [Entry.isNull], fun t => rfl, fun j => by simp [Nat.mod_one]⟩
  | succ h ih =>
    obtain ⟨n, rfl, found⟩ := get_succ found
    set o := digit k h i with ho
    have nonnull : (n.slots o).isNull = false := isNull_of_get found
    obtain ⟨c, slab', r, run, slabOk', gone, below⟩ := ih (ok.2.2.1 o) found
    have slot : (setSlot n o c).slots o = c := update_self ..
    have change := occupied_setSlot n o c
    rw [nonnull] at change
    by_cases hr : r = .gone
    · subst hr
      have hc := eq_null_of_isNull (gone.mp rfl)
      subst hc
      have count : n.count - 1 = occupied (setSlot n o .null) := by
        rw [ok.2.1]
        simp [Entry.isNull] at change
        omega
      have rep : Replaced i (h + 1) none (.node n) tagged
          (.node { setSlot n o .null with count := n.count - 1 }) tagged := by
        refine Replaced.node ok (agreeOff_setSlot n o .null _) rfl count ok.2.2.2 ?_
        rw [slot]
        exact below
      by_cases zero : n.count - 1 = 0
      · -- the node is empty now, so none of its tags is set
        have empty : ∀ x, ((setSlot n o .null).slots x).isNull = true :=
          occupied_eq_zero (count.symm.trans zero)
        have untagged : ∀ t, tagged t = false := by
          intro t
          by_contra set_t
          obtain ⟨x, hx⟩ := (ok.2.2.2 t).mp (by simpa using set_t)
          have := (rep.slotOk.2.2.1 x).tags_null (empty x) t
          simp [setSlot, hx] at this
        refine ⟨.null, _, .gone, ?_, nodeFree_spec slabOk' rep.slotOk.2.2.1 fun x _ => empty x,
          by simp [Entry.isNull], slotOk_null.mpr untagged, fun j => ?_⟩
        · simp only [removeDown, ← ho, run]
          exact if_neg (by simpa using zero)
        · rw [← rep.get_eq j]
          simp [get, eq_null_of_isNull (empty _)]
      · refine ⟨_, slab', .here, ?_, slabOk', by simp [Entry.isNull], rep⟩
        simp only [removeDown, ← ho, run]
        exact if_pos zero
    · have hc : c.isNull = false := by simpa [hr] using gone
      refine ⟨.node (setSlot n o c), slab', .below, ?_, slabOk', by simp [Entry.isNull],
        Replaced.node ok (agreeOff_setSlot n o c n.count) rfl ?_ ok.2.2.2 ?_⟩
      · simp [removeDown, ← ho, run]
      · change n.count = occupied (setSlot n o c)
        rw [occupied_setSlot_of_isNull (hc.trans nonnull.symm)]
        exact ok.2.1
      · change Replaced i h none _ _ ((setSlot n o c).slots o) _
        rw [slot]
        exact below

end RadixTree
