/- Removal from an idr, and the descents of lookup and replacement. -/
import LinuxKernel.Lib.IdrAlloc

namespace Idr

open Digits Bitmap Function

variable {α : Type} {B : Nat} {LeafOk : Slot B α → Bool → Prop}

/-- A tree in which an id may be removed: its entry is in use, the rest is well formed, and the bits
on the way down to the entry may be anything. -/
def Holding (LeafOk : Slot B α → Bool → Prop) (id : Nat) : Nat → Slot B α → Prop
  | 0, .layer p => p.layer = 0 ∧ p.count = population p ∧ p.bitmap (digit B 0 id) = true ∧
      ∀ o, o ≠ digit B 0 id → SlotOk LeafOk 0 (p.ary o) (p.bitmap o)
  | h + 1, .layer p => p.layer = h + 1 ∧ p.count = population p ∧
      Holding LeafOk id h (p.ary (digit B (h + 1) id)) ∧
      ∀ o, o ≠ digit B (h + 1) id → SlotOk LeafOk (h + 1) (p.ary o) (p.bitmap o)
  | _, _ => False

variable {e : Slot B α} {id h : Nat}

theorem SlotOk.holding {b : Bool} (ok : SlotOk LeafOk (h + 1) e b)
    (taken : (leafAt id (h + 1) e b).2 = true) : Holding LeafOk id h e := by
  induction h generalizing e b with
  | zero =>
    obtain ⟨rfl, rfl⟩ | ⟨p, rfl, pOk, -⟩ := ok.cases
    · simp at taken
    · exact ⟨pOk.layer, pOk.count, taken, fun o _ => pOk.slots o⟩
  | succ h ih =>
    obtain ⟨rfl, rfl⟩ | ⟨p, rfl, pOk, -⟩ := ok.cases
    · simp at taken
    · exact ⟨pOk.layer, pOk.count, ih (pOk.slots _) taken, fun o _ => pOk.slots o⟩

structure Removed (LeafOk : Slot B α → Bool → Prop) (id h : Nat) (e e' : Slot B α) : Prop where
  slotOk : SlotOk LeafOk h e' false
  leafAt_eq : ∀ j b, leafAt j h e' false =
    if j % 2 ^ (h * B) = id % 2 ^ (h * B) then (.null, false) else leafAt j h e b

/-- The end of `sub_remove` in one layer: the slot takes what is left below it, and the layer goes
away if it was its last. -/
theorem removed_layer {p p' : IdrLayer B α} {c : Slot B α} (layer : p.layer = h)
    (count : p.count = population p) (inUse : used (p.ary (digit B h id)) (p.bitmap (digit B h id)))
    (slots : ∀ o, o ≠ digit B h id → SlotOk LeafOk h (p.ary o) (p.bitmap o))
    (agree : AgreeOff (digit B h id) p p') (ary : p'.ary (digit B h id) = c) (bit : p'.bitmap (digit B h id) = false)
    (count' : p'.count = if c.isNull then p.count - 1 else p.count) (below : SlotOk LeafOk h c false)
    (leafs : ∀ j, leafAt j h c false = if j % 2 ^ (h * B) = id % 2 ^ (h * B) then (.null, false)
      else leafAt j h (p.ary (digit B h id)) (p.bitmap (digit B h id))) :
    Removed LeafOk id (h + 1) (.layer p) (if p'.count = 0 then .null else .layer p') := by
  have pOk : LayerOk LeafOk h p' := by
    refine agree.layerOk ?_ layer count slots (by rwa [ary, bit])
    have pos : p.count ≠ 0 := fun zero => by simpa [inUse] using weight_eq_zero (count.symm.trans zero) (digit B h id)
    rw [inUse, ary, bit, count']
    cases null : c.isNull with
    | true =>
      simp [used, null]
      omega
    | false => simp [used, null]
  have moved : ∀ j, leaf j h p' =
      if j % 2 ^ ((h + 1) * B) = id % 2 ^ ((h + 1) * B) then (.null, false) else leaf j h p := by
    refine agree.leaf_put fun j => ?_
    rw [ary, bit]
    exact leafs j
  by_cases zero : p'.count = 0
  · rw [if_pos zero]
    refine ⟨rfl, fun j b => ?_⟩
    have empty := pOk.empty_of_count zero
    rw [leafAt_layer, ← moved j, leaf_null (fun o => (empty o).1) (fun o => (empty o).2),
      leafAt_null]
  · rw [if_neg zero]
    exact ⟨slotOk_layer.mpr ⟨pOk, (isFull_eq_false bit).symm⟩, fun j b => moved j⟩

theorem agreeOff_clear (p : IdrLayer B α) (n : Fin (2 ^ B)) (c : Slot B α) (count : Nat) :
    AgreeOff n p { setAry (clearBit p n) n c with count } where
  layer := rfl
  ary _ hx := update_of_ne hx ..
  bitmap _ hx := update_of_ne hx ..

theorem Holding.used (hold : Holding LeafOk id h e) (b : Bool) : used e b = true := by
  cases e with
  | layer p => exact used_layer p b
  | null | ptr a => cases h <;> exact hold.elim

theorem subRemove_spec (leaves : Leaves LeafOk) (hold : Holding LeafOk id h e) :
    ((subRemove id h e).2 = (subRemove id h e).1.isNull) ∧ Removed LeafOk id (h + 1) e (subRemove id h e).1 := by
  have ends {h : Nat} {e : Slot B α} {p : IdrLayer B α} {r : Slot B α × Bool}
      (removed : Removed LeafOk id h e (if p.count = 0 then .null else .layer p))
      (run : r = if p.count = 0 then (.null, true) else (.layer p, false)) :
      r.2 = r.1.isNull ∧ Removed LeafOk id h e r.1 := by
    rw [run]
    split_ifs at removed ⊢
    all_goals exact ⟨rfl, removed⟩
  induction h generalizing e with
  | zero =>
    cases e with
    | null | ptr a => exact hold.elim
    | layer p =>
      obtain ⟨layer, count, taken, slots⟩ := hold
      set n := digit B 0 id with hn
      refine ends (removed_layer layer count (by simp [used, ← hn, taken]) slots
        (agreeOff_clear p n .null (p.count - 1))
        (update_self ..) (update_self ..) rfl leaves.null fun j => by simp [Nat.mod_one]) ?_
      simp [subRemove, ← hn, taken]
  | succ h ih =>
    cases e with
    | null | ptr a => exact hold.elim
    | layer p =>
      obtain ⟨layer, count, hold', slots⟩ := hold
      obtain ⟨flag, removed⟩ := ih hold'
      set n := digit B (h + 1) id with hn
      rcases hr : subRemove id h (p.ary n) with ⟨c, up⟩
      rw [hr] at flag removed
      refine ends (removed_layer layer count (hold'.used _) slots
        (agreeOff_clear p n c (if c.isNull then p.count - 1 else p.count))
        (update_self ..) (update_self ..) rfl removed.slotOk fun j => removed.leafAt_eq j _) ?_
      rw [← flag]
      cases up with
      | true => simp [subRemove, ← hn, hr]
      | false =>
        have pos : p.count ≠ 0 := by
          intro zero
          have unused := weight_eq_zero (count.symm.trans zero) n
          rw [hold'.used] at unused
          cases unused
        simp only [subRemove, ← hn, hr, Bool.false_eq_true, if_false, if_neg pos]
        rfl

theorem shrink_cases (idp : Handle B α) : shrink idp = idp ∨ ∃ p q, idp.top = some p ∧
    p.ary 0 = .layer q ∧ p.count = 1 ∧ 1 < idp.layers ∧
    shrink idp = { idp with top := some q, layers := idp.layers - 1 } := by
  unfold shrink
  cases top : idp.top with
  | none => exact .inl rfl
  | some p =>
    cases first : p.ary 0 with
    | null | ptr a => exact .inl (by simp [first])
    | layer q =>
      by_cases single : p.count = 1 ∧ 1 < idp.layers
      · exact .inr ⟨p, q, rfl, first, single.1, single.2, by simp [first, single]⟩
      · exact .inl (by simp [first, single])

theorem LayerOk.only_first {h : Nat} {p q : IdrLayer B α} (ok : LayerOk LeafOk h p)
    (one : p.count = 1) (first : p.ary 0 = .layer q) (o : Fin (2 ^ B)) (ho : o ≠ 0) :
    p.ary o = .null ∧ p.bitmap o = false := by
  have rest := weight_update (fun o => used (p.ary o) (p.bitmap o)) 0 false
  rw [first, used_layer] at rest
  have none_left :
      weight (update (fun o => used (p.ary o) (p.bitmap o)) 0 false) = 0 := by
    have := ok.count
    rw [one, population] at this
    rw [← this] at rest
    simpa using rest
  have unused := weight_eq_zero none_left o
  rw [update_of_ne ho] at unused
  exact (null_of_unused unused).symm

section Handle

variable {arch : Arch} {LeafOk : Slot arch.idrBits α → Bool → Prop}
  {idp : Handle arch.idrBits α}

theorem Handle.low_of_taken {j : Nat} (taken : (idp.leafOf j).2 = true) :
    ∃ p, idp.top = some p ∧ j < 2 ^ (idp.layers * arch.idrBits) := by
  cases top : idp.top with
  | none => simp [Handle.leafOf, top] at taken
  | some p =>
    refine ⟨p, rfl, ?_⟩
    by_contra high
    rw [leafOf_eq top, topLeaf, if_neg high] at taken
    cases taken

theorem shrink_spec (ok : HandleOk LeafOk idp) :
    HandleOk LeafOk (shrink idp) ∧ ∀ j, (shrink idp).leafOf j = idp.leafOf j := by
  rcases shrink_cases idp with same | ⟨p, q, top, first, one, many, run⟩
  · rw [same]
    exact ⟨ok, fun _ => rfl⟩
  obtain ⟨-, le, pOk⟩ := ok.top p top
  obtain ⟨h, layers⟩ : ∃ h, idp.layers = h + 1 + 1 := ⟨idp.layers - 2, by omega⟩
  rw [layers] at pOk le
  have qOk := pOk.slots 0
  rw [first] at qOk
  rw [run]
  refine ⟨?_, fun j => ?_⟩
  · rw [layers]
    exact handleOk_some (Nat.succ_pos h) (by omega) (slotOk_layer.mp qOk).1 ok.free
  · rw [leafOf_eq top, layers, topLeaf_first (Nat.succ_pos h) first (pOk.only_first one first)]
    simp [Handle.leafOf]

def withTop (idp : Handle arch.idrBits α) : Slot arch.idrBits α → Handle arch.idrBits α
  | .layer p => { idp with top := some p }
  | _ => { idp with top := none, layers := 0 }

/-- Removing the entry of an id makes it free and changes no other; the bits on its path need not
be right before. -/
theorem idrRemove_spec (leaves : Leaves LeafOk) {p : IdrLayer arch.idrBits α} {id : Nat}
    (top : idp.top = some p) (pos : 0 < idp.layers) (le : idp.layers ≤ arch.maxLevel - 1)
    (free : ∀ q ∈ idp.idFree, Blank q) (hold : Holding LeafOk id (idp.layers - 1) (.layer p))
    (low : id < 2 ^ (idp.layers * arch.idrBits)) : HandleOk LeafOk (idrRemove arch idp id) ∧
      (idrRemove arch idp id).leafOf = update idp.leafOf id (.null, false) := by
  have masked : id % maxIdBit = id := by
    have := Arch.pow_layers_le le
    unfold maxIdBit
    omega
  obtain ⟨h, layers⟩ : ∃ h, idp.layers = h + 1 := ⟨idp.layers - 1, by omega⟩
  have level : idp.layers - 1 = h := by omega
  rw [level] at hold
  obtain ⟨-, removed⟩ := subRemove_spec leaves hold
  rcases hr : subRemove id h (.layer p) with ⟨c, up⟩
  rw [hr] at removed
  -- the tree after `sub_remove`
  set mid : Handle arch.idrBits α := withTop idp c with hmid
  have mid_leaf : ∀ j, mid.leafOf j = if j = id then (.null, false) else idp.leafOf j := by
    intro j
    have cut : (if j < 2 ^ (idp.layers * arch.idrBits) then leafAt j (h + 1) c false
        else (.null, false)) = if j = id then (.null, false) else idp.leafOf j := by
      by_cases hj : j < 2 ^ (idp.layers * arch.idrBits)
      · rw [if_pos hj, removed.leafAt_eq j false, leafOf_eq top, topLeaf, if_pos hj, level]
        rw [layers] at hj low
        simp [Nat.mod_eq_of_lt hj, Nat.mod_eq_of_lt low]
      · have : j ≠ id := by omega
        rw [if_neg hj, if_neg this, leafOf_eq top, topLeaf, if_neg hj]
    rw [← cut, hmid]
    cases c with
    | null => simp [withTop, Handle.leafOf]
    | ptr a => exact removed.slotOk.elim
    | layer q => simp only [withTop, Handle.leafOf, topLeaf, level, leafAt_layer]
  have midOk : HandleOk LeafOk mid := by
    rw [hmid]
    cases c with
    | null => exact ⟨(by rintro q ⟨⟩), free⟩
    | ptr a => exact removed.slotOk.elim
    | layer q => exact handleOk_some pos le (level ▸ (slotOk_layer.mp removed.slotOk).1) free
  have run : idrRemove arch idp id = { shrink mid with
      idFree := (shrink mid).idFree.drop ((shrink mid).idFree.length + 1 - arch.idrFreeMax) } := by
    simp only [idrRemove, masked, top, level, hr]
    cases c <;> rfl
  obtain ⟨shrunkOk, same⟩ := shrink_spec midOk
  rw [run]
  refine ⟨⟨shrunkOk.top, fun q hq => shrunkOk.free q (List.mem_of_mem_drop hq)⟩, ?_⟩
  funext j
  rw [update_apply, ← mid_leaf j, ← same j]
  rfl

end Handle

theorem findDown_eq (id : Nat) {h : Nat} {b : Bool} (ok : SlotOk LeafOk h e b) :
    findDown id h e = some (leafAt id h e b).1.toPtr := by
  induction h generalizing e b with
  | zero => rfl
  | succ h ih =>
    obtain ⟨rfl, -⟩ | ⟨p, rfl, pOk, -⟩ := ok.cases
    · rfl
    · rw [findDown, if_neg (not_not.mpr pOk.layer.symm)]
      exact ih (pOk.slots _)

end Idr
