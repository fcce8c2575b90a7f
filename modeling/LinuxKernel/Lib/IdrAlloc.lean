/- The search of an idr for the next free slot, and the growth of the tree. -/
import LinuxKernel.Lib.IdrTree

namespace Idr

open Digits Bitmap Function

variable {α : Type} {B : Nat} {LeafOk : Slot B α → Bool → Prop}

structure Blank (p : IdrLayer B α) : Prop where
  bitmap : ∀ o, p.bitmap o = false
  ary : ∀ o, p.ary o = .null
  count : p.count = 0

variable {p : IdrLayer B α}

theorem Blank.layerOk (leaves : Leaves LeafOk) (blank : Blank p) (h : Nat) :
    LayerOk LeafOk h { p with layer := h } where
  layer := rfl
  count := by
    simp [population, weight, used, blank.bitmap, blank.ary, blank.count, Slot.isNull]
  slots o := by
    rw [blank.ary o, blank.bitmap o]
    exact leaves.slotOk_null h

theorem leaf_null (bitmap : ∀ o, p.bitmap o = false)
    (ary : ∀ o, p.ary o = .null) (j h : Nat) : leaf j h p = (.null, false) := by
  rw [leaf, ary, bitmap, leafAt_null]

section Descent

variable {layers id l : Nat} {p : IdrLayer B α} {pa : List (Frame B α)}

theorem Focused.descend (foc : Focused LeafOk layers id (l + 1) p pa) {m : Fin (2 ^ B)}
    (hm : digit B (l + 1) id = m) {q : IdrLayer B α} (slot : p.ary m = .layer q) :
    putBack q (p, m) = p ∧ Focused LeafOk layers id l q ((p, m) :: pa) := by
  have qOk := foc.layerOk.slots m
  rw [slot] at qOk
  have back : putBack q (p, m) = p := by
    simp [putBack, setAry, ← slot]
  refine ⟨back, (slotOk_layer.mp qOk).1, hm.symm, ?_⟩
  rw [back]
  exact foc

theorem Focused.descend_new (leaves : Leaves LeafOk) (foc : Focused LeafOk layers id (l + 1) p pa)
    {m : Fin (2 ^ B)} (hm : digit B (l + 1) id = m) (null : p.ary m = .null) {new : IdrLayer B α}
    (blank : Blank new) :
    Focused LeafOk layers id l { new with layer := l }
        (({ setAry p m (.layer { new with layer := l }) with count := p.count + 1 }, m) :: pa) ∧
      ∀ j, leaf j (layers - 1) (climb { new with layer := l }
        (({ setAry p m (.layer { new with layer := l }) with count := p.count + 1 }, m) :: pa)) =
          leaf j (layers - 1) (climb p pa) := by
  have newOk := blank.layerOk leaves l
  set q : IdrLayer B α := { new with layer := l }
  set p' : IdrLayer B α := { setAry p m (.layer q) with count := p.count + 1 } with hp'
  have agree : AgreeOff m p p' := agreeOff_setAry p m _ _
  have ary : p'.ary m = .layer q := update_self ..
  have back : putBack q (p', m) = p' := by
    simp [putBack, setAry, hp']
  have bit : p.bitmap m = false := by
    have := foc.layerOk.slots m
    rw [null] at this
    exact this
  have p'Ok : LayerOk LeafOk (l + 1) p' := by
    refine foc.layerOk.change agree ?_ ?_
    · rw [null, bit, ary, used_layer]
      rfl
    · rw [ary]
      exact slotOk_layer.mpr ⟨newOk, bit.trans (isFull_eq_false (blank.bitmap 0)).symm⟩
  refine ⟨⟨newOk, hm.symm, ?_⟩, fun j => ?_⟩
  · rw [back]
    exact foc.replace p'Ok rfl
  · change leaf j (layers - 1) (climb (putBack q (p', m)) pa) = _
    rw [back]
    refine foc.leaf_same (agree.leaf_same fun j => ?_) j
    have empty : leaf j l q = (.null, false) := leaf_null blank.bitmap blank.ary j l
    rw [ary, null, bit, leafAt_layer, empty]
    rfl

end Descent

/-- A cursor on a free slot of the lowest layer. -/
structure AtSlot (LeafOk : Slot B α → Bool → Prop) (layers : Nat) (c : Cursor B α) : Prop where
  focused : Focused LeafOk layers c.id 0 c.p c.pa
  free : ∀ q ∈ c.idFree, Blank q
  bit : c.p.bitmap (digit B 0 c.id) = false

/-- The state of the search below a top of that many layers: the tree holds what it held before,
and the ids from the first one to the current one are taken. The first one may lie above the tree. -/
structure Searching (LeafOk : Slot B α → Bool → Prop) (layers start : Nat)
    (L : Nat → Slot B α × Bool) (c : Cursor B α) : Prop where
  focused : Focused LeafOk layers c.id c.l c.p c.pa
  free : ∀ q ∈ c.idFree, Blank q
  same : ∀ j, leaf j (layers - 1) c.top = L j
  ge : start ≤ c.id
  lt : start < 2 ^ (layers * B) → c.id < 2 ^ (layers * B)
  taken : ∀ j, start ≤ j → j < c.id → (L j).2 = true

def SubPost (LeafOk : Slot B α → Bool → Prop) (layers start : Nat) (L : Nat → Slot B α × Bool)
    (r : SubRet × Cursor B α) : Prop :=
  Searching LeafOk layers start L r.2 ∧
    match r.1 with
    | .id => AtSlot LeafOk layers r.2
    | .needToGrow id =>
      (start < 2 ^ (layers * B) → id = 2 ^ (layers * B)) ∧ ∀ j, start ≤ j → j < id → (L j).2 = true
    | .noMem => True
    | .noMoreSpace | .bug => 2 ^ (layers * B) ≤ start

/-- A round lowers the layer or raises the id. -/
def Turn (LeafOk : Slot B α → Bool → Prop) (layers start : Nat) (L : Nat → Slot B α × Bool) (c : Cursor B α)
    (r : Cursor B α ⊕ SubRet × Cursor B α) : Prop :=
  r.elim (fun c' => Searching LeafOk layers start L c' ∧ c'.id < maxIdBit ∧
    (c.id < c'.id ∨ c.id ≤ c'.id ∧ c'.l < c.l)) (SubPost LeafOk layers start L)

section Search

variable {layers start : Nat} {L : Nat → Slot B α × Bool} {c : Cursor B α}

section

variable (s : Searching LeafOk layers start L c)
include s

/-- An id that begins like the current one down to a full slot is taken. -/
theorem Searching.taken_below {j : Nat}
    (same : j / 2 ^ ((c.l + 1) * B) = c.id / 2 ^ ((c.l + 1) * B))
    (bit : c.p.bitmap (digit B c.l j) = true) : (L j).2 = true := by
  rw [← s.same j, Cursor.top, s.focused.leaf_top same]
  exact ((s.focused.layerOk.slots _).full_iff).mp bit j

theorem Searching.taken_to {id : Nat} (taken : ∀ j, c.id ≤ j → j < id → (L j).2 = true) :
    ∀ j, start ≤ j → j < id → (L j).2 = true := by
  intro j hj lt
  rcases Nat.lt_or_ge j c.id with before | after
  · exact s.taken j hj before
  · exact taken j after lt

theorem Searching.restart {id : Nat} (ge : c.id ≤ id)
    (lt : id < 2 ^ (layers * B)) (taken : ∀ j, c.id ≤ j → j < id → (L j).2 = true) :
    Searching LeafOk layers start L { c with p := c.top, pa := [], l := layers - 1, id } where
  focused := ⟨s.focused.top, Nat.sub_add_cancel (Nat.zero_lt_of_lt s.focused.lt)⟩
  free := s.free
  same := s.same
  ge := s.ge.trans ge
  lt _ := lt
  taken := s.taken_to taken

theorem subAllocStep_none (cap : 2 ^ (layers * B) ≤ 2 ^ 30)
    (none_left : findNextZero c.p.bitmap (digit B c.l c.id) = none) :
    Turn LeafOk layers start L c (subAllocStep layers c) := by
  set next := (c.id / 2 ^ ((c.l + 1) * B) + 1) * 2 ^ ((c.l + 1) * B)
  have next_lt : c.id < next := lt_carry B c.l c.id
  have next_le (low : start < 2 ^ (layers * B)) : next ≤ 2 ^ (layers * B) := carry_le s.focused.lt (s.lt low)
  have carry : (c.id ||| (2 ^ ((c.l + 1) * B) - 1)) + 1 = next := or_mask_succ _ _
  have taken : ∀ j, c.id ≤ j → j < next → (L j).2 = true := by
    intro j ge lt
    have same := div_eq_of_lt_carry ge lt
    exact s.taken_below same (findNextZero_none none_left _ (digit_le_of_le same ge))
  unfold subAllocStep
  simp only [none_left, carry]
  by_cases bug : maxIdBit ≤ next
  · rw [if_pos bug]
    refine ⟨s, not_lt.mp fun low => ?_⟩
    have := next_le low
    unfold maxIdBit at bug
    omega
  rw [if_neg bug]
  by_cases top : 2 ^ (layers * B) ≤ next
  · rw [if_pos top]
    exact ⟨s, fun low => le_antisymm (next_le low) top, s.taken_to taken⟩
  rw [if_neg top]
  have below : next < 2 ^ (layers * B) := by omega
  have restart := s.restart next_lt.le below taken
  cases hpa : c.pa with
  | nil =>
    -- the top itself is full, so the next id is past all of them
    have foc := s.focused
    rw [hpa] at foc
    have : 2 ^ ((c.l + 1) * B) ≤ next := Nat.le_mul_of_pos_left _ (Nat.succ_pos _)
    rw [foc.2] at this
    omega
  | cons f pa =>
    by_cases stay : c.id >>> ((c.l + 1 + 1) * B) = next >>> ((c.l + 1 + 1) * B)
    · simp only [if_pos stay]
      refine ⟨⟨?_, s.free, ?_, restart.ge, restart.lt, restart.taken⟩, not_le.mp bug, .inl next_lt⟩
      · have foc := s.focused
        rw [hpa] at foc
        rw [Nat.shiftRight_eq_div_pow, Nat.shiftRight_eq_div_pow] at stay
        exact foc.2.2.congr stay.symm
      · have same := s.same
        rw [Cursor.top, hpa] at same
        exact same
    · simp only [if_neg stay]
      exact ⟨restart, not_le.mp bug, .inl next_lt⟩

end

theorem found_digit {l i : Nat} {m : Fin (2 ^ B)} (ge : (digit B l i : Nat) ≤ m) {id : Nat}
    (hid : id = if m ≠ digit B l i then ((i >>> (l * B)) ^^^ (digit B l i : Nat) ^^^ m) <<< (l * B) else i) :
    digit B l id = m ∧ id / 2 ^ ((l + 1) * B) = i / 2 ^ ((l + 1) * B) ∧ i ≤ id ∧
      ∀ j, i ≤ j → j < id → j / 2 ^ ((l + 1) * B) = i / 2 ^ ((l + 1) * B) ∧ digit B l j < m := by
  by_cases same : m = digit B l i
  · rw [if_neg (not_not.mpr same)] at hid
    rw [hid]
    exact ⟨same.symm, rfl, le_rfl, fun j ge lt => absurd lt (Nat.not_lt.mpr ge)⟩
  rw [if_pos same, xor_digit_shift B l i m m.2] at hid
  have gt : digit B l i < (m : Nat) := by
    refine lt_of_le_of_ne ge fun eq => ?_
    exact same (Fin.ext eq.symm)
  obtain ⟨lt, high, digit_id, between⟩ := set_digit m.2 gt hid
  exact ⟨Fin.ext digit_id, high, lt.le, between⟩

theorem Searching.found (s : Searching LeafOk layers start L c) {m : Fin (2 ^ B)}
    (hm : findNextZero c.p.bitmap (digit B c.l c.id) = some m) {id : Nat} (hid : id = if m ≠ digit B c.l c.id then
      ((c.id >>> (c.l * B)) ^^^ (digit B c.l c.id : Nat) ^^^ m) <<< (c.l * B) else c.id) :
    digit B c.l id = m ∧ Searching LeafOk layers start L { c with id } ∧ c.id ≤ id := by
  obtain ⟨ge, clear, before⟩ := findNextZero_some hm
  obtain ⟨digit_id, same_high, le, between⟩ := found_digit ge hid
  refine ⟨digit_id, ⟨s.focused.congr same_high, s.free, s.same, s.ge.trans le, fun low => ?_,
    s.taken_to fun j new hlt => ?_⟩, le⟩
  · have := carry_le s.focused.lt (s.lt low)
    rw [← same_high] at this
    exact lt_of_lt_of_le (lt_carry B c.l id) this
  · obtain ⟨high, low⟩ := between j new hlt
    exact s.taken_below high (before _ (digit_le_of_le high new) low)

theorem Searching.descend_new (leaves : Leaves LeafOk) (s : Searching LeafOk layers start L c)
    {l : Nat} (hl : c.l = l + 1) {m : Fin (2 ^ B)} (hm : digit B c.l c.id = m)
    (null : c.p.ary m = .null) {new : IdrLayer B α} {idFree : List (IdrLayer B α)}
    (free : c.idFree = new :: idFree) :
    Searching LeafOk layers start L ⟨{ new with layer := l },
      ({ setAry c.p m (.layer { new with layer := l }) with count := c.p.count + 1 }, m) :: c.pa,
      l, c.id, idFree⟩ := by
  have foc := s.focused
  rw [hl] at foc hm
  obtain ⟨foc', same⟩ := foc.descend_new leaves hm null (s.free new (by simp [free]))
  refine ⟨foc', fun x hx => s.free x (by simp [free, hx]), fun j => ?_, s.ge, s.lt, s.taken⟩
  rw [← s.same j]
  exact same j

theorem subAllocStep_some (leaves : Leaves LeafOk) (s : Searching LeafOk layers start L c)
    (cap : 2 ^ (layers * B) ≤ 2 ^ 30) {m : Fin (2 ^ B)} (hm : findNextZero c.p.bitmap (digit B c.l c.id) = some m) :
    Turn LeafOk layers start L c (subAllocStep layers c) := by
  obtain ⟨-, clear, -⟩ := findNextZero_some hm
  unfold subAllocStep
  simp only [hm]
  generalize hid : (if m ≠ digit B c.l c.id then
      ((c.id >>> (c.l * B)) ^^^ (digit B c.l c.id : Nat) ^^^ m) <<< (c.l * B) else c.id) = id
  obtain ⟨digit_id, s', le⟩ := s.found hm hid.symm
  by_cases space : maxIdBit ≤ id
  · rw [if_pos space]
    refine ⟨s, not_lt.mp fun low => ?_⟩
    have lt : id < 2 ^ (layers * B) := s'.lt low
    unfold maxIdBit at space
    omega
  rw [if_neg space]
  cases hl : c.l with
  | zero =>
    have s₀ : Searching LeafOk layers start L ⟨c.p, c.pa, 0, id, c.idFree⟩ := hl ▸ s'
    rw [hl] at digit_id
    exact ⟨s₀, s₀.focused, s.free, digit_id.symm ▸ clear⟩
  | succ l =>
    cases slot : c.p.ary m with
    | null =>
      cases free : c.idFree with
      | nil => exact ⟨s, trivial⟩
      | cons new idFree =>
        refine ⟨?_, not_le.mp space, .inr ⟨le, by simp [hl]⟩⟩
        exact @Searching.descend_new _ _ _ _ _ _ { c with id } leaves s' l hl m digit_id slot
          new idFree free
    | ptr a =>
      have := s.focused.layerOk.slots m
      rw [slot, hl] at this
      exact this.elim
    | layer q =>
      have foc := s'.focused
      rw [hl] at digit_id
      simp only [hl] at foc
      obtain ⟨back, foc'⟩ := foc.descend digit_id slot
      refine ⟨⟨foc', s.free, fun j => ?_, s'.ge, s'.lt, s'.taken⟩, not_le.mp space, .inr ⟨le, by simp [hl]⟩⟩
      rw [← s.same j]
      change leaf j (layers - 1) (climb (putBack q (c.p, m)) c.pa) = _
      rw [back]
      rfl

theorem subAlloc_spec (leaves : Leaves LeafOk) (cap : 2 ^ (layers * B) ≤ 2 ^ 30) (pos : 0 < layers)
    {top : IdrLayer B α} (ok : LayerOk LeafOk (layers - 1) top) {idFree : List (IdrLayer B α)}
    (free : ∀ q ∈ idFree, Blank q) (id : Nat) :
    ∃ r, subAlloc layers top id idFree = some r ∧ SubPost LeafOk layers id (fun j => leaf j (layers - 1) top) r := by
  set L : Nat → Slot B α × Bool := fun j => leaf j (layers - 1) top
  -- the id counts for more than all layers
  let bound (c : Cursor B α) : Nat := (maxIdBit - c.id) * (layers + 1) + c.l
  have start : Searching LeafOk layers id L ⟨top, [], layers - 1, id, idFree⟩ := by
    refine ⟨⟨ok, Nat.sub_add_cancel pos⟩, free, fun j => rfl, le_rfl, fun low => low, fun j hj lt => ?_⟩
    exact absurd lt (Nat.not_lt.mpr hj)
  refine Loop.run_total (subAllocStep layers)
    (fun k c => Searching LeafOk layers id L c ∧ k = bound c) (SubPost LeafOk layers id L) ?_
    ⟨start, rfl⟩ ?_
  · rintro k c ⟨s, rfl⟩
    have turn : Turn LeafOk layers id L c (subAllocStep layers c) := by
      cases hm : findNextZero c.p.bitmap (digit B c.l c.id) with
      | none => exact subAllocStep_none s cap hm
      | some m => exact subAllocStep_some leaves s cap hm
    cases run : subAllocStep layers c with
    | inr r =>
      rw [run] at turn
      exact .inr ⟨r, rfl, turn⟩
    | inl c' =>
      rw [run] at turn
      obtain ⟨s', hid', less⟩ := turn
      refine .inl ⟨_, c', rfl, ?_, s', rfl⟩
      have hl' := s'.focused.lt
      change (maxIdBit - c'.id) * (layers + 1) + c'.l < (maxIdBit - c.id) * (layers + 1) + c.l
      rcases less with more | ⟨same, less⟩
      · have : (maxIdBit - c'.id + 1) * (layers + 1) ≤ (maxIdBit - c.id) * (layers + 1) :=
          Nat.mul_le_mul_right _ (by omega)
        rw [Nat.add_mul] at this
        omega
      · have : (maxIdBit - c'.id) * (layers + 1) ≤ (maxIdBit - c.id) * (layers + 1) :=
          Nat.mul_le_mul_right _ (by omega)
        omega
  · have : (maxIdBit - id) * (layers + 1) ≤ maxIdBit * (layers + 1) :=
      Nat.mul_le_mul_right _ (by omega)
    change (maxIdBit - id) * (layers + 1) + (layers - 1) < subAllocBound layers
    unfold subAllocBound
    omega

end Search

def topLeaf (layers : Nat) (p : IdrLayer B α) (j : Nat) : Slot B α × Bool :=
  if j < 2 ^ (layers * B) then leaf j (layers - 1) p else (.null, false)

theorem LayerOk.empty_of_count {h : Nat} (ok : LayerOk LeafOk h p)
    (zero : p.count = 0) (o : Fin (2 ^ B)) : p.bitmap o = false ∧ p.ary o = .null :=
  null_of_unused (weight_eq_zero (ok.count.symm.trans zero) o)

variable {layers : Nat}

theorem topLeaf_put {id : Nat} {p' : IdrLayer B α} {v : Slot B α × Bool} (lt : id < 2 ^ (layers * B))
    (put : ∀ j, leaf j (layers - 1) p' =
      if j % 2 ^ (layers * B) = id % 2 ^ (layers * B) then v else leaf j (layers - 1) p) :
    topLeaf layers p' = update (topLeaf layers p) id v := by
  funext j
  rw [topLeaf, put j, update_apply, topLeaf]
  by_cases hj : j < 2 ^ (layers * B)
  · rw [if_pos hj, if_pos hj, Nat.mod_eq_of_lt hj, Nat.mod_eq_of_lt lt]
  · rw [if_neg hj, if_neg hj, if_neg (by omega)]

theorem topLeaf_empty (bitmap : ∀ o, p.bitmap o = false)
    (ary : ∀ o, p.ary o = .null) (j : Nat) : topLeaf layers p j = (.null, false) := by
  simp only [topLeaf, leaf_null bitmap ary, ite_self]

/-- A top whose only entry is a leftmost layer adds nothing to what the layer holds. -/
theorem topLeaf_first {q : IdrLayer B α} (pos : 0 < layers)
    (first : p.ary 0 = .layer q) (off : ∀ o, o ≠ 0 → p.ary o = .null ∧ p.bitmap o = false)
    (j : Nat) : topLeaf (layers + 1) p j = topLeaf layers q j := by
  obtain ⟨h, rfl⟩ : ∃ h, layers = h + 1 := ⟨layers - 1, by omega⟩
  simp only [topLeaf, Nat.add_sub_cancel]
  by_cases low : j < 2 ^ ((h + 1) * B)
  · have zero : digit B (h + 1) j = 0 := Fin.ext (by simpa using digit_eq_zero B (h + 1) j low)
    rw [if_pos low, if_pos (lt_of_lt_of_le low (two_pow_le_succ B (h + 1))), leaf, zero, first,
      leafAt_layer]
  rw [if_neg low]
  split_ifs with high
  · have nonzero : digit B (h + 1) j ≠ 0 := by
      intro eq
      have := digit_ne_zero B (h + 1) j (by omega) high
      rw [eq] at this
      simp at this
    obtain ⟨ary, bit⟩ := off _ nonzero
    rw [leaf, ary, bit, leafAt_null]
  · rfl

theorem LayerOk.raise (leaves : Leaves LeafOk) {h : Nat}
    (ok : LayerOk LeafOk h p) (zero : p.count = 0) :
    LayerOk LeafOk (h + 1) { p with layer := p.layer + 1 } where
  layer := congrArg (· + 1) ok.layer
  count := ok.count
  slots o := by
    obtain ⟨bit, ary⟩ := ok.empty_of_count zero o
    rw [ary, bit]
    exact leaves.slotOk_null _

section Cover

variable {new p : IdrLayer B α} {layers : Nat}

theorem cover_ary_zero : (cover new p layers).ary 0 = .layer p := by
  unfold cover
  split_ifs <;> simp [setAry, setBit]

theorem cover_bitmap_zero (blank : Blank new) : (cover new p layers).bitmap 0 = isFull p := by
  unfold cover
  cases full : isFull p with
  | true => simp [setBit]
  | false => exact blank.bitmap 0

theorem cover_off (blank : Blank new) {o : Fin (2 ^ B)} (ho : o ≠ 0) :
    (cover new p layers).ary o = .null ∧ (cover new p layers).bitmap o = false := by
  have ary : (setAry new 0 (.layer p)).ary o = .null :=
    (update_of_ne ho ..).trans (blank.ary o)
  unfold cover
  split_ifs
  · exact ⟨ary, (update_of_ne ho ..).trans (blank.bitmap o)⟩
  · exact ⟨ary, blank.bitmap o⟩

theorem cover_count : (cover new p layers).count = 1 := by
  unfold cover
  split_ifs <;> rfl

theorem cover_layerOk (leaves : Leaves LeafOk) (blank : Blank new)
    (ok : LayerOk LeafOk (layers - 1) p) (pos : 0 < layers) : LayerOk LeafOk layers (cover new p layers) := by
  obtain ⟨h, rfl⟩ : ∃ h, layers = h + 1 := ⟨layers - 1, by omega⟩
  have layer : (cover new p (h + 1)).layer = h + 1 := by
    unfold cover
    split_ifs <;> rfl
  have agree : AgreeOff 0 { new with layer := h + 1 } (cover new p (h + 1)) := by
    refine ⟨layer, fun o ho => ?_, fun o ho => ?_⟩
    · rw [(cover_off blank ho).1, blank.ary o]
    · rw [(cover_off blank ho).2, blank.bitmap o]
  refine (blank.layerOk leaves (h + 1)).change agree ?_ ?_
  · rw [blank.ary, blank.bitmap, blank.count, cover_count, cover_ary_zero, used_layer]
    rfl
  · rw [cover_ary_zero, cover_bitmap_zero blank]
    exact slotOk_layer.mpr ⟨ok, rfl⟩

end Cover

/-- The layers put above the old top have only their first slot in use. -/
def Tower : Nat → IdrLayer B α → Prop
  | 0, _ => True
  | built + 1, p => (∀ o, o ≠ 0 → p.ary o = .null) ∧ ∀ q, p.ary 0 = .layer q → Tower built q

theorem tearDown_blank {built : Nat} (tower : Tower built p)
    {idFree : List (IdrLayer B α)} (free : ∀ q ∈ idFree, Blank q) : ∀ q ∈ tearDown built p idFree, Blank q := by
  induction built generalizing p idFree with
  | zero => exact free
  | succ built ih =>
    have cleared : ∀ q ∈ { setAry p 0 .null with bitmap := fun _ => false, count := 0 } :: idFree,
        Blank q := by
      intro q hq
      rcases List.mem_cons.mp hq with rfl | hq
      · refine ⟨fun _ => rfl, fun o => ?_, rfl⟩
        by_cases ho : o = 0
        · simp [setAry, ho]
        · exact (update_of_ne ho ..).trans (tower.1 o ho)
      · exact free q hq
    rw [tearDown]
    cases hs : p.ary 0 with
    | null | ptr a => exact cleared
    | layer q => exact ih (tower.2 q hs) cleared

theorem Arch.layers_bits (arch : Arch) : (arch.maxLevel - 1) * arch.idrBits = 30 := by
  cases arch <;> rfl

theorem Arch.pow_layers_le {arch : Arch} (le : layers ≤ arch.maxLevel - 1) :
    2 ^ (layers * arch.idrBits) ≤ 2 ^ 30 := by
  rw [← arch.layers_bits]
  exact Nat.pow_le_pow_right (by omega) (Nat.mul_le_mul_right _ le)

section Grow

variable {arch : Arch} {LeafOk : Slot arch.idrBits α → Bool → Prop}

/-- What growing for an id may return, for a tree that holds the given entries. -/
def GrowPost (LeafOk : Slot arch.idrBits α → Bool → Prop) (id : Nat) (L : Nat → Slot arch.idrBits α × Bool) :
    Except (List (IdrLayer arch.idrBits α)) (IdrLayer arch.idrBits α × Nat × List (IdrLayer arch.idrBits α)) → Prop
  | .ok (p, layers, idFree) => LayerOk LeafOk (layers - 1) p ∧ 0 < layers ∧ layers ≤ arch.maxLevel - 1 ∧
      (id < 2 ^ (layers * arch.idrBits) ∨ layers = arch.maxLevel - 1) ∧ (∀ q ∈ idFree, Blank q) ∧
      ∀ j, topLeaf layers p j = L j
  | .error idFree => ∀ q ∈ idFree, Blank q

theorem grow_spec (leaves : Leaves LeafOk) (id bound : Nat) {built : Nat} {L : Nat → Slot arch.idrBits α × Bool}
    {p : IdrLayer arch.idrBits α} {idFree : List (IdrLayer arch.idrBits α)}
    (ok : LayerOk LeafOk (layers - 1) p) (pos : 0 < layers) (le : layers ≤ arch.maxLevel - 1)
    (enough : arch.maxLevel - 1 ≤ layers + bound) (free : ∀ q ∈ idFree, Blank q) (tower : Tower built p)
    (same : ∀ j, topLeaf layers p j = L j) : GrowPost LeafOk id L (grow arch id bound built p layers idFree) := by
  induction bound generalizing built layers p idFree with
  | zero => exact ⟨ok, pos, le, .inr (by omega), free, same⟩
  | succ bound ih =>
    unfold grow
    by_cases more : layers < arch.maxLevel - 1 ∧ 2 ^ (layers * arch.idrBits) ≤ id
    · rw [if_pos more]
      by_cases zero : p.count = 0
      · rw [if_pos zero]
        have raised := ok.raise leaves zero
        rw [Nat.sub_add_cancel pos] at raised
        have empty := ok.empty_of_count zero
        refine ih raised (by omega) (by omega) (by omega) free ?_ fun j => ?_
        · cases built with
          | zero => trivial
          | succ built => exact tower
        · rw [← same j, topLeaf_empty (p := p) (fun o => (empty o).1) fun o => (empty o).2]
          exact topLeaf_empty (fun o => (empty o).1) (fun o => (empty o).2) j
      · rw [if_neg zero]
        cases idFree with
        | nil => exact tearDown_blank tower free
        | cons new idFree =>
          have blank := free new List.mem_cons_self
          refine ih (cover_layerOk leaves blank ok pos) (by omega) (by omega) (by omega)
            (fun q hq => free q (List.mem_cons_of_mem _ hq)) ⟨fun o ho => (cover_off blank ho).1, fun q hq => ?_⟩
            fun j => (topLeaf_first pos cover_ary_zero (fun _ ho => cover_off blank ho) j).trans (same j)
          rw [cover_ary_zero] at hq
          cases hq
          exact tower
    · rw [if_neg more]
      exact ⟨ok, pos, le, by omega, free, same⟩

/-- A tree of at most `MAX_LEVEL - 1` layers, and a free list of empty ones. -/
structure HandleOk (LeafOk : Slot arch.idrBits α → Bool → Prop)
    (idp : Handle arch.idrBits α) : Prop where
  top : ∀ p, idp.top = some p →
    0 < idp.layers ∧ idp.layers ≤ arch.maxLevel - 1 ∧ LayerOk LeafOk (idp.layers - 1) p
  free : ∀ q ∈ idp.idFree, Blank q

def Handle.leafOf (idp : Handle B α) (j : Nat) : Slot B α × Bool :=
  match idp.top with
  | none => (.null, false)
  | some p => topLeaf idp.layers p j

/-- What `idr_get_empty_slot` may return: a cursor on the first free slot, or a lack of layers. -/
def EmptyPost (LeafOk : Slot arch.idrBits α → Bool → Prop) (start : Nat)
    (L : Nat → Slot arch.idrBits α × Bool) : EmptySlot arch.idrBits α → Prop
  | .slot layers c => layers ≤ arch.maxLevel - 1 ∧ AtSlot LeafOk layers c ∧ c.id < 2 ^ (layers * arch.idrBits) ∧
      (∀ j, topLeaf layers c.top j = L j) ∧
      start ≤ c.id ∧ (L c.id).2 = false ∧ ∀ j, start ≤ j → j < c.id → (L j).2 = true
  | .fail idp ret => ret = .noMem ∧ HandleOk LeafOk idp ∧ ∀ j, idp.leafOf j = L j

theorem handleOk_some {layers : Nat} {p : IdrLayer arch.idrBits α} {idFree : List (IdrLayer arch.idrBits α)}
    (pos : 0 < layers) (le : layers ≤ arch.maxLevel - 1) (ok : LayerOk LeafOk (layers - 1) p)
    (free : ∀ q ∈ idFree, Blank q) : HandleOk LeafOk (⟨some p, layers, idFree⟩ : Handle arch.idrBits α) := by
  refine ⟨fun q hq => ?_, free⟩
  cases hq
  exact ⟨pos, le, ok⟩

theorem leafOf_eq {idp : Handle B α} (top : idp.top = some p) (j : Nat) :
    idp.leafOf j = topLeaf idp.layers p j := by
  simp [Handle.leafOf, top]

variable {idp : Handle arch.idrBits α}

theorem topOrNew_spec (leaves : Leaves LeafOk) (ok : HandleOk LeafOk idp) :
    topOrNew idp = none ∨ ∃ built p layers idFree,
      topOrNew idp = some (built, p, layers, idFree) ∧ 0 < layers ∧ layers ≤ arch.maxLevel - 1 ∧
      LayerOk LeafOk (layers - 1) p ∧ Tower built p ∧ (∀ q ∈ idFree, Blank q) ∧
      ∀ j, topLeaf layers p j = idp.leafOf j := by
  unfold topOrNew
  cases top : idp.top with
  | some p =>
    obtain ⟨pos, le, pOk⟩ := ok.top p top
    exact .inr ⟨0, p, idp.layers, idp.idFree, rfl, pos, le, pOk, trivial, ok.free,
      fun j => (leafOf_eq top j).symm⟩
  | none =>
    cases free : idp.idFree with
    | nil => exact .inl rfl
    | cons p idFree =>
      have blank := ok.free p (by simp [free])
      refine .inr ⟨1, { p with layer := 0 }, 1, idFree, rfl, one_pos, ?_,
        blank.layerOk leaves 0, ⟨fun o _ => blank.ary o, fun q hq => ?_⟩,
        fun q hq => ok.free q (by simp [free, hq]), fun j => ?_⟩
      · cases arch <;> decide
      · have := blank.ary 0
        simp [this] at hq
      · have empty : idp.leafOf j = (.null, false) := by simp only [Handle.leafOf, top]
        rw [empty]
        exact topLeaf_empty blank.bitmap blank.ary j

theorem getEmptySlotStep_spec (leaves : Leaves LeafOk) {id start : Nat}
    {L : Nat → Slot arch.idrBits α × Bool} (ok : HandleOk LeafOk idp) (same : ∀ j, idp.leafOf j = L j)
      (ge : start ≤ id)
    (taken : ∀ j, start ≤ j → j < id → (L j).2 = true) (lt : id < 2 ^ 30) :
    (∃ r, getEmptySlotStep arch (idp, id) = .inr (some r) ∧ EmptyPost LeafOk start L r) ∨
    ∃ idp', getEmptySlotStep arch (idp, id) = .inl (idp', 2 ^ (idp'.layers * arch.idrBits)) ∧
      HandleOk LeafOk idp' ∧ idp'.layers ≤ arch.maxLevel - 1 ∧ (∀ j, idp'.leafOf j = L j) ∧
      id < 2 ^ (idp'.layers * arch.idrBits) ∧
      ∀ j, start ≤ j → j < 2 ^ (idp'.layers * arch.idrBits) → (L j).2 = true := by
  rcases topOrNew_spec leaves ok with
    none_left | ⟨built, p, layers, idFree, eq, pos, le, pOk, tower, free, leafs⟩
  · exact .inl ⟨.fail idp .noMem, by simp only [getEmptySlotStep, none_left], rfl, ok, same⟩
  have grown := grow_spec leaves id arch.maxLevel pOk pos le (by omega) free tower fun j => (leafs j).trans (same j)
  rcases run : grow arch id arch.maxLevel built p layers idFree with idFree' | ⟨p', layers', idFree'⟩
  · rw [run] at grown
    refine .inl ⟨.fail { idp with idFree := idFree' } .noMem, ?_, rfl, ⟨ok.top, grown⟩, same⟩
    simp [getEmptySlotStep, eq, run]
  rw [run] at grown
  obtain ⟨ok', pos', le', fits, free', same'⟩ := grown
  have fits : id < 2 ^ (layers' * arch.idrBits) := by
    rcases fits with fits | full
    · exact fits
    · rw [full, arch.layers_bits]
      exact lt
  obtain ⟨⟨ret, c⟩, sub, s, post⟩ := subAlloc_spec leaves (Arch.pow_layers_le le') pos' ok' free' id
  have leafs' : ∀ j, topLeaf layers' c.top j = L j := by
    intro j
    rw [← same' j]
    simp [topLeaf, s.same j]
  have inRange : ∀ j, j < 2 ^ (layers' * arch.idrBits) → L j = leaf j (layers' - 1) p' := by
    intro j hj
    rw [← same' j, topLeaf, if_pos hj]
  have handle := handleOk_some pos' le' s.focused.top s.free
  have before : ∀ k ≤ 2 ^ (layers' * arch.idrBits), (∀ j, id ≤ j → j < k → (leaf j (layers' - 1) p').2 = true) →
      ∀ j, start ≤ j → j < k → (L j).2 = true := by
    intro k hk full j hj hlt
    rcases Nat.lt_or_ge j id with old | new
    · exact taken j hj old
    · rw [inRange j (by omega)]
      exact full j new hlt
  have step : getEmptySlotStep arch (idp, id) = afterSubAlloc layers' (some (ret, c)) := by
    simp [getEmptySlotStep, eq, run, sub]
  rw [step]
  cases ret with
  | id =>
    have low := s.lt fits
    refine .inl ⟨.slot layers' c, rfl, le', post, low, leafs', ge.trans s.ge, ?_, before c.id low.le s.taken⟩
    rw [inRange _ low, ← s.same, Cursor.top, post.focused.leaf_top rfl]
    exact post.bit
  | needToGrow next =>
    obtain ⟨eq, full⟩ := post
    obtain rfl := eq fits
    exact .inr ⟨⟨some c.top, layers', c.idFree⟩, rfl, handle, le', leafs', fits, before _ le_rfl full⟩
  | noMem => exact .inl ⟨.fail ⟨some c.top, layers', c.idFree⟩ .noMem, rfl, rfl, handle, leafs'⟩
  | noMoreSpace | bug => exact absurd fits (not_lt.mpr post)

/-- With a free id in reach `idr_get_empty_slot` finds the first one, unless it runs out of layers;
what the idr holds does not change. -/
theorem idrGetEmptySlot_spec (leaves : Leaves LeafOk) {start : Nat}
    (ok : HandleOk LeafOk idp) (room : ∃ j, start ≤ j ∧ j < 2 ^ 30 ∧ (idp.leafOf j).2 = false) :
    ∃ r, idrGetEmptySlot arch idp start = some r ∧ EmptyPost LeafOk start idp.leafOf r := by
  obtain ⟨j, hj, cap, vacant⟩ := room
  -- each further round starts at an id with one digit more
  let Inv (k : Nat) (s : Handle arch.idrBits α × Nat) : Prop :=
    HandleOk LeafOk s.1 ∧ (∀ j, s.1.leafOf j = idp.leafOf j) ∧ start ≤ s.2 ∧
      (∀ j, start ≤ j → j < s.2 → (idp.leafOf j).2 = true) ∧
      (k = arch.maxLevel ∨ ∃ h, 2 ^ (h * arch.idrBits) ≤ s.2 ∧ k + h = arch.maxLevel - 1)
  let Post (r : Option (EmptySlot arch.idrBits α)) : Prop :=
    ∃ e, r = some e ∧ EmptyPost LeafOk start idp.leafOf e
  have first : Inv arch.maxLevel (idp, start) :=
    ⟨ok, fun _ => rfl, le_rfl, fun j hj lt => absurd lt (Nat.not_lt.mpr hj), .inl rfl⟩
  have keep : ∀ k s, Inv k s →
      (∃ k' s', getEmptySlotStep arch s = .inl s' ∧ k' < k ∧ Inv k' s') ∨
        ∃ r, getEmptySlotStep arch s = .inr r ∧ Post r := by
    rintro k ⟨idp', id⟩ ⟨ok', same, ge, taken, bound⟩
    have lt : id < 2 ^ 30 := by
      by_contra high
      have := taken j hj (lt_of_lt_of_le cap (Nat.le_of_not_lt high))
      rw [vacant] at this
      cases this
    rcases getEmptySlotStep_spec leaves ok' same ge taken lt with
      ⟨r, run, post⟩ | ⟨next, run, okNext, le, sameNext, more, takenNext⟩
    · exact .inr ⟨_, run, r, rfl, post⟩
    refine .inl ⟨arch.maxLevel - 1 - next.layers, _, run, ?_, okNext, sameNext, ge.trans more.le,
      takenNext, .inr ⟨next.layers, le_rfl, by omega⟩⟩
    rcases bound with rfl | ⟨h, low, bound⟩
    · have : 0 < arch.maxLevel := by cases arch <;> decide
      omega
    · have : h * arch.idrBits < next.layers * arch.idrBits :=
        (Nat.pow_lt_pow_iff_right (by omega)).mp (lt_of_le_of_lt low more)
      have := Nat.lt_of_mul_lt_mul_right this
      omega
  obtain ⟨_, run, r, rfl, post⟩ := Loop.run_total (getEmptySlotStep arch) Inv Post keep first
    (show arch.maxLevel < arch.maxLevel + 2 by omega)
  exact ⟨r, by rw [idrGetEmptySlot, run]; rfl, post⟩

end Grow

theorem SlotOk.leafOk (leaves : Leaves LeafOk) {h : Nat} {e : Slot B α} {b : Bool}
    (ok : SlotOk LeafOk h e b) (j : Nat) : LeafOk (leafAt j h e b).1 (leafAt j h e b).2 := by
  induction h generalizing e b with
  | zero => exact ok
  | succ h ih =>
    obtain ⟨rfl, -⟩ | ⟨p, rfl, pOk, -⟩ := ok.cases
    · exact leaves.null
    · exact ih (pOk.slots _)

theorem HandleOk.leafOk {arch : Arch} {LeafOk : Slot arch.idrBits α → Bool → Prop}
    (leaves : Leaves LeafOk) {idp : Handle arch.idrBits α} (ok : HandleOk LeafOk idp) (j : Nat) :
    LeafOk (idp.leafOf j).1 (idp.leafOf j).2 := by
  cases top : idp.top with
  | none =>
    simp only [Handle.leafOf, top]
    exact leaves.null
  | some p =>
    rw [leafOf_eq top, topLeaf]
    split_ifs
    · exact ((ok.top p top).2.2.slots _).leafOk leaves j
    · exact leaves.null

/-- `idr_mark_full` sets the bits above that its own bit completes; the entries are those of the
tree with just that bit. -/
theorem idrMarkFull_spec {id l : Nat} {old : IdrLayer B α} {pa : List (Frame B α)}
    (foc : Focused LeafOk layers id l old pa) (notFull : isFull old = false)
    (ok : LayerOk LeafOk l (setBit p (digit B l id))) : LayerOk LeafOk (layers - 1) (idrMarkFull id l p pa) ∧
      ∀ j, leaf j (layers - 1) (idrMarkFull id l p pa) = leaf j (layers - 1)
        (climb (setBit p (digit B l id)) pa) := by
  induction pa generalizing l p old with
  | nil =>
    obtain ⟨-, rfl⟩ := foc
    exact ⟨ok, fun j => rfl⟩
  | cons f pa ih =>
    obtain ⟨oldOk, slot, rest⟩ := foc
    have bit : (putBack old f).bitmap f.2 = false := by
      have := rest.layerOk.slots f.2
      rw [putBack_ary] at this
      exact (slotOk_layer.mp this).2.trans notFull
    set p₁ := setBit p (digit B l id) with hp₁
    rw [idrMarkFull]
    cases full : isFull p₁ with
    | false =>
      have foc₁ : Focused LeafOk layers id l old (f :: pa) := ⟨oldOk, slot, rest⟩
      have replaced := foc₁.replace ok (full.trans notFull.symm)
      exact ⟨replaced.top, fun j => rfl⟩
    | true =>
      have agree : AgreeOff f.2 (putBack old f) (setBit (putBack p₁ f) f.2) := by
        refine ⟨rfl, (putBack_agree old p₁ f).ary, fun x hx => ?_⟩
        exact update_of_ne hx ..
      have ary : (setBit (putBack p₁ f) f.2).ary f.2 = .layer p₁ := putBack_ary p₁ f
      have set_bit : (setBit (putBack p₁ f) f.2).bitmap f.2 = true := update_self ..
      have upOk : LayerOk LeafOk (l + 1) (setBit (putBack p₁ f) f.2) := by
        refine rest.layerOk.change agree ?_ ?_
        · rw [putBack_ary, ary, used_layer, used_layer]
          rfl
        · rw [ary, set_bit]
          exact slotOk_layer.mpr ⟨ok, full.symm⟩
      have same : AgreeOff f.2 (putBack p₁ f) (setBit (putBack p₁ f) f.2) :=
        ⟨rfl, fun _ _ => rfl, fun x hx => update_of_ne hx ..⟩
      have below : ∀ j, leaf j (l + 1) (setBit (putBack p₁ f) f.2) = leaf j (l + 1) (putBack p₁ f) :=
        same.leaf_same fun j => by rw [ary, putBack_ary, leafAt_layer, leafAt_layer]
      rw [slot] at upOk below
      obtain ⟨topOk, leafs⟩ := ih rest (isFull_eq_false bit) upOk
      exact ⟨topOk, fun j => (leafs j).trans (rest.leaf_same below j)⟩

end Idr
