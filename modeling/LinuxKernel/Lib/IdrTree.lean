/- The layers of an idr: what they hold, the full bits, and paths through them. -/
import LinuxKernel.Lib.Idr

namespace Idr

open Digits Bitmap Function

variable {α : Type} {B : Nat}

def leafAt (i : Nat) : Nat → Slot B α → Bool → Slot B α × Bool
  | 0, e, b => (e, b)
  | h + 1, .layer p, _ => leafAt i h (p.ary (digit B h i)) (p.bitmap (digit B h i))
  | _ + 1, _, _ => (.null, false)

def leaf (i h : Nat) (p : IdrLayer B α) : Slot B α × Bool :=
  leafAt i h (p.ary (digit B h i)) (p.bitmap (digit B h i))

@[simp] theorem leafAt_layer (i h : Nat) (p : IdrLayer B α) (b : Bool) :
    leafAt i (h + 1) (.layer p) b = leaf i h p := rfl

@[simp] theorem leafAt_null (i h : Nat) : leafAt i h (.null : Slot B α) false = (.null, false) := by
  cases h <;> rfl

variable {h : Nat}

theorem leafAt_congr {i j : Nat} (same : i % 2 ^ (h * B) = j % 2 ^ (h * B)) (e : Slot B α)
    (b : Bool) : leafAt i h e b = leafAt j h e b := by
  induction h generalizing e b with
  | zero => rfl
  | succ h ih =>
    obtain ⟨high, low⟩ := (mod_succ_eq_iff B h i j).mp same
    cases e with
    | null | ptr a => rfl
    | layer p => rw [leafAt, leafAt, high, ih low]

/-- An entry that counts: a layer or a pointer, or a `NULL` that was allocated an id. -/
def used (e : Slot B α) (b : Bool) : Bool := b || !e.isNull

theorem null_of_unused {e : Slot B α} {b : Bool} (h : used e b = false) : b = false ∧ e = .null := by
  cases e with
  | null => simpa [used, Slot.isNull] using h
  | ptr a | layer p => simp [used, Slot.isNull] at h

def population (p : IdrLayer B α) : Nat := weight fun o => used (p.ary o) (p.bitmap o)

section WellFormed

variable (LeafOk : Slot B α → Bool → Prop)

/-- The entry of a slot with its bit in the layer above: the layer numbers and counts are right, and
a bit is set if and only if the layer below it is full. What the bits of the lowest layer mean is
left open. -/
def SlotOk : Nat → Slot B α → Bool → Prop
  | 0, e, b => LeafOk e b
  | _ + 1, .null, b => b = false
  | _ + 1, .ptr _, _ => False
  | h + 1, .layer p, b => (p.layer = h ∧ p.count = population p ∧
      ∀ o, SlotOk h (p.ary o) (p.bitmap o)) ∧ b = isFull p

structure LayerOk (h : Nat) (p : IdrLayer B α) : Prop where
  layer : p.layer = h
  count : p.count = population p
  slots : ∀ o, SlotOk LeafOk h (p.ary o) (p.bitmap o)

/-- An entry of the lowest layer may be empty and is never a layer. -/
structure Leaves : Prop where
  null : LeafOk .null false
  layer : ∀ p b, ¬ LeafOk (.layer p) b

end WellFormed

variable {LeafOk : Slot B α → Bool → Prop} {p : IdrLayer B α}

theorem slotOk_layer {b : Bool} :
    SlotOk LeafOk (h + 1) (.layer p) b ↔ LayerOk LeafOk h p ∧ b = isFull p := by
  constructor
  · rintro ⟨⟨layer, count, slots⟩, full⟩
    exact ⟨⟨layer, count, slots⟩, full⟩
  · rintro ⟨ok, full⟩
    exact ⟨⟨ok.layer, ok.count, ok.slots⟩, full⟩

theorem SlotOk.cases {e : Slot B α} {b : Bool} (ok : SlotOk LeafOk (h + 1) e b) :
    e = .null ∧ b = false ∨ ∃ p, e = .layer p ∧ LayerOk LeafOk h p ∧ b = isFull p := by
  cases e with
  | null => exact .inl ⟨rfl, ok⟩
  | ptr a => exact ok.elim
  | layer p => exact .inr ⟨p, rfl, slotOk_layer.mp ok⟩

theorem Leaves.slotOk_null (leaves : Leaves LeafOk) (h : Nat) : SlotOk LeafOk h .null false := by
  cases h with
  | zero => exact leaves.null
  | succ h => rfl

theorem isFull_iff : isFull p = true ↔ ∀ o, p.bitmap o = true := by
  simp [isFull]

variable {o : Fin (2 ^ B)}

theorem isFull_eq_false (clear : p.bitmap o = false) : isFull p = false := by
  rw [← Bool.not_eq_true, isFull_iff]
  intro full
  rw [full o] at clear
  cases clear

/-- A bit is set if and only if all ids below it are taken. -/
theorem SlotOk.full_iff {e : Slot B α} {b : Bool} (ok : SlotOk LeafOk h e b) :
    b = true ↔ ∀ i, (leafAt i h e b).2 = true := by
  induction h generalizing e b with
  | zero => simp [leafAt]
  | succ h ih =>
    obtain ⟨rfl, rfl⟩ | ⟨p, rfl, pOk, full⟩ := ok.cases
    · simp
    · rw [full, isFull_iff]
      constructor
      · intro all i
        exact (ih (pOk.slots _)).mp (all _) i
      · intro all o
        refine (ih (pOk.slots o)).mpr fun i => ?_
        have low : i % 2 ^ (h * B) < 2 ^ (h * B) := Nat.mod_lt _ (Nat.two_pow_pos _)
        have off : digit B h (o * 2 ^ (h * B) + i % 2 ^ (h * B)) = o :=
          Fin.ext (digit_add B h o _ o.2 low)
        have := all (o * 2 ^ (h * B) + i % 2 ^ (h * B))
        rw [leafAt_layer, leaf, off] at this
        rw [← this]
        exact congrArg Prod.snd (leafAt_congr (by simp) _ _)

structure AgreeOff (o : Fin (2 ^ B)) (p p' : IdrLayer B α) : Prop where
  layer : p'.layer = p.layer
  ary : ∀ x, x ≠ o → p'.ary x = p.ary x
  bitmap : ∀ x, x ≠ o → p'.bitmap x = p.bitmap x

variable {p' : IdrLayer B α}

theorem AgreeOff.population (agree : AgreeOff o p p') :
    population p' + (used (p.ary o) (p.bitmap o)).toNat = population p + (used (p'.ary o) (p'.bitmap o)).toNat := by
  have slots : (fun x => used (p'.ary x) (p'.bitmap x)) =
      update (fun x => used (p.ary x) (p.bitmap x)) o
        (used (p'.ary o) (p'.bitmap o)) := by
    funext x
    by_cases hx : x = o
    · rw [hx, update_self]
    · rw [update_of_ne hx, agree.ary x hx, agree.bitmap x hx]
  rw [Idr.population, slots]
  exact weight_update _ o _

section

variable (agree : AgreeOff o p p') (moved : p'.count + (used (p.ary o) (p.bitmap o)).toNat =
  p.count + (used (p'.ary o) (p'.bitmap o)).toNat)
include agree moved

theorem AgreeOff.count (count : p.count = Idr.population p) : p'.count = Idr.population p' := by
  have := agree.population
  omega

theorem AgreeOff.layerOk (layer : p.layer = h) (count : p.count = Idr.population p)
    (slots : ∀ x, x ≠ o → SlotOk LeafOk h (p.ary x) (p.bitmap x)) (slot : SlotOk LeafOk h (p'.ary o) (p'.bitmap o)) :
    LayerOk LeafOk h p' where
  layer := agree.layer.trans layer
  count := agree.count moved count
  slots x := by
    by_cases hx : x = o
    · rw [hx]
      exact slot
    · rw [agree.ary x hx, agree.bitmap x hx]
      exact slots x hx

theorem LayerOk.change (ok : LayerOk LeafOk h p) (slot : SlotOk LeafOk h (p'.ary o) (p'.bitmap o)) :
    LayerOk LeafOk h p' :=
  agree.layerOk moved ok.layer ok.count (fun x _ => ok.slots x) slot

end

variable {v : Slot B α × Bool}

/-- Off the path of an id only the entries below the changed slot can be different. -/
theorem AgreeOff.leaf_put {i : Nat} (agree : AgreeOff (digit B h i) p p')
    (below : ∀ j, leafAt j h (p'.ary (digit B h i)) (p'.bitmap (digit B h i)) =
      if j % 2 ^ (h * B) = i % 2 ^ (h * B) then v
      else leafAt j h (p.ary (digit B h i)) (p.bitmap (digit B h i))) (j : Nat) :
    Idr.leaf j h p' = if j % 2 ^ ((h + 1) * B) = i % 2 ^ ((h + 1) * B) then v else Idr.leaf j h p := by
  simp only [Idr.leaf, mod_succ_eq_iff]
  by_cases same : digit B h j = digit B h i
  · rw [same, below j]
    simp
  · rw [agree.ary _ same, agree.bitmap _ same]
    simp [same]

theorem AgreeOff.leaf_put_zero {i : Nat} (agree : AgreeOff (digit B 0 i) p p') (j : Nat) :
    Idr.leaf j 0 p' = if j % 2 ^ ((0 + 1) * B) = i % 2 ^ ((0 + 1) * B)
      then (p'.ary (digit B 0 i), p'.bitmap (digit B 0 i)) else Idr.leaf j 0 p :=
  agree.leaf_put (fun j => by simp [leafAt, Nat.mod_one]) j

theorem AgreeOff.leaf_same (agree : AgreeOff o p p')
    (below : ∀ j, leafAt j h (p'.ary o) (p'.bitmap o) = leafAt j h (p.ary o) (p.bitmap o)) (j : Nat) :
    leaf j h p' = leaf j h p := by
  by_cases hj : digit B h j = o
  · rw [leaf, leaf, hj, below j]
  · rw [leaf, leaf, agree.ary _ hj, agree.bitmap _ hj]

theorem agreeOff_setAry (p : IdrLayer B α) (o : Fin (2 ^ B)) (e : Slot B α) (count : Nat) :
    AgreeOff o p { setAry p o e with count } where
  layer := rfl
  ary _ hx := update_of_ne hx ..
  bitmap _ _ := rfl

section Paths

variable (LeafOk) (layers id : Nat)

/-- A well-formed tree seen from a layer at level `l` on the path of an id. -/
def Focused : Nat → IdrLayer B α → List (Frame B α) → Prop
  | l, p, [] => LayerOk LeafOk l p ∧ l + 1 = layers
  | l, p, f :: pa => LayerOk LeafOk l p ∧ f.2 = digit B (l + 1) id ∧ Focused (l + 1) (putBack p f) pa

end Paths

variable {layers id l : Nat} {p : IdrLayer B α} {pa : List (Frame B α)}

section

variable (foc : Focused LeafOk layers id l p pa)
include foc

theorem Focused.layerOk : LayerOk LeafOk l p := by
  cases pa with
  | nil | cons f pa => exact foc.1

theorem Focused.lt : l < layers := by
  induction pa generalizing l p with
  | nil =>
    have := foc.2
    omega
  | cons f pa ih =>
    have := ih foc.2.2
    omega

theorem Focused.top : LayerOk LeafOk (layers - 1) (climb p pa) := by
  induction pa generalizing l p with
  | nil =>
    obtain ⟨ok, rfl⟩ := foc
    exact ok
  | cons f pa ih => exact ih foc.2.2

theorem Focused.congr {id' : Nat}
    (same : id' / 2 ^ ((l + 1) * B) = id / 2 ^ ((l + 1) * B)) : Focused LeafOk layers id' l p pa := by
  induction pa generalizing l p with
  | nil => exact foc
  | cons f pa ih =>
    obtain ⟨ok, slot, rest⟩ := foc
    obtain ⟨high, eq⟩ := (div_eq_iff B (l + 1) id' id).mp same
    exact ⟨ok, slot.trans eq.symm, ih rest high⟩

end

theorem putBack_ary (p : IdrLayer B α) (f : Frame B α) : (putBack p f).ary f.2 = .layer p :=
  update_self ..

theorem putBack_agree (p p' : IdrLayer B α) (f : Frame B α) : AgreeOff f.2 (putBack p f) (putBack p' f) where
  layer := rfl
  ary _ hx := (update_of_ne hx ..).trans (update_of_ne hx ..).symm
  bitmap _ _ := rfl

theorem used_layer (p : IdrLayer B α) (b : Bool) : used (.layer p) b = true := by
  simp [used, Slot.isNull]

variable {p' : IdrLayer B α}

theorem LayerOk.putBack {f : Frame B α} (ok : LayerOk LeafOk (l + 1) (putBack p f)) (new : LayerOk LeafOk l p')
    (full : isFull p' = isFull p) : LayerOk LeafOk (l + 1) (Idr.putBack p' f) := by
  have slot := ok.slots f.2
  rw [putBack_ary] at slot
  refine ok.change (putBack_agree p p' f) ?_ ?_
  · rw [putBack_ary, putBack_ary, used_layer, used_layer]
    rfl
  · rw [putBack_ary]
    exact slotOk_layer.mpr ⟨new, (slotOk_layer.mp slot).2.trans full.symm⟩

section

variable (foc : Focused LeafOk layers id l p pa)
include foc

theorem Focused.replace
    (new : LayerOk LeafOk l p') (full : isFull p' = isFull p) : Focused LeafOk layers id l p' pa := by
  induction pa generalizing l p p' with
  | nil => exact ⟨new, foc.2⟩
  | cons f pa ih =>
    obtain ⟨ok, slot, rest⟩ := foc
    exact ⟨new, slot, ih rest (rest.layerOk.putBack new full) rfl⟩

theorem Focused.leaf_top {j : Nat}
    (same : j / 2 ^ ((l + 1) * B) = id / 2 ^ ((l + 1) * B)) : leaf j (layers - 1) (climb p pa) = leaf j l p := by
  induction pa generalizing l p with
  | nil =>
    obtain ⟨-, rfl⟩ := foc
    rfl
  | cons f pa ih =>
    obtain ⟨-, slot, rest⟩ := foc
    obtain ⟨high, eq⟩ := (div_eq_iff B (l + 1) j id).mp same
    rw [climb, ih rest high, leaf, eq, ← slot, putBack_ary, leafAt_layer]

theorem Focused.leaf_put
    (below : ∀ j, leaf j l p' = if j % 2 ^ ((l + 1) * B) = id % 2 ^ ((l + 1) * B) then v else leaf j l p) (j : Nat) :
    leaf j (layers - 1) (climb p' pa) =
      if j % 2 ^ (layers * B) = id % 2 ^ (layers * B) then v else leaf j (layers - 1) (climb p pa) := by
  induction pa generalizing l p p' with
  | nil =>
    obtain ⟨-, rfl⟩ := foc
    exact below j
  | cons f pa ih =>
    obtain ⟨-, slot, rest⟩ := foc
    have agree := putBack_agree p p' f
    rw [slot] at agree
    refine ih rest (agree.leaf_put fun j => ?_)
    rw [← slot, putBack_ary, putBack_ary]
    exact below j

theorem Focused.leaf_same {q q' : IdrLayer B α} (below : ∀ j, leaf j l q' = leaf j l q) (j : Nat) :
    leaf j (layers - 1) (climb q' pa) = leaf j (layers - 1) (climb q pa) := by
  induction pa generalizing l p q q' with
  | nil =>
    obtain ⟨-, rfl⟩ := foc
    exact below j
  | cons f pa ih =>
    refine ih foc.2.2 ((putBack_agree q q' f).leaf_same fun j => ?_)
    rw [putBack_ary, putBack_ary]
    exact below j

end

end Idr
