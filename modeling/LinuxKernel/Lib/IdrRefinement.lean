/- The idr refines a map from ids to pointers, as long as an id is left below its height. -/
import LinuxKernel.Foundation.Transition
import LinuxKernel.Lib.IdrRemove

namespace Idr

open Digits Bitmap Function

variable {α : Type}

section Leaf

variable {B : Nat}

/-- An id is allocated if its bit is set; a free one has no pointer. -/
def PtrLeaf : Slot B α → Bool → Prop
  | .null, _ => True
  | .ptr _, b => b = true
  | .layer _, _ => False

theorem ptrLeaves : Leaves (PtrLeaf : Slot B α → Bool → Prop) :=
  ⟨trivial, fun _ _ h => h⟩

theorem PtrLeaf.ofPtr (ptr : Option α) : PtrLeaf (.ofPtr ptr : Slot B α) true := by
  cases ptr with
  | none => trivial
  | some a => rfl

variable {e : Slot B α}

theorem PtrLeaf.null_of_free (ok : PtrLeaf e false) : e = .null := by
  cases e with
  | null => rfl
  | ptr a => cases ok
  | layer p => exact ok.elim

@[simp] theorem toPtr_ofPtr (ptr : Option α) : (Slot.ofPtr ptr : Slot B α).toPtr = ptr := by
  cases ptr <;> rfl

def entry : Option (Option α) → Slot B α × Bool
  | none => (.null, false)
  | some ptr => (.ofPtr ptr, true)

theorem entry_toPtr (v : Option (Option α)) : (entry v : Slot B α × Bool).1.toPtr = v.join := by
  cases v with
  | none => rfl
  | some ptr => exact toPtr_ofPtr ptr

theorem replaceDown_free {id : Nat} (ptr : Option α) {h : Nat} {b : Bool}
    (free : (leafAt id (h + 1) e b).2 = false) : replaceDown id ptr h e = (e, .enoent) := by
  induction h generalizing e b with
  | zero =>
    cases e with
    | null | ptr a => rfl
    | layer p =>
      have bit : p.bitmap (digit B 0 id) = false := free
      simp [replaceDown, bit]
  | succ h ih =>
    cases e with
    | null | ptr a => rfl
    | layer p =>
      have below : replaceDown id ptr h (p.ary (digit B (h + 1) id)) =
          (p.ary (digit B (h + 1) id), .enoent) := ih free
      simp [replaceDown, below, setAry]

theorem replaceDown_taken {id : Nat} (ptr : Option α) {h : Nat} {b : Bool}
    (ok : SlotOk PtrLeaf (h + 1) e b) (taken : (leafAt id (h + 1) e b).2 = true) :
    ∃ p', replaceDown id ptr h e = (.layer p', .old (leafAt id (h + 1) e b).1.toPtr) ∧
      SlotOk PtrLeaf (h + 1) (.layer p') b ∧ ∀ j, leaf j h p' = if j % 2 ^ ((h + 1) * B) = id % 2 ^ ((h + 1) * B)
        then (.ofPtr ptr, true) else leafAt j (h + 1) e b := by
  induction h generalizing e b with
  | zero =>
    obtain ⟨rfl, rfl⟩ | ⟨p, rfl, pOk, full⟩ := ok.cases
    · simp at taken
    · set n := digit B 0 id with hn
      have bit : p.bitmap n = true := taken
      have agree : AgreeOff n p (setAry p n (.ofPtr ptr)) := agreeOff_setAry p n _ p.count
      have slot : (setAry p n (.ofPtr ptr)).ary n = .ofPtr ptr := update_self ..
      have bit' : (setAry p n (.ofPtr ptr)).bitmap n = true := bit
      refine ⟨setAry p n (.ofPtr ptr), ?_, slotOk_layer.mpr ⟨pOk.change agree ?_ ?_, full⟩, fun j => ?_⟩
      · simp only [replaceDown, ← hn, bit]
        rfl
      · rw [bit, bit']
        rfl
      · rw [slot, bit']
        exact PtrLeaf.ofPtr ptr
      · rw [agree.leaf_put_zero, slot, bit', leafAt_layer]
  | succ h ih =>
    obtain ⟨rfl, rfl⟩ | ⟨p, rfl, pOk, full⟩ := ok.cases
    · simp at taken
    · set n := digit B (h + 1) id with hn
      obtain ⟨q, run, qOk, leafs⟩ := ih (pOk.slots n) taken
      have agree : AgreeOff n p (setAry p n (.layer q)) := agreeOff_setAry p n _ p.count
      have slot : (setAry p n (.layer q)).ary n = .layer q := update_self ..
      refine ⟨setAry p n (.layer q), ?_, slotOk_layer.mpr ⟨pOk.change agree ?_ ?_, full⟩, agree.leaf_put fun j => ?_⟩
      · simp only [replaceDown, ← hn, run]
        rfl
      · rw [slot, used_layer, ((pOk.slots n).holding taken).used]
        rfl
      · rw [slot]
        exact qOk
      · rw [slot, leafAt_layer, leafs j]

theorem Focused.fill {layers id : Nat} {p : IdrLayer B α} {pa : List (Frame B α)}
    (foc : Focused PtrLeaf layers id 0 p pa) (ptr : Option α)
    (bit : p.bitmap (digit B 0 id) = false) :
    LayerOk PtrLeaf (layers - 1) (idrMarkFull id 0
        { setAry p (digit B 0 id) (.ofPtr ptr) with count := p.count + 1 } pa) ∧
      ∀ j, leaf j (layers - 1) (idrMarkFull id 0
          { setAry p (digit B 0 id) (.ofPtr ptr) with count := p.count + 1 } pa) =
        if j % 2 ^ (layers * B) = id % 2 ^ (layers * B) then (.ofPtr ptr, true)
        else leaf j (layers - 1) (climb p pa) := by
  set n := digit B 0 id
  set p' : IdrLayer B α := { setAry p n (.ofPtr ptr) with count := p.count + 1 }
  have old : p.ary n = .null := by
    have := foc.layerOk.slots n
    rw [bit] at this
    exact PtrLeaf.null_of_free this
  have agree : AgreeOff n p (setBit p' n) :=
    ⟨rfl, fun x hx => update_of_ne hx .., fun x hx => update_of_ne hx ..⟩
  have ary' : (setBit p' n).ary n = .ofPtr ptr := update_self ..
  have bit' : (setBit p' n).bitmap n = true := update_self ..
  have pOk : LayerOk PtrLeaf 0 (setBit p' n) := by
    refine foc.layerOk.change agree ?_ ?_
    · rw [old, bit, bit']
      rfl
    · rw [ary', bit']
      exact PtrLeaf.ofPtr ptr
  obtain ⟨topOk, marked⟩ := idrMarkFull_spec foc (isFull_eq_false bit) pOk
  refine ⟨topOk, fun j => (marked j).trans ?_⟩
  rw [foc.leaf_put agree.leaf_put_zero, ary', bit']

end Leaf

/-- The map from the ids in use to their pointers, which may be `NULL`. -/
abbrev Map (α : Type) := Nat → Option (Option α)

structure Refines (arch : Arch) (idp : Handle arch.idrBits α) (M : Map α) : Prop where
  ok : HandleOk PtrLeaf idp
  leafOf_eq : ∀ j, idp.leafOf j = entry (M j)

section Operations

variable {arch : Arch} {idp : Handle arch.idrBits α} {M : Map α}

theorem Refines.empty : Refines arch (idrInit : Handle arch.idrBits α) fun _ => none where
  ok := ⟨(fun _ hp => nomatch hp), fun _ hq => nomatch hq⟩
  leafOf_eq _ := rfl

theorem idrPreGet_spec {LeafOk : Slot arch.idrBits α → Bool → Prop} (budget : Nat)
    (ok : HandleOk LeafOk idp) : HandleOk LeafOk (idrPreGet arch budget idp).1 ∧
      ∀ j, (idrPreGet arch budget idp).1.leafOf j = idp.leafOf j := by
  induction budget generalizing idp with
  | zero => exact ⟨ok, fun _ => rfl⟩
  | succ budget ih =>
    rw [idrPreGet]
    split_ifs
    · have more : HandleOk LeafOk { idp with idFree := zeroed :: idp.idFree } := by
        refine ⟨ok.top, fun q hq => ?_⟩
        rcases List.mem_cons.mp hq with rfl | hq
        · exact ⟨fun _ => rfl, fun _ => rfl, rfl⟩
        · exact ok.free q hq
      exact ih more
    · exact ⟨ok, fun _ => rfl⟩

section

variable (ref : Refines arch idp M)
include ref

theorem Refines.taken_iff (j : Nat) : (idp.leafOf j).2 = (M j).isSome := by
  rw [ref.leafOf_eq j]
  cases M j <;> rfl

theorem Refines.low {j : Nat} (hj : M j ≠ none) :
    ∃ p, idp.top = some p ∧ j < 2 ^ (idp.layers * arch.idrBits) := by
  refine Handle.low_of_taken ?_
  rw [ref.taken_iff, Option.isSome_iff_ne_none]
  exact hj

theorem Refines.lt_maxIdBit {j : Nat} (hj : M j ≠ none) : j < maxIdBit := by
  obtain ⟨p, top, low⟩ := ref.low hj
  have := Arch.pow_layers_le (ref.ok.top p top).2.1
  unfold maxIdBit
  omega

theorem idrGetNewAbove_spec (ptr : Option α) {start : Nat}
    (room : ∃ j, start ≤ j ∧ j < 2 ^ ((arch.maxLevel - 1) * arch.idrBits) ∧ M j = none) :
    ∃ idp' ret, idrGetNewAbove arch idp ptr start = some (idp', ret) ∧ ((ret = .eagain ∧ Refines arch idp' M) ∨
        ∃ i, ret = .ok i ∧ start ≤ i ∧ M i = none ∧ (∀ j, start ≤ j → j < i → M j ≠ none) ∧
          Refines arch idp' (update M i (some ptr))) := by
  have room' : ∃ j, start ≤ j ∧ j < 2 ^ 30 ∧ (idp.leafOf j).2 = false := by
    obtain ⟨j, hj, lt, free⟩ := room
    rw [arch.layers_bits] at lt
    exact ⟨j, hj, lt, by rw [ref.taken_iff, free]; rfl⟩
  obtain ⟨r, run, post⟩ := idrGetEmptySlot_spec ptrLeaves ref.ok room'
  cases r with
  | fail idp' ret =>
    obtain ⟨rfl, ok, same⟩ := post
    refine ⟨idp', .eagain, by rw [idrGetNewAbove, run]; rfl, .inl ⟨rfl, ok, fun j => ?_⟩⟩
    rw [same j, ref.leafOf_eq j]
  | slot layers c =>
    obtain ⟨le, slot, low, leafs, ge, vacant, taken⟩ := post
    obtain ⟨topOk, put⟩ := slot.focused.fill ptr slot.bit
    set p : IdrLayer arch.idrBits α :=
      { setAry c.p (digit arch.idrBits 0 c.id) (.ofPtr ptr) with count := c.p.count + 1 }
    refine ⟨⟨some (idrMarkFull c.id 0 p c.pa), layers, c.idFree⟩, .ok c.id, ?_,
      .inr ⟨c.id, rfl, ge, ?_, fun j hj lt => ?_,
      handleOk_some slot.focused.lt le topOk slot.free, fun j => ?_⟩⟩
    · rw [idrGetNewAbove, run]
      rfl
    · rw [ref.taken_iff] at vacant
      simpa using vacant
    · have := taken j hj lt
      rw [ref.taken_iff] at this
      exact Option.isSome_iff_ne_none.mp this
    · change topLeaf layers (idrMarkFull c.id 0 p c.pa) j = _
      rw [topLeaf_put low put, update_apply, update_apply]
      split_ifs
      · rfl
      · exact (leafs j).trans (ref.leafOf_eq j)

theorem idrRemove_refines {id : Nat} (hid : M id ≠ none) :
    Refines arch (idrRemove arch idp id) (update M id none) := by
  obtain ⟨p, top, low⟩ := ref.low hid
  obtain ⟨pos, le, pOk⟩ := ref.ok.top p top
  have taken : (leafAt id (idp.layers - 1 + 1) (.layer p) (isFull p)).2 = true := by
    have := ref.taken_iff id
    rw [Idr.leafOf_eq top, topLeaf, if_pos low, Option.isSome_iff_ne_none.mpr hid] at this
    exact this
  have hold := (slotOk_layer.mpr ⟨pOk, rfl⟩).holding taken
  obtain ⟨ok, leafs⟩ := idrRemove_spec ptrLeaves top pos le ref.ok.free hold low
  refine ⟨ok, fun j => ?_⟩
  rw [leafs, update_apply, update_apply, ref.leafOf_eq j]
  split_ifs <;> rfl

theorem idrFind_eq (id : Nat) : idrFind idp id = some (M (id % maxIdBit)).join := by
  unfold idrFind
  cases top : idp.top with
  | none =>
    have free := ref.leafOf_eq (id % maxIdBit)
    rw [Handle.leafOf, top] at free
    rw [← entry_toPtr, ← free]
    rfl
  | some p =>
    obtain ⟨pos, -, pOk⟩ := ref.ok.top p top
    have layers : p.layer + 1 = idp.layers := by
      rw [pOk.layer]
      omega
    have value := ref.leafOf_eq (id % maxIdBit)
    rw [Idr.leafOf_eq top, topLeaf] at value
    rw [← entry_toPtr, ← value]
    simp only [layers]
    by_cases high : 2 ^ (idp.layers * arch.idrBits) ≤ id % maxIdBit
    · rw [if_pos high, if_neg (Nat.not_lt.mpr high)]
      rfl
    rw [if_neg high, if_pos (Nat.lt_of_not_le high)]
    have found := findDown_eq (id % maxIdBit) (slotOk_layer.mpr ⟨pOk, rfl⟩)
    rw [Nat.sub_add_cancel pos] at found
    rw [found]
    obtain ⟨h, hh⟩ : ∃ h, idp.layers = h + 1 := ⟨idp.layers - 1, by omega⟩
    rw [hh]
    rfl

theorem idrReplace_refines (ptr : Option α) (id : Nat) :
    Refines arch (idrReplace idp ptr id).1
        (if M (id % maxIdBit) = none then M else update M (id % maxIdBit) (some ptr)) ∧
      ∀ old, M (id % maxIdBit) = some old → (idrReplace idp ptr id).2 = .old old := by
  set i := id % maxIdBit
  unfold idrReplace
  cases top : idp.top with
  | none =>
    have free : M i = none := by
      by_contra taken
      obtain ⟨p, some_top, -⟩ := ref.low taken
      rw [top] at some_top
      cases some_top
    rw [free]
    exact ⟨ref, fun _ h => nomatch h⟩
  | some p =>
    obtain ⟨pos, le, pOk⟩ := ref.ok.top p top
    obtain ⟨h, hh⟩ : ∃ h, idp.layers = h + 1 := ⟨idp.layers - 1, by omega⟩
    rw [hh] at pOk le
    have layers : p.layer = h := pOk.layer
    have slotOk : SlotOk PtrLeaf (h + 1) (.layer p) (isFull p) := slotOk_layer.mpr ⟨pOk, rfl⟩
    simp only [layers]
    by_cases high : 2 ^ ((h + 1) * arch.idrBits) ≤ i
    · have free : M i = none := by
        by_contra taken
        obtain ⟨-, -, low⟩ := ref.low taken
        rw [hh] at low
        omega
      rw [if_pos high, free]
      exact ⟨ref, fun _ h => nomatch h⟩
    have low : i < 2 ^ ((h + 1) * arch.idrBits) := Nat.lt_of_not_le high
    have value : leafAt i (h + 1) (.layer p) (isFull p) = entry (M i) := by
      rw [← ref.leafOf_eq i, Idr.leafOf_eq top, hh, topLeaf, if_pos low]
      rfl
    rw [if_neg high]
    cases hv : M i with
    | none =>
      have free : (leafAt i (h + 1) (.layer p) (isFull p)).2 = false := by
        rw [value, hv]
        rfl
      rw [replaceDown_free ptr free]
      refine ⟨?_, fun _ h => nomatch h⟩
      have same : ({ idp with top := some p } : Handle arch.idrBits α) = idp := by
        rw [← top]
      exact same ▸ ref
    | some old =>
      have taken : (leafAt i (h + 1) (.layer p) (isFull p)).2 = true := by
        rw [value, hv]
        rfl
      obtain ⟨p', run, pOk', leafs⟩ := replaceDown_taken ptr slotOk taken
      rw [run, if_neg (by simp), value, hv]
      rw [hh]
      refine ⟨⟨handleOk_some (Nat.succ_pos h) le (slotOk_layer.mp pOk').1 ref.ok.free, fun j => ?_⟩, ?_⟩
      · change topLeaf (h + 1) p' j = _
        rw [topLeaf_put (p := p) low leafs, update_apply, update_apply]
        split_ifs
        · rfl
        · rw [← ref.leafOf_eq j, Idr.leafOf_eq top, hh]
      · intro old' h
        cases h
        simp [entry]

end

end Operations

/-- The layers on the path of an id, from the top down. -/
def pathLayers {B : Nat} (i : Nat) : Nat → Slot B α → List (IdrLayer B α)
  | h + 1, .layer p => p :: pathLayers i h (p.ary (digit B h i))
  | _, _ => []

theorem mem_pathLayers {B : Nat} {LeafOk : Slot B α → Bool → Prop} {i h : Nat} {e : Slot B α}
    {b : Bool} (ok : SlotOk LeafOk h e b) {p : IdrLayer B α} (hp : p ∈ pathLayers i h e) :
    p.layer < h ∧ (p.bitmap (digit B p.layer i) = true ↔
      ∀ j, j / 2 ^ (p.layer * B) = i / 2 ^ (p.layer * B) → (leafAt j h e b).2 = true) := by
  induction h generalizing e b with
  | zero => cases hp
  | succ h ih =>
    obtain ⟨rfl, -⟩ | ⟨q, rfl, qOk, -⟩ := ok.cases
    · cases hp
    · -- ids that begin like `i` take the same way down
      have way : ∀ j, j / 2 ^ (h * B) = i / 2 ^ (h * B) →
          leafAt j (h + 1) (.layer q) b =
            leafAt j h (q.ary (digit B h i)) (q.bitmap (digit B h i)) := by
        intro j hj
        rw [leafAt_layer, leaf, ((div_eq_iff B h j i).mp hj).2]
      rcases List.mem_cons.mp hp with rfl | hp
      · rw [qOk.layer, (qOk.slots _).full_iff]
        refine ⟨Nat.lt_succ_self h, ?_, ?_⟩
        · intro all j hj
          rw [way j hj]
          exact all j
        · intro all j
          have pos := Nat.two_pow_pos (h * B)
          have low : j % 2 ^ (h * B) < 2 ^ (h * B) := Nat.mod_lt _ pos
          have high : (i / 2 ^ (h * B) * 2 ^ (h * B) + j % 2 ^ (h * B)) / 2 ^ (h * B) =
              i / 2 ^ (h * B) := by
            rw [Nat.add_comm, Nat.add_mul_div_right _ _ pos, Nat.div_eq_of_lt low, Nat.zero_add]
          have := all _ high
          rw [way _ high] at this
          rw [← this]
          exact congrArg Prod.snd (leafAt_congr (by simp) _ _)
      · obtain ⟨level, full⟩ := ih (qOk.slots _) hp
        refine ⟨Nat.lt_succ_of_lt level, full.trans (forall_congr' fun j => imp_congr_right fun hj => ?_)⟩
        rw [way j (div_eq_of_div_eq level.le hj)]

structure State (arch : Arch) (α : Type) where
  idp : Handle arch.idrBits α
  map : Map α

def Init (arch : Arch) (s : State arch α) : Prop := s = ⟨idrInit, fun _ => none⟩

/-- Some id that the layers can hold is free, from the starting id on. -/
def Room (arch : Arch) (M : Map α) (start : Nat) : Prop :=
  ∃ j, start ≤ j ∧ j < 2 ^ ((arch.maxLevel - 1) * arch.idrBits) ∧ M j = none

/-- The calls. Layers may be missing at every one of them. -/
inductive Step (arch : Arch) : State arch α → State arch α → Prop
  | preGet {s : State arch α} {budget : Nat} :
      Step arch s ⟨(idrPreGet arch budget s.idp).1, s.map⟩
  | getNewAbove {s : State arch α} {ptr : Option α} {start : Nat} {idp : Handle arch.idrBits α}
      {ret : Ret} (room : Room arch s.map start)
      (run : idrGetNewAbove arch s.idp ptr start = some (idp, ret)) :
      Step arch s ⟨idp, match ret with
        | .ok i => update s.map i (some ptr)
        | _ => s.map⟩
  | remove {s : State arch α} {id : Nat} (allocated : s.map id ≠ none) :
      Step arch s ⟨idrRemove arch s.idp id, update s.map id none⟩
  | replace {s : State arch α} {ptr : Option α} {id : Nat} :
      Step arch s ⟨(idrReplace s.idp ptr id).1, if s.map (id % maxIdBit) = none then s.map
        else update s.map (id % maxIdBit) (some ptr)⟩

section Runs

variable {arch : Arch}

theorem Refines.step {s s' : State arch α} (ref : Refines arch s.idp s.map) (st : Step arch s s') :
    Refines arch s'.idp s'.map := by
  cases st with
  | @preGet budget =>
    obtain ⟨ok, same⟩ := idrPreGet_spec budget ref.ok
    exact ⟨ok, fun j => (same j).trans (ref.leafOf_eq j)⟩
  | @getNewAbove ptr start idp ret room run =>
    obtain ⟨idp', ret', run', result⟩ := idrGetNewAbove_spec ref ptr room
    obtain ⟨rfl, rfl⟩ : idp' = idp ∧ ret' = ret := by simpa [run] using run'.symm
    rcases result with ⟨rfl, ref'⟩ | ⟨i, rfl, -, -, -, ref'⟩
    all_goals exact ref'
  | remove allocated => exact idrRemove_refines ref allocated
  | @replace ptr id => exact (idrReplace_refines ref ptr id).1

theorem Refines.of_reachable {s : State arch α}
    (h : Transition.Reachable (Init arch) (Step arch) s) : Refines arch s.idp s.map := by
  refine h.invariant (fun s => Refines arch s.idp s.map) ?_ ?_
  · rintro _ rfl
    exact Refines.empty
  · intro s t ref st
    exact ref.step st

/-- In every state reached by calls of which each allocation still had a free id below the height of
the tree, the idr holds exactly the map: allocation takes the least free id or fails for lack of
layers, lookup finds every pointer and nothing else, replacement returns the old pointer, and every
bit on the path of an id says whether all ids below it are taken. -/
theorem idr_refines_map {s : State arch α} (h : Transition.Reachable (Init arch) (Step arch) s) :
    (∀ ptr start, Room arch s.map start → ∃ idp ret, idrGetNewAbove arch s.idp ptr start = some (idp, ret) ∧
      (ret = .eagain ∨ ∃ i, ret = .ok i ∧ start ≤ i ∧ s.map i = none ∧ ∀ j, start ≤ j → j < i → s.map j ≠ none)) ∧
    (∀ id, idrFind s.idp id = some (s.map (id % maxIdBit)).join) ∧ (∀ id, s.map id ≠ none → id % maxIdBit = id) ∧
    (∀ ptr id old, s.map (id % maxIdBit) = some old → (idrReplace s.idp ptr id).2 = .old old) ∧
    ∀ top, s.idp.top = some top → ∀ i, i < 2 ^ (s.idp.layers * arch.idrBits) →
      ∀ p ∈ pathLayers i s.idp.layers (.layer top), p.bitmap (digit arch.idrBits p.layer i) = true ↔
          ∀ j, j / 2 ^ (p.layer * arch.idrBits) = i / 2 ^ (p.layer * arch.idrBits) → s.map j ≠ none := by
  have ref : Refines arch s.idp s.map := Refines.of_reachable h
  refine ⟨fun ptr start room => ?_, idrFind_eq ref, fun id hid => ?_, fun ptr id => ?_, ?_⟩
  · obtain ⟨idp, ret, run, result⟩ := idrGetNewAbove_spec ref ptr room
    refine ⟨idp, ret, run, ?_⟩
    rcases result with ⟨eagain, -⟩ | ⟨i, ok, ge, free, taken, -⟩
    · exact .inl eagain
    · exact .inr ⟨i, ok, ge, free, taken⟩
  · exact Nat.mod_eq_of_lt (ref.lt_maxIdBit hid)
  · exact (idrReplace_refines ref ptr id).2
  · intro top htop i low p hp
    obtain ⟨pos, -, topOk⟩ := ref.ok.top top htop
    obtain ⟨l, layers⟩ : ∃ l, s.idp.layers = l + 1 := ⟨s.idp.layers - 1, by omega⟩
    rw [layers] at topOk low hp
    have slotOk : SlotOk PtrLeaf (l + 1) (.layer top) (isFull top) := slotOk_layer.mpr ⟨topOk, rfl⟩
    obtain ⟨level, full⟩ := mem_pathLayers slotOk hp
    refine full.trans (forall_congr' fun j => imp_congr_right fun hj => ?_)
    have zero : j / 2 ^ ((l + 1) * arch.idrBits) = 0 := by
      rw [div_eq_of_div_eq level.le hj, Nat.div_eq_of_lt low]
    have low_j : j < 2 ^ ((l + 1) * arch.idrBits) := by
      rcases Nat.div_eq_zero_iff.mp zero with zero | lt
      · exact absurd zero (Nat.two_pow_pos _).ne'
      · exact lt
    have value := ref.taken_iff j
    rw [Idr.leafOf_eq htop, layers, topLeaf, if_pos low_j] at value
    rw [leafAt_layer, ← Option.isSome_iff_ne_none, ← value]
    rfl

theorem reachable_preGet (arch : Arch) (α : Type) (budget : Nat) : Transition.Reachable (Init arch) (Step arch)
    (⟨(idrPreGet arch budget idrInit).1, fun _ => none⟩ : State arch α) :=
  .next (.start rfl) .preGet

theorem idr_refines_map_second : ∃ s : State .bits64 Nat, s.map 0 = some (some 7) ∧ s.map 1 = some none ∧
      idrFind s.idp 0 = some (some 7) ∧ idrFind s.idp 2 = some none := by
  have one := (reachable_preGet .bits64 Nat 3).next (@Step.getNewAbove _ _ _ (some 7) 0 _ _ ⟨0, by decide⟩ rfl)
  have two := one.next (@Step.getNewAbove _ _ _ none 0 _ _ ⟨1, by decide⟩ rfl)
  have found := (idr_refines_map two).2.1
  exact ⟨_, rfl, rfl, found 0, found 2⟩

/-- With the last id that five layers hold taken, the next allocation from there returns the id after
it. The tree does not grow for it: the pointer lands in the slot of id zero, where it is found under
an id that was never handed out, and not under its own. -/
theorem idr_get_new_above_wraps : ∃ idp₁ idp₂ : Handle (Arch.idrBits .bits64) Nat,
      idrGetNewAbove .bits64 (idrPreGet .bits64 12 idrInit).1 (some 1) (2 ^ 30 - 1) = some (idp₁, .ok (2 ^ 30 - 1)) ∧
      idrGetNewAbove .bits64 idp₁ (some 2) (2 ^ 30 - 1) = some (idp₂, .ok (2 ^ 30)) ∧
      idrFind idp₂ (2 ^ 30) = some none ∧ idrFind idp₂ 0 = some (some 2) :=
  ⟨_, _, rfl, rfl, rfl, rfl⟩

/-- As long as an id that the layers can hold is free, an allocation returns an id of the documented
range that was free, and lookup finds the pointer under it. -/
theorem idr_get_new_above_in_range {s : State arch α}
    (h : Transition.Reachable (Init arch) (Step arch) s) {ptr : Option α} {start : Nat}
    (room : Room arch s.map start) {idp : Handle arch.idrBits α} {i : Nat}
    (run : idrGetNewAbove arch s.idp ptr start = some (idp, .ok i)) :
    start ≤ i ∧ i ≤ 0x7fffffff ∧ s.map i = none ∧ idrFind idp i = some ptr := by
  obtain ⟨idp', ret, run', result⟩ := idrGetNewAbove_spec (Refines.of_reachable h) ptr room
  rw [run, Option.some.injEq, Prod.mk.injEq] at run'
  obtain ⟨rfl, rfl⟩ := run'
  rcases result with ⟨eagain, -⟩ | ⟨j, eq, ge, free, -, ref⟩
  · cases eagain
  cases eq
  have here : update s.map i (some ptr) i = some ptr := update_self ..
  have lt : i < maxIdBit := ref.lt_maxIdBit (by rw [here]; exact Option.some_ne_none _)
  refine ⟨ge, ?_, free, ?_⟩
  · unfold maxIdBit at lt
    omega
  · rw [idrFind_eq ref, Nat.mod_eq_of_lt lt, here]
    rfl

theorem idr_get_new_above_in_range_first : ∃ idp : Handle (Arch.idrBits .bits64) Nat,
      idrGetNewAbove .bits64 (idrPreGet .bits64 4 idrInit).1 (some 7) 100 = some (idp, .ok 100) ∧
        100 ≤ 0x7fffffff ∧ idrFind idp 100 = some (some 7) := by
  have zero := reachable_preGet .bits64 Nat 4
  obtain ⟨-, le, -, found⟩ :=
    @idr_get_new_above_in_range _ _ _ zero (some 7) 100 ⟨100, le_rfl, by decide, rfl⟩ _ _ rfl
  exact ⟨_, rfl, le, found⟩

/-- A fresh idr hands out the id `2 ^ 30`, which five layers cannot hold, and lookup does not find
the pointer under it. -/
theorem idr_get_new_above_loses : ∃ idp : Handle (Arch.idrBits .bits64) Nat,
      idrGetNewAbove .bits64 (idrPreGet .bits64 12 idrInit).1 (some 1) (2 ^ 30) = some (idp, .ok (2 ^ 30)) ∧
      idrFind idp (2 ^ 30) = some none :=
  ⟨_, rfl, rfl⟩

end Runs

end Idr
