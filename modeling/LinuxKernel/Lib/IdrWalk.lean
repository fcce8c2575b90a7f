/- The walks of lib/idr.c over the registered pointers: idr_for_each and idr_get_next. -/
import Mathlib.Data.Nat.Size
import LinuxKernel.Lib.IdrRefinement

namespace Idr

open Digits Bitmap List Handle

variable {α σ ρ : Type} {B : Nat}

/-- The variables of a walk: `n` is `h * IDR_BITS`, and `pa` has the layers pushed so far, the last
one first. -/
structure Walk (B : Nat) (α : Type) where
  id : Nat
  h : Nat
  p : Slot B α
  pa : List (IdrLayer B α)

/-- The loop `while (n > 0 && p)`. A user's pointer above the lowest layer would be read as a layer. -/
def walkDown (id : Nat) : Nat → Slot B α → List (IdrLayer B α) →
    Option (Nat × Slot B α × List (IdrLayer B α))
  | 0, e, pa => some (0, e, pa)
  | h + 1, .null, pa => some (h + 1, .null, pa)
  | h + 1, .layer p, pa => walkDown id h (p.ary (digit B h id)) (p :: pa)
  | _ + 1, .ptr _, _ => none

/-- The loop `while (n < fls(id))`; `Nat.size` is `fls`. It fails when it reads below `pa`. -/
def walkUp (id : Nat) : Nat → Slot B α → List (IdrLayer B α) →
    Option (Nat × Slot B α × List (IdrLayer B α))
  | h, e, [] => if h * B < Nat.size id then none else some (h, e, [])
  | h, e, p :: pa =>
    if h * B < Nat.size id then walkUp id (h + 1) (.layer p) pa else some (h, e, p :: pa)

/-- From `id += 1 << n` to the test of the outer loop. What was read from below `pa` is not used if
the walk is over. -/
def walkOn (max id h : Nat) (e : Slot B α) (pa : List (IdrLayer B α)) (s : σ) : (Walk B α × σ) ⊕ Option (ρ ⊕ σ) :=
  match walkUp id h e pa with
  | some (h, p, pa) => .inl (⟨id, h, p, pa⟩, s)
  | none => .inr (if max ≤ id then some (.inr s) else none)

/-- A round of the outer loop. The visit of a pointer ends the walk or goes on with a new state. -/
def walkStep (max : Nat) (visit : Nat → α → σ → ρ ⊕ σ) (w : Walk B α × σ) : (Walk B α × σ) ⊕ Option (ρ ⊕ σ) :=
  if max ≤ w.1.id then .inr (some (.inr w.2))
  else
    match walkDown w.1.id w.1.h w.1.p w.1.pa with
    | none => .inr none
    | some (h, e, pa) =>
      match e with
      | .ptr a =>
        match visit w.1.id a w.2 with
        | .inl r => .inr (some (.inl r))
        | .inr s => walkOn max (w.1.id + 2 ^ (h * B)) h e pa s
      | _ => walkOn max (w.1.id + 2 ^ (h * B)) h e pa w.2

/-- The walk from an id on; a round makes the id larger. -/
def walk (idp : Handle B α) (visit : Nat → α → σ → ρ ⊕ σ) (id : Nat) (s : σ) : Option (ρ ⊕ σ) :=
  let max := 2 ^ (idp.layers * B)
  (Loop.run (walkStep max visit) (max + 1) (⟨id, idp.layers, idp.topSlot, []⟩, s)).join

/-- `idr_for_each`. The callback changes what `data` points to. -/
def idrForEach (idp : Handle B α) (fn : Nat → α → σ → Int × σ) (data : σ) : Option (Int × σ) :=
  let visit (id : Nat) (p : α) (data : σ) : (Int × σ) ⊕ σ :=
    let (error, data) := fn id p data
    if error ≠ 0 then .inl (error, data) else .inr data
  (walk idp visit 0 data).map fun
    | .inl r => r
    | .inr data => (0, data)

/-- `idr_get_next`: the pointer, and the id that is stored in `*nextidp` with it. -/
def idrGetNext (idp : Handle B α) (nextid : Nat) : Option (Option (Nat × α)) :=
  match idp.top with
  | none => some none
  | some _ =>
    let visit (id : Nat) (p : α) (_ : Unit) : (Nat × α) ⊕ Unit := .inl (id, p)
    (walk idp visit nextid ()).map fun
      | .inl found => some found
      | .inr _ => none

/-- Whether an id is the first one of the absent subtree it lies in, if it lies in one. -/
def aligned (id : Nat) : Nat → Slot B α → Bool
  | h + 1, .null => decide (2 ^ ((h + 1) * B) ∣ id)
  | h + 1, .layer p => aligned id h (p.ary (digit B h id))
  | _, _ => true

variable {h : Nat}

theorem aligned_of_dvd {id : Nat} (dvd : 2 ^ (h * B) ∣ id) (e : Slot B α) : aligned id h e = true := by
  induction h generalizing e with
  | zero => cases e <;> rfl
  | succ h ih =>
    cases e with
    | null => exact decide_eq_true dvd
    | ptr a => rfl
    | layer p =>
      refine ih (dvd_trans ?_ dvd) _
      rw [two_pow_succ_mul]
      exact Nat.dvd_mul_right ..

variable {i : Nat}

theorem dvd_of_div_ne {x y : Nat} (pos : 0 < x) (xy : x ∣ y) (xi : x ∣ i) (ne : (i + x) / y ≠ i / y) : y ∣ i + x := by
  obtain ⟨m, rfl⟩ := xy
  obtain ⟨k, rfl⟩ := xi
  rw [← Nat.mul_succ, Nat.mul_div_mul_left _ _ pos, Nat.mul_div_mul_left _ _ pos, Nat.succ_div] at ne
  by_contra no
  rw [if_neg fun dvd => no (Nat.mul_dvd_mul_left x dvd)] at ne
  exact ne rfl

/-- Where a walk goes on after a round is the start of an absent subtree, if it lies in one: the
subtrees that the id before it lies in are present. -/
theorem aligned_next {id h' : Nat} {e e' : Slot B α} {pa pa' : List (IdrLayer B α)}
    (run : walkDown id h e pa = some (h', e', pa')) (dvd : 2 ^ (h' * B) ∣ id) : h' ≤ h ∧
      ((id + 2 ^ (h' * B)) / 2 ^ (h * B) = id / 2 ^ (h * B) → aligned (id + 2 ^ (h' * B)) h e = true) := by
  have pos := Nat.two_pow_pos (h' * B)
  induction h generalizing e pa with
  | zero =>
    cases run
    exact ⟨le_rfl, fun _ => by cases e' <;> rfl⟩
  | succ h ih =>
    cases e with
    | null =>
      cases run
      refine ⟨le_rfl, fun same => ?_⟩
      rw [Nat.add_div_right _ pos] at same
      omega
    | ptr a => cases run
    | layer p =>
      obtain ⟨le, next⟩ := ih run
      refine ⟨Nat.le_succ_of_le le, fun _ => ?_⟩
      rw [aligned]
      by_cases stay : (id + 2 ^ (h' * B)) / 2 ^ (h * B) = id / 2 ^ (h * B)
      · rw [((div_eq_iff B h _ _).mp stay).2]
        exact next stay
      · apply aligned_of_dvd
        refine dvd_of_div_ne pos ?_ dvd stay
        exact Nat.pow_dvd_pow 2 (Nat.mul_le_mul_right B le)

section Path

variable (layers : Nat) (top : Slot B α)

/-- The walk stands at level `h` on the path of an id, below the layers it has pushed. -/
def OnPath (id : Nat) : Nat → Slot B α → List (IdrLayer B α) → Prop
  | h, e, [] => h = layers ∧ e = top
  | h, e, q :: pa => e = q.ary (digit B h id) ∧ OnPath id (h + 1) (.layer q) pa

variable {layers top} {id h : Nat} {e : Slot B α} {pa : List (IdrLayer B α)}

section

variable (on : OnPath layers top id h e pa)
include on

theorem OnPath.congr {id' : Nat}
    (same : id' / 2 ^ (h * B) = id / 2 ^ (h * B)) : OnPath layers top id' h e pa := by
  induction pa generalizing h e with
  | nil => exact on
  | cons q pa ih =>
    obtain ⟨slot, rest⟩ := on
    obtain ⟨high, eq⟩ := (div_eq_iff B h id' id).mp same
    exact ⟨by rw [eq, slot], ih rest high⟩

/-- The way down from here is the one from the top. -/
theorem OnPath.from_top (ok : ∃ b, SlotOk PtrLeaf layers top b) : walkDown id layers top [] = walkDown id h e pa ∧
    aligned id layers top = aligned id h e ∧ ∃ b, SlotOk PtrLeaf h e b := by
  induction pa generalizing h e with
  | nil =>
    obtain ⟨rfl, rfl⟩ := on
    exact ⟨rfl, rfl, ok⟩
  | cons q pa ih =>
    obtain ⟨rfl, rest⟩ := on
    obtain ⟨down, start, b, qOk⟩ := ih rest
    exact ⟨down, start, _, (slotOk_layer.mp qOk).1.slots _⟩

end

theorem leafAt_fst (j h : Nat) (e : Slot B α) (b b' : Bool) : (leafAt j h e b).1 = (leafAt j h e b').1 := by
  cases h with
  | zero => rfl
  | succ h => cases e <;> rfl

theorem OnPath.leafAt (on : OnPath layers top id h e pa) {j : Nat} (same : j / 2 ^ (h * B) = id / 2 ^ (h * B)) :
    (leafAt j layers top false).1 = (leafAt j h e false).1 := by
  induction pa generalizing h e with
  | nil =>
    obtain ⟨rfl, rfl⟩ := on
    rfl
  | cons q pa ih =>
    obtain ⟨rfl, rest⟩ := on
    obtain ⟨high, eq⟩ := (div_eq_iff B h j id).mp same
    rw [ih rest high, leafAt_layer, leaf, eq]
    exact leafAt_fst ..

theorem walkDown_spec (on : OnPath layers top id h e pa) {b : Bool} (ok : SlotOk PtrLeaf h e b)
    (start : aligned id h e = true) :
    ∃ h' e' pa', walkDown id h e pa = some (h', e', pa') ∧ OnPath layers top id h' e' pa' ∧
      2 ^ (h' * B) ∣ id ∧ (e' = .null ∨ h' = 0 ∧ ∃ a, e' = .ptr a) := by
  induction h generalizing e pa b with
  | zero =>
    refine ⟨0, e, pa, rfl, on, by simp, ?_⟩
    cases e with
    | null => exact .inl rfl
    | ptr a => exact .inr ⟨rfl, a, rfl⟩
    | layer p => exact ok.elim
  | succ h ih =>
    cases e with
    | null => exact ⟨h + 1, .null, pa, rfl, on, of_decide_eq_true start, .inl rfl⟩
    | ptr a => exact ok.elim
    | layer p => exact ih ⟨rfl, on⟩ ((slotOk_layer.mp ok).1.slots _) start

theorem walkDown_of_pointer {e : Slot B α} {b : Bool} (ok : SlotOk PtrLeaf h e b) {a : α}
    (here : (Idr.leafAt i h e b).1.toPtr = some a) (pa : List (IdrLayer B α)) :
    ∃ pa', walkDown i h e pa = some (0, .ptr a, pa') := by
  induction h generalizing e b pa with
  | zero =>
    cases e with
    | null | layer p => cases here
    | ptr c =>
      obtain rfl : c = a := Option.some.inj here
      exact ⟨pa, rfl⟩
  | succ h ih =>
    cases e with
    | null => cases here
    | ptr c => exact ok.elim
    | layer p => exact ih ((slotOk_layer.mp ok).1.slots _) here (p :: pa)

/-- The way up ends on the path of the new id. It only leaves `pa` when the walk is over. -/
theorem walkUp_spec {id' : Nat} (on : OnPath layers top id h e pa) (le : id ≤ id') :
    (∃ h' e' pa', walkUp id' h e pa = some (h', e', pa') ∧ OnPath layers top id' h' e' pa') ∨
      walkUp id' h e pa = none ∧ 2 ^ (layers * B) ≤ id' := by
  induction pa generalizing h e with
  | nil =>
    obtain ⟨rfl, rfl⟩ := on
    rw [walkUp]
    by_cases up : h * B < Nat.size id'
    · rw [if_pos up]
      exact .inr ⟨rfl, Nat.lt_size.mp up⟩
    · rw [if_neg up]
      exact .inl ⟨h, e, [], rfl, rfl, rfl⟩
  | cons q pa ih =>
    rw [walkUp]
    by_cases up : h * B < Nat.size id'
    · rw [if_pos up]
      exact ih on.2
    · rw [if_neg up]
      have lt : id' < 2 ^ (h * B) := Nat.size_le.mp (Nat.le_of_not_lt up)
      refine .inl ⟨h, e, q :: pa, rfl, on.congr ?_⟩
      rw [Nat.div_eq_of_lt lt, Nat.div_eq_of_lt (lt_of_le_of_lt le lt)]

end Path

section Visits

variable {arch : Arch} {idp : Handle arch.idrBits α}

def Handle.pointer (idp : Handle arch.idrBits α) (j : Nat) : Option α := (idp.leafOf j).1.toPtr

/-- The ids from the given one on that have a pointer, with the pointers. -/
def registered (idp : Handle arch.idrBits α) (start : Nat) : List (Nat × α) :=
  (range' start (maxIdBit - start)).filterMap fun i => (idp.pointer i).map (Prod.mk i)

def visitAll (visit : Nat → α → σ → ρ ⊕ σ) : List (Nat × α) → σ → ρ ⊕ σ
  | [], s => .inr s
  | (id, p) :: rest, s =>
    match visit id p s with
    | .inl r => .inl r
    | .inr s => visitAll visit rest s

variable {id : Nat}

theorem Refines.pointer {M : Map α} (ref : Refines arch idp M) (j : Nat) : idp.pointer j = (M j).join := by
  rw [Handle.pointer, ref.leafOf_eq, entry_toPtr]

theorem HandleOk.pointer_high (ok : HandleOk PtrLeaf idp) {j : Nat}
    (high : maxIdBit ≤ j ∨ 2 ^ (idp.layers * arch.idrBits) ≤ j) : idp.pointer j = none := by
  unfold pointer
  cases top : idp.top with
  | none => simp only [leafOf, top]; rfl
  | some p =>
    have cap := Arch.pow_layers_le (ok.top p top).2.1
    unfold maxIdBit at high
    rw [leafOf_eq top, topLeaf, if_neg (by omega)]
    rfl

section

variable (ok : HandleOk PtrLeaf idp)
include ok

theorem HandleOk.registered_end (ge : 2 ^ (idp.layers * arch.idrBits) ≤ id) : registered idp id = [] := by
  refine filterMap_eq_nil_iff.mpr fun j hj => ?_
  rw [mem_range'_1] at hj
  rw [ok.pointer_high (.inr (ge.trans hj.1))]
  rfl

theorem HandleOk.registered_succ (id : Nat) :
    registered idp id = ((idp.pointer id).map (Prod.mk id)).toList ++ registered idp (id + 1) := by
  unfold registered
  rcases Nat.lt_or_ge id maxIdBit with lt | ge
  · obtain ⟨k, hk⟩ := Nat.exists_eq_add_of_lt lt
    rw [show maxIdBit - id = k + 1 by omega, show maxIdBit - (id + 1) = k by omega, range'_succ, filterMap_cons]
    cases idp.pointer id <;> rfl
  · rw [ok.pointer_high (.inl ge), Nat.sub_eq_zero_of_le ge, Nat.sub_eq_zero_of_le (Nat.le_succ_of_le ge)]
    rfl

theorem HandleOk.registered_skip (k : Nat) (absent : ∀ j, id ≤ j → j < id + k → idp.pointer j = none) :
    registered idp id = registered idp (id + k) := by
  induction k with
  | zero => rfl
  | succ k ih =>
    rw [ih fun j hj lt => absent j hj (by omega), ok.registered_succ, absent (id + k) (by omega) (by omega)]
    rfl

end

theorem HandleOk.topSlot (ok : HandleOk PtrLeaf idp) : ∃ b, SlotOk PtrLeaf idp.layers idp.topSlot b := by
  unfold Handle.topSlot
  cases top : idp.top with
  | none => exact ⟨false, ptrLeaves.slotOk_null _⟩
  | some p =>
    obtain ⟨pos, -, pOk⟩ := ok.top p top
    have slot : SlotOk PtrLeaf (idp.layers - 1 + 1) (.layer p) (isFull p) :=
      slotOk_layer.mpr ⟨pOk, rfl⟩
    rw [Nat.sub_add_cancel pos] at slot
    exact ⟨_, slot⟩

theorem HandleOk.pointer_eq (ok : HandleOk PtrLeaf idp) {j : Nat} (lt : j < 2 ^ (idp.layers * arch.idrBits)) :
    idp.pointer j = (leafAt j idp.layers idp.topSlot false).1.toPtr := by
  unfold pointer Handle.topSlot
  cases top : idp.top with
  | none =>
    simp [leafOf, top]
  | some p =>
    obtain ⟨pos, -, -⟩ := ok.top p top
    obtain ⟨h, layers⟩ : ∃ h, idp.layers = h + 1 := ⟨idp.layers - 1, by omega⟩
    rw [leafOf_eq top, topLeaf, if_pos lt, layers]
    rfl

variable {visit : Nat → α → σ → ρ ⊕ σ}

/-- What the walk still has to do comes to the given result. -/
structure Walking (idp : Handle arch.idrBits α) (visit : Nat → α → σ → ρ ⊕ σ) (result : ρ ⊕ σ)
    (w : Walk arch.idrBits α × σ) : Prop where
  onPath : OnPath idp.layers idp.topSlot w.1.id w.1.h w.1.p w.1.pa
  aligned : w.1.id < 2 ^ (idp.layers * arch.idrBits) →
    aligned w.1.id idp.layers idp.topSlot = true
  rest : visitAll visit (registered idp w.1.id) w.2 = result

variable {w : Walk arch.idrBits α × σ}

theorem Walking.walkOn (ok : HandleOk PtrLeaf idp) {result : ρ ⊕ σ} (walking : Walking idp visit result w)
    {e : Slot arch.idrBits α} {pa : List (IdrLayer arch.idrBits α)} (lt : w.1.id < 2 ^ (idp.layers * arch.idrBits))
    (down : walkDown w.1.id w.1.h w.1.p w.1.pa = some (h, e, pa)) (on : OnPath idp.layers idp.topSlot w.1.id h e pa)
    (dvd : 2 ^ (h * arch.idrBits) ∣ w.1.id) {s : σ}
    (rest : visitAll visit (registered idp (w.1.id + 2 ^ (h * arch.idrBits))) s = result) :
    (∃ w', walkOn (2 ^ (idp.layers * arch.idrBits)) (w.1.id + 2 ^ (h * arch.idrBits)) h e pa s =
        (.inl w' : _ ⊕ Option (ρ ⊕ σ)) ∧ w.1.id < 2 ^ (idp.layers * arch.idrBits) ∧ w.1.id < w'.1.id ∧
        Walking idp visit result w') ∨
      walkOn (2 ^ (idp.layers * arch.idrBits)) (w.1.id + 2 ^ (h * arch.idrBits)) h e pa s = .inr (some result) := by
  have pos := Nat.two_pow_pos (h * arch.idrBits)
  unfold Idr.walkOn
  rcases walkUp_spec on (Nat.le_add_right w.1.id (2 ^ (h * arch.idrBits))) with
    ⟨h', e', pa', up, on'⟩ | ⟨up, past⟩
  · rw [up]
    refine .inl ⟨_, rfl, lt, Nat.lt_add_of_pos_right pos, on', fun low => ?_, rest⟩
    refine (aligned_next ((walking.onPath.from_top ok.topSlot).1.trans down) dvd).2 ?_
    rw [Nat.div_eq_of_lt low, Nat.div_eq_of_lt lt]
  rw [ok.registered_end past] at rest
  rw [up, ← rest]
  right
  simp only [if_pos past]
  rfl

theorem walkStep_spec (ok : HandleOk PtrLeaf idp) {result : ρ ⊕ σ} (walking : Walking idp visit result w) :
    (∃ w', walkStep (2 ^ (idp.layers * arch.idrBits)) visit w = .inl w' ∧
        w.1.id < 2 ^ (idp.layers * arch.idrBits) ∧ w.1.id < w'.1.id ∧ Walking idp visit result w') ∨
      walkStep (2 ^ (idp.layers * arch.idrBits)) visit w = .inr (some result) := by
  unfold walkStep
  by_cases past : 2 ^ (idp.layers * arch.idrBits) ≤ w.1.id
  · right
    rw [if_pos past, ← walking.rest, ok.registered_end past]
    rfl
  rw [if_neg past]
  have lt : w.1.id < 2 ^ (idp.layers * arch.idrBits) := Nat.lt_of_not_le past
  obtain ⟨-, same, b, slotOk⟩ := walking.onPath.from_top ok.topSlot
  have start := walking.aligned lt
  rw [same] at start
  obtain ⟨h, e, pa, down, on, dvd, kind⟩ := walkDown_spec walking.onPath slotOk start
  rw [down]
  rcases kind with rfl | ⟨rfl, a, rfl⟩
  · -- an absent subtree has no pointers
    have absent : ∀ j, w.1.id ≤ j → j < w.1.id + 2 ^ (h * arch.idrBits) → idp.pointer j = none := by
      intro j ge lt'
      rcases Nat.lt_or_ge j (2 ^ (idp.layers * arch.idrBits)) with low | high
      · have same : j / 2 ^ (h * arch.idrBits) = w.1.id / 2 ^ (h * arch.idrBits) := by
          obtain ⟨k, hk⟩ := dvd
          rw [hk] at ge lt' ⊢
          rw [Nat.mul_div_cancel_left _ (Nat.two_pow_pos _)]
          exact Nat.div_eq_of_lt_le (by rwa [Nat.mul_comm]) (by rwa [Nat.add_mul, Nat.mul_comm, Nat.one_mul])
        rw [ok.pointer_eq low, on.leafAt same, leafAt_null]
        rfl
      · exact ok.pointer_high (.inr high)
    exact walking.walkOn ok lt down on dvd (by rw [← ok.registered_skip _ absent]; exact walking.rest)
  · have here : idp.pointer w.1.id = some a := by
      rw [ok.pointer_eq lt, on.leafAt rfl]
      rfl
    have rest : visitAll visit ((w.1.id, a) :: registered idp (w.1.id + 1)) w.2 = result := by
      rw [← walking.rest, ok.registered_succ w.1.id, here]
      rfl
    rw [visitAll] at rest
    simp only
    cases turn : visit w.1.id a w.2 with
    | inl r =>
      rw [turn] at rest
      exact .inr (by rw [← rest])
    | inr s =>
      rw [turn] at rest
      exact walking.walkOn ok lt down on dvd (by rw [Nat.zero_mul, Nat.pow_zero, ← rest])

/-- A walk from an id that does not lie inside an absent subtree visits the pointers from there on,
in the order of their ids. -/
theorem walk_spec (ok : HandleOk PtrLeaf idp) (s : σ)
    (start : id < 2 ^ (idp.layers * arch.idrBits) → aligned id idp.layers idp.topSlot = true) :
    walk idp visit id s = some (visitAll visit (registered idp id) s) := by
  set result := visitAll visit (registered idp id) s with hr
  obtain ⟨a, run, rfl⟩ := Loop.run_total (walkStep (2 ^ (idp.layers * arch.idrBits)) visit)
    (fun k w => Walking idp visit result w ∧ k = 2 ^ (idp.layers * arch.idrBits) - w.1.id)
    (fun a => a = some result) (by
      rintro k w ⟨walking, rfl⟩
      rcases walkStep_spec ok walking with ⟨w', run, lt, less, walking'⟩ | run
      · exact .inl ⟨_, w', run, by omega, walking', rfl⟩
      · exact .inr ⟨_, run, rfl⟩)
    (s := (⟨id, idp.layers, idp.topSlot, []⟩, s)) ⟨⟨⟨rfl, rfl⟩, start, hr.symm⟩, rfl⟩
    (Nat.lt_succ_of_le (Nat.sub_le ..))
  rw [walk, run]
  rfl

end Visits

section Callers

variable {arch : Arch} {idp : Handle arch.idrBits α}

/-- The calls of `fn` for some pointers, up to the first that returns an error. -/
def callEach (fn : Nat → α → σ → Int × σ) : List (Nat × α) → σ → Int × σ
  | [], data => (0, data)
  | (id, p) :: rest, data =>
    let (error, data) := fn id p data
    if error ≠ 0 then (error, data) else callEach fn rest data

/-- Calls of `idr_get_next`, each from the id after the last one found. -/
def getNextAll (idp : Handle arch.idrBits α) : Nat → Nat → List (Nat × α)
  | 0, _ => []
  | bound + 1, nextid =>
    match idrGetNext idp nextid with
    | some (some (id, p)) => (id, p) :: getNextAll idp bound (id + 1)
    | _ => []

/-- The starting id does not lie inside an absent subtree. -/
def Handle.fits (idp : Handle arch.idrBits α) (start : Nat) : Bool :=
  decide (2 ^ (idp.layers * arch.idrBits) ≤ start) || aligned start idp.layers idp.topSlot

variable {start : Nat}

theorem mem_registered {a : α} :
    (i, a) ∈ registered idp start ↔ start ≤ i ∧ i < maxIdBit ∧ idp.pointer i = some a := by
  simp only [registered, mem_filterMap, mem_range'_1, Option.map_eq_some_iff, Prod.mk.injEq]
  constructor
  · rintro ⟨j, range, b, here, rfl, rfl⟩
    exact ⟨range.1, by omega, here⟩
  · rintro ⟨ge, lt, here⟩
    exact ⟨i, by omega, a, here, rfl, rfl⟩

theorem Refines.mem_registered {M : Map α} (ref : Refines arch idp M) {a : α} :
    (i, a) ∈ registered idp start ↔ start ≤ i ∧ M i = some (some a) := by
  rw [Idr.mem_registered, ref.pointer, Option.join_eq_some_iff]
  exact ⟨fun h => ⟨h.1, h.2.2⟩, fun h => ⟨h.1, ref.lt_maxIdBit (by simp [h.2]), h.2⟩⟩

theorem registered_ascending (start : Nat) : (registered idp start).Pairwise fun x y => x.1 < y.1 := by
  refine pairwise_filterMap.mpr (List.Pairwise.imp ?_ (pairwise_lt_range' ..))
  intro i j lt x hx y hy
  obtain ⟨_, -, rfl⟩ := Option.map_eq_some_iff.mp hx
  obtain ⟨_, -, rfl⟩ := Option.map_eq_some_iff.mp hy
  exact lt

theorem HandleOk.idrForEach_eq (ok : HandleOk PtrLeaf idp) (fn : Nat → α → σ → Int × σ) (data : σ) :
    idrForEach idp fn data = some (callEach fn (registered idp 0) data) := by
  have start : aligned 0 idp.layers idp.topSlot = true := aligned_of_dvd (Nat.dvd_zero _) _
  rw [idrForEach]
  simp only
  rw [walk_spec ok data fun _ => start]
  generalize registered idp 0 = objects
  simp only [Option.map_some, Option.some.injEq]
  -- the visits of the walk are the calls
  induction objects generalizing data with
  | nil => rfl
  | cons x rest ih =>
    obtain ⟨id, p⟩ := x
    by_cases error : (fn id p data).1 = 0
    · simpa only [visitAll, callEach, error, ne_eq, not_true, if_false] using ih (fn id p data).2
    · simp only [visitAll, callEach, error, ne_eq, not_false_eq_true, if_true]

/-- In every run whose allocations have an id in reach, `idr_for_each` calls `fn` once for each id with a pointer,
with that pointer and in ascending order; it stops at the first result that is not zero and returns it. -/
theorem idr_for_each_calls_all {s : State arch α} (h : Transition.Reachable (Init arch) (Step arch) s)
    (fn : Nat → α → σ → Int × σ) (data : σ) : ∃ objects : List (Nat × α),
      idrForEach s.idp fn data = some (callEach fn objects data) ∧ (objects.Pairwise fun x y => x.1 < y.1) ∧
      ∀ i a, (i, a) ∈ objects ↔ s.map i = some (some a) := by
  have ref := Refines.of_reachable h
  refine ⟨registered s.idp 0, ref.ok.idrForEach_eq fn data, registered_ascending 0, fun i a => ?_⟩
  rw [ref.mem_registered]
  simp only [Nat.zero_le, true_and]

/-- The ids 0, 1 and 64, of which 1 has no pointer. -/
theorem idr_for_each_calls_all_three : ∃ s : State .bits64 Nat, s.map 1 = some none ∧
    (∃ objects : List (Nat × Nat), (∀ i a, (i, a) ∈ objects ↔ s.map i = some (some a)) ∧
      idrForEach s.idp (fun id p ids => (0, ids ++ [(id, p)])) [] =
        some (callEach (fun id p ids => (0, ids ++ [(id, p)])) objects [])) ∧
    idrForEach s.idp (fun id p ids => (0, ids ++ [(id, p)])) [] = some (0, [(0, 7), (64, 8)]) := by
  have one := (reachable_preGet .bits64 Nat 4).next (@Step.getNewAbove _ _ _ (some 7) 0 _ _ ⟨0, by decide⟩ rfl)
  have two := one.next (@Step.getNewAbove _ _ _ none 0 _ _ ⟨1, by decide⟩ rfl)
  have three := two.next (@Step.getNewAbove _ _ _ (some 8) 64 _ _ ⟨64, by decide⟩ rfl)
  obtain ⟨objects, run, -, all⟩ := idr_for_each_calls_all three (fun id p ids => (0, ids ++ [(id, p)])) []
  exact ⟨_, rfl, ⟨objects, all, run⟩, rfl⟩

/-- The id that is handed out is 2^30, and `fn` is called with 0. -/
theorem idr_for_each_calls_other_id : ∃ idp : Handle (Arch.idrBits .bits64) Nat,
    idrGetNewAbove .bits64 (idrPreGet .bits64 12 idrInit).1 (some 7) (2 ^ 30) = some (idp, .ok (2 ^ 30)) ∧
      idrForEach idp (fun id p ids => (0, ids ++ [(id, p)])) [] = some (0, [(0, 7)]) :=
  ⟨_, rfl, by decide +kernel⟩

section

variable (ok : HandleOk PtrLeaf idp)
include ok

theorem HandleOk.idrGetNext_eq
    (fits : idp.fits start = true) : idrGetNext idp start = some (registered idp start).head? := by
  unfold idrGetNext
  cases top : idp.top with
  | none => simp [registered, pointer, leafOf, top, Slot.toPtr]
  | some p =>
    simp only
    rw [walk_spec ok () fun lt => ?_]
    · cases registered idp start <;> rfl
    · simpa [Handle.fits, Nat.not_le.mpr lt] using fits

theorem HandleOk.fits_succ {a : α}
    (here : idp.pointer i = some a) : idp.fits (i + 1) = true := by
  have low : i < 2 ^ (idp.layers * arch.idrBits) := by
    by_contra high
    rw [ok.pointer_high (.inr (Nat.le_of_not_lt high))] at here
    cases here
  unfold Handle.fits
  by_cases past : 2 ^ (idp.layers * arch.idrBits) ≤ i + 1
  · rw [decide_eq_true past]
    rfl
  rw [decide_eq_false past]
  obtain ⟨b, slotOk⟩ := ok.topSlot
  obtain ⟨pa, down⟩ := walkDown_of_pointer slotOk
    ((congrArg Slot.toPtr (leafAt_fst ..)).trans ((ok.pointer_eq low).symm.trans here)) []
  have := (aligned_next down (by simp)).2 (by
    rw [Nat.zero_mul, Nat.div_eq_of_lt low, Nat.div_eq_of_lt (by omega)])
  simpa using this

theorem HandleOk.registered_cons {a : α}
    {rest : List (Nat × α)} (first : registered idp start = (i, a) :: rest) :
    start ≤ i ∧ i < maxIdBit ∧ idp.pointer i = some a ∧
      (∀ j, start ≤ j → j < i → idp.pointer j = none) ∧ rest = registered idp (i + 1) := by
  obtain ⟨ge, lt, here⟩ := mem_registered.mp (first ▸ mem_cons_self)
  have before : ∀ j, start ≤ j → j < i → idp.pointer j = none := by
    intro j hj less
    cases value : idp.pointer j with
    | none => rfl
    | some b =>
      have mem : (j, b) ∈ registered idp start := mem_registered.mpr ⟨hj, by omega, value⟩
      have order : (registered idp start).Pairwise fun x y => x.1 < y.1 :=
        registered_ascending start
      rw [first] at mem order
      rcases mem_cons.mp mem with eq | mem
      · cases eq
        omega
      · have := rel_of_pairwise_cons order mem
        omega
  refine ⟨ge, lt, here, before, ?_⟩
  obtain ⟨k, rfl⟩ := Nat.exists_eq_add_of_le ge
  rw [ok.registered_skip k before, ok.registered_succ, here] at first
  exact (cons.inj first).2.symm

theorem HandleOk.getNextAll_eq {bound : Nat}
    (fits : idp.fits start = true) (enough : (registered idp start).length ≤ bound) :
    getNextAll idp bound start = registered idp start := by
  induction bound generalizing start with
  | zero => exact (eq_nil_of_length_eq_zero (Nat.le_zero.mp enough)).symm
  | succ bound ih =>
    rw [getNextAll, ok.idrGetNext_eq fits]
    cases first : registered idp start with
    | nil => rfl
    | cons x rest =>
      obtain ⟨i, a⟩ := x
      obtain ⟨-, -, here, -, rfl⟩ := ok.registered_cons first
      rw [first] at enough
      exact congrArg ((i, a) :: ·) (ih (ok.fits_succ here) (Nat.le_of_succ_le_succ enough))

end

/-- In every run whose allocations have an id in reach, `idr_get_next` finds the least id with a pointer from an id
on that does not lie inside an absent subtree, and `NULL` only if there is none. Repeated from the id after the one
it found, it finds all of them in ascending order; zero is such an id. -/
theorem idr_get_next_finds_least {s : State arch α} (h : Transition.Reachable (Init arch) (Step arch) s) {start : Nat}
    (fits : s.idp.fits start = true) :
    (∃ r, idrGetNext s.idp start = some r ∧
      (∀ i a, r = some (i, a) → start ≤ i ∧ s.map i = some (some a) ∧
        ∀ j, start ≤ j → j < i → (s.map j).join = none) ∧
      (r = none ↔ ∀ j, start ≤ j → (s.map j).join = none)) ∧
    ((getNextAll s.idp maxIdBit start).Pairwise fun x y => x.1 < y.1) ∧
    (∀ i a, (i, a) ∈ getNextAll s.idp maxIdBit start ↔ start ≤ i ∧ s.map i = some (some a)) ∧
    s.idp.fits 0 = true := by
  have ref := Refines.of_reachable h
  have all : getNextAll s.idp maxIdBit start = registered s.idp start := by
    refine ref.ok.getNextAll_eq fits ((length_filterMap_le ..).trans ?_)
    rw [length_range']
    exact Nat.sub_le ..
  rw [all]
  refine ⟨⟨_, ref.ok.idrGetNext_eq fits, fun i a found => ?_, ?_⟩, registered_ascending start,
    fun i a => ref.mem_registered, ?_⟩
  · obtain ⟨rest, first⟩ := head?_eq_some_iff.mp found
    obtain ⟨ge, here⟩ := ref.mem_registered.mp (first ▸ mem_cons_self)
    obtain ⟨-, -, -, before, -⟩ := ref.ok.registered_cons first
    exact ⟨ge, here, fun j hj less => by rw [← ref.pointer, before j hj less]⟩
  · rw [head?_eq_none_iff, eq_nil_iff_forall_not_mem]
    constructor
    · intro none_left j hj
      refine Option.eq_none_iff_forall_ne_some.mpr fun a here => none_left (j, a) ?_
      exact ref.mem_registered.mpr ⟨hj, Option.join_eq_some_iff.mp here⟩
    · rintro absent ⟨j, a⟩ mem
      obtain ⟨hj, here⟩ := ref.mem_registered.mp mem
      simpa [here] using absent j hj
  · rw [Handle.fits, aligned_of_dvd (Nat.dvd_zero _), Bool.or_true]

/-- The id 128 is the only one, and the search starts in the absent subtree below it, at its
beginning. -/
theorem idr_get_next_finds_least_first : ∃ s : State .bits64 Nat, s.idp.fits 64 = true ∧
      idrGetNext s.idp 64 = some (some (128, 7)) ∧
      ∀ i a, (i, a) ∈ getNextAll s.idp maxIdBit 64 ↔ 64 ≤ i ∧ s.map i = some (some a) := by
  have one := (reachable_preGet .bits64 Nat 4).next (@Step.getNewAbove _ _ _ (some 7) 128 _ _ ⟨128, by decide⟩ rfl)
  exact ⟨_, rfl, rfl, (@idr_get_next_finds_least _ _ _ one 64 rfl).2.2.1⟩

/-- With 128 the only id in use, a search from one skips it: the width of the absent subtree is added
to an id that is not its beginning, over and over. -/
theorem idr_get_next_skips : ∃ s : State .bits64 Nat, Transition.Reachable (Init .bits64) (Step .bits64) s ∧
      s.map 128 = some (some 7) ∧ idrGetNext s.idp 1 = some none := by
  have one := (reachable_preGet .bits64 Nat 4).next (@Step.getNewAbove _ _ _ (some 7) 128 _ _ ⟨128, by decide⟩ rfl)
  exact ⟨_, one, rfl, rfl⟩

end Callers

end Idr
