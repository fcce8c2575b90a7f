/- Removal from an idr and an ida of an id that is not allocated. -/
import LinuxKernel.Lib.IdaRefinement

namespace Idr

open Digits Bitmap

variable {α : Type}

section Removal

variable {B : Nat} {LeafOk : Slot B α → Bool → Prop}

/-- Whether `sub_remove` warns: the entry of the id is missing or its bit is clear. -/
def subRemoveWarns (id : Nat) : Nat → Slot B α → Bool
  | 0, .layer p => !p.bitmap (digit B 0 id)
  | h + 1, .layer p => subRemoveWarns id h (p.ary (digit B (h + 1) id))
  | _, _ => true

def idrRemoveWarns (idp : Handle B α) (id : Nat) : Bool :=
  match idp.top with
  | none => true
  | some p => subRemoveWarns (id % maxIdBit) (idp.layers - 1) (.layer p)

variable {e : Slot B α}

theorem subRemoveWarns_eq (id : Nat) {h : Nat} {b : Bool} : subRemoveWarns id h e = !(leafAt id (h + 1) e b).2 := by
  induction h generalizing e b with
  | zero => cases e <;> rfl
  | succ h ih =>
    cases e with
    | null | ptr a => rfl
    | layer p => exact ih

variable {id h : Nat}

theorem SlotOk.bit_of_free {b : Bool} (ok : SlotOk LeafOk h e b) (free : (leafAt id h e b).2 = false) :
    b = false := by
  rw [← Bool.not_eq_true, ok.full_iff]
  intro all
  rw [all id] at free
  cases free

theorem clearBit_of_free {p : IdrLayer B α} (ok : LayerOk LeafOk h p) (free : (leaf id h p).2 = false) :
    setAry (clearBit p (digit B h id)) (digit B h id) (p.ary (digit B h id)) = p := by
  have bit : p.bitmap (digit B h id) = false := (ok.slots _).bit_of_free free
  have same : clearBit p (digit B h id) = p := by
    rw [clearBit, ← bit, Function.update_eq_self]
  rw [same, setAry, Function.update_eq_self]

theorem subRemove_free {b : Bool} (ok : SlotOk LeafOk (h + 1) e b)
    (free : (leafAt id (h + 1) e b).2 = false) : subRemove id h e = (e, false) := by
  induction h generalizing e b with
  | zero =>
    cases e with
    | null | ptr a => rfl
    | layer p =>
      have bit : p.bitmap (digit B 0 id) = false := free
      simp [subRemove, bit]
  | succ h ih =>
    obtain ⟨rfl, -⟩ | ⟨p, rfl, pOk, -⟩ := ok.cases
    · rfl
    · rw [subRemove, ih (pOk.slots _) free]
      simp only
      rw [clearBit_of_free pOk free]

end Removal

section Removal

variable {arch : Arch} {idp : Handle arch.idrBits α} {LeafOk : Slot arch.idrBits α → Bool → Prop}

/-- The id that the walk of `idr_remove` ends at: the digits above the height of the tree are
lost. -/
def Handle.alias (idp : Handle arch.idrBits α) (id : Nat) : Nat :=
  id % maxIdBit % 2 ^ (idp.layers * arch.idrBits)

theorem idrRemove_free (ok : HandleOk LeafOk idp)
    {id : Nat} (free : (idp.leafOf (idp.alias id)).2 = false) :
    idrRemoveWarns idp id = true ∧ idrRemove arch idp id = { shrink idp with
      idFree := (shrink idp).idFree.drop ((shrink idp).idFree.length + 1 - arch.idrFreeMax) } := by
  unfold idrRemove idrRemoveWarns
  cases top : idp.top with
  | none => exact ⟨rfl, rfl⟩
  | some p =>
    obtain ⟨pos, -, pOk⟩ := ok.top p top
    have low : idp.alias id < 2 ^ (idp.layers * arch.idrBits) := Nat.mod_lt _ (Nat.two_pow_pos _)
    obtain ⟨h, layers⟩ : ∃ h, idp.layers = h + 1 := ⟨idp.layers - 1, by omega⟩
    have same : (leafAt (id % maxIdBit) (h + 1) (.layer p) (isFull p)).2 = false := by
      rw [leafOf_eq top, topLeaf, if_pos low] at free
      rw [← free, layers]
      refine congrArg Prod.snd (leafAt_congr ?_ _ _)
      rw [Handle.alias, layers, Nat.mod_mod]
    rw [layers, Nat.add_sub_cancel] at pOk
    have run := subRemove_free (slotOk_layer.mpr ⟨pOk, rfl⟩) same
    simp only [layers, Nat.add_sub_cancel]
    refine ⟨by rw [subRemoveWarns_eq _, same]; rfl, ?_⟩
    rw [run]
    have back : ({ idp with top := some p } : Handle arch.idrBits α) = idp := by
      rw [← top]
    simp only
    rw [← layers, back]

end Removal

end Idr

namespace Ida

open Idr Digits Bitmap

variable {arch : Arch}

/-- Whether `ida_remove` has a chunk to look at: on the way to the lowest layer a layer is missing,
or the chunk is there. -/
def chunkThere (idrId : Nat) : Nat → Slot arch.idrBits (IdaBitmap arch) → Bool
  | 0, .layer p => !(p.ary (digit arch.idrBits 0 idrId)).isNull
  | h + 1, .layer p => chunkThere idrId h (p.ary (digit arch.idrBits (h + 1) idrId))
  | _, _ => true

theorem idaOffset_lt (arch : Arch) (id : Nat) : id % idaBitmapBits arch < idaBitmapBits arch :=
  Nat.mod_lt _ (idaBitmapBits_pos arch)

/-- Whether `ida_remove` takes its error path, with the warning. -/
def idaRemoveWarns (ida : Allocator arch) (id : Nat) : Bool :=
  match ida.idr.top with
  | none => true
  | some p =>
    match removeDown (id / idaBitmapBits arch) ⟨id % idaBitmapBits arch, idaOffset_lt arch id⟩ (ida.idr.layers - 1)
      (.layer p) with
    | some (_, .notAllocated) => true
    | _ => false

variable {e : Slot arch.idrBits (IdaBitmap arch)} {o : Fin (idaBitmapBits arch)}

theorem SlotOk.not_full {idrId h : Nat} {b : Bool} (ok : SlotOk ChunkLeaf h e b)
    (clear : chunkBit (leafAt idrId h e b) o = false) : (leafAt idrId h e b).2 = false := by
  rw [← Bool.not_eq_true]
  intro full
  rw [ChunkLeaf.full (ok.leafOk chunkLeaves idrId) full o.2] at clear
  cases clear

theorem removeDown_free {idrId h : Nat} {b : Bool} (ok : SlotOk ChunkLeaf (h + 1) e b)
    (clear : chunkBit (leafAt idrId (h + 1) e b) o = false) (there : chunkThere idrId h e = true) :
    removeDown idrId o h e = some (e, .notAllocated) := by
  induction h generalizing e b with
  | zero =>
    obtain ⟨rfl, -⟩ | ⟨p, rfl, pOk, -⟩ := ok.cases
    · rfl
    · have bit : p.bitmap (digit arch.idrBits 0 idrId) = false := SlotOk.not_full ok clear
      have same : clearBit p (digit arch.idrBits 0 idrId) = p := by
        rw [clearBit, ← bit, Function.update_eq_self]
      rw [removeDown]
      simp only [same]
      cases slot : p.ary (digit arch.idrBits 0 idrId) with
      | null =>
        rw [chunkThere, slot] at there
        cases there
      | layer q =>
        have := pOk.slots (digit arch.idrBits 0 idrId)
        rw [slot] at this
        exact this.elim
      | ptr bitmap =>
        have off : bitmap.bitmap o = false := by
          rw [← chunkBit_ptr bitmap (p.bitmap (digit arch.idrBits 0 idrId)) o, ← slot]
          exact clear
        simp [off]
  | succ h ih =>
    obtain ⟨rfl, -⟩ | ⟨p, rfl, pOk, -⟩ := ok.cases
    · rfl
    · have free : (leaf idrId (h + 1) p).2 = false :=
        SlotOk.not_full (pOk.slots _) clear
      rw [removeDown, ih (pOk.slots _) clear there, Option.map_some]
      simp only
      rw [clearBit_of_free pOk free]

/-- The id that `ida_remove` ends at: the digits above the height of the tree are lost. -/
def Allocator.alias (ida : Allocator arch) (id : Nat) : Nat :=
  id / idaBitmapBits arch % 2 ^ (ida.idr.layers * arch.idrBits) * idaBitmapBits arch +
    id % idaBitmapBits arch

theorem idaRemove_free {ida : Allocator arch} {S : Set Nat} (ref : Refines ida S) {id : Nat} (free : ida.alias id ∉ S)
    (there : chunkThere (id / idaBitmapBits arch) (ida.idr.layers - 1) ida.idr.topSlot = true) :
    idaRemoveWarns ida id = true ∧ idaRemove ida id = some ida := by
  unfold idaRemoveWarns idaRemove
  unfold Handle.topSlot at there
  cases top : ida.idr.top with
  | none => exact ⟨rfl, rfl⟩
  | some p =>
    rw [top] at there
    obtain ⟨pos, -, pOk⟩ := ref.ok.top p top
    obtain ⟨h, layers⟩ : ∃ h, ida.idr.layers = h + 1 := ⟨ida.idr.layers - 1, by omega⟩
    set idrId := id / idaBitmapBits arch
    have ho := idaOffset_lt arch id
    have low : idrId % 2 ^ (ida.idr.layers * arch.idrBits) < 2 ^ (ida.idr.layers * arch.idrBits) :=
      Nat.mod_lt _ (Nat.two_pow_pos _)
    have clear : chunkBit (leafAt idrId (h + 1) (.layer p) (isFull p))
        (⟨id % idaBitmapBits arch, ho⟩ : Fin (idaBitmapBits arch)) = false := by
      rw [ref.mem, Bool.not_eq_true, Allocator.alias, busy_add _ _ ho, leafOf_eq top, topLeaf, if_pos low] at free
      rw [← free, layers]
      exact congrArg (chunkBit · _) (leafAt_congr (Nat.mod_mod ..).symm _ _)
    rw [layers, Nat.add_sub_cancel] at pOk
    simp only [layers, Nat.add_sub_cancel] at there ⊢
    rw [removeDown_free (slotOk_layer.mpr ⟨pOk, rfl⟩) clear there]
    refine ⟨rfl, ?_⟩
    have back : ({ ida.idr with top := some p } : Handle _ _) = ida.idr := by
      rw [← top]
    simp only [Option.map_some]
    rw [← layers, back]

/-- A removal takes the warning path if the id it ends at, without the digits above the height of the
tree, is free, and if an ida has a chunk to look at. Then the ids in use and every lookup stay the
same, and an ida does not change at all. Nor does an idr whose top has more than a single leftmost
child, and whose free list is not longer than `IDR_FREE_MAX`. -/
theorem removal_of_free_id {α : Type} :
    (∀ s : Idr.State arch α, Transition.Reachable (Idr.Init arch) (Idr.Step arch) s →
      ∀ id, s.map (s.idp.alias id) = none →
        idrRemoveWarns s.idp id = true ∧ Idr.Refines arch (idrRemove arch s.idp id) s.map ∧
        (∀ j, idrFind (idrRemove arch s.idp id) j = idrFind s.idp j) ∧
        (shrink s.idp = s.idp → s.idp.idFree.length < arch.idrFreeMax → idrRemove arch s.idp id = s.idp)) ∧
    ∀ s : State arch, Transition.Reachable Init Step s → ∀ id, s.ida.alias id ∉ s.ids →
        chunkThere (id / idaBitmapBits arch) (s.ida.idr.layers - 1) s.ida.idr.topSlot = true →
          idaRemoveWarns s.ida id = true ∧ idaRemove s.ida id = some s.ida := by
  refine ⟨fun s reach id free => ?_, fun s reach id free there => ?_⟩
  · have ref := Idr.Refines.of_reachable reach
    have clear : (s.idp.leafOf (s.idp.alias id)).2 = false := by
      rw [ref.taken_iff, free]
      rfl
    obtain ⟨warns, run⟩ := idrRemove_free ref.ok clear
    obtain ⟨shrunk, same⟩ := shrink_spec ref.ok
    have ref' : Idr.Refines arch (idrRemove arch s.idp id) s.map := by
      rw [run]
      refine ⟨⟨shrunk.top, fun q hq => shrunk.free q (List.mem_of_mem_drop hq)⟩, fun j => ?_⟩
      rw [← ref.leafOf_eq j, ← same j]
      rfl
    refine ⟨warns, ref', fun j => ?_, fun top few => ?_⟩
    · rw [idrFind_eq ref', idrFind_eq ref]
    · rw [run, top, Nat.sub_eq_zero_of_le few, List.drop_zero]
  · exact idaRemove_free (Refines.of_reachable reach) free there

/-- The id 5 of an idr that has only the id zero, and of a fresh ida. -/
theorem removal_of_free_id_five :
    (∃ s : Idr.State .bits64 Nat, s.map 0 = some (some 7) ∧ idrRemoveWarns s.idp 5 = true ∧
      idrRemove .bits64 s.idp 5 = s.idp) ∧ idaRemove (idaInit : Allocator .bits64) 5 = some idaInit := by
  have one := (reachable_preGet .bits64 Nat 3).next (@Idr.Step.getNewAbove _ _ _ (some 7) 0 _ _ ⟨0, by decide⟩ rfl)
  obtain ⟨warns, -, -, same⟩ := (@removal_of_free_id .bits64 Nat).1 _ one 5 rfl
  have fresh := (@removal_of_free_id .bits64 Nat).2 ⟨idaInit, ∅⟩ (.start rfl) 5 (Set.notMem_empty _) rfl
  exact ⟨⟨_, rfl, warns, same rfl (by decide)⟩, fresh.2⟩

/-- In a tree of one layer 64 ends at the slot of zero, and its removal takes zero away. The first id
of the second chunk of an ida makes `ida_remove` read a bitmap that is not there. -/
theorem removal_of_free_id_hits : (∃ s : Idr.State .bits64 Nat, Transition.Reachable (Idr.Init _) (Idr.Step _) s ∧
      s.map 64 = none ∧ idrFind s.idp 0 = some (some 7) ∧ idrFind (idrRemove .bits64 s.idp 64) 0 = some none) ∧
    ∃ s : State .bits64, Transition.Reachable Init Step s ∧ 960 ∉ s.ids ∧ idaRemove s.ida 960 = none := by
  constructor
  · have one := (reachable_preGet .bits64 Nat 3).next (@Idr.Step.getNewAbove _ _ _ (some 7) 0 _ _ ⟨0, by decide⟩ rfl)
    exact ⟨_, one, rfl, rfl, rfl⟩
  · obtain ⟨ida₀, ready, faults⟩ := exists_ready (P := fun ida => (idaGetNewAbove ida 0).map
      (fun r => (r.2, (idaRemove r.1 960).isNone)) = some (.ok 0, true)) (by decide +kernel)
    obtain ⟨⟨ida, ret⟩, run, eq⟩ := Option.map_eq_some_iff.mp faults
    obtain ⟨rfl, fault⟩ := Prod.mk.inj eq
    refine ⟨_, ready.next (.getNewAbove (by decide) run), ?_, Option.isNone_iff_eq_none.mp fault⟩
    simp

end Ida
