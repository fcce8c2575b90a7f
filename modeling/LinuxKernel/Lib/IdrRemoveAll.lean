/- The clean-up of an idr: idr_remove_all of lib/idr.c, with the layers it reads and frees. -/
import Mathlib.Data.Nat.Size
import LinuxKernel.Lib.IdrRefinement

namespace Idr

open Digits List

variable {α : Type} {B : Nat}

/-- A layer is named by the slots on the way to it. -/
abbrev Pos (B : Nat) := List (Fin (2 ^ B))

/-- What the sweep does: it reads `ary` of a layer, passes a layer to `free_layer`, or takes a pointer from
`pa`, from an entry that it pushed or from below the array. -/
inductive Event (B : Nat) where
  | read (pos : Pos B)
  | free (pos : Pos B)
  | pop (pushed : Bool)
  deriving DecidableEq

abbrev Cell (B : Nat) (α : Type) := Slot B α × Pos B

/-- The variables of `idr_remove_all`; `n` is `h * IDR_BITS`. -/
structure Sweep (B : Nat) (α : Type) where
  id : Nat
  h : Nat
  p : Cell B α
  pa : List (Cell B α)
  log : List (Event B)

/-- The loop `while (n > IDR_BITS && p)`. -/
def sweepDown (id : Nat) : Nat → Cell B α → List (Cell B α) → List (Event B) → Sweep B α
  | h + 2, (.layer q, pos), pa, log =>
    let o := digit B (h + 1) id
    sweepDown id (h + 1) (q.ary o, pos ++ [o]) ((.layer q, pos) :: pa) (log ++ [.read pos])
  | h, p, pa, log => ⟨id, h, p, pa, log⟩

/-- The loop `while (n < fls(id))`; `Nat.size` is `fls`, and `below` is what stands before `pa[0]`. -/
def sweepUp (below : Cell B α) : Nat → Sweep B α → Sweep B α
  | 0, s => s
  | bound + 1, s =>
    if s.h * B < Nat.size s.id then
      let log := if s.p.1.isNull then s.log else s.log ++ [.free s.p.2]
      match s.pa with
      | [] => sweepUp below bound { s with h := s.h + 1, p := below, log := log ++ [.pop false] }
      | q :: pa => sweepUp below bound { s with h := s.h + 1, p := q, pa, log := log ++ [.pop true] }
    else s

def sweepStep (max : Nat) (below : Cell B α) (s : Sweep B α) : Sweep B α ⊕ List (Event B) :=
  if s.id < max then
    let s := sweepDown s.id s.h s.p s.pa s.log
    let s := { s with id := s.id + 2 ^ (s.h * B) }
    .inl (sweepUp below (Nat.size s.id) s)
  else .inr s.log

/-- `idr_remove_all`: the idr afterwards, and what was done on the way. -/
def idrRemoveAll (idp : Handle B α) (below : Cell B α) : Option (Handle B α × List (Event B)) :=
  let max := 2 ^ (idp.layers * B)
  (Loop.run (sweepStep max below) (max + 1) ⟨0, idp.layers, (idp.topSlot, []), [], []⟩).map fun log =>
    ({ idp with top := none, layers := 0 }, log)

def layerAt : Nat → Slot B α → Pos B → Bool
  | _ + 1, .layer _, [] => true
  | h + 1, .layer p, o :: pos => layerAt h (p.ary o) pos
  | _, _, _ => false

def freed (log : List (Event B)) : List (Pos B) :=
  log.filterMap fun
    | .free pos => some pos
    | _ => none

/-- Every layer is freed once and not read afterwards. -/
structure Swept (h : Nat) (top : Slot B α) (log : List (Event B)) : Prop where
  once : (freed log).Nodup
  all : ∀ pos, pos ∈ freed log ↔ layerAt h top pos = true
  fresh : log.Pairwise fun e e' => ∀ pos, e = .free pos → e' ≠ .read pos

/-- What `idr_remove_all` is for: every layer of the tree is freed once, only pushed entries are taken from `pa`,
and the idr is left empty. -/
def RemovesAll (idp : Handle B α) (below : Cell B α) : Prop :=
  ∃ log, idrRemoveAll idp below = some ({ (idrInit : Handle B α) with idFree := idp.idFree }, log) ∧
    Swept idp.layers idp.topSlot log ∧ .pop false ∉ log

/-- Until it is read below its start, `pa` has an entry for each layer above the cursor. -/
def Stacked (layers : Nat) (s : Sweep B α) : Prop := .pop false ∈ s.log ∨ s.pa.length + s.h = layers

variable {layers : Nat}

theorem sweepDown_stacked {id h : Nat} {p : Cell B α} {pa : List (Cell B α)} {log : List (Event B)}
    (stacked : Stacked layers ⟨id, h, p, pa, log⟩) : Stacked layers (sweepDown id h p pa log) := by
  fun_induction sweepDown id h p pa log with
  | case1 h q pos pa log o ih =>
    refine ih (stacked.imp (mem_append_left _) fun entries => ?_)
    simp only [length_cons] at entries ⊢
    omega
  | case2 => exact stacked

/-- The way up goes on until the cursor is as high as the id, also below the start of `pa`. -/
theorem sweepUp_stacked (below : Cell B α) (pos : 0 < B) {bound : Nat} {s : Sweep B α} (stacked : Stacked layers s)
    (enough : Nat.size s.id ≤ s.h + bound) : Stacked layers (sweepUp below bound s) ∧
      (sweepUp below bound s).id = s.id ∧ Nat.size s.id ≤ (sweepUp below bound s).h * B := by
  fun_induction sweepUp below bound s with
  | case1 s => exact ⟨stacked, rfl, enough.trans (Nat.le_mul_of_pos_right _ pos)⟩
  | case2 bound s up log empty ih => exact ih (.inl (by simp)) (by simp only; omega)
  | case3 bound s up log q pa pushed ih =>
    refine ih (stacked.imp (fun mem => ?_) fun entries => ?_) (by simp only; omega)
    · simp only [log]
      split_ifs <;> simp [mem]
    · rw [pushed, length_cons] at entries
      simp only
      omega
  | case4 bound s stop => exact ⟨stacked, rfl, Nat.le_of_not_lt stop⟩

/-- The last turn of the way up always reads `pa[-1]`: the id has passed all layers, and the cursor goes above the
top. -/
theorem idrRemoveAll_reads_below (pos : 0 < B) {idp idp' : Handle B α} {below : Cell B α} {log : List (Event B)}
    (run : idrRemoveAll idp below = some (idp', log)) : .pop false ∈ log := by
  obtain ⟨_, run, eq⟩ := Option.map_eq_some_iff.mp run
  cases eq
  refine Loop.run_post (fun s => Stacked idp.layers s ∧ Nat.size s.id ≤ s.h * B) (.pop false ∈ ·) ?_ ?_ run
  · rintro s ⟨stacked, size⟩
    rw [sweepStep]
    split_ifs with low
    · have down := sweepDown_stacked stacked
      dsimp only [Sum.elim_inl]
      generalize sweepDown s.id s.h s.p s.pa s.log = d at down ⊢
      obtain ⟨stacked', id, size'⟩ := sweepUp_stacked below pos (s := { d with id := d.id + 2 ^ (d.h * B) }) down
        (Nat.le_add_left ..)
      exact ⟨stacked', by rwa [id]⟩
    · refine stacked.resolve_right fun entries => ?_
      have high : idp.layers * B < Nat.size s.id := Nat.lt_size.mpr (Nat.le_of_not_lt low)
      exact absurd (Nat.lt_of_mul_lt_mul_right (high.trans_le size)) (by omega)
  · exact ⟨.inr (Nat.zero_add _), Nat.zero_le _⟩

/-- No idr is cleaned up without reading `pa[-1]`, not even an empty one. -/
theorem idr_remove_all_never {arch : Arch} (idp : Handle arch.idrBits α) (below : Cell arch.idrBits α) :
    ¬RemovesAll idp below := by
  rintro ⟨log, run, -, pushed⟩
  exact pushed (idrRemoveAll_reads_below (by cases arch <;> decide) run)

/-- With the id 1024 the tree has three layers. The one at slot 1 is freed 32 times, once for each of its slots,
and it is read in between. -/
theorem idr_remove_all_frees_again :
    ∃ s : State .bits32 Nat, Transition.Reachable (Init .bits32) (Step .bits32) s ∧
    layerAt s.idp.layers s.idp.topSlot [1] = true ∧ ∃ log, (idrRemoveAll s.idp (.null, [])).map Prod.snd = some log ∧
      (freed log).count [1] = 32 ∧ ¬Swept s.idp.layers s.idp.topSlot log := by
  have one := (reachable_preGet .bits32 Nat 6).next
    (@Step.getNewAbove _ _ _ (some 7) 1024 _ _ ⟨1024, by decide⟩ rfl)
  have twice : ∀ h (top : Slot _ Nat) (log : List (Event (Arch.idrBits .bits32))), (freed log).count [1] = 32 →
      (freed log).count [1] = 32 ∧ ¬Swept h top log := by
    intro h top log count
    refine ⟨count, fun swept => ?_⟩
    have := nodup_iff_count_le_one.mp swept.once [1]
    omega
  exact ⟨_, one, rfl, _, rfl, twice _ _ _ (by decide +kernel)⟩

end Idr
