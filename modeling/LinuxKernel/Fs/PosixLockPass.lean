/- What one request does to the locks of its owner: the pass over them, and the locks that it cuts. -/
import Mathlib.Data.List.Nodup
import Mathlib.Data.List.Pairwise
import LinuxKernel.Fs.PosixLock

namespace PosixLock

open List

variable {ω : Type}

def Covers (fl : FileLock ω) (b : Int) : Prop := fl.start ≤ b ∧ b ≤ fl.stop

structure LockOk (o : ω) (fl : FileLock ω) : Prop where
  owner : fl.owner = o
  type : fl.type ≠ .unlck
  nonneg : 0 ≤ fl.start
  le : fl.start ≤ fl.stop
  limit : fl.stop ≤ offsetMax

/-- One lock ends before the next begins, with a gap if they are of the same type. -/
def Apart (a b : FileLock ω) : Prop := a.stop < b.start ∧ (a.type = b.type → a.stop + 1 < b.start)

structure Tidy (o : ω) (locks : List (FileLock ω)) : Prop where
  ok : ∀ fl ∈ locks, LockOk o fl
  apart : locks.Pairwise Apart

def Holds (locks : List (FileLock ω)) (b : Int) (t : LockType) : Prop :=
  ∃ fl ∈ locks, fl.type = t ∧ Covers fl b

@[simp] theorem holds_nil (b : Int) (t : LockType) : ¬Holds ([] : List (FileLock ω)) b t := by
  simp [Holds]

@[simp] theorem holds_cons (fl : FileLock ω) (locks : List (FileLock ω)) (b : Int) (t : LockType) :
    Holds (fl :: locks) b t ↔ (fl.type = t ∧ Covers fl b) ∨ Holds locks b t := by
  simp [Holds]

@[simp] theorem holds_append (l₁ l₂ : List (FileLock ω)) (b : Int) (t : LockType) :
    Holds (l₁ ++ l₂) b t ↔ Holds l₁ b t ∨ Holds l₂ b t := by
  simp [Holds, or_and_right, exists_or]

section Tidy

variable {o : ω} {fl : FileLock ω} {l₁ l₂ : List (FileLock ω)}

theorem tidy_nil : Tidy o ([] : List (FileLock ω)) := ⟨by simp, .nil⟩

theorem tidy_iff : Tidy o l₁ ↔ (∀ fl ∈ l₁, LockOk o fl) ∧ l₁.Pairwise Apart :=
  ⟨fun h => ⟨h.ok, h.apart⟩, fun h => ⟨h.1, h.2⟩⟩

theorem tidy_cons : Tidy o (fl :: l₂) ↔ LockOk o fl ∧ (∀ b ∈ l₂, Apart fl b) ∧ Tidy o l₂ := by
  rw [tidy_iff, tidy_iff, forall_mem_cons, pairwise_cons]
  tauto

theorem tidy_append : Tidy o (l₁ ++ l₂) ↔ Tidy o l₁ ∧ Tidy o l₂ ∧ ∀ a ∈ l₁, ∀ b ∈ l₂, Apart a b := by
  rw [tidy_iff, tidy_iff, tidy_iff, forall_mem_append, pairwise_append]
  tauto

end Tidy

theorem loff_eq {x : Int} (ge : -1 ≤ x) (le : x ≤ offsetMax) : loff x = x := by
  unfold offsetMax at le
  apply Int.bmod_eq_of_le <;> omega

def ids (locks : List (FileLock ω)) : List Nat := locks.map (·.id)

@[simp] theorem ids_append (l₁ l₂ : List (FileLock ω)) : ids (l₁ ++ l₂) = ids l₁ ++ ids l₂ :=
  map_append

@[simp] theorem ids_cons (fl : FileLock ω) (locks : List (FileLock ω)) : ids (fl :: locks) = fl.id :: ids locks := rfl

@[simp] theorem ids_nil : ids ([] : List (FileLock ω)) = [] := rfl

section Modify

variable {id : Nat} {f : FileLock ω → FileLock ω} {locks : List (FileLock ω)}

theorem modify_of_notMem (h : id ∉ ids locks) : modify id f locks = locks := by
  have same : modify id f locks = locks.map fun fl => fl := by
    refine map_congr_left fun fl hfl => if_neg fun eq => h ?_
    exact eq ▸ mem_map_of_mem hfl
  rw [same, map_id']

theorem modify_append (l₁ l₂ : List (FileLock ω)) :
    modify id f (l₁ ++ l₂) = modify id f l₁ ++ modify id f l₂ := map_append

theorem ids_modify (keep : ∀ fl, (f fl).id = fl.id) : ids (modify id f locks) = ids locks := by
  unfold ids modify
  rw [map_map]
  refine map_congr_left fun fl _ => ?_
  simp only [Function.comp_apply]
  split_ifs
  · exact keep fl
  · rfl

end Modify

def cutLeft (q : FileLock ω) (left : Option Nat) (locks : List (FileLock ω)) : List (FileLock ω) :=
  left.elim locks fun l => modify l (fun fl => { fl with stop := loff (q.start - 1) }) locks

def cutRight (q : FileLock ω) (right : Option Nat) (locks : List (FileLock ω)) : List (FileLock ω) :=
  right.elim locks fun r => modify r (fun fl => { fl with start := loff (q.stop + 1) }) locks

section Cut

variable {q : FileLock ω} {left right : Option Nat} {locks A K M R C : List (FileLock ω)}

theorem cutLeft_append (l₁ l₂ : List (FileLock ω)) :
    cutLeft q left (l₁ ++ l₂) = cutLeft q left l₁ ++ cutLeft q left l₂ := by
  cases left with
  | none => rfl
  | some l => exact modify_append l₁ l₂

theorem cutRight_append (l₁ l₂ : List (FileLock ω)) :
    cutRight q right (l₁ ++ l₂) = cutRight q right l₁ ++ cutRight q right l₂ := by
  cases right with
  | none => rfl
  | some r => exact modify_append l₁ l₂

theorem cutLeft_of_notMem (h : ∀ l, left = some l → l ∉ ids locks) : cutLeft q left locks = locks := by
  cases left with
  | none => rfl
  | some l => exact modify_of_notMem (h l rfl)

theorem cutRight_of_notMem (h : ∀ r, right = some r → r ∉ ids locks) : cutRight q right locks = locks := by
  cases right with
  | none => rfl
  | some r => exact modify_of_notMem (h r rfl)

theorem cutRight_cons {g : FileLock ω} (h : g.id ∉ ids R) :
    cutRight q (some g.id) (g :: R) = { g with start := loff (q.stop + 1) } :: R := by
  have rest : cutRight q (some g.id) R = R :=
    cutRight_of_notMem fun r hr => Option.some.inj hr ▸ h
  have first : cutRight q (some g.id) [g] = [{ g with start := loff (q.stop + 1) }] := by
    simp [cutRight, modify]
  rw [← singleton_append, cutRight_append, first, rest, singleton_append]

theorem ids_cutRight : ids (cutRight q right locks) = ids locks := by
  cases right with
  | none => rfl
  | some r => exact ids_modify fun _ => rfl

/-- Only the locks in front of the requested range are cut on the left side, and only those after it on
the right. -/
theorem trim_locks {woken : List Nat} (hl : ∀ l, left = some l → l ∉ ids A ∧ l ∉ ids M ∧ l ∉ ids R ∧ l ∉ ids C)
    (hr : ∀ r, right = some r → r ∉ ids A ∧ r ∉ ids K ∧ r ∉ ids M ∧ r ∉ ids C) :
    (trim q left right woken (A ++ K ++ M ++ R ++ C)).locks =
      A ++ (cutLeft q left K ++ M ++ cutRight q right R) ++ C := by
  change cutLeft q left (cutRight q right (A ++ K ++ M ++ R ++ C)) = _
  simp only [cutRight_append, cutLeft_append]
  rw [cutRight_of_notMem fun r h => (hr r h).1, cutRight_of_notMem fun r h => (hr r h).2.1,
    cutRight_of_notMem fun r h => (hr r h).2.2.1, cutRight_of_notMem fun r h => (hr r h).2.2.2,
    cutLeft_of_notMem fun l h => (hl l h).1, cutLeft_of_notMem fun l h => (hl l h).2.1]
  have right_part : cutLeft q left (cutRight q right R) = cutRight q right R :=
    cutLeft_of_notMem fun l h => by
      rw [ids_cutRight]
      exact (hl l h).2.2.1
  have end_part : cutLeft q left C = C := cutLeft_of_notMem fun l h => (hl l h).2.2.2
  rw [right_part, end_part]
  simp

theorem mem_cutLeft {k' : FileLock ω} (h : k' ∈ cutLeft q left K) : ∃ k ∈ K,
    (left = some k.id ∧ k' = { k with stop := loff (q.start - 1) }) ∨ (left ≠ some k.id ∧ k' = k) := by
  cases left with
  | none => exact ⟨k', h, .inr ⟨by simp, rfl⟩⟩
  | some l =>
    obtain ⟨k, hk, rfl⟩ := mem_map.mp h
    refine ⟨k, hk, ?_⟩
    by_cases same : k.id = l
    · exact .inl ⟨by rw [same], if_pos same⟩
    · exact .inr ⟨fun h => same (Option.some.inj h).symm, if_neg same⟩

end Cut

/-- The locks that the pass has left in front: they end before the requested range, or are the one
that has to be cut there. -/
structure Passed (q : FileLock ω) (left : Option Nat) (K : List (FileLock ω)) : Prop where
  mem : ∀ l, left = some l → l ∈ ids K
  cut : ∀ k ∈ K, left = some k.id →
    k.start < q.start ∧ q.start ≤ k.stop ∧ k.stop ≤ q.stop ∧ k.type ≠ q.type
  apart : ∀ k ∈ K, left ≠ some k.id → Apart k q

structure Below (o : ω) (q : FileLock ω) (K K' : List (FileLock ω)) : Prop where
  tidy : Tidy o K'
  apart : ∀ k ∈ K', Apart k q
  holds : ∀ b t, Holds K' b t ↔ Holds K b t ∧ b < q.start
  rest : ∀ b t, Holds K b t → b ≤ q.stop

structure Beyond (o : ω) (q : FileLock ω) (R R' : List (FileLock ω)) : Prop where
  tidy : Tidy o R'
  apart : ∀ r ∈ R', Apart q r
  holds : ∀ b t, Holds R' b t ↔ Holds R b t ∧ q.stop < b
  rest : ∀ b t, Holds R b t → q.start ≤ b

/-- The types of the bytes after a request is applied. -/
def Over (q : FileLock ω) (locks : List (FileLock ω)) (b : Int) (t : LockType) : Prop :=
  (Covers q b ∧ t = q.type ∧ t ≠ .unlck) ∨ (¬Covers q b ∧ Holds locks b t)

section Assemble

variable {o : ω} {q m : FileLock ω} {K K' R R' : List (FileLock ω)}

section

variable (below : Below o q K K') (beyond : Beyond o q R R')
include below beyond

theorem over_iff (b : Int) (t : LockType) : Over q (K ++ R) b t ↔
      Holds K' b t ∨ (Covers q b ∧ t = q.type ∧ t ≠ .unlck) ∨ Holds R' b t := by
  rw [below.holds, beyond.holds, Over, holds_append]
  have hK := below.rest b t
  have hR := beyond.rest b t
  unfold Covers
  constructor
  · rintro (h | ⟨out, h | h⟩)
    · exact .inr (.inl h)
    · exact .inl ⟨h, by have := hK h; omega⟩
    · exact .inr (.inr ⟨h, by have := hR h; omega⟩)
  · rintro (⟨h, lt⟩ | h | ⟨h, lt⟩)
    · exact .inr ⟨by omega, .inl h⟩
    · exact .inl h
    · exact .inr ⟨by omega, .inr h⟩

end

/-- The lock that a request leaves on its range, none if it unlocks. -/
inductive Middle (o : ω) (q : FileLock ω) : List (FileLock ω) → Prop
  | lock {m : FileLock ω} (ok : LockOk o m) (start : m.start = q.start) (stop : m.stop = q.stop)
      (type : m.type = q.type) : Middle o q [m]
  | unlock (unlck : q.type = .unlck) : Middle o q []

theorem Middle.tidy {M : List (FileLock ω)} (middle : Middle o q M) (below : Below o q K K')
    (beyond : Beyond o q R R') (le : q.start ≤ q.stop) :
    Tidy o (K' ++ M ++ R') ∧ ∀ b t, Holds (K' ++ M ++ R') b t ↔ Over q (K ++ R) b t := by
  have across : ∀ k ∈ K', ∀ r ∈ R', Apart k r := by
    intro k hk r hr
    have before := (below.apart k hk).1
    have after := (beyond.apart r hr).1
    exact ⟨by omega, fun _ => by omega⟩
  simp only [over_iff below beyond]
  cases middle with
  | unlock unlck =>
    rw [append_nil]
    refine ⟨tidy_append.mpr ⟨below.tidy, beyond.tidy, across⟩, fun b t => ?_⟩
    have nothing : ¬ (Covers q b ∧ t = q.type ∧ t ≠ .unlck) := fun h => h.2.2 (h.2.1.trans unlck)
    rw [holds_append, or_iff_right nothing]
  | lock ok start stop type =>
    rename_i m
    rw [append_assoc]
    constructor
    · refine tidy_append.mpr ⟨below.tidy, tidy_cons.mpr ⟨ok, fun r hr => ?_, beyond.tidy⟩, fun k hk r hr => ?_⟩
      · have := beyond.apart r hr
        unfold Apart at *
        rwa [stop, type]
      · rcases mem_cons.mp hr with rfl | hr
        · have := below.apart k hk
          unfold Apart at *
          rwa [start, type]
        · exact across k hk r hr
    · intro b t
      have covers : Covers m b ↔ Covers q b := by rw [Covers, Covers, start, stop]
      have lock : q.type ≠ .unlck := type ▸ ok.type
      rw [holds_append, singleton_append, holds_cons, covers, type]
      refine or_congr_right (or_congr_left ?_)
      constructor
      · rintro ⟨rfl, h⟩
        exact ⟨h, rfl, lock⟩
      · rintro ⟨h, rfl, -⟩
        exact ⟨rfl, h⟩

theorem Passed.below {left : Option Nat} (passed : Passed q left K) (tidy : Tidy o K)
    (nonneg : 0 ≤ q.start) (le : q.start ≤ q.stop) (max : q.stop ≤ offsetMax) : Below o q K (cutLeft q left K) := by
  have exact_start : loff (q.start - 1) = q.start - 1 := loff_eq (by omega) (by omega)
  have pieces : ∀ k' ∈ cutLeft q left K, ∃ k ∈ K, k'.owner = k.owner ∧ k'.type = k.type ∧
      k'.start = k.start ∧ k'.stop ≤ k.stop ∧ k'.start ≤ k'.stop ∧ Apart k' q := by
    intro k' hk'
    obtain ⟨k, hk, ⟨here, rfl⟩ | ⟨other, rfl⟩⟩ := mem_cutLeft hk'
    · obtain ⟨lt, ge, -, type⟩ := passed.cut k hk here
      refine ⟨k, hk, rfl, rfl, rfl, ?_, ?_, ?_, fun h => absurd h type⟩
      all_goals
        simp only
        omega
    · exact ⟨k', hk, rfl, rfl, rfl, Int.le_refl _, (tidy.ok k' hk).le, passed.apart k' hk other⟩
  refine ⟨⟨fun k' hk' => ?_, ?_⟩, fun k' hk' => ?_, fun b t => ⟨?_, ?_⟩, ?_⟩
  · obtain ⟨k, hk, owner, type, start, stop, le', -⟩ := pieces k' hk'
    have ok := tidy.ok k hk
    refine ⟨owner.trans ok.owner, type ▸ ok.type, start ▸ ok.nonneg, le', Int.le_trans stop ok.limit⟩
  · cases left with
    | none => exact tidy.apart
    | some l =>
      refine pairwise_map.mpr (tidy.apart.imp_of_mem fun {a c} ha _ apart => ?_)
      have cut := passed.cut a ha
      unfold Apart at *
      split_ifs with ha' hc'
      · obtain ⟨-, ge, -⟩ := cut (by rw [ha'])
        simp only
        omega
      · obtain ⟨-, ge, -⟩ := cut (by rw [ha'])
        simp only
        omega
      all_goals exact apart
  · exact (pieces k' hk').choose_spec.2.2.2.2.2.2
  · rintro ⟨k', hk', rfl, cover⟩
    obtain ⟨k, hk, -, type, start, stop, -, apart⟩ := pieces k' hk'
    refine ⟨⟨k, hk, type.symm, ?_, ?_⟩, ?_⟩
    · rw [← start]
      exact cover.1
    · exact Int.le_trans cover.2 stop
    · exact Int.lt_of_le_of_lt cover.2 apart.1
  · rintro ⟨⟨k, hk, rfl, cover⟩, lt⟩
    by_cases here : left = some k.id
    · subst here
      refine ⟨_, mem_map.mpr ⟨k, hk, if_pos rfl⟩, rfl, cover.1, ?_⟩
      simp only
      omega
    cases left with
    | none => exact ⟨k, hk, rfl, cover⟩
    | some l =>
      refine ⟨k, mem_map.mpr ⟨k, hk, if_neg ?_⟩, rfl, cover⟩
      exact fun h => here (by rw [h])
  · rintro b t ⟨k, hk, rfl, cover⟩
    have := cover.2
    by_cases here : left = some k.id
    · have := (passed.cut k hk here).2.2.1
      omega
    · have := (passed.apart k hk here).1
      omega

theorem below_self (tidy : Tidy o K) (apart : ∀ k ∈ K, Apart k q) (le : q.start ≤ q.stop) : Below o q K K := by
  refine ⟨tidy, apart, fun b t => (and_iff_left_of_imp ?_).symm, ?_⟩
  · rintro ⟨k, hk, -, cover⟩
    exact Int.lt_of_le_of_lt cover.2 (apart k hk).1
  · rintro b t ⟨k, hk, -, cover⟩
    have := (apart k hk).1
    have := cover.2
    omega

theorem beyond_self (tidy : Tidy o R) (apart : ∀ r ∈ R, Apart q r) (le : q.start ≤ q.stop) : Beyond o q R R := by
  refine ⟨tidy, apart, fun b t => (and_iff_left_of_imp ?_).symm, ?_⟩
  · rintro ⟨r, hr, -, cover⟩
    exact Int.lt_of_lt_of_le (apart r hr).1 cover.1
  · rintro b t ⟨r, hr, -, cover⟩
    have := (apart r hr).1
    have := cover.1
    omega

theorem beyond_cut {g : FileLock ω} (tidy : Tidy o (g :: R)) (nonneg : 0 ≤ q.start)
    (le : q.start ≤ q.stop) (start : q.start ≤ g.start) (overlap : g.start ≤ q.stop)
    (stop : q.stop < g.stop) (type : q.type ≠ g.type) :
    Beyond o q (g :: R) ({ g with start := loff (q.stop + 1) } :: R) := by
  obtain ⟨ok, apart, tidyR⟩ := tidy_cons.mp tidy
  have exact_stop : loff (q.stop + 1) = q.stop + 1 :=
    loff_eq (by omega) (by have := ok.limit; omega)
  refine ⟨tidy_cons.mpr ⟨⟨ok.owner, ok.type, ?_, ?_, ok.limit⟩, apart, tidyR⟩, fun r hr => ?_,
    fun b t => ?_, ?_⟩
  · simp only
    omega
  · simp only
    omega
  · rcases mem_cons.mp hr with rfl | hr
    · exact ⟨by simp only; omega, fun h => absurd h type⟩
    · have := (apart r hr).1
      exact ⟨by omega, fun _ => by omega⟩
  · simp only [holds_cons, Covers, or_and_right]
    refine or_congr ?_ ?_
    · constructor
      · rintro ⟨h, ge, le⟩
        exact ⟨⟨h, by omega, le⟩, by omega⟩
      · rintro ⟨⟨h, ge, le⟩, lt⟩
        exact ⟨h, by omega, le⟩
    · refine (and_iff_left_of_imp ?_).symm
      rintro ⟨r, hr, -, cover⟩
      have := (apart r hr).1
      have := cover.1
      omega
  · rintro b t ⟨r, hr, -, cover⟩
    have := cover.1
    rcases mem_cons.mp hr with rfl | hr
    · omega
    · have := (apart r hr).1
      omega

end Assemble

section Step

variable [DecidableEq ω] {s : Pass ω} {rest : List (FileLock ω)}

theorem processLocks_other (h : ∀ fl, rest.head? = some fl → fl.owner ≠ s.request.owner) :
    processLocks s rest = (s, rest) := by
  cases rest with
  | nil => rfl
  | cons fl rest => rw [processLocks, if_pos (h fl rfl).symm]

end Step

/-- One lock from the lower start to the higher end of both. -/
def FileLock.join (q fl : FileLock ω) : FileLock ω :=
  { q with start := min q.start fl.start, stop := max q.stop fl.stop }

/-- What the pass does at a lock of the owner, by where the lock lies. -/
inductive Turn [DecidableEq ω] (B : List (FileLock ω)) (q fl : FileLock ω) (added : Bool) (left : Option Nat)
    (woken : List Nat) (rest : List (FileLock ω)) (p : Pass ω × List (FileLock ω)) : Prop
  | skip (apart : Apart fl q) (eq : p = processLocks ⟨B ++ [fl], q, added, left, none, woken⟩ rest)
  | stop (apart : Apart q fl) (eq : p = (⟨B, q, added, left, none, woken⟩, fl :: rest))
  | merge (type : q.type = fl.type) (touch : fl.start ≤ q.stop + 1) (touch' : q.start ≤ fl.stop + 1)
      (new : added = false) (eq : p = processLocks ⟨B ++ [fl.join q], fl.join q, true, left, none, woken⟩ rest)
  | absorb (type : q.type = fl.type) (touch : fl.start ≤ q.stop + 1) (touch' : q.start ≤ fl.stop + 1)
      (old : added = true) (eq : p = processLocks
        ⟨modify q.id (fun _ => q.join fl) B, q.join fl, true, left, none, woken ++ [fl.id]⟩ rest)
  | right (type : q.type ≠ fl.type) (overlap : fl.start ≤ q.stop) (longer : q.stop < fl.stop)
      (eq : p = (⟨B, q, added || q.type == .unlck, if fl.start < q.start then some fl.id else left, some fl.id,
        woken⟩, fl :: rest))
  | left (type : q.type ≠ fl.type) (low : fl.start < q.start) (inside : q.start ≤ fl.stop) (inner : fl.stop ≤ q.stop)
      (eq : p = processLocks ⟨B ++ [fl], q, added || q.type == .unlck, some fl.id, none, woken⟩ rest)
  | delete (type : q.type ≠ fl.type) (low : q.start ≤ fl.start) (inner : fl.stop ≤ q.stop)
      (drop : (added || q.type == .unlck) = true)
      (eq : p = processLocks ⟨B, q, true, left, none, woken ++ [fl.id]⟩ rest)
  | replace (type : q.type ≠ fl.type) (low : q.start ≤ fl.start) (inner : fl.stop ≤ q.stop)
      (keep : (added || q.type == .unlck) = false)
      (eq : p = let fl' := { fl with start := q.start, stop := q.stop, type := q.type }
        processLocks ⟨B ++ [fl'], fl', true, left, none, woken ++ [fl.id]⟩ rest)

/-- The pass between two locks: `K` is passed, `G` is left of the owner's locks, and the other owners'
locks stand around them. -/
structure Going (o : ω) (A K G C : List (FileLock ω)) (q : FileLock ω) (left : Option Nat) : Prop where
  tidy : Tidy o (K ++ G)
  passed : Passed q left K
  owner : q.owner = o
  nonneg : 0 ≤ q.start
  le : q.start ≤ q.stop
  limit : q.stop ≤ offsetMax
  nodup : (ids (A ++ (K ++ G) ++ C)).Nodup
  other : ∀ c, C.head? = some c → c.owner ≠ o

/-- A request that succeeds leaves the owner's locks tidy, with given types on the bytes, and the other
owners' locks as they are. -/
def Settles (o : ω) (A C : List (FileLock ω)) (types : Int → LockType → Prop) (out : Outcome ω) : Prop :=
  out.ret = .ok ∧ ∃ M, out.locks = A ++ M ++ C ∧ Tidy o M ∧ ∀ b t, Holds M b t ↔ types b t

section Going

variable {o : ω} {A K G C : List (FileLock ω)} {q : FileLock ω} {left : Option Nat}

section

variable (go : Going o A K G C q left)
include go

theorem Going.tidyK : Tidy o K := (tidy_append.mp go.tidy).1

theorem Going.tidyG : Tidy o G := (tidy_append.mp go.tidy).2.1

theorem Going.below : Below o q K (cutLeft q left K) :=
  go.passed.below go.tidyK go.nonneg go.le go.limit

theorem Going.left_notMem (l : Nat) (hl : left = some l) :
    l ∉ ids A ∧ l ∉ ids G ∧ l ∉ ids C := by
  have mem := go.passed.mem l hl
  have nodup := go.nodup
  simp only [ids_append, nodup_append, mem_append] at nodup
  refine ⟨fun h => ?_, fun h => ?_, fun h => ?_⟩
  · exact nodup.1.2.2 l h l (.inl mem) rfl
  · exact nodup.1.2.1.2.2 l mem l h rfl
  · exact nodup.2.2 l (.inr (.inl mem)) l h rfl

end

variable {g : FileLock ω}

theorem Going.next_notMem (go : Going o A K (g :: G) C q left) :
    g.id ∉ ids A ∧ g.id ∉ ids K ∧ g.id ∉ ids G ∧ g.id ∉ ids C := by
  have nodup := go.nodup
  simp only [ids_append, ids_cons, nodup_append, nodup_cons, mem_append,
    mem_cons] at nodup
  refine ⟨fun h => ?_, fun h => ?_, nodup.1.2.1.2.1.1, fun h => ?_⟩
  · exact nodup.1.2.2 g.id h g.id (.inr (.inl rfl)) rfl
  · exact nodup.1.2.1.2.2 g.id h g.id (.inl rfl) rfl
  · exact nodup.2.2 g.id (.inr (.inr (.inl rfl))) g.id h rfl

theorem Going.head_ne (go : Going o A K G C q left) {p : Pass ω} (h : p.request = q) (c : FileLock ω)
    (hc : C.head? = some c) : c.owner ≠ p.request.owner := by
  rw [h, go.owner]
  exact go.other c hc

section

variable (go : Going o A K (g :: G) C q left)
include go

theorem Going.delete : Going o A K G C q left := by
  have sub : (K ++ G).Sublist (K ++ g :: G) := (sublist_cons_self g G).append_left K
  refine { go with tidy := ?_, nodup := ?_ }
  · exact ⟨fun fl hfl => go.tidy.ok fl (sub.subset hfl), go.tidy.apart.sublist sub⟩
  · exact go.nodup.sublist (((sub.append_left A).append_right C).map _)

theorem Going.pass {left' : Option Nat}
    (passed : Passed q left' (K ++ [g])) : Going o A (K ++ [g]) G C q left' := by
  have same : K ++ [g] ++ G = K ++ g :: G := by simp
  exact { go with tidy := same ▸ go.tidy, passed, nodup := same ▸ go.nodup }

theorem Going.beyond (apart : Apart q g) : Beyond o q (g :: G) (g :: G) := by
  refine beyond_self go.tidyG (fun r hr => ?_) go.le
  rcases mem_cons.mp hr with rfl | hr
  · exact apart
  · have next := ((tidy_cons.mp go.tidyG).2.1 r hr).1
    have own := (go.tidyG.ok g (by simp)).le
    have first := apart.1
    exact ⟨by omega, fun _ => by omega⟩

theorem Going.apart : LockOk o g ∧ (∀ k ∈ K, Apart k g) ∧ ∀ r ∈ G, Apart g r := by
  obtain ⟨ok, apart, -⟩ := tidy_cons.mp go.tidyG
  exact ⟨ok, fun k hk => (tidy_append.mp go.tidy).2.2 k hk g (by simp), apart⟩

theorem Going.loffs : loff (q.start - 1) = q.start - 1 ∧ loff (g.start - 1) = g.start - 1 := by
  obtain ⟨ok, -⟩ := go.apart
  have := go.nonneg
  have := go.le
  have := go.limit
  have := ok.nonneg
  have := ok.le
  have := ok.limit
  exact ⟨loff_eq (by omega) (by omega), loff_eq (by omega) (by omega)⟩

theorem Going.turn [DecidableEq ω] (B : List (FileLock ω)) (added : Bool) (woken : List Nat)
    (rest : List (FileLock ω)) :
    Turn B q g added left woken rest (processLocks ⟨B, q, added, left, none, woken⟩ (g :: rest)) := by
  obtain ⟨ok, -⟩ := go.apart
  obtain ⟨start_eq, gstart_eq⟩ := go.loffs
  have own : ¬q.owner ≠ g.owner := not_not.mpr (go.owner.trans ok.owner.symm)
  by_cases type : q.type = g.type
  · by_cases before : g.stop < q.start - 1
    · exact .skip ⟨by omega, fun _ => by omega⟩ (by simp [processLocks, own, type, start_eq, before])
    by_cases far : q.stop < g.start - 1
    · exact .stop ⟨by omega, fun _ => by omega⟩
        (by simp [processLocks, own, type, start_eq, before, gstart_eq, far])
    have start : (if q.start < g.start then q.start else g.start) = min q.start g.start := by
      split_ifs <;> omega
    have stop : (if g.stop < q.stop then q.stop else g.stop) = max q.stop g.stop := by
      split_ifs <;> omega
    cases added with
    | true =>
      refine .absorb type (by omega) (by omega) rfl ?_
      simp [processLocks, own, type, start_eq, before, gstart_eq, far, start, stop, FileLock.join]
    | false =>
      refine .merge type (by omega) (by omega) rfl ?_
      simp [processLocks, own, type, start_eq, before, gstart_eq, far, start, stop, FileLock.join,
        Int.min_comm q.start, Int.max_comm q.stop]
  · by_cases before : g.stop < q.start
    · exact .skip ⟨before, fun h => absurd h.symm type⟩ (by simp [processLocks, own, type, before])
    by_cases far : q.stop < g.start
    · exact .stop ⟨far, fun h => absurd h type⟩ (by simp [processLocks, own, type, before, far])
    by_cases longer : q.stop < g.stop
    · exact .right type (by omega) longer (by simp [processLocks, own, type, before, far, longer])
    by_cases low : g.start < q.start
    · exact .left type low (by omega) (by omega)
        (by simp [processLocks, own, type, before, far, longer, low, Int.not_le.mpr low])
    have from_start := Int.not_lt.mp low
    cases flags : added || q.type == .unlck with
    | true =>
      refine .delete type from_start (by omega) flags ?_
      simp [processLocks, own, type, before, far, longer, low, from_start, flags]
    | false =>
      refine .replace type from_start (by omega) flags ?_
      simp [processLocks, own, type, before, far, longer, low, from_start, flags]

theorem Going.skip (apart : Apart g q) : Passed q left (K ++ [g]) := by
  have other : left ≠ some g.id := fun h => (go.left_notMem g.id h).2.1 (by simp)
  refine ⟨fun l hl => by simp [go.passed.mem l hl], fun k hk here => ?_, fun k hk here => ?_⟩
  all_goals rcases mem_append.mp hk with hk | hk
  · exact go.passed.cut k hk here
  · obtain rfl := mem_singleton.mp hk
    exact absurd here other
  · exact go.passed.apart k hk here
  · obtain rfl := mem_singleton.mp hk
    exact apart

theorem Going.cut (start : g.start < q.start)
    (inside : q.start ≤ g.stop) (stop : g.stop ≤ q.stop) (type : g.type ≠ q.type) :
    Passed q (some g.id) (K ++ [g]) := by
  obtain ⟨-, apartK, -⟩ := go.apart
  have notK := go.next_notMem.2.1
  refine ⟨fun l hl => by simp [← Option.some.inj hl], fun k hk here => ?_, fun k hk here => ?_⟩
  all_goals rcases mem_append.mp hk with hk | hk
  · exact absurd (Option.some.inj here ▸ mem_map_of_mem hk) notK
  · obtain rfl := mem_singleton.mp hk
    exact ⟨start, inside, stop, type⟩
  · have := (apartK k hk).1
    exact ⟨by omega, fun _ => by omega⟩
  · obtain rfl := mem_singleton.mp hk
    exact absurd rfl here

end

theorem Going.replace (go : Going o A K G C q left) (owner : g.owner = o) :
    Going o A K G C { g with start := q.start, stop := q.stop, type := q.type } left :=
  { go with owner, passed := ⟨go.passed.mem, go.passed.cut, go.passed.apart⟩ }

theorem Going.join {g q' : FileLock ω} (go : Going o A K (g :: G) C q left) (same : q.type = g.type)
    (owner : q'.owner = o) (type : q'.type = q.type) (start : q'.start = min q.start g.start)
    (stop : q'.stop = max q.stop g.stop) : Going o A K G C q' left where
  tidy := go.delete.tidy
  passed := by
    obtain ⟨ok, apartK, -⟩ := go.apart
    refine ⟨go.passed.mem, fun k hk here => ?_, fun k hk other => ?_⟩
    · obtain ⟨lt, ge, le, ne⟩ := go.passed.cut k hk here
      have := (apartK k hk).1
      exact ⟨by omega, by omega, by omega, type ▸ ne⟩
    · obtain ⟨lt, gap⟩ := go.passed.apart k hk other
      obtain ⟨lt', gap'⟩ := apartK k hk
      refine ⟨by omega, fun h => ?_⟩
      have := gap (h.trans type)
      have := gap' ((h.trans type).trans same)
      omega
  owner := owner
  nonneg := by
    have := go.apart.1.nonneg
    have := go.nonneg
    omega
  le := by
    have := go.le
    omega
  limit := by
    have := go.apart.1.limit
    have := go.limit
    omega
  nodup := go.delete.nodup
  other := go.other

end Going

section Finish

variable {newFl2 left right : Option Nat} (apart : left = right → right = none)
include apart

theorem not_split : (right.isSome && left = right && newFl2.isNone) = false := by
  by_cases same : left = right
  · simp [apart same]
  · simp [same]

theorem splitAndTrim_eq {before rest : List (FileLock ω)} {q : FileLock ω} {added : Bool} {woken : List Nat} :
    splitAndTrim newFl2 ⟨before, q, added, left, right, woken⟩ rest = trim q left right woken (before ++ rest) := by
  unfold splitAndTrim
  split
  · next right =>
      rw [if_neg]
      intro same
      rw [apart same] at right
      cases right
  · rfl

end Finish

section Phases

variable {exist : Bool} {newFl newFl2 left right : Option Nat} {o : ω} {A K G C M : List (FileLock ω)}
    {q g : FileLock ω}

theorem Tidy.covers (tidy : Tidy o (K ++ g :: G)) {b : Int} (cover : Covers g b)
    (t : LockType) : ¬Holds K b t ∧ ¬Holds G b t := by
  obtain ⟨-, tidyG, cross⟩ := tidy_append.mp tidy
  obtain ⟨-, apart, -⟩ := tidy_cons.mp tidyG
  constructor
  · rintro ⟨k, hk, -, h⟩
    have := (cross k hk g (by simp)).1
    have := h.2
    have := cover.1
    omega
  · rintro ⟨r, hr, -, h⟩
    have := (apart r hr).1
    have := h.1
    have := cover.2
    omega

theorem over_join {q' : FileLock ω} (tidy : Tidy o (K ++ g :: G))
    (start : q'.start = min q.start g.start) (stop : q'.stop = max q.stop g.stop) (type : q'.type = q.type)
    (same : q.type = g.type) (touch : g.start ≤ q.stop + 1) (touch' : q.start ≤ g.stop + 1) :
    Over q (K ++ g :: G) = Over q' (K ++ G) := by
  have ok : LockOk o g := tidy.ok g (by simp)
  have lock : q.type ≠ .unlck := same ▸ ok.type
  ext b t
  have covers : Covers q' b ↔ Covers q b ∨ Covers g b := by
    unfold Covers
    omega
  unfold Over
  simp only [holds_append, holds_cons, covers, type, ← same]
  by_cases hq : Covers q b
  · simp [hq]
  by_cases hg : Covers g b
  · obtain ⟨hK, hG⟩ := tidy.covers hg t
    simp only [hq, hg, hK, hG, true_and, not_true, false_and, or_false, and_true,
      not_false_eq_true, false_or]
    constructor
    · rintro rfl
      exact ⟨rfl, lock⟩
    · rintro ⟨rfl, -⟩
      rfl
  · simp [hg]

theorem over_inner (start : q.start ≤ g.start) (stop : g.stop ≤ q.stop) : Over q (K ++ g :: G) = Over q (K ++ G) := by
  ext b t
  have inside : Covers g b → Covers q b := fun h =>
    ⟨Int.le_trans start h.1, Int.le_trans h.2 stop⟩
  unfold Over
  by_cases hq : Covers q b
  · simp [hq]
  · have hg : ¬Covers g b := fun h => hq (inside h)
    simp [hg]

/-- Where a pass stops: the lock to be cut on the right side is in the rest, and the cut leaves what is beyond. -/
structure Stops (o : ω) (A K G C : List (FileLock ω)) (q : FileLock ω) (right : Option Nat) : Prop where
  notMem : ∀ r, right = some r → r ∉ ids A ∧ r ∉ ids K ∧ r ∈ ids G ∧ r ∉ ids C
  beyond : Beyond o q G (cutRight q right G)

theorem stops_of_beyond (beyond : Beyond o q G G) : Stops o A K G C q none := ⟨nofun, beyond⟩

theorem Going.stops_nil (go : Going o A K [] C q left) : Stops o A K [] C q none :=
  stops_of_beyond (beyond_self tidy_nil (by simp) go.le)

theorem Going.stops_cut (go : Going o A K (g :: G) C q left) (start : q.start ≤ g.start) (overlap : g.start ≤ q.stop)
    (longer : q.stop < g.stop) (type : q.type ≠ g.type) : Stops o A K (g :: G) C q (some g.id) := by
  obtain ⟨notA, notK, notG, notC⟩ := go.next_notMem
  refine ⟨?_, ?_⟩
  · rintro r ⟨⟩
    exact ⟨notA, notK, by simp, notC⟩
  · rw [cutRight_cons notG]
    exact beyond_cut go.tidyG go.nonneg go.le start overlap longer type

theorem settle_trim (go : Going o A K G C q left) (middle : Middle o q M)
    (new : ∀ i ∈ ids M, i ∉ ids K ∧ i ∉ ids G) {woken : List Nat} (stops : Stops o A K G C q right) :
    Settles o A C (Over q (K ++ G)) (trim q left right woken (A ++ K ++ M ++ G ++ C)) := by
  obtain ⟨tidy, holds⟩ := middle.tidy go.below stops.beyond go.le
  refine ⟨rfl, _, ?_, tidy, holds⟩
  rw [trim_locks]
  · intro l hl
    obtain ⟨hA, hG, hC⟩ := go.left_notMem l hl
    exact ⟨hA, fun h => (new l h).1 (go.passed.mem l hl), hG, hC⟩
  · intro r h
    obtain ⟨hA, hK, hG, hC⟩ := stops.notMem r h
    exact ⟨hA, hK, fun h => (new r h).2 hG, hC⟩

theorem Going.left_ne_right (go : Going o A K G C q left) (stops : Stops o A K G C q right) (same : left = right) :
    right = none := by
  cases right with
  | none => rfl
  | some r => exact absurd (go.passed.mem r same) (stops.notMem r rfl).2.1

def FileLock.placed (q : FileLock ω) : List (FileLock ω) := if q.type = .unlck then [] else [q]

theorem Going.middle (go : Going o A K G C q left) : Middle o q q.placed := by
  unfold FileLock.placed
  split_ifs with unlck
  · exact .unlock unlck
  · exact .lock ⟨go.owner, unlck, go.nonneg, go.le, go.limit⟩ rfl rfl rfl

theorem settle_end (go : Going o A K G C q left) (new : ∀ i ∈ ids q.placed, i ∉ ids (A ++ (K ++ G) ++ C))
    (woken : List Nat) (stops : Stops o A K G C q right) : Settles o A C (Over q (K ++ G))
      (finish exist newFl newFl2 (⟨A ++ K ++ q.placed, q, true, left, right, woken⟩, G ++ C)) := by
  have apart := go.left_ne_right stops
  simp only [finish, not_split apart, splitAndTrim_eq apart, ← append_assoc, if_true]
  refine settle_trim go go.middle (fun i hi => ?_) stops
  exact ⟨fun h => new i hi (by simp [h]), fun h => new i hi (by simp [h])⟩

/-- A request that fails leaves the list as it was and wakes nobody. -/
def Refuses (locks : List (FileLock ω)) (out : Outcome ω) : Prop :=
  out.ret ≠ .ok ∧ out.locks = locks ∧ out.woken = []

def Answers (o : ω) (A M C : List (FileLock ω)) (q : FileLock ω) (out : Outcome ω) : Prop :=
  Refuses (A ++ M ++ C) out ∨ Settles o A C (Over q M) out

structure Fresh (newFl newFl2 : Option Nat) (locks : List (FileLock ω)) : Prop where
  first : ∀ id, newFl = some id → id ∉ ids locks
  second : ∀ id, newFl2 = some id → id ∉ ids locks
  distinct : ∀ id, newFl = some id → newFl2 ≠ some id

/-- A lock around the whole range is broken in two, the first part under the address `id`. -/
theorem settle_split (go : Going o A K (g :: G) C q left) {M : List (FileLock ω)}
    (middle : Middle o q M) (start : g.start < q.start) (stop : q.stop < g.stop)
    (type : q.type ≠ g.type) {id : Nat} (new : id ∉ ids (A ++ (K ++ g :: G) ++ C)) (newM : id ∉ ids M)
    (gM : g.id ∉ ids M) {added : Bool} : Settles o A C (Over q (K ++ g :: G))
      (splitAndTrim (some id) ⟨A ++ K, q, added, some g.id, some g.id, []⟩ (M ++ g :: (G ++ C))) := by
  have found : ((M ++ g :: (G ++ C)).find? fun fl => fl.id = g.id) = some g := by
    have none : (M.find? fun fl => fl.id = g.id) = none :=
      find?_eq_none.mpr fun fl hfl eq => gM (of_decide_eq_true eq ▸ mem_map_of_mem hfl)
    rw [find?_append, none, Option.none_or, find?_cons_of_pos (by simp)]
  have locks : A ++ K ++ [{ g with id }] ++ (M ++ g :: (G ++ C)) =
      A ++ (K ++ [{ g with id }]) ++ M ++ (g :: G) ++ C := by
    simp
  simp only [splitAndTrim, if_true, found, Option.map_some, Option.toList_some, locks]
  obtain ⟨ok, apartK, apartG⟩ := go.apart
  obtain ⟨notA, notK, notG, notC⟩ := go.next_notMem
  have le := go.le
  have nonneg := go.nonneg
  have limit := ok.limit
  have start_eq : loff (q.start - 1) = q.start - 1 := loff_eq (by omega) (by omega)
  have stop_eq : loff (q.stop + 1) = q.stop + 1 := loff_eq (by omega) (by omega)
  have newK : id ∉ ids K ∧ id ∉ ids A ∧ id ≠ g.id ∧ id ∉ ids G ∧ id ∉ ids C := by
    simp at new
    tauto
  have below : Below o q (K ++ [{ g with id, stop := q.start - 1 }])
      (K ++ [{ g with id, stop := q.start - 1 }]) := by
    refine below_self (tidy_append.mpr ⟨go.tidyK, tidy_cons.mpr ⟨?_, by simp, tidy_nil⟩, ?_⟩) ?_ le
    · exact ⟨ok.owner, ok.type, ok.nonneg, by simp only; omega, by simp only; omega⟩
    · intro k hk b hb
      obtain rfl := mem_singleton.mp hb
      exact apartK k hk
    · intro k hk
      rcases mem_append.mp hk with hk | hk
      · have := (apartK k hk).1
        exact ⟨by omega, fun _ => by omega⟩
      · obtain rfl := mem_singleton.mp hk
        exact ⟨by simp only; omega, fun h => absurd h.symm type⟩
  have beyond : Beyond o q ({ g with start := q.stop + 1 } :: G)
      ({ g with start := q.stop + 1 } :: G) := by
    refine beyond_self (tidy_cons.mpr ⟨?_, apartG, (tidy_cons.mp go.tidyG).2.2⟩) ?_ le
    · exact ⟨ok.owner, ok.type, by simp only; omega, by simp only; omega, limit⟩
    · intro r hr
      rcases mem_cons.mp hr with rfl | hr
      · exact ⟨by simp only; omega, fun h => absurd h type⟩
      · have := (apartG r hr).1
        exact ⟨by omega, fun _ => by omega⟩
  obtain ⟨tidy, holds⟩ := middle.tidy below beyond le
  refine ⟨rfl, _, ?_, tidy, fun b t => (holds b t).trans ?_⟩
  · rw [trim_locks, cutRight_cons notG, cutLeft_append, cutLeft_of_notMem, stop_eq]
    · simp [cutLeft, modify, start_eq]
    · rintro l ⟨⟩
      exact newK.1
    · rintro l ⟨⟩
      exact ⟨newK.2.1, newM, by simp [newK], newK.2.2.2.2⟩
    · rintro r ⟨⟩
      exact ⟨notA, by simp [notK, newK.2.2.1.symm], gM, notC⟩
  · -- the parts that were cut off lie in the range
    unfold Over
    simp only [holds_append, holds_cons, holds_nil, or_false]
    refine or_congr_right (and_congr_right fun out => ?_)
    unfold Covers at *
    simp only
    constructor
    · rintro ((h | ⟨h, ge, le⟩) | ⟨h, ge, le⟩ | h)
      · exact .inl h
      · exact .inr (.inl ⟨h, ge, by omega⟩)
      · exact .inr (.inl ⟨h, by omega, le⟩)
      · exact .inr (.inr h)
    · rintro (h | ⟨h, ge, le⟩ | h)
      · exact .inl (.inl h)
      · by_cases low : b < q.start
        · exact .inl (.inr ⟨h, ge, by omega⟩)
        · exact .inr (.inl ⟨h, by omega, le⟩)
      · exact .inr (.inr h)

theorem settle_new (go : Going o A K G C q left) (lock : q.type ≠ .unlck)
    (fresh : Fresh newFl newFl2 (A ++ (K ++ G) ++ C)) (stops : Stops o A K G C q right) :
    Answers o A (K ++ G) C q (finish exist newFl newFl2 (⟨A ++ K, q, false, left, right, []⟩, G ++ C)) := by
  have apart := go.left_ne_right stops
  simp only [finish, not_split apart, lock]
  cases hnew : newFl with
  | none => exact .inl ⟨by simp, by simp, rfl⟩
  | some id =>
    have ok : LockOk o { q with id } := ⟨go.owner, lock, go.nonneg, go.le, go.limit⟩
    right
    have locks : A ++ K ++ { q with id } :: (G ++ C) = A ++ K ++ [{ q with id }] ++ G ++ C := by simp
    simp only [splitAndTrim_eq apart, locks]
    refine settle_trim go (.lock ok rfl rfl rfl) (fun i hi => ?_) stops
    obtain rfl : i = id := by simpa using hi
    have := fresh.first i hnew
    simp at this
    tauto

theorem settle_break (go : Going o A K (g :: G) C q left) (fresh : Fresh newFl newFl2 (A ++ (K ++ g :: G) ++ C))
    (start : g.start < q.start) (stop : q.stop < g.stop) (type : q.type ≠ g.type) : Answers o A (K ++ g :: G) C q
      (finish exist newFl newFl2 (⟨A ++ K, q, q.type == .unlck, some g.id, some g.id, []⟩, g :: (G ++ C))) := by
  cases hnew2 : newFl2 with
  | none => exact .inl ⟨by simp [finish], by simp [finish], by simp [finish]⟩
  | some id2 =>
    have new2 := fresh.second id2 hnew2
    by_cases unlck : q.type = .unlck
    · right
      simp only [finish, unlck, beq_self_eq_true]
      exact settle_split go (.unlock unlck) start stop type new2 (by simp) (by simp)
    cases hnew : newFl with
    | none => exact .inl (by simp [finish, unlck, Refuses])
    | some id =>
      have ok : LockOk o { q with id } := ⟨go.owner, unlck, go.nonneg, go.le, go.limit⟩
      have distinct : id2 ≠ id := fun h => fresh.distinct id hnew (by rw [hnew2, h])
      have ne : ¬id = g.id := fun h => fresh.first id hnew (by simp [h])
      right
      simp only [finish, beq_false_of_ne unlck, unlck]
      refine settle_split go (.lock ok rfl rfl rfl) start stop type new2 ?_ ?_
      · simpa using distinct
      · simpa using Ne.symm ne

theorem settle_stop (go : Going o A K G C q left) (unlock : q.type = .unlck → left = none)
    (fresh : Fresh newFl newFl2 (A ++ (K ++ G) ++ C)) (beyond : Beyond o q G G) :
    Answers o A (K ++ G) C q (finish exist newFl newFl2 (⟨A ++ K, q, false, left, none, []⟩, G ++ C)) := by
  by_cases unlck : q.type = .unlck
  · obtain rfl := unlock unlck
    have out : finish exist newFl newFl2 (⟨A ++ K, q, false, none, none, []⟩, G ++ C) =
        ⟨if exist then .enoent else .ok, A ++ (K ++ G) ++ C, []⟩ := by simp [finish, unlck]
    rw [out]
    cases exist with
    | true => exact .inl ⟨by simp, rfl, rfl⟩
    | false =>
      obtain ⟨tidy, holds⟩ := (Middle.unlock unlck).tidy go.below beyond go.le
      rw [append_nil] at tidy holds
      exact .inr ⟨rfl, K ++ G, rfl, tidy, holds⟩
  · exact settle_new go unlck fresh (stops_of_beyond beyond)

variable [DecidableEq ω]

/-- The pass once the request has changed something: what follows is joined to it, removed or cut. -/
theorem settle_added (go : Going o A K G C q left) (new : ∀ i ∈ ids q.placed, i ∉ ids (A ++ (K ++ G) ++ C))
    (after : ∀ g ∈ G, q.start ≤ g.start) (woken : List Nat) : Settles o A C (Over q (K ++ G))
      (finish exist newFl newFl2 (processLocks ⟨A ++ K ++ q.placed, q, true, left, none, woken⟩ (G ++ C))) := by
  induction G generalizing q woken with
  | nil =>
    rw [nil_append, processLocks_other (go.head_ne rfl)]
    exact settle_end go new woken go.stops_nil
  | cons g G ih =>
    obtain ⟨ok, -, apartG⟩ := go.apart
    have from_q : q.start ≤ g.start := after g (by simp)
    have behind : ∀ r ∈ G, q.start ≤ r.start := fun r hr => after r (by simp [hr])
    rw [cons_append]
    cases go.turn (A ++ K ++ q.placed) true woken (G ++ C) with
    | skip apart =>
      have := apart.1
      have := ok.le
      omega
    | stop apart eq =>
      rw [eq]
      exact settle_end go new woken (stops_of_beyond (go.beyond apart))
    | merge type touch touch' new => cases new
    | absorb type touch touch' old eq =>
      have lock : q.type ≠ .unlck := type ▸ ok.type
      have placed : q.placed = [q] := if_neg lock
      have placed' : (q.join g).placed = [q.join g] := if_neg lock
      rw [placed] at new eq ⊢
      have notMem : q.id ∉ ids (A ++ (K ++ g :: G) ++ C) := new q.id (by simp)
      have here : modify q.id (fun _ => q.join g) (A ++ K ++ [q]) = A ++ K ++ (q.join g).placed := by
        rw [placed', modify_append, modify_of_notMem fun h => notMem (by simp at h ⊢; tauto)]
        simp [modify]
      rw [eq, here, @over_join ω o K G q g (q.join g) go.tidy rfl rfl rfl type touch touch']
      have joined : Going o A K G C (q.join g) left := go.join type go.owner rfl rfl rfl
      refine ih joined (fun i hi h => notMem ?_) (fun r hr => ?_) _
      · rw [placed'] at hi
        obtain rfl : i = q.id := by simpa [FileLock.join] using hi
        simp at h ⊢
        tauto
      · have := behind r hr
        simp only [FileLock.join]
        omega
    | right type overlap longer eq =>
      rw [eq, if_neg (Int.not_lt.mpr from_q)]
      exact settle_end go new woken (go.stops_cut from_q overlap longer type)
    | left type low => omega
    | delete type low inner drop eq =>
      rw [eq, over_inner from_q inner]
      exact ih go.delete (fun i hi h => new i hi (by simp at h ⊢; tauto)) behind _
    | replace type low inner keep => cases keep

theorem settle_in_list (go : Going o A K G C q left) (lock : q.type ≠ .unlck)
    (new : q.id ∉ ids (A ++ (K ++ G) ++ C)) (after : ∀ g ∈ G, q.start ≤ g.start) (woken : List Nat) :
    Settles o A C (Over q (K ++ G))
      (finish exist newFl newFl2 (processLocks ⟨A ++ K ++ [q], q, true, left, none, woken⟩ (G ++ C))) := by
  have placed : q.placed = [q] := if_neg lock
  rw [← placed]
  refine settle_added go (fun i hi => ?_) after woken
  obtain rfl : i = q.id := by simpa [placed] using hi
  exact new

/-- The pass until the request changes something. A request to unlock changes the first lock that it meets. -/
theorem settle_request (go : Going o A K G C q left) (unlock : q.type = .unlck → left = none)
    (fresh : Fresh newFl newFl2 (A ++ (K ++ G) ++ C)) : Answers o A (K ++ G) C q
      (finish exist newFl newFl2 (processLocks ⟨A ++ K, q, false, left, none, []⟩ (G ++ C))) := by
  induction G generalizing K left with
  | nil =>
    rw [nil_append, processLocks_other (go.head_ne rfl)]
    exact settle_stop go unlock fresh go.stops_nil.beyond
  | cons g G ih =>
    obtain ⟨ok, -, apartG⟩ := go.apart
    obtain ⟨notA, notK, notG, notC⟩ := go.next_notMem
    -- the next lock stays in front
    have pass : ∀ left', Passed q left' (K ++ [g]) → (q.type = .unlck → left' = none) →
        Answers o A (K ++ g :: G) C q (finish exist newFl newFl2
          (processLocks ⟨A ++ K ++ [g], q, false, left', none, []⟩ (G ++ C))) := by
      intro left' passed unlock'
      have := ih (go.pass passed) unlock' (by simpa using fresh)
      simpa using this
    -- behind a lock that reaches the range nothing starts in front of it
    have behind : q.start ≤ g.stop + 1 → ∀ r ∈ G, q.start ≤ r.start := by
      intro inside r hr
      have := (apartG r hr).1
      omega
    have placed : q.type = .unlck → q.placed = [] := fun h => if_pos h
    rw [cons_append]
    cases go.turn (A ++ K) false [] (G ++ C) with
    | skip apart eq =>
      rw [eq]
      exact pass left (go.skip apart) unlock
    | stop apart eq =>
      rw [eq]
      exact settle_stop go unlock fresh (go.beyond apart)
    | merge type touch touch' new eq =>
      have joined : Going o A K G C (g.join q) left :=
        go.join type ok.owner type.symm (Int.min_comm _ _) (Int.max_comm _ _)
      right
      rw [eq, @over_join ω o K G q g (g.join q) go.tidy (Int.min_comm _ _) (Int.max_comm _ _) type.symm type touch
        touch']
      refine settle_in_list joined ok.type ?_ (fun r hr => ?_) []
      · simp [FileLock.join, notA, notK, notG, notC]
      · have := behind touch' r hr
        simp only [FileLock.join]
        omega
    | absorb type touch touch' old => cases old
    | right type overlap longer eq =>
      rw [eq, Bool.false_or]
      split_ifs with low
      · exact settle_break go fresh low longer type
      have stops := go.stops_cut (by omega) overlap longer type
      by_cases unlck : q.type = .unlck
      · right
        simpa [placed unlck, unlck] using settle_end go (by simp [placed unlck]) [] stops
      · rw [beq_false_of_ne unlck]
        exact settle_new go unlck fresh stops
    | left type low inside inner eq =>
      have passed := go.cut low inside inner type.symm
      rw [eq, Bool.false_or]
      by_cases unlck : q.type = .unlck
      · right
        simpa [placed unlck, unlck] using settle_added (go.pass passed) (by simp [placed unlck])
          (behind (by omega)) []
      · rw [beq_false_of_ne unlck]
        exact pass (some g.id) passed fun h => absurd h unlck
    | delete type low inner drop eq =>
      right
      rw [eq, over_inner low inner]
      have := ok.le
      have unlck := placed (by simpa using drop)
      simpa [unlck] using settle_added go.delete (by simp [unlck]) (behind (by omega)) [g.id]
    | replace type low inner keep eq =>
      right
      rw [eq, over_inner low inner]
      refine settle_in_list (go.delete.replace ok.owner) (by simpa using keep) ?_ (behind ?_) [g.id]
      · simp [notA, notK, notG, notC]
      · have := ok.le
        omega

end Phases

end PosixLock
