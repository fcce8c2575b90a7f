/- Elements kept in lists, each of them in one place. -/
import Mathlib.Data.List.Nodup
import Mathlib.Logic.Function.Basic

namespace Buckets

open Function

variable {κ τ : Type*} {vec : κ → List τ} {extra rest : List τ} {live : τ → Prop} {k : κ} {t : τ}

/-- The live elements are in the buckets or in one more list, each once. -/
structure Once (vec : κ → List τ) (extra : List τ) (live : τ → Prop) : Prop where
  nodup : ∀ k, (vec k).Nodup
  apart : ∀ j k t, t ∈ vec j → t ∈ vec k → j = k
  extra_nodup : extra.Nodup
  extra_apart : ∀ k t, t ∈ extra → t ∉ vec k
  mem : ∀ t, live t ↔ t ∈ extra ∨ ∃ k, t ∈ vec k

theorem Once.notMem (once : Once vec extra live) (dead : ¬live t) : t ∉ extra ∧ ∀ k, t ∉ vec k := by
  rw [once.mem] at dead
  exact ⟨fun h => dead (.inl h), fun k h => dead (.inr ⟨k, h⟩)⟩

theorem Once.congr {live' : τ → Prop} (once : Once vec extra live) (same : ∀ t, live' t ↔ live t) :
    Once vec extra live' :=
  ⟨once.nodup, once.apart, once.extra_nodup, once.extra_apart, fun t => (same t).trans (once.mem t)⟩

theorem Once.drop (once : Once vec (t :: rest) live) : Once vec rest fun x => live x ∧ x ≠ t := by
  obtain ⟨first, nodup⟩ := List.nodup_cons.mp once.extra_nodup
  constructor
  · exact once.nodup
  · exact once.apart
  · exact nodup
  · exact fun k x hx => once.extra_apart k x (List.mem_cons_of_mem t hx)
  · intro x
    rw [once.mem]
    constructor
    · rintro ⟨h | h, ne⟩
      · exact .inl ((List.mem_cons.mp h).resolve_left ne)
      · exact .inr h
    · rintro (h | ⟨k, h⟩)
      · exact ⟨.inl (List.mem_cons_of_mem t h), fun eq => first (eq ▸ h)⟩
      · exact ⟨.inr ⟨k, h⟩, fun eq => once.extra_apart k t (by simp) (eq ▸ h)⟩

theorem Once.erase [DecidableEq τ] (once : Once vec extra live) (t : τ) :
    Once (fun k => (vec k).erase t) (extra.erase t) fun x => live x ∧ x ≠ t := by
  constructor
  · exact fun k => (once.nodup k).erase t
  · exact fun j k x hj hk => once.apart j k x (List.mem_of_mem_erase hj) (List.mem_of_mem_erase hk)
  · exact once.extra_nodup.erase t
  · exact fun k x hx h => once.extra_apart k x (List.mem_of_mem_erase hx) (List.mem_of_mem_erase h)
  · intro x
    rw [once.mem]
    simp only [once.extra_nodup.mem_erase_iff, (once.nodup _).mem_erase_iff]
    constructor
    · rintro ⟨h | ⟨k, h⟩, ne⟩
      · exact .inl ⟨ne, h⟩
      · exact .inr ⟨k, ne, h⟩
    · rintro (⟨ne, h⟩ | ⟨k, ne, h⟩)
      · exact ⟨.inl h, ne⟩
      · exact ⟨.inr ⟨k, h⟩, ne⟩

variable [DecidableEq κ]

theorem mem_push {j : κ} {x : τ} : x ∈ update vec k (vec k ++ [t]) j ↔ x ∈ vec j ∨ (j = k ∧ x = t) := by
  by_cases here : j = k
  · subst here
    simp
  · simp [here]

theorem Once.push (once : Once vec extra live) (dead : ¬live t) (k : κ) :
    Once (update vec k (vec k ++ [t])) extra fun x => live x ∨ x = t := by
  obtain ⟨notExtra, notVec⟩ := once.notMem dead
  constructor
  · intro j
    by_cases here : j = k
    · subst here
      rw [update_self, List.nodup_append]
      refine ⟨once.nodup j, List.nodup_singleton t, ?_⟩
      rintro a ha b hb rfl
      exact notVec j (List.mem_singleton.mp hb ▸ ha)
    · rw [update_of_ne here]
      exact once.nodup j
  · intro i j x hi hj
    rcases mem_push.mp hi with old | ⟨rfl, rfl⟩
    · rcases mem_push.mp hj with old' | ⟨rfl, rfl⟩
      · exact once.apart i j x old old'
      · exact absurd old (notVec i)
    · rcases mem_push.mp hj with old' | ⟨rfl, -⟩
      · exact absurd old' (notVec j)
      · rfl
  · exact once.extra_nodup
  · intro j x hx h
    rcases mem_push.mp h with h | ⟨-, rfl⟩
    · exact once.extra_apart j x hx h
    · exact notExtra hx
  · intro x
    rw [once.mem]
    simp only [mem_push]
    constructor
    · rintro ((h | ⟨j, h⟩) | rfl)
      · exact .inl h
      · exact .inr ⟨j, .inl h⟩
      · exact .inr ⟨k, .inr ⟨rfl, rfl⟩⟩
    · rintro (h | ⟨j, h | ⟨-, rfl⟩⟩)
      · exact .inl (.inl h)
      · exact .inl (.inr ⟨j, h⟩)
      · exact .inr rfl

theorem Once.requeue (once : Once vec (t :: rest) live) (k : κ) : Once (update vec k (vec k ++ [t])) rest live := by
  have alive : live t := (once.mem t).mpr (.inl (by simp))
  apply (once.drop.push (fun h => h.2 rfl) k).congr
  intro x
  constructor
  · intro h
    by_cases eq : x = t
    · exact .inr eq
    · exact .inl ⟨h, eq⟩
  · rintro (h | rfl)
    · exact h.1
    · exact alive

theorem Once.take (once : Once vec [] live) (k : κ) : Once (update vec k []) (vec k) live := by
  have sub : ∀ j x, x ∈ update vec k [] j ↔ j ≠ k ∧ x ∈ vec j := by
    intro j x
    by_cases here : j = k
    · subst here
      simp
    · simp [here]
  constructor
  · intro j
    by_cases here : j = k
    · subst here
      simp
    · rw [update_of_ne here]
      exact once.nodup j
  · exact fun i j x hi hj => once.apart i j x ((sub i x).mp hi).2 ((sub j x).mp hj).2
  · exact once.nodup k
  · intro j x hx h
    exact ((sub j x).mp h).1 (once.apart j k x ((sub j x).mp h).2 hx)
  · intro x
    rw [once.mem]
    simp only [sub]
    constructor
    · rintro (h | ⟨j, h⟩)
      · cases h
      · by_cases here : j = k
        · exact .inl (here ▸ h)
        · exact .inr ⟨j, here, h⟩
    · rintro (h | ⟨j, -, h⟩)
      · exact .inr ⟨k, h⟩
      · exact .inr ⟨j, h⟩

end Buckets
