/- Loops with a bound on their iterations, and the rule for total correctness. -/
import Mathlib.Order.Basic

namespace Loop

variable {σ α : Type*} {body : σ → σ ⊕ α}

/-- Runs the body until it leaves the loop with a result; the number bounds the iterations. -/
def run (body : σ → σ ⊕ α) : Nat → σ → Option α
  | 0, _ => none
  | n + 1, s =>
    match body s with
    | .inl s' => run body n s'
    | .inr a => some a

variable {s : σ} {n : Nat}

theorem run_mono {m : Nat} {a : α} (h : n ≤ m) (h' : run body n s = some a) : run body m s = some a := by
  induction n generalizing m s with
  | zero => cases h'
  | succ n ih =>
    cases m with
    | zero => cases h
    | succ m =>
      rw [run] at h' ⊢
      split at h'
      · exact ih (Nat.le_of_succ_le_succ h) h'
      · exact h'

/-- An invariant with a bound that each further iteration lowers. -/
theorem run_total (body : σ → σ ⊕ α) (Inv : Nat → σ → Prop) (Post : α → Prop)
    (keep : ∀ k s, Inv k s → (∃ j s', body s = .inl s' ∧ j < k ∧ Inv j s') ∨ ∃ a, body s = .inr a ∧ Post a)
    {k : Nat} (h : Inv k s) (hn : k < n) : ∃ a, run body n s = some a ∧ Post a := by
  induction n generalizing k s with
  | zero => cases hn
  | succ n ih =>
    rcases keep k s h with ⟨j, s', next, less, h'⟩ | ⟨a, leave, post⟩
    · obtain ⟨a, run', post⟩ := ih h' (Nat.lt_of_lt_of_le less (Nat.le_of_lt_succ hn))
      exact ⟨a, by rw [run, next]; exact run', post⟩
    · exact ⟨a, by rw [run, leave], post⟩

/-- What every iteration keeps and every way out of the loop gives. -/
theorem run_post (Inv : σ → Prop) (Post : α → Prop) (keep : ∀ s, Inv s → (body s).elim Inv Post)
    {a : α} (h : Inv s) (h' : run body n s = some a) : Post a := by
  induction n generalizing s with
  | zero => cases h'
  | succ n ih =>
    have kept := keep s h
    rw [run] at h'
    cases turn : body s with
    | inl s' =>
      rw [turn] at h' kept
      exact ih kept h'
    | inr b =>
      rw [turn] at h' kept
      exact Option.some.inj h' ▸ kept

theorem run_unique {m : Nat} {a b : α} (h : run body n s = some a) (h' : run body m s = some b) : a = b :=
  Option.some.inj ((run_mono (Nat.le_max_left n m) h).symm.trans (run_mono (Nat.le_max_right n m) h'))

/-- With a large enough bound there is a result, the same one for every bound, and `Q` holds for it. -/
def Settles (f : Nat → Option α) (Q : α → Prop) : Prop :=
  ∃ k a, Q a ∧ (∀ n ≥ k, f n = some a) ∧ ∀ n b, f n = some b → b = a

section Settles

variable {f : Nat → Option α} {Q : α → Prop} (h : Settles f Q)
include h

theorem Settles.returns : ∃ k, ∀ n ≥ k, ∃ a, f n = some a := by
  obtain ⟨k, a, -, run, -⟩ := h
  exact ⟨k, fun n hn => ⟨a, run n hn⟩⟩

theorem Settles.post {b : α} (h' : f n = some b) : Q b := by
  obtain ⟨-, a, post, -, same⟩ := h
  rwa [same n b h']

theorem Settles.map {β : Type*} {g : α → β} {Q' : β → Prop} (imp : ∀ a, Q a → Q' (g a)) :
    Settles (fun n => (f n).map g) Q' := by
  obtain ⟨k, a, post, run, same⟩ := h
  refine ⟨k, g a, imp a post, fun n hn => congrArg (Option.map g) (run n hn), fun n b h' => ?_⟩
  obtain ⟨a', run', rfl⟩ := Option.map_eq_some_iff.mp h'
  rw [same n a' run']

end Settles

/-- A loop whose states go down in a well-founded order ends. -/
theorem run_settles {r : σ → σ → Prop} (wf : WellFounded r) (Inv : σ → Prop) (Post : α → Prop)
    (keep : ∀ s, Inv s → (body s).elim (fun s' => Inv s' ∧ r s' s) Post) (h : Inv s) :
    Settles (fun n => run body n s) Post := by
  have ends : ∃ n a, run body n s = some a ∧ Post a := by
    induction s using wf.induction with
    | _ s ih =>
      have kept := keep s h
      cases turn : body s with
      | inl s' =>
        rw [turn] at kept
        obtain ⟨n, a, run', post⟩ := ih s' kept.2 kept.1
        exact ⟨n + 1, a, by rw [run, turn]; exact run', post⟩
      | inr a =>
        rw [turn] at kept
        exact ⟨1, a, by rw [run, turn], kept⟩
  obtain ⟨k, a, run', post⟩ := ends
  exact ⟨k, a, post, fun n hn => run_mono hn run', fun n b h' => run_unique h' run'⟩

/-- Two loops that stay related and leave together with related results. -/
theorem run_related {τ β : Type*} {body' : τ → τ ⊕ β} (R : σ → τ → Prop) (Q : α → β → Prop)
    (keep : ∀ s t, R s t → (∃ s' t', body s = .inl s' ∧ body' t = .inl t' ∧ R s' t') ∨
      ∃ a b, body s = .inr a ∧ body' t = .inr b ∧ Q a b)
    {t : τ} (h : R s t) (n : Nat) : Option.Rel Q (run body n s) (run body' n t) := by
  induction n generalizing s t with
  | zero => exact .none
  | succ n ih =>
    rw [run, run]
    rcases keep s t h with ⟨s', t', next, next', h'⟩ | ⟨a, b, leave, leave', q⟩
    · rw [next, next']
      exact ih h'
    · rw [leave, leave']
      exact .some q

end Loop
