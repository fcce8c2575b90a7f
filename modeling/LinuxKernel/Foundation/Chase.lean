/- Following a partial function for a bounded number of hops, and edges added to acyclic relations. -/
import Mathlib.Data.List.Nodup
import Mathlib.Data.List.Perm.Subperm
import Mathlib.Logic.Relation

namespace Chase

open Relation

variable {α : Type*}

section Edge

variable {R : α → α → Prop} {a b : α}

def addEdge (R : α → α → Prop) (a b : α) (x y : α) : Prop := R x y ∨ (x = a ∧ y = b)

/-- A path with the new edge goes to the edge's start before it uses it first, and comes from the edge's
end after it uses it last. -/
theorem transGen_addEdge {x y : α} (path : TransGen (addEdge R a b) x y) :
    TransGen R x y ∨ (ReflTransGen R x a ∧ ReflTransGen R b y) := by
  induction path with
  | single edge =>
    rcases edge with edge | ⟨rfl, rfl⟩
    · exact .inl (.single edge)
    · exact .inr ⟨.refl, .refl⟩
  | tail _ edge ih =>
    rcases edge with edge | ⟨rfl, rfl⟩
    · rcases ih with path | ⟨to_a, from_b⟩
      · exact .inl (path.tail edge)
      · exact .inr ⟨to_a, from_b.tail edge⟩
    · rcases ih with path | ⟨to_a, -⟩
      · exact .inr ⟨path.to_reflTransGen, .refl⟩
      · exact .inr ⟨to_a, .refl⟩

/-- The edge closes a cycle exactly if its end leads back to its start. -/
theorem cycle_addEdge (acyclic : ∀ x, ¬TransGen R x x) : TransGen (addEdge R a b) a a ↔ ReflTransGen R b a := by
  constructor
  · intro cycle
    rcases transGen_addEdge cycle with path | ⟨-, path⟩
    · exact absurd path (acyclic a)
    · exact path
  · intro path
    have lift : R ≤ addEdge R a b := fun _ _ edge => .inl edge
    exact TransGen.head' (.inr ⟨rfl, rfl⟩) (ReflTransGen.mono lift b a path)

end Edge

variable [DecidableEq α] {next : α → Option α} {target : α}

/-- Whether `target` is met within `n` hops. -/
def chase (next : α → Option α) (target : α) : Nat → α → Bool
  | 0, _ => false
  | n + 1, a =>
    match next a with
    | none => false
    | some b => if target = b then true else chase next target n b

theorem chase_sound {n : Nat} {a : α} (h : chase next target n a = true) :
    TransGen (fun x y => next x = some y) a target := by
  induction n generalizing a with
  | zero => cases h
  | succ n ih =>
    rw [chase] at h
    cases hop : next a with
    | none => simp [hop] at h
    | some b =>
      simp only [hop] at h
      by_cases here : target = b
      · exact .single (here ▸ hop)
      · rw [if_neg here] at h
        exact TransGen.head hop (ih h)

theorem exists_route (acyclic : ∀ x, ¬TransGen (fun x y => next x = some y) x x) {a : α}
    (path : TransGen (fun x y => next x = some y) a target) : ∃ route : List α, route.Nodup ∧
      (∀ x ∈ route, ReflTransGen (fun x y => next x = some y) a x ∧ next x ≠ none) ∧
      ∀ n, route.length ≤ n → chase next target n a = true := by
  induction path using TransGen.head_induction_on with
  | single hop =>
    rename_i a
    refine ⟨[a], List.nodup_singleton a, fun x hx => ?_, fun n hn => ?_⟩
    · obtain rfl := List.mem_singleton.mp hx
      exact ⟨.refl, by simp [hop]⟩
    · obtain ⟨m, rfl⟩ : ∃ m, n = m + 1 := ⟨n - 1, by simp at hn; omega⟩
      simp [chase, hop]
  | head hop path ih =>
    rename_i a b
    obtain ⟨route, nodup, visited, found⟩ := ih
    refine ⟨a :: route, List.nodup_cons.mpr ⟨fun h => ?_, nodup⟩, fun x hx => ?_, fun n hn => ?_⟩
    · exact acyclic a (TransGen.head' hop (visited a h).1)
    · rcases List.mem_cons.mp hx with rfl | h
      · exact ⟨.refl, by simp [hop]⟩
      · exact ⟨(visited x h).1.head hop, (visited x h).2⟩
    · obtain ⟨m, rfl⟩ : ∃ m, n = m + 1 := ⟨n - 1, by simp at hn; omega⟩
      have rest := found m (by simpa using hn)
      simp [chase, hop, rest]

/-- As many hops as there are places to hop from are enough. -/
theorem chase_complete (acyclic : ∀ x, ¬TransGen (fun x y => next x = some y) x x) {domain : List α}
    (covers : ∀ x, next x ≠ none → x ∈ domain) {n : Nat} (enough : domain.length ≤ n) {a : α}
    (path : TransGen (fun x y => next x = some y) a target) : chase next target n a = true := by
  obtain ⟨route, nodup, visited, found⟩ := exists_route acyclic path
  refine found n (Nat.le_trans ?_ enough)
  exact (nodup.subperm fun x hx => covers x (visited x hx).2).length_le

end Chase
