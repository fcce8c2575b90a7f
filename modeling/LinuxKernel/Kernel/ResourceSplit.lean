/- Reserving a region around what is there: __reserve_region_with_split of kernel/resource.c. -/
import Mathlib.Algebra.Order.BigOperators.Group.List
import Mathlib.Algebra.Order.Group.Nat
import LinuxKernel.Kernel.ResourceRun

namespace Resource

open Function List

variable {ρ : Type} [DecidableEq ρ] {s s₁ s₂ : State ρ} {root : ρ} {lo mid hi : Nat}
  {new new₁ new₂ : List (Option ρ)}

def Covered (s : State ρ) (root : ρ) (a : Nat) : Prop :=
  ∃ c ∈ s.child root, (s.range c).start ≤ a ∧ a ≤ (s.range c).stop

/-- What was in the tree is in it as before; the root may have more children. -/
structure Kept (s : State ρ) (root : ρ) (s' : State ρ) : Prop where
  range : ∀ x, Member s root x → s'.range x = s.range x
  parent : ∀ x, Member s root x → s'.parent x = s.parent x
  child : ∀ x, Member s root x → x ≠ root → s'.child x = s.child x
  sub : (s.child root).Sublist (s'.child root)

theorem Kept.member (kept : Kept s root s₁) {x : ρ} (h : Member s root x) : Member s₁ root x := by
  induction h with
  | refl => exact .refl
  | @tail y c path edge ih =>
    refine ih.child ?_
    by_cases eq : y = root
    · subst eq
      exact kept.sub.subset edge
    · rwa [kept.child y path eq]

theorem Kept.trans (h₁ : Kept s root s₁) (h₂ : Kept s₁ root s₂) : Kept s root s₂ where
  range x hx := (h₂.range x (h₁.member hx)).trans (h₁.range x hx)
  parent x hx := (h₂.parent x (h₁.member hx)).trans (h₁.parent x hx)
  child x hx ne := (h₂.child x (h₁.member hx) ne).trans (h₁.child x hx ne)
  sub := h₁.sub.trans h₂.sub

omit [DecidableEq ρ] in
theorem Kept.refl (s : State ρ) (root : ρ) : Kept s root s :=
  ⟨fun _ _ => rfl, fun _ _ => rfl, fun _ _ _ => rfl, .refl _⟩

omit [DecidableEq ρ] in
theorem Kept.covered (kept : Kept s root s₁) {a : Nat} (h : Covered s root a) : Covered s₁ root a := by
  obtain ⟨c, mem, start, stop⟩ := h
  have same := kept.range c (Member.child .refl mem)
  exact ⟨c, kept.sub.subset mem, by rwa [same], by rwa [same]⟩

omit [DecidableEq ρ] in
theorem NodeOk.apart {x c d : ρ} (node : NodeOk s x) (hc : c ∈ s.child x) (hd : d ∈ s.child x) (ne : c ≠ d) :
    (s.range c).stop < (s.range d).start ∨ (s.range d).stop < (s.range c).start := by
  have symm : Std.Symm fun c d => (s.range c).stop < (s.range d).start ∨ (s.range d).stop < (s.range c).start :=
    ⟨fun _ _ h => h.symm⟩
  have apart := node.sorted.imp (S := fun c d =>
    (s.range c).stop < (s.range d).start ∨ (s.range d).stop < (s.range c).start) fun h => .inl h
  exact apart.forall hc hd ne

/-- What a call for the addresses from `lo` up to but not including `hi` does; `new` is its part of the log. -/
structure Filled (s : State ρ) (root : ρ) (lo hi : Nat) (s' : State ρ) (new : List (Option ρ)) : Prop where
  treeOk : TreeOk s' root
  kept : Kept s root s'
  added : ∀ c ∈ s'.child root, c ∉ s.child root → lo ≤ (s'.range c).start ∧ (s'.range c).stop < hi
  member : ∀ x, Member s' root x → Member s root x ∨ some x ∈ new
  covers : none ∉ new → ∀ a, lo ≤ a → a < hi → Covered s' root a

omit [DecidableEq ρ] in
theorem Filled.stay (ok : TreeOk s root) (covers : none ∉ new → ∀ a, lo ≤ a → a < hi → Covered s root a) :
    Filled s root lo hi s new :=
  ⟨ok, .refl s root, fun _ mem fresh => absurd mem fresh, fun _ h => .inl h, covers⟩

theorem Filled.trans {mid' : Nat} (h₁ : Filled s root lo mid s₁ new₁) (h₂ : Filled s₁ root mid' hi s₂ new₂)
    (low : lo ≤ mid') (high : mid ≤ hi) (between : ∀ a, mid ≤ a → a < mid' → Covered s root a) :
    Filled s root lo hi s₂ (new₁ ++ new₂) where
  treeOk := h₂.treeOk
  kept := h₁.kept.trans h₂.kept
  added := by
    intro c mem fresh
    by_cases first : c ∈ s₁.child root
    · have := h₁.added c first fresh
      rw [h₂.kept.range c (Member.child .refl first)]
      omega
    · have := h₂.added c mem first
      omega
  member := by
    intro x hx
    rcases h₂.member x hx with hx | hx
    · rcases h₁.member x hx with hx | hx
      · exact .inl hx
      · exact .inr (by simp [hx])
    · exact .inr (by simp [hx])
  covers := by
    intro all a ha hlt
    simp only [mem_append, not_or] at all
    by_cases first : a < mid
    · exact h₂.kept.covered (h₁.covers all.1 a ha first)
    · by_cases second : a < mid'
      · exact h₂.kept.covered (h₁.kept.covered (between a (by omega) second))
      · exact h₂.covers all.2 a (by omega) hlt

theorem Placed.filled {res : ρ} {start stop : Nat} (ok : TreeOk s root) (notMem : ¬Member s root res)
    (fits : Fits (newRange s res start stop) root res) (placed : Placed (newRange s res start stop) root res s₁) :
    Filled s root start (stop + 1) s₁ [some res] := by
  obtain ⟨ok₀, -, outside⟩ := newRange_ok start stop ok notMem
  have ne : ∀ x, Member s root x → x ≠ res := fun x hx eq => notMem (eq ▸ hx)
  have ne_root : root ≠ res := ne root .refl
  obtain ⟨pre, post, was, child, -⟩ := placed.child
  have was : s.child root = pre ++ post := (update_of_ne ne_root ..).symm.trans was
  have child_root : s₁.child root = pre ++ res :: post := by rw [child, update_self]
  have child_other : ∀ x, x ≠ root → x ≠ res → s₁.child x = s.child x := by
    intro x hroot hres
    rw [child, update_of_ne hroot]
    exact update_of_ne hres ..
  have range_res : s₁.range res = ⟨start, stop, true⟩ := by
    rw [placed.range]
    exact update_self ..
  constructor
  · exact placed.treeOk fits ok₀ .refl outside
  · refine ⟨fun x hx => ?_, fun x hx => ?_, fun x hx hroot => child_other x hroot (ne x hx), ?_⟩
    · rw [placed.range]
      exact update_of_ne (ne x hx) ..
    · rw [placed.parent, update_of_ne (ne x hx)]
      exact update_of_ne (ne x hx) ..
    · rw [was, child_root]
      exact List.Sublist.append_left (sublist_cons_self ..) pre
  · intro c mem fresh
    obtain rfl : c = res := by
      rw [child_root] at mem
      rw [was] at fresh
      simp only [mem_append, mem_cons] at mem fresh
      tauto
    rw [range_res]
    exact ⟨le_rfl, Nat.lt_succ_self stop⟩
  · -- the new resource is a leaf
    intro x hx
    have leaf : s₁.child res = [] := by
      rw [child, update_of_ne ne_root.symm]
      exact update_self ..
    refine hx.of_closed (T := fun x => Member s root x ∨ some x ∈ [some res]) (.inl .refl) ?_
    rintro x (hx | hx) c hc
    · by_cases hroot : x = root
      · subst hroot
        rw [child_root, mem_append, mem_cons] at hc
        rcases hc with hc | rfl | hc
        · exact .inl (hx.child (by simp [was, hc]))
        · exact .inr (by simp)
        · exact .inl (hx.child (by simp [was, hc]))
      · rw [child_other x hroot (ne x hx)] at hc
        exact .inl (hx.child hc)
    · obtain rfl : x = res := by simpa using hx
      rw [leaf] at hc
      cases hc
  · intro _ a ha hlt
    refine ⟨res, by simp [child_root], ?_⟩
    rw [range_res]
    exact ⟨ha, Nat.le_of_lt_succ hlt⟩

variable {alloc : List (Option ρ) → State ρ → Option ρ}

/-- An allocation gives memory that is in no resource of the tree, whichever of them stem from the start and
whichever from earlier allocations. -/
def Fresh (alloc : List (Option ρ) → State ρ → Option ρ) (s : State ρ) (root : ρ) : Prop :=
  ∀ log s' res, (∀ x, Member s' root x → Member s root x ∨ some x ∈ log) → alloc log s' = some res →
    ¬Member s' root res

/-- The resources of a tree stem from the start or from the log. -/
def Known (s₀ : State ρ) (root : ρ) (s : State ρ) (log : List (Option ρ)) : Prop :=
  ∀ x, Member s root x → Member s₀ root x ∨ some x ∈ log

/-- What a call with this bound does for a region inside the range of the root. -/
def Reserves (alloc : List (Option ρ) → State ρ → Option ρ) (s₀ : State ρ) (root : ρ) (n : Nat) : Prop :=
  ∀ {s : State ρ} {log : List (Option ρ)} {start stop : Nat}, TreeOk s root → Known s₀ root s log → start ≤ stop →
    (s.range root).start ≤ start → stop ≤ (s.range root).stop → stop - start < n →
    ∃ s' new, reserveRegionWithSplit alloc root n start stop (s, log) = some (s', log ++ new) ∧
      Filled s root start (stop + 1) s' new

theorem Reserves.around {s₀ : State ρ} {n start stop : Nat} {log : List (Option ρ)} {t : ρ}
    (ih : Reserves alloc s₀ root n) (ok : TreeOk s root) (known : Known s₀ root s log) (mem : t ∈ s.child root)
    (meets : (s.range t).start ≤ stop ∧ start ≤ (s.range t).stop) (low : (s.range root).start ≤ start)
    (high : stop ≤ (s.range root).stop) (hn : stop - start ≤ n) : ∃ s' new, Option.bind
        (if start < (s.range t).start then reserveRegionWithSplit alloc root n start ((s.range t).start - 1) (s, log)
          else some (s, log)) (fun st => if (st.1.range t).stop < stop then
            reserveRegionWithSplit alloc root n ((st.1.range t).stop + 1) stop st else some st) =
      some (s', log ++ new) ∧ Filled s root start (stop + 1) s' new := by
  have ht : Member s root t := Member.child .refl mem
  obtain ⟨s₁, new₁, run₁, filled₁⟩ : ∃ s₁ new₁,
      (if start < (s.range t).start then reserveRegionWithSplit alloc root n start ((s.range t).start - 1) (s, log)
        else some (s, log)) = some (s₁, log ++ new₁) ∧ Filled s root start (s.range t).start s₁ new₁ := by
    split_ifs with more
    · have := ih ok known (by omega : start ≤ (s.range t).start - 1) low (by omega) (by omega)
      rwa [Nat.sub_add_cancel (by omega)] at this
    · exact ⟨s, [], by simp, .stay ok fun _ a ha hlt => absurd ha (by omega)⟩
  have same_t := filled₁.kept.range t ht
  have same_root := filled₁.kept.range root .refl
  have known₁ : Known s₀ root s₁ (log ++ new₁) := by
    intro x hx
    rcases filled₁.member x hx with hx | hx
    · exact (known x hx).imp_right (mem_append_left _)
    · exact .inr (mem_append_right _ hx)
  obtain ⟨s₂, new₂, run₂, filled₂⟩ : ∃ s₂ new₂,
      (if (s₁.range t).stop < stop then
        reserveRegionWithSplit alloc root n ((s₁.range t).stop + 1) stop (s₁, log ++ new₁)
      else some (s₁, log ++ new₁)) = some (s₂, log ++ new₁ ++ new₂) ∧
      Filled s₁ root ((s.range t).stop + 1) (stop + 1) s₂ new₂ := by
    rw [same_t]
    split_ifs with more
    · exact ih filled₁.treeOk known₁ (by omega) (by rw [same_root]; omega) (by rwa [same_root]) (by omega)
    · exact ⟨s₁, [], by simp, .stay filled₁.treeOk fun _ a ha hlt => absurd ha (by omega)⟩
  refine ⟨s₂, new₁ ++ new₂, ?_, filled₁.trans filled₂ (by omega) (by omega) ?_⟩
  · rw [run₁, Option.bind_some, run₂, append_assoc]
  · exact fun a ha hlt => ⟨t, mem, ha, by omega⟩

theorem reserveRegionWithSplit_spec {s₀ : State ρ} (fresh : Fresh alloc s₀ root) (n : Nat) :
    Reserves alloc s₀ root n := by
  induction n with
  | zero => exact fun _ _ _ _ _ hn => absurd hn (Nat.not_lt_zero _)
  | succ n ih =>
    intro s log start stop ok known le low high hn
    rw [reserveRegionWithSplit]
    cases memory : alloc log s with
    | none => exact ⟨s, [none], rfl, .stay ok fun all => absurd (mem_singleton_self _) all⟩
    | some res =>
      have notMem := fresh log s res known memory
      have ne : ∀ x, Member s root x → x ≠ res := by
        rintro x hx rfl
        exact notMem hx
      have other : ∀ x, Member s root x → (newRange s res start stop).range x = s.range x :=
        fun x hx => update_of_ne (ne x hx) ..
      have own : (newRange s res start stop).range res = ⟨start, stop, true⟩ := update_self ..
      obtain ⟨ok₀, -, -⟩ := newRange_ok start stop ok notMem
      rcases requestResource_cases _ (ok₀.node root .refl) res with
        ⟨small, -⟩ | ⟨t, -, meets, eq⟩ | ⟨s', fits, placed, eq⟩
      · refine absurd ⟨?_, ?_, ?_⟩ small
        · rw [own]
          exact le
        all_goals rwa [own, other root .refl]
      · have same : (newRange s res start stop).child root = s.child root :=
          update_of_ne (ne root .refl) ..
        have mem : t ∈ s.child root := same ▸ meets.mem
        have t_start := meets.start
        have t_stop := meets.stop
        rw [own, other t (Member.child .refl mem)] at t_start t_stop
        simp only at t_start t_stop
        simp only [eq]
        by_cases whole : (s.range t).start ≤ start ∧ stop ≤ (s.range t).stop
        · refine ⟨s, [some res], ?_, .stay ok fun _ a ha hlt => ⟨t, mem, by omega, by omega⟩⟩
          rw [if_pos (by simpa using whole)]
        have known' : Known s₀ root s (log ++ [some res]) := fun x hx => (known x hx).imp_right (mem_append_left _)
        obtain ⟨s', new, run, filled⟩ := ih.around ok known' mem ⟨t_start, t_stop⟩ low high (by omega)
        have begin_ : Filled s root start start s [some res] := .stay ok fun _ a ha hlt => absurd ha (by omega)
        rw [if_neg (by simpa using whole), run, append_assoc]
        refine ⟨s', [some res] ++ new, rfl, begin_.trans filled le_rfl (by omega) fun a ha hlt => ?_⟩
        omega
      · exact ⟨s', [some res], by simp [eq], placed.filled ok notMem fits⟩

/-- The log when an allocation has failed, if one of the next `n` does with nothing changed. -/
def untilFailure (alloc : List (Option ρ) → State ρ → Option ρ) (s : State ρ) :
    Nat → List (Option ρ) → Option (List (Option ρ))
  | 0, _ => none
  | n + 1, log =>
    match alloc log s with
    | none => some (log ++ [none])
    | some res => untilFailure alloc s n (log ++ [some res])

section Outside

variable {n start stop : Nat} {log log' : List (Option ρ)}

omit [DecidableEq ρ] in
theorem untilFailure_mem (run : untilFailure alloc s n log = some log') : none ∈ log' := by
  induction n generalizing log with
  | zero => cases run
  | succ n ih =>
    rw [untilFailure] at run
    split at run
    · simp [← Option.some.inj run]
    · exact ih run

omit [DecidableEq ρ] in
theorem untilFailure_mono {m : Nat} (run : untilFailure alloc s n log = some log') (le : n ≤ m) :
    untilFailure alloc s m log = some log' := by
  induction n generalizing log m with
  | zero => cases run
  | succ n ih =>
    obtain ⟨m, rfl⟩ := Nat.exists_eq_add_of_le' (Nat.le_of_add_left_le le)
    rw [untilFailure] at run ⊢
    split at run
    · exact run
    · exact ih run (by omega)

variable (fresh : Fresh alloc s root)
include fresh

/-- A region that sticks out of the root is refused by the root itself. -/
theorem reserve_outside (out : start < (s.range root).start ∨ (s.range root).stop < stop) :
    reserveRegionWithSplit alloc root (n + 1) start stop (s, log) =
      match alloc log s with
      | none => some (s, log ++ [none])
      | some res => Option.bind
        (if start < (s.range root).start then
          reserveRegionWithSplit alloc root n start ((s.range root).start - 1) (s, log ++ [some res])
        else some (s, log ++ [some res])) fun st =>
          if (st.1.range root).stop < stop then
            reserveRegionWithSplit alloc root n ((st.1.range root).stop + 1) stop st else some st := by
  rw [reserveRegionWithSplit]
  cases memory : alloc log s with
  | none => rfl
  | some res =>
    have ne : root ≠ res := fun eq => fresh log s res (fun x hx => .inl hx) memory (eq ▸ .refl)
    have refused : requestResource (newRange s res start stop) root res = (newRange s res start stop, some root) := by
      simp only [requestResource, newRange, update_self, update_of_ne ne]
      split_ifs <;> first | rfl | omega
    have sticks : ¬((s.range root).start ≤ start ∧ stop ≤ (s.range root).stop) := by omega
    simp only [refused, Bool.and_eq_true, decide_eq_true_eq, sticks, if_false]

variable (proper : (s.range root).start ≤ (s.range root).stop)
include proper

/-- The part of it outside is the same in each call. -/
theorem reserve_one_end (one : start < (s.range root).start ∧ stop ≤ (s.range root).stop ∨
    (s.range root).start ≤ start ∧ (s.range root).stop < stop) :
    reserveRegionWithSplit alloc root n start stop (s, log) = (untilFailure alloc s n log).map (s, ·) := by
  induction n generalizing log start stop with
  | zero => rfl
  | succ n ih =>
    rw [reserve_outside fresh (by omega), untilFailure]
    cases alloc log s with
    | none => rfl
    | some res =>
      rcases one with ⟨low, high⟩ | ⟨low, high⟩
      · have below : (s.range root).start - 1 ≤ (s.range root).stop := by omega
        simp only [if_pos low, ih (.inl ⟨low, below⟩), Option.bind_map]
        simp [Nat.not_lt.mpr high, Option.map_eq_bind]
      · simp only [if_neg (Nat.not_lt.mpr low), Option.bind_some, if_pos high]
        exact ih (.inr ⟨by omega, high⟩)

theorem reserve_both_ends {res : ρ} (low : start < (s.range root).start) (high : (s.range root).stop < stop)
    (first : alloc [] s = some res) : reserveRegionWithSplit alloc root (n + 1) start stop (s, []) =
      (untilFailure alloc s (n + 1) []).bind fun log => (untilFailure alloc s n log).map (s, ·) := by
  rw [reserve_outside fresh (.inl low), untilFailure, first]
  have below : reserveRegionWithSplit alloc root n start ((s.range root).start - 1) (s, [some res]) = _ :=
    reserve_one_end fresh proper (.inl ⟨low, (Nat.sub_le _ 1).trans proper⟩)
  simp only [if_pos low, nil_append, below, Option.bind_map]
  refine congrArg _ (funext fun log => ?_)
  simp only [comp_apply, if_pos high]
  exact reserve_one_end fresh proper (.inr ⟨Nat.le_succ_of_le proper, high⟩)

end Outside

/-- The failed allocations without which a region that sticks out does not come back: one for each end outside, unless
the very first one fails. -/
def ShortOfMemory (alloc : List (Option ρ) → State ρ → Option ρ) (s : State ρ) (root : ρ) (start stop : Nat) : Prop :=
  alloc [] s = none ∨ ∃ n log, untilFailure alloc s n [] = some log ∧
    (start < (s.range root).start → (s.range root).stop < stop → ∃ m log', untilFailure alloc s m log = some log')

section Returns

variable {start stop : Nat} (fresh : Fresh alloc s root) (proper : (s.range root).start ≤ (s.range root).stop)
  (out : start < (s.range root).start ∨ (s.range root).stop < stop)
include fresh proper out

theorem short_of_returns {n : Nat} {st : State ρ × List (Option ρ)}
    (run : reserveRegionWithSplit alloc root n start stop (s, []) = some st) :
      ShortOfMemory alloc s root start stop := by
  cases first : alloc [] s with
  | none => exact .inl first
  | some res =>
    by_cases both : start < (s.range root).start ∧ (s.range root).stop < stop
    · cases n with
      | zero => cases run
      | succ n =>
        rw [reserve_both_ends fresh proper both.1 both.2 first, Option.bind_eq_some_iff] at run
        obtain ⟨log, failed, run⟩ := run
        obtain ⟨log', failed', -⟩ := Option.map_eq_some_iff.mp run
        exact .inr ⟨n + 1, log, failed, fun _ _ => ⟨n, log', failed'⟩⟩
    · rw [reserve_one_end fresh proper (by omega)] at run
      obtain ⟨log, failed, -⟩ := Option.map_eq_some_iff.mp run
      exact .inr ⟨n, log, failed, fun low high => absurd ⟨low, high⟩ both⟩

theorem returns_of_short (short : ShortOfMemory alloc s root start stop) :
    ∃ n log, reserveRegionWithSplit alloc root n start stop (s, []) = some (s, log) ∧ none ∈ log := by
  cases first : alloc [] s with
  | none => exact ⟨1, [none], by simp [reserve_outside fresh out, first], mem_singleton_self _⟩
  | some res =>
    obtain ⟨n, log, failed, again⟩ := short.resolve_left (by simp [first])
    by_cases both : start < (s.range root).start ∧ (s.range root).stop < stop
    · obtain ⟨m, log', failed'⟩ := again both.1 both.2
      refine ⟨max n m + 1, log', ?_, untilFailure_mem failed'⟩
      rw [reserve_both_ends fresh proper both.1 both.2 first,
        untilFailure_mono failed (Nat.le_succ_of_le (le_max_left ..)), Option.bind_some,
        untilFailure_mono failed' (le_max_right ..), Option.map_some]
    · refine ⟨n, log, ?_, untilFailure_mem failed⟩
      rw [reserve_one_end fresh proper (by omega), failed, Option.map_some]

end Returns

theorem reserve_inside (ok : TreeOk s root) (fresh : Fresh alloc s root) {start stop : Nat} (le : start ≤ stop)
    (low : (s.range root).start ≤ start) (high : stop ≤ (s.range root).stop) :
    ∃ s' log, reserveRegionWithSplit alloc root (stop - start + 1) start stop (s, []) = some (s', log) ∧
      TreeOk s' root ∧ Kept s root s' ∧ (none ∉ log → (∀ a, start ≤ a → a ≤ stop → Covered s' root a) ∧
        ∀ a, (∃ c ∈ s'.child root, c ∉ s.child root ∧ (s'.range c).start ≤ a ∧ a ≤ (s'.range c).stop) ↔
          start ≤ a ∧ a ≤ stop ∧ ¬Covered s root a) := by
  obtain ⟨s', log, run, filled⟩ :=
    reserveRegionWithSplit_spec fresh _ ok (fun x hx => .inl hx) le low high (Nat.lt_succ_self _)
  refine ⟨s', log, run, filled.treeOk, filled.kept, fun all => ?_⟩
  have covers : ∀ a, start ≤ a → a ≤ stop → Covered s' root a := fun a ha hle =>
    filled.covers all a ha (Nat.lt_succ_of_le hle)
  refine ⟨covers, fun a => ⟨?_, ?_⟩⟩
  · rintro ⟨c, mem, added, ha, hle⟩
    obtain ⟨first, last⟩ := filled.added c mem added
    refine ⟨by omega, by omega, ?_⟩
    rintro ⟨d, old, hd, hd'⟩
    -- two children with an address in common are the same
    have same := filled.kept.range d (Member.child .refl old)
    have ne : c ≠ d := fun eq => added (eq ▸ old)
    have apart := (filled.treeOk.node root .refl).apart mem (filled.kept.sub.subset old) ne
    rw [same] at apart
    omega
  · rintro ⟨ha, hle, free⟩
    obtain ⟨c, mem, hc, hc'⟩ := covers a ha hle
    refine ⟨c, mem, fun old => free ⟨c, old, ?_⟩, hc, hc'⟩
    rw [← filled.kept.range c (Member.child .refl old)]
    exact ⟨hc, hc'⟩

/-- The call returns, leaves what was in the tree as it is and, with no failed allocation, covers what the region has
in common with the root, exactly where it was free: if and only if the region does not stick out or memory is
short. -/
theorem reserve_region_with_split_iff (ok : TreeOk s root) (proper : (s.range root).start ≤ (s.range root).stop)
    (fresh : Fresh alloc s root) {start stop : Nat} (le : start ≤ stop) :
    (∃ n s' log, reserveRegionWithSplit alloc root n start stop (s, []) = some (s', log) ∧ TreeOk s' root ∧
      Kept s root s' ∧ (none ∉ log →
        (∀ a, start ≤ a → a ≤ stop → (s.range root).start ≤ a → a ≤ (s.range root).stop → Covered s' root a) ∧
        ∀ a, (∃ c ∈ s'.child root, c ∉ s.child root ∧ (s'.range c).start ≤ a ∧ a ≤ (s'.range c).stop) ↔
          start ≤ a ∧ a ≤ stop ∧ (s.range root).start ≤ a ∧ a ≤ (s.range root).stop ∧ ¬Covered s root a)) ↔
    (s.range root).start ≤ start ∧ stop ≤ (s.range root).stop ∨ ShortOfMemory alloc s root start stop := by
  by_cases inside : (s.range root).start ≤ start ∧ stop ≤ (s.range root).stop
  · refine iff_of_true ?_ (.inl inside)
    obtain ⟨s', log, run, ok', kept, covers⟩ := reserve_inside ok fresh le inside.1 inside.2
    refine ⟨_, s', log, run, ok', kept, fun all => ⟨fun a ha hle _ _ => (covers all).1 a ha hle, fun a => ?_⟩⟩
    rw [(covers all).2]
    refine and_congr_right fun ha => and_congr_right fun hle => ?_
    rw [and_iff_right (inside.1.trans ha), and_iff_right (hle.trans inside.2)]
  · rw [or_iff_right inside]
    have out : start < (s.range root).start ∨ (s.range root).stop < stop := by omega
    constructor
    · rintro ⟨n, s', log, run, -⟩
      exact short_of_returns fresh proper out run
    · intro short
      obtain ⟨n, log, run, failed⟩ := returns_of_short fresh proper out short
      exact ⟨n, s, log, run, ok, .refl _ _, fun all => absurd failed all⟩

/-- An allocator that never fails and hands out a higher number each time. -/
def serial (log : List (Option Nat)) (_ : State Nat) : Option Nat := some (2 + (log.filterMap id).sum)

def reserving : State Nat where
  range x := if x = 0 then ⟨0, 99, false⟩ else ⟨10, 19, true⟩
  parent x := if x = 1 then some 0 else none
  child x := if x = 0 then [1] else []

theorem reserving_member {x : Nat} (h : Member reserving 0 x) : x ≤ 1 := by
  refine h.of_closed (T := (· ≤ 1)) (by decide) fun x _ c hc => ?_
  by_cases zero : x = 0 <;> simp_all [reserving]

theorem reserving_ok : TreeOk reserving 0 := by
  refine ⟨fun x hx => ?_, fun x => 1 - x, fun x hx c hc => ?_⟩
  · have : x = 0 ∨ x = 1 := by
      have := reserving_member hx
      omega
    rcases this with rfl | rfl <;> constructor <;> simp [reserving]
  · by_cases zero : x = 0 <;> simp_all [reserving]

theorem serial_fresh : Fresh serial reserving 0 := by
  rintro log s res known ⟨⟩ mem
  rcases known _ mem with old | old
  · have := reserving_member old
    omega
  · have handed : 2 + (log.filterMap id).sum ∈ log.filterMap id := mem_filterMap.mpr ⟨_, old, rfl⟩
    have := le_sum_of_mem handed
    omega

/-- The region from 5 to 30 is split around the child, and the one from 90 to 109 sticks out, but memory is short. -/
theorem reserve_region_with_split_iff_around : (∃ n s' log,
    reserveRegionWithSplit serial 0 n 5 30 (reserving, []) = some (s', log) ∧
      (none ∉ log → ∀ a, 5 ≤ a → a ≤ 30 → Covered s' 0 a)) ∧
    ∃ n s' log, reserveRegionWithSplit (fun log s => if log = [] then serial log s else none) 0 n 90 109
      (reserving, []) = some (s', log) ∧ Kept reserving 0 s' := by
  have short : Fresh (fun log s => if log = [] then serial log s else none) reserving 0 := by
    intro log s res known memory
    dsimp only at memory
    split_ifs at memory
    exact serial_fresh log s res known memory
  obtain ⟨n, s', log, run, -, -, covers⟩ := (reserve_region_with_split_iff reserving_ok (by decide) serial_fresh
    (by decide : 5 ≤ 30)).mpr (.inl (by decide))
  obtain ⟨m, s₁, log₁, run₁, -, kept, -⟩ := (reserve_region_with_split_iff reserving_ok (by decide) short
    (by decide : 90 ≤ 109)).mpr (.inr (.inr ⟨2, [some 2, none], rfl, fun low => absurd low (by decide)⟩))
  exact ⟨⟨n, s', log, run, fun all a low high => (covers all).1 a low high (Nat.zero_le _) (high.trans (by decide))⟩,
    m, s₁, log₁, run₁, kept⟩

/-- The region from 90 to 109 sticks out of the root, and the call does not return, however deep it goes. -/
theorem reserve_region_with_split_sticks : TreeOk reserving 0 ∧ Fresh serial reserving 0 ∧
    ∀ n, reserveRegionWithSplit serial 0 n 90 109 (reserving, []) = none := by
  have never : ∀ n log, untilFailure serial reserving n log = none := by
    intro n
    induction n with
    | zero => exact fun _ => rfl
    | succ n ih => exact fun log => ih _
  refine ⟨reserving_ok, serial_fresh, fun n => ?_⟩
  rw [reserve_one_end serial_fresh (by decide) (.inr (by decide)), never, Option.map_none]

end Resource
