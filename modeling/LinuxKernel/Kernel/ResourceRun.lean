/- Runs of resource requests: the loops that go down the tree end, and every operation keeps the tree. -/
import Mathlib.Data.List.Nodup
import LinuxKernel.Kernel.ResourceTree

namespace Resource

open Function List

variable {ρ : Type} [DecidableEq ρ] {s s' : State ρ} {root p new : ρ}

/-- One turn of `__insert_resource` goes down to a child, or leaves with a conflict or the new tree. -/
theorem insertTurn_cases (ok : TreeOk s root) (hp : Member s root p) (outside : Outside s root new) :
    (∃ c, c ∈ s.child p ∧ Fits s c new ∧ insertTurn s new p = .inl c) ∨
    (∃ c, (c = p ∧ ¬Fits s p new ∨ c ∈ s.child p ∧ Sticks s c new) ∧ insertTurn s new p = .inr (s, some c)) ∨
    ∃ s', TreeOk s' root ∧ s'.parent new = some p ∧ insertTurn s new p = .inr (s', none) := by
  have ne : new ≠ p := fun eq => outside.notMem (eq ▸ hp)
  have fresh : new ∉ s.child p := fun h => outside.notMem (hp.child h)
  unfold insertTurn
  rcases requestResource_cases s (ok.node p hp) new with
    ⟨small, eq⟩ | ⟨t, fits, meets, eq⟩ | ⟨s', fits, placed, eq⟩
  · right; left
    exact ⟨p, .inl ⟨rfl, small⟩, by simp [eq]⟩
  · have other : t ≠ p := fun h => ok.self_notMem hp (h ▸ meets.mem)
    have slides : (∃ c, (c = p ∧ ¬Fits s p new ∨ c ∈ s.child p ∧ Sticks s c new) ∧
          slide s p t new = (s, some c)) ∨
        ∃ s', TreeOk s' root ∧ s'.parent new = some p ∧ slide s p t new = (s', none) := by
      rcases slide_spec (ok.node p hp) ne fits meets fresh with
        ⟨c, mem, sticks, eq⟩ | ⟨s', pre, inner, post, spliced, eq⟩
      · exact .inl ⟨c, .inr ⟨mem, sticks⟩, eq⟩
      · exact .inr ⟨s', spliced.treeOk ok hp outside.notMem, spliced.parent_new, eq⟩
    simp only [eq, other, if_false]
    split_ifs with out same
    · right
      simpa using slides
    · right
      simpa using slides
    · simp only [Bool.or_eq_true, decide_eq_true_eq] at out
      exact .inl ⟨t, meets.mem, ⟨fits.le, by omega, by omega⟩, rfl⟩
  · right; right
    refine ⟨s', placed.treeOk fits ok hp outside, ?_, by simp [eq]⟩
    rw [placed.parent, update_self]

/-- The conflict is the resource it started from, or one below it that sticks out of the new one. -/
structure Conflict (s : State ρ) (root p new c : ρ) : Prop where
  member : Member s root c
  range : c = p ∨ (s.range p).start ≤ (s.range c).start ∧ (s.range c).stop ≤ (s.range p).stop ∧
    Sticks s c new

def Inserted (s : State ρ) (root p new : ρ) : State ρ × Option ρ → Prop
  | (s', none) => TreeOk s' root ∧ s'.parent new ≠ none
  | (s', some c) => s' = s ∧ Conflict s root p new c

theorem insertResource_total (ok : TreeOk s root) (outside : Outside s root new) {rank : ρ → Nat}
    (ranked : ∀ x, Member s root x → ∀ c ∈ s.child x, rank c < rank x) (hp : Member s root p) {n : Nat}
    (hn : rank p < n) : ∃ r, insertResource n s p new = some r ∧ Inserted s root p new r := by
  -- below the start, the new resource lies in each resource that is visited
  let Below := fun q => q = p ∨ Fits s q new ∧
    (s.range p).start ≤ (s.range q).start ∧ (s.range q).stop ≤ (s.range p).stop
  have inside : ∀ q, Member s root q → Below q → ∀ c ∈ s.child q,
      (s.range p).start ≤ (s.range c).start ∧ (s.range c).stop ≤ (s.range p).stop := by
    intro q hq below c hc
    have := (ok.node q hq).inside c hc
    rcases below with rfl | ⟨-, h⟩
    · exact this
    · omega
  refine Loop.run_total (insertTurn s new) (fun k q => rank q = k ∧ Member s root q ∧ Below q)
    (Inserted s root p new) ?_ ⟨rfl, hp, .inl rfl⟩ hn
  rintro _ q ⟨rfl, hq, below⟩
  rcases insertTurn_cases ok hq outside with ⟨c, mem, fits, eq⟩ | ⟨c, conflict, eq⟩ | ⟨s', ok', parent, eq⟩
  · exact .inl ⟨rank c, c, eq, ranked q hq c mem, rfl, hq.child mem, .inr ⟨fits, inside q hq below c mem⟩⟩
  · refine .inr ⟨_, eq, rfl, ?_⟩
    rcases conflict with ⟨rfl, small⟩ | ⟨mem, sticks⟩
    · rcases below with rfl | ⟨fits, -⟩
      · exact ⟨hp, .inl rfl⟩
      · exact absurd fits small
    · exact ⟨hq.child mem, .inr ⟨(inside q hq below c mem).1, (inside q hq below c mem).2, sticks⟩⟩
  · exact .inr ⟨_, eq, ok', by rw [parent]; simp⟩

theorem insertResource_spec (ok : TreeOk s root) (hp : Member s root p) (outside : Outside s root new)
    {n : Nat} {r : State ρ × Option ρ} (h : insertResource n s p new = some r) : Inserted s root p new r := by
  obtain ⟨rank, ranked⟩ := ok.ranked
  obtain ⟨r', run, inserted⟩ := insertResource_total ok outside ranked hp (Nat.lt_succ_self _)
  obtain rfl : r = r' := Loop.run_unique h run
  exact inserted

/-- The states of its loop: only the range of the new resource changes. -/
structure Widened (s : State ρ) (new : ρ) (s' : State ρ) : Prop where
  child : s'.child = s.child
  parent : s'.parent = s.parent
  range : ∀ x, x ≠ new → s'.range x = s.range x

omit [DecidableEq ρ] in
/-- A change at a resource that is not in the tree. -/
theorem TreeOk.change_outside (ok : TreeOk s root) (notMem : ¬Member s root new)
    (same : ∀ x, x ≠ new → s'.child x = s.child x ∧ s'.range x = s.range x ∧ s'.parent x = s.parent x)
    (leaf : s'.child new = []) : TreeOk s' root ∧ (∀ x, Member s' root x ↔ Member s root x) ∧
      Outside s' root new := by
  obtain ⟨ok', members⟩ := ok.congr fun x hx => same x fun eq => notMem (eq ▸ hx)
  exact ⟨ok', members, fun h => notMem ((members new).mp h), leaf⟩

omit [DecidableEq ρ] in
theorem Widened.treeOk (w : Widened s new s') (ok : TreeOk s root) (outside : Outside s root new) :
    TreeOk s' root ∧ (∀ x, Member s' root x ↔ Member s root x) ∧ Outside s' root new :=
  ok.change_outside outside.notMem (fun x hx => ⟨by rw [w.child], w.range x hx, by rw [w.parent]⟩)
    (by rw [w.child, outside.leaf])

/-- What a turn makes of the range of the new resource. -/
structure Grows (s : State ρ) (p new : ρ) (s' : State ρ) : Prop where
  widened : Widened s new s'
  start : (s'.range new).start ≤ (s.range new).start
  stop : (s.range new).stop ≤ (s'.range new).stop
  more : (s'.range new).start < (s.range new).start ∨ (s.range new).stop < (s'.range new).stop
  low : min (s.range p).start (s.range new).start ≤ (s'.range new).start
  high : (s'.range new).stop ≤ max (s.range p).stop (s.range new).stop

theorem expandTurn_cases (n : Nat) (ok : TreeOk s root) (hp : Member s root p) (outside : Outside s root new) :
    (∃ s', expandTurn n p new s = .inl s' ∧ Grows s p new s') ∨
    (expandTurn n p new s = .inr none ∧ insertResource n s p new = none) ∨ expandTurn n p new s = .inr (some s) ∨
    ∃ s', expandTurn n p new s = .inr (some s') ∧ TreeOk s' root ∧ s'.parent new ≠ none := by
  unfold expandTurn
  cases h : insertResource n s p new with
  | none => exact .inr (.inl ⟨rfl, rfl⟩)
  | some r =>
    have spec := insertResource_spec ok hp outside h
    obtain ⟨s', conflict⟩ := r
    cases conflict with
    | none => exact .inr (.inr (.inr ⟨s', rfl, spec⟩))
    | some c =>
      simp only
      by_cases top : c = p
      · exact .inr (.inr (.inl (by rw [if_pos top])))
      obtain ⟨-, member, range⟩ := spec
      obtain ⟨low, high, sticks⟩ := range.resolve_left top
      rw [if_neg top]
      refine .inl ⟨_, rfl, ⟨⟨rfl, rfl, fun x hx => update_of_ne hx ..⟩, ?_, ?_, ?_, ?_, ?_⟩⟩
      all_goals
        unfold Sticks at sticks
        simp only [update_self]
        split_ifs <;> omega

omit [DecidableEq ρ] in
theorem Widened.trans {s'' : State ρ} (h₁ : Widened s new s') (h₂ : Widened s' new s'') : Widened s new s'' :=
  ⟨h₂.child.trans h₁.child, h₂.parent.trans h₁.parent, fun x hx => (h₂.range x hx).trans (h₁.range x hx)⟩

theorem insertResourceExpandToFit_spec (ok : TreeOk s root) (hp : Member s root p)
    (outside : Outside s root new) {n : Nat} (h : insertResourceExpandToFit n s p new = some s') :
    TreeOk s' root ∧ (s'.parent new = none → Widened s new s') := by
  unfold insertResourceExpandToFit at h
  split_ifs at h with placed
  · obtain rfl : s = s' := by simpa using h
    exact ⟨ok, fun _ => ⟨rfl, rfl, fun _ _ => rfl⟩⟩
  obtain ⟨_, run, rfl⟩ := Option.bind_eq_some_iff.mp h
  let Post := fun r : Option (State ρ) =>
    ∀ t, r = some t → TreeOk t root ∧ (t.parent new = none → Widened s new t)
  have post : Post (some s') := by
    refine Loop.run_post (Widened s new) Post (fun t w => ?_) ⟨rfl, rfl, fun _ _ => rfl⟩ run
    obtain ⟨okt, members, outt⟩ := w.treeOk ok outside
    rcases expandTurn_cases n okt ((members p).mpr hp) outt with
      ⟨u, eq, grows⟩ | ⟨eq, -⟩ | eq | ⟨u, eq, oku, parent⟩ <;> rw [eq]
    · exact w.trans grows.widened
    · exact nofun
    · rintro _ ⟨⟩
      exact ⟨okt, fun _ => w⟩
    · rintro _ ⟨⟩
      exact ⟨oku, fun h => absurd h parent⟩
  exact post s' rfl

/-- The range can only grow inside that of `p`, so the loop ends. -/
theorem insertResourceExpandToFit_returns (ok : TreeOk s root) (hp : Member s root p) (outside : Outside s root new) :
    ∃ m, ∀ n ≥ m, ∃ s', insertResourceExpandToFit n s p new = some s' := by
  obtain ⟨rank, ranked⟩ := ok.ranked
  have ne : p ≠ new := fun eq => outside.notMem (eq ▸ hp)
  set low := min (s.range p).start (s.range new).start
  set high := max (s.range p).stop (s.range new).stop
  let room := fun t : State ρ => ((t.range new).start - low) + (high - (t.range new).stop)
  let Inv := fun k t => Widened s new t ∧ low ≤ (t.range new).start ∧ (t.range new).stop ≤ high ∧
    room t = k
  refine ⟨rank p + room s + 1, fun n hn => ?_⟩
  have keep : ∀ k t, Inv k t → (∃ j t', expandTurn n p new t = .inl t' ∧ j < k ∧ Inv j t') ∨
      ∃ r, expandTurn n p new t = .inr r ∧ ∃ t', r = some t' := by
    rintro _ t ⟨w, above, below, rfl⟩
    obtain ⟨okt, members, outt⟩ := w.treeOk ok outside
    have ranked' : ∀ x, Member t root x → ∀ c ∈ t.child x, rank c < rank x := by
      intro x hx c hc
      rw [w.child] at hc
      exact ranked x ((members x).mp hx) c hc
    obtain ⟨r, returns, -⟩ := insertResource_total okt outt ranked' ((members p).mpr hp)
      (n := n) (by omega)
    rcases expandTurn_cases n okt ((members p).mpr hp) outt with
      ⟨u, eq, grows⟩ | ⟨-, stuck⟩ | eq | ⟨u, eq, -⟩
    · have same := w.range p ne
      obtain ⟨wider, start, stop, more, least, most⟩ := grows
      rw [same] at least most
      refine .inl ⟨room u, u, eq, ?_, w.trans wider, ?_, ?_, rfl⟩
      · simp only [room]
        omega
      all_goals omega
    · rw [returns] at stuck
      cases stuck
    · exact .inr ⟨_, eq, t, rfl⟩
    · exact .inr ⟨_, eq, u, rfl⟩
  unfold insertResourceExpandToFit
  split_ifs
  · exact ⟨s, rfl⟩
  · have first : Inv (room s) s := ⟨⟨rfl, rfl, fun _ _ => rfl⟩, by omega, by omega, rfl⟩
    obtain ⟨_, run, t, rfl⟩ := Loop.run_total (expandTurn n p new) Inv (fun r => ∃ t, r = some t) keep
      first (n := n) (by omega)
    exact ⟨t, by rw [run]; rfl⟩

section Adjust

variable {res : ρ} {pre post : List ρ}

theorem after_eq (notMem : res ∉ pre) : after res (pre ++ res :: post) = post.head? := by
  induction pre with
  | nil => simp [after]
  | cons a pre ih =>
    simp only [mem_cons, not_or] at notMem
    rw [cons_append, after, if_neg (Ne.symm notMem.1), ih notMem.2]

theorem before_eq {z : ρ} (notMem : res ∉ pre ++ [z]) : before res (pre ++ z :: res :: post) = some z := by
  induction pre with
  | nil => exact if_pos rfl
  | cons a pre ih =>
    obtain ⟨-, notMem⟩ := not_or.mp (mem_cons.not.mp notMem)
    rw [← ih notMem]
    cases pre with
    | nil => exact if_neg fun eq => notMem (by simp [eq])
    | cons b pre => exact if_neg fun eq => notMem (by simp [eq])

variable {start : Nat}

theorem lastOf_eq {bits size : Nat} (one : 1 ≤ size) (fits : start + size ≤ 2 ^ bits) :
    lastOf bits start size = start + size - 1 := by
  have shift : start + size + (2 ^ bits - 1) = start + size - 1 + 2 ^ bits := by omega
  rw [lastOf, shift, Nat.add_mod_right, Nat.mod_eq_of_lt (by omega)]

/-- A resource gets a range between its siblings, around its children and inside its parent. -/
structure Room (s : State ρ) (p res : ρ) (pre post : List ρ) (s' : State ρ) : Prop where
  widened : Widened s res s'
  chain : s.child p = pre ++ res :: post
  fits : Fits s' p res
  children : ∀ c ∈ s.child res, (s'.range res).start ≤ (s.range c).start ∧ (s.range c).stop ≤ (s'.range res).stop
  low : ∀ a ∈ pre, (s.range a).stop < (s'.range res).start
  high : ∀ b ∈ post, (s'.range res).stop < (s.range b).start

section

variable (room : Room s p res pre post s')
include room

omit [DecidableEq ρ] in
theorem Room.node_parent (node : NodeOk s p) (ne : p ≠ res) : NodeOk s' p := by
  obtain ⟨⟨child, parent, range⟩, chain, fits, -, low, high⟩ := room
  have nodup := node.nodup
  rw [chain] at nodup
  have sub : (pre ++ post).Sublist (s.child p) := by
    rw [chain]
    exact (sublist_cons_self res post).append_left pre
  have same : ∀ a ∈ pre ++ post, s'.range a = s.range a := fun a ha =>
    range a fun eq => (nodup_cons.mp (nodup_middle.mp nodup)).1 (eq ▸ ha)
  refine node.insert sub (child ▸ chain) (range p ne) (fun a ha => ⟨same a ha, by rw [parent]⟩) ?_ fits ?_ ?_
  · rw [parent]
    exact node.parent res (by simp [chain])
  · intro a ha
    rw [same a (mem_append_left _ ha)]
    exact low a ha
  · intro b hb
    rw [same b (mem_append_right _ hb)]
    exact high b hb

omit [DecidableEq ρ] in
theorem Room.node_res (node : NodeOk s res) (leaf : res ∉ s.child res) : NodeOk s' res := by
  obtain ⟨child, parent, range⟩ := room.widened
  refine node.sublist (.refl _) (by rw [child]) (fun c hc => ⟨range c fun h => leaf (h ▸ hc), ?_⟩) room.children
  rw [parent]
  exact node.parent c hc

theorem Room.treeOk (ok : TreeOk s root) (hp : Member s root p) : TreeOk s' root := by
  obtain ⟨child, parent, range⟩ := room.widened
  have mem : res ∈ s.child p := by simp [room.chain]
  have ne : p ≠ res := fun h => ok.self_notMem hp (h ▸ mem)
  obtain ⟨rank, ranked⟩ := ok.ranked
  apply treeOk_of_closed (Member s root) rank .refl
  · rw [child]
    exact fun x hx c hc => hx.child hc
  · intro x hx
    by_cases at_p : x = p
    · subst at_p
      exact room.node_parent (ok.node x hx) ne
    by_cases at_res : x = res
    · subst at_res
      exact room.node_res (ok.node x hx) (ok.self_notMem hx)
    refine (ok.node x hx).congr (by rw [child]) (range x at_res) fun c hc => ⟨range c ?_, by rw [parent]⟩
    rintro rfl
    exact at_p (ok.parent_unique hx hp hc mem)
  · rw [child]
    exact ranked

end

omit [DecidableEq ρ] in
theorem high_of_after {stop : Nat}
    (sorted : (pre ++ res :: post).Pairwise fun a b => (s.range a).stop < (s.range b).start)
    (ordered : ∀ c ∈ pre ++ res :: post, (s.range c).start ≤ (s.range c).stop)
    (next : ¬(post.head?.any fun next => (s.range next).start ≤ stop) = true) (b : ρ) (hb : b ∈ post) :
    stop < (s.range b).start := by
  cases post with
  | nil => cases hb
  | cons b₀ post =>
    have first : stop < (s.range b₀).start := by simpa using next
    rcases mem_cons.mp hb with rfl | hb
    · exact first
    · have sorted_post := (pairwise_cons.mp (pairwise_append.mp sorted).2.1).2
      have := (pairwise_cons.mp sorted_post).1 b hb
      have := ordered b₀ (by simp)
      omega

theorem low_of_before
    (sorted : (pre ++ res :: post).Pairwise fun a b => (s.range a).stop < (s.range b).start)
    (ordered : ∀ c ∈ pre ++ res :: post, (s.range c).start ≤ (s.range c).stop) (notPre : res ∉ pre)
    (prev : ¬((pre ++ res :: post).head? ≠ some res &&
      (before res (pre ++ res :: post)).any fun tmp => start ≤ (s.range tmp).stop) = true)
    (a : ρ) (ha : a ∈ pre) : (s.range a).stop < start := by
  rcases eq_nil_or_concat' pre with rfl | ⟨pre, z, rfl⟩
  · cases ha
  rw [append_assoc, singleton_append] at sorted ordered prev
  have head : (pre ++ z :: res :: post).head? ≠ some res := by
    cases pre with
    | nil => exact fun eq => notPre (by simp [Option.some.inj eq])
    | cons b pre => exact fun eq => notPre (by simp [Option.some.inj eq])
  rw [before_eq notPre] at prev
  have below : (s.range z).stop < start := by
    by_contra above
    exact prev (Bool.and_eq_true_iff.mpr ⟨decide_eq_true head, decide_eq_true (not_lt.mp above)⟩)
  rcases mem_append.mp ha with ha | ha
  · have := (pairwise_append.mp sorted).2.2 a ha z mem_cons_self
    have := ordered z (by simp)
    omega
  · exact mem_singleton.mp ha ▸ below

theorem adjustResource_spec (ok : TreeOk s root) {bits size : Nat} (hres : Member s root res)
    (ne : res ≠ root) (one : 1 ≤ size) (fits : start + size ≤ 2 ^ bits) :
    TreeOk (adjustResource bits s res start size).1 root ∧ ((adjustResource bits s res start size).2 = false →
        (adjustResource bits s res start size).1 = s) := by
  obtain ⟨p, hp, edge, parent⟩ := ok.exists_parent hres ne
  obtain ⟨pre, post, chain⟩ := append_of_mem edge
  have node := ok.node p hp
  have nodup := node.nodup
  have sorted := node.sorted
  have ordered := node.ordered
  rw [chain] at nodup sorted ordered
  have notPre : res ∉ pre := fun h => (nodup_append.mp nodup).2.2 res h res (by simp) rfl
  unfold adjustResource
  simp only [parent, chain, lastOf_eq one fits, after_eq notPre]
  split_ifs with outer inner next prev
  · exact ⟨ok, fun _ => rfl⟩
  · exact ⟨ok, fun _ => rfl⟩
  · exact ⟨ok, fun _ => rfl⟩
  · exact ⟨ok, fun _ => rfl⟩
  refine ⟨?_, nofun⟩
  have at_p : p ≠ res := fun h => ok.self_notMem hp (h ▸ edge)
  refine Room.treeOk (s := s) ⟨⟨rfl, rfl, fun x hx => update_of_ne hx ..⟩, chain, ?_, ?_, ?_, ?_⟩ ok hp
  · simp only [Bool.or_eq_true, decide_eq_true_eq] at outer
    constructor <;> simp only [update_self, update_of_ne at_p] <;> omega
  all_goals simp only [update_self]
  · intro c hc
    simp only [any_eq_true, not_exists, not_and, Bool.or_eq_true, decide_eq_true_eq] at inner
    have := inner c hc
    omega
  · exact low_of_before sorted ordered notPre prev
  · exact high_of_after sorted ordered next

end Adjust

section Region

variable {bits start n : Nat} {res : ρ}

theorem newRange_ok (start stop : Nat) (ok : TreeOk s root) (notMem : ¬Member s root res) :
    TreeOk (newRange s res start stop) root ∧ (∀ x, Member (newRange s res start stop) root x ↔ Member s root x) ∧
      Outside (newRange s res start stop) root res :=
  ok.change_outside notMem (fun _ ne => ⟨update_of_ne ne .., update_of_ne ne .., update_of_ne ne ..⟩) (update_self ..)

theorem newRegion_ok (bits start n : Nat) (ok : TreeOk s root) (notMem : ¬Member s root res) :
    TreeOk (newRegion bits s res start n) root ∧
      (∀ x, Member (newRegion bits s res start n) root x ↔ Member s root x) ∧
      Outside (newRegion bits s res start n) root res :=
  newRange_ok start (lastOf bits start n) ok notMem

theorem requestRegionTurn_cases (s : State ρ) {p : ρ} (node : NodeOk s p) (own : p ∉ s.child p) (res : ρ) :
    (∃ c, Fits s p res ∧ Meets s p res c ∧ (s.range c).busy = false ∧ requestRegionTurn s res p = .inl c) ∨
    requestRegionTurn s res p = .inr none ∨
    ∃ s', Fits s p res ∧ Placed s p res s' ∧ requestRegionTurn s res p = .inr (some s') := by
  unfold requestRegionTurn
  rcases requestResource_cases s node res with
    ⟨-, eq⟩ | ⟨t, fits, meets, eq⟩ | ⟨s', fits, placed, eq⟩
  · right; left
    simp [eq]
  · have other : t ≠ p := fun h => own (h ▸ meets.mem)
    by_cases busy : (s.range t).busy = true
    · right; left
      simp [eq, busy]
    · left
      exact ⟨t, fits, meets, by simpa using busy, by simp [eq, other, busy]⟩
  · right; right
    exact ⟨s', fits, placed, by simp [eq]⟩

variable {m : Nat}

theorem requestRegion_settles (bits start n : Nat) (ok : TreeOk s root) (hp : Member s root p) {alloc : Option ρ}
    (fresh : ∀ res, alloc = some res → ¬Member s root res) :
    Loop.Settles (fun m => requestRegion bits m s p alloc start n) fun r => TreeOk r.1 root ∧
      (r.2 = none → r.1 = s) := by
  cases alloc with
  | none => exact ⟨0, _, ⟨ok, fun _ => rfl⟩, fun _ _ => rfl, fun m b h => (Option.some.inj h).symm⟩
  | some res =>
    obtain ⟨ok₀, members, outside⟩ := newRegion_ok bits start n ok (fresh res rfl)
    obtain ⟨rank, ranked⟩ := ok₀.ranked
    refine (Loop.run_settles (InvImage.wf rank Nat.lt_wfRel.wf) (Member (newRegion bits s res start n) root)
      (fun q => ∀ t, q = some t → TreeOk t root) (fun x hx => ?_) ((members p).mpr hp)).map fun q post => ?_
    · rcases requestRegionTurn_cases _ (ok₀.node x hx) (ok₀.self_notMem hx) res with
        ⟨c, -, meets, -, eq⟩ | eq | ⟨t, fits, placed, eq⟩ <;> rw [eq]
      · exact ⟨hx.child meets.mem, ranked x hx c meets.mem⟩
      · exact nofun
      · rintro _ ⟨⟩
        exact placed.treeOk fits ok₀ hx outside
    · cases q with
      | none => exact ⟨ok, fun _ => rfl⟩
      | some t => exact ⟨post t rfl, nofun⟩

/-- The chain that is left to look at belongs to a member. -/
def Scans (s : State ρ) (root : ρ) (q : ρ × List ρ) : Prop :=
  Member s root q.1 ∧ ∀ c ∈ q.2, c ∈ s.child q.1

omit [DecidableEq ρ] in
theorem releaseRegionTurn_cases (start stop : Nat) {q : ρ × List ρ} (scans : Scans s root q) :
    (∃ q', releaseRegionTurn s start stop q = .inl q' ∧ Scans s root q' ∧
      (q'.1 ∈ s.child q.1 ∨ q'.1 = q.1 ∧ q'.2.length < q.2.length)) ∨ releaseRegionTurn s start stop q = .inr none ∨
    ∃ x ∈ s.child q.1, releaseRegionTurn s start stop q = .inr (some (q.1, x)) := by
  obtain ⟨owner, chain⟩ := q
  obtain ⟨member, sub⟩ := scans
  cases chain with
  | nil => exact .inr (.inl rfl)
  | cons x rest =>
    have mem : x ∈ s.child owner := sub x (by simp)
    simp only [releaseRegionTurn]
    split_ifs
    · exact .inl ⟨_, rfl, ⟨member.child mem, fun c hc => hc⟩, .inl mem⟩
    · exact .inr (.inl rfl)
    · exact .inr (.inr ⟨x, mem, rfl⟩)
    · exact .inl ⟨_, rfl, ⟨member, fun c hc => sub c (by simp [hc])⟩, .inr ⟨rfl, by simp⟩⟩

theorem releaseRegion_settles (bits start n : Nat) (ok : TreeOk s root) (hp : Member s root p) :
    Loop.Settles (fun m => releaseRegion bits m s p start n) fun r => TreeOk r.1 root ∧ (r.2 = false → r.1 = s) := by
  obtain ⟨rank, ranked⟩ := ok.ranked
  let measure := fun q : ρ × List ρ => (rank q.1, q.2.length)
  have wf : WellFounded (InvImage (Prod.Lex (· < ·) (· < ·)) measure) :=
    InvImage.wf _ (Prod.lex Nat.lt_wfRel Nat.lt_wfRel).wf
  refine (Loop.run_settles wf (Scans s root)
    (fun found => ∀ owner x, found = some (owner, x) → Member s root owner ∧ x ∈ s.child owner)
    (fun q scans => ?_) ⟨hp, fun c hc => hc⟩).map fun found post => ?_
  · rcases releaseRegionTurn_cases start (lastOf bits start n) scans with
      ⟨q', eq, scans', less⟩ | eq | ⟨x, mem, eq⟩ <;> rw [eq]
    · refine ⟨scans', ?_⟩
      rcases less with child | ⟨same, shorter⟩
      · exact Prod.Lex.left _ _ (ranked q.1 scans.1 _ child)
      · simp only [InvImage, measure, same]
        exact Prod.Lex.right _ shorter
    · exact nofun
    · rintro _ _ ⟨⟩
      exact ⟨scans.1, mem⟩
  · cases found with
    | none => exact ⟨ok, fun _ => rfl⟩
    | some found =>
      obtain ⟨owner, x⟩ := found
      obtain ⟨member, mem⟩ := post owner x rfl
      exact ⟨ok.erase member mem rfl rfl fun _ _ => rfl, nofun⟩

omit [DecidableEq ρ] in
theorem releaseRegion_skip {stop k : Nat} {pre l : List ρ} {r : Option (ρ × ρ)}
    (before : ∀ a ∈ pre, (s.range a).stop < stop) (h : Loop.run (releaseRegionTurn s start stop) k (p, l) = some r) :
    Loop.run (releaseRegionTurn s start stop) (k + pre.length) (p, pre ++ l) = some r := by
  induction pre with
  | nil => exact h
  | cons a pre ih =>
    have past : (decide ((s.range a).start ≤ start) && decide (stop ≤ (s.range a).stop)) = false := by
      have := before a (by simp)
      simp only [Bool.and_eq_false_iff, decide_eq_false_iff_not]
      omega
    have turn : releaseRegionTurn s start stop (p, a :: (pre ++ l)) = .inl (p, pre ++ l) := by
      simp [releaseRegionTurn, past]
    rw [length_cons, ← Nat.add_assoc, Loop.run, cons_append, turn]
    exact ih fun b hb => before b (by simp [hb])

theorem releaseRegion_finds (ok : TreeOk s root) {rank : ρ → Nat}
    (ranked : ∀ x, Member s root x → ∀ c ∈ s.child x, rank c < rank x) {stop : Nat}
    (region : s.range res = ⟨start, stop, true⟩) (hp : Member s root p)
    (run : Loop.run (requestRegionTurn s res) m p = some (some s')) :
    Fits s p res ∧ ∃ owner k, Member s root owner ∧ rank owner ≤ rank p ∧ Placed s owner res s' ∧
      Loop.run (releaseRegionTurn s' start stop) k (p, s'.child p) = some (some (owner, res)) := by
  induction m generalizing p with
  | zero => cases run
  | succ m ih =>
    rw [Loop.run] at run
    have past : Fits s p res → s'.range = s.range → ∀ a, (s.range a).stop < (s.range res).start →
        (s'.range a).stop < stop := by
      intro fits same a low
      have le := fits.le
      rw [region] at low le
      rw [same]
      exact low.trans_le le
    rcases requestRegionTurn_cases s (ok.node p hp) (ok.self_notMem hp) res with
      ⟨c, fits, meets, free, eq⟩ | eq | ⟨t, fits, placed, eq⟩
    · rw [eq] at run
      obtain ⟨inner, owner, k, member, deep, placed, found⟩ := ih (hp.child meets.mem) run
      have lower := ranked p hp c meets.mem
      obtain ⟨pre, post, chain, before⟩ := meets.first
      have same : s'.child p = pre ++ c :: post := by
        obtain ⟨_, _, _, child, _⟩ := placed.child
        rw [child, update_of_ne (by rintro rfl; omega), chain]
      have turn : releaseRegionTurn s' start stop (p, c :: post) = .inl (c, s'.child c) := by
        have start_le := inner.start
        have stop_le := inner.stop
        rw [region] at start_le stop_le
        simp [releaseRegionTurn, placed.range, start_le, stop_le, free]
      refine ⟨fits, owner, k + 1 + pre.length, member, by omega, placed, ?_⟩
      rw [same]
      refine releaseRegion_skip (fun a ha => past fits placed.range a (before a ha)) ?_
      rw [Loop.run, turn]
      exact found
    · simp [eq] at run
    · obtain rfl : t = s' := by simpa [eq] using run
      obtain ⟨pre, post, chain, child, low, high⟩ := placed.child
      have same : t.child p = pre ++ res :: post := by rw [child, update_self]
      have turn : releaseRegionTurn t start stop (p, res :: post) = .inr (some (p, res)) := by
        simp [releaseRegionTurn, placed.range, region]
      refine ⟨fits, p, 1 + pre.length, hp, Nat.le_refl _, placed, ?_⟩
      rw [same]
      refine releaseRegion_skip (fun a ha => past fits placed.range a (low a ha)) ?_
      rw [Loop.run, turn]

theorem releaseRegion_requestRegion (ok : TreeOk s root) (hp : Member s root p) (fresh : ¬Member s root res)
    (h : requestRegion bits m s p (some res) start n = some (s', some res)) :
    ∃ k, ∀ k' ≥ k, ∃ s'', releaseRegion bits k' s' p start n = some (s'', true) ∧ ∀ x, x ≠ res →
        s''.range x = s.range x ∧ s''.parent x = s.parent x ∧ s''.child x = s.child x := by
  obtain ⟨ok₀, members, outside⟩ := newRegion_ok bits start n ok fresh
  obtain ⟨rank, ranked⟩ := ok₀.ranked
  obtain ⟨q, run, eq⟩ := Option.map_eq_some_iff.mp h
  cases q with
  | none => simp at eq
  | some t =>
    obtain rfl : t = s' := by simpa using eq
    have region : (newRegion bits s res start n).range res = ⟨start, lastOf bits start n, true⟩ :=
      update_self ..
    obtain ⟨-, owner, k, member, -, placed, found⟩ := releaseRegion_finds ok₀ ranked region
      ((members p).mpr hp) run
    obtain ⟨range, parent, pre, post, chain, child, -, -⟩ := placed
    have notPre : res ∉ pre := fun h => outside.notMem (member.child (by simp [chain, h]))
    let back : State ρ :=
      { t with child := update t.child owner ((t.child owner).erase res) }
    refine ⟨k, fun k' hk => ⟨back, ?_, fun x hx => ⟨?_, ?_, ?_⟩⟩⟩
    · rw [releaseRegion, Loop.run_mono hk found]
      rfl
    · simp only [back, range]
      exact update_of_ne hx ..
    · simp only [back, parent, update_of_ne hx]
      exact update_of_ne hx ..
    · have old : (newRegion bits s res start n).child x = s.child x := update_of_ne hx ..
      by_cases here : x = owner
      · subst here
        simp only [back, child, update_self]
        rw [erase_append_right _ notPre, erase_cons_head, ← chain, old]
      · simp [back, child, update_of_ne here, old]

end Region

/-- The operations on the tree below `root`. A resource outside the tree may be set up at any time. -/
inductive Step (bits : Nat) (root : ρ) : State ρ → State ρ → Prop
  | prepare (s : State ρ) (x : ρ) (range : Range) (notMem : ¬Member s root x) : Step bits root s
      { range := update s.range x range
        parent := update s.parent x none
        child := update s.child x [] }
  | request (s : State ρ) (p new : ρ) (member : Member s root p) (outside : Outside s root new) :
      Step bits root s (requestResource s p new).1
  | release (s : State ρ) (old : ρ) (member : Member s root old) (ne : old ≠ root)
      (leaf : s.child old = []) : Step bits root s (releaseResource s old).1
  | insert (s s' : State ρ) (m : Nat) (p new : ρ) (r : Option ρ) (member : Member s root p)
      (outside : Outside s root new) (h : insertResource m s p new = some (s', r)) : Step bits root s s'
  | expand (s s' : State ρ) (m : Nat) (p new : ρ) (member : Member s root p)
      (outside : Outside s root new) (h : insertResourceExpandToFit m s p new = some s') :
      Step bits root s s'
  | requestRegion (s s' : State ρ) (m : Nat) (p : ρ) (alloc : Option ρ) (start n : Nat) (r : Option ρ)
      (member : Member s root p) (fresh : ∀ res, alloc = some res → ¬Member s root res)
      (h : requestRegion bits m s p alloc start n = some (s', r)) : Step bits root s s'
  | releaseRegion (s s' : State ρ) (m : Nat) (p : ρ) (start n : Nat) (found : Bool)
      (member : Member s root p) (h : releaseRegion bits m s p start n = some (s', found)) :
      Step bits root s s'
  | adjust (s : State ρ) (res : ρ) (start size : Nat) (member : Member s root res) (ne : res ≠ root)
      (one : 1 ≤ size) (fits : start + size ≤ 2 ^ bits) :
      Step bits root s (adjustResource bits s res start size).1

def Initial (root : ρ) (s : State ρ) : Prop := s.child root = []

variable {bits : Nat}

theorem Step.treeOk (ok : TreeOk s root) (step : Step bits root s s') : TreeOk s' root := by
  cases step with
  | prepare x range notMem =>
    refine (ok.change_outside notMem (fun _ ne => ?_) (update_self ..)).1
    exact ⟨update_of_ne ne .., update_of_ne ne .., update_of_ne ne ..⟩
  | request p new member outside => exact (requestResource_spec ok member outside).1
  | release old member ne leaf => exact (releaseResource_spec ok member ne).1
  | insert _ m p new r member outside h =>
    have spec := insertResource_spec ok member outside h
    cases r with
    | none => exact spec.1
    | some c => exact spec.1 ▸ ok
  | expand _ m p new member outside h => exact (insertResourceExpandToFit_spec ok member outside h).1
  | requestRegion _ m p alloc start n r member fresh h =>
    exact ((requestRegion_settles bits start n ok member fresh).post h).1
  | releaseRegion _ m p start n found member h => exact ((releaseRegion_settles bits start n ok member).post h).1
  | adjust res start size member ne one fits => exact (adjustResource_spec ok member ne one fits).1

theorem reachable_treeOk (reach : Transition.Reachable (Initial root) (Step bits root) s) :
    TreeOk s root := by
  apply reach.invariant (fun s => TreeOk s root) _ fun s t ok step => step.treeOk ok
  intro s alone
  have none : ∀ x, x = root → s.child x = [] := fun x hx => hx ▸ alone
  apply treeOk_of_closed (· = root) (fun _ => 0) rfl
  · intro x hx c hc
    simp [none x hx] at hc
  · intro x hx
    constructor <;> simp [none x hx]
  · intro x hx c hc
    simp [none x hx] at hc

/-- A request that fails changes nothing; one that widens the new resource and then finds that it does not
fit changes nothing else. -/
structure Untouched (bits : Nat) (root : ρ) (s : State ρ) : Prop where
  request : ∀ p new c, Member s root p → Outside s root new →
    (requestResource s p new).2 = some c → (requestResource s p new).1 = s
  release : ∀ old, Member s root old → old ≠ root → (releaseResource s old).2 = true
  insert : ∀ m p new s' c, Member s root p → Outside s root new →
    insertResource m s p new = some (s', some c) → s' = s
  expand : ∀ m p new s', Member s root p → Outside s root new →
    insertResourceExpandToFit m s p new = some s' → s'.parent new = none → Widened s new s'
  requestRegion : ∀ m p alloc start n s', Member s root p →
    (∀ res, alloc = some res → ¬Member s root res) →
    requestRegion bits m s p alloc start n = some (s', none) → s' = s
  releaseRegion : ∀ m p start n s', Member s root p →
    releaseRegion bits m s p start n = some (s', false) → s' = s
  adjust : ∀ res start size, Member s root res → res ≠ root → 1 ≤ size → start + size ≤ 2 ^ bits →
    (adjustResource bits s res start size).2 = false → (adjustResource bits s res start size).1 = s

structure Returns (bits : Nat) (root : ρ) (s : State ρ) : Prop where
  insert : ∀ p new, Member s root p → Outside s root new →
    ∃ k, ∀ m ≥ k, ∃ r, insertResource m s p new = some r
  expand : ∀ p new, Member s root p → Outside s root new →
    ∃ k, ∀ m ≥ k, ∃ s', insertResourceExpandToFit m s p new = some s'
  requestRegion : ∀ p alloc start n, Member s root p →
    (∀ res, alloc = some res → ¬Member s root res) →
    ∃ k, ∀ m ≥ k, ∃ r, requestRegion bits m s p alloc start n = some r
  releaseRegion : ∀ p start n, Member s root p →
    ∃ k, ∀ m ≥ k, ∃ r, releaseRegion bits m s p start n = some r

theorem TreeOk.untouched (ok : TreeOk s root) : Untouched bits root s where
  request _ _ c member outside h := (requestResource_spec ok member outside).2 c h
  release _ member ne := (releaseResource_spec ok member ne).2
  insert _ _ _ _ _ member outside h := (insertResource_spec ok member outside h).1
  expand _ _ _ _ member outside h := (insertResourceExpandToFit_spec ok member outside h).2
  requestRegion _ _ _ start n _ member fresh h := ((requestRegion_settles bits start n ok member fresh).post h).2 rfl
  releaseRegion _ _ start n _ member h := ((releaseRegion_settles bits start n ok member).post h).2 rfl
  adjust _ _ _ member ne one fits := (adjustResource_spec ok member ne one fits).2

theorem TreeOk.returns (ok : TreeOk s root) : Returns bits root s where
  insert p _ member outside := by
    obtain ⟨rank, ranked⟩ := ok.ranked
    refine ⟨rank p + 1, fun m hm => ?_⟩
    obtain ⟨r, run, -⟩ := insertResource_total ok outside ranked member hm
    exact ⟨r, run⟩
  expand _ _ member outside := insertResourceExpandToFit_returns ok member outside
  requestRegion _ _ start n member fresh := (requestRegion_settles bits start n ok member fresh).returns
  releaseRegion _ start n member := (releaseRegion_settles bits start n ok member).returns

/-- At every resource of the tree the children are sorted, apart, inside it and point to it; a request
that fails leaves the tree alone; and a region that is requested and given back leaves it as it was. -/
theorem resource_tree_ok {bits : Nat} (reach : Transition.Reachable (Initial root) (Step bits root) s) :
    (∀ x, Member s root x → NodeOk s x) ∧ Untouched bits root s ∧ Returns bits root s ∧
    ∀ m p res start n s', Member s root p → ¬Member s root res →
      requestRegion bits m s p (some res) start n = some (s', some res) →
      ∃ k, ∀ k' ≥ k, ∃ s'', releaseRegion bits k' s' p start n = some (s'', true) ∧ ∀ x, x ≠ res →
          s''.range x = s.range x ∧ s''.parent x = s.parent x ∧ s''.child x = s.child x := by
  have ok := reachable_treeOk reach
  refine ⟨ok.node, ok.untouched, ok.returns, ?_⟩
  intro m p res start n s' member fresh h
  exact releaseRegion_requestRegion ok member fresh h

def free : State Nat := ⟨fun _ => ⟨0, 99, false⟩, fun _ => none, fun _ => []⟩

def claimed : State Nat :=
  { newRegion 32 free 1 10 5 with
    child := update (newRegion 32 free 1 10 5).child 0 [1]
    parent := update (newRegion 32 free 1 10 5).parent 1 (some 0) }

theorem resource_tree_ok_claimed :
    ∃ k, ∀ k' ≥ k, ∃ s'', releaseRegion 32 k' claimed 0 10 5 = some (s'', true) ∧ s''.child 0 = [] := by
  have reach : Transition.Reachable (Initial 0) (Step 32 0) free := .start rfl
  have other : ¬Member free 0 1 := by
    intro member
    rcases Relation.ReflTransGen.cases_head member with eq | ⟨c, edge, -⟩
    · cases eq
    · cases edge
  obtain ⟨k, back⟩ := (resource_tree_ok reach).2.2.2 1 0 1 10 5 claimed .refl other rfl
  refine ⟨k, fun k' hk => ?_⟩
  obtain ⟨s'', run, same⟩ := back k' hk
  exact ⟨s'', run, (same 0 (by decide)).2.2⟩

end Resource
