/- The resource tree keeps its order: children lie in their parent, in order and apart. -/
import Mathlib.Data.List.Pairwise
import Mathlib.Tactic.Tauto
import LinuxKernel.Foundation.ListIndex
import LinuxKernel.Foundation.Transition
import LinuxKernel.Kernel.Resource

namespace Resource

open Relation Function List

variable {ρ : Type}

def Member (s : State ρ) (root x : ρ) : Prop := ReflTransGen (fun a b => b ∈ s.child a) root x

/-- A resource and its children: they are sorted and apart, lie in it and point to it. -/
structure NodeOk (s : State ρ) (x : ρ) : Prop where
  sorted : (s.child x).Pairwise fun a b => (s.range a).stop < (s.range b).start
  ordered : ∀ c ∈ s.child x, (s.range c).start ≤ (s.range c).stop
  inside : ∀ c ∈ s.child x,
    (s.range x).start ≤ (s.range c).start ∧ (s.range c).stop ≤ (s.range x).stop
  parent : ∀ c ∈ s.child x, s.parent c = some x

/-- The tree below `root`; the ranks say that it is one. -/
structure TreeOk (s : State ρ) (root : ρ) : Prop where
  node : ∀ x, Member s root x → NodeOk s x
  ranked : ∃ rank : ρ → Nat, ∀ x, Member s root x → ∀ c ∈ s.child x, rank c < rank x

section Tree

variable {s s' : State ρ} {root x y c : ρ}

theorem Member.child (h : Member s root x) (hc : c ∈ s.child x) : Member s root c := h.tail hc

theorem Member.of_closed {T : ρ → Prop} (first : T root) (closed : ∀ x, T x → ∀ c ∈ s.child x, T c)
    (h : Member s root x) : T x := by
  induction h with
  | refl => exact first
  | tail _ edge ih => exact closed _ ih _ edge

theorem treeOk_of_closed (T : ρ → Prop) (rank : ρ → Nat) (first : T root)
    (closed : ∀ x, T x → ∀ c ∈ s.child x, T c) (node : ∀ x, T x → NodeOk s x)
    (ranked : ∀ x, T x → ∀ c ∈ s.child x, rank c < rank x) : TreeOk s root :=
  ⟨fun x h => node x (h.of_closed first closed), rank, fun x h => ranked x (h.of_closed first closed)⟩

theorem NodeOk.sublist {p : ρ} {l : List ρ} (ok : NodeOk s p) (sub : l.Sublist (s.child p)) (child : s'.child x = l)
    (same : ∀ c ∈ l, s'.range c = s.range c ∧ s'.parent c = some x)
    (inside : ∀ c ∈ l, (s'.range x).start ≤ (s.range c).start ∧ (s.range c).stop ≤ (s'.range x).stop) :
      NodeOk s' x := by
  constructor
  · rw [child]
    refine (ok.sorted.sublist sub).imp_of_mem fun ha hb less => ?_
    rwa [(same _ ha).1, (same _ hb).1]
  all_goals
    intro c hc
    rw [child] at hc
  · rw [(same c hc).1]
    exact ok.ordered c (sub.subset hc)
  · rw [(same c hc).1]
    exact inside c hc
  · exact (same c hc).2

theorem NodeOk.congr (ok : NodeOk s x) (child : s'.child x = s.child x) (range : s'.range x = s.range x)
    (same : ∀ c ∈ s.child x, s'.range c = s.range c ∧ s'.parent c = s.parent c) : NodeOk s' x := by
  refine ok.sublist (.refl _) child (fun c hc => ⟨(same c hc).1, (same c hc).2.trans (ok.parent c hc)⟩) ?_
  rw [range]
  exact ok.inside

structure Fits (s : State ρ) (root new : ρ) : Prop where
  le : (s.range new).start ≤ (s.range new).stop
  start : (s.range root).start ≤ (s.range new).start
  stop : (s.range new).stop ≤ (s.range root).stop

/-- A child stands between others that were there before. -/
theorem NodeOk.insert {pre post : List ρ} (ok : NodeOk s x) (sub : (pre ++ post).Sublist (s.child x))
    (child : s'.child x = pre ++ c :: post) (range : s'.range x = s.range x)
    (same : ∀ a ∈ pre ++ post, s'.range a = s.range a ∧ s'.parent a = s.parent a) (parent : s'.parent c = some x)
    (fits : Fits s' x c) (low : ∀ a ∈ pre, (s'.range a).stop < (s'.range c).start)
    (high : ∀ b ∈ post, (s'.range c).stop < (s'.range b).start) : NodeOk s' x := by
  have all : ∀ {P : ρ → Prop}, P c → (∀ a ∈ pre ++ post, P a) → ∀ a ∈ s'.child x, P a := by
    intro P here others
    rw [forall_mem_append] at others
    rw [child, forall_mem_append, forall_mem_cons]
    exact ⟨others.1, here, others.2⟩
  constructor
  · have sorted : (pre ++ post).Pairwise fun a b => (s'.range a).stop < (s'.range b).start := by
      refine (ok.sorted.sublist sub).imp_of_mem fun ha hb less => ?_
      rwa [(same _ ha).1, (same _ hb).1]
    obtain ⟨left, right, across⟩ := pairwise_append.mp sorted
    rw [child, pairwise_append, pairwise_cons]
    exact ⟨left, ⟨high, right⟩, fun a ha => forall_mem_cons.mpr ⟨low a ha, across a ha⟩⟩
  · refine all fits.le fun a ha => ?_
    rw [(same a ha).1]
    exact ok.ordered a (sub.subset ha)
  · refine all ⟨fits.start, fits.stop⟩ fun a ha => ?_
    rw [(same a ha).1, range]
    exact ok.inside a (sub.subset ha)
  · exact all parent fun a ha => (same a ha).2.trans (ok.parent a (sub.subset ha))

theorem TreeOk.parent_unique (ok : TreeOk s root) (hx : Member s root x) (hy : Member s root y)
    (cx : c ∈ s.child x) (cy : c ∈ s.child y) : x = y := by
  have px := (ok.node x hx).parent c cx
  have py := (ok.node y hy).parent c cy
  exact Option.some.inj (px.symm.trans py)

theorem TreeOk.self_notMem (ok : TreeOk s root) (hx : Member s root x) : x ∉ s.child x := by
  intro edge
  obtain ⟨rank, ranked⟩ := ok.ranked
  have down := ranked x hx x edge
  omega

theorem NodeOk.nodup (ok : NodeOk s x) : (s.child x).Nodup := by
  apply ok.sorted.imp_of_mem
  intro a b ha _ less same
  have := ok.ordered a ha
  subst same
  omega

end Tree

section Place

theorem place_cases (s : State ρ) (new : ρ) {l : List ρ}
    (sorted : l.Pairwise fun a b => (s.range a).stop < (s.range b).start)
    (ordered : ∀ c ∈ l, (s.range c).start ≤ (s.range c).stop) :
    (∃ pre post, l = pre ++ post ∧ place s new l = .ok (pre ++ new :: post) ∧
      (∀ a ∈ pre, (s.range a).stop < (s.range new).start) ∧ ∀ b ∈ post, (s.range new).stop < (s.range b).start) ∨
    ∃ pre t post, l = pre ++ t :: post ∧ place s new l = .error t ∧
      (∀ a ∈ pre, (s.range a).stop < (s.range new).start) ∧
      (s.range t).start ≤ (s.range new).stop ∧ (s.range new).start ≤ (s.range t).stop := by
  induction l with
  | nil => exact .inl ⟨[], [], rfl, rfl, by simp, by simp⟩
  | cons t rest ih =>
    obtain ⟨first, sorted⟩ := pairwise_cons.mp sorted
    obtain ⟨le, ordered⟩ := forall_mem_cons.mp ordered
    rw [place]
    split_ifs with gap before
    · refine .inl ⟨[], t :: rest, rfl, rfl, by simp, forall_mem_cons.mpr ⟨gap, fun b hb => ?_⟩⟩
      have := first b hb
      omega
    · rcases ih sorted ordered with ⟨pre, post, rfl, run, low, high⟩ | ⟨pre, c, post, rfl, run, low, meet⟩
      · exact .inl ⟨t :: pre, post, rfl, by rw [run]; rfl, forall_mem_cons.mpr ⟨before, low⟩, high⟩
      · exact .inr ⟨t :: pre, c, post, rfl, by rw [run]; rfl, forall_mem_cons.mpr ⟨before, low⟩, meet⟩
    · exact .inr ⟨[], t, rest, rfl, rfl, by simp, by omega, by omega⟩

variable [DecidableEq ρ]

structure Placed (s : State ρ) (root new : ρ) (s' : State ρ) : Prop where
  range : s'.range = s.range
  parent : s'.parent = update s.parent new (some root)
  child : ∃ pre post, s.child root = pre ++ post ∧
    s'.child = update s.child root (pre ++ new :: post) ∧
    (∀ a ∈ pre, (s.range a).stop < (s.range new).start) ∧
    ∀ b ∈ post, (s.range new).stop < (s.range b).start

structure Meets (s : State ρ) (root new t : ρ) : Prop where
  mem : t ∈ s.child root
  start : (s.range t).start ≤ (s.range new).stop
  stop : (s.range new).start ≤ (s.range t).stop
  first : ∃ pre post, s.child root = pre ++ t :: post ∧
    ∀ a ∈ pre, (s.range a).stop < (s.range new).start

theorem requestResource_cases (s : State ρ) {root : ρ} (node : NodeOk s root) (new : ρ) :
    (¬Fits s root new ∧ requestResource s root new = (s, some root)) ∨
    (∃ t, Fits s root new ∧ Meets s root new t ∧ requestResource s root new = (s, some t)) ∨
    ∃ s', Fits s root new ∧ Placed s root new s' ∧ requestResource s root new = (s', none) := by
  unfold requestResource
  simp only
  split_ifs with empty low high
  · exact .inl ⟨fun fits => by have := fits.le; omega, rfl⟩
  · exact .inl ⟨fun fits => by have := fits.start; omega, rfl⟩
  · exact .inl ⟨fun fits => by have := fits.stop; omega, rfl⟩
  have fits : Fits s root new := ⟨by omega, by omega, by omega⟩
  rcases place_cases s new node.sorted node.ordered with
    ⟨pre, post, eq, run, low, high⟩ | ⟨pre, t, post, eq, run, before, start, stop⟩
  · rw [run]
    refine .inr (.inr ⟨_, fits, ?_, rfl⟩)
    exact ⟨rfl, rfl, pre, post, eq, rfl, low, high⟩
  · rw [run]
    exact .inr (.inl ⟨t, fits, ⟨by simp [eq], start, stop, pre, post, eq, before⟩, rfl⟩)

end Place

/-- `new` takes the place of some children of `p`, which become its own. -/
structure Spliced (s : State ρ) (p new : ρ) (pre inner post : List ρ) (s' : State ρ) : Prop where
  was : s.child p = pre ++ inner ++ post
  child_p : s'.child p = pre ++ new :: post
  child_new : s'.child new = inner
  child_other : ∀ x, x ≠ p → x ≠ new → s'.child x = s.child x
  range : s'.range = s.range
  parent_new : s'.parent new = some p
  parent_inner : ∀ c ∈ inner, s'.parent c = some new
  parent_other : ∀ x, x ≠ new → x ∉ inner → s'.parent x = s.parent x
  low : ∀ a ∈ pre, (s.range a).stop < (s.range new).start
  high : ∀ b ∈ post, (s.range new).stop < (s.range b).start
  cover : ∀ c ∈ inner,
    (s.range new).start ≤ (s.range c).start ∧ (s.range c).stop ≤ (s.range new).stop
  fits : Fits s p new

section Changes

variable {s s' : State ρ} {root p new : ρ} {pre inner post : List ρ}

section

variable (splice : Spliced s p new pre inner post s')
include splice

theorem Spliced.node_parent (node : NodeOk s p) (fresh : new ∉ s.child p) : NodeOk s' p := by
  have nodup := node.nodup
  have sub : (pre ++ post).Sublist (s.child p) := by
    rw [splice.was]
    exact (sublist_append_left pre inner).append_right post
  refine node.insert sub splice.child_p (by rw [splice.range])
    (fun c hc => ⟨by rw [splice.range], ?_⟩) splice.parent_new
    ?_ ?_ ?_
  · have ne : c ≠ new := fun eq => fresh (eq ▸ sub.subset hc)
    refine splice.parent_other c ne fun mem => ?_
    rw [splice.was, nodup_append, nodup_append] at nodup
    rcases mem_append.mp hc with h | h
    · exact nodup.1.2.2 c h c mem rfl
    · exact nodup.2.2 c (by simp [mem]) c h rfl
  · obtain ⟨le, start, stop⟩ := splice.fits
    exact ⟨by rwa [splice.range], by rwa [splice.range], by rwa [splice.range]⟩
  · rw [splice.range]
    exact splice.low
  · rw [splice.range]
    exact splice.high

theorem Spliced.node_new (node : NodeOk s p) : NodeOk s' new := by
  have sub : inner.Sublist (s.child p) := by
    rw [splice.was, append_assoc]
    exact (sublist_append_left inner post).trans (sublist_append_right pre _)
  refine node.sublist sub splice.child_new (fun c hc => ⟨by rw [splice.range], splice.parent_inner c hc⟩) ?_
  rw [splice.range]
  exact splice.cover

theorem Spliced.treeOk [DecidableEq ρ]
    (ok : TreeOk s root) (hp : Member s root p) (fresh : ¬Member s root new) : TreeOk s' root := by
  have not_new : ∀ x, Member s root x → x ≠ new := fun x hx eq => fresh (eq ▸ hx)
  have inner_child : ∀ c ∈ inner, c ∈ s.child p := by
    intro c hc
    simp [splice.was, hc]
  -- the children of every resource but `new` are new or were its children
  have child_cases : ∀ x, x ≠ new → ∀ c ∈ s'.child x, (x = p ∧ c = new) ∨ c ∈ s.child x := by
    intro x hx c hc
    by_cases here : x = p
    · subst here
      rw [splice.child_p] at hc
      rw [splice.was]
      simp only [mem_append, mem_cons] at hc ⊢
      tauto
    · rw [splice.child_other x here hx] at hc
      exact .inr hc
  obtain ⟨rank, ranked⟩ := ok.ranked
  apply treeOk_of_closed (fun x => Member s root x ∨ x = new)
    (fun x => if x = new then 2 * rank p else 2 * rank x + 1)
  · exact .inl .refl
  · intro x hx c hc
    rcases hx with hx | rfl
    · rcases child_cases x (not_new x hx) c hc with ⟨-, rfl⟩ | h
      · exact .inr rfl
      · exact .inl (hx.child h)
    · rw [splice.child_new] at hc
      exact .inl (hp.child (inner_child c hc))
  · intro x hx
    rcases hx with hx | rfl
    · by_cases here : x = p
      · subst here
        exact splice.node_parent (ok.node x hx) fun h => fresh (hx.child h)
      · apply (ok.node x hx).congr (splice.child_other x here (not_new x hx)) (by rw [splice.range])
        intro c hc
        have outer : c ∉ inner := fun h => here (ok.parent_unique hx hp hc (inner_child c h))
        exact ⟨by rw [splice.range], splice.parent_other c (not_new c (hx.child hc)) outer⟩
    · exact splice.node_new (ok.node p hp)
  · intro x hx c hc
    rcases hx with hx | rfl
    · simp only [not_new x hx]
      rcases child_cases x (not_new x hx) c hc with ⟨rfl, rfl⟩ | h
      · simp
      · have less := ranked x hx c h
        simp only [not_new c (hx.child h), if_false]
        omega
    · rw [splice.child_new] at hc
      have less := ranked p hp c (inner_child c hc)
      simp only [not_new c (hp.child (inner_child c hc)), if_false, if_true]
      omega

end

theorem TreeOk.erase [DecidableEq ρ] {x : ρ} (ok : TreeOk s root) (hp : Member s root p) (mem : x ∈ s.child p)
    (child : s'.child = update s.child p ((s.child p).erase x)) (range : s'.range = s.range)
    (parent : ∀ y, y ≠ x → s'.parent y = s.parent y) : TreeOk s' root := by
  have at_p : s'.child p = (s.child p).erase x := by rw [child, update_self]
  have smaller : ∀ y, (s'.child y).Sublist (s.child y) := by
    intro y
    by_cases here : y = p
    · rw [here, at_p]
      exact erase_sublist
    · simp only [child, update_of_ne here, Sublist.refl]
  obtain ⟨rank, ranked⟩ := ok.ranked
  apply treeOk_of_closed (Member s root) rank .refl
  · exact fun y hy c hc => hy.child ((smaller y).subset hc)
  · intro y hy
    have node := ok.node y hy
    refine node.sublist (smaller y) rfl (fun c hc => ⟨by rw [range], ?_⟩) fun c hc => ?_
    · have mem' := (smaller y).subset hc
      rw [parent c, node.parent c mem']
      rintro rfl
      obtain rfl := ok.parent_unique hy hp mem' mem
      exact (node.nodup.mem_erase_iff.mp (at_p ▸ hc)).1 rfl
    · rw [range]
      exact node.inside c ((smaller y).subset hc)
  · exact fun y hy c hc => ranked y hy c ((smaller y).subset hc)

end Changes

theorem TreeOk.congr {s s' : State ρ} {root : ρ} (ok : TreeOk s root) (same : ∀ x, Member s root x →
      s'.child x = s.child x ∧ s'.range x = s.range x ∧ s'.parent x = s.parent x) :
    TreeOk s' root ∧ ∀ x, Member s' root x ↔ Member s root x := by
  have closed : ∀ x, Member s root x → ∀ c ∈ s'.child x, Member s root c := by
    intro x hx c hc
    rw [(same x hx).1] at hc
    exact hx.child hc
  obtain ⟨rank, ranked⟩ := ok.ranked
  constructor
  · apply treeOk_of_closed (Member s root) rank .refl closed
    · intro x hx
      apply (ok.node x hx).congr (same x hx).1 (same x hx).2.1
      exact fun c hc => (same c (hx.child hc)).2
    · intro x hx c hc
      rw [(same x hx).1] at hc
      exact ranked x hx c hc
  · intro x
    constructor
    · exact fun h => h.of_closed .refl closed
    · intro h
      induction h with
      | refl => exact .refl
      | tail path edge ih =>
        apply ih.tail
        rw [(same _ path).1]
        exact edge

section Operations

variable [DecidableEq ρ] {s s' : State ρ} {root p new : ρ}

theorem Placed.spliced (placed : Placed s p new s') (fits : Fits s p new) (leaf : s.child new = [])
    (ne : new ≠ p) : ∃ pre post, Spliced s p new pre [] post s' := by
  obtain ⟨range, parent, pre, post, was, child, low, high⟩ := placed
  refine ⟨pre, post, ?_⟩
  constructor
  · simpa using was
  · rw [child, update_self]
  · rw [child, update_of_ne ne, leaf]
  · intro x hx _
    rw [child, update_of_ne hx]
  · exact range
  · rw [parent, update_self]
  · simp
  · intro x hx _
    rw [parent, update_of_ne hx]
  · exact low
  · exact high
  · simp
  · exact fits

/-- What a caller hands in: a resource outside the tree, without children. -/
structure Outside (s : State ρ) (root new : ρ) : Prop where
  notMem : ¬Member s root new
  leaf : s.child new = []

theorem Placed.treeOk (placed : Placed s p new s') (fits : Fits s p new) (ok : TreeOk s root)
    (hp : Member s root p) (outside : Outside s root new) : TreeOk s' root := by
  have ne : new ≠ p := fun eq => outside.notMem (eq ▸ hp)
  obtain ⟨pre, post, spliced⟩ := placed.spliced fits outside.leaf ne
  exact spliced.treeOk ok hp outside.notMem

theorem requestResource_spec (ok : TreeOk s root) (hp : Member s root p) (outside : Outside s root new) :
    TreeOk (requestResource s p new).1 root ∧
      ∀ c, (requestResource s p new).2 = some c → (requestResource s p new).1 = s := by
  rcases requestResource_cases s (ok.node p hp) new with
    ⟨-, eq⟩ | ⟨t, -, -, eq⟩ | ⟨s', fits, placed, eq⟩
  · rw [eq]
    exact ⟨ok, fun _ _ => rfl⟩
  · rw [eq]
    exact ⟨ok, fun _ _ => rfl⟩
  · rw [eq]
    exact ⟨placed.treeOk fits ok hp outside, nofun⟩

omit [DecidableEq ρ] in
theorem TreeOk.exists_parent (ok : TreeOk s root) {x : ρ} (hx : Member s root x) (ne : x ≠ root) :
    ∃ p, Member s root p ∧ x ∈ s.child p ∧ s.parent x = some p := by
  rcases ReflTransGen.cases_tail hx with eq | ⟨p, hp, edge⟩
  · exact absurd eq ne
  · exact ⟨p, hp, edge, (ok.node p hp).parent x edge⟩

theorem releaseResource_spec (ok : TreeOk s root) {old : ρ} (member : Member s root old) (ne : old ≠ root) :
    TreeOk (releaseResource s old).1 root ∧ (releaseResource s old).2 = true := by
  obtain ⟨p, hp, edge, parent⟩ := ok.exists_parent member ne
  rw [releaseResource]
  simp only [parent, edge, if_true, and_true]
  exact ok.erase hp edge rfl rfl fun y hy => update_of_ne hy ..

def Sticks (s : State ρ) (t new : ρ) : Prop :=
  (s.range t).start < (s.range new).start ∨ (s.range new).stop < (s.range t).stop

omit [DecidableEq ρ] in
theorem swallow_cases (s : State ρ) (new : ρ) {l : List ρ}
    (sorted : l.Pairwise fun a b => (s.range a).stop < (s.range b).start)
    (ordered : ∀ c ∈ l, (s.range c).start ≤ (s.range c).stop) :
    (∃ t, swallow s new l = .error t ∧ t ∈ l ∧ Sticks s t new) ∨
    ∃ inner outer, swallow s new l = .ok (inner, outer) ∧ l = inner ++ outer ∧
      (∀ c ∈ inner, (s.range new).start ≤ (s.range c).start ∧ (s.range c).stop ≤ (s.range new).stop) ∧
      ∀ b ∈ outer, (s.range new).stop < (s.range b).start := by
  induction l with
  | nil => exact .inr ⟨[], [], rfl, rfl, by simp, by simp⟩
  | cons next rest ih =>
    obtain ⟨first, sorted⟩ := pairwise_cons.mp sorted
    obtain ⟨-, ordered⟩ := forall_mem_cons.mp ordered
    by_cases partly : Sticks s next new
    · refine .inl ⟨next, ?_, mem_cons_self, partly⟩
      cases rest <;> rw [swallow, if_pos (by simpa [Sticks] using partly)]
    have skip : ¬(decide ((s.range next).start < (s.range new).start) ||
        decide ((s.range new).stop < (s.range next).stop)) = true := by simpa [Sticks] using partly
    have inside : (s.range new).start ≤ (s.range next).start ∧ (s.range next).stop ≤ (s.range new).stop := by
      unfold Sticks at partly
      omega
    cases rest with
    | nil => exact .inr ⟨[next], [], by rw [swallow, if_neg skip], rfl, by simpa using inside, by simp⟩
    | cons sibling rest =>
      by_cases gap : (s.range new).stop < (s.range sibling).start
      · refine .inr ⟨[next], sibling :: rest, by rw [swallow, if_neg skip]; exact if_pos gap, rfl,
          by simpa using inside,
          forall_mem_cons.mpr ⟨gap, fun b hb => ?_⟩⟩
        have := (pairwise_cons.mp sorted).1 b hb
        have := ordered sibling mem_cons_self
        omega
      · have step : swallow s new (next :: sibling :: rest) =
            (swallow s new (sibling :: rest)).map fun p => (next :: p.1, p.2) := by
          rw [swallow, if_neg skip]
          exact if_neg gap
        rcases ih sorted ordered with ⟨t, run, mem, sticks⟩ | ⟨inner, outer, run, eq, cover, high⟩
        · exact .inl ⟨t, by rw [step, run]; rfl, mem_cons_of_mem _ mem, sticks⟩
        · exact .inr ⟨next :: inner, outer, by rw [step, run]; rfl, by rw [eq, cons_append],
            forall_mem_cons.mpr ⟨inside, cover⟩, high⟩

theorem slide_spec (node : NodeOk s p) (ne : new ≠ p) {first : ρ} (fits : Fits s p new)
    (meets : Meets s p new first) (fresh : new ∉ s.child p) :
    (∃ t, t ∈ s.child p ∧ Sticks s t new ∧ slide s p first new = (s, some t)) ∨
      ∃ s' pre inner post, Spliced s p new pre inner post s' ∧ slide s p first new = (s', none) := by
  obtain ⟨pre, post, eq, low⟩ := meets.first
  have nodup := node.nodup
  have sorted := node.sorted
  have ordered := node.ordered
  rw [eq] at nodup sorted ordered
  obtain ⟨front, back⟩ := cut_while (r := first :: post) (fun a => decide (a ≠ first))
    (fun a ha => decide_eq_true ((nodup_append.mp nodup).2.2 a ha first mem_cons_self)) (by simp)
  unfold slide
  simp only [eq, front, back]
  rcases swallow_cases s new (pairwise_append.mp sorted).2.1 (fun c hc => ordered c (mem_append_right _ hc)) with
    ⟨t, run, mem, sticks⟩ | ⟨inner, outer, run, split, cover, high⟩
  · rw [run]
    exact .inl ⟨t, eq ▸ mem_append_right pre mem, sticks, rfl⟩
  right
  rw [run]
  refine ⟨_, pre, inner, outer, ?_, rfl⟩
  have inner_child : ∀ c ∈ inner, c ∈ s.child p := by
    intro c hc
    rw [eq, split]
    simp [hc]
  constructor
  · rw [eq, split, append_assoc]
  · simp
  · simp [update_of_ne ne]
  · intro x hx hx'
    simp [update_of_ne hx, update_of_ne hx']
  · rfl
  · simp
  · intro c hc
    have : c ≠ new := fun h => fresh (h ▸ inner_child c hc)
    simp [this, hc]
  · intro x hx outer
    simp [hx, outer]
  · exact low
  · exact high
  · exact cover
  · exact fits

end Operations

end Resource
