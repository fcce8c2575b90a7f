/- The AVL pool of internet peers: lookup, linking and unlinking with rebalancing along the path. -/
import Mathlib.Data.BitVec
import Mathlib.Data.List.Basic

namespace InetPeer

open List

/-- A `struct inet_peer`: every allocation is a new one. -/
structure Peer where
  id : ℕ
  v4daddr : BitVec 32
  deriving DecidableEq

/-- A subtree; `empty` is `peer_fake_node`. -/
inductive Pool where
  | empty
  | node (left : Pool) (peer : Peer) (right : Pool) (height : ℕ)

def Pool.height : Pool → ℕ
  | .empty => 0
  | .node _ _ _ h => h

def lookup (daddr : BitVec 32) : Pool → Option Peer
  | .empty => none
  | .node left u right _ =>
    if daddr = u.v4daddr then some u
    else if daddr.toNat < u.v4daddr.toNat then lookup daddr left
    else lookup daddr right

/-- One turn of `peer_avl_rebalance` for the node `p` with subtrees `l` and `r`. A subtree that is too high
is not `empty`, nor is an inner one higher than its sibling: the last arms are not reached. -/
def avlRebalance (l : Pool) (p : Peer) (r : Pool) : Pool :=
  let lh := l.height
  let rh := r.height
  if lh > rh + 1 then
    match l with
    | .node ll lp lr _ =>
      let lrh := lr.height
      if lrh ≤ ll.height then .node ll lp (.node lr p r (lrh + 1)) (lrh + 1 + 1)
      else
        match lr with
        | .node lrl lrp lrr _ => .node (.node ll lp lrl (rh + 1)) lrp (.node lrr p r (rh + 1)) (rh + 2)
        | .empty => .node l p r lh
    | .empty => .node l p r lh
  else if rh > lh + 1 then
    match r with
    | .node rl rp rr _ =>
      let rlh := rl.height
      if rlh ≤ rr.height then .node (.node l p rl (rlh + 1)) rp rr (rlh + 1 + 1)
      else
        match rl with
        | .node rll rlp rlr _ => .node (.node l p rll (lh + 1)) rlp (.node rlr rp rr (lh + 1)) (lh + 2)
        | .empty => .node l p r rh
    | .empty => .node l p r rh
  else .node l p r ((if lh > rh then lh else rh) + 1)

/-- `link_to_pool` at the end of the path of a failed lookup, rebalancing back up that path. -/
def linkToPool (n : Peer) : Pool → Pool
  | .empty => .node .empty n .empty 1
  | .node left u right h =>
    if n.v4daddr = u.v4daddr then .node left u right h
    else if n.v4daddr.toNat < u.v4daddr.toNat then avlRebalance (linkToPool n left) u right
    else avlRebalance left u (linkToPool n right)

/-- Takes the rightmost node `t` out of a subtree: `lookup_rightempty`, its slot set to `t->avl_left`, and
the rebalancing back up to the subtree's own slot. -/
def takeRightmost (left : Pool) (p : Peer) : Pool → Pool × Peer
  | .empty => (left, p)
  | .node l q r _ =>
    let (right, t) := takeRightmost l q r
    (avlRebalance left p right, t)

/-- Takes the node of address `daddr` out of the tree, with the rebalancing of `unlink_from_pool`. -/
def unlinkNode (daddr : BitVec 32) : Pool → Pool
  | .empty => .empty
  | .node left u right _ =>
    if daddr = u.v4daddr then
      match left with
      | .empty => right
      | .node ll lp lr _ =>
        let (left, t) := takeRightmost ll lp lr
        avlRebalance left t right
    else if daddr.toNat < u.v4daddr.toNat then avlRebalance (unlinkNode daddr left) u right
    else avlRebalance left u (unlinkNode daddr right)

def Pool.inorder : Pool → List Peer
  | .empty => []
  | .node left p right _ => left.inorder ++ p :: right.inorder

instance : Membership Peer Pool :=
  ⟨fun t p => p ∈ t.inorder⟩

def Pool.Sorted (t : Pool) : Prop :=
  t.inorder.Pairwise fun p q => p.v4daddr.toNat < q.v4daddr.toNat

theorem inorder_avlRebalance (l : Pool) (p : Peer) (r : Pool) :
    (avlRebalance l p r).inorder = l.inorder ++ p :: r.inorder := by
  unfold avlRebalance
  dsimp only
  split
  · cases l with
    | empty => rfl
    | node ll lp lr lh =>
      dsimp only
      split
      · simp [Pool.inorder]
      · cases lr with
        | empty => rfl
        | node lrl lrp lrr lrh => simp [Pool.inorder]
  · split
    · cases r with
      | empty => rfl
      | node rl rp rr rh =>
        dsimp only
        split
        · simp [Pool.inorder]
        · cases rl with
          | empty => rfl
          | node rll rlp rlr rlh => simp [Pool.inorder]
    · rfl

theorem inorder_takeRightmost (left : Pool) (p : Peer) (right : Pool) :
    (takeRightmost left p right).1.inorder ++ [(takeRightmost left p right).2] =
      left.inorder ++ p :: right.inorder := by
  induction right generalizing left p with
  | empty => rfl
  | node l q r h _ ih =>
    unfold takeRightmost
    rw [inorder_avlRebalance, append_assoc, cons_append, ih]
    rfl

variable {t l r : Pool} {p q n : Peer} {h : ℕ} {daddr : BitVec 32}

theorem mem_node : q ∈ Pool.node l p r h ↔ q ∈ l ∨ q = p ∨ q ∈ r := by
  change q ∈ l.inorder ++ p :: r.inorder ↔ _
  rw [mem_append, mem_cons]
  rfl

theorem Pool.Sorted.node (s : (Pool.node l p r h).Sorted) :
    l.Sorted ∧ r.Sorted ∧ (∀ q ∈ l, q.v4daddr.toNat < p.v4daddr.toNat) ∧
      ∀ q ∈ r, p.v4daddr.toNat < q.v4daddr.toNat := by
  obtain ⟨left, right, across⟩ := pairwise_append.mp s
  obtain ⟨above, right⟩ := pairwise_cons.mp right
  exact ⟨left, right, fun q mem => across q mem p mem_cons_self, above⟩

theorem lookup_mem (found : lookup daddr t = some p) : p ∈ t ∧ p.v4daddr = daddr := by
  induction t with
  | empty => exact nomatch found
  | node l u r h left right =>
    unfold lookup at found
    split at found
    next same =>
      obtain rfl := Option.some.inj found
      exact ⟨mem_node.mpr (.inr (.inl rfl)), same.symm⟩
    next =>
      split at found
      · obtain ⟨mem, eq⟩ := left found
        exact ⟨mem_node.mpr (.inl mem), eq⟩
      · obtain ⟨mem, eq⟩ := right found
        exact ⟨mem_node.mpr (.inr (.inr mem)), eq⟩

section

variable (sorted : t.Sorted)
include sorted

theorem inorder_linkToPool (fresh : lookup n.v4daddr t = none) :
    ∃ xs ys, t.inorder = xs ++ ys ∧ (linkToPool n t).inorder = xs ++ n :: ys ∧
      (∀ x ∈ xs, x.v4daddr.toNat < n.v4daddr.toNat) ∧ ∀ y ∈ ys, n.v4daddr.toNat < y.v4daddr.toNat := by
  induction t with
  | empty => exact ⟨[], [], rfl, rfl, nofun, nofun⟩
  | node l u r h left right =>
    obtain ⟨sl, sr, below, above⟩ := sorted.node
    unfold lookup at fresh
    unfold linkToPool
    split at fresh
    next => exact nomatch fresh
    next other =>
      rw [if_neg other]
      split at fresh
      next lt =>
        obtain ⟨xs, ys, eq, linked, lower, higher⟩ := left sl fresh
        refine ⟨xs, ys ++ u :: r.inorder, ?_, ?_, lower, forall_mem_append.mpr ⟨higher, forall_mem_cons.mpr ⟨lt, ?_⟩⟩⟩
        · rw [Pool.inorder, eq, append_assoc]
        · rw [if_pos lt, inorder_avlRebalance, linked, append_assoc, cons_append]
        · exact fun y mem => lt.trans (above y mem)
      next ge =>
        have gt : u.v4daddr.toNat < n.v4daddr.toNat := by
          have ne : n.v4daddr.toNat ≠ u.v4daddr.toNat := fun eq => other (BitVec.eq_of_toNat_eq eq)
          omega
        obtain ⟨xs, ys, eq, linked, lower, higher⟩ := right sr fresh
        refine ⟨l.inorder ++ u :: xs, ys, ?_, ?_, forall_mem_append.mpr ⟨?_, forall_mem_cons.mpr ⟨gt, lower⟩⟩, higher⟩
        · rw [Pool.inorder, eq, append_assoc, cons_append]
        · rw [if_neg ge, inorder_avlRebalance, linked, append_assoc, cons_append]
        · exact fun x mem => (below x mem).trans gt

theorem lookup_of_mem (mem : p ∈ t) : lookup p.v4daddr t = some p ∧
    ∃ xs ys, t.inorder = xs ++ p :: ys ∧ (unlinkNode p.v4daddr t).inorder = xs ++ ys := by
  induction t with
  | empty => exact absurd mem not_mem_nil
  | node l u r h left right =>
    obtain ⟨sl, sr, below, above⟩ := sorted.node
    unfold lookup unlinkNode
    rcases mem_node.mp mem with mem | rfl | mem
    · have lt := below p mem
      have ne : p.v4daddr ≠ u.v4daddr := fun same => by rw [same] at lt; omega
      obtain ⟨found, xs, ys, eq, unlinked⟩ := left sl mem
      rw [if_neg ne, if_pos lt, if_neg ne, if_pos lt, inorder_avlRebalance, unlinked, Pool.inorder, eq]
      exact ⟨found, xs, ys ++ u :: r.inorder, by rw [append_assoc, cons_append], append_assoc ..⟩
    · rw [if_pos rfl, if_pos rfl]
      refine ⟨rfl, l.inorder, r.inorder, rfl, ?_⟩
      cases l with
      | empty => rfl
      | node ll lp lr lh =>
        rw [inorder_avlRebalance, ← singleton_append, ← append_assoc, inorder_takeRightmost]
        rfl
    · have lt := above p mem
      have ne : p.v4daddr ≠ u.v4daddr := fun same => by rw [same] at lt; omega
      obtain ⟨found, xs, ys, eq, unlinked⟩ := right sr mem
      rw [if_neg ne, if_neg lt.not_gt, if_neg ne, if_neg lt.not_gt, inorder_avlRebalance, unlinked, Pool.inorder, eq]
      exact ⟨found, l.inorder ++ u :: xs, ys, by rw [append_assoc, cons_append], by rw [append_assoc, cons_append]⟩

theorem mem_linkToPool (fresh : lookup n.v4daddr t = none) :
    q ∈ linkToPool n t ↔ q = n ∨ q ∈ t := by
  obtain ⟨xs, ys, eq, linked, -, -⟩ := inorder_linkToPool sorted fresh
  change q ∈ (linkToPool n t).inorder ↔ q = n ∨ q ∈ t.inorder
  rw [linked, eq, mem_append, mem_append, mem_cons]
  exact or_left_comm

theorem sorted_linkToPool (fresh : lookup n.v4daddr t = none) : (linkToPool n t).Sorted := by
  obtain ⟨xs, ys, eq, linked, lower, higher⟩ := inorder_linkToPool sorted fresh
  unfold Pool.Sorted at sorted ⊢
  rw [eq] at sorted
  obtain ⟨left, right, across⟩ := pairwise_append.mp sorted
  rw [linked]
  exact pairwise_append.mpr ⟨left, pairwise_cons.mpr ⟨higher, right⟩,
    fun x mem => forall_mem_cons.mpr ⟨lower x mem, across x mem⟩⟩

theorem mem_unlinkNode (mem : p ∈ t) : q ∈ unlinkNode p.v4daddr t ↔ q ∈ t ∧ q ≠ p := by
  obtain ⟨-, xs, ys, eq, unlinked⟩ := lookup_of_mem sorted mem
  unfold Pool.Sorted at sorted
  change q ∈ (unlinkNode p.v4daddr t).inorder ↔ q ∈ t.inorder ∧ q ≠ p
  rw [eq] at sorted
  obtain ⟨-, right, across⟩ := pairwise_append.mp sorted
  have after : p ∉ ys := fun mem => Nat.lt_irrefl _ ((pairwise_cons.mp right).1 p mem)
  rw [unlinked, eq, mem_append, mem_append, mem_cons]
  grind

theorem sorted_unlinkNode (mem : p ∈ t) : (unlinkNode p.v4daddr t).Sorted := by
  obtain ⟨-, xs, ys, eq, unlinked⟩ := lookup_of_mem sorted mem
  unfold Pool.Sorted at sorted ⊢
  rw [eq] at sorted
  rw [unlinked]
  exact sorted.sublist ((List.Sublist.refl xs).append (sublist_cons_self p ys))

end

end InetPeer
