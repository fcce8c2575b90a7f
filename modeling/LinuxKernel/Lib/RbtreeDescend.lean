/- Searches in a red-black tree: the descent that callers of lib/rbtree.c write themselves. -/
import LinuxKernel.Lib.RbtreeBalance

namespace Rbtree

open PointerTree List PointerTree.Ctx PointerTree.Tree

/-- What a search does at a node: it goes on below, or ends with a node that is the first of the upper part or
the last of the lower part. -/
inductive Turn where
  | left
  | right
  | stopLeft
  | stopRight
  deriving DecidableEq, Repr

/-- The variables of a search: the place it has come to, the node above it, and the nodes where it last went
left and right. -/
structure Descent where
  link : Slot Word
  parent : Word
  next : Word
  prev : Word

def deref (s : Heap) : Slot Word → Word
  | .top => s.rbNode
  | .below p d => child s p d

def descendTurn (s : Heap) (test : Word → Turn) (w : Descent) : Descent ⊕ Descent :=
  let node := deref s w.link
  if node = 0 then .inr w
  else
    match test node with
    | .left => .inl ⟨.below node .left, node, node, w.prev⟩
    | .right => .inl ⟨.below node .right, node, w.next, node⟩
    | .stopLeft => .inr { w with parent := node, next := node }
    | .stopRight => .inr { w with parent := node, prev := node }

/-- The loop from the top; the number bounds its turns. -/
def descend (n : Nat) (s : Heap) (test : Word → Turn) : Option Descent :=
  Loop.run (descendTurn s test) n ⟨.top, 0, 0, 0⟩

/-- The tests cut the nodes into a lower and an upper part. -/
structure Cuts (test : Word → Turn) (lo hi : List Word) : Prop where
  low : ∀ x ∈ lo, test x = .right ∨ test x = .stopRight ∧ lo.getLast? = some x
  high : ∀ x ∈ hi, test x = .left ∨ test x = .stopLeft ∧ hi.head? = some x

/-- The ways a search ends: at a node where it stops, or at the empty place between the two parts. -/
inductive Ends (s : Heap) (test : Word → Turn) (lo hi : List Word) (d : Descent) : Prop where
  | first (stop : test d.next = .stopLeft) (head : hi.head? = some d.next)
  | last (stop : test d.prev = .stopRight) (last : lo.getLast? = some d.prev)
  | place (next : d.next = hi.head?.getD 0) (prev : d.prev = lo.getLast?.getD 0)
      (empty : EmptyAt s (lo ++ hi) d.parent d.link) (at_ : ∀ y, insertAt (lo ++ hi) y d.link = lo ++ y :: hi)

variable {s : Heap} {test : Word → Turn} {lo hi : List Word} {ctx : RbCtx} {t : Tree Word Color}

theorem RbZip.deref_slot (h : RbZip s ctx t) : deref s ctx.slot = t.ptr := by
  cases ctx with
  | nil => exact h.zip.around
  | cons f ctx => exact RbZip.top_child ((rbZip_mk f.dir).mpr h)

theorem EmptyAt.deref {seq : List Word} {parent : Word} {slot : Slot Word} (h : EmptyAt s seq parent slot) :
    deref s slot = 0 := by
  cases slot with
  | top => exact h.2
  | below p d => exact h.2.2

theorem RbZip.emptyAt (h : RbZip s ctx .nil) : EmptyAt s (ctx.before ++ ctx.behind) ctx.up ctx.slot := by
  have empty := h.deref_slot
  cases ctx with
  | nil => exact ⟨rfl, empty⟩
  | cons f ctx =>
    obtain ⟨d, p, c, sib⟩ := f
    refine ⟨rfl, ?_, empty⟩
    cases d <;> simp [before, behind]

/-- The subtree that is left holds the end of the lower part and the beginning of the upper one. -/
structure At (s : Heap) (lo hi : List Word) (k : Nat) (w : Descent) : Prop where
  exists_ctx : ∃ (ctx : RbCtx) (t : Tree Word Color) (a b : List Word), RbZip s ctx t ∧ lo = ctx.before ++ a ∧
    hi = b ++ ctx.behind ∧ t.inorder = a ++ b ∧ k = t.inorder.length ∧
    w = ⟨ctx.slot, ctx.up, ctx.behind.head?.getD 0, ctx.before.getLast?.getD 0⟩

theorem middle_cases {a b l r : List Word} {x : Word} (h : l ++ x :: r = a ++ b) :
    (∃ a', a = l ++ x :: a' ∧ r = a' ++ b) ∨ ∃ b', l = a ++ b' ∧ b = b' ++ x :: r := by
  rcases append_eq_append_iff.mp h with ⟨c, rfl, eq⟩ | ⟨c, rfl, eq⟩
  · cases c with
    | nil => exact .inr ⟨[], by simp, by simpa using eq.symm⟩
    | cons y c =>
      obtain ⟨rfl, rfl⟩ := List.cons.inj eq
      exact .inl ⟨c, rfl, rfl⟩
  · exact .inr ⟨c, rfl, eq⟩

theorem At.turn (cuts : Cuts test lo hi) {k : Nat} {w : Descent} (h : At s lo hi k w) :
    (∃ j w', descendTurn s test w = .inl w' ∧ j < k ∧ At s lo hi j w') ∨
      ∃ d, descendTurn s test w = .inr d ∧ Ends s test lo hi d := by
  obtain ⟨ctx, t, a, b, zip, low, high, parts, rfl, rfl⟩ := h
  rw [descendTurn, zip.deref_slot]
  cases t with
  | nil =>
    obtain ⟨rfl, rfl⟩ := append_eq_nil_iff.mp parts.symm
    rw [append_nil] at low
    subst low high
    exact .inr ⟨_, rfl, .place rfl rfl zip.emptyAt zip.insertAt_slot⟩
  | node l x c r =>
    have ne : x ≠ 0 := RbZip.top_ne_zero (d := .left) zip
    rw [ptr, if_neg ne]
    rcases middle_cases parts with ⟨a', rfl, right⟩ | ⟨b', left, rfl⟩
    · -- the node belongs to the lower part
      rcases cuts.low x (by simp [low]) with go | ⟨stop, last⟩
      · rw [go]
        refine .inl ⟨r.inorder.length, _, rfl, ?_, ⟨⟨.right, x, c, l⟩ :: ctx, r, a', b, ?_⟩⟩
        · simp [inorder]
          omega
        · exact ⟨(rbZip_mk .right).mp zip, by simp [low, before], high, right, rfl, by simp [slot, up,
            before, behind]⟩
      · rw [stop]
        exact .inr ⟨_, rfl, .last stop last⟩
    · rcases cuts.high x (by simp [high]) with go | ⟨stop, first⟩
      · rw [go]
        refine .inl ⟨l.inorder.length, _, rfl, ?_, ⟨⟨.left, x, c, r⟩ :: ctx, l, a, b', ?_⟩⟩
        · simp [inorder]
        · exact ⟨(rbZip_mk .left).mp zip, low, by simp [high, behind], left, rfl, by simp [slot, up,
            before, behind]⟩
      · rw [stop]
        exact .inr ⟨_, rfl, .first stop first⟩

variable {n : Nat}

theorem descend_spec (stored : Stored s (lo ++ hi)) (cuts : Cuts test lo hi) (hn : (lo ++ hi).length < n) :
    ∃ d, descend n s test = some d ∧ Ends s test lo hi d := by
  obtain ⟨t, zip, -, order⟩ := stored
  have start : At s lo hi (lo ++ hi).length ⟨.top, 0, 0, 0⟩ :=
    ⟨[], t, lo, hi, zip, rfl, by simp [behind], order, by rw [order], rfl⟩
  exact Loop.run_total _ (At s lo hi) _ (fun k w h => h.turn cuts) start hn

/-- One turn of the loop downwards in `rb_next` and `rb_prev`. -/
def downTurn (d : Dir) (s : Heap) (node : Word) : Word ⊕ Word :=
  if child s node d ≠ 0 then .inl (child s node d) else .inr node

/-- One turn of the loop upwards, `while ((parent = rb_parent(node)) && node == parent->rb_right)`. -/
def climbTurn (d : Dir) (s : Heap) (node : Word) : Word ⊕ Word :=
  let parent := rbParent s node
  if parent ≠ 0 ∧ node = child s parent d then .inl parent else .inr parent

/-- The common body of `rb_next` and `rb_prev`. -/
def neighbour (d : Dir) (n : Nat) (s : Heap) (node : Word) : Option Word :=
  if rbParent s node = node then some 0
  else if child s node d ≠ 0 then Loop.run (downTurn d.flip s) n (child s node d)
  else Loop.run (climbTurn d s) n node

def rbNext : Nat → Heap → Word → Option Word := neighbour .right

def rbPrev : Nat → Heap → Word → Option Word := neighbour .left

/-- A list in the order in which a walk in the direction meets it. -/
def toward : Dir → List Word → List Word
  | .left, l => l.reverse
  | .right, l => l

/-- The nodes on the side of a context in that direction, the nearest first. -/
def ahead : Dir → RbCtx → List Word
  | .left, ctx => ctx.before.reverse
  | .right, ctx => ctx.behind

theorem toward_mk (d : Dir) (a : RbTree) (p : Word) (c : Color) (b : RbTree) :
    toward d (mk d.flip a p c b).inorder = toward d a.inorder ++ p :: toward d b.inorder := by
  cases d <;> simp [toward, mk, inorder, Dir.flip]

theorem toward_ne_nil (d : Dir) {l : List Word} (h : l ≠ []) : toward d l ≠ [] := by
  cases d <;> simpa [toward] using h

theorem downTurn_spec (d : Dir) (h : RbZip s ctx t) (ht : t.ptr ≠ 0) (hn : t.inorder.length ≤ n) :
    Loop.run (downTurn d.flip s) n t.ptr = some ((toward d t.inorder).head?.getD 0) := by
  induction n generalizing ctx t with
  | zero =>
    obtain rfl : t = .nil := by
      cases t with
      | nil => rfl
      | node l p c r => simp [inorder] at hn
    exact absurd rfl ht
  | succ n ih =>
    cases t with
    | nil => exact absurd rfl ht
    | node l p c r =>
      obtain ⟨a, b, eq⟩ := exists_mk (d := d.flip) l p c r
      rw [eq] at h ht hn ⊢
      have below := (rbZip_mk d.flip).mp h
      have len := (perm_inorder_mk d.flip a p c b).length_eq
      rw [ptr_mk, Loop.run, downTurn, h.top_child, toward_mk]
      split_ifs with empty
      · have nonempty := toward_ne_nil d (ne_nil_of_mem (ptr_mem_inorder empty))
        simp only [length_cons, length_append] at len
        rw [List.head?_append_of_ne_nil _ nonempty]
        exact ih below empty (by omega)
      · obtain rfl := (ptr_eq_zero below).mp (not_not.mp empty)
        cases d <;> rfl

theorem climbTurn_spec (d : Dir) (h : RbZip s ctx t) (ht : t.ptr ≠ 0) (hn : ctx.length < n) :
    Loop.run (climbTurn d s) n t.ptr = some ((ahead d ctx).head?.getD 0) := by
  induction n generalizing ctx t with
  | zero => omega
  | succ n ih =>
    obtain ⟨p, parent⟩ : ∃ p, t.ptr = p ∧ rbParent s p = ctx.up := by
      cases t with
      | nil => exact absurd rfl ht
      | node l p c r => exact ⟨p, rfl, RbZip.top_parent (d := .left) h⟩
    rw [Loop.run, climbTurn, parent.1, parent.2]
    cases ctx with
    | nil =>
      cases d <;> rfl
    | cons f ctx =>
      obtain ⟨e, q, c, sib⟩ := f
      have above := (rbZip_mk e).mpr h
      rw [up]
      rcases Dir.eq_or_flip d e with rfl | rfl
      · rw [if_pos ⟨above.top_ne_zero, parent.1.symm.trans above.top_child.symm⟩]
        have up := ih above (by simpa using above.top_ne_zero) (by simpa using hn)
        cases e <;> simpa [ahead, before, behind] using up
      · have other := above.top_child_flip
        rw [Dir.flip_flip] at other
        rw [if_neg fun both => h.sib_ptr_ne ht (parent.1.trans (both.2.trans other))]
        cases d <;> simp [ahead, before, behind, Dir.flip]

theorem neighbour_focus (d : Dir) {a b : RbTree} {x : Word} {c : Color}
    (h : RbZip s ctx (.mk d.flip a x c b)) (hn : (ctx.plug (.mk d.flip a x c b)).inorder.length < n) :
    neighbour d n s x = some ((toward d b.inorder ++ ahead d ctx).head?.getD 0) := by
  have other := h.top_child_flip
  have below := ((rbZip_mk d.flip).mp h).swap
  rw [Dir.flip_flip] at other below
  have whole := (perm_inorder_plug ctx (.mk d.flip a x c b)).length_eq
  have part := (perm_inorder_mk d.flip a x c b).length_eq
  have short := length_le_inorder ctx (.mk d.flip a x c b)
  have top : ctx.up ≠ x := by
    intro eq
    refine ((nodup_mk d.flip).mp h.zip.nodup).1.2 ?_
    rw [← eq]
    exact up_mem_nodes (eq ▸ h.top_ne_zero)
  simp only [length_append, length_cons] at whole part
  rw [neighbour, h.top_parent, if_neg top, other]
  split_ifs with empty
  · rw [List.head?_append_of_ne_nil _ (toward_ne_nil d (ne_nil_of_mem (ptr_mem_inorder empty)))]
    exact downTurn_spec d below empty (by omega)
  obtain rfl := (ptr_eq_zero below).mp (not_not.mp empty)
  have climb := climbTurn_spec d h (by simpa using h.top_ne_zero) (by omega : ctx.length < n)
  rw [ptr_mk] at climb
  rw [climb]
  cases d <;> rfl

theorem neighbour_spec {x : Word} (stored : Stored s (lo ++ x :: hi)) (hn : (lo ++ x :: hi).length < n) :
    rbNext n s x = some (hi.head?.getD 0) ∧ rbPrev n s x = some (lo.getLast?.getD 0) := by
  obtain ⟨t, zip, -, order⟩ := stored
  obtain ⟨ctx, l, c, r, rfl⟩ := exists_plug (t := t) (p := x) (by simp [order])
  have focus := (rbZip_plug ctx _).mp zip
  have out := focus.top_not_mem
  rw [← order] at hn
  rw [inorder_plug_node] at order
  obtain ⟨rfl, rfl⟩ : lo = ctx.before ++ l.inorder ∧ hi = r.inorder ++ ctx.behind := by
    rcases middle_cases order.symm with ⟨a', eq, -⟩ | ⟨b', rfl, eq⟩
    · exact absurd (by simp [eq]) out.1
    · cases b' with
      | nil => simpa using eq.symm
      | cons y b' => exact absurd (by simp [(List.cons.inj eq).2]) out.2
  constructor
  · exact neighbour_focus .right focus hn
  · rw [← List.head?_reverse, reverse_append]
    exact neighbour_focus .left (show RbZip s ctx (.mk .right r x c l) from focus) hn

theorem stored_one : ∃ s : Heap, Stored s [4] := by
  have empty : EmptyAt ⟨fun _ => ⟨0, 0, 0⟩, 0⟩ [] 0 .top := ⟨rfl, rfl⟩
  obtain ⟨s, -, stored⟩ := rbInsert_spec (n := 1) (stored_nil rfl) (by decide : (4 : Word) ≠ 0) rfl
    not_mem_nil empty (by decide)
  exact ⟨s, stored⟩

/-- `rb_first` and `rb_last`. -/
def endmost (d : Dir) (n : Nat) (s : Heap) : Option Word :=
  if s.rbNode = 0 then some 0 else Loop.run (downTurn d s) n s.rbNode

def rbFirst : Nat → Heap → Option Word := endmost .left

def rbLast : Nat → Heap → Option Word := endmost .right

theorem endmost_spec (d : Dir) {seq : List Word} (stored : Stored s seq) (hn : seq.length < n) :
    endmost d.flip n s = some ((toward d seq).head?.getD 0) := by
  obtain ⟨t, zip, -, rfl⟩ := stored
  rw [endmost, show s.rbNode = t.ptr from zip.deref_slot]
  split_ifs with empty
  · obtain rfl := (ptr_eq_zero zip).mp empty
    cases d <;> rfl
  · exact downTurn_spec d zip empty hn.le

/-- The four functions lead along the nodes in order, with NULL at both ends. -/
theorem rb_walks_in_order {seq : List Word} (stored : Stored s seq) (hn : seq.length < n) :
    rbFirst n s = some (seq.head?.getD 0) ∧ rbLast n s = some (seq.getLast?.getD 0) ∧
      ∀ lo x hi, seq = lo ++ x :: hi →
        rbNext n s x = some (hi.head?.getD 0) ∧ rbPrev n s x = some (lo.getLast?.getD 0) := by
  refine ⟨endmost_spec .right stored hn, ?_, ?_⟩
  · rw [← head?_reverse]
    exact endmost_spec .left stored hn
  · rintro lo x hi rfl
    exact neighbour_spec stored hn

theorem rb_walks_in_order_three : ∃ s, rising = some s ∧ rbFirst 4 s = some 4 ∧ rbNext 4 s 4 = some 8 ∧
    rbNext 4 s 8 = some 12 ∧ rbNext 4 s 12 = some 0 ∧ rbPrev 4 s 12 = some 8 := by
  obtain ⟨s, run, -, reaches⟩ := reaches_rising
  obtain ⟨first, -, walk⟩ := rb_walks_in_order (n := 4) reaches.stored (by simp)
  have last := walk [4, 8] 12 [] rfl
  exact ⟨s, run, first, (walk [] 4 [8, 12] rfl).1, (walk [4] 8 [12] rfl).1, last⟩

end Rbtree
