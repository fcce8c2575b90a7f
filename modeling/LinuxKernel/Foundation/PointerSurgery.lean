/- Local surgery on stored trees: rotation, removal, replacement and linking of nodes. -/
import LinuxKernel.Foundation.PointerTree

namespace PointerTree

open Function List PointerTree.Graph PointerTree.Tree

variable {α τ : Type*} [Zero α] [DecidableEq α] {g g' : Graph α τ} {ctx : Ctx α τ}
  {t a b : Tree α τ} {q p : α} {c : τ}

namespace Graph

/-- Lets the link to `old` below `par`, which side `d` is tried for first, point to `new`. -/
def relink (g : Graph α τ) (d : Dir) (par old new : α) : Graph α τ :=
  if par ≠ 0 then
    if old = (g.cell par).child d then g.setChild par d new else g.setChild par d.flip new
  else { g with root := new }

/-- Sets the parent of a node that may be missing. -/
def reparent (g : Graph α τ) (p q : α) : Graph α τ := if p ≠ 0 then g.setParent p q else g

/-- Lets the child of `x` on the side other than `d` take the place of `x`. -/
def rotate (g : Graph α τ) (d : Dir) (x : α) : Graph α τ :=
  let y := (g.cell x).child d.flip
  let par := (g.cell x).parent
  let b := (g.cell y).child d
  let g := (g.setChild x d.flip b).reparent b x
  let g := (g.setChild y d x).setParent y par
  (g.relink d par x y).setParent x y

/-- Lets the only child of `x` take the place of `x`. -/
def splice (g : Graph α τ) (x child : α) : Graph α τ :=
  let par := (g.cell x).parent
  (g.reparent child par).relink .left par x child

/-- Lets `y` take the place of `x`. -/
def replace (g : Graph α τ) (x y : α) : Graph α τ :=
  let v := g.cell x
  let g := g.relink .left v.parent x y
  let g := (g.reparent v.left y).reparent v.right y
  { g with cell := update g.cell y (g.cell x) }

/-- Lets `y`, the next node after `x` in order, take the place of `x`, and its right child the place
of `y`. -/
def hoist (g : Graph α τ) (x y : α) : Graph α τ :=
  let v := g.cell x
  let w := g.cell y
  let g := g.relink .left v.parent x y
  let g :=
    if w.parent = x then g
    else (((g.reparent w.right w.parent).setChild w.parent .left w.right).setChild y .right
      v.right).setParent v.right y
  (g.modify y fun w => ⟨v.parent, v.left, w.right, v.tag⟩).setParent v.left y

section Cells

variable (g : Graph α τ) (d : Dir) (p q x : α)

@[simp] theorem reparent_root : (g.reparent p q).root = g.root := by
  unfold reparent
  split <;> rfl

theorem reparent_cell : (g.reparent p q).cell x =
    if x = p ∧ p ≠ 0 then { g.cell x with parent := q } else g.cell x := by
  unfold reparent
  split
  · next h => simp [setParent_cell, h]
  · next h => simp [h]

theorem relink_cell_eq (par old new : α) : (g.relink d par old new).cell x = if x = par ∧ par ≠ 0 then
      (g.cell x).setChild (if old = (g.cell par).child d then d else d.flip) new else g.cell x := by
  unfold relink
  by_cases hp : par = 0
  · simp [hp]
  by_cases hx : x = par
  · subst hx
    simp only [hp, ne_eq, not_false_eq_true, if_true]
    split <;> simp [setChild_cell]
  · simp only [hp, ne_eq, not_false_eq_true, if_true]
    split <;> simp [setChild_cell]

theorem relink_cell_of_ne (par old new : α) (h : x ≠ par) : (g.relink d par old new).cell x = g.cell x := by
  unfold relink
  split
  · split <;> simp [setChild_cell, h]
  · rfl

end Cells

end Graph

variable {x : α}

theorem Graph.relink_cell (d : Dir) (old new : α) (h : x ∉ ctx.nodes) :
    (g.relink d ctx.up old new).cell x = g.cell x := by
  by_cases hu : ctx.up = 0
  · simp [relink, hu]
  · exact relink_cell_of_ne g d x _ _ _ (ne_of_mem_of_not_mem (up_mem_nodes hu) h).symm

theorem Graph.relink_cell_congr (d : Dir) (old new : α)
    (h : ∀ x ∈ ctx.nodes, g'.cell x = g.cell x) (hx : x ∈ ctx.nodes) :
    (g'.relink d ctx.up old new).cell x = (g.relink d ctx.up old new).cell x := by
  rw [relink_cell_eq, relink_cell_eq, h x hx]
  split
  · next top => rw [h _ (up_mem_nodes top.2)]
  · rfl

theorem Graph.reparent_cell_of_not_mem (h : x ∉ t.inorder) : (g.reparent t.ptr q).cell x = g.cell x := by
  rw [reparent_cell, if_neg]
  rintro ⟨rfl, ne⟩
  exact h (ptr_mem_inorder ne)

/-- A subtree is moved below `q` by storing the parent of its top. -/
theorem Linked.reparent (h : Linked g p t) (nodup : t.inorder.Nodup)
    (same : ∀ z ∈ t.inorder, g'.cell z = (g.reparent t.ptr q).cell z) : Linked g' q t := by
  cases t with
  | nil => trivial
  | node l z c r =>
    obtain ⟨ne, cell, hl, hr⟩ := h
    simp only [inorder, mem_append, mem_cons, ptr, reparent_cell, ne, and_true, ne_eq, not_false_eq_true] at same
    have apart := (nodup_cons.mp (nodup_middle.mp nodup)).1
    rw [mem_append, not_or] at apart
    refine ⟨ne, ?_, hl.congr fun x hx => ?_, hr.congr fun x hx => ?_⟩
    · rw [same z (.inr (.inl rfl)), if_pos rfl, cell]
    · rw [same x (.inl hx), if_neg (ne_of_mem_of_not_mem hx apart.1)]
    · rw [same x (.inr (.inr hx)), if_neg (ne_of_mem_of_not_mem hx apart.2)]

/-- The link into the context is found and redirected. -/
theorem Around.relink (h : Around g ctx q) (nodup : ctx.nodes.Nodup) (hq : q ≠ 0)
    (fresh : q ∉ ctx.nodes) (d : Dir) (new : α) : Around (g.relink d ctx.up q new) ctx new := by
  cases ctx with
  | nil => simp [relink, Around, Ctx.up]
  | cons f ctx =>
    obtain ⟨ne, cell, sib, rest⟩ := h
    simp only [Ctx.nodes, nodup_cons, mem_cons, mem_append, not_or] at nodup fresh
    have other : q ≠ f.sib.ptr := by
      intro h
      rw [h] at hq fresh
      exact fresh.2.1 (ptr_mem_inorder hq)
    have done : (g.relink d f.ptr q new).root = g.root ∧ (g.relink d f.ptr q new).cell f.ptr =
        vert f.dir (Ctx.up ctx) new f.sib.ptr f.tag := by
      unfold relink
      rcases Dir.eq_or_flip d f.dir with hd | hd
      · rw [hd] at cell ⊢
        simp [ne, cell, setChild_cell]
      · rw [hd] at cell
        simp [ne, hd, other, cell, setChild_cell]
    refine ⟨ne, done.2, sib.congr ?_, rest.congr done.1 ?_⟩
    · intro x hx
      exact relink_cell_of_ne g d x _ _ _ (ne_of_mem_of_not_mem hx nodup.1.1)
    · intro x hx
      exact relink_cell_of_ne g d x _ _ _ (ne_of_mem_of_not_mem hx nodup.1.2)

theorem Zip.setTag {d : Dir} (h : Zip g ctx (.mk d a p c b)) (c' : τ) : Zip (g.setTag p c') ctx (.mk d a p c' b) := by
  obtain ⟨ne, cell, ha, hb⟩ := (linked_mk d).mp h.tree
  have nodup := (nodup_mk d).mp h.nodup
  have perm : (Tree.mk d a p c' b).inorder = (Tree.mk d a p c b).inorder := by
    cases d <;> rfl
  have same : ∀ x, x ≠ p → (g.setTag p c').cell x = g.cell x := by
    intro x hx
    rw [Graph.setTag, modify_cell, if_neg hx]
  refine ⟨(linked_mk d).mpr ⟨ne, ?_, ha.congr ?_, hb.congr ?_⟩, ?_, ?_⟩
  · rw [Graph.setTag, modify_cell, if_pos rfl, cell, vert_setTag]
  · exact fun x hx => same x (ne_of_mem_of_not_mem hx nodup.1.1.1)
  · exact fun x hx => same x (ne_of_mem_of_not_mem hx nodup.1.1.2)
  · have around := h.around
    rw [ptr_mk] at around ⊢
    exact around.congr rfl fun x hx => same x (ne_of_mem_of_not_mem hx nodup.1.2)
  · rw [perm]
    exact h.nodup

variable {y : α} {cy : τ}

/-- A rotation touches its two nodes, the top of the subtree between them and the link from
above; every other node keeps its cell. -/
theorem Zip.rotate {d : Dir} {e : Tree α τ} {cx : τ} (h : Zip g ctx (.mk d a x cx (.mk d b y cy e))) :
    Zip (g.rotate d x) ctx (.mk d (.mk d a x cx b) y cy e) := by
  obtain ⟨hx, cellx, ha, hy⟩ := (linked_mk d).mp h.tree
  obtain ⟨hy0, celly, hb, he⟩ := (linked_mk d).mp hy
  have around := h.around
  have distinct := (nodup_mk d).mp ((zip_mk d.flip).mp (mk_flip d _ x cx a ▸ h)).nodup
  rw [ptr_mk] at cellx around
  simp only [Ctx.nodes, nodup_cons, mem_cons, mem_append, not_or, nodup_append', disjoint_append_left,
    disjoint_append_right, disjoint_cons_right] at distinct
  obtain ⟨⟨⟨yb, ye⟩, yx, ya, yctx⟩, ⟨nb, -, be⟩, ⟨⟨xa, xctx⟩, -, nctx, actx⟩, ⟨xb, xe⟩, ⟨ba, -⟩,
    bctx, ectx⟩ := distinct
  -- What stands in each cell before the link from above is redirected.
  obtain ⟨m, hm⟩ : ∃ m, m = (((g.setChild x d.flip b.ptr).reparent b.ptr x).setChild y d x).setParent y ctx.up :=
    ⟨_, rfl⟩
  have hg : g.rotate d x = (m.relink d ctx.up x y).setParent x y := by
    simp [hm, Graph.rotate, cellx, celly]
  have mid : ∀ z, z ≠ x → z ≠ y → z ∉ b.inorder → m.cell z = g.cell z := by
    intro z zx zy zb
    rw [hm, setParent_cell, if_neg zy, setChild_cell, if_neg zy,
      reparent_cell_of_not_mem zb, setChild_cell, if_neg zx]
  have rest : ∀ z, z ≠ x → z ≠ y → z ∉ b.inorder → z ∉ ctx.nodes →
      (g.rotate d x).cell z = g.cell z := by
    intro z zx zy zb zctx
    rw [hg, setParent_cell, if_neg zx, relink_cell d x y zctx, mid z zx zy zb]
  refine ⟨(linked_mk d).mpr ⟨hy0, ?_, (linked_mk d).mpr ⟨hx, ?_, ?_, ?_⟩, ?_⟩, ?_, ?_⟩
  · rw [hg, setParent_cell, if_neg yx, relink_cell d x y yctx, hm,
      setParent_cell, if_pos rfl, setChild_cell, if_pos rfl,
      reparent_cell_of_not_mem yb, setChild_cell, if_neg yx, celly,
      vert_setChild, vert_setParent, ptr_mk]
  · rw [hg, setParent_cell, if_pos rfl, relink_cell d x y xctx, hm, setParent_cell,
      if_neg (Ne.symm yx), setChild_cell, if_neg (Ne.symm yx), reparent_cell_of_not_mem xb,
      setChild_cell, if_pos rfl, cellx, vert_setChild_flip, vert_setParent]
  · refine ha.congr fun z hz => rest z ?_ ?_ (fun hb => ba hb hz) (actx hz)
    · exact ne_of_mem_of_not_mem hz xa
    · exact ne_of_mem_of_not_mem hz ya
  · refine hb.reparent nb fun z hz => ?_
    have zx := ne_of_mem_of_not_mem hz xb
    have zy := ne_of_mem_of_not_mem hz yb
    rw [hg, setParent_cell, if_neg zx, relink_cell d x y (bctx hz), hm, setParent_cell, if_neg zy, setChild_cell,
      if_neg zy, reparent_cell, reparent_cell, setChild_cell, if_neg zx]
  · refine he.congr fun z hz => rest z ?_ ?_ (fun hb => be hb hz) (ectx hz)
    · exact ne_of_mem_of_not_mem hz xe
    · exact ne_of_mem_of_not_mem hz ye
  · have outer : Around m ctx x :=
      around.congr (by simp [hm]) fun z hz =>
        mid z (ne_of_mem_of_not_mem hz xctx) (ne_of_mem_of_not_mem hz yctx) fun hb => bctx hb hz
    rw [ptr_mk, hg]
    refine (outer.relink nctx hx xctx d y).congr rfl ?_
    intro z hz
    rw [setParent_cell, if_neg (ne_of_mem_of_not_mem hz xctx)]
  · rw [inorder_rotate]
    exact h.nodup

theorem Zip.splice {d : Dir} (h : Zip g ctx (.mk d .nil x c t)) : Zip (g.splice x t.ptr) ctx t := by
  obtain ⟨hx, cellx, -, ht⟩ := (linked_mk d).mp h.tree
  have around := h.around
  rw [ptr_mk] at around
  obtain ⟨⟨⟨-, xt⟩, xctx⟩, nodup⟩ := (nodup_mk d).mp h.nodup
  obtain ⟨nt, nctx, apart⟩ := nodup_append'.mp nodup
  have hg : g.splice x t.ptr = (g.reparent t.ptr ctx.up).relink .left ctx.up x t.ptr := by
    simp [Graph.splice, cellx]
  refine ⟨ht.reparent nt fun z hz => ?_, ?_, nodup⟩
  · rw [hg, relink_cell _ _ _ (apart hz)]
  · have outer : Around (g.reparent t.ptr ctx.up) ctx x := around.congr (by simp) fun z hz =>
      reparent_cell_of_not_mem fun ht => apart ht hz
    rw [hg]
    exact outer.relink nctx hx xctx .left t.ptr

theorem Zip.replace {l r : Tree α τ} (h : Zip g ctx (.node l x c r)) (hy : y ≠ 0)
    (fresh : y ∉ (node l x c r).inorder ++ ctx.nodes) : Zip (g.replace x y) ctx (.node l y c r) := by
  obtain ⟨hx, cellx, hl, hr⟩ := h.tree
  have around : Around g ctx x := h.around
  simp only [inorder, append_assoc, cons_append, mem_append, mem_cons, not_or] at fresh
  obtain ⟨yl, yx, yr, yctx⟩ := fresh
  obtain ⟨⟨⟨xl, xr⟩, xctx⟩, nodup⟩ := (nodup_mk .left).mp h.nodup
  obtain ⟨⟨nl, nr, lr⟩, nctx, lctx, rctx⟩ := by simpa only [nodup_append', disjoint_append_left] using nodup
  -- Everything but the copy into the new node.
  have hg : g.replace x y =
      let g₁ := ((g.relink .left ctx.up x y).reparent l.ptr y).reparent r.ptr y
      { g₁ with cell := update g₁.cell y (g₁.cell x) } := by
    simp [Graph.replace, cellx]
  have old : ∀ z, z ≠ y → (g.replace x y).cell z =
      (((g.relink .left ctx.up x y).reparent l.ptr y).reparent r.ptr y).cell z := by
    intro z zy
    rw [hg]
    exact update_of_ne zy _ _
  have copied : (g.replace x y).cell y = g.cell x := by
    rw [hg]
    refine (update_self _ _ _).trans ?_
    rw [reparent_cell_of_not_mem xr, reparent_cell_of_not_mem xl,
      relink_cell _ _ _ xctx]
  refine ⟨⟨hy, ?_, hl.reparent nl fun z hz => ?_, hr.reparent nr fun z hz => ?_⟩, ?_, ?_⟩
  · rw [copied, cellx]
  · rw [old z (ne_of_mem_of_not_mem hz yl), reparent_cell_of_not_mem (lr hz), reparent_cell, reparent_cell,
      relink_cell _ _ _ (lctx hz)]
  · rw [old z (ne_of_mem_of_not_mem hz yr), reparent_cell _ r.ptr, reparent_cell _ r.ptr,
      reparent_cell_of_not_mem (fun hl => lr hl hz), relink_cell _ _ _ (rctx hz)]
  · refine (around.relink nctx hx xctx .left y).congr ?_ ?_
    · rw [hg]
      simp
    · intro z hz
      rw [old z (ne_of_mem_of_not_mem hz yctx),
        reparent_cell_of_not_mem (fun hr => rctx hr hz),
        reparent_cell_of_not_mem (fun hl => lctx hl hz)]
  · exact (nodup_mk .left).mpr ⟨⟨⟨yl, yr⟩, yctx⟩, nodup⟩

def Graph.store (g : Graph α τ) (slot : Slot α) (q : α) : Graph α τ :=
  match slot with
  | .top => { g with root := q }
  | .below p d => g.setChild p d q

/-- Makes `y` a leaf in an empty place below `par`. -/
def Graph.link (g : Graph α τ) (y par : α) (slot : Slot α) (c : τ) : Graph α τ :=
  store { g with cell := update g.cell y ⟨par, 0, 0, c⟩ } slot y

theorem Zip.link (h : Zip g ctx .nil) (hy : y ≠ 0) (fresh : y ∉ ctx.nodes) (c : τ) :
    Zip (g.link y ctx.up ctx.slot c) ctx (.node .nil y c .nil) := by
  have around := h.around
  have nodup := h.nodup
  simp only [inorder, nil_append] at nodup
  have leaf : (g.link y ctx.up ctx.slot c).cell y = ⟨ctx.up, 0, 0, c⟩ := by
    cases ctx with
    | nil => exact update_self _ _ _
    | cons f ctx =>
      have ne : y ≠ f.ptr := fun h => fresh (h ▸ mem_cons_self)
      simp [link, store, Ctx.slot, setChild_cell, ne]
  refine ⟨⟨hy, leaf, trivial, trivial⟩, ?_, ?_⟩
  · cases ctx with
    | nil => rfl
    | cons f ctx =>
      obtain ⟨ne, cell, sib, rest⟩ := around
      simp only [Ctx.nodes, nodup_cons, mem_cons, mem_append, not_or]
        at nodup fresh
      have same : ∀ z, z ≠ y → z ≠ f.ptr →
          (g.link y f.ptr (.below f.ptr f.dir) c).cell z = g.cell z := by
        intro z zy zf
        simp [link, store, setChild_cell, zy, zf]
      refine ⟨ne, ?_, sib.congr ?_, rest.congr rfl ?_⟩
      · simp [link, store, Ctx.slot, setChild_cell, Ne.symm fresh.1, cell,
          ptr]
      · exact fun z hz => same z (ne_of_mem_of_not_mem hz fresh.2.1)
          (ne_of_mem_of_not_mem hz nodup.1.1)
      · exact fun z hz => same z (ne_of_mem_of_not_mem hz fresh.2.2)
          (ne_of_mem_of_not_mem hz nodup.1.2)
  · exact nodup_cons.mpr ⟨fresh, nodup⟩

/-- The next node is the right child, or further down, at the left end of the right subtree: the same cells as
if it were cut out and then put in the place of `x`, apart from the cell of `x` itself. -/
theorem hoist_eq {L R P S : α} (hL : L ≠ 0) (cellx : g.cell x = ⟨ctx.up, L, S, c⟩)
    (celly : g.cell y = ⟨P, 0, R, cy⟩) (apart : [x, y, L, R].Nodup)
      (outside : ∀ z ∈ [P, S, x, y, L, R], z ∉ ctx.nodes)
    (place : (P = x ∧ S = y ∧ x ≠ 0 ∧ (R ≠ 0 → (g.cell R).parent = y)) ∨
      (P ≠ 0 ∧ S ≠ 0 ∧ (g.cell P).left = y ∧ P ∉ [x, y, L, R] ∧ S ∉ [x, y, L, R])) :
    (∀ q, q ≠ x → (g.hoist x y).cell q = ((g.splice y R).replace x y).cell q) ∧
      (g.hoist x y).root = ((g.splice y R).replace x y).root := by
  simp only [forall_mem_cons] at outside
  obtain ⟨Pctx, Sctx, xctx, yctx, Lctx, Rctx, -⟩ := outside
  simp only [nodup_cons, mem_cons, not_or] at apart place
  obtain ⟨⟨xy, xL, xR⟩, ⟨yL, yR⟩, LR, -⟩ := apart
  -- In both cases one link below `P` goes past `y`.
  have inside : ∀ {d S'}, S' ∉ ctx.nodes → g.splice y R = (g.reparent R P).setChild P d R →
      (g.splice y R).cell x = ⟨ctx.up, L, S', c⟩ →
      (∀ q, q ≠ x → q ∉ ctx.nodes → (g.hoist x y).cell q = ((g.splice y R).replace x y).cell q) →
      (∀ q, q ≠ x → (g.hoist x y).cell q = ((g.splice y R).replace x y).cell q) ∧
        (g.hoist x y).root = ((g.splice y R).replace x y).root := by
    intro d S' S'ctx cut first inner
    constructor
    · intro q hq
      by_cases hc : q ∈ ctx.nodes
      · have ne {z : α} : z ∉ ctx.nodes → q ≠ z := ne_of_mem_of_not_mem hc
        simp only [Graph.replace, hoist, cellx, celly, setParent_cell, modify_cell, update_apply, reparent_cell,
          first, ne yctx, ne Lctx, ne S'ctx, apply_ite Graph.cell, ite_apply, setChild_cell, ne Pctx,
            ne Rctx, ne Sctx,
          false_and, if_false, ite_self]
        refine (relink_cell_congr _ _ _ ?_ hc).symm
        intro z hz
        simp [cut, setChild_cell, reparent_cell, ne_of_mem_of_not_mem hz Pctx, ne_of_mem_of_not_mem hz Rctx]
      · exact inner q hq hc
    · simp only [Graph.replace, first]
      simp [hoist, cut, cellx, celly, relink, apply_ite Graph.root]
  rcases place with ⟨rfl, rfl, hx, hR⟩ | ⟨hP, hS, cellP, ⟨Px, -, -, PR⟩, Sx, Sy, SL, SR⟩
  · have cut : g.splice S R = (g.reparent R P).setChild P .right R := by
      simp [Graph.splice, relink, reparent_cell, celly, cellx, Vertex.child, hx, yL, xR, Dir.flip]
    have first : (g.splice S R).cell P = ⟨ctx.up, L, R, c⟩ := by
      simp [cut, setChild_cell, reparent_cell, xR, cellx, Vertex.setChild]
    refine inside Rctx cut first fun q hq hc => ?_
    simp only [Graph.replace, hoist, cellx, celly, if_true, setParent_cell, modify_cell, update_apply, reparent_cell,
      relink_cell _ _ _ xctx, first]
    simp only [relink_cell _ _ _ hc, cut, setChild_cell, reparent_cell, hq]
    by_cases qy : q = S
    · subst qy
      simp [celly, yL, xL, xR]
    by_cases qL : q = L
    · subst qL
      simp [qy, hL, LR]
    by_cases qR : q = R
    · subst qR
      by_cases q0 : q = 0
      · simp [q0, hL.symm, q0 ▸ qy]
      · have up := hR q0
        refine Vertex.ext ?_ ?_ ?_ ?_ <;> simp [qy, qL, q0, up]
    · simp [qy, qL, qR]
  · have cut : g.splice y R = (g.reparent R P).setChild P .left R := by
      simp [Graph.splice, relink, reparent_cell, celly, Vertex.child, hP, cellP, PR]
    have first : (g.splice y R).cell x = ⟨ctx.up, L, S, c⟩ := by
      simp [cut, setChild_cell, reparent_cell, Ne.symm Px, xR, cellx]
    refine inside Sctx cut first fun q hq hc => ?_
    simp only [Graph.replace, hoist, cellx, celly, if_neg Px, setParent_cell, modify_cell, update_apply,
      reparent_cell,
      relink_cell _ _ _ xctx, setChild_cell, first]
    simp only [relink_cell _ _ _ hc, cut, setChild_cell, reparent_cell]
    by_cases qy : q = y
    · subst qy
      simp [yL, Ne.symm Sy, xL, Ne.symm Sx, Vertex.setChild]
    by_cases qL : q = L
    · subst qL
      simp [qy, hL, Ne.symm SL]
    by_cases qS : q = S
    · subst qS
      simp [qy, qL, hS]
    · simp [qy, qL, qS]

theorem Zip.hoist {l r : Tree α τ} {path : Ctx α τ} (left : ∀ f ∈ path, f.dir = .left)
    (h : Zip g (path ++ ⟨.right, x, c, l⟩ :: ctx) (.node .nil y cy r)) (hl : l.ptr ≠ 0) :
    Zip (g.hoist x y) (path ++ ⟨.right, y, c, l⟩ :: ctx) r := by
  have distinct := h.nodup
  have cut := (zip_append path _ r).mp (Zip.splice (d := .left) h)
  have whole : Zip g ctx (.node l x c (path.plug (.node .nil y cy r))) :=
    (zip_mk .right).mpr ((zip_append path _ _).mp h)
  obtain ⟨hx, cellx, -, -⟩ := whole.tree
  obtain ⟨hy, celly, -, hr⟩ := h.tree
  simp only [inorder, nil_append, Ctx.nodes_append, Ctx.nodes, cons_append,
    nodup_cons, mem_append, mem_cons, not_or, nodup_append',
    disjoint_append_right, disjoint_cons_right] at distinct
  obtain ⟨⟨yr, yp, yx, yl, yctx⟩, -, ⟨-, ⟨⟨xl, xctx⟩, -, -, lctx⟩, xp, pl, pctx⟩, rp, xr, rl,
    rctx⟩ := distinct
  have inner : ∀ z, z ∈ (path.plug r).inorder ↔ z ∈ r.inorder ∨ z ∈ path.nodes := by
    intro z
    rw [(Ctx.perm_inorder_plug path r).mem_iff, mem_append]
  have moved := Zip.replace ((zip_mk .right).mpr cut) hy (by
    simp only [inorder, mem_append, mem_cons, inner, not_or]
    exact ⟨⟨yl, yx, yr, yp⟩, yctx⟩)
  have agree : (∀ q, q ≠ x → (g.hoist x y).cell q = ((g.splice y r.ptr).replace x y).cell q) ∧
      (g.hoist x y).root = ((g.splice y r.ptr).replace x y).root := by
    have hL := ptr_mem_inorder hl
    have Lr : l.ptr ≠ r.ptr := ne_ptr hl fun h => rl h hL
    have near : [x, y, l.ptr, r.ptr].Nodup := by
      simp only [nodup_cons, mem_cons, not_mem_nil, not_or, not_false_iff,
        nodup_nil, and_true]
      exact ⟨⟨Ne.symm yx, ne_ptr hx xl, ne_ptr hx xr⟩,
        ⟨ne_ptr hy yl, ne_ptr hy yr⟩, Lr⟩
    have outside : ∀ z ∈ [x, y, l.ptr, r.ptr], z ∉ ctx.nodes := by
      simp only [forall_mem_cons]
      refine ⟨xctx, yctx, lctx hL, ?_, forall_mem_nil _⟩
      intro hz
      exact rctx (ptr_mem_inorder (whole.ne_zero (mem_append_right _ hz))) hz
    cases path with
    | nil =>
      refine hoist_eq hl cellx celly near ?_ (.inl ⟨rfl, rfl, hx, fun hr0 => ?_⟩)
      · exact forall_mem_cons.mpr ⟨xctx, forall_mem_cons.mpr ⟨yctx, outside⟩⟩
      · cases r with
        | nil => exact absurd rfl hr0
        | node a z cz b => exact congrArg Vertex.parent hr.2.1
    | cons f path =>
      have top := Ctx.ptr_plug_mem f path (.node .nil y cy r)
      have far : ∀ z ∈ Ctx.nodes (f :: path), z ≠ 0 ∧ z ∉ [x, y, l.ptr, r.ptr] := by
        intro z hz
        have hz0 : z ≠ 0 := by
          refine h.ne_zero (mem_append_right _ ?_)
          rw [Ctx.nodes_append]
          exact mem_append_left _ hz
        refine ⟨hz0, ?_⟩
        simp only [mem_cons, not_mem_nil, or_false, not_or]
        exact ⟨ne_of_mem_of_not_mem hz xp, ne_of_mem_of_not_mem hz yp, ne_ptr hz0 (pl hz),
          ne_ptr hz0 fun h => rp h hz⟩
      obtain ⟨hP, apart⟩ := far f.ptr mem_cons_self
      obtain ⟨hS, apart'⟩ := far _ top
      have cellP : (g.cell f.ptr).left = y := by
        rw [h.around.2.1, left f mem_cons_self]
        rfl
      refine hoist_eq hl cellx celly near ?_ (.inr ⟨hP, hS, cellP, apart, apart'⟩)
      exact forall_mem_cons.mpr ⟨pctx mem_cons_self, forall_mem_cons.mpr ⟨pctx top, outside⟩⟩
  refine (zip_append path _ r).mpr ((zip_mk .right).mp (moved.congr agree.2 ?_))
  intro q hq
  refine agree.1 q (ne_of_mem_of_not_mem hq ?_)
  simp only [inorder, mem_append, mem_cons, inner, not_or]
  exact ⟨⟨xl, Ne.symm yx, xr, xp⟩, xctx⟩

end PointerTree
