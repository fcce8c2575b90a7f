/- The pointer structure that the word level of lib/rbtree.c stores. -/
import LinuxKernel.Foundation.PointerSurgery
import LinuxKernel.Lib.Rbtree

namespace Rbtree

open PointerTree Function List PointerTree.Tree

inductive Color where
  | red
  | black
  deriving DecidableEq, Repr

open Color

/-- A pointer whose two low bits are free for the colour. -/
def Aligned (p : Word) : Prop := p &&& ~~~3 = p

theorem aligned_zero : Aligned 0 := rfl

variable {p : Word}

theorem Aligned.low (h : Aligned p) : p &&& 1 = 0 := by
  rw [← h, BitVec.and_assoc]
  exact BitVec.and_zero

def colorOf (w : Word) : Color := if w &&& 1 = 0 then red else black

theorem colorOf_congr {v w : Word} (h : v &&& 1 = w &&& 1) : colorOf v = colorOf w := by
  rw [colorOf, colorOf, h]

theorem parent_setParent (w : Word) (h : Aligned p) : (w &&& 3 ||| p) &&& ~~~3 = p := by
  rw [BitVec.and_or_distrib_right, BitVec.and_assoc, h]
  exact (congrArg (· ||| p) BitVec.and_zero).trans BitVec.zero_or

theorem color_setParent (w : Word) (h : Aligned p) : (w &&& 3 ||| p) &&& 1 = w &&& 1 := by
  rw [BitVec.and_or_distrib_right, BitVec.and_assoc, h.low]
  exact BitVec.or_zero

theorem parent_setRed (w : Word) : w &&& ~~~1 &&& ~~~3 = w &&& ~~~3 := by
  rw [BitVec.and_assoc]
  rfl

theorem color_setRed (w : Word) : w &&& ~~~1 &&& 1 = 0 := by
  rw [BitVec.and_assoc]
  exact BitVec.and_zero

theorem parent_setBlack (w : Word) : (w ||| 1) &&& ~~~3 = w &&& ~~~3 := by
  rw [BitVec.and_or_distrib_right]
  exact BitVec.or_zero

theorem and_one_cases (w : Word) : w &&& 1 = 0 ∨ w &&& 1 = 1 := by
  have bit : (w &&& 1).toNat = w.toNat % 2 := by
    exact Nat.and_one_is_mod _
  rcases Nat.mod_two_eq_zero_or_one w.toNat with h | h
  · exact .inl (BitVec.eq_of_toNat_eq (bit.trans h))
  · exact .inr (BitVec.eq_of_toNat_eq (bit.trans h))

theorem color_setBlack (w : Word) : (w ||| 1) &&& 1 = 1 := by
  rw [BitVec.and_or_distrib_right]
  rcases and_one_cases w with h | h <;> rw [h] <;> rfl

theorem parent_setColor (w v : Word) : (w &&& ~~~1 ||| v &&& 1) &&& ~~~3 = w &&& ~~~3 := by
  rw [BitVec.and_or_distrib_right, parent_setRed, BitVec.and_assoc]
  exact (congrArg (_ ||| ·) BitVec.and_zero).trans BitVec.or_zero

theorem color_setColor (w v : Word) : (w &&& ~~~1 ||| v &&& 1) &&& 1 = v &&& 1 := by
  rw [BitVec.and_or_distrib_right, color_setRed, BitVec.and_assoc]
  exact BitVec.zero_or

def view (s : Heap) : PointerTree.Graph Word Color where
  cell p := ⟨rbParent s p, (s.mem p).rbLeft, (s.mem p).rbRight, colorOf (s.mem p).rbParentColor⟩
  root := s.rbNode

theorem child_eq (s : Heap) (p : Word) (d : Dir) : child s p d = ((view s).cell p).child d := by
  cases d <;> rfl

theorem rbIsRed_iff (s : Heap) (p : Word) : rbIsRed s p = true ↔ ((view s).cell p).tag = red := by
  simp only [rbIsRed, rbColor, view, colorOf, beq_iff_eq]
  split <;> simp_all

theorem rbIsBlack_iff (s : Heap) (p : Word) : rbIsBlack s p = true ↔ ((view s).cell p).tag = black := by
  simp only [rbIsBlack, rbColor, view, colorOf, bne_iff_ne]
  split <;> simp_all

theorem rbColor_eq_rbBlack (s : Heap) (p : Word) : rbColor s p = rbBlack ↔ ((view s).cell p).tag = black := by
  simp only [rbColor, view, colorOf]
  rcases and_one_cases (s.mem p).rbParentColor with h | h <;> rw [h] <;> decide

theorem view_setParentColor (s : Heap) (r w : Word) : view (setParentColor s r w) =
    (view s).modify r fun v => { v with parent := w &&& ~~~3, tag := colorOf w } := by
  refine PointerTree.Graph.ext ?_ rfl
  funext x
  rw [PointerTree.Graph.modify_cell]
  by_cases hx : x = r
  · subst hx
    simp [view, setParentColor, rbParent]
  · simp [view, setParentColor, rbParent, hx]

variable {q : Word}

theorem view_rbSetParent (s : Heap) (p : Word) (h : Aligned q) :
    view (rbSetParent s p q) = (view s).setParent p q := by
  rw [rbSetParent, view_setParentColor]
  rw [parent_setParent _ h, colorOf_congr (color_setParent _ h)]
  rfl

theorem view_rbSetRed (s : Heap) (p : Word) : view (rbSetRed s p) = (view s).setTag p red := by
  rw [rbSetRed, view_setParentColor]
  rw [parent_setRed, colorOf, color_setRed]
  rfl

theorem view_rbSetBlack (s : Heap) (p : Word) : view (rbSetBlack s p) = (view s).setTag p black := by
  rw [rbSetBlack, view_setParentColor]
  rw [parent_setBlack, colorOf, color_setBlack]
  rfl

theorem view_rbSetColor (s : Heap) (p q : Word) :
    view (rbSetColor s p (rbColor s q)) = (view s).setTag p ((view s).cell q).tag := by
  rw [rbSetColor, view_setParentColor]
  rw [rbColor, parent_setColor, colorOf_congr (color_setColor _ _)]
  rfl

theorem view_setChild (s : Heap) (p : Word) (d : Dir) (q : Word) :
    view (setChild s p d q) = (view s).setChild p d q := by
  refine PointerTree.Graph.ext ?_ rfl
  funext x
  rw [PointerTree.Graph.setChild_cell]
  by_cases hx : x = p
  · subst hx
    cases d <;> simp [view, setChild, rbParent, Vertex.setChild]
  · simp [view, setChild, rbParent, hx]

theorem view_changeChild (s : Heap) (d : Dir) (parent old new : Word) :
    view (changeChild s d parent old new) = (view s).relink d parent old new := by
  simp only [changeChild, PointerTree.Graph.relink, ← child_eq]
  split
  · split <;> exact view_setChild ..
  · rfl

theorem view_reparent (s : Heap) (p : Word) (h : Aligned q) :
    view (if p ≠ 0 then rbSetParent s p q else s) = (view s).reparent p q := by
  rw [PointerTree.Graph.reparent]
  split
  · exact view_rbSetParent s p h
  · rfl

theorem view_rbRotate (d : Dir) (s : Heap) (x : Word) (ne : child s x d.flip ≠ x)
    (hx : Aligned x) (hy : Aligned (child s x d.flip)) (hp : Aligned (rbParent s x)) :
    view (rbRotate d s x) = (view s).rotate d x := by
  have inner : ∀ q, child (setChild s x d.flip q) (child s x d.flip) d =
      child s (child s x d.flip) d := by
    intro q
    rw [child_eq, view_setChild, PointerTree.Graph.setChild_cell, if_neg ne, ← child_eq]
  simp only [rbRotate, inner]
  rw [view_rbSetParent _ _ hy, view_changeChild, view_rbSetParent _ _ hp, view_setChild,
    view_reparent _ _ hx, view_setChild]
  rfl

theorem aligned_rbParent (s : Heap) (p : Word) : Aligned (rbParent s p) := by
  rw [Aligned, rbParent, BitVec.and_assoc]
  rfl

theorem view_rbLinkNode (s : Heap) (node : Word) {parent : Word} (slot : Slot Word) (h : Aligned parent) :
    view (rbLinkNode s node parent slot) = (view s).link node parent slot red := by
  have leaf : view { s with mem := update s.mem node ⟨parent, 0, 0⟩ } =
      { view s with cell := update (view s).cell node ⟨parent, 0, 0, red⟩ } := by
    refine PointerTree.Graph.ext ?_ rfl
    funext x
    by_cases hx : x = node
    · subst hx
      have color : colorOf parent = red := by rw [colorOf, h.low]; rfl
      simp only [view, rbParent, update_self, color]
      rw [h]
    · simp [view, rbParent, hx]
  cases slot with
  | top =>
    have cells := congrArg PointerTree.Graph.cell leaf
    exact PointerTree.Graph.ext cells rfl
  | below p d =>
    rw [rbLinkNode, view_setChild, leaf]
    rfl

theorem view_eraseOne (s : Heap) (x q : Word) : view (eraseOne s x q).1 = (view s).splice x q := by
  rw [eraseOne, view_changeChild, view_reparent _ _ (aligned_rbParent s x)]
  rfl

variable {s : Heap} {r : Word}

theorem mem_setParentColor_of_ne {w : Word} (h : q ≠ r) :
    (setParentColor s r w).mem q = s.mem q := update_of_ne h _ _

theorem mem_setChild_of_ne {v : Word} (h : q ≠ r) (d : Dir) :
    (setChild s r d v).mem q = s.mem q := update_of_ne h _ _

theorem mem_changeChild_of_ne {parent old new : Word} (h : q ≠ parent) (d : Dir) :
    (changeChild s d parent old new).mem q = s.mem q := by
  unfold changeChild
  split
  · split <;> exact mem_setChild_of_ne h _
  · rfl

theorem mem_rbSetParent_of_ne (h : q ≠ r) :
    (rbSetParent s r p).mem q = s.mem q := mem_setParentColor_of_ne h

theorem mem_reparent_of_ne (h : q ≠ r) :
    (if r ≠ 0 then rbSetParent s r p else s).mem q = s.mem q := by
  split
  · exact mem_setParentColor_of_ne h
  · rfl

theorem view_rbReplaceNode (s : Heap) {x y : Word} (h : Aligned y) (top : x ≠ rbParent s x)
    (left : x ≠ (s.mem x).rbLeft) : view (rbReplaceNode s x y) = (view s).replace x y := by
  have copy : ∀ s : Heap, view { s with mem := update s.mem y (s.mem x) } =
      { view s with cell := update (view s).cell y ((view s).cell x) } := by
    intro s
    refine PointerTree.Graph.ext ?_ rfl
    funext q
    by_cases hq : q = y
    · subst hq
      simp [view, rbParent]
    · simp [view, rbParent, hq]
  rw [rbReplaceNode, copy]
  simp only [mem_changeChild_of_ne top, mem_reparent_of_ne left, view_reparent _ _ h,
    view_changeChild]
  rfl

/-- The steps for a node with two children, where no step changes a field that a later one reads
from `x`. -/
theorem view_eraseTwo (s : Heap) {x y : Word} (h : Aligned y) (xy : x ≠ y)
    (xU : x ≠ rbParent s x) (yU : y ≠ rbParent s x) (xR : x ≠ (s.mem y).rbRight)
    (xS : x ≠ (s.mem x).rbRight) : view (eraseTwo s x y).1 = (view s).hoist x y := by
  have last : ∀ s' : Heap, s'.mem x = s.mem x →
      view (rbSetParent (setChild (setParentColor s' y (s.mem x).rbParentColor) y .left
        (s.mem x).rbLeft) (s.mem x).rbLeft y) =
      ((view s').modify y fun w => ⟨((view s).cell x).parent, ((view s).cell x).left, w.right,
        ((view s).cell x).tag⟩).setParent (s.mem x).rbLeft y := by
    intro s' hs
    rw [view_rbSetParent _ _ h, view_setChild, view_setParentColor]
    congr 1
    refine PointerTree.Graph.ext ?_ rfl
    funext q
    by_cases hq : q = y
    · subst hq
      simp only [PointerTree.Graph.setChild_cell, PointerTree.Graph.modify_cell]
      rfl
    · simp [PointerTree.Graph.setChild_cell, PointerTree.Graph.modify_cell, hq]
  have memy : (changeChild s .left (rbParent s x) x y).mem y = s.mem y :=
    mem_changeChild_of_ne yU _
  have memx : (changeChild s .left (rbParent s x) x y).mem x = s.mem x :=
    mem_changeChild_of_ne xU _
  have parenty : rbParent (changeChild s .left (rbParent s x) x y) y = rbParent s y := by
    rw [rbParent, memy, rbParent]
  by_cases hP : rbParent s y = x
  · simp only [eraseTwo, parenty, hP, if_true, memx, mem_setParentColor_of_ne xy,
      mem_setChild_of_ne xy]
    rw [last _ memx, view_changeChild]
    have cond : ((view s).cell y).parent = x := hP
    simp only [PointerTree.Graph.hoist, cond]
    rfl
  have keep : ∀ s' : Heap, s'.mem x = s.mem x → ∀ R,
      R ≠ x → (setChild (if R ≠ 0 then rbSetParent s' R (rbParent s y) else s')
        (rbParent s y) .left R).mem x = s.mem x := by
    intro s' hs R hR
    rw [mem_setChild_of_ne (Ne.symm hP), mem_reparent_of_ne hR.symm, hs]
  simp only [eraseTwo, parenty, hP, if_false, memy, keep _ memx _ xR.symm,
    mem_setParentColor_of_ne xy, mem_setChild_of_ne xy, mem_rbSetParent_of_ne xS]
  rw [last, view_rbSetParent _ _ h, view_setChild, view_setChild,
    view_reparent _ _ (aligned_rbParent s y), view_changeChild]
  · have cond : ((view s).cell y).parent ≠ x := hP
    simp only [PointerTree.Graph.hoist, cond]
    rfl
  · rw [mem_rbSetParent_of_ne xS, mem_setChild_of_ne xy, keep _ memx _ xR.symm]

/-- A subtree in its context is stored in the memory, at aligned addresses. -/
structure RbZip (s : Heap) (ctx : Ctx Word Color) (t : Tree Word Color) : Prop where
  zip : Zip (view s) ctx t
  aligned : ∀ p ∈ t.inorder ++ ctx.nodes, Aligned p

variable {s : Heap} {ctx : Ctx Word Color} {t a b : Tree Word Color} {d : Dir} {p : Word} {c : Color}

theorem rbZip_mk (d : Dir) : RbZip s ctx (.mk d a p c b) ↔ RbZip s (⟨d, p, c, b⟩ :: ctx) a := by
  have mem : ∀ q, q ∈ (Tree.mk d a p c b).inorder ++ ctx.nodes ↔
      q ∈ a.inorder ++ Ctx.nodes (⟨d, p, c, b⟩ :: ctx) :=
    fun q => (Ctx.perm_nodes_mk d a p c b ctx).mem_iff
  constructor
  · rintro ⟨zip, aligned⟩
    exact ⟨(zip_mk d).mp zip, fun q hq => aligned q ((mem q).mpr hq)⟩
  · rintro ⟨zip, aligned⟩
    exact ⟨(zip_mk d).mpr zip, fun q hq => aligned q ((mem q).mp hq)⟩

theorem rbZip_plug (ctx : Ctx Word Color) (t : Tree Word Color) : RbZip s [] (ctx.plug t) ↔ RbZip s ctx t := by
  induction ctx generalizing t with
  | nil => rfl
  | cons f ctx ih => exact (ih _).trans (rbZip_mk f.dir)

namespace RbZip

theorem up_aligned (h : RbZip s ctx t) : Aligned ctx.up := by
  by_cases hu : ctx.up = 0
  · rw [hu]
    exact aligned_zero
  · exact h.aligned _ (mem_append_right _ (up_mem_nodes hu))

section Top

variable (h : RbZip s ctx (.mk d a p c b))
include h

theorem top_ne_zero : p ≠ 0 := h.zip.cell.1

theorem top_aligned : Aligned p :=
  h.aligned p (mem_append_left _ ((perm_inorder_mk d a p c b).mem_iff.mpr
    mem_cons_self))

theorem top_parent : rbParent s p = ctx.up := by
  have cell := congrArg Vertex.parent h.zip.cell.2
  rwa [vert_parent] at cell

theorem top_child : child s p d = a.ptr := by
  rw [child_eq, h.zip.cell.2, vert_child]

theorem top_child_flip : child s p d.flip = b.ptr := by
  rw [child_eq, h.zip.cell.2, vert_child_flip]

theorem top_isRed : rbIsRed s p = true ↔ c = red := by
  rw [rbIsRed_iff, h.zip.cell.2, vert_tag]

theorem top_isBlack : rbIsBlack s p = true ↔ c = black := by
  rw [rbIsBlack_iff, h.zip.cell.2, vert_tag]

theorem setTag {s' : Heap} {c' : Color} (hs : view s' = (view s).setTag p c') : RbZip s' ctx (.mk d a p c' b) := by
  have same : (Tree.mk d a p c' b).inorder = (Tree.mk d a p c b).inorder := by
    cases d <;> rfl
  refine ⟨?_, ?_⟩
  · rw [hs]
    exact h.zip.setTag c'
  · rw [same]
    exact h.aligned

theorem setRed : RbZip (rbSetRed s p) ctx (.mk d a p red b) := h.setTag (view_rbSetRed s p)

theorem setBlack : RbZip (rbSetBlack s p) ctx (.mk d a p black b) :=
  h.setTag (view_rbSetBlack s p)

end Top

variable {x y : Word}

theorem rotate {e : Tree Word Color} {cx cy : Color} (h : RbZip s ctx (.mk d a x cx (.mk d b y cy e))) :
    RbZip (rbRotate d s x) ctx (.mk d (.mk d a x cx b) y cy e) := by
  have lower := (rbZip_mk d.flip).mp (mk_flip d _ x cx a ▸ h)
  have right : child s x d.flip = y := by
    rw [h.top_child_flip, ptr_mk]
  have ne : y ≠ x := by
    rintro rfl
    exact ((nodup_mk d).mp h.zip.nodup).1.1.2 ((perm_inorder_mk ..).mem_iff.mpr mem_cons_self)
  have graph : view (rbRotate d s x) = (view s).rotate d x := by
    refine view_rbRotate d s x ?_ h.top_aligned ?_ ?_
    · rwa [right]
    · rw [right]
      exact lower.top_aligned
    · rw [h.top_parent]
      exact h.up_aligned
  refine ⟨?_, ?_⟩
  · rw [graph]
    exact h.zip.rotate
  · rw [inorder_rotate]
    exact h.aligned

theorem link {y : Word} (h : RbZip s ctx .nil) (hy : y ≠ 0) (aligned : Aligned y) (fresh : y ∉ ctx.nodes) :
    RbZip (rbLinkNode s y ctx.up ctx.slot) ctx (.node .nil y red .nil) := by
  refine ⟨?_, ?_⟩
  · rw [view_rbLinkNode s y _ h.up_aligned]
    exact h.zip.link hy fresh red
  · intro q hq
    rcases mem_cons.mp hq with rfl | hq
    · exact aligned
    · exact h.aligned q hq

theorem replace {l r : Tree Word Color} (h : RbZip s ctx (.node l x c r)) (hy : y ≠ 0)
    (aligned : Aligned y) (fresh : y ∉ (PointerTree.Tree.node l x c r).inorder ++ ctx.nodes) :
    RbZip (rbReplaceNode s x y) ctx (.node l y c r) := by
  have cell := h.zip.tree.2.1
  have distinct := h.zip.nodup
  have hx := h.zip.tree.1
  simp only [inorder, append_assoc, cons_append, nodup_middle, nodup_cons,
    mem_append, not_or] at distinct
  have top : x ≠ rbParent s x := by
    rw [show rbParent s x = ctx.up from congrArg Vertex.parent cell]
    intro hu
    exact distinct.1.2.2 (hu ▸ up_mem_nodes (hu ▸ hx))
  have left : x ≠ (s.mem x).rbLeft := by
    rw [show (s.mem x).rbLeft = l.ptr from congrArg Vertex.left cell]
    exact ne_ptr hx distinct.1.1
  refine ⟨?_, ?_⟩
  · rw [view_rbReplaceNode s aligned top left]
    exact h.zip.replace hy fresh
  · intro q hq
    by_cases hqy : q = y
    · rwa [hqy]
    · refine h.aligned q ?_
      simp only [inorder, mem_append, mem_cons] at hq ⊢
      tauto

theorem eraseOne {x : Word} (h : RbZip s ctx (.mk d .nil x c t)) :
    ∃ s' color, Rbtree.eraseOne s x t.ptr = (s', t.ptr, ctx.up, color) ∧
      (color = rbBlack ↔ c = black) ∧ RbZip s' ctx t := by
  refine ⟨_, _, Prod.ext rfl (Prod.ext rfl (Prod.ext h.top_parent rfl)), ?_, ?_, ?_⟩
  · change rbColor s x = rbBlack ↔ _
    rw [rbColor_eq_rbBlack, h.zip.cell.2, vert_tag]
  · rw [view_eraseOne]
    exact h.zip.splice
  · intro q hq
    refine h.aligned q ?_
    rw [mem_append, (perm_inorder_mk d .nil x c t).mem_iff]
    rcases mem_append.mp hq with hq | hq
    · exact .inl (mem_cons_of_mem _ hq)
    · exact .inr hq

theorem eraseTwo {l r : Tree Word Color} {cy : Color} {path : Ctx Word Color} (left : ∀ f ∈ path, f.dir = .left)
    (h : RbZip s (path ++ ⟨.right, x, c, l⟩ :: ctx) (.node .nil y cy r)) (hl : l.ptr ≠ 0) :
    ∃ s' color, Rbtree.eraseTwo s x y = (s', r.ptr, Ctx.up (path ++ ⟨.right, y, c, l⟩ :: ctx), color) ∧
      (color = rbBlack ↔ cy = black) ∧ RbZip s' (path ++ ⟨.right, y, c, l⟩ :: ctx) r := by
  obtain ⟨hy, celly, -, -⟩ := h.zip.tree
  have whole : Zip (view s) ctx (.node l x c (path.plug (.node .nil y cy r))) :=
    (zip_mk .right).mpr ((zip_append path _ _).mp h.zip)
  obtain ⟨hx, cellx, -, -⟩ := whole.tree
  have inner : ∀ z, z ∈ (path.plug (.node .nil y cy r)).inorder ↔
      z = y ∨ z ∈ r.inorder ∨ z ∈ path.nodes := by
    intro z
    rw [(Ctx.perm_inorder_plug path _).mem_iff]
    simp [inorder]
  have distinct := whole.nodup
  simp only [inorder, append_assoc, cons_append, nodup_middle] at distinct
  simp only [nodup_cons, mem_append, not_or, nodup_append'] at distinct
  obtain ⟨⟨xl, xr, xctx⟩, -, ⟨-, -, rctx⟩, -⟩ := distinct
  have xsub := xr
  simp only [inner, not_or] at xr
  have parentx : rbParent s x = ctx.up := congrArg Vertex.parent cellx
  have parenty : rbParent s y = Ctx.up (path ++ ⟨.right, x, c, l⟩ :: ctx) :=
    congrArg Vertex.parent celly
  have righty : (s.mem y).rbRight = r.ptr := congrArg Vertex.right celly
  have not_up : ∀ z, z ≠ 0 → z ∉ ctx.nodes → z ≠ rbParent s x := by
    intro z hz hctx hu
    rw [hu, parentx] at hz hctx
    exact hctx (up_mem_nodes hz)
  have yU : y ≠ rbParent s x := not_up y hy (rctx ((inner y).mpr (.inl rfl)))
  have memy : (changeChild s .left (rbParent s x) x y).mem y = s.mem y :=
    mem_changeChild_of_ne yU _
  have graph : view (Rbtree.eraseTwo s x y).1 = (view s).hoist x y := by
    refine view_eraseTwo s ?_ xr.1 (not_up x hx xctx) yU ?_ ?_
    · exact h.aligned y mem_cons_self
    · rw [righty]
      exact ne_ptr hx xr.2.1
    · rw [show (s.mem x).rbRight = _ from congrArg Vertex.right cellx]
      exact ne_ptr hx xsub
  have up : (if rbParent s y = x then y else rbParent s y) =
      Ctx.up (path ++ ⟨.right, y, c, l⟩ :: ctx) := by
    rw [parenty]
    cases path with
    | nil => exact if_pos rfl
    | cons f path =>
      refine if_neg fun hu => xr.2.2 ?_
      rw [← hu]
      exact mem_cons_self
  refine ⟨(Rbtree.eraseTwo s x y).1, rbColor s y, ?_, ?_, ?_, ?_⟩
  · rw [← up, ← righty]
    refine Prod.ext rfl (Prod.ext ?_ (Prod.ext ?_ ?_))
    · exact congrArg RbNode.rbRight memy
    · have parent : rbParent (changeChild s .left (rbParent s x) x y) y = rbParent s y := by
        rw [rbParent, memy, rbParent]
      simp only [Rbtree.eraseTwo, parent]
      exact apply_ite Prod.snd _ _ _
    · exact congrArg (fun n => RbNode.rbParentColor n &&& 1) memy
  · rw [rbColor_eq_rbBlack, celly]
  · rw [graph]
    exact h.zip.hoist left hl
  · intro q hq
    refine h.aligned q ?_
    simp only [mem_append, Ctx.nodes_append, Ctx.nodes, mem_cons, inorder] at hq ⊢
    tauto

end RbZip

end Rbtree
