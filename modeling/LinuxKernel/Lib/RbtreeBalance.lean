/- Insertion and removal keep red-black balance and the order of the nodes. -/
import LinuxKernel.Foundation.Transition
import LinuxKernel.Lib.RbtreeShape

namespace Rbtree

open PointerTree Color List PointerTree.Tree PointerTree.Ctx

abbrev RbTree := Tree Word Color

abbrev RbCtx := Ctx Word Color

def topColor : RbTree → Color
  | .nil => black
  | .node _ _ c _ => c

@[simp] theorem topColor_mk (d : Dir) (a : RbTree) (p : Word) (c : Color) (b : RbTree) :
    topColor (.mk d a p c b) = c := by
  cases d <;> rfl

/-- Every path down to a missing child has `n` black nodes, and no red node has a red child. -/
def Balanced : RbTree → Nat → Prop
  | .nil, n => n = 0
  | .node l _ red r, n => Balanced l n ∧ Balanced r n ∧ topColor l = black ∧ topColor r = black
  | .node _ _ black _, 0 => False
  | .node l _ black r, n + 1 => Balanced l n ∧ Balanced r n

section Balanced

variable {a b t : RbTree} {p : Word} {n : Nat} (d : Dir)

theorem balanced_red : Balanced (.mk d a p red b) n ↔
    Balanced a n ∧ Balanced b n ∧ topColor a = black ∧ topColor b = black := by
  cases d with
  | left => rfl
  | right =>
    simp only [mk, Balanced]
    tauto

theorem balanced_black : Balanced (.mk d a p black b) (n + 1) ↔ Balanced a n ∧ Balanced b n := by
  cases d with
  | left => rfl
  | right => exact and_comm

theorem Balanced.pos (h : Balanced (.mk d a p black b) n) : ∃ m, n = m + 1 := by
  cases n with
  | zero => cases d <;> exact h.elim
  | succ m => exact ⟨m, rfl⟩

theorem exists_mk (l : RbTree) (p : Word) (c : Color) (r : RbTree) :
    ∃ a b, PointerTree.Tree.node l p c r = .mk d a p c b := by
  cases d with
  | left => exact ⟨l, r, rfl⟩
  | right => exact ⟨r, l, rfl⟩

theorem Balanced.red_cases (h : Balanced t n) (top : topColor t = red) :
    ∃ a p b, t = .mk d a p red b ∧ Balanced a n ∧ Balanced b n ∧ topColor a = black ∧ topColor b = black := by
  cases t with
  | nil => cases top
  | node l p c r =>
    cases top
    obtain ⟨a, b, ht⟩ := exists_mk d l p red r
    rw [ht] at h
    exact ⟨a, p, b, ht, (balanced_red d).mp h⟩

theorem Balanced.black_cases (h : Balanced t (n + 1)) (top : topColor t = black) :
    ∃ a p b, t = .mk d a p black b ∧ Balanced a n ∧ Balanced b n := by
  cases t with
  | nil => cases h
  | node l p c r =>
    cases top
    obtain ⟨a, b, ht⟩ := exists_mk d l p black r
    rw [ht] at h
    exact ⟨a, p, b, ht, (balanced_black d).mp h⟩

end Balanced

def paint (c : Color) : RbTree → RbTree
  | .nil => .nil
  | .node l p _ r => .node l p c r

@[simp] theorem paint_mk (c c' : Color) (d : Dir) (a : RbTree) (p : Word) (b : RbTree) :
    paint c (.mk d a p c' b) = .mk d a p c b := by
  cases d <;> rfl

@[simp] theorem inorder_paint (c : Color) (t : RbTree) : (paint c t).inorder = t.inorder := by
  cases t <;> rfl

@[simp] theorem topColor_paint_black (t : RbTree) : topColor (paint black t) = black := by
  cases t <;> rfl

theorem paint_of_black {t : RbTree} (h : topColor t = black) : paint black t = t := by
  cases t with
  | nil => rfl
  | node l p c r =>
    cases h
    rfl

theorem Balanced.paint_red {t : RbTree} {n : Nat} (h : Balanced t n) (top : topColor t = red) :
    Balanced (paint black t) (n + 1) := by
  obtain ⟨a, p, b, rfl, ha, hb, -, -⟩ := h.red_cases .left top
  exact (balanced_black .left).mpr ⟨ha, hb⟩

/-- A red subtree may stand in the context. -/
def RedOk : RbCtx → Prop
  | [] => False
  | f :: _ => f.tag = black

/-- The context takes a subtree of black height `n`. -/
def Open : RbCtx → Nat → Prop
  | [], _ => True
  | ⟨_, _, red, sib⟩ :: ctx, n => Balanced sib n ∧ topColor sib = black ∧ RedOk ctx ∧ Open ctx n
  | ⟨_, _, black, sib⟩ :: ctx, n => Balanced sib n ∧ Open ctx (n + 1)

theorem Open.sib {d : Dir} {p : Word} {c : Color} {sib : RbTree} {ctx : RbCtx} {n : Nat}
    (h : Open (⟨d, p, c, sib⟩ :: ctx) n) : Balanced sib n := by
  cases c with
  | red | black => exact h.1

def IsRb (t : RbTree) : Prop := topColor t = black ∧ ∃ n, Balanced t n

theorem isRb_plug (ctx : RbCtx) (t : RbTree) :
    IsRb (ctx.plug t) ↔ ∃ n, Open ctx n ∧ Balanced t n ∧ (topColor t = red → RedOk ctx) := by
  induction ctx generalizing t with
  | nil =>
    cases h : topColor t <;> simp [IsRb, plug, Open, RedOk, h]
  | cons f ctx ih =>
    obtain ⟨d, p, c, sib⟩ := f
    rw [plug, ih]
    cases c with
    | red =>
      simp only [balanced_red, topColor_mk, RedOk, true_imp_iff, reduceCtorEq]
      constructor
      · rintro ⟨n, open', ⟨ht, hs, top, tops⟩, ok⟩
        exact ⟨n, ⟨hs, tops, ok, open'⟩, ht, fun h => absurd (top.symm.trans h) (by decide)⟩
      · rintro ⟨n, ⟨hs, tops, ok, open'⟩, ht, no⟩
        refine ⟨n, open', ⟨ht, hs, ?_, tops⟩, ok⟩
        cases h : topColor t with
        | red => exact (no h).elim
        | black => rfl
    | black =>
      simp only [topColor_mk, RedOk, reduceCtorEq, false_imp_iff, and_true,
        implies_true]
      constructor
      · rintro ⟨n, open', h⟩
        obtain ⟨m, rfl⟩ := h.pos d
        obtain ⟨ht, hs⟩ := (balanced_black d).mp h
        exact ⟨m, ⟨hs, open'⟩, ht⟩
      · rintro ⟨n, ⟨hs, open'⟩, ht⟩
        exact ⟨n + 1, open', (balanced_black d).mpr ⟨ht, hs⟩⟩

theorem inorder_mk_congr (d : Dir) {a a' b b' : RbTree} (p : Word) (c c' : Color)
    (ha : a.inorder = a'.inorder) (hb : b.inorder = b'.inorder) :
    (mk d a p c b).inorder = (mk d a' p c' b').inorder := by
  cases d <;> simp [mk, inorder, ha, hb]

theorem inorder_plug_congr (ctx : RbCtx) {t t' : RbTree} (h : t.inorder = t'.inorder) :
    (ctx.plug t).inorder = (ctx.plug t').inorder := by
  rw [inorder_plug, inorder_plug, h]

variable {s : Heap} {ctx : RbCtx} {t a b : RbTree} {d e : Dir} {p x : Word} {c : Color} {n : Nat}

theorem RbZip.red_iff (h : RbZip s ctx t) : t.ptr ≠ 0 ∧ rbIsRed s t.ptr = true ↔ topColor t = red := by
  cases t with
  | nil => simp [ptr, topColor]
  | node l q c r =>
    have top : RbZip s ctx (.mk .left l q c r) := h
    exact ⟨fun h => top.top_isRed.mp h.2, fun h => ⟨top.top_ne_zero, top.top_isRed.mpr h⟩⟩

theorem RbZip.black_iff (h : RbZip s ctx t) : t.ptr = 0 ∨ rbIsBlack s t.ptr = true ↔ topColor t = black := by
  cases t with
  | nil => simp [ptr, topColor]
  | node l q c r =>
    have top : RbZip s ctx (.mk .left l q c r) := h
    exact ⟨fun h => top.top_isBlack.mp (h.resolve_left top.top_ne_zero),
      fun h => .inr (top.top_isBlack.mpr h)⟩

theorem RbZip.congr {s' : Heap} (h : RbZip s ctx t) (root : s'.rbNode = s.rbNode)
    (same : ∀ p ∈ t.inorder ++ ctx.nodes, s'.mem p = s.mem p) : RbZip s' ctx t := by
  refine ⟨h.zip.congr root ?_, h.aligned⟩
  intro p hp
  simp [view, rbParent, same p hp]

theorem RbZip.paintBlack (h : RbZip s ctx t) (ht : t.ptr ≠ 0) : RbZip (rbSetBlack s t.ptr) ctx (paint black t) := by
  cases t with
  | nil => exact absurd rfl ht
  | node l q c r => exact RbZip.setBlack (d := .left) h

theorem RbZip.swap (h : RbZip s (⟨d, p, c, b⟩ :: ctx) a) : RbZip s (⟨d.flip, p, c, a⟩ :: ctx) b := by
  rw [← rbZip_mk, mk_flip]
  exact (rbZip_mk d).mpr h

theorem RbZip.unswap (h : RbZip s (⟨d.flip, p, c, a⟩ :: ctx) b) : RbZip s (⟨d, p, c, b⟩ :: ctx) a := by
  have := h.swap
  rwa [Dir.flip_flip] at this

section

variable (h : RbZip s (⟨d, p, c, b⟩ :: ctx) a)
include h

theorem RbZip.side (ne : a.ptr ≠ b.ptr) :
    (if a.ptr = (s.mem p).rbLeft then Dir.left else Dir.right) = d := by
  have top := (rbZip_mk d).mpr h
  cases d with
  | left => exact if_pos top.top_child.symm
  | right => exact if_neg fun hl => ne (hl.trans top.top_child_flip)

theorem RbZip.sib_ptr_ne (ha : a.ptr ≠ 0) : a.ptr ≠ b.ptr := by
  have nodup := h.zip.nodup
  rw [nodup_append'] at nodup
  refine ne_ptr ha fun hb => ?_
  exact nodup.2.2 (ptr_mem_inorder ha) (mem_cons_of_mem _ (mem_append_left _ hb))

theorem RbZip.side' (ne : a.ptr ≠ b.ptr) :
    (if (s.mem p).rbLeft = a.ptr then Dir.left else Dir.right) = d := by
  rw [← h.side ne]
  simp [eq_comm]

end

theorem RbZip.ptr_ne_zero (h : RbZip s ctx t) (bal : Balanced t (n + 1)) : t.ptr ≠ 0 := by
  cases t with
  | nil => cases bal
  | node l q c r => exact RbZip.top_ne_zero (d := .left) h

/-- A red subtree at `x` that may have a red parent; nothing else is out of balance. -/
def RedFocus (s : Heap) (ctx : RbCtx) (x : Word) (seq : List Word) : Prop :=
  ∃ t n, RbZip s ctx t ∧ t.ptr = x ∧ topColor t = red ∧ Balanced t n ∧ Open ctx n ∧
    (ctx.plug t).inorder = seq

variable {seq : List Word} {u sib : RbTree} {g : Word}

theorem insertFixup_recolor (h : RbZip s (⟨e, p, red, sib⟩ :: ⟨d, g, black, u⟩ :: ctx) t)
    (bal : Balanced t n) (op : Open (⟨e, p, red, sib⟩ :: ⟨d, g, black, u⟩ :: ctx) n) (uncle : topColor u = red) :
    ∃ s', insertFixup d s t.ptr p g = (s', g) ∧
      RedFocus s' ctx g ((plug (⟨e, p, red, sib⟩ :: ⟨d, g, black, u⟩ :: ctx) t).inorder) := by
  obtain ⟨hs, tops, -, hu, open'⟩ := op
  have focusP := (rbZip_mk e).mpr h
  have focusU := focusP.swap
  have test := focusU.red_iff.mpr uncle
  have uptr : child s g d.flip = u.ptr := ((rbZip_mk d).mpr focusP).top_child_flip
  have black1 := (focusU.paintBlack test.1).unswap
  have black2 := black1.setBlack
  have black3 := ((rbZip_mk d).mpr black2).setRed
  refine ⟨_, ?_, _, n + 1, black3, ptr_mk .., topColor_mk .., ?_, open', ?_⟩
  · simp only [insertFixup, uptr, if_pos test]
  · refine (balanced_red d).mpr ⟨(balanced_black e).mpr ⟨bal, hs⟩, hu.paint_red uncle, ?_, ?_⟩
    · exact topColor_mk ..
    · exact topColor_paint_black u
  · refine inorder_plug_congr ctx ?_
    refine inorder_mk_congr d g _ _ ?_ (inorder_paint black u)
    exact inorder_mk_congr e p _ _ rfl rfl

theorem insert_rotate (h : RbZip s (⟨d, p, red, sib⟩ :: ⟨d, g, black, u⟩ :: ctx) t)
    (top : topColor t = red) (bal : Balanced t n) (hs : Balanced sib n) (tops : topColor sib = black)
    (hu : Balanced u n) (topu : topColor u = black) (op : Open ctx (n + 1)) :
    RedFocus (rbRotate d.flip (rbSetRed (rbSetBlack s p) g) g) (⟨d, p, black, .mk d sib g red u⟩ :: ctx) t.ptr
      ((plug (⟨d, p, red, sib⟩ :: ⟨d, g, black, u⟩ :: ctx) t).inorder) := by
  have blackP := ((rbZip_mk d).mpr h).setBlack
  have redG := ((rbZip_mk d).mpr blackP).setRed
  rw [← mk_flip d u g red, ← mk_flip d sib p black t] at redG
  have turned := redG.rotate
  rw [mk_flip d, mk_flip d] at turned
  refine ⟨t, n, (rbZip_mk d).mp turned, rfl, top, bal, ⟨?_, op⟩, ?_⟩
  · exact (balanced_red d).mpr ⟨hs, hu, tops, topu⟩
  · refine inorder_plug_congr ctx ?_
    cases d <;> simp [mk, inorder]

theorem insertFixup_rotate (h : RbZip s (⟨e, p, red, sib⟩ :: ⟨d, g, black, u⟩ :: ctx) t)
    (top : topColor t = red) (bal : Balanced t n)
    (op : Open (⟨e, p, red, sib⟩ :: ⟨d, g, black, u⟩ :: ctx) n) (uncle : topColor u = black) :
    ∃ s' x' f, insertFixup d s t.ptr p g = (s', x') ∧ RedFocus s' (f :: ctx) x'
        ((plug (⟨e, p, red, sib⟩ :: ⟨d, g, black, u⟩ :: ctx) t).inorder) := by
  obtain ⟨hs, tops, -, hu, open'⟩ := op
  have focusP := (rbZip_mk e).mpr h
  have uptr : child s g d.flip = u.ptr := ((rbZip_mk d).mpr focusP).top_child_flip
  have test : ¬ (u.ptr ≠ 0 ∧ rbIsRed s u.ptr = true) := by
    rw [focusP.swap.red_iff, uncle]
    decide
  rcases Dir.eq_or_flip d e with rfl | rfl
  · have outer : child s p e.flip ≠ t.ptr := by
      rw [focusP.top_child_flip]
      refine (h.sib_ptr_ne ?_).symm
      obtain ⟨a, q, b, rfl, -⟩ := bal.red_cases e top
      rw [ptr_mk]
      exact (RbZip.top_ne_zero h)
    refine ⟨_, _, _, ?_, insert_rotate h top bal hs tops hu uncle open'⟩
    simp only [insertFixup, uptr, if_neg test, if_neg outer]
  have inner : child s p d.flip = t.ptr := focusP.top_child
  obtain ⟨a, x, b, rfl, ha, hb, topa, topb⟩ := bal.red_cases d top
  rw [mk_flip] at focusP
  have turned := (rbZip_mk d).mp focusP.rotate
  have done := insert_rotate turned (topColor_mk ..)
    ((balanced_red d).mpr ⟨hs, ha, tops, topa⟩) hb topb hu uncle open'
  rw [ptr_mk] at done
  have order : (plug (⟨d, x, red, b⟩ :: ⟨d, g, black, u⟩ :: ctx) (.mk d sib p red a)).inorder =
      (plug (⟨d.flip, p, red, sib⟩ :: ⟨d, g, black, u⟩ :: ctx)
        (.mk d a x red b)).inorder := by
    refine inorder_plug_congr ctx (inorder_mk_congr d g _ _ ?_ rfl)
    rw [mk_flip]
    exact inorder_rotate ..
  rw [ptr_mk] at inner ⊢
  refine ⟨_, _, _, ?_, order ▸ done⟩
  simp only [insertFixup, uptr, if_neg test, if_pos inner]

theorem insertFixup_spec {f₁ f₂ : Frame Word Color} (h : RedFocus s (f₁ :: f₂ :: ctx) x seq) (hr : f₁.tag = red) :
    (if f₁.ptr = (s.mem f₂.ptr).rbLeft then Dir.left else Dir.right) = f₂.dir ∧
    ∃ s' x' ctx', insertFixup f₂.dir s x f₁.ptr f₂.ptr = (s', x') ∧ RedFocus s' ctx' x' seq ∧
      ctx'.length ≤ ctx.length + 1 := by
  obtain ⟨e, p, c, sib⟩ := f₁
  obtain ⟨d, g, cg, u⟩ := f₂
  cases hr
  obtain ⟨t, n, zip, rfl, top, bal, op, rfl⟩ := h
  have hg : cg = black := op.2.2.1
  cases hg
  have focusP := (rbZip_mk e).mpr zip
  constructor
  · have side := focusP.side (focusP.sib_ptr_ne (by
      rw [ptr_mk]
      exact focusP.top_ne_zero))
    rwa [ptr_mk] at side
  · cases uncle : topColor u with
    | red =>
      obtain ⟨s', run, focus⟩ := insertFixup_recolor zip bal op uncle
      exact ⟨s', g, ctx, run, focus, Nat.le_succ _⟩
    | black =>
      obtain ⟨s', x', f, run, focus⟩ := insertFixup_rotate zip top bal op uncle
      exact ⟨s', x', f :: ctx, run, focus, le_rfl⟩

/-- The memory holds a red-black tree with these nodes in order. -/
def Stored (s : Heap) (seq : List Word) : Prop :=
  ∃ t, RbZip s [] t ∧ IsRb t ∧ t.inorder = seq

theorem stored_nil {s : Heap} (root : s.rbNode = 0) : Stored s [] := by
  refine ⟨.nil, ⟨⟨trivial, root, nodup_nil⟩, ?_⟩, ⟨rfl, 0, rfl⟩, rfl⟩
  exact fun p hp => absurd hp not_mem_nil

theorem Stored.ne_zero {s : Heap} {seq : List Word} {x : Word} (h : Stored s seq) (hx : x ∈ seq) : x ≠ 0 := by
  obtain ⟨t, zip, -, rfl⟩ := h
  exact zip.zip.ne_zero (mem_append_left _ hx)

theorem Stored.nodup {s : Heap} {seq : List Word} (h : Stored s seq) : seq.Nodup := by
  obtain ⟨t, zip, -, rfl⟩ := h
  simpa [nodes] using zip.zip.nodup

/-- A turn moves the red focus up or leaves the loop with at most the top node to be painted. -/
theorem insertTurn_spec (h : RedFocus s ctx x seq) :
    (∃ s' x' ctx', insertTurn (s, x) = .inl (s', x') ∧ ctx'.length < ctx.length ∧ RedFocus s' ctx' x' seq) ∨
    ∃ t, insertTurn (s, x) = .inr s ∧ RbZip s [] t ∧ IsRb (paint black t) ∧ t.inorder = seq := by
  obtain ⟨t, m, zip, rfl, top, bal, op, order⟩ := id h
  have parent : rbParent s t.ptr = ctx.up := by
    obtain ⟨a, q, b, rfl, -⟩ := bal.red_cases .left top
    exact zip.top_parent
  cases ctx with
  | nil =>
    right
    have stop : ¬ (up ([] : RbCtx) ≠ 0 ∧ rbIsRed s (up ([] : RbCtx)) = true) :=
      fun h => h.1 rfl
    refine ⟨t, ?_, zip, ⟨topColor_paint_black _, _, bal.paint_red top⟩, order⟩
    simp only [insertTurn, parent, if_neg stop]
  | cons f ctx =>
    have focusP := (rbZip_mk f.dir).mpr zip
    change rbParent s t.ptr = f.ptr at parent
    cases hf : f.tag with
    | black =>
      right
      have stop : ¬ (f.ptr ≠ 0 ∧ rbIsRed s f.ptr = true) := by
        rw [focusP.top_isRed, hf]
        simp
      have rb : IsRb (plug (f :: ctx) t) :=
        (isRb_plug (f :: ctx) t).mpr ⟨m, op, bal, fun _ => hf⟩
      refine ⟨_, ?_, (rbZip_plug (f :: ctx) t).mpr zip, ?_, order⟩
      · simp only [insertTurn, parent, if_neg stop]
      · rwa [paint_of_black rb.1]
    | red =>
      left
      cases ctx with
      | nil =>
        -- The top node is not red unless it is the focus.
        obtain ⟨d, p, c, sib⟩ := f
        cases hf
        exact op.2.2.1.elim
      | cons f₂ ctx =>
        obtain ⟨side, s', x', ctx', run, focus, short⟩ := insertFixup_spec h hf
        have go : f.ptr ≠ 0 ∧ rbIsRed s f.ptr = true :=
          ⟨focusP.top_ne_zero, focusP.top_isRed.mpr hf⟩
        have gparent : rbParent s f.ptr = f₂.ptr := focusP.top_parent
        refine ⟨s', x', ctx', ?_, Nat.lt_succ_of_le short, focus⟩
        simp only [insertTurn, parent, if_pos go, gparent, side, run]

theorem rbInsertColor_spec (h : RedFocus s ctx x seq) (hn : ctx.length < n) :
    ∃ s', rbInsertColor n s x = some s' ∧ Stored s' seq := by
  obtain ⟨s', run, t, zip, rb, order⟩ := Loop.run_total insertTurn
    (fun k u => ∃ ctx : RbCtx, ctx.length = k ∧ RedFocus u.1 ctx u.2 seq)
    (fun s' => ∃ t, RbZip s' [] t ∧ IsRb (paint black t) ∧ t.inorder = seq) (by
      rintro k ⟨s, x⟩ ⟨ctx, rfl, focus⟩
      rcases insertTurn_spec focus with ⟨s', x', ctx', next, less, focus'⟩ | ⟨t, leave, done⟩
      · exact .inl ⟨_, _, next, less, ctx', rfl, focus'⟩
      · exact .inr ⟨s, leave, t, done⟩)
    (s := (s, x)) ⟨ctx, rfl, h⟩ hn
  have root : s'.rbNode = t.ptr := zip.zip.around
  refine ⟨rbSetBlack s' s'.rbNode, by rw [rbInsertColor, run]; rfl, paint black t, ?_, rb, ?_⟩
  · rw [root]
    cases t with
    | nil => exact zip.congr rfl (fun p hp => absurd hp not_mem_nil)
    | node l q c r => exact zip.paintBlack (RbZip.top_ne_zero (d := .left) zip)
  · rw [inorder_paint, order]

/-- A subtree that has one black node less on its paths than its context asks for, or has a red
top that makes up for it once it is painted black. -/
def Deficit (t : RbTree) (n : Nat) : Prop :=
  match topColor t with
  | red => Balanced (paint black t) (n + 1)
  | black => Balanced t n

theorem deficit_red (h : topColor t = red) : Deficit t n ↔ Balanced (paint black t) (n + 1) := by
  rw [Deficit, h]

theorem deficit_black (h : topColor t = black) : Deficit t n ↔ Balanced t n := by
  rw [Deficit, h]

theorem Balanced.deficit (h : Balanced t n) : Deficit t n := by
  cases top : topColor t with
  | red => exact (deficit_red top).mpr (h.paint_red top)
  | black => exact (deficit_black top).mpr h

/-- The sibling is black after a rotation at most, and is not missing. -/
theorem blackSibling_spec (h : RbZip s (⟨d, p, c, sib⟩ :: ctx) t) (op : Open (⟨d, p, c, sib⟩ :: ctx) (n + 1)) :
    ∃ s' c' a o b ctx', blackSibling d s p = (s', o) ∧
      RbZip s' (⟨d, p, c', .mk d a o black b⟩ :: ctx') t ∧ Balanced a n ∧ Balanced b n ∧
      Open (⟨d, p, c', .mk d a o black b⟩ :: ctx') (n + 1) ∧
      (ctx'.length = ctx.length ∨ ctx'.length = ctx.length + 1 ∧ c' = red) ∧
      (plug (⟨d, p, c', .mk d a o black b⟩ :: ctx') t).inorder = (plug (⟨d, p, c, sib⟩ :: ctx) t).inorder := by
  have focus := (rbZip_mk d).mpr h
  have other := focus.top_child_flip
  have low := h.swap
  cases top : topColor sib with
  | black =>
    obtain ⟨a, o, b, rfl, ha, hb⟩ := op.sib.black_cases d top
    have test : rbIsRed s o ≠ true := by
      rw [Ne, low.top_isRed]
      decide
    rw [ptr_mk] at other
    refine ⟨s, c, a, o, b, ctx, ?_, h, ha, hb, op, .inl rfl, rfl⟩
    simp [blackSibling, other, if_neg test]
  | red =>
    have hc : c = black := by
      cases c with
      | black => rfl
      | red => exact absurd (top.symm.trans op.2.1) (by decide)
    subst hc
    obtain ⟨hs, open'⟩ := op
    obtain ⟨a, o, b, rfl, ha, hb, topa, topb⟩ := hs.red_cases d top
    have test : rbIsRed s o = true := low.top_isRed.mpr rfl
    rw [ptr_mk] at other
    have painted := ((rbZip_mk d).mpr low.setBlack.unswap).setRed
    have turned := painted.rotate
    have inner := (rbZip_mk d).mp turned
    obtain ⟨a', o', b', rfl, ha', hb'⟩ := ha.black_cases d topa
    have next : child (rbRotate d (rbSetRed (rbSetBlack s o) p) p) p d.flip = o' := by
      rw [inner.top_child_flip, ptr_mk]
    refine ⟨_, red, a', o', b', ⟨d, o, black, b⟩ :: ctx, ?_, (rbZip_mk d).mp inner, ha', hb', ?_,
      .inr ⟨rfl, rfl⟩, ?_⟩
    · simp [blackSibling, other, if_pos test, next]
    · exact ⟨ha, topa, rfl, hb, open'⟩
    · refine inorder_plug_congr ctx ?_
      exact inorder_rotate ..

theorem RbZip.far_black_iff (h : RbZip s ctx (.mk d a p c b)) :
    child s p d.flip = 0 ∨ rbIsBlack s (child s p d.flip) = true ↔ topColor b = black := by
  rw [h.top_child_flip]
  exact ((rbZip_mk d).mp h).swap.black_iff

theorem RbZip.children_black_iff (h : RbZip s ctx (.mk d a p c b)) :
    ((child s p .left = 0 ∨ rbIsBlack s (child s p .left) = true) ∧
      (child s p .right = 0 ∨ rbIsBlack s (child s p .right) = true)) ↔ topColor a = black ∧ topColor b = black := by
  rw [← ((rbZip_mk d).mp h).black_iff, ← h.top_child, ← h.far_black_iff]
  cases d with
  | left => rfl
  | right => exact and_comm

theorem farRedSibling_spec {o : Word} (h : RbZip s (⟨d, p, c, .mk d a o black b⟩ :: ctx) t)
    (ha : Balanced a n) (hb : Balanced b n) (some' : ¬ (topColor a = black ∧ topColor b = black)) :
    ∃ s' a' o' b', farRedSibling d s p o = (s', o') ∧
      RbZip s' (⟨d, p, c, .mk d a' o' black b'⟩ :: ctx) t ∧ Balanced a' n ∧ Balanced b' n ∧ topColor b' = red ∧
      (mk d a' o' black b').inorder = (mk d a o black b).inorder := by
  have low := h.swap
  cases top : topColor b with
  | red =>
    have test : ¬ (child s o d.flip = 0 ∨ rbIsBlack s (child s o d.flip) = true) := by
      rw [low.far_black_iff, top]
      decide
    refine ⟨s, a, o, b, ?_, h, ha, hb, top, rfl⟩
    simp only [farRedSibling, if_neg test]
  | black =>
    have test := low.far_black_iff.mpr top
    have topa : topColor a = red := by
      cases ht : topColor a with
      | red => rfl
      | black => exact absurd ⟨ht, top⟩ some'
    obtain ⟨a₁, k, a₂, rfl, h₁, h₂, -, top₂⟩ := ha.red_cases d topa
    have near : child s o d = k := by
      rw [low.top_child, ptr_mk]
    have painted := ((rbZip_mk d).mpr ((rbZip_mk d).mp low).setBlack).setRed
    rw [← mk_flip d b o red, ← mk_flip d a₂ k black a₁] at painted
    have turned := painted.rotate
    rw [mk_flip d, mk_flip d] at turned
    have back := turned.unswap
    have next : child (rbRotate d.flip (rbSetRed (rbSetBlack s k) o) o) p d.flip = k := by
      rw [((rbZip_mk d).mpr back).top_child_flip, ptr_mk]
    refine ⟨_, a₁, k, .mk d a₂ o red b, ?_, back, h₁, (balanced_red d).mpr ⟨h₂, hb, top₂, top⟩,
      topColor_mk .., ?_⟩
    · simp only [farRedSibling, if_pos test, near, next]
    · cases d <;> simp [mk, inorder]

theorem erase_rotate {o : Word} (h : RbZip s (⟨d, p, c, .mk d a o black b⟩ :: ctx) t)
    (bal : Balanced t n) (ha : Balanced a n) (hb : Balanced b n) (topb : topColor b = red)
    (op : Open (⟨d, p, c, .mk d a o black b⟩ :: ctx) (n + 1)) : let s₁ := rbSetBlack (rbSetColor s o (rbColor s p)) p
    Stored (rbRotate d (rbSetBlack s₁ (child s₁ o d.flip)) p)
      ((plug (⟨d, p, c, .mk d a o black b⟩ :: ctx) t).inorder) := by
  have tag : ((view s).cell p).tag = c := by
    rw [((rbZip_mk d).mpr h).zip.cell.2, vert_tag]
  have colored := (h.swap.setTag (tag ▸ view_rbSetColor s o p)).unswap
  have blackP := (rbZip_mk d).mp ((rbZip_mk d).mpr colored).setBlack
  have far := blackP.swap
  have farPtr := far.top_child_flip
  obtain ⟨b₁, k, b₂, rfl, -⟩ := id (hb.red_cases d topb)
  rw [ptr_mk] at farPtr
  have painted := ((rbZip_mk d).mpr
    ((rbZip_mk d).mpr ((rbZip_mk d).mp far).swap.setBlack.unswap).unswap)
  have turned := painted.rotate
  have far' := hb.paint_red topb
  rw [paint_mk] at far'
  have inner : Balanced (.mk d t p black a) (n + 1) := (balanced_black d).mpr ⟨bal, ha⟩
  intro s₁
  rw [farPtr]
  refine ⟨_, (rbZip_plug ctx _).mpr turned, (isRb_plug ctx _).mpr ?_, ?_⟩
  · cases c with
    | red =>
      refine ⟨n + 1, op.2.2.2, (balanced_red d).mpr ⟨inner, far', ?_, ?_⟩, fun _ => op.2.2.1⟩
      all_goals exact topColor_mk ..
    | black =>
      refine ⟨n + 2, op.2, (balanced_black d).mpr ⟨inner, far'⟩, ?_⟩
      rw [topColor_mk]
      exact fun h => absurd h (by decide)
  · refine inorder_plug_congr ctx ?_
    cases d <;> simp [mk, inorder]

/-- A subtree that is short of one black node; nothing else is out of balance. -/
def ShortFocus (s : Heap) (ctx : RbCtx) (t : RbTree) (seq : List Word) : Prop :=
  ∃ n, RbZip s ctx t ∧ Deficit t n ∧ Open ctx (n + 1) ∧ (ctx.plug t).inorder = seq

/-- The loop goes up, or stays where it is with a red focus once. -/
def weight (ctx : RbCtx) (t : RbTree) : Nat :=
  2 * ctx.length + match topColor t with
    | red => 0
    | black => 1

theorem weight_le (ctx : RbCtx) (t : RbTree) : weight ctx t ≤ 2 * ctx.length + 1 := by
  cases h : topColor t <;> simp [weight, h]

theorem weight_red (top : topColor t = red) : weight ctx t = 2 * ctx.length := by
  simp [weight, top]

theorem weight_black (top : topColor t = black) : weight ctx t = 2 * ctx.length + 1 := by
  simp [weight, top]

theorem eraseFixup_spec (h : ShortFocus s (⟨d, p, c, sib⟩ :: ctx) t seq) (top : topColor t = black) :
    (∃ s', eraseFixup d s p = (s', s'.rbNode, p, true) ∧ Stored s' seq) ∨
    ∃ s' ctx' t', eraseFixup d s p = (s', t'.ptr, ctx'.up, false) ∧ ShortFocus s' ctx' t' seq ∧
      weight ctx' t' < weight (⟨d, p, c, sib⟩ :: ctx) t := by
  obtain ⟨n, zip, short, op, rfl⟩ := h
  have bal := (deficit_black top).mp short
  obtain ⟨s₁, c', a, o, b, ctx', run, zip₁, ha, hb, op₁, up, order⟩ := blackSibling_spec zip op
  rw [← order]
  by_cases both : topColor a = black ∧ topColor b = black
  · right
    have test := zip₁.swap.children_black_iff.mpr both
    have painted := (rbZip_mk d).mpr zip₁.swap.setRed.unswap
    have sibling : Balanced (.mk d a o red b) n := (balanced_red d).mpr ⟨ha, hb, both.1, both.2⟩
    refine ⟨rbSetRed s₁ o, ctx', .mk d t p c' (.mk d a o red b), ?_, ?_, ?_⟩
    · simp only [eraseFixup, run, if_pos test, painted.top_parent, ptr_mk]
    · have order' : (plug ctx' (.mk d t p c' (.mk d a o red b))).inorder =
          (plug (⟨d, p, c', .mk d a o black b⟩ :: ctx') t).inorder :=
        inorder_plug_congr ctx' (inorder_mk_congr d p _ _ rfl (inorder_mk_congr d o _ _ rfl rfl))
      cases c' with
      | red =>
        refine ⟨n, painted, (deficit_red (topColor_mk ..)).mpr ?_, op₁.2.2.2, order'⟩
        rw [paint_mk]
        exact (balanced_black d).mpr ⟨bal, sibling⟩
      | black =>
        refine ⟨n + 1, painted, (deficit_black (topColor_mk ..)).mpr ?_, op₁.2, order'⟩
        exact (balanced_black d).mpr ⟨bal, sibling⟩
    · rw [weight_black top, length_cons]
      rcases up with up | ⟨up, rfl⟩
      · have := weight_le ctx' (.mk d t p c' (.mk d a o red b))
        omega
      · rw [weight_red (topColor_mk ..)]
        omega
  · left
    have test := (not_congr zip₁.swap.children_black_iff).mpr both
    obtain ⟨s₂, a', o', b', run₂, zip₂, ha', hb', topb, order₂⟩ :=
      farRedSibling_spec zip₁ ha hb both
    have op₂ : Open (⟨d, p, c', .mk d a' o' black b'⟩ :: ctx') (n + 1) := by
      have sibling : Balanced (.mk d a' o' black b') (n + 1) := (balanced_black d).mpr ⟨ha', hb'⟩
      cases c' with
      | red => exact ⟨sibling, topColor_mk .., op₁.2.2⟩
      | black => exact ⟨sibling, op₁.2⟩
    have order' : (plug (⟨d, p, c', .mk d a' o' black b'⟩ :: ctx') t).inorder =
        (plug (⟨d, p, c', .mk d a o black b⟩ :: ctx') t).inorder :=
      inorder_plug_congr ctx' (inorder_mk_congr d p _ _ rfl order₂)
    refine ⟨_, ?_, order' ▸ erase_rotate zip₂ bal ha' hb' topb op₂⟩
    simp only [eraseFixup, run, if_neg test, run₂]

theorem RbZip.paintTop (h : RbZip s ctx t) :
    RbZip (if t.ptr ≠ 0 then rbSetBlack s t.ptr else s) ctx (paint black t) := by
  split
  · next ht => exact h.paintBlack ht
  · next ht =>
      cases t with
      | nil => exact h
      | node l q c r => exact absurd (RbZip.top_ne_zero (d := .left) h) ht

theorem Stored.paintRoot (h : Stored s seq) : Stored (if s.rbNode ≠ 0 then rbSetBlack s s.rbNode else s) seq := by
  obtain ⟨t, zip, rb, order⟩ := h
  have root : s.rbNode = t.ptr := zip.zip.around
  have painted := zip.paintTop
  rw [paint_of_black rb.1, ← root] at painted
  exact ⟨t, painted, rb, order⟩

theorem RbZip.ptr_ne_root {f : Frame Word Color} (h : RbZip s (f :: ctx) t) : t.ptr ≠ s.rbNode := by
  have whole := (rbZip_plug (f :: ctx) t).mpr h
  have root : s.rbNode = (plug (f :: ctx) t).ptr := whole.zip.around
  have mem := ptr_plug_mem f ctx t
  rw [← root] at mem
  have ne := h.zip.ne_zero (mem_append_right _ mem)
  intro same
  rw [← same] at mem ne
  exact (nodup_append'.mp h.zip.nodup).2.2 (ptr_mem_inorder ne) mem

/-- Where the loop ends, painting the focus makes up for what is missing. -/
theorem ShortFocus.stop (h : ShortFocus s ctx t seq)
    (stop : ¬ ((t.ptr = 0 ∨ rbIsBlack s t.ptr = true) ∧ t.ptr ≠ s.rbNode)) :
    Stored (if t.ptr ≠ 0 then rbSetBlack s t.ptr else s) seq := by
  obtain ⟨m, zip, short, op, rfl⟩ := h
  refine ⟨_, (rbZip_plug ctx _).mpr zip.paintTop, (isRb_plug ctx _).mpr ?_, ?_⟩
  · rw [zip.black_iff] at stop
    rw [topColor_paint_black]
    cases top : topColor t with
    | red => exact ⟨m + 1, op, (deficit_red top).mp short, fun h => absurd h (by decide)⟩
    | black =>
      cases ctx with
      | nil =>
        rw [paint_of_black top]
        exact ⟨m, trivial, (deficit_black top).mp short, fun h => absurd h (by decide)⟩
      | cons f ctx => exact absurd ⟨top, zip.ptr_ne_root⟩ stop
  · exact inorder_plug_congr ctx (inorder_paint black t)

theorem eraseTurn_spec (h : ShortFocus s ctx t seq) :
    (∃ s' ctx' t', eraseTurn (s, t.ptr, ctx.up) = .inl (s', t'.ptr, ctx'.up) ∧
      weight ctx' t' < weight ctx t ∧ ShortFocus s' ctx' t' seq) ∨ ∃ s' x,
        eraseTurn (s, t.ptr, ctx.up) = .inr (s', x) ∧
      Stored (if x ≠ 0 then rbSetBlack s' x else s') seq := by
  obtain ⟨m, zip, short, op, order⟩ := id h
  by_cases go : (t.ptr = 0 ∨ rbIsBlack s t.ptr = true) ∧ t.ptr ≠ s.rbNode
  · have top := zip.black_iff.mp go.1
    cases ctx with
    | nil => exact absurd zip.zip.around.symm go.2
    | cons f ctx =>
      obtain ⟨d, p, c, sib⟩ := f
      have side := zip.side' (zip.swap.sib_ptr_ne (zip.swap.ptr_ne_zero op.sib)).symm
      change (∃ s' ctx' t', eraseTurn (s, t.ptr, p) = _ ∧ _) ∨ ∃ s' x,
        eraseTurn (s, t.ptr, p) = _ ∧ _
      rcases eraseFixup_spec h top with ⟨s', run, done⟩ | ⟨s', ctx', t', run, focus, less⟩
      · refine .inr ⟨s', s'.rbNode, ?_, done.paintRoot⟩
        simp only [eraseTurn, if_pos go, side, run, if_true]
      · refine .inl ⟨s', ctx', t', ?_, less, focus⟩
        simp only [eraseTurn, if_pos go, side, run]
        rfl
  · refine .inr ⟨s, t.ptr, ?_, h.stop go⟩
    simp only [eraseTurn, if_neg go]

theorem rbEraseColor_spec (h : ShortFocus s ctx t seq) (hn : 2 * ctx.length + 1 < n) :
    ∃ s', rbEraseColor n s t.ptr ctx.up = some s' ∧ Stored s' seq := by
  have bound := weight_le ctx t
  obtain ⟨⟨s', x⟩, run, done⟩ := Loop.run_total eraseTurn (n := n)
    (fun k u => ∃ ctx t, weight ctx t = k ∧ u.2.1 = t.ptr ∧ u.2.2 = ctx.up ∧
      ShortFocus u.1 ctx t seq)
    (fun r => Stored (if r.2 ≠ 0 then rbSetBlack r.1 r.2 else r.1) seq) (by
      rintro k ⟨s, x, p⟩ ⟨ctx, t, rfl, rfl, rfl, focus⟩
      rcases eraseTurn_spec focus with ⟨s', ctx', t', next, less, focus'⟩ | ⟨s', x, leave, done⟩
      · exact .inl ⟨_, _, next, less, ctx', t', rfl, rfl, rfl, focus'⟩
      · exact .inr ⟨_, leave, done⟩)
    (s := (s, t.ptr, ctx.up)) ⟨ctx, t, rfl, rfl, rfl, h⟩ (by omega)
  exact ⟨_, by rw [rbEraseColor, run]; rfl, done⟩

theorem ptr_eq_zero (h : RbZip s ctx t) : t.ptr = 0 ↔ t = .nil := by
  cases t with
  | nil => simp [ptr]
  | node l q c r => simpa [ptr] using RbZip.top_ne_zero (d := .left) h

theorem leftmost_spec (h : RbZip s ctx t) (ht : t.ptr ≠ 0) :
    ∃ path y cy r, t = plug path (.node .nil y cy r) ∧ (∀ f ∈ path, f.dir = .left) ∧
      ∀ n, path.length < n → leftmost n s t.ptr = some y := by
  induction t generalizing ctx with
  | nil => exact absurd rfl ht
  | node l q c r ihl _ =>
    have top : RbZip s ctx (.mk .left l q c r) := h
    have left : (s.mem q).rbLeft = l.ptr := top.top_child
    by_cases hl : l.ptr = 0
    · obtain rfl := (ptr_eq_zero ((rbZip_mk .left).mp top)).mp hl
      refine ⟨[], q, c, r, rfl, fun _ hf => absurd hf not_mem_nil, ?_⟩
      intro n hn
      obtain ⟨m, rfl⟩ := Nat.exists_eq_succ_of_ne_zero hn.ne'
      have stop : leftTurn s q = .inr q := if_neg fun h => h left
      rw [ptr, leftmost, Loop.run, stop]
    obtain ⟨path, y, cy, r', rfl, lefts, run⟩ := ihl ((rbZip_mk .left).mp top) hl
    refine ⟨path ++ [⟨.left, q, c, r⟩], y, cy, r', ?_, ?_, ?_⟩
    · rw [plug_append]
      rfl
    · intro f hf
      rcases mem_append.mp hf with hf | hf
      · exact lefts f hf
      · rw [mem_singleton.mp hf]
    · intro n hn
      rw [length_append, length_singleton] at hn
      obtain ⟨m, rfl⟩ := Nat.exists_eq_succ_of_ne_zero (Nat.ne_of_gt (Nat.zero_lt_of_lt hn))
      have go : leftTurn s q = .inl (plug path (.node .nil y cy r')).ptr := by
        rw [← left] at hl ⊢
        exact if_pos hl
      rw [ptr, leftmost, Loop.run, go]
      exact run m (by omega)

theorem length_le_nodes (ctx : RbCtx) : ctx.length ≤ ctx.nodes.length := by
  induction ctx with
  | nil => exact Nat.zero_le _
  | cons f ctx ih =>
    simp only [nodes, length_cons, length_append]
    omega

theorem length_le_inorder (ctx : RbCtx) (t : RbTree) : ctx.length ≤ (ctx.plug t).inorder.length := by
  rw [(perm_inorder_plug ctx t).length_eq, length_append]
  have := length_le_nodes ctx
  omega

theorem removed_spec {y color : Word} {cy : Color} {k : Nat} (h : RbZip s ctx t)
    (bal : Balanced (.mk d .nil y cy t) k) (op : Open ctx k) (hn : 2 * ctx.length + 1 < n)
    (hc : color = rbBlack ↔ cy = black) :
    ∃ s', (if color = rbBlack then rbEraseColor n s t.ptr ctx.up else some s) = some s' ∧
      Stored s' (ctx.plug t).inorder := by
  cases cy with
  | red =>
    obtain ⟨-, bal', -, top⟩ := (balanced_red d).mp bal
    refine ⟨s, if_neg fun h => absurd (hc.mp h) (by decide), _, (rbZip_plug ctx t).mpr h, ?_, rfl⟩
    exact (isRb_plug ctx t).mpr ⟨k, op, bal', fun h => absurd (top.symm.trans h) (by decide)⟩
  | black =>
    obtain ⟨m, rfl⟩ := bal.pos
    obtain ⟨-, bal'⟩ := (balanced_black d).mp bal
    rw [if_pos (hc.mpr rfl)]
    exact rbEraseColor_spec ⟨m, h, bal'.deficit, op, rfl⟩ hn

theorem open_rename (path : RbCtx) (y : Word) :
    Open (path ++ ⟨d, x, c, sib⟩ :: ctx) n ↔ Open (path ++ ⟨d, y, c, sib⟩ :: ctx) n := by
  induction path generalizing n with
  | nil => cases c <;> rfl
  | cons f path ih =>
    obtain ⟨d', q, c', sib'⟩ := f
    have redOk : RedOk (path ++ ⟨d, x, c, sib⟩ :: ctx) ↔ RedOk (path ++ ⟨d, y, c, sib⟩ :: ctx) := by
      cases path <;> rfl
    cases c' with
    | red => simp only [cons_append, Open, ih, redOk]
    | black => simp only [cons_append, Open, ih]

theorem before_of_left {path : RbCtx} (left : ∀ f ∈ path, f.dir = .left) : path.before = [] := by
  induction path with
  | nil => rfl
  | cons f path ih =>
    obtain ⟨d, q, c, sib⟩ := f
    obtain rfl : d = .left := left _ mem_cons_self
    exact ih fun f hf => left f (mem_cons_of_mem _ hf)

theorem inorder_plug_node (ctx : RbCtx) (l : RbTree) (x : Word) (c : Color) (r : RbTree) :
    (ctx.plug (.node l x c r)).inorder = ctx.before ++ l.inorder ++ x :: (r.inorder ++ ctx.behind) := by
  simp [inorder_plug, inorder]

theorem RbZip.top_not_mem {l r : RbTree} (h : RbZip s ctx (.node l x c r)) :
    x ∉ ctx.before ++ l.inorder ∧ x ∉ r.inorder ++ ctx.behind := by
  have nodup := ((rbZip_plug ctx _).mpr h).zip.nodup
  rw [nodes, append_nil, inorder_plug_node] at nodup
  have out := (nodup_cons.mp (nodup_middle.mp nodup)).1
  rwa [mem_append, not_or] at out

theorem rbErase_spec (h : Stored s seq) (hx : x ∈ seq) (hn : 2 * seq.length + 1 < n) :
    ∃ s', rbErase n s x = some s' ∧ Stored s' (seq.erase x) := by
  obtain ⟨t, zip, rb, rfl⟩ := h
  obtain ⟨ctx, l, c, r, rfl⟩ := exists_plug hx
  obtain ⟨k, op, bal, -⟩ := (isRb_plug ctx _).mp rb
  have focus := (rbZip_plug ctx _).mp zip
  have left : (s.mem x).rbLeft = l.ptr := RbZip.top_child (d := .left) focus
  have right : (s.mem x).rbRight = r.ptr := RbZip.top_child_flip (d := .left) focus
  have short := length_le_inorder ctx (.node l x c r)
  rw [inorder_plug_node, erase_append_right _ focus.top_not_mem.1, erase_cons_head, append_assoc,
    ← append_assoc l.inorder, ← append_assoc]
  by_cases hl : l.ptr = 0
  · obtain rfl := (ptr_eq_zero ((rbZip_mk .left).mp focus)).mp hl
    obtain ⟨s₁, color, run, hc, zip₁⟩ := RbZip.eraseOne (d := .left) focus
    obtain ⟨s₂, run₂, done⟩ := removed_spec (d := .left) (n := n) zip₁ bal op (by omega) hc
    rw [inorder_plug] at done
    refine ⟨s₂, ?_, done⟩
    simp only [rbErase, unlinkNode, left, right, run]
    exact run₂
  by_cases hr : r.ptr = 0
  · obtain rfl := (ptr_eq_zero ((rbZip_mk .right).mp focus)).mp hr
    obtain ⟨s₁, color, run, hc, zip₁⟩ := RbZip.eraseOne (d := .right) focus
    obtain ⟨s₂, run₂, done⟩ := removed_spec (d := .right) (n := n) zip₁ bal op (by omega) hc
    rw [inorder_plug] at done
    refine ⟨s₂, ?_, ?_⟩
    · simp only [rbErase, unlinkNode, left, hl, right, run]
      exact run₂
    · simpa [inorder] using done
  obtain ⟨path, y, cy, r', rfl, lefts, walk⟩ := leftmost_spec ((rbZip_mk .right).mp focus) hr
  have whole : plug ctx (.node l x c (plug path (.node .nil y cy r'))) =
      plug (path ++ ⟨.right, x, c, l⟩ :: ctx) (.node .nil y cy r') := by
    rw [plug_append]
    rfl
  rw [whole] at zip rb hn short
  obtain ⟨k', op', bal', -⟩ := (isRb_plug _ _).mp rb
  have lengths := length_le_inorder (path ++ ⟨.right, x, c, l⟩ :: ctx) (.node .nil y cy r')
  rw [length_append, length_cons] at lengths
  obtain ⟨s₁, color, run, hc, zip₁⟩ :=
    RbZip.eraseTwo lefts ((rbZip_plug _ _).mp zip) hl
  obtain ⟨s₂, run₂, done⟩ := removed_spec (d := .left) (n := n) zip₁ bal'
    ((open_rename path y).mp op') (by rw [length_append, length_cons]; omega) hc
  refine ⟨s₂, ?_, ?_⟩
  · simp only [rbErase, unlinkNode, left, hl, right, hr, walk n (by omega),
      Option.map_some, run]
    exact run₂
  · rw [plug_append, plug] at done
    simpa [mk, inorder, inorder_plug, before_of_left lefts] using done

def replaceIn (seq : List Word) (x y : Word) : List Word := seq.map fun q => if q = x then y else q

theorem replaceIn_of_not_mem {l : List Word} (h : x ∉ l) (y : Word) : replaceIn l x y = l := by
  induction l with
  | nil => rfl
  | cons q l ih =>
    rw [mem_cons, not_or] at h
    rw [replaceIn, map_cons, if_neg (Ne.symm h.1)]
    exact congrArg _ (ih h.2)

theorem rbReplaceNode_spec {y : Word} (h : Stored s seq) (hx : x ∈ seq) (hy : y ≠ 0)
    (aligned : Aligned y) (fresh : y ∉ seq) : Stored (rbReplaceNode s x y) (replaceIn seq x y) := by
  obtain ⟨t, zip, rb, rfl⟩ := h
  obtain ⟨ctx, l, c, r, rfl⟩ := exists_plug hx
  obtain ⟨k, op, bal, ok⟩ := (isRb_plug ctx _).mp rb
  have focus := (rbZip_plug ctx _).mp zip
  rw [(perm_inorder_plug ctx _).mem_iff] at fresh
  refine ⟨ctx.plug (.node l y c r), (rbZip_plug ctx _).mpr (focus.replace hy aligned fresh), ?_, ?_⟩
  · refine (isRb_plug ctx _).mpr ⟨k, op, ?_, ok⟩
    cases c with
    | red => exact bal
    | black => cases k <;> exact bal
  · have out := focus.top_not_mem
    have split : ∀ a b, replaceIn (a ++ x :: b) x y = replaceIn a x y ++ y :: replaceIn b x y := by
      intro a b
      simp [replaceIn]
    rw [inorder_plug_node, inorder_plug_node, split, replaceIn_of_not_mem out.1,
      replaceIn_of_not_mem out.2]

def insertAt (seq : List Word) (y : Word) : Slot Word → List Word
  | .top => [y]
  | .below p .left => seq.flatMap fun q => if q = p then [y, q] else [q]
  | .below p .right => seq.flatMap fun q => if q = p then [q, y] else [q]

/-- The place is empty, and `parent` is the node that it belongs to. -/
def EmptyAt (s : Heap) (seq : List Word) (parent : Word) : Slot Word → Prop
  | .top => parent = 0 ∧ s.rbNode = 0
  | .below p d => parent = p ∧ p ∈ seq ∧ child s p d = 0

theorem flatMap_of_not_mem {l : List Word} {p : Word} (h : p ∉ l) (k : Word → List Word) :
    (l.flatMap fun q => if q = p then k q else [q]) = l := by
  induction l with
  | nil => rfl
  | cons q l ih =>
    rw [mem_cons, not_or] at h
    rw [flatMap_cons, if_neg (Ne.symm h.1), ih h.2]
    rfl

theorem flatMap_middle {a b : List Word} {p : Word} (ha : p ∉ a) (hb : p ∉ b) (k : Word → List Word) :
    ((a ++ p :: b).flatMap fun q => if q = p then k q else [q]) = a ++ (k p ++ b) := by
  rw [flatMap_append, flatMap_cons, if_pos rfl, flatMap_of_not_mem ha,
    flatMap_of_not_mem hb]

theorem RbZip.insertAt_slot (h : RbZip s ctx .nil) (y : Word) :
    insertAt (ctx.before ++ ctx.behind) y ctx.slot = ctx.before ++ y :: ctx.behind := by
  have nodup : (ctx.before ++ ctx.behind).Nodup := by
    have whole := inorder_plug ctx (.nil : Tree Word Color)
    rw [inorder, append_nil] at whole
    rw [← whole, (perm_inorder_plug ctx .nil).nodup_iff]
    exact h.zip.nodup
  cases ctx with
  | nil => rfl
  | cons f ctx =>
    obtain ⟨d, p, c, sib⟩ := f
    cases d with
    | left =>
      simp only [behind] at nodup ⊢
      have out := nodup_middle.mp nodup
      rw [nodup_cons, mem_append, not_or] at out
      exact (flatMap_middle out.1.1 out.1.2 fun q => [y, q]).trans (by simp)
    | right =>
      simp only [before, append_assoc] at nodup ⊢
      rw [← append_assoc] at nodup ⊢
      have out := nodup_middle.mp nodup
      rw [nodup_cons, mem_append, not_or] at out
      exact (flatMap_middle out.1.1 out.1.2 fun q => [q, y]).trans (by simp)

theorem EmptyAt.exists_ctx {parent : Word} {slot : Slot Word} (h : RbZip s [] t)
    (place : EmptyAt s t.inorder parent slot) :
    ∃ ctx : RbCtx, t = ctx.plug .nil ∧ ctx.up = parent ∧ ctx.slot = slot := by
  cases slot with
  | top =>
    obtain ⟨rfl, root⟩ := place
    have hroot : s.rbNode = t.ptr := h.zip.around
    obtain rfl := (ptr_eq_zero h).mp (hroot.symm.trans root)
    exact ⟨[], rfl, rfl, rfl⟩
  | below p d =>
    obtain ⟨rfl, mem, empty⟩ := place
    obtain ⟨ctx, l, c, r, rfl⟩ := exists_plug mem
    obtain ⟨a, b, eq⟩ := exists_mk (d := d) l parent c r
    rw [eq] at h ⊢
    have focus := (rbZip_plug ctx _).mp h
    obtain rfl := (ptr_eq_zero ((rbZip_mk d).mp focus)).mp (focus.top_child.symm.trans empty)
    exact ⟨⟨d, parent, c, b⟩ :: ctx, rfl, rfl, rfl⟩

theorem rbInsert_spec {y parent : Word} {slot : Slot Word} (h : Stored s seq) (hy : y ≠ 0)
    (aligned : Aligned y) (fresh : y ∉ seq) (place : EmptyAt s seq parent slot) (hn : seq.length < n) :
    ∃ s', rbInsertColor n (rbLinkNode s y parent slot) y = some s' ∧ Stored s' (insertAt seq y slot) := by
  obtain ⟨t, zip, rb, rfl⟩ := h
  obtain ⟨ctx, rfl, rfl, rfl⟩ := place.exists_ctx zip
  obtain ⟨k, op, rfl, -⟩ := (isRb_plug ctx .nil).mp rb
  have hole := (rbZip_plug ctx .nil).mp zip
  rw [(perm_inorder_plug ctx .nil).mem_iff] at fresh
  have short := length_le_inorder ctx .nil
  have leaf : Balanced (.node .nil y red .nil) 0 := ⟨rfl, rfl, rfl, rfl⟩
  have order : (ctx.plug (.node .nil y red .nil)).inorder = insertAt (ctx.plug .nil).inorder y ctx.slot := by
    rw [inorder_plug_node, inorder_plug, inorder, append_nil, hole.insertAt_slot,
      nil_append]
  have focus : RedFocus (rbLinkNode s y ctx.up ctx.slot) ctx y (insertAt _ y ctx.slot) :=
    ⟨_, 0, hole.link hy aligned fresh, rfl, rfl, leaf, op, order⟩
  exact rbInsertColor_spec focus (by omega)

variable {m : Nat}

theorem rbInsertColor_mono {r : Heap} (h : n ≤ m) (run : rbInsertColor n s x = some r) :
    rbInsertColor m s x = some r := by
  obtain ⟨r', run', rfl⟩ := Option.map_eq_some_iff.mp run
  rw [rbInsertColor, Loop.run_mono h run']
  rfl

theorem rbEraseColor_mono {r : Heap} (h : n ≤ m) (run : rbEraseColor n s x p = some r) :
    rbEraseColor m s x p = some r := by
  obtain ⟨r', run', rfl⟩ := Option.map_eq_some_iff.mp run
  rw [rbEraseColor, Loop.run_mono h run']
  rfl

theorem unlinkNode_mono {r : Heap × Word × Word × Word} (h : n ≤ m)
    (run : unlinkNode n s x = some r) : unlinkNode m s x = some r := by
  unfold unlinkNode at run ⊢
  split_ifs at run ⊢
  · exact run
  · exact run
  · obtain ⟨y, walk, rfl⟩ := Option.map_eq_some_iff.mp run
    exact Option.map_eq_some_iff.mpr ⟨y, Loop.run_mono h walk, rfl⟩

theorem rbErase_mono {r : Heap} (h : n ≤ m) (run : rbErase n s x = some r) : rbErase m s x = some r := by
  obtain ⟨⟨s', y, p, w⟩, first, rest⟩ := Option.bind_eq_some_iff.mp run
  refine Option.bind_eq_some_iff.mpr ⟨(s', y, p, w), unlinkNode_mono h first, ?_⟩
  dsimp only at rest ⊢
  split_ifs at rest ⊢
  · exact rbEraseColor_mono h rest
  · exact rest

/-- A tree with its nodes in order. Memory outside the tree belongs to others and may change. -/
inductive RbStep : Heap × List Word → Heap × List Word → Prop where
  | insert {s s' : Heap} {seq : List Word} (n : Nat) (y parent : Word) (slot : Slot Word)
      (ne : y ≠ 0) (aligned : Aligned y) (fresh : y ∉ seq) (place : EmptyAt s seq parent slot)
      (run : rbInsertColor n (rbLinkNode s y parent slot) y = some s') :
      RbStep (s, seq) (s', insertAt seq y slot)
  | erase {s s' : Heap} {seq : List Word} (n : Nat) (x : Word) (mem : x ∈ seq)
      (run : rbErase n s x = some s') : RbStep (s, seq) (s', seq.erase x)
  | replace {s : Heap} {seq : List Word} (x y : Word) (mem : x ∈ seq) (ne : y ≠ 0)
      (aligned : Aligned y) (fresh : y ∉ seq) :
      RbStep (s, seq) (rbReplaceNode s x y, replaceIn seq x y)
  | outside {s s' : Heap} {seq : List Word} (root : s'.rbNode = s.rbNode)
      (same : ∀ p ∈ seq, s'.mem p = s.mem p) : RbStep (s, seq) (s', seq)

theorem RbStep.keeps {u v : Heap × List Word} (step : RbStep u v) (h : Stored u.1 u.2) : Stored v.1 v.2 := by
  cases step with
  | insert n y parent slot ne aligned fresh place run =>
    rename_i s s' seq
    obtain ⟨r, run', done⟩ := rbInsert_spec h ne aligned fresh place
      (show seq.length < n + seq.length + 1 by omega)
    have same := rbInsertColor_mono (m := n + seq.length + 1) (by omega) run
    rw [run', Option.some.injEq] at same
    exact same ▸ done
  | erase n x mem run =>
    rename_i s s' seq
    obtain ⟨r, run', done⟩ := rbErase_spec h mem
      (show 2 * seq.length + 1 < n + 2 * seq.length + 2 by omega)
    have same := rbErase_mono (m := n + 2 * seq.length + 2) (by omega) run
    rw [run', Option.some.injEq] at same
    exact same ▸ done
  | replace x y mem ne aligned fresh => exact rbReplaceNode_spec h mem ne aligned fresh
  | outside root same =>
    obtain ⟨t, zip, rb, order⟩ := h
    refine ⟨t, zip.congr root ?_, rb, order⟩
    intro p hp
    rw [nodes, append_nil, order] at hp
    exact same p hp

abbrev Reaches := Transition.Reachable (fun v : Heap × List Word => v.1.rbNode = 0 ∧ v.2 = []) RbStep

theorem Reaches.stored {u : Heap × List Word} (h : Reaches u) : Stored u.1 u.2 := by
  refine h.invariant (fun v => Stored v.1 v.2) ?_ fun _ _ ok step => step.keeps ok
  rintro ⟨s, seq⟩ ⟨root, rfl⟩
  exact stored_nil root

/-- In every run from an empty root the memory holds a red-black tree whose nodes are in the order
that the operations give, and every operation returns. -/
theorem rbtree_run {u : Heap × List Word} (h : Transition.Reachable (fun v => v.1.rbNode = 0 ∧ v.2 = []) RbStep u) :
    (∃ t, Zip (view u.1) [] t ∧ topColor t = black ∧ (∃ n, Balanced t n) ∧ t.inorder = u.2) ∧
    (∀ n y parent slot, y ≠ 0 → Aligned y → y ∉ u.2 → EmptyAt u.1 u.2 parent slot →
      u.2.length < n → ∃ s', rbInsertColor n (rbLinkNode u.1 y parent slot) y = some s') ∧
    ∀ n x, x ∈ u.2 → 2 * u.2.length + 1 < n → ∃ s', rbErase n u.1 x = some s' := by
  have stored := Reaches.stored h
  refine ⟨?_, ?_, ?_⟩
  · obtain ⟨t, zip, ⟨top, bal⟩, order⟩ := stored
    exact ⟨t, zip.zip, top, bal, order⟩
  · intro n y parent slot ne aligned fresh place hn
    obtain ⟨s', run, -⟩ := rbInsert_spec stored ne aligned fresh place hn
    exact ⟨s', run⟩
  · intro n x mem hn
    obtain ⟨s', run, -⟩ := rbErase_spec stored mem hn
    exact ⟨s', run⟩

/-- Three nodes are linked in rising order. -/
def rising : Option Heap := do
  let s ← rbInsertColor 1 (rbLinkNode ⟨fun _ => ⟨0, 0, 0⟩, 0⟩ 4 0 .top) 4
  let s ← rbInsertColor 2 (rbLinkNode s 8 4 (.below 4 .right)) 8
  rbInsertColor 3 (rbLinkNode s 12 8 (.below 8 .right)) 12

theorem reaches_rising : ∃ s, rising = some s ∧ s.rbNode = 8 ∧ Reaches (s, [4, 8, 12]) := by
  refine ⟨_, rfl, rfl, ?_⟩
  have start : Reaches (⟨fun _ => ⟨0, 0, 0⟩, 0⟩, []) := .start ⟨rfl, rfl⟩
  have one := start.next (.insert 1 4 0 .top (by decide) rfl not_mem_nil ⟨rfl, rfl⟩ rfl)
  have two := one.next (.insert 2 8 4 (.below 4 .right) (by decide) rfl (by decide) ⟨rfl, by decide, rfl⟩ rfl)
  exact two.next (.insert 3 12 8 (.below 8 .right) (by decide) rfl (by decide) ⟨rfl, by decide, rfl⟩ rfl)

/-- The third insertion rotates: the second node is the root then. -/
theorem rbtree_run_rising : ∃ s t, rising = some s ∧ s.rbNode = 8 ∧ Zip (view s) [] t ∧ topColor t = black ∧
    t.inorder = [4, 8, 12] ∧ ∃ s', rbErase 8 s 8 = some s' := by
  obtain ⟨s, run, root, reaches⟩ := reaches_rising
  obtain ⟨⟨t, zip, top, -, order⟩, -, erase⟩ := rbtree_run reaches
  exact ⟨s, t, run, root, zip, top, order, erase 8 8 (by simp) (by simp)⟩

end Rbtree
