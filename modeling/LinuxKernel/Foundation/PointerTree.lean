/- Binary trees stored as linked nodes with parent pointers, and local surgery on them. -/
import Mathlib.Data.List.Nodup
import Mathlib.Data.List.Perm.Basic
import Mathlib.Logic.Function.Basic

namespace PointerTree

open List

inductive Dir where
  | left
  | right
  deriving DecidableEq, Repr

def Dir.flip : Dir → Dir
  | left => right
  | right => left

@[simp] theorem Dir.flip_flip (d : Dir) : d.flip.flip = d := by
  cases d <;> rfl

theorem Dir.eq_or_flip (d e : Dir) : e = d ∨ e = d.flip := by
  cases d <;> cases e <;> decide

/-- A node with its three links and a tag; `0` is the null pointer. -/
@[ext] structure Vertex (α τ : Type*) where
  parent : α
  left : α
  right : α
  tag : τ

/-- The nodes at their addresses and the pointer to the top node. -/
@[ext] structure Graph (α τ : Type*) where
  cell : α → Vertex α τ
  root : α

variable {α τ : Type*}

def Vertex.child (v : Vertex α τ) : Dir → α
  | .left => v.left
  | .right => v.right

def Vertex.setChild (v : Vertex α τ) (d : Dir) (q : α) : Vertex α τ :=
  match d with
  | .left => { v with left := q }
  | .right => { v with right := q }

/-- The vertex whose child on side `d` is `near` and whose other child is `far`. -/
def vert (d : Dir) (parent near far : α) (tag : τ) : Vertex α τ :=
  match d with
  | .left => ⟨parent, near, far, tag⟩
  | .right => ⟨parent, far, near, tag⟩

section Vert

variable (d : Dir) (parent near far q : α) (tag : τ)

@[simp] theorem vert_flip : vert d.flip parent near far tag = vert d parent far near tag := by
  cases d <;> rfl

@[simp] theorem vert_parent : (vert d parent near far tag).parent = parent := by
  cases d <;> rfl

@[simp] theorem vert_tag : (vert d parent near far tag).tag = tag := by
  cases d <;> rfl

@[simp] theorem vert_child : (vert d parent near far tag).child d = near := by
  cases d <;> rfl

@[simp] theorem vert_child_flip : (vert d parent near far tag).child d.flip = far := by
  cases d <;> rfl

@[simp] theorem vert_setChild : (vert d parent near far tag).setChild d q = vert d parent q far tag := by
  cases d <;> rfl

@[simp] theorem vert_setChild_flip : (vert d parent near far tag).setChild d.flip q = vert d parent near q tag := by
  cases d <;> rfl

@[simp] theorem vert_setParent :
    { vert d parent near far tag with parent := q } = vert d q near far tag := by
  cases d <;> rfl

@[simp] theorem vert_setTag (tag' : τ) :
    { vert d parent near far tag with tag := tag' } = vert d parent near far tag' := by
  cases d <;> rfl

end Vert

namespace Graph

section Update

variable [DecidableEq α]

def modify (g : Graph α τ) (p : α) (f : Vertex α τ → Vertex α τ) : Graph α τ :=
  { g with cell := Function.update g.cell p (f (g.cell p)) }

def setParent (g : Graph α τ) (p q : α) : Graph α τ := g.modify p fun v => { v with parent := q }

def setChild (g : Graph α τ) (p : α) (d : Dir) (q : α) : Graph α τ :=
  g.modify p fun v => v.setChild d q

def setTag (g : Graph α τ) (p : α) (c : τ) : Graph α τ := g.modify p fun v => { v with tag := c }

variable (g : Graph α τ) (d : Dir) (f : Vertex α τ → Vertex α τ) (p q x : α) (c : τ)

@[simp] theorem modify_root : (g.modify p f).root = g.root := rfl

theorem modify_cell : (g.modify p f).cell q = if q = p then f (g.cell q) else g.cell q := by
  by_cases h : q = p
  · subst h
    simp [modify]
  · simp [modify, h]

@[simp] theorem setParent_root : (g.setParent p q).root = g.root := rfl

@[simp] theorem setChild_root : (g.setChild p d q).root = g.root := rfl

@[simp] theorem setTag_root : (g.setTag p c).root = g.root := rfl

theorem setParent_cell : (g.setParent p q).cell x =
    if x = p then { g.cell x with parent := q } else g.cell x := modify_cell g _ p x

theorem setChild_cell : (g.setChild p d q).cell x =
    if x = p then (g.cell x).setChild d q else g.cell x := modify_cell g _ p x

end Update

end Graph

inductive Tree (α τ : Type*) where
  | nil
  | node (l : Tree α τ) (p : α) (c : τ) (r : Tree α τ)

namespace Tree

def inorder : Tree α τ → List α
  | nil => []
  | node l p _ r => l.inorder ++ p :: r.inorder

/-- The node whose subtree on side `d` is `near`. -/
def mk (d : Dir) (near : Tree α τ) (p : α) (c : τ) (far : Tree α τ) : Tree α τ :=
  match d with
  | .left => node near p c far
  | .right => node far p c near

def ptr [Zero α] : Tree α τ → α
  | nil => 0
  | node _ p _ _ => p

@[simp] theorem mk_flip (d : Dir) (near : Tree α τ) (p : α) (c : τ) (far : Tree α τ) :
    mk d.flip near p c far = mk d far p c near := by
  cases d <;> rfl

@[simp] theorem ptr_mk [Zero α] (d : Dir) (near : Tree α τ) (p : α) (c : τ) (far : Tree α τ) :
    (mk d near p c far).ptr = p := by
  cases d <;> rfl

theorem perm_inorder_mk (d : Dir) (near : Tree α τ) (p : α) (c : τ) (far : Tree α τ) :
    (mk d near p c far).inorder.Perm (p :: (near.inorder ++ far.inorder)) := by
  cases d with
  | left => exact perm_middle
  | right => exact perm_middle.trans (perm_append_comm.cons p)

theorem nodup_mk (d : Dir) {a b : Tree α τ} {p : α} {c : τ} {rest : List α} : ((mk d a p c b).inorder ++ rest).Nodup ↔
    ((p ∉ a.inorder ∧ p ∉ b.inorder) ∧ p ∉ rest) ∧ (a.inorder ++ b.inorder ++ rest).Nodup := by
  rw [((perm_inorder_mk d a p c b).append_right rest).nodup_iff, cons_append, nodup_cons, mem_append, mem_append,
    not_or, not_or]

theorem inorder_rotate (d : Dir) (a b c : Tree α τ) (x y : α) (s t s' t' : τ) :
    (mk d (mk d a x s b) y t c).inorder = (mk d a x s' (mk d b y t' c)).inorder := by
  cases d <;> simp [mk, inorder]

theorem ptr_mem_inorder [Zero α] {t : Tree α τ} (h : t.ptr ≠ 0) : t.ptr ∈ t.inorder := by
  cases t with
  | nil => exact absurd rfl h
  | node l p c r => exact mem_append_right _ mem_cons_self

theorem ne_ptr [Zero α] {t : Tree α τ} {z : α} (hz : z ≠ 0) (h : z ∉ t.inorder) : z ≠ t.ptr := by
  rintro rfl
  exact h (ptr_mem_inorder hz)

end Tree

/-- A place that holds a pointer to a node. -/
inductive Slot (α : Type*) where
  | top
  | below (p : α) (d : Dir)
  deriving DecidableEq, Repr

/-- One step of a path from a subtree to the top: the side the subtree is on, the node above it
and that node's other subtree. -/
structure Frame (α τ : Type*) where
  dir : Dir
  ptr : α
  tag : τ
  sib : Tree α τ

abbrev Ctx (α τ : Type*) := List (Frame α τ)

namespace Ctx

def plug : Ctx α τ → Tree α τ → Tree α τ
  | [], t => t
  | f :: ctx, t => plug ctx (.mk f.dir t f.ptr f.tag f.sib)

def nodes : Ctx α τ → List α
  | [] => []
  | f :: ctx => f.ptr :: (f.sib.inorder ++ nodes ctx)

/-- The parent of the subtree. -/
def up [Zero α] : Ctx α τ → α
  | [] => 0
  | f :: _ => f.ptr

def before : Ctx α τ → List α
  | [] => []
  | ⟨.left, _, _, _⟩ :: ctx => before ctx
  | ⟨.right, p, _, sib⟩ :: ctx => before ctx ++ (sib.inorder ++ [p])

def behind : Ctx α τ → List α
  | [] => []
  | ⟨.left, p, _, sib⟩ :: ctx => p :: sib.inorder ++ behind ctx
  | ⟨.right, _, _, _⟩ :: ctx => behind ctx

theorem inorder_plug (ctx : Ctx α τ) (t : Tree α τ) :
    (plug ctx t).inorder = before ctx ++ t.inorder ++ behind ctx := by
  induction ctx generalizing t with
  | nil => simp [plug, before, behind]
  | cons f ctx ih =>
    obtain ⟨d, p, c, sib⟩ := f
    rw [plug, ih]
    cases d <;> simp [Tree.mk, Tree.inorder, before, behind]

theorem plug_append (ctx ctx' : Ctx α τ) (t : Tree α τ) : plug (ctx ++ ctx') t = plug ctx' (plug ctx t) := by
  induction ctx generalizing t with
  | nil => rfl
  | cons f ctx ih => exact ih _

theorem perm_inorder_plug (ctx : Ctx α τ) (t : Tree α τ) : (plug ctx t).inorder.Perm (t.inorder ++ nodes ctx) := by
  induction ctx generalizing t with
  | nil => simp [plug, nodes]
  | cons f ctx ih =>
    refine (ih _).trans ?_
    refine ((Tree.perm_inorder_mk f.dir t f.ptr f.tag f.sib).append_right _).trans ?_
    rw [cons_append, append_assoc]
    exact perm_middle.symm

theorem perm_nodes_mk (d : Dir) (a : Tree α τ) (p : α) (c : τ) (b : Tree α τ) (ctx : Ctx α τ) :
    ((Tree.mk d a p c b).inorder ++ ctx.nodes).Perm (a.inorder ++ nodes (⟨d, p, c, b⟩ :: ctx)) := by
  refine ((Tree.perm_inorder_mk d a p c b).append_right _).trans ?_
  rw [cons_append, append_assoc]
  exact perm_middle.symm

theorem nodes_append (ctx ctx' : Ctx α τ) : nodes (ctx ++ ctx') = nodes ctx ++ nodes ctx' := by
  induction ctx with
  | nil => rfl
  | cons f ctx ih => simp [nodes, ih]

theorem ptr_plug_mem [Zero α] (f : Frame α τ) (ctx : Ctx α τ) (t : Tree α τ) :
    (plug (f :: ctx) t).ptr ∈ nodes (f :: ctx) := by
  induction ctx generalizing f t with
  | nil =>
    rw [plug, plug, Tree.ptr_mk]
    exact mem_cons_self
  | cons f' ctx ih => exact mem_cons_of_mem _ (mem_append_right _ (ih f' _))

theorem exists_plug {t : Tree α τ} {p : α} (h : p ∈ t.inorder) : ∃ ctx l c r, t = plug ctx (.node l p c r) := by
  induction t with
  | nil => cases h
  | node l q c r ihl ihr =>
    rcases mem_append.mp h with h | h
    · obtain ⟨ctx, l', c', r', rfl⟩ := ihl h
      exact ⟨ctx ++ [⟨.left, q, c, r⟩], l', c', r', by rw [plug_append]; rfl⟩
    · rcases mem_cons.mp h with rfl | h
      · exact ⟨[], l, c, r, rfl⟩
      · obtain ⟨ctx, l', c', r', rfl⟩ := ihr h
        exact ⟨ctx ++ [⟨.right, q, c, l⟩], l', c', r', by rw [plug_append]; rfl⟩

/-- The place that the context leaves open. -/
def slot : Ctx α τ → Slot α
  | [] => .top
  | f :: _ => .below f.ptr f.dir

end Ctx

variable [Zero α] {g g' : Graph α τ} {ctx : Ctx α τ} {t a b : Tree α τ} {par p q : α} {c : τ}

/-- The nodes of the tree are stored in the graph, the top one below `par`. -/
def Linked (g : Graph α τ) : α → Tree α τ → Prop
  | _, .nil => True
  | par, .node l p c r =>
    p ≠ 0 ∧ g.cell p = ⟨par, l.ptr, r.ptr, c⟩ ∧ Linked g p l ∧ Linked g p r

theorem linked_mk (d : Dir) : Linked g par (.mk d a p c b) ↔
    p ≠ 0 ∧ g.cell p = vert d par a.ptr b.ptr c ∧ Linked g p a ∧ Linked g p b := by
  cases d with
  | left => exact Iff.rfl
  | right =>
    simp only [Tree.mk, Linked, vert]
    rw [and_comm (a := Linked g p b)]

/-- The nodes of the context are stored in the graph around a subtree at `q`. -/
def Around (g : Graph α τ) : Ctx α τ → α → Prop
  | [], q => g.root = q
  | f :: ctx, q => f.ptr ≠ 0 ∧ g.cell f.ptr = vert f.dir (Ctx.up ctx) q f.sib.ptr f.tag ∧
      Linked g f.ptr f.sib ∧ Around g ctx f.ptr

/-- A subtree in its context is stored in the graph, and no node occurs twice. -/
structure Zip (g : Graph α τ) (ctx : Ctx α τ) (t : Tree α τ) : Prop where
  tree : Linked g ctx.up t
  around : Around g ctx t.ptr
  nodup : (t.inorder ++ ctx.nodes).Nodup

theorem Linked.congr (h : Linked g par t) (same : ∀ q ∈ t.inorder, g'.cell q = g.cell q) : Linked g' par t := by
  induction t generalizing par with
  | nil => trivial
  | node l p c r ihl ihr =>
    obtain ⟨ne, cell, hl, hr⟩ := h
    simp only [Tree.inorder, mem_append, mem_cons] at same
    refine ⟨ne, ?_, ihl hl ?_, ihr hr ?_⟩
    · rw [same p (.inr (.inl rfl)), cell]
    · exact fun q hq => same q (.inl hq)
    · exact fun q hq => same q (.inr (.inr hq))

theorem Around.congr (h : Around g ctx q) (root : g'.root = g.root)
    (same : ∀ p ∈ ctx.nodes, g'.cell p = g.cell p) : Around g' ctx q := by
  induction ctx generalizing q with
  | nil => exact root.trans h
  | cons f ctx ih =>
    obtain ⟨ne, cell, sib, rest⟩ := h
    simp only [Ctx.nodes, mem_cons, mem_append] at same
    refine ⟨ne, ?_, sib.congr ?_, ih rest ?_⟩
    · rw [same f.ptr (.inl rfl), cell]
    · exact fun p hp => same p (.inr (.inl hp))
    · exact fun p hp => same p (.inr (.inr hp))

theorem Zip.congr (h : Zip g ctx t) (root : g'.root = g.root)
    (same : ∀ p ∈ t.inorder ++ ctx.nodes, g'.cell p = g.cell p) : Zip g' ctx t where
  tree := h.tree.congr fun p hp => same p (mem_append_left _ hp)
  around := h.around.congr root fun p hp => same p (mem_append_right _ hp)
  nodup := h.nodup

theorem zip_mk (d : Dir) : Zip g ctx (.mk d a p c b) ↔ Zip g (⟨d, p, c, b⟩ :: ctx) a := by
  constructor
  · rintro ⟨tree, around, nodup⟩
    obtain ⟨ne, cell, ha, hb⟩ := (linked_mk d).mp tree
    rw [Tree.ptr_mk] at around
    exact ⟨ha, ⟨ne, cell, hb, around⟩, (Ctx.perm_nodes_mk d a p c b ctx).nodup_iff.mp nodup⟩
  · rintro ⟨tree, ⟨ne, cell, hb, around⟩, nodup⟩
    refine ⟨(linked_mk d).mpr ⟨ne, cell, tree, hb⟩, ?_,
      (Ctx.perm_nodes_mk d a p c b ctx).nodup_iff.mpr nodup⟩
    rw [Tree.ptr_mk]
    exact around

theorem zip_plug (ctx : Ctx α τ) (t : Tree α τ) : Zip g [] (ctx.plug t) ↔ Zip g ctx t := by
  induction ctx generalizing t with
  | nil => rfl
  | cons f ctx ih => exact (ih _).trans (zip_mk f.dir)

theorem zip_append (path ctx : Ctx α τ) (t : Tree α τ) : Zip g (path ++ ctx) t ↔ Zip g ctx (path.plug t) := by
  induction path generalizing t with
  | nil => rfl
  | cons f path ih => exact (zip_mk f.dir).symm.trans (ih _)

theorem Zip.cell {d : Dir} (h : Zip g ctx (.mk d a p c b)) : p ≠ 0 ∧ g.cell p = vert d ctx.up a.ptr b.ptr c := by
  obtain ⟨ne, cell, -, -⟩ := (linked_mk d).mp h.tree
  exact ⟨ne, cell⟩

theorem up_mem_nodes (h : ctx.up ≠ 0) : ctx.up ∈ ctx.nodes := by
  cases ctx with
  | nil => exact absurd rfl h
  | cons f ctx => exact mem_cons_self

theorem Zip.ne_zero (h : Zip g ctx t) {x : α} (hx : x ∈ t.inorder ++ ctx.nodes) : x ≠ 0 := by
  have whole := (zip_plug ctx t).mpr h
  obtain ⟨ctx', l, c, r, ht⟩ :=
    Ctx.exists_plug ((Ctx.perm_inorder_plug ctx t).mem_iff.mpr hx)
  rw [ht, zip_plug] at whole
  exact (Zip.cell (d := .left) whole).1

end PointerTree
