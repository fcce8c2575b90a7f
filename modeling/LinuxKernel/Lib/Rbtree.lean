/- Red-black trees: the word level of lib/rbtree.c, with parent and colour in one word. -/
import Mathlib.Data.BitVec
import LinuxKernel.Foundation.Loop
import LinuxKernel.Foundation.PointerTree

namespace Rbtree

open Function

open PointerTree (Dir Slot)

abbrev Word := BitVec 64

structure RbNode where
  rbParentColor : Word
  rbRight : Word
  rbLeft : Word
  deriving DecidableEq, Repr

/-- The memory that holds the nodes, and the field of one `struct rb_root`. -/
structure Heap where
  mem : Word → RbNode
  rbNode : Word

def rbBlack : Word := 1

def rbParent (s : Heap) (r : Word) : Word := (s.mem r).rbParentColor &&& ~~~3

def rbColor (s : Heap) (r : Word) : Word := (s.mem r).rbParentColor &&& 1

def rbIsRed (s : Heap) (r : Word) : Bool := rbColor s r == 0

def rbIsBlack (s : Heap) (r : Word) : Bool := rbColor s r != 0

def setParentColor (s : Heap) (r w : Word) : Heap :=
  { s with mem := update s.mem r { s.mem r with rbParentColor := w } }

def rbSetRed (s : Heap) (r : Word) : Heap :=
  setParentColor s r ((s.mem r).rbParentColor &&& ~~~1)

def rbSetBlack (s : Heap) (r : Word) : Heap :=
  setParentColor s r ((s.mem r).rbParentColor ||| 1)

def rbSetParent (s : Heap) (rb p : Word) : Heap :=
  setParentColor s rb ((s.mem rb).rbParentColor &&& 3 ||| p)

def rbSetColor (s : Heap) (rb color : Word) : Heap :=
  setParentColor s rb ((s.mem rb).rbParentColor &&& ~~~1 ||| color)

def child (s : Heap) (r : Word) : Dir → Word
  | .left => (s.mem r).rbLeft
  | .right => (s.mem r).rbRight

def setChild (s : Heap) (r : Word) (d : Dir) (q : Word) : Heap :=
  { s with mem := update s.mem r (match d with
    | .left => { s.mem r with rbLeft := q }
    | .right => { s.mem r with rbRight := q }) }

/-- Lets the link to `old`, below `parent` or in the root, point to `new`. The functions differ in
the side that they compare first. -/
def changeChild (s : Heap) (d : Dir) (parent old new : Word) : Heap :=
  if parent ≠ 0 then
    if old = child s parent d then setChild s parent d new else setChild s parent d.flip new
  else { s with rbNode := new }

/-- The two rotations are mirror images: `d` is the side to which `node` moves down. -/
def rbRotate (d : Dir) (s : Heap) (node : Word) : Heap :=
  let right := child s node d.flip
  let parent := rbParent s node
  let inner := child s right d
  let s := setChild s node d.flip inner
  let s := if inner ≠ 0 then rbSetParent s (child s right d) node else s
  let s := setChild s right d node
  let s := rbSetParent s right parent
  let s := changeChild s d parent node right
  rbSetParent s node right

def rbRotateLeft : Heap → Word → Heap := rbRotate .left

def rbRotateRight : Heap → Word → Heap := rbRotate .right

def rbLinkNode (s : Heap) (node parent : Word) (rbLink : Slot Word) : Heap :=
  let s := { s with mem := update s.mem node ⟨parent, 0, 0⟩ }
  match rbLink with
  | .top => { s with rbNode := node }
  | .below p d => setChild s p d node

/-- The body of the loop of `rb_insert_color` where `parent` is on side `d` of `gparent`. -/
def insertFixup (d : Dir) (s : Heap) (node parent gparent : Word) : Heap × Word :=
  let uncle := child s gparent d.flip
  if uncle ≠ 0 ∧ rbIsRed s uncle then
    (rbSetRed (rbSetBlack (rbSetBlack s uncle) parent) gparent, gparent)
  else
    let (s, node, parent) :=
      if child s parent d.flip = node then (rbRotate d s parent, parent, node)
      else (s, node, parent)
    let s := rbSetRed (rbSetBlack s parent) gparent
    (rbRotate d.flip s gparent, node)

/-- One turn of the loop of `rb_insert_color`. -/
def insertTurn : Heap × Word → (Heap × Word) ⊕ Heap
  | (s, node) =>
    let parent := rbParent s node
    if parent ≠ 0 ∧ rbIsRed s parent then
      let gparent := rbParent s parent
      let d := if parent = (s.mem gparent).rbLeft then Dir.left else Dir.right
      .inl (insertFixup d s node parent gparent)
    else .inr s

/-- The first argument bounds the iterations of the loop. -/
def rbInsertColor (n : Nat) (s : Heap) (node : Word) : Option Heap :=
  (Loop.run insertTurn n (s, node)).map fun s => rbSetBlack s s.rbNode

/-- The first part of the loop body of `__rb_erase_color`, where `node` is on side `d` of `parent`:
a red sibling is rotated away. -/
def blackSibling (d : Dir) (s : Heap) (parent : Word) : Heap × Word :=
  let other := child s parent d.flip
  if rbIsRed s other then
    let s := rbRotate d (rbSetRed (rbSetBlack s other) parent) parent
    (s, child s parent d.flip)
  else (s, other)

/-- The sibling whose far child is not red gets one by a rotation. -/
def farRedSibling (d : Dir) (s : Heap) (parent other : Word) : Heap × Word :=
  if child s other d.flip = 0 ∨ rbIsBlack s (child s other d.flip) then
    let s := rbRotate d.flip (rbSetRed (rbSetBlack s (child s other d)) other) other
    (s, child s parent d.flip)
  else (s, other)

/-- The loop body: the new heap, `node` and `parent`, and whether the loop is left by `break`. -/
def eraseFixup (d : Dir) (s : Heap) (parent : Word) : Heap × Word × Word × Bool :=
  let (s, other) := blackSibling d s parent
  if (child s other .left = 0 ∨ rbIsBlack s (child s other .left)) ∧
      (child s other .right = 0 ∨ rbIsBlack s (child s other .right)) then
    let s := rbSetRed s other
    (s, parent, rbParent s parent, false)
  else
    let (s, other) := farRedSibling d s parent other
    let s := rbSetColor s other (rbColor s parent)
    let s := rbSetBlack s parent
    let s := rbSetBlack s (child s other d.flip)
    let s := rbRotate d s parent
    (s, s.rbNode, parent, true)

def eraseTurn : Heap × Word × Word → (Heap × Word × Word) ⊕ (Heap × Word)
  | (s, node, parent) =>
    if (node = 0 ∨ rbIsBlack s node) ∧ node ≠ s.rbNode then
      let d := if (s.mem parent).rbLeft = node then Dir.left else Dir.right
      let (s, node, parent, leave) := eraseFixup d s parent
      if leave then .inr (s, node) else .inl (s, node, parent)
    else .inr (s, node)

def rbEraseColor (n : Nat) (s : Heap) (node parent : Word) : Option Heap :=
  (Loop.run eraseTurn n (s, node, parent)).map fun (s, node) =>
    if node ≠ 0 then rbSetBlack s node else s

/-- One turn of `while ((left = node->rb_left) != NULL) node = left`. -/
def leftTurn (s : Heap) (node : Word) : Word ⊕ Word :=
  let left := (s.mem node).rbLeft
  if left ≠ 0 then .inl left else .inr node

def leftmost (n : Nat) (s : Heap) (node : Word) : Option Word := Loop.run (leftTurn s) n node

/-- The path of `rb_erase` for a node with at most one child: the heap, and the child, parent and
colour for which the tree is recoloured. -/
def eraseOne (s : Heap) (node child : Word) : Heap × Word × Word × Word :=
  let parent := rbParent s node
  let color := rbColor s node
  let s := if child ≠ 0 then rbSetParent s child parent else s
  (changeChild s .left parent node child, child, parent, color)

/-- The path of `rb_erase` for a node `old` with two children, where `node` comes next. -/
def eraseTwo (s : Heap) (old node : Word) : Heap × Word × Word × Word :=
  let s := changeChild s .left (rbParent s old) old node
  let child := (s.mem node).rbRight
  let parent := rbParent s node
  let color := rbColor s node
  let (s, parent) :=
    if parent = old then (s, node)
    else
      let s := if child ≠ 0 then rbSetParent s child parent else s
      let s := setChild s parent .left child
      let s := setChild s node .right (s.mem old).rbRight
      (rbSetParent s (s.mem old).rbRight node, parent)
  let s := setParentColor s node (s.mem old).rbParentColor
  let s := setChild s node .left (s.mem old).rbLeft
  (rbSetParent s (s.mem old).rbLeft node, child, parent, color)

/-- The part of `rb_erase` before the label `color`. -/
def unlinkNode (n : Nat) (s : Heap) (node : Word) : Option (Heap × Word × Word × Word) :=
  if (s.mem node).rbLeft = 0 then some (eraseOne s node (s.mem node).rbRight)
  else if (s.mem node).rbRight = 0 then some (eraseOne s node (s.mem node).rbLeft)
  else (leftmost n s (s.mem node).rbRight).map (eraseTwo s node)

def rbErase (n : Nat) (s : Heap) (node : Word) : Option Heap :=
  (unlinkNode n s node).bind fun (s, child, parent, color) =>
    if color = rbBlack then rbEraseColor n s child parent else some s

def rbReplaceNode (s : Heap) (victim new : Word) : Heap :=
  let parent := rbParent s victim
  let s := changeChild s .left parent victim new
  let s := if (s.mem victim).rbLeft ≠ 0 then rbSetParent s (s.mem victim).rbLeft new else s
  let s := if (s.mem victim).rbRight ≠ 0 then rbSetParent s (s.mem victim).rbRight new else s
  { s with mem := update s.mem new (s.mem victim) }

end Rbtree
