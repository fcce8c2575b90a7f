/- The radix tree of lib/radix-tree.c: insertion, lookup, tags, deletion, and the node cache. -/
import Mathlib.Data.Fintype.Basic
import Mathlib.Data.Finset.Card
import Mathlib.Logic.Function.Basic
import LinuxKernel.Foundation.Digits

namespace RadixTree

open Function

open Digits (digit)

/-- `RADIX_TREE_MAP_SHIFT` and `BITS_PER_LONG`. -/
structure Config where
  mapShift : Nat
  bits : Nat
  mapShift_pos : 0 < mapShift

def Config.maxPath (cfg : Config) : Nat := (cfg.bits + cfg.mapShift - 1) / cfg.mapShift

/-- There are `RADIX_TREE_MAX_TAGS` tags. -/
abbrev Tag := Fin 2

structure Node (k : Nat) (S : Type) where
  height : Nat
  count : Nat
  slots : Fin (2 ^ k) → S
  tags : Tag → Fin (2 ^ k) → Bool

/-- What a slot points to. In the root, the low bit of `rnode` tells a node from an item. -/
inductive Entry (k : Nat) (α : Type) where
  | null
  | item (a : α)
  | node (n : Node k (Entry k α))

variable {k : Nat}

def Entry.isNull {α : Type} : Entry k α → Bool
  | null => true
  | _ => false

def Entry.toItem {α : Type} : Entry k α → Option α
  | item a => some a
  | _ => none

/-- The fields of `struct radix_tree_root`; the tags are kept in bits of `gfp_mask`. -/
structure Root (k : Nat) (α : Type) where
  height : Nat
  tagged : Tag → Bool
  rnode : Entry k α

/-- What the next call for a node will do. -/
inductive Choice where
  | fail
  | fresh
  | reuse
  deriving DecidableEq, Repr

/-- The node cache: freed nodes, and what the allocations to come will do. -/
structure Slab (k : Nat) (α : Type) where
  free : List (Node k (Entry k α))
  script : List Choice

variable {α : Type} (cfg : Config)

abbrev Config.Entry (α : Type) := RadixTree.Entry cfg.mapShift α

abbrev Config.Root (α : Type) := RadixTree.Root cfg.mapShift α

abbrev Config.Slab (α : Type) := RadixTree.Slab cfg.mapShift α

def first (k : Nat) : Fin (2 ^ k) := ⟨0, Nat.two_pow_pos k⟩

/-- `__maxindex`, from which the table `height_to_maxindex` is filled. -/
def maxindex (height : Nat) : Nat :=
  let width := height * cfg.mapShift
  if cfg.bits < width then 2 ^ cfg.bits - 1
  else if width = 0 then 0
  else (2 ^ cfg.bits - 1) >>> (cfg.bits - width)

section Nodes

variable {k : Nat}

def zeroed : Node k (Entry k α) := ⟨0, 0, fun _ => .null, fun _ _ => false⟩

def nodeAlloc (slab : Slab k α) : Option (Node k (Entry k α)) × Slab k α :=
  match slab.script with
  | [] => (none, slab)
  | .fail :: script => (none, { slab with script })
  | .fresh :: script => (some zeroed, { slab with script })
  | .reuse :: script =>
    match slab.free with
    | [] => (none, { slab with script })
    | n :: free => (some n, ⟨free, script⟩)

/-- `radix_tree_node_rcu_free` clears what `radix_tree_shrink` may leave in the first slot. -/
def nodeRcuFree (n : Node k (Entry k α)) : Node k (Entry k α) :=
  { n with
    tags := fun t => update (n.tags t) (first k) false
    slots := update n.slots (first k) .null
    count := 0 }

def nodeFree (slab : Slab k α) (n : Node k (Entry k α)) : Slab k α :=
  { slab with free := nodeRcuFree n :: slab.free }

def tagSet (n : Node k (Entry k α)) (t : Tag) (o : Fin (2 ^ k)) : Node k (Entry k α) :=
  { n with tags := update n.tags t (update (n.tags t) o true) }

def tagClear (n : Node k (Entry k α)) (t : Tag) (o : Fin (2 ^ k)) : Node k (Entry k α) :=
  { n with tags := update n.tags t (update (n.tags t) o false) }

def anyTagSet (n : Node k (Entry k α)) (t : Tag) : Bool := decide (∃ o, n.tags t o = true)

def setSlot (n : Node k (Entry k α)) (o : Fin (2 ^ k)) (e : Entry k α) : Node k (Entry k α) :=
  { n with slots := update n.slots o e }

end Nodes

inductive Ret where
  | ok
  | eexist
  | enomem
  deriving DecidableEq, Repr

/-- `while (index > radix_tree_maxindex(height)) height++`. -/
def extendHeight (index : Nat) : Nat → Nat → Nat
  | 0, height => height
  | n + 1, height => if maxindex cfg height < index then extendHeight index n (height + 1) else height

/-- The loop of `radix_tree_extend`; the first argument is the number of levels to add. -/
def extendLoop : Nat → Root k α → Slab k α → Root k α × Slab k α × Ret
  | 0, root, slab => (root, slab, .ok)
  | n + 1, root, slab =>
    match nodeAlloc slab with
    | (none, slab) => (root, slab, .enomem)
    | (some node, slab) =>
      let node := { setSlot node (first k) root.rnode with
        tags := fun t =>
          if root.tagged t then update (node.tags t) (first k) true else node.tags t
        height := root.height + 1
        count := 1 }
      extendLoop n { root with rnode := .node node, height := root.height + 1 } slab

def radixTreeExtend (root : cfg.Root α) (slab : cfg.Slab α) (index : Nat) : cfg.Root α × cfg.Slab α × Ret :=
  let height := extendHeight cfg index cfg.maxPath (root.height + 1)
  if root.rnode.isNull then ({ root with height }, slab, .ok)
  else extendLoop (height - root.height) root slab

/-- The descent of `radix_tree_insert` through a slot whose entry has the given height and whose tags
are those of the node above: the new entry, and whether it was linked into an empty slot, so that
`count` of the node above goes up. A `BUG_ON` gives `none`. -/
def insertDown (index : Nat) (item : α) :
    Nat → Slab k α → Entry k α → (Tag → Bool) → Option (Entry k α × Bool × Slab k α × Ret)
  | 0, slab, e, tagged =>
    if e.isNull then
      if tagged 0 || tagged 1 then none else some (.item item, true, slab, .ok)
    else some (e, false, slab, .eexist)
  | h + 1, slab, e, _ =>
    let below (linked : Bool) (slab : Slab k α) (n : Node k (Entry k α)) :=
      let o := digit k h index
      (insertDown index item h slab (n.slots o) fun t => n.tags t o).map fun (c, up, slab, ret) =>
        (.node { setSlot n o c with count := if up then n.count + 1 else n.count }, linked, slab,
          ret)
    match e with
    | .null =>
      match nodeAlloc slab with
      | (none, slab) => some (.null, false, slab, .enomem)
      | (some n, slab) => below true slab { n with height := h + 1 }
    | .node n => below false slab n
    | .item _ => none

def radixTreeInsert (root : cfg.Root α) (slab : cfg.Slab α) (index : Nat) (item : α) :
    Option (cfg.Root α × cfg.Slab α × Ret) :=
  let (root, slab, ret) :=
    if maxindex cfg root.height < index then radixTreeExtend cfg root slab index
    else (root, slab, .ok)
  if ret = .ok then
    (insertDown index item root.height slab root.rnode root.tagged).map fun (e, _, slab, ret) =>
      ({ root with rnode := e }, slab, ret)
  else some (root, slab, ret)

/-- The descent of `radix_tree_lookup_element`, which `radix_tree_tag_clear` and
`radix_tree_delete` repeat to find the item. -/
def lookupDown (index : Nat) : Nat → Entry k α → Option α
  | 0, e => e.toItem
  | h + 1, .node n => lookupDown index h (n.slots (digit k h index))
  | _ + 1, _ => none

def radixTreeLookup (root : cfg.Root α) (index : Nat) : Option α :=
  match root.rnode with
  | .null => none
  | .item a => if 0 < index then none else some a
  | .node n =>
    if maxindex cfg n.height < index then none else lookupDown index n.height (.node n)

/-- The descent of `radix_tree_tag_set`; a missing entry is a `BUG_ON`. -/
def tagSetDown (index : Nat) (t : Tag) : Nat → Entry k α → Option (Entry k α × Option α)
  | 0, e => some (e, e.toItem)
  | h + 1, .node n =>
    let o := digit k h index
    if (n.slots o).isNull then none
    else (tagSetDown index t h (n.slots o)).map fun (c, slot) =>
      (.node (setSlot (tagSet n t o) o c), slot)
  | _ + 1, _ => none

def radixTreeTagSet (root : cfg.Root α) (index : Nat) (t : Tag) : Option (cfg.Root α × Option α) :=
  if maxindex cfg root.height < index then none
  else (tagSetDown index t root.height root.rnode).map fun (e, slot) =>
    ({ root with
        rnode := e
        tagged := if slot.isSome && !root.tagged t then update root.tagged t true
          else root.tagged }, slot)

/-- The second loop of `radix_tree_tag_clear`, from the item up: the recursion stands for the path
array, and the flag tells whether the loop goes on in the node above. -/
def tagClearDown (index : Nat) (t : Tag) : Nat → Entry k α → Entry k α × Bool
  | 0, e => (e, true)
  | h + 1, .node n =>
    let o := digit k h index
    let (c, up) := tagClearDown index t h (n.slots o)
    let n := setSlot n o c
    if up && n.tags t o then
      let n := tagClear n t o
      (.node n, !anyTagSet n t)
    else (.node n, false)
  | _ + 1, e => (e, false)

def radixTreeTagClear (root : cfg.Root α) (index : Nat) (t : Tag) : cfg.Root α × Option α :=
  if maxindex cfg root.height < index then (root, none)
  else
    match lookupDown index root.height root.rnode with
    | none => (root, none)
    | some a =>
      let (e, up) := tagClearDown index t root.height root.rnode
      ({ root with
          rnode := e
          tagged := if up && root.tagged t then update root.tagged t false
            else root.tagged }, some a)

/-- The loop of `radix_tree_tag_get`: the tag in the node of height one. -/
def tagGetDown (index : Nat) (t : Tag) : Nat → Entry k α → Bool
  | h + 1, .node n =>
    let o := digit k h index
    if h = 0 then n.tags t o else tagGetDown index t h (n.slots o)
  | _, _ => false

def radixTreeTagGet (root : cfg.Root α) (index : Nat) (t : Tag) : Bool :=
  if !root.tagged t then false
  else
    match root.rnode with
    | .null => false
    | .item _ => index == 0
    | .node n =>
      if maxindex cfg n.height < index then false else tagGetDown index t n.height (.node n)

def radixTreeTagged (root : cfg.Root α) (t : Tag) : Bool := root.tagged t

/-- `radix_tree_shrink`; an entry that is not a node is a `BUG_ON`. -/
def radixTreeShrink : Nat → Entry k α → Slab k α → Option (Nat × Entry k α × Slab k α)
  | 0, e, slab => some (0, e, slab)
  | h + 1, .node n, slab =>
    if n.count ≠ 1 then some (h + 1, .node n, slab)
    else if (n.slots (first k)).isNull then some (h + 1, .node n, slab)
    else radixTreeShrink h (n.slots (first k)) (nodeFree slab n)
  | _ + 1, _, _ => none

/-- How far the last loop of `radix_tree_delete` went: past the entry, to it, or not so far. -/
inductive Removed where
  | gone
  | here
  | below
  deriving DecidableEq, Repr

/-- The last loop of `radix_tree_delete`, from the item up. -/
def removeDown (index : Nat) : Nat → Entry k α → Slab k α → Entry k α × Slab k α × Removed
  | 0, _, slab => (.null, slab, .gone)
  | h + 1, .node n, slab =>
    let o := digit k h index
    match removeDown index h (n.slots o) slab with
    | (_, slab, .gone) =>
      let n := { setSlot n o .null with count := n.count - 1 }
      if n.count ≠ 0 then (.node n, slab, .here) else (.null, nodeFree slab n, .gone)
    | (c, slab, _) => (.node (setSlot n o c), slab, .below)
  | _ + 1, e, slab => (e, slab, .below)

/-- The loop of `radix_tree_delete` over the tags of the item. -/
def clearItemTags (root : cfg.Root α) (index : Nat) : cfg.Root α :=
  let root := if tagGetDown index 0 root.height root.rnode then (radixTreeTagClear cfg root index 0).1
    else root
  if tagGetDown index 1 root.height root.rnode then (radixTreeTagClear cfg root index 1).1 else root

def radixTreeDelete (root : cfg.Root α) (slab : cfg.Slab α) (index : Nat) :
    Option (cfg.Root α × cfg.Slab α × Option α) :=
  if maxindex cfg root.height < index then some (root, slab, none)
  else if root.height = 0 then
    some ({ root with tagged := fun _ => false, rnode := .null }, slab, root.rnode.toItem)
  else
    match lookupDown index root.height root.rnode with
    | none => some (root, slab, none)
    | some a =>
      let root := clearItemTags cfg root index
      match removeDown index root.height root.rnode slab with
      | (_, slab, .gone) => some (⟨0, fun _ => false, .null⟩, slab, some a)
      | (e, slab, .here) =>
        (radixTreeShrink root.height e slab).map fun (height, e, slab) =>
          ({ root with height, rnode := e }, slab, some a)
      | (e, slab, .below) => some ({ root with rnode := e }, slab, some a)

end RadixTree
