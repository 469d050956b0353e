/-
Module: Workflow.Kernel.Rbtree
Layer: Kernel
Purpose: The red-black tree of rbtree.c and rbtree.h on the pointers of its nodes: `rb_left` and
  `rb_right` are `child .left` and `child .right`. What the source writes out for left and for right is
  written once, with the side as an argument. Following a NULL pointer is `none`, and so is a loop that
  has used up its fuel.
Trusted boundary: human-reviewed model
Main exports: RbTree, rotate, rbLinkNode, rbInsertColor, rbErase, rbFirst, rbLast, rbNext, rbPrev,
  rbInsert, KeyedTree, sortedRun
-/
import Workflow.Lib.LinkedTree
import Workflow.Lib.Loop
import Workflow.Lib.RedBlack
import Mathlib.Data.List.Sort

namespace Workflow.Kernel

open Workflow.Lib

universe u v

variable {α : Type u} [DecidableEq α]

/-- `struct rb_root` with all nodes. -/
structure RbTree (α : Type u) where
  links : TreeLinks α
  color : α → Color

namespace RbTree

/-- `RB_ROOT`; what lies in nodes outside the tree does not matter. -/
def empty : RbTree α where
  links := { root := none, parent := fun _ => none, child := fun _ _ => none }
  color := fun _ => .black

/-- `p && p->rb_color == RB_RED`. -/
def isRed (p : Option α) (t : RbTree α) : Bool :=
  match p with
  | none => false
  | some x => t.color x = .red

def paint (x : α) (c : Color) (t : RbTree α) : RbTree α :=
  { t with color := Function.update t.color x c }

/-- `if (p) p->rb_color = c`. -/
def paintAt (p : Option α) (c : Color) (t : RbTree α) : RbTree α :=
  match p with
  | none => t
  | some x => t.paint x c

end RbTree

/-- `__rb_rotate_left` for the left side, `__rb_rotate_right` for the right one. -/
def rotate (s : Side) (node : α) (t : RbTree α) : Option (RbTree α) :=
  let m := t.links
  match m.child s.other node with
  | none => none
  | some up =>
      let m := m.setChild s.other node (m.child s up)
      let m := m.setParentAt (m.child s up) (some node)
      let m := m.setChild s up (some node)
      let m := m.setParent up (m.parent node)
      let m := m.relink s (m.parent node) node (some up)
      some { t with links := m.setParent node (some up) }

/-! ### Insertion -/

/-- A pointer to a pointer: the one in the root, or a child of a node. -/
def pointerAt (m : TreeLinks α) : Option (α × Side) → Option α
  | none => m.root
  | some (p, s) => m.child s p

/-- `rb_link_node`. -/
def rbLinkNode (node : α) (link : Option (α × Side)) (t : RbTree α) : RbTree α :=
  let m := t.links.setParent node (link.map Prod.fst)
  let m := (m.setChild .left node none).setChild .right node none
  { links := match link with
      | none => m.setRoot (some node)
      | some (p, s) => m.setChild s p (some node)
    color := Function.update t.color node .red }

/-- The body of the loop of `rb_insert_color`, where `parent` is on the side `s` of `gparent`. -/
def insertFix (s : Side) (node parent gparent : α) (t : RbTree α) : Option (α × RbTree α) :=
  let uncle := t.links.child s.other gparent
  if t.isRed uncle then
    some (gparent, ((t.paintAt uncle .black).paint parent .black).paint gparent .red)
  else if t.links.child s.other parent = some node then do
    let t ← rotate s parent t
    -- `parent` and `node` change their names here
    let t ← rotate s.other gparent ((t.paint node .black).paint gparent .red)
    some (parent, t)
  else do
    let t ← rotate s.other gparent ((t.paint parent .black).paint gparent .red)
    some (node, t)

def insertStep (v : α × RbTree α) : Step (α × RbTree α) (Option (RbTree α)) :=
  let (node, t) := v
  match t.links.parent node with
  | none => .done (some t)
  | some parent =>
      if t.color parent = .black then .done (some t)
      else
        match t.links.parent parent with
        | none => .done none
        | some gparent =>
            let s := if t.links.child .left gparent = some parent then Side.left else .right
            match insertFix s node parent gparent t with
            | none => .done none
            | some v => .next v

/-- `rb_insert_color`. -/
def rbInsertColor (fuel : Nat) (node : α) (t : RbTree α) : Option (RbTree α) := do
  let t ← (loop insertStep fuel (node, t)).join
  let root ← t.links.root
  some (t.paint root .black)

/-- The way down to the place of a new node: left where `before` holds. -/
def descendStep (before : α → Bool) (m : TreeLinks α) (link : Option (α × Side)) :
    Step (Option (α × Side)) (Option (α × Side)) :=
  match pointerAt m link with
  | none => .done link
  | some entry => .next (some (entry, if before entry then .left else .right))

/-- What the users of the tree do to insert a node, such as `__poller_tree_insert`. -/
def rbInsert (fuel : Nat) (before : α → Bool) (node : α) (t : RbTree α) : Option (RbTree α) := do
  let link ← loop (descendStep before t.links) fuel none
  rbInsertColor fuel node (rbLinkNode node link t)

/-! ### Deletion -/

/-- If the far child of `other` is not red, the near one is turned up to be the sibling. -/
def eraseNear (s : Side) (parent other : α) (t : RbTree α) : Option (α × RbTree α) :=
  if t.isRed (t.links.child s.other other) then some (other, t)
  else do
    let t ← rotate s.other other
      ((t.paintAt (t.links.child s other) .black).paint other .red)
    let other ← t.links.child s.other parent
    some (other, t)

/-- The body of the loop of `__rb_erase_color` when a child of `other` is red; `node` is on the side
`s` of `parent`. -/
def eraseTurn (s : Side) (parent other : α) (t : RbTree α) : Option (RbTree α) :=
  match eraseNear s parent other t with
  | none => none
  | some (other, t) =>
      let t := (t.paint other (t.color parent)).paint parent .black
      rotate s parent (t.paintAt (t.links.child s.other other) .black)

/-- A red sibling is turned away first. -/
def eraseSibling (s : Side) (parent other : α) (t : RbTree α) : Option (α × RbTree α) :=
  if t.color other = .red then do
    let t ← rotate s parent ((t.paint other .black).paint parent .red)
    let other ← t.links.child s.other parent
    some (other, t)
  else some (other, t)

/-- The variables of `__rb_erase_color`. -/
structure Erasing (α : Type u) where
  node : Option α
  parent : Option α
  tree : RbTree α

/-- The body of the loop of `__rb_erase_color`, where `node` is on the side `s` of `parent`. -/
def eraseFix (s : Side) (parent : α) (t : RbTree α) :
    Step (Erasing α) (Option (Option α × RbTree α)) :=
  match (t.links.child s.other parent).bind fun other => eraseSibling s parent other t with
  | none => .done none
  | some (other, t) =>
      if !t.isRed (t.links.child .left other) && !t.isRed (t.links.child .right other) then
        .next
          { node := some parent
            parent := t.links.parent parent
            tree := t.paint other .red }
      else .done ((eraseTurn s parent other t).map fun t => (t.links.root, t))

def eraseStep (v : Erasing α) : Step (Erasing α) (Option (Option α × RbTree α)) :=
  if v.tree.isRed v.node || v.node = v.tree.links.root then .done (some (v.node, v.tree))
  else
    match v.parent with
    | none => .done none
    | some parent =>
        eraseFix (if v.tree.links.child .left parent = v.node then .left else .right) parent v.tree

/-- `__rb_erase_color`. -/
def rbEraseColor (fuel : Nat) (node parent : Option α) (t : RbTree α) : Option (RbTree α) := do
  let (node, t) ← (loop eraseStep fuel { node := node, parent := parent, tree := t }).join
  some (t.paintAt node .black)

/-- `while (node->rb_left) node = node->rb_left`, and its mirror image. -/
def walkStep (s : Side) (m : TreeLinks α) (node : α) : Step α α :=
  match m.child s node with
  | none => .done node
  | some next => .next next

/-- The only child of `node` takes its place. -/
def unlink (node : α) (child : Option α) (t : RbTree α) : RbTree α :=
  let parent := t.links.parent node
  let m := t.links.setParentAt child parent
  { t with links := m.relink .left parent node child }

/-- `node` takes the place of `old`, which has two children. -/
def takePlace (old node : α) (t : RbTree α) : Option (RbTree α) :=
  let m := t.links.setParent node (t.links.parent old)
  let m := m.setChild .right node (m.child .right old)
  let m := m.setChild .left node (m.child .left old)
  let m := m.relink .left (m.parent old) old (some node)
  match m.child .left old with
  | none => none
  | some left =>
      let m := m.setParent left (some node)
      let m := m.setParentAt (m.child .right old) (some node)
      some { links := m, color := Function.update t.color node (t.color old) }

/-- The end of `rb_erase`. -/
def eraseEnd (fuel : Nat) (child parent : Option α) (color : Color) (t : RbTree α) :
    Option (RbTree α) :=
  if color = .black then rbEraseColor fuel child parent t else some t

/-- `rb_erase`. -/
def rbErase (fuel : Nat) (node : α) (t : RbTree α) : Option (RbTree α) :=
  match t.links.child .left node, t.links.child .right node with
  | none, child => eraseEnd fuel child (t.links.parent node) (t.color node) (unlink node child t)
  | some left, none =>
      eraseEnd fuel (some left) (t.links.parent node) (t.color node) (unlink node (some left) t)
  | some _, some right => do
      let old := node
      let node ← loop (walkStep .left t.links) fuel right
      let child := t.links.child .right node
      let parent := t.links.parent node
      let color := t.color node
      let t := unlink node child t
      let parent := if t.links.parent node = some old then some node else parent
      let t ← takePlace old node t
      eraseEnd fuel child parent color t

/-! ### Traversal -/

/-- The node at the end of one side of the tree. -/
def rbOutermost (s : Side) (fuel : Nat) (t : RbTree α) : Option (Option α) :=
  match t.links.root with
  | none => some none
  | some node => (loop (walkStep s t.links) fuel node).map some

/-- `rb_first`. -/
def rbFirst (fuel : Nat) (t : RbTree α) : Option (Option α) :=
  rbOutermost .left fuel t

/-- `rb_last`. -/
def rbLast (fuel : Nat) (t : RbTree α) : Option (Option α) :=
  rbOutermost .right fuel t

/-- `while (node->rb_parent && node == node->rb_parent->rb_right) node = node->rb_parent`, with what
is returned behind it, and its mirror image. -/
def climbStep (s : Side) (m : TreeLinks α) (node : α) : Step α (Option α) :=
  match m.parent node with
  | none => .done none
  | some parent => if m.child s parent = some node then .next parent else .done (some parent)

/-- The neighbour of a node on one side. -/
def rbNeighbour (s : Side) (fuel : Nat) (node : α) (t : RbTree α) : Option (Option α) :=
  match t.links.child s node with
  | some child => (loop (walkStep s.other t.links) fuel child).map some
  | none => loop (climbStep s t.links) fuel node

/-- `rb_next`. -/
def rbNext (fuel : Nat) (node : α) (t : RbTree α) : Option (Option α) :=
  rbNeighbour .right fuel node t

/-- `rb_prev`. -/
def rbPrev (fuel : Nat) (node : α) (t : RbTree α) : Option (Option α) :=
  rbNeighbour .left fuel node t

/-- `for (p = rb_first(root); p; p = rb_next(p))`, with the nodes it has come to; the other way with
`s = .left`. -/
def visitStep (s : Side) (fuel : Nat) (t : RbTree α) (v : Option α × List α) :
    Step (Option α × List α) (Option (List α)) :=
  match v.1 with
  | none => .done (some v.2)
  | some node =>
      match rbNeighbour s fuel node t with
      | none => .done none
      | some p => .next (p, v.2 ++ [node])

def rbVisit (s : Side) (fuel passes : Nat) (t : RbTree α) : Option (List α) := do
  let p ← rbOutermost s.other fuel t
  (loop (visitStep s fuel t) passes (p, [])).join

/-! ### Runs -/

/-- An operation. A node is inserted with the key that it has from then on: between two insertions
`poller_set_timeout` changes it. -/
inductive RbOp (α : Type u) (K : Type v) where
  | insert (node : α) (key : K)
  | erase (node : α)
deriving Repr

/-- The tree, and the keys that its users keep in the nodes. -/
structure KeyedTree (α : Type u) (K : Type v) where
  key : α → K
  tree : RbTree α

section Runs

variable {K : Type v} [LinearOrder K]

/-- One operation. A new node goes behind those with the same key. -/
def KeyedTree.exec (fuel : Nat) (t : KeyedTree α K) : RbOp α K → Option (KeyedTree α K)
  | .insert node key =>
      let keys := Function.update t.key node key
      (rbInsert fuel (fun entry => decide (keys node < keys entry)) node t.tree).map fun tree =>
        { key := keys, tree := tree }
  | .erase node => (rbErase fuel node t.tree).map fun tree => { t with tree := tree }

def KeyedTree.run (fuel : Nat) : List (RbOp α K) → KeyedTree α K → Option (KeyedTree α K)
  | [], t => some t
  | op :: ops, t => (t.exec fuel op).bind (KeyedTree.run fuel ops)

/-- What the tree is for: a list of nodes, sorted by their keys. `none` if a node is inserted that is
in it, or erased that is not. -/
def sortedExec (l : List (α × K)) : RbOp α K → Option (List (α × K))
  | .insert node key =>
      if node ∈ l.map Prod.fst then none
      else some (l.orderedInsert (fun a b => a.2 < b.2) (node, key))
  | .erase node =>
      if node ∈ l.map Prod.fst then some (l.eraseP fun entry => entry.1 = node) else none

def sortedRun : List (RbOp α K) → List (α × K) → Option (List (α × K))
  | [], l => some l
  | op :: ops, l => (sortedExec l op).bind (sortedRun ops)

end Runs

end Workflow.Kernel
