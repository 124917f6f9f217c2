import Literate.Foundation.RedBlack
import Mathlib.Logic.Function.Basic
import Mathlib.Order.Defs.LinearOrder
import Mathlib.Order.Lattice

/-!
# AK: the red-black tree

`BaseRedBlackTree` of `AK/RedBlackTree.h`.  The nodes lie in a memory `nodes` that the
tree does not own, a pointer is an `Option` of an address, and an operation gives `none`
where the source dereferences null or fails a `VERIFY`.  Loops take fuel.

Three names in the source resolve to nothing and are read as what stands beside them:
`unclde` in `insert_fixups`, `rotate_right` for `right_child` in `remove`, and `struct
node` for `Node`.
-/

namespace Literate.AK

open Foundation

structure Node (P K : Type) where
  leftChild : Option P := none
  rightChild : Option P := none
  parent : Option P := none
  color : Color := .red
  key : K
  deriving DecidableEq, Repr

def Node.child {P K : Type} (node : Node P K) : Side → Option P
  | .left => node.leftChild
  | .right => node.rightChild

def Node.setChild {P K : Type} (node : Node P K) (child : Option P) : Side → Node P K
  | .left => { node with leftChild := child }
  | .right => { node with rightChild := child }

def Node.setParent {P K : Type} (node : Node P K) (parent : Option P) : Node P K :=
  { node with parent }

def Node.setColor {P K : Type} (node : Node P K) (color : Color) : Node P K :=
  { node with color }

structure BaseRedBlackTree (P K : Type) where
  nodes : P → Node P K
  root : Option P := none
  size : Nat := 0
  minimum : Option P := none

namespace BaseRedBlackTree

variable {P K : Type} [DecidableEq P]

/-! ## Assignments -/

def setNode (tree : BaseRedBlackTree P K) (p : P) (node : Node P K) : BaseRedBlackTree P K :=
  { tree with nodes := Function.update tree.nodes p node }

def setColor (tree : BaseRedBlackTree P K) (p : P) (color : Color) : BaseRedBlackTree P K :=
  tree.setNode p ((tree.nodes p).setColor color)

def setParent (tree : BaseRedBlackTree P K) (p : P) (parent : Option P) : BaseRedBlackTree P K :=
  tree.setNode p ((tree.nodes p).setParent parent)

def setChild (side : Side) (tree : BaseRedBlackTree P K) (p : P) (child : Option P) :
    BaseRedBlackTree P K :=
  tree.setNode p ((tree.nodes p).setChild child side)

/-- `if (child) child -> parent = parent`. -/
def setParentOf (tree : BaseRedBlackTree P K) (child parent : Option P) : BaseRedBlackTree P K :=
  match child with
  | none => tree
  | some child => tree.setParent child parent

/-- Where `old` was the child of `parent`, or the root, `new` is now. -/
def replaceChild (tree : BaseRedBlackTree P K) (parent : Option P) (old : P) (new : Option P) :
    BaseRedBlackTree P K :=
  match parent with
  | none => { tree with root := new }
  | some parent =>
    if (tree.nodes parent).leftChild = some old then tree.setChild .left parent new
    else tree.setChild .right parent new

/-- `node && node -> color == Color::Red`. -/
def isRed (tree : BaseRedBlackTree P K) : Option P → Bool
  | none => false
  | some node => (tree.nodes node).color = .red

/-! ## Rotations -/

/-- `rotate_left` and its mirror image. -/
def rotate (side : Side) (tree : BaseRedBlackTree P K) (subtreeRoot : P) :
    Option (BaseRedBlackTree P K) :=
  match (tree.nodes subtreeRoot).child side.other with
  | none => none
  | some pivot =>
    let parent := (tree.nodes subtreeRoot).parent
    let inner := (tree.nodes pivot).child side
    let tree := tree.setChild side.other subtreeRoot inner
    let tree := tree.setParentOf inner (some subtreeRoot)
    let tree := tree.setChild side pivot (some subtreeRoot)
    let tree := tree.setParent subtreeRoot (some pivot)
    let tree := tree.setParent pivot parent
    some (tree.replaceChild parent subtreeRoot (some pivot))

def rotateLeft (tree : BaseRedBlackTree P K) (subtreeRoot : P) : Option (BaseRedBlackTree P K) :=
  rotate .left tree subtreeRoot

def rotateRight (tree : BaseRedBlackTree P K) (subtreeRoot : P) : Option (BaseRedBlackTree P K) :=
  rotate .right tree subtreeRoot

/-! ## Lookups -/

section

variable [LinearOrder K]

def find (tree : BaseRedBlackTree P K) (key : K) : Nat → Option P → Option (Option P)
  | _, none => some none
  | 0, some _ => none
  | fuel + 1, some node =>
    if (tree.nodes node).key ≠ key then
      if key < (tree.nodes node).key then find tree key fuel (tree.nodes node).leftChild
      else find tree key fuel (tree.nodes node).rightChild
    else some (some node)

/-- The loop of `find_largest_not_above`. -/
def findLargestNotAboveLoop (tree : BaseRedBlackTree P K) (key : K) :
    Nat → Option P → Option P → Option (Option P)
  | _, none, candidate => some candidate
  | 0, some _, _ => none
  | fuel + 1, some node, candidate =>
    if key = (tree.nodes node).key then some (some node)
    else if key < (tree.nodes node).key then
      findLargestNotAboveLoop tree key fuel (tree.nodes node).leftChild candidate
    else findLargestNotAboveLoop tree key fuel (tree.nodes node).rightChild (some node)

def findLargestNotAbove (fuel : Nat) (tree : BaseRedBlackTree P K) (node : Option P) (key : K) :
    Option (Option P) :=
  tree.findLargestNotAboveLoop key fuel node none

/-- The loop of `find_smallest_not_below`. -/
def findSmallestNotBelowLoop (tree : BaseRedBlackTree P K) (key : K) :
    Nat → Option P → Option P → Option (Option P)
  | _, none, candidate => some candidate
  | 0, some _, _ => none
  | fuel + 1, some node, candidate =>
    if (tree.nodes node).key = key then some (some node)
    else if (tree.nodes node).key ≤ key then
      findSmallestNotBelowLoop tree key fuel (tree.nodes node).rightChild candidate
    else findSmallestNotBelowLoop tree key fuel (tree.nodes node).leftChild (some node)

def findSmallestNotBelow (fuel : Nat) (tree : BaseRedBlackTree P K) (node : Option P) (key : K) :
    Option (Option P) :=
  tree.findSmallestNotBelowLoop key fuel node none

end

/-! ## Insertion -/

/-- The body of the loop of `insert_fixups` when the parent is the child of its parent
on the given side. -/
def insertFixupsStep (side : Side) (tree : BaseRedBlackTree P K) (node parent grandParent : P) :
    Option (BaseRedBlackTree P K × P) :=
  match (tree.nodes grandParent).child side.other with
  | some uncle =>
    if (tree.nodes uncle).color = .red then
      let tree := tree.setColor parent .black
      let tree := tree.setColor uncle .black
      let tree := tree.setColor grandParent .red
      some (tree, grandParent)
    else rotateUp tree
  | none => rotateUp tree
where
  /-- The other branch: the node is turned to the outside first. -/
  rotateUp (tree : BaseRedBlackTree P K) : Option (BaseRedBlackTree P K × P) :=
    if (tree.nodes parent).child side.other = some node then
      (rotate side tree parent).bind fun tree => raise tree parent
    else raise tree node
  raise (tree : BaseRedBlackTree P K) (node : P) : Option (BaseRedBlackTree P K × P) :=
    match (tree.nodes node).parent with
    | none => none
    | some parent =>
      let tree := tree.setColor parent .black
      let tree := tree.setColor grandParent .red
      (rotate side.other tree grandParent).map fun tree => (tree, node)

/-- The loop of `insert_fixups`. -/
def insertFixupsLoop : Nat → BaseRedBlackTree P K → P → Option (BaseRedBlackTree P K)
  | 0, _, _ => none
  | fuel + 1, tree, node =>
    match (tree.nodes node).parent with
    | none => some tree
    | some parent =>
      if (tree.nodes parent).color = .red then
        match (tree.nodes parent).parent with
        | none => none
        | some grandParent =>
          let side : Side :=
            if (tree.nodes grandParent).rightChild = some parent then .right else .left
          (insertFixupsStep side tree node parent grandParent).bind fun (tree, node) =>
            insertFixupsLoop fuel tree node
      else some tree

/-- `m_root -> color = Color::Black`. -/
def blackenRoot (tree : BaseRedBlackTree P K) : Option (BaseRedBlackTree P K) :=
  tree.root.map fun root => tree.setColor root .black

def insertFixups (fuel : Nat) (tree : BaseRedBlackTree P K) (node : P) :
    Option (BaseRedBlackTree P K) :=
  if (tree.nodes node).color = .red then (insertFixupsLoop fuel tree node).bind blackenRoot
  else none

section

variable [LinearOrder K]

/-- The first loop of `insert`: the parent of the place that the key belongs to. -/
def insertParent (tree : BaseRedBlackTree P K) (key : K) :
    Nat → Option P → Option P → Option (Option P)
  | _, parent, none => some parent
  | 0, _, some _ => none
  | fuel + 1, _, some temp =>
    if key < (tree.nodes temp).key then
      insertParent tree key fuel (some temp) (tree.nodes temp).leftChild
    else insertParent tree key fuel (some temp) (tree.nodes temp).rightChild

/-- The end of `insert`. -/
def insertFinish (tree : BaseRedBlackTree P K) (node : P) : Option (BaseRedBlackTree P K) :=
  let tree := { tree with size := tree.size + 1 }
  match tree.minimum with
  | none => none
  | some minimum =>
    if (tree.nodes minimum).leftChild = some node then some { tree with minimum := some node }
    else some tree

def insert (fuel : Nat) (tree : BaseRedBlackTree P K) (node : P) : Option (BaseRedBlackTree P K) :=
  (insertParent tree (tree.nodes node).key fuel none tree.root).bind fun parent =>
    match parent with
    | none => some { tree.setColor node .black with root := some node, size := 1, minimum := some node }
    | some parent =>
      let side : Side :=
        if (tree.nodes node).key < (tree.nodes parent).key then .left else .right
      let tree := tree.setChild side parent (some node)
      let tree := tree.setParent node (some parent)
      if (tree.nodes parent).parent ≠ none then
        (insertFixups fuel tree node).bind fun tree => insertFinish tree node
      else insertFinish tree node

end

/-! ## Removal -/

/-- The loop of `successor` over left children. -/
def leftmost (tree : BaseRedBlackTree P K) : Nat → P → Option P
  | 0, _ => none
  | fuel + 1, node =>
    match (tree.nodes node).leftChild with
    | none => some node
    | some child => leftmost tree fuel child

/-- The loop of `successor` over parents. -/
def climb (tree : BaseRedBlackTree P K) : Nat → P → Option P → Option (Option P)
  | 0, _, _ => none
  | _ + 1, _, none => some none
  | fuel + 1, node, some temp =>
    if (tree.nodes temp).rightChild = some node then
      climb tree fuel temp (tree.nodes temp).parent
    else some (some temp)

def successor (fuel : Nat) (tree : BaseRedBlackTree P K) (node : P) : Option (Option P) :=
  match (tree.nodes node).rightChild with
  | some child => (tree.leftmost fuel child).map some
  | none => tree.climb fuel node (tree.nodes node).parent

/-- The loop of `predecessor` over right children, and of `successor` over left ones. -/
def outermost (side : Side) (tree : BaseRedBlackTree P K) : Nat → P → Option P
  | 0, _ => none
  | fuel + 1, node =>
    match (tree.nodes node).child side with
    | none => some node
    | some child => outermost side tree fuel child

/-- The loops over parents. -/
def climbFrom (side : Side) (tree : BaseRedBlackTree P K) : Nat → P → Option P → Option (Option P)
  | 0, _, _ => none
  | _ + 1, _, none => some none
  | fuel + 1, node, some temp =>
    if (tree.nodes temp).child side = some node then
      climbFrom side tree fuel temp (tree.nodes temp).parent
    else some (some temp)

/-- `predecessor` and its mirror image. -/
def neighbour (side : Side) (fuel : Nat) (tree : BaseRedBlackTree P K) (node : P) :
    Option (Option P) :=
  match (tree.nodes node).child side with
  | some child => (outermost side.other tree fuel child).map some
  | none => climbFrom side tree fuel node (tree.nodes node).parent

def predecessor (fuel : Nat) (tree : BaseRedBlackTree P K) (node : P) : Option (Option P) :=
  neighbour .left fuel tree node

def swapParents (tree : BaseRedBlackTree P K) (a b : P) : BaseRedBlackTree P K :=
  let parentA := (tree.nodes a).parent
  let parentB := (tree.nodes b).parent
  (tree.setParent a parentB).setParent b parentA

def swapChildren (side : Side) (tree : BaseRedBlackTree P K) (a b : P) : BaseRedBlackTree P K :=
  let childA := (tree.nodes a).child side
  let childB := (tree.nodes b).child side
  (tree.setChild side a childB).setChild side b childA

def swapColors (tree : BaseRedBlackTree P K) (a b : P) : BaseRedBlackTree P K :=
  let colorA := (tree.nodes a).color
  let colorB := (tree.nodes b).color
  (tree.setColor a colorB).setColor b colorA

/-- What `remove` does first with a node that has two children: it changes places with
its successor. -/
def relink (tree : BaseRedBlackTree P K) (node successorNode : P) : BaseRedBlackTree P K :=
  let neighbourSwap : Bool := (tree.nodes successorNode).parent = some node
  let tree := tree.setParentOf (tree.nodes node).leftChild (some successorNode)
  let tree :=
    if neighbourSwap then tree
    else tree.setParentOf (tree.nodes node).rightChild (some successorNode)
  let tree := tree.replaceChild (tree.nodes node).parent node (some successorNode)
  let tree := tree.setParentOf (tree.nodes successorNode).rightChild (some node)
  let tree :=
    if neighbourSwap then
      let tree := tree.setParent successorNode (tree.nodes node).parent
      tree.setParent node (some successorNode)
    else
      let tree := tree.replaceChild (tree.nodes successorNode).parent successorNode (some node)
      tree.swapParents node successorNode
  let tree := tree.swapChildren .left node successorNode
  let tree :=
    if neighbourSwap then
      let tree := tree.setChild .right node (tree.nodes successorNode).rightChild
      tree.setChild .right successorNode (some node)
    else tree.swapChildren .right node successorNode
  tree.swapColors node successorNode

/-- The sibling after its first check in `remove_fixups`, with a red one rotated away. -/
def removeFixupsSibling (side : Side) (tree : BaseRedBlackTree P K) (parent : P) :
    Option (BaseRedBlackTree P K × P) :=
  match (tree.nodes parent).child side.other with
  | none => none
  | some sibling =>
    if (tree.nodes sibling).color = .red then
      let tree := tree.setColor sibling .black
      let tree := tree.setColor parent .red
      (rotate side tree parent).bind fun tree =>
        ((tree.nodes parent).child side.other).map fun sibling => (tree, sibling)
    else some (tree, sibling)

/-- The case of `remove_fixups` in which the loop ends. -/
def removeFixupsRotate (side : Side) (tree : BaseRedBlackTree P K) (parent sibling : P) :
    Option (BaseRedBlackTree P K) :=
  if tree.isRed ((tree.nodes sibling).child side.other) then turn tree sibling
  else
    match (tree.nodes sibling).child side with
    | none => none
    | some nephew =>
      let tree := tree.setColor nephew .black
      let tree := tree.setColor sibling .red
      (rotate side.other tree sibling).bind fun tree =>
        match (tree.nodes parent).child side.other with
        | none => none
        | some sibling => turn tree sibling
where
  /-- The far nephew is red. -/
  turn (tree : BaseRedBlackTree P K) (sibling : P) : Option (BaseRedBlackTree P K) :=
    let tree := tree.setColor sibling (tree.nodes parent).color
    let tree := tree.setColor parent .black
    match (tree.nodes sibling).child side.other with
    | none => none
    | some nephew => rotate side (tree.setColor nephew .black) parent

/-- The body of the loop of `remove_fixups` for a node on the given side of its parent:
the tree and the next `node`.  `next` is what becomes of `node` when both nephews are
black. -/
def removeFixupsStep (side : Side) (next : Option P → P → Option P)
    (tree : BaseRedBlackTree P K) (node : Option P) (parent : P) :
    Option (BaseRedBlackTree P K × Option P) :=
  (removeFixupsSibling side tree parent).bind fun (tree, sibling) =>
    if !tree.isRed ((tree.nodes sibling).child .left) &&
        !tree.isRed ((tree.nodes sibling).child .right) then
      some (tree.setColor sibling .red, next node parent)
    else (removeFixupsRotate side tree parent sibling).map fun tree => (tree, tree.root)

/-- The branch for a left child: the statement is `node -> parent;`. -/
def removeFixupsLeft (tree : BaseRedBlackTree P K) (node : Option P) (parent : P) :
    Option (BaseRedBlackTree P K × Option P) :=
  removeFixupsStep .left (fun node _ => node) tree node parent

/-- The branch for a right child: the statement is `node = parent;`. -/
def removeFixupsRight (tree : BaseRedBlackTree P K) (node : Option P) (parent : P) :
    Option (BaseRedBlackTree P K × Option P) :=
  removeFixupsStep .right (fun _ parent => some parent) tree node parent

/-- The loop of `remove_fixups`. -/
def removeFixupsLoop : Nat → BaseRedBlackTree P K → Option P → Option P →
    Option (BaseRedBlackTree P K × Option P)
  | 0, _, _, _ => none
  | fuel + 1, tree, node, parent =>
    if node ≠ tree.root ∧ tree.isRed node = false then
      parent.bind fun parent =>
        (if (tree.nodes parent).leftChild = node then removeFixupsLeft tree node parent
          else removeFixupsRight tree node parent).bind fun (tree, node) =>
            node.bind fun n => removeFixupsLoop fuel tree node (tree.nodes n).parent
    else some (tree, node)

def removeFixups (fuel : Nat) (tree : BaseRedBlackTree P K) (node parent : Option P) :
    Option (BaseRedBlackTree P K) :=
  (removeFixupsLoop fuel tree node parent).bind fun (tree, node) =>
    node.map fun node => tree.setColor node .black

/-- The second half of `remove`: the node has at most one child. -/
def unlink (fuel : Nat) (tree : BaseRedBlackTree P K) (node : P) : Option (BaseRedBlackTree P K) :=
  let child := (tree.nodes node).leftChild <|> (tree.nodes node).rightChild
  let tree := tree.setParentOf child (tree.nodes node).parent
  let tree := tree.replaceChild (tree.nodes node).parent node child
  if (tree.nodes node).color ≠ .red then removeFixups fuel tree child (tree.nodes node).parent
  else some tree

/-- `m_minimum` moves on when it is the node to be removed. -/
def passMinimum (fuel : Nat) (tree : BaseRedBlackTree P K) (node : P) :
    Option (BaseRedBlackTree P K) :=
  if tree.minimum = some node then
    (tree.successor fuel node).map fun minimum => { tree with minimum }
  else some tree

def passChildren (fuel : Nat) (tree : BaseRedBlackTree P K) (node : P) :
    Option (BaseRedBlackTree P K) :=
  if (tree.nodes node).leftChild ≠ none ∧ (tree.nodes node).rightChild ≠ none then
    (tree.successor fuel node).bind fun successorNode =>
      successorNode.map fun successorNode => tree.relink node successorNode
  else some tree

def remove (fuel : Nat) (tree : BaseRedBlackTree P K) (node : P) : Option (BaseRedBlackTree P K) :=
  if tree.size = 1 then some { tree with root := none, minimum := none, size := 0 }
  else
    (tree.passMinimum fuel node).bind fun tree =>
      (tree.passChildren fuel node).bind fun tree =>
        (tree.unlink fuel node).map fun tree => { tree with size := tree.size - 1 }

end BaseRedBlackTree

/-! ## Iterators -/

structure RedBlackTreeIterator (P : Type) where
  node : Option P := none
  prev : Option P := none
  deriving DecidableEq, Repr

namespace RedBlackTreeIterator

variable {P K : Type} [DecidableEq P]

/-- `operator++`. -/
def increment (fuel : Nat) (tree : BaseRedBlackTree P K) (it : RedBlackTreeIterator P) :
    Option (RedBlackTreeIterator P) :=
  match it.node with
  | none => some it
  | some node => (tree.successor fuel node).map fun next => { node := next, prev := some node }

/-- `operator--`. -/
def decrement (fuel : Nat) (tree : BaseRedBlackTree P K) (it : RedBlackTreeIterator P) :
    Option (RedBlackTreeIterator P) :=
  match it.prev with
  | none => some it
  | some prev => (tree.predecessor fuel prev).map fun next => { node := some prev, prev := next }

def begin (tree : BaseRedBlackTree P K) : RedBlackTreeIterator P := { node := tree.minimum }

/-- The nodes that a loop from an iterator to `end` meets, `steps` of them at most. -/
def visited (fuel : Nat) (tree : BaseRedBlackTree P K) :
    (steps : Nat) → RedBlackTreeIterator P → Option (List P)
  | _, ⟨none, _⟩ => some []
  | 0, ⟨some _, _⟩ => none
  | steps + 1, ⟨some node, prev⟩ =>
    (increment fuel tree ⟨some node, prev⟩).bind fun it =>
      (visited fuel tree steps it).map (node :: ·)

end RedBlackTreeIterator

end Literate.AK
