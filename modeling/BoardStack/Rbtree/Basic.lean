/-
The red-black tree of lib/rbtree.c and include/linux/rbtree.h.

The code works in place on nodes linked by left, right and parent pointers,
and so does the model: a heap of `RbNode`s at word addresses and the root
pointer of the `struct rb_root`. The parent pointer and the colour share one
word, `rb_parent_color`, taken apart by masks as in the source. A function
that writes takes the state and returns the new one.

The functions of the source come in mirrored pairs, and the two halves of the
rebalancing loops mirror each other. They are one definition with the side as
a parameter (`Dir`); the members keep their names.

`none` is a fault: an access through NULL or through a pointer to nothing, or
a loop that runs out of fuel.
-/
import BoardStack.Base.Bits
import BoardStack.Base.LinkedTree

namespace BoardStack.Rbtree

open Base

-- == data model

/-- An address, or any `unsigned long`. -/
abbrev Word (a : WordSize) := BitVec a.bits

structure RbNode (a : WordSize) where
  rbParentColor : Word a
  rbRight : Word a
  rbLeft : Word a

/-- The memory of the nodes, and `rb_root.rb_node`. -/
structure Rb (a : WordSize) where
  heap : Word a → Option (RbNode a)
  rbNode : Word a

variable {a : WordSize}

def rbRed : Word a := 0

def rbBlack : Word a := 1

def rbParent (n : RbNode a) : Word a := n.rbParentColor &&& ~~~ 3#_

def rbColor (n : RbNode a) : Word a := n.rbParentColor &&& 1#_

def rbIsRed (n : RbNode a) : Bool := rbColor n == 0

def rbIsBlack (n : RbNode a) : Bool := rbColor n != 0

/-- `rb_left` or `rb_right`. -/
def RbNode.child (d : Dir) (n : RbNode a) : Word a :=
  match d with
  | .left => n.rbLeft
  | .right => n.rbRight

/-- Store in `rb_left` or `rb_right`. -/
def RbNode.setChild (d : Dir) (x : Word a) (n : RbNode a) : RbNode a :=
  match d with
  | .left => { n with rbLeft := x }
  | .right => { n with rbRight := x }

-- == writes

def Rb.write (s : Rb a) (p : Word a) (n : RbNode a) : Rb a :=
  { s with heap := Function.update s.heap p (some n) }

def Rb.modify (s : Rb a) (p : Word a) (f : RbNode a → RbNode a) : Option (Rb a) :=
  (s.heap p).map fun n => s.write p (f n)

def rbSetRed (s : Rb a) (p : Word a) : Option (Rb a) :=
  s.modify p fun n =>
    { n with rbParentColor := n.rbParentColor &&& ~~~ 1#_ }

def rbSetBlack (s : Rb a) (p : Word a) : Option (Rb a) :=
  s.modify p fun n => { n with rbParentColor := n.rbParentColor ||| 1#_ }

def rbSetParent (s : Rb a) (rb p : Word a) : Option (Rb a) :=
  s.modify rb fun n =>
    { n with rbParentColor := (n.rbParentColor &&& 3#_) ||| p }

def rbSetColor (s : Rb a) (rb color : Word a) : Option (Rb a) :=
  s.modify rb fun n =>
    { n with rbParentColor := (n.rbParentColor &&& ~~~ 1#_) ||| color }

/-- `if (rb) rb_set_parent(rb, p)`. -/
def rbSetParentIf (s : Rb a) (rb p : Word a) : Option (Rb a) :=
  if rb = 0 then some s else rbSetParent s rb p

/-- The link of `parent` that holds `old`, or the root's when there is no
parent, is made to point at `new`; the side `d` of the parent is the one
compared. -/
def changeChild (d : Dir) (s : Rb a) (parent old new : Word a) : Option (Rb a) :=
  if parent = 0 then some { s with rbNode := new }
  else s.modify parent fun n =>
    if n.child d = old then n.setChild d new else n.setChild d.opp new

/-- `rb_link_node`, the link being a side of `parent` or, when there is no
parent, the root's. -/
def rbLinkNode (s : Rb a) (node parent : Word a) (link : Dir) : Option (Rb a) := do
  let s ← s.modify node fun _ => ⟨parent, 0, 0⟩
  if parent = 0 then some { s with rbNode := node }
  else s.modify parent fun n => n.setChild link node

-- == rotations

/-- A rotation towards the side `d`. -/
def rbRotate (d : Dir) (s : Rb a) (node : Word a) : Option (Rb a) := do
  let n ← s.heap node
  let right := n.child d.opp
  let parent := rbParent n
  let r ← s.heap right
  let s ← s.modify node (·.setChild d.opp (r.child d))
  let s ← rbSetParentIf s (r.child d) node
  let s ← s.modify right (·.setChild d node)
  let s ← rbSetParent s right parent
  let s ← changeChild d s parent node right
  rbSetParent s node right

def rbRotateLeft (s : Rb a) (node : Word a) : Option (Rb a) := rbRotate .left s node

def rbRotateRight (s : Rb a) (node : Word a) : Option (Rb a) := rbRotate .right s node

-- == insertion

/-- `p && rb_is_red(p)`. -/
def isRedNode (s : Rb a) (p : Word a) : Option Bool :=
  if p = 0 then some false else (s.heap p).map rbIsRed

/-- `!p || rb_is_black(p)`. -/
def isBlackOrNull (s : Rb a) (p : Word a) : Option Bool :=
  if p = 0 then some true else (s.heap p).map rbIsBlack

/-- The body of the loop of `rb_insert_color`, for a red `parent` that is the
child of `gparent` on side `d`: the node to go on with. -/
def insertColorStep (d : Dir) (s : Rb a) (node parent gparent : Word a) :
    Option (Word a × Rb a) := do
  let g ← s.heap gparent
  let uncle := g.child d.opp
  if ← isRedNode s uncle then
    let s ← rbSetBlack s uncle
    let s ← rbSetBlack s parent
    let s ← rbSetRed s gparent
    return (gparent, s)
  else
    let p ← s.heap parent
    if p.child d.opp = node then
      let s ← rbRotate d s parent
      let s ← rbSetBlack s node
      let s ← rbSetRed s gparent
      let s ← rbRotate d.opp s gparent
      return (parent, s)
    else
      let s ← rbSetBlack s parent
      let s ← rbSetRed s gparent
      let s ← rbRotate d.opp s gparent
      return (node, s)

/-- The loop of `rb_insert_color`. -/
def insertColorLoop : Nat → Rb a → Word a → Option (Rb a)
  | 0, _, _ => none
  | fuel + 1, s, node => do
    let n ← s.heap node
    let parent := rbParent n
    if ← isRedNode s parent then
      let p ← s.heap parent
      let gparent := rbParent p
      let g ← s.heap gparent
      let d := if parent = g.rbLeft then Dir.left else Dir.right
      let (node, s) ← insertColorStep d s node parent gparent
      insertColorLoop fuel s node
    else some s

def rbInsertColor (fuel : Nat) (s : Rb a) (node : Word a) : Option (Rb a) := do
  let s ← insertColorLoop fuel s node
  rbSetBlack s s.rbNode

-- == erasure

/-- The end of the loop of `__rb_erase_color`: the child of `other` on the far
side is red, and one rotation makes up for the black node. -/
def eraseColorRotate (d : Dir) (s : Rb a) (parent other : Word a) : Option (Rb a) := do
  let p ← s.heap parent
  let s ← rbSetColor s other (rbColor p)
  let s ← rbSetBlack s parent
  let o ← s.heap other
  let s ← rbSetBlack s (o.child d.opp)
  rbRotate d s parent

/-- The part of the loop of `__rb_erase_color` for a black sibling `other`,
`node` being the child of `parent` on side `d`: the node and parent to go on
with, or `none` for the `break`. -/
def eraseColorBlack (d : Dir) (s : Rb a) (parent other : Word a) :
    Option (Option (Word a × Word a) × Rb a) := do
  let o ← s.heap other
  let lblack ← isBlackOrNull s o.rbLeft
  let rblack ← isBlackOrNull s o.rbRight
  if lblack && rblack then
    let s ← rbSetRed s other
    let p ← s.heap parent
    return (some (parent, rbParent p), s)
  else if ← isBlackOrNull s (o.child d.opp) then
    let s ← rbSetBlack s (o.child d)
    let s ← rbSetRed s other
    let s ← rbRotate d.opp s other
    let p ← s.heap parent
    let s ← eraseColorRotate d s parent (p.child d.opp)
    return (none, s)
  else
    let s ← eraseColorRotate d s parent other
    return (none, s)

/-- The body of the loop of `__rb_erase_color`. -/
def eraseColorStep (d : Dir) (s : Rb a) (parent : Word a) :
    Option (Option (Word a × Word a) × Rb a) := do
  let p ← s.heap parent
  let other := p.child d.opp
  let o ← s.heap other
  if rbIsRed o then
    let s ← rbSetBlack s other
    let s ← rbSetRed s parent
    let s ← rbRotate d s parent
    let p ← s.heap parent
    eraseColorBlack d s parent (p.child d.opp)
  else eraseColorBlack d s parent other

def rbEraseColor : Nat → Rb a → Word a → Word a → Option (Rb a)
  | 0, _, _, _ => none
  | fuel + 1, s, node, parent => do
    if (← isBlackOrNull s node) && node != s.rbNode then
      let p ← s.heap parent
      let d := if p.rbLeft = node then Dir.left else Dir.right
      match ← eraseColorStep d s parent with
      | (some (node, parent), s) => rbEraseColor fuel s node parent
      | (none, s) =>
        if s.rbNode = 0 then some s else rbSetBlack s s.rbNode
    else if node = 0 then some s else rbSetBlack s node

def rbFar (d : Dir) (s : Rb a) : Nat → Word a → Option (Word a)
  | 0, _ => none
  | fuel + 1, n => do
    let x ← s.heap n
    if x.child d = 0 then some n else rbFar d s fuel (x.child d)

/-- The end of `rb_erase`: rebalance when a black node went away. -/
def eraseFinish (fuel : Nat) (s : Rb a) (color child parent : Word a) : Option (Rb a) :=
  if color = rbBlack then rbEraseColor fuel s child parent else some s

/-- `rb_erase` of a node with at most one child. -/
def eraseSingle (fuel : Nat) (s : Rb a) (node child : Word a) : Option (Rb a) := do
  let n ← s.heap node
  let parent := rbParent n
  let color := rbColor n
  let s ← rbSetParentIf s child parent
  let s ← changeChild .left s parent node child
  eraseFinish fuel s color child parent

/-- The successor `node` of `old` gives its place to `child`: the parent of
`child` from then on, `node` itself when it was the child of `old`. -/
def unlinkSuccessor (s : Rb a) (old node parent child : Word a) : Option (Word a × Rb a) := do
  if parent = old then
    let s ← s.modify parent (·.setChild .right child)
    return (node, s)
  else
    let s ← s.modify parent (·.setChild .left child)
    return (parent, s)

/-- `node` takes the place of `old`, which has a left child. -/
def takePlace (s : Rb a) (old node : Word a) : Option (Rb a) := do
  let o ← s.heap old
  let s ← s.modify node fun _ => ⟨o.rbParentColor, o.rbRight, o.rbLeft⟩
  let s ← changeChild .left s (rbParent o) old node
  let s ← rbSetParent s o.rbLeft node
  rbSetParentIf s o.rbRight node

/-- `rb_erase` of a node with two children: its successor takes its place. -/
def eraseDouble (fuel : Nat) (s : Rb a) (old : Word a) : Option (Rb a) := do
  let o ← s.heap old
  let node ← rbFar .left s fuel o.rbRight
  let n ← s.heap node
  let child := n.rbRight
  let parent := rbParent n
  let color := rbColor n
  let s ← rbSetParentIf s child parent
  let (parent, s) ← unlinkSuccessor s old node parent child
  let s ← takePlace s old node
  eraseFinish fuel s color child parent

def rbErase (fuel : Nat) (s : Rb a) (node : Word a) : Option (Rb a) := do
  let n ← s.heap node
  if n.rbLeft = 0 then eraseSingle fuel s node n.rbRight
  else if n.rbRight = 0 then eraseSingle fuel s node n.rbLeft
  else eraseDouble fuel s node

def rbReplaceNode (s : Rb a) (victim new : Word a) : Option (Rb a) := do
  let v ← s.heap victim
  let s ← changeChild .left s (rbParent v) victim new
  let s ← rbSetParentIf s v.rbLeft new
  let s ← rbSetParentIf s v.rbRight new
  let v ← s.heap victim
  s.modify new fun _ => v

-- == walks

/-- The first node from the side `d` on. -/
def rbEnd (d : Dir) (fuel : Nat) (s : Rb a) : Option (Word a) :=
  if s.rbNode = 0 then some 0 else rbFar d s fuel s.rbNode

def rbFirst (fuel : Nat) (s : Rb a) : Option (Word a) := rbEnd .left fuel s

def rbLast (fuel : Nat) (s : Rb a) : Option (Word a) := rbEnd .right fuel s

/-- Up while the node is the child on side `d`. -/
def rbClimb (d : Dir) (s : Rb a) : Nat → Word a → Option (Word a)
  | 0, _ => none
  | fuel + 1, node => do
    let n ← s.heap node
    let parent := rbParent n
    if parent = 0 then some 0
    else
      let p ← s.heap parent
      if node = p.child d then rbClimb d s fuel parent else some parent

/-- The neighbour of a node on side `d`. -/
def rbNeighbour (d : Dir) (fuel : Nat) (s : Rb a) (node : Word a) : Option (Word a) := do
  let n ← s.heap node
  if rbParent n = node then some 0
  else if n.child d ≠ 0 then rbFar d.opp s fuel (n.child d)
  else rbClimb d s fuel node

def rbNext (fuel : Nat) (s : Rb a) (node : Word a) : Option (Word a) :=
  rbNeighbour .right fuel s node

def rbPrev (fuel : Nat) (s : Rb a) (node : Word a) : Option (Word a) :=
  rbNeighbour .left fuel s node

end BoardStack.Rbtree
