/-
The tree of resources (kernel/resource.c).

A resource is a range of addresses that lies in the range of its parent. The
children of a resource are a singly linked list, ordered by address; the code
walks it with the address of the pointer to the next one in hand and splices in
place. The heap holds a cell for every resource.

The loops are given fuel, and a result is missing if the fuel runs out or a null
pointer is followed. The lock is left out, and so are names and flags.
-/
import BoardStack.Base.LinkedForest

namespace BoardStack.Resource

open Base

@[ext] structure Range where
  start : Nat
  end_ : Nat
deriving DecidableEq

/-- `struct resource`, for every pointer. -/
abbrev Heap (P : Type) := P → Cell P Range

variable {P : Type} [DecidableEq P]

/-- `p->parent = x`. -/
def setParent (h : Heap P) (p : P) (x : Option P) : Heap P :=
  Function.update h p { h p with parent := x }

-- == request

/-- The new resource is put in the place of `*p`, in front of it. -/
def linkIn (h : Heap P) (root new : P) (p : Link P) (tmp : Option P) : Heap P :=
  let h := (Link.sibling new).set h tmp
  let h := p.set h (some new)
  setParent h new (some root)

/-- The loop of `__request_resource`. -/
def requestLoop (h : Heap P) (root new : P) : Nat → Link P → Option (Heap P × Option P)
  | 0, _ => none
  | fuel + 1, p =>
    match p.get h with
    | none => some (linkIn h root new p none, none)
    | some tmp =>
      if (h tmp).attr.start > (h new).attr.end_ then
        some (linkIn h root new p (some tmp), none)
      else if (h tmp).attr.end_ < (h new).attr.start then
        requestLoop h root new fuel (.sibling tmp)
      else some (h, some tmp)

/-- `__request_resource`: the resource in conflict, if there is one. -/
def requestResource (fuel : Nat) (h : Heap P) (root new : P) : Option (Heap P × Option P) :=
  let start := (h new).attr.start
  let end_ := (h new).attr.end_
  if end_ < start then some (h, some root)
  else if start < (h root).attr.start then some (h, some root)
  else if end_ > (h root).attr.end_ then some (h, some root)
  else requestLoop h root new fuel (.child root)

-- == release

def einval : Int := 22

/-- The loop of `__release_resource`. -/
def releaseLoop (h : Heap P) (old : P) : Nat → Link P → Option (Heap P × Int)
  | 0, _ => none
  | fuel + 1, p =>
    match p.get h with
    | none => some (h, -einval)
    | some tmp =>
      if tmp = old then
        some (setParent (p.set h (h tmp).sibling) old none, 0)
      else releaseLoop h old fuel (.sibling tmp)

def releaseResource (fuel : Nat) (h : Heap P) (old : P) : Option (Heap P × Int) :=
  (h old).parent.bind fun parent => releaseLoop h old fuel (.child parent)

-- == insert

/-- Where the first loop of `__insert_resource` stops: at a result, or at the
parent with the first resource in conflict. -/
inductive Descent (P : Type) where
  | done (h : Heap P) (conflict : Option P)
  | stopped (h : Heap P) (parent first : P)

/-- The first loop of `__insert_resource`. -/
def descendLoop (fuel : Nat) (new : P) : Nat → Heap P → P → Option (Descent P)
  | 0, _, _ => none
  | n + 1, h, parent =>
    (requestResource fuel h parent new).bind fun (h, conflict) =>
      match conflict with
      | none => some (.done h none)
      | some first =>
        if first = parent then some (.done h (some first))
        else if (h first).attr.start > (h new).attr.start ∨
            (h first).attr.end_ < (h new).attr.end_ then
          some (.stopped h parent first)
        else if (h first).attr.start = (h new).attr.start ∧
            (h first).attr.end_ = (h new).attr.end_ then
          some (.stopped h parent first)
        else descendLoop fuel new n h first

/-- The loop over the resources to be adopted: one that overlaps in part, or the
last one. -/
def coverLoop (h : Heap P) (new : P) : Nat → P → Option (P ⊕ P)
  | 0, _ => none
  | fuel + 1, next =>
    if (h next).attr.start < (h new).attr.start ∨
        (h next).attr.end_ > (h new).attr.end_ then some (.inl next)
    else match (h next).sibling with
      | none => some (.inr next)
      | some sibling =>
        if (h sibling).attr.start > (h new).attr.end_ then some (.inr next)
        else coverLoop h new fuel sibling

/-- `for (next = first; next; next = next->sibling) next->parent = new`. -/
def adoptLoop (new : P) : Nat → Heap P → Option P → Option (Heap P)
  | _, h, none => some h
  | 0, _, some _ => none
  | fuel + 1, h, some next =>
    let h := setParent h next (some new)
    adoptLoop new fuel h (h next).sibling

/-- `while (next->sibling != first) next = next->sibling`. -/
def findLoop (h : Heap P) (first : P) : Nat → P → Option P
  | 0, _ => none
  | fuel + 1, next =>
    if (h next).sibling = some first then some next
    else (h next).sibling.bind fun next => findLoop h first fuel next

/-- The new resource takes the place of the resources from `first` to `last`,
which become its children. -/
def adopt (fuel : Nat) (h : Heap P) (parent new first last : P) : Option (Heap P) :=
  let h := setParent h new (some parent)
  let h := (Link.sibling new).set h (h last).sibling
  let h := (Link.child new).set h (some first)
  let h := (Link.sibling last).set h none
  (adoptLoop new fuel h (some first)).bind fun h =>
    if (h parent).child = some first then
      some ((Link.child parent).set h (some new))
    else
      ((h parent).child.bind fun next => findLoop h first fuel next).map
        fun next => (Link.sibling next).set h (some new)

/-- `__insert_resource`: the resource in conflict, if there is one. -/
def insertResource (fuel : Nat) (h : Heap P) (parent new : P) : Option (Heap P × Option P) :=
  (descendLoop fuel new fuel h parent).bind fun
    | .done h conflict => some (h, conflict)
    | .stopped h parent first =>
      (coverLoop h new fuel first).bind fun
        | .inl next => some (h, some next)
        | .inr last =>
          (adopt fuel h parent new first last).map fun h => (h, none)

-- == adjust

def ebusy : Int := 16

/-- The loop of `adjust_resource` over the children: do all of them lie in `r`? -/
def coveredLoop (h : Heap P) (r : Range) : Nat → Option P → Option Bool
  | _, none => some true
  | 0, some _ => none
  | fuel + 1, some tmp =>
    if (h tmp).attr.start < r.start ∨ (h tmp).attr.end_ > r.end_ then some false
    else coveredLoop h r fuel (h tmp).sibling

/-- `adjust_resource`, for a `resource_size_t` of `w` bits. -/
def adjustResource {w : Nat} (fuel : Nat) (h : Heap P) (res : P) (start size : BitVec w) :
    Option (Heap P × Int) :=
  (h res).parent.bind fun parent =>
    let r : Range := ⟨start.toNat, (start + size - 1).toNat⟩
    let adjusted := (Function.update h res { h res with attr := r }, 0)
    if r.start < (h parent).attr.start ∨ r.end_ > (h parent).attr.end_ then some (h, -ebusy)
    else (coveredLoop h r fuel (h res).child).bind fun covered =>
      if ¬covered then some (h, -ebusy)
      else if (h res).sibling.any fun sibling => (h sibling).attr.start ≤ r.end_ then
        some (h, -ebusy)
      else if (h parent).child = some res then some adjusted
      else
        ((h parent).child.bind fun tmp => findLoop h res fuel tmp).map fun tmp =>
          if r.start ≤ (h tmp).attr.end_ then (h, -ebusy) else adjusted

-- == invariant

/-- The ranges of the children of a resource: sorted, disjoint and inside. -/
structure Children (r : Range) (l : List Range) : Prop where
  sorted : l.Pairwise fun a b => a.start ≤ b.start
  disjoint : l.Pairwise fun a b => a.end_ < b.start ∨ b.end_ < a.start
  inside : ∀ a ∈ l, a.start ≤ a.end_ ∧ r.start ≤ a.start ∧ a.end_ ≤ r.end_

/-- The heap holds a tree of resources: the links are those of the forest (one
tree, or several side by side), and the children of every node are in order. -/
structure IsTree (h : Heap P) (f : Forest P Range) : Prop where
  holds : HasForest h none none f
  nodup : f.ptrs.Nodup
  children : ∀ x ∈ f.nodes, Children x.attr x.kids.tops

structure IsNew (h : Heap P) (f : Forest P Range) (new : P) : Prop where
  fresh : new ∉ f.ptrs
  childless : (h new).child = none
  le : (h new).attr.start ≤ (h new).attr.end_

def Covers (a b : Range) : Prop := a.start ≤ b.start ∧ b.end_ ≤ a.end_

def Overlap (a b : Range) : Prop := a.start ≤ b.end_ ∧ b.start ≤ a.end_

/-- A node of the tree below `root`, `root` itself included. -/
def Below (root x : Node P Range) : Prop := x = root ∨ x ∈ root.kids.nodes

/-- A node that may get a resource in the range `r` as a child, in an insertion
that starts at `root`: it covers the range, and is not equal to it unless it is
where the insertion starts. -/
def MayHold (root : Node P Range) (r : Range) (x : Node P Range) : Prop :=
  Below root x ∧ Covers x.attr r ∧ (x = root ∨ x.attr ≠ r)

/-- The deepest node that may get the resource: it is below every other. -/
def Deepest (root : Node P Range) (r : Range) (x : Node P Range) : Prop :=
  MayHold root r x ∧ ∀ y, MayHold root r y → Below y x

end BoardStack.Resource
