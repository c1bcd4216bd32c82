/-
The fragment tree of a JFFS2 inode: fs/jffs2/nodelist.c.

A `struct jffs2_node_frag` is a `struct rb_node` followed by its data, so a
fragment and its node in the red-black tree have one address: the tree is
`fragtree`, the data is in `frags`. A `struct jffs2_full_dnode` is known by
a number, the node on flash it stands for; its reference flags outlive the
structure, which is freed when the last fragment goes. An address read that
is not allocated, a `BUG()` or a loop that runs out of fuel is `none`.

Offsets and sizes are `uint32_t`: sums and differences wrap.
-/
import BoardStack.Rbtree.Basic

namespace BoardStack.Jffs2

open Base Rbtree Function

-- == the data

/-- The sum of two `uint32_t`. -/
def add32 (x y : Nat) : Nat :=
  if x + y < 2 ^ 32 then x + y else x + y - 2 ^ 32

/-- The difference of two `uint32_t`. -/
def sub32 (x y : Nat) : Nat := if y ≤ x then x - y else x + 2 ^ 32 - y

def pageCacheShift : Nat := 12

def pageCacheSize : Nat := 2 ^ pageCacheShift

def enomem : Int := -12

/-- `struct jffs2_node_frag`, without the tree node; no `node` for holes. -/
structure NodeFrag where
  node : Option Nat
  size : Nat
  ofs : Nat
deriving DecidableEq, Repr

structure FullDnode where
  ofs : Nat
  size : Nat
  frags : Nat
deriving DecidableEq, Repr

/-- The low bits of `flash_offset` in `struct jffs2_raw_node_ref`. -/
inductive RefFlags
  | unchecked
  | obsolete
  | pristine
  | normal
deriving DecidableEq, Repr

/-- An inode's fragment tree and what it refers to. -/
structure Inode (a : WordSize) where
  fragtree : Rb a
  frags : Word a → Option NodeFrag
  nodes : Nat → Option FullDnode
  raw : Nat → RefFlags

variable {a : WordSize}

-- == memory, marks

/-- Memory the slab allocator hands out, with what was in it. -/
structure Chunk (a : WordSize) where
  addr : Word a
  junk : RbNode a

/-- `new_fragment`: the address, NULL when the allocator has nothing. -/
def newFragment (s : Inode a) (m : Option (Chunk a)) (fn : Option Nat)
    (ofs size : Nat) : Word a × Inode a :=
  match m with
  | none => (0, s)
  | some m =>
    (m.addr, { s with
      fragtree := s.fragtree.write m.addr m.junk
      frags := update s.frags m.addr (some ⟨fn, size, ofs⟩) })

def jffs2FreeNodeFrag (s : Inode a) (p : Word a) : Inode a :=
  { s with
    fragtree := { s.fragtree with
      heap := update s.fragtree.heap p none }
    frags := update s.frags p none }

/-- `if (node) mark_ref_normal(node->raw)`. -/
def markRefNormal (s : Inode a) (node : Option Nat) : Option (Inode a) :=
  match node with
  | none => some s
  | some n => (s.nodes n).map fun _ =>
    { s with raw := update s.raw n .normal }

/-- `if (node) node->frags++`. -/
def shareNode (s : Inode a) (node : Option Nat) : Option (Inode a) :=
  match node with
  | none => some s
  | some n => (s.nodes n).map fun d =>
    { s with
      nodes := update s.nodes n (some { d with frags := add32 d.frags 1 }) }

def Inode.setFrag (s : Inode a) (p : Word a) (f : NodeFrag) : Inode a :=
  { s with frags := update s.frags p (some f) }

def jffs2ObsoleteNodeFrag (s : Inode a) (this : Word a) : Option (Inode a) := do
  let f ← s.frags this
  match f.node with
  | none => some (jffs2FreeNodeFrag s this)
  | some n =>
    let d ← s.nodes n
    if sub32 d.frags 1 = 0 then
      some (jffs2FreeNodeFrag { s with
          raw := update s.raw n .obsolete
          nodes := update s.nodes n none } this)
    else
      let s ← markRefNormal { s with
        nodes := update s.nodes n (some { d with frags := sub32 d.frags 1 }) } (some n)
      some (jffs2FreeNodeFrag s this)

-- == searching

/-- `!prev || frag->ofs > prev->ofs` decides which is the closest smaller. -/
def closest (s : Inode a) (f : NodeFrag) (next prev : Word a) : Option (Word a) :=
  if prev = 0 then some next
  else (s.frags prev).map fun q => if f.ofs > q.ofs then next else prev

/-- The loop of `jffs2_lookup_node_frag`. -/
def lookupLoop (s : Inode a) (offset : Nat) : Nat → Word a → Word a → Option (Word a)
  | 0, _, _ => none
  | fuel + 1, next, prev =>
    if next = 0 then some prev
    else do
      let f ← s.frags next
      let x ← s.fragtree.heap next
      if add32 f.ofs f.size ≤ offset then
        let prev ← closest s f next prev
        lookupLoop s offset fuel x.rbRight prev
      else if f.ofs > offset then lookupLoop s offset fuel x.rbLeft prev
      else some next

def jffs2LookupNodeFrag (fuel : Nat) (s : Inode a) (offset : Nat) : Option (Word a) :=
  lookupLoop s offset fuel s.fragtree.rbNode 0

/-- The loop of `jffs2_fragtree_insert`: the parent and the side of the empty
link. -/
def fragtreeLink (s : Inode a) (ofs : Nat) : Nat → Word a → Option (Word a × Dir)
  | 0, _ => none
  | fuel + 1, base => do
    let b ← s.frags base
    let x ← s.fragtree.heap base
    if ofs > b.ofs then
      if x.rbRight = 0 then some (base, .right)
      else fragtreeLink s ofs fuel x.rbRight
    else if ofs < b.ofs then
      if x.rbLeft = 0 then some (base, .left)
      else fragtreeLink s ofs fuel x.rbLeft
    else none

def Inode.onTree (s : Inode a) (r : Option (Rb a)) : Option (Inode a) :=
  r.map fun tree => { s with fragtree := tree }

/-- `rb_link_node` and `rb_insert_color`. -/
def linkAndColor (fuel : Nat) (s : Inode a) (new parent : Word a)
    (link : Dir) : Option (Inode a) := do
  let s ← s.onTree (rbLinkNode s.fragtree new parent link)
  s.onTree (rbInsertColor fuel s.fragtree new)

/-- `jffs2_fragtree_insert` and the `rb_insert_color` every caller adds. -/
def jffs2FragtreeInsert (fuel : Nat) (s : Inode a) (newfrag base : Word a) : Option (Inode a) := do
  let f ← s.frags newfrag
  let (parent, link) ← fragtreeLink s f.ofs fuel base
  linkAndColor fuel s newfrag parent link

/-- `rb_link_node` on the right of the last fragment, or at the root of an
empty tree, and `rb_insert_color`. -/
def linkLast (fuel : Nat) (s : Inode a) (new this : Word a) : Option (Inode a) :=
  if this = 0 then linkAndColor fuel s new 0 .left
  else linkAndColor fuel s new this .right

-- == adding

def noOverlappingNode (fuel : Nat) (s : Inode a) (newfrag this : Word a)
    (lastend : Nat) (m : Option (Chunk a)) : Option (Int × Inode a) := do
  let f ← s.frags newfrag
  let fn ← f.node
  let d ← s.nodes fn
  if lastend < d.ofs then
    let (holefrag, s) := newFragment s m none lastend (sub32 d.ofs lastend)
    if holefrag = 0 then return (enomem, jffs2FreeNodeFrag s newfrag)
    else
      let s ← linkLast fuel s holefrag this
      let s ← linkLast fuel s newfrag holefrag
      return (0, s)
  else
    let s ← linkLast fuel s newfrag this
    return (0, s)

/-- The new node starts inside the fragment `this` and ends inside it. -/
def splitFrag (fuel : Nat) (s : Inode a) (newfrag this : Word a)
    (f t : NodeFrag) (m : Option (Chunk a)) : Option (Int × Inode a) := do
  let (newfrag2, s) := newFragment s m t.node (add32 f.ofs f.size)
    (sub32 (sub32 (add32 t.ofs t.size) f.ofs) f.size)
  if newfrag2 = 0 then return (enomem, s)
  else
    let s ← shareNode s t.node
    let s := s.setFrag this { t with size := sub32 f.ofs t.ofs }
    let s ← jffs2FragtreeInsert fuel s newfrag this
    let s ← jffs2FragtreeInsert fuel s newfrag2 newfrag
    return (0, s)

/-- The loop that removes the fragments after `newfrag` it covers: the first
one it does not cover. -/
def obsoleteCovered (fuel : Nat) (newfrag : Word a) : Nat → Inode a → Option (Word a × Inode a)
  | 0, _ => none
  | turns + 1, s => do
    let this ← rbNext fuel s.fragtree newfrag
    if this = 0 then some (0, s)
    else
      let f ← s.frags newfrag
      let t ← s.frags this
      if add32 t.ofs t.size ≤ add32 f.ofs f.size then
        let s ← s.onTree (rbErase fuel s.fragtree this)
        let s ← jffs2ObsoleteNodeFrag s this
        obsoleteCovered fuel newfrag turns s
      else some (this, s)

/-- What follows when `newfrag` is in the tree: the fragments after it may be
covered by it. -/
def dealWithOverlap (fuel : Nat) (s : Inode a) (newfrag : Word a) : Option (Int × Inode a) := do
  let (this, s) ← obsoleteCovered fuel newfrag fuel s
  if this = 0 then return (0, s)
  else
    let f ← s.frags newfrag
    let t ← s.frags this
    if add32 f.ofs f.size = t.ofs then return (0, s)
    else
      let s := s.setFrag this { t with
        size := sub32 (add32 t.ofs t.size) (add32 f.ofs f.size)
        ofs := add32 f.ofs f.size }
      let s ← markRefNormal s t.node
      let fn ← f.node
      let s ← markRefNormal s (some fn)
      return (0, s)

/-- `jffs2_add_frag_to_fragtree` for a fragment that overlaps others. -/
def overlappingNode (fuel : Nat) (s : Inode a) (newfrag this : Word a)
    (fn : Nat) (f t : NodeFrag) (m : Option (Chunk a)) :
    Option (Int × Inode a) := do
  if f.ofs > t.ofs then
    let s ← markRefNormal s (some fn)
    let s ← markRefNormal s t.node
    if add32 t.ofs t.size > add32 f.ofs f.size then
      splitFrag fuel s newfrag this f t m
    else
      let s := s.setFrag this { t with size := sub32 f.ofs t.ofs }
      let s ← jffs2FragtreeInsert fuel s newfrag this
      dealWithOverlap fuel s newfrag
  else
    let s ← s.onTree (rbReplaceNode s.fragtree this newfrag)
    if add32 f.ofs f.size ≥ add32 t.ofs t.size then
      let s ← jffs2ObsoleteNodeFrag s this
      dealWithOverlap fuel s newfrag
    else
      let s := s.setFrag this { t with
        ofs := add32 t.ofs f.size, size := sub32 t.size f.size }
      let s ← jffs2FragtreeInsert fuel s this newfrag
      return (0, s)

def jffs2AddFragToFragtree (fuel : Nat) (s : Inode a) (newfrag : Word a)
    (m : Option (Chunk a)) : Option (Int × Inode a) := do
  let f ← s.frags newfrag
  let fn ← f.node
  let d ← s.nodes fn
  let this ← jffs2LookupNodeFrag fuel s d.ofs
  if this = 0 then noOverlappingNode fuel s newfrag this 0 m
  else
    let t ← s.frags this
    let lastend := add32 t.ofs t.size
    if lastend ≤ f.ofs then
      if lastend ≠ 0 ∧ (lastend - 1) >>> pageCacheShift = f.ofs >>> pageCacheShift then
        let s ← markRefNormal s t.node
        let s ← markRefNormal s (some fn)
        noOverlappingNode fuel s newfrag this lastend m
      else noOverlappingNode fuel s newfrag this lastend m
    else overlappingNode fuel s newfrag this fn f t m

/-- The marks of `jffs2_add_full_dnode_to_inode` on a neighbour that shares a
page with the new fragment. -/
def markNeighbour (s : Inode a) (fn : Nat) (neighbour : Word a) : Option (Inode a) := do
  let s ← markRefNormal s (some fn)
  let p ← s.frags neighbour
  markRefNormal s p.node

/-- A fragment that does not start on a page boundary shares its first page
with the one before. -/
def markPrev (fuel : Nat) (s : Inode a) (fn : Nat) (newfrag : Word a)
    (f : NodeFrag) : Option (Inode a) := do
  if f.ofs % pageCacheSize ≠ 0 then
    let prev ← rbPrev fuel s.fragtree newfrag
    markNeighbour s fn prev
  else some s

/-- A fragment that does not end on a page boundary shares its last page with
the one after, if there is one. -/
def markNext (fuel : Nat) (s : Inode a) (fn : Nat) (newfrag : Word a)
    (f : NodeFrag) : Option (Inode a) := do
  if add32 f.ofs f.size % pageCacheSize ≠ 0 then
    let next ← rbNext fuel s.fragtree newfrag
    if next = 0 then some s else markNeighbour s fn next
  else some s

def jffs2AddFullDnodeToInode (fuel : Nat) (s : Inode a) (fn : Nat)
    (m₁ m₂ : Option (Chunk a)) : Option (Int × Inode a) := do
  let d ← s.nodes fn
  if d.size = 0 then return (0, s)
  else
    let (newfrag, s) := newFragment s m₁ (some fn) d.ofs d.size
    if newfrag = 0 then return (enomem, s)
    else
      let s := { s with
        nodes := update s.nodes fn (some { d with frags := 1 }) }
      let (ret, s) ← jffs2AddFragToFragtree fuel s newfrag m₂
      if ret ≠ 0 then return (ret, s)
      else
        let f ← s.frags newfrag
        let s ← markPrev fuel s fn newfrag f
        let s ← markNext fuel s fn newfrag f
        return (0, s)

-- == truncating

/-- The loop of `jffs2_truncate_fragtree`. -/
def truncateLoop (fuel size : Nat) : Nat → Inode a → Word a → Option (Inode a)
  | 0, _, _ => none
  | turns + 1, s, frag =>
    if frag = 0 then some s
    else do
      let f ← s.frags frag
      if f.ofs ≥ size then
        let next ← rbNext fuel s.fragtree frag
        let s ← s.onTree (rbErase fuel s.fragtree frag)
        let s ← jffs2ObsoleteNodeFrag s frag
        truncateLoop fuel size turns s next
      else some s

/-- The fragment a truncation cuts, and the first one it may remove. -/
def truncateFrag (fuel : Nat) (s : Inode a) (frag : Word a) (size : Nat) :
    Option (Word a × Inode a) := do
  if frag = 0 then some (frag, s)
  else
    let f ← s.frags frag
    if f.ofs ≠ size then
      let s := if add32 f.ofs f.size > size
        then s.setFrag frag { f with size := sub32 size f.ofs } else s
      let next ← rbNext fuel s.fragtree frag
      return (next, s)
    else some (frag, s)

/-- `jffs2_truncate_fragtree`: the size there is afterwards. -/
def jffs2TruncateFragtree (fuel : Nat) (s : Inode a) (size : Nat) : Option (Nat × Inode a) := do
  let frag ← jffs2LookupNodeFrag fuel s size
  let (frag, s) ← truncateFrag fuel s frag size
  let s ← truncateLoop fuel size fuel s frag
  if size = 0 then return (0, s)
  else
    let frag ← rbLast fuel s.fragtree
    if frag = 0 then return (0, s)
    else
      let f ← s.frags frag
      if add32 f.ofs f.size < size then
        return (add32 f.ofs f.size, s)
      else match f.node with
        | some n =>
          if f.ofs % pageCacheSize = 0 then
            let _ ← s.nodes n
            return (size, { s with
              raw := update s.raw n .pristine })
          else return (size, s)
        | none => return (size, s)

end BoardStack.Jffs2
