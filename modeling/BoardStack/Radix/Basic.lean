/-
The radix tree of lib/radix-tree.c: `radix_tree_insert` with
`radix_tree_extend`, `radix_tree_lookup`, `radix_tree_tag_set`,
`radix_tree_tag_clear`, and `radix_tree_delete` with `radix_tree_shrink`.

# The tree

Every node is owned by one slot, so a node is modelled by value: a `Slot` is
what a `void *` of `slots[]` can hold, with the node it points at. The low
bit that marks `root->rnode` as pointing at a node is the `indirect` field of
`Rnode`. Loops that walk down and then write back through the recorded path
are recursions whose return is the walk back up.

# Memory

`Mem` is the node slab: nodes that were freed, as
`radix_tree_node_rcu_free` left them, and the number of new ones the page
allocator can still give, zeroed by the constructor. A freed node is handed
out again as it is, so that the comment "must only free zeroed nodes into the
slab" is a fact to be proved and not an assumption.

# Faults

`none` is a fault: a `BUG_ON`, an item followed as a node, a read past
`height_to_maxindex`, or a loop that runs out of fuel. Items are values of
`α`: pointers that are neither NULL nor marked indirect.
-/
import BoardStack.Base.Bits

namespace BoardStack.Radix

open Base Function

-- == configuration

/-- `BITS_PER_LONG` and `RADIX_TREE_MAP_SHIFT`, which is 4, 6 or, outside the
kernel, 3. -/
structure Config where
  word : WordSize
  mapShift : Nat
  mapShift_pos : 0 < mapShift
  mapShift_lt : mapShift < word.bits

def mapSize (k : Config) : Nat := 2 ^ k.mapShift

/-- An `unsigned long`. -/
abbrev Index (k : Config) := BitVec k.word.bits

def mapMask (k : Config) : Index k := BitVec.ofNat _ (2 ^ k.mapShift - 1)

def tagLongs (k : Config) : Nat := (mapSize k + k.word.bits - 1) / k.word.bits

/-- The bits of one row of `tags`. -/
def tagBits (k : Config) : Nat := tagLongs k * k.word.bits

def maxPath (k : Config) : Nat := (k.word.bits + k.mapShift - 1) / k.mapShift

abbrev maxTags : Nat := 2

def gfpBitsShift : Nat := 21

def EEXIST : Int := 17
def ENOMEM : Int := 12

-- == data model

/-- What a slot can hold: NULL, an item, or a node. -/
inductive Slot (k : Config) (α : Type) where
  | null
  | item (v : α)
  | node (height count : Nat) (slots : Nat → Slot k α)
      (tags : Fin maxTags → BitVec (tagBits k))

structure Node (k : Config) (α : Type) where
  height : Nat
  count : Nat
  slots : Nat → Slot k α
  tags : Fin maxTags → BitVec (tagBits k)

/-- `root->rnode`: the pointer without its low bit, and the low bit. -/
structure Rnode (k : Config) (α : Type) where
  ptr : Slot k α
  indirect : Bool

structure Root (k : Config) (α : Type) where
  height : Nat
  gfpMask : BitVec 32
  rnode : Rnode k α

/-- The node slab. -/
structure Mem (k : Config) (α : Type) where
  slab : List (Node k α)
  avail : Nat

variable {k : Config} {α : Type}

def Node.ptr (n : Node k α) : Slot k α := .node n.height n.count n.slots n.tags

def Slot.isSet : Slot k α → Bool
  | .null => false
  | _ => true

def Slot.toItem : Slot k α → Option (Option α)
  | .null => some none
  | .item v => some (some v)
  | .node .. => none

/-- `root->rnode == NULL`. -/
def Rnode.isNull (r : Rnode k α) : Bool := !r.ptr.isSet && !r.indirect

/-- The tree below `root->rnode` was changed in place. -/
def Root.withPtr (root : Root k α) (p : Slot k α) : Root k α :=
  { root with rnode := { root.rnode with ptr := p } }

def initRadixTree (mask : BitVec 32) : Root k α := ⟨0, mask, ⟨.null, false⟩⟩

-- == tags

def tagsAt (tags : Fin maxTags → BitVec (tagBits k)) (offset : Nat) (tag : Fin maxTags) : Bool :=
  (tags tag).getLsbD offset

def tagSet (tags : Fin maxTags → BitVec (tagBits k)) (tag : Fin maxTags)
    (offset : Nat) : Fin maxTags → BitVec (tagBits k) :=
  update tags tag (setBit offset (tags tag))

def tagClear (tags : Fin maxTags → BitVec (tagBits k)) (tag : Fin maxTags)
    (offset : Nat) : Fin maxTags → BitVec (tagBits k) :=
  update tags tag (clearBit offset (tags tag))

def anyTagSet (tags : Fin maxTags → BitVec (tagBits k)) (tag : Fin maxTags) : Bool := tags tag != 0

def rootTagSet (root : Root k α) (tag : Fin maxTags) : Root k α :=
  { root with gfpMask := root.gfpMask ||| 1#32 <<< (tag.val + gfpBitsShift) }

def rootTagClear (root : Root k α) (tag : Fin maxTags) : Root k α :=
  { root with
    gfpMask := root.gfpMask &&& ~~~ (1#32 <<< (tag.val + gfpBitsShift)) }

def rootTagClearAll (root : Root k α) : Root k α :=
  { root with
    gfpMask := root.gfpMask &&& BitVec.ofNat 32 (2 ^ gfpBitsShift - 1) }

def rootTagGet (root : Root k α) (tag : Fin maxTags) : Bool :=
  root.gfpMask &&& 1#32 <<< (tag.val + gfpBitsShift) != 0

-- == the slab

/-- `radix_tree_node_alloc`: a freed node as it was left, or a new one as the
constructor makes it. -/
def radixTreeNodeAlloc (mem : Mem k α) : Option (Node k α × Mem k α) :=
  match mem.slab, mem.avail with
  | n :: slab, _ => some (n, { mem with slab := slab })
  | [], avail + 1 =>
    some (⟨0, 0, fun _ => .null, fun _ => 0⟩, { mem with avail := avail })
  | [], 0 => none

/-- `radix_tree_node_free`, and `radix_tree_node_rcu_free` when the grace
period is over. -/
def radixTreeNodeFree (n : Node k α) (mem : Mem k α) : Mem k α :=
  { mem with slab :=
      { n with
        count := 0
        slots := update n.slots 0 .null
        tags := tagClear (tagClear n.tags 0 0) 1 0 } :: mem.slab }

-- == indices

def maxindex (k : Config) (height : Nat) : Index k :=
  let width := height * k.mapShift
  let shift : Int := (k.word.bits : Int) - width
  if shift < 0 then BitVec.allOnes _
  else if (k.word.bits : Int) ≤ shift then 0
  else BitVec.allOnes _ >>> shift.toNat

/-- `radix_tree_maxindex`, a read of `height_to_maxindex`. -/
def radixTreeMaxindex (k : Config) (height : Nat) : Option (Index k) :=
  if height ≤ maxPath k then some (maxindex k height) else none

/-- `(index >> shift) & RADIX_TREE_MAP_MASK` in a node at height `h + 1`. -/
def offsetAt (index : Index k) (h : Nat) : Nat := (index >>> (h * k.mapShift) &&& mapMask k).toNat

-- == lookup

/-- The loop of `radix_tree_lookup` in a node whose height is given. -/
def lookupLoop (index : Index k) : Nat → Slot k α → Option (Slot k α)
  | h + 1, .node _ _ slots _ =>
    match slots (offsetAt index h) with
    | .null => some .null
    | p => if h = 0 then some p else lookupLoop index h p
  | _, _ => none

def radixTreeLookup (root : Root k α) (index : Index k) : Option (Option α) :=
  if root.rnode.isNull then some none
  else if !root.rnode.indirect then
    if 0#_ < index then some none else root.rnode.ptr.toItem
  else
    match root.rnode.ptr with
    | .node height count slots tags =>
      match radixTreeMaxindex k height with
      | none => none
      | some max =>
        if max < index then some none
        else (lookupLoop index height (.node height count slots tags)).bind Slot.toItem
    | _ => none

-- == insertion

/-- The loop of `radix_tree_extend` that finds the height. -/
def extendHeight (index : Index k) : Nat → Nat → Option Nat
  | 0, _ => none
  | fuel + 1, height =>
    match radixTreeMaxindex k height with
    | none => none
    | some max =>
      if max < index then extendHeight index fuel (height + 1)
      else some height

/-- `radix_tree_extend` propagates the root's tag bits into the first slot of
a new top node. -/
def topTags (own : Fin maxTags → Bool) (tags : Fin maxTags → BitVec (tagBits k)) :
    Fin maxTags → BitVec (tagBits k) :=
  let tags := if own 0 then tagSet tags 0 0 else tags
  if own 1 then tagSet tags 1 0 else tags

/-- The loop of `radix_tree_extend` that puts nodes on top. -/
def extendLoop (height : Nat) : Nat → Root k α → Mem k α → Option (Int × Root k α × Mem k α)
  | 0, _, _ => none
  | fuel + 1, root, mem =>
    match radixTreeNodeAlloc mem with
    | none => some (-ENOMEM, root, mem)
    | some (n, mem) =>
      let slots := update n.slots 0 root.rnode.ptr
      let tags := topTags (rootTagGet root) n.tags
      let newheight := root.height + 1
      let root := { root with
        rnode := ⟨.node newheight 1 slots tags, true⟩
        height := newheight }
      if root.height < height then extendLoop height fuel root mem
      else some (0, root, mem)

def radixTreeExtend (root : Root k α) (index : Index k) (mem : Mem k α) :
    Option (Int × Root k α × Mem k α) :=
  match extendHeight index (maxPath k + 1) (root.height + 1) with
  | none => none
  | some height =>
    if root.rnode.isNull then some (0, { root with height := height }, mem)
    else extendLoop height (maxPath k) root mem

/-- The node the walk of `radix_tree_insert` goes on in at a height: the one
it found or, in an empty slot, a new one; `some none` when there is no memory
for it. -/
def nodeOrAlloc (height : Nat) (mem : Mem k α) : Slot k α → Option (Option (Node k α × Mem k α))
  | .null =>
    some ((radixTreeNodeAlloc mem).map fun (n, mem) =>
      ({ n with height := height }, mem))
  | .item _ => none
  | .node height count slots tags =>
    some (some (⟨height, count, slots, tags⟩, mem))

/-- The walk of `radix_tree_insert` below a slot with the tag bits `own`: the
return value and the slot's new content. A slot that was empty is counted in
its node once something is linked into it. -/
def insertLoop (index : Index k) (item : α) :
    Nat → (Fin maxTags → Bool) → Slot k α → Mem k α → Option (Int × Slot k α × Mem k α)
  | 0, own, .null, mem =>
    if own 0 || own 1 then none else some (0, .item item, mem)
  | 0, _, p, mem => some (-EEXIST, p, mem)
  | h + 1, _, p, mem =>
    match nodeOrAlloc (h + 1) mem p with
    | none => none
    | some none => some (-ENOMEM, p, mem)
    | some (some (n, mem)) =>
      let offset := offsetAt index h
      match insertLoop index item h (tagsAt n.tags offset) (n.slots offset) mem with
      | none => none
      | some (error, q, mem) =>
        let count :=
          if !(n.slots offset).isSet && q.isSet then n.count + 1
          else n.count
        some (error, .node n.height count (update n.slots offset q) n.tags, mem)

/-- `radix_tree_insert` once the tree is high enough. -/
def insertHigh (root : Root k α) (index : Index k) (item : α)
    (mem : Mem k α) : Option (Int × Root k α × Mem k α) :=
  match insertLoop index item root.height (rootTagGet root) root.rnode.ptr mem with
  | none => none
  | some (error, p, mem) =>
    some (error, { root with rnode := ⟨p, p.isSet && root.height != 0⟩ }, mem)

def radixTreeInsert (root : Root k α) (index : Index k) (item : α)
    (mem : Mem k α) : Option (Int × Root k α × Mem k α) :=
  match radixTreeMaxindex k root.height with
  | none => none
  | some max =>
    if max < index then
      match radixTreeExtend root index mem with
      | none => none
      | some (error, root, mem) =>
        if error ≠ 0 then some (error, root, mem)
        else insertHigh root index item mem
    else insertHigh root index item mem

-- == tags

/-- The walk of `radix_tree_tag_set`: the slot's new content and the pointer
the walk ends at. -/
def tagSetLoop (index : Index k) (tag : Fin maxTags) : Nat → Slot k α → Option (Slot k α × Slot k α)
  | 0, p => some (p, p)
  | h + 1, .node height count slots tags =>
    let offset := offsetAt index h
    let tags :=
      if tagsAt tags offset tag then tags else tagSet tags tag offset
    if !(slots offset).isSet then none
    else
      match tagSetLoop index tag h (slots offset) with
      | none => none
      | some (q, slot) =>
        some (.node height count (update slots offset q) tags, slot)
  | _ + 1, _ => none

def radixTreeTagSet (root : Root k α) (index : Index k)
    (tag : Fin maxTags) : Option (Option α × Root k α) :=
  match radixTreeMaxindex k root.height with
  | none => none
  | some max =>
    if max < index then none
    else
      match tagSetLoop index tag root.height root.rnode.ptr with
      | none => none
      | some (p, slot) =>
        let root := root.withPtr p
        let root :=
          if slot.isSet && !rootTagGet root tag then rootTagSet root tag
          else root
        slot.toItem.map fun v => (v, root)

/-- `radix_tree_tag_clear` below a slot, the climb back up being the return
path: the slot's new content, the pointer the walk ended at, and whether the
climb goes on above. -/
def tagClearLoop (index : Index k) (tag : Fin maxTags) :
    Nat → Slot k α → Option (Slot k α × Slot k α × Bool)
  | 0, p => some (p, p, p.isSet)
  | _ + 1, .null => some (.null, .null, false)
  | _ + 1, .item _ => none
  | h + 1, .node height count slots tags =>
    let offset := offsetAt index h
    match tagClearLoop index tag h (slots offset) with
    | none => none
    | some (q, slot, climb) =>
      let slots := update slots offset q
      if climb && tagsAt tags offset tag then
        let tags := tagClear tags tag offset
        some (.node height count slots tags, slot, !anyTagSet tags tag)
      else some (.node height count slots tags, slot, false)

def radixTreeTagClear (root : Root k α) (index : Index k)
    (tag : Fin maxTags) : Option (Option α × Root k α) :=
  match radixTreeMaxindex k root.height with
  | none => none
  | some max =>
    if max < index then some (none, root)
    else
      match tagClearLoop index tag root.height root.rnode.ptr with
      | none => none
      | some (p, slot, climb) =>
        let root := root.withPtr p
        let root :=
          if climb && rootTagGet root tag then rootTagClear root tag
          else root
        slot.toItem.map fun v => (v, root)

def radixTreeTagged (root : Root k α) (tag : Fin maxTags) : Bool := rootTagGet root tag

-- == deletion

def radixTreeShrink : Nat → Root k α → Mem k α → Option (Root k α × Mem k α)
  | 0, root, mem => if root.height = 0 then some (root, mem) else none
  | fuel + 1, root, mem =>
    if root.height = 0 then some (root, mem)
    else if !root.rnode.indirect then none
    else
      match root.rnode.ptr with
      | .node height count slots tags =>
        if count ≠ 1 then some (root, mem)
        else if !(slots 0).isSet then some (root, mem)
        else
          let mem := radixTreeNodeFree ⟨height, count, slots, tags⟩ mem
          radixTreeShrink fuel { root with
            rnode := ⟨slots 0, decide (1 < root.height)⟩
            height := root.height - 1 } mem
      | _ => none

/-- The walk down of `radix_tree_delete`: the pointer it ends at and the tag
bits of the slot that holds it. -/
def deleteWalk (index : Index k) : Nat → (Fin maxTags → Bool) → Slot k α →
    Option (Slot k α × (Fin maxTags → Bool))
  | 0, own, p => some (p, own)
  | _ + 1, own, .null => some (.null, own)
  | _ + 1, _, .item _ => none
  | h + 1, _, .node _ _ slots tags =>
    deleteWalk index h (tagsAt tags (offsetAt index h)) (slots (offsetAt index h))

/-- The loop of `radix_tree_delete` that empties the path: the slot's new
content, NULL when its node was freed, and whether the loop stopped in this
very node. -/
def deleteLoop (index : Index k) : Nat → Slot k α → Mem k α → Option (Slot k α × Bool × Mem k α)
  | 0, _, mem => some (.null, false, mem)
  | h + 1, .node height count slots tags, mem =>
    let offset := offsetAt index h
    match deleteLoop index h (slots offset) mem with
    | none => none
    | some (q, _, mem) =>
      let slots := update slots offset q
      if q.isSet then some (.node height count slots tags, false, mem)
      else if count - 1 ≠ 0 then
        some (.node height (count - 1) slots tags, true, mem)
      else
        some (.null, false, radixTreeNodeFree ⟨height, count - 1, slots, tags⟩ mem)
  | _ + 1, _, _ => none

/-- Clear the tags of the item to be deleted, those its slot carries. -/
def deleteTags (root : Root k α) (index : Index k) (own : Fin maxTags → Bool) : Option (Root k α) :=
  let clear (root : Root k α) (tag : Fin maxTags) : Option (Root k α) :=
    if own tag then (radixTreeTagClear root index tag).map Prod.snd
    else some root
  (clear root 0).bind fun root => clear root 1

/-- The end of `radix_tree_delete`: an emptied tree loses its tags and its
height, a root node that lost an entry may be shrunk. -/
def deleteFinish (root : Root k α) (p : Slot k α) (here : Bool)
    (mem : Mem k α) : Option (Root k α × Mem k α) :=
  if !p.isSet then
    some ({ rootTagClearAll root with
      height := 0, rnode := ⟨.null, false⟩ }, mem)
  else if here then radixTreeShrink root.height (root.withPtr p) mem
  else some (root.withPtr p, mem)

def radixTreeDelete (root : Root k α) (index : Index k) (mem : Mem k α) :
    Option (Option α × Root k α × Mem k α) :=
  match radixTreeMaxindex k root.height with
  | none => none
  | some max =>
    if max < index then some (none, root, mem)
    else if root.height = 0 then
      root.rnode.ptr.toItem.map fun v =>
        (v, { rootTagClearAll root with rnode := ⟨.null, false⟩ }, mem)
    else
      match deleteWalk index root.height (rootTagGet root) root.rnode.ptr with
      | none => none
      | some (slot, own) =>
        if !slot.isSet then some (none, root, mem)
        else
          match deleteTags root index own with
          | none => none
          | some root =>
            match deleteLoop index root.height root.rnode.ptr mem with
            | none => none
            | some (p, here, mem) =>
              match deleteFinish root p here mem with
              | none => none
              | some (root, mem) =>
                slot.toItem.map fun v => (v, root, mem)

end BoardStack.Radix
