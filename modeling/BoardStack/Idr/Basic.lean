/-
The id-to-pointer allocator of lib/idr.c: `idr_pre_get`, `idr_get_new` with
`sub_alloc` and `idr_get_empty_slot`, `idr_remove`, `idr_find`,
`idr_replace`.

# The tree

Every `struct idr_layer` is owned by exactly one slot — `idp->top` or one
entry of its parent's `ary` — so a layer is modelled by value: a `Slot` is
what a `struct idr_layer *` of the source can hold, the layer it points at
included. At distance zero from the leaf the entries are the user's
`void *`, stored through a cast; `Slot.user` is that cast, and a stored NULL
is the same `Slot.null` as an empty entry, as in the source.

The walk down the tree keeps the ancestors in `pa[]`. Here `pa` is the list
of ancestors, innermost first, each with the index of the entry the walk
took; an empty list is the terminating NULL of `pa`. Storing through an
ancestor pointer is `plug`.

# Faults

`none` is a fault: a `BUG_ON`, a user pointer followed as a layer, or a loop
that runs out of its fuel. Both word sizes of idr.h are covered: `a` fixes
`BITS_PER_LONG` and with it `IDR_BITS`.
-/
import BoardStack.Base.Bits

namespace BoardStack.Idr

open Base Function

-- == constants

def idrBits : WordSize → Nat
  | .w32 => 5
  | .w64 => 6

def idrSize (a : WordSize) : Nat := 1 <<< idrBits a

/-- `IDR_MASK`, as an `int`. -/
def idrMask (a : WordSize) : BitVec 32 := BitVec.ofNat 32 (2 ^ idrBits a - 1)

/-- `MAX_ID_SHIFT`: `sizeof(int) * 8 - 1`. -/
def maxIdShift : Nat := 31

/-- `MAX_ID_BIT`, an `unsigned int`. -/
def maxIdBit : BitVec 32 := 1#32 <<< maxIdShift

def maxIdMask : BitVec 32 := maxIdBit - 1#32

def maxLevel (a : WordSize) : Nat := (maxIdShift + idrBits a - 1) / idrBits a

def idrFreeMax (a : WordSize) : Nat := maxLevel a + maxLevel a

def EAGAIN : Int := 11
def EINVAL : Int := 22
def ENOENT : Int := 2
def ENOSPC : Int := 28

-- == the data model

/-- What a `struct idr_layer *` can hold: NULL, a user pointer stored through
a cast, or a layer. -/
inductive Slot (a : WordSize) (α : Type) where
  | null
  | user (v : α)
  | layer (bitmap : BitVec a.bits) (ary : Nat → Slot a α) (count : Int)
      (layer : Nat)

structure IdrLayer (a : WordSize) (α : Type) where
  bitmap : BitVec a.bits
  ary : Nat → Slot a α
  count : Int
  layer : Nat

/-- `struct idr`. The free list is chained through `ary[0]` in the source;
here it is the list of the layers on the chain. -/
structure IdrHandle (a : WordSize) (α : Type) where
  top : Slot a α
  idFree : List (IdrLayer a α)
  layers : Nat
  idFreeCnt : Nat

variable {a : WordSize} {α : Type}

def IdrLayer.ptr (p : IdrLayer a α) : Slot a α := .layer p.bitmap p.ary p.count p.layer

/-- The cast of a user's `void *` to a slot. -/
def Slot.ofUser : Option α → Slot a α
  | none => .null
  | some v => .user v

/-- The cast of a slot back to a `void *`. -/
def Slot.toUser : Slot a α → Option (Option α)
  | .null => some none
  | .user v => some (some v)
  | .layer .. => none

/-- Store `q` in entry `n` of the layer. -/
def IdrLayer.setAry (p : IdrLayer a α) (n : Nat) (q : Slot a α) : IdrLayer a α :=
  { p with ary := update p.ary n q }

/-- The all-zero layer `kmem_cache_zalloc` returns. -/
def zeroLayer : IdrLayer a α := ⟨0, fun _ => .null, 0, 0⟩

def idrInit : IdrHandle a α := ⟨.null, [], 0, 0⟩

/-- One entry of `pa[]`: an ancestor and the entry the walk took in it. -/
abbrev Frame (a : WordSize) (α : Type) := IdrLayer a α × Nat

/-- Write a layer back through the ancestors it was reached by, giving the
top of the tree. -/
def plug (p : IdrLayer a α) : List (Frame a α) → IdrLayer a α
  | [] => p
  | (q, m) :: pa => plug (q.setAry m p.ptr) pa

/-- `(id >> sh) & IDR_MASK`, the index a layer's `ary` is entered at. -/
def slotOf (a : WordSize) (id : BitVec 32) (sh : Nat) : Nat :=
  (id.sshiftRight sh &&& idrMask a).toNat

-- == the free list

def getFromFreeList (idp : IdrHandle a α) : Option (IdrLayer a α) × IdrHandle a α :=
  match idp.idFree with
  | [] => (none, idp)
  | p :: rest =>
    (some (p.setAry 0 .null), { idp with idFree := rest, idFreeCnt := idp.idFreeCnt - 1 })

/-- `move_to_free_list`; the link through `ary[0]` is the list's own. -/
def moveToFreeList (idp : IdrHandle a α) (p : IdrLayer a α) : IdrHandle a α :=
  { idp with idFree := p :: idp.idFree, idFreeCnt := idp.idFreeCnt + 1 }

/-- `idr_pre_get`, when the slab can hand out `avail` more layers. -/
def idrPreGet : Nat → IdrHandle a α → Int × IdrHandle a α
  | avail, idp =>
    if idp.idFreeCnt < idrFreeMax a then
      match avail with
      | 0 => (0, idp)
      | avail + 1 => idrPreGet avail (moveToFreeList idp zeroLayer)
    else (1, idp)

-- == allocation

/-- The ways `sub_alloc` returns, each with the state it leaves: an id with
the leaf and its ancestors, `IDR_NEED_TO_GROW` with the new `*starting_id`,
`IDR_NOMORE_SPACE`, or -1 for a missing layer. -/
inductive SubAlloc (a : WordSize) (α : Type) where
  | found (id : BitVec 32) (leaf : IdrLayer a α) (pa : List (Frame a α))
      (idp : IdrHandle a α)
  | needToGrow (id : BitVec 32) (idp : IdrHandle a α)
  | nomoreSpace (idp : IdrHandle a α)
  | noLayer (idp : IdrHandle a α)

/-- The `while (1)` of `sub_alloc`, entered at layer `p` at distance `l` from
the leaf with the ancestors `pa`. -/
def subAllocLoop : Nat → IdrHandle a α → IdrLayer a α → Nat → BitVec 32 →
    List (Frame a α) → Option (SubAlloc a α)
  | 0, _, _, _, _, _ => none
  | fuel + 1, idp, p, l, id, pa =>
    let n := slotOf a id (idrBits a * l)
    let m := findNextBit (~~~ p.bitmap) (idrSize a) n
    if m = idrSize a then
      -- no space available, go back to the previous layer
      let l := l + 1
      let oid := id
      let id := (id ||| ((1#32 <<< (idrBits a * l)) - 1#32)) + 1#32
      match pa with
      | [] => some (.needToGrow id { idp with top := p.ptr })
      | (q, mq) :: pa =>
        let q := q.setAry mq p.ptr
        let sh := idrBits a * (l + 1)
        if oid.sshiftRight sh = id.sshiftRight sh then
          subAllocLoop fuel idp q l id pa
        else
          subAllocLoop fuel idp (plug q pa) (idp.layers - 1) id []
    else
      let sh := idrBits a * l
      let id :=
        if m ≠ n then
          (id.sshiftRight sh ^^^ BitVec.ofNat 32 n ^^^ BitVec.ofNat 32 m) <<< sh
        else id
      if maxIdBit ≤ id ∨ id.slt 0 then
        some (.nomoreSpace { idp with top := (plug p pa).ptr })
      else
        match l with
        | 0 => some (.found id p pa { idp with top := (plug p pa).ptr })
        | l + 1 =>
          match p.ary m with
          | .null =>
            match getFromFreeList idp with
            | (none, idp) =>
              some (.noLayer { idp with top := (plug p pa).ptr })
            | (some new, idp) =>
              let new := { new with layer := l }
              let p := { p.setAry m new.ptr with count := p.count + 1 }
              subAllocLoop fuel idp new l id ((p, m) :: pa)
          | .layer bm ary c ly =>
            subAllocLoop fuel idp ⟨bm, ary, c, ly⟩ l id ((p, m) :: pa)
          | .user _ => none

/-- Iterations `sub_alloc` can take: a walk down, a walk up and a restart for
each layer it can carry into. -/
def subAllocFuel (a : WordSize) : Nat := maxLevel a * (2 * maxLevel a + 2)

/-- `sub_alloc`; `idp->top` is not NULL when it is called. -/
def subAlloc (idp : IdrHandle a α) (startingId : BitVec 32) : Option (SubAlloc a α) :=
  match idp.top with
  | .layer bm ary c ly =>
    subAllocLoop (subAllocFuel a) idp ⟨bm, ary, c, ly⟩ (idp.layers - 1) startingId []
  | _ => none

/-- Undo a half-built growth: return the `k` layers stacked above the old top
to the free list, cleared. -/
def tearDown : Nat → IdrLayer a α → IdrHandle a α → Option (IdrHandle a α)
  | 0, _, idp => some idp
  | k + 1, new, idp =>
    match new.ary 0 with
    | .layer bm ary c ly =>
      tearDown k ⟨bm, ary, c, ly⟩ (moveToFreeList idp
          { new.setAry 0 .null with bitmap := 0, count := 0 })
    | _ => none

/-- The loop of `idr_get_empty_slot` that adds layers above `p` until `id`
fits. `k` counts the layers stacked so far; `.inl` is the allocation failure
after which the growth is torn down. -/
def growLoop : Nat → Nat → IdrHandle a α → IdrLayer a α → Nat → BitVec 32 →
    Option (IdrHandle a α ⊕ (IdrHandle a α × IdrLayer a α × Nat))
  | 0, _, idp, p, layers, _ => some (.inr (idp, p, layers))
  | fuel + 1, k, idp, p, layers, id =>
    if layers < maxLevel a - 1 ∧ (1#32 <<< (layers * idrBits a)).sle id then
      let layers := layers + 1
      if p.count = 0 then
        -- the tree is empty: it grows by moving the top node upwards
        growLoop fuel k idp { p with layer := p.layer + 1 } layers id
      else
        match getFromFreeList idp with
        | (none, idp) => (tearDown k p idp).map .inl
        | (some new, idp) =>
          let new := { new.setAry 0 p.ptr with
            count := 1, layer := layers - 1 }
          let new :=
            if p.bitmap = BitVec.allOnes a.bits then
              { new with bitmap := setBit 0 new.bitmap }
            else new
          growLoop fuel (k + 1) idp new layers id
    else some (.inr (idp, p, layers))

/-- How `idr_get_empty_slot` ends: an id with its leaf and ancestors, or the
negative return code. -/
inductive EmptySlot (a : WordSize) (α : Type) where
  | found (id : BitVec 32) (leaf : IdrLayer a α) (pa : List (Frame a α))
      (idp : IdrHandle a α)
  | failed (rc : Int) (idp : IdrHandle a α)

/-- `idr_get_empty_slot`, `fuel` bounding the `goto build_up`s. -/
def idrGetEmptySlot : Nat → IdrHandle a α → BitVec 32 → Option (EmptySlot a α)
  | 0, _, _ => none
  | fuel + 1, idp, id =>
    let start : Option (IdrLayer a α) × Nat × IdrHandle a α :=
      match idp.top with
      | .layer bm ary c ly => (some ⟨bm, ary, c, ly⟩, idp.layers, idp)
      | _ =>
        match getFromFreeList idp with
        | (p, idp) => (p.map fun p => { p with layer := 0 }, 1, idp)
    match start with
    | (none, _, idp) => some (.failed (-1) idp)
    | (some p, layers, idp) =>
      match growLoop (maxLevel a) 0 idp p layers id with
      | none => none
      | some (.inl idp) => some (.failed (-1) idp)
      | some (.inr (idp, p, layers)) =>
        match subAlloc { idp with top := p.ptr, layers := layers } id with
        | none => none
        | some (.needToGrow id idp) => idrGetEmptySlot fuel idp id
        | some (.found id leaf pa idp) => some (.found id leaf pa idp)
        | some (.nomoreSpace idp) => some (.failed (-3) idp)
        | some (.noLayer idp) => some (.failed (-1) idp)

/-- `idr_mark_full`: set the slot's bit, and the bit above for as long as a
layer has become full. Gives the top of the tree. -/
def idrMarkFull (p : IdrLayer a α) (id : BitVec 32) : List (Frame a α) → IdrLayer a α
  | [] => { p with bitmap := setBit (slotOf a id 0) p.bitmap }
  | (q, m) :: pa =>
    let p := { p with bitmap := setBit (slotOf a id 0) p.bitmap }
    let q := q.setAry m p.ptr
    if p.bitmap = BitVec.allOnes a.bits then
      idrMarkFull q (id.sshiftRight (idrBits a)) pa
    else plug q pa

/-- The `goto build_up`s `idr_get_empty_slot` is given. The start id moves
through at most four values before it repeats, so a call that outlasts this
many rounds does not return. -/
def buildUpFuel : Nat := 8

/-- `idr_get_new_above_int`: the id, or the negative code. -/
def idrGetNewAboveInt (idp : IdrHandle a α) (ptr : Option α)
    (startingId : BitVec 32) : Option (Int × IdrHandle a α) :=
  match idrGetEmptySlot buildUpFuel idp startingId with
  | none => none
  | some (.failed rc idp) => some (rc, idp)
  | some (.found id leaf pa idp) =>
    let leaf := { leaf.setAry (slotOf a id 0) (.ofUser ptr) with
      count := leaf.count + 1 }
    some (id.toInt, { idp with top := (idrMarkFull leaf id pa).ptr })

def idrRcToErrno (rc : Int) : Int := if rc = -1 then -EAGAIN else -ENOSPC

/-- `idr_get_new_above`: the return value and, when it is 0, `*id`. -/
def idrGetNewAbove (idp : IdrHandle a α) (ptr : Option α) (startingId : BitVec 32) :
    Option (Int × Option Int × IdrHandle a α) :=
  match idrGetNewAboveInt idp ptr startingId with
  | none => none
  | some (rv, idp) =>
    if rv < 0 then some (idrRcToErrno rv, none, idp)
    else some (0, some rv, idp)

def idrGetNew (idp : IdrHandle a α) (ptr : Option α) : Option (Int × Option Int × IdrHandle a α) :=
  match idrGetNewAboveInt idp ptr 0 with
  | none => none
  | some (rv, idp) =>
    if rv < 0 then some (idrRcToErrno rv, none, idp)
    else some (0, some rv, idp)

-- == removal

/-- `sub_remove` below the layer at distance `l`, the `paa` walk back up
being the return path: the slot's new content, whether it became NULL (so
that the layer above loses an entry), and whether the id was allocated. -/
def subRemove (id : BitVec 32) : Nat → Slot a α → Option (Slot a α × Bool × Bool)
  | _, .null => some (.null, false, false)
  | _, .user _ => none
  | 0, .layer bm ary c ly =>
    let n := slotOf a id 0
    if bm.getLsbD n then
      let bm := clearBit n bm
      let ary := update ary n .null
      if c - 1 = 0 then some (.null, true, true)
      else some (.layer bm ary (c - 1) ly, false, true)
    else some (.layer bm ary c ly, false, false)
  | l + 1, .layer bm ary c ly =>
    let n := slotOf a id (idrBits a * (l + 1))
    let bm := clearBit n bm
    match subRemove id l (ary n) with
    | none => none
    | some (q, emptied, found) =>
      let ary := update ary n q
      if emptied then
        if c - 1 = 0 then some (.null, true, found)
        else some (.layer bm ary (c - 1) ly, false, found)
      else some (.layer bm ary c ly, false, found)

/-- The loop of `idr_remove` that gives layers back to the slab. -/
def trimFreeList : Nat → IdrHandle a α → IdrHandle a α
  | 0, idp => idp
  | fuel + 1, idp =>
    if idrFreeMax a ≤ idp.idFreeCnt then
      trimFreeList fuel (getFromFreeList idp).2
    else idp

/-- The step of `idr_remove` that drops a top layer whose only child is its
leftmost one. -/
def shrinkTop (idp : IdrHandle a α) : IdrHandle a α :=
  match idp.top with
  | .layer _ ary c _ =>
    if c = 1 ∧ 1 < idp.layers then
      match ary 0 with
      | .null => idp
      | p => { idp with top := p, layers := idp.layers - 1 }
    else idp
  | _ => idp

def idrRemove (idp : IdrHandle a α) (id : BitVec 32) : Option (IdrHandle a α) :=
  let id := id &&& maxIdMask
  match subRemove id (idp.layers - 1) idp.top with
  | none => none
  | some (top, emptied, _) =>
    let idp := shrinkTop { idp with
      top := top, layers := if emptied then 0 else idp.layers }
    some (trimFreeList idp.idFreeCnt idp)

-- == lookup, replace

/-- The loop of `idr_find` at distance `l`, its `BUG_ON` included. -/
def findLoop (id : BitVec 32) : Nat → Slot a α → Option (Slot a α)
  | 0, p => some p
  | _ + 1, .null => some .null
  | _ + 1, .user _ => none
  | l + 1, .layer _ ary _ ly =>
    if l ≠ ly then none
    else findLoop id l (ary (slotOf a id (idrBits a * l)))

def idrFind (idp : IdrHandle a α) (id : BitVec 32) : Option (Option α) :=
  match idp.top with
  | .null => some none
  | .user _ => none
  | .layer bm ary c ly =>
    let n := (ly + 1) * idrBits a
    let id := id &&& maxIdMask
    if (1#32 <<< n).sle id then some none
    else if n = 0 then none
    else
      match findLoop id (ly + 1) (.layer bm ary c ly) with
      | none => none
      | some p => p.toUser

/-- The walk of `idr_replace` at distance `l`: the return value and the slot
with the pointer exchanged. -/
def replaceLoop (id : BitVec 32) (ptr : Option α) : Nat → Slot a α →
    Option (Except Int (Option α) × Slot a α)
  | _, .null => some (.error (-ENOENT), .null)
  | _, .user _ => none
  | 0, .layer bm ary c ly =>
    let n := slotOf a id 0
    if bm.getLsbD n then
      match (ary n).toUser with
      | none => none
      | some old =>
        some (.ok old, .layer bm (update ary n (.ofUser ptr)) c ly)
    else some (.error (-ENOENT), .layer bm ary c ly)
  | l + 1, .layer bm ary c ly =>
    let n := slotOf a id (idrBits a * (l + 1))
    match replaceLoop id ptr l (ary n) with
    | none => none
    | some (r, q) => some (r, .layer bm (update ary n q) c ly)

/-- `idr_replace`: the old pointer, or the error of the `ERR_PTR`. -/
def idrReplace (idp : IdrHandle a α) (ptr : Option α) (id : BitVec 32) :
    Option (Except Int (Option α) × IdrHandle a α) :=
  match idp.top with
  | .null => some (.error (-EINVAL), idp)
  | .user _ => none
  | .layer bm ary c ly =>
    let n := (ly + 1) * idrBits a
    let id := id &&& maxIdMask
    if (1#32 <<< n).sle id then some (.error (-EINVAL), idp)
    else
      match replaceLoop id ptr ly (.layer bm ary c ly) with
      | none => none
      | some (r, top) => some (r, { idp with top := top })

end BoardStack.Idr
