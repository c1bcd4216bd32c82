/-
The look-up tree of a YAFFS file: fs/yaffs2/yaffs_guts.c.

A tnode is a block of memory that is read in two ways: at level 0 as sixteen
entries of `tnodeWidth` bits packed into 32-bit words, above as eight
pointers. Every tnode is pointed to from one place, so it is modelled by
value: a `Ptr` is a pointer together with the tnode behind it, and a write
through a pointer into the tree is a write along the path to it. Reading a
level 0 tnode's words as pointers is a fault, `none`.

`yaffs_GetTnode` may fail: `grants n` says whether its `n`-th call gets a
tnode. It clears the tnode it returns. `yaffs_FreeTnode` only gives memory
back.
-/
import BoardStack.Base.Run
import Mathlib.Tactic.Ring

namespace BoardStack.Yaffs

open Function

def level0Bits : Nat := 4

def level0Mask : Nat := 0xf

def internalBits : Nat := 3

def internalMask : Nat := 0x7

def maxLevel : Nat := 6

def maxChunkId : Nat := 0xFFFFF

-- == the data

/-- What is used of `yaffs_Device`; `yaffs_GutsInitialise` makes the width
even and the mask its ones. -/
structure Device where
  tnodeWidth : Nat
  chunkGroupBits : Nat
deriving DecidableEq, Repr

def Device.tnodeMask (dev : Device) : BitVec 32 := (1 : BitVec 32) <<< dev.tnodeWidth - 1

/-- The words of a level 0 tnode. -/
abbrev Map := Nat → BitVec 32

/-- A `yaffs_Tnode *` and what it points to. -/
inductive Ptr
  | null
  | level0 (map : Map)
  | internal (slots : Nat → Ptr)

/-- `yaffs_FileStructure`, as far as the tree goes. -/
structure FileStructure where
  topLevel : Nat
  top : Ptr

-- == level 0 tnodes

def putLevel0Tnode (dev : Device) (map : Map) (pos : Nat) (val : BitVec 32) :
    Map :=
  let pos := pos &&& level0Mask
  let val := val >>> dev.chunkGroupBits
  let bitInMap := pos * dev.tnodeWidth
  let wordInMap := bitInMap / 32
  let bitInWord := bitInMap % 32
  let mask := dev.tnodeMask <<< bitInWord
  let map := update map wordInMap ((map wordInMap &&& ~~~mask) ||| (mask &&& (val <<< bitInWord)))
  if 32 - bitInWord < dev.tnodeWidth then
    let bitInWord := 32 - bitInWord
    let wordInMap := wordInMap + 1
    let mask := dev.tnodeMask >>> bitInWord
    update map wordInMap ((map wordInMap &&& ~~~mask) ||| (mask &&& (val >>> bitInWord)))
  else map

def getChunkGroupBase (dev : Device) (map : Map) (pos : Nat) : BitVec 32 :=
  let pos := pos &&& level0Mask
  let bitInMap := pos * dev.tnodeWidth
  let wordInMap := bitInMap / 32
  let bitInWord := bitInMap % 32
  let val := map wordInMap >>> bitInWord
  let val := if 32 - bitInWord < dev.tnodeWidth then
      val ||| (map (wordInMap + 1) <<< (32 - bitInWord))
    else val
  (val &&& dev.tnodeMask) <<< dev.chunkGroupBits

-- == the tree

/-- The loop that counts the levels a chunk id needs, with a bound on its
turns. -/
def tallnessLoop : Nat → Nat → Nat
  | 0, _ => 0
  | turns + 1, i =>
    if i = 0 then 0 else tallnessLoop turns (i >>> internalBits) + 1

/-- `requiredTallness`, of a `__u32`. -/
def requiredTallness (chunkId : Nat) : Nat := tallnessLoop 32 (chunkId >>> level0Bits)

/-- The slot of a tnode at level `l + 1` a chunk id leads to. -/
def slotAt (chunkId l : Nat) : Nat := (chunkId >>> (level0Bits + l * internalBits)) &&& internalMask

/-- The descent of `yaffs_FindLevel0Tnode`. -/
def findLoop (chunkId : Nat) : Nat → Ptr → Option Ptr
  | 0, tn => some tn
  | _ + 1, .null => some .null
  | level + 1, .internal slots =>
    findLoop chunkId level (slots (slotAt chunkId level))
  | _ + 1, .level0 _ => none

def findLevel0Tnode (f : FileStructure) (chunkId : Nat) : Option Ptr :=
  if maxLevel < f.topLevel then some .null
  else if maxChunkId < chunkId then some .null
  else if f.topLevel < requiredTallness chunkId then some .null
  else findLoop chunkId f.topLevel f.top

/-- `yaffs_GetTnode`, for use at a level: cleared memory is sixteen zero
entries or eight NULL pointers. -/
def getTnode (grants : Nat → Bool) (calls level : Nat) : Ptr × Nat :=
  (if grants calls then
      match level with
      | 0 => .level0 fun _ => 0
      | _ + 1 => .internal fun _ => .null
    else .null, calls + 1)

/-- The loop that makes the tree taller, `n` times. -/
def growLoop (grants : Nat → Bool) : Nat → Ptr → Nat → Ptr × Nat
  | 0, top, calls => (top, calls)
  | n + 1, top, calls =>
    match getTnode grants calls 1 with
    | (.internal slots, calls) =>
      growLoop grants n (.internal (update slots 0 top)) calls
    | (_, calls) => growLoop grants n top calls

/-- The descent of `yaffs_AddOrFindLevel0Tnode`: the tnode with what was added
below it, and the level 0 tnode it leads to. -/
def addLoop (grants : Nat → Bool) (chunkId : Nat) (passedTn : Ptr) :
    Nat → Ptr → Nat → Option (Ptr × Ptr × Nat)
  | 0, tn, calls => some (tn, tn, calls)
  | _ + 1, .null, calls => some (.null, .null, calls)
  | _ + 1, .level0 _, _ => none
  | l + 1, .internal slots, calls =>
    let x := slotAt chunkId l
    let r : Ptr × Nat :=
      match l, passedTn, slots x with
      | _ + 1, _, .null => getTnode grants calls l
      | 0, .null, .null => getTnode grants calls 0
      | 0, .null, tn => (tn, calls)
      | 0, passedTn, _ => (passedTn, calls)
      | _ + 1, _, tn => (tn, calls)
    match addLoop grants chunkId passedTn l r.1 r.2 with
    | none => none
    | some (tn, found, calls) =>
      some (.internal (update slots x tn), found, calls)

/-- `memcpy(tn, passedTn, (tnodeWidth * YAFFS_NTNODES_LEVEL0) / 8)`. -/
def copyTnode (dev : Device) : Ptr → Ptr → Option Ptr
  | .level0 map, .level0 passed =>
    some (.level0 fun i => if i < dev.tnodeWidth / 2 then passed i else map i)
  | tn, .null => some tn
  | _, _ => none

/-- `yaffs_AddOrFindLevel0Tnode`: the file, the level 0 tnode and the calls of
`yaffs_GetTnode` so far. -/
def addOrFindLevel0Tnode (dev : Device) (grants : Nat → Bool)
    (f : FileStructure) (chunkId : Nat) (passedTn : Ptr) (calls : Nat) :
    Option (FileStructure × Ptr × Nat) :=
  if maxLevel < f.topLevel then some (f, .null, calls)
  else if maxChunkId < chunkId then some (f, .null, calls)
  else
    let tall := requiredTallness chunkId
    let r := if f.topLevel < tall then
        growLoop grants (tall - f.topLevel) f.top calls
      else (f.top, calls)
    let topLevel := max f.topLevel tall
    match topLevel with
    | 0 =>
      match copyTnode dev r.1 passedTn with
      | none => none
      | some tn => some (⟨0, tn⟩, tn, r.2)
    | l + 1 =>
      match addLoop grants chunkId passedTn (l + 1) r.1 r.2 with
      | none => none
      | some (top, found, calls) => some (⟨l + 1, top⟩, found, calls)

/-- The level 0 tnode a chunk id leads to is changed through a pointer to
it. -/
def setLevel0 (chunkId : Nat) (map : Map) : Nat → Ptr → Ptr
  | 0, _ => .level0 map
  | l + 1, .internal slots =>
    let x := slotAt chunkId l
    .internal (update slots x (setLevel0 chunkId map l (slots x)))
  | _ + 1, tn => tn

-- == the steps

/-- Find or add the level 0 tnode of a chunk id and, if a value is given,
store it there. -/
structure Op where
  chunkId : Nat
  val : Option (BitVec 32)

/-- The file, and how often a tnode was asked for. -/
structure State where
  file : FileStructure
  calls : Nat

/-- One step. Nothing can be stored if no tnode is returned. -/
def step (dev : Device) (grants : Nat → Bool) (s : State) (op : Op) : Option (Unit × State) :=
  match addOrFindLevel0Tnode dev grants s.file op.chunkId .null s.calls with
  | none => none
  | some (f, tn, calls) =>
    match op.val, tn with
    | none, _ => some ((), ⟨f, calls⟩)
    | some val, .level0 map =>
      let map := putLevel0Tnode dev map op.chunkId val
      some ((), ⟨⟨f.topLevel, setLevel0 op.chunkId map f.topLevel f.top⟩, calls⟩)
    | some _, _ => none

/-- An empty file: one cleared level 0 tnode. -/
def init : State := ⟨⟨0, .level0 fun _ => 0⟩, 0⟩

/-- `yaffs_FindLevel0Tnode` and then `yaffs_GetChunkGroupBase`: `some none`
if there is no tnode. -/
def read (dev : Device) (f : FileStructure) (chunkId : Nat) : Option (Option (BitVec 32)) :=
  match findLevel0Tnode f chunkId with
  | none => none
  | some .null => some none
  | some (.level0 map) => some (some (getChunkGroupBase dev map chunkId))
  | some (.internal _) => none

end BoardStack.Yaffs
