/-
The SLOB allocator: the free list of one page (mm/slob.c).

A page is an array of units of two bytes. The free blocks of a page are linked
through their own memory: a block of one unit holds the negated offset of the
next block, a larger one its size in the first unit and the offset in the second.
The list ends at the page boundary, which is the offset 2048.

Pointers are unit offsets from the start of the page, so that the next page
starts at 2048; memory is given for every offset. Pages are 4096 bytes, an
index has 16 bits (`slobidx_t`), `int` and `size_t` have 32. The lists that
pages are kept in are left out but for the flag that says whether the page is in
one (`PageSlobFree`), and so is the lock. The loops are given as many turns as a
page has units.
-/
import BoardStack.Base.CInt

namespace BoardStack.Slob

open Base Function

/-- `SLOB_UNITS(PAGE_SIZE)`. -/
def pageUnits : Nat := 2048

/-- `slobidx_t`. -/
def idx (x : Int) : Int := signed 16 x

def int (x : Int) : Int := signed 32 x

/-- `SLOB_UNITS(size)`, in `size_t`. -/
def unitsOf (size : Nat) : Nat := (size + 1) % 2 ^ 32 / 2

/-- The units, from the start of the page on. -/
abbrev Mem := Nat → Int

/-- `s & PAGE_MASK`. -/
def pageStart (s : Nat) : Nat := s - s % pageUnits

def setSlob (mem : Mem) (s : Nat) (size : Int) (next : Nat) : Mem :=
  let offset := idx ((next : Int) - pageStart s)
  if idx size > 1 then
    update (update mem s (idx size)) (s + 1) offset
  else update mem s (idx (-offset))

def slobUnits (mem : Mem) (s : Nat) : Int := if mem s > 0 then mem s else 1

def slobNext (mem : Mem) (s : Nat) : Nat :=
  let next := if mem s < 0 then idx (-mem s) else mem (s + 1)
  (pageStart s + next).toNat

def slobLast (mem : Mem) (s : Nat) : Bool := slobNext mem s % pageUnits = 0

/-- `struct slob_page`, with the memory of the page. -/
structure Page where
  mem : Mem
  units : Int
  free : Nat
  onList : Bool

/-- A new page (`slob_alloc`). -/
def newPage (mem : Mem) : Page := ⟨setSlob mem 0 pageUnits pageUnits, idx pageUnits, 0, true⟩

-- == allocation

/-- `ALIGN(addr, align)`. -/
def alignUp (addr align : Nat) : Nat := (addr + (align - 1)) / align * align

/-- The units from `cur` to the next aligned address; `base` is the address of
the page. -/
def delta (base align cur : Nat) : Int :=
  if align = 0 then 0
  else
    let addr := base + 2 * cur
    int ((alignUp addr align : Int) - addr) / 2

/-- A block that is large enough, with the one before it. -/
structure Found where
  mem : Mem
  prev : Option Nat
  cur : Nat
  avail : Int

/-- The units before the aligned address become a block of their own. -/
def fragmentHead (f : Found) (delta : Int) : Found :=
  if delta ≠ 0 then
    let next := slobNext f.mem f.cur
    let aligned := (f.cur + delta).toNat
    let mem := setSlob f.mem aligned (f.avail - delta) next
    let mem := setSlob mem f.cur delta aligned
    ⟨mem, some f.cur, aligned, slobUnits mem aligned⟩
  else f

/-- The block before, or the page, points to another block. -/
def relink (mem : Mem) (free : Nat) (prev : Option Nat) (next : Nat) : Mem × Nat :=
  match prev with
  | some prev => (setSlob mem prev (slobUnits mem prev) next, free)
  | none => (mem, next)

/-- The block is taken off the list, or its first units. -/
def takeUnits (p : Page) (f : Found) (units : Nat) : Page :=
  let next := slobNext f.mem f.cur
  let (mem, free) :=
    if f.avail = units then relink f.mem p.free f.prev next
    else
      let (mem, free) := relink f.mem p.free f.prev (f.cur + units)
      (setSlob mem (f.cur + units) (f.avail - units) next, free)
  let left := idx (p.units - units)
  ⟨mem, left, free, if left = 0 then false else p.onList⟩

/-- The loop of `slob_page_alloc`. -/
def allocLoop (base units align : Nat) (p : Page) :
    Nat → Option Nat → Nat → Option (Page × Option Nat)
  | 0, _, _ => none
  | fuel + 1, prev, cur =>
    let avail := slobUnits p.mem cur
    let delta := delta base align cur
    if avail ≥ int (units + delta) then
      let f := fragmentHead ⟨p.mem, prev, cur, avail⟩ delta
      some (takeUnits p f units, some f.cur)
    else if slobLast p.mem cur then some (p, none)
    else allocLoop base units align p fuel (some cur) (slobNext p.mem cur)

def slobPageAlloc (base : Nat) (p : Page) (size align : Nat) : Option (Page × Option Nat) :=
  allocLoop base (unitsOf size) align p (pageUnits + 1) none p.free

-- == release

/-- `while (b > next)`. -/
def findLoop (mem : Mem) (b : Nat) : Nat → Nat → Nat → Option (Nat × Nat)
  | 0, _, _ => none
  | fuel + 1, prev, next =>
    if b > next then findLoop mem b fuel next (slobNext mem next)
    else some (prev, next)

/-- The block is put in between two blocks, and merged with them. -/
def insertBlock (mem : Mem) (b : Nat) (units : Int) (prev next : Nat) : Mem :=
  let mem :=
    if ¬slobLast mem prev ∧ b + units = next then
      setSlob mem b (units + slobUnits mem next) (slobNext mem next)
    else setSlob mem b units next
  if prev + slobUnits mem prev = b then
    setSlob mem prev (slobUnits mem b + slobUnits mem prev) (slobNext mem b)
  else setSlob mem prev (slobUnits mem prev) b

/-- `slob_free` of a block of so many units. -/
def freeUnits (p : Page) (b : Nat) (units : Int) : Option (Option Page) :=
  if p.units + units = pageUnits then some none
  else if !p.onList then
    some (some ⟨setSlob p.mem b units (pageStart (b + pageUnits)), units, b, true⟩)
  else
    let left := idx (p.units + units)
    if b < p.free then
      let (units, free) :=
        if b + units = p.free then
          (units + slobUnits p.mem p.free, slobNext p.mem p.free)
        else (units, p.free)
      some (some ⟨setSlob p.mem b units free, left, b, p.onList⟩)
    else
      (findLoop p.mem b (pageUnits + 1) p.free (slobNext p.mem p.free)).map fun (prev, next) =>
          some { p with
            mem := insertBlock p.mem b units prev next
            units := left }

/-- `slob_free` of a block of this page; no page is left if it went back to the
page allocator. -/
def slobFree (p : Page) (b size : Nat) : Option (Option Page) := freeUnits p b (idx (unitsOf size))

-- == free list

/-- A block: where it starts, and its units. -/
abbrev Block := Nat × Nat

def walk (mem : Mem) : Nat → Nat → List Block
  | 0, _ => []
  | fuel + 1, cur =>
    (cur, (slobUnits mem cur).toNat) ::
      if slobLast mem cur then [] else walk mem fuel (slobNext mem cur)

def freeBlocks (p : Page) : List Block :=
  if p.onList then walk p.mem pageUnits p.free else []

/-- A block handed out: where it starts, and what was asked for. -/
structure Live where
  off : Nat
  size : Nat
  align : Nat

def Aligned (base align off : Nat) : Prop := align = 0 ∨ align ∣ base + 2 * off

def CanHold (base size align : Nat) (a : Block) : Prop :=
  ∃ off, a.1 ≤ off ∧ Aligned base align off ∧ 2 * off + size ≤ 2 * (a.1 + a.2)

/-- A request: the size fits in `int`, the alignment is zero or a power of two
that does. -/
structure Request (size align : Nat) : Prop where
  pos : 1 ≤ size
  size_lt : size < 2 ^ 31
  align_eq : align = 0 ∨ ∃ k, k ≤ 30 ∧ align = 2 ^ k

/-- A page, and the blocks handed out, after any sequence of calls. An
allocation is tried only in a page that has free units. Whoever holds a block
writes into it, and others write to other pages. -/
inductive Reached (base : Nat) : Page → List Live → Prop where
  | new (mem : Mem) : Reached base (newPage mem) []
  | alloc {p p' : Page} {live : List Live} {off : Option Nat}
      (size align : Nat) : Reached base p live → Request size align →
      p.units ≠ 0 → slobPageAlloc base p size align = some (p', off) →
      Reached base p' ((off.map fun off => ⟨off, size, align⟩).toList ++ live)
  | free {p p' : Page} (live₁ live₂ : List Live) (a : Live) :
      Reached base p (live₁ ++ a :: live₂) →
      slobFree p a.off a.size = some (some p') →
      Reached base p' (live₁ ++ live₂)
  | write {p : Page} {live : List Live} (i : Nat) (x : Int) :
      Reached base p live →
      (pageUnits ≤ i ∨ ∃ a ∈ live, a.off ≤ i ∧ i < a.off + unitsOf a.size) →
      Reached base { p with mem := update p.mem i x } live

end BoardStack.Slob
