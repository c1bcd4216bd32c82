/-
The buddy allocator of a zone (mm/page_alloc.c).

Pages are their page frame numbers. Each page has the flag `PG_buddy` and the
field `page_private`, which holds the order of a free block; each order has one
list of free blocks for each migrate type. A page has one list node, so that
`list_del` takes it out of the list it is in, whichever that is.

`MAX_ORDER`, `pageblock_order` and the bounds of the zone are parameters. The zone
has no holes, so `pfn_valid_within` is true; `page_zone_id` tells the pages of the
zone from others. Compound pages, reference counts, the debugging checks and the
per-cpu parts of the counter of free pages are left out.
-/
import BoardStack.Base.Tiling

namespace BoardStack.Buddy

/-- `MIGRATE_UNMOVABLE`, and so on. -/
inductive MigrateType where
  | unmovable
  | reclaimable
  | movable
  | reserve
  | isolate
deriving DecidableEq

/-- The migrate types, of which there are `MIGRATE_TYPES`. -/
def migrateTypes : List MigrateType := [.unmovable, .reclaimable, .movable, .reserve, .isolate]

/-- What does not change. -/
structure Conf where
  /-- `MAX_ORDER` -/
  maxOrder : Nat
  /-- `pageblock_order` -/
  pageblockOrder : Nat
  /-- `page_group_by_mobility_disabled` -/
  mobilityDisabled : Bool
  /-- `zone_start_pfn` -/
  zoneStartPfn : Nat
  /-- `spanned_pages` -/
  spannedPages : Nat

/-- `struct zone`, with the pages in it. -/
structure Zone where
  /-- `free_area[order].free_list[migratetype]` -/
  freeList : Nat → MigrateType → List Nat
  /-- `free_area[order].nr_free` -/
  nrFree : Nat → Int
  /-- `NR_FREE_PAGES` -/
  nrFreePages : Int
  /-- `PG_buddy` -/
  pageBuddy : Nat → Bool
  /-- `page_private` -/
  pagePrivate : Nat → Nat
  /-- The migrate types of the page blocks. -/
  pageblock : Nat → MigrateType

def Conf.inZone (c : Conf) (page : Nat) : Bool :=
  c.zoneStartPfn ≤ page ∧ page < c.zoneStartPfn + c.spannedPages

-- == pages, lists, counters

def Zone.setPageOrder (z : Zone) (page order : Nat) : Zone :=
  { z with
    pagePrivate := fun p => if p = page then order else z.pagePrivate p
    pageBuddy := fun p => if p = page then true else z.pageBuddy p }

def Zone.rmvPageOrder (z : Zone) (page : Nat) : Zone :=
  { z with
    pagePrivate := fun p => if p = page then 0 else z.pagePrivate p
    pageBuddy := fun p => if p = page then false else z.pageBuddy p }

/-- `list_add(&page->lru, &zone->free_area[order].free_list[migratetype])`. -/
def Zone.listAdd (z : Zone) (page order : Nat) (migratetype : MigrateType) : Zone :=
  { z with
    freeList := fun o t =>
      if o = order ∧ t = migratetype then page :: z.freeList o t
      else z.freeList o t }

/-- `list_del(&page->lru)`. -/
def Zone.listDel (z : Zone) (page : Nat) : Zone :=
  { z with freeList := fun o t => (z.freeList o t).erase page }

/-- `zone->free_area[order].nr_free` is changed. -/
def Zone.addNrFree (z : Zone) (order : Nat) (delta : Int) : Zone :=
  { z with nrFree := fun o => if o = order then z.nrFree o + delta else z.nrFree o }

/-- `__mod_zone_page_state(zone, NR_FREE_PAGES, delta)`. -/
def Zone.modZonePageState (z : Zone) (delta : Int) : Zone :=
  { z with nrFreePages := z.nrFreePages + delta }

def Conf.pageblockOf (c : Conf) (page : Nat) : Nat := (page - c.zoneStartPfn) / 2 ^ c.pageblockOrder

def getPageblockMigratetype (c : Conf) (z : Zone) (page : Nat) : MigrateType :=
  if c.mobilityDisabled then .unmovable else z.pageblock (c.pageblockOf page)

def setPageblockMigratetype (c : Conf) (z : Zone) (page : Nat) (migratetype : MigrateType) : Zone :=
  { z with
    pageblock := fun n =>
      if n = c.pageblockOf page then migratetype else z.pageblock n }

-- == free

def pageFindBuddy (page pageIdx order : Nat) : Nat := page + (pageIdx ^^^ 2 ^ order) - pageIdx

/-- `__find_combined_index`: the mask `~(1 << order)` clears one bit. -/
def findCombinedIndex (pageIdx order : Nat) : Nat := pageIdx ^^^ (pageIdx &&& 2 ^ order)

def pageIsBuddy (c : Conf) (z : Zone) (buddy order : Nat) : Bool :=
  if !c.inZone buddy then false
  else z.pageBuddy buddy && z.pagePrivate buddy == order

/-- The loop of `__free_one_page`, with the number of orders above. -/
def freeLoop (c : Conf) : Nat → Zone → Nat → Nat → Nat → Zone × Nat × Nat
  | 0, z, page, _, order => (z, page, order)
  | n + 1, z, page, pageIdx, order =>
    let buddy := pageFindBuddy page pageIdx order
    if !pageIsBuddy c z buddy order then (z, page, order)
    else
      let z := ((z.listDel buddy).addNrFree order (-1)).rmvPageOrder buddy
      let combinedIdx := findCombinedIndex pageIdx order
      freeLoop c n z (page + combinedIdx - pageIdx) combinedIdx (order + 1)

def freeOnePage (c : Conf) (z : Zone) (page order : Nat) : Zone :=
  let migratetype := getPageblockMigratetype c z page
  let pageIdx := page % 2 ^ c.maxOrder
  let z := z.modZonePageState (2 ^ order)
  let (z, page, order) := freeLoop c (c.maxOrder - 1 - order) z page pageIdx order
  ((z.setPageOrder page order).listAdd page order migratetype).addNrFree order 1

-- == allocate

/-- `expand`, from order `low + n` down to `low`. -/
def expand (z : Zone) (page low : Nat) (migratetype : MigrateType) : Nat → Zone
  | 0 => z
  | n + 1 =>
    let size := 2 ^ (low + n)
    let z := (z.listAdd (page + size) (low + n) migratetype).addNrFree (low + n) 1
    expand (z.setPageOrder (page + size) (low + n)) page low migratetype n

/-- The loop of `__rmqueue_smallest` over the orders. -/
def smallestLoop (z : Zone) (order : Nat) (migratetype : MigrateType) : List Nat → Zone × Option Nat
  | [] => (z, none)
  | currentOrder :: orders =>
    match z.freeList currentOrder migratetype with
    | [] => smallestLoop z order migratetype orders
    | page :: _ =>
      let z := ((z.listDel page).rmvPageOrder page).addNrFree currentOrder (-1)
      let z := z.modZonePageState (-(2 ^ order))
      (expand z page order migratetype (currentOrder - order), some page)

def rmqueueSmallest (c : Conf) (z : Zone) (order : Nat) (migratetype : MigrateType) :
    Zone × Option Nat :=
  smallestLoop z order migratetype (List.range' order (c.maxOrder - order))

/-- `fallbacks`: what is not given is 0, which is `MIGRATE_UNMOVABLE`. -/
def fallbacks : MigrateType → List MigrateType
  | .unmovable => [.reclaimable, .movable, .reserve, .unmovable]
  | .reclaimable => [.unmovable, .movable, .reserve, .unmovable]
  | .movable => [.reclaimable, .unmovable, .reserve, .unmovable]
  | .reserve => [.reserve, .reserve, .reserve, .unmovable]
  | .isolate => [.unmovable, .unmovable, .unmovable, .unmovable]

/-- The loop of `move_freepages`; the bound is the number of pages. -/
def moveLoop (migratetype : MigrateType) (endPage : Nat) : Nat → Zone → Nat → Nat → Zone × Nat
  | 0, z, _, pagesMoved => (z, pagesMoved)
  | n + 1, z, page, pagesMoved =>
    if page > endPage then (z, pagesMoved)
    else if !z.pageBuddy page then
      moveLoop migratetype endPage n z (page + 1) pagesMoved
    else
      let order := z.pagePrivate page
      moveLoop migratetype endPage n
        ((z.listDel page).listAdd page order migratetype) (page + 2 ^ order)
        (pagesMoved + 2 ^ order)

def moveFreepages (z : Zone) (startPage endPage : Nat) (migratetype : MigrateType) : Zone × Nat :=
  moveLoop migratetype endPage (endPage + 1 - startPage) z startPage 0

def moveFreepagesBlock (c : Conf) (z : Zone) (page : Nat) (migratetype : MigrateType) :
    Zone × Nat :=
  let startPfn := page - page % 2 ^ c.pageblockOrder
  let endPfn := startPfn + 2 ^ c.pageblockOrder - 1
  let startPage := if startPfn < c.zoneStartPfn then page else startPfn
  if endPfn ≥ c.zoneStartPfn + c.spannedPages then (z, 0)
  else moveFreepages z startPage endPfn migratetype

/-- When a large block is broken, or for a reclaimable allocation, the free pages
of the page block are moved to the lists of the type, and the page block itself is
claimed if half of it is free. -/
def claimPageblock (c : Conf) (z : Zone) (startMigratetype : MigrateType)
    (currentOrder page : Nat) (migratetype : MigrateType) : Zone × MigrateType :=
  if currentOrder ≥ c.pageblockOrder / 2 ∨ startMigratetype = .reclaimable then
    let (z, pages) := moveFreepagesBlock c z page startMigratetype
    let z := if pages ≥ 2 ^ (c.pageblockOrder - 1) then
        setPageblockMigratetype c z page startMigratetype else z
    (z, startMigratetype)
  else (z, migratetype)

/-- What `__rmqueue_fallback` does with the block it has found. -/
def stealPage (c : Conf) (z : Zone) (order : Nat) (startMigratetype : MigrateType)
    (currentOrder page : Nat) (migratetype : MigrateType) : Zone :=
  let z := z.addNrFree currentOrder (-1)
  let (z, migratetype) := claimPageblock c z startMigratetype currentOrder page migratetype
  let z := ((z.listDel page).rmvPageOrder page).modZonePageState (-(2 ^ order))
  let z := if currentOrder = c.pageblockOrder then
      setPageblockMigratetype c z page startMigratetype else z
  expand z page order migratetype (currentOrder - order)

/-- The inner loop of `__rmqueue_fallback`, over the types. -/
def fallbackArea (z : Zone) (currentOrder : Nat) : List MigrateType → Option (Nat × MigrateType)
  | [] => none
  | migratetype :: types =>
    if migratetype = .reserve then fallbackArea z currentOrder types
    else
      match z.freeList currentOrder migratetype with
      | [] => fallbackArea z currentOrder types
      | page :: _ => some (page, migratetype)

/-- The loop of `__rmqueue_fallback` over the orders. -/
def fallbackLoop (c : Conf) (z : Zone) (order : Nat) (startMigratetype : MigrateType) :
    List Nat → Zone × Option Nat
  | [] => rmqueueSmallest c z order .reserve
  | currentOrder :: orders =>
    match fallbackArea z currentOrder (fallbacks startMigratetype) with
    | none => fallbackLoop c z order startMigratetype orders
    | some (page, migratetype) =>
      (stealPage c z order startMigratetype currentOrder page migratetype, some page)

/-- `__rmqueue_fallback`: the orders from the largest one down. -/
def rmqueueFallback (c : Conf) (z : Zone) (order : Nat)
    (startMigratetype : MigrateType) : Zone × Option Nat :=
  fallbackLoop c z order startMigratetype (List.range' order (c.maxOrder - order)).reverse

def rmqueue (c : Conf) (z : Zone) (order : Nat) (migratetype : MigrateType) : Zone × Option Nat :=
  match rmqueueSmallest c z order migratetype with
  | (z, some page) => (z, some page)
  | (z, none) => rmqueueFallback c z order migratetype

-- == runs

open Tiling

def areaBlocks (z : Zone) (order : Nat) : List Block :=
  migrateTypes.flatMap fun t => (z.freeList order t).map fun page => ⟨page, order⟩

def freeBlocks (c : Conf) (z : Zone) : List Block := (List.range c.maxOrder).flatMap (areaBlocks z)

/-- The sum of `nr_free`, shifted by the order. -/
def shiftedSum (z : Zone) : Nat → Int
  | 0 => 0
  | n + 1 => shiftedSum z n + z.nrFree n * 2 ^ n

/-- The zone consists of blocks of order `MAX_ORDER - 1`, all of which are free. -/
structure Initial (c : Conf) (z : Zone) (n : Nat) : Prop where
  order_pos : 0 < c.maxOrder
  aligned : 2 ^ (c.maxOrder - 1) ∣ c.zoneStartPfn
  spanned : c.spannedPages = n * 2 ^ (c.maxOrder - 1)
  blocks : (freeBlocks c z).Perm ((List.range n).map fun i =>
    ⟨c.zoneStartPfn + i * 2 ^ (c.maxOrder - 1), c.maxOrder - 1⟩)
  above : ∀ order t, c.maxOrder ≤ order → z.freeList order t = []
  buddy : ∀ page order, z.pageBuddy page = true ∧ z.pagePrivate page = order ↔
    ⟨page, order⟩ ∈ freeBlocks c z
  nr : ∀ order, z.nrFree order = if order = c.maxOrder - 1 then (n : Int) else 0
  pages : z.nrFreePages = c.spannedPages

/-- The zone and the blocks that were taken and not given back. -/
inductive Reached (c : Conf) : Zone → List Block → Prop where
  | start {z : Zone} {n : Nat} : Initial c z n → Reached c z []
  | alloc {z : Zone} {live : List Block} {page : Nat} (order : Nat)
      (migratetype : MigrateType) : Reached c z live →
      (rmqueue c z order migratetype).2 = some page →
      Reached c (rmqueue c z order migratetype).1 (⟨page, order⟩ :: live)
  | fail {z : Zone} {live : List Block} (order : Nat) (migratetype : MigrateType) :
      Reached c z live → (rmqueue c z order migratetype).2 = none →
      Reached c (rmqueue c z order migratetype).1 live
  | free {z : Zone} {live : List Block} (b : Block) : Reached c z live → b ∈ live →
      Reached c (freeOnePage c z b.start b.order) (live.erase b)

end BoardStack.Buddy
