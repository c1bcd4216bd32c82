/-
Per-cpu memory: the allocation map of a chunk (mm/percpu.c).

The map of a chunk lists its areas from offset 0 on: a positive entry is a free
area of that size, a negative one an allocated area of that size without the
sign. An allocation takes the first free area that can hold it, and may leave a
free area on either side; a free area is merged with its neighbours.

The areas of a map with their offsets are `areas`; the invariant (`Inv`) says
that the sizes are multiples of 4 that add up to the size of a unit, that no two
neighbours are both free, and what the two counters are. As offsets and sizes
are multiples of 4, the small pieces that the code gives to a neighbour do not
occur.

`int` has 32 bits, and the sum of the padding and the size wants to fit. The
lists that chunks are kept in by their free space are left out.
-/
import BoardStack.Base.CInt
import Mathlib.Algebra.BigOperators.Group.List.Basic
import Mathlib.Data.List.Chain

namespace BoardStack.Percpu

open Base List Int

-- == the model

/-- `struct pcpu_chunk`: `map_used` is the length of the map. -/
structure Chunk where
  freeSize : Int
  contigHint : Int
  mapAlloc : Nat
  map : List Int
deriving DecidableEq

/-- A new chunk (`alloc_pcpu_chunk`). -/
def freshChunk (unitSize : Int) (mapAlloc : Nat) : Chunk :=
  ⟨unitSize, unitSize, mapAlloc, [unitSize]⟩

def int (x : Int) : Int := signed 32 x

/-- `ALIGN(off, align)`, for a power of two. -/
def alignUp (off align : Int) : Int :=
  let y := int (off + (align - 1))
  y - y % align

/-- `abs(map[i])`. -/
def extent (m : Int) : Int := m.natAbs

/-- What `pcpu_alloc_area` does with the entry `m` once it is large enough;
`before` and `rest` are the entries on its sides. With `head` the padding in
front is given to the entry before when that is free or the padding is small;
`map[i - 1]` is read only if there is padding, and then there is one. -/
def takeArea (c : Chunk) (size : Int) (before : List Int) (m : Int)
    (rest : List Int) (off head maxContig : Int) : Option (Int × Chunk) :=
  let prev := before.getLastD 0
  let merge := head ≠ 0 ∧ (unsigned 32 head < 4 ∨ prev > 0)
  let before := if merge then
      before.dropLast ++ [int (if prev > 0 then prev + head else prev - head)]
    else before
  let freeSize := if merge ∧ ¬prev > 0 then int (c.freeSize - head)
    else c.freeSize
  let m := if merge then int (m - head) else m
  let off := if merge then int (off + head) else off
  let head := if merge then 0 else head
  let tail := int (int (m - head) - size)
  let tail := if unsigned 32 tail < 4 then 0 else tail
  let heads := if head ≠ 0 then [head] else []
  let tails := if tail ≠ 0 then [tail] else []
  -- pcpu_split_block
  if c.mapAlloc < c.map.length + heads.length + tails.length then none
  else
    let area := int (int (m - head) - tail)
    let maxContig := if head ≠ 0 then max head maxContig else maxContig
    let maxContig := if tail ≠ 0 then max tail maxContig else maxContig
    some (int (off + head), { c with
        freeSize := int (freeSize - area)
        contigHint := if rest = [] then maxContig
          else max c.contigHint maxContig
        map := before ++ (heads ++ (-area :: tails)) ++ rest })

/-- The loop of `pcpu_alloc_area`; no result stands for a `BUG_ON`. -/
def allocLoop (c : Chunk) (size align : Int) :
    List Int → Int → Int → List Int → Option (Int × Chunk)
  | _, _, maxContig, [] => some (-1, { c with contigHint := maxContig })
  | before, off, maxContig, m :: rest =>
    let head := int (alignUp off align - off)
    if before = [] ∧ head ≠ 0 then none
    else if m < 0 then
      allocLoop c size align (before ++ [m]) (off + extent m) maxContig rest
    else if m < int (head + size) then
      allocLoop c size align (before ++ [m]) (off + extent m) (max m maxContig) rest
    else takeArea c size before m rest off head maxContig

def allocArea (c : Chunk) (size align : Int) : Option (Int × Chunk) :=
  allocLoop c size align [] 0 0 c.map

/-- The end of `pcpu_free_area`: the area is free, and is merged. -/
def mergeArea (c : Chunk) (before : List Int) (m : Int) (rest : List Int) :
    Chunk :=
  let freeSize := int (c.freeSize + m)
  let left := before.getLastD (-1) ≥ 0
  let (before, m) :=
    if left then (before.dropLast, int (before.getLastD (-1) + m))
    else (before, m)
  let right := rest.headD (-1) ≥ 0
  let (m, rest) := if right then (int (m + rest.headD (-1)), rest.tail)
    else (m, rest)
  { c with
    freeSize := freeSize
    contigHint := max m c.contigHint
    map := before ++ m :: rest }

/-- The loop of `pcpu_free_area`. -/
def freeLoop (c : Chunk) (freeme : Int) : List Int → Int → List Int → Option Chunk
  | _, _, [] => none
  | before, off, m :: rest =>
    if off = freeme then
      if m > 0 then none else some (mergeArea c before (int (-m)) rest)
    else freeLoop c freeme (before ++ [m]) (off + extent m) rest

def freeArea (c : Chunk) (freeme : Int) : Option Chunk := freeLoop c freeme [] 0 c.map

-- == areas

def areas : Int → List Int → List (Int × Int)
  | _, [] => []
  | off, m :: rest => (off, m) :: areas (off + extent m) rest

def total (map : List Int) : Int := (map.map extent).sum

def freePart (m : Int) : Int := if m > 0 then m else 0

def totalFree (map : List Int) : Int := (map.map freePart).sum

variable {c : Chunk} {map before rest : List Int} {m off size align : Int}

lemma extent_nonneg (m : Int) : 0 ≤ extent m := natCast_nonneg _

lemma extent_of_nonneg (h : 0 ≤ m) : extent m = m := by
  unfold extent
  omega

lemma extent_neg (h : 0 ≤ m) : extent (-m) = m := by
  unfold extent
  omega

@[simp] lemma total_nil : total [] = 0 := rfl

@[simp] lemma total_cons : total (m :: rest) = extent m + total rest := rfl

@[simp] lemma total_append : total (before ++ rest) = total before + total rest := by
  unfold total
  rw [map_append, sum_append]

@[simp] lemma totalFree_nil : totalFree [] = 0 := rfl

@[simp] lemma totalFree_cons : totalFree (m :: rest) = freePart m + totalFree rest := rfl

@[simp] lemma totalFree_append :
    totalFree (before ++ rest) = totalFree before + totalFree rest := by
  unfold totalFree
  rw [map_append, sum_append]

lemma total_singleton (h : 0 ≤ m) : total [m] = m := by
  rw [total_cons, total_nil, extent_of_nonneg h, add_zero]

lemma total_nonneg (map : List Int) : 0 ≤ total map := by
  induction map with
  | nil => exact le_rfl
  | cons m rest ih =>
    have hm := extent_nonneg m
    rw [total_cons]
    omega

lemma totalFree_bounds (map : List Int) : 0 ≤ totalFree map ∧ totalFree map ≤ total map := by
  induction map with
  | nil => exact ⟨le_rfl, le_rfl⟩
  | cons m rest ih =>
    rw [total_cons, totalFree_cons]
    unfold freePart extent
    split_ifs <;> omega

lemma totalFree_eq_filter (map : List Int) : totalFree map = (map.filter (0 < ·)).sum := by
  induction map with
  | nil => rfl
  | cons m rest ih =>
    rw [totalFree_cons, ih, filter_cons]
    unfold freePart
    by_cases hm : 0 < m <;> simp [hm]

lemma areas_append (off : Int) (before rest : List Int) :
    areas off (before ++ rest) = areas off before ++ areas (off + total before) rest := by
  induction before generalizing off with
  | nil => simp [areas]
  | cons m before ih =>
    rw [cons_append, areas, areas, ih, total_cons, add_assoc]
    rfl

lemma areas_bounds {o : Int} (h : (o, m) ∈ areas off map) :
    off ≤ o ∧ o + extent m ≤ off + total map := by
  induction map generalizing off with
  | nil => exact absurd h not_mem_nil
  | cons x rest ih =>
    have hx := extent_nonneg x
    have hrest := total_nonneg rest
    rw [total_cons]
    rcases mem_cons.mp h with heq | hmem
    · obtain ⟨rfl, rfl⟩ := Prod.ext_iff.mp heq
      dsimp only
      omega
    · have hb := ih hmem
      omega

lemma mem_of_mem_areas {o : Int} (h : (o, m) ∈ areas off map) : m ∈ map := by
  induction map generalizing off with
  | nil => exact absurd h not_mem_nil
  | cons x rest ih =>
    rcases mem_cons.mp h with heq | hmem
    · obtain ⟨-, rfl⟩ := Prod.ext_iff.mp heq
      exact mem_cons_self
    · exact mem_cons_of_mem x (ih hmem)

lemma mem_areas_iff {mid : List Int} {x : Int × Int} :
    x ∈ areas 0 (before ++ mid ++ rest) ↔ x ∈ areas 0 before ∨ x ∈ areas (total before) mid ∨
        x ∈ areas (total before + total mid) rest := by
  rw [areas_append, areas_append, total_append, zero_add, zero_add,
    mem_append, mem_append, or_assoc]

-- == invariant

/-- An area handed out: its offset, and what was asked for. -/
structure Live where
  off : Int
  size : Int
  align : Int

structure UnitSize (unitSize : Int) : Prop where
  pos : 0 < unitSize
  le : unitSize ≤ 2 ^ 30
  four : 4 ∣ unitSize

structure Inv (unitSize : Int) (c : Chunk) (live : List Live) : Prop where
  nonzero : ∀ m ∈ c.map, m ≠ 0
  four : ∀ m ∈ c.map, 4 ∣ m
  whole : total c.map = unitSize
  free : c.freeSize = totalFree c.map
  apart : c.map.IsChain fun x y => ¬(0 < x ∧ 0 < y)
  hint : ∀ m ∈ c.map, m ≤ c.contigHint
  held : ∀ a ∈ live, ∃ n, (a.off, -n) ∈ areas 0 c.map ∧ 0 < a.size ∧ a.size ≤ n ∧ a.align ∣ a.off
  distinct : (live.map Live.off).Nodup

variable {unitSize : Int} {live : List Live}

lemma int_eq {x : Int} (hlo : -2 ^ 31 ≤ x) (hhi : x < 2 ^ 31) : int x = x := signed_eq hlo hhi

lemma total_four (h : ∀ m ∈ map, 4 ∣ m) : 4 ∣ total map := by
  induction map with
  | nil => exact ⟨0, rfl⟩
  | cons m rest ih =>
    have hm := h m mem_cons_self
    have hrest := ih fun x hx => h x (mem_cons_of_mem m hx)
    rw [total_cons]
    unfold extent
    omega

-- == alignment

/-- A request that is made: a positive multiple of 4, aligned to a power of
two. -/
structure Request (size align : Int) : Prop where
  pos : 0 < size
  four : 4 ∣ size
  size_le : size ≤ 2 ^ 30
  pow : ∃ k : Nat, align = 2 ^ k
  align_le : align ≤ 2 ^ 30

lemma Request.align_pos (h : Request size align) : 0 < align := by
  obtain ⟨k, rfl⟩ := h.pow
  exact Int.pow_pos (by decide)

lemma Request.align_cases (h : Request size align) : align = 1 ∨ align = 2 ∨ 4 ∣ align := by
  obtain ⟨k, rfl⟩ := h.pow
  match k with
  | 0 => exact .inl rfl
  | 1 => exact .inr (.inl rfl)
  | k + 2 => exact .inr (.inr ⟨2 ^ k, by rw [Int.pow_add]; ring⟩)

lemma alignUp_spec (h : Request size align) (hoff : 0 ≤ off)
    (hle : off ≤ 2 ^ 30) (hfour : 4 ∣ off) :
    off ≤ alignUp off align ∧ alignUp off align < off + align ∧
      align ∣ alignUp off align ∧ 4 ∣ alignUp off align - off := by
  have hpos := h.align_pos
  have hbig := h.align_le
  have hint : int (off + (align - 1)) = off + (align - 1) := by apply int_eq <;> omega
  have hdvd : align ∣ alignUp off align := by
    exact dvd_self_sub_emod
  have hmod := emod_nonneg (off + (align - 1)) (by omega : align ≠ 0)
  have hmod' := emod_lt_of_pos (off + (align - 1)) hpos
  have hval : alignUp off align = off + (align - 1) - (off + (align - 1)) % align := by
    unfold alignUp
    rw [hint]
  refine ⟨by omega, by omega, hdvd, ?_⟩
  rcases h.align_cases with rfl | rfl | h4
  · omega
  · omega
  · have h4' := Int.dvd_trans h4 hdvd
    omega

def CanHold (size align : Int) (x : Int × Int) : Prop :=
  0 < x.2 ∧ ∃ a, x.1 ≤ a ∧ align ∣ a ∧ a + size ≤ x.1 + x.2

lemma canHold_iff (h : Request size align) (hoff : 0 ≤ off)
    (hle : off ≤ 2 ^ 30) (hfour : 4 ∣ off) :
    CanHold size align (off, m) ↔ 0 < m ∧ alignUp off align - off + size ≤ m := by
  obtain ⟨hge, hlt, hdvd, -⟩ := alignUp_spec h hoff hle hfour
  constructor
  · rintro ⟨hm, a, hoa, hda, hfit⟩
    refine ⟨hm, ?_⟩
    -- no multiple lies between
    have hleast : alignUp off align ≤ a := by
      by_contra hnot
      have hstep := le_of_dvd (by omega) (Int.dvd_sub hdvd hda)
      omega
    omega
  · rintro ⟨hm, hfit⟩
    exact ⟨hm, alignUp off align, hge, hdvd, by dsimp only; omega⟩

-- == allocation

/-- The entries that take the place of a free one. -/
def carved (m head size : Int) : List Int :=
  (if head ≠ 0 then [head] else []) ++
    (-size :: if m - head - size ≠ 0 then [m - head - size] else [])

variable {head : Int}

/-- Padding and remainder are multiples of 4, so nothing is given to a
neighbour. -/
lemma takeArea_eq (maxContig off : Int) (hroom : c.map.length + 2 ≤ c.mapAlloc)
    (hprev : before.getLastD 0 ≤ 0) (hm : m ≤ 2 ^ 30) (hoff : 0 ≤ off) (hle : off + m ≤ 2 ^ 30)
    (hhead : 0 ≤ head) (hhead4 : 4 ∣ head) (hm4 : 4 ∣ m) (hsize : 0 < size) (hsize4 : 4 ∣ size)
    (hfit : head + size ≤ m) (hfree : m ≤ c.freeSize) (hfree' : c.freeSize ≤ 2 ^ 30) :
    ∃ hint, takeArea c size before m rest off head maxContig = some (off + head, { c with
            freeSize := c.freeSize - size
            contigHint := if rest = [] then hint else max c.contigHint hint
            map := before ++ carved m head size ++ rest }) ∧
      maxContig ≤ hint ∧ ∀ x ∈ carved m head size, x ≤ hint ∨ x < 0 := by
  have hunsigned : ∀ x : Int, 0 ≤ x → x < 2 ^ 32 → (unsigned 32 x : Int) = x := by
    intro x h0 h₁
    unfold unsigned
    omega
  -- the padding is not small, and the entry before is not free
  have hkeep : ¬(head ≠ 0 ∧ (unsigned 32 head < 4 ∨ before.getLastD 0 > 0)) := by
    have hu := hunsigned head hhead (by omega)
    rintro ⟨hne, hsmall | hfree⟩
    · omega
    · omega
  have htail : int (int (m - head) - size) = m - head - size := by
    rw [int_eq (x := m - head) (by omega) (by omega)]
    apply int_eq <;> omega
  have htail' : (if unsigned 32 (m - head - size) < 4 then 0
      else m - head - size) = m - head - size := by
    have hu := hunsigned (m - head - size) (by omega) (by omega)
    split_ifs <;> omega
  have harea : int (int (m - head) - (m - head - size)) = size := by
    rw [int_eq (x := m - head) (by omega) (by omega)]
    rw [int_eq] <;> omega
  have hend : int (off + head) = off + head := by apply int_eq <;> omega
  have hsub : int (c.freeSize - size) = c.freeSize - size := by apply int_eq <;> omega
  have hlen : ∀ {p q : Prop} [Decidable p] [Decidable q] {x y : Int},
      ¬c.mapAlloc < c.map.length + (if p then [x] else []).length
        + (if q then [y] else []).length := by
    intro p q _ _ x y
    split_ifs <;> simp <;> omega
  unfold takeArea
  simp only [hkeep, false_and, if_false, htail, htail', harea, hend, hsub]
  rw [if_neg hlen]
  refine ⟨_, rfl, ?_, ?_⟩
  · split_ifs <;> omega
  · intro x hx
    unfold carved at hx
    split_ifs at hx ⊢ <;> simp at hx <;> omega

lemma mem_carved {x head : Int} (hx : x ∈ carved m head size) :
    x = head ∧ head ≠ 0 ∨ x = -size ∨ x = m - head - size ∧ m - head - size ≠ 0 := by
  unfold carved at hx
  split_ifs at hx <;> simp at hx <;> omega

lemma total_carved (hhead : 0 ≤ head) (hsize : 0 < size)
    (hfit : head + size ≤ m) : total (carved m head size) = m := by
  have hneg : extent (-size) = size := extent_neg (by omega)
  have hend : extent (m - head - size) = m - head - size := extent_of_nonneg (by omega)
  unfold carved
  split_ifs <;> simp [extent_of_nonneg hhead, hneg, hend] <;> omega

lemma totalFree_carved (hhead : 0 ≤ head) (hsize : 0 < size)
    (hfit : head + size ≤ m) : totalFree (carved m head size) = m - size := by
  unfold carved
  split_ifs <;> simp [freePart] <;> omega

lemma isChain_carved (hsize : 0 < size) (hbefore : before.IsChain fun x y => ¬(0 < x ∧ 0 < y))
    (hrest : rest.IsChain fun x y => ¬(0 < x ∧ 0 < y))
    (hlast : ∀ x ∈ before.getLast?, ¬0 < x) (hfirst : ∀ x ∈ rest.head?, ¬0 < x) :
    (before ++ carved m head size ++ rest).IsChain fun x y => ¬(0 < x ∧ 0 < y) := by
  unfold carved
  rw [isChain_append, isChain_append]
  refine ⟨⟨hbefore, ?_, ?_⟩, hrest, ?_⟩
  · split_ifs <;> simp <;> omega
  · intro x hx y _ hxy
    exact hlast x hx hxy.1
  · intro x _ y hy hxy
    exact hfirst y hy hxy.2

lemma forall_mem_replace {P : Int → Prop} {old new : List Int}
    (hold : ∀ x ∈ before ++ old ++ rest, P x) (hnew : ∀ x ∈ new, P x) :
    ∀ x ∈ before ++ new ++ rest, P x := by
  intro x hx
  simp only [mem_append] at hx hold
  rcases hx with (hx | hx) | hx
  · exact hold x (.inl (.inl hx))
  · exact hnew x hx
  · exact hold x (.inr hx)

lemma Inv.around (h : Inv unitSize c live) (hmap : c.map = before ++ m :: rest) (hm : 0 < m) :
    before.IsChain (fun x y => ¬(0 < x ∧ 0 < y)) ∧ rest.IsChain (fun x y => ¬(0 < x ∧ 0 < y)) ∧
      (∀ x ∈ before.getLast?, ¬0 < x) ∧ ∀ x ∈ rest.head?, ¬0 < x := by
  have hchain := h.apart
  rw [hmap, isChain_append, isChain_cons] at hchain
  obtain ⟨hbefore, ⟨hfirst, hrest⟩, hlast⟩ := hchain
  refine ⟨hbefore, hrest, ?_, ?_⟩
  · intro x hx hpos
    exact hlast x hx m (by simp) ⟨hpos, hm⟩
  · intro x hx hpos
    exact hfirst x hx ⟨hm, hpos⟩

lemma Inv.carve {head hint : Int} (h : Inv unitSize c live) (hmap : c.map = before ++ m :: rest)
    (hm : 0 < m) (hhead : 0 ≤ head) (hhead4 : 4 ∣ head) (hsize : 0 < size) (hsize4 : 4 ∣ size)
    (hfit : head + size ≤ m) (halign : align ∣ total before + head)
    (hhint : ∀ x ∈ before ++ carved m head size ++ rest, x ≤ hint) :
    Inv unitSize { c with
        freeSize := c.freeSize - size
        contigHint := hint
        map := before ++ carved m head size ++ rest }
      (⟨total before + head, size, align⟩ :: live) := by
  have htotal := total_carved hhead hsize hfit
  have hm4 : 4 ∣ m := h.four m (by rw [hmap]; simp)
  have hmap' : c.map = before ++ [m] ++ rest := by
    rw [hmap, append_assoc]
    rfl
  -- where the areas handed out before are
  have hold : ∀ a ∈ live, ∃ n, 0 < a.size ∧ a.size ≤ n ∧ a.align ∣ a.off ∧
      ((a.off, -n) ∈ areas 0 before ∨ (a.off, -n) ∈ areas (total before + m) rest) := by
    intro a ha
    obtain ⟨n, hmem, hpos, hn, hdvd⟩ := h.held a ha
    refine ⟨n, hpos, hn, hdvd, ?_⟩
    rw [hmap', mem_areas_iff] at hmem
    rcases hmem with hmem | hmem | hmem
    · exact .inl hmem
    · have hin := mem_of_mem_areas hmem
      rw [mem_singleton] at hin
      omega
    · rw [total_singleton (by omega)] at hmem
      exact .inr hmem
  obtain ⟨hbefore, hrest, hlast, hfirst⟩ := h.around hmap hm
  refine ⟨forall_mem_replace (hmap' ▸ h.nonzero) ?_, forall_mem_replace (hmap' ▸ h.four) ?_,
    ?_, ?_, isChain_carved hsize hbefore hrest hlast hfirst, hhint, ?_, ?_⟩
  · intro x hx
    rcases mem_carved hx with hx | hx | hx <;> omega
  · intro x hx
    rcases mem_carved hx with hx | hx | hx <;> omega
  · have hold := h.whole
    rw [hmap] at hold
    simp only [total_append, total_cons, htotal] at hold ⊢
    unfold extent at hold
    omega
  · have hold := h.free
    rw [hmap] at hold
    simp only [totalFree_append, totalFree_cons, totalFree_carved hhead hsize hfit] at hold ⊢
    unfold freePart at hold
    omega
  · intro a ha
    rcases mem_cons.mp ha with rfl | ha
    · refine ⟨size, ?_, hsize, le_rfl, halign⟩
      rw [mem_areas_iff]
      right
      left
      have hneg : extent (-size) = size := extent_neg (by omega)
      unfold carved
      split_ifs <;> simp [areas, extent_of_nonneg hhead, hneg] <;> omega
    · obtain ⟨n, hpos, hn, hdvd, hwhere⟩ := hold a ha
      refine ⟨n, ?_, hpos, hn, hdvd⟩
      rw [mem_areas_iff, htotal]
      rcases hwhere with hw | hw
      · exact .inl hw
      · exact .inr (.inr hw)
  · refine nodup_cons.mpr ⟨?_, h.distinct⟩
    intro hmem
    obtain ⟨a, ha, heq⟩ := mem_map.mp hmem
    obtain ⟨n, hpos, hn, -, hwhere⟩ := hold a ha
    dsimp only at heq
    rcases hwhere with hw | hw
    · have hb := areas_bounds hw
      unfold extent at hb
      omega
    · have hb := areas_bounds hw
      omega

/-- What `pcpu_alloc_area` comes to: no free area can hold the request and the
map stays, or an area is handed out. -/
def Allocated (unitSize : Int) (c : Chunk) (live : List Live)
    (size align : Int) (result : Option (Int × Chunk)) : Prop :=
  (∃ c', result = some (-1, c') ∧
    (¬∃ x ∈ areas 0 c.map, CanHold size align x) ∧ Inv unitSize c' live) ∨
  ∃ off c', result = some (off, c') ∧ 0 ≤ off ∧ (∃ x ∈ areas 0 c.map, CanHold size align x) ∧
    Inv unitSize c' (⟨off, size, align⟩ :: live)

def padding (off align : Int) : Int := alignUp off align - off

lemma Inv.at (hunit : UnitSize unitSize) (h : Inv unitSize c live)
    (hmap : c.map = before ++ m :: rest) :
    m ≠ 0 ∧ 4 ∣ m ∧ 4 ∣ total before ∧ 0 ≤ total before ∧ total before + extent m ≤ 2 ^ 30 := by
  have hle := hunit.le
  have hwhole := h.whole
  have hrest := total_nonneg rest
  rw [hmap, total_append, total_cons] at hwhole
  refine ⟨h.nonzero m (by rw [hmap]; simp), h.four m (by rw [hmap]; simp), ?_,
    total_nonneg before, by omega⟩
  apply total_four
  intro x hx
  exact h.four x (by rw [hmap]; exact mem_append_left _ hx)

/-- One turn of the loop, in the range of `int`; there is no padding in front
of the first area. -/
lemma allocLoop_cons (hreq : Request size align) (hoff : 0 ≤ total before)
    (hle : total before + extent m ≤ 2 ^ 30) (hoff4 : 4 ∣ total before) (maxContig : Int) :
    allocLoop c size align before (total before) maxContig (m :: rest) = if m < 0 then
          allocLoop c size align (before ++ [m]) (total (before ++ [m])) maxContig rest
        else if m < padding (total before) align + size then
          allocLoop c size align (before ++ [m]) (total (before ++ [m])) (max m maxContig) rest
        else takeArea c size before m rest (total before)
          (padding (total before) align) maxContig := by
  have hsize := hreq.pos
  have hsize' := hreq.size_le
  have hbig := hreq.align_le
  have hext := extent_nonneg m
  obtain ⟨hge, hlt, hdvd, -⟩ := alignUp_spec hreq hoff (by omega) hoff4
  have hhead : int (alignUp (total before) align - total before)
      = padding (total before) align := by
    apply int_eq <;> omega
  have hsum : int (padding (total before) align + size) = padding (total before) align + size := by
    unfold padding
    apply int_eq <;> omega
  have hbug : ¬(before = [] ∧ padding (total before) align ≠ 0) := by
    rintro ⟨rfl, hne⟩
    rw [total_nil] at hne hlt hge hdvd
    have hzero := eq_zero_of_dvd_of_nonneg_of_lt hge (by omega) hdvd
    exact hne (by unfold padding; omega)
  have hnext : total before + extent m = total (before ++ [m]) := by simp
  rw [allocLoop, hhead, if_neg hbug, hsum, hnext]

lemma Inv.take {maxContig : Int} (hunit : UnitSize unitSize)
    (h : Inv unitSize c live) (hroom : c.map.length + 2 ≤ c.mapAlloc)
    (hreq : Request size align) (hmap : c.map = before ++ m :: rest)
    (hpos : 0 < m) (hfit : padding (total before) align + size ≤ m)
    (hcontig : ∀ x ∈ before, x ≤ maxContig) (hmax : 0 ≤ maxContig) :
    ∃ c', takeArea c size before m rest (total before) (padding (total before) align) maxContig
          = some (alignUp (total before) align, c') ∧
      Inv unitSize c' (⟨alignUp (total before) align, size, align⟩ :: live) := by
  obtain ⟨-, hm4, hoff4, hoff, hend⟩ := h.at hunit hmap
  obtain ⟨hge, -, hdvd, hhead4⟩ := alignUp_spec hreq hoff (by
    have := extent_nonneg m
    omega) hoff4
  have hext : extent m = m := extent_of_nonneg (by omega)
  obtain ⟨-, -, hlast, -⟩ := h.around hmap hpos
  have hfree := h.free
  have hfree' : totalFree c.map ≤ 2 ^ 30 := by
    have := (totalFree_bounds c.map).2
    have := h.whole
    have := hunit.le
    omega
  have hshare : m ≤ totalFree c.map := by
    have h₁ := (totalFree_bounds before).1
    have h₂ := (totalFree_bounds rest).1
    rw [hmap, totalFree_append, totalFree_cons]
    unfold freePart
    omega
  have hprev : before.getLastD 0 ≤ 0 := by
    rw [List.getLastD_eq_getLast?]
    cases hl : before.getLast? with
    | none => exact le_rfl
    | some x => exact not_lt.mp (hlast x hl)
  have hpad : 0 ≤ padding (total before) align := by
    unfold padding
    omega
  obtain ⟨hint, hrun, hmaxle, hcarved⟩ :=
    takeArea_eq maxContig (total before) hroom hprev (by omega) hoff (by omega)
      hpad hhead4 hm4 hreq.pos hreq.four hfit (by omega) (by omega)
  have hstart : total before + padding (total before) align = alignUp (total before) align := by
    unfold padding
    omega
  have hdvd' : align ∣ total before + padding (total before) align := by
    rw [hstart]
    exact hdvd
  rw [hrun, hstart]
  refine ⟨_, rfl, ?_⟩
  rw [← hstart]
  apply h.carve hmap hpos hpad hhead4 hreq.pos hreq.four hfit hdvd'
  -- the hint is kept unless this was the last area
  intro x hx
  have hold := h.hint
  rw [hmap] at hold
  simp only [mem_append] at hx
  rcases hx with (hx | hx) | hx
  · have h₁ := hcontig x hx
    split_ifs <;> omega
  · have h₁ := hcarved x hx
    split_ifs <;> omega
  · have h₁ := hold x (by simp [hx])
    have hne : rest ≠ [] := ne_nil_of_mem hx
    rw [if_neg hne]
    omega

lemma allocLoop_spec (hunit : UnitSize unitSize) (h : Inv unitSize c live)
    (hroom : c.map.length + 2 ≤ c.mapAlloc) (hreq : Request size align)
    (rest : List Int) : ∀ before maxContig, c.map = before ++ rest →
      0 ≤ maxContig → (∀ x ∈ before, x ≤ maxContig) →
      (∀ x ∈ areas 0 before, ¬CanHold size align x) →
      Allocated unitSize c live size align
        (allocLoop c size align before (total before) maxContig rest) := by
  induction rest with
  | nil =>
    intro before maxContig hmap _ hcontig hnone
    rw [append_nil] at hmap
    refine .inl ⟨_, rfl, ?_, ?_⟩
    · rintro ⟨x, hx, hhold⟩
      rw [hmap] at hx
      exact hnone x hx hhold
    · refine ⟨h.nonzero, h.four, h.whole, h.free, h.apart, ?_, h.held, h.distinct⟩
      intro x hx
      rw [hmap] at hx
      exact hcontig x hx
  | cons m rest ih =>
    intro before maxContig hmap hmax hcontig hnone
    obtain ⟨hne, -, hoff4, hoff, hend⟩ := h.at hunit hmap
    have hext := extent_nonneg m
    have hstep : before ++ m :: rest = before ++ [m] ++ rest := by
      rw [append_assoc]
      rfl
    have hhold := canHold_iff (m := m) hreq hoff (by omega) hoff4
    -- the entry is passed over
    have hpass : ∀ hint, maxContig ≤ hint → m ≤ hint → ¬CanHold size align (total before, m) →
        Allocated unitSize c live size align
          (allocLoop c size align (before ++ [m]) (total (before ++ [m])) hint rest) := by
      intro hint hle hm hnot
      apply ih (before ++ [m]) hint (hmap.trans hstep) (by omega)
      · exact forall_mem_append.mpr ⟨fun x hx => le_trans (hcontig x hx) hle,
          forall_mem_singleton.mpr hm⟩
      intro x hx hcan
      rw [areas_append, mem_append, zero_add] at hx
      rcases hx with hx | hx
      · exact hnone x hx hcan
      · rw [mem_singleton.mp hx] at hcan
        exact hnot hcan
    rw [allocLoop_cons hreq hoff hend hoff4]
    by_cases hneg : m < 0
    · rw [if_pos hneg]
      apply hpass maxContig le_rfl (by omega)
      intro hcan
      have hpos := hcan.1
      omega
    rw [if_neg hneg]
    have hpos : 0 < m := by omega
    by_cases hsmall : m < padding (total before) align + size
    · rw [if_pos hsmall]
      apply hpass (max m maxContig) (by omega) (by omega)
      intro hcan
      have hfit := (hhold.mp hcan).2
      unfold padding at hsmall
      omega
    rw [if_neg hsmall]
    obtain ⟨c', hrun, hinv⟩ := h.take hunit hroom hreq hmap hpos (by omega) hcontig hmax
    have hge := (alignUp_spec hreq hoff (by omega) hoff4).1
    refine .inr ⟨_, _, hrun, by omega, ⟨(total before, m), ?_, ?_⟩, hinv⟩
    · rw [hmap, hstep, mem_areas_iff]
      exact .inr (.inl mem_cons_self)
    · refine hhold.mpr ⟨hpos, ?_⟩
      unfold padding at hsmall
      omega

lemma exists_left (hne : ∀ x ∈ before, x ≠ 0)
    (hchain : before.IsChain fun x y => ¬(0 < x ∧ 0 < y)) :
    ∃ front left, before = front ++ left ∧ (∀ x ∈ front.getLast?, x < 0) ∧ (∀ x ∈ left, 0 < x) ∧
      ∀ m, 0 ≤ m → total left + m < 2 ^ 31 → (if before.getLastD (-1) ≥ 0 then
          (before.dropLast, int (before.getLastD (-1) + m)) else (before, m))
        = (front, total left + m) := by
  rcases eq_nil_or_concat' before with rfl | ⟨front, x, rfl⟩
  · exact ⟨[], [], rfl, by simp, by simp, fun m _ _ => by simp⟩
  have hx := hne x (by simp)
  by_cases hpos : 0 < x
  · refine ⟨front, [x], rfl, fun y hy => ?_, forall_mem_singleton.mpr hpos, fun m hm hlt => ?_⟩
    · have hy' := hne y (mem_append_left _ (List.mem_of_getLast? hy))
      rw [isChain_append] at hchain
      have := hchain.2.2 y hy x (by simp)
      omega
    · rw [total_singleton (by omega)] at hlt ⊢
      simp [int_eq (x := x + m) (by omega) hlt]
      omega
  · refine ⟨front ++ [x], [], by simp, fun y hy => ?_, by simp, fun m _ _ => ?_⟩
    · have : y = x := by simpa using hy.symm
      omega
    · simp
      omega

lemma exists_right (hne : ∀ x ∈ rest, x ≠ 0) (hchain : rest.IsChain fun x y => ¬(0 < x ∧ 0 < y)) :
    ∃ right back, rest = right ++ back ∧ (∀ x ∈ back.head?, x < 0) ∧ (∀ x ∈ right, 0 < x) ∧
      ∀ m, 0 ≤ m → m + total right < 2 ^ 31 → (if rest.headD (-1) ≥ 0 then
          (int (m + rest.headD (-1)), rest.tail) else (m, rest))
        = (m + total right, back) := by
  cases rest with
  | nil => exact ⟨[], [], rfl, by simp, by simp, fun m _ _ => by simp⟩
  | cons x back =>
    have hx := hne x (by simp)
    by_cases hpos : 0 < x
    · refine ⟨[x], back, rfl, fun y hy => ?_, forall_mem_singleton.mpr hpos, fun m hm hlt => ?_⟩
      · have hy' := hne y (mem_cons_of_mem x (List.mem_of_head? hy))
        rw [isChain_cons] at hchain
        have := hchain.1 y hy
        omega
      · rw [total_singleton (by omega)] at hlt ⊢
        simp [int_eq (x := m + x) (by omega) hlt]
        omega
    · refine ⟨[], x :: back, rfl, fun y hy => ?_, by simp, fun m _ _ => ?_⟩
      · have : y = x := by simpa using hy.symm
        omega
      · simp
        omega

lemma totalFree_of_pos (h : ∀ x ∈ map, 0 < x) : totalFree map = total map := by
  induction map with
  | nil => rfl
  | cons m rest ih =>
    have hm := h m mem_cons_self
    rw [totalFree_cons, total_cons, ih fun x hx => h x (mem_cons_of_mem m hx)]
    unfold freePart extent
    omega

variable {live₁ live₂ : List Live}

lemma Inv.release {n : Int} {a : Live} (hunit : UnitSize unitSize)
    (h : Inv unitSize c (live₁ ++ a :: live₂)) (hmap : c.map = before ++ -n :: rest) (hn : 0 < n)
    (ha : a.off = total before) :
    Inv unitSize (mergeArea c before n rest) (live₁ ++ live₂) := by
  have hle := hunit.le
  have hparts := h.apart
  rw [hmap, isChain_append, isChain_cons] at hparts
  have hne := h.nonzero
  have hwhole := h.whole
  have hfree := h.free
  rw [hmap] at hne
  obtain ⟨front, left, hbefore, hfront, hleft, hleft'⟩ :=
    exists_left (fun x hx => hne x (mem_append_left _ hx)) hparts.1
  obtain ⟨right, back, hrest, hback, hright, hright'⟩ :=
    exists_right (fun x hx => hne x (by simp [hx])) hparts.2.1.2
  have hmid : c.map = front ++ (left ++ -n :: right) ++ back := by
    rw [hmap, hbefore, hrest]
    simp
  have hfl := totalFree_of_pos hleft
  have hfr := totalFree_of_pos hright
  have h₁ := total_nonneg left
  have h₂ := total_nonneg right
  have h₃ := total_nonneg back
  have hext : extent (-n) = n := extent_neg (by omega)
  have hpart : freePart (-n) = 0 := by
    unfold freePart
    rw [if_neg (by omega)]
  rw [hmid] at hwhole hfree
  simp only [total_append, total_cons, hext] at hwhole
  simp only [totalFree_append, totalFree_cons, hpart, hfl, hfr] at hfree
  have hf0 := totalFree_bounds front
  have hf3 := totalFree_bounds back
  -- the merged entry
  have hs : int (c.freeSize + n) = c.freeSize + n := by apply int_eq <;> omega
  have hmerge : mergeArea c before n rest = { c with
          freeSize := c.freeSize + n
          contigHint := max (total left + n + total right) c.contigHint
          map := front ++ [total left + n + total right] ++ back } := by
    unfold mergeArea
    dsimp only
    rw [hleft' n (by omega) (by omega)]
    rw [hright' (total left + n) (by omega) (by omega), hs]
    simp
  have hpos : 0 < total left + n + total right := by omega
  have hone : total [total left + n + total right] = total (left ++ -n :: right) := by
    rw [total_singleton (by omega), total_append, total_cons, hext, add_assoc]
  rw [hmerge]
  refine ⟨forall_mem_replace (hmid ▸ h.nonzero) (by simp; omega),
    forall_mem_replace (hmid ▸ h.four) (forall_mem_singleton.mpr ?_), ?_, ?_, ?_, ?_, ?_, ?_⟩
  · have h4 : ∀ l : List Int, (∀ x ∈ l, x ∈ c.map) → 4 ∣ total l := fun l hsub =>
      total_four fun x hx => h.four x (hsub x hx)
    have h4l := h4 left fun x hx => by rw [hmid]; simp [hx]
    have h4r := h4 right fun x hx => by rw [hmid]; simp [hx]
    have h4n := h.four (-n) (by rw [hmid]; simp)
    omega
  · simp only [total_append, hone, total_cons, hext]
    omega
  · simp only [totalFree_append, totalFree_cons, totalFree_nil]
    unfold freePart
    rw [if_pos hpos]
    omega
  · have hc := h.apart
    rw [hmid, isChain_append, isChain_append] at hc
    rw [isChain_append, isChain_append]
    refine ⟨⟨hc.1.1, isChain_singleton _, ?_⟩, hc.2.1, ?_⟩
    · intro x hx y _ hxy
      have := hfront x hx
      omega
    · intro x _ y hy hxy
      have := hback y hy
      omega
  · exact forall_mem_replace (fun x hx => le_max_of_le_right (h.hint x (hmid ▸ hx))) (by simp)
  · intro b hb
    have hb' : b ∈ live₁ ++ a :: live₂ := by
      simp only [mem_append, mem_cons] at hb ⊢
      tauto
    obtain ⟨k, hmem, hsize, hk, hdvd⟩ := h.held b hb'
    refine ⟨k, ?_, hsize, hk, hdvd⟩
    rw [hmid, mem_areas_iff] at hmem
    rw [mem_areas_iff, hone]
    rcases hmem with hmem | hmem | hmem
    · exact .inl hmem
    · -- the only allocated entry there is the one of `a`
      exfalso
      rw [areas_append, areas, mem_append, mem_cons] at hmem
      rcases hmem with hmem | hmem | hmem
      · have := hleft _ (mem_of_mem_areas hmem)
        omega
      · obtain ⟨hoff, -⟩ := Prod.ext_iff.mp hmem
        dsimp only at hoff
        have hsame : b.off = a.off := by rw [ha, hbefore, total_append, hoff]
        have hnd := h.distinct
        rw [map_append, map_cons, nodup_append] at hnd
        simp only [mem_append] at hb
        rcases hb with hb | hb
        · exact hnd.2.2 b.off (mem_map_of_mem hb) a.off mem_cons_self hsame
        · rw [nodup_cons] at hnd
          exact hnd.2.1.1 (hsame ▸ mem_map_of_mem hb)
      · have := hright _ (mem_of_mem_areas hmem)
        omega
    · exact .inr (.inr hmem)
  · have hnd := h.distinct
    refine hnd.sublist ?_
    rw [map_append, map_append, map_cons]
    exact (sublist_cons_self _ _).append_left _

lemma freeLoop_spec {o n : Int} (hn : 0 < n) (hle : n ≤ 2 ^ 30)
    (rest : List Int) : ∀ before, (∀ x ∈ rest, x ≠ 0) → (o, -n) ∈ areas (total before) rest →
      ∃ before' rest', before ++ rest = before' ++ -n :: rest' ∧ o = total before' ∧
        freeLoop c o before (total before) rest = some (mergeArea c before' n rest') := by
  induction rest with
  | nil => exact fun before _ h => absurd h not_mem_nil
  | cons m rest ih =>
    intro before hne h
    have hext : total before + extent m = total (before ++ [m]) := by simp
    rw [freeLoop]
    by_cases hoff : total before = o
    · rw [if_pos hoff]
      -- the entries behind start later, as this one is not empty
      have hm : m = -n := by
        rcases mem_cons.mp h with heq | hmem
        · exact (Prod.ext_iff.mp heq).2.symm
        · have hb := (areas_bounds hmem).1
          have hm := hne m mem_cons_self
          unfold extent at hb
          omega
      have hneg : int (-m) = n := by
        rw [hm, Int.neg_neg]
        apply int_eq <;> omega
      rw [if_neg (by omega), hneg]
      exact ⟨before, rest, by rw [hm], hoff.symm, rfl⟩
    · rw [if_neg hoff, hext]
      have hmem : (o, -n) ∈ areas (total (before ++ [m])) rest := by
        rw [← hext]
        rcases mem_cons.mp h with heq | hmem
        · exact absurd (Prod.ext_iff.mp heq).1.symm hoff
        · exact hmem
      have hrun := ih (before ++ [m]) (fun x hx => hne x (mem_cons_of_mem m hx)) hmem
      rw [append_assoc] at hrun
      exact hrun

lemma freeArea_spec {a : Live}
    (hunit : UnitSize unitSize) (h : Inv unitSize c (live₁ ++ a :: live₂)) :
    ∃ c', freeArea c a.off = some c' ∧ c'.mapAlloc = c.mapAlloc ∧
      Inv unitSize c' (live₁ ++ live₂) := by
  obtain ⟨n, hmem, hpos, hsize, -⟩ := h.held a (by simp)
  have hle : n ≤ 2 ^ 30 := by
    have hb := (areas_bounds hmem).2
    have hlow := (areas_bounds hmem).1
    have hunit' := hunit.le
    have hwhole := h.whole
    unfold extent at hb
    omega
  obtain ⟨before, rest, hmap, hoff, hrun⟩ :=
    freeLoop_spec (c := c) (by omega) hle c.map [] h.nonzero hmem
  rw [nil_append] at hmap
  exact ⟨_, hrun, rfl, h.release hunit hmap (by omega) hoff⟩

lemma allocArea_spec (hunit : UnitSize unitSize) (h : Inv unitSize c live)
    (hroom : c.map.length + 2 ≤ c.mapAlloc) (hreq : Request size align) :
    Allocated unitSize c live size align (allocArea c size align) :=
  allocLoop_spec hunit h hroom hreq c.map [] 0 rfl le_rfl (forall_mem_nil _) (forall_mem_nil _)

lemma Inv.fresh (hunit : UnitSize unitSize) (mapAlloc : Nat) :
    Inv unitSize (freshChunk unitSize mapAlloc) [] := by
  have hpos := hunit.pos
  refine ⟨?_, ?_, ?_, ?_, isChain_singleton _, ?_, ?_, nodup_nil⟩
  · simp [freshChunk]
    omega
  · simpa [freshChunk] using hunit.four
  · simp [freshChunk, extent_of_nonneg (by omega : 0 ≤ unitSize)]
  · simp [freshChunk, freePart]
    omega
  · simp [freshChunk]
  · exact forall_mem_nil _

-- == runs

/-- A chunk that a sequence of calls comes to, and the areas handed out by
then. Before an allocation the map is extended if it has to be
(`pcpu_extend_area_map`), and then has room for two more entries. -/
inductive Reached (unitSize : Int) : Chunk → List Live → Prop where
  | fresh (mapAlloc : Nat) : Reached unitSize (freshChunk unitSize mapAlloc) []
  | extend {c : Chunk} {live : List Live} {mapAlloc : Nat} :
      Reached unitSize c live → Reached unitSize { c with mapAlloc } live
  | alloc {c c' : Chunk} {live : List Live} (size align off : Int) :
      Reached unitSize c live → Request size align →
      c.map.length + 2 ≤ c.mapAlloc →
      allocArea c size align = some (off, c') →
      Reached unitSize c' (if off = -1 then live else ⟨off, size, align⟩ :: live)
  | free {c c' : Chunk} (live₁ live₂ : List Live) (a : Live) :
      Reached unitSize c (live₁ ++ a :: live₂) → freeArea c a.off = some c' →
      Reached unitSize c' (live₁ ++ live₂)

lemma Reached.inv (hunit : UnitSize unitSize) (h : Reached unitSize c live) :
    Inv unitSize c live := by
  induction h with
  | fresh mapAlloc => exact .fresh hunit mapAlloc
  | extend _ ih =>
    exact ⟨ih.nonzero, ih.four, ih.whole, ih.free, ih.apart, ih.hint, ih.held, ih.distinct⟩
  | alloc size align off _ hreq hroom hrun ih =>
    rcases allocArea_spec hunit ih hroom hreq with
      ⟨c', hres, -, hinv⟩ | ⟨o, c', hres, ho, -, hinv⟩
    · obtain ⟨rfl, rfl⟩ : off = -1 ∧ _ = c' := by simpa using hrun.symm.trans hres
      exact hinv
    · obtain ⟨rfl, rfl⟩ : off = o ∧ _ = c' := by simpa using hrun.symm.trans hres
      rw [if_neg (by omega)]
      exact hinv
  | free live₁ live₂ a _ hrun ih =>
    obtain ⟨c', hres, -, hinv⟩ := freeArea_spec hunit ih
    rw [Option.some.inj (hrun.symm.trans hres)]
    exact hinv

/-- The areas handed out are disjoint: they have different offsets, and areas
of the map with different offsets do not overlap. -/
lemma Inv.disjoint (h : Inv unitSize c live) :
    live.Pairwise fun a b => a.off + a.size ≤ b.off ∨ b.off + b.size ≤ a.off := by
  have hne : live.Pairwise fun a b => a.off ≠ b.off := pairwise_map.mp h.distinct
  refine hne.imp_of_mem ?_
  intro a b ha hb hab
  obtain ⟨n, hmem, hpos, hn, -⟩ := h.held a ha
  obtain ⟨k, hmem', hpos', hk, -⟩ := h.held b hb
  have hapart : ∀ (map : List Int) (off : Int), (a.off, -n) ∈ areas off map →
      (b.off, -k) ∈ areas off map → a.off + n ≤ b.off ∨ b.off + k ≤ a.off := by
    intro map
    induction map with
    | nil => exact fun off h => absurd h not_mem_nil
    | cons m rest ih =>
      intro off h₁ h₂
      rcases mem_cons.mp h₁ with e1 | h₁ <;> rcases mem_cons.mp h₂ with e2 | h₂
      · exact absurd ((Prod.ext_iff.mp e1).1.trans (Prod.ext_iff.mp e2).1.symm) hab
      · obtain ⟨ho, rfl⟩ := Prod.ext_iff.mp e1
        have := (areas_bounds h₂).1
        unfold extent at this
        omega
      · obtain ⟨ho, rfl⟩ := Prod.ext_iff.mp e2
        have := (areas_bounds h₁).1
        unfold extent at this
        omega
      · exact ih _ h₁ h₂
  have := hapart c.map 0 hmem hmem'
  omega

/-- After every sequence of calls the map describes the unit: its areas add up
to it, the counters are right, free areas are merged and the areas handed out
are disjoint, aligned and large enough. An allocation gives -1 exactly if no
free area can hold it, and an area handed out can be freed. -/
theorem area_map_sound (hunit : UnitSize unitSize) (h : Reached unitSize c live) :
    (c.map.map extent).sum = unitSize ∧ c.freeSize = (c.map.filter (0 < ·)).sum ∧
      c.map.IsChain (fun x y => ¬(0 < x ∧ 0 < y)) ∧
      live.Pairwise (fun a b => a.off + a.size ≤ b.off ∨ b.off + b.size ≤ a.off) ∧
      (∀ a ∈ live, a.align ∣ a.off ∧ ∃ n, (a.off, -n) ∈ areas 0 c.map ∧ a.size ≤ n) ∧
      (∀ m ∈ c.map, 0 < m → m ≤ c.contigHint) ∧
      (∀ size align, Request size align → c.map.length + 2 ≤ c.mapAlloc →
        ∃ off c', allocArea c size align = some (off, c') ∧
          (off = -1 ↔ ¬∃ x ∈ areas 0 c.map, CanHold size align x)) ∧
      ∀ a ∈ live, ∃ c', freeArea c a.off = some c' := by
  have hinv := h.inv hunit
  refine ⟨hinv.whole, ?_, hinv.apart, hinv.disjoint, ?_, fun m hm _ => hinv.hint m hm, ?_, ?_⟩
  · rw [hinv.free]
    exact totalFree_eq_filter c.map
  · intro a ha
    obtain ⟨n, hmem, -, hn, hdvd⟩ := hinv.held a ha
    exact ⟨hdvd, n, hmem, hn⟩
  · intro size align hreq hroom
    rcases allocArea_spec hunit hinv hroom hreq with
      ⟨c', hres, hnone, -⟩ | ⟨off, c', hres, hoff, hsome, -⟩
    · exact ⟨-1, c', hres, iff_of_true rfl hnone⟩
    · exact ⟨off, c', hres, iff_of_false (by omega) (not_not_intro hsome)⟩
  · intro a ha
    obtain ⟨live₁, live₂, rfl⟩ := append_of_mem ha
    obtain ⟨c', hrun, -⟩ := freeArea_spec hunit hinv
    exact ⟨c', hrun⟩

/-- An area of 4, one of 8 with padding in front, and the first is freed. -/
theorem padded_area_sound :
    ∃ c : Chunk, Reached 65536 c [⟨8, 8, 8⟩] ∧ c.map = [8, -8, 65520] ∧
      (c.map.map extent).sum = 65536 ∧
      ∃ off c', allocArea c 16 16 = some (off, c') ∧
        (off = -1 ↔ ¬∃ x ∈ areas 0 c.map, CanHold 16 16 x) := by
  have hunit : UnitSize 65536 := ⟨by decide, by decide, by decide⟩
  have h₁ : Reached 65536 ⟨65532, 65532, 8, [-4, 65532]⟩ [⟨0, 4, 4⟩] :=
    .alloc 4 4 0 (.fresh 8) ⟨by decide, by decide, by decide, ⟨2, rfl⟩, by decide⟩ (by decide)
      (by decide)
  have h₂ : Reached 65536 ⟨65524, 65520, 8, [-4, 4, -8, 65520]⟩ [⟨8, 8, 8⟩, ⟨0, 4, 4⟩] :=
    .alloc 8 8 8 h₁ ⟨by decide, by decide, by decide, ⟨3, rfl⟩, by decide⟩ (by decide) (by decide)
  have h₃ : Reached 65536 ⟨65528, 65520, 8, [8, -8, 65520]⟩ [⟨8, 8, 8⟩] :=
    .free [⟨8, 8, 8⟩] [] ⟨0, 4, 4⟩ h₂ (by decide)
  obtain ⟨hsum, -, -, -, -, -, halloc, -⟩ := area_map_sound hunit h₃
  exact ⟨_, h₃, rfl, hsum, halloc 16 16
    ⟨by decide, by decide, by decide, ⟨4, rfl⟩, by decide⟩ (by decide)⟩

/-- A size for which the sum with the padding leaves the range of `int`: the
area is handed out, although nothing can hold it. -/
theorem huge_area_handed_out :
    ∃ c c' : Chunk, allocArea (freshChunk 65536 8) 4 4 = some (0, c) ∧
      allocArea c 2147483644 8 = some (8, c') ∧
      ∀ x ∈ areas 0 c.map, ¬CanHold 2147483644 8 x := by
  refine ⟨⟨65532, 65532, 8, [-4, 65532]⟩, _, by decide, by exact rfl, ?_⟩
  intro x hx hcan
  obtain ⟨-, a, hle, -, hfit⟩ := hcan
  have : x = (0, -4) ∨ x = (4, 65532) := by simpa [areas, show extent (-4) = 4 from rfl] using hx
  rcases this with rfl | rfl <;> dsimp only at hle hfit <;> omega

end BoardStack.Percpu
