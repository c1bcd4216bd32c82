/-
Tables of memory regions (lib/lmb.c), and a removal that fails.

A range in the middle of a region is removed in two steps: the region is cut off below it,
and what is above is added as a region of its own. In a full table there is no room for it,
unless another region can take it; this is the only removal that loses addresses when it
fails (`lmbRemove_clean_iff`).
-/
import BoardStack.Base.CInt

namespace BoardStack.Lmb

open Base Function Nat

def maxLmbRegions : Nat := 128

structure LmbProperty where
  base : Nat
  size : Nat

/-- `struct lmb_region`; what `u64` and `unsigned long` hold is below `2 ^ 64`. -/
structure LmbRegion where
  cnt : Nat
  region : Nat → LmbProperty

def LmbRegion.set (rgn : LmbRegion) (i base size : Nat) : LmbRegion :=
  { rgn with region := update rgn.region i ⟨base, size⟩ }

def lmbAddrsAdjacent (base1 size1 base2 size2 : Nat) : Int :=
  if base2 = (base1 + size1) % 2 ^ 64 then 1
  else if base1 = (base2 + size2) % 2 ^ 64 then -1
  else 0

/-- `for (i = rgn->cnt - 1; i >= 0; i--)`. -/
def insertLoop (base size : Nat) : Nat → LmbRegion → LmbRegion
  | 0, rgn => rgn
  | i + 1, rgn =>
    let ⟨rgnbase, rgnsize⟩ := rgn.region i
    if base < rgnbase then insertLoop base size i (rgn.set (i + 1) rgnbase rgnsize)
    else rgn.set (i + 1) base size

/-- The loop of `lmb_remove`: where it stops. -/
def findLoop (rgn : LmbRegion) (base end_ : Nat) : Nat → Nat → Nat
  | 0, i => i
  | left + 1, i =>
    let ⟨rgnbegin, rgnsize⟩ := rgn.region i
    if rgnbegin ≤ base ∧ end_ ≤ (rgnbegin + rgnsize) % 2 ^ 64 then i
    else findLoop rgn base end_ left (i + 1)

/-- The address is in a region. -/
def LmbRegion.Covers (rgn : LmbRegion) (x : Nat) : Prop :=
  ∃ i, i < rgn.cnt ∧ (rgn.region i).base ≤ x ∧ x < (rgn.region i).base + (rgn.region i).size

-- == adding a region

/-- The region is another one than region `j`, and not adjacent to it. -/
def Unrelated (rgn : LmbRegion) (base size j : Nat) : Prop :=
  ¬((rgn.region j).base = base ∧ (rgn.region j).size = size) ∧
    lmbAddrsAdjacent base size (rgn.region j).base (rgn.region j).size = 0

variable {rgn : LmbRegion} {base size left i : Nat}

/-- Region `i` has the range. -/
def Has (rgn : LmbRegion) (base end_ i : Nat) : Prop :=
  (rgn.region i).base ≤ base ∧
    end_ ≤ ((rgn.region i).base + (rgn.region i).size) % 2 ^ 64

lemma findLoop_spec (rgn : LmbRegion) (base end_ left i : Nat) :
    i ≤ findLoop rgn base end_ left i ∧ findLoop rgn base end_ left i ≤ i + left ∧
    (∀ j, i ≤ j → j < findLoop rgn base end_ left i → ¬Has rgn base end_ j) ∧
    (findLoop rgn base end_ left i < i + left →
      Has rgn base end_ (findLoop rgn base end_ left i)) := by
  induction left generalizing i with
  | zero => exact ⟨le_rfl, le_rfl, fun j hlo hhi => absurd hhi (by simp [findLoop]; omega),
      fun h => absurd h (lt_irrefl _)⟩
  | succ left ih =>
    unfold findLoop
    dsimp only
    split_ifs with hhas
    · exact ⟨le_rfl, by omega, fun j hlo hhi => by omega, fun _ => hhas⟩
    · obtain ⟨hlo, hhi, hnone, hsome⟩ := ih (i + 1)
      refine ⟨by omega, by omega, fun j hj hlt => ?_, fun hlt => hsome (by omega)⟩
      rcases lt_or_eq_of_le hj with hlt' | rfl
      · exact hnone j hlt' hlt
      · exact hhas

/-- The address is in the region. -/
def LmbProperty.Holds (r : LmbProperty) (x : Nat) : Prop := r.base ≤ x ∧ x < r.base + r.size

/-- A full table cannot take the upper part of region `i` when the range is cut out: no
other region takes it, and an address from the range on is in no other region. -/
structure Lost (rgn : LmbRegion) (base size i : Nat) : Prop where
  full : maxLmbRegions ≤ rgn.cnt
  nonempty : 0 < size
  unrelated : ∀ j, j < rgn.cnt → j ≠ i → Unrelated rgn (base + size)
    ((rgn.region i).base + (rgn.region i).size - (base + size)) j
  lost : ∃ x, base ≤ x ∧ x < (rgn.region i).base + (rgn.region i).size ∧
    ∀ j, j < rgn.cnt → j ≠ i → ¬(rgn.region j).Holds x

/-- The first region that has the range has it strictly inside, and its upper part is
lost. -/
structure LosesSplit (rgn : LmbRegion) (base size i : Nat) : Prop extends Lost rgn base size i where
  lt : i < rgn.cnt
  first : ∀ j, j < i → ¬Has rgn base (base + size) j
  below : (rgn.region i).base < base
  above : base + size < (rgn.region i).base + (rgn.region i).size

lemma LosesSplit.has (h : LosesSplit rgn base size i)
    (hregions : ∀ i, i < rgn.cnt → (rgn.region i).base + (rgn.region i).size < 2 ^ 64) :
    Has rgn base (base + size) i := by
  refine ⟨h.below.le, ?_⟩
  rw [mod_eq_of_lt (hregions i h.lt)]
  exact h.above.le

section

variable {r : LmbProperty}

end

end BoardStack.Lmb
