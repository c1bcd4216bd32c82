/-
What a radix tree holds, and the invariant of its nodes.

A slot comes with its own tag bits, kept one level up: in the node that holds
the slot or, for the topmost pointer, in the root. `view h own p i` reads the
item at index `i` below such a slot, with the item's tags. `CellInv h own p`
is the invariant of the slot and everything below it; its tag clause is
local — a tag bit is set exactly when the row of the node below is not
empty — and gives the global one by induction (`own_iff_tagged`).

Every operation changes one path. `Updated` says what that means for a slot,
and `Updated.lift` carries it one level up; insertion, tagging and deletion
differ only in the side conditions they discharge there.

`radix_tree_insert` adds exactly the index it is given, or refuses it.

`radix_tree_extend` puts nodes on top whose only child is the old tree and
whose tag bits repeat the root's, so the map does not change
(`growTop_spec`). The walk down then fills one path; a node it takes from the
slab is clean, which is the invariant of the slab (`MemOk`), and behaves as
the empty slot it replaces.
-/
import BoardStack.Radix.Basic
import BoardStack.Base.Count
import BoardStack.Base.Digits

namespace BoardStack.Radix

open Base Function BitVec Nat

variable {k : Config} {α : Type}

abbrev Tags := Fin maxTags → Bool

def noTags : Tags := fun _ => false

-- == indices

lemma mapSize_le_tagBits (k : Config) : mapSize k ≤ tagBits k := by
  unfold tagBits tagLongs
  have hpos : 0 < k.word.bits := Nat.lt_of_le_of_lt (Nat.zero_le _) k.mapShift_lt
  have hdiv := div_add_mod (mapSize k + k.word.bits - 1) k.word.bits
  have hmod := mod_lt (mapSize k + k.word.bits - 1) hpos
  rw [mul_comm] at hdiv
  omega

lemma offsetAt_eq_digit (index : Index k) (h : Nat) :
    offsetAt index h = digit k.mapShift h index.toNat := by
  unfold offsetAt mapMask digit span
  rw [toNat_and_mask _ (le_of_lt k.mapShift_lt),
    toNat_ushiftRight, shiftRight_eq_div_pow, mul_comm h]

private lemma ones_div {m n : Nat} (h : m ≤ n) : (2 ^ n - 1) / 2 ^ (n - m) = 2 ^ m - 1 := by
  refine eq_of_testBit_eq fun i => ?_
  rw [testBit_div_two_pow, testBit_two_pow_sub_one, testBit_two_pow_sub_one]
  exact decide_eq_decide.mpr (by omega)

lemma maxindex_lt_iff (index : Index k) (height : Nat) :
    maxindex k height < index ↔ ¬ index.toNat < span k.mapShift height := by
  unfold maxindex span
  rw [lt_def, mul_comm height]
  simp only
  split
  · next hneg =>
    have hle : k.word.bits ≤ k.mapShift * height := by omega
    have hpow := Nat.pow_le_pow_right (by decide : 0 < 2) hle
    rw [toNat_allOnes]
    omega
  split
  · next hge =>
    have hzero : k.mapShift * height = 0 := by omega
    rw [hzero]
    show 0 % 2 ^ k.word.bits < index.toNat ↔ ¬ index.toNat < 1
    rw [zero_mod]
    omega
  next hlt =>
  have hsub : ((k.word.bits : Int) - (k.mapShift * height : Nat)).toNat
      = k.word.bits - k.mapShift * height := by omega
  have hpos := Nat.two_pow_pos (k.mapShift * height)
  rw [hsub, toNat_ushiftRight, toNat_allOnes, shiftRight_eq_div_pow, ones_div (by omega)]
  omega

lemma le_span_maxPath (k : Config) : 2 ^ k.word.bits ≤ span k.mapShift (maxPath k) := by
  refine Nat.pow_le_pow_right (by decide) ?_
  unfold maxPath
  have hdiv := div_add_mod (k.word.bits + k.mapShift - 1) k.mapShift
  have hmod := mod_lt (k.word.bits + k.mapShift - 1) k.mapShift_pos
  omega

-- == what a tree holds

/-- The item at an index below a slot with tag bits `own`, and its tags. -/
def view : Nat → Tags → Slot k α → Nat → Option (α × Tags)
  | 0, own, .item v, _ => some (v, own)
  | h + 1, _, .node _ _ slots tags, i =>
    view h (tagsAt tags (digit k.mapShift h i)) (slots (digit k.mapShift h i)) i
  | _, _, _, _ => none

@[simp] lemma view_null (h : Nat) (own : Tags) (i : Nat) :
    view h own (.null : Slot k α) i = none := by
  cases h <;> rfl

@[simp] lemma view_item (own : Tags) (v : α) (i : Nat) :
    view 0 own (.item v : Slot k α) i = some (v, own) := rfl

@[simp] lemma view_node (h : Nat) (own : Tags) (height count : Nat)
    (slots : Nat → Slot k α) (tags : Fin maxTags → BitVec (tagBits k)) (i : Nat) :
    view (h + 1) own (.node height count slots tags) i = view h (tagsAt tags (digit k.mapShift h i))
          (slots (digit k.mapShift h i)) i := rfl

lemma view_mod (h : Nat) (own : Tags) (p : Slot k α) (i : Nat) :
    view h own p (i % span k.mapShift h) = view h own p i := by
  induction h generalizing own p i with
  | zero => cases p <;> rfl
  | succ h ih =>
    cases p with
    | null => simp
    | item v => rfl
    | node height count slots tags =>
      rw [view_node, view_node, digit_mod (lt_succ_self h), ← ih _ _ (i % _), ← ih _ _ i]
      congr 1
      rw [span_succ, mul_comm, mod_mul_right_mod]

/-- A node whose only entry is the first holds what that entry does. -/
lemma view_first {h i height count : Nat} {own : Tags} {slots : Nat → Slot k α}
    {tags : Fin maxTags → BitVec (tagBits k)} (hfirst : tagsAt tags 0 = own)
    (hothers : ∀ i, i < mapSize k → i ≠ 0 → slots i = .null) (hi : i < span k.mapShift (h + 1)) :
    view (h + 1) own (.node height count slots tags) i
      = if i < span k.mapShift h then view h own (slots 0) i else none := by
  have hdigit := digit_lt k.mapShift h i
  rw [view_node, digit_of_lt hi]
  rw [digit_of_lt hi] at hdigit
  by_cases hlt : i < span k.mapShift h
  · rw [if_pos hlt, div_eq_of_lt hlt, hfirst]
  · have hne : i / span k.mapShift h ≠ 0 := ne_of_gt (Nat.div_pos (not_lt.mp hlt) (span_pos _ _))
    rw [if_neg hlt, hothers _ hdigit hne, view_null]

-- == the invariant

/-- The invariant of a slot with tag bits `own` and of everything below. -/
def CellInv : Nat → Tags → Slot k α → Prop
  | _, own, .null => own = noTags
  | 0, _, .item _ => True
  | h + 1, own, .node height count slots tags =>
    height = h + 1 ∧
    count = countBelow (mapSize k) (fun i => (slots i).isSet) ∧
    (∀ i, i < mapSize k → CellInv h (tagsAt tags i) (slots i)) ∧
    (∀ t i, mapSize k ≤ i → (tags t).getLsbD i = false) ∧
    ∀ t, own t = true ↔ tags t ≠ 0
  | _, _, _ => False

lemma cellInv_null (h : Nat) : CellInv h noTags (.null : Slot k α) := by
  cases h <;> rfl

lemma CellInv.own_of_null {h : Nat} {own : Tags}
    (hinv : CellInv h own (.null : Slot k α)) : own = noTags := by
  cases h <;> exact hinv

/-- Induction over the slots below a slot that keeps the invariant. -/
lemma CellInv.descend {motive : Nat → Tags → Slot k α → Prop}
    (null : ∀ h, motive h noTags .null) (item : ∀ own v, motive 0 own (.item v))
    (node : ∀ h own height count slots tags, CellInv (h + 1) own (.node height count slots tags) →
      (∀ i, i < mapSize k → motive h (tagsAt tags i) (slots i)) →
      motive (h + 1) own (.node height count slots tags)) :
    ∀ h own p, CellInv h own p → motive h own p := by
  intro h
  induction h with
  | zero =>
    intro own p hinv
    cases p with
    | null => exact hinv.own_of_null ▸ null 0
    | item v => exact item own v
    | node height count slots tags => exact hinv.elim
  | succ h ih =>
    intro own p hinv
    cases p with
    | null => exact hinv.own_of_null ▸ null _
    | item v => exact hinv.elim
    | node height count slots tags =>
      exact node h own _ _ _ _ hinv fun i hi => ih _ _ (hinv.2.2.1 i hi)

lemma CellInv.exists_node {h : Nat} {own : Tags} {p : Slot k α} (hinv : CellInv (h + 1) own p)
    (hset : p.isSet = true) : ∃ count slots tags, p = .node (h + 1) count slots tags := by
  cases p with
  | null => cases hset
  | item v => exact hinv.elim
  | node height count slots tags => exact ⟨count, slots, tags, hinv.1 ▸ rfl⟩

lemma tags_ne_zero_iff {tags : Fin maxTags → BitVec (tagBits k)}
    (hrange : ∀ t i, mapSize k ≤ i → (tags t).getLsbD i = false) (t : Fin maxTags) :
    tags t ≠ 0 ↔ ∃ d, d < mapSize k ∧ tagsAt tags d t = true := by
  constructor
  · intro hne
    by_contra hno
    push Not at hno
    apply hne
    refine eq_of_getLsbD_eq fun i hi => ?_
    rw [show (0 : BitVec (tagBits k)) = 0#_ from rfl, getLsbD_zero]
    by_cases hd : i < mapSize k
    · simpa [tagsAt] using hno i hd
    · exact hrange t i (not_lt.mp hd)
  · rintro ⟨d, -, hd⟩ hzero
    unfold tagsAt at hd
    simp [hzero, show (0 : BitVec (tagBits k)) = 0#_ from rfl, getLsbD_zero] at hd

lemma own_iff_tagged (t : Fin maxTags) : ∀ (h : Nat) (own : Tags) (p : Slot k α),
    CellInv h own p → (own t = true ↔
      ∃ i v tags, view h own p i = some (v, tags) ∧ tags t = true) := by
  refine CellInv.descend ?_ ?_ ?_
  · intro h
    simp [noTags]
  · intro own v
    simp
  intro h own height count slots tags hinv ih
  obtain ⟨-, -, -, hrange, hown⟩ := hinv
  rw [hown, tags_ne_zero_iff hrange]
  constructor
  · rintro ⟨d, hd, hbit⟩
    obtain ⟨i, v, tg, hview, htg⟩ := (ih d hd).mp hbit
    have hlt : i % span k.mapShift h < span k.mapShift h := mod_lt _ (span_pos _ _)
    refine ⟨d * span k.mapShift h + i % span k.mapShift h, v, tg, ?_, htg⟩
    rw [view_node, digit_block hd hlt, ← view_mod, mul_add_mod_self_right, mod_mod, view_mod, hview]
  · rintro ⟨i, v, tg, hview, htg⟩
    have hd : digit k.mapShift h i < mapSize k := digit_lt _ _ _
    exact ⟨_, hd, (ih _ hd).mpr ⟨i, v, tg, hview, htg⟩⟩

-- == changing one path

/-- A slot changed at one index: it keeps the invariant, and every other
index below it holds what it did. -/
structure Updated (h i : Nat) (own own' : Tags) (p q : Slot k α)
    (x : Option (α × Tags)) : Prop where
  inv : CellInv h own' q
  look : ∀ j, view h own' q j = if j % span k.mapShift h = i % span k.mapShift h then x
      else view h own p j

variable {x : Option (α × Tags)}

/-- A change of one slot of a node is a change of the node, when the other
slots' tags stay, `count` follows, and the node's own tag bits say which rows
are not empty. -/
lemma Updated.lift {h i d height count count' : Nat} {own own' : Tags} {slots : Nat → Slot k α}
    {tags tags' : Fin maxTags → BitVec (tagBits k)} {q : Slot k α} (hd : digit k.mapShift h i = d)
    (hinv : CellInv (h + 1) own (.node height count slots tags))
    (hchild : Updated h i (tagsAt tags d) (tagsAt tags' d) (slots d) q x)
    (htags : ∀ t j, j ≠ d → (tags' t).getLsbD j = (tags t).getLsbD j)
    (hcount : count' + (if (slots d).isSet then 1 else 0) = count + if q.isSet then 1 else 0)
    (hown : ∀ t, own' t = true ↔ tags' t ≠ 0) :
    Updated (h + 1) i own own' (.node height count slots tags)
      (.node height count' (update slots d q) tags') x := by
  obtain ⟨hheight, hcnt, hcells, hrange, -⟩ := hinv
  have hlt : d < mapSize k := hd ▸ digit_lt _ _ _
  have hsame : ∀ j, j ≠ d → tagsAt tags' j = tagsAt tags j := by
    intro j hj
    funext t
    exact htags t j hj
  refine ⟨⟨hheight, ?_, ?_, ?_, hown⟩, ?_⟩
  · have hupd := countBelow_update (n := mapSize k) (m := d) (p := fun j => (slots j).isSet)
      (q := fun j => (update slots d q j).isSet) hlt (fun j _ hj => by rw [update_of_ne hj])
    simp only [update_self] at hupd
    omega
  · intro j hj
    by_cases hjd : j = d
    · subst hjd
      rw [update_self]
      exact hchild.inv
    · rw [update_of_ne hjd, hsame j hjd]
      exact hcells j hj
  · intro t j hj
    rw [htags t j (by omega)]
    exact hrange t j hj
  · intro j
    simp only [view_node, mod_span_succ_congr, hd]
    by_cases hjd : digit k.mapShift h j = d
    · simp only [hjd, update_self, true_and, hchild.look]
    · simp only [hjd, update_of_ne hjd, false_and, if_false, hsame _ hjd]

-- == the root

lemma rootTag_lt (tag : Fin maxTags) : tag.val + gfpBitsShift < 32 := by
  have hlt : tag.val < 2 := tag.isLt
  unfold gfpBitsShift
  omega

section

variable (root : Root k α) (tag : Fin maxTags)

lemma rootTagGet_eq : rootTagGet root tag = root.gfpMask.getLsbD (tag.val + gfpBitsShift) :=
  and_bit_ne_zero (rootTag_lt tag) _

lemma rootTagGet_put {root' : Root k α} {b : Bool} (h : ∀ j, root'.gfpMask.getLsbD j
      = if tag.val + gfpBitsShift = j then b else root.gfpMask.getLsbD j) :
    rootTagGet root' = update (rootTagGet root) tag b := by
  funext t
  rw [rootTagGet_eq, h, update_apply, rootTagGet_eq]
  simp only [Nat.add_right_cancel_iff, Fin.val_inj, eq_comm]

lemma rootTagGet_set : rootTagGet (rootTagSet root tag) = update (rootTagGet root) tag true :=
  rootTagGet_put root tag fun _ =>
    (getLsbD_setBit (rootTag_lt tag) root.gfpMask).trans (by split <;> simp [*])

lemma rootTagGet_clear : rootTagGet (rootTagClear root tag) = update (rootTagGet root) tag false :=
  rootTagGet_put root tag fun _ =>
    (getLsbD_clearBit (rootTag_lt tag) root.gfpMask).trans (by split <;> simp [*])

lemma rootTagGet_clearAll : rootTagGet (rootTagClearAll root) = noTags := by
  funext t
  rw [rootTagGet_eq]
  show (root.gfpMask &&& BitVec.ofNat 32 (2 ^ gfpBitsShift - 1)).getLsbD _ = false
  rw [getLsbD_and, getLsbD_ofNat, testBit_two_pow_sub_one]
  simp

lemma rootTagGet_setOnce :
    rootTagGet (if !rootTagGet root tag then rootTagSet root tag else root)
      = update (rootTagGet root) tag true := by
  by_cases hbit : rootTagGet root tag = true
  · rw [if_neg (by simp [hbit]), ← hbit, update_eq_self]
  · rw [if_pos (by simpa using hbit), rootTagGet_set]

lemma rootTagGet_clearOnce :
    rootTagGet (if rootTagGet root tag then rootTagClear root tag else root)
      = update (rootTagGet root) tag false := by
  by_cases hbit : rootTagGet root tag = true
  · rw [if_pos hbit, rootTagGet_clear]
  · rw [if_neg hbit]
    have hfalse : rootTagGet root tag = false := by simpa using hbit
    rw [← hfalse, update_eq_self]

end

def absMap (root : Root k α) (i : Nat) : Option (α × Tags) :=
  if i < span k.mapShift root.height then
    view root.height (rootTagGet root) root.rnode.ptr i
  else none

structure RootInv (root : Root k α) : Prop where
  height : root.height ≤ maxPath k
  indirect : root.rnode.indirect = (root.rnode.ptr.isSet && root.height != 0)
  cell : CellInv root.height (rootTagGet root) root.rnode.ptr

variable {root root' : Root k α}

lemma absMap_of_updated {i : Nat} (hheight : root'.height = root.height)
    (hi : i < span k.mapShift root.height)
    (hupd : Updated root.height i (rootTagGet root) (rootTagGet root')
      root.rnode.ptr root'.rnode.ptr x) (j : Nat) :
    absMap root' j = if j = i then x else absMap root j := by
  unfold absMap
  rw [hheight]
  by_cases hj : j < span k.mapShift root.height
  · simp only [hj, if_true, hupd.look, mod_eq_of_lt hj, mod_eq_of_lt hi]
  · have hne : j ≠ i := by omega
    simp only [hj, hne, if_false]

lemma absMap_of_lt {i : Nat} (hi : i < span k.mapShift root.height) :
    absMap root i = view root.height (rootTagGet root) root.rnode.ptr i := if_pos hi

lemma RootInv.maxindex (hinv : RootInv root) :
    radixTreeMaxindex k root.height = some (maxindex k root.height) := if_pos hinv.height

/-- A tree that holds something else at one index. -/
structure Changed (root root' : Root k α) (i : Nat) (x : Option (α × Tags)) : Prop where
  inv : RootInv root'
  map : ∀ j, absMap root' j = if j = i then x else absMap root j

variable {i : Nat}

lemma Changed.same (hinv : RootInv root) (hx : absMap root i = x) : Changed root root i x := by
  refine ⟨hinv, fun j => ?_⟩
  split
  · next hj => rw [hj, hx]
  · rfl

lemma Changed.trans {root'' : Root k α} {y : Option (α × Tags)} (h : Changed root root' i y)
    (h' : Changed root' root'' i x) : Changed root root'' i x := by
  refine ⟨h'.inv, fun j => ?_⟩
  rw [h'.map, h.map]
  split <;> rfl

lemma RootInv.changed {q : Slot k α} (hinv : RootInv root) (hheight : root'.height = root.height)
    (hrnode : root'.rnode = { root.rnode with ptr := q }) (hset : q.isSet = root.rnode.ptr.isSet)
    (hi : i < span k.mapShift root.height)
    (hupd : Updated root.height i (rootTagGet root) (rootTagGet root') root.rnode.ptr q x) :
    Changed root root' i x := by
  refine ⟨⟨hheight ▸ hinv.height, ?_, ?_⟩, absMap_of_updated hheight hi (hrnode ▸ hupd)⟩
  · rw [hheight, hrnode]
    show root.rnode.indirect = (q.isSet && root.height != 0)
    rw [hinv.indirect, hset]
  · rw [hheight, hrnode]
    exact hupd.inv

variable {mem : Mem k α} {m : Nat} {n : Node k α} {root : Root k α} {p : Slot k α}

-- == the slab

/-- A node with nothing in it; its height is left over from its last use. -/
def Clean (n : Node k α) : Prop :=
  n.count = 0 ∧ (∀ i, i < mapSize k → n.slots i = .null) ∧ ∀ t, n.tags t = 0

/-- The slab holds clean nodes only, and `m` allocations will succeed. -/
structure MemOk (mem : Mem k α) (m : Nat) : Prop where
  clean : ∀ n ∈ mem.slab, Clean n
  enough : m ≤ mem.slab.length + mem.avail

lemma MemOk.mono {m' : Nat} (h : MemOk mem m) (hle : m' ≤ m) : MemOk mem m' :=
  ⟨h.clean, le_trans hle h.enough⟩

lemma radixTreeNodeAlloc_spec (h : MemOk mem (m + 1)) :
    ∃ n mem', radixTreeNodeAlloc mem = some (n, mem') ∧ Clean n ∧ MemOk mem' m := by
  obtain ⟨hclean, henough⟩ := h
  unfold radixTreeNodeAlloc
  cases hslab : mem.slab with
  | cons n slab =>
    rw [hslab] at henough
    refine ⟨n, _, rfl, hclean n (by simp [hslab]), ⟨?_, ?_⟩⟩
    · intro x hx
      have hx' : x ∈ slab := hx
      exact hclean x (by simp [hslab, hx'])
    · show m ≤ slab.length + mem.avail
      simp only [List.length_cons] at henough
      omega
  | nil =>
    rw [hslab] at henough
    cases havail : mem.avail with
    | zero =>
      rw [havail] at henough
      simp at henough
    | succ avail =>
      refine ⟨_, _, rfl, ⟨rfl, fun _ _ => rfl, fun _ => rfl⟩, ⟨?_, ?_⟩⟩
      · intro x hx
        cases hx
      · show m ≤ 0 + avail
        rw [havail, List.length_nil] at henough
        omega

lemma Clean.cellInv (hn : Clean n) (h : Nat) :
    CellInv (h + 1) noTags (.node (h + 1) n.count n.slots n.tags) := by
  obtain ⟨hcount, hslots, htags⟩ := hn
  have hbit : ∀ t i, (n.tags t).getLsbD i = false := by
    intro t i
    rw [htags]
    exact BitVec.getLsbD_zero
  refine ⟨rfl, ?_, ?_, fun t i _ => hbit t i, ?_⟩
  · rw [hcount]
    refine (countBelow_eq_zero.mpr fun i hi => ?_).symm
    rw [hslots i hi]
    rfl
  · intro i hi
    rw [hslots i hi]
    have hnone : tagsAt n.tags i = noTags := funext fun t => hbit t i
    rw [hnone]
    exact cellInv_null h
  · intro t
    simp [noTags, htags]

lemma Clean.view_eq (hn : Clean n) (h height : Nat) (own : Tags) (i : Nat) :
    view (h + 1) own (.node height n.count n.slots n.tags) i = none := by
  rw [view_node, hn.2.1 _ (digit_lt _ _ _), view_null]

-- == tag rows

lemma getLsbD_tagSet {d : Nat} (hd : d < mapSize k) (tags : Fin maxTags → BitVec (tagBits k))
    (tag t : Fin maxTags) (i : Nat) :
    (tagSet tags tag d t).getLsbD i
      = ((tags t).getLsbD i || (decide (t = tag) && decide (d = i))) := by
  have hlt : d < tagBits k := lt_of_lt_of_le hd (mapSize_le_tagBits k)
  unfold tagSet
  rw [update_apply]
  split
  · next ht =>
    subst ht
    simp [getLsbD_setBit hlt]
  · next ht => simp [ht]

lemma getLsbD_tagClear {d : Nat} (hd : d < mapSize k) (tags : Fin maxTags → BitVec (tagBits k))
    (tag t : Fin maxTags) (i : Nat) :
    (tagClear tags tag d t).getLsbD i
      = ((tags t).getLsbD i && !(decide (t = tag) && decide (d = i))) := by
  have hlt : d < tagBits k := lt_of_lt_of_le hd (mapSize_le_tagBits k)
  unfold tagClear
  rw [update_apply]
  split
  · next ht =>
    subst ht
    simp [getLsbD_clearBit hlt]
  · next ht => simp [ht]

lemma mapSize_pos (k : Config) : 0 < mapSize k := Nat.two_pow_pos _

-- == the new top

lemma getLsbD_topTags (own : Tags) {tags : Fin maxTags → BitVec (tagBits k)}
    (hzero : ∀ t, tags t = 0) (t : Fin maxTags) (i : Nat) :
    (topTags own tags t).getLsbD i = (own t && decide (0 = i)) := by
  have hbit : ∀ t i, (tags t).getLsbD i = false := by
    intro t i
    rw [hzero]
    exact BitVec.getLsbD_zero
  unfold topTags
  have hpos := mapSize_pos k
  match t with
  | 0 =>
    cases h0 : own 0 <;> cases h1 : own 1 <;>
      simp [getLsbD_tagSet hpos, hbit]
  | 1 =>
    cases h0 : own 0 <;> cases h1 : own 1 <;>
      simp [getLsbD_tagSet hpos, hbit]

lemma growTop_spec {h : Nat} {own : Tags}
    (hn : Clean n) (hinv : CellInv h own p) (hset : p.isSet = true) :
    CellInv (h + 1) own (.node (h + 1) 1 (update n.slots 0 p) (topTags own n.tags)) ∧
      ∀ i, i < span k.mapShift (h + 1) → view (h + 1) own (.node (h + 1) 1 (update n.slots 0 p)
          (topTags own n.tags)) i
        = if i < span k.mapShift h then view h own p i else none := by
  obtain ⟨-, hslots, htags⟩ := hn
  have hbit := getLsbD_topTags own htags
  have hfirst : tagsAt (topTags own n.tags) 0 = own := by
    funext t
    unfold tagsAt
    simp [hbit]
  have hother : ∀ i, i ≠ 0 → tagsAt (topTags own n.tags) i = noTags := by
    intro i hi
    funext t
    unfold tagsAt noTags
    simp [hbit, hi.symm]
  have hrange : ∀ t i, mapSize k ≤ i → (topTags own n.tags t).getLsbD i = false := by
    intro t i hi
    have hpos := mapSize_pos k
    have hne : ¬ 0 = i := by omega
    simp [hbit, hne]
  refine ⟨⟨rfl, ?_, ?_, hrange, ?_⟩, ?_⟩
  · have hupd := countBelow_update (n := mapSize k) (m := 0) (p := fun _ => false)
      (q := fun i => (update n.slots 0 p i).isSet) (mapSize_pos k)
      (fun i hlt hi => by
        rw [update_of_ne hi, hslots i hlt]
        rfl)
    have hzero : countBelow (mapSize k) (fun _ => false) = 0 :=
      countBelow_eq_zero.mpr fun _ _ => rfl
    simp only [update_self, hset, hzero] at hupd
    exact hupd.symm
  · intro i hlt
    by_cases hi : i = 0
    · subst hi
      rw [hfirst, update_self]
      exact hinv
    · rw [hother i hi, update_of_ne hi, hslots i hlt]
      exact cellInv_null h
  · intro t
    rw [tags_ne_zero_iff hrange]
    constructor
    · intro ht
      refine ⟨0, mapSize_pos k, ?_⟩
      rw [hfirst]
      exact ht
    · rintro ⟨d, -, hd⟩
      by_cases hzero : d = 0
      · rwa [hzero, hfirst] at hd
      · rw [hother d hzero] at hd
        cases hd
  · intro i hi
    rw [view_first hfirst (fun j hj hne => (update_of_ne hne _ _).trans (hslots j hj)) hi,
      update_self]

-- == extension

lemma extendHeight_spec (index : Index k) :
    ∀ (fuel height : Nat), maxPath k < fuel + height → height ≤ maxPath k →
      ∃ top, extendHeight index fuel height = some top ∧ height ≤ top ∧
        top ≤ maxPath k ∧ index.toNat < span k.mapShift top := by
  intro fuel
  induction fuel with
  | zero =>
    intro height hfuel hle
    omega
  | succ fuel ih =>
    intro height hfuel hle
    unfold extendHeight radixTreeMaxindex
    simp only [if_pos hle, maxindex_lt_iff]
    by_cases hlt : index.toNat < span k.mapShift height
    · exact ⟨height, by simp [hlt], le_rfl, hle, hlt⟩
    -- the largest height holds every index, so there is a next one
    have hnext : height + 1 ≤ maxPath k := by
      by_contra hmax
      have heq : height = maxPath k := by omega
      have hspan := le_span_maxPath k
      rw [heq] at hlt
      omega
    obtain ⟨top, hrun, hge, htop, hspan⟩ := ih (height + 1) (by omega) hnext
    exact ⟨top, by simpa [hlt] using hrun, by omega, htop, hspan⟩

lemma extendLoop_spec (height : Nat) (hmax : height ≤ maxPath k) :
    ∀ (fuel : Nat) (root : Root k α) (mem : Mem k α) (m : Nat),
      RootInv root → root.rnode.ptr.isSet = true → root.height < height →
      height ≤ fuel + root.height →
      MemOk mem (height - root.height + m) →
      ∃ root' mem', extendLoop height fuel root mem = some (0, root', mem') ∧ RootInv root' ∧
        root'.height = height ∧ absMap root' = absMap root ∧
        MemOk mem' m := by
  intro fuel
  induction fuel with
  | zero =>
    intro root mem m _ _ hlt hfuel _
    omega
  | succ fuel ih =>
    intro root mem m hinv hset hlt hfuel hmem
    obtain ⟨n, mem1, halloc, hclean, hmem1⟩ := radixTreeNodeAlloc_spec
      (m := height - (root.height + 1) + m) (hmem.mono (by omega))
    obtain ⟨hcell, hview⟩ := growTop_spec hclean hinv.cell hset
    -- the root with one node more on top
    let root1 : Root k α := { root with
      rnode := ⟨.node (root.height + 1) 1 (update n.slots 0 root.rnode.ptr)
        (topTags (rootTagGet root) n.tags), true⟩
      height := root.height + 1 }
    have hinv1 : RootInv root1 := ⟨by show root.height + 1 ≤ maxPath k; omega, rfl, hcell⟩
    have hmap : absMap root1 = absMap root := by
      funext i
      show (if i < span k.mapShift (root.height + 1) then _ else none) = _
      unfold absMap
      have hle : span k.mapShift root.height ≤ span k.mapShift (root.height + 1) :=
        span_le _ (Nat.le_succ _)
      by_cases hi : i < span k.mapShift (root.height + 1)
      · rw [if_pos hi]
        exact hview i hi
      · rw [if_neg hi, if_neg (by omega)]
    have hstep : extendLoop height (fuel + 1) root mem = if root.height + 1 < height
          then extendLoop height fuel root1 mem1
          else some (0, root1, mem1) := by
      rw [extendLoop, halloc]
    rw [hstep]
    by_cases hmore : root.height + 1 < height
    · obtain ⟨root', mem', hrun, hinv', hheight, hmap', hmem'⟩ :=
        ih root1 mem1 m hinv1 rfl hmore (by show height ≤ fuel + (root.height + 1); omega) hmem1
      exact ⟨root', mem', by rw [if_pos hmore]; exact hrun, hinv', hheight, hmap'.trans hmap, hmem'⟩
    · refine ⟨root1, mem1, by rw [if_neg hmore], hinv1, ?_, hmap, hmem1.mono (by omega)⟩
      show root.height + 1 = height
      omega

lemma isNull_iff (hinv : RootInv root) : root.rnode.isNull = !root.rnode.ptr.isSet := by
  unfold Rnode.isNull
  rw [hinv.indirect]
  cases root.rnode.ptr.isSet <;> simp

lemma Slot.eq_null_of_isSet (h : p.isSet = false) : p = .null := by
  cases p with
  | null => rfl
  | item v | node height count slots tags => cases h

lemma radixTreeExtend_spec {index : Index k} (hinv : RootInv root)
    (hbig : ¬ index.toNat < span k.mapShift root.height) (hmem : MemOk mem (maxPath k + m)) :
    ∃ root' mem', radixTreeExtend root index mem = some (0, root', mem') ∧
      RootInv root' ∧ index.toNat < span k.mapShift root'.height ∧
      absMap root' = absMap root ∧ MemOk mem' m := by
  have hlow : root.height + 1 ≤ maxPath k := by
    have hle := hinv.height
    by_contra hmax
    have heq : root.height = maxPath k := by omega
    have hspan := le_span_maxPath k
    rw [heq] at hbig
    omega
  obtain ⟨top, htop, hge, hle, hspan⟩ :=
    extendHeight_spec index (maxPath k + 1) (root.height + 1) (by omega) hlow
  unfold radixTreeExtend
  simp only [htop, isNull_iff hinv]
  cases hset : root.rnode.ptr.isSet with
  | false =>
    have hnull := Slot.eq_null_of_isSet hset
    have hown : rootTagGet root = noTags :=
      CellInv.own_of_null (h := root.height) (hnull ▸ hinv.cell)
    refine ⟨{ root with height := top }, mem, by simp, ⟨hle, ?_, ?_⟩,
      hspan, ?_, hmem.mono (by omega)⟩
    · show root.rnode.indirect = (root.rnode.ptr.isSet && top != 0)
      rw [hinv.indirect, hset]
      rfl
    · show CellInv top (rootTagGet root) root.rnode.ptr
      rw [hown, hnull]
      exact cellInv_null top
    · funext i
      show (if i < span k.mapShift top
        then view top (rootTagGet root) root.rnode.ptr i else none) = _
      unfold absMap
      simp [hnull]
  | true =>
    obtain ⟨root', mem', hrun, hinv', hheight, hmap, hmem'⟩ :=
      extendLoop_spec top hle (maxPath k) root mem m hinv hset hge (by omega) (hmem.mono (by omega))
    refine ⟨root', mem', by simpa using hrun, hinv', ?_, hmap, hmem'⟩
    rw [hheight]
    exact hspan

-- == insertion

/-- The node the walk goes on in: it keeps the invariant and holds what the
slot did. -/
lemma nodeOrAlloc_spec {h : Nat} {own : Tags} (hinv : CellInv (h + 1) own p)
    (hmem : MemOk mem (m + 1)) :
    ∃ n mem', nodeOrAlloc (h + 1) mem p = some (some (n, mem')) ∧
      CellInv (h + 1) own (.node n.height n.count n.slots n.tags) ∧
      (∀ i, view (h + 1) own (.node n.height n.count n.slots n.tags) i = view (h + 1) own p i) ∧
      MemOk mem' m ∧
      (p.isSet = true → mem' = mem ∧ p = .node n.height n.count n.slots n.tags) := by
  cases p with
  | null =>
    obtain ⟨n, mem', halloc, hclean, hmem'⟩ := radixTreeNodeAlloc_spec hmem
    refine ⟨{ n with height := h + 1 }, mem', ?_, ?_, ?_, hmem', ?_⟩
    · simp [nodeOrAlloc, halloc]
    · rw [hinv.own_of_null]
      exact hclean.cellInv h
    · intro i
      rw [view_null]
      exact hclean.view_eq h (h + 1) own i
    · intro hset
      cases hset
  | item v => exact hinv.elim
  | node height count slots tags =>
    exact ⟨⟨height, count, slots, tags⟩, mem, rfl, hinv, fun _ => rfl,
      hmem.mono (Nat.le_succ m), fun _ => ⟨rfl, rfl⟩⟩

lemma insertLoop_spec (index : Index k) (item : α) :
    ∀ (h : Nat) (own : Tags) (p : Slot k α) (mem : Mem k α), CellInv h own p → MemOk mem h →
      (view h own p index.toNat = none →
        ∃ q mem', insertLoop index item h own p mem = some (0, q, mem') ∧
          q.isSet = true ∧ MemOk mem' 0 ∧ Updated h index.toNat own own p q (some (item, noTags))) ∧
      (view h own p index.toNat ≠ none →
        insertLoop index item h own p mem = some (-EEXIST, p, mem)) := by
  intro h
  induction h with
  | zero =>
    intro own p mem hinv hmem
    cases p with
    | null =>
      have hown := hinv.own_of_null
      subst hown
      refine ⟨fun _ => ⟨.item item, mem, by simp [insertLoop, noTags],
        rfl, hmem, ⟨trivial, fun j => ?_⟩⟩, fun hne => ?_⟩
      · simp [span_zero, Nat.mod_one]
      · exact absurd (view_null 0 noTags _) hne
    | item v =>
      refine ⟨fun hnone => ?_, fun _ => rfl⟩
      simp at hnone
    | node height count slots tags => exact hinv.elim
  | succ h ih =>
    intro own p mem hinv hmem
    obtain ⟨n, mem1, hnode, hinvn, hviewn, hmem1, hsame⟩ := nodeOrAlloc_spec hinv hmem
    have hd : digit k.mapShift h index.toNat < mapSize k := digit_lt _ _ _
    obtain ⟨hfree, hheld⟩ := ih _ _ mem1 (hinvn.2.2.1 _ hd) hmem1
    rw [← hviewn, view_node]
    unfold insertLoop
    simp only [hnode, offsetAt_eq_digit]
    constructor
    · intro hnone
      obtain ⟨q, mem2, hrun, hq, hmem2, hupd⟩ := hfree hnone
      simp only [hrun]
      refine ⟨_, mem2, rfl, rfl, hmem2, ?_⟩
      -- the new entry is counted if the slot was empty
      have hcount : (if !(n.slots (digit k.mapShift h index.toNat)).isSet
            && q.isSet then n.count + 1 else n.count)
          + (if (n.slots (digit k.mapShift h index.toNat)).isSet
            then 1 else 0)
          = n.count + if q.isSet then 1 else 0 := by
        rw [hq]
        cases (n.slots (digit k.mapShift h index.toNat)).isSet <;> simp
      have hlift := Updated.lift rfl hinvn hupd (fun _ _ _ => rfl) hcount hinvn.2.2.2.2
      refine ⟨hlift.inv, fun j => ?_⟩
      rw [hlift.look, hviewn]
    · intro hsome
      have hrun := hheld hsome
      -- an index in the tree has a node on its path, so none was added
      have hset : p.isSet = true := by
        cases p with
        | null =>
          rw [← view_node h own n.height n.count, hviewn, view_null] at hsome
          exact absurd rfl hsome
        | item v | node height count slots tags => rfl
      obtain ⟨rfl, hp⟩ := hsame hset
      simp only [hrun]
      rw [hp]
      cases (n.slots (digit k.mapShift h index.toNat)).isSet <;>
        simp [update_eq_self]

lemma insertHigh_spec {index : Index k} (hinv : RootInv root) (hmem : MemOk mem (maxPath k))
    (hlt : index.toNat < span k.mapShift root.height) (item : α) :
    (absMap root index.toNat = none → ∃ root' mem', insertHigh root index item mem
          = some (0, root', mem') ∧ MemOk mem' 0 ∧
        Changed root root' index.toNat (some (item, noTags))) ∧
    (absMap root index.toNat ≠ none →
      insertHigh root index item mem = some (-EEXIST, root, mem)) := by
  obtain ⟨hfree, hheld⟩ := insertLoop_spec index item root.height
    (rootTagGet root) root.rnode.ptr mem hinv.cell (hmem.mono hinv.height)
  have habs := absMap_of_lt hlt
  rw [habs]
  unfold insertHigh
  constructor
  · intro hnone
    obtain ⟨q, mem', hrun, hq, hmem', hupd⟩ := hfree hnone
    simp only [hrun]
    exact ⟨_, mem', rfl, hmem', ⟨hinv.height, rfl, hupd.inv⟩, absMap_of_updated rfl hlt hupd⟩
  · intro hsome
    simp only [hheld hsome, ← hinv.indirect]

/-- `radix_tree_insert` with memory at hand adds a free index and refuses
one that is held, leaving everything as it was. -/
lemma radixTreeInsert_spec (hinv : RootInv root) (hmem : MemOk mem (2 * maxPath k))
    (index : Index k) (item : α) :
    (absMap root index.toNat = none → ∃ root' mem', radixTreeInsert root index item mem
          = some (0, root', mem') ∧ MemOk mem' 0 ∧
        Changed root root' index.toNat (some (item, noTags))) ∧
    (absMap root index.toNat ≠ none →
      radixTreeInsert root index item mem = some (-EEXIST, root, mem)) := by
  unfold radixTreeInsert
  simp only [hinv.maxindex, maxindex_lt_iff]
  by_cases hlt : index.toNat < span k.mapShift root.height
  · simp only [hlt, not_true_eq_false, if_false]
    exact insertHigh_spec hinv (hmem.mono (by omega)) hlt item
  obtain ⟨root1, mem1, hext, hinv1, hlt1, hmap, hmem1⟩ :=
    radixTreeExtend_spec (m := maxPath k) hinv hlt (hmem.mono (by omega))
  have hnone : absMap root index.toNat = none := if_neg hlt
  obtain ⟨root', mem', hrun, hmem', hnew⟩ :=
    (insertHigh_spec hinv1 hmem1 hlt1 item).1 (hmap ▸ hnone)
  simp only [hlt, not_false_eq_true, if_true, hext, ne_eq, not_true_eq_false, if_false]
  exact ⟨fun _ => ⟨root', mem', hrun, hmem', hnew.inv, hmap ▸ hnew.map⟩,
    fun hne => absurd hnone hne⟩

end BoardStack.Radix
