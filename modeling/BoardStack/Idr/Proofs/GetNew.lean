/-
`idr_get_new` over the whole handle: an empty tree, a tree with room, and a
full tree that has to grow.

`absMap` is the partial map from ids to pointers a handle stands for, and
`HandleInv` the invariant of the handle: the tree keeps `LayerInv` at the
depth `layers` says, and the free list holds clean layers only.
-/
import BoardStack.Idr.Proofs.Alloc

namespace BoardStack.Idr

open Base Function Nat

variable {a : WordSize} {α : Type}
variable {idp : IdrHandle a α} {p : IdrLayer a α} {k l : Nat}

-- == the handle

/-- The partial map from ids to pointers the handle stands for. -/
def absMap (idp : IdrHandle a α) (i : Nat) : Option (Option α) :=
  if i < 2 ^ (idrBits a * idp.layers) then lookup (idp.layers - 1) idp.top i
  else none

/-- The tree of a handle: none at all, or `layers` layers that keep the
invariant. -/
def TreeInv (idp : IdrHandle a α) : Prop :=
  (idp.top = .null ∧ idp.layers = 0) ∨
    ∃ l, idp.layers = l + 1 ∧ l + 1 ≤ maxLevel a - 1 ∧ LayerInv l idp.top

structure HandleInv (idp : IdrHandle a α) : Prop where
  tree : TreeInv idp
  free : FreeList idp 0

/-- The largest tree holds `2 ^ 30` ids, whatever the word size. -/
lemma bits_mul_maxLevel (a : WordSize) : idrBits a * (maxLevel a - 1) = 30 := by
  cases a <;> rfl

lemma bits_pos (a : WordSize) : 0 < idrBits a := by cases a <;> decide

lemma capacity_le (h : l + 1 ≤ maxLevel a - 1) : capacity a l ≤ 2 ^ 30 := by
  rw [← bits_mul_maxLevel a]
  exact Nat.pow_le_pow_right (by decide) (Nat.mul_le_mul_left _ h)

lemma shift_le (h : l ≤ maxLevel a - 1) : l * idrBits a ≤ 30 := by
  rw [← bits_mul_maxLevel a, mul_comm]
  exact Nat.mul_le_mul_left _ h

lemma free_enough (h : l + 1 ≤ maxLevel a - 1) : l ≤ idrFreeMax a - (l + 1) := by
  have : maxLevel a * 2 ≤ idrFreeMax a := by cases a <;> decide
  omega

/-- What a tree of `l + 1` layers holds. -/
def treeMap (l : Nat) (p : Slot a α) (i : Nat) : Option (Option α) :=
  if i < capacity a l then lookup l p i else none

lemma treeMap_of_lt {p : Slot a α} {i : Nat} (h : i < capacity a l) :
    treeMap l p i = lookup l p i :=
  if_pos h

lemma treeMap_set {p q : Slot a α} {v : Option (Option α)} (hk : k < capacity a l)
    (h : ∀ j, lookup l q j = if j % capacity a l = k % capacity a l then v else lookup l p j)
    (i : Nat) : treeMap l q i = if i = k then v else treeMap l p i := by
  unfold treeMap
  by_cases hi : i < capacity a l
  · rw [if_pos hi, if_pos hi, h, mod_eq_of_lt hi, mod_eq_of_lt hk]
  · rw [if_neg hi, if_neg hi, if_neg (by omega)]

lemma absMap_of_layers (idp : IdrHandle a α) (h : idp.layers = l + 1) :
    absMap idp = treeMap l idp.top := by
  funext i
  rw [absMap, h]
  rfl

lemma absMap_of_null (h : idp.top = .null) (i : Nat) : absMap idp i = none := by
  rw [absMap, h]
  simp

-- == running the search

variable {id : BitVec 32}

lemma subAlloc_found (hk : k < 2 ^ 30) (htop : idp.top = p.ptr) (hlay : idp.layers = l + 1)
    (hlev : l + 1 ≤ maxLevel a - 1) (hinv : LayerInv l p.ptr)
    (hto : Toward l p.ptr id.toNat k) (hfree : FreeList idp l) :
    ∃ id' leaf pa' idp', subAlloc idp id = some (.found id' leaf pa' idp') ∧
      id'.toNat = k ∧ Found l p [] id' leaf pa' ∧ FreeList idp' 0 ∧
      idp'.layers = idp.layers := by
  have hfuel : l < subAllocFuel a := by
    have : maxLevel a ≤ subAllocFuel a := by cases a <;> decide
    omega
  unfold subAlloc
  rw [htop, show idp.layers - 1 = l by omega]
  exact subAllocLoop_found hk l (subAllocFuel a) idp p id [] hfuel hinv hto hfree

lemma subAlloc_full (htop : idp.top = p.ptr) (hlay : idp.layers = l + 1)
    (hlev : l + 1 ≤ maxLevel a - 1) (hfull : p.bitmap = BitVec.allOnes a.bits) :
    ∃ id', subAlloc idp 0 = some (.needToGrow id' idp) ∧ id'.toNat = capacity a l := by
  have hfind : ∀ n, findNextBit (~~~ p.bitmap) (idrSize a) n = idrSize a := by
    intro n
    rw [hfull, idrSize_eq_bits]
    exact findNextBit_not_allOnes n
  have hk : idrBits a * (l + 1) ≤ 30 := by
    rw [mul_comm]
    exact shift_le hlev
  refine ⟨1#32 <<< (idrBits a * (l + 1)), ?_, ?_⟩
  · have hfuel : subAllocFuel a = (subAllocFuel a - 1) + 1 := by
      cases a <;> rfl
    rw [subAlloc, htop, hlay]
    show subAllocLoop (subAllocFuel a) idp p l 0 [] = _
    rw [hfuel, subAllocLoop]
    simp only [hfind, if_true]
    rw [show ({ idp with top := p.ptr } : IdrHandle a α) = idp by
      rw [← htop]]
    congr 2
    rw [show (0 : BitVec 32) = 0#32 from rfl, BitVec.zero_or, BitVec.sub_add_cancel]
  · exact toNat_one_shiftLeft (by omega)

-- == growing

lemma topGuard_iff (hid : id.toNat < 2 ^ 31) (hlev : l + 1 ≤ maxLevel a - 1) :
    (1#32 <<< ((l + 1) * idrBits a)).sle id = true ↔ ¬ id.toNat < capacity a l := by
  have hsh := shift_le hlev
  have hpow : (1#32 <<< ((l + 1) * idrBits a)).toNat = capacity a l := by
    rw [toNat_one_shiftLeft (by omega), capacity, span, mul_comm]
  have hle := capacity_le hlev
  rw [sle_iff_toNat_le (by rw [hpow]; omega) hid, hpow, not_lt]

/-- A new top whose first entry is the old tree holds what that did. -/
lemma stack_spec {new : IdrLayer a α} (bm : BitVec a.bits) (h : LayerInv l p.ptr)
    (hclean : Clean new) (hbm : ∀ i, i ≠ 0 → bm.getLsbD i = new.bitmap.getLsbD i)
    (hbit : bm.getLsbD 0 = true ↔ Full l p.ptr) :
    LayerInv (l + 1) (.layer bm (update new.ary 0 p.ptr) 1 (l + 1)) ∧
      treeMap (l + 1) (.layer bm (update new.ary 0 p.ptr) 1 (l + 1)) = treeMap l p.ptr := by
  obtain ⟨hnew, hempty⟩ := hclean.layerInv (l + 1)
  have hpos : 0 < idrSize a := by cases a <;> decide
  refine ⟨layerInv_setEntry hnew hpos (.inr h) hbm hbit ?_, ?_⟩
  · show (1 : Int) + (if (new.ary 0).isSet then 1 else 0) = new.count + 1
    rw [hclean.2.1 0, hclean.2.2]
    rfl
  funext i
  have hle : capacity a l ≤ capacity a (l + 1) := span_le _ (le_succ _)
  unfold treeMap
  by_cases hi : i < capacity a (l + 1)
  · rw [if_pos hi, lookup_setEntry l 0 new.bitmap bm new.ary new.count 1 (l + 1),
      show lookup (l + 1) (.layer new.bitmap new.ary new.count (l + 1)) i = none from hempty i]
    simp only [digit_eq_zero_iff hi]
  · rw [if_neg hi, if_neg (by omega)]

/-- Layers are added until the tree reaches to `id`, and it holds what it did. -/
lemma growLoop_spec (hid : id.toNat < 2 ^ 30) : ∀ (fuel j l : Nat) (idp : IdrHandle a α)
    (p : IdrLayer a α), LayerInv l p.ptr → l + 1 ≤ maxLevel a - 1 →
    maxLevel a ≤ l + 1 + fuel → FreeList idp (idrFreeMax a - (l + 1)) →
    ∃ idp' p' l', growLoop fuel j idp p (l + 1) id = some (.inr (idp', p', l' + 1)) ∧
      FreeList idp' (idrFreeMax a - (l' + 1)) ∧ LayerInv l' p'.ptr ∧
      l' + 1 ≤ maxLevel a - 1 ∧ id.toNat < capacity a l' ∧
      treeMap l' p'.ptr = treeMap l p.ptr := by
  intro fuel
  induction fuel with
  | zero =>
    intro j l idp p _ hlev hfuel
    omega
  | succ fuel ih =>
    intro j l idp p hinv hlev hfuel hfree
    rw [growLoop]
    by_cases hgrow : l + 1 < maxLevel a - 1 ∧ (1#32 <<< ((l + 1) * idrBits a)).sle id
    · rw [if_pos hgrow]
      by_cases hc : p.count = 0
      · -- the tree is empty: its top is moved upwards
        have hempty := layerInv_empty (empty_of_count_zero hinv hc) hc
        have hlayer : p.layer = l := by
          cases l with
          | zero | succ l => exact hinv.1
        have hnone : treeMap (l + 1) ({ p with layer := l + 1 } : IdrLayer a α).ptr
            = treeMap l p.ptr := by
          funext i
          rw [treeMap, treeMap, (hempty (l + 1)).2, lookup_of_count_zero hinv hc, ite_self,
            ite_self]
        rw [if_pos hc, hlayer, ← hnone]
        exact ih j (l + 1) idp _ (hempty (l + 1)).1 hgrow.1 (by omega) (hfree.mono (by omega))
      · have hsplit : idrFreeMax a - (l + 1) = idrFreeMax a - (l + 1 + 1) + 1 := by
          have : maxLevel a ≤ idrFreeMax a := by cases a <;> decide
          omega
        rw [hsplit] at hfree
        obtain ⟨new, idp', hget, hclean, hfree', -, -⟩ := getFromFreeList_some hfree
        have hpos : 0 < a.bits := by cases a <;> decide
        rw [if_neg hc, hget]
        dsimp only
        by_cases hfull : p.bitmap = BitVec.allOnes a.bits
        · obtain ⟨hinv', hmap⟩ := stack_spec (setBit 0 new.bitmap) hinv hclean
            (fun i hi => by simp [getLsbD_setBit hpos, hi.symm])
            (by simp [getLsbD_setBit hpos, ← bitmap_full_iff hinv, hfull])
          rw [if_pos hfull, ← hmap]
          exact ih (j + 1) (l + 1) idp' _ hinv' hgrow.1 (by omega) hfree'
        · obtain ⟨hinv', hmap⟩ := stack_spec new.bitmap hinv hclean (fun _ _ => rfl)
            (by simp [hclean.1, ← bitmap_full_iff hinv, hfull])
          rw [if_neg hfull, ← hmap]
          exact ih (j + 1) (l + 1) idp' _ hinv' hgrow.1 (by omega) hfree'
    · rw [if_neg hgrow]
      refine ⟨idp, p, l, rfl, hfree, hinv, hlev, ?_, rfl⟩
      rw [topGuard_iff (by omega) hlev] at hgrow
      by_cases hmax : l + 1 = maxLevel a - 1
      · rw [capacity, hmax, span, bits_mul_maxLevel]
        exact hid
      · by_contra hge
        exact hgrow ⟨by omega, hge⟩

-- == the id found

/-- `idr_get_empty_slot` has found the place of `k`. -/
def FindsSlot (idp : IdrHandle a α) (k : Nat) (r : Option (EmptySlot a α)) : Prop :=
  ∃ id' leaf pa' idp', ∃ p : IdrLayer a α, ∃ l, r = some (.found id' leaf pa' idp') ∧
    id'.toNat = k ∧ Found l p [] id' leaf pa' ∧ FreeList idp' 0 ∧ idp'.layers = l + 1 ∧
    l + 1 ≤ maxLevel a - 1 ∧ k < capacity a l ∧ treeMap l p.ptr = absMap idp

section

variable (h : HandleInv idp) (hfree : FreeList idp (idrFreeMax a - idp.layers))
include h hfree

/-- A round of `idr_get_empty_slot`: the tree is grown until it reaches to
`id`, and is searched. -/
lemma idrGetEmptySlot_round (hid : id.toNat < 2 ^ 30) (fuel : Nat) :
    ∃ idp1, ∃ p : IdrLayer a α, ∃ l, idp1.top = p.ptr ∧ idp1.layers = l + 1 ∧
      l + 1 ≤ maxLevel a - 1 ∧ LayerInv l p.ptr ∧
      FreeList idp1 (idrFreeMax a - (l + 1)) ∧ id.toNat < capacity a l ∧
      treeMap l p.ptr = absMap idp ∧
      idrGetEmptySlot (fuel + 1) idp id = match subAlloc idp1 id with
          | none => none
          | some (.needToGrow id idp) => idrGetEmptySlot fuel idp id
          | some (.found id leaf pa idp) => some (.found id leaf pa idp)
          | some (.nomoreSpace idp) => some (.failed (-3) idp)
          | some (.noLayer idp) => some (.failed (-1) idp) := by
  have hmax : maxLevel a + 2 ≤ idrFreeMax a ∧ 2 ≤ maxLevel a := by cases a <;> decide
  have hround := idrGetEmptySlot.eq_2 idp id fuel
  rcases h.tree with ⟨htop, hlay⟩ | ⟨l, hlay, hlev, hinv⟩
  · rw [hlay, show idrFreeMax a - 0 = idrFreeMax a - (0 + 1) + 1 by omega] at hfree
    obtain ⟨new, idp0, hget, hclean, hfree0, -, -⟩ := getFromFreeList_some hfree
    obtain ⟨hnew, hempty⟩ := hclean.layerInv 0
    obtain ⟨idp1, p, l, hgrow, hfree1, hp, hlev, hcap, hmap⟩ :=
      growLoop_spec hid (maxLevel a) 0 0 idp0 _ hnew (by omega) (by omega) hfree0
    refine ⟨{ idp1 with top := p.ptr, layers := l + 1 }, p, l, rfl, rfl, hlev, hp,
      ⟨hfree1.clean, hfree1.count, hfree1.enough⟩, hcap, hmap.trans ?_, ?_⟩
    · funext i
      rw [treeMap, hempty, ite_self, absMap_of_null htop]
    · simp only [htop, hget, Option.map_some, hgrow] at hround
      exact hround
  · obtain ⟨p0, htop, -⟩ := hinv.exists_layer
    rw [htop] at hinv
    rw [hlay] at hfree
    obtain ⟨idp1, p, l', hgrow, hfree1, hp, hlev', hcap, hmap⟩ :=
      growLoop_spec hid (maxLevel a) 0 l idp p0 hinv hlev (by omega) hfree
    refine ⟨{ idp1 with top := p.ptr, layers := l' + 1 }, p, l', rfl, rfl, hlev', hp,
      ⟨hfree1.clean, hfree1.count, hfree1.enough⟩, hcap, hmap.trans ?_, ?_⟩
    · rw [absMap_of_layers _ hlay, htop]
    · rw [htop, hlay] at hround
      simp only [IdrLayer.ptr, hgrow] at hround
      exact hround

lemma idrGetEmptySlot_self (hid : id.toNat < 2 ^ 30)
    (hnone : absMap idp id.toNat = none) (fuel : Nat) :
    FindsSlot idp id.toNat (idrGetEmptySlot (fuel + 1) idp id) := by
  obtain ⟨idp1, p, l, htop, hlay, hlev, hp, hfree1, hcap, hmap, hround⟩ :=
    idrGetEmptySlot_round h hfree hid fuel
  have hto : Toward l p.ptr id.toNat id.toNat := by
    refine ⟨?_, le_rfl, rfl, fun hne => absurd rfl hne⟩
    rw [← hmap, treeMap_of_lt hcap] at hnone
    exact hnone
  obtain ⟨id', leaf, pa', idp', hsub, hid', hfound, hfree', hlay'⟩ :=
    subAlloc_found hid htop hlay hlev hp hto (hfree1.mono (free_enough hlev))
  refine ⟨id', leaf, pa', idp', p, l, ?_, hid', hfound, hfree', hlay'.trans hlay, hlev, hcap, hmap⟩
  rw [hround, hsub]

lemma idrGetEmptySlot_least (hk : k < 2 ^ 30)
    (hnone : absMap idp k = none) (hleast : ∀ j, j < k → absMap idp j ≠ none) (fuel : Nat) :
    FindsSlot idp k (idrGetEmptySlot (fuel + 2) idp 0) := by
  obtain ⟨idp1, p, l, htop, hlay, hlev, hp, hfree1, -, hmap, hround⟩ :=
    idrGetEmptySlot_round h hfree (by decide : (0 : BitVec 32).toNat < 2 ^ 30) (fuel + 1)
  rw [hround]
  by_cases hcap : k < capacity a l
  · have hlook : ∀ j, j ≤ k → lookup l p.ptr j = absMap idp j := by
      intro j hj
      rw [← hmap, treeMap_of_lt (by omega)]
    have hto : Toward l p.ptr (0 : BitVec 32).toNat k := by
      refine ⟨(hlook k le_rfl).trans hnone, Nat.zero_le _, ?_, fun _ j _ hj => ?_⟩
      · rw [div_eq_of_lt hcap]
        exact Nat.zero_div _
      · rw [hlook j hj.le]
        exact hleast j hj
    obtain ⟨id', leaf, pa', idp', hsub, hid', hfound, hfree', hlay'⟩ :=
      subAlloc_found hk htop hlay hlev hp hto (hfree1.mono (free_enough hlev))
    exact ⟨id', leaf, pa', idp', p, l, by rw [hsub], hid', hfound, hfree', hlay'.trans hlay, hlev,
      hcap, hmap⟩
  · -- the tree is full: the id after it is `k`, and a second round grows to it
    have hfull : Full l p.ptr := by
      intro i
      have hi := mod_lt i (capacity_pos a l)
      rw [← lookup_mod]
      have hne := hleast (i % capacity a l) (by omega)
      rw [← hmap, treeMap_of_lt hi] at hne
      exact hne
    obtain ⟨id', hsub, hid'⟩ := subAlloc_full htop hlay hlev ((bitmap_full_iff hp).mpr hfull)
    have hsame : absMap idp1 = absMap idp := by rw [← hmap, absMap_of_layers _ hlay, htop]
    have hidk : id'.toNat = k := by
      by_contra hne
      refine hleast id'.toNat (by omega) ?_
      rw [← hmap, treeMap, if_neg (by omega)]
    rw [hsub]
    have hinv1 : HandleInv idp1 := ⟨.inr ⟨l, hlay, hlev, htop ▸ hp⟩, hfree1.mono (Nat.zero_le _)⟩
    have hslot := idrGetEmptySlot_self hinv1 (hlay ▸ hfree1) (by omega : id'.toNat < 2 ^ 30)
      (by rw [hsame, hidk]; exact hnone) fuel
    rw [FindsSlot, hsame, hidk] at hslot
    exact hslot

end

-- == idr_get_new

lemma idrGetNewAbove_of_found (ptr : Option α)
    (h : FindsSlot idp k (idrGetEmptySlot buildUpFuel idp id)) :
    ∃ idp', idrGetNewAbove idp ptr id = some (0, some (k : Int), idp') ∧ HandleInv idp' ∧
      ∀ i, absMap idp' i = if i = k then some ptr else absMap idp i := by
  obtain ⟨id', leaf, pa', idp', p, l, hslot, hid, hfound, hfree, hlay, hlev, hlt, hmap⟩ := h
  have hcap := capacity_le hlev
  obtain ⟨p', hp', hlook, hmark⟩ := hfound ptr
  have hint : id'.toInt = (k : Int) := by rw [BitVec.toInt_eq_toNat_of_lt (by omega), hid]
  refine ⟨{ idp' with top := p'.ptr }, ?_,
    ⟨.inr ⟨l, hlay, hlev, hp'⟩, ⟨hfree.clean, hfree.count, hfree.enough⟩⟩, fun i => ?_⟩
  · rw [idrGetNewAbove, idrGetNewAboveInt, hslot]
    show (if id'.toInt < 0 then _ else _) = _
    rw [hint, if_neg (by omega)]
    have : (idrMarkFull (install leaf id' ptr) id' pa').ptr = p'.ptr := by
      rw [hmark]
      rfl
    simp only [install] at this
    rw [this]
  · rw [absMap_of_layers { idp' with top := p'.ptr } hlay, ← hmap]
    exact treeMap_set hlt (hid ▸ hlook) i

/-- `idr_get_new` with room for one more id succeeds, returns the least id
not in the map, and adds exactly that id. -/
lemma idrGetNew_spec (h : HandleInv idp) (hfree : FreeList idp (idrFreeMax a)) (hk : k < 2 ^ 30)
    (hnone : absMap idp k = none) (hleast : ∀ j, j < k → absMap idp j ≠ none) (ptr : Option α) :
    ∃ idp', idrGetNew idp ptr = some (0, some (k : Int), idp') ∧ HandleInv idp' ∧
      ∀ i, absMap idp' i = if i = k then some ptr else absMap idp i :=
  idrGetNewAbove_of_found ptr (idrGetEmptySlot_least h (hfree.mono (sub_le _ _)) hk hnone hleast _)

end BoardStack.Idr
