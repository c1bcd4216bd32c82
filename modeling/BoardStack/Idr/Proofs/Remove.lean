/-
`idr_remove` deletes exactly the id it is given; `idr_find` and `idr_replace` read
the map a handle represents.

`sub_remove` clears the bits on the path before it knows whether the id is
allocated, and frees emptied layers on the way back up. Both are local facts
about one entry of a layer, so the walk is one induction whose step is
`layerInv_setEntry`; a layer whose `count` reached zero holds nothing
(`lookup_of_count_zero`), so freeing it changes no lookup.

`idr_find` and `idr_replace` mask the id with `MAX_ID_MASK` and refuse an id the
tree is too low for before walking down; `topGuard_iff` says that this test is
exactly "the id is outside the tree". A stored NULL is found as NULL, so what
`idr_find` returns is the map's value with "absent" and "NULL" identified.
-/
import BoardStack.Idr.Proofs.GetNew

namespace BoardStack.Idr

open Base Function Bool

variable {a : WordSize} {α : Type}
variable {id : BitVec 32} {bm : BitVec a.bits} {idp : IdrHandle a α}
  {l ly : Nat} {ary : Nat → Slot a α}

-- == removal

/-- What `sub_remove` leaves in the slot it was called on: NULL when the last
entry went, else a layer that keeps the invariant; in both cases the one id
is gone and nothing else. -/
structure Removed (l i : Nat) (p q : Slot a α) (emptied : Bool) : Prop where
  inv : (emptied = true ∧ q = .null) ∨ (emptied = false ∧ LayerInv l q)
  look : ∀ j, lookup l q j = if j % capacity a l = i % capacity a l then none else lookup l p j

lemma removed_of_layer {i : Nat} {p : Slot a α} {c : Int} (hinv : LayerInv l (.layer bm ary c ly))
    (hlook : ∀ j, lookup l (.layer bm ary c ly) j
      = if j % capacity a l = i % capacity a l then none else lookup l p j) :
    ∃ q emptied, (if c = 0 then some ((.null : Slot a α), true, true)
        else some (.layer bm ary c ly, false, true))
        = some (q, emptied, true) ∧ Removed l i p q emptied := by
  by_cases hc : c = 0
  · subst hc
    refine ⟨.null, true, by simp, ⟨.inl ⟨rfl, rfl⟩, fun j => ?_⟩⟩
    rw [lookup_null, ← hlook]
    exact (lookup_of_count_zero (p := ⟨bm, ary, 0, ly⟩) hinv rfl j).symm
  · exact ⟨_, false, by rw [if_neg hc], ⟨.inr ⟨rfl, hinv⟩, hlook⟩⟩

lemma subRemove_spec (hid : id.toNat < 2 ^ 31) :
    ∀ (l : Nat) (p : Slot a α), LayerInv l p → lookup l p id.toNat ≠ none →
      ∃ q emptied, subRemove id l p = some (q, emptied, true) ∧ Removed l id.toNat p q emptied := by
  intro l
  induction l with
  | zero =>
    intro p hinv halloc
    cases p with
    | null | user v => exact hinv.elim
    | layer bm ary c ly =>
      have hbit := (lookup_leaf_ne_none hinv _).mp halloc
      have hn := digit_lt_size a 0 id.toNat
      have hnw := idrSize_eq_bits a ▸ hn
      obtain ⟨hinv', hlook'⟩ := leaf_set (clearBit (digit a 0 id.toNat) bm) .null (c - 1)
        hinv hn (by simp [Slot.toUser])
        (fun i hi => by simp [getLsbD_clearBit hnw, hi.symm]) (fun _ => rfl)
        (by simp [hbit, getLsbD_clearBit hnw])
      simp only [getLsbD_clearBit hnw, decide_true, Bool.not_true, Bool.and_false,
        false_eq_true, if_false] at hlook'
      rw [subRemove, slotOf_zero hid]
      simp only [hbit, if_true]
      exact removed_of_layer hinv' (digit_zero a id.toNat ▸ hlook')
  | succ l ih =>
    intro p hinv halloc
    cases p with
    | null | user v => exact hinv.elim
    | layer bm ary c ly =>
      have hn := digit_lt_size a (l + 1) id.toNat
      have hnw : digit a (l + 1) id.toNat < a.bits := idrSize_eq_bits a ▸ hn
      rw [lookup_succ_layer] at halloc
      have hchild : LayerInv l (ary (digit a (l + 1) id.toNat)) := by
        rcases hinv.2.1 _ hn with hnull | h
        · rw [hnull, lookup_null] at halloc
          exact absurd rfl halloc
        · exact h
      obtain ⟨q, emptied, hsub, hrem⟩ := ih _ hchild halloc
      have hnot : ¬ Full l q := fun hf => hf id.toNat (by
        rw [hrem.look, if_pos rfl])
      have hq : q = .null ∨ LayerInv l q := by
        rcases hrem.inv with ⟨-, h⟩ | ⟨-, h⟩
        · exact .inl h
        · exact .inr h
      -- the layer with the entry replaced, whatever its `count`
      have hset : ∀ c' : Int, c' + 1 = c + (if q.isSet then 1 else 0) → LayerInv (l + 1)
            (.layer (clearBit (digit a (l + 1) id.toNat) bm)
              (update ary (digit a (l + 1) id.toNat) q) c' ly) :=
          by
        intro c' hc'
        refine layerInv_setEntry hinv hn hq ?_ ?_ ?_
        · intro i hi
          simp [getLsbD_clearBit hnw, hi.symm]
        · simp [getLsbD_clearBit hnw, hnot]
        · rw [hchild.isSet]
          exact hc'
      rw [subRemove, slotOf_eq_digit hid]
      simp only [hsub]
      rcases hrem.inv with ⟨rfl, rfl⟩ | ⟨rfl, hinvq⟩
      · exact removed_of_layer (hset (c - 1) (by simp [Slot.isSet]))
          (lookup_setPath hrem.look _ (c - 1))
      · refine ⟨_, false, rfl, ⟨.inr ⟨rfl, hset c ?_⟩, lookup_setPath hrem.look _ c⟩⟩
        rw [hinvq.isSet]
        rfl

/-- `sub_remove` of an id whose place in the tree is free leaves the tree: the
bits on the path were clear, since no subtree on it is full. -/
lemma subRemove_absent (hid : id.toNat < 2 ^ 31) :
    ∀ (l : Nat) (p : Slot a α), LayerInv l p → lookup l p id.toNat = none →
      subRemove id l p = some (p, false, false) := by
  intro l
  induction l with
  | zero =>
    intro p hinv habsent
    cases p with
    | null | user v => exact hinv.elim
    | layer bm ary c ly =>
      have hbit : ¬bm.getLsbD (digit a 0 id.toNat) = true := fun hbit =>
        (lookup_leaf_ne_none hinv _).mpr hbit habsent
      rw [subRemove, slotOf_zero hid]
      exact if_neg hbit
  | succ l ih =>
    intro p hinv habsent
    cases p with
    | null | user v => exact hinv.elim
    | layer bm ary c ly =>
      have hn := digit_lt_size a (l + 1) id.toNat
      have hsub : subRemove id l (ary (digit a (l + 1) id.toNat))
          = some (ary (digit a (l + 1) id.toNat), false, false) := by
        rcases hinv.2.1 _ hn with hnull | hchild
        · rw [hnull, subRemove]
        · exact ih _ hchild habsent
      have hclear : bm.getLsbD (digit a (l + 1) id.toNat) = false :=
        eq_false_iff.mpr fun hbit =>
          (hinv.2.2.1 _ hn).mp hbit id.toNat habsent
      rw [subRemove, slotOf_eq_digit hid]
      simp only [hsub, false_eq_true, if_false, update_eq_self,
        clearBit_of_clear (idrSize_eq_bits a ▸ hn) hclear]

lemma trimFreeList_spec : ∀ (fuel : Nat) (idp : IdrHandle a α),
    FreeList idp 0 → FreeList (trimFreeList fuel idp) 0 ∧ (trimFreeList fuel idp).top = idp.top ∧
      (trimFreeList fuel idp).layers = idp.layers := by
  intro fuel
  induction fuel with
  | zero => exact fun idp h => ⟨h, rfl, rfl⟩
  | succ fuel ih =>
    intro idp h
    rw [trimFreeList]
    split
    · next hge =>
      have hpos : 0 < idrFreeMax a := by cases a <;> decide
      have hcount := h.count
      obtain ⟨new, idp', hget, -, hfree, htop, hlay⟩ :=
        getFromFreeList_some (n := 0) ⟨h.clean, h.count, by omega⟩
      obtain ⟨h1, h2, h3⟩ := ih idp' hfree
      rw [hget]
      exact ⟨h1, h2.trans htop, h3.trans hlay⟩
    · exact ⟨h, rfl, rfl⟩

lemma and_maxIdMask (h : id.toNat < 2 ^ 31) : id &&& maxIdMask = id := by
  refine BitVec.eq_of_toNat_eq ?_
  rw [show maxIdMask = BitVec.ofNat 32 (2 ^ 31 - 1) by decide,
    toNat_and_mask _ (by decide), Nat.mod_eq_of_lt h]

-- == the handle

variable {idp' : IdrHandle a α}

lemma treeInv_congr (htop : idp'.top = idp.top)
    (hlay : idp'.layers = idp.layers) : TreeInv idp' ↔ TreeInv idp := by
  rw [TreeInv, TreeInv, htop, hlay]

lemma absMap_congr (htop : idp'.top = idp.top)
    (hlay : idp'.layers = idp.layers) : absMap idp' = absMap idp := by
  funext i
  rw [absMap, absMap, htop, hlay]

/-- A layer whose only used entry is the first holds what that entry does,
as far as it reaches. -/
lemma lookup_of_single {i : Nat} (h : LayerInv (l + 1) (.layer bm ary 1 ly))
    (hfirst : (ary 0).isSet = true) (hi : i < capacity a (l + 1)) :
    lookup (l + 1) (.layer bm ary 1 ly) i
      = if i < capacity a l then lookup l (ary 0) i else none := by
  have hsize : 0 < idrSize a := by cases a <;> decide
  -- without that entry nothing is left
  have hrest := empty_of_count_zero (p := ⟨clearBit 0 bm, update ary 0 .null, 0, ly⟩)
    (layerInv_setEntry h hsize (.inl rfl)
      (fun i hi => by simp [getLsbD_clearBit (idrSize_eq_bits a ▸ hsize), hi.symm])
      (by simp [getLsbD_clearBit (idrSize_eq_bits a ▸ hsize), not_full_null])
      (by rw [hfirst]; rfl)) rfl
  rw [lookup_succ_layer]
  by_cases hlt : i < capacity a l
  · rw [if_pos hlt, (digit_eq_zero_iff hi).mpr hlt]
  · have hnull := (hrest _ (digit_lt_size a (l + 1) i)).2
    rw [if_neg hlt]
    rw [← digit_eq_zero_iff hi] at hlt
    rw [show ary _ = .null from (update_of_ne hlt _ _).symm.trans hnull, lookup_null]

lemma shrinkTop_spec (h : TreeInv idp) :
    TreeInv (shrinkTop idp) ∧ absMap (shrinkTop idp) = absMap idp ∧
      (shrinkTop idp).idFree = idp.idFree ∧
      (shrinkTop idp).idFreeCnt = idp.idFreeCnt := by
  rcases h with ⟨htop, hlay⟩ | ⟨l, hlay, hlev, hinv⟩
  · have hsame : shrinkTop idp = idp := by rw [shrinkTop, htop]
    rw [hsame]
    exact ⟨.inl ⟨htop, hlay⟩, rfl, rfl, rfl⟩
  have hkeep : TreeInv idp := .inr ⟨l, hlay, hlev, hinv⟩
  obtain ⟨⟨bm, ary, c, ly⟩, htop, -⟩ := hinv.exists_layer
  replace htop : idp.top = .layer bm ary c ly := htop
  rw [htop] at hinv
  by_cases hone : c = 1 ∧ 1 < idp.layers
  · obtain ⟨l, rfl⟩ : ∃ m, l = m + 1 := ⟨l - 1, by omega⟩
    obtain ⟨rfl, -⟩ := hone
    have hsize : 0 < idrSize a := by cases a <;> decide
    rcases hinv.2.1 0 hsize with hnull | hchild
    · have hsame : shrinkTop idp = idp := by
        rw [shrinkTop, htop]
        simp only [hnull, ite_self]
      rw [hsame]
      exact ⟨hkeep, rfl, rfl, rfl⟩
    have hdrop : shrinkTop idp = { idp with top := ary 0, layers := l + 1 } := by
      obtain ⟨q, hq, -⟩ := hchild.exists_layer
      rw [shrinkTop, htop]
      simp only [hlay, hq, IdrLayer.ptr]
      simp
    rw [hdrop]
    refine ⟨.inr ⟨l, rfl, by omega, hchild⟩, ?_, rfl, rfl⟩
    rw [absMap_of_layers idp hlay, absMap_of_layers _ (l := l) rfl, htop]
    funext i
    unfold treeMap
    by_cases hi : i < capacity a (l + 1)
    · rw [if_pos hi, lookup_of_single hinv hchild.isSet hi]
    · have hle : capacity a l ≤ capacity a (l + 1) := span_le _ (Nat.le_succ _)
      rw [if_neg hi, if_neg (by omega)]
  · have hsame : shrinkTop idp = idp := by
      rw [shrinkTop, htop]
      simp only [if_neg hone]
    rw [hsame]
    exact ⟨hkeep, rfl, rfl, rfl⟩

lemma handleInv_trim (htree : TreeInv idp) (hfree : FreeList idp 0) :
    HandleInv (trimFreeList (shrinkTop idp).idFreeCnt (shrinkTop idp)) ∧
      absMap (trimFreeList (shrinkTop idp).idFreeCnt (shrinkTop idp)) = absMap idp := by
  obtain ⟨htree, hmap, hlist, hcnt⟩ := shrinkTop_spec htree
  obtain ⟨hfree', htop, hlay⟩ := trimFreeList_spec (shrinkTop idp).idFreeCnt (shrinkTop idp)
      ⟨by rw [hlist]; exact hfree.clean, by rw [hlist, hcnt]; exact hfree.count, Nat.zero_le _⟩
  exact ⟨⟨(treeInv_congr htop hlay).mpr htree, hfree'⟩, (absMap_congr htop hlay).trans hmap⟩

lemma idrRemove_spec (h : HandleInv idp) (hid : id.toNat < 2 ^ 31)
    (halloc : absMap idp id.toNat ≠ none) :
    ∃ idp', idrRemove idp id = some idp' ∧ HandleInv idp' ∧
      ∀ i, absMap idp' i = if i = id.toNat then none else absMap idp i := by
  rcases h.tree with ⟨htop, -⟩ | ⟨l, hlay, hlev, hinv⟩
  · exact absurd (absMap_of_null htop _) halloc
  rw [absMap_of_layers idp hlay] at halloc
  have hlt : id.toNat < capacity a l := by
    by_contra hge
    exact halloc (if_neg hge)
  rw [treeMap_of_lt hlt] at halloc
  obtain ⟨q, emptied, hsub, hrem⟩ := subRemove_spec hid l _ hinv halloc
  -- the handle `sub_remove` leaves behind
  let mid : IdrHandle a α := { idp with top := q, layers := if emptied then 0 else idp.layers }
  have hfree : FreeList mid 0 := ⟨h.free.clean, h.free.count, Nat.zero_le _⟩
  have hmid : TreeInv mid ∧ ∀ i, absMap mid i = if i = id.toNat then none else absMap idp i := by
    rw [absMap_of_layers idp hlay]
    rcases hrem.inv with ⟨rfl, rfl⟩ | ⟨rfl, hinvq⟩
    · refine ⟨.inl ⟨rfl, rfl⟩, fun i => ?_⟩
      rw [absMap_of_null rfl, ← treeMap_set hlt hrem.look, treeMap, lookup_null, ite_self]
    · refine ⟨.inr ⟨l, hlay, hlev, hinvq⟩, fun i => ?_⟩
      rw [absMap_of_layers mid (l := l) hlay]
      exact treeMap_set hlt hrem.look i
  obtain ⟨hinv', hmap⟩ := handleInv_trim hmid.1 hfree
  refine ⟨_, ?_, hinv', fun i => by rw [hmap, hmid.2]⟩
  rw [idrRemove]
  simp only [and_maxIdMask hid, hlay, Nat.add_sub_cancel, hsub]
  simp only [mid, hlay]

lemma idrRemove_absent (h : HandleInv idp) (hid : id.toNat < 2 ^ 31)
    (habsent : absMap idp (id.toNat % capacity a (idp.layers - 1)) = none) :
    ∃ idp', idrRemove idp id = some idp' ∧ HandleInv idp' ∧ absMap idp' = absMap idp := by
  have hsub : subRemove id (idp.layers - 1) idp.top = some (idp.top, false, false) := by
    rcases h.tree with ⟨htop, -⟩ | ⟨l, hlay, -, hinv⟩
    · rw [htop, subRemove]
    · rw [hlay, Nat.add_sub_cancel, absMap_of_layers idp hlay,
        treeMap_of_lt (Nat.mod_lt _ (capacity_pos a l)), lookup_mod] at habsent
      rw [hlay, Nat.add_sub_cancel]
      exact subRemove_absent hid l _ hinv habsent
  obtain ⟨hinv, hmap⟩ := handleInv_trim h.tree h.free
  refine ⟨_, ?_, hinv, hmap⟩
  rw [idrRemove]
  simp only [and_maxIdMask hid, hsub]
  rfl

variable {a : WordSize} {α : Type} {id : BitVec 32}

-- == find

lemma findLoop_spec (hid : id.toNat < 2 ^ 31) :
    ∀ (l : Nat) (p : Slot a α), p = .null ∨ LayerInv l p → ∃ s, findLoop id (l + 1) p = some s ∧
        s.toUser = some (lookup l p id.toNat).join := by
  intro l
  induction l with
  | zero =>
    rintro p (rfl | hinv)
    · exact ⟨.null, rfl, by simp [Slot.toUser]⟩
    obtain ⟨⟨bm, ary, c, ly⟩, rfl, hly⟩ := hinv.exists_layer
    replace hly : ly = 0 := hly
    have hlt := digit_lt_size a 0 id.toNat
    refine ⟨ary (digit a 0 id.toNat), ?_, ?_⟩
    · rw [IdrLayer.ptr, findLoop, hly, slotOf_eq_digit hid]
      rfl
    rw [IdrLayer.ptr, lookup_zero_layer]
    by_cases hb : bm.getLsbD (digit a 0 id.toNat) = true
    · obtain ⟨v, hv⟩ := Option.ne_none_iff_exists'.mp (hinv.2.1 _ hlt)
      simp [hb, hv]
    · have hnull : ary (digit a 0 id.toNat) = .null := hinv.2.2.1 _ hlt (by simpa using hb)
      simp [hb, hnull, Slot.toUser]
  | succ l ih =>
    rintro p (rfl | hinv)
    · exact ⟨.null, rfl, by simp [Slot.toUser]⟩
    obtain ⟨⟨bm, ary, c, ly⟩, rfl, hly⟩ := hinv.exists_layer
    replace hly : ly = l + 1 := hly
    obtain ⟨s, hs, hu⟩ := ih _ (hinv.2.1 _ (digit_lt_size a (l + 1) id.toNat))
    refine ⟨s, ?_, ?_⟩
    · rw [IdrLayer.ptr, findLoop, hly, slotOf_eq_digit hid, if_neg (by simp)]
      exact hs
    · rw [IdrLayer.ptr, lookup_succ_layer]
      exact hu

variable {idp : IdrHandle a α}

lemma idrFind_spec (h : TreeInv idp) (id : BitVec 32) (hid : id.toNat < 2 ^ 31) :
    idrFind idp id = some (absMap idp id.toNat).join := by
  rcases h with ⟨htop, -⟩ | ⟨l, hlay, hlev, hinv⟩
  · rw [absMap_of_null htop, idrFind, htop]
    rfl
  obtain ⟨⟨bm, ary, c, ly⟩, htop : idp.top = .layer bm ary c ly, rfl⟩ := hinv.exists_layer
  rw [absMap_of_layers idp hlay, treeMap, idrFind, htop]
  simp only [and_maxIdMask hid, topGuard_iff hid hlev]
  by_cases hlt : id.toNat < capacity a ly
  · obtain ⟨s, hs, hu⟩ := findLoop_spec hid ly _ (.inr hinv)
    rw [htop] at hs hu
    have hpos : (ly + 1) * idrBits a ≠ 0 := ne_of_gt (Nat.mul_pos (Nat.succ_pos _) (bits_pos a))
    simp only [hlt, not_true_eq_false, if_false, if_true, hpos, hs, hu]
  · simp only [hlt, not_false_eq_true, if_true, if_false]
    rfl

-- == replace

/-- What the walk of `idr_replace` leaves behind: for an id that is held, the
old pointer and a subtree that differs at that id; for another, an error and
the subtree unchanged. -/
structure Replaced (l i : Nat) (ptr : Option α) (p q : Slot a α)
    (r : Except Int (Option α)) : Prop where
  held : ∀ old, lookup l p i = some old → r = .ok old ∧ LayerInv l q ∧ ∀ j, lookup l q j
      = if j % capacity a l = i % capacity a l then some ptr
        else lookup l p j
  absent : lookup l p i = none → r = .error (-ENOENT) ∧ q = p

lemma replaceLoop_spec (hid : id.toNat < 2 ^ 31) (ptr : Option α) :
    ∀ (l : Nat) (p : Slot a α), p = .null ∨ LayerInv l p →
      ∃ r q, replaceLoop id ptr l p = some (r, q) ∧ Replaced l id.toNat ptr p q r := by
  intro l
  induction l with
  | zero =>
    rintro p (rfl | hinv)
    · exact ⟨_, _, by rw [replaceLoop], ⟨fun old hold => by simp at hold, fun _ => ⟨rfl, rfl⟩⟩⟩
    obtain ⟨⟨bm, ary, c, ly⟩, rfl, -⟩ := hinv.exists_layer
    replace hinv : LayerInv 0 (.layer bm ary c ly) := hinv
    have hlt := digit_lt_size a 0 id.toNat
    rw [IdrLayer.ptr, replaceLoop, slotOf_zero hid]
    by_cases hb : bm.getLsbD (digit a 0 id.toNat) = true
    · obtain ⟨old, hold⟩ := Option.ne_none_iff_exists'.mp (hinv.2.1 _ hlt)
      obtain ⟨hinv', hlook⟩ := leaf_set bm (.ofUser ptr) c hinv hlt (by simp) (fun _ _ => rfl)
        (by simp [hb]) rfl
      simp only [if_pos hb, toUser_ofUser] at hlook
      have hlk : lookup 0 (.layer bm ary c ly) id.toNat = some old := by
        rw [lookup_zero_layer, if_pos hb, hold]
      refine ⟨.ok old, _, by simp only [hb, if_true, hold]; rfl, ?_, ?_⟩
      · intro old' hold'
        cases hlk.symm.trans hold'
        rw [← digit_zero]
        exact ⟨rfl, hinv', hlook⟩
      · simp [hlk]
    · have hlk : lookup 0 (.layer bm ary c ly) id.toNat = none := by
        rw [lookup_zero_layer, if_neg hb]
      exact ⟨_, _, by simp only [hb]; rfl, by simp [hlk], fun _ => ⟨rfl, rfl⟩⟩
  | succ l ih =>
    rintro p (rfl | hinv)
    · exact ⟨_, _, by rw [replaceLoop], ⟨fun old hold => by simp at hold, fun _ => ⟨rfl, rfl⟩⟩⟩
    obtain ⟨⟨bm, ary, c, ly⟩, rfl, -⟩ := hinv.exists_layer
    replace hinv : LayerInv (l + 1) (.layer bm ary c ly) := hinv
    have hn := digit_lt_size a (l + 1) id.toNat
    obtain ⟨r, q, hloop, hrep⟩ := ih _ (hinv.2.1 _ hn)
    rw [IdrLayer.ptr, replaceLoop, slotOf_eq_digit hid]
    refine ⟨r, _, by simp only [hloop]; rfl, ?_, ?_⟩
    · intro old hold
      simp only [lookup_succ_layer] at hold
      obtain ⟨hr, hinvq, hlook⟩ := hrep.held old hold
      have hchild : LayerInv l (ary (digit a (l + 1) id.toNat)) := by
        rcases hinv.2.1 _ hn with hnull | h
        · simp [hnull, lookup_null] at hold
        · exact h
      -- the same ids are held, so the entry's bit stays right
      have hfull : Full l q ↔ Full l (ary (digit a (l + 1) id.toNat)) := by
        refine forall_congr' fun j => ?_
        rw [hlook, ← lookup_mod l _ j]
        split
        · next hj =>
          rw [hj, lookup_mod, hold]
          simp
        · rw [lookup_mod]
      refine ⟨hr, layerInv_setEntry hinv hn (.inr hinvq) (fun _ _ => rfl) ?_ ?_,
        lookup_setPath hlook bm c⟩
      · rw [hfull]
        exact hinv.2.2.1 _ hn
      · rw [hchild.isSet, hinvq.isSet]
    · intro hnone
      obtain ⟨hr, hq⟩ := hrep.absent hnone
      exact ⟨hr, by rw [hq, update_eq_self]⟩

/-- `idr_replace` exchanges the pointer of an id that is held and refuses
any other id, leaving the handle alone. -/
lemma idrReplace_spec (h : HandleInv idp)
    (ptr : Option α) (id : BitVec 32) (hid : id.toNat < 2 ^ 31) :
    (∀ old, absMap idp id.toNat = some old → ∃ idp', idrReplace idp ptr id = some (.ok old, idp') ∧
        HandleInv idp' ∧ ∀ i, absMap idp' i = if i = id.toNat then some ptr else absMap idp i) ∧
    (absMap idp id.toNat = none → ∃ e, e < 0 ∧ idrReplace idp ptr id = some (.error e, idp)) := by
  rcases h.tree with ⟨htop, -⟩ | ⟨l, hlay, hlev, hinv⟩
  · rw [absMap_of_null htop]
    refine ⟨fun _ hold => by simp at hold, fun _ => ⟨-EINVAL, by decide, ?_⟩⟩
    rw [idrReplace, htop]
  obtain ⟨⟨bm, ary, c, ly⟩, htop : idp.top = .layer bm ary c ly, rfl⟩ := hinv.exists_layer
  have hguard := topGuard_iff (a := a) hid hlev
  by_cases hlt : id.toNat < capacity a ly
  · obtain ⟨r, q, hloop, hrep⟩ := replaceLoop_spec hid ptr ly idp.top (.inr hinv)
    have hrun : idrReplace idp ptr id = some (r, { idp with top := q }) := by
      rw [htop] at hloop
      rw [idrReplace, htop]
      simp only [and_maxIdMask hid, hguard, hlt, not_true_eq_false, if_false, hloop]
    simp only [absMap_of_layers idp hlay, treeMap_of_lt hlt, hrun]
    constructor
    · intro old hold
      obtain ⟨rfl, hinvq, hlook⟩ := hrep.held old hold
      refine ⟨_, rfl, ⟨.inr ⟨ly, hlay, hlev, hinvq⟩,
        ⟨h.free.clean, h.free.count, h.free.enough⟩⟩, fun i => ?_⟩
      rw [absMap_of_layers { idp with top := q } hlay]
      exact treeMap_set hlt hlook i
    · intro hnone
      obtain ⟨rfl, rfl⟩ := hrep.absent hnone
      exact ⟨-ENOENT, by decide, rfl⟩
  · rw [absMap_of_layers idp hlay, treeMap, if_neg hlt]
    refine ⟨fun _ hold => by simp at hold, fun _ => ⟨-EINVAL, by decide, ?_⟩⟩
    rw [idrReplace, htop]
    simp only [and_maxIdMask hid, hguard, hlt, not_false_eq_true, if_true]

end BoardStack.Idr
