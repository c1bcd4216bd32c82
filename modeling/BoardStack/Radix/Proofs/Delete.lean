/-
`radix_tree_lookup`, `radix_tree_tag_set`, `radix_tree_tag_clear` and
`radix_tree_delete` against the map a tree holds.

Setting a tag sets the bit of every slot on the path. Clearing one clears the
bit of a slot only when the row of the node below has become empty, and stops
climbing where it has not; `climb` records whether the slot's own bit is
still to be cleared above.

A deletion clears the tags of the item first, so the loop that empties the path
meets an item without tags: a node that loses its last entry then has empty
tag rows as well (`CellInv.empty`), which is why it can be freed zeroed and
why no tag bit above has to change. `radix_tree_shrink` undoes what
`radix_tree_extend` does.
-/
import BoardStack.Radix.Proofs.Insert

namespace BoardStack.Radix

open Base Function Nat Bool BitVec

variable {k : Config} {α : Type}
variable {h i : Nat} {root : Root k α} {own : Tags}

-- == lookup

lemma lookupLoop_spec (index : Index k) :
    ∀ (h : Nat) (own : Tags) (p : Slot k α), CellInv h own p → p.isSet = true → h ≠ 0 →
      ∃ s, lookupLoop index h p = some s ∧
        s.toItem = some ((view h own p index.toNat).map Prod.fst) := by
  refine CellInv.descend ?_ ?_ ?_
  · intro h hset
    cases hset
  · intro own v _ hne
    exact absurd rfl hne
  intro h own height count slots tags hinv ih _ _
  have hd : digit k.mapShift h index.toNat < mapSize k := digit_lt _ _ _
  have hcell := hinv.2.2.1 _ hd
  have hnext := ih _ hd
  rw [lookupLoop, offsetAt_eq_digit, view_node]
  cases hslot : slots (digit k.mapShift h index.toNat) with
  | null => exact ⟨.null, rfl, by rw [view_null]; rfl⟩
  | item v =>
    rw [hslot] at hcell
    cases h with
    | zero => exact ⟨.item v, rfl, rfl⟩
    | succ h => exact hcell.elim
  | node height' count' slots' tags' =>
    rw [hslot] at hcell hnext
    cases h with
    | zero => exact hcell.elim
    | succ h => exact hnext rfl (succ_ne_zero h)

lemma radixTreeLookup_spec (hinv : RootInv root) (index : Index k) :
    radixTreeLookup root index = some ((absMap root index.toNat).map Prod.fst) := by
  unfold radixTreeLookup absMap
  rw [isNull_iff hinv]
  cases hset : root.rnode.ptr.isSet with
  | false => simp [Slot.eq_null_of_isSet hset]
  | true =>
    have hind := hinv.indirect
    rw [hset, Bool.true_and] at hind
    have hcell := hinv.cell
    cases hheight : root.height with
    | zero =>
      rw [hheight] at hind hcell
      cases hptr : root.rnode.ptr with
      | null => simp [hptr, Slot.isSet] at hset
      | node height count slots tags =>
        rw [hptr] at hcell
        exact hcell.elim
      | item v =>
        have hpos : 0#_ < index ↔ ¬ index.toNat < 1 := by
          rw [lt_def]
          simp only [toNat_ofNat, zero_mod]
          omega
        by_cases hlt : index.toNat < 1
        · simp [hind, hpos, hlt, Slot.toItem, span_zero]
        · simp [hind, hpos, hlt, span_zero]
    | succ h =>
      rw [hheight] at hind hcell
      obtain ⟨count, slots, tags, hptr⟩ := hcell.exists_node hset
      have hmaxidx := hinv.maxindex
      rw [hheight] at hmaxidx
      obtain ⟨s, hrun, hs⟩ := lookupLoop_spec index (h + 1) _ _ hcell hset (succ_ne_zero h)
      rw [hptr] at hrun hs ⊢
      simp only [hind, hmaxidx, maxindex_lt_iff, hrun]
      by_cases hlt : index.toNat < span k.mapShift (h + 1)
      · simp [hlt, hs]
      · simp [hlt]

-- == setting a tag

lemma getLsbD_setOnce {d : Nat} (hd : d < mapSize k)
    (tags : Fin maxTags → BitVec (tagBits k)) (tag t : Fin maxTags) (i : Nat) :
    ((if tagsAt tags d tag then tags else tagSet tags tag d) t).getLsbD i
      = ((tags t).getLsbD i || (decide (t = tag) && decide (d = i))) := by
  split
  · next hbit =>
    unfold tagsAt at hbit
    by_cases ht : t = tag
    · by_cases hi : d = i
      · subst ht hi
        simp [hbit]
      · simp [hi]
    · simp [ht]
  · exact getLsbD_tagSet hd tags tag t i

variable {slots : Nat → Slot k α} {x : Option (α × Tags)} {height count : Nat} {tag : Fin maxTags}

/-- One level of setting a tag: the bit of the slot on the path is added to
the node's row. -/
lemma Updated.lift_setTag {d : Nat} {tags tags' : Fin maxTags → BitVec (tagBits k)} {q : Slot k α}
    (hd : digit k.mapShift h i = d) (hinv : CellInv (h + 1) own (.node height count slots tags))
    (hbits : ∀ t j, (tags' t).getLsbD j
      = ((tags t).getLsbD j || (decide (t = tag) && decide (d = j))))
    (hchild : Updated h i (tagsAt tags d) (update (tagsAt tags d) tag true) (slots d) q x)
    (hset : (slots d).isSet = true) (hq : q.isSet = true) :
    Updated (h + 1) i own (update own tag true) (.node height count slots tags)
      (.node height count (update slots d q) tags') x := by
  have hlt : d < mapSize k := hd ▸ digit_lt _ _ _
  have hnew : tagsAt tags' d = update (tagsAt tags d) tag true := by
    funext t
    unfold tagsAt
    rw [hbits, update_apply]
    by_cases ht : t = tag <;> simp [ht]
  have hrange : ∀ t j, mapSize k ≤ j → (tags' t).getLsbD j = false := by
    intro t j hj
    have hne : ¬ d = j := by omega
    rw [hbits, hinv.2.2.2.1 t j hj]
    simp [hne]
  refine Updated.lift hd hinv (hnew ▸ hchild) ?_ (by rw [hset, hq]) ?_
  · intro t j hj
    rw [hbits]
    simp [hj.symm]
  intro t
  rw [tags_ne_zero_iff hrange, update_apply]
  by_cases ht : t = tag
  · rw [if_pos ht]
    refine ⟨fun _ => ⟨_, hlt, ?_⟩, fun _ => rfl⟩
    rw [hnew, ht, update_self]
  · rw [if_neg ht, hinv.2.2.2.2 t, tags_ne_zero_iff hinv.2.2.2.1]
    unfold tagsAt
    simp [hbits, ht]

lemma isSet_of_view {p : Slot k α}
    {x : α × Tags} (hview : view h own p i = some x) : p.isSet = true := by
  cases p with
  | null => simp at hview
  | item v | node height count slots tags => rfl

lemma tagSetLoop_spec (index : Index k) (tag : Fin maxTags) :
    ∀ (h : Nat) (own : Tags) (p : Slot k α), CellInv h own p →
      ∀ (v : α) (tg : Tags), view h own p index.toNat = some (v, tg) →
      ∃ q, tagSetLoop index tag h p = some (q, .item v) ∧ q.isSet = true ∧
        Updated h index.toNat own (update own tag true) p q (some (v, update tg tag true)) := by
  refine CellInv.descend ?_ ?_ ?_
  · intro h v tg hview
    simp at hview
  · intro own w v tg hview
    obtain ⟨rfl, rfl⟩ := hview
    refine ⟨.item w, rfl, rfl, ⟨trivial, fun j => ?_⟩⟩
    simp [span_zero, mod_one]
  intro h own height count slots tags hinv ih v tg hview
  have hd : digit k.mapShift h index.toNat < mapSize k := digit_lt _ _ _
  rw [view_node] at hview
  have hset := isSet_of_view hview
  obtain ⟨q, hrun, hq, hupd⟩ := ih _ hd v tg hview
  rw [tagSetLoop]
  simp only [offsetAt_eq_digit, hset, Bool.not_true, false_eq_true, if_false, hrun]
  exact ⟨_, rfl, rfl, Updated.lift_setTag rfl hinv (getLsbD_setOnce hd tags tag) hupd hset hq⟩

lemma radixTreeTagSet_spec (hinv : RootInv root) {index : Index k} {v : α} {tg : Tags}
    (hheld : absMap root index.toNat = some (v, tg)) (tag : Fin maxTags) :
    ∃ root', radixTreeTagSet root index tag = some (some v, root') ∧
      Changed root root' index.toNat (some (v, update tg tag true)) := by
  have hlt : index.toNat < span k.mapShift root.height := by
    by_contra hge
    simp [absMap, if_neg hge] at hheld
  have hview := hheld
  rw [absMap, if_pos hlt] at hview
  obtain ⟨q, hrun, hq, hupd⟩ := tagSetLoop_spec index tag root.height _ _ hinv.cell v tg hview
  -- the root after the walk, its own bit set if it was not
  let root1 := root.withPtr q
  let root2 := if !rootTagGet root1 tag then rootTagSet root1 tag else root1
  obtain ⟨hheight, hrnode⟩ : root2.height = root.height ∧
      root2.rnode = { root.rnode with ptr := q } := by
    unfold root2
    split <;> exact ⟨rfl, rfl⟩
  have hget : rootTagGet root2 = update (rootTagGet root) tag true := rootTagGet_setOnce root1 tag
  rw [← hget] at hupd
  refine ⟨root2, ?_, hinv.changed hheight hrnode (hq.trans (isSet_of_view hview).symm) hlt hupd⟩
  unfold radixTreeTagSet
  simp only [hinv.maxindex, maxindex_lt_iff, hlt, not_true_eq_false, if_false, hrun]
  rfl

-- == clearing a tag

/-- One level of clearing a tag: the bit of the slot on the path is taken
from the node's row, and the node's own bit falls when the row is empty. -/
lemma Updated.lift_clearTag {d : Nat} {tags : Fin maxTags → BitVec (tagBits k)} {q : Slot k α}
    (hd : digit k.mapShift h i = d) (hinv : CellInv (h + 1) own (.node height count slots tags))
    (hchild : Updated h i (tagsAt tags d) (update (tagsAt tags d) tag false) (slots d) q x)
    (hset : (slots d).isSet = true) (hq : q.isSet = true) :
    Updated (h + 1) i own
      (if !anyTagSet (tagClear tags tag d) tag then update own tag false else own)
      (.node height count slots tags)
      (.node height count (update slots d q) (tagClear tags tag d)) x := by
  have hbits := getLsbD_tagClear (hd ▸ digit_lt k.mapShift h i : d < mapSize k) tags tag
  have hnew : tagsAt (tagClear tags tag d) d = update (tagsAt tags d) tag false := by
    funext t
    unfold tagsAt
    rw [hbits, update_apply]
    by_cases ht : t = tag <;> simp [ht]
  -- the other tag's row is not touched
  have hrow : ∀ t, t ≠ tag → tagClear tags tag d t = tags t := by
    intro t ht
    exact update_of_ne ht _ _
  refine Updated.lift hd hinv (hnew ▸ hchild) ?_ (by rw [hset, hq]) ?_
  · intro t j hj
    rw [hbits]
    simp [hj.symm]
  intro t
  have hown := hinv.2.2.2.2 t
  unfold anyTagSet
  by_cases hrest : tagClear tags tag d tag = 0
  · rw [if_pos (by simp [hrest]), update_apply]
    by_cases ht : t = tag
    · simp [ht, hrest]
    · rw [if_neg ht, hrow t ht]
      exact hown
  rw [if_neg (by simpa using hrest), hown]
  by_cases ht : t = tag
  · subst ht
    refine ⟨fun _ => hrest, fun _ hzero => hrest ?_⟩
    refine eq_of_getLsbD_eq fun j _ => ?_
    rw [hbits, hzero]
    simp
  · rw [hrow t ht]

lemma tagClearLoop_spec (index : Index k) (tag : Fin maxTags) :
    ∀ (h : Nat) (own : Tags) (p : Slot k α), CellInv h own p →
      (∀ v tg, view h own p index.toNat = some (v, tg) →
        ∃ q climb, tagClearLoop index tag h p = some (q, .item v, climb) ∧
          q.isSet = true ∧ Updated h index.toNat own
            (if climb then update own tag false else own) p q (some (v, update tg tag false))) ∧
      (view h own p index.toNat = none → tagClearLoop index tag h p = some (p, .null, false)) := by
  refine CellInv.descend ?_ ?_ ?_
  · exact fun h => ⟨fun v tg hview => by simp at hview, fun _ => by cases h <;> rfl⟩
  · intro own w
    refine ⟨fun v tg hview => ?_, fun hnone => by simp at hnone⟩
    obtain ⟨rfl, rfl⟩ := hview
    refine ⟨.item w, true, rfl, rfl, ⟨trivial, fun j => ?_⟩⟩
    simp [span_zero, mod_one]
  intro h own height count slots tags hinv ih
  have hd : digit k.mapShift h index.toNat < mapSize k := digit_lt _ _ _
  obtain ⟨hheld, hfree⟩ := ih _ hd
  rw [view_node]
  unfold tagClearLoop
  simp only [offsetAt_eq_digit]
  constructor
  · intro v tg hview
    have hset := isSet_of_view hview
    obtain ⟨q, climb, hrun, hq, hupd⟩ := hheld v tg hview
    simp only [hrun]
    by_cases hgo : climb = true ∧ tagsAt tags (digit k.mapShift h index.toNat) tag = true
    · obtain ⟨rfl, hbit⟩ := hgo
      rw [if_pos (by simp [hbit])]
      exact ⟨_, _, rfl, rfl, Updated.lift_clearTag rfl hinv hupd hset hq⟩
    rw [if_neg (by simpa using hgo)]
    refine ⟨_, _, rfl, rfl, ?_⟩
    -- the climb stopped below, or there is no bit to clear here
    have hsame : (if climb then update (tagsAt tags (digit k.mapShift h index.toNat)) tag false
        else tagsAt tags (digit k.mapShift h index.toNat))
        = tagsAt tags (digit k.mapShift h index.toNat) := by
      cases climb with
      | false => rfl
      | true =>
        have hbit : tagsAt tags (digit k.mapShift h index.toNat) tag = false := by
          simpa using hgo
        rw [if_pos rfl, ← hbit, update_eq_self]
    rw [hsame] at hupd
    exact Updated.lift rfl hinv hupd (fun _ _ _ => rfl) (by rw [hset, hq]) hinv.2.2.2.2
  · intro hnone
    simp only [hfree hnone, Bool.false_and, false_eq_true, if_false, update_eq_self]

/-- `radix_tree_tag_clear` clears the tag of an index that is held and
returns NULL for another one, leaving the tree alone. -/
lemma radixTreeTagClear_spec (hinv : RootInv root) (index : Index k) (tag : Fin maxTags) :
    (∀ v tg, absMap root index.toNat = some (v, tg) →
      ∃ root', radixTreeTagClear root index tag = some (some v, root') ∧
        root'.height = root.height ∧
        Changed root root' index.toNat (some (v, update tg tag false))) ∧
    (absMap root index.toNat = none → radixTreeTagClear root index tag = some (none, root)) := by
  unfold radixTreeTagClear
  simp only [hinv.maxindex, maxindex_lt_iff]
  by_cases hlt : index.toNat < span k.mapShift root.height
  · have habs := absMap_of_lt hlt
    obtain ⟨hheld, hfree⟩ := tagClearLoop_spec index tag root.height _ _ hinv.cell
    simp only [habs, hlt, not_true_eq_false, if_false]
    constructor
    · intro v tg hview
      obtain ⟨q, climb, hrun, hq, hupd⟩ := hheld v tg hview
      let root1 := root.withPtr q
      let root2 := if climb && rootTagGet root1 tag then
        rootTagClear root1 tag else root1
      obtain ⟨hheight, hrnode⟩ : root2.height = root.height ∧
          root2.rnode = { root.rnode with ptr := q } := by
        unfold root2
        split <;> exact ⟨rfl, rfl⟩
      have hget : rootTagGet root2 = if climb then
          update (rootTagGet root) tag false
          else rootTagGet root := by
        cases climb with
        | false => rfl
        | true => exact rootTagGet_clearOnce root1 tag
      rw [← hget] at hupd
      refine ⟨root2, ?_, hheight, hinv.changed hheight hrnode
        (hq.trans (isSet_of_view hview).symm) hlt hupd⟩
      simp only [hrun]
      rfl
    · intro hnone
      simp only [hfree hnone, Bool.false_and, false_eq_true, if_false]
      rfl
  · have hnone : absMap root index.toNat = none := if_neg hlt
    refine ⟨fun v tg hsome => ?_, fun _ => by simp [hlt]⟩
    simp [hnone] at hsome

variable {k : Config} {α : Type}
variable {mem : Mem k α} {h : Nat} {root : Root k α} {own : Tags}

-- == freed nodes

lemma CellInv.null_of_isSet {p : Slot k α} (hinv : CellInv h own p) (hset : p.isSet = false) :
    p = .null ∧ own = noTags := by
  have hnull := Slot.eq_null_of_isSet hset
  subst hnull
  exact ⟨rfl, hinv.own_of_null⟩

variable {tags : Fin maxTags → BitVec (tagBits k)} {slots : Nat → Slot k α}

lemma CellInv.empty {height : Nat} (hinv : CellInv (h + 1) own (.node height 0 slots tags)) :
    own = noTags ∧ (∀ i, i < mapSize k → slots i = .null) ∧ ∀ t, tags t = 0 := by
  obtain ⟨-, hcount, hcells, hrange, hown⟩ := hinv
  have hunset := countBelow_eq_zero.mp hcount.symm
  have htags : ∀ t, tags t = 0 := by
    intro t
    by_contra hne
    obtain ⟨d, hd, hbit⟩ := (tags_ne_zero_iff hrange t).mp hne
    have hnone := ((hcells d hd).null_of_isSet (hunset d hd)).2
    rw [hnone] at hbit
    cases hbit
  refine ⟨?_, fun i hi => ((hcells i hi).null_of_isSet (hunset i hi)).1, htags⟩
  funext t
  have hnot : ¬ own t = true := fun ht => (hown t).mp ht (htags t)
  simpa [noTags] using hnot

lemma radixTreeNodeFree_spec {n : Node k α} {m : Nat} (hmem : MemOk mem m)
    (hslots : ∀ i, i < mapSize k → i ≠ 0 → n.slots i = .null)
    (htags : ∀ t i, i ≠ 0 → (n.tags t).getLsbD i = false) :
    MemOk (radixTreeNodeFree n mem) m := by
  refine ⟨?_, ?_⟩
  · intro x hx
    rcases List.mem_cons.mp hx with rfl | hx
    · refine ⟨rfl, ?_, ?_⟩
      · intro i hi
        show update n.slots 0 .null i = .null
        rw [update_apply]
        split
        · rfl
        · next hne => exact hslots i hi hne
      intro t
      refine eq_of_getLsbD_eq fun i _ => ?_
      show (tagClear (tagClear n.tags 0 0) 1 0 t).getLsbD i = _
      have hpos := mapSize_pos k
      rw [getLsbD_tagClear hpos, getLsbD_tagClear hpos,
        show (0 : BitVec (tagBits k)) = 0#_ from rfl, getLsbD_zero]
      by_cases hi : i = 0
      · subst hi
        match t with
        | 0 => simp
        | 1 => simp
      · rw [htags t i hi]
        rfl
    · exact hmem.clean x hx
  · have henough := hmem.enough
    show m ≤ (mem.slab.length + 1) + mem.avail
    omega

-- == shrinking

/-- A node whose only entry is the first holds what that entry does, and its
tag bits are that entry's. -/
lemma single_child {height : Nat} (hinv : CellInv (h + 1) own (.node height 1 slots tags))
    (hset : (slots 0).isSet = true) :
    (∀ i, i < mapSize k → i ≠ 0 → slots i = .null) ∧ (∀ t i, i ≠ 0 → (tags t).getLsbD i = false) ∧
      CellInv h own (slots 0) ∧
      ∀ i, i < span k.mapShift (h + 1) → view (h + 1) own (.node height 1 slots tags) i
          = if i < span k.mapShift h then view h own (slots 0) i
            else none := by
  obtain ⟨-, hcount, hcells, hrange, hown⟩ := hinv
  have hpos := mapSize_pos k
  have hupd := countBelow_update (n := mapSize k) (m := 0) (p := fun i => (slots i).isSet)
    (q := fun i => if i = 0 then false else (slots i).isSet) hpos
    (fun i _ hi => by simp [hi])
  simp only [hset, if_true, false_eq_true, if_false] at hupd
  have hothers : ∀ i, i < mapSize k → i ≠ 0 → slots i = .null := by
    intro i hi hne
    have hunset := countBelow_eq_zero.mp (by omega : countBelow (mapSize k)
        (fun i => if i = 0 then false else (slots i).isSet) = 0) i hi
    simp only [if_neg hne] at hunset
    exact Slot.eq_null_of_isSet hunset
  have hbits : ∀ t i, i ≠ 0 → (tags t).getLsbD i = false := by
    intro t i hne
    by_cases hi : i < mapSize k
    · have hcell := hcells i hi
      rw [hothers i hi hne] at hcell
      exact congrFun hcell.own_of_null t
    · exact hrange t i (not_lt.mp hi)
  have hfirst : tagsAt tags 0 = own := by
    funext t
    rw [Bool.eq_iff_iff, hown t, tags_ne_zero_iff hrange]
    constructor
    · exact fun hbit => ⟨0, hpos, hbit⟩
    rintro ⟨d, -, hbit⟩
    by_cases hd : d = 0
    · rwa [← hd]
    · unfold tagsAt at hbit
      simp [hbits t d hd] at hbit
  exact ⟨hothers, hbits, hfirst ▸ hcells 0 hpos, fun i hi => view_first hfirst hothers hi⟩

lemma radixTreeShrink_spec :
    ∀ (fuel : Nat) (root : Root k α) (mem : Mem k α), RootInv root →
      root.rnode.ptr.isSet = true → root.height ≤ fuel → MemOk mem 0 →
      ∃ root' mem', radixTreeShrink fuel root mem = some (root', mem') ∧
        RootInv root' ∧ MemOk mem' 0 ∧ absMap root' = absMap root := by
  intro fuel
  induction fuel with
  | zero =>
    intro root mem hinv _ hfuel hmem
    refine ⟨root, mem, ?_, hinv, hmem, rfl⟩
    rw [radixTreeShrink, if_pos (by omega)]
  | succ fuel ih =>
    intro root mem hinv hset hfuel hmem
    rw [radixTreeShrink]
    by_cases hzero : root.height = 0
    · exact ⟨root, mem, by rw [if_pos hzero], hinv, hmem, rfl⟩
    obtain ⟨h, hheight⟩ := Nat.exists_eq_succ_of_ne_zero hzero
    have hind := hinv.indirect
    rw [hset, hheight] at hind
    simp only [hzero, if_false, hind]
    have hcell := hinv.cell
    rw [hheight] at hcell
    obtain ⟨count, slots, tags, hptr⟩ := hcell.exists_node hset
    rw [hptr] at hcell ⊢
    by_cases hcount : count = 1
    · subst hcount
      by_cases hfirst : (slots 0).isSet = true
      · obtain ⟨hothers, hbits, hchild, hview⟩ := single_child hcell hfirst
        have hmem1 : MemOk (radixTreeNodeFree ⟨h + 1, 1, slots, tags⟩ mem) 0 :=
          radixTreeNodeFree_spec hmem hothers hbits
        let root1 : Root k α := { root with
          rnode := ⟨slots 0, decide (1 < root.height)⟩
          height := root.height - 1 }
        have hheight1 : root1.height = h := by
          show root.height - 1 = h
          omega
        have hinv1 : RootInv root1 := by
          refine ⟨?_, ?_, ?_⟩
          · have := hinv.height
            omega
          · rw [hheight1]
            show decide (1 < root.height) = ((slots 0).isSet && h != 0)
            rw [hfirst, hheight, Bool.eq_iff_iff]
            simp
            omega
          · rw [hheight1]
            exact hchild
        have hmap : absMap root1 = absMap root := by
          funext i
          unfold absMap
          rw [hheight1, hheight, hptr]
          have hle : span k.mapShift h ≤ span k.mapShift (h + 1) := span_le _ (Nat.le_succ _)
          by_cases hi : i < span k.mapShift (h + 1)
          · rw [if_pos hi]
            exact (hview i hi).symm
          · rw [if_neg hi, if_neg (by omega)]
        obtain ⟨root', mem', hrun, hinv', hmem', hmap'⟩ := ih root1 _ hinv1 hfirst (by omega) hmem1
        refine ⟨root', mem', ?_, hinv', hmem', hmap'.trans hmap⟩
        simp only [hfirst, ne_eq, not_true_eq_false, if_false, Bool.not_true, false_eq_true]
        exact hrun
      · refine ⟨root, mem, ?_, hinv, hmem, rfl⟩
        simp [hfirst]
    · refine ⟨root, mem, ?_, hinv, hmem, rfl⟩
      simp [hcount]

-- == the deletion

lemma deleteWalk_spec (index : Index k) :
    ∀ (h : Nat) (own : Tags) (p : Slot k α), CellInv h own p →
      (∀ v tg, view h own p index.toNat = some (v, tg) →
        deleteWalk index h own p = some (.item v, tg)) ∧
      (view h own p index.toNat = none → ∃ tg, deleteWalk index h own p = some (.null, tg)) := by
  refine CellInv.descend ?_ ?_ ?_
  · exact fun h => ⟨fun v tg hview => by simp at hview, fun _ => ⟨noTags, by cases h <;> rfl⟩⟩
  · intro own w
    refine ⟨fun v tg hview => ?_, fun hnone => by simp at hnone⟩
    obtain ⟨rfl, rfl⟩ := hview
    rfl
  · intro h own height count slots tags _ ih
    rw [view_node]
    unfold deleteWalk
    simp only [offsetAt_eq_digit]
    exact ih _ (digit_lt _ _ _)

lemma deleteTags_spec (hinv : RootInv root) {index : Index k} {v : α}
    (hheld : absMap root index.toNat = some (v, own)) :
    ∃ root', deleteTags root index own = some root' ∧ root'.height = root.height ∧
      Changed root root' index.toNat (some (v, noTags)) := by
  -- one step of the loop, for a tag that is still as the slot had it
  have hstep : ∀ (r : Root k α) (tg : Tags) (tag : Fin maxTags),
      RootInv r → absMap r index.toNat = some (v, tg) → tg tag = own tag →
      ∃ r', (if own tag then (radixTreeTagClear r index tag).map Prod.snd else some r) = some r' ∧
        r'.height = r.height ∧ Changed r r' index.toNat (some (v, update tg tag false)) := by
    intro r tg tag hr hmap htg
    by_cases hbit : own tag = true
    · obtain ⟨r', hrun, hheight, hnew⟩ := (radixTreeTagClear_spec hr index tag).1 v tg hmap
      exact ⟨r', by rw [if_pos hbit, hrun]; rfl, hheight, hnew⟩
    have hfalse : tg tag = false := by
      rw [htg]
      simpa using hbit
    refine ⟨r, if_neg hbit, rfl, .same hr ?_⟩
    rw [← hfalse, update_eq_self, hmap]
  obtain ⟨r1, hrun1, hheight1, hnew1⟩ := hstep root own 0 hinv hheld rfl
  obtain ⟨r2, hrun2, hheight2, hnew2⟩ := hstep r1 (update own 0 false) 1 hnew1.inv
    (by rw [hnew1.map, if_pos rfl]) (update_of_ne (by simp) _ _)
  have hnone : update (update own 0 false) 1 false = noTags := by
    funext t
    match t with
    | 0 => rfl
    | 1 => rfl
  refine ⟨r2, ?_, hheight2.trans hheight1, hnone ▸ hnew1.trans hnew2⟩
  unfold deleteTags
  simp only [hrun1, Option.bind_some, hrun2]

lemma deleteLoop_spec (index : Index k) :
    ∀ (h : Nat) (own : Tags) (p : Slot k α), CellInv h own p →
      ∀ (mem : Mem k α) (v : α), view h own p index.toNat = some (v, noTags) → MemOk mem 0 →
      ∃ q here mem', deleteLoop index h p mem = some (q, here, mem') ∧
        MemOk mem' 0 ∧ Updated h index.toNat own own p q none := by
  refine CellInv.descend ?_ ?_ ?_
  · intro h mem v hview
    simp at hview
  · intro own w mem v hview hmem
    obtain ⟨-, rfl⟩ := hview
    refine ⟨.null, false, mem, rfl, hmem, ⟨rfl, fun j => ?_⟩⟩
    simp [span_zero, Nat.mod_one]
  intro h own height count slots tags hinv ih mem v hview hmem
  have hd : digit k.mapShift h index.toNat < mapSize k := digit_lt _ _ _
  rw [view_node] at hview
  have hset := isSet_of_view hview
  obtain ⟨q, _, mem1, hrun, hmem1, hupd⟩ := ih _ hd mem v hview hmem
  unfold deleteLoop
  simp only [offsetAt_eq_digit, hrun]
  by_cases hq : q.isSet = true
  · rw [if_pos hq]
    exact ⟨_, _, mem1, rfl, hmem1, Updated.lift rfl hinv hupd
      (fun _ _ _ => rfl) (by rw [hset, hq]) hinv.2.2.2.2⟩
  -- the slot was counted, so the count goes down by one
  have hpos : count ≠ 0 := by
    intro hzero
    have hunset := countBelow_eq_zero.mp (hinv.2.1.symm.trans hzero) _ hd
    simp [hset] at hunset
  have hcount : count - 1 + (if (slots (digit k.mapShift h index.toNat)).isSet
        then 1 else 0) = count + if q.isSet then 1 else 0 := by
    simp only [hset, hq, if_true, if_false, false_eq_true]
    omega
  have hlift := Updated.lift rfl hinv hupd (fun _ _ _ => rfl) hcount hinv.2.2.2.2
  rw [if_neg hq]
  by_cases hlast : count - 1 = 0
  · rw [if_neg (by simp [hlast])]
    have hinv' := hlift.inv
    rw [hlast] at hinv'
    obtain ⟨hown, hslots, htags⟩ := CellInv.empty hinv'
    refine ⟨.null, false, _, rfl, ?_, ?_⟩
    · refine radixTreeNodeFree_spec hmem1 (fun i hi _ => hslots i hi) (fun t i _ => ?_)
      show (tags t).getLsbD i = false
      rw [htags t]
      exact getLsbD_zero
    · refine ⟨by rw [hown]; exact cellInv_null _, fun j => ?_⟩
      rw [view_null, ← hlift.look, view_node, hslots _ (digit_lt _ _ _), view_null]
  · rw [if_pos hlast]
    exact ⟨_, _, mem1, rfl, hmem1, hlift⟩

lemma deleteFinish_spec {i : Nat} {q : Slot k α} (hinv : RootInv root) (hmem : MemOk mem 0)
    (hset : root.rnode.ptr.isSet = true) (hi : i < span k.mapShift root.height)
    (hupd : Updated root.height i (rootTagGet root) (rootTagGet root) root.rnode.ptr q none)
    (here : Bool) :
    ∃ root' mem', deleteFinish root q here mem = some (root', mem') ∧ MemOk mem' 0 ∧
      Changed root root' i none := by
  have hmap : ∀ j, absMap (root.withPtr q) j = if j = i then none else absMap root j :=
    absMap_of_updated rfl hi hupd
  unfold deleteFinish
  cases hq : q.isSet with
  | false =>
    have hnull := Slot.eq_null_of_isSet hq
    refine ⟨_, mem, rfl, hmem, ⟨Nat.zero_le _, rfl, ?_⟩, fun j => ?_⟩
    · show CellInv 0 (rootTagGet (rootTagClearAll root)) .null
      rw [rootTagGet_clearAll]
      exact cellInv_null _
    · rw [← hmap j]
      unfold absMap
      simp [hnull, Root.withPtr]
  | true =>
    have hnew : Changed root (root.withPtr q) i none :=
      hinv.changed rfl rfl (hq.trans hset.symm) hi hupd
    cases here with
    | false => exact ⟨root.withPtr q, mem, rfl, hmem, hnew⟩
    | true =>
      obtain ⟨root', mem', hrun, hinv', hmem', hmap'⟩ :=
        radixTreeShrink_spec root.height (root.withPtr q) mem hnew.inv hq le_rfl hmem
      exact ⟨root', mem', hrun, hmem', hinv', hmap' ▸ hmap⟩

lemma radixTreeDelete_spec (hinv : RootInv root) (hmem : MemOk mem 0) (index : Index k) :
    ∃ root' mem', radixTreeDelete root index mem
        = some ((absMap root index.toNat).map Prod.fst, root', mem') ∧
      MemOk mem' 0 ∧ Changed root root' index.toNat none := by
  unfold radixTreeDelete
  simp only [hinv.maxindex, maxindex_lt_iff]
  by_cases hlt : index.toNat < span k.mapShift root.height
  · have habs := absMap_of_lt hlt
    simp only [hlt, not_true_eq_false, if_false]
    by_cases hzero : root.height = 0
    · -- a direct item, or nothing at all
      rw [hzero] at hlt
      have hindex : index.toNat = 0 := by
        rw [span_zero] at hlt
        omega
      have hcell := hinv.cell
      rw [hzero] at habs hcell
      refine ⟨{ rootTagClearAll root with rnode := ⟨.null, false⟩ }, mem,
        ?_, hmem, ⟨hinv.height, rfl, ?_⟩, fun j => ?_⟩
      · rw [habs, if_pos hzero]
        cases hptr : root.rnode.ptr with
        | null | item v => rfl
        | node height count slots tags =>
          rw [hptr] at hcell
          exact hcell.elim
      · show CellInv root.height (rootTagGet (rootTagClearAll root)) .null
        rw [rootTagGet_clearAll]
        exact cellInv_null _
      · have hnone : absMap ({ rootTagClearAll root with
            rnode := ⟨.null, false⟩ } : Root k α) j = none := by
          unfold absMap
          simp
        rw [hnone]
        split
        · rfl
        · next hj =>
          unfold absMap
          rw [hzero, span_zero, if_neg (by omega)]
    · simp only [hzero, if_false]
      obtain ⟨hheld, hfree⟩ := deleteWalk_spec index root.height _ _ hinv.cell
      rw [← habs] at hheld hfree
      cases hmap : absMap root index.toNat with
      | none =>
        obtain ⟨tg, hwalk⟩ := hfree hmap
        refine ⟨root, mem, ?_, hmem, .same hinv hmap⟩
        simp [hwalk, Slot.isSet]
      | some x =>
        obtain ⟨v, own⟩ := x
        obtain ⟨root1, htags, hheight1, hnew1⟩ := deleteTags_spec hinv hmap
        rw [← hheight1] at hlt
        have hview1 : view root1.height (rootTagGet root1)
            root1.rnode.ptr index.toNat = some (v, noTags) := by
          have h := hnew1.map index.toNat
          rwa [if_pos rfl, absMap, if_pos hlt] at h
        obtain ⟨q, here, mem1, hloop, hmem1, hupd⟩ :=
          deleteLoop_spec index root1.height _ _ hnew1.inv.cell mem v hview1 hmem
        obtain ⟨root', mem', hfinish, hmem', hnew⟩ :=
          deleteFinish_spec hnew1.inv hmem1 (isSet_of_view hview1) hlt hupd here
        refine ⟨root', mem', ?_, hmem', hnew1.trans hnew⟩
        simp only [hheld v own hmap, htags, hloop, hfinish]
        rfl
  · have hnone : absMap root index.toNat = none := if_neg hlt
    refine ⟨root, mem, ?_, hmem, .same hinv hnone⟩
    simp [hlt, hnone]

end BoardStack.Radix
