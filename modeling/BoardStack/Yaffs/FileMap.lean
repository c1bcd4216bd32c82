/-
The look-up tree of a file is a map from chunk ids to entries of level 0 tnodes.

A level 0 tnode has sixteen entries packed into 32-bit words, which are read as one
string of bits. An entry is a stretch of it that may cross the end of a word;
storing an entry changes its own stretch and no other bit, and reading one depends
on its own stretch alone.

A chunk id is the position of an entry (its low four bits) and a key, whose octal
digits are the path to the level 0 tnode. Everything on the tree is about
`findLevel0Tnode`: making the tree taller changes no look-up, adding the tnode of a
chunk id changes the look-up of its own key alone, and so does a store through the
pointer that was found.

`Shape l p` says that `p` is a tree with its level 0 tnodes at depth `l`, so
that no level 0 tnode is ever read as pointers.

The abstract file is a function from chunk ids to what was last stored. The
look-up tree refines it step by step: a step finds or adds the level 0 tnode
of its chunk id, which changes no look-up but that of a missing tnode, and
stores into one entry, which changes no other.
-/
import BoardStack.Yaffs.Basic
import BoardStack.Base.Digits

namespace BoardStack.Yaffs

open Function

section

open BitVec

variable {dev : Device} {map : Map} {pos : Nat} {val : BitVec 32}

/-- Bit `i` of a tnode. -/
def bitAt (map : Map) (i : Nat) : Bool := (map (i / 32)).getLsbD (i % 32)

def entryAt (dev : Device) (pos : Nat) : Nat := (pos &&& level0Mask) * dev.tnodeWidth

lemma getLsbD_tnodeMask (hw : dev.tnodeWidth < 32) (j : Nat) :
    dev.tnodeMask.getLsbD j = decide (j < dev.tnodeWidth) := by
  have hlt : 2 ^ dev.tnodeWidth < 2 ^ 32 := Nat.pow_lt_pow_right (by decide) hw
  have hpos := Nat.two_pow_pos dev.tnodeWidth
  have hone : (1 : BitVec 32).toNat = 1 := rfl
  have hshift : ((1 : BitVec 32) <<< dev.tnodeWidth).toNat = 2 ^ dev.tnodeWidth := by
    rw [toNat_shiftLeft, hone, Nat.shiftLeft_eq, one_mul, Nat.mod_eq_of_lt hlt]
  have hval : dev.tnodeMask.toNat = 2 ^ dev.tnodeWidth - 1 := by
    unfold Device.tnodeMask
    rw [toNat_sub_of_le, hshift, hone]
    rw [le_def, hshift, hone]
    exact hpos
  rw [getLsbD, hval, Nat.testBit_two_pow_sub_one]

lemma getLsbD_blend (m mask v : BitVec 32) {b : Nat} (hb : b < 32) :
    ((m &&& ~~~mask) ||| (mask &&& v)).getLsbD b
      = if mask.getLsbD b then v.getLsbD b else m.getLsbD b := by
  simp only [getLsbD_or, getLsbD_and, getLsbD_not, hb, decide_true, Bool.true_and]
  cases mask.getLsbD b <;> simp

lemma getLsbD_low (hw : dev.tnodeWidth < 32) (m v : BitVec 32) {s b : Nat} (hb : b < 32) :
    ((m &&& ~~~(dev.tnodeMask <<< s)) ||| (dev.tnodeMask <<< s &&& v <<< s)).getLsbD b
      = if s ≤ b ∧ b < s + dev.tnodeWidth then v.getLsbD (b - s)
        else m.getLsbD b := by
  rw [getLsbD_blend _ _ _ hb]
  simp only [getLsbD_shiftLeft, hb, decide_true, Bool.true_and,
    getLsbD_tnodeMask hw, Bool.and_eq_true, Bool.not_eq_true',
    decide_eq_false_iff_not, decide_eq_true_eq, not_lt]
  by_cases hin : s ≤ b ∧ b < s + dev.tnodeWidth
  · rw [if_pos hin, if_pos (by omega), decide_eq_false (by omega)]
    rfl
  · rw [if_neg hin, if_neg (by omega)]

lemma getLsbD_high (hw : dev.tnodeWidth < 32) (m v : BitVec 32) {s b : Nat} (hb : b < 32) :
    ((m &&& ~~~(dev.tnodeMask >>> s)) ||| (dev.tnodeMask >>> s &&& v >>> s)).getLsbD b
      = if s + b < dev.tnodeWidth then v.getLsbD (s + b)
        else m.getLsbD b := by
  rw [getLsbD_blend _ _ _ hb]
  simp only [getLsbD_ushiftRight, getLsbD_tnodeMask hw, decide_eq_true_eq]

/-- Storing an entry changes its bits and no others. -/
theorem bitAt_put (hw : dev.tnodeWidth < 32) (i : Nat) :
    bitAt (putLevel0Tnode dev map pos val) i
      = if entryAt dev pos ≤ i ∧ i < entryAt dev pos + dev.tnodeWidth then
          (val >>> dev.chunkGroupBits).getLsbD (i - entryAt dev pos)
        else bitAt map i := by
  unfold putLevel0Tnode entryAt bitAt
  dsimp only
  generalize (pos &&& level0Mask) * dev.tnodeWidth = lo
  generalize val >>> dev.chunkGroupBits = v
  have hmod := Nat.mod_lt i (by decide : 0 < 32)
  -- the words other than those two keep their bits
  have hother : i / 32 ≠ lo / 32 → ¬(i / 32 = lo / 32 + 1 ∧ 32 - lo % 32 < dev.tnodeWidth) →
      ¬(lo ≤ i ∧ i < lo + dev.tnodeWidth) := by
    omega
  by_cases hfirst : i / 32 = lo / 32
  · have hlow := getLsbD_low hw (map (lo / 32)) v (s := lo % 32) hmod
    have hiff : (lo % 32 ≤ i % 32 ∧ i % 32 < lo % 32 + dev.tnodeWidth)
        ↔ lo ≤ i ∧ i < lo + dev.tnodeWidth := by omega
    rw [show i % 32 - lo % 32 = i - lo by omega] at hlow
    simp only [hiff] at hlow
    rw [hfirst, ← hlow]
    split
    · rw [update_of_ne (by omega), update_self]
    · rw [update_self]
  · by_cases hsecond : i / 32 = lo / 32 + 1 ∧ 32 - lo % 32 < dev.tnodeWidth
    · have hhigh := getLsbD_high hw (map (lo / 32 + 1)) v (s := 32 - lo % 32) hmod
      have hiff : i - lo < dev.tnodeWidth ↔ lo ≤ i ∧ i < lo + dev.tnodeWidth := by omega
      rw [show 32 - lo % 32 + i % 32 = i - lo by omega] at hhigh
      simp only [hiff] at hhigh
      rw [if_pos hsecond.2, hsecond.1, update_self, update_of_ne (by omega)]
      exact hhigh
    · rw [if_neg (hother hfirst hsecond)]
      split
      · rw [update_of_ne (by omega), update_of_ne hfirst]
      · rw [update_of_ne hfirst]

/-- Reading an entry gives its bits, shifted. -/
theorem getChunkGroupBase_eq (hw : dev.tnodeWidth < 32) (map : Map) (pos : Nat) :
    ∃ v : BitVec 32, getChunkGroupBase dev map pos = v <<< dev.chunkGroupBits ∧
      ∀ j, v.getLsbD j = (decide (j < dev.tnodeWidth) && bitAt map (entryAt dev pos + j)) := by
  refine ⟨_, rfl, fun j => ?_⟩
  unfold entryAt bitAt
  generalize (pos &&& level0Mask) * dev.tnodeWidth = lo
  rw [getLsbD_and, getLsbD_tnodeMask hw, Bool.and_comm]
  by_cases hj : j < dev.tnodeWidth
  · rw [decide_eq_true hj, Bool.true_and, Bool.true_and]
    by_cases hin : lo % 32 + j < 32
    · -- within the first word
      rw [show (lo + j) / 32 = lo / 32 by omega, show (lo + j) % 32 = lo % 32 + j by omega]
      split
      · rw [getLsbD_or, getLsbD_ushiftRight, getLsbD_shiftLeft, decide_eq_true (by omega : j < 32),
          decide_eq_true (by omega : j < 32 - lo % 32)]
        simp
      · rw [getLsbD_ushiftRight]
    · rw [show (lo + j) / 32 = lo / 32 + 1 by omega,
        show (lo + j) % 32 = j - (32 - lo % 32) by omega, if_pos (by omega),
        getLsbD_or, getLsbD_ushiftRight, getLsbD_of_ge _ _ (by omega), getLsbD_shiftLeft,
        decide_eq_true (by omega : j < 32), decide_eq_false (by omega : ¬j < 32 - lo % 32)]
      simp
  · rw [decide_eq_false hj, Bool.false_and, Bool.false_and]

lemma entryAt_eq (dev : Device) (pos : Nat) : entryAt dev pos = pos % 16 * dev.tnodeWidth := by
  unfold entryAt level0Mask
  rw [show pos &&& 0xf = pos % 16 from Nat.and_two_pow_sub_one_eq_mod pos 4]

variable {pos' : Nat}

lemma entryAt_disjoint (hne : pos % 16 ≠ pos' % 16) {j : Nat} (hj : j < dev.tnodeWidth) :
    ¬(entryAt dev pos ≤ entryAt dev pos' + j ∧
      entryAt dev pos' + j < entryAt dev pos + dev.tnodeWidth) := by
  rw [entryAt_eq, entryAt_eq]
  rcases Nat.lt_or_gt_of_ne hne with hlt | hlt
  all_goals
    have := Nat.mul_le_mul_right dev.tnodeWidth (Nat.succ_le_of_lt hlt)
    rw [Nat.succ_mul] at this
    omega

lemma get_put_self (hw : dev.tnodeWidth < 32) (hpos : pos % 16 = pos' % 16)
    (hval : val.toNat < 2 ^ (dev.tnodeWidth + dev.chunkGroupBits)) :
    getChunkGroupBase dev (putLevel0Tnode dev map pos val) pos'
      = (val >>> dev.chunkGroupBits) <<< dev.chunkGroupBits := by
  obtain ⟨v, hv, hbits⟩ := getChunkGroupBase_eq hw (putLevel0Tnode dev map pos val) pos'
  have hentry : entryAt dev pos = entryAt dev pos' := by rw [entryAt_eq, entryAt_eq, hpos]
  rw [hv]
  congr 1
  apply eq_of_getLsbD_eq
  intro j _
  rw [hbits, bitAt_put hw, hentry]
  by_cases hj : j < dev.tnodeWidth
  · rw [if_pos (by omega), Nat.add_sub_cancel_left, decide_eq_true hj, Bool.true_and]
  · -- beyond the width the value has no bits
    rw [decide_eq_false hj, Bool.false_and, getLsbD_ushiftRight, getLsbD, Nat.testBit_lt_two_pow]
    exact hval.trans_le (Nat.pow_le_pow_right (by decide) (by omega))

lemma get_put_ne (hw : dev.tnodeWidth < 32) (hpos : pos % 16 ≠ pos' % 16) :
    getChunkGroupBase dev (putLevel0Tnode dev map pos val) pos'
      = getChunkGroupBase dev map pos' := by
  obtain ⟨v, hv, hbits⟩ := getChunkGroupBase_eq hw (putLevel0Tnode dev map pos val) pos'
  obtain ⟨v', hv', hbits'⟩ := getChunkGroupBase_eq hw map pos'
  rw [hv, hv']
  congr 1
  apply eq_of_getLsbD_eq
  intro j _
  rw [hbits, hbits', bitAt_put hw]
  by_cases hj : j < dev.tnodeWidth
  · rw [if_neg (entryAt_disjoint hpos hj)]
  · rw [decide_eq_false hj, Bool.false_and, Bool.false_and]

lemma get_cleared (hw : dev.tnodeWidth < 32) (pos : Nat) :
    getChunkGroupBase dev (fun _ => 0) pos = 0 := by
  obtain ⟨v, hv, hbits⟩ := getChunkGroupBase_eq hw (fun _ => 0) pos
  have hzero : v = 0 := by
    apply eq_of_getLsbD_eq
    intro j _
    rw [hbits]
    unfold bitAt
    simp
  rw [hv, hzero]
  exact zero_shiftLeft _

end

open Base Nat

-- == keys

/-- The part of a chunk id that is the path to its level 0 tnode. -/
def key (chunkId : Nat) : Nat := chunkId >>> level0Bits

lemma slotAt_eq (chunkId l : Nat) : slotAt chunkId l = digit internalBits l (key chunkId) := by
  unfold slotAt digit key span
  rw [shiftRight_add, shiftRight_eq_div_pow _ (l * internalBits), mul_comm l]
  exact and_two_pow_sub_one_eq_mod _ 3

lemma tallnessLoop_le_iff (turns i l : Nat) (h : i < span internalBits turns) :
    tallnessLoop turns i ≤ l ↔ i < span internalBits l := by
  induction turns generalizing i l with
  | zero =>
    rw [span_zero, lt_one_iff] at h
    rw [h]
    exact ⟨fun _ => span_pos _ _, fun _ => Nat.zero_le _⟩
  | succ turns ih =>
    rw [tallnessLoop]
    by_cases hi : i = 0
    · rw [if_pos hi, hi]
      exact ⟨fun _ => span_pos _ _, fun _ => Nat.zero_le _⟩
    rw [if_neg hi]
    cases l with
    | zero =>
      rw [span_zero]
      omega
    | succ l =>
      have hdiv : ∀ n, i >>> internalBits < span internalBits n
          ↔ i < span internalBits (n + 1) := by
        intro n
        rw [shiftRight_eq_div_pow, span_succ, mul_comm]
        exact Nat.div_lt_iff_lt_mul (Nat.two_pow_pos _)
      rw [succ_le_succ_iff, ih _ _ ((hdiv turns).mpr h), hdiv]

variable {c : Nat}

lemma key_le_of_le (hc : c ≤ maxChunkId) : key c ≤ 0xffff := by
  unfold maxChunkId at hc
  unfold key level0Bits
  omega

lemma requiredTallness_le_iff (hc : c ≤ maxChunkId) (l : Nat) :
    requiredTallness c ≤ l ↔ key c < span internalBits l := by
  apply tallnessLoop_le_iff
  have h32 : (0xffff : Nat) < span internalBits 32 := by decide
  exact (key_le_of_le hc).trans_lt h32

lemma requiredTallness_le_maxLevel (hc : c ≤ maxChunkId) : requiredTallness c ≤ maxLevel := by
  rw [requiredTallness_le_iff hc]
  have h6 : (0xffff : Nat) < span internalBits maxLevel := by decide
  exact (key_le_of_le hc).trans_lt h6

lemma le_maxChunkId_congr {c c' : Nat} (hkey : key c = key c') :
    c ≤ maxChunkId ↔ c' ≤ maxChunkId := by
  unfold key level0Bits at hkey
  unfold maxChunkId
  omega

lemma eq_of_key_eq {c c' : Nat} (hkey : key c = key c') (hpos : c % 16 = c' % 16) : c = c' := by
  unfold key level0Bits at hkey
  omega

-- == trees

/-- A tree with its level 0 tnodes at depth `l`. -/
inductive Shape : Nat → Ptr → Prop
  | null (l : Nat) : Shape l .null
  | level0 (map : Map) : Shape 0 (.level0 map)
  | internal {l : Nat} {slots : Nat → Ptr} :
      (∀ x, Shape l (slots x)) → Shape (l + 1) (.internal slots)

variable {slots : Nat → Ptr} {p : Ptr}

lemma Shape.update {l x : Nat} (h : ∀ y, Shape l (slots y)) (hp : Shape l p) :
    Shape (l + 1) (.internal (update slots x p)) := by
  apply Shape.internal
  intro y
  by_cases hy : y = x
  · rw [hy, update_self]
    exact hp
  · rw [update_of_ne hy]
    exact h y

lemma findLoop_null (c l : Nat) : findLoop c l .null = some .null := by
  cases l with
  | zero | succ l => rfl

lemma findLoop_congr {c c' l : Nat} (p : Ptr)
    (h : key c % span internalBits l = key c' % span internalBits l) :
    findLoop c l p = findLoop c' l p := by
  induction l generalizing p with
  | zero => rfl
  | succ l ih =>
    obtain ⟨hdigit, hrest⟩ := (mod_span_succ_congr _ l _ _).mp h
    cases p with
    | null | level0 map => rfl
    | internal slots =>
      rw [findLoop, findLoop, slotAt_eq, slotAt_eq, hdigit]
      exact ih _ hrest

lemma findLoop_update (c c' l : Nat) (slots : Nat → Ptr) (p : Ptr) :
    findLoop c' (l + 1) (.internal (update slots (slotAt c l) p))
      = if slotAt c' l = slotAt c l then findLoop c' l p
        else findLoop c' (l + 1) (.internal slots) := by
  rw [findLoop]
  by_cases h : slotAt c' l = slotAt c l
  · rw [if_pos h, h, update_self]
  · rw [if_neg h, update_of_ne h, findLoop]

/-- The look-ups of `p'` are those of `p`, but that of `c` gives `q`. -/
structure Changed (c l : Nat) (p p' q : Ptr) : Prop where
  shape : Shape l p'
  nonNull : p' ≠ .null
  self : findLoop c l p' = some q
  other : ∀ c', key c' % span internalBits l ≠ key c % span internalBits l →
    findLoop c' l p' = findLoop c' l p

variable {c l : Nat}

lemma Changed.lift {p p' q : Ptr} (hslots : ∀ y, Shape l (slots y)) (h : Changed c l p p' q)
    (hp : ∀ c', key c' % span internalBits l ≠ key c % span internalBits l →
      findLoop c' l p = findLoop c' l (slots (slotAt c l))) :
    Changed c (l + 1) (.internal slots) (.internal (update slots (slotAt c l) p')) q := by
  refine ⟨.update hslots h.shape, nofun, ?_, ?_⟩
  · rw [findLoop_update, if_pos rfl]
    exact h.self
  intro c' hne
  rw [findLoop_update]
  by_cases hslot : slotAt c' l = slotAt c l
  · have hrest : key c' % span internalBits l ≠ key c % span internalBits l := by
      intro heq
      rw [slotAt_eq, slotAt_eq] at hslot
      exact hne ((mod_span_succ_congr _ l _ _).mpr ⟨hslot, heq⟩)
    rw [if_pos hslot, h.other c' hrest, hp c' hrest, findLoop, hslot]
  · rw [if_neg hslot]

lemma setLevel0_changed {found : Map}
    (hshape : Shape l p) (hfound : findLoop c l p = some (.level0 found))
    (map : Map) : Changed c l p (setLevel0 c map l p) (.level0 map) := by
  induction hshape with
  | null l =>
    simp [findLoop_null] at hfound
  | level0 old =>
    refine ⟨.level0 map, nofun, rfl, ?_⟩
    intro c' hne
    rw [span_zero, mod_one, mod_one] at hne
    exact absurd rfl hne
  | internal hslots ih =>
    exact (ih _ hfound).lift hslots fun _ _ => rfl

-- == adding

lemma addLoop_used (grants : Nat → Bool) (calls : Nat) (h : slots (slotAt c l) ≠ .null) :
    addLoop grants c .null (l + 1) (.internal slots) calls
      = (addLoop grants c .null l (slots (slotAt c l)) calls).map fun r =>
          (.internal (update slots (slotAt c l) r.1), r.2) := by
  rw [addLoop.eq_def]
  dsimp only
  cases hslot : slots (slotAt c l) with
  | null => exact absurd hslot h
  | level0 map =>
    cases l <;> cases addLoop grants c .null _ (.level0 map) calls <;> rfl
  | internal inner =>
    cases l <;> cases addLoop grants c .null _ (.internal inner) calls <;> rfl

lemma addLoop_free (grants : Nat → Bool) (calls : Nat) (h : slots (slotAt c l) = .null) :
    addLoop grants c .null (l + 1) (.internal slots) calls
      = (addLoop grants c .null l (getTnode grants calls l).1
            (getTnode grants calls l).2).map fun r =>
          (.internal (update slots (slotAt c l) r.1), r.2) := by
  rw [addLoop.eq_def]
  dsimp only
  rw [h]
  cases l with
  | zero =>
    cases addLoop grants c .null 0 (getTnode grants calls 0).1 (getTnode grants calls 0).2 <;> rfl
  | succ l =>
    cases addLoop grants c .null (l + 1) (getTnode grants calls (l + 1)).1
      (getTnode grants calls (l + 1)).2 <;> rfl

section

variable {grants : Nat → Bool} (hgrants : ∀ n, grants n = true)
include hgrants

lemma getTnode_spec (calls l : Nat) :
    ∃ p, getTnode grants calls l = (p, calls + 1) ∧ Shape l p ∧ p ≠ .null ∧
      (∀ c, findLoop c l p = some .null ∨ findLoop c l p = some (.level0 fun _ => 0)) ∧
      ∀ c c', key c' % span internalBits l ≠ key c % span internalBits l →
        findLoop c' l p = some .null := by
  unfold getTnode
  rw [hgrants calls, if_pos rfl]
  cases l with
  | zero =>
    refine ⟨_, rfl, .level0 _, nofun, fun c => .inr rfl, ?_⟩
    intro c c' hne
    rw [span_zero, mod_one, mod_one] at hne
    exact absurd rfl hne
  | succ l =>
    have hnull : ∀ c, findLoop c (l + 1) (.internal fun _ => .null)
        = some .null := fun c => findLoop_null c l
    exact ⟨_, rfl, .internal fun _ => .null l, nofun,
      fun c => .inl (hnull c), fun _ c' _ => hnull c'⟩

/-- Adding the level 0 tnode of a chunk id: it is the one that was there,
or a cleared one, and no other look-up changes. -/
theorem addLoop_spec (c : Nat) {l : Nat} (calls : Nat) (hshape : Shape l p) (hp : p ≠ .null) :
    ∃ p' map calls', addLoop grants c .null l p calls = some (p', .level0 map, calls') ∧
      Changed c l p p' (.level0 map) ∧
      (findLoop c l p = some (.level0 map) ∨ findLoop c l p = some .null ∧ map = fun _ => 0) := by
  induction l generalizing p calls with
  | zero =>
    cases hshape with
    | null => exact absurd rfl hp
    | level0 map =>
      exact ⟨.level0 map, map, calls, rfl, ⟨.level0 map, nofun, rfl, fun _ _ => rfl⟩, .inl rfl⟩
  | succ l ih =>
    cases hshape with
    | null => exact absurd rfl hp
    | @internal _ slots hslots =>
      by_cases hslot : slots (slotAt c l) = .null
      · obtain ⟨q, hget, hq, hqne, hempty, hother⟩ := getTnode_spec hgrants calls l
        obtain ⟨p', map, calls', hadd, hchanged, hmap⟩ := ih (calls + 1) hq hqne
        have hfind : findLoop c (l + 1) (.internal slots) = some .null := by
          rw [findLoop, hslot, findLoop_null]
        refine ⟨.internal (update slots (slotAt c l) p'), map,
          calls', ?_, hchanged.lift hslots ?_, .inr ⟨hfind, ?_⟩⟩
        · rw [addLoop_free grants calls hslot, hget, hadd]
          rfl
        · intro c' hne
          rw [hslot, findLoop_null]
          exact hother c c' hne
        rcases hmap with hmap | ⟨_, hmap⟩
        · rcases hempty c with hc | hc <;> cases hmap.symm.trans hc
          rfl
        · exact hmap
      · obtain ⟨p', map, calls', hadd, hchanged, hmap⟩ := ih calls (hslots _) hslot
        refine ⟨.internal (update slots (slotAt c l) p'), map,
          calls', ?_, hchanged.lift hslots fun _ _ => rfl, hmap⟩
        rw [addLoop_used grants calls hslot, hadd]
        rfl

end

-- == files

structure Good (f : FileStructure) : Prop where
  level : f.topLevel ≤ maxLevel
  nonNull : f.top ≠ .null
  shape : Shape f.topLevel f.top

variable {f : FileStructure}

lemma findLevel0Tnode_eq (hf : Good f) (c : Nat) :
    findLevel0Tnode f c = if c ≤ maxChunkId ∧ requiredTallness c ≤ f.topLevel then
          findLoop c f.topLevel f.top
        else some .null := by
  unfold findLevel0Tnode
  rw [if_neg (not_lt.mpr hf.level)]
  by_cases hc : c ≤ maxChunkId
  · rw [if_neg (not_lt.mpr hc)]
    by_cases ht : requiredTallness c ≤ f.topLevel
    · rw [if_neg (not_lt.mpr ht), if_pos ⟨hc, ht⟩]
    · rw [if_pos (not_le.mp ht), if_neg fun h => ht h.2]
  · rw [if_pos (not_le.mp hc), if_neg fun h => hc h.1]

lemma findLevel0Tnode_congr (hf : Good f) {c c' : Nat}
    (hkey : key c = key c') : findLevel0Tnode f c = findLevel0Tnode f c' := by
  have htall : requiredTallness c = requiredTallness c' := congrArg (tallnessLoop 32) hkey
  have hloop : findLoop c f.topLevel f.top = findLoop c' f.topLevel f.top :=
    findLoop_congr _ (by rw [hkey])
  rw [findLevel0Tnode_eq hf, findLevel0Tnode_eq hf, htall, hloop]
  simp only [le_maxChunkId_congr hkey]

lemma findLevel0Tnode_changed (hf : Good f) {c : Nat} (hc : c ≤ maxChunkId)
    (ht : requiredTallness c ≤ f.topLevel) {p q : Ptr} (h : Changed c f.topLevel f.top p q) :
    Good ⟨f.topLevel, p⟩ ∧ findLevel0Tnode ⟨f.topLevel, p⟩ c = some q ∧ ∀ c', key c' ≠ key c →
        findLevel0Tnode ⟨f.topLevel, p⟩ c' = findLevel0Tnode f c' := by
  have hgood : Good ⟨f.topLevel, p⟩ := ⟨hf.level, h.nonNull, h.shape⟩
  refine ⟨hgood, ?_, ?_⟩
  · rw [findLevel0Tnode_eq hgood, if_pos ⟨hc, ht⟩]
    exact h.self
  intro c' hne
  rw [findLevel0Tnode_eq hgood, findLevel0Tnode_eq hf]
  by_cases hc' : c' ≤ maxChunkId ∧ requiredTallness c' ≤ f.topLevel
  · rw [if_pos hc', if_pos hc']
    apply h.other c'
    -- both keys have no digits above the top level
    rw [Nat.mod_eq_of_lt ((requiredTallness_le_iff hc'.1 _).mp hc'.2),
      Nat.mod_eq_of_lt ((requiredTallness_le_iff hc _).mp ht)]
    exact hne
  · rw [if_neg hc', if_neg hc']

-- == growing

lemma findLevel0Tnode_grow {l : Nat} {p : Ptr} (hf : Good ⟨l, p⟩) (hl : l < maxLevel) :
    let root := Ptr.internal (update (fun _ => .null) 0 p)
    Good ⟨l + 1, root⟩ ∧ ∀ c, findLevel0Tnode ⟨l + 1, root⟩ c = findLevel0Tnode ⟨l, p⟩ c := by
  intro root
  have hgood : Good ⟨l + 1, root⟩ := ⟨hl, nofun, .update (fun _ => .null l) hf.shape⟩
  refine ⟨hgood, fun c => ?_⟩
  rw [findLevel0Tnode_eq hgood, findLevel0Tnode_eq hf]
  by_cases hc : c ≤ maxChunkId
  · simp only [requiredTallness_le_iff hc, hc, true_and]
    by_cases hkey : key c < span internalBits (l + 1)
    · have hslot : slotAt c l = key c / span internalBits l := by rw [slotAt_eq, digit_of_lt hkey]
      rw [if_pos hkey]
      by_cases hold : key c < span internalBits l
      · rw [if_pos hold, findLoop, hslot, Nat.div_eq_of_lt hold, update_self]
      · have hne : slotAt c l ≠ 0 := by
          rw [hslot]
          exact (Nat.div_pos (not_lt.mp hold) (span_pos _ _)).ne'
        rw [if_neg hold, findLoop, update_of_ne hne, findLoop_null]
    · have hold : ¬key c < span internalBits l := fun h =>
        hkey (h.trans_le (span_le _ (Nat.le_succ l)))
      rw [if_neg hkey, if_neg hold]
  · rw [if_neg fun h => hc h.1, if_neg fun h => hc h.1]

variable {grants : Nat → Bool}
variable {dev : Device} {f f' : FileStructure} {map : Map} {c : Nat}

lemma growLoop_spec (hgrants : ∀ n, grants n = true) (n : Nat) {l : Nat}
    {p : Ptr} (calls : Nat) (hf : Good ⟨l, p⟩) (hl : l + n ≤ maxLevel) :
    ∃ top calls', growLoop grants n p calls = (top, calls') ∧ Good ⟨l + n, top⟩ ∧
      ∀ c, findLevel0Tnode ⟨l + n, top⟩ c = findLevel0Tnode ⟨l, p⟩ c := by
  induction n generalizing l p calls with
  | zero => exact ⟨p, calls, rfl, hf, fun _ => rfl⟩
  | succ n ih =>
    obtain ⟨hgood, hroot⟩ := findLevel0Tnode_grow hf (by omega)
    obtain ⟨top, calls', hgrow, htop, hfind⟩ := ih (calls + 1) hgood (by omega)
    have hsum : l + (n + 1) = l + 1 + n := by omega
    rw [hsum]
    refine ⟨top, calls', ?_, htop, fun c => (hfind c).trans (hroot c)⟩
    rw [growLoop, getTnode, hgrants calls, if_pos rfl]
    exact hgrow

/-- With no passed-in tnode: grow as far as needed, then descend. -/
lemma addOrFindLevel0Tnode_eq (dev : Device)
    (hl : f.topLevel ≤ maxLevel) (hc : c ≤ maxChunkId) (calls : Nat) :
    let r := growLoop grants (requiredTallness c - f.topLevel) f.top calls
    let l := f.topLevel + (requiredTallness c - f.topLevel)
    addOrFindLevel0Tnode dev grants f c .null calls
      = (addLoop grants c .null l r.1 r.2).map fun x =>
          (⟨l, x.1⟩, x.2.1, x.2.2) := by
  intro r l
  have hr : (if f.topLevel < requiredTallness c then
      growLoop grants (requiredTallness c - f.topLevel) f.top calls else (f.top, calls)) = r := by
    by_cases h : f.topLevel < requiredTallness c
    · exact if_pos h
    have hzero : requiredTallness c - f.topLevel = 0 := by omega
    rw [if_neg h]
    unfold r
    rw [hzero]
    rfl
  have hmax : max f.topLevel (requiredTallness c) = l := by omega
  unfold addOrFindLevel0Tnode
  rw [if_neg (not_lt.mpr hl), if_neg (not_lt.mpr hc)]
  dsimp only
  rw [hr, hmax]
  cases l with
  | zero =>
    cases r.1 <;> rfl
  | succ l =>
    dsimp only
    cases addLoop grants c .null (l + 1) r.1 r.2 <;> rfl

/-- Finding or adding a level 0 tnode. -/
theorem addOrFindLevel0Tnode_spec (dev : Device)
    (hgrants : ∀ n, grants n = true) (hf : Good f) (hc : c ≤ maxChunkId) (calls : Nat) :
    ∃ f' map calls', addOrFindLevel0Tnode dev grants f c .null calls
        = some (f', .level0 map, calls') ∧
      Good f' ∧ requiredTallness c ≤ f'.topLevel ∧
      findLevel0Tnode f' c = some (.level0 map) ∧
      (findLevel0Tnode f c = some (.level0 map) ∨
        findLevel0Tnode f c = some .null ∧ map = fun _ => 0) ∧
      ∀ c', key c' ≠ key c → findLevel0Tnode f' c' = findLevel0Tnode f c' := by
  have hmax := requiredTallness_le_maxLevel hc
  have hlevel := hf.level
  obtain ⟨top, calls1, hgrow, hgood, hfind⟩ :=
    growLoop_spec hgrants (requiredTallness c - f.topLevel) calls hf (by omega)
  obtain ⟨p, map, calls2, hadd, hchanged, hmap⟩ :=
    addLoop_spec hgrants c calls1 hgood.shape hgood.nonNull
  have htall : requiredTallness c ≤ f.topLevel + (requiredTallness c - f.topLevel) := by omega
  obtain ⟨hgood', hself, hother⟩ := findLevel0Tnode_changed hgood hc htall hchanged
  refine ⟨_, map, calls2, ?_, hgood', htall, hself, ?_, ?_⟩
  · rw [addOrFindLevel0Tnode_eq dev hlevel hc, hgrow, hadd]
    rfl
  · rw [← hfind, findLevel0Tnode_eq hgood, if_pos ⟨hc, htall⟩]
    exact hmap
  · intro c' hne
    rw [hother c' hne, hfind]

-- == refinement

/-- What the look-up of a chunk id gives, by what was stored for it: the
value, or else nothing or 0. -/
def Reads (dev : Device) (f : FileStructure) (c : Nat) : Option (BitVec 32) → Prop
  | some val =>
    read dev f c = some (some ((val >>> dev.chunkGroupBits) <<< dev.chunkGroupBits))
  | none => read dev f c = some none ∨ read dev f c = some (some 0)

def store (t : Nat → Option (BitVec 32)) (op : Op) : Nat → Option (BitVec 32) :=
  match op.val with
  | none => t
  | some val => update t op.chunkId (some val)

/-- The steps are allowed for chunk ids and values in range. -/
def fileContract (dev : Device) : Contract (Nat → Option (BitVec 32)) Op Unit where
  pre _ op := op.chunkId ≤ maxChunkId ∧ ∀ val, op.val = some val →
    val.toNat < 2 ^ (dev.tnodeWidth + dev.chunkGroupBits)
  out _ _ _ := True
  next := store

def Refines (dev : Device) (s : State) (t : Nat → Option (BitVec 32)) : Prop :=
  Good s.file ∧ ∀ c, Reads dev s.file c (t c)

variable {o : Option (BitVec 32)}

lemma Reads.congr (h : Reads dev f c o) (hfind : findLevel0Tnode f' c = findLevel0Tnode f c) :
    Reads dev f' c o := by
  have hread : read dev f' c = read dev f c := by
    unfold read
    rw [hfind]
  unfold Reads at h ⊢
  rw [hread]
  exact h

lemma read_level0 (h : findLevel0Tnode f c = some (.level0 map)) :
    read dev f c = some (some (getChunkGroupBase dev map c)) := by
  unfold read
  rw [h]

lemma read_null (h : findLevel0Tnode f c = some .null) : read dev f c = some none := by
  unfold read
  rw [h]

section

variable {dev : Device} (hw : dev.tnodeWidth < 32)
include hw

lemma Reads.fresh (h : Reads dev f c o) (hnull : findLevel0Tnode f c = some .null)
    (hfind : findLevel0Tnode f' c = some (.level0 fun _ => 0)) :
    Reads dev f' c o := by
  cases o with
  | none =>
    apply Or.inr
    rw [read_level0 hfind, get_cleared hw]
  | some val =>
    unfold Reads at h
    simp [read_null hnull] at h

variable {t : Nat → Option (BitVec 32)}

lemma Refines.added (hf : Good f) (hf' : Good f') (h : ∀ c, Reads dev f c (t c))
    (hself : findLevel0Tnode f' c = some (.level0 map))
    (hold : findLevel0Tnode f c = some (.level0 map) ∨
      findLevel0Tnode f c = some .null ∧ map = fun _ => 0) (hother : ∀ c', key c' ≠ key c →
      findLevel0Tnode f' c' = findLevel0Tnode f c') (c' : Nat) :
    Reads dev f' c' (t c') := by
  by_cases hkey : key c' = key c
  · have hf1 := findLevel0Tnode_congr hf hkey
    have hf2 := findLevel0Tnode_congr hf' hkey
    rcases hold with hold | ⟨hold, hzero⟩
    · exact (h c').congr (by rw [hf1, hf2, hself, hold])
    · rw [hzero] at hself
      exact (h c').fresh hw (hf1.trans hold) (hf2.trans hself)
  · exact (h c').congr (hother c' hkey)

lemma Refines.stored {val : BitVec 32} (hf : Good f) (hf' : Good f')
    (h : ∀ c, Reads dev f c (t c)) (hval : val.toNat < 2 ^ (dev.tnodeWidth + dev.chunkGroupBits))
    (hfind : findLevel0Tnode f c = some (.level0 map))
    (hself : findLevel0Tnode f' c = some (.level0 (putLevel0Tnode dev map c val)))
    (hother : ∀ c', key c' ≠ key c → findLevel0Tnode f' c' = findLevel0Tnode f c') (c' : Nat) :
    Reads dev f' c' (update t c (some val) c') := by
  by_cases hc : c' = c
  · rw [hc, update_self]
    exact (read_level0 hself).trans (by rw [get_put_self hw rfl hval])
  rw [update_of_ne hc]
  by_cases hkey : key c' = key c
  · -- another entry of the same tnode
    have hpos : c % 16 ≠ c' % 16 := fun hpos =>
      hc (eq_of_key_eq hkey hpos.symm)
    have hread : read dev f' c' = read dev f c' := by
      rw [read_level0 ((findLevel0Tnode_congr hf' hkey).trans hself),
        read_level0 ((findLevel0Tnode_congr hf hkey).trans hfind), get_put_ne hw hpos]
    have hold := h c'
    unfold Reads at hold ⊢
    rw [hread]
    exact hold
  · exact (h c').congr (hother c' hkey)

/-- One step refines the step on the values. -/
theorem step_refines (hgrants : ∀ n, grants n = true) (s : State) (t : Nat → Option (BitVec 32))
    (op : Op) (hs : Refines dev s t) (hpre : (fileContract dev).pre t op) :
    ∃ o s', step dev grants s op = some (o, s') ∧ (fileContract dev).out t op o ∧
      Refines dev s' ((fileContract dev).next t op) := by
  obtain ⟨hgood, hreads⟩ := hs
  obtain ⟨hc, hval⟩ := hpre
  obtain ⟨f', map, calls', hadd, hgood', htall, hself, hold, hother⟩ :=
    addOrFindLevel0Tnode_spec dev hgrants hgood hc s.calls
  have hreads' := Refines.added hw hgood hgood' hreads hself hold hother
  unfold step
  rw [hadd]
  dsimp only [fileContract, store]
  cases hv : op.val with
  | none => exact ⟨(), _, rfl, trivial, hgood', hreads'⟩
  | some val =>
    have hfound : findLoop op.chunkId f'.topLevel f'.top = some (.level0 map) := by
      rw [findLevel0Tnode_eq hgood', if_pos ⟨hc, htall⟩] at hself
      exact hself
    obtain ⟨hgood2, hself2, hother2⟩ := findLevel0Tnode_changed hgood' hc
      htall (setLevel0_changed hgood'.shape hfound (putLevel0Tnode dev map op.chunkId val))
    exact ⟨(), _, rfl, trivial, hgood2, Refines.stored hw hgood' hgood2
      hreads' (hval val hv) hself hself2 hother2⟩

end

lemma init_refines (hw : dev.tnodeWidth < 32) : Refines dev init fun _ => none := by
  have hgood : Good init.file := ⟨Nat.zero_le _, nofun, .level0 _⟩
  refine ⟨hgood, fun c => ?_⟩
  by_cases hc : c ≤ maxChunkId ∧ requiredTallness c ≤ init.file.topLevel
  · have hfind : findLevel0Tnode init.file c = some (.level0 fun _ => 0) := by
      rw [findLevel0Tnode_eq hgood, if_pos hc]
      rfl
    apply Or.inr
    rw [read_level0 hfind, get_cleared hw]
  · apply Or.inl
    apply read_null
    rw [findLevel0Tnode_eq hgood, if_neg hc]

def lastStored (ops : List Op) : Nat → Option (BitVec 32) := ops.foldl store fun _ => none

/-- A file is a map from chunk ids to chunks: whatever was stored, and
however the tree grew for it, each chunk id is read as the value last stored
for it. This holds of every entry width up to 30, even or odd. -/
theorem file_reads_lastStored (dev : Device) (grants : Nat → Bool)
    (ops : List Op) (hwidth : dev.tnodeWidth ≤ 30) (hgrants : ∀ n, grants n = true)
    (hops : ∀ op ∈ ops, op.chunkId ≤ maxChunkId ∧ ∀ val, op.val = some val →
      val.toNat < 2 ^ (dev.tnodeWidth + dev.chunkGroupBits)) :
    ∃ os s, run (step dev grants) init ops = some (os, s) ∧
      ∀ c, Reads dev s.file c (lastStored ops c) := by
  have hw : dev.tnodeWidth < 32 := by omega
  have hallowed : (fileContract dev).Allowed (fun _ => none) ops :=
    Contract.allowed_of_forall (fun op hop _ => hops op hop) _
  obtain ⟨os, s, hrun, -, -, hreads⟩ :=
    run_refines (step_refines hw hgrants) ops init _ (init_refines hw) hallowed
  exact ⟨os, s, hrun, hreads⟩

/-- Two stores of 18-bit entries in chunk groups of two, the second one with a
taller tree. -/
theorem file_reads_two :
    let ops : List Op := [⟨1, some 6⟩, ⟨0x1234, some 0x3ffff⟩]
    ∃ os s, run (step ⟨18, 1⟩ fun _ => true) init ops = some (os, s) ∧
      read ⟨18, 1⟩ s.file 1 = some (some 6) ∧
      read ⟨18, 1⟩ s.file 0x1234 = some (some 0x3fffe) := by
  intro ops
  have hops : ∀ op ∈ ops, op.chunkId ≤ maxChunkId ∧ ∀ val, op.val = some val →
      val.toNat < 2 ^ (18 + 1) := by
    intro op hop
    rcases List.mem_cons.mp hop with rfl | hop
    · exact ⟨by decide, fun val h => by cases h; decide⟩
    · rcases List.mem_singleton.mp hop with rfl
      exact ⟨by decide, fun val h => by cases h; decide⟩
  obtain ⟨os, s, hrun, hreads⟩ := file_reads_lastStored ⟨18, 1⟩
    (fun _ => true) ops (by decide) (fun _ => rfl) hops
  exact ⟨os, s, hrun, hreads 1, hreads 0x1234⟩

end BoardStack.Yaffs
