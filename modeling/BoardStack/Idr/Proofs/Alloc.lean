/-
What an idr tree means, and the representation invariant of lib/idr.c.

`lookup l p i` is the pointer the subtree `p` at distance `l` from the leaf
holds for id `i`: `none` when the id is not allocated, `some none` when it is
allocated with a NULL pointer. Only the id's low `l + 1` digits matter, so
one function serves every depth.

`LayerInv` is the invariant of one layer and everything below it: the layer
number is the distance from the leaf; a bit of the bitmap is set exactly when
that entry's subtree is full, at the leaf exactly when the entry is
allocated; `count` is the number of entries in use. The two
characterizations of "full" — every id below is allocated, and the bitmap is
all ones — meet in `bitmap_full_iff`, which is what lets `idr_mark_full` stop
where it does.

`sub_alloc` finds the least free id from its start on.

When that id lies in the block of the start (`Toward`), the walk never has to
back up: it enters each layer at its first clear bit, and a clear bit promises a
subtree with room. What makes the induction close is how the result is stated:
not as the leaf and the list of ancestors the code returns, but as what
`idr_mark_full` will make of them. `propagate` is `idr_mark_full` resumed at
an inner layer, so each level's conclusion is the next one's hypothesis.
-/
import BoardStack.Idr.Basic
import BoardStack.Base.Count
import BoardStack.Base.Digits

namespace BoardStack.Idr

open Base Function

variable {a : WordSize} {α : Type}

section

open Nat

-- == digits

/-- Digit `l` of an id in base `IDR_SIZE`. -/
def digit (a : WordSize) (l i : Nat) : Nat := Base.digit (idrBits a) l i

/-- The number of ids below a layer at distance `l`. -/
def capacity (a : WordSize) (l : Nat) : Nat := span (idrBits a) (l + 1)

lemma idrSize_eq (a : WordSize) : idrSize a = 2 ^ idrBits a := by
  rw [idrSize, one_shiftLeft]

lemma idrSize_eq_bits (a : WordSize) : idrSize a = a.bits := by
  cases a <;> rfl

lemma capacity_pos (a : WordSize) (l : Nat) : 0 < capacity a l := span_pos _ _

lemma capacity_zero (a : WordSize) : capacity a 0 = 2 ^ idrBits a := by
  rw [capacity, span_succ, span_zero, mul_one]

lemma capacity_succ (a : WordSize) (l : Nat) : capacity a (l + 1) = 2 ^ idrBits a * capacity a l :=
  span_succ _ _

lemma digit_lt_size (a : WordSize) (l i : Nat) : digit a l i < idrSize a := by
  rw [idrSize_eq]
  exact digit_lt _ l i

lemma digit_zero (a : WordSize) (i : Nat) : digit a 0 i = i % capacity a 0 := by
  rw [digit, Base.digit, span_zero, Nat.div_one, capacity_zero]

lemma digit_mod {l k : Nat} (hkl : k ≤ l) (i : Nat) : digit a k (i % capacity a l) = digit a k i :=
  Base.digit_mod (lt_succ_of_le hkl) i

lemma digit_block {l d r : Nat} (hd : d < 2 ^ idrBits a)
    (hr : r < capacity a l) : digit a (l + 1) (d * capacity a l + r) = d :=
  Base.digit_block hd hr

lemma digit_eq_zero_iff {l i : Nat} (h : i < capacity a (l + 1)) :
    digit a (l + 1) i = 0 ↔ i < capacity a l := by
  rw [digit, digit_of_lt h, div_eq_zero_iff_lt (span_pos _ _)]
  rfl

lemma slotOf_eq_digit {id : BitVec 32} (h : id.toNat < 2 ^ 31) (l : Nat) :
    slotOf a id (idrBits a * l) = digit a l id.toNat := by
  have hb : idrBits a ≤ 32 := by cases a <;> decide
  rw [slotOf, idrMask, toNat_and_mask _ hb, toNat_sshiftRight_of_lt h]
  rfl

lemma slotOf_zero {id : BitVec 32} (h : id.toNat < 2 ^ 31) :
    slotOf a id 0 = digit a 0 id.toNat := by
  simpa using slotOf_eq_digit (a := a) h 0

-- == what a tree holds

/-- The pointer a subtree at distance `l` holds for an id, if allocated. -/
def lookup : Nat → Slot a α → Nat → Option (Option α)
  | 0, .layer bm ary _ _, i =>
    if bm.getLsbD (digit a 0 i) then (ary (digit a 0 i)).toUser else none
  | l + 1, .layer _ ary _ _, i => lookup l (ary (digit a (l + 1) i)) i
  | _, _, _ => none

@[simp] lemma lookup_null (l i : Nat) : lookup l (.null : Slot a α) i = none := by
  cases l <;> rfl

@[simp] lemma lookup_zero_layer (bm : BitVec a.bits) (ary : Nat → Slot a α)
    (c : Int) (ly i : Nat) :
    lookup 0 (.layer bm ary c ly) i = if bm.getLsbD (digit a 0 i) then (ary (digit a 0 i)).toUser
        else none := rfl

@[simp] lemma lookup_succ_layer (l : Nat) (bm : BitVec a.bits)
    (ary : Nat → Slot a α) (c : Int) (ly i : Nat) :
    lookup (l + 1) (.layer bm ary c ly) i = lookup l (ary (digit a (l + 1) i)) i := rfl

lemma lookup_mod (l : Nat) (p : Slot a α) (i : Nat) :
    lookup l p (i % capacity a l) = lookup l p i := by
  induction l generalizing p i with
  | zero =>
    cases p with
    | layer bm ary c ly => simp [digit_mod le_rfl]
    | null => simp
    | user v => rfl
  | succ l ih =>
    cases p with
    | layer bm ary c ly =>
      rw [lookup_succ_layer, lookup_succ_layer, digit_mod le_rfl, ← ih _ (i % _), ← ih _ i]
      congr 1
      rw [capacity_succ, mul_comm, mod_mul_right_mod]
    | null => simp
    | user v => rfl

def Full (l : Nat) (p : Slot a α) : Prop := ∀ i, lookup l p i ≠ none

lemma not_full_null (l : Nat) : ¬ Full l (.null : Slot a α) := fun h => h 0 (lookup_null l 0)

-- == the invariant

def Slot.isSet : Slot a α → Bool
  | .null => false
  | _ => true

/-- The invariant of a layer at distance `l` and of everything below it. -/
def LayerInv : Nat → Slot a α → Prop
  | 0, .layer bm ary c ly =>
    ly = 0 ∧
    (∀ i, i < idrSize a → (ary i).toUser ≠ none) ∧
    (∀ i, i < idrSize a → bm.getLsbD i = false → ary i = .null) ∧
    c = countBelow (idrSize a) bm.getLsbD
  | l + 1, .layer bm ary c ly =>
    ly = l + 1 ∧
    (∀ i, i < idrSize a → ary i = .null ∨ LayerInv l (ary i)) ∧
    (∀ i, i < idrSize a → (bm.getLsbD i = true ↔ Full l (ary i))) ∧
    c = countBelow (idrSize a) fun i => (ary i).isSet
  | _, _ => False

variable {l : Nat}

lemma LayerInv.isSet {p : Slot a α} (h : LayerInv l p) : p.isSet = true := by
  cases p with
  | null => cases l <;> exact h.elim
  | user v | layer bm ary c ly => rfl

lemma LayerInv.exists_layer {p : Slot a α} (h : LayerInv l p) :
    ∃ q : IdrLayer a α, p = q.ptr ∧ q.layer = l := by
  cases p with
  | null | user v => cases l <;> exact h.elim
  | layer bm ary c ly =>
    refine ⟨⟨bm, ary, c, ly⟩, rfl, ?_⟩
    cases l with
    | zero | succ l => exact h.1

variable {ary : Nat → Slot a α}

lemma lookup_leaf_ne_none {bm : BitVec a.bits}
    {c : Int} {ly : Nat} (h : LayerInv 0 (.layer bm ary c ly)) (i : Nat) :
    lookup 0 (.layer bm ary c ly) i ≠ none ↔ bm.getLsbD (digit a 0 i) = true := by
  rw [lookup_zero_layer]
  by_cases hb : bm.getLsbD (digit a 0 i) = true
  · simp [hb, h.2.1 _ (digit_lt_size a 0 i)]
  · simp [hb]

lemma empty_of_count_zero {p : IdrLayer a α} (h : LayerInv l p.ptr) (hc : p.count = 0) :
    ∀ i, i < idrSize a → p.bitmap.getLsbD i = false ∧ p.ary i = .null := by
  intro i hi
  cases l with
  | zero =>
    have hcnt : p.count = _ := h.2.2.2
    have hbit : p.bitmap.getLsbD i = false := countBelow_eq_zero.mp (by omega) i hi
    exact ⟨hbit, h.2.2.1 i hi hbit⟩
  | succ l =>
    have hcnt : p.count = _ := h.2.2.2
    have hset : (p.ary i).isSet = false := countBelow_eq_zero (p := fun i => (p.ary i).isSet).mp
      (by omega) i hi
    rcases h.2.1 i hi with hnull | hinv
    · refine ⟨Bool.eq_false_iff.mpr fun hbit => ?_, hnull⟩
      have hfull := (h.2.2.1 i hi).mp hbit
      rw [hnull] at hfull
      exact not_full_null l hfull
    · simp [hinv.isSet] at hset

/-- A layer that holds nothing may stand at any distance from the leaf. -/
lemma layerInv_empty {p : IdrLayer a α}
    (h : ∀ i, i < idrSize a → p.bitmap.getLsbD i = false ∧ p.ary i = .null) (hc : p.count = 0)
    (l : Nat) : LayerInv l ({ p with layer := l } : IdrLayer a α).ptr ∧
      ∀ i, lookup l ({ p with layer := l } : IdrLayer a α).ptr i = none := by
  cases l with
  | zero =>
    refine ⟨⟨rfl, fun i hi => ?_, fun i hi _ => (h i hi).2, ?_⟩, fun i => ?_⟩
    · simp [(h i hi).2, Slot.toUser]
    · rw [countBelow_eq_zero.mpr fun i hi => (h i hi).1]
      exact hc
    · simp [IdrLayer.ptr, (h _ (digit_lt_size a 0 i)).1]
  | succ l =>
    refine ⟨⟨rfl, fun i hi => .inl (h i hi).2, fun i hi => ?_, ?_⟩, fun i => ?_⟩
    · simp [h i hi, not_full_null]
    · rw [countBelow_eq_zero.mpr fun i hi => by rw [(h i hi).2]; rfl]
      exact hc
    · simp [IdrLayer.ptr, (h _ (digit_lt_size a (l + 1) i)).2]

lemma lookup_of_count_zero {p : IdrLayer a α} (h : LayerInv l p.ptr) (hc : p.count = 0)
    (i : Nat) : lookup l p.ptr i = none := by
  have hlayer : ({ p with layer := l } : IdrLayer a α) = p := by
    cases l with
    | zero | succ l => rw [← show p.layer = _ from h.1]
  rw [← hlayer]
  exact (layerInv_empty (empty_of_count_zero h hc) hc l).2 i

/-- A bit is set exactly when every id of its entry is allocated. -/
lemma bit_iff {p : IdrLayer a α} {i : Nat} (h : LayerInv l p.ptr) (hi : i < idrSize a) :
    p.bitmap.getLsbD i = true ↔ ∀ j, digit a l j = i → lookup l p.ptr j ≠ none := by
  cases l with
  | zero =>
    constructor
    · rintro hbit j rfl
      exact (lookup_leaf_ne_none h j).mpr hbit
    intro hall
    have hdig : digit a 0 i = i := by
      rw [digit_zero, capacity_zero, ← idrSize_eq, mod_eq_of_lt hi]
    rw [← hdig]
    exact (lookup_leaf_ne_none h i).mp (hall i hdig)
  | succ l =>
    refine (h.2.2.1 i hi).trans ⟨?_, fun hall j => ?_⟩
    · rintro hfull j rfl
      exact hfull j
    have hj : j % capacity a l < capacity a l := mod_lt _ (capacity_pos a l)
    have hdig := digit_block (idrSize_eq a ▸ hi) hj
    have hne := hall _ hdig
    rwa [IdrLayer.ptr, lookup_succ_layer, hdig, ← lookup_mod, mul_comm, mul_add_mod,
      mod_mod, lookup_mod] at hne

lemma bitmap_full_iff {p : IdrLayer a α} (h : LayerInv l p.ptr) :
    p.bitmap = BitVec.allOnes a.bits ↔ Full l p.ptr := by
  rw [eq_allOnes_iff]
  constructor
  · intro hbits j
    have hj := digit_lt_size a l j
    exact (bit_iff h hj).mp (hbits _ (idrSize_eq_bits a ▸ hj)) j rfl
  · exact fun hfull i hi =>
      (bit_iff h (idrSize_eq_bits a ▸ hi)).mpr fun j _ => hfull j

-- == changing one entry

lemma lookup_setEntry (l m : Nat) (bm bm' : BitVec a.bits)
    (ary : Nat → Slot a α) (c c' : Int) (ly ly' : Nat) (q : Slot a α) (i : Nat) :
    lookup (l + 1) (.layer bm' (update ary m q) c' ly') i
      = if digit a (l + 1) i = m then lookup l q i
        else lookup (l + 1) (.layer bm ary c ly) i := by
  rw [lookup_succ_layer, lookup_succ_layer]
  by_cases h : digit a (l + 1) i = m
  · rw [h, update_self, if_pos rfl]
  · rw [update_of_ne h, if_neg h]

/-- One entry of a layer was changed, and what is below it holds `v` for an
id and is otherwise as before: so it is with the layer. -/
lemma lookup_setPath {l i : Nat} {v : Option (Option α)} {bm : BitVec a.bits} {c : Int} {ly : Nat}
    {q : Slot a α} (h : ∀ j, lookup l q j = if j % capacity a l = i % capacity a l then v
      else lookup l (ary (digit a (l + 1) i)) j) (bm' : BitVec a.bits) (c' : Int) (j : Nat) :
    lookup (l + 1) (.layer bm' (update ary (digit a (l + 1) i) q) c' ly) j
      = if j % capacity a (l + 1) = i % capacity a (l + 1) then v
        else lookup (l + 1) (.layer bm ary c ly) j := by
  have hcongr : j % capacity a (l + 1) = i % capacity a (l + 1)
      ↔ digit a (l + 1) j = digit a (l + 1) i ∧ j % capacity a l = i % capacity a l :=
    mod_span_succ_congr _ _ j i
  rw [lookup_setEntry l _ bm bm' ary c c' ly]
  simp only [hcongr]
  by_cases hdig : digit a (l + 1) j = digit a (l + 1) i
  · simp only [hdig, if_true, true_and, h, lookup_succ_layer]
  · simp only [hdig, if_false, false_and]

/-- A count of entries after one of them was changed. -/
lemma count_set {m : Nat} {c c' : Int} {used used' : Nat → Bool} (hm : m < idrSize a)
    (hcnt : c = countBelow (idrSize a) used) (hsame : ∀ i, i ≠ m → used' i = used i)
    (hc : c' + (if used m then 1 else 0) = c + if used' m then 1 else 0) :
    c' = countBelow (idrSize a) used' := by
  have hupd := countBelow_update hm fun i _ => hsame i
  cases hold : used m <;> cases hnew : used' m <;>
    simp only [hold, hnew, if_true, if_false, Bool.false_eq_true] at hupd hc <;> omega

/-- Replacing one entry of an inner layer keeps the invariant when the
entry's bit says whether the new subtree is full and `count` moves by the
change in use. -/
lemma layerInv_setEntry {l m : Nat} {bm bm' : BitVec a.bits}
    {c c' : Int} {ly : Nat} {q : Slot a α}
    (h : LayerInv (l + 1) (.layer bm ary c ly)) (hm : m < idrSize a) (hq : q = .null ∨ LayerInv l q)
    (hbm : ∀ i, i ≠ m → bm'.getLsbD i = bm.getLsbD i) (hbit : bm'.getLsbD m = true ↔ Full l q)
    (hc : c' + (if (ary m).isSet then 1 else 0) = c + if q.isSet then 1 else 0) :
    LayerInv (l + 1) (.layer bm' (update ary m q) c' ly) := by
  obtain ⟨hly, hary, hfull, hcnt⟩ := h
  refine ⟨hly, ?_, ?_, count_set hm hcnt (fun i hi => by rw [update_of_ne hi]) ?_⟩
  · intro i hi
    by_cases him : i = m
    · subst him
      rwa [update_self]
    · rw [update_of_ne him]
      exact hary i hi
  · intro i hi
    by_cases him : i = m
    · subst him
      rwa [update_self]
    · rw [update_of_ne him, hbm i him]
      exact hfull i hi
  · rwa [update_self]

/-- The same for a leaf, and what it then holds. -/
lemma leaf_set {m : Nat} {bm : BitVec a.bits} {c : Int} {ly : Nat} (bm' : BitVec a.bits)
    (q : Slot a α) (c' : Int) (h : LayerInv 0 (.layer bm ary c ly)) (hm : m < idrSize a)
    (hq : q.toUser ≠ none)
    (hbm : ∀ i, i ≠ m → bm'.getLsbD i = bm.getLsbD i) (hbit : bm'.getLsbD m = false → q = .null)
    (hc : c' + (if bm.getLsbD m then 1 else 0) = c + if bm'.getLsbD m then 1 else 0) :
    LayerInv 0 (.layer bm' (update ary m q) c' ly) ∧
      ∀ i, lookup 0 (.layer bm' (update ary m q) c' ly) i
        = if i % capacity a 0 = m then if bm'.getLsbD m then q.toUser else none
          else lookup 0 (.layer bm ary c ly) i := by
  obtain ⟨hly, huser, hnull, hcnt⟩ := h
  refine ⟨⟨hly, ?_, ?_, count_set hm hcnt hbm hc⟩, ?_⟩
  · intro i hi
    by_cases him : i = m
    · subst him
      rwa [update_self]
    · rw [update_of_ne him]
      exact huser i hi
  · intro i hi hb
    by_cases him : i = m
    · subst him
      rw [update_self]
      exact hbit hb
    · rw [hbm i him] at hb
      rw [update_of_ne him]
      exact hnull i hi hb
  · intro i
    rw [lookup_zero_layer, lookup_zero_layer, ← digit_zero]
    by_cases him : digit a 0 i = m
    · rw [him, update_self, if_pos rfl]
    · rw [update_of_ne him, hbm _ him, if_neg him]

end

open BitVec

variable {id : BitVec 32} {p : IdrLayer a α} {k l m n : Nat}

-- == fresh layers

/-- A layer as it comes off the free list: nothing in it. -/
def Clean (p : IdrLayer a α) : Prop := p.bitmap = 0 ∧ (∀ i, p.ary i = .null) ∧ p.count = 0

/-- The free list holds clean layers, its length is `id_free_cnt`, and at
least `n` layers are on it. -/
structure FreeList (idp : IdrHandle a α) (n : Nat) : Prop where
  clean : ∀ p ∈ idp.idFree, Clean p
  count : idp.idFreeCnt = idp.idFree.length
  enough : n ≤ idp.idFree.length

variable {idp : IdrHandle a α}

lemma FreeList.mono {k : Nat} (h : FreeList idp n) (hk : k ≤ n) : FreeList idp k :=
  ⟨h.clean, h.count, le_trans hk h.enough⟩

lemma getFromFreeList_some (h : FreeList idp (n + 1)) :
    ∃ new idp', getFromFreeList idp = (some new, idp') ∧ Clean new ∧
      FreeList idp' n ∧ idp'.top = idp.top ∧ idp'.layers = idp.layers := by
  obtain ⟨hclean, hcount, hen⟩ := h
  match hlist : idp.idFree, hen with
  | p :: rest, hen =>
    obtain ⟨hb, hary, hc⟩ := hclean p (by simp [hlist])
    refine ⟨p.setAry 0 .null, { idp with idFree := rest, idFreeCnt := idp.idFreeCnt - 1 },
      by simp only [getFromFreeList, hlist], ⟨hb, ?_, hc⟩, ⟨?_, ?_, ?_⟩, rfl, rfl⟩
    · intro i
      simp only [IdrLayer.setAry, update_apply, hary]
      split <;> rfl
    · intro q hq
      have hq' : q ∈ rest := hq
      exact hclean q (by simp [hlist, hq'])
    · simp [hcount, hlist]
    · simpa using hen

lemma Clean.layerInv (h : Clean p) (l : Nat) :
    LayerInv l ({ p with layer := l } : IdrLayer a α).ptr ∧
      ∀ i, lookup l ({ p with layer := l } : IdrLayer a α).ptr i = none :=
  layerInv_empty (fun i _ => ⟨by simp [h.1], h.2.1 i⟩) h.2.2 l

-- == marking full, resumed

/-- `idr_mark_full` from a layer whose own bit is already set: carry the
bit upwards for as long as layers are full. -/
def propagate (p : IdrLayer a α) (id : BitVec 32) : List (Frame a α) → IdrLayer a α
  | [] => p
  | (q, m) :: pa =>
    let q := q.setAry m p.ptr
    if p.bitmap = BitVec.allOnes a.bits then
      propagate { q with
          bitmap := setBit (slotOf a (id.sshiftRight (idrBits a)) 0) q.bitmap }
        (id.sshiftRight (idrBits a)) pa
    else plug q pa

lemma idrMarkFull_eq (p : IdrLayer a α) (id : BitVec 32) (pa : List (Frame a α)) :
    idrMarkFull p id pa = propagate { p with bitmap := setBit (slotOf a id 0) p.bitmap } id pa := by
  induction pa generalizing p id with
  | nil => rfl
  | cons f pa ih =>
    obtain ⟨q, m⟩ := f
    simp only [idrMarkFull, propagate]
    split
    · exact ih _ _
    · rfl

lemma propagate_of_not_full (h : p.bitmap ≠ allOnes a.bits) (id : BitVec 32)
    (pa : List (Frame a α)) : propagate p id pa = plug p pa := by
  cases pa with
  | nil => rfl
  | cons f pa =>
    obtain ⟨q, m⟩ := f
    simp only [propagate, if_neg h]
    rfl


-- == id arithmetic

/-- `k` with its digits below `l` cleared. -/
def floor (a : WordSize) (l k : Nat) : Nat := k / span (idrBits a) l * span (idrBits a) l

lemma floor_le (a : WordSize) (l k : Nat) : floor a l k ≤ k := Nat.div_mul_le_self _ _

lemma div_span (a : WordSize) (l k : Nat) :
    k / span (idrBits a) l = 2 ^ idrBits a * (k / capacity a l) + digit a l k := by
  rw [capacity, span_succ, mul_comm _ (span _ _), ← Nat.div_div_eq_div_mul]
  exact (Nat.div_add_mod _ _).symm

lemma floor_eq (a : WordSize) (l k : Nat) :
    floor a l k = capacity a l * (k / capacity a l) + digit a l k * span (idrBits a) l := by
  rw [floor, div_span, capacity, span_succ]
  ring

lemma floor_succ_le (a : WordSize) (l k : Nat) : floor a (l + 1) k ≤ floor a l k := by
  rw [floor_eq a l, show floor a (l + 1) k = capacity a l * (k / capacity a l) from mul_comm _ _]
  exact Nat.le_add_right _ _

lemma floor_mono {j : Nat} (h : j ≤ k) : floor a l j ≤ floor a l k :=
  Nat.mul_le_mul_right _ (Nat.div_le_div_right h)

private lemma xor_digit {b t n m : Nat} (hn : n < 2 ^ b) (hm : m < 2 ^ b) :
    (2 ^ b * t + n) ^^^ n ^^^ m = 2 ^ b * t + m := by
  refine Nat.eq_of_testBit_eq fun i => ?_
  rw [Nat.testBit_xor, Nat.testBit_xor, Nat.testBit_two_pow_mul_add _ hn,
    Nat.testBit_two_pow_mul_add _ hm]
  split
  · simp
  next hi =>
  have hpow : 2 ^ b ≤ 2 ^ i := Nat.pow_le_pow_right (by decide) (by omega)
  rw [Nat.testBit_lt_two_pow (lt_of_lt_of_le hn hpow),
    Nat.testBit_lt_two_pow (lt_of_lt_of_le hm hpow)]
  simp

/-- An id with another digit `l`, and those below cleared. -/
lemma toNat_moveDigit (hlt : id.toNat < 2 ^ 31) (hk : k < 2 ^ 30)
    (hblock : id.toNat / capacity a l = k / capacity a l) :
    ((id.sshiftRight (idrBits a * l) ^^^ BitVec.ofNat 32 (digit a l id.toNat)
        ^^^ BitVec.ofNat 32 (digit a l k)) <<< (idrBits a * l)).toNat
      = floor a l k := by
  have hle := floor_le a l k
  have hs : 2 ^ idrBits a ≤ 2 ^ 32 := by cases a <;> decide
  have hdig : ∀ i, digit a l i < 2 ^ idrBits a := digit_lt _ l
  have hmod : ∀ i, digit a l i % 2 ^ 32 = digit a l i :=
    fun i => Nat.mod_eq_of_lt (lt_of_lt_of_le (hdig i) hs)
  rw [toNat_shiftLeft, toNat_xor, toNat_xor, toNat_sshiftRight_of_lt hlt, toNat_ofNat,
    toNat_ofNat, hmod, hmod]
  show ((id.toNat / span (idrBits a) l) ^^^ _ ^^^ _) <<< _ % _ = _
  rw [div_span, xor_digit (hdig _) (hdig _), hblock, ← div_span, Nat.shiftLeft_eq]
  exact Nat.mod_eq_of_lt (show floor a l k < _ by omega)

lemma not_maxIdBit (h : id.toNat < 2 ^ 31) : ¬ (maxIdBit ≤ id ∨ id.slt 0 = true) := by
  rintro (hle | hneg)
  · rw [le_def] at hle
    have : maxIdBit.toNat = 2 ^ 31 := by decide
    omega
  · rw [slt_iff_toInt_lt, toInt_eq_toNat_of_lt (by omega)] at hneg
    simp at hneg
    omega

-- == the walk

/-- Install the user pointer in the leaf entry of `id`. -/
def install (leaf : IdrLayer a α) (id : BitVec 32) (ptr : Option α) : IdrLayer a α :=
  { leaf.setAry (slotOf a id 0) (.ofUser ptr) with count := leaf.count + 1 }

@[simp] lemma toUser_ofUser (ptr : Option α) : (Slot.ofUser ptr : Slot a α).toUser = some ptr := by
  cases ptr <;> rfl

/-- At `id` the walk goes straight to `k`, a free id of the layer: it is at
`k`, or `k` is the first free id from the start of the entry of `id` on. -/
structure Toward (l : Nat) (p : Slot a α) (id k : Nat) : Prop where
  free : lookup l p k = none
  le : id ≤ k
  block : id / capacity a l = k / capacity a l
  least : id ≠ k → ∀ j, floor a l id ≤ j → j < k → lookup l p j ≠ none

lemma Toward.clear {s : Nat} (hp : LayerInv l p.ptr) (h : Toward l p.ptr s k) :
    p.bitmap.getLsbD (digit a l k) = false := by
  rw [Bool.eq_false_iff]
  exact fun hbit => (bit_iff hp (digit_lt_size a l k)).mp hbit k rfl h.free

lemma Toward.bits {s i : Nat} (hp : LayerInv l p.ptr) (h : Toward l p.ptr s k)
    (hi : digit a l s ≤ i) (hik : i < digit a l k) : p.bitmap.getLsbD i = true := by
  have hne : s ≠ k := by
    rintro rfl
    omega
  have hsize := digit_lt_size a l k
  refine (bit_iff hp (by omega)).mpr fun j hj => ?_
  -- the id of the block of `k` with the same digits from `l` on
  have hmem : floor a l s ≤ capacity a l * (k / capacity a l) + j % capacity a l ∧
      capacity a l * (k / capacity a l) + j % capacity a l < k := by
    have hk := floor_le a l k
    have hmod := Nat.mod_lt j (span_pos (idrBits a) l)
    have hmul := Nat.mul_le_mul_right (span (idrBits a) l) hi
    have hmul' := Nat.mul_le_mul_right (span (idrBits a) l) (Nat.succ_le_of_lt hik)
    rw [floor_eq, Nat.succ_mul] at *
    rw [show j % capacity a l = _ from mod_span_succ _ _ j, show Base.digit _ l j = i from hj,
      h.block]
    omega
  have hlook := h.least hne _ hmem.1 hmem.2
  rwa [← lookup_mod, Nat.mul_add_mod, Nat.mod_mod, lookup_mod] at hlook

/-- The rest of a round of the walk that goes to `id` in entry `m`. -/
def descend (fuel : Nat) (idp : IdrHandle a α) (p : IdrLayer a α) (m : Nat)
    (id : BitVec 32) (pa : List (Frame a α)) : Nat → Option (SubAlloc a α)
  | 0 => some (.found id p pa { idp with top := (plug p pa).ptr })
  | l + 1 =>
    match p.ary m with
    | .null =>
      match getFromFreeList idp with
      | (none, idp) => some (.noLayer { idp with top := (plug p pa).ptr })
      | (some new, idp) =>
        let new := { new with layer := l }
        let p := { p.setAry m new.ptr with count := p.count + 1 }
        subAllocLoop fuel idp new l id ((p, m) :: pa)
    | .layer bm ary c ly =>
      subAllocLoop fuel idp ⟨bm, ary, c, ly⟩ l id ((p, m) :: pa)
    | .user _ => none

/-- A round of the walk that finds the entry of `k`. -/
lemma subAllocLoop_enter (fuel : Nat) (idp : IdrHandle a α) (pa : List (Frame a α))
    (hk : k < 2 ^ 30) (hle : id.toNat ≤ k) (hblock : id.toNat / capacity a l = k / capacity a l)
    (hfind : findNextBit (~~~ p.bitmap) (idrSize a) (digit a l id.toNat) = digit a l k) :
    ∃ id' : BitVec 32, id'.toNat ≤ k ∧ floor a l id'.toNat = floor a l k ∧
      (id.toNat = k → id'.toNat = k) ∧ subAllocLoop (fuel + 1) idp p l id pa
        = descend fuel idp p (digit a l k) id' pa l := by
  have hlt : id.toNat < 2 ^ 31 := by omega
  have hsize := digit_lt_size a l k
  let id' := if digit a l k ≠ digit a l id.toNat then
    (id.sshiftRight (idrBits a * l) ^^^ BitVec.ofNat 32 (digit a l id.toNat)
      ^^^ BitVec.ofNat 32 (digit a l k)) <<< (idrBits a * l) else id
  obtain ⟨hle', hfloor, hsame⟩ : id'.toNat ≤ k ∧ floor a l id'.toNat = floor a l k ∧
      (id.toNat = k → id'.toNat = k) := by
    unfold id'
    split_ifs with hne
    · rw [toNat_moveDigit hlt hk hblock]
      refine ⟨floor_le a l k, ?_, fun heq => absurd (by rw [heq]) hne⟩
      exact congrArg (· * _) (Nat.mul_div_cancel _ (span_pos _ _))
    · rw [floor_eq, floor_eq, hblock, Decidable.not_not.mp hne]
      exact ⟨hle, rfl, fun heq => heq⟩
  have hlt' : id'.toNat < 2 ^ 31 := by omega
  refine ⟨id', hle', hfloor, hsame, ?_⟩
  rw [subAllocLoop]
  simp only [slotOf_eq_digit hlt, hfind, if_neg (ne_of_lt hsize)]
  rw [if_neg (not_maxIdBit hlt')]
  cases l with
  | zero | succ l => rfl

lemma Toward.find {s : Nat} (hp : LayerInv l p.ptr) (h : Toward l p.ptr s k) :
    findNextBit (~~~ p.bitmap) (idrSize a) (digit a l s) = digit a l k := by
  have hsize := digit_lt_size a l k
  have hfloor : floor a l s ≤ floor a l k := floor_mono h.le
  have hn : digit a l s ≤ digit a l k := by
    rw [floor_eq, floor_eq, h.block] at hfloor
    exact Nat.le_of_mul_le_mul_right (by omega) (span_pos (idrBits a) l)
  rw [idrSize_eq_bits] at hsize ⊢
  exact findNextBit_not hn hsize (h.clear hp) fun i => h.bits hp

/-- What a walk to `id'` that started at layer `p` below the ancestors `pa`
has found: a leaf and ancestors `pa'` that `idr_mark_full` turns into `p`
with that id taken, the marking resumed at `pa`. -/
def Found (l : Nat) (p : IdrLayer a α) (pa : List (Frame a α)) (id' : BitVec 32)
    (leaf : IdrLayer a α) (pa' : List (Frame a α)) : Prop :=
  ∀ ptr : Option α, ∃ p' : IdrLayer a α, LayerInv l p'.ptr ∧ (∀ i, lookup l p'.ptr i
      = if i % capacity a l = id'.toNat % capacity a l then some ptr
        else lookup l p.ptr i) ∧
    idrMarkFull (install leaf id' ptr) id' pa' = propagate p' (id'.sshiftRight (idrBits a * l)) pa

variable {pa pa' : List (Frame a α)} {id' : BitVec 32}

lemma found_leaf (h : LayerInv 0 p.ptr) (hlt : id'.toNat < 2 ^ 31)
    (hclear : p.bitmap.getLsbD (digit a 0 id'.toNat) = false) :
    Found 0 p pa id' p pa := by
  have hn := digit_lt_size a 0 id'.toNat
  have hw : digit a 0 id'.toNat < a.bits := idrSize_eq_bits a ▸ hn
  intro ptr
  obtain ⟨hinv, hlook⟩ := leaf_set (setBit (digit a 0 id'.toNat) p.bitmap) (.ofUser ptr)
    (p.count + 1) h hn (by simp)
    (fun i hi => by simp [getLsbD_setBit hw, hi.symm])
    (fun hbit => by simp [getLsbD_setBit hw] at hbit) (by simp [getLsbD_setBit hw, hclear])
  simp only [getLsbD_setBit hw, decide_true, Bool.or_true, if_true, toUser_ofUser] at hlook
  rw [digit_zero] at hinv hlook
  refine ⟨⟨_, _, _, _⟩, hinv, hlook, ?_⟩
  rw [idrMarkFull_eq, install, slotOf_zero hlt, digit_zero, Nat.mul_zero, sshiftRight_zero]
  rfl

lemma found_lift {p1 q leaf : IdrLayer a α} (hp1 : LayerInv (l + 1) p1.ptr)
    (hlt : id'.toNat < 2 ^ 31) (hm : digit a (l + 1) id'.toNat = m)
    (hentry : p1.ary m = q.ptr) (hclear : p1.bitmap.getLsbD m = false)
    (hsame : ∀ i, lookup (l + 1) p1.ptr i = lookup (l + 1) p.ptr i)
    (h : Found l q ((p1, m) :: pa) id' leaf pa') :
    Found (l + 1) p pa id' leaf pa' := by
  have hsize : m < idrSize a := hm ▸ digit_lt_size a _ _
  have hmw : m < a.bits := idrSize_eq_bits a ▸ hsize
  intro ptr
  obtain ⟨q', hq', hlook, hmark⟩ := h ptr
  have hshift : (id'.sshiftRight (idrBits a * l)).sshiftRight (idrBits a)
      = id'.sshiftRight (idrBits a * (l + 1)) := by
    rw [Nat.mul_succ, sshiftRight_add]
  have hslot : slotOf a (id'.sshiftRight (idrBits a * (l + 1))) 0 = m := by
    rw [← hm, ← slotOf_eq_digit hlt, slotOf, slotOf, sshiftRight_zero]
  have hcount : p1.count + (if (p1.ary m).isSet then 1 else 0)
      = p1.count + if q'.ptr.isSet then 1 else 0 := by
    rw [hentry]
    rfl
  -- the layer with the entry replaced, whatever its bitmap
  have hlook' : ∀ (bm : BitVec a.bits) (i : Nat),
      lookup (l + 1) (.layer bm (update p1.ary m q'.ptr) p1.count p1.layer) i
      = if i % capacity a (l + 1) = id'.toNat % capacity a (l + 1) then some ptr
        else lookup (l + 1) p.ptr i := by
    intro bm i
    subst hm
    rw [← hentry] at hlook
    rw [lookup_setPath hlook bm p1.count i, ← hsame]
    rfl
  rw [hmark, propagate, hshift, hslot]
  by_cases hfull : q'.bitmap = allOnes a.bits
  · rw [if_pos hfull]
    refine ⟨_, ?_, ?_, rfl⟩
    · refine layerInv_setEntry hp1 hsize (.inr hq') ?_ ?_ hcount
      · intro i hi
        show (setBit m p1.bitmap).getLsbD i = _
        simp [getLsbD_setBit hmw, hi.symm]
      · show (setBit m p1.bitmap).getLsbD m = true ↔ _
        simp [getLsbD_setBit hmw, ← bitmap_full_iff hq', hfull]
    · exact hlook' _
  · rw [if_neg hfull]
    have hnot : (p1.setAry m q'.ptr).bitmap ≠ allOnes a.bits := by
      intro hall
      have := (eq_allOnes_iff _).mp hall m hmw
      simp [show (p1.setAry m q'.ptr).bitmap = p1.bitmap from rfl, hclear] at this
    refine ⟨p1.setAry m q'.ptr, ?_, ?_, ?_⟩
    · refine layerInv_setEntry hp1 hsize (.inr hq') (fun _ _ => rfl) ?_ hcount
      show p1.bitmap.getLsbD m = true ↔ _
      rw [hclear, ← bitmap_full_iff hq']
      simp [hfull]
    · exact hlook' _
    · exact (propagate_of_not_full hnot _ _).symm

lemma subAllocLoop_found (hk : k < 2 ^ 30) : ∀ (l fuel : Nat) (idp : IdrHandle a α)
    (p : IdrLayer a α) (id : BitVec 32) (pa : List (Frame a α)), l < fuel →
    LayerInv l p.ptr → Toward l p.ptr id.toNat k → FreeList idp l →
    ∃ id' leaf pa' idp', subAllocLoop fuel idp p l id pa = some (.found id' leaf pa' idp') ∧
      id'.toNat = k ∧ Found l p pa id' leaf pa' ∧ FreeList idp' 0 ∧
      idp'.layers = idp.layers := by
  intro l
  induction l with
  | zero =>
    intro fuel idp p id pa hfuel hinv hto hfree
    rcases fuel with _ | fuel
    · omega
    obtain ⟨id', -, hid, -, heq⟩ :=
      subAllocLoop_enter fuel idp pa hk hto.le hto.block (hto.find hinv)
    rw [floor, floor, span_zero, Nat.div_one, Nat.div_one, mul_one, mul_one] at hid
    exact ⟨id', p, pa, _, heq, hid, found_leaf hinv (by omega) (hid ▸ hto.clear hinv),
      ⟨hfree.clean, hfree.count, hfree.enough⟩, rfl⟩
  | succ l ih =>
    intro fuel idp p id pa hfuel hinv hto hfree
    rcases fuel with _ | fuel
    · omega
    have hclear := hto.clear hinv
    have hm := digit_lt_size a (l + 1) k
    obtain ⟨id', hle, hid, hsame, heq⟩ :=
      subAllocLoop_enter fuel idp pa hk hto.le hto.block (hto.find hinv)
    -- the walk goes on in a layer that holds what the entry holds
    have hbelow : ∀ q : Slot a α, (∀ i, digit a (l + 1) i = digit a (l + 1) k →
        lookup (l + 1) p.ptr i = lookup l q i) → Toward l q id'.toNat k := by
      intro q hq
      have hblock := Nat.eq_of_mul_eq_mul_right (capacity_pos a l) hid
      refine ⟨hq k rfl ▸ hto.free, hle, hblock, fun hne j hj hjk => ?_⟩
      have hlow : floor a (l + 1) k ≤ j := hid ▸ (floor_succ_le a l _).trans hj
      have hdiv : j / capacity a l = k / capacity a l :=
        le_antisymm (Nat.div_le_div_right hjk.le)
          ((Nat.le_div_iff_mul_le (capacity_pos a l)).mpr hlow)
      rw [← hq j (congrArg (· % _) hdiv)]
      exact hto.least (fun heq => hne (hsame heq)) j ((floor_mono hto.le).trans hlow) hjk
    rcases hinv.2.1 _ hm with hnull | hchild
    · -- a missing layer is created
      obtain ⟨new, idp1, hget, hclean, hfree1, -, hlay1⟩ := getFromFreeList_some hfree
      obtain ⟨hnew, hempty⟩ := hclean.layerInv l
      simp only [descend, hnull, hget] at heq
      have hp1 : LayerInv (l + 1)
          ({ p.setAry (digit a (l + 1) k) ({ new with layer := l } : IdrLayer a α).ptr with
            count := p.count + 1 } : IdrLayer a α).ptr := by
        refine layerInv_setEntry hinv hm (.inr hnew) (fun _ _ => rfl) ?_ ?_
        · show p.bitmap.getLsbD _ = true ↔ _
          rw [hclear]
          simp only [Bool.false_eq_true, false_iff]
          exact fun hf => hf 0 (hempty 0)
        · rw [hnull]
          show p.count + 1 + 0 = p.count + 1
          omega
      have hnone : ∀ i, digit a (l + 1) i = digit a (l + 1) k → lookup (l + 1) p.ptr i = none := by
        intro i hi
        rw [IdrLayer.ptr, lookup_succ_layer, hi, hnull, lookup_null]
      obtain ⟨id2, leaf, pa', idp', hloop, hid2, hfound, hfree', hlay⟩ :=
        ih fuel idp1 { new with layer := l } id' _ (by omega) hnew
          (hbelow _ fun i hi => by rw [hempty, hnone i hi]) hfree1
      refine ⟨id2, leaf, pa', idp', heq.trans hloop, hid2,
        found_lift hp1 (by omega) (by rw [hid2]) ?_ hclear ?_ hfound, hfree', hlay.trans hlay1⟩
      · exact update_self _ _ _
      intro i
      refine (lookup_setEntry l _ p.bitmap _ p.ary p.count _ p.layer _ _ i).trans ?_
      split
      · next hdig =>
        rw [hempty]
        exact (hnone i hdig).symm
      · rfl
    · -- the entry's layer is there
      obtain ⟨q, hq, -⟩ := hchild.exists_layer
      rw [hq] at hchild
      simp only [descend, hq, IdrLayer.ptr] at heq
      obtain ⟨id2, leaf, pa', idp', hloop, hid2, hfound, hfree', hlay⟩ :=
        ih fuel idp q id' _ (by omega) hchild
          (hbelow _ fun i hi => by rw [IdrLayer.ptr, lookup_succ_layer, hi, hq])
          (hfree.mono (by omega))
      exact ⟨id2, leaf, pa', idp', heq.trans hloop, hid2,
        found_lift hinv (by omega) (by rw [hid2]) hq hclear (fun _ => rfl) hfound, hfree', hlay⟩

end BoardStack.Idr
