/-
Shifts and remaps of lib/bitmap.c.

`__bitmap_shift_left` and `__bitmap_shift_right` walk over the words, each of which
comes from two words of the source.
The source may be the destination itself (`src = none`); the walks go up for
the right shift and down for the left one, so that no word is read after it
was written. Where `rem` is 0 the other word is 0, and so is what its shift by
`BITS_PER_LONG` gives.

`bitmap_remap` and `bitmap_bitremap` go from a bit of `old` to its ordinal and on to the
bit of `new` with that ordinal. The two loops that count are the index of an element in the list
of the set bits (`onesFrom`) and the element at an index, which are inverse to
each other since the list has no duplicates. `dst` shares no word with `old`
and `new`; where it is `src` itself (`none`) nothing is done.
-/
import BoardStack.Bitmap.Words

namespace BoardStack.Bitmap

open Base Nat

section

open Function BitVec Option

variable {a : WordSize} {n i : Nat}

-- == model

/-- `for (k = lim - off - 1; k >= 0; --k)`. -/
def leftLoop (src : Option (Words a)) (lim left off rem : Nat) : Nat → Words a → Words a
  | 0, m => m
  | k + 1, m =>
    leftLoop src lim left off rem k
      (update m (k + off) (shiftedWord (src.getD m) lim left off rem k))

/-- `__bitmap_shift_left`. -/
def bitmapShiftLeftTo (src : Option (Words a)) (dst : Words a) (shift bits : Nat) : Words a :=
  let lim := bitsToLongs a bits
  let off := shift / a.bits
  let m := leftLoop src lim (bits % a.bits) off (shift % a.bits) (lim - off) dst
  fun k => if k < off then 0 else m k

/-- What `__bitmap_shift_right` puts into word `k`. -/
def rightWord (m : Words a) (lim left off rem k : Nat) : BitVec a.bits :=
  let upper :=
    if rem = 0 ∨ lim ≤ off + k + 1 then 0
    else if left ≠ 0 ∧ off + k + 1 = lim - 1 then
      m (off + k + 1) &&& lowMask a left
    else m (off + k + 1)
  let lower :=
    if left ≠ 0 ∧ off + k = lim - 1 then m (off + k) &&& lowMask a left
    else m (off + k)
  let word := upper <<< (a.bits - rem) ||| lower >>> rem
  if left ≠ 0 ∧ k = lim - 1 then word &&& lowMask a left else word

/-- `for (k = 0; off + k < lim; ++k)`, for `c` more words. -/
def rightLoop (src : Option (Words a)) (lim left off rem : Nat) : Nat → Nat → Words a → Words a
  | 0, _, m => m
  | c + 1, k, m =>
    rightLoop src lim left off rem c (k + 1)
      (update m k (rightWord (src.getD m) lim left off rem k))

/-- `__bitmap_shift_right`. -/
def bitmapShiftRightTo (src : Option (Words a)) (dst : Words a) (shift bits : Nat) : Words a :=
  let lim := bitsToLongs a bits
  let off := shift / a.bits
  let m :=
    rightLoop src lim (bits % a.bits) off (shift % a.bits) (lim - off) 0 dst
  fun k => if lim - off ≤ k ∧ k < lim - off + off then 0 else m k

-- == the left shift

variable {src : Option (Words a)} {dst m s : Words a} {lim left off rem k j : Nat}

lemma leftLoop_none (k : Nat) (m : Words a) :
    leftLoop none lim left off rem k m = shiftLoop lim left off rem k m := by
  induction k generalizing m with
  | zero => rfl
  | succ k ih => exact ih _

lemma leftLoop_some (k : Nat) (m : Words a) (j : Nat) :
    leftLoop (some s) lim left off rem k m j
      = if off ≤ j ∧ j < k + off then shiftedWord s lim left off rem (j - off)
        else m j := by
  induction k generalizing m with
  | zero => rw [if_neg (by omega), leftLoop]
  | succ k ih =>
    rw [leftLoop, ih, getD_some]
    by_cases hj : j = k + off
    · subst hj
      rw [if_neg (by omega), if_pos (by omega), update_self, Nat.add_sub_cancel]
    · rw [update_of_ne hj]
      congr 1
      apply propext
      omega

lemma bitmapShiftLeftTo_eq (hj : j < bitsToLongs a n) (shift : Nat) :
    bitmapShiftLeftTo src dst shift n j = bitmapShiftLeft (src.getD dst) shift n j := by
  cases src with
  | none =>
    unfold bitmapShiftLeftTo bitmapShiftLeft
    rw [leftLoop_none, getD_none]
  | some s =>
    rw [bitmapShiftLeft_eq _ shift hj, getD_some]
    unfold bitmapShiftLeftTo
    split
    · rfl
    · rw [leftLoop_some, if_pos (by omega)]

-- == the right shift

lemma rightWord_congr (h : ∀ j, k ≤ j → m j = s j) :
    rightWord m lim left off rem k = rightWord s lim left off rem k := by
  unfold rightWord
  rw [h (off + k) (by omega), h (off + k + 1) (by omega)]

lemma rightLoop_eq (c k : Nat) (m : Words a) (h : ∀ j, k ≤ j → src.getD m j = s j) (j : Nat) :
    rightLoop src lim left off rem c k m j
      = if k ≤ j ∧ j < k + c then rightWord s lim left off rem j
        else m j := by
  induction c generalizing k m with
  | zero => rw [if_neg (by omega), rightLoop]
  | succ c ih =>
    have hkeep : ∀ w, ∀ j, k + 1 ≤ j → src.getD (update m k w) j = s j := by
      intro w j hj
      rw [← h j (by omega)]
      cases src with
      | none => exact update_of_ne (by omega) _ _
      | some s => rfl
    rw [rightLoop, ih _ _ (hkeep _), rightWord_congr h]
    by_cases hj : j = k
    · subst hj
      rw [if_neg (by omega), if_pos (by omega), update_self]
    · rw [update_of_ne hj]
      congr 1
      apply propext
      omega

lemma getLsbD_rightWord {b : Nat} (hrem : rem < a.bits) (hb : b < a.bits)
    (hk : off + k < bitsToLongs a n) :
    (rightWord m (bitsToLongs a n) (n % a.bits) off rem k).getLsbD b
      = (decide ((off + k) * a.bits + rem + b < n) &&
        testBit m ((off + k) * a.bits + rem + b)) := by
  have hle : k * a.bits ≤ (off + k) * a.bits := Nat.mul_le_mul_right _ (Nat.le_add_left k off)
  have hnext := Nat.add_one_mul (off + k) a.bits
  -- the last mask takes nothing, since bits come from above
  have hmask : ∀ x y : Bool, x = (decide ((off + k) * a.bits + rem + b < n) && y) →
        (decide (k * a.bits + b < n) && x) = (decide ((off + k) * a.bits + rem + b < n) && y) := by
    rintro x y rfl
    by_cases hend : (off + k) * a.bits + rem + b < n
    · rw [decide_eq_true (show k * a.bits + b < n by omega), Bool.true_and]
    · rw [decide_eq_false hend, Bool.false_and, Bool.and_false]
  unfold rightWord
  rw [getLsbD_masked _ (by omega) hb, getLsbD_or, getLsbD_shiftLeft,
    getLsbD_ushiftRight, decide_eq_true hb, Bool.true_and]
  apply hmask
  by_cases hrb : rem + b < a.bits
  · rw [decide_eq_true (by omega), Bool.not_true, Bool.false_and,
      Bool.false_or, getLsbD_masked _ hk hrb, add_assoc, testBit_eq hrb rfl]
  rw [getLsbD_of_ge _ (rem + b) (by omega), Bool.or_false,
    decide_eq_false (by omega), Bool.not_false, Bool.true_and]
  by_cases hlast : bitsToLongs a n ≤ off + k + 1
  · have hend := Nat.mul_le_mul_right a.bits hlast
    have hn := (bitsToLongs_bounds a n).1
    rw [if_pos (.inr hlast), decide_eq_false (by omega), Bool.false_and]
    exact getLsbD_zero
  · have hp : (off + k) * a.bits + rem + b = (off + k + 1) * a.bits + (b - (a.bits - rem)) := by
      omega
    rw [if_neg (by omega), getLsbD_masked _ (by omega) (by omega), hp, testBit_eq (by omega) rfl]

lemma testBit_bitmapShiftRightTo (shift : Nat) (h : i < bitsToLongs a n * a.bits) :
    testBit (bitmapShiftRightTo src dst shift n) i
      = (decide (i + shift < n) && testBit (src.getD dst) (i + shift)) := by
  have hpos := bits_pos a
  have hi := div_add_mod' i a.bits
  have hshift := div_add_mod' shift a.bits
  have hword : i / a.bits < bitsToLongs a n := (Nat.div_lt_iff_lt_mul hpos).mpr h
  have hsum := add_mul (shift / a.bits) (i / a.bits) a.bits
  have hb := mod_lt i hpos
  have hrem := mod_lt shift hpos
  unfold testBit bitmapShiftRightTo
  generalize i / a.bits = j at *
  generalize shift / a.bits = off at *
  by_cases hj : off + j < bitsToLongs a n
  · rw [if_neg (by omega), rightLoop_eq _ _ _ fun _ _ => rfl,
      if_pos (by omega), getLsbD_rightWord hrem hb hj,
      show (off + j) * a.bits + shift % a.bits + i % a.bits = i + shift by
        omega]
    rfl
  · have hend := Nat.mul_le_mul_right a.bits (Nat.le_of_not_lt hj)
    have hn := (bitsToLongs_bounds a n).1
    rw [if_pos (by omega), decide_eq_false (by omega), Bool.false_and]
    exact getLsbD_zero

-- == the whole bitmap

lemma shifts_frame {shift : Nat} (h : shift < bitsToLongs a n * a.bits)
    (hk : bitsToLongs a n ≤ k) :
    bitmapShiftLeftTo src dst shift n k = dst k ∧ bitmapShiftRightTo src dst shift n k = dst k := by
  have hoff : shift / a.bits < bitsToLongs a n := (Nat.div_lt_iff_lt_mul (bits_pos a)).mpr h
  unfold bitmapShiftLeftTo bitmapShiftRightTo
  generalize shift / a.bits = off at *
  rw [if_neg (by omega), if_neg (by omega), rightLoop_eq _ _ _ fun _ _ => rfl, if_neg (by omega)]
  refine ⟨?_, rfl⟩
  cases src with
  | none => rw [leftLoop_none, shiftLoop_eq, if_neg (by omega)]
  | some s => rw [leftLoop_some, if_neg (by omega)]

lemma testBit_value (m : Words a) (n i : Nat) :
    (value m n).testBit i = (decide (i < n) && testBit m i) := by
  by_cases hi : i < n
  · rw [← represents_value m n i hi, decide_eq_true hi, Bool.true_and]
  · rw [decide_eq_false hi, Bool.false_and]
    exact testBit_ofBits_ge _ i (Nat.le_of_not_lt hi)

/-- All bits of the words of `dst` are those of the shifted number, the unused
ones included, and the words behind them stay. -/
theorem shifts_are_exact (src : Option (Words a)) (dst : Words a)
    (bits shift : Nat) (hshift : shift < bitsToLongs a bits * a.bits) :
    Represents (bitmapShiftLeftTo src dst shift bits) (bitsToLongs a bits * a.bits)
        ((value (src.getD dst) bits <<< shift) % 2 ^ bits) ∧
      Represents (bitmapShiftRightTo src dst shift bits)
        (bitsToLongs a bits * a.bits) (value (src.getD dst) bits >>> shift) ∧
      ∀ k, bitsToLongs a bits ≤ k → bitmapShiftLeftTo src dst shift bits k = dst k ∧
          bitmapShiftRightTo src dst shift bits k = dst k := by
  refine ⟨?_, ?_, fun k hk => shifts_frame hshift hk⟩
  · intro i hi
    have hword : i / a.bits < bitsToLongs a bits := (Nat.div_lt_iff_lt_mul (bits_pos a)).mpr hi
    have hbit := testBit_bitmapShiftLeft (src.getD dst) shift hi
    unfold testBit at hbit ⊢
    rw [bitmapShiftLeftTo_eq hword, hbit, testBit_mod_two_pow, testBit_shiftLeft, testBit_value]
    by_cases hend : i < bits
    · rw [decide_eq_true (show i - shift < bits by omega), Bool.true_and]
      rfl
    · rw [decide_eq_false hend, Bool.false_and, Bool.false_and]
  · intro i hi
    rw [testBit_bitmapShiftRightTo shift hi, testBit_shiftRight, testBit_value, add_comm]

/-- Five bits of ones, with garbage above them, shifted in place by three. -/
theorem five_bits_are_exact :
    Represents (bitmapShiftLeftTo (a := .w32) none (fun _ => allOnes 32) 3 5)
        32 ((value (a := .w32) (fun _ => allOnes 32) 5 <<< 3) % 2 ^ 5) ∧
      Represents (bitmapShiftRightTo (a := .w32) none (fun _ => allOnes 32) 3 5)
        32 (value (a := .w32) (fun _ => allOnes 32) 5 >>> 3) :=
  have h := shifts_are_exact (a := .w32) none (fun _ => allOnes 32) 5 3 (by decide)
  ⟨h.1, h.2.1⟩

end

open List

variable {a : WordSize}

-- == model

def bitmapWeight (m : Words a) (bits : Nat) : Nat := (range bits).countP (testBit m)

/-- `while (i < pos)`, with what it finds at its end; `none` is the `BUG_ON`,
or more than `fuel` rounds. -/
def posLoop (buf : Words a) (bits pos : Nat) : Nat → Nat → Nat → Option Nat
  | 0, _, _ => none
  | fuel + 1, i, ord =>
    if i < pos then
      posLoop buf bits pos fuel (findNextBit buf bits (i + 1)) (ord + 1)
    else if i = pos then some ord
    else none

def bitmapPosToOrd (buf : Words a) (pos : Int) (bits : Nat) : Option Int :=
  if pos < 0 ∨ (bits : Int) ≤ pos ∨ testBit buf pos.toNat = false then some (-1)
  else
    (posLoop buf bits pos.toNat bits (findNextBit buf bits 0) 0).map Int.ofNat

/-- `for (..; i < bits && ord > 0; ..)`. -/
def ordLoop (buf : Words a) (bits : Nat) : Nat → Nat → Nat × Nat
  | 0, i => (i, 0)
  | ord + 1, i =>
    if i < bits then ordLoop buf bits ord (findNextBit buf bits (i + 1))
    else (i, ord + 1)

def bitmapOrdToPos (buf : Words a) (ord : Int) (bits : Nat) : Nat :=
  if 0 ≤ ord ∧ ord < bits then
    let r := ordLoop buf bits ord.toNat (findNextBit buf bits 0)
    if r.1 < bits ∧ r.2 = 0 then r.1 else 0
  else 0

/-- Where `oldbit` goes if the weight of `new` is `w`. -/
def remapBit (old new : Words a) (bits w : Nat) (oldbit : Int) : Option Int :=
  (bitmapPosToOrd old oldbit bits).map fun n =>
    if n < 0 ∨ w = 0 then oldbit else bitmapOrdToPos new (n.tmod w) bits

def bitmapBitremap (oldbit : Int) (old new : Words a) (bits : Nat) : Option Int :=
  remapBit old new bits (bitmapWeight new bits) oldbit

/-- `for (..; oldbit < bits; ..)`. -/
def remapLoop (src old new : Words a) (bits w : Nat) : Nat → Nat → Words a → Option (Words a)
  | 0, _, _ => none
  | fuel + 1, oldbit, dst =>
    if oldbit < bits then
      (remapBit old new bits w oldbit).bind fun bit =>
        remapLoop src old new bits w fuel (findNextBit src bits (oldbit + 1)) (setBit dst bit.toNat)
    else some dst

def bitmapRemap (dst : Words a) (src : Option (Words a)) (old new : Words a)
    (bits : Nat) : Option (Words a) :=
  match src with
  | none => some dst
  | some src =>
    remapLoop src old new bits (bitmapWeight new bits) (bits + 1)
      (findNextBit src bits 0) (bitmapZero dst bits)

-- == the set bits

/-- The set bits from `o` on. -/
def onesFrom (m : Words a) (n o : Nat) : List Nat := (range' o (n - o)).filter (testBit m)

variable {m src old new dst : Words a} {n o x : Nat} {l : List Nat}

lemma mem_onesFrom {i : Nat} : i ∈ onesFrom m n o ↔ o ≤ i ∧ i < n ∧ testBit m i = true := by
  unfold onesFrom
  rw [mem_filter, mem_range'_1, ← and_assoc]
  exact and_congr_left fun _ => by omega

lemma nodup_onesFrom : (onesFrom m n o).Nodup := Nodup.filter _ (nodup_range' 1)

lemma length_onesFrom_le : (onesFrom m n 0).length ≤ n := by
  refine (length_filter_le _ _).trans ?_
  rw [length_range']
  exact sub_le n 0

lemma bitmapWeight_eq (m : Words a) (n : Nat) : bitmapWeight m n = (onesFrom m n 0).length := by
  unfold bitmapWeight onesFrom
  rw [countP_eq_length_filter, range_eq_range', Nat.sub_zero]

lemma findNextBit_nil (h : onesFrom m n o = []) : findNextBit m n o = n := by
  unfold findNextBit
  rw [← head?_filter]
  unfold onesFrom at h
  rw [h]
  rfl

lemma onesFrom_cons (h : onesFrom m n o = x :: l) :
    findNextBit m n o = x ∧ x < n ∧ onesFrom m n (x + 1) = l := by
  have hmem : x ∈ onesFrom m n o := h ▸ mem_cons_self
  have hfind : findNextBit m n o = x := by
    unfold findNextBit
    rw [← head?_filter]
    unfold onesFrom at h
    rw [h]
    rfl
  refine ⟨hfind, (mem_onesFrom.mp hmem).2.1, ?_⟩
  unfold onesFrom at h ⊢
  obtain ⟨l1, l2, hsplit, -, -, hl⟩ := filter_eq_cons_iff.mp h
  obtain ⟨k, -, -, htail⟩ := range'_eq_append_iff.mp hsplit
  obtain ⟨hx, -, hl2⟩ := range'_eq_cons_iff.mp htail.symm
  rw [← hl, hl2]
  congr 2
  omega

-- == ordinals

lemma posLoop_eq {pos : Nat} (fuel ord : Nat) (hl : onesFrom m n o = l)
    (hpos : pos ∈ l) (hfuel : l.length ≤ fuel) :
    posLoop m n pos fuel (findNextBit m n o) ord = some (ord + l.idxOf pos) := by
  induction l generalizing o fuel ord with
  | nil => cases hpos
  | cons x l ih =>
    obtain ⟨hfind, -, hnext⟩ := onesFrom_cons hl
    obtain ⟨fuel, rfl⟩ := Nat.exists_eq_add_of_lt hfuel
    rw [posLoop, hfind]
    rcases mem_cons.mp hpos with rfl | hmem
    · rw [if_neg (lt_irrefl _), if_pos rfl, idxOf_cons_self]
      rfl
    have hlt : x < pos := (mem_onesFrom.mp (hnext ▸ hmem)).1
    rw [if_pos hlt, ih _ (ord + 1) hnext hmem (Nat.le_add_right _ _),
      idxOf_cons_ne _ (Nat.ne_of_lt hlt)]
    congr 1
    omega

lemma bitmapPosToOrd_eq (j : Nat) :
    bitmapPosToOrd m j n
      = some (if j ∈ onesFrom m n 0 then ((onesFrom m n 0).idxOf j : Int) else -1) := by
  unfold bitmapPosToOrd
  by_cases hj : j ∈ onesFrom m n 0
  · obtain ⟨-, hlt, hbit⟩ := mem_onesFrom.mp hj
    rw [if_pos hj, if_neg, Int.toNat_natCast, posLoop_eq n 0 rfl hj length_onesFrom_le, zero_add]
    · rfl
    · rw [Int.toNat_natCast, hbit]
      simp only [Bool.true_eq_false, or_false]
      omega
  · rw [if_neg hj, if_pos]
    by_contra hno
    simp only [not_or, Bool.not_eq_false, Int.toNat_natCast] at hno
    exact hj (mem_onesFrom.mpr ⟨Nat.zero_le j, by omega, hno.2.2⟩)

lemma ordLoop_eq (k o : Nat) :
    (if (ordLoop m n k (findNextBit m n o)).1 < n ∧ (ordLoop m n k (findNextBit m n o)).2 = 0
      then (ordLoop m n k (findNextBit m n o)).1 else 0)
      = (onesFrom m n o).getD k 0 := by
  induction k generalizing o with
  | zero =>
    cases hl : onesFrom m n o with
    | nil =>
      rw [findNextBit_nil hl, ordLoop, if_neg fun h => lt_irrefl n h.1]
      rfl
    | cons x l =>
      obtain ⟨hfind, hx, -⟩ := onesFrom_cons hl
      rw [hfind, ordLoop, if_pos ⟨hx, rfl⟩]
      rfl
  | succ k ih =>
    cases hl : onesFrom m n o with
    | nil =>
      rw [findNextBit_nil hl, ordLoop, if_neg (lt_irrefl n), if_neg fun h => lt_irrefl n h.1]
      rfl
    | cons x l =>
      obtain ⟨hfind, hx, hnext⟩ := onesFrom_cons hl
      rw [hfind, ordLoop, if_pos hx, ih, hnext, getD_cons_succ]

lemma bitmapOrdToPos_eq (k : Nat) : bitmapOrdToPos m k n = (onesFrom m n 0).getD k 0 := by
  have hle : (onesFrom m n 0).length ≤ n := length_onesFrom_le
  unfold bitmapOrdToPos
  by_cases hk : k < n
  · rw [if_pos (by omega), Int.toNat_natCast]
    exact ordLoop_eq k 0
  · rw [if_neg (by omega), getD_eq_default _ _ (by omega)]

-- == the map

/-- Where a bit goes. -/
def image (old new : Words a) (n j : Nat) : Nat :=
  if j ∈ onesFrom old n 0 ∧ 0 < (onesFrom new n 0).length then
    (onesFrom new n 0).getD ((onesFrom old n 0).idxOf j % (onesFrom new n 0).length) 0
  else j

lemma remapBit_eq (j : Nat) :
    remapBit old new n (bitmapWeight new n) j = some (image old new n j : Int) := by
  unfold remapBit image
  rw [bitmapPosToOrd_eq, bitmapWeight_eq, Option.map_some]
  by_cases hj : j ∈ onesFrom old n 0
  · by_cases hnew : 0 < (onesFrom new n 0).length
    · rw [if_pos hj, if_neg (by omega), if_pos ⟨hj, hnew⟩, ← Int.ofNat_tmod, bitmapOrdToPos_eq]
    · rw [if_pos hj, if_pos (by omega), if_neg fun h => hnew h.2]
  · rw [if_neg hj, if_pos (by omega), if_neg fun h => hj h.1]

lemma image_lt {j : Nat} (h : j < n) : image old new n j < n := by
  unfold image
  split
  · rename_i hcond
    have hidx := mod_lt ((onesFrom old n 0).idxOf j) hcond.2
    rw [getD_eq_getElem _ _ hidx]
    exact (mem_onesFrom.mp (getElem_mem hidx)).2.1
  · exact h

lemma image_image {j : Nat}
    (hweight : bitmapWeight old n = bitmapWeight new n) (hj : j ∈ onesFrom old n 0) :
    image new old n (image old new n j) = j := by
  rw [bitmapWeight_eq, bitmapWeight_eq] at hweight
  have hidx := idxOf_lt_length_of_mem hj
  have hidx' : (onesFrom old n 0).idxOf j < (onesFrom new n 0).length := hweight ▸ hidx
  have himage : image old new n j = (onesFrom new n 0)[(onesFrom old n 0).idxOf j] := by
    rw [image, if_pos ⟨hj, by omega⟩, mod_eq_of_lt hidx', getD_eq_getElem _ _ hidx']
  rw [himage, image, if_pos ⟨getElem_mem _, by omega⟩,
    Nodup.idxOf_getElem nodup_onesFrom _ hidx', mod_eq_of_lt hidx,
    getD_eq_getElem _ _ hidx, getElem_idxOf]

-- == the loop over src

lemma remapLoop_eq (fuel : Nat) (hl : onesFrom src n o = l)
    (hfuel : l.length < fuel) (dst : Words a) :
    remapLoop src old new n (bitmapWeight new n) fuel (findNextBit src n o) dst
      = some (l.foldl (fun d j => setBit d (image old new n j)) dst) := by
  induction l generalizing o fuel dst with
  | nil =>
    obtain ⟨fuel, rfl⟩ := Nat.exists_eq_add_of_lt hfuel
    rw [findNextBit_nil hl, remapLoop, if_neg (lt_irrefl n)]
    rfl
  | cons x l ih =>
    obtain ⟨fuel, rfl⟩ := Nat.exists_eq_add_of_lt hfuel
    obtain ⟨hfind, hx, hnext⟩ := onesFrom_cons hl
    rw [hfind, remapLoop, if_pos hx, remapBit_eq, Option.bind_some, Int.toNat_natCast]
    exact ih _ hnext (by rw [length_cons]; omega) _

lemma testBit_foldl {f : Nat → Nat} (l : List Nat) (dst : Words a) (i : Nat) :
    testBit (l.foldl (fun d j => setBit d (f j)) dst) i = true
      ↔ testBit dst i = true ∨ ∃ j ∈ l, f j = i := by
  induction l generalizing dst with
  | nil => simp
  | cons x l ih =>
    rw [foldl_cons, ih, testBit_setBit]
    simp only [Bool.or_eq_true, decide_eq_true_eq, mem_cons, exists_eq_or_imp]
    tauto

lemma bitmapRemap_spec (dst src old new : Words a) (n : Nat) :
    ∃ r, bitmapRemap dst (some src) old new n = some r ∧
      ∀ i, i < n → (testBit r i = true ↔ ∃ j ∈ onesFrom src n 0, image old new n j = i) := by
  refine ⟨_, remapLoop_eq (n + 1) rfl (lt_succ_of_le length_onesFrom_le) _, fun i hi => ?_⟩
  rw [testBit_foldl, testBit_bitmapZero dst hi]
  simp

/-- The whole relocation, and the way back. -/
theorem remap_relocates (dst src old new : Words a) (bits : Nat) :
    ∃ f : Nat → Nat,
      (∀ j, j < bits → bitmapBitremap j old new bits = some (f j : Int) ∧ f j < bits) ∧
      ∃ r, bitmapRemap dst (some src) old new bits = some r ∧
        (∀ i, i < bits → (testBit r i = true ↔ ∃ j, j < bits ∧ testBit src j = true ∧ f j = i)) ∧
        (bitmapWeight old bits = bitmapWeight new bits →
          (∀ j, j < bits → testBit src j = true → testBit old j = true) → ∀ dst' : Words a, ∃ r',
            bitmapRemap dst' (some r) new old bits = some r' ∧
              ∀ i, i < bits → testBit r' i = testBit src i) := by
  obtain ⟨r, hr, hbits⟩ := bitmapRemap_spec dst src old new bits
  refine ⟨image old new bits, fun j hj => ⟨remapBit_eq j, image_lt hj⟩, r, hr, ?_, ?_⟩
  · intro i hi
    rw [hbits i hi]
    simp only [mem_onesFrom, Nat.zero_le, true_and, and_assoc]
  intro hweight hsub dst'
  obtain ⟨r', hr', hback⟩ := bitmapRemap_spec dst' r new old bits
  refine ⟨r', hr', fun i hi => Bool.eq_iff_iff.mpr ?_⟩
  have hinv : ∀ j ∈ onesFrom src bits 0, image new old bits (image old new bits j) = j := by
    intro j hj
    obtain ⟨-, hlt, hbit⟩ := mem_onesFrom.mp hj
    exact image_image hweight (mem_onesFrom.mpr ⟨Nat.zero_le j, hlt, hsub j hlt hbit⟩)
  rw [hback i hi]
  constructor
  · rintro ⟨k, hk, rfl⟩
    obtain ⟨-, hlt, hbit⟩ := mem_onesFrom.mp hk
    obtain ⟨j, hj, rfl⟩ := (hbits k hlt).mp hbit
    rw [hinv j hj]
    exact (mem_onesFrom.mp hj).2.2
  · intro hbit
    have hi' : i ∈ onesFrom src bits 0 := mem_onesFrom.mpr ⟨Nat.zero_le i, hi, hbit⟩
    have hlt : image old new bits i < bits := image_lt hi
    exact ⟨image old new bits i, mem_onesFrom.mpr ⟨Nat.zero_le _, hlt,
      (hbits _ hlt).mpr ⟨i, hi', rfl⟩⟩, hinv i hi'⟩

/-- A bitmap of one word. -/
def oneWord (x : BitVec 32) : Words .w32 := fun k => if k = 0 then x else 0

/-- Bit 0 goes from the first two bits to bits 2 and 3, and back. -/
theorem firstBit_there_and_back : ∃ r r',
    bitmapRemap (oneWord 0) (some (oneWord 1)) (oneWord 3) (oneWord 12) 8 = some r ∧
    bitmapRemap (oneWord 0) (some r) (oneWord 12) (oneWord 3) 8 = some r' ∧
    ∀ i, i < 8 → testBit r' i = testBit (oneWord 1) i := by
  obtain ⟨f, -, r, hr, -, hback⟩ :=
    remap_relocates (oneWord 0) (oneWord 1) (oneWord 3) (oneWord 12) 8
  obtain ⟨r', hr', hsame⟩ := hback (by decide) (by decide) (oneWord 0)
  exact ⟨r, r', hr, hr', hsame⟩

end BoardStack.Bitmap
