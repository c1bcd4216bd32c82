/-
What the operations on a bitmap do to its bits.

A bitmap of `n` bits stands for the number with these bits (`Represents`);
bits of the last word that are above `n` do not count. Shifting is done word
by word, in place and from the top, so that a word is still the old one when
it is read (`shiftLoop_eq`).
-/
import BoardStack.Bitmap.Basic

namespace BoardStack.Bitmap

open Base Function BitVec Nat

variable {a : WordSize} {m : Words a} {n i : Nat}

lemma bits_pos (a : WordSize) : 0 < a.bits := by
  cases a with
  | w32 | w64 => decide

/-- The words hold `n` bits, and one word less does not. -/
lemma bitsToLongs_bounds (a : WordSize) (n : Nat) :
    n ≤ bitsToLongs a n * a.bits ∧ bitsToLongs a n * a.bits < n + a.bits := by
  have hpos := bits_pos a
  have hdiv := div_add_mod (n + a.bits - 1) a.bits
  have hmod := mod_lt (n + a.bits - 1) hpos
  unfold bitsToLongs
  rw [mul_comm] at hdiv
  omega

/-- The word of a bit is in the array. -/
lemma word_lt_of_bit_lt (h : i < n) : i / a.bits < bitsToLongs a n := by
  rw [Nat.div_lt_iff_lt_mul (bits_pos a)]
  exact lt_of_lt_of_le h (bitsToLongs_bounds a n).1

lemma testBit_bitmapZero (m : Words a) (h : i < n) : testBit (bitmapZero m n) i = false := by
  unfold testBit bitmapZero
  rw [if_pos (word_lt_of_bit_lt h)]
  exact getLsbD_zero

/-- One bit is set. -/
lemma testBit_setBit (m : Words a) (i j : Nat) :
    testBit (setBit m i) j = (testBit m j || decide (i = j)) := by
  have hpos := bits_pos a
  unfold testBit setBit
  by_cases hword : j / a.bits = i / a.bits
  · rw [hword, update_self, getLsbD_setBit (mod_lt i hpos)]
    congr 2
    apply propext
    constructor
    · intro hmod
      rw [← div_add_mod i a.bits, ← div_add_mod j a.bits, hword, hmod]
    · rintro rfl
      rfl
  · rw [update_of_ne hword]
    have hne : i ≠ j := by
      rintro rfl
      exact hword rfl
    rw [decide_eq_false hne, Bool.or_false]

-- == shifts

lemma getLsbD_lowMask (a : WordSize) {left b : Nat} (hleft : left < a.bits) :
    (lowMask a left).getLsbD b = decide (b < left) := by
  have hone : (1#a.bits <<< left).toNat = 2 ^ left := by
    rw [toNat_shiftLeft, toNat_ofNat, one_mod_two_pow (bits_pos a), one_shiftLeft]
    exact mod_eq_of_lt (Nat.pow_lt_pow_right (by decide) hleft)
  have hle : 1#a.bits ≤ 1#a.bits <<< left := by
    rw [le_def, hone, toNat_ofNat, one_mod_two_pow (bits_pos a)]
    exact Nat.two_pow_pos left
  unfold lowMask
  rw [BitVec.getLsbD, toNat_sub_of_le hle, hone, toNat_ofNat, one_mod_two_pow (bits_pos a)]
  exact testBit_two_pow_sub_one left b

/-- What the loop stores, word by word. -/
lemma shiftLoop_eq {lim left off rem : Nat} (k : Nat) (m : Words a) (j : Nat) :
    shiftLoop lim left off rem k m j
      = if off ≤ j ∧ j < k + off then shiftedWord m lim left off rem (j - off)
        else m j := by
  induction k generalizing m with
  | zero => rw [shiftLoop, if_neg (by omega)]
  | succ k ih =>
    rw [shiftLoop, ih]
    by_cases hj : off ≤ j ∧ j < k + off
    · rw [if_pos hj, if_pos (by omega)]
      -- only words above `j - off` have been written
      unfold shiftedWord
      rw [update_of_ne (by omega), update_of_ne (by omega)]
    · rw [if_neg hj]
      by_cases hk : j = k + off
      · rw [if_pos (by omega), hk, update_self, Nat.add_sub_cancel]
      · rw [if_neg (by omega), update_of_ne hk]

/-- The last word is cut at bit `n`. -/
lemma getLsbD_masked (x : BitVec a.bits) {k b : Nat}
    (hk : k < bitsToLongs a n) (hb : b < a.bits) :
    (if n % a.bits ≠ 0 ∧ k = bitsToLongs a n - 1 then x &&& lowMask a (n % a.bits) else x).getLsbD b
      = (decide (k * a.bits + b < n) && x.getLsbD b) := by
  have hpos := bits_pos a
  obtain ⟨hlo, hhi⟩ := bitsToLongs_bounds a n
  obtain ⟨q, hq⟩ : ∃ q, bitsToLongs a n = q + 1 := ⟨bitsToLongs a n - 1, by omega⟩
  have hmul := Nat.mul_le_mul_right a.bits (le_of_lt_succ (hq ▸ hk))
  rw [hq, Nat.add_sub_cancel]
  rw [hq, Nat.succ_mul] at hlo hhi
  rcases Nat.eq_or_lt_of_le hlo with heq | hlt
  · have hmod : n % a.bits = 0 := by
      rw [heq, ← Nat.succ_mul]
      exact mul_mod_left _ _
    rw [if_neg fun h => h.1 hmod, decide_eq_true (by omega), Bool.true_and]
  have hmod : n % a.bits = n - q * a.bits := by
    have hsub : n - q * a.bits < a.bits := by omega
    calc n % a.bits = (q * a.bits + (n - q * a.bits)) % a.bits := by
          rw [Nat.add_sub_cancel' (by omega)]
      _ = n - q * a.bits := by
          rw [mul_add_mod_self_right, mod_eq_of_lt hsub]
  by_cases hkq : k = q
  · subst hkq
    rw [if_pos ⟨by omega, rfl⟩, getLsbD_and, getLsbD_lowMask a (mod_lt n hpos), hmod, Bool.and_comm]
    congr 2
    apply propext
    omega
  · have hnext := Nat.mul_le_mul_right a.bits (by omega : k + 1 ≤ q)
    rw [Nat.succ_mul] at hnext
    rw [if_neg fun h => hkq h.2, decide_eq_true (by omega), Bool.true_and]

lemma getLsbD_shiftedWord {off k b : Nat} (rem : Nat) (m : Words a)
    (hrem : rem < a.bits) (hb : b < a.bits) (hk : k + off < bitsToLongs a n) :
    (shiftedWord m (bitsToLongs a n) (n % a.bits) off rem k).getLsbD b
      = (decide ((k + off) * a.bits + b < n) && if rem ≤ b then (m k).getLsbD (b - rem)
        else decide (0 < k) && (m (k - 1)).getLsbD (a.bits + b - rem)) := by
  have hle : k * a.bits ≤ (k + off) * a.bits := Nat.mul_le_mul_right _ (Nat.le_add_right k off)
  unfold shiftedWord
  rw [getLsbD_masked _ hk hb]
  by_cases hend : (k + off) * a.bits + b < n
  · rw [decide_eq_true hend, Bool.true_and, Bool.true_and, getLsbD_or,
      getLsbD_ushiftRight, getLsbD_shiftLeft, decide_eq_true hb, Bool.true_and]
    by_cases hrb : rem ≤ b
    · rw [if_pos hrb, getLsbD_of_ge _ _ (by omega), Bool.false_or,
        decide_eq_false (by omega), Bool.not_false, Bool.true_and,
        getLsbD_masked _ (by omega) (by omega), decide_eq_true (by omega), Bool.true_and]
    rw [if_neg hrb, decide_eq_true (by omega), Bool.not_true, Bool.false_and,
      Bool.or_false, show a.bits - rem + b = a.bits + b - rem by omega]
    by_cases hk0 : 0 < k
    · rw [if_pos ⟨by omega, hk0⟩, decide_eq_true hk0, Bool.true_and]
    · rw [if_neg (fun h => hk0 h.2), decide_eq_false hk0, Bool.false_and]
      exact getLsbD_zero
  · rw [decide_eq_false hend, Bool.false_and, Bool.false_and]

lemma testBit_eq {q b : Nat} (hb : b < a.bits) (hi : i = q * a.bits + b) :
    testBit m i = (m q).getLsbD b := by
  unfold testBit
  rw [hi, mul_comm, mul_add_div (bits_pos a), mul_add_mod,
    div_eq_of_lt hb, mod_eq_of_lt hb, add_zero]

lemma testBit_shiftedWord (m : Words a) (shift : Nat) (h : i < bitsToLongs a n * a.bits) :
    (if i / a.bits < shift / a.bits then 0
      else shiftedWord m (bitsToLongs a n) (n % a.bits) (shift / a.bits)
        (shift % a.bits) (i / a.bits - shift / a.bits)).getLsbD (i % a.bits)
      = (decide (i < n) && (decide (shift ≤ i) && testBit m (i - shift))) := by
  have hpos := bits_pos a
  have hi := div_add_mod i a.bits
  have hb := mod_lt i hpos
  have hshift := div_add_mod shift a.bits
  have hrem := mod_lt shift hpos
  have hword : i / a.bits < bitsToLongs a n := (Nat.div_lt_iff_lt_mul hpos).mpr h
  generalize i / a.bits = j at *
  generalize i % a.bits = b at *
  generalize shift / a.bits = off at *
  generalize shift % a.bits = rem at *
  by_cases hj : j < off
  · have hmul : a.bits * (j + 1) ≤ a.bits * off := Nat.mul_le_mul_left _ hj
    rw [Nat.mul_succ] at hmul
    rw [if_pos hj, decide_eq_false (show ¬shift ≤ i by omega), Bool.false_and, Bool.and_false]
    exact getLsbD_zero
  obtain ⟨k, rfl⟩ := Nat.exists_eq_add_of_le' (Nat.le_of_not_lt hj)
  rw [if_neg hj, Nat.add_sub_cancel, getLsbD_shiftedWord rem m hrem hb hword, mul_comm, hi]
  congr 1
  rw [Nat.mul_add] at hi
  by_cases hle : rem ≤ b
  · rw [if_pos hle, decide_eq_true (by omega), Bool.true_and,
      testBit_eq (q := k) (b := b - rem) (by omega) (by rw [mul_comm]; omega)]
  rw [if_neg hle]
  cases k with
  | zero =>
    rw [decide_eq_false (lt_irrefl 0), Bool.false_and, decide_eq_false (by omega), Bool.false_and]
  | succ k =>
    rw [Nat.mul_succ] at hi
    rw [decide_eq_true (succ_pos k), Bool.true_and,
      decide_eq_true (by omega), Bool.true_and, Nat.add_sub_cancel,
      testBit_eq (q := k) (b := a.bits + b - rem) (by omega) (by rw [mul_comm]; omega)]

lemma bitmapShiftLeft_eq (m : Words a) (shift : Nat) {j : Nat} (hj : j < bitsToLongs a n) :
    bitmapShiftLeft m shift n j = if j < shift / a.bits then 0
        else shiftedWord m (bitsToLongs a n) (n % a.bits) (shift / a.bits)
          (shift % a.bits) (j - shift / a.bits) := by
  unfold bitmapShiftLeft
  split
  · rfl
  · rw [shiftLoop_eq, if_pos (by omega)]

/-- The shift, bit by bit. -/
lemma testBit_bitmapShiftLeft (m : Words a) (shift : Nat) (h : i < bitsToLongs a n * a.bits) :
    testBit (bitmapShiftLeft m shift n) i
      = (decide (i < n) && (decide (shift ≤ i) && testBit m (i - shift))) := by
  have hword : i / a.bits < bitsToLongs a n := (Nat.div_lt_iff_lt_mul (bits_pos a)).mpr h
  unfold testBit
  rw [bitmapShiftLeft_eq m shift hword]
  exact testBit_shiftedWord m shift h

/-- A chunk goes into the low bits. -/
lemma testBit_orChunk (m : Words a) (chunk : BitVec 32) (i : Nat) :
    testBit (orChunk m chunk) i = (testBit m i || chunk.getLsbD i) := by
  have hbits : 32 ≤ a.bits := by
    cases a with
    | w32 | w64 => decide
  unfold testBit orChunk
  by_cases hword : i / a.bits = 0
  · have hlt : i < a.bits := by
      rw [Nat.div_eq_zero_iff] at hword
      omega
    rw [hword, update_self, mod_eq_of_lt hlt, getLsbD_or,
      getLsbD_setWidth, decide_eq_true hlt, Bool.true_and]
  · have hge : a.bits ≤ i := by
      by_contra hlt
      exact hword (div_eq_of_lt (Nat.lt_of_not_le hlt))
    rw [update_of_ne hword, getLsbD_of_ge chunk i (by omega), Bool.or_false]

-- == numbers

def Represents (m : Words a) (n v : Nat) : Prop := ∀ i, i < n → testBit m i = v.testBit i

def value (m : Words a) (n : Nat) : Nat := Nat.ofBits fun i : Fin n => testBit m i

lemma value_lt (m : Words a) (n : Nat) : value m n < 2 ^ n := ofBits_lt_two_pow _

lemma represents_value (m : Words a) (n : Nat) : Represents m n (value m n) := by
  intro i hi
  unfold value
  rw [testBit_ofBits_lt _ i hi]

end BoardStack.Bitmap
