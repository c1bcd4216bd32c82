/-
Machine words, single-word bitmaps, and parity.

`WordSize` is the `BITS_PER_LONG` a kernel is built for. A bitmap that fits
one `unsigned long` is a `BitVec` of that many bits; `setBit`, `clearBit` and
`findNextBit` are the bit operations of the C library under its words, each
with the one lemma that says what it does to a bit.

A C `int` is a `BitVec 32` here. The lemmas about it read its shifts and
masks as division and remainder on the non-negative half of the range.

`xorSel f sel n` is the exclusive or of those of the words `f 0`, ..,
`f (n - 1)` that are selected. A function that takes exclusive or to exclusive
or commutes with it; so do projections to bits, and parity, which is itself
the exclusive or of the bits of a word.
-/
import Mathlib.Data.Nat.Bitwise
import Mathlib.Data.Nat.Find

namespace BoardStack.Base

open BitVec List

-- == word sizes

/-- `BITS_PER_LONG`: the two word sizes the sources are built for. -/
inductive WordSize
  | w32
  | w64
deriving DecidableEq, Repr

/-- The number of bits of an `unsigned long`. -/
def WordSize.bits : WordSize → Nat
  | .w32 => 32
  | .w64 => 64

-- == single-word bitmaps

variable {w : Nat}

/-- `__set_bit` on a one-word bitmap. -/
def setBit (n : Nat) (x : BitVec w) : BitVec w := x ||| BitVec.twoPow w n

/-- `__clear_bit` on a one-word bitmap. -/
def clearBit (n : Nat) (x : BitVec w) : BitVec w := x &&& ~~~ BitVec.twoPow w n

/-- `find_next_bit`: the first set bit at or after `offset`, or `size` when
there is none below `size`. -/
def findNextBit (x : BitVec w) (size offset : Nat) : Nat :=
  ((List.range' offset (size - offset)).find? fun i => x.getLsbD i).getD size

@[simp] lemma getLsbD_setBit {n i : Nat} (hn : n < w) (x : BitVec w) :
    (setBit n x).getLsbD i = (x.getLsbD i || decide (n = i)) := by
  simp [setBit, getLsbD_twoPow, hn]

@[simp] lemma getLsbD_clearBit {n i : Nat} (hn : n < w) (x : BitVec w) :
    (clearBit n x).getLsbD i = (x.getLsbD i && !decide (n = i)) := by
  rw [clearBit, getLsbD_and, getLsbD_not, getLsbD_twoPow]
  by_cases hi : i < w
  · simp [hn, hi]
  · simp [getLsbD_of_ge x i (by omega)]

lemma clearBit_of_clear {n : Nat} (hn : n < w) {x : BitVec w}
    (h : x.getLsbD n = false) : clearBit n x = x := by
  apply eq_of_getLsbD_eq
  intro i _
  rw [getLsbD_clearBit hn]
  by_cases hi : n = i
  · rw [← hi, h, Bool.false_and]
  · rw [decide_eq_false hi, Bool.not_false, Bool.and_true]

lemma and_bit_ne_zero {n : Nat} (hn : n < w) (x : BitVec w) :
    (x &&& 1#w <<< n != 0) = x.getLsbD n := by
  have hne : twoPow w n ≠ 0#w := fun h => by simpa [hn] using congrArg (getLsbD · n) h
  rw [← twoPow_eq, and_twoPow]
  cases x.getLsbD n with
  | false => simp
  | true => simp [hne]

lemma eq_allOnes_iff (x : BitVec w) : x = allOnes w ↔ ∀ i, i < w → x.getLsbD i = true := by
  constructor
  · rintro rfl i hi
    simp [hi]
  · intro h
    refine eq_of_getLsbD_eq fun i hi => ?_
    rw [h i hi]
    simp [hi]

variable {x : BitVec w}

/-- `find_next_bit` finds nothing exactly when no bit is set in range. -/
lemma findNextBit_eq_size {size offset : Nat}
    (h : ∀ i, offset ≤ i → i < size → x.getLsbD i = false) :
    findNextBit x size offset = size := by
  have hnone : (range' offset (size - offset)).find? (fun i => x.getLsbD i) = none := by
    rw [List.find?_eq_none]
    intro i hi
    rw [mem_range'_1] at hi
    simp [h i hi.1 (by omega)]
  rw [findNextBit, hnone]
  rfl

lemma findNextBit_eq {size offset m : Nat} (ho : offset ≤ m) (hm : m < size)
    (hbit : x.getLsbD m = true) (hlt : ∀ i, offset ≤ i → i < m → x.getLsbD i = false) :
    findNextBit x size offset = m := by
  have hsome : (range' offset (size - offset)).find? (fun i => x.getLsbD i) = some m := by
    rw [List.find?_range'_eq_some]
    refine ⟨hbit, ?_, ?_⟩
    · rw [mem_range'_1]
      omega
    · intro j hj hjm
      simp [hlt j hj hjm]
  rw [findNextBit, hsome]
  rfl

lemma findNextBit_not {offset m : Nat} (ho : offset ≤ m) (hm : m < w) (hbit : x.getLsbD m = false)
    (hlt : ∀ i, offset ≤ i → i < m → x.getLsbD i = true) :
    findNextBit (~~~ x) w offset = m := by
  refine findNextBit_eq ho hm ?_ ?_
  · rw [getLsbD_not, hbit]
    simp [hm]
  · intro i hoi hi
    rw [getLsbD_not, hlt i hoi hi]
    simp

lemma findNextBit_not_allOnes (offset : Nat) : findNextBit (~~~ allOnes w) w offset = w :=
  findNextBit_eq_size fun i _ _ => by simp

-- == the C `int` as `BitVec 32`

/-- An arithmetic right shift of a non-negative `int` is a division. -/
lemma toNat_sshiftRight_of_lt {x : BitVec 32} (hx : x.toNat < 2 ^ 31)
    (k : Nat) : (x.sshiftRight k).toNat = x.toNat / 2 ^ k := by
  have hmsb : x.msb = false := by
    rw [msb_eq_false_iff_two_mul_lt]
    omega
  rw [sshiftRight_eq_of_msb_false hmsb, toNat_ushiftRight, Nat.shiftRight_eq_div_pow]

/-- Masking with `2 ^ b - 1` keeps the remainder modulo `2 ^ b`. -/
lemma toNat_and_mask (x : BitVec w) {b : Nat} (hb : b ≤ w) :
    (x &&& BitVec.ofNat w (2 ^ b - 1)).toNat = x.toNat % 2 ^ b := by
  have hlt : 2 ^ b - 1 < 2 ^ w := by
    have : 2 ^ b ≤ 2 ^ w := Nat.pow_le_pow_right (by decide) hb
    have : 0 < 2 ^ b := Nat.two_pow_pos b
    omega
  rw [toNat_and, toNat_ofNat, Nat.mod_eq_of_lt hlt, Nat.and_two_pow_sub_one_eq_mod]

lemma toNat_one_shiftLeft {k : Nat} (hk : k < 31) : (1#32 <<< k).toNat = 2 ^ k := by
  have : 2 ^ k < 2 ^ 32 := Nat.pow_lt_pow_right (by decide) (by omega)
  rw [toNat_shiftLeft, Nat.shiftLeft_eq, Nat.mod_eq_of_lt]
  · simp
  · simpa using this

lemma sle_iff_toNat_le {x y : BitVec 32} (hx : x.toNat < 2 ^ 31)
    (hy : y.toNat < 2 ^ 31) : x.sle y = true ↔ x.toNat ≤ y.toNat := by
  rw [sle_iff_toInt_le, toInt_eq_toNat_of_lt (by omega), toInt_eq_toNat_of_lt (by omega)]
  omega

open Function

variable {v n p q : Nat}

-- == parity

/-- The exclusive or of the first bits of a word. -/
def xorBits (x : BitVec w) : Nat → Bool
  | 0 => false
  | n + 1 => xorBits x n ^^ x.getLsbD n

/-- The exclusive or of all bits of a word. -/
def parity (x : BitVec w) : Bool := xorBits x w

lemma xorBits_xor (x y : BitVec w) (n : Nat) :
    xorBits (x ^^^ y) n = (xorBits x n ^^ xorBits y n) := by
  induction n with
  | zero => rfl
  | succ n ih =>
    unfold xorBits
    rw [ih, getLsbD_xor]
    cases xorBits x n <;> cases xorBits y n <;> cases x.getLsbD n <;>
      cases y.getLsbD n <;> rfl

lemma parity_xor (x y : BitVec w) : parity (x ^^^ y) = (parity x ^^ parity y) := xorBits_xor x y w

lemma xorBits_zero (n : Nat) : xorBits (0#w) n = false := by
  induction n with
  | zero => rfl
  | succ n ih =>
    unfold xorBits
    rw [ih]
    simp

lemma parity_zero : parity (0#w) = false := xorBits_zero w

def bit (w q : Nat) : BitVec w := 1#w <<< q

lemma getLsbD_bit (i : Nat) : (bit w q).getLsbD i = (decide (i < w) && decide (i = q)) := by
  unfold bit
  rw [getLsbD_shiftLeft, getLsbD_one]
  by_cases hi : i < w <;> by_cases hq : i = q <;> simp [hi, hq] <;> omega

lemma xorBits_bit (hq : q < w) (n : Nat) : xorBits (bit w q) n = decide (q < n) := by
  induction n with
  | zero => rfl
  | succ n ih =>
    unfold xorBits
    rw [ih, getLsbD_bit]
    by_cases hlt : q < n
    · have hne : ¬n = q := by omega
      simp [hlt, hne, Nat.lt_succ_of_lt hlt]
    · by_cases heq : n = q
      · simp [heq, hq]
      · have hlt' : ¬q < n + 1 := by omega
        simp [hlt, heq, hlt']

lemma parity_bit (hq : q < w) : parity (bit w q) = true := by
  unfold parity
  rw [xorBits_bit hq, decide_eq_true hq]

-- == counting bits

/-- Count the bits of a word by shifting them out, `n` at most, from `i`. -/
def countLoop : Nat → BitVec w → Nat → Nat
  | 0, _, i => i
  | n + 1, d, i =>
    if d = 0#w then i
    else countLoop n (d >>> 1) (if d &&& 1#w ≠ 0#w then i + 1 else i)

lemma countLoop_add (n : Nat) (d : BitVec w) (i : Nat) : countLoop n d i = i + countLoop n d 0 := by
  induction n generalizing d i with
  | zero => rfl
  | succ n ih =>
    unfold countLoop
    split
    · rfl
    · rw [ih, ih (d >>> 1) (if d &&& 1#w ≠ 0#w then 0 + 1 else 0)]
      split <;> omega

lemma countLoop_zero (n i : Nat) : countLoop n 0#w i = i := by
  cases n with
  | zero => rfl
  | succ n => exact if_pos rfl

lemma bit_ne_zero (hq : q < w) : bit w q ≠ 0#w := by
  intro hzero
  have hbit := getLsbD_bit (w := w) (q := q) q
  rw [hzero] at hbit
  simp [hq] at hbit

lemma bit_shift (hq : q + 1 < w) : bit w (q + 1) >>> 1 = bit w q := by
  apply eq_of_getLsbD_eq
  intro i hi
  rw [getLsbD_ushiftRight, getLsbD_bit, getLsbD_bit]
  by_cases heq : i = q
  · subst heq
    simp [hi, Nat.add_comm 1, hq]
  · have hne : ¬1 + i = q + 1 := by omega
    simp [heq, hne]

lemma bit_and_one (hq : q < w) : bit w q &&& 1#w ≠ 0#w ↔ q = 0 := by
  have hpos : 0 < w := by omega
  have hone : 1#w ≠ 0#w := by simpa [bit] using bit_ne_zero hpos
  rw [← twoPow_zero, and_twoPow, getLsbD_bit, twoPow_zero, decide_eq_true hpos]
  by_cases h0 : q = 0
  · simp [h0, hone]
  · simp [h0, Ne.symm h0]

lemma countLoop_bit {n : Nat} (hn : q < n) (hq : q < w) : countLoop n (bit w q) 0 = 1 := by
  induction n generalizing q with
  | zero => omega
  | succ n ih =>
    unfold countLoop
    rw [if_neg (bit_ne_zero hq)]
    cases q with
    | zero =>
      rw [if_pos ((bit_and_one hq).mpr rfl), countLoop_add]
      have hgone : bit w 0 >>> 1 = 0#w := by
        apply eq_of_getLsbD_eq
        intro i _
        rw [getLsbD_ushiftRight, getLsbD_bit]
        simp
      rw [hgone, countLoop_zero]
    | succ q =>
      rw [if_neg, bit_shift hq]
      · exact ih (by omega) (by omega)
      · intro hne
        have hzero := (bit_and_one hq).mp hne
        omega

-- == sums

/-- The exclusive or of the words that are selected. -/
def xorSel (f : Nat → BitVec w) (sel : Nat → Bool) : Nat → BitVec w
  | 0 => 0#w
  | n + 1 => xorSel f sel n ^^^ (if sel n then f n else 0#w)

variable {f g : Nat → BitVec w} {sel : Nat → Bool}

lemma xorSel_succ (f : Nat → BitVec w) (sel : Nat → Bool) (n : Nat) :
    xorSel f sel (n + 1) = xorSel f sel n ^^^ (if sel n then f n else 0#w) :=
  rfl

lemma xorSel_congr (h : ∀ i, i < n → sel i = true → f i = g i) :
    xorSel f sel n = xorSel g sel n := by
  induction n with
  | zero => rfl
  | succ n ih =>
    unfold xorSel
    rw [ih fun i hi => h i (by omega)]
    split_ifs with hs
    · rw [h n (by omega) hs]
    · rfl

lemma xorSel_none (f : Nat → BitVec w) (n : Nat) : xorSel f (fun _ => false) n = 0#w := by
  induction n with
  | zero => rfl
  | succ n ih =>
    unfold xorSel
    rw [ih]
    exact BitVec.xor_self

/-- A function that takes exclusive or to exclusive or. -/
structure Linear (φ : BitVec w → BitVec v) : Prop where
  zero : φ 0#w = 0#v
  xor : ∀ x y, φ (x ^^^ y) = φ x ^^^ φ y

lemma Linear.comp {w2 : Nat} {φ : BitVec v → BitVec w2} (hφ : Linear φ)
    {ψ : BitVec w → BitVec v} (hψ : Linear ψ) : Linear fun x => φ (ψ x) :=
  ⟨by rw [hψ.zero, hφ.zero], fun x y => by rw [hψ.xor, hφ.xor]⟩

lemma Linear.xorSel {φ : BitVec w → BitVec v} (hφ : Linear φ)
    (f : Nat → BitVec w) (sel : Nat → Bool) (n : Nat) :
    φ (xorSel f sel n) = Base.xorSel (fun i => φ (f i)) sel n := by
  induction n with
  | zero => exact hφ.zero
  | succ n ih =>
    unfold Base.xorSel
    rw [hφ.xor, ih]
    split_ifs with hs
    · rfl
    · rw [hφ.zero]

lemma xorSel_compl (f : Nat → BitVec w) (sel : Nat → Bool) (n : Nat) :
    xorSel f (fun _ => true) n ^^^ xorSel f sel n = xorSel f (fun i => !sel i) n := by
  induction n with
  | zero => exact BitVec.xor_self
  | succ n ih =>
    unfold xorSel
    rw [← ih]
    cases sel n
    · simp only [Bool.false_eq_true, if_false, if_true, Bool.not_false, xor_zero]
      rw [xor_assoc, xor_assoc, BitVec.xor_comm (f n)]
    · simp only [if_true, Bool.not_true, Bool.false_eq_true, if_false, xor_zero]
      rw [xor_assoc, ← BitVec.xor_assoc (f n), BitVec.xor_comm (f n),
        BitVec.xor_assoc (xorSel f sel n), BitVec.xor_self, xor_zero]

lemma xorSel_update (hp : p < n) (x : BitVec w) :
    xorSel (update f p (f p ^^^ x)) sel n = xorSel f sel n ^^^ (if sel p then x else 0#w) := by
  induction n with
  | zero => omega
  | succ n ih =>
    unfold xorSel
    by_cases hpn : p < n
    · rw [ih hpn, update_of_ne (by omega), xor_assoc, xor_assoc,
        BitVec.xor_comm (if sel p = true then x else 0#w)]
    obtain rfl : p = n := by omega
    have hsame : xorSel (update f p (f p ^^^ x)) sel p = xorSel f sel p :=
      xorSel_congr fun i hi _ => update_of_ne (by omega) _ _
    rw [hsame, update_self]
    split_ifs with hs
    · rw [xor_assoc]
    · rw [xor_zero, xor_zero]

end BoardStack.Base
