/-
The code that both programs compute.

`ecc` says what the three bytes are: bit `2 j` of the first two is the inverted
parity of the bytes whose number has bit `j` clear, bit `2 j + 1` of those
whose number has it set, and the third byte has, of all bytes together, the
inverted parities of the bits whose number has bit `j` clear and set. The
kernel and the boot loader both compute it, each in its own way.

Each parity the kernel accumulates is the exclusive or of those words, and then of
those bytes of the block, whose number has a certain bit clear: `rp4` to `rp16` of
the words by bits 0 to 6 of the number of the word, which are bits 2 to 8 of the
number of the byte, and `rp0` to `rp3` by bits 0 and 1 of the number of the byte.
The loop goes over sixteen words a turn, so bits 0 to 3 are told by the place in
the turn and the others by the turn.
-/
import BoardStack.NandEcc.Basic
import Mathlib.Tactic.IntervalCases

namespace BoardStack.NandEcc

open Base BitVec

variable {cfg : Config} {size : EccSize} {buf : Block}

-- == the loop

lemma xorSel_turn (w : Nat → BitVec 32) (sel : Nat → Bool) (i : Nat)
    (place : Nat → Bool) (h : ∀ t, t < 16 → sel (16 * i + t) = place t) :
    xorSel w sel (16 * (i + 1)) = xorSel w sel (16 * i)
        ^^^ xorSel (fun t => w (16 * i + t)) place 16 := by
  have hpart : ∀ n, n ≤ 16 → xorSel w sel (16 * i + n) = xorSel w sel (16 * i)
        ^^^ xorSel (fun t => w (16 * i + t)) place n := by
    intro n
    induction n with
    | zero =>
      intro _
      unfold xorSel
      rw [xor_zero]
      rfl
    | succ n ih =>
      intro hn
      rw [← add_assoc, xorSel, ih (by omega), h n (by omega), xor_assoc]
      rfl
  exact hpart 16 le_rfl

lemma testBit_place (i : Nat) {t j : Nat} (ht : t < 16) (hj : j < 4) :
    (16 * i + t).testBit j = t.testBit j := by
  have hadd := Nat.testBit_two_pow_mul_add i (show t < 2 ^ 4 from ht) j
  rw [if_pos hj] at hadd
  exact hadd

lemma testBit_turn (i : Nat) {t : Nat} (ht : t < 16) (j : Nat) :
    (16 * i + t).testBit (j + 4) = i.testBit j := by
  have hadd := Nat.testBit_two_pow_mul_add i (show t < 2 ^ 4 from ht) (j + 4)
  exact hadd

/-- The words whose number has bit `j` clear. -/
def clear (j : Nat) : Nat → Bool := fun i => !i.testBit j

def all : Nat → Bool := fun _ => true

structure Accumulated (w : Nat → BitVec 32) (size : EccSize) (n : Nat) (a : Acc) : Prop where
  par : a.par = xorSel w all n
  rp4 : a.rp4 = xorSel w (clear 0) n
  rp6 : a.rp6 = xorSel w (clear 1) n
  rp8 : a.rp8 = xorSel w (clear 2) n
  rp10 : a.rp10 = xorSel w (clear 3) n
  rp12 : a.rp12 = xorSel w (clear 4) n
  rp14 : a.rp14 = xorSel w (clear 5) n
  rp16 : size = .s512 → a.rp16 = xorSel w (clear 6) n

section

variable (w : Nat → BitVec 32)

include w

lemma turn_place (i : Nat) {j : Nat} (hj : j < 4) :
    xorSel w (clear j) (16 * (i + 1)) = xorSel w (clear j) (16 * i)
        ^^^ xorSel (fun t => w (16 * i + t)) (clear j) 16 := by
  apply xorSel_turn
  intro t ht
  unfold clear
  rw [testBit_place i ht hj]

lemma turn_all (i : Nat) :
    xorSel w all (16 * (i + 1))
      = xorSel w all (16 * i) ^^^ xorSel (fun t => w (16 * i + t)) all 16 :=
  xorSel_turn w all i all fun _ _ => rfl

lemma turn_number (i j : Nat) :
    xorSel w (clear (j + 4)) (16 * (i + 1)) = if i.testBit j then xorSel w (clear (j + 4)) (16 * i)
        else xorSel w (clear (j + 4)) (16 * i) ^^^ xorSel (fun t => w (16 * i + t)) all 16 := by
  have hturn := xorSel_turn w (clear (j + 4)) i (fun _ => !i.testBit j) (by
      intro t ht
      unfold clear
      rw [testBit_turn i ht])
  rw [hturn]
  cases hbit : i.testBit j
  · rfl
  · rw [Bool.not_true, if_pos rfl, xorSel_none, xor_zero]

end

lemma ite_bit (i j : Nat) (x y : BitVec 32) :
    (if i &&& 2 ^ j = 0 then x else y) = if i.testBit j then y else x := by
  rw [Nat.and_two_pow]
  cases i.testBit j <;> simp

/-- What one turn adds to each parity. -/
lemma turn_spec (size : EccSize) (w : Nat → BitVec 32) (i : Nat) (a : Acc) :
    (turn size w i a).par = a.par ^^^ xorSel w all 16 ∧
    (turn size w i a).rp4 = a.rp4 ^^^ xorSel w (clear 0) 16 ∧
    (turn size w i a).rp6 = a.rp6 ^^^ xorSel w (clear 1) 16 ∧
    (turn size w i a).rp8 = a.rp8 ^^^ xorSel w (clear 2) 16 ∧
    (turn size w i a).rp10 = a.rp10 ^^^ xorSel w (clear 3) 16 ∧
    (turn size w i a).rp12 = (if i.testBit 0 then a.rp12 else a.rp12 ^^^ xorSel w all 16) ∧
    (turn size w i a).rp14 = (if i.testBit 1 then a.rp14 else a.rp14 ^^^ xorSel w all 16) ∧
    (turn .s512 w i a).rp16 = if i.testBit 2 then a.rp16 else a.rp16 ^^^ xorSel w all 16 := by
  simp only [← ite_bit]
  refine ⟨?_, ?_, ?_, ?_, ?_, ?_, ?_, ?_⟩ <;>
    simp [turn, xorSel, all, clear, Nat.testBit, xor_assoc, EccSize.mult]

lemma accumulated (cfg : Config) (size : EccSize) (buf : Block) (i : Nat) :
    Accumulated (wordAt cfg buf) size (16 * i) (accumulate cfg size buf i) := by
  induction i with
  | zero => exact ⟨rfl, rfl, rfl, rfl, rfl, rfl, rfl, fun _ => rfl⟩
  | succ i ih =>
    obtain ⟨hpar, h4, h6, h8, h10, h12, h14, h16⟩ :=
      turn_spec size (fun t => wordAt cfg buf (16 * i + t)) i (accumulate cfg size buf i)
    unfold accumulate
    constructor
    · rw [hpar, ih.par, turn_all]
    · rw [h4, ih.rp4, turn_place _ _ (by decide)]
    · rw [h6, ih.rp6, turn_place _ _ (by decide)]
    · rw [h8, ih.rp8, turn_place _ _ (by decide)]
    · rw [h10, ih.rp10, turn_place _ _ (by decide)]
    · rw [h12, ih.rp12, turn_number _ _ 0]
    · rw [h14, ih.rp14, turn_number _ _ 1]
    · intro hsize
      subst hsize
      rw [h16, ih.rp16 rfl, turn_number _ _ 2]

-- == the bytes

lemma testBit_byte (k : Nat) {c : Nat} (hc : c < 4) (j : Nat) :
    (4 * k + c).testBit j = if j < 2 then c.testBit j else k.testBit (j - 2) :=
  Nat.testBit_two_pow_mul_add k (show c < 2 ^ 2 from hc) j

def lanes (sel : Nat → Bool) (x₀ x₁ x₂ x₃ : BitVec 8) : BitVec 8 :=
  (if sel 0 then x₀ else 0#8) ^^^ (if sel 1 then x₁ else 0#8)
    ^^^ (if sel 2 then x₂ else 0#8) ^^^ (if sel 3 then x₃ else 0#8)

/-- The places in a word whose number has bit `j` equal to `v`. -/
def laneOf (j : Nat) (v : Bool) : Nat → Bool := fun c => c.testBit j == v

lemma lanes_congr {sel sel' : Nat → Bool} (h : ∀ c, c < 4 → sel c = sel' c)
    (x₀ x₁ x₂ x₃ : BitVec 8) :
    lanes sel x₀ x₁ x₂ x₃ = lanes sel' x₀ x₁ x₂ x₃ := by
  simp only [lanes, h 0 (by decide), h 1 (by decide), h 2 (by decide), h 3 (by decide)]

lemma xorSel_bytes (buf : Block) (sel : Nat → Bool) (n : Nat) :
    xorSel buf sel (4 * (n + 1)) = xorSel buf sel (4 * n)
        ^^^ lanes (fun c => sel (4 * n + c)) (buf (4 * n)) (buf (4 * n + 1))
          (buf (4 * n + 2)) (buf (4 * n + 3)) := by
  change xorSel buf sel (4 * n + 3 + 1) = _
  rw [xorSel_succ, xorSel_succ, xorSel_succ, xorSel_succ]
  unfold lanes
  simp only [xor_assoc, add_zero]

lemma project_words {φ : BitVec 32 → BitVec 8} (hφ : Linear φ) {lane word sel : Nat → Bool}
    (hlane : ∀ x₀ x₁ x₂ x₃, φ (wordOf cfg x₀ x₁ x₂ x₃) = lanes lane x₀ x₁ x₂ x₃)
    (hsel : ∀ k c, c < 4 → sel (4 * k + c) = (word k && lane c)) (n : Nat) :
    φ (xorSel (wordAt cfg buf) word n) = xorSel buf sel (4 * n) := by
  rw [hφ.xorSel]
  induction n with
  | zero => rfl
  | succ n ih =>
    have hword : φ (wordAt cfg buf n) = _ := hlane _ _ _ _
    rw [xorSel_bytes, ← ih, xorSel_succ, hword, lanes_congr (hsel n)]
    cases word n
    · simp [lanes]
    · simp

-- The projections of the kernel, and the bytes they are of.

variable (x : BitVec 32)

lemma low_eq : (x &&& 0xff).setWidth 8 = x.setWidth 8 := by
  apply eq_of_getLsbD_eq
  intro i hi
  have h255 : (0xff : BitVec 32).getLsbD i = true := by interval_cases i <;> rfl
  rw [getLsbD_setWidth, getLsbD_setWidth, getLsbD_and, h255, Bool.and_true]

lemma foldHalf_linear : Linear foldHalf := by
  refine ⟨by decide, ?_⟩
  intro x y
  unfold foldHalf
  rw [low_eq, low_eq, low_eq, ushiftRight_xor_distrib, ← setWidth_xor]
  congr 1
  ac_rfl

lemma fold_eq : fold x = foldHalf (x ^^^ x >>> 16) := rfl

lemma shift_linear (n : Nat) : Linear fun x : BitVec 32 => x >>> n :=
  ⟨zero_ushiftRight, fun x y => ushiftRight_xor_distrib x y n⟩

lemma xor_and {n : Nat} (x y m : BitVec n) : (x ^^^ y) &&& m = x &&& m ^^^ y &&& m := by
  apply eq_of_getLsbD_eq
  intro i _
  simp only [getLsbD_and, getLsbD_xor, Bool.and_xor_distrib_right]

lemma and_linear (mask : BitVec 32) : Linear fun x : BitVec 32 => x &&& mask :=
  ⟨zero_and, fun x y => xor_and x y mask⟩

lemma setWidth_linear : Linear fun x : BitVec 32 => x.setWidth 8 :=
  ⟨by decide, fun _ _ => setWidth_xor⟩

lemma sum_linear : Linear fun x : BitVec 32 => x ^^^ x >>> 16 := by
  refine ⟨by decide, ?_⟩
  intro x y
  rw [ushiftRight_xor_distrib]
  ac_rfl

variable {i : Nat}

lemma getLsbD_four (y0 y1 y2 y3 : BitVec 8) (hi : i < 8) :
    (y3 ++ y2 ++ y1 ++ y0 : BitVec 32).getLsbD i = y0.getLsbD i ∧
    (y3 ++ y2 ++ y1 ++ y0 : BitVec 32).getLsbD (8 + i) = y1.getLsbD i ∧
    (y3 ++ y2 ++ y1 ++ y0 : BitVec 32).getLsbD (16 + i) = y2.getLsbD i ∧
    (y3 ++ y2 ++ y1 ++ y0 : BitVec 32).getLsbD (16 + (8 + i)) = y3.getLsbD i := by
  refine ⟨?_, ?_, ?_, ?_⟩
  · rw [getLsbD_append, if_pos hi]
  · rw [getLsbD_append, if_neg (by omega), getLsbD_append, if_pos (by omega)]
    congr 1
    omega
  · rw [getLsbD_append, if_neg (by omega), getLsbD_append,
      if_neg (by omega), getLsbD_append, if_pos (by omega)]
    congr 1
    omega
  · rw [getLsbD_append, if_neg (by omega), getLsbD_append,
      if_neg (by omega), getLsbD_append, if_neg (by omega)]
    congr 1
    omega

lemma getLsbD_foldHalf (hi : i < 8) :
    (foldHalf x).getLsbD i = (x.getLsbD i ^^ x.getLsbD (8 + i)) := by
  unfold foldHalf
  rw [low_eq, getLsbD_setWidth, decide_eq_true hi, Bool.true_and, getLsbD_xor, getLsbD_ushiftRight]

lemma getLsbD_half (hi : i < 16) : (x &&& 0xffff).getLsbD i = x.getLsbD i := by
  have hmask : (0xffff : BitVec 32).getLsbD i = true := by interval_cases i <;> rfl
  rw [getLsbD_and, hmask, Bool.and_true]

section

variable (y0 y1 y2 y3 : BitVec 8)

lemma foldHalf_upper : foldHalf ((y3 ++ y2 ++ y1 ++ y0 : BitVec 32) >>> 16)
    = lanes (laneOf 1 true) y0 y1 y2 y3 := by
  apply eq_of_getLsbD_eq
  intro i hi
  obtain ⟨-, -, h2, h3⟩ := getLsbD_four y0 y1 y2 y3 hi
  rw [getLsbD_foldHalf _ hi, getLsbD_ushiftRight, getLsbD_ushiftRight, h2, h3]
  simp [lanes, laneOf, Nat.testBit]

lemma foldHalf_lower : foldHalf ((y3 ++ y2 ++ y1 ++ y0 : BitVec 32) &&& 0xffff)
    = lanes (laneOf 1 false) y0 y1 y2 y3 := by
  apply eq_of_getLsbD_eq
  intro i hi
  obtain ⟨h0, h1, -, -⟩ := getLsbD_four y0 y1 y2 y3 hi
  rw [getLsbD_foldHalf _ hi, getLsbD_half _ (by omega), getLsbD_half _ (by omega), h0, h1]
  simp [lanes, laneOf, Nat.testBit]

lemma setWidth_sum :
    ((y3 ++ y2 ++ y1 ++ y0 : BitVec 32) ^^^ (y3 ++ y2 ++ y1 ++ y0 : BitVec 32) >>> 16).setWidth 8
      = lanes (laneOf 0 false) y0 y1 y2 y3 := by
  apply eq_of_getLsbD_eq
  intro i hi
  obtain ⟨h0, -, h2, -⟩ := getLsbD_four y0 y1 y2 y3 hi
  rw [getLsbD_setWidth, decide_eq_true hi, Bool.true_and, getLsbD_xor, getLsbD_ushiftRight, h0, h2]
  simp [lanes, laneOf, Nat.testBit]

lemma setWidth_sum_shift :
    (((y3 ++ y2 ++ y1 ++ y0 : BitVec 32)
      ^^^ (y3 ++ y2 ++ y1 ++ y0 : BitVec 32) >>> 16) >>> 8).setWidth 8
      = lanes (laneOf 0 true) y0 y1 y2 y3 := by
  apply eq_of_getLsbD_eq
  intro i hi
  obtain ⟨-, h1, -, h3⟩ := getLsbD_four y0 y1 y2 y3 hi
  rw [getLsbD_setWidth, decide_eq_true hi, Bool.true_and, getLsbD_ushiftRight, getLsbD_xor,
    getLsbD_ushiftRight, h1, h3]
  simp [lanes, laneOf, Nat.testBit]

lemma fold_four : fold (y3 ++ y2 ++ y1 ++ y0 : BitVec 32) = y0 ^^^ y1 ^^^ y2 ^^^ y3 := by
  apply eq_of_getLsbD_eq
  intro i hi
  obtain ⟨h0, h1, h2, h3⟩ := getLsbD_four y0 y1 y2 y3 hi
  rw [fold_eq, getLsbD_foldHalf _ hi, getLsbD_xor, getLsbD_xor,
    getLsbD_ushiftRight, getLsbD_ushiftRight, h0, h1, h2, h3]
  simp only [getLsbD_xor]
  cases y0.getLsbD i <;> cases y1.getLsbD i <;> cases y2.getLsbD i <;> simp

end

open Bool

variable {cfg : Config} {size : EccSize} {buf : Block}

-- == the code

/-- The bytes among the first `n` whose number has bit `j` equal to `v`. -/
def row (buf : Block) (n j : Nat) (v : Bool) : BitVec 8 := xorSel buf (fun i => i.testBit j == v) n

/-- All of the first `n` bytes. -/
def total (buf : Block) (n : Nat) : BitVec 8 := xorSel buf all n

def flag (b : Bool) : BitVec 8 := if b then 1 else 0

def pack (f : Nat → Bool) : BitVec 8 :=
  flag (f 7) <<< 7 ||| flag (f 6) <<< 6 ||| flag (f 5) <<< 5 |||
    flag (f 4) <<< 4 ||| flag (f 3) <<< 3 ||| flag (f 2) <<< 2 |||
    flag (f 1) <<< 1 ||| flag (f 0) <<< 0

lemma pack_bits : ∀ b0 b1 b2 b3 b4 b5 b6 b7 : Bool,
    flag b7 <<< 7 ||| flag b6 <<< 6 ||| flag b5 <<< 5 ||| flag b4 <<< 4 |||
      flag b3 <<< 3 ||| flag b2 <<< 2 ||| flag b1 <<< 1 ||| flag b0 <<< 0
      = BitVec.ofBoolListLE [b0, b1, b2, b3, b4, b5, b6, b7] := by
  decide

lemma getLsbD_pack (f : Nat → Bool) {i : Nat} (hi : i < 8) : (pack f).getLsbD i = f i := by
  unfold pack
  rw [pack_bits, getLsbD_ofBoolListLE]
  interval_cases i <;> rfl

lemma pack_xor (f g : Nat → Bool) : pack f ^^^ pack g = pack fun k => f k ^^ g k := by
  apply eq_of_getLsbD_eq
  intro i hi
  rw [getLsbD_xor, getLsbD_pack f hi, getLsbD_pack g hi, getLsbD_pack _ hi]

lemma pack_congr {f g : Nat → Bool} (h : ∀ k, k < 8 → f k = g k) : pack f = pack g := by
  apply eq_of_getLsbD_eq
  intro i hi
  rw [getLsbD_pack f hi, getLsbD_pack g hi, h i hi]

/-- The inverted parities by four bits of the number of a byte. -/
def rowBits (buf : Block) (n j : Nat) : Nat → Bool :=
  fun k => !parity (row buf n (j + k / 2) (k % 2 == 1))

/-- The bits of a byte that a bit of the third byte is the parity of. -/
def columnMask : Nat → BitVec 8
  | 2 => 0x55
  | 3 => 0xaa
  | 4 => 0x33
  | 5 => 0xcc
  | 6 => 0x0f
  | 7 => 0xf0
  | _ => 0

def columnBits (size : EccSize) (buf : Block) : Nat → Bool :=
  fun k => if k < 2 then size == .s256 || rowBits buf size.bytes 8 k
    else !parity (total buf size.bytes &&& columnMask k)

def ecc (cfg : Config) (size : EccSize) (buf : Block) : Code :=
  let low := pack (rowBits buf size.bytes 0)
  let high := pack (rowBits buf size.bytes 4)
  { code0 := if cfg.smc then low else high
    code1 := if cfg.smc then high else low
    code2 := pack (columnBits size buf) }

-- == the kernel

lemma invparity_eq : ∀ x : BitVec 8, invparity x = flag !parity x := by
  decide

lemma project_row {φ : BitVec 32 → BitVec 8} (hφ : Linear φ)
    {word : Nat → Bool} {j : Nat} {v : Bool} {lane : Nat → Bool}
    (hlane : ∀ x0 x1 x2 x3, φ (wordOf cfg x0 x1 x2 x3) = lanes lane x0 x1 x2 x3)
    (hsel : ∀ k c, c < 4 → ((4 * k + c).testBit j == v) = (word k && lane c)) (n : Nat) :
    φ (xorSel (wordAt cfg buf) word n) = row buf (4 * n) j v :=
  project_words hφ hlane hsel n

lemma fold_linear : Linear fold := foldHalf_linear.comp sum_linear

lemma fold_wordOf (x0 x1 x2 x3 : BitVec 8) :
    fold (wordOf cfg x0 x1 x2 x3) = lanes all x0 x1 x2 x3 := by
  change _ = x0 ^^^ x1 ^^^ x2 ^^^ x3
  unfold wordOf
  cases cfg.bigEndian
  · exact fold_four x0 x1 x2 x3
  · rw [if_pos rfl, fold_four]
    ac_rfl

lemma fold_row (cfg : Config) (buf : Block) (j n : Nat) :
    fold (xorSel (wordAt cfg buf) (clear j) n) = row buf (4 * n) (j + 2) false := by
  refine project_row fold_linear fold_wordOf ?_ n
  intro k c hc
  rw [testBit_byte k hc, if_neg (by omega), Nat.add_sub_cancel]
  unfold clear all
  cases k.testBit j <;> rfl

lemma fold_total (cfg : Config) (buf : Block) (n : Nat) :
    fold (xorSel (wordAt cfg buf) all n) = total buf (4 * n) :=
  project_words fold_linear fold_wordOf (fun _ _ _ => rfl) n

lemma total_xor_row (buf : Block) (n j : Nat) :
    total buf n ^^^ row buf n j false = row buf n j true := by
  unfold total row
  have hcompl := xorSel_compl buf (fun i => i.testBit j == false) n
  rw [show (fun i : Nat => !(i.testBit j == false)) = fun i => i.testBit j == true by
      funext i
      cases i.testBit j <;> rfl] at hcompl
  exact hcompl

lemma lanes_reverse {j : Nat} (hj : j < 2) (v : Bool) (x0 x1 x2 x3 : BitVec 8) :
    lanes (laneOf j v) x3 x2 x1 x0 = lanes (laneOf j !v) x0 x1 x2 x3 := by
  interval_cases j <;> cases v <;> simp [lanes, laneOf, Nat.testBit, BitVec.xor_comm]

/-- What has the lanes of a word in their order has the others in a word of the other order. -/
lemma lane_row {φ : BitVec 32 → BitVec 8} (hφ : Linear φ) {j : Nat} (hj : j < 2) {v w : Bool}
    (hv : (v ^^ cfg.bigEndian) = w)
    (hlane : ∀ y0 y1 y2 y3, φ (y3 ++ y2 ++ y1 ++ y0) = lanes (laneOf j v) y0 y1 y2 y3) (n : Nat) :
    φ (xorSel (wordAt cfg buf) all n) = row buf (4 * n) j w := by
  subst hv
  have hword : ∀ x0 x1 x2 x3, φ (wordOf cfg x0 x1 x2 x3)
      = lanes (laneOf j (v ^^ cfg.bigEndian)) x0 x1 x2 x3 := by
    intro x0 x1 x2 x3
    unfold wordOf
    cases cfg.bigEndian
    · rw [Bool.xor_false]
      exact hlane x0 x1 x2 x3
    · rw [if_pos rfl, hlane, lanes_reverse hj, Bool.xor_true]
  refine project_row hφ hword ?_ n
  intro k c hc
  rw [testBit_byte k hc, if_pos hj]
  rfl

variable (cfg : Config) (buf : Block) (n : Nat)

lemma upper_row :
    foldHalf (xorSel (wordAt cfg buf) all n >>> 16) = row buf (4 * n) 1 (!cfg.bigEndian) :=
  lane_row (foldHalf_linear.comp (shift_linear 16)) one_lt_two (true_xor _) foldHalf_upper n

lemma lower_row :
    foldHalf (xorSel (wordAt cfg buf) all n &&& 0xffff) = row buf (4 * n) 1 cfg.bigEndian :=
  lane_row (foldHalf_linear.comp (and_linear 0xffff)) one_lt_two (false_xor _) foldHalf_lower n

lemma odd_row :
    ((xorSel (wordAt cfg buf) all n
      ^^^ xorSel (wordAt cfg buf) all n >>> 16) >>> 8 &&& 0xff).setWidth 8
      = row buf (4 * n) 0 (!cfg.bigEndian) := by
  rw [low_eq]
  exact lane_row (setWidth_linear.comp ((shift_linear 8).comp sum_linear)) two_pos (true_xor _)
    setWidth_sum_shift n

lemma even_row :
    ((xorSel (wordAt cfg buf) all n ^^^ xorSel (wordAt cfg buf) all n >>> 16) &&& 0xff).setWidth 8
      = row buf (4 * n) 0 cfg.bigEndian := by
  rw [low_eq]
  exact lane_row (setWidth_linear.comp sum_linear) two_pos (false_xor _) setWidth_sum n

lemma pack_rowBits (buf : Block) (n j : Nat) :
    pack (rowBits buf n j) = invparity (row buf n (j + 3) true) <<< 7 |||
        invparity (row buf n (j + 3) false) <<< 6 |||
        invparity (row buf n (j + 2) true) <<< 5 |||
        invparity (row buf n (j + 2) false) <<< 4 |||
        invparity (row buf n (j + 1) true) <<< 3 |||
        invparity (row buf n (j + 1) false) <<< 2 |||
        invparity (row buf n j true) <<< 1 |||
        invparity (row buf n j false) <<< 0 := by
  simp only [invparity_eq]
  rfl

lemma column_byte (size : EccSize) (buf : Block) :
    pack (columnBits size buf) = invparity (total buf size.bytes &&& 0xf0) <<< 7 |||
        invparity (total buf size.bytes &&& 0x0f) <<< 6 |||
        invparity (total buf size.bytes &&& 0xcc) <<< 5 |||
        invparity (total buf size.bytes &&& 0x33) <<< 4 |||
        invparity (total buf size.bytes &&& 0xaa) <<< 3 |||
        invparity (total buf size.bytes &&& 0x55) <<< 2 |||
        flag (columnBits size buf 1) <<< 1 |||
        flag (columnBits size buf 0) <<< 0 := by
  simp only [invparity_eq]
  rfl

/-- The kernel computes the code. -/
theorem nandCalculateEcc_eq (cfg : Config) (size : EccSize) (buf : Block) :
    nandCalculateEcc cfg size buf = ecc cfg size buf := by
  have hacc := accumulated cfg size buf (size.mult <<< 2)
  have hbytes : 4 * (16 * size.mult <<< 2) = size.bytes := by
    cases size <;> rfl
  have hset : ∀ j, (if cfg.bigEndian then row buf size.bytes j cfg.bigEndian
      else row buf size.bytes j !cfg.bigEndian) = row buf size.bytes j true := by
    cases cfg.bigEndian <;> exact fun _ => rfl
  have hclear : ∀ j, (if cfg.bigEndian then row buf size.bytes j !cfg.bigEndian
      else row buf size.bytes j cfg.bigEndian) = row buf size.bytes j false := by
    cases cfg.bigEndian <;> exact fun _ => rfl
  unfold nandCalculateEcc ecc
  simp only [← fold_eq, hacc.par, hacc.rp4, hacc.rp6, hacc.rp8, hacc.rp10, hacc.rp12, hacc.rp14,
    fold_row, fold_total, upper_row, lower_row, odd_row, even_row, hbytes, total_xor_row]
  rw [hset, hset, hclear, hclear, ← pack_rowBits _ _ 0, ← pack_rowBits _ _ 4]
  congr 1
  rw [column_byte]
  cases size with
  | s256 =>
    have hone : EccSize.s256.mult = 1 := rfl
    have h1 : columnBits .s256 buf 1 = true := rfl
    have h0 : columnBits .s256 buf 0 = true := rfl
    have hthree : flag true <<< 1 ||| flag true <<< 0 = 3 := by decide
    rw [if_pos hone, h1, h0, or_assoc _ (flag true <<< 1), hthree]
  | s512 =>
    have htwo : ¬EccSize.s512.mult = 1 := by decide
    have h8 : fold (accumulate cfg .s512 buf (EccSize.s512.mult <<< 2)).rp16
        = row buf EccSize.s512.bytes 8 false := by
      rw [hacc.rp16 rfl]
      exact fold_row cfg buf 6 _
    rw [if_neg htwo, h8, total_xor_row, invparity_eq (row _ _ 8 _), invparity_eq (row _ _ 8 _)]
    rfl

-- == the boot loader

lemma precalc_parity : ∀ x : BitVec 8,
    BitVec.ofNat 8 (lookup nandEccPrecalcTable x) &&& 0x40 ≠ 0 ↔ parity x = true := by
  decide

lemma precalc_columns : ∀ x : BitVec 8, BitVec.ofNat 8 (lookup nandEccPrecalcTable x) &&& 0x3f
      = pack fun k => decide (k < 6) && parity (x &&& columnMask (k + 2)) := by
  decide

lemma parity_and_xor (x y mask : BitVec 8) :
    parity ((x ^^^ y) &&& mask) = (parity (x &&& mask) ^^ parity (y &&& mask)) := by
  rw [← parity_xor, xor_and]

lemma ofNat_eq_pack (j : Nat) : BitVec.ofNat 8 j = pack j.testBit := by
  apply eq_of_getLsbD_eq
  intro i hi
  rw [getLsbD_pack _ hi, getLsbD_ofNat, decide_eq_true hi, Bool.true_and]

lemma not_eq_pack (f : Nat → Bool) : ~~~pack f = pack fun k => !f k := by
  apply eq_of_getLsbD_eq
  intro i hi
  rw [getLsbD_pack _ hi, getLsbD_not, getLsbD_pack _ hi, decide_eq_true hi, Bool.true_and]

lemma parity_row_succ (buf : Block) (n j : Nat) (v : Bool) :
    parity (row buf (n + 1) j v)
      = (parity (row buf n j v) ^^ ((n.testBit j == v) && parity (buf n))) := by
  unfold row
  rw [xorSel_succ, parity_xor]
  cases n.testBit j == v
  · rw [if_neg Bool.false_ne_true, parity_zero, Bool.false_and]
  · rw [if_pos rfl, Bool.true_and]

lemma total_succ (buf : Block) (n : Nat) : total buf (n + 1) = total buf n ^^^ buf n := rfl

lemma regs_eq (dat : Block) (n : Nat) :
    regs dat n = ⟨pack fun k => decide (k < 6) && parity (total dat n &&& columnMask (k + 2)),
        pack fun j => parity (row dat n j false), pack fun j => parity (row dat n j true)⟩ := by
  induction n with
  | zero =>
    have hzero : ∀ x : BitVec 8, parity (0#8 &&& x) = false := by
      intro x
      rw [zero_and, parity_zero]
    change (⟨0, 0, 0⟩ : Regs) = ⟨pack fun k => decide (k < 6)
        && parity (0#8 &&& columnMask (k + 2)), pack fun _ => parity 0#8, pack fun _ => parity 0#8⟩
    simp only [hzero, parity_zero, Bool.and_false]
    rfl
  | succ n ih =>
    have hcolumns : (pack fun k => decide (k < 6) && parity (total dat n &&& columnMask (k + 2)))
        ^^^ (BitVec.ofNat 8 (lookup nandEccPrecalcTable (dat n)) &&& 0x3f)
        = pack fun k => decide (k < 6) && parity (total dat (n + 1) &&& columnMask (k + 2)) := by
      rw [precalc_columns, pack_xor]
      apply pack_congr
      intro k _
      rw [total_succ, parity_and_xor, and_xor_distrib_left]
    unfold regs
    rw [ih]
    dsimp only
    rw [hcolumns, ofNat_eq_pack n, not_eq_pack, pack_xor, pack_xor]
    simp only [parity_row_succ]
    cases hodd : parity (dat n) with
    | false =>
      rw [if_neg (fun h => Bool.false_ne_true (hodd.symm.trans ((precalc_parity _).mp h)))]
      simp only [Bool.and_false, Bool.xor_false]
    | true =>
      rw [if_pos ((precalc_parity _).mpr hodd)]
      simp only [Bool.and_true, beq_false, beq_true]

def interleave (reg2 reg3 : BitVec 8) (j : Nat) : Nat → Bool := fun k =>
  if k % 2 == 1 then reg3.getLsbD (j + k / 2) else reg2.getLsbD (j + k / 2)

lemma transTurn_eq {reg2 reg3 a : BitVec 8} {x y : Bool} (hx : reg2 &&& a ≠ 0 ↔ x = true)
    (hy : reg3 &&& a ≠ 0 ↔ y = true) {i : Nat} (hi : i < 4) (tmp : BitVec 8) :
    transTurn reg2 reg3 (tmp, a, 0x80#8 >>> (2 * i))
      = (tmp ||| flag y <<< (7 - 2 * i) ||| flag x <<< (6 - 2 * i), a >>> 1,
        0x80#8 >>> (2 * (i + 1))) := by
  unfold transTurn
  simp only [hx, hy]
  interval_cases i <;> cases x <;> cases y <;> simp [flag]

lemma transLoop_eq {reg2 reg3 a : BitVec 8} {x y : Nat → Bool}
    (hx : ∀ i, i < 4 → (reg2 &&& a >>> i ≠ 0 ↔ x i = true))
    (hy : ∀ i, i < 4 → (reg3 &&& a >>> i ≠ 0 ↔ y i = true)) :
    transLoop reg2 reg3 a = (flag (y 0) <<< 7 ||| flag (x 0) <<< 6 ||| flag (y 1) <<< 5 |||
        flag (x 1) <<< 4 ||| flag (y 2) <<< 3 ||| flag (x 2) <<< 2 |||
        flag (y 3) <<< 1 ||| flag (x 3) <<< 0, a >>> 4, 0) := by
  have hturn : ∀ i (hi : i < 4) tmp, transTurn reg2 reg3 (tmp, a >>> i, 0x80#8 >>> (2 * i)) = _ :=
    fun i hi tmp => transTurn_eq (hx i hi) (hy i hi) hi tmp
  have hzero : a >>> 0 = a := ushiftRight_zero a
  change transTurn reg2 reg3 (transTurn reg2 reg3 (transTurn reg2 reg3
    (transTurn reg2 reg3 (0#8, a, 0x80#8 >>> (2 * 0))))) = _
  rw [← hzero, hturn 0 (by decide), ← shiftRight_add, hturn 1 (by decide), ← shiftRight_add,
    hturn 2 (by decide), ← shiftRight_add, hturn 3 (by decide), ← shiftRight_add, zero_or, hzero]
  rfl

lemma transLoop_from (reg2 reg3 a : BitVec 8) (j : Nat)
    (hbits : ∀ x : BitVec 8, ∀ i, i < 4 → (x &&& a >>> i ≠ 0 ↔ x.getLsbD (j + (3 - i)) = true)) :
    transLoop reg2 reg3 a = (pack (interleave reg2 reg3 j), a >>> 4, 0) := by
  rw [transLoop_eq (x := fun i => reg2.getLsbD (j + (3 - i)))
    (y := fun i => reg3.getLsbD (j + (3 - i))) (hbits reg2) (hbits reg3)]
  rfl

/-- The boot loader computes the same code. -/
theorem bootCalculateEcc_eq (buf : Block) (big : Bool) :
    bootCalculateEcc buf = ecc ⟨big, false⟩ .s256 buf := by
  have hrows : ∀ j, j ≤ 4 → ~~~pack (interleave (pack fun j => parity (row buf 256 j false))
        (pack fun j => parity (row buf 256 j true)) j)
        = pack (rowBits buf 256 j) := by
    intro j hj
    rw [not_eq_pack]
    apply pack_congr
    intro k hk
    unfold interleave rowBits
    cases k % 2 == 1
    · rw [if_neg Bool.false_ne_true, getLsbD_pack _ (by omega)]
    · rw [if_pos rfl, getLsbD_pack _ (by omega)]
  unfold bootCalculateEcc nandTransResult ecc
  rw [regs_eq]
  dsimp only
  rw [transLoop_from _ _ 0x80 4 (by decide)]
  dsimp only
  rw [transLoop_from _ _ _ 0 (by decide), hrows 4 (by decide), hrows 0 (by decide), not_eq_pack]
  congr 1
  apply eq_of_getLsbD_eq
  intro i hi
  have hthree : (0x03 : BitVec 8).getLsbD i = decide (i < 2) := by interval_cases i <;> rfl
  rw [getLsbD_pack _ hi, getLsbD_or, getLsbD_shiftLeft, hthree, decide_eq_true hi, Bool.true_and]
  unfold columnBits
  by_cases htwo : i < 2
  · rw [decide_eq_true htwo, if_pos htwo, Bool.or_true]
    rfl
  · rw [decide_eq_false htwo, if_neg htwo, Bool.or_false, Bool.not_false,
      Bool.true_and, getLsbD_pack _ (by omega), decide_eq_true (by omega),
      Bool.true_and, Nat.sub_add_cancel (by omega)]
    rfl

/-- The codes agree. -/
theorem boot_and_kernel_agree (buf : Block) :
    bootCalculateEcc buf = nandCalculateEcc ⟨false, false⟩ .s256 buf := by
  rw [bootCalculateEcc_eq buf false, nandCalculateEcc_eq]

end BoardStack.NandEcc
