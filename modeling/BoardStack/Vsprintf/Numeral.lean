/-
Numerals: what `number` prints zero-padded is the canonical numeral, and
`simple_strtoull` reads it back.

A numeral is a list of digit values, most significant first. Decimal digits
come out of `put_dec` five at a time, computed from the nibbles of the value
without a division; the other bases shift.
-/
import BoardStack.Vsprintf.Truncate
import Mathlib.Data.Nat.Digits.Lemmas

namespace BoardStack.Vsprintf

open Base List Nat

-- == digits

/-- A digit as `number` writes it. -/
def digitChar (locase : UInt8) (d : Nat) : UInt8 := charAt digits d ||| locase

/-- The digits of a number, most significant first; zero has one digit. -/
def numeralDigits (base n : Nat) : List Nat :=
  if n = 0 then [0] else (Nat.digits base n).reverse

def numeral (base : Nat) (locase : UInt8) (n : Nat) : List UInt8 :=
  (numeralDigits base n).map (digitChar locase)

variable (flags : Flags)

lemma digitChar_dec {d : Nat} (h : d < 10) :
    digitChar (locase flags) d = UInt8.ofNat (d + '0'.toNat) := by
  unfold locase
  cases flags.small with
  | false | true => interval_cases d <;> decide

/-- The variables of `put_dec_full` on a number below 100000, with `c` for the
first value of `d1`, `b` for that of `d2` and `a` for that of `d3`. -/
structure Jones (q a b c d0 q0 d1 q1 d2 q2 d3 q3 : Nat) : Prop where
  d0_eq : d0 = 6 * (a + b + c) + (q &&& 0xf)
  q0_eq : q0 = (d0 * 0xcd) >>> 11
  d1_eq : d1 = q0 + 9 * a + 5 * b + c
  q1_eq : q1 = (d1 * 0xcd) >>> 11
  d2_eq : d2 = q1 + 2 * b
  q2_eq : q2 = (d2 * 0xd) >>> 7
  d3_eq : d3 = q2 + 4 * a
  q3_eq : q3 = (d3 * 0xcd) >>> 11

lemma mul_cd_shift {x : Nat} (h : x < 1000) : x * 0xcd / 2048 = x / 10 := by
  omega

lemma mul_d_shift {x : Nat} (h : x < 69) : x * 0xd / 128 = x / 10 := by
  omega

/-- One step of the long division: a quotient, and what is left to divide. -/
lemma div_ten_add (k x : Nat) :
    (10 * k + x) / 10 = k + x / 10 ∧ (10 * k + x) % 10 = x - 10 * (x / 10) := by
  omega

/-- The multiplications divide by ten, as far as they are used, so every step
carries what a long division would. -/
lemma Jones.carries {q d0 q0 d1 q1 d2 q2 d3 q3 : Nat} (h : q < 100000)
    (hj : Jones q (q >>> 12) ((q >>> 8) &&& 0xf) ((q >>> 4) &&& 0xf) d0 q0 d1 q1 d2 q2 d3 q3) :
    (d0 - 10 * q0 = q % 10 ∧ d1 - 10 * q1 = q / 10 % 10 ∧
      d2 - 10 * q2 = q / 100 % 10 ∧ d3 - 10 * q3 = q / 1000 % 10 ∧ q3 = q / 10000) ∧
    (d1 = 0 ↔ q / 10 = 0) ∧ (d2 = 0 ∧ q >>> 12 = 0 ↔ q / 100 = 0) ∧ (d3 = 0 ↔ q / 1000 = 0) := by
  obtain ⟨hd0, hq0, hd1, hq1, hd2, hq2, hd3, hq3⟩ := hj
  have hmask : ∀ x, x &&& 0xf = x % 16 := fun x => and_two_pow_sub_one_eq_mod x 4
  simp only [shiftRight_eq_div_pow, hmask, reducePow] at *
  have hb : q / 256 % 16 < 16 := by omega
  have hc : q / 16 % 16 < 16 := by omega
  have hq : q = 4096 * (q / 4096) + 256 * (q / 256 % 16) + 16 * (q / 16 % 16) + q % 16 := by omega
  have hd : q % 16 < 16 := by omega
  generalize q / 4096 = a at *
  generalize q / 256 % 16 = b at *
  generalize q / 16 % 16 = c at *
  generalize q % 16 = d at *
  have hd0' : d0 < 1000 := by omega
  rw [mul_cd_shift hd0'] at hq0
  have hd1' : d1 < 1000 := by omega
  rw [mul_cd_shift hd1'] at hq1
  have hd2' : d2 < 69 := by omega
  rw [mul_d_shift hd2'] at hq2
  have hd3' : d3 < 1000 := by omega
  rw [mul_cd_shift hd3'] at hq3
  obtain ⟨hten, hmod⟩ := div_ten_add (409 * a + 25 * b + c) d0
  rw [show 10 * (409 * a + 25 * b + c) + d0 = q by omega] at hten hmod
  obtain ⟨hhundred, hmod1⟩ := div_ten_add (40 * a + 2 * b) d1
  rw [show 10 * (40 * a + 2 * b) + d1 = q / 10 by omega] at hhundred hmod1
  rw [Nat.div_div_eq_div_mul] at hhundred
  obtain ⟨hthousand, hmod2⟩ := div_ten_add (4 * a) d2
  rw [show 10 * (4 * a) + d2 = q / 100 by omega] at hthousand hmod2
  rw [Nat.div_div_eq_div_mul] at hthousand
  have hd3q : q / 1000 = d3 := by omega
  have hq3q : q / 10000 = d3 / 10 := by rw [← hd3q, Nat.div_div_eq_div_mul]
  refine ⟨⟨?_, ?_, ?_, ?_, ?_⟩, ?_, ?_, ?_⟩
  · rw [hmod, hq0]
  · rw [hmod1, hq1]
  · rw [hmod2, hq2]
  · omega
  · rw [hq3q, hq3]
  · omega
  · omega
  · rw [hd3q]

variable {base : Nat}

lemma numeralDigits_reverse (n : Nat) (hb : 1 < base) :
    (numeralDigits base n).reverse = n % base :: Nat.digits base (n / base) := by
  unfold numeralDigits
  split
  next h => rw [h, zero_mod, Nat.zero_div, digits_zero]; rfl
  next h =>
    rw [reverse_reverse, digits_def' hb (Nat.pos_of_ne_zero h)]

lemma digits_ten (m : Nat) :
    Nat.digits 10 m = if m = 0 then [] else m % 10 :: Nat.digits 10 (m / 10) := by
  split
  next h => rw [h, digits_zero]
  next h => exact digits_def' (by decide) (Nat.pos_of_ne_zero h)

/-- The digit characters `put_dec_trunc` and `put_dec_full` write. -/
def decChar (d : Nat) : UInt8 := UInt8.ofNat (d + '0'.toNat)

lemma putDecTrunc_eq {q : Nat} (h : q < 100000) :
    putDecTrunc q = (numeralDigits 10 q).reverse.map decChar := by
  have hj := Jones.carries h ⟨rfl, rfl, rfl, rfl, rfl, rfl, rfl, rfl⟩
  obtain ⟨⟨h0, h1, h2, h3, h4⟩, hz1, hz2, hz3⟩ := hj
  unfold putDecTrunc
  dsimp only
  rw [h0, h1, h2, h3, h4, numeralDigits_reverse q (by decide),
    map_cons, digits_ten, Nat.div_div_eq_div_mul, digits_ten,
    Nat.div_div_eq_div_mul, digits_ten, Nat.div_div_eq_div_mul, digits_ten, Nat.div_div_eq_div_mul]
  simp only [← not_and_or, Ne, hz1, hz2, hz3, ite_not, reduceMul]
  have hlast : q / 100000 = 0 := by omega
  have hdigit : q / 10000 % 10 = q / 10000 := by omega
  rw [hlast, digits_zero, hdigit]
  repeat' split
  all_goals rfl

lemma putDecFull_eq {q : Nat} (h : q < 100000) :
    putDecFull q = [q % 10, q / 10 % 10, q / 100 % 10, q / 1000 % 10, q / 10000].map decChar := by
  have hj := Jones.carries h ⟨rfl, rfl, rfl, rfl, rfl, rfl, rfl, rfl⟩
  obtain ⟨⟨h0, h1, h2, h3, h4⟩, -⟩ := hj
  unfold putDecFull
  dsimp only
  rw [h0, h1, h2, h3, h4]
  rfl

lemma numeralDigits_five {m : Nat} (h : 100000 ≤ m) :
    (numeralDigits 10 m).reverse = [m % 100000 % 10, m % 100000 / 10 % 10, m % 100000 / 100 % 10,
          m % 100000 / 1000 % 10, m % 100000 / 10000]
        ++ (numeralDigits 10 (m / 100000)).reverse := by
  have hstep : ∀ k, k ≤ m → 0 < k →
      Nat.digits 10 (m / k) = m / k % 10 :: Nat.digits 10 (m / (k * 10)) := by
    intro k hk hpos
    have : 0 < m / k := Nat.div_pos hk hpos
    rw [digits_ten, if_neg (by omega), Nat.div_div_eq_div_mul]
  rw [numeralDigits_reverse _ (by decide), numeralDigits_reverse _ (by decide),
    hstep 10 (by omega) (by decide), hstep 100 (by omega) (by decide),
    hstep 1000 (by omega) (by decide), hstep 10000 (by omega) (by decide),
    hstep 100000 h (by decide), Nat.div_div_eq_div_mul]
  have h0 : m % 100000 % 10 = m % 10 := by omega
  have h1 : m % 100000 / 10 % 10 = m / 10 % 10 := by omega
  have h2 : m % 100000 / 100 % 10 = m / 100 % 10 := by omega
  have h3 : m % 100000 / 1000 % 10 = m / 1000 % 10 := by omega
  have h4 : m % 100000 / 10000 = m / 10000 % 10 := by omega
  rw [h0, h1, h2, h3, h4]
  rfl

lemma putDecLoop_eq {turns num : Nat} (h : num < 100000 ^ turns) (ht : 0 < turns) :
    putDecLoop turns num = (numeralDigits 10 num).reverse.map decChar := by
  induction turns generalizing num with
  | zero => exact absurd ht (lt_irrefl 0)
  | succ turns ih =>
    unfold putDecLoop
    split
    next hlt => exact putDecTrunc_eq hlt
    next hge =>
      have hturns : 0 < turns := by
        rcases Nat.eq_zero_or_pos turns with rfl | h'
        · omega
        · exact h'
      have hdiv : num / 100000 < 100000 ^ turns := by
        rw [pow_succ] at h
        exact Nat.div_lt_of_lt_mul (by omega)
      rw [putDecFull_eq (mod_lt _ (by decide)), ih hdiv hturns,
        ← map_append, numeralDigits_five (m := num) (by omega)]

lemma putDec_eq {num : Nat} (h : num < 2 ^ 64) :
    putDec num = (numeralDigits 10 num).reverse.map decChar :=
  putDecLoop_eq (lt_of_lt_of_le h (by decide)) (by decide)

/-- The shifts of `number`: one digit a turn. -/
lemma shiftLoop_eq (shift : Nat) (locase : UInt8) {turns num : Nat} (hbase : base = 2 ^ shift)
    (hdvd : base ∣ 256) (hone : 1 < base) (h : num < base ^ turns) (ht : 0 < turns) :
    shiftLoop (base - 1) shift locase turns num
      = (numeralDigits base num).reverse.map (digitChar locase) := by
  induction turns generalizing num with
  | zero => exact absurd ht (lt_irrefl 0)
  | succ turns ih =>
    have hmask : num % 256 &&& (base - 1) = num % base := by
      rw [hbase, and_two_pow_sub_one_eq_mod, ← hbase, mod_mod_of_dvd _ hdvd]
    have hshift : num >>> shift = num / base := by rw [hbase, shiftRight_eq_div_pow]
    rw [shiftLoop, hmask, hshift, numeralDigits_reverse _ hone, map_cons]
    congr 1
    split
    next h0 => rw [h0, digits_zero]; rfl
    next h0 =>
      have hturns : 0 < turns := by
        rcases Nat.eq_zero_or_pos turns with rfl | h'
        · exact absurd (div_eq_of_lt (by simpa using h)) h0
        · exact h'
      have hdiv : num / base < base ^ turns := by
        rw [pow_succ] at h
        exact Nat.div_lt_of_lt_mul (by rwa [mul_comm])
      rw [ih hdiv hturns, numeralDigits_reverse _ hone, digits_def' hone (Nat.pos_of_ne_zero h0)]

lemma numberTmp_eq {base n : Nat} (flags : Flags)
    (hbase : base = 8 ∨ base = 10 ∨ base = 16) (hn : n < 2 ^ 64) :
    numberTmp base (locase flags) n = (numeral base (locase flags) n).reverse := by
  unfold numberTmp numeral
  rw [← map_reverse]
  split
  next h0 =>
    rw [h0, numeralDigits, if_pos rfl, reverse_singleton,
      map_singleton, digitChar_dec flags (by decide)]
    rfl
  next h0 =>
    rcases hbase with rfl | rfl | rfl
    · exact shiftLoop_eq 3 _ rfl (by decide) (by decide) (lt_of_lt_of_le hn (by decide)) (by decide)
    · refine (putDec_eq hn).trans (map_congr_left fun d hd => ?_)
      have hlt : d < 10 := by
        rw [mem_reverse, numeralDigits, if_neg h0, mem_reverse] at hd
        exact digits_lt_base (by decide) hd
      exact (digitChar_dec flags hlt).symm
    · exact shiftLoop_eq 4 _ rfl (by decide) (by decide) (lt_of_lt_of_le hn (by decide)) (by decide)

variable {n : Nat}

lemma numeral_length_le (base : Nat) (locase : UInt8) (hb : 1 < base)
    (hn : n < 2 ^ 64) : (numeral base locase n).length ≤ 64 := by
  unfold numeral numeralDigits
  rw [length_map]
  split
  next => decide
  next h =>
    rw [length_reverse, digits_length_le_iff hb]
    exact hn.trans_le (Nat.pow_le_pow_left hb 64)

-- == padding

lemma int_mem (x : Int) : -2147483648 ≤ int x ∧ int x < 2147483648 := by
  constructor
  · exact Int.le_bmod (by decide)
  · exact Int.bmod_lt (by decide)

lemma int_eq {x : Int} (hlo : -2147483648 ≤ x) (hhi : x < 2147483648) : int x = x := by
  exact signed_eq (w := 31) hlo hhi

variable {w : Nat}

lemma padLoop_eq {c : UInt8} {k : Int} (hk : 0 ≤ k) {turns : Nat} {n : Int} (o : Sink UInt8)
    (hturns : (int (n - 1) - k + 1).toNat < turns) :
    padLoop w c k turns n o = (if k ≤ int (n - 1) then k - 1 else int (n - 1),
          o.emit w (replicate (int (n - 1) - k + 1).toNat c)) := by
  induction turns generalizing n o with
  | zero => exact absurd hturns (Nat.not_lt_zero _)
  | succ turns ih =>
    obtain ⟨hlo, hhi⟩ := int_mem (n - 1)
    rw [padLoop]
    generalize int (n - 1) = m at *
    split
    next hkm =>
      have hm : int (m - 1) = m - 1 := int_eq (by omega) (by omega)
      rw [ih _ (by rw [hm]; omega), hm]
      have hcount : (m - k + 1).toNat = (m - 1 - k + 1).toNat + 1 := by omega
      rw [hcount, replicate_succ, Sink.emit_cons]
      congr 1
      split <;> omega
    next hkm =>
      rw [show (m - k + 1).toNat = 0 by omega]
      rfl

lemma pad_eq {c : UInt8} {k n : Int} (hk : 0 ≤ k) (o : Sink UInt8) :
    pad w c k n o = (if k ≤ int (n - 1) then k - 1 else int (n - 1),
          o.emit w (replicate (int (n - 1) - k + 1).toNat c)) := by
  have := int_mem (n - 1)
  exact padLoop_eq hk o (by unfold maxTurns; omega)

-- == number

/-- What `number` has for its field width after the sign, the prefix and the
digits are taken off, for a number without sign. -/
def fieldRest (spec : PrintfSpec) (n : Nat) : Int :=
  let i : Int := (numeral spec.base (locase spec.flags) n).length
  int (int (spec.fieldWidth - (numberPrefix spec).length)
    - (if spec.precision < i then i else spec.precision))

/-- The zeros before the digits: those of the field width, then those of the
precision. -/
def leadingZeros (spec : PrintfSpec) (n : Nat) : Nat :=
  (int (fieldRest spec n - 1) + 1).toNat
    + (spec.precision - (numeral spec.base (locase spec.flags) n).length).toNat

def numberText (spec : PrintfSpec) (n : Nat) : List UInt8 :=
  numberPrefix spec ++ List.replicate (leadingZeros spec n) '0'.toUInt8
    ++ numeral spec.base (locase spec.flags) n

/-- The turns of the last loop, which prints spaces: the first padding loop
leaves −1, or the decremented rest if that is negative. -/
def trailingSpaces (f : Int) : Nat :=
  (int ((if 0 ≤ int (f - 1) then -1 else int (f - 1)) - 1) + 1).toNat

/-- The field width is spent, unless counting it down wraps at the end. -/
lemma trailingSpaces_eq_zero {f : Int} (hlo : -2147483648 ≤ f)
    (hhi : f < 2147483648) (hrest : f ≠ -2147483647) :
    trailingSpaces f = 0 := by
  have hmem := int_mem (f - 1)
  have hmin : int (f - 1) ≠ -2147483648 := by
    by_cases hwrap : f = -2147483648
    · rw [hwrap]
      decide
    · rw [int_eq (by omega) (by omega)]
      omega
  unfold trailingSpaces
  split
  next => rfl
  next => rw [int_eq (by omega) (by omega)]; omega

variable {spec : PrintfSpec}

lemma number_eq (o : Sink UInt8)
    (hn : n < 2 ^ 64) (hbase : spec.base = 8 ∨ spec.base = 10 ∨ spec.base = 16)
    (hzero : spec.flags.zeropad = true) (hleft : spec.flags.left = false)
    (hsign : spec.flags.sign = false) (hprec : spec.precision < 2147483648) :
    number w o n spec = o.emit w (numberText spec n
      ++ replicate (trailingSpaces (fieldRest spec n)) ' '.toUInt8) := by
  have hsigned : numberSign spec.flags n = ([], n) := by
    unfold numberSign
    rw [hsign]
    rfl
  have hlen := numeral_length_le spec.base (locase spec.flags) (by omega) hn
  unfold numberText leadingZeros fieldRest number
  dsimp only
  rw [hzero, hleft, hsigned, numberTmp_eq spec.flags hbase hn, length_reverse, reverse_reverse]
  generalize numeral spec.base (locase spec.flags) n = tmp at *
  generalize numberPrefix spec = pfx at *
  simp only [Bool.not_false, Bool.and_true, Bool.true_or, if_true,
    Bool.false_eq_true, if_false, length_nil, Int.natCast_zero, sub_zero, Sink.emit_nil]
  -- the precision is the longer of the two, and pads what is missing
  have hzeros : (if spec.precision < tmp.length then (tmp.length : Int)
      else spec.precision) - 1 - tmp.length + 1 = ((spec.precision - tmp.length).toNat : Int) := by
    split <;> omega
  generalize (if spec.precision < tmp.length then (tmp.length : Int)
    else spec.precision) = precision at *
  generalize int (int (spec.fieldWidth - pfx.length) - precision) = f
  rw [pad_eq (Int.natCast_nonneg _), pad_eq le_rfl, pad_eq le_rfl]
  rw [int_eq (x := precision - 1) (by omega) (by omega), hzeros]
  simp only [sub_zero, Int.zero_sub, Int.toNat_natCast, trailingSpaces,
    Sink.emit_append, ← replicate_append_replicate]

-- == parsing

/-- A numeral read from its most significant digit on. -/
def readDigits (base : Nat) (ds : List Nat) (r : Nat) : Nat := ds.foldl (fun r d => r * base + d) r

lemma le_readDigits (hb : 0 < base) (ds : List Nat) (r : Nat) : r ≤ readDigits base ds r := by
  induction ds generalizing r with
  | nil => exact le_rfl
  | cons d ds ih =>
    calc r ≤ r * base := Nat.le_mul_of_pos_right r hb
      _ ≤ r * base + d := Nat.le_add_right _ _
      _ ≤ readDigits base (d :: ds) r := ih _

lemma readDigits_zeros (base k : Nat) (ds : List Nat) :
    readDigits base (replicate k 0 ++ ds) 0 = readDigits base ds 0 := by
  unfold readDigits
  rw [foldl_append]
  congr 1
  induction k with
  | zero => rfl
  | succ k ih => rw [replicate_succ, foldl_cons, zero_mul, ih]

lemma readDigits_numeral (base n : Nat) : readDigits base (numeralDigits base n) 0 = n := by
  unfold readDigits numeralDigits
  split
  next h => simp [h]
  next h =>
    rw [foldl_reverse]
    calc _ = ofDigits base (Nat.digits base n) := by
          rw [ofDigits_eq_foldr]
          congr 1
          funext d r
          rw [mul_comm, add_comm]
          rfl
      _ = n := ofDigits_digits base n

lemma digitChar_value {d : Nat} (h : d < 16) :
    isxdigit (digitChar (locase flags) d) = true ∧ digitValue (digitChar (locase flags) d) = d ∧
      toLower (digitChar (locase flags) d) ≠ 'x'.toUInt8 := by
  unfold locase
  cases flags.small with
  | false | true => interval_cases d <;> decide

variable {ds : List Nat}

lemma strtoullLoop_eq (hpos : 0 < base) (hbase : base ≤ 16)
    (hds : ∀ d ∈ ds, d < base) {r : Nat} (hlt : readDigits base ds r < 2 ^ 64) :
    strtoullLoop base (ds.map (digitChar (locase flags))) r = (readDigits base ds r, []) := by
  induction ds generalizing r with
  | nil => rfl
  | cons d ds ih =>
    have hd := hds d mem_cons_self
    obtain ⟨hx, hv, -⟩ := digitChar_value flags (d := d) (by omega)
    have hmod : (r * base + d) % 2 ^ 64 = r * base + d :=
      mod_eq_of_lt ((le_readDigits hpos ds _).trans_lt hlt)
    rw [map_cons, strtoullLoop, if_pos hx, hv, if_neg (by omega), hmod]
    exact ih (fun d' hd' => hds d' (mem_cons_of_mem d hd')) hlt

lemma numeralDigits_lt {base n : Nat} (hb : 1 < base) : ∀ d ∈ numeralDigits base n, d < base := by
  unfold numeralDigits
  intro d hd
  split at hd
  next => rw [mem_singleton.mp hd]; omega
  next => exact digits_lt_base hb (mem_reverse.mp hd)

lemma simpleStrtoull_digits (hpos : 0 < base) (hbase : base ≤ 16)
    (hds : ∀ d ∈ ds, d < base) (hlt : readDigits base ds 0 < 2 ^ 64) :
    simpleStrtoull (ds.map (digitChar (locase flags))) base = (readDigits base ds 0, []) := by
  have hno : toLower (charAt (ds.map (digitChar (locase flags))) 1) ≠ 'x'.toUInt8 := by
    rcases ds with _ | ⟨_, _ | ⟨d, ds⟩⟩
    · exact (by decide : toLower 0 ≠ 'x'.toUInt8)
    · exact (by decide : toLower 0 ≠ 'x'.toUInt8)
    · have hd := hds d (mem_cons_of_mem _ mem_cons_self)
      exact (digitChar_value flags (by omega)).2.2
  unfold simpleStrtoull
  rw [if_neg (by omega : base ≠ 0), if_neg fun h => hno h.2.2]
  exact strtoullLoop_eq flags hpos hbase hds hlt

lemma simpleStrtoull_hex
    (hds : ∀ d ∈ ds, d < 16) (hlt : readDigits 16 ds 0 < 2 ^ 64) :
    simpleStrtoull (['0'.toUInt8, 'X'.toUInt8 ||| locase flags]
        ++ ds.map (digitChar (locase flags))) 16
      = (readDigits 16 ds 0, []) := by
  have hx : toLower ('X'.toUInt8 ||| locase flags) = 'x'.toUInt8 := by
    unfold locase
    cases flags.small <;> decide
  unfold simpleStrtoull
  rw [if_neg (by decide : (16 : Nat) ≠ 0), if_pos ⟨rfl, rfl, hx⟩]
  exact strtoullLoop_eq flags (by decide) le_rfl hds hlt

lemma simpleStrtoull_numberText (hn : n < 2 ^ 64)
    (hbase : spec.base = 8 ∨ spec.base = 10 ∨ spec.base = 16) :
    simpleStrtoull (numberText spec n) spec.base = (n, []) := by
  have hzero : '0'.toUInt8 = digitChar (locase spec.flags) 0 :=
    (digitChar_dec spec.flags (by decide)).symm
  have hread : ∀ k, readDigits spec.base (replicate k 0 ++ numeralDigits spec.base n) 0 = n := by
    intro k
    rw [readDigits_zeros, readDigits_numeral]
  have hdigits : ∀ k, ∀ d ∈ replicate k 0 ++ numeralDigits spec.base n, d < spec.base := by
    intro k d hd
    rcases mem_append.mp hd with hd | hd
    · rw [eq_of_mem_replicate hd]
      omega
    · exact numeralDigits_lt (by omega) d hd
  have htext : ∀ k, replicate k '0'.toUInt8 ++ numeral spec.base (locase spec.flags) n
        = (replicate k 0 ++ numeralDigits spec.base n).map (digitChar (locase spec.flags)) := by
    intro k
    rw [map_append, map_replicate, hzero]
    rfl
  unfold numberText numberPrefix
  generalize leadingZeros spec n = k
  rw [append_assoc, htext]
  split
  next =>
    split
    next h16 =>
      rw [h16] at hread hdigits ⊢
      rw [simpleStrtoull_hex spec.flags (hdigits k) (by rw [hread]; exact hn), hread]
    next =>
      -- the "0" of an octal number is one more leading zero
      have hmore := simpleStrtoull_digits spec.flags (by omega) (by omega)
        (hdigits (k + 1)) (by rw [hread]; exact hn)
      rw [hread, replicate_succ, cons_append, map_cons, ← hzero] at hmore
      exact hmore
  next =>
    rw [nil_append, simpleStrtoull_digits spec.flags (by omega)
      (by omega) (hdigits k) (by rw [hread]; exact hn), hread]

/-- Numbers survive printing and parsing. Zero-padded, and unless the rest
of the field width is the second least `int`, a number comes out as its
prefix, zeros and its canonical numeral, and is read back from that. -/
theorem number_roundTrip (w : Nat) (o : Sink UInt8) (n : Nat) (spec : PrintfSpec) (hn : n < 2 ^ 64)
    (hbase : spec.base = 8 ∨ spec.base = 10 ∨ spec.base = 16)
    (hzero : spec.flags.zeropad = true) (hleft : spec.flags.left = false)
    (hsign : spec.flags.sign = false) (hprec : spec.precision < 2147483648)
    (hrest : fieldRest spec n ≠ -2147483647) :
    number w o n spec = o.emit w (numberText spec n) ∧
      simpleStrtoull (numberText spec n) spec.base = (n, []) ∧
      putDec n = (numeral 10 0 n).reverse := by
  refine ⟨?_, simpleStrtoull_numberText hn hbase, ?_⟩
  · have hmem := int_mem (int (spec.fieldWidth - (numberPrefix spec).length)
      - (if spec.precision < (numeral spec.base (locase spec.flags) n).length
        then ((numeral spec.base (locase spec.flags) n).length : Int) else spec.precision))
    have hnone := trailingSpaces_eq_zero hmem.1 hmem.2 hrest
    rw [number_eq o hn hbase hzero hleft hsign hprec]
    unfold fieldRest
    rw [hnone, replicate_zero, append_nil]
  · rw [putDec_eq hn, numeral, ← map_reverse]
    apply map_congr_left
    intro d hd
    have hlt := numeralDigits_lt (by decide) d (mem_reverse.mp hd)
    exact (digitChar_dec {} hlt).symm

/-- `%#010x`. -/
def hexSpec : PrintfSpec where
  type := .uint
  flags := { zeropad := true, special := true, small := true }
  fieldWidth := 10
  base := 16
  precision := -1
  qualifier := none

theorem number_roundTrip_hex :
    numberText hexSpec 48879 = lit "0x0000beef" ∧ number 32 ⟨fun _ => 0, 0, 11, []⟩ 48879 hexSpec
        = (⟨fun _ => 0, 0, 11, []⟩ : Sink UInt8).emit 32 (numberText hexSpec 48879) ∧
      simpleStrtoull (numberText hexSpec 48879) 16 = (48879, []) ∧
      putDec 48879 = (numeral 10 0 48879).reverse :=
  ⟨by decide, number_roundTrip 32 _ 48879 hexSpec (by decide)
    (.inr (.inr rfl)) rfl rfl rfl (by decide) (by decide)⟩

/-- `%02147483650u`: the field width wraps to a negative one. -/
def wrappedSpec : PrintfSpec where
  type := .uint
  flags := { zeropad := true }
  fieldWidth := -2147483646
  base := 10
  precision := -1
  qualifier := none

lemma simpleStrtoull_zero_spaces {k : Nat} (hk : 0 < k) :
    simpleStrtoull (['0'.toUInt8] ++ replicate k ' '.toUInt8) 10
      = (0, replicate k ' '.toUInt8) := by
  obtain ⟨k, rfl⟩ := exists_eq_succ_of_ne_zero hk.ne'
  rw [replicate_succ]
  rfl

/-- What is left of such a width wraps once more in the last loop: spaces
follow the numeral, and `simple_strtoull` stops at them. -/
theorem wrappedSpec_spaces :
    number 32 ⟨fun _ => 0, 0, 0, []⟩ 0 wrappedSpec
      = (⟨fun _ => 0, 0, 0, []⟩ : Sink UInt8).emit 32 (['0'.toUInt8] ++
          replicate (trailingSpaces (-2147483647)) ' '.toUInt8) ∧
      trailingSpaces (-2147483647) = 2147483648 ∧
      (simpleStrtoull (['0'.toUInt8] ++
          replicate (trailingSpaces (-2147483647)) ' '.toUInt8) 10).2
        = replicate (trailingSpaces (-2147483647)) ' '.toUInt8 := by
  have hspaces : trailingSpaces (-2147483647) = 2147483648 := by decide
  refine ⟨?_, hspaces, ?_⟩
  · have hrest : fieldRest wrappedSpec 0 = -2147483647 := by decide
    have htext : numberText wrappedSpec 0 = ['0'.toUInt8] := by decide
    rw [number_eq _ (by decide) (.inr (.inl rfl)) rfl rfl rfl (by decide), hrest, htext]
  · rw [simpleStrtoull_zero_spaces (by rw [hspaces]; decide)]

end BoardStack.Vsprintf
