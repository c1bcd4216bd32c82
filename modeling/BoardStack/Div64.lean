/-
Division of 64-bit numbers on machines that divide 32 bits (lib/div64.c).

`__div64_32` shifts and subtracts; what `res` and `rem` stand for stays the dividend.
`div64_u64` drops low bits of both operands until the divisor has 32 bits. The result
is the quotient by a divisor without these bits, and can be too large.
-/
import BoardStack.Base.CInt

namespace BoardStack.Div64

open Base Nat

/-- `while ((int64_t)b > 0 && b < rem)`: `b` and `d`. -/
def doubleLoop (rem : Nat) : Nat → Nat → Nat → Option (Nat × Nat)
  | 0, _, _ => none
  | fuel + 1, b, d =>
    if signed 64 b > 0 ∧ b < rem then doubleLoop rem fuel ((b + b) % 2 ^ 64) ((d + d) % 2 ^ 64)
    else some (b, d)

/-- `do … while (d)`: `*n` and what is returned. -/
def subtractLoop : Nat → Nat → Nat → Nat → Nat → Option (Nat × Nat)
  | 0, _, _, _, _ => none
  | fuel + 1, b, d, rem, res =>
    let res := if rem ≥ b then (res + d) % 2 ^ 64 else res
    let rem := if rem ≥ b then rem - b else rem
    if d >>> 1 ≠ 0 then subtractLoop fuel (b >>> 1) (d >>> 1) rem res else some (res, rem)

def div6432 (n base : Nat) : Option (Nat × Nat) :=
  let high := n >>> 32
  let res := if high ≥ base then (high / base) <<< 32 else 0
  let rem := if high ≥ base then n - (high / base * base % 2 ^ 32) <<< 32 else n
  (doubleLoop rem 65 base 1).bind fun (b, d) => subtractLoop 65 b d rem res

/-- `div_u64_rem`, by `do_div`: the quotient and `*remainder`. -/
def divU64Rem (dividend divisor : Nat) : Option (Nat × Nat) :=
  if dividend >>> 32 = 0 then some (dividend / divisor, dividend % divisor)
  else div6432 dividend divisor

def divS64Rem (dividend divisor : Int) : Option (Int × Int) :=
  (divU64Rem (unsigned 64 (if dividend < 0 then -dividend else dividend))
    (unsigned 32 (if divisor < 0 then -divisor else divisor))).map fun (quotient, remainder) =>
      if dividend < 0 then
        (signed 64 (if divisor > 0 then -quotient else quotient),
          signed 32 (-signed 32 remainder))
      else (signed 64 (if divisor < 0 then -quotient else quotient), signed 32 remainder)

/-- `div_u64`, by `do_div`. -/
def divU64 (dividend divisor : Nat) : Option Nat :=
  if dividend >>> 32 = 0 then some (dividend / divisor)
  else (div6432 dividend divisor).map Prod.fst

def fls (x : Nat) : Nat := if x = 0 then 0 else Nat.log2 x + 1

def div64U64 (dividend divisor : Nat) : Option Nat :=
  let high := divisor >>> 32
  if high ≠ 0 then divU64 (dividend >>> fls high) ((divisor >>> fls high) % 2 ^ 32)
  else divU64 dividend (divisor % 2 ^ 32)

variable {base rem res n k fuel : Nat}

-- == 64 bits by 32

lemma doubleLoop_spec (hb : 0 < base) (hrem : rem < 2 ^ 64) (hlt : base * 2 ^ k < 2 ^ 64)
    (hfuel : 64 < fuel + k) :
    ∃ l < 64, doubleLoop rem fuel (base * 2 ^ k) (2 ^ k) = some (base * 2 ^ l, 2 ^ l) ∧
      rem < 2 * (base * 2 ^ l) := by
  have hd : 2 ^ k ≤ base * 2 ^ k := Nat.le_mul_of_pos_left _ hb
  have hk : k < 64 := (Nat.pow_lt_pow_iff_right (by decide)).mp (lt_of_le_of_lt hd hlt)
  induction fuel generalizing k with
  | zero => omega
  | succ fuel ih =>
    unfold doubleLoop
    by_cases hgo : signed 64 (base * 2 ^ k : Nat) > 0 ∧ base * 2 ^ k < rem
    · have hsmall : base * 2 ^ k < 2 ^ 63 := by
        by_contra hbig
        rw [signed_of_ge (w := 63) (by omega) (by omega)] at hgo
        omega
      have hb2 : base * 2 ^ k + base * 2 ^ k = base * 2 ^ (k + 1) := by ring
      have hd2 : 2 ^ k + 2 ^ k = 2 ^ (k + 1) := by ring
      rw [if_pos hgo, mod_eq_of_lt (by omega), mod_eq_of_lt (by omega), hb2, hd2]
      refine ih (by omega) (by omega) (by omega) ?_
      exact (Nat.pow_lt_pow_iff_right (a := 2) (by decide)).mp (by omega)
    · refine ⟨k, hk, if_neg hgo, ?_⟩
      have hpos := Nat.two_pow_pos k
      by_contra hbig
      rw [signed_eq (w := 63) (by omega) (by omega)] at hgo
      omega

/-- What is left is less than twice what is subtracted. -/
lemma subtractLoop_spec (hb : 0 < base) (hn : n < 2 ^ 64) (hsum : rem + base * res = n)
    (hrem : rem < 2 * (base * 2 ^ k)) (hfuel : k < fuel) :
    subtractLoop fuel (base * 2 ^ k) (2 ^ k) rem res = some (n / base, n % base) := by
  induction fuel generalizing k rem res with
  | zero => omega
  | succ fuel ih =>
    unfold subtractLoop
    obtain ⟨rem', res', hrem', hres', hlt, hsum'⟩ : ∃ rem' res',
        (if rem ≥ base * 2 ^ k then rem - base * 2 ^ k else rem) = rem' ∧
        (if rem ≥ base * 2 ^ k then (res + 2 ^ k) % 2 ^ 64 else res) = res' ∧
        rem' < base * 2 ^ k ∧ rem' + base * res' = n := by
      by_cases hge : rem ≥ base * 2 ^ k
      · have hle : res + 2 ^ k ≤ base * (res + 2 ^ k) := Nat.le_mul_of_pos_left _ hb
        rw [mul_add] at hle
        refine ⟨_, _, if_pos hge, if_pos hge, by omega, ?_⟩
        rw [mod_eq_of_lt (by omega), mul_add]
        omega
      · exact ⟨rem, res, if_neg hge, if_neg hge, by omega, hsum⟩
    rw [hrem', hres']
    cases k with
    | zero =>
      rw [pow_zero, mul_one] at hlt
      obtain ⟨rfl, rfl⟩ := (Nat.div_mod_unique hb).mpr ⟨hsum', hlt⟩
      rfl
    | succ k =>
      have hb2 : base * 2 ^ (k + 1) = 2 * (base * 2 ^ k) := by ring
      have hd2 : 2 ^ (k + 1) = 2 * 2 ^ k := by ring
      have hpos := Nat.two_pow_pos k
      rw [hb2] at hlt ⊢
      rw [hd2, shiftRight_one, shiftRight_one, Nat.mul_div_cancel_left _ Nat.two_pos,
        Nat.mul_div_cancel_left _ Nat.two_pos, if_pos hpos.ne']
      exact ih hsum' hlt (by omega)

lemma div6432_eq (hb : 0 < base) (hbase : base < 2 ^ 32) (hn : n < 2 ^ 64) :
    div6432 n base = some (n / base, n % base) := by
  unfold div6432
  dsimp only
  generalize hres : (if n >>> 32 ≥ base then (n >>> 32 / base) <<< 32 else 0) = res
  generalize hrem : (if n >>> 32 ≥ base then
    n - (n >>> 32 / base * base % 2 ^ 32) <<< 32 else n) = rem
  have hsum : rem + base * res = n := by
    have hle := div_mul_le_self (n >>> 32) base
    split_ifs at hres hrem
    · rw [← hres, ← hrem, shiftLeft_eq, shiftLeft_eq, ← mul_assoc, mul_comm base,
        mod_eq_of_lt (by omega), Nat.sub_add_cancel (by omega)]
    · rw [← hres, ← hrem, mul_zero, add_zero]
  obtain ⟨l, hl, hdouble, hlt⟩ :=
    doubleLoop_spec hb (show rem < 2 ^ 64 by omega) (show base * 2 ^ 0 < 2 ^ 64 by omega)
      (show 64 < 65 + 0 by decide)
  rw [pow_zero, mul_one] at hdouble
  rw [hdouble, Option.bind_some]
  exact subtractLoop_spec hb hn hsum hlt (by omega)

lemma divU64_eq (hb : 0 < base) (hbase : base < 2 ^ 32) (hn : n < 2 ^ 64) :
    divU64 n base = some (n / base) := by
  unfold divU64
  rw [div6432_eq hb hbase hn]
  split_ifs <;> rfl

lemma divU64Rem_eq (hb : 0 < base) (hbase : base < 2 ^ 32) (hn : n < 2 ^ 64) :
    divU64Rem n base = some (n / base, n % base) := by
  unfold divU64Rem
  rw [div6432_eq hb hbase hn]
  split_ifs <;> rfl

/-- Division with a divisor of 32 bits is exact; of signed numbers it truncates. -/
theorem div6432_exact :
    (∀ n base, n < 2 ^ 64 → 0 < base → base < 2 ^ 32 →
      div6432 n base = some (n / base, n % base)) ∧
    ∀ dividend divisor : Int, -2 ^ 63 ≤ dividend → dividend < 2 ^ 63 → -2 ^ 31 ≤ divisor →
      divisor < 2 ^ 31 → divisor ≠ 0 → dividend.tdiv divisor < 2 ^ 63 →
      divS64Rem dividend divisor = some (dividend.tdiv divisor, dividend.tmod divisor) := by
  refine ⟨fun n base hn hb hbase => div6432_eq hb hbase hn, ?_⟩
  intro dividend divisor hlo hhi hlo' hhi' hne hfits
  obtain ⟨a, ha⟩ : ∃ a : Nat, (if dividend < 0 then -dividend else dividend) = a :=
    ⟨dividend.natAbs, by omega⟩
  obtain ⟨b, hb⟩ : ∃ b : Nat, (if divisor < 0 then -divisor else divisor) = b :=
    ⟨divisor.natAbs, by omega⟩
  have hpos : 0 < b := by omega
  have hmod := mod_lt a hpos
  have hdiv := Nat.div_le_self a b
  have hquot := Int.natCast_nonneg (a / b)
  unfold divS64Rem
  rw [ha, hb, unsigned_eq (by omega), unsigned_eq (by omega),
    divU64Rem_eq hpos (by omega) (by omega), Option.map_some]
  dsimp only
  rw [signed_eq (w := 31) (x := (a % b : Nat)) (by omega) (by omega),
    signed_eq (w := 31) (by omega) (by omega)]
  -- the signs of the operands are put back
  have hsign : (dividend = -a ∧ 0 < a ∨ dividend = a) ∧ (divisor = -b ∨ divisor = b) := by omega
  obtain ⟨⟨rfl, hneg⟩ | rfl, rfl | rfl⟩ := hsign
  all_goals
    simp only [Int.neg_tdiv, Int.tdiv_neg, Int.neg_tmod, Int.tmod_neg, Int.neg_neg,
      ← Int.ofNat_tdiv, ← Int.ofNat_tmod] at hfits ⊢
    split_ifs
    any_goals omega
    rw [signed_eq (w := 63) (by omega) (by omega)]

/-- The least dividend by the least divisor. -/
theorem least_by_least : divS64Rem (-2 ^ 63) (-2 ^ 31) = some (2 ^ 32, 0) :=
  div6432_exact.2 (-2 ^ 63) (-2 ^ 31) (by decide) (by decide) (by decide) (by decide) (by decide)
    (by decide)

-- == 64 bits by 64

/-- The shift leaves a divisor of 32 bits. -/
lemma shifted_bounds {b : Nat} (hhigh : b >>> 32 ≠ 0) :
    0 < b / 2 ^ fls (b >>> 32) ∧ b / 2 ^ fls (b >>> 32) < 2 ^ 32 := by
  have hle := log2_self_le hhigh
  have hlt := lt_log2_self (n := b >>> 32)
  rw [fls, if_neg hhigh, Nat.div_pos_iff, Nat.div_lt_iff_lt_mul (Nat.two_pow_pos _)]
  omega

/-- The quotient is exact unless the bits that are dropped from the divisor, once
for each time it goes into the dividend, make up for what the remainder is short of. -/
theorem div64U64_exact_iff (dividend divisor : Nat) (ha : dividend < 2 ^ 64)
    (hb : divisor < 2 ^ 64) (hpos : 0 < divisor) :
    ∃ q, div64U64 dividend divisor = some q ∧ (q = dividend / divisor ↔
      (dividend / divisor + 1) * (divisor % 2 ^ fls (divisor >>> 32)) + dividend % divisor
        < divisor) := by
  unfold div64U64
  by_cases hhigh : divisor >>> 32 = 0
  · have hsmall : divisor < 2 ^ 32 := by omega
    rw [if_neg (not_not.mpr hhigh), hhigh, mod_eq_of_lt hsmall, divU64_eq hpos hsmall ha]
    exact ⟨_, rfl, iff_of_true rfl (by simpa [fls, mod_one] using mod_lt _ hpos)⟩
  · obtain ⟨hshift, hshift'⟩ := shifted_bounds hhigh
    have hscaled := div_add_mod divisor (2 ^ fls (divisor >>> 32))
    have hdiv := Nat.mul_pos (Nat.two_pow_pos (fls (divisor >>> 32))) hshift
    rw [if_pos hhigh, shiftRight_eq_div_pow, shiftRight_eq_div_pow divisor (fls _),
      mod_eq_of_lt hshift', divU64_eq hshift hshift'
        (Nat.lt_of_le_of_lt (Nat.div_le_self _ _) ha), Nat.div_div_eq_div_mul]
    refine ⟨_, rfl, ?_⟩
    rw [Nat.eq_sub_of_add_eq hscaled]
    exact div_sub_eq_iff (by omega)

/-- A divisor of 34 bits, of which the last is dropped. -/
theorem long_divisor_exact : ∃ q, div64U64 (21 * 2 ^ 32) (2 ^ 33 + 1) = some q ∧ q = 10 := by
  obtain ⟨q, hq, hiff⟩ :=
    div64U64_exact_iff (21 * 2 ^ 32) (2 ^ 33 + 1) (by decide) (by decide) (by decide)
  exact ⟨q, hq, hiff.mpr (by decide)⟩

/-- The divisor is larger than the dividend, by one, and this bit is dropped. -/
theorem short_of_one : div64U64 (2 ^ 32) (2 ^ 32 + 1) = some 1 := by
  decide

end BoardStack.Div64
