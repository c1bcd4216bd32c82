/-
C integers of a fixed width, as integers that wrap.

`signed w` and `unsigned w` are the conversions to the signed and unsigned
type of `w` bits; arithmetic is done on `Int` and converted where the source
stores or combines the result. A value in range is not changed.

A machine that can only divide by short numbers scales dividend and divisor
down first. The quotient is never too small, and it is too large by at most
one as long as it is smaller than the scaled divisor.
-/
import Mathlib.Tactic.Ring

namespace BoardStack.Base

open Int

/-- Conversion to a signed type of `w` bits. -/
def signed (w : Nat) (x : Int) : Int := x.bmod (2 ^ w)

/-- Conversion to an unsigned type of `w` bits. -/
def unsigned (w : Nat) (x : Int) : Nat := (x % 2 ^ w).toNat

lemma signed_eq {w : Nat} {x : Int} (hlo : -2 ^ w ≤ x) (hhi : x < 2 ^ w) :
    signed (w + 1) x = x := by
  apply bmod_eq_of_le
  all_goals
    rw [pow_succ]
    push_cast
    omega

lemma signed_of_ge {w : Nat} {x : Int} (hlo : 2 ^ w ≤ x) (hhi : x < 3 * 2 ^ w) :
    signed (w + 1) x = x - 2 * 2 ^ w := by
  rw [← signed_eq (x := x - 2 * 2 ^ w) (w := w) (by omega) (by omega)]
  have hpow : (2 : Int) * 2 ^ w = ((2 ^ (w + 1) : Nat) : Int) := by
    push_cast
    ring
  unfold signed
  rw [hpow, sub_bmod_right]

lemma signed_mem (w : Nat) (x : Int) : -2 ^ w ≤ signed (w + 1) x ∧ signed (w + 1) x < 2 ^ w := by
  have hle := le_bmod (x := x) (Nat.two_pow_pos (w + 1))
  have hlt := bmod_lt (x := x) (Nat.two_pow_pos (w + 1))
  unfold signed
  rw [pow_succ] at hle hlt ⊢
  push_cast at hle hlt
  omega

lemma signed_add_signed (w : Nat) (x y : Int) :
    signed w (signed w x + signed w y) = signed w (x + y) := by
  unfold signed
  rw [bmod_add_bmod, add_bmod_bmod]

lemma signed_sub_signed (w : Nat) (x y : Int) :
    signed w (signed w x - signed w y) = signed w (x - y) := by
  unfold signed
  rw [bmod_sub_bmod, sub_bmod_bmod]

lemma unsigned_natCast (w x : Nat) : unsigned w x = x % 2 ^ w := by
  unfold unsigned
  rw [show ((2 : Int) ^ w) = ((2 ^ w : Nat) : Int) by push_cast; rfl, ← natCast_mod, toNat_natCast]

lemma unsigned_eq {w : Nat} {x : Nat} (h : x < 2 ^ w) : unsigned w x = x := by
  rw [unsigned_natCast, Nat.mod_eq_of_lt h]

lemma unsigned_signed (w : Nat) (x : Int) : unsigned w (signed w x) = unsigned w x := by
  unfold unsigned signed
  rw [show ((2 : Int) ^ w) = ((2 ^ w : Nat) : Int) by push_cast; rfl, bmod_emod]

/-- The larger of two signed values, read as unsigned: one of the two, and not below the
second unless that one is negative alone. -/
lemma unsigned_max_signed {w x y : Nat} (hx : x < 2 ^ (w + 1)) (hy : y < 2 ^ (w + 1)) :
    ∃ u, unsigned (w + 1) (max (signed (w + 1) x) (signed (w + 1) y)) = u ∧
      (u = x ∨ u = y) ∧ (y < 2 ^ w ∨ 2 ^ w ≤ x → y ≤ u) := by
  have hsign : ∀ z : Nat, z < 2 ^ (w + 1) → signed (w + 1) z = z ∧ z < 2 ^ w ∨
      signed (w + 1) z = z - 2 * 2 ^ w ∧ 2 ^ w ≤ z := by
    intro z hz
    rw [pow_succ] at hz
    rcases Nat.lt_or_ge z (2 ^ w) with hlt | hge
    · have hcast : (z : Int) < 2 ^ w := by exact_mod_cast hlt
      exact .inl ⟨signed_eq (by omega) hcast, hlt⟩
    · have hcast : (2 : Int) ^ w ≤ z := by exact_mod_cast hge
      have hcast' : (z : Int) < 2 ^ w * 2 := by exact_mod_cast hz
      exact .inr ⟨signed_of_ge hcast (by omega), hge⟩
  have hpow : ((2 ^ w : Nat) : Int) = 2 ^ w := by push_cast; rfl
  have hx' := hsign x hx
  have hy' := hsign y hy
  rcases max_choice (signed (w + 1) x) (signed (w + 1) y) with hmax | hmax
  · refine ⟨x, by rw [hmax, unsigned_signed, unsigned_eq hx], .inl rfl, ?_⟩
    have hle := max_eq_left_iff.mp hmax
    omega
  · exact ⟨y, by rw [hmax, unsigned_signed, unsigned_eq hy], .inr rfl, fun _ => le_rfl⟩

lemma unsigned_sub {w a b : Nat} (hle : b ≤ a) (hlt : a - b < 2 ^ w) :
    unsigned w (((a % 2 ^ w : Nat) : Int) - ((b % 2 ^ w : Nat) : Int)) = a - b := by
  have hcast : unsigned w (((a % 2 ^ w : Nat) : Int)
      - ((b % 2 ^ w : Nat) : Int)) = unsigned w ((a - b : Nat) : Int) := by
    unfold unsigned
    rw [ofNat_sub hle]
    push_cast
    rw [← sub_emod]
  rw [hcast, unsigned_eq hlt]

open Nat

lemma div_le_scaled_div {x d m : Nat} (h : 0 < d / m) : x / d ≤ x / m / (d / m) := by
  rw [Nat.le_div_iff_mul_le h]
  have hm : 0 < m := by
    rcases Nat.eq_zero_or_pos m with rfl | hm
    · omega
    · exact hm
  rw [Nat.le_div_iff_mul_le hm]
  calc x / d * (d / m) * m = x / d * (d / m * m) := mul_assoc ..
    _ ≤ x / d * d := Nat.mul_le_mul_left _ (div_mul_le_self d m)
    _ ≤ x := div_mul_le_self x d

lemma scaled_div_le {x d m : Nat} (hm : 0 < m) (h : x / d < d / m) :
    x / m / (d / m) ≤ x / d + 1 := by
  have hd : 0 < d := by
    rcases Nat.eq_zero_or_pos d with rfl | hd
    · simp at h
    · exact hd
  generalize hq : x / d = q at h ⊢
  generalize he : d / m = e at h ⊢
  by_contra hlt
  have hq' : (q + 2) * e ≤ x / m := (Nat.le_div_iff_mul_le (by omega)).mp (by omega)
  have hx : (q + 2) * e * m < (q + 1) * ((e + 1) * m) :=
    calc (q + 2) * e * m ≤ x / m * m := Nat.mul_le_mul_right m hq'
      _ ≤ x := div_mul_le_self x m
      _ < (q + 1) * d := by
          rw [← hq, mul_comm]
          exact lt_mul_div_succ x hd
      _ ≤ (q + 1) * ((e + 1) * m) := by
          refine Nat.mul_le_mul_left _ (le_of_lt ?_)
          rw [← he, mul_comm]
          exact lt_mul_div_succ d hm
  rw [← mul_assoc] at hx
  have hcancel : (q + 2) * e < (q + 1) * (e + 1) := Nat.lt_of_mul_lt_mul_right hx
  have hexpand : (q + 1) * (e + 1) = (q + 1) * e + (q + 1) := mul_succ ..
  have hexpand' : (q + 2) * e = (q + 1) * e + e := succ_mul ..
  omega

/-- When a divisor that is less by `e` gives the same quotient. -/
lemma div_sub_eq_iff {a b e : Nat} (he : e < b) :
    a / (b - e) = a / b ↔ (a / b + 1) * e + a % b < b := by
  have hle : a / b ≤ a / (b - e) := Nat.div_le_div_left (by omega) (by omega)
  have hsum : (a / b + 1) * (b - e) + (a / b + 1) * e = b * (a / b) + b := by
    rw [← mul_add, Nat.sub_add_cancel he.le, add_mul, one_mul, mul_comm]
  have hmod := Nat.div_add_mod a b
  have hlt := Nat.div_lt_iff_lt_mul (x := a) (y := a / b + 1) (Nat.sub_pos_of_lt he)
  omega

end BoardStack.Base
