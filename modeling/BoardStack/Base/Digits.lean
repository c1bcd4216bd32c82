/-
Numbers read digit by digit in base `2 ^ b`: the arithmetic under a radix
tree. `span b h` is the number of keys with `h` digits, `digit b l i` is
digit `l` of `i`. A key is its top digit and the rest (`mod_span_succ`), and
a key is told from another one digit at a time (`mod_span_succ_eq_iff`),
which is the induction step of every proof about one path of a tree.
-/
import Mathlib.Tactic.Ring

namespace BoardStack.Base

open Nat

variable {b : Nat}

/-- The number of keys with `h` digits. -/
def span (b h : Nat) : Nat := 2 ^ (b * h)

/-- Digit `l` of a key. -/
def digit (b l i : Nat) : Nat := i / span b l % 2 ^ b

lemma span_pos (b h : Nat) : 0 < span b h := Nat.two_pow_pos _

lemma span_zero (b : Nat) : span b 0 = 1 := rfl

lemma span_succ (b h : Nat) : span b (h + 1) = 2 ^ b * span b h := by
  unfold span
  rw [← pow_add]
  congr 1
  ring

lemma span_le (b : Nat) {h k : Nat} (hk : h ≤ k) : span b h ≤ span b k :=
  Nat.pow_le_pow_right (by decide) (Nat.mul_le_mul_left b hk)

lemma digit_lt (b l i : Nat) : digit b l i < 2 ^ b := mod_lt _ (Nat.two_pow_pos _)

lemma digit_of_lt {l i : Nat} (h : i < span b (l + 1)) : digit b l i = i / span b l := by
  rw [span_succ, mul_comm] at h
  exact mod_eq_of_lt (Nat.div_lt_of_lt_mul h)

lemma digit_mod {h k : Nat} (hk : k < h) (i : Nat) : digit b k (i % span b h) = digit b k i := by
  have hspan : span b h = span b k * (2 ^ b * span b (h - k - 1)) := by
    rw [← span_succ]
    unfold span
    rw [← pow_add, ← mul_add]
    congr 2
    omega
  unfold digit
  rw [hspan, mod_mul_right_div_self, mod_mul_right_mod]

lemma mod_span_succ (b h i : Nat) : i % span b (h + 1) = digit b h i * span b h + i % span b h := by
  rw [span_succ, mul_comm, mod_mul, digit]
  ring

/-- Two offsets are equal when their top digits and their rests are. -/
lemma mod_span_succ_eq_iff {h i m k : Nat} (hk : k < span b h) :
    i % span b (h + 1) = m * span b h + k ↔ digit b h i = m ∧ i % span b h = k := by
  rw [mod_span_succ]
  have hi : i % span b h < span b h := mod_lt _ (span_pos b h)
  constructor
  · intro heq
    have hdiv := congrArg (· / span b h) heq
    have hmod := congrArg (· % span b h) heq
    simp only [mul_add_mod_self_right, mod_eq_of_lt hi, mod_eq_of_lt hk] at hmod
    simp only [mul_comm _ (span b h), mul_add_div (span_pos b h),
      div_eq_of_lt hi, div_eq_of_lt hk, add_zero] at hdiv
    exact ⟨hdiv, hmod⟩
  · rintro ⟨rfl, rfl⟩
    rfl

/-- Two keys agree up to a height exactly when their digits there and their
offsets below do. -/
lemma mod_span_succ_congr (b h i j : Nat) :
    i % span b (h + 1) = j % span b (h + 1)
      ↔ digit b h i = digit b h j ∧ i % span b h = j % span b h := by
  rw [mod_span_succ b h j]
  exact mod_span_succ_eq_iff (mod_lt _ (span_pos b h))

lemma digit_block {h d r : Nat} (hd : d < 2 ^ b) (hr : r < span b h) :
    digit b h (d * span b h + r) = d := by
  unfold digit
  rw [mul_comm, mul_add_div (span_pos b h), div_eq_of_lt hr, add_zero, mod_eq_of_lt hd]

end BoardStack.Base
