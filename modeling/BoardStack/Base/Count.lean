/-
Counting the occupied entries of a fixed-size table, one entry at a time, and the
integers of a half-open interval that have a property, interval by interval.
-/
import Mathlib.Data.Set.Card

namespace BoardStack.Base

open List

/-- The number of indices below `n` that satisfy `p`. -/
def countBelow (n : Nat) (p : Nat → Bool) : Nat := (List.range n).countP p

lemma countBelow_succ (n : Nat) (p : Nat → Bool) :
    countBelow (n + 1) p = countBelow n p + if p n then 1 else 0 := by
  rw [countBelow, range_succ, countP_append, countP_singleton]
  rfl

variable {p q : Nat → Bool}

lemma countBelow_congr {n : Nat}
    (h : ∀ i, i < n → p i = q i) : countBelow n p = countBelow n q := by
  refine countP_congr fun i hi => ?_
  rw [h i (mem_range.mp hi)]

/-- Two tables that differ in one entry differ by that entry's share. -/
lemma countBelow_update {n m : Nat} (hm : m < n) (hne : ∀ i, i < n → i ≠ m → q i = p i) :
    countBelow n q + (if p m then 1 else 0) = countBelow n p + if q m then 1 else 0 := by
  induction n with
  | zero => omega
  | succ n ih =>
    rw [countBelow_succ, countBelow_succ]
    by_cases hmn : m = n
    · subst hmn
      rw [countBelow_congr (q := p) fun i hi => hne i (by omega) (by omega)]
      omega
    · have := ih (by omega) fun i hi => hne i (by omega)
      rw [hne n (by omega) (by omega)]
      omega

lemma countBelow_eq_zero {n : Nat} {p : Nat → Bool} :
    countBelow n p = 0 ↔ ∀ i, i < n → p i = false := by
  simp [countBelow, countP_eq_zero]

/-- The integers of `[a, b)`, in order. -/
def interval (a b : Int) : List Int := (List.range (b - a).toNat).map fun i : Nat => a + i

/-- The number of integers in `[a, b)` that satisfy `p`. -/
def countIn (p : Int → Bool) (a b : Int) : Int := (interval a b).countP p

variable {p r : Int → Bool} {a b c : Int}

lemma mem_interval {x : Int} : x ∈ interval a b ↔ a ≤ x ∧ x < b := by
  unfold interval
  rw [mem_map]
  constructor
  · rintro ⟨i, hi, rfl⟩
    rw [mem_range] at hi
    omega
  · rintro ⟨hax, hxb⟩
    refine ⟨(x - a).toNat, mem_range.mpr ?_, ?_⟩ <;> omega

lemma length_interval (hab : a ≤ b) : ((interval a b).length : Int) = b - a := by
  unfold interval
  rw [length_map, length_range]
  omega

lemma interval_append (hab : a ≤ b) (hbc : b ≤ c) :
    interval a b ++ interval b c = interval a c := by
  have hlen : (c - a).toNat = (b - a).toNat + (c - b).toNat := by omega
  unfold interval
  rw [hlen, range_add, map_append, map_map]
  congr 1
  apply map_congr_left
  intro i _
  rw [Function.comp_apply, Int.natCast_add]
  omega

lemma nodup_interval : (interval a b).Nodup := by
  refine Nodup.map ?_ nodup_range
  intro i j hij
  dsimp only at hij
  omega

lemma countIn_nonneg : 0 ≤ countIn p a b := Int.natCast_nonneg _

lemma countIn_congr (h : ∀ x, a ≤ x → x < b → p x = r x) : countIn p a b = countIn r a b := by
  unfold countIn
  rw [countP_congr]
  intro x hx
  rw [mem_interval] at hx
  rw [h x hx.1 hx.2]

lemma countIn_add (hab : a ≤ b) (hbc : b ≤ c) : countIn p a b + countIn p b c = countIn p a c := by
  unfold countIn
  rw [← interval_append hab hbc, countP_append]
  rfl

lemma countIn_of_forall (hab : a ≤ b)
    (h : ∀ x, a ≤ x → x < b → p x = true) : countIn p a b = b - a := by
  have hall : (interval a b).countP p = (interval a b).length := by
    rw [countP_eq_length]
    intro x hx
    rw [mem_interval] at hx
    exact h x hx.1 hx.2
  unfold countIn
  rw [hall, length_interval hab]

lemma countIn_of_not (h : ∀ x, a ≤ x → x < b → p x = false) : countIn p a b = 0 := by
  have hnone : (interval a b).countP p = 0 := by
    rw [countP_eq_zero]
    intro x hx
    rw [mem_interval] at hx
    simp [h x hx.1 hx.2]
  unfold countIn
  rw [hnone]
  rfl

lemma countIn_le (hab : a ≤ b) : countIn p a b ≤ b - a := by
  have h := countP_le_length (p := p) (l := interval a b)
  have hlen := length_interval hab
  unfold countIn
  omega

lemma countIn_not (hab : a ≤ b) : countIn (fun x => !p x) a b = b - a - countIn p a b := by
  have h := length_eq_countP_add_countP p (l := interval a b)
  have hlen := length_interval hab
  have hnot : (interval a b).countP (fun x => !p x) = (interval a b).countP fun x => ¬p x := by simp
  unfold countIn
  omega

lemma ncard_eq_countIn {s : Set Int} (h : ∀ x, x ∈ s ↔ a ≤ x ∧ x < b ∧ p x = true) :
    (s.ncard : Int) = countIn p a b := by
  have hs : s = ↑((interval a b).filter p).toFinset := by
    ext x
    rw [h, Finset.mem_coe, mem_toFinset, mem_filter, mem_interval, and_assoc]
  unfold countIn
  rw [hs, Set.ncard_coe_finset,
    toFinset_card_of_nodup (nodup_interval.filter p), countP_eq_length_filter]

end BoardStack.Base
